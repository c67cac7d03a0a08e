import TurboXSL.CurrentNode

namespace TurboXSL
namespace CheckedCalls

open Library CurrentNode

/-!
# Checks at the calls of current()

Here `current()` refuses to answer when the nodes do not pass a test.  An
evaluation with this check gives what it gives without, if the nodes pass the
test at every call among the moments, and nothing otherwise.  So the moments
list the calls of `current()` that are made, and no others.
-/

section Evaluator

variable {Num : Type} [Double Num] (env : Env Num) (test : Heap → Bool)

/-- `xf_current` with the check. -/
def checkedCurrent : Eval Num := fun current heap =>
  if test heap then xfCurrent env current heap else none

/-- `xpath_call_dispatcher` with the check. -/
def checkedDispatcher (run : Expr → Eval Num) (name : Bytes) (args : List (Operand Num)) :
    Eval Num :=
  if env.perlFunctions name = none ∧ name = lit "current" then checkedCurrent env test
  else xpathCallDispatcher env run name args

/-- One node of an expression with the check. -/
def checkedNode (run : Expr → Eval Num) (etree : ExprNode) (args : List (Operand Num)) :
    Eval Num := fun current heap =>
  match etree.type with
  | .call => do checkedDispatcher env test run (← etree.name) args current heap
  | _ => executeNode env run etree args current heap

def checkedOperands (run : Expr → Eval Num) : Expr → List (Operand Num)
  | .null => []
  | .node head children next =>
      ⟨head, checkedNode env test run head (checkedOperands run children)⟩ ::
        checkedOperands run next

def checkedKeys : Nat → Expr → Eval Num
  | 0, _ => fun _ _ => none
  | depth + 1, etree => firstOperand (checkedOperands env test (checkedKeys depth) etree)

/-- `xpath_execute_scalar` with the check. -/
def checkedExecute (depth : Nat) (etree : Expr) : Eval Num :=
  firstOperand (checkedOperands env test (checkedKeys env test depth) etree)

end Evaluator

/-! ## Results behind a check -/

section Guards

variable (test : Heap → Bool)

/-- The nodes pass the test at all calls of `current()`. -/
def passes (ms : List Moment) : Bool :=
  ms.all fun moment =>
    match moment with
    | .lookUp _ => true
    | .current nodes => test nodes

/-- What there is if they pass. -/
def guarded {Found : Type} (ms : List Moment) (found : Option Found) : Option Found :=
  if passes test ms then found else none

variable {test} {Found Other : Type} {ms : List Moment} {first checked : Option Found}

theorem guarded_none (ms : List Moment) : guarded test ms (none : Option Found) = none := by
  unfold guarded
  split <;> rfl

theorem guarded_append (ms more : List Moment) (found : Option Found) :
    guarded test (ms ++ more) found = guarded test ms (guarded test more found) := by
  unfold guarded passes
  rw [List.all_append]
  cases List.all ms _ <;> rfl

/-- One part of an evaluation after the other. -/
theorem guarded_bind {behind : Found → List Moment} {next nextChecked : Found → Option Other}
    (left : checked = guarded test ms first)
    (right : ∀ found, first = some found →
      nextChecked found = guarded test (behind found) (next found)) :
    checked.bind nextChecked = guarded test (ms ++ following first behind) (first.bind next) := by
  rw [left, guarded_append]
  cases first with
  | none => rw [guarded_none, Option.bind_none, Option.bind_none, guarded_none, guarded_none]
  | some found =>
      rw [Option.bind_some, following, ← right found rfl, guarded, guarded]
      split <;> rfl

/-- The rest of an evaluation without calls. -/
theorem guarded_before (left : checked = guarded test ms first) (next : Found → Option Other) :
    checked.bind next = guarded test ms (first.bind next) := by
  rw [left, guarded, guarded]
  split <;> rfl

end Guards

/-! ## Operands -/

section Operands

variable {Num : Type} {test : Heap → Bool}

/-- With the check an evaluator gives nothing else, and gives nothing if the
nodes fail at one of the moments. -/
def Checks (test : Heap → Bool) (ms : Moments) (eval checked : Eval Num) : Prop :=
  ∀ current heap, checked current heap = guarded test (ms current heap) (eval current heap)

/-- An operand beside the same one with the check. -/
structure CheckedOperand (test : Heap → Bool) (watched : Watched Num) (checked : Operand Num) :
    Prop where
  head : checked.head = watched.operand.head
  run : Checks test watched.moments watched.operand.run checked.run

/-- All the operands of a node. -/
abbrev CheckedAll (test : Heap → Bool) : List (Watched Num) → List (Operand Num) → Prop :=
  List.Forall₂ (CheckedOperand test)

variable {args : List (Watched Num)} {checked : List (Operand Num)}

/-- An evaluator that calls for no operands. -/
theorem Checks.quiet (eval : Eval Num) : Checks test (fun _ _ => []) eval eval :=
  fun _ _ => rfl

theorem evalOperands_checked (all : CheckedAll test args checked) (current : NodeId) (heap : Heap) :
    evalOperands checked current heap =
      guarded test (inTurn args current heap) (evalOperands (operandsOf args) current heap) := by
  induction all generalizing heap with
  | nil => rfl
  | cons operand _ inductionHypothesis =>
      refine guarded_bind (operand.run current heap) fun found _ => ?_
      exact guarded_before (inductionHypothesis found.2) _

theorem firstOperand_checked (all : CheckedAll test args checked) :
    Checks test (inTurn (args.take 1)) (firstOperand (operandsOf args)) (firstOperand checked) := by
  intro current heap
  cases all with
  | nil => rfl
  | cons operand _ =>
      rw [inTurn_one]
      exact operand.run current heap

theorem secondOperand_checked (all : CheckedAll test args checked) :
    Checks test (inTurn ((args.drop 1).take 1)) (secondOperand (operandsOf args))
      (secondOperand checked) := by
  cases all with
  | nil => exact .quiet _
  | cons _ rest => exact firstOperand_checked rest

theorem evalBoth_checked (all : CheckedAll test args checked) (current : NodeId) (heap : Heap) :
    evalBoth checked current heap =
      guarded test (inTurn (args.take 2) current heap) (evalBoth (operandsOf args) current heap) := by
  rw [inTurn_two]
  refine guarded_bind (firstOperand_checked all current heap) fun found _ => ?_
  exact guarded_before (secondOperand_checked all current found.2) _

/-- An evaluator that only looks at its first operand. -/
theorem first_checked (eval : List (Operand Num) → Eval Num)
    {next : NodeId → RValue Num × Heap → Option (RValue Num × Heap)}
    (splits : ∀ operand rest current heap, eval (operand :: rest) current heap =
      (operand.run current heap).bind (next current))
    (all : CheckedAll test args checked) :
    Checks test (inTurn (args.take 1)) (eval (operandsOf args)) (eval checked) := by
  intro current heap
  cases all with
  | nil => rfl
  | cons operand _ =>
      rw [inTurn_one, splits, operandsOf, List.map_cons, splits]
      exact guarded_before (operand.run current heap) _

variable [Double Num]

theorem filterTest_checked {expr : Watched Num} {exprChecked : Operand Num}
    (operand : CheckedOperand test expr exprChecked) (node : NodeId) (heap : Heap) :
    filterTest exprChecked node heap =
      guarded test (if expr.operand.head.type = .int then [] else expr.moments node heap)
        (filterTest expr.operand node heap) := by
  unfold filterTest
  rw [operand.head]
  split
  next => rfl
  next => exact guarded_before (operand.run node heap) _

theorem filterNodes_checked {expr : Watched Num} {exprChecked : Operand Num}
    (operand : CheckedOperand test expr exprChecked) (nodes : List NodeId) (heap : Heap)
    (tmp : Ptr) (pos : Nat) :
    filterNodes exprChecked heap tmp pos nodes =
      guarded test (inFilterNodes expr heap tmp pos nodes)
        (filterNodes expr.operand heap tmp pos nodes) := by
  induction nodes generalizing heap tmp pos with
  | nil => rfl
  | cons node rest inductionHypothesis =>
      refine guarded_bind (filterTest_checked operand node heap) fun found _ => ?_
      rcases found with ⟨selected, middle⟩
      cases selected with
      | false => exact inductionHypothesis middle tmp pos
      | true =>
          exact guarded_before (inductionHypothesis (addToSelection middle tmp node (pos + 1)).1 _
            (pos + 1)) _

theorem xpathFilter_checked (all : CheckedAll test args checked) (heap : Heap) (nodeset : Ptr) :
    xpathFilter heap nodeset checked.tail.head? =
      guarded test (inFilter heap nodeset args.tail.head?)
        (xpathFilter heap nodeset (operandsOf args).tail.head?) := by
  cases nodeset with
  | none => rfl
  | some head =>
      rw [inFilter, xpathFilter, xpathFilter, following]
      dsimp only [Option.bind_eq_bind]
      cases siblings heap
          (if (heap.get head).type = .empty then (heap.get head).children else some head) with
      | none => rfl
      | some nodes =>
          cases all with
          | nil => rfl
          | cons _ rest =>
              cases rest with
              | nil => rfl
              | cons expr _ => exact filterNodes_checked expr nodes heap none 0

theorem unionOperands_checked (all : CheckedAll test args checked) (current : NodeId) (heap : Heap)
    (tmp selection : Ptr) (pos : Nat) :
    unionOperands checked current heap tmp selection pos =
      guarded test (inUnion args current heap tmp pos)
        (unionOperands (operandsOf args) current heap tmp selection pos) := by
  induction all generalizing heap tmp selection pos with
  | nil => rfl
  | cons operand _ inductionHypothesis =>
      rw [operandsOf, List.map_cons, unionOperands_cons, unionOperands_cons]
      refine guarded_bind (operand.run current heap) fun found _ => ?_
      cases unionMember found.1 found.2 with
      | none => rfl
      | some member =>
          cases member with
          | none => exact inductionHypothesis found.2 tmp selection pos
          | some placing =>
              rcases placing with ⟨middle, src⟩
              rw [following, Option.bind_some, Option.bind_some]
              dsimp only
              cases xmlAddSiblings middle tmp src pos with
              | none => rfl
              | some place => exact inductionHypothesis place.1 place.2.1 _ place.2.2

theorem anyOperand_checked (stop : Bool) (all : CheckedAll test args checked) :
    Checks test (inAny stop args) (anyOperand stop (operandsOf args)) (anyOperand stop checked) := by
  induction all with
  | nil => exact .quiet _
  | cons operand _ inductionHypothesis =>
      intro current heap
      refine guarded_bind (operand.run current heap) fun found _ => ?_
      dsimp only
      split
      next => rfl
      next => exact inductionHypothesis current found.2

/-! ### Functions -/

omit [Double Num] in
theorem callScalar_checked (function : ScalarFunction Num) (all : CheckedAll test args checked) :
    Checks test (inTurn (args.take function.arity)) (callScalar function (operandsOf args))
      (callScalar function checked) := by
  intro current heap
  have operands := evalOperands_checked (List.forall₂_take function.arity all) current heap
  unfold operandsOf at operands
  rw [List.map_take] at operands
  exact guarded_before operands _

theorem doCallback_checked (callback : List Bytes → Option Bytes)
    (all : CheckedAll test args checked) :
    Checks test (inTurn (args.take 29)) (doCallback callback (operandsOf args))
      (doCallback callback checked) := by
  intro current heap
  have operands := evalOperands_checked (List.forall₂_take 29 all) current heap
  unfold operandsOf at operands
  rw [List.map_take] at operands
  exact guarded_before operands _

section Keys

variable {env : Env Num} {run runChecked : Expr → Eval Num} {below : Expr → Moments}
  (checks : ∀ etree, Checks test (below etree) (run etree) (runChecked etree))

include checks

omit [Double Num] in
theorem xpathEvalSelection_checked (etree : Expr) (current : NodeId) (heap : Heap) :
    xpathEvalSelection env runChecked etree current heap =
      guarded test (inSelection env below etree current heap)
        (xpathEvalSelection env run etree current heap) := by
  unfold inSelection xpathEvalSelection
  split
  next => rfl
  next =>
      cases locals : env.locals with
      | none => exact (guarded_none _).symm
      | some l =>
          have begins : begun env heap current =
              heap.modify l fun cell => { cell with parent := some current } := by
            rw [begun, locals]
          rw [begins]
          exact guarded_before (checks etree current _) _

theorem xfKey_checked (all : CheckedAll test args checked) :
    Checks test (inKey env below args) (xfKey env run (operandsOf args)) (xfKey env runChecked checked) := by
  intro current heap
  refine guarded_bind (firstOperand_checked all current heap) fun name _ => ?_
  rcases name with ⟨name, middle⟩
  dsimp only [Option.bind_eq_bind]
  cases rval2string middle name with
  | none => rfl
  | some keyName =>
      cases keyName with
      | none => rfl
      | some keyName =>
          dsimp only [Option.bind_some, Option.join_some, following_some]
          have lengths : checked.length = (operandsOf args).length := by
            rw [operandsOf, List.length_map, all.length_eq]
          rw [lengths]
          split
          next short =>
              rw [behindName_short short]
              rfl
          next =>
              refine guarded_bind (secondOperand_checked all current middle) fun value _ => ?_
              rcases value with ⟨value, last⟩
              dsimp only
              cases rval2string last value with
              | none => rfl
              | some keyValue =>
                  cases keyValue with
                  | none => rfl
                  | some keyValue =>
                      dsimp only [Option.bind_some, Option.join_some, following_some]
                      cases env.keys.find? fun key => key.1 = keyName with
                      | none => rfl
                      | some key =>
                          dsimp only [following_some]
                          cases env.findExpr (key.2 keyValue) with
                          | none => rfl
                          | some etree =>
                              exact guarded_before (xpathEvalSelection_checked checks etree current last) _

theorem xpathCallDispatcher_checked (all : CheckedAll test args checked) (name : Bytes) :
    Checks test (inCall env below name args) (xpathCallDispatcher env run name (operandsOf args))
      (checkedDispatcher env test runChecked name checked) := by
  intro current heap
  unfold checkedDispatcher inCall xpathCallDispatcher
  cases env.perlFunctions name with
  | some callback =>
      rw [if_neg (fun both => nomatch both.1)]
      exact doCallback_checked callback all current heap
  | none =>
      dsimp only
      by_cases isCurrent : name = lit "current"
      · rw [if_pos ⟨rfl, isCurrent⟩, if_pos isCurrent, if_pos isCurrent, guarded, passes,
          List.all_cons, List.all_nil, Bool.and_true]
        rfl
      · rw [if_neg fun both => isCurrent both.2, if_neg isCurrent, if_neg isCurrent, if_neg isCurrent]
        by_cases isText : name = lit "text"
        · rw [if_pos isText, if_pos isText, if_pos (.inl isText)]
          rfl
        · rw [if_neg isText, if_neg isText]
          by_cases isNode : name = lit "node"
          · rw [if_pos isNode, if_pos isNode, if_pos (.inr isNode)]
            rfl
          · rw [if_neg isNode, if_neg isNode, if_neg (not_or_intro isText isNode)]
            by_cases isDocument : name = lit "document"
            · rw [if_pos isDocument, if_pos isDocument, if_pos (.inl isDocument)]
              exact guarded_before (firstOperand_checked all current heap) _
            · rw [if_neg isDocument, if_neg isDocument]
              by_cases isExnodeset : name = lit "exsl:node-set"
              · rw [if_pos isExnodeset, if_pos isExnodeset, if_pos (.inr isExnodeset)]
                exact guarded_before (firstOperand_checked all current heap) _
              · rw [if_neg isExnodeset, if_neg isExnodeset,
                  if_neg (not_or_intro isDocument isExnodeset)]
                by_cases isKey : name = lit "key"
                · rw [if_pos isKey, if_pos isKey, if_pos isKey]
                  exact xfKey_checked checks all current heap
                · rw [if_neg isKey, if_neg isKey, if_neg isKey]
                  cases (scalarFunction name).or (env.functions name) with
                  | some function => exact callScalar_checked function all current heap
                  | none => rfl

/-- One node of an expression. -/
theorem executeNode_checked (all : CheckedAll test args checked) (etree : ExprNode) :
    Checks test (inNode env below etree args) (executeNode env run etree (operandsOf args))
      (checkedNode env test runChecked etree checked) := by
  intro current heap
  unfold inNode checkedNode executeNode
  cases etree.type with
  | int | text | root | context | var => rfl
  | union => exact guarded_before (unionOperands_checked all current heap none none 0) _
  | filter =>
      refine guarded_bind (firstOperand_checked all current heap) fun found _ => ?_
      rcases found with ⟨value, middle⟩
      cases value with
      | nodeset nodeset => exact guarded_before (xpathFilter_checked all middle nodeset) _
      | null | bool | int | number | string => rfl
  | all | select | parent | self | descendant | descendantOrSelf | ancestor | ancestorOrSelf
  | precedingSibling | preceding | followingSibling | following =>
      exact first_checked (xpathSelectCommon etree) (fun _ _ _ _ => rfl) all current heap
  | or | and => exact anyOperand_checked _ all current heap
  | eq | ne | lt | le | gt | ge | add | sub | mul | div | mod =>
      exact guarded_before (evalBoth_checked all current heap) _
  | not => exact guarded_before (firstOperand_checked all current heap) _
  | call =>
      cases etree.name with
      | none => rfl
      | some name => exact xpathCallDispatcher_checked checks all name current heap
  | attr => exact first_checked (attributeStep etree) (fun _ _ _ _ => rfl) all current heap
  | attrAll => exact first_checked allAttributesStep (fun _ _ _ _ => rfl) all current heap

/-- By recursion over the links of the expression. -/
theorem watch_checked (etree : Expr) :
    CheckedAll test (watch env run below etree) (checkedOperands env test runChecked etree) := by
  induction etree with
  | null => exact .nil
  | node head children next inside behind =>
      refine .cons ⟨rfl, ?_⟩ behind
      exact executeNode_checked checks inside head

end Keys

/-! ## Whole evaluations -/

/-- The expressions that keys stand for, by induction on how deep they are
nested. -/
theorem inKeys_checked (env : Env Num) (depth : Nat) (etree : Expr) :
    Checks test (inKeys env depth etree) (keyEval env depth etree)
      (checkedKeys env test depth etree) := by
  induction depth generalizing etree with
  | zero => exact .quiet _
  | succ depth inductionHypothesis =>
      rw [keyEval, ← operandsOf_watch env (keyEval env depth) (inKeys env depth)]
      exact firstOperand_checked (watch_checked inductionHypothesis etree)

/-- The evaluation with the check is the evaluation, as far as the nodes pass
at its moments. -/
theorem xpathExecuteScalar_checked (env : Env Num) (depth : Nat) (etree : Expr) :
    Checks test (moments env depth etree) (xpathExecuteScalar env depth etree)
      (checkedExecute env test depth etree) := by
  rw [xpathExecuteScalar, operandsAt, ← operandsOf_watch env (keyEval env depth) (inKeys env depth)]
  exact firstOperand_checked (watch_checked (inKeys_checked env depth) etree)

omit [Double Num] in
theorem passes_iff {ms : List Moment} :
    passes test ms = true ↔ ∀ nodes, .current nodes ∈ ms → test nodes = true := by
  unfold passes
  rw [List.all_eq_true]
  constructor
  · intro all nodes called
    exact all _ called
  · intro all moment member
    cases moment with
    | lookUp node => rfl
    | current nodes => exact all nodes member

/-- Where there is an answer, `current()` has yielded `n` all along if and only
if a check for `n` at every call lets it through. -/
theorem checkedExecute_isSome_iff {env : Env Num} {l : NodeId} (locals : env.locals = some l)
    (depth : Nat) (etree : Expr) (n current : NodeId) (heap : Heap)
    (answered : (xpathExecuteScalar env depth etree current heap).isSome) :
    (checkedExecute env (fun nodes => decide (field l nodes = some n)) depth etree current
      heap).isSome ↔
    ∀ nodes, .current nodes ∈ moments env depth etree current heap →
      ∀ other, xfCurrent env other nodes = single n other nodes := by
  rw [xpathExecuteScalar_checked env depth etree current heap, guarded]
  constructor
  · intro some_ nodes called other
    apply (xfCurrent_eq_single_iff locals n other nodes).mpr
    split at some_
    next through => exact of_decide_eq_true (passes_iff.mp through nodes called)
    next => cases some_
  · intro yields
    rw [if_pos]
    · exact answered
    · apply passes_iff.mpr
      intro nodes called
      exact decide_eq_true ((xfCurrent_eq_single_iff locals n n nodes).mp (yields nodes called n))

end Operands

end CheckedCalls
end TurboXSL
