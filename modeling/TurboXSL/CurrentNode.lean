import TurboXSL.XPathFrame

namespace TurboXSL
namespace CurrentNode

open Library

/-!
# What current() yields

An evaluation begins with the current node put into `locals`, where
`xf_current` finds it.  `xf_key` begins another evaluation from the node that
it is called for, and does not put the old node back.  The moments of an
evaluation are the calls of `current()` and the look-ups of keys, in the order
in which they happen: between them the node in `locals` stays as it is, so
every call of `current()` yields the node of the last look-up before it.
-/

/-- A look-up of a key from a node, or a call of `current()` with the nodes
that there are. -/
inductive Moment where
  | lookUp (node : NodeId)
  | current (heap : Heap)

/-- The moments of an evaluation for a node. -/
abbrev Moments := NodeId → Heap → List Moment

/-- An operand with the moments of its evaluation. -/
structure Watched (Num : Type) where
  operand : Operand Num
  moments : Moments

section Moments

variable {Num : Type} [Double Num] (env : Env Num)

/-- The operands. -/
def operandsOf (args : List (Watched Num)) : List (Operand Num) := args.map Watched.operand

/-- What happens behind a part of the evaluation that has a result. -/
def following {Found : Type} (found : Option Found) (behind : Found → List Moment) :
    List Moment :=
  match found with
  | none => []
  | some found => behind found

/-- Operands evaluated from the left. -/
def inTurn : List (Watched Num) → Moments
  | [], _, _ => []
  | watched :: rest, current, heap =>
      watched.moments current heap ++
        following (watched.operand.run current heap) fun found => inTurn rest current found.2

/-- The loop of `xpath_filter`. -/
def inFilterNodes (expr : Watched Num) : Heap → Ptr → Nat → List NodeId → List Moment
  | _, _, _, [] => []
  | heap, tmp, pos, node :: rest =>
      (if expr.operand.head.type = .int then [] else expr.moments node heap) ++
        following (filterTest expr.operand node heap) fun found =>
          if found.1 then
            inFilterNodes expr (addToSelection found.2 tmp node (pos + 1)).1
              (some (addToSelection found.2 tmp node (pos + 1)).2) (pos + 1) rest
          else inFilterNodes expr found.2 tmp pos rest

/-- `xpath_filter` -/
def inFilter (heap : Heap) (nodeset : Ptr) (expr : Option (Watched Num)) : List Moment :=
  following nodeset fun head =>
    following (siblings heap
        (if (heap.get head).type = .empty then (heap.get head).children else some head)) fun nodes =>
      following expr fun expr => inFilterNodes expr heap none 0 nodes

/-- What an operand of a union adds: nothing for a NULL string, and a new text
node for another value that is no node-set. -/
def unionMember (value : RValue Num) (heap : Heap) : Option (Option (Heap × Ptr)) :=
  match value with
  | .nodeset nodeset => some (some (heap, nodeset))
  | value => do
      match ← rval2string heap value with
      | none => some none
      | some name =>
          let (heap, expr) := xmlNewNode heap none .text
          some (some (heap.modify expr fun cell => { cell with content := some name }, some expr))

/-- The loop of `XPATH_NODE_UNION`. -/
def inUnion : List (Watched Num) → NodeId → Heap → Ptr → Nat → List Moment
  | [], _, _, _, _ => []
  | watched :: rest, current, heap, tmp, pos =>
      watched.moments current heap ++
        following (watched.operand.run current heap) fun found =>
          following (unionMember found.1 found.2) fun member =>
            match member with
            | none => inUnion rest current found.2 tmp pos
            | some (heap, src) =>
                following (xmlAddSiblings heap tmp src pos) fun placed =>
                  inUnion rest current placed.1 placed.2.1 placed.2.2

/-- The loops of `XPATH_NODE_OR` and `XPATH_NODE_AND`. -/
def inAny (stop : Bool) : List (Watched Num) → Moments
  | [], _, _ => []
  | watched :: rest, current, heap =>
      watched.moments current heap ++
        following (watched.operand.run current heap) fun found =>
          if rval2bool found.1 = stop then [] else inAny stop rest current found.2

/-- The nodes when a node is put into `locals`. -/
def begun (heap : Heap) (current : NodeId) : Heap :=
  match env.locals with
  | none => heap
  | some locals => heap.modify locals fun cell => { cell with parent := some current }

/-- `xpath_eval_selection` -/
def inSelection (below : Expr → Moments) (etree : Expr) : Moments := fun current heap =>
  if etree = .null then []
  else .lookUp current :: below etree current (begun env heap current)

/-- `xf_key` -/
def inKey (below : Expr → Moments) (args : List (Watched Num)) : Moments := fun current heap =>
  inTurn (args.take 1) current heap ++
    following (firstOperand (operandsOf args) current heap) fun name =>
      following (rval2string name.2 name.1).join fun keyName =>
        inTurn ((args.drop 1).take 1) current name.2 ++
          following (secondOperand (operandsOf args) current name.2) fun value =>
            following (rval2string value.2 value.1).join fun keyValue =>
              following (env.keys.find? fun key => key.1 = keyName) fun key =>
                following (env.findExpr (key.2 keyValue)) fun etree =>
                  inSelection env below etree current value.2

/-- `xpath_call_dispatcher` -/
def inCall (below : Expr → Moments) (name : Bytes) (args : List (Watched Num)) : Moments :=
  fun current heap =>
    match env.perlFunctions name with
    | some _ => inTurn (args.take 29) current heap
    | none =>
        if name = lit "current" then [.current heap]
        else if name = lit "text" ∨ name = lit "node" then []
        else if name = lit "document" ∨ name = lit "exsl:node-set" then
          inTurn (args.take 1) current heap
        else if name = lit "key" then inKey env below args current heap
        else
          match (scalarFunction name).or (env.functions name) with
          | some function => inTurn (args.take function.arity) current heap
          | none => []

/-- The switch of `xpath_execute_scalar`. -/
def inNode (below : Expr → Moments) (etree : ExprNode) (args : List (Watched Num)) : Moments :=
  fun current heap =>
    match etree.type with
    | .int | .root | .context | .text | .var => []
    | .union => inUnion args current heap none 0
    | .filter =>
        inTurn (args.take 1) current heap ++
          following (firstOperand (operandsOf args) current heap) fun found =>
            match found.1 with
            | .nodeset nodeset => inFilter found.2 nodeset args.tail.head?
            | _ => []
    | .or => inAny true args current heap
    | .and => inAny false args current heap
    | .eq | .ne | .lt | .le | .gt | .ge | .add | .sub | .mul | .div | .mod =>
        inTurn (args.take 2) current heap
    | .call => following etree.name fun name => inCall env below name args current heap
    | .all | .select | .parent | .self | .descendant | .descendantOrSelf | .ancestor
    | .ancestorOrSelf | .precedingSibling | .preceding | .followingSibling | .following
    | .attr | .attrAll | .not => inTurn (args.take 1) current heap

/-- The evaluators of an expression and of its siblings behind it. -/
def watch (run : Expr → Eval Num) (below : Expr → Moments) : Expr → List (Watched Num)
  | .null => []
  | .node head children next =>
      ⟨⟨head, executeNode env run head (operandsOf (watch run below children))⟩,
        inNode env below head (watch run below children)⟩ :: watch run below next

/-- The moments of the expressions of keys, nested at most so deep. -/
def inKeys : Nat → Expr → Moments
  | 0, _ => fun _ _ => []
  | depth + 1, etree => inTurn ((watch env (keyEval env depth) (inKeys depth) etree).take 1)

/-- The moments of `xpath_execute_scalar`. -/
def moments (depth : Nat) (etree : Expr) : Moments :=
  inTurn ((watch env (keyEval env depth) (inKeys env depth) etree).take 1)

end Moments

/-! ## The node in `locals` -/

/-- The node from which a key is looked up. -/
def Moment.lookedUp : Moment → Option NodeId
  | .lookUp node => some node
  | .current _ => none

/-- The node of the last look-up. -/
def lastLookUp (ms : List Moment) : Option NodeId := ms.reverse.findSome? Moment.lookedUp

theorem lastLookUp_append (first second : List Moment) :
    lastLookUp (first ++ second) = (lastLookUp second).or (lastLookUp first) := by
  rw [lastLookUp, List.reverse_append, List.findSome?_append]
  rfl

/-- The nodes that there were keep their parents. -/
structure Leaves (before after : Heap) : Prop where
  grows : before.size ≤ after.size
  parents : ∀ n < before.size, (after.get n).parent = (before.get n).parent

theorem Leaves.refl (heap : Heap) : Leaves heap heap := ⟨Nat.le_refl _, fun _ _ => rfl⟩

theorem Leaves.trans {before middle after : Heap} (left : Leaves before middle)
    (right : Leaves middle after) : Leaves before after where
  grows := Nat.le_trans left.grows right.grows
  parents := by
    intro n small
    rw [right.parents n (Nat.lt_of_lt_of_le small left.grows), left.parents n small]

theorem Leaves.of_allocates {before after : Heap} (allocates : Allocates none before after) :
    Leaves before after where
  grows := allocates.grows
  parents := by
    intro n small
    rw [allocates.same n small nofun]

theorem modify_leaves (heap : Heap) (node : NodeId) {change : XmlNode → XmlNode}
    (parent : ∀ cell, (change cell).parent = cell.parent) : Leaves heap (heap.modify node change) where
  grows := Nat.le_refl _
  parents := by
    intro n _
    by_cases at_ : n = node
    · rw [at_, Arena.modify_get_same, parent]
    · rw [Arena.modify_get_of_ne _ _ at_]

theorem setNext_leaves (heap : Heap) (node next : Ptr) : Leaves heap (setNext heap node next) := by
  cases node with
  | none => exact .refl heap
  | some node =>
      rw [setNext]
      apply modify_leaves
      exact fun _ => rfl

theorem addToSelection_leaves (heap : Heap) (prev : Ptr) (src : NodeId) (position : Nat) :
    Leaves heap (addToSelection heap prev src position).1 :=
  (Leaves.of_allocates ((Allocates.refl none heap).alloc rfl)).trans (setNext_leaves _ _ _)

theorem setPositions_leaves (nodes : List (NodeId × Nat)) (heap : Heap) :
    Leaves heap (nodes.foldl
      (fun heap node => heap.modify node.1 fun cell => { cell with position := node.2 }) heap) := by
  induction nodes generalizing heap with
  | nil => exact .refl heap
  | cons node nodes inductionHypothesis =>
      refine .trans ?_ (inductionHypothesis _)
      apply modify_leaves
      exact fun _ => rfl

theorem xmlAddSiblings_leaves {heap : Heap} {prev src : Ptr} {pos : Nat}
    {placed : Heap × Ptr × Nat} (added : xmlAddSiblings heap prev src pos = some placed) :
    Leaves heap placed.1 := by
  unfold xmlAddSiblings at added
  cases src with
  | none =>
      cases added
      exact .refl heap
  | some head =>
      rcases Option.bind_eq_some_iff.mp added with ⟨nodes, -, done⟩
      cases done
      refine .trans ?_ (setPositions_leaves _ _)
      cases prev with
      | none => exact .refl heap
      | some prev =>
          refine (setNext_leaves heap (some prev) (some head)).trans ?_
          apply modify_leaves
          exact fun _ => rfl

section Tracking

variable (l : NodeId)

/-- The node in `locals`. -/
def field (heap : Heap) : Ptr := (heap.get l).parent

/-- At every call of `current()` the field, which was `first` at the beginning,
has the node of the last look-up. -/
def Follows (first : Ptr) (ms : List Moment) : Prop :=
  ∀ before heap after, ms = before ++ .current heap :: after →
    field l heap = (lastLookUp before).or first

/-- From `heap` on the field changes only in the moments, and it is as they
have left it if there is an outcome. -/
structure Tracks (heap : Heap) (ms : List Moment) (outcome : Option Heap) : Prop where
  follows : Follows l (field l heap) ms
  present : ∀ after, outcome = some after → l < after.size
  ends : ∀ after, outcome = some after → field l after = (lastLookUp ms).or (field l heap)

variable {l} {heap middle after : Heap} {ms more : List Moment} {outcome : Option Heap}

theorem Follows.append {first : Ptr} (left : Follows l first ms)
    (right : Follows l ((lastLookUp ms).or first) more) : Follows l first (ms ++ more) := by
  intro before heap after split
  rcases List.append_eq_append_iff.mp split with ⟨between, rfl, behind⟩ | ⟨between, inside, behind⟩
  · rw [right between heap after behind, lastLookUp_append, Option.or_assoc]
  · cases between with
    | nil =>
        rw [List.append_nil] at inside
        rw [right [] heap after behind.symm, inside]
        rfl
    | cons moment between =>
        cases behind
        exact left before heap between inside

theorem Tracks.refl (present : l < heap.size) : Tracks l heap [] (some heap) where
  follows := fun before _ _ split => by cases before <;> cases split
  present := by
    rintro after ⟨⟩
    exact present
  ends := by
    rintro after ⟨⟩
    rfl

/-- One part of an evaluation after the other. -/
theorem Tracks.append (left : Tracks l heap ms (some middle))
    (right : Tracks l middle more outcome) : Tracks l heap (ms ++ more) outcome := by
  have between := left.ends middle rfl
  refine ⟨left.follows.append (between ▸ right.follows), right.present, fun after same => ?_⟩
  rw [right.ends after same, between, lastLookUp_append, Option.or_assoc]

/-- Nothing comes of the evaluation. -/
theorem Tracks.stuck (tracks : Tracks l heap ms outcome) : Tracks l heap ms none where
  follows := tracks.follows
  present := nofun
  ends := nofun

theorem Tracks.nothing : Tracks l heap [] none where
  follows := fun before _ _ split => by cases before <;> cases split
  present := nofun
  ends := nofun

theorem Tracks.quiet (present : l < heap.size)
    (leaves : ∀ after, outcome = some after → Leaves heap after) : Tracks l heap [] outcome where
  follows := fun before _ _ split => by cases before <;> cases split
  present := fun after same => Nat.lt_of_lt_of_le present (leaves after same).grows
  ends := fun after same => (leaves after same).parents l present

/-- A call of `current()`, which leaves the field as it is. -/
theorem Tracks.called (quiet : Tracks l heap [] outcome) :
    Tracks l heap [.current heap] outcome where
  follows := by
    intro before nodes after split
    cases before with
    | nil =>
        cases split
        rfl
    | cons _ before => cases before <;> cases split
  present := quiet.present
  ends := quiet.ends

/-- Nodes are made before the evaluation goes on. -/
theorem Tracks.earlier (present : l < heap.size) (leaves : Leaves heap middle)
    (tracks : Tracks l middle ms outcome) : Tracks l heap ms outcome := by
  have made : Tracks l heap [] (some middle) := by
    refine .quiet present ?_
    rintro after ⟨⟩
    exact leaves
  exact made.append tracks

variable {Value Other : Type} {first : Option (Value × Heap)}
  {next : Value × Heap → Option (Other × Heap)}

/-- What comes after a part of an evaluation, with moments of its own. -/
theorem Tracks.then_ {behind : Value × Heap → List Moment} {rest : Value × Heap → Option Heap}
    (left : Tracks l heap ms (first.map Prod.snd))
    (right : ∀ found, first = some found → l < found.2.size →
      Tracks l found.2 (behind found) (rest found)) :
    Tracks l heap (ms ++ following first behind) (first.bind rest) := by
  cases first with
  | none =>
      rw [following, List.append_nil]
      exact left
  | some found => exact left.append (right found rfl (left.present _ rfl))

theorem Tracks.bind {behind : Value × Heap → List Moment}
    (left : Tracks l heap ms (first.map Prod.snd))
    (right : ∀ found, first = some found → l < found.2.size →
      Tracks l found.2 (behind found) ((next found).map Prod.snd)) :
    Tracks l heap (ms ++ following first behind) ((first.bind next).map Prod.snd) := by
  rw [Option.map_bind]
  exact left.then_ right

/-- What comes after a part of an evaluation, without moments. -/
theorem Tracks.before (left : Tracks l heap ms (first.map Prod.snd))
    (leaves : ∀ found result, first = some found → next found = some result →
      Leaves found.2 result.2) : Tracks l heap ms ((first.bind next).map Prod.snd) := by
  cases first with
  | none => exact left
  | some found =>
      have quiet : Tracks l found.2 [] ((next found).map Prod.snd) := by
        refine .quiet (left.present _ rfl) fun after same => ?_
        rcases Option.map_eq_some_iff.mp same with ⟨result, done, rfl⟩
        exact leaves found result rfl done
      have whole := left.append quiet
      rwa [List.append_nil] at whole

end Tracking

/-! ## Operands -/

section Operands

variable {Num : Type} {l : NodeId}

/-- The moments of an evaluator are told completely. -/
def TracksEval (l : NodeId) (ms : Moments) (eval : Eval Num) : Prop :=
  ∀ current heap, l < heap.size →
    Tracks l heap (ms current heap) ((eval current heap).map Prod.snd)

/-- The operands are watched. -/
def TracksAll (l : NodeId) (args : List (Watched Num)) : Prop :=
  ∀ watched ∈ args, TracksEval l watched.moments watched.operand.run

variable {args : List (Watched Num)}

theorem TracksAll.nil : TracksAll l ([] : List (Watched Num)) :=
  fun _ impossible => absurd impossible List.not_mem_nil

theorem TracksAll.take (all : TracksAll l args) (n : Nat) : TracksAll l (args.take n) :=
  fun watched member => all watched (List.mem_of_mem_take member)

theorem TracksAll.drop (all : TracksAll l args) (n : Nat) : TracksAll l (args.drop n) :=
  fun watched member => all watched (List.mem_of_mem_drop member)

theorem evalOperands_tracks (all : TracksAll l args) (current : NodeId) {heap : Heap}
    (present : l < heap.size) :
    Tracks l heap (inTurn args current heap)
      ((evalOperands (operandsOf args) current heap).map Prod.snd) := by
  induction args generalizing heap with
  | nil => exact .refl present
  | cons watched rest inductionHypothesis =>
      refine .bind (all watched List.mem_cons_self current heap present) fun found _ inside => ?_
      refine .before (inductionHypothesis (fun other member =>
        all other (List.mem_cons_of_mem _ member)) inside) ?_
      rintro values result _ ⟨⟩
      exact .refl _

theorem following_some {Found : Type} (found : Found) (behind : Found → List Moment) :
    following (some found) behind = behind found := rfl

theorem following_nil {Found : Type} (found : Option Found) :
    following found (fun _ => []) = [] := by
  cases found <;> rfl

theorem inTurn_one (watched : Watched Num) (rest : List (Watched Num)) (current : NodeId)
    (heap : Heap) :
    inTurn ((watched :: rest).take 1) current heap = watched.moments current heap := by
  rw [List.take_succ_cons, List.take_zero, inTurn]
  exact (congrArg _ (following_nil _)).trans (List.append_nil _)

theorem firstOperand_tracks (all : TracksAll l args) :
    TracksEval l (inTurn (args.take 1)) (firstOperand (operandsOf args)) := by
  intro current heap present
  cases args with
  | nil => exact .refl present
  | cons watched rest =>
      rw [inTurn_one]
      exact all watched List.mem_cons_self current heap present

theorem secondOperand_tracks (all : TracksAll l args) :
    TracksEval l (inTurn ((args.drop 1).take 1)) (secondOperand (operandsOf args)) := by
  cases args with
  | nil => exact fun _ _ _ => .nothing
  | cons watched rest =>
      exact firstOperand_tracks fun other member => all other (List.mem_cons_of_mem _ member)

theorem inTurn_two (args : List (Watched Num)) (current : NodeId) (heap : Heap) :
    inTurn (args.take 2) current heap = inTurn (args.take 1) current heap ++
      following (firstOperand (operandsOf args) current heap) fun found =>
        inTurn ((args.drop 1).take 1) current found.2 := by
  cases args with
  | nil => rfl
  | cons watched rest =>
      rw [inTurn_one]
      rfl

theorem evalBoth_tracks (all : TracksAll l args) {current : NodeId} {heap : Heap}
    (present : l < heap.size) :
    Tracks l heap (inTurn (args.take 2) current heap)
      ((evalBoth (operandsOf args) current heap).map fun both => both.2.2) := by
  rw [inTurn_two]
  have both : (evalBoth (operandsOf args) current heap).map (fun both => both.2.2) =
      ((firstOperand (operandsOf args) current heap).bind fun found =>
        secondOperand (operandsOf args) current found.2).map Prod.snd := by
    unfold evalBoth
    cases firstOperand (operandsOf args) current heap with
    | none => rfl
    | some found =>
        dsimp only [Option.bind_eq_bind, Option.bind_some]
        cases secondOperand (operandsOf args) current found.2 <;> rfl
  rw [both]
  exact .bind (firstOperand_tracks all current heap present) fun found _ inside =>
    secondOperand_tracks all current found.2 inside

/-- An evaluator that only looks at its first operand. -/
theorem first_tracks (all : TracksAll l args) {eval : Eval Num}
    {next : NodeId → RValue Num × Heap → Option (RValue Num × Heap)}
    (splits : ∀ current heap, eval current heap =
      (firstOperand (operandsOf args) current heap).bind (next current))
    (leaves : ∀ current found result, next current found = some result → Leaves found.2 result.2) :
    TracksEval l (inTurn (args.take 1)) eval := by
  intro current heap present
  rw [splits]
  exact .before (firstOperand_tracks all current heap present) fun found result _ =>
    leaves current found result

/-- An evaluator without operands. -/
theorem quiet_tracks {eval : Eval Num} (framed : Framed none eval) :
    TracksEval l (fun _ _ => []) eval := by
  intro current heap present
  refine .quiet present fun after same => ?_
  rcases Option.map_eq_some_iff.mp same with ⟨⟨value, last⟩, done, rfl⟩
  exact .of_allocates (framed current heap value last nofun done).allocates

variable [Double Num]

theorem filterTest_tracks {expr : Watched Num}
    (tracks : TracksEval l expr.moments expr.operand.run) {node : NodeId} {heap : Heap}
    (present : l < heap.size) :
    Tracks l heap (if expr.operand.head.type = .int then [] else expr.moments node heap)
      ((filterTest expr.operand node heap).map Prod.snd) := by
  unfold filterTest
  split
  next => exact .refl present
  next =>
      refine .before (tracks node heap present) ?_
      rintro ⟨value, middle⟩ result _ done
      cases value <;>
      · cases done
        exact .refl _

theorem filterNodes_tracks {expr : Watched Num}
    (tracks : TracksEval l expr.moments expr.operand.run) (nodes : List NodeId) {heap : Heap}
    (tmp : Ptr) (pos : Nat) (present : l < heap.size) :
    Tracks l heap (inFilterNodes expr heap tmp pos nodes)
      ((filterNodes expr.operand heap tmp pos nodes).map Prod.fst) := by
  induction nodes generalizing heap tmp pos with
  | nil => exact .refl present
  | cons node rest inductionHypothesis =>
      have splits : (filterNodes expr.operand heap tmp pos (node :: rest)).map Prod.fst =
          (filterTest expr.operand node heap).bind fun found =>
            if found.1 then
              (filterNodes expr.operand (addToSelection found.2 tmp node (pos + 1)).1
                (some (addToSelection found.2 tmp node (pos + 1)).2) (pos + 1) rest).map Prod.fst
            else (filterNodes expr.operand found.2 tmp pos rest).map Prod.fst := by
        rw [filterNodes]
        cases filterTest expr.operand node heap with
        | none => rfl
        | some found =>
            rcases found with ⟨selected, middle⟩
            cases selected with
            | false => rfl
            | true =>
                dsimp only [Option.bind_eq_bind, Option.bind_some]
                rw [if_pos rfl, if_pos rfl, Option.map_bind]
                exact Option.map_eq_bind.symm
      rw [splits]
      refine .then_ (filterTest_tracks tracks present) fun found _ inside => ?_
      split
      next =>
          have copied := addToSelection_leaves found.2 tmp node (pos + 1)
          exact .earlier inside copied
            (inductionHypothesis _ _ (Nat.lt_of_lt_of_le inside copied.grows))
      next => exact inductionHypothesis tmp pos inside

theorem anyOperand_tracks (all : TracksAll l args) (stop : Bool) :
    TracksEval l (inAny stop args) (anyOperand stop (operandsOf args)) := by
  induction args with
  | nil => exact fun _ _ present => .refl present
  | cons watched rest inductionHypothesis =>
      intro current heap present
      refine .bind (all watched List.mem_cons_self current heap present) fun found _ inside => ?_
      dsimp only
      split
      next => exact .refl inside
      next =>
          exact inductionHypothesis (fun other member => all other (List.mem_cons_of_mem _ member))
            current found.2 inside

omit [Double Num] in
theorem callScalar_tracks (all : TracksAll l args) (function : ScalarFunction Num) :
    TracksEval l (inTurn (args.take function.arity)) (callScalar function (operandsOf args)) := by
  intro current heap present
  have operands := evalOperands_tracks (all.take function.arity) current present
  unfold operandsOf at operands ⊢
  rw [List.map_take] at operands
  refine .before operands fun found result _ done => ?_
  rcases Option.bind_eq_some_iff.mp done with ⟨scalar, -, done⟩
  cases done
  exact .refl _

theorem doCallback_tracks (all : TracksAll l args) (callback : List Bytes → Option Bytes) :
    TracksEval l (inTurn (args.take 29)) (doCallback callback (operandsOf args)) := by
  intro current heap present
  have operands := evalOperands_tracks (all.take 29) current present
  unfold operandsOf at operands ⊢
  rw [List.map_take] at operands
  refine .before operands fun found result _ done => ?_
  rcases Option.bind_eq_some_iff.mp done with ⟨strings, -, done⟩
  cases done
  exact .refl _

theorem xpathFilter_tracks (all : TracksAll l args) {heap : Heap} (present : l < heap.size)
    (nodeset : Ptr) :
    Tracks l heap (inFilter heap nodeset args.tail.head?)
      ((xpathFilter heap nodeset (operandsOf args).tail.head?).map Prod.fst) := by
  cases nodeset with
  | none => exact .refl present
  | some head =>
      rw [inFilter, xpathFilter, following]
      cases siblings heap
          (if (heap.get head).type = .empty then (heap.get head).children else some head) with
      | none => exact .nothing
      | some nodes =>
          have heads : (operandsOf args).tail.head? = args.tail.head?.map Watched.operand := by
            unfold operandsOf
            rw [← List.map_tail, List.head?_map]
          rw [heads]
          cases found : args.tail.head? with
          | none => exact .nothing
          | some expr =>
              have member : expr ∈ args := List.mem_of_mem_tail (List.mem_of_mem_head? found)
              exact filterNodes_tracks (all expr member) nodes none 0 present

/-- What an operand adds to a union. -/
theorem unionMember_leaves {value : RValue Num} {heap : Heap} {after : Heap} {src : Ptr}
    (added : unionMember value heap = some (some (after, src))) : Leaves heap after := by
  unfold unionMember at added
  split at added
  · cases added
    exact .refl heap
  · rcases Option.bind_eq_some_iff.mp added with ⟨string, -, added⟩
    cases string with
    | none => cases added
    | some name =>
        cases added
        have made : Leaves heap (xmlNewNode heap none .text).1 :=
          .of_allocates ((Allocates.refl none heap).alloc rfl)
        refine made.trans ?_
        apply modify_leaves
        exact fun _ => rfl

/-- A test for the string of a value, whichever way what follows is written. -/
theorem bind_string {Found Result : Type} {string : Option (Option Bytes)}
    {first : Option Bytes → Option Result} {member : Option Bytes → Option Found}
    {next : Found → Option Result} (same : ∀ name, first name = (member name).bind next) :
    string.bind first = (string.bind member).bind next := by
  rw [Option.bind_assoc]
  exact congrArg _ (funext same)

/-- One round of the loop of a union. -/
theorem unionOperands_cons (operand : Operand Num) (rest : List (Operand Num)) (current : NodeId)
    (heap : Heap) (tmp selection : Ptr) (pos : Nat) :
    unionOperands (operand :: rest) current heap tmp selection pos =
      (operand.run current heap).bind fun found => (unionMember found.1 found.2).bind fun member =>
        match member with
        | none => unionOperands rest current found.2 tmp selection pos
        | some (heap, src) => (xmlAddSiblings heap tmp src pos).bind fun placed =>
            unionOperands rest current placed.1 placed.2.1
              (if tmp = none ∧ src.isSome then src else selection) placed.2.2 := by
  rw [unionOperands]
  cases operand.run current heap with
  | none => rfl
  | some found =>
      rcases found with ⟨value, middle⟩
      cases value with
      | nodeset nodeset => rfl
      | null | bool | int | number | string =>
          dsimp only [Option.bind_eq_bind, Option.bind_some, unionMember]
          refine bind_string ?_
          intro name
          cases name <;> rfl

theorem unionOperands_tracks (all : TracksAll l args) (current : NodeId) {heap : Heap}
    (tmp selection : Ptr) (pos : Nat) (present : l < heap.size) :
    Tracks l heap (inUnion args current heap tmp pos)
      ((unionOperands (operandsOf args) current heap tmp selection pos).map Prod.snd) := by
  induction args generalizing heap tmp selection pos with
  | nil => exact .refl present
  | cons watched rest inductionHypothesis =>
      have further := fun other member => all other (List.mem_cons_of_mem _ member)
      rw [operandsOf, List.map_cons, unionOperands_cons]
      refine .bind (all watched List.mem_cons_self current heap present) fun found _ inside => ?_
      cases added : unionMember found.1 found.2 with
      | none => exact .nothing
      | some member =>
          cases member with
          | none => exact inductionHypothesis further tmp selection pos inside
          | some placing =>
              rcases placing with ⟨middle, src⟩
              have leaves := unionMember_leaves added
              have stays := Nat.lt_of_lt_of_le inside leaves.grows
              refine .earlier inside leaves ?_
              rw [following, Option.bind_some]
              dsimp only
              cases placed : xmlAddSiblings middle tmp src pos with
              | none => exact .nothing
              | some place =>
                  have linked := xmlAddSiblings_leaves placed
                  exact .earlier stays linked (inductionHypothesis further _ _ _
                    (Nat.lt_of_lt_of_le stays linked.grows))

/-! ### Steps -/

omit [Double Num] in
/-- An evaluator that goes on with the values of both operands. -/
theorem both_tracks (all : TracksAll l args) {eval : Eval Num}
    {next : RValue Num × RValue Num × Heap → Option (RValue Num × Heap)}
    (splits : ∀ current heap, eval current heap =
      (evalBoth (operandsOf args) current heap).bind next)
    (stays : ∀ both result, next both = some result → result.2 = both.2.2) :
    TracksEval l (inTurn (args.take 2)) eval := by
  intro current heap present
  have operands : Tracks l heap (inTurn (args.take 2) current heap)
      ((evalBoth (operandsOf args) current heap).map fun both => both.2.2) := evalBoth_tracks all present
  rw [splits]
  generalize evalBoth (operandsOf args) current heap = both at operands
  cases both with
  | none => exact operands
  | some both =>
      rw [Option.bind_some]
      cases done : next both with
      | none => exact operands.stuck
      | some result =>
          rw [Option.map_some, stays both result done]
          exact operands

omit [Double Num] in
theorem compare_tracks (all : TracksAll l args)
    (test : Heap → RValue Num → RValue Num → Option Bool) :
    TracksEval l (inTurn (args.take 2)) (compare test (operandsOf args)) := by
  refine both_tracks all (fun _ _ => rfl) ?_
  rintro ⟨left, right, heap⟩ result done
  rcases Option.bind_eq_some_iff.mp done with ⟨answer, -, done⟩
  cases done
  rfl

theorem arithmetic_tracks (all : TracksAll l args) (operation : Num → Num → Option Num) :
    TracksEval l (inTurn (args.take 2)) (arithmetic operation (operandsOf args)) := by
  refine both_tracks all (fun _ _ => rfl) ?_
  rintro ⟨left, right, heap⟩ result done
  rcases Option.bind_eq_some_iff.mp done with ⟨leftNumber, -, done⟩
  rcases Option.bind_eq_some_iff.mp done with ⟨rightNumber, -, done⟩
  rcases Option.bind_eq_some_iff.mp done with ⟨answer, -, done⟩
  cases done
  rfl

omit [Double Num] in
theorem xpathSelectCommon_tracks (all : TracksAll l args) (etree : ExprNode) :
    TracksEval l (inTurn (args.take 1)) (xpathSelectCommon etree (operandsOf args)) := by
  cases args with
  | nil => exact quiet_tracks (axisStep_framed etree .nil)
  | cons watched rest =>
      refine first_tracks all (fun _ _ => rfl) ?_
      rintro current ⟨value, heap⟩ result done
      cases value with
      | nodeset nodeset =>
          rcases Option.bind_eq_some_iff.mp done with ⟨nodes, -, done⟩
          rcases Option.bind_eq_some_iff.mp done with ⟨⟨last, set⟩, applied, done⟩
          cases done
          exact .of_allocates
            (xpathApplySelector_allocates _ nodes (.refl none heap) (.none_ _ _) applied).1
      | null | bool | int | number | string =>
          cases done
          exact .refl heap

omit [Double Num] in
theorem attributeStep_tracks (all : TracksAll l args) (etree : ExprNode) :
    TracksEval l (inTurn (args.take 1)) (attributeStep etree (operandsOf args)) := by
  cases args with
  | nil => exact quiet_tracks (attributeStep_framed etree .nil)
  | cons watched rest =>
      refine first_tracks all (fun _ _ => rfl) ?_
      rintro current ⟨value, heap⟩ result done
      cases value with
      | nodeset nodeset =>
          rcases Option.bind_eq_some_iff.mp done with ⟨nodes, -, done⟩
          rcases Option.bind_eq_some_iff.mp done with ⟨⟨last, set⟩, collected, done⟩
          cases done
          exact .of_allocates (attributesOf_allocates etree.name nodes (.refl none heap)
            (.none_ _ _) collected).1
      | null | bool | int | number | string =>
          cases done
          exact .refl heap

omit [Double Num] in
theorem allAttributesStep_tracks (all : TracksAll l args) :
    TracksEval l (inTurn (args.take 1)) (allAttributesStep (operandsOf args)) := by
  cases args with
  | nil => exact quiet_tracks (allAttributesStep_framed .nil)
  | cons watched rest =>
      refine first_tracks all (fun _ _ => rfl) ?_
      rintro current ⟨value, heap⟩ result done
      cases value with
      | nodeset nodeset =>
          rcases Option.bind_eq_some_iff.mp done with ⟨nodes, -, done⟩
          rcases Option.bind_eq_some_iff.mp done with ⟨⟨last, set⟩, collected, done⟩
          cases done
          exact .of_allocates (xpathGetAttrs_allocates (.refl none heap) collected).1
      | null | bool | int | number | string =>
          cases done
          exact .refl heap

/-! ### Functions -/

omit [Double Num] in
/-- A selection of the node of a document, or NULL. -/
theorem selectedDocument_leaves {heap loaded : Heap} {doc : Ptr} {result : RValue Num × Heap}
    (leaves : Leaves heap loaded)
    (done : (match doc with
      | none => some (.null, loaded)
      | some doc => some (.nodeset (newSelection loaded [(doc, 1)]).2,
          (newSelection loaded [(doc, 1)]).1)) = some result) : Leaves heap result.2 := by
  cases doc with
  | none =>
      cases done
      exact leaves
  | some doc =>
      cases done
      have made := newSelection_allocates [(doc, 1)] (.refl none loaded)
      exact leaves.trans (.of_allocates made.1)

theorem xfDocument_tracks (env : Env Num) (all : TracksAll l args) :
    TracksEval l (inTurn (args.take 1)) (xfDocument env (operandsOf args)) := by
  refine first_tracks all (fun _ _ => rfl) ?_
  rintro current ⟨value, heap⟩ result done
  rcases Option.bind_eq_some_iff.mp done with ⟨string, -, done⟩
  rcases Option.bind_eq_some_iff.mp done with ⟨docname, -, done⟩
  dsimp only at done
  split at done
  · exact @selectedDocument_leaves _ heap heap (some env.stylesheet) result (.refl heap) done
  · rcases Option.bind_eq_some_iff.mp done with ⟨⟨loaded, doc⟩, found, done⟩
    exact selectedDocument_leaves (.of_allocates (env.documents.allocates found).1) done

omit [Double Num] in
theorem xfExnodeset_tracks (env : Env Num) (all : TracksAll l args) :
    TracksEval l (inTurn (args.take 1)) (xfExnodeset env (operandsOf args)) := by
  refine first_tracks all (fun _ _ => rfl) ?_
  rintro current ⟨value, heap⟩ result done
  cases value with
  | string string =>
      rcases Option.bind_eq_some_iff.mp done with ⟨text, -, done⟩
      rcases Option.bind_eq_some_iff.mp done with ⟨⟨loaded, root⟩, found, done⟩
      cases done
      exact .of_allocates (env.strings.allocates found).1
  | nodeset | null | bool | int | number =>
      cases done
      exact .refl heap

section Keys

variable {env : Env Num} {run : Expr → Eval Num} {below : Expr → Moments}

omit [Double Num] in
theorem begun_tracks (locals : env.locals = some l) {heap : Heap} (present : l < heap.size)
    (current : NodeId) : Tracks l heap [.lookUp current] (some (begun env heap current)) := by
  have begins : begun env heap current =
      heap.modify l fun cell => { cell with parent := some current } := by
    rw [begun, locals]
  refine ⟨?_, ?_, ?_⟩
  · intro before nodes after split
    rcases List.cons_eq_append_iff.mp split with ⟨rfl, impossible⟩ | ⟨more, rfl, impossible⟩
    · cases impossible
    · cases more <;> cases impossible
  · rintro after ⟨⟩
    rw [begins]
    exact present
  · rintro after ⟨⟩
    rw [begins, field, Arena.modify_get_same]
    rfl

omit [Double Num] in
theorem xpathEvalSelection_tracks (locals : env.locals = some l)
    (tracks : ∀ etree, TracksEval l (below etree) (run etree)) (etree : Expr) {current : NodeId}
    {heap : Heap} (present : l < heap.size) :
    Tracks l heap (inSelection env below etree current heap)
      ((xpathEvalSelection env run etree current heap).map Prod.snd) := by
  unfold inSelection xpathEvalSelection
  split
  next => exact .refl present
  next =>
      have entered := begun_tracks locals present current
      refine entered.append ?_
      rw [locals, Option.bind_eq_bind, Option.bind_some]
      have begins : begun env heap current =
          heap.modify l fun cell => { cell with parent := some current } := by
        rw [begun, locals]
      rw [← begins]
      refine .before (tracks etree current _ (entered.present _ rfl)) ?_
      rintro ⟨value, middle⟩ result _ done
      cases value <;>
      · cases done
        exact .refl middle

/-- Behind the name of a key there is no value to evaluate. -/
theorem behindName_short {current : NodeId} {heap : Heap}
    {behind : RValue Num × Heap → Bytes → List Moment} (short : (operandsOf args).length < 2) :
    inTurn ((args.drop 1).take 1) current heap ++
      following (secondOperand (operandsOf args) current heap) (fun value =>
        following (rval2string value.2 value.1).join (behind value)) = [] := by
  cases args with
  | nil => rfl
  | cons watched rest =>
      cases rest with
      | nil => rfl
      | cons _ rest => exact absurd short (Nat.not_lt.mpr (Nat.le_add_left 2 _))

theorem xfKey_tracks (locals : env.locals = some l)
    (tracks : ∀ etree, TracksEval l (below etree) (run etree)) (all : TracksAll l args) :
    TracksEval l (inKey env below args) (xfKey env run (operandsOf args)) := by
  intro current heap present
  refine .bind (firstOperand_tracks all current heap present) fun name _ inside => ?_
  rcases name with ⟨name, middle⟩
  dsimp only [Option.bind_eq_bind]
  cases rval2string middle name with
  | none => exact .nothing
  | some keyName =>
      cases keyName with
      | none => exact .refl inside
      | some keyName =>
          dsimp only [Option.bind_some, Option.join_some, following_some]
          split
          next short =>
              rw [behindName_short short]
              exact .refl inside
          next =>
              refine .bind (secondOperand_tracks all current middle inside) fun value _ within => ?_
              rcases value with ⟨value, last⟩
              dsimp only
              cases rval2string last value with
              | none => exact .nothing
              | some keyValue =>
                  cases keyValue with
                  | none => exact .refl within
                  | some keyValue =>
                      dsimp only [Option.bind_some, Option.join_some, following_some]
                      cases env.keys.find? fun key => key.1 = keyName with
                      | none => exact .refl within
                      | some key =>
                          dsimp only [following_some]
                          cases env.findExpr (key.2 keyValue) with
                          | none => exact .nothing
                          | some etree =>
                              refine .before (xpathEvalSelection_tracks locals tracks etree within) ?_
                              rintro ⟨set, after⟩ result _ ⟨⟩
                              exact .refl after

theorem xpathCallDispatcher_tracks (locals : env.locals = some l)
    (tracks : ∀ etree, TracksEval l (below etree) (run etree)) (all : TracksAll l args)
    (name : Bytes) :
    TracksEval l (inCall env below name args) (xpathCallDispatcher env run name (operandsOf args)) := by
  intro current heap present
  unfold inCall xpathCallDispatcher
  cases env.perlFunctions name with
  | some callback => exact doCallback_tracks all callback current heap present
  | none =>
      dsimp only
      by_cases isCurrent : name = lit "current"
      · rw [if_pos isCurrent, if_pos isCurrent]
        exact .called (quiet_tracks (xfCurrent_framed env) current heap present)
      · rw [if_neg isCurrent, if_neg isCurrent]
        by_cases isText : name = lit "text"
        · rw [if_pos isText, if_pos (.inl isText)]
          exact quiet_tracks (xfChildren_framed _) current heap present
        · rw [if_neg isText]
          by_cases isNode : name = lit "node"
          · rw [if_pos isNode, if_pos (.inr isNode)]
            exact quiet_tracks (xfChildren_framed _) current heap present
          · rw [if_neg isNode, if_neg (not_or_intro isText isNode)]
            by_cases isDocument : name = lit "document"
            · rw [if_pos isDocument, if_pos (.inl isDocument)]
              exact xfDocument_tracks env all current heap present
            · rw [if_neg isDocument]
              by_cases isExnodeset : name = lit "exsl:node-set"
              · rw [if_pos isExnodeset, if_pos (.inr isExnodeset)]
                exact xfExnodeset_tracks env all current heap present
              · rw [if_neg isExnodeset, if_neg (not_or_intro isDocument isExnodeset)]
                split
                next => exact xfKey_tracks locals tracks all current heap present
                next =>
                    cases (scalarFunction name).or (env.functions name) with
                    | some function => exact callScalar_tracks all function current heap present
                    | none => exact .refl present

theorem executeNode_tracks (locals : env.locals = some l)
    (tracks : ∀ etree, TracksEval l (below etree) (run etree)) (all : TracksAll l args)
    (etree : ExprNode) :
    TracksEval l (inNode env below etree args) (executeNode env run etree (operandsOf args)) := by
  intro current heap present
  unfold inNode executeNode
  cases etree.type with
  | int | text => exact .refl present
  | root | context => exact quiet_tracks (single_framed _) current heap present
  | var =>
      refine .quiet present fun after same => ?_
      rcases Option.map_eq_some_iff.mp same with ⟨⟨value, last⟩, found, rfl⟩
      have outcome : Outcome none heap value last := getVariableRv_outcome env etree.name found
      exact .of_allocates outcome.allocates
  | union =>
      refine .before (unionOperands_tracks all current none none 0 present) ?_
      rintro ⟨selection, middle⟩ result _ ⟨⟩
      exact .refl middle
  | filter =>
      refine .bind (firstOperand_tracks all current heap present) fun found _ inside => ?_
      rcases found with ⟨value, middle⟩
      cases value with
      | nodeset nodeset =>
          have filtered := xpathFilter_tracks all inside nodeset
          dsimp only [Option.bind_eq_bind]
          generalize xpathFilter middle nodeset (operandsOf args).tail.head? = found at filtered
          cases found <;> exact filtered
      | null | bool | int | number | string => exact .refl inside
  | all | select | parent | self | descendant | descendantOrSelf | ancestor | ancestorOrSelf
  | precedingSibling | preceding | followingSibling | following =>
      exact xpathSelectCommon_tracks all etree current heap present
  | or | and => exact anyOperand_tracks all _ current heap present
  | eq | ne | lt | le | gt | ge => exact compare_tracks all _ current heap present
  | add | sub | mul | div | mod => exact arithmetic_tracks all _ current heap present
  | not =>
      refine .before (firstOperand_tracks all current heap present) ?_
      rintro ⟨value, middle⟩ result _ ⟨⟩
      exact .refl middle
  | call =>
      cases etree.name with
      | none => exact .nothing
      | some name => exact xpathCallDispatcher_tracks locals tracks all name current heap present
  | attr => exact attributeStep_tracks all etree current heap present
  | attrAll => exact allAttributesStep_tracks all current heap present

theorem operandsOf_watch (env : Env Num) (run : Expr → Eval Num) (below : Expr → Moments)
    (etree : Expr) : operandsOf (watch env run below etree) = operands env run etree := by
  induction etree with
  | null => rfl
  | node head children next inside behind =>
      rw [watch, operandsOf, List.map_cons, ← operandsOf, behind, operands]
      dsimp only
      rw [inside]

/-- By recursion over the links of the expression. -/
theorem watch_tracks (locals : env.locals = some l)
    (tracks : ∀ etree, TracksEval l (below etree) (run etree)) (etree : Expr) :
    TracksAll l (watch env run below etree) := by
  induction etree with
  | null => exact .nil
  | node head children next inside behind =>
      intro watched member
      rcases List.mem_cons.mp member with rfl | member
      · exact executeNode_tracks locals tracks inside head
      · exact behind watched member

/-- The expressions that keys stand for, by induction on how deep they are
nested. -/
theorem inKeys_tracks (locals : env.locals = some l) (depth : Nat) (etree : Expr) :
    TracksEval l (inKeys env depth etree) (keyEval env depth etree) := by
  induction depth generalizing etree with
  | zero => exact fun _ _ _ => .nothing
  | succ depth inductionHypothesis =>
      rw [keyEval, ← operandsOf_watch env (keyEval env depth) (inKeys env depth)]
      exact firstOperand_tracks (watch_tracks locals inductionHypothesis etree)

/-- The moments of an evaluation tell what becomes of the node in `locals`. -/
theorem moments_tracks (locals : env.locals = some l) (depth : Nat) (etree : Expr) :
    TracksEval l (moments env depth etree) (xpathExecuteScalar env depth etree) := by
  rw [xpathExecuteScalar, operandsAt, ← operandsOf_watch env (keyEval env depth) (inKeys env depth)]
  exact firstOperand_tracks (watch_tracks locals (inKeys_tracks locals depth) etree)

/-! ## The calls of `current()` -/

/-- Every call of `current()` yields the node with which the evaluation is
entered. -/
def CurrentFixed (env : Env Num) (depth : Nat) (etree : Expr) (n : NodeId) (heap : Heap) : Prop :=
  ∀ nodes, .current nodes ∈ moments env depth etree n (begun env heap n) →
    ∀ current, xfCurrent env current nodes = single n current nodes

/-- The last look-up before a call of `current()` was made for that node too. -/
def LookedUpFrom (env : Env Num) (depth : Nat) (etree : Expr) (n : NodeId) (heap : Heap) : Prop :=
  ∀ (before : List Moment) (nodes : Heap) (after : List Moment) (node : NodeId),
    moments env depth etree n (begun env heap n) = before ++ .current nodes :: after →
      lastLookUp before = some node → node = n

omit [Double Num] in
theorem xfCurrent_eq_single_iff (locals : env.locals = some l) (node current : NodeId)
    (heap : Heap) :
    xfCurrent env current heap = single node current heap ↔ field l heap = some node := by
  have selects : xfCurrent env current heap =
      match field l heap with
      | none => some (.nodeset none, heap)
      | some parent => single parent current heap := by
    rw [xfCurrent, locals]
    rfl
  rw [selects]
  cases field l heap with
  | none =>
      constructor
      · intro impossible
        cases impossible
      · intro impossible
        cases impossible
  | some parent =>
      constructor
      · intro same
        -- a copy knows the node of which it was made
        have copies := congrArg (Option.map fun result => (result.2.get heap.size).original) same
        have made : ∀ source, (single source current heap : Option (RValue Num × Heap)).map
            (fun result => (result.2.get heap.size).original) = some (some source) := by
          intro source
          change some ((heap.alloc (selectionCopy heap none source 1)).get heap.size).original = _
          rw [Arena.alloc_get_same]
          rfl
        rw [made, made] at copies
        exact Option.some.inj copies
      · rintro ⟨⟩
        rfl

variable (locals : env.locals = some l) (depth : Nat) (etree : Expr) (n : NodeId) {heap : Heap}
  (present : l < heap.size)

include locals present

/-- The field at a call of `current()`: the node of the last look-up, or else
the node that the evaluation began with. -/
theorem field_at_current {before after : List Moment} {nodes : Heap}
    (split : moments env depth etree n (begun env heap n) = before ++ .current nodes :: after) :
    field l nodes = some ((lastLookUp before).getD n) := by
  have entered := begun_tracks locals present n
  have inside := entered.present _ rfl
  have follows := (moments_tracks locals depth etree n _ inside).follows before nodes after split
  rw [entered.ends _ rfl] at follows
  rw [follows]
  cases lastLookUp before <;> rfl

/-- The calls of `current()` all yield the node with which the evaluation
began if and only if no look-up from another node is the last one before any
of them. -/
theorem current_fixed_iff : CurrentFixed env depth etree n heap ↔ LookedUpFrom env depth etree n heap := by
  constructor
  · intro fixed before nodes after node split last
    have called : .current nodes ∈ moments env depth etree n (begun env heap n) := by
      rw [split]
      exact List.mem_append_right before List.mem_cons_self
    have here := (xfCurrent_eq_single_iff locals n n nodes).mp (fixed nodes called n)
    rw [field_at_current locals depth etree n present split, last] at here
    exact Option.some.inj here
  · intro entered nodes called current
    rcases List.append_of_mem called with ⟨before, after, split⟩
    apply (xfCurrent_eq_single_iff locals n current nodes).mpr
    rw [field_at_current locals depth etree n present split]
    cases last : lastLookUp before with
    | none => rfl
    | some node => rw [entered before nodes after node split last, Option.getD_some]

end Keys

section Calls

variable {env : Env Num} {l : NodeId} {ms : List Moment}

/-- What a call of `current()` finds in `locals`. -/
def Moment.found (l : NodeId) : Moment → Option Ptr
  | .lookUp _ => none
  | .current nodes => some (field l nodes)

omit [Double Num] in
theorem yields_iff_found (locals : env.locals = some l) (n : NodeId) :
    (∀ nodes, .current nodes ∈ ms →
      ∀ current, xfCurrent env current nodes = single n current nodes) ↔
    ∀ found ∈ ms.filterMap (Moment.found l), found = some n := by
  constructor
  · intro yields found member
    rcases List.mem_filterMap.mp member with ⟨moment, inside, same⟩
    cases moment with
    | lookUp node => cases same
    | current nodes =>
        cases same
        exact (xfCurrent_eq_single_iff locals n n nodes).mp (yields nodes inside n)
  · intro all nodes called current
    apply (xfCurrent_eq_single_iff locals n current nodes).mpr
    exact all _ (List.mem_filterMap.mpr ⟨_, called, rfl⟩)

theorem lookedUp_of_last {node : NodeId} (last : lastLookUp ms = some node) :
    node ∈ ms.filterMap Moment.lookedUp := by
  rcases List.exists_of_findSome?_eq_some last with ⟨moment, member, looked⟩
  exact List.mem_filterMap.mpr ⟨moment, List.mem_reverse.mp member, looked⟩

end Calls

/-- The element `a` with a child `b`, in its document, and the node of the
local variables. -/
def aAroundB : Heap := .ofList [
  { type := .empty, name := some xslSRoot, children := some 1 },
  { type := .element, name := some (lit "a"), parent := some 0, children := some 2 },
  { type := .element, name := some (lit "b"), parent := some 1 },
  { type := .empty }]

/-- `<xsl:key name="k" match="b" use="."/>` -/
def keyedByText : Env Int :=
  { Env.bare Int 0 with
    locals := some 3
    keys := [(lit "k", fun value => lit "b[. = '" ++ value ++ lit "']")] }

def currentCall : Expr := .leaf { type := .call, name := some (lit "current") }

def keyCall : ExprNode := { type := .call, name := some (lit "key") }

def keyArguments : Expr :=
  .node { type := .text, content := lit "k" } .null (.leaf { type := .text, content := lit "1" })

def keyBesideCurrent : Expr :=
  .node { type := .union } (.node keyCall keyArguments currentCall) .null

def keyInPredicate : Expr :=
  .node { type := .union }
    (.node { type := .filter }
      (.node { type := .select, name := some (lit "b"), kind := some (.named (lit "b")) }
        (.leaf { type := .context }) (.node keyCall keyArguments .null)) currentCall) .null

example : xpathCompile (lit "b[key('k', '1')] | current()") = some keyInPredicate := by decide

/-- The moments of an expression that is evaluated for the element `a`. -/
def momentsAtA (etree : Expr) : List Moment :=
  moments keyedByText 1 etree 1 (begun keyedByText aAroundB 1)

/-- A key that is looked up from the element itself. -/
theorem current_fixed_beside_key : CurrentFixed keyedByText 1 keyBesideCurrent 1 aAroundB := by
  have present : 3 < aAroundB.size := by decide
  apply (current_fixed_iff rfl 1 keyBesideCurrent 1 present).mpr
  intro before nodes after node split last
  have looked : (momentsAtA keyBesideCurrent).filterMap Moment.lookedUp = [1] := by decide
  have member : node ∈ (momentsAtA keyBesideCurrent).filterMap Moment.lookedUp := by
    rw [momentsAtA, split, List.filterMap_append]
    exact List.mem_append_left _ (lookedUp_of_last last)
  rw [looked] at member
  exact List.mem_singleton.mp member

/-- A key that is looked up in a predicate, from a copy of `b`. -/
theorem key_moves_current : ¬ CurrentFixed keyedByText 1 keyInPredicate 1 aAroundB := by
  intro fixed
  have found : (momentsAtA keyInPredicate).filterMap (Moment.found 3) = [some 5] := by decide
  have all := (yields_iff_found rfl 1).mp fixed
  change ∀ found ∈ (momentsAtA keyInPredicate).filterMap (Moment.found 3), found = some 1 at all
  rw [found] at all
  cases all (some 5) List.mem_cons_self

end Operands

end CurrentNode
end TurboXSL
