import TurboXSL.XPathFrame

namespace TurboXSL

open Library

/-!
# The writes of an evaluation

An evaluation writes memory in few ways: it copies nodes, makes texts and
attributes, links and numbers nodes, sets the current node, and loads
documents.  A relation of memories that is kept by each of these, one after
the other, holds between the memories before and after any evaluation.
-/

/-- The change concerns the place of a node in a list only. -/
def Relinks (change : XmlNode → XmlNode) : Prop :=
  ∀ cell, change cell = { cell with
    next := (change cell).next, prev := (change cell).prev, position := (change cell).position }

/-- A relation of memories that every write of an evaluation keeps. -/
structure Writing {Num : Type} (env : Env Num) (related : Heap → Heap → Prop) : Prop where
  refl : ∀ heap, related heap heap
  trans : ∀ {before middle after}, related before middle → related middle after →
    related before after
  copy : ∀ heap prev src position (original uid : Ptr), related heap
    (heap.alloc { selectionCopy heap prev src position with original := original, uid := uid })
  make : ∀ heap type content, related heap
    (heap.alloc { type := type, content := content, uid := some heap.size })
  place : ∀ heap node {change}, Relinks change → related heap (heap.modify node change)
  current : ∀ heap {l} node, env.locals = some l →
    related heap (heap.modify l fun cell => { cell with parent := some node })
  documents : ∀ {heap text after root}, env.documents.load heap text = some (after, root) →
    related heap after
  strings : ∀ {heap text after root}, env.strings.load heap text = some (after, root) →
    related heap after

/-- The memories before and after an evaluation are related. -/
def Relates {Num : Type} (related : Heap → Heap → Prop) (eval : Eval Num) : Prop :=
  ∀ ⦃current heap value after⦄, eval current heap = some (value, after) → related heap after

/-- The same for all operands. -/
def RelatesAll {Num : Type} (related : Heap → Heap → Prop) (args : List (Operand Num)) : Prop :=
  ∀ operand ∈ args, Relates related operand.run

theorem RelatesAll.nil {Num : Type} {related : Heap → Heap → Prop} :
    RelatesAll related ([] : List (Operand Num)) :=
  fun _ impossible => absurd impossible List.not_mem_nil

theorem RelatesAll.tail {Num : Type} {related : Heap → Heap → Prop} {operand : Operand Num}
    {rest : List (Operand Num)} (all : RelatesAll related (operand :: rest)) :
    RelatesAll related rest :=
  fun other member => all other (List.mem_cons_of_mem operand member)

theorem RelatesAll.take {Num : Type} {related : Heap → Heap → Prop} {args : List (Operand Num)}
    (all : RelatesAll related args) (n : Nat) : RelatesAll related (args.take n) :=
  fun operand member => all operand (List.mem_of_mem_take member)

namespace Writing

variable {Num : Type} {env : Env Num} {related : Heap → Heap → Prop}
  (writing : Writing env related)

include writing

/-! ## Selections -/

theorem setNext (heap : Heap) (node next : Ptr) : related heap (setNext heap node next) := by
  cases node with
  | none => exact writing.refl heap
  | some node =>
      have relinks : Relinks fun cell => { cell with next := next } := fun _ => rfl
      exact writing.place heap node relinks

theorem addToSelection (heap : Heap) (prev : Ptr) (src : NodeId) (position : Nat) :
    related heap (addToSelection heap prev src position).1 :=
  writing.trans (writing.copy heap prev src position (some src) (heap.get src).uid)
    (writing.setNext _ _ _)

theorem addAllToSelection (heap : Heap) (prev : Ptr) (sources : List (NodeId × Nat)) :
    related heap (addAllToSelection heap prev sources).1 := by
  induction sources generalizing heap prev with
  | nil => exact writing.refl heap
  | cons source rest inductionHypothesis =>
      exact writing.trans (writing.addToSelection heap prev source.1 source.2)
        (inductionHypothesis _ _)

theorem newSelection (heap : Heap) (sources : List (NodeId × Nat)) :
    related heap (newSelection heap sources).1 := writing.addAllToSelection heap none sources

theorem nodesetCopies (heap : Heap) (prev : Ptr) (sources : List (NodeId × Nat)) :
    related heap (nodesetCopies heap prev sources).1 := by
  induction sources generalizing heap prev with
  | nil => exact writing.refl heap
  | cons source rest inductionHypothesis =>
      refine writing.trans ?_ (inductionHypothesis _ _)
      exact writing.trans (writing.copy heap prev source.1 source.2 _ _) (writing.setNext _ _ _)

theorem xmlAddSiblings {heap after : Heap} {prev src last : Ptr} {pos pos' : Nat}
    (added : xmlAddSiblings heap prev src pos = some (after, last, pos')) : related heap after := by
  have positions : ∀ (numbered : List (NodeId × Nat)) (heap : Heap), related heap
      (numbered.foldl (fun heap node =>
        heap.modify node.1 fun cell => { cell with position := node.2 }) heap) := by
    intro numbered
    induction numbered with
    | nil => exact writing.refl
    | cons node rest inductionHypothesis =>
        intro heap
        exact writing.trans (writing.place heap node.1 fun _ => rfl) (inductionHypothesis _)
  unfold TurboXSL.xmlAddSiblings at added
  cases src with
  | none =>
      cases added
      exact writing.refl heap
  | some head =>
      rcases Option.bind_eq_some_iff.mp added with ⟨nodes, _, done⟩
      cases done
      refine writing.trans ?_ (positions _ _)
      cases prev with
      | none => exact writing.refl heap
      | some p =>
          exact writing.trans (writing.setNext heap (some p) (some head))
            (writing.place _ head fun _ => rfl)

theorem xpathApplySelector (select : Heap → NodeId → Option (List (NodeId × Nat)))
    (nodes : List NodeId) {heap after : Heap} {tail head : Ptr}
    (applied : xpathApplySelector select heap tail nodes = some (after, head)) :
    related heap after := by
  induction nodes generalizing heap tail head with
  | nil =>
      cases applied
      exact writing.refl _
  | cons node rest inductionHypothesis =>
      unfold TurboXSL.xpathApplySelector at applied
      rcases Option.bind_eq_some_iff.mp applied with ⟨sources, _, applied⟩
      have made := writing.addAllToSelection heap none sources
      generalize TurboXSL.addAllToSelection heap none sources = copies at applied made
      rcases copies with ⟨middle, copies⟩
      dsimp only at applied made
      cases first : copies.head? with
      | none =>
          rw [first] at applied
          exact writing.trans made (inductionHypothesis applied)
      | some begin_ =>
          rw [first] at applied
          rcases Option.bind_eq_some_iff.mp applied with ⟨⟨last, behind⟩, others, done⟩
          cases done
          refine writing.trans made ?_
          exact writing.trans (writing.setNext middle tail (some begin_)) (inductionHypothesis others)

theorem newText (heap : Heap) (name : Bytes) : related heap
    ((xmlNewNode heap none .text).1.modify heap.size fun cell => { cell with content := some name }) := by
  unfold xmlNewNode
  rw [Arena.modify_alloc]
  exact writing.make heap .text (some name)

theorem newAttribute (heap : Heap) (value : Bytes) : related heap (newAttribute heap value).1 := by
  unfold TurboXSL.newAttribute xmlNewNode
  dsimp only
  rw [Arena.modify_alloc]
  exact writing.make heap .attribute (some value)

/-! ## Evaluators -/

omit writing in
theorem nullEval (refl : ∀ heap, related heap heap) : Relates related (nullEval : Eval Num) := by
  rintro current heap value after ⟨⟩
  exact refl heap

theorem firstOperand {args : List (Operand Num)} (all : RelatesAll related args) :
    Relates related (firstOperand args) := by
  cases args with
  | nil => exact nullEval writing.refl
  | cons operand rest => exact all operand List.mem_cons_self

theorem secondOperand {args : List (Operand Num)} (all : RelatesAll related args) :
    Relates related (secondOperand args) := by
  cases args with
  | nil =>
      intro current heap value after impossible
      cases impossible
  | cons operand rest => exact writing.firstOperand all.tail

theorem evalOperands {args : List (Operand Num)} (all : RelatesAll related args)
    {current : NodeId} {heap after : Heap} {values : List (RValue Num)}
    (evaluated : evalOperands args current heap = some (values, after)) : related heap after := by
  induction args generalizing heap values with
  | nil =>
      cases evaluated
      exact writing.refl _
  | cons operand rest inductionHypothesis =>
      rcases Option.bind_eq_some_iff.mp evaluated with ⟨⟨value, middle⟩, first, evaluated⟩
      rcases Option.bind_eq_some_iff.mp evaluated with ⟨⟨more, last⟩, others, done⟩
      cases done
      exact writing.trans (all operand List.mem_cons_self first)
        (inductionHypothesis all.tail others)

theorem evalBoth {args : List (Operand Num)} (all : RelatesAll related args)
    {current : NodeId} {heap after : Heap} {left right : RValue Num}
    (evaluated : evalBoth args current heap = some (left, right, after)) : related heap after := by
  rcases Option.bind_eq_some_iff.mp evaluated with ⟨⟨value, middle⟩, first, evaluated⟩
  rcases Option.bind_eq_some_iff.mp evaluated with ⟨⟨other, last⟩, second, done⟩
  cases done
  exact writing.trans (writing.firstOperand all first) (writing.secondOperand all second)

theorem single (node : NodeId) : Relates related (single node : Eval Num) := by
  rintro current heap value after ⟨⟩
  exact writing.newSelection heap [(node, 1)]

theorem xfChildren (test : XmlNode → Bool) : Relates related (xfChildren test : Eval Num) := by
  intro current heap value after evaluated
  rcases Option.bind_eq_some_iff.mp evaluated with ⟨children, _, done⟩
  cases done
  exact writing.newSelection heap _

theorem callScalar (function : ScalarFunction Num) {args : List (Operand Num)}
    (all : RelatesAll related args) : Relates related (callScalar function args) := by
  intro current heap value after evaluated
  rcases Option.bind_eq_some_iff.mp evaluated with ⟨⟨values, middle⟩, operands, evaluated⟩
  rcases Option.bind_eq_some_iff.mp evaluated with ⟨result, _, done⟩
  cases done
  exact writing.evalOperands (all.take _) operands

theorem axisStep (etree : ExprNode) {args : List (Operand Num)} (all : RelatesAll related args) :
    Relates related (xpathSelectCommon etree args) := by
  intro current heap value after evaluated
  cases args with
  | nil =>
      rcases Option.bind_eq_some_iff.mp evaluated with ⟨sources, _, done⟩
      cases done
      exact writing.newSelection heap sources
  | cons operand rest =>
      rcases Option.bind_eq_some_iff.mp evaluated with ⟨⟨first, middle⟩, begun, evaluated⟩
      have step := all operand List.mem_cons_self begun
      cases first with
      | nodeset nodeset =>
          rcases Option.bind_eq_some_iff.mp evaluated with ⟨nodes, _, evaluated⟩
          rcases Option.bind_eq_some_iff.mp evaluated with ⟨⟨last, set⟩, applied, done⟩
          cases done
          exact writing.trans step (writing.xpathApplySelector _ nodes applied)
      | null | bool | int | number | string =>
          cases evaluated
          exact step

/-! ### Attributes -/

theorem attributesOf (name : Option Bytes) (nodes : List NodeId) {heap after : Heap} {t set : Ptr}
    {pos : Nat} (collected : attributesOf name heap t pos nodes = some (after, set)) :
    related heap after := by
  induction nodes generalizing heap t pos set with
  | nil =>
      cases collected
      exact writing.refl _
  | cons node rest inductionHypothesis =>
      rcases Option.bind_eq_some_iff.mp collected with ⟨value, _, collected⟩
      cases value with
      | none => exact inductionHypothesis collected
      | some value =>
          rcases Option.bind_eq_some_iff.mp collected with ⟨⟨last, behind⟩, others, done⟩
          cases done
          refine writing.trans (writing.newAttribute heap value) ?_
          exact writing.trans (writing.addToSelection _ _ _ _) (inductionHypothesis others)

theorem attributeStep (etree : ExprNode) {args : List (Operand Num)}
    (all : RelatesAll related args) : Relates related (attributeStep etree args) := by
  intro current heap value after evaluated
  cases args with
  | nil =>
      rcases Option.bind_eq_some_iff.mp evaluated with ⟨found, _, evaluated⟩
      cases found with
      | none =>
          cases evaluated
          exact writing.refl heap
      | some text =>
          cases evaluated
          exact writing.newAttribute heap text
  | cons operand rest =>
      rcases Option.bind_eq_some_iff.mp evaluated with ⟨⟨first, middle⟩, begun, evaluated⟩
      have step := all operand List.mem_cons_self begun
      cases first with
      | nodeset nodeset =>
          rcases Option.bind_eq_some_iff.mp evaluated with ⟨nodes, _, evaluated⟩
          rcases Option.bind_eq_some_iff.mp evaluated with ⟨⟨last, set⟩, collected, done⟩
          cases done
          exact writing.trans step (writing.attributesOf etree.name nodes collected)
      | null | bool | int | number | string =>
          cases evaluated
          exact step

theorem xpathGetAttrs {heap after : Heap} {nodes : List NodeId} {set : Ptr}
    (collected : xpathGetAttrs heap nodes = some (after, set)) : related heap after := by
  rcases Option.bind_eq_some_iff.mp collected with ⟨attributes, _, made⟩
  cases made
  exact writing.newSelection heap _

theorem allAttributesStep {args : List (Operand Num)} (all : RelatesAll related args) :
    Relates related (allAttributesStep args) := by
  intro current heap value after evaluated
  cases args with
  | nil =>
      rcases Option.bind_eq_some_iff.mp evaluated with ⟨⟨last, set⟩, collected, done⟩
      cases done
      exact writing.trans (writing.addToSelection heap none current 1)
        (writing.xpathGetAttrs collected)
  | cons operand rest =>
      rcases Option.bind_eq_some_iff.mp evaluated with ⟨⟨first, middle⟩, begun, evaluated⟩
      have step := all operand List.mem_cons_self begun
      cases first with
      | nodeset nodeset =>
          rcases Option.bind_eq_some_iff.mp evaluated with ⟨nodes, _, evaluated⟩
          rcases Option.bind_eq_some_iff.mp evaluated with ⟨⟨last, set⟩, collected, done⟩
          cases done
          exact writing.trans step (writing.xpathGetAttrs collected)
      | null | bool | int | number | string =>
          cases evaluated
          exact step

/-! ### Variables -/

theorem rvalCopy {heap after : Heap} {source value : RValue Num}
    (copied : rvalCopy heap source = some (value, after)) : related heap after := by
  cases source with
  | nodeset nodeset =>
      rcases Option.bind_eq_some_iff.mp copied with ⟨⟨last, copy⟩, made, done⟩
      cases done
      rcases Option.bind_eq_some_iff.mp made with ⟨nodes, _, made⟩
      cases made
      exact writing.nodesetCopies heap none _
  | null | bool | int | number | string =>
      cases copied
      exact writing.refl heap

theorem getVariableRv (env : Env Num) (name : Option Bytes) {heap after : Heap}
    {value : RValue Num} (found : getVariableRv env name heap = some (value, after)) :
    related heap after := by
  unfold TurboXSL.getVariableRv at found
  split at found
  · exact writing.rvalCopy found
  · split at found
    · exact writing.rvalCopy found
    · cases found
      exact writing.refl heap

/-! ### Functions -/

theorem xfCurrent : Relates related (xfCurrent env) := by
  intro current heap value after evaluated
  rcases Option.bind_eq_some_iff.mp evaluated with ⟨node, _, evaluated⟩
  cases above : (heap.get node).parent with
  | none =>
      rw [above] at evaluated
      cases evaluated
      exact writing.refl heap
  | some parent =>
      rw [above] at evaluated
      cases evaluated
      exact writing.newSelection heap [(parent, 1)]

theorem selectedDocument {loaded after : Heap} {doc : Ptr} {value : RValue Num}
    (done : (match doc with
      | none => some (.null, loaded)
      | some doc => some (.nodeset (TurboXSL.newSelection loaded [(doc, 1)]).2,
          (TurboXSL.newSelection loaded [(doc, 1)]).1)) = some (value, after)) :
    related loaded after := by
  cases doc with
  | none =>
      cases done
      exact writing.refl loaded
  | some doc =>
      cases done
      exact writing.newSelection loaded [(doc, 1)]

theorem xpathEvalSelection {run : Expr → Eval Num} (relates : ∀ etree, Relates related (run etree))
    {etree : Expr} {current : NodeId} {heap after : Heap} {set : Ptr}
    (evaluated : xpathEvalSelection env run etree current heap = some (set, after)) :
    related heap after := by
  unfold TurboXSL.xpathEvalSelection at evaluated
  split at evaluated
  · cases evaluated
    exact writing.refl heap
  · rcases Option.bind_eq_some_iff.mp evaluated with ⟨l, here, evaluated⟩
    rcases Option.bind_eq_some_iff.mp evaluated with ⟨⟨value, last⟩, ran, evaluated⟩
    have whole := writing.trans (writing.current heap current here) (relates etree ran)
    cases value with
    | nodeset nodeset =>
        cases evaluated
        exact whole
    | null | bool | int | number | string =>
        cases evaluated
        exact whole

theorem xfKey [Double Num] {run : Expr → Eval Num} (relates : ∀ etree, Relates related (run etree))
    {args : List (Operand Num)} (all : RelatesAll related args) :
    Relates related (xfKey env run args) := by
  intro current heap value after evaluated
  rcases Option.bind_eq_some_iff.mp evaluated with ⟨⟨name, middle⟩, begun, evaluated⟩
  have step := writing.firstOperand all begun
  rcases Option.bind_eq_some_iff.mp evaluated with ⟨keyName, _, evaluated⟩
  cases keyName with
  | none =>
      cases evaluated
      exact step
  | some keyName =>
      dsimp only at evaluated
      split at evaluated
      · cases evaluated
        exact step
      · rcases Option.bind_eq_some_iff.mp evaluated with ⟨⟨second, last⟩, next, evaluated⟩
        have step := writing.trans step (writing.secondOperand all next)
        rcases Option.bind_eq_some_iff.mp evaluated with ⟨keyValue, _, evaluated⟩
        cases keyValue with
        | none =>
            cases evaluated
            exact step
        | some keyValue =>
            dsimp only at evaluated
            split at evaluated
            · cases evaluated
              exact step
            · rcases Option.bind_eq_some_iff.mp evaluated with ⟨expression, _, evaluated⟩
              rcases Option.bind_eq_some_iff.mp evaluated with ⟨⟨set, end_⟩, selected, done⟩
              cases done
              exact writing.trans step (writing.xpathEvalSelection relates selected)

variable [Double Num]

theorem doCallback (callback : List Bytes → Option Bytes) {args : List (Operand Num)}
    (all : RelatesAll related args) : Relates related (doCallback callback args) := by
  intro current heap value after evaluated
  rcases Option.bind_eq_some_iff.mp evaluated with ⟨⟨values, middle⟩, operands, evaluated⟩
  rcases Option.bind_eq_some_iff.mp evaluated with ⟨strings, _, done⟩
  cases done
  exact writing.evalOperands (all.take _) operands

theorem xfDocument {args : List (Operand Num)} (all : RelatesAll related args) :
    Relates related (xfDocument env args) := by
  intro current heap value after evaluated
  rcases Option.bind_eq_some_iff.mp evaluated with ⟨⟨name, middle⟩, begun, evaluated⟩
  have step := writing.firstOperand all begun
  rcases Option.bind_eq_some_iff.mp evaluated with ⟨string, _, evaluated⟩
  rcases Option.bind_eq_some_iff.mp evaluated with ⟨docname, _, evaluated⟩
  dsimp only at evaluated
  split at evaluated
  · have selected := @selectedDocument _ _ _ writing middle after (some env.stylesheet) value
    exact writing.trans step (selected evaluated)
  · rcases Option.bind_eq_some_iff.mp evaluated with ⟨⟨loaded, doc⟩, found, evaluated⟩
    exact writing.trans step (writing.trans (writing.documents found)
      (writing.selectedDocument evaluated))

omit [Double Num] in
theorem xfExnodeset {args : List (Operand Num)} (all : RelatesAll related args) :
    Relates related (xfExnodeset env args) := by
  intro current heap value after evaluated
  rcases Option.bind_eq_some_iff.mp evaluated with ⟨⟨first, middle⟩, begun, evaluated⟩
  have step := writing.firstOperand all begun
  cases first with
  | nodeset nodeset =>
      cases evaluated
      exact step
  | string string =>
      rcases Option.bind_eq_some_iff.mp evaluated with ⟨text, _, evaluated⟩
      rcases Option.bind_eq_some_iff.mp evaluated with ⟨⟨loaded, root⟩, found, done⟩
      cases done
      exact writing.trans step (writing.strings found)
  | null | bool | int | number =>
      cases evaluated
      exact step

theorem xpathCallDispatcher {run : Expr → Eval Num}
    (relates : ∀ etree, Relates related (run etree)) (name : Bytes) {args : List (Operand Num)}
    (all : RelatesAll related args) :
    Relates related (xpathCallDispatcher env run name args) := by
  unfold TurboXSL.xpathCallDispatcher
  split
  · exact writing.doCallback _ all
  · split_ifs
    · exact writing.xfCurrent
    · exact writing.xfChildren _
    · exact writing.xfChildren _
    · exact writing.xfDocument all
    · exact writing.xfExnodeset all
    · exact writing.xfKey relates all
    · cases (scalarFunction name).or (env.functions name) with
      | some function => exact writing.callScalar function all
      | none => exact nullEval writing.refl

/-! ### Operators -/

theorem filterNodes {expr : Operand Num} (relates : Relates related expr.run) (nodes : List NodeId)
    {heap after : Heap} {tmp set : Ptr} {pos : Nat}
    (filtered : filterNodes expr heap tmp pos nodes = some (after, set)) : related heap after := by
  induction nodes generalizing heap tmp pos set with
  | nil =>
      cases filtered
      exact writing.refl _
  | cons node rest inductionHypothesis =>
      rcases Option.bind_eq_some_iff.mp filtered with ⟨⟨selected, middle⟩, tested, filtered⟩
      have step : related heap middle := by
        unfold filterTest at tested
        split at tested
        · cases tested
          exact writing.refl heap
        · rcases Option.bind_eq_some_iff.mp tested with ⟨⟨value, last⟩, evaluated, done⟩
          have here := relates evaluated
          cases value <;> cases done <;> exact here
      dsimp only at filtered
      cases selected with
      | false => exact writing.trans step (inductionHypothesis filtered)
      | true =>
          rcases Option.bind_eq_some_iff.mp filtered with ⟨⟨last, behind⟩, others, done⟩
          cases done
          exact writing.trans step (writing.trans (writing.addToSelection middle tmp node (pos + 1))
            (inductionHypothesis others))

theorem unionOperands {args : List (Operand Num)} (all : RelatesAll related args)
    {current : NodeId} {heap after : Heap} {tmp selection result : Ptr} {pos : Nat}
    (united : unionOperands args current heap tmp selection pos = some (result, after)) :
    related heap after := by
  induction args generalizing heap tmp selection pos with
  | nil =>
      cases united
      exact writing.refl _
  | cons operand rest inductionHypothesis =>
      rcases Option.bind_eq_some_iff.mp united with ⟨⟨value, middle⟩, evaluated, united⟩
      have step := all operand List.mem_cons_self evaluated
      have linked : ∀ {heap tmp src selection pos},
          ((TurboXSL.xmlAddSiblings heap tmp src pos).bind fun placed =>
            TurboXSL.unionOperands rest current placed.1 placed.2.1
              (if tmp = none ∧ src.isSome then src else selection) placed.2.2) =
            some (result, after) → related heap after := by
        intro heap tmp src selection pos joined
        rcases Option.bind_eq_some_iff.mp joined with ⟨⟨placed, last, next⟩, added, others⟩
        exact writing.trans (writing.xmlAddSiblings added) (inductionHypothesis all.tail others)
      dsimp only at united
      cases value with
      | nodeset nodeset => exact writing.trans step (linked united)
      | null | bool | int | number | string =>
          rcases Option.bind_eq_some_iff.mp united with ⟨name, _, united⟩
          cases name with
          | none => exact writing.trans step (inductionHypothesis all.tail united)
          | some name =>
              exact writing.trans step (writing.trans (writing.newText middle name) (linked united))

theorem anyOperand (stop : Bool) {args : List (Operand Num)} (all : RelatesAll related args) :
    Relates related (anyOperand stop args) := by
  induction args with
  | nil =>
      rintro current heap value after ⟨⟩
      exact writing.refl heap
  | cons operand rest inductionHypothesis =>
      intro current heap value after evaluated
      rcases Option.bind_eq_some_iff.mp evaluated with ⟨⟨first, middle⟩, begun, evaluated⟩
      have step := all operand List.mem_cons_self begun
      dsimp only at evaluated
      split at evaluated
      · cases evaluated
        exact step
      · exact writing.trans step (inductionHypothesis all.tail evaluated)

omit [Double Num] in
theorem compare (test : Heap → RValue Num → RValue Num → Option Bool) {args : List (Operand Num)}
    (all : RelatesAll related args) : Relates related (compare test args) := by
  intro current heap value after evaluated
  rcases Option.bind_eq_some_iff.mp evaluated with ⟨⟨left, right, middle⟩, operands, evaluated⟩
  rcases Option.bind_eq_some_iff.mp evaluated with ⟨answer, _, done⟩
  cases done
  exact writing.evalBoth all operands

theorem arithmetic (operation : Num → Num → Option Num) {args : List (Operand Num)}
    (all : RelatesAll related args) : Relates related (arithmetic operation args) := by
  intro current heap value after evaluated
  rcases Option.bind_eq_some_iff.mp evaluated with ⟨⟨left, right, middle⟩, operands, evaluated⟩
  rcases Option.bind_eq_some_iff.mp evaluated with ⟨leftNumber, _, evaluated⟩
  rcases Option.bind_eq_some_iff.mp evaluated with ⟨rightNumber, _, evaluated⟩
  rcases Option.bind_eq_some_iff.mp evaluated with ⟨result, _, done⟩
  cases done
  exact writing.evalBoth all operands

/-! ### The switch -/

theorem filterStep {args : List (Operand Num)} (all : RelatesAll related args) {current : NodeId}
    {heap after : Heap} {value : RValue Num}
    (evaluated : (do
      let (value, heap) ← TurboXSL.firstOperand args current heap
      match value with
      | .nodeset nodeset => do
          let (heap, set) ← xpathFilter heap nodeset args.tail.head?
          some (.nodeset set, heap)
      | _ => some (.nodeset none, heap)) = some (value, after)) : related heap after := by
  rcases Option.bind_eq_some_iff.mp evaluated with ⟨⟨first, middle⟩, begun, evaluated⟩
  have step := writing.firstOperand all begun
  cases first with
  | nodeset nodeset =>
      rcases Option.bind_eq_some_iff.mp evaluated with ⟨⟨last, set⟩, filtered, done⟩
      cases done
      cases nodeset with
      | none =>
          cases filtered
          exact step
      | some head =>
          rcases Option.bind_eq_some_iff.mp filtered with ⟨nodes, _, filtered⟩
          rcases Option.bind_eq_some_iff.mp filtered with ⟨expr, found, filtered⟩
          have member : expr ∈ args := List.mem_of_mem_tail (List.mem_of_mem_head? found)
          exact writing.trans step (writing.filterNodes (all expr member) nodes filtered)
  | null | bool | int | number | string =>
      cases evaluated
      exact step

theorem executeNode {run : Expr → Eval Num} (relates : ∀ etree, Relates related (run etree))
    (etree : ExprNode) {args : List (Operand Num)} (all : RelatesAll related args) :
    Relates related (executeNode env run etree args) := by
  unfold TurboXSL.executeNode
  intro current heap value after evaluated
  cases kind : etree.type with
  | int | text =>
      rw [kind] at evaluated
      cases evaluated
      exact writing.refl heap
  | union =>
      rw [kind] at evaluated
      rcases Option.bind_eq_some_iff.mp evaluated with ⟨⟨selection, last⟩, united, done⟩
      cases done
      exact writing.unionOperands all united
  | attrAll =>
      rw [kind] at evaluated
      exact writing.allAttributesStep all evaluated
  | root | context =>
      rw [kind] at evaluated
      exact writing.single _ evaluated
  | filter =>
      rw [kind] at evaluated
      exact writing.filterStep all evaluated
  | all | select | parent | self | descendant | descendantOrSelf | ancestor | ancestorOrSelf
  | precedingSibling | preceding | followingSibling | following =>
      rw [kind] at evaluated
      exact writing.axisStep etree all evaluated
  | or | and =>
      rw [kind] at evaluated
      exact writing.anyOperand _ all evaluated
  | eq | ne | lt | le | gt | ge =>
      rw [kind] at evaluated
      exact writing.compare _ all evaluated
  | add | sub | mul | div | mod =>
      rw [kind] at evaluated
      exact writing.arithmetic _ all evaluated
  | not =>
      rw [kind] at evaluated
      rcases Option.bind_eq_some_iff.mp evaluated with ⟨⟨first, middle⟩, begun, done⟩
      cases done
      exact writing.firstOperand all begun
  | call =>
      rw [kind] at evaluated
      rcases Option.bind_eq_some_iff.mp evaluated with ⟨name, _, evaluated⟩
      exact writing.xpathCallDispatcher relates name all evaluated
  | attr =>
      rw [kind] at evaluated
      exact writing.attributeStep etree all evaluated
  | var =>
      rw [kind] at evaluated
      exact writing.getVariableRv env etree.name evaluated

/-- By recursion over the links of the expression. -/
theorem operands {run : Expr → Eval Num} (relates : ∀ etree, Relates related (run etree))
    (etree : Expr) : RelatesAll related (operands env run etree) := by
  induction etree with
  | null => exact .nil
  | node head children next below behind =>
      intro operand member
      rcases List.mem_cons.mp member with rfl | member
      · exact writing.executeNode relates head below
      · exact behind operand member

theorem keyEval (depth : Nat) (etree : Expr) : Relates related (keyEval env depth etree) := by
  induction depth generalizing etree with
  | zero =>
      intro current heap value after impossible
      cases impossible
  | succ depth inductionHypothesis =>
      exact writing.firstOperand (writing.operands inductionHypothesis etree)

/-- What every write of an evaluation keeps, evaluations keep. -/
theorem xpathExecuteScalar (depth : Nat) (etree : Expr) :
    Relates related (xpathExecuteScalar env depth etree) :=
  writing.firstOperand (writing.operands (writing.keyEval depth) etree)

end Writing

end TurboXSL
