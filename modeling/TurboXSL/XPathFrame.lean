import TurboXSL.XPathExec

namespace TurboXSL

open Library

/-!
# What evaluation leaves alone

Whatever expression is evaluated, the nodes that existed before stay as they
are; only the current node in `locals` may be set.  A node-set that is
returned was made on the way, and new nodes are linked to new nodes only.
-/

/-- `after` is `before` with more nodes. -/
structure Allocates (locals : Ptr) (before after : Heap) : Prop where
  grows : before.size ≤ after.size
  same : ∀ i < before.size, locals ≠ some i → after.get i = before.get i
  frame : ∀ l, locals = some l → l < before.size →
    (after.get l).attributes = (before.get l).attributes
  closed : ClosedFrom before.size after

/-- The node of the local variables exists already. -/
def Old (locals : Ptr) (heap : Heap) : Prop := ∀ l, locals = some l → l < heap.size

/-- A pointer to a node that was not there before. -/
def Fresh (before after : Heap) (p : Ptr) : Prop :=
  ∀ n, p = some n → before.size ≤ n ∧ n < after.size

/-- The result of an evaluation. -/
structure Outcome {Num : Type} (locals : Ptr) (before : Heap) (value : RValue Num) (after : Heap) :
    Prop where
  allocates : Allocates locals before after
  fresh : ∀ nodeset, value = .nodeset nodeset → Fresh before after nodeset

/-- An evaluator that keeps to this. -/
def Framed {Num : Type} (locals : Ptr) (eval : Eval Num) : Prop :=
  ∀ current heap value after, Old locals heap → eval current heap = some (value, after) →
    Outcome locals heap value after

section Memory

variable {locals : Ptr} {before middle after : Heap}

theorem Allocates.refl (locals : Ptr) (heap : Heap) : Allocates locals heap heap :=
  ⟨Nat.le_refl _, fun _ _ _ => rfl, fun _ _ _ => rfl,
    fun _ low high => absurd high (Nat.not_lt.mpr low)⟩

theorem Old.grow (old : Old locals before) (allocates : Allocates locals before after) :
    Old locals after := fun l same => Nat.lt_of_lt_of_le (old l same) allocates.grows

theorem Allocates.trans (first : Allocates locals before middle) (old : Old locals before)
    (second : Allocates locals middle after) : Allocates locals before after where
  grows := Nat.le_trans first.grows second.grows
  same := by
    intro i small other
    rw [second.same i (Nat.lt_of_lt_of_le small first.grows) other]
    exact first.same i small other
  frame := by
    intro l here small
    rw [second.frame l here (Nat.lt_of_lt_of_le small first.grows)]
    exact first.frame l here small
  closed := by
    intro n low high next link
    by_cases new : middle.size ≤ n
    · have found := second.closed n new high next link
      exact ⟨Nat.le_trans first.grows found.1, found.2⟩
    · have inMiddle := Nat.lt_of_not_le new
      have other : locals ≠ some n := fun same => absurd (old n same) (Nat.not_lt.mpr low)
      rw [second.same n inMiddle other] at link
      have found := first.closed n low inMiddle next link
      exact ⟨found.1, Nat.lt_of_lt_of_le found.2 second.grows⟩

theorem Fresh.none_ (before after : Heap) : Fresh before after none := nofun

theorem Fresh.grow {p : Ptr} (fresh : Fresh before middle p) (second : Allocates locals middle after) :
    Fresh before after p := fun n same =>
  ⟨(fresh n same).1, Nat.lt_of_lt_of_le (fresh n same).2 second.grows⟩

theorem Fresh.earlier {p : Ptr} (fresh : Fresh middle after p)
    (first : Allocates locals before middle) : Fresh before after p := fun n same =>
  ⟨Nat.le_trans first.grows (fresh n same).1, (fresh n same).2⟩

theorem Outcome.later {Num : Type} {value : RValue Num} (first : Allocates locals before middle)
    (old : Old locals before) (second : Outcome locals middle value after) :
    Outcome locals before value after :=
  ⟨first.trans old second.allocates, fun nodeset same => (second.fresh nodeset same).earlier first⟩

/-- A value that is no node-set needs no new nodes. -/
theorem Outcome.scalar {Num : Type} {value : RValue Num} (allocates : Allocates locals before after)
    (plain : ∀ nodeset, value ≠ .nodeset nodeset) : Outcome locals before value after :=
  ⟨allocates, fun nodeset same => (plain nodeset same).elim⟩

theorem Outcome.nodeset {Num : Type} {p : Ptr} (allocates : Allocates locals before after)
    (fresh : Fresh before after p) : Outcome locals before (.nodeset p : RValue Num) after := by
  refine ⟨allocates, ?_⟩
  rintro nodeset ⟨⟩
  exact fresh

/-- A new node without a link forward. -/
theorem Allocates.alloc (allocates : Allocates locals before after) {node : XmlNode}
    (bare : node.next = none) : Allocates locals before (after.alloc node) where
  grows := Nat.le_succ_of_le allocates.grows
  same := by
    intro i small other
    rw [after.alloc_get_of_lt node (Nat.lt_of_lt_of_le small allocates.grows)]
    exact allocates.same i small other
  frame := by
    intro l here small
    rw [after.alloc_get_of_lt node (Nat.lt_of_lt_of_le small allocates.grows)]
    exact allocates.frame l here small
  closed := by
    intro n low high next link
    rcases Nat.lt_succ_iff_lt_or_eq.mp high with old | same
    · rw [after.alloc_get_of_lt node old] at link
      have found := allocates.closed n low old next link
      exact ⟨found.1, Nat.lt_succ_of_lt found.2⟩
    · rw [same, after.alloc_get_same, bare] at link
      cases link

/-- A new node may be changed, its link forward only to lead to a new one. -/
theorem Allocates.modify (allocates : Allocates locals before after) {index : NodeId}
    (new : before.size ≤ index) (change : XmlNode → XmlNode)
    (link : ∀ next, (change (after.get index)).next = some next →
      before.size ≤ next ∧ next < after.size ∨ (after.get index).next = some next) :
    Allocates locals before (after.modify index change) where
  grows := allocates.grows
  same := by
    intro i small other
    rw [after.modify_get_of_ne change (Nat.ne_of_lt (Nat.lt_of_lt_of_le small new))]
    exact allocates.same i small other
  frame := by
    intro l here small
    rw [after.modify_get_of_ne change (Nat.ne_of_lt (Nat.lt_of_lt_of_le small new))]
    exact allocates.frame l here small
  closed := by
    intro n low high next here
    by_cases at_ : n = index
    · rw [at_, after.modify_get_same] at here
      rcases link next here with found | kept
      · exact found
      · exact allocates.closed n low high next (at_ ▸ kept)
    · rw [after.modify_get_of_ne change at_] at here
      exact allocates.closed n low high next here

/-- The members of a list that begins with a new node are new. -/
theorem Allocates.siblings_fresh (allocates : Allocates locals before after) {p : Ptr}
    (fresh : Fresh before after p) {nodes : List NodeId} (found : siblings after p = some nodes) :
    ∀ n ∈ nodes, before.size ≤ n ∧ n < after.size := by
  have chain := (follow_eq_some_iff.mp found).1
  clear found
  induction chain with
  | nil =>
      intro n impossible
      cases impossible
  | cons first rest _ inductionHypothesis =>
      intro n member
      have here := fresh first rfl
      rcases List.mem_cons.mp member with same | later
      · exact same ▸ here
      · refine inductionHypothesis ?_ n later
        intro next link
        exact allocates.closed first here.1 here.2 next link

end Memory

/-! ## Selections -/

section Selections

variable {locals : Ptr} {before : Heap}

omit locals before in
@[simp] theorem setNext_size (heap : Heap) (node next : Ptr) :
    (setNext heap node next).size = heap.size := by
  cases node <;> rfl

/-- A new node may be linked to another new one. -/
theorem setNext_allocates {heap : Heap} (allocates : Allocates locals before heap) {node next : Ptr}
    (new : ∀ n, node = some n → before.size ≤ n) (target : Fresh before heap next) :
    Allocates locals before (setNext heap node next) := by
  cases node with
  | none => exact allocates
  | some n =>
      refine allocates.modify (new n rfl) (fun cell => { cell with next := next }) ?_
      intro other link
      exact .inl (target other link)

theorem addToSelection_allocates {heap : Heap} (allocates : Allocates locals before heap)
    {prev : Ptr} (fresh : Fresh before heap prev) (src : NodeId) (position : Nat) :
    Allocates locals before (addToSelection heap prev src position).1 ∧
      Fresh before (addToSelection heap prev src position).1 (some heap.size) := by
  have made : Allocates locals before (heap.alloc (selectionCopy heap prev src position)) :=
    allocates.alloc rfl
  constructor
  · refine setNext_allocates made (fun p same => (fresh p same).1) ?_
    rintro n ⟨⟩
    exact ⟨allocates.grows, Nat.lt_succ_self _⟩
  · rintro n ⟨⟩
    refine ⟨allocates.grows, ?_⟩
    change heap.size < (setNext _ prev _).size
    rw [setNext_size]
    exact Nat.lt_succ_self _

omit locals before in
theorem addAllToSelection_grows (heap : Heap) (prev : Ptr) (sources : List (NodeId × Nat)) :
    heap.size ≤ (addAllToSelection heap prev sources).1.size := by
  induction sources generalizing heap prev with
  | nil => exact Nat.le_refl _
  | cons source rest inductionHypothesis =>
      rcases source with ⟨src, position⟩
      refine Nat.le_trans ?_ (inductionHypothesis _ _)
      cases prev <;> exact Nat.le_succ _

theorem addAllToSelection_allocates (sources : List (NodeId × Nat)) {heap : Heap}
    (allocates : Allocates locals before heap) {prev : Ptr} (fresh : Fresh before heap prev) :
    Allocates locals before (addAllToSelection heap prev sources).1 ∧
      ∀ c ∈ (addAllToSelection heap prev sources).2,
        before.size ≤ c ∧ c < (addAllToSelection heap prev sources).1.size := by
  induction sources generalizing heap prev with
  | nil => exact ⟨allocates, nofun⟩
  | cons source rest inductionHypothesis =>
      rcases source with ⟨src, position⟩
      have step := addToSelection_allocates allocates fresh src position
      have further := inductionHypothesis step.1 step.2
      refine ⟨further.1, ?_⟩
      intro c member
      rcases List.mem_cons.mp member with same | later
      · have here := step.2 c (same ▸ rfl)
        refine ⟨here.1, Nat.lt_of_lt_of_le here.2 ?_⟩
        exact (addAllToSelection_grows _ _ _)
      · exact further.2 c later

theorem newSelection_allocates (sources : List (NodeId × Nat)) {heap : Heap}
    (allocates : Allocates locals before heap) :
    Allocates locals before (newSelection heap sources).1 ∧
      Fresh before (newSelection heap sources).1 (newSelection heap sources).2 := by
  have made := addAllToSelection_allocates sources allocates (.none_ before heap)
  refine ⟨made.1, ?_⟩
  intro n head
  exact made.2 n (List.mem_of_mem_head? head)

theorem nodesetCopies_allocates (sources : List (NodeId × Nat)) {heap : Heap}
    (allocates : Allocates locals before heap) {prev : Ptr} (fresh : Fresh before heap prev) :
    Allocates locals before (nodesetCopies heap prev sources).1 ∧
      Fresh before (nodesetCopies heap prev sources).1 (nodesetCopies heap prev sources).2.head? := by
  suffices made : Allocates locals before (nodesetCopies heap prev sources).1 ∧
      heap.size ≤ (nodesetCopies heap prev sources).1.size ∧
      ((nodesetCopies heap prev sources).2 ≠ [] →
        (nodesetCopies heap prev sources).2.head? = some heap.size ∧
          heap.size < (nodesetCopies heap prev sources).1.size) by
    refine ⟨made.1, ?_⟩
    intro n head
    have nonempty : (nodesetCopies heap prev sources).2 ≠ [] := by
      intro empty
      rw [empty] at head
      cases head
    have first := made.2.2 nonempty
    rw [first.1] at head
    cases head
    exact ⟨allocates.grows, first.2⟩
  induction sources generalizing heap prev with
  | nil => exact ⟨allocates, Nat.le_refl _, fun impossible => (impossible rfl).elim⟩
  | cons source rest inductionHypothesis =>
      rcases source with ⟨src, position⟩
      have made : Allocates locals before (heap.alloc { selectionCopy heap prev src position with
          original := (heap.get src).original, uid := some heap.size }) := allocates.alloc rfl
      have linked : Allocates locals before (setNext (heap.alloc
          { selectionCopy heap prev src position with
            original := (heap.get src).original, uid := some heap.size }) prev (some heap.size)) := by
        refine setNext_allocates made (fun p same => (fresh p same).1) ?_
        rintro n ⟨⟩
        exact ⟨allocates.grows, Nat.lt_succ_self _⟩
      have size : (setNext (heap.alloc { selectionCopy heap prev src position with
          original := (heap.get src).original, uid := some heap.size }) prev (some heap.size)).size =
          heap.size + 1 := setNext_size _ _ _
      have here : Fresh before (setNext (heap.alloc { selectionCopy heap prev src position with
          original := (heap.get src).original, uid := some heap.size }) prev (some heap.size))
          (some heap.size) := by
        rintro n ⟨⟩
        rw [size]
        exact ⟨allocates.grows, Nat.lt_succ_self _⟩
      have further := inductionHypothesis linked here
      have bound := further.2.1
      rw [size] at bound
      exact ⟨further.1, Nat.le_of_succ_le bound, fun _ => ⟨rfl, bound⟩⟩

theorem xpathNodesetCopy_allocates {heap after : Heap} {src copy : Ptr}
    (copied : xpathNodesetCopy heap src = some (after, copy)) :
    Allocates locals heap after ∧ Fresh heap after copy := by
  rcases Option.bind_eq_some_iff.mp copied with ⟨nodes, -, made⟩
  cases made
  exact nodesetCopies_allocates _ (.refl locals heap) (.none_ _ _)

/-- The positions of new nodes may be set. -/
theorem setPositions_allocates (numbered : List (NodeId × Nat)) {heap : Heap}
    (allocates : Allocates locals before heap) (new : ∀ node ∈ numbered, before.size ≤ node.1) :
    Allocates locals before (numbered.foldl
      (fun heap node => heap.modify node.1 fun cell => { cell with position := node.2 }) heap) ∧
    (numbered.foldl (fun heap node => heap.modify node.1 fun cell =>
      { cell with position := node.2 }) heap).size = heap.size := by
  induction numbered generalizing heap with
  | nil => exact ⟨allocates, rfl⟩
  | cons node rest inductionHypothesis =>
      have step : Allocates locals before
          (heap.modify node.1 fun cell => { cell with position := node.2 }) :=
        allocates.modify (new node List.mem_cons_self) _ fun _ link => .inr link
      exact inductionHypothesis step fun other member => new other (List.mem_cons_of_mem _ member)

/-- The end of `xml_add_siblings`, with the list already linked. -/
theorem placeSiblings_allocates {middle after : Heap} (allocates : Allocates locals before middle)
    {head : NodeId} (fresh : Fresh before middle (some head)) {last : Ptr} {pos pos' : Nat}
    (placed : (do
      let nodes ← siblings middle (some head)
      some ((nodes.dropLast.zipIdx (pos + 1)).foldl
        (fun heap node => heap.modify node.1 fun cell => { cell with position := node.2 }) middle,
        nodes.getLast?, pos + nodes.dropLast.length)) = some (after, last, pos')) :
    Allocates locals before after ∧ after.size = middle.size ∧ Fresh before after last := by
  rcases Option.bind_eq_some_iff.mp placed with ⟨nodes, found, done⟩
  cases done
  have members := allocates.siblings_fresh fresh found
  have set := setPositions_allocates (nodes.dropLast.zipIdx (pos + 1)) allocates (by
    intro node member
    have inNodes : node.1 ∈ nodes.dropLast := List.fst_mem_of_mem_zipIdx member
    exact (members node.1 ((List.dropLast_subset nodes) inNodes)).1)
  refine ⟨set.1, set.2, ?_⟩
  intro n at_
  have here := members n (List.mem_of_getLast? at_)
  rw [set.2]
  exact here

theorem xmlAddSiblings_allocates {heap after : Heap} (allocates : Allocates locals before heap)
    {prev src last : Ptr} {pos pos' : Nat} (freshPrev : Fresh before heap prev)
    (freshSrc : Fresh before heap src)
    (added : xmlAddSiblings heap prev src pos = some (after, last, pos')) :
    Allocates locals before after ∧ after.size = heap.size ∧ Fresh before after last := by
  unfold xmlAddSiblings at added
  cases src with
  | none =>
      cases added
      exact ⟨allocates, rfl, freshPrev⟩
  | some head =>
      cases prev with
      | none => exact placeSiblings_allocates allocates freshSrc added
      | some p =>
          have first : Allocates locals before (setNext heap (some p) (some head)) :=
            setNext_allocates allocates (fun n same => (freshPrev n same).1) freshSrc
          exact placeSiblings_allocates (first.modify (freshSrc head rfl).1 _ fun _ link => .inr link)
            freshSrc added

theorem xpathApplySelector_allocates
    (select : Heap → NodeId → Option (List (NodeId × Nat))) (nodes : List NodeId)
    {heap after : Heap} (allocates : Allocates locals before heap) {tail head : Ptr}
    (fresh : Fresh before heap tail)
    (applied : xpathApplySelector select heap tail nodes = some (after, head)) :
    Allocates locals before after ∧ heap.size ≤ after.size ∧ Fresh before after head := by
  induction nodes generalizing heap tail head with
  | nil =>
      cases applied
      exact ⟨allocates, Nat.le_refl _, .none_ _ _⟩
  | cons node rest inductionHypothesis =>
      unfold xpathApplySelector at applied
      rcases Option.bind_eq_some_iff.mp applied with ⟨sources, -, applied⟩
      have made := addAllToSelection_allocates sources allocates (.none_ before heap)
      have grown := addAllToSelection_grows heap none sources
      generalize copied : addAllToSelection heap none sources = copies at applied made grown
      rcases copies with ⟨middle, copies⟩
      simp only at applied made grown
      cases first : copies.head? with
      | none =>
          rw [first] at applied
          have freshTail : Fresh before middle tail := fun n same =>
            ⟨(fresh n same).1, Nat.lt_of_lt_of_le (fresh n same).2 grown⟩
          have further := inductionHypothesis made.1 freshTail applied
          exact ⟨further.1, Nat.le_trans grown further.2.1, further.2.2⟩
      | some begin_ =>
          rw [first] at applied
          dsimp only at applied
          rcases Option.bind_eq_some_iff.mp applied with ⟨⟨last, behind⟩, rest_, done⟩
          cases done
          have newFirst := made.2 begin_ (List.mem_of_mem_head? first)
          have linked : Allocates locals before (setNext middle tail (some begin_)) := by
            refine setNext_allocates made.1 (fun n same => (fresh n same).1) ?_
            rintro n ⟨⟩
            exact newFirst
          have freshLast : Fresh before (setNext middle tail (some begin_)) copies.getLast? := by
            intro n at_
            rw [setNext_size]
            exact made.2 n (List.mem_of_getLast? at_)
          have further := inductionHypothesis linked freshLast rest_
          rw [setNext_size] at further
          refine ⟨further.1, Nat.le_trans grown further.2.1, ?_⟩
          rintro n ⟨⟩
          exact ⟨newFirst.1, Nat.lt_of_lt_of_le newFirst.2 further.2.1⟩

end Selections

/-! ## Evaluators -/

section Evaluators

variable {Num : Type} {locals : Ptr}

/-- Every operand keeps to the frame. -/
def FramedAll (locals : Ptr) (args : List (Operand Num)) : Prop :=
  ∀ operand ∈ args, Framed locals operand.run

theorem FramedAll.nil : FramedAll locals ([] : List (Operand Num)) :=
  fun _ impossible => absurd impossible List.not_mem_nil

theorem FramedAll.tail {operand : Operand Num} {rest : List (Operand Num)}
    (framed : FramedAll locals (operand :: rest)) : FramedAll locals rest :=
  fun other member => framed other (List.mem_cons_of_mem operand member)

theorem FramedAll.take {args : List (Operand Num)} (framed : FramedAll locals args) (n : Nat) :
    FramedAll locals (args.take n) := fun operand member => framed operand (List.mem_of_mem_take member)

theorem nullEval_framed : Framed locals (nullEval : Eval Num) := by
  rintro current heap value after _ ⟨⟩
  exact .scalar (.refl locals heap) nofun

theorem firstOperand_framed {args : List (Operand Num)} (framed : FramedAll locals args) :
    Framed locals (firstOperand args) := by
  cases args with
  | nil => exact nullEval_framed
  | cons operand rest => exact framed operand List.mem_cons_self

theorem secondOperand_framed {args : List (Operand Num)} (framed : FramedAll locals args) :
    Framed locals (secondOperand args) := by
  cases args with
  | nil =>
      intro current heap value after _ impossible
      cases impossible
  | cons operand rest => exact firstOperand_framed framed.tail

theorem evalOperands_allocates {args : List (Operand Num)} (framed : FramedAll locals args)
    {current : NodeId} {heap after : Heap} {values : List (RValue Num)} (old : Old locals heap)
    (evaluated : evalOperands args current heap = some (values, after)) :
    Allocates locals heap after := by
  induction args generalizing heap values with
  | nil =>
      cases evaluated
      exact .refl locals _
  | cons operand rest inductionHypothesis =>
      rcases Option.bind_eq_some_iff.mp evaluated with ⟨⟨value, middle⟩, first, evaluated⟩
      rcases Option.bind_eq_some_iff.mp evaluated with ⟨⟨more, last⟩, others, done⟩
      cases done
      have step := (framed operand List.mem_cons_self _ _ _ _ old first).allocates
      exact step.trans old (inductionHypothesis framed.tail (old.grow step) others)

theorem evalBoth_allocates {args : List (Operand Num)} (framed : FramedAll locals args)
    {current : NodeId} {heap after : Heap} {left right : RValue Num} (old : Old locals heap)
    (evaluated : evalBoth args current heap = some (left, right, after)) :
    Allocates locals heap after := by
  rcases Option.bind_eq_some_iff.mp evaluated with ⟨⟨value, middle⟩, first, evaluated⟩
  rcases Option.bind_eq_some_iff.mp evaluated with ⟨⟨other, last⟩, second, done⟩
  cases done
  have step := (firstOperand_framed framed _ _ _ _ old first).allocates
  exact step.trans old (secondOperand_framed framed _ _ _ _ (old.grow step) second).allocates

theorem single_framed (node : NodeId) : Framed locals (single node : Eval Num) := by
  rintro current heap value after _ ⟨⟩
  have made := newSelection_allocates [(node, 1)] (.refl locals heap)
  exact .nodeset made.1 made.2

theorem xfChildren_framed (test : XmlNode → Bool) :
    Framed locals (xfChildren test : Eval Num) := by
  intro current heap value after _ evaluated
  rcases Option.bind_eq_some_iff.mp evaluated with ⟨children, -, done⟩
  cases done
  have made := newSelection_allocates
    (numbered (children.filter fun node => test (heap.get node))) (.refl locals heap)
  exact .nodeset made.1 made.2

theorem callScalar_framed (function : ScalarFunction Num) {args : List (Operand Num)}
    (framed : FramedAll locals args) : Framed locals (callScalar function args) := by
  intro current heap value after old evaluated
  rcases Option.bind_eq_some_iff.mp evaluated with ⟨⟨values, middle⟩, operands, evaluated⟩
  rcases Option.bind_eq_some_iff.mp evaluated with ⟨result, -, done⟩
  cases done
  refine .scalar (evalOperands_allocates (framed.take _) old operands) ?_
  intro nodeset
  cases result <;> exact nofun

theorem doCallback_framed (callback : List Bytes → Option Bytes) {args : List (Operand Num)}
    (framed : FramedAll locals args) [Double Num] : Framed locals (doCallback callback args) := by
  intro current heap value after old evaluated
  rcases Option.bind_eq_some_iff.mp evaluated with ⟨⟨values, middle⟩, operands, evaluated⟩
  rcases Option.bind_eq_some_iff.mp evaluated with ⟨strings, -, done⟩
  cases done
  exact .scalar (evalOperands_allocates (framed.take _) old operands) nofun

/-- The nodes of a list stand in the memory it was evaluated into. -/
theorem axisStep_framed (etree : ExprNode) {args : List (Operand Num)}
    (framed : FramedAll locals args) : Framed locals (xpathSelectCommon etree args) := by
  intro current heap value after old evaluated
  cases args with
  | nil =>
      rcases Option.bind_eq_some_iff.mp evaluated with ⟨sources, -, done⟩
      cases done
      have made := newSelection_allocates sources (.refl locals heap)
      exact .nodeset made.1 made.2
  | cons operand rest =>
      rcases Option.bind_eq_some_iff.mp evaluated with ⟨⟨first, middle⟩, begun, evaluated⟩
      have step := (framed operand List.mem_cons_self _ _ _ _ old begun).allocates
      cases first with
      | nodeset nodeset =>
          rcases Option.bind_eq_some_iff.mp evaluated with ⟨nodes, -, evaluated⟩
          rcases Option.bind_eq_some_iff.mp evaluated with ⟨⟨last, set⟩, applied, done⟩
          cases done
          have made := xpathApplySelector_allocates _ nodes step (.none_ _ _) applied
          exact .nodeset made.1 made.2.2
      | null | bool | int | number | string =>
          cases evaluated
          exact .nodeset step (.none_ _ _)

theorem filterTest_allocates [Double Num] {expr : Operand Num} (framed : Framed locals expr.run)
    {node : NodeId} {heap after : Heap} {selected : Bool} (old : Old locals heap)
    (tested : filterTest expr node heap = some (selected, after)) :
    Allocates locals heap after := by
  unfold filterTest at tested
  split at tested
  · cases tested
    exact .refl locals _
  · rcases Option.bind_eq_some_iff.mp tested with ⟨⟨value, middle⟩, evaluated, done⟩
    have step := (framed _ _ _ _ old evaluated).allocates
    cases value <;> cases done <;> exact step

theorem filterNodes_allocates [Double Num] {expr : Operand Num} (framed : Framed locals expr.run)
    (nodes : List NodeId) {before heap after : Heap} (oldBefore : Old locals before)
    (allocates : Allocates locals before heap) {tmp set : Ptr} (fresh : Fresh before heap tmp)
    {pos : Nat} (filtered : filterNodes expr heap tmp pos nodes = some (after, set)) :
    Allocates locals before after ∧ heap.size ≤ after.size ∧ Fresh before after set := by
  induction nodes generalizing heap tmp pos set with
  | nil =>
      cases filtered
      exact ⟨allocates, Nat.le_refl _, .none_ _ _⟩
  | cons node rest inductionHypothesis =>
      rcases Option.bind_eq_some_iff.mp filtered with ⟨⟨selected, middle⟩, tested, filtered⟩
      have step := filterTest_allocates framed (oldBefore.grow allocates) tested
      have reached := allocates.trans oldBefore step
      have still := fresh.grow step
      dsimp only at filtered
      cases selected with
      | false =>
          have further := inductionHypothesis reached still filtered
          exact ⟨further.1, Nat.le_trans step.grows further.2.1, further.2.2⟩
      | true =>
          rcases Option.bind_eq_some_iff.mp filtered with ⟨⟨last, behind⟩, others, done⟩
          cases done
          have copied := addToSelection_allocates reached still node (pos + 1)
          have further := inductionHypothesis copied.1 copied.2 others
          have grown : middle.size < (addToSelection middle tmp node (pos + 1)).1.size :=
            (copied.2 middle.size rfl).2
          refine ⟨further.1, ?_, ?_⟩
          · exact Nat.le_trans step.grows (Nat.le_trans (Nat.le_of_lt grown) further.2.1)
          · rintro n ⟨⟩
            exact ⟨reached.grows, Nat.lt_of_lt_of_le grown further.2.1⟩

/-- The union goes on behind the list that an operand gives. -/
theorem unionRest_allocates [Double Num] {before middle heap' after : Heap}
    {rest : List (Operand Num)} {current : NodeId} {tmp src selection result : Ptr} {pos : Nat}
    (further : ∀ {heap tmp selection pos}, Allocates locals before heap → Fresh before heap tmp →
      Fresh before heap selection → unionOperands rest current heap tmp selection pos =
        some (result, after) → Allocates locals before after ∧ Fresh before after result)
    (larger : middle.size ≤ heap'.size) (allocates : Allocates locals before heap')
    (freshTmp : Fresh before middle tmp) (freshSelection : Fresh before middle selection)
    (freshSrc : Fresh before heap' src)
    (united : (do
      let (heap, last, pos) ← xmlAddSiblings heap' tmp src pos
      unionOperands rest current heap last
        (if tmp = none ∧ src.isSome then src else selection) pos) = some (result, after)) :
    Allocates locals before after ∧ Fresh before after result := by
  have grow : ∀ {p : Ptr} {heap : Heap}, Fresh before middle p → middle.size ≤ heap.size →
      Fresh before heap p := fun fresh larger n same =>
    ⟨(fresh n same).1, Nat.lt_of_lt_of_le (fresh n same).2 larger⟩
  rcases Option.bind_eq_some_iff.mp united with ⟨⟨joined, last, pos'⟩, linked, united⟩
  have placed := xmlAddSiblings_allocates allocates (grow freshTmp larger) freshSrc linked
  have stillLarger : middle.size ≤ joined.size := placed.2.1 ▸ larger
  refine further placed.1 placed.2.2 ?_ united
  split
  · intro n same
    have here := freshSrc n same
    rw [placed.2.1]
    exact here
  · exact grow freshSelection stillLarger

theorem unionOperands_allocates [Double Num] {args : List (Operand Num)}
    (framed : FramedAll locals args) {before heap after : Heap} (oldBefore : Old locals before)
    (allocates : Allocates locals before heap) {current : NodeId} {tmp selection result : Ptr}
    {pos : Nat} (freshTmp : Fresh before heap tmp) (freshSelection : Fresh before heap selection)
    (united : unionOperands args current heap tmp selection pos = some (result, after)) :
    Allocates locals before after ∧ Fresh before after result := by
  induction args generalizing heap tmp selection pos with
  | nil =>
      cases united
      exact ⟨allocates, freshSelection⟩
  | cons operand rest inductionHypothesis =>
      rcases Option.bind_eq_some_iff.mp united with ⟨⟨value, middle⟩, evaluated, united⟩
      have outcome := framed operand List.mem_cons_self _ _ _ _ (oldBefore.grow allocates) evaluated
      have reached := allocates.trans oldBefore outcome.allocates
      have stillTmp := freshTmp.grow outcome.allocates
      have stillSelection := freshSelection.grow outcome.allocates
      have further : ∀ {heap tmp selection pos}, Allocates locals before heap →
          Fresh before heap tmp → Fresh before heap selection →
          unionOperands rest current heap tmp selection pos = some (result, after) →
          Allocates locals before after ∧ Fresh before after result :=
        fun grown first head others => inductionHypothesis framed.tail grown first head others
      dsimp only at united
      cases value with
      | nodeset nodeset =>
          exact unionRest_allocates further (Nat.le_refl _) reached stillTmp stillSelection
            ((outcome.fresh nodeset rfl).earlier allocates) united
      | null | bool | int | number | string =>
          rcases Option.bind_eq_some_iff.mp united with ⟨name, _, united⟩
          cases name with
          | none => exact further reached stillTmp stillSelection united
          | some name =>
              -- a value that is no node-set becomes a new text node
              have made : Allocates locals before (xmlNewNode middle none .text).1 :=
                reached.alloc rfl
              refine unionRest_allocates further (Nat.le_succ _)
                (made.modify reached.grows _ fun _ link => .inr link) stillTmp stillSelection ?_ united
              rintro n ⟨⟩
              exact ⟨reached.grows, Nat.lt_succ_self _⟩

theorem anyOperand_framed (stop : Bool) {args : List (Operand Num)} [Double Num]
    (framed : FramedAll locals args) : Framed locals (anyOperand stop args) := by
  induction args with
  | nil =>
      rintro current heap value after _ ⟨⟩
      exact .scalar (.refl locals heap) nofun
  | cons operand rest inductionHypothesis =>
      intro current heap value after old evaluated
      rcases Option.bind_eq_some_iff.mp evaluated with ⟨⟨first, middle⟩, begun, evaluated⟩
      have step := (framed operand List.mem_cons_self _ _ _ _ old begun).allocates
      dsimp only at evaluated
      split at evaluated
      · cases evaluated
        exact .scalar step nofun
      · exact .later step old
          (inductionHypothesis framed.tail _ _ _ _ (old.grow step) evaluated)

theorem compare_framed (test : Heap → RValue Num → RValue Num → Option Bool)
    {args : List (Operand Num)} (framed : FramedAll locals args) :
    Framed locals (compare test args) := by
  intro current heap value after old evaluated
  rcases Option.bind_eq_some_iff.mp evaluated with ⟨⟨left, right, middle⟩, operands, evaluated⟩
  rcases Option.bind_eq_some_iff.mp evaluated with ⟨answer, _, done⟩
  cases done
  exact .scalar (evalBoth_allocates framed old operands) nofun

theorem arithmetic_framed [Double Num] (operation : Num → Num → Option Num)
    {args : List (Operand Num)} (framed : FramedAll locals args) :
    Framed locals (arithmetic operation args) := by
  intro current heap value after old evaluated
  rcases Option.bind_eq_some_iff.mp evaluated with ⟨⟨left, right, middle⟩, operands, evaluated⟩
  rcases Option.bind_eq_some_iff.mp evaluated with ⟨leftNumber, _, evaluated⟩
  rcases Option.bind_eq_some_iff.mp evaluated with ⟨rightNumber, _, evaluated⟩
  rcases Option.bind_eq_some_iff.mp evaluated with ⟨result, _, done⟩
  cases done
  exact .scalar (evalBoth_allocates framed old operands) nofun

/-! ### Attributes -/

theorem newAttribute_allocates {before heap : Heap} (allocates : Allocates locals before heap)
    (value : Bytes) : Allocates locals before (newAttribute heap value).1 ∧
      (newAttribute heap value).1.size = heap.size + 1 := by
  have made : Allocates locals before (xmlNewNode heap none .attribute).1 := allocates.alloc rfl
  refine ⟨?_, rfl⟩
  exact made.modify allocates.grows (fun cell => { cell with content := some value })
    fun _ link => .inr link

theorem attributesOf_allocates (name : Option Bytes) (nodes : List NodeId) {before heap after : Heap}
    (allocates : Allocates locals before heap) {t set : Ptr} (fresh : Fresh before heap t) {pos : Nat}
    (collected : attributesOf name heap t pos nodes = some (after, set)) :
    Allocates locals before after ∧ heap.size ≤ after.size ∧ Fresh before after set := by
  induction nodes generalizing heap t pos set with
  | nil =>
      cases collected
      exact ⟨allocates, Nat.le_refl _, .none_ _ _⟩
  | cons node rest inductionHypothesis =>
      rcases Option.bind_eq_some_iff.mp collected with ⟨value, _, collected⟩
      cases value with
      | none => exact inductionHypothesis allocates fresh collected
      | some value =>
          rcases Option.bind_eq_some_iff.mp collected with ⟨⟨last, behind⟩, others, done⟩
          cases done
          have made := newAttribute_allocates allocates value
          have still : Fresh before (newAttribute heap value).1 t := fun n same =>
            ⟨(fresh n same).1, made.2 ▸ Nat.lt_succ_of_lt (fresh n same).2⟩
          have copied := addToSelection_allocates made.1 still heap.size (pos + 1)
          have further := inductionHypothesis copied.1 copied.2 others
          have grown := (copied.2 _ rfl).2
          rw [made.2] at grown
          have reached := Nat.lt_of_lt_of_le grown further.2.1
          refine ⟨further.1, Nat.le_of_lt (Nat.lt_of_succ_lt reached), ?_⟩
          rintro n ⟨⟩
          change before.size ≤ (newAttribute heap value).1.size ∧ (newAttribute heap value).1.size < _
          rw [made.2]
          exact ⟨Nat.le_succ_of_le allocates.grows, reached⟩

theorem attributeStep_framed (etree : ExprNode) {args : List (Operand Num)}
    (framed : FramedAll locals args) : Framed locals (attributeStep etree args) := by
  intro current heap value after old evaluated
  cases args with
  | nil =>
      rcases Option.bind_eq_some_iff.mp evaluated with ⟨found, _, evaluated⟩
      cases found with
      | none =>
          cases evaluated
          exact .scalar (.refl locals heap) nofun
      | some text =>
          cases evaluated
          have made := newAttribute_allocates (.refl locals heap) text
          refine .nodeset made.1 ?_
          rintro n ⟨⟩
          change heap.size ≤ heap.size ∧ heap.size < (newAttribute heap text).1.size
          rw [made.2]
          exact ⟨Nat.le_refl _, Nat.lt_succ_self _⟩
  | cons operand rest =>
      rcases Option.bind_eq_some_iff.mp evaluated with ⟨⟨first, middle⟩, begun, evaluated⟩
      have step := (framed operand List.mem_cons_self _ _ _ _ old begun).allocates
      cases first with
      | nodeset nodeset =>
          rcases Option.bind_eq_some_iff.mp evaluated with ⟨nodes, _, evaluated⟩
          rcases Option.bind_eq_some_iff.mp evaluated with ⟨⟨last, set⟩, collected, done⟩
          cases done
          have made := attributesOf_allocates etree.name nodes step (.none_ _ _) collected
          exact .nodeset made.1 made.2.2
      | null | bool | int | number | string =>
          cases evaluated
          exact .scalar step nofun

theorem xpathGetAttrs_allocates {before heap after : Heap} {nodes : List NodeId} {set : Ptr}
    (allocates : Allocates locals before heap)
    (collected : xpathGetAttrs heap nodes = some (after, set)) :
    Allocates locals before after ∧ Fresh before after set := by
  rcases Option.bind_eq_some_iff.mp collected with ⟨attributes, _, made⟩
  cases made
  exact newSelection_allocates _ allocates

theorem allAttributesStep_framed {args : List (Operand Num)} (framed : FramedAll locals args) :
    Framed locals (allAttributesStep args) := by
  intro current heap value after old evaluated
  cases args with
  | nil =>
      rcases Option.bind_eq_some_iff.mp evaluated with ⟨⟨last, set⟩, collected, done⟩
      cases done
      have copied := addToSelection_allocates (.refl locals heap) (.none_ heap heap) current 1
      have made := xpathGetAttrs_allocates copied.1 collected
      exact .nodeset made.1 made.2
  | cons operand rest =>
      rcases Option.bind_eq_some_iff.mp evaluated with ⟨⟨first, middle⟩, begun, evaluated⟩
      have step := (framed operand List.mem_cons_self _ _ _ _ old begun).allocates
      cases first with
      | nodeset nodeset =>
          rcases Option.bind_eq_some_iff.mp evaluated with ⟨nodes, _, evaluated⟩
          rcases Option.bind_eq_some_iff.mp evaluated with ⟨⟨last, set⟩, collected, done⟩
          cases done
          have made := xpathGetAttrs_allocates step collected
          exact .nodeset made.1 made.2
      | null | bool | int | number | string =>
          cases evaluated
          exact .nodeset step (.none_ _ _)

/-! ### Variables and functions -/

theorem rvalCopy_outcome {heap after : Heap} {source value : RValue Num}
    (copied : rvalCopy heap source = some (value, after)) : Outcome locals heap value after := by
  cases source with
  | nodeset nodeset =>
      rcases Option.bind_eq_some_iff.mp copied with ⟨⟨last, copy⟩, made, done⟩
      cases done
      have fresh : Allocates locals heap after ∧ Fresh heap after copy :=
        xpathNodesetCopy_allocates made
      exact .nodeset fresh.1 fresh.2
  | null | bool | int | number | string =>
      cases copied
      exact .scalar (.refl locals heap) nofun

theorem getVariableRv_outcome (env : Env Num) (name : Option Bytes) {heap after : Heap}
    {value : RValue Num} (found : getVariableRv env name heap = some (value, after)) :
    Outcome locals heap value after := by
  unfold getVariableRv at found
  split at found
  · exact rvalCopy_outcome found
  · split at found
    · exact rvalCopy_outcome found
    · cases found
      exact .scalar (.refl locals heap) nofun

theorem xfCurrent_framed (env : Env Num) : Framed locals (xfCurrent env) := by
  intro current heap value after _ evaluated
  rcases Option.bind_eq_some_iff.mp evaluated with ⟨node, _, evaluated⟩
  cases above : (heap.get node).parent with
  | none =>
      rw [above] at evaluated
      cases evaluated
      exact .nodeset (.refl locals heap) (.none_ _ _)
  | some parent =>
      rw [above] at evaluated
      cases evaluated
      have made := newSelection_allocates [(parent, 1)] (.refl locals heap)
      exact .nodeset made.1 made.2

/-- What a loader builds. -/
theorem Loader.allocates (loader : Loader) {heap after : Heap} {text : Bytes} {root : Ptr}
    (loaded : loader.load heap text = some (after, root)) :
    Allocates locals heap after ∧ Fresh heap after root := by
  have grown := loader.extends_ loaded
  refine ⟨⟨grown.grows, fun i small _ => grown.same i small, ?_, loader.closed loaded⟩, ?_⟩
  · intro l _ small
    rw [grown.same l small]
  · intro n same
    exact loader.fresh (same ▸ loaded)

/-- A selection of the node of a document, or NULL. -/
theorem selectedDocument_outcome {before loaded after : Heap} {doc : Ptr} {value : RValue Num}
    (allocates : Allocates locals before loaded)
    (done : (match doc with
      | none => some (.null, loaded)
      | some doc => some (.nodeset (newSelection loaded [(doc, 1)]).2,
          (newSelection loaded [(doc, 1)]).1)) = some (value, after)) :
    Outcome locals before value after := by
  cases doc with
  | none =>
      cases done
      exact .scalar allocates nofun
  | some doc =>
      cases done
      have made := newSelection_allocates [(doc, 1)] allocates
      exact .nodeset made.1 made.2

theorem xfDocument_framed [Double Num] (env : Env Num) {args : List (Operand Num)}
    (framed : FramedAll locals args) : Framed locals (xfDocument env args) := by
  intro current heap value after old evaluated
  rcases Option.bind_eq_some_iff.mp evaluated with ⟨⟨name, middle⟩, begun, evaluated⟩
  have step := (firstOperand_framed framed _ _ _ _ old begun).allocates
  rcases Option.bind_eq_some_iff.mp evaluated with ⟨string, _, evaluated⟩
  rcases Option.bind_eq_some_iff.mp evaluated with ⟨docname, _, evaluated⟩
  dsimp only at evaluated
  split at evaluated
  · exact @selectedDocument_outcome _ _ heap middle after (some env.stylesheet) value step evaluated
  · rcases Option.bind_eq_some_iff.mp evaluated with ⟨⟨loaded, doc⟩, found, evaluated⟩
    exact selectedDocument_outcome (step.trans old (env.documents.allocates found).1) evaluated

theorem xfExnodeset_framed [Double Num] (env : Env Num) {args : List (Operand Num)}
    (framed : FramedAll locals args) : Framed locals (xfExnodeset env args) := by
  intro current heap value after old evaluated
  rcases Option.bind_eq_some_iff.mp evaluated with ⟨⟨first, middle⟩, begun, evaluated⟩
  have outcome := firstOperand_framed framed _ _ _ _ old begun
  cases first with
  | nodeset nodeset =>
      cases evaluated
      exact outcome
  | string string =>
      rcases Option.bind_eq_some_iff.mp evaluated with ⟨text, _, evaluated⟩
      rcases Option.bind_eq_some_iff.mp evaluated with ⟨⟨loaded, root⟩, found, done⟩
      cases done
      have made : Allocates locals middle after ∧ Fresh middle after root :=
        env.strings.allocates found
      exact .later outcome.allocates old (.nodeset made.1 made.2)
  | null | bool | int | number =>
      cases evaluated
      exact .nodeset outcome.allocates (.none_ _ _)

/-- The current node is set in `locals`. -/
theorem setCurrent_allocates (heap : Heap) {l : NodeId} (here : locals = some l) (current : NodeId) :
    Allocates locals heap (heap.modify l fun cell => { cell with parent := some current }) := by
  refine ⟨Nat.le_refl _, ?_, ?_, fun n low high => absurd high (Nat.not_lt.mpr low)⟩
  · intro i _ other
    refine heap.modify_get_of_ne _ ?_
    rintro rfl
    exact other here
  · intro i at_ _
    rw [← Option.some.inj (here.symm.trans at_), heap.modify_get_same]

/-- The evaluation of a selection sets the current node in `locals`. -/
theorem xpathEvalSelection_allocates (env : Env Num) {run : Expr → Eval Num}
    (framed : ∀ etree, Framed env.locals (run etree)) {etree : Expr} {current : NodeId}
    {heap after : Heap} {set : Ptr} (old : Old env.locals heap)
    (evaluated : xpathEvalSelection env run etree current heap = some (set, after)) :
    Allocates env.locals heap after ∧ Fresh heap after set := by
  unfold xpathEvalSelection at evaluated
  split at evaluated
  · cases evaluated
    exact ⟨.refl env.locals heap, .none_ _ _⟩
  · rcases Option.bind_eq_some_iff.mp evaluated with ⟨l, here, evaluated⟩
    rcases Option.bind_eq_some_iff.mp evaluated with ⟨⟨value, last⟩, run_, evaluated⟩
    have placed := setCurrent_allocates heap here current
    have outcome := Outcome.later placed old (framed etree _ _ _ _ (old.grow placed) run_)
    cases value with
    | nodeset nodeset =>
        cases evaluated
        exact ⟨outcome.allocates, outcome.fresh set rfl⟩
    | null | bool | int | number | string =>
        cases evaluated
        exact ⟨outcome.allocates, .none_ _ _⟩

theorem xfKey_framed [Double Num] (env : Env Num) {run : Expr → Eval Num}
    (framedRun : ∀ etree, Framed env.locals (run etree)) {args : List (Operand Num)}
    (framed : FramedAll env.locals args) : Framed env.locals (xfKey env run args) := by
  intro current heap value after old evaluated
  rcases Option.bind_eq_some_iff.mp evaluated with ⟨⟨name, middle⟩, begun, evaluated⟩
  have step := (firstOperand_framed framed _ _ _ _ old begun).allocates
  rcases Option.bind_eq_some_iff.mp evaluated with ⟨keyName, _, evaluated⟩
  cases keyName with
  | none =>
      cases evaluated
      exact .nodeset step (.none_ _ _)
  | some keyName =>
      dsimp only at evaluated
      split at evaluated
      · cases evaluated
        exact .nodeset step (.none_ _ _)
      · rcases Option.bind_eq_some_iff.mp evaluated with ⟨⟨second, last⟩, next, evaluated⟩
        have step := step.trans old
          (secondOperand_framed framed _ _ _ _ (old.grow step) next).allocates
        rcases Option.bind_eq_some_iff.mp evaluated with ⟨keyValue, _, evaluated⟩
        cases keyValue with
        | none =>
            cases evaluated
            exact .nodeset step (.none_ _ _)
        | some keyValue =>
            dsimp only at evaluated
            split at evaluated
            · cases evaluated
              exact .nodeset step (.none_ _ _)
            · rcases Option.bind_eq_some_iff.mp evaluated with ⟨expression, _, evaluated⟩
              rcases Option.bind_eq_some_iff.mp evaluated with ⟨⟨set, end_⟩, selected, done⟩
              cases done
              have made := xpathEvalSelection_allocates env framedRun (old.grow step) selected
              exact .later step old (.nodeset made.1 made.2)

theorem xpathCallDispatcher_framed [Double Num] (env : Env Num) {run : Expr → Eval Num}
    (framedRun : ∀ etree, Framed env.locals (run etree)) (name : Bytes) {args : List (Operand Num)}
    (framed : FramedAll env.locals args) :
    Framed env.locals (xpathCallDispatcher env run name args) := by
  unfold xpathCallDispatcher
  split
  · exact doCallback_framed _ framed
  · split_ifs
    · exact xfCurrent_framed env
    · exact xfChildren_framed _
    · exact xfChildren_framed _
    · exact xfDocument_framed env framed
    · exact xfExnodeset_framed env framed
    · exact xfKey_framed env framedRun framed
    · split
      · exact callScalar_framed _ framed
      · exact nullEval_framed

/-! ### The switch -/

theorem xpathFilter_allocates [Double Num] {args : List (Operand Num)}
    (framed : FramedAll locals args) {before heap after : Heap} (old : Old locals before)
    (allocates : Allocates locals before heap) {nodeset set : Ptr}
    (filtered : xpathFilter heap nodeset args.tail.head? = some (after, set)) :
    Allocates locals before after ∧ Fresh before after set := by
  cases nodeset with
  | none =>
      cases filtered
      exact ⟨allocates, .none_ _ _⟩
  | some head =>
      rcases Option.bind_eq_some_iff.mp filtered with ⟨nodes, _, filtered⟩
      rcases Option.bind_eq_some_iff.mp filtered with ⟨expr, found, filtered⟩
      have member : expr ∈ args := List.mem_of_mem_tail (List.mem_of_mem_head? found)
      have made := filterNodes_allocates (framed expr member) nodes old allocates
        (.none_ _ _) filtered
      exact ⟨made.1, made.2.2⟩

theorem executeNode_framed [Double Num] (env : Env Num) {run : Expr → Eval Num}
    (framedRun : ∀ etree, Framed env.locals (run etree)) (etree : ExprNode)
    {args : List (Operand Num)} (framed : FramedAll env.locals args) :
    Framed env.locals (executeNode env run etree args) := by
  unfold executeNode
  cases kind : etree.type with
  | int | text =>
      rintro current heap value after _ ⟨⟩
      exact .scalar (.refl _ heap) nofun
  | union =>
      intro current heap value after old evaluated
      rcases Option.bind_eq_some_iff.mp evaluated with ⟨⟨selection, last⟩, united, done⟩
      cases done
      have made := unionOperands_allocates framed old (.refl _ heap) (.none_ _ _) (.none_ _ _) united
      exact .nodeset made.1 made.2
  | attrAll => exact allAttributesStep_framed framed
  | root => exact single_framed env.rootNode
  | context =>
      intro current
      exact single_framed current current
  | filter =>
      intro current heap value after old evaluated
      rcases Option.bind_eq_some_iff.mp evaluated with ⟨⟨first, middle⟩, begun, evaluated⟩
      have step := (firstOperand_framed framed _ _ _ _ old begun).allocates
      cases first with
      | nodeset nodeset =>
          rcases Option.bind_eq_some_iff.mp evaluated with ⟨⟨last, set⟩, filtered, done⟩
          cases done
          have made := xpathFilter_allocates framed old step filtered
          exact .nodeset made.1 made.2
      | null | bool | int | number | string =>
          cases evaluated
          exact .nodeset step (.none_ _ _)
  | all | select | parent | self | descendant | descendantOrSelf | ancestor | ancestorOrSelf
  | precedingSibling | preceding | followingSibling | following => exact axisStep_framed etree framed
  | or | and => exact anyOperand_framed _ framed
  | eq | ne | lt | le | gt | ge => exact compare_framed _ framed
  | add | sub | mul | div | mod => exact arithmetic_framed _ framed
  | not =>
      intro current heap value after old evaluated
      rcases Option.bind_eq_some_iff.mp evaluated with ⟨⟨first, middle⟩, begun, done⟩
      cases done
      exact .scalar (firstOperand_framed framed _ _ _ _ old begun).allocates nofun
  | call =>
      intro current heap value after old evaluated
      rcases Option.bind_eq_some_iff.mp evaluated with ⟨name, _, evaluated⟩
      exact xpathCallDispatcher_framed env framedRun name framed _ _ _ _ old evaluated
  | attr => exact attributeStep_framed etree framed
  | var =>
      intro current heap value after _ found
      exact getVariableRv_outcome env etree.name found

/-- By recursion over the links of the expression. -/
theorem operands_framed [Double Num] (env : Env Num) {run : Expr → Eval Num}
    (framedRun : ∀ etree, Framed env.locals (run etree)) (etree : Expr) :
    FramedAll env.locals (operands env run etree) := by
  induction etree with
  | null => exact nofun
  | node head children next below behind =>
      intro operand member
      rcases List.mem_cons.mp member with rfl | member
      · exact executeNode_framed env framedRun head below
      · exact behind operand member

theorem keyEval_framed [Double Num] (env : Env Num) (depth : Nat) (etree : Expr) :
    Framed env.locals (keyEval env depth etree) := by
  induction depth generalizing etree with
  | zero => exact fun _ _ _ _ _ impossible => nomatch impossible
  | succ depth inductionHypothesis =>
      exact firstOperand_framed (operands_framed env inductionHypothesis etree)

/-- Evaluation only adds nodes, `locals` apart, and gives lists of new ones. -/
theorem xpathExecuteScalar_framed [Double Num] (env : Env Num) (depth : Nat) (etree : Expr) :
    Framed env.locals (xpathExecuteScalar env depth etree) :=
  firstOperand_framed (operands_framed env (keyEval_framed env depth) etree)

end Evaluators

end TurboXSL
