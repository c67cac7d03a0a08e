import TurboXSL.Axes
import TurboXSL.ParseTree

namespace TurboXSL

open Library Parse

/-!
# Copies in selections

A node-set holds copies of nodes.  A copy shares the downward and upward
links with its source, has the links of the selection for siblings, and
remembers its source in `original`; the source may be a copy itself.  The
axes look at `original` once, so those that follow sibling links see through
one copy only.
-/

/-- `c` is a copy of `src`, wherever it stands in a selection. -/
structure CopyOf (heap : Heap) (src c : NodeId) : Prop where
  older : src < c
  made : c < heap.size
  type : (heap.get c).type = (heap.get src).type
  name : (heap.get c).name = (heap.get src).name
  content : (heap.get c).content = (heap.get src).content
  parent : (heap.get c).parent = (heap.get src).parent
  children : (heap.get c).children = (heap.get src).children
  attributes : (heap.get c).attributes = (heap.get src).attributes
  original : (heap.get c).original = some src

/-- `c` is a copy of a copy of `d`, so many times. -/
inductive CopyChain (heap : Heap) (d : NodeId) : Nat → NodeId → Prop where
  | document : CopyChain heap d 0 d
  | copy {depth : Nat} {src c : NodeId} (chain : CopyChain heap d depth src)
      (copy : CopyOf heap src c) : CopyChain heap d (depth + 1) c

/-- The node at the end of the `original` links. -/
inductive Stands (heap : Heap) : NodeId → NodeId → Prop where
  | plain {d : NodeId} (last : (heap.get d).original = none) : Stands heap d d
  | copy {c src d : NodeId} (original : (heap.get c).original = some src)
      (stands : Stands heap src d) : Stands heap c d

/-- From the copy the axis yields nodes that stand for what it yields from
the node of the document, in the same order. -/
def Transparent (axis : ExprType) (heap : Heap) (kind : Option Kind) (d c : NodeId) : Prop :=
  Exists fun fromCopy => Exists fun fromDocument =>
    axisNodes axis heap c kind = some fromCopy ∧ axisNodes axis heap d kind = some fromDocument ∧
      List.Forall₂ (Stands heap) (fromCopy.map Prod.fst) (fromDocument.map Prod.fst)

/-- The axes that follow sibling links. -/
def BesideAxis (axis : ExprType) : Prop :=
  axis = .precedingSibling ∨ axis = .preceding ∨ axis = .followingSibling ∨ axis = .following

section Copies

variable {heap : Heap} {d c : NodeId} {depth : Nat}

/-- What all copies share with the node of the document. -/
structure Image (heap : Heap) (d c : NodeId) : Prop where
  type : (heap.get c).type = (heap.get d).type
  name : (heap.get c).name = (heap.get d).name
  content : (heap.get c).content = (heap.get d).content
  parent : (heap.get c).parent = (heap.get d).parent
  children : (heap.get c).children = (heap.get d).children
  attributes : (heap.get c).attributes = (heap.get d).attributes
  stands : Stands heap c d

theorem Image.refl (plain : (heap.get d).original = none) : Image heap d d :=
  ⟨rfl, rfl, rfl, rfl, rfl, rfl, .plain plain⟩

theorem Image.copy {src : NodeId} (image : Image heap d src) (copy : CopyOf heap src c) :
    Image heap d c where
  type := copy.type.trans image.type
  name := copy.name.trans image.name
  content := copy.content.trans image.content
  parent := copy.parent.trans image.parent
  children := copy.children.trans image.children
  attributes := copy.attributes.trans image.attributes
  stands := .copy copy.original image.stands

theorem CopyChain.image (chain : CopyChain heap d depth c) (plain : (heap.get d).original = none) :
    Image heap d c := by
  induction chain with
  | document => exact .refl plain
  | copy _ copy inductionHypothesis => exact inductionHypothesis.copy copy

theorem Image.passes (image : Image heap d c) (kind : Option Kind) :
    xpathNodeKind (heap.get c) kind = xpathNodeKind (heap.get d) kind := by
  unfold xpathNodeKind
  rw [image.type, image.name]

/-- Nodes of the document stand for themselves. -/
theorem stands_self {inside : NodeId → Prop} (linked : Linked heap inside) {nodes : List NodeId}
    (members : ∀ n ∈ nodes, inside n) : List.Forall₂ (Stands heap) nodes nodes := by
  rw [List.forall₂_same]
  exact fun n member => .plain (linked.plain (members n member))

/-- An axis that gives the copy and the node of the document the same nodes
is transparent. -/
theorem Transparent.of_eq {inside : NodeId → Prop} (linked : Linked heap inside) (member : inside d)
    {axis : ExprType} {kind : Option Kind}
    (same : axisNodes axis heap c kind = axisNodes axis heap d kind) :
    Transparent axis heap kind d c := by
  rcases linked.axisNodes_total member axis kind with ⟨sources, found, members⟩
  exact ⟨sources, sources, same.trans found, found, stands_self linked members⟩

/-- The node itself, where it is among the nodes of the axis. -/
theorem Image.self (image : Image heap d c) (kind : Option Kind) :
    List.Forall₂ (Stands heap) (getSelf heap c kind) (getSelf heap d kind) := by
  unfold getSelf
  rw [image.passes kind]
  split
  · exact .cons image.stands .nil
  · exact .nil

/-- The axes that follow no sibling links see through any number of copies. -/
theorem Image.transparent {inside : NodeId → Prop} (linked : Linked heap inside)
    (member : inside d) (image : Image heap d c) {axis : ExprType} (plain : ¬ BesideAxis axis)
    (kind : Option Kind) : Transparent axis heap kind d c := by
  have behind : ∀ nodes : List NodeId, (∀ n ∈ nodes, inside n) →
      List.Forall₂ (Stands heap)
        ((numbered (getSelf heap c kind) ++ numbered nodes).map Prod.fst)
        ((numbered (getSelf heap d kind) ++ numbered nodes).map Prod.fst) := by
    intro nodes members
    rw [List.map_append, List.map_append, numbered_fst, numbered_fst, numbered_fst]
    exact List.rel_append (image.self kind) (stands_self linked members)
  rcases linked.axisNodes_total member axis kind with ⟨sources, found, members⟩
  cases axis
  case precedingSibling => exact (plain (.inl rfl)).elim
  case preceding => exact (plain (.inr (.inl rfl))).elim
  case followingSibling => exact (plain (.inr (.inr (.inl rfl)))).elim
  case following => exact (plain (.inr (.inr (.inr rfl)))).elim
  case self =>
      refine ⟨_, _, rfl, rfl, ?_⟩
      rw [numbered_fst, numbered_fst]
      exact image.self kind
  case descendantOrSelf =>
      rcases linked.descendants member with ⟨nodes, -, lower, walked⟩
      refine ⟨numbered (getSelf heap c kind) ++ numbered (ofKind heap kind nodes),
        numbered (getSelf heap d kind) ++ numbered (ofKind heap kind nodes), ?_, ?_, ?_⟩
      · unfold axisNodes
        simp only [image.children, walked.2 kind]
        rfl
      · unfold axisNodes
        simp only [walked.2 kind]
        rfl
      · exact behind _ fun n at_ => linked.forest.inside_within member
          ((walked.1 n).mp (List.mem_filter.mp at_).1).to_reflTransGen
  case ancestorOrSelf =>
      have same : properAncestors heap c = properAncestors heap d := by
        unfold properAncestors
        rw [image.parent]
      unfold axisNodes at found
      cases above : properAncestors heap d with
      | none =>
          rw [above] at found
          cases found
      | some line =>
          rw [above] at found
          cases found
          refine ⟨numbered (getSelf heap c kind) ++ numbered (ofKind heap kind line),
            numbered (getSelf heap d kind) ++ numbered (ofKind heap kind line), ?_, ?_, ?_⟩
          · unfold axisNodes
            simp only [same, above]
            rfl
          · unfold axisNodes
            simp only [above]
            rfl
          · refine behind _ fun n at_ => members n ?_
            rw [List.map_append, numbered_fst, numbered_fst]
            exact List.mem_append_right _ at_
  all_goals
    refine .of_eq linked member ?_
    unfold axisNodes
    simp only [image.children, image.parent, properAncestors]

/-- A direct copy asks the node of the document for its siblings. -/
theorem CopyOf.transparent {inside : NodeId → Prop} (linked : Linked heap inside)
    (member : inside d) (copy : CopyOf heap d c) (axis : ExprType) (kind : Option Kind) :
    Transparent axis heap kind d c := by
  have image := (Image.refl (linked.plain member)).copy copy
  have same : ∀ side, siblingsBeside heap side c = siblingsBeside heap side d := by
    intro side
    unfold siblingsBeside
    rw [copy.original, linked.plain member]
    rfl
  by_cases beside : BesideAxis axis
  · refine .of_eq linked member ?_
    rcases beside with rfl | rfl | rfl | rfl <;>
    · unfold axisNodes
      simp only [same]
  · exact image.transparent linked member beside kind

end Copies

/-! ## Copies of copies -/

/-- On every document the axis is transparent for all copies of that depth. -/
def AlwaysTransparent (axis : ExprType) (depth : Nat) : Prop :=
  ∀ (heap : Heap) (inside : NodeId → Prop), Linked heap inside → ∀ d, inside d →
    ∀ c, CopyChain heap d depth c → ∀ kind, Transparent axis heap kind d c

theorem addToSelection_copy {heap : Heap} {src : NodeId} (old : src < heap.size) (position : Nat) :
    CopyOf (addToSelection heap none src position).1 src heap.size := by
  have same : (heap.alloc (selectionCopy heap none src position)).get src = heap.get src :=
    heap.alloc_get_of_lt _ old
  have new : (heap.alloc (selectionCopy heap none src position)).get heap.size =
      selectionCopy heap none src position := heap.alloc_get_same _
  change CopyOf (heap.alloc (selectionCopy heap none src position)) src heap.size
  refine ⟨old, Nat.lt_succ_self _, ?_, ?_, ?_, ?_, ?_, ?_, ?_⟩
  all_goals rw [new]
  all_goals try rw [same]
  all_goals rfl

theorem CopyOf.extend {heap after : Heap} {src c : NodeId} (copy : CopyOf heap src c)
    (extended : heap.Extends after) : CopyOf after src c := by
  have here := extended.same c copy.made
  have there := extended.same src (Nat.lt_trans copy.older copy.made)
  refine ⟨copy.older, Nat.lt_of_lt_of_le copy.made extended.grows, ?_, ?_, ?_, ?_, ?_, ?_, ?_⟩
  all_goals rw [here]
  all_goals try rw [there]
  · exact copy.type
  · exact copy.name
  · exact copy.content
  · exact copy.parent
  · exact copy.children
  · exact copy.attributes
  · exact copy.original

theorem CopyChain.extend {heap after : Heap} {d c : NodeId} {depth : Nat}
    (chain : CopyChain heap d depth c) (extended : heap.Extends after) :
    CopyChain after d depth c := by
  induction chain with
  | document => exact .document
  | copy _ copy inductionHypothesis => exact .copy inductionHypothesis (copy.extend extended)

/-- Copies of `d`, each alone in a selection. -/
def copyAgain (heap : Heap) (d : NodeId) : Nat → Heap × NodeId
  | 0 => (heap, d)
  | depth + 1 => addToSelection (copyAgain heap d depth).1 none (copyAgain heap d depth).2 1

theorem copyAgain_spec {heap : Heap} {d : NodeId} (old : d < heap.size) (depth : Nat) :
    heap.Extends (copyAgain heap d depth).1 ∧
      (copyAgain heap d depth).2 < (copyAgain heap d depth).1.size ∧
      CopyChain (copyAgain heap d depth).1 d depth (copyAgain heap d depth).2 ∧
      (depth ≠ 0 → ((copyAgain heap d depth).1.get (copyAgain heap d depth).2).prev = none ∧
        ((copyAgain heap d depth).1.get (copyAgain heap d depth).2).next = none) := by
  induction depth with
  | zero => exact ⟨.refl heap, old, .document, fun absurd_ => (absurd_ rfl).elim⟩
  | succ depth inductionHypothesis =>
      rcases inductionHypothesis with ⟨extended, small, chain, -⟩
      have grown : (copyAgain heap d depth).1.Extends (copyAgain heap d (depth + 1)).1 :=
        (Arena.Extends.refl _).alloc _
      refine ⟨extended.trans grown, Nat.lt_succ_self _, ?_, fun _ => ?_⟩
      · exact .copy (chain.extend grown) (addToSelection_copy small 1)
      · have new : (copyAgain heap d (depth + 1)).1.get (copyAgain heap d (depth + 1)).2 =
            selectionCopy (copyAgain heap d depth).1 none (copyAgain heap d depth).2 1 :=
          Arena.alloc_get_same _ _
        rw [new]
        exact ⟨rfl, rfl⟩

/-- From a copy of a copy that stands alone in its selection, the axes that
follow sibling links find nothing. -/
theorem axisNodes_copyAgain {heap : Heap} {d : NodeId} (old : d < heap.size) {axis : ExprType}
    (beside : BesideAxis axis) (depth : Nat) (kind : Option Kind) :
    axisNodes axis (copyAgain heap d (depth + 2)).1 (copyAgain heap d (depth + 2)).2 kind =
      some [] := by
  rcases copyAgain_spec old (depth + 1) with ⟨-, small, -, alone⟩
  rcases copyAgain_spec old (depth + 2) with ⟨-, -, chain, -⟩
  have grown : (copyAgain heap d (depth + 1)).1.Extends (copyAgain heap d (depth + 2)).1 :=
    (Arena.Extends.refl _).alloc _
  have original : ((copyAgain heap d (depth + 2)).1.get (copyAgain heap d (depth + 2)).2).original =
      some (copyAgain heap d (depth + 1)).2 := (addToSelection_copy small 1).original
  have links := alone (Nat.succ_ne_zero depth)
  rw [← grown.same _ small] at links
  rcases beside with rfl | rfl | rfl | rfl <;>
  · unfold axisNodes siblingsBeside
    simp only [original, Option.getD_some, links.1, links.2]
    unfold follow
    rfl

/-- An axis is transparent for the copies of some depth exactly when it
follows no sibling links or they were copied from the document directly. -/
theorem always_transparent_iff (axis : ExprType) (depth : Nat) :
    AlwaysTransparent axis depth ↔ depth ≤ 1 ∨ ¬ BesideAxis axis := by
  constructor
  · intro always
    by_contra neither
    have deep := Nat.lt_of_not_le fun shallow => neither (.inl shallow)
    have beside : BesideAxis axis := by
      by_contra plain
      exact neither (.inr plain)
    rcases Nat.exists_eq_add_of_le' deep with ⟨more, rfl⟩
    -- The middle one of three siblings has siblings on both sides.
    have parsed : DoParse .empty (lit "<r><a/><b/><c/></r>") (some 0)
        (memoryAfter 60 (lit "<r><a/><b/><c/></r>")) := ⟨60, rfl⟩
    have middle : Made 0 (memoryAfter 60 (lit "<r><a/><b/><c/></r>")) 3 := by
      refine ⟨Nat.zero_le 3, ?_, ?_⟩ <;> decide
    have spec := copyAgain_spec middle.2.1 (more + 2)
    rcases always _ _ (parsed.linked.1.extend spec.1) 3 middle _ spec.2.2.1 anyNode with
      ⟨fromCopy, fromDocument, found, listed, agree⟩
    rw [axisNodes_copyAgain middle.2.1 beside more anyNode] at found
    cases found
    have none_ := List.forall₂_nil_left_iff.mp agree
    rw [parsed.linked.1.axisNodes_extend spec.1 middle] at listed
    have found : axisNodes axis (memoryAfter 60 (lit "<r><a/><b/><c/></r>")) 3 anyNode =
        some [(2, 1)] ∨
        axisNodes axis (memoryAfter 60 (lit "<r><a/><b/><c/></r>")) 3 anyNode = some [(4, 1)] := by
      rcases beside with rfl | rfl | rfl | rfl <;> decide
    rcases found with found | found <;>
    · rw [found] at listed
      cases listed
      cases none_
  · rintro (shallow | plain) heap inside linked d member c chain kind
    · cases chain with
      | document => exact .of_eq linked member rfl
      | copy chain copy =>
          cases chain with
          | document => exact copy.transparent linked member axis kind
          | copy => exact absurd shallow (Nat.not_le.mpr (Nat.le_add_left 2 _))
    · exact (chain.image (linked.plain member)).transparent linked member plain kind

/-- A copy of a copy of the second of two siblings has lost the first one. -/
theorem second_copy_has_no_siblings : Exists fun document => Exists fun heap =>
    DoParse .empty (lit "<r><a/><b/></r>") (some 0) document ∧ document.Extends heap ∧
      CopyChain heap 3 2 5 ∧ axisNodes .precedingSibling heap 3 anyNode = some [(2, 1)] ∧
      axisNodes .precedingSibling heap 5 anyNode = some [] ∧
      ¬ Transparent .precedingSibling heap anyNode 3 5 := by
  have old : 3 < (memoryAfter 60 (lit "<r><a/><b/></r>")).size := by decide
  rcases copyAgain_spec old 2 with ⟨extended, -, chain, -⟩
  have fromCopy : axisNodes .precedingSibling
      (copyAgain (memoryAfter 60 (lit "<r><a/><b/></r>")) 3 2).1 5 anyNode = some [] := by decide
  have fromDocument : axisNodes .precedingSibling
      (copyAgain (memoryAfter 60 (lit "<r><a/><b/></r>")) 3 2).1 3 anyNode = some [(2, 1)] := by
    decide
  refine ⟨_, _, ⟨60, rfl⟩, extended, chain, fromDocument, fromCopy, ?_⟩
  rintro ⟨left, right, found, listed, agree⟩
  rw [fromCopy] at found
  rw [fromDocument] at listed
  cases found
  cases listed
  cases agree

end TurboXSL
