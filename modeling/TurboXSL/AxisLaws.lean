import TurboXSL.Axes
import TurboXSL.ParseTree

namespace TurboXSL

open Library Parse

/-!
# Laws of the axes on parsed documents

The upward axes take a node named `root` for the root of the document, and
`preceding` and `following` never leave the siblings of the node they start
from.  Both show where an axis is compared with another one: the theorems say
for which documents, and for which nodes, the axes fit together.
-/

/-- An element of the document at `top`. -/
def IsElement (heap : Heap) (top x : NodeId) : Prop :=
  Within heap.links top x ∧ (heap.get x).type = .element

/-! ## Inverse axes -/

/-- What one node finds downwards or forwards, the other finds back. -/
structure Inverse (heap : Heap) (kind : Option Kind) (x y : NodeId) : Prop where
  child : Selects .select heap kind x y ↔ Selects .parent heap kind y x
  descendant : Selects .descendant heap kind x y ↔ Selects .ancestor heap kind y x
  sibling : Selects .followingSibling heap kind x y ↔ Selects .precedingSibling heap kind y x

/-- The inverse axes agree on all elements of the document, whatever node
test lets both of them pass. -/
def InverseAxes (heap : Heap) (top : NodeId) : Prop :=
  ∀ kind x y, IsElement heap top x → IsElement heap top y →
    xpathNodeKind (heap.get x) kind = true → xpathNodeKind (heap.get y) kind = true →
    Inverse heap kind x y

/-- An element named `root` has an element among its children. -/
def NestedRoot (heap : Heap) (top : NodeId) : Prop :=
  Exists fun x => Exists fun y => IsElement heap top x ∧ IsElement heap top y ∧
    Child heap.links x y ∧ (heap.get x).name = some xslSRoot

section Inverse

variable {heap : Heap} {inside : NodeId → Prop} (linked : Linked heap inside) {top : NodeId}
  (member : inside top)

include linked member

theorem Linked.sibling_inverse (kind : Option Kind) {x y : NodeId}
    (withinX : Within heap.links top x) (withinY : Within heap.links top y)
    (passesX : xpathNodeKind (heap.get x) kind = true)
    (passesY : xpathNodeKind (heap.get y) kind = true) :
    Selects .followingSibling heap kind x y ↔ Selects .precedingSibling heap kind y x := by
  have memberX := linked.forest.inside_within member withinX
  have memberY := linked.forest.inside_within member withinY
  rcases linked.forest.later memberX with ⟨rest, onward, -⟩
  rcases linked.forest.earlier memberY with ⟨front, back, older⟩
  rw [linked.selects_following_sibling memberX kind onward,
    linked.selects_preceding_sibling memberY kind back]
  constructor
  · rintro ⟨at_, -⟩
    exact ⟨linked.forest.mem_earlier memberX onward at_ back, passesX⟩
  · rintro ⟨at_, -⟩
    refine ⟨?_, passesY⟩
    rcases within_iff_eq_or_below.mp withinY with same | below
    · -- Nothing of the document stands before its top.
      have old := (older x at_).2
      rw [same] at old
      exact absurd old (Nat.not_lt.mpr withinX.le)
    · rcases Relation.TransGen.tail'_iff.mp below with ⟨owner, -, child⟩
      rcases LinkedForest.siblings_split child with ⟨before, behind, children, back', -⟩
      rw [back.unique back', List.mem_reverse] at at_
      rcases List.append_of_mem at_ with ⟨first, second, rfl⟩
      have split : first ++ x :: second ++ y :: behind = first ++ x :: (second ++ y :: behind) := by
        rw [List.append_assoc, List.cons_append]
      have found := children.after split
      rw [onward.unique found]
      exact List.mem_append_right _ List.mem_cons_self

theorem Linked.inverse_of_no_nested_root (plain : ¬ NestedRoot heap top) :
    InverseAxes heap top := by
  intro kind x y elementX elementY passesX passesY
  have memberX := linked.forest.inside_within member elementX.1
  have notRoot : ∀ other, Within heap.links x other → Below heap.links other y →
      (heap.get other).name ≠ some xslSRoot := by
    intro other down below named
    rcases Relation.TransGen.head'_iff.mp below with ⟨next, child, rest⟩
    have within := elementX.1.trans down
    have memberOther := linked.forest.inside_within member within
    -- Between two elements there are only elements.
    have type : (heap.get other).type = .element := by
      rcases within_iff_eq_or_below.mp down with same | strict
      · exact same ▸ elementX.2
      · rcases linked.below_type memberX strict with element | text
        · exact element
        · rcases linked.owner_type memberOther child with type | type
          · exact absurd (type.symm.trans text) (by decide)
          · exact type
    have nextType : (heap.get next).type = .element := by
      rcases within_iff_eq_or_below.mp rest with same | strict
      · exact same ▸ elementY.2
      · have memberNext := linked.forest.inside_child memberOther child
        rcases Relation.TransGen.head'_iff.mp strict with ⟨_, further, -⟩
        rcases linked.child_type memberOther child with element | text
        · exact element
        · rcases linked.owner_type memberNext further with type | type
          · exact absurd (type.symm.trans text) (by decide)
          · exact type
    exact plain ⟨other, next, ⟨within, type⟩, ⟨within.tail child, nextType⟩, child, named⟩
  refine ⟨?_, ?_, linked.sibling_inverse member kind elementX.1 elementY.1 passesX passesY⟩
  · rw [linked.selects_child memberX kind, Linked.selects_parent kind]
    constructor
    · rintro ⟨child, -⟩
      exact ⟨child.parent, notRoot x .refl (.single child), passesX⟩
    · rintro ⟨parent, -, -⟩
      refine ⟨?_, passesY⟩
      rcases within_iff_eq_or_below.mp elementY.1 with same | below
      · have up := linked.forest.up (linked.forest.inside_within member elementY.1) parent
        rw [same] at up
        exact absurd up.2 (Nat.not_lt.mpr elementX.1.le)
      · rcases Relation.TransGen.tail'_iff.mp below with ⟨owner, -, child⟩
        have same : x = owner := Option.some.inj (parent.symm.trans child.parent)
        exact same ▸ child
  · rw [linked.selects_descendant memberX kind,
      linked.selects_ancestor member elementX.1 elementY.1 kind]
    constructor
    · rintro ⟨below, -⟩
      exact ⟨below, fun other down up => notRoot other down up, passesX⟩
    · rintro ⟨below, -, -⟩
      exact ⟨below, passesY⟩

end Inverse

/-- On a parsed document the inverse axes fit together exactly when no
element named `root` has a child that is an element. -/
theorem inverse_axes_iff {memory after : Heap} {document : Bytes} {top : NodeId}
    (parsed : DoParse memory document (some top) after) :
    InverseAxes after top ↔ ¬ NestedRoot after top := by
  rcases parsed.linked with ⟨linked, member⟩
  constructor
  · rintro inverse ⟨x, y, elementX, elementY, child, named⟩
    have fits := inverse anyNode x y elementX elementY (xpathNodeKind_anyNode _)
      (xpathNodeKind_anyNode _)
    have memberX := linked.forest.inside_within member elementX.1
    have found := fits.child.mp
      ((linked.selects_child memberX anyNode).mpr ⟨child, xpathNodeKind_anyNode _⟩)
    exact ((Linked.selects_parent anyNode).mp found).2.1 named
  · exact linked.inverse_of_no_nested_root member

/-- An element named `root` is not found as a parent. -/
theorem named_root_is_no_parent :
    DoParse .empty (lit "<root><a/></root>") (some 0) (memoryAfter 40 (lit "<root><a/></root>")) ∧
      ¬ InverseAxes (memoryAfter 40 (lit "<root><a/></root>")) 0 := by
  have parsed : DoParse .empty (lit "<root><a/></root>") (some 0)
      (memoryAfter 40 (lit "<root><a/></root>")) := ⟨40, rfl⟩
  refine ⟨parsed, ?_⟩
  intro inverse
  rcases parsed.linked with ⟨linked, member⟩
  have down : Selects .select (memoryAfter 40 (lit "<root><a/></root>")) anyNode 0 1 :=
    ⟨[(1, 1)], by decide, by decide⟩
  have further : Selects .select (memoryAfter 40 (lit "<root><a/></root>")) anyNode 1 2 :=
    ⟨[(2, 1)], by decide, by decide⟩
  have outer := ((linked.selects_child member anyNode).mp down).1
  have inner := ((linked.selects_child (linked.forest.inside_child member outer) anyNode).mp further).1
  have fits := inverse anyNode 1 2 ⟨.single outer, by decide⟩
    ⟨(Relation.ReflTransGen.single outer).tail inner, by decide⟩ (by decide) (by decide)
  rcases fits.child.mp further with ⟨sources, found, at_⟩
  have none_ : axisNodes .parent (memoryAfter 40 (lit "<root><a/></root>")) 2 anyNode = some [] := by
    decide
  rw [none_] at found
  cases found
  cases at_

/-- A document without an element of that name. -/
theorem inverse_axes_iff_plain : InverseAxes (memoryAfter 40 (lit "<r><a/>x</r>")) 0 := by
  have parsed : DoParse .empty (lit "<r><a/>x</r>") (some 0)
      (memoryAfter 40 (lit "<r><a/>x</r>")) := ⟨40, rfl⟩
  refine (inverse_axes_iff parsed).mpr ?_
  rintro ⟨x, y, elementX, -, -, named⟩
  rcases parsed.linked with ⟨linked, member⟩
  have bound := linked.forest.bound (linked.forest.inside_within member elementX.1)
  have checked : ∀ n < 4, ((memoryAfter 40 (lit "<r><a/>x</r>")).get n).type = .element →
      ((memoryAfter 40 (lit "<r><a/>x</r>")).get n).name ≠ some xslSRoot := by
    decide
  exact checked x bound elementX.2 named

/-! ## Partition -/

/-- The nodes that the four axes select for `x`, and `x` itself. -/
def partitionNodes (heap : Heap) (x : NodeId) : Option (List NodeId) := do
  let ancestors ← axisNodes .ancestor heap x anyNode
  let descendants ← axisNodes .descendant heap x anyNode
  let preceding ← axisNodes .preceding heap x anyNode
  let following ← axisNodes .following heap x anyNode
  some ((ancestors ++ descendants ++ preceding ++ following).map Prod.fst ++ [x])

/-- The lists hold every element and every text of the document once. -/
def Partitions (heap : Heap) (top x : NodeId) : Prop :=
  Exists fun nodes => partitionNodes heap x = some nodes ∧
    ∀ n, Within heap.links top n →
      (heap.get n).type = .element ∨ (heap.get n).type = .text → nodes.count n = 1

/-- An element of the document above `x` that has a sibling in the document
or is named `root`. -/
def Overlooked (heap : Heap) (top x a : NodeId) : Prop :=
  IsElement heap top a ∧ Below heap.links a x ∧
    ((heap.get a).name = some xslSRoot ∨
      Exists fun owner => Exists fun sibling => Within heap.links top owner ∧
        Child heap.links owner a ∧ Child heap.links owner sibling ∧ sibling ≠ a)

section Partition

variable {heap : Heap} {inside : NodeId → Prop} (linked : Linked heap inside) {top x : NodeId}
  (member : inside top) (within : Within heap.links top x)

include linked member within

omit linked member within in
/-- What is below nodes that have nothing to do with each other is listed once. -/
theorem nodup_apart {nodes : List NodeId} {below : NodeId → List NodeId}
    (apart : nodes.Pairwise fun a b => ¬ Within heap.links a b ∧ ¬ Within heap.links b a)
    (listed : ∀ n ∈ nodes, (below n).Nodup ∧ ∀ m, m ∈ below n ↔ Below heap.links n m) :
    (nodes.flatMap fun n => n :: below n).Nodup := by
  rw [List.nodup_flatMap]
  constructor
  · intro n at_
    rw [List.nodup_cons, (listed n at_).2]
    exact ⟨fun loop => absurd loop.lt (Nat.lt_irrefl n), (listed n at_).1⟩
  · apply List.Pairwise.imp_of_mem _ apart
    intro a b atA atB different m inA inB
    have lower : ∀ n ∈ nodes, m ∈ n :: below n → Within heap.links n m := by
      intro n at_ inList
      rw [List.mem_cons, (listed n at_).2] at inList
      exact within_iff_eq_or_below.mpr inList
    exact ((lower a atA inA).total (lower b atB inB)).elim different.1 different.2

omit linked member within in
/-- Different children of one owner have nothing to do with each other. -/
theorem nodup_siblings {owner : NodeId} {siblings : List NodeId} (distinct : siblings.Nodup)
    (children : ∀ n ∈ siblings, Child heap.links owner n) {below : NodeId → List NodeId}
    (listed : ∀ n ∈ siblings, (below n).Nodup ∧ ∀ m, m ∈ below n ↔ Below heap.links n m) :
    (siblings.flatMap fun n => n :: below n).Nodup := by
  apply nodup_apart _ listed
  apply List.Pairwise.imp_of_mem _ distinct
  intro a b atA atB different
  constructor
  · intro within
    exact different (eq_of_within_siblings (children a atA) (children b atB) within .refl)
  · intro within
    exact different (eq_of_within_siblings (children a atA) (children b atB) .refl within)

/-- What the four lists contain of the document. -/
theorem Linked.partitionNodes_spec :
    Exists fun ancestors => Exists fun descendants => Exists fun beside =>
      partitionNodes heap x = some (ancestors ++ descendants ++ beside ++ [x]) ∧
      ancestors.Nodup ∧ descendants.Nodup ∧
      (∀ n, Within heap.links top n → (n ∈ ancestors ↔ Below heap.links n x ∧
        ∀ other, Within heap.links n other → Below heap.links other x →
          (heap.get other).name ≠ some xslSRoot)) ∧
      (∀ n, n ∈ descendants ↔ Below heap.links x n) ∧
      (∀ n, Within heap.links top n → beside.count n ≤ 1 ∧
        (n ∈ beside ↔ Exists fun owner => Exists fun sibling => Within heap.links top owner ∧
          Child heap.links owner x ∧ Child heap.links owner sibling ∧ sibling ≠ x ∧
            Within heap.links sibling n)) := by
  have memberX := linked.forest.inside_within member within
  rcases linked.axisNodes_ancestor memberX anyNode with ⟨line, chained, ancestors⟩
  rcases linked.axisNodes_descendant memberX anyNode with ⟨nodes, distinct, below_, descendants⟩
  rcases linked.siblingsBeside_prev memberX with ⟨front, back, frontInside, before⟩
  rcases linked.siblingsBeside_next memberX with ⟨rest, onward, restInside, behind⟩
  rcases linked.descendants_function with ⟨below, spec⟩
  rcases @withDescendants_eq _ front below anyNode
    (fun n at_ => (spec n (frontInside n at_)).2.2 anyNode) false
    (.inr fun _ _ => xpathNodeKind_anyNode _) 0 with ⟨preceding, precedingFound, precedingListed⟩
  rcases @withDescendants_eq _ rest below anyNode
    (fun n at_ => (spec n (restInside n at_)).2.2 anyNode) false
    (.inr fun _ _ => xpathNodeKind_anyNode _) 0 with ⟨following, followingFound, followingListed⟩
  rw [ofKind_anyNode] at precedingListed followingListed ancestors descendants
  refine ⟨line.takeWhile fun node => ¬ xmlsEquals (heap.get node).name (some xslSRoot), nodes,
    (front ++ rest).flatMap fun n => n :: below n, ?_,
    (chained.nodup.sublist (List.takeWhile_sublist _)), distinct, ?_, below_, ?_⟩
  · unfold partitionNodes
    rw [ancestors, descendants]
    unfold axisNodes
    simp only [before, behind, precedingFound, followingFound, Option.bind_eq_bind,
      Option.bind_some, List.map_append, numbered_fst, precedingListed, followingListed,
      List.flatMap_append, List.append_assoc]
  · intro n withinN
    rw [linked.forest.mem_owners_takeWhile member within _ chained withinN]
    simp only [decide_eq_true_eq]
  · intro n withinN
    have inBeside : n ∈ (front ++ rest).flatMap (fun n => n :: below n) ↔
        Exists fun sibling => sibling ∈ front ++ rest ∧ Within heap.links sibling n := by
      rw [List.mem_flatMap]
      refine exists_congr fun sibling => and_congr_right fun at_ => ?_
      have known := spec sibling ((List.mem_append.mp at_).elim (frontInside sibling)
        (restInside sibling))
      rw [List.mem_cons, known.2.1, within_iff_eq_or_below]
    rcases within_iff_eq_or_below.mp within with same | above
    · -- Beside the top of the document there is nothing of it.
      have absent : n ∉ (front ++ rest).flatMap (fun n => n :: below n) := by
        intro at_
        rcases inBeside.mp at_ with ⟨sibling, beside, down⟩
        have apart := linked.forest.beside_apart memberX back onward (List.mem_append.mp beside)
        rw [same] at apart
        exact (down.total withinN).elim apart.2 apart.1
      refine ⟨by rw [List.count_eq_zero.mpr absent]; exact Nat.zero_le 1, ?_⟩
      refine iff_of_false absent ?_
      rintro ⟨owner, sibling, withinOwner, child, -⟩
      have low := withinOwner.le
      rw [← same] at low
      exact absurd child.lt (Nat.not_lt.mpr low)
    · rcases Relation.TransGen.tail'_iff.mp above with ⟨owner, withinOwner, child⟩
      rcases LinkedForest.siblings_split child with ⟨first, last, children, back', onward'⟩
      have frontIs := back.unique back'
      have restIs := onward.unique onward'
      have split := List.nodup_middle.mp children.chain.nodup
      have inRow : ∀ s, s ∈ front ++ rest ↔ Child heap.links owner s ∧ s ≠ x := by
        intro s
        rw [child_iff children, frontIs, restIs, List.mem_append, List.mem_reverse,
          List.mem_append, List.mem_cons]
        constructor
        · intro at_
          refine ⟨at_.imp_right .inr, ?_⟩
          rintro rfl
          exact (List.nodup_cons.mp split).1 (List.mem_append.mpr at_)
        · rintro ⟨earlier | here | later, different⟩
          · exact .inl earlier
          · exact (different here).elim
          · exact .inr later
      constructor
      · refine List.nodup_iff_count_le_one.mp (nodup_siblings ?_
          (fun s at_ => ((inRow s).mp at_).1) ?_) n
        · rw [frontIs, restIs]
          have plain := (List.nodup_cons.mp split).2
          exact (List.perm_append_right_iff last).mpr (List.reverse_perm first) |>.nodup_iff.mpr plain
        · intro s at_
          have known := spec s ((List.mem_append.mp at_).elim (frontInside s) (restInside s))
          exact ⟨known.1, known.2.1⟩
      · rw [inBeside]
        constructor
        · rintro ⟨sibling, at_, down⟩
          have known := (inRow sibling).mp at_
          exact ⟨owner, sibling, withinOwner, child, known.1, known.2, down⟩
        · rintro ⟨other, sibling, -, childX, childS, different, down⟩
          have same := childX.owner_unique child
          exact ⟨sibling, (inRow sibling).mpr ⟨same ▸ childS, different⟩, down⟩

/-- A node of the document is listed once when it is `x`, stands below `x`,
is an ancestor that is found, or stands below a sibling of `x`. -/
theorem Linked.partitionNodes_count :
    Exists fun nodes => partitionNodes heap x = some nodes ∧
      ∀ n, Within heap.links top n → (nodes.count n = 1 ↔
        n = x ∨ Below heap.links x n ∨
        (Below heap.links n x ∧ ∀ other, Within heap.links n other → Below heap.links other x →
          (heap.get other).name ≠ some xslSRoot) ∨
        Exists fun owner => Exists fun sibling => Within heap.links top owner ∧
          Child heap.links owner x ∧ Child heap.links owner sibling ∧ sibling ≠ x ∧
            Within heap.links sibling n) := by
  rcases linked.partitionNodes_spec member within with
    ⟨ancestors, descendants, beside, found, distinctA, distinctD, inA, inD, inB⟩
  refine ⟨_, found, ?_⟩
  intro n withinN
  have single : ∀ nodes : List NodeId, nodes.count n ≤ 1 →
      nodes.count n = if n ∈ nodes then 1 else 0 := by
    intro nodes few
    by_cases at_ : n ∈ nodes
    · rw [if_pos at_]
      exact Nat.le_antisymm few (List.count_pos_iff.mpr at_)
    · rw [if_neg at_]
      exact List.count_eq_zero.mpr at_
  have notBoth : n ∈ beside → ¬ Within heap.links x n ∧ ¬ Within heap.links n x := by
    intro at_
    rcases (inB n withinN).2.mp at_ with ⟨owner, sibling, -, child, childS, different, down⟩
    constructor
    · intro low
      exact different (eq_of_within_siblings childS child down low)
    · intro high
      exact different (eq_of_within_siblings childS child (down.trans high) .refl)
  have below : n ∈ descendants → n ≠ x ∧ n ∉ ancestors ∧ n ∉ beside := by
    intro at_
    have lower := (inD n).mp at_
    refine ⟨(Nat.ne_of_lt lower.lt).symm, ?_, fun other => (notBoth other).1 lower.to_reflTransGen⟩
    intro upper
    exact Nat.lt_asymm lower.lt ((inA n withinN).mp upper).1.lt
  have above : n ∈ ancestors → n ≠ x ∧ n ∉ beside := by
    intro at_
    have upper := ((inA n withinN).mp at_).1
    exact ⟨Nat.ne_of_lt upper.lt, fun other => (notBoth other).2 upper.to_reflTransGen⟩
  have self : n = x → n ∉ beside := by
    intro same other
    exact (notBoth other).1 (same ▸ .refl)
  have ofA := single ancestors (List.nodup_iff_count_le_one.mp distinctA n)
  have ofD := single descendants (List.nodup_iff_count_le_one.mp distinctD n)
  have ofB := single beside (inB n withinN).1
  have ofX : [x].count n = if n = x then 1 else 0 := by
    rw [List.count_singleton]
    simp only [beq_iff_eq]
    exact if_congr eq_comm rfl rfl
  rw [List.count_append, List.count_append, List.count_append, ofA, ofD, ofB, ofX, ← inD,
    ← inA n withinN, ← (inB n withinN).2]
  by_cases isX : n = x
  · rw [if_neg fun at_ => (above at_).1 isX, if_neg fun at_ => (below at_).1 isX,
      if_neg (self isX), if_pos isX]
    exact iff_of_true rfl (.inl isX)
  · rw [if_neg isX]
    by_cases isD : n ∈ descendants
    · rw [if_neg (below isD).2.1, if_pos isD, if_neg (below isD).2.2]
      exact iff_of_true rfl (.inr (.inl isD))
    · rw [if_neg isD]
      by_cases isA : n ∈ ancestors
      · rw [if_pos isA, if_neg (above isA).2]
        exact iff_of_true rfl (.inr (.inr (.inl isA)))
      · rw [if_neg isA]
        by_cases isB : n ∈ beside
        · rw [if_pos isB]
          exact iff_of_true rfl (.inr (.inr (.inr isB)))
        · rw [if_neg isB]
          refine iff_of_false nofun ?_
          rintro (here | down | up | beside)
          · exact isX here
          · exact isD down
          · exact isA up
          · exact isB beside

/-- The lists are a partition exactly when no ancestor is overlooked. -/
theorem Linked.partitions_iff_clean (element : (heap.get x).type = .element) :
    Partitions heap top x ↔ ¬ Exists fun a => Overlooked heap top x a := by
  rcases linked.partitionNodes_count member within with ⟨nodes, found, counted⟩
  have memberOf : ∀ {n}, Within heap.links top n → inside n := fun down =>
    linked.forest.inside_within member down
  constructor
  · rintro ⟨other, same, once⟩ ⟨a, ⟨withinA, type⟩, below, named | siblings⟩
    all_goals rw [found] at same; cases same
    · rcases (counted a withinA).mp (once a withinA (.inl type)) with here | down | up | beside
      · exact absurd below.lt (here ▸ Nat.lt_irrefl _)
      · exact Nat.lt_asymm below.lt down.lt
      · exact up.2 a .refl below named
      · rcases beside with ⟨owner, sibling, -, child, childS, different, down⟩
        have reached := down.trans below.to_reflTransGen
        exact different (eq_of_within_siblings childS child reached .refl)
    · rcases siblings with ⟨owner, sibling, withinOwner, childA, childS, different⟩
      have withinS := withinOwner.tail childS
      have inDocument := linked.child_type (memberOf withinOwner) childS
      have apart : ∀ {m}, Within heap.links a m → ¬ Within heap.links sibling m := by
        intro m inA inS
        exact different (eq_of_within_siblings childS childA inS inA)
      rcases (counted sibling withinS).mp (once sibling withinS inDocument) with
        here | down | up | beside
      · exact apart below.to_reflTransGen (here ▸ .refl)
      · exact apart (below.to_reflTransGen.trans down.to_reflTransGen) .refl
      · exact apart below.to_reflTransGen up.1.to_reflTransGen
      · rcases beside with ⟨upper, other, -, child, childO, -, down⟩
        have inA := (below_iff_owner child).mp below
        exact apart (inA.trans (.head childO down)) .refl
  · intro clean
    refine ⟨nodes, found, ?_⟩
    intro n withinN type
    rw [counted n withinN]
    rcases comparable_or_apart withinN within with down | up | ⟨owner, s, t, high, childS, childT,
      different, inS, inT⟩
    · rcases within_iff_eq_or_below.mp down with same | above
      · exact .inl same.symm
      · refine .inr (.inr (.inl ⟨above, ?_⟩))
        intro other upper lower named
        have withinOther := withinN.trans upper
        have elementOther : (heap.get other).type = .element := by
          rcases Relation.TransGen.head'_iff.mp lower with ⟨_, child, -⟩
          rcases linked.owner_type (memberOf withinOther) child with empty | element
          · have root := linked.outermost (memberOf withinOther) empty
            rcases within_iff_eq_or_below.mp upper with same | strict
            · rw [same] at empty
              rcases type with type | type <;> exact absurd (empty.symm.trans type) (by decide)
            · rcases Relation.TransGen.tail'_iff.mp strict with ⟨last, -, childOther⟩
              exact absurd (root.symm.trans childOther.parent) nofun
          · exact element
        exact clean ⟨other, ⟨withinOther, elementOther⟩, lower, .inl named⟩
    · rcases within_iff_eq_or_below.mp up with same | below
      · exact .inl same
      · exact .inr (.inl below)
    · refine .inr (.inr (.inr ⟨owner, s, high, ?_⟩))
      rcases within_iff_eq_or_below.mp inT with same | below
      · subst same
        exact ⟨childT, childS, different, inS⟩
      · have inner := high.tail childT
        have elementT : (heap.get t).type = .element := by
          rcases Relation.TransGen.head'_iff.mp below with ⟨_, child, -⟩
          rcases linked.owner_type (memberOf inner) child with empty | element
          · have root := linked.outermost (memberOf inner) empty
            exact absurd (root.symm.trans childT.parent) nofun
          · exact element
        refine (clean ⟨t, ⟨inner, elementT⟩, below, .inr ?_⟩).elim
        exact ⟨owner, s, high, childT, childS, different⟩

end Partition

/-- On a parsed document the axes of an element partition the document
exactly when none of its ancestors has a sibling or is named `root`. -/
theorem partitions_iff {memory after : Heap} {document : Bytes} {top x : NodeId}
    (parsed : DoParse memory document (some top) after) (element : IsElement after top x) :
    Partitions after top x ↔ ¬ Exists fun a => Overlooked after top x a :=
  parsed.linked.1.partitions_iff_clean parsed.linked.2 element.1 element.2

/-- Children found on a parsed document are children. -/
theorem Linked.child_of_axis {heap : Heap} {inside : NodeId → Prop} (linked : Linked heap inside)
    {x : NodeId} (member : inside x) (sources : List (NodeId × Nat))
    (found : axisNodes .select heap x anyNode = some sources) (y : NodeId) :
    Child heap.links x y ↔ y ∈ sources.map Prod.fst := by
  rw [← selects_iff found, linked.selects_child member]
  exact (and_iff_left (xpathNodeKind_anyNode _)).symm

/-- A sibling of an ancestor is on none of the axes: `c` for the element `b`
of `<r><a><b/></a><c/></r>`. -/
theorem uncle_is_nowhere : Exists fun after =>
    DoParse .empty (lit "<r><a><b/></a><c/></r>") (some 0) after ∧
      IsElement after 0 3 ∧ ¬ Partitions after 0 3 := by
  have parsed : DoParse .empty (lit "<r><a><b/></a><c/></r>") (some 0)
      (memoryAfter 60 (lit "<r><a><b/></a><c/></r>")) := ⟨60, rfl⟩
  rcases parsed.linked with ⟨linked, member⟩
  have one := (linked.child_of_axis member [(1, 1)] (by decide) 1).mpr (by decide)
  have insideOne := linked.forest.inside_child member one
  have row := linked.child_of_axis insideOne [(2, 1), (4, 2)] (by decide)
  have two := (row 2).mpr (by decide)
  have four := (row 4).mpr (by decide)
  have insideTwo := linked.forest.inside_child insideOne two
  have three := (linked.child_of_axis insideTwo [(3, 1)] (by decide) 3).mpr (by decide)
  have withinOne : Within _ 0 1 := .single one
  refine ⟨_, parsed, ⟨(withinOne.tail two).tail three, by decide⟩, ?_⟩
  rintro ⟨nodes, found, once⟩
  have listed : partitionNodes (memoryAfter 60 (lit "<r><a><b/></a><c/></r>")) 3 =
      some [2, 1, 3] := by decide
  rw [listed] at found
  cases found
  have missing := once 4 (withinOne.tail four) (.inl (by decide))
  exact absurd missing (by decide)

/-- The axes of `a` in the same document. -/
theorem partitions_iff_only_child : Exists fun after =>
    DoParse .empty (lit "<r><a><b/></a><c/></r>") (some 0) after ∧ Partitions after 0 2 := by
  have parsed : DoParse .empty (lit "<r><a><b/></a><c/></r>") (some 0)
      (memoryAfter 60 (lit "<r><a><b/></a><c/></r>")) := ⟨60, rfl⟩
  rcases parsed.linked with ⟨linked, member⟩
  have ofRoot := linked.child_of_axis member [(1, 1)] (by decide)
  have one := (ofRoot 1).mpr (by decide)
  have insideOne := linked.forest.inside_child member one
  have two := (linked.child_of_axis insideOne [(2, 1), (4, 2)] (by decide) 2).mpr
    (by decide)
  have element : IsElement (memoryAfter 60 (lit "<r><a><b/></a><c/></r>")) 0 2 :=
    ⟨(Relation.ReflTransGen.single one).tail two, by decide⟩
  refine ⟨_, parsed, (partitions_iff parsed element).mpr ?_⟩
  rintro ⟨a, ⟨-, type⟩, below, overlooked⟩
  rcases Nat.le_one_iff_eq_zero_or_eq_one.mp (Nat.le_of_lt_succ below.lt) with same | same
  · subst same
    exact absurd type (by decide)
  · subst same
    rcases overlooked with named | ⟨owner, sibling, -, childA, childS, different⟩
    · exact absurd named (by decide)
    · rw [childA.owner_unique one, ofRoot] at childS
      exact different (by simpa using childS)

end TurboXSL
