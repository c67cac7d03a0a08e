import TurboXSL.BuiltDocuments
import TurboXSL.EvaluationWrites
import TurboXSL.VerbatimCopies

namespace TurboXSL

open Library

/-!
# To what a node belongs

A transformation works with three kinds of nodes of its own: the trees it
builds, the nodes that hold the variables of a scope, and everything else,
which are selections, attributes, variables, parameters and loaded documents.
A chart says of every node made since a start to which of them it belongs.
What belongs to the trees is linked to trees only, what is loose is followed by
loose nodes only, and no node that was there at the start is touched.  Trees
grow at the end of a row of children, and nowhere else.
-/

inductive Realm where
  | tree
  /-- The node of the local variables. -/
  | frame
  | loose
deriving DecidableEq

/-- Where the nodes made so far belong, what those of the trees hang on, and
what hangs on them. -/
structure Chart where
  realm : NodeId → Option Realm
  parent : NodeId → Ptr
  row : NodeId → List NodeId

/-- A later chart says the same of the nodes it was said of before. -/
structure Chart.Onto (chart later : Chart) : Prop where
  realm : ∀ n realm, chart.realm n = some realm → later.realm n = some realm
  parent : ∀ n, chart.realm n = some .tree → later.parent n = chart.parent n
  row : ∀ n, chart.realm n = some .tree → chart.row n <+: later.row n

instance : Preorder Chart where
  le := Chart.Onto
  le_refl := fun _ => ⟨fun _ _ here => here, fun _ _ => rfl, fun _ _ => List.prefix_rfl⟩
  le_trans := fun _ _ _ first second => by
    refine ⟨fun n realm here => second.realm n realm (first.realm n realm here),
      fun n here => ?_, fun n here => ?_⟩
    · rw [second.parent n (first.realm n _ here), first.parent n here]
    · exact (first.row n here).trans (second.row n (first.realm n _ here))

instance (chart later : Chart) : CoeFun (chart ≤ later) fun _ =>
    ∀ n realm, chart.realm n = some realm → later.realm n = some realm :=
  ⟨Chart.Onto.realm⟩

/-- A node that was there at the start and may stand among children. -/
def Given (start : Heap) (n : NodeId) : Prop :=
  n < start.size ∧ (start.get n).type ≠ .attribute

/-- The memory fits the chart. -/
structure Charted (start : Heap) (chart : Chart) (heap : Heap) : Prop where
  grows : start.size ≤ heap.size
  charted : ∀ n, (chart.realm n).isSome ↔ start.size ≤ n ∧ n < heap.size
  same : ∀ n < start.size, heap.get n = start.get n
  forest : LinkedForest heap.links heap.size fun n => chart.realm n = some .tree
  parents : ∀ n, chart.realm n = some .tree → (heap.get n).parent = chart.parent n
  rows : ∀ n, chart.realm n = some .tree → Siblings heap (heap.get n).children (chart.row n)
  bare : ∀ n, chart.realm n = none → chart.row n = []
  hangs : ∀ n owner, chart.realm n = some .tree → chart.parent n = some owner →
    n ∈ chart.row owner
  plain : ∀ n, chart.realm n = some .tree → (heap.get n).type ≠ .attribute
  attributes : ∀ n a, chart.realm n = some .tree ∨ chart.realm n = some .frame →
    (heap.get n).attributes = some a → chart.realm a = some .loose
  onward : ∀ n m, chart.realm n = some .loose → (heap.get n).next = some m →
    chart.realm m = some .loose
  children : ∀ n c, (heap.get n).children = some c →
    Given start c ∨ chart.realm c = some .tree ∨ chart.realm c = some .loose

/-- The chart with nodes of one kind in addition, behind the others of their
owner. -/
def Chart.grow (chart : Chart) (first size : Nat) (realm : Realm) (owner : Ptr) : Chart where
  realm := fun n => if first ≤ n ∧ n < size then some realm else chart.realm n
  parent := fun n => if first ≤ n ∧ n < size then owner else chart.parent n
  row := fun n =>
    if owner = some n then chart.row n ++ List.range' first (size - first) else chart.row n

theorem Chart.grown (chart : Chart) {first size n : Nat} (realm : Realm) {owner : Ptr}
    (large : first ≤ n) (small : n < size) :
    (chart.grow first size realm owner).realm n = some realm :=
  if_pos ⟨large, small⟩

theorem Chart.grow_old (chart : Chart) {first n : Nat} (size : Nat) (realm : Realm) {owner : Ptr}
    (old : n < first) : (chart.grow first size realm owner).realm n = chart.realm n :=
  if_neg fun new => absurd old (Nat.not_lt.mpr new.1)

theorem Chart.grow_row (chart : Chart) {first size n : Nat} {realm : Realm} {owner : Ptr}
    (other : owner ≠ some n) : (chart.grow first size realm owner).row n = chart.row n :=
  if_neg other

/-- A new child changes the children of its parent only. -/
theorem xmlAppendChild_children {heap after : Heap} {node new : NodeId} {type : NodeType}
    (done : xmlAppendChild heap node type = some (after, new)) {n : NodeId} (other : n ≠ node)
    (old : n ≠ heap.size) : (after.get n).children = (heap.get n).children := by
  rcases Option.bind_eq_some_iff.mp done with ⟨grown, added, made⟩
  cases made
  rcases Option.bind_eq_some_iff.mp added with ⟨row, _, linked⟩
  cases linked
  rw [Arena.modify_get_of_ne _ _ old]
  have kept : ((xmlNewNode heap none type).1.get n).children = (heap.get n).children :=
    congrArg XmlNode.children (Arena.alloc_get_of_ne heap _ old)
  cases row.getLast? with
  | none =>
      dsimp only
      rw [Arena.modify_get_of_ne _ _ other]
      exact kept
  | some prev =>
      dsimp only
      by_cases last : n = prev
      · rw [last, setNext_get_same, ← last, Arena.modify_get_of_ne _ _ old]
        exact kept
      · rw [setNext_get_of_ne fun same => last (Option.some.inj same).symm]
        rw [Arena.modify_get_of_ne _ _ old]
        exact kept

namespace Charted

variable {start heap after : Heap} {chart : Chart} (charted : Charted start chart heap)

include charted

theorem made {n : NodeId} {realm : Realm} (here : chart.realm n = some realm) :
    start.size ≤ n ∧ n < heap.size := by
  apply (charted.charted n).mp
  rw [here]
  rfl

theorem missing {n : NodeId} (large : heap.size ≤ n) : chart.realm n = none := by
  cases here : chart.realm n with
  | none => rfl
  | some realm => exact absurd (charted.made here).2 (Nat.not_lt.mpr large)

theorem le_grow (size : Nat) (realm : Realm) (owner : Ptr) :
    chart ≤ chart.grow heap.size size realm owner := by
  constructor
  · intro n r here
    rw [chart.grow_old size realm (charted.made here).2]
    exact here
  · intro n here
    exact if_neg fun new => absurd (charted.made here).2 (Nat.not_lt.mpr new.1)
  · intro n here
    by_cases owned : owner = some n
    · change _ <+: if owner = some n then _ else _
      rw [if_pos owned]
      exact List.prefix_append _ _
    · exact ⟨[], (List.append_nil _).trans (chart.grow_row owned).symm⟩

/-- The nodes of a row hang on their owner, and belong to the trees. -/
theorem row_members {n : NodeId} (here : chart.realm n = some .tree) :
    Children heap.links n (chart.row n) ∧ ∀ m ∈ chart.row n, chart.realm m = some .tree := by
  rcases charted.forest.row here with ⟨row, found, members⟩
  have same : row = chart.row n := found.chain.unique (charted.rows n here)
  exact same ▸ ⟨found, members⟩

theorem row_kept {n : NodeId} (here : chart.realm n = some .tree)
    (children : (after.get n).children = (heap.get n).children)
    (next : ∀ m ∈ chart.row n, (after.get m).next = (heap.get m).next) :
    Siblings after (after.get n).children (chart.row n) := by
  rw [children]
  exact (charted.rows n here).congr next

/-- What hangs on a node stands in its row. -/
theorem hangs_grow {size : Nat} {realm : Realm} {owner : Ptr} (n parent : NodeId)
    (member : (chart.grow heap.size size realm owner).realm n = some .tree)
    (hangs : (chart.grow heap.size size realm owner).parent n = some parent) :
    n ∈ (chart.grow heap.size size realm owner).row parent := by
  change n ∈ if owner = some parent then _ else _
  by_cases new : heap.size ≤ n ∧ n < size
  · rw [if_pos ((if_pos new).symm.trans hangs)]
    refine List.mem_append_right _ (List.mem_range'_1.mpr ⟨new.1, ?_⟩)
    rw [Nat.add_sub_cancel' (Nat.le_trans new.1 (Nat.le_of_lt new.2))]
    exact new.2
  · have old := charted.hangs n parent ((if_neg new).symm.trans member)
      ((if_neg new).symm.trans hangs)
    split
    · exact List.mem_append_left _ old
    · exact old

/-- A node that is not charted later was not charted before. -/
theorem bare_grow {size n : Nat} {realm : Realm} {owner : Ptr} (other : owner ≠ some n)
    (missing : (chart.grow heap.size size realm owner).realm n = none) :
    (chart.grow heap.size size realm owner).row n = [] := by
  rw [chart.grow_row other]
  apply charted.bare
  cases here : chart.realm n with
  | none => rfl
  | some kind => cases missing.symm.trans (charted.le_grow size realm owner n kind here)

/-- A charted node was charted before, or it is one of the new ones. -/
theorem grow_iff {size : Nat} {realm r : Realm} {owner : Ptr} {n : NodeId} :
    (chart.grow heap.size size realm owner).realm n = some r ↔
      chart.realm n = some r ∨ heap.size ≤ n ∧ n < size ∧ r = realm := by
  constructor
  · intro here
    by_cases new : heap.size ≤ n ∧ n < size
    · rw [chart.grown realm new.1 new.2] at here
      exact .inr ⟨new.1, new.2, (Option.some.inj here).symm⟩
    · exact .inl ((if_neg new).symm.trans here)
  · rintro (old | ⟨large, small, rfl⟩)
    · exact charted.le_grow size realm owner n r old
    · exact chart.grown r large small

/-- The chart has exactly the nodes up to the end of the larger memory. -/
theorem charted_grow {size : Nat} (larger : heap.size ≤ size) (realm : Realm) {owner : Ptr}
    (n : NodeId) : ((chart.grow heap.size size realm owner).realm n).isSome ↔ start.size ≤ n ∧ n < size := by
  by_cases new : heap.size ≤ n
  · by_cases small : n < size
    · rw [chart.grown realm new small]
      exact iff_of_true rfl ⟨Nat.le_trans charted.grows new, small⟩
    · have none_ : (chart.grow heap.size size realm owner).realm n = none :=
        (if_neg fun both => small both.2).trans (charted.missing new)
      rw [none_]
      exact iff_of_false nofun fun both => small both.2
  · rw [chart.grow_old size realm (Nat.lt_of_not_le new), charted.charted n]
    have bound := Nat.lt_of_not_le new
    exact and_congr_right fun _ => iff_of_true bound (Nat.lt_of_lt_of_le bound larger)

/-! ## One node is changed -/

/-- What may be done to a node of each kind. -/
structure Keeps (chart : Chart) (realm : Realm) (before after : XmlNode) : Prop where
  children : after.children = before.children
  tree : realm = .tree → after.type = before.type ∧ after.next = before.next ∧
    after.prev = before.prev ∧ after.parent = before.parent
  attributes : realm = .tree ∨ realm = .frame → ∀ a, after.attributes = some a →
    before.attributes = some a ∨ chart.realm a = some .loose
  next : realm = .loose → ∀ m, after.next = some m →
    before.next = some m ∨ chart.realm m = some .loose

theorem modify {node : NodeId} {realm : Realm} (here : chart.realm node = some realm)
    (change : XmlNode → XmlNode) (keeps : Keeps chart realm (heap.get node) (change (heap.get node))) :
    Charted start chart (heap.modify node change) where
  grows := charted.grows
  charted := charted.charted
  same := by
    intro n old
    rw [heap.modify_get_of_ne change (Nat.ne_of_lt (Nat.lt_of_lt_of_le old (charted.made here).1))]
    exact charted.same n old
  forest := by
    refine charted.forest.congr (Nat.le_refl _) ?_ ?_ ?_ ?_
    all_goals
      intro n member
      by_cases at_ : n = node
      · subst at_
        have tree := keeps.tree (Option.some.inj (here.symm.trans member))
        simp only [Heap.links, heap.modify_get_same, keeps.children, tree]
      · simp only [Heap.links, heap.modify_get_of_ne change at_]
  parents := by
    intro n member
    by_cases at_ : n = node
    · subst at_
      rw [heap.modify_get_same, (keeps.tree (Option.some.inj (here.symm.trans member))).2.2.2]
      exact charted.parents n member
    · rw [heap.modify_get_of_ne change at_]
      exact charted.parents n member
  rows := by
    intro n member
    refine charted.row_kept member ?_ fun m inside => ?_
    · by_cases at_ : n = node
      · rw [at_, heap.modify_get_same, keeps.children]
      · rw [heap.modify_get_of_ne change at_]
    · by_cases at_ : m = node
      · have tree := (charted.row_members member).2 m inside
        rw [at_] at tree ⊢
        rw [heap.modify_get_same, (keeps.tree (Option.some.inj (here.symm.trans tree))).2.1]
      · rw [heap.modify_get_of_ne change at_]
  bare := charted.bare
  hangs := charted.hangs
  plain := by
    intro n member
    by_cases at_ : n = node
    · subst at_
      rw [heap.modify_get_same, (keeps.tree (Option.some.inj (here.symm.trans member))).1]
      exact charted.plain n member
    · rw [heap.modify_get_of_ne change at_]
      exact charted.plain n member
  attributes := by
    intro n a kind link
    by_cases at_ : n = node
    · subst at_
      rw [heap.modify_get_same] at link
      have own : realm = .tree ∨ realm = .frame := by
        rcases kind with tree | frame
        · exact .inl (Option.some.inj (here.symm.trans tree))
        · exact .inr (Option.some.inj (here.symm.trans frame))
      rcases keeps.attributes own a link with old | loose
      · exact charted.attributes n a kind old
      · exact loose
    · rw [heap.modify_get_of_ne change at_] at link
      exact charted.attributes n a kind link
  onward := by
    intro n m loose link
    by_cases at_ : n = node
    · subst at_
      rw [heap.modify_get_same] at link
      rcases keeps.next (Option.some.inj (here.symm.trans loose)) m link with old | new
      · exact charted.onward n m loose old
      · exact new
    · rw [heap.modify_get_of_ne change at_] at link
      exact charted.onward n m loose link
  children := by
    intro n c link
    by_cases at_ : n = node
    · subst at_
      rw [heap.modify_get_same, keeps.children] at link
      exact charted.children n c link
    · rw [heap.modify_get_of_ne change at_] at link
      exact charted.children n c link

/-! ## Nodes are added -/

/-- The nodes that were charted are as they were, the new ones are loose. -/
theorem added {l : NodeId} (frame : chart.realm l = some .frame)
    (allocates : Allocates (some l) heap after)
    (children : ∀ n c, (after.get n).children = some c →
      (Exists fun m => (heap.get m).children = some c) ∨ heap.size ≤ c ∧ c < after.size) :
    Charted start (chart.grow heap.size after.size .loose none) after := by
  have loose : ∀ {n}, heap.size ≤ n → n < after.size →
      (chart.grow heap.size after.size .loose none).realm n = some .loose := fun large small =>
    chart.grown .loose large small
  have kept : ∀ n, n < heap.size → n ≠ l → after.get n = heap.get n := fun n old other =>
    allocates.same n old fun same => other (Option.some.inj same).symm
  have bound := (charted.made frame).2
  have tree : ∀ n, (chart.grow heap.size after.size .loose none).realm n = some .tree ↔
      chart.realm n = some .tree := by
    intro n
    rw [charted.grow_iff]
    exact or_iff_left fun new => nomatch new.2.2
  have trees : ∀ n, chart.realm n = some .tree → after.get n = heap.get n := by
    intro n member
    refine kept n (charted.made member).2 ?_
    rintro rfl
    cases frame.symm.trans member
  constructor
  · exact Nat.le_trans charted.grows allocates.grows
  · exact charted.charted_grow allocates.grows .loose
  · intro n old
    rw [kept n (Nat.lt_of_lt_of_le old charted.grows) ?_]
    · exact charted.same n old
    · rintro rfl
      exact absurd old (Nat.not_lt.mpr (charted.made frame).1)
  · simp only [tree]
    refine charted.forest.congr allocates.grows ?_ ?_ ?_ ?_
    all_goals
      intro n member
      simp only [Heap.links, trees n member]
  · intro n member
    have old := (tree n).mp member
    rw [trees n old, (charted.le_grow _ _ _).parent n old]
    exact charted.parents n old
  · intro n member
    have old := (tree n).mp member
    rw [chart.grow_row (by rintro ⟨⟩)]
    refine charted.row_kept old (congrArg XmlNode.children (trees n old)) fun m inside => ?_
    exact congrArg XmlNode.next (trees m ((charted.row_members old).2 m inside))
  · exact fun n missing => charted.bare_grow (by rintro ⟨⟩) missing
  · exact charted.hangs_grow
  · intro n member
    rw [trees n ((tree n).mp member)]
    exact charted.plain n ((tree n).mp member)
  · intro n a kind link
    rw [charted.grow_iff, charted.grow_iff] at kind
    have old : chart.realm n = some .tree ∨ chart.realm n = some .frame := by
      rcases kind with (tree | new) | (frame | new)
      · exact .inl tree
      · cases new.2.2
      · exact .inr frame
      · cases new.2.2
    refine charted.le_grow _ _ _ a _ (charted.attributes n a old ?_)
    have small : n < heap.size := old.elim (fun here => (charted.made here).2)
      fun here => (charted.made here).2
    by_cases same : n = l
    · rw [same, ← allocates.frame l rfl bound, ← same]
      exact link
    · rw [← kept n small same]
      exact link
  · intro n m here link
    rw [charted.grow_iff] at here
    rcases here with old | new
    · refine charted.le_grow _ _ _ m _ (charted.onward n m old ?_)
      rw [← kept n (charted.made old).2 ?_]
      · exact link
      · rintro rfl
        cases frame.symm.trans old
    · have target := allocates.closed n new.1 new.2.1 m link
      exact loose target.1 target.2
  · intro n c link
    rcases children n c link with ⟨m, old⟩ | new
    · rcases charted.children m c old with document | tree | here
      · exact .inl document
      · exact .inr (.inl (charted.le_grow _ _ _ c _ tree))
      · exact .inr (.inr (charted.le_grow _ _ _ c _ here))
    · exact .inr (.inr (loose new.1 new.2))

/-- A new node without links, of any kind. -/
theorem alloc (realm : Realm) (cell : XmlNode) (children : cell.children = none)
    (next : cell.next = none) (prev : cell.prev = none) (parent : cell.parent = none)
    (attributes : cell.attributes = none) (plain : realm = .tree → cell.type ≠ .attribute) :
    Charted start (chart.grow heap.size (heap.size + 1) realm none) (heap.alloc cell) := by
  have kept : ∀ n, n < heap.size → (heap.alloc cell).get n = heap.get n := fun n old =>
    heap.alloc_get_of_lt cell old
  have new : (heap.alloc cell).get heap.size = cell := heap.alloc_get_same cell
  have only : ∀ {n r}, (chart.grow heap.size (heap.size + 1) realm none).realm n = some r →
      chart.realm n = some r ∧ n < heap.size ∨ n = heap.size ∧ r = realm := by
    intro n r here
    rcases charted.grow_iff.mp here with old | ⟨large, small, same⟩
    · exact .inl ⟨old, (charted.made old).2⟩
    · exact .inr ⟨Nat.le_antisymm (Nat.le_of_lt_succ small) large, same⟩
  constructor
  · exact Nat.le_succ_of_le charted.grows
  · exact charted.charted_grow (Nat.le_succ _) realm
  · intro n old
    rw [kept n (Nat.lt_of_lt_of_le old charted.grows)]
    exact charted.same n old
  · have old : LinkedForest (Heap.links (heap.alloc cell)) (heap.size + 1)
        fun n => chart.realm n = some .tree := by
      refine charted.forest.congr (Nat.le_succ _) ?_ ?_ ?_ ?_
      all_goals
        intro n member
        simp only [Heap.links, kept n (charted.made member).2]
    by_cases isTree : realm = .tree
    · have single : LinkedForest (Heap.links (heap.alloc cell)) (heap.size + 1) (· = heap.size) := by
        apply LinkedForest.single (Nat.lt_succ_self _)
        · exact (congrArg XmlNode.children new).trans children
        · exact (congrArg XmlNode.next new).trans next
        · exact (congrArg XmlNode.prev new).trans prev
        · exact (congrArg XmlNode.parent new).trans parent
      have both : (fun n => (chart.grow heap.size (heap.size + 1) realm none).realm n = some .tree) =
          fun n => chart.realm n = some .tree ∨ n = heap.size := by
        funext n
        apply propext
        rw [charted.grow_iff]
        apply or_congr_right
        constructor
        · exact fun added => Nat.le_antisymm (Nat.le_of_lt_succ added.2.1) added.1
        · rintro rfl
          exact ⟨Nat.le_refl _, Nat.lt_succ_self _, isTree.symm⟩
      rw [both]
      exact old.union single
    · have same : (fun n => (chart.grow heap.size (heap.size + 1) realm none).realm n = some .tree) =
          fun n => chart.realm n = some .tree := by
        funext n
        apply propext
        rw [charted.grow_iff]
        exact or_iff_left fun added => isTree added.2.2.symm
      rw [same]
      exact old
  · intro n here
    rcases only here with ⟨old, small⟩ | ⟨rfl, _⟩
    · rw [kept n small, (charted.le_grow _ _ _).parent n old]
      exact charted.parents n old
    · rw [new, parent]
      exact (if_pos ⟨Nat.le_refl _, Nat.lt_succ_self _⟩).symm
  · intro n here
    rw [chart.grow_row (by rintro ⟨⟩)]
    rcases only here with ⟨old, small⟩ | ⟨rfl, _⟩
    · refine charted.row_kept old (congrArg XmlNode.children (kept n small)) fun m inside => ?_
      exact congrArg XmlNode.next (kept m (charted.made ((charted.row_members old).2 m inside)).2)
    · rw [new, children, charted.bare _ (charted.missing (Nat.le_refl _))]
      exact .nil
  · exact fun n missing => charted.bare_grow (by rintro ⟨⟩) missing
  · exact charted.hangs_grow
  · intro n here
    rcases only here with ⟨old, small⟩ | ⟨rfl, same⟩
    · rw [kept n small]
      exact charted.plain n old
    · rw [new]
      exact plain same.symm
  · intro n a kind link
    by_cases fresh : n = heap.size
    · rw [fresh, new, attributes] at link
      cases link
    · have old : chart.realm n = some .tree ∨ chart.realm n = some .frame := by
        refine kind.imp (fun here => ?_) fun here => ?_
        all_goals
          rcases only here with ⟨old, _⟩ | ⟨same, _⟩
          · exact old
          · exact absurd same fresh
      refine charted.le_grow _ _ _ a _ (charted.attributes n a old ?_)
      have small : n < heap.size := old.elim (fun here => (charted.made here).2)
        fun here => (charted.made here).2
      rw [← kept n small]
      exact link
  · intro n m here link
    rcases only here with ⟨old, small⟩ | ⟨rfl, _⟩
    · rw [kept n small] at link
      exact charted.le_grow _ _ _ m _ (charted.onward n m old link)
    · rw [new, next] at link
      cases link
  · intro n c link
    by_cases fresh : n = heap.size
    · rw [fresh, new, children] at link
      cases link
    · rw [heap.alloc_get_of_ne cell fresh] at link
      refine (charted.children n c link).imp_right (Or.imp ?_ ?_)
      · exact charted.le_grow _ _ _ c _
      · exact charted.le_grow _ _ _ c _

/-- A new node behind the children of a node of the trees. -/
theorem append {node : NodeId} (member : chart.realm node = some .tree) {type : NodeType}
    (plain : type ≠ .attribute) {new : NodeId}
    (done : xmlAppendChild heap node type = some (after, new)) :
    new = heap.size ∧ after.size = heap.size + 1 ∧
      Charted start (chart.grow heap.size (heap.size + 1) .tree (some node)) after ∧
      (after.get new).type = type ∧ (after.get new).attributes = none := by
  rcases charted.row_members member with ⟨found, members⟩
  have rowBound : ∀ n ∈ chart.row node, n < heap.size := fun n at_ => (charted.made (members n at_)).2
  have site : Site none heap node (chart.row node) [] := by
    refine ⟨nofun, ⟨(charted.made member).2, nofun, List.not_mem_nil⟩, found.chain, ?_, nofun⟩
    intro n at_
    refine ⟨rowBound n at_, nofun, ?_, List.not_mem_nil⟩
    exact Nat.ne_of_gt (found.owned at_).2
  rcases xmlAppendChild_grafted site type with ⟨grafted_, made, grafted, size, cell⟩
  cases made.symm.trans done
  have forest : LinkedForest after.links after.size fun n =>
      chart.realm n = some .tree ∨ n = heap.size := by
    have api : Grown ⟨heap, []⟩ fun n => chart.realm n = some .tree :=
      ⟨charted.forest, fun _ impossible => absurd impossible List.not_mem_nil⟩
    rcases api.append member { type := type, uid := some heap.size } rfl rfl rfl
      with ⟨other, appended, forest⟩
    have same : xmlAppendChild heap node type = some (other, heap.size) := by
      unfold xmlAppendChild xmlNewNode
      dsimp only
      rw [appended]
      rfl
    cases same.symm.trans made
    exact forest
  have lastTree : ∀ {n}, (chart.row node).getLast? = some n → chart.realm n = some .tree := fun ends =>
    members _ (List.mem_of_getLast? ends)
  -- the links of old nodes that lie in no tree are as they were
  have kept : ∀ n, n < heap.size → chart.realm n ≠ some .tree → after.get n = heap.get n := by
    intro n small outside
    refine grafted.same n small nofun ?_ fun ends => outside (lastTree ends)
    rintro rfl
    exact outside member
  have cells : ∀ n, n < heap.size → after.get n = { heap.get n with
      children := (after.get n).children, next := (after.get n).next } := by
    intro n small
    by_cases owner : n = node
    · rw [owner, grafted.owner]
    · by_cases last : (chart.row node).getLast? = some n
      · rw [grafted.last n last]
      · rw [grafted.same n small nofun owner last]
  have only : ∀ {n r}, (chart.grow heap.size (heap.size + 1) .tree (some node)).realm n = some r →
      chart.realm n = some r ∧ n < heap.size ∨ n = heap.size ∧ r = .tree := by
    intro n r here
    rcases charted.grow_iff.mp here with old | ⟨large, small, same⟩
    · exact .inl ⟨old, (charted.made old).2⟩
    · exact .inr ⟨Nat.le_antisymm (Nat.le_of_lt_succ small) large, same⟩
  refine ⟨rfl, size, ?_, by rw [cell], by rw [cell]⟩
  constructor
  · rw [size]
    exact Nat.le_succ_of_le charted.grows
  · rw [size]
    exact charted.charted_grow (Nat.le_succ _) .tree
  · intro n old
    rw [kept n (Nat.lt_of_lt_of_le old charted.grows) ?_]
    · exact charted.same n old
    · intro tree
      exact absurd old (Nat.not_lt.mpr (charted.made tree).1)
  · have both : (fun n => (chart.grow heap.size (heap.size + 1) .tree (some node)).realm n = some .tree) =
        fun n => chart.realm n = some .tree ∨ n = heap.size := by
      funext n
      apply propext
      rw [charted.grow_iff]
      apply or_congr_right
      constructor
      · exact fun added => Nat.le_antisymm (Nat.le_of_lt_succ added.2.1) added.1
      · rintro rfl
        exact ⟨Nat.le_refl _, Nat.lt_succ_self _, rfl⟩
    rw [both]
    exact forest
  · intro n here
    rcases only here with ⟨old, small⟩ | ⟨rfl, _⟩
    · rw [cells n small, (charted.le_grow _ _ _).parent n old]
      exact charted.parents n old
    · rw [cell]
      exact (if_pos ⟨Nat.le_refl _, Nat.lt_succ_self _⟩).symm
  · intro n here
    by_cases owner : n = node
    · have longer : (chart.grow heap.size (heap.size + 1) .tree (some node)).row n =
          chart.row node ++ [heap.size] := by
        rw [owner]
        refine (if_pos rfl).trans ?_
        rw [Nat.add_sub_cancel_left]
        rfl
      rw [longer, owner, grafted.owner]
      exact grafted.chain
    · rw [chart.grow_row fun same => owner (Option.some.inj same).symm]
      rcases only here with ⟨old, small⟩ | ⟨rfl, _⟩
      · refine charted.row_kept old (xmlAppendChild_children done owner (Nat.ne_of_lt small)) ?_
        intro m inside
        -- a child of another node is not the last one of this row
        have child := (charted.row_members old).1.owned inside
        by_cases self : m = node
        · rw [self, grafted.owner]
        · refine congrArg XmlNode.next (grafted.same m ?_ nofun self fun ends => owner ?_)
          · exact (charted.made ((charted.row_members old).2 m inside)).2
          · have up := (found.owned (List.mem_of_getLast? ends)).1
            exact Option.some.inj (child.1.symm.trans up)
      · rw [cell, charted.bare _ (charted.missing (Nat.le_refl _))]
        exact .nil
  · intro n missing
    refine charted.bare_grow ?_ missing
    rintro ⟨⟩
    have known := charted.le_grow (heap.size + 1) .tree (some node) node _ member
    cases missing.symm.trans known
  · exact charted.hangs_grow
  · intro n here
    rcases only here with ⟨old, small⟩ | ⟨rfl, _⟩
    · rw [cells n small]
      exact charted.plain n old
    · rw [cell]
      exact plain
  · intro n a kind link
    by_cases fresh : n = heap.size
    · rw [fresh, cell] at link
      cases link
    · have old : chart.realm n = some .tree ∨ chart.realm n = some .frame := by
        refine kind.imp (fun here => ?_) fun here => ?_
        all_goals
          rcases only here with ⟨old, _⟩ | ⟨same, _⟩
          · exact old
          · exact absurd same fresh
      have small : n < heap.size := old.elim (fun here => (charted.made here).2)
        fun here => (charted.made here).2
      rw [cells n small] at link
      exact charted.le_grow _ _ _ a _ (charted.attributes n a old link)
  · intro n m here link
    rcases only here with ⟨old, small⟩ | ⟨_, impossible⟩
    · rw [kept n small ?_] at link
      · exact charted.le_grow _ _ _ m _ (charted.onward n m old link)
      · intro tree
        cases old.symm.trans tree
    · cases impossible
  · intro n c link
    by_cases owner : n = node
    · rw [owner, grafted.owner] at link
      have inside : c ∈ chart.row node ++ [heap.size] := List.mem_of_mem_head? link
      refine .inr (.inl (charted.grow_iff.mpr ?_))
      rcases List.mem_append.mp inside with old | fresh
      · exact .inl (members c old)
      · rw [List.mem_singleton.mp fresh]
        exact .inr ⟨Nat.le_refl _, Nat.lt_succ_self _, rfl⟩
    · have old : (heap.get n).children = some c := by
        by_cases fresh : n = heap.size
        · rw [fresh, cell] at link
          cases link
        · rw [← xmlAppendChild_children done owner fresh]
          exact link
      refine (charted.children n c old).imp_right (Or.imp ?_ ?_)
      · exact charted.le_grow _ _ _ c _
      · exact charted.le_grow _ _ _ c _

end Charted

end TurboXSL
