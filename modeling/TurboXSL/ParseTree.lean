import TurboXSL.ParseNesting
import TurboXSL.Linked

namespace TurboXSL
namespace Parse

open Library

/-!
# Every parsed document is well linked

Whatever the input, the nodes that the parser has made are linked as the
walks over a document expect.  The invariant speaks of three places: the
elements that are still open have no sibling behind them yet, the node named
by `previous` is the last child of the open element, and the element of the
tag that is being read has no children.

An end tag may close the root itself.  The next element is then opened
without an owner, and siblings behind it are hung below it without being
entered in its row; `previous` may be such a node without a parent.
-/

/-- The nodes made from `first` on that are no attributes. -/
def Made (first : NodeId) (heap : Heap) (n : NodeId) : Prop :=
  first ≤ n ∧ n < heap.size ∧ (heap.get n).type ≠ .attribute

/-- `after` is `before` with one more node, hung where the parser hangs it. -/
structure Hung (before after : Heap) (ret previous : Ptr) (node : XmlNode) : Prop where
  size : after.size = before.size + 1
  new : after.get before.size = { node with prev := previous, parent := ret, next := none }
  previous_ : ∀ {p}, previous = some p → after.get p =
    { before.get p with next := some before.size }
  owner : ∀ {r}, previous = none → ret = some r → after.get r =
    { before.get r with children := some before.size }
  rest : ∀ {i}, i < before.size → previous ≠ some i → (previous = none → ret ≠ some i) →
    after.get i = before.get i

theorem Hung.of_linkNode {before after : Heap} {ret previous : Ptr} {node : XmlNode}
    (older : ∀ p, previous = some p → p < before.size)
    (oldOwner : ∀ r, ret = some r → r < before.size)
    (linked : linkNode (before.alloc node) ret previous before.size = .ok after) :
    Hung before after ret previous node := by
  unfold linkNode at linked
  cases behind : previous with
  | some p =>
      subst behind
      have old := older p rfl
      have made := Except.ok.inj linked
      subst made
      refine ⟨rfl, ?_, ?_, nofun, ?_⟩
      · rw [Arena.modify_get_of_ne _ _ (Nat.ne_of_lt old).symm, Arena.modify_get_same,
          Arena.alloc_get_same]
      · rintro q ⟨⟩
        rw [Arena.modify_get_same, Arena.modify_get_of_ne _ _ (Nat.ne_of_lt old),
          Arena.alloc_get_of_lt _ _ old]
      · intro i small different _
        have apart : i ≠ p := fun same => different (same ▸ rfl)
        rw [Arena.modify_get_of_ne _ _ apart, Arena.modify_get_of_ne _ _ (Nat.ne_of_lt small),
          Arena.alloc_get_of_lt _ _ small]
  | none =>
      subst behind
      cases below : ret with
      | none =>
          subst below
          cases linked
      | some r =>
          subst below
          have old := oldOwner r rfl
          have made := Except.ok.inj linked
          subst made
          refine ⟨rfl, ?_, nofun, ?_, ?_⟩
          · rw [Arena.modify_get_of_ne _ _ (Nat.ne_of_lt old).symm, Arena.modify_get_same,
              Arena.alloc_get_same]
          · rintro q - ⟨⟩
            rw [Arena.modify_get_same, Arena.modify_get_of_ne _ _ (Nat.ne_of_lt old),
              Arena.alloc_get_of_lt _ _ old]
          · intro i small _ different
            have apart : i ≠ r := fun same => different rfl (same ▸ rfl)
            rw [Arena.modify_get_of_ne _ _ apart, Arena.modify_get_of_ne _ _ (Nat.ne_of_lt small),
              Arena.alloc_get_of_lt _ _ small]

/-- The fields that hanging a node never changes in another one. -/
theorem Hung.old {before after : Heap} {ret previous : Ptr} {node : XmlNode}
    (hung : Hung before after ret previous node) {i : NodeId} (small : i < before.size) :
    (after.get i).type = (before.get i).type ∧ (after.get i).parent = (before.get i).parent ∧
      (after.get i).prev = (before.get i).prev ∧
      (after.get i).attributes = (before.get i).attributes ∧
      (after.get i).original = (before.get i).original := by
  by_cases behind : previous = some i
  · rw [hung.previous_ behind]
    exact ⟨rfl, rfl, rfl, rfl, rfl⟩
  · by_cases below : previous = none ∧ ret = some i
    · rw [hung.owner below.1 below.2]
      exact ⟨rfl, rfl, rfl, rfl, rfl⟩
    · rw [hung.rest small behind fun bare same => below ⟨bare, same⟩]
      exact ⟨rfl, rfl, rfl, rfl, rfl⟩

theorem Hung.next {before after : Heap} {ret previous : Ptr} {node : XmlNode}
    (hung : Hung before after ret previous node) {i : NodeId} (small : i < before.size)
    (different : previous ≠ some i) : (after.get i).next = (before.get i).next := by
  by_cases below : previous = none ∧ ret = some i
  · rw [hung.owner below.1 below.2]
  · rw [hung.rest small different fun bare same => below ⟨bare, same⟩]

theorem Hung.children {before after : Heap} {ret previous : Ptr} {node : XmlNode}
    (hung : Hung before after ret previous node) {i : NodeId} (small : i < before.size)
    (different : previous = none → ret ≠ some i) :
    (after.get i).children = (before.get i).children := by
  by_cases behind : previous = some i
  · rw [hung.previous_ behind]
  · rw [hung.rest small behind different]

/-! ## Where the next node goes -/

/-- The place behind `previous` below `ret` is free. -/
structure Free (first : NodeId) (heap : Heap) (ret previous : Ptr) : Prop where
  owner : ∀ {r}, ret = some r → Made first heap r ∧ (heap.get r).type ≠ .text
  bare : ∀ {r}, previous = none → ret = some r → (heap.get r).children = none
  last : ∀ {p}, previous = some p → Made first heap p ∧
    ((heap.get p).parent = none ∨ (heap.get p).parent = ret ∧ (heap.get p).next = none)

section Hanging

variable {first : NodeId} {before after : Heap} {ret previous : Ptr} {node : XmlNode}

theorem Hung.made_old (hung : Hung before after ret previous node) {i : NodeId}
    (made : Made first before i) : Made first after i := by
  refine ⟨made.1, ?_, ?_⟩
  · rw [hung.size]
    exact Nat.lt_succ_of_lt made.2.1
  · rw [(hung.old made.2.1).1]
    exact made.2.2

theorem Hung.made_cases (hung : Hung before after ret previous node) {i : NodeId}
    (made : Made first after i) : i = before.size ∨ Made first before i := by
  rcases made with ⟨low, high, type⟩
  rw [hung.size] at high
  rcases Nat.lt_succ_iff_lt_or_eq.mp high with small | same
  · rw [(hung.old small).1] at type
    exact .inr ⟨low, small, type⟩
  · exact .inl same

theorem Hung.made_new (hung : Hung before after ret previous node) (low : first ≤ before.size)
    (type : node.type ≠ .attribute) : Made first after before.size := by
  refine ⟨low, ?_, ?_⟩
  · rw [hung.size]
    exact Nat.lt_succ_self _
  · rw [hung.new]
    exact type

/-- The row of an old node: the new node goes into the row of `ret` only. -/
theorem Hung.row (hung : Hung before after ret previous node)
    (linked : Linked before (Made first before)) (free : Free first before ret previous)
    (low : first ≤ before.size) (type : node.type ≠ .attribute) {owner : NodeId}
    (made : Made first before owner) :
    Exists fun row => Children after.links owner row ∧ ∀ n ∈ row, Made first after n := by
  rcases linked.forest.row made with ⟨row, children, members⟩
  have small : ∀ n ∈ row, n < before.size := fun n member => (members n member).2.1
  have fits : after.links.parent before.size = ret := by
    change (after.get before.size).parent = ret
    rw [hung.new]
  have backs : after.links.prev before.size = previous := by
    change (after.get before.size).prev = previous
    rw [hung.new]
  have bare : after.links.next before.size = none := by
    change (after.get before.size).next = none
    rw [hung.new]
  have parents : ∀ n ∈ row, after.links.parent n = before.links.parent n := fun n member =>
    (hung.old (small n member)).2.1
  have prevs : ∀ n ∈ row, after.links.prev n = before.links.prev n := fun n member =>
    (hung.old (small n member)).2.2.1
  cases behind : previous with
  | none =>
      by_cases here : ret = some owner
      · -- The first child: the row was empty.
        have empty := free.bare behind here
        have noRow : row = [] := by
          have chain := children.chain
          rw [show before.links.children owner = none from empty] at chain
          cases chain
          rfl
        refine ⟨[before.size], ?_, ?_⟩
        · unfold Children
          rw [show after.links.children owner = some before.size from
            congrArg XmlNode.children (hung.owner behind here)]
          refine .cons none before.size [] (fits.trans here) (backs.trans behind) made.2.1 ?_
          rw [bare]
          exact .nil _
        · intro n member
          rw [List.mem_singleton.mp member]
          exact hung.made_new low type
      · refine ⟨row, ?_, fun n member => hung.made_old (members n member)⟩
        unfold Children
        rw [show after.links.children owner = before.links.children owner from
          hung.children made.2.1 fun _ => here]
        refine children.congr parents (fun n member => ?_) prevs
        exact hung.next (small n member) (by rw [behind]; nofun)
  | some p =>
      have unchanged : after.links.children owner = before.links.children owner :=
        hung.children made.2.1 (by rw [behind]; nofun)
      by_cases member : p ∈ row
      · have owned := children.owned member
        rcases free.last behind with ⟨madeLast, noParent | ⟨sameParent, noNext⟩⟩
        · exact absurd (noParent.symm.trans owned.1) (Option.some_ne_none _).symm
        · rcases List.append_of_mem member with ⟨front, rest, rfl⟩
          have chain := children.after rfl
          rw [show before.links.next p = none from noNext] at chain
          cases chain
          refine ⟨front ++ [p] ++ [before.size], ?_, ?_⟩
          · unfold Children
            rw [unchanged]
            refine children.snoc parents ?_ prevs ?_ ?_ (backs.trans behind) made.2.1 bare
            · intro n member different
              refine hung.next (small n member) ?_
              rw [behind]
              exact fun same => different (Option.some.inj same).symm
            · exact congrArg XmlNode.next (hung.previous_ behind)
            · exact fits.trans (sameParent.symm.trans owned.1)
          · intro n member
            rcases List.mem_append.mp member with old | new
            · exact hung.made_old (members n old)
            · rw [List.mem_singleton.mp new]
              exact hung.made_new low type
      · refine ⟨row, ?_, fun n member => hung.made_old (members n member)⟩
        unfold Children
        rw [unchanged]
        refine children.congr parents (fun n inRow => ?_) prevs
        refine hung.next (small n inRow) ?_
        rw [behind]
        intro same
        exact member (Option.some.inj same ▸ inRow)

/-- Hanging a node keeps the document well linked. -/
theorem Hung.linked (hung : Hung before after ret previous node)
    (linked : Linked before (Made first before)) (free : Free first before ret previous)
    (low : first ≤ before.size) (type : node.type = .element ∨ node.type = .text)
    (childless : node.children = none) (untagged : node.attributes = none)
    (unique : node.original = none) : Linked after (Made first after) := by
  have notAttribute : node.type ≠ .attribute := by
    rcases type with type | type <;> rw [type] <;> decide
  have newType : (after.get before.size).type = node.type := by rw [hung.new]
  have newParent : (after.get before.size).parent = ret := by rw [hung.new]
  have newChildren : (after.get before.size).children = none := by rw [hung.new]; exact childless
  have newRow : Children after.links before.size [] := by
    unfold Children
    rw [show after.links.children before.size = none from newChildren]
    exact .nil _
  refine ⟨⟨?_, ?_, ?_, ?_, ?_⟩, ?_, ?_, ?_, ?_, ?_, ?_⟩
  · exact fun made => made.2.1
  · intro n made
    rcases hung.made_cases made with rfl | old
    · exact ⟨[], newRow, nofun⟩
    · exact hung.row linked free low notAttribute old
  · intro n owner made parent
    rcases hung.made_cases made with rfl | old
    · have here : ret = some owner := newParent.symm.trans parent
      exact ⟨hung.made_old (free.owner here).1, (free.owner here).1.2.1⟩
    · have found := linked.forest.up old ((hung.old old.2.1).2.1.symm.trans parent)
      exact ⟨hung.made_old found.1, found.2⟩
  · intro n later made next
    rcases hung.made_cases made with rfl | old
    · have none_ : (after.get before.size).next = none := by rw [hung.new]
      exact absurd (none_.symm.trans next) nofun
    · by_cases behind : previous = some n
      · have here : (after.get n).next = some before.size := by rw [hung.previous_ behind]
        have same := Option.some.inj (here.symm.trans next)
        subst same
        refine ⟨hung.made_new low notAttribute, old.2.1, ?_⟩
        change (after.get before.size).prev = some n
        rw [hung.new]
        exact behind
      · have found := linked.forest.behind old ((hung.next old.2.1 behind).symm.trans next)
        refine ⟨hung.made_old found.1, found.2.1, ?_⟩
        exact (hung.old found.1.2.1).2.2.1.trans found.2.2
  · intro n earlier made prev
    rcases hung.made_cases made with rfl | old
    · have here : (after.get before.size).prev = previous := by rw [hung.new]
      have found := (free.last (here.symm.trans prev)).1
      exact ⟨hung.made_old found, found.2.1⟩
    · have found := linked.forest.before old ((hung.old old.2.1).2.2.1.symm.trans prev)
      exact ⟨hung.made_old found.1, found.2⟩
  · intro n made
    rcases hung.made_cases made with rfl | old
    · rw [newType]
      exact .inr type
    · rw [(hung.old old.2.1).1]
      exact linked.typed old
  · intro n made empty
    rcases hung.made_cases made with rfl | old
    · rw [newType] at empty
      rcases type with type | type <;> rw [type] at empty <;> cases empty
    · rw [(hung.old old.2.1).1] at empty
      exact (hung.old old.2.1).2.1.trans (linked.outermost old empty)
  · intro n made text
    rcases hung.made_cases made with rfl | old
    · exact newChildren
    · rw [(hung.old old.2.1).1] at text
      rw [hung.children old.2.1]
      · exact linked.leaf old text
      · intro _ here
        exact (free.owner here).2 text
  · intro n made
    rcases hung.made_cases made with rfl | old
    · rw [hung.new]
      exact unique
    · exact (hung.old old.2.1).2.2.2.2.trans (linked.plain old)
  · intro n owner made parent
    rcases hung.made_cases made with rfl | old
    · have here : ret = some owner := newParent.symm.trans parent
      rw [(hung.old (free.owner here).1.2.1).1]
      exact (free.owner here).2
    · have earlier := (hung.old old.2.1).2.1.symm.trans parent
      rw [(hung.old (linked.forest.up old earlier).1.2.1).1]
      exact linked.holder old earlier
  · intro n made
    rcases hung.made_cases made with rfl | old
    · refine ⟨[], ?_, nofun⟩
      have none_ : (after.get before.size).attributes = none := by rw [hung.new]; exact untagged
      rw [none_]
      exact .nil
    · rcases linked.attributes old with ⟨attrs, chain, members⟩
      refine ⟨attrs, ?_, ?_⟩
      · rw [(hung.old old.2.1).2.2.2.1]
        refine chain.congr fun attr member => ?_
        have found := members attr member
        refine hung.next found.1 ?_
        intro behind
        exact (free.last behind).1.2.2 found.2
      · intro attr member
        have found := members attr member
        refine ⟨?_, ?_⟩
        · rw [hung.size]
          exact Nat.lt_succ_of_lt found.1
        · rw [(hung.old found.1).1]
          exact found.2

end Hanging

/-! ## What the parser keeps -/

/-- Nothing stands behind the open elements yet. -/
def Unfinished (heap : Heap) (r : NodeId) : Prop :=
  ∀ a, Relation.ReflTransGen (fun n owner => (heap.get n).parent = some owner) r a →
    (heap.get a).parent = none ∨ (heap.get a).next = none

/-- The element of a tag that is being read. -/
structure Fresh (first : NodeId) (heap : Heap) (ret : Ptr) (current : NodeId) : Prop where
  made : Made first heap current
  type : (heap.get current).type = .element
  children : (heap.get current).children = none
  next : (heap.get current).next = none
  parent : (heap.get current).parent = none ∨ (heap.get current).parent = ret

structure Woven (first : NodeId) (s : Parser) : Prop where
  low : first ≤ s.heap.size
  linked : Linked s.heap (Made first s.heap)
  owner : ∀ {r}, s.ret = some r → Made first s.heap r ∧ (s.heap.get r).type ≠ .text
  unfinished : ∀ {r}, s.ret = some r → Unfinished s.heap r
  place : ¬ InTag s.state → Free first s.heap s.ret s.previous
  tag : InTag s.state → ∀ {current}, s.current = some current →
    Fresh first s.heap s.ret current

theorem Unfinished.up {heap : Heap} {r owner : NodeId} (open_ : Unfinished heap r)
    (parent : (heap.get r).parent = some owner) : Unfinished heap owner :=
  fun a above => open_ a (above.head parent)

theorem Hung.unfinished {first : NodeId} {before after : Heap} {ret previous : Ptr} {node : XmlNode}
    (hung : Hung before after ret previous node) (linked : Linked before (Made first before))
    (free : Free first before ret previous) {r : NodeId} (isOpen : ret = some r)
    (open_ : Unfinished before r) : Unfinished after r := by
  intro a above
  have found : Relation.ReflTransGen (fun n owner => (before.get n).parent = some owner) r a ∧
      Made first before a ∧ a ≤ r := by
    induction above with
    | refl => exact ⟨.refl, (free.owner isOpen).1, Nat.le_refl r⟩
    | tail _ parent inductionHypothesis =>
        rcases inductionHypothesis with ⟨reached, made, below⟩
        have earlier := (hung.old made.2.1).2.1.symm.trans parent
        have step := linked.forest.up made earlier
        exact ⟨reached.tail earlier, step.1, Nat.le_trans (Nat.le_of_lt step.2) below⟩
  rcases found with ⟨reached, made, below⟩
  rw [(hung.old made.2.1).2.1]
  by_cases behind : previous = some a
  · rcases (free.last behind).2 with noParent | ⟨sameParent, -⟩
    · exact .inl noParent
    · -- The last child of the open element is none of the open ones.
      have step := linked.forest.up made (sameParent.trans isOpen)
      exact absurd step.2 (Nat.not_lt.mpr below)
  · rw [hung.next made.2.1 behind]
    exact open_ a reached

theorem Woven.start (heap : Heap) (document : Bytes) :
    Woven heap.size (Parse.start heap document) := by
  have root : (Parse.start heap document).heap.get heap.size =
      { type := .empty, name := some xslSRoot, uid := some heap.size } := by
    exact heap.alloc_get_same _
  have only : ∀ {n}, Made heap.size (Parse.start heap document).heap n → n = heap.size := by
    intro n made
    exact Nat.le_antisymm (Nat.le_of_lt_succ made.2.1) made.1
  have made : Made heap.size (Parse.start heap document).heap heap.size := by
    refine ⟨Nat.le_refl _, Nat.lt_succ_self _, ?_⟩
    rw [root]
    nofun
  have isRoot : ∀ {r}, (Parse.start heap document).ret = some r → r = heap.size := by
    rintro r ⟨⟩
    rfl
  refine ⟨Nat.le_succ _, ⟨⟨?_, ?_, ?_, ?_, ?_⟩, ?_, ?_, ?_, ?_, ?_, ?_⟩, ?_, ?_, ?_, ?_⟩
  · exact fun made => made.2.1
  · intro n inside
    refine ⟨[], ?_, nofun⟩
    unfold Children
    rw [only inside, show (Parse.start heap document).heap.links.children heap.size = none from
      congrArg XmlNode.children root]
    exact .nil _
  · intro n owner inside link
    rw [only inside, show (Parse.start heap document).heap.links.parent heap.size = none from
      congrArg XmlNode.parent root] at link
    cases link
  · intro n later inside link
    rw [only inside, show (Parse.start heap document).heap.links.next heap.size = none from
      congrArg XmlNode.next root] at link
    cases link
  · intro n earlier inside link
    rw [only inside, show (Parse.start heap document).heap.links.prev heap.size = none from
      congrArg XmlNode.prev root] at link
    cases link
  · intro n inside
    rw [only inside, root]
    exact .inl rfl
  · intro n inside _
    rw [only inside, root]
  · intro n inside _
    rw [only inside, root]
  · intro n inside
    rw [only inside, root]
  · intro n owner inside link
    rw [only inside, root] at link
    cases link
  · intro n inside
    refine ⟨[], ?_, nofun⟩
    rw [only inside, root]
    exact .nil
  · intro r isOpen
    rw [isRoot isOpen, root]
    exact ⟨made, nofun⟩
  · intro r isOpen a above
    rw [isRoot isOpen] at above
    rcases Relation.ReflTransGen.cases_head above with same | ⟨owner, link, -⟩
    · rw [← same, root]
      exact .inl rfl
    · rw [root] at link
      cases link
  · intro _
    refine ⟨?_, ?_, nofun⟩
    · intro r isOpen
      rw [isRoot isOpen, root]
      exact ⟨made, nofun⟩
    · intro r _ isOpen
      rw [isRoot isOpen, root]
  · rintro (state | state) <;> cases state

/-- The fields of the memory after an attribute was made. -/
theorem attributeHeap_get (s : Parser) {current : NodeId} (old : current < s.heap.size) :
    (attributeHeap s current).get s.heap.size =
        { type := .attribute, name := some (nameAt (skipSpaces s.p)), uid := some s.heap.size,
          next := (s.heap.get current).attributes, parent := some current } ∧
      (attributeHeap s current).get current =
        { s.heap.get current with attributes := some s.heap.size } ∧
      ∀ i < s.heap.size, i ≠ current → (attributeHeap s current).get i = s.heap.get i := by
  unfold attributeHeap xmlNewNode
  simp only [Arena.modify_alloc, Arena.alloc_get_of_lt _ _ old]
  refine ⟨?_, ?_, ?_⟩
  · rw [Arena.modify_get_of_ne _ _ (Nat.ne_of_lt old).symm, Arena.alloc_get_same]
  · rw [Arena.modify_get_same, Arena.alloc_get_of_lt _ _ old]
  · intro i small different
    rw [Arena.modify_get_of_ne _ _ different, Arena.alloc_get_of_lt _ _ small]

section Passes

variable {first : NodeId} {s s' : Parser} (woven : Woven first s)

include woven

/-- Passes outside of tags that change neither the memory nor the place. -/
theorem Woven.keep (heap : s'.heap = s.heap) (ret : s'.ret = s.ret)
    (previous : s'.previous = s.previous) (outside : ¬ InTag s.state)
    (outside' : ¬ InTag s'.state) : Woven first s' where
  low := by
    rw [heap]
    exact woven.low
  linked := by
    rw [heap]
    exact woven.linked
  owner := by
    rw [heap, ret]
    exact woven.owner
  unfinished := by
    rw [heap, ret]
    exact woven.unfinished
  place := by
    rw [heap, ret, previous]
    exact fun _ => woven.place outside
  tag := fun inside => (outside' inside).elim

/-- The new node of a state outside of tags is hung at the free place. -/
theorem Woven.hung (outside : ¬ InTag s.state) {node : XmlNode} {after : Heap}
    (linked : linkNode (s.heap.alloc node) s.ret s.previous s.heap.size = .ok after) :
    Hung s.heap after s.ret s.previous node := by
  have free := woven.place outside
  exact .of_linkNode (fun p behind => (free.last behind).1.2.1)
    (fun r isOpen => (free.owner isOpen).1.2.1) linked

theorem Woven.openElement (state : s.state = .openTag) {heap : Heap}
    (linked : linkNode (elementHeap s) s.ret s.previous s.heap.size = .ok heap)
    (heap' : s'.heap = heap) (ret : s'.ret = s.ret.or (some s.heap.size))
    (current : s'.current = some s.heap.size) (state' : s'.state = .insideTag) :
    Woven first s' := by
  have outside : ¬ InTag s.state := by
    rw [state]
    decide
  have free := woven.place outside
  have hung := woven.hung outside linked
  have made := hung.made_new woven.low nofun
  have next : (heap.get s.heap.size).next = none := by rw [hung.new]
  have parent : (heap.get s.heap.size).parent = s.ret := by rw [hung.new]
  have type : (heap.get s.heap.size).type = .element := by rw [hung.new]
  have children : (heap.get s.heap.size).children = none := by rw [hung.new]
  subst heap'
  refine ⟨?_, hung.linked woven.linked free woven.low (.inl rfl) rfl rfl rfl, ?_, ?_, ?_, ?_⟩
  · rw [hung.size]
    exact Nat.le_succ_of_le woven.low
  · intro r isOpen
    rw [ret] at isOpen
    cases old : s.ret with
    | none =>
        rw [old] at isOpen
        cases isOpen
        refine ⟨made, ?_⟩
        rw [type]
        decide
    | some q =>
        rw [old] at isOpen
        cases isOpen
        have found := woven.owner old
        refine ⟨hung.made_old found.1, ?_⟩
        rw [(hung.old found.1.2.1).1]
        exact found.2
  · intro r isOpen
    rw [ret] at isOpen
    cases old : s.ret with
    | none =>
        rw [old] at isOpen
        cases isOpen
        intro a above
        rcases Relation.ReflTransGen.cases_head above with same | ⟨owner, link, -⟩
        · exact same ▸ .inr next
        · rw [parent, old] at link
          cases link
    | some q =>
        rw [old] at isOpen
        cases isOpen
        exact hung.unfinished woven.linked free old (woven.unfinished old)
  · intro notTag
    rw [state'] at notTag
    exact (notTag (.inl rfl)).elim
  · intro _ k here
    rw [current] at here
    cases here
    refine ⟨made, type, children, next, ?_⟩
    rw [parent, ret]
    cases old : s.ret with
    | none => exact .inl rfl
    | some q => exact .inr rfl

theorem Woven.addText (outside : ¬ InTag s.state) {content : Bytes} {flags : Nat} {heap : Heap}
    (linked : linkNode (textHeap s content flags) s.ret s.previous s.heap.size = .ok heap)
    (heap' : s'.heap = heap) (ret : s'.ret = s.ret) (previous : s'.previous = some s.heap.size)
    (outside' : ¬ InTag s'.state) : Woven first s' := by
  have free := woven.place outside
  have alloc : textHeap s content flags = s.heap.alloc
      { type := .text, uid := some s.heap.size, content := some content, flags := flags } := by
    unfold textHeap xmlNewNode
    exact s.heap.modify_alloc _ _
  rw [alloc] at linked
  have hung := woven.hung outside linked
  have made := hung.made_new woven.low nofun
  have parent : (heap.get s.heap.size).parent = s.ret := by rw [hung.new]
  have next : (heap.get s.heap.size).next = none := by rw [hung.new]
  have owner : ∀ {r}, s.ret = some r → Made first heap r ∧ (heap.get r).type ≠ .text := by
    intro r isOpen
    have found := woven.owner isOpen
    refine ⟨hung.made_old found.1, ?_⟩
    rw [(hung.old found.1.2.1).1]
    exact found.2
  subst heap'
  refine ⟨?_, hung.linked woven.linked free woven.low (.inr rfl) rfl rfl rfl, ?_, ?_, ?_, ?_⟩
  · rw [hung.size]
    exact Nat.le_succ_of_le woven.low
  · rw [ret]
    exact owner
  · intro r isOpen
    rw [ret] at isOpen
    exact hung.unfinished woven.linked free isOpen (woven.unfinished isOpen)
  · intro _
    rw [ret, previous]
    refine ⟨owner, nofun, ?_⟩
    rintro p ⟨⟩
    exact ⟨made, .inr ⟨parent, next⟩⟩
  · exact fun inside => (outside' inside).elim

/-- Inside a tag only attributes are made. -/
theorem Woven.inTag {heap : Heap} (state : InTag s.state) (heap' : s'.heap = heap)
    (ret : s'.ret = s.ret) (current : s'.current = s.current) (state' : InTag s'.state)
    (same : Made first heap = Made first s.heap) (grows : s.heap.size ≤ heap.size)
    (links : ∀ {n}, Made first s.heap n → (heap.get n).type = (s.heap.get n).type ∧
      (heap.get n).children = (s.heap.get n).children ∧ (heap.get n).next = (s.heap.get n).next ∧
      (heap.get n).prev = (s.heap.get n).prev ∧ (heap.get n).parent = (s.heap.get n).parent ∧
      (heap.get n).original = (s.heap.get n).original)
    (attributes : ∀ {n}, Made first s.heap n →
      Exists fun attrs => Siblings heap (heap.get n).attributes attrs ∧
        ∀ attr ∈ attrs, attr < heap.size ∧ (heap.get attr).type = .attribute) :
    Woven first s' := by
  subst heap'
  refine ⟨Nat.le_trans woven.low grows, ?_, ?_, ?_, fun outside => (outside state').elim, ?_⟩
  · rw [same]
    exact woven.linked.congr grows (fun made => (links made).1) (fun made => (links made).2.1)
      (fun made => (links made).2.2.1) (fun made => (links made).2.2.2.1)
      (fun made => (links made).2.2.2.2.1) (fun made => (links made).2.2.2.2.2) attributes
  · intro r isOpen
    rw [ret] at isOpen
    have found := woven.owner isOpen
    rw [same, (links found.1).1]
    exact found
  · intro r isOpen a above
    rw [ret] at isOpen
    have found : Relation.ReflTransGen (fun n owner => (s.heap.get n).parent = some owner) r a ∧
        Made first s.heap a := by
      induction above with
      | refl => exact ⟨.refl, (woven.owner isOpen).1⟩
      | tail _ parent inductionHypothesis =>
          rcases inductionHypothesis with ⟨reached, made⟩
          have earlier := (links made).2.2.2.2.1.symm.trans parent
          exact ⟨reached.tail earlier, (woven.linked.forest.up made earlier).1⟩
    rw [(links found.2).2.2.2.2.1, (links found.2).2.2.1]
    exact woven.unfinished isOpen a found.1
  · intro _ k here
    rw [current] at here
    have fresh := woven.tag state here
    have kept := links fresh.made
    refine ⟨?_, ?_, ?_, ?_, ?_⟩
    · rw [same]
      exact fresh.made
    · exact kept.1.trans fresh.type
    · exact kept.2.1.trans fresh.children
    · exact kept.2.2.1.trans fresh.next
    · rw [kept.2.2.2.2.1, ret]
      exact fresh.parent

theorem Woven.addAttribute (state : s.state = .insideTag) {k : NodeId}
    (inTag : s.current = some k) (heap' : s'.heap = attributeHeap s k) (ret : s'.ret = s.ret)
    (current : s'.current = s.current) (state' : InTag s'.state) : Woven first s' := by
  have fresh := woven.tag (.inl state) inTag
  rcases attributeHeap_get s fresh.made.2.1 with ⟨new, here, rest⟩
  have size : (attributeHeap s k).size = s.heap.size + 1 := rfl
  have fields : ∀ {n}, n < s.heap.size →
      (attributeHeap s k).get n = { s.heap.get n with
        attributes := ((attributeHeap s k).get n).attributes } := by
    intro n small
    by_cases same : n = k
    · rw [same, here]
    · rw [rest n small same]
  have oldType : ∀ {n}, n < s.heap.size →
      ((attributeHeap s k).get n).type = (s.heap.get n).type := by
    intro n small
    rw [fields small]
  have oldNext : ∀ {n}, n < s.heap.size →
      ((attributeHeap s k).get n).next = (s.heap.get n).next := by
    intro n small
    rw [fields small]
  have same : Made first (attributeHeap s k) = Made first s.heap := by
    funext n
    apply propext
    constructor
    · rintro ⟨low, high, type⟩
      rcases Nat.lt_succ_iff_lt_or_eq.mp high with small | last
      · exact ⟨low, small, (oldType small) ▸ type⟩
      · rw [last, new] at type
        exact (type rfl).elim
    · rintro ⟨low, high, type⟩
      exact ⟨low, Nat.lt_succ_of_lt high, (oldType high).symm ▸ type⟩
  -- The attributes made so far stay as they are.
  have chained : ∀ {start attrs}, Siblings s.heap start attrs →
      (∀ attr ∈ attrs, attr < s.heap.size ∧ (s.heap.get attr).type = .attribute) →
      Siblings (attributeHeap s k) start attrs ∧
        ∀ attr ∈ attrs, attr < (attributeHeap s k).size ∧
          ((attributeHeap s k).get attr).type = .attribute := by
    intro start attrs chain members
    refine ⟨chain.congr fun attr member => oldNext (members attr member).1, ?_⟩
    intro attr member
    have found := members attr member
    exact ⟨Nat.lt_succ_of_lt found.1, (oldType found.1).trans found.2⟩
  refine woven.inTag (.inl state) heap' ret current state' same (Nat.le_succ _) ?_ ?_
  · intro n made
    rw [fields made.2.1]
    exact ⟨rfl, rfl, rfl, rfl, rfl, rfl⟩
  · intro n made
    rcases woven.linked.attributes made with ⟨attrs, chain, members⟩
    have kept := chained chain members
    by_cases at_ : n = k
    · subst at_
      refine ⟨s.heap.size :: attrs, ?_, ?_⟩
      · rw [here]
        refine .cons s.heap.size attrs ?_
        rw [new]
        exact kept.1
      · intro attr member
        rcases List.mem_cons.mp member with last | old
        · subst last
          rw [new]
          exact ⟨Nat.lt_succ_self _, rfl⟩
        · exact kept.2 attr old
    · rw [rest n made.2.1 at_]
      exact ⟨attrs, kept⟩

theorem Woven.setContent (state : InTag s.state) {attr : NodeId} {content : Bytes}
    (heap' : s'.heap = s.heap.modify attr fun n => { n with content := some content })
    (ret : s'.ret = s.ret) (current : s'.current = s.current) (state' : InTag s'.state) :
    Woven first s' := by
  have fields : ∀ n, (s.heap.modify attr fun n => { n with content := some content }).get n =
      { s.heap.get n with content :=
        ((s.heap.modify attr fun n => { n with content := some content }).get n).content } := by
    intro n
    by_cases same : n = attr
    · rw [same, Arena.modify_get_same]
    · rw [Arena.modify_get_of_ne _ _ same]
  refine woven.inTag state heap' ret current state' ?_ (Nat.le_refl _) ?_ ?_
  · funext n
    unfold Made
    rw [fields n, Arena.modify_size]
  · intro n _
    rw [fields n]
    exact ⟨rfl, rfl, rfl, rfl, rfl, rfl⟩
  · intro n made
    rcases woven.linked.attributes made with ⟨attrs, chain, members⟩
    refine ⟨attrs, ?_, ?_⟩
    · rw [fields n]
      refine chain.congr fun other _ => ?_
      rw [fields other]
    · intro other member
      rw [fields other]
      exact members other member

theorem Woven.tagEnd (state : s.state = .insideTag)
    (heap : s'.heap = s.heap) (ret : s'.ret = s.current) (previous : s'.previous = none)
    (outside : ¬ InTag s'.state) : Woven first s' := by
  have owner : ∀ {r}, s.current = some r →
      Made first s.heap r ∧ (s.heap.get r).type ≠ .text := by
    intro r here
    have fresh := woven.tag (.inl state) here
    refine ⟨fresh.made, ?_⟩
    rw [fresh.type]
    decide
  refine ⟨?_, ?_, ?_, ?_, ?_, fun inside => (outside inside).elim⟩
  · rw [heap]
    exact woven.low
  · rw [heap]
    exact woven.linked
  · rw [heap, ret]
    exact owner
  · rw [heap, ret]
    intro r here a above
    have fresh := woven.tag (.inl state) here
    rcases Relation.ReflTransGen.cases_head above with same | ⟨q, link, rest⟩
    · exact same ▸ .inr fresh.next
    · rcases fresh.parent with noParent | sameParent
      · exact absurd (noParent.symm.trans link) nofun
      · exact woven.unfinished (sameParent.symm.trans link) a rest
  · intro _
    rw [heap, ret, previous]
    exact ⟨owner, fun _ here => (woven.tag (.inl state) here).children, nofun⟩

theorem Woven.tagSelfClose (state : s.state = .insideTag)
    (heap : s'.heap = s.heap) (ret : s'.ret = s.ret) (previous : s'.previous = s.current)
    (wired : Wired s) (outside : ¬ InTag s'.state) : Woven first s' := by
  refine ⟨?_, ?_, ?_, ?_, ?_, fun inside => (outside inside).elim⟩
  · rw [heap]
    exact woven.low
  · rw [heap]
    exact woven.linked
  · rw [heap, ret]
    exact woven.owner
  · rw [heap, ret]
    exact woven.unfinished
  · intro _
    rw [heap, ret, previous]
    refine ⟨woven.owner, ?_, ?_⟩
    · intro r absent
      exact (wired.tag (.inl state) absent).elim
    · intro p here
      have fresh := woven.tag (.inl state) here
      refine ⟨fresh.made, ?_⟩
      rcases fresh.parent with noParent | sameParent
      · exact .inl noParent
      · exact .inr ⟨sameParent, fresh.next⟩

theorem Woven.closeMatch {r : NodeId} (isOpen : s.ret = some r)
    (heap : s'.heap = s.heap) (ret : s'.ret = (s.heap.get r).parent) (previous : s'.previous = some r)
    (outside : ¬ InTag s'.state) : Woven first s' := by
  have found := woven.owner isOpen
  have owner : ∀ {q}, (s.heap.get r).parent = some q →
      Made first s.heap q ∧ (s.heap.get q).type ≠ .text := by
    intro q link
    exact ⟨(woven.linked.forest.up found.1 link).1, woven.linked.holder found.1 link⟩
  refine ⟨?_, ?_, ?_, ?_, ?_, fun inside => (outside inside).elim⟩
  · rw [heap]
    exact woven.low
  · rw [heap]
    exact woven.linked
  · rw [heap, ret]
    exact owner
  · rw [heap, ret]
    exact fun link => (woven.unfinished isOpen).up link
  · intro _
    rw [heap, ret, previous]
    refine ⟨owner, nofun, ?_⟩
    rintro p ⟨⟩
    refine ⟨found.1, ?_⟩
    rcases woven.unfinished isOpen r .refl with noParent | noNext
    · exact .inl noParent
    · exact .inr ⟨rfl, noNext⟩

theorem Woven.passed (wired : Wired s) (step : Passed s s') : Woven first s' := by
  cases step with
  | init state =>
      refine woven.keep rfl rfl rfl (by rw [state]; decide) ?_
      simp only [passInit]
      split <;> decide
  | comment state =>
      have links := passComment_links s
      refine woven.keep links.2.2 links.1 links.2.1 (by rw [state]; decide) ?_
      rcases passComment_state s with new | new | new <;> rw [new]
      · decide
      · decide
      · rw [state]
        decide
  | xmldecl state | openDecl state | openComment state | openCdata state | openDoctype state
  | openClose state | emptyCdata state | doctype state | noText state | closeMismatch state =>
      refine woven.keep rfl rfl rfl (by rw [state]; decide) ?_
      rintro (impossible | impossible) <;> cases impossible
  | body state => exact woven.keep rfl rfl rfl (by rw [state]; decide) (by rw [state]; decide)
  | openElement state here heap linked => exact woven.openElement state linked rfl rfl rfl rfl
  | closeMatch state r name q isOpen => exact woven.closeMatch isOpen rfl rfl rfl text_outside
  | tagEnd state => exact woven.tagEnd state rfl rfl rfl text_outside
  | tagSelfClose state => exact woven.tagSelfClose state rfl rfl rfl wired text_outside
  | valuedAttribute state here k inTag =>
      exact woven.addAttribute state inTag rfl rfl rfl (.inr rfl)
  | bareAttribute state here k inTag =>
      exact woven.addAttribute state inTag rfl rfl rfl (.inl state)
  | cdata state heap content closed linked =>
      exact woven.addText (by rw [state]; decide) linked rfl rfl rfl text_outside
  | text state content heap run unescaped linked =>
      exact woven.addText (by rw [state]; decide) linked rfl rfl rfl init_outside
  | value state => exact woven.setContent (.inr state) rfl rfl rfl (.inl rfl)
  | bareValue state =>
      refine woven.inTag (.inr state) rfl rfl rfl (.inl rfl) rfl (Nat.le_refl _) ?_ ?_
      · exact fun _ => ⟨rfl, rfl, rfl, rfl, rfl, rfl⟩
      · exact woven.linked.attributes

end Passes

/-- Every state the document can bring about is woven. -/
theorem Reachable.woven {heap : Heap} {document : Bytes} {s : Parser}
    (reached : Reachable heap document s) : Woven heap.size s := by
  have keep : ∀ before after, Woven heap.size before ∧ Wired before →
      Steps pass before after → Woven heap.size after ∧ Wired after := by
    intro before after both step
    exact ⟨both.1.passed both.2 (.of_pass step), both.2.passed (.of_pass step)⟩
  exact (reached.preserves keep ⟨.start heap document, .start heap document⟩).1

/-- A document that `do_parse` returns is well linked. -/
theorem DoParse.linked {heap after : Heap} {document : Bytes} {node : NodeId}
    (parsed : DoParse heap document (some node) after) :
    Linked after (Made heap.size after) ∧ Made heap.size after node := by
  rcases returns_iff_reaches_stop.mp parsed with ⟨last, reached, stopped⟩
  have woven := Reachable.woven reached
  rcases (Stopped.of_pass (Reachable.wired reached) stopped).returns_node with
    ⟨state, done, isOpen, rfl⟩
  exact ⟨woven.linked, (woven.owner isOpen).1⟩

/-- The memory after a run of at most `fuel` iterations that returned. -/
def memoryAfter (fuel : Nat) (document : Bytes) : Heap :=
  match run pass fuel (start .empty document) with
  | some (.returned _ heap) => heap
  | _ => .empty

end Parse
end TurboXSL
