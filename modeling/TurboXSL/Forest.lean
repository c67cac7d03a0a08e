import TurboXSL.Node

namespace TurboXSL

open Library

/-!
# Forests and their representation in memory

A `Forest` is a list of sibling trees in first-child / next-sibling form,
without any pointers.  `Holds` says that the nodes met from a pointer
represent a forest, with all `parent`, `prev` and `next` links in place.
`build` makes the nodes of a forest one after the other, in the order and
with the writes in which a document is parsed; `Laid` is where it leaves
them.  Attribute lists are in the order of the memory, newest first.
-/

/-- Sibling trees: character data and elements. -/
inductive Forest where
  | nil
  | text (content : Bytes) (flags : Nat) (next : Forest)
  | element (name : Bytes) (attributes : List (Bytes × Bytes)) (children next : Forest)
deriving DecidableEq

namespace Forest

/-- The attribute list from `p` on. -/
inductive HoldsAttributes (heap : Heap) (owner : NodeId) : Ptr → List (Bytes × Bytes) → Prop where
  | nil : HoldsAttributes heap owner none []
  | cons (i : NodeId) (name value : Bytes) (rest : List (Bytes × Bytes))
      (type : (heap.get i).type = .attribute)
      (named : (heap.get i).name = some name) (content : (heap.get i).content = some value)
      (parent : (heap.get i).parent = some owner)
      (tail : HoldsAttributes heap owner (heap.get i).next rest) :
      HoldsAttributes heap owner (some i) ((name, value) :: rest)

/-- The siblings from `p` on, below `parent` and behind `prev`. -/
inductive Holds (heap : Heap) : NodeId → Ptr → Ptr → Forest → Prop where
  | nil (parent : NodeId) (prev : Ptr) : Holds heap parent prev none .nil
  | text (parent : NodeId) (prev : Ptr) (i : NodeId) (content : Bytes) (flags : Nat)
      (next : Forest)
      (type : (heap.get i).type = .text) (unnamed : (heap.get i).name = none)
      (characters : (heap.get i).content = some content) (flagged : (heap.get i).flags = flags)
      (up : (heap.get i).parent = some parent) (back : (heap.get i).prev = prev)
      (leaf : (heap.get i).children = none ∧ (heap.get i).attributes = none)
      (tail : Holds heap parent (some i) (heap.get i).next next) :
      Holds heap parent prev (some i) (.text content flags next)
  | element (parent : NodeId) (prev : Ptr) (i : NodeId) (name : Bytes)
      (attributes : List (Bytes × Bytes)) (children next : Forest)
      (type : (heap.get i).type = .element) (named : (heap.get i).name = some name)
      (up : (heap.get i).parent = some parent) (back : (heap.get i).prev = prev)
      (tagged : HoldsAttributes heap i (heap.get i).attributes attributes)
      (inner : Holds heap i none (heap.get i).children children)
      (tail : Holds heap parent (some i) (heap.get i).next next) :
      Holds heap parent prev (some i) (.element name attributes children next)

theorem HoldsAttributes.unique {heap : Heap} {owner : NodeId} {p : Ptr}
    {first second : List (Bytes × Bytes)} (left : HoldsAttributes heap owner p first)
    (right : HoldsAttributes heap owner p second) : first = second := by
  induction left generalizing second with
  | nil => cases right; rfl
  | cons i name value rest type named content parent tail inductionHypothesis =>
      cases right with
      | cons _ name' value' rest' _ named' content' _ tail' =>
          rw [inductionHypothesis tail', Option.some.inj (named.symm.trans named'),
            Option.some.inj (content.symm.trans content')]

theorem Holds.unique {heap : Heap} {parent : NodeId} {prev p : Ptr} {first second : Forest}
    (left : Holds heap parent prev p first) (right : Holds heap parent prev p second) :
    first = second := by
  induction left generalizing second with
  | nil => cases right; rfl
  | text parent prev i content flags next type unnamed characters flagged up back leaf tail
      inductionHypothesis =>
      cases right with
      | text _ _ _ content' flags' next' _ _ characters' flagged' _ _ _ tail' =>
          rw [inductionHypothesis tail', ← flagged, ← flagged',
            Option.some.inj (characters.symm.trans characters')]
      | element _ _ _ _ _ _ _ type' => exact nomatch type.symm.trans type'
  | element parent prev i name attributes children next type named up back tagged inner tail
      innerHypothesis tailHypothesis =>
      cases right with
      | text _ _ _ _ _ _ type' => exact nomatch type.symm.trans type'
      | element _ _ _ name' attributes' children' next' _ named' _ _ tagged' inner' tail' =>
          rw [Option.some.inj (named.symm.trans named'), tagged.unique tagged',
            innerHypothesis inner', tailHypothesis tail']

/-- Only the empty forest is represented by NULL. -/
theorem Holds.ptr_eq_none_iff {heap : Heap} {parent : NodeId} {prev p : Ptr} {forest : Forest}
    (holds : Holds heap parent prev p forest) : p = none ↔ forest = .nil := by
  cases holds <;> simp

/-! ## The layout of a built forest -/

/-- The number of nodes, attributes included. -/
def size : Forest → Nat
  | .nil => 0
  | .text _ _ next => 1 + next.size
  | .element _ attributes children next =>
      1 + attributes.length + children.size + next.size

/-- The pointer to a forest laid out from `base` on. -/
def entry (base : Nat) : Forest → Ptr
  | .nil => none
  | _ => some base

/-- The pointer to an attribute list laid out from `base` on. -/
def attributeEntry (base : Nat) : List (Bytes × Bytes) → Ptr
  | [] => none
  | _ :: rest => some (base + rest.length)

/-- Attributes from `base` on, the last of the list first. -/
def LaidAttributes (heap : Heap) (owner : NodeId) (base : Nat) : List (Bytes × Bytes) → Prop
  | [] => True
  | (name, value) :: rest =>
      heap.get (base + rest.length) =
        { type := .attribute, name := some name, content := some value, parent := some owner,
          next := attributeEntry base rest, uid := some (base + rest.length) } ∧
      LaidAttributes heap owner base rest

/-- A forest from `base` on: each node, its attributes, its children, then
its later siblings. -/
def Laid (heap : Heap) (base : Nat) (parent : NodeId) (prev : Ptr) : Forest → Prop
  | .nil => True
  | .text content flags next =>
      heap.get base =
        { type := .text, content := some content, parent := some parent, prev := prev,
          next := entry (base + 1) next, uid := some base, flags := flags } ∧
      Laid heap (base + 1) parent (some base) next
  | .element name attributes children next =>
      heap.get base =
        { type := .element, name := some name, parent := some parent, prev := prev,
          next := entry (base + 1 + attributes.length + children.size) next,
          children := entry (base + 1 + attributes.length) children,
          attributes := attributeEntry (base + 1) attributes, uid := some base } ∧
      LaidAttributes heap base (base + 1) attributes ∧
      Laid heap (base + 1 + attributes.length) base none children ∧
      Laid heap (base + 1 + attributes.length + children.size) parent (some base) next

theorem LaidAttributes.holds {heap : Heap} {owner : NodeId} {base : Nat}
    {attributes : List (Bytes × Bytes)} (laid : LaidAttributes heap owner base attributes) :
    HoldsAttributes heap owner (attributeEntry base attributes) attributes := by
  induction attributes with
  | nil => exact .nil
  | cons attr rest inductionHypothesis =>
      rcases laid with ⟨here, tail⟩
      refine .cons _ attr.1 attr.2 rest ?_ ?_ ?_ ?_ ?_
      all_goals rw [here]
      exact inductionHypothesis tail

/-- A forest that is laid out is represented. -/
theorem Laid.holds {heap : Heap} {forest : Forest} {base : Nat} {parent : NodeId} {prev : Ptr}
    (laid : Laid heap base parent prev forest) :
    Holds heap parent prev (entry base forest) forest := by
  induction forest generalizing base parent prev with
  | nil => exact .nil parent prev
  | text content flags next inductionHypothesis =>
      rcases laid with ⟨here, tail⟩
      refine .text parent prev base content flags next ?_ ?_ ?_ ?_ ?_ ?_ ⟨?_, ?_⟩ ?_
      all_goals rw [here]
      exact inductionHypothesis tail
  | element name attributes children next childrenHypothesis nextHypothesis =>
      rcases laid with ⟨here, tagged, inner, tail⟩
      refine .element parent prev base name attributes children next ?_ ?_ ?_ ?_ ?_ ?_ ?_
      all_goals rw [here]
      · exact tagged.holds
      · exact childrenHypothesis inner
      · exact nextHypothesis tail

theorem LaidAttributes.congr {heap other : Heap} {owner : NodeId} {base : Nat}
    {attributes : List (Bytes × Bytes)} (laid : LaidAttributes heap owner base attributes)
    (agree : ∀ i, base ≤ i → i < base + attributes.length → other.get i = heap.get i) :
    LaidAttributes other owner base attributes := by
  induction attributes with
  | nil => trivial
  | cons attr rest inductionHypothesis =>
      rcases laid with ⟨here, tail⟩
      simp only [List.length_cons] at agree
      refine ⟨?_, inductionHypothesis tail fun i low high => agree i low (by omega)⟩
      rw [agree _ (Nat.le_add_right _ _) (by omega)]
      exact here

/-- A layout only reads the nodes of its own range. -/
theorem Laid.congr {heap other : Heap} {forest : Forest} {base : Nat} {parent : NodeId} {prev : Ptr}
    (laid : Laid heap base parent prev forest)
    (agree : ∀ i, base ≤ i → i < base + forest.size → other.get i = heap.get i) :
    Laid other base parent prev forest := by
  induction forest generalizing base parent prev with
  | nil => trivial
  | text content flags next inductionHypothesis =>
      rcases laid with ⟨here, tail⟩
      simp only [size] at agree
      refine ⟨(agree base (Nat.le_refl _) (by omega)).trans here, ?_⟩
      exact inductionHypothesis tail fun i low high => agree i (by omega) (by omega)
  | element name attributes children next childrenHypothesis nextHypothesis =>
      rcases laid with ⟨here, tagged, inner, tail⟩
      simp only [size] at agree
      refine ⟨(agree base (Nat.le_refl _) (by omega)).trans here, ?_, ?_, ?_⟩
      · exact tagged.congr fun i low high => agree i (by omega) (by omega)
      · exact childrenHypothesis inner fun i low high => agree i (by omega) (by omega)
      · exact nextHypothesis tail fun i low high => agree i (by omega) (by omega)

/-! ## Building a forest -/

/-- Let the last sibling, or else the parent, point to `child`. -/
def attach (heap : Heap) (parent : NodeId) (prev : Ptr) : Ptr → Heap
  | none => heap
  | some child =>
      match prev with
      | some sibling => heap.modify sibling fun n => { n with next := some child }
      | none => heap.modify parent fun n => { n with children := some child }

/-- Hang a fresh node behind the last sibling. -/
def hang (heap : Heap) (parent : NodeId) (prev : Ptr) (current : NodeId) : Heap :=
  attach (heap.modify current fun n =>
    { n with prev := prev, parent := some parent, next := none }) parent prev (some current)

/-- Make an element and hang it. -/
def addElement (heap : Heap) (parent : NodeId) (prev : Ptr) (name : Bytes) : Heap :=
  hang (xmlNewNode heap (some name) .element).1 parent prev heap.size

/-- Make a text node and hang it. -/
def addText (heap : Heap) (parent : NodeId) (prev : Ptr) (content : Bytes) (flags : Nat) :
    Heap :=
  hang ((xmlNewNode heap none .text).1.modify heap.size fun n =>
    { n with content := some content, flags := flags }) parent prev heap.size

/-- Make an attribute without a value and put it in front of the others. -/
def addAttribute (heap : Heap) (owner : NodeId) (name : Bytes) : Heap :=
  let made := xmlNewNode heap (some name) .attribute
  (made.1.modify made.2 fun n =>
      { n with next := (made.1.get owner).attributes, parent := some owner }).modify
    owner fun n => { n with attributes := some made.2 }

/-- Give an attribute its value. -/
def setContent (heap : Heap) (attr : NodeId) (value : Bytes) : Heap :=
  heap.modify attr fun n => { n with content := some value }

/-- Make the attributes of a list, the last one first. -/
def buildAttributes (heap : Heap) (owner : NodeId) : List (Bytes × Bytes) → Heap
  | [] => heap
  | (name, value) :: rest =>
      let later := buildAttributes heap owner rest
      setContent (addAttribute later owner name) later.size value

/-- Make the nodes of a forest; the memory and the last sibling afterwards. -/
def build (heap : Heap) (parent : NodeId) (prev : Ptr) : Forest → Heap × Ptr
  | .nil => (heap, prev)
  | .text content flags next =>
      build (addText heap parent prev content flags) parent (some heap.size) next
  | .element name attributes children next =>
      let tagged := buildAttributes (addElement heap parent prev name) heap.size attributes
      let filled := (build tagged heap.size none children).1
      build filled parent (some heap.size) next

/-! ## What building writes -/

section Building

variable {heap other : Heap} {parent : NodeId} {prev child : Ptr}

@[simp] theorem attach_size : (attach heap parent prev child).size = heap.size := by
  cases child with
  | none => rfl
  | some child => cases prev <;> rfl

/-- Attaching writes one node: the last sibling, or else the parent. -/
theorem attach_get_of_ne {i : NodeId} (different : i ≠ prev.getD parent) :
    (attach heap parent prev child).get i = heap.get i := by
  cases child with
  | none => rfl
  | some child =>
      cases prev <;>
      · simp only [attach]
        exact Arena.modify_get_of_ne _ _ different

theorem attach_get_congr {i : NodeId} (same : other.get i = heap.get i) :
    (attach other parent prev child).get i = (attach heap parent prev child).get i := by
  by_cases here : i = prev.getD parent
  · subst here
    cases child with
    | none => exact same
    | some child =>
        cases prev with
        | none =>
            simp only [attach, Option.getD_none, Arena.modify_get_same] at same ⊢
            rw [same]
        | some sibling =>
            simp only [attach, Option.getD_some, Arena.modify_get_same] at same ⊢
            rw [same]
  · rw [attach_get_of_ne here, attach_get_of_ne here, same]

/-- Hanging a node writes that node and attaches it. -/
theorem hang_get_of_ne {current i : NodeId} (different : i ≠ current) :
    (hang heap parent prev current).get i = (attach heap parent prev (some current)).get i :=
  attach_get_congr (Arena.modify_get_of_ne _ _ different)

theorem hang_get_same {current : NodeId} (fresh : current ≠ prev.getD parent) :
    (hang heap parent prev current).get current =
      { heap.get current with prev := prev, parent := some parent, next := none } := by
  rw [hang, attach_get_of_ne fresh, Arena.modify_get_same]

theorem addElement_size (heap : Heap) (parent : NodeId) (prev : Ptr) (name : Bytes) :
    (addElement heap parent prev name).size = heap.size + 1 := by
  simp only [addElement, hang, attach_size]
  rfl

theorem addElement_get_same (parent : NodeId) (name : Bytes) (old : prev.getD parent < heap.size) :
    (addElement heap parent prev name).get heap.size =
      { type := .element, name := some name, parent := some parent, prev := prev,
        uid := some heap.size } := by
  rw [addElement, hang_get_same (Nat.ne_of_gt old), xmlNewNode, Arena.alloc_get_same]

theorem addElement_get_of_lt (heap : Heap) (parent : NodeId) (prev : Ptr) (name : Bytes)
    {i : NodeId} (before : i < heap.size) :
    (addElement heap parent prev name).get i =
      (attach heap parent prev (some heap.size)).get i := by
  rw [addElement, hang_get_of_ne (Nat.ne_of_lt before)]
  exact attach_get_congr (Arena.alloc_get_of_lt _ _ before)

theorem addText_size (heap : Heap) (parent : NodeId) (prev : Ptr) (content : Bytes)
    (flags : Nat) :
    (addText heap parent prev content flags).size = heap.size + 1 := by
  simp only [addText, hang, attach_size]
  rfl

theorem addText_get_same (parent : NodeId) (content : Bytes) (flags : Nat)
    (old : prev.getD parent < heap.size) :
    (addText heap parent prev content flags).get heap.size =
      { type := .text, content := some content, flags := flags, parent := some parent,
        prev := prev, uid := some heap.size } := by
  rw [addText, hang_get_same (Nat.ne_of_gt old), Arena.modify_get_same, xmlNewNode,
    Arena.alloc_get_same]

theorem addText_get_of_lt (heap : Heap) (parent : NodeId) (prev : Ptr) (content : Bytes)
    (flags : Nat) {i : NodeId} (before : i < heap.size) :
    (addText heap parent prev content flags).get i =
      (attach heap parent prev (some heap.size)).get i := by
  rw [addText, hang_get_of_ne (Nat.ne_of_lt before)]
  refine attach_get_congr ?_
  rw [Arena.modify_get_of_ne _ _ (Nat.ne_of_lt before)]
  exact Arena.alloc_get_of_lt _ _ before

/-- A last sibling without a successor gets one. -/
theorem attach_get_sibling {sibling : NodeId} (last : (heap.get sibling).next = none) :
    (attach heap parent (some sibling) child).get sibling =
      { heap.get sibling with next := child } := by
  cases child with
  | none => simp only [attach, ← last]
  | some child => simp only [attach, Arena.modify_get_same]

/-- A parent without children gets its first one. -/
theorem attach_get_parent (bare : (heap.get parent).children = none) :
    (attach heap parent none child).get parent = { heap.get parent with children := child } := by
  cases child with
  | none => simp only [attach, ← bare]
  | some child => simp only [attach, Arena.modify_get_same]

/-- What making the attributes of an element does to the memory. -/
structure Tagged (heap after : Heap) (element : Nat) (attributes : List (Bytes × Bytes)) :
    Prop where
  size : after.size = heap.size + attributes.length
  owner : after.get element =
    { heap.get element with attributes := attributeEntry heap.size attributes }
  others : ∀ i < heap.size, i ≠ element → after.get i = heap.get i
  laid : LaidAttributes after element heap.size attributes

theorem Tagged.nil {element : Nat} (bare : (heap.get element).attributes = none) :
    Tagged heap heap element [] := by
  refine ⟨rfl, ?_, fun _ _ _ => rfl, trivial⟩
  simp only [attributeEntry, ← bare]

/-- The memory after one attribute with its value is put in front. -/
theorem addAttribute_get {element : Nat} (old : element < heap.size) (name value : Bytes)
    (i : Nat) :
    (setContent (addAttribute heap element name) heap.size value).get i =
      if i = heap.size then
        { type := .attribute, name := some name, content := some value, parent := some element,
          next := (heap.get element).attributes, uid := some heap.size }
      else if i = element then { heap.get element with attributes := some heap.size }
      else heap.get i := by
  have apart : element ≠ heap.size := Nat.ne_of_lt old
  have owned : ∀ node : XmlNode, (heap.alloc node).get element = heap.get element :=
    fun node => Arena.alloc_get_of_ne heap node apart
  simp only [setContent, addAttribute, xmlNewNode, Arena.modify_get, if_neg apart,
    if_neg apart.symm, if_true, owned, Arena.alloc_get_same]
  split
  · rfl
  · rename_i notNew
    split
    · rfl
    · exact Arena.alloc_get_of_ne _ _ notNew

/-- One more attribute in front of those there are. -/
theorem Tagged.cons {after : Heap} {element : Nat} {attributes : List (Bytes × Bytes)}
    (tagged : Tagged heap after element attributes) (old : element < heap.size)
    (name value : Bytes) :
    Tagged heap (setContent (addAttribute after element name) after.size value) element
      ((name, value) :: attributes) := by
  have grown := tagged.size
  have old : element < after.size := by omega
  have get := addAttribute_get old name value
  refine ⟨?_, ?_, fun i before different => ?_, ?_, ?_⟩
  · show after.size + 1 = _
    rw [grown, List.length_cons, Nat.add_assoc]
  · rw [get, if_neg (by omega), if_pos rfl, tagged.owner, attributeEntry, grown]
  · rw [get, if_neg (by omega), if_neg different, tagged.others i before different]
  · rw [← grown, get, if_pos rfl, tagged.owner]
  · refine tagged.laid.congr fun i low high => ?_
    rw [get, if_neg (by omega), if_neg (by omega)]

theorem buildAttributes_tagged {element : Nat} (old : element < heap.size)
    (bare : (heap.get element).attributes = none) (attributes : List (Bytes × Bytes)) :
    Tagged heap (buildAttributes heap element attributes) element attributes := by
  induction attributes with
  | nil => exact .nil bare
  | cons attr rest inductionHypothesis => exact inductionHypothesis.cons old attr.1 attr.2

/-- What building a forest does to the memory. -/
structure Built (heap after : Heap) (parent : NodeId) (prev : Ptr) (forest : Forest) : Prop where
  size : after.size = heap.size + forest.size
  others : ∀ i < heap.size,
    after.get i = (attach heap parent prev (entry heap.size forest)).get i
  laid : Laid after heap.size parent prev forest

theorem build_built (forest : Forest) {heap : Heap} {parent : NodeId} {prev : Ptr}
    (old : prev.getD parent < heap.size) :
    Built heap (build heap parent prev forest).1 parent prev forest := by
  induction forest generalizing heap parent prev with
  | nil => exact ⟨rfl, fun _ _ => rfl, trivial⟩
  | text content flags next inductionHypothesis =>
      have made := addText_get_same parent content flags old
      have size := addText_size heap parent prev content flags
      have others := fun i => addText_get_of_lt heap parent prev content flags (i := i)
      simp only [build]
      generalize addText heap parent prev content flags = first at made size others
      have inside : (some heap.size).getD parent < first.size := size ▸ Nat.lt_succ_self _
      have later : Built first _ parent (some heap.size) next := inductionHypothesis inside
      refine ⟨?_, fun i before => ?_, ?_, size ▸ later.laid⟩
      · rw [later.size, size, Forest.size, Nat.add_assoc]
      · rw [later.others i (by omega), attach_get_of_ne (Nat.ne_of_lt before)]
        exact others i before
      · rw [later.others heap.size (by omega), attach_get_sibling (by rw [made]), made, size]
  | element name attributes children next childrenHypothesis nextHypothesis =>
      have made := addElement_get_same parent name old
      have size := addElement_size heap parent prev name
      have others := fun i => addElement_get_of_lt heap parent prev name (i := i)
      simp only [build]
      generalize addElement heap parent prev name = first at made size others
      have tagged := buildAttributes_tagged (size ▸ Nat.lt_succ_self _ : heap.size < first.size)
        (by rw [made]) attributes
      generalize buildAttributes first heap.size attributes = second at tagged
      have taggedSize := tagged.size
      have insideSecond : (none : Ptr).getD heap.size < second.size := by
        show heap.size < second.size
        omega
      have filled := childrenHypothesis insideSecond
      generalize (build second heap.size none children).1 = third at filled
      have filledSize := filled.size
      have insideThird : (some heap.size).getD parent < third.size := by
        show heap.size < third.size
        omega
      have later : Built third _ parent (some heap.size) next := nextHypothesis insideThird
      generalize (build third parent (some heap.size) next).1 = last at later
      have sinceThird : ∀ i < third.size, i ≠ heap.size → last.get i = third.get i :=
        fun i before different => (later.others i before).trans (attach_get_of_ne different)
      have sinceSecond : ∀ i < second.size, i ≠ heap.size → third.get i = second.get i :=
        fun i before different => (filled.others i before).trans (attach_get_of_ne different)
      have atThird : third.get heap.size =
          { second.get heap.size with children := entry second.size children } := by
        rw [filled.others heap.size (by omega), attach_get_parent]
        rw [tagged.owner, made]
      refine ⟨?_, fun i before => ?_, ?_, ?_, ?_, ?_⟩
      · rw [later.size, filledSize, taggedSize, size, Forest.size]
        omega
      · rw [sinceThird i (by omega) (by omega), sinceSecond i (by omega) (by omega),
          tagged.others i (by omega) (by omega)]
        exact others i before
      · rw [later.others heap.size (by omega), attach_get_sibling, atThird, tagged.owner, made,
          filledSize, taggedSize, size]
        rw [atThird, tagged.owner, made]
      · rw [← size]
        refine tagged.laid.congr fun i low high => ?_
        rw [sinceThird i (by omega) (by omega), sinceSecond i (by omega) (by omega)]
      · rw [← size, ← taggedSize]
        exact filled.laid.congr fun i low high => sinceThird i (by omega) (by omega)
      · rw [← size, ← taggedSize, ← filledSize]
        exact later.laid

end Building

end Forest
end TurboXSL
