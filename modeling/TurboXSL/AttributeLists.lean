import TurboXSL.Library.LastWrite
import TurboXSL.LocalVariables

namespace TurboXSL

open Library Output

/-!
# Attributes of result elements

`xsl:attribute`, `xsl:copy` of an attribute and `xsl:copy-of` of attributes
find the element and change its list of attributes each in its own way.  What
keeps one attribute for every name, with the value written last, is said for
each of them about the list before.
-/

abbrev Entry := Option Bytes × Option Bytes

def entryOf (heap : Heap) (attr : NodeId) : Entry :=
  ((heap.get attr).name, (heap.get attr).content)

/-- The attributes of an element with their values. -/
def attributeTable (heap : Heap) (element : NodeId) : List Entry :=
  ((siblings heap (heap.get element).attributes).getD []).map (entryOf heap)

/-- The node is the element, or a placeholder so deep below it. -/
inductive HangsFrom (heap : Heap) (element : NodeId) : Nat → NodeId → Prop where
  | self (type : (heap.get element).type = .element) : HangsFrom heap element 0 element
  | placeholder {depth : Nat} {node parent : NodeId} (type : (heap.get node).type = .empty)
      (inside : node < heap.size) (link : (heap.get node).parent = some parent)
      (above : HangsFrom heap element depth parent) : HangsFrom heap element (depth + 1) node

/-! ## Additions -/

/-- What the instructions do to the attributes, each with its result node. -/
inductive Addition where
  | ofAttribute (result : NodeId) (name : Option Bytes) (value : Bytes)
  | ofCopy (result documentNode : NodeId)
  | ofCopyOf (result src : NodeId)

def Addition.result : Addition → NodeId
  | .ofAttribute result _ _ => result
  | .ofCopy result _ => result
  | .ofCopyOf result _ => result

def Addition.perform (heap : Heap) : Addition → Option Heap
  | .ofAttribute result name value => setAttribute result name value heap
  | .ofCopy result documentNode => some (copyAttributeNode result documentNode heap)
  | .ofCopyOf result src => some (moveAttribute result src heap)

/-- The name and the value that are added. -/
def Addition.entry (heap : Heap) : Addition → Entry
  | .ofAttribute _ name value => (name, some (untilNul (skipSpaces value)))
  | .ofCopy _ documentNode => entryOf heap documentNode
  | .ofCopyOf _ src => entryOf heap src

/-- The addition is one to this element; `xsl:copy-of` has copies of attributes
in its hands, never those of the element itself. -/
structure Addition.Fits (heap : Heap) (element : NodeId) (addition : Addition) : Prop where
  below : Exists fun depth => HangsFrom heap element depth addition.result
  reads : ∀ result documentNode, addition = .ofCopy result documentNode →
    documentNode < heap.size
  source : ∀ result src, addition = .ofCopyOf result src →
    src < heap.size ∧ src ≠ element ∧
      ∀ attributes, siblings heap (heap.get element).attributes = some attributes →
        src ∉ attributes

/-- The list before the addition is one with which it is done right. -/
def Addition.Harmless (heap : Heap) (element : NodeId) (addition : Addition) : Prop :=
  match addition with
  | .ofAttribute _ _ _ => True
  | .ofCopy result _ =>
      if result = element ∨ (heap.get result).parent = some element then
        ∀ first rest, attributeTable heap element = first :: rest →
          first.1 ≠ (addition.entry heap).1 ∧ ∀ other ∈ rest, other.1 = (addition.entry heap).1
      else addition.entry heap ∈ attributeTable heap element
  | .ofCopyOf result _ =>
      if result = element then
        (addition.entry heap).1 ∉ (attributeTable heap element).map Prod.fst
      else addition.entry heap ∈ attributeTable heap element

/-! ## Owners -/

section Owners

variable {heap : Heap} {element : NodeId} {attributes : List NodeId}

theorem HangsFrom.type_of_zero {node : NodeId} (below : HangsFrom heap element 0 node) :
    node = element := by
  cases below
  rfl

/-- Placeholders are not the element. -/
theorem HangsFrom.type {depth : Nat} {node : NodeId} (below : HangsFrom heap element depth node) :
    (heap.get element).type = .element := by
  induction below with
  | self type => exact type
  | placeholder _ _ _ _ inductionHypothesis => exact inductionHypothesis

theorem HangsFrom.ne {depth : Nat} {node : NodeId} (below : HangsFrom heap element (depth + 1) node) :
    node ≠ element := by
  rintro rfl
  have element_ := below.type
  cases below with
  | placeholder type _ _ _ => cases type.symm.trans element_

/-- The way up from a node below the element, with the element at its end. -/
theorem HangsFrom.chain {depth : Nat} {node : NodeId} (below : HangsFrom heap element depth node)
    (present : element < heap.size) :
    Exists fun path => path.length = depth + 1 ∧ (∀ n ∈ path, n < heap.size) ∧
      Chain (fun n => if (heap.get n).type = .empty then (heap.get n).parent else none)
        (some node) path := by
  induction below with
  | self type =>
      refine ⟨[element], rfl, ?_, ?_⟩
      · intro n member
        rwa [List.mem_singleton.mp member]
      · apply Chain.cons
        rw [type, if_neg nofun]
        exact .nil
  | placeholder type inside link above inductionHypothesis =>
      rename_i depth node parent
      rcases inductionHypothesis with ⟨path, length, bound, chain⟩
      refine ⟨node :: path, congrArg Nat.succ length, ?_, ?_⟩
      · intro n member
        rcases List.mem_cons.mp member with rfl | member
        · exact inside
        · exact bound n member
      · apply Chain.cons
        rw [if_pos type, link]
        exact chain

theorem attributeOwner_below {depth fuel : Nat} {node : NodeId}
    (below : HangsFrom heap element depth node) (enough : depth + 1 ≤ fuel) :
    attributeOwner heap fuel (some node) = some (some element) := by
  induction below generalizing fuel with
  | self type =>
      cases fuel with
      | zero => cases enough
      | succ fuel => rw [attributeOwner, type, if_neg nofun]
  | placeholder type _ link _ inductionHypothesis =>
      cases fuel with
      | zero => cases enough
      | succ fuel =>
          rw [attributeOwner, if_pos type, link]
          exact inductionHypothesis (Nat.le_of_succ_le_succ enough)

/-- `xsl:attribute` finds the element at any depth. -/
theorem HangsFrom.owner {depth : Nat} {node : NodeId} (below : HangsFrom heap element depth node)
    (present : element < heap.size) :
    attributeOwner heap heap.size (some node) = some (some element) := by
  rcases below.chain present with ⟨path, length, bound, chain⟩
  apply attributeOwner_below below
  have subset : path ⊆ List.range heap.size := fun n member => List.mem_range.mpr (bound n member)
  have short := (chain.nodup.subperm subset).length_le
  rwa [List.length_range, length] at short

theorem Owns.table (owned : Owns heap element attributes) :
    attributeTable heap element = attributes.map (entryOf heap) := by
  rw [attributeTable, owned.listed]
  rfl

end Owners

/-! ## Lists that stay or grow -/

/-- The element has the list of attributes that the table shows. -/
structure HasTable (heap : Heap) (element : NodeId) (table : List Entry) : Prop where
  type : (heap.get element).type = .element
  present : element < heap.size
  listed : Exists fun attributes =>
    Owns heap element attributes ∧ attributes.map (entryOf heap) = table

section Tables

variable {heap after : Heap} {element : NodeId} {attributes : List NodeId} {entry : Entry}

theorem HasTable.table {table : List Entry} (hasTable : HasTable heap element table) :
    attributeTable heap element = table := by
  rcases hasTable.listed with ⟨attributes, owned, same⟩
  rw [owned.table, same]

theorem Owns.hasTable (owned : Owns heap element attributes)
    (type : (heap.get element).type = .element) :
    HasTable heap element (attributes.map (entryOf heap)) :=
  ⟨type, owned.present, attributes, owned, rfl⟩

/-- The list of the element is as it was. -/
theorem Owns.still (owned : Owns heap element attributes) (grows : heap.size ≤ after.size)
    (head : (after.get element).attributes = (heap.get element).attributes)
    (type : (after.get element).type = .element)
    (same : ∀ attr ∈ attributes, (after.get attr).next = (heap.get attr).next ∧
      entryOf after attr = entryOf heap attr) :
    HasTable after element (attributes.map (entryOf heap)) := by
  have kept := owned.keep grows head fun attr member => (same attr member).1
  refine ⟨type, kept.present, attributes, kept, ?_⟩
  exact List.map_congr_left fun attr member => (same attr member).2

/-- A new attribute is the first. -/
theorem Owns.gains (owned : Owns heap element attributes) (grows : heap.size < after.size)
    (head : (after.get element).attributes = some heap.size)
    (type : (after.get element).type = .element)
    (new : (after.get heap.size).next = (heap.get element).attributes)
    (first : entryOf after heap.size = entry)
    (same : ∀ attr ∈ attributes, (after.get attr).next = (heap.get attr).next ∧
      entryOf after attr = entryOf heap attr) :
    HasTable after element (entry :: attributes.map (entryOf heap)) := by
  have longer := owned.cons grows head new fun attr member => (same attr member).1
  refine ⟨type, longer.present, _, longer, ?_⟩
  rw [List.map_cons, first]
  exact congrArg _ (List.map_congr_left fun attr member => (same attr member).2)

end Tables

/-- A new attribute is filled in and becomes the first of an element. -/
def prepended (heap : Heap) (element : NodeId) (fill : XmlNode → XmlNode) : Heap :=
  ((xmlNewNode heap none .attribute).1.modify heap.size fill).modify element fun cell =>
    { cell with attributes := some heap.size }

theorem prepended_get {heap : Heap} {element : NodeId} (present : element < heap.size)
    (fill : XmlNode → XmlNode) :
    (prepended heap element fill).get heap.size =
        fill { type := .attribute, uid := some heap.size } ∧
      (prepended heap element fill).get element =
        { heap.get element with attributes := some heap.size } ∧
      ∀ i < heap.size, i ≠ element → (prepended heap element fill).get i = heap.get i := by
  unfold prepended xmlNewNode
  have new : heap.size ≠ element := Nat.ne_of_gt present
  refine ⟨?_, ?_, fun i inside other => ?_⟩
  · rw [Arena.modify_get_of_ne _ _ new, Arena.modify_get_same, Arena.alloc_get_same]
  · rw [Arena.modify_get_same, Arena.modify_get_of_ne _ _ new.symm,
      Arena.alloc_get_of_lt _ _ present]
  · rw [Arena.modify_get_of_ne _ _ other, Arena.modify_get_of_ne _ _ (Nat.ne_of_lt inside),
      Arena.alloc_get_of_lt _ _ inside]

/-! ## One addition -/

section Steps

variable {heap after : Heap} {element : NodeId} {attributes : List NodeId}
  (owned : Owns heap element attributes) (type : (heap.get element).type = .element)

include owned type

/-- `xsl:attribute` -/
theorem setAttribute_table {result : NodeId} {name : Option Bytes} {value : Bytes} {depth : Nat}
    (below : HangsFrom heap element depth result)
    (once : ((attributes.map (entryOf heap)).map Prod.fst).Nodup)
    (done : setAttribute result name value heap = some after) :
    name ∈ (attributes.map (entryOf heap)).map Prod.fst ∧
        HasTable after element ((attributes.map (entryOf heap)).map fun entry =>
          if entry.1 = name then (name, some (untilNul (skipSpaces value))) else entry) ∨
      name ∉ (attributes.map (entryOf heap)).map Prod.fst ∧
        HasTable after element
          ((name, some (untilNul (skipSpaces value))) :: attributes.map (entryOf heap)) := by
  unfold setAttribute at done
  rw [below.owner owned.present] at done
  change (siblings heap (heap.get element).attributes).bind _ = _ at done
  rw [owned.listed, Option.bind_some] at done
  dsimp only at done
  cases found : attributes.find? fun attr => decide (xmlsEquals (heap.get attr).name name) with
  | some tmp =>
      have member := List.mem_of_find?_eq_some found
      have hit := List.find?_some found
      have named : (heap.get tmp).name = name := of_decide_eq_true hit
      rw [found] at done
      cases done
      have changed : ∀ attr, (heap.modify tmp fun cell => { cell with
          content := some (untilNul (skipSpaces value)) }).get attr =
            if attr = tmp then { heap.get tmp with
              content := some (untilNul (skipSpaces value)) } else heap.get attr :=
        fun attr => Arena.modify_get heap tmp attr _
      refine .inl ⟨?_, ?_⟩
      · exact List.mem_map.mpr ⟨entryOf heap tmp, List.mem_map_of_mem member, named⟩
      · have kept : Owns (heap.modify tmp fun cell => { cell with
            content := some (untilNul (skipSpaces value)) }) element attributes := by
          refine owned.keep (Nat.le_refl _) ?_ fun attr _ => ?_
          · rw [changed, if_neg (owned.ne member).symm]
          · rw [changed]
            split
            next same => rw [same]
            next => rfl
        refine ⟨?_, kept.present, attributes, kept, ?_⟩
        · rw [changed, if_neg (owned.ne member).symm, type]
        · rw [List.map_map]
          apply List.map_congr_left
          intro attr here
          by_cases same : attr = tmp
          · have here_ : (entryOf heap attr).1 = name := same ▸ named
            rw [entryOf, changed, if_pos same]
            refine Eq.trans ?_ (if_pos here_).symm
            exact congrArg (fun n => (n, some (untilNul (skipSpaces value)))) named
          · have other : (entryOf heap attr).1 ≠ name := by
              intro alike
              rw [List.map_map] at once
              exact same (List.inj_on_of_nodup_map once here member (alike.trans named.symm))
            rw [entryOf, changed, if_neg same]
            exact (if_neg other).symm
  | none =>
      rw [found] at done
      cases done
      rcases prepended_get owned.present (fun cell => { cell with
        name := name, next := ((xmlNewNode heap none .attribute).1.get element).attributes,
        flags := xmlFlagNoescape, content := some (untilNul (skipSpaces value)) }) with
        ⟨new, head, old⟩
      refine .inr ⟨?_, owned.gains (Nat.lt_succ_self _) ?_ ?_ ?_ ?_ fun attr member => ?_⟩
      · intro member
        rcases List.mem_map.mp member with ⟨entry, listed, named⟩
        rcases List.mem_map.mp listed with ⟨attr, inside, rfl⟩
        exact List.find?_eq_none.mp found attr inside (decide_eq_true named)
      · exact congrArg XmlNode.attributes head
      · exact (congrArg XmlNode.type head).trans type
      · refine (congrArg XmlNode.next new).trans ?_
        exact congrArg XmlNode.attributes (Arena.alloc_get_of_lt _ _ owned.present)
      · exact congrArg (fun cell : XmlNode => (cell.name, cell.content)) new
      · have same := old attr (owned.inside attr member) (owned.ne member)
        exact ⟨congrArg XmlNode.next same,
          congrArg (fun cell : XmlNode => (cell.name, cell.content)) same⟩

/-- A new node put behind the first attribute of an element, or in its place. -/
def behindFirst (element new : NodeId) (middle : Heap) : Heap :=
  match (middle.get element).attributes with
  | none => middle.modify element fun cell => { cell with attributes := some new }
  | some first => setNext middle (some first) (some new)

/-- `xsl:copy` of an attribute, in the element or right below it. -/
theorem copyAttributeNode_table {result documentNode : NodeId}
    (near : (if (heap.get result).type = .empty then (heap.get result).parent else some result) =
      some element) (reads : documentNode < heap.size) :
    HasTable (copyAttributeNode result documentNode heap) element
      (match attributes.map (entryOf heap) with
        | [] => [entryOf heap documentNode]
        | first :: _ => [first, entryOf heap documentNode]) := by
  have read : (xmlNewNode heap (heap.get documentNode).name .attribute).1.get documentNode =
      heap.get documentNode := Arena.alloc_get_of_lt _ _ reads
  let filled : XmlNode := {
    type := .attribute, uid := some heap.size
    name := (heap.get documentNode).name, content := (heap.get documentNode).content }
  have made : (xmlNewNode heap (heap.get documentNode).name .attribute).1.modify heap.size
      (fun cell => { cell with content :=
        ((xmlNewNode heap (heap.get documentNode).name .attribute).1.get documentNode).content }) =
        heap.alloc filled := by
    rw [read, xmlNewNode, Arena.modify_alloc]
  let hang : Heap → Heap := behindFirst element heap.size
  have copied : copyAttributeNode result documentNode heap = hang (heap.alloc filled) := by
    unfold copyAttributeNode
    dsimp only
    rw [near]
    dsimp only
    rw [if_pos type, ← made]
    rfl
  have owner : (heap.alloc filled).get element = heap.get element :=
    Arena.alloc_get_of_lt _ _ owned.present
  have chain := (follow_eq_some_iff.mp owned.listed).1
  rw [copied]
  cases attributes with
  | nil =>
      have bare : (heap.get element).attributes = none := chain.start_eq
      have hung : hang (heap.alloc filled) = prepended heap element fun _ => filled := by
        rw [prepended, xmlNewNode, Arena.modify_alloc]
        dsimp only [hang]
        rw [behindFirst, owner, bare]
      rcases prepended_get owned.present (fun _ => filled) with ⟨new, head, -⟩
      rw [hung]
      refine owned.gains (Nat.lt_succ_self _) ?_ ?_ ?_ ?_ (List.forall_mem_nil _)
      · exact congrArg XmlNode.attributes head
      · exact (congrArg XmlNode.type head).trans type
      · exact (congrArg XmlNode.next new).trans bare.symm
      · exact (congrArg (fun cell : XmlNode => (cell.name, cell.content)) new).trans rfl
  | cons first rest =>
      have head : (heap.get element).attributes = some first := chain.start_eq
      have small := owned.inside first List.mem_cons_self
      have apart := owned.ne (List.mem_cons_self (a := first) (l := rest))
      have hung : hang (heap.alloc filled) = (heap.alloc filled).modify first
          fun cell => { cell with next := some heap.size } := by
        dsimp only [hang]
        rw [behindFirst, owner, head]
        rfl
      have last : (hang (heap.alloc filled)).get heap.size = filled := by
        rw [hung, Arena.modify_get_of_ne _ _ (Nat.ne_of_gt small), Arena.alloc_get_same]
      have front : (hang (heap.alloc filled)).get first =
          { heap.get first with next := some heap.size } := by
        rw [hung, Arena.modify_get_same, Arena.alloc_get_of_lt _ _ small]
      have above : (hang (heap.alloc filled)).get element = heap.get element := by
        rw [hung, Arena.modify_get_of_ne _ _ apart.symm, owner]
      have inside : ∀ attr ∈ [first, heap.size], attr < (hang (heap.alloc filled)).size := by
        intro attr member
        rw [hung, Arena.modify_size, Arena.alloc_size]
        rcases List.mem_pair.mp member with rfl | rfl
        · exact Nat.lt_succ_of_lt small
        · exact Nat.lt_succ_self _
      have present : element < (hang (heap.alloc filled)).size := by
        rw [hung]
        exact Nat.lt_succ_of_lt owned.present
      refine ⟨(congrArg XmlNode.type above).trans type, present, [first, heap.size],
        ⟨siblings_of_chain ?_ inside, present, inside, ?_⟩, ?_⟩
      · rw [above, head]
        apply Chain.cons
        rw [front]
        apply Chain.cons
        rw [last]
        exact .nil
      · intro member
        rcases List.mem_pair.mp member with same | same
        · exact apart same.symm
        · exact Nat.ne_of_lt owned.present same
      · rw [List.map_cons, List.map_cons, List.map_nil, entryOf, entryOf, front, last]
        rfl

/-- `xsl:copy-of` of an attribute, in the element. -/
theorem moveAttribute_table {src : NodeId} (inside : src < heap.size) (other : src ≠ element)
    (source : src ∉ attributes) :
    HasTable (moveAttribute element src heap) element
      (entryOf heap src :: attributes.map (entryOf heap)) := by
  have named : (xmlNewNode heap none .attribute).1.get src = heap.get src :=
    Arena.alloc_get_of_lt _ _ inside
  let fill : XmlNode → XmlNode := fun cell => { cell with
    name := ((xmlNewNode heap none .attribute).1.get src).name,
    next := ((xmlNewNode heap none .attribute).1.get element).attributes,
    content := ((xmlNewNode heap none .attribute).1.get src).content }
  have moved : moveAttribute element src heap = (prepended heap element fill).modify src
      fun cell => { cell with content := none } := rfl
  rcases prepended_get owned.present fill with ⟨new, head, old⟩
  have kept : ∀ i, i ≠ src → (moveAttribute element src heap).get i =
      (prepended heap element fill).get i := fun i apart =>
    moved ▸ Arena.modify_get_of_ne _ _ apart
  refine owned.gains (Nat.lt_succ_self _) ?_ ?_ ?_ ?_ fun attr member => ?_
  · rw [kept element other.symm]
    exact congrArg XmlNode.attributes head
  · rw [kept element other.symm]
    exact (congrArg XmlNode.type head).trans type
  · rw [kept heap.size (Nat.ne_of_gt inside)]
    refine (congrArg XmlNode.next new).trans ?_
    exact congrArg XmlNode.attributes (Arena.alloc_get_of_lt _ _ owned.present)
  · rw [entryOf, kept heap.size (Nat.ne_of_gt inside)]
    refine (congrArg (fun cell : XmlNode => (cell.name, cell.content)) new).trans ?_
    change (((xmlNewNode heap none .attribute).1.get src).name,
      ((xmlNewNode heap none .attribute).1.get src).content) = _
    rw [named]
    rfl
  · have apart : attr ≠ src := fun same => source (same ▸ member)
    have same := old attr (owned.inside attr member) (owned.ne member)
    rw [entryOf, kept attr apart]
    exact ⟨congrArg XmlNode.next same,
      congrArg (fun cell : XmlNode => (cell.name, cell.content)) same⟩

/-- `xsl:copy-of` of an attribute, in a placeholder: it is hung there. -/
theorem moveAttribute_elsewhere {result src : NodeId} (there : result < heap.size)
    (apart : result ≠ element) (other : src ≠ element) (source : src ∉ attributes) :
    HasTable (moveAttribute result src heap) element (attributes.map (entryOf heap)) := by
  let fill : XmlNode → XmlNode := fun cell => { cell with
    name := ((xmlNewNode heap none .attribute).1.get src).name,
    next := ((xmlNewNode heap none .attribute).1.get result).attributes,
    content := ((xmlNewNode heap none .attribute).1.get src).content }
  have moved : moveAttribute result src heap = (prepended heap result fill).modify src
      fun cell => { cell with content := none } := rfl
  rcases prepended_get there fill with ⟨-, head, old⟩
  have kept : ∀ i, i ≠ src → (moveAttribute result src heap).get i =
      (prepended heap result fill).get i := fun i apart =>
    moved ▸ Arena.modify_get_of_ne _ _ apart
  have above : (moveAttribute result src heap).get element = heap.get element := by
    rw [kept element other.symm, old element owned.present apart.symm]
  refine owned.still (Nat.le_succ _) (congrArg XmlNode.attributes above)
    ((congrArg XmlNode.type above).trans type) fun attr member => ?_
  have distinct : attr ≠ src := fun same => source (same ▸ member)
  rw [entryOf, kept attr distinct]
  by_cases here : attr = result
  · rw [here, head]
    exact ⟨rfl, rfl⟩
  · rw [old attr (owned.inside attr member) here]
    exact ⟨rfl, rfl⟩

end Steps

/-- `xsl:copy` of an attribute, deeper than right below the element: it is lost. -/
theorem copyAttributeNode_deep {heap : Heap} {element result : NodeId} {depth : Nat}
    (below : HangsFrom heap element (depth + 2) result) (documentNode : NodeId) :
    copyAttributeNode result documentNode heap = heap := by
  cases below with
  | placeholder type _ link above =>
      cases above with
      | placeholder type' _ _ _ =>
          unfold copyAttributeNode
          dsimp only
          rw [if_pos type, link]
          dsimp only
          rw [type', if_neg nofun]

/-- The node that `xsl:copy` finds is the element as long as it is near. -/
theorem HangsFrom.near_iff {heap : Heap} {element result : NodeId} {depth : Nat}
    (below : HangsFrom heap element depth result) :
    (result = element ∨ (heap.get result).parent = some element) ↔ depth < 2 := by
  cases below with
  | self type => exact ⟨fun _ => Nat.zero_lt_two, fun _ => .inl rfl⟩
  | placeholder type inside link above =>
      rename_i depth parent
      have apart := (HangsFrom.placeholder type inside link above).ne
      cases depth with
      | zero =>
          rw [above.type_of_zero] at link
          exact ⟨fun _ => Nat.one_lt_two, fun _ => .inr link⟩
      | succ depth =>
          constructor
          · rintro (same | near)
            · exact absurd same apart
            · exact absurd (Option.some.inj (link.symm.trans near)) above.ne
          · intro small
            omega

theorem HangsFrom.near {heap : Heap} {element result : NodeId} {depth : Nat}
    (below : HangsFrom heap element depth result) (few : depth < 2) :
    (if (heap.get result).type = .empty then (heap.get result).parent else some result) =
      some element := by
  cases below with
  | self type => rw [type, if_neg nofun]
  | placeholder type _ link above =>
      cases above with
      | self _ => rw [if_pos type, link]
      | placeholder _ _ _ _ => omega

/-- The node from which the element is found is in memory. -/
theorem HangsFrom.inside {heap : Heap} {element result : NodeId} {depth : Nat}
    (below : HangsFrom heap element depth result) (present : element < heap.size) :
    result < heap.size := by
  cases below with
  | self => exact present
  | placeholder _ inside _ _ => exact inside

/-- One addition keeps the table right exactly if it is harmless. -/
theorem Addition.step {heap after : Heap} {element : NodeId} {table writes : List Entry}
    (hasTable : HasTable heap element table) (kept : Accumulated table writes) {addition : Addition}
    (fits : addition.Fits heap element) (done : addition.perform heap = some after) :
    Exists fun now => HasTable after element now ∧
      (Accumulated now (writes ++ [addition.entry heap]) ↔ addition.Harmless heap element) := by
  have whole := hasTable.table
  rcases hasTable with ⟨type, present, attributes, owned, rfl⟩
  rcases fits with ⟨⟨depth, below⟩, reads, source⟩
  cases addition with
  | ofAttribute result name value =>
      rcases setAttribute_table owned type below kept.once done with
        ⟨old, hasTable⟩ | ⟨new, hasTable⟩
      · exact ⟨_, hasTable, fun _ => trivial, fun _ => kept.replace _ _ old⟩
      · exact ⟨_, hasTable, fun _ => trivial, fun _ => (kept.cons_iff _ _).mpr new⟩
  | ofCopy result documentNode =>
      cases done
      have small := reads result documentNode rfl
      rw [Addition.Harmless, whole]
      by_cases near : result = element ∨ (heap.get result).parent = some element
      · have found := below.near (below.near_iff.mp near)
        refine ⟨_, copyAttributeNode_table owned type found small, ?_⟩
        rw [if_pos near]
        cases table : attributes.map (entryOf heap) with
        | nil =>
            rw [table] at kept
            exact ⟨fun _ => nofun, fun _ => (kept.cons_iff _ _).mpr nofun⟩
        | cons first rest =>
            rw [table] at kept
            refine (Accumulated.behind_first_iff _ _ kept).trans ?_
            refine ⟨?_, fun all => all first rest rfl⟩
            rintro right _ _ ⟨⟩
            exact right
      · have deep : 2 ≤ depth := Nat.le_of_not_lt fun few => near (below.near_iff.mpr few)
        rw [if_neg near]
        obtain ⟨more, rfl⟩ := Nat.exists_eq_add_of_le' deep
        refine ⟨_, ?_, kept.unchanged_iff _ _⟩
        have lost : copyAttributeNode result documentNode heap = heap :=
          copyAttributeNode_deep below documentNode
        rw [lost]
        exact owned.hasTable type
  | ofCopyOf result src =>
      cases done
      rcases source result src rfl with ⟨small, other, apart⟩
      have foreign := apart attributes owned.listed
      rw [Addition.Harmless, whole]
      by_cases here : result = element
      · rw [if_pos here]
        refine ⟨_, ?_, kept.cons_iff _ _⟩
        rw [here]
        exact moveAttribute_table owned type small other foreign
      · rw [if_neg here]
        exact ⟨_, moveAttribute_elsewhere owned type (below.inside present) here other foreign,
          kept.unchanged_iff _ _⟩

/-- A field that a change leaves alone. -/
theorem modify_field {Field : Type} (field : XmlNode → Field) {heap : Heap} {index : NodeId}
    {change : XmlNode → XmlNode} (leaves : ∀ cell, field (change cell) = field cell)
    (n : NodeId) : field ((heap.modify index change).get n) = field (heap.get n) := by
  by_cases same : n = index
  · rw [same, Arena.modify_get_same, leaves]
  · rw [Arena.modify_get_of_ne _ _ same]

/-- Moving an attribute leaves types and links of the nodes there were. -/
theorem moveAttribute_field {Field : Type} (field : XmlNode → Field)
    (contents : ∀ cell, field { cell with content := none } = field cell)
    (heads : ∀ cell first, field { cell with attributes := first } = field cell)
    (parent src : NodeId) {heap : Heap} {n : NodeId} (inside : n < heap.size) :
    field ((moveAttribute parent src heap).get n) = field (heap.get n) := by
  refine (modify_field field contents n).trans ?_
  refine (modify_field field (fun cell => heads cell _) n).trans ?_
  exact congrArg field ((Arena.modify_get_of_ne _ _ (Nat.ne_of_lt inside)).trans
    (Arena.alloc_get_of_lt _ _ inside))

/-- `xsl:copy-of` of attribute nodes moves one after the other. -/
theorem copyNodesToResult_attributes {Num : Type} [Double Num] (env : Env Num)
    (depth : Nat) (context parent : NodeId) {nodes : List NodeId} {heap : Heap} {start : Ptr}
    {fuel : Nat} (chain : Siblings heap start nodes)
    (attributes : ∀ n ∈ nodes, (heap.get n).type = .attribute)
    (inside : ∀ n ∈ nodes, n < heap.size) (enough : nodes.length ≤ fuel) :
    copyNodesToResult env depth context fuel parent start heap =
      some ([], nodes.foldl (fun heap src => moveAttribute parent src heap) heap) := by
  induction nodes generalizing heap start fuel with
  | nil =>
      cases chain
      cases fuel <;> rfl
  | cons src rest inductionHypothesis =>
      cases chain with
      | cons _ _ tail =>
          cases fuel with
          | zero => cases enough
          | succ fuel =>
              have links : ∀ n ∈ src :: rest, ((moveAttribute parent src heap).get n).next =
                  (heap.get n).next := fun n member =>
                moveAttribute_field XmlNode.next (fun _ => rfl) (fun _ _ => rfl) parent src
                  (inside n member)
              have types : ∀ n ∈ rest, ((moveAttribute parent src heap).get n).type =
                  .attribute := fun n member =>
                (moveAttribute_field XmlNode.type (fun _ => rfl) (fun _ _ => rfl) parent src
                  (inside n (List.mem_cons_of_mem _ member))).trans
                    (attributes n (List.mem_cons_of_mem _ member))
              have later := inductionHypothesis
                (tail.congr fun n member => links n (List.mem_cons_of_mem _ member)) types
                (fun n member => Nat.lt_succ_of_lt (inside n (List.mem_cons_of_mem _ member)))
                (Nat.le_of_succ_le_succ enough)
              rw [copyNodesToResult, if_pos (attributes src List.mem_cons_self)]
              change (copyNodesToResult env depth context fuel parent
                ((moveAttribute parent src heap).get src).next
                (moveAttribute parent src heap)).bind _ = _
              rw [links src List.mem_cons_self, later]
              rfl

/-! ## Runs -/

/-- Something else happens: the element and its attributes are as before. -/
structure LeftAlone (heap after : Heap) (element : NodeId) : Prop where
  grows : heap.size ≤ after.size
  head : (after.get element).attributes = (heap.get element).attributes
  type : (after.get element).type = (heap.get element).type
  same : ∀ attributes, siblings heap (heap.get element).attributes = some attributes →
    ∀ attr ∈ attributes, (after.get attr).next = (heap.get attr).next ∧
      entryOf after attr = entryOf heap attr

/-- An addition, or something else, and the memory after it. -/
abbrev AttributeEvent := Option Addition × Heap

/-- The events can follow each other. -/
def IsAttributeRun (element : NodeId) : Heap → List AttributeEvent → Prop
  | _, [] => True
  | heap, (none, after) :: rest =>
      LeftAlone heap after element ∧ IsAttributeRun element after rest
  | heap, (some addition, after) :: rest =>
      addition.Fits heap element ∧ addition.perform heap = some after ∧
        IsAttributeRun element after rest

/-- All along the run the element has one attribute for every name that was
added, with the value that was added last. -/
def KeepsAttributes (element : NodeId) : Heap → List Entry → List AttributeEvent → Prop
  | heap, writes, [] => Accumulated (attributeTable heap element) writes
  | heap, writes, (addition, after) :: rest =>
      Accumulated (attributeTable heap element) writes ∧
        KeepsAttributes element after
          (writes ++ (addition.map fun addition => addition.entry heap).toList) rest

/-- Every addition finds a list with which it is done right. -/
def AllHarmless (element : NodeId) : Heap → List AttributeEvent → Prop
  | _, [] => True
  | heap, (addition, after) :: rest =>
      (∀ added, addition = some added → added.Harmless heap element) ∧
        AllHarmless element after rest

theorem KeepsAttributes.now {element : NodeId} {heap : Heap} {writes : List Entry}
    {run : List AttributeEvent} (keeps : KeepsAttributes element heap writes run) :
    Accumulated (attributeTable heap element) writes := by
  cases run with
  | nil => exact keeps
  | cons event rest => exact keeps.1

theorem LeftAlone.hasTable {heap after : Heap} {element : NodeId} {table : List Entry}
    (leftAlone : LeftAlone heap after element) (hasTable : HasTable heap element table) :
    HasTable after element table := by
  rcases hasTable with ⟨type, present, attributes, owned, rfl⟩
  exact owned.still leftAlone.grows leftAlone.head (leftAlone.type.trans type)
    (leftAlone.same attributes owned.listed)

/-- What every step keeps holds along the run, as long as additions are harmless. -/
theorem keepsAttributes_iff {element : NodeId} {run : List AttributeEvent} {heap : Heap}
    {table writes : List Entry} (hasTable : HasTable heap element table)
    (kept : Accumulated table writes) (isRun : IsAttributeRun element heap run) :
    KeepsAttributes element heap writes run ↔ AllHarmless element heap run := by
  induction run generalizing heap table writes with
  | nil =>
      rw [KeepsAttributes, hasTable.table]
      exact ⟨fun _ => trivial, fun _ => kept⟩
  | cons event rest inductionHypothesis =>
      rcases event with ⟨_ | addition, after⟩
      · have later := inductionHypothesis (isRun.1.hasTable hasTable) kept isRun.2
        rw [KeepsAttributes, AllHarmless, hasTable.table]
        simp only [Option.map_none, Option.toList_none, List.append_nil, later]
        exact ⟨fun keeps => ⟨nofun, keeps.2⟩, fun harmless => ⟨kept, harmless.2⟩⟩
      · rcases isRun with ⟨fits, done, onward⟩
        rcases addition.step hasTable kept fits done with ⟨now, tableNow, right_iff⟩
        rw [KeepsAttributes, AllHarmless, hasTable.table]
        simp only [Option.map_some, Option.toList_some]
        constructor
        · rintro ⟨-, keeps⟩
          have right := tableNow.table ▸ keeps.now
          refine ⟨?_, (inductionHypothesis tableNow right onward).mp keeps⟩
          rintro _ ⟨⟩
          exact right_iff.mp right
        · rintro ⟨harmless, all⟩
          have right := right_iff.mpr (harmless addition rfl)
          exact ⟨kept, (inductionHypothesis tableNow right onward).mpr all⟩

/-- An element with three placeholders, and three attributes of a document. -/
def elementToFill : Heap := .ofList [
  { type := .element, name := some (lit "r"), children := some 1 },
  { type := .empty, parent := some 0, next := some 2 },
  { type := .empty, parent := some 0, next := some 3, prev := some 1 },
  { type := .empty, parent := some 0, prev := some 2 },
  { type := .attribute, name := some (lit "a"), content := some (lit "1") },
  { type := .attribute, name := some (lit "b"), content := some (lit "2") },
  { type := .attribute, name := some (lit "c"), content := some (lit "3") }]

/-- The run of some additions and nothing else. -/
def runOf : Heap → List Addition → List AttributeEvent
  | _, [] => []
  | heap, addition :: rest =>
      let after := (addition.perform heap).getD heap
      (some addition, after) :: runOf after rest

end TurboXSL
