import TurboXSL.DocumentRegions
import TurboXSL.PathRuns

namespace TurboXSL

open Library Parse

/-!
# The string-value of a node

The string-value of an element or a root is the text of its own subtree.  The
collector `add_node_str` is a walk in document order, but it begins at the
node itself and goes on behind it, so `node2string` adds the text of whatever
follows in the `next` chain, which `nodes2string` takes care to cut off.
-/

/-- Character data and attributes, whose content is their string-value. -/
def NodeType.isLeaf (type : NodeType) : Bool := type = .text ∨ type = .attribute

/-- What one node adds to the text of a walk. -/
def ownText (heap : Heap) (n : NodeId) : Bytes :=
  if (heap.get n).type = .text then (heap.get n).content.getD [] else []

/-- The contents of the text nodes of a list. -/
def textOf (heap : Heap) (nodes : List NodeId) : Bytes := nodes.flatMap (ownText heap)

theorem textOf_append (heap : Heap) (front behind : List NodeId) :
    textOf heap (front ++ behind) = textOf heap front ++ textOf heap behind :=
  List.flatMap_append

theorem textOf_eq_nil {heap : Heap} {nodes : List NodeId} :
    textOf heap nodes = [] ↔ ∀ n ∈ nodes, ownText heap n = [] := List.flatMap_eq_nil_iff

/-- The string-value of a node, which depends on its own subtree only. -/
inductive StringValue (heap : Heap) (n : NodeId) : Bytes → Prop where
  | leaf {content : Bytes} (type : (heap.get n).type.isLeaf = true)
      (holds : (heap.get n).content = some content) : StringValue heap n content
  | tree {below : List NodeId} (type : (heap.get n).type.isLeaf = false)
      (walked : Preorder heap.links (heap.get n).children below) :
      StringValue heap n (textOf heap below)

theorem StringValue.unique {heap : Heap} {n : NodeId} {first second : Bytes}
    (left : StringValue heap n first) (right : StringValue heap n second) : first = second := by
  cases left with
  | leaf type holds =>
      cases right with
      | leaf _ holds' => exact Option.some.inj (holds.symm.trans holds')
      | tree type' => exact absurd type (Bool.eq_false_iff.mp type')
  | tree type walked =>
      cases right with
      | leaf type' => exact absurd type' (Bool.eq_false_iff.mp type)
      | tree _ walked' => rw [walked.unique walked']

/-! ## The collector -/

/-- A node of a memory in which walks end: what is below it, what is below and
behind those that follow it, and character data without children. -/
structure Spread (heap : Heap) (n : NodeId) (below behind : List NodeId) : Prop where
  down : Preorder heap.links (heap.get n).children below
  onward : Preorder heap.links (heap.get n).next behind
  bound : ∀ m ∈ below ++ behind, m < heap.size
  leaf : ∀ m ∈ below ++ behind, (heap.get m).type = .text → (heap.get m).children = none

/-- The collector gathers the text of the walk.  Its depth is bounded by the
nodes `seen` on the way, from which longer walks begin, so that none of them
is met again. -/
theorem addNodeStr_walked {heap : Heap} {start : Ptr} {nodes : List NodeId}
    (walked : Preorder heap.links start nodes) (bound : ∀ m ∈ nodes, m < heap.size)
    (leaf : ∀ m ∈ nodes, (heap.get m).type = .text → (heap.get m).children = none)
    {seen : List NodeId} (distinct : seen.Nodup) (within : ∀ s ∈ seen, s < heap.size)
    (longer : ∀ s ∈ seen, Exists fun list =>
      Preorder heap.links (some s) list ∧ nodes.length < list.length) {fuel : Nat}
    (enough : heap.size ≤ fuel + seen.length) :
    addNodeStr heap fuel start = some (textOf heap nodes) := by
  induction walked generalizing seen fuel with
  | nil =>
      unfold addNodeStr
      rfl
  | cons node below behind inner outer innerHypothesis outerHypothesis =>
      have here : node < heap.size := bound node List.mem_cons_self
      have new : node ∉ seen := by
        intro at_
        rcases longer node at_ with ⟨list, walked, long⟩
        rw [walked.unique (.cons node below behind inner outer)] at long
        exact Nat.lt_irrefl _ long
      have distinct' : (node :: seen).Nodup := List.nodup_cons.mpr ⟨new, distinct⟩
      have within' : ∀ s ∈ node :: seen, s < heap.size := List.forall_mem_cons.mpr ⟨here, within⟩
      have longer' : ∀ part : List NodeId, part.length ≤ (below ++ behind).length →
          ∀ s ∈ node :: seen, Exists fun list =>
            Preorder heap.links (some s) list ∧ part.length < list.length := by
        intro part short s at_
        have shorter : part.length < (node :: (below ++ behind)).length := Nat.lt_succ_of_le short
        rcases List.mem_cons.mp at_ with rfl | earlier
        · exact ⟨_, .cons s below behind inner outer, shorter⟩
        · rcases longer s earlier with ⟨list, walked, long⟩
          exact ⟨list, walked, Nat.lt_trans shorter long⟩
      have inBelow : ∀ {m}, m ∈ below → m ∈ node :: (below ++ behind) := fun at_ =>
        List.mem_cons_of_mem node (List.mem_append_left behind at_)
      have inBehind : ∀ {m}, m ∈ behind → m ∈ node :: (below ++ behind) := fun at_ =>
        List.mem_cons_of_mem node (List.mem_append_right below at_)
      have room : seen.length < heap.size := by
        have short := (distinct'.subperm fun s at_ => List.mem_range.mpr (within' s at_)).length_le
        rwa [List.length_range] at short
      rcases Nat.exists_eq_succ_of_ne_zero (by omega : fuel ≠ 0) with ⟨fuel, rfl⟩
      have enough' : heap.size ≤ fuel + (node :: seen).length := by
        rw [List.length_cons]
        omega
      have first := innerHypothesis (fun m at_ => bound m (inBelow at_))
        (fun m at_ => leaf m (inBelow at_)) distinct' within'
        (longer' below (by rw [List.length_append]; exact Nat.le_add_right _ _)) enough'
      have second := outerHypothesis (fun m at_ => bound m (inBehind at_))
        (fun m at_ => leaf m (inBehind at_)) distinct' within'
        (longer' behind (by rw [List.length_append]; exact Nat.le_add_left _ _)) enough'
      unfold addNodeStr
      rw [show addNodeStr heap fuel (heap.get node).children = _ from first,
        show addNodeStr heap fuel (heap.get node).next = _ from second]
      have order : textOf heap below ++ ownText heap node = ownText heap node ++ textOf heap below := by
        by_cases type : (heap.get node).type = .text
        · have none_ : heap.links.children node = none := leaf node List.mem_cons_self type
          rw [none_] at inner
          cases inner
          exact (List.append_nil _).symm
        · rw [show ownText heap node = [] from if_neg type, List.append_nil, List.nil_append]
      have whole : textOf heap (node :: (below ++ behind)) =
          textOf heap below ++ ownText heap node ++ textOf heap behind := by
        rw [order, List.append_assoc, ← textOf_append]
        rfl
      rw [whole]
      rfl

namespace Spread

variable {heap : Heap} {n : NodeId} {below behind : List NodeId} (spread : Spread heap n below behind)

include spread

theorem collects_below : addNodeStr heap heap.size (heap.get n).children = some (textOf heap below) :=
  addNodeStr_walked spread.down (fun m at_ => spread.bound m (List.mem_append_left _ at_))
    (fun m at_ => spread.leaf m (List.mem_append_left _ at_)) List.nodup_nil nofun nofun
    (Nat.le_refl _)

theorem collects_behind : addNodeStr heap heap.size (heap.get n).next = some (textOf heap behind) :=
  addNodeStr_walked spread.onward (fun m at_ => spread.bound m (List.mem_append_right _ at_))
    (fun m at_ => spread.leaf m (List.mem_append_right _ at_)) List.nodup_nil nofun nofun
    (Nat.le_refl _)

omit spread in
theorem node2string_leaf (type : (heap.get n).type.isLeaf = true) :
    node2string heap n = (heap.get n).content := by
  unfold node2string nodeText
  cases here : (heap.get n).type <;> rw [here] at type <;> first | rfl | cases type

theorem node2string_tree (type : (heap.get n).type.isLeaf = false) :
    node2string heap n = some (textOf heap below ++ textOf heap behind) := by
  unfold node2string nodeText
  rw [spread.collects_below, spread.collects_behind]
  cases here : (heap.get n).type <;> rw [here] at type <;> first | rfl | cases type

/-- Cut off from what follows, a node gives its string-value. -/
theorem nodeText_cut {text : Bytes} :
    nodeText heap n none = some text ↔ StringValue heap n text := by
  have cut : (heap.get n).type.isLeaf = false →
      nodeText heap n none = some (textOf heap below) := by
    intro type
    have nothing : addNodeStr heap heap.size none = some [] := by
      unfold addNodeStr
      rfl
    unfold nodeText
    rw [spread.collects_below, nothing]
    cases here : (heap.get n).type <;> rw [here] at type <;> try cases type
    all_goals exact congrArg some (List.append_nil _)
  have leaf : (heap.get n).type.isLeaf = true → nodeText heap n none = (heap.get n).content := by
    intro type
    unfold nodeText
    cases here : (heap.get n).type <;> rw [here] at type <;> first | rfl | cases type
  constructor
  · intro same
    cases type : (heap.get n).type.isLeaf with
    | true => exact .leaf type ((leaf type).symm.trans same)
    | false =>
        rw [cut type] at same
        cases same
        exact .tree type spread.down
  · intro own
    cases own with
    | leaf type holds => exact (leaf type).trans holds
    | tree type walked => rw [cut type, walked.unique spread.down]

end Spread

/-! ## Where the collector stays in the subtree -/

/-- The string that the code finds for a node is its string-value. -/
def Local (heap : Heap) (n : NodeId) : Prop :=
  Exists fun own => StringValue heap n own ∧ node2string heap n = some own

/-- A node that has a content, where it is one of those with a content of their
own, and no text behind it, where it is another one. -/
def Separate (heap : Heap) (n : NodeId) : Prop :=
  if (heap.get n).type.isLeaf then (heap.get n).content ≠ none
  else Exists fun behind => Preorder heap.links (heap.get n).next behind ∧
    ∀ m ∈ behind, ownText heap m = []

theorem Spread.local_iff {heap : Heap} {n : NodeId} {below behind : List NodeId}
    (spread : Spread heap n below behind) : Local heap n ↔ Separate heap n := by
  unfold Local Separate
  cases type : (heap.get n).type.isLeaf with
  | true =>
      rw [if_pos rfl, Spread.node2string_leaf type]
      constructor
      · rintro ⟨own, _, holds⟩
        rw [holds]
        exact nofun
      · intro some_
        rcases Option.ne_none_iff_exists'.mp some_ with ⟨own, holds⟩
        exact ⟨own, .leaf type holds, holds⟩
  | false =>
      rw [if_neg nofun, spread.node2string_tree type]
      have own : StringValue heap n (textOf heap below) := .tree type spread.down
      constructor
      · rintro ⟨text, value, same⟩
        rw [value.unique own] at same
        have nothing := List.append_right_eq_self.mp (Option.some.inj same)
        exact ⟨behind, spread.onward, textOf_eq_nil.mp nothing⟩
      · rintro ⟨behind', walked, nothing⟩
        refine ⟨textOf heap below, own, ?_⟩
        rw [walked.unique spread.onward] at nothing
        rw [textOf_eq_nil.mpr nothing, List.append_nil]

/-! ## Node-sets -/

/-- Members of node-sets are spread. -/
def AllSpread (heap : Heap) (nodes : List NodeId) : Prop :=
  ∀ n ∈ nodes, Exists fun below => Exists fun behind => Spread heap n below behind

/-- The string that the code finds for a node-set is the string-value of one of
its nodes. -/
def LocalSet (Num : Type) [Double Num] (heap : Heap) (head : NodeId) (nodes : List NodeId) : Prop :=
  Exists fun n => n ∈ nodes ∧ Exists fun own => StringValue heap n own ∧
    rval2string heap (.nodeset (some head) : RValue Num) = some (some own)

/-- One node at most has a string-value that is not empty. -/
def OneSpeaks (heap : Heap) (nodes : List NodeId) : Prop :=
  Exists fun front => Exists fun n => Exists fun rear => nodes = front ++ n :: rear ∧
    ∀ m ∈ front ++ rear, StringValue heap m []

/-- A part of a joined text is the whole of it where the others are empty. -/
theorem flatMap_eq_part_iff {nodes : List NodeId} {value : NodeId → Bytes} :
    (Exists fun n => n ∈ nodes ∧ nodes.flatMap value = value n) ↔
      Exists fun front => Exists fun n => Exists fun rear => nodes = front ++ n :: rear ∧
        ∀ m ∈ front ++ rear, value m = [] := by
  constructor
  · rintro ⟨n, at_, whole⟩
    rcases List.append_of_mem at_ with ⟨front, rear, rfl⟩
    refine ⟨front, n, rear, rfl, ?_⟩
    have lengths := congrArg List.length whole
    simp only [List.flatMap_append, List.flatMap_cons, List.length_append] at lengths
    have nothing : front.flatMap value = [] ∧ rear.flatMap value = [] := by
      constructor <;>
      · apply List.length_eq_zero_iff.mp
        omega
    intro m found
    rcases List.mem_append.mp found with earlier | later
    · exact List.flatMap_eq_nil_iff.mp nothing.1 m earlier
    · exact List.flatMap_eq_nil_iff.mp nothing.2 m later
  · rintro ⟨front, n, rear, rfl, nothing⟩
    refine ⟨n, List.mem_append_right _ List.mem_cons_self, ?_⟩
    have front_ : front.flatMap value = [] := List.flatMap_eq_nil_iff.mpr fun m at_ =>
      nothing m (List.mem_append_left _ at_)
    have rear_ : rear.flatMap value = [] := List.flatMap_eq_nil_iff.mpr fun m at_ =>
      nothing m (List.mem_append_right _ at_)
    rw [List.flatMap_append, List.flatMap_cons, front_, rear_, List.append_nil, List.nil_append]

/-- Cut off from each other, the nodes of a set give their string-values. -/
theorem AllSpread.nodes2string {heap : Heap} {head : NodeId} {nodes : List NodeId}
    (all : AllSpread heap nodes) (listed : siblings heap (some head) = some nodes)
    {value : NodeId → Bytes} (values : ∀ n ∈ nodes, StringValue heap n (value n)) :
    nodes2string heap (some head) = some (nodes.flatMap value) := by
  unfold TurboXSL.nodes2string
  rw [listed, Option.bind_eq_bind, Option.bind_some]
  have each : nodes.mapM (fun n => nodeText heap n none) = some (nodes.map value) := by
    apply mapM_eq_some_iff.mpr
    rw [List.forall₂_map_right_iff, List.forall₂_same]
    intro n at_
    rcases all n at_ with ⟨below, behind, spread⟩
    exact spread.nodeText_cut.mpr (values n at_)
  rw [each]
  rfl

/-- The strings of a set and of its nodes are string-values of nodes of the set
exactly where no node has text behind it and, in the set of a root, one node at
most has text. -/
theorem AllSpread.localSet_iff {Num : Type} [Double Num] {heap : Heap} {head : NodeId}
    {nodes : List NodeId} (all : AllSpread heap nodes)
    (listed : siblings heap (some head) = some nodes) :
    ((∀ n ∈ nodes, Local heap n) ∧ LocalSet Num heap head nodes) ↔
      (∀ n ∈ nodes, Separate heap n) ∧ ((heap.get head).type = .empty → OneSpeaks heap nodes) := by
  have each : (∀ n ∈ nodes, Local heap n) ↔ ∀ n ∈ nodes, Separate heap n := by
    apply forall₂_congr
    intro n at_
    rcases all n at_ with ⟨below, behind, spread⟩
    exact spread.local_iff
  rw [← each]
  apply and_congr_right
  intro locals
  have first : head ∈ nodes := by
    cases (follow_eq_some_iff.mp listed).1 with
    | cons _ rest _ => exact List.mem_cons_self
  by_cases type : (heap.get head).type = .empty
  · choose! value holds using locals
    have joined : rval2string heap (.nodeset (some head) : RValue Num) =
        some (some (nodes.flatMap value)) := by
      change (if (heap.get head).type = .empty then _ else _) = _
      rw [if_pos type, all.nodes2string listed fun n at_ => (holds n at_).1]
      rfl
    have set : LocalSet Num heap head nodes ↔
        Exists fun n => n ∈ nodes ∧ nodes.flatMap value = value n := by
      unfold LocalSet
      rw [joined]
      constructor
      · rintro ⟨n, at_, own, value_, same⟩
        cases same
        exact ⟨n, at_, value_.unique (holds n at_).1⟩
      · rintro ⟨n, at_, same⟩
        exact ⟨n, at_, value n, (holds n at_).1, by rw [same]⟩
    rw [set, flatMap_eq_part_iff]
    constructor
    · rintro ⟨front, n, rear, split, nothing⟩ _
      refine ⟨front, n, rear, split, fun m at_ => ?_⟩
      have member : m ∈ nodes :=
        split ▸ ((List.sublist_cons_self n rear).append_left front).subset at_
      rw [← nothing m at_]
      exact (holds m member).1
    · intro speaks
      rcases speaks type with ⟨front, n, rear, split, nothing⟩
      refine ⟨front, n, rear, split, fun m at_ => ?_⟩
      have member : m ∈ nodes :=
        split ▸ ((List.sublist_cons_self n rear).append_left front).subset at_
      exact (holds m member).1.unique (nothing m at_)
  · apply iff_of_true
    · rcases locals head first with ⟨own, value, found⟩
      refine ⟨head, first, own, value, ?_⟩
      change (if (heap.get head).type = .empty then _ else _) = _
      rw [if_neg type, found]
      rfl
    · exact fun empty => absurd empty type

/-! ## Documents and results -/

section Regions

variable {heap : Heap} {inside region : NodeId → Prop} (closed : Region heap inside region)

include closed

/-- Character data has no children, also where it is copied. -/
theorem Region.text_children {n : NodeId} (member : region n) (text : (heap.get n).type = .text) :
    (heap.get n).children = none := by
  rcases closed.image member with ⟨image, _, document | attribute_⟩
  · rw [image.children]
    exact closed.linked.leaf document (image.type.symm.trans text)
  · rw [image.type, attribute_.type] at text
    cases text

theorem Region.spread {n : NodeId} (member : region n) {rest : List NodeId}
    (chain : Siblings heap (heap.get n).next rest) (others : ∀ m ∈ rest, region m) :
    Exists fun below => Exists fun behind => Spread heap n below behind := by
  rcases closed.below member with ⟨below, walked, _, members⟩
  have onward : Exists fun behind => Preorder heap.links (heap.get n).next behind := by
    apply Preorder.of_chain chain
    intro m at_
    rcases closed.below (others m at_) with ⟨nodes, walked, _⟩
    exact ⟨nodes, walked⟩
  rcases onward with ⟨behind, passed⟩
  have all : ∀ m ∈ below ++ behind, region m := by
    intro m at_
    rcases List.mem_append.mp at_ with lower | later
    · exact closed.document (members m lower).1
    · apply passed.forall_of_chain chain others _ m later
      intro k at_ inner walked m lower
      rcases closed.below (others k at_) with ⟨nodes, walked', _, members⟩
      rw [walked.unique walked'] at lower
      exact closed.document (members m lower).1
  exact ⟨below, behind, walked, passed, fun m at_ => closed.bound (all m at_),
    fun m at_ => closed.text_children (all m at_)⟩

theorem Region.allSpread {start : Ptr} {nodes : List NodeId} (chain : Siblings heap start nodes)
    (members : ∀ n ∈ nodes, region n) : AllSpread heap nodes := by
  intro n at_
  rcases chain.suffix_of_mem at_ with ⟨rest, part, suffix⟩
  cases part with
  | cons _ _ tail =>
      apply closed.spread (members n at_) tail
      exact fun m later => members m (suffix.subset (List.mem_cons_of_mem n later))

/-- The nodes of a document are spread. -/
theorem Region.document_spread {n : NodeId} (member : inside n) :
    Exists fun below => Exists fun behind => Spread heap n below behind := by
  rcases closed.linked.forest.preorder_siblings member with
    ⟨nodes, rest, walked, chain, _, members, _⟩
  apply closed.spread (closed.document member) chain
  intro m at_
  have here : Chain heap.links.next (some n) (n :: rest) := .cons n rest chain
  exact closed.document (members m (walked.siblings_subset here (List.mem_cons_of_mem n at_)))

end Regions

/-- Two elements with text. -/
def twoTexts : Bytes := lit "<r><a>x</a><b>y</b></r>"

/-- The string-value of an element that holds one text node. -/
theorem StringValue.oneText {heap : Heap} {n m : NodeId} {content : Bytes}
    (type : (heap.get n).type.isLeaf = false) (child : (heap.get n).children = some m)
    (below : (heap.get m).children = none) (behind : (heap.get m).next = none)
    (text : (heap.get m).type = .text) (holds : (heap.get m).content = some content) :
    StringValue heap n content := by
  have inner : Preorder heap.links (heap.links.children m) [] := by
    rw [show heap.links.children m = none from below]
    exact .nil
  have outer : Preorder heap.links (heap.links.next m) [] := by
    rw [show heap.links.next m = none from behind]
    exact .nil
  have walked : Preorder heap.links (heap.get n).children [m] := by
    rw [child]
    exact .cons m [] [] inner outer
  have value := StringValue.tree type walked
  unfold textOf ownText at value
  rw [List.flatMap_singleton, if_pos text, holds] at value
  exact value

/-- The memory of the document once `*` has been evaluated at its element. -/
def twoTextsSelected : Heap := (newSelection (memoryAfter 60 twoTexts) [(2, 1), (4, 2)]).1

end TurboXSL
