import TurboXSL.Library.Grafting
import TurboXSL.Numbering
import TurboXSL.Results
import TurboXSL.Selections

namespace TurboXSL

open Library Parse Output

/-!
# Documents built call by call

The functions behind `XMLCreateDocument` hang single nodes and parsed strings
into a document.  `xml_add_child` links one node with the last child before
it and with its new parent; of a parsed string with several nodes on its top
level it gets the first one only, and the others keep the root of the parsed
string as their parent.
-/

/-- `xmls_new_string_literal` -/
def xmlsNewStringLiteral (s : Option Bytes) : Option Bytes := s.map untilNul

/-- `XMLCreateDocument` -/
def xmlCreateDocument (heap : Heap) : Heap × NodeId := xmlNewNode heap (some xslSRoot) .empty

/-- `XMLCreateElement` -/
def xmlCreateElement (heap : Heap) (parent : Ptr) (name : Option Bytes) : Option (Heap × NodeId) := do
  let (heap, result) := xmlNewNode heap (xmlsNewStringLiteral name) .element
  match parent with
  | some parent => some (← xmlAddChild heap parent result, result)
  | none => some (heap, result)

/-- `XMLAddText` -/
def xmlAddText (heap : Heap) (element : NodeId) (text : Option Bytes) : Option Heap :=
  let (heap, result) := xmlNewNode heap none .text
  let heap := heap.modify result fun cell =>
    { cell with content := xmlsNewStringLiteral text, parent := some element }
  xmlAddChild heap element result

/-- `XMLAddAttribute` -/
def xmlAddAttribute (heap : Heap) (element : NodeId) (name value : Option Bytes) : Heap :=
  let (heap, attribute_) := xmlNewNode heap (xmlsNewStringLiteral name) .attribute
  let heap := heap.modify attribute_ fun cell =>
    { cell with content := xmlsNewStringLiteral value, parent := some element,
                next := (heap.get element).attributes }
  heap.modify element fun cell => { cell with attributes := some attribute_ }

/-- `XMLAddChildFromString`, where it returns. -/
def XmlAddChildFromString (heap : Heap) (element : NodeId) (value : Option Bytes)
    (after : Heap) : Prop :=
  match value.map untilNul with
  | none | some [] => after = heap
  | some string =>
      DoParse heap string none after ∨
        Exists fun root => Exists fun middle => XmlParseString heap string root middle ∧
          match (middle.get root).children with
          | none => after = middle
          | some child => xmlAddChild middle element child = some after

/-! ## Sequences of calls -/

inductive ApiCall where
  | createDocument
  | createElement (parent : Ptr) (name : Option Bytes)
  | addText (element : NodeId) (text : Option Bytes)
  | addAttribute (element : NodeId) (name value : Option Bytes)
  | addChildFromString (element : NodeId) (value : Option Bytes)

/-- The memory and the nodes that the calls have returned. -/
structure Api where
  heap : Heap
  handles : List NodeId

/-- The nodes `p->children`, `p->children->next` and so on. -/
inductive OnChain (heap : Heap) (p : NodeId) : NodeId → Prop where
  | first {n : NodeId} (link : (heap.get p).children = some n) : OnChain heap p n
  | next {n m : NodeId} (earlier : OnChain heap p n) (link : (heap.get n).next = some m) :
      OnChain heap p m

/-- The nodes of the trees that have been built. -/
inductive InTrees (s : Api) : NodeId → Prop where
  | handle {n : NodeId} (member : n ∈ s.handles) : InTrees s n
  | child {p n : NodeId} (above : InTrees s p) (below : OnChain s.heap p n) : InTrees s n

/-- One call for nodes of these trees. -/
inductive ApiStep (s : Api) : ApiCall → Api → Prop where
  | createDocument :
      ApiStep s .createDocument
        ⟨(xmlCreateDocument s.heap).1, (xmlCreateDocument s.heap).2 :: s.handles⟩
  | createElement (parent : Ptr) (name : Option Bytes) {after : Heap} {result : NodeId}
      (known : ∀ p, parent = some p → InTrees s p)
      (made : xmlCreateElement s.heap parent name = some (after, result)) :
      ApiStep s (.createElement parent name) ⟨after, result :: s.handles⟩
  | addText (element : NodeId) (text : Option Bytes) {after : Heap} (known : InTrees s element)
      (made : xmlAddText s.heap element text = some after) :
      ApiStep s (.addText element text) ⟨after, s.handles⟩
  | addAttribute (element : NodeId) (name value : Option Bytes) (known : InTrees s element) :
      ApiStep s (.addAttribute element name value)
        ⟨xmlAddAttribute s.heap element name value, s.handles⟩
  | addChildFromString (element : NodeId) (value : Option Bytes) {after : Heap}
      (known : InTrees s element) (made : XmlAddChildFromString s.heap element value after) :
      ApiStep s (.addChildFromString element value) ⟨after, s.handles⟩

/-- The string has at most one node on its top level. -/
def SingleTop (heap : Heap) (string : Bytes) : Prop :=
  ∀ root middle child, XmlParseString heap string root middle →
    (middle.get root).children = some child → (middle.get child).next = none

/-- What a call has to be for the trees to stay trees. -/
def Gentle (s : Api) : ApiCall → Prop
  | .addChildFromString _ (some value) => SingleTop s.heap (untilNul value)
  | _ => True

def GentleStep (s after : Api) : Prop := Exists fun call => ApiStep s call after ∧ Gentle s call

/-- The links of all chains of children fit together. -/
structure WellFormed (s : Api) : Prop where
  ends : ∀ {p}, InTrees s p → Exists fun row => Siblings s.heap (s.heap.get p).children row
  parent : ∀ {p n}, InTrees s p → OnChain s.heap p n → (s.heap.get n).parent = some p
  first : ∀ {p n}, InTrees s p → (s.heap.get p).children = some n → (s.heap.get n).prev = none
  inverse : ∀ {p n m}, InTrees s p → OnChain s.heap p n → OnChain s.heap p m →
    ((s.heap.get n).next = some m ↔ (s.heap.get m).prev = some n)
  single : ∀ {p q n}, InTrees s p → InTrees s q → OnChain s.heap p n → OnChain s.heap q n → p = q

/-! ## Trees are forests -/

/-- The trees lie in a forest. -/
structure Grown (s : Api) (inside : NodeId → Prop) : Prop where
  forest : LinkedForest s.heap.links s.heap.size inside
  handles : ∀ n ∈ s.handles, inside n

theorem onChain_iff {heap : Heap} {p n : NodeId} {row : List NodeId}
    (children : Children heap.links p row) : OnChain heap p n ↔ n ∈ row := by
  have chained : ∀ {start line}, Siblings heap start line →
      (∀ first, start = some first → OnChain heap p first) → ∀ m ∈ line, OnChain heap p m := by
    intro start line chain
    induction chain with
    | nil => exact fun _ _ member => nomatch member
    | cons first rest tail inductionHypothesis =>
        intro begins m member
        have here := begins first rfl
        rcases List.mem_cons.mp member with same | later
        · exact same ▸ here
        · exact inductionHypothesis (fun following link => here.next link) m later
  constructor
  · intro on
    induction on with
    | first link =>
        have chain := children.chain
        rw [show heap.links.children p = some _ from link] at chain
        cases chain
        exact List.mem_cons_self
    | next earlier link inductionHypothesis =>
        rcases List.append_of_mem inductionHypothesis with ⟨front, behind, rfl⟩
        have onward := children.after rfl
        rw [show heap.links.next _ = some _ from link] at onward
        cases onward
        exact List.mem_append_right _ (List.mem_cons_of_mem _ List.mem_cons_self)
  · exact chained children.chain (fun _ link => .first link) n

namespace Grown

variable {s : Api} {inside : NodeId → Prop} (grown : Grown s inside)

include grown

theorem inTrees {n : NodeId} (known : InTrees s n) : inside n := by
  induction known with
  | handle member => exact grown.handles _ member
  | child above below inductionHypothesis =>
      rcases grown.forest.row inductionHypothesis with ⟨row, children, members⟩
      exact members _ ((onChain_iff children).mp below)

theorem child {p n : NodeId} (member : inside p) (on : OnChain s.heap p n) :
    Child s.heap.links p n := by
  rcases grown.forest.row member with ⟨row, children, members⟩
  exact ⟨row, children, (onChain_iff children).mp on⟩

theorem wellFormed : WellFormed s where
  ends := by
    intro p known
    rcases grown.forest.row (grown.inTrees known) with ⟨row, children, members⟩
    exact ⟨row, children.chain⟩
  parent := fun known on => (grown.child (grown.inTrees known) on).parent
  first := by
    intro p n known link
    rcases grown.forest.row (grown.inTrees known) with ⟨row, children, members⟩
    unfold Children at children
    rw [show s.heap.links.children p = some n from link] at children
    cases children with
    | cons _ _ rest up back younger tail => exact back
  inverse := by
    intro p n m known onN onM
    have behind : ∀ {a b}, OnChain s.heap p a → (s.heap.get a).next = some b →
        (s.heap.get b).prev = some a := fun on link =>
      (grown.forest.behind (grown.inTrees (known.child on)) link).2.2
    constructor
    · exact behind onN
    · intro back
      cases onM with
      | first link =>
          rcases grown.forest.row (grown.inTrees known) with ⟨row, children, members⟩
          unfold Children at children
          rw [show s.heap.links.children p = some m from link] at children
          cases children with
          | cons _ _ rest up none_ younger tail => exact absurd (none_.symm.trans back) nofun
      | next earlier link =>
          have same := (behind earlier link).symm.trans back
          exact Option.some.inj same ▸ link
  single := fun knownP knownQ onP onQ =>
    (grown.child (grown.inTrees knownP) onP).owner_unique (grown.child (grown.inTrees knownQ) onQ)

end Grown

/-! ## What `xml_add_child` does to the links -/

/-- The cells that tell that a node was hung. -/
theorem attached_of_cells {heap after : Heap} {node child : NodeId} {row : List NodeId}
    (new : after.get child =
      { heap.get child with prev := row.getLast?, parent := some node })
    (last : ∀ {l}, row.getLast? = some l → after.get l = { heap.get l with next := some child })
    (owner : after.get node = { heap.get node with
      children := if row = [] then some child else (heap.get node).children })
    (rest : ∀ {n}, n ≠ child → n ≠ node → row.getLast? ≠ some n → after.get n = heap.get n) :
    Attached heap.links after.links node child row := by
  have kept : ∀ {n}, n ≠ child → after.get n = { heap.get n with
      next := (after.get n).next, children := (after.get n).children } := by
    intro n notChild
    by_cases atOwner : n = node
    · rw [atOwner, owner]
    · by_cases atLast : row.getLast? = some n
      · rw [last atLast]
      · rw [rest notChild atOwner atLast]
  constructor
  · exact congrArg XmlNode.parent new
  · intro n notChild
    change (after.get n).parent = (heap.get n).parent
    rw [kept notChild]
  · exact congrArg XmlNode.prev new
  · intro n notChild
    change (after.get n).prev = (heap.get n).prev
    rw [kept notChild]
  · exact fun ends => congrArg XmlNode.next (last ends)
  · intro n atEnd
    change (after.get n).next = (heap.get n).next
    by_cases atChild : n = child
    · rw [atChild, new]
    · by_cases atOwner : n = node
      · rw [atOwner, owner]
      · rw [rest atChild atOwner atEnd]
  · intro empty
    change (after.get node).children = some child
    rw [owner]
    exact if_pos empty
  · intro n elsewhere
    change (after.get n).children = (heap.get n).children
    by_cases atChild : n = child
    · rw [atChild, new]
    · by_cases atOwner : n = node
      · subst atOwner
        rw [owner]
        exact if_neg fun empty => elsewhere empty rfl
      · by_cases atLast : row.getLast? = some n
        · rw [last atLast]
        · rw [rest atChild atOwner atLast]

/-- A node that is none of the children is hung behind them. -/
theorem xmlAddChild_attached {heap : Heap} {node child : NodeId} {row : List NodeId}
    (children : Children heap.links node row) (bound : ∀ n ∈ row, n < heap.size)
    (apart : child ∉ row) (different : child ≠ node) (first : (heap.get child).prev = none) :
    Exists fun after => xmlAddChild heap node child = some after ∧ after.size = heap.size ∧
      Attached heap.links after.links node child row := by
  have listed : siblings heap (heap.get node).children = some row :=
    siblings_of_chain children.chain bound
  have owned : node ∉ row := fun member =>
    absurd (children.owned member).2 (Nat.lt_irrefl node)
  cases ends : row.getLast? with
  | none =>
      have empty : row = [] := List.getLast?_eq_none_iff.mp ends
      refine ⟨(heap.modify node fun cell => { cell with children := some child }).modify child
        fun cell => { cell with parent := some node }, ?_, rfl, ?_⟩
      · unfold xmlAddChild
        simp only [listed, Option.bind_eq_bind, Option.bind_some, ends]
      · apply attached_of_cells
        · rw [Arena.modify_get_same, Arena.modify_get_of_ne _ _ different, ends, ← first]
        · intro l here
          exact absurd (ends.symm.trans here) nofun
        · rw [Arena.modify_get_of_ne _ _ different.symm, Arena.modify_get_same, if_pos empty]
        · intro n notChild notNode _
          rw [Arena.modify_get_of_ne _ _ notChild, Arena.modify_get_of_ne _ _ notNode]
  | some last =>
      have inRow : last ∈ row := List.mem_of_getLast? ends
      have notNode : last ≠ node := fun same => owned (same ▸ inRow)
      have notChild : last ≠ child := fun same => apart (same ▸ inRow)
      refine ⟨(setNext (heap.modify child fun cell => { cell with prev := some last }) (some last)
        (some child)).modify child fun cell => { cell with parent := some node }, ?_, rfl, ?_⟩
      · unfold xmlAddChild
        simp only [listed, Option.bind_eq_bind, Option.bind_some, ends]
      · apply attached_of_cells
        · unfold setNext
          rw [Arena.modify_get_same, Arena.modify_get_of_ne _ _ notChild.symm,
            Arena.modify_get_same, ends]
        · intro l here
          rw [ends] at here
          cases here
          unfold setNext
          rw [Arena.modify_get_of_ne _ _ notChild, Arena.modify_get_same,
            Arena.modify_get_of_ne _ _ notChild]
        · unfold setNext
          rw [Arena.modify_get_of_ne _ _ different.symm, Arena.modify_get_of_ne _ _ notNode.symm,
            Arena.modify_get_of_ne _ _ different.symm, if_neg (List.ne_nil_of_mem inRow)]
        · intro n notChild_ notNode_ notLast
          have unlike : n ≠ last := fun same => notLast (same ▸ ends)
          unfold setNext
          rw [Arena.modify_get_of_ne _ _ notChild_, Arena.modify_get_of_ne _ _ unlike,
            Arena.modify_get_of_ne _ _ notChild_]

/-! ## The calls -/

/-- Where the old nodes have kept their links, they are a forest as before. -/
theorem forest_kept {heap after : Heap} {inside : NodeId → Prop}
    (forest : LinkedForest heap.links heap.size inside)
    (same : ∀ {n}, n < heap.size → Exists fun cell : XmlNode => after.get n = cell ∧
      cell.children = (heap.get n).children ∧ cell.next = (heap.get n).next ∧
      cell.prev = (heap.get n).prev ∧ cell.parent = (heap.get n).parent) :
    LinkedForest after.links heap.size inside := by
  have cell : ∀ {n}, inside n → Exists fun cell : XmlNode => after.get n = cell ∧
      cell.children = (heap.get n).children ∧ cell.next = (heap.get n).next ∧
      cell.prev = (heap.get n).prev ∧ cell.parent = (heap.get n).parent :=
    fun member => same (forest.bound member)
  refine forest.congr (Nat.le_refl _) ?_ ?_ ?_ ?_ <;>
  · intro n member
    rcases cell member with ⟨_, rfl, children, next, prev, parent⟩
    assumption

/-- A tree of new nodes is hung below an old one. -/
theorem xmlAddChild_forest {heap middle : Heap} {inside part : NodeId → Prop}
    {element node : NodeId} (forest : LinkedForest middle.links heap.size inside)
    (grows : heap.size ≤ middle.size)
    (loose : LinkedForest (middle.links.cut node) middle.size part)
    (fresh : ∀ {n}, part n → heap.size ≤ n) (top : part node)
    (alone : (middle.get node).next = none) (first : (middle.get node).prev = none)
    (member : inside element) :
    Exists fun after => xmlAddChild middle element node = some after ∧
      LinkedForest after.links after.size (fun n => inside n ∨ part n) := by
  rcases forest.row member with ⟨row, children, members⟩
  have old : ∀ n, inside n → n < node := fun n here =>
    Nat.lt_of_lt_of_le (forest.bound here) (fresh top)
  rcases xmlAddChild_attached children
    (fun n at_ => Nat.lt_of_lt_of_le (forest.bound (members n at_)) grows)
    (fun at_ => Nat.lt_irrefl node (old node (members node at_)))
    (Nat.ne_of_gt (old element member)) first with ⟨after, added, size, attached⟩
  refine ⟨after, added, ?_⟩
  rw [size]
  exact forest.attach loose grows fresh top alone first member children attached

namespace Grown

variable {s : Api} {inside : NodeId → Prop} (grown : Grown s inside)

include grown

/-- A node that stands alone. -/
theorem create (name : Option Bytes) (type : NodeType) :
    Grown ⟨(xmlNewNode s.heap name type).1, s.heap.size :: s.handles⟩
      (fun n => inside n ∨ n = s.heap.size) where
  forest := by
    have new : (xmlNewNode s.heap name type).1.get s.heap.size =
        { type := type, name := name, uid := some s.heap.size } := Arena.alloc_get_same _ _
    apply LinkedForest.union
    · have kept : LinkedForest (xmlNewNode s.heap name type).1.links s.heap.size inside := by
        apply forest_kept grown.forest
        intro n small
        exact ⟨_, Arena.alloc_get_of_lt _ _ small, rfl, rfl, rfl, rfl⟩
      exact kept.congr (Nat.le_succ _) (fun _ => rfl) (fun _ => rfl) (fun _ => rfl) fun _ => rfl
    · apply LinkedForest.single (Nat.lt_succ_self _)
      · exact congrArg XmlNode.children new
      · exact congrArg XmlNode.next new
      · exact congrArg XmlNode.prev new
      · exact congrArg XmlNode.parent new
  handles := by
    intro n member
    rcases List.mem_cons.mp member with same | old
    · exact .inr same
    · exact .inl (grown.handles n old)

/-- A new node is hung below one of the trees. -/
theorem append {element : NodeId} (member : inside element) (cell : XmlNode)
    (children : cell.children = none) (next : cell.next = none) (prev : cell.prev = none) :
    Exists fun after => xmlAddChild (s.heap.alloc cell) element s.heap.size = some after ∧
      LinkedForest after.links after.size (fun n => inside n ∨ n = s.heap.size) := by
  have new : (s.heap.alloc cell).get s.heap.size = cell := s.heap.alloc_get_same cell
  have bound : s.heap.size < (s.heap.alloc cell).size := Nat.lt_succ_self _
  have kept : LinkedForest (Heap.links (s.heap.alloc cell)) s.heap.size inside := by
    apply forest_kept grown.forest
    intro n small
    exact ⟨_, s.heap.alloc_get_of_lt cell small, rfl, rfl, rfl, rfl⟩
  refine xmlAddChild_forest kept (Nat.le_of_lt bound) ?_ (fun same => Nat.le_of_eq same.symm) rfl
    (by rw [new, next]) (by rw [new, prev]) member
  apply LinkedForest.single bound
  · exact (congrArg XmlNode.children new).trans children
  · exact (congrArg XmlNode.next new).trans next
  · exact (congrArg XmlNode.prev new).trans prev
  · exact Links.cut_parent_same _ _

theorem createElement {parent : Ptr} {name : Option Bytes} {after : Heap} {result : NodeId}
    (known : ∀ p, parent = some p → InTrees s p)
    (made : xmlCreateElement s.heap parent name = some (after, result)) :
    Exists fun larger => Grown ⟨after, result :: s.handles⟩ larger := by
  cases parent with
  | none =>
      cases made
      exact ⟨_, grown.create _ _⟩
  | some p =>
      rcases grown.append (grown.inTrees (known p rfl))
        { type := .element, name := xmlsNewStringLiteral name, uid := some s.heap.size } rfl rfl rfl
        with ⟨found, added, forest⟩
      have same : xmlCreateElement s.heap (some p) name = some (found, s.heap.size) := by
        unfold xmlCreateElement xmlNewNode
        dsimp only
        rw [added]
        rfl
      rw [same] at made
      cases made
      refine ⟨_, forest, ?_⟩
      intro n member
      rcases List.mem_cons.mp member with here | old
      · exact .inr here
      · exact .inl (grown.handles n old)

theorem addText {element : NodeId} {text : Option Bytes} {after : Heap}
    (known : InTrees s element) (made : xmlAddText s.heap element text = some after) :
    Exists fun larger => Grown ⟨after, s.handles⟩ larger := by
  rcases grown.append (grown.inTrees known)
    { type := .text, uid := some s.heap.size, content := xmlsNewStringLiteral text,
      parent := some element } rfl rfl rfl with ⟨found, added, forest⟩
  unfold xmlAddText xmlNewNode at made
  dsimp only at made
  rw [s.heap.modify_alloc] at made
  cases added.symm.trans made
  exact ⟨_, forest, fun n member => .inl (grown.handles n member)⟩

theorem addAttribute {element : NodeId} (member : inside element) (name value : Option Bytes) :
    Grown ⟨xmlAddAttribute s.heap element name value, s.handles⟩ inside where
  forest := by
    have kept : LinkedForest (xmlAddAttribute s.heap element name value).links s.heap.size
        inside := by
      apply forest_kept grown.forest
      intro n small
      unfold xmlAddAttribute xmlNewNode
      dsimp only
      rw [s.heap.modify_alloc]
      by_cases same : n = element
      · subst same
        rw [Arena.modify_get_same, s.heap.alloc_get_of_lt _ small]
        exact ⟨_, rfl, rfl, rfl, rfl, rfl⟩
      · rw [Arena.modify_get_of_ne _ _ same, s.heap.alloc_get_of_lt _ small]
        exact ⟨_, rfl, rfl, rfl, rfl, rfl⟩
    exact kept.congr (Nat.le_succ _) (fun _ => rfl) (fun _ => rfl) (fun _ => rfl) fun _ => rfl
  handles := grown.handles

end Grown

/-! ## Parsed strings -/

/-- Of the old nodes none but positions can change. -/
theorem XmlParseString.kept {heap middle : Heap} {string : Bytes} {root : NodeId}
    (parsed : XmlParseString heap string root middle) {n : NodeId} (small : n < heap.size) :
    Exists fun position => middle.get n = { heap.get n with position := position } := by
  rcases parsed with ⟨_, before, done, walk⟩
  rcases (renumberChildren_renumbered walk).cell n with ⟨position, here⟩
  refine ⟨position, ?_⟩
  rw [here, (DoParse.extends_ done).same n small]

/-- The memory in which a string has been parsed. -/
theorem XmlParseString.beside {heap middle : Heap} {string : Bytes} {root : NodeId}
    {inside : NodeId → Prop} (parsed : XmlParseString heap string root middle)
    (forest : LinkedForest heap.links heap.size inside) :
    heap.size ≤ middle.size ∧ LinkedForest middle.links heap.size inside ∧
      LinkedForest middle.links middle.size (Made heap.size middle) ∧ heap.size ≤ root ∧
      Exists fun row => Children middle.links root row ∧ ∀ n ∈ row, Made heap.size middle n := by
  have linked := parsed.placed
  refine ⟨?_, ?_, linked.1.forest, linked.2.1.1, linked.1.forest.row linked.2.1⟩
  · rcases parsed with ⟨_, before, done, walk⟩
    rw [(renumberChildren_renumbered walk).size]
    exact (DoParse.extends_ done).grows
  · apply forest_kept forest
    intro n small
    rcases parsed.kept small with ⟨position, here⟩
    exact ⟨_, here, rfl, rfl, rfl, rfl⟩

theorem XmlParseString.unique {heap first second : Heap} {string : Bytes} {root other : NodeId}
    (left : XmlParseString heap string root first) (right : XmlParseString heap string other second) :
    root = other ∧ first = second := by
  rcases left with ⟨_, middle, done, walk⟩
  rcases right with ⟨_, middle', done', walk'⟩
  cases Returns.unique done done'
  exact ⟨rfl, Option.some.inj (walk.symm.trans walk')⟩

namespace Grown

variable {s : Api} {inside : NodeId → Prop} (grown : Grown s inside) {element : NodeId}
  {string : Bytes} {root child : NodeId} {middle : Heap}

include grown

/-- A failed parse and a document without children only use memory. -/
theorem beside {after : Heap} (grows : s.heap.size ≤ after.size)
    (forest : LinkedForest after.links s.heap.size inside) : Grown ⟨after, s.handles⟩ inside where
  forest := forest.congr grows (fun _ => rfl) (fun _ => rfl) (fun _ => rfl) fun _ => rfl
  handles := grown.handles

/-- A single node on the top level is hung with all below it. -/
theorem addParsed (member : inside element) (parsed : XmlParseString s.heap string root middle)
    (begins : (middle.get root).children = some child) (alone : (middle.get child).next = none)
    {after : Heap} (made : xmlAddChild middle element child = some after) :
    Exists fun larger => Grown ⟨after, s.handles⟩ larger := by
  rcases parsed.beside grown.forest with ⟨grows, forest, document, fresh, row, children, members⟩
  unfold Children at children
  rw [show middle.links.children root = some child from begins] at children
  cases children with
  | cons _ _ rest up first younger tail =>
      have top : Made s.heap.size middle child := members child List.mem_cons_self
      rcases xmlAddChild_forest forest grows (document.tree top alone first)
        (fun within => Nat.le_trans top.1 within.le) .refl alone first member with
        ⟨found, added, larger⟩
      cases added.symm.trans made
      exact ⟨_, larger, fun n at_ => .inl (grown.handles n at_)⟩

theorem addChildFromString (member : inside element) {value : Option Bytes} {after : Heap}
    (made : XmlAddChildFromString s.heap element value after)
    (gentle : Gentle s (.addChildFromString element value)) :
    Exists fun larger => Grown ⟨after, s.handles⟩ larger := by
  unfold XmlAddChildFromString at made
  cases value with
  | none =>
      cases made
      exact ⟨_, grown⟩
  | some value =>
      change SingleTop s.heap (untilNul value) at gentle
      simp only [Option.map_some] at made
      cases text : untilNul value with
      | nil =>
          rw [text] at made
          cases made
          exact ⟨_, grown⟩
      | cons c rest =>
          rw [text] at made gentle
          rcases made with failed | ⟨root, middle, parsed, made⟩
          · have extended := DoParse.extends_ failed
            refine ⟨_, grown.beside extended.grows (forest_kept grown.forest ?_)⟩
            intro n small
            exact ⟨_, extended.same n small, rfl, rfl, rfl, rfl⟩
          · cases begins : (middle.get root).children with
            | none =>
                rw [begins] at made
                cases made
                have beside := parsed.beside grown.forest
                exact ⟨_, grown.beside beside.1 beside.2.1⟩
            | some child =>
                rw [begins] at made
                exact grown.addParsed member parsed begins (gentle root middle child parsed begins) made

theorem step {call : ApiCall} {after : Api} (taken : ApiStep s call after) (gentle : Gentle s call) :
    Exists fun larger => Grown after larger := by
  cases taken with
  | createDocument => exact ⟨_, grown.create _ _⟩
  | createElement parent name known made => exact grown.createElement known made
  | addText element text known made => exact grown.addText known made
  | addAttribute element name value known =>
      exact ⟨_, grown.addAttribute (grown.inTrees known) name value⟩
  | addChildFromString element value known made =>
      exact grown.addChildFromString (grown.inTrees known) made gentle

end Grown

/-- No nodes have been made yet. -/
theorem Grown.begin_ (heap : Heap) : Grown ⟨heap, []⟩ (fun _ => False) where
  forest := ⟨nofun, nofun, nofun, nofun, nofun⟩
  handles := fun _ member => nomatch member

theorem Grown.run {first last : Api} {inside : NodeId → Prop} (grown : Grown first inside)
    (run : Relation.ReflTransGen GentleStep first last) : Exists fun larger => Grown last larger := by
  induction run with
  | refl => exact ⟨inside, grown⟩
  | tail _ step inductionHypothesis =>
      rcases inductionHypothesis with ⟨larger, grown⟩
      rcases step with ⟨call, taken, gentle⟩
      exact grown.step taken gentle

/-! ## Several nodes on the top level -/

/-- The first node on the top level is what is hung. -/
theorem xmlAddChildFromString_iff {heap middle after : Heap} {element root child : NodeId}
    {value : Bytes} (parsed : XmlParseString heap (untilNul value) root middle)
    (begins : (middle.get root).children = some child) :
    XmlAddChildFromString heap element (some value) after ↔
      xmlAddChild middle element child = some after := by
  unfold XmlAddChildFromString
  simp only [Option.map_some]
  cases text : untilNul value with
  | nil => exact absurd text parsed.1
  | cons c rest =>
      rw [text] at parsed
      constructor
      · rintro (failed | ⟨other, second, parsed', made⟩)
        · rcases parsed with ⟨_, before, done, _⟩
          cases Returns.unique done failed
        · rcases parsed.unique parsed' with ⟨rfl, rfl⟩
          rw [begins] at made
          exact made
      · intro made
        refine .inr ⟨root, middle, parsed, ?_⟩
        rw [begins]
        exact made

/-- Hanging a node makes no chain of children shorter. -/
theorem OnChain.added {middle after : Heap} {size : Nat} {inside : NodeId → Prop}
    (forest : LinkedForest middle.links size inside) {element child : NodeId} {row : List NodeId}
    (member : inside element) (children : Children middle.links element row)
    (attached : Attached middle.links after.links element child row) {p n : NodeId}
    (on : OnChain middle p n) : OnChain after p n := by
  induction on with
  | first link =>
      refine .first (Eq.trans (attached.children ?_) link)
      rintro rfl rfl
      have empty := children.chain
      rw [show middle.links.children p = some _ from link] at empty
      cases empty
  | next earlier link inductionHypothesis =>
      refine .next inductionHypothesis (Eq.trans (attached.next ?_) link)
      intro ends
      have last := (forest.last_of_row member children ends).2.2
      exact absurd (last.symm.trans link) nofun

section Scattered

variable {s : Api} {inside : NodeId → Prop} (grown : Grown s inside) {element : NodeId}
  {string : Bytes} {root child following : NodeId} {middle after : Heap}
  (parsed : XmlParseString s.heap string root middle)

include grown parsed

theorem OnChain.kept {p n : NodeId} (member : inside p) (on : OnChain s.heap p n) :
    OnChain middle p n := by
  induction on with
  | first link =>
      rcases parsed.kept (grown.forest.bound member) with ⟨position, cell⟩
      exact .first ((congrArg XmlNode.children cell).trans link)
  | next earlier link inductionHypothesis =>
      have inner := grown.forest.inside_child member (grown.child member earlier)
      rcases parsed.kept (grown.forest.bound inner) with ⟨position, cell⟩
      exact .next inductionHypothesis ((congrArg XmlNode.next cell).trans link)

theorem InTrees.added {row : List NodeId} (member : inside element)
    (children : Children middle.links element row)
    (attached : Attached middle.links after.links element child row) {p : NodeId}
    (known : InTrees s p) : InTrees ⟨after, s.handles⟩ p := by
  induction known with
  | handle known => exact .handle known
  | child above below inductionHypothesis =>
      have middleOn := below.kept grown parsed (grown.inTrees above)
      exact inductionHypothesis.child
        (middleOn.added (parsed.beside grown.forest).2.1 member children attached)

/-- The second node on the top level is left with the parsed root as its parent. -/
theorem not_wellFormed_of_following (known : InTrees s element)
    (begins : (middle.get root).children = some child)
    (link : (middle.get child).next = some following)
    (made : xmlAddChild middle element child = some after) : ¬ WellFormed ⟨after, s.handles⟩ := by
  have member := grown.inTrees known
  rcases parsed.beside grown.forest with ⟨grows, forest, document, fresh, tops, below, members⟩
  rcases forest.row member with ⟨row, children, inRow⟩
  unfold Children at below
  rw [show middle.links.children root = some child from begins] at below
  cases below with
  | cons _ _ rest up first younger tail =>
      rw [show middle.links.next child = some following from link] at tail
      cases tail with
      | cons _ _ rest owned back younger' tail =>
          have top : s.heap.size ≤ child := (members child List.mem_cons_self).1
          have old : ∀ n, inside n → n < child := fun n here =>
            Nat.lt_of_lt_of_le (forest.bound here) top
          have apart : child ∉ row := fun at_ => Nat.lt_irrefl child (old child (inRow child at_))
          rcases xmlAddChild_attached children
            (fun n at_ => Nat.lt_of_lt_of_le (forest.bound (inRow n at_)) grows) apart
            (Nat.ne_of_gt (old element member)) first with ⟨found, added, _, attached⟩
          cases added.symm.trans made
          have onward : (after.get child).next = some following :=
            Eq.trans (attached.next fun ends => apart (List.mem_of_getLast? ends)) link
          have hung : OnChain after element child := by
            cases ends : row.getLast? with
            | none => exact .first (attached.first (List.getLast?_eq_none_iff.mp ends))
            | some last =>
                have on := (onChain_iff children).mpr (List.mem_of_getLast? ends)
                exact (on.added forest member children attached).next (attached.link ends)
          intro wellFormed
          have parent := wellFormed.parent (known.added grown parsed member children attached)
            (hung.next onward)
          have later := (document.behind (members child List.mem_cons_self) link).2.1
          have kept : (after.get following).parent = some root :=
            Eq.trans (attached.parent (Nat.ne_of_gt later)) owned
          have same : root = element := Option.some.inj (kept.symm.trans parent)
          have small := forest.bound member
          rw [← same] at small
          exact absurd fresh (Nat.not_le.mpr small)

end Scattered

/-- Calls keep the trees well formed exactly if no string that they parse has
several nodes on its top level. -/
theorem built_documents_well_formed_iff {heap : Heap} {s : Api}
    (run : Relation.ReflTransGen GentleStep ⟨heap, []⟩ s) :
    WellFormed s ∧ ∀ call after, ApiStep s call after → (WellFormed after ↔ Gentle s call) := by
  rcases (Grown.begin_ heap).run run with ⟨inside, grown⟩
  refine ⟨grown.wellFormed, ?_⟩
  intro call after taken
  constructor
  · intro wellFormed
    cases taken with
    | createDocument | createElement | addText | addAttribute => trivial
    | addChildFromString element value known made =>
        cases value with
        | none => trivial
        | some value =>
            intro root middle child parsed begins
            cases link : (middle.get child).next with
            | none => rfl
            | some following =>
                have hung := (xmlAddChildFromString_iff parsed begins).mp made
                exact absurd wellFormed
                  (not_wellFormed_of_following grown parsed known begins link hung)
  · intro gentle
    rcases grown.step taken gentle with ⟨larger, grown'⟩
    exact grown'.wellFormed

/-- A document, an element and a text. -/
theorem built_documents_well_formed_iff_text : Exists fun s =>
    Relation.ReflTransGen GentleStep ⟨.empty, []⟩ s ∧ WellFormed s ∧
      Exists fun after => ApiStep s (.addText 1 (some (lit "text"))) after ∧ WellFormed after := by
  have document : GentleStep ⟨.empty, []⟩ ⟨(xmlCreateDocument .empty).1, [0]⟩ :=
    ⟨_, .createDocument, trivial⟩
  have element : Exists fun heap =>
      GentleStep ⟨(xmlCreateDocument .empty).1, [0]⟩ ⟨heap, [1, 0]⟩ ∧
        Exists fun after => xmlAddText heap 1 (some (lit "text")) = some after := by
    refine ⟨_, ⟨.createElement (some 0) (some (lit "a")), .createElement _ _ ?_ rfl, trivial⟩, _, rfl⟩
    rintro p ⟨⟩
    exact .handle List.mem_cons_self
  rcases element with ⟨heap, element, after, text⟩
  have run : Relation.ReflTransGen GentleStep ⟨.empty, []⟩ ⟨heap, [1, 0]⟩ :=
    .tail (.single document) element
  have step : ApiStep ⟨heap, [1, 0]⟩ (.addText 1 (some (lit "text"))) ⟨after, [1, 0]⟩ :=
    .addText 1 _ (.handle List.mem_cons_self) text
  have both := built_documents_well_formed_iff run
  exact ⟨_, run, both.1, _, step, (both.2 _ _ step).mpr trivial⟩

/-- The string `<a/><b/>` below a new document: the element `b` gets another parent. -/
theorem second_top_node_keeps_its_parent : ¬ ∀ (heap : Heap) (s : Api),
    Relation.ReflTransGen (fun s after => Exists fun call => ApiStep s call after) ⟨heap, []⟩ s →
      WellFormed s := by
  intro always
  have document : ApiStep ⟨.empty, []⟩ .createDocument ⟨(xmlCreateDocument .empty).1, [0]⟩ :=
    .createDocument
  have parsed : Exists fun middle =>
      XmlParseString (xmlCreateDocument .empty).1 (untilNul (lit "<a/><b/>")) 1 middle ∧
        (middle.get 1).children = some 2 ∧ (middle.get 2).next = some 3 ∧
        Exists fun after => xmlAddChild middle 0 2 = some after :=
    ⟨_, ⟨nofun, _, ⟨40, rfl⟩, rfl⟩, rfl, rfl, _, rfl⟩
  rcases parsed with ⟨middle, parsed, begins, link, after, made⟩
  have known : InTrees ⟨(xmlCreateDocument .empty).1, [0]⟩ 0 := .handle List.mem_cons_self
  have added : ApiStep ⟨(xmlCreateDocument .empty).1, [0]⟩
      (.addChildFromString 0 (some (lit "<a/><b/>"))) ⟨after, [0]⟩ :=
    .addChildFromString 0 _ known ((xmlAddChildFromString_iff parsed begins).mpr made)
  rcases (Grown.begin_ .empty).step document trivial with ⟨inside, grown⟩
  refine not_wellFormed_of_following grown parsed known begins link made ?_
  exact always .empty _ (.tail (.single ⟨_, document⟩) ⟨_, added⟩)

end TurboXSL
