import TurboXSL.ParseTree

namespace TurboXSL

open Library Parse

/-!
# The numbering of a document

`renumber_children` walks a document behind `do_parse` and numbers the
children of every node.  Character data is passed over and keeps the position
zero that it was allocated with.
-/

/-- `renumber_children`, from a node on with the number `pos`. -/
def renumberChildren : Nat → Heap → Ptr → Nat → Option Heap
  | _, heap, none, _ => some heap
  | 0, _, some _, _ => none
  | fuel + 1, heap, some node, pos =>
      if (heap.get node).type = .text then renumberChildren fuel heap (heap.get node).next pos
      else do
        let heap := heap.modify node fun cell => { cell with position := pos }
        let heap ← renumberChildren fuel heap (heap.get node).children 1
        renumberChildren fuel heap (heap.get node).next (pos + 1)

/-- `xml_parse_string`, where it returns a document. -/
def XmlParseString (heap : Heap) (string : Bytes) (node : NodeId) (after : Heap) : Prop :=
  string ≠ [] ∧ Exists fun parsed => DoParse heap string (some node) parsed ∧
    renumberChildren parsed.size parsed (some node) 1 = some after

/-- The memory that `xml_parse_string` leaves. -/
def parsedMemory (fuel : Nat) (document : Bytes) : Heap :=
  (renumberChildren (memoryAfter fuel document).size (memoryAfter fuel document) (some 0) 1).getD
    .empty

/-- The positions of siblings, from `pos` on. -/
def siblingPositions (heap : Heap) : Nat → List NodeId → List Nat
  | _, [] => []
  | pos, node :: rest =>
      if (heap.get node).type = .text then 0 :: siblingPositions heap pos rest
      else pos :: siblingPositions heap (pos + 1) rest

/-! ## What all nodes of a parsed document share -/

/-- A property of single nodes that new ones have, and that content, flags and
links have no influence on. -/
structure Settled (property : NodeId → XmlNode → Prop) : Prop where
  new : ∀ n name type, property n { type := type, name := name, uid := some n }
  filled : ∀ {n cell} content flags, property n cell →
    property n { cell with content := content, flags := flags }
  linked : ∀ {n cell} parent next prev children attributes, property n cell →
    property n { cell with parent := parent, next := next, prev := prev, children := children,
                           attributes := attributes }

/-- The nodes from `first` on have the property. -/
def Uniform (property : NodeId → XmlNode → Prop) (first : NodeId) (heap : Heap) : Prop :=
  ∀ n, first ≤ n → n < heap.size → property n (heap.get n)

namespace Uniform

variable {property : NodeId → XmlNode → Prop} {first : NodeId} {heap : Heap}
  (uniform : Uniform property first heap)

include uniform

theorem modify (index : NodeId) {change : XmlNode → XmlNode}
    (keeps : ∀ {cell}, property index cell → property index (change cell)) :
    Uniform property first (heap.modify index change) := by
  intro n low high
  by_cases same : n = index
  · subst same
    rw [heap.modify_get_same]
    exact keeps (uniform n low high)
  · rw [heap.modify_get_of_ne change same]
    exact uniform n low high

variable (settled : Settled property)

include settled

theorem newNode (name : Option Bytes) (type : NodeType) :
    Uniform property first (xmlNewNode heap name type).1 := by
  intro n low high
  rcases Nat.lt_succ_iff_lt_or_eq.mp high with old | same
  · exact (heap.alloc_get_of_lt _ old).symm ▸ uniform n low old
  · rw [same]
    exact (heap.alloc_get_same _).symm ▸ settled.new heap.size name type

theorem linkNode {ret previous : Ptr} {current : NodeId} {after : Heap}
    (linked : linkNode heap ret previous current = .ok after) : Uniform property first after := by
  have placed : Uniform property first (heap.modify current fun n =>
      { n with prev := previous, parent := ret, next := none }) :=
    uniform.modify current fun here => settled.linked _ _ _ _ _ here
  unfold Parse.linkNode at linked
  cases previous with
  | some sibling =>
      cases linked
      exact placed.modify sibling fun here => settled.linked _ _ _ _ _ here
  | none =>
      cases ret with
      | some parent =>
          cases linked
          exact placed.modify parent fun here => settled.linked _ _ _ _ _ here
      | none => cases linked

end Uniform

theorem Uniform.passed {property : NodeId → XmlNode → Prop} {first : NodeId} {s s' : Parser}
    (uniform : Uniform property first s.heap) (settled : Settled property) (step : Passed s s') :
    Uniform property first s'.heap := by
  have text : ∀ content flags, Uniform property first (textHeap s content flags) := by
    intro content flags
    exact (uniform.newNode settled none .text).modify s.heap.size fun here =>
      settled.filled _ _ here
  have attribute_ : ∀ current, Uniform property first (attributeHeap s current) := by
    intro current
    refine Uniform.modify ?_ current fun here => settled.linked _ _ _ _ _ here
    refine Uniform.modify ?_ s.heap.size fun here => settled.linked _ _ _ _ _ here
    exact uniform.newNode settled _ .attribute
  cases step with
  | comment => rwa [(passComment_links s).2.2]
  | openElement _ _ heap linked => exact (uniform.newNode settled _ .element).linkNode settled linked
  | valuedAttribute _ _ current | bareAttribute _ _ current => exact attribute_ current
  | cdata _ heap _ _ linked => exact (text _ _).linkNode settled linked
  | text _ content heap _ _ linked => exact (text _ _).linkNode settled linked
  | value _ _ _ attr => exact uniform.modify attr fun here => settled.filled _ _ here
  | init | xmldecl | openDecl | openComment | openCdata | openDoctype | openClose | closeMatch
  | closeMismatch | tagEnd | tagSelfClose | emptyCdata | doctype | noText | bareValue | body =>
      exact uniform

/-- All nodes that `do_parse` makes have the property. -/
theorem DoParse.uniform {property : NodeId → XmlNode → Prop} (settled : Settled property)
    {heap after : Heap} {document : Bytes} {node : NodeId}
    (parsed : DoParse heap document (some node) after) : Uniform property heap.size after := by
  rcases returns_iff_reaches_stop.mp parsed with ⟨last, reached, stopped⟩
  have keep : ∀ before after : Parser, Uniform property heap.size before.heap →
      Steps pass before after → Uniform property heap.size after.heap :=
    fun _ _ uniform step => uniform.passed settled (.of_pass step)
  have empty : Uniform property heap.size heap := fun n low high => absurd high (Nat.not_lt.mpr low)
  have begin_ : Uniform property heap.size (start heap document).heap := empty.newNode settled _ _
  have before := reached.preserves keep begin_
  rcases (Stopped.of_pass (Reachable.wired reached) stopped).returns_node with
    ⟨state, done, isOpen, rfl⟩
  exact before

/-- No node from `first` on has a position yet. -/
def Unplaced (first : NodeId) (heap : Heap) : Prop :=
  ∀ n, first ≤ n → n < heap.size → (heap.get n).position = 0

theorem DoParse.unplaced {heap after : Heap} {document : Bytes} {node : NodeId}
    (parsed : DoParse heap document (some node) after) : Unplaced heap.size after := by
  have settled : Settled fun _ cell => cell.position = 0 :=
    ⟨fun _ _ _ => rfl, fun _ _ here => here, fun _ _ _ _ _ here => here⟩
  exact DoParse.uniform settled parsed

/-- Every node that the parser makes is its own `uid`. -/
theorem DoParse.uid {heap after : Heap} {document : Bytes} {node : NodeId}
    (parsed : DoParse heap document (some node) after) {n : NodeId} (low : heap.size ≤ n)
    (high : n < after.size) : (after.get n).uid = some n := by
  have settled : Settled fun n cell => cell.uid = some n :=
    ⟨fun _ _ _ => rfl, fun _ _ here => here, fun _ _ _ _ _ here => here⟩
  exact DoParse.uniform settled parsed n low high

/-! ## What stays as it was -/

/-- The parser writes to the nodes it has made. -/
structure Own (heap : Heap) (s : Parser) : Prop where
  extends_ : heap.Extends s.heap
  attr : ∀ {a}, s.attr = some a → heap.size ≤ a

theorem Own.linkNode {heap before after : Heap} {ret previous : Ptr} {current : NodeId}
    (extended : heap.Extends before) (fresh : heap.size ≤ current)
    (owner : ∀ {r}, ret = some r → heap.size ≤ r)
    (behind : ∀ {p}, previous = some p → heap.size ≤ p)
    (linked : linkNode before ret previous current = .ok after) : heap.Extends after := by
  unfold Parse.linkNode at linked
  have hung := extended.modify fresh fun cell =>
    { cell with prev := previous, parent := ret, next := none }
  cases previous with
  | some sibling =>
      cases linked
      exact hung.modify (behind rfl) _
  | none =>
      cases ret with
      | some parent =>
          cases linked
          exact hung.modify (owner rfl) _
      | none => cases linked

theorem Own.passed {heap : Heap} {s s' : Parser} (own : Own heap s) (woven : Woven heap.size s)
    (step : Passed s s') : Own heap s' := by
  have grows := own.extends_.grows
  have hang : ∀ {before after : Heap}, ¬ InTag s.state → heap.Extends before →
      Parse.linkNode before s.ret s.previous s.heap.size = .ok after → heap.Extends after := by
    intro before after outside extended linked
    have free := woven.place outside
    exact Own.linkNode extended grows (fun isOpen => (free.owner isOpen).1.1)
      (fun behind => (free.last behind).1.1) linked
  have text : ∀ content flags, heap.Extends (textHeap s content flags) := fun content flags =>
    (own.extends_.alloc _).modify grows _
  have attribute_ : ∀ {current}, InTag s.state → s.current = some current →
      heap.Extends (attributeHeap s current) := by
    intro current inTag here
    have fresh := (woven.tag inTag here).made.1
    unfold attributeHeap
    refine Arena.Extends.modify ?_ fresh _
    refine Arena.Extends.modify ?_ grows _
    exact own.extends_.alloc _
  cases step with
  | comment =>
      have same : (passComment s).attr = s.attr := by
        simp only [passComment]
        split <;> rfl
      refine ⟨?_, ?_⟩
      · rw [(passComment_links s).2.2]
        exact own.extends_
      · rw [same]
        exact own.attr
  | openElement state _ heap' linked =>
      exact ⟨hang (by rw [state]; decide) (own.extends_.alloc _) linked, own.attr⟩
  | valuedAttribute state _ current here | bareAttribute state _ current here =>
      refine ⟨attribute_ (.inl state) here, ?_⟩
      intro a same
      cases same
      exact grows
  | cdata state heap' _ _ linked =>
      exact ⟨hang (by rw [state]; decide) (text _ _) linked, own.attr⟩
  | text state content heap' _ _ linked =>
      exact ⟨hang (by rw [state]; decide) (text _ _) linked, own.attr⟩
  | value state rest content attr _ _ _ inAttr =>
      refine ⟨?_, own.attr⟩
      exact own.extends_.modify (own.attr inAttr) fun n => { n with content := some content }
  | init | xmldecl | openDecl | openComment | openCdata | openDoctype | openClose | closeMatch
  | closeMismatch | tagEnd | tagSelfClose | emptyCdata | doctype | noText | bareValue | body =>
      exact ⟨own.extends_, own.attr⟩

/-- Whatever `do_parse` returns, the nodes from before are as they were. -/
theorem DoParse.extends_ {heap after : Heap} {document : Bytes} {node : Ptr}
    (parsed : DoParse heap document node after) : heap.Extends after := by
  rcases returns_iff_reaches_stop.mp parsed with ⟨last, reached, stopped⟩
  have begin_ : Own heap (start heap document) := ⟨(Arena.Extends.refl heap).alloc _, nofun⟩
  have own : Own heap last := by
    clear stopped
    induction reached with
    | refl => exact begin_
    | tail earlier step inductionHypothesis =>
        exact inductionHypothesis.passed (Reachable.woven earlier) (.of_pass step)
  have inversion := Stopped.of_pass (Reachable.wired reached) stopped
  generalize result : Stop.returned node after = stop at inversion
  cases inversion with
  | overrun | orphan => cases result
  | mismatch | unknown | ended =>
      cases result
      exact own.extends_

/-! ## The walk -/

/-- Only positions differ. -/
structure Renumbered (before after : Heap) : Prop where
  size : after.size = before.size
  cell : ∀ n, Exists fun position =>
    after.get n = { before.get n with position := position }

namespace Renumbered

theorem refl (heap : Heap) : Renumbered heap heap := ⟨rfl, fun _ => ⟨_, rfl⟩⟩

theorem trans {first second third : Heap} (left : Renumbered first second)
    (right : Renumbered second third) : Renumbered first third where
  size := right.size.trans left.size
  cell := by
    intro n
    rcases left.cell n with ⟨position, here⟩
    rcases right.cell n with ⟨position', there⟩
    refine ⟨position', ?_⟩
    rw [there, here]

theorem modify (heap : Heap) (node : NodeId) (position : Nat) :
    Renumbered heap (heap.modify node fun cell => { cell with position := position }) where
  size := rfl
  cell := by
    intro n
    by_cases same : n = node
    · rw [same, heap.modify_get_same]
      exact ⟨position, rfl⟩
    · rw [heap.modify_get_of_ne _ same]
      exact ⟨_, rfl⟩

variable {before after : Heap} (renumbered : Renumbered before after)

include renumbered

theorem type (n : NodeId) : (after.get n).type = (before.get n).type := by
  rcases renumbered.cell n with ⟨position, here⟩
  rw [here]

theorem links : after.links = before.links := by
  have cell := renumbered.cell
  unfold Heap.links
  congr <;> funext n <;> rcases cell n with ⟨position, here⟩ <;> rw [here]

theorem linked {inside : NodeId → Prop} (linked : Linked before inside) : Linked after inside := by
  have cell := renumbered.cell
  refine linked.congr (Nat.le_of_eq renumbered.size.symm) ?_ ?_ ?_ ?_ ?_ ?_ ?_
  iterate 6
    intro n _
    rcases cell n with ⟨position, here⟩
    rw [here]
  intro n member
  rcases linked.attributes member with ⟨attrs, chain, members⟩
  refine ⟨attrs, ?_, ?_⟩
  · rcases cell n with ⟨position, here⟩
    rw [here]
    refine chain.congr fun attr at_ => ?_
    rcases cell attr with ⟨position', there⟩
    rw [there]
  · intro attr at_
    rw [renumbered.size, renumbered.type attr]
    exact members attr at_

end Renumbered

/-- The walk sets positions only. -/
theorem renumberChildren_renumbered {fuel : Nat} {heap after : Heap} {start : Ptr} {pos : Nat}
    (walk : renumberChildren fuel heap start pos = some after) : Renumbered heap after := by
  induction fuel generalizing heap after start pos with
  | zero =>
      cases start with
      | none =>
          cases walk
          exact .refl _
      | some node => cases walk
  | succ fuel inductionHypothesis =>
      cases start with
      | none =>
          cases walk
          exact .refl _
      | some node =>
          unfold renumberChildren at walk
          split at walk
          · exact inductionHypothesis walk
          · rcases Option.bind_eq_some_iff.mp walk with ⟨middle, below, behind⟩
            have first := (Renumbered.modify heap node pos).trans (inductionHypothesis below)
            exact first.trans (inductionHypothesis behind)

/-- The children of every node of the list are numbered. -/
def ChildrenPlaced (heap : Heap) (nodes : List NodeId) : Prop :=
  ∀ n ∈ nodes, (heap.get n).type ≠ .text → ∀ row, Siblings heap (heap.get n).children row →
    row.map (fun child => (heap.get child).position) = siblingPositions heap 1 row

theorem siblingPositions_congr {heap other : Heap} {nodes : List NodeId}
    (same : ∀ n ∈ nodes, (other.get n).type = (heap.get n).type) (pos : Nat) :
    siblingPositions other pos nodes = siblingPositions heap pos nodes := by
  induction nodes generalizing pos with
  | nil => rfl
  | cons node rest inductionHypothesis =>
      have later := fun pos => inductionHypothesis (fun n member =>
        same n (List.mem_cons_of_mem _ member)) pos
      unfold siblingPositions
      rw [same node List.mem_cons_self, later pos, later (pos + 1)]

/-- Nodes that are not touched keep their place. -/
theorem placed_congr {heap other : Heap} {nodes : List NodeId} {pos : Nat}
    (same : ∀ n ∈ nodes, other.get n = heap.get n)
    (placed : nodes.map (fun child => (heap.get child).position) = siblingPositions heap pos nodes) :
    nodes.map (fun child => (other.get child).position) = siblingPositions other pos nodes := by
  rw [siblingPositions_congr (fun n member => congrArg XmlNode.type (same n member)), ← placed]
  exact List.map_congr_left fun n member => congrArg XmlNode.position (same n member)

/-- The walk numbers the siblings it begins with, and the children of all
nodes it meets. -/
theorem renumberChildren_spec {links : Links} {start : Ptr} {nodes : List NodeId}
    (walked : Preorder links start nodes) {heap : Heap} (same : heap.links = links)
    (distinct : nodes.Nodup) (unplaced : ∀ n ∈ nodes, (heap.get n).position = 0)
    (leaf : ∀ n ∈ nodes, (heap.get n).type = .text → (heap.get n).children = none) {fuel : Nat}
    (enough : nodes.length ≤ fuel) (pos : Nat) :
    Exists fun after => renumberChildren fuel heap start pos = some after ∧ Renumbered heap after ∧
      (∀ n, n ∉ nodes → after.get n = heap.get n) ∧
      (∀ row, Chain links.next start row →
        row.map (fun child => (after.get child).position) = siblingPositions after pos row) ∧
      ChildrenPlaced after nodes := by
  induction walked generalizing heap fuel pos with
  | nil =>
      refine ⟨heap, ?_, .refl heap, fun _ _ => rfl, ?_, nofun⟩
      · unfold renumberChildren
        rfl
      · intro row chain
        cases chain
        rfl
  | cons node below behind inner outer innerHypothesis outerHypothesis =>
      cases fuel with
      | zero => cases enough
      | succ fuel =>
          rw [List.length_cons, List.length_append] at enough
          have shortInner : below.length ≤ fuel := by omega
          have shortOuter : behind.length ≤ fuel := by omega
          have parts := List.nodup_cons.mp distinct
          have halves := List.nodup_append.mp parts.2
          have notBelow : node ∉ below := fun member => parts.1 (List.mem_append_left _ member)
          have notBehind : node ∉ behind := fun member => parts.1 (List.mem_append_right _ member)
          have inBelow : ∀ {n}, n ∈ below → n ∈ node :: (below ++ behind) := fun member =>
            List.mem_cons_of_mem _ (List.mem_append_left _ member)
          have inBehind : ∀ {n}, n ∈ behind → n ∈ node :: (below ++ behind) := fun member =>
            List.mem_cons_of_mem _ (List.mem_append_right _ member)
          have next : (heap.get node).next = links.next node := congrFun (congrArg Links.next same) node
          unfold renumberChildren
          by_cases text : (heap.get node).type = .text
          · have bare : links.children node = none :=
              (congrFun (congrArg Links.children same) node).symm.trans
                (leaf node List.mem_cons_self text)
            rw [bare] at inner
            cases inner
            rcases outerHypothesis same halves.2.1 (fun n member => unplaced n (inBehind member))
              (fun n member => leaf n (inBehind member)) shortOuter pos with
              ⟨after, walk, renumbered, others, placed, within⟩
            have kept := others node notBehind
            refine ⟨after, ?_, renumbered, ?_, ?_, ?_⟩
            · rw [if_pos text, next, walk]
            · exact fun n outside => others n fun member => outside (inBehind member)
            · intro row chain
              cases chain with
              | cons _ rest tail =>
                  unfold siblingPositions
                  rw [kept, if_pos text, List.map_cons, kept, placed rest tail,
                    unplaced node List.mem_cons_self]
            · intro n member notText row chain
              rcases List.mem_cons.mp member with rfl | later
              · rw [kept] at notText
                exact absurd text notText
              · exact within n later notText row chain
          · have counted := Renumbered.modify heap node pos
            have apart : ∀ n, n ≠ node → (heap.modify node fun cell =>
                { cell with position := pos }).get n = heap.get n := fun n other =>
              heap.modify_get_of_ne _ other
            rcases innerHypothesis (counted.links.trans same) halves.1
              (fun n member => by
                rw [apart n (fun here => notBelow (here ▸ member))]
                exact unplaced n (inBelow member))
              (fun n member => by
                rw [apart n (fun here => notBelow (here ▸ member))]
                exact leaf n (inBelow member)) shortInner 1 with
              ⟨middle, walkBelow, renumberedBelow, othersBelow, placedBelow, withinBelow⟩
            have sofar := counted.trans renumberedBelow
            have untouched : ∀ n ∈ behind, middle.get n = heap.get n := by
              intro n member
              have outside : n ∉ below := fun inside => halves.2.2 n inside n member rfl
              rw [othersBelow n outside, apart n (fun here => notBehind (here ▸ member))]
            rcases outerHypothesis (sofar.links.trans same) halves.2.1
              (fun n member => by
                rw [untouched n member]
                exact unplaced n (inBehind member))
              (fun n member => by
                rw [untouched n member]
                exact leaf n (inBehind member)) shortOuter (pos + 1) with
              ⟨after, walkBehind, renumbered, others, placed, within⟩
            have lastBelow : ∀ n ∈ below, after.get n = middle.get n := fun n member =>
              others n fun inside => halves.2.2 n member n inside rfl
            have lastNode : after.get node = { heap.get node with position := pos } := by
              rw [others node notBehind, othersBelow node notBelow, heap.modify_get_same]
            have children : ((heap.modify node fun cell =>
                { cell with position := pos }).get node).children = links.children node := by
              rw [heap.modify_get_same]
              exact congrFun (congrArg Links.children same) node
            have goOn : (middle.get node).next = links.next node :=
              congrFun (congrArg Links.next (sofar.links.trans same)) node
            refine ⟨after, ?_, sofar.trans renumbered, ?_, ?_, ?_⟩
            · rw [if_neg text]
              dsimp only
              rw [children, walkBelow, Option.bind_eq_bind, Option.bind_some, goOn, walkBehind]
            · intro n outside
              rw [others n fun member => outside (inBehind member),
                othersBelow n fun member => outside (inBelow member)]
              exact apart n fun here => outside (here ▸ List.mem_cons_self)
            · intro row chain
              cases chain with
              | cons _ rest tail =>
                  unfold siblingPositions
                  rw [List.map_cons, lastNode, if_neg text, placed rest tail]
            · intro n member notText row chain
              have linksAfter : after.links = links := (sofar.trans renumbered).links.trans same
              have chain' : Chain links.next (links.children n) row := linksAfter ▸ chain
              rcases List.mem_cons.mp member with rfl | later
              · refine placed_congr (fun c inRow => lastBelow c (inner.siblings_subset chain' inRow)) ?_
                exact placedBelow row chain'
              · rcases List.mem_append.mp later with below_ | behind_
                · have inMiddle : row.map (fun child => (middle.get child).position) =
                      siblingPositions middle 1 row := by
                    refine withinBelow n below_ ?_ row ?_
                    · rwa [← renumbered.type]
                    · rw [← sofar.links.trans same] at chain'
                      exact chain'
                  exact placed_congr (fun c inRow =>
                    lastBelow c (inner.children_subset below_ chain' inRow)) inMiddle
                · exact within n behind_ notText row chain

/-- The children of every node of a document that `xml_parse_string` returns
are numbered, character data apart. -/
theorem XmlParseString.placed {heap after : Heap} {string : Bytes} {node : NodeId}
    (parsed : XmlParseString heap string node after) :
    Linked after (Made heap.size after) ∧ Made heap.size after node ∧
      ∀ n, Within after.links node n → (after.get n).type ≠ .text → ∀ row,
        Siblings after (after.get n).children row →
        row.map (fun child => (after.get child).position) = siblingPositions after 1 row := by
  rcases parsed with ⟨_, before, done, walk⟩
  have linked := DoParse.linked done
  have unplaced := DoParse.unplaced done
  rcases linked.1.forest.preorder_siblings linked.2 with
    ⟨nodes, rest, walked, _, distinct, members, meets⟩
  have short := linked.1.forest.length_le distinct members
  rcases renumberChildren_spec walked rfl distinct
    (fun n at_ => unplaced n (members n at_).1 (members n at_).2.1)
    (fun n at_ text => linked.1.leaf (members n at_) text) short 1 with
    ⟨found, walk', renumbered, _, _, placed⟩
  rw [walk] at walk'
  cases walk'
  have same : Made heap.size after = Made heap.size before := by
    funext n
    unfold Made
    rw [renumbered.size, renumbered.type n]
  rw [same]
  refine ⟨renumbered.linked linked.1, linked.2, ?_⟩
  intro n within notText row chain
  rw [renumbered.links] at within
  exact placed n ((meets n).mpr ⟨node, List.mem_cons_self, within⟩) notText row chain

/-- A run that returns, with enough fuel for it. -/
theorem xmlParseString_of_run {fuel : Nat} {document : Bytes}
    (parsed : DoParse .empty document (some 0) (memoryAfter fuel document))
    (more : document ≠ [])
    (returns : (renumberChildren (memoryAfter fuel document).size (memoryAfter fuel document)
      (some 0) 1).isSome = true) :
    XmlParseString .empty document 0 (parsedMemory fuel document) := by
  refine ⟨more, memoryAfter fuel document, parsed, ?_⟩
  rcases Option.isSome_iff_exists.mp returns with ⟨after, walk⟩
  unfold parsedMemory
  rw [walk]
  rfl

end TurboXSL
