import TurboXSL.Numbering
import TurboXSL.PathSteps

namespace TurboXSL

open Library Parse

/-!
# The region of a parsed document

Everything that `do_parse` allocates is a region: the nodes of the document,
and the attributes, which are linked to each other and to their element only.
-/

/-- The attributes among the nodes from `first` on, and who leads to them. -/
structure Attached (first : NodeId) (heap : Heap) : Prop where
  node : ∀ {n}, first ≤ n → n < heap.size → (heap.get n).type = .attribute →
    (heap.get n).children = none ∧ (heap.get n).attributes = none ∧
      (heap.get n).original = none ∧ (heap.get n).prev = none
  parent : ∀ {n p}, first ≤ n → n < heap.size → (heap.get n).type = .attribute →
    (heap.get n).parent = some p → Made first heap p
  next : ∀ {n m}, first ≤ n → n < heap.size → (heap.get n).type = .attribute →
    (heap.get n).next = some m → first ≤ m ∧ m < heap.size ∧ (heap.get m).type = .attribute
  holder : ∀ {n a}, Made first heap n → (heap.get n).attributes = some a →
    first ≤ a ∧ a < heap.size ∧ (heap.get a).type = .attribute

section Passes

variable {first : NodeId}

/-- Hanging an element or character data does not concern the attributes. -/
theorem Attached.hung {before after : Heap} {ret previous : Ptr} {node : XmlNode}
    (attached : Attached first before) (hung : Hung before after ret previous node)
    (free : Free first before ret previous) (plain : node.type ≠ .attribute)
    (untagged : node.attributes = none) : Attached first after := by
  have old : ∀ {n}, n < after.size → (after.get n).type = .attribute → n < before.size := by
    intro n small type
    rw [hung.size] at small
    rcases Nat.lt_succ_iff_lt_or_eq.mp small with here | rfl
    · exact here
    · rw [hung.new] at type
      exact absurd type plain
  have oldType : ∀ {n}, n < before.size → (after.get n).type = (before.get n).type := fun small =>
    (hung.old small).1
  have kept : ∀ {n}, n < before.size → (before.get n).type = .attribute →
      (after.get n).children = (before.get n).children ∧ (after.get n).next = (before.get n).next := by
    intro n small type
    constructor
    · apply hung.children small
      intro _ here
      exact (free.owner here).1.2.2 type
    · apply hung.next small
      intro here
      exact (free.last here).1.2.2 type
  have later : ∀ {a}, first ≤ a ∧ a < before.size ∧ (before.get a).type = .attribute →
      first ≤ a ∧ a < after.size ∧ (after.get a).type = .attribute := by
    rintro a ⟨low, small, type⟩
    refine ⟨low, ?_, (oldType small).trans type⟩
    rw [hung.size]
    exact Nat.lt_succ_of_lt small
  constructor
  · intro n low high type
    have small := old high type
    rw [oldType small] at type
    have fields := hung.old small
    rw [(kept small type).1, fields.2.2.2.1, fields.2.2.2.2, fields.2.2.1]
    exact attached.node low small type
  · intro n p low high type up
    have small := old high type
    rw [oldType small] at type
    rw [(hung.old small).2.1] at up
    exact hung.made_old (attached.parent low small type up)
  · intro n m low high type link
    have small := old high type
    rw [oldType small] at type
    rw [(kept small type).2] at link
    exact later (attached.next low small type link)
  · intro n a made link
    rcases hung.made_cases made with rfl | earlier
    · rw [hung.new] at link
      rw [show node.attributes = none from untagged] at link
      cases link
    · rw [(hung.old earlier.2.1).2.2.2.1] at link
      exact later (attached.holder earlier link)

/-- A new attribute of the element `current`. -/
theorem Attached.addAttribute {s : Parse.Parser} (attached : Attached first s.heap) {current : NodeId}
    (made : Made first s.heap current) : Attached first (attributeHeap s current) := by
  rcases attributeHeap_get s made.2.1 with ⟨new, here, rest⟩
  have size : (attributeHeap s current).size = s.heap.size + 1 := rfl
  have low : first ≤ s.heap.size := Nat.le_trans made.1 (Nat.le_of_lt made.2.1)
  have fields : ∀ {n}, n < s.heap.size → (attributeHeap s current).get n = { s.heap.get n with
      attributes := ((attributeHeap s current).get n).attributes } := by
    intro n small
    by_cases same : n = current
    · rw [same, here]
    · rw [rest n small same]
  have oldType : ∀ {n}, n < s.heap.size →
      ((attributeHeap s current).get n).type = (s.heap.get n).type := by
    intro n small
    rw [fields small]
  have madeLater : ∀ {p}, Made first s.heap p → Made first (attributeHeap s current) p :=
    fun known => ⟨known.1, Nat.lt_succ_of_lt known.2.1, (oldType known.2.1).symm ▸ known.2.2⟩
  have later : ∀ {a}, first ≤ a ∧ a < s.heap.size ∧ (s.heap.get a).type = .attribute →
      first ≤ a ∧ a < (attributeHeap s current).size ∧
        ((attributeHeap s current).get a).type = .attribute :=
    fun known => ⟨known.1, Nat.lt_succ_of_lt known.2.1, (oldType known.2.1).trans known.2.2⟩
  have notCurrent : ∀ {n}, (s.heap.get n).type = .attribute → n ≠ current := by
    rintro n type rfl
    exact made.2.2 type
  constructor
  · intro n above high type
    rcases Nat.lt_succ_iff_lt_or_eq.mp high with small | rfl
    · rw [oldType small] at type
      rw [rest n small (notCurrent type)]
      exact attached.node above small type
    · rw [new]
      exact ⟨rfl, rfl, rfl, rfl⟩
  · intro n p above high type up
    rcases Nat.lt_succ_iff_lt_or_eq.mp high with small | rfl
    · rw [oldType small] at type
      rw [rest n small (notCurrent type)] at up
      exact madeLater (attached.parent above small type up)
    · rw [new] at up
      cases up
      exact madeLater made
  · intro n m above high type link
    rcases Nat.lt_succ_iff_lt_or_eq.mp high with small | rfl
    · rw [oldType small] at type
      rw [rest n small (notCurrent type)] at link
      exact later (attached.next above small type link)
    · rw [new] at link
      exact later (attached.holder made link)
  · intro n a known link
    rcases Nat.lt_succ_iff_lt_or_eq.mp known.2.1 with small | rfl
    · by_cases same : n = current
      · rw [same, here] at link
        cases link
        refine ⟨low, Nat.lt_succ_self _, ?_⟩
        rw [new]
      · rw [rest n small same] at link
        have earlier : Made first s.heap n := ⟨known.1, small, oldType small ▸ known.2.2⟩
        exact later (attached.holder earlier link)
    · rw [new] at link
      cases link

/-- Changes of contents and positions do not concern the links. -/
theorem Attached.congr {before after : Heap} (attached : Attached first before)
    (size : after.size = before.size) (same : ∀ n, Exists fun content => Exists fun position =>
      after.get n = { before.get n with content := content, position := position }) :
    Attached first after := by
  have type : ∀ n, (after.get n).type = (before.get n).type := by
    intro n
    rcases same n with ⟨_, _, here⟩
    rw [here]
  have made : ∀ {n}, Made first after n ↔ Made first before n := by
    intro n
    unfold Made
    rw [size, type]
  constructor
  · intro n low high here
    rw [size] at high
    rw [type] at here
    rcases same n with ⟨_, _, cell⟩
    rw [cell]
    exact attached.node low high here
  · intro n p low high here up
    rw [size] at high
    rw [type] at here
    rcases same n with ⟨_, _, cell⟩
    rw [cell] at up
    exact made.mpr (attached.parent low high here up)
  · intro n m low high here link
    rw [size] at high
    rw [type] at here
    rcases same n with ⟨_, _, cell⟩
    rw [cell] at link
    rw [size, type]
    exact attached.next low high here link
  · intro n a known link
    rcases same n with ⟨_, _, cell⟩
    rw [cell] at link
    rw [size, type]
    exact attached.holder (made.mp known) link

theorem Attached.passed {s s' : Parse.Parser} (woven : Woven first s) (attached : Attached first s.heap)
    (step : Passed s s') : Attached first s'.heap := by
  have text : ∀ content flags, textHeap s content flags = s.heap.alloc
      { type := .text, uid := some s.heap.size, content := some content, flags := flags } := by
    intro content flags
    unfold textHeap xmlNewNode
    exact s.heap.modify_alloc _ _
  cases step with
  | comment => rwa [(passComment_links s).2.2]
  | openElement state _ heap linked =>
      have outside : ¬ InTag s.state := by
        rw [state]
        decide
      exact attached.hung (woven.hung outside linked) (woven.place outside) nofun rfl
  | valuedAttribute state _ current inTag | bareAttribute state _ current inTag =>
      exact attached.addAttribute (woven.tag (.inl state) inTag).made
  | cdata state heap _ _ linked | text state _ heap _ _ linked =>
      have outside : ¬ InTag s.state := by
        rw [state]
        decide
      rw [text] at linked
      exact attached.hung (woven.hung outside linked) (woven.place outside) nofun rfl
  | value _ _ content attr =>
      refine @Attached.congr first s.heap (s.heap.modify attr fun n =>
        { n with content := some content }) attached rfl ?_
      intro n
      by_cases same : n = attr
      · rw [same, Arena.modify_get_same]
        exact ⟨_, _, rfl⟩
      · rw [Arena.modify_get_of_ne _ _ same]
        exact ⟨_, _, rfl⟩
  | init | xmldecl | openDecl | openComment | openCdata | openDoctype | openClose | closeMatch
  | closeMismatch | tagEnd | tagSelfClose | emptyCdata | doctype | noText | bareValue | body =>
      exact attached

end Passes

/-- Everything from `first` on. -/
def From (first : NodeId) (heap : Heap) (n : NodeId) : Prop := first ≤ n ∧ n < heap.size

/-- A linked document and its attributes are a region. -/
theorem Attached.region {first : NodeId} {heap : Heap} (attached : Attached first heap)
    (linked : Linked heap (Made first heap)) : Region heap (Made first heap) (From first heap) where
  linked := linked
  bound := fun member => member.2
  document := fun made => ⟨made.1, made.2.1⟩
  next := by
    intro n m member link
    by_cases type : (heap.get n).type = .attribute
    · have found := attached.next member.1 member.2 type link
      exact ⟨found.1, found.2.1⟩
    · have found := (linked.forest.behind ⟨member.1, member.2, type⟩ link).1
      exact ⟨found.1, found.2.1⟩
  prev := by
    intro n m member link
    by_cases type : (heap.get n).type = .attribute
    · rw [(attached.node member.1 member.2 type).2.2.2] at link
      cases link
    · have found := (linked.forest.before ⟨member.1, member.2, type⟩ link).1
      exact ⟨found.1, found.2.1⟩
  copy := by
    intro n src member link
    by_cases type : (heap.get n).type = .attribute
    · rw [(attached.node member.1 member.2 type).2.2.1] at link
      cases link
    · rw [linked.plain ⟨member.1, member.2, type⟩] at link
      cases link
  source := by
    intro n member _
    by_cases type : (heap.get n).type = .attribute
    · have fields := attached.node member.1 member.2 type
      exact .inr ⟨type, fields.1, fields.2.1, fun p up => attached.parent member.1 member.2 type up⟩
    · exact .inl ⟨member.1, member.2, type⟩
  attributes := by
    intro n attrs member chained
    have all : ∀ {start attrs}, Siblings heap start attrs →
        (∀ a, start = some a → From first heap a ∧ (heap.get a).type = .attribute) →
        ∀ a ∈ attrs, From first heap a := by
      intro start attrs chained
      induction chained with
      | nil => exact fun _ => nofun
      | cons a rest _ inductionHypothesis =>
          intro begins b at_
          have here := begins a rfl
          rcases List.mem_cons.mp at_ with rfl | later
          · exact here.1
          · apply inductionHypothesis _ b later
            intro c link
            have found := attached.next here.1.1 here.1.2 here.2 link
            exact ⟨⟨found.1, found.2.1⟩, found.2.2⟩
    apply all chained
    intro a link
    have found := attached.holder member link
    exact ⟨⟨found.1, found.2.1⟩, found.2.2⟩

theorem DoParse.attached {heap after : Heap} {document : Bytes} {node : NodeId}
    (parsed : DoParse heap document (some node) after) : Attached heap.size after := by
  rcases returns_iff_reaches_stop.mp parsed with ⟨last, reached, stopped⟩
  have keep : ∀ before after : Parse.Parser,
      (Woven heap.size before ∧ Wired before) ∧ Attached heap.size before.heap →
      Steps pass before after →
      (Woven heap.size after ∧ Wired after) ∧ Attached heap.size after.heap := by
    intro before after both step
    refine ⟨⟨both.1.1.passed both.1.2 (.of_pass step), both.1.2.passed (.of_pass step)⟩, ?_⟩
    exact both.2.passed both.1.1 (.of_pass step)
  have root : (start heap document).heap.get heap.size =
      { type := .empty, name := some xslSRoot, uid := some heap.size } := heap.alloc_get_same _
  have only : ∀ {n}, heap.size ≤ n → n < (start heap document).heap.size → n = heap.size :=
    fun low high => Nat.le_antisymm (Nat.le_of_lt_succ high) low
  have begin_ : Attached heap.size (start heap document).heap := by
    constructor
    · intro n low high type
      rw [only low high, root] at type
      cases type
    · intro n p low high type
      rw [only low high, root] at type
      cases type
    · intro n m low high type
      rw [only low high, root] at type
      cases type
    · intro n a made link
      rw [only made.1 made.2.1, root] at link
      cases link
  have before := (reached.preserves keep ⟨⟨.start heap document, .start heap document⟩, begin_⟩)
  rcases (Stopped.of_pass (Reachable.wired reached) stopped).returns_node with
    ⟨state, done, isOpen, rfl⟩
  exact before.2

/-- What `do_parse` leaves is a region. -/
theorem DoParse.region {heap after : Heap} {document : Bytes} {node : NodeId}
    (parsed : DoParse heap document (some node) after) :
    Region after (Made heap.size after) (From heap.size after) :=
  (DoParse.attached parsed).region (DoParse.linked parsed).1

/-- Numbering the nodes leaves it one. -/
theorem XmlParseString.region {heap after : Heap} {string : Bytes} {node : NodeId}
    (parsed : XmlParseString heap string node after) :
    Region after (Made heap.size after) (From heap.size after) := by
  have linked := parsed.placed.1
  rcases parsed with ⟨_, before, done, walk⟩
  have renumbered := renumberChildren_renumbered walk
  have attached : Attached heap.size after := by
    apply (DoParse.attached done).congr renumbered.size
    intro n
    rcases renumbered.cell n with ⟨position, here⟩
    exact ⟨_, position, here⟩
  exact attached.region linked

/-- A context in which a parsed document is evaluated, with a node for the
local variables behind it. -/
theorem Region.setting {Num : Type} {env : Env Num} {heap after : Heap}
    {inside region : NodeId → Prop} (closed : Region heap inside region)
    (extended : heap.Extends after) (root : inside env.rootNode)
    (locals : ∀ l, env.locals = some l → heap.size ≤ l ∧ l < after.size) :
    Setting env after inside region where
  closed := closed.keep extended.grows fun n member => extended.same n (closed.bound member)
  root := root
  old := fun l here => (locals l here).2
  apart := fun l here member => absurd (closed.bound member) (Nat.not_lt.mpr (locals l here).1)

end TurboXSL
