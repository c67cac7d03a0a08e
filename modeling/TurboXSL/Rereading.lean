import Mathlib.Data.List.DropRight
import TurboXSL.Numbering
import TurboXSL.ParseCompleteness
import TurboXSL.RawOutput
import TurboXSL.RoundTrip

namespace TurboXSL

open Library Parse Output

/-!
# Parsing what was parsed and written

A document that was parsed is written and parsed again.  Its character data
may decode to something else and runs of it may merge, but the elements are
the same, provided that no markup comes in with the characters: the text of a
CDATA section is written as it stands.  Elements without a name are written
in a way that is read differently unless an attribute without a name or some
content follows.
-/

/-! ## Elements -/

/-- Sibling elements with the names of their attributes. -/
inductive Skeleton where
  | nil
  | element (name : Option Bytes) (attributes : List (Option Bytes)) (children next : Skeleton)

namespace Skeleton

def append : Skeleton → Skeleton → Skeleton
  | .nil, later => later
  | .element name attributes children next, later =>
      .element name attributes children (next.append later)

/-- The same elements, the attributes of each in any order. -/
inductive Same : Skeleton → Skeleton → Prop where
  | nil : Same .nil .nil
  | element (name : Option Bytes) {attributes others : List (Option Bytes)}
      {children children' next next' : Skeleton} (permuted : attributes.Perm others)
      (inner : Same children children') (tail : Same next next') :
      Same (.element name attributes children next) (.element name others children' next')

theorem append_nil (skeleton : Skeleton) : skeleton.append .nil = skeleton := by
  induction skeleton with
  | nil => rfl
  | element name attributes children next _ inductionHypothesis =>
      rw [append, inductionHypothesis]

theorem Same.append {first first' second second' : Skeleton} (left : Same first first')
    (right : Same second second') : Same (first.append second) (first'.append second') := by
  induction left with
  | nil => exact right
  | element name permuted inner _ _ inductionHypothesis =>
      exact .element name permuted inner inductionHypothesis

end Skeleton

/-- The elements that are written for a forest. -/
def Output.NodeForest.skeleton : NodeForest → Skeleton
  | .nil => .nil
  | .node cell attributes children next =>
      match cell.type with
      | .element =>
          .element cell.name (attributes.map XmlNode.name) children.skeleton next.skeleton
      | .text | .comment | .pi => next.skeleton
      | _ => children.skeleton.append next.skeleton

def Forest.skeleton : Forest → Skeleton
  | .nil => .nil
  | .text _ _ next => next.skeleton
  | .element name attributes children next =>
      .element (some name) (attributes.map fun attr => some attr.1) children.skeleton next.skeleton

def Forest.append : Forest → Forest → Forest
  | .nil, later => later
  | .text content flags next, later => .text content flags (next.append later)
  | .element name attributes children next, later =>
      .element name attributes children (next.append later)

theorem Forest.skeleton_append (first second : Forest) :
    (first.append second).skeleton = first.skeleton.append second.skeleton := by
  induction first with
  | nil => rfl
  | text content flags next inductionHypothesis => exact inductionHypothesis
  | element name attributes children next _ inductionHypothesis =>
      simp only [append, skeleton, Skeleton.append, inductionHypothesis]

/-- What is shown at `node` is written, the text is parsed in any memory, and
the elements come back. -/
def Survives (heap : Heap) (node : NodeId) : Prop :=
  Exists fun forest => Shown heap (some node) forest ∧
    Exists fun text : CString => Outputs .xml heap (some node) 0 text.bytes ∧
      ∀ memory, Exists fun root => Exists fun after => Exists fun reread =>
        DoParse memory text.bytes (some root) after ∧ Shown after (some root) reread ∧
          forest.skeleton.Same reread.skeleton

/-! ## What parsing leaves -/

/-- A node as the parser leaves it: names consist of name characters, a text
is decoded or the text of a CDATA section, and attributes are new nodes. -/
structure Legible (first : NodeId) (cell : XmlNode) : Prop where
  named : cell.type = .element ∨ cell.type = .attribute →
    Exists fun name => cell.name = some name ∧ ∀ c ∈ name, canName c = true
  characters : cell.type = .text →
    cell.content ≠ none ∧ (cell.flags = 0 ∨ cell.flags = xmlFlagNoescape)
  tagged : ∀ {attr}, cell.attributes = some attr → first ≤ attr
  later : ∀ {attr}, cell.type = .attribute → cell.next = some attr → first ≤ attr

abbrev AllLegible (first : NodeId) (heap : Heap) : Prop :=
  Uniform (fun _ => Legible first) first heap

theorem nameAt_named (p : Bytes) : ∀ c ∈ nameAt p, canName c = true :=
  fun _ member => List.mem_takeWhile_imp member

section Passes

variable {first : NodeId} {heap : Heap} (legible : AllLegible first heap)

include legible

theorem AllLegible.alloc {node : XmlNode} (new : Legible first node) :
    AllLegible first (heap.alloc node) := by
  intro n low high
  rcases Nat.lt_succ_iff_lt_or_eq.mp high with old | same
  · rw [heap.alloc_get_of_lt node old]
    exact legible n low old
  · rw [same, heap.alloc_get_same]
    exact new

theorem AllLegible.linkNode {ret previous : Ptr} {current : NodeId} {after : Heap}
    (new : first ≤ current) (linked : linkNode heap ret previous current = .ok after) :
    AllLegible first after := by
  have placed : AllLegible first (heap.modify current fun n =>
      { n with prev := previous, parent := ret, next := none }) :=
    Uniform.modify legible current fun here => ⟨here.named, here.characters, here.tagged, nofun⟩
  unfold Parse.linkNode at linked
  cases previous with
  | some sibling =>
      cases linked
      refine placed.modify sibling fun here => ⟨here.named, here.characters, here.tagged, ?_⟩
      rintro attr - ⟨⟩
      exact new
  | none =>
      cases ret with
      | some parent =>
          cases linked
          exact placed.modify parent fun here =>
            ⟨here.named, here.characters, here.tagged, here.later⟩
      | none => cases linked

end Passes

section Passes

variable {first : NodeId} {s s' : Parser} (legible : AllLegible first s.heap)

include legible

theorem AllLegible.text (content : Bytes) {flags : Nat}
    (flagged : flags = 0 ∨ flags = xmlFlagNoescape) :
    AllLegible first (textHeap s content flags) := by
  have made : textHeap s content flags = s.heap.alloc
      { type := .text, uid := some s.heap.size, content := some content, flags := flags } := by
    unfold textHeap xmlNewNode
    exact s.heap.modify_alloc _ _
  rw [made]
  refine AllLegible.alloc legible ⟨?_, fun _ => ⟨nofun, flagged⟩, nofun, nofun⟩
  rintro (impossible | impossible) <;> cases impossible

theorem AllLegible.attribute_ {current : NodeId} (low : first ≤ current)
    (high : current < s.heap.size) : AllLegible first (attributeHeap s current) := by
  have grows : first ≤ s.heap.size := Nat.le_trans low (Nat.le_of_lt high)
  have old := legible current low high
  have made : AllLegible first (xmlNewNode s.heap (some (nameAt (skipSpaces s.p))) .attribute).1 :=
    AllLegible.alloc legible ⟨fun _ => ⟨_, rfl, nameAt_named _⟩, nofun, nofun, nofun⟩
  have linked : AllLegible first ((xmlNewNode s.heap (some (nameAt (skipSpaces s.p)))
      .attribute).1.modify s.heap.size fun n =>
        { n with next := (s.heap.get current).attributes, parent := some current }) :=
    made.modify s.heap.size fun here =>
      ⟨here.named, here.characters, here.tagged, fun _ link => old.tagged link⟩
  unfold attributeHeap
  dsimp only [xmlNewNode] at linked ⊢
  rw [s.heap.alloc_get_of_lt _ high]
  refine linked.modify current fun here => ⟨here.named, here.characters, ?_, here.later⟩
  rintro attr ⟨⟩
  exact grows

theorem AllLegible.passed (woven : Woven first s) (step : Passed s s') :
    AllLegible first s'.heap := by
  cases step with
  | comment => rwa [(passComment_links s).2.2]
  | openElement _ _ heap linked =>
      refine (AllLegible.alloc legible ?_).linkNode woven.low linked
      exact ⟨fun _ => ⟨_, rfl, nameAt_named _⟩, nofun, nofun, nofun⟩
  | valuedAttribute state _ current here | bareAttribute state _ current here =>
      have fresh := (woven.tag (.inl state) here).made
      exact legible.attribute_ fresh.1 fresh.2.1
  | cdata _ heap _ _ linked => exact (legible.text _ (.inr rfl)).linkNode woven.low linked
  | text _ content heap _ _ linked =>
      exact (legible.text content (.inl rfl)).linkNode woven.low linked
  | value _ _ _ attr =>
      refine Uniform.modify legible attr fun here =>
        ⟨here.named, fun text => ?_, here.tagged, here.later⟩
      exact ⟨nofun, (here.characters text).2⟩
  | init | xmldecl | openDecl | openComment | openCdata | openDoctype | openClose | closeMatch
  | closeMismatch | tagEnd | tagSelfClose | emptyCdata | doctype | noText | bareValue | body =>
      exact legible

end Passes

theorem Reachable.legible {heap : Heap} {document : Bytes} {s : Parser}
    (reached : Reachable heap document s) : AllLegible heap.size s.heap := by
  induction reached with
  | refl =>
      have none_ : AllLegible heap.size heap :=
        fun n low high => absurd high (Nat.not_lt.mpr low)
      refine AllLegible.alloc none_ ⟨?_, nofun, nofun, nofun⟩
      rintro (impossible | impossible) <;> cases impossible
  | tail earlier step inductionHypothesis =>
      exact inductionHypothesis.passed (Reachable.woven earlier) (.of_pass step)

theorem DoParse.legible {heap after : Heap} {document : Bytes} {node : NodeId}
    (parsed : DoParse heap document (some node) after) : AllLegible heap.size after := by
  rcases returns_iff_reaches_stop.mp parsed with ⟨last, reached, stopped⟩
  rcases (Stopped.of_pass (Reachable.wired reached) stopped).returns_node with
    ⟨state, done, isOpen, rfl⟩
  exact Reachable.legible reached

/-- A name that the parser can have read. -/
def Lettered (name : Option Bytes) : Prop :=
  Exists fun letters => name = some letters ∧ ∀ c ∈ letters, canName c = true

/-- A forest as it is parsed. -/
inductive ParsedForest : NodeForest → Prop where
  | nil : ParsedForest .nil
  | element {cell : XmlNode} {attributes : List XmlNode} {children next : NodeForest}
      (type : cell.type = .element) (named : Lettered cell.name)
      (tagged : ∀ attr ∈ attributes, Lettered attr.name)
      (inner : ParsedForest children) (tail : ParsedForest next) :
      ParsedForest (.node cell attributes children next)
  | text {cell : XmlNode} {attributes : List XmlNode} {children next : NodeForest}
      (type : cell.type = .text) (characters : cell.content ≠ none)
      (flagged : cell.flags = 0 ∨ cell.flags = xmlFlagNoescape) (tail : ParsedForest next) :
      ParsedForest (.node cell attributes children next)
  | root {cell : XmlNode} {attributes : List XmlNode} {children next : NodeForest}
      (type : cell.type = .empty) (inner : ParsedForest children) (tail : ParsedForest next) :
      ParsedForest (.node cell attributes children next)

section Walk

variable {heap : Heap} {first : NodeId}

/-- The attributes of a node are new. -/
theorem AllLegible.attributes_new (legible : AllLegible first heap) {p : Ptr} {attrs : List NodeId}
    (begins : ∀ {attr}, p = some attr → first ≤ attr) (chain : Siblings heap p attrs)
    (members : ∀ attr ∈ attrs, attr < heap.size ∧ (heap.get attr).type = .attribute) :
    ∀ attr ∈ attrs, first ≤ attr := by
  induction chain with
  | nil => exact nofun
  | cons i rest _ inductionHypothesis =>
      have low := begins rfl
      have here := members i List.mem_cons_self
      have later := inductionHypothesis (fun link => (legible i low here.1).later here.2 link)
        fun attr member => members attr (List.mem_cons_of_mem i member)
      intro attr member
      rcases List.mem_cons.mp member with rfl | member
      · exact low
      · exact later attr member

/-- A walk over a document ends, since children and later siblings are younger. -/
theorem Linked.shown (linked : Linked heap (Made first heap)) (legible : AllLegible first heap)
    {n : NodeId} (made : Made first heap n) :
    Exists fun forest => Shown heap (some n) forest ∧ ParsedForest forest := by
  induction remaining : heap.size - n using Nat.strong_induction_on generalizing n with
  | _ count inductionHypothesis =>
      have younger : ∀ {p : Ptr}, (∀ m, p = some m → n < m ∧ Made first heap m) →
          Exists fun forest => Shown heap p forest ∧ ParsedForest forest := by
        intro p behind
        cases p with
        | none => exact ⟨.nil, .nil, .nil⟩
        | some m =>
            rcases behind m rfl with ⟨later, made⟩
            refine inductionHypothesis (heap.size - m) ?_ made rfl
            rw [← remaining]
            exact Nat.sub_lt_sub_left (Nat.lt_trans later made.2.1) later
      have children := younger (p := (heap.get n).children) (by
        intro m first_
        rcases linked.row made with ⟨row, children, inside⟩
        rw [first_] at children
        cases children with
        | cons _ _ rest up back younger tail => exact ⟨younger, inside m List.mem_cons_self⟩)
      have next := younger (p := (heap.get n).next) (by
        intro m link
        have found := linked.forest.behind made link
        exact ⟨found.2.1, found.1⟩)
      rcases children with ⟨children, shownChildren, parsedChildren⟩
      rcases next with ⟨next, shownNext, parsedNext⟩
      rcases linked.attributes made with ⟨attrs, chain, members⟩
      have cell := legible n made.1 made.2.1
      refine ⟨_, .node n attrs children next chain shownChildren shownNext, ?_⟩
      rcases linked.typed made with type | type | type
      · exact .root type parsedChildren parsedNext
      · refine .element type (cell.named (.inl type)) ?_ parsedChildren parsedNext
        intro attr member
        rcases List.mem_map.mp member with ⟨i, listed, rfl⟩
        have low := legible.attributes_new cell.tagged chain members i listed
        have found := members i listed
        exact (legible i low found.1).named (.inr found.2)
      · rcases cell.characters type with ⟨characters, flagged⟩
        exact .text type characters flagged parsedNext

end Walk

/-! ## Reading a written tag -/

namespace Parse

open Forest

theorem skipSpaces_letters {letters : Bytes} (named : ∀ c ∈ letters, canName c = true)
    {rest : Bytes} (stop : xIsWs (byteAt rest) = false) :
    skipSpaces (letters ++ rest) = letters ++ rest := by
  cases letters with
  | nil => exact skipSpaces_of_other stop
  | cons c letters => exact skipSpaces_of_other (canName_plain (named c List.mem_cons_self)).1

/-- Everything is decoded before at least two more bytes. -/
theorem makeUnescapedString_before {p rest : Bytes} (long : 2 ≤ rest.length) :
    Exists fun content => makeUnescapedString p rest = .ok content := by
  cases decoded : makeUnescapedString p rest with
  | ok content => exact ⟨content, rfl⟩
  | error failure =>
      rcases (makeUnescapedString_error_iff.mp decoded).2 with ⟨-, behind, -, stop, short, -⟩
      exact absurd long (Nat.not_le.mpr (Nat.lt_of_le_of_lt stop short))

/-- A name and an escaped value, as they are written. -/
def quotedAttribute (attr : Bytes × Bytes) : Bytes :=
  ' '.toUInt8 :: (attr.1 ++ '='.toUInt8 :: '"'.toUInt8 :: (attr.2 ++ ['"'.toUInt8]))

structure Quotable (attr : Bytes × Bytes) : Prop where
  letters : ∀ c ∈ attr.1, canName c = true
  unquoted : '"'.toUInt8 ∉ attr.2

section Tags

variable {s : Parser} {element : NodeId}

theorem pass_written_name {name rest : Bytes} (letters : ∀ c ∈ name, canName c = true)
    (state : s.state = .insideTag) (current : s.current = some element)
    (here : s.p = name ++ '='.toUInt8 :: '"'.toUInt8 :: rest) :
    Steps pass s
      { s with
        p := '"'.toUInt8 :: rest
        c := '='.toUInt8 :: '"'.toUInt8 :: rest
        attr := some s.heap.size
        heap := Forest.addAttribute s.heap element name
        state := .attrValue } := by
  generalize behind : '='.toUInt8 :: '"'.toUInt8 :: rest = later at here
  have mark : byteAt later = '='.toUInt8 := behind ▸ rfl
  have stop : canName (byteAt later) = false := by
    rw [mark]
    decide
  have black : xIsWs (byteAt later) = false := by
    rw [mark]
    decide
  have tail : skipSpaces later.tail = '"'.toUInt8 :: rest := by
    rw [← behind]
    exact skipSpaces_of_other (show xIsWs '"'.toUInt8 = false by decide)
  have scanned := nameAt_letters letters stop
  have more : name ++ later ≠ [] :=
    List.append_ne_nil_of_right_ne_nil _ (behind ▸ List.cons_ne_nil _ _)
  have atAttribute : AtAttribute (name ++ later) := by
    cases name with
    | nil =>
        refine ⟨?_, ?_⟩
        · rw [List.nil_append, mark]
          decide
        · rw [List.nil_append, ← behind]
          intro slash
          exact absurd (List.cons_prefix_cons.mp slash).1 (by decide)
    | cons c name =>
        have plain := canName_plain (letters c List.mem_cons_self)
        exact ⟨plain.2.1, fun slash => plain.2.2.1 (List.cons_prefix_cons.mp slash).1.symm⟩
  simp only [Steps, pass, state, reduceCtorEq, if_false, passInsideTag, here, if_neg more,
    List.isPrefixOf_iff_prefix, if_neg atAttribute.1, if_neg atAttribute.2, Parse.addAttribute,
    current, skipSpaces_letters letters black, scanned.1, scanned.2, skipSpaces_of_other black, mark,
    if_true, tail]
  rw [← behind]
  rfl

theorem pass_written_value {value tail : Bytes} (unquoted : '"'.toUInt8 ∉ value)
    (more : tail ≠ []) :
    Exists fun content => ∀ {s : Parser} {i : NodeId}, s.state = .attrValue → s.attr = some i →
      s.p = '"'.toUInt8 :: (value ++ '"'.toUInt8 :: tail) → Steps pass s
        { s with
          p := skipSpaces tail
          c := '"'.toUInt8 :: tail
          heap := setContent s.heap i content
          state := .insideTag } := by
  have long : 2 ≤ ('"'.toUInt8 :: tail).length :=
    Nat.succ_le_succ (List.length_pos_iff.mpr more)
  rcases makeUnescapedString_before (p := value ++ '"'.toUInt8 :: tail) long with
    ⟨content, decoded⟩
  have found := seekByte_append unquoted tail
  have quoted : isQuote '"'.toUInt8 = true := by decide
  refine ⟨content, fun {s i} state made here => ?_⟩
  simp only [Steps, pass, state, here, reduceCtorEq, if_false, passAttrValue, byteAt,
    List.headD_cons, quoted, if_true, List.tail_cons, found, decoded, made, leaveAttrValue, bind,
    Except.bind]
  rfl

/-- All attributes of a written tag are made, the last one first. -/
theorem reaches_written_attributes (attrs : List (Bytes × Bytes))
    (quotable : ∀ attr ∈ attrs, Quotable attr) {mark : Bytes} (more : mark ≠ []) :
    Exists fun values : List (Bytes × Bytes) => values.map Prod.fst = attrs.reverse.map Prod.fst ∧
      ∀ {s : Parser} {element : NodeId}, s.state = .insideTag → s.current = some element →
        s.p = skipSpaces (attrs.flatMap quotedAttribute ++ mark) →
          Exists fun c => Exists fun last => Reaches pass s
            { s with
              p := skipSpaces mark
              c := c
              attr := last
              heap := buildAttributes s.heap element values
              state := .insideTag } := by
  induction attrs with
  | nil =>
      refine ⟨[], rfl, fun {s element} state current here => ⟨s.c, s.attr, ?_⟩⟩
      have same : s = { s with p := skipSpaces mark, state := .insideTag } := by
        rw [← show s.p = skipSpaces mark from here, ← state]
      exact same ▸ .refl
  | cons attr rest inductionHypothesis =>
      have first := quotable attr List.mem_cons_self
      generalize behind : rest.flatMap quotedAttribute ++ mark = tail at inductionHypothesis
      have some_ : tail ≠ [] := behind ▸ List.append_ne_nil_of_right_ne_nil _ more
      rcases pass_written_value first.unquoted some_ with ⟨content, valued⟩
      rcases inductionHypothesis fun attr member => quotable attr (List.mem_cons_of_mem _ member)
        with ⟨values, names, later⟩
      refine ⟨values ++ [(attr.1, content)], ?_, fun {s element} state current here => ?_⟩
      · rw [List.map_append, names, List.reverse_cons, List.map_append]
        rfl
      · have begins : s.p = attr.1 ++ '='.toUInt8 :: '"'.toUInt8 ::
            (attr.2 ++ '"'.toUInt8 :: tail) := by
          rw [here, List.flatMap_cons, List.append_assoc, behind, quotedAttribute]
          simp only [List.cons_append, List.append_assoc, List.nil_append]
          exact skipSpaces_letters first.letters (show xIsWs '='.toUInt8 = false by decide)
        have named := pass_written_name first.letters state current begins
        have read := valued (s := { s with
          p := '"'.toUInt8 :: (attr.2 ++ '"'.toUInt8 :: tail)
          c := '='.toUInt8 :: '"'.toUInt8 :: (attr.2 ++ '"'.toUInt8 :: tail)
          attr := some s.heap.size
          heap := Forest.addAttribute s.heap element attr.1
          state := .attrValue }) rfl rfl rfl
        rcases later (s := { s with
          p := skipSpaces tail
          c := '"'.toUInt8 :: tail
          attr := some s.heap.size
          heap := setContent (Forest.addAttribute s.heap element attr.1) s.heap.size content
          state := .insideTag }) rfl current rfl with ⟨c, last, reached⟩
        refine ⟨c, last, ?_⟩
        rw [buildAttributes_append]
        exact ((Relation.ReflTransGen.single named).tail read).trans reached

end Tags

/-- The name of a written start tag is read back, where a missing one is not
taken from the first attribute. -/
theorem pass_written_open {name rest : Bytes} (letters : ∀ c ∈ name, canName c = true)
    (begins : name ≠ [] ∧ canName (byteAt rest) = false ∨
      name = [] ∧ rest ≠ [] ∧ AtElement rest ∧ canName (byteAt (skipSpaces rest)) = false)
    (parent : NodeId) (previous : Ptr) (depth : Nat) (heap : Heap) (c : Bytes) (current attr : Ptr) :
    Exists fun c' => Steps pass
      ((⟨.openTag, name ++ rest, some parent, previous, depth, heap⟩ : View).parser c current attr)
      ((⟨.insideTag, skipSpaces rest, some parent, previous, depth,
        addElement heap parent previous name⟩ : View).parser c' (some heap.size) attr) := by
  have scan : Exists fun c' => name ++ rest ≠ [] ∧ AtElement (name ++ rest) ∧
      nameAt (skipSpaces (name ++ rest)) = name ∧ afterName (skipSpaces (name ++ rest)) = c' ∧
      skipSpaces c' = skipSpaces rest := by
    rcases begins with ⟨some_, stop⟩ | ⟨rfl, more, atElement, stop⟩
    · rcases List.exists_cons_of_ne_nil some_ with ⟨first, later, split⟩
      have plain := canName_plain (letters first (split ▸ List.mem_cons_self))
      have scanned := nameAt_letters letters stop
      have still : skipSpaces (name ++ rest) = name ++ rest := by
        rw [split]
        exact skipSpaces_of_other plain.1
      refine ⟨rest, List.append_ne_nil_of_left_ne_nil some_ rest, ?_, ?_, ?_, rfl⟩
      · rw [split]
        exact ⟨plain.2.2.2.1, plain.2.2.2.2, plain.2.2.1⟩
      · rw [still, scanned.1]
      · rw [still, scanned.2]
    · have scanned := @nameAt_letters [] nofun _ stop
      rw [List.nil_append] at scanned ⊢
      exact ⟨skipSpaces rest, more, atElement, scanned.1, scanned.2, List.dropWhile_idempotent xIsWs rest⟩
  rcases scan with ⟨c', more, atElement, named, behind, ended⟩
  have noMark : ∀ mark ∈ [lit "!--", lit "![CDATA[", lit "!DOCTYPE"], ¬ mark <+: name ++ rest := by
    intro mark listed found
    have starts : ∀ mark ∈ [lit "!--", lit "![CDATA[", lit "!DOCTYPE"],
        ['!'.toUInt8] <+: mark := by decide
    rcases (starts mark listed).trans found with ⟨later, split⟩
    exact atElement.2.1 (split ▸ rfl)
  refine ⟨c', ?_⟩
  simp only [Steps, pass, View.parser, reduceCtorEq, if_false, if_neg more, passOpen,
    if_neg atElement.1, if_neg atElement.2.1, if_neg atElement.2.2, List.isPrefixOf_iff_prefix,
    if_neg (noMark (lit "!--") (by simp)), if_neg (noMark (lit "![CDATA[") (by simp)),
    if_neg (noMark (lit "!DOCTYPE") (by simp)), openElement, named, behind, ended,
    linkNode_eq_hang, bind, Except.bind]
  rfl

/-- A start tag that is read as the element it was written for. -/
def Recognized (name : Bytes) (attrs : List (Bytes × Bytes)) (mark : Bytes) : Prop :=
  name ≠ [] ∨ (Exists fun attr => attrs.head? = some attr ∧ attr.1 = []) ∨
    attrs = [] ∧ byteAt mark = '>'.toUInt8

theorem Recognized.begins {name mark : Bytes} {attrs : List (Bytes × Bytes)}
    (recognized : Recognized name attrs mark) (unnamed : canName (byteAt mark) = false) :
    name ≠ [] ∧ canName (byteAt (attrs.flatMap quotedAttribute ++ mark)) = false ∨
      name = [] ∧ attrs.flatMap quotedAttribute ++ mark ≠ [] ∧
        AtElement (attrs.flatMap quotedAttribute ++ mark) ∧
        canName (byteAt (skipSpaces (attrs.flatMap quotedAttribute ++ mark))) = false := by
  have atBlank : ∀ rest, AtElement (' '.toUInt8 :: rest) := fun rest =>
    ⟨show ' '.toUInt8 ≠ _ by decide, show ' '.toUInt8 ≠ _ by decide,
      show ' '.toUInt8 ≠ _ by decide⟩
  by_cases empty : name = []
  · refine .inr ⟨empty, ?_⟩
    rcases recognized with named | ⟨attr, first, nameless⟩ | ⟨rfl, opened⟩
    · exact absurd empty named
    · cases attrs with
      | nil => cases first
      | cons other rest =>
          cases first
          rw [List.flatMap_cons, quotedAttribute, nameless]
          refine ⟨List.cons_ne_nil _ _, atBlank _, ?_⟩
          exact show canName '='.toUInt8 = false by decide
    · cases mark with
      | nil => exact absurd opened (by decide)
      | cons c mark =>
          have same : c = '>'.toUInt8 := opened
          subst same
          refine ⟨List.cons_ne_nil _ _, ?_, show canName '>'.toUInt8 = false by decide⟩
          exact ⟨show '>'.toUInt8 ≠ _ by decide, show '>'.toUInt8 ≠ _ by decide,
            show '>'.toUInt8 ≠ _ by decide⟩
  · refine .inl ⟨empty, ?_⟩
    cases attrs with
    | nil => exact unnamed
    | cons attr rest => exact show canName ' '.toUInt8 = false by decide

section Tags

variable {name : Bytes} {attrs : List (Bytes × Bytes)} {q : Bytes}
  (letters : ∀ c ∈ name, canName c = true) (quotable : ∀ attr ∈ attrs, Quotable attr)

include letters quotable

/-- A written tag is read up to the mark that ends it. -/
theorem reaches_written_tag {mark : Bytes} (recognized : Recognized name attrs mark)
    (more : mark ≠ []) (unnamed : canName (byteAt mark) = false)
    (black : xIsWs (byteAt mark) = false) :
    Exists fun values : List (Bytes × Bytes) => values.map Prod.fst = attrs.reverse.map Prod.fst ∧
      ∀ parent previous depth heap c current attr, Exists fun c' => Exists fun attr' => Reaches pass
        ((⟨.openTag, name ++ (attrs.flatMap quotedAttribute ++ mark), some parent, previous, depth,
          heap⟩ : View).parser c current attr)
        ((⟨.insideTag, mark, some parent, previous, depth,
          buildAttributes (addElement heap parent previous name) heap.size values⟩ : View).parser c'
          (some heap.size) attr') := by
  rcases reaches_written_attributes attrs quotable more with ⟨values, names, tagged⟩
  refine ⟨values, names, fun parent previous depth heap c current attr => ?_⟩
  rcases pass_written_open letters (recognized.begins unnamed) parent previous depth heap c current
    attr with ⟨c', opened⟩
  rcases tagged (s := (⟨.insideTag, skipSpaces (attrs.flatMap quotedAttribute ++ mark), some parent,
    previous, depth, addElement heap parent previous name⟩ : View).parser c' (some heap.size) attr)
    rfl rfl rfl with ⟨c'', last, reached⟩
  refine ⟨c'', last, Relation.ReflTransGen.head opened ?_⟩
  rw [skipSpaces_of_other black] at reached
  exact reached

/-- A written start tag opens an element. -/
theorem leads_written_start (recognized : Recognized name attrs ('>'.toUInt8 :: q)) :
    Exists fun values : List (Bytes × Bytes) => values.map Prod.fst = attrs.reverse.map Prod.fst ∧
      ∀ parent previous depth heap, Leads
        ⟨.openTag, name ++ (attrs.flatMap quotedAttribute ++ '>'.toUInt8 :: q), some parent,
          previous, depth, heap⟩
        ⟨.text, q, some heap.size, none, depth,
          buildAttributes (addElement heap parent previous name) heap.size values⟩ := by
  rcases reaches_written_tag letters quotable recognized (List.cons_ne_nil _ _)
    (show canName '>'.toUInt8 = false by decide) (show xIsWs '>'.toUInt8 = false by decide) with
    ⟨values, names, tagged⟩
  refine ⟨values, names, fun parent previous depth heap c current attr => ?_⟩
  rcases tagged parent previous depth heap c current attr with ⟨c', attr', reached⟩
  exact ⟨c', none, attr', reached.tail rfl⟩

/-- A written empty tag makes an element without children. -/
theorem leads_written_empty (recognized : Recognized name attrs (lit "/>" ++ q)) :
    Exists fun values : List (Bytes × Bytes) => values.map Prod.fst = attrs.reverse.map Prod.fst ∧
      ∀ parent previous depth heap, Leads
        ⟨.openTag, name ++ (attrs.flatMap quotedAttribute ++ (lit "/>" ++ q)), some parent,
          previous, depth, heap⟩
        ⟨.text, q, some parent, some heap.size, depth,
          buildAttributes (addElement heap parent previous name) heap.size values⟩ := by
  rcases reaches_written_tag letters quotable recognized (List.cons_ne_nil _ _)
    (show canName '/'.toUInt8 = false by decide) (show xIsWs '/'.toUInt8 = false by decide) with
    ⟨values, names, tagged⟩
  refine ⟨values, names, fun parent previous depth heap c current attr => ?_⟩
  rcases tagged parent previous depth heap c current attr with ⟨c', attr', reached⟩
  exact ⟨c', some heap.size, attr', reached.tail rfl⟩

end Tags

/-- The end tag of the open element. -/
theorem leads_written_end {name : Bytes} (letters : ∀ c ∈ name, canName c = true) (q : Bytes)
    {element parent : NodeId} {heap : Heap} (named : (heap.get element).name = some name)
    (up : (heap.get element).parent = some parent) (previous : Ptr) (depth : Nat) :
    Leads ⟨.openTag, '/'.toUInt8 :: (name ++ '>'.toUInt8 :: q), some element, previous, depth, heap⟩
      ⟨.text, q, some parent, some element, depth, heap⟩ := by
  have opened : Leads
      ⟨.openTag, '/'.toUInt8 :: (name ++ '>'.toUInt8 :: q), some element, previous, depth, heap⟩
      ⟨.close, name ++ '>'.toUInt8 :: q, some element, previous, depth, heap⟩ :=
    .of_pass fun c current attr => ⟨c, current, attr, rfl⟩
  have still := skipSpaces_letters letters
    (show xIsWs (byteAt ('>'.toUInt8 :: q)) = false from (by decide : xIsWs '>'.toUInt8 = false))
  have scanned := nameAt_letters letters
    (show canName (byteAt ('>'.toUInt8 :: q)) = false from (by decide : canName '>'.toUInt8 = false))
  have found : seekByte '>'.toUInt8 ('>'.toUInt8 :: q) = .ok ('>'.toUInt8 :: q) := by
    simp only [seekByte, if_true]
  have more : name ++ '>'.toUInt8 :: q ≠ [] :=
    List.append_ne_nil_of_right_ne_nil _ (List.cons_ne_nil _ _)
  have same : name.isPrefixOf name = true := List.isPrefixOf_iff_prefix.mpr (List.prefix_refl _)
  refine opened.trans (.of_pass fun c current attr => ⟨'>'.toUInt8 :: q, current, attr, ?_⟩)
  simp only [pass, View.parser, reduceCtorEq, if_false, if_neg more, passClose, still, named, up,
    memcmpEqual, scanned.1, scanned.2, same, if_true, found, bind, Except.bind, List.tail_cons]

/-! ## Reading a written forest -/

/-- Character data that has been read since the last tag; `none` while nothing
but character data has been read and all of it is skipped. -/
abbrev Run := Option Bytes

def Run.state : Run → State
  | none => .init
  | some _ => .text

/-- No tag begins in the run. -/
def Run.Plain (run : Run) : Prop := ∀ text, run = some text → '<'.toUInt8 ∉ text

/-- A text node, if there is any text. -/
def textIfAny : Option Bytes → Forest
  | none => .nil
  | some content => .text content 0 .nil

theorem textIfAny_skeleton (content : Option Bytes) : (textIfAny content).skeleton = .nil := by
  cases content <;> rfl

theorem seekMarkup_plain {text rest : Bytes} (plain : '<'.toUInt8 ∉ text)
    (stop : rest = [] ∨ Exists fun q => rest = '<'.toUInt8 :: q) :
    seekMarkup (text ++ rest) = rest := by
  rcases stop with rfl | ⟨q, rfl⟩
  · rw [List.append_nil]
    refine List.dropWhile_eq_nil_iff.mpr fun c member => ?_
    exact decide_eq_true fun same => plain (same ▸ member)
  · exact dropWhile_ne_append plain q

/-- The end of a run makes its text node, if there is any text. -/
theorem leads_run {run : Run} (plain : run.Plain) {rest : Bytes}
    (stop : rest = [] ∨ Exists fun q => rest = '<'.toUInt8 :: q)
    (decodes : ∀ text, run = some text →
      Exists fun content => makeUnescapedString (text ++ rest) rest = .ok content) :
    Exists fun content => Exists fun state => (rest = [] ∨ state = .init) ∧ state ≠ .error ∧
      ∀ {parent : NodeId} {previous : Ptr} {heap : Heap},
        Leads ⟨run.state, run.getD [] ++ rest, some parent, previous, 0, heap⟩
          ⟨state, rest, some parent, (build heap parent previous (textIfAny content)).2, 0,
            (build heap parent previous (textIfAny content)).1⟩ := by
  cases run with
  | none => exact ⟨none, .init, .inr rfl, nofun, .refl _⟩
  | some text =>
      by_cases empty : text = []
      · subst empty
        rcases stop with rfl | ⟨q, rfl⟩
        · exact ⟨none, .text, .inl rfl, nofun, .refl _⟩
        · exact ⟨none, .init, .inr rfl, nofun, leads_text_none⟩
      · rcases decodes text rfl with ⟨content, decoded⟩
        refine ⟨some content, .init, .inr rfl, nofun, ?_⟩
        exact leads_text empty (seekMarkup_plain (plain text rfl) stop) decoded

/-- Before a tag the run is put into a text node. -/
theorem leads_run_tag {run : Run} (plain : run.Plain) {q : Bytes} (more : q ≠ []) :
    Exists fun content => ∀ {parent : NodeId} {previous : Ptr} {heap : Heap},
      Leads ⟨run.state, run.getD [] ++ '<'.toUInt8 :: q, some parent, previous, 0, heap⟩
        ⟨.openTag, q, some parent, (build heap parent previous (textIfAny content)).2, 0,
          (build heap parent previous (textIfAny content)).1⟩ := by
  rcases leads_run plain (.inr ⟨q, rfl⟩) fun _ _ =>
    makeUnescapedString_before (Nat.succ_le_succ (List.length_pos_iff.mpr more)) with
    ⟨content, state, ended, -, reached⟩
  rcases ended with impossible | rfl
  · cases impossible
  · exact ⟨content, reached.trans leads_init_bracket⟩

theorem build_append (first second : Forest) (heap : Heap) (parent : NodeId) (previous : Ptr) :
    build heap parent previous (first.append second) =
      build (build heap parent previous first).1 parent (build heap parent previous first).2
        second := by
  induction first generalizing heap previous with
  | nil => rfl
  | text content flags next inductionHypothesis => exact inductionHypothesis _ _
  | element name attributes children next _ inductionHypothesis => exact inductionHypothesis _ _

theorem build_old (forest : Forest) {heap : Heap} {parent : NodeId} {previous : Ptr}
    (old : previous.getD parent < heap.size) :
    (build heap parent previous forest).2.getD parent <
      (build heap parent previous forest).1.size := by
  induction forest generalizing heap previous with
  | nil => exact old
  | text content flags next inductionHypothesis =>
      refine inductionHypothesis ?_
      rw [addText_size]
      exact Nat.lt_succ_self _
  | element name attributes children next _ inductionHypothesis =>
      rcases tagged_element name attributes children old rfl with ⟨-, filled, built, inside, -⟩
      refine inductionHypothesis ?_
      rw [built]
      exact inside

/-- From `p` behind the run `before` to `q` behind the run `after` the parser
makes elements like these below `parent`. -/
def Makes (parent : NodeId) (before : Run) (p : Bytes) (after : Run) (q : Bytes)
    (skeleton : Skeleton) : Prop :=
  ∀ previous heap, previous.getD parent < heap.size → Exists fun made : Forest =>
    Leads ⟨before.state, before.getD [] ++ p, some parent, previous, 0, heap⟩
      ⟨after.state, after.getD [] ++ q, some parent, (build heap parent previous made).2, 0,
        (build heap parent previous made).1⟩ ∧ skeleton.Same made.skeleton

section Making

variable {parent : NodeId} {first second third : Run} {p q r : Bytes} {skeleton later : Skeleton}

theorem Makes.refl (parent : NodeId) (run : Run) (p : Bytes) : Makes parent run p run p .nil :=
  fun _ _ _ => ⟨.nil, .refl _, .nil⟩

theorem Makes.trans (left : Makes parent first p second q skeleton)
    (right : Makes parent second q third r later) :
    Makes parent first p third r (skeleton.append later) := by
  intro previous heap old
  rcases left previous heap old with ⟨made, reached, same⟩
  rcases right _ _ (build_old made old) with ⟨made', reached', same'⟩
  refine ⟨made.append made', ?_, ?_⟩
  · rw [build_append]
    exact reached.trans reached'
  · rw [Forest.skeleton_append]
    exact same.append same'

/-- Character data joins the run. -/
theorem Makes.text {text : Bytes} (plain : '<'.toUInt8 ∉ text)
    (behind : Makes parent (first.map (· ++ text)) p second q skeleton) :
    Makes parent first (text ++ p) second q skeleton := by
  intro previous heap old
  rcases behind previous heap old with ⟨made, reached, same⟩
  refine ⟨made, ?_, same⟩
  cases first with
  | none => exact (leads_init_skip plain).trans reached
  | some earlier =>
      have joined : (some earlier : Run).getD [] ++ (text ++ p) =
          ((some earlier : Run).map (· ++ text)).getD [] ++ p := (List.append_assoc ..).symm
      rw [joined]
      exact reached

end Making

end Parse

/-! ## Forests that are read as they were -/

namespace Output

/-- The character data behind the last tag of a forest, if a tag or the run in
front has begun it. -/
def NodeForest.lastRun (run : Run) : NodeForest → Run
  | .nil => run
  | .node cell _ children next =>
      match cell.type with
      | .element => next.lastRun (some [])
      | .text => next.lastRun (run.map (· ++ outputText cell 0))
      | _ => next.lastRun (children.lastRun run)

/-- A start tag without a name does not take it from an attribute, and it is
no end tag. -/
def Recognizable (cell : XmlNode) (attributes : List XmlNode) (children : NodeForest) : Prop :=
  cell.name ≠ some [] ∨
    (Exists fun attr => attributes.head? = some attr ∧ attr.name = some []) ∨
    attributes = [] ∧ children ≠ .nil

/-- No tag begins in a text that is written as it stands, and every start tag
is recognized. -/
def NodeForest.Rereadable : NodeForest → Prop
  | .nil => True
  | .node cell attributes children next =>
      (match cell.type with
        | .element => Recognizable cell attributes children ∧ children.Rereadable
        | .text => cell.flags &&& xmlFlagNoescape ≠ 0 → '<'.toUInt8 ∉ appended cell.content
        | _ => children.Rereadable) ∧
        next.Rereadable

/-- An attribute as it is written. -/
def attributePair (attr : XmlNode) : Bytes × Bytes :=
  (appended attr.name, (attr.content.map addQuotedAttributeValue).getD [])

theorem outputAttribute_eq (attr : XmlNode) :
    outputAttribute attr = quotedAttribute (attributePair attr) := by
  have blank : lit " " = [' '.toUInt8] := by decide
  have equals : lit "=\"" = ['='.toUInt8, '"'.toUInt8] := by decide
  have mark : lit "\"" = ['"'.toUInt8] := by decide
  simp only [outputAttribute, quotedAttribute, attributePair, blank, equals, mark, List.append_assoc,
    List.cons_append, List.nil_append]

/-- Bytes that escaping leaves none of. -/
theorem not_mem_addQuoted {quotes : Bool} {c : UInt8}
    (special : c = 0 ∨ c = '<'.toUInt8 ∨ quotes = true ∧ c = '"'.toUInt8) (value : Bytes) :
    c ∉ addQuoted quotes value := by
  have absent : ∀ reference ∈ [lit "&quot;", lit "&lt;", lit "&gt;", lit "&amp;"],
      c ∉ reference := by
    have checked : ∀ reference ∈ [lit "&quot;", lit "&lt;", lit "&gt;", lit "&amp;"],
        0 ∉ reference ∧ '<'.toUInt8 ∉ reference ∧ '"'.toUInt8 ∉ reference := by decide
    intro reference listed
    rcases special with rfl | rfl | ⟨-, rfl⟩
    · exact (checked reference listed).1
    · exact (checked reference listed).2.1
    · exact (checked reference listed).2.2
  have replaced : ∀ {reference rest : Bytes},
      reference ∈ [lit "&quot;", lit "&lt;", lit "&gt;", lit "&amp;"] → c ∉ rest →
        c ∉ reference ++ rest := by
    intro reference rest listed later member
    exact (List.mem_append.mp member).elim (absent reference listed) later
  induction value with
  | nil => exact List.not_mem_nil
  | cons d value inductionHypothesis =>
      rw [addQuoted]
      by_cases zero : d = 0
      · rw [if_pos zero]
        exact List.not_mem_nil
      rw [if_neg zero]
      by_cases quote : quotes = true ∧ d = '"'.toUInt8
      · rw [if_pos quote]
        exact replaced (by simp) inductionHypothesis
      rw [if_neg quote]
      by_cases less : d = '<'.toUInt8
      · rw [if_pos less]
        exact replaced (by simp) inductionHypothesis
      rw [if_neg less]
      by_cases greater : d = '>'.toUInt8
      · rw [if_pos greater]
        exact replaced (by simp) inductionHypothesis
      rw [if_neg greater]
      by_cases ampersand : d = '&'.toUInt8 ∧ byteAt value ≠ '#'.toUInt8
      · rw [if_pos ampersand]
        exact replaced (by simp) inductionHypothesis
      rw [if_neg ampersand]
      intro member
      rcases List.mem_cons.mp member with rfl | member
      · rcases special with rfl | rfl | both
        · exact zero rfl
        · exact less rfl
        · exact quote both
      · exact inductionHypothesis member

theorem zero_not_mem_untilNul (value : Bytes) : 0 ∉ untilNul value := by
  intro member
  have visible := List.mem_takeWhile_imp (p := fun c : UInt8 => decide (c ≠ 0)) member
  exact of_decide_eq_true visible rfl

theorem zero_not_mem_appended (value : Option Bytes) : 0 ∉ appended value := by
  cases value with
  | none => exact List.not_mem_nil
  | some value => exact zero_not_mem_untilNul value

/-- A parsed text is written escaped, or as it stands if it comes from a CDATA section. -/
theorem outputText_parsed {cell : XmlNode} (flagged : cell.flags = 0 ∨ cell.flags = xmlFlagNoescape) :
    outputText cell 0 =
      if cell.flags &&& xmlFlagNoescape ≠ 0 then appended cell.content
      else (cell.content.map addQuotedStr).getD [] := by
  have unmarked : cell.flags &&& xmlFlagCdata = 0 := by
    rcases flagged with same | same <;> rw [same] <;> rfl
  simp only [outputText, unmarked, ne_eq, not_true_eq_false, if_false, or_false, List.nil_append,
    List.append_nil]

/-- No tag begins in what is written for a text. -/
theorem outputText_plain {cell : XmlNode} (flagged : cell.flags = 0 ∨ cell.flags = xmlFlagNoescape)
    (plain : cell.flags &&& xmlFlagNoescape ≠ 0 → '<'.toUInt8 ∉ appended cell.content) :
    '<'.toUInt8 ∉ outputText cell 0 := by
  rw [outputText_parsed flagged]
  by_cases raw : cell.flags &&& xmlFlagNoescape ≠ 0
  · rw [if_pos raw]
    exact plain raw
  · rw [if_neg raw]
    cases cell.content with
    | none => exact List.not_mem_nil
    | some content => exact not_mem_addQuoted (.inr (.inl rfl)) content

theorem zero_not_mem_outputText {cell : XmlNode}
    (flagged : cell.flags = 0 ∨ cell.flags = xmlFlagNoescape) : 0 ∉ outputText cell 0 := by
  rw [outputText_parsed flagged]
  split
  · exact zero_not_mem_appended cell.content
  · cases cell.content with
    | none => exact List.not_mem_nil
    | some content => exact not_mem_addQuoted (.inl rfl) content

end Output

/-- A name is written whole. -/
theorem Lettered.whole {name : Option Bytes} (lettered : Lettered name) :
    name = some (appended name) ∧ ∀ c ∈ appended name, canName c = true := by
  rcases lettered with ⟨letters, rfl, named⟩
  have written : appended (some letters) = letters := by
    refine untilNul_eq_self fun zero => ?_
    exact absurd (named 0 zero) (by decide)
  rw [written]
  exact ⟨rfl, named⟩

theorem Lettered.quotable {attr : XmlNode} (lettered : Lettered attr.name) :
    Quotable (attributePair attr) := by
  refine ⟨lettered.whole.2, ?_⟩
  rw [attributePair]
  cases attr.content with
  | none => exact List.not_mem_nil
  | some value => exact not_mem_addQuoted (.inr (.inr ⟨rfl, rfl⟩)) value

/-! ## The simulation -/

section Simulation

open Forest

variable {cell : XmlNode} {attributes : List XmlNode} {children next : NodeForest}

/-- The text of an element: the start tag, the content and the end tag if
there are children, and what is behind. -/
theorem forestOutput_element (attributes : List XmlNode) (children next : NodeForest)
    (enclosing : List XmlNode) (type : cell.type = .element) (q : Bytes) :
    Exists fun mark => mark ≠ [] ∧
      forestOutput .xml 0 enclosing (.node cell attributes children next) ++ q =
        '<'.toUInt8 :: (appended cell.name ++
          ((attributes.map attributePair).flatMap quotedAttribute ++ mark)) ∧
      mark = if children = .nil then lit "/>" ++ (forestOutput .xml 0 enclosing next ++ q)
        else '>'.toUInt8 :: (forestOutput .xml 0 (cell :: enclosing) children ++
          '<'.toUInt8 :: '/'.toUInt8 :: (appended cell.name ++
            '>'.toUInt8 :: (forestOutput .xml 0 enclosing next ++ q))) := by
  have tags : attributes.flatMap outputAttribute =
      (attributes.map attributePair).flatMap quotedAttribute := by
    rw [List.flatMap_map]
    exact congrArg (attributes.flatMap ·) (funext outputAttribute_eq)
  have html : ¬ (OutputMode.xml = .html ∧ isHtmlEmptyTag cell.name = true) := nofun
  refine ⟨_, ?_, ?_, rfl⟩
  · split
    · exact List.append_ne_nil_of_left_ne_nil (by decide) _
    · exact List.cons_ne_nil _ _
  · simp only [forestOutput, type, if_neg html, if_true, tags, lit_openings]
    split <;> simp only [List.append_assoc, List.cons_append, List.nil_append]

theorem Output.Recognizable.recognized (recognizable : Recognizable cell attributes children)
    (named : Lettered cell.name) {mark : Bytes}
    (opened : children ≠ .nil → byteAt mark = '>'.toUInt8) :
    Recognized (appended cell.name) (attributes.map attributePair) mark := by
  rcases recognizable with name | ⟨attr, first, nameless⟩ | ⟨bare, some_⟩
  · refine .inl fun empty => name ?_
    rw [named.whole.1, empty]
  · refine .inr (.inl ⟨attributePair attr, ?_, ?_⟩)
    · rw [List.head?_map, first]
      rfl
    · rw [attributePair, nameless]
      rfl
  · exact .inr (.inr ⟨List.map_eq_nil_iff.mpr bare, opened some_⟩)

/-- The names of the attributes come back in some order. -/
theorem attributes_perm (tagged : ∀ attr ∈ attributes, Lettered attr.name)
    {values : List (Bytes × Bytes)}
    (names : values.map Prod.fst = (attributes.map attributePair).reverse.map Prod.fst) :
    (attributes.map XmlNode.name).Perm (values.map fun value => some value.1) := by
  have written : attributes.map XmlNode.name =
      ((attributes.map attributePair).map Prod.fst).map some := by
    rw [List.map_map, List.map_map]
    exact List.map_congr_left fun attr member => (tagged attr member).whole.1
  have read : values.map (fun value => some value.1) = (values.map Prod.fst).map some := by
    rw [List.map_map]
    rfl
  rw [written, read, names]
  exact (((attributes.map attributePair).reverse_perm.map Prod.fst).map some).symm

theorem Parse.Run.Plain.append {run : Run} (plain : run.Plain) {text : Bytes}
    (absent : '<'.toUInt8 ∉ text) : Run.Plain (run.map (· ++ text)) := by
  cases run with
  | none => exact nofun
  | some earlier =>
      rintro _ ⟨⟩ member
      exact (List.mem_append.mp member).elim (plain earlier rfl) absent

theorem Parse.Run.Plain.skipped : Run.Plain none := nofun

theorem Parse.Run.Plain.empty : Run.Plain (some []) := by
  rintro _ ⟨⟩
  exact List.not_mem_nil

theorem lastRun_plain {forest : NodeForest} (parsed : ParsedForest forest)
    (rereadable : forest.Rereadable) {run : Run} (plain : run.Plain) :
    (forest.lastRun run).Plain := by
  induction parsed generalizing run with
  | nil => exact plain
  | element type named tagged inner tail innerHypothesis tailHypothesis =>
      simp only [NodeForest.Rereadable, type] at rereadable
      simp only [NodeForest.lastRun, type]
      exact tailHypothesis rereadable.2 .empty
  | text type characters flagged tail inductionHypothesis =>
      simp only [NodeForest.Rereadable, type] at rereadable
      simp only [NodeForest.lastRun, type]
      exact inductionHypothesis rereadable.2 (plain.append (outputText_plain flagged rereadable.1))
  | root type inner tail innerHypothesis tailHypothesis =>
      simp only [NodeForest.Rereadable, type] at rereadable
      simp only [NodeForest.lastRun, type]
      exact tailHypothesis rereadable.2 (innerHypothesis rereadable.1 plain)

/-- A written element is read as one like it. -/
theorem makes_element {enclosing : List XmlNode} (type : cell.type = .element)
    (named : Lettered cell.name) (tagged : ∀ attr ∈ attributes, Lettered attr.name)
    (recognizable : Recognizable cell attributes children) {parent : NodeId} {run : Run} {q : Bytes}
    (plain : run.Plain) (innerPlain : Run.Plain (children.lastRun (some [])))
    (inner : ∀ parent q, Makes parent (some []) (forestOutput .xml 0 (cell :: enclosing) children ++ q)
      (children.lastRun (some [])) q children.skeleton) :
    Makes parent run (forestOutput .xml 0 enclosing (.node cell attributes children next) ++ q)
      (some []) (forestOutput .xml 0 enclosing next ++ q)
      (.element cell.name (attributes.map XmlNode.name) children.skeleton .nil) := by
  have name := named.whole
  have quotable : ∀ attr ∈ attributes.map attributePair, Quotable attr := by
    intro attr member
    rcases List.mem_map.mp member with ⟨attr, listed, rfl⟩
    exact (tagged attr listed).quotable
  rcases forestOutput_element attributes children next enclosing type q with
    ⟨mark, more, text, mark_⟩
  rw [text]
  rcases leads_run_tag plain (q := appended cell.name ++
      ((attributes.map attributePair).flatMap quotedAttribute ++ mark))
    (List.append_ne_nil_of_right_ne_nil _ (List.append_ne_nil_of_right_ne_nil _ more)) with
    ⟨content, flushed⟩
  intro previous heap old
  have old := build_old (textIfAny content) old
  have whole : ∀ element : Forest, ((textIfAny content).append element).skeleton =
      element.skeleton := by
    intro element
    rw [Forest.skeleton_append, textIfAny_skeleton]
    rfl
  generalize before : build heap parent previous (textIfAny content) = flushedHeap at old
  have flushed := @flushed parent previous heap
  rw [before] at flushed
  have together : ∀ element, build heap parent previous ((textIfAny content).append element) =
      build flushedHeap.1 parent flushedHeap.2 element := by
    intro element
    rw [build_append, before]
  by_cases leaf : children = .nil
  · rw [if_pos leaf] at mark_
    subst mark_
    have recognized : Recognized (appended cell.name) (attributes.map attributePair)
        (lit "/>" ++ (forestOutput .xml 0 enclosing next ++ q)) :=
      recognizable.recognized named fun some_ => absurd leaf some_
    rcases leads_written_empty name.2 quotable recognized with ⟨values, names, reached⟩
    refine ⟨(textIfAny content).append (.element (appended cell.name) values .nil .nil), ?_, ?_⟩
    · rw [together]
      exact flushed.trans (reached parent flushedHeap.2 0 flushedHeap.1)
    · rw [whole, Forest.skeleton, ← name.1, leaf]
      exact .element cell.name (attributes_perm tagged names) .nil .nil
  · rw [if_neg leaf] at mark_
    have recognized : Recognized (appended cell.name) (attributes.map attributePair) mark :=
      recognizable.recognized named fun _ => mark_ ▸ rfl
    generalize behind : appended cell.name ++ '>'.toUInt8 ::
      (forestOutput .xml 0 enclosing next ++ q) = ending at mark_
    subst mark_
    rcases leads_written_start name.2 quotable recognized with ⟨values, names, opened⟩
    have opened := opened parent flushedHeap.2 0 flushedHeap.1
    generalize tag_ : buildAttributes (addElement flushedHeap.1 parent flushedHeap.2
      (appended cell.name)) flushedHeap.1.size values = tag at opened
    rcases tagged_element (appended cell.name) values .nil old tag_ with ⟨inside, -⟩
    rcases inner flushedHeap.1.size ('<'.toUInt8 :: '/'.toUInt8 :: ending) none tag inside with
      ⟨made, read, same⟩
    rcases leads_run_tag innerPlain (q := '/'.toUInt8 :: ending) (List.cons_ne_nil _ _) with
      ⟨last, closes⟩
    have filled := read.trans closes
    rw [← build_append] at filled
    rcases tagged_element (appended cell.name) values (made.append (textIfAny last)) old tag_ with
      ⟨-, content_, built, -, named_, up⟩
    rw [built] at filled
    have closed := leads_written_end name.2 (forestOutput .xml 0 enclosing next ++ q) named_ up
      (build tag flushedHeap.1.size none (made.append (textIfAny last))).2 0
    rw [behind] at closed
    refine ⟨(textIfAny content).append
      (.element (appended cell.name) values (made.append (textIfAny last)) .nil), ?_, ?_⟩
    · rw [together, build, build, tag_, built]
      exact flushed.trans (opened.trans (filled.trans closed))
    · rw [whole, Forest.skeleton, ← name.1, Forest.skeleton_append, textIfAny_skeleton,
        Skeleton.append_nil]
      exact .element cell.name (attributes_perm tagged names) same .nil

/-- What is written for a parsed forest is read as elements like those of the
forest. -/
theorem makes_forest {forest : NodeForest} (parsed : ParsedForest forest)
    (rereadable : forest.Rereadable) (enclosing : List XmlNode) (parent : NodeId) {run : Run}
    (plain : run.Plain) (q : Bytes) :
    Makes parent run (forestOutput .xml 0 enclosing forest ++ q) (forest.lastRun run) q
      forest.skeleton := by
  induction parsed generalizing enclosing parent run q with
  | nil => exact .refl parent run q
  | text type characters flagged tail inductionHypothesis =>
      simp only [NodeForest.Rereadable, type] at rereadable
      have keeps : Keeps .xml 0 enclosing 0 := by
        refine ⟨fun impossible => absurd rfl impossible, ?_⟩
        rintro (impossible | ⟨impossible, -⟩)
        · exact absurd impossible (Nat.lt_irrefl 0)
        · cases impossible
      have absent := outputText_plain flagged rereadable.1
      simp only [forestOutput, NodeForest.skeleton, NodeForest.lastRun, type, ← outputText_eq keeps,
        List.append_assoc]
      exact .text absent (inductionHypothesis rereadable.2 enclosing parent (plain.append absent) q)
  | root type inner tail innerHypothesis tailHypothesis =>
      simp only [NodeForest.Rereadable, type] at rereadable
      simp only [forestOutput, NodeForest.skeleton, NodeForest.lastRun, type, List.append_assoc]
      exact (innerHypothesis rereadable.1 _ parent plain _).trans
        (tailHypothesis rereadable.2 enclosing parent (lastRun_plain inner rereadable.1 plain) q)
  | element type named tagged inner tail innerHypothesis tailHypothesis =>
      simp only [NodeForest.Rereadable, type] at rereadable
      simp only [NodeForest.skeleton, NodeForest.lastRun, type]
      exact (makes_element type named tagged rereadable.1.1 plain
        (lastRun_plain inner rereadable.1.2 .empty) fun parent q =>
          innerHypothesis rereadable.1.2 _ parent .empty q).trans
        (tailHypothesis rereadable.2 enclosing parent .empty q)

end Simulation

/-! ## The text and what it is parsed to -/

/-- Nothing is counted in XML before raw output has begun. -/
theorem counted_xml (forest : NodeForest) : counted .xml false forest = 0 := by
  have html : ¬ OutputMode.xml = .html := nofun
  induction forest with
  | nil => rfl
  | node cell attributes children next childrenHypothesis nextHypothesis =>
      simp only [counted, nextHypothesis, childrenHypothesis, html, false_and, false_or,
        Bool.false_eq_true, if_false, ite_self, Nat.zero_max]
      cases cell.type <;> rfl

section Representation

open Forest

variable {heap : Heap}

theorem Forest.HoldsAttributes.shown {owner : NodeId} {p : Ptr} {attributes : List (Bytes × Bytes)}
    (holds : HoldsAttributes heap owner p attributes) :
    Exists fun attrs => Siblings heap p attrs ∧
      (attrs.map heap.get).map XmlNode.name = attributes.map fun attr => some attr.1 := by
  induction holds with
  | nil => exact ⟨[], .nil, rfl⟩
  | cons i name value rest type named content parent tail inductionHypothesis =>
      rcases inductionHypothesis with ⟨attrs, chain, names⟩
      refine ⟨i :: attrs, .cons i attrs chain, ?_⟩
      simp only [List.map_cons, names, named]

/-- A represented forest is shown. -/
theorem Forest.Holds.shown {parent : NodeId} {prev p : Ptr} {forest : Forest}
    (holds : Holds heap parent prev p forest) :
    Exists fun shown => Shown heap p shown ∧ shown.skeleton = forest.skeleton := by
  induction holds with
  | nil => exact ⟨.nil, .nil, rfl⟩
  | text parent prev i content flags next type unnamed characters flagged up back leaf tail
      inductionHypothesis =>
      rcases inductionHypothesis with ⟨siblings, shown, same⟩
      refine ⟨_, .node i [] .nil siblings ?_ ?_ shown, ?_⟩
      · rw [leaf.2]
        exact .nil
      · rw [leaf.1]
        exact .nil
      · simp only [NodeForest.skeleton, type, same, skeleton]
  | element parent prev i name attributes children next type named up back tagged inner tail
      innerHypothesis tailHypothesis =>
      rcases tagged.shown with ⟨attrs, chain, names⟩
      rcases innerHypothesis with ⟨below, shownBelow, sameBelow⟩
      rcases tailHypothesis with ⟨siblings, shown, same⟩
      refine ⟨_, .node i attrs below siblings chain shownBelow shown, ?_⟩
      simp only [NodeForest.skeleton, type, named, names, same, sameBelow, skeleton]

end Representation

end TurboXSL
