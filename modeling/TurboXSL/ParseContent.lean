import TurboXSL.ParseDecode

namespace TurboXSL
namespace Parse

open Library Document Forest

/-!
# How the parser reads content

The results below follow the parser through the text of content, construct
by construct.  Between tags only six of its variables matter; a `View` holds
these, and `Leads` relates views whatever the others are.  `observe` says
which forest the parser makes of content: it differs from `denote` behind a
processing instruction, where character data is skipped, and at an empty
CDATA section, whose end delimiter is read again as character data.
-/

/-! ## Views -/

/-- The variables that matter between tags. -/
structure View where
  state : State
  p : Bytes
  ret : Ptr
  previous : Ptr
  depth : Nat
  heap : Heap

/-- A parser with this view. -/
def View.parser (v : View) (c : Bytes) (current attr : Ptr) : Parser :=
  { state := v.state, p := v.p, c := c, ret := v.ret, current := current, attr := attr,
    previous := v.previous, commentDepth := v.depth, heap := v.heap }

/-- From every parser with view `v` the run comes to one with view `w`. -/
def Leads (v w : View) : Prop :=
  ∀ c current attr, Exists fun c' => Exists fun current' => Exists fun attr' =>
    Reaches pass (v.parser c current attr) (w.parser c' current' attr')

theorem Leads.refl (v : View) : Leads v v := fun c current attr => ⟨c, current, attr, .refl⟩

theorem Leads.trans {u v w : View} (first : Leads u v) (second : Leads v w) : Leads u w := by
  intro c current attr
  rcases first c current attr with ⟨c₁, current₁, attr₁, reached₁⟩
  rcases second c₁ current₁ attr₁ with ⟨c₂, current₂, attr₂, reached₂⟩
  exact ⟨c₂, current₂, attr₂, Relation.ReflTransGen.trans reached₁ reached₂⟩

/-- One pass that does not look at the other variables. -/
theorem Leads.of_pass {v w : View}
    (step : ∀ c current attr, Exists fun c' => Exists fun current' => Exists fun attr' =>
      pass (v.parser c current attr) = .ok (w.parser c' current' attr')) : Leads v w := by
  intro c current attr
  rcases step c current attr with ⟨c', current', attr', passed⟩
  exact ⟨c', current', attr', .single passed⟩

section Passes

variable {q : Bytes} {ret previous : Ptr} {depth : Nat} {heap : Heap}

theorem leads_init_bracket :
    Leads ⟨.init, '<'.toUInt8 :: q, ret, previous, depth, heap⟩
      ⟨.openTag, q, ret, previous, depth, heap⟩ :=
  .of_pass fun c current attr => ⟨c, current, attr, rfl⟩

/-- In `INIT` everything up to the next bracket is skipped. -/
theorem leads_init_skip {text : Bytes} (plain : '<'.toUInt8 ∉ text) :
    Leads ⟨.init, text ++ q, ret, previous, depth, heap⟩ ⟨.init, q, ret, previous, depth, heap⟩ := by
  induction text with
  | nil => exact .refl _
  | cons d text inductionHypothesis =>
      have other : d ≠ '<'.toUInt8 := fun same => plain (same ▸ List.mem_cons_self)
      refine Leads.trans (.of_pass fun c current attr => ⟨c, current, attr, ?_⟩)
        (inductionHypothesis fun member => plain (List.mem_cons_of_mem d member))
      have first : ∀ rest, byteAt (d :: rest) = d := fun _ => rfl
      simp only [pass, View.parser, reduceCtorEq, if_false, List.cons_append, passInit,
        List.tail_cons, first, if_neg other]

/-- An empty run of character data. -/
theorem leads_text_none :
    Leads ⟨.text, '<'.toUInt8 :: q, ret, previous, depth, heap⟩
      ⟨.init, '<'.toUInt8 :: q, ret, previous, depth, heap⟩ := by
  refine .of_pass fun c current attr => ⟨'<'.toUInt8 :: q, current, attr, ?_⟩
  have stop : seekMarkup ('<'.toUInt8 :: q) = '<'.toUInt8 :: q := rfl
  simp only [pass, View.parser, reduceCtorEq, if_false, passText, stop, Nat.lt_irrefl]

theorem linkNode_eq_hang (parent : NodeId) (current : NodeId) :
    linkNode heap (some parent) previous current = .ok (hang heap parent previous current) := by
  cases previous <;> rfl

/-- Character data becomes a text node. -/
theorem leads_text {parent : NodeId} {run rest content : Bytes} (some_ : run ≠ [])
    (stop : seekMarkup (run ++ rest) = rest)
    (decoded : makeUnescapedString (run ++ rest) rest = .ok content) :
    Leads ⟨.text, run ++ rest, some parent, previous, depth, heap⟩
      ⟨.init, rest, some parent, some heap.size, depth,
        Forest.addText heap parent previous content 0⟩ := by
  refine .of_pass fun c current attr => ⟨rest, some heap.size, attr, ?_⟩
  have more : run ++ rest ≠ [] := List.append_ne_nil_of_left_ne_nil some_ rest
  have shorter : rest.length < (run ++ rest).length := by
    rw [List.length_append]
    have positive := List.length_pos_iff.mpr some_
    omega
  simp only [pass, View.parser, reduceCtorEq, if_false, if_neg more, passText, stop,
    if_pos shorter, decoded, bind, Except.bind, Parse.addText, linkNode_eq_hang]
  rfl

/-- A run of pieces becomes a text node. -/
theorem leads_text_run {parent : NodeId} (run : List Piece) (some_ : renderPieces run ≠ [])
    (rest : Bytes) (stop : seekMarkup (renderPieces run ++ rest) = rest) :
    Leads ⟨.text, renderPieces run ++ rest, some parent, previous, depth, heap⟩
      ⟨.init, rest, some parent, some heap.size, depth,
        Forest.addText heap parent previous (denotePieces run) 0⟩ :=
  leads_text some_ stop (makeUnescapedString_pieces run rest)

/-- A processing instruction leaves the parser in `INIT`. -/
theorem leads_pi (characters : Enclosed (lit "?>")) :
    Leads ⟨.openTag, '?'.toUInt8 :: (characters.bytes ++ (lit "?>" ++ q)), ret, previous, depth, heap⟩
      ⟨.init, q, ret, previous, depth, heap⟩ := by
  have found : seekPair '?'.toUInt8 '>'.toUInt8 (characters.bytes ++ (lit "?>" ++ q)) =
      .ok ('?'.toUInt8 :: '>'.toUInt8 :: q) :=
    seekPair_enclosed (by decide) (by decide) characters.unclosed q
  have more : characters.bytes ++ (lit "?>" ++ q) ≠ [] :=
    List.append_ne_nil_of_right_ne_nil _ (List.cons_ne_nil _ _)
  have opened : Leads
      ⟨.openTag, '?'.toUInt8 :: (characters.bytes ++ (lit "?>" ++ q)), ret, previous, depth, heap⟩
      ⟨.xmldecl, characters.bytes ++ (lit "?>" ++ q), ret, previous, depth, heap⟩ :=
    .of_pass fun c current attr => ⟨c, current, attr, rfl⟩
  refine opened.trans (.of_pass fun c current attr => ⟨c, current, attr, ?_⟩)
  simp only [pass, View.parser, reduceCtorEq, if_false, if_neg more, passXmldecl, found, bind,
    Except.bind]
  rfl

/-- A comment is read up to its end. -/
theorem leads_comment_end {text : Bytes} (unclosed : ¬ lit "-->" <:+: text) :
    Leads ⟨.comment, text ++ (lit "-->" ++ q), ret, previous, 1, heap⟩
      ⟨.text, q, ret, previous, 0, heap⟩ := by
  have unbordered : Unbordered (lit "-->") := by decide
  induction text with
  | nil =>
      refine .of_pass fun c current attr => ⟨c, current, attr, ?_⟩
      have more : [] ++ (lit "-->" ++ q) ≠ [] := List.cons_ne_nil _ _
      have ended : (lit "-->").isPrefixOf ([] ++ (lit "-->" ++ q)) = true := rfl
      have closed : (1 + (2 ^ 32 - 1)) % 2 ^ 32 = 0 := by decide
      simp only [pass, View.parser, reduceCtorEq, if_false, if_neg more, passComment, if_pos ended,
        closed, if_true]
      rfl
  | cons d text inductionHypothesis =>
      have ahead := unbordered.not_prefix unclosed (List.cons_ne_nil d text) q
      rw [List.infix_cons_iff, not_or] at unclosed
      refine Leads.trans (.of_pass fun c current attr => ⟨c, current, attr, ?_⟩)
        (inductionHypothesis unclosed.2)
      simp only [pass, View.parser, reduceCtorEq, if_false, List.cons_append, passComment,
        List.isPrefixOf_iff_prefix, List.tail_cons] at ahead ⊢
      rw [if_neg ahead]

/-- A comment leaves the parser in `TEXT`. -/
theorem leads_comment (characters : Enclosed (lit "-->")) :
    Leads ⟨.openTag, lit "!--" ++ (characters.bytes ++ (lit "-->" ++ q)), ret, previous, 0, heap⟩
      ⟨.text, q, ret, previous, 0, heap⟩ := by
  refine Leads.trans (.of_pass fun c current attr => ⟨c, current, attr, rfl⟩)
    (leads_comment_end characters.unclosed)

theorem leads_cdata_open :
    Leads ⟨.openTag, lit "![CDATA[" ++ q, ret, previous, depth, heap⟩
      ⟨.cdata, q, ret, previous, depth, heap⟩ :=
  .of_pass fun c current attr => ⟨c, current, attr, rfl⟩

/-- A CDATA section becomes a text node. -/
theorem leads_cdata {parent : NodeId} (characters : Enclosed (lit "]]>"))
    (some_ : characters.bytes ≠ []) :
    Leads ⟨.cdata, characters.bytes ++ (lit "]]>" ++ q), some parent, previous, depth, heap⟩
      ⟨.text, q, some parent, some heap.size, depth,
        Forest.addText heap parent previous characters.bytes xmlFlagNoescape⟩ := by
  refine .of_pass fun c current attr => ⟨lit "]]>" ++ q, some heap.size, attr, ?_⟩
  have more : characters.bytes ++ (lit "]]>" ++ q) ≠ [] :=
    List.append_ne_nil_of_left_ne_nil some_ _
  have stop := seekCdataEnd_enclosed characters.unclosed q
  have shorter : (lit "]]>" ++ q).length < (characters.bytes ++ (lit "]]>" ++ q)).length := by
    have positive := List.length_pos_iff.mpr some_
    simp only [List.length_append]
    omega
  have closed : ¬ (lit "]]>" ++ q).length < 3 := by
    rw [List.length_append]
    exact Nat.not_lt.mpr (Nat.le_add_right 3 _)
  have content : (characters.bytes ++ (lit "]]>" ++ q)).take
      ((characters.bytes ++ (lit "]]>" ++ q)).length - (lit "]]>" ++ q).length) =
        characters.bytes := by
    rw [List.length_append, Nat.add_sub_cancel, List.take_left]
  simp only [pass, View.parser, reduceCtorEq, if_false, if_neg more, passCdata, stop,
    if_pos shorter, content, if_neg closed, bind, Except.bind, Parse.addText, linkNode_eq_hang]
  rfl

/-- An empty CDATA section leaves its end delimiter to be read as text. -/
theorem leads_cdata_empty :
    Leads ⟨.cdata, lit "]]>" ++ q, ret, previous, depth, heap⟩
      ⟨.text, lit "]]>" ++ q, ret, previous, depth, heap⟩ := by
  refine .of_pass fun c current attr => ⟨lit "]]>" ++ q, current, attr, ?_⟩
  have stop : seekCdataEnd (lit "]]>" ++ q) = lit "]]>" ++ q := rfl
  have more : lit "]]>" ++ q ≠ [] := List.append_ne_nil_of_left_ne_nil (by decide) q
  simp only [pass, View.parser, reduceCtorEq, if_false, if_neg more, passCdata, stop,
    Nat.lt_irrefl]

end Passes

/-! ## Names and white space -/

/-- The bytes that names consist of have no other role. -/
theorem canName_plain {c : UInt8} (named : canName c = true) :
    xIsWs c = false ∧ c ≠ '>'.toUInt8 ∧ c ≠ '/'.toUInt8 ∧ c ≠ '?'.toUInt8 ∧ c ≠ '!'.toUInt8 := by
  have other : ∀ {d : UInt8}, canName d = false → c ≠ d := by
    rintro d unnamed rfl
    rw [named] at unnamed
    cases unnamed
  refine ⟨?_, other (by decide), other (by decide), other (by decide), other (by decide)⟩
  have blank : c ≠ ' '.toUInt8 := other (by decide)
  have tab : c ≠ '\t'.toUInt8 := other (by decide)
  have newline : c ≠ '\n'.toUInt8 := other (by decide)
  have return_ : c ≠ '\r'.toUInt8 := other (by decide)
  simp [xIsWs, blank, tab, newline, return_]

/-- White space is no part of a name. -/
theorem canName_of_white {c : UInt8} (white : xIsWs c = true) : canName c = false := by
  cases named : canName c with
  | false => rfl
  | true => rw [(canName_plain named).1] at white; cases white

theorem name_uncons (name : Name) :
    Exists fun c => Exists fun rest => name.bytes = c :: rest ∧ canName c = true := by
  cases here : name.bytes with
  | nil => exact (name.nonempty here).elim
  | cons c rest => exact ⟨c, rest, rfl, name.named c (here ▸ List.mem_cons_self)⟩

theorem nameAt_letters {letters : Bytes} (named : ∀ c ∈ letters, canName c = true) {rest : Bytes}
    (stop : canName (byteAt rest) = false) :
    nameAt (letters ++ rest) = letters ∧ afterName (letters ++ rest) = rest := by
  have ended : rest.takeWhile canName = [] ∧ rest.dropWhile canName = rest := by
    cases rest with
    | nil => exact ⟨rfl, rfl⟩
    | cons c rest =>
        have unnamed : ¬ canName c = true := by
          rw [show canName c = false from stop]
          decide
        exact ⟨List.takeWhile_cons_of_neg unnamed, List.dropWhile_cons_of_neg unnamed⟩
  simp only [nameAt, afterName]
  rw [List.takeWhile_append_of_pos named, List.dropWhile_append_of_pos named, ended.1, ended.2,
    List.append_nil]
  exact ⟨rfl, rfl⟩

theorem nameAt_append (name : Name) {rest : Bytes} (stop : canName (byteAt rest) = false) :
    nameAt (name.bytes ++ rest) = name.bytes ∧ afterName (name.bytes ++ rest) = rest :=
  nameAt_letters name.named stop

theorem skipSpaces_of_other {rest : Bytes} (stop : xIsWs (byteAt rest) = false) :
    skipSpaces rest = rest := by
  cases rest with
  | nil => rfl
  | cons c rest =>
      refine List.dropWhile_cons_of_neg ?_
      rw [show xIsWs c = false from stop]
      decide

theorem skipSpaces_append (space : Space) {rest : Bytes} (stop : xIsWs (byteAt rest) = false) :
    skipSpaces (space.bytes ++ rest) = rest := by
  rw [skipSpaces, List.dropWhile_append_of_pos space.white]
  exact skipSpaces_of_other stop

theorem skipSpaces_name (name : Name) (rest : Bytes) :
    skipSpaces (name.bytes ++ rest) = name.bytes ++ rest := by
  rcases name_uncons name with ⟨c, later, split, named⟩
  rw [split]
  exact skipSpaces_of_other (canName_plain named).1

/-- A tag goes on behind a name with white space or one of its own marks. -/
theorem canName_space (space : Space) {rest : Bytes} (stop : canName (byteAt rest) = false) :
    canName (byteAt (space.bytes ++ rest)) = false := by
  cases here : space.bytes with
  | nil => exact stop
  | cons c later => exact canName_of_white (space.white c (here ▸ List.mem_cons_self))

theorem greater_not_mem_space (space : Space) : '>'.toUInt8 ∉ space.bytes :=
  fun member => absurd (space.white _ member) (by decide)

/-! ## Tags -/

section Tags

variable {q : Bytes} {previous : Ptr} {depth : Nat} {heap : Heap}

/-- An end tag with the name of the open element. -/
theorem leads_close {element : NodeId} (name : Name) (space : Space)
    (named : (heap.get element).name = some name.bytes) :
    Leads
      ⟨.openTag, '/'.toUInt8 :: (name.bytes ++ (space.bytes ++ '>'.toUInt8 :: q)), some element,
        previous, depth, heap⟩
      ⟨.text, q, (heap.get element).parent, some element, depth, heap⟩ := by
  have opened : Leads
      ⟨.openTag, '/'.toUInt8 :: (name.bytes ++ (space.bytes ++ '>'.toUInt8 :: q)), some element,
        previous, depth, heap⟩
      ⟨.close, name.bytes ++ (space.bytes ++ '>'.toUInt8 :: q), some element,
        previous, depth, heap⟩ :=
    .of_pass fun c current attr => ⟨c, current, attr, rfl⟩
  have stop : canName (byteAt (space.bytes ++ '>'.toUInt8 :: q)) = false :=
    canName_space space (show canName '>'.toUInt8 = false by decide)
  have scanned := nameAt_append name stop
  have found := seekByte_append (greater_not_mem_space space) q
  have more : name.bytes ++ (space.bytes ++ '>'.toUInt8 :: q) ≠ [] :=
    List.append_ne_nil_of_left_ne_nil name.nonempty _
  have same : name.bytes.isPrefixOf name.bytes = true :=
    List.isPrefixOf_iff_prefix.mpr (List.prefix_refl _)
  refine opened.trans (.of_pass fun c current attr =>
    ⟨space.bytes ++ '>'.toUInt8 :: q, current, attr, ?_⟩)
  simp only [pass, View.parser, reduceCtorEq, if_false, if_neg more, passClose, skipSpaces_name,
    named, memcmpEqual, scanned.1, scanned.2, same, if_true, found, bind, Except.bind,
    List.tail_cons]

/-- The text of an attribute, part by part. -/
theorem render_attr (attr : Attr) (tail : Bytes) :
    attr.render ++ tail = attr.gap.bytes ++ (attr.name.bytes ++ (attr.before.bytes ++
      '='.toUInt8 :: (attr.after.bytes ++
        attr.quote.byte :: (renderPieces attr.value ++ attr.quote.byte :: tail)))) := by
  simp only [Attr.render, List.append_assoc, List.cons_append, List.nil_append]

theorem quote_plain (quote : Quote) : isQuote quote.byte = true ∧ xIsWs quote.byte = false := by
  cases quote <;> decide

theorem atAttribute_name (name : Name) (rest : Bytes) : AtAttribute (name.bytes ++ rest) := by
  rcases name_uncons name with ⟨c, later, split, named⟩
  rw [split]
  refine ⟨(canName_plain named).2.1, fun slash => ?_⟩
  exact (canName_plain named).2.2.1 (List.cons_prefix_cons.mp slash).1.symm

/-- The name of an attribute, up to its value. -/
theorem pass_attribute_name (attr : Attr) {s : Parser} {element : NodeId} {tail : Bytes}
    (state : s.state = .insideTag) (current : s.current = some element)
    (here : s.p = skipSpaces (attr.render ++ tail)) :
    Steps pass s
      { s with
        p := attr.quote.byte :: (renderPieces attr.value ++ attr.quote.byte :: tail)
        c := attr.before.bytes ++ '='.toUInt8 :: (attr.after.bytes ++
          attr.quote.byte :: (renderPieces attr.value ++ attr.quote.byte :: tail))
        attr := some s.heap.size
        heap := Forest.addAttribute s.heap element attr.name.bytes
        state := .attrValue } := by
  rw [render_attr, skipSpaces_append] at here
  · have plain : xIsWs (byteAt (attr.quote.byte ::
        (renderPieces attr.value ++ attr.quote.byte :: tail))) = false := (quote_plain attr.quote).2
    generalize attr.quote.byte :: (renderPieces attr.value ++ attr.quote.byte :: tail) = rest
      at here plain ⊢
    have equals : canName (byteAt ('='.toUInt8 :: (attr.after.bytes ++ rest))) = false :=
      show canName '='.toUInt8 = false by decide
    have scanned := nameAt_append attr.name (canName_space attr.before equals)
    have behind : skipSpaces (attr.before.bytes ++ '='.toUInt8 :: (attr.after.bytes ++ rest)) =
        '='.toUInt8 :: (attr.after.bytes ++ rest) :=
      skipSpaces_append attr.before (show xIsWs '='.toUInt8 = false by decide)
    have mark : byteAt ('='.toUInt8 :: (attr.after.bytes ++ rest)) = '='.toUInt8 := rfl
    have atAttribute := atAttribute_name attr.name
      (attr.before.bytes ++ '='.toUInt8 :: (attr.after.bytes ++ rest))
    have more : attr.name.bytes ++ (attr.before.bytes ++ '='.toUInt8 ::
        (attr.after.bytes ++ rest)) ≠ [] :=
      List.append_ne_nil_of_left_ne_nil attr.name.nonempty _
    simp only [Steps, pass, state, reduceCtorEq, if_false, passInsideTag, here, if_neg more,
      List.isPrefixOf_iff_prefix, if_neg atAttribute.1, if_neg atAttribute.2, Parse.addAttribute,
      current, skipSpaces_name, scanned.1, scanned.2, behind, mark, if_true, List.tail_cons,
      skipSpaces_append attr.after plain]
    rfl
  · rcases name_uncons attr.name with ⟨c, later, split, named⟩
    rw [split]
    exact (canName_plain named).1

/-- The value of an attribute. -/
theorem pass_attribute_value (attr : Attr) {s : Parser} {i : NodeId} {tail : Bytes}
    (state : s.state = .attrValue) (made : s.attr = some i)
    (here : s.p = attr.quote.byte :: (renderPieces attr.value ++ attr.quote.byte :: tail)) :
    Steps pass s
      { s with
        p := skipSpaces tail
        c := attr.quote.byte :: tail
        heap := setContent s.heap i (denotePieces attr.value)
        state := .insideTag } := by
  have found := seekByte_append (quote_not_mem_renderPieces attr) tail
  simp only [Steps, pass, state, here, reduceCtorEq, if_false, passAttrValue, byteAt,
    List.headD_cons, (quote_plain attr.quote).1, if_true, List.tail_cons, found,
    makeUnescapedString_pieces, made, leaveAttrValue, bind, Except.bind]
  rfl

/-- One attribute of a tag. -/
theorem reaches_attribute (attr : Attr) {s : Parser} {element : NodeId} {tail : Bytes}
    (state : s.state = .insideTag) (current : s.current = some element)
    (here : s.p = skipSpaces (attr.render ++ tail)) :
    Reaches pass s
      { s with
        p := skipSpaces tail
        c := attr.quote.byte :: tail
        attr := some s.heap.size
        heap := setContent (Forest.addAttribute s.heap element attr.name.bytes) s.heap.size
          (denotePieces attr.value)
        state := .insideTag } :=
  .tail (.single (pass_attribute_name attr state current here))
    (pass_attribute_value attr rfl rfl rfl)

theorem buildAttributes_append (element : NodeId) (attributes : List (Bytes × Bytes))
    (name value : Bytes) :
    buildAttributes heap element (attributes ++ [(name, value)]) =
      buildAttributes (setContent (Forest.addAttribute heap element name) heap.size value) element
        attributes := by
  induction attributes with
  | nil => rfl
  | cons attr rest inductionHypothesis =>
      rw [List.cons_append, buildAttributes, buildAttributes, inductionHypothesis]

/-- All attributes of a tag. -/
theorem reaches_attributes (attrs : List Attr) {s : Parser} {element : NodeId} {tail : Bytes}
    (state : s.state = .insideTag) (current : s.current = some element)
    (here : s.p = skipSpaces (attrs.flatMap Attr.render ++ tail)) :
    Exists fun c => Exists fun last => Reaches pass s
      { s with
        p := skipSpaces tail
        c := c
        attr := last
        heap := buildAttributes s.heap element (denoteAttrs attrs)
        state := .insideTag } := by
  induction attrs generalizing s with
  | nil =>
      refine ⟨s.c, s.attr, ?_⟩
      have same : s = { s with p := skipSpaces tail, state := .insideTag } := by
        rw [← show s.p = skipSpaces tail from here, ← state]
      exact same ▸ .refl
  | cons attr rest inductionHypothesis =>
      rw [List.flatMap_cons, List.append_assoc] at here
      rcases inductionHypothesis (s := { s with
        p := skipSpaces (rest.flatMap Attr.render ++ tail)
        c := attr.quote.byte :: (rest.flatMap Attr.render ++ tail)
        attr := some s.heap.size
        heap := setContent (Forest.addAttribute s.heap element attr.name.bytes) s.heap.size
          (denotePieces attr.value)
        state := .insideTag }) rfl current rfl with ⟨c, last, later⟩
      have listed : denoteAttrs (attr :: rest) = denoteAttrs rest ++ [attr.denote] := by
        simp only [denoteAttrs, List.map_cons, List.reverse_cons]
      refine ⟨c, last, Relation.ReflTransGen.trans (reaches_attribute attr state current here) ?_⟩
      rw [listed, Attr.denote, buildAttributes_append]
      exact later

/-- The memory after a start tag. -/
def tagHeap (heap : Heap) (parent : NodeId) (previous : Ptr) (name : Name) (attrs : List Attr) :
    Heap :=
  buildAttributes (addElement heap parent previous name.bytes) heap.size (denoteAttrs attrs)

theorem canName_attrs (attrs : List Attr) {rest : Bytes} (stop : canName (byteAt rest) = false) :
    canName (byteAt (attrs.flatMap Attr.render ++ rest)) = false := by
  cases attrs with
  | nil => exact stop
  | cons attr attrs =>
      rw [List.flatMap_cons, List.append_assoc, render_attr]
      cases here : attr.gap.bytes with
      | nil => exact (attr.gapped here).elim
      | cons c later => exact canName_of_white (attr.gap.white c (here ▸ List.mem_cons_self))

/-- A tag is read up to the mark that ends it. -/
theorem reaches_tag {parent : NodeId} (name : Name) (attrs : List Attr) (inTag : Space)
    {mark : Bytes} (unnamed : canName (byteAt mark) = false) (black : xIsWs (byteAt mark) = false)
    (c : Bytes) (current attr : Ptr) :
    Exists fun c' => Exists fun attr' => Reaches pass
      ((⟨.openTag, name.bytes ++ (attrs.flatMap Attr.render ++ (inTag.bytes ++ mark)),
        some parent, previous, depth, heap⟩ : View).parser c current attr)
      ((⟨.insideTag, mark, some parent, previous, depth,
        tagHeap heap parent previous name attrs⟩ : View).parser c' (some heap.size) attr') := by
  have stop := canName_attrs attrs (canName_space inTag unnamed)
  have ended := skipSpaces_append inTag black
  generalize shape : attrs.flatMap Attr.render ++ (inTag.bytes ++ mark) = rest at stop
  have scanned := nameAt_append name stop
  have more : name.bytes ++ rest ≠ [] := List.append_ne_nil_of_left_ne_nil name.nonempty rest
  have opened : Steps pass
      ((⟨.openTag, name.bytes ++ rest, some parent, previous, depth, heap⟩ : View).parser
        c current attr)
      ((⟨.insideTag, skipSpaces rest, some parent, previous, depth,
        addElement heap parent previous name.bytes⟩ : View).parser rest (some heap.size) attr) := by
    rcases name_uncons name with ⟨first, later, split, named⟩
    have plain := canName_plain named
    have first_ : byteAt (name.bytes ++ rest) = first := by
      rw [split]
      rfl
    have noMark : ∀ mark ∈ [lit "!--", lit "![CDATA[", lit "!DOCTYPE"],
        ¬ mark <+: name.bytes ++ rest := by
      intro mark listed found
      have starts : ∀ mark ∈ [lit "!--", lit "![CDATA[", lit "!DOCTYPE"],
          ['!'.toUInt8] <+: mark := by decide
      rw [split] at found
      have begins := (starts mark listed).trans found
      exact plain.2.2.2.2 (List.cons_prefix_cons.mp begins).1.symm
    simp only [Steps, pass, View.parser, reduceCtorEq, if_false, if_neg more, passOpen, first_,
      if_neg plain.2.2.2.1, if_neg plain.2.2.2.2, if_neg plain.2.2.1, List.isPrefixOf_iff_prefix,
      if_neg (noMark (lit "!--") (by simp)), if_neg (noMark (lit "![CDATA[") (by simp)),
      if_neg (noMark (lit "!DOCTYPE") (by simp)), openElement, skipSpaces_name, scanned.1,
      scanned.2, linkNode_eq_hang, bind, Except.bind]
    rfl
  rcases reaches_attributes attrs (s := (⟨.insideTag, skipSpaces rest, some parent, previous,
    depth, addElement heap parent previous name.bytes⟩ : View).parser rest (some heap.size) attr)
    rfl rfl (congrArg skipSpaces shape.symm) with ⟨c', last, later⟩
  refine ⟨c', last, Relation.ReflTransGen.trans (.single opened) ?_⟩
  rw [ended] at later
  exact later

/-- A start tag opens an element. -/
theorem leads_start {parent : NodeId} (name : Name) (attrs : List Attr) (inTag : Space) :
    Leads
      ⟨.openTag, name.bytes ++ (attrs.flatMap Attr.render ++ (inTag.bytes ++ '>'.toUInt8 :: q)),
        some parent, previous, depth, heap⟩
      ⟨.text, q, some heap.size, none, depth, tagHeap heap parent previous name attrs⟩ := by
  intro c current attr
  have unnamed : canName (byteAt ('>'.toUInt8 :: q)) = false :=
    show canName '>'.toUInt8 = false by decide
  have black : xIsWs (byteAt ('>'.toUInt8 :: q)) = false :=
    show xIsWs '>'.toUInt8 = false by decide
  rcases reaches_tag name attrs inTag unnamed black c current attr with ⟨c', attr', reached⟩
  exact ⟨c', none, attr', reached.tail rfl⟩

/-- A self-closed tag makes an element without children. -/
theorem leads_empty {parent : NodeId} (name : Name) (attrs : List Attr) (inTag : Space) :
    Leads
      ⟨.openTag, name.bytes ++ (attrs.flatMap Attr.render ++ (inTag.bytes ++ (lit "/>" ++ q))),
        some parent, previous, depth, heap⟩
      ⟨.text, q, some parent, some heap.size, depth,
        tagHeap heap parent previous name attrs⟩ := by
  intro c current attr
  have unnamed : canName (byteAt (lit "/>" ++ q)) = false :=
    show canName '/'.toUInt8 = false by decide
  have black : xIsWs (byteAt (lit "/>" ++ q)) = false :=
    show xIsWs '/'.toUInt8 = false by decide
  rcases reaches_tag name attrs inTag unnamed black c current attr with ⟨c', attr', reached⟩
  exact ⟨c', some heap.size, attr', reached.tail rfl⟩

end Tags

/-! ## Content -/

/-- What has been read of the current run: nothing, while `INIT` skips it, or
the pieces that `TEXT` is going to take. -/
abbrev Mode := Option (List Piece)

def Mode.state : Mode → State
  | none => .init
  | some _ => .text

def Mode.text : Mode → Bytes
  | none => []
  | some run => renderPieces run

def flushMode : Mode → Forest → Forest
  | none, next => next
  | some run, next => flush run next

/-- The end delimiter of a CDATA section, read as character data. -/
def delimiterPieces : List Piece :=
  [.plain ']'.toUInt8 (by decide), .plain ']'.toUInt8 (by decide), .plain '>'.toUInt8 (by decide)]

/-- The forest that the parser makes of content. -/
def observe : Mode → Content → Forest
  | mode, .done => flushMode mode .nil
  | none, .text _ next => observe none next
  | some run, .text piece next => observe (some (run ++ [piece])) next
  | mode, .element name attrs _ _ children next =>
      flushMode mode (.element name.bytes (denoteAttrs attrs) (observe (some []) children)
        (observe (some []) next))
  | mode, .empty name attrs _ next =>
      flushMode mode (.element name.bytes (denoteAttrs attrs) .nil (observe (some []) next))
  | mode, .cdata characters next =>
      flushMode mode
        (if characters.bytes = [] then observe (some delimiterPieces) next
        else .text characters.bytes xmlFlagNoescape (observe (some []) next))
  | mode, .comment _ next => flushMode mode (observe (some []) next)
  | mode, .pi _ next => flushMode mode (observe none next)

/-- Where content may end: at a tag, or with the document. -/
def AtMarkup (tail : Bytes) : Prop := tail = [] ∨ Exists fun q => tail = '<'.toUInt8 :: q

section Content

variable {parent : NodeId} {previous : Ptr} {heap : Heap}

theorem renderPieces_cons_ne_nil (piece : Piece) (run : List Piece) :
    renderPieces (piece :: run) ≠ [] := by
  have some_ : piece.render ≠ [] := by
    rcases piece_cases piece with ⟨c, -, render, -⟩ | ⟨reference, render, -⟩ <;>
    · rw [render]
      exact List.cons_ne_nil _ _
  exact List.append_ne_nil_of_left_ne_nil some_ _

/-- The end of a run makes its text node. -/
theorem leads_flush (mode : Mode) {tail : Bytes} (markup : AtMarkup tail) :
    Exists fun state => (tail = [] ∨ state = .init) ∧ state ≠ .error ∧
      Leads ⟨mode.state, mode.text ++ tail, some parent, previous, 0, heap⟩
        ⟨state, tail, some parent, (build heap parent previous (flushMode mode .nil)).2, 0,
          (build heap parent previous (flushMode mode .nil)).1⟩ := by
  cases mode with
  | none => exact ⟨.init, .inr rfl, nofun, .refl _⟩
  | some run =>
      cases run with
      | nil =>
          rcases markup with rfl | ⟨q, rfl⟩
          · exact ⟨.text, .inl rfl, nofun, .refl _⟩
          · exact ⟨.init, .inr rfl, nofun, leads_text_none⟩
      | cons piece run =>
          refine ⟨.init, .inr rfl, nofun, leads_text_run (piece :: run) ?_ tail ?_⟩
          · exact renderPieces_cons_ne_nil piece run
          · rcases markup with rfl | ⟨q, rfl⟩
            · rw [List.append_nil]
              exact seekMarkup_end _
            · exact seekMarkup_pieces _ q

/-- Before a tag, the end of a run leads to the tag. -/
theorem leads_flush_tag (mode : Mode) (q : Bytes) :
    Leads ⟨mode.state, mode.text ++ '<'.toUInt8 :: q, some parent, previous, 0, heap⟩
      ⟨.openTag, q, some parent, (build heap parent previous (flushMode mode .nil)).2, 0,
        (build heap parent previous (flushMode mode .nil)).1⟩ := by
  rcases leads_flush mode (.inr ⟨q, rfl⟩) with ⟨state, init, -, reached⟩
  rcases init with impossible | rfl
  · cases impossible
  · exact reached.trans leads_init_bracket

theorem build_flushMode (mode : Mode) (next : Forest) :
    build heap parent previous (flushMode mode next) =
      build (build heap parent previous (flushMode mode .nil)).1 parent
        (build heap parent previous (flushMode mode .nil)).2 next := by
  cases mode with
  | none => rfl
  | some run =>
      simp only [flushMode, flush]
      split <;> rfl

theorem flushMode_old (mode : Mode) (old : previous.getD parent < heap.size) :
    (build heap parent previous (flushMode mode .nil)).2.getD parent <
      (build heap parent previous (flushMode mode .nil)).1.size := by
  cases mode with
  | none => exact old
  | some run =>
      simp only [flushMode, flush]
      split
      · exact old
      · simp only [build, addText_size, Option.getD_some]
        exact Nat.lt_succ_self _

theorem attach_get_keeps (heap : Heap) (parent : NodeId) (previous child : Ptr) (i : NodeId) :
    ((attach heap parent previous child).get i).name = (heap.get i).name ∧
      ((attach heap parent previous child).get i).parent = (heap.get i).parent := by
  cases child with
  | none => exact ⟨rfl, rfl⟩
  | some child =>
      cases previous <;>
      · simp only [attach, Arena.modify_get]
        split
        · rename_i here
          rw [here]
          exact ⟨rfl, rfl⟩
        · exact ⟨rfl, rfl⟩

/-- An element with its attributes, before and after its children are made. -/
theorem tagged_element (name : Bytes) (attributes : List (Bytes × Bytes)) (children : Forest)
    (old : previous.getD parent < heap.size) {tag : Heap}
    (made : buildAttributes (addElement heap parent previous name) heap.size attributes = tag) :
    heap.size < tag.size ∧
      Exists fun filled => (build tag heap.size none children).1 = filled ∧
        heap.size < filled.size ∧ (filled.get heap.size).name = some name ∧
        (filled.get heap.size).parent = some parent := by
  have size := addElement_size heap parent previous name
  have element := addElement_get_same parent name old
  have tagged := buildAttributes_tagged
    (size ▸ Nat.lt_succ_self _ : heap.size < (addElement heap parent previous name).size)
    (by rw [element]) attributes
  rw [made] at tagged
  have taggedSize := tagged.size
  have inside : heap.size < tag.size := by omega
  have filled : Built tag _ heap.size none children := build_built children inside
  refine ⟨inside, _, rfl, ?_, ?_⟩
  · have filledSize := filled.size
    omega
  · have kept := attach_get_keeps tag heap.size none (entry tag.size children) heap.size
    rw [filled.others heap.size inside, kept.1, kept.2, tagged.owner, element]
    exact ⟨rfl, rfl⟩

/-- The element of a start tag, after the tag and after its children. -/
theorem tagHeap_element (name : Name) (attrs : List Attr) (children : Forest)
    (old : previous.getD parent < heap.size) :
    heap.size < (tagHeap heap parent previous name attrs).size ∧
      Exists fun filled =>
        (build (tagHeap heap parent previous name attrs) heap.size none children).1 = filled ∧
          heap.size < filled.size ∧ (filled.get heap.size).name = some name.bytes ∧
          (filled.get heap.size).parent = some parent :=
  tagged_element name.bytes (denoteAttrs attrs) children old rfl

/-- The openings of markup behind their bracket. -/
theorem lit_openings :
    lit "<" = ['<'.toUInt8] ∧ lit ">" = ['>'.toUInt8] ∧ lit "</" = ['<'.toUInt8, '/'.toUInt8] ∧
      lit "<?" = ['<'.toUInt8, '?'.toUInt8] ∧ lit "<!--" = '<'.toUInt8 :: lit "!--" ∧
      lit "<![CDATA[" = '<'.toUInt8 :: lit "![CDATA[" := by
  decide

/-- From a state the parser reads up to `tail`, where it has made the nodes of
`forest` below `parent`. -/
def Yields (parent : NodeId) (start : State) (p tail : Bytes) (forest : Forest) (previous : Ptr)
    (heap : Heap) : Prop :=
  Exists fun state => (tail = [] ∨ state = .init) ∧ state ≠ .error ∧
    Leads ⟨start, p, some parent, previous, 0, heap⟩
      ⟨state, tail, some parent, (build heap parent previous forest).2, 0,
        (build heap parent previous forest).1⟩

/-- What is read in front has made the nodes in front. -/
theorem Yields.prepend {start middle : State} {p q tail : Bytes} {forest rest : Forest}
    {previous' : Ptr} {heap' : Heap} (yields : Yields parent middle q tail rest previous' heap')
    (reached : Leads ⟨start, p, some parent, previous, 0, heap⟩
      ⟨middle, q, some parent, previous', 0, heap'⟩)
    (together : build heap parent previous forest = build heap' parent previous' rest) :
    Yields parent start p tail forest previous heap := by
  rcases yields with ⟨state, ended, fine, later⟩
  exact ⟨state, ended, fine, together ▸ reached.trans later⟩

/-- Before a tag the open run is flushed. -/
theorem Yields.behind_flush {q tail : Bytes} {forest : Forest} (mode : Mode)
    (old : previous.getD parent < heap.size)
    (yields : ∀ {previous : Ptr} {heap : Heap}, previous.getD parent < heap.size →
      Yields parent .openTag q tail forest previous heap) :
    Yields parent mode.state (mode.text ++ '<'.toUInt8 :: q) tail (flushMode mode forest)
      previous heap :=
  (yields (flushMode_old mode old)).prepend (leads_flush_tag mode q)
    (build_flushMode mode forest)

/-- The parser reads content up to the markup behind it and has then made the
nodes of the forest it observes. -/
theorem yields_content (content : Content) (mode : Mode) {tail : Bytes} (markup : AtMarkup tail)
    (old : previous.getD parent < heap.size) :
    Yields parent mode.state (mode.text ++ (content.render ++ tail)) tail (observe mode content)
      previous heap := by
  induction content generalizing mode parent previous heap tail with
  | done =>
      simp only [observe, Content.render, List.nil_append]
      exact leads_flush mode markup
  | text piece next inductionHypothesis =>
      cases mode with
      | none =>
          have bracket : '<'.toUInt8 ∉ piece.render := by
            have absent := bracket_not_mem_renderPieces [piece]
            rwa [renderPieces, List.flatMap_singleton] at absent
          refine (inductionHypothesis none markup old).prepend ?_ rfl
          simp only [Mode.text, Content.render, List.nil_append, List.append_assoc]
          exact leads_init_skip bracket
      | some run =>
          have text : renderPieces run ++ ((Content.text piece next).render ++ tail) =
              renderPieces (run ++ [piece]) ++ (next.render ++ tail) := by
            simp only [renderPieces, Content.render, List.flatMap_append, List.flatMap_singleton,
              List.append_assoc]
          simp only [Mode.text, text]
          exact inductionHypothesis (some (run ++ [piece])) markup old
  | comment characters next inductionHypothesis =>
      simp only [observe, Content.render, lit_openings, List.append_assoc, List.cons_append]
      refine .behind_flush mode old fun old => ?_
      exact (inductionHypothesis (some []) markup old).prepend (leads_comment characters) rfl
  | pi characters next inductionHypothesis =>
      simp only [observe, Content.render, lit_openings, List.append_assoc, List.cons_append,
        List.nil_append]
      refine .behind_flush mode old fun old => ?_
      exact (inductionHypothesis none markup old).prepend (leads_pi characters) rfl
  | cdata characters next inductionHypothesis =>
      simp only [observe, Content.render, lit_openings, List.append_assoc, List.cons_append]
      refine .behind_flush mode old fun old => ?_
      split
      · rename_i empty
        rw [empty, List.nil_append]
        exact (inductionHypothesis (some delimiterPieces) markup old).prepend
          (leads_cdata_open.trans leads_cdata_empty) rfl
      · rename_i some_
        refine (inductionHypothesis (some []) markup ?_).prepend
          (leads_cdata_open.trans (leads_cdata characters some_)) (by rw [build])
        rw [addText_size]
        exact Nat.lt_succ_self _
  | empty name attrs inTag next inductionHypothesis =>
      simp only [observe, Content.render, lit_openings, List.append_assoc, List.cons_append,
        List.nil_append]
      refine .behind_flush mode old fun old => ?_
      have element := tagHeap_element name attrs .nil old
      refine (inductionHypothesis (some []) markup ?_).prepend (leads_empty name attrs inTag) ?_
      · exact element.1
      · rw [build]
        rfl
  | element name attrs inTag inEnd children next childrenHypothesis nextHypothesis =>
      simp only [observe, Content.render, lit_openings, List.append_assoc, List.cons_append,
        List.nil_append]
      refine .behind_flush mode old fun {previous heap} old => ?_
      rcases tagHeap_element name attrs (observe (some []) children) old with
        ⟨inside, filled, same, filledInside, named, up⟩
      generalize behind : name.bytes ++ (inEnd.bytes ++ '>'.toUInt8 :: (next.render ++ tail)) = rest
      have yields : Yields heap.size .text
          (children.render ++ '<'.toUInt8 :: '/'.toUInt8 :: rest) ('<'.toUInt8 :: '/'.toUInt8 :: rest)
          (observe (some []) children) none (tagHeap heap parent previous name attrs) :=
        childrenHypothesis (some []) (.inr ⟨_, rfl⟩) inside
      have inner : Leads
          ⟨.text, children.render ++ '<'.toUInt8 :: '/'.toUInt8 :: rest, some heap.size, none, 0,
            tagHeap heap parent previous name attrs⟩
          ⟨.text, next.render ++ tail, some parent, some heap.size, 0, filled⟩ := by
        rcases yields with ⟨state, impossible | rfl, -, reached⟩
        · cases impossible
        · subst behind
          rw [same] at reached
          rw [← up]
          exact (reached.trans leads_init_bracket).trans (leads_close name inEnd named)
      refine (nextHypothesis (some []) markup ?_).prepend
        ((leads_start name attrs inTag).trans inner) ?_
      · exact filledInside
      · rw [build, ← same]
        rfl

end Content

end Parse
end TurboXSL
