import TurboXSL.Output
import TurboXSL.ParseCompleteness

namespace TurboXSL
namespace Output

open Library Document Forest Parse

/-!
# Parsing what was written

The text that the serializer writes for a forest is a document of the
grammar, escaped byte by byte; its content is one that the parser observes
exactly.  So parsing gives the forest back, with every attribute list turned
round, because the parser puts each attribute in front of the others.
-/

/-- A value that survives: it holds no NUL, and no `&#`, which is written as it is. -/
structure Writable (value : Bytes) : Prop where
  noNul : 0 ∉ value
  noReference : ¬ lit "&#" <:+: value

/-- A name that can be read back. -/
structure Named (name : Bytes) : Prop where
  nonempty : name ≠ []
  named : ∀ c ∈ name, canName c = true

/-- The forests that can be read back, possibly behind a text node. -/
def Printable : Bool → Forest → Prop
  | _, .nil => True
  | afterText, .text content flags next =>
      afterText = false ∧ content ≠ [] ∧ flags = 0 ∧ Writable content ∧ Printable true next
  | _, .element name attributes children next =>
      Named name ∧ (∀ attr ∈ attributes, Named attr.1 ∧ Writable attr.2) ∧
        Printable false children ∧ Printable false next

def BeginsWithElement : Forest → Prop
  | .element _ _ _ _ => True
  | _ => False

/-- All attribute lists turned round. -/
def reverseAttributes : Forest → Forest
  | .nil => .nil
  | .text content flags next => .text content flags (reverseAttributes next)
  | .element name attributes children next =>
      .element name attributes.reverse (reverseAttributes children) (reverseAttributes next)

/-! ## Escaping -/

theorem Writable.tail {c : UInt8} {value : Bytes} (writable : Writable (c :: value)) :
    Writable value where
  noNul := fun member => writable.noNul (List.mem_cons_of_mem c member)
  noReference := fun found => writable.noReference (List.infix_cons found)

/-- One byte is written as a piece that stands for it, unless it is the
ampersand of a `&#`, which is written as it is. -/
theorem addQuoted_cons (quotes : Bool) {c : UInt8} (visible : c ≠ 0) (value : Bytes) :
    (Exists fun piece : Piece =>
      addQuoted quotes (c :: value) = piece.render ++ addQuoted quotes value ∧
        piece.denote = [c] ∧
          (quotes = true → ∀ ordinary, Piece.plain '"'.toUInt8 ordinary ≠ piece) ∧
            (c = '&'.toUInt8 → byteAt value ≠ '#'.toUInt8)) ∨
      (c = '&'.toUInt8 ∧ byteAt value = '#'.toUInt8 ∧
        addQuoted quotes (c :: value) = c :: addQuoted quotes value) := by
  by_cases quote : quotes = true ∧ c = '"'.toUInt8
  · refine .inl ⟨.entity .quot, ?_, quote.2 ▸ rfl, fun _ _ => nofun, fun same => ?_⟩
    · rw [addQuoted, if_neg visible, if_pos quote]
      rfl
    · exact absurd (quote.2.symm.trans same) (by decide)
  · by_cases less : c = '<'.toUInt8
    · refine .inl ⟨.entity .lt, ?_, less ▸ rfl, fun _ _ => nofun, fun same => ?_⟩
      · rw [addQuoted, if_neg visible, if_neg quote, if_pos less]
        rfl
      · exact absurd (less.symm.trans same) (by decide)
    · by_cases greater : c = '>'.toUInt8
      · refine .inl ⟨.entity .gt, ?_, greater ▸ rfl, fun _ _ => nofun, fun same => ?_⟩
        · rw [addQuoted, if_neg visible, if_neg quote, if_neg less, if_pos greater]
          rfl
        · exact absurd (greater.symm.trans same) (by decide)
      · by_cases ampersand : c = '&'.toUInt8
        · by_cases mark : byteAt value = '#'.toUInt8
          · refine .inr ⟨ampersand, mark, ?_⟩
            rw [addQuoted, if_neg visible, if_neg quote, if_neg less, if_neg greater,
              if_neg fun both => both.2 mark]
          · refine .inl ⟨.entity .amp, ?_, ampersand ▸ rfl, fun _ _ => nofun, fun _ => mark⟩
            rw [addQuoted, if_neg visible, if_neg quote, if_neg less, if_neg greater,
              if_pos ⟨ampersand, mark⟩]
            rfl
        · refine .inl ⟨.plain c ⟨visible, less, ampersand⟩, ?_, rfl, fun quoted _ same => ?_,
            fun same => (ampersand same).elim⟩
          · rw [addQuoted, if_neg visible, if_neg quote, if_neg less, if_neg greater,
              if_neg fun both => ampersand both.1]
            rfl
          · exact quote ⟨quoted, (Piece.plain.inj same).symm⟩

/-- An escaped value is a row of pieces that stands for the value. -/
theorem addQuoted_pieces (quotes : Bool) {value : Bytes} (writable : Writable value) :
    Exists fun pieces => renderPieces pieces = addQuoted quotes value ∧
      denotePieces pieces = value ∧
        (quotes = true → ∀ ordinary, Piece.plain '"'.toUInt8 ordinary ∉ pieces) := by
  induction value with
  | nil => exact ⟨[], rfl, rfl, fun _ _ => List.not_mem_nil⟩
  | cons c value inductionHypothesis =>
      rcases inductionHypothesis writable.tail with ⟨pieces, rendered, denoted, unquoted⟩
      have visible : c ≠ 0 := fun zero => writable.noNul (zero ▸ List.mem_cons_self)
      rcases addQuoted_cons quotes visible value with
        ⟨piece, written, stands, other, -⟩ | ⟨ampersand, mark, -⟩
      · refine ⟨piece :: pieces, ?_, ?_, fun quoted ordinary member => ?_⟩
        · rw [written, ← rendered]
          rfl
        · show piece.denote ++ denotePieces pieces = c :: value
          rw [stands, denoted]
          rfl
        · rcases List.mem_cons.mp member with here | later
          · exact other quoted ordinary here
          · exact unquoted quoted ordinary later
      · cases value with
        | nil => exact absurd mark (by decide)
        | cons d value =>
            have same : d = '#'.toUInt8 := mark
            exact absurd ⟨[], value, by rw [ampersand, same]; rfl⟩ writable.noReference

theorem untilNul_name {name : Bytes} (named : Named name) : untilNul name = name := by
  apply untilNul_eq_self
  intro zero
  exact absurd (named.named 0 zero) (by decide)

/-- Written attributes are attributes of the grammar. -/
theorem attributesText_attrs {attributes : List (Bytes × Bytes)}
    (printable : ∀ attr ∈ attributes, Named attr.1 ∧ Writable attr.2) :
    Exists fun attrs : List Attr => attrs.flatMap Attr.render = attributesText attributes ∧
      attrs.map Attr.denote = attributes := by
  induction attributes with
  | nil => exact ⟨[], rfl, rfl⟩
  | cons attr rest inductionHypothesis =>
      rcases inductionHypothesis fun attr member => printable attr (List.mem_cons_of_mem _ member)
        with ⟨attrs, rendered, denoted⟩
      rcases printable attr List.mem_cons_self with ⟨named, writable⟩
      rcases addQuoted_pieces true writable with ⟨pieces, escaped, stands, unquoted⟩
      let first : Attr :=
        { gap := ⟨lit " ", forall_bytes (by decide)⟩
          gapped := by decide
          name := ⟨attr.1, named.nonempty, named.named⟩
          before := ⟨[], nofun⟩
          after := ⟨[], nofun⟩
          quote := .double
          value := pieces
          enclosed := by
            rintro c ordinary member rfl
            exact unquoted rfl ordinary member }
      refine ⟨first :: attrs, ?_, ?_⟩
      · have equals : lit "=\"" = ['='.toUInt8, '"'.toUInt8] := by decide
        have mark : lit "\"" = ['"'.toUInt8] := by decide
        rw [List.flatMap_cons, rendered]
        simp only [attributesText, List.flatMap_cons, Attr.render, first, escaped,
          untilNul_name named, addQuotedAttributeValue, equals, mark, Quote.byte, List.append_nil,
          List.append_assoc, List.cons_append, List.nil_append]
      · rw [List.map_cons, denoted, Attr.denote, stands]

/-! ## Content -/

/-- Content that begins with a row of pieces. -/
def behindPieces (pieces : List Piece) (content : Content) : Content :=
  pieces.foldr .text content

theorem render_behindPieces (pieces : List Piece) (content : Content) :
    (behindPieces pieces content).render = renderPieces pieces ++ content.render := by
  induction pieces with
  | nil => rfl
  | cons piece pieces inductionHypothesis =>
      show piece.render ++ (behindPieces pieces content).render = _
      rw [inductionHypothesis, ← List.append_assoc]
      rfl

theorem observe_behindPieces (pieces run : List Piece) (content : Content) :
    observe (some run) (behindPieces pieces content) = observe (some (run ++ pieces)) content := by
  induction pieces generalizing run with
  | nil => rw [List.append_nil]; rfl
  | cons piece pieces inductionHypothesis =>
      show observe (some (run ++ [piece])) (behindPieces pieces content) = _
      rw [inductionHypothesis, List.append_assoc, List.singleton_append]

/-- Content in front of which a run ends. -/
def Detached (content : Content) : Prop :=
  ∀ mode, observe mode content = flushMode mode (observe (some []) content)

theorem outputText_unflagged (content : Bytes) :
    outputText { type := .text, content := some content, flags := 0 } 0 = addQuotedStr content := by
  simp [outputText]

/-- The text of a printable forest is content that the parser observes as it was. -/
theorem forestText_content {forest : Forest} {afterText : Bool}
    (printable : Printable afterText forest) :
    Exists fun content : Content => content.render = forestText forest ∧
      observe (some []) content = reverseAttributes forest ∧
        (afterText = true ∨ BeginsWithElement forest → Detached content) := by
  induction forest generalizing afterText with
  | nil => exact ⟨.done, rfl, rfl, fun _ _ => rfl⟩
  | text characters flags next inductionHypothesis =>
      rcases printable with ⟨rfl, some_, rfl, writable, later⟩
      rcases inductionHypothesis later with ⟨content, rendered, observed, detached⟩
      rcases addQuoted_pieces false writable with ⟨pieces, escaped, stands, -⟩
      refine ⟨behindPieces pieces content, ?_, ?_, ?_⟩
      · rw [render_behindPieces, escaped, rendered]
        simp only [forestText, outputText_unflagged, addQuotedStr]
      · have nonempty : pieces ≠ [] := by
          rintro rfl
          exact some_ stands.symm
        rw [observe_behindPieces, List.nil_append, detached (.inl rfl), flushMode, flush,
          if_neg nonempty, stands, observed]
        rfl
      · rintro (impossible | impossible) <;> cases impossible
  | element name attributes children next childrenHypothesis nextHypothesis =>
      rcases printable with ⟨named, tagged, inner, later⟩
      rcases childrenHypothesis inner with ⟨childContent, childRendered, childObserved, -⟩
      rcases nextHypothesis later with ⟨nextContent, nextRendered, nextObserved, -⟩
      rcases attributesText_attrs tagged with ⟨attrs, attrsRendered, attrsDenoted⟩
      let tag : Name := ⟨name, named.nonempty, named.named⟩
      let space : Space := ⟨[], List.forall_mem_nil _⟩
      have turned : denoteAttrs attrs = attributes.reverse := by rw [denoteAttrs, attrsDenoted]
      by_cases leaf : children = .nil
      · refine ⟨.empty tag attrs space nextContent, ?_, ?_, fun _ _ => rfl⟩
        · simp only [Content.render, forestText, attrsRendered, nextRendered, if_pos leaf,
            untilNul_name named, tag, space, List.append_nil, List.append_assoc]
        · simp only [observe, flushMode, flush, if_true, turned, nextObserved, leaf,
            reverseAttributes, tag]
      · refine ⟨.element tag attrs space space childContent nextContent, ?_, ?_, fun _ _ => rfl⟩
        · simp only [Content.render, forestText, attrsRendered, childRendered, nextRendered,
            if_neg leaf, untilNul_name named, tag, space, List.append_nil, List.append_assoc]
        · simp only [observe, flushMode, flush, if_true, turned, childObserved, nextObserved,
            reverseAttributes, tag]

/-- Serializing a printable forest and parsing the text gives the forest back. -/
theorem parse_output {heap : Heap} {parent : NodeId} {prev p : Ptr} {forest : Forest}
    (holds : Holds heap parent prev p forest) (begins : BeginsWithElement forest)
    (printable : Printable false forest) (memory : Heap) :
    Exists fun text : CString => Outputs .xml heap p 0 text.bytes ∧
      Exists fun after => DoParse memory text.bytes (some memory.size) after ∧
        (after.get memory.size).type = .empty ∧
        Holds after memory.size none (after.get memory.size).children
          (reverseAttributes forest) := by
  rcases forestText_content printable with ⟨content, rendered, observed, detached⟩
  rcases parse_content memory content.render content (.refl _) with
    ⟨after, returned, type, held⟩
  refine ⟨⟨content.render, zero_not_mem_content content⟩, ?_, after, returned, type, ?_⟩
  · refine ⟨forest.size, 0, ?_⟩
    have written := outputNodeRec_holds holds (Nat.le_refl _)
    exact written.trans (congrArg (fun text => some (text, 0)) rendered.symm)
  · rw [detached (.inr begins) none, observed] at held
    exact held

/-- One element with an attribute and a text that are both escaped. -/
theorem parse_output_escaped :
    Exists fun heap => Exists fun text : CString => Outputs .xml heap (some 1) 0 text.bytes ∧
      Exists fun after => DoParse heap text.bytes (some heap.size) after ∧
        (after.get heap.size).type = .empty ∧
        Holds after heap.size none (after.get heap.size).children
          (.element (lit "a") [(lit "k", lit "<\"")] (.text (lit "x&y>") 0 .nil) .nil) := by
  let forest : Forest := .element (lit "a") [(lit "k", lit "<\"")] (.text (lit "x&y>") 0 .nil) .nil
  let first := (xmlNewNode Heap.empty (some xslSRoot) .empty).1
  have named : ∀ name ∈ [lit "a", lit "k"], Named name :=
    fun name member => by
      have checked : ∀ name ∈ [lit "a", lit "k"], name ≠ [] ∧ name.all canName = true := by decide
      exact ⟨(checked name member).1, List.all_eq_true.mp (checked name member).2⟩
  have writable : ∀ value ∈ [lit "<\"", lit "x&y>"], Writable value :=
    fun value member => by
      have checked : ∀ value ∈ [lit "<\"", lit "x&y>"], 0 ∉ value ∧ ¬ lit "&#" <:+: value := by
        decide
      exact ⟨(checked value member).1, (checked value member).2⟩
  have built : Built first (build first 0 none forest).1 0 none forest :=
    build_built forest Nat.one_pos
  refine ⟨(build first 0 none forest).1, parse_output built.laid.holds trivial ?_ _⟩
  refine ⟨named _ (by simp), ?_, ⟨rfl, by decide, rfl, writable _ (by simp), trivial⟩, trivial⟩
  intro attr member
  rw [List.mem_singleton.mp member]
  exact ⟨named _ (by simp), writable _ (by simp)⟩

end Output
end TurboXSL
