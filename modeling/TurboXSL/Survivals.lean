import TurboXSL.Rereading

namespace TurboXSL

open Library Parse Output

/-!
# Whether a document survives

The text of a parsed document is determined, and it is a C string.  Where no
tag begins in character data and every start tag is recognized, it is parsed
to the same elements, unless the character data at its end is cut in a
reference.
-/

namespace Output

/-- What is shown is determined. -/
theorem Shown.unique {heap : Heap} {p : Ptr} {first second : NodeForest}
    (left : Shown heap p first) (right : Shown heap p second) : first = second := by
  induction left generalizing second with
  | nil =>
      cases right
      rfl
  | node i attributes children next tagged inner tail innerHypothesis tailHypothesis =>
      cases right with
      | node _ attributes' children' next' tagged' inner' tail' =>
          rw [tagged.unique tagged', innerHypothesis inner', tailHypothesis tail']

theorem outputAttributes_succ {heap : Heap} {fuel : Nat} {p : Ptr} {text : Bytes}
    (listed : outputAttributes heap fuel p = some text) :
    outputAttributes heap (fuel + 1) p = some text := by
  rcases Option.map_eq_some_iff.mp listed with ⟨attributes, found, same⟩
  have chain := follow_eq_some_iff.mp found
  refine Option.map_eq_some_iff.mpr ⟨attributes, ?_, same⟩
  exact follow_eq_some_iff.mpr ⟨chain.1, Nat.le_succ_of_le chain.2⟩

/-- More fuel writes the same. -/
theorem outputNodeRec_succ {mode : OutputMode} {heap : Heap} {fuel : Nat} {p : Ptr} {rawout : Nat}
    {result : Bytes × Nat} (written : outputNodeRec mode heap fuel p rawout = some result) :
    outputNodeRec mode heap (fuel + 1) p rawout = some result := by
  induction fuel generalizing p rawout result with
  | zero =>
      cases p with
      | none => exact written
      | some i => cases written
  | succ fuel inductionHypothesis =>
      cases p with
      | none => exact written
      | some i =>
          have later : ∀ {front : Bytes} {raw : Nat},
              ((outputNodeRec mode heap fuel (heap.get i).next raw).bind
                fun later => some (front ++ later.1, later.2)) = some result →
              ((outputNodeRec mode heap (fuel + 1) (heap.get i).next raw).bind
                fun later => some (front ++ later.1, later.2)) = some result := by
            intro front raw written
            rcases Option.bind_eq_some_iff.mp written with ⟨later, next, done⟩
            exact Option.bind_eq_some_iff.mpr ⟨later, inductionHypothesis next, done⟩
          rw [outputNodeRec] at written ⊢
          cases type : (heap.get i).type with
          | element =>
              simp only [type, Option.bind_eq_bind, Option.bind_some] at written ⊢
              rcases Option.bind_eq_some_iff.mp written with ⟨attributes, listed, written⟩
              refine Option.bind_eq_some_iff.mpr ⟨attributes, outputAttributes_succ listed, ?_⟩
              split at written
              next empty =>
                rw [if_pos empty]
                exact later written
              next filled =>
                rw [if_neg filled]
                split at written
                next leaf =>
                  rw [if_pos leaf]
                  split at written
                  next short =>
                    rw [if_pos short]
                    exact later written
                  next long =>
                    rw [if_neg long]
                    exact later written
                next parent =>
                  rw [if_neg parent]
                  rcases Option.bind_eq_some_iff.mp written with ⟨inner, below, written⟩
                  exact Option.bind_eq_some_iff.mpr ⟨inner, inductionHypothesis below, later written⟩
          | text | comment | pi =>
              simp only [type, Option.bind_eq_bind, Option.bind_some] at written ⊢
              exact later written
          | _ =>
              simp only [type, Option.bind_eq_bind] at written ⊢
              rcases Option.bind_eq_some_iff.mp written with ⟨inner, below, written⟩
              exact Option.bind_eq_some_iff.mpr ⟨inner, inductionHypothesis below, later written⟩

theorem outputNodeRec_mono {mode : OutputMode} {heap : Heap} {fuel more : Nat} {p : Ptr} {rawout : Nat}
    {result : Bytes × Nat} (written : outputNodeRec mode heap fuel p rawout = some result)
    (le : fuel ≤ more) : outputNodeRec mode heap more p rawout = some result := by
  induction more, le using Nat.le_induction with
  | base => exact written
  | succ more _ inductionHypothesis => exact outputNodeRec_succ inductionHypothesis

/-- The text of a forest is the only one that is written for it. -/
theorem Shown.outputs_iff {heap : Heap} {p : Ptr} {forest : NodeForest} (shown : Shown heap p forest)
    (text : Bytes) : Outputs .xml heap p 0 text ↔ text = forestOutput .xml 0 [] forest := by
  have room : 0 + counted .xml ((0 : Nat) ≠ 0) forest < 2 ^ 32 := by
    have nothing := counted_xml forest
    simp only [ne_eq, not_true_eq_false, decide_false, nothing]
    decide
  constructor
  · rintro ⟨fuel, rawout, written⟩
    have whole := raw_output_scoped .xml shown room (Nat.le_max_right fuel forest.size)
    have again := outputNodeRec_mono written (Nat.le_max_left fuel forest.size)
    exact (congrArg Prod.fst (Option.some.inj (again.symm.trans whole)))
  · rintro rfl
    exact ⟨_, _, raw_output_scoped .xml shown room (Nat.le_refl _)⟩

end Output

theorem zero_not_mem_quotedAttribute {attr : XmlNode} (lettered : Lettered attr.name) :
    0 ∉ quotedAttribute (attributePair attr) := by
  have name : 0 ∉ (attributePair attr).1 := fun inside => absurd (lettered.whole.2 0 inside) (by decide)
  have value : 0 ∉ (attributePair attr).2 := by
    rw [attributePair]
    cases attr.content with
    | none => exact List.not_mem_nil
    | some value => exact not_mem_addQuoted (.inl rfl) value
  simp only [quotedAttribute, List.mem_cons, List.mem_append, name, value, List.not_mem_nil, or_false,
    false_or]
  decide

/-- A text that is written is a C string. -/
theorem zero_not_mem_forestOutput {forest : NodeForest} (parsed : ParsedForest forest)
    (enclosing : List XmlNode) : 0 ∉ forestOutput .xml 0 enclosing forest := by
  induction parsed generalizing enclosing with
  | nil => exact List.not_mem_nil
  | @element cell attributes children next type named tagged inner tail innerHypothesis tailHypothesis =>
      rcases forestOutput_element attributes children next enclosing type [] with ⟨mark, -, text, mark_⟩
      have name : 0 ∉ appended cell.name := fun inside => absurd (named.whole.2 0 inside) (by decide)
      have tags : 0 ∉ (attributes.map attributePair).flatMap quotedAttribute := by
        intro inside
        rcases List.mem_flatMap.mp inside with ⟨pair, listed, inside⟩
        rcases List.mem_map.mp listed with ⟨attr, member, rfl⟩
        exact zero_not_mem_quotedAttribute (tagged attr member) inside
      have literals : 0 ∉ lit "/>" ∧ 0 ≠ '<'.toUInt8 ∧ 0 ≠ '>'.toUInt8 ∧ 0 ≠ '/'.toUInt8 := by decide
      have ending : 0 ∉ mark := by
        rw [mark_]
        split
        next => simp only [List.mem_append, literals, tailHypothesis, List.not_mem_nil, or_self,
          not_false_eq_true]
        next => simp only [List.mem_append, List.mem_cons, literals, innerHypothesis, tailHypothesis, name,
          List.not_mem_nil, or_self, not_false_eq_true]
      rw [List.append_nil] at text
      rw [text]
      simp only [List.mem_cons, List.mem_append, literals, name, tags, ending, or_self, not_false_eq_true]
  | text type characters flagged tail inductionHypothesis =>
      have keeps : Keeps .xml 0 enclosing 0 := by
        refine ⟨fun impossible => absurd rfl impossible, ?_⟩
        rintro (impossible | ⟨impossible, -⟩)
        · exact absurd impossible (Nat.lt_irrefl 0)
        · cases impossible
      simp only [forestOutput, type, ← outputText_eq keeps, List.mem_append, inductionHypothesis,
        zero_not_mem_outputText flagged, or_self, not_false_eq_true]
  | root type inner tail innerHypothesis tailHypothesis =>
      simp only [forestOutput, type, List.mem_append, innerHypothesis, tailHypothesis, or_self,
        not_false_eq_true]

/-! ## Parsing what was written -/

section Reread

open Forest

variable {forest : NodeForest} (parsed : ParsedForest forest) (rereadable : forest.Rereadable)
  (memory : Heap)

include parsed rereadable

/-- The parser reads the written text up to the character data at its end. -/
theorem leads_written : Exists fun made : Forest => forest.skeleton.Same made.skeleton ∧
    Leads ⟨.init, forestOutput .xml 0 [] forest, some memory.size, none, 0,
        (xmlNewNode memory (some xslSRoot) .empty).1⟩
      ⟨(forest.lastRun none).state, (forest.lastRun none).getD [], some memory.size,
        (build (xmlNewNode memory (some xslSRoot) .empty).1 memory.size none made).2, 0,
        (build (xmlNewNode memory (some xslSRoot) .empty).1 memory.size none made).1⟩ := by
  have old : (none : Ptr).getD memory.size < (xmlNewNode memory (some xslSRoot) .empty).1.size :=
    Nat.lt_succ_self _
  rcases makes_forest parsed rereadable [] memory.size .skipped [] none _ old with
    ⟨made, reached, same⟩
  rw [List.append_nil, List.append_nil] at reached
  exact ⟨made, same, reached⟩

/-- The elements come back where the character data at the end is decoded. -/
theorem reread_of_uncut (uncut : ∀ text, forest.lastRun none = some text → ¬ CutReference text 0) :
    Exists fun after => Exists fun reread =>
      DoParse memory (forestOutput .xml 0 [] forest) (some memory.size) after ∧
        Shown after (some memory.size) reread ∧ forest.skeleton.Same reread.skeleton := by
  rcases leads_written parsed rereadable memory with ⟨made, same, reached⟩
  have plain := lastRun_plain parsed rereadable .skipped
  have decodes : ∀ text, forest.lastRun none = some text →
      Exists fun content => makeUnescapedString (text ++ []) [] = .ok content := by
    intro text last
    cases decoded : makeUnescapedString (text ++ []) [] with
    | ok content => exact ⟨content, rfl⟩
    | error failure =>
        have cut := (makeUnescapedString_error_iff.mp decoded).2
        rw [List.append_nil] at cut
        exact absurd cut (uncut text last)
  rcases leads_run plain (.inl rfl) decodes with ⟨content, state, -, fine, flushed⟩
  rw [List.append_nil] at flushed
  have yields : Yields memory.size .init (forestOutput .xml 0 [] forest) []
      (made.append (textIfAny content)) none (xmlNewNode memory (some xslSRoot) .empty).1 := by
    refine ⟨state, .inl rfl, fine, ?_⟩
    rw [build_append]
    exact reached.trans flushed
  rcases parse_of_yields memory yields with ⟨after, children, returned, root, holds⟩
  rcases holds.shown with ⟨below, shown, elements⟩
  refine ⟨after, .node (after.get memory.size) [] below .nil, returned, ?_, ?_⟩
  · refine .node memory.size [] below .nil ?_ ?_ ?_
    · rw [root]
      exact .nil
    · rw [root]
      exact shown
    · rw [root]
      exact .nil
  · simp only [NodeForest.skeleton, root, elements, Skeleton.append_nil, Forest.skeleton_append,
      textIfAny_skeleton]
    exact same

/-- A reference that is cut at the end is read beyond the document. -/
theorem overread_of_cut {text : Bytes} (last : forest.lastRun none = some text)
    (cut : CutReference text 0) :
    Returns pass (start memory (forestOutput .xml 0 [] forest)) .overread := by
  rcases leads_written parsed rereadable memory with ⟨made, -, reached⟩
  have plain := lastRun_plain parsed rereadable .skipped text last
  rw [last] at reached
  rcases reached [] none none with ⟨c, current, attr, whole⟩
  have more : text ≠ [] := by
    rcases cut with ⟨before, rest, split, -⟩
    rw [split]
    exact List.append_ne_nil_of_right_ne_nil _ (List.cons_ne_nil _ _)
  have ended : seekMarkup text = [] := by
    have found : seekMarkup (text ++ []) = [] := seekMarkup_plain plain (.inl rfl)
    rwa [List.append_nil] at found
  rw [start_eq, whole.returns_iff]
  refine .of_stop ?_
  simp only [Parse.pass, View.parser, Run.state, Option.getD_some, reduceCtorEq, if_false]
  refine (if_neg more).trans (passText_overread_iff.mpr ?_)
  dsimp only
  rw [ended]
  exact cut

end Reread

/-- A parsed document in whose texts no tag begins, and whose start tags are recognized, survives
exactly where its last character data is not cut in a reference. -/
theorem survives_iff {heap after : Heap} {document : Bytes} {node : NodeId}
    (parsed : DoParse heap document (some node) after) :
    Exists fun forest => Shown after (some node) forest ∧ (forest.Rereadable →
      (Survives after node ↔ ∀ text, forest.lastRun none = some text → ¬ CutReference text 0)) := by
  rcases DoParse.linked parsed with ⟨linked, made⟩
  rcases linked.shown (DoParse.legible parsed) made with ⟨forest, shown, tree⟩
  refine ⟨forest, shown, fun rereadable => ⟨?_, fun uncut => ?_⟩⟩
  · rintro ⟨other, again, text, written, parses⟩ last ends cut
    cases shown.unique again
    rw [(shown.outputs_iff _).mp written] at parses
    rcases parses after with ⟨root, memory, reread, returned, -⟩
    cases (overread_of_cut tree rereadable after ends cut).unique returned
  · refine ⟨forest, shown, ⟨forestOutput .xml 0 [] forest, zero_not_mem_forestOutput tree []⟩,
      (shown.outputs_iff _).mpr rfl, fun memory => ?_⟩
    rcases reread_of_uncut tree rereadable memory uncut with ⟨after, reread, returned, shown, same⟩
    exact ⟨memory.size, after, reread, returned, shown, same⟩

/-- An element with the text `a`, as it is parsed. -/
theorem survives_text :
    DoParse .empty (lit "<r>a</r>") (some 0) (memoryAfter 40 (lit "<r>a</r>")) ∧
      Survives (memoryAfter 40 (lit "<r>a</r>")) 0 := by
  have parsed : DoParse .empty (lit "<r>a</r>") (some 0) (memoryAfter 40 (lit "<r>a</r>")) := ⟨40, rfl⟩
  rcases survives_iff parsed with ⟨forest, shown, iff⟩
  cases shown.unique (.node 0 [] _ _ .nil
    (.node 1 [] _ _ .nil (.node 2 [] _ _ .nil .nil .nil) .nil) .nil)
  have rereadable : NodeForest.Rereadable (.node ((memoryAfter 40 (lit "<r>a</r>")).get 0) []
      (.node ((memoryAfter 40 (lit "<r>a</r>")).get 1) []
        (.node ((memoryAfter 40 (lit "<r>a</r>")).get 2) [] .nil .nil) .nil) .nil) := by
    refine ⟨⟨⟨.inl ?_, ?_, trivial⟩, trivial⟩, trivial⟩
    · decide
    · exact fun raw => absurd raw (by decide)
  refine ⟨parsed, (iff rereadable).mpr fun text last cut => ?_⟩
  have none_ : ([] : Bytes) = text := Option.some.inj last
  subst none_
  rcases cut with ⟨before, rest, split, -⟩
  exact List.append_ne_nil_of_right_ne_nil _ (List.cons_ne_nil _ _) split.symm

/-- The text of a CDATA section comes back as markup. -/
theorem cdata_turns_into_markup :
    ¬ ∀ (heap after : Heap) (document : Bytes) (node : NodeId),
      DoParse heap document (some node) after → Survives after node := by
  intro always
  have parsed : DoParse .empty (lit "<r><![CDATA[<b>]]></r>") (some 0)
      (memoryAfter 40 (lit "<r><![CDATA[<b>]]></r>")) := ⟨40, rfl⟩
  rcases always _ _ _ _ parsed with ⟨forest, shown, text, written, parses⟩
  have text_ := (shown.outputs_iff _).mp written
  cases shown.unique (.node 0 [] _ _ .nil
    (.node 1 [] _ _ .nil (.node 2 [] _ _ .nil .nil .nil) .nil) .nil)
  have bytes : text.bytes = lit "<r><b></r>" := text_
  rcases parses .empty with ⟨root, after, reread, returned, -⟩
  have refused : Exists fun memory => Returns pass (start .empty (lit "<r><b></r>")) (.returned none memory) :=
    ⟨_, 40, rfl⟩
  rcases refused with ⟨memory, refused⟩
  rw [bytes] at returned
  cases returned.unique refused

end TurboXSL
