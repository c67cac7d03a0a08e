import TurboXSL.ParseContent

namespace TurboXSL
namespace Parse

open Library Document Forest

/-!
# Which documents are read as they are meant

A document of the grammar is always read to its end, and its root then holds
the forest that the parser observes.  That forest is the denoted one when no
character data follows a processing instruction and no CDATA section is
empty.  Counting bytes shows that nothing less will do, unless the two
defects make up for each other.
-/

/-! ## Reading a document -/

theorem start_eq (heap : Heap) (document : Bytes) :
    start heap document = (⟨.init, document, some heap.size, none, 0,
      (xmlNewNode heap (some xslSRoot) .empty).1⟩ : View).parser [] none none := rfl

/-- A text that is read to its end is parsed to the forest that was made. -/
theorem parse_of_yields (heap : Heap) {document : Bytes} {forest : Forest}
    (yields : Yields heap.size .init document [] forest none
      (xmlNewNode heap (some xslSRoot) .empty).1) :
    Exists fun after => Exists fun children => DoParse heap document (some heap.size) after ∧
      after.get heap.size =
        { type := .empty, name := some xslSRoot, uid := some heap.size, children := children } ∧
      Holds after heap.size none children forest := by
  generalize entered : (xmlNewNode heap (some xslSRoot) .empty).1 = first at yields
  have size : first.size = heap.size + 1 := entered ▸ rfl
  have root : first.get heap.size =
      { type := .empty, name := some xslSRoot, uid := some heap.size } := by
    rw [← entered, xmlNewNode, Arena.alloc_get_same]
  have old : (none : Ptr).getD heap.size < first.size := size ▸ Nat.lt_succ_self _
  rcases yields with ⟨state, -, fine, reached⟩
  have built : Built first _ heap.size none forest := build_built forest old
  have bare : (first.get heap.size).children = none := by rw [root]
  have atRoot := (built.others heap.size old).trans (attach_get_parent bare)
  rw [root] at atRoot
  refine ⟨(build first heap.size none forest).1, _, ?_, atRoot, built.laid.holds⟩
  rcases reached [] none none with ⟨c, current, attr, whole⟩
  rw [DoParse, start_eq, entered, whole.returns_iff]
  refine .of_stop ?_
  simp only [pass, View.parser, if_neg fine, if_true]

/-- A text in front of which nothing was made is parsed to the observed forest. -/
theorem parse_content (heap : Heap) (document : Bytes) (content : Content)
    (front : ∀ {heap : Heap} {ret previous : Ptr},
      Leads ⟨.init, document, ret, previous, 0, heap⟩
        ⟨.init, content.render, ret, previous, 0, heap⟩) :
    Exists fun after => DoParse heap document (some heap.size) after ∧
      (after.get heap.size).type = .empty ∧
      Holds after heap.size none (after.get heap.size).children (observe none content) := by
  have old : (none : Ptr).getD heap.size < (xmlNewNode heap (some xslSRoot) .empty).1.size :=
    Nat.lt_succ_self _
  have yields : Yields heap.size .init ([] ++ (content.render ++ [])) [] (observe none content)
      none _ := yields_content content none (.inl rfl) old
  rw [List.nil_append, List.append_nil] at yields
  rcases parse_of_yields heap (yields.prepend front rfl) with
    ⟨after, children, returned, root, holds⟩
  refine ⟨after, returned, ?_, ?_⟩
  · rw [root]
  · rw [root]
    exact holds

/-- The white space and the declaration in front of the element are skipped. -/
theorem leads_declaration (document : Document) {heap : Heap} {ret previous : Ptr} :
    Leads ⟨.init, document.render, ret, previous, 0, heap⟩
      ⟨.init, document.root.render, ret, previous, 0, heap⟩ := by
  rw [Document.render]
  cases document.declaration with
  | none => exact .refl _
  | some declaration =>
      rcases declaration with ⟨characters, space⟩
      have bracket : '<'.toUInt8 ∉ space.bytes :=
        fun member => absurd (space.white _ member) (by decide)
      simp only [renderDeclaration, lit_openings, List.append_assoc, List.cons_append,
        List.nil_append]
      exact (leads_init_bracket.trans (leads_pi characters)).trans (leads_init_skip bracket)

/-! ## Documents are C strings -/

theorem zero_not_mem_attr (attr : Attr) : 0 ∉ attr.render := by
  have gap : ∀ space : Space, 0 ∉ space.bytes :=
    fun space member => absurd (space.white 0 member) (by decide)
  have name : 0 ∉ attr.name.bytes := fun member => absurd (attr.name.named 0 member) (by decide)
  have value : 0 ∉ renderPieces attr.value :=
    not_mem_renderPieces (by decide) fun ordinary _ => ordinary.1 rfl
  have quote : 0 ≠ attr.quote.byte := by cases attr.quote <;> decide
  simp only [Attr.render, List.mem_append, List.mem_cons, List.not_mem_nil, or_false, gap, name,
    value, quote, false_or]
  decide

theorem zero_not_mem_content (content : Content) : 0 ∉ content.render := by
  have literals : 0 ∉ lit "<" ∧ 0 ∉ lit ">" ∧ 0 ∉ lit "</" ∧ 0 ∉ lit "/>" ∧ 0 ∉ lit "<?" ∧
      0 ∉ lit "?>" ∧ 0 ∉ lit "<!--" ∧ 0 ∉ lit "-->" ∧ 0 ∉ lit "<![CDATA[" ∧ 0 ∉ lit "]]>" := by
    decide
  have attrs : ∀ list : List Attr, 0 ∉ list.flatMap Attr.render := by
    intro list member
    rcases List.mem_flatMap.mp member with ⟨attr, -, inside⟩
    exact zero_not_mem_attr attr inside
  have gap : ∀ space : Space, 0 ∉ space.bytes :=
    fun space member => absurd (space.white 0 member) (by decide)
  have named : ∀ name : Name, 0 ∉ name.bytes :=
    fun name member => absurd (name.named 0 member) (by decide)
  induction content with
  | done => exact List.not_mem_nil
  | text piece next inductionHypothesis =>
      have visible : 0 ∉ piece.render := by
        have absent : 0 ∉ renderPieces [piece] :=
          not_mem_renderPieces (by decide) fun ordinary _ => ordinary.1 rfl
        rwa [renderPieces, List.flatMap_singleton] at absent
      exact fun member => (List.mem_append.mp member).elim visible inductionHypothesis
  | element name attributes inTag inEnd children next childrenHypothesis nextHypothesis =>
      simp only [Content.render, List.mem_append, literals, attrs attributes, gap inTag, gap inEnd,
        named name, childrenHypothesis, nextHypothesis, or_self, not_false_eq_true]
  | empty name attributes inTag next inductionHypothesis =>
      simp only [Content.render, List.mem_append, literals, attrs attributes, gap inTag,
        named name, inductionHypothesis, or_self, not_false_eq_true]
  | cdata characters next inductionHypothesis
  | comment characters next inductionHypothesis
  | pi characters next inductionHypothesis =>
      simp only [Content.render, List.mem_append, literals, characters.noNul, inductionHypothesis,
        or_self, not_false_eq_true]

theorem zero_not_mem_document (document : Document) : 0 ∉ document.render := by
  have literals : 0 ∉ lit "<?" ∧ 0 ∉ lit "?>" := by decide
  have content := zero_not_mem_content document.root
  rw [Document.render]
  cases document.declaration with
  | none => exact content
  | some declaration =>
      have space : 0 ∉ declaration.2.bytes :=
        fun member => absurd (declaration.2.white 0 member) (by decide)
      simp only [renderDeclaration, List.mem_append, literals, declaration.1.noNul, space, content,
        or_self, not_false_eq_true]

/-- The text of a document as the parser receives it. -/
def documentText (document : Document) : CString :=
  ⟨document.render, zero_not_mem_document document⟩

/-- `do_parse` returns the root, and below it the forest the document denotes. -/
def ParsesTo (heap : Heap) (document : Document) : Prop :=
  Exists fun after => DoParse heap (documentText document).bytes (some heap.size) after ∧
    Holds after heap.size none (after.get heap.size).children document.denote

/-- A document is read as it is meant iff its observed forest is the denoted one. -/
theorem parsesTo_iff_observe (heap : Heap) (document : Document) :
    ParsesTo heap document ↔ observe none document.root = document.denote := by
  rcases parse_content heap document.render document.root (leads_declaration document) with
    ⟨after, returned, -, holds⟩
  constructor
  · rintro ⟨other, again, denoted⟩
    have same : other = after := (Stop.returned.inj (again.unique returned)).2
    exact holds.unique (same ▸ denoted)
  · intro same
    exact ⟨after, returned, same ▸ holds⟩

/-! ## Counting bytes -/

/-- The bytes of character data directly behind a processing instruction. -/
def bytesAfterPi : Bool → Content → Nat
  | _, .done => 0
  | afterPi, .text piece next =>
      (if afterPi then piece.denote.length else 0) + bytesAfterPi afterPi next
  | _, .element _ _ _ _ children next => bytesAfterPi false children + bytesAfterPi false next
  | _, .empty _ _ _ next => bytesAfterPi false next
  | _, .cdata _ next => bytesAfterPi false next
  | _, .comment _ next => bytesAfterPi false next
  | _, .pi _ next => bytesAfterPi true next

/-- The number of empty CDATA sections. -/
def emptySections : Content → Nat
  | .done => 0
  | .text _ next => emptySections next
  | .element _ _ _ _ children next => emptySections children + emptySections next
  | .empty _ _ _ next => emptySections next
  | .cdata characters next => (if characters.bytes = [] then 1 else 0) + emptySections next
  | .comment _ next => emptySections next
  | .pi _ next => emptySections next

/-- The bytes of all text nodes. -/
def volume : Forest → Nat
  | .nil => 0
  | .text content _ next => content.length + volume next
  | .element _ _ children next => volume children + volume next

theorem volume_flush (run : List Piece) (next : Forest) :
    volume (flush run next) = (denotePieces run).length + volume next := by
  simp only [flush]
  split
  · rename_i empty
    rw [empty]
    exact (Nat.zero_add _).symm
  · rfl

theorem volume_sectionText (characters : Bytes) (next : Forest) :
    volume (sectionText characters next) = characters.length + volume next := by
  simp only [sectionText]
  split
  · rename_i empty
    rw [empty]
    exact (Nat.zero_add _).symm
  · rfl

/-- The bytes of the run that a mode has read. -/
def Mode.volume : Mode → Nat
  | none => 0
  | some run => (denotePieces run).length

theorem volume_flushMode (mode : Mode) (next : Forest) :
    volume (flushMode mode next) = mode.volume + volume next := by
  cases mode with
  | none => exact (Nat.zero_add _).symm
  | some run => exact volume_flush run next

theorem denotePieces_append (run : List Piece) (piece : Piece) :
    (denotePieces (run ++ [piece])).length = (denotePieces run).length + piece.denote.length := by
  simp only [denotePieces, List.flatMap_append, List.flatMap_singleton, List.length_append]

/-- What is denoted does not depend on how a run is split up. -/
theorem volume_denote (content : Content) (run : List Piece) :
    volume (content.denote run) = (denotePieces run).length + volume (content.denote []) := by
  induction content generalizing run with
  | text piece next inductionHypothesis =>
      rw [Content.denote, Content.denote, inductionHypothesis, inductionHypothesis ([] ++ [piece]),
        denotePieces_append, denotePieces_append, Nat.add_assoc, Nat.add_assoc]
      exact congrArg _ (Nat.zero_add _).symm
  | _ =>
      simp only [Content.denote, volume_flush]
      exact congrArg _ (Nat.zero_add _).symm

/-- The bytes observed are those denoted, less those behind a processing
instruction, and three more for every empty CDATA section. -/
theorem volume_observe (content : Content) (mode : Mode) :
    volume (observe mode content) + bytesAfterPi mode.isNone content =
      mode.volume + volume (content.denote []) + 3 * emptySections content := by
  have inText : Mode.volume (some []) = 0 := rfl
  have outside : (some ([] : List Piece)).isNone = false := rfl
  have flushed : ∀ next, volume (flush [] next) = volume next := fun _ => rfl
  induction content generalizing mode with
  | done =>
      simp only [observe, volume_flushMode, bytesAfterPi, Content.denote, flushed, emptySections]
  | text piece next inductionHypothesis =>
      have denoted := volume_denote next ([] ++ [piece])
      rw [denotePieces_append, show (denotePieces []).length = 0 from rfl] at denoted
      cases mode with
      | none =>
          have later := inductionHypothesis none
          simp only [observe, bytesAfterPi, Content.denote, denoted, emptySections,
            Option.isNone_none, if_true] at later ⊢
          omega
      | some run =>
          have later := inductionHypothesis (some (run ++ [piece]))
          simp only [Mode.volume, denotePieces_append] at later
          simp only [observe, bytesAfterPi, Content.denote, denoted, emptySections, Mode.volume,
            Option.isNone_some, Bool.false_eq_true, if_false] at later ⊢
          omega
  | element name attrs inTag inEnd children next childrenHypothesis nextHypothesis =>
      have inner := childrenHypothesis (some [])
      have later := nextHypothesis (some [])
      simp only [observe, volume_flushMode, bytesAfterPi, Content.denote, flushed, volume,
        emptySections, outside, inText] at inner later ⊢
      omega
  | empty name attrs inTag next inductionHypothesis =>
      have later := inductionHypothesis (some [])
      simp only [observe, volume_flushMode, bytesAfterPi, Content.denote, flushed, volume,
        emptySections, outside, inText] at later ⊢
      omega
  | cdata characters next inductionHypothesis =>
      simp only [observe, volume_flushMode, bytesAfterPi, Content.denote, flushed,
        volume_sectionText, emptySections]
      split
      · rename_i empty
        have later := inductionHypothesis (some delimiterPieces)
        have three : Mode.volume (some delimiterPieces) = 3 := rfl
        rw [three, Option.isNone_some] at later
        rw [empty, List.length_nil]
        omega
      · have later := inductionHypothesis (some [])
        rw [inText, outside] at later
        simp only [volume]
        omega
  | comment characters next inductionHypothesis =>
      have later := inductionHypothesis (some [])
      simp only [observe, volume_flushMode, bytesAfterPi, Content.denote, flushed, emptySections,
        outside, inText] at later ⊢
      omega
  | pi characters next inductionHypothesis =>
      have later := inductionHypothesis none
      simp only [observe, volume_flushMode, bytesAfterPi, Content.denote, flushed, emptySections,
        Option.isNone_none, Mode.volume] at later ⊢
      omega

theorem denote_ne_nil (piece : Piece) : 0 < piece.denote.length := by
  cases piece with
  | plain | entity => exact Nat.one_pos
  | decimal character | hexadecimal character =>
      exact List.length_pos_iff.mpr String.utf8EncodeChar_ne_nil

/-- What is denoted behind the pieces of an open run that is not skipped. -/
def Mode.run : Mode → List Piece
  | none => []
  | some run => run

/-- Without the two defects the parser observes what is denoted. -/
theorem observe_eq_denote (content : Content) (mode : Mode)
    (kept : bytesAfterPi mode.isNone content = 0) (filled : emptySections content = 0) :
    observe mode content = content.denote mode.run := by
  have flushed : ∀ (mode : Mode) next, flushMode mode next = flush mode.run next := by
    intro mode next
    cases mode <;> rfl
  induction content generalizing mode with
  | done => exact flushed mode .nil
  | text piece next inductionHypothesis =>
      have positive := denote_ne_nil piece
      cases mode with
      | none =>
          simp only [bytesAfterPi, Option.isNone_none, if_true] at kept
          omega
      | some run =>
          simp only [bytesAfterPi, Option.isNone_some, Bool.false_eq_true, if_false,
            Nat.zero_add] at kept
          exact inductionHypothesis (some (run ++ [piece])) kept filled
  | element name attrs inTag inEnd children next childrenHypothesis nextHypothesis =>
      simp only [bytesAfterPi, emptySections, Nat.add_eq_zero_iff] at kept filled
      simp only [observe, Content.denote, flushed, childrenHypothesis (some []) kept.1 filled.1,
        nextHypothesis (some []) kept.2 filled.2]
      rfl
  | empty name attrs inTag next inductionHypothesis =>
      simp only [observe, Content.denote, flushed, inductionHypothesis (some []) kept filled]
      rfl
  | cdata characters next inductionHypothesis =>
      simp only [emptySections, Nat.add_eq_zero_iff] at filled
      have some_ : characters.bytes ≠ [] := by
        intro empty
        rw [if_pos empty] at filled
        exact Nat.one_ne_zero filled.1
      simp only [observe, Content.denote, sectionText, flushed, if_neg some_,
        inductionHypothesis (some []) kept filled.2]
      rfl
  | comment characters next inductionHypothesis =>
      simp only [observe, Content.denote, flushed, inductionHypothesis (some []) kept filled]
      rfl
  | pi characters next inductionHypothesis =>
      simp only [observe, Content.denote, flushed, inductionHypothesis none kept filled]
      rfl

/-- A document without character data behind a processing instruction and
without empty CDATA sections is read as it is meant.  Whatever document is
so read, it lost as many bytes as its empty sections added. -/
theorem parsesTo_of_supported (heap : Heap) (document : Document) :
    (bytesAfterPi false document.root = 0 ∧ emptySections document.root = 0 →
        ParsesTo heap document) ∧
      (ParsesTo heap document →
        bytesAfterPi false document.root = 3 * emptySections document.root) := by
  rw [parsesTo_iff_observe]
  have outermost : ∀ afterPi, bytesAfterPi afterPi document.root =
      bytesAfterPi false document.root := by
    have single := document.single
    intro afterPi
    cases root : document.root with
    | element | empty => rfl
    | _ => rw [root] at single; cases single
  constructor
  · rintro ⟨kept, filled⟩
    exact observe_eq_denote document.root none ((outermost _).trans kept) filled
  · intro same
    have counted := volume_observe document.root none
    rw [same, outermost, Mode.volume, Document.denote] at counted
    omega

/-- Character data behind a processing instruction is lost: `<a><?p?>x</a>`. -/
theorem text_after_pi_is_lost : ¬ ∀ heap document, ParsesTo heap document := by
  intro complete
  let name : Name := ⟨lit "a", by decide, forall_bytes (by decide)⟩
  let instruction : Enclosed (lit "?>") := ⟨lit "p", by decide, by decide⟩
  let space : Space := ⟨[], nofun⟩
  let document : Document :=
    { declaration := none
      root := .element name [] space space
        (.pi instruction (.text (.plain 'x'.toUInt8 (by decide)) .done)) .done
      single := trivial }
  have read := (parsesTo_iff_observe Heap.empty document).mp (complete Heap.empty document)
  have different : observe none document.root ≠ document.denote := by decide
  exact different read

end Parse
end TurboXSL
