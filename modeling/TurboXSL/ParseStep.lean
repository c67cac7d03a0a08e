import TurboXSL.Parse

namespace TurboXSL
namespace Parse

open Library

/-!
# What one iteration of the parser does

`Passed s s'` lists every way in which one iteration continues, with the
guards that select it.  Results about whole runs are proved by cases on it
and never unfold `pass` again.  `Wired` is the first of them: the pointers
the parser follows without a test are set whenever it does so.
-/

/-- The guard of `OPEN` that leaves the start of an element. -/
def AtElement (p : Bytes) : Prop :=
  byteAt p ≠ '?'.toUInt8 ∧ byteAt p ≠ '!'.toUInt8 ∧ byteAt p ≠ '/'.toUInt8

/-- The guard of `INSIDE_TAG` that leaves an attribute. -/
def AtAttribute (p : Bytes) : Prop :=
  byteAt p ≠ '>'.toUInt8 ∧ ¬ lit "/>" <+: p

/-- The memory after `openElement` made its node and before it is linked. -/
def elementHeap (s : Parser) : Heap :=
  (xmlNewNode s.heap (some (nameAt (skipSpaces s.p))) .element).1

/-- The memory after `addAttribute`. -/
def attributeHeap (s : Parser) (current : NodeId) : Heap :=
  let made := xmlNewNode s.heap (some (nameAt (skipSpaces s.p))) .attribute
  (made.1.modify made.2 fun n =>
      { n with next := (made.1.get current).attributes, parent := some current }).modify
    current fun n => { n with attributes := some made.2 }

/-- The memory after `addText` made its node and before it is linked. -/
def textHeap (s : Parser) (content : Bytes) (flags : Nat) : Heap :=
  (xmlNewNode s.heap none .text).1.modify s.heap.size fun n =>
    { n with content := some content, flags := flags }

/-- The cursor behind an attribute name and white space. -/
def behindAttribute (s : Parser) : Bytes := skipSpaces (afterName (skipSpaces s.p))

/-- One iteration from `s` continues in a state of this list. -/
inductive Passed (s : Parser) : Parser → Prop where
  | init (state : s.state = .init) : Passed s (passInit s)
  | xmldecl (state : s.state = .xmldecl) (p : Bytes)
      (found : seekPair '?'.toUInt8 '>'.toUInt8 s.p = .ok p) :
      Passed s { s with p := p.drop 2, state := .init }
  | comment (state : s.state = .comment) : Passed s (passComment s)
  | openDecl (state : s.state = .openTag) (here : byteAt s.p = '?'.toUInt8) :
      Passed s { s with p := s.p.tail, state := .xmldecl }
  | openComment (state : s.state = .openTag) (here : lit "!--" <+: s.p) :
      Passed s { s with
        p := s.p.drop 3
        commentDepth := (s.commentDepth + 1) % 2 ^ 32
        state := .comment }
  | openCdata (state : s.state = .openTag) (here : lit "![CDATA[" <+: s.p) :
      Passed s { s with p := s.p.drop 8, state := .cdata }
  | openDoctype (state : s.state = .openTag) (here : lit "!DOCTYPE" <+: s.p) :
      Passed s { s with p := s.p.drop 8, state := .doctype }
  | openClose (state : s.state = .openTag) (here : byteAt s.p = '/'.toUInt8) :
      Passed s { s with p := s.p.tail, state := .close }
  | openElement (state : s.state = .openTag) (here : AtElement s.p) (heap : Heap)
      (linked : linkNode (elementHeap s) s.ret s.previous s.heap.size = .ok heap) :
      Passed s { s with
        p := behindAttribute s
        c := afterName (skipSpaces s.p)
        current := some s.heap.size
        ret := s.ret.or (some s.heap.size)
        heap := heap
        state := .insideTag }
  | closeMatch (state : s.state = .close) (ret : NodeId) (name q : Bytes)
      (isOpen : s.ret = some ret) (named : (s.heap.get ret).name = some name)
      (same : nameAt (skipSpaces s.p) <+: name)
      (found : seekByte '>'.toUInt8 (afterName (skipSpaces s.p)) = .ok q) :
      Passed s { s with
        p := q.tail
        c := afterName (skipSpaces s.p)
        previous := some ret
        ret := (s.heap.get ret).parent
        state := .text }
  | closeMismatch (state : s.state = .close) (ret : NodeId) (name : Bytes)
      (isOpen : s.ret = some ret) (named : (s.heap.get ret).name = some name)
      (different : ¬ nameAt (skipSpaces s.p) <+: name) :
      Passed s { s with p := nameAt (skipSpaces s.p), c := [], state := .error }
  | tagEnd (state : s.state = .insideTag) (here : byteAt s.p = '>'.toUInt8) :
      Passed s { s with
        p := s.p.tail, ret := s.current, current := none, previous := none, state := .text }
  | tagSelfClose (state : s.state = .insideTag) (here : lit "/>" <+: s.p) :
      Passed s { s with p := s.p.drop 2, previous := s.current, state := .text }
  | valuedAttribute (state : s.state = .insideTag) (here : AtAttribute s.p) (current : NodeId)
      (inTag : s.current = some current) (value : byteAt (behindAttribute s) = '='.toUInt8) :
      Passed s { s with
        p := skipSpaces (behindAttribute s).tail
        c := afterName (skipSpaces s.p)
        attr := some s.heap.size
        heap := attributeHeap s current
        state := .attrValue }
  | bareAttribute (state : s.state = .insideTag) (here : AtAttribute s.p) (current : NodeId)
      (inTag : s.current = some current) (bare : byteAt (behindAttribute s) ≠ '='.toUInt8) :
      Passed s { s with
        p := behindAttribute s
        c := afterName (skipSpaces s.p)
        attr := some s.heap.size
        heap := attributeHeap s current }
  | cdata (state : s.state = .cdata) (heap : Heap)
      (content : (seekCdataEnd s.p).length < s.p.length)
      (closed : 3 ≤ (seekCdataEnd s.p).length)
      (linked : linkNode (textHeap s (s.p.take (s.p.length - (seekCdataEnd s.p).length))
        xmlFlagNoescape) s.ret s.previous s.heap.size = .ok heap) :
      Passed s { s with
        p := (seekCdataEnd s.p).drop 3
        c := seekCdataEnd s.p
        current := some s.heap.size
        previous := some s.heap.size
        heap := heap
        state := .text }
  | emptyCdata (state : s.state = .cdata)
      (content : s.p.length ≤ (seekCdataEnd s.p).length) :
      Passed s { s with c := seekCdataEnd s.p, state := .text }
  | doctype (state : s.state = .doctype) (p : Bytes)
      (found : seekPair ']'.toUInt8 '>'.toUInt8 s.p = .ok p) :
      Passed s { s with p := p.drop 2, state := .text }
  | text (state : s.state = .text) (content : Bytes) (heap : Heap)
      (run : (seekMarkup s.p).length < s.p.length)
      (unescaped : makeUnescapedString s.p (seekMarkup s.p) = .ok content)
      (linked : linkNode (textHeap s content 0) s.ret s.previous s.heap.size = .ok heap) :
      Passed s { s with
        p := seekMarkup s.p
        c := seekMarkup s.p
        current := some s.heap.size
        previous := some s.heap.size
        heap := heap
        state := .init }
  | noText (state : s.state = .text) (run : s.p.length ≤ (seekMarkup s.p).length) :
      Passed s { s with c := seekMarkup s.p, state := .init }
  | value (state : s.state = .attrValue) (rest content : Bytes) (attr : NodeId)
      (quoted : isQuote (byteAt s.p) = true)
      (found : seekByte (byteAt s.p) s.p.tail = .ok (byteAt s.p :: rest))
      (unescaped : makeUnescapedString s.p.tail (byteAt s.p :: rest) = .ok content)
      (inAttr : s.attr = some attr) :
      Passed s { s with
        p := skipSpaces rest
        c := byteAt s.p :: rest
        heap := s.heap.modify attr fun n => { n with content := some content }
        state := .insideTag }
  | bareValue (state : s.state = .attrValue) (c : UInt8) (rest : Bytes)
      (bare : isQuote (byteAt s.p) = false) (more : s.c = c :: rest) :
      Passed s { s with p := skipSpaces rest, state := .insideTag }
  | body (state : s.state = .body) : Passed s s

theorem seekByte_eq_ok {wanted : UInt8} {p q : Bytes} (found : seekByte wanted p = .ok q) :
    Exists fun before => Exists fun rest =>
      p = before ++ wanted :: rest ∧ wanted ∉ before ∧ q = wanted :: rest := by
  induction p with
  | nil => cases found
  | cons c p inductionHypothesis =>
      simp only [seekByte] at found
      split at found
      · rename_i same
        subst same
        exact ⟨[], p, rfl, List.not_mem_nil, (Except.ok.inj found).symm⟩
      · rename_i other
        rcases inductionHypothesis found with ⟨before, rest, rfl, absent, here⟩
        refine ⟨c :: before, rest, rfl, fun member => ?_, here⟩
        exact (List.mem_cons.mp member).elim (fun same => other same.symm) absent

/-- A sequence that succeeds is a success followed by a success. -/
theorem bind_eq_ok {First Second : Type} {first : Except Stop First}
    {second : First → Except Stop Second} {result : Second}
    (bound : first >>= second = .ok result) :
    Exists fun value => first = .ok value ∧ second value = .ok result := by
  cases first with
  | error stop => cases bound
  | ok value => exact ⟨value, rfl, bound⟩

private theorem passed_of_passOpen {s s' : Parser} (state : s.state = .openTag)
    (step : passOpen s = .ok s') : Passed s s' := by
  simp only [passOpen, List.isPrefixOf_iff_prefix] at step
  split at step
  · rename_i here
    exact Except.ok.inj step ▸ .openDecl state here
  · rename_i notDecl
    split at step
    · rename_i here
      exact Except.ok.inj step ▸ .openComment state here
    · split at step
      · rename_i here
        exact Except.ok.inj step ▸ .openCdata state here
      · split at step
        · rename_i here
          exact Except.ok.inj step ▸ .openDoctype state here
        · split at step
          · cases step
          · rename_i notMark
            split at step
            · rename_i here
              exact Except.ok.inj step ▸ .openClose state here
            · rename_i notClose
              rcases bind_eq_ok step with ⟨heap, linked, ⟨⟩⟩
              exact .openElement state ⟨notDecl, notMark, notClose⟩ heap linked

private theorem passed_of_passClose {s s' : Parser} (state : s.state = .close)
    (step : passClose s = .ok s') : Passed s s' := by
  simp only [passClose] at step
  split at step
  · cases step
  · rename_i ret isOpen
    split at step
    · cases step
    · rename_i name named
      simp only [memcmpEqual, List.isPrefixOf_iff_prefix] at step
      split at step
      · rename_i same
        rcases bind_eq_ok step with ⟨q, found, ⟨⟩⟩
        exact .closeMatch state ret name q isOpen named same found
      · rename_i different
        exact Except.ok.inj step ▸ .closeMismatch state ret name isOpen named different

private theorem passed_of_passInsideTag {s s' : Parser} (state : s.state = .insideTag)
    (step : passInsideTag s = .ok s') : Passed s s' := by
  simp only [passInsideTag, List.isPrefixOf_iff_prefix] at step
  split at step
  · rename_i here
    exact Except.ok.inj step ▸ .tagEnd state here
  · rename_i notEnd
    split at step
    · rename_i here
      exact Except.ok.inj step ▸ .tagSelfClose state here
    · rename_i notSelf
      simp only [addAttribute] at step
      split at step
      · cases step
      · rename_i current inTag
        split at step
        · rename_i value
          exact Except.ok.inj step ▸ .valuedAttribute state ⟨notEnd, notSelf⟩ current inTag value
        · rename_i bare
          exact Except.ok.inj step ▸ .bareAttribute state ⟨notEnd, notSelf⟩ current inTag bare

private theorem passed_of_passCdata {s s' : Parser} (state : s.state = .cdata)
    (step : passCdata s = .ok s') : Passed s s' := by
  simp only [passCdata] at step
  split at step
  · rename_i content
    rcases bind_eq_ok step with ⟨text, added, step⟩
    rcases bind_eq_ok added with ⟨heap, linked, ⟨⟩⟩
    split at step
    · cases step
    · rename_i closed
      exact Except.ok.inj step ▸ .cdata state heap content (Nat.not_lt.mp closed) linked
  · rename_i content
    exact Except.ok.inj step ▸ .emptyCdata state (Nat.not_lt.mp content)

private theorem passed_of_passText {s s' : Parser} (state : s.state = .text)
    (step : passText s = .ok s') : Passed s s' := by
  simp only [passText] at step
  split at step
  · rename_i run
    rcases bind_eq_ok step with ⟨content, unescaped, step⟩
    rcases bind_eq_ok step with ⟨text, added, step⟩
    rcases bind_eq_ok added with ⟨heap, linked, ⟨⟩⟩
    exact Except.ok.inj step ▸ .text state content heap run unescaped linked
  · rename_i run
    exact Except.ok.inj step ▸ .noText state (Nat.not_lt.mp run)

private theorem passed_of_passAttrValue {s s' : Parser} (state : s.state = .attrValue)
    (step : passAttrValue s = .ok s') : Passed s s' := by
  simp only [passAttrValue] at step
  split at step
  · rename_i quoted
    rcases bind_eq_ok step with ⟨c, found, step⟩
    rcases bind_eq_ok step with ⟨content, unescaped, step⟩
    split at step
    · cases step
    · rename_i attr inAttr
      rcases seekByte_eq_ok found with ⟨-, rest, -, -, rfl⟩
      exact Except.ok.inj step ▸ .value state rest content attr quoted found unescaped inAttr
  · rename_i bare
    simp only [leaveAttrValue] at step
    split at step
    · cases step
    · rename_i c rest more
      exact Except.ok.inj step ▸ .bareValue state c rest (Bool.not_eq_true _ ▸ bare) more

/-- The inversion of one iteration. -/
theorem Passed.of_pass {s s' : Parser} (step : pass s = .ok s') : Passed s s' := by
  unfold pass at step
  split at step
  · cases step
  · split at step
    · cases step
    · cases state : s.state <;> simp only [state] at step
      case init => exact Except.ok.inj step ▸ .init state
      case comment => exact Except.ok.inj step ▸ .comment state
      case body => exact Except.ok.inj step ▸ .body state
      case error => cases step
      case xmldecl =>
        rcases bind_eq_ok step with ⟨p, found, ⟨⟩⟩
        exact .xmldecl state p found
      case doctype =>
        rcases bind_eq_ok step with ⟨p, found, ⟨⟩⟩
        exact .doctype state p found
      case openTag => exact passed_of_passOpen state step
      case close => exact passed_of_passClose state step
      case insideTag => exact passed_of_passInsideTag state step
      case cdata => exact passed_of_passCdata state step
      case text => exact passed_of_passText state step
      case attrValue => exact passed_of_passAttrValue state step

/-! ## The pointers that are followed without a test -/

/-- What the untested uses of `ret`, `current`, `attr` and `c` rely on. -/
structure Wired (s : Parser) : Prop where
  sibling : s.previous = none → s.ret ≠ none
  tag : s.state = .insideTag ∨ s.state = .attrValue → s.current ≠ none
  value : s.state = .attrValue → s.attr ≠ none ∧ s.c ≠ []

theorem Wired.start (heap : Heap) (document : Bytes) : Wired (start heap document) where
  sibling := fun _ => Option.some_ne_none _
  tag := by rintro (state | state) <;> cases state
  value := fun state => by cases state

theorem skipSpaces_ne_nil {p : Bytes} (here : byteAt (skipSpaces p) = '='.toUInt8) : p ≠ [] := by
  rintro rfl
  exact absurd here (by decide)

/-- Outside of tags only the sibling pointers matter. -/
theorem Wired.outside {s : Parser} (sibling : s.previous = none → s.ret ≠ none)
    (notTag : s.state ≠ .insideTag) (notValue : s.state ≠ .attrValue) : Wired s where
  sibling := sibling
  tag := fun state => (state.elim notTag notValue).elim
  value := fun state => (notValue state).elim

theorem passComment_state (s : Parser) :
    (passComment s).state = .text ∨ (passComment s).state = .comment ∨
      (passComment s).state = s.state := by
  simp only [passComment]
  split
  · split
    · exact .inl rfl
    · exact .inr (.inl rfl)
  · exact .inr (.inr rfl)

theorem passComment_links (s : Parser) :
    (passComment s).ret = s.ret ∧ (passComment s).previous = s.previous ∧
      (passComment s).heap = s.heap := by
  simp only [passComment]
  split <;> exact ⟨rfl, rfl, rfl⟩

theorem Wired.passed {s s' : Parser} (wired : Wired s) (step : Passed s s') : Wired s' := by
  cases step with
  | init state =>
      refine .outside wired.sibling ?_ ?_ <;>
      · simp only [passInit]
        split <;> decide
  | comment state =>
      have links := passComment_links s
      refine .outside (links.2.1 ▸ links.1 ▸ wired.sibling) ?_ ?_ <;>
      · rcases passComment_state s with new | new | new <;> rw [new]
        · decide
        · decide
        · rw [state]
          decide
  | xmldecl | openDecl | openComment | openCdata | openDoctype | openClose
  | emptyCdata | doctype | noText | closeMismatch =>
      exact .outside wired.sibling (by rintro ⟨⟩) (by rintro ⟨⟩)
  | body state =>
      exact .outside wired.sibling (by rw [state]; decide) (by rw [state]; decide)
  | closeMatch | cdata | text =>
      exact .outside (by rintro ⟨⟩) (by rintro ⟨⟩) (by rintro ⟨⟩)
  | tagEnd state =>
      exact .outside (fun _ => wired.tag (.inl state)) (by rintro ⟨⟩) (by rintro ⟨⟩)
  | tagSelfClose state =>
      exact .outside (fun absent => (wired.tag (.inl state) absent).elim) (by rintro ⟨⟩) (by rintro ⟨⟩)
  | openElement =>
      refine ⟨fun _ absent => ?_, fun _ => Option.some_ne_none _, fun state => by cases state⟩
      exact Option.some_ne_none _ (Option.or_eq_none_iff.mp absent).2
  | valuedAttribute state here current inTag value =>
      refine ⟨wired.sibling, fun _ => wired.tag (.inl state), fun _ => ⟨Option.some_ne_none _, ?_⟩⟩
      exact skipSpaces_ne_nil value
  | bareAttribute state =>
      exact ⟨wired.sibling, fun _ => wired.tag (.inl state),
        fun impossible => by rw [state] at impossible; cases impossible⟩
  | value state =>
      exact ⟨wired.sibling, fun _ => wired.tag (.inr state), fun impossible => by cases impossible⟩
  | bareValue state =>
      exact ⟨wired.sibling, fun _ => wired.tag (.inr state), fun impossible => by cases impossible⟩

/-- Every state the document can bring about is wired. -/
theorem Reachable.wired {heap : Heap} {document : Bytes} {s : Parser}
    (reached : Reachable heap document s) : Wired s :=
  reached.preserves (fun _ _ wired step => wired.passed (.of_pass step)) (.start heap document)

/-- A wired parser can always hang a new node somewhere. -/
theorem Wired.linkNode_ok {s : Parser} (wired : Wired s) (heap : Heap) (current : NodeId) :
    Exists fun after => linkNode heap s.ret s.previous current = .ok after := by
  simp only [linkNode]
  cases previous : s.previous with
  | some sibling => exact ⟨_, rfl⟩
  | none =>
      cases ret : s.ret with
      | none => exact (wired.sibling previous ret).elim
      | some parent => exact ⟨_, rfl⟩

end Parse
end TurboXSL
