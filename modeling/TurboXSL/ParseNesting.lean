import TurboXSL.ParseProgress

namespace TurboXSL
namespace Parse

open Library

/-!
# Which documents are accepted

The parser keeps its open elements only as a chain of parent pointers.  The
tags of a document, in the order in which they are read, are checked here by
a stack of names of its own; `Nested` ties that stack to the chain.  As long
as the stack accepts the tags, the two agree.  Where it does not, the parser
either rejects the document as well or goes on: those are the states of
`Slack`.
-/

/-! ## The tags of a run -/

/-- What one pass reads of a document's nesting. -/
inductive Tag where
  | start (name : Bytes)
  | selfClose
  | finish (name : Bytes)
  | value (quoted : Bool)
deriving DecidableEq

instance : DecidablePred AtElement := fun _ => inferInstanceAs (Decidable (_ ∧ _ ∧ _))

/-- The tag that the next pass reads. -/
def tagRead (s : Parser) : Option Tag :=
  match s.state with
  | .openTag => if AtElement s.p then some (.start (nameAt (skipSpaces s.p))) else none
  | .close => some (.finish (nameAt (skipSpaces s.p)))
  | .insideTag =>
      if byteAt s.p = '>'.toUInt8 then none
      else if lit "/>" <+: s.p then some .selfClose
      else if byteAt (behindAttribute s) = '='.toUInt8 then
        some (.value (isQuote (byteAt (skipSpaces (behindAttribute s).tail))))
      else none
  | _ => none

/-- One tag changes the names of the open elements, innermost first; `none`
where it must not stand. -/
def nest (names : List Bytes) : Tag → Option (List Bytes)
  | .start name => some (name :: names)
  | .selfClose => names.tail?
  | .finish name => if names.head? = some name then names.tail? else none
  | .value quoted => if quoted then some names else none

/-- Every element is closed under its own name, and every value is quoted. -/
def WellNested (tags : List Tag) : Prop := tags.foldlM nest [] = some []

/-! ## What a pass keeps of the memory -/

/-- Nodes never lose their type, their name or their parent. -/
structure Keeps (before after : Heap) : Prop where
  grows : before.size ≤ after.size
  same : ∀ i < before.size, (after.get i).type = (before.get i).type ∧
    (after.get i).name = (before.get i).name ∧ (after.get i).parent = (before.get i).parent

theorem Keeps.refl (heap : Heap) : Keeps heap heap :=
  ⟨Nat.le_refl _, fun _ _ => ⟨rfl, rfl, rfl⟩⟩

theorem Keeps.trans {first second third : Heap} (left : Keeps first second)
    (right : Keeps second third) : Keeps first third where
  grows := left.grows.trans right.grows
  same := fun i old => by
    have earlier := left.same i old
    have later := right.same i (Nat.lt_of_lt_of_le old left.grows)
    exact ⟨later.1.trans earlier.1, later.2.1.trans earlier.2.1, later.2.2.trans earlier.2.2⟩

theorem Keeps.alloc (heap : Heap) (node : XmlNode) : Keeps heap (heap.alloc node) where
  grows := Nat.le_succ _
  same := fun i old => by
    rw [heap.alloc_get_of_lt node old]
    exact ⟨rfl, rfl, rfl⟩

/-- Writing the other fields of a node keeps these three. -/
theorem Keeps.modify (heap : Heap) (index : NodeId) (change : XmlNode → XmlNode)
    (same : ∀ n, (change n).type = n.type ∧ (change n).name = n.name ∧
      (change n).parent = n.parent) : Keeps heap (heap.modify index change) where
  grows := Nat.le_refl _
  same := fun i _ => by
    by_cases here : i = index
    · rw [here, heap.modify_get_same]
      exact same _
    · rw [heap.modify_get_of_ne change here]
      exact ⟨rfl, rfl, rfl⟩

/-- A node that did not exist before may be written at will. -/
theorem Keeps.modify_fresh {before after : Heap} (kept : Keeps before after) {index : NodeId}
    (fresh : before.size ≤ index) (change : XmlNode → XmlNode) :
    Keeps before (after.modify index change) where
  grows := kept.grows
  same := fun i old => by
    rw [after.modify_get_of_ne change (Nat.ne_of_lt (Nat.lt_of_lt_of_le old fresh))]
    exact kept.same i old

/-- Linking gives the new node its parent and changes no other parent. -/
theorem linkNode_keeps {before heap after : Heap} {ret previous : Ptr} {current : NodeId}
    (kept : Keeps before heap) (fresh : before.size ≤ current)
    (linked : linkNode heap ret previous current = .ok after) :
    Keeps before after ∧ after.size = heap.size ∧ (after.get current).parent = ret ∧
      (after.get current).name = (heap.get current).name := by
  generalize hung : (heap.modify current fun n =>
    { n with prev := previous, parent := ret, next := none }) = middle at linked
  have keptMiddle : Keeps before middle := hung ▸ kept.modify_fresh fresh _
  have sizeMiddle : middle.size = heap.size := hung ▸ rfl
  have nodeMiddle : (middle.get current).parent = ret ∧
      (middle.get current).name = (heap.get current).name := by
    rw [← hung, Arena.modify_get_same]
    exact ⟨rfl, rfl⟩
  have other : ∀ index (change : XmlNode → XmlNode),
      (∀ n, (change n).type = n.type ∧ (change n).name = n.name ∧ (change n).parent = n.parent) →
      Keeps before (middle.modify index change) ∧ (middle.modify index change).size = heap.size ∧
        ((middle.modify index change).get current).parent = ret ∧
        ((middle.modify index change).get current).name = (heap.get current).name := by
    intro index change same
    refine ⟨keptMiddle.trans (.modify middle index change same), sizeMiddle, ?_⟩
    by_cases here : current = index
    · rw [← here, Arena.modify_get_same, (same _).2.1, (same _).2.2]
      exact nodeMiddle
    · rw [Arena.modify_get_of_ne _ _ here]
      exact nodeMiddle
  simp only [linkNode, hung] at linked
  split at linked
  · exact Except.ok.inj linked ▸ other _ _ fun _ => ⟨rfl, rfl, rfl⟩
  · exact Except.ok.inj linked ▸ other _ _ fun _ => ⟨rfl, rfl, rfl⟩
  · cases linked

theorem elementHeap_keeps (s : Parser) : Keeps s.heap (elementHeap s) := .alloc _ _

theorem textHeap_keeps (s : Parser) (content : Bytes) (flags : Nat) :
    Keeps s.heap (textHeap s content flags) :=
  (Keeps.alloc _ _).modify_fresh (Nat.le_refl _) _

theorem attributeHeap_keeps (s : Parser) (current : NodeId) :
    Keeps s.heap (attributeHeap s current) := by
  simp only [attributeHeap]
  refine Keeps.trans ?_ (.modify _ _ _ ?_)
  · exact (Keeps.alloc _ _).modify_fresh (Nat.le_refl _) _
  · exact fun _ => ⟨rfl, rfl, rfl⟩

/-! ## The open elements -/

/-- A tag is being read. -/
def InTag (state : State) : Prop := state = .insideTag ∨ state = .attrValue

instance : DecidablePred InTag := fun _ => inferInstanceAs (Decidable (_ ∨ _))

theorem text_outside : ¬ InTag .text := by decide

theorem init_outside : ¬ InTag .init := by decide

/-- The innermost open element: in a tag that is the tag's own. -/
def innermost (s : Parser) : Ptr := if InTag s.state then s.current else s.ret

/-- A chain of parents, innermost first. -/
abbrev Ancestry (heap : Heap) : Ptr → List NodeId → Prop :=
  Chain fun i => (heap.get i).parent

/-- `elements` are the open ones, `names` are theirs, and the root encloses them. -/
structure Nested (root : NodeId) (s : Parser) (elements : List NodeId) (names : List Bytes) :
    Prop where
  chain : Ancestry s.heap (innermost s) (elements ++ [root])
  inside : ∀ i ∈ elements, root < i ∧ i < s.heap.size
  named : elements.map (fun i => (s.heap.get i).name) = names.map some
  entry : root < s.heap.size ∧ (s.heap.get root).type = .empty
  tag : InTag s.state → elements ≠ [] ∧
    ∀ current, s.current = some current → s.ret = (s.heap.get current).parent

theorem Nested.start (heap : Heap) (document : Bytes) :
    Nested heap.size (start heap document) [] [] where
  chain := by
    refine .cons heap.size [] ?_
    simp only [Parse.start, xmlNewNode, Arena.alloc_get_same]
    exact .nil
  inside := nofun
  named := rfl
  entry := by
    refine ⟨Nat.lt_succ_self _, ?_⟩
    simp only [Parse.start, xmlNewNode, Arena.alloc_get_same]
  tag := nofun

section Passes

variable {root : NodeId} {s : Parser} {elements : List NodeId} {names : List Bytes}

theorem Nested.old (nested : Nested root s elements names) {i : NodeId}
    (member : i ∈ elements ++ [root]) : i < s.heap.size := by
  rcases List.mem_append.mp member with inner | outer
  · exact (nested.inside i inner).2
  · exact List.mem_singleton.mp outer ▸ nested.entry.1

/-- The chain of the open elements in a memory that has grown. -/
theorem Nested.chain_grow (nested : Nested root s elements names) {heap : Heap}
    (kept : Keeps s.heap heap) : Ancestry heap (innermost s) (elements ++ [root]) :=
  nested.chain.congr fun i member => (kept.same i (nested.old member)).2.2

theorem Nested.named_grow (nested : Nested root s elements names) {heap : Heap}
    (kept : Keeps s.heap heap) :
    elements.map (fun i => (heap.get i).name) = names.map some := by
  rw [← nested.named]
  exact List.map_congr_left fun i member => (kept.same i (nested.inside i member).2).2.1

/-- A pass outside of tags that neither opens nor closes an element. -/
theorem Nested.keep (nested : Nested root s elements names) {s' : Parser}
    (kept : Keeps s.heap s'.heap) (ret : s'.ret = s.ret) (outside : ¬ InTag s.state)
    (outside' : ¬ InTag s'.state) : Nested root s' elements names where
  chain := by
    have chain := nested.chain_grow kept
    simp only [innermost, if_neg outside] at chain
    simp only [innermost, if_neg outside', ret]
    exact chain
  inside := fun i member =>
    ⟨(nested.inside i member).1, Nat.lt_of_lt_of_le (nested.inside i member).2 kept.grows⟩
  named := nested.named_grow kept
  entry := ⟨Nat.lt_of_lt_of_le nested.entry.1 kept.grows,
    (kept.same root nested.entry.1).1.trans nested.entry.2⟩
  tag := fun state => (outside' state).elim

/-- A pass inside a tag that stays there. -/
theorem Nested.keepTag (nested : Nested root s elements names) {s' : Parser}
    (kept : Keeps s.heap s'.heap) (ret : s'.ret = s.ret) (current : s'.current = s.current)
    (inTag : InTag s.state) (inTag' : InTag s'.state) : Nested root s' elements names where
  chain := by
    have chain := nested.chain_grow kept
    simp only [innermost, if_pos inTag] at chain
    simp only [innermost, if_pos inTag', current]
    exact chain
  inside := fun i member =>
    ⟨(nested.inside i member).1, Nat.lt_of_lt_of_le (nested.inside i member).2 kept.grows⟩
  named := nested.named_grow kept
  entry := ⟨Nat.lt_of_lt_of_le nested.entry.1 kept.grows,
    (kept.same root nested.entry.1).1.trans nested.entry.2⟩
  tag := by
    refine fun _ => ⟨(nested.tag inTag).1, fun i here => ?_⟩
    have chain := nested.chain
    simp only [innermost, if_pos inTag, ← current, here] at chain
    cases split : elements ++ [root] with
    | nil => exact (List.append_ne_nil_of_right_ne_nil _ (List.cons_ne_nil _ _) split).elim
    | cons head rest =>
        rw [split] at chain
        cases chain with
        | cons _ _ tail =>
            have old := nested.old (split ▸ List.mem_cons_self)
            rw [ret, (kept.same i old).2.2]
            exact (nested.tag inTag).2 i (current ▸ here)

/-- A state from which the parser goes on, or ends with a node, although the
tags read are not well nested. -/
inductive Slack (root : NodeId) (s : Parser) : Prop where
  | wrongName (more : s.p ≠ []) (state : s.state = .close) (ret : NodeId) (name : Bytes)
      (isOpen : s.ret = some ret) (named : (s.heap.get ret).name = some name)
      (same : nameAt (skipSpaces s.p) <+: name)
      (wrong : ret = root ∨ nameAt (skipSpaces s.p) ≠ name)
  | unquoted (more : s.p ≠ []) (state : s.state = .insideTag) (here : AtAttribute s.p)
      (value : byteAt (behindAttribute s) = '='.toUInt8)
      (bare : isQuote (byteAt (skipSpaces (behindAttribute s).tail)) = false)
  | unclosed (done : s.p = []) (state : s.state ≠ .error) (ret : NodeId)
      (isOpen : s.ret = some ret) (inner : ret ≠ root ∨ InTag s.state)

/-- The names of the open elements after the next pass. -/
def nextNames (names : List Bytes) (s : Parser) : Option (List Bytes) :=
  (tagRead s).toList.foldlM nest names

theorem nextNames_of_none (read : tagRead s = none) : nextNames names s = some names := by
  simp only [nextNames, read]
  rfl

theorem nextNames_of_some (tag : Tag) (read : tagRead s = some tag) :
    nextNames names s = nest names tag := by
  simp only [nextNames, read, Option.toList, List.foldlM]
  cases nest names tag <;> rfl

theorem Nested.openElement (nested : Nested root s elements names) (state : s.state = .openTag)
    {heap : Heap}
    (linked : linkNode (elementHeap s) s.ret s.previous s.heap.size = .ok heap) :
    Nested root
      { s with
        p := behindAttribute s
        c := afterName (skipSpaces s.p)
        current := some s.heap.size
        ret := s.ret.or (some s.heap.size)
        heap := heap
        state := .insideTag }
      (s.heap.size :: elements) (nameAt (skipSpaces s.p) :: names) := by
  rcases linkNode_keeps (elementHeap_keeps s) (Nat.le_refl _) linked with
    ⟨kept, size, parent, name⟩
  have made : (elementHeap s).size = s.heap.size + 1 := rfl
  have called : ((elementHeap s).get s.heap.size).name = some (nameAt (skipSpaces s.p)) := by
    simp only [elementHeap, xmlNewNode, Arena.alloc_get_same]
  have outside : ¬ InTag s.state := by
    rw [state]
    decide
  have chain := nested.chain_grow kept
  simp only [innermost, if_neg outside] at chain
  have isOpen : s.ret ≠ none := by
    intro absent
    rw [absent] at chain
    cases split : elements ++ [root] with
    | nil => exact List.append_ne_nil_of_right_ne_nil _ (List.cons_ne_nil _ _) split
    | cons => rw [split] at chain; cases chain
  refine ⟨?_, ?_, ?_, ?_, ?_⟩
  · refine .cons s.heap.size (elements ++ [root]) ?_
    rw [parent]
    exact chain
  · intro i member
    rcases List.mem_cons.mp member with here | inner
    · rw [here]
      exact ⟨nested.entry.1, Nat.lt_of_lt_of_eq (Nat.lt_succ_self _) (size.trans made).symm⟩
    · exact ⟨(nested.inside i inner).1, Nat.lt_of_lt_of_le (nested.inside i inner).2 kept.grows⟩
  · simp only [List.map_cons, name, called, nested.named_grow kept]
  · exact ⟨Nat.lt_of_lt_of_le nested.entry.1 kept.grows,
      (kept.same root nested.entry.1).1.trans nested.entry.2⟩
  · refine fun _ => ⟨List.cons_ne_nil _ _, fun current same => ?_⟩
    rw [← Option.some.inj same, parent]
    exact Option.or_of_isSome (Option.isSome_iff_ne_none.mpr isOpen)

/-- Between tags the innermost open element is `ret`. -/
theorem Nested.innermost_element (nested : Nested root s elements names)
    (outside : ¬ InTag s.state) {ret : NodeId} (isOpen : s.ret = some ret) (inner : ret ≠ root) :
    Exists fun rest => Exists fun name => Exists fun names' =>
      elements = ret :: rest ∧ names = name :: names' ∧ (s.heap.get ret).name = some name ∧
        Ancestry s.heap (s.heap.get ret).parent (rest ++ [root]) := by
  have chain := nested.chain
  have named := nested.named
  simp only [innermost, if_neg outside, isOpen] at chain
  cases elements with
  | nil =>
      cases chain
      exact (inner rfl).elim
  | cons element rest =>
      cases chain with
      | cons _ _ tail =>
          cases names with
          | nil => cases named
          | cons name names' => exact ⟨rest, name, names', rfl, rfl, (List.cons.inj named).1, tail⟩

/-- When `ret` is the root, no element is open. -/
theorem Nested.names_eq_nil (nested : Nested root s elements names) (outside : ¬ InTag s.state)
    (isOpen : s.ret = some root) : names = [] := by
  have chain := nested.chain
  have named := nested.named
  simp only [innermost, if_neg outside, isOpen] at chain
  cases elements with
  | nil => exact List.map_eq_nil_iff.mp named.symm
  | cons element rest =>
      cases chain
      exact (Nat.lt_irrefl _ (nested.inside root List.mem_cons_self).1).elim

/-- No names are open iff no elements are. -/
theorem Nested.elements_eq_nil (nested : Nested root s elements []) : elements = [] :=
  List.map_eq_nil_iff.mp nested.named

/-- The stack of names does not accept what a slack pass reads. -/
theorem Nested.nextNames_of_slack (nested : Nested root s elements names) (more : s.p ≠ [])
    (slack : Slack root s) : nextNames names s = none := by
  cases slack with
  | wrongName _ state ret name isOpen named same wrong =>
      have outside : ¬ InTag s.state := by
        rw [state]
        decide
      rw [nextNames_of_some (.finish (nameAt (skipSpaces s.p)))
        (by simp only [tagRead, state])]
      by_cases atRoot : ret = root
      · rw [nested.names_eq_nil outside (atRoot ▸ isOpen)]
        rfl
      · rcases nested.innermost_element outside isOpen atRoot with
          ⟨-, top, names', -, rfl, called, -⟩
        have different : some top ≠ some (nameAt (skipSpaces s.p)) := by
          intro equal
          rw [← called, named] at equal
          exact wrong.elim atRoot fun other => other (Option.some.inj equal).symm
        rw [nest, List.head?_cons, if_neg different]
  | unquoted _ state here value bare =>
      rw [nextNames_of_some (.value false)
        (by simp only [tagRead, state, if_neg here.1, if_neg here.2, if_pos value, bare])]
      rfl
  | unclosed done => exact (more done).elim

/-- An end tag with the right name closes the innermost element. -/
theorem Nested.closeElement (nested : Nested root s elements names) (more : s.p ≠ [])
    (state : s.state = .close) {ret : NodeId} {name : Bytes} (q : Bytes)
    (isOpen : s.ret = some ret) (named : (s.heap.get ret).name = some name)
    (same : nameAt (skipSpaces s.p) <+: name) (tight : ¬ Slack root s) :
    Exists fun elements' => Exists fun names' => nextNames names s = some names' ∧
      Nested root
        { s with
          p := q.tail
          c := afterName (skipSpaces s.p)
          previous := some ret
          ret := (s.heap.get ret).parent
          state := .text } elements' names' := by
  have outside : ¬ InTag s.state := by
    rw [state]
    decide
  have right : ¬ (ret = root ∨ nameAt (skipSpaces s.p) ≠ name) :=
    fun wrong => tight (.wrongName more state ret name isOpen named same wrong)
  rw [not_or, not_not] at right
  rcases nested.innermost_element outside isOpen right.1 with
    ⟨rest, top, names', rfl, rfl, called, chain⟩
  have top_eq : top = name := Option.some.inj (called.symm.trans named)
  refine ⟨rest, names', ?_, chain, ?_, (List.cons.inj nested.named).2, nested.entry, nofun⟩
  · rw [nextNames_of_some (.finish (nameAt (skipSpaces s.p)))
      (by simp only [tagRead, state])]
    simp only [nest, List.head?_cons, right.2, top_eq, if_true, List.tail?_cons]
  · exact fun i member => nested.inside i (List.mem_cons_of_mem _ member)

/-- One pass that is not slack rejects the document, or the names follow the tag. -/
theorem Nested.passed (nested : Nested root s elements names) (more : s.p ≠ [])
    (tight : ¬ Slack root s) {s' : Parser} (step : Passed s s') :
    s'.state = .error ∨
      Exists fun elements' => Exists fun names' => nextNames names s = some names' ∧
        Nested root s' elements' names' := by
  have quiet : tagRead s = none → Nested root s' elements names →
      Exists fun elements' => Exists fun names' => nextNames names s = some names' ∧
        Nested root s' elements' names' :=
    fun read kept => ⟨elements, names, nextNames_of_none read, kept⟩
  cases step with
  | closeMismatch => exact .inl rfl
  | closeMatch state ret name q isOpen named same =>
      exact .inr (nested.closeElement more state q isOpen named same tight)
  | openElement state here heap linked =>
      have read : tagRead s = some (.start (nameAt (skipSpaces s.p))) := by
        simp only [tagRead, state, if_pos here]
      exact .inr ⟨_, _, nextNames_of_some _ read, nested.openElement state linked⟩
  | init state =>
      refine .inr (quiet (by simp only [tagRead, state]) ?_)
      refine nested.keep (.refl _) rfl (by rw [state]; decide) ?_
      simp only [passInit]
      split <;> decide
  | comment state =>
      refine .inr (quiet (by simp only [tagRead, state]) ?_)
      have links := passComment_links s
      refine nested.keep (links.2.2 ▸ .refl _) links.1 (by rw [state]; decide) ?_
      rcases passComment_state s with new | new | new <;> rw [new]
      · decide
      · decide
      · rw [state]
        decide
  | xmldecl state | doctype state | emptyCdata state | noText state | body state =>
      refine .inr (quiet (by simp only [tagRead, state]) ?_)
      exact nested.keep (.refl _) rfl (by rw [state]; decide) (by simp [InTag, state])
  | openDecl state here | openClose state here =>
      have noElement : ¬ AtElement s.p := by simp [AtElement, here]
      refine .inr (quiet (by simp only [tagRead, state, if_neg noElement]) ?_)
      exact nested.keep (.refl _) rfl (by rw [state]; decide) (by simp [InTag])
  | openComment state here | openCdata state here | openDoctype state here =>
      have mark : byteAt s.p = '!'.toUInt8 := by
        rcases here with ⟨rest, split⟩
        rw [← split]
        rfl
      have noElement : ¬ AtElement s.p := fun element => element.2.1 mark
      refine .inr (quiet (by simp only [tagRead, state, if_neg noElement]) ?_)
      exact nested.keep (.refl _) rfl (by rw [state]; decide) (by simp [InTag])
  | cdata state heap content closed linked =>
      refine .inr (quiet (by simp only [tagRead, state]) ?_)
      have kept := (linkNode_keeps (textHeap_keeps s _ _) (Nat.le_refl _) linked).1
      exact nested.keep kept rfl (by rw [state]; decide) (by simp [InTag])
  | text state content heap run unescaped linked =>
      refine .inr (quiet (by simp only [tagRead, state]) ?_)
      have kept := (linkNode_keeps (textHeap_keeps s _ _) (Nat.le_refl _) linked).1
      exact nested.keep kept rfl (by rw [state]; decide) (by simp [InTag])
  | value state rest content attr =>
      refine .inr (quiet (by simp only [tagRead, state]) ?_)
      have kept : Keeps s.heap (s.heap.modify attr fun n => { n with content := some content }) :=
        .modify _ _ _ fun _ => ⟨rfl, rfl, rfl⟩
      exact nested.keepTag kept rfl rfl (.inr state) (.inl rfl)
  | bareValue state =>
      refine .inr (quiet (by simp only [tagRead, state]) ?_)
      exact nested.keepTag (.refl _) rfl rfl (.inr state) (.inl rfl)
  | bareAttribute state here current inTag bare =>
      refine .inr (quiet ?_ ?_)
      · simp only [tagRead, state, if_neg here.1, if_neg here.2, if_neg bare]
      · exact nested.keepTag (attributeHeap_keeps s current) rfl rfl (.inl state) (.inl state)
  | valuedAttribute state here current inTag value =>
      have read : nextNames names s =
          nest names (.value (isQuote (byteAt (skipSpaces (behindAttribute s).tail)))) :=
        nextNames_of_some _
          (by simp only [tagRead, state, if_neg here.1, if_neg here.2, if_pos value])
      cases quoted : isQuote (byteAt (skipSpaces (behindAttribute s).tail)) with
      | false => exact (tight (.unquoted more state here value quoted)).elim
      | true =>
          refine .inr ⟨elements, names, ?_, ?_⟩
          · rw [read, quoted]
            rfl
          · exact nested.keepTag (attributeHeap_keeps s current) rfl rfl (.inl state) (.inr rfl)
  | tagEnd state here =>
      refine .inr (quiet (by simp only [tagRead, state, if_pos here]) ?_)
      have inTag : InTag s.state := .inl state
      have chain := nested.chain
      simp only [innermost, if_pos inTag] at chain
      exact ⟨chain, nested.inside, nested.named, nested.entry, fun inTag => absurd inTag text_outside⟩
  | tagSelfClose state here =>
      have slash : byteAt s.p = '/'.toUInt8 := by
        rcases here with ⟨rest, split⟩
        rw [← split]
        rfl
      have notEnd : byteAt s.p ≠ '>'.toUInt8 := by
        rw [slash]
        decide
      have read : tagRead s = some .selfClose := by
        simp only [tagRead, state, if_neg notEnd, if_pos here]
      have inTag : InTag s.state := .inl state
      have chain := nested.chain
      simp only [innermost, if_pos inTag] at chain
      cases elements with
      | nil => exact ((nested.tag inTag).1 rfl).elim
      | cons element elements =>
          cases names with
          | nil => cases nested.named
          | cons name names =>
              generalize here : s.current = current at chain
              cases chain with
              | cons _ _ tail =>
                  have ret := (nested.tag inTag).2 element here
                  refine .inr ⟨elements, names, nextNames_of_some _ read, ?_⟩
                  refine ⟨?_, ?_, (List.cons.inj nested.named).2, nested.entry,
                    fun inTag => absurd inTag text_outside⟩
                  · simp only [innermost]
                    exact ret ▸ tail
                  · exact fun i member => nested.inside i (List.mem_cons_of_mem _ member)

end Passes

/-! ## Whole runs -/

/-- The run from the start to `s` has read `tags`. -/
abbrev Reads (heap : Heap) (document : Bytes) (tags : List Tag) (s : Parser) : Prop :=
  Traces pass tagRead (start heap document) tags s

theorem not_error_of_steps {s s' : Parser} (step : Steps pass s s') : s.state ≠ .error := by
  intro failed
  simp only [Steps, pass, failed, if_true] at step
  cases step

section Runs

variable {heap : Heap} {document : Bytes} {tags : List Tag} {s : Parser}

/-- As long as the stack of names accepts the tags, it agrees with the parser. -/
theorem Reads.nested (read : Reads heap document tags s) {names : List Bytes}
    (accepted : tags.foldlM nest [] = some names) :
    s.state = .error ∨ Exists fun elements => Nested heap.size s elements names := by
  induction read generalizing names with
  | refl =>
      have noNames : [] = names := Option.some.inj accepted
      exact .inr ⟨[], noNames ▸ .start heap document⟩
  | tail earlier step inductionHypothesis =>
      rename_i events before after
      rw [List.foldlM_append] at accepted
      rcases Option.bind_eq_some_iff.mp accepted with ⟨namesBefore, acceptedBefore, next⟩
      rcases inductionHypothesis acceptedBefore with failed | ⟨elements, nested⟩
      · exact (not_error_of_steps step failed).elim
      · have more := more_of_steps step
        have tight : ¬ Slack heap.size before :=
          fun slack => nomatch (nested.nextNames_of_slack more slack).symm.trans next
        rcases nested.passed more tight (.of_pass step) with
          failed | ⟨elements', names', read, nested'⟩
        · exact .inl failed
        · exact .inr ⟨elements', Option.some.inj (read.symm.trans next) ▸ nested'⟩

/-- A run without slack reads tags that the stack accepts. -/
theorem Reads.accepted (read : Reads heap document tags s)
    (tight : ∀ s, Reachable heap document s → ¬ Slack heap.size s) :
    s.state = .error ∨ Exists fun names => tags.foldlM nest [] = some names := by
  induction read with
  | refl => exact .inr ⟨[], rfl⟩
  | tail earlier step inductionHypothesis =>
      rcases inductionHypothesis with failed | ⟨names, accepted⟩
      · exact (not_error_of_steps step failed).elim
      · rcases Reads.nested earlier accepted with failed | ⟨elements, nested⟩
        · exact (not_error_of_steps step failed).elim
        · rcases nested.passed (more_of_steps step) (tight _ (Traces.reaches earlier))
            (.of_pass step) with failed | ⟨elements', names', next, -⟩
          · exact .inl failed
          · refine .inr ⟨names', ?_⟩
            rw [List.foldlM_append, accepted]
            exact next

/-- The tags before a slack pass and what it reads are not accepted together. -/
theorem Reads.not_accepted (read : Reads heap document tags s) (slack : Slack heap.size s)
    {s' : Parser} (step : Steps pass s s') :
    (tags ++ (tagRead s).toList).foldlM nest [] = none := by
  rw [List.foldlM_append]
  cases accepted : tags.foldlM nest [] with
  | none => rfl
  | some names =>
      rcases Reads.nested read accepted with failed | ⟨elements, nested⟩
      · exact (not_error_of_steps step failed).elim
      · exact nested.nextNames_of_slack (more_of_steps step) slack

end Runs

/-! ## Acceptance -/

/-- Whenever the parser returns a node, it is the root made on entry, and the
tags it read are well nested. -/
def AcceptsSoundly (heap : Heap) (document : Bytes) : Prop :=
  (Exists fun node => Exists fun after => DoParse heap document node after) ∧
    ∀ last tags node after, Reads heap document tags last →
      pass last = .error (.returned (some node) after) →
        node = heap.size ∧ (after.get node).type = .empty ∧ WellNested tags

/-- The document is given up: NULL is going to be returned. -/
inductive Rejects (s : Parser) : Prop where
  | mismatch (more : s.p ≠ []) (state : s.state = .close) (ret : NodeId) (name : Bytes)
      (isOpen : s.ret = some ret) (named : (s.heap.get ret).name = some name)
      (different : ¬ nameAt (skipSpaces s.p) <+: name)
  | unknown (more : s.p ≠ []) (markup : UnknownMarkup s)
  | noRoot (done : s.p = []) (state : s.state ≠ .error) (closed : s.ret = none)

theorem pass_of_unknown {s : Parser} (more : s.p ≠ []) (markup : UnknownMarkup s) :
    pass s = .error (.returned none s.heap) := by
  rcases markup with ⟨state, mark, notComment, notCdata, notDoctype⟩
  have notDecl : byteAt s.p ≠ '?'.toUInt8 := by
    rw [mark]
    decide
  simp only [pass, state, reduceCtorEq, if_false, if_neg more, passOpen, if_neg notDecl,
    List.isPrefixOf_iff_prefix, if_neg notComment, if_neg notCdata, if_neg notDoctype, if_pos mark]

theorem pass_of_done {s : Parser} (done : s.p = []) (state : s.state ≠ .error) :
    pass s = .error (.returned s.ret s.heap) := by
  simp only [pass, if_neg state, if_pos done]

theorem Rejects.returns_null {s : Parser} (rejects : Rejects s) :
    Exists fun after => Returns pass s (.returned none after) := by
  cases rejects with
  | mismatch more state ret name isOpen named different =>
      have step : Steps pass s
          { s with p := nameAt (skipSpaces s.p), c := [], state := .error } := by
        simp only [Steps, pass, state, reduceCtorEq, if_false, if_neg more, passClose, isOpen,
          named, memcmpEqual, List.isPrefixOf_iff_prefix, if_neg different]
      exact ⟨s.heap, (step.returns_iff _).mpr (.of_stop rfl)⟩
  | unknown more markup => exact ⟨s.heap, .of_stop (pass_of_unknown more markup)⟩
  | noRoot done state closed => exact ⟨s.heap, .of_stop (closed ▸ pass_of_done done state)⟩

/-- `ERROR` is only ever entered at a mismatched end tag. -/
theorem rejects_of_error {heap : Heap} {document : Bytes} {s : Parser}
    (reached : Reachable heap document s) (state : s.state = .error) :
    Exists fun before => Reachable heap document before ∧ Rejects before := by
  cases reached with
  | refl => cases state
  | tail earlier step =>
      rename_i before
      have notError := not_error_of_steps step
      have more := more_of_steps step
      have inversion := Passed.of_pass step
      cases inversion with
      | closeMismatch close ret name isOpen named different =>
          exact ⟨before, earlier, .mismatch more close ret name isOpen named different⟩
      | init =>
          simp only [passInit] at state
          split at state <;> cases state
      | comment comment =>
          rcases passComment_state before with new | new | new <;> rw [new] at state
          · cases state
          · cases state
          · exact (notError state).elim
      | bareAttribute => exact (notError state).elim
      | body => exact (notError state).elim
      | _ => cases state

/-- A run that returns NULL was given up somewhere. -/
theorem rejects_of_returns_null {heap after : Heap} {document : Bytes}
    (returned : DoParse heap document none after) :
    Exists fun s => Reachable heap document s ∧ Rejects s := by
  rcases returns_iff_reaches_stop.mp returned with ⟨last, reached, stopped⟩
  have inversion := Stopped.of_pass (Reachable.wired reached) stopped
  generalize result : Stop.returned none after = stop at inversion
  cases inversion with
  | overrun | orphan => cases result
  | mismatch state => exact rejects_of_error reached state
  | unknown more markup => exact ⟨last, reached, .unknown more markup⟩
  | ended state done =>
      exact ⟨last, reached, .noRoot done state (Stop.returned.inj result).1.symm⟩

/-- A node is only returned at the end of the document. -/
theorem Stopped.returns_node {s : Parser} {node : NodeId} {after : Heap}
    (stopped : Stopped s (.returned (some node) after)) :
    s.state ≠ .error ∧ s.p = [] ∧ s.ret = some node ∧ s.heap = after := by
  generalize result : Stop.returned (some node) after = stop at stopped
  cases stopped with
  | overrun | orphan | mismatch | unknown => cases result
  | ended state done =>
      rcases Stop.returned.inj result with ⟨isOpen, same⟩
      exact ⟨state, done, isOpen.symm, same.symm⟩

/-- Where a run shows no slack, the returned node is the root, and all tags
are accepted. -/
theorem sound_of_tight {heap : Heap} {document : Bytes} {last : Parser} {tags : List Tag}
    {node : NodeId} {after : Heap} (read : Reads heap document tags last)
    (stopped : pass last = .error (.returned (some node) after))
    (tight : ∀ s, Reachable heap document s → ¬ Slack heap.size s) :
    node = heap.size ∧ (after.get node).type = .empty ∧ WellNested tags := by
  have reached := Traces.reaches read
  rcases (Stopped.of_pass (Reachable.wired reached) stopped).returns_node with
    ⟨state, done, isOpen, rfl⟩
  have fits : ¬ (node ≠ heap.size ∨ InTag last.state) := fun inner =>
    tight last reached (.unclosed done state node isOpen inner)
  rw [not_or, not_not] at fits
  rcases Reads.accepted read tight with failed | ⟨names, accepted⟩
  · exact (state failed).elim
  · rcases Reads.nested read accepted with failed | ⟨elements, nested⟩
    · exact (state failed).elim
    · refine ⟨fits.1, fits.1 ▸ nested.entry.2, ?_⟩
      rw [WellNested, accepted, nested.names_eq_nil fits.2 (fits.1 ▸ isOpen)]

/-- The other way round, a run that returns the root with all tags accepted
showed no slack. -/
theorem tight_of_sound {heap : Heap} {document : Bytes} {node : NodeId} {after : Heap}
    (sound : AcceptsSoundly heap document) (returned : DoParse heap document (some node) after)
    {s : Parser} (reached : Reachable heap document s) : ¬ Slack heap.size s := by
  intro slack
  have later := (reached.returns_iff _).mp returned
  rcases returns_iff_reaches_stop.mp later with ⟨last, onward, stopped⟩
  rcases Reaches.traces tagRead reached with ⟨tags, read⟩
  rcases Relation.ReflTransGen.cases_head onward with here | ⟨next, step, onward⟩
  · subst here
    have soundHere := sound.2 s tags node after read stopped
    rcases (Stopped.of_pass (Reachable.wired reached) stopped).returns_node with
      ⟨state, done, isOpen, rfl⟩
    cases slack with
    | wrongName more | unquoted more => exact more done
    | unclosed _ _ ret open_ inner =>
        have same : ret = heap.size := (Option.some.inj (open_.symm.trans isOpen)).trans soundHere.1
        rcases Reads.nested read soundHere.2.2 with failed | ⟨elements, nested⟩
        · exact state failed
        · exact inner.elim (fun other => other same)
            fun inTag => (nested.tag inTag).1 nested.elements_eq_nil
  · rcases Traces.extend (read.tail step) onward with ⟨more, whole⟩
    have soundLast := (sound.2 last _ node after whole stopped).2.2
    rw [WellNested, List.foldlM_append, Reads.not_accepted read slack step] at soundLast
    cases soundLast

end Parse
end TurboXSL
