import TurboXSL.Numbering
import TurboXSL.TransformationRuns

namespace TurboXSL

open Library Parse

/-!
# Documents that are loaded

`xml_parse_string` builds its nodes behind those there are, links them among
themselves and writes to no other node, whether it returns a document or NULL.
So it is a loader as the evaluator needs it, and whatever is loaded one after
the other makes up documents that transformations keep.
-/

/-! ## Nodes that are linked among themselves -/

/-- A node made since `before`. -/
def MadeSince (before heap : Heap) (n : NodeId) : Prop := before.size ≤ n ∧ n < heap.size

/-- The links lead to nodes of a kind, and attributes have no children. -/
structure XmlNode.Inward (cell : XmlNode) (inside : NodeId → Prop) : Prop where
  next : ∀ m, cell.next = some m → inside m
  attributes : ∀ m, cell.attributes = some m → inside m
  parent : ∀ m, cell.parent = some m → inside m
  children : ∀ m, cell.children = some m → inside m ∧ cell.type ≠ .attribute

theorem XmlNode.Inward.mono {cell : XmlNode} {inside wider : NodeId → Prop}
    (inward : cell.Inward inside) (wide : ∀ n, inside n → wider n) : cell.Inward wider where
  next := fun m link => wide m (inward.next m link)
  attributes := fun m link => wide m (inward.attributes m link)
  parent := fun m link => wide m (inward.parent m link)
  children := fun m link => ⟨wide m (inward.children m link).1, (inward.children m link).2⟩

/-- All that happened since `before` happened to new nodes. -/
structure Confines (before heap : Heap) : Prop where
  grows : before.size ≤ heap.size
  same : ∀ n, n < before.size ∨ heap.size ≤ n → heap.get n = before.get n
  cells : ∀ n, MadeSince before heap n → (heap.get n).Inward (MadeSince before heap)

section Changes

variable {before heap after : Heap}

theorem Confines.refl (heap : Heap) : Confines heap heap where
  grows := Nat.le_refl _
  same := fun _ _ => rfl
  cells := fun _ new => absurd new.2 (Nat.not_lt.mpr new.1)

variable (confines : Confines before heap)

include confines

theorem Confines.newNode (name : Option Bytes) (type : NodeType) :
    Confines before (xmlNewNode heap name type).1 where
  grows := Nat.le_succ_of_le confines.grows
  same := by
    intro n outside
    have other : n ≠ heap.size := by
      rintro rfl
      rcases outside with old | beyond
      · exact absurd confines.grows (Nat.not_le.mpr old)
      · exact Nat.not_succ_le_self _ beyond
    refine (heap.alloc_get_of_ne _ other).trans (confines.same n (outside.imp_right ?_))
    exact Nat.le_of_succ_le
  cells := by
    intro n new
    by_cases fresh : n = heap.size
    · have bare : (xmlNewNode heap name type).1.get n =
          { type := type, name := name, uid := some heap.size } := by
        rw [fresh]
        exact heap.alloc_get_same _
      rw [bare]
      constructor <;> rintro m ⟨⟩
    · have small := Nat.lt_of_le_of_ne (Nat.le_of_lt_succ new.2) fresh
      have kept : (xmlNewNode heap name type).1.get n = heap.get n := heap.alloc_get_of_ne _ fresh
      rw [kept]
      exact (confines.cells n ⟨new.1, small⟩).mono fun m here =>
        ⟨here.1, Nat.lt_succ_of_lt here.2⟩

theorem Confines.modify {node : NodeId} (new : MadeSince before heap node)
    {change : XmlNode → XmlNode}
    (inward : (heap.get node).Inward (MadeSince before heap) →
      (change (heap.get node)).Inward (MadeSince before heap)) :
    Confines before (heap.modify node change) where
  grows := confines.grows
  same := by
    intro n outside
    rw [heap.modify_get_of_ne]
    · exact confines.same n outside
    · rintro rfl
      rcases outside with old | beyond
      · exact absurd new.1 (Nat.not_le.mpr old)
      · exact absurd new.2 (Nat.not_lt.mpr beyond)
  cells := by
    intro n here
    by_cases at_ : n = node
    · rw [at_, heap.modify_get_same]
      exact inward (confines.cells node new)
    · rw [heap.modify_get_of_ne change at_]
      exact confines.cells n here

/-- Nothing but links decides whether a node is linked to new nodes. -/
theorem Confines.fill {node : NodeId} (new : MadeSince before heap node)
    {change : XmlNode → XmlNode}
    (same : ∀ cell, (change cell).type = cell.type ∧ (change cell).next = cell.next ∧
      (change cell).attributes = cell.attributes ∧ (change cell).parent = cell.parent ∧
      (change cell).children = cell.children) :
    Confines before (heap.modify node change) := by
  refine confines.modify new fun inward => ?_
  rcases same (heap.get node) with ⟨type, next, attributes, parent, children⟩
  constructor
  · exact next ▸ inward.next
  · exact attributes ▸ inward.attributes
  · exact parent ▸ inward.parent
  · rw [children, type]
    exact inward.children

theorem Confines.linkNode {ret previous : Ptr} {current : NodeId}
    (linked : linkNode heap ret previous current = .ok after)
    (new : MadeSince before heap current)
    (owner : ∀ r, ret = some r → MadeSince before heap r ∧ (heap.get r).type ≠ .attribute)
    (behind : ∀ p, previous = some p → MadeSince before heap p) : Confines before after := by
  have placed : Confines before (heap.modify current fun n =>
      { n with prev := previous, parent := ret, next := none }) := by
    refine confines.modify new fun inward => ⟨?_, inward.attributes, ?_, inward.children⟩
    · rintro m ⟨⟩
    · exact fun m here => (owner m here).1
  unfold Parse.linkNode at linked
  cases previous with
  | some sibling =>
      cases linked
      refine placed.modify (behind sibling rfl) fun inward =>
        ⟨?_, inward.attributes, inward.parent, inward.children⟩
      rintro m ⟨⟩
      exact new
  | none =>
      cases ret with
      | none => cases linked
      | some parent =>
          cases linked
          have here := owner parent rfl
          refine placed.modify here.1 fun inward =>
            ⟨inward.next, inward.attributes, inward.parent, ?_⟩
          rintro m ⟨⟩
          refine ⟨new, ?_⟩
          dsimp only
          by_cases self : parent = current
          · rw [self, heap.modify_get_same]
            exact self ▸ here.2
          · rw [heap.modify_get_of_ne _ self]
            exact here.2

end Changes

/-! ## The parser -/

/-- The parser has written to new nodes only, and holds pointers to them. -/
structure Private (before : Heap) (s : Parse.Parser) : Prop where
  confines : Confines before s.heap
  ret : ∀ n, s.ret = some n → MadeSince before s.heap n
  current : ∀ n, s.current = some n → MadeSince before s.heap n
  attr : ∀ n, s.attr = some n → MadeSince before s.heap n
  previous : ∀ n, s.previous = some n → MadeSince before s.heap n

section Passes

variable {before : Heap} {s s' : Parse.Parser} (private_ : Private before s)

theorem Private.start (heap : Heap) (document : Bytes) : Private heap (start heap document) where
  confines := (Confines.refl heap).newNode _ _
  ret := by
    rintro n ⟨⟩
    exact ⟨Nat.le_refl _, Nat.lt_succ_self _⟩
  current := by rintro n ⟨⟩
  attr := by rintro n ⟨⟩
  previous := by rintro n ⟨⟩

include private_

/-- The memory stays, and so do the pointers but for one that is new. -/
theorem Private.keep (heap : s'.heap = s.heap)
    (ret : ∀ n, s'.ret = some n → s.ret = some n ∨ MadeSince before s.heap n)
    (current : ∀ n, s'.current = some n → s.current = some n)
    (attr : s'.attr = s.attr)
    (previous : ∀ n, s'.previous = some n → s.previous = some n ∨ MadeSince before s.heap n) :
    Private before s' := by
  constructor
  · exact heap ▸ private_.confines
  · intro n here
    rw [heap]
    exact (ret n here).elim (private_.ret n) id
  · intro n here
    rw [heap]
    exact private_.current n (current n here)
  · intro n here
    rw [heap]
    exact private_.attr n (attr ▸ here)
  · intro n here
    rw [heap]
    exact (previous n here).elim (private_.previous n) id

/-- A node is made and linked. -/
theorem Private.hang (owner : ∀ r, s.ret = some r → (s.heap.get r).type ≠ .attribute)
    {made heap : Heap} (size : made.size = s.heap.size + 1)
    (old : ∀ n, n ≠ s.heap.size → made.get n = s.heap.get n) (confines : Confines before made)
    (linked : linkNode made s.ret s.previous s.heap.size = .ok heap) :
    Confines before heap ∧ heap.size = s.heap.size + 1 := by
  have wider : ∀ n, MadeSince before s.heap n → MadeSince before made n := fun n new =>
    ⟨new.1, size ▸ Nat.lt_succ_of_lt new.2⟩
  have new : MadeSince before made s.heap.size :=
    ⟨private_.confines.grows, size ▸ Nat.lt_succ_self _⟩
  constructor
  · refine confines.linkNode linked new (fun r open_ => ?_) fun p behind => ?_
    · have there := private_.ret r open_
      refine ⟨wider r there, ?_⟩
      rw [old r (Nat.ne_of_lt there.2)]
      exact owner r open_
    · exact wider p (private_.previous p behind)
  · unfold Parse.linkNode at linked
    split at linked
    · cases linked
      exact size
    · cases linked
      exact size
    · cases linked

theorem Private.passed (woven : Woven before.size s) (step : Passed s s') : Private before s' := by
  have owner : ∀ r, s.ret = some r → (s.heap.get r).type ≠ .attribute := fun r open_ =>
    (woven.owner open_).1.2.2
  have wider : ∀ {heap : Heap}, heap.size = s.heap.size + 1 → ∀ n, MadeSince before s.heap n →
      MadeSince before heap n := fun size n new => ⟨new.1, size ▸ Nat.lt_succ_of_lt new.2⟩
  have fresh : ∀ {heap : Heap}, heap.size = s.heap.size + 1 → MadeSince before heap s.heap.size :=
    fun size => ⟨private_.confines.grows, size ▸ Nat.lt_succ_self _⟩
  have text : ∀ content flags heap,
      linkNode (textHeap s content flags) s.ret s.previous s.heap.size = .ok heap →
      Confines before heap ∧ heap.size = s.heap.size + 1 := by
    intro content flags heap linked
    refine private_.hang owner rfl (fun n other => ?_) ?_ linked
    · exact (Arena.modify_get_of_ne _ _ other).trans (s.heap.alloc_get_of_ne _ other)
    · refine (private_.confines.newNode none .text).fill ⟨private_.confines.grows, ?_⟩ ?_
      · exact Nat.lt_succ_self _
      · exact fun _ => ⟨rfl, rfl, rfl, rfl, rfl⟩
  have attribute_ : ∀ current, s.current = some current →
      Confines before (attributeHeap s current) := by
    intro current inTag
    have here := private_.current current inTag
    have made := private_.confines.newNode (some (Parse.nameAt (skipSpaces s.p))) .attribute
    have kept : (xmlNewNode s.heap (some (Parse.nameAt (skipSpaces s.p))) .attribute).1.get current =
        s.heap.get current := s.heap.alloc_get_of_lt _ here.2
    have cells := private_.confines.cells current here
    have linked : Confines before ((xmlNewNode s.heap (some (Parse.nameAt (skipSpaces s.p)))
        .attribute).1.modify s.heap.size fun n =>
          { n with next := (s.heap.get current).attributes, parent := some current }) := by
      refine made.modify (fresh rfl) fun inward => ⟨?_, inward.attributes, ?_, inward.children⟩
      · exact fun m link => wider rfl m (cells.attributes m link)
      · rintro m ⟨⟩
        exact wider rfl current here
    unfold attributeHeap
    dsimp only
    rw [kept]
    refine linked.modify (wider rfl current here) fun inward =>
      ⟨inward.next, ?_, inward.parent, inward.children⟩
    rintro m ⟨⟩
    exact fresh rfl
  cases step with
  | init state | xmldecl state | openDecl state | openComment state | openCdata state
  | openDoctype state | openClose state | emptyCdata state | doctype state | noText state
  | closeMismatch state | bareValue state | body state =>
      exact private_.keep rfl (fun n => .inl) (fun n => id) rfl fun n => .inl
  | comment state =>
      have links := passComment_links s
      have others : (passComment s).current = s.current ∧ (passComment s).attr = s.attr := by
        simp only [passComment]
        split <;> exact ⟨rfl, rfl⟩
      refine private_.keep links.2.2 ?_ ?_ others.2 ?_
      · rw [links.1]
        exact fun n => .inl
      · rw [others.1]
        exact fun n => id
      · rw [links.2.1]
        exact fun n => .inl
  | openElement state here heap linked =>
      have made := private_.hang owner rfl (fun n other => s.heap.alloc_get_of_ne _ other)
        (private_.confines.newNode _ .element) linked
      have same : MadeSince before heap s.heap.size := fresh made.2
      constructor
      · exact made.1
      · intro n open_
        change s.ret.or (some s.heap.size) = some n at open_
        cases ret : s.ret with
        | none =>
            rw [ret] at open_
            cases open_
            exact same
        | some r =>
            rw [ret] at open_
            cases open_
            exact wider made.2 _ (private_.ret _ ret)
      · rintro n ⟨⟩
        exact same
      · exact fun n here => wider made.2 n (private_.attr n here)
      · exact fun n here => wider made.2 n (private_.previous n here)
  | closeMatch state ret name q isOpen =>
      have inside := private_.ret ret isOpen
      refine private_.keep rfl (fun n parent => .inr ?_) (fun n => id) rfl fun n here => .inr ?_
      · exact (private_.confines.cells ret inside).parent n parent
      · cases here
        exact inside
  | tagEnd state =>
      refine private_.keep rfl (fun n here => .inr (private_.current n here)) ?_ rfl ?_
      · rintro n ⟨⟩
      · rintro n ⟨⟩
  | tagSelfClose state =>
      exact private_.keep rfl (fun n => .inl) (fun n => id) rfl fun n here =>
        .inr (private_.current n here)
  | valuedAttribute state here current inTag | bareAttribute state here current inTag =>
      constructor
      · exact attribute_ current inTag
      · exact fun n there => wider rfl n (private_.ret n there)
      · exact fun n there => wider rfl n (private_.current n there)
      · rintro n ⟨⟩
        exact fresh rfl
      · exact fun n there => wider rfl n (private_.previous n there)
  | cdata state heap content closed linked =>
      have made := text _ _ heap linked
      constructor
      · exact made.1
      · exact fun n there => wider made.2 n (private_.ret n there)
      · rintro n ⟨⟩
        exact fresh made.2
      · exact fun n there => wider made.2 n (private_.attr n there)
      · rintro n ⟨⟩
        exact fresh made.2
  | text state content heap run unescaped linked =>
      have made := text _ _ heap linked
      constructor
      · exact made.1
      · exact fun n there => wider made.2 n (private_.ret n there)
      · rintro n ⟨⟩
        exact fresh made.2
      · exact fun n there => wider made.2 n (private_.attr n there)
      · rintro n ⟨⟩
        exact fresh made.2
  | value state rest content attr quoted found unescaped inAttr =>
      constructor
      · change Confines before (s.heap.modify attr fun n => { n with content := some content })
        exact private_.confines.fill (private_.attr attr inAttr) fun _ =>
          ⟨rfl, rfl, rfl, rfl, rfl⟩
      · exact private_.ret
      · exact private_.current
      · exact private_.attr
      · exact private_.previous

end Passes

/-- The state in which the loop ends. -/
theorem DoParse.ended {heap after : Heap} {document : Bytes} {node : Ptr}
    (parsed : DoParse heap document node after) : Exists fun last : Parse.Parser =>
      last.heap = after ∧ Woven heap.size last ∧ Private heap last := by
  rcases returns_iff_reaches_stop.mp parsed with ⟨last, reached, stopped⟩
  have keep : ∀ before later : Parse.Parser,
      Woven heap.size before ∧ Wired before ∧ Private heap before → Steps pass before later →
      Woven heap.size later ∧ Wired later ∧ Private heap later := by
    intro before later all step
    have passed := Passed.of_pass step
    exact ⟨all.1.passed all.2.1 passed, all.2.1.passed passed, all.2.2.passed all.1 passed⟩
  have found := reached.preserves keep
    ⟨.start heap document, .start heap document, .start heap document⟩
  have inversion := Stopped.of_pass found.2.1 stopped
  generalize result : Stop.returned node after = stop at inversion
  cases inversion with
  | overrun | orphan => cases result
  | mismatch | unknown | ended =>
      cases result
      exact ⟨last, rfl, found.1, found.2.2⟩

/-! ## Numbering -/

/-- The numbers are written into new nodes too. -/
theorem renumberChildren_confines {before : Heap} {fuel : Nat} :
    ∀ {heap after : Heap} {p : Ptr} {pos : Nat}, Confines before heap →
      (∀ n, p = some n → MadeSince before heap n) →
      renumberChildren fuel heap p pos = some after →
      Confines before after ∧ after.size = heap.size := by
  induction fuel with
  | zero =>
      intro heap after p pos confines new walk
      cases p with
      | none =>
          cases walk
          exact ⟨confines, rfl⟩
      | some node => cases walk
  | succ fuel inductionHypothesis =>
      intro heap after p pos confines new walk
      cases p with
      | none =>
          cases walk
          exact ⟨confines, rfl⟩
      | some node =>
          have here := new node rfl
          unfold renumberChildren at walk
          split at walk
          · exact inductionHypothesis confines (confines.cells node here).next walk
          · have numbered : Confines before (heap.modify node fun cell =>
                { cell with position := pos }) :=
              confines.fill here fun _ => ⟨rfl, rfl, rfl, rfl, rfl⟩
            rcases Option.bind_eq_some_iff.mp walk with ⟨below, first, second⟩
            have inner := inductionHypothesis numbered
              (fun n link => ((numbered.cells node here).children n link).1) first
            have here' : MadeSince before below node := ⟨here.1, inner.2 ▸ here.2⟩
            have outer := inductionHypothesis inner.1 (inner.1.cells node here').next second
            exact ⟨outer.1, outer.2.trans inner.2⟩

theorem XmlParseString.confines {heap after : Heap} {string : Bytes} {node : NodeId}
    (parsed : XmlParseString heap string node after) : Confines heap after := by
  rcases parsed with ⟨_, middle, done, walk⟩
  have root := (DoParse.linked done).2
  rcases DoParse.ended done with ⟨last, rfl, _, private_⟩
  refine (renumberChildren_confines private_.confines ?_ walk).1
  rintro n ⟨⟩
  exact ⟨root.1, root.2.1⟩

/-! ## The loader -/

/-- `xml_parse_string` on a string without NULs, in at most `fuel` turns of the
loop: the memory and the document, or NULL. -/
def parseString (fuel : Nat) (heap : Heap) (string : Bytes) : Option (Heap × Ptr) :=
  if string = [] then some (heap, none)
  else
    match run pass fuel (start heap string) with
    | some (.returned (some node) parsed) =>
        (renumberChildren parsed.size parsed (some node) 1).map fun after => (after, some node)
    | some (.returned none parsed) => some (parsed, none)
    | _ => none

theorem doParse_of_run {fuel : Nat} {heap after : Heap} {string : Bytes} {node : Ptr}
    (ran : run pass fuel (start heap string) = some (.returned node after)) :
    DoParse heap string node after :=
  ⟨fuel, ran⟩

/-- A document, or NULL; in either case all that was made is well linked. -/
theorem parseString_cases {fuel : Nat} {heap after : Heap} {string : Bytes} {root : Ptr}
    (loaded : parseString fuel heap string = some (after, root)) :
    Confines heap after ∧ Linked after (Made heap.size after) ∧
      ∀ node, root = some node → XmlParseString heap string node after := by
  unfold parseString at loaded
  split at loaded
  next =>
    cases loaded
    have nothing : ∀ {n}, ¬ Made heap.size heap n := fun made =>
      absurd made.2.1 (Nat.not_lt.mpr made.1)
    refine ⟨.refl heap, ⟨⟨?_, ?_, ?_, ?_, ?_⟩, ?_, ?_, ?_, ?_, ?_, ?_⟩, by rintro node ⟨⟩⟩
    all_goals
      intro n
      intros
      exact absurd ‹Made heap.size heap n› nothing
  next more =>
    split at loaded
    next node parsed ran =>
      rcases Option.map_eq_some_iff.mp loaded with ⟨last, walk, same⟩
      cases same
      have parsed : XmlParseString heap string node after := ⟨more, parsed, doParse_of_run ran, walk⟩
      refine ⟨XmlParseString.confines parsed, (XmlParseString.placed parsed).1, ?_⟩
      rintro other ⟨⟩
      exact parsed
    next parsed ran =>
      cases loaded
      rcases DoParse.ended (doParse_of_run ran) with ⟨last, rfl, woven, private_⟩
      exact ⟨private_.confines, woven.linked, by rintro node ⟨⟩⟩
    next => cases loaded

/-- `xml_parse_string` as the evaluator calls it. -/
def stringLoader (fuel : Nat) : Loader where
  load := parseString fuel
  extends_ := by
    intro heap text after root loaded
    have confines := (parseString_cases loaded).1
    exact ⟨confines.grows, fun n old => confines.same n (.inl old)⟩
  fresh := by
    intro heap text after root loaded
    exact ((XmlParseString.placed ((parseString_cases loaded).2.2 root rfl)).2.1).imp_right And.left
  closed := by
    intro heap text after root loaded n low high m link
    exact ((parseString_cases loaded).1.cells n ⟨low, high⟩).next m link

theorem Confines.brings {before after : Heap} (confines : Confines before after) :
    Brings before after where
  grows := confines.grows
  children := by
    intro n c link
    by_cases new : MadeSince before after n
    · exact .inr ((confines.cells n new).children c link).1
    · have outside : n < before.size ∨ after.size ≤ n := by
        rcases Nat.lt_or_ge n before.size with old | low
        · exact .inl old
        · exact .inr (Nat.le_of_not_lt fun high => new ⟨low, high⟩)
      rw [confines.same n outside] at link
      exact .inl ⟨n, link⟩

theorem stringLoader_whole (fuel : Nat) : (stringLoader fuel).Whole :=
  fun _ _ _ _ loaded => (parseString_cases loaded).1.brings

/-! ## One document after the other -/

/-- The strings are loaded in turn; an unreadable one gives NULL. -/
def loadAll (fuel : Nat) : List Bytes → Heap → Option (Heap × List Ptr)
  | [], heap => some (heap, [])
  | string :: rest, heap => do
      let (heap, root) ← parseString fuel heap string
      let (heap, roots) ← loadAll fuel rest heap
      some (heap, root :: roots)

theorem loadAll_cons_eq_some {fuel : Nat} {string : Bytes} {rest : List Bytes}
    {heap after : Heap} {roots : List Ptr}
    (loaded : loadAll fuel (string :: rest) heap = some (after, roots)) :
    Exists fun middle => Exists fun root => Exists fun others =>
      parseString fuel heap string = some (middle, root) ∧
        loadAll fuel rest middle = some (after, others) ∧ roots = root :: others := by
  rcases Option.bind_eq_some_iff.mp loaded with ⟨⟨middle, root⟩, first, later⟩
  rcases Option.bind_eq_some_iff.mp later with ⟨⟨last, others⟩, second, same⟩
  cases same
  exact ⟨middle, root, others, first, second, rfl⟩

/-- Loading in two parts. -/
theorem loadAll_append {fuel : Nat} {front behind : List Bytes} {heap after : Heap}
    {roots : List Ptr} (loaded : loadAll fuel (front ++ behind) heap = some (after, roots)) :
    Exists fun middle => Exists fun first => Exists fun others =>
      loadAll fuel front heap = some (middle, first) ∧
        loadAll fuel behind middle = some (after, others) ∧ roots = first ++ others := by
  induction front generalizing heap roots with
  | nil => exact ⟨heap, [], roots, rfl, loaded, rfl⟩
  | cons string front inductionHypothesis =>
      rcases loadAll_cons_eq_some loaded with ⟨between, root, later, parsed, rest, rfl⟩
      rcases inductionHypothesis rest with ⟨middle, first, others, inFront, inBehind, rfl⟩
      refine ⟨middle, root :: first, others, ?_, inBehind, rfl⟩
      rw [loadAll, parsed, Option.bind_eq_bind, Option.bind_some]
      dsimp only
      rw [inFront]
      rfl

section Loads

variable {before middle after : Heap}

theorem Confines.trans (first : Confines before middle) (second : Confines middle after) :
    Confines before after where
  grows := Nat.le_trans first.grows second.grows
  same := by
    rintro n (old | beyond)
    · rw [second.same n (.inl (Nat.lt_of_lt_of_le old first.grows)), first.same n (.inl old)]
    · rw [second.same n (.inr beyond), first.same n (.inr (Nat.le_trans second.grows beyond))]
  cells := by
    intro n new
    rcases Nat.lt_or_ge n middle.size with old | young
    · rw [second.same n (.inl old)]
      exact (first.cells n ⟨new.1, old⟩).mono fun m here =>
        ⟨here.1, Nat.lt_of_lt_of_le here.2 second.grows⟩
    · exact (second.cells n ⟨young, new.2⟩).mono fun m here =>
        ⟨Nat.le_trans first.grows here.1, here.2⟩

theorem Confines.given (confines : Confines before after) {n : NodeId} (given : Given before n) :
    Given after n := by
  refine ⟨Nat.lt_of_lt_of_le given.1 confines.grows, ?_⟩
  rw [confines.same n (.inl given.1)]
  exact given.2

/-- With new nodes that are well linked documents stay documents. -/
theorem Documents.load (documents : Documents before) (confines : Confines before after)
    (linked : Linked after (Made before.size after)) : Documents after where
  children := by
    intro n c link
    by_cases new : MadeSince before after n
    · have made : Made before.size after n :=
        ⟨new.1, new.2, ((confines.cells n new).children c link).2⟩
      rcases linked.forest.row made with ⟨row, found, members⟩
      have first : c ∈ row := by
        apply List.mem_of_mem_head?
        rw [← found.chain.start_eq]
        exact link
      exact (members c first).2
    · have outside : n < before.size ∨ after.size ≤ n := by
        rcases Nat.lt_or_ge n before.size with old | low
        · exact .inl old
        · exact .inr (Nat.le_of_not_lt fun high => new ⟨low, high⟩)
      rw [confines.same n outside] at link
      exact confines.given (documents.children n c link)
  next := by
    intro n m given link
    rcases Nat.lt_or_ge n before.size with old | young
    · have same := confines.same n (.inl old)
      rw [same] at link
      exact confines.given (documents.next n m ⟨old, same ▸ given.2⟩ link)
    · exact (linked.forest.behind ⟨young, given.1, given.2⟩ link).1.2

/-- What loading in turn does to a memory of documents. -/
theorem loadAll_spec {fuel : Nat} {strings : List Bytes} {roots : List Ptr}
    (documents : Documents before) (loaded : loadAll fuel strings before = some (after, roots)) :
    Confines before after ∧ Documents after ∧ ∀ node, some node ∈ roots → Given after node := by
  induction strings generalizing before roots with
  | nil =>
      cases loaded
      exact ⟨.refl _, documents, fun _ impossible => absurd impossible List.not_mem_nil⟩
  | cons string rest inductionHypothesis =>
      rcases loadAll_cons_eq_some loaded with ⟨between, root, others, parsed, later, rfl⟩
      rcases parseString_cases parsed with ⟨confines, linked, root_⟩
      rcases inductionHypothesis (documents.load confines linked) later with
        ⟨further, whole, given⟩
      refine ⟨confines.trans further, whole, fun node member => ?_⟩
      rcases List.mem_cons.mp member with here | behind
      · exact further.given (XmlParseString.placed (root_ node here.symm)).2.1.2
      · exact given node behind

end Loads

theorem documents_empty : Documents .empty := by
  constructor
  · rintro n c ⟨⟩
  · rintro n m _ ⟨⟩

/-- A call on a loaded document, with templates from a loaded stylesheet, which
loads further documents in the same way. -/
structure XsltCall.OnLoaded {Num : Type} (call : XsltCall Num) (heap : Heap) (roots : List Ptr) :
    Prop where
  document : some call.document ∈ roots
  documents : Exists fun fuel => call.pctx.env.documents = stringLoader fuel
  strings : Exists fun fuel => call.pctx.env.strings = stringLoader fuel
  templates : ∀ mode entry, call.pctx.templates mode = some entry → entry.Within (Given heap)
  named : ∀ name t, call.pctx.namedTempl name = some t → Given heap t
  sorts : ∀ n fuel, Given heap n → (heap.get n).name = some xslApply →
    xmlGetAttr heap (some xslASelect) fuel n = some none →
    ∀ c d, (heap.get n).children = some c →
      Relation.ReflTransGen (fun one other => (heap.get one).next = some other) c d →
      (heap.get d).name ≠ some xslSort

theorem XsltCall.OnLoaded.sound {Num : Type} {call : XsltCall Num} {heap : Heap}
    {roots : List Ptr} (onLoaded : call.OnLoaded heap roots) {fuel : Nat} {strings : List Bytes}
    (loaded : loadAll fuel strings .empty = some (heap, roots)) :
    SoundStart call.pctx heap ∧ Given heap call.document := by
  have whole := loadAll_spec documents_empty loaded
  have cells : ∀ n < heap.size, (heap.get n).Inward (MadeSince .empty heap) := fun n old =>
    whole.1.cells n ⟨Nat.zero_le n, old⟩
  refine ⟨⟨⟨?_, ?_⟩, whole.2.1, ?_, ?_, onLoaded.templates, onLoaded.named, onLoaded.sorts⟩,
    whole.2.2 _ onLoaded.document⟩
  · rcases onLoaded.documents with ⟨turns, same⟩
    exact same ▸ stringLoader_whole turns
  · rcases onLoaded.strings with ⟨turns, same⟩
    exact same ▸ stringLoader_whole turns
  · exact fun n a old link => ((cells n old).attributes a link).2
  · exact fun n m old link => ((cells n old).next m link).2

/-- From the text of documents and stylesheets to the results of transformations
that run at once: what was loaded stays as it was parsed. -/
theorem loaded_documents_are_kept {Num : Type} [Double Num] {fuel : Nat} {strings : List Bytes}
    {start : Memory Num} {roots : List Ptr}
    (loaded : loadAll fuel strings .empty = some (start.heap, roots)) {calls : List (XsltCall Num)}
    (onLoaded : ∀ call ∈ calls, call.OnLoaded start.heap roots) {labels : List Unit}
    {last : Threads (Operation Num) (Memory Num)}
    (run : Run (Turn Operation.acts Operation.starts) (begun calls start) labels last) :
    ∀ n < start.heap.size, last.state.heap.get n = start.heap.get n := by
  rcases run_charted (loadAll_spec documents_empty loaded).2.1
    (fun call member => (onLoaded call member).sound loaded) run with ⟨chart, fits, _⟩
  exact fits.charted.same

end TurboXSL
