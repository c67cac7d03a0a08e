import TurboXSL.Results
import TurboXSL.Selections
import TurboXSL.SortedVisits

namespace TurboXSL

open Library Output

/-!
# Copies of source nodes

`copy_node_to_result` serves the literal elements of a stylesheet, whose
attributes are templates, and the nodes of documents, which are data.  A copy
of a document is verbatim exactly where none of its strings means anything to
`xml_process_string`.
-/

/-! ## Strings -/

/-- Nothing in the string means anything to an attribute value template. -/
def Unbraced (s : Bytes) : Prop :=
  '{'.toUInt8 ∉ s ∧ ¬ ['}'.toUInt8, '}'.toUInt8] <:+: s

theorem byteAt_eq {s : Bytes} {c : UInt8} (some_ : c ≠ 0) (here : byteAt s = c) :
    s = c :: s.tail := by
  cases s with
  | nil => exact absurd here.symm some_
  | cons d s =>
      cases here
      rfl

/-- Where nothing is evaluated, a string is left as it is or gets shorter. -/
theorem processLoop_spec {evaluate : Bytes → Heap → Option (Bytes × Heap)} {fuel : Nat}
    {s res : Bytes} {heap after : Heap}
    (done : processLoop evaluate fuel s heap = some (res, [], after)) :
    Unbraced s ∧ res = s ∨ ¬ Unbraced s ∧ res.length < s.length := by
  induction fuel generalizing s res heap with
  | zero =>
      cases s with
      | nil =>
          cases done
          exact .inl ⟨⟨nofun, by decide⟩, rfl⟩
      | cons c s => cases done
  | succ fuel inductionHypothesis =>
      cases s with
      | nil =>
          cases done
          exact .inl ⟨⟨nofun, by decide⟩, rfl⟩
      | cons c s =>
          unfold processLoop at done
          by_cases opens : c = '{'.toUInt8
          · rw [if_pos opens] at done
            have braced : ¬ Unbraced (c :: s) := fun plain => plain.1 (opens ▸ List.mem_cons_self)
            by_cases twice : byteAt s = '{'.toUInt8
            · rw [if_pos twice] at done
              rcases Option.bind_eq_some_iff.mp done with ⟨⟨res', ev, last⟩, later, done⟩
              cases done
              refine .inr ⟨braced, ?_⟩
              have tail := byteAt_eq (by decide) twice
              have short : res'.length ≤ s.tail.length := by
                rcases inductionHypothesis later with ⟨_, rfl⟩ | ⟨_, less⟩
                · exact Nat.le_refl _
                · exact Nat.le_of_lt less
              rw [tail, List.length_cons, List.length_cons, List.length_cons]
              omega
            · rw [if_neg twice] at done
              rcases Option.bind_eq_some_iff.mp done with ⟨⟨r, middle⟩, _, done⟩
              dsimp only at done
              split at done
              · cases done
              · rcases Option.bind_eq_some_iff.mp done with ⟨⟨res', ev, last⟩, _, done⟩
                cases done
          · rw [if_neg opens] at done
            dsimp only at done
            rcases Option.bind_eq_some_iff.mp done with ⟨⟨res', ev, last⟩, later, done⟩
            cases done
            by_cases closes : c = '}'.toUInt8 ∧ byteAt s = '}'.toUInt8
            · rw [if_pos closes] at later
              have tail := byteAt_eq (by decide) closes.2
              have braced : ¬ Unbraced (c :: s) := by
                intro plain
                apply plain.2
                rw [tail, closes.1]
                exact ⟨[], s.tail, rfl⟩
              refine .inr ⟨braced, ?_⟩
              have short : res'.length ≤ s.tail.length := by
                rcases inductionHypothesis later with ⟨_, rfl⟩ | ⟨_, less⟩
                · exact Nat.le_refl _
                · exact Nat.le_of_lt less
              dsimp only
              rw [tail, List.length_cons, List.length_cons, List.length_cons]
              omega
            · rw [if_neg closes] at later
              have same : Unbraced (c :: s) ↔ Unbraced s := by
                unfold Unbraced
                rw [List.mem_cons, not_or, List.infix_cons_iff]
                constructor
                · exact fun plain => ⟨plain.1.2, fun within => plain.2 (.inr within)⟩
                · refine fun plain => ⟨⟨fun same => opens same.symm, plain.1⟩, ?_⟩
                  rintro (⟨rest, begins⟩ | within)
                  · rw [List.cons_append, List.cons_append] at begins
                    rcases List.cons.inj begins with ⟨first, behind⟩
                    exact closes ⟨first.symm, by rw [← behind]; rfl⟩
                  · exact plain.2 within
              rcases inductionHypothesis later with ⟨plain, rfl⟩ | ⟨braced, less⟩
              · exact .inl ⟨same.mpr plain, rfl⟩
              · exact .inr ⟨fun plain => braced (same.mp plain), Nat.succ_lt_succ less⟩

/-- A string without braces is copied byte by byte. -/
theorem processLoop_plain {evaluate : Bytes → Heap → Option (Bytes × Heap)} {fuel : Nat} {s : Bytes}
    (plain : Unbraced s) (enough : s.length ≤ fuel) (heap : Heap) :
    processLoop evaluate fuel s heap = some (s, [], heap) := by
  induction fuel generalizing s with
  | zero =>
      cases s with
      | nil => rfl
      | cons c s => cases enough
  | succ fuel inductionHypothesis =>
      cases s with
      | nil => rfl
      | cons c s =>
          have opens : c ≠ '{'.toUInt8 := fun same => plain.1 (same ▸ List.mem_cons_self)
          have closes : ¬ (c = '}'.toUInt8 ∧ byteAt s = '}'.toUInt8) := by
            intro both
            apply plain.2
            rw [byteAt_eq (by decide) both.2, both.1]
            exact ⟨[], s.tail, rfl⟩
          have later : Unbraced s := ⟨fun member => plain.1 (List.mem_cons_of_mem _ member),
            fun within => plain.2 (within.trans (List.suffix_cons c s).isInfix)⟩
          unfold processLoop
          rw [if_neg opens]
          dsimp only
          rw [if_neg closes, inductionHypothesis later (Nat.le_of_succ_le_succ enough)]
          rfl

/-- The string is its own copy. -/
def VerbatimString (s : Bytes) : Prop := 0 ∉ s ∧ Unbraced s

theorem untilNul_length_lt {s : Bytes} (cut : 0 ∈ s) : (untilNul s).length < s.length := by
  have prefix_ : untilNul s <+: s := List.takeWhile_prefix _
  apply Nat.lt_of_le_of_ne prefix_.length_le
  intro same
  rw [← prefix_.eq_of_length same] at cut
  have kept : decide ((0 : UInt8) ≠ 0) = true :=
    List.mem_takeWhile_imp (p := fun c : UInt8 => decide (c ≠ 0)) cut
  exact absurd rfl (of_decide_eq_true kept)

section Strings

variable {Num : Type} [Double Num] {env : Env Num} {depth : Nat}

theorem xmlProcessString_allocates {context : NodeId} {string content : Option Bytes}
    {evaluated : List Bytes} {heap after : Heap} (old : Old env.locals heap)
    (done : xmlProcessString env depth context string heap = some (content, evaluated, after)) :
    Allocates env.locals heap after := by
  have loop : ∀ {fuel s res ev heap after}, Old env.locals heap →
      processLoop (fun expr heap => (env.findExpr expr).bind fun etree =>
        (xpathEvalString env depth etree context heap).bind fun found =>
          some (appended found.1, found.2)) fuel s heap = some (res, ev, after) →
      Allocates env.locals heap after := by
    intro fuel
    induction fuel with
    | zero =>
        intro s res ev heap after old done
        cases s with
        | nil =>
            cases done
            exact .refl env.locals _
        | cons c s => cases done
    | succ fuel inductionHypothesis =>
        intro s res ev heap after old done
        cases s with
        | nil =>
            cases done
            exact .refl env.locals _
        | cons c s =>
            unfold processLoop at done
            split at done
            · split at done
              · rcases Option.bind_eq_some_iff.mp done with ⟨⟨res', ev, last⟩, later, done⟩
                cases done
                exact inductionHypothesis old later
              · rcases Option.bind_eq_some_iff.mp done with ⟨⟨r, middle⟩, first, done⟩
                rcases Option.bind_eq_some_iff.mp first with ⟨etree, _, first⟩
                rcases Option.bind_eq_some_iff.mp first with ⟨⟨text, memory⟩, evaluates, same⟩
                cases same
                have step := xpathEvalString_allocates old evaluates
                dsimp only at done
                split at done
                · cases done
                  exact step
                · rcases Option.bind_eq_some_iff.mp done with ⟨⟨res', ev, last⟩, later, done⟩
                  cases done
                  exact step.trans old (inductionHypothesis (old.grow step) later)
            · dsimp only at done
              rcases Option.bind_eq_some_iff.mp done with ⟨⟨res', ev, last⟩, later, done⟩
              cases done
              exact inductionHypothesis old later
  unfold xmlProcessString at done
  cases string with
  | none =>
      cases done
      exact .refl env.locals _
  | some s =>
      dsimp only at done
      split at done
      · cases done
        exact .refl env.locals _
      · rcases Option.bind_eq_some_iff.mp done with ⟨⟨res, ev, last⟩, later, done⟩
        cases done
        exact loop old later

theorem xmlProcessString_spec {context : NodeId} {s : Bytes} {content : Option Bytes}
    {heap after : Heap}
    (done : xmlProcessString env depth context (some s) heap = some (content, [], after)) :
    VerbatimString s ∧ content = some s ∨
      ¬ VerbatimString s ∧ (content.getD []).length < s.length := by
  have whole : ∀ t, Unbraced (untilNul s) ∧ t = untilNul s ∨
      ¬ Unbraced (untilNul s) ∧ t.length < (untilNul s).length → content = some t →
      VerbatimString s ∧ content = some s ∨
        ¬ VerbatimString s ∧ (content.getD []).length < s.length := by
    rintro t outcome rfl
    have shorter : (untilNul s).length ≤ s.length := (List.takeWhile_prefix _).length_le
    by_cases cut : 0 ∈ s
    · refine .inr ⟨fun plain => plain.1 cut, ?_⟩
      have less := untilNul_length_lt cut
      change t.length < s.length
      rcases outcome with ⟨_, rfl⟩ | ⟨_, short⟩
      · exact less
      · exact Nat.lt_trans short less
    · rw [untilNul_eq_self cut] at outcome
      rcases outcome with ⟨plain, rfl⟩ | ⟨braced, short⟩
      · exact .inl ⟨⟨cut, plain⟩, rfl⟩
      · exact .inr ⟨fun plain => braced plain.2, short⟩
  unfold xmlProcessString at done
  dsimp only at done
  split at done
  next bare =>
    cases done
    refine whole _ (.inl ⟨⟨bare.1, ?_⟩, rfl⟩) rfl
    exact fun within => bare.2 (within.subset List.mem_cons_self)
  · rcases Option.bind_eq_some_iff.mp done with ⟨⟨res, ev, last⟩, later, done⟩
    cases done
    exact whole res (processLoop_spec later) rfl

theorem xmlProcessString_verbatim {context : NodeId} {s : Bytes} (plain : VerbatimString s)
    (heap : Heap) : xmlProcessString env depth context (some s) heap = some (some s, [], heap) := by
  unfold xmlProcessString
  dsimp only
  rw [untilNul_eq_self plain.1]
  split
  · rfl
  · rw [processLoop_plain plain.2 (Nat.le_refl _)]
    rfl

end Strings

/-! ## Trees in memory -/

/-- What a copy takes over from an attribute. -/
structure AttributeCell where
  name : Option Bytes
  content : Option Bytes
  flags : Nat

/-- What a copy takes over from a node. -/
structure NodeCell where
  type : NodeType
  name : Option Bytes
  content : Option Bytes
  flags : Nat
  attributes : List AttributeCell

/-- Sibling trees of any nodes, in first-child / next-sibling form. -/
inductive Fragment where
  | nil
  | node (cell : NodeCell) (children next : Fragment)

def attributeCell (heap : Heap) (a : NodeId) : AttributeCell where
  name := (heap.get a).name
  content := (heap.get a).content
  flags := (heap.get a).flags

def nodeCell (heap : Heap) (n : NodeId) (attributes : List NodeId) : NodeCell where
  type := (heap.get n).type
  name := (heap.get n).name
  content := (heap.get n).content
  flags := (heap.get n).flags
  attributes := attributes.map (attributeCell heap)

/-- The nodes from a pointer on are these trees, and these are all of them
with their attributes. -/
inductive Laid (heap : Heap) : Ptr → Fragment → List NodeId → Prop where
  | nil : Laid heap none .nil []
  | node {i : NodeId} {attributes below behind : List NodeId} {children next : Fragment}
      (chain : Siblings heap (heap.get i).attributes attributes)
      (inner : Laid heap (heap.get i).children children below)
      (tail : Laid heap (heap.get i).next next behind) :
      Laid heap (some i) (.node (nodeCell heap i attributes) children next)
        (i :: attributes ++ below ++ behind)

/-- A memory that agrees on the nodes has the same trees. -/
theorem Laid.congr {heap other : Heap} {p : Ptr} {fragment : Fragment} {ids : List NodeId}
    (reads : Laid heap p fragment ids) (same : ∀ n ∈ ids, other.get n = heap.get n) :
    Laid other p fragment ids := by
  induction reads with
  | nil => exact .nil
  | @node i attributes below behind children next chain inner tail innerHypothesis tailHypothesis =>
      have here : other.get i = heap.get i :=
        same i (List.mem_append_left _ (List.mem_append_left _ List.mem_cons_self))
      have attrs : ∀ a ∈ attributes, other.get a = heap.get a := fun a at_ =>
        same a (List.mem_append_left _ (List.mem_append_left _ (List.mem_cons_of_mem _ at_)))
      have below_ := innerHypothesis fun n at_ =>
        same n (List.mem_append_left _ (List.mem_append_right _ at_))
      have behind_ := tailHypothesis fun n at_ => same n (List.mem_append_right _ at_)
      have cell : nodeCell heap i attributes = nodeCell other i attributes := by
        unfold nodeCell
        rw [here]
        refine congrArg _ (List.map_congr_left fun a at_ => ?_)
        unfold attributeCell
        rw [attrs a at_]
      rw [cell]
      rw [← here] at chain below_ behind_
      refine .node (chain.congr fun a at_ => ?_) below_ behind_
      rw [attrs a at_]

theorem Laid.unique {heap : Heap} {p : Ptr} {first second : Fragment} {ids ids' : List NodeId}
    (left : Laid heap p first ids) (right : Laid heap p second ids') : first = second := by
  induction left generalizing second ids' with
  | nil =>
      cases right
      rfl
  | node chain _ _ innerHypothesis tailHypothesis =>
      cases right with
      | node chain' inner' tail' =>
          rw [chain.unique chain', innerHypothesis inner', tailHypothesis tail']

/-! ## Copies of cells -/

/-- The attribute is its own copy. -/
def AttributeCell.Verbatim (a : AttributeCell) : Prop :=
  (Exists fun s => a.content = some s) ∧ a.flags = xmlFlagNoescape ∨
    a.flags ≠ xmlFlagNoescape ∧ ∀ s, a.content = some s → VerbatimString s

/-- The copy has the content of the attribute or a shorter one. -/
structure AttributeCell.CopiedTo (a t : AttributeCell) : Prop where
  name : t.name = a.name
  content : a.Verbatim ∧ t.content = a.content ∨
    ¬ a.Verbatim ∧ (t.content.getD []).length < (a.content.getD []).length

/-- The copy of a node; its attributes stand in reverse. -/
structure NodeCell.CopiedTo (src r : NodeCell) : Prop where
  type : r.type = src.type
  name : r.name = src.name
  text : src.type = .text → Exists fun s => src.content = some s ∧ r.content = some (untilNul s)
  attributes : src.type = .element →
    List.Forall₂ AttributeCell.CopiedTo src.attributes r.attributes.reverse

/-- The copy of trees. -/
inductive Fragment.CopiedTo : Fragment → Fragment → Prop where
  | nil : Fragment.CopiedTo .nil .nil
  | node {src r : NodeCell} {children children' next next' : Fragment} (here : src.CopiedTo r)
      (inner : children.CopiedTo children') (tail : next.CopiedTo next') :
      Fragment.CopiedTo (.node src children next) (.node r children' next')

/-! ## Nodes behind the last child -/

/-- New children of a node: everything else is as it was, but for the node of
the local variables. -/
structure Grafted (locals : Ptr) (before after : Heap) (parent : NodeId) (row made : List NodeId) :
    Prop where
  grows : before.size ≤ after.size
  same : ∀ i < before.size, locals ≠ some i → i ≠ parent → row.getLast? ≠ some i →
    after.get i = before.get i
  owner : after.get parent = { before.get parent with children := (row ++ made).head? }
  last : ∀ l, row.getLast? = some l → after.get l = { before.get l with next := made.head? }
  chain : Siblings after (row ++ made).head? (row ++ made)
  fresh : ∀ n ∈ made, before.size ≤ n ∧ n < after.size

/-- A node whose children stand in a row, away from the nodes to be copied. -/
structure Site (locals : Ptr) (heap : Heap) (parent : NodeId) (row ids : List NodeId) : Prop where
  old : Old locals heap
  place : parent < heap.size ∧ locals ≠ some parent ∧ parent ∉ ids
  chain : Siblings heap (heap.get parent).children row
  row : ∀ n ∈ row, n < heap.size ∧ locals ≠ some n ∧ n ≠ parent ∧ n ∉ ids
  source : ∀ n ∈ ids, n < heap.size ∧ locals ≠ some n

section Sites

variable {locals : Ptr} {heap middle after : Heap} {parent : NodeId} {row ids made : List NodeId}

/-- What is copied is not touched. -/
theorem Grafted.source (grafted : Grafted locals heap after parent row made)
    (site : Site locals heap parent row ids) {n : NodeId} (member : n ∈ ids) :
    after.get n = heap.get n := by
  apply grafted.same n (site.source n member).1 (site.source n member).2
  · rintro rfl
    exact site.place.2.2 member
  · intro last
    exact (site.row n (List.mem_of_getLast? last)).2.2.2 member

/-- More can be appended behind what has been. -/
theorem Grafted.site (grafted : Grafted locals heap after parent row made)
    (site : Site locals heap parent row ids) {ids' : List NodeId} (fewer : ids' ⊆ ids) :
    Site locals after parent (row ++ made) ids' where
  old := fun l here => Nat.lt_of_lt_of_le (site.old l here) grafted.grows
  place := ⟨Nat.lt_of_lt_of_le site.place.1 grafted.grows, site.place.2.1,
    fun member => site.place.2.2 (fewer member)⟩
  chain := by
    rw [grafted.owner]
    exact grafted.chain
  row := by
    intro n member
    rcases List.mem_append.mp member with old | new
    · have here := site.row n old
      exact ⟨Nat.lt_of_lt_of_le here.1 grafted.grows, here.2.1, here.2.2.1,
        fun member => here.2.2.2 (fewer member)⟩
    · have here := grafted.fresh n new
      refine ⟨here.2, fun same => ?_, ?_, fun member => ?_⟩
      · exact absurd (site.old n same) (Nat.not_lt.mpr here.1)
      · rintro rfl
        exact absurd site.place.1 (Nat.not_lt.mpr here.1)
      · exact absurd (site.source n (fewer member)).1 (Nat.not_lt.mpr here.1)
  source := fun n member => ⟨Nat.lt_of_lt_of_le (site.source n (fewer member)).1 grafted.grows,
    (site.source n (fewer member)).2⟩

/-- `xml_append_child` puts a new node behind the others. -/
theorem xmlAppendChild_grafted (site : Site locals heap parent row ids) (type : NodeType) :
    Exists fun after => xmlAppendChild heap parent type = some (after, heap.size) ∧
      Grafted locals heap after parent row [heap.size] ∧ after.size = heap.size + 1 ∧
      after.get heap.size = { type := type, uid := some heap.size, parent := some parent,
                              prev := row.getLast? } := by
  have made : Arena.Extends heap (xmlNewNode heap none type).1 := (Arena.Extends.refl _).alloc _
  have kept : ∀ n < heap.size, (xmlNewNode heap none type).1.get n = heap.get n := made.same
  have parentSmall := site.place.1
  have parentNew : parent ≠ heap.size := Nat.ne_of_lt parentSmall
  have bound : ∀ n ∈ row, n < heap.size := fun n member => (site.row n member).1
  have start := site.chain.start_eq
  have listed : siblings (xmlNewNode heap none type).1
      ((xmlNewNode heap none type).1.get parent).children = some row := by
    rw [kept parent parentSmall]
    apply siblings_of_chain
    · exact site.chain.congr fun n member => congrArg XmlNode.next (kept n (bound n member))
    · exact fun n member => Nat.lt_succ_of_lt (bound n member)
  have fresh : (xmlNewNode heap none type).1.get heap.size =
      { type := type, uid := some heap.size } := Arena.alloc_get_same _ _
  cases ends : row.getLast? with
  | none =>
      have empty : row = [] := List.getLast?_eq_none_iff.mp ends
      subst empty
      refine ⟨((xmlNewNode heap none type).1.modify parent fun cell =>
        { cell with children := some heap.size }).modify heap.size fun cell =>
          { cell with parent := some parent }, ?_, ?_, ?_, ?_⟩
      · unfold xmlAppendChild xmlAddChild
        dsimp only
        rw [show (xmlNewNode heap none type).2 = heap.size from rfl, listed]
        rfl
      · constructor
        · exact Nat.le_succ _
        · intro i small _ other _
          have notNew : i ≠ heap.size := Nat.ne_of_lt small
          rw [Arena.modify_get_of_ne _ _ notNew]
          exact (Arena.modify_get_of_ne _ _ other).trans (kept i small)
        · rw [Arena.modify_get_of_ne _ _ parentNew]
          rw [Arena.modify_get_same, kept parent parentSmall]
          rfl
        · exact nofun
        · refine .cons heap.size [] ?_
          rw [Arena.modify_get_same, Arena.modify_get_of_ne _ _ parentNew.symm, fresh]
          exact .nil
        · intro n member
          rw [List.mem_singleton.mp member]
          exact ⟨Nat.le_refl _, Nat.lt_succ_self _⟩
      · rfl
      · rw [Arena.modify_get_same, Arena.modify_get_of_ne _ _ parentNew.symm, fresh]
  | some last =>
      have inRow : last ∈ row := List.mem_of_getLast? ends
      have lastSmall := bound last inRow
      have lastNew : last ≠ heap.size := Nat.ne_of_lt lastSmall
      have lastParent : last ≠ parent := (site.row last inRow).2.2.1
      have some_ : row ≠ [] := List.ne_nil_of_mem inRow
      have head : (row ++ [heap.size]).head? = row.head? := List.head?_append_of_ne_nil _ some_
      refine ⟨(setNext ((xmlNewNode heap none type).1.modify heap.size fun cell =>
        { cell with prev := some last }) (some last) (some heap.size)).modify heap.size
          fun cell => { cell with parent := some parent }, ?_, ?_, ?_, ?_⟩
      · unfold xmlAppendChild xmlAddChild
        dsimp only
        rw [show (xmlNewNode heap none type).2 = heap.size from rfl, listed]
        simp only [Option.bind_eq_bind, Option.bind_some, ends]
      · have link : ((setNext ((xmlNewNode heap none type).1.modify heap.size fun cell =>
            { cell with prev := some last }) (some last) (some heap.size)).modify heap.size
              fun cell => { cell with parent := some parent }).get last =
            { heap.get last with next := some heap.size } := by
          rw [Arena.modify_get_of_ne _ _ lastNew]
          unfold setNext
          dsimp only
          rw [Arena.modify_get_same, Arena.modify_get_of_ne _ _ lastNew, kept last lastSmall]
        have others : ∀ n < heap.size, n ≠ last → ((setNext ((xmlNewNode heap none type).1.modify
            heap.size fun cell => { cell with prev := some last }) (some last)
              (some heap.size)).modify heap.size
                fun cell => { cell with parent := some parent }).get n = heap.get n := by
          intro n small other
          have notNew : n ≠ heap.size := Nat.ne_of_lt small
          rw [Arena.modify_get_of_ne _ _ notNew]
          unfold setNext
          dsimp only
          rw [Arena.modify_get_of_ne _ _ other, Arena.modify_get_of_ne _ _ notNew, kept n small]
        have new : ((setNext ((xmlNewNode heap none type).1.modify heap.size fun cell =>
            { cell with prev := some last }) (some last) (some heap.size)).modify heap.size
              fun cell => { cell with parent := some parent }).get heap.size =
            { type := type, uid := some heap.size, parent := some parent, prev := some last } := by
          rw [Arena.modify_get_same]
          unfold setNext
          dsimp only
          rw [Arena.modify_get_of_ne _ _ lastNew.symm, Arena.modify_get_same, fresh]
        constructor
        · exact Nat.le_succ _
        · intro i small _ _ other
          exact others i small fun same => other (same ▸ ends)
        · rw [others parent parentSmall lastParent.symm, head, ← start]
        · intro l here
          rw [ends] at here
          cases here
          exact link
        · rw [head, ← start]
          apply chain_append site.chain ends
          · intro n member other
            rw [others n (bound n member) other]
          · rw [link]
            rfl
          · refine .cons heap.size [] ?_
            rw [new]
            exact .nil
        · intro n member
          rw [List.mem_singleton.mp member]
          exact ⟨Nat.le_refl _, Nat.lt_succ_self _⟩
      · rfl
      · rw [Arena.modify_get_same]
        unfold setNext
        dsimp only
        rw [Arena.modify_get_of_ne _ _ lastNew.symm, Arena.modify_get_same, fresh]

end Sites

end TurboXSL
