import TurboXSL.Templates

namespace TurboXSL

open Library

/-!
# What the table of templates holds

The table of one mode is described by the registrations made in it, the
latest first: the list holds every pattern of its kind once, in the order of
the first registrations, and the trie holds at the end of a path the latest
registration of a pattern with these names.  The description holds after any
run of registrations of patterns short enough for the dictionary of compiled
expressions.
-/

/-- Registrations as trimmed patterns with their contents, the latest first. -/
abbrev Past := List (Bytes × NodeId)

/-- The expression of a pattern; NULL where it does not compile. -/
def patternExpr (pattern : Bytes) : Expr := (xpathCompile pattern).getD .null

/-- `expression_weight` -/
def patternWeight (pattern : Bytes) : Nat := (patternExpr pattern).spine.length

/-- The names under which a pattern goes into the trie. -/
def patternKeys (pattern : Bytes) : List (Option Bytes) := directKeys (patternExpr pattern)

/-- The patterns `/` and `*` are kept apart from the others. -/
def Apart (pattern : Bytes) : Prop := pattern = lit "/" ∨ pattern = lit "*"

instance (pattern : Bytes) : Decidable (Apart pattern) := by
  unfold Apart
  infer_instance

/-- The patterns that go into the trie. -/
def Direct (pattern : Bytes) : Prop := ¬ Apart pattern ∧ isDirectMatch (patternExpr pattern)

instance (pattern : Bytes) : Decidable (Direct pattern) := by
  unfold Direct
  infer_instance

/-- The patterns that go into the list. -/
def Listed (pattern : Bytes) : Prop := ¬ Apart pattern ∧ ¬ isDirectMatch (patternExpr pattern)

instance (pattern : Bytes) : Decidable (Listed pattern) := by
  unfold Listed
  infer_instance

theorem Listed.not_direct {pattern : Bytes} (listed : Listed pattern) : ¬ Direct pattern :=
  fun direct => listed.2 direct.2

/-- The patterns in the list, the one first registered last at the head. -/
def listedPatterns : Past → List Bytes
  | [] => []
  | r :: past =>
      if Listed r.1 ∧ r.1 ∉ listedPatterns past then r.1 :: listedPatterns past
      else listedPatterns past

/-- The template in the list for a pattern. -/
def listedEntry (past : Past) (pattern : Bytes) : Template where
  matchString := pattern
  expr := patternExpr pattern
  expressionWeight := patternWeight pattern
  content := (past.lookup pattern).getD 0

/-- The template in the trie for a registration. -/
def directEntry (r : Bytes × NodeId) : Template where
  matchString := r.1
  expressionWeight := patternWeight r.1
  content := r.2

/-- A registration of a pattern with the names of a path. -/
def HasKeys (path : List Bytes) (r : Bytes × NodeId) : Prop :=
  Direct r.1 ∧ patternKeys r.1 = path.map some

instance (path : List Bytes) (r : Bytes × NodeId) : Decidable (HasKeys path r) := by
  unfold HasKeys
  infer_instance

/-- The trie, also before it is made. -/
def TemplateMapEntry.tree (entry : TemplateMapEntry) : TemplateTree :=
  entry.directMatch.getD Trie.empty

/-- A node of the trie that has a template is the end of its pattern's path. -/
structure PlacedAt (past : Past) (tree : TemplateTree) (node : Nat) (t : Template) : Prop where
  direct : Direct t.matchString
  entry : t = directEntry (t.matchString, t.content)
  known : t.matchString ∈ past.map Prod.fst
  ends : ∀ path, tree.descend 0 path = some node ↔ path.map some = patternKeys t.matchString

/-- The table of a mode after the registrations `past`. -/
structure Describes (past : Past) (entry : TemplateMapEntry) : Prop where
  compiled : ∀ pattern ∈ past.map Prod.fst, ¬ Apart pattern →
    xpathCompile pattern = some (patternExpr pattern)
  listed : entry.head = (listedPatterns past).map (listedEntry past)
  formed : entry.tree.WellFormed
  placed : ∀ node t, (entry.tree.get node).value = some t → PlacedAt past entry.tree node t
  latest : ∀ path, entry.tree.valueAt path =
    (past.find? fun r => HasKeys path r).map directEntry
  paths : ∀ path, entry.tree.HasPath path ↔ path = [] ∨
    Exists fun r => r ∈ past ∧ Direct r.1 ∧ path.map some <+: patternKeys r.1

/-! ## The patterns in the list -/

theorem mem_listedPatterns {past : Past} {pattern : Bytes} :
    pattern ∈ listedPatterns past ↔ Listed pattern ∧ pattern ∈ past.map Prod.fst := by
  induction past with
  | nil => simp [listedPatterns]
  | cons r past inductionHypothesis =>
      unfold listedPatterns
      by_cases new : Listed r.1 ∧ r.1 ∉ listedPatterns past
      · rw [if_pos new, List.mem_cons, inductionHypothesis, List.map_cons, List.mem_cons]
        constructor
        · rintro (rfl | ⟨listed, known⟩)
          · exact ⟨new.1, .inl rfl⟩
          · exact ⟨listed, .inr known⟩
        · rintro ⟨listed, same | known⟩
          · exact .inl same
          · exact .inr ⟨listed, known⟩
      · rw [if_neg new, inductionHypothesis, List.map_cons, List.mem_cons]
        constructor
        · rintro ⟨listed, known⟩
          exact ⟨listed, .inr known⟩
        · rintro ⟨listed, rfl | known⟩
          · have member := not_not.mp fun absent => new ⟨listed, absent⟩
            exact inductionHypothesis.mp member
          · exact ⟨listed, known⟩

theorem listedPatterns_nodup (past : Past) : (listedPatterns past).Nodup := by
  induction past with
  | nil => exact List.nodup_nil
  | cons r past inductionHypothesis =>
      unfold listedPatterns
      by_cases new : Listed r.1 ∧ r.1 ∉ listedPatterns past
      · rw [if_pos new]
        exact List.nodup_cons.mpr ⟨new.2, inductionHypothesis⟩
      · rwa [if_neg new]

theorem listedPatterns_of_not_listed {r : Bytes × NodeId} (not : ¬ Listed r.1) (past : Past) :
    listedPatterns (r :: past) = listedPatterns past :=
  if_neg fun new => not new.1

/-- A later registration changes the entry of its own pattern only. -/
theorem listedEntry_cons {r : Bytes × NodeId} {pattern : Bytes} (different : pattern ≠ r.1)
    (past : Past) : listedEntry (r :: past) pattern = listedEntry past pattern := by
  unfold listedEntry
  rw [List.lookup_cons, beq_eq_false_iff_ne.mpr different]

theorem listedEntry_self (r : Bytes × NodeId) (past : Past) :
    listedEntry (r :: past) r.1 = ⟨r.1, patternExpr r.1, patternWeight r.1, r.2⟩ := by
  unfold listedEntry
  rw [List.lookup_cons, beq_self_eq_true]
  rfl

/-- The replacement of a content, as a later registration. -/
theorem replaceContent_map (r : Bytes × NodeId) (past : Past) (patterns : List Bytes)
    (distinct : patterns.Nodup) :
    replaceContent r.1 r.2 (patterns.map (listedEntry past)) =
      if r.1 ∈ patterns then some (patterns.map (listedEntry (r :: past))) else none := by
  induction patterns with
  | nil => rfl
  | cons pattern patterns inductionHypothesis =>
      have rest := List.nodup_cons.mp distinct
      by_cases same : pattern = r.1
      · subst same
        have tail : patterns.map (listedEntry (r :: past)) = patterns.map (listedEntry past) := by
          apply List.map_congr_left
          intro other member
          exact listedEntry_cons (fun same => rest.1 (same ▸ member)) past
        have here : (listedEntry past r.1).matchString = r.1 := rfl
        rw [List.map_cons, List.map_cons, replaceContent, if_pos here, tail,
          if_pos List.mem_cons_self, listedEntry_self]
        rfl
      · have absent : ¬ (listedEntry past pattern).matchString = r.1 := same
        simp only [List.map_cons, replaceContent, if_neg absent, inductionHypothesis rest.2,
          List.mem_cons, Ne.symm same, false_or, listedEntry_cons same]
        by_cases member : r.1 ∈ patterns
        · rw [if_pos member, if_pos member, Option.map_some]
        · rw [if_neg member, if_neg member, Option.map_none]

/-! ## The nodes of the trie -/

theorem mem_treeTemplates {tree : TemplateTree} (formed : tree.WellFormed) {node : Nat}
    {t : Template} : (node, t) ∈ treeTemplates tree ↔ (tree.get node).value = some t := by
  unfold treeTemplates
  rw [List.mem_filterMap]
  constructor
  · rintro ⟨other, _, found⟩
    rcases Option.map_eq_some_iff.mp found with ⟨value, has, same⟩
    cases same
    exact has
  · intro has
    refine ⟨node, List.mem_range.mpr (Nat.lt_of_not_le fun beyond => ?_), by rw [has]; rfl⟩
    rw [formed.blank node beyond] at has
    cases has

theorem PlacedAt.later {past : Past} {tree : TemplateTree} {node : Nat} {t : Template}
    (placed : PlacedAt past tree node t) (r : Bytes × NodeId) : PlacedAt (r :: past) tree node t :=
  ⟨placed.direct, placed.entry, List.mem_cons_of_mem _ placed.known, placed.ends⟩

theorem PlacedAt.congr {past : Past} {tree other : TemplateTree} {node : Nat} {t : Template}
    (placed : PlacedAt past tree node t)
    (same : ∀ path, other.descend 0 path = some node ↔ tree.descend 0 path = some node) :
    PlacedAt past other node t :=
  ⟨placed.direct, placed.entry, placed.known, fun path => (same path).trans (placed.ends path)⟩

/-! ## One registration -/

namespace Describes

theorem empty : Describes [] {} where
  compiled := by
    intro pattern member
    cases member
  listed := rfl
  formed := Trie.wellFormed_empty
  placed := by
    intro node t has
    cases has
  latest := by
    intro path
    cases found : Trie.descend (Trie.empty : TemplateTree) 0 path with
    | none => simp [TemplateMapEntry.tree, Trie.valueAt, found]
    | some node =>
        simp only [TemplateMapEntry.tree, Option.getD_none, Trie.valueAt, found, Option.bind_some]
        rfl
  paths := by
    intro path
    cases path with
    | nil => simp [Trie.HasPath, Trie.descend]
    | cons name rest =>
        simp [TemplateMapEntry.tree, Trie.HasPath, Trie.descend, Trie.child, Trie.empty]

variable {past : Past} {entry : TemplateMapEntry} (holds : Describes past entry)

include holds

theorem compiled_cons {r : Bytes × NodeId} (known : r.1 ∈ past.map Prod.fst) :
    ∀ pattern ∈ (r :: past).map Prod.fst, ¬ Apart pattern →
      xpathCompile pattern = some (patternExpr pattern) := by
  intro pattern member ordinary
  rcases List.mem_cons.mp member with rfl | before
  · exact holds.compiled _ known ordinary
  · exact holds.compiled pattern before ordinary

/-- A registration that goes neither into the list nor into the trie. -/
theorem apart {r : Bytes × NodeId} (special : Apart r.1) {after : TemplateMapEntry}
    (sameHead : after.head = entry.head) (sameTree : after.directMatch = entry.directMatch) :
    Describes (r :: past) after := by
  have notListed : ¬ Listed r.1 := fun listed => listed.1 special
  have notDirect : ¬ Direct r.1 := fun direct => direct.1 special
  have tree : after.tree = entry.tree := by
    unfold TemplateMapEntry.tree
    rw [sameTree]
  refine ⟨?_, ?_, tree ▸ holds.formed, ?_, ?_, ?_⟩
  · intro pattern member ordinary
    rcases List.mem_cons.mp member with rfl | known
    · exact absurd special ordinary
    · exact holds.compiled pattern known ordinary
  · rw [sameHead, holds.listed, listedPatterns_of_not_listed notListed]
    apply List.map_congr_left
    intro pattern member
    have listed := (mem_listedPatterns.mp member).1
    exact (listedEntry_cons (fun same => notListed (same ▸ listed)) past).symm
  · intro node t has
    rw [tree] at has ⊢
    exact (holds.placed node t has).later r
  · intro path
    rw [tree, holds.latest, List.find?_cons_of_neg]
    exact decide_eq_false (fun keys : HasKeys path r => notDirect keys.1) ▸ Bool.false_ne_true
  · intro path
    rw [tree, holds.paths]
    simp [notDirect]

/-- A pattern that is not in the table yet is new. -/
theorem fresh {pattern : Bytes} {content : NodeId} (absent : entry.replace pattern content = none) :
    pattern ∉ listedPatterns past := by
  intro member
  have found := replaceContent_map (pattern, content) past _ (listedPatterns_nodup past)
  rw [if_pos member, ← holds.listed] at found
  unfold TemplateMapEntry.replace at absent
  rw [found] at absent
  cases absent

/-- The registration of a pattern that is in the table replaces its content. -/
theorem replaced {r : Bytes × NodeId} {after : TemplateMapEntry}
    (found : entry.replace r.1 r.2 = some after) : Describes (r :: past) after := by
  unfold TemplateMapEntry.replace at found
  rw [holds.listed, replaceContent_map r past _ (listedPatterns_nodup past)] at found
  by_cases member : r.1 ∈ listedPatterns past
  · -- The pattern is in the list.
    rw [if_pos member] at found
    cases found
    have listed := (mem_listedPatterns.mp member).1
    have same : listedPatterns (r :: past) = listedPatterns past := if_neg fun new => new.2 member
    refine ⟨?_, by rw [same], holds.formed, ?_, ?_, ?_⟩
    · exact holds.compiled_cons (mem_listedPatterns.mp member).2
    · intro node t has
      exact (holds.placed node t has).later r
    · intro path
      rw [List.find?_cons_of_neg (by simp [HasKeys, listed.not_direct])]
      exact holds.latest path
    · intro path
      refine (holds.paths path).trans ?_
      simp [listed.not_direct]
  · -- The pattern is in the trie.
    rw [if_neg member] at found
    simp only [bind, Option.bind_eq_some_iff] at found
    rcases found with ⟨tree, isTree, ⟨node, t⟩, there, same⟩
    cases same
    have sameTree : entry.tree = tree := by
      unfold TemplateMapEntry.tree
      rw [isTree, Option.getD_some]
    have formed := sameTree ▸ holds.formed
    have matching : t.matchString = r.1 := by
      simpa using List.find?_some there
    have value := (mem_treeTemplates formed).mp (List.mem_of_find?_eq_some there)
    have placed := sameTree ▸ holds.placed node t (sameTree ▸ value)
    have inside : node < tree.size := by
      refine Nat.lt_of_not_le fun beyond => ?_
      rw [formed.blank node beyond] at value
      cases value
    have direct : Direct r.1 := matching ▸ placed.direct
    have notListed : ¬ Listed r.1 := fun listed => listed.not_direct direct
    have updated : { t with content := r.2 } = directEntry r := by
      rw [placed.entry]
      simp only [directEntry, matching]
    refine ⟨?_, ?_, ?_, ?_, ?_, ?_⟩
    · exact holds.compiled_cons (matching ▸ placed.known)
    · rw [listedPatterns_of_not_listed notListed]
      refine List.map_congr_left fun pattern inList => ?_
      exact (listedEntry_cons (fun same => member (same ▸ inList)) past).symm
    · exact Trie.setValue_wellFormed formed inside _
    · intro other t' has
      simp only [TemplateMapEntry.tree, Option.getD_some, updated] at has ⊢
      have paths (path : List Bytes) := tree.setValue_descend node (directEntry r) 0 path
      by_cases same : other = node
      · subst same
        rw [Trie.setValue, Arena.modify_get_same] at has
        cases has
        refine ⟨direct, rfl, List.mem_cons_self, fun path => ?_⟩
        rw [paths, placed.ends, matching]
        rfl
      · rw [Trie.setValue, Arena.modify_get_of_ne _ _ same] at has
        have old := sameTree ▸ holds.placed other t' (sameTree ▸ has)
        exact (old.later r).congr fun path => by rw [paths]
    · intro path
      simp only [TemplateMapEntry.tree, Option.getD_some, updated]
      rw [Trie.setValue_valueAt, ← sameTree, holds.latest, List.find?_cons, sameTree]
      by_cases here : HasKeys path r
      · rw [if_pos ((placed.ends path).mpr (matching ▸ here.2.symm)), decide_eq_true here]
        rfl
      · have elsewhere : ¬ tree.descend 0 path = some node := fun reached =>
          here ⟨direct, matching ▸ ((placed.ends path).mp reached).symm⟩
        rw [if_neg elsewhere, decide_eq_false here]
    · intro path
      simp only [TemplateMapEntry.tree, Option.getD_some]
      unfold Trie.HasPath
      rw [Trie.setValue_descend, ← sameTree]
      refine (holds.paths path).trans (or_congr_right ?_)
      constructor
      · rintro ⟨other, known, rest⟩
        exact ⟨other, List.mem_cons_of_mem _ known, rest⟩
      · rintro ⟨other, known, directOther, onWay⟩
        rcases List.mem_cons.mp known with rfl | before
        · rcases List.mem_map.mp placed.known with ⟨first, isKnown, same⟩
          refine ⟨first, isKnown, ?_, ?_⟩
          · rwa [same, matching]
          · rwa [same, matching]
        · exact ⟨other, before, directOther, onWay⟩

/-- The registration of a new pattern. -/
theorem added {r : Bytes × NodeId} (absent : entry.replace r.1 r.2 = none)
    (ordinary : ¬ Apart r.1) (compiled : xpathCompile r.1 = some (patternExpr r.1)) :
    Describes (r :: past) (entry.add r.1 r.2 (patternExpr r.1)) := by
  unfold TemplateMapEntry.add
  have compiled_cons : ∀ pattern ∈ (r :: past).map Prod.fst, ¬ Apart pattern →
      xpathCompile pattern = some (patternExpr pattern) := by
    intro pattern member usual
    rcases List.mem_cons.mp member with rfl | known
    · exact compiled
    · exact holds.compiled pattern known usual
  by_cases direct : isDirectMatch (patternExpr r.1) = true
  · rw [if_pos direct]
    have isDirect : Direct r.1 := ⟨ordinary, direct⟩
    have notListed : ¬ Listed r.1 := fun listed => listed.not_direct isDirect
    refine ⟨compiled_cons, ?_, ?_, ?_, ?_, ?_⟩
    · rw [listedPatterns_of_not_listed notListed]
      refine holds.listed.trans (List.map_congr_left fun pattern inList => ?_)
      have listed := (mem_listedPatterns.mp inList).1
      exact (listedEntry_cons (fun same => notListed (same ▸ listed)) past).symm
    · exact Trie.insert_wellFormed holds.formed _ _
    · intro node t has
      rcases Trie.insert_node holds.formed _ _ has with ⟨rfl, ends⟩ | ⟨old, paths⟩
      · exact ⟨isDirect, rfl, List.mem_cons_self, ends⟩
      · exact ((holds.placed node t old).later r).congr paths
    · intro path
      refine (Trie.valueAt_insert holds.formed _ _ path).trans ?_
      rw [List.find?_cons]
      by_cases here : path.map some = directKeys (patternExpr r.1)
      · have keys : HasKeys path r := ⟨isDirect, here.symm⟩
        rw [if_pos here, decide_eq_true keys]
        rfl
      · have other : ¬ HasKeys path r := fun keys => here keys.2.symm
        rw [if_neg here, decide_eq_false other]
        exact holds.latest path
    · intro path
      refine (Trie.hasPath_insert holds.formed _ _ path).trans ?_
      rw [holds.paths path]
      rw [or_assoc]
      refine or_congr_right ?_
      constructor
      · rintro (⟨other, known, rest⟩ | onWay)
        · exact ⟨other, List.mem_cons_of_mem _ known, rest⟩
        · exact ⟨r, List.mem_cons_self, isDirect, onWay⟩
      · rintro ⟨other, known, rest⟩
        rcases List.mem_cons.mp known with rfl | before
        · exact .inr rest.2
        · exact .inl ⟨other, before, rest⟩
  · rw [if_neg direct]
    have listed : Listed r.1 := ⟨ordinary, direct⟩
    have new := holds.fresh absent
    have patterns : listedPatterns (r :: past) = r.1 :: listedPatterns past := if_pos ⟨listed, new⟩
    refine ⟨compiled_cons, ?_, holds.formed, ?_, ?_, ?_⟩
    · rw [patterns, List.map_cons]
      rw [listedEntry_self]
      refine congrArg _ (holds.listed.trans (List.map_congr_left fun pattern inList => ?_))
      exact (listedEntry_cons (fun same => new (same ▸ inList)) past).symm
    · intro node t has
      exact (holds.placed node t has).later r
    · intro path
      rw [List.find?_cons_of_neg (by simp [HasKeys, listed.not_direct])]
      exact holds.latest path
    · intro path
      refine (holds.paths path).trans ?_
      simp [listed.not_direct]

end Describes

/-! ## Runs -/

/-- The registrations of a mode, the latest first, behind those in `past`. -/
def registered (mode : Option Bytes) : Heap → List Registration → Past → Past
  | _, [], past => past
  | heap, r :: rest, past =>
      let (heap, content) := givenContent heap r.content
      registered mode heap rest
        (if r.mode = mode then (trim r.templMatch, content) :: past else past)

/-- Every expression in the dictionary is that of its key. -/
def Faithful (expressions : List (Bytes × Expr)) : Prop :=
  ∀ key compiled, expressions.lookup key = some compiled → xpathCompile key = some compiled

/-- A pattern short enough to be a key of the dictionary as it is. -/
def Short (pattern : Bytes) : Prop := pattern.length < 2 ^ 16

theorem xpathFindExpr_of_short {expressions later : List (Bytes × Expr)} {pattern : Bytes}
    {found : Expr} (faithful : Faithful expressions) (short : Short pattern)
    (searched : xpathFindExpr expressions pattern = some (found, later)) :
    xpathCompile pattern = some found ∧ Faithful later := by
  have key : dictionaryKey pattern = pattern := by
    unfold dictionaryKey
    rw [Nat.mod_eq_of_lt short, List.take_length]
  unfold xpathFindExpr at searched
  rw [key] at searched
  cases cached : expressions.lookup pattern with
  | none =>
      simp only [cached, Option.getD_none, ne_eq, not_true_eq_false, if_false, bind,
        Option.bind_eq_some_iff, Option.isSome_none, Bool.false_eq_true, Option.some.injEq,
        Prod.mk.injEq] at searched
      rcases searched with ⟨compiled, ok, rfl, rfl⟩
      refine ⟨ok, ?_⟩
      intro other expr holds
      rw [List.lookup_cons] at holds
      by_cases same : other = pattern
      · subst same
        rw [beq_self_eq_true] at holds
        cases holds
        exact ok
      · rw [beq_eq_false_iff_ne.mpr same] at holds
        exact faithful other expr holds
  | some expr =>
      have ok := faithful pattern expr cached
      by_cases null : expr = .null
      · simp only [cached, Option.getD_some, ne_eq, null, not_true_eq_false, if_false, bind,
          Option.bind_eq_some_iff, Option.isSome_some, if_true, Option.some.injEq,
          Prod.mk.injEq] at searched
        rcases searched with ⟨compiled, again, rfl, rfl⟩
        exact ⟨again, faithful⟩
      · simp only [cached, Option.getD_some, ne_eq, null, not_false_eq_true, if_true,
          Option.some.injEq, Prod.mk.injEq] at searched
        rcases searched with ⟨rfl, rfl⟩
        exact ⟨ok, faithful⟩

/-- What one call of `add_templ_match` does to the table of a mode and to
the dictionary. -/
theorem addTemplMatch_describes {pctx after : TransformContext} {r : Registration}
    {mode : Option Bytes} {past : Past}
    (added : addTemplMatch pctx r.content r.templMatch r.mode = some after)
    (faithful : Faithful pctx.expressions) (short : Short (trim r.templMatch))
    (holds : Describes past ((pctx.templates mode).getD {})) :
    Faithful after.expressions ∧ after.heap = (givenContent pctx.heap r.content).1 ∧
      Describes (if r.mode = mode
          then (trim r.templMatch, (givenContent pctx.heap r.content).2) :: past else past)
        ((after.templates mode).getD {}) := by
  -- Another mode has another entry; in the mode of the call its own entry is stored.
  have stored {entry : TemplateMapEntry} (kept : r.mode = mode → Describes
      ((trim r.templMatch, (givenContent pctx.heap r.content).2) :: past) entry) :
      Describes (if r.mode = mode
          then (trim r.templMatch, (givenContent pctx.heap r.content).2) :: past else past)
        (((Function.update pctx.templates r.mode (some entry)) mode).getD {}) := by
    by_cases same : r.mode = mode
    · rw [if_pos same, same, Function.update_self]
      exact kept same
    · rw [if_neg same, Function.update_of_ne (Ne.symm same)]
      exact holds
  unfold addTemplMatch at added
  generalize givenContent pctx.heap r.content = given at added stored ⊢
  rcases given with ⟨heap, content⟩
  simp only at added stored ⊢
  cases replaced : ((pctx.templates r.mode).getD {}).replace (trim r.templMatch) content with
  | some entry =>
      rw [replaced] at added
      cases added
      refine ⟨faithful, rfl, stored ?_⟩
      intro same
      subst same
      exact holds.replaced replaced
  | none =>
      rw [replaced] at added
      by_cases slash : trim r.templMatch = lit "/"
      · simp only [if_pos slash, Option.some.injEq] at added
        subst added
        refine ⟨faithful, rfl, stored ?_⟩
        intro same
        subst same
        exact holds.apart (.inl slash) rfl rfl
      · by_cases star : trim r.templMatch = lit "*"
        · simp only [if_neg slash, if_pos star, Option.some.injEq] at added
          subst added
          refine ⟨faithful, rfl, stored ?_⟩
          intro same
          subst same
          exact holds.apart (.inr star) rfl rfl
        · simp only [if_neg slash, if_neg star, bind, Option.bind_eq_some_iff,
            Option.some.injEq] at added
          rcases added with ⟨⟨expression, expressions⟩, searched, rfl⟩
          have found := xpathFindExpr_of_short faithful short searched
          have expr : patternExpr (trim r.templMatch) = expression := by
            unfold patternExpr
            rw [found.1, Option.getD_some]
          refine ⟨found.2, rfl, stored ?_⟩
          intro same
          subst same
          exact expr ▸ holds.added replaced (not_or.mpr ⟨slash, star⟩) (expr ▸ found.1)

theorem registerAll_describes {pctx after : TransformContext} {registrations : List Registration}
    {mode : Option Bytes} {past : Past} (run : registerAll pctx registrations = some after)
    (faithful : Faithful pctx.expressions)
    (short : ∀ r ∈ registrations, Short (trim r.templMatch))
    (holds : Describes past ((pctx.templates mode).getD {})) :
    Describes (registered mode pctx.heap registrations past) ((after.templates mode).getD {}) := by
  induction registrations generalizing pctx past with
  | nil =>
      cases run
      exact holds
  | cons r rest inductionHypothesis =>
      simp only [registerAll, List.foldlM_cons, bind, Option.bind_eq_some_iff] at run
      rcases run with ⟨middle, first, later⟩
      rcases addTemplMatch_describes first faithful (short r List.mem_cons_self) holds with
        ⟨faithful', heap, holds'⟩
      have whole := inductionHypothesis later faithful'
        (fun r member => short r (List.mem_cons_of_mem _ member)) holds'
      rwa [heap] at whole

/-- The table of a mode after a run from the beginning. -/
theorem create_describes {heap : Heap} {after : TransformContext}
    {registrations : List Registration} {mode : Option Bytes} {entry : TemplateMapEntry}
    (run : registerAll (.create heap) registrations = some after)
    (short : ∀ r ∈ registrations, Short (trim r.templMatch))
    (found : after.templates mode = some entry) :
    Describes (registered mode heap registrations []) entry := by
  have initial : Describes [] (((TransformContext.create heap).templates mode).getD {}) := by
    cases mode <;> exact .empty
  have faithful : Faithful (TransformContext.create heap).expressions := by
    intro key compiled holds
    cases holds
  have whole := registerAll_describes run faithful short initial
  rwa [found, Option.getD_some] at whole

/-- The patterns registered in a mode. -/
theorem mem_registered {mode : Option Bytes} {heap : Heap} {registrations : List Registration}
    {past : Past} {pattern : Bytes} :
    pattern ∈ (registered mode heap registrations past).map Prod.fst ↔
      (Exists fun r => r ∈ registrations ∧ r.mode = mode ∧ trim r.templMatch = pattern) ∨
        pattern ∈ past.map Prod.fst := by
  induction registrations generalizing heap past with
  | nil => simp [registered]
  | cons r rest inductionHypothesis =>
      unfold registered
      rw [inductionHypothesis]
      by_cases same : r.mode = mode
      · simp [same, or_and_right, exists_or, or_assoc, or_left_comm, eq_comm]
      · simp [same]

end TurboXSL
