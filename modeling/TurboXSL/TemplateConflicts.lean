import TurboXSL.Library.BubbleSort
import TurboXSL.TemplateSoundness

namespace TurboXSL

open Library

/-!
# Which of several registrations applies

Among the patterns of greatest weight that a node satisfies, the search keeps
to the trie, and in the list to the pattern that was registered first of all
last: a pattern registered again gets the new content where it stands.
-/

section Search

variable {Num : Type} [Double Num] {env : Env Num} {depth : Nat} {heap : Heap} {node : NodeId}

/-- A loop over the list that returns has asked every template. -/
theorem listedTemplate_answers {result out : Option Template} {expressionWeight : Nat}
    {templates : List Template}
    (returns : listedTemplate env depth heap node result expressionWeight templates = some out) :
    ∀ t ∈ templates, (selectMatch env depth heap t.expr (some node)).isSome := by
  induction templates generalizing result expressionWeight with
  | nil =>
      intro t member
      cases member
  | cons first rest inductionHypothesis =>
      simp only [listedTemplate, bind, Option.bind_eq_some_iff] at returns
      rcases returns with ⟨answer, asked, returns⟩
      intro t member
      rcases List.mem_cons.mp member with rfl | later
      · exact Option.isSome_of_eq_some asked
      · split at returns
        · exact inductionHypothesis returns t later
        · exact inductionHypothesis returns t later

/-- The loop keeps what it has, or is left with the first of the heaviest
templates that match. -/
theorem listedTemplate_spec (result : Option Template) (expressionWeight : Nat)
    {templates : List Template}
    (answers : ∀ t ∈ templates, (selectMatch env depth heap t.expr (some node)).isSome) :
    (listedTemplate env depth heap node result expressionWeight templates = some result ∧
        ∀ t ∈ templates, selectMatch env depth heap t.expr (some node) = some true →
          t.expressionWeight ≤ expressionWeight) ∨
      Exists fun front => Exists fun t => Exists fun back => templates = front ++ t :: back ∧
        listedTemplate env depth heap node result expressionWeight templates = some (some t) ∧
        selectMatch env depth heap t.expr (some node) = some true ∧
        expressionWeight < t.expressionWeight ∧
        (∀ other ∈ front, selectMatch env depth heap other.expr (some node) = some true →
          other.expressionWeight < t.expressionWeight) ∧
        ∀ other ∈ back, selectMatch env depth heap other.expr (some node) = some true →
          other.expressionWeight ≤ t.expressionWeight := by
  induction templates generalizing result expressionWeight with
  | nil =>
      refine .inl ⟨rfl, ?_⟩
      intro t member
      cases member
  | cons first rest inductionHypothesis =>
      rcases Option.isSome_iff_exists.mp (answers first List.mem_cons_self) with ⟨answer, asked⟩
      have later : ∀ t ∈ rest, (selectMatch env depth heap t.expr (some node)).isSome :=
        fun t member => answers t (List.mem_cons_of_mem _ member)
      have step : listedTemplate env depth heap node result expressionWeight (first :: rest) =
          if answer = true ∧ expressionWeight < first.expressionWeight
            then listedTemplate env depth heap node (some first) first.expressionWeight rest
            else listedTemplate env depth heap node result expressionWeight rest := by
        rw [listedTemplate, asked]
        rfl
      by_cases better : answer = true ∧ expressionWeight < first.expressionWeight
      · rw [step, if_pos better]
        rcases inductionHypothesis (some first) first.expressionWeight later with
          ⟨kept, lighter⟩ | ⟨front, t, back, rfl, left, matching, heavier, before, behind⟩
        · refine .inr ⟨[], first, rest, rfl, kept, better.1 ▸ asked, better.2, ?_, lighter⟩
          intro other member
          cases member
        · refine .inr ⟨first :: front, t, back, rfl, left, matching, better.2.trans heavier, ?_,
            behind⟩
          intro other member otherMatches
          rcases List.mem_cons.mp member with rfl | inFront
          · exact heavier
          · exact before other inFront otherMatches
      · rw [step, if_neg better]
        have light : selectMatch env depth heap first.expr (some node) = some true →
            first.expressionWeight ≤ expressionWeight := by
          intro matching
          refine Nat.not_lt.mp fun heavier => better ⟨?_, heavier⟩
          exact Option.some.inj (asked.symm.trans matching)
        rcases inductionHypothesis result expressionWeight later with
          ⟨kept, lighter⟩ | ⟨front, t, back, rfl, left, matching, heavier, before, behind⟩
        · refine .inl ⟨kept, ?_⟩
          intro t member matching
          rcases List.mem_cons.mp member with rfl | inRest
          · exact light matching
          · exact lighter t inRest matching
        · refine .inr ⟨first :: front, t, back, rfl, left, matching, heavier, ?_, behind⟩
          intro other member otherMatches
          rcases List.mem_cons.mp member with rfl | inFront
          · exact (light otherMatches).trans_lt heavier
          · exact before other inFront otherMatches

end Search

/-! ## The registration that applies -/

section Conflicts

variable {Num : Type} [Double Num] (env : Env Num) (depth : Nat) (document : Heap) (node : NodeId)
  (past : Past)

/-- A registered pattern that the node satisfies; `/` and `*` are not among
those that `find_select_template` chooses from. -/
def Contends (pattern : Bytes) : Prop :=
  pattern ∈ past.map Prod.fst ∧ ¬ Apart pattern ∧
    selectMatch env depth document (patternExpr pattern) (some node) = some true

def Heaviest (pattern : Bytes) : Prop :=
  Contends env depth document node past pattern ∧
    ∀ other, Contends env depth document node past other →
      patternWeight other ≤ patternWeight pattern

/-- The latest registration of one of the heaviest patterns that match. -/
def LatestOfHeaviest (r : Bytes × NodeId) : Prop :=
  Heaviest env depth document node past r.1 ∧
    Exists fun later => Exists fun earlier => past = later ++ r :: earlier ∧
      ∀ other ∈ later, ¬ Heaviest env depth document node past other.1

/-- The longest path of names that the node shares with a pattern of the trie. -/
def LongestShared (line : List NodeId) (path : List Bytes) : Prop :=
  let shared (path : List Bytes) : Prop := path.map some <+: lineKeys document env.rootNode line ∧
    (path = [] ∨ Exists fun r => r ∈ past ∧ Direct r.1 ∧ path.map some <+: patternKeys r.1)
  shared path ∧ ∀ other, shared other → other.length ≤ path.length

/-- The registration stands where the search looks first.  One in the trie is
the latest for the longest path that the node shares with the trie.  In the
list, no heaviest pattern stands before that of the registration, which is to
say that none was first registered after it, and what the trie has for the
longest path, if anything, is lighter. -/
def InFront (line : List NodeId) (r : Bytes × NodeId) : Prop :=
  (∀ pattern ∈ listedPatterns past,
    (selectMatch env depth document (patternExpr pattern) (some node)).isSome) ∧
  if Direct r.1 then
    Exists fun path => LongestShared env document past line path ∧
      past.find? (fun r => HasKeys path r) = some r
  else
    (∀ pattern, [pattern, r.1].Sublist (listedPatterns past) →
      ¬ Heaviest env depth document node past pattern) ∧
    ∀ path other, LongestShared env document past line path →
      past.find? (fun r => HasKeys path r) = some other → patternWeight other.1 < patternWeight r.1

/-- The template that is found is that of the registration. -/
def Applies (entry : TemplateMapEntry) (r : Bytes × NodeId) : Prop :=
  Exists fun t => findSelectTemplate env depth document node entry = some (some t) ∧
    (t.matchString, t.content) = r

variable {env depth document node past} {line : List NodeId}

omit [Double Num] in
theorem LongestShared.unique {path other : List Bytes}
    (longest : LongestShared env document past line path)
    (otherLongest : LongestShared env document past line other) : path = other := by
  have equal := Nat.le_antisymm (otherLongest.2 path longest.1) (longest.2 other otherLongest.1)
  have within := List.prefix_of_prefix_length_le longest.1.1 otherLongest.1.1
    (by rw [List.length_map, List.length_map, equal])
  have same := within.eq_of_length (by rw [List.length_map, List.length_map, equal])
  exact List.map_injective_iff.mpr (Option.some_injective _) same

omit [Double Num] in
theorem Listed.weight_pos {pattern : Bytes} (listed : Listed pattern) : 0 < patternWeight pattern := by
  unfold patternWeight
  refine List.length_pos_iff.mpr fun none_ => listed.2 ?_
  unfold isDirectMatch
  rw [none_]
  rfl

/-- The latest registration of a heaviest pattern gives its present content. -/
theorem LatestOfHeaviest.lookup {r : Bytes × NodeId}
    (latest : LatestOfHeaviest env depth document node past r) : past.lookup r.1 = some r.2 := by
  rcases latest with ⟨heaviest, later, earlier, whole, none_⟩
  refine List.lookup_eq_some_iff.mpr ⟨later, earlier, whole, ?_⟩
  intro other member
  refine bne_iff_ne.mpr fun same => none_ other member ?_
  exact same ▸ heaviest

theorem LatestOfHeaviest.mem {r : Bytes × NodeId}
    (latest : LatestOfHeaviest env depth document node past r) : r ∈ past := by
  rcases latest with ⟨_, later, earlier, rfl, _⟩
  exact List.mem_append_right later List.mem_cons_self

theorem Contends.of_listed {pattern : Bytes} (member : pattern ∈ listedPatterns past)
    (matching : selectMatch env depth document (patternExpr pattern) (some node) = some true) :
    Contends env depth document node past pattern :=
  have listed := mem_listedPatterns.mp member
  ⟨listed.2, listed.1.1, matching⟩

/-- The two ways in which the search ends, by the registrations. -/
theorem Describes.search_cases {entry : TemplateMapEntry} (holds : Describes past entry)
    (lineage : Lineage document env.rootNode node line)
    (answers : ∀ pattern ∈ listedPatterns past,
      (selectMatch env depth document (patternExpr pattern) (some node)).isSome) :
    Exists fun path => LongestShared env document past line path ∧
      let direct := past.find? fun r => HasKeys path r
      let weight := (direct.map fun r => patternWeight r.1).getD 0
      (findSelectTemplate env depth document node entry = some (direct.map directEntry) ∧
          ∀ pattern ∈ listedPatterns past, Contends env depth document node past pattern →
            patternWeight pattern ≤ weight) ∨
        Exists fun pattern => pattern ∈ listedPatterns past ∧
          findSelectTemplate env depth document node entry =
            some (some (listedEntry past pattern)) ∧
          Contends env depth document node past pattern ∧ weight < patternWeight pattern ∧
          ∀ other ∈ listedPatterns past, Contends env depth document node past other →
            patternWeight other ≤ patternWeight pattern ∧
              ([other, pattern].Sublist (listedPatterns past) →
                patternWeight other < patternWeight pattern) := by
  rcases @findSelectTemplate_eq _ _ env depth _ _ _ lineage entry with
    ⟨path, found, agree, there, longest⟩
  refine ⟨path, ⟨⟨agree, (holds.paths path).mp there⟩, ?_⟩, ?_⟩
  · intro other shared
    exact longest other shared.1 ((holds.paths other).mpr shared.2)
  have weight : ((entry.tree.valueAt path).map Template.expressionWeight).getD 0 =
      ((past.find? fun r => HasKeys path r).map fun r => patternWeight r.1).getD 0 := by
    rw [holds.latest, Option.map_map]
    rfl
  have asked : ∀ t ∈ entry.head, (selectMatch env depth document t.expr (some node)).isSome := by
    intro t member
    rw [holds.listed] at member
    rcases List.mem_map.mp member with ⟨pattern, inList, rfl⟩
    exact answers pattern inList
  rw [found]
  rcases listedTemplate_spec (entry.tree.valueAt path)
      (((entry.tree.valueAt path).map Template.expressionWeight).getD 0) asked with
    ⟨kept, lighter⟩ | ⟨front, t, back, whole, left, matching, heavier, before, behind⟩
  · refine .inl ⟨?_, ?_⟩
    · rw [kept, holds.latest]
    · intro pattern member contends
      rw [← weight]
      refine lighter (listedEntry past pattern) ?_ contends.2.2
      rw [holds.listed]
      exact List.mem_map_of_mem member
  · rw [holds.listed] at whole
    rcases List.map_eq_append_iff.mp whole with ⟨earlier, others, split_, isFront, rest⟩
    rcases List.map_eq_cons_iff.mp rest with ⟨pattern, later, rfl, rfl, isBack⟩
    have member : pattern ∈ listedPatterns past := by
      rw [split_]
      exact List.mem_append_right _ List.mem_cons_self
    refine .inr ⟨pattern, member, left, .of_listed member matching, weight ▸ heavier, ?_⟩
    intro other otherMember contends
    have distinct := listedPatterns_nodup past
    have entryOf {patterns : List Bytes} (inside : other ∈ patterns) :
        listedEntry past other ∈ patterns.map (listedEntry past) := List.mem_map_of_mem inside
    rw [split_] at otherMember distinct ⊢
    rcases List.mem_append.mp otherMember with inFront | inRest
    · have lighter := before (listedEntry past other) (isFront ▸ entryOf inFront) contends.2.2
      exact ⟨Nat.le_of_lt lighter, fun _ => lighter⟩
    · rcases List.mem_cons.mp inRest with rfl | inBack
      · exact ⟨Nat.le_refl _, fun twice => absurd rfl (before_ne distinct twice)⟩
      · refine ⟨behind (listedEntry past other) (isBack ▸ entryOf inBack) contends.2.2, ?_⟩
        intro first
        have second : [pattern, other].Sublist (earlier ++ pattern :: later) :=
          ((List.singleton_sublist.mpr inBack).cons_cons pattern).trans
            (List.sublist_append_right _ _)
        exact absurd first (before_asymm distinct second)

theorem Describes.applies_iff {entry : TemplateMapEntry} (holds : Describes past entry)
    (lineage : Lineage document env.rootNode node line) {r : Bytes × NodeId}
    (latest : LatestOfHeaviest env depth document node past r) :
    Applies env depth document node entry r ↔ InFront env depth document node past line r := by
  have ordinary := latest.1.1.2.1
  have listedOf (notDirect : ¬ Direct r.1) : Listed r.1 :=
    ⟨ordinary, fun direct => notDirect ⟨ordinary, direct⟩⟩
  have inList (notDirect : ¬ Direct r.1) : r.1 ∈ listedPatterns past :=
    mem_listedPatterns.mpr ⟨listedOf notDirect, latest.1.1.1⟩
  constructor
  · rintro ⟨t, found, same⟩
    have answers : ∀ pattern ∈ listedPatterns past,
        (selectMatch env depth document (patternExpr pattern) (some node)).isSome := by
      rcases @findSelectTemplate_eq _ _ env depth _ _ _ lineage entry with ⟨_, whole, _⟩
      intro pattern member
      refine listedTemplate_answers (whole.symm.trans found) (listedEntry past pattern) ?_
      rw [holds.listed]
      exact List.mem_map_of_mem member
    refine ⟨answers, ?_⟩
    rcases holds.search_cases lineage answers with ⟨path, longest, ⟨kept, _⟩ | chosen⟩
    · have direct := Option.some.inj (kept.symm.trans found)
      rcases Option.map_eq_some_iff.mp direct with ⟨first, isFirst, rfl⟩
      have same : first = r := same
      subst same
      have keys : HasKeys path first := by simpa using List.find?_some isFirst
      rw [if_pos keys.1]
      exact ⟨path, longest, isFirst⟩
    · rcases chosen with ⟨pattern, member, left, _, heavier, others⟩
      have isEntry := Option.some.inj (Option.some.inj (left.symm.trans found))
      have same : pattern = r.1 := by
        rw [← same, ← isEntry]
        rfl
      subst same
      rw [if_neg (mem_listedPatterns.mp member).1.not_direct]
      refine ⟨?_, ?_⟩
      · intro other first heaviest
        have lighter := (others other (before_mem first).1 heaviest.1).2 first
        exact Nat.not_lt.mpr (heaviest.2 _ latest.1.1) lighter
      · intro otherPath other otherLongest isFirst
        rw [longest.unique otherLongest, isFirst] at heavier
        exact heavier
  · rintro ⟨answers, inFront⟩
    rcases holds.search_cases lineage answers with ⟨path, longest, ⟨kept, lighter⟩ | chosen⟩
    · split at inFront
      next direct =>
        rcases inFront with ⟨otherPath, otherLongest, isFirst⟩
        rw [longest.unique otherLongest, isFirst] at kept
        exact ⟨directEntry r, kept, rfl⟩
      next notDirect =>
        -- A pattern of the list that matches is heavier than what the trie has.
        have light := lighter r.1 (inList notDirect) latest.1.1
        cases isFirst : past.find? (fun r => HasKeys path r) with
        | none =>
            rw [isFirst] at light
            exact absurd (listedOf notDirect).weight_pos (Nat.not_lt.mpr light)
        | some first =>
            rw [isFirst] at light
            exact absurd (inFront.2 path first longest isFirst) (Nat.not_lt.mpr light)
    · rcases chosen with ⟨pattern, member, left, contends, heavier, others⟩
      have notLighter := latest.1.2 pattern contends
      split at inFront
      next direct =>
        rcases inFront with ⟨otherPath, otherLongest, isFirst⟩
        rw [longest.unique otherLongest, isFirst] at heavier
        exact absurd notLighter (Nat.not_le.mpr heavier)
      next notDirect =>
        have weigh := others r.1 (inList notDirect) latest.1.1
        have same : pattern = r.1 := by
          by_contra apart
          rcases before_or_after member (inList notDirect) apart with first | second
          · refine inFront.1 pattern first ⟨contends, fun other otherContends => ?_⟩
            exact (latest.1.2 other otherContends).trans weigh.1
          · exact Nat.not_lt.mpr notLighter (weigh.2 second)
        subst same
        refine ⟨_, left, ?_⟩
        change (r.1, (past.lookup r.1).getD 0) = r
        rw [latest.lookup, Option.getD_some]

end Conflicts

/-- After any run of registrations, the template found is that of the latest
registration among the heaviest patterns that match exactly when this
registration stands where the search looks first. -/
theorem latest_registration_applies_iff {Num : Type} [Double Num] (env : Env Num) (depth : Nat)
    {memory : Heap} {registrations : List Registration} {pctx : TransformContext}
    (run : registerAll (.create memory) registrations = some pctx)
    (short : ∀ r ∈ registrations, Short (trim r.templMatch))
    {mode : Option Bytes} {entry : TemplateMapEntry} (found : pctx.templates mode = some entry)
    {document : Heap} {node : NodeId} {line : List NodeId}
    (lineage : Lineage document env.rootNode node line) {r : Bytes × NodeId}
    (latest : LatestOfHeaviest env depth document node (registered mode memory registrations []) r) :
    Applies env depth document node entry r ↔
      InFront env depth document node (registered mode memory registrations []) line r :=
  (create_describes run short found).applies_iff lineage latest

/-- `b[1]` is registered again behind `b[1 = 1]`, which is as heavy and keeps
its place before it. -/
theorem registered_again_keeps_its_place :
    selectAfter [⟨some 7, lit "b[1]", none⟩, ⟨some 8, lit "b[1 = 1]", none⟩,
        ⟨some 9, lit "b[1]", none⟩] nestedDocument 2 =
      some (some ⟨lit "b[1 = 1]", patternExpr (lit "b[1 = 1]"), 3, 8⟩) ∧
    registered none .empty [⟨some 7, lit "b[1]", none⟩, ⟨some 8, lit "b[1 = 1]", none⟩,
        ⟨some 9, lit "b[1]", none⟩] [] =
      [(lit "b[1]", 9), (lit "b[1 = 1]", 8), (lit "b[1]", 7)] ∧
    (∀ pattern ∈ [lit "b[1]", lit "b[1 = 1]"],
      xpathCompile pattern = some (patternExpr pattern) ∧ patternWeight pattern = 3 ∧
      selectMatch (Env.bare Int 0) 0 nestedDocument (patternExpr pattern) (some 2) = some true) ∧
    Lineage nestedDocument 0 2 [2, 1] := by
  refine ⟨by decide, by decide, ?_, nestedDocument_lineage⟩
  intro pattern member
  simp only [List.mem_cons, List.not_mem_nil, or_false] at member
  rcases member with rfl | rfl
  · exact ⟨by decide, by decide, by decide⟩
  · exact ⟨by decide, by decide, by decide⟩

/-- A run with `b[1]` and `b[1 = 1]`, of which the latter applies. -/
theorem latest_registration_applies_iff_nested :
    Exists fun entry =>
      Applies (Env.bare Int 0) 0 nestedDocument 2 entry (lit "b[1 = 1]", 8) ↔
        InFront (Env.bare Int 0) 0 nestedDocument 2 [(lit "b[1 = 1]", 8), (lit "b[1]", 7)] [2, 1]
          (lit "b[1 = 1]", 8) := by
  have selected : selectAfter [⟨some 7, lit "b[1]", none⟩, ⟨some 8, lit "b[1 = 1]", none⟩]
      nestedDocument 2 =
      some (some ⟨lit "b[1 = 1]", patternExpr (lit "b[1 = 1]"), 3, 8⟩) := by decide
  simp only [selectAfter, bind, Option.bind_eq_some_iff] at selected
  rcases selected with ⟨pctx, run, entry, found, _⟩
  refine ⟨entry, latest_registration_applies_iff (Env.bare Int 0) 0 run ?_ found
    nestedDocument_lineage ⟨⟨⟨by decide, by decide, by decide⟩, ?_⟩, [], [(lit "b[1]", 7)], rfl, ?_⟩⟩
  · intro r member
    simp only [List.mem_cons, List.not_mem_nil, or_false] at member
    unfold Short
    rcases member with rfl | rfl <;> decide
  · intro other contends
    have known : other ∈ [lit "b[1 = 1]", lit "b[1]"] := contends.1
    simp only [List.mem_cons, List.not_mem_nil, or_false] at known
    rcases known with rfl | rfl <;> decide
  · intro other member
    cases member

end TurboXSL
