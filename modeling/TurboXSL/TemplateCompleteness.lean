import TurboXSL.PathSyntax
import TurboXSL.TemplateSoundness

namespace TurboXSL

open Library

/-!
# Templates that are not found

Patterns that are paths of element names all go into the trie, and the walk
upwards stops at the deepest node it can reach.  Nothing is remembered of the
templates on the way there, so that a longer pattern hides a shorter one from
every node whose names agree with it beyond the shorter one's end.
-/

/-! ## Paths of element names -/

/-- Patterns that are paths of element names, with the names from the last to
the first. -/
inductive NamePath (rooted : Bool) : Bytes → List Bytes → Prop where
  | first (name : Bytes) (valid : IsName name) :
      NamePath rooted ((if rooted then slash else []) ++ name) [name]
  | step {text : Bytes} {names : List Bytes} (path : NamePath rooted text names) (name : Bytes)
      (valid : IsName name) : NamePath rooted (text ++ slash ++ name) (name :: names)

/-- The tree of steps by these names. -/
def namesTree (rooted : Bool) : List Bytes → Expr
  | [] => .leaf { type := if rooted then .root else .context }
  | name :: names => (Step.named name).attach (namesTree rooted names)

/-- What the trie keeps of the place at which a path starts. -/
def anchorKeys (rooted : Bool) : List (Option Bytes) := if rooted then [some xslSSlash] else []

namespace NamePath

variable {rooted : Bool} {text : Bytes} {names : List Bytes}

theorem path (named : NamePath rooted text names) : Path text (namesTree rooted names) := by
  induction named with
  | first name valid => exact Path.first (.named name) valid rooted
  | step _ name valid inductionHypothesis => exact inductionHypothesis.step (.named name) valid

theorem valid (named : NamePath rooted text names) : ∀ name ∈ names, IsName name := by
  induction named with
  | first name valid =>
      intro other member
      exact List.mem_singleton.mp member ▸ valid
  | step _ name valid inductionHypothesis =>
      intro other member
      rcases List.mem_cons.mp member with rfl | before
      · exact valid
      · exact inductionHypothesis other before

theorem eq_cons (named : NamePath rooted text names) :
    Exists fun name => Exists fun rest => names = name :: rest := by
  cases named with
  | first name valid => exact ⟨name, [], rfl⟩
  | step path name valid => exact ⟨name, _, rfl⟩

theorem expr (named : NamePath rooted text names) :
    patternExpr text = namesTree rooted names := by
  unfold patternExpr
  rw [named.path.compile, Option.getD_some]

end NamePath

theorem IsName.not_slash {name : Bytes} (valid : IsName name) : name ≠ xslSSlash := by
  rintro rfl
  exact absurd valid.begins (by decide)

section Trees

variable (rooted : Bool) (names : List Bytes)

theorem namesTree_spine : (namesTree rooted names).spine.length = names.length + 1 := by
  induction names with
  | nil => rfl
  | cons name names inductionHypothesis => exact congrArg (· + 1) inductionHypothesis

theorem namesTree_keys : directKeys (namesTree rooted names) =
    names.map some ++ anchorKeys rooted := by
  induction names with
  | nil => cases rooted <;> rfl
  | cons name names inductionHypothesis =>
      rw [namesTree, Step.attach, directKeys_select rfl, inductionHypothesis]
      rfl

variable {rooted names}

theorem namesTree_steps (valid : ∀ name ∈ names, IsName name) :
    plainSteps true (namesTree rooted names) := by
  induction names with
  | nil => cases rooted <;> rfl
  | cons name names inductionHypothesis =>
      have notSlash := (valid name List.mem_cons_self).not_slash
      have rest := inductionHypothesis fun other member => valid other (List.mem_cons_of_mem _ member)
      simp only [namesTree, Step.attach, Step.head, plainSteps, rest, Bool.and_true, ne_eq,
        Option.some.injEq, notSlash, not_false_eq_true, decide_true]

end Trees

namespace NamePath

variable {rooted : Bool} {text : Bytes} {names : List Bytes} (named : NamePath rooted text names)

include named

theorem weight : patternWeight text = names.length + 1 := by
  unfold patternWeight
  rw [named.expr, namesTree_spine]

theorem keys : patternKeys text = names.map some ++ anchorKeys rooted := by
  unfold patternKeys
  rw [named.expr, namesTree_keys]

/-- The keys, as a path of the trie. -/
theorem keys_path : Exists fun path => patternKeys text = path.map some ∧ path ≠ [] := by
  refine ⟨names ++ if rooted then [xslSSlash] else [], ?_, ?_⟩
  · rw [named.keys, List.map_append]
    cases rooted <;> rfl
  · rcases named.eq_cons with ⟨name, rest, rfl⟩
    exact List.cons_ne_nil name _

theorem plain : plainPath true (patternExpr text) := by
  rcases named.eq_cons with ⟨name, rest, rfl⟩
  rw [named.expr]
  have steps := @namesTree_steps rooted _ named.valid
  simp only [namesTree, Step.attach, Step.head, plainPath, decide_true, Bool.true_and] at steps ⊢
  exact steps

theorem direct : Direct text := by
  rcases named.eq_cons with ⟨name, rest, rfl⟩
  have type : (patternExpr text).type? = some .select := by
    rw [named.expr]
    rfl
  refine ⟨?_, ?_⟩
  · rintro (rfl | rfl)
    · exact absurd type (by decide)
    · exact absurd type (by decide)
  · unfold isDirectMatch
    rw [List.all_eq_true]
    intro step _
    rw [type]
    rfl

end NamePath

/-! ## Which nodes satisfy them -/

section Selection

variable {Num : Type} [Double Num] {env : Env Num} {depth : Nat} {heap : Heap} {node : NodeId}
  {line : List NodeId}

theorem Lineage.at_root {root : NodeId} (lineage : Lineage heap root root line) :
    line = [] ∧ (heap.get root).parent = none := by
  have chain := lineage.chain
  cases line with
  | nil =>
      generalize above : (heap.get root).parent = parent
      cases chain with
      | cons _ _ tail =>
          rw [above] at tail
          cases tail
          exact ⟨rfl, rfl⟩
  | cons first rest =>
      have twice := chain.nodup
      cases chain
      simp at twice

theorem lineKeys_cons {root : NodeId} {rest : List NodeId} (element : (heap.get node).type = .element) :
    lineKeys heap root (node :: rest) = (heap.get node).name :: lineKeys heap root rest := by
  unfold lineKeys
  rw [List.cons_append, List.map_cons, directKey, if_pos element]

/-- A node that satisfies steps by name has their names from itself upwards. -/
theorem keys_of_selectMatch {rooted : Bool} {names : List Bytes}
    (lineage : Lineage heap env.rootNode node line)
    (place : node = env.rootNode ∨ (heap.get node).type = .element)
    (matching : selectMatch env depth heap (namesTree rooted names) (some node) = some true) :
    names.map some ++ anchorKeys rooted <+: lineKeys heap env.rootNode line := by
  induction names generalizing node line with
  | nil =>
      cases rooted with
      | false => exact List.nil_prefix
      | true =>
          have isRoot : env.rootNode = node := by
            simpa [namesTree, Expr.leaf, selectMatch_root] using matching
          subst isRoot
          rw [lineage.at_root.1]
          simp only [lineKeys, List.nil_append, List.map_cons, List.map_nil, directKey,
            if_neg lineage.rootType]
          exact List.prefix_refl _
  | cons name names inductionHypothesis =>
      rw [namesTree, Step.attach, selectMatch_select rfl] at matching
      by_cases same : (heap.get node).name = (Step.named name).head.name
      · rw [if_pos same] at matching
        by_cases top : node = env.rootNode
        · -- The root has no node above it, and NULL satisfies nothing.
          subst top
          rw [lineage.at_root.2] at matching
          cases names <;> cases matching
        · rcases lineage.eq_cons top with ⟨rest, rfl⟩
          rcases lineage.parent rfl with ⟨above, isParent, upper, placed⟩
          rw [isParent] at matching
          rw [lineKeys_cons (place.resolve_left top), List.map_cons, List.cons_append, same]
          refine List.cons_prefix_cons.mpr ?_
          exact ⟨rfl, inductionHypothesis upper placed matching⟩
      · rw [if_neg same] at matching
        cases matching

/-- A path of names is satisfied by the nodes whose names agree with it. -/
theorem NamePath.matches_iff {rooted : Bool} {text : Bytes} {names : List Bytes}
    (named : NamePath rooted text names) (lineage : Lineage heap env.rootNode node line)
    (element : (heap.get node).type = .element) :
    selectMatch env depth heap (patternExpr text) (some node) = some true ↔
      patternKeys text <+: lineKeys heap env.rootNode line := by
  constructor
  · intro matching
    rw [named.expr] at matching
    rw [named.keys]
    exact keys_of_selectMatch lineage (.inr element) matching
  · exact selectMatch_of_path lineage named.plain

end Selection

/-! ## What the search finds -/

section Search

variable {Num : Type} [Double Num] (env : Env Num) (depth : Nat) (document : Heap) (node : NodeId)

/-- The node satisfies the pattern. -/
def Satisfies (pattern : Bytes) : Prop :=
  Exists fun expression => xpathCompile pattern = some expression ∧
    selectMatch env depth document expression (some node) = some true

/-- If one of the patterns is satisfied, the search finds the template of one
that is, and of none that is lighter than another. -/
def FindsHeaviest (patterns : Set Bytes) (entry : TemplateMapEntry) : Prop :=
  ∀ pattern ∈ patterns, Satisfies env depth document node pattern →
    Exists fun t => findSelectTemplate env depth document node entry = some (some t) ∧
      t.matchString ∈ patterns ∧ Satisfies env depth document node t.matchString ∧
      ∀ other ∈ patterns, Satisfies env depth document node other →
        patternWeight other ≤ patternWeight t.matchString

/-- If one of the patterns is satisfied, none agrees with the names from the
node upwards for more steps than one that is satisfied has. -/
def Undisturbed (patterns : Set Bytes) (line : List NodeId) : Prop :=
  ∀ pattern ∈ patterns, Satisfies env depth document node pattern →
    ∀ other ∈ patterns, ∀ front : List Bytes, front.map some <+: patternKeys other →
      front.map some <+: lineKeys document env.rootNode line →
      Exists fun longest => longest ∈ patterns ∧ Satisfies env depth document node longest ∧
        front.length ≤ (patternKeys longest).length

end Search

/-- Of two paths that agree with the names from a node upwards, the longer one
is not the lighter one. -/
theorem weight_le_of_agree {line : List (Option Bytes)} {rooted otherRooted : Bool}
    {text other : Bytes} {names otherNames : List Bytes} (named : NamePath rooted text names)
    (otherNamed : NamePath otherRooted other otherNames) (agree : patternKeys text <+: line)
    (otherAgree : patternKeys other <+: line)
    (shorter : (patternKeys text).length ≤ (patternKeys other).length) :
    patternWeight text ≤ patternWeight other := by
  have within := List.prefix_of_prefix_length_le agree otherAgree shorter
  rw [named.weight, otherNamed.weight]
  rw [named.keys, otherNamed.keys] at within
  refine Nat.succ_le_succ (Nat.not_lt.mp fun longer => ?_)
  -- A longer path of names would have a name in the place of the slash.
  have there : otherNames.length < (names.map some).length := by rwa [List.length_map]
  rcases within with ⟨rest, same⟩
  have inside := congrArg (·[otherNames.length]?) same
  simp only [List.append_assoc, List.getElem?_append_left there, List.getElem?_map,
    List.getElem?_eq_getElem longer, Option.map_some] at inside
  rw [List.getElem?_append_right (by simp)] at inside
  cases otherRooted with
  | false => simp [anchorKeys] at inside
  | true =>
      have slashed : names[otherNames.length] = xslSSlash := by
        simpa [anchorKeys] using inside
      exact (named.valid _ (List.getElem_mem longer)).not_slash slashed

section Search

variable {Num : Type} [Double Num] {env : Env Num} {depth : Nat} {document : Heap} {node : NodeId}
  {line : List NodeId}

theorem NamePath.satisfies_iff {rooted : Bool} {text : Bytes} {names : List Bytes}
    (named : NamePath rooted text names) (lineage : Lineage document env.rootNode node line)
    (element : (document.get node).type = .element) :
    Satisfies env depth document node text ↔
      patternKeys text <+: lineKeys document env.rootNode line := by
  have compiled : xpathCompile text = some (patternExpr text) := by
    rw [named.path.compile, named.expr]
  constructor
  · rintro ⟨expression, isCompiled, matching⟩
    cases isCompiled.symm.trans compiled
    exact (named.matches_iff lineage element).mp matching
  · intro agree
    exact ⟨_, compiled, (named.matches_iff lineage element).mpr agree⟩

variable (env depth) in
/-- Where all patterns are paths of names, the search asks the trie only. -/
theorem Describes.search_eq {past : Past} {entry : TemplateMapEntry}
    (holds : Describes past entry)
    (direct : ∀ pattern ∈ past.map Prod.fst, Direct pattern)
    (lineage : Lineage document env.rootNode node line) :
    Exists fun path => findSelectTemplate env depth document node entry =
        some (entry.tree.valueAt path) ∧
      path.map some <+: lineKeys document env.rootNode line ∧ entry.tree.HasPath path ∧
      ∀ other, other.map some <+: lineKeys document env.rootNode line →
        entry.tree.HasPath other → other.length ≤ path.length := by
  have noList : entry.head = [] := by
    rw [holds.listed, List.map_eq_nil_iff, List.eq_nil_iff_forall_not_mem]
    intro pattern member
    have listed := mem_listedPatterns.mp member
    exact listed.1.not_direct (direct pattern listed.2)
  rcases @findSelectTemplate_eq _ _ env depth _ _ _ lineage entry with ⟨path, found, rest⟩
  refine ⟨path, ?_, rest⟩
  rw [found, noList]
  rfl

variable (env depth) in
theorem Describes.findsHeaviest_iff {past : Past} {entry : TemplateMapEntry}
    (holds : Describes past entry)
    (named : ∀ pattern ∈ past.map Prod.fst, Exists fun rooted => Exists fun names =>
      NamePath rooted pattern names)
    (lineage : Lineage document env.rootNode node line)
    (element : (document.get node).type = .element) :
    FindsHeaviest env depth document node {pattern | pattern ∈ past.map Prod.fst} entry ↔
      Undisturbed env depth document node {pattern | pattern ∈ past.map Prod.fst} line := by
  have direct : ∀ pattern ∈ past.map Prod.fst, Direct pattern := by
    intro pattern known
    rcases named pattern known with ⟨rooted, names, path⟩
    exact path.direct
  have satisfied {pattern : Bytes} (known : pattern ∈ past.map Prod.fst) :
      Satisfies env depth document node pattern ↔
        patternKeys pattern <+: lineKeys document env.rootNode line := by
    rcases named pattern known with ⟨rooted, names, path⟩
    exact path.satisfies_iff lineage element
  rcases holds.search_eq env depth direct lineage with ⟨path, found, agree, there, longest⟩
  have onPath {pattern : Bytes} (known : pattern ∈ past.map Prod.fst) {front : List Bytes}
      (onWay : front.map some <+: patternKeys pattern)
      (agrees : front.map some <+: lineKeys document env.rootNode line) :
      front.length ≤ path.length := by
    rcases List.mem_map.mp known with ⟨r, member, rfl⟩
    exact longest front agrees ((holds.paths front).mpr (.inr ⟨r, member, direct r.1 known, onWay⟩))
  constructor
  · intro heaviest pattern known satisfies other otherKnown front onWay agrees
    rcases heaviest pattern known satisfies with ⟨t, isFound, tKnown, tSatisfies, _⟩
    have value : entry.tree.valueAt path = some t := Option.some.inj (found.symm.trans isFound)
    rcases holds.direct_template value with ⟨r, _, keys, rfl⟩
    refine ⟨_, tKnown, tSatisfies, ?_⟩
    have length : (patternKeys (directEntry r).matchString).length = path.length := by
      rw [show patternKeys (directEntry r).matchString = path.map some from keys.2, List.length_map]
    rw [length]
    exact onPath otherKnown onWay agrees
  · intro undisturbed pattern known satisfies
    -- The walk ends inside of some pattern, hence at the end of one that is satisfied.
    have ends : Exists fun r => r ∈ past ∧ HasKeys path r := by
      rcases (holds.paths path).mp there with rfl | ⟨inner, member, _, onWay⟩
      · rcases named pattern known with ⟨_, _, isPath⟩
        rcases isPath.keys_path with ⟨keys, same, notNil⟩
        have short := onPath known (same ▸ List.prefix_refl _) (same ▸ (satisfied known).mp satisfies)
        exact absurd (List.length_eq_zero_iff.mp (Nat.le_zero.mp short)) notNil
      · rcases undisturbed pattern known satisfies inner.1 (List.mem_map_of_mem member) path onWay
          agree with ⟨last, lastKnown, lastSatisfies, long⟩
        rcases named last lastKnown with ⟨_, _, isPath⟩
        rcases isPath.keys_path with ⟨keys, same, _⟩
        have lastAgrees := (satisfied lastKnown).mp lastSatisfies
        have within := List.prefix_of_prefix_length_le agree lastAgrees (by simpa using long)
        have short := onPath lastKnown (same ▸ List.prefix_refl _) (same ▸ lastAgrees)
        have equal := within.eq_of_length_le (by simpa [same] using short)
        rcases List.mem_map.mp lastKnown with ⟨r, rMember, rfl⟩
        exact ⟨r, rMember, direct r.1 lastKnown, equal.symm⟩
    rcases ends with ⟨last, lastMember, lastKeys⟩
    have value : Exists fun t => entry.tree.valueAt path = some t := by
      rw [holds.latest]
      refine Option.isSome_iff_exists.mp ?_
      rw [Option.isSome_map, List.find?_isSome]
      exact ⟨last, lastMember, decide_eq_true lastKeys⟩
    rcases value with ⟨t, value⟩
    rcases holds.direct_template value with ⟨r, member, keys, rfl⟩
    have rKnown : r.1 ∈ past.map Prod.fst := List.mem_map_of_mem member
    have rAgrees : patternKeys r.1 <+: lineKeys document env.rootNode line := keys.2 ▸ agree
    refine ⟨directEntry r, found.trans (congrArg some value), rKnown,
      (satisfied rKnown).mpr rAgrees, ?_⟩
    intro other otherKnown otherSatisfies
    have otherAgrees := (satisfied otherKnown).mp otherSatisfies
    rcases named other otherKnown with ⟨_, _, isPath⟩
    rcases named r.1 rKnown with ⟨_, _, rIsPath⟩
    refine weight_le_of_agree isPath rIsPath otherAgrees rAgrees ?_
    rcases isPath.keys_path with ⟨otherPath, same, _⟩
    have short := onPath otherKnown (same ▸ List.prefix_refl _) (same ▸ otherAgrees)
    rw [same, show patternKeys (directEntry r).matchString = path.map some from keys.2,
      List.length_map, List.length_map]
    exact short

end Search

/-- After any run of registrations of paths of element names, the search finds
for an element the heaviest template among those it satisfies exactly when no
pattern agrees with it for more steps than the longest of these has. -/
theorem find_select_template_complete_iff {Num : Type} [Double Num] (env : Env Num) (depth : Nat)
    {memory : Heap} {registrations : List Registration} {pctx : TransformContext}
    (run : registerAll (.create memory) registrations = some pctx)
    (named : ∀ r ∈ registrations, Short (trim r.templMatch) ∧
      Exists fun rooted => Exists fun names => NamePath rooted (trim r.templMatch) names)
    {mode : Option Bytes} {entry : TemplateMapEntry} (found : pctx.templates mode = some entry)
    {document : Heap} {node : NodeId} {line : List NodeId}
    (lineage : Lineage document env.rootNode node line)
    (element : (document.get node).type = .element) :
    let patterns : Set Bytes :=
      {pattern | Exists fun r => r ∈ registrations ∧ r.mode = mode ∧ trim r.templMatch = pattern}
    FindsHeaviest env depth document node patterns entry ↔
      Undisturbed env depth document node patterns line := by
  have holds := create_describes run (fun r member => (named r member).1) found
  have same : {pattern | pattern ∈ (registered mode memory registrations []).map Prod.fst} =
      {pattern | Exists fun r => r ∈ registrations ∧ r.mode = mode ∧
        trim r.templMatch = pattern} := by
    ext pattern
    refine mem_registered.trans (or_iff_left ?_)
    exact List.not_mem_nil
  have whole := holds.findsHeaviest_iff env depth ?_ lineage element
  · rwa [same] at whole
  · intro pattern known
    rcases mem_registered.mp known with ⟨r, member, _, rfl⟩ | old
    · exact (named r member).2
    · cases old

/-- `b` finds its template for `/a/b`, until `c/a/b` is registered too. -/
theorem longer_pattern_hides_shorter :
    selectAfter [⟨some 7, lit "b", none⟩] nestedDocument 2 =
        some (some ⟨lit "b", .null, 2, 7⟩) ∧
      selectAfter [⟨some 7, lit "b", none⟩, ⟨some 8, lit "c/a/b", none⟩] nestedDocument 2 =
        some none ∧
      xpathCompile (lit "b") = some (patternExpr (lit "b")) ∧
      selectMatch (Env.bare Int 0) 0 nestedDocument (patternExpr (lit "b")) (some 2) =
        some true ∧
      NamePath false (lit "b") [lit "b"] ∧ NamePath false (lit "c/a/b") [lit "b", lit "a", lit "c"] ∧
      Lineage nestedDocument 0 2 [2, 1] := by
  have isName (name : Bytes) (short : name ∈ [lit "a", lit "b", lit "c"]) : IsName name := by
    simp only [List.mem_cons, List.not_mem_nil, or_false] at short
    rcases short with rfl | rfl | rfl <;>
      exact ⟨by decide, List.all_eq_true.mp (by decide), by decide⟩
  have first : NamePath false (lit "c") [lit "c"] := .first (lit "c") (isName _ (by decide))
  refine ⟨by decide, by decide, by decide, by decide, .first (lit "b") (isName _ (by decide)), ?_,
    nestedDocument_lineage⟩
  exact (first.step (lit "a") (isName _ (by decide))).step (lit "b") (isName _ (by decide))

/-- A run with `b` and `a/b`. -/
theorem find_select_template_complete_iff_nested :
    Exists fun entry =>
      let patterns : Set Bytes := {pattern | Exists fun r =>
        r ∈ [(⟨some 7, lit "b", none⟩ : Registration), ⟨some 8, lit "a/b", none⟩] ∧ r.mode = none ∧
          trim r.templMatch = pattern}
      FindsHeaviest (Env.bare Int 0) 0 nestedDocument 2 patterns entry ↔
        Undisturbed (Env.bare Int 0) 0 nestedDocument 2 patterns [2, 1] := by
  have selected : selectAfter [⟨some 7, lit "b", none⟩, ⟨some 8, lit "a/b", none⟩]
      nestedDocument 2 = some (some ⟨lit "a/b", .null, 3, 8⟩) := by decide
  simp only [selectAfter, bind, Option.bind_eq_some_iff] at selected
  rcases selected with ⟨pctx, run, entry, found, _⟩
  have a : IsName (lit "a") := ⟨by decide, List.all_eq_true.mp (by decide), by decide⟩
  have b : IsName (lit "b") := ⟨by decide, List.all_eq_true.mp (by decide), by decide⟩
  refine ⟨entry, find_select_template_complete_iff (Env.bare Int 0) 0 run ?_ found
    nestedDocument_lineage (by decide)⟩
  intro r member
  simp only [List.mem_cons, List.not_mem_nil, or_false] at member
  unfold Short
  rcases member with rfl | rfl
  · exact ⟨by decide, false, [lit "b"], .first (lit "b") b⟩
  · exact ⟨by decide, false, [lit "b", lit "a"], (NamePath.first (lit "a") a).step (lit "b") b⟩

end TurboXSL
