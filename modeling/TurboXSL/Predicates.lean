import Mathlib.Data.List.SplitLengths
import TurboXSL.Anchoring
import TurboXSL.StepLaws

namespace TurboXSL

open Library Parse

/-!
# Predicates

A predicate is tested on one candidate after the other.  Where candidates come
from several members of a path, the claim of the language is about each
member: a candidate at index `i` of `c` sees the position `i` and the last
position `c`.  `xpath_filter` runs through the candidates of all members in one
list instead, and numbers what passes through this whole list.
-/

/-! ## Groups -/

/-- A list can be split like another one of its length. -/
theorem exists_groups {First Second : Type} (flat : List First) (like : List (List Second))
    (length : flat.length = like.flatten.length) : Exists fun groups : List (List First) =>
      groups.flatten = flat ∧ groups.map List.length = like.map List.length := by
  rw [List.length_flatten] at length
  exact ⟨(like.map List.length).splitLengths flat,
    List.flatten_splitLengths _ _ (Nat.le_of_eq length),
    List.map_splitLengths_length _ _ (Nat.le_of_eq length.symm)⟩

/-- Groups are given by their lengths and by what they are put together to. -/
theorem groups_ext {First : Type} {left right : List (List First)}
    (flat : left.flatten = right.flatten) (lengths : left.map List.length = right.map List.length) :
    left = right := by
  induction left generalizing right with
  | nil => exact (List.map_eq_nil_iff.mp lengths.symm).symm
  | cons group rest inductionHypothesis =>
      cases right with
      | nil => cases lengths
      | cons group' rest' =>
          rw [List.map_cons, List.map_cons, List.cons.injEq] at lengths
          rw [List.flatten_cons, List.flatten_cons] at flat
          have parts := List.append_inj flat lengths.1
          rw [parts.1, inductionHypothesis parts.2 lengths.2]

theorem map_groups {First Second : Type} (f : First → Second) {groups : List (List First)}
    {like : List (List Second)} (flat : groups.flatten.map f = like.flatten)
    (lengths : groups.map List.length = like.map List.length) : groups.map (List.map f) = like := by
  apply groups_ext
  · rw [← flat, List.map_flatten]
  · rw [List.map_map, ← lengths]
    apply List.map_congr_left
    intro group _
    exact List.length_map f

/-! ## What a candidate sees -/

/-- The last position that a node of a list sees is that of the last node. -/
theorem lastPosition_eq {heap : Heap} {start : Ptr} {nodes : List NodeId}
    (chain : Siblings heap start nodes) (short : nodes.length ≤ heap.size) {n : NodeId}
    (member : n ∈ nodes) :
    lastPosition heap n = nodes.getLast?.map fun last => (heap.get last).position := by
  rcases chain.suffix_of_mem member with ⟨rest, part, suffix⟩
  have listed : siblings heap (some n) = some (n :: rest) :=
    follow_eq_some_iff.mpr ⟨part, Nat.le_trans suffix.length_le short⟩
  unfold lastPosition
  rw [listed, Option.bind_eq_bind, Option.bind_some]
  rcases suffix with ⟨front, rfl⟩
  rw [List.getLast?_append_of_ne_nil _ (List.cons_ne_nil n rest)]

section Stages

variable {Num : Type} [Double Num]

/-- The candidates of one predicate in their memory, by the members that they
come from, and the tests that the code makes. -/
structure Stage (Num : Type) where
  heap : Heap
  groups : List (List NodeId)
  tests : List (Test Num)

/-- Is a candidate at this index kept? -/
def keeps (index : Nat) : RValue Num → Bool
  | .int n => decide ((index : Int) = n)
  | .number x => Double.equal x (Double.ofInt index)
  | value => rval2bool value

/-- A candidate sees its index and the count of its group, and is selected
where its value says so. -/
structure Test.Right (test : Test Num) (index count : Nat) : Prop where
  position : (test.heap.get test.node).position = index
  last : lastPosition test.heap test.node = some count
  kept : test.selected = keeps index test.value

/-- All candidates are tested, each of them right in its group. -/
def Stage.Right (stage : Stage Num) : Prop :=
  Exists fun grouped : List (List (Test Num)) => grouped.flatten = stage.tests ∧
    grouped.map (List.map Test.node) = stage.groups ∧
    ∀ tests ∈ grouped, ∀ i (small : i < tests.length), tests[i].Right (i + 1) tests.length

/-- The conditions for it: the first candidate is no root, every group is
counted from one, the last candidate has the count of every group for its
position, and a predicate gives a floating point number only where its truth
tells whether it is the index. -/
structure Stage.Counted (stage : Stage Num) : Prop where
  heads : ∀ n, stage.groups.flatten.head? = some n → (stage.heap.get n).type ≠ .empty
  counted : ∀ group ∈ stage.groups,
    group.map (fun n => (stage.heap.get n).position) = List.range' 1 group.length
  ends : ∀ group ∈ stage.groups, group ≠ [] → ∀ last, stage.groups.flatten.getLast? = some last →
    (stage.heap.get last).position = group.length
  numbers : ∀ test ∈ stage.tests, ∀ x, test.value = .number x →
    rval2bool (.number x) = Double.equal x (Double.ofInt (stage.heap.get test.node).position)

/-- The tests of a stage are those of the loop over the list of its candidates
or, behind a root, of the root's children. -/
structure Stage.Run (locals : Ptr) (expr : Operand Num) (stage : Stage Num) : Prop where
  chain : Siblings stage.heap stage.groups.flatten.head? stage.groups.flatten
  known : ∀ n ∈ stage.groups.flatten, n < stage.heap.size ∧ locals ≠ some n
  made : Exists fun looked => filterTests expr stage.heap none 0 looked = some stage.tests
  tested : ∀ test ∈ stage.tests, TestedIn locals none expr stage.heap test
  all : (∀ n, stage.groups.flatten.head? = some n → (stage.heap.get n).type ≠ .empty) →
    stage.tests.map Test.node = stage.groups.flatten
  root : ∀ n, stage.groups.flatten.head? = some n → (stage.heap.get n).type = .empty →
    ∀ test ∈ stage.tests, (stage.heap.get test.node).type ≠ .empty

section Judging

variable {locals : Ptr} {expr : Operand Num} {stage : Stage Num} (run : stage.Run locals expr)

include run

/-- During a test the candidates are as they were. -/
theorem Stage.Run.candidate {test : Test Num} (member : test ∈ stage.tests) {n : NodeId}
    (known : n ∈ stage.groups.flatten) : test.heap.get n = stage.heap.get n :=
  (run.tested test member).same n (run.known n known).1 (run.known n known).2 nofun

/-- A test is right where the candidate's position is its index, the last
position is the count, and a number is judged by its truth as by its value. -/
theorem Stage.Run.right_iff {test : Test Num} (member : test ∈ stage.tests)
    (candidate : test.node ∈ stage.groups.flatten) {index count : Nat} :
    test.Right index count ↔ (stage.heap.get test.node).position = index ∧
      (∀ last, stage.groups.flatten.getLast? = some last →
        (stage.heap.get last).position = count) ∧
      ∀ x, test.value = .number x →
        rval2bool (.number x) = Double.equal x (Double.ofInt (stage.heap.get test.node).position) := by
  have tested := run.tested test member
  have chain : Siblings test.heap stage.groups.flatten.head? stage.groups.flatten := by
    apply run.chain.congr
    exact fun n at_ => congrArg XmlNode.next (run.candidate member at_)
  have short := (follow_eq_some_iff.mp (siblings_of_chain run.chain fun n at_ =>
    (run.known n at_).1)).2
  have last := lastPosition_eq chain (Nat.le_trans short tested.grows) candidate
  rcases Option.isSome_iff_exists.mp (List.getLast?_isSome.mpr (List.ne_nil_of_mem candidate)) with
    ⟨final, ends⟩
  have there : final ∈ stage.groups.flatten := List.mem_of_getLast? ends
  rw [ends, Option.map_some, run.candidate member there] at last
  have sees : (∀ last, stage.groups.flatten.getLast? = some last →
      (stage.heap.get last).position = count) ↔ lastPosition test.heap test.node = some count := by
    rw [last, ends]
    constructor
    · exact fun all => congrArg some (all final rfl)
    · intro same other final'
      cases final'
      exact Option.some.inj same
  rw [sees]
  have judged : (stage.heap.get test.node).position = index →
      (test.selected = keeps index test.value ↔ ∀ x, test.value = .number x →
        rval2bool (.number x) =
          Double.equal x (Double.ofInt (stage.heap.get test.node).position)) := by
    intro same
    rw [tested.decides, ← same]
    cases test.value with
    | number x => exact ⟨fun here _ found => by cases found; exact here, fun all => all x rfl⟩
    | null | bool | int | string | nodeset => exact iff_of_true rfl nofun
  constructor
  · rintro ⟨position, seen, kept⟩
    rw [run.candidate member candidate] at position
    exact ⟨position, seen, (judged position).mp kept⟩
  · rintro ⟨position, seen, numbers⟩
    refine ⟨?_, seen, (judged position).mpr numbers⟩
    rw [run.candidate member candidate, position]

theorem Stage.Run.right_iff_counted : stage.Right ↔ stage.Counted := by
  constructor
  · rintro ⟨grouped, flat, groups, right_⟩
    have nodes : stage.tests.map Test.node = stage.groups.flatten := by
      rw [← flat, ← groups, List.map_flatten]
    have here : ∀ {tests}, tests ∈ grouped → ∀ i (small : i < tests.length),
        tests[i] ∈ stage.tests ∧ tests[i].node ∈ stage.groups.flatten := by
      intro tests member i small
      have inTests : tests[i] ∈ stage.tests := by
        rw [← flat]
        exact List.mem_flatten.mpr ⟨tests, member, List.getElem_mem small⟩
      exact ⟨inTests, nodes ▸ List.mem_map_of_mem inTests⟩
    have each := fun tests member i small =>
      (run.right_iff (here member i small).1 (here member i small).2).mp (right_ tests member i small)
    refine ⟨?_, ?_, ?_, ?_⟩
    · intro n first root
      have member : n ∈ stage.tests.map Test.node := nodes ▸ List.mem_of_mem_head? first
      rcases List.mem_map.mp member with ⟨test, inTests, rfl⟩
      exact run.root _ first root test inTests root
    · intro group member
      rw [← groups] at member
      rcases List.mem_map.mp member with ⟨tests, inGrouped, rfl⟩
      apply List.ext_getElem
      · simp only [List.length_map, List.length_range']
      · intro i small _
        simp only [List.length_map] at small
        have position := (each tests inGrouped i small).1
        simp only [List.getElem_map, List.getElem_range', Nat.one_mul]
        rw [position, Nat.add_comm]
    · intro group member some_ last final
      rw [← groups] at member
      rcases List.mem_map.mp member with ⟨tests, inGrouped, rfl⟩
      have small : 0 < tests.length := by
        apply List.length_pos_of_ne_nil
        rintro rfl
        exact some_ rfl
      rw [List.length_map]
      exact (each tests inGrouped 0 small).2.1 last final
    · intro test member
      rw [← flat] at member
      rcases List.mem_flatten.mp member with ⟨tests, inGrouped, inTests⟩
      rcases List.getElem_of_mem inTests with ⟨i, small, rfl⟩
      exact (each tests inGrouped i small).2.2
  · intro counted
    have nodes := run.all counted.heads
    have length : stage.tests.length = stage.groups.flatten.length := by
      rw [← nodes, List.length_map]
    rcases exists_groups stage.tests stage.groups length with ⟨grouped, flat, lengths⟩
    have groups : grouped.map (List.map Test.node) = stage.groups :=
      map_groups Test.node (flat ▸ nodes) lengths
    refine ⟨grouped, flat, groups, ?_⟩
    intro tests member i small
    have inTests : tests[i] ∈ stage.tests := by
      rw [← flat]
      exact List.mem_flatten.mpr ⟨tests, member, List.getElem_mem small⟩
    have inGroups : tests.map Test.node ∈ stage.groups := groups ▸ List.mem_map_of_mem member
    have candidate : tests[i].node ∈ stage.groups.flatten := nodes ▸ List.mem_map_of_mem inTests
    apply (run.right_iff inTests candidate).mpr
    refine ⟨?_, ?_, counted.numbers _ inTests⟩
    · have positions := counted.counted _ inGroups
      have here := List.getElem_of_eq positions (i := i) (by simpa using small)
      simp only [List.getElem_map, List.getElem_range', Nat.one_mul] at here
      rw [here, Nat.add_comm]
    · intro last final
      have some_ : tests.map Test.node ≠ [] := by
        intro empty
        rw [List.map_eq_nil_iff.mp empty] at small
        cases small
      rw [counted.ends _ inGroups some_ last final, List.length_map]

end Judging

omit [Double Num] in
/-- Where the candidates are numbered through, all of them have to come from one
member. -/
theorem Stage.alone_iff {stage : Stage Num}
    (numbered : stage.groups.flatten.map (fun n => (stage.heap.get n).position) =
      List.range' 1 stage.groups.flatten.length) :
    ((∀ group ∈ stage.groups,
        group.map (fun n => (stage.heap.get n).position) = List.range' 1 group.length) ∧
      ∀ group ∈ stage.groups, group ≠ [] → ∀ last, stage.groups.flatten.getLast? = some last →
        (stage.heap.get last).position = group.length) ↔
      ∀ group ∈ stage.groups, group = [] ∨ group.length = stage.groups.flatten.length := by
  have final : ∀ last, stage.groups.flatten.getLast? = some last →
      (stage.heap.get last).position = stage.groups.flatten.length := by
    intro last ends
    have mapped := congrArg List.getLast? numbered
    rw [List.getLast?_map, ends, List.getLast?_range'] at mapped
    have some_ : stage.groups.flatten.length ≠ 0 := by
      intro none_
      rw [List.length_eq_zero_iff.mp none_] at ends
      cases ends
    rw [if_neg some_] at mapped
    have same : (stage.heap.get last).position = _ := Option.some.inj mapped
    omega
  constructor
  · rintro ⟨_, ends⟩ group member
    by_cases empty : group = []
    · exact .inl empty
    · right
      have some_ : stage.groups.flatten ≠ [] := by
        intro nothing
        exact empty (List.flatten_eq_nil_iff.mp nothing group member)
      have last := List.getLast?_eq_some_getLast some_
      rw [← ends group member empty _ last, final _ last]
  · intro alone
    have whole : ∀ group ∈ stage.groups, group = [] ∨ group = stage.groups.flatten := by
      intro group member
      apply (alone group member).imp_right
      exact (List.sublist_flatten_of_mem member).eq_of_length
    constructor
    · intro group member
      rcases whole group member with rfl | same
      · rfl
      · rw [same]
        exact numbered
    · intro group member some_ last ends
      rcases whole group member with rfl | same
      · exact absurd rfl some_
      · rw [final last ends, ← same]

end Stages

/-! ## Filters in a row -/

section Runs

variable {Num : Type} [Double Num] {env : Env Num} {depth : Nat} {inside : NodeId → Prop}

/-- The candidates that a stage leaves, by the members they come from. -/
def Stage.Leaves (stage : Stage Num) (kept : List (List NodeId)) : Prop :=
  ∀ grouped : List (List (Test Num)), grouped.flatten = stage.tests →
    grouped.map (List.map Test.node) = stage.groups →
    kept.map List.length = grouped.map fun tests => (tests.filter Test.selected).length

omit [Double Num] in
theorem Stage.exists_leaves (stage : Stage Num) (copies : List NodeId)
    (length : copies.length = (selectedNodes stage.tests).length) :
    Exists fun kept => kept.flatten = copies ∧ stage.Leaves kept := by
  by_cases groups : Exists fun grouped : List (List (Test Num)) =>
      grouped.flatten = stage.tests ∧ grouped.map (List.map Test.node) = stage.groups
  · rcases groups with ⟨grouped, flat, groups⟩
    have count : copies.length = (grouped.map fun tests => tests.filter Test.selected).flatten.length := by
      rw [length, ← List.filter_flatten, flat]
      exact List.length_map _
    rcases exists_groups copies _ count with ⟨kept, flat', lengths⟩
    refine ⟨kept, flat', ?_⟩
    intro grouped' flat'' groups'
    have same : grouped' = grouped := by
      apply groups_ext (flat''.trans flat.symm)
      have sizes := congrArg (List.map List.length) (groups'.trans groups.symm)
      simpa only [List.map_map, Function.comp_def, List.length_map] using sizes
    rw [same, lengths, List.map_map]
    rfl
  · refine ⟨[copies], List.flatten_singleton, ?_⟩
    intro grouped flat groups'
    exact absurd ⟨grouped, flat, groups'⟩ groups

/-- Without candidates nothing is tested. -/
theorem Stage.exists_empty {heap : Heap} {groups : List (List NodeId)} (empty : groups.flatten = []) :
    Exists fun expr : Operand Num => Exists fun kept =>
      Stage.Run env.locals expr ⟨heap, groups, []⟩ ∧
      Stage.Leaves (⟨heap, groups, []⟩ : Stage Num) kept ∧ kept.flatten = [] := by
  rcases Stage.exists_leaves (⟨heap, groups, []⟩ : Stage Num) [] rfl with ⟨kept, flat, leaves⟩
  refine ⟨⟨{ type := .int }, nullEval⟩, kept, ⟨?_, ?_, ⟨[], rfl⟩, nofun, ?_, ?_⟩, leaves, flat⟩
  · rw [empty]
    exact .nil
  · intro n member
    rw [empty] at member
    cases member
  · intro _
    rw [empty]
    rfl
  · intro n first
    rw [empty] at first
    cases first

/-- One predicate: what `xpath_filter` tests, and the copies that it leaves. -/
theorem xpathFilter_stage {heap after : Heap} {region grown : NodeId → Prop} {set set' : Ptr}
    {groups : List (List NodeId)} {predicate : Expr}
    (found : Found env heap inside region grown (.nodeset set : RValue Num) groups.flatten)
    (filtered : xpathFilter heap set (operandsAt env depth predicate).head? = some (after, set')) :
    Exists fun expr => Exists fun tests => Exists fun kept =>
      Stage.Run env.locals expr ⟨heap, groups, tests⟩ ∧
      (groups.flatten ≠ [] → (operandsAt env depth predicate).head? = some expr) ∧
      Stage.Leaves ⟨heap, groups, tests⟩ kept ∧ set' = kept.flatten.head? ∧
      Appended env.locals heap after none kept.flatten (numbered (selectedNodes tests)) := by
  have chain := (follow_eq_some_iff.mp found.listed).1
  have start : set = groups.flatten.head? := chain.start_eq
  have known : ∀ n ∈ groups.flatten, n < heap.size ∧ env.locals ≠ some n := by
    intro n at_
    exact ⟨found.setting.closed.bound (found.inRegion n at_), fun here =>
      found.setting.apart n here (found.inRegion n at_)⟩
  cases set with
  | none =>
      cases filtered
      have empty : groups.flatten = [] := List.head?_eq_none_iff.mp start.symm
      rcases @Stage.exists_empty Num _ env heap groups empty with ⟨expr, kept, run, leaves, flat⟩
      refine ⟨expr, [], kept, run, fun some_ => absurd empty some_, leaves, ?_, ?_⟩
      · rw [flat]
        rfl
      · rw [flat]
        exact .nil _ _ _
  | some first =>
      unfold xpathFilter at filtered
      rcases Option.bind_eq_some_iff.mp filtered with ⟨looked, begun, filtered⟩
      rcases Option.bind_eq_some_iff.mp filtered with ⟨expr, isOperand, filtered⟩
      have member : first ∈ groups.flatten := List.mem_of_mem_head? start.symm
      have framed : Framed env.locals expr.run := by
        cases predicate with
        | null => cases isOperand
        | node h c n =>
            cases isOperand
            exact xpathExecuteScalar_framed env depth (.node h c n)
      -- the list looked through, and what is in it
      have looks : (∀ n ∈ looked, grown n) ∧
          ((heap.get first).type ≠ .empty → looked = groups.flatten) ∧
          ((heap.get first).type = .empty → ∀ n ∈ looked, (heap.get n).type ≠ .empty) := by
        split at begun
        next root =>
          have chained := (follow_eq_some_iff.mp begun).1
          rcases found.setting.closed.below (found.inRegion first member) with
            ⟨nodes, walked, _, members⟩
          have subset := walked.siblings_subset chained
          refine ⟨fun n at_ => ?_, fun notRoot => absurd root notRoot, fun _ n at_ => ?_⟩
          · exact found.setting.closed.document (members n (subset at_)).1
          · exact (members n (subset at_)).2
        next notRoot =>
          have same := Option.some.inj (begun.symm.trans found.listed)
          exact ⟨same ▸ found.inRegion, fun _ => same, fun root => absurd root notRoot⟩
      rcases @filterNodes_tests Num _ env.locals expr framed looked heap after none set' 0
        found.setting.old nofun nofun (fun n at_ => ⟨found.setting.closed.bound (looks.1 n at_),
          fun here => found.setting.apart n here (looks.1 n at_)⟩) filtered with
        ⟨copies, tests, head, traced, listed, tested, made⟩
      have length : copies.length = (selectedNodes tests).length := by
        rw [made.copied.length, List.length_zipIdx]
      rcases Stage.exists_leaves ⟨heap, groups, tests⟩ copies length with ⟨kept, flat, leaves⟩
      have isFirst : ∀ n, groups.flatten.head? = some n → n = first := by
        intro n here
        rw [← start] at here
        exact (Option.some.inj here).symm
      refine ⟨expr, tests, kept, ⟨start ▸ chain, known, ⟨looked, traced⟩, tested, ?_, ?_⟩,
        fun _ => isOperand, leaves, flat ▸ head, flat ▸ made⟩
      · intro notRoot
        rw [listed, looks.2.1 (notRoot first start.symm)]
      · intro n here root test inTests
        rw [isFirst n here] at root
        exact looks.2.2 root _ (listed ▸ List.mem_map_of_mem inTests)

/-- The stages of predicates that stand in a row. -/
inductive Filtering (env : Env Num) (depth : Nat) : List Expr → Heap → List (List NodeId) →
    List (Stage Num) → Heap → List (List NodeId) → Prop where
  | done (heap : Heap) (groups : List (List NodeId)) : Filtering env depth [] heap groups [] heap groups
  | next {predicate : Expr} {rest : List Expr} {heap middle after : Heap}
      {groups kept result : List (List NodeId)} {tests : List (Test Num)} {stages : List (Stage Num)}
      {expr : Operand Num} (run : Stage.Run env.locals expr ⟨heap, groups, tests⟩)
      (operand : groups.flatten ≠ [] → (operandsAt env depth predicate).head? = some expr)
      (leaves : Stage.Leaves ⟨heap, groups, tests⟩ kept)
      (made : Appended env.locals heap middle none kept.flatten (numbered (selectedNodes tests)))
      (later : Filtering env depth rest middle kept stages after result) :
      Filtering env depth (predicate :: rest) heap groups (⟨heap, groups, tests⟩ :: stages) after
        result

/-- The tree with predicates behind it. -/
def filtersOver (before : Expr) : List Expr → Option Expr
  | [] => some before
  | predicate :: rest => do filtersOver (← filterStep before predicate) rest

/-- An expression with predicates is evaluated in stages. -/
theorem filtering_of_evaluated {predicates : List Expr} {before whole : Expr} {heap after : Heap}
    {region : NodeId → Prop} {current : NodeId} {value : RValue Num}
    (stays : Stays env (xpathExecuteScalar env depth before))
    (alone : Exists fun head => Exists fun children => before = .node head children .null)
    (built : filtersOver before predicates = some whole) (setting : Setting env heap inside region)
    (member : region current)
    (evaluated : xpathExecuteScalar env depth whole current heap = some (value, after)) :
    Exists fun first => Exists fun start =>
      xpathExecuteScalar env depth before current heap = some (first, start) ∧
      ∀ groups : List (List NodeId), members first start = some groups.flatten →
        Exists fun stages => Exists fun result =>
          Filtering env depth predicates start groups stages after result ∧
          members value after = some result.flatten := by
  induction predicates generalizing before with
  | nil =>
      cases built
      exact ⟨value, after, evaluated, fun groups listed => ⟨[], groups, .done _ _, listed⟩⟩
  | cons predicate rest inductionHypothesis =>
      rcases Option.bind_eq_some_iff.mp built with ⟨filtered, step, built⟩
      have further := stays_filter stays step alone
      rcases alone with ⟨head, children, rfl⟩
      cases step
      rcases inductionHypothesis further ⟨_, _, rfl⟩ built with ⟨second, middle, done, onward⟩
      rw [xpathExecuteScalar_filter] at done
      rcases Option.bind_eq_some_iff.mp done with ⟨⟨first, start⟩, begun, done⟩
      refine ⟨first, start, begun, ?_⟩
      intro groups listed
      rcases stays.found setting member begun with ⟨grown, nodes, found⟩
      have same := Option.some.inj (found.listed.symm.trans listed)
      subst same
      cases first with
      | nodeset set =>
          rcases Option.bind_eq_some_iff.mp done with ⟨⟨memory, set'⟩, filtered, same⟩
          cases same
          rcases xpathFilter_stage found filtered with
            ⟨expr, tests, kept, run, operand, leaves, rfl, made⟩
          rcases onward kept made.listed with ⟨stages, result, later, members_⟩
          exact ⟨_, result, .next run operand leaves made later, members_⟩
      | null | bool | int | number | string =>
          cases done
          have empty : groups.flatten = [] := (Option.some.inj listed).symm
          rcases @Stage.exists_empty Num _ env start groups empty with
            ⟨expr, kept, run, leaves, flat⟩
          have none_ : members (.nodeset none : RValue Num) start = some kept.flatten := by
            rw [flat]
            exact siblings_of_chain .nil nofun
          rcases onward kept none_ with ⟨stages, result, later, members_⟩
          refine ⟨_, result, .next run (fun some_ => absurd empty some_) leaves ?_ later, members_⟩
          rw [flat]
          exact .nil _ _ _

omit [Double Num] in
/-- The copies of a list are numbered through. -/
theorem Appended.positions {locals : Ptr} {before after : Heap} {prev : Ptr} {copies : List NodeId}
    {sources : List (NodeId × Nat)} (made : Appended locals before after prev copies sources) :
    copies.map (fun n => (after.get n).position) = sources.map Prod.snd := by
  have copied := made.copied
  clear made
  induction copied with
  | nil => rfl
  | cons first _ inductionHypothesis => rw [List.map_cons, List.map_cons, first.2, inductionHypothesis]

theorem numbered_snd (nodes : List NodeId) :
    (numbered nodes).map Prod.snd = List.range' 1 nodes.length := List.zipIdx_map_snd 1 nodes

theorem Filtering.run {predicates : List Expr} {heap after : Heap} {groups result : List (List NodeId)}
    {stages : List (Stage Num)}
    (filtering : Filtering env depth predicates heap groups stages after result) :
    ∀ stage ∈ stages, Exists fun expr => stage.Run env.locals expr := by
  induction filtering with
  | done => exact nofun
  | next run operand leaves made later inductionHypothesis =>
      exact List.forall_mem_cons.mpr ⟨⟨_, run⟩, inductionHypothesis⟩

/-- From the second predicate on, the candidates are numbered through. -/
theorem Filtering.numbered_later {predicates : List Expr} {heap after : Heap}
    {groups result : List (List NodeId)} {stages : List (Stage Num)}
    (filtering : Filtering env depth predicates heap groups stages after result) :
    ∀ stage ∈ stages.tail, stage.groups.flatten.map (fun n => (stage.heap.get n).position) =
      List.range' 1 stage.groups.flatten.length := by
  induction filtering with
  | done => exact nofun
  | next run operand leaves made later inductionHypothesis =>
      intro stage member
      rw [List.tail_cons] at member
      cases later with
      | done => cases member
      | next run' operand' leaves' made' later' =>
          rcases List.mem_cons.mp member with rfl | behind
          · have positions := made.positions
            have length := made.copied.length
            simp only [numbered, List.length_zipIdx] at length
            rw [numbered_snd, ← length] at positions
            exact positions
          · exact inductionHypothesis stage behind

end Runs

/-! ## Steps and their predicates -/

section Steps

variable {Num : Type} [Double Num] {env : Env Num} {depth : Nat} {heap middle start : Heap}
  {inside region : NodeId → Prop}

/-- The positions of what a step yields from the members of a path: an axis
counts for every member, attributes are counted through. -/
theorem step_positions {head : ExprNode} (follows : Follows head) {before : Expr}
    (some_ : before ≠ .null) {current : NodeId} {value first : RValue Num} {nodes nodes' : List NodeId}
    (evaluated : xpathExecuteScalar env depth before current heap = some (value, middle))
    (found : Found env middle inside region region value nodes)
    (stepped : xpathExecuteScalar env depth (.node head before .null) current heap =
      some (first, start)) (listed' : members first start = some nodes') :
    (head.type.isAxis = true → ∀ lists,
      (nodes.mapM fun m => axisNodes head.type middle m head.kind) = some lists →
      nodes'.map (fun n => (start.get n).position) = lists.flatten.map Prod.snd) ∧
    (head.type.isAxis = false →
      nodes'.map (fun n => (start.get n).position) = List.range' 1 nodes'.length) := by
  have listed := found.listed
  have nothing : members first start = some [] → nodes' = [] := fun none_ =>
    Option.some.inj (listed'.symm.trans none_)
  have emptySet : ∀ heap : Heap, siblings heap none = some [] := fun heap =>
    siblings_of_chain .nil nofun
  cases before with
  | null => exact absurd rfl some_
  | node head' children next =>
      change executeNode env (keyEval env depth) head
        (⟨head', xpathExecuteScalar env depth (.node head' children next)⟩ ::
          operandsAt env depth next) current heap = _ at stepped
      rcases follows with axis | attr | attrAll
      · refine ⟨fun _ lists counted => ?_, fun other => absurd axis (Bool.eq_false_iff.mp other)⟩
        rw [executeNode_axis env _ axis] at stepped
        unfold xpathSelectCommon at stepped
        simp only [evaluated, Option.bind_eq_bind, Option.bind_some] at stepped
        cases value with
        | nodeset set =>
            have applied := found.setting.applySelector head.type head.kind found.inRegion
            rw [counted] at applied
            rcases applied with ⟨_, after, copies, done, made⟩
            simp only at stepped
            rw [show siblings middle set = some nodes from listed, Option.bind_some, done] at stepped
            cases stepped
            rw [Option.some.inj (listed'.symm.trans made.listed), made.positions]
        | null | bool | int | number | string =>
            cases stepped
            cases listed
            cases counted
            rw [nothing (emptySet _)]
            rfl
      · refine ⟨fun axis => absurd axis (by rw [attr]; decide), fun _ => ?_⟩
        unfold executeNode attributeStep at stepped
        simp only [attr, evaluated, Option.bind_eq_bind, Option.bind_some] at stepped
        cases value with
        | nodeset set =>
            have collected := attributesOf_appended found.setting.closed head.name nodes found.inRegion
              (.refl middle) (t := none) nofun 0
            simp only at stepped
            rw [show siblings middle set = some nodes from listed, Option.bind_some] at stepped
            cases values : nodes.mapM fun n => xmlGetAttr middle head.name (middle.size + 1) n with
            | none =>
                rw [values] at collected
                rw [show attributesOf head.name middle none 0 nodes = none from collected] at stepped
                cases stepped
            | some values' =>
                rw [values] at collected
                rcases collected with ⟨after, copies, sources, done, made, _, counted⟩
                rw [done] at stepped
                cases stepped
                rw [Option.some.inj (listed'.symm.trans made.listed), made.positions, counted,
                  made.copied.length]
        | null | bool | int | number | string =>
            cases stepped
            rw [nothing rfl]
            rfl
      · refine ⟨fun axis => absurd axis (by rw [attrAll]; decide), fun _ => ?_⟩
        unfold executeNode allAttributesStep at stepped
        simp only [attrAll, evaluated, Option.bind_eq_bind, Option.bind_some] at stepped
        cases value with
        | nodeset set =>
            simp only at stepped
            rw [show siblings middle set = some nodes from listed, Option.bind_some] at stepped
            unfold xpathGetAttrs at stepped
            cases values : nodes.mapM fun n => siblings middle (middle.get n).attributes with
            | none =>
                rw [values] at stepped
                cases stepped
            | some lists =>
                rw [values] at stepped
                have sourced := found.setting.closed.attributes_sourced found.inRegion values
                rcases found.setting.newSelection sourced with ⟨copies, begun, made⟩
                simp only [Option.bind_eq_bind, Option.bind_some, begun] at stepped
                cases stepped
                have length := made.copied.length
                simp only [numbered, List.length_zipIdx] at length
                rw [Option.some.inj (listed'.symm.trans made.listed), made.positions, numbered_snd,
                  length]
        | null | bool | int | number | string =>
            cases stepped
            rw [nothing (emptySet _)]
            rfl

/-- The candidates that a step finds from the members of a path, by members. -/
structure Candidates (head : ExprNode) (middle : Heap) (nodes : List NodeId) (start : Heap)
    (groups : List (List NodeId)) : Prop where
  items : nodes.mapM (stepItems head middle) = some (groups.map (List.map (item start)))
  axis : head.type.isAxis = true → ∀ lists,
    (nodes.mapM fun m => axisNodes head.type middle m head.kind) = some lists →
    groups.map (List.map fun n => (start.get n).position) = lists.map (List.map Prod.snd)
  attributes : head.type.isAxis = false →
    groups.flatten.map (fun n => (start.get n).position) = List.range' 1 groups.flatten.length

theorem exists_candidates {head : ExprNode} (follows : Follows head) {before : Expr}
    (some_ : before ≠ .null) {current : NodeId} {value first : RValue Num} {nodes : List NodeId}
    (evaluated : xpathExecuteScalar env depth before current heap = some (value, middle))
    (found : Found env middle inside region region value nodes)
    (stepped : xpathExecuteScalar env depth (.node head before .null) current heap =
      some (first, start)) :
    Exists fun groups : List (List NodeId) => members first start = some groups.flatten ∧
      Candidates head middle nodes start groups := by
  have further := found.stepOver follows evaluated some_
  rw [stepped] at further
  cases listing : nodes.mapM (stepItems head middle) with
  | none =>
      rw [listing] at further
      cases further
  | some lists =>
      rw [listing] at further
      rcases further with ⟨_, _, grown, nodes', same, found', items⟩
      cases same
      have length : nodes'.length = lists.flatten.length := by rw [← items, List.length_map]
      rcases exists_groups nodes' lists length with ⟨groups, rfl, lengths⟩
      have positions := step_positions follows some_ evaluated found stepped found'.listed
      refine ⟨groups, found'.listed, ?_, ?_, positions.2⟩
      · rw [map_groups (item start) items lengths]
        exact listing
      · intro axis counted listed
        apply map_groups
        · rw [positions.1 axis counted listed, List.map_flatten]
        · have each : stepItems head middle = fun c =>
              (axisNodes head.type middle c head.kind).map (List.map fun s => item middle s.1) :=
            funext fun c => stepItems_axis axis middle c
          rw [each, mapM_map, listed] at listing
          cases listing
          rw [lengths, List.map_map, List.map_map]
          apply List.map_congr_left
          intro list _
          simp only [Function.comp_apply, List.length_map]

end Steps

/-- Two elements with children to count. -/
def twoParents : Bytes := lit "<r i=\"\"><p><b/><b/></p><p><b/><b/><b/></p></r>"

theorem twoParents_setting :
    Setting (Env.bare Int 0) (memoryAfter 60 twoParents) (Made 0 (memoryAfter 60 twoParents))
      (From 0 (memoryAfter 60 twoParents)) := by
  have parsed : DoParse .empty twoParents (some 0) (memoryAfter 60 twoParents) := ⟨60, rfl⟩
  have root : Made 0 (memoryAfter 60 twoParents) 0 := by
    refine ⟨Nat.le_refl 0, ?_, ?_⟩ <;> decide
  exact (DoParse.region parsed).setting (.refl _) root nofun

/-- The step `b`. -/
def stepB : ExprNode := (Step.named (lit "b")).head

/-- The predicates `[2]` and `[1]`. -/
def secondFirst : List Expr :=
  [.leaf { type := .int, integer := 2 }, .leaf { type := .int, integer := 1 }]

/-- What a text yields in this document. -/
def inTwo (text : Bytes) (current : NodeId) : Option (List Item) :=
  yields (Env.bare Int 0) 0 text current (memoryAfter 60 twoParents)

/-- What a number leaves of a list. -/
def numberLeaves (number : Nat) (items : List Item) : List Item :=
  ((items.zipIdx 1).filter fun item => keeps item.2 (.int number : RValue Int)).map Prod.fst

end TurboXSL
