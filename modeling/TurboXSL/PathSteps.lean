import TurboXSL.PathSyntax
import TurboXSL.Regions

namespace TurboXSL

open Library

/-!
# Steps over node-sets

A location path stays inside of the region in which it is evaluated.  A step
over a node-set puts behind one another what its axis yields from each of the
members, with the positions counted from one for every member anew.
-/

theorem mapM_eq_some_iff {First Second : Type} {f : First → Option Second} {list : List First}
    {results : List Second} :
    list.mapM f = some results ↔ List.Forall₂ (fun a b => f a = some b) list results := by
  induction list generalizing results with
  | nil =>
      rw [List.mapM_nil, List.forall₂_nil_left_iff]
      constructor
      · rintro ⟨⟩
        rfl
      · rintro rfl
        rfl
  | cons head rest inductionHypothesis =>
      rw [List.mapM_cons]
      constructor
      · intro found
        rcases Option.bind_eq_some_iff.mp found with ⟨first, here, found⟩
        rcases Option.bind_eq_some_iff.mp found with ⟨others, there, done⟩
        cases done
        exact .cons here (inductionHypothesis.mp there)
      · intro related
        cases related with
        | cons here there =>
            rw [here, inductionHypothesis.mpr there]
            rfl

/-- Where an expression is evaluated. -/
structure Setting {Num : Type} (env : Env Num) (heap : Heap) (inside region : NodeId → Prop) :
    Prop where
  closed : Region heap inside region
  root : inside env.rootNode
  old : Old env.locals heap
  apart : ∀ l, env.locals = some l → ¬ region l

/-- The members of a value; what is no node-set has none. -/
def members {Num : Type} (value : RValue Num) (heap : Heap) : Option (List NodeId) :=
  match value with
  | .nodeset set => siblings heap set
  | _ => some []

/-- The result of a path: nodes of a region that has grown. -/
structure Found {Num : Type} (env : Env Num) (after : Heap) (inside region grown : NodeId → Prop)
    (value : RValue Num) (nodes : List NodeId) : Prop where
  setting : Setting env after inside grown
  old : ∀ n, region n → grown n
  listed : members value after = some nodes
  inRegion : ∀ n ∈ nodes, grown n

/-- An evaluator that stays inside of regions. -/
structure Stays {Num : Type} (env : Env Num) (run : Eval Num) : Prop where
  found : ∀ {before after : Heap} {inside region : NodeId → Prop} {current : NodeId}
    {value : RValue Num}, Setting env before inside region → region current →
    run current before = some (value, after) →
    Exists fun grown => Exists fun nodes => Found env after inside region grown value nodes

section Settings

variable {Num : Type} {env : Env Num} {heap after : Heap} {inside region : NodeId → Prop}
  (setting : Setting env heap inside region)

include setting

theorem Setting.allocates (allocates : Allocates env.locals heap after) :
    Setting env after inside region where
  closed := setting.closed.allocates setting.apart allocates
  root := setting.root
  old := setting.old.grow allocates
  apart := setting.apart

theorem Setting.appended {copies : List NodeId} {sources : List (NodeId × Nat)}
    (made : Appended env.locals heap after none copies sources)
    (sourced : ∀ s ∈ sources, region s.1) :
    Setting env after inside fun n => region n ∨ n ∈ copies where
  closed := setting.closed.appended setting.apart made sourced
  root := setting.root
  old := fun l here => Nat.lt_of_lt_of_le (setting.old l here) made.grows
  apart := by
    rintro l here (known | new)
    · exact setting.apart l here known
    · exact absurd (setting.old l here) (Nat.not_lt.mpr (made.fresh l new).1)

/-- A selection of members. -/
theorem Setting.found {copies : List NodeId} {sources : List (NodeId × Nat)}
    (made : Appended env.locals heap after none copies sources)
    (sourced : ∀ s ∈ sources, region s.1) :
    Found env after inside region (fun n => region n ∨ n ∈ copies)
      (.nodeset copies.head? : RValue Num) copies where
  setting := setting.appended made sourced
  old := fun _ => .inl
  listed := made.listed
  inRegion := fun _ => .inr

/-- What is no node-set has no members. -/
theorem Setting.foundNone {value : RValue Num} (none_ : members value heap = some []) :
    Found env heap inside region region value [] where
  setting := setting
  old := fun _ here => here
  listed := none_
  inRegion := nofun

end Settings

theorem Appended.weaken {locals : Ptr} {before after : Heap} {prev : Ptr} {copies : List NodeId}
    {sources : List (NodeId × Nat)} (appended : Appended none before after prev copies sources) :
    Appended locals before after prev copies sources where
  grows := appended.grows
  same := fun i small other _ => appended.same i small other nofun
  tail := appended.tail
  chain := appended.chain
  copied := appended.copied
  fresh := appended.fresh
  back := appended.back

/-- What an evaluation in a larger region finds is found in the smaller one. -/
theorem Found.smaller {Num : Type} {env : Env Num} {after : Heap}
    {inside region middle grown : NodeId → Prop} {value : RValue Num} {nodes : List NodeId}
    (found : Found env after inside middle grown value nodes) (within : ∀ n, region n → middle n) :
    Found env after inside region grown value nodes where
  setting := found.setting
  old := fun n here => found.old n (within n here)
  listed := found.listed
  inRegion := found.inRegion

/-! ## One step -/

section Steps

variable {Num : Type} {env : Env Num} {heap : Heap} {inside region : NodeId → Prop}
  (setting : Setting env heap inside region)

include setting

/-- A selection of what an axis yields. -/
theorem Setting.newSelection {sources : List (NodeId × Nat)} (sourced : ∀ s ∈ sources, region s.1) :
    Exists fun copies => (newSelection heap sources).2 = copies.head? ∧
      Appended env.locals heap (newSelection heap sources).1 none copies sources := by
  rcases newSelection_appended sources fun s at_ => setting.closed.bound (sourced s at_) with
    ⟨copies, head, made⟩
  exact ⟨copies, head, made.weaken⟩

/-- A step over members returns where it returns from each of them, with a
selection of what it yields from them, one behind the other. -/
theorem Setting.applySelector (type : ExprType) (kind : Option Kind) {nodes : List NodeId}
    (inRegion : ∀ c ∈ nodes, region c) :
    match nodes.mapM fun c => axisNodes type heap c kind with
    | none => xpathApplySelector (fun heap c => axisNodes type heap c kind) heap none nodes = none
    | some lists => (∀ s ∈ lists.flatten, region s.1) ∧ Exists fun after => Exists fun copies =>
        xpathApplySelector (fun heap c => axisNodes type heap c kind) heap none nodes =
          some (after, copies.head?) ∧
        Appended env.locals heap after none copies lists.flatten := by
  have keeps : ∀ c ∈ nodes, ∀ after, heap.Extends after →
      axisNodes type after c kind = axisNodes type heap c kind := by
    intro c at_ after extended
    apply setting.closed.axisNodes_keep extended.grows _ (inRegion c at_)
    exact fun n member => extended.same n (setting.closed.bound member)
  have sourced : ∀ c ∈ nodes, ∀ sources, axisNodes type heap c kind = some sources →
      ∀ s ∈ sources, region s.1 := fun c at_ sources found =>
    setting.closed.axisNodes_region (inRegion c at_) found
  have applied := xpathApplySelector_appended (fun heap c => axisNodes type heap c kind) nodes
    (.refl heap) (nofun : ∀ p, (none : Ptr) = some p → _) keeps fun c at_ sources found s member =>
      setting.closed.bound (sourced c at_ sources found s member)
  cases listing : nodes.mapM fun c => axisNodes type heap c kind with
  | none =>
      rw [listing] at applied
      exact applied
  | some lists =>
      rw [listing] at applied
      rcases applied with ⟨after, copies, done, made⟩
      refine ⟨?_, after, copies, done, made.weaken⟩
      intro s member
      rcases List.mem_flatten.mp member with ⟨sources, at_, inSources⟩
      rcases List.forall₂_iff_get.mp (mapM_eq_some_iff.mp listing) with ⟨length, all⟩
      rcases List.getElem_of_mem at_ with ⟨i, small, rfl⟩
      have here := all i (length ▸ small) small
      exact sourced _ (List.get_mem _ _) _ here s inSources

end Steps

/-! ## Items -/

/-- What the copies of members are. -/
theorem Setting.items {Num : Type} {env : Env Num} {heap after : Heap}
    {inside region : NodeId → Prop} (setting : Setting env heap inside region)
    {copies : List NodeId} {sources : List (NodeId × Nat)}
    (made : Appended env.locals heap after none copies sources)
    (sourced : ∀ s ∈ sources, region s.1) :
    copies.map (item after) = sources.map fun s => item heap s.1 := by
  have later := (setting.appended made sourced).closed
  have kept : ∀ n, region n → after.get n = heap.get n := fun n member =>
    made.same n (setting.closed.bound member) nofun fun here => setting.apart n here member
  have each : ∀ c s, CopyOf after s c → region s → c ∈ copies → item after c = item heap s := by
    intro c s copy member at_
    rw [later.item_copy (.inr at_) copy]
    exact setting.closed.item_keep made.grows kept member
  have copied := made.copied
  clear made later
  induction copied with
  | nil => rfl
  | @cons c s copies sources first _ inductionHypothesis =>
      rw [List.map_cons, List.map_cons,
        each c s.1 first.1 (sourced s List.mem_cons_self) List.mem_cons_self,
        inductionHypothesis (fun s at_ => sourced s (List.mem_cons_of_mem _ at_))
          fun c s copy member at_ => each c s copy member (List.mem_cons_of_mem _ at_)]

theorem items_numbered (heap : Heap) (nodes : List NodeId) :
    ((numbered nodes).map fun s => item heap s.1) = nodes.map (item heap) := by
  rw [show (fun s : NodeId × Nat => item heap s.1) = item heap ∘ Prod.fst from rfl, ← List.map_map,
    numbered_fst]

section Evaluation

variable {Num : Type} [Double Num] (env : Env Num) (depth : Nat)

/-- The node-set that an expression yields, as items. -/
def itemsOf (tree : Expr) (current : NodeId) (heap : Heap) : Option (List Item) := do
  let (value, after) ← xpathExecuteScalar env depth tree current heap
  let nodes ← members value after
  some (nodes.map (item after))

end Evaluation

/-! ## Predicates -/

section Tests

variable {Num : Type} [Double Num]

/-- What the loop of `xpath_filter` makes of the value of a predicate. -/
def passes (position : Nat) : RValue Num → Bool
  | .int n => decide ((position : Int) = n)
  | value => rval2bool value

/-- The value of a predicate; a literal is not evaluated. -/
def predicateValue (expr : Operand Num) : Eval Num := fun node heap =>
  if expr.head.type = .int then some (.int expr.head.integer, heap) else expr.run node heap

theorem filterTest_eq (expr : Operand Num) (node : NodeId) (heap : Heap) :
    filterTest expr node heap = (predicateValue expr node heap).map fun result =>
      (passes (result.2.get node).position result.1, result.2) := by
  unfold filterTest predicateValue
  split
  · rfl
  · cases expr.run node heap with
    | none => rfl
    | some result =>
        rcases result with ⟨value, after⟩
        cases value <;> rfl

/-- A test of the loop: the candidate, the memory in which the predicate is
evaluated, its value, and whether the candidate is selected. -/
structure Test (Num : Type) where
  node : NodeId
  heap : Heap
  value : RValue Num
  selected : Bool

/-- The tests that the loop makes. -/
def filterTests (expr : Operand Num) : Heap → Ptr → Nat → List NodeId → Option (List (Test Num))
  | _, _, _, [] => some []
  | heap, tmp, pos, node :: rest => do
      let (value, later) ← predicateValue expr node heap
      if passes (later.get node).position value then
        let (copied, dst) := addToSelection later tmp node (pos + 1)
        some (⟨node, heap, value, true⟩ :: (← filterTests expr copied (some dst) (pos + 1) rest))
      else some (⟨node, heap, value, false⟩ :: (← filterTests expr later tmp pos rest))

/-- The candidates that are selected. -/
def selectedNodes (tests : List (Test Num)) : List NodeId :=
  (tests.filter Test.selected).map Test.node

/-- A test in a memory that has kept the nodes of another one, and that decides
as the loop does. -/
structure TestedIn (locals tmp : Ptr) (expr : Operand Num) (heap : Heap) (test : Test Num) : Prop where
  value : Exists fun after => predicateValue expr test.node test.heap = some (test.value, after)
  decides : test.selected = passes (heap.get test.node).position test.value
  grows : heap.size ≤ test.heap.size
  same : ∀ i < heap.size, locals ≠ some i → tmp ≠ some i → test.heap.get i = heap.get i

theorem TestedIn.earlier {locals tmp tmp' : Ptr} {expr : Operand Num} {heap middle : Heap}
    {test : Test Num} (tested : TestedIn locals tmp' expr middle test)
    (grows : heap.size ≤ middle.size)
    (same : ∀ i < heap.size, locals ≠ some i → tmp ≠ some i → middle.get i = heap.get i)
    (ends : ∀ i < heap.size, tmp' = some i → tmp = some i)
    (old : test.node < heap.size ∧ locals ≠ some test.node ∧ tmp ≠ some test.node) :
    TestedIn locals tmp expr heap test where
  value := tested.value
  decides := by rw [tested.decides, same test.node old.1 old.2.1 old.2.2]
  grows := Nat.le_trans grows tested.grows
  same := by
    intro i small other apart
    rw [tested.same i (Nat.lt_of_lt_of_le small grows) other fun here => apart (ends i small here)]
    exact same i small other apart

/-- A filter copies the candidates that are selected, counted from `pos` on. -/
theorem filterNodes_tests {locals : Ptr} {expr : Operand Num} (framed : Framed locals expr.run)
    (nodes : List NodeId) {heap after : Heap} {tmp set : Ptr} {pos : Nat} (old : Old locals heap)
    (bound : ∀ p, tmp = some p → p < heap.size)
    (apart : ∀ p, tmp = some p → locals ≠ some p ∧ p ∉ nodes)
    (known : ∀ n ∈ nodes, n < heap.size ∧ locals ≠ some n)
    (filtered : filterNodes expr heap tmp pos nodes = some (after, set)) :
    Exists fun copies => Exists fun tests => set = copies.head? ∧
      filterTests expr heap tmp pos nodes = some tests ∧ tests.map Test.node = nodes ∧
      (∀ test ∈ tests, TestedIn locals tmp expr heap test) ∧
      Appended locals heap after tmp copies ((selectedNodes tests).zipIdx (pos + 1)) := by
  induction nodes generalizing heap tmp set pos with
  | nil =>
      cases filtered
      exact ⟨[], [], rfl, rfl, rfl, nofun, .nil locals _ tmp⟩
  | cons node rest inductionHypothesis =>
      rcases Option.bind_eq_some_iff.mp filtered with ⟨⟨_, behind⟩, tested, filtered⟩
      have step := filterTest_allocates framed old tested
      have here := known node List.mem_cons_self
      have tmpKept : ∀ p, tmp = some p → locals ≠ some p := fun p same => (apart p same).1
      have tmpNode : tmp ≠ some node := fun same => (apart node same).2 List.mem_cons_self
      have laterKnown : ∀ n ∈ rest, n < behind.size ∧ locals ≠ some n := by
        intro n member
        have there := known n (List.mem_cons_of_mem node member)
        exact ⟨Nat.lt_of_lt_of_le there.1 step.grows, there.2⟩
      have restOld : ∀ {tests : List (Test Num)}, tests.map Test.node = rest → ∀ test ∈ tests,
          test.node < heap.size ∧ locals ≠ some test.node ∧ tmp ≠ some test.node := by
        rintro tests rfl test member
        have there := List.mem_cons_of_mem node (List.mem_map_of_mem (f := Test.node) member)
        exact ⟨(known _ there).1, (known _ there).2, fun same => (apart _ same).2 there⟩
      have begun := Appended.of_allocates step tmpKept
      rw [filterTest_eq] at tested
      rcases Option.map_eq_some_iff.mp tested with ⟨⟨value, middle⟩, valued, same⟩
      cases same
      have decides : passes (middle.get node).position value =
          passes (heap.get node).position value := by
        rw [step.same node here.1 here.2]
      have first : TestedIn locals tmp expr heap
          ⟨node, heap, value, passes (middle.get node).position value⟩ :=
        ⟨⟨middle, valued⟩, decides, Nat.le_refl _, fun _ _ _ _ => rfl⟩
      unfold filterTests
      rw [valued]
      simp only [Option.bind_eq_bind, Option.bind_some] at filtered ⊢
      cases selected : passes (middle.get node).position value with
      | false =>
          rw [selected, if_neg nofun] at filtered
          rcases inductionHypothesis (old.grow step)
            (fun p same => Nat.lt_of_lt_of_le (bound p same) step.grows)
            (fun p same => ⟨tmpKept p same, fun member =>
              (apart p same).2 (List.mem_cons_of_mem node member)⟩) laterKnown filtered with
            ⟨copies, tests, head, traced, listed, others, made⟩
          rw [selected] at first
          refine ⟨copies, ⟨node, heap, value, false⟩ :: tests, head, ?_, ?_, ?_, ?_⟩
          · rw [if_neg nofun, traced]
            rfl
          · rw [List.map_cons, listed]
          · refine List.forall_mem_cons.mpr ⟨first, fun test member => ?_⟩
            exact (others test member).earlier step.grows
              (fun i small other _ => step.same i small other) (fun _ _ same => same)
              (restOld listed test member)
          · exact begun.trans old tmpKept made nofun
      | true =>
          rw [selected, if_pos rfl] at filtered
          rcases Option.bind_eq_some_iff.mp filtered with ⟨⟨last, behind⟩, further, done⟩
          cases done
          have size : heap.size ≤ middle.size := step.grows
          have copied : Appended locals middle (addToSelection middle tmp node (pos + 1)).1 tmp
              [middle.size] [(node, pos + 1)] :=
            addToSelection_appended (Nat.lt_of_lt_of_le here.1 size) tmpNode
              fun p same => Nat.lt_of_lt_of_le (bound p same) size
          have new := (copied.fresh middle.size (List.mem_singleton_self _)).2
          have oldThen : Old locals (addToSelection middle tmp node (pos + 1)).1 := fun l same =>
            Nat.lt_of_lt_of_le (old l same) (Nat.le_trans size copied.grows)
          have newLocal : ∀ p, some middle.size = some p → locals ≠ some p ∧ p ∉ rest := by
            rintro p ⟨⟩
            refine ⟨fun same => ?_, fun member => ?_⟩
            · exact Nat.lt_irrefl _ (Nat.lt_of_lt_of_le (old _ same) size)
            · exact Nat.lt_irrefl _ (laterKnown _ member).1
          rcases inductionHypothesis oldThen (by rintro p ⟨⟩; exact new) newLocal
            (fun n member => ⟨Nat.lt_of_lt_of_le (laterKnown n member).1 copied.grows,
              (laterKnown n member).2⟩) further with ⟨copies, tests, head, traced, listed, others, made⟩
          rw [selected] at first
          refine ⟨middle.size :: copies, ⟨node, heap, value, true⟩ :: tests, rfl, ?_, ?_, ?_, ?_⟩
          · rw [if_pos rfl]
            exact congrArg (fun later : Option (List (Test Num)) => later.bind fun tests =>
              some (⟨node, heap, value, true⟩ :: tests)) traced
          · rw [List.map_cons, listed]
          · refine List.forall_mem_cons.mpr ⟨first, fun test member => ?_⟩
            apply (others test member).earlier (Nat.le_trans size copied.grows) _ _
              (restOld listed test member)
            · intro i small other apart
              rw [copied.same i (Nat.lt_of_lt_of_le small size) apart other]
              exact step.same i small other
            · rintro i small ⟨⟩
              exact absurd small (Nat.not_lt.mpr size)
          · have first := begun.trans old tmpKept copied nofun
            exact first.trans old tmpKept made fun s member => by
              cases List.mem_singleton.mp member
              exact ⟨here.1, tmpNode, here.2⟩

end Tests

/-- The nodes with a `true` beside them. -/
def pick (nodes : List NodeId) (flags : List Bool) : List NodeId :=
  ((nodes.zip flags).filter Prod.snd).map Prod.fst

theorem pick_subset (nodes : List NodeId) (flags : List Bool) : pick nodes flags ⊆ nodes := by
  intro n member
  rcases List.mem_map.mp member with ⟨entry, at_, rfl⟩
  exact (List.of_mem_zip (List.mem_filter.mp at_).1).1

/-- The tests of a loop over nodes: each returns in some memory that has kept
the old nodes, but for the local variables and the end `tmp` of the list that
is built. -/
def Tested {Num : Type} [Double Num] (locals tmp : Ptr) (expr : Operand Num) (heap : Heap)
    (nodes : List NodeId) (flags : List Bool) : Prop :=
  List.Forall₂ (fun node flag => Exists fun middle => Exists fun later =>
    filterTest expr node middle = some (flag, later) ∧ heap.size ≤ middle.size ∧
      ∀ i < heap.size, locals ≠ some i → tmp ≠ some i → middle.get i = heap.get i) nodes flags

/-- The tests as flags beside the nodes. -/
theorem filterNodes_appended {Num : Type} [Double Num] {locals : Ptr} {expr : Operand Num}
    (framed : Framed locals expr.run) (nodes : List NodeId) {heap after : Heap} {tmp set : Ptr}
    {pos : Nat} (old : Old locals heap) (bound : ∀ p, tmp = some p → p < heap.size)
    (apart : ∀ p, tmp = some p → locals ≠ some p ∧ p ∉ nodes)
    (known : ∀ n ∈ nodes, n < heap.size ∧ locals ≠ some n)
    (filtered : filterNodes expr heap tmp pos nodes = some (after, set)) :
    Exists fun copies => Exists fun flags => set = copies.head? ∧
      Tested locals tmp expr heap nodes flags ∧
      Appended locals heap after tmp copies ((pick nodes flags).zipIdx (pos + 1)) := by
  rcases filterNodes_tests framed nodes old bound apart known filtered with
    ⟨copies, tests, head, _, rfl, each, made⟩
  refine ⟨copies, tests.map Test.selected, head, ?_, ?_⟩
  · unfold Tested
    rw [List.forall₂_map_left_iff, List.forall₂_map_right_iff, List.forall₂_same]
    intro test member
    have tested := each test member
    have here := known test.node (List.mem_map_of_mem member)
    rcases tested.value with ⟨later, valued⟩
    refine ⟨test.heap, later, ?_, tested.grows, tested.same⟩
    have run : filterTest expr test.node test.heap =
        some (passes (later.get test.node).position test.value, later) := by
      rw [filterTest_eq, valued]
      rfl
    have older : Old locals test.heap := fun l same => Nat.lt_of_lt_of_le (old l same) tested.grows
    have step := filterTest_allocates framed older run
    have outside : tmp ≠ some test.node := fun same =>
      (apart _ same).2 (List.mem_map_of_mem member)
    rw [run, tested.decides, step.same test.node (Nat.lt_of_lt_of_le here.1 tested.grows) here.2,
      tested.same test.node here.1 here.2 outside]
  · have picked : pick (tests.map Test.node) (tests.map Test.selected) = selectedNodes tests := by
      unfold pick selectedNodes
      rw [List.zip_map', List.filter_map, List.map_map]
      rfl
    rw [picked]
    exact made

end TurboXSL
