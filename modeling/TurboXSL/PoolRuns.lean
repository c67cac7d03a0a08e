import TurboXSL.TaskPool
import TurboXSL.VerbatimCopies

namespace TurboXSL

open Library Program Output

/-!
# Runs of a pool

Two ways in which a wait says too little.  A counter has 32 bits, so that it is
zero again when 2 ^ 32 tasks are unfinished; and a call that the pool refuses
runs on the spot but still hands tasks to the pool, which carry no counter and
which nobody waits for.  Both show with a stylesheet of one instruction,
`xsl:apply-templates` for the root, and a document of a root with children.
-/

/-! ## A thread that is not interrupted -/

section Uninterrupted

variable {Num : Type} {n m : Nat}

/-- What the operations of an activity do to the pool when nobody else steps. -/
def uninterrupted (origin : Nat) :
    (Answer : Type) → Operation Num Answer → PoolMemory Num → Option (Answer × PoolMemory Num)
  | _, .memory change, shared =>
      (change shared.memory).map fun (answer, memory) => (answer, { shared with memory := memory })
  | _, .context _, shared => some ((), shared)
  | _, .start task, shared =>
      some ((), { shared with
        queue := shared.queue ++ [⟨origin, task⟩]
        counters := sharedVariableIncrease shared.counters task.workers })

/-- The steps of one activity, one behind the other. -/
inductive ActivityRun : PoolMemory Num × Activity Num → PoolMemory Num × Activity Num → Prop where
  | refl (here : PoolMemory Num × Activity Num) : ActivityRun here here
  | head {shared middle : PoolMemory Num} {activity next : Activity Num} {event : PoolEvent}
      {last : PoolMemory Num × Activity Num}
      (step : ActivityStep shared activity event middle next)
      (later : ActivityRun (middle, next) last) : ActivityRun (shared, activity) last

/-- A program that returns can be run to its end in one go. -/
theorem activityRun_of_run {origin : Nat} {workers : Option Nat} {program : Thread Num Unit}
    {shared after : PoolMemory Num}
    (ran : program.run (uninterrupted origin) shared = some ((), after)) :
    ActivityRun (shared, ⟨origin, workers, program, none⟩)
      (after, ⟨origin, workers, .done (), none⟩) := by
  induction program generalizing shared with
  | done value =>
      cases ran
      exact .refl _
  | perform operation next inductionHypothesis =>
      rcases Option.bind_eq_some_iff.mp ran with ⟨⟨answer, middle⟩, performed, later⟩
      have rest := inductionHypothesis answer later
      cases operation with
      | memory change =>
          rcases Option.map_eq_some_iff.mp performed with ⟨⟨value, memory⟩, changed, same⟩
          cases same
          exact .head (.memory rfl rfl changed) rest
      | context made =>
          cases performed
          exact .head (.context rfl rfl) rest
      | start task =>
          cases performed
          exact .head (.start rfl rfl) (.head (.enqueue rfl) rest)

variable [Double Num] {state : TaskPool n m Num} {shared : PoolMemory Num}
  {activity after : Activity Num}

theorem worker_runs {worker : Fin n} (here : state.workers worker = some activity)
    (runs : ActivityRun (state.shared, activity) (shared, after)) :
    Exists fun events => Run TaskPoolStep state events { state with
      shared := shared, workers := moved state.workers worker (some after) } := by
  generalize first : (state.shared, activity) = start at runs
  generalize last : (shared, after) = final at runs
  induction runs generalizing state activity with
  | refl place =>
      cases first.trans last.symm
      rw [moved_self here]
      exact ⟨[], .refl⟩
  | @head _ middle _ next event _ step later inductionHypothesis =>
      cases first
      have placed : { state with
          shared := middle
          workers := moved state.workers worker (some next) }.workers worker = some next :=
        moved_same
      rcases inductionHypothesis placed rfl last with ⟨events, run⟩
      rw [moved_moved] at run
      exact ⟨[event] ++ events, (Run.single (.work worker here step)).append run⟩

theorem client_runs {client : Fin m} (here : state.clients client = .inline activity)
    (runs : ActivityRun (state.shared, activity) (shared, after)) :
    Exists fun events => Run TaskPoolStep state events { state with
      shared := shared, clients := moved state.clients client (.inline after) } := by
  generalize first : (state.shared, activity) = start at runs
  generalize last : (shared, after) = final at runs
  induction runs generalizing state activity with
  | refl place =>
      cases first.trans last.symm
      rw [moved_self here]
      exact ⟨[], .refl⟩
  | @head _ middle _ next event _ step later inductionHypothesis =>
      cases first
      have placed : { state with
          shared := middle
          clients := moved state.clients client (.inline next) }.clients client = .inline next :=
        moved_same
      rcases inductionHypothesis placed rfl last with ⟨events, run⟩
      rw [moved_moved] at run
      exact ⟨[event] ++ events, (Run.single (.run client here step)).append run⟩

end Uninterrupted

/-! ## Operations of an uninterrupted thread -/

section Operations

variable {Num Value Other : Type} {origin : Nat} {shared : PoolMemory Num}

def PoolMemory.withHeap (shared : PoolMemory Num) (heap : Heap) : PoolMemory Num :=
  { shared with memory := { shared.memory with heap := heap } }

/-- The thread goes on with the answer of its first part. -/
theorem run_first {first : Thread Num Value} {next : Value → Thread Num Other} {value : Value}
    {middle : PoolMemory Num}
    (ran : first.run (uninterrupted origin) shared = some (value, middle)) :
    (first >>= next).run (uninterrupted origin) shared =
      (next value).run (uninterrupted origin) middle := by
  rw [run_bind, ran]
  rfl

theorem run_reading {read : Heap → Option Value} {value : Value}
    (found : read shared.memory.heap = some value) :
    (reading read).run (uninterrupted origin) shared = some (value, shared) := by
  change ((((read shared.memory.heap).map _).map _).bind _) = _
  rw [found]
  rfl

theorem run_access {change : Memory Num → Option (Value × Memory Num)} {value : Value}
    {memory : Memory Num} (done : change shared.memory = some (value, memory)) :
    (access change).run (uninterrupted origin) shared =
      some (value, { shared with memory := memory }) := by
  change ((change shared.memory).map _).bind _ = _
  rw [done]
  rfl

theorem run_nodeOf (node : NodeId) :
    (nodeOf node).run (uninterrupted origin) shared =
      some (shared.memory.heap.get node, shared) := rfl

theorem run_changing {change : Heap → Option (Value × Heap)} {value : Value} {heap : Heap}
    (done : change shared.memory.heap = some (value, heap)) :
    (changing change).run (uninterrupted origin) shared = some (value, shared.withHeap heap) := by
  change ((((change shared.memory.heap).map _).map _).bind _) = _
  rw [done]
  rfl

theorem run_newContext (context : TemplateContext Num) :
    (newContext context).run (uninterrupted origin) shared = some (context, shared) := rfl

theorem run_eachNode_nil (fuel : Nat) (body : NodeId → Thread Num Unit) :
    (eachNode fuel none body).run (uninterrupted origin) shared = some ((), shared) := by
  cases fuel <;> rfl

theorem run_eachNode {body : NodeId → Thread Num Unit} {node : NodeId} {middle : PoolMemory Num}
    (fuel : Nat) (round : (body node).run (uninterrupted origin) shared = some ((), middle)) :
    (eachNode (fuel + 1) (some node) body).run (uninterrupted origin) shared =
      (eachNode fuel (middle.memory.heap.get node).next body).run (uninterrupted origin) middle := by
  unfold eachNode
  rw [loopNodes, run_first (run_first round), run_first rfl]

end Operations

/-! ## A stylesheet that applies templates to the children of the root -/

/-- The instruction, the root of a document with `count` children, the node of
the result and the children themselves. -/
def forkNode (count : Nat) (node : Nat) : XmlNode :=
  if node = 0 then { type := .element, name := some xslApply }
  else if node = 1 then { type := .element, name := some xslSRoot, children := some 4 }
  else if node < 4 then { type := .empty }
  else { type := .element, name := some (lit "e"), parent := some 1,
         next := if node + 1 < 4 + count then some (node + 1) else none }

/-- Nodes that are read but not written. -/
def forkCells (count : Nat) : List NodeId := 0 :: 1 :: List.range' 4 count

def forkMemory (count : Nat) : Memory Int where
  heap := ⟨4 + count, forkNode count⟩
  extra := fun _ => .null
  vars := fun _ => []
  rawout := fun _ => 0

def forkTransformation : Transformation Int where
  number := 0
  env := .bare Int 1
  depth := 1
  templates := Function.update (fun _ => none) none
    (some { root := some { matchString := lit "/", content := 0 } })
  namedTempl := fun _ => none
  parallelInstructions := fun name => name = xslApply ∨ name = xslForeach
  pool := true
  outmode := .xml

/-- The context with which `XSLTProcess` begins. -/
def forkContext : TemplateContext Int where
  context := forkTransformation
  result := 2
  documentNode := 1
  localVariables := 3

/-- The stylesheet and the document are there, and the result is a row of nodes. -/
structure Forking (count : Nat) (heap : Heap) : Prop where
  cells : ∀ n ∈ forkCells count, heap.get n = forkNode count n
  site : Exists fun row => Site none heap 2 row (forkCells count)

section Forking

variable {count : Nat} {heap : Heap}

theorem Site.alloc {parent : NodeId} {row ids : List NodeId}
    (site : Site none heap parent row ids) (name : Option Bytes) (type : NodeType) :
    Site none (xmlNewNode heap name type).1 parent row ids where
  old := nofun
  place := ⟨Nat.lt_succ_of_lt site.place.1, nofun, site.place.2.2⟩
  chain := by
    have kept : ∀ n < heap.size, (xmlNewNode heap name type).1.get n = heap.get n :=
      fun n small => Arena.alloc_get_of_lt _ _ small
    rw [kept parent site.place.1]
    exact site.chain.congr fun n member => congrArg XmlNode.next (kept n (site.row n member).1)
  row := fun n member =>
    ⟨Nat.lt_succ_of_lt (site.row n member).1, nofun, (site.row n member).2.2⟩
  source := fun n member => ⟨Nat.lt_succ_of_lt (site.source n member).1, nofun⟩

theorem Forking.alloc (forking : Forking count heap) (name : Option Bytes) (type : NodeType) :
    Forking count (xmlNewNode heap name type).1 := by
  rcases forking.site with ⟨row, site⟩
  refine ⟨fun n member => ?_, row, site.alloc name type⟩
  rw [← forking.cells n member]
  exact Arena.alloc_get_of_lt _ _ (site.source n member).1

theorem Forking.append (forking : Forking count heap) (type : NodeType) :
    Exists fun after => xmlAppendChild heap 2 type = some (after, heap.size) ∧
      Forking count after := by
  rcases forking.site with ⟨row, site⟩
  rcases xmlAppendChild_grafted site type with ⟨after, appended, grafted, _, _⟩
  refine ⟨after, appended, fun n member => ?_, _, grafted.site site (List.Subset.refl _)⟩
  rw [grafted.source site member, forking.cells n member]

theorem forking_start (count : Nat) : Forking count (forkMemory count).heap := by
  refine ⟨fun _ _ => rfl, [], ?_⟩
  constructor
  · exact nofun
  · refine ⟨Nat.lt_of_lt_of_le (by decide) (Nat.le_add_right 4 count), nofun, ?_⟩
    simp [forkCells]
  · exact .nil
  · exact nofun
  · intro n member
    refine ⟨?_, nofun⟩
    change n < 4 + count
    rcases List.mem_cons.mp member with rfl | member
    · exact Nat.lt_of_lt_of_le (by decide) (Nat.le_add_right 4 count)
    · rcases List.mem_cons.mp member with rfl | member
      · exact Nat.lt_of_lt_of_le (by decide) (Nat.le_add_right 4 count)
      · exact (List.mem_range'_1.mp member).2

theorem child_mem {first : Nat} (inside : first < count) : 4 + first ∈ forkCells count :=
  List.mem_cons_of_mem _ (List.mem_cons_of_mem _ (List.mem_range'_1.mpr (by omega)))

theorem forkNode_child (first : Nat) : forkNode count (4 + first) =
    { type := .element, name := some (lit "e"), parent := some 1,
      next := if 4 + first + 1 < 4 + count then some (4 + first + 1) else none } := by
  unfold forkNode
  rw [if_neg (by omega), if_neg (by omega), if_neg (by omega)]

/-- The children of the document from one of them on. -/
theorem Forking.children (forking : Forking count heap) {first rest : Nat}
    (inside : first + rest = count) (some_ : 0 < rest) :
    Siblings heap (some (4 + first)) (List.range' (4 + first) rest) := by
  induction rest generalizing first with
  | zero => cases some_
  | succ rest inductionHypothesis =>
      rw [List.range'_succ]
      refine .cons _ _ ?_
      rw [forking.cells _ (child_mem (by omega)), forkNode_child]
      cases rest with
      | zero =>
          rw [if_neg (by omega)]
          exact .nil
      | succ rest =>
          rw [if_pos (by omega)]
          exact @inductionHypothesis (first + 1) (by omega) (Nat.succ_pos _)

end Forking

section Rounds

variable {count origin : Nat} {shared : PoolMemory Int}
  (forking : Forking count shared.memory.heap)

include forking

/-- The instruction has no attributes. -/
theorem run_attributeOf (name : Bytes) :
    (attributeOf 0 name).run (uninterrupted origin) shared = some (none, shared) := by
  apply run_reading
  have cell := forking.cells 0 List.mem_cons_self
  have attributes : siblings shared.memory.heap (forkNode count 0).attributes = some [] :=
    siblings_of_chain .nil nofun
  rw [xmlGetAttr, cell, attributes]
  rfl

/-- Further elements follow all children but the last. -/
theorem isNodeParallel_child {first : Nat} (inside : first < count) :
    isNodeParallel shared.memory.heap (4 + first) = some (decide (first + 1 < count)) := by
  have cell := forking.cells _ (child_mem inside)
  rw [forkNode_child] at cell
  rw [isNodeParallel, cell, if_neg nofun]
  by_cases more : first + 1 < count
  · have chain := forking.children (show first + 1 + (count - (first + 1)) = count by omega)
      (by omega)
    have bound : ∀ n ∈ List.range' (4 + (first + 1)) (count - (first + 1)),
        n < shared.memory.heap.size := by
      intro n member
      rcases forking.site with ⟨row, site⟩
      have range := List.mem_range'_1.mp member
      refine (site.source n (List.mem_cons_of_mem _ (List.mem_cons_of_mem _ ?_))).1
      exact List.mem_range'_1.mpr (by omega)
    have element := forking.cells _ (child_mem more)
    rw [forkNode_child] at element
    rw [if_pos (by omega), show 4 + first + 1 = 4 + (first + 1) from rfl,
      siblings_of_chain chain bound]
    rw [show count - (first + 1) = (count - (first + 2)) + 1 by omega, List.range'_succ]
    simp only [Option.map_some, List.any_cons, element, decide_true, Bool.true_or, more]
  · rw [if_neg (by omega), siblings_of_chain .nil nofun]
    simp only [Option.map_some, List.any_nil, more, decide_false]

theorem run_appendChild (type : NodeType) :
    Exists fun heap => (appendChild 2 type).run (uninterrupted origin) shared =
        some (shared.memory.heap.size, shared.withHeap heap) ∧ Forking count heap := by
  rcases forking.append type with ⟨heap, appended, after⟩
  refine ⟨heap, run_changing ?_, after⟩
  rw [appended]
  rfl

/-- `template_task_run` on a context of this transformation creates a task. -/
theorem run_templateTaskRun (call : Caller Int) {context : TemplateContext Int}
    (transformation : context.context = forkTransformation) (mode : context.taskMode = .default)
    (function : TaskFunction) :
    Exists fun task => (templateTaskRun call 0 context function).run (uninterrupted origin) shared =
      some ((), { shared with
        queue := shared.queue ++ [⟨origin, task⟩]
        counters := sharedVariableIncrease shared.counters context.workers }) := by
  have cell := forking.cells 0 List.mem_cons_self
  unfold templateTaskRun
  rw [if_neg, run_first (run_attributeOf forking xslAFork), run_first (run_nodeOf 0), cell]
  · have name : (forkNode count 0).name = some xslApply := rfl
    dsimp only
    rw [mode, transformation, name, if_pos (by decide)]
    exact ⟨_, rfl⟩
  · rw [mode, transformation]
    rintro (impossible | impossible) <;> cases impossible

/-- A round for a child that is not the last one. -/
theorem run_applyToNode_forks (call : Caller Int) {context : TemplateContext Int}
    (transformation : context.context = forkTransformation) (result : context.result = 2)
    (taskMode : context.taskMode = .default) (parameters : Ptr) (localVariables : NodeId)
    (mode : Option Bytes) {first : Nat} (more : first + 1 < count) :
    Exists fun after : PoolMemory Int =>
      (applyToNode call context 0 parameters localVariables mode (4 + first)).run
          (uninterrupted origin) shared = some ((), after) ∧
        Forking count after.memory.heap ∧
        (Exists fun task => after.queue = shared.queue ++ [⟨origin, task⟩]) ∧
        after.counters = sharedVariableIncrease shared.counters context.workers := by
  rcases run_appendChild forking .empty with ⟨heap, appended, later⟩
  unfold applyToNode
  rw [result, run_first appended, run_first (run_newContext _)]
  unfold visitNode
  rw [run_first (run_reading (isNodeParallel_child later (Nat.lt_of_succ_lt more))),
    decide_eq_true more, if_pos rfl]
  rcases @run_templateTaskRun count origin (shared.withHeap heap) later call {
    context := context.context, result := shared.memory.heap.size, documentNode := 4 + first,
    parameters := parameters.or context.parameters, localVariables := localVariables, mode := mode,
    workers := context.workers, taskMode := context.taskMode } transformation taskMode
    .processOneNode with ⟨task, ran⟩
  exact ⟨_, ran, later, ⟨task, rfl⟩, rfl⟩

omit forking in
/-- No template matches a child. -/
theorem run_findTemplate_child {node : Nat} (child : node ≠ 1) :
    (findTemplate forkTransformation node none).run (uninterrupted origin) shared =
      some (none, shared) := by
  have entry : forkTransformation.templates none =
      some { root := some { matchString := lit "/", content := 0 } } := rfl
  have notRoot : ¬ (node = forkTransformation.env.rootNode) := child
  apply run_access
  rw [entry]
  simp only [notRoot, false_and, if_false]
  rfl

/-- The round for the last child, which is visited on the spot. -/
theorem run_applyToNode_last (fuel : Nat) {context : TemplateContext Int}
    (transformation : context.context = forkTransformation) (result : context.result = 2)
    (parameters : Ptr) (localVariables : NodeId) {first : Nat} (last : first + 1 = count) :
    Exists fun heap =>
      (applyToNode (perform (fuel + 1)) context 0 parameters localVariables none (4 + first)).run
          (uninterrupted origin) shared = some ((), shared.withHeap heap) ∧
        Forking count heap := by
  rcases run_appendChild forking .empty with ⟨heap, appended, later⟩
  have cell := later.cells _ (child_mem (show first < count by omega))
  rw [forkNode_child] at cell
  refine ⟨heap, ?_, later⟩
  unfold applyToNode
  rw [result, run_first appended, run_first (run_newContext _)]
  unfold visitNode
  rw [run_first (run_reading (isNodeParallel_child later (by omega))),
    decide_eq_false (by omega), if_neg nofun, perform]
  unfold processOneNode
  rw [transformation, run_first (run_findTemplate_child (show 4 + first ≠ 1 by omega))]
  unfold applyDefaultProcess
  have seen : (shared.withHeap heap).memory.heap.get (4 + first) = heap.get (4 + first) := rfl
  rw [run_first (run_nodeOf _), seen, cell, if_neg nofun]
  exact run_eachNode_nil _ _

end Rounds

/-- So many tasks are in the queue behind those there were, and counted. -/
structure Handed (origin tasks : Nat) (workers : Option Nat) (before after : PoolMemory Int) :
    Prop where
  queue : Exists fun new => after.queue = before.queue ++ new ∧ new.length = tasks ∧
    ∀ entry ∈ new, entry.origin = origin
  counters : after.counters = changeCounter before.counters (· + UInt32.ofNat tasks) workers

theorem changeCounter_zero (counters : Nat → Option UInt32) (workers : Option Nat) :
    changeCounter counters (· + UInt32.ofNat 0) workers = counters := by
  cases workers with
  | none => rfl
  | some workers =>
      have same : (counters workers).map (· + UInt32.ofNat 0) = counters workers := by
        cases counters workers with
        | none => rfl
        | some value => exact congrArg some (UInt32.add_zero value)
      rw [changeCounter, same, Function.update_eq_self]

theorem changeCounter_succ (counters : Nat → Option UInt32) (tasks : Nat) (workers : Option Nat) :
    changeCounter (sharedVariableIncrease counters workers) (· + UInt32.ofNat tasks) workers =
      changeCounter counters (· + UInt32.ofNat (tasks + 1)) workers := by
  cases workers with
  | none => rfl
  | some workers =>
      simp only [sharedVariableIncrease, changeCounter, Function.update_self,
        Function.update_idem, Option.map_map]
      congr 2
      funext value
      rw [Function.comp, UInt32.ofNat_add, UInt32.add_assoc, UInt32.add_comm 1]
      rfl

theorem Handed.head {origin tasks : Nat} {workers : Option Nat}
    {before middle after : PoolMemory Int}
    (first : Exists fun task => middle.queue = before.queue ++ [⟨origin, task⟩])
    (counted : middle.counters = sharedVariableIncrease before.counters workers)
    (later : Handed origin tasks workers middle after) :
    Handed origin (tasks + 1) workers before after := by
  rcases first with ⟨task, pushed⟩
  rcases later.queue with ⟨new, queue, length, origins⟩
  constructor
  · refine ⟨⟨origin, task⟩ :: new, ?_, congrArg Nat.succ length, ?_⟩
    · rw [queue, pushed, List.append_assoc]
      rfl
    · intro entry member
      rcases List.mem_cons.mp member with rfl | member
      · rfl
      · exact origins entry member
  · rw [later.counters, counted, changeCounter_succ]

section Loop

variable {count origin : Nat} {context : TemplateContext Int}
  (transformation : context.context = forkTransformation) (result : context.result = 2)
  (taskMode : context.taskMode = .default) (parameters : Ptr) (localVariables : NodeId)

include transformation result taskMode

/-- All children but the last are handed over, each with a task of its own. -/
theorem run_rounds {shared : PoolMemory Int} (forking : Forking count shared.memory.heap)
    {first rest : Nat} (inside : first + rest + 1 = count) (fuel more : Nat) :
    Exists fun after => (eachNode (rest + 1 + more) (some (4 + first))
        (applyToNode (perform (fuel + 1)) context 0 parameters localVariables none)).run
          (uninterrupted origin) shared = some ((), after) ∧
      Forking count after.memory.heap ∧ Handed origin rest context.workers shared after := by
  induction rest generalizing first shared with
  | zero =>
      rcases @run_applyToNode_last count origin shared forking fuel context transformation result
        parameters localVariables first (by omega) with ⟨heap, ran, later⟩
      have cell : ((shared.withHeap heap).memory.heap.get (4 + first)).next = none := by
        have cell := later.cells _ (child_mem (show first < count by omega))
        rw [forkNode_child, if_neg (by omega)] at cell
        exact congrArg XmlNode.next cell
      refine ⟨shared.withHeap heap, ?_, later, ?_, (changeCounter_zero _ _).symm⟩
      · rw [show 0 + 1 + more = more + 1 by omega, run_eachNode more ran, cell]
        exact run_eachNode_nil _ _
      · exact ⟨[], (List.append_nil _).symm, rfl,
          fun _ member => absurd member List.not_mem_nil⟩
  | succ rest inductionHypothesis =>
      rcases @run_applyToNode_forks count origin shared forking (perform (fuel + 1)) context
        transformation result taskMode parameters localVariables none first (by omega) with
          ⟨middle, ran, later, pushed, counted⟩
      have cell : (middle.memory.heap.get (4 + first)).next = some (4 + (first + 1)) := by
        have cell := later.cells _ (child_mem (show first < count by omega))
        rw [forkNode_child, if_pos (by omega)] at cell
        exact congrArg XmlNode.next cell
      rcases @inductionHypothesis middle later (first + 1) (by omega) with
        ⟨after, rounds, ended, handed⟩
      refine ⟨after, ?_, ended, .head pushed counted handed⟩
      rw [show rest + 1 + 1 + more = rest + 1 + more + 1 by omega, run_eachNode _ ran, cell]
      exact rounds

end Loop

theorem run_newNode {origin : Nat} {shared : PoolMemory Int} (name : Option Bytes)
    (type : NodeType) :
    (newNode name type).run (uninterrupted origin) shared =
      some (shared.memory.heap.size, shared.withHeap (xmlNewNode shared.memory.heap name type).1) :=
  rfl

/-- `xsl:apply-templates` at the root. -/
theorem run_instructionApplyTemplates {count origin : Nat} (some_ : 0 < count)
    {context : TemplateContext Int} (transformation : context.context = forkTransformation)
    (result : context.result = 2) (taskMode : context.taskMode = .default)
    (root : context.documentNode = 1) {shared : PoolMemory Int}
    (forking : Forking count shared.memory.heap) :
    Exists fun after => (instructionApplyTemplates (perform (count + 1)) (count + 1) context 0).run
        (uninterrupted origin) shared = some ((), after) ∧
      Forking count after.memory.heap ∧
      Handed origin (count - 1) context.workers shared after := by
  have cell := forking.cells 0 List.mem_cons_self
  have document := forking.cells 1 (List.mem_cons_of_mem _ List.mem_cons_self)
  have later : Forking count
      (shared.withHeap (xmlNewNode shared.memory.heap none .empty).1).memory.heap :=
    forking.alloc none .empty
  rcases run_rounds transformation result taskMode none shared.memory.heap.size later
    (show 0 + (count - 1) + 1 = count by omega) count 1 with ⟨after, rounds, ended, handed⟩
  refine ⟨after, ?_, ended, ⟨handed.queue, handed.counters⟩⟩
  rw [show count - 1 + 1 + 1 = count + 1 by omega] at rounds
  unfold instructionApplyTemplates
  rw [run_first (run_attributeOf forking xslASelect)]
  unfold appliedSelection
  rw [run_first (run_first (run_nodeOf _)), run_first (run_nodeOf 0), cell, root, document]
  have children : (sortsAndParameters (perform (count + 1)) (count + 1) context
      (forkNode count 1).children (forkNode count 0).children).run (uninterrupted origin) shared =
        some ((some 4, none), shared) := rfl
  rw [run_first children, run_first (run_newNode none .empty),
    run_first (run_attributeOf later xslAMode)]
  exact rounds

/-- The whole of the transformation: all children but one become tasks. -/
theorem run_fork {count : Nat} (some_ : 0 < count) (origin : Nat) (workers : Option Nat)
    {shared : PoolMemory Int} (start : shared.memory = forkMemory count) :
    Exists fun after => (perform (count + 3) .processOneNode
        { forkContext with workers := workers }).run (uninterrupted origin) shared =
          some ((), after) ∧
      Handed origin (count - 1) workers shared after := by
  have forking : Forking count shared.memory.heap := start ▸ forking_start count
  have later : Forking count
      (shared.withHeap (xmlNewNode shared.memory.heap none .empty).1).memory.heap :=
    forking.alloc none .empty
  have cell := later.cells 0 List.mem_cons_self
  rcases @run_instructionApplyTemplates count origin some_ {
    context := forkTransformation, instruction := some 0, result := 2, documentNode := 1,
    localVariables := shared.memory.heap.size, workers := workers } rfl rfl rfl rfl _ later with
      ⟨after, applied, ended, handed⟩
  have next : (after.memory.heap.get 0).next = none := by
    rw [ended.cells 0 List.mem_cons_self]
    rfl
  refine ⟨after, ?_, ⟨handed.queue, handed.counters⟩⟩
  have found : (findTemplate forkTransformation 1 none).run (uninterrupted origin) shared =
      some (some 0, shared) := rfl
  rw [perform, forkContext]
  unfold processOneNode
  dsimp only
  rw [run_first found, run_first (run_newNode none .empty), run_first (run_newContext _), perform]
  unfold applyXsltTemplate
  rw [run_eachNode count, next]
  · exact run_eachNode_nil _ _
  · have name : (forkNode count 0).name = some xslApply := rfl
    have listed : (instructions (perform (count + 1)) (count + 1) : List (Bytes ×
        (TemplateContext Int → NodeId → Thread Int Unit))).lookup xslApply =
          some (instructionApplyTemplates (perform (count + 1)) (count + 1)) := rfl
    rw [run_first (run_nodeOf 0), cell, if_neg nofun, name, if_pos (by decide)]
    unfold instructionsProcess
    rw [Option.bind_some, listed]
    exact applied

/-! ## Too many tasks for a counter -/

/-- A pool of one worker that nobody has called yet. -/
def idlePoolOf (count m : Nat) : TaskPool 1 m Int where
  shared := ⟨forkMemory count, [], fun _ => none⟩
  numOfBlocked := 0
  calls := 0
  workers := fun _ => none
  clients := fun _ => .away

theorem idlePoolOf_fresh (count m : Nat) : (idlePoolOf count m).Fresh :=
  ⟨rfl, fun _ => rfl, fun _ => rfl, fun _ => rfl⟩

/-- The first task of a granted call. -/
def forkTask : TemplateTask Int :=
  ⟨{ forkContext with workers := some 0 }, .processOneNode, some 0⟩

/-- The pool when its only slot is taken. -/
def takenPool (count m : Nat) (client : Fin m) : TaskPool 1 m Int where
  shared := ⟨forkMemory count, [⟨0, forkTask⟩], Function.update (fun _ => none) 0 (some 1)⟩
  numOfBlocked := 1
  calls := 1
  workers := fun _ => none
  clients := moved (fun _ => .away) client (.waiting 0)

theorem takenPool_reached (count m : Nat) (client : Fin m) :
    Run TaskPoolStep (idlePoolOf count m) [.other, .started 0, .other]
      (takenPool count m client) := by
  have called : Run TaskPoolStep (idlePoolOf count m) _ _ :=
    .single (.call client forkContext .processOneNode rfl rfl)
  have granted := called.tail (.grant client moved_same (Nat.zero_lt_succ 0))
  have submitted := granted.tail (.submit client moved_same)
  dsimp only [idlePoolOf] at submitted
  rw [moved_moved, moved_moved] at submitted
  exact submitted

/-- The memory of the pool when the first task of the call is on its way. -/
def takenMemory (count : Nat) : PoolMemory Int :=
  ⟨forkMemory count, [], Function.update (fun _ => none) 0 (some 1)⟩

/-- The worker has dequeued the task. -/
def dequeuedPool (count : Nat) : TaskPool 1 1 Int :=
  { takenPool count 1 0 with
    shared := takenMemory count
    workers := moved (fun _ => none) 0
      (some ⟨0, some 0, perform (count + 3) forkTask.function forkTask.context, none⟩) }

/-- With as many children as make the counter zero again, the client stops
waiting although none of the tasks has finished. -/
theorem waited_too_early {count : Nat} (some_ : 0 < count) (wraps : UInt32.ofNat count = 0) :
    Exists fun state : TaskPool 1 1 Int => Exists fun events =>
      Run TaskPoolStep (idlePoolOf count 1) events state ∧ state.clients 0 = .waited 0 ∧
        state.shared.counters 0 = some 0 ∧ state.unfinished 0 = count := by
  have taken := takenPool_reached count 1 0
  have dequeues : TaskPoolStep (takenPool count 1 0) .other (dequeuedPool count) :=
    @TaskPoolStep.dequeue _ 1 1 _ (takenPool count 1 0) 0 ⟨0, forkTask⟩ [] rfl rfl (count + 3)
  rcases @run_fork count some_ 0 (some 0) (takenMemory count) rfl with ⟨after, ran, handed⟩
  have here : (dequeuedPool count).workers 0 =
      some ⟨0, some 0, perform (count + 3) forkTask.function forkTask.context, none⟩ := rfl
  rcases worker_runs here (activityRun_of_run ran) with ⟨more, worked⟩
  have counter : after.counters 0 = some 0 := by
    rw [handed.counters]
    simp only [takenMemory, changeCounter, Function.update_self, Option.map_some]
    rw [← wraps, show UInt32.ofNat count = UInt32.ofNat (1 + (count - 1)) by
      rw [Nat.add_sub_cancel' some_], UInt32.ofNat_add]
    rfl
  have wakes : TaskPoolStep { dequeuedPool count with
      shared := after
      workers := moved (dequeuedPool count).workers 0 (some ⟨0, some 0, .done (), none⟩) } .other
      { dequeuedPool count with
        shared := after
        workers := moved (dequeuedPool count).workers 0 (some ⟨0, some 0, .done (), none⟩)
        clients := moved (dequeuedPool count).clients 0 (.waited 0) } :=
    .wake 0 rfl counter
  refine ⟨_, _, ((taken.tail dequeues).append worked).tail wakes, rfl, counter, ?_⟩
  rcases handed.queue with ⟨new, queue, length, origins⟩
  have queued : after.queue.countP (fun entry => entry.origin = 0) = count - 1 := by
    rw [queue, ← length]
    exact List.countP_eq_length.mpr fun entry member => decide_eq_true (origins entry member)
  unfold TaskPool.unfinished
  dsimp only
  rw [queued]
  have runs : headcount (runsTask 0) (moved (dequeuedPool count).workers 0
      (some ⟨0, some 0, .done (), none⟩)) = 1 := rfl
  have holds : headcount (fun worker => worker.any (Activity.holdsTask 0))
      (moved (dequeuedPool count).workers 0 (some ⟨0, some 0, .done (), none⟩)) = 0 := rfl
  have client : headcount (ClientPlace.holdsTask 0)
      (moved (dequeuedPool count).clients 0 (.waited 0)) = 0 := rfl
  rw [runs, holds, client]
  omega

/-- 2 ^ 32 tasks of a call are unfinished, its counter is zero, and the wait
for them has returned. -/
theorem counter_wraps :
    Exists fun start : TaskPool 1 1 Int => Exists fun state => Exists fun events =>
      start.Fresh ∧ Run TaskPoolStep start events state ∧
        state.shared.counters 0 = some 0 ∧ state.clients 0 = .waited 0 ∧
        state.unfinished 0 = 2 ^ 32 := by
  rcases @waited_too_early (2 ^ 32) (by decide) rfl with
    ⟨state, events, run, waited, counter, unfinished⟩
  exact ⟨_, state, events, idlePoolOf_fresh _ _, run, counter, waited, unfinished⟩

theorem counters_account_taken :
    (∀ value, (takenPool 2 1 0).shared.counters 0 = some value →
        List.count (.started 0) [PoolEvent.other, .started 0, .other] =
            List.count (.finished 0) [PoolEvent.other, .started 0, .other] + value.toNat ∧
          value.toNat = (takenPool 2 1 0).unfinished 0) ∧
      ∀ client, (takenPool 2 1 0).clients client = .waited 0 →
        (takenPool 2 1 0).unfinished 0 = 0 ∧
          (∀ entry ∈ (takenPool 2 1 0).shared.queue, entry.origin ≠ 0) ∧
          ∀ worker, ∀ activity ∈ (takenPool 2 1 0).workers worker, activity.origin ≠ 0 :=
  counters_account (idlePoolOf_fresh 2 1)
    (run_bounded (idlePoolOf_fresh 2 1) (takenPool_reached 2 1 0) (by decide)) 0

/-! ## Tasks that nobody waits for -/

/-- The second client is refused. -/
def refusedPool (count fuel : Nat) (function : TaskFunction) (context : TemplateContext Int) :
    TaskPool 1 2 Int :=
  { takenPool count 2 ⟨0, Nat.zero_lt_two⟩ with
    calls := 2
    clients := moved (takenPool count 2 ⟨0, Nat.zero_lt_two⟩).clients ⟨1, Nat.one_lt_two⟩
      (.inline ⟨1, none, perform fuel function context, none⟩) }

theorem refusedPool_reached (count fuel : Nat) (function : TaskFunction)
    {context : TemplateContext Int} (fresh : context.workers = none) :
    Run TaskPoolStep (idlePoolOf count 2) [.other, .started 0, .other, .other, .other]
      (refusedPool count fuel function context) := by
  have called := (takenPool_reached count 2 0).tail (.call 1 context function rfl fresh)
  have placed : moved (takenPool count 2 0).clients 1 (.calling context function) 1 =
      .calling context function := moved_same
  have refused := called.tail (.refuse 1 placed (Nat.lt_irrefl 1) fuel)
  dsimp only at refused
  rw [moved_moved] at refused
  exact refused

end TurboXSL
