import TurboXSL.Library.Interleaving
import TurboXSL.TaskModes

namespace TurboXSL

open Library Program

/-!
# Tasks and their counters

`template_task.c` and `shared_variable.c` on a pool: client threads call
`template_task_run_and_wait`, worker threads take tasks from the queue, run
them and may thereby create more.  A task carries the counter of the call that
it comes from: whoever creates it increases the counter before the task is in
the queue, and the worker that has run it decreases the counter.

The queue is the list of what is in it, in the order of `UnboundedQueue`.
-/

/-! ## What threads share -/

/-- A task in the queue, and the number of the call that it comes from. -/
structure QueuedTask (Num : Type) where
  origin : Nat
  task : TemplateTask Num

structure PoolMemory (Num : Type) where
  memory : Memory Num
  queue : List (QueuedTask Num)
  /-- The `value` of the `shared_variable` of each call that has one. -/
  counters : Nat → Option UInt32

/-- `value += step` of a counter that is not NULL. -/
def changeCounter (counters : Nat → Option UInt32) (step : UInt32 → UInt32) :
    Option Nat → Nat → Option UInt32
  | none => counters
  | some workers => Function.update counters workers ((counters workers).map step)

/-- `shared_variable_increase` -/
def sharedVariableIncrease (counters : Nat → Option UInt32) (workers : Option Nat) :
    Nat → Option UInt32 :=
  changeCounter counters (· + 1) workers

/-- `shared_variable_decrease` -/
def sharedVariableDecrease (counters : Nat → Option UInt32) (workers : Option Nat) :
    Nat → Option UInt32 :=
  changeCounter counters (· - 1) workers

/-! ## Threads -/

/-- What has happened to the tasks of a call. -/
inductive PoolEvent where
  /-- A task of this call was created. -/
  | started (call : Nat)
  /-- A task of this call was finished. -/
  | finished (call : Nat)
  /-- `template_task_run_and_wait` returns. -/
  | returned (call : Nat)
  | other
deriving DecidableEq

/-- A function on a context while a thread runs it. -/
structure Activity (Num : Type) where
  origin : Nat
  /-- The counter that is decreased afterwards. -/
  workers : Option Nat
  rest : Thread Num Unit
  /-- A task that is created and counted, but not in the queue yet. -/
  pending : Option (TemplateTask Num) := none

variable {Num : Type}

/-- One operation, or the second half of `template_task_run`. -/
inductive ActivityStep (shared : PoolMemory Num) (activity : Activity Num) :
    PoolEvent → PoolMemory Num → Activity Num → Prop where
  | memory {Answer : Type} {change : Memory Num → Option (Answer × Memory Num)}
      {next : Answer → Thread Num Unit} {answer : Answer} {memory : Memory Num}
      (here : activity.rest = .perform (.memory change) next) (free : activity.pending = none)
      (done : change shared.memory = some (answer, memory)) :
      ActivityStep shared activity .other { shared with memory := memory }
        { activity with rest := next answer }
  | context {made : TemplateContext Num} {next : Unit → Thread Num Unit}
      (here : activity.rest = .perform (.context made) next) (free : activity.pending = none) :
      ActivityStep shared activity .other shared { activity with rest := next () }
  | start {task : TemplateTask Num} {next : Unit → Thread Num Unit}
      (here : activity.rest = .perform (.start task) next) (free : activity.pending = none) :
      ActivityStep shared activity (.started activity.origin)
        { shared with counters := sharedVariableIncrease shared.counters task.workers }
        { activity with rest := next (), pending := some task }
  | enqueue {task : TemplateTask Num} (here : activity.pending = some task) :
      ActivityStep shared activity .other
        { shared with queue := shared.queue ++ [⟨activity.origin, task⟩] }
        { activity with pending := none }

/-- Where a client is in `template_task_run_and_wait`. -/
inductive ClientPlace (Num : Type) where
  | away
  | calling (context : TemplateContext Num) (function : TaskFunction)
  /-- The counter is created; the task is not in the queue yet. -/
  | submitting (call : Nat) (task : TemplateTask Num)
  | waiting (call : Nat)
  /-- `shared_variable_wait` has returned. -/
  | waited (call : Nat)
  /-- The pool lets nobody wait, and the function runs on the spot. -/
  | inline (activity : Activity Num)

/-- A pool of `n` workers with `m` clients.  A worker without an activity is
about to dequeue or waits for an entry. -/
structure TaskPool (n m : Nat) (Num : Type) where
  shared : PoolMemory Num
  numOfBlocked : Nat
  /-- How many calls there have been. -/
  calls : Nat
  workers : Fin n → Option (Activity Num)
  clients : Fin m → ClientPlace Num

variable {n m : Nat}

section Steps

variable [Double Num]

/-- One critical section or one operation of one thread. -/
inductive TaskPoolStep : TaskPool n m Num → PoolEvent → TaskPool n m Num → Prop where
  /-- What clients do between calls. -/
  | outside {state : TaskPool n m Num} (client : Fin m) (memory : Memory Num)
      (here : state.clients client = .away) :
      TaskPoolStep state .other { state with shared := { state.shared with memory := memory } }
  | call {state : TaskPool n m Num} (client : Fin m) (context : TemplateContext Num)
      (function : TaskFunction) (here : state.clients client = .away)
      (fresh : context.workers = none) :
      TaskPoolStep state .other
        { state with clients := moved state.clients client (.calling context function) }
  /-- `thread_pool_try_wait` grants a slot and `shared_variable_create` a counter. -/
  | grant {state : TaskPool n m Num} (client : Fin m) {context : TemplateContext Num}
      {function : TaskFunction} (here : state.clients client = .calling context function)
      (free : state.numOfBlocked < n) :
      TaskPoolStep state (.started state.calls)
        { state with
          shared := { state.shared with
            counters := Function.update state.shared.counters state.calls (some 1) }
          numOfBlocked := state.numOfBlocked + 1
          calls := state.calls + 1
          clients := moved state.clients client (.submitting state.calls
            ⟨{ context with workers := some state.calls }, function, some state.calls⟩) }
  | submit {state : TaskPool n m Num} (client : Fin m) {call : Nat} {task : TemplateTask Num}
      (here : state.clients client = .submitting call task) :
      TaskPoolStep state .other
        { state with
          shared := { state.shared with queue := state.shared.queue ++ [⟨call, task⟩] }
          clients := moved state.clients client (.waiting call) }
  /-- `shared_variable_wait` reads zero. -/
  | wake {state : TaskPool n m Num} (client : Fin m) {call : Nat}
      (here : state.clients client = .waiting call) (zero : state.shared.counters call = some 0) :
      TaskPoolStep state .other
        { state with clients := moved state.clients client (.waited call) }
  /-- `thread_pool_finish_wait` -/
  | release {state : TaskPool n m Num} (client : Fin m) {call : Nat}
      (here : state.clients client = .waited call) :
      TaskPoolStep state (.returned call)
        { state with
          numOfBlocked := state.numOfBlocked - 1
          clients := moved state.clients client .away }
  /-- `thread_pool_try_wait` refuses. -/
  | refuse {state : TaskPool n m Num} (client : Fin m) {context : TemplateContext Num}
      {function : TaskFunction} (here : state.clients client = .calling context function)
      (full : ¬ state.numOfBlocked < n) (fuel : Nat) :
      TaskPoolStep state .other
        { state with
          calls := state.calls + 1
          clients := moved state.clients client
            (.inline ⟨state.calls, none, perform fuel function context, none⟩) }
  | run {state : TaskPool n m Num} (client : Fin m) {activity after : Activity Num}
      {event : PoolEvent} {shared : PoolMemory Num}
      (here : state.clients client = .inline activity)
      (step : ActivityStep state.shared activity event shared after) :
      TaskPoolStep state event
        { state with
          shared := shared
          clients := moved state.clients client (.inline after) }
  | returned {state : TaskPool n m Num} (client : Fin m) {activity : Activity Num}
      (here : state.clients client = .inline activity) (ended : activity.rest = .done ())
      (free : activity.pending = none) :
      TaskPoolStep state (.returned activity.origin)
        { state with clients := moved state.clients client .away }
  | dequeue {state : TaskPool n m Num} (worker : Fin n) {entry : QueuedTask Num}
      {queue : List (QueuedTask Num)} (here : state.workers worker = none)
      (first : state.shared.queue = entry :: queue) (fuel : Nat) :
      TaskPoolStep state .other
        { state with
          shared := { state.shared with queue := queue }
          workers := moved state.workers worker (some ⟨entry.origin, entry.task.workers,
            perform fuel entry.task.function entry.task.context, none⟩) }
  | work {state : TaskPool n m Num} (worker : Fin n) {activity after : Activity Num}
      {event : PoolEvent} {shared : PoolMemory Num}
      (here : state.workers worker = some activity)
      (step : ActivityStep state.shared activity event shared after) :
      TaskPoolStep state event
        { state with
          shared := shared
          workers := moved state.workers worker (some after) }
  | finish {state : TaskPool n m Num} (worker : Fin n) {activity : Activity Num}
      (here : state.workers worker = some activity) (ended : activity.rest = .done ())
      (free : activity.pending = none) :
      TaskPoolStep state (.finished activity.origin)
        { state with
          shared := { state.shared with
            counters := sharedVariableDecrease state.shared.counters activity.workers }
          workers := moved state.workers worker none }

end Steps

/-- Nobody has called yet. -/
structure TaskPool.Fresh (state : TaskPool n m Num) : Prop where
  queue : state.shared.queue = []
  counters : ∀ call, state.shared.counters call = none
  workers : ∀ worker, state.workers worker = none
  clients : ∀ client, state.clients client = .away

/-! ## Counting -/

/-- A task of the call runs here. -/
def runsTask (call : Nat) (worker : Option (Activity Num)) : Bool :=
  worker.any fun activity => activity.origin = call

/-- A task of the call is about to be put into the queue. -/
def Activity.holdsTask (call : Nat) (activity : Activity Num) : Bool :=
  activity.pending.isSome ∧ activity.origin = call

def ClientPlace.holdsTask (call : Nat) : ClientPlace Num → Bool
  | .submitting other _ => other = call
  | .inline activity => activity.holdsTask call
  | _ => false

/-- The tasks of a call that are created and not finished: in the queue, run by
a worker, or on the way into the queue. -/
def TaskPool.unfinished (state : TaskPool n m Num) (call : Nat) : Nat :=
  state.shared.queue.countP (fun entry => entry.origin = call) +
    headcount (runsTask call) state.workers +
    headcount (fun worker => worker.any (Activity.holdsTask call)) state.workers +
    headcount (ClientPlace.holdsTask call) state.clients

section Counting

variable (state : TaskPool n m Num) (shared : PoolMemory Num) (call : Nat)

/-- One worker moves, and the queue may change. -/
theorem unfinished_worker (worker : Fin n) (place : Option (Activity Num)) :
    TaskPool.unfinished { state with
        shared := shared, workers := moved state.workers worker place } call +
      (state.shared.queue.countP (fun entry => entry.origin = call) +
        (runsTask call (state.workers worker)).toNat +
        ((state.workers worker).any (Activity.holdsTask call)).toNat) =
    state.unfinished call +
      (shared.queue.countP (fun entry => entry.origin = call) + (runsTask call place).toNat +
        (place.any (Activity.holdsTask call)).toNat) := by
  have runs := headcount_moved (runsTask call) state.workers worker place
  have holds := headcount_moved (fun place => place.any (Activity.holdsTask call))
    state.workers worker place
  unfold TaskPool.unfinished
  dsimp only
  omega

/-- One client moves, and the queue may change. -/
theorem unfinished_client (client : Fin m) (place : ClientPlace Num) (calls numOfBlocked : Nat) :
    TaskPool.unfinished { state with
        shared := shared, calls := calls, numOfBlocked := numOfBlocked,
        clients := moved state.clients client place } call +
      (state.shared.queue.countP (fun entry => entry.origin = call) +
        ((state.clients client).holdsTask call).toNat) =
    state.unfinished call +
      (shared.queue.countP (fun entry => entry.origin = call) + (place.holdsTask call).toNat) := by
  have holds := headcount_moved (ClientPlace.holdsTask call) state.clients client place
  unfold TaskPool.unfinished
  dsimp only
  omega

theorem countP_push (queue : List (QueuedTask Num)) (origin : Nat) (task : TemplateTask Num) :
    (queue ++ [(⟨origin, task⟩ : QueuedTask Num)]).countP (fun entry => entry.origin = call) =
      queue.countP (fun entry => entry.origin = call) + (decide (origin = call)).toNat := by
  rw [List.countP_append, List.countP_singleton]
  congr 1
  by_cases same : origin = call <;> simp [same]

/-- What a step of an activity does to the tasks of a call. -/
theorem ActivityStep.holds {activity after : Activity Num} {event : PoolEvent}
    {before shared : PoolMemory Num} (step : ActivityStep before activity event shared after) :
    after.origin = activity.origin ∧
      shared.queue.countP (fun entry => entry.origin = call) + (after.holdsTask call).toNat =
        before.queue.countP (fun entry => entry.origin = call) +
          (activity.holdsTask call).toNat + (decide (event = .started call)).toNat ∧
      event ≠ .finished call := by
  cases step with
  | memory here free done => exact ⟨rfl, rfl, nofun⟩
  | context here free => exact ⟨rfl, rfl, nofun⟩
  | start here free =>
      refine ⟨rfl, ?_, nofun⟩
      simp only [Activity.holdsTask, free, Option.isSome_none, Option.isSome_some, true_and,
        Bool.false_eq_true, false_and, decide_false, Bool.toNat_false, Nat.add_zero,
        PoolEvent.started.injEq]
  | @enqueue task here =>
      refine ⟨rfl, ?_, nofun⟩
      dsimp only
      rw [countP_push]
      simp only [Activity.holdsTask, here, Option.isSome_none, Option.isSome_some, true_and,
        Bool.false_eq_true, false_and, decide_false, Bool.toNat_false, Nat.add_zero, reduceCtorEq]

end Counting

/-! ## What the threads of a call carry -/

/-- The counter that the tasks of a call carry. -/
def owner (counters : Nat → Option UInt32) (call : Nat) : Option Nat :=
  (counters call).map fun _ => call

/-- Where tasks are created, the context has the counter `workers`. -/
def Counted (workers : Option Nat) (context : TemplateContext Num) : Prop :=
  context.taskMode = .single ∨ context.workers = workers

theorem inheritable_counted (workers : Option Nat) :
    Inheritable (Counted workers : TemplateContext Num → Prop) where
  spot := fun _ single => .inl single
  copied := by
    rintro context made (single | same) copied mode
    · exact .inl (mode.trans single)
    · exact .inr (copied.trans same)
  switched := by
    rintro context mode (single | same) notSingle
    · exact absurd single notSingle
    · exact .inr same

/-- A task with the counter of its call. -/
structure Belongs (calls : Nat) (counters : Nat → Option UInt32) (origin : Nat)
    (task : TemplateTask Num) : Prop where
  known : origin < calls
  workers : task.workers = owner counters origin
  counted : Counted (owner counters origin) task.context

/-- An activity that creates only tasks with the counter of its call. -/
structure Runs (calls : Nat) (counters : Nat → Option UInt32) (activity : Activity Num) : Prop where
  known : activity.origin < calls
  workers : activity.workers = owner counters activity.origin
  making : Every (Making (Counted (owner counters activity.origin))) activity.rest
  pending : ∀ task, activity.pending = some task → Belongs calls counters activity.origin task

def ClientPlace.Fits (calls : Nat) (counters : Nat → Option UInt32) : ClientPlace Num → Prop
  | .away | .waiting _ => True
  | .calling context _ => context.workers = none
  | .submitting call task => Belongs calls counters call task
  | .waited call => call < calls ∧ owner counters call = some call
  | .inline activity => Runs calls counters activity ∧ owner counters activity.origin = none

/-- Calls keep their counters, and only new calls are added. -/
structure KeptCounters (calls : Nat) (before : Nat → Option UInt32) (calls' : Nat)
    (after : Nat → Option UInt32) : Prop where
  grows : calls ≤ calls'
  keeps : ∀ call < calls, owner after call = owner before call

section KeptCounters

variable {calls calls' : Nat} {before after : Nat → Option UInt32}
  (later : KeptCounters calls before calls' after)

include later

theorem KeptCounters.belongs {origin : Nat} {task : TemplateTask Num}
    (belongs : Belongs calls before origin task) : Belongs calls' after origin task := by
  have same := later.keeps origin belongs.known
  constructor
  · exact Nat.lt_of_lt_of_le belongs.known later.grows
  · exact belongs.workers.trans same.symm
  · rw [same]
    exact belongs.counted

theorem KeptCounters.runs {activity : Activity Num} (runs : Runs calls before activity) :
    Runs calls' after activity := by
  have same := later.keeps activity.origin runs.known
  constructor
  · exact Nat.lt_of_lt_of_le runs.known later.grows
  · exact runs.workers.trans same.symm
  · rw [same]
    exact runs.making
  · exact fun task here => later.belongs (runs.pending task here)

theorem KeptCounters.fits {place : ClientPlace Num} (fits : place.Fits calls before) :
    place.Fits calls' after := by
  cases place with
  | away | waiting _ => trivial
  | calling context function => exact fits
  | submitting call task => exact later.belongs fits
  | waited call =>
      exact ⟨Nat.lt_of_lt_of_le fits.1 later.grows, (later.keeps call fits.1).trans fits.2⟩
  | inline activity =>
      exact ⟨later.runs fits.1, (later.keeps activity.origin fits.1.known).trans fits.2⟩

end KeptCounters

@[simp] theorem changeCounter_isSome (counters : Nat → Option UInt32) (step : UInt32 → UInt32)
    (workers : Option Nat) (call : Nat) :
    (changeCounter counters step workers call).isSome = (counters call).isSome := by
  cases workers with
  | none => rfl
  | some workers =>
      by_cases same : call = workers
      · subst same
        simp only [changeCounter, Function.update_self, Option.isSome_map]
      · simp only [changeCounter, Function.update_of_ne same]

theorem owner_congr {before after : Nat → Option UInt32} {call : Nat}
    (same : (after call).isSome = (before call).isSome) :
    owner after call = owner before call := by
  unfold owner
  cases old : before call <;> cases new : after call <;>
    simp only [old, new, Option.isSome_some, Option.isSome_none, reduceCtorEq] at same <;> rfl

/-- The counters that there are, are there afterwards. -/
theorem later_of_isSome {calls calls' : Nat} {before after : Nat → Option UInt32}
    (grows : calls ≤ calls')
    (same : ∀ call < calls, (after call).isSome = (before call).isSome) :
    KeptCounters calls before calls' after :=
  ⟨grows, fun call known => owner_congr (same call known)⟩

/-- Every thread and every entry carries the counter of its call. -/
structure Belonging (state : TaskPool n m Num) : Prop where
  queued : ∀ entry ∈ state.shared.queue,
    Belongs state.calls state.shared.counters entry.origin entry.task
  working : ∀ worker, ∀ activity ∈ state.workers worker, Runs state.calls state.shared.counters activity
  clients : ∀ client, (state.clients client).Fits state.calls state.shared.counters
  uncalled : ∀ call, state.calls ≤ call → state.shared.counters call = none

section Moved

variable {calls : Nat} {counters : Nat → Option UInt32}

theorem fits_moved {clients : Fin m → ClientPlace Num} {client : Fin m} {place : ClientPlace Num}
    (others : ∀ other, (clients other).Fits calls counters) (here : place.Fits calls counters)
    (other : Fin m) : (moved clients client place other).Fits calls counters := by
  by_cases same : other = client
  · rw [same, moved_same]
    exact here
  · rw [moved_of_ne same]
    exact others other

theorem runs_moved {workers : Fin n → Option (Activity Num)} {worker : Fin n}
    {place : Option (Activity Num)}
    (others : ∀ other, ∀ activity ∈ workers other, Runs calls counters activity)
    (here : ∀ activity ∈ place, Runs calls counters activity) (other : Fin n) :
    ∀ activity ∈ moved workers worker place other, Runs calls counters activity := by
  by_cases same : other = worker
  · rw [same, moved_same]
    exact here
  · rw [moved_of_ne same]
    exact others other

end Moved

theorem ActivityStep.isSome {activity after : Activity Num} {event : PoolEvent}
    {before shared : PoolMemory Num} (step : ActivityStep before activity event shared after)
    (call : Nat) : (shared.counters call).isSome = (before.counters call).isSome := by
  cases step with
  | start here free => exact changeCounter_isSome _ _ _ call
  | _ => rfl

/-- What an activity creates is a task of its call. -/
theorem Runs.started {calls : Nat} {counters : Nat → Option UInt32} {activity : Activity Num}
    (runs : Runs calls counters activity) {task : TemplateTask Num}
    {next : Unit → Thread Num Unit} (here : activity.rest = .perform (.start task) next) :
    Belongs calls counters activity.origin task := by
  have making := runs.making
  rw [here] at making
  have created : Making (Counted (owner counters activity.origin)) Unit (.start task) := making.1
  rcases created with ⟨counted, default, carried⟩
  have workers : task.context.workers = owner counters activity.origin := by
    rcases counted with single | same
    · exact nomatch single.symm.trans default
    · exact same
  exact ⟨runs.known, carried.trans workers, .inr workers⟩

/-- An activity stays as it should, and puts only such tasks into the queue. -/
theorem ActivityStep.runs {activity after : Activity Num} {event : PoolEvent} {calls : Nat}
    {before shared : PoolMemory Num} (step : ActivityStep before activity event shared after)
    (runs : Runs calls before.counters activity)
    (queued : ∀ entry ∈ before.queue, Belongs calls before.counters entry.origin entry.task) :
    Runs calls shared.counters after ∧
      ∀ entry ∈ shared.queue, Belongs calls shared.counters entry.origin entry.task := by
  have later : KeptCounters calls before.counters calls shared.counters :=
    later_of_isSome (Nat.le_refl _) fun call _ => step.isSome call
  cases step with
  | memory here free done =>
      have making := runs.making
      rw [here] at making
      exact ⟨⟨runs.known, runs.workers, making.2 _, runs.pending⟩, queued⟩
  | context here free =>
      have making := runs.making
      rw [here] at making
      exact ⟨⟨runs.known, runs.workers, making.2 _, runs.pending⟩, queued⟩
  | @start task next here free =>
      have making := runs.making
      rw [here] at making
      refine ⟨⟨runs.known, ?_, ?_, ?_⟩, ?_⟩
      · exact runs.workers.trans (later.keeps _ runs.known).symm
      · rw [later.keeps _ runs.known]
        exact making.2 ()
      · rintro _ ⟨⟩
        exact later.belongs (runs.started here)
      · exact fun entry member => later.belongs (queued entry member)
  | @enqueue task here =>
      refine ⟨⟨runs.known, runs.workers, runs.making, fun _ held =>
        absurd held.symm (Option.some_ne_none _)⟩, ?_⟩
      intro entry member
      rcases List.mem_append.mp member with old | new
      · exact queued entry old
      · cases List.mem_singleton.mp new
        exact runs.pending task here

variable [Double Num]

/-- Whatever runs on a context of a call. -/
theorem runs_perform {calls origin : Nat} {counters : Nat → Option UInt32} {workers : Option Nat}
    (known : origin < calls) (carries : workers = owner counters origin)
    {context : TemplateContext Num} (counted : Counted (owner counters origin) context) (fuel : Nat)
    (function : TaskFunction) :
    Runs calls counters ⟨origin, workers, perform fuel function context, none⟩ :=
  ⟨known, carries, every_perform (inheritable_counted _) fuel function context counted,
    fun _ held => absurd held.symm (Option.some_ne_none _)⟩

theorem Belonging.step {before after : TaskPool n m Num} {event : PoolEvent}
    (belonging : Belonging before) (step : TaskPoolStep before event after) :
    Belonging after := by
  cases step with
  | outside client memory here =>
      exact ⟨belonging.queued, belonging.working, belonging.clients, belonging.uncalled⟩
  | call client context function here fresh =>
      exact ⟨belonging.queued, belonging.working, fits_moved belonging.clients fresh,
        belonging.uncalled⟩
  | @grant client context function here free =>
      have later : KeptCounters before.calls before.shared.counters (before.calls + 1)
          (Function.update before.shared.counters before.calls (some 1)) := by
        refine later_of_isSome (Nat.le_succ _) fun call known => ?_
        rw [Function.update_of_ne (Nat.ne_of_lt known)]
      have carries : owner (Function.update before.shared.counters before.calls (some 1))
          before.calls = some before.calls := by
        simp only [owner, Function.update_self, Option.map_some]
      constructor
      · exact fun entry member => later.belongs (belonging.queued entry member)
      · exact fun worker activity runs => later.runs (belonging.working worker activity runs)
      · refine fits_moved (fun other => later.fits (belonging.clients other)) ?_
        exact ⟨Nat.lt_succ_self _, carries.symm, carries ▸ .inr rfl⟩
      · intro call beyond
        dsimp only at beyond ⊢
        rw [Function.update_of_ne (Nat.ne_of_gt beyond)]
        exact belonging.uncalled call (Nat.le_of_succ_le beyond)
  | @submit client call task here =>
      have fits := belonging.clients client
      rw [here] at fits
      refine ⟨?_, belonging.working, fits_moved belonging.clients trivial, belonging.uncalled⟩
      intro entry member
      rcases List.mem_append.mp member with old | new
      · exact belonging.queued entry old
      · cases List.mem_singleton.mp new
        exact fits
  | @wake client call here zero =>
      refine ⟨belonging.queued, belonging.working, fits_moved belonging.clients ⟨?_, ?_⟩,
        belonging.uncalled⟩
      · apply Nat.lt_of_not_le
        intro beyond
        exact nomatch (belonging.uncalled call beyond).symm.trans zero
      · simp only [owner, zero, Option.map_some]
  | release client here =>
      exact ⟨belonging.queued, belonging.working, fits_moved belonging.clients trivial,
        belonging.uncalled⟩
  | @refuse client context function here full fuel =>
      have fresh := belonging.clients client
      rw [here] at fresh
      have later : KeptCounters before.calls before.shared.counters (before.calls + 1)
          before.shared.counters :=
        later_of_isSome (Nat.le_succ _) fun call _ => rfl
      have carries : owner before.shared.counters before.calls = none := by
        rw [owner, belonging.uncalled _ (Nat.le_refl _)]
        rfl
      constructor
      · exact fun entry member => later.belongs (belonging.queued entry member)
      · exact fun worker activity runs => later.runs (belonging.working worker activity runs)
      · refine fits_moved (fun other => later.fits (belonging.clients other)) ⟨?_, carries⟩
        exact runs_perform (Nat.lt_succ_self _) carries.symm (carries ▸ .inr fresh) fuel function
      · exact fun call beyond => belonging.uncalled call (Nat.le_of_succ_le beyond)
  | @run client activity after event shared here step =>
      have fits := belonging.clients client
      rw [here] at fits
      have later : KeptCounters before.calls before.shared.counters before.calls shared.counters :=
        later_of_isSome (Nat.le_refl _) fun call _ => step.isSome call
      rcases step.runs fits.1 belonging.queued with ⟨runs, queued⟩
      constructor
      · exact queued
      · exact fun worker activity runs => later.runs (belonging.working worker activity runs)
      · refine fits_moved (fun other => later.fits (belonging.clients other)) ⟨runs, ?_⟩
        rw [(step.holds 0).1]
        exact (later.keeps _ fits.1.known).trans fits.2
      · intro call beyond
        apply Option.not_isSome_iff_eq_none.mp
        rw [step.isSome call, belonging.uncalled call beyond]
        nofun
  | returned client here ended free =>
      exact ⟨belonging.queued, belonging.working, fits_moved belonging.clients trivial,
        belonging.uncalled⟩
  | @dequeue worker entry queue here first fuel =>
      have belongs := belonging.queued entry (first ▸ List.mem_cons_self)
      constructor
      · exact fun other member => belonging.queued other (first ▸ List.mem_cons_of_mem _ member)
      · refine runs_moved belonging.working ?_
        rintro _ ⟨⟩
        exact runs_perform belongs.known belongs.workers belongs.counted fuel _
      · exact belonging.clients
      · exact belonging.uncalled
  | @work worker activity after event shared here step =>
      have later : KeptCounters before.calls before.shared.counters before.calls shared.counters :=
        later_of_isSome (Nat.le_refl _) fun call _ => step.isSome call
      rcases step.runs (belonging.working worker activity here) belonging.queued with ⟨runs, queued⟩
      constructor
      · exact queued
      · refine runs_moved (fun other activity at_ =>
          later.runs (belonging.working other activity at_)) ?_
        rintro _ ⟨⟩
        exact runs
      · exact fun other => later.fits (belonging.clients other)
      · intro call beyond
        apply Option.not_isSome_iff_eq_none.mp
        rw [step.isSome call, belonging.uncalled call beyond]
        nofun
  | @finish worker activity here ended free =>
      have later : KeptCounters before.calls before.shared.counters before.calls
          (sharedVariableDecrease before.shared.counters activity.workers) :=
        later_of_isSome (Nat.le_refl _) fun call _ => changeCounter_isSome _ _ _ call
      constructor
      · exact fun entry member => later.belongs (belonging.queued entry member)
      · refine runs_moved (fun other activity at_ =>
          later.runs (belonging.working other activity at_)) ?_
        rintro _ ⟨⟩
      · exact fun other => later.fits (belonging.clients other)
      · intro call beyond
        apply Option.not_isSome_iff_eq_none.mp
        dsimp only
        rw [sharedVariableDecrease, changeCounter_isSome, belonging.uncalled call beyond]
        nofun

/-! ## What a step does to the numbers -/

omit [Double Num] in
theorem changeCounter_owner (counters : Nat → Option UInt32) (step : UInt32 → UInt32)
    (origin call : Nat) : changeCounter counters step (owner counters origin) call =
      if origin = call then (counters call).map step else counters call := by
  unfold owner
  cases found : counters origin with
  | none =>
      simp only [Option.map_none, changeCounter]
      split
      next same => rw [← same, found, Option.map_none]
      next => rfl
  | some value =>
      simp only [Option.map_some, changeCounter, Function.update_apply, eq_comm (a := call)]
      split
      next same => rw [← same]
      next => rfl

omit [Double Num] in
theorem ActivityStep.counters {activity after : Activity Num} {event : PoolEvent} {calls : Nat}
    {before shared : PoolMemory Num} (step : ActivityStep before activity event shared after)
    (runs : Runs calls before.counters activity) (call : Nat) :
    shared.counters call =
      if event = .started call then (before.counters call).map (· + 1)
      else before.counters call := by
  cases step with
  | memory here free done => exact (if_neg nofun).symm
  | context here free => exact (if_neg nofun).symm
  | enqueue here => exact (if_neg nofun).symm
  | @start task next here free =>
      simp only [sharedVariableIncrease, (runs.started here).workers, changeCounter_owner,
        PoolEvent.started.injEq]

section Step

variable {before after : TaskPool n m Num} {event : PoolEvent}
  (step : TaskPoolStep before event after) (call : Nat)

include step

/-- A task counts from its creation to its end. -/
theorem TaskPoolStep.unfinished :
    after.unfinished call + (decide (event = .finished call)).toNat =
      before.unfinished call + (decide (event = .started call)).toNat := by
  cases step with
  | outside client memory here => rfl
  | call client context function here fresh =>
      have moves := unfinished_client before before.shared call client
        (.calling context function) before.calls before.numOfBlocked
      rw [here] at moves
      exact Nat.add_right_cancel moves
  | @grant client context function here free =>
      have moves := unfinished_client before { before.shared with
          counters := Function.update before.shared.counters before.calls (some 1) } call client
        (.submitting before.calls
          ⟨{ context with workers := some before.calls }, function, some before.calls⟩)
        (before.calls + 1) (before.numOfBlocked + 1)
      rw [here] at moves
      simp only [ClientPlace.holdsTask, Bool.toNat_false, PoolEvent.started.injEq,
        reduceCtorEq, decide_false] at moves ⊢
      omega
  | @submit client other task here =>
      have moves := unfinished_client before
        { before.shared with queue := before.shared.queue ++ [⟨other, task⟩] } call client
        (.waiting other) before.calls before.numOfBlocked
      rw [here] at moves
      simp only [ClientPlace.holdsTask, countP_push, Bool.toNat_false, reduceCtorEq,
        decide_false] at moves ⊢
      omega
  | @wake client other here zero =>
      have moves := unfinished_client before before.shared call client
        (.waited other) before.calls before.numOfBlocked
      rw [here] at moves
      exact Nat.add_right_cancel moves
  | @release client other here =>
      have moves := unfinished_client before before.shared call client
        .away before.calls (before.numOfBlocked - 1)
      rw [here] at moves
      exact Nat.add_right_cancel moves
  | @refuse client context function here full fuel =>
      have moves := unfinished_client before before.shared call client
        (.inline ⟨before.calls, none, perform fuel function context, none⟩)
        (before.calls + 1) before.numOfBlocked
      rw [here] at moves
      exact Nat.add_right_cancel moves
  | @run client activity next event shared here step =>
      have moves := unfinished_client before shared call client (.inline next) before.calls
        before.numOfBlocked
      rw [here] at moves
      rcases step.holds call with ⟨_, held, notFinished⟩
      simp only [ClientPlace.holdsTask, notFinished, decide_false, Bool.toNat_false] at moves ⊢
      omega
  | @returned client activity here ended free =>
      have moves := unfinished_client before before.shared call client
        .away before.calls before.numOfBlocked
      rw [here] at moves
      simp only [ClientPlace.holdsTask, Activity.holdsTask, free, Option.isSome_none,
        Bool.false_eq_true, false_and, decide_false, reduceCtorEq] at moves ⊢
      omega
  | @dequeue worker entry queue here first fuel =>
      have moves := unfinished_worker before { before.shared with queue := queue } call worker
        (some ⟨entry.origin, entry.task.workers,
          perform fuel entry.task.function entry.task.context, none⟩)
      have counted : before.shared.queue.countP (fun entry => entry.origin = call) =
          queue.countP (fun entry => entry.origin = call) +
            (decide (entry.origin = call)).toNat := by
        rw [first, List.countP_cons]
        congr 1
        by_cases same : entry.origin = call <;> simp [same]
      rw [here] at moves
      simp only [runsTask, Option.any_none, Option.any_some, Activity.holdsTask,
        Option.isSome_none, Bool.false_eq_true, false_and, decide_false, Bool.toNat_false,
        reduceCtorEq] at moves ⊢
      omega
  | @work worker activity next event shared here step =>
      have moves := unfinished_worker before shared call worker (some next)
      rw [here] at moves
      rcases step.holds call with ⟨same, held, notFinished⟩
      simp only [runsTask, Option.any_some, same, notFinished, decide_false,
        Bool.toNat_false] at moves ⊢
      omega
  | @finish worker activity here ended free =>
      have moves := unfinished_worker before { before.shared with
          counters := sharedVariableDecrease before.shared.counters activity.workers } call worker
        none
      rw [here] at moves
      simp only [runsTask, Option.any_none, Option.any_some, Activity.holdsTask, free,
        Option.isSome_none, Bool.false_eq_true, false_and, decide_false, Bool.toNat_false,
        PoolEvent.finished.injEq, reduceCtorEq] at moves ⊢
      omega

/-- The counter of a call is changed where one of its tasks begins or ends. -/
theorem TaskPoolStep.counters (belonging : Belonging before)
    (known : call < before.calls) :
    after.shared.counters call =
      if event = .started call then (before.shared.counters call).map (· + 1)
      else if event = .finished call then (before.shared.counters call).map (· - 1)
      else before.shared.counters call := by
  cases step with
  | grant client here free =>
      rw [if_neg, if_neg nofun]
      · exact Function.update_of_ne (Nat.ne_of_lt known) _ _
      · rintro ⟨⟩
        exact Nat.lt_irrefl _ known
  | @run client activity next event shared here step =>
      have fits := belonging.clients client
      rw [here] at fits
      rw [if_neg (step.holds call).2.2]
      exact step.counters fits.1 call
  | @work worker activity next event shared here step =>
      rw [if_neg (step.holds call).2.2]
      exact step.counters (belonging.working worker activity here) call
  | @finish worker activity here ended free =>
      have carries := (belonging.working worker activity here).workers
      simp only [sharedVariableDecrease, carries, changeCounter_owner, PoolEvent.finished.injEq,
        reduceCtorEq, if_false]
  | _ => exact ((if_neg nofun).trans (if_neg nofun)).symm

omit step [Double Num] in
/-- A call that is still to come has no tasks. -/
theorem Belonging.unfinished_uncalled (belonging : Belonging before)
    (uncalled : before.calls ≤ call) : before.unfinished call = 0 := by
  have queue : before.shared.queue.countP (fun entry => entry.origin = call) = 0 := by
    apply List.countP_eq_zero.mpr
    intro entry member
    have known := (belonging.queued entry member).known
    rw [decide_eq_true_eq]
    omega
  have nobody : ∀ activity : Activity Num, activity.origin < before.calls →
      decide (activity.origin = call) = false := fun activity known =>
    decide_eq_false (Nat.ne_of_lt (Nat.lt_of_lt_of_le known uncalled))
  have runs : ∀ worker, runsTask call (before.workers worker) = false := by
    intro worker
    cases place : before.workers worker with
    | none => rfl
    | some activity => exact nobody activity (belonging.working worker activity place).known
  have holds : ∀ worker,
      (before.workers worker).any (Activity.holdsTask call) = false := by
    intro worker
    cases place : before.workers worker with
    | none => rfl
    | some activity =>
        have other := nobody activity (belonging.working worker activity place).known
        simp only [decide_eq_false_iff_not] at other
        simp only [Option.any_some, Activity.holdsTask, other, and_false, decide_false]
  have clients : ∀ client, (before.clients client).holdsTask call = false := by
    intro client
    have fits := belonging.clients client
    cases place : before.clients client with
    | submitting other task =>
        rw [place] at fits
        exact decide_eq_false (Nat.ne_of_lt (Nat.lt_of_lt_of_le fits.known uncalled))
    | inline activity =>
        rw [place] at fits
        have other := nobody activity fits.1.known
        simp only [decide_eq_false_iff_not] at other
        simp only [ClientPlace.holdsTask, Activity.holdsTask, other, and_false, decide_false]
    | _ => rfl
  simp only [TaskPool.unfinished, queue, headcount, runs, holds, clients, Bool.toNat_false,
    Finset.sum_const_zero, Nat.add_zero]

/-- A new counter is that of a call whose first task begins. -/
theorem TaskPoolStep.created {value : UInt32} (missing : before.shared.counters call = none)
    (made : after.shared.counters call = some value) :
    event = .started call ∧ value = 1 := by
  have old : ∀ {counters : Nat → Option UInt32},
      (counters call).isSome = (before.shared.counters call).isSome → counters call ≠ some value := by
    intro counters same found
    rw [missing, found] at same
    cases same
  cases step with
  | grant client here free =>
      dsimp only at made
      by_cases same : call = before.calls
      · subst same
        rw [Function.update_self] at made
        exact ⟨rfl, (Option.some.inj made).symm⟩
      · rw [Function.update_of_ne same] at made
        exact absurd made (old rfl)
  | run client here step => exact absurd made (old (step.isSome call))
  | work worker here step => exact absurd made (old (step.isSome call))
  | finish worker here ended free => exact absurd made (old (changeCounter_isSome _ _ _ call))
  | _ => exact absurd made (old rfl)

omit step in
/-- The value of a counter is the number of tasks, as far as 32 bits go. -/
def TaskPool.Counts (state : TaskPool n m Num) : Prop :=
  ∀ call value, state.shared.counters call = some value →
    value = UInt32.ofNat (state.unfinished call)

end Step

theorem TaskPool.Counts.step {before after : TaskPool n m Num} {event : PoolEvent}
    (belonging : Belonging before) (counts : before.Counts)
    (step : TaskPoolStep before event after) : after.Counts := by
  intro call value created
  have tasks := step.unfinished call
  cases old : before.shared.counters call with
  | none =>
      rcases step.created call old created with ⟨begins, one⟩
      have uncalled : before.calls ≤ call := by
        apply Nat.le_of_not_lt
        intro known
        have counter := step.counters call belonging known
        rw [old, created, if_pos begins] at counter
        cases counter
      subst begins one
      rw [belonging.unfinished_uncalled call uncalled] at tasks
      simp only [reduceCtorEq, decide_false, decide_true, Bool.toNat_false, Bool.toNat_true,
        Nat.add_zero, Nat.zero_add] at tasks
      rw [tasks]
      rfl
  | some number =>
      have same := counts call number old
      have known : call < before.calls := by
        apply Nat.lt_of_not_le
        intro uncalled
        exact nomatch (belonging.uncalled call uncalled).symm.trans old
      have counter := step.counters call belonging known
      rw [created, old] at counter
      by_cases begins : event = .started call
      · rw [if_pos begins] at counter
        subst begins
        simp only [reduceCtorEq, decide_false, decide_true, Bool.toNat_false, Bool.toNat_true,
          Nat.add_zero] at tasks
        rw [Option.some.inj counter, same, tasks, UInt32.ofNat_add]
        rfl
      · rw [if_neg begins] at counter
        by_cases ends : event = .finished call
        · rw [if_pos ends] at counter
          subst ends
          simp only [reduceCtorEq, decide_false, decide_true, Bool.toNat_false, Bool.toNat_true,
            Nat.add_zero] at tasks
          rw [Option.some.inj counter, same, ← tasks, UInt32.ofNat_add]
          exact UInt32.add_sub_cancel _ _
        · rw [if_neg ends] at counter
          simp only [begins, ends, decide_false, Bool.toNat_false, Nat.add_zero] at tasks
          rw [Option.some.inj counter, same, tasks]

/-! ## Runs -/

omit [Double Num] in
theorem belonging_fresh {state : TaskPool n m Num} (fresh : state.Fresh) : Belonging state := by
  constructor
  · intro entry member
    rw [fresh.queue] at member
    cases member
  · intro worker activity here
    rw [fresh.workers] at here
    cases here
  · intro client
    rw [fresh.clients]
    trivial
  · exact fun call _ => fresh.counters call

omit [Double Num] in
theorem unfinished_fresh {state : TaskPool n m Num} (fresh : state.Fresh) (call : Nat) :
    state.unfinished call = 0 := by
  simp only [TaskPool.unfinished, fresh.queue, List.countP_nil, headcount, fresh.workers,
    fresh.clients, runsTask, Option.any_none, ClientPlace.holdsTask, Bool.toNat_false,
    Finset.sum_const_zero, Nat.add_zero]

omit [Double Num] in
/-- Without tasks of a call nobody runs one, and none is in the queue. -/
theorem nothing_left {state : TaskPool n m Num} {call : Nat} (zero : state.unfinished call = 0) :
    (∀ entry ∈ state.shared.queue, entry.origin ≠ call) ∧
      ∀ worker, ∀ activity ∈ state.workers worker, activity.origin ≠ call := by
  unfold TaskPool.unfinished at zero
  constructor
  · intro entry member same
    have none_ := List.countP_eq_zero.mp (show state.shared.queue.countP
      (fun entry => entry.origin = call) = 0 by omega) entry member
    exact none_ (decide_eq_true same)
  · intro worker activity here same
    have some_ := headcount_pos (runsTask call) state.workers worker (by
      rw [here, runsTask, Option.any_some]
      exact decide_eq_true same)
    omega

/-- Nobody creates a task of a granted call that has none any more. -/
theorem TaskPoolStep.quiet {before after : TaskPool n m Num} {event : PoolEvent}
    (step : TaskPoolStep before event after) (belonging : Belonging before) {call : Nat}
    (known : call < before.calls) (granted : owner before.shared.counters call = some call)
    (zero : before.unfinished call = 0) : event ≠ .started call := by
  have started : ∀ {activity next : Activity Num} {shared : PoolMemory Num},
      ActivityStep before.shared activity event shared next → event = .started call →
      activity.origin = call := by
    intro activity next shared step same
    cases step with
    | start here free => exact PoolEvent.started.inj same
    | _ => cases same
  intro same
  cases step with
  | grant client here free => exact absurd (PoolEvent.started.inj same) (Nat.ne_of_gt known)
  | @run client activity next _ shared here step =>
      have fits := belonging.clients client
      rw [here] at fits
      have missing := fits.2
      rw [started step same, granted] at missing
      cases missing
  | @work worker activity next _ shared here step =>
      exact (nothing_left zero).2 worker activity here (started step same)
  | _ => cases same

/-- A step after which no call has as many tasks as its counter cannot hold. -/
def BoundedStep (before : TaskPool n m Num) (event : PoolEvent) (after : TaskPool n m Num) : Prop :=
  TaskPoolStep before event after ∧ ∀ call, after.unfinished call < 2 ^ 32

/-- What holds after every step, with the history so far. -/
structure Accounted (events : List PoolEvent) (state : TaskPool n m Num) : Prop where
  belonging : Belonging state
  counts : state.Counts
  tasks : ∀ call, events.count (.started call) =
    events.count (.finished call) + state.unfinished call
  waited : ∀ client call, state.clients client = .waited call → state.unfinished call = 0
  bounded : ∀ call, state.unfinished call < 2 ^ 32

omit [Double Num] in
theorem accounted_fresh {state : TaskPool n m Num} (fresh : state.Fresh) : Accounted [] state := by
  constructor
  · exact belonging_fresh fresh
  · intro call value created
    rw [fresh.counters] at created
    cases created
  · intro call
    rw [unfinished_fresh fresh]
    rfl
  · intro client call here
    rw [fresh.clients] at here
    cases here
  · intro call
    rw [unfinished_fresh fresh]
    decide

/-- A client that has waited before a step has nothing unfinished behind it. -/
theorem Accounted.still {events : List PoolEvent} {before after : TaskPool n m Num}
    {event : PoolEvent} (accounted : Accounted events before)
    (step : TaskPoolStep before event after) {client : Fin m} {call : Nat}
    (here : before.clients client = .waited call) : after.unfinished call = 0 := by
  have fits := accounted.belonging.clients client
  rw [here] at fits
  have zero := accounted.waited client call here
  have quiet := step.quiet accounted.belonging fits.1 fits.2 zero
  have tasks := step.unfinished call
  simp only [zero, quiet, decide_false, Bool.toNat_false, Nat.add_zero] at tasks
  omega

omit [Double Num] in
/-- Who has waited after a move either had before, or is the one who moved. -/
theorem waited_moved {clients : Fin m → ClientPlace Num} {client other : Fin m}
    {place : ClientPlace Num} {call : Nat} (here : moved clients client place other = .waited call) :
    clients other = .waited call ∨ place = .waited call := by
  by_cases same : other = client
  · rw [same, moved_same] at here
    exact .inr here
  · rw [moved_of_ne same] at here
    exact .inl here

/-- A client begins to have waited where the counter is zero. -/
theorem TaskPoolStep.waited {before after : TaskPool n m Num} {event : PoolEvent}
    (step : TaskPoolStep before event after) {client : Fin m} {call : Nat}
    (here : after.clients client = .waited call) :
    before.clients client = .waited call ∨
      (before.shared.counters call = some 0 ∧ event = .other) := by
  have stays : ∀ {other : Fin m} {place : ClientPlace Num},
      moved before.clients other place client = .waited call → place ≠ .waited call →
      before.clients client = .waited call := by
    intro other place here different
    rcases waited_moved here with old | new
    · exact old
    · exact absurd new different
  cases step with
  | outside | dequeue | work | finish => exact .inl here
  | wake other place zero =>
      rcases waited_moved here with old | new
      · exact .inl old
      · cases new
        exact .inr ⟨zero, rfl⟩
  | _ => exact .inl (stays here (by rintro ⟨⟩))

theorem Accounted.step {events : List PoolEvent} {before after : TaskPool n m Num}
    {event : PoolEvent} (accounted : Accounted events before)
    (step : BoundedStep before event after) : Accounted (events ++ [event]) after := by
  constructor
  · exact accounted.belonging.step step.1
  · exact accounted.counts.step accounted.belonging step.1
  · intro call
    have before_ := accounted.tasks call
    have change := step.1.unfinished call
    simp only [List.count_append, List.count_singleton, beq_iff_eq]
    by_cases begins : event = .started call
    · simp only [begins, reduceCtorEq, decide_true, decide_false, Bool.toNat_true,
        Bool.toNat_false, if_true, if_false] at change ⊢
      omega
    · by_cases ends : event = .finished call
      · simp only [ends, reduceCtorEq, decide_true, decide_false, Bool.toNat_true,
          Bool.toNat_false, if_true, if_false] at change ⊢
        omega
      · simp only [begins, ends, decide_false, Bool.toNat_false, if_false] at change ⊢
        omega
  · intro client call here
    rcases step.1.waited here with old | ⟨zero, other⟩
    · exact accounted.still step.1 old
    · have change := step.1.unfinished call
      have bound := step.2 call
      have value := accounted.counts call 0 zero
      simp only [other, reduceCtorEq, decide_false, Bool.toNat_false, Nat.add_zero] at change
      have number := congrArg UInt32.toNat value
      rw [← change, UInt32.toNat_ofNat_of_lt' bound] at number
      exact number.symm
  · exact step.2

/-- In every run of clients and workers, as long as no call has 2 ^ 32 tasks at
once, the counter of a call on the pooled path is the number of its tasks that
were created and have not finished, and a client whose wait has returned has
none of them left. -/
theorem counters_account {start state : TaskPool n m Num} {events : List PoolEvent}
    (fresh : start.Fresh) (run : Run BoundedStep start events state) (call : Nat) :
    (∀ value, state.shared.counters call = some value →
        events.count (.started call) = events.count (.finished call) + value.toNat ∧
          value.toNat = state.unfinished call) ∧
      ∀ client, state.clients client = .waited call →
        state.unfinished call = 0 ∧ (∀ entry ∈ state.shared.queue, entry.origin ≠ call) ∧
          ∀ worker, ∀ activity ∈ state.workers worker, activity.origin ≠ call := by
  have accounted : Accounted events state := by
    apply run.preserves Accounted
    · exact fun _ _ _ _ accounted step => accounted.step step
    · exact accounted_fresh fresh
  constructor
  · intro value created
    have number : value.toNat = state.unfinished call := by
      rw [accounted.counts call value created]
      exact UInt32.toNat_ofNat_of_lt' (accounted.bounded call)
    exact ⟨number ▸ accounted.tasks call, number⟩
  · intro client here
    have zero := accounted.waited client call here
    exact ⟨zero, nothing_left zero⟩

/-! ## Calls that the pool refuses -/

/-- Every step adds one task at most. -/
theorem unfinished_le {start state : TaskPool n m Num} {events : List PoolEvent}
    (fresh : start.Fresh) (run : Run TaskPoolStep start events state) (call : Nat) :
    state.unfinished call ≤ events.count (.started call) := by
  apply run.preserves fun events state => state.unfinished call ≤ events.count (.started call)
  · intro events before event after few step
    have change := step.unfinished call
    simp only [List.count_append, List.count_singleton, beq_iff_eq]
    by_cases begins : event = .started call
    · simp only [begins, decide_true, Bool.toNat_true, if_true] at change ⊢
      omega
    · simp only [begins, decide_false, Bool.toNat_false, if_false] at change ⊢
      omega
  · rw [unfinished_fresh fresh]
    exact Nat.zero_le _

/-- A run of less than 2 ^ 32 steps never has too many tasks for its counter. -/
theorem run_bounded {start state : TaskPool n m Num} {events : List PoolEvent}
    (fresh : start.Fresh) (run : Run TaskPoolStep start events state)
    (short : events.length < 2 ^ 32) : Run BoundedStep start events state := by
  induction run with
  | refl => exact .refl
  | @tail labels before after event earlier step inductionHypothesis =>
      rw [List.length_append, List.length_singleton] at short
      refine .tail (inductionHypothesis (by omega)) ⟨step, fun call => ?_⟩
      have few := unfinished_le fresh (earlier.tail step) call
      have many := List.count_le_length (a := PoolEvent.started call) (l := labels ++ [event])
      rw [List.length_append, List.length_singleton] at many
      omega

end TurboXSL
