import TurboXSL.PoolRuns

namespace TurboXSL

open Library Program

/-!
# The pool serves its clients

`thread_pool_try_wait` and `thread_pool_finish_wait` count the clients that
wait, and a client that waits is woken by the last task of its call.  In every
state that a run of the pool reaches the count is right, and as long as
anything is left to do some thread can do it, unless a thread has followed a
NULL pointer.
-/

variable {Num : Type} {n m : Nat}

/-- A step on behalf of a call: clients that are away stay away, and some
thread moves. -/
def ServesCall (before after : TaskPool n m Num) : Prop :=
  (∀ client, before.clients client = .away → after.clients client = .away) ∧
    (after.clients ≠ before.clients ∨ after.workers ≠ before.workers)

/-- Nothing is left to do. -/
structure TaskPool.Idle (state : TaskPool n m Num) : Prop where
  clients : ∀ client, state.clients client = .away
  workers : ∀ worker, state.workers worker = none
  queue : state.shared.queue = []

/-- The thread follows a NULL pointer, or is in a loop without an end. -/
def Activity.Stuck (shared : PoolMemory Num) (activity : Activity Num) : Prop :=
  activity.pending = none ∧ Exists fun (Answer : Type) =>
    Exists fun (change : Memory Num → Option (Answer × Memory Num)) => Exists fun next =>
      activity.rest = .perform (.memory change) next ∧ change shared.memory = none

/-- No thread is stuck. -/
structure TaskPool.Sound (state : TaskPool n m Num) : Prop where
  workers : ∀ worker activity, state.workers worker = some activity →
    ¬ activity.Stuck state.shared
  clients : ∀ client activity, state.clients client = .inline activity →
    ¬ activity.Stuck state.shared

/-! ## Slots -/

/-- The call for which `thread_pool_try_wait` has granted the client a slot. -/
def ClientPlace.granted : ClientPlace Num → Option Nat
  | .submitting call _ => some call
  | .waiting call => some call
  | .waited call => some call
  | _ => none

/-- The slots are those of clients that have one, and their calls have counters. -/
structure TaskPool.Slots (state : TaskPool n m Num) : Prop where
  count : state.numOfBlocked = headcount (fun place => place.granted.isSome) state.clients
  limit : state.numOfBlocked ≤ n
  counted : ∀ client call, (state.clients client).granted = some call →
    (state.shared.counters call).isSome

theorem TaskPool.Fresh.slots {state : TaskPool n m Num} (fresh : state.Fresh)
    (none_ : state.numOfBlocked = 0) : state.Slots where
  count := by
    simp only [none_, headcount, fresh.clients, ClientPlace.granted, Option.isSome_none,
      Bool.toNat_false, Finset.sum_const_zero]
  limit := none_ ▸ Nat.zero_le n
  counted := by
    intro client call here
    rw [fresh.clients] at here
    cases here

section Steps

variable [Double Num] {before after : TaskPool n m Num} {event : PoolEvent}

omit [Double Num] in
/-- One client moves, and the slots move with it. -/
theorem TaskPool.Slots.moved (slots : before.Slots) {client : Fin m} {place : ClientPlace Num}
    {shared : PoolMemory Num} {numOfBlocked calls : Nat}
    (counted : ∀ call, (before.shared.counters call).isSome → (shared.counters call).isSome)
    (new : ∀ call, place.granted = some call → (shared.counters call).isSome)
    (count : numOfBlocked + (before.clients client).granted.isSome.toNat =
      before.numOfBlocked + place.granted.isSome.toNat) (limit : numOfBlocked ≤ n) :
    TaskPool.Slots { before with shared := shared, numOfBlocked := numOfBlocked, calls := calls,
                                 clients := moved before.clients client place } where
  count := by
    have moves := headcount_moved (fun place => place.granted.isSome) before.clients client place
    have slots := slots.count
    dsimp only
    omega
  limit := limit
  counted := by
    intro other call here
    dsimp only at here
    by_cases same : other = client
    · rw [same, moved_same] at here
      exact new call here
    · rw [moved_of_ne same] at here
      exact counted call (slots.counted other call here)

/-- Every step keeps the count of the slots. -/
theorem TaskPool.Slots.step (slots : before.Slots) (step : TaskPoolStep before event after) :
    after.Slots := by
  cases step with
  | outside client memory here => exact ⟨slots.count, slots.limit, slots.counted⟩
  | call client context function here fresh =>
      refine slots.moved (fun call here => here) (by rintro call ⟨⟩) ?_ slots.limit
      rw [here]
      rfl
  | grant client here free =>
      refine slots.moved ?_ ?_ ?_ free
      · intro call here
        by_cases same : call = before.calls
        · simp only [same, Function.update_self, Option.isSome_some]
        · simp only [Function.update_of_ne same, here]
      · rintro call ⟨⟩
        simp only [Function.update_self, Option.isSome_some]
      · rw [here]
        rfl
  | submit client here =>
      have own := slots.counted client _ (by rw [here]; rfl)
      refine slots.moved (fun call here => here) (by rintro call ⟨⟩; exact own) ?_ slots.limit
      rw [here]
      rfl
  | wake client here zero =>
      have own := slots.counted client _ (by rw [here]; rfl)
      refine slots.moved (fun call here => here) (by rintro call ⟨⟩; exact own) ?_ slots.limit
      rw [here]
      rfl
  | release client here =>
      have counted := headcount_pos (fun place => place.granted.isSome) before.clients client (by
        rw [here]
        rfl)
      have slots_ := slots.count
      refine slots.moved (fun call here => here) (by rintro call ⟨⟩) ?_ ?_
      · rw [here]
        change before.numOfBlocked - 1 + 1 = before.numOfBlocked + 0
        omega
      · exact Nat.le_trans (Nat.sub_le _ _) slots.limit
  | refuse client here full fuel =>
      refine slots.moved (fun call here => here) (by rintro call ⟨⟩) ?_ slots.limit
      rw [here]
      rfl
  | run client here step =>
      refine slots.moved (fun call here => by rwa [step.isSome call]) (by rintro call ⟨⟩) ?_
        slots.limit
      rw [here]
      rfl
  | returned client here ended free =>
      refine slots.moved (fun call here => here) (by rintro call ⟨⟩) ?_ slots.limit
      rw [here]
      rfl
  | dequeue worker here first fuel => exact ⟨slots.count, slots.limit, slots.counted⟩
  | work worker here step =>
      refine ⟨slots.count, slots.limit, fun client call here => ?_⟩
      rw [step.isSome call]
      exact slots.counted client call here
  | finish worker here ended free =>
      refine ⟨slots.count, slots.limit, fun client call here => ?_⟩
      simp only [sharedVariableDecrease, changeCounter_isSome]
      exact slots.counted client call here

/-! ## Somebody can go on -/

omit [Double Num] in
/-- A program is not among its own rests. -/
theorem rest_ne {Operation : Type → Type 1} {Value : Type} (program : Program Operation Value) :
    ∀ {Answer : Type} {operation : Operation Answer} {next : Answer → Program Operation Value}
      {answer : Answer}, program = .perform operation next → next answer ≠ program := by
  induction program with
  | done value =>
      intro Answer operation next answer impossible
      cases impossible
  | perform operation between inductionHypothesis =>
      intro Answer operation' next answer same
      cases same
      intro again
      exact inductionHypothesis answer again rfl

omit [Double Num] in
/-- An activity that is not stuck is done, or it can go on. -/
theorem Activity.goes_on {shared : PoolMemory Num} {activity : Activity Num}
    (free : ¬ activity.Stuck shared) :
    activity.rest = .done () ∧ activity.pending = none ∨
      Exists fun event => Exists fun further => Exists fun later =>
        ActivityStep shared activity event further later ∧ later ≠ activity := by
  cases pending : activity.pending with
  | some task =>
      refine .inr ⟨_, _, _, .enqueue pending, fun same => ?_⟩
      have none_ := congrArg Activity.pending same
      rw [pending] at none_
      cases none_
  | none =>
      cases rest : activity.rest with
      | done value => exact .inl ⟨rfl, rfl⟩
      | @perform Answer operation next =>
          have moves : ∀ {answer : Answer}, ({ activity with rest := next answer } : Activity Num) ≠
              activity := by
            intro answer same
            exact rest_ne activity.rest rest (congrArg Activity.rest same)
          cases operation with
          | memory change =>
              cases done : change shared.memory with
              | none => exact absurd ⟨pending, _, change, next, rest, done⟩ free
              | some result => exact .inr ⟨_, _, _, .memory rest pending done, moves⟩
          | context made => exact .inr ⟨_, _, _, .context rest pending, moves⟩
          | start task =>
              refine .inr ⟨_, _, _, .start rest pending, fun same => ?_⟩
              have some_ := congrArg Activity.pending same
              rw [pending] at some_
              cases some_

/-- Somebody can take a step that serves a call. -/
def TaskPool.Ready (state : TaskPool n m Num) : Prop :=
  Exists fun event => Exists fun after => TaskPoolStep state event after ∧ ServesCall state after

omit [Double Num] in
theorem moved_ne {Thread Place : Type*} [DecidableEq Thread] {places : Thread → Place}
    {thread : Thread} {place : Place} (different : place ≠ places thread) :
    moved places thread place ≠ places := by
  intro same
  have here := congrFun same thread
  rw [moved_same] at here
  exact different here

/-- A step of a worker serves. -/
theorem ready_of_worker {worker : Fin n} {place : Option (Activity Num)}
    {shared : PoolMemory Num} {event : PoolEvent} {state : TaskPool n m Num}
    (step : TaskPoolStep state event { state with
      shared := shared, workers := moved state.workers worker place })
    (different : place ≠ state.workers worker) : state.Ready :=
  ⟨event, _, step, fun _ away => away, .inr (moved_ne different)⟩

/-- A step of a client that is not away serves. -/
theorem ready_of_client {client : Fin m} {place : ClientPlace Num} {shared : PoolMemory Num}
    {event : PoolEvent} {numOfBlocked calls : Nat} {state : TaskPool n m Num}
    (step : TaskPoolStep state event { state with
      shared := shared, numOfBlocked := numOfBlocked, calls := calls,
      clients := moved state.clients client place })
    (busy : state.clients client ≠ .away) (different : place ≠ state.clients client) :
    state.Ready := by
  refine ⟨event, _, step, fun other away => ?_, .inl (moved_ne different)⟩
  have apart : other ≠ client := by
    rintro rfl
    exact busy away
  exact (moved_of_ne apart).trans away

/-- A worker that runs something can go on. -/
theorem ready_of_working {state : TaskPool n m Num} (sound : state.Sound) {worker : Fin n}
    {activity : Activity Num} (here : state.workers worker = some activity) : state.Ready := by
  rcases Activity.goes_on (sound.workers worker activity here) with
    ⟨ended, free⟩ | ⟨event, further, later, step, different⟩
  · refine ready_of_worker (.finish worker here ended free) ?_
    rw [here]
    exact (Option.some_ne_none activity).symm
  · refine ready_of_worker (.work worker here step) ?_
    rw [here]
    exact fun same => different (Option.some.inj same)

/-- A worker without an activity can take the first entry of the queue. -/
theorem ready_of_queued {state : TaskPool n m Num} {worker : Fin n} {entry : QueuedTask Num}
    {queue : List (QueuedTask Num)} (here : state.workers worker = none)
    (first : state.shared.queue = entry :: queue) : state.Ready := by
  refine ready_of_worker (.dequeue worker here first 0) ?_
  rw [here]
  exact Option.some_ne_none _

/-- A client that neither is away nor waits can go on. -/
theorem ready_of_serving {state : TaskPool n m Num} (sound : state.Sound) {client : Fin m}
    (busy : state.clients client ≠ .away)
    (free : ∀ call, state.clients client ≠ .waiting call) : state.Ready := by
  cases here : state.clients client with
  | away => exact absurd here busy
  | waiting call => exact absurd here (free call)
  | calling context function =>
      by_cases room : state.numOfBlocked < n
      · refine ready_of_client (.grant client here room) busy ?_
        rw [here]
        rintro ⟨⟩
      · refine ready_of_client (.refuse client here room 0) busy ?_
        rw [here]
        rintro ⟨⟩
  | submitting call task =>
      refine ready_of_client (.submit client here) busy ?_
      rw [here]
      rintro ⟨⟩
  | waited call =>
      refine ready_of_client (.release client here) busy ?_
      rw [here]
      rintro ⟨⟩
  | inline activity =>
      rcases Activity.goes_on (sound.clients client activity here) with
        ⟨ended, room⟩ | ⟨event, further, later, step, different⟩
      · exact ready_of_client (.returned client here ended room) busy busy.symm
      · refine ready_of_client (.run client here step) busy ?_
        rw [here]
        exact fun same => different (ClientPlace.inline.inj same)

omit [Double Num] in
/-- Where all workers are free, the queue is empty and all clients wait, no
call has a task. -/
theorem unfinished_waiting {state : TaskPool n m Num}
    (workers : ∀ worker, state.workers worker = none) (queue : state.shared.queue = [])
    (clients : ∀ client, state.clients client = .away ∨
      Exists fun call => state.clients client = .waiting call) (call : Nat) :
    state.unfinished call = 0 := by
  have holds : ∀ client, (state.clients client).holdsTask call = false := by
    intro client
    rcases clients client with here | ⟨other, here⟩ <;> rw [here] <;> rfl
  simp only [TaskPool.unfinished, queue, List.countP_nil, headcount, workers, holds, runsTask,
    Option.any_none, Bool.toNat_false, Finset.sum_const_zero, Nat.add_zero]

/-- In every run of clients and workers the number of blocked clients is the
number of clients to which the pool has granted a slot and that have not given
it back, there are at most as many as workers, and unless nothing is left to do
or a thread is stuck, some thread can go on with a call. -/
theorem pool_goes_on {start state : TaskPool n m Num} {events : List PoolEvent}
    (fresh : start.Fresh) (none_ : start.numOfBlocked = 0)
    (run : Run TaskPoolStep start events state) :
    state.numOfBlocked = headcount (fun place => place.granted.isSome) state.clients ∧
      state.numOfBlocked ≤ n ∧
      (0 < n → state.Sound → ¬ state.Idle → state.Ready) := by
  have holds : Belonging state ∧ state.Counts ∧ state.Slots := by
    apply run.preserves fun _ state => Belonging state ∧ state.Counts ∧ state.Slots
    · exact fun _ _ _ _ holds step =>
        ⟨holds.1.step step, holds.2.1.step holds.1 step, holds.2.2.step step⟩
    · exact ⟨belonging_fresh fresh, (accounted_fresh fresh).counts, fresh.slots none_⟩
  rcases holds with ⟨belonging, counts, slots⟩
  refine ⟨slots.count, slots.limit, fun some_ sound busy => ?_⟩
  by_cases working : ∃ worker activity, state.workers worker = some activity
  · rcases working with ⟨worker, activity, here⟩
    exact ready_of_working sound here
  have free : ∀ worker, state.workers worker = none := by
    intro worker
    apply Option.eq_none_iff_forall_ne_some.mpr
    exact fun activity here => working ⟨worker, activity, here⟩
  cases queue : state.shared.queue with
  | cons entry rest => exact ready_of_queued (free ⟨0, some_⟩) queue
  | nil =>
      by_cases serving : ∃ client, state.clients client ≠ .away ∧
          ∀ call, state.clients client ≠ .waiting call
      · rcases serving with ⟨client, away, waits⟩
        exact ready_of_serving sound away waits
      have places : ∀ client, state.clients client = .away ∨
          Exists fun call => state.clients client = .waiting call := by
        intro client
        by_contra other
        simp only [not_or, not_exists] at other
        exact serving ⟨client, other⟩
      have waits : ∃ client call, state.clients client = .waiting call := by
        by_contra nobody
        simp only [not_exists] at nobody
        refine busy ⟨fun client => ?_, free, queue⟩
        rcases places client with away | ⟨call, here⟩
        · exact away
        · exact absurd here (nobody client call)
      rcases waits with ⟨client, call, here⟩
      -- The counter of the call is zero, as nobody has a task of it.
      have counted := slots.counted client call (by rw [here]; rfl)
      rcases Option.isSome_iff_exists.mp counted with ⟨value, counter⟩
      have zero : value = 0 := by
        have number := counts call value counter
        rw [unfinished_waiting free queue places call] at number
        exact number
      refine ready_of_client (.wake client here (zero ▸ counter)) ?_ ?_
      · rw [here]
        rintro ⟨⟩
      · rw [here]
        rintro ⟨⟩

end Steps

theorem takenPool_sound (count m : Nat) (client : Fin m) : (takenPool count m client).Sound where
  workers := by rintro worker activity ⟨⟩
  clients := by
    intro other activity here
    change moved (fun _ => ClientPlace.away) client (.waiting 0) other = .inline activity at here
    by_cases same : other = client
    · rw [same, moved_same] at here
      cases here
    · rw [moved_of_ne same] at here
      cases here

/-- While the first task of a call is in the queue. -/
theorem takenPool_goes_on :
    (takenPool 2 1 0).numOfBlocked ≤ 1 ∧ (takenPool 2 1 0).Ready := by
  have goes := pool_goes_on (idlePoolOf_fresh 2 1) rfl (takenPool_reached 2 1 0)
  refine ⟨goes.2.1, goes.2.2 Nat.one_pos (takenPool_sound 2 1 0) fun idle => ?_⟩
  cases idle.queue

end TurboXSL
