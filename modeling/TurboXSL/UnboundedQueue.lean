import TurboXSL.Library.Arena
import TurboXSL.Library.Interleaving

namespace TurboXSL

open Library

/-!
# The queue of tasks

`unbounded_queue.c`: a linked list with a dummy entry at its head, shared by
any number of threads.  The functions below are what a thread does while it
holds the lock; `QueueStep` lets the threads take turns at it.  A `void *` is
`none` where it is NULL, and an entry of memory is `none` once it is freed.
-/

/-- `unbounded_queue_entry` -/
structure QueueEntry (Value : Type) where
  value : Option Value
  next : Option Nat

/-- `unbounded_queue` and the entries in memory. -/
structure UnboundedQueue (Value : Type) where
  memory : Arena (Option (QueueEntry Value))
  head : Nat
  tail : Nat
  isClosed : Bool

variable {Value : Type}

/-! ## What a thread does under the lock -/

/-- `unbounded_queue_create` -/
def unboundedQueueCreate : UnboundedQueue Value where
  memory := (⟨0, fun _ => none⟩ : Arena _).alloc (some ⟨none, none⟩)
  head := 0
  tail := 0
  isClosed := false

/-- `unbounded_queue_close` -/
def unboundedQueueClose (queue : UnboundedQueue Value) : UnboundedQueue Value :=
  { queue with isClosed := true }

/-- `unbounded_queue_enqueue`; `none` where it touches an entry that is freed. -/
def unboundedQueueEnqueue (queue : UnboundedQueue Value) (value : Option Value) :
    Option (UnboundedQueue Value) := do
  let entry := queue.memory.size
  let memory := queue.memory.alloc (some ⟨value, none⟩)
  let last ← memory.get queue.tail
  some { queue with memory := memory.write queue.tail (some { last with next := some entry }),
                    tail := entry }

/-- One round of the waiting loop of `unbounded_queue_dequeue`. -/
inductive Attempt (Value : Type) where
  | wait
  | deliver (result : Option Value) (after : UnboundedQueue Value)

/-- The test of the waiting loop and what comes behind the loop; `none` where
an entry is touched that is freed. -/
def dequeueAttempt (queue : UnboundedQueue Value) : Option (Attempt Value) := do
  let head ← queue.memory.get queue.head
  match head.next with
  | none => some .wait
  | some next => do
      let entry ← queue.memory.get next
      some (.deliver entry.value
        { queue with head := next, memory := queue.memory.write queue.head none })

/-! ## Threads -/

/-- Where a thread is in the queue's functions. -/
inductive QueuePlace where
  | outside
  /-- Asleep in `pthread_cond_wait`. -/
  | waiting
  /-- Woken, and about to have the lock back. -/
  | woken
deriving DecidableEq

/-- `pthread_cond_broadcast` -/
def QueuePlace.broadcast : QueuePlace → QueuePlace
  | .waiting => .woken
  | place => place

/-- What happened under the lock. -/
inductive QueueEvent (Thread Value : Type) where
  | enqueue (thread : Thread) (value : Option Value)
  | close (thread : Thread)
  | refuse (thread : Thread)
  | wait (thread : Thread)
  | wake (thread : Thread)
  | deliver (thread : Thread) (value : Option Value)

/-- The queue and where the threads are. -/
structure QueueState (Thread Value : Type) where
  queue : UnboundedQueue Value
  places : Thread → QueuePlace

variable {Thread : Type} [DecidableEq Thread]

/-- One critical section of one thread, or a spurious wake-up. -/
inductive QueueStep : QueueState Thread Value → QueueEvent Thread Value →
    QueueState Thread Value → Prop where
  | enqueue {state : QueueState Thread Value} {queue : UnboundedQueue Value} (thread : Thread)
      (value : Option Value) (outside : state.places thread = .outside)
      (done : unboundedQueueEnqueue state.queue value = some queue) :
      QueueStep state (.enqueue thread value)
        { queue := queue, places := fun other => (state.places other).broadcast }
  | close {state : QueueState Thread Value} (thread : Thread)
      (outside : state.places thread = .outside) :
      QueueStep state (.close thread) { state with queue := unboundedQueueClose state.queue }
  | refuse {state : QueueState Thread Value} (thread : Thread)
      (outside : state.places thread = .outside) (closed : state.queue.isClosed = true) :
      QueueStep state (.refuse thread) state
  | wait {state : QueueState Thread Value} (thread : Thread)
      (outside : state.places thread = .outside) (isOpen : state.queue.isClosed = false)
      (empty : dequeueAttempt state.queue = some .wait) :
      QueueStep state (.wait thread) { state with places := moved state.places thread .waiting }
  | waitAgain {state : QueueState Thread Value} (thread : Thread)
      (woken : state.places thread = .woken) (empty : dequeueAttempt state.queue = some .wait) :
      QueueStep state (.wait thread) { state with places := moved state.places thread .waiting }
  | wake {state : QueueState Thread Value} (thread : Thread)
      (waiting : state.places thread = .waiting) :
      QueueStep state (.wake thread) { state with places := moved state.places thread .woken }
  | deliver {state : QueueState Thread Value} {queue : UnboundedQueue Value} (thread : Thread)
      (value : Option Value) (outside : state.places thread = .outside)
      (isOpen : state.queue.isClosed = false)
      (done : dequeueAttempt state.queue = some (.deliver value queue)) :
      QueueStep state (.deliver thread value)
        { queue := queue, places := moved state.places thread .outside }
  | deliverWoken {state : QueueState Thread Value} {queue : UnboundedQueue Value} (thread : Thread)
      (value : Option Value) (woken : state.places thread = .woken)
      (done : dequeueAttempt state.queue = some (.deliver value queue)) :
      QueueStep state (.deliver thread value)
        { queue := queue, places := moved state.places thread .outside }

/-- A new queue, and no thread has called a function of it yet. -/
def QueueState.initial : QueueState Thread Value where
  queue := unboundedQueueCreate
  places := fun _ => .outside

/-- The value that the event put into the queue. -/
def QueueEvent.enqueued : QueueEvent Thread Value → Option (Option Value)
  | .enqueue _ value => some value
  | _ => none

/-- The value that the event took out of the queue. -/
def QueueEvent.delivered : QueueEvent Thread Value → Option (Option Value)
  | .deliver _ value => some value
  | _ => none

/-! ## The undelivered entries -/

/-- `entry->next` -/
def UnboundedQueue.next (queue : UnboundedQueue Value) (entry : Nat) : Option Nat :=
  (queue.memory.get entry).bind QueueEntry.next

/-- Behind the dummy at the head come these entries up to the tail, with these
values, and all of them are in memory. -/
structure Delimits (queue : UnboundedQueue Value) (cells : List Nat)
    (values : List (Option Value)) : Prop where
  chain : Chain queue.next (some queue.head) (queue.head :: cells)
  tail : (queue.head :: cells).getLast? = some queue.tail
  entries : ∀ cell ∈ queue.head :: cells,
    cell < queue.memory.size ∧ Exists fun entry => queue.memory.get cell = some entry
  values : cells.map (fun cell => (queue.memory.get cell).map QueueEntry.value) = values.map some

theorem delimits_create : Delimits (unboundedQueueCreate : UnboundedQueue Value) [] [] where
  chain := .cons 0 [] .nil
  tail := rfl
  entries := by
    intro cell member
    cases List.mem_singleton.mp member
    exact ⟨Nat.zero_lt_one, _, rfl⟩
  values := rfl

section Delimits

variable {queue : UnboundedQueue Value} {cells : List Nat} {values : List (Option Value)}

theorem Delimits.tail_mem (delimits : Delimits queue cells values) :
    queue.tail ∈ queue.head :: cells :=
  List.mem_of_getLast? delimits.tail

/-- The queue gets one entry behind the others. -/
theorem Delimits.enqueue (delimits : Delimits queue cells values) (value : Option Value) :
    Exists fun after => unboundedQueueEnqueue queue value = some after ∧
      Delimits after (cells ++ [queue.memory.size]) (values ++ [value]) ∧
      after.isClosed = queue.isClosed := by
  rcases (delimits.entries queue.tail delimits.tail_mem).2 with ⟨last, lastThere⟩
  have lastSmall := (delimits.entries queue.tail delimits.tail_mem).1
  have lastNew : queue.tail ≠ queue.memory.size := Nat.ne_of_lt lastSmall
  have kept : ∀ cell ∈ queue.head :: cells, cell ≠ queue.tail →
      ((queue.memory.alloc (some ⟨value, none⟩)).write queue.tail
        (some { last with next := some queue.memory.size })).get cell = queue.memory.get cell := by
    intro cell member other
    rw [Arena.write_get, if_neg other, Arena.alloc_get_of_lt _ _ (delimits.entries cell member).1]
  have atTail : ((queue.memory.alloc (some ⟨value, none⟩)).write queue.tail
      (some { last with next := some queue.memory.size })).get queue.tail =
      some { last with next := some queue.memory.size } := by
    rw [Arena.write_get, if_pos rfl]
  have atNew : ((queue.memory.alloc (some ⟨value, none⟩)).write queue.tail
      (some { last with next := some queue.memory.size })).get queue.memory.size =
      some ⟨value, none⟩ := by
    rw [Arena.write_get, if_neg lastNew.symm, Arena.alloc_get_same]
  refine ⟨{ queue with
    memory := (queue.memory.alloc (some ⟨value, none⟩)).write queue.tail
      (some { last with next := some queue.memory.size }),
    tail := queue.memory.size }, ?_, ?_, rfl⟩
  · unfold unboundedQueueEnqueue
    dsimp only
    rw [Arena.alloc_get_of_lt _ _ lastSmall, lastThere]
    rfl
  · constructor
    · refine (delimits.chain.snoc delimits.tail ?_ ?_ ?_ : Chain (UnboundedQueue.next _) _ _)
      · intro cell member other
        exact congrArg (Option.bind · QueueEntry.next) (kept cell member other)
      · exact congrArg (Option.bind · QueueEntry.next) atTail
      · exact congrArg (Option.bind · QueueEntry.next) atNew
    · exact List.getLast?_concat (l := queue.head :: cells)
    · intro cell member
      rcases List.mem_append.mp (List.cons_append ▸ member) with old | new
      · refine ⟨Nat.lt_succ_of_lt (delimits.entries cell old).1, ?_⟩
        by_cases same : cell = queue.tail
        · rw [same]
          exact ⟨_, atTail⟩
        · rcases (delimits.entries cell old).2 with ⟨entry, there⟩
          exact ⟨entry, (kept cell old same).trans there⟩
      · cases List.mem_singleton.mp new
        exact ⟨Nat.lt_succ_self _, _, atNew⟩
    · rw [List.map_append, List.map_append, ← delimits.values]
      congr 1
      · apply List.map_congr_left
        intro cell member
        by_cases same : cell = queue.tail
        · rw [same, lastThere]
          rw [atTail]
          rfl
        · exact congrArg (Option.map QueueEntry.value)
            (kept cell (List.mem_cons_of_mem _ member) same)
      · exact congrArg (fun entry => [Option.map QueueEntry.value entry]) atNew

theorem Delimits.close (delimits : Delimits queue cells values) :
    Delimits (unboundedQueueClose queue) cells values :=
  ⟨delimits.chain, delimits.tail, delimits.entries, delimits.values⟩

/-- Where nothing is left to deliver, a thread waits. -/
theorem Delimits.attempt_nil (delimits : Delimits queue [] values) :
    dequeueAttempt queue = some .wait := by
  rcases (delimits.entries queue.head List.mem_cons_self).2 with ⟨head, there⟩
  have stop : queue.next queue.head = none := by
    cases delimits.chain with
    | cons _ _ tail => exact tail.start_eq
  unfold UnboundedQueue.next at stop
  rw [there] at stop
  unfold dequeueAttempt
  rw [there]
  change (match head.next with | none => _ | some _ => _) = _
  rw [show head.next = none from stop]

/-- Otherwise it takes the first of the values, and the head moves on. -/
theorem Delimits.attempt_cons {cell : Nat} {rest : List Nat}
    (delimits : Delimits queue (cell :: rest) values) :
    Exists fun value => Exists fun later => Exists fun after => values = value :: later ∧
      dequeueAttempt queue = some (.deliver value after) ∧ Delimits after rest later ∧
      after.isClosed = queue.isClosed := by
  rcases (delimits.entries queue.head List.mem_cons_self).2 with ⟨head, there⟩
  rcases (delimits.entries cell (List.mem_cons_of_mem _ List.mem_cons_self)).2 with ⟨entry, first⟩
  have chain : Chain queue.next (queue.next queue.head) (cell :: rest) := by
    cases delimits.chain with
    | cons _ _ tail => exact tail
  have link : head.next = some cell := by
    have start : queue.next queue.head = some cell := chain.start_eq
    unfold UnboundedQueue.next at start
    rw [there] at start
    exact start
  have distinct := List.nodup_cons.mp delimits.chain.nodup
  have kept : ∀ other ∈ cell :: rest,
      (queue.memory.write queue.head none).get other = queue.memory.get other := by
    intro other member
    rw [Arena.write_get, if_neg]
    rintro rfl
    exact distinct.1 member
  cases values with
  | nil => cases delimits.values
  | cons value later =>
      have values := List.cons.inj delimits.values
      have same : entry.value = value := by
        have stored : (queue.memory.get cell).map QueueEntry.value = some value := values.1
        rw [first] at stored
        exact Option.some.inj stored
      refine ⟨value, later,
        { queue with head := cell, memory := queue.memory.write queue.head none },
        rfl, ?_, ?_, rfl⟩
      · unfold dequeueAttempt
        rw [there]
        change (match head.next with | none => _ | some _ => _) = _
        rw [link]
        change (queue.memory.get cell).bind _ = _
        rw [first, ← same]
        rfl
      · constructor
        · refine Chain.congr (chain.start_eq ▸ chain) ?_
          intro other member
          exact congrArg (Option.bind · QueueEntry.next) (kept other member)
        · exact delimits.tail
        · intro other member
          rw [kept other member]
          exact delimits.entries other (List.mem_cons_of_mem _ member)
        · rw [← values.2]
          apply List.map_congr_left
          intro other member
          exact congrArg (Option.map QueueEntry.value)
            (kept other (List.mem_cons_of_mem _ member))

/-- No entry is touched that is freed. -/
theorem Delimits.attempts (delimits : Delimits queue cells values) :
    (dequeueAttempt queue).isSome := by
  cases cells with
  | nil => exact Option.isSome_iff_exists.mpr ⟨_, delimits.attempt_nil⟩
  | cons cell rest =>
      rcases delimits.attempt_cons with ⟨_, _, _, _, done, _⟩
      exact Option.isSome_iff_exists.mpr ⟨_, done⟩

/-- A thread waits only where nothing is left to deliver. -/
theorem Delimits.waits (delimits : Delimits queue cells values)
    (empty : dequeueAttempt queue = some .wait) : values = [] := by
  cases cells with
  | nil => exact List.map_eq_nil_iff.mp delimits.values.symm
  | cons cell rest =>
      rcases delimits.attempt_cons with ⟨_, _, _, _, done, _⟩
      cases done.symm.trans empty

/-- What is delivered is the first of the values. -/
theorem Delimits.delivered (delimits : Delimits queue cells values) {value : Option Value}
    {after : UnboundedQueue Value} (done : dequeueAttempt queue = some (.deliver value after)) :
    Exists fun rest => Exists fun later => values = value :: later ∧ Delimits after rest later ∧
      after.isClosed = queue.isClosed := by
  cases cells with
  | nil => cases delimits.attempt_nil.symm.trans done
  | cons cell rest =>
      rcases delimits.attempt_cons with ⟨first, later, next, same, taken, left, flag⟩
      cases taken.symm.trans done
      exact ⟨rest, later, same, left, flag⟩

end Delimits

/-! ## Runs -/

section Runs

variable {before after state : QueueState Thread Value} {event : QueueEvent Thread Value}
  {events : List (QueueEvent Thread Value)}

/-- A step puts its value behind the undelivered ones, or takes the first of them. -/
theorem QueueStep.delimits (step : QueueStep before event after) {cells : List Nat}
    {undelivered : List (Option Value)} (start : Delimits before.queue cells undelivered) :
    Exists fun cells => Exists fun left => Delimits after.queue cells left ∧
      undelivered ++ event.enqueued.toList = event.delivered.toList ++ left := by
  have unchanged : ∀ event : QueueEvent Thread Value, event.enqueued = none →
      event.delivered = none →
      undelivered ++ event.enqueued.toList = event.delivered.toList ++ undelivered := by
    intro event nothing neither
    rw [nothing, neither]
    exact List.append_nil _
  have taken : ∀ {thread : Thread} {value : Option Value} {queue : UnboundedQueue Value},
      dequeueAttempt before.queue = some (.deliver value queue) →
      Exists fun cells => Exists fun left => Delimits queue cells left ∧
        undelivered ++ (QueueEvent.deliver thread value).enqueued.toList =
          (QueueEvent.deliver thread value).delivered.toList ++ left := by
    intro thread value queue done
    rcases start.delivered done with ⟨rest, later, rfl, left, _⟩
    exact ⟨rest, later, left, List.append_nil _⟩
  cases step with
  | enqueue thread value outside done =>
      rcases start.enqueue value with ⟨queue, made, delimits, _⟩
      cases made.symm.trans done
      exact ⟨_, _, delimits, rfl⟩
  | close thread outside => exact ⟨_, _, start.close, unchanged _ rfl rfl⟩
  | refuse thread outside closed => exact ⟨_, _, start, unchanged _ rfl rfl⟩
  | wait thread outside isOpen empty => exact ⟨_, _, start, unchanged _ rfl rfl⟩
  | waitAgain thread woken empty => exact ⟨_, _, start, unchanged _ rfl rfl⟩
  | wake thread waiting => exact ⟨_, _, start, unchanged _ rfl rfl⟩
  | deliver thread value outside isOpen done => exact taken done
  | deliverWoken thread value woken done => exact taken done

/-- What is in the queue is what has been put into it and not taken out. -/
theorem queue_history (run : Run QueueStep (.initial : QueueState Thread Value) events state) :
    Exists fun cells => Exists fun undelivered => Delimits state.queue cells undelivered ∧
      events.filterMap QueueEvent.enqueued = events.filterMap QueueEvent.delivered ++ undelivered := by
  refine run.preserves (fun events state => Exists fun cells =>
    Exists fun undelivered => Delimits state.queue cells undelivered ∧
      events.filterMap QueueEvent.enqueued =
        events.filterMap QueueEvent.delivered ++ undelivered) ?_ ⟨_, _, delimits_create, rfl⟩
  rintro earlier before event after ⟨cells, undelivered, delimits, history⟩ step
  rcases step.delimits delimits with ⟨cells, left, delimits, same⟩
  refine ⟨cells, left, delimits, ?_⟩
  calc (earlier ++ [event]).filterMap QueueEvent.enqueued
      = earlier.filterMap QueueEvent.enqueued ++ event.enqueued.toList := by
        rw [List.filterMap_append, List.filterMap_cons]
        cases event.enqueued <;> rfl
    _ = earlier.filterMap QueueEvent.delivered ++ (undelivered ++ event.enqueued.toList) := by
        rw [history, List.append_assoc]
    _ = earlier.filterMap QueueEvent.delivered ++ event.delivered.toList ++ left := by
        rw [same, List.append_assoc]
    _ = (earlier ++ [event]).filterMap QueueEvent.delivered ++ left := by
        rw [List.filterMap_append, List.filterMap_cons]
        cases event.delivered <;> rfl

/-- Every run delivers what is put into the queue, in order and once, what is
not yet delivered stands between head and tail, and no freed entry is touched. -/
theorem delivered_in_order
    (run : Run QueueStep (.initial : QueueState Thread Value) events state) :
    events.filterMap QueueEvent.delivered <+: events.filterMap QueueEvent.enqueued ∧
      (Exists fun cells => Exists fun undelivered => Delimits state.queue cells undelivered ∧
        events.filterMap QueueEvent.enqueued =
          events.filterMap QueueEvent.delivered ++ undelivered) ∧
      (∀ value, (unboundedQueueEnqueue state.queue value).isSome) ∧
      (dequeueAttempt state.queue).isSome := by
  rcases queue_history run with ⟨cells, undelivered, delimits, history⟩
  refine ⟨⟨undelivered, history.symm⟩, ⟨cells, undelivered, delimits, history⟩, ?_,
    delimits.attempts⟩
  intro value
  rcases delimits.enqueue value with ⟨after, done, _⟩
  exact Option.isSome_iff_exists.mpr ⟨after, done⟩

end Runs

/-- One thread waits for what the other one enqueues. -/
def handover : List (QueueEvent Bool Nat) :=
  [.wait false, .enqueue true (some 7), .deliver false (some 7)]

theorem handover_runs :
    Exists fun state => Run QueueStep (.initial : QueueState Bool Nat) handover state := by
  have waits : Run QueueStep (.initial : QueueState Bool Nat) [.wait false] _ :=
    .single (.wait false rfl rfl rfl)
  have enqueues : Run QueueStep (.initial : QueueState Bool Nat) ([.wait false] ++ [_]) _ :=
    waits.tail (.enqueue true (some 7) rfl rfl)
  exact ⟨_, enqueues.tail (.deliverWoken false (some 7) rfl rfl)⟩

theorem delivered_in_order_handover :
    Exists fun state => Run QueueStep .initial handover state ∧
      handover.filterMap QueueEvent.delivered <+: handover.filterMap QueueEvent.enqueued ∧
      (Exists fun cells => Exists fun undelivered => Delimits state.queue cells undelivered ∧
        handover.filterMap QueueEvent.enqueued =
          handover.filterMap QueueEvent.delivered ++ undelivered) ∧
      (∀ value, (unboundedQueueEnqueue state.queue value).isSome) ∧
      (dequeueAttempt state.queue).isSome := by
  rcases handover_runs with ⟨state, run⟩
  exact ⟨state, run, delivered_in_order run⟩

end TurboXSL
