import TurboXSL.UnboundedQueue

namespace TurboXSL

open Library

/-!
# The pool and its end

`threadpool.c`: the workers of a pool take tasks from its queue, and
`threadpool_free` closes the queue, puts one stop task into it for each worker
and waits for the threads to end.  Closing does not wake anyone, and a worker
that waits does not look at the flag again.
-/

/-- `threadpool_task`: the pool's own stop task, or a routine with its data. -/
inductive ThreadpoolTask (Task : Type) where
  | stop
  | start (task : Task)

/-- Where a worker is in `worker_thr_routine`. -/
inductive WorkerPlace (Task : Type) where
  /-- About to call `unbounded_queue_dequeue`. -/
  | dequeuing
  | waiting
  | woken
  | running (task : Task)
  | left

variable {Task : Type}

/-- `pthread_cond_broadcast` -/
def WorkerPlace.broadcast : WorkerPlace Task → WorkerPlace Task
  | .waiting => .woken
  | place => place

/-- The worker is in the waiting loop. -/
def WorkerPlace.blocked : WorkerPlace Task → Bool
  | .waiting | .woken => true
  | _ => false

/-- What a worker does with what `unbounded_queue_dequeue` returns. -/
def WorkerPlace.received : Option (ThreadpoolTask Task) → WorkerPlace Task
  | none | some .stop => .left
  | some (.start task) => .running task

/-- Where the thread that frees the pool is in `threadpool_free`. -/
inductive FreePlace where
  | closing
  /-- So many stop tasks are enqueued. -/
  | stopping (i : Nat)
  /-- So many threads are joined. -/
  | joining (i : Nat)
  | released

/-- A pool of `n` threads that is being freed. -/
structure PoolState (n : Nat) (Task : Type) where
  queue : UnboundedQueue (ThreadpoolTask Task)
  workers : Fin n → WorkerPlace Task
  free : FreePlace

/-- Who steps. -/
inductive PoolMover (n : Nat) where
  | free
  | worker (thread : Fin n)
  /-- Nobody: a thread wakes up without a signal. -/
  | spurious (thread : Fin n)

variable {n : Nat}

/-- One critical section or one turn of a loop of one thread. -/
inductive PoolStep : PoolState n Task → PoolMover n → PoolState n Task → Prop where
  | close {state : PoolState n Task} (start : state.free = .closing) :
      PoolStep state .free
        { state with queue := unboundedQueueClose state.queue, free := .stopping 0 }
  | stop {state : PoolState n Task} {queue : UnboundedQueue (ThreadpoolTask Task)} {i : Nat}
      (here : state.free = .stopping i) (more : i < n)
      (done : unboundedQueueEnqueue state.queue (some .stop) = some queue) :
      PoolStep state .free
        { queue := queue, workers := fun thread => (state.workers thread).broadcast,
          free := .stopping (i + 1) }
  | stopped {state : PoolState n Task} {i : Nat} (here : state.free = .stopping i)
      (enough : ¬ i < n) : PoolStep state .free { state with free := .joining 0 }
  | join {state : PoolState n Task} {i : Nat} (here : state.free = .joining i) (more : i < n)
      (ended : state.workers ⟨i, more⟩ = .left) :
      PoolStep state .free { state with free := .joining (i + 1) }
  | release {state : PoolState n Task} {i : Nat} (here : state.free = .joining i)
      (enough : ¬ i < n) : PoolStep state .free { state with free := .released }
  | refuse {state : PoolState n Task} (thread : Fin n) (here : state.workers thread = .dequeuing)
      (closed : state.queue.isClosed = true) :
      PoolStep state (.worker thread)
        { state with workers := moved state.workers thread (.received none) }
  | wait {state : PoolState n Task} (thread : Fin n) (here : state.workers thread = .dequeuing)
      (isOpen : state.queue.isClosed = false) (empty : dequeueAttempt state.queue = some .wait) :
      PoolStep state (.worker thread)
        { state with workers := moved state.workers thread .waiting }
  | waitAgain {state : PoolState n Task} (thread : Fin n) (here : state.workers thread = .woken)
      (empty : dequeueAttempt state.queue = some .wait) :
      PoolStep state (.worker thread)
        { state with workers := moved state.workers thread .waiting }
  | deliver {state : PoolState n Task} {queue : UnboundedQueue (ThreadpoolTask Task)}
      {value : Option (ThreadpoolTask Task)} (thread : Fin n)
      (here : state.workers thread = .dequeuing) (isOpen : state.queue.isClosed = false)
      (done : dequeueAttempt state.queue = some (.deliver value queue)) :
      PoolStep state (.worker thread)
        { state with queue := queue, workers := moved state.workers thread (.received value) }
  | deliverWoken {state : PoolState n Task} {queue : UnboundedQueue (ThreadpoolTask Task)}
      {value : Option (ThreadpoolTask Task)} (thread : Fin n)
      (here : state.workers thread = .woken)
      (done : dequeueAttempt state.queue = some (.deliver value queue)) :
      PoolStep state (.worker thread)
        { state with queue := queue, workers := moved state.workers thread (.received value) }
  | enqueue {state : PoolState n Task} {queue : UnboundedQueue (ThreadpoolTask Task)}
      (thread : Fin n) (task new : Task) (here : state.workers thread = .running task)
      (done : unboundedQueueEnqueue state.queue (some (.start new)) = some queue) :
      PoolStep state (.worker thread)
        { state with queue := queue, workers := fun thread => (state.workers thread).broadcast }
  | finish {state : PoolState n Task} (thread : Fin n) (task : Task)
      (here : state.workers thread = .running task) :
      PoolStep state (.worker thread)
        { state with workers := moved state.workers thread .dequeuing }
  | wake {state : PoolState n Task} (thread : Fin n) (here : state.workers thread = .waiting) :
      PoolStep state (.spurious thread)
        { state with workers := moved state.workers thread .woken }

/-- The thread that frees the pool, or this worker, can go on by itself. -/
def CanStep (state : PoolState n Task) (mover : PoolMover n) : Prop :=
  Exists fun after => PoolStep state mover after

/-! ## Enough entries for all who wait -/

/-- How many stop tasks have been enqueued since the queue was closed. -/
def FreePlace.stops (n : Nat) : FreePlace → Option Nat
  | .closing => none
  | .stopping i => some i
  | .joining _ | .released => some n

/-- What holds from the start of `threadpool_free` on: each worker takes at
most one more entry once the queue is closed, so that every stop task that is
enqueued is either still there or has let somebody go. -/
structure Ending (state : PoolState n Task) (cells : List Nat)
    (values : List (Option (ThreadpoolTask Task))) : Prop where
  delimits : Delimits state.queue cells values
  within : ∀ i, state.free = .stopping i → i ≤ n
  closed : state.free ≠ .closing → state.queue.isClosed = true
  enough : ∀ i, state.free.stops n = some i →
    i + headcount WorkerPlace.blocked state.workers ≤ n + values.length
  awake : ∀ i, state.free.stops n = some i → 0 < i →
    ∀ thread, state.workers thread = .waiting → values = []
  joined : ∀ i, state.free = .joining i →
    ∀ thread : Fin n, thread.val < i → state.workers thread = .left
  gone : state.free = .released → ∀ thread, state.workers thread = .left

/-- Any queue and any workers, when `threadpool_free` is called. -/
theorem ending_start {state : PoolState n Task} {cells : List Nat}
    {values : List (Option (ThreadpoolTask Task))} (delimits : Delimits state.queue cells values)
    (start : state.free = .closing) : Ending state cells values := by
  have closing : ∀ place, state.free = place → place = .closing := fun place here =>
    here.symm.trans start
  constructor
  · exact delimits
  · exact fun i here => nomatch closing _ here
  · exact fun other => absurd start other
  · intro i here
    rw [start] at here
    cases here
  · intro i here
    rw [start] at here
    cases here
  · exact fun i here => nomatch closing _ here
  · exact fun here => nomatch closing _ here

@[simp] theorem WorkerPlace.blocked_received (value : Option (ThreadpoolTask Task)) :
    (WorkerPlace.received value).blocked = false := by
  cases value with
  | none => rfl
  | some task => cases task <;> rfl

theorem WorkerPlace.blocked_broadcast (place : WorkerPlace Task) :
    place.broadcast.blocked = place.blocked := by
  cases place <;> rfl

section Ending

variable {state : PoolState n Task} {cells cells' : List Nat}
  {values values' : List (Option (ThreadpoolTask Task))}
  {queue : UnboundedQueue (ThreadpoolTask Task)}

theorem Ending.isClosed (ending : Ending state cells values) {i : Nat}
    (here : state.free.stops n = some i) : state.queue.isClosed = true := by
  apply ending.closed
  intro start
  rw [start] at here
  cases here

/-- One worker moves: once the queue is closed it does not begin to wait, and
it takes an entry only where it stops waiting. -/
theorem Ending.worker (ending : Ending state cells values) {thread : Fin n}
    (here : state.workers thread ≠ .left) {place : WorkerPlace Task}
    (delimits : Delimits queue cells' values') (flag : queue.isClosed = state.queue.isClosed)
    (fewer : state.queue.isClosed = true → place.blocked.toNat + values.length ≤
      (state.workers thread).blocked.toNat + values'.length)
    (asleep : state.queue.isClosed = true → place = .waiting → values' = [])
    (kept : values = [] → values' = []) :
    Ending { state with queue := queue, workers := moved state.workers thread place }
      cells' values' := by
  constructor
  · exact delimits
  · exact ending.within
  · exact fun other => flag.trans (ending.closed other)
  · intro i at_
    have before := ending.enough i at_
    have change := headcount_moved WorkerPlace.blocked state.workers thread place
    have less := fewer (ending.isClosed at_)
    dsimp only at before ⊢
    omega
  · intro i at_ some_ other waiting
    dsimp only at waiting
    by_cases same : other = thread
    · subst same
      rw [moved_same] at waiting
      exact asleep (ending.isClosed at_) waiting
    · rw [moved_of_ne same] at waiting
      exact kept (ending.awake i at_ some_ other waiting)
  · intro i at_ other below
    have left := ending.joined i at_ other below
    have different : other ≠ thread := by
      rintro rfl
      exact here left
    exact (moved_of_ne different).trans left
  · intro at_ other
    exact absurd (ending.gone at_ thread) here

/-- Somebody enqueues a task and wakes all who wait. -/
theorem Ending.enqueue (ending : Ending state cells values) {value : Option (ThreadpoolTask Task)}
    (done : unboundedQueueEnqueue state.queue value = some queue) (free : FreePlace)
    (within : ∀ i, free = .stopping i → i ≤ n)
    (later : ∀ i, free.stops n = some i →
      Exists fun j => state.free.stops n = some j ∧ i ≤ j + 1)
    (closing : state.free = .closing → free = .closing)
    (joining : ∀ i, free = .joining i → state.free = .joining i)
    (released : free = .released → state.free = .released) :
    Exists fun cells => Ending { queue := queue,
                                 workers := fun thread => (state.workers thread).broadcast,
                                 free := free } cells (values ++ [value]) := by
  rcases ending.delimits.enqueue value with ⟨after, made, delimits, flag⟩
  cases made.symm.trans done
  refine ⟨_, delimits, within, ?_, ?_, ?_, ?_, ?_⟩
  · exact fun other => flag.trans (ending.closed fun start => other (closing start))
  · intro i at_
    rcases later i at_ with ⟨j, before, next⟩
    have enough := ending.enough j before
    have same : headcount WorkerPlace.blocked (fun thread => (state.workers thread).broadcast) =
        headcount WorkerPlace.blocked state.workers :=
      headcount_congr fun thread => WorkerPlace.blocked_broadcast _
    rw [same, List.length_append, List.length_singleton]
    omega
  · intro i _ _ thread waiting
    dsimp only at waiting
    cases place : state.workers thread <;> rw [place] at waiting <;> cases waiting
  · intro i at_ thread below
    exact congrArg WorkerPlace.broadcast (ending.joined i (joining i at_) thread below)
  · intro at_ thread
    exact congrArg WorkerPlace.broadcast (ending.gone (released at_) thread)

theorem Ending.step {before after : PoolState n Task} {mover : PoolMover n}
    (ending : Ending before cells values) (step : PoolStep before mover after) :
    Exists fun cells => Exists fun values => Ending after cells values := by
  have open_ : before.queue.isClosed = false → ∀ {P : Prop}, before.queue.isClosed = true → P :=
    fun isOpen _ closed => nomatch isOpen.symm.trans closed
  cases step with
  | close start =>
      have bounded := headcount_le WorkerPlace.blocked before.workers
      rw [Fintype.card_fin] at bounded
      refine ⟨cells, values, ending.delimits.close, ?_, fun _ => rfl, ?_, ?_, nofun, nofun⟩
      · rintro i ⟨⟩
        exact Nat.zero_le n
      · rintro i ⟨⟩
        dsimp only
        omega
      · rintro i ⟨⟩ some_
        cases some_
  | @stop queue i here more done =>
      rcases ending.enqueue done (.stopping (i + 1)) (by rintro _ ⟨⟩; exact more)
        (by rintro _ ⟨⟩; exact ⟨i, here ▸ rfl, Nat.le_refl _⟩)
        (fun start => nomatch here.symm.trans start) nofun nofun with ⟨cells, next⟩
      exact ⟨cells, _, next⟩
  | @stopped i here enough =>
      have all : i = n := Nat.le_antisymm (ending.within i here) (Nat.not_lt.mp enough)
      have stops : before.free.stops n = some n := by rw [here, all]; rfl
      refine ⟨cells, values, ending.delimits, nofun, ?_, ?_, ?_, ?_, nofun⟩
      · exact fun _ => ending.isClosed stops
      · rintro _ ⟨⟩
        exact ending.enough n stops
      · rintro _ ⟨⟩
        exact ending.awake n stops
      · rintro _ ⟨⟩ thread below
        cases below
  | @join i here more ended =>
      have stops : before.free.stops n = some n := by rw [here]; rfl
      refine ⟨cells, values, ending.delimits, nofun, ?_, ?_, ?_, ?_, nofun⟩
      · exact fun _ => ending.isClosed stops
      · rintro _ ⟨⟩
        exact ending.enough n stops
      · rintro _ ⟨⟩
        exact ending.awake n stops
      · rintro _ ⟨⟩ thread below
        rcases Nat.lt_succ_iff_lt_or_eq.mp below with earlier | same
        · exact ending.joined i here thread earlier
        · have this : thread = ⟨i, more⟩ := Fin.ext same
          exact this ▸ ended
  | @release i here enough =>
      have stops : before.free.stops n = some n := by rw [here]; rfl
      refine ⟨cells, values, ending.delimits, nofun, ?_, ?_, ?_, nofun, ?_⟩
      · exact fun _ => ending.isClosed stops
      · rintro _ ⟨⟩
        exact ending.enough n stops
      · rintro _ ⟨⟩
        exact ending.awake n stops
      · intro _ thread
        exact ending.joined i here thread (Nat.lt_of_lt_of_le thread.isLt (Nat.not_lt.mp enough))
  | refuse thread here closed =>
      refine ⟨cells, values, ending.worker (by rw [here]; nofun) ending.delimits rfl ?_ ?_ id⟩
      · rw [here]
        exact fun _ => Nat.le_refl _
      · exact fun _ waiting => nomatch waiting
  | wait thread here isOpen empty =>
      exact ⟨cells, values, ending.worker (by rw [here]; nofun) ending.delimits rfl
        (open_ isOpen) (fun closed _ => open_ isOpen closed) id⟩
  | waitAgain thread here empty =>
      refine ⟨cells, values, ending.worker (by rw [here]; nofun) ending.delimits rfl ?_ ?_ id⟩
      · rw [here]
        exact fun _ => Nat.le_refl _
      · exact fun _ _ => ending.delimits.waits empty
  | deliver thread here isOpen done =>
      rcases ending.delimits.delivered done with ⟨rest, later, rfl, delimits, flag⟩
      exact ⟨rest, later, ending.worker (by rw [here]; nofun) delimits flag
        (open_ isOpen) (fun closed _ => open_ isOpen closed) nofun⟩
  | deliverWoken thread here done =>
      rcases ending.delimits.delivered done with ⟨rest, later, rfl, delimits, flag⟩
      refine ⟨rest, later, ending.worker (by rw [here]; nofun) delimits flag ?_ ?_ nofun⟩
      · intro _
        rw [here, WorkerPlace.blocked_received, List.length_cons]
        exact Nat.le_of_eq (by rw [Bool.toNat_false, Nat.zero_add, Nat.add_comm]; rfl)
      · intro _ waiting
        have neither := congrArg WorkerPlace.blocked waiting
        rw [WorkerPlace.blocked_received] at neither
        cases neither
  | enqueue thread task new here done =>
      rcases ending.enqueue done before.free ending.within
        (fun i at_ => ⟨i, at_, Nat.le_succ i⟩) id (fun _ => id) id with ⟨cells, next⟩
      exact ⟨cells, _, next⟩
  | finish thread task here =>
      refine ⟨cells, values, ending.worker (by rw [here]; nofun) ending.delimits rfl ?_ ?_ id⟩
      · rw [here]
        exact fun _ => Nat.le_refl _
      · exact fun _ waiting => nomatch waiting
  | wake thread here =>
      refine ⟨cells, values, ending.worker (by rw [here]; nofun) ending.delimits rfl ?_ ?_ id⟩
      · rw [here]
        exact fun _ => Nat.le_refl _
      · exact fun _ waiting => nomatch waiting

/-- Once all stop tasks are enqueued, no worker is stuck. -/
theorem Ending.worker_moves (ending : Ending state cells values)
    (stopped : state.free.stops n = some n) (thread : Fin n)
    (here : state.workers thread ≠ .left) : CanStep state (.worker thread) := by
  have enough := ending.enough n stopped
  cases place : state.workers thread with
  | dequeuing => exact ⟨_, .refuse thread place (ending.isClosed stopped)⟩
  | waiting =>
      have some_ : 0 < n := Nat.zero_lt_of_lt thread.isLt
      have none_ := ending.awake n stopped some_ thread place
      have counted : 0 < headcount WorkerPlace.blocked state.workers :=
        headcount_pos _ _ thread (by rw [place]; rfl)
      rw [none_, List.length_nil] at enough
      omega
  | woken =>
      cases cells with
      | nil => exact ⟨_, .waitAgain thread place ending.delimits.attempt_nil⟩
      | cons cell rest =>
          rcases ending.delimits.attempt_cons with ⟨_, _, _, _, done, _⟩
          exact ⟨_, .deliverWoken thread place done⟩
  | running task => exact ⟨_, .finish thread task place⟩
  | left => exact absurd place here

/-- Whoever frees the pool goes on, or waits for a worker that does. -/
theorem Ending.progress (ending : Ending state cells values) :
    CanStep state .free ∨ (Exists fun thread => CanStep state (.worker thread)) ∨
      ∀ thread, state.workers thread = .left := by
  cases free : state.free with
  | closing => exact .inl ⟨_, .close free⟩
  | stopping i =>
      by_cases more : i < n
      · rcases ending.delimits.enqueue (some .stop) with ⟨queue, done, _⟩
        exact .inl ⟨_, .stop free more done⟩
      · exact .inl ⟨_, .stopped free more⟩
  | joining i =>
      by_cases more : i < n
      · by_cases ended : state.workers ⟨i, more⟩ = .left
        · exact .inl ⟨_, .join free more ended⟩
        · exact .inr (.inl ⟨_, ending.worker_moves (by rw [free]; rfl) _ ended⟩)
      · exact .inl ⟨_, .release free more⟩
  | released => exact .inr (.inr (ending.gone free))

end Ending

/-- From any queue and any workers on, `threadpool_free` or a worker can go on
until all workers have left, and behind the last stop task every worker that
has not left can go on by itself. -/
theorem shutdown_never_stuck {start state : PoolState n Task} {movers : List (PoolMover n)}
    {cells : List Nat} {values : List (Option (ThreadpoolTask Task))}
    (delimits : Delimits start.queue cells values) (begins : start.free = .closing)
    (run : Run PoolStep start movers state) :
    (CanStep state .free ∨ (Exists fun thread => CanStep state (.worker thread)) ∨
        ∀ thread, state.workers thread = .left) ∧
      (state.free.stops n = some n → ∀ thread, state.workers thread ≠ .left →
        CanStep state (.worker thread)) := by
  have ending : Exists fun cells => Exists fun values => Ending state cells values := by
    apply run.invariant (fun state => Exists fun cells =>
      Exists fun values => Ending state cells values)
    · rintro before mover after ⟨cells, values, ending⟩ step
      exact ending.step step
    · exact ⟨cells, values, ending_start delimits begins⟩
  rcases ending with ⟨_, _, ending⟩
  exact ⟨ending.progress, ending.worker_moves⟩

/-- A pool with a thread that waits and one that is about to dequeue. -/
def idlePool : PoolState 2 Nat where
  queue := unboundedQueueCreate
  workers := fun thread => if thread = 0 then .waiting else .dequeuing
  free := .closing

theorem shutdown_never_stuck_idle :
    Exists fun state => Run PoolStep idlePool [.free, .worker 1] state ∧
      (CanStep state .free ∨ (Exists fun thread => CanStep state (.worker thread)) ∨
          ∀ thread, state.workers thread = .left) ∧
        (state.free.stops 2 = some 2 → ∀ thread, state.workers thread ≠ .left →
          CanStep state (.worker thread)) := by
  have closes : Run PoolStep idlePool [.free] _ := .single (.close rfl)
  have leaves : Run PoolStep idlePool ([.free] ++ [.worker 1]) _ := closes.tail (.refuse 1 rfl rfl)
  exact ⟨_, leaves, shutdown_never_stuck delimits_create rfl leaves⟩

end TurboXSL
