import TurboXSL.Allocator

namespace TurboXSL

open Library

/-!
# Allocators that threads share

`allocator.c`: an allocator has a record for each thread, with the chain of
blocks of that thread.  A thread remembers its record under the key of the
allocator.  In a mode other than its own a thread is served by one of the two
custom allocators of the current one.  The threads take turns, a call at a time;
a call that uses an allocator that is not there has no outcome.
-/

/-- `MEMORY_ALLOCATOR_MODE` -/
inductive AllocatorMode where
  | self
  | stylesheet
  | global
deriving DecidableEq

/-- `memory_allocator_entry` -/
structure ThreadRecord where
  thread : Nat
  mode : AllocatorMode
  blocks : AllocatorEntry

/-- `custom_allocators`; an element is `none` where it is NULL or was never written. -/
structure CustomAllocators where
  stylesheet : Option Nat
  global : Option Nat

/-- The allocator for a mode. -/
def CustomAllocators.of (customs : CustomAllocators) : AllocatorMode → Option Nat
  | .self => none
  | .stylesheet => customs.stylesheet
  | .global => customs.global

/-- `memory_allocator_`, with the records in the order of their chain. -/
structure MemoryAllocator where
  customAllocators : Option CustomAllocators
  headEntry : List ThreadRecord

/-- The first record of a thread. -/
def MemoryAllocator.search (allocator : MemoryAllocator) (self : Nat) : Option Nat :=
  (allocator.headEntry.map ThreadRecord.thread).idxOf? self

/-- The blocks of all allocators; the allocators, where one that was released is
`none`; what each thread has under the key of each allocator; `current_allocator`. -/
structure AllocatorState where
  memory : Arena AllocatorData
  allocators : Arena (Option MemoryAllocator)
  specific : Nat → Nat → Option Nat
  current : Option Nat

/-- What a request was given, and the record that gave it. -/
structure Charge where
  allocator : Nat
  record : Nat
  request : Request

namespace AllocatorState

/-- Nothing was called yet. -/
def start : AllocatorState where
  memory := { size := 0, get := fun _ => default }
  allocators := { size := 0, get := fun _ => none }
  specific := fun _ _ => none
  current := none

/-- The records of an allocator that is there. -/
def records (state : AllocatorState) (allocator : Nat) : List ThreadRecord :=
  ((state.allocators.get allocator).map MemoryAllocator.headEntry).getD []

/-- Replace the records of an allocator. -/
def setRecords (state : AllocatorState) (allocator : Nat) (records : List ThreadRecord) :
    AllocatorState :=
  { state with allocators := state.allocators.modify allocator fun found =>
      found.map fun found => { found with headEntry := records } }

/-- `memory_allocator_create`; `made` tells whether there is memory and a key. -/
def memoryAllocatorCreate (made : Bool) (state : AllocatorState) : AllocatorState :=
  if made then
    { state with
      allocators := state.allocators.alloc (some { customAllocators := none, headEntry := [] })
      specific := fun key self =>
        if key = state.allocators.size then none else state.specific key self }
  else state

/-- `memory_allocator_set_custom` -/
def memoryAllocatorSetCustom (state : AllocatorState) (allocator : Nat) (mode : AllocatorMode)
    (custom : Option Nat) : Option AllocatorState :=
  (state.allocators.get allocator).map fun found =>
    let customs := found.customAllocators.getD { stylesheet := none, global := none }
    let customs := match mode with
      | .self => customs
      | .stylesheet => { customs with stylesheet := custom }
      | .global => { customs with global := custom }
    { state with allocators :=
        state.allocators.write allocator (some { found with customAllocators := some customs }) }

/-- `memory_cache_release_data`: a block that was freed is an empty one. -/
def releaseData (memory : Arena AllocatorData) : Nat → Option Nat → Arena AllocatorData
  | fuel + 1, some data =>
      releaseData (memory.write data default) fuel (memory.get data).nextEntry
  | _, _ => memory

/-- `memory_allocator_release`; no chain has more blocks than there are. -/
def memoryAllocatorRelease (state : AllocatorState) (allocator : Nat) : Option AllocatorState :=
  (state.allocators.get allocator).map fun found =>
    { state with
      memory := found.headEntry.foldl
        (fun memory record => releaseData memory memory.size (some record.blocks.head)) state.memory
      allocators := state.allocators.write allocator none }

/-- `memory_allocator_add_entry`; `made` tells whether there is memory for the
record. -/
def memoryAllocatorAddEntry (made : Bool) (malloc : Malloc) (state : AllocatorState)
    (allocator thread size : Nat) : Option AllocatorState :=
  (state.allocators.get allocator).map fun found =>
    if made then
      match memoryAllocatorCreateData malloc state.memory size with
      | none => state
      | some (data, memory) =>
          let t : ThreadRecord :=
            { thread := thread, mode := .self, blocks := { head := data, tail := data } }
          setRecords { state with memory := memory } allocator (found.headEntry ++ [t])
    else state

/-- `memory_allocator_activate_mode` -/
def memoryAllocatorActivateMode (state : AllocatorState) (self : Nat) (mode : AllocatorMode) :
    Option (Bool × AllocatorState) := do
  let current ← state.current
  let allocator ← state.allocators.get current
  match allocator.search self with
  | none => some (false, state)
  | some index =>
      let t ← allocator.headEntry[index]?
      if t.mode = mode then some (false, state)
      else some (true,
        state.setRecords current (allocator.headEntry.set index { t with mode := mode }))

/-- `memory_allocator_find_entry`, with what the thread remembers. -/
def memoryAllocatorFindEntry (state : AllocatorState) (allocator self : Nat) :
    Option (Option Nat × AllocatorState) := do
  let found ← state.allocators.get allocator
  match state.specific allocator self with
  | some index => some (some index, state)
  | none =>
      match found.search self with
      | none => some (none, state)
      | some index => some (some index,
          { state with specific := fun key thread =>
              if key = allocator ∧ thread = self then some index else state.specific key thread })

/-- The record that serves a request: the first lines of `memory_allocator_new`. -/
def serving (state : AllocatorState) (self : Nat) :
    Option (Option (Nat × Nat) × AllocatorState) := do
  let current ← state.current
  let (t, state) ← state.memoryAllocatorFindEntry current self
  match t with
  | none => some (none, state)
  | some index =>
      let allocator ← state.allocators.get current
      let t ← allocator.headEntry[index]?
      match allocator.customAllocators with
      | none => some (some (current, index), state)
      | some customs =>
          if t.mode ≠ .self then do
            let custom ← customs.of t.mode
            let (t, state) ← state.memoryAllocatorFindEntry custom self
            some (t.map fun index => (custom, index), state)
          else some (some (current, index), state)

/-- The other lines of `memory_allocator_new`, on the blocks of one record. -/
def take (malloc : Malloc) (state : AllocatorState) (allocator index size : Nat) :
    Option (Charge × AllocatorState) := do
  let t ← (state.records allocator)[index]?
  let (result, after) := memoryAllocatorNew malloc ⟨state.memory, some t.blocks⟩ size
  let blocks ← after.entry
  some (⟨allocator, index, ⟨size, result⟩⟩,
    setRecords { state with memory := after.memory } allocator
      ((state.records allocator).set index { t with blocks := blocks }))

/-- `memory_allocator_new` by a thread. -/
def new (malloc : Malloc) (state : AllocatorState) (self size : Nat) :
    Option (Option Charge × AllocatorState) := do
  let (t, state) ← state.serving self
  match t with
  | none => some (none, state)
  | some (allocator, index) =>
      let (charge, state) ← state.take malloc allocator index size
      some (some charge, state)

end AllocatorState

/-- The functions that `allocator.h` offers. -/
inductive AllocatorCall where
  | create (made : Bool)
  | setCustom (allocator : Nat) (mode : AllocatorMode) (custom : Option Nat)
  | release (allocator : Nat)
  | addEntry (made : Bool) (malloc : Malloc) (allocator thread size : Nat)
  | setCurrent (allocator : Option Nat)
  | activateMode (mode : AllocatorMode)
  | new (malloc : Malloc) (size : Nat)

/-- A call by a thread, with what it was given. -/
structure AllocatorEvent where
  thread : Nat
  call : AllocatorCall
  given : Option Charge

namespace AllocatorState

/-- What a call by a thread does. -/
def call (state : AllocatorState) (self : Nat) :
    AllocatorCall → Option (Option Charge × AllocatorState)
  | .create made => some (none, state.memoryAllocatorCreate made)
  | .setCustom allocator mode custom =>
      (state.memoryAllocatorSetCustom allocator mode custom).map fun after => (none, after)
  | .release allocator => (state.memoryAllocatorRelease allocator).map fun after => (none, after)
  | .addEntry made malloc allocator thread size =>
      (state.memoryAllocatorAddEntry made malloc allocator thread size).map fun after =>
        (none, after)
  | .setCurrent allocator => some (none, { state with current := allocator })
  | .activateMode mode => (state.memoryAllocatorActivateMode self mode).map fun after =>
      (none, after.2)
  | .new malloc size => state.new malloc self size

end AllocatorState

/-- What is asked of `malloc` in a call: new areas are apart from the blocks that
were not freed. -/
def AllocatorCall.Fresh (memory : Arena AllocatorData) : AllocatorCall → Prop
  | .addEntry _ malloc _ _ _ => malloc.Fresh memory
  | .new malloc size => size < 2 ^ 63 ∧ malloc.Fresh memory
  | _ => True

/-- One call by one thread. -/
def Called (before : AllocatorState) (event : AllocatorEvent) (after : AllocatorState) : Prop :=
  event.call.Fresh before.memory ∧ before.call event.thread event.call = some (event.given, after)

/-! ## One record among the others -/

section Others

variable {before after : Arena AllocatorData} {entry : AllocatorEntry} {blocks : List Nat}

/-- A chain of blocks that nobody wrote to. -/
theorem Stocked.frame (stocked : Stocked ⟨before, some entry⟩ entry blocks)
    (same : ∀ data ∈ blocks, after.get data = before.get data) (grows : before.size ≤ after.size) :
    Stocked ⟨after, some entry⟩ entry blocks where
  held := rfl
  chain := stocked.chain.congr fun data member => by rw [same data member]
  last := stocked.last
  known := fun data member => Nat.lt_of_lt_of_le (stocked.known data member) grows
  offset := fun data member => by
    rw [same data member]
    exact stocked.offset data member
  bounded := fun data member => by
    rw [same data member]
    exact stocked.bounded data member
  apart := fun first one second two different => by
    rw [same first one, same second two]
    exact stocked.apart first one second two different

theorem HandedOut.frame {requests : List Request}
    (handed : HandedOut ⟨before, some entry⟩ blocks requests)
    (same : ∀ data ∈ blocks, after.get data = before.get data) :
    HandedOut ⟨after, some entry⟩ blocks requests :=
  handed.keep (fun data member => by
    rw [same data member]
    exact ⟨rfl, rfl, Nat.le_refl _⟩) (List.Subset.refl _)

end Others

/-- What one request changes: the last block, and maybe a new one behind it. -/
structure Advanced (malloc : Malloc) (before after : ThreadMemory) (entry later : AllocatorEntry) :
    Prop where
  held : after.entry = some later
  head : later.head = entry.head
  others : ∀ data < before.memory.size, data ≠ entry.tail →
    after.memory.get data = before.memory.get data
  whole : (after.memory.get entry.tail).whole = (before.memory.get entry.tail).whole
  tail : after.memory.size = before.memory.size ∧
      (after.memory.get entry.tail).nextEntry = none ∨
    after.memory.size = before.memory.size + 1 ∧
      (after.memory.get entry.tail).nextEntry = some before.memory.size ∧
      (after.memory.get before.memory.size).nextEntry = none ∧
      Exists fun size => Exists fun area => malloc.area size = some area ∧
        (after.memory.get before.memory.size).whole = Set.Ico area (area + size)

section Advances

variable {malloc : Malloc} {state : ThreadMemory} {entry : AllocatorEntry} {blocks : List Nat}
  {size : Nat} {result : Option Nat} {after : ThreadMemory}

theorem memoryAllocatorNew_advances (stocked : Stocked state entry blocks)
    (served : memoryAllocatorNew malloc state size = (result, after)) :
    Exists fun later => Advanced malloc state after entry later := by
  have tailKnown := stocked.known entry.tail stocked.tail_mem
  have nothing : Advanced malloc state state entry entry :=
    ⟨stocked.held, rfl, fun _ _ _ => rfl, rfl, .inl ⟨rfl, stocked.tail_next⟩⟩
  unfold memoryAllocatorNew at served
  simp only [stocked.held, stocked.tail_next] at served
  split at served
  · generalize (if size > (state.memory.get entry.tail).dataSize then size
      else (state.memory.get entry.tail).dataSize) = least at served
    cases created : memoryAllocatorCreateData malloc state.memory (2 * least % 2 ^ 64) with
    | none =>
        rw [created] at served
        rcases Prod.mk.inj served with ⟨_, rfl⟩
        exact ⟨entry, nothing⟩
    | some block =>
        rcases memoryAllocatorCreateData_eq_some created with ⟨area, given, rfl⟩
        rw [created] at served
        rcases Prod.mk.inj served with ⟨_, rfl⟩
        refine ⟨_, ⟨rfl, rfl, fun data known different => ?_, ?_, .inr ⟨rfl, ?_, ?_,
          _, area, given, ?_⟩⟩⟩
        all_goals dsimp only
        · rw [Arena.modify_get_of_ne _ _ (Nat.ne_of_lt known), Arena.modify_get_of_ne _ _ different,
            Arena.alloc_get_of_lt _ _ known]
        · rw [Arena.modify_get_of_ne _ _ (Nat.ne_of_lt tailKnown), Arena.modify_get_same,
            Arena.alloc_get_of_lt _ _ tailKnown]
          rfl
        · rw [Arena.modify_get_of_ne _ _ (Nat.ne_of_lt tailKnown), Arena.modify_get_same]
        · rw [Arena.modify_get_same, Arena.modify_get_of_ne _ _ (Nat.ne_of_gt tailKnown),
            Arena.alloc_get_same]
        · rw [Arena.modify_get_same, Arena.modify_get_of_ne _ _ (Nat.ne_of_gt tailKnown),
            Arena.alloc_get_same]
          rfl
  · rcases Prod.mk.inj served with ⟨_, rfl⟩
    refine ⟨entry, rfl, rfl, fun data _ different => ?_, ?_, .inl ⟨rfl, ?_⟩⟩
    all_goals dsimp only
    · rw [Arena.modify_get_of_ne _ _ different]
    · rw [Arena.modify_get_same]
      rfl
    · rw [Arena.modify_get_same]
      exact stocked.tail_next

/-- The chain after a request is the old one, or has one new block behind it. -/
theorem Advanced.chain_eq {later : AllocatorEntry} {laterBlocks : List Nat}
    (advanced : Advanced malloc state after entry later) (stocked : Stocked state entry blocks)
    (served : Stocked after later laterBlocks) :
    laterBlocks = blocks ∨ laterBlocks = blocks ++ [state.memory.size] ∧
      Exists fun size => Exists fun area => malloc.area size = some area ∧
        (after.memory.get state.memory.size).whole = Set.Ico area (area + size) := by
  have old (data : Nat) (member : data ∈ blocks) (different : data ≠ entry.tail) :
      (after.memory.get data).nextEntry = (state.memory.get data).nextEntry := by
    rw [advanced.others data (stocked.known data member) different]
  have chain := served.chain
  rw [advanced.head] at chain
  rcases advanced.tail with ⟨_, stop⟩ | ⟨_, link, stop, area⟩
  · refine .inl (chain.unique (stocked.chain.congr fun data member => ?_))
    by_cases here : data = entry.tail
    · rw [here, stop, stocked.tail_next]
    · exact old data member here
  · exact .inr ⟨chain.unique (stocked.chain.snoc stocked.last old link stop), area⟩

/-- No block of the chain gets a different area. -/
theorem Advanced.whole_eq {later : AllocatorEntry}
    (advanced : Advanced malloc state after entry later) {data : Nat}
    (known : data < state.memory.size) :
    (after.memory.get data).whole = (state.memory.get data).whole := by
  by_cases here : data = entry.tail
  · rw [here]
    exact advanced.whole
  · rw [advanced.others data known here]

end Advances

/-! ## What holds between calls -/

/-- The requests that a record has served. -/
def requestsOf (allocator record : Nat) (charges : List Charge) : List Request :=
  (charges.filter fun charge => charge.allocator = allocator ∧ charge.record = record).map
    Charge.request

theorem requestsOf_snoc (allocator record : Nat) (charges : List Charge) (charge : Charge) :
    requestsOf allocator record (charges ++ [charge]) = requestsOf allocator record charges ++
      if charge.allocator = allocator ∧ charge.record = record then [charge.request] else [] := by
  unfold requestsOf
  rw [List.filter_append, List.map_append, List.filter_singleton]
  by_cases here : charge.allocator = allocator ∧ charge.record = record
  · rw [if_pos here, decide_eq_true here]
    rfl
  · rw [if_neg here, decide_eq_false here]
    rfl

namespace AllocatorState

/-- The allocator was made and not released. -/
def Live (state : AllocatorState) (allocator : Nat) : Prop :=
  (state.allocators.get allocator).isSome

/-- The first record of a thread. -/
def search (state : AllocatorState) (allocator self : Nat) : Option Nat :=
  ((state.records allocator).map ThreadRecord.thread).idxOf? self

/-- The mode that a thread is in while an allocator is the current one. -/
def modeOf (state : AllocatorState) (allocator self : Nat) : Option AllocatorMode :=
  ((state.search allocator self).bind fun index => (state.records allocator)[index]?).map
    ThreadRecord.mode

/-- The allocator that serves a thread in a mode. -/
def chosen (state : AllocatorState) (current : Nat) (mode : AllocatorMode) : Option Nat :=
  match (state.allocators.get current).bind MemoryAllocator.customAllocators with
  | none => some current
  | some customs => if mode ≠ .self then customs.of mode else some current

variable {state : AllocatorState} {allocator other index : Nat} {found : MemoryAllocator}

theorem live_of_record {record : ThreadRecord}
    (there : (state.records allocator)[index]? = some record) : state.Live allocator := by
  unfold records at there
  unfold Live
  cases given : state.allocators.get allocator with
  | none =>
      rw [given] at there
      cases there
  | some found => rfl

theorem records_eq (there : state.allocators.get allocator = some found) :
    state.records allocator = found.headEntry := by
  unfold records
  rw [there]
  rfl

theorem search_eq (there : state.allocators.get allocator = some found) (self : Nat) :
    found.search self = state.search allocator self := by
  unfold search
  rw [records_eq there]
  rfl

theorem setRecords_get (records : List ThreadRecord) :
    (state.setRecords allocator records).allocators.get other =
      if other = allocator then
        (state.allocators.get allocator).map fun found => { found with headEntry := records }
      else state.allocators.get other :=
  Arena.modify_get _ _ _ _

theorem setRecords_live (records : List ThreadRecord) :
    (state.setRecords allocator records).Live other ↔ state.Live other := by
  unfold Live
  rw [setRecords_get]
  by_cases here : other = allocator
  · rw [if_pos here, here, Option.isSome_map]
  · rw [if_neg here]

theorem setRecords_records (live : state.Live allocator) (records : List ThreadRecord) :
    (state.setRecords allocator records).records other =
      if other = allocator then records else state.records other := by
  rcases Option.isSome_iff_exists.mp live with ⟨found, there⟩
  by_cases here : other = allocator
  · have get := @setRecords_get state allocator other records
    rw [if_pos here, there] at get
    rw [records_eq get, if_pos here]
  · rw [if_neg here, AllocatorState.records, setRecords_get, if_neg here]
    rfl

end AllocatorState

/-- The records have these blocks, and gave these requests what is in use of them. -/
structure Owned (state : AllocatorState) (blocks : Nat → Nat → List Nat)
    (charges : List Charge) : Prop where
  stocked : ∀ allocator index record, (state.records allocator)[index]? = some record →
    Stocked ⟨state.memory, some record.blocks⟩ record.blocks (blocks allocator index) ∧
    HandedOut ⟨state.memory, some record.blocks⟩ (blocks allocator index)
      (requestsOf allocator index charges)
  apart : ∀ allocator index record other place rival,
    (state.records allocator)[index]? = some record →
    (state.records other)[place]? = some rival → ¬ (allocator = other ∧ index = place) →
    ∀ first ∈ blocks allocator index, ∀ second ∈ blocks other place, first ≠ second ∧
      Disjoint (state.memory.get first).whole (state.memory.get second).whole
  charged : ∀ charge ∈ charges, charge.allocator < state.allocators.size ∧
    (state.Live charge.allocator → charge.record < (state.records charge.allocator).length)
  absent : ∀ allocator, state.allocators.size ≤ allocator → state.allocators.get allocator = none
  remembered : ∀ allocator self index, state.Live allocator →
    state.specific allocator self = some index → state.search allocator self = some index

/-- The allocators have the same records, but for their modes. -/
structure SameRecords (before after : AllocatorState) : Prop where
  memory : after.memory = before.memory
  size : after.allocators.size = before.allocators.size
  live : ∀ allocator, after.Live allocator ↔ before.Live allocator
  view : ∀ allocator, (after.records allocator).map (fun t => (t.thread, t.blocks)) =
    (before.records allocator).map fun t => (t.thread, t.blocks)

namespace SameRecords

variable {before after : AllocatorState}

theorem record (same : SameRecords before after) {allocator index : Nat} {record : ThreadRecord}
    (there : (after.records allocator)[index]? = some record) :
    Exists fun old => (before.records allocator)[index]? = some old ∧
      old.blocks = record.blocks := by
  have view := congrArg (fun list => list[index]?) (same.view allocator)
  rw [List.getElem?_map, List.getElem?_map, there] at view
  rcases Option.map_eq_some_iff.mp view.symm with ⟨old, given, pair⟩
  exact ⟨old, given, (Prod.mk.inj pair).2⟩

theorem length (same : SameRecords before after) (allocator : Nat) :
    (after.records allocator).length = (before.records allocator).length := by
  have view := congrArg List.length (same.view allocator)
  rwa [List.length_map, List.length_map] at view

theorem search (same : SameRecords before after) (allocator self : Nat) :
    after.search allocator self = before.search allocator self := by
  have view := congrArg (List.map Prod.fst) (same.view allocator)
  rw [List.map_map, List.map_map] at view
  exact congrArg (List.idxOf? self) view

theorem keeps {blocks : Nat → Nat → List Nat} {charges : List Charge}
    (owned : Owned before blocks charges) (same : SameRecords before after)
    (remembered : ∀ allocator self index, before.Live allocator →
      after.specific allocator self = some index →
        before.specific allocator self = some index ∨ before.search allocator self = some index) :
    Owned after blocks charges where
  stocked := by
    intro allocator index record there
    rcases same.record there with ⟨old, given, same_⟩
    rw [same.memory, ← same_]
    exact owned.stocked allocator index old given
  apart := by
    intro allocator index record other place rival one two different
    rcases same.record one with ⟨first, one, _⟩
    rcases same.record two with ⟨second, two, _⟩
    rw [same.memory]
    exact owned.apart allocator index first other place second one two different
  charged := by
    intro charge member
    rw [same.size, same.live, same.length]
    exact owned.charged charge member
  absent := by
    intro allocator new
    rw [same.size] at new
    have gone : ¬ after.Live allocator := by
      rw [same.live, AllocatorState.Live, owned.absent allocator new]
      exact Bool.false_ne_true
    exact Option.not_isSome_iff_eq_none.mp gone
  remembered := by
    intro allocator self index live given
    have there := (same.live allocator).mp live
    rw [same.search]
    rcases remembered allocator self index there given with old | new
    · exact owned.remembered allocator self index there old
    · exact new

end SameRecords

/-! ## One call -/

namespace Owned

variable {state after : AllocatorState} {blocks : Nat → Nat → List Nat} {charges : List Charge}

theorem setCurrent (owned : Owned state blocks charges) (allocator : Option Nat) :
    Owned { state with current := allocator } blocks charges :=
  ⟨owned.stocked, owned.apart, owned.charged, owned.absent, owned.remembered⟩

theorem create (owned : Owned state blocks charges) (made : Bool) :
    Owned (state.memoryAllocatorCreate made) blocks charges := by
  unfold AllocatorState.memoryAllocatorCreate
  split
  · have new : state.allocators.get state.allocators.size = none :=
      owned.absent _ (Nat.le_refl _)
    generalize later : ({ state with
      allocators := state.allocators.alloc (some { customAllocators := none, headEntry := [] })
      specific := fun key self =>
        if key = state.allocators.size then none else state.specific key self } :
          AllocatorState) = created
    have get (allocator : Nat) : created.allocators.get allocator =
        if allocator = state.allocators.size then some { customAllocators := none, headEntry := [] }
        else state.allocators.get allocator := by
      rw [← later]
      rfl
    have records (allocator : Nat) : created.records allocator = state.records allocator := by
      unfold AllocatorState.records
      rw [get]
      by_cases here : allocator = state.allocators.size
      · rw [if_pos here, here, new]
        rfl
      · rw [if_neg here]
    have size : created.allocators.size = state.allocators.size + 1 := by
      rw [← later]
      rfl
    have memory : created.memory = state.memory := by rw [← later]
    refine ⟨?_, ?_, ?_, ?_, ?_⟩
    · intro allocator index record there
      rw [records] at there
      rw [memory]
      exact owned.stocked allocator index record there
    · intro allocator index record other place rival one two
      rw [records] at one two
      rw [memory]
      exact owned.apart allocator index record other place rival one two
    · intro charge member
      rcases owned.charged charge member with ⟨known, inside⟩
      refine ⟨size ▸ Nat.lt_succ_of_lt known, fun live => ?_⟩
      rw [records]
      rw [AllocatorState.Live, get, if_neg (Nat.ne_of_lt known)] at live
      exact inside live
    · intro allocator beyond
      rw [size] at beyond
      rw [get, if_neg (Nat.ne_of_gt beyond)]
      exact owned.absent allocator (Nat.le_of_succ_le beyond)
    · intro allocator self index live given
      rw [← later] at given
      change (if allocator = state.allocators.size then none else state.specific allocator self) =
        some index at given
      split at given
      · cases given
      · rename_i different
        rw [AllocatorState.Live, get, if_neg different] at live
        rw [AllocatorState.search, records]
        exact owned.remembered allocator self index live given
  · exact owned

theorem setCustom (owned : Owned state blocks charges) {allocator : Nat} {mode : AllocatorMode}
    {custom : Option Nat} (done : state.memoryAllocatorSetCustom allocator mode custom = some after) :
    Owned after blocks charges := by
  rcases Option.map_eq_some_iff.mp done with ⟨found, there, rfl⟩
  refine SameRecords.keeps owned ⟨rfl, rfl, fun other => ?_, fun other => ?_⟩
    fun _ _ _ _ given => .inl given
  · unfold AllocatorState.Live
    rw [Arena.write_get]
    by_cases here : other = allocator
    · rw [if_pos here, here, there]
      rfl
    · rw [if_neg here]
  · unfold AllocatorState.records
    rw [Arena.write_get]
    by_cases here : other = allocator
    · rw [if_pos here, here, there]
      rfl
    · rw [if_neg here]

theorem activateMode (owned : Owned state blocks charges) {self : Nat} {mode : AllocatorMode}
    {changed : Bool} (done : state.memoryAllocatorActivateMode self mode = some (changed, after)) :
    Owned after blocks charges := by
  unfold AllocatorState.memoryAllocatorActivateMode at done
  rcases Option.bind_eq_some_iff.mp done with ⟨current, _, done⟩
  rcases Option.bind_eq_some_iff.mp done with ⟨allocator, there, done⟩
  split at done
  · rcases Prod.mk.inj (Option.some.inj done) with ⟨_, rfl⟩
    exact owned
  · rename_i index _
    rcases Option.bind_eq_some_iff.mp done with ⟨t, record, done⟩
    split at done
    · rcases Prod.mk.inj (Option.some.inj done) with ⟨_, rfl⟩
      exact owned
    · rcases Prod.mk.inj (Option.some.inj done) with ⟨_, rfl⟩
      have live : state.Live current := Option.isSome_iff_exists.mpr ⟨allocator, there⟩
      refine SameRecords.keeps owned ⟨rfl, rfl, fun other => AllocatorState.setRecords_live _,
        fun other => ?_⟩ fun _ _ _ _ given => .inl given
      rw [AllocatorState.setRecords_records live]
      by_cases here : other = current
      · rw [if_pos here, here, AllocatorState.records_eq there, List.map_set]
        refine List.ext_getElem? fun place => ?_
        rw [List.getElem?_set]
        by_cases same : index = place
        · rw [if_pos same, ← same, List.getElem?_map, record]
          have within := (List.getElem?_eq_some_iff.mp record).1
          rw [if_pos (by rwa [List.length_map])]
          rfl
        · rw [if_neg same]
      · rw [if_neg here]

theorem findEntry (owned : Owned state blocks charges) {allocator self : Nat} {found : Option Nat}
    (done : state.memoryAllocatorFindEntry allocator self = some (found, after)) :
    Owned after blocks charges ∧ found = state.search allocator self ∧
      after.memory = state.memory ∧ after.allocators = state.allocators := by
  unfold AllocatorState.memoryAllocatorFindEntry at done
  rcases Option.bind_eq_some_iff.mp done with ⟨allocator_, there, done⟩
  have live : state.Live allocator := Option.isSome_iff_exists.mpr ⟨allocator_, there⟩
  split at done
  · rename_i index given
    rcases Prod.mk.inj (Option.some.inj done) with ⟨rfl, rfl⟩
    exact ⟨owned, (owned.remembered allocator self index live given).symm, rfl, rfl⟩
  · split at done
    · rename_i absent
      rcases Prod.mk.inj (Option.some.inj done) with ⟨rfl, rfl⟩
      rw [AllocatorState.search_eq there] at absent
      exact ⟨owned, absent.symm, rfl, rfl⟩
    · rename_i index given
      rcases Prod.mk.inj (Option.some.inj done) with ⟨rfl, rfl⟩
      rw [AllocatorState.search_eq there] at given
      refine ⟨?_, given.symm, rfl, rfl⟩
      refine SameRecords.keeps owned ⟨rfl, rfl, fun _ => Iff.rfl, fun _ => rfl⟩
        fun key thread place _ remembered => ?_
      change (if key = allocator ∧ thread = self then some index else state.specific key thread) =
        some place at remembered
      split at remembered
      · rename_i here
        rw [here.1, here.2, given]
        exact .inr remembered
      · exact .inl remembered

/-- One record gets other blocks, or is a new one. -/
theorem replace (owned : Owned state blocks charges) {allocator index : Nat} {t : ThreadRecord}
    {memory : Arena AllocatorData} {records : List ThreadRecord} {newBlocks : List Nat}
    {more : List Charge} (live : state.Live allocator)
    (search : ∀ self place, state.search allocator self = some place →
      (records.map ThreadRecord.thread).idxOf? self = some place)
    (record : ∀ place : Nat, records[place]? =
      if place = index then some t else (state.records allocator)[place]?)
    (grows : state.memory.size ≤ memory.size)
    (kept : ∀ other place rival, (state.records other)[place]? = some rival →
      ¬ (other = allocator ∧ place = index) →
        ∀ data ∈ blocks other place, memory.get data = state.memory.get data)
    (served : Stocked ⟨memory, some t.blocks⟩ t.blocks newBlocks ∧
      HandedOut ⟨memory, some t.blocks⟩ newBlocks (requestsOf allocator index (charges ++ more)))
    (origin : ∀ data ∈ newBlocks,
      (Exists fun old => (state.records allocator)[index]? = some old ∧
        data ∈ blocks allocator index ∧ (memory.get data).whole = (state.memory.get data).whole) ∨
      state.memory.size ≤ data ∧ ∀ other < state.memory.size,
        Disjoint (memory.get data).whole (state.memory.get other).whole)
    (charged : ∀ charge ∈ more, charge.allocator = allocator ∧ charge.record = index) :
    Owned (AllocatorState.setRecords { state with memory := memory } allocator records)
      (fun other place => if other = allocator ∧ place = index then newBlocks
        else blocks other place) (charges ++ more) := by
  generalize later : AllocatorState.setRecords { state with memory := memory } allocator records =
    after
  have memory_ : after.memory = memory := by
    rw [← later]
    rfl
  have lives (other : Nat) : after.Live other ↔ state.Live other := by
    rw [← later]
    exact AllocatorState.setRecords_live _
  have recordsOf (other : Nat) :
      after.records other = if other = allocator then records else state.records other := by
    rw [← later]
    exact AllocatorState.setRecords_records live _
  have find (other place : Nat) : (after.records other)[place]? =
      if other = allocator ∧ place = index then some t else (state.records other)[place]? := by
    rw [recordsOf]
    by_cases here : other = allocator
    · simp only [here, if_true, true_and]
      exact record place
    · simp only [here, if_false, false_and]
  -- a block of the record and one of another record
  have beside {other place : Nat} {rival : ThreadRecord}
      (there : (state.records other)[place]? = some rival)
      (different : ¬ (other = allocator ∧ place = index)) :
      ∀ first ∈ newBlocks, ∀ second ∈ blocks other place, first ≠ second ∧
        Disjoint (memory.get first).whole (memory.get second).whole := by
    intro first one second two
    rw [kept other place rival there different second two]
    rcases origin first one with ⟨old, given, member, whole⟩ | ⟨new, apart⟩
    · rw [whole]
      exact owned.apart allocator index old other place rival given there
        (fun same => different ⟨same.1.symm, same.2.symm⟩) first member second two
    · have known := (owned.stocked other place rival there).1.known second two
      exact ⟨Nat.ne_of_gt (Nat.lt_of_lt_of_le known new), apart second known⟩
  refine ⟨?_, ?_, ?_, ?_, ?_⟩
  · intro other place record there
    rw [find] at there
    rw [memory_]
    by_cases here : other = allocator ∧ place = index
    · rw [if_pos here] at there ⊢
      rw [here.1, here.2, ← Option.some.inj there]
      exact served
    · rw [if_neg here] at there ⊢
      rcases owned.stocked other place record there with ⟨stocked, handed⟩
      have same := kept other place record there here
      have nothing : (more.filter fun charge =>
          charge.allocator = other ∧ charge.record = place) = [] := by
        refine List.filter_eq_nil_iff.mpr fun charge member both => ?_
        rcases of_decide_eq_true both with ⟨one, two⟩
        rcases charged charge member with ⟨first, second⟩
        exact here ⟨one.symm.trans first, two.symm.trans second⟩
      have others : requestsOf other place (charges ++ more) = requestsOf other place charges := by
        unfold requestsOf
        rw [List.filter_append, nothing, List.append_nil]
      rw [others]
      exact ⟨stocked.frame same grows, handed.frame same⟩
  · intro other place record rivals spot rival one two different first left second right
    rw [find] at one two
    rw [memory_]
    by_cases here : other = allocator ∧ place = index
    · by_cases there : rivals = allocator ∧ spot = index
      · exact absurd ⟨here.1.trans there.1.symm, here.2.trans there.2.symm⟩ different
      · rw [if_pos here] at left
        rw [if_neg there] at right two
        exact beside two there first left second right
    · rw [if_neg here] at left one
      by_cases there : rivals = allocator ∧ spot = index
      · rw [if_pos there] at right
        rcases beside one here second right first left with ⟨unlike, apart⟩
        exact ⟨unlike.symm, apart.symm⟩
      · rw [if_neg there] at right two
        rw [kept other place record one here first left,
          kept rivals spot rival two there second right]
        exact owned.apart other place record rivals spot rival one two different first left
          second right
  · intro charge member
    have inside (other place : Nat) (within : place < (state.records other).length) :
        place < (after.records other).length := by
      have there := find other place
      rw [List.getElem?_eq_getElem within] at there
      refine Nat.lt_of_not_le fun beyond => ?_
      rw [List.getElem?_eq_none beyond] at there
      split at there <;> cases there
    have size : after.allocators.size = state.allocators.size := by
      rw [← later]
      rfl
    rw [size, lives]
    rcases List.mem_append.mp member with old | new
    · rcases owned.charged charge old with ⟨known, within⟩
      exact ⟨known, fun there => inside _ _ (within there)⟩
    · rcases charged charge new with ⟨first, second⟩
      rw [first, second]
      refine ⟨Nat.lt_of_not_le fun beyond => ?_, fun _ => ?_⟩
      · rw [AllocatorState.Live, owned.absent allocator beyond] at live
        cases live
      · have there := find allocator index
        rw [if_pos ⟨rfl, rfl⟩] at there
        exact (List.getElem?_eq_some_iff.mp there).1
  · intro other new
    have size : after.allocators.size = state.allocators.size := by
      rw [← later]
      rfl
    rw [size] at new
    have gone : ¬ after.Live other := by
      rw [lives, AllocatorState.Live, owned.absent other new]
      exact Bool.false_ne_true
    exact Option.not_isSome_iff_eq_none.mp gone
  · intro other self place there given
    rw [← later] at given
    have old := owned.remembered other self place ((lives other).mp there) given
    unfold AllocatorState.search
    rw [recordsOf]
    by_cases here : other = allocator
    · rw [if_pos here]
      exact search self place (here ▸ old)
    · rw [if_neg here]
      exact old

theorem addEntry (owned : Owned state blocks charges) {made : Bool} {malloc : Malloc}
    {allocator thread size : Nat} (fresh : malloc.Fresh state.memory)
    (done : state.memoryAllocatorAddEntry made malloc allocator thread size = some after) :
    Exists fun blocks => Owned after blocks charges := by
  rcases Option.map_eq_some_iff.mp done with ⟨found, there, added⟩
  have live : state.Live allocator := Option.isSome_iff_exists.mpr ⟨found, there⟩
  split at added
  · cases created : memoryAllocatorCreateData malloc state.memory size with
    | none =>
        rw [created] at added
        exact ⟨blocks, added ▸ owned⟩
    | some block =>
        rcases memoryAllocatorCreateData_eq_some created with ⟨area, given, rfl⟩
        rcases fresh size area given with ⟨small, fits, apart⟩
        rw [created, ← AllocatorState.records_eq there] at added
        generalize memory : state.memory.alloc
          { area := area, dataSize := size, offset := 0, nextEntry := none } = grown at added
        have new : grown.get state.memory.size =
            { area := area, dataSize := size, offset := 0, nextEntry := none } := by
          rw [← memory]
          exact Arena.alloc_get_same _ _
        have nothing : requestsOf allocator (state.records allocator).length (charges ++ []) = [] := by
          unfold requestsOf
          rw [List.append_nil, List.map_eq_nil_iff, List.filter_eq_nil_iff]
          intro charge member both
          rcases of_decide_eq_true both with ⟨one, two⟩
          have within := (owned.charged charge member).2 (one ▸ live)
          rw [one, two] at within
          exact Nat.lt_irrefl _ within
        have whole := @replace state blocks charges owned allocator
          (state.records allocator).length
          ⟨thread, .self, ⟨state.memory.size, state.memory.size⟩⟩ grown
          (state.records allocator ++ [⟨thread, .self, ⟨state.memory.size, state.memory.size⟩⟩])
          [state.memory.size] [] live
        rw [← added, ← List.append_nil charges]
        refine ⟨_, whole ?_ ?_ ?_ ?_ ⟨?_, ?_⟩ ?_ fun charge member => nomatch member⟩
        · intro self place found
          unfold AllocatorState.search List.idxOf? at found
          rw [List.map_append, List.idxOf?, List.findIdx?_append, found]
          rfl
        · intro place
          rw [List.getElem?_append]
          split
          · rename_i within
            rw [if_neg (Nat.ne_of_lt within)]
          · rename_i beyond
            by_cases here : place = (state.records allocator).length
            · rw [if_pos here, here, Nat.sub_self]
              rfl
            · rw [if_neg here, List.getElem?_eq_none (Nat.not_lt.mp beyond),
                List.getElem?_eq_none]
              rw [List.length_singleton]
              omega
        · rw [← memory]
          exact Nat.le_succ _
        · intro other place rival spot _ data member
          rw [← memory]
          exact Arena.alloc_get_of_lt _ _
            ((owned.stocked other place rival spot).1.known data member)
        · refine ⟨rfl, ?_, rfl, ?_, ?_, ?_, ?_⟩
          · refine .cons state.memory.size [] ?_
            rw [new]
            exact .nil
          · intro data member
            rw [List.mem_singleton.mp member, ← memory]
            exact Nat.lt_succ_self _
          · intro data member
            rw [List.mem_singleton.mp member, new]
            exact Nat.zero_le _
          · intro data member
            rw [List.mem_singleton.mp member, new]
            exact ⟨small, fits⟩
          · intro first one second two different
            rw [List.mem_singleton.mp one, List.mem_singleton.mp two] at different
            exact absurd rfl different
        · rw [nothing]
          exact ⟨fun _ member => (nomatch member), List.Pairwise.nil⟩
        · intro data member
          rw [List.mem_singleton.mp member, new]
          exact .inr ⟨Nat.le_refl _, apart⟩
  · exact ⟨blocks, added ▸ owned⟩

theorem take (owned : Owned state blocks charges) {malloc : Malloc} {allocator index size : Nat}
    {charge : Charge} (fresh : malloc.Fresh state.memory) (small : size < 2 ^ 63)
    (done : state.take malloc allocator index size = some (charge, after)) :
    (Exists fun blocks => Owned after blocks (charges ++ [charge])) ∧
      charge.allocator = allocator ∧ charge.record = index := by
  rcases Option.bind_eq_some_iff.mp done with ⟨t, there, done⟩
  rcases owned.stocked allocator index t there with ⟨stocked, handed⟩
  generalize served : memoryAllocatorNew malloc ⟨state.memory, some t.blocks⟩ size = answer at done
  rcases answer with ⟨result, later⟩
  rcases Option.bind_eq_some_iff.mp done with ⟨entry, held, same⟩
  rcases Prod.mk.inj (Option.some.inj same) with ⟨rfl, rfl⟩
  refine ⟨?_, rfl, rfl⟩
  rcases later with ⟨memory, held_⟩
  change held_ = some entry at held
  subst held
  rcases memoryAllocatorNew_advances stocked served with ⟨entry_, advanced⟩
  rcases stocked.memoryAllocatorNew_spec handed fresh small served with
    ⟨other, newBlocks, stockedLater, handedLater⟩
  cases Option.some.inj stockedLater.held
  cases Option.some.inj advanced.held
  have whole := @replace state blocks charges owned allocator index { t with blocks := entry }
    memory ((state.records allocator).set index { t with blocks := entry }) newBlocks
    [⟨allocator, index, ⟨size, result⟩⟩] (AllocatorState.live_of_record there)
  have within := (List.getElem?_eq_some_iff.mp there).1
  refine ⟨_, whole ?_ ?_ ?_ ?_ ⟨stockedLater, ?_⟩ ?_ ?_⟩
  · intro self place found
    have threads : ((state.records allocator).set index { t with blocks := entry }).map
        ThreadRecord.thread = (state.records allocator).map ThreadRecord.thread := by
      rw [List.map_set]
      refine List.ext_getElem? fun spot => ?_
      rw [List.getElem?_set]
      by_cases here : index = spot
      · rw [if_pos here, ← here, List.getElem?_map, there, if_pos (by rwa [List.length_map])]
        rfl
      · rw [if_neg here]
    rw [threads]
    exact found
  · intro place
    rw [List.getElem?_set]
    by_cases here : place = index
    · rw [if_pos here.symm, if_pos within, if_pos here]
    · rw [if_neg (Ne.symm here), if_neg here]
  · rcases advanced.tail with ⟨size, _⟩ | ⟨size, _⟩
    · exact Nat.le_of_eq size.symm
    · exact size ▸ Nat.le_succ _
  · intro rival place record spot different data member
    have beside := owned.apart allocator index t rival place record there spot
      (fun same => different ⟨same.1.symm, same.2.symm⟩) t.blocks.tail stocked.tail_mem data member
    exact advanced.others data ((owned.stocked rival place record spot).1.known data member)
      beside.1.symm
  · rw [requestsOf_snoc, if_pos ⟨rfl, rfl⟩]
    exact handedLater
  · intro data member
    have old (there_ : data ∈ blocks allocator index) : Exists fun old =>
        (state.records allocator)[index]? = some old ∧ data ∈ blocks allocator index ∧
          (memory.get data).whole = (state.memory.get data).whole :=
      ⟨t, there, there_, advanced.whole_eq (stocked.known data there_)⟩
    rcases advanced.chain_eq stocked stockedLater with same | ⟨same, bytes, area, given, whole⟩
    · rw [same] at member
      exact .inl (old member)
    · rw [same] at member
      rcases List.mem_append.mp member with before | new
      · exact .inl (old before)
      · rw [List.mem_singleton.mp new, whole]
        exact .inr ⟨Nat.le_refl _, (fresh bytes area given).2.2⟩
  · intro charge member
    rw [List.mem_singleton.mp member]
    exact ⟨rfl, rfl⟩

/-- A request is served by the record that the plain search finds. -/
theorem serving_eq (owned : Owned state blocks charges) {self : Nat} {found : Option (Nat × Nat)}
    (done : state.serving self = some (found, after)) :
    Owned after blocks charges ∧ after.memory = state.memory ∧
      after.allocators = state.allocators ∧ ∀ allocator index, found = some (allocator, index) →
        state.search allocator self = some index ∧ Exists fun current => Exists fun mode =>
          state.current = some current ∧ state.modeOf current self = some mode ∧
            state.chosen current mode = some allocator := by
  rcases Option.bind_eq_some_iff.mp done with ⟨current, set_, done⟩
  rcases Option.bind_eq_some_iff.mp done with ⟨⟨t, second⟩, first, done⟩
  rcases owned.findEntry first with ⟨secondOwned, rfl, memory, allocators⟩
  dsimp only at done
  split at done
  · rcases Prod.mk.inj (Option.some.inj done) with ⟨rfl, rfl⟩
    exact ⟨secondOwned, memory, allocators, fun _ _ impossible => nomatch impossible⟩
  · rename_i index searched
    rw [allocators] at done
    rcases Option.bind_eq_some_iff.mp done with ⟨allocator, there, done⟩
    rcases Option.bind_eq_some_iff.mp done with ⟨t, record, done⟩
    have mode : state.modeOf current self = some t.mode := by
      unfold AllocatorState.modeOf
      rw [searched, AllocatorState.records_eq there, Option.bind_some, record]
      rfl
    have own (plain : state.chosen current t.mode = some current)
        (same : some (some (current, index), second) = some (found, after)) :
        Owned after blocks charges ∧ after.memory = state.memory ∧
        after.allocators = state.allocators ∧ ∀ allocator index, found = some (allocator, index) →
          state.search allocator self = some index ∧ Exists fun current => Exists fun mode =>
            state.current = some current ∧ state.modeOf current self = some mode ∧
              state.chosen current mode = some allocator := by
      rcases Prod.mk.inj (Option.some.inj same) with ⟨rfl, rfl⟩
      refine ⟨secondOwned, memory, allocators, fun other place given => ?_⟩
      rcases Prod.mk.inj (Option.some.inj given) with ⟨rfl, rfl⟩
      exact ⟨searched, current, t.mode, set_, mode, plain⟩
    split at done
    · rename_i absent
      refine own ?_ done
      unfold AllocatorState.chosen
      rw [there, Option.bind_some, absent]
    · rename_i customs given
      have chosen : state.chosen current t.mode =
          if t.mode ≠ .self then customs.of t.mode else some current := by
        unfold AllocatorState.chosen
        rw [there, Option.bind_some, given]
      split at done
      · rename_i other
        rcases Option.bind_eq_some_iff.mp done with ⟨custom, which, done⟩
        rcases Option.bind_eq_some_iff.mp done with ⟨⟨found_, third⟩, next, done⟩
        rcases secondOwned.findEntry next with ⟨thirdOwned, rfl, memory_, allocators_⟩
        rcases Prod.mk.inj (Option.some.inj done) with ⟨rfl, rfl⟩
        refine ⟨thirdOwned, memory_.trans memory, allocators_.trans allocators,
          fun allocator place given => ?_⟩
        rcases Option.map_eq_some_iff.mp given with ⟨spot, searched, pair⟩
        rcases Prod.mk.inj pair with ⟨rfl, rfl⟩
        refine ⟨?_, current, t.mode, set_, mode, ?_⟩
        · unfold AllocatorState.search AllocatorState.records at searched ⊢
          rw [← allocators]
          exact searched
        · rw [chosen, if_pos other]
          exact which
      · rename_i self_
        refine own ?_ done
        rw [chosen, if_neg self_]

theorem new (owned : Owned state blocks charges) {malloc : Malloc} {self size : Nat}
    {given : Option Charge} (fresh : malloc.Fresh state.memory) (small : size < 2 ^ 63)
    (done : state.new malloc self size = some (given, after)) :
    (Exists fun blocks => Owned after blocks (charges ++ given.toList)) ∧
      ∀ charge, given = some charge →
        state.search charge.allocator self = some charge.record ∧ Exists fun current =>
          Exists fun mode => state.current = some current ∧
            state.modeOf current self = some mode ∧
              state.chosen current mode = some charge.allocator := by
  rcases Option.bind_eq_some_iff.mp done with ⟨⟨t, second⟩, first, done⟩
  rcases owned.serving_eq first with ⟨secondOwned, memory, _, served⟩
  dsimp only at done
  split at done
  · rcases Prod.mk.inj (Option.some.inj done) with ⟨rfl, rfl⟩
    refine ⟨⟨blocks, ?_⟩, fun _ impossible => nomatch impossible⟩
    rw [Option.toList_none, List.append_nil]
    exact secondOwned
  · rename_i allocator index
    rcases Option.bind_eq_some_iff.mp done with ⟨⟨charge, third⟩, taken, done⟩
    rcases Prod.mk.inj (Option.some.inj done) with ⟨rfl, rfl⟩
    rcases secondOwned.take (memory ▸ fresh) small taken with ⟨there, rfl, rfl⟩
    refine ⟨there, fun other same => ?_⟩
    cases same
    exact served _ _ rfl

end Owned

/-! ## Release -/

/-- The blocks of one chain are freed. -/
theorem releaseData_get {memory : Arena AllocatorData} {start : Option Nat} {blocks : List Nat}
    (chain : Chain (fun data => (memory.get data).nextEntry) start blocks) {fuel : Nat}
    (enough : blocks.length ≤ fuel) :
    (AllocatorState.releaseData memory fuel start).size = memory.size ∧
      ∀ data, (AllocatorState.releaseData memory fuel start).get data =
        if data ∈ blocks then default else memory.get data := by
  induction fuel generalizing memory start blocks with
  | zero =>
      cases List.length_eq_zero_iff.mp (Nat.le_zero.mp enough)
      cases chain
      exact ⟨rfl, fun _ => rfl⟩
  | succ fuel inductionHypothesis =>
      cases chain with
      | nil => exact ⟨rfl, fun _ => rfl⟩
      | cons first rest tail =>
          have distinct := (Chain.cons first rest tail).nodup
          have later : Chain (fun data => ((memory.write first default).get data).nextEntry)
              (memory.get first).nextEntry rest := by
            refine tail.congr fun data member => ?_
            rw [Arena.write_get, if_neg]
            rintro rfl
            exact (List.nodup_cons.mp distinct).1 member
          rcases inductionHypothesis later (Nat.le_of_succ_le_succ enough) with ⟨size, get⟩
          refine ⟨size, fun data => ?_⟩
          rw [AllocatorState.releaseData, get, Arena.write_get]
          by_cases here : data = first
          · rw [here, if_pos rfl, if_pos List.mem_cons_self, ite_self]
          · simp only [List.mem_cons, here, false_or, if_false]

/-- The blocks of all records are freed, and no others. -/
theorem release_get {memory : Arena AllocatorData} {records : List ThreadRecord}
    {blocks : Nat → List Nat}
    (chains : ∀ (index : Nat) record, records[index]? = some record →
      Chain (fun data => (memory.get data).nextEntry) (some record.blocks.head) (blocks index) ∧
        ∀ data ∈ blocks index, data < memory.size)
    (apart : ∀ first < records.length, ∀ second < records.length, first ≠ second →
      ∀ data ∈ blocks first, data ∉ blocks second) :
    let freed := records.foldl (fun memory record =>
      AllocatorState.releaseData memory memory.size (some record.blocks.head)) memory
    freed.size = memory.size ∧
      (∀ index < records.length, ∀ data ∈ blocks index, freed.get data = default) ∧
      ∀ data, (∀ index < records.length, data ∉ blocks index) →
        freed.get data = memory.get data := by
  induction records generalizing memory blocks with
  | nil => exact ⟨rfl, fun _ impossible => (nomatch impossible), fun _ _ => rfl⟩
  | cons record rest inductionHypothesis =>
      rcases chains 0 record rfl with ⟨chain, known⟩
      have subset : blocks 0 ⊆ List.range memory.size :=
        fun data member => List.mem_range.mpr (known data member)
      have short := (chain.nodup.subperm subset).length_le
      rw [List.length_range] at short
      rcases releaseData_get chain short with ⟨size, get⟩
      simp only [List.foldl_cons]
      generalize AllocatorState.releaseData memory memory.size (some record.blocks.head) = first
        at size get ⊢
      have zero : 0 < (record :: rest).length := Nat.zero_lt_succ _
      have untouched (index : Nat) (within : index < rest.length) (data : Nat)
          (member : data ∈ blocks (index + 1)) : first.get data = memory.get data := by
        rw [get, if_neg fun here => apart 0 zero (index + 1) (Nat.succ_lt_succ within)
          (Nat.zero_ne_add_one index) data here member]
      have later := @inductionHypothesis first (fun index => blocks (index + 1))
        (by
          intro index other there
          rcases chains (index + 1) other there with ⟨chain, known⟩
          have within := (List.getElem?_eq_some_iff.mp there).1
          refine ⟨chain.congr fun data member => ?_, size ▸ known⟩
          rw [untouched index within data member])
        (fun one onePlace two twoPlace different => apart (one + 1) (Nat.succ_lt_succ onePlace)
          (two + 1) (Nat.succ_lt_succ twoPlace) (fun same => different (Nat.succ.inj same)))
      rcases later with ⟨sizes, freed, others⟩
      refine ⟨sizes.trans size, ?_, ?_⟩
      · intro index within data member
        cases index with
        | zero =>
            have outside : ∀ index < rest.length, data ∉ blocks (index + 1) :=
              fun index place => apart 0 zero (index + 1) (Nat.succ_lt_succ place)
                (Nat.zero_ne_add_one index) data member
            exact (others data outside).trans ((get data).trans (if_pos member))
        | succ index => exact freed index (Nat.lt_of_succ_lt_succ within) data member
      · intro data outside
        have beyond := others data fun index place => outside (index + 1) (Nat.succ_lt_succ place)
        exact beyond.trans ((get data).trans (if_neg (outside 0 zero)))

namespace Owned

variable {state after : AllocatorState} {blocks : Nat → Nat → List Nat} {charges : List Charge}

/-- A release frees the blocks of the allocator, and leaves those of the others. -/
theorem release (owned : Owned state blocks charges) {allocator : Nat}
    (done : state.memoryAllocatorRelease allocator = some after) :
    Owned after blocks charges ∧
      ∀ index < (state.records allocator).length, ∀ data ∈ blocks allocator index,
        (after.memory.get data).whole = ∅ := by
  rcases Option.map_eq_some_iff.mp done with ⟨found, there, same⟩
  rw [← AllocatorState.records_eq there] at same
  have record (index : Nat) (within : index < (state.records allocator).length) :
      Exists fun record => (state.records allocator)[index]? = some record :=
    ⟨_, List.getElem?_eq_getElem within⟩
  have apart : ∀ first < (state.records allocator).length,
      ∀ second < (state.records allocator).length, first ≠ second →
        ∀ data ∈ blocks allocator first, data ∉ blocks allocator second := by
    intro first one second two different data left right
    rcases record first one with ⟨left_, one⟩
    rcases record second two with ⟨right_, two⟩
    exact (owned.apart allocator first left_ allocator second right_ one two
      (fun same => different same.2) data left data right).1 rfl
  rcases release_get (fun index record given =>
    ⟨(owned.stocked allocator index record given).1.chain,
      (owned.stocked allocator index record given).1.known⟩) apart with ⟨size, freed, others⟩
  generalize (state.records allocator).foldl (fun memory record =>
    AllocatorState.releaseData memory memory.size (some record.blocks.head)) state.memory = memory
    at same size freed others
  have memory_ : after.memory = memory := by rw [← same]
  have get (other : Nat) : after.allocators.get other =
      if other = allocator then none else state.allocators.get other := by
    rw [← same]
    rfl
  have gone : ¬ after.Live allocator := by
    rw [AllocatorState.Live, get, if_pos rfl]
    exact Bool.false_ne_true
  have lives {other : Nat} (live : after.Live other) : other ≠ allocator ∧ state.Live other := by
    have different : other ≠ allocator := fun here => gone (here ▸ live)
    rw [AllocatorState.Live, get, if_neg different] at live
    exact ⟨different, live⟩
  have records {other : Nat} (different : other ≠ allocator) :
      after.records other = state.records other := by
    unfold AllocatorState.records
    rw [get, if_neg different]
  have kept {other index : Nat} {record : ThreadRecord} (different : other ≠ allocator)
      (given : (state.records other)[index]? = some record) :
      ∀ data ∈ blocks other index, memory.get data = state.memory.get data := by
    intro data member
    refine others data fun place within here => ?_
    refine (owned.apart other index record allocator place _ given
      (List.getElem?_eq_getElem within) (fun same => different same.1) data member data here).1 rfl
  refine ⟨⟨?_, ?_, ?_, ?_, ?_⟩, ?_⟩
  · intro other index record given
    have different := (lives (AllocatorState.live_of_record given)).1
    rw [records different] at given
    rcases owned.stocked other index record given with ⟨stocked, handed⟩
    have same_ := kept different given
    rw [memory_]
    exact ⟨stocked.frame same_ (Nat.le_of_eq size.symm), handed.frame same_⟩
  · intro other index record rivals place rival one two different first left second right
    have here := (lives (AllocatorState.live_of_record one)).1
    have there := (lives (AllocatorState.live_of_record two)).1
    rw [records here] at one
    rw [records there] at two
    rw [memory_, kept here one first left, kept there two second right]
    exact owned.apart other index record rivals place rival one two different first left second right
  · intro charge member
    rcases owned.charged charge member with ⟨known, within⟩
    refine ⟨by rw [← same]; exact known, fun live => ?_⟩
    rw [records (lives live).1]
    exact within (lives live).2
  · intro other beyond
    rw [get]
    by_cases here : other = allocator
    · rw [if_pos here]
    · rw [if_neg here]
      refine owned.absent other ?_
      rw [← same] at beyond
      exact beyond
  · intro other self index live given
    rw [← same] at given
    unfold AllocatorState.search
    rw [records (lives live).1]
    exact owned.remembered other self index (lives live).2 given
  · intro index within data member
    rw [memory_, freed index within data member]
    exact Set.Ico_self 0

end Owned

/-! ## Every order of calls -/

theorem Owned.start : Owned AllocatorState.start (fun _ _ => []) [] where
  stocked := fun _ _ _ there => nomatch there
  apart := fun _ _ _ _ _ _ there => nomatch there
  charged := fun _ member => nomatch member
  absent := fun _ _ => rfl
  remembered := fun _ _ _ live => nomatch live

theorem Owned.called {before after : AllocatorState} {event : AllocatorEvent}
    {blocks : Nat → Nat → List Nat} {charges : List Charge} (owned : Owned before blocks charges)
    (called : Called before event after) :
    Exists fun blocks => Owned after blocks (charges ++ event.given.toList) := by
  rcases event with ⟨thread, call, given⟩
  rcases called with ⟨fresh, done⟩
  have plain {later : Option AllocatorState} (kept : ∀ state, later = some state →
      Exists fun blocks => Owned state blocks charges)
      (same : later.map (fun state => ((none : Option Charge), state)) = some (given, after)) :
      Exists fun blocks => Owned after blocks (charges ++ given.toList) := by
    rcases Option.map_eq_some_iff.mp same with ⟨state, found, pair⟩
    rcases Prod.mk.inj pair with ⟨rfl, rfl⟩
    rw [Option.toList_none, List.append_nil]
    exact kept state found
  cases call with
  | create made =>
      rcases Prod.mk.inj (Option.some.inj done) with ⟨rfl, rfl⟩
      rw [Option.toList_none, List.append_nil]
      exact ⟨blocks, owned.create made⟩
  | setCustom allocator mode custom => exact plain (fun _ found => ⟨blocks, owned.setCustom found⟩) done
  | release allocator => exact plain (fun _ found => ⟨blocks, (owned.release found).1⟩) done
  | addEntry made malloc allocator thread size =>
      exact plain (fun _ found => owned.addEntry fresh found) done
  | setCurrent allocator =>
      rcases Prod.mk.inj (Option.some.inj done) with ⟨rfl, rfl⟩
      rw [Option.toList_none, List.append_nil]
      exact ⟨blocks, owned.setCurrent allocator⟩
  | activateMode mode =>
      rcases Option.map_eq_some_iff.mp done with ⟨⟨changed, state⟩, found, pair⟩
      rcases Prod.mk.inj pair with ⟨rfl, rfl⟩
      rw [Option.toList_none, List.append_nil]
      exact ⟨blocks, owned.activateMode found⟩
  | new malloc size => exact (owned.new fresh.2 fresh.1 done).1

/-- After any calls of any threads the records own what they gave away. -/
theorem owned_of_run {events : List AllocatorEvent} {state : AllocatorState}
    (run : Run Called AllocatorState.start events state) :
    Exists fun blocks => Owned state blocks (events.filterMap AllocatorEvent.given) := by
  refine run.preserves (fun events state =>
    Exists fun blocks => Owned state blocks (events.filterMap AllocatorEvent.given)) ?_
    ⟨_, Owned.start⟩
  intro events before event after owned called
  rcases owned with ⟨blocks, owned⟩
  have more : (events ++ [event]).filterMap AllocatorEvent.given =
      events.filterMap AllocatorEvent.given ++ event.given.toList := by
    rw [List.filterMap_append, List.filterMap_cons, List.filterMap_nil]
    cases event.given <;> rfl
  rw [more]
  exact owned.called called

namespace Owned

variable {state : AllocatorState} {blocks : Nat → Nat → List Nat} {charges : List Charge}
  (owned : Owned state blocks charges)

include owned

/-- The record that gave something is still there. -/
theorem holder {charge : Charge} (member : charge ∈ charges)
    (live : state.Live charge.allocator) :
    Exists fun record => (state.records charge.allocator)[charge.record]? = some record :=
  ⟨_, List.getElem?_eq_getElem ((owned.charged charge member).2 live)⟩

/-- What was given lies in a block of the record. -/
theorem inside {charge : Charge} (member : charge ∈ charges)
    (live : state.Live charge.allocator) {first : Nat}
    (given : charge.request.result = some first) :
    Exists fun data => data ∈ blocks charge.allocator charge.record ∧
      (state.memory.get data).area ≤ first ∧ first + charge.request.size ≤
        (state.memory.get data).area + (state.memory.get data).dataSize := by
  rcases owned.holder member live with ⟨record, there⟩
  rcases owned.stocked _ _ record there with ⟨stocked, handed⟩
  have asked : charge.request ∈ requestsOf charge.allocator charge.record charges :=
    List.mem_map_of_mem (List.mem_filter.mpr ⟨member, decide_eq_true ⟨rfl, rfl⟩⟩)
  rcases handed.inside _ asked first given with ⟨data, block, above, below⟩
  exact ⟨data, block, above,
    Nat.le_trans below (Nat.add_le_add_left (stocked.offset data block) _)⟩

theorem range_inside {charge : Charge} (member : charge ∈ charges)
    (live : state.Live charge.allocator) {byte : Nat} (within : byte ∈ charge.request.range) :
    Exists fun data => data ∈ blocks charge.allocator charge.record ∧
      byte ∈ (state.memory.get data).whole := by
  unfold Request.range at within
  cases given : charge.request.result with
  | none =>
      rw [given] at within
      cases within
  | some first =>
      rw [given] at within
      rcases owned.inside member live given with ⟨data, block, above, below⟩
      exact ⟨data, block, Nat.le_trans above within.1, Nat.lt_of_lt_of_le within.2 below⟩

/-- Two requests that one record has served are apart. -/
theorem apart_in_record {earlier later : Charge} (both : [earlier, later].Sublist charges)
    (live : state.Live earlier.allocator)
    (same : later.allocator = earlier.allocator ∧ later.record = earlier.record) :
    Disjoint earlier.request.range later.request.range := by
  rcases owned.holder (both.subset List.mem_cons_self) live with ⟨record, found⟩
  refine List.pairwise_iff_forall_sublist.mp (owned.stocked _ _ record found).2.apart ?_
  have chosen : ([earlier, later].filter fun charge => charge.allocator = earlier.allocator ∧
      charge.record = earlier.record) = [earlier, later] := by
    refine List.filter_eq_self.mpr fun charge member => ?_
    rcases List.mem_pair.mp member with this | this
    · rw [this]
      exact decide_eq_true ⟨rfl, rfl⟩
    · rw [this]
      exact decide_eq_true same
  have kept := (both.filter fun charge : Charge => charge.allocator = earlier.allocator ∧
    charge.record = earlier.record).map Charge.request
  rw [chosen] at kept
  exact kept

/-- Two requests that different records have served lie in different blocks. -/
theorem apart_in_records {earlier later : Charge} (one : earlier ∈ charges)
    (two : later ∈ charges) (live : state.Live earlier.allocator)
    (there : state.Live later.allocator)
    (different : ¬ (later.allocator = earlier.allocator ∧ later.record = earlier.record)) :
    Disjoint earlier.request.range later.request.range := by
  rcases owned.holder one live with ⟨first, found⟩
  rcases owned.holder two there with ⟨second, other⟩
  rw [Set.disjoint_left]
  intro byte left right
  rcases owned.range_inside one live left with ⟨data, block, here⟩
  rcases owned.range_inside two there right with ⟨data_, block_, here_⟩
  have apart := (owned.apart _ _ first _ _ second found other
    (fun both => different ⟨both.1.symm, both.2.symm⟩) data block data_ block_).2
  exact Set.disjoint_left.mp apart here here_

end Owned

/-- A stylesheet's allocator and one of a document, and a thread that asks the
document's one and then turns to the stylesheet. -/
def stylesheetAndDocument : List AllocatorEvent :=
  let first : Malloc := ⟨true, fun size => if size = 16 then some 1000 else none⟩
  let second : Malloc := ⟨true, fun size => if size = 16 then some 2000 else none⟩
  [⟨1, .create true, none⟩, ⟨1, .addEntry true first 0 1 16, none⟩, ⟨1, .create true, none⟩,
    ⟨1, .setCustom 1 .stylesheet (some 0), none⟩, ⟨1, .addEntry true second 1 1 16, none⟩,
    ⟨1, .setCurrent (some 1), none⟩,
    ⟨1, .new ⟨false, fun _ => none⟩ 8, some ⟨1, 0, ⟨8, some 2000⟩⟩⟩,
    ⟨1, .activateMode .stylesheet, none⟩]

/-- The areas are apart, and there are no others. -/
theorem fresh_of_area {start : Nat} {memory : Arena AllocatorData} (bounded : start + 16 < 2 ^ 64)
    (apart : ∀ other < memory.size,
      Disjoint (Set.Ico start (start + 16)) (memory.get other).whole) :
    (Malloc.mk true fun size => if size = 16 then some start else none).Fresh memory := by
  intro size area given
  rcases Option.ite_none_right_eq_some.mp given with ⟨rfl, same⟩
  rw [← Option.some.inj same]
  exact ⟨by decide, bounded, apart⟩

theorem stylesheetAndDocument_runs : Exists fun state =>
    Run Called AllocatorState.start stylesheetAndDocument state ∧
      state.modeOf 1 1 = some .stylesheet ∧ state.current = some 1 ∧
      Called state ⟨2, .activateMode .global, none⟩ state ∧ Exists fun after =>
        Called state ⟨1, .new ⟨false, fun _ => none⟩ 8, some ⟨0, 0, ⟨8, some 1000⟩⟩⟩ after := by
  have none_ (memory : Arena AllocatorData) : (Malloc.mk false fun _ => none).Fresh memory :=
    fun _ _ given => nomatch given
  refine ⟨_, .tail (.tail (.tail (.tail (.tail (.tail (.tail (.tail .refl
    ⟨trivial, rfl⟩) ⟨?_, rfl⟩) ⟨trivial, rfl⟩) ⟨trivial, rfl⟩) ⟨?_, rfl⟩) ⟨trivial, rfl⟩)
    ⟨⟨by decide, none_ _⟩, rfl⟩) ⟨trivial, rfl⟩, rfl, rfl, ⟨trivial, rfl⟩,
    _, ⟨by decide, none_ _⟩, rfl⟩
  · exact fresh_of_area (by decide) fun other old => nomatch old
  · refine fresh_of_area (by decide) fun other old => ?_
    rw [Nat.lt_one_iff.mp old]
    change Disjoint (Set.Ico 2000 (2000 + 16)) (Set.Ico 1000 (1000 + 16))
    rw [Set.disjoint_left]
    intro byte new first
    exact absurd (Nat.lt_of_le_of_lt new.1 first.2) (by decide)

/-- In every order of calls by any number of threads, what two requests were
given is apart as long as neither allocator is released, and lies in a block of
the record that gave it. -/
theorem memory_apart_across_threads {events : List AllocatorEvent} {state : AllocatorState}
    (run : Run Called AllocatorState.start events state) :
    ((events.filterMap AllocatorEvent.given).Pairwise fun earlier later =>
      state.Live earlier.allocator → state.Live later.allocator →
        Disjoint earlier.request.range later.request.range) ∧
    ∀ charge ∈ events.filterMap AllocatorEvent.given, state.Live charge.allocator →
      ∀ first, charge.request.result = some first → Exists fun record => Exists fun blocks =>
        (state.records charge.allocator)[charge.record]? = some record ∧
        Chain (fun data => (state.memory.get data).nextEntry) (some record.blocks.head) blocks ∧
        Exists fun data => data ∈ blocks ∧ (state.memory.get data).area ≤ first ∧
          first + charge.request.size ≤
            (state.memory.get data).area + (state.memory.get data).dataSize := by
  rcases owned_of_run run with ⟨blocks, owned⟩
  generalize events.filterMap AllocatorEvent.given = charges at owned ⊢
  constructor
  · refine List.pairwise_iff_forall_sublist.mpr fun {earlier later} both live there => ?_
    by_cases same : later.allocator = earlier.allocator ∧ later.record = earlier.record
    · exact owned.apart_in_record both live same
    · exact owned.apart_in_records (both.subset List.mem_cons_self)
        (both.subset (List.mem_cons_of_mem _ List.mem_cons_self)) live there same
  · intro charge member live first given
    rcases owned.holder member live with ⟨found, there⟩
    exact ⟨found, _, there, (owned.stocked _ _ found there).1.chain,
      owned.inside member live given⟩

theorem memory_apart_in_two_modes : Exists fun state =>
    [(⟨1, 0, ⟨8, some 2000⟩⟩ : Charge), ⟨0, 0, ⟨8, some 1000⟩⟩].Pairwise fun earlier later =>
      AllocatorState.Live state earlier.allocator → state.Live later.allocator →
        Disjoint earlier.request.range later.request.range := by
  rcases stylesheetAndDocument_runs with ⟨state, run, _, _, _, after, called⟩
  exact ⟨after, (memory_apart_across_threads (run.tail called)).1⟩

/-! ## Modes -/

/-- A call that leaves the mode of a thread as it is. -/
structure Steady (owner allocator : Nat) (before after : AllocatorState) : Prop where
  size : before.allocators.size ≤ after.allocators.size
  live : after.Live allocator → before.Live allocator
  record : after.Live allocator → ∀ (place : Nat) (record : ThreadRecord),
    (before.records allocator)[place]? = some record →
      Exists fun later : ThreadRecord => (after.records allocator)[place]? = some later ∧
        later.thread = record.thread ∧ (record.thread = owner → later.mode = record.mode)

namespace Steady

variable {self allocator : Nat} {before after : AllocatorState}

theorem refl (state : AllocatorState) : Steady self allocator state state :=
  ⟨Nat.le_refl _, fun live => live, fun _ _ record there =>
    ⟨record, there, rfl, fun _ => rfl⟩⟩

theorem trans {first second third : AllocatorState} (one : Steady self allocator first second)
    (two : Steady self allocator second third) : Steady self allocator first third where
  size := Nat.le_trans one.size two.size
  live := fun live => one.live (two.live live)
  record := by
    intro live place record there
    rcases one.record (two.live live) place record there with ⟨next, found, thread, mode⟩
    rcases two.record live place next found with ⟨last, found, threads, modes⟩
    exact ⟨last, found, threads.trans thread,
      fun same => (modes (thread.trans same)).trans (mode same)⟩

/-- The records are the same. -/
theorem of_eq (size : after.allocators.size = before.allocators.size)
    (live : ∀ other, after.Live other → before.Live other)
    (records : after.records allocator = before.records allocator) :
    Steady self allocator before after :=
  ⟨Nat.le_of_eq size.symm, live allocator, fun _ _ record there =>
    ⟨record, records ▸ there, rfl, fun _ => rfl⟩⟩

/-- The first record of a thread stays the first one. -/
theorem modeOf (steady : Steady self allocator before after) (live : after.Live allocator)
    {mode : AllocatorMode} (was : before.modeOf allocator self = some mode) :
    after.modeOf allocator self = some mode := by
  rcases Option.map_eq_some_iff.mp was with ⟨record, found, rfl⟩
  rcases Option.bind_eq_some_iff.mp found with ⟨index, searched, there⟩
  rcases List.idxOf?_eq_some_iff.mp searched with ⟨within, first, earlier⟩
  rcases steady.record live index record there with ⟨later, found, thread, same⟩
  have recordThread : record.thread = self := by
    rw [List.getElem_map] at first
    rw [(List.getElem?_eq_some_iff.mp there).2] at first
    exact first
  have still : after.search allocator self = some index := by
    rcases List.getElem?_eq_some_iff.mp found with ⟨inside, got⟩
    refine List.idxOf?_eq_some_iff.mpr ⟨by rwa [List.length_map], ?_, fun place sooner => ?_⟩
    · rw [List.getElem_map, got]
      exact thread.trans recordThread
    · have known : place < (before.records allocator).length := by
        rw [List.length_map] at within
        exact Nat.lt_trans sooner within
      rcases steady.record live place _ (List.getElem?_eq_getElem known) with
        ⟨other, spot, threads, _⟩
      have old := earlier place sooner
      rw [List.getElem_map] at old ⊢
      rw [(List.getElem?_eq_some_iff.mp spot).2, threads]
      exact old
  unfold AllocatorState.modeOf
  rw [still, Option.bind_some, found]
  exact congrArg some (same recordThread)

end Steady

section Quiet

variable {before after : AllocatorState} {event : AllocatorEvent}
  {blocks : Nat → Nat → List Nat} {charges : List Charge} {self allocator : Nat}

/-- Putting a record in the place of another one of the same thread. -/
theorem Steady.set {state : AllocatorState} {memory : Arena AllocatorData} {other index : Nat}
    {old t : ThreadRecord} (there : (state.records other)[index]? = some old)
    (thread : t.thread = old.thread) (mode : old.thread = self → t.mode = old.mode) :
    Steady self allocator state (AllocatorState.setRecords { state with memory := memory } other
      ((state.records other).set index t)) where
  size := Nat.le_refl _
  live := (AllocatorState.setRecords_live _).mp
  record := by
    intro _ place record spot
    have recordsOf := @AllocatorState.setRecords_records { state with memory := memory }
      other allocator (AllocatorState.live_of_record there)
    rw [recordsOf]
    by_cases here : allocator = other
    · rw [if_pos here, List.getElem?_set]
      rw [here] at spot
      by_cases same : index = place
      · rw [← same, there] at spot
        cases Option.some.inj spot
        rw [if_pos same, if_pos (List.getElem?_eq_some_iff.mp there).1]
        exact ⟨t, rfl, thread, mode⟩
      · rw [if_neg same]
        exact ⟨record, spot, rfl, fun _ => rfl⟩
    · rw [if_neg here]
      exact ⟨record, spot, rfl, fun _ => rfl⟩

/-- Only the thread itself changes its mode. -/
theorem Called.steady (owned : Owned before blocks charges) (called : Called before event after)
    (quiet : event.thread = self → ∀ mode, event.call ≠ .activateMode mode)
    (known : allocator < before.allocators.size) : Steady self allocator before after := by
  rcases event with ⟨thread, call, given⟩
  rcases called with ⟨fresh, done⟩
  cases call with
  | create made =>
      rcases Prod.mk.inj (Option.some.inj done) with ⟨_, rfl⟩
      cases made with
      | false => exact .refl before
      | true =>
          have get : (before.memoryAllocatorCreate true).allocators.get allocator =
              before.allocators.get allocator := Arena.alloc_get_of_lt _ _ known
          refine ⟨Nat.le_succ _, fun live => ?_, fun _ _ record there =>
            ⟨record, ?_, rfl, fun _ => rfl⟩⟩
          · rw [AllocatorState.Live, get] at live
            exact live
          · unfold AllocatorState.records at there ⊢
            rw [get]
            exact there
  | setCustom changed mode custom =>
      rcases Option.map_eq_some_iff.mp done with ⟨state, found, pair⟩
      rcases Prod.mk.inj pair with ⟨_, rfl⟩
      rcases Option.map_eq_some_iff.mp found with ⟨found, there, rfl⟩
      refine .of_eq rfl (fun other live => ?_) ?_
      · unfold AllocatorState.Live at live ⊢
        rw [Arena.write_get] at live
        by_cases here : other = changed
        · rw [here, there]
          rfl
        · rw [if_neg here] at live
          exact live
      · unfold AllocatorState.records
        rw [Arena.write_get]
        by_cases here : allocator = changed
        · rw [if_pos here, here, there]
          rfl
        · rw [if_neg here]
  | release gone =>
      rcases Option.map_eq_some_iff.mp done with ⟨state, found, pair⟩
      rcases Prod.mk.inj pair with ⟨_, rfl⟩
      rcases Option.map_eq_some_iff.mp found with ⟨found, there, same⟩
      have get (other : Nat) : state.allocators.get other =
          if other = gone then none else before.allocators.get other := by
        rw [← same]
        rfl
      have different {other : Nat} (live : state.Live other) : other ≠ gone := by
        rintro rfl
        rw [AllocatorState.Live, get, if_pos rfl] at live
        cases live
      refine ⟨by rw [← same]; exact Nat.le_refl _, fun live => ?_, fun live _ record spot =>
        ⟨record, ?_, rfl, fun _ => rfl⟩⟩
      · have other := different live
        rw [AllocatorState.Live, get, if_neg other] at live
        exact live
      · unfold AllocatorState.records at spot ⊢
        rw [get, if_neg (different live)]
        exact spot
  | addEntry made malloc grown thread_ size =>
      rcases Option.map_eq_some_iff.mp done with ⟨state, found, pair⟩
      rcases Prod.mk.inj pair with ⟨_, rfl⟩
      rcases Option.map_eq_some_iff.mp found with ⟨found, there, same⟩
      have live : before.Live grown := Option.isSome_iff_exists.mpr ⟨found, there⟩
      split at same
      · split at same
        · exact same ▸ .refl before
        · rename_i memory _
          rw [← same, ← AllocatorState.records_eq there]
          refine ⟨Nat.le_refl _, (AllocatorState.setRecords_live _).mp,
            fun _ _ record spot => ⟨record, ?_, rfl, fun _ => rfl⟩⟩
          have recordsOf := @AllocatorState.setRecords_records { before with memory := memory }
            grown allocator live
          rw [recordsOf]
          by_cases here : allocator = grown
          · rw [if_pos here, ← here]
            rw [List.getElem?_append_left (List.getElem?_eq_some_iff.mp spot).1]
            exact spot
          · rw [if_neg here]
            exact spot
      · exact same ▸ .refl before
  | setCurrent current =>
      rcases Prod.mk.inj (Option.some.inj done) with ⟨_, rfl⟩
      exact .of_eq rfl (fun _ live => live) rfl
  | activateMode mode =>
      rcases Option.map_eq_some_iff.mp done with ⟨⟨changed, state⟩, found, pair⟩
      rcases Prod.mk.inj pair with ⟨_, rfl⟩
      rcases Option.bind_eq_some_iff.mp found with ⟨current, _, found⟩
      rcases Option.bind_eq_some_iff.mp found with ⟨there, here, found⟩
      split at found
      · rcases Prod.mk.inj (Option.some.inj found) with ⟨_, rfl⟩
        exact .refl before
      · rename_i index searched
        rcases Option.bind_eq_some_iff.mp found with ⟨t, record, found⟩
        split at found
        · rcases Prod.mk.inj (Option.some.inj found) with ⟨_, rfl⟩
          exact .refl before
        · rcases Prod.mk.inj (Option.some.inj found) with ⟨_, rfl⟩
          rw [← AllocatorState.records_eq here] at record ⊢
          refine Steady.set record rfl fun same => ?_
          -- the record is one of the calling thread
          rw [AllocatorState.search_eq here] at searched
          rcases List.idxOf?_eq_some_iff.mp searched with ⟨_, first, _⟩
          rw [List.getElem_map, (List.getElem?_eq_some_iff.mp record).2] at first
          exact absurd rfl (quiet (first.symm.trans same) mode)
  | new malloc size =>
      rcases Option.bind_eq_some_iff.mp done with ⟨⟨t, second⟩, first, done⟩
      rcases owned.serving_eq first with ⟨_, _, allocators, _⟩
      have same : Steady self allocator before second := by
        refine .of_eq (by rw [allocators]) (fun other live => ?_) ?_
        · unfold AllocatorState.Live at live ⊢
          rw [← allocators]
          exact live
        · unfold AllocatorState.records
          rw [allocators]
      dsimp only at done
      split at done
      · rcases Prod.mk.inj (Option.some.inj done) with ⟨_, rfl⟩
        exact same
      · rename_i chosen index
        rcases Option.bind_eq_some_iff.mp done with ⟨⟨charge, third⟩, taken, done⟩
        rcases Prod.mk.inj (Option.some.inj done) with ⟨_, rfl⟩
        rcases Option.bind_eq_some_iff.mp taken with ⟨t, record, taken⟩
        rcases Option.bind_eq_some_iff.mp taken with ⟨entry, _, taken⟩
        rcases Prod.mk.inj (Option.some.inj taken) with ⟨_, rfl⟩
        exact same.trans (Steady.set record rfl fun _ => rfl)

end Quiet

/-- While a thread does not change its mode, whatever the others do, its requests
are served by the allocator that the mode stands for. -/
theorem served_in_mode {events later : List AllocatorEvent} {before state after : AllocatorState}
    {self allocator size : Nat} {mode : AllocatorMode} {malloc : Malloc} {charge : Charge}
    (run : Run Called AllocatorState.start events before)
    (was : before.modeOf allocator self = some mode) (rest : Run Called before later state)
    (quiet : ∀ event ∈ later, event.thread = self → ∀ mode, event.call ≠ .activateMode mode)
    (current : state.current = some allocator)
    (called : Called state ⟨self, .new malloc size, some charge⟩ after) :
    state.chosen allocator mode = some charge.allocator ∧
      state.search charge.allocator self = some charge.record := by
  rcases owned_of_run run with ⟨_, owned⟩
  have live {state : AllocatorState} {mode : AllocatorMode}
      (was : state.modeOf allocator self = some mode) : state.Live allocator := by
    rcases Option.map_eq_some_iff.mp was with ⟨record, found, _⟩
    rcases Option.bind_eq_some_iff.mp found with ⟨index, _, there⟩
    exact AllocatorState.live_of_record there
  have known : allocator < before.allocators.size := by
    refine Nat.lt_of_not_le fun beyond => ?_
    have there := live was
    rw [AllocatorState.Live, owned.absent allocator beyond] at there
    cases there
  have held := rest.preserves (fun later state =>
    (∀ event ∈ later, event.thread = self → ∀ mode, event.call ≠ .activateMode mode) →
      Steady self allocator before state ∧
        Exists fun blocks => Exists fun charges => Owned state blocks charges)
    (fun later middle event next held taken quiet => by
      rcases held fun event member => quiet event (List.mem_append_left _ member) with
        ⟨steady, blocks, charges, owned⟩
      rcases owned.called taken with ⟨nextBlocks, nextOwned⟩
      have one := taken.steady owned (quiet event (List.mem_append_right _ List.mem_cons_self))
        (Nat.lt_of_lt_of_le known steady.size)
      exact ⟨steady.trans one, nextBlocks, _, nextOwned⟩)
    (fun _ => ⟨.refl before, _, _, owned⟩) quiet
  rcases held with ⟨steady, blocks, charges, ownedThere⟩
  rcases called with ⟨fresh, done⟩
  rcases (ownedThere.new fresh.2 fresh.1 done).2 charge rfl with
    ⟨searched, there, now, here, mode_, chosen⟩
  cases Option.some.inj (current.symm.trans here)
  have still := steady.modeOf (live mode_) was
  cases Option.some.inj (still.symm.trans mode_)
  exact ⟨chosen, searched⟩

theorem served_in_mode_stylesheet : Exists fun state =>
    AllocatorState.chosen state 1 .stylesheet = some 0 ∧ state.search 0 1 = some 0 := by
  rcases stylesheetAndDocument_runs with ⟨state, run, mode, current, other, after, called⟩
  refine ⟨state, served_in_mode run mode (Run.single other) ?_ current called⟩
  intro event member same
  rw [List.mem_singleton.mp member] at same
  cases same

end TurboXSL
