import Mathlib.Algebra.Ring.Nat
import Mathlib.Order.CompletePartialOrder
import Mathlib.Order.Interval.Set.Disjoint
import TurboXSL.Library.Arena
import TurboXSL.Library.Interleaving

namespace TurboXSL

open Library

/-!
# Memory that is handed out

`allocator.c`: a thread has a chain of blocks, and memory is taken from the
last one.  Where that is too short, a block of at least twice its size is put
behind it; what is left of the old one is not used again.  The thread is in the
mode in which it asks for memory of its own.
-/

/-- `memory_allocator_data`; `area` is an address. -/
structure AllocatorData where
  area : Nat
  dataSize : Nat
  offset : Nat
  nextEntry : Option Nat
deriving Inhabited

/-- `memory_allocator_entry` of the thread. -/
structure AllocatorEntry where
  head : Nat
  tail : Nat

/-- The records of the blocks, and the entry of the thread, if it has one. -/
structure ThreadMemory where
  memory : Arena AllocatorData
  entry : Option AllocatorEntry

/-- What `malloc` returns: a record of a block or NULL, and for an area of some
size its address or NULL. -/
structure Malloc where
  record : Bool
  area : Nat → Option Nat

/-- `memory_allocator_create_data` -/
def memoryAllocatorCreateData (malloc : Malloc) (memory : Arena AllocatorData) (size : Nat) :
    Option (Nat × Arena AllocatorData) :=
  if malloc.record then
    (malloc.area size).map fun area =>
      (memory.size, memory.alloc { area := area, dataSize := size, offset := 0, nextEntry := none })
  else none

/-- `memory_allocator_add_entry` of a new allocator; `made` tells whether there
is memory for the entry. -/
def memoryAllocatorAddEntry (made : Bool) (malloc : Malloc) (size : Nat) : ThreadMemory :=
  let memory : Arena AllocatorData := { size := 0, get := fun _ => default }
  if made then
    match memoryAllocatorCreateData malloc memory size with
    | none => { memory := memory, entry := none }
    | some (data, memory) => { memory := memory, entry := some { head := data, tail := data } }
  else { memory := memory, entry := none }

/-- The last lines of `memory_allocator_new`. -/
def takeFrom (memory : Arena AllocatorData) (entry : AllocatorEntry) (data size : Nat) :
    Option Nat × ThreadMemory :=
  let block := memory.get data
  (some ((block.area + block.offset) % 2 ^ 64),
    { memory := memory.modify data fun block =>
        { block with offset := (block.offset + size) % 2 ^ 64 },
      entry := some entry })

/-- `memory_allocator_new`, with sums and products of 64 bits. -/
def memoryAllocatorNew (malloc : Malloc) (state : ThreadMemory) (size : Nat) :
    Option Nat × ThreadMemory :=
  match state.entry with
  | none => (none, state)
  | some t =>
      let data := state.memory.get t.tail
      if (data.offset + size) % 2 ^ 64 > data.dataSize then
        match data.nextEntry with
        | none =>
            let newSize := 2 * (if size > data.dataSize then size else data.dataSize) % 2 ^ 64
            match memoryAllocatorCreateData malloc state.memory newSize with
            | none => (none, state)
            | some (newData, memory) =>
                let linked := memory.modify t.tail fun data =>
                  { data with nextEntry := some newData }
                takeFrom linked { t with tail := newData } newData size
        | some next => takeFrom state.memory t next size
      else takeFrom state.memory t t.tail size

theorem memoryAllocatorCreateData_eq_some {malloc : Malloc} {memory : Arena AllocatorData}
    {size : Nat} {made : Nat × Arena AllocatorData}
    (created : memoryAllocatorCreateData malloc memory size = some made) :
    Exists fun area => malloc.area size = some area ∧ made = (memory.size,
      memory.alloc { area := area, dataSize := size, offset := 0, nextEntry := none }) := by
  unfold memoryAllocatorCreateData at created
  split at created
  · rcases Option.map_eq_some_iff.mp created with ⟨area, given, same⟩
    exact ⟨area, given, same.symm⟩
  · cases created

/-! ## Requests in turn -/

def AllocatorData.whole (data : AllocatorData) : Set Nat :=
  Set.Ico data.area (data.area + data.dataSize)

/-- An area is apart from those of the blocks, and objects have less than 2 ^ 63
bytes. -/
def Malloc.Fresh (malloc : Malloc) (memory : Arena AllocatorData) : Prop :=
  ∀ size area, malloc.area size = some area → size < 2 ^ 63 ∧ area + size < 2 ^ 64 ∧
    ∀ other < memory.size, Disjoint (Set.Ico area (area + size)) (memory.get other).whole

/-- A request, with what was returned. -/
structure Request where
  size : Nat
  result : Option Nat

/-- The bytes that a request was given. -/
def Request.range (request : Request) : Set Nat :=
  match request.result with
  | none => ∅
  | some start => Set.Ico start (start + request.size)

/-- One request, whatever `malloc` returns. -/
def Requested (before : ThreadMemory) (request : Request) (after : ThreadMemory) : Prop :=
  request.size < 2 ^ 63 ∧ Exists fun malloc => malloc.Fresh before.memory ∧
    memoryAllocatorNew malloc before request.size = (request.result, after)

/-! ## What holds between requests -/

/-- The blocks of the entry, first to last. -/
structure Stocked (state : ThreadMemory) (entry : AllocatorEntry) (blocks : List Nat) : Prop where
  held : state.entry = some entry
  chain : Chain (fun data => (state.memory.get data).nextEntry) (some entry.head) blocks
  last : blocks.getLast? = some entry.tail
  known : ∀ data ∈ blocks, data < state.memory.size
  offset : ∀ data ∈ blocks, (state.memory.get data).offset ≤ (state.memory.get data).dataSize
  bounded : ∀ data ∈ blocks, (state.memory.get data).dataSize < 2 ^ 63 ∧
    (state.memory.get data).area + (state.memory.get data).dataSize < 2 ^ 64
  apart : ∀ first ∈ blocks, ∀ second ∈ blocks, first ≠ second →
    Disjoint (state.memory.get first).whole (state.memory.get second).whole

/-- The requests so far have got what is in use of the blocks. -/
structure HandedOut (state : ThreadMemory) (blocks : List Nat) (requests : List Request) :
    Prop where
  inside : ∀ request ∈ requests, ∀ start, request.result = some start →
    Exists fun data => data ∈ blocks ∧ (state.memory.get data).area ≤ start ∧
      start + request.size ≤ (state.memory.get data).area + (state.memory.get data).offset
  apart : requests.Pairwise fun earlier later => Disjoint earlier.range later.range

/-- The blocks stay where they are, and no more of them becomes free. -/
def KeepsBlocks (before after : Arena AllocatorData) (blocks : List Nat) : Prop :=
  ∀ data ∈ blocks, (after.get data).area = (before.get data).area ∧
    (after.get data).dataSize = (before.get data).dataSize ∧
    (before.get data).offset ≤ (after.get data).offset

section Kept

variable {before after : ThreadMemory} {blocks later : List Nat} {requests : List Request}

theorem KeepsBlocks.whole (kept : KeepsBlocks before.memory after.memory blocks) {data : Nat}
    (member : data ∈ blocks) :
    (after.memory.get data).whole = (before.memory.get data).whole := by
  unfold AllocatorData.whole
  rw [(kept data member).1, (kept data member).2.1]

theorem HandedOut.keep (handed : HandedOut before blocks requests)
    (kept : KeepsBlocks before.memory after.memory blocks) (more : blocks ⊆ later) :
    HandedOut after later requests where
  inside := by
    intro request member start given
    rcases handed.inside request member start given with ⟨data, block, above, below⟩
    rcases kept data block with ⟨area, _, offset⟩
    refine ⟨data, more block, area ▸ above, ?_⟩
    rw [area]
    exact Nat.le_trans below (Nat.add_le_add_left offset _)
  apart := handed.apart

end Kept

namespace Stocked

variable {state : ThreadMemory} {entry : AllocatorEntry} {blocks : List Nat}

theorem tail_mem (stocked : Stocked state entry blocks) : entry.tail ∈ blocks :=
  List.mem_of_getLast? stocked.last

/-- Nothing comes behind the last block. -/
theorem tail_next (stocked : Stocked state entry blocks) :
    (state.memory.get entry.tail).nextEntry = none :=
  stocked.chain.ends stocked.last

variable {requests : List Request} {size : Nat}

/-- Nobody has got what is free in the last block. -/
theorem free (stocked : Stocked state entry blocks) (handed : HandedOut state blocks requests)
    {request : Request} (member : request ∈ requests) :
    Disjoint request.range (Set.Ico
      ((state.memory.get entry.tail).area + (state.memory.get entry.tail).offset)
      ((state.memory.get entry.tail).area + (state.memory.get entry.tail).dataSize)) := by
  unfold Request.range
  cases given : request.result with
  | none => exact Set.empty_disjoint _
  | some start =>
      rcases handed.inside request member start given with ⟨data, block, above, below⟩
      rw [Set.disjoint_left]
      intro byte inRequest inFree
      by_cases here : data = entry.tail
      · rw [here] at below
        exact absurd (Nat.lt_of_lt_of_le inRequest.2 below) (Nat.not_lt.mpr inFree.1)
      · have apart := stocked.apart data block entry.tail stocked.tail_mem here
        have used := stocked.offset data block
        refine Set.disjoint_left.mp apart ⟨?_, ?_⟩ ⟨?_, inFree.2⟩
        · exact Nat.le_trans above inRequest.1
        · exact Nat.lt_of_lt_of_le inRequest.2 (Nat.le_trans below (Nat.add_le_add_left used _))
        · exact Nat.le_trans (Nat.le_add_right _ _) inFree.1

/-- What is free in the last block can be taken. -/
theorem takeFrom_spec (stocked : Stocked state entry blocks)
    (handed : HandedOut state blocks requests)
    (room : (state.memory.get entry.tail).offset + size ≤
      (state.memory.get entry.tail).dataSize) :
    Exists fun start => Exists fun after =>
      takeFrom state.memory entry entry.tail size = (some start, after) ∧
      Stocked after entry blocks ∧ HandedOut after blocks (requests ++ [⟨size, some start⟩]) := by
  have bounded := stocked.bounded entry.tail stocked.tail_mem
  have address : ((state.memory.get entry.tail).area + (state.memory.get entry.tail).offset) %
      2 ^ 64 = (state.memory.get entry.tail).area + (state.memory.get entry.tail).offset :=
    Nat.mod_eq_of_lt (by omega)
  have advanced : ((state.memory.get entry.tail).offset + size) % 2 ^ 64 =
      (state.memory.get entry.tail).offset + size :=
    Nat.mod_eq_of_lt (by omega)
  generalize made : takeFrom state.memory entry entry.tail size = result
  rcases result with ⟨start, after⟩
  rcases Prod.mk.inj made with ⟨rfl, same⟩
  have get (data : Nat) : after.memory.get data = if data = entry.tail then
      { state.memory.get entry.tail with offset := (state.memory.get entry.tail).offset + size }
      else state.memory.get data := by
    rw [← same, Arena.modify_get, advanced]
  have taken := (get entry.tail).trans (if_pos rfl)
  have kept : KeepsBlocks state.memory after.memory blocks := by
    intro data _
    by_cases here : data = entry.tail
    · rw [here, taken]
      exact ⟨rfl, rfl, Nat.le_add_right _ _⟩
    · rw [get, if_neg here]
      exact ⟨rfl, rfl, Nat.le_refl _⟩
  refine ⟨_, after, rfl, ⟨?_, ?_, stocked.last, ?_, ?_, ?_, ?_⟩, ?_, ?_⟩
  · rw [← same]
  · refine stocked.chain.congr fun data _ => ?_
    by_cases here : data = entry.tail
    · rw [here, taken]
    · rw [get, if_neg here]
  · rw [← same]
    exact stocked.known
  · intro data member
    by_cases here : data = entry.tail
    · rw [here, taken]
      exact room
    · rw [get, if_neg here]
      exact stocked.offset data member
  · intro data member
    rw [(kept data member).1, (kept data member).2.1]
    exact stocked.bounded data member
  · intro first one second two different
    rw [kept.whole one, kept.whole two]
    exact stocked.apart first one second two different
  · intro request member start given
    rcases List.mem_append.mp member with old | new
    · exact (handed.keep kept (List.Subset.refl _)).inside request old start given
    · rw [List.mem_singleton.mp new] at given ⊢
      rw [← Option.some.inj given, address]
      refine ⟨entry.tail, stocked.tail_mem, ?_⟩
      rw [taken]
      exact ⟨Nat.le_add_right _ _, Nat.le_of_eq (Nat.add_assoc _ _ _)⟩
  · refine List.pairwise_append.mpr ⟨handed.apart, List.pairwise_singleton _ _, ?_⟩
    intro earlier old later new
    rw [List.mem_singleton.mp new]
    refine (stocked.free handed old).mono_right ?_
    change Set.Ico _ _ ⊆ _
    rw [address, Nat.add_assoc]
    exact Set.Ico_subset_Ico_right (Nat.add_le_add_left room _)

/-- The chain with a new block behind the last one. -/
theorem grow (stocked : Stocked state entry blocks) (handed : HandedOut state blocks requests)
    {area newSize : Nat} (small : newSize < 2 ^ 63) (bounded : area + newSize < 2 ^ 64)
    (apart : ∀ other < state.memory.size,
      Disjoint (Set.Ico area (area + newSize)) (state.memory.get other).whole) :
    let block : AllocatorData :=
      { area := area, dataSize := newSize, offset := 0, nextEntry := none }
    let grown : ThreadMemory :=
      { memory := (state.memory.alloc block).modify entry.tail fun data =>
          { data with nextEntry := some state.memory.size },
        entry := some { entry with tail := state.memory.size } }
    Stocked grown { entry with tail := state.memory.size } (blocks ++ [state.memory.size]) ∧
      HandedOut grown (blocks ++ [state.memory.size]) requests ∧
      grown.memory.get state.memory.size = block := by
  intro block grown
  have memory : grown.memory = (state.memory.alloc block).modify entry.tail fun data =>
      { data with nextEntry := some state.memory.size } := rfl
  have tailKnown := stocked.known entry.tail stocked.tail_mem
  have old (data : Nat) (known : data < state.memory.size) : grown.memory.get data =
      if data = entry.tail then
        { state.memory.get entry.tail with nextEntry := some state.memory.size }
      else state.memory.get data := by
    rw [memory, Arena.modify_get, Arena.alloc_get_of_lt _ _ known, Arena.alloc_get_of_lt _ _ tailKnown]
  have new : grown.memory.get state.memory.size = block := by
    rw [memory, Arena.modify_get_of_ne _ _ (Nat.ne_of_gt tailKnown), Arena.alloc_get_same]
  have kept : KeepsBlocks state.memory grown.memory blocks := by
    intro data member
    rw [old data (stocked.known data member)]
    by_cases here : data = entry.tail
    · rw [if_pos here, here]
      exact ⟨rfl, rfl, Nat.le_refl _⟩
    · rw [if_neg here]
      exact ⟨rfl, rfl, Nat.le_refl _⟩
  have both {property : Nat → Prop} (olds : ∀ data ∈ blocks, property data)
      (last : property state.memory.size) :
      ∀ data ∈ blocks ++ [state.memory.size], property data := by
    intro data member
    rcases List.mem_append.mp member with there | there
    · exact olds data there
    · exact List.mem_singleton.mp there ▸ last
  refine ⟨⟨rfl, ?_, List.getLast?_concat, ?_, ?_, ?_, ?_⟩,
    handed.keep kept (List.subset_append_left _ _), new⟩
  · refine stocked.chain.snoc stocked.last ?_ ?_ ?_
    · intro data member other
      rw [old data (stocked.known data member), if_neg other]
    · rw [old entry.tail tailKnown, if_pos rfl]
    · rw [new]
  · refine both (fun data member => ?_) (Nat.lt_succ_self _)
    exact Nat.lt_succ_of_lt (stocked.known data member)
  · refine both (fun data member => ?_) ?_
    · rw [(kept data member).2.1, old data (stocked.known data member)]
      by_cases here : data = entry.tail
      · rw [if_pos here, here]
        exact stocked.offset entry.tail stocked.tail_mem
      · rw [if_neg here]
        exact stocked.offset data member
    · rw [new]
      exact Nat.zero_le _
  · refine both (fun data member => ?_) ?_
    · rw [(kept data member).1, (kept data member).2.1]
      exact stocked.bounded data member
    · rw [new]
      exact ⟨small, bounded⟩
  · have beside (data : Nat) (member : data ∈ blocks) :
        Disjoint (grown.memory.get state.memory.size).whole (grown.memory.get data).whole := by
      rw [new, kept.whole member]
      exact apart data (stocked.known data member)
    intro first one second two different
    rcases List.mem_append.mp one with one | one
    · rcases List.mem_append.mp two with two | two
      · rw [kept.whole one, kept.whole two]
        exact stocked.apart first one second two different
      · rw [List.mem_singleton.mp two]
        exact (beside first one).symm
    · rw [List.mem_singleton.mp one] at different ⊢
      rcases List.mem_append.mp two with two | two
      · exact beside second two
      · exact absurd (List.mem_singleton.mp two).symm different

/-- A request that fails takes nothing. -/
theorem refused (handed : HandedOut state blocks requests) (size : Nat) :
    HandedOut state blocks (requests ++ [⟨size, none⟩]) where
  inside := by
    intro request member start given
    rcases List.mem_append.mp member with old | new
    · exact handed.inside request old start given
    · rw [List.mem_singleton.mp new] at given
      cases given
  apart := by
    refine List.pairwise_append.mpr ⟨handed.apart, List.pairwise_singleton _ _, ?_⟩
    intro earlier _ later new
    rw [List.mem_singleton.mp new]
    exact Set.disjoint_empty _

/-- `memory_allocator_new` keeps the blocks in order. -/
theorem memoryAllocatorNew_spec (stocked : Stocked state entry blocks)
    (handed : HandedOut state blocks requests) {malloc : Malloc} (fresh : malloc.Fresh state.memory)
    (small : size < 2 ^ 63) {result : Option Nat} {after : ThreadMemory}
    (served : memoryAllocatorNew malloc state size = (result, after)) :
    Exists fun entry => Exists fun blocks =>
      Stocked after entry blocks ∧ HandedOut after blocks (requests ++ [⟨size, result⟩]) := by
  have bounded := stocked.bounded entry.tail stocked.tail_mem
  have inside := stocked.offset entry.tail stocked.tail_mem
  have sum : ((state.memory.get entry.tail).offset + size) % 2 ^ 64 =
      (state.memory.get entry.tail).offset + size :=
    Nat.mod_eq_of_lt (by omega)
  unfold memoryAllocatorNew at served
  simp only [stocked.held, sum, stocked.tail_next] at served
  by_cases room : (state.memory.get entry.tail).offset + size >
      (state.memory.get entry.tail).dataSize
  · rw [if_pos room] at served
    generalize larger : (if size > (state.memory.get entry.tail).dataSize then size
      else (state.memory.get entry.tail).dataSize) = least at served
    have enough : size ≤ least ∧ least < 2 ^ 63 := by
      rw [← larger]
      split
      · exact ⟨Nat.le_refl _, small⟩
      · exact ⟨Nat.not_lt.mp ‹_›, bounded.1⟩
    have double : 2 * least % 2 ^ 64 = 2 * least := Nat.mod_eq_of_lt (by omega)
    rw [double] at served
    cases created : memoryAllocatorCreateData malloc state.memory (2 * least) with
    | none =>
        rw [created] at served
        rcases Prod.mk.inj served with ⟨rfl, rfl⟩
        exact ⟨entry, blocks, stocked, refused handed size⟩
    | some block =>
        rw [created] at served
        rcases memoryAllocatorCreateData_eq_some created with ⟨area, given, rfl⟩
        rcases fresh _ area given with ⟨new, fits, apart⟩
        rcases stocked.grow handed new fits apart with ⟨grown, kept, last⟩
        have free := @takeFrom_spec _ _ _ _ size grown kept
        rw [last] at free
        have fit : 0 + size ≤ 2 * least := by omega
        rcases free fit with ⟨start, later, taken, there⟩
        rcases Prod.mk.inj (taken.symm.trans served) with ⟨rfl, rfl⟩
        exact ⟨_, _, there⟩
  · rw [if_neg room] at served
    rcases stocked.takeFrom_spec handed (Nat.not_lt.mp room) with ⟨start, later, taken, there⟩
    rcases Prod.mk.inj (taken.symm.trans served) with ⟨rfl, rfl⟩
    exact ⟨entry, blocks, there⟩

end Stocked

/-! ## Runs of requests -/

/-- The first block. -/
theorem stocked_start {malloc : Malloc} {size : Nat}
    (fresh : malloc.Fresh { size := 0, get := fun _ => default }) (made : Bool) :
    (memoryAllocatorAddEntry made malloc size).entry = none ∨
      Exists fun entry => Stocked (memoryAllocatorAddEntry made malloc size) entry [0] := by
  unfold memoryAllocatorAddEntry
  dsimp only
  split
  · cases created : memoryAllocatorCreateData malloc { size := 0, get := fun _ => default } size with
    | none => exact .inl rfl
    | some block =>
        rcases memoryAllocatorCreateData_eq_some created with ⟨area, given, rfl⟩
        rcases fresh size area given with ⟨small, fits, _⟩
        refine .inr ⟨⟨0, 0⟩, rfl, .cons 0 [] .nil, rfl, ?_, ?_, ?_, ?_⟩
        · intro data member
          rw [List.mem_singleton.mp member]
          exact Nat.zero_lt_one
        · intro data member
          rw [List.mem_singleton.mp member]
          exact Nat.zero_le _
        · intro data member
          rw [List.mem_singleton.mp member]
          exact ⟨small, fits⟩
        · intro first one second two different
          rw [List.mem_singleton.mp one, List.mem_singleton.mp two] at different
          exact absurd rfl different
  · exact .inl rfl

/-- What the thread can rely on after these requests. -/
structure WellServed (state : ThreadMemory) (blocks : List Nat) (requests : List Request) :
    Prop where
  chain : ∀ entry, state.entry = some entry →
    Chain (fun data => (state.memory.get data).nextEntry) (some entry.head) blocks
  last : ∀ entry, state.entry = some entry → blocks.getLast? = some entry.tail
  offset : ∀ data ∈ blocks, (state.memory.get data).offset ≤ (state.memory.get data).dataSize
  inside : ∀ request ∈ requests, ∀ start, request.result = some start →
    Exists fun data => data ∈ blocks ∧ (state.memory.get data).area ≤ start ∧
      start + request.size ≤ (state.memory.get data).area + (state.memory.get data).dataSize
  apart : requests.Pairwise fun earlier later => Disjoint earlier.range later.range
  refusal : ∀ malloc size later, memoryAllocatorNew malloc state size = (none, later) →
    later = state
  smaller : ∀ entry, state.entry = some entry → ∀ malloc size,
    (state.memory.get entry.tail).offset + size ≤ (state.memory.get entry.tail).dataSize →
      ((memoryAllocatorNew malloc state size).1).isSome

theorem refusal_keeps {malloc : Malloc} {state later : ThreadMemory} {size : Nat}
    (refused : memoryAllocatorNew malloc state size = (none, later)) : later = state := by
  have taken {memory : Arena AllocatorData} {entry : AllocatorEntry} {data : Nat} :
      takeFrom memory entry data size ≠ (none, later) :=
    fun same => nomatch (Prod.mk.inj same).1
  unfold memoryAllocatorNew at refused
  split at refused
  · exact (Prod.mk.inj refused).2.symm
  · dsimp only at refused
    split at refused
    · split at refused
      · split at refused
        · exact (Prod.mk.inj refused).2.symm
        · exact absurd refused taken
      · exact absurd refused taken
    · exact absurd refused taken

namespace Stocked

variable {state : ThreadMemory} {entry : AllocatorEntry} {blocks : List Nat}

theorem smaller (stocked : Stocked state entry blocks) (malloc : Malloc) {size : Nat}
    (room : (state.memory.get entry.tail).offset + size ≤
      (state.memory.get entry.tail).dataSize) :
    ((memoryAllocatorNew malloc state size).1).isSome := by
  have bounded := (stocked.bounded entry.tail stocked.tail_mem).1
  have sum : ((state.memory.get entry.tail).offset + size) % 2 ^ 64 =
      (state.memory.get entry.tail).offset + size :=
    Nat.mod_eq_of_lt (by omega)
  unfold memoryAllocatorNew
  simp only [stocked.held, sum]
  rw [if_neg (Nat.not_lt.mpr room)]
  rfl

theorem wellServed {requests : List Request} (stocked : Stocked state entry blocks)
    (handed : HandedOut state blocks requests) : WellServed state blocks requests where
  chain := fun other held => by
    rw [stocked.held] at held
    exact Option.some.inj held ▸ stocked.chain
  last := fun other held => by
    rw [stocked.held] at held
    exact Option.some.inj held ▸ stocked.last
  offset := stocked.offset
  inside := by
    intro request member start given
    rcases handed.inside request member start given with ⟨data, block, above, below⟩
    exact ⟨data, block, above,
      Nat.le_trans below (Nat.add_le_add_left (stocked.offset data block) _)⟩
  apart := handed.apart
  refusal := fun _ _ _ refused => refusal_keeps refused
  smaller := fun other held malloc size room => by
    rw [stocked.held] at held
    rw [← Option.some.inj held] at room
    exact stocked.smaller malloc room

end Stocked

/-- A thread without an entry gets nothing. -/
theorem wellServed_nothing {state : ThreadMemory} {requests : List Request}
    (absent : state.entry = none) (refused : ∀ request ∈ requests, request.result = none) :
    WellServed state [] requests where
  chain := fun entry held => by
    rw [absent] at held
    cases held
  last := fun entry held => by
    rw [absent] at held
    cases held
  offset := fun _ member => nomatch member
  inside := fun request member start given => by
    rw [refused request member] at given
    cases given
  apart := by
    refine List.pairwise_iff_forall_sublist.mpr fun {earlier later} both => ?_
    have none_ := refused earlier (both.subset List.mem_cons_self)
    unfold Request.range
    rw [none_]
    exact Set.empty_disjoint _
  refusal := fun _ _ _ refused => refusal_keeps refused
  smaller := fun entry held => by
    rw [absent] at held
    cases held

/-- Every run of requests leaves the blocks in order, and hands out every byte
of them once. -/
theorem memory_handed_out_once {made : Bool} {malloc : Malloc} {size : Nat}
    {requests : List Request} {state : ThreadMemory}
    (fresh : malloc.Fresh { size := 0, get := fun _ => default })
    (run : Run Requested (memoryAllocatorAddEntry made malloc size) requests state) :
    Exists fun blocks => WellServed state blocks requests := by
  let property := fun (requests : List Request) (state : ThreadMemory) =>
    (state.entry = none ∧ ∀ request ∈ requests, request.result = none) ∨
      Exists fun entry => Exists fun blocks =>
        Stocked state entry blocks ∧ HandedOut state blocks requests
  have start : property [] (memoryAllocatorAddEntry made malloc size) := by
    rcases @stocked_start malloc size fresh made with absent | ⟨entry, stocked⟩
    · exact .inl ⟨absent, fun _ member => nomatch member⟩
    · exact .inr ⟨entry, [0], stocked, ⟨fun _ member => (nomatch member), List.Pairwise.nil⟩⟩
  have holds : property requests state := by
    refine run.preserves property ?_ start
    intro requests before request after held ⟨small, malloc, fresh, served⟩
    rcases held with ⟨absent, refused⟩ | ⟨entry, blocks, stocked, handed⟩
    · unfold memoryAllocatorNew at served
      rw [absent] at served
      rcases Prod.mk.inj served with ⟨result, same⟩
      refine .inl ⟨same ▸ absent, fun other member => ?_⟩
      rcases List.mem_append.mp member with old | new
      · exact refused other old
      · rw [List.mem_singleton.mp new]
        exact result.symm
    · exact .inr (stocked.memoryAllocatorNew_spec handed fresh small served)
  rcases holds with ⟨absent, refused⟩ | ⟨entry, blocks, stocked, handed⟩
  · exact ⟨[], wellServed_nothing absent refused⟩
  · exact ⟨blocks, stocked.wellServed handed⟩

/-- Two requests that fill a block of 16 bytes, one that fails between them, and
one for which the chain grows. -/
theorem memory_handed_out_once_grown :
    Exists fun state => Exists fun blocks =>
      WellServed state blocks
        [⟨8, some 1000⟩, ⟨16, none⟩, ⟨8, some 1008⟩, ⟨16, some 2000⟩] := by
  let first : Malloc := ⟨true, fun size => if size = 16 then some 1000 else none⟩
  let second : Malloc := ⟨true, fun size => if size = 32 then some 2000 else none⟩
  let full : Malloc := ⟨false, fun _ => none⟩
  have fresh : first.Fresh { size := 0, get := fun _ => default } := by
    intro size area given
    rcases Option.ite_none_right_eq_some.mp given with ⟨rfl, same⟩
    rw [← Option.some.inj same]
    exact ⟨by decide, by decide, fun _ old => (nomatch old)⟩
  have none_ (memory : Arena AllocatorData) : full.Fresh memory := fun _ _ given => nomatch given
  have run : Exists fun state => Run Requested (memoryAllocatorAddEntry true first 16)
      [⟨8, some 1000⟩, ⟨16, none⟩, ⟨8, some 1008⟩, ⟨16, some 2000⟩] state := by
    refine ⟨_, .tail (.tail (.tail (.tail .refl ⟨by decide, full, none_ _, rfl⟩)
      ⟨by decide, full, none_ _, rfl⟩) ⟨by decide, full, none_ _, rfl⟩)
      ⟨by decide, second, ?_, rfl⟩⟩
    intro size area given
    rcases Option.ite_none_right_eq_some.mp given with ⟨rfl, same⟩
    rw [← Option.some.inj same]
    refine ⟨by decide, by decide, fun other old => ?_⟩
    rw [Nat.lt_one_iff.mp old]
    change Disjoint (Set.Ico 2000 (2000 + 32)) (Set.Ico 1000 (1000 + 16))
    rw [Set.disjoint_left]
    intro byte new first
    exact absurd (Nat.lt_of_le_of_lt new.1 first.2) (by decide)
  rcases run with ⟨state, run⟩
  exact ⟨state, memory_handed_out_once fresh run⟩

end TurboXSL
