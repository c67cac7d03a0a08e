import Mathlib.Data.List.Nodup

namespace Library

/-!
# Growing memories and linked chains

An `Arena` is a memory of cells numbered in the order of their allocation.
Programs that build linked structures write only the cells they allocated
themselves; `Extends` says so of the memories before and after, and composes
along a run.  A `Chain` is the list of cells met by following one link field
from a pointer to its null end.
-/

universe u

/-- Cells `0 .. size - 1` are allocated; `get` reads any of them. -/
structure Arena (Cell : Type u) where
  size : Nat
  get : Nat → Cell

namespace Arena

variable {Cell : Type u}

/-- Overwrite one cell. -/
def write (memory : Arena Cell) (index : Nat) (cell : Cell) : Arena Cell where
  size := memory.size
  get := fun other => if other = index then cell else memory.get other

/-- Change one cell in place. -/
def modify (memory : Arena Cell) (index : Nat) (change : Cell → Cell) : Arena Cell :=
  memory.write index (change (memory.get index))

/-- Allocate one more cell; its index is the old `size`. -/
def alloc (memory : Arena Cell) (cell : Cell) : Arena Cell where
  size := memory.size + 1
  get := fun other => if other = memory.size then cell else memory.get other

@[simp] theorem write_size (memory : Arena Cell) (index : Nat) (cell : Cell) :
    (memory.write index cell).size = memory.size := rfl

@[simp] theorem modify_size (memory : Arena Cell) (index : Nat) (change : Cell → Cell) :
    (memory.modify index change).size = memory.size := rfl

@[simp] theorem alloc_size (memory : Arena Cell) (cell : Cell) :
    (memory.alloc cell).size = memory.size + 1 := rfl

theorem write_get (memory : Arena Cell) (index other : Nat) (cell : Cell) :
    (memory.write index cell).get other = if other = index then cell else memory.get other := rfl

theorem modify_get (memory : Arena Cell) (index other : Nat) (change : Cell → Cell) :
    (memory.modify index change).get other =
      if other = index then change (memory.get index) else memory.get other := rfl

@[simp] theorem modify_get_same (memory : Arena Cell) (index : Nat) (change : Cell → Cell) :
    (memory.modify index change).get index = change (memory.get index) := if_pos rfl

theorem modify_get_of_ne (memory : Arena Cell) {index other : Nat} (change : Cell → Cell)
    (different : other ≠ index) : (memory.modify index change).get other = memory.get other :=
  if_neg different

@[simp] theorem alloc_get_same (memory : Arena Cell) (cell : Cell) :
    (memory.alloc cell).get memory.size = cell := if_pos rfl

theorem alloc_get_of_ne (memory : Arena Cell) (cell : Cell) {other : Nat}
    (different : other ≠ memory.size) : (memory.alloc cell).get other = memory.get other :=
  if_neg different

theorem alloc_get_of_lt (memory : Arena Cell) (cell : Cell) {other : Nat}
    (old : other < memory.size) : (memory.alloc cell).get other = memory.get other :=
  alloc_get_of_ne memory cell (Nat.ne_of_lt old)

/-- A change that leaves the cell as it is. -/
theorem modify_self (memory : Arena Cell) {index : Nat} {change : Cell → Cell}
    (same : change (memory.get index) = memory.get index) : memory.modify index change = memory := by
  have cells : (memory.modify index change).get = memory.get := by
    funext other
    by_cases here : other = index
    · rw [here, memory.modify_get_same, same]
    · rw [memory.modify_get_of_ne _ here]
  exact congrArg (Arena.mk memory.size) cells

/-- A new cell may be changed before it is allocated. -/
theorem modify_alloc (memory : Arena Cell) (cell : Cell) (change : Cell → Cell) :
    (memory.alloc cell).modify memory.size change = memory.alloc (change cell) := by
  have same : ((memory.alloc cell).modify memory.size change).get =
      (memory.alloc (change cell)).get := by
    funext other
    by_cases new : other = memory.size
    · subst new
      rw [modify_get_same, alloc_get_same, alloc_get_same]
    · rw [modify_get_of_ne _ _ new, alloc_get_of_ne _ _ new, alloc_get_of_ne _ _ new]
  exact congrArg (Arena.mk (memory.size + 1)) same

/-- Every cell allocated in `before` is still there and unchanged. -/
structure Extends (before after : Arena Cell) : Prop where
  grows : before.size ≤ after.size
  same : ∀ index < before.size, after.get index = before.get index

namespace Extends

theorem refl (memory : Arena Cell) : Extends memory memory :=
  ⟨Nat.le_refl _, fun _ _ => rfl⟩

theorem trans {first second third : Arena Cell} (left : Extends first second)
    (right : Extends second third) : Extends first third where
  grows := Nat.le_trans left.grows right.grows
  same := fun index old =>
    (right.same index (Nat.lt_of_lt_of_le old left.grows)).trans (left.same index old)

theorem alloc {before after : Arena Cell} (extended : Extends before after) (cell : Cell) :
    Extends before (after.alloc cell) where
  grows := Nat.le_succ_of_le extended.grows
  same := fun index old =>
    (alloc_get_of_lt after cell (Nat.lt_of_lt_of_le old extended.grows)).trans
      (extended.same index old)

/-- A program may go on changing the cells it allocated itself. -/
theorem modify {before after : Arena Cell} (extended : Extends before after) {index : Nat}
    (fresh : before.size ≤ index) (change : Cell → Cell) :
    Extends before (after.modify index change) where
  grows := extended.grows
  same := fun other old =>
    (modify_get_of_ne after change (Nat.ne_of_lt (Nat.lt_of_lt_of_le old fresh))).trans
      (extended.same other old)

end Extends

end Arena

/-- The cells met from a pointer by following `next` to its null end. -/
inductive Chain (next : Nat → Option Nat) : Option Nat → List Nat → Prop where
  | nil : Chain next none []
  | cons (index : Nat) (rest : List Nat) (tail : Chain next (next index) rest) :
      Chain next (some index) (index :: rest)

namespace Chain

variable {next : Nat → Option Nat}

theorem unique {start : Option Nat} {first second : List Nat}
    (left : Chain next start first) (right : Chain next start second) : first = second := by
  induction left generalizing second with
  | nil => cases right; rfl
  | cons index rest _ inductionHypothesis =>
      cases right with
      | cons _ _ tail => rw [inductionHypothesis tail]

theorem start_eq {start : Option Nat} {cells : List Nat} (chain : Chain next start cells) :
    start = cells.head? := by
  cases chain <;> rfl

/-- The part of a chain that begins at one of its cells. -/
theorem suffix_of_mem {start : Option Nat} {cells : List Nat} (chain : Chain next start cells)
    {index : Nat} (member : index ∈ cells) :
    Exists fun rest => Chain next (some index) (index :: rest) ∧ (index :: rest) <:+ cells := by
  induction chain with
  | nil => cases member
  | cons head rest tail inductionHypothesis =>
      rcases List.mem_cons.mp member with same | later
      · subst same
        exact ⟨rest, .cons index rest tail, List.suffix_refl _⟩
      · rcases inductionHypothesis later with ⟨found, part, suffix⟩
        exact ⟨found, part, suffix.trans (List.suffix_cons head rest)⟩

/-- A chain that ends cannot meet a cell twice. -/
theorem nodup {start : Option Nat} {cells : List Nat} (chain : Chain next start cells) :
    cells.Nodup := by
  induction chain with
  | nil => exact List.nodup_nil
  | cons head rest tail inductionHypothesis =>
      refine List.nodup_cons.mpr ⟨fun member => ?_, inductionHypothesis⟩
      rcases tail.suffix_of_mem member with ⟨found, part, suffix⟩
      have same := part.unique (.cons head rest tail)
      have shorter := suffix.length_le
      rw [same, List.length_cons] at shorter
      exact Nat.not_succ_le_self _ shorter

/-- A chain only reads the links of its own cells. -/
theorem congr {other : Nat → Option Nat} {start : Option Nat} {cells : List Nat}
    (chain : Chain next start cells) (agree : ∀ index ∈ cells, other index = next index) :
    Chain other start cells := by
  induction chain with
  | nil => exact .nil
  | cons head rest _ inductionHypothesis =>
      refine .cons head rest ?_
      rw [agree head List.mem_cons_self]
      exact inductionHypothesis fun index member => agree index (List.mem_cons_of_mem head member)

/-- Nothing comes behind the last cell of a chain. -/
theorem ends {start : Option Nat} {cells : List Nat} {last : Nat}
    (chain : Chain next start cells) (atEnd : cells.getLast? = some last) : next last = none := by
  induction chain with
  | nil => cases atEnd
  | cons first rest tail inductionHypothesis =>
      cases rest with
      | nil =>
          have same : first = last := Option.some.inj atEnd
          exact same ▸ tail.start_eq
      | cons second rest =>
          rw [List.getLast?_cons_cons] at atEnd
          exact inductionHypothesis atEnd

/-- A cell put behind the last one of a chain. -/
theorem snoc {other : Nat → Option Nat} {start : Option Nat} {cells : List Nat} {last new : Nat}
    (chain : Chain next start cells) (ends : cells.getLast? = some last)
    (agree : ∀ index ∈ cells, index ≠ last → other index = next index)
    (link : other last = some new) (stop : other new = none) :
    Chain other start (cells ++ [new]) := by
  induction chain with
  | nil => cases ends
  | cons head rest tail inductionHypothesis =>
      have distinct := (Chain.cons head rest tail : Chain next _ _).nodup
      refine .cons head (rest ++ [new]) ?_
      cases rest with
      | nil =>
          have same : head = last := Option.some.inj ends
          rw [same, link]
          exact .cons new [] (stop ▸ .nil)
      | cons second rest =>
          have later : (second :: rest).getLast? = some last := ends
          have different : head ≠ last := by
            rintro rfl
            exact (List.nodup_cons.mp distinct).1 (List.mem_of_getLast? later)
          rw [agree head List.mem_cons_self different]
          exact inductionHypothesis later fun index member =>
            agree index (List.mem_cons_of_mem head member)

end Chain

/-- Follow `next` through at most `fuel` cells; `none` when the end is not met. -/
def follow (next : Nat → Option Nat) : Nat → Option Nat → Option (List Nat)
  | _, none => some []
  | 0, some _ => none
  | fuel + 1, some index => (follow next fuel (next index)).map (index :: ·)

theorem follow_eq_some_iff {next : Nat → Option Nat} {fuel : Nat} {start : Option Nat}
    {cells : List Nat} :
    follow next fuel start = some cells ↔ Chain next start cells ∧ cells.length ≤ fuel := by
  induction fuel generalizing start cells with
  | zero =>
      cases start with
      | none =>
          constructor
          · rintro ⟨rfl⟩
            exact ⟨.nil, Nat.le_refl 0⟩
          · rintro ⟨chain, -⟩
            cases chain
            rfl
      | some index =>
          constructor
          · rintro ⟨⟩
          · rintro ⟨chain, short⟩
            cases chain
            cases short
  | succ fuel inductionHypothesis =>
      cases start with
      | none =>
          constructor
          · rintro ⟨rfl⟩
            exact ⟨.nil, Nat.zero_le _⟩
          · rintro ⟨chain, -⟩
            cases chain
            rfl
      | some index =>
          simp only [follow, Option.map_eq_some_iff]
          constructor
          · rintro ⟨rest, found, rfl⟩
            have tail := inductionHypothesis.mp found
            exact ⟨.cons index rest tail.1, Nat.succ_le_succ tail.2⟩
          · rintro ⟨chain, short⟩
            cases chain with
            | cons _ rest tail =>
                exact ⟨rest, inductionHypothesis.mpr ⟨tail, Nat.le_of_succ_le_succ short⟩, rfl⟩

end Library
