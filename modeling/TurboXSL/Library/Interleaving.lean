import Mathlib.Algebra.Order.BigOperators.Group.Finset

namespace Library

/-!
# Interleavings of threads

Threads that share a state take turns; one step of one of them is labelled with
what it did.  A run lists the labels in the order in which the steps were taken.
Nothing is said about who steps next, so that what is proved about runs holds
for every schedule.
-/

universe u v

variable {State : Type u} {Label : Type v}

/-- The steps taken from a state on, in order, and the state they lead to. -/
inductive Run (step : State → Label → State → Prop) (first : State) :
    List Label → State → Prop where
  | refl : Run step first [] first
  | tail {labels : List Label} {before after : State} {label : Label}
      (earlier : Run step first labels before) (taken : step before label after) :
      Run step first (labels ++ [label]) after

namespace Run

variable {step : State → Label → State → Prop} {first before after : State} {labels : List Label}

/-- What holds at the start, and is kept by every step together with the
history so far, holds at the end of every run. -/
theorem preserves (property : List Label → State → Prop)
    (keep : ∀ labels before label after, property labels before → step before label after →
      property (labels ++ [label]) after)
    (run : Run step first labels after) (start : property [] first) : property labels after := by
  induction run with
  | refl => exact start
  | tail _ taken inductionHypothesis => exact keep _ _ _ _ inductionHypothesis taken

/-- The same for a property that does not look at the history. -/
theorem invariant (property : State → Prop)
    (keep : ∀ before label after, property before → step before label after → property after)
    (run : Run step first labels after) (start : property first) : property after :=
  run.preserves (fun _ => property) (fun _ => keep) start

theorem single {label : Label} (taken : step before label after) : Run step before [label] after :=
  .tail .refl taken

theorem append {more : List Label} (earlier : Run step first labels before)
    (later : Run step before more after) : Run step first (labels ++ more) after := by
  induction later with
  | refl => exact (List.append_nil labels).symm ▸ earlier
  | tail _ taken inductionHypothesis =>
      rw [← List.append_assoc]
      exact .tail inductionHypothesis taken

end Run

/-- One thread moves on, the others stay where they are. -/
def moved {Thread : Type u} {Place : Type v} [DecidableEq Thread] (places : Thread → Place)
    (thread : Thread) (place : Place) : Thread → Place :=
  fun other => if other = thread then place else places other

section Moved

variable {Thread : Type u} {Place : Type v} [DecidableEq Thread] {places : Thread → Place}
  {thread other : Thread} {place : Place}

@[simp] theorem moved_same : moved places thread place thread = place := if_pos rfl

theorem moved_of_ne (different : other ≠ thread) : moved places thread place other = places other :=
  if_neg different

theorem moved_moved (places : Thread → Place) (thread : Thread) (first second : Place) :
    moved (moved places thread first) thread second = moved places thread second := by
  funext other
  by_cases same : other = thread
  · rw [same, moved_same, moved_same]
  · rw [moved_of_ne same, moved_of_ne same, moved_of_ne same]

theorem moved_self (here : places thread = place) : moved places thread place = places := by
  funext other
  by_cases same : other = thread
  · rw [same, moved_same, here]
  · exact moved_of_ne same

end Moved

/-! ## Counting threads -/

/-- How many threads are where the test holds. -/
def headcount {Thread : Type u} {Place : Type v} [Fintype Thread] (test : Place → Bool)
    (places : Thread → Place) : Nat :=
  ∑ thread, (test (places thread)).toNat

section Headcount

variable {Thread : Type u} {Place : Type v} [Fintype Thread] [DecidableEq Thread]
  (test : Place → Bool) (places : Thread → Place)

/-- Only the thread that moved makes a difference. -/
theorem headcount_moved (thread : Thread) (place : Place) :
    headcount test (moved places thread place) + (test (places thread)).toNat =
      headcount test places + (test place).toNat := by
  have others : ∑ other ∈ Finset.univ.erase thread,
        (test (moved places thread place other)).toNat =
      ∑ other ∈ Finset.univ.erase thread, (test (places other)).toNat := by
    apply Finset.sum_congr rfl
    intro other member
    rw [moved_of_ne (Finset.ne_of_mem_erase member)]
  have left := Finset.add_sum_erase Finset.univ
    (fun other => (test (moved places thread place other)).toNat) (Finset.mem_univ thread)
  have right := Finset.add_sum_erase Finset.univ
    (fun other => (test (places other)).toNat) (Finset.mem_univ thread)
  rw [others, moved_same] at left
  unfold headcount
  omega

omit [DecidableEq Thread] in
theorem headcount_le :
    headcount test places ≤ Fintype.card Thread := by
  calc headcount test places ≤ ∑ _thread : Thread, 1 :=
        Finset.sum_le_sum fun thread _ => Bool.toNat_le (test (places thread))
    _ = Fintype.card Thread := (Finset.card_eq_sum_ones Finset.univ).symm

omit [DecidableEq Thread] in
/-- A thread where the test holds is counted. -/
theorem headcount_pos (thread : Thread) (here : test (places thread) = true) :
    0 < headcount test places := by
  have counted : (test (places thread)).toNat ≤ headcount test places :=
    Finset.single_le_sum (f := fun other => (test (places other)).toNat)
      (fun _ _ => Nat.zero_le _) (Finset.mem_univ thread)
  rw [here] at counted
  exact counted

omit [DecidableEq Thread] in
theorem headcount_congr {test : Place → Bool} {places : Thread → Place} {other : Thread → Place}
    (same : ∀ thread, test (other thread) = test (places thread)) :
    headcount test other = headcount test places :=
  Finset.sum_congr rfl fun thread _ => by rw [same thread]

end Headcount

end Library
