import Mathlib.Data.Nat.Log
import Mathlib.Tactic.Ring

namespace Library

/-!
# Decimal digits

A number has as many digits as are asked for, the last ones of it, with the
most significant first.  Digits of two numbers are joined where one number is
shifted before the other, and one more in the last digit carries over to the
digits in front of it when these were all nines.
-/

namespace Decimal

/-- The last digits of a number. -/
def digits : Nat → Nat → List Nat
  | 0, _ => []
  | count + 1, n => digits count (n / 10) ++ [n % 10]

@[simp] theorem length_digits (count n : Nat) : (digits count n).length = count := by
  induction count generalizing n with
  | zero => rfl
  | succ count inductionHypothesis =>
      rw [digits, List.length_append, inductionHypothesis]
      rfl

theorem digits_lt {count n d : Nat} (member : d ∈ digits count n) : d < 10 := by
  induction count generalizing n with
  | zero => cases member
  | succ count inductionHypothesis =>
      rcases List.mem_append.mp member with front | last
      · exact inductionHypothesis front
      · rw [List.mem_singleton.mp last]
        exact Nat.mod_lt n (by decide)

theorem digits_append (first count n : Nat) :
    digits (first + count) n = digits first (n / 10 ^ count) ++ digits count n := by
  induction count generalizing n with
  | zero => rw [Nat.add_zero, Nat.pow_zero, Nat.div_one, digits, List.append_nil]
  | succ count inductionHypothesis =>
      rw [← Nat.add_assoc, digits, inductionHypothesis, digits, Nat.div_div_eq_div_mul,
        ← Nat.pow_succ', List.append_assoc]

/-- Digits in front of the last ones do not count. -/
theorem digits_add_mul (count n k : Nat) : digits count (n + 10 ^ count * k) = digits count n := by
  induction count generalizing n with
  | zero => rfl
  | succ count inductionHypothesis =>
      have shifted : n + 10 ^ (count + 1) * k = n + 10 * (10 ^ count * k) := by ring
      rw [digits, digits, shifted, Nat.add_mul_div_left _ _ (by decide), Nat.add_mul_mod_self_left,
        inductionHypothesis]

theorem digits_mod (count n : Nat) : digits count (n % 10 ^ count) = digits count n := by
  have split := Nat.mod_add_div n (10 ^ count)
  rw [← digits_add_mul count (n % 10 ^ count) (n / 10 ^ count), split]

/-- Digits determine what they are the last digits of. -/
theorem digits_inj {count m n : Nat} :
    digits count m = digits count n ↔ m % 10 ^ count = n % 10 ^ count := by
  constructor
  · intro same
    induction count generalizing m n with
    | zero => rw [Nat.pow_zero, Nat.mod_one, Nat.mod_one]
    | succ count inductionHypothesis =>
        rw [digits, digits] at same
        rcases List.append_inj same (by rw [length_digits, length_digits]) with ⟨front, last⟩
        have fronts := inductionHypothesis front
        have lasts : m % 10 = n % 10 := (List.cons.inj last).1
        rw [Nat.pow_succ', Nat.mod_mul, Nat.mod_mul, fronts, lasts]
  · intro same
    rw [← digits_mod, same, digits_mod]

theorem digits_zero (count : Nat) : digits count 0 = List.replicate count 0 := by
  induction count with
  | zero => rfl
  | succ count inductionHypothesis =>
      rw [digits, Nat.zero_div, inductionHypothesis, List.replicate_succ']

end Decimal

end Library
