import Mathlib.Algebra.Order.Ring.Nat
import Mathlib.Data.List.Basic

namespace Library

/-!
# Messages in blocks

A function that takes in a message block by block: `compress` puts one block
of `size` symbols into a value, and a message of whole blocks is put in from
the left.  A message may also come in pieces of any length, where what does not
fill a block waits for more; how many full blocks wait does not matter.
-/

variable {Symbol Value : Type} (compress : Value → List Symbol → Value) (size : Nat)

/-- The first `count` blocks of a message are put in. -/
def absorb : Nat → Value → List Symbol → Value
  | 0, value, _ => value
  | count + 1, value, message =>
      absorb count (compress value (message.take size)) (message.drop size)

theorem absorb_add (first second : Nat) (value : Value) (message : List Symbol) :
    absorb compress size (first + second) value message =
      absorb compress size second (absorb compress size first value message)
        (message.drop (first * size)) := by
  induction first generalizing value message with
  | zero =>
      rw [Nat.zero_add, Nat.zero_mul, List.drop_zero]
      rfl
  | succ first inductionHypothesis =>
      rw [Nat.succ_add, absorb, absorb, inductionHypothesis, List.drop_drop, Nat.succ_mul,
        Nat.add_comm size]

/-- What comes behind the blocks is not looked at. -/
theorem absorb_append {count : Nat} {front : List Symbol} (enough : count * size ≤ front.length)
    (value : Value) (behind : List Symbol) :
    absorb compress size count value (front ++ behind) = absorb compress size count value front := by
  induction count generalizing value front with
  | zero => rfl
  | succ count inductionHypothesis =>
      rw [Nat.succ_mul] at enough
      have whole : size ≤ front.length := Nat.le_trans (Nat.le_add_left _ _) enough
      rw [absorb, absorb, List.take_append_of_le_length whole, List.drop_append_of_le_length whole]
      apply inductionHypothesis
      rw [List.length_drop]
      exact Nat.le_sub_of_add_le enough

theorem absorb_take {count : Nat} {message : List Symbol} (enough : count * size ≤ message.length)
    (value : Value) :
    absorb compress size count value (message.take (count * size)) =
      absorb compress size count value message := by
  have short : count * size ≤ (message.take (count * size)).length := by
    rw [List.length_take]
    exact Nat.le_min.mpr ⟨Nat.le_refl _, enough⟩
  rw [← absorb_append compress size short value (message.drop (count * size)),
    List.take_append_drop]

/-- Some blocks of the message are put in, and the rest of it waits. -/
def Absorbed (start : Value) (message : List Symbol) (value : Value) (waiting : List Symbol) :
    Prop :=
  Exists fun count => count * size ≤ message.length ∧
    value = absorb compress size count start message ∧ waiting = message.drop (count * size)

namespace Absorbed

variable {compress size} {start value : Value} {message waiting : List Symbol}

theorem nothing (start : Value) : Absorbed compress size start [] start [] :=
  ⟨0, Nat.le_of_eq (Nat.zero_mul size), rfl, List.drop_nil.symm⟩

variable (absorbed : Absorbed compress size start message value waiting)

include absorbed

/-- More of the message comes in. -/
theorem append (more : List Symbol) :
    Absorbed compress size start (message ++ more) value (waiting ++ more) := by
  rcases absorbed with ⟨count, enough, rfl, rfl⟩
  refine ⟨count, ?_, ?_, ?_⟩
  · rw [List.length_append]
    exact Nat.le_add_right_of_le enough
  · exact (absorb_append compress size enough start more).symm
  · exact (List.drop_append_of_le_length enough).symm

/-- Blocks that wait are put in. -/
theorem step {count : Nat} (enough : count * size ≤ waiting.length) :
    Absorbed compress size start message (absorb compress size count value waiting)
      (waiting.drop (count * size)) := by
  rcases absorbed with ⟨before, within, rfl, rfl⟩
  rw [List.length_drop] at enough
  refine ⟨before + count, ?_, ?_, ?_⟩
  · rw [Nat.add_mul]
    omega
  · exact (absorb_add compress size before count start message).symm
  · rw [List.drop_drop, Nat.add_mul]

/-- Where whole blocks wait at the end, all blocks of the message are put in. -/
theorem finish {count : Nat} (positive : 0 < size) (whole : waiting.length = count * size) :
    absorb compress size count value waiting =
      absorb compress size (message.length / size) start message := by
  rcases absorbed with ⟨before, within, rfl, rfl⟩
  rw [List.length_drop] at whole
  have total : message.length = (before + count) * size := by
    rw [Nat.add_mul]
    omega
  rw [total, Nat.mul_div_cancel _ positive, absorb_add]

end Absorbed

end Library
