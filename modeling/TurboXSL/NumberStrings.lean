import Mathlib.Data.FinEnum
import Mathlib.Data.List.DropRight
import Mathlib.Data.List.Induction
import TurboXSL.NumberBuffers

namespace TurboXSL

open Library Output

/-!
# The number string

The rounding adds one to the digits as they stand in the buffer.  The digits of
a number become those of the next one, and where all were nines a new digit is
put in front.
-/

namespace NumberFormat

/-! ## The carry -/

/-- The carry through characters that are read from the last one on. -/
def carryBack (separator : UInt8) : Bytes → Bytes
  | [] => []
  | c :: rest =>
      if c = separator then c :: carryBack separator rest
      else if c = '9'.toUInt8 then '0'.toUInt8 :: carryBack separator rest
      else (c + 1) :: rest

/-- One more in the last place of the text. -/
def carry (separator : UInt8) (text : Bytes) : Bytes := (carryBack separator text.reverse).reverse

theorem carry_concat (separator c : UInt8) (text : Bytes) : carry separator (text ++ [c]) =
    if c = separator then carry separator text ++ [c]
    else if c = '9'.toUInt8 then carry separator text ++ ['0'.toUInt8]
    else text ++ [c + 1] := by
  rw [carry, List.reverse_append, List.reverse_singleton, List.singleton_append, carryBack]
  split
  next => exact List.reverse_cons
  next =>
    split
    next => exact List.reverse_cons
    next => rw [List.reverse_cons, List.reverse_reverse]

@[simp] theorem length_carry (separator : UInt8) (text : Bytes) :
    (carry separator text).length = text.length := by
  induction text using List.reverseRecOn with
  | nil => rfl
  | append_singleton text c inductionHypothesis =>
      rw [carry_concat]
      split
      next => rw [List.length_append, List.length_append, inductionHypothesis]
      next =>
        split
        next => rw [List.length_append, List.length_append, inductionHypothesis]; rfl
        next => rw [List.length_append, List.length_append]; rfl

/-- The loop carries through what is in front of the index. -/
theorem carryLoop_carry (separator : UInt8) (text rest : Bytes) : Exists fun overflow =>
    carryLoop separator text.length (text ++ rest) = some (carry separator text ++ rest, overflow) := by
  induction text using List.reverseRecOn generalizing rest with
  | nil => exact ⟨false, rfl⟩
  | append_singleton text c inductionHypothesis =>
      have here : (text ++ [c] ++ rest)[text.length]? = some c := by
        rw [List.append_assoc, List.getElem?_append_right (Nat.le_refl _), Nat.sub_self]
        rfl
      have stored : ∀ d : UInt8, (text ++ [c] ++ rest).set text.length d = text ++ [d] ++ rest := by
        intro d
        rw [List.append_assoc, List.set_append_right _ _ (Nat.le_refl _), Nat.sub_self, List.append_assoc]
        rfl
      rw [List.length_append, List.length_singleton, carryLoop, here, carry_concat]
      simp only [Option.bind_eq_bind, Option.bind_some, stored]
      split
      next =>
        rcases inductionHypothesis (c :: rest) with ⟨overflow, run⟩
        refine ⟨overflow, ?_⟩
        rw [List.append_assoc, List.append_assoc, List.singleton_append, run]
      next =>
        split
        next =>
          rcases inductionHypothesis ('0'.toUInt8 :: rest) with ⟨overflow, run⟩
          refine ⟨overflow || decide (text.length = 0), ?_⟩
          rw [List.append_assoc, List.append_assoc, List.singleton_append, run]
          rfl
        next => exact ⟨false, rfl⟩

/-- The carry goes on where the text behind is all nines. -/
theorem carry_append (separator : UInt8) (front text : Bytes) : carry separator (front ++ text) =
    (if ∀ c ∈ text, c = '9'.toUInt8 ∨ c = separator then carry separator front else front) ++
      carry separator text := by
  induction text using List.reverseRecOn with
  | nil => rw [List.append_nil, if_pos (List.forall_mem_nil _)]; exact (List.append_nil _).symm
  | append_singleton text c inductionHypothesis =>
      have members : (∀ d ∈ text ++ [c], d = '9'.toUInt8 ∨ d = separator) ↔
          (∀ d ∈ text, d = '9'.toUInt8 ∨ d = separator) ∧ (c = '9'.toUInt8 ∨ c = separator) := by
        rw [List.forall_mem_append, List.forall_mem_singleton]
      rw [← List.append_assoc, carry_concat, carry_concat, inductionHypothesis]
      by_cases skipped : c = separator
      · have onward := members.trans (and_iff_left (.inr skipped))
        rw [if_pos skipped, if_pos skipped, List.append_assoc]
        simp only [onward]
      · by_cases nine : c = '9'.toUInt8
        · have onward := members.trans (and_iff_left (.inl nine))
          rw [if_neg skipped, if_pos nine, if_neg skipped, if_pos nine, List.append_assoc]
          simp only [onward]
        · have stays : ¬ ∀ d ∈ text ++ [c], d = '9'.toUInt8 ∨ d = separator := fun all =>
            (members.mp all).2.elim nine skipped
          rw [if_neg skipped, if_neg nine, if_neg stays, if_neg skipped, if_neg nine, List.append_assoc]

/-! ## Digits -/

theorem digitChar_facts {d : Nat} (small : d < 10) :
    digitChar d ≠ '.'.toUInt8 ∧ digitChar d ≠ ','.toUInt8 ∧ digitChar d ≠ '-'.toUInt8 ∧
      digitChar d ≠ 0 ∧ (digitChar d = '9'.toUInt8 ↔ d = 9) := by
  revert d
  decide

theorem digitChar_succ {d : Nat} (small : d < 9) : digitChar (d : Nat) + 1 = digitChar (d + 1 : Nat) := by
  revert d
  decide

/-- The digits of a number become those of the next one. -/
theorem carry_digitChars (count number : Nat) :
    carry '.'.toUInt8 (digitChars count number) = digitChars count (number + 1) := by
  induction count generalizing number with
  | zero => rfl
  | succ count inductionHypothesis =>
      have small : number % 10 < 10 := Nat.mod_lt number (by decide)
      rcases digitChar_facts small with ⟨digit, -, -, -, nine⟩
      rw [digitChars_succ, digitChars_succ, carry_concat, if_neg digit]
      by_cases last : number % 10 = 9
      · have tens : (number + 1) / 10 = number / 10 + 1 := by omega
        have units : (number + 1) % 10 = 0 := by omega
        rw [if_pos (nine.mpr last), inductionHypothesis, tens, units]
        rfl
      · have tens : (number + 1) / 10 = number / 10 := by omega
        have units : (number + 1) % 10 = number % 10 + 1 := by omega
        rw [if_neg fun char => last (nine.mp char), digitChar_succ (by omega), tens, units]

/-- The digits are all nines in front of a power of ten. -/
theorem nines_iff (count number : Nat) :
    (∀ c ∈ digitChars count number, c = '9'.toUInt8 ∨ c = '.'.toUInt8) ↔
      number % 10 ^ count + 1 = 10 ^ count := by
  induction count generalizing number with
  | zero =>
      rw [Nat.pow_zero, Nat.mod_one]
      exact iff_of_true (List.forall_mem_nil _) rfl
  | succ count inductionHypothesis =>
      have small : number % 10 < 10 := Nat.mod_lt number (by decide)
      rcases digitChar_facts small with ⟨digit, -, -, -, nine⟩
      have below : number / 10 % 10 ^ count < 10 ^ count := Nat.mod_lt _ (Nat.pow_pos (by decide))
      rw [digitChars_succ, List.forall_mem_append, List.forall_mem_singleton, inductionHypothesis,
        or_iff_left digit, nine, Nat.pow_succ', Nat.mod_mul]
      omega

/-! ## The rounding -/

/-- The last character is dropped, and a large one counts for the others. -/
theorem roundBuffer_concat {separator c : UInt8} (digit : c ≠ separator) (precision : Nat)
    (text : Bytes) (last : UInt8) : roundBuffer separator precision (c :: text ++ [last]) =
      if '5'.toUInt8 ≤ last then
        if ∀ d ∈ c :: text, d = '9'.toUInt8 ∨ d = separator then
          if (c :: text).length + 1 < 32 then
            some ('1'.toUInt8 :: carry separator (c :: text), precision + 1)
          else none
        else some (carry separator (c :: text) ++ [0], precision)
      else some (c :: text ++ [0], precision) := by
  have position : (c :: text ++ [last]).length = (c :: text).length + 1 := List.length_append
  have found : (c :: text ++ [last])[(c :: text).length]? = some last := by
    rw [List.getElem?_append_right (Nat.le_refl _), Nat.sub_self]
    rfl
  have dropped : (c :: text ++ [last]).set (c :: text).length 0 = c :: text ++ [0] := by
    rw [List.set_append_right _ _ (Nat.le_refl _), Nat.sub_self]
    rfl
  rw [roundBuffer, position, Nat.add_sub_cancel, found, dropped]
  simp only [Option.bind_eq_bind, Option.bind_some]
  split
  next up =>
    have inside : (c :: text).length ≤ (c :: text ++ [0]).length := by
      rw [List.length_append]
      exact Nat.le_add_right _ _
    rcases carryLoop_carry separator (c :: text) [0] with ⟨overflow, run⟩
    rcases carryLoop_spec separator inside with ⟨after, overflow', run', -, iff⟩
    rw [run] at run'
    cases run'
    have new : overflow = true ↔ ∀ d ∈ c :: text, d = '9'.toUInt8 ∨ d = separator := by
      rw [iff, List.take_left]
      constructor
      · exact fun known => known.2.2
      · exact fun nines => ⟨Nat.succ_pos _, fun same => digit (Option.some.inj same), nines⟩
    rw [run]
    simp only [Option.bind_some, put, List.length_append, length_carry, List.length_singleton, new]
    split
    next =>
      split
      next =>
        have whole : ('1'.toUInt8 :: (carry separator (c :: text) ++ [0] ++ [0])).take
            ((c :: text).length + 1) = '1'.toUInt8 :: carry separator (c :: text) := by
          rw [List.take_succ_cons, List.append_assoc, List.take_append_of_le_length, List.take_of_length_le]
          · rw [length_carry]
          · rw [length_carry]
        rw [Option.bind_some, whole]
      next => rfl
    next => rfl
  next => rfl

/-- The digits in front of the separator after the rounding: how many, and of which number. -/
def roundedDigits (precision number : Nat) (front : Bytes) (last : UInt8) : Nat × Nat :=
  if '5'.toUInt8 ≤ last ∧ ∀ c ∈ front, c = '9'.toUInt8 ∨ c = '.'.toUInt8 then
    if number % 10 ^ precision + 1 = 10 ^ precision then (precision + 1, 10 ^ precision)
    else (precision, number + 1)
  else (precision, number)

theorem roundedDigits_precision (precision number : Nat) (front : Bytes) (last : UInt8) :
    (roundedDigits precision number front last).1 = precision +
      if ('5'.toUInt8 ≤ last ∧ ∀ c ∈ front, c = '9'.toUInt8 ∨ c = '.'.toUInt8) ∧
        number % 10 ^ precision + 1 = 10 ^ precision then 1 else 0 := by
  rw [roundedDigits]
  by_cases up : '5'.toUInt8 ≤ last ∧ ∀ c ∈ front, c = '9'.toUInt8 ∨ c = '.'.toUInt8
  · by_cases new : number % 10 ^ precision + 1 = 10 ^ precision
    · rw [if_pos up, if_pos new, if_pos ⟨up, new⟩]
    · rw [if_pos up, if_neg new, if_neg fun both => new both.2]
      rfl
  · rw [if_neg up, if_neg fun both => up both.1]
    rfl

/-- The characters behind the separator after the rounding. -/
def roundedFraction (front : Bytes) (last : UInt8) : Bytes :=
  if '5'.toUInt8 ≤ last then carry '.'.toUInt8 front else front

theorem digitChars_cons {precision : Nat} (one : 1 ≤ precision) (number : Nat) :
    Exists fun c => Exists fun rest => digitChars precision number = c :: rest ∧ c ≠ '.'.toUInt8 := by
  induction precision, one using Nat.le_induction generalizing number with
  | base =>
      exact ⟨_, [], digitChars_succ 0 number, (digitChar_facts (Nat.mod_lt number (by decide))).1⟩
  | succ precision one inductionHypothesis =>
      rcases inductionHypothesis (number / 10) with ⟨c, rest, whole, digit⟩
      rw [digitChars_succ, whole]
      exact ⟨c, _, rfl, digit⟩

/-- A power of ten has one more digit than what is below it. -/
theorem digitChars_power {precision number : Nat} (nines : number % 10 ^ precision + 1 = 10 ^ precision) :
    '1'.toUInt8 :: digitChars precision (number + 1) = digitChars (precision + 1) (10 ^ precision) := by
  have divides : (number + 1) % 10 ^ precision = 0 % 10 ^ precision := by
    rw [← Nat.mod_add_mod, nines, Nat.mod_self, Nat.zero_mod]
  have single : Decimal.digits 1 1 = [1] := rfl
  rw [digitChars, digitChars, Decimal.digits_inj.mpr divides, Nat.add_comm precision,
    Decimal.digits_append 1, Nat.div_self (Nat.pow_pos (by decide)), single, List.map_append,
    Decimal.digits_inj.mpr ((Nat.mod_self (10 ^ precision)).trans (Nat.zero_mod _).symm)]
  rfl

/-- The rounding of a number with a fraction; the last character leaves a NUL, unless a new
digit takes its room. -/
theorem roundBuffer_number {precision : Nat} (one : 1 ≤ precision) (number : Nat) (front : Bytes)
    (last : UInt8) {shown : Bytes × Nat}
    (rounded : roundBuffer '.'.toUInt8 precision
      (digitChars precision number ++ '.'.toUInt8 :: (front ++ [last])) = some shown) :
    shown.2 = (roundedDigits precision number front last).1 ∧
      Exists fun ending => (ending = [] ∨ ending = [0]) ∧
        shown.1 = digitChars shown.2 (roundedDigits precision number front last).2 ++
          '.'.toUInt8 :: (roundedFraction front last ++ ending) := by
  rcases digitChars_cons one number with ⟨c, rest, whole, digit⟩
  have text : digitChars precision number ++ '.'.toUInt8 :: (front ++ [last]) =
      c :: (rest ++ '.'.toUInt8 :: front) ++ [last] := by
    rw [whole, List.cons_append, List.cons_append, List.append_assoc]
    rfl
  have start : c :: (rest ++ '.'.toUInt8 :: front) = digitChars precision number ++ '.'.toUInt8 :: front := by
    rw [whole, List.cons_append]
  have behind : (∀ d ∈ '.'.toUInt8 :: front, d = '9'.toUInt8 ∨ d = '.'.toUInt8) ↔
      ∀ d ∈ front, d = '9'.toUInt8 ∨ d = '.'.toUInt8 := by
    rw [List.forall_mem_cons, and_iff_right (Or.inr rfl)]
  have members : (∀ d ∈ digitChars precision number ++ '.'.toUInt8 :: front,
      d = '9'.toUInt8 ∨ d = '.'.toUInt8) ↔ number % 10 ^ precision + 1 = 10 ^ precision ∧
        ∀ d ∈ front, d = '9'.toUInt8 ∨ d = '.'.toUInt8 := by
    rw [List.forall_mem_append, nines_iff, behind]
  have passed : carry '.'.toUInt8 ('.'.toUInt8 :: front) = '.'.toUInt8 :: carry '.'.toUInt8 front := by
    have whole := carry_append '.'.toUInt8 ['.'.toUInt8] front
    have single : carry '.'.toUInt8 ['.'.toUInt8] = ['.'.toUInt8] := rfl
    rw [single, ite_self] at whole
    exact whole
  have carried : carry '.'.toUInt8 (digitChars precision number ++ '.'.toUInt8 :: front) =
      (if ∀ d ∈ front, d = '9'.toUInt8 ∨ d = '.'.toUInt8 then digitChars precision (number + 1)
        else digitChars precision number) ++ '.'.toUInt8 :: carry '.'.toUInt8 front := by
    rw [carry_append, passed, carry_digitChars]
    simp only [behind]
  rw [text, roundBuffer_concat digit, start] at rounded
  rw [roundedDigits, roundedFraction]
  by_cases up : '5'.toUInt8 ≤ last
  · simp only [if_pos up, members, carried, and_iff_right up] at rounded ⊢
    by_cases nines : ∀ c ∈ front, c = '9'.toUInt8 ∨ c = '.'.toUInt8
    · rw [if_pos nines] at rounded ⊢
      by_cases new : number % 10 ^ precision + 1 = 10 ^ precision
      · rw [if_pos ⟨new, nines⟩] at rounded
        rw [if_pos new]
        split at rounded
        next room =>
          cases rounded
          refine ⟨rfl, [], .inl rfl, ?_⟩
          rw [List.append_nil, ← digitChars_power new]
          rfl
        next full => cases rounded
      · rw [if_neg fun both => new both.1] at rounded
        rw [if_neg new]
        cases rounded
        exact ⟨rfl, [0], .inr rfl, List.append_assoc _ _ _⟩
    · rw [if_neg fun both => nines both.2, if_neg nines] at rounded
      rw [if_neg nines]
      cases rounded
      exact ⟨rfl, [0], .inr rfl, List.append_assoc _ _ _⟩
  · rw [if_neg up] at rounded
    rw [if_neg fun both => up both.1, if_neg up]
    cases rounded
    exact ⟨rfl, [0], .inr rfl, List.append_assoc _ _ _⟩

/-! ## The characters that are shown -/

/-- Neither signs nor NUL. -/
def Plain (digits : Bytes) : Prop :=
  ∀ c ∈ digits, c ≠ '.'.toUInt8 ∧ c ≠ ','.toUInt8 ∧ c ≠ '-'.toUInt8 ∧ c ≠ 0

theorem digitChars_plain (count number : Nat) : Plain (digitChars count number) := by
  intro c member
  rcases List.mem_map.mp member with ⟨d, digit, rfl⟩
  rcases digitChar_facts (Decimal.digits_lt digit) with ⟨dot, separator, minus, nul, -⟩
  exact ⟨dot, separator, minus, nul⟩

theorem untilNul_append {front : Bytes} (whole : 0 ∉ front) (rear : Bytes) :
    untilNul (front ++ rear) = front ++ untilNul rear := by
  apply List.takeWhile_append_of_pos
  intro c member
  exact decide_eq_true fun zero => whole (zero ▸ member)

/-- A new digit comes where those in front of the separator are all nines, and so are those behind it. -/
theorem newDigit_iff {precision : Nat} (one : 1 ≤ precision) (number : Nat) (front : Bytes) (last : UInt8) :
    NewDigit '.'.toUInt8 (digitChars precision number ++ '.'.toUInt8 :: (front ++ [last])) ↔
      ('5'.toUInt8 ≤ last ∧ ∀ c ∈ front, c = '9'.toUInt8 ∨ c = '.'.toUInt8) ∧
        number % 10 ^ precision + 1 = 10 ^ precision := by
  rcases digitChars_cons one number with ⟨c, rest, whole, digit⟩
  have split : digitChars precision number ++ '.'.toUInt8 :: (front ++ [last]) =
      (digitChars precision number ++ '.'.toUInt8 :: front) ++ [last] := by
    rw [List.append_assoc, List.cons_append]
  have head : (digitChars precision number ++ '.'.toUInt8 :: front ++ [last]).head? ≠ some '.'.toUInt8 := by
    rw [whole]
    exact fun same => digit (Option.some.inj same)
  have final : (digitChars precision number ++ '.'.toUInt8 :: front ++ [last]).getLastD 0 = last := by
    rw [List.getLastD_eq_getLast?, List.getLast?_concat]
    rfl
  rw [split, NewDigit, List.dropLast_concat, final, and_iff_right head, List.forall_mem_append, nines_iff,
    List.forall_mem_cons, and_iff_right (Or.inr rfl)]
  exact ⟨fun known => ⟨⟨known.1, known.2.2⟩, known.2.1⟩, fun known => ⟨known.1.1, known.2, known.1.2⟩⟩

theorem digitChar_tmod (x : Int) : digitChar (x.tmod 10) ≠ 0 ∧ digitChar (x.tmod 10) + 1 ≠ 0 := by
  have upper : x.tmod 10 < 10 := Int.tmod_lt_of_pos x (by decide)
  have lower : -10 < x.tmod 10 := Int.lt_tmod_of_pos x (by decide)
  have all : ∀ d : Fin 19, digitChar ((d : Nat) - 9 : Int) ≠ 0 ∧ digitChar ((d : Nat) - 9 : Int) + 1 ≠ 0 := by
    decide
  have here := all ⟨(x.tmod 10 + 9).toNat, by omega⟩
  have same : (((x.tmod 10 + 9).toNat : Nat) - 9 : Int) = x.tmod 10 := by omega
  rw [Fin.val_mk, same] at here
  exact here

theorem fractionChars_nonzero {machine : Machine} {fraction : ℚ} {minimum count i : Nat} {c : UInt8}
    (member : c ∈ fractionChars machine fraction minimum count i) : c ≠ 0 ∧ c + 1 ≠ 0 := by
  induction count generalizing i with
  | zero => cases member
  | succ count inductionHypothesis =>
      rw [fractionChars] at member
      split at member
      next visible =>
        rcases List.mem_cons.mp member with rfl | later
        · exact digitChar_tmod _
        · exact inductionHypothesis later
      next zero =>
        rcases List.mem_cons.mp member with rfl | later
        · decide
        · split at later
          next => cases later
          next => exact inductionHypothesis later

/-- What the carry leaves of one character. -/
theorem mem_carry_iff (sign : UInt8) (other : sign ≠ '.'.toUInt8 ∧ sign ≠ '9'.toUInt8 ∧ sign ≠ '0'.toUInt8)
    (text : Bytes) : sign ∈ carry '.'.toUInt8 text ↔
      sign ∈ (text.rdropWhile fun c => c = '9'.toUInt8 ∨ c = '.'.toUInt8).dropLast ∨
        (text.rdropWhile fun c => c = '9'.toUInt8 ∨ c = '.'.toUInt8).getLast? = some (sign - 1) := by
  induction text using List.reverseRecOn with
  | nil => simp [carry, carryBack]
  | append_singleton text c inductionHypothesis =>
      rw [carry_concat]
      by_cases skipped : c = '.'.toUInt8
      · rw [if_pos skipped, List.mem_append, List.mem_singleton, inductionHypothesis,
          List.rdropWhile_concat_pos _ _ _ (by simp [skipped]), skipped, or_iff_left other.1]
      · by_cases nine : c = '9'.toUInt8
        · rw [if_neg skipped, if_pos nine, List.mem_append, List.mem_singleton, inductionHypothesis,
            List.rdropWhile_concat_pos _ _ _ (by simp [nine]), or_iff_left other.2.2]
        · have last : sign = c + 1 ↔ some c = some (sign - 1) := by
            rw [Option.some_inj]
            constructor
            · exact fun same => same ▸ (UInt8.add_sub_cancel c 1).symm
            · exact fun same => same ▸ (UInt8.sub_add_cancel sign 1).symm
          rw [if_neg skipped, if_neg nine, List.rdropWhile_concat_neg _ _ _ (by simp [skipped, nine]),
            List.dropLast_concat, List.getLast?_concat, List.mem_append, List.mem_singleton, last]

theorem roundedFraction_nonzero {front : Bytes} (last : UInt8) (nonzero : ∀ c ∈ front, c ≠ 0 ∧ c + 1 ≠ 0) :
    0 ∉ roundedFraction front last := by
  rw [roundedFraction]
  split
  next =>
    rw [mem_carry_iff 0 ⟨by decide, by decide, by decide⟩]
    rintro (inside | last_)
    · exact (nonzero 0 (( List.rdropWhile_prefix _ _).subset (List.dropLast_subset _ inside))).1 rfl
    · have inside := ( List.rdropWhile_prefix _ _).subset (List.mem_of_getLast? last_)
      exact (nonzero _ inside).2 rfl
  next => exact fun inside => (nonzero 0 inside).1 rfl

/-- The number string in front of the rounding, cut at the separator and at the last digit. -/
theorem writtenNumber_concat (machine : Machine) (pattern : Bytes) (magnitude : ℚ) :
    writtenNumber machine {} pattern magnitude =
      digitChars (writtenPrecision machine {} pattern magnitude) (integerNumber machine magnitude) ++
        '.'.toUInt8 :: ((writtenFraction machine {} pattern magnitude).dropLast ++
          [(writtenFraction machine {} pattern magnitude).getLastD 0]) := by
  have visible : writtenFraction machine {} pattern magnitude ≠ [] := fractionChars_ne_nil _ _ _ _ _
  have last : (writtenFraction machine {} pattern magnitude).getLastD 0 =
      (writtenFraction machine {} pattern magnitude).getLast visible := by
    rw [List.getLastD_eq_getLast?, List.getLast?_eq_some_getLast visible]
    rfl
  rw [last, List.dropLast_append_getLast visible]
  rfl

/-- How many digits are shown in front of the separator, and of which number. -/
def shownDigits (machine : Machine) (pattern : Bytes) (magnitude : ℚ) : Nat × Nat :=
  if fractionalPart {} pattern = [] then
    (writtenPrecision machine {} pattern magnitude, integerNumber machine magnitude)
  else roundedDigits (writtenPrecision machine {} pattern magnitude) (integerNumber machine magnitude)
    (writtenFraction machine {} pattern magnitude).dropLast
    ((writtenFraction machine {} pattern magnitude).getLastD 0)

/-- The separator and what is shown behind it. -/
def shownFraction (machine : Machine) (pattern : Bytes) (magnitude : ℚ) : Bytes :=
  if fractionalPart {} pattern = [] then []
  else '.'.toUInt8 :: roundedFraction (writtenFraction machine {} pattern magnitude).dropLast
    ((writtenFraction machine {} pattern magnitude).getLastD 0)

theorem shownFraction_nonzero (machine : Machine) (pattern : Bytes) (magnitude : ℚ) :
    0 ∉ shownFraction machine pattern magnitude := by
  rw [shownFraction]
  split
  next => exact List.not_mem_nil
  next =>
    rw [List.mem_cons, not_or]
    refine ⟨by decide, roundedFraction_nonzero _ fun c member => ?_⟩
    exact fractionChars_nonzero (List.dropLast_subset _ member)

/-- The number string is the digits that are shown, and a NUL for the last one. -/
theorem numberString_text {machine : Machine} {pattern : Bytes} {magnitude : ℚ} {shown : Bytes × Nat}
    (string : numberString machine {} pattern magnitude = some shown) :
    shown.2 = (shownDigits machine pattern magnitude).1 ∧
      Exists fun ending => (ending = [] ∨ ending = [0]) ∧
        shown.1 = digitChars shown.2 (shownDigits machine pattern magnitude).2 ++
          (shownFraction machine pattern magnitude ++ ending) := by
  rw [numberString] at string
  rw [shownDigits, shownFraction]
  split at string
  next nothing =>
    cases string
    rw [if_pos nothing, if_pos nothing]
    exact ⟨rfl, [], .inl rfl, (List.append_nil _).symm⟩
  next more =>
    have one : 1 ≤ writtenPrecision machine {} pattern magnitude :=
      Nat.le_trans (minimum_pos _ _) (Nat.le_max_right _ _)
    rw [writtenNumber_concat] at string
    rw [if_neg more, if_neg more]
    exact roundBuffer_number one _ _ _ string

theorem separated_zero (precision : Nat) (sign : UInt8) (i : Nat) (rest : Bytes) :
    separated 0 precision sign i rest = rest := by
  induction rest generalizing i with
  | nil => rfl
  | cons c rest inductionHypothesis =>
      rw [separated, if_neg fun grouped => Nat.lt_irrefl 0 grouped.2.1, inductionHypothesis]
      rfl

end NumberFormat

end TurboXSL
