import Mathlib.Algebra.Order.Floor.Semifield
import Mathlib.Data.Rat.Floor
import TurboXSL.NumberPatterns
import TurboXSL.NumberStrings

namespace TurboXSL

open Library Output

/-!
# The value in `format-number`

Digits behind the separator are written until the pattern has no more places,
or one behind the zeros of the pattern is a zero.  The last of them is for the
rounding only.  What comes of this is the rounded number where no other digit
follows that zero, and no zero has to be dropped at the end.
-/

namespace NumberFormat

/-! ## What is asked for -/

/-- A pattern of digit signs, which has zeros first and then other signs behind its dot. -/
structure DigitPattern where
  integer : Bytes
  fraction : Option (Nat × Nat)
  digits : ∀ c ∈ integer, c = '0'.toUInt8 ∨ c = '#'.toUInt8

namespace DigitPattern

/-- The number of zeros behind the dot. -/
def least (p : DigitPattern) : Nat := (p.fraction.getD (0, 0)).1

/-- The number of places behind the dot. -/
def most (p : DigitPattern) : Nat := p.least + (p.fraction.getD (0, 0)).2

def bytes (p : DigitPattern) : Bytes :=
  p.integer ++ match p.fraction with
    | none => []
    | some (zeros, others) =>
        '.'.toUInt8 :: (List.replicate zeros '0'.toUInt8 ++ List.replicate others '#'.toUInt8)

end DigitPattern

/-- The number in units of its last place, rounded half up. -/
def roundedUnits (places : Nat) (x : ℚ) : Nat := ⌊x * 10 ^ places + 1 / 2⌋₊

/-- A number with at least so many digits. -/
def numeral (width n : Nat) : Bytes := digitChars (max width (Nat.log 10 n + 1)) n

/-- The digits behind the dot without the zeros at their end, as far as these may go. -/
def visibleFraction (least most units : Nat) : Bytes :=
  (digitChars most units).take least ++
    ((digitChars most units).drop least).rdropWhile fun c => c = '0'.toUInt8

/-- The decimal expansion that the pattern asks for. -/
def DigitPattern.expansion (p : DigitPattern) (x : ℚ) : Bytes :=
  numeral (zeroPlaces p.integer) (roundedUnits p.most x / 10 ^ p.most) ++
    if visibleFraction p.least p.most (roundedUnits p.most x) = [] then []
    else '.'.toUInt8 :: visibleFraction p.least p.most (roundedUnits p.most x)

/-- The digits have room in the buffers, with a dot and one digit for the rounding. -/
def DigitPattern.Roomy (p : DigitPattern) (x : ℚ) : Prop :=
  p.integer.length ≤ 64 ∧
    max (zeroPlaces p.integer) (Nat.log 10 (roundedUnits p.most x / 10 ^ p.most) + 1) +
      (if p.most = 0 then 0 else p.most + 2) ≤ 32

instance (p : DigitPattern) (x : ℚ) : Decidable (p.Roomy x) := inferInstanceAs (Decidable (_ ∧ _))

/-- Powers are exact, and so are conversions in the range of `int`. -/
def Machine.Exact (machine : Machine) : Prop :=
  ∀ (i : Nat) (fraction : ℚ), 0 ≤ fraction → ⌊10 ^ (i + 1) * fraction⌋ < 2 ^ 31 →
    machine.scaled i fraction = ⌊10 ^ (i + 1) * fraction⌋

/-- The expansion is what comes of the code, whatever conversions out of range give. -/
def RoundsRight (logZero : Nat) (p : DigitPattern) (x : ℚ) : Prop :=
  ∀ machine : Machine, machine.Exact → machine.logZero = logZero →
    xfFormat machine [] (.finite false x) p.bytes none = some (some (p.expansion x))

/-- What is behind the integer part of a number. -/
def fractionOf (x : ℚ) : ℚ := x - ⌊x⌋₊

/-- The digit behind the zeros of the pattern is a zero, with places behind. -/
def StopsEarly (p : DigitPattern) (x : ℚ) : Prop :=
  p.least < p.most ∧ ⌊10 ^ (p.least + 1) * fractionOf x⌋₊ % 10 = 0

/-- The integer part is in range, and it is no zero that gets too many digits; a pattern without
places behind the dot has nothing to round up.  Where the digits stop early, the others do not
count and there is one in front of the zero; else the last digit that is shown is not a zero that
should be dropped. -/
structure RoundsWell (logZero : Nat) (p : DigitPattern) (x : ℚ) : Prop where
  range : ⌊x⌋₊ < 2 ^ 32
  zero : ⌊x⌋₊ = 0 → (logZero + 1) % 2 ^ 32 ≤ max 1 (zeroPlaces p.integer)
  whole : p.most = 0 → fractionOf x < 1 / 2
  early : StopsEarly p x → 1 ≤ p.least ∧ ⌊10 ^ (p.least + 1) * fractionOf x⌋₊ < 2 ^ 31 ∧
    x * 10 ^ p.most < ⌊x * 10 ^ p.least⌋₊ * 10 ^ (p.most - p.least) + 1 / 2
  late : 0 < p.most → ¬ StopsEarly p x → (p.least = p.most ∨ roundedUnits p.most x % 10 ≠ 0) ∧
    ⌊10 ^ (p.most + 1) * fractionOf x⌋₊ < 2 ^ 31

/-! ## The parts of the pattern -/

namespace DigitPattern

/-- What is behind the dot. -/
def behind (p : DigitPattern) : Bytes :=
  match p.fraction with
  | none => []
  | some (zeros, others) => List.replicate zeros '0'.toUInt8 ++ List.replicate others '#'.toUInt8

theorem parts (p : DigitPattern) :
    integerPart {} p.bytes = p.integer ∧ fractionalPart {} p.bytes = p.behind := by
  rcases splitPattern_dot p.bytes with ⟨front, rear⟩
  have digit : ∀ c ∈ p.integer, decide (c ≠ '.'.toUInt8) = true := by
    intro c member
    rcases p.digits c member with rfl | rfl <;> rfl
  rw [front, rear, bytes, behind, List.takeWhile_append_of_pos digit, List.dropWhile_append_of_pos digit]
  cases p.fraction with
  | none => exact ⟨List.append_nil _, rfl⟩
  | some places => exact ⟨List.append_nil _, rfl⟩

theorem behind_places (p : DigitPattern) :
    zeroPlaces p.behind = p.least ∧ digitPlaces p.behind = p.most ∧ p.behind.length = p.most := by
  rw [behind, most, least]
  cases p.fraction with
  | none => exact ⟨rfl, rfl, rfl⟩
  | some places =>
      have zeros : (List.replicate places.2 '#'.toUInt8).count '0'.toUInt8 = 0 := by
        rw [List.count_replicate]
        rfl
      refine ⟨?_, ?_, ?_⟩
      · rw [zeroPlaces, List.count_append, List.count_replicate_self, zeros]
        rfl
      · rw [digitPlaces, List.countP_append, List.countP_replicate, List.countP_replicate]
        rfl
      · rw [List.length_append, List.length_replicate, List.length_replicate]
        rfl

theorem behind_eq_nil (p : DigitPattern) : p.behind = [] ↔ p.most = 0 := by
  rw [← List.length_eq_zero_iff, p.behind_places.2.2]

theorem integer_grouping (p : DigitPattern) : groupingPlace p.integer = 0 := by
  apply groupingPlace_eq_zero
  intro front rear split
  have inside : ','.toUInt8 ∈ p.integer := split ▸ List.mem_append_right front List.mem_cons_self
  exact absurd (p.digits _ inside) (by decide)

/-- The signs of a pattern are not those that are refused. -/
theorem mem_bytes {p : DigitPattern} {c : UInt8} (member : c ∈ p.bytes) :
    c = '0'.toUInt8 ∨ c = '#'.toUInt8 ∨ c = '.'.toUInt8 := by
  rw [bytes] at member
  rcases List.mem_append.mp member with front | rear
  · exact (p.digits c front).imp_right .inl
  · split at rear
    next => cases rear
    next =>
      rcases List.mem_cons.mp rear with dot | places
      · exact .inr (.inr dot)
      · rcases List.mem_append.mp places with zero | other
        · exact .inl (List.eq_of_mem_replicate zero)
        · exact .inr (.inl (List.eq_of_mem_replicate other))

theorem passes {p : DigitPattern} {x : ℚ} (room : p.Roomy x) : Passes [] none p.bytes {} := by
  have length : p.bytes.length ≤ p.integer.length + p.most + 1 := by
    rw [bytes, most, least, List.length_append]
    cases p.fraction with
    | none =>
        rw [List.length_nil]
        omega
    | some places =>
        rw [List.length_cons, List.length_append, List.length_replicate, List.length_replicate]
        exact Nat.le_of_eq rfl
  have short : p.most ≤ 32 := by
    have fits := room.2
    split at fits <;> omega
  refine ⟨by have := room.1; omega, rfl, ?_, ?_⟩
  · refine (strstr_single _ _).mpr fun member => ?_
    exact absurd (mem_bytes member) (by decide)
  · refine (strstr_single _ _).mpr fun member => ?_
    exact absurd (mem_bytes member) (by decide)

end DigitPattern

/-! ## The text -/

/-- The digits and the fraction that are shown. -/
def shownText (machine : Machine) (pattern : Bytes) (magnitude : ℚ) : Bytes :=
  digitChars (shownDigits machine pattern magnitude).1 (shownDigits machine pattern magnitude).2 ++
    shownFraction machine pattern magnitude

theorem xfFormat_text {machine : Machine} {pattern : Bytes} {magnitude : ℚ}
    (passes : Passes [] none pattern {}) (plain : groupingPlace (integerPart {} pattern) = 0)
    (fits : Fits machine {} pattern magnitude)
    (accepted : precisionOf machine (integerNumber machine magnitude) ≤ 32) :
    xfFormat machine [] (.finite false magnitude) pattern none =
      some (some (shownText machine pattern magnitude)) := by
  rcases formatFinite_shown false fits accepted with ⟨shown, string, run⟩
  rcases numberString_text string with ⟨precision, ending, short, text⟩
  have whole : (0 : UInt8) ∉ digitChars shown.2 (shownDigits machine pattern magnitude).2 ++
      shownFraction machine pattern magnitude := by
    rw [List.mem_append, not_or]
    refine ⟨fun inside => ?_, shownFraction_nonzero machine pattern magnitude⟩
    exact (digitChars_plain _ _ 0 inside).2.2.2 rfl
  have end_ : untilNul ending = [] := by
    rcases short with rfl | rfl
    · rfl
    · rfl
  rw [integerPlaces_plain] at run
  dsimp only at run
  rw [plain, separated_zero, text, if_neg Bool.false_ne_true, List.nil_append, ← List.append_assoc,
    untilNul_append whole, end_, List.append_nil, precision] at run
  rw [xfFormat_passes machine passes, run, shownText]

/-- A text comes of numbers that are not refused, where there is room. -/
theorem xfFormat_text_iff {machine : Machine} {pattern : Bytes} {magnitude : ℚ} {text : Bytes}
    (passes : Passes [] none pattern {}) (plain : groupingPlace (integerPart {} pattern) = 0) :
    xfFormat machine [] (.finite false magnitude) pattern none = some (some text) ↔
      Fits machine {} pattern magnitude ∧
        precisionOf machine (integerNumber machine magnitude) ≤ 32 ∧
        shownText machine pattern magnitude = text := by
  constructor
  · intro run
    have fits : Fits machine {} pattern magnitude := by
      rw [xfFormat_passes machine passes] at run
      exact (formatFinite_isSome_iff machine {} pattern false magnitude).mp (run ▸ rfl)
    have accepted : precisionOf machine (integerNumber machine magnitude) ≤ 32 := by
      by_contra refused
      rw [xfFormat_passes machine passes, formatFinite_eq false fits.split fits.parts,
        if_pos (Nat.lt_of_not_le refused)] at run
      cases run
    rw [xfFormat_text passes plain fits accepted] at run
    exact ⟨fits, accepted, Option.some.inj (Option.some.inj run)⟩
  · rintro ⟨fits, accepted, rfl⟩
    exact xfFormat_text passes plain fits accepted

/-! ## Digits of numbers -/

theorem digitChars_values (count n : Nat) :
    (digitChars count n).map (fun c => c.toNat - 48) = Decimal.digits count n := by
  have value : ∀ d < 10, (digitChar (d : Nat)).toNat - 48 = d := by decide
  rw [digitChars, List.map_map]
  exact (List.map_congr_left fun d member => value d (Decimal.digits_lt member)).trans (List.map_id _)

theorem digitChars_inj {count m n : Nat} :
    digitChars count m = digitChars count n ↔ m % 10 ^ count = n % 10 ^ count := by
  rw [← Decimal.digits_inj]
  constructor
  · intro same
    rw [← digitChars_values, same, digitChars_values]
  · intro same
    rw [digitChars, same, digitChars]

theorem digitChars_append (first count n : Nat) :
    digitChars (first + count) n = digitChars first (n / 10 ^ count) ++ digitChars count n := by
  rw [digitChars, Decimal.digits_append, List.map_append]
  rfl

theorem lt_numeral (width n : Nat) : n < 10 ^ max width (Nat.log 10 n + 1) :=
  Nat.lt_of_lt_of_le (Nat.lt_pow_succ_log_self (by decide) n)
    (Nat.pow_le_pow_right (by decide) (Nat.le_max_right _ _))

/-- Digits with room for a number are its numeral where there are as many. -/
theorem digitChars_eq_numeral {count m width n : Nat} (room : m < 10 ^ count) :
    digitChars count m = numeral width n ↔ count = max width (Nat.log 10 n + 1) ∧ m = n := by
  rw [numeral]
  constructor
  · intro same
    have length := congrArg List.length same
    rw [length_digitChars, length_digitChars] at length
    subst length
    rw [digitChars_inj, Nat.mod_eq_of_lt room, Nat.mod_eq_of_lt (lt_numeral width n)] at same
    exact ⟨rfl, same⟩
  · rintro ⟨rfl, rfl⟩
    rfl

/-- Digits and what follows behind a dot are determined by the whole. -/
theorem append_dot_inj {front front' rear rear' : Bytes} (plain : '.'.toUInt8 ∉ front)
    (plain' : '.'.toUInt8 ∉ front') (dot : rear = [] ∨ rear.head? = some '.'.toUInt8)
    (dot' : rear' = [] ∨ rear'.head? = some '.'.toUInt8) :
    front ++ rear = front' ++ rear' ↔ front = front' ∧ rear = rear' := by
  have cut : ∀ front rear : Bytes, '.'.toUInt8 ∉ front → (rear = [] ∨ rear.head? = some '.'.toUInt8) →
      (front ++ rear).takeWhile (fun c => c ≠ '.'.toUInt8) = front := by
    intro front rear plain dot
    have digit : ∀ c ∈ front, decide (c ≠ '.'.toUInt8) = true := fun c member =>
      decide_eq_true fun same => plain (same ▸ member)
    have stops : rear.takeWhile (fun c => c ≠ '.'.toUInt8) = [] := by
      cases rear with
      | nil => rfl
      | cons c rest =>
          rcases dot with none_ | here
          · cases none_
          · cases Option.some.inj here
            rfl
    rw [List.takeWhile_append_of_pos digit, stops, List.append_nil]
  constructor
  · intro same
    have fronts : front = front' := by
      rw [← cut front rear plain dot, same, cut front' rear' plain' dot']
    subst fronts
    exact ⟨rfl, List.append_cancel_left same⟩
  · rintro ⟨rfl, rfl⟩
    rfl

/-! ## The digits of a fraction -/

/-- The first digits of a fraction as a number. -/
def leadingUnits (fraction : ℚ) (places : Nat) : Nat := ⌊10 ^ places * fraction⌋₊

theorem leadingUnits_div (fraction : ℚ) (places more : Nat) :
    leadingUnits fraction (places + more) / 10 ^ more = leadingUnits fraction places := by
  have shifted : 10 ^ (places + more) * fraction / ((10 ^ more : Nat) : ℚ) = 10 ^ places * fraction := by
    have positive : (10 : ℚ) ^ more ≠ 0 := by positivity
    rw [Nat.cast_pow, Nat.cast_ofNat, pow_add]
    field_simp
  rw [leadingUnits, leadingUnits, ← shifted, Nat.floor_div_natCast]

theorem leadingUnits_mono (fraction : ℚ) {places more : Nat} (le : places ≤ more) :
    leadingUnits fraction places ≤ leadingUnits fraction more := by
  rcases Nat.exists_eq_add_of_le le with ⟨others, rfl⟩
  rw [← leadingUnits_div fraction places others]
  exact Nat.div_le_self _ _

/-- A digit that is converted in range. -/
theorem Machine.Exact.digit {machine : Machine} (exact_ : machine.Exact) {fraction : ℚ}
    (positive : 0 ≤ fraction) {i : Nat} (range : leadingUnits fraction (i + 1) < 2 ^ 31) :
    (machine.scaled i fraction).tmod 10 = (leadingUnits fraction (i + 1) % 10 : Nat) := by
  have floor : ((leadingUnits fraction (i + 1) : Nat) : Int) = ⌊10 ^ (i + 1) * fraction⌋ :=
    Int.natCast_floor_eq_floor (by positivity)
  rw [exact_ i fraction positive (by rw [← floor]; exact_mod_cast range), ← floor]
  rfl

theorem digitChars_one_append (count n : Nat) :
    digitChars (count + 1) n = digitChar (n / 10 ^ count % 10 : Nat) :: digitChars count n := by
  rw [Nat.add_comm, digitChars_append]
  rfl

/-- Digits up to the last place, where they do not stop early. -/
theorem fractionChars_late {machine : Machine} (exact_ : machine.Exact) {fraction : ℚ}
    (positive : 0 ≤ fraction) {least count i : Nat} (range : leadingUnits fraction (i + count) < 2 ^ 31)
    (onward : i ≤ least → least + 1 < i + count → leadingUnits fraction (least + 1) % 10 ≠ 0) :
    fractionChars machine fraction least count i = digitChars count (leadingUnits fraction (i + count)) := by
  induction count generalizing i with
  | zero => rfl
  | succ count inductionHypothesis =>
      have next_ : i + (count + 1) = i + 1 + count := by omega
      rw [next_] at range onward ⊢
      have first := leadingUnits_mono fraction (Nat.le_add_right (i + 1) count)
      have digit := exact_.digit positive (Nat.lt_of_le_of_lt first range)
      have later := inductionHypothesis range fun le => onward (Nat.le_of_succ_le le)
      rw [fractionChars, digit, digitChars_one_append, leadingUnits_div, later]
      split
      next visible => rfl
      next zero =>
        have zero_ : leadingUnits fraction (i + 1) % 10 = 0 := by omega
        rw [zero_]
        split
        next here =>
          subst here
          cases count with
          | zero => rfl
          | succ count => exact absurd zero_ (onward (Nat.le_refl i) (by omega))
        next => rfl

/-- Digits up to the zero where they stop. -/
theorem fractionChars_early {machine : Machine} (exact_ : machine.Exact) {fraction : ℚ}
    (positive : 0 ≤ fraction) {least count i : Nat} (before : i ≤ least) (inside : least < i + count)
    (range : leadingUnits fraction (least + 1) < 2 ^ 31)
    (stops : leadingUnits fraction (least + 1) % 10 = 0) :
    fractionChars machine fraction least count i =
      digitChars (least - i + 1) (leadingUnits fraction (least + 1)) := by
  induction count generalizing i with
  | zero => omega
  | succ count inductionHypothesis =>
      have first := leadingUnits_mono fraction (Nat.succ_le_succ before)
      have digit := exact_.digit positive (Nat.lt_of_le_of_lt first range)
      rw [fractionChars, digit]
      by_cases here : i = least
      · subst here
        have zero : ¬ ((leadingUnits fraction (i + 1) % 10 : Nat) : Int) ≠ 0 := by omega
        rw [if_neg zero, if_pos rfl, digitChars_one_append, Nat.sub_self, Nat.pow_zero, Nat.div_one, stops]
        rfl
      · have later := inductionHypothesis (i := i + 1) (by omega) (by omega)
        have count_ : least - i + 1 = least - (i + 1) + 1 + 1 := by omega
        have places : least + 1 = i + 1 + (least - (i + 1) + 1) := by omega
        have cut := leadingUnits_div fraction (i + 1) (least - (i + 1) + 1)
        rw [← places] at cut
        rw [later, if_neg here, count_, digitChars_one_append (_ + 1), cut]
        split
        next visible => rfl
        next zero =>
          have zero_ : leadingUnits fraction (i + 1) % 10 = 0 := by omega
          rw [zero_]
          rfl

instance (p : DigitPattern) (x : ℚ) : Decidable (StopsEarly p x) := inferInstanceAs (Decidable (_ ∧ _))

/-- The places that are shown. -/
def shownPlaces (p : DigitPattern) (x : ℚ) : Nat := if StopsEarly p x then p.least else p.most

theorem shownPlaces_le (p : DigitPattern) (x : ℚ) : shownPlaces p x ≤ p.most := by
  rw [shownPlaces]
  split
  next => exact Nat.le_add_right _ _
  next => exact Nat.le_refl _

theorem fractionOf_nonneg {x : ℚ} (positive : 0 ≤ x) : 0 ≤ fractionOf x :=
  sub_nonneg.mpr (Nat.floor_le positive)

theorem fractionOf_lt (x : ℚ) : fractionOf x < 1 := by
  rw [fractionOf, sub_lt_iff_lt_add']
  exact Nat.lt_floor_add_one x

theorem writtenFraction_digits {machine : Machine} (exact_ : machine.Exact) (p : DigitPattern) {x : ℚ}
    (positive : 0 ≤ x) (range : leadingUnits (fractionOf x) (shownPlaces p x + 1) < 2 ^ 31) :
    writtenFraction machine {} p.bytes x =
      digitChars (shownPlaces p x + 1) (leadingUnits (fractionOf x) (shownPlaces p x + 1)) := by
  have places : fractionPlaces {} (fractionalPart {} p.bytes) = (p.least, p.most) := by
    rw [p.parts.2, fractionPlaces_plain, p.behind_places.1, p.behind_places.2.1]
  have chars : writtenFraction machine {} p.bytes x =
      fractionChars machine (fractionOf x) p.least (p.most + 1) 0 := by
    rw [writtenFraction, places]
    rfl
  rw [shownPlaces] at range ⊢
  rw [chars]
  split at range
  next early =>
    rw [if_pos early]
    exact fractionChars_early exact_ (fractionOf_nonneg positive) (Nat.zero_le _)
      (by have := early.1; omega) range early.2
  next late =>
    rw [if_neg late]
    have run := @fractionChars_late machine exact_ (fractionOf x) (fractionOf_nonneg positive) p.least
      (p.most + 1) 0 (by rw [Nat.zero_add]; exact range)
      fun _ inside stops => late ⟨by omega, stops⟩
    rw [Nat.zero_add] at run
    exact run

/-! ## Rounding the digits -/

/-- Rounding half up adds one where the next digit is at least five. -/
theorem roundedUnits_eq {x : ℚ} (positive : 0 ≤ x) (places : Nat) : roundedUnits places x =
    ⌊x⌋₊ * 10 ^ places + (leadingUnits (fractionOf x) places +
      if 5 ≤ leadingUnits (fractionOf x) (places + 1) % 10 then 1 else 0) := by
  have fraction := fractionOf_nonneg positive
  have tenths : x * 10 ^ places + 1 / 2 =
      ((⌊x⌋₊ * 10 ^ places : Nat) : ℚ) + (10 ^ (places + 1) * fractionOf x + (5 : Nat)) / (10 : Nat) := by
    rw [fractionOf]
    push_cast
    ring
  have cut := leadingUnits_div (fractionOf x) places 1
  rw [roundedUnits, tenths, add_comm, Nat.floor_add_natCast (by positivity), Nat.floor_div_natCast,
    Nat.floor_add_natCast (by positivity), ← cut, leadingUnits]
  split <;> omega

theorem leadingUnits_lt {x : ℚ} (positive : 0 ≤ x) (places : Nat) : leadingUnits (fractionOf x) places < 10 ^ places := by
  have small : 10 ^ places * fractionOf x < ((10 ^ places : Nat) : ℚ) := by
    push_cast
    exact mul_lt_of_lt_one_right (by positivity) (fractionOf_lt x)
  exact (Nat.floor_lt (by have := fractionOf_nonneg positive; positivity)).mpr small

theorem numeral_power {z t : Nat} (nines : t + 1 = 10 ^ max z (Nat.log 10 t + 1)) :
    digitChars (max z (Nat.log 10 t + 1) + 1) (10 ^ max z (Nat.log 10 t + 1)) = numeral z (t + 1) := by
  rw [numeral, nines, Nat.log_pow (by decide)]
  congr 1
  omega

theorem numeral_succ {z t : Nat} (other : t + 1 ≠ 10 ^ max z (Nat.log 10 t + 1)) :
    digitChars (max z (Nat.log 10 t + 1)) (t + 1) = numeral z (t + 1) := by
  have below : t + 1 < 10 ^ max z (Nat.log 10 t + 1) :=
    Nat.lt_of_le_of_ne (lt_numeral z t) other
  have fewer := Nat.log_lt_of_lt_pow (by omega) below
  have more : Nat.log 10 t ≤ Nat.log 10 (t + 1) := Nat.log_mono_right (Nat.le_succ t)
  rw [numeral]
  congr 1
  omega

theorem five_le_digitChar {d : Nat} (small : d < 10) : '5'.toUInt8 ≤ digitChar d ↔ 5 ≤ d := by
  revert d
  decide

/-- The digits in front of the dot are the numeral of the rounded number. -/
theorem roundedDigits_numeral (z t places units d : Nat) (small : d < 10) (below : units < 10 ^ places) :
    digitChars (roundedDigits (max z (Nat.log 10 t + 1)) t (digitChars places units) (digitChar d)).1
        (roundedDigits (max z (Nat.log 10 t + 1)) t (digitChars places units) (digitChar d)).2 =
      numeral z (t + (units + if 5 ≤ d then 1 else 0) / 10 ^ places) := by
  have five := five_le_digitChar small
  have whole := Nat.mod_eq_of_lt (lt_numeral z t)
  have units_ := Nat.mod_eq_of_lt below
  have positive : 0 < 10 ^ places := Nat.pow_pos (by decide)
  rw [roundedDigits]
  simp only [nines_iff, five, whole, units_]
  by_cases up : 5 ≤ d ∧ units + 1 = 10 ^ places
  · rw [if_pos up, if_pos up.1, up.2, Nat.div_self positive]
    split
    next nines => exact numeral_power nines
    next other => exact numeral_succ other
  · have stays : (units + if 5 ≤ d then 1 else 0) / 10 ^ places = 0 := by
      apply Nat.div_eq_of_lt
      split
      next five => exact Nat.lt_of_le_of_ne below fun full => up ⟨five, full⟩
      next => exact below
    rw [if_neg up, stays]
    rfl

theorem roundedFraction_digits (places units d : Nat) (small : d < 10) :
    roundedFraction (digitChars places units) (digitChar d) =
      digitChars places (units + if 5 ≤ d then 1 else 0) := by
  rw [roundedFraction]
  simp only [five_le_digitChar small]
  split
  next => exact carry_digitChars places units
  next => rfl

/-! ## What is shown for conversions in range -/

theorem writtenPrecision_eq {machine : Machine} {p : DigitPattern} {x : ℚ} (range : ⌊x⌋₊ < 2 ^ 32)
    (zero : ⌊x⌋₊ = 0 → (machine.logZero + 1) % 2 ^ 32 ≤ max 1 (zeroPlaces p.integer)) :
    integerNumber machine x = ⌊x⌋₊ ∧
      writtenPrecision machine {} p.bytes x = max (zeroPlaces p.integer) (Nat.log 10 ⌊x⌋₊ + 1) := by
  have number : integerNumber machine x = ⌊x⌋₊ := if_pos range
  refine ⟨number, ?_⟩
  rw [writtenPrecision, number, precisionOf, p.parts.1, integerPlaces_plain]
  dsimp only
  split
  next none_ =>
    have fewer := zero none_
    rw [none_, Nat.log_zero_right]
    omega
  next some_ => omega

theorem shownText_whole {machine : Machine} {p : DigitPattern} {x : ℚ} (range : ⌊x⌋₊ < 2 ^ 32)
    (zero : ⌊x⌋₊ = 0 → (machine.logZero + 1) % 2 ^ 32 ≤ max 1 (zeroPlaces p.integer)) (none_ : p.most = 0) :
    shownText machine p.bytes x = numeral (zeroPlaces p.integer) ⌊x⌋₊ := by
  rcases @writtenPrecision_eq machine p x range zero with ⟨number, precision⟩
  have bare : fractionalPart {} p.bytes = [] := p.parts.2.trans (p.behind_eq_nil.mpr none_)
  rw [shownText, shownDigits, shownFraction, if_pos bare, if_pos bare, number, precision, List.append_nil]
  rfl

/-- The number rounded to the places that are shown. -/
theorem shownText_fraction {machine : Machine} (exact_ : machine.Exact) {p : DigitPattern} {x : ℚ}
    (positive : 0 ≤ x) (range : ⌊x⌋₊ < 2 ^ 32)
    (zero : ⌊x⌋₊ = 0 → (machine.logZero + 1) % 2 ^ 32 ≤ max 1 (zeroPlaces p.integer)) (some_ : 0 < p.most)
    (digits : leadingUnits (fractionOf x) (shownPlaces p x + 1) < 2 ^ 31) :
    shownText machine p.bytes x =
      numeral (zeroPlaces p.integer) (roundedUnits (shownPlaces p x) x / 10 ^ shownPlaces p x) ++
        '.'.toUInt8 :: digitChars (shownPlaces p x) (roundedUnits (shownPlaces p x) x) := by
  rcases @writtenPrecision_eq machine p x range zero with ⟨number, precision⟩
  have more : fractionalPart {} p.bytes ≠ [] := by
    rw [p.parts.2, ne_eq, p.behind_eq_nil]
    omega
  have small : leadingUnits (fractionOf x) (shownPlaces p x + 1) % 10 < 10 := Nat.mod_lt _ (by decide)
  have below := leadingUnits_lt positive (shownPlaces p x)
  have ones : 0 < 10 ^ shownPlaces p x := Nat.pow_pos (by decide)
  have cut := leadingUnits_div (fractionOf x) (shownPlaces p x) 1
  rw [Nat.pow_one] at cut
  rw [shownText, shownDigits, shownFraction, if_neg more, if_neg more, number, precision,
    writtenFraction_digits exact_ p positive digits, digitChars_succ, List.dropLast_concat,
    List.getLastD_concat, cut, roundedDigits_numeral _ _ _ _ _ small below, roundedFraction_digits _ _ _ small,
    roundedUnits_eq positive, Nat.mul_comm, Nat.mul_add_div ones, Nat.add_comm (10 ^ _ * _)]
  congr 2
  exact digitChars_inj.mpr (Nat.add_mul_mod_self_left _ _ _).symm

/-! ## What is asked for, digit by digit -/

theorem numeral_inj {z m n : Nat} : numeral z m = numeral z n ↔ m = n := by
  constructor
  · intro same
    rw [numeral] at same
    exact ((digitChars_eq_numeral (lt_numeral z m)).mp same).2
  · exact fun same => same ▸ rfl

theorem roundedUnits_zero_iff {x : ℚ} (positive : 0 ≤ x) : ⌊x⌋₊ = roundedUnits 0 x ↔ fractionOf x < 1 / 2 := by
  have lower := Nat.floor_le positive
  rw [roundedUnits, pow_zero, mul_one, eq_comm, Nat.floor_eq_iff (by positivity), fractionOf]
  constructor
  · rintro ⟨-, upper⟩
    linarith
  · intro less
    constructor
    · linarith
    · linarith

/-- Without places behind the dot only the integer part is asked for. -/
theorem expansion_whole_iff {p : DigitPattern} {x : ℚ} (positive : 0 ≤ x) (none_ : p.most = 0) :
    numeral (zeroPlaces p.integer) ⌊x⌋₊ = p.expansion x ↔ fractionOf x < 1 / 2 := by
  have nothing : visibleFraction p.least p.most (roundedUnits p.most x) = [] := by
    rw [none_, visibleFraction]
    have empty : digitChars 0 (roundedUnits 0 x) = [] := rfl
    rw [empty, List.take_nil, List.drop_nil]
    rfl
  rw [DigitPattern.expansion, if_pos nothing, List.append_nil, numeral_inj, none_, Nat.pow_zero,
    Nat.div_one, roundedUnits_zero_iff positive]

theorem dot_not_mem_numeral (z n : Nat) : '.'.toUInt8 ∉ numeral z n := fun inside =>
  (digitChars_plain _ _ _ inside).1 rfl

/-- A text with a fraction is the expansion where its parts are those of the expansion. -/
theorem expansion_fraction_iff (p : DigitPattern) (x : ℚ) (n : Nat) (digits : Bytes) :
    numeral (zeroPlaces p.integer) n ++ '.'.toUInt8 :: digits = p.expansion x ↔
      n = roundedUnits p.most x / 10 ^ p.most ∧ digits ≠ [] ∧
        digits = visibleFraction p.least p.most (roundedUnits p.most x) := by
  have dot : ('.'.toUInt8 :: digits = [] ∨ ('.'.toUInt8 :: digits).head? = some '.'.toUInt8) := .inr rfl
  rw [DigitPattern.expansion]
  by_cases nothing : visibleFraction p.least p.most (roundedUnits p.most x) = []
  · rw [if_pos nothing, append_dot_inj (dot_not_mem_numeral _ _) (dot_not_mem_numeral _ _) dot (.inl rfl),
      nothing]
    exact iff_of_false (fun both => by cases both.2) fun all => all.2.1 all.2.2
  · rw [if_neg nothing, append_dot_inj (dot_not_mem_numeral _ _) (dot_not_mem_numeral _ _) dot (.inr rfl),
      numeral_inj, List.cons_inj_right]
    constructor
    · exact fun both => ⟨both.1, both.2 ▸ nothing, both.2⟩
    · exact fun all => ⟨all.1, all.2.2⟩

/-- All places are shown where none of them has a zero that is to be dropped. -/
theorem visibleFraction_all_iff {least most units : Nat} (le : least ≤ most) (some_ : 0 < most) :
    digitChars most units = visibleFraction least most units ↔ least = most ∨ units % 10 ≠ 0 := by
  have small : units % 10 < 10 := Nat.mod_lt _ (by decide)
  have zero : digitChar (units % 10 : Nat) = '0'.toUInt8 ↔ units % 10 = 0 := by
    revert small
    generalize units % 10 = d
    revert d
    decide
  have whole := List.take_append_drop least (digitChars most units)
  rw [visibleFraction]
  nth_rewrite 1 [← whole]
  rw [List.append_cancel_left_eq, eq_comm]
  rcases Nat.eq_or_lt_of_le le with same | less
  · have nothing : (digitChars most units).drop least = [] := by
      apply List.drop_eq_nil_of_le
      rw [length_digitChars, same]
    rw [nothing]
    exact iff_of_true rfl (.inl same)
  · rcases Nat.exists_eq_add_of_lt less with ⟨others, rfl⟩
    have rear : (digitChars (least + others + 1) units).drop least =
        digitChars others (units / 10) ++ [digitChar (units % 10 : Nat)] := by
      rw [digitChars_succ, digitChars_append, List.append_assoc]
      apply List.drop_left'
      exact length_digitChars _ _
    have apart : least ≠ least + others + 1 := by omega
    rw [rear, or_iff_right apart, ne_eq, ← zero]
    constructor
    · intro kept last
      rw [List.rdropWhile_concat_pos _ _ _ (by simpa using last)] at kept
      have shorter := ( List.rdropWhile_prefix (fun c => decide (c = '0'.toUInt8))
        (digitChars others (units / 10))).length_le
      rw [kept, List.length_append, List.length_singleton] at shorter
      omega
    · exact fun last => List.rdropWhile_concat_neg _ _ _ (by simpa using last)

theorem digitChars_zeros_iff (count n : Nat) :
    (∀ c ∈ digitChars count n, c = '0'.toUInt8) ↔ n % 10 ^ count = 0 := by
  have zeros : digitChars count 0 = List.replicate count '0'.toUInt8 := by
    rw [digitChars, Decimal.digits_zero, List.map_replicate]
    rfl
  rw [← Nat.zero_mod (10 ^ count), ← digitChars_inj, zeros, List.eq_replicate_iff, length_digitChars,
    and_iff_right rfl]

/-- Only the zeros of the pattern are shown where the number has no other digits there. -/
theorem visibleFraction_least_iff {least others units fewer : Nat} :
    digitChars least fewer = visibleFraction least (least + others) units ↔
      fewer % 10 ^ least = units / 10 ^ others % 10 ^ least ∧ units % 10 ^ others = 0 := by
  have front : (digitChars (least + others) units).take least = digitChars least (units / 10 ^ others) := by
    rw [digitChars_append]
    exact List.take_left' (length_digitChars _ _)
  have rear : (digitChars (least + others) units).drop least = digitChars others units := by
    rw [digitChars_append]
    exact List.drop_left' (length_digitChars _ _)
  have zeros : (digitChars others units).rdropWhile (fun c => c = '0'.toUInt8) = [] ↔
      units % 10 ^ others = 0 := by
    rw [List.rdropWhile_eq_nil_iff, ← digitChars_zeros_iff]
    simp only [decide_eq_true_eq]
  rw [visibleFraction, front, rear, ← zeros, ← digitChars_inj]
  constructor
  · intro same
    have lengths := congrArg List.length same
    rw [List.length_append, length_digitChars, length_digitChars] at lengths
    have nothing : (digitChars others units).rdropWhile (fun c => c = '0'.toUInt8) = [] := by
      apply List.length_eq_zero_iff.mp
      omega
    rw [nothing, List.append_nil] at same
    exact ⟨same, nothing⟩
  · rintro ⟨same, nothing⟩
    rw [nothing, List.append_nil, same]

theorem le_most (p : DigitPattern) : p.least ≤ p.most := Nat.le_add_right _ _

/-- With all places shown. -/
theorem late_iff {p : DigitPattern} (x : ℚ) (some_ : 0 < p.most) :
    numeral (zeroPlaces p.integer) (roundedUnits p.most x / 10 ^ p.most) ++
        '.'.toUInt8 :: digitChars p.most (roundedUnits p.most x) = p.expansion x ↔
      p.least = p.most ∨ roundedUnits p.most x % 10 ≠ 0 := by
  have visible : digitChars p.most (roundedUnits p.most x) ≠ [] := by
    apply List.ne_nil_of_length_pos
    rw [length_digitChars]
    exact some_
  rw [expansion_fraction_iff, and_iff_right rfl, and_iff_right visible,
    visibleFraction_all_iff (le_most p) some_]

/-- Where the digits stop early, nothing is rounded up. -/
theorem roundedUnits_early {p : DigitPattern} {x : ℚ} (positive : 0 ≤ x) (early : StopsEarly p x) :
    roundedUnits p.least x = ⌊x * 10 ^ p.least⌋₊ := by
  have fraction := fractionOf_nonneg positive
  have units : x * 10 ^ p.least = ((⌊x⌋₊ * 10 ^ p.least : Nat) : ℚ) + 10 ^ p.least * fractionOf x := by
    rw [fractionOf]
    push_cast
    ring
  have zero : leadingUnits (fractionOf x) (p.least + 1) % 10 = 0 := early.2
  rw [roundedUnits_eq positive, zero, if_neg (by decide), units, add_comm (Nat.cast _),
    Nat.floor_add_natCast (by positivity), Nat.add_zero, Nat.add_comm]
  rfl

/-- With the zeros of the pattern only. -/
theorem early_iff {p : DigitPattern} {x : ℚ} (positive : 0 ≤ x) (early : StopsEarly p x) :
    numeral (zeroPlaces p.integer) (roundedUnits p.least x / 10 ^ p.least) ++
        '.'.toUInt8 :: digitChars p.least (roundedUnits p.least x) = p.expansion x ↔
      1 ≤ p.least ∧ x * 10 ^ p.most < ⌊x * 10 ^ p.least⌋₊ * 10 ^ (p.most - p.least) + 1 / 2 := by
  rcases Nat.exists_eq_add_of_le (le_most p) with ⟨others, most⟩
  have positive_ : 0 < 10 ^ others := Nat.pow_pos (by decide)
  have nonempty : digitChars p.least (roundedUnits p.least x) ≠ [] ↔ 1 ≤ p.least := by
    rw [← List.length_pos_iff, length_digitChars]
    rfl
  have lower : ((roundedUnits p.least x * 10 ^ others : Nat) : ℚ) ≤ x * 10 ^ p.most + 1 / 2 := by
    have floor := Nat.floor_le (mul_nonneg positive (pow_nonneg (by norm_num : (0 : ℚ) ≤ 10) p.least))
    have scaled := mul_le_mul_of_nonneg_right floor (pow_nonneg (by norm_num : (0 : ℚ) ≤ 10) others)
    rw [mul_assoc, ← pow_add, ← most] at scaled
    rw [roundedUnits_early positive early]
    push_cast
    linarith
  have units : roundedUnits p.most x = roundedUnits p.least x * 10 ^ others ↔
      x * 10 ^ p.most < ⌊x * 10 ^ p.least⌋₊ * 10 ^ (p.most - p.least) + 1 / 2 := by
    have exponent : p.most - p.least = others := by omega
    rw [roundedUnits, Nat.floor_eq_iff (by positivity), and_iff_right lower, exponent,
      roundedUnits_early positive early]
    push_cast
    constructor
    · intro upper
      linarith
    · intro less
      linarith
  rw [expansion_fraction_iff, nonempty, ← units, most, visibleFraction_least_iff, pow_add]
  constructor
  · rintro ⟨front, one, rear, zeros⟩
    rw [Nat.mul_comm, ← Nat.div_div_eq_div_mul] at front
    have whole := Nat.div_add_mod (roundedUnits p.least x) (10 ^ p.least)
    have whole' := Nat.div_add_mod (roundedUnits (p.least + others) x / 10 ^ others) (10 ^ p.least)
    have same : roundedUnits p.least x = roundedUnits (p.least + others) x / 10 ^ others := by
      rw [← whole, ← whole', front, rear]
    refine ⟨one, ?_⟩
    rw [same]
    exact (Nat.div_mul_cancel (Nat.dvd_of_mod_eq_zero zeros)).symm
  · rintro ⟨one, same⟩
    rw [same, Nat.mul_div_mul_right _ _ positive_, Nat.mul_div_cancel _ positive_, Nat.mul_mod_left]
    exact ⟨rfl, one, rfl, rfl⟩

/-! ## What the code gives -/

theorem roundedUnits_div {x : ℚ} (positive : 0 ≤ x) (places : Nat) : roundedUnits places x / 10 ^ places =
    ⌊x⌋₊ + (leadingUnits (fractionOf x) places +
      if 5 ≤ leadingUnits (fractionOf x) (places + 1) % 10 then 1 else 0) / 10 ^ places := by
  rw [roundedUnits_eq positive, Nat.mul_comm, Nat.mul_add_div (Nat.pow_pos (by decide))]

/-- The rounded number is at least the integer part. -/
theorem le_roundedUnits {x : ℚ} (positive : 0 ≤ x) (places : Nat) :
    ⌊x⌋₊ ≤ roundedUnits places x / 10 ^ places := by
  rw [roundedUnits_div positive]
  exact Nat.le_add_right _ _

/-- A new digit is one of the rounded number. -/
theorem newDigit_rounded {machine : Machine} (exact_ : machine.Exact) {p : DigitPattern} {x : ℚ}
    (positive : 0 ≤ x) (well : RoundsWell machine.logZero p x)
    (digits : leadingUnits (fractionOf x) (shownPlaces p x + 1) < 2 ^ 31)
    (new : NewDigit '.'.toUInt8 (writtenNumber machine {} p.bytes x)) :
    roundedUnits p.most x / 10 ^ p.most = 10 ^ writtenPrecision machine {} p.bytes x := by
  rcases @writtenPrecision_eq machine p x well.range well.zero with ⟨number, precision⟩
  have one : 1 ≤ writtenPrecision machine {} p.bytes x :=
    Nat.le_trans (minimum_pos _ _) (Nat.le_max_right _ _)
  have fraction := writtenFraction_digits exact_ p positive digits
  have small : leadingUnits (fractionOf x) (shownPlaces p x + 1) % 10 < 10 := Nat.mod_lt _ (by decide)
  have cut := leadingUnits_div (fractionOf x) (shownPlaces p x) 1
  have room : ⌊x⌋₊ < 10 ^ writtenPrecision machine {} p.bytes x := by
    rw [precision]
    exact lt_numeral _ _
  rw [Nat.pow_one] at cut
  rw [writtenNumber_concat, newDigit_iff one, fraction, digitChars_succ, List.dropLast_concat,
    List.getLastD_concat, five_le_digitChar small, cut, nines_iff, Nat.mod_eq_of_lt (leadingUnits_lt positive _), number,
    Nat.mod_eq_of_lt room] at new
  rcases new with ⟨⟨up, nines⟩, whole⟩
  have late : shownPlaces p x = p.most := by
    rw [shownPlaces]
    split
    next early =>
      rw [shownPlaces, if_pos early] at up
      have zero : leadingUnits (fractionOf x) (p.least + 1) % 10 = 0 := early.2
      omega
    next => rfl
  rw [late] at up nines
  rw [roundedUnits_div positive, if_pos up, nines, Nat.div_self (Nat.pow_pos (by decide)), whole]

/-- A number in range fits where its pattern is roomy. -/
theorem roomy_fits {machine : Machine} (exact_ : machine.Exact) {p : DigitPattern} {x : ℚ}
    (positive : 0 ≤ x) (room : p.Roomy x) (well : RoundsWell machine.logZero p x)
    (digits : 0 < p.most → leadingUnits (fractionOf x) (shownPlaces p x + 1) < 2 ^ 31) :
    Fits machine {} p.bytes x ∧ precisionOf machine (integerNumber machine x) ≤ 32 := by
  rcases @writtenPrecision_eq machine p x well.range well.zero with ⟨number, precision⟩
  have more := Nat.log_mono_right (b := 10) (le_roundedUnits positive p.most)
  have parts := room.1
  have roomy := room.2
  have narrow : writtenPrecision machine {} p.bytes x ≤ 32 := by
    rw [precision]
    split at roomy <;> omega
  refine ⟨⟨fun empty => absurd empty (List.cons_ne_nil _ _), ?_, fun _ => narrow, fun _ visible => ?_⟩, ?_⟩
  · rw [p.parts.1, p.parts.2, p.behind_places.2.2]
    refine ⟨parts, ?_⟩
    split at roomy <;> omega
  · have some_ : 0 < p.most := by
      rw [p.parts.2, ne_eq, p.behind_eq_nil] at visible
      omega
    have one : 1 ≤ writtenPrecision machine {} p.bytes x :=
      Nat.le_trans (minimum_pos _ _) (Nat.le_max_right _ _)
    have fraction := writtenFraction_digits exact_ p positive (digits some_)
    have length : (writtenNumber machine {} p.bytes x).length =
        writtenPrecision machine {} p.bytes x + (shownPlaces p x + 2) := by
      rw [writtenNumber, List.length_append, List.length_cons, length_digitChars, fraction,
        length_digitChars]
    have fewer := shownPlaces_le p x
    rw [if_neg (Nat.ne_of_gt some_)] at roomy
    rw [length, precision]
    split
    next new =>
      rw [newDigit_rounded exact_ positive well (digits some_) new, Nat.log_pow (by decide), precision] at roomy
      omega
    next => omega
  · exact Nat.le_trans (Nat.le_max_left _ _) narrow

/-- For conversions in range it is the pattern and the number that decide. -/
theorem shownText_iff {machine : Machine} (exact_ : machine.Exact) {p : DigitPattern} {x : ℚ}
    (positive : 0 ≤ x) (range : ⌊x⌋₊ < 2 ^ 32)
    (zero : ⌊x⌋₊ = 0 → (machine.logZero + 1) % 2 ^ 32 ≤ max 1 (zeroPlaces p.integer))
    (digits : 0 < p.most → leadingUnits (fractionOf x) (shownPlaces p x + 1) < 2 ^ 31) :
    shownText machine p.bytes x = p.expansion x ↔
      (p.most = 0 → fractionOf x < 1 / 2) ∧
      (StopsEarly p x → 1 ≤ p.least ∧
        x * 10 ^ p.most < ⌊x * 10 ^ p.least⌋₊ * 10 ^ (p.most - p.least) + 1 / 2) ∧
      (0 < p.most → ¬ StopsEarly p x → p.least = p.most ∨ roundedUnits p.most x % 10 ≠ 0) := by
  rcases Nat.eq_zero_or_pos p.most with none_ | some_
  · have late : ¬ StopsEarly p x := fun early => by
      have less := early.1
      omega
    rw [shownText_whole range zero none_, expansion_whole_iff positive none_]
    constructor
    · exact fun less => ⟨fun _ => less, fun early => absurd early late, fun some_ => by omega⟩
    · exact fun all => all.1 none_
  · have apart : p.most ≠ 0 := Nat.ne_of_gt some_
    rw [shownText_fraction exact_ positive range zero some_ (digits some_), shownPlaces]
    split
    next early =>
      rw [early_iff positive early]
      constructor
      · exact fun fine => ⟨fun none_ => absurd none_ apart, fun _ => fine, fun _ late => absurd early late⟩
      · exact fun all => all.2.1 early
    next late =>
      rw [late_iff x some_]
      constructor
      · exact fun fine => ⟨fun none_ => absurd none_ apart, fun early => absurd early late, fun _ _ => fine⟩
      · exact fun all => all.2.2 some_ late

/-- Where all is well the text is the expansion. -/
theorem RoundsWell.right {logZero : Nat} {p : DigitPattern} {x : ℚ} (well : RoundsWell logZero p x)
    (positive : 0 ≤ x) (room : p.Roomy x) : RoundsRight logZero p x := by
  rintro machine exact_ rfl
  have digits : 0 < p.most → leadingUnits (fractionOf x) (shownPlaces p x + 1) < 2 ^ 31 := by
    intro some_
    rw [shownPlaces]
    split
    next early => exact (well.early early).2.1
    next late => exact (well.late some_ late).2
  have plain : groupingPlace (integerPart {} p.bytes) = 0 := p.parts.1 ▸ p.integer_grouping
  rcases roomy_fits exact_ positive room well digits with ⟨fits, accepted⟩
  refine (xfFormat_text_iff (DigitPattern.passes room) plain).mpr ⟨fits, accepted, ?_⟩
  exact (shownText_iff exact_ positive well.range well.zero digits).mpr
    ⟨well.whole, fun early => ⟨(well.early early).1, (well.early early).2.2⟩,
      fun some_ late => (well.late some_ late).1⟩

/-! ## What it may give out of range -/

/-- A machine on which conversions out of range give a digit. -/
def strayMachine (logZero : Nat) (bound : logZero < 2 ^ 32) (digit : Nat) : Machine where
  toUnsigned := fun _ => 1
  logZero := logZero
  scaled := fun i fraction =>
    if ⌊10 ^ (i + 1) * fraction⌋ < 2 ^ 31 then ⌊10 ^ (i + 1) * fraction⌋ else digit
  unsigned_lt := fun _ => by decide
  logZero_lt := bound

theorem strayMachine_exact {logZero : Nat} (bound : logZero < 2 ^ 32) (digit : Nat) :
    (strayMachine logZero bound digit).Exact := fun _ _ _ range => if_pos range

/-- The digits in front of the dot are those of the number, or of the next one. -/
theorem shown_number {machine : Machine} {p : DigitPattern} {x : ℚ}
    (small : integerNumber machine x + 1 < 10 ^ writtenPrecision machine {} p.bytes x)
    (same : shownText machine p.bytes x = p.expansion x) :
    writtenPrecision machine {} p.bytes x = max (zeroPlaces p.integer)
        (Nat.log 10 (roundedUnits p.most x / 10 ^ p.most) + 1) ∧
      roundedUnits p.most x / 10 ^ p.most ≤ integerNumber machine x + 1 := by
  have shown : (shownDigits machine p.bytes x).1 = writtenPrecision machine {} p.bytes x ∧
      (shownDigits machine p.bytes x).2 ≤ integerNumber machine x + 1 := by
    have fewer : ¬ integerNumber machine x % 10 ^ writtenPrecision machine {} p.bytes x + 1 =
        10 ^ writtenPrecision machine {} p.bytes x := by
      rw [Nat.mod_eq_of_lt (by omega)]
      omega
    rw [shownDigits]
    split
    next => exact ⟨rfl, Nat.le_succ _⟩
    next =>
      rw [roundedDigits, if_neg fewer]
      split
      next => exact ⟨rfl, Nat.le_refl _⟩
      next => exact ⟨rfl, Nat.le_succ _⟩
  have dot : shownFraction machine p.bytes x = [] ∨
      (shownFraction machine p.bytes x).head? = some '.'.toUInt8 := by
    rw [shownFraction]
    split
    next => exact .inl rfl
    next => exact .inr rfl
  have plain : '.'.toUInt8 ∉ digitChars (shownDigits machine p.bytes x).1
      (shownDigits machine p.bytes x).2 := fun inside => (digitChars_plain _ _ _ inside).1 rfl
  have fronts : digitChars (shownDigits machine p.bytes x).1 (shownDigits machine p.bytes x).2 =
      numeral (zeroPlaces p.integer) (roundedUnits p.most x / 10 ^ p.most) := by
    rw [shownText, DigitPattern.expansion] at same
    split at same
    next => exact ((append_dot_inj plain (dot_not_mem_numeral _ _) dot (.inl rfl)).mp same).1
    next => exact ((append_dot_inj plain (dot_not_mem_numeral _ _) dot (.inr rfl)).mp same).1
  rw [shown.1, digitChars_eq_numeral (Nat.lt_of_le_of_lt shown.2 small)] at fronts
  exact ⟨fronts.1, fronts.2 ▸ shown.2⟩

/-- An integer part out of range is shown as another one. -/
theorem stray_range {logZero : Nat} (bound : logZero < 2 ^ 32) {p : DigitPattern} {x : ℚ}
    (positive : 0 ≤ x)
    (same : shownText (strayMachine logZero bound 1) p.bytes x = p.expansion x) : ⌊x⌋₊ < 2 ^ 32 := by
  by_contra large
  have number : integerNumber (strayMachine logZero bound 1) x = 1 := if_neg large
  have one : 1 ≤ writtenPrecision (strayMachine logZero bound 1) {} p.bytes x :=
    Nat.le_trans (minimum_pos _ _) (Nat.le_max_right _ _)
  have ten := Nat.pow_le_pow_right (n := 10) (by decide) one
  have units := (shown_number (by omega) same).2
  have more := le_roundedUnits positive p.most
  omega

/-- A zero has no more digits than the pattern asks for. -/
theorem stray_zero {logZero : Nat} (bound : logZero < 2 ^ 32) {p : DigitPattern} {x : ℚ}
    (same : shownText (strayMachine logZero bound 1) p.bytes x = p.expansion x) (zero : ⌊x⌋₊ = 0) :
    (logZero + 1) % 2 ^ 32 ≤ max 1 (zeroPlaces p.integer) := by
  have number : integerNumber (strayMachine logZero bound 1) x = 0 := by
    rw [integerNumber, zero, if_pos (by decide)]
  have one : 1 ≤ writtenPrecision (strayMachine logZero bound 1) {} p.bytes x :=
    Nat.le_trans (minimum_pos _ _) (Nat.le_max_right _ _)
  have ten := Nat.pow_le_pow_right (n := 10) (by decide) one
  rcases shown_number (by omega) same with ⟨precision, units⟩
  have small : Nat.log 10 (roundedUnits p.most x / 10 ^ p.most) = 0 := Nat.log_of_lt (by omega)
  have written : writtenPrecision (strayMachine logZero bound 1) {} p.bytes x =
      max ((logZero + 1) % 2 ^ 32) (max 1 (zeroPlaces p.integer)) := by
    rw [writtenPrecision, number, precisionOf, if_pos rfl, p.parts.1, integerPlaces_plain]
    rfl
  rw [written, small] at precision
  omega

/-- One digit more, where the digits do not stop before it. -/
theorem fractionChars_concat {machine : Machine} {fraction : ℚ} {least count i : Nat}
    (onward : i ≤ least → least < i + count → (machine.scaled least fraction).tmod 10 ≠ 0) :
    fractionChars machine fraction least (count + 1) i = fractionChars machine fraction least count i ++
      [digitChar ((machine.scaled (i + count) fraction).tmod 10)] := by
  have step : ∀ count i, fractionChars machine fraction least (count + 1) i =
      if (machine.scaled i fraction).tmod 10 ≠ 0 then
        digitChar ((machine.scaled i fraction).tmod 10) ::
          fractionChars machine fraction least count (i + 1)
      else '0'.toUInt8 ::
        (if i = least then [] else fractionChars machine fraction least count (i + 1)) := fun _ _ => rfl
  induction count generalizing i with
  | zero =>
      rw [step, fractionChars, Nat.add_zero]
      split
      next => rfl
      next zero =>
        rw [not_ne_iff.mp zero, ite_self]
        rfl
  | succ count inductionHypothesis =>
      have next_ : i + (count + 1) = i + 1 + count := by omega
      have later := inductionHypothesis (i := i + 1) fun le inside => onward (by omega) (by omega)
      rw [step (count + 1), later, step count, next_]
      split
      next => rfl
      next zero =>
        have other : i ≠ least := by
          rintro rfl
          exact zero (onward (Nat.le_refl _) (by omega))
        rw [if_neg other, if_neg other]
        rfl

theorem strayMachine_digit {logZero : Nat} (bound : logZero < 2 ^ 32) {digit : Nat} (small : digit < 10)
    {fraction : ℚ} (positive : 0 ≤ fraction) (i : Nat) :
    ((strayMachine logZero bound digit).scaled i fraction).tmod 10 =
      (if leadingUnits fraction (i + 1) < 2 ^ 31 then leadingUnits fraction (i + 1) % 10 else digit : Nat) := by
  split
  next range => exact (strayMachine_exact bound digit).digit positive range
  next beyond =>
    have floor : ((leadingUnits fraction (i + 1) : Nat) : Int) = ⌊10 ^ (i + 1) * fraction⌋ :=
      Int.natCast_floor_eq_floor (by positivity)
    have outside : ¬ ⌊10 ^ (i + 1) * fraction⌋ < 2 ^ 31 := by
      rw [← floor]
      exact_mod_cast beyond
    rw [strayMachine]
    dsimp only
    rw [if_neg outside]
    exact congrArg Nat.cast (Nat.mod_eq_of_lt small)

/-- The last digit that is shown where the one for the rounding is out of range. -/
theorem stray_last {logZero : Nat} (bound : logZero < 2 ^ 32) {digit : Nat} (small : digit < 10)
    (visible : digit ≠ 0) {p : DigitPattern} {x : ℚ} (positive : 0 ≤ x) (some_ : 0 < p.most)
    (beyond : ¬ leadingUnits (fractionOf x) (shownPlaces p x + 1) < 2 ^ 31) {d : Nat}
    (last : d = if leadingUnits (fractionOf x) p.most < 2 ^ 31 then
      leadingUnits (fractionOf x) p.most % 10 else digit) :
    (shownText (strayMachine logZero bound digit) p.bytes x).getLast? =
      some (digitChar (if 5 ≤ digit then (d + 1) % 10 else d : Nat)) := by
  have fraction := fractionOf_nonneg positive
  have larger : ¬ leadingUnits (fractionOf x) (p.most + 1) < 2 ^ 31 := fun inside =>
    beyond (Nat.lt_of_le_of_lt (leadingUnits_mono _ (Nat.succ_le_succ (shownPlaces_le p x))) inside)
  -- The digits go on, since there is no zero in range at which they would stop.
  have onward : p.least < p.most →
      ((strayMachine logZero bound digit).scaled p.least (fractionOf x)).tmod 10 ≠ 0 := by
    intro inside
    rw [strayMachine_digit bound small fraction]
    split
    next range =>
      intro zero
      have early : StopsEarly p x := ⟨inside, Int.natCast_eq_zero.mp zero⟩
      rw [shownPlaces, if_pos early] at beyond
      exact beyond range
    next => exact fun zero => visible (Int.natCast_eq_zero.mp zero)
  rcases Nat.exists_eq_add_of_lt some_ with ⟨front, most⟩
  rw [Nat.zero_add] at most
  have places : fractionPlaces {} (fractionalPart {} p.bytes) = (p.least, p.most) := by
    rw [p.parts.2, fractionPlaces_plain, p.behind_places.1, p.behind_places.2.1]
  have more : fractionalPart {} p.bytes ≠ [] := by
    rw [p.parts.2, ne_eq, p.behind_eq_nil]
    omega
  have chars : writtenFraction (strayMachine logZero bound digit) {} p.bytes x =
      fractionChars (strayMachine logZero bound digit) (fractionOf x) p.least front 0 ++
        [digitChar (d : Nat)] ++ [digitChar (digit : Nat)] := by
    have written : writtenFraction (strayMachine logZero bound digit) {} p.bytes x =
        fractionChars (strayMachine logZero bound digit) (fractionOf x) p.least (p.most + 1) 0 := by
      rw [writtenFraction, places]
      rfl
    rw [written, fractionChars_concat fun _ inside => onward (by omega), Nat.zero_add,
      strayMachine_digit bound small fraction p.most, if_neg larger, most,
      fractionChars_concat fun _ inside => onward (by omega), Nat.zero_add,
      strayMachine_digit bound small fraction front, ← most, last]
  have digit_ : d < 10 := by
    rw [last]
    split
    next => exact Nat.mod_lt _ (by decide)
    next => exact small
  rw [shownText, shownFraction, if_neg more, chars, List.dropLast_concat, List.getLastD_concat, roundedFraction]
  simp only [five_le_digitChar small]
  have ends : ∀ (ints front : Bytes) (c : UInt8),
      (ints ++ '.'.toUInt8 :: (front ++ [c])).getLast? = some c := by
    intro ints front c
    rw [← List.cons_append, ← List.append_assoc]
    exact List.getLast?_concat
  rcases digitChar_facts digit_ with ⟨dot, -, -, -, nine⟩
  split
  next up =>
    rw [carry_concat, if_neg dot]
    by_cases full : d = 9
    · rw [if_pos (nine.mpr full), ends, full]
      rfl
    · have next_ : (d + 1) % 10 = d + 1 := Nat.mod_eq_of_lt (by omega)
      rw [if_neg fun char => full (nine.mp char), ends, digitChar_succ (by omega), next_]
  next down => exact ends _ _ _

/-- The text is the expansion, whatever is out of range, exactly where nothing is out of range and
the early end of the digits and the missing rounding do no harm. -/
theorem rounding_right_iff {logZero : Nat} (bound : logZero < 2 ^ 32) {p : DigitPattern} {x : ℚ}
    (positive : 0 ≤ x) (room : p.Roomy x) : RoundsRight logZero p x ↔ RoundsWell logZero p x := by
  constructor
  · intro right
    have plain : groupingPlace (integerPart {} p.bytes) = 0 := p.parts.1 ▸ p.integer_grouping
    have same : ∀ digit, shownText (strayMachine logZero bound digit) p.bytes x = p.expansion x :=
      fun digit => ((xfFormat_text_iff (DigitPattern.passes room) plain).mp
        (right _ (strayMachine_exact bound digit) rfl)).2.2
    have range := stray_range bound positive (same 1)
    have zero := stray_zero bound (same 1)
    have digits : 0 < p.most → leadingUnits (fractionOf x) (shownPlaces p x + 1) < 2 ^ 31 := by
      intro some_
      by_contra beyond
      -- The last digit is not the same for a digit that rounds up as for one that does not.
      by_cases inside : leadingUnits (fractionOf x) p.most < 2 ^ 31
      · have one := stray_last bound (by decide : 1 < 10) (by decide) positive some_ beyond (if_pos inside).symm
        have nine := stray_last bound (by decide : 9 < 10) (by decide) positive some_ beyond (if_pos inside).symm
        rw [same] at one nine
        have small : leadingUnits (fractionOf x) p.most % 10 < 10 := Nat.mod_lt _ (by decide)
        have apart : ∀ d < 10, digitChar (d : Nat) ≠ digitChar ((d + 1) % 10 : Nat) := by decide
        exact apart _ small (Option.some.inj (one.symm.trans nine))
      · have one := stray_last bound (by decide : 1 < 10) (by decide) positive some_ beyond (if_neg inside).symm
        have nine := stray_last bound (by decide : 9 < 10) (by decide) positive some_ beyond (if_neg inside).symm
        rw [same] at one nine
        have apart : digitChar (1 : Nat) ≠ digitChar ((9 + 1) % 10 : Nat) := by decide
        exact apart (Option.some.inj (one.symm.trans nine))
    rcases (shownText_iff (strayMachine_exact bound 1) positive range zero digits).mp (same 1) with
      ⟨whole, early, late⟩
    refine ⟨range, zero, whole, fun stops => ⟨(early stops).1, ?_, (early stops).2⟩, fun some_ onward =>
      ⟨late some_ onward, ?_⟩⟩
    · have inside := digits (Nat.lt_of_le_of_lt (Nat.zero_le _) stops.1)
      rw [shownPlaces, if_pos stops] at inside
      exact inside
    · have inside := digits some_
      rw [shownPlaces, if_neg onward] at inside
      exact inside
  · exact fun well => well.right positive room

/-- A zero, a dot and places behind it. -/
def decimalPattern (zeros others : Nat) : DigitPattern where
  integer := lit "0"
  fraction := some (zeros, others)
  digits := List.forall_mem_singleton.mpr (.inl rfl)

theorem rounding_right_quarter :
    (decimalPattern 1 1).bytes = lit "0.0#" ∧ (decimalPattern 1 1).Roomy (5 / 4) ∧
      (RoundsRight 0 (decimalPattern 1 1) (5 / 4) ↔ RoundsWell 0 (decimalPattern 1 1) (5 / 4)) := by
  have room : (decimalPattern 1 1).Roomy (5 / 4) := by decide +kernel
  exact ⟨rfl, room, rounding_right_iff (by decide) (by norm_num) room⟩

/-- A zero behind the dot ends the digits, whatever stands behind it. -/
theorem digits_end_at_zero :
    ¬ ∀ (logZero : Nat) (p : DigitPattern) (x : ℚ), logZero < 2 ^ 32 → 0 ≤ x → p.Roomy x →
      RoundsRight logZero p x := by
  intro always
  have room : (decimalPattern 0 2).Roomy (105 / 100) := by decide +kernel
  have shown : xfFormat commonMachine [] (.finite false (105 / 100)) (decimalPattern 0 2).bytes none =
      some (some (lit "1.")) := by decide +kernel
  have asked : (decimalPattern 0 2).expansion (105 / 100) = lit "1.05" := by decide +kernel
  have exact_ : commonMachine.Exact := fun _ _ _ range => if_pos range
  have right := always 0 _ _ (by decide) (by norm_num) room commonMachine exact_ rfl
  rw [asked] at right
  exact absurd (shown.symm.trans right) (by decide)

end NumberFormat

end TurboXSL
