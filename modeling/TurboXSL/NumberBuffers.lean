import TurboXSL.NumberFormat

namespace TurboXSL

open Library Output

/-!
# The buffers of `format-number`

A pattern of up to 120 bytes is copied into two buffers of 64, and the digits
go into buffers of 32.  Whether all of them fit depends on where the pattern is
split, on how many digits it asks for, on the digit behind the least number of
digits, and on the rounding.
-/

namespace NumberFormat

/-- What stands in front of the decimal separator. -/
def integerPart (symbols : Symbols) (pattern : Bytes) : Bytes :=
  match strstr symbols.decimalSeparatorSign pattern with
  | some position => pattern.take position
  | none => pattern

/-- What stands behind the decimal separator. -/
def fractionalPart (symbols : Symbols) (pattern : Bytes) : Bytes :=
  match strstr symbols.decimalSeparatorSign pattern with
  | some position => pattern.drop (position + 1)
  | none => []

/-- The number of digits that are written in front of the separator. -/
def writtenPrecision (machine : Machine) (symbols : Symbols) (pattern : Bytes) (magnitude : ℚ) : Nat :=
  max (precisionOf machine (integerNumber machine magnitude))
    (integerPlaces symbols (integerPart symbols pattern)).minimum

/-- The digits that are written behind the separator, the last of them for the rounding. -/
def writtenFraction (machine : Machine) (symbols : Symbols) (pattern : Bytes) (magnitude : ℚ) : Bytes :=
  fractionChars machine (magnitude - ⌊magnitude⌋₊)
    (fractionPlaces symbols (fractionalPart symbols pattern)).1
    ((fractionPlaces symbols (fractionalPart symbols pattern)).2 + 1) 0

/-- The number string before it is rounded. -/
def writtenNumber (machine : Machine) (symbols : Symbols) (pattern : Bytes) (magnitude : ℚ) : Bytes :=
  digitChars (writtenPrecision machine symbols pattern magnitude) (integerNumber machine magnitude) ++
    byteAt symbols.decimalSeparatorSign :: writtenFraction machine symbols pattern magnitude

/-- The last digit rounds up, and the others are all nines. -/
def NewDigit (separator : UInt8) (chars : Bytes) : Prop :=
  '5'.toUInt8 ≤ chars.getLastD 0 ∧ chars.head? ≠ some separator ∧
    ∀ c ∈ chars.dropLast, c = '9'.toUInt8 ∨ c = separator

instance (separator : UInt8) (chars : Bytes) : Decidable (NewDigit separator chars) :=
  inferInstanceAs (Decidable (_ ∧ _))

/-- Everything has room: the parts of the pattern, the digits in front of the
separator, and with a fraction the whole number and the digit that the rounding
may add.  A number with more digits than that is refused. -/
structure Fits (machine : Machine) (symbols : Symbols) (pattern : Bytes) (magnitude : ℚ) : Prop where
  split : symbols.decimalSeparatorSign = [] → pattern ≠ []
  parts : (integerPart symbols pattern).length ≤ 64 ∧ (fractionalPart symbols pattern).length ≤ 64
  digits : precisionOf machine (integerNumber machine magnitude) ≤ 32 →
    writtenPrecision machine symbols pattern magnitude ≤ 32
  number : precisionOf machine (integerNumber machine magnitude) ≤ 32 →
    fractionalPart symbols pattern ≠ [] →
    (writtenNumber machine symbols pattern magnitude).length +
      (if NewDigit (byteAt symbols.decimalSeparatorSign)
        (writtenNumber machine symbols pattern magnitude) then 1 else 0) ≤ 32

theorem strstr_le {needle text : Bytes} {position : Nat} (found : strstr needle text = some position) :
    position + needle.length ≤ text.length := by
  induction text generalizing position with
  | nil =>
      rw [strstr] at found
      split at found
      next empty =>
        cases found
        rw [empty, Nat.zero_add]
      next => cases found
  | cons c rest inductionHypothesis =>
      rw [strstr] at found
      split at found
      next here =>
        cases found
        rw [Nat.zero_add]
        exact here.length_le
      next elsewhere =>
        rcases Option.map_eq_some_iff.mp found with ⟨before, later, rfl⟩
        have inside := inductionHypothesis later
        rw [List.length_cons]
        omega

/-- What is behind the separator is in the pattern, unless both are empty. -/
theorem behind_separator {separator pattern : Bytes} {position : Nat}
    (found : strstr separator pattern = some position) :
    position + 1 ≤ pattern.length ↔ (separator = [] → pattern ≠ []) := by
  have inside := strstr_le found
  constructor
  · rintro more - rfl
    exact absurd more (Nat.not_succ_le_zero position)
  · intro visible
    cases separator with
    | cons c rest =>
        rw [List.length_cons] at inside
        omega
    | nil =>
        cases pattern with
        | nil => exact absurd rfl (visible rfl)
        | cons d pattern =>
            rw [strstr, if_pos List.nil_prefix] at found
            cases found
            exact Nat.succ_pos _

/-- The pattern is split where its parts have room. -/
theorem splitPattern_eq (symbols : Symbols) (pattern : Bytes) :
    splitPattern symbols pattern =
      if (symbols.decimalSeparatorSign = [] → pattern ≠ []) ∧
        (integerPart symbols pattern).length ≤ 64 ∧ (fractionalPart symbols pattern).length ≤ 64 then
        some (integerPart symbols pattern, fractionalPart symbols pattern)
      else none := by
  rw [splitPattern, integerPart, fractionalPart]
  cases found : strstr symbols.decimalSeparatorSign pattern with
  | some position =>
      have behind := behind_separator found
      dsimp only
      by_cases visible : symbols.decimalSeparatorSign = [] → pattern ≠ []
      · rw [if_neg (Nat.not_lt.mpr (behind.mpr visible)), copied, copied]
        by_cases front : (pattern.take position).length ≤ 64
        · by_cases rear : (pattern.drop (position + 1)).length ≤ 64
          · rw [if_pos front, if_pos rear, if_pos ⟨visible, front, rear⟩]
            rfl
          · rw [if_pos front, if_neg rear, if_neg fun all => rear all.2.2]
            rfl
        · have failed : ¬ ((symbols.decimalSeparatorSign = [] → pattern ≠ []) ∧
              (pattern.take position).length ≤ 64 ∧ (pattern.drop (position + 1)).length ≤ 64) :=
            fun all => front all.2.1
          rw [if_neg front, if_neg failed]
          rfl
      · rw [if_pos (Nat.lt_of_not_le fun more => visible (behind.mp more)),
          if_neg fun all => visible all.1]
  | none =>
      have visible : symbols.decimalSeparatorSign = [] → pattern ≠ [] := by
        rintro empty rfl
        rw [empty, strstr, if_pos rfl] at found
        cases found
      dsimp only
      rw [copied]
      by_cases whole : pattern.length ≤ 64
      · rw [if_pos whole, if_pos ⟨visible, whole, Nat.zero_le 64⟩]
        rfl
      · rw [if_neg whole, if_neg fun all => whole all.2.1]
        rfl

/-- The rounding needs room for a new digit. -/
theorem roundBuffer_isSome_iff (separator : UInt8) (precision : Nat) {chars : Bytes}
    (two : 2 ≤ chars.length) : (roundBuffer separator precision chars).isSome = true ↔
      (NewDigit separator chars → chars.length < 32) := by
  have inside : chars.length - 1 < chars.length := by omega
  have visible : chars ≠ [] := List.ne_nil_of_length_pos (by omega)
  have last : chars.getLastD 0 = chars[chars.length - 1] := by
    rw [List.getLastD_eq_getLast?, List.getLast?_eq_getElem?, List.getElem?_eq_getElem inside]
    rfl
  rw [roundBuffer, List.getElem?_eq_getElem inside]
  simp only [Option.bind_eq_bind, Option.bind_some]
  split
  next up =>
    have length : (chars.set (chars.length - 1) 0).length = chars.length := List.length_set
    rcases @carryLoop_spec separator (chars.length - 1) (chars.set (chars.length - 1) 0)
      (by rw [length]; omega) with ⟨after, overflow, run, same, iff⟩
    have front : (chars.set (chars.length - 1) 0).take (chars.length - 1) = chars.dropLast := by
      rw [List.take_set_of_le (Nat.le_refl _), List.dropLast_eq_take]
    have head : (chars.set (chars.length - 1) 0)[0]? = chars.head? := by
      rw [List.getElem?_set_ne (by omega), List.head?_eq_getElem?]
    rw [front, head] at iff
    have new : overflow = true ↔ NewDigit separator chars := by
      rw [iff, NewDigit, last]
      exact ⟨fun known => ⟨up, known.2⟩, fun known => ⟨by omega, known.2⟩⟩
    rw [run]
    simp only [Option.bind_some]
    cases overflow with
    | false =>
        refine iff_of_true rfl fun known => ?_
        exact absurd (new.mpr known) Bool.false_ne_true
    | true =>
        have known := new.mp rfl
        rw [if_pos rfl, put, same, length]
        by_cases room : chars.length < 32
        · rw [if_pos room]
          exact iff_of_true rfl fun _ => room
        · rw [if_neg room]
          exact iff_of_false (by simp) fun all => room (all known)
  next down => exact iff_of_true rfl fun known => absurd (last ▸ known.1) down

/-- A pattern that passes the checks, with the symbols of its format. -/
def Passes (formats : List DecimalFormat) (formatName : Option Bytes) (pattern : Bytes)
    (symbols : Symbols) : Prop :=
  pattern.length ≤ 120 ∧ chosenSymbols formats formatName = some symbols ∧
    strstr symbols.patternSeparatorSign pattern = none ∧ strstr symbols.percentSign pattern = none

theorem xfFormat_passes (machine : Machine) {formats : List DecimalFormat} {formatName : Option Bytes}
    {pattern : Bytes} {symbols : Symbols} (passes : Passes formats formatName pattern symbols)
    (negative : Bool) (magnitude : ℚ) :
    xfFormat machine formats (.finite negative magnitude) pattern formatName =
      formatFinite machine symbols pattern negative magnitude := by
  rcases passes with ⟨short, chosen, noSeparator, noPercent⟩
  rw [xfFormat, if_neg (Nat.not_lt.mpr short), chosen]
  dsimp only
  rw [formatWith, noSeparator, noPercent]
  rfl

theorem minimum_pos (symbols : Symbols) (part : Bytes) : 1 ≤ (integerPlaces symbols part).minimum := by
  rw [integerPlaces]
  dsimp only
  split <;> omega

theorem fractionChars_ne_nil (machine : Machine) (fraction : ℚ) (minimum count i : Nat) :
    fractionChars machine fraction minimum (count + 1) i ≠ [] := by
  rw [fractionChars]
  split <;> exact List.cons_ne_nil _ _

/-- There is a digit in front of the separator and one behind it. -/
theorem two_le_writtenNumber (machine : Machine) (symbols : Symbols) (pattern : Bytes) (magnitude : ℚ) :
    2 ≤ (writtenNumber machine symbols pattern magnitude).length := by
  have one : 1 ≤ writtenPrecision machine symbols pattern magnitude :=
    Nat.le_trans (minimum_pos symbols _) (Nat.le_max_right _ _)
  rw [writtenNumber, List.length_append, length_digitChars, List.length_cons]
  omega

/-- The number string and how many digits of it are in front of the separator. -/
def numberString (machine : Machine) (symbols : Symbols) (pattern : Bytes) (magnitude : ℚ) :
    Option (Bytes × Nat) :=
  if fractionalPart symbols pattern = [] then
    some (digitChars (writtenPrecision machine symbols pattern magnitude)
      (integerNumber machine magnitude), writtenPrecision machine symbols pattern magnitude)
  else roundBuffer (byteAt symbols.decimalSeparatorSign)
    (writtenPrecision machine symbols pattern magnitude) (writtenNumber machine symbols pattern magnitude)

/-- The function where the buffers have room up to the rounding. -/
theorem formatFinite_eq {machine : Machine} {symbols : Symbols} {pattern : Bytes} (negative : Bool)
    {magnitude : ℚ} (split : symbols.decimalSeparatorSign = [] → pattern ≠ [])
    (parts : (integerPart symbols pattern).length ≤ 64 ∧ (fractionalPart symbols pattern).length ≤ 64) :
    formatFinite machine symbols pattern negative magnitude =
      if 32 < precisionOf machine (integerNumber machine magnitude) then some none
      else if 32 < writtenPrecision machine symbols pattern magnitude then none
      else if fractionalPart symbols pattern ≠ [] ∧
        32 < (writtenNumber machine symbols pattern magnitude).length then none
      else (numberString machine symbols pattern magnitude).bind fun shown =>
        (putAll 128 (separated (integerPlaces symbols (integerPart symbols pattern)).grouping shown.2
          (byteAt symbols.groupingSign) 0 shown.1)
          (if negative then [byteAt symbols.minusSymbol] else [])).bind
            fun output => some (some (untilNul output)) := by
  rw [formatFinite, splitPattern_eq, if_pos ⟨split, parts⟩]
  have empty : ([] : Bytes).length ≤ 32 := Nat.zero_le 32
  simp only [Option.bind_eq_bind, Option.bind_some, integerLoop_eq, outputLoop_eq, fractionLoop_eq]
  split
  next => rfl
  next refused =>
    have precision : max (precisionOf machine (integerNumber machine magnitude))
        (integerPlaces symbols (integerPart symbols pattern)).minimum =
        writtenPrecision machine symbols pattern magnitude := rfl
    have first := putAll_eq empty (digitChars (writtenPrecision machine symbols pattern magnitude)
      (integerNumber machine magnitude)).reverse
    have second := putAll_eq empty (digitChars (writtenPrecision machine symbols pattern magnitude)
      (integerNumber machine magnitude))
    rw [List.length_reverse, length_digitChars, List.length_nil, Nat.zero_add, List.nil_append] at first
    rw [length_digitChars, List.length_nil, Nat.zero_add, List.nil_append] at second
    rw [precision, first]
    by_cases wide : 32 < writtenPrecision machine symbols pattern magnitude
    · rw [if_pos wide, if_neg (Nat.not_le.mpr wide)]
      rfl
    · have narrow := Nat.not_lt.mp wide
      rw [if_pos narrow] at second
      rw [if_neg wide, if_pos narrow, Option.bind_some, List.reverse_reverse, second, Option.bind_some,
        numberString]
      by_cases none_ : fractionalPart symbols pattern = []
      · have bare : ¬ 0 < (fractionalPart symbols pattern).length := by
          rw [none_]
          exact Nat.lt_irrefl 0
        have plain : ¬ (fractionalPart symbols pattern ≠ [] ∧
            32 < (writtenNumber machine symbols pattern magnitude).length) := fun both => both.1 none_
        rw [if_neg bare, if_neg plain, if_pos none_]
      · have more : 0 < (fractionalPart symbols pattern).length := List.length_pos_iff.mpr none_
        have room : (digitChars (writtenPrecision machine symbols pattern magnitude)
            (integerNumber machine magnitude)).length ≤ 32 := by
          rw [length_digitChars]
          exact narrow
        have whole : (put 32 (digitChars (writtenPrecision machine symbols pattern magnitude)
              (integerNumber machine magnitude)) (byteAt symbols.decimalSeparatorSign)).bind
              (putAll 32 (writtenFraction machine symbols pattern magnitude)) =
            if (writtenNumber machine symbols pattern magnitude).length ≤ 32 then
              some (writtenNumber machine symbols pattern magnitude) else none := by
          have together := putAll_eq room (byteAt symbols.decimalSeparatorSign ::
            writtenFraction machine symbols pattern magnitude)
          rw [← List.length_append] at together
          exact together
        have rounded := Option.bind_assoc (put 32 (digitChars (writtenPrecision machine symbols pattern
            magnitude) (integerNumber machine magnitude)) (byteAt symbols.decimalSeparatorSign))
          (putAll 32 (writtenFraction machine symbols pattern magnitude))
          (roundBuffer (byteAt symbols.decimalSeparatorSign)
            (writtenPrecision machine symbols pattern magnitude))
        rw [whole, writtenFraction] at rounded
        rw [if_pos more, if_neg none_, ← rounded]
        by_cases long : 32 < (writtenNumber machine symbols pattern magnitude).length
        · have both : fractionalPart symbols pattern ≠ [] ∧
              32 < (writtenNumber machine symbols pattern magnitude).length := ⟨none_, long⟩
          rw [if_pos both, if_neg (Nat.not_le.mpr long)]
          rfl
        · have neither : ¬ (fractionalPart symbols pattern ≠ [] ∧
              32 < (writtenNumber machine symbols pattern magnitude).length) := fun both => long both.2
          rw [if_neg neither, if_pos (Nat.not_lt.mp long)]
          rfl

/-- Rounding in the buffer does not change how much of it is shown. -/
theorem roundBuffer_length {separator : UInt8} {precision : Nat} {chars : Bytes} {shown : Bytes × Nat}
    (rounded : roundBuffer separator precision chars = some shown) : shown.1.length = chars.length := by
  have length : (chars.set (chars.length - 1) 0).length = chars.length := List.length_set
  rw [roundBuffer] at rounded
  rcases Option.bind_eq_some_iff.mp rounded with ⟨last, -, rounded⟩
  split at rounded
  next up =>
    rcases @carryLoop_spec separator (chars.length - 1) (chars.set (chars.length - 1) 0)
      (by rw [length]; omega) with ⟨after, overflow, run, same, -⟩
    simp only [run, Option.bind_eq_bind, Option.bind_some] at rounded
    split at rounded
    next new =>
      rcases Option.bind_eq_some_iff.mp rounded with ⟨longer, stored, rounded⟩
      rw [put] at stored
      split at stored
      next room =>
        cases stored
        cases rounded
        rw [List.length_take, List.length_cons, List.length_append, same, length]
        omega
      next full => cases stored
    next old =>
      cases rounded
      exact same.trans length
  next down =>
    cases rounded
    exact length

/-- The number is shown where every buffer has room for it. -/
theorem formatFinite_shown {machine : Machine} {symbols : Symbols} {pattern : Bytes} (negative : Bool)
    {magnitude : ℚ} (fits : Fits machine symbols pattern magnitude)
    (accepted : precisionOf machine (integerNumber machine magnitude) ≤ 32) :
    Exists fun shown => numberString machine symbols pattern magnitude = some shown ∧
      formatFinite machine symbols pattern negative magnitude =
        some (some (untilNul ((if negative then [byteAt symbols.minusSymbol] else []) ++
          separated (integerPlaces symbols (integerPart symbols pattern)).grouping shown.2
            (byteAt symbols.groupingSign) 0 shown.1))) := by
  have narrow := fits.digits accepted
  have one := minimum_pos symbols (integerPart symbols pattern)
  have string : Exists fun shown => numberString machine symbols pattern magnitude = some shown ∧
      shown.1.length ≤ 32 := by
    by_cases none_ : fractionalPart symbols pattern = []
    · refine ⟨_, if_pos none_, ?_⟩
      rw [length_digitChars]
      exact narrow
    · have room := fits.number accepted none_
      have rounds := (roundBuffer_isSome_iff (byteAt symbols.decimalSeparatorSign)
        (writtenPrecision machine symbols pattern magnitude)
        (two_le_writtenNumber machine symbols pattern magnitude)).mpr fun new => by
          rw [if_pos new] at room
          omega
      rcases Option.isSome_iff_exists.mp rounds with ⟨shown, rounded⟩
      refine ⟨shown, (if_neg none_).trans rounded, ?_⟩
      rw [roundBuffer_length rounded]
      omega
  rcases string with ⟨shown, string, short⟩
  refine ⟨shown, string, ?_⟩
  have fitting : ¬ (fractionalPart symbols pattern ≠ [] ∧
      32 < (writtenNumber machine symbols pattern magnitude).length) := by
    rintro ⟨more, long⟩
    have room := fits.number accepted more
    omega
  rw [formatFinite_eq negative fits.split fits.parts, if_neg (Nat.not_lt.mpr accepted),
    if_neg (Nat.not_lt.mpr narrow), if_neg fitting, string, Option.bind_some]
  have sign : (if negative then [byteAt symbols.minusSymbol] else ([] : Bytes)).length ≤ 1 := by
    cases negative
    · exact Nat.zero_le 1
    · exact Nat.le_refl 1
  have copy := length_separated (integerPlaces symbols (integerPart symbols pattern)).grouping shown.2
    (byteAt symbols.groupingSign) 0 shown.1
  rw [putAll_eq (by omega), if_pos (by omega)]
  rfl

/-- No index leaves its buffer exactly where there is room. -/
theorem formatFinite_isSome_iff (machine : Machine) (symbols : Symbols) (pattern : Bytes)
    (negative : Bool) (magnitude : ℚ) :
    (formatFinite machine symbols pattern negative magnitude).isSome = true ↔
      Fits machine symbols pattern magnitude := by
  constructor
  · intro shown
    have split : (symbols.decimalSeparatorSign = [] → pattern ≠ []) ∧
        (integerPart symbols pattern).length ≤ 64 ∧ (fractionalPart symbols pattern).length ≤ 64 := by
      by_contra failed
      rw [formatFinite, splitPattern_eq, if_neg failed] at shown
      cases shown
    rw [formatFinite_eq negative split.1 split.2] at shown
    refine ⟨split.1, split.2, fun accepted => ?_, fun accepted more => ?_⟩
    · by_contra wide
      rw [if_neg (Nat.not_lt.mpr accepted), if_pos (Nat.lt_of_not_le wide)] at shown
      cases shown
    · have short : (writtenNumber machine symbols pattern magnitude).length ≤ 32 := by
        by_contra long
        have both : fractionalPart symbols pattern ≠ [] ∧
            32 < (writtenNumber machine symbols pattern magnitude).length :=
          ⟨more, Nat.lt_of_not_le long⟩
        rw [if_neg (Nat.not_lt.mpr accepted), if_pos both, ite_self] at shown
        cases shown
      split
      next new =>
        by_contra full
        have outside : ¬ (writtenNumber machine symbols pattern magnitude).length < 32 := by omega
        have failed : numberString machine symbols pattern magnitude = none := by
          rw [numberString, if_neg more]
          apply Option.not_isSome_iff_eq_none.mp
          rw [roundBuffer_isSome_iff _ _ (two_le_writtenNumber machine symbols pattern magnitude)]
          exact fun room => outside (room new)
        rw [failed, Option.bind_none, ite_self, ite_self, if_neg (Nat.not_lt.mpr accepted)] at shown
        cases shown
      next => exact short
  · intro fits
    by_cases accepted : precisionOf machine (integerNumber machine magnitude) ≤ 32
    · rcases formatFinite_shown negative fits accepted with ⟨shown, -, run⟩
      rw [run]
      rfl
    · rw [formatFinite_eq negative fits.split fits.parts, if_pos (Nat.lt_of_not_le accepted)]
      rfl

/-- Everything stays within its buffer exactly where there is room. -/
theorem number_fits_iff (machine : Machine) {formats : List DecimalFormat} {formatName : Option Bytes}
    {pattern : Bytes} {symbols : Symbols} (passes : Passes formats formatName pattern symbols)
    (negative : Bool) (magnitude : ℚ) :
    (xfFormat machine formats (.finite negative magnitude) pattern formatName).isSome = true ↔
      Fits machine symbols pattern magnitude := by
  rw [xfFormat_passes machine passes]
  exact formatFinite_isSome_iff machine symbols pattern negative magnitude

theorem number_fits_plain :
    Passes [] none (lit "0.0") {} ∧
    ((xfFormat commonMachine [] (.finite false 9) (lit "0.0") none).isSome = true ↔
      Fits commonMachine {} (lit "0.0") 9) := by
  have passes : Passes [] none (lit "0.0") {} := ⟨by decide, rfl, by decide, by decide⟩
  exact ⟨passes, number_fits_iff commonMachine passes false 9⟩

/-- The part in front of the separator may be longer than its buffer. -/
theorem long_part_overflows :
    ¬ ∀ (machine : Machine) (formats : List DecimalFormat) (formatName : Option Bytes)
      (pattern : Bytes) (symbols : Symbols), Passes formats formatName pattern symbols →
      ∀ (negative : Bool) (magnitude : ℚ),
        (xfFormat machine formats (.finite negative magnitude) pattern formatName).isSome = true := by
  intro always
  have passes : Passes [] none (List.replicate 65 '#'.toUInt8) {} := by
    refine ⟨by decide, rfl, ?_, ?_⟩ <;> decide
  have shown := always commonMachine [] none _ {} passes false 1
  have split : splitPattern {} (List.replicate 65 '#'.toUInt8) = none := by decide
  rw [xfFormat_passes commonMachine passes, formatFinite, split] at shown
  cases shown

end NumberFormat

end TurboXSL
