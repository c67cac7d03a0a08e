import Mathlib.Algebra.Order.Floor.Semiring
import Mathlib.Data.Rat.Floor
import TurboXSL.Library.Decimal
import TurboXSL.Output

namespace TurboXSL

open Library Output

/-!
# `format-number`

`xf_format` splits the pattern, writes the digits of the number into a buffer
one by one, rounds them there, and copies them with separators between.  A
buffer is filled from its start, so it is the list of what was put in, and the
position in it is its length.  Each has a capacity, and an index beyond it has
no result.
-/

namespace NumberFormat

/-- The argument as a `double`; the sign of a zero counts. -/
inductive FormatNumber where
  | nan
  | infinite
  | finite (negative : Bool) (magnitude : ℚ)

/-- What the language leaves open: what becomes of numbers beyond the range of
an integer type, and of the logarithm of zero; and how `pow` rounds. -/
structure Machine where
  /-- `(unsigned int)floor(t)` for t from 2^32 on. -/
  toUnsigned : Nat → Nat
  /-- `(unsigned int)floor(log10(0))` -/
  logZero : Nat
  /-- `(int)floor(pow(10, i + 1) * fractional_number)` -/
  scaled : Nat → ℚ → Int
  unsigned_lt : ∀ t, toUnsigned t < 2 ^ 32
  logZero_lt : logZero < 2 ^ 32

/-- The signs and symbols of a decimal format. -/
structure Symbols where
  decimalSeparatorSign : Bytes := lit "."
  groupingSign : Bytes := lit ","
  percentSign : Bytes := lit "%"
  digitZeroSign : Bytes := lit "0"
  digitSign : Bytes := lit "#"
  patternSeparatorSign : Bytes := lit ";"
  infinitySymbol : Bytes := lit "Infinity"
  nanSymbol : Bytes := lit "NaN"
  minusSymbol : Bytes := lit "-"

/-- What `xsl:decimal-format` says of each of them. -/
structure DecimalFormat where
  name : Bytes
  decimalSeparator : Option Bytes := none
  groupingSeparator : Option Bytes := none
  percent : Option Bytes := none
  zeroDigit : Option Bytes := none
  digit : Option Bytes := none
  patternSeparator : Option Bytes := none
  infinity : Option Bytes := none
  nan : Option Bytes := none
  minusSign : Option Bytes := none

def DecimalFormat.symbols (format : DecimalFormat) : Symbols where
  decimalSeparatorSign := format.decimalSeparator.getD (lit ".")
  groupingSign := format.groupingSeparator.getD (lit ",")
  percentSign := format.percent.getD (lit "%")
  digitZeroSign := format.zeroDigit.getD (lit "0")
  digitSign := format.digit.getD (lit "#")
  patternSeparatorSign := format.patternSeparator.getD (lit ";")
  infinitySymbol := format.infinity.getD (lit "Infinity")
  nanSymbol := format.nan.getD (lit "NaN")
  minusSymbol := format.minusSign.getD (lit "-")

/-- `buffer[position++] = c` -/
def put (capacity : Nat) (buffer : Bytes) (c : UInt8) : Option Bytes :=
  if buffer.length < capacity then some (buffer ++ [c]) else none

/-- `memcpy` to the start of a buffer that is not filled yet. -/
def copied (capacity : Nat) (part : Bytes) : Option Bytes :=
  if part.length ≤ capacity then some part else none

/-- `(char)(digit + 0x30)` -/
def digitChar (digit : Int) : UInt8 := UInt8.ofNat (digit + 0x30).toNat

/-- The parts of the pattern; the one behind the decimal separator may be empty. -/
def splitPattern (symbols : Symbols) (pattern : Bytes) : Option (Bytes × Bytes) :=
  match strstr symbols.decimalSeparatorSign pattern with
  | some position =>
      -- The length of what is behind the separator is unsigned.
      if pattern.length < position + 1 then none
      else do some (← copied 64 (pattern.take position), ← copied 64 (pattern.drop (position + 1)))
  | none => do some (← copied 64 pattern, [])

/-- The digit places of the integer part. -/
structure IntegerPlaces where
  minimum : Nat := 0
  maximum : Nat := 0
  grouping : Nat := 0

def IntegerPlaces.step (symbols : Symbols) (places : IntegerPlaces) (c : UInt8) : IntegerPlaces :=
  let places := if c = byteAt symbols.digitZeroSign then
    { places with minimum := places.minimum + 1, maximum := places.maximum + 1 } else places
  let places := if c = byteAt symbols.digitSign then
    { places with maximum := places.maximum + 1 } else places
  if c = byteAt symbols.groupingSign ∧ places.grouping = 0 then
    { places with grouping := places.maximum } else places

/-- The integer part is read from its end. -/
def integerPlaces (symbols : Symbols) (part : Bytes) : IntegerPlaces :=
  let places := part.reverse.foldl (IntegerPlaces.step symbols) {}
  { places with minimum := if places.minimum = 0 then 1 else places.minimum }

/-- The least and the largest number of digits behind the separator.  The
position of a separator there is noted too, and not used. -/
def fractionPlaces (symbols : Symbols) (part : Bytes) : Nat × Nat :=
  part.foldl (fun (minimum, maximum) c =>
    let (minimum, maximum) := if c = byteAt symbols.digitZeroSign then (minimum + 1, maximum + 1)
      else (minimum, maximum)
    if c = byteAt symbols.digitSign then (minimum, maximum + 1) else (minimum, maximum)) (0, 0)

/-- The digits of the integer part, the last one first; the branches of the
source write the same characters. -/
def integerLoop : Nat → Nat → Bytes → Option Bytes
  | 0, _, buffer => some buffer
  | count + 1, number, buffer => do
      integerLoop count (number / 10) (← put 32 buffer (digitChar (number % 10 : Nat)))

/-- A buffer is copied behind another one. -/
def putAll (capacity : Nat) : Bytes → Bytes → Option Bytes
  | [], buffer => some buffer
  | c :: rest, buffer => do putAll capacity rest (← put capacity buffer c)

/-- The digits behind the separator, from number `i` on; a zero behind the least
number of digits is the last. -/
def fractionLoop (machine : Machine) (fraction : ℚ) (minimum : Nat) : Nat → Nat → Bytes → Option Bytes
  | 0, _, buffer => some buffer
  | count + 1, i, buffer => do
      let digit := (machine.scaled i fraction).tmod 10
      if digit ≠ 0 then
        fractionLoop machine fraction minimum count (i + 1) (← put 32 buffer (digitChar digit))
      else do
        let buffer ← put 32 buffer '0'.toUInt8
        if i = minimum then some buffer
        else fractionLoop machine fraction minimum count (i + 1) buffer

/-- The carry of the rounding, from index `i - 1` down, and whether it leaves
the top digit. -/
def carryLoop (separator : UInt8) : Nat → Bytes → Option (Bytes × Bool)
  | 0, buffer => some (buffer, false)
  | i + 1, buffer => do
      let digit ← buffer[i]?
      if digit = separator then carryLoop separator i buffer
      else if digit = '9'.toUInt8 then do
        let (buffer, overflow) ← carryLoop separator i (buffer.set i '0'.toUInt8)
        some (buffer, overflow || decide (i = 0))
      else some (buffer.set i (digit + 1), false)

/-- The last digit goes, and rounds the others; `precision` counts the digits
in front of the separator. -/
def roundBuffer (separator : UInt8) (precision : Nat) (buffer : Bytes) : Option (Bytes × Nat) := do
  let position := buffer.length
  let last ← buffer[position - 1]?
  let buffer := buffer.set (position - 1) 0
  if '5'.toUInt8 ≤ last then do
    let (buffer, overflow) ← carryLoop separator (position - 1) buffer
    if overflow then do
      -- Everything moves to the next index, and the position stays.
      let buffer ← put 32 buffer 0
      some (('1'.toUInt8 :: buffer).take position, precision + 1)
    else some (buffer, precision)
  else some (buffer, precision)

/-- The number string is copied with separators, from index `i` on. -/
def outputLoop (grouping precision : Nat) (sign : UInt8) : Nat → Bytes → Bytes → Option Bytes
  | _, [], output => some output
  | i, c :: rest, output => do
      let output ←
        (if i < precision ∧ 0 < grouping ∧ grouping < precision ∧ (precision - i) % grouping = 0 then
          put 128 output sign
        else some output)
      outputLoop grouping precision sign (i + 1) rest (← put 128 output c)

/-- `(unsigned int)floor(log10(integer_number)) + 1` -/
def precisionOf (machine : Machine) (number : Nat) : Nat :=
  if number = 0 then (machine.logZero + 1) % 2 ^ 32 else Nat.log 10 number + 1

/-- `(unsigned int)floor(t)` for the integer part of the number. -/
def integerNumber (machine : Machine) (magnitude : ℚ) : Nat :=
  if ⌊magnitude⌋₊ < 2 ^ 32 then ⌊magnitude⌋₊ else machine.toUnsigned ⌊magnitude⌋₊

/-- A finite number in a pattern that passed the checks. -/
def formatFinite (machine : Machine) (symbols : Symbols) (pattern : Bytes) (negative : Bool)
    (magnitude : ℚ) : Option (Option Bytes) := do
  let (integerPart, fractionalPart) ← splitPattern symbols pattern
  let output := if negative then [byteAt symbols.minusSymbol] else []
  let fraction := magnitude - ⌊magnitude⌋₊
  let number := integerNumber machine magnitude
  let places := integerPlaces symbols integerPart
  let precision := precisionOf machine number
  if 32 < precision then some none
  else do
    let precision := max precision places.minimum
    let digits ← integerLoop precision number []
    let buffer ← putAll 32 digits.reverse []
    let (buffer, precision) ←
      (if 0 < fractionalPart.length then do
        let (minimum, maximum) := fractionPlaces symbols fractionalPart
        let separator := byteAt symbols.decimalSeparatorSign
        let buffer ← put 32 buffer separator
        let buffer ← fractionLoop machine fraction minimum (maximum + 1) 0 buffer
        roundBuffer separator precision buffer
      else some (buffer, precision))
    let output ← outputLoop places.grouping precision (byteAt symbols.groupingSign) 0 buffer output
    some (some (untilNul output))

/-- `xf_format` with these symbols. -/
def formatWith (machine : Machine) (symbols : Symbols) (number : FormatNumber) (pattern : Bytes) :
    Option (Option Bytes) :=
  if (strstr symbols.patternSeparatorSign pattern).isSome then some none
  else if (strstr symbols.percentSign pattern).isSome then some none
  else match number with
    | .nan => some (some symbols.nanSymbol)
    | .infinite => some (some symbols.infinitySymbol)
    | .finite negative magnitude => formatFinite machine symbols pattern negative magnitude

/-- The symbols for the third argument; none for a format that is not known. -/
def chosenSymbols (formats : List DecimalFormat) : Option Bytes → Option Symbols
  | none => some {}
  | some formatName =>
      (formats.find? fun format => format.name = formatName).map DecimalFormat.symbols

/-- `xf_format`: the string, or NULL; none where an index leaves its buffer. -/
def xfFormat (machine : Machine) (formats : List DecimalFormat) (number : FormatNumber)
    (pattern : Bytes) (formatName : Option Bytes) : Option (Option Bytes) :=
  if 120 < pattern.length then some none
  else match chosenSymbols formats formatName with
    | none => some none
    | some symbols => formatWith machine symbols number pattern

/-- A common machine with exact powers of ten: what is too large for `unsigned int`
loses its upper bits, and for `int` it is the least one. -/
def commonMachine : Machine where
  toUnsigned := fun t => t % 2 ^ 32
  logZero := 0
  scaled := fun i fraction =>
    if ⌊10 ^ (i + 1) * fraction⌋ < 2 ^ 31 then ⌊10 ^ (i + 1) * fraction⌋ else -2 ^ 31
  unsigned_lt := fun t => Nat.mod_lt t (by decide)
  logZero_lt := by decide

/-! ## What the loops put into their buffers -/

theorem putAll_eq {capacity : Nat} {buffer : Bytes} (fits : buffer.length ≤ capacity) (part : Bytes) :
    putAll capacity part buffer =
      if buffer.length + part.length ≤ capacity then some (buffer ++ part) else none := by
  induction part generalizing buffer with
  | nil => rw [putAll, List.length_nil, Nat.add_zero, if_pos fits, List.append_nil]
  | cons c rest inductionHypothesis =>
      rw [putAll, put, List.length_cons]
      by_cases room : buffer.length < capacity
      · have longer : (buffer ++ [c]).length = buffer.length + 1 := List.length_append
        have onward : (buffer ++ [c]).length ≤ capacity := longer ▸ room
        simp only [if_pos room, Option.bind_eq_bind, Option.bind_some, inductionHypothesis onward, longer,
          List.append_assoc, List.singleton_append]
        rw [Nat.add_assoc, Nat.add_comm 1]
      · rw [if_neg room, if_neg (by omega)]
        rfl

theorem putAll_append (capacity : Nat) (first second buffer : Bytes) :
    putAll capacity (first ++ second) buffer =
      (putAll capacity first buffer).bind (putAll capacity second) := by
  induction first generalizing buffer with
  | nil => rfl
  | cons c rest inductionHypothesis =>
      rw [List.cons_append, putAll, putAll]
      cases put capacity buffer c with
      | none => rfl
      | some buffer => exact inductionHypothesis buffer

/-- The digits of a number as characters. -/
def digitChars (count number : Nat) : Bytes :=
  (Decimal.digits count number).map fun digit => digitChar (digit : Nat)

@[simp] theorem length_digitChars (count number : Nat) : (digitChars count number).length = count := by
  rw [digitChars, List.length_map, Decimal.length_digits]

theorem digitChars_succ (count number : Nat) : digitChars (count + 1) number =
    digitChars count (number / 10) ++ [digitChar (number % 10 : Nat)] := by
  rw [digitChars, Decimal.digits, List.map_append]
  rfl

theorem integerLoop_eq (count number : Nat) (buffer : Bytes) :
    integerLoop count number buffer = putAll 32 (digitChars count number).reverse buffer := by
  induction count generalizing number buffer with
  | zero => rfl
  | succ count inductionHypothesis =>
      rw [integerLoop, digitChars_succ, List.reverse_append, List.reverse_singleton,
        List.singleton_append, putAll]
      congr 1
      funext buffer
      exact inductionHypothesis _ buffer

/-- The characters behind the separator before they are rounded. -/
def fractionChars (machine : Machine) (fraction : ℚ) (minimum : Nat) : Nat → Nat → Bytes
  | 0, _ => []
  | count + 1, i =>
      let digit := (machine.scaled i fraction).tmod 10
      if digit ≠ 0 then digitChar digit :: fractionChars machine fraction minimum count (i + 1)
      else '0'.toUInt8 ::
        (if i = minimum then [] else fractionChars machine fraction minimum count (i + 1))

theorem fractionLoop_eq (machine : Machine) (fraction : ℚ) (minimum count i : Nat) (buffer : Bytes) :
    fractionLoop machine fraction minimum count i buffer =
      putAll 32 (fractionChars machine fraction minimum count i) buffer := by
  induction count generalizing i buffer with
  | zero => rfl
  | succ count inductionHypothesis =>
      rw [fractionLoop, fractionChars]
      split
      next visible =>
        rw [putAll]
        congr 1
        funext buffer
        exact inductionHypothesis (i + 1) buffer
      next zero =>
        rw [putAll]
        congr 1
        funext buffer
        split
        next last => rfl
        next more => exact inductionHypothesis (i + 1) buffer

/-- The carry stays in the buffer, and leaves the top digit where all digits
are nines. -/
theorem carryLoop_spec (separator : UInt8) {i : Nat} {buffer : Bytes} (inside : i ≤ buffer.length) :
    Exists fun after => Exists fun overflow =>
      carryLoop separator i buffer = some (after, overflow) ∧ after.length = buffer.length ∧
        (overflow = true ↔ 0 < i ∧ buffer[0]? ≠ some separator ∧
          ∀ c ∈ buffer.take i, c = '9'.toUInt8 ∨ c = separator) := by
  induction i generalizing buffer with
  | zero => exact ⟨buffer, false, rfl, rfl, by simp⟩
  | succ i inductionHypothesis =>
      have here : buffer[i]? = some buffer[i] := List.getElem?_eq_getElem inside
      have front : buffer.take (i + 1) = buffer.take i ++ [buffer[i]] :=
        (List.take_concat_get' buffer i inside).symm
      have members : (∀ c ∈ buffer.take (i + 1), c = '9'.toUInt8 ∨ c = separator) ↔
          (∀ c ∈ buffer.take i, c = '9'.toUInt8 ∨ c = separator) ∧
            (buffer[i] = '9'.toUInt8 ∨ buffer[i] = separator) := by
        rw [front, List.forall_mem_append, List.forall_mem_singleton]
      rw [carryLoop, here, members]
      simp only [Option.bind_eq_bind, Option.bind_some]
      by_cases skipped : buffer[i] = separator
      · rcases inductionHypothesis (Nat.le_of_lt inside) with ⟨after, overflow, run, length, iff⟩
        rw [if_pos skipped]
        refine ⟨after, overflow, run, length, iff.trans ?_⟩
        constructor
        · exact fun known => ⟨Nat.succ_pos i, known.2.1, known.2.2, .inr skipped⟩
        · rintro ⟨-, visible, nines, -⟩
          refine ⟨Nat.pos_of_ne_zero fun zero => ?_, visible, nines⟩
          subst zero
          exact visible (here.trans (congrArg some skipped))
      · rw [if_neg skipped]
        by_cases nine : buffer[i] = '9'.toUInt8
        · have later : i ≤ (buffer.set i '0'.toUInt8).length := by
            rw [List.length_set]
            exact Nat.le_of_lt inside
          rcases inductionHypothesis later with ⟨after, overflow, run, length, iff⟩
          rw [if_pos nine, run]
          refine ⟨after, overflow || decide (i = 0), rfl, length.trans List.length_set, ?_⟩
          rw [Bool.or_eq_true, iff, decide_eq_true_iff]
          have kept : (buffer.set i '0'.toUInt8).take i = buffer.take i :=
            List.take_set_of_le (Nat.le_refl i)
          rw [kept]
          cases i with
          | zero =>
              simp only [Nat.lt_irrefl, false_and, or_true, true_iff]
              refine ⟨Nat.zero_lt_one, ?_, by simp, .inl nine⟩
              rw [here]
              exact fun same => skipped (Option.some.inj same)
          | succ j =>
              rw [List.getElem?_set_ne (Nat.succ_ne_zero j)]
              constructor
              · rintro (⟨-, visible, nines⟩ | impossible)
                · exact ⟨Nat.succ_pos _, visible, nines, .inl nine⟩
                · cases impossible
              · rintro ⟨-, visible, nines, -⟩
                exact .inl ⟨Nat.succ_pos j, visible, nines⟩
        · rw [if_neg nine]
          refine ⟨_, false, rfl, List.length_set, ?_⟩
          constructor
          · exact nofun
          · rintro ⟨-, -, -, last | last⟩
            · exact absurd last nine
            · exact absurd last skipped

/-- The characters with separators between, from index `i` on. -/
def separated (grouping precision : Nat) (sign : UInt8) : Nat → Bytes → Bytes
  | _, [] => []
  | i, c :: rest =>
      (if i < precision ∧ 0 < grouping ∧ grouping < precision ∧ (precision - i) % grouping = 0 then [sign]
        else []) ++ c :: separated grouping precision sign (i + 1) rest

theorem outputLoop_eq (grouping precision : Nat) (sign : UInt8) (i : Nat) (rest output : Bytes) :
    outputLoop grouping precision sign i rest output =
      putAll 128 (separated grouping precision sign i rest) output := by
  induction rest generalizing i output with
  | nil => rfl
  | cons c rest inductionHypothesis =>
      have onward : (fun output : Bytes => outputLoop grouping precision sign (i + 1) rest output) =
          putAll 128 (separated grouping precision sign (i + 1) rest) :=
        funext fun output => inductionHypothesis (i + 1) output
      rw [outputLoop, separated]
      split
      next grouped =>
        rw [List.singleton_append, putAll]
        congr 1
        funext output
        rw [putAll, ← onward]
      next plain =>
        rw [List.nil_append, putAll, ← onward]
        rfl

theorem length_separated (grouping precision : Nat) (sign : UInt8) (i : Nat) (rest : Bytes) :
    (separated grouping precision sign i rest).length ≤ 2 * rest.length := by
  induction rest generalizing i with
  | nil => exact Nat.le_refl 0
  | cons c rest inductionHypothesis =>
      have later := inductionHypothesis (i + 1)
      rw [separated, List.length_append, List.length_cons, List.length_cons]
      split
      next => rw [List.length_singleton]; omega
      next => rw [List.length_nil]; omega

end NumberFormat

end TurboXSL
