import Mathlib.Data.List.DropRight
import Mathlib.Data.List.Induction
import TurboXSL.NumberPatterns
import TurboXSL.NumberStrings

namespace TurboXSL

open Library Output

/-!
# Separators in `format-number`

The separators are put in while the number is copied, by a count of the digits
that are left.  They stand where they should, except that one also stands in
front of the first digit where the digits fill groups.
-/

namespace NumberFormat

/-! ## What is asked for -/

/-- The last separator of the integer part that has digit places behind it has
this many there. -/
def GroupedBy (pattern : Bytes) (g : Nat) : Prop :=
  Exists fun front => Exists fun rear => integerPart {} pattern = front ++ ','.toUInt8 :: rear ∧
    digitPlaces rear = g ∧ 1 ≤ g ∧
    ∀ front' rear', rear = front' ++ ','.toUInt8 :: rear' → digitPlaces rear' = 0

/-- Digits with separators where the digits behind are a positive multiple of `g`. -/
def groupDigits (g : Nat) : Bytes → Bytes
  | [] => []
  | c :: rest =>
      if rest ≠ [] ∧ rest.length % g = 0 then c :: ','.toUInt8 :: groupDigits g rest
      else c :: groupDigits g rest

/-- A number with separators between its integer digits. -/
def withSeparators (g : Nat) (plain : Bytes) : Bytes :=
  let body := plain.dropWhile fun c => c = '-'.toUInt8
  (plain.takeWhile fun c => c = '-'.toUInt8) ++
    (groupDigits g (body.takeWhile fun c => c ≠ '.'.toUInt8) ++
      body.dropWhile fun c => c ≠ '.'.toUInt8)

/-- The pattern without its separators. -/
def withoutSeparators (bytes : Bytes) : Bytes := bytes.filter fun c => c ≠ ','.toUInt8

/-- The text is that of the pattern without separators, with separators in the
right places. -/
def GroupsRight (machine : Machine) (pattern : Bytes) (g : Nat) (negative : Bool) (magnitude : ℚ) :
    Prop :=
  Exists fun text : Option Bytes => Exists fun plain : Option Bytes =>
    xfFormat machine [] (.finite negative magnitude) pattern none = some text ∧
    xfFormat machine [] (.finite negative magnitude) (withoutSeparators pattern) none = some plain ∧
    text.map withoutSeparators = plain ∧ text = plain.map (withSeparators g)

/-- The number of digits in front of the separator, with the one that the rounding may add. -/
def shownPrecision (machine : Machine) (pattern : Bytes) (magnitude : ℚ) : Nat :=
  writtenPrecision machine {} pattern magnitude +
    if fractionalPart {} pattern ≠ [] ∧ NewDigit '.'.toUInt8 (writtenNumber machine {} pattern magnitude)
    then 1 else 0

/-- Conversions beyond the range of `int` may leave negative digits, one of which is written as
a separator; so is the one below it where the rounding adds one. -/
def StraySeparator (chars : Bytes) : Prop :=
  if '5'.toUInt8 ≤ chars.getLastD 0 then
    ','.toUInt8 ∈ (chars.dropLast.rdropWhile fun c => c = '9'.toUInt8 ∨ c = '.'.toUInt8).dropLast ∨
      (chars.dropLast.rdropWhile fun c => c = '9'.toUInt8 ∨ c = '.'.toUInt8).getLast? = some '+'.toUInt8
  else ','.toUInt8 ∈ chars.dropLast

/-- The buffers have room, and, unless the number is refused, the fraction has more than
separators, the digits do not fill groups, and none is written as a separator. -/
structure GroupsWell (machine : Machine) (pattern : Bytes) (g : Nat) (magnitude : ℚ) : Prop where
  fits : Fits machine {} pattern magnitude
  fraction : precisionOf machine (integerNumber machine magnitude) ≤ 32 →
    fractionalPart {} pattern ≠ [] → withoutSeparators (fractionalPart {} pattern) ≠ []
  places : precisionOf machine (integerNumber machine magnitude) ≤ 32 →
    g < shownPrecision machine pattern magnitude → ¬ g ∣ shownPrecision machine pattern magnitude
  digits : precisionOf machine (integerNumber machine magnitude) ≤ 32 →
    fractionalPart {} pattern ≠ [] → ¬ StraySeparator (writtenFraction machine {} pattern magnitude)

/-! ## The places of a pattern -/

/-- Places further in front do not change the position. -/
theorem groupingPlace_append (front : Bytes) {rear : Bytes} (found : groupingPlace rear ≠ 0) :
    groupingPlace (front ++ rear) = groupingPlace rear := by
  induction front with
  | nil => rfl
  | cons c front inductionHypothesis =>
      have other : ¬ (c = ','.toUInt8 ∧ groupingPlace (front ++ rear) = 0) := fun both =>
        found (inductionHypothesis ▸ both.2)
      rw [List.cons_append, groupingPlace, if_neg other, inductionHypothesis]

/-- The position is that of the last separator with digit places behind it. -/
theorem GroupedBy.place {pattern : Bytes} {g : Nat} (grouped : GroupedBy pattern g) :
    groupingPlace (integerPart {} pattern) = g := by
  rcases grouped with ⟨front, rear, split, places, positive, last⟩
  have here : groupingPlace (','.toUInt8 :: rear) = g := by
    rw [groupingPlace, if_pos ⟨rfl, groupingPlace_eq_zero last⟩, places]
  rw [split, groupingPlace_append front (by omega), here]

theorem withoutSeparators_cons (c : UInt8) (part : Bytes) : withoutSeparators (c :: part) =
    if c = ','.toUInt8 then withoutSeparators part else c :: withoutSeparators part := by
  rw [withoutSeparators, List.filter_cons]
  by_cases separator : c = ','.toUInt8
  · rw [if_pos separator, if_neg (by simpa using separator)]
    rfl
  · rw [if_neg separator, if_pos (by simpa using separator)]
    rfl

theorem withoutSeparators_places (part : Bytes) :
    zeroPlaces (withoutSeparators part) = zeroPlaces part ∧
      digitPlaces (withoutSeparators part) = digitPlaces part ∧
      groupingPlace (withoutSeparators part) = 0 := by
  induction part with
  | nil => exact ⟨rfl, rfl, rfl⟩
  | cons c rest inductionHypothesis =>
      rcases inductionHypothesis with ⟨zeros, digits, position⟩
      rw [withoutSeparators_cons, zeroPlaces_cons, digitPlaces_cons]
      by_cases separator : c = ','.toUInt8
      · subst separator
        rw [if_pos rfl]
        exact ⟨zeros, digits, position⟩
      · have other : ¬ (c = ','.toUInt8 ∧ groupingPlace (withoutSeparators rest) = 0) := fun both =>
          separator both.1
        rw [if_neg separator, zeroPlaces_cons, digitPlaces_cons, groupingPlace, if_neg other, zeros,
          digits]
        exact ⟨rfl, rfl, position⟩

theorem withoutSeparators_split (pattern : Bytes) :
    integerPart {} (withoutSeparators pattern) = withoutSeparators (integerPart {} pattern) ∧
      fractionalPart {} (withoutSeparators pattern) = withoutSeparators (fractionalPart {} pattern) := by
  rcases splitPattern_dot pattern with ⟨front, rear⟩
  rcases splitPattern_dot (withoutSeparators pattern) with ⟨front', rear'⟩
  rw [front, rear, front', rear']
  clear front rear front' rear'
  induction pattern with
  | nil => exact ⟨rfl, rfl⟩
  | cons c rest inductionHypothesis =>
      rcases inductionHypothesis with ⟨front, rear⟩
      by_cases dot : c = '.'.toUInt8
      · subst dot
        exact ⟨rfl, rfl⟩
      · rw [List.takeWhile_cons_of_pos (by simpa using dot), List.dropWhile_cons_of_pos (by simpa using dot),
          withoutSeparators_cons, withoutSeparators_cons]
        by_cases separator : c = ','.toUInt8
        · rw [if_pos separator, if_pos separator]
          exact ⟨front, rear⟩
        · rw [if_neg separator, if_neg separator, List.takeWhile_cons_of_pos (by simpa using dot),
            List.dropWhile_cons_of_pos (by simpa using dot), front]
          exact ⟨rfl, rear⟩

/-! ## Where the separators stand -/

theorem separated_behind {precision i : Nat} (grouping : Nat) (sign : UInt8) (rest : Bytes)
    (behind : precision ≤ i) : separated grouping precision sign i rest = rest := by
  induction rest generalizing i with
  | nil => rfl
  | cons c rest inductionHypothesis =>
      rw [separated, if_neg fun inside => Nat.not_lt.mpr behind inside.1,
        inductionHypothesis (Nat.le_succ_of_le behind)]
      rfl

/-- The separator that is put in front of digits. -/
def leadingSeparator (g precision count : Nat) : Bytes :=
  if 0 < count ∧ g < precision ∧ count % g = 0 then [','.toUInt8] else []

theorem separated_digits {g : Nat} (positive : 1 ≤ g) {precision i : Nat} {digits : Bytes}
    (rest : Bytes) (place : i + digits.length = precision) :
    separated g precision ','.toUInt8 i (digits ++ rest) =
      leadingSeparator g precision digits.length ++ (groupDigits g digits ++ rest) := by
  induction digits generalizing i with
  | nil =>
      have behind : precision ≤ i := Nat.le_of_eq place.symm
      have nothing : leadingSeparator g precision ([] : Bytes).length = [] :=
        if_neg fun some_ => Nat.lt_irrefl 0 some_.1
      rw [List.nil_append, separated_behind g _ rest behind, nothing]
      rfl
  | cons c digits inductionHypothesis =>
      rw [List.length_cons] at place
      have count : precision - i = digits.length + 1 := by omega
      have first : (i < precision ∧ 0 < g ∧ g < precision ∧ (precision - i) % g = 0) ↔
          0 < (c :: digits).length ∧ g < precision ∧ (c :: digits).length % g = 0 := by
        rw [count, List.length_cons]
        constructor
        · exact fun known => ⟨Nat.succ_pos _, known.2.2⟩
        · exact fun known => ⟨by omega, positive, known.2⟩
      have next_ : leadingSeparator g precision digits.length ++ groupDigits g digits =
          if digits ≠ [] ∧ digits.length % g = 0 then ','.toUInt8 :: groupDigits g digits
          else groupDigits g digits := by
        have same : (0 < digits.length ∧ g < precision ∧ digits.length % g = 0) ↔
            digits ≠ [] ∧ digits.length % g = 0 := by
          constructor
          · exact fun known => ⟨List.length_pos_iff.mp known.1, known.2.2⟩
          · rintro ⟨more, divides⟩
            have some_ := List.length_pos_iff.mpr more
            have enough := Nat.le_of_dvd some_ (Nat.dvd_of_mod_eq_zero divides)
            exact ⟨some_, by omega, divides⟩
        rw [leadingSeparator]
        simp only [same]
        split <;> rfl
      have onward := inductionHypothesis (i := i + 1) (by omega)
      rw [List.cons_append, separated, onward, ← List.append_assoc, next_, groupDigits, leadingSeparator]
      simp only [first]
      split <;> split <;> rfl

/-! ## The characters of a fraction -/

theorem straySeparator_iff (chars : Bytes) :
    ','.toUInt8 ∈ roundedFraction chars.dropLast (chars.getLastD 0) ↔ StraySeparator chars := by
  rw [roundedFraction, StraySeparator]
  split
  next =>
    rw [mem_carry_iff ','.toUInt8 ⟨by decide, by decide, by decide⟩]
    rfl
  next => rfl

/-! ## The number string of a pattern -/

/-- Digits in front of the separator, and what stands behind them. -/
structure Shown (machine : Machine) (pattern : Bytes) (magnitude : ℚ) (ints rest : Bytes) : Prop where
  length : ints.length = shownPrecision machine pattern magnitude
  plain : Plain ints
  nothing : fractionalPart {} pattern = [] → rest = []
  fraction : fractionalPart {} pattern ≠ [] → Exists fun tail => rest = '.'.toUInt8 :: tail ∧
    (','.toUInt8 ∈ tail ↔ StraySeparator (writtenFraction machine {} pattern magnitude))

theorem numberString_shown {machine : Machine} {pattern : Bytes} {magnitude : ℚ} {shown : Bytes × Nat}
    (string : numberString machine {} pattern magnitude = some shown) :
    shown.2 = shownPrecision machine pattern magnitude ∧
      Exists fun ints => Exists fun rest => shown.1 = ints ++ rest ∧
        Shown machine pattern magnitude ints (untilNul rest) := by
  rcases numberString_text string with ⟨precision, ending, short, text⟩
  have count : shown.2 = shownPrecision machine pattern magnitude := by
    rw [precision, shownPrecision, shownDigits]
    split
    next nothing => rw [if_neg fun both => both.1 nothing]; rfl
    next more =>
      have one : 1 ≤ writtenPrecision machine {} pattern magnitude :=
        Nat.le_trans (minimum_pos _ _) (Nat.le_max_right _ _)
      rw [roundedDigits_precision, writtenNumber_concat]
      simp only [newDigit_iff one, ne_eq, more, not_false_eq_true, true_and]
  have rest : untilNul (shownFraction machine pattern magnitude ++ ending) =
      shownFraction machine pattern magnitude := by
    rw [untilNul_append (shownFraction_nonzero machine pattern magnitude)]
    rcases short with rfl | rfl
    · exact List.append_nil _
    · exact List.append_nil _
  refine ⟨count, _, _, text, ?_⟩
  rw [rest]
  refine ⟨by rw [length_digitChars, count], digitChars_plain _ _, fun nothing => if_pos nothing, ?_⟩
  exact fun more => ⟨_, if_neg more, straySeparator_iff _⟩

/-! ## The pattern without separators -/

theorem withoutSeparators_passes {pattern : Bytes} (passes : Passes [] none pattern {}) :
    Passes [] none (withoutSeparators pattern) {} := by
  rcases passes with ⟨short, chosen, noSeparator, noPercent⟩
  have kept : ∀ c : UInt8, strstr [c] pattern = none → strstr [c] (withoutSeparators pattern) = none := by
    intro c absent
    rw [strstr_single] at absent ⊢
    exact fun member => absent (List.mem_of_mem_filter member)
  exact ⟨Nat.le_trans (List.length_filter_le _ _) short, chosen, kept _ noSeparator, kept _ noPercent⟩

/-- The digits that are written do not depend on separators in the pattern. -/
theorem withoutSeparators_written (machine : Machine) (pattern : Bytes) (magnitude : ℚ) :
    writtenPrecision machine {} (withoutSeparators pattern) magnitude =
        writtenPrecision machine {} pattern magnitude ∧
      writtenNumber machine {} (withoutSeparators pattern) magnitude =
        writtenNumber machine {} pattern magnitude := by
  rcases withoutSeparators_split pattern with ⟨front, rear⟩
  have precision : writtenPrecision machine {} (withoutSeparators pattern) magnitude =
      writtenPrecision machine {} pattern magnitude := by
    rw [writtenPrecision, writtenPrecision, front, integerPlaces_plain, integerPlaces_plain,
      (withoutSeparators_places _).1]
  refine ⟨precision, ?_⟩
  rw [writtenNumber, writtenNumber, precision, writtenFraction, writtenFraction, rear, fractionPlaces_plain,
    fractionPlaces_plain, (withoutSeparators_places _).1, (withoutSeparators_places _).2.1]

theorem withoutSeparators_fits {machine : Machine} {pattern : Bytes} {magnitude : ℚ}
    (fits : Fits machine {} pattern magnitude) : Fits machine {} (withoutSeparators pattern) magnitude := by
  rcases withoutSeparators_split pattern with ⟨front, rear⟩
  rcases withoutSeparators_written machine pattern magnitude with ⟨precision, number⟩
  refine ⟨fun empty => absurd empty (List.cons_ne_nil _ _), ?_, fun accepted => ?_, fun accepted more => ?_⟩
  · rw [front, rear]
    exact ⟨Nat.le_trans (List.length_filter_le _ _) fits.parts.1,
      Nat.le_trans (List.length_filter_le _ _) fits.parts.2⟩
  · rw [precision]
    exact fits.digits accepted
  · have visible : fractionalPart {} pattern ≠ [] := by
      rintro nothing
      rw [rear, nothing] at more
      exact more rfl
    rw [number]
    exact fits.number accepted visible

/-- The number string is the same where both patterns have a fraction or none. -/
theorem withoutSeparators_string (machine : Machine) {pattern : Bytes} (magnitude : ℚ)
    (fraction : fractionalPart {} pattern ≠ [] → withoutSeparators (fractionalPart {} pattern) ≠ []) :
    numberString machine {} (withoutSeparators pattern) magnitude =
      numberString machine {} pattern magnitude := by
  rcases withoutSeparators_written machine pattern magnitude with ⟨precision, number⟩
  have same : fractionalPart {} (withoutSeparators pattern) = [] ↔ fractionalPart {} pattern = [] := by
    rw [(withoutSeparators_split pattern).2]
    constructor
    · intro nothing
      by_contra more
      exact fraction more nothing
    · intro nothing
      rw [nothing]
      rfl
  rw [numberString, numberString, precision, number]
  simp only [same]

/-! ## The text -/

/-- The digits as they are copied. -/
def grouped (g : Nat) (ints : Bytes) : Bytes :=
  if g = 0 then ints else leadingSeparator g ints.length ints.length ++ groupDigits g ints

/-- What is put in front of a negative number. -/
def sign (negative : Bool) : Bytes := if negative then ['-'.toUInt8] else []

theorem mem_groupDigits {g : Nat} {ints : Bytes} {c : UInt8} (member : c ∈ groupDigits g ints) :
    c ∈ ints ∨ c = ','.toUInt8 := by
  induction ints with
  | nil => cases member
  | cons d rest inductionHypothesis =>
      rw [groupDigits] at member
      have later : c ∈ groupDigits g rest → c ∈ d :: rest ∨ c = ','.toUInt8 := fun inside =>
        (inductionHypothesis inside).imp_left (List.mem_cons_of_mem d)
      split at member
      next =>
        rcases List.mem_cons.mp member with rfl | member
        · exact .inl List.mem_cons_self
        · exact (List.mem_cons.mp member).elim .inr later
      next => exact (List.mem_cons.mp member).elim (fun same => .inl (same ▸ List.mem_cons_self)) later

theorem mem_grouped {g : Nat} {ints : Bytes} {c : UInt8} (member : c ∈ grouped g ints) :
    c ∈ ints ∨ c = ','.toUInt8 := by
  rw [grouped, leadingSeparator] at member
  split at member
  next => exact .inl member
  next =>
    rcases List.mem_append.mp member with leading | inside
    · split at leading
      next => exact .inr (List.mem_singleton.mp leading)
      next => cases leading
    · exact mem_groupDigits inside

theorem withoutSeparators_groupDigits (g : Nat) {ints : Bytes} (plain : Plain ints) :
    withoutSeparators (groupDigits g ints) = ints := by
  induction ints with
  | nil => rfl
  | cons c rest inductionHypothesis =>
      have digit := (plain c List.mem_cons_self).2.1
      have later := inductionHypothesis fun d member => plain d (List.mem_cons_of_mem c member)
      rw [groupDigits]
      split
      next => rw [withoutSeparators_cons, if_neg digit, withoutSeparators_cons, if_pos rfl, later]
      next => rw [withoutSeparators_cons, if_neg digit, later]

/-- The text of a pattern, from its number string. -/
theorem xfFormat_grouped {machine : Machine} {pattern : Bytes} {magnitude : ℚ} {ints rest : Bytes}
    (passes : Passes [] none pattern {}) (negative : Bool) (fits : Fits machine {} pattern magnitude)
    (accepted : precisionOf machine (integerNumber machine magnitude) ≤ 32)
    (string : numberString machine {} pattern magnitude = some (ints ++ rest, ints.length))
    (plain : Plain ints) : xfFormat machine [] (.finite negative magnitude) pattern none =
      some (some (sign negative ++
        (grouped (groupingPlace (integerPart {} pattern)) ints ++ untilNul rest))) := by
  rcases formatFinite_shown negative fits accepted with ⟨shown, again, run⟩
  cases Option.some.inj (string.symm.trans again)
  have copied : separated (groupingPlace (integerPart {} pattern)) ints.length ','.toUInt8 0 (ints ++ rest) =
      grouped (groupingPlace (integerPart {} pattern)) ints ++ rest := by
    rw [grouped]
    split
    next zero => rw [zero, separated_zero]
    next more => rw [separated_digits (Nat.pos_of_ne_zero more) rest (Nat.zero_add _), List.append_assoc]
  have whole : (0 : UInt8) ∉ sign negative ++ grouped (groupingPlace (integerPart {} pattern)) ints := by
    rw [List.mem_append, not_or]
    constructor
    · cases negative <;> decide
    · intro inside
      rcases mem_grouped inside with digit | separator
      · exact (plain 0 digit).2.2.2 rfl
      · exact absurd separator (by decide)
  rw [xfFormat_passes machine passes, run, integerPlaces_plain]
  dsimp only
  have comma : byteAt ({} : Symbols).groupingSign = ','.toUInt8 := rfl
  rw [comma, copied, ← List.append_assoc, ← List.append_assoc (sign negative), ← untilNul_append whole]
  rfl

/-- The text without its separators is that of the digits where no other separator is behind them. -/
theorem withoutSeparators_text_iff (g : Nat) (negative : Bool) {ints : Bytes} (plain : Plain ints)
    (rest : Bytes) : withoutSeparators (sign negative ++ (grouped g ints ++ rest)) =
      sign negative ++ (ints ++ rest) ↔ ','.toUInt8 ∉ rest := by
  have signs : withoutSeparators (sign negative) = sign negative := by cases negative <;> rfl
  have ints_ : withoutSeparators ints = ints := by
    apply List.filter_eq_self.mpr
    exact fun c member => decide_eq_true (plain c member).2.1
  have groups : withoutSeparators (grouped g ints) = ints := by
    rw [grouped, leadingSeparator]
    split
    next => exact ints_
    next =>
      rw [withoutSeparators, List.filter_append]
      have digits := withoutSeparators_groupDigits g plain
      rw [withoutSeparators] at digits
      rw [digits]
      split <;> rfl
  have whole : withoutSeparators (sign negative ++ (grouped g ints ++ rest)) =
      sign negative ++ (ints ++ withoutSeparators rest) := by
    rw [withoutSeparators] at signs groups ⊢
    rw [List.filter_append, List.filter_append, signs, groups]
    rfl
  have others : withoutSeparators rest = rest ↔ ','.toUInt8 ∉ rest := by
    rw [withoutSeparators, List.filter_eq_self]
    constructor
    · exact fun all inside => absurd (all _ inside) (by decide)
    · exact fun absent c member => decide_eq_true fun same => absent (same ▸ member)
  rw [whole, List.append_cancel_left_eq, List.append_cancel_left_eq, others]

/-- The separators are those between the digits. -/
theorem withSeparators_text {g : Nat} (negative : Bool) {ints rest : Bytes} (plain : Plain ints)
    (visible : ints ≠ []) (behind : rest = [] ∨ Exists fun tail => rest = '.'.toUInt8 :: tail) :
    withSeparators g (sign negative ++ (ints ++ rest)) = sign negative ++ (groupDigits g ints ++ rest) := by
  rcases List.exists_cons_of_ne_nil visible with ⟨c, digits, rfl⟩
  have minus := (plain c List.mem_cons_self).2.2.1
  have front : (sign negative ++ (c :: digits ++ rest)).takeWhile (fun c => c = '-'.toUInt8) =
        sign negative ∧
      (sign negative ++ (c :: digits ++ rest)).dropWhile (fun c => c = '-'.toUInt8) = c :: digits ++ rest := by
    have stops : (c :: digits ++ rest).takeWhile (fun c => c = '-'.toUInt8) = [] ∧
        (c :: digits ++ rest).dropWhile (fun c => c = '-'.toUInt8) = c :: digits ++ rest := by
      rw [List.cons_append, List.takeWhile_cons_of_neg (by simpa using minus),
        List.dropWhile_cons_of_neg (by simpa using minus)]
      exact ⟨rfl, rfl⟩
    cases negative with
    | false => exact stops
    | true =>
        have cut := congrArg (List.cons '-'.toUInt8) stops.1
        exact ⟨cut, stops.2⟩
  have digit : ∀ d ∈ c :: digits, decide (d ≠ '.'.toUInt8) = true := fun d member =>
    decide_eq_true (plain d member).1
  have rear : rest.takeWhile (fun c => c ≠ '.'.toUInt8) = [] ∧
      rest.dropWhile (fun c => c ≠ '.'.toUInt8) = rest := by
    rcases behind with rfl | ⟨tail, rfl⟩
    · exact ⟨rfl, rfl⟩
    · exact ⟨rfl, rfl⟩
  rw [withSeparators, front.1, front.2, List.takeWhile_append_of_pos digit,
    List.dropWhile_append_of_pos digit, rear.1, rear.2, List.append_nil]

/-- What the pattern and the one without separators give. -/
theorem both_texts {machine : Machine} {pattern : Bytes} {g : Nat} {magnitude : ℚ}
    (place : groupingPlace (integerPart {} pattern) = g) (passes : Passes [] none pattern {})
    (negative : Bool) (fits : Fits machine {} pattern magnitude)
    (accepted : precisionOf machine (integerNumber machine magnitude) ≤ 32) :
    Exists fun ints => Exists fun rest => Shown machine pattern magnitude ints rest ∧
      xfFormat machine [] (.finite negative magnitude) pattern none =
        some (some (sign negative ++ (grouped g ints ++ rest))) ∧
      ((fractionalPart {} pattern ≠ [] → withoutSeparators (fractionalPart {} pattern) ≠ []) →
        xfFormat machine [] (.finite negative magnitude) (withoutSeparators pattern) none =
          some (some (sign negative ++ (ints ++ rest)))) := by
  rcases formatFinite_shown negative fits accepted with ⟨⟨text, precision⟩, string, -⟩
  rcases numberString_shown string with ⟨count, ints, rest, split, shown⟩
  dsimp only at count split
  subst split
  rw [← shown.length] at count
  subst count
  have run := xfFormat_grouped passes negative fits accepted string shown.plain
  rw [place] at run
  refine ⟨ints, _, shown, run, fun fraction => ?_⟩
  have string' := (withoutSeparators_string machine magnitude fraction).trans string
  have run' := xfFormat_grouped (withoutSeparators_passes passes) negative (withoutSeparators_fits fits)
    accepted string' shown.plain
  rw [(withoutSeparators_split pattern).1, (withoutSeparators_places _).2.2, grouped, if_pos rfl] at run'
  exact run'

/-- A pattern with a fraction gives a text with a dot, and one without gives none. -/
theorem dot_mem_text {machine : Machine} {pattern : Bytes} {magnitude : ℚ} {ints rest : Bytes} (g : Nat)
    (negative : Bool) (shown : Shown machine pattern magnitude ints rest) :
    '.'.toUInt8 ∈ sign negative ++ (grouped g ints ++ rest) ↔ fractionalPart {} pattern ≠ [] := by
  have front : '.'.toUInt8 ∉ sign negative := by cases negative <;> decide
  have digits : '.'.toUInt8 ∉ grouped g ints := by
    intro inside
    rcases mem_grouped inside with digit | separator
    · exact (shown.plain _ digit).1 rfl
    · exact absurd separator (by decide)
  rw [List.mem_append, List.mem_append, or_iff_right front, or_iff_right digits]
  constructor
  · rintro inside nothing
    rw [shown.nothing nothing] at inside
    cases inside
  · intro more
    rcases shown.fraction more with ⟨tail, rfl, -⟩
    exact List.mem_cons_self

/-- A separator in front of the first digit comes from digits that fill groups. -/
theorem withSeparators_text_iff {machine : Machine} {pattern : Bytes} {magnitude : ℚ} {ints rest : Bytes}
    {g : Nat} (positive : 1 ≤ g) (negative : Bool) (shown : Shown machine pattern magnitude ints rest) :
    sign negative ++ (grouped g ints ++ rest) = withSeparators g (sign negative ++ (ints ++ rest)) ↔
      (g < shownPrecision machine pattern magnitude → ¬ g ∣ shownPrecision machine pattern magnitude) := by
  have some_ : 0 < ints.length := by
    have one := minimum_pos {} (integerPart {} pattern)
    rw [shown.length, shownPrecision, writtenPrecision]
    omega
  have behind : rest = [] ∨ Exists fun tail => rest = '.'.toUInt8 :: tail := by
    by_cases nothing : fractionalPart {} pattern = []
    · exact .inl (shown.nothing nothing)
    · rcases shown.fraction nothing with ⟨tail, whole, -⟩
      exact .inr ⟨tail, whole⟩
  rw [withSeparators_text negative shown.plain (List.ne_nil_of_length_pos some_) behind, grouped,
    if_neg (Nat.ne_of_gt positive), List.append_cancel_left_eq, List.append_assoc]
  have leading : leadingSeparator g ints.length ints.length ++ (groupDigits g ints ++ rest) =
      groupDigits g ints ++ rest ↔ leadingSeparator g ints.length ints.length = [] :=
    List.append_left_eq_self
  rw [leading, leadingSeparator, ← shown.length, Nat.dvd_iff_mod_eq_zero]
  constructor
  · intro none_ more divides
    rw [if_pos ⟨some_, more, divides⟩] at none_
    cases none_
  · exact fun apart => if_neg fun all => apart all.2.1 all.2.2

/-- The separators of a number that is not refused. -/
theorem groupsRight_accepted {machine : Machine} {pattern : Bytes} {g : Nat} {magnitude : ℚ}
    (place : groupingPlace (integerPart {} pattern) = g) (positive : 1 ≤ g)
    (passes : Passes [] none pattern {}) (negative : Bool) (fits : Fits machine {} pattern magnitude)
    (accepted : precisionOf machine (integerNumber machine magnitude) ≤ 32) :
    GroupsRight machine pattern g negative magnitude ↔
      (fractionalPart {} pattern ≠ [] → withoutSeparators (fractionalPart {} pattern) ≠ []) ∧
        (g < shownPrecision machine pattern magnitude → ¬ g ∣ shownPrecision machine pattern magnitude) ∧
        (fractionalPart {} pattern ≠ [] →
          ¬ StraySeparator (writtenFraction machine {} pattern magnitude)) := by
  rcases both_texts place passes negative fits accepted with ⟨ints, rest, shown, run, run'⟩
  by_cases fraction : fractionalPart {} pattern ≠ [] → withoutSeparators (fractionalPart {} pattern) ≠ []
  · have stray : ','.toUInt8 ∉ rest ↔ (fractionalPart {} pattern ≠ [] →
        ¬ StraySeparator (writtenFraction machine {} pattern magnitude)) := by
      by_cases nothing : fractionalPart {} pattern = []
      · rw [shown.nothing nothing]
        exact iff_of_true List.not_mem_nil fun more => absurd nothing more
      · rcases shown.fraction nothing with ⟨tail, whole, stray⟩
        have apart : ','.toUInt8 ≠ '.'.toUInt8 := by decide
        rw [whole, List.mem_cons, or_iff_right apart, stray]
        exact ⟨fun absent _ => absent, fun absent => absent nothing⟩
    rw [GroupsRight, run, run' fraction, and_iff_right fraction,
      ← withSeparators_text_iff positive negative shown, ← stray,
      ← withoutSeparators_text_iff g negative shown.plain]
    constructor
    · rintro ⟨text, plain, same, same', without, with_⟩
      cases same
      cases same'
      exact ⟨Option.some.inj with_, Option.some.inj without⟩
    · rintro ⟨with_, without⟩
      exact ⟨_, _, rfl, rfl, congrArg some without, congrArg some with_⟩
  · -- The dot is shown for a fraction of separators only, and not for none.
    refine iff_of_false ?_ fun all => fraction all.1
    rintro ⟨text, plain, same, same', without, -⟩
    rcases both_texts rfl (withoutSeparators_passes passes) negative (withoutSeparators_fits fits) accepted
      with ⟨ints', rest', shown', bare, -⟩
    rw [run] at same
    rw [bare] at same'
    cases same
    cases same'
    have more : fractionalPart {} pattern ≠ [] := fun nothing => fraction fun some_ => absurd nothing some_
    have dot : '.'.toUInt8 ∈ withoutSeparators (sign negative ++ (grouped g ints ++ rest)) :=
      List.mem_filter.mpr ⟨(dot_mem_text g negative shown).mpr more, by decide⟩
    rw [Option.some.inj without, dot_mem_text _ negative shown', (withoutSeparators_split pattern).2] at dot
    exact fraction fun _ => dot

/-- The separators stand right exactly where the digits do not fill groups, and the rest of the
pattern and of the number does not get in the way. -/
theorem grouping_right_iff (machine : Machine) {pattern : Bytes} {g : Nat} (grouping : GroupedBy pattern g)
    (passes : Passes [] none pattern {}) (negative : Bool) (magnitude : ℚ) :
    GroupsRight machine pattern g negative magnitude ↔ GroupsWell machine pattern g magnitude := by
  have place := grouping.place
  have positive : 1 ≤ g := by
    rcases grouping with ⟨_, _, _, _, positive, _⟩
    exact positive
  constructor
  · intro right
    have fits : Fits machine {} pattern magnitude := by
      rcases right with ⟨text, _, run, _⟩
      rw [xfFormat_passes machine passes] at run
      exact (formatFinite_isSome_iff machine {} pattern negative magnitude).mp (run ▸ rfl)
    have accepts := fun accepted =>
      (groupsRight_accepted place positive passes negative fits accepted).mp right
    exact ⟨fits, fun accepted => (accepts accepted).1, fun accepted => (accepts accepted).2.1,
      fun accepted => (accepts accepted).2.2⟩
  · intro well
    by_cases accepted : precisionOf machine (integerNumber machine magnitude) ≤ 32
    · exact (groupsRight_accepted place positive passes negative well.fits accepted).mpr
        ⟨well.fraction accepted, well.places accepted, well.digits accepted⟩
    · have refused : ∀ pattern, Passes [] none pattern {} → Fits machine {} pattern magnitude →
          xfFormat machine [] (.finite negative magnitude) pattern none = some none := by
        intro pattern passes fits
        rw [xfFormat_passes machine passes, formatFinite_eq negative fits.split fits.parts,
          if_pos (Nat.lt_of_not_le accepted)]
      exact ⟨none, none, refused _ passes well.fits,
        refused _ (withoutSeparators_passes passes) (withoutSeparators_fits well.fits), rfl, rfl⟩

/-- A pattern with one separator. -/
theorem groupedBy_single {front rear pattern : Bytes} {g : Nat} (places : digitPlaces rear = g)
    (positive : 1 ≤ g) (single : ','.toUInt8 ∉ rear)
    (whole : integerPart {} pattern = front ++ ','.toUInt8 :: rear) : GroupedBy pattern g := by
  refine ⟨front, rear, whole, places, positive, fun front' rear' split => ?_⟩
  have inside : ','.toUInt8 ∈ rear := split ▸ List.mem_append_right front' List.mem_cons_self
  exact absurd inside single

theorem grouping_right_thousands :
    GroupedBy (lit "#,##0") 3 ∧ Passes [] none (lit "#,##0") {} ∧
    (GroupsRight commonMachine (lit "#,##0") 3 false 1234 ↔
      GroupsWell commonMachine (lit "#,##0") 3 1234) := by
  have grouping : GroupedBy (lit "#,##0") 3 :=
    @groupedBy_single (lit "#") (lit "##0") _ 3 rfl (by decide) (by decide) rfl
  have passes : Passes [] none (lit "#,##0") {} := ⟨by decide, rfl, by decide, by decide⟩
  exact ⟨grouping, passes, grouping_right_iff commonMachine grouping passes false 1234⟩

/-- Six digits in groups of three get a separator in front of the first. -/
theorem full_groups_start_with_separator :
    ¬ ∀ (machine : Machine) (pattern : Bytes) (g : Nat), GroupedBy pattern g → Passes [] none pattern {} →
      ∀ (negative : Bool) (magnitude : ℚ), GroupsRight machine pattern g negative magnitude := by
  intro always
  have grouping : GroupedBy (lit "#,###") 3 :=
    @groupedBy_single (lit "#") (lit "###") _ 3 rfl (by decide) (by decide) rfl
  have passes : Passes [] none (lit "#,###") {} := ⟨by decide, rfl, by decide, by decide⟩
  rcases always commonMachine _ 3 grouping passes false 123456 with ⟨text, plain, run, run', -, with_⟩
  have shown : xfFormat commonMachine [] (.finite false 123456) (lit "#,###") none =
      some (some (lit ",123,456")) := rfl
  have bare : xfFormat commonMachine [] (.finite false 123456) (withoutSeparators (lit "#,###")) none =
      some (some (lit "123456")) := rfl
  cases Option.some.inj (run.symm.trans shown)
  cases Option.some.inj (run'.symm.trans bare)
  revert with_
  decide

end NumberFormat

end TurboXSL
