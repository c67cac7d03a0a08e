import TurboXSL.NumberBuffers

namespace TurboXSL

open Library Output

/-!
# Patterns of `format-number`

With the usual signs a pattern is split at its first dot, and what counts of its
parts is how many places they have, how many of these are zeros, and where the
last separator stands.
-/

namespace NumberFormat

/-- The digit places of a part of the pattern. -/
def digitPlaces (part : Bytes) : Nat :=
  part.countP fun c => c = '0'.toUInt8 || c = '#'.toUInt8

/-- The pattern is split at its first dot. -/
theorem splitPattern_dot (pattern : Bytes) :
    integerPart {} pattern = pattern.takeWhile (fun c => c ≠ '.'.toUInt8) ∧
      fractionalPart {} pattern = (pattern.dropWhile fun c => c ≠ '.'.toUInt8).drop 1 := by
  rw [integerPart, fractionalPart]
  induction pattern with
  | nil => exact ⟨rfl, rfl⟩
  | cons c rest inductionHypothesis =>
      by_cases dot : c = '.'.toUInt8
      · subst dot
        have found : strstr ({} : Symbols).decimalSeparatorSign ('.'.toUInt8 :: rest) = some 0 :=
          if_pos ⟨rest, rfl⟩
        rw [found]
        exact ⟨rfl, rfl⟩
      · have absent : ¬ ({} : Symbols).decimalSeparatorSign <+: c :: rest := by
          rintro ⟨later, same⟩
          exact dot (List.cons.inj same).1.symm
        rw [strstr, if_neg absent, List.takeWhile_cons_of_pos (by simpa using dot),
          List.dropWhile_cons_of_pos (by simpa using dot)]
        cases found : strstr ({} : Symbols).decimalSeparatorSign rest with
        | none =>
            rw [found] at inductionHypothesis
            exact ⟨congrArg (List.cons c) inductionHypothesis.1, inductionHypothesis.2⟩
        | some position =>
            rw [found] at inductionHypothesis
            exact ⟨congrArg (List.cons c) inductionHypothesis.1, inductionHypothesis.2⟩

/-- The zero digits of a part of the pattern. -/
def zeroPlaces (part : Bytes) : Nat := part.count '0'.toUInt8

theorem digitPlaces_cons (c : UInt8) (part : Bytes) : digitPlaces (c :: part) =
    digitPlaces part + if c = '0'.toUInt8 ∨ c = '#'.toUInt8 then 1 else 0 := by
  rw [digitPlaces, List.countP_cons]
  simp [digitPlaces]

theorem zeroPlaces_cons (c : UInt8) (part : Bytes) : zeroPlaces (c :: part) =
    zeroPlaces part + if c = '0'.toUInt8 then 1 else 0 := by
  rw [zeroPlaces, List.count_cons]
  simp [zeroPlaces]

/-- The position that the code takes for that of the separators. -/
def groupingPlace : Bytes → Nat
  | [] => 0
  | c :: rest =>
      if c = ','.toUInt8 ∧ groupingPlace rest = 0 then digitPlaces rest else groupingPlace rest

/-- What the code reads from the places of a part. -/
def readPlaces (part : Bytes) : IntegerPlaces where
  minimum := zeroPlaces part
  maximum := digitPlaces part
  grouping := groupingPlace part

/-- One place of the pattern more. -/
theorem readPlaces_cons (c : UInt8) (rest : Bytes) :
    IntegerPlaces.step {} (readPlaces rest) c = readPlaces (c :: rest) := by
  have signs : byteAt ({} : Symbols).digitZeroSign = '0'.toUInt8 ∧
      byteAt ({} : Symbols).digitSign = '#'.toUInt8 ∧
      byteAt ({} : Symbols).groupingSign = ','.toUInt8 := ⟨rfl, rfl, rfl⟩
  rw [readPlaces, readPlaces, IntegerPlaces.step, signs.1, signs.2.1, signs.2.2, zeroPlaces_cons,
    digitPlaces_cons, groupingPlace]
  by_cases zero : c = '0'.toUInt8
  · subst zero
    rfl
  · by_cases digit : c = '#'.toUInt8
    · subst digit
      rfl
    · by_cases separator : c = ','.toUInt8
      · subst separator
        by_cases first : groupingPlace rest = 0
        · simp [zero, digit, first]
        · simp [zero, digit, first]
      · simp [zero, digit, separator]

theorem integerPlaces_plain (part : Bytes) : integerPlaces {} part =
    { minimum := max 1 (zeroPlaces part), maximum := digitPlaces part, grouping := groupingPlace part } := by
  have places : part.reverse.foldl (IntegerPlaces.step {}) {} = readPlaces part := by
    rw [List.foldl_reverse]
    induction part with
    | nil => rfl
    | cons c rest inductionHypothesis =>
        rw [List.foldr_cons, inductionHypothesis, readPlaces_cons]
  have least : (if zeroPlaces part = 0 then 1 else zeroPlaces part) = max 1 (zeroPlaces part) := by
    split <;> omega
  rw [integerPlaces, places, ← least]
  rfl

/-- Where no separator has digit places behind it, there is no position. -/
theorem groupingPlace_eq_zero {part : Bytes}
    (bare : ∀ front rear, part = front ++ ','.toUInt8 :: rear → digitPlaces rear = 0) :
    groupingPlace part = 0 := by
  induction part with
  | nil => rfl
  | cons c rest inductionHypothesis =>
      have later := inductionHypothesis fun front rear split =>
        bare (c :: front) rear (congrArg (List.cons c) split)
      rw [groupingPlace]
      split
      next here => exact bare [] rest (congrArg (· :: rest) here.1)
      next => exact later

/-- The places of a part of the pattern, counted from its start. -/
def countPlaces : Nat × Nat → UInt8 → Nat × Nat := fun (minimum, maximum) c =>
  let (minimum, maximum) := if c = byteAt ({} : Symbols).digitZeroSign
    then (minimum + 1, maximum + 1) else (minimum, maximum)
  if c = byteAt ({} : Symbols).digitSign then (minimum, maximum + 1) else (minimum, maximum)

theorem countPlaces_eq (minimum maximum : Nat) (c : UInt8) : countPlaces (minimum, maximum) c =
    (minimum + (if c = '0'.toUInt8 then 1 else 0),
      maximum + if c = '0'.toUInt8 ∨ c = '#'.toUInt8 then 1 else 0) := by
  have signs : byteAt ({} : Symbols).digitZeroSign = '0'.toUInt8 ∧
      byteAt ({} : Symbols).digitSign = '#'.toUInt8 := ⟨rfl, rfl⟩
  rw [countPlaces, signs.1, signs.2]
  by_cases zero : c = '0'.toUInt8
  · subst zero
    rfl
  · by_cases digit : c = '#'.toUInt8
    · subst digit
      rfl
    · simp [zero, digit]

theorem fractionPlaces_plain (part : Bytes) :
    fractionPlaces {} part = (zeroPlaces part, digitPlaces part) := by
  have counted : ∀ minimum maximum : Nat, part.foldl countPlaces (minimum, maximum) =
      (minimum + zeroPlaces part, maximum + digitPlaces part) := by
    induction part with
    | nil => exact fun _ _ => rfl
    | cons c rest inductionHypothesis =>
        intro minimum maximum
        rw [List.foldl_cons, countPlaces_eq, inductionHypothesis, zeroPlaces_cons, digitPlaces_cons,
          Nat.add_right_comm, Nat.add_right_comm maximum, Nat.add_assoc minimum, Nat.add_assoc maximum]
  have whole : fractionPlaces {} part = part.foldl countPlaces (0, 0) := rfl
  rw [whole, counted, Nat.zero_add, Nat.zero_add]

theorem strstr_single (c : UInt8) (text : Bytes) : strstr [c] text = none ↔ c ∉ text := by
  induction text with
  | nil => exact iff_of_true rfl List.not_mem_nil
  | cons d rest inductionHypothesis =>
      rw [strstr, List.mem_cons, not_or]
      by_cases here : [c] <+: d :: rest
      · rcases here with ⟨rear, same⟩
        rw [if_pos ⟨rear, same⟩]
        exact iff_of_false (Option.some_ne_none _) fun apart => apart.1 (List.cons.inj same).1
      · have apart : c ≠ d := fun same => here ⟨rest, congrArg (· :: rest) same⟩
        rw [if_neg here, Option.map_eq_none_iff, inductionHypothesis, and_iff_right apart]

end NumberFormat

end TurboXSL
