import TurboXSL.ParseSafety
import TurboXSL.RoundTrip

namespace TurboXSL
namespace Output

open Library Document Parse

/-!
# Escaping and its inverse

`add_quoted_str` and `add_quoted_attribute_value` leave the ampersand of a
`&#` as it is, because the text may already be a character reference, while
`unescape_string` decodes every reference.  Decoding such a reference always
gives fewer bytes than were written, so what was escaped comes back exactly
where no `&#` occurs in it.
-/

/-- `unescape_string` -/
def unescapeString (s : Bytes) : Except Stop Bytes := makeUnescapedString s []

/-! ## How long a decoded reference is -/

/-- A number that takes at most one byte has at most one digit. -/
theorem strtoul_short {p : Bytes} {base : Nat} (small : base ≤ 16)
    (short : p.length ≤ (strtoul p base).2.length + 1) : (strtoul p base).1 < 16 := by
  have spaces : (p.dropWhile isSpace).length ≤ p.length :=
    (List.dropWhile_sublist isSpace).length_le
  have negative : ∀ start : Bytes, byteAt start = '-'.toUInt8 → start.tail.length < start.length := by
    intro start sign
    cases start with
    | nil => exact absurd sign (by decide)
    | cons c rest => exact Nat.lt_succ_self _
  revert short
  simp only [strtoul]
  generalize p.dropWhile isSpace = start at spaces
  generalize behindSign : (if byteAt start = '-'.toUInt8 ∨ byteAt start = '+'.toUInt8
    then start.tail else start) = q
  have signLength : q.length ≤ start.length := by
    rw [← behindSign]
    split
    · exact List.length_tail ▸ Nat.sub_le _ _
    · exact Nat.le_refl _
  generalize mark : (if base = 16 ∧ byteAt q = '0'.toUInt8 ∧
    (byteAt q.tail = 'x'.toUInt8 ∨ byteAt q.tail = 'X'.toUInt8) then q.tail.tail else q) = r
  have markLength : r.length ≤ q.length := by
    rw [← mark]
    split
    · simp only [List.length_tail]
      omega
    · exact Nat.le_refl _
  have digits : (digitsAt base r).1.length + (digitsAt base r).2.length = r.length := by
    rw [digitsAt, List.span_eq_takeWhile_dropWhile, ← List.length_append,
      List.takeWhile_append_dropWhile]
  have allDigits : ∀ c ∈ (digitsAt base r).1, digitValue c < base := by
    intro c member
    simp only [digitsAt, List.span_eq_takeWhile_dropWhile] at member
    exact of_decide_eq_true (p := digitValue c < base)
      (List.mem_takeWhile_imp (p := fun c => decide (digitValue c < base)) member)
  split
  · intro _
    exact Nat.zero_lt_succ _
  · intro (short : p.length ≤ (digitsAt base r).2.length + 1)
    cases found : (digitsAt base r).1 with
    | nil => contradiction
    | cons d rest =>
        rw [found] at digits allDigits
        simp only [List.length_cons] at digits
        have single : rest = [] := List.length_eq_zero_iff.mp (by omega)
        have unsigned : ¬ byteAt start = '-'.toUInt8 := by
          intro sign
          have shorter := negative start sign
          rw [if_pos (.inl sign)] at behindSign
          rw [behindSign] at shorter
          omega
        have value : digitValue d < 16 :=
          Nat.lt_of_lt_of_le (allDigits d List.mem_cons_self) small
        have plain : digitsValue base [d] = digitValue d := by simp [digitsValue]
        rw [single, plain, strtoulValue, if_neg (by rw [ulongMax]; omega), decide_eq_false unsigned]
        exact value

theorem xmlsAddUtf_length_le (u : Nat) : (xmlsAddUtf u).length ≤ 4 := by
  rw [xmlsAddUtf]
  repeat' split
  all_goals simp

theorem xmlsAddUtf_length_small {u : Nat} (small : u < 128) : (xmlsAddUtf u).length = 1 := by
  rw [xmlsAddUtf, if_pos small]
  rfl

/-- A decoded number is at most one byte longer than what stands behind its `#`. -/
theorem numericEntity_length (s : Bytes) :
    (xmlsAddUtf (numericEntity s).1).length + (numericEntity s).2.length ≤ s.length + 1 := by
  generalize digits : (if byteAt s = 'x'.toUInt8 ∨ byteAt s = 'X'.toUInt8
    then strtoul s.tail 16 else strtoul s 10) = found
  have eaten : found.2.length ≤ s.length ∧ (s.length ≤ found.2.length + 1 → found.1 < 16) := by
    rw [← digits]
    split
    · rcases (strtoul_eats s.tail (Nat.le_refl 16)) with ⟨eaten, split, -⟩
      have length := congrArg List.length split
      rw [List.length_append, List.length_tail] at length
      refine ⟨by omega, fun short => strtoul_short (Nat.le_refl 16) ?_⟩
      rw [List.length_tail]
      omega
    · rcases (strtoul_eats s (show 10 ≤ 16 by decide)) with ⟨eaten, split, -⟩
      have length := congrArg List.length split
      rw [List.length_append] at length
      exact ⟨by omega, fun short => strtoul_short (by decide) short⟩
  simp only [numericEntity, digits]
  by_cases semicolon : byteAt found.2 = ';'.toUInt8
  · have behind : found.2.tail.length + 1 = found.2.length := by
      cases rest : found.2 with
      | nil => exact absurd (rest ▸ semicolon) (by decide)
      | cons c rest => rfl
    simp only [if_pos semicolon]
    by_cases short : s.length ≤ found.2.length + 1
    · have small := eaten.2 short
      rw [xmlsAddUtf_length_small (Nat.lt_of_le_of_lt (Nat.mod_le _ _) (by omega))]
      omega
    · have bound := xmlsAddUtf_length_le (found.1 % 2 ^ 32)
      omega
  · simp only [if_neg semicolon]
    rw [xmlsAddUtf_length_small (by decide)]
    omega

/-! ## Decoding what was escaped -/

/-- Bytes without an ampersand at the front of an escaped value are bytes of the value. -/
theorem addQuoted_split {quotes : Bool} {eaten rest value : Bytes}
    (plain : '&'.toUInt8 ∉ eaten) (noNul : 0 ∉ value)
    (split : addQuoted quotes value = eaten ++ rest) :
    Exists fun later => value = eaten ++ later ∧ rest = addQuoted quotes later := by
  induction eaten generalizing value with
  | nil => exact ⟨value, rfl, split.symm⟩
  | cons c eaten inductionHypothesis =>
      cases value with
      | nil => cases split
      | cons d value =>
          have visible : d ≠ 0 := fun zero => noNul (zero ▸ List.mem_cons_self)
          have other : c ≠ '&'.toUInt8 := fun same => plain (same ▸ List.mem_cons_self)
          rcases addQuoted_cons quotes visible value with
            ⟨piece, written, stands, -⟩ | ⟨ampersand, -, written⟩
          · rw [split] at written
            rcases piece_cases piece with ⟨byte, -, render, denote⟩ | ⟨reference, render, -⟩
            · rw [render] at written
              have same : c = d := by
                rw [stands] at denote
                exact (List.cons.inj written).1.trans (List.cons.inj denote).1.symm
              rcases inductionHypothesis (fun member => plain (List.mem_cons_of_mem _ member))
                (fun member => noNul (List.mem_cons_of_mem _ member))
                (List.cons.inj written).2.symm with ⟨later, rfl, behind⟩
              exact ⟨later, by rw [same]; rfl, behind⟩
            · rw [render] at written
              exact absurd (List.cons.inj written).1 other
          · rw [split, ampersand] at written
            exact absurd (List.cons.inj written).1 other

theorem addQuoted_kept (quotes : Bool) {c : UInt8} {value : Bytes}
    (listed : c = '&'.toUInt8 ∧ byteAt value = '#'.toUInt8 ∨ c = '#'.toUInt8) :
    addQuoted quotes (c :: value) = c :: addQuoted quotes value := by
  have others : ∀ c ∈ ['&'.toUInt8, '#'.toUInt8],
      c ≠ 0 ∧ c ≠ '"'.toUInt8 ∧ c ≠ '<'.toUInt8 ∧ c ≠ '>'.toUInt8 := forall_bytes (by decide)
  rcases others c (by rcases listed with ⟨rfl, -⟩ | rfl <;> simp) with
    ⟨visible, quote, less, greater⟩
  rw [addQuoted, if_neg visible, if_neg fun both => quote both.2, if_neg less, if_neg greater,
    if_neg]
  rintro ⟨same, noMark⟩
  rcases listed with ⟨-, mark⟩ | hash
  · exact noMark mark
  · exact absurd (same.symm.trans hash) (by decide)

/-- Decoding one numeric reference of an escaped value: what comes out is
shorter than what went in. -/
theorem decoded_reference (quotes : Bool) {value : Bytes} (noNul : 0 ∉ value) :
    Exists fun found => Exists fun later => 0 ∉ later ∧
      (addQuoted quotes later).length ≤ (addQuoted quotes value).length ∧
      found.length + later.length ≤ value.length + 1 ∧
      ∀ fuel, unescapeLoop (fuel + 1) ('&'.toUInt8 :: '#'.toUInt8 :: addQuoted quotes value) 0 =
        (unescapeLoop fuel (addQuoted quotes later) 0).map (found ++ ·) := by
  have shown : addQuoted quotes ('#'.toUInt8 :: value) = '#'.toUInt8 :: addQuoted quotes value :=
    addQuoted_kept quotes (.inr rfl)
  generalize number : numericEntity (addQuoted quotes value) = found
  have decode : decodeEntity ('#'.toUInt8 :: addQuoted quotes value) =
      .ok (xmlsAddUtf found.1, found.2) := by
    rw [← number]
    exact if_pos rfl
  rcases decodeEntity_eats decode with ⟨eaten, split, plain⟩
  have noNulTail : 0 ∉ '#'.toUInt8 :: value := fun member =>
    (List.mem_cons.mp member).elim (fun same => absurd same (by decide)) noNul
  rcases addQuoted_split plain noNulTail (shown.trans split) with ⟨later, kept, behind⟩
  have valueLength := congrArg List.length kept
  have writtenLength := congrArg List.length split
  have bound := number ▸ numericEntity_length (addQuoted quotes value)
  rw [List.length_cons, List.length_append] at valueLength writtenLength
  rw [behind] at writtenLength bound
  refine ⟨xmlsAddUtf found.1, later, fun member => noNulTail ?_, ?_, ?_, fun fuel => ?_⟩
  · exact kept ▸ List.mem_append_right eaten member
  · rcases numericEntity_eats (addQuoted quotes value) with ⟨skipped, whole, -⟩
    have length := congrArg List.length whole
    rw [List.length_append, number, behind] at length
    omega
  · omega
  · rw [split, behind]
    exact unescapeLoop_reference (Nat.zero_le _) (by rw [← behind, ← split, decode])

theorem starts_no_reference {c : UInt8} {value : Bytes}
    (noMark : c = '&'.toUInt8 → byteAt value ≠ '#'.toUInt8) : ¬ lit "&#" <+: c :: value := by
  have reference : lit "&#" = ['&'.toUInt8, '#'.toUInt8] := by decide
  rw [reference]
  rintro ⟨rest, split⟩
  cases value with
  | nil => cases (List.cons.inj split).2
  | cons d value =>
      exact noMark (List.cons.inj split).1.symm
        (List.cons.inj (List.cons.inj split).2).1.symm

/-- What was escaped is decoded to no more bytes than it has, and to fewer
where a `&#` occurs. -/
theorem unescapeLoop_addQuoted (quotes : Bool) {value : Bytes} (noNul : 0 ∉ value) {fuel : Nat}
    (enough : (addQuoted quotes value).length ≤ fuel) :
    Exists fun out => unescapeLoop fuel (addQuoted quotes value) 0 = .ok out ∧
      out.length ≤ value.length ∧ (lit "&#" <:+: value → out.length < value.length) := by
  induction fuel generalizing value with
  | zero =>
      cases value with
      | nil => exact ⟨[], rfl, Nat.le_refl _, fun found => absurd found (by decide)⟩
      | cons c value =>
          have visible : c ≠ 0 := fun zero => noNul (zero ▸ List.mem_cons_self)
          rcases addQuoted_cons quotes visible value with
            ⟨piece, written, -⟩ | ⟨-, -, written⟩
          · rw [written, List.length_append] at enough
            rcases piece_cases piece with ⟨_, -, render, -⟩ | ⟨_, render, -⟩ <;>
            · rw [render, List.length_cons] at enough
              omega
          · rw [written] at enough
            cases enough
  | succ fuel inductionHypothesis =>
      cases value with
      | nil => exact ⟨[], rfl, Nat.le_refl _, fun found => absurd found (by decide)⟩
      | cons c value =>
          have visible : c ≠ 0 := fun zero => noNul (zero ▸ List.mem_cons_self)
          have noNulTail : 0 ∉ value := fun member => noNul (List.mem_cons_of_mem _ member)
          rcases addQuoted_cons quotes visible value with
            ⟨piece, written, stands, -, noMark⟩ | ⟨ampersand, mark, written⟩
          · rw [written, List.length_append] at enough
            have shorter : (addQuoted quotes value).length ≤ fuel := by
              rcases piece_cases piece with ⟨_, -, render, -⟩ | ⟨_, render, -⟩ <;>
              · rw [render, List.length_cons] at enough
                omega
            rcases inductionHypothesis noNulTail shorter with ⟨out, decoded, bound, strict⟩
            have later : lit "&#" <:+: c :: value → lit "&#" <:+: value := by
              intro found
              rcases List.infix_cons_iff.mp found with here | later
              · exact absurd here (starts_no_reference noMark)
              · exact later
            refine ⟨c :: out, ?_, Nat.succ_le_succ bound,
              fun found => Nat.succ_lt_succ (strict (later found))⟩
            rw [written]
            rcases piece_cases piece with ⟨byte, ordinary, render, denote⟩ | ⟨reference, render, decode⟩
            · rw [stands] at denote
              rw [render, ← denote, List.singleton_append,
                unescapeLoop_plain (Nat.zero_le _) ?_, decoded]
              · rfl
              · exact (List.cons.inj denote).1 ▸ ordinary.2.2
            · rw [render, List.cons_append,
                unescapeLoop_reference (Nat.zero_le _) (decode _), decoded, stands]
              rfl
          · cases value with
            | nil => exact absurd mark (by decide)
            | cons d value =>
                obtain rfl : d = '#'.toUInt8 := mark
                rcases decoded_reference quotes (fun member => noNulTail (List.mem_cons_of_mem _ member))
                  with ⟨found, later, noNulLater, shorter, length, step⟩
                have shown : addQuoted quotes (c :: '#'.toUInt8 :: value) =
                    '&'.toUInt8 :: '#'.toUInt8 :: addQuoted quotes value := by
                  rw [written, ampersand, addQuoted_kept quotes (.inr rfl)]
                rw [shown, List.length_cons, List.length_cons] at enough
                rcases inductionHypothesis noNulLater (show _ ≤ fuel by omega) with
                  ⟨out, decoded, bound, -⟩
                have total : (found ++ out).length < (c :: '#'.toUInt8 :: value).length := by
                  rw [List.length_append, List.length_cons, List.length_cons]
                  omega
                refine ⟨found ++ out, ?_, Nat.le_of_lt total, fun _ => total⟩
                rw [shown, step, decoded]
                rfl

/-- Decoding gives an escaped value back iff no `&#` occurs in it. -/
theorem unescapeString_addQuoted_iff (quotes : Bool) (value : CString) :
    unescapeString (addQuoted quotes value.bytes) = .ok value.bytes ↔
      ¬ lit "&#" <:+: value.bytes := by
  constructor
  · intro same found
    rcases unescapeLoop_addQuoted quotes value.noNul (Nat.le_refl _) with
      ⟨out, decoded, -, strict⟩
    have kept : out = value.bytes := Except.ok.inj (decoded.symm.trans same)
    exact absurd (strict found) (kept ▸ Nat.lt_irrefl _)
  · intro absent
    rcases addQuoted_pieces quotes ⟨value.noNul, absent⟩ with ⟨pieces, rendered, denoted, -⟩
    have decoded := makeUnescapedString_pieces pieces []
    rwa [List.append_nil, rendered, denoted] at decoded

/-- Each way of escaping a string is undone by `unescape_string` iff no `&#`
occurs in it. -/
theorem escaping_lossless_iff (s : CString) :
    (unescapeString (addQuotedStr s.bytes) = .ok s.bytes ↔ ¬ lit "&#" <:+: s.bytes) ∧
      (unescapeString (addQuotedAttributeValue s.bytes) = .ok s.bytes ↔
        ¬ lit "&#" <:+: s.bytes) :=
  ⟨unescapeString_addQuoted_iff false s, unescapeString_addQuoted_iff true s⟩

/-- The text `&#65;` is written as it is, and comes back as `A`. -/
theorem reference_text_is_lost :
    ¬ ∀ s : CString, unescapeString (addQuotedStr s.bytes) = .ok s.bytes ∧
      unescapeString (addQuotedAttributeValue s.bytes) = .ok s.bytes := by
  intro lossless
  have kept := (lossless ⟨lit "&#65;", by decide⟩).1
  have decoded : unescapeString (addQuotedStr (lit "&#65;")) = .ok (lit "A") := by rfl
  exact absurd (Except.ok.inj (decoded.symm.trans kept)) (by decide)

end Output
end TurboXSL
