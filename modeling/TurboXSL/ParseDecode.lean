import TurboXSL.Document
import TurboXSL.Library.Delimiter
import TurboXSL.ParseStep

namespace TurboXSL
namespace Parse

open Library Document

/-!
# Decoding and scanning well-formed parts

On the parts of a document of the grammar every scanning loop stops where it
should, and decoding yields what the references stand for.
-/

/-! ## UTF-8 -/

/-- Bits in disjoint places are added. -/
private theorem mask_or (width high low : Nat) (small : low < 2 ^ width) :
    2 ^ width * high ||| low = low + 2 ^ width * high := by
  rw [Nat.add_comm]
  exact (Nat.two_pow_add_eq_or_of_lt small high).symm

theorem xmlsAddUtf_char (c : Char) : xmlsAddUtf c.toNat = String.utf8EncodeChar c := by
  have bound : c.toNat < 0x110000 := by
    have valid := c.valid
    simp only [UInt32.isValidChar, Nat.isValidChar] at valid
    show c.val.toNat < _
    omega
  have trail : ∀ n : Nat, 0x80 ||| (n &&& 0x3F) = n % 0x40 + 0x80 := by
    intro n
    rw [show (0x3F : Nat) = 2 ^ 6 - 1 from rfl, Nat.and_two_pow_sub_one_eq_mod]
    exact mask_or 6 2 _ (Nat.mod_lt n (show 0 < 2 ^ 6 by decide))
  have number : c.toNat = c.val.toNat := rfl
  simp only [xmlsAddUtf, String.utf8EncodeChar, Nat.shiftRight_eq_div_pow, trail, number]
    at bound ⊢
  generalize c.val.toNat = u at bound
  by_cases one : u < 128
  · rw [if_pos one, if_pos (Nat.le_of_lt_succ one)]
  · rw [if_neg one, if_neg fun small => one (Nat.lt_succ_of_le small)]
    by_cases two : u < 0x800
    · have lead : 0xC0 ||| (u / 2 ^ 6) = u / 64 % 0x20 + 0xc0 := by
        rw [Nat.mod_eq_of_lt (by omega)]
        exact mask_or 6 3 _ (by omega)
      rw [if_pos two, if_pos (Nat.le_of_lt_succ two), lead]
    · rw [if_neg two, if_neg fun small => two (Nat.lt_succ_of_le small)]
      by_cases three : u < 0x10000
      · have lead : 0xE0 ||| (u / 2 ^ 12) = u / 4096 % 0x10 + 0xe0 := by
          rw [Nat.mod_eq_of_lt (by omega)]
          exact mask_or 5 7 _ (by omega)
        rw [if_pos three, if_pos (Nat.le_of_lt_succ three), lead]
      · have lead : 0xF0 ||| (u / 2 ^ 18) = u / 262144 % 0x08 + 0xf0 := by
          rw [Nat.mod_eq_of_lt (by omega)]
          exact mask_or 4 15 _ (by omega)
        rw [if_neg three, if_neg fun small => three (Nat.lt_succ_of_le small),
          if_pos (by omega), lead]

/-! ## References -/

theorem isSpace_of_digit {d : UInt8} (digit : digitValue d < 16) : isSpace d = false := by
  have zero : '0'.toUInt8 = 48 := rfl
  have lower : 'a'.toUInt8 = 97 := rfl
  have upper : 'A'.toUInt8 = 65 := rfl
  have high : 48 ≤ d.toNat := by
    by_contra low
    simp [digitValue, isDigit, zero, lower, upper, UInt8.le_iff_toNat_le] at digit
    grind
  simp [isSpace, UInt8.le_iff_toNat_le, ← UInt8.toNat_inj]
  omega

/-- What no digit is. -/
theorem digit_plain {d : UInt8} (digit : digitValue d < 16) :
    d ≠ '-'.toUInt8 ∧ d ≠ '+'.toUInt8 ∧ d ≠ 'x'.toUInt8 ∧ d ≠ 'X'.toUInt8 := by
  refine ⟨?_, ?_, ?_, ?_⟩ <;>
  · rintro rfl
    exact absurd digit (by decide)

/-- `strtoul` reads the digits of a character reference. -/
theorem strtoul_digits {base : Nat} {c : Char} {digits : Bytes} (spelled : Spells base c digits)
    (known : base = 10 ∨ base = 16) (rest : Bytes) :
    strtoul (digits ++ ';'.toUInt8 :: rest) base = (c.toNat, ';'.toUInt8 :: rest) := by
  have small : base ≤ 16 := by omega
  have semicolon : ¬ digitValue ';'.toUInt8 < base := by
    have value : digitValue ';'.toUInt8 = 16 := by decide
    omega
  have scanned : digitsAt base (digits ++ ';'.toUInt8 :: rest) =
      (digits, ';'.toUInt8 :: rest) := by
    simp only [digitsAt, List.span_eq_takeWhile_dropWhile]
    have all : ∀ d ∈ digits, decide (digitValue d < base) = true :=
      fun d member => decide_eq_true (spelled.digit d member)
    rw [List.takeWhile_append_of_pos all, List.dropWhile_append_of_pos all,
      List.takeWhile_cons_of_neg (by simpa using semicolon),
      List.dropWhile_cons_of_neg (by simpa using semicolon), List.append_nil]
  have bound : ¬ ulongMax < c.toNat := by
    have valid := c.valid
    simp only [UInt32.isValidChar, Nat.isValidChar] at valid
    show ¬ ulongMax < c.val.toNat
    simp only [ulongMax]
    omega
  have nonempty := spelled.nonempty
  cases here : digits with
  | nil => exact (nonempty here).elim
  | cons d later =>
      have digit : digitValue d < 16 :=
        Nat.lt_of_lt_of_le (spelled.digit d (here ▸ List.mem_cons_self)) small
      have second : byteAt (later ++ ';'.toUInt8 :: rest) ≠ 'x'.toUInt8 ∧
          byteAt (later ++ ';'.toUInt8 :: rest) ≠ 'X'.toUInt8 := by
        cases later with
        | nil => exact ⟨show ';'.toUInt8 ≠ _ by decide, show ';'.toUInt8 ≠ _ by decide⟩
        | cons e later =>
            have digit : digitValue e < 16 := by
              refine Nat.lt_of_lt_of_le (spelled.digit e ?_) small
              exact here ▸ List.mem_cons_of_mem _ List.mem_cons_self
            exact (digit_plain digit).2.2
      have start : (d :: later ++ ';'.toUInt8 :: rest).dropWhile isSpace =
          d :: later ++ ';'.toUInt8 :: rest :=
        List.dropWhile_cons_of_neg (by simp [isSpace_of_digit digit])
      have first : byteAt (d :: later ++ ';'.toUInt8 :: rest) = d := rfl
      have tail : (d :: later ++ ';'.toUInt8 :: rest).tail = later ++ ';'.toUInt8 :: rest := rfl
      rw [here] at scanned
      simp only [strtoul, start, first, tail, (digit_plain digit).1, (digit_plain digit).2.1,
        second.1, second.2, or_self, and_false, if_false, scanned, reduceCtorEq, decide_false]
      rw [← here, spelled.value, strtoulValue, if_neg bound]
      rfl

theorem decodeEntity_entity (which : Entity) (rest : Bytes) :
    decodeEntity (which.reference ++ rest) = .ok ([which.byte], rest) := by
  cases which <;> rfl

/-- A number that ends in a semicolon is decoded to its character. -/
theorem decodeEntity_number {s rest : Bytes} {c : Char}
    (read : (if byteAt s = 'x'.toUInt8 ∨ byteAt s = 'X'.toUInt8
      then strtoul s.tail 16 else strtoul s 10) = (c.toNat, ';'.toUInt8 :: rest)) :
    decodeEntity ('#'.toUInt8 :: s) = .ok (String.utf8EncodeChar c, rest) := by
  have mark : byteAt ('#'.toUInt8 :: s) = '#'.toUInt8 := rfl
  have semicolon : byteAt (';'.toUInt8 :: rest) = ';'.toUInt8 := rfl
  have number : numericEntity s = (c.toNat, rest) := by
    simp only [numericEntity, read, semicolon, if_true, List.tail_cons]
    exact congrArg (·, rest) (Nat.mod_eq_of_lt c.val.toNat_lt)
  simp only [decodeEntity, if_pos mark, List.tail_cons, number, xmlsAddUtf_char]

theorem decodeEntity_decimal {c : Char} {digits : Bytes} (spelled : Spells 10 c digits)
    (rest : Bytes) :
    decodeEntity ('#'.toUInt8 :: (digits ++ ';'.toUInt8 :: rest)) =
      .ok (String.utf8EncodeChar c, rest) := by
  refine decodeEntity_number ?_
  rw [if_neg, strtoul_digits spelled (.inl rfl)]
  cases here : digits with
  | nil => exact (spelled.nonempty here).elim
  | cons d later =>
      have digit := spelled.digit d (here ▸ List.mem_cons_self)
      have plain := digit_plain (Nat.lt_of_lt_of_le digit (by decide))
      exact not_or.mpr plain.2.2

theorem decodeEntity_hexadecimal {c : Char} {digits : Bytes} (spelled : Spells 16 c digits)
    (rest : Bytes) :
    decodeEntity ('#'.toUInt8 :: 'x'.toUInt8 :: (digits ++ ';'.toUInt8 :: rest)) =
      .ok (String.utf8EncodeChar c, rest) := by
  refine decodeEntity_number ?_
  rw [if_pos (.inl rfl), List.tail_cons, strtoul_digits spelled (.inr rfl)]

/-- A piece stands for itself, or is a reference that is decoded. -/
theorem piece_cases (piece : Piece) :
    (Exists fun c => Ordinary c ∧ piece.render = [c] ∧ piece.denote = [c]) ∨
      Exists fun reference => piece.render = '&'.toUInt8 :: reference ∧
        ∀ rest, decodeEntity (reference ++ rest) = .ok (piece.denote, rest) := by
  cases piece with
  | plain c ordinary => exact .inl ⟨c, ordinary, rfl, rfl⟩
  | entity which => exact .inr ⟨which.reference, rfl, decodeEntity_entity which⟩
  | decimal c digits spelled =>
      refine .inr ⟨'#'.toUInt8 :: (digits ++ [';'.toUInt8]), rfl, fun rest => ?_⟩
      rw [List.cons_append, List.append_assoc]
      exact decodeEntity_decimal spelled rest
  | hexadecimal c digits spelled =>
      refine .inr ⟨'#'.toUInt8 :: 'x'.toUInt8 :: (digits ++ [';'.toUInt8]), rfl, fun rest => ?_⟩
      rw [List.cons_append, List.cons_append, List.append_assoc]
      exact decodeEntity_hexadecimal spelled rest

/-- One reference of a well-formed run is decoded. -/
theorem unescapeLoop_reference {fuel : Nat} {reference rest out : Bytes} {stop : Nat}
    (more : stop ≤ rest.length)
    (decoded : decodeEntity (reference ++ rest) = .ok (out, rest)) :
    unescapeLoop (fuel + 1) ('&'.toUInt8 :: (reference ++ rest)) stop =
      (unescapeLoop fuel rest stop).map (out ++ ·) := by
  have inside : ¬ ('&'.toUInt8 :: (reference ++ rest)).length ≤ stop := by
    rw [List.length_cons, List.length_append]
    omega
  simp only [unescapeLoop, if_neg inside, if_true, decoded, bind, Except.bind]
  cases unescapeLoop fuel rest stop <;> rfl

theorem unescapeLoop_plain {fuel : Nat} {c : UInt8} {rest : Bytes} {stop : Nat}
    (more : stop ≤ rest.length) (plain : c ≠ '&'.toUInt8) :
    unescapeLoop (fuel + 1) (c :: rest) stop = (unescapeLoop fuel rest stop).map (c :: ·) := by
  have inside : ¬ (c :: rest).length ≤ stop := by
    rw [List.length_cons]
    omega
  simp only [unescapeLoop, if_neg inside, if_neg plain, bind, Except.bind]
  cases unescapeLoop fuel rest stop <;> rfl

/-- A run of pieces is decoded to what it stands for. -/
theorem unescapeLoop_pieces (pieces : List Piece) (rest : Bytes) {fuel : Nat}
    (enough : (renderPieces pieces ++ rest).length ≤ fuel) :
    unescapeLoop fuel (renderPieces pieces ++ rest) rest.length = .ok (denotePieces pieces) := by
  induction pieces generalizing fuel with
  | nil =>
      have ended : unescapeLoop fuel rest rest.length = .ok [] := by
        cases fuel with
        | zero => rfl
        | succ fuel =>
            cases rest with
            | nil => rfl
            | cons c rest => simp only [unescapeLoop, Nat.le_refl, if_true]
      exact ended
  | cons piece pieces inductionHypothesis =>
      have split : renderPieces (piece :: pieces) ++ rest =
          piece.render ++ (renderPieces pieces ++ rest) := by
        simp only [renderPieces, List.flatMap_cons, List.append_assoc]
      have denoted : denotePieces (piece :: pieces) = piece.denote ++ denotePieces pieces := rfl
      rw [split] at enough ⊢
      rw [denoted]
      generalize later : renderPieces pieces ++ rest = tail at inductionHypothesis enough ⊢
      have long : rest.length ≤ tail.length := by
        rw [← later, List.length_append]
        exact Nat.le_add_left _ _
      rw [List.length_append] at enough
      cases fuel with
      | zero =>
          rcases piece_cases piece with ⟨c, -, render, -⟩ | ⟨reference, render, -⟩ <;>
          · rw [render, List.length_cons] at enough
            omega
      | succ fuel =>
          rcases piece_cases piece with ⟨c, ordinary, render, denote⟩ | ⟨reference, render, decode⟩
          · rw [render, List.length_singleton] at enough
            rw [render, denote, List.singleton_append, unescapeLoop_plain long ordinary.2.2,
              inductionHypothesis (by omega)]
            rfl
          · rw [render, List.length_cons] at enough
            rw [render, List.cons_append, unescapeLoop_reference long (decode tail),
              inductionHypothesis (by omega)]
            rfl

theorem makeUnescapedString_pieces (pieces : List Piece) (rest : Bytes) :
    makeUnescapedString (renderPieces pieces ++ rest) rest = .ok (denotePieces pieces) :=
  unescapeLoop_pieces pieces rest (Nat.le_refl _)

/-! ## Bytes that do not occur -/

/-- The bytes that references are written with. -/
def isReferenceByte (c : UInt8) : Bool :=
  (lit "&#x;ampquotltgs").contains c || digitValue c < 16

theorem piece_bytes {piece : Piece} {c : UInt8} (member : c ∈ piece.render) :
    (Exists fun ordinary => piece = .plain c ordinary) ∨ isReferenceByte c = true := by
  have reference : ∀ which : Entity, ∀ c ∈ '&'.toUInt8 :: which.reference,
      isReferenceByte c = true := by
    intro which
    cases which <;> exact forall_bytes (by decide)
  have digit : ∀ {base : Nat} {d : Char} {digits : Bytes}, Spells base d digits → base ≤ 16 →
      c ∈ digits → isReferenceByte c = true := by
    intro base d digits spelled small inside
    have value : digitValue c < 16 := Nat.lt_of_lt_of_le (spelled.digit c inside) small
    simp only [isReferenceByte, value, decide_true, Bool.or_true]
  have mark : ∀ c ∈ lit "&#x;", isReferenceByte c = true := forall_bytes (by decide)
  cases piece with
  | plain d ordinary =>
      cases List.mem_singleton.mp member
      exact .inl ⟨ordinary, rfl⟩
  | entity which => exact .inr (reference which c member)
  | decimal d digits spelled =>
      right
      rcases List.mem_append.mp member with front | last
      · rcases List.mem_append.mp front with first | inside
        · exact mark c (List.mem_of_mem_take (i := 2) first)
        · exact digit spelled (by decide) inside
      · exact mark c (List.mem_of_mem_drop (i := 3) last)
  | hexadecimal d digits spelled =>
      right
      rcases List.mem_append.mp member with front | last
      · rcases List.mem_append.mp front with first | inside
        · exact mark c (List.mem_of_mem_take (i := 3) first)
        · exact digit spelled (by decide) inside
      · exact mark c (List.mem_of_mem_drop (i := 3) last)

/-- A byte that no reference is written with occurs in a run only as itself. -/
theorem not_mem_renderPieces {pieces : List Piece} {c : UInt8}
    (other : isReferenceByte c = false)
    (absent : ∀ ordinary, Piece.plain c ordinary ∉ pieces) : c ∉ renderPieces pieces := by
  intro member
  rcases List.mem_flatMap.mp member with ⟨piece, listed, inside⟩
  rcases piece_bytes inside with ⟨ordinary, rfl⟩ | reference
  · exact absent ordinary listed
  · rw [other] at reference
    cases reference

theorem bracket_not_mem_renderPieces (pieces : List Piece) :
    '<'.toUInt8 ∉ renderPieces pieces :=
  not_mem_renderPieces (by decide) fun ordinary _ => ordinary.2.1 rfl

theorem quote_not_mem_renderPieces (attr : Attr) :
    attr.quote.byte ∉ renderPieces attr.value := by
  refine not_mem_renderPieces ?_ fun ordinary member => attr.enclosed _ ordinary member rfl
  cases attr.quote <;> decide

/-! ## Scanning -/

theorem dropWhile_ne_append {wanted : UInt8} {text : Bytes} (absent : wanted ∉ text)
    (rest : Bytes) :
    (text ++ wanted :: rest).dropWhile (fun c => c ≠ wanted) = wanted :: rest := by
  rw [List.dropWhile_append_of_pos, List.dropWhile_cons_of_neg]
  · simp
  · intro c member
    simp only [ne_eq, decide_not, Bool.not_eq_true', decide_eq_false_iff_not]
    exact fun same => absent (same ▸ member)

theorem seekMarkup_pieces (pieces : List Piece) (rest : Bytes) :
    seekMarkup (renderPieces pieces ++ '<'.toUInt8 :: rest) = '<'.toUInt8 :: rest :=
  dropWhile_ne_append (bracket_not_mem_renderPieces pieces) rest

theorem seekMarkup_end (pieces : List Piece) : seekMarkup (renderPieces pieces) = [] := by
  refine List.dropWhile_eq_nil_iff.mpr fun c member => ?_
  simp only [ne_eq, decide_not, Bool.not_eq_true', decide_eq_false_iff_not]
  exact fun same => bracket_not_mem_renderPieces pieces (same ▸ member)

theorem seekByte_append {wanted : UInt8} {text : Bytes} (absent : wanted ∉ text) (rest : Bytes) :
    seekByte wanted (text ++ wanted :: rest) = .ok (wanted :: rest) := by
  induction text with
  | nil => simp only [List.nil_append, seekByte, if_true]
  | cons c text inductionHypothesis =>
      have other : c ≠ wanted := fun same => absent (same ▸ List.mem_cons_self)
      rw [List.cons_append, seekByte, if_neg other]
      exact inductionHypothesis fun member => absent (List.mem_cons_of_mem c member)

theorem seekPair_enclosed {first second : UInt8} (different : first ≠ second)
    (visible : second ≠ 0) {text : Bytes} (absent : ¬ [first, second] <:+: text) (rest : Bytes) :
    seekPair first second (text ++ first :: second :: rest) = .ok (first :: second :: rest) := by
  have unbordered : Unbordered [first, second] := by
    intro count short positive
    have one : count = 1 := by
      rw [List.length_cons, List.length_singleton] at short
      omega
    subst one
    simpa using Ne.symm different
  induction text with
  | nil => simp [seekPair, byteAt]
  | cons c text inductionHypothesis =>
      have ahead := unbordered.not_prefix absent (List.cons_ne_nil c text) rest
      rw [List.infix_cons_iff, not_or] at absent
      have other : ¬ (c = first ∧ byteAt (text ++ first :: second :: rest) = second) := by
        rintro ⟨rfl, next⟩
        cases text with
        | nil => exact different next
        | cons d text =>
            have same : d = second := next
            subst same
            exact ahead ⟨_, rfl⟩
      rw [List.cons_append, seekPair, if_neg other]
      exact inductionHypothesis absent.2

theorem seekCdataEnd_enclosed {text : Bytes} (absent : ¬ lit "]]>" <:+: text) (rest : Bytes) :
    seekCdataEnd (text ++ (lit "]]>" ++ rest)) = lit "]]>" ++ rest := by
  have unbordered : Unbordered (lit "]]>") := by decide
  induction text with
  | nil => rfl
  | cons c text inductionHypothesis =>
      have ahead := unbordered.not_prefix absent (List.cons_ne_nil c text) rest
      rw [List.infix_cons_iff, not_or] at absent
      rw [List.cons_append, seekCdataEnd, if_neg]
      · exact inductionHypothesis absent.2
      · exact fun found => ahead (List.isPrefixOf_iff_prefix.mp found)

end Parse
end TurboXSL
