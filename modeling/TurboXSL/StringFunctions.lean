import TurboXSL.ScriptStrings
import TurboXSL.ParseDecode

namespace TurboXSL

/-!
# Functions on strings

The functions of `functions.c` that search strings do so byte by byte.  On
encoded text they nevertheless give what XPath says in characters: no character
is found inside another one.
-/

/-! ## The functions, on the strings of their arguments -/

/-- `xf_contains` -/
def xfContains : List (Option Bytes) → Bool
  | some s :: some p :: _ => (strstr p s).isSome
  | _ => false

/-- `xf_starts` -/
def xfStarts : List (Option Bytes) → Bool
  | some s :: some p :: _ => strstr p s = some 0
  | _ => false

/-- `xf_sub_before` -/
def xfSubBefore : List (Option Bytes) → Option Bytes
  | some s :: some p :: _ => if p = [] then none else (strstr p s).map fun z => s.take z
  | _ => none

/-- `xf_sub_after` -/
def xfSubAfter : List (Option Bytes) → Option Bytes
  | some s :: some p :: _ =>
      if p = [] then none else (strstr p s).map fun z => s.drop (z + p.length)
  | _ => none

/-- `xf_concat`, from the string so far on. -/
def xfConcat : Option Bytes → List (Option Bytes) → Option Bytes
  | s, [] => s
  | none, t :: rest => xfConcat t rest
  | some s, none :: rest => xfConcat (some s) rest
  | some s, some t :: rest => xfConcat (some (s ++ t)) rest

/-- A byte that `xf_strlen` does not count. -/
def IsContinuation (c : UInt8) : Prop := 0xC0 &&& c = 0x80

instance (c : UInt8) : Decidable (IsContinuation c) := inferInstanceAs (Decidable (_ = _))

/-- `xf_strlen`, for fewer than 2 ^ 31 characters. -/
def xfStrlen : Option Bytes → Nat
  | none => 0
  | some s => s.countP fun c => ¬ IsContinuation c

/-! ## Characters in bytes -/

/-- The bytes of characters. -/
def encoded (chars : List Char) : Bytes := chars.flatMap String.utf8EncodeChar

theorem encoded_cons (c : Char) (rest : List Char) :
    encoded (c :: rest) = String.utf8EncodeChar c ++ encoded rest := List.flatMap_cons

theorem encoded_append (first second : List Char) :
    encoded (first ++ second) = encoded first ++ encoded second := List.flatMap_append

theorem continuation_spec : ∀ k < 64, IsContinuation (UInt8.ofNat (0x80 ||| k)) := by decide

theorem lead_spec : (∀ k < 128, ¬ IsContinuation (UInt8.ofNat k)) ∧
    (∀ k < 32, ¬ IsContinuation (UInt8.ofNat (0xC0 ||| k))) ∧
    (∀ k < 16, ¬ IsContinuation (UInt8.ofNat (0xE0 ||| k))) ∧
    ∀ k < 8, ¬ IsContinuation (UInt8.ofNat (0xF0 ||| k)) := by
  decide

/-- Only the first byte of a character can begin one. -/
theorem utf8EncodeChar_bytes (c : Char) : Exists fun lead => Exists fun trail =>
    String.utf8EncodeChar c = lead :: trail ∧ ¬ IsContinuation lead ∧
      ∀ b ∈ trail, IsContinuation b := by
  have short : c.toNat < 0x110000 := by
    have valid := c.valid
    rcases valid with low | ⟨_, high⟩
    · exact Nat.lt_trans low (by decide)
    · exact high
  have low (x : Nat) : IsContinuation (UInt8.ofNat (0x80 ||| (x &&& 0x3F))) :=
    continuation_spec _ (Nat.and_lt_two_pow (n := 6) x (by decide))
  rw [← Parse.xmlsAddUtf_char]
  generalize c.toNat = u at short
  unfold xmlsAddUtf
  rcases lead_spec with ⟨one, two, three, four⟩
  split
  · exact ⟨_, _, rfl, one u ‹_›, fun _ impossible => absurd impossible List.not_mem_nil⟩
  · split
    · refine ⟨_, _, rfl, two _ ?_, fun b member => ?_⟩
      · rw [Nat.shiftRight_eq_div_pow]
        omega
      · rw [List.mem_singleton.mp member]
        exact low u
    · split
      · refine ⟨_, _, rfl, three _ ?_, fun b member => ?_⟩
        · rw [Nat.shiftRight_eq_div_pow]
          omega
        · rcases List.mem_pair.mp member with rfl | rfl
          · exact low _
          · exact low _
      · rw [if_pos (by omega)]
        refine ⟨_, _, rfl, four _ ?_, fun b member => ?_⟩
        · rw [Nat.shiftRight_eq_div_pow]
          omega
        · rcases List.mem_cons.mp member with rfl | member
          · exact low _
          · rcases List.mem_pair.mp member with rfl | rfl
            · exact low _
            · exact low _

/-- The bytes of a character are not the beginning of those of another one. -/
theorem utf8EncodeChar_append_inj {c d : Char} {x y : Bytes}
    (same : String.utf8EncodeChar c ++ x = String.utf8EncodeChar d ++ y) : c = d ∧ x = y := by
  have decoded := congrArg (fun bytes => bytes.toByteArray.utf8DecodeChar? 0) same
  simp only [List.toByteArray_append, ByteArray.utf8DecodeChar?_utf8EncodeChar_append] at decoded
  cases Option.some.inj decoded
  exact ⟨rfl, List.append_cancel_left same⟩

theorem encoded_prefix_iff (p s : List Char) : encoded p <+: encoded s ↔ p <+: s := by
  induction p generalizing s with
  | nil => exact ⟨fun _ => List.nil_prefix, fun _ => List.nil_prefix⟩
  | cons c p inductionHypothesis =>
      cases s with
      | nil =>
          rcases utf8EncodeChar_bytes c with ⟨lead, trail, bytes, _⟩
          rw [encoded_cons, bytes]
          constructor
          · intro impossible
            exact absurd (List.prefix_nil.mp impossible) (List.cons_ne_nil _ _)
          · intro impossible
            exact absurd (List.prefix_nil.mp impossible) (List.cons_ne_nil _ _)
      | cons d s =>
          rw [List.cons_prefix_cons, ← inductionHypothesis s, encoded_cons, encoded_cons]
          constructor
          · rintro ⟨rest, whole⟩
            rw [List.append_assoc] at whole
            rcases utf8EncodeChar_append_inj whole with ⟨rfl, behind⟩
            exact ⟨rfl, rest, behind⟩
          · rintro ⟨rfl, behind⟩
            exact (List.prefix_append_right_inj _).mpr behind

/-! ## Searching -/

/-- The parts before and behind the first place where `p` stands in `s`. -/
def FirstAt (p s before after : List Char) : Prop :=
  s = before ++ p ++ after ∧ ∀ front behind, s = front ++ p ++ behind → before.length ≤ front.length

theorem strstr_nil (s : Bytes) : strstr [] s = some 0 := by
  cases s with
  | nil => rfl
  | cons c rest => exact if_pos List.nil_prefix

/-- A character is not found inside another one. -/
theorem strstr_continuations {needle : Bytes} {lead : UInt8} {more : Bytes}
    (begins : needle = lead :: more) (first : ¬ IsContinuation lead) {trail : Bytes}
    (continues : ∀ b ∈ trail, IsContinuation b) (rest : Bytes) :
    strstr needle (trail ++ rest) = (strstr needle rest).map fun z => z + trail.length := by
  induction trail with
  | nil => exact Option.map_id'.symm
  | cons b trail inductionHypothesis =>
      have other : ¬ needle <+: b :: (trail ++ rest) := by
        rw [begins, List.cons_prefix_cons]
        rintro ⟨rfl, _⟩
        exact first (continues lead List.mem_cons_self)
      rw [List.cons_append, strstr, if_neg other,
        inductionHypothesis fun c member => continues c (List.mem_cons_of_mem b member),
        Option.map_map]
      rfl

theorem search_encoded {p : List Char} (visible : p ≠ []) (s : List Char) :
    (Exists fun before => Exists fun after => FirstAt p s before after ∧
      strstr (encoded p) (encoded s) = some (encoded before).length) ∨
    (¬ p <:+: s ∧ strstr (encoded p) (encoded s) = none) := by
  have begins : Exists fun lead => Exists fun more => encoded p = lead :: more ∧
      ¬ IsContinuation lead := by
    cases p with
    | nil => exact absurd rfl visible
    | cons c p =>
        rcases utf8EncodeChar_bytes c with ⟨lead, trail, bytes, first, _⟩
        exact ⟨lead, _, by rw [encoded_cons, bytes]; rfl, first⟩
  rcases begins with ⟨lead, more, begins, first⟩
  induction s with
  | nil =>
      refine .inr ⟨fun inside => visible (List.infix_nil.mp inside), ?_⟩
      rw [begins]
      rfl
  | cons d s inductionHypothesis =>
      rcases utf8EncodeChar_bytes d with ⟨head, trail, bytes, _, continues⟩
      have whole := encoded_prefix_iff p (d :: s)
      rw [encoded_cons, bytes, List.cons_append] at whole ⊢
      rw [strstr, strstr_continuations begins first continues]
      by_cases here : p <+: d :: s
      · rcases here with ⟨after, split_⟩
        rw [if_pos (whole.mpr ⟨after, split_⟩)]
        exact .inl ⟨[], after, ⟨split_.symm, fun _ _ _ => Nat.zero_le _⟩, rfl⟩
      · rw [if_neg fun found => here (whole.mp found)]
        rcases inductionHypothesis with ⟨before, after, ⟨split_, least⟩, found⟩ | ⟨absent, found⟩
        · rw [found]
          refine .inl ⟨d :: before, after, ⟨by rw [split_]; rfl, fun front behind other => ?_⟩, ?_⟩
          · cases front with
            | nil => exact absurd ⟨behind, other.symm⟩ here
            | cons e front => exact Nat.succ_le_succ (least front behind (List.cons.inj other).2)
          · rw [encoded_cons, bytes, List.length_append, List.length_cons]
            refine congrArg some ?_
            dsimp only
            omega
        · rw [found]
          refine .inr ⟨fun inside => ?_, rfl⟩
          rcases List.infix_cons_iff.mp inside with start | later
          · exact here start
          · exact absent later

theorem FirstAt.unique {p s before after front behind : List Char} (one : FirstAt p s before after)
    (other : FirstAt p s front behind) : before = front ∧ after = behind := by
  have length := Nat.le_antisymm (one.2 front behind other.1) (other.2 before after one.1)
  have whole := one.1.symm.trans other.1
  rw [List.append_assoc, List.append_assoc] at whole
  rcases List.append_inj whole length with ⟨rfl, rest⟩
  exact ⟨rfl, List.append_cancel_left rest⟩

/-- Where the search of bytes ends, the bytes come apart like the characters. -/
theorem FirstAt.parts {p s before after : List Char} (first : FirstAt p s before after) :
    encoded s = encoded before ++ encoded p ++ encoded after ∧
    (encoded s).take (encoded before).length = encoded before ∧
    (encoded s).drop ((encoded before).length + (encoded p).length) = encoded after := by
  have whole : encoded s = encoded before ++ encoded p ++ encoded after := by
    rw [first.1, encoded_append, encoded_append]
  refine ⟨whole, ?_, ?_⟩
  · rw [whole, List.append_assoc, List.take_left]
  · rw [whole, ← List.length_append, List.drop_left]

theorem FirstAt.prefix_iff {p s before after : List Char} (first : FirstAt p s before after) :
    p <+: s ↔ before = [] := by
  constructor
  · rintro ⟨behind, split_⟩
    exact List.length_eq_zero_iff.mp (Nat.le_zero.mp (first.2 [] behind split_.symm))
  · intro empty
    rw [first.1, empty]
    exact ⟨after, rfl⟩

theorem length_encoded_eq_zero {chars : List Char} : (encoded chars).length = 0 ↔ chars = [] := by
  constructor
  · intro empty
    cases chars with
    | nil => rfl
    | cons c chars =>
        rcases utf8EncodeChar_bytes c with ⟨lead, trail, bytes, _⟩
        rw [encoded_cons, bytes] at empty
        cases empty
  · rintro rfl
    rfl

theorem xfStrlen_encoded (chars : List Char) : xfStrlen (some (encoded chars)) = chars.length := by
  induction chars with
  | nil => rfl
  | cons c chars inductionHypothesis =>
      rcases utf8EncodeChar_bytes c with ⟨lead, trail, bytes, first, continues⟩
      have none_ : trail.countP (fun b => decide (¬ IsContinuation b)) = 0 :=
        List.countP_eq_zero.mpr fun b member counted => of_decide_eq_true counted (continues b member)
      unfold xfStrlen at inductionHypothesis ⊢
      dsimp only at inductionHypothesis ⊢
      rw [encoded_cons, bytes, List.cons_append, List.countP_cons, List.countP_append, none_,
        inductionHypothesis, if_pos (decide_eq_true first), Nat.zero_add, List.length_cons]

/-- On encoded text the functions are those of XPath on characters, but that
`substring-before` and `substring-after` of nothing are NULL. -/
theorem string_functions_on_characters (s p : List Char) :
    (xfContains [some (encoded s), some (encoded p)] = true ↔ p <:+: s) ∧
    (xfStarts [some (encoded s), some (encoded p)] = true ↔ p <+: s) ∧
    (∀ before after, p ≠ [] → FirstAt p s before after →
      xfSubBefore [some (encoded s), some (encoded p)] = some (encoded before) ∧
      xfSubAfter [some (encoded s), some (encoded p)] = some (encoded after) ∧
      xfConcat none [xfSubBefore [some (encoded s), some (encoded p)], some (encoded p),
        xfSubAfter [some (encoded s), some (encoded p)]] = some (encoded s)) ∧
    (p = [] ∨ ¬ p <:+: s → xfSubBefore [some (encoded s), some (encoded p)] = none ∧
      xfSubAfter [some (encoded s), some (encoded p)] = none) ∧
    xfStrlen (some (encoded s)) = s.length := by
  unfold xfContains xfStarts xfSubBefore xfSubAfter
  dsimp only
  by_cases visible : p = []
  · rw [visible]
    have empty : encoded [] = [] := rfl
    rw [empty, strstr_nil]
    exact ⟨⟨fun _ => List.nil_infix, fun _ => rfl⟩, ⟨fun _ => List.nil_prefix, fun _ => rfl⟩,
      fun _ _ other => absurd rfl other, fun _ => ⟨rfl, rfl⟩, xfStrlen_encoded s⟩
  · have bytes : encoded p ≠ [] := fun empty =>
      visible (length_encoded_eq_zero.mp (List.length_eq_zero_iff.mpr empty))
    rw [if_neg bytes, if_neg bytes]
    rcases search_encoded visible s with ⟨before, after, first, found⟩ | ⟨absent, found⟩
    · have inside : p <:+: s := ⟨before, after, first.1.symm⟩
      rcases first.parts with ⟨whole, front, behind⟩
      rw [found]
      refine ⟨⟨fun _ => inside, fun _ => rfl⟩, ?_, fun other rest _ same => ?_, fun none_ => ?_,
        xfStrlen_encoded s⟩
      · rw [decide_eq_true_iff, Option.some_inj, length_encoded_eq_zero, first.prefix_iff]
      · rcases first.unique same with ⟨rfl, rfl⟩
        rw [Option.map_some, Option.map_some, front, behind]
        exact ⟨rfl, rfl, congrArg some whole.symm⟩
      · rcases none_ with empty | absent
        · exact absurd empty visible
        · exact absurd inside absent
    · rw [found]
      refine ⟨⟨fun impossible => absurd impossible Bool.false_ne_true,
          fun inside => absurd inside absent⟩,
        ⟨fun impossible => absurd impossible Bool.false_ne_true,
          fun start => absurd (List.IsPrefix.isInfix start) absent⟩,
        fun before after _ first => absurd ⟨before, after, first.1.symm⟩ absent,
        fun _ => ⟨rfl, rfl⟩, xfStrlen_encoded s⟩

/-! ## Addresses -/

/-- A digit of `%X`, read. -/
def hexDigitValue (c : UInt8) : Option Nat := (lit "0123456789ABCDEF").idxOf? c

/-- What a server makes of an encoded address. -/
def urlDecode : Bytes → Option Bytes
  | [] => some []
  | c :: rest =>
      if c = '%'.toUInt8 then
        match rest with
        | high :: low :: rest => do
            let high ← hexDigitValue high
            let low ← hexDigitValue low
            let others ← urlDecode rest
            some (UInt8.ofNat (high * 16 + low) :: others)
        | _ => none
      else (urlDecode rest).map (c :: ·)

theorem hexDigitValue_hexDigit : ∀ n < 16, hexDigitValue (ScriptStrings.hexDigit n) = some n := by
  decide

theorem isAlnum_hexDigit : ∀ n < 16,
    ScriptStrings.isAlnum (ScriptStrings.hexDigit n) = true := by
  decide

theorem urlDecode_encodeByte (c : UInt8) (rest : Bytes) :
    urlDecode (ScriptStrings.encodeByte c ++ rest) = (urlDecode rest).map (c :: ·) := by
  unfold ScriptStrings.encodeByte
  split
  · rename_i plain
    have other : c ≠ '%'.toUInt8 := by
      rintro rfl
      exact absurd plain (by decide)
    rw [List.singleton_append, urlDecode.eq_def]
    exact if_neg other
  · have bound := c.toNat_lt
    rw [List.cons_append, List.cons_append, List.cons_append, List.nil_append, urlDecode.eq_def]
    dsimp only
    rw [if_pos rfl, hexDigitValue_hexDigit _ (by omega), hexDigitValue_hexDigit _ (by omega)]
    dsimp only [bind, Option.bind]
    rw [Nat.div_add_mod' c.toNat 16, UInt8.ofNat_toNat]
    cases urlDecode rest <;> rfl

theorem urlDecode_encodeBytes (str : Bytes) :
    urlDecode (str.flatMap ScriptStrings.encodeByte) = some str := by
  induction str with
  | nil => rfl
  | cons c rest inductionHypothesis =>
      rw [List.flatMap_cons, urlDecode_encodeByte, inductionHypothesis]
      rfl

/-- What a byte becomes needs no further encoding. -/
theorem encodeByte_plain {b c : UInt8} (inside : c ∈ ScriptStrings.encodeByte b) :
    ScriptStrings.isAlnum c = true ∨ c ∈ lit "-._~%" := by
  have bound := b.toNat_lt
  unfold ScriptStrings.encodeByte at inside
  split at inside
  · rename_i plain
    rw [List.mem_singleton.mp inside]
    rcases plain with letter | rfl | rfl | rfl | rfl
    · exact .inl letter
    all_goals exact .inr (by decide)
  · rcases List.mem_cons.mp inside with rfl | digits
    · exact .inr (by decide)
    · rcases List.mem_pair.mp digits with rfl | rfl
      · exact .inl (isAlnum_hexDigit _ (by omega))
      · exact .inl (isAlnum_hexDigit _ (by omega))

/-- `ltr:str_escape` with the mode `url` loses nothing, and only leaves letters,
digits and `-`, `.`, `_`, `~` and `%`. -/
theorem url_encoded_strings (str : CString) (more : List (Option CString)) (mode : CString)
    (isUrl : mode.bytes = lit "url") :
    Exists fun address => ScriptStrings.xfStrescape (some str :: some mode :: more) = some address ∧
      urlDecode address = some str.bytes ∧
      ∀ c ∈ address, ScriptStrings.isAlnum c = true ∨ c ∈ lit "-._~%" := by
  refine ⟨str.bytes.flatMap ScriptStrings.encodeByte, ?_, urlDecode_encodeBytes _, ?_⟩
  · have other : some mode.bytes ≠ some (lit "js") := by
      rw [isUrl]
      decide
    exact (if_neg other).trans (if_pos (congrArg some isUrl))
  · intro c member
    rcases List.mem_flatMap.mp member with ⟨b, _, inside⟩
    exact encodeByte_plain inside

theorem url_encoded_strings_blank :
    Exists fun address => ScriptStrings.xfStrescape
      [some ⟨lit "a b", by decide⟩, some ⟨lit "url", by decide⟩] = some address ∧
      urlDecode address = some (lit "a b") ∧
      ∀ c ∈ address, ScriptStrings.isAlnum c = true ∨ c ∈ lit "-._~%" :=
  url_encoded_strings ⟨lit "a b", by decide⟩ [] ⟨lit "url", by decide⟩ rfl

end TurboXSL
