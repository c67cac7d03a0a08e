import Mathlib.Data.List.Chain
import TurboXSL.StringBuilder

namespace TurboXSL
namespace ScriptStrings

open StringBuilder

/-!
# Strings for scripts and addresses

`ltr:str_escape` writes a string so that it can stand between quotes in a
script, or encodes it for an address.  What a script makes of it is said by a
reader of string literals.
-/

/-- What is appended for a byte in the mode `js`. -/
def escapeByte (c : UInt8) : Bytes :=
  if c = '\''.toUInt8 ∨ c = '"'.toUInt8 ∨ c = '\\'.toUInt8 ∨ c = '/'.toUInt8 then ['\\'.toUInt8, c]
  else if c = '\r'.toUInt8 ∨ c = '\n'.toUInt8 then ['\\'.toUInt8, 'n'.toUInt8]
  else [c]

/-- `isalnum` -/
def isAlnum (c : UInt8) : Bool :=
  ('0'.toUInt8 ≤ c && c ≤ '9'.toUInt8) || ('A'.toUInt8 ≤ c && c ≤ 'Z'.toUInt8) ||
    ('a'.toUInt8 ≤ c && c ≤ 'z'.toUInt8)

/-- A digit of `%X`. -/
def hexDigit (n : Nat) : UInt8 :=
  if n < 10 then UInt8.ofNat ('0'.toNat + n) else UInt8.ofNat ('A'.toNat + (n - 10))

/-- What `url_encode` appends for a byte. -/
def encodeByte (c : UInt8) : Bytes :=
  if isAlnum c ∨ c = '-'.toUInt8 ∨ c = '.'.toUInt8 ∨ c = '_'.toUInt8 ∨ c = '~'.toUInt8 then [c]
  else ['%'.toUInt8, hexDigit (c.toNat / 16), hexDigit (c.toNat % 16)]

/-- `xf_strescape` on the strings of its arguments; the second is the mode. -/
def xfStrescape : List (Option CString) → Option Bytes
  | some str :: more =>
      let mode := match more with
        | [] => some (lit "js")
        | mode :: _ => mode.map CString.bytes
      if mode = some (lit "js") then some (str.bytes.flatMap escapeByte)
      else if mode = some (lit "url") then some (str.bytes.flatMap encodeByte)
      else none
  | _ => none

/-- The mode `js` is named, or left out. -/
def JsMode : List (Option CString) → Prop
  | [] => True
  | mode :: _ => mode.map CString.bytes = some (lit "js")

/-! ## String literals of a script -/

/-- What a script reads for the byte behind a backslash; digits, `x` and `u`
begin longer escapes, and a line break is left out. -/
def escapedValue (c : UInt8) : Option UInt8 :=
  if c = 'n'.toUInt8 then some 0x0A
  else if c = 'r'.toUInt8 then some 0x0D
  else if c = 't'.toUInt8 then some 0x09
  else if c = 'b'.toUInt8 then some 0x08
  else if c = 'v'.toUInt8 then some 0x0B
  else if c = 'f'.toUInt8 then some 0x0C
  else if isDigit c ∨ c = 'x'.toUInt8 ∨ c = 'u'.toUInt8 ∨ c = '\r'.toUInt8 ∨ c = '\n'.toUInt8 then none
  else some c

/-- The literal behind an opening quote: its value, and what stands behind the closing quote. -/
def readLiteral (quote : UInt8) : Bytes → Option (Bytes × Bytes)
  | [] => none
  | c :: text =>
      if c = quote then some ([], text)
      else if c = '\r'.toUInt8 ∨ c = '\n'.toUInt8 then none
      else if c = '\\'.toUInt8 then
        match text with
        | [] => none
        | d :: text => do
            let v ← escapedValue d
            let (value, rest) ← readLiteral quote text
            some (v :: value, rest)
      else do
        let (value, rest) ← readLiteral quote text
        some (c :: value, rest)

/-- A carriage return is turned into a line feed. -/
def lineFeed (c : UInt8) : UInt8 := if c = '\r'.toUInt8 then '\n'.toUInt8 else c

def IsQuote (quote : UInt8) : Prop := quote = '\''.toUInt8 ∨ quote = '"'.toUInt8

/-- An escape is read as one byte. -/
theorem readLiteral_escape {quote : UInt8} (isQuote : IsQuote quote) {d v : UInt8}
    (escaped : escapedValue d = some v) (text : Bytes) :
    readLiteral quote ('\\'.toUInt8 :: d :: text) =
      (readLiteral quote text).map fun result => (v :: result.1, result.2) := by
  have other : '\\'.toUInt8 ≠ quote := by
    rcases isQuote with rfl | rfl <;> decide
  have visible : ¬ ('\\'.toUInt8 = '\r'.toUInt8 ∨ '\\'.toUInt8 = '\n'.toUInt8) := by decide
  rw [readLiteral, if_neg other, if_neg visible, if_pos rfl, escaped]
  cases readLiteral quote text <;> rfl

/-- What is appended for one byte is read as that byte. -/
theorem readLiteral_escapeByte {quote : UInt8} (isQuote : IsQuote quote) (c : UInt8) (text : Bytes) :
    readLiteral quote (escapeByte c ++ text) =
      (readLiteral quote text).map fun result => (lineFeed c :: result.1, result.2) := by
  rw [escapeByte]
  by_cases special : c = '\''.toUInt8 ∨ c = '"'.toUInt8 ∨ c = '\\'.toUInt8 ∨ c = '/'.toUInt8
  · have same : escapedValue c = some (lineFeed c) := by
      rcases special with rfl | rfl | rfl | rfl <;> decide
    rw [if_pos special]
    exact readLiteral_escape isQuote same text
  · rw [if_neg special]
    by_cases broken : c = '\r'.toUInt8 ∨ c = '\n'.toUInt8
    · have feed : escapedValue 'n'.toUInt8 = some (lineFeed c) := by
        rcases broken with rfl | rfl <;> decide
      rw [if_pos broken]
      exact readLiteral_escape isQuote feed text
    · rw [not_or, not_or, not_or] at special
      have unquoted : c ≠ quote := by
        rcases isQuote with rfl | rfl
        · exact special.1
        · exact special.2.1
      have plain : lineFeed c = c := if_neg fun return_ => broken (.inl return_)
      rw [if_neg broken, List.singleton_append, readLiteral.eq_def]
      dsimp only
      rw [if_neg unquoted, if_neg broken, if_neg special.2.2.1, plain]
      cases readLiteral quote text <;> rfl

/-- What is appended for a string, behind a quote and with a quote behind it,
is a literal of that string. -/
theorem readLiteral_escaped {quote : UInt8} (isQuote : IsQuote quote) (s rest : Bytes) :
    readLiteral quote (s.flatMap escapeByte ++ quote :: rest) = some (s.map lineFeed, rest) := by
  induction s with
  | nil =>
      rw [List.flatMap_nil, List.nil_append, readLiteral.eq_def]
      dsimp only
      rw [if_pos rfl, List.map_nil]
  | cons c s inductionHypothesis =>
      rw [List.flatMap_cons, List.append_assoc, readLiteral_escapeByte isQuote, inductionHypothesis]
      rfl

/-- In front of a slash stands a backslash. -/
def Guards (a b : UInt8) : Prop := b = '/'.toUInt8 → a = '\\'.toUInt8

/-- No piece begins with a slash, so that each slash has its backslash. -/
theorem escaped_guarded (s : Bytes) :
    (s.flatMap escapeByte).IsChain Guards ∧ (s.flatMap escapeByte).head? ≠ some '/'.toUInt8 := by
  induction s with
  | nil => exact ⟨.nil, nofun⟩
  | cons c s inductionHypothesis =>
      rcases inductionHypothesis with ⟨chain, first⟩
      have behind : ∀ a, (a :: s.flatMap escapeByte).IsChain Guards := by
        intro a
        refine List.isChain_cons.mpr ⟨fun b here slash => ?_, chain⟩
        exact absurd (slash ▸ here) first
      rw [List.flatMap_cons, escapeByte]
      split
      next special =>
        exact ⟨List.isChain_cons_cons.mpr ⟨fun _ => rfl, behind c⟩, fun here =>
          absurd (Option.some.inj here) (by decide)⟩
      next plain =>
        split
        next broken =>
          exact ⟨List.isChain_cons_cons.mpr ⟨fun _ => rfl, behind _⟩, fun here =>
            absurd (Option.some.inj here) (by decide)⟩
        next other =>
          refine ⟨behind c, fun here => plain ?_⟩
          exact .inr (.inr (.inr (Option.some.inj here)))

/-- In the mode `js` the result stands between quotes of either kind as one
literal of the string, with carriage returns as line feeds, and ends no script. -/
theorem str_escape_literal (str : CString) (more : List (Option CString)) (mode : JsMode more) :
    Exists fun text => xfStrescape (some str :: more) = some text ∧
      (∀ quote, IsQuote quote → ∀ rest,
        readLiteral quote (text ++ quote :: rest) = some (str.bytes.map lineFeed, rest)) ∧
      ¬ lit "</" <:+: text := by
  refine ⟨str.bytes.flatMap escapeByte, ?_, fun quote isQuote rest =>
    readLiteral_escaped isQuote str.bytes rest, fun inside => ?_⟩
  · cases more with
    | nil =>
        rw [xfStrescape]
        exact if_pos rfl
    | cons named more =>
        rw [xfStrescape]
        exact if_pos mode
  · rcases inside with ⟨front, rear, whole⟩
    have chain := (escaped_guarded str.bytes).1
    rw [← whole] at chain
    have guard := List.isChain_pair.mp chain.left_of_append.right_of_append
    exact absurd (guard rfl) (by decide)

/-- `ltr:str_escape("a'</b>", 'js')` -/
theorem str_escape_quote :
    JsMode [some ⟨lit "js", by decide⟩] ∧
      Exists fun text => xfStrescape [some ⟨lit "a'</b>", by decide⟩, some ⟨lit "js", by decide⟩] =
          some text ∧
        (∀ quote, IsQuote quote → ∀ rest,
          readLiteral quote (text ++ quote :: rest) = some ((lit "a'</b>").map lineFeed, rest)) ∧
        ¬ lit "</" <:+: text :=
  ⟨rfl, str_escape_literal ⟨lit "a'</b>", by decide⟩ [some ⟨lit "js", by decide⟩] rfl⟩

/-! ## The buffer -/

/-- Characters appended one after the other to a new string of 200 are held
by it, if there can be an object of twice their number. -/
theorem appended_chars (text : Bytes) (possible : 2 * text.length + 3 ≤ ptrdiffMax) :
    Exists fun b => run 200 (text.map .addChar) = some b ∧ Sound b text := by
  induction text using List.reverseRecOn with
  | nil =>
      have size : (200 : UInt64).toNat + 1 ≤ ptrdiffMax := by decide
      rcases run_sound size [] (fun before step inside => by simp at inside) with ⟨b, ran, sound⟩
      exact ⟨b, ran, sound⟩
  | append_singleton text c inductionHypothesis =>
      rw [List.length_append, List.length_singleton] at possible
      rcases inductionHypothesis (by omega) with ⟨b, ran, sound⟩
      have allocated := run_allocated ran
      have length := sound.holds.1
      have size : (200 : UInt64).toNat = 200 := rfl
      have roomy : Roomy b (.addChar c) := by
        refine .inl ⟨by omega, fun full => ?_⟩
        omega
      rcases (step_iff sound (.addChar c)).2 roomy with ⟨after, done, later⟩
      refine ⟨after, ?_, later⟩
      rw [List.map_append, List.map_singleton, run_append, ran, Option.bind_some]
      exact done

theorem escaped_length_le (s : Bytes) : (s.flatMap escapeByte).length ≤ 2 * s.length := by
  induction s with
  | nil => exact Nat.le_refl _
  | cons c s inductionHypothesis =>
      have piece : (escapeByte c).length ≤ 2 := by
        rw [escapeByte]
        repeat' split
        · exact Nat.le_refl 2
        · exact Nat.le_refl 2
        · exact Nat.le_succ 1
      rw [List.flatMap_cons, List.length_append, List.length_cons]
      omega

/-- The buffer of the mode `js` holds what is appended. -/
theorem escaped_held (str : CString) (possible : 4 * str.bytes.length + 3 ≤ ptrdiffMax) :
    Exists fun b => run 200 ((str.bytes.flatMap escapeByte).map .addChar) = some b ∧
      Holds b (str.bytes.flatMap escapeByte) := by
  have length := escaped_length_le str.bytes
  rcases appended_chars (str.bytes.flatMap escapeByte) (by omega) with ⟨b, ran, sound⟩
  exact ⟨b, ran, sound.holds⟩

end ScriptStrings
end TurboXSL
