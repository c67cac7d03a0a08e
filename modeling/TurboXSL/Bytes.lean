import Mathlib.Algebra.GroupWithZero.Nat
import Mathlib.Algebra.Ring.Int.Defs
import Mathlib.Data.List.TakeDrop
import Mathlib.Data.List.TakeWhile
import Mathlib.Data.Nat.Bits

namespace TurboXSL

/-!
# Byte strings

The source handles text as NUL-terminated byte strings and reads them
through a cursor.  A cursor is modelled by the bytes that remain before the
terminating NUL, so the empty list is the cursor that stands on the NUL.
The character classes are those of `utils.c` and `parse.c`; `strtoul` is the
C library's, as far as its documented behaviour reaches.
-/

abbrev Bytes := List UInt8

/-- The bytes of an ASCII literal of the source. -/
def lit (text : String) : Bytes := text.toList.map Char.toUInt8

/-- A property of the bytes of a literal, as it is computed. -/
theorem forall_bytes {bytes : Bytes} {p : UInt8 → Prop} [DecidablePred p]
    (all : bytes.all (fun c => decide (p c)) = true) : ∀ c ∈ bytes, p c := fun c member =>
  of_decide_eq_true (List.all_eq_true.mp all c member)

/-- `x_is_ws` -/
def xIsWs (c : UInt8) : Bool :=
  c = ' '.toUInt8 || c = '\t'.toUInt8 || c = '\n'.toUInt8 || c = '\r'.toUInt8

/-- `can_name` -/
def canName (c : UInt8) : Bool :=
  ('a'.toUInt8 ≤ c && c ≤ 'z'.toUInt8) ||
  (c = '-'.toUInt8 || c = '_'.toUInt8 || c = ':'.toUInt8) ||
  ('0'.toUInt8 ≤ c && c ≤ '9'.toUInt8) ||
  ('A'.toUInt8 ≤ c && c ≤ 'Z'.toUInt8)

/-- `x_is_namechar` -/
def xIsNamechar (c : UInt8) : Bool :=
  ('A'.toUInt8 ≤ c && c ≤ 'Z'.toUInt8) || ('a'.toUInt8 ≤ c && c ≤ 'z'.toUInt8) ||
  ('0'.toUInt8 ≤ c && c ≤ '9'.toUInt8) ||
  c = '_'.toUInt8 || c = '-'.toUInt8 || c = ':'.toUInt8 || c = '.'.toUInt8

/-- `x_is_selchar` -/
def xIsSelchar (c : UInt8) : Bool :=
  xIsNamechar c || c = '/'.toUInt8 || c = '.'.toUInt8 || c = '*'.toUInt8

/-- `strstr`: where the needle stands first. -/
def strstr (needle : Bytes) : Bytes → Option Nat
  | [] => if needle = [] then some 0 else none
  | c :: rest => if needle <+: c :: rest then some 0 else (strstr needle rest).map (· + 1)

/-- The byte under the cursor; the NUL at the end. -/
def byteAt (p : Bytes) : UInt8 := p.headD 0

def isDigit (c : UInt8) : Bool := '0'.toUInt8 ≤ c && c ≤ '9'.toUInt8

/-- `x_can_number` -/
def xCanNumber (p : Bytes) : Bool :=
  let p := if byteAt p = '-'.toUInt8 then p.tail else p
  let p := if byteAt p = '.'.toUInt8 then p.tail else p
  isDigit (byteAt p)

/-- `skip_spaces` of `parse.c` and `skip_ws` of `xpath.c`: the NUL is no
white space, so neither leaves the string. -/
def skipSpaces (p : Bytes) : Bytes := p.dropWhile xIsWs

/-- `match`: the cursor after `str` where it stands at the cursor.  A blank
in `str` also stands for white space and for an opening parenthesis. -/
def matchAt : Bytes → Bytes → Option Bytes
  | [], p => some p
  | want :: str, p =>
      let here := byteAt p
      if here ≠ want ∧ ¬(want = ' '.toUInt8 ∧ (xIsWs here ∨ here = '('.toUInt8)) then none
      else matchAt str p.tail

/-- `memcmp(name, p, n) == 0` for the `n` bytes `part` at `p`, none of which
is a NUL, against the NUL-terminated `name`: they agree iff `part` is a
prefix of `name`. -/
def memcmpEqual (name part : Bytes) : Bool := part.isPrefixOf name

/-! ## Numbers in character references -/

/-- `isspace` in the C locale. -/
def isSpace (c : UInt8) : Bool := c = 32 || (9 ≤ c && c ≤ 13)

/-- The value of one digit, in bases up to 16. -/
def digitValue (c : UInt8) : Nat :=
  if isDigit c then c.toNat - '0'.toUInt8.toNat
  else if 'a'.toUInt8 ≤ c && c ≤ 'f'.toUInt8 then c.toNat - 'a'.toUInt8.toNat + 10
  else if 'A'.toUInt8 ≤ c && c ≤ 'F'.toUInt8 then c.toNat - 'A'.toUInt8.toNat + 10
  else 16

/-- The longest run of digits at the cursor, and the cursor after it. -/
def digitsAt (base : Nat) (p : Bytes) : Bytes × Bytes :=
  p.span fun c => digitValue c < base

/-- The number a run of digits denotes. -/
def digitsValue (base : Nat) (digits : Bytes) : Nat :=
  digits.foldl (fun value c => value * base + digitValue c) 0

/-- `ULONG_MAX` -/
def ulongMax : Nat := 2 ^ 64 - 1

/-- The part of `strtoul` after white space and sign: saturation on overflow,
negation modulo `2 ^ 64` otherwise. -/
def strtoulValue (negative : Bool) (value : Nat) : Nat :=
  if ulongMax < value then ulongMax
  else if negative then (2 ^ 64 - value) % 2 ^ 64 else value

/-- `strtoul(p, &end, base)` for base 10 or 16: the value and `end`.  Without
digits `end` is `p` itself; `0x` without digits is the number `0`. -/
def strtoul (p : Bytes) (base : Nat) : Nat × Bytes :=
  let start := p.dropWhile isSpace
  let negative := byteAt start = '-'.toUInt8
  let q := if byteAt start = '-'.toUInt8 ∨ byteAt start = '+'.toUInt8 then start.tail else start
  let hexMark := base = 16 ∧ byteAt q = '0'.toUInt8 ∧
    (byteAt q.tail = 'x'.toUInt8 ∨ byteAt q.tail = 'X'.toUInt8)
  let found := digitsAt base (if hexMark then q.tail.tail else q)
  if found.1 = [] then (0, if hexMark then q.tail else p)
  else (strtoulValue negative (digitsValue base found.1), found.2)

/-- `xmls_add_utf`: the bytes appended for `u`, none from `0x200000` on. -/
def xmlsAddUtf (u : Nat) : Bytes :=
  if u < 128 then [UInt8.ofNat u]
  else if u < 0x800 then
    [UInt8.ofNat (0xC0 ||| (u >>> 6)), UInt8.ofNat (0x80 ||| (u &&& 0x3F))]
  else if u < 0x10000 then
    [UInt8.ofNat (0xE0 ||| (u >>> 12)), UInt8.ofNat (0x80 ||| ((u >>> 6) &&& 0x3F)),
      UInt8.ofNat (0x80 ||| (u &&& 0x3F))]
  else if u < 0x200000 then
    [UInt8.ofNat (0xF0 ||| (u >>> 18)), UInt8.ofNat (0x80 ||| ((u >>> 12) &&& 0x3F)),
      UInt8.ofNat (0x80 ||| ((u >>> 6) &&& 0x3F)), UInt8.ofNat (0x80 ||| (u &&& 0x3F))]
  else []

example : strtoul (lit "x41;") 16 = (0, lit "x41;") := by decide
example : strtoul (lit " +0x41;") 16 = (65, lit ";") := by decide

end TurboXSL
