import Mathlib.Data.Nat.Bitwise
import TurboXSL.Bytes
import TurboXSL.Library.Blocks

namespace TurboXSL

open Library

/-!
# Message digests

`md5.c`: the digest of a string that comes in pieces.  The functions keep up to
64 bytes back, work on four words in place with one line for each of 64
operations, and count the bytes in two words.  What they compute is the digest
of RFC 1321 of all the pieces together.
-/

/-! ## The functions of the four rounds -/

/-- `FF` -/
def md5FF (b c d : UInt32) : UInt32 := d ^^^ (b &&& (c ^^^ d))

/-- `FG` -/
def md5FG (b c d : UInt32) : UInt32 := md5FF d b c

/-- `FH` -/
def md5FH (b c d : UInt32) : UInt32 := b ^^^ c ^^^ d

/-- `FI` -/
def md5FI (b c d : UInt32) : UInt32 := c ^^^ (b ||| ~~~d)

/-- `CYCLIC` -/
def cyclic (w s : UInt32) : UInt32 := (w <<< s) ||| (w >>> (32 - s))

/-- `A`, `B`, `C` and `D` -/
structure Md5Words where
  A : UInt32
  B : UInt32
  C : UInt32
  D : UInt32
deriving DecidableEq

/-- What a line of a round is written with: the word of the block, the shift and
the constant. -/
structure Md5Line where
  k : UInt32
  s : UInt32
  T : UInt32

/-- `OP1` and `OP234` -/
def md5Op (f : UInt32 → UInt32 → UInt32 → UInt32) (a b c d : UInt32) (line : Md5Line) : UInt32 :=
  cyclic (a + (f b c d + line.k + line.T)) line.s + b

/-- Four lines: they assign to `A`, `D`, `C` and `B`. -/
def md5Lines (f : UInt32 → UInt32 → UInt32 → UInt32) (toA toD toC toB : Md5Line)
    (words : Md5Words) : Md5Words :=
  let words := { words with A := md5Op f words.A words.B words.C words.D toA }
  let words := { words with D := md5Op f words.D words.A words.B words.C toD }
  let words := { words with C := md5Op f words.C words.D words.A words.B toC }
  { words with B := md5Op f words.B words.C words.D words.A toB }

/-- Round 1. -/
def md5Round1 (correct : Nat → UInt32) (words : Md5Words) : Md5Words :=
  let words := md5Lines md5FF ⟨correct 0, 7, 0xd76aa478⟩ ⟨correct 1, 12, 0xe8c7b756⟩
    ⟨correct 2, 17, 0x242070db⟩ ⟨correct 3, 22, 0xc1bdceee⟩ words
  let words := md5Lines md5FF ⟨correct 4, 7, 0xf57c0faf⟩ ⟨correct 5, 12, 0x4787c62a⟩
    ⟨correct 6, 17, 0xa8304613⟩ ⟨correct 7, 22, 0xfd469501⟩ words
  let words := md5Lines md5FF ⟨correct 8, 7, 0x698098d8⟩ ⟨correct 9, 12, 0x8b44f7af⟩
    ⟨correct 10, 17, 0xffff5bb1⟩ ⟨correct 11, 22, 0x895cd7be⟩ words
  md5Lines md5FF ⟨correct 12, 7, 0x6b901122⟩ ⟨correct 13, 12, 0xfd987193⟩
    ⟨correct 14, 17, 0xa679438e⟩ ⟨correct 15, 22, 0x49b40821⟩ words

/-- Round 2. -/
def md5Round2 (correct : Nat → UInt32) (words : Md5Words) : Md5Words :=
  let words := md5Lines md5FG ⟨correct 1, 5, 0xf61e2562⟩ ⟨correct 6, 9, 0xc040b340⟩
    ⟨correct 11, 14, 0x265e5a51⟩ ⟨correct 0, 20, 0xe9b6c7aa⟩ words
  let words := md5Lines md5FG ⟨correct 5, 5, 0xd62f105d⟩ ⟨correct 10, 9, 0x02441453⟩
    ⟨correct 15, 14, 0xd8a1e681⟩ ⟨correct 4, 20, 0xe7d3fbc8⟩ words
  let words := md5Lines md5FG ⟨correct 9, 5, 0x21e1cde6⟩ ⟨correct 14, 9, 0xc33707d6⟩
    ⟨correct 3, 14, 0xf4d50d87⟩ ⟨correct 8, 20, 0x455a14ed⟩ words
  md5Lines md5FG ⟨correct 13, 5, 0xa9e3e905⟩ ⟨correct 2, 9, 0xfcefa3f8⟩
    ⟨correct 7, 14, 0x676f02d9⟩ ⟨correct 12, 20, 0x8d2a4c8a⟩ words

/-- Round 3. -/
def md5Round3 (correct : Nat → UInt32) (words : Md5Words) : Md5Words :=
  let words := md5Lines md5FH ⟨correct 5, 4, 0xfffa3942⟩ ⟨correct 8, 11, 0x8771f681⟩
    ⟨correct 11, 16, 0x6d9d6122⟩ ⟨correct 14, 23, 0xfde5380c⟩ words
  let words := md5Lines md5FH ⟨correct 1, 4, 0xa4beea44⟩ ⟨correct 4, 11, 0x4bdecfa9⟩
    ⟨correct 7, 16, 0xf6bb4b60⟩ ⟨correct 10, 23, 0xbebfbc70⟩ words
  let words := md5Lines md5FH ⟨correct 13, 4, 0x289b7ec6⟩ ⟨correct 0, 11, 0xeaa127fa⟩
    ⟨correct 3, 16, 0xd4ef3085⟩ ⟨correct 6, 23, 0x04881d05⟩ words
  md5Lines md5FH ⟨correct 9, 4, 0xd9d4d039⟩ ⟨correct 12, 11, 0xe6db99e5⟩
    ⟨correct 15, 16, 0x1fa27cf8⟩ ⟨correct 2, 23, 0xc4ac5665⟩ words

/-- Round 4. -/
def md5Round4 (correct : Nat → UInt32) (words : Md5Words) : Md5Words :=
  let words := md5Lines md5FI ⟨correct 0, 6, 0xf4292244⟩ ⟨correct 7, 10, 0x432aff97⟩
    ⟨correct 14, 15, 0xab9423a7⟩ ⟨correct 5, 21, 0xfc93a039⟩ words
  let words := md5Lines md5FI ⟨correct 12, 6, 0x655b59c3⟩ ⟨correct 3, 10, 0x8f0ccc92⟩
    ⟨correct 10, 15, 0xffeff47d⟩ ⟨correct 1, 21, 0x85845dd1⟩ words
  let words := md5Lines md5FI ⟨correct 8, 6, 0x6fa87e4f⟩ ⟨correct 15, 10, 0xfe2ce6e0⟩
    ⟨correct 6, 15, 0xa3014314⟩ ⟨correct 13, 21, 0x4e0811a1⟩ words
  md5Lines md5FI ⟨correct 4, 6, 0xf7537e82⟩ ⟨correct 11, 10, 0xbd3af235⟩
    ⟨correct 2, 15, 0x2ad7d2bb⟩ ⟨correct 9, 21, 0xeb86d391⟩ words

/-- The word at a place of four bytes, the lowest first. -/
def wordAt (block : Bytes) (i : Nat) : UInt32 :=
  (block.getD (4 * i) 0).toUInt32 ||| (block.getD (4 * i + 1) 0).toUInt32 <<< 8 |||
    (block.getD (4 * i + 2) 0).toUInt32 <<< 16 ||| (block.getD (4 * i + 3) 0).toUInt32 <<< 24

/-- One turn of the loop of `process_block`. -/
def md5Compress (words : Md5Words) (block : Bytes) : Md5Words :=
  let correct := wordAt block
  let after := md5Round4 correct (md5Round3 correct (md5Round2 correct (md5Round1 correct words)))
  ⟨after.A + words.A, after.B + words.B, after.C + words.C, after.D + words.D⟩

/-! ## A string in pieces -/

/-- `md5_t`; of the storage buffer, which has 128 bytes, the part in use. -/
structure Md5 where
  words : Md5Words
  total : UInt32 × UInt32
  buffer : Bytes

/-- The count of bytes as the two functions that count keep it. -/
def md5Count (total : UInt32 × UInt32) (length : UInt32) : UInt32 × UInt32 :=
  if total.1 > 4294967295 - length then
    (total.1 - (4294967295 + 1 - length), total.2 + 1)
  else (total.1 + length, total.2)

/-- `process_block`; it goes on while there are words. -/
def processBlock (md5 : Md5) (buffer : Bytes) : Md5 :=
  { md5 with
    words := absorb md5Compress 64 ((buffer.length / 4 + 15) / 16) md5.words buffer
    total := md5Count md5.total (UInt32.ofNat buffer.length) }

/-- `md5_init` -/
def md5Init : Md5 where
  words := ⟨0x67452301, 0xefcdab89, 0x98badcfe, 0x10325476⟩
  total := (0, 0)
  buffer := []

/-- The first half of `md5_process`: what is left of the buffer to be processed.
`none` where bytes are copied beyond the storage buffer. -/
def md5Fill (md5 : Md5) (buffer : Bytes) : Option (Md5 × Bytes) :=
  let inBlock := md5.buffer.length
  if inBlock > 0 then
    let add := if (inBlock + buffer.length) % 2 ^ 32 > 128 then 128 - inBlock else buffer.length
    if inBlock + add > 128 then none
    else
      let filled := md5.buffer ++ buffer.take add
      let whole := (inBlock + add) / 64 * 64
      let md5 :=
        if inBlock + add > 64 then
          { processBlock md5 (filled.take whole) with buffer := filled.drop whole }
        else { md5 with buffer := filled }
      some (md5, buffer.drop add)
  else some (md5, buffer)

/-- The second half: full blocks are processed, and the rest is kept. -/
def md5Keep (md5 : Md5) (buffer : Bytes) : Md5 :=
  let whole := buffer.length / 64 * 64
  if buffer.length > 64 then
    let md5 := processBlock md5 (buffer.take whole)
    if (buffer.drop whole).length > 0 then { md5 with buffer := buffer.drop whole } else md5
  else if buffer.length > 0 then { md5 with buffer := buffer }
  else md5

/-- `md5_process`, for fewer than 2 ^ 32 bytes. -/
def md5Process (md5 : Md5) (buffer : Bytes) : Option Md5 :=
  (md5Fill md5 buffer).map fun filled => md5Keep filled.1 filled.2

/-- `memcpy` of a word, the lowest byte first. -/
def wordBytes (word : UInt32) : Bytes :=
  [word.toUInt8, (word >>> 8).toUInt8, (word >>> 16).toUInt8, (word >>> 24).toUInt8]

/-- `md5_get_result` -/
def md5GetResult (words : Md5Words) : Bytes :=
  wordBytes words.A ++ wordBytes words.B ++ wordBytes words.C ++ wordBytes words.D

/-- The number of padding bytes; the difference of 56 and `bytes` is an `int`,
and where it is not positive 64 is added. -/
def md5Pad (bytes : Nat) : Nat := if 56 ≤ bytes then 120 - bytes else 56 - bytes

/-- The number of bits in two words. -/
def md5Bits (total : UInt32 × UInt32) : Bytes :=
  wordBytes ((total.1 &&& 0x1FFFFFFF) <<< 3) ++
    wordBytes ((total.2 <<< 3) ||| ((total.1 &&& 0xE0000000) >>> 29))

/-- What is left of the message, with the padding and the length. -/
def md5Last (buffer bits : Bytes) : Bytes :=
  buffer ++ (0x80 :: List.replicate (md5Pad buffer.length - 1) 0) ++ bits

/-- `md5_finish`; `none` where it writes beyond the storage buffer. -/
def md5Finish (md5 : Md5) : Option Bytes :=
  let total := md5Count md5.total (UInt32.ofNat md5.buffer.length)
  let filled := md5Last md5.buffer (md5Bits total)
  if filled.length > 128 then none
  else some (md5GetResult (processBlock { md5 with total := total } filled).words)

/-- `md5_buffer` on a string, whose length is handed over in 32 bits. -/
def md5Buffer (buffer : Bytes) : Option Bytes :=
  (md5Process md5Init (buffer.take (buffer.length % 2 ^ 32))).bind md5Finish

/-! ## The digest of RFC 1321 -/

/-- The functions `F`, `G`, `H` and `I`. -/
def rfcFunction : Nat → UInt32 → UInt32 → UInt32 → UInt32
  | 0, x, y, z => (x &&& y) ||| (~~~x &&& z)
  | 1, x, y, z => (x &&& z) ||| (y &&& ~~~z)
  | 2, x, y, z => x ^^^ y ^^^ z
  | _, x, y, z => y ^^^ (x ||| ~~~z)

/-- The word that an operation of a round takes. -/
def rfcIndex : Nat → Nat → Nat
  | 0, i => i
  | 1, i => (1 + 5 * i) % 16
  | 2, i => (5 + 3 * i) % 16
  | _, i => 7 * i % 16

/-- The shifts of the rounds. -/
def rfcShifts : List (List UInt32) :=
  [[7, 12, 17, 22], [5, 9, 14, 20], [4, 11, 16, 23], [6, 10, 15, 21]]

/-- The table `T`. -/
def rfcTable : List UInt32 := [
  0xd76aa478, 0xe8c7b756, 0x242070db, 0xc1bdceee, 0xf57c0faf, 0x4787c62a, 0xa8304613, 0xfd469501,
  0x698098d8, 0x8b44f7af, 0xffff5bb1, 0x895cd7be, 0x6b901122, 0xfd987193, 0xa679438e, 0x49b40821,
  0xf61e2562, 0xc040b340, 0x265e5a51, 0xe9b6c7aa, 0xd62f105d, 0x02441453, 0xd8a1e681, 0xe7d3fbc8,
  0x21e1cde6, 0xc33707d6, 0xf4d50d87, 0x455a14ed, 0xa9e3e905, 0xfcefa3f8, 0x676f02d9, 0x8d2a4c8a,
  0xfffa3942, 0x8771f681, 0x6d9d6122, 0xfde5380c, 0xa4beea44, 0x4bdecfa9, 0xf6bb4b60, 0xbebfbc70,
  0x289b7ec6, 0xeaa127fa, 0xd4ef3085, 0x04881d05, 0xd9d4d039, 0xe6db99e5, 0x1fa27cf8, 0xc4ac5665,
  0xf4292244, 0x432aff97, 0xab9423a7, 0xfc93a039, 0x655b59c3, 0x8f0ccc92, 0xffeff47d, 0x85845dd1,
  0x6fa87e4f, 0xfe2ce6e0, 0xa3014314, 0x4e0811a1, 0xf7537e82, 0xbd3af235, 0x2ad7d2bb, 0xeb86d391]

/-- An operation, behind which the words change places: `[ABCD k s i]` is
`a = b + ((a + F(b,c,d) + X[k] + T[i]) <<< s)`. -/
def rfcTurn (f : UInt32 → UInt32 → UInt32 → UInt32) (line : Md5Line) (words : Md5Words) :
    Md5Words :=
  ⟨words.D, words.B + cyclic (words.A + f words.B words.C words.D + line.k + line.T) line.s,
    words.B, words.C⟩

/-- Operation `i` of a round. -/
def rfcOperation (round : Nat) (X : Nat → UInt32) (words : Md5Words) (i : Nat) : Md5Words :=
  rfcTurn (rfcFunction round) ⟨X (rfcIndex round i), (rfcShifts.getD round []).getD (i % 4) 0,
    rfcTable.getD (16 * round + i) 0⟩ words

/-- One round. -/
def rfcRound (X : Nat → UInt32) (words : Md5Words) (round : Nat) : Md5Words :=
  (List.range 16).foldl (rfcOperation round X) words

/-- The four rounds on one block. -/
def rfcCompress (words : Md5Words) (block : Bytes) : Md5Words :=
  let after := (List.range 4).foldl (rfcRound (wordAt block)) words
  ⟨after.A + words.A, after.B + words.B, after.C + words.C, after.D + words.D⟩

/-- A number in some bytes, the lowest first. -/
def lowFirst (count n : Nat) : Bytes := (List.range count).map fun i => UInt8.ofNat (n / 256 ^ i)

/-- The message with its padding and its length in bits. -/
def rfcPadded (message : Bytes) : Bytes :=
  message ++ (0x80 :: List.replicate ((119 - message.length % 64) % 64) 0) ++
    lowFirst 8 (8 * message.length)

/-- The digest of a message. -/
def rfcDigest (message : Bytes) : Bytes :=
  md5GetResult (absorb rfcCompress 64 ((rfcPadded message).length / 64)
    ⟨0x67452301, 0xefcdab89, 0x98badcfe, 0x10325476⟩ (rfcPadded message))

/-! ## Rounds -/

theorem md5FF_eq : md5FF = rfcFunction 0 := by
  funext b c d
  apply UInt32.eq_of_toBitVec_eq
  ext i small
  simp only [md5FF, rfcFunction, UInt32.toBitVec_xor, UInt32.toBitVec_and, UInt32.toBitVec_or,
    UInt32.toBitVec_not, BitVec.getElem_xor, BitVec.getElem_and, BitVec.getElem_or,
    BitVec.getElem_not]
  cases b.toBitVec[i] <;> cases c.toBitVec[i] <;> cases d.toBitVec[i] <;> rfl

theorem md5FG_eq : md5FG = rfcFunction 1 := by
  funext b c d
  apply UInt32.eq_of_toBitVec_eq
  ext i small
  simp only [md5FG, md5FF, rfcFunction, UInt32.toBitVec_xor, UInt32.toBitVec_and,
    UInt32.toBitVec_or, UInt32.toBitVec_not, BitVec.getElem_xor, BitVec.getElem_and,
    BitVec.getElem_or, BitVec.getElem_not]
  cases b.toBitVec[i] <;> cases c.toBitVec[i] <;> cases d.toBitVec[i] <;> rfl

theorem md5Op_eq (f : UInt32 → UInt32 → UInt32 → UInt32) (a b c d : UInt32) (line : Md5Line) :
    md5Op f a b c d line = b + cyclic (a + f b c d + line.k + line.T) line.s := by
  rw [md5Op, UInt32.add_comm, UInt32.add_assoc, UInt32.add_assoc, UInt32.add_assoc]

/-- Four lines are four operations, behind which the words are in their places. -/
theorem md5Lines_eq (f : UInt32 → UInt32 → UInt32 → UInt32) (toA toD toC toB : Md5Line)
    (words : Md5Words) : md5Lines f toA toD toC toB words =
      rfcTurn f toB (rfcTurn f toC (rfcTurn f toD (rfcTurn f toA words))) := by
  simp only [md5Lines, rfcTurn, md5Op_eq]

section Rounds

variable (X : Nat → UInt32) (words : Md5Words)

theorem md5Round1_eq : md5Round1 X words = rfcRound X words 0 := by
  simp only [md5Round1, md5Lines_eq, md5FF_eq]
  rfl

theorem md5Round2_eq : md5Round2 X words = rfcRound X words 1 := by
  simp only [md5Round2, md5Lines_eq, md5FG_eq]
  rfl

theorem md5Round3_eq : md5Round3 X words = rfcRound X words 2 := by
  simp only [md5Round3, md5Lines_eq]
  rfl

theorem md5Round4_eq : md5Round4 X words = rfcRound X words 3 := by
  simp only [md5Round4, md5Lines_eq]
  rfl

end Rounds

theorem md5Compress_eq : md5Compress = rfcCompress := by
  funext words block
  have range : List.range 4 = [0, 1, 2, 3] := rfl
  simp only [md5Compress, rfcCompress, md5Round1_eq, md5Round2_eq, md5Round3_eq, md5Round4_eq,
    range, List.foldl_cons, List.foldl_nil]

/-! ## The count of bytes -/

/-- The number that the two words hold. -/
def countOf (total : UInt32 × UInt32) : Nat := total.1.toNat + 2 ^ 32 * total.2.toNat

theorem countOf_lt (total : UInt32 × UInt32) : countOf total < 2 ^ 64 := by
  have low := total.1.toNat_lt
  have high := total.2.toNat_lt
  unfold countOf
  omega

theorem countOf_md5Count (total : UInt32 × UInt32) (length : UInt32) :
    countOf (md5Count total length) = (countOf total + length.toNat) % 2 ^ 64 := by
  have low := total.1.toNat_lt
  have high := total.2.toNat_lt
  have added := length.toNat_lt
  have room : (4294967295 - length).toNat = 4294967295 - length.toNat := by
    rw [UInt32.toNat_sub_of_le]
    · rfl
    · apply UInt32.le_iff_toNat_le.mpr
      exact Nat.le_of_lt_succ added
  unfold countOf md5Count
  by_cases carry : total.1 > 4294967295 - length
  · rw [if_pos carry]
    have beyond := UInt32.lt_iff_toNat_lt.mp carry
    rw [room] at beyond
    have wrapped : (total.1 - (4294967295 + 1 - length)).toNat =
        total.1.toNat + length.toNat - 2 ^ 32 := by
      have zero : (4294967295 + 1 - length : UInt32).toNat = (2 ^ 32 - length.toNat) % 2 ^ 32 := by
        rw [UInt32.toNat_sub]
        rfl
      rw [UInt32.toNat_sub, zero]
      omega
    have next : (total.2 + 1).toNat = (total.2.toNat + 1) % 2 ^ 32 := UInt32.toNat_add _ _
    dsimp only
    rw [wrapped, next]
    omega
  · rw [if_neg carry]
    have under := UInt32.not_lt.mp carry
    have sum := UInt32.le_iff_toNat_le.mp under
    rw [room] at sum
    have plain : (total.1 + length).toNat = total.1.toNat + length.toNat := by
      rw [UInt32.toNat_add]
      omega
    dsimp only
    rw [plain]
    omega

/-- The bytes of a word. -/
theorem wordBytes_eq (word : UInt32) : wordBytes word =
    [UInt8.ofNat word.toNat, UInt8.ofNat (word.toNat / 2 ^ 8), UInt8.ofNat (word.toNat / 2 ^ 16),
      UInt8.ofNat (word.toNat / 2 ^ 24)] := by
  have shifted : ∀ (s : UInt32) (bits : Nat), s.toNat % 32 = bits →
      (word >>> s).toUInt8 = UInt8.ofNat (word.toNat / 2 ^ bits) := by
    intro s bits same
    apply UInt8.toNat_inj.mp
    rw [UInt32.toNat_toUInt8, UInt32.toNat_shiftRight, same, Nat.shiftRight_eq_div_pow]
    rfl
  rw [wordBytes, shifted 8 8 rfl, shifted 16 16 rfl, shifted 24 24 rfl]
  rfl

theorem low_word (word : UInt32) :
    ((word &&& 0x1FFFFFFF) <<< 3).toNat = 8 * word.toNat % 2 ^ 32 := by
  have masked : (word &&& 0x1FFFFFFF).toNat = word.toNat % 2 ^ 29 :=
    (UInt32.toNat_and _ _).trans (Nat.and_two_pow_sub_one_eq_mod _ 29)
  rw [UInt32.toNat_shiftLeft, masked, Nat.shiftLeft_eq]
  change word.toNat % 2 ^ 29 * 2 ^ 3 % 2 ^ 32 = 8 * word.toNat % 2 ^ 32
  omega

theorem high_word (low high : UInt32) :
    ((high <<< 3) ||| ((low &&& 0xE0000000) >>> 29)).toNat =
      (8 * high.toNat + low.toNat / 2 ^ 29) % 2 ^ 32 := by
  have small := low.toNat_lt
  have carried : ((low &&& 0xE0000000) >>> 29).toNat = low.toNat / 2 ^ 29 := by
    rw [UInt32.toNat_shiftRight, UInt32.toNat_and, Nat.shiftRight_and_distrib]
    change low.toNat >>> 29 &&& 2 ^ 3 - 1 = low.toNat / 2 ^ 29
    rw [Nat.and_two_pow_sub_one_eq_mod, Nat.shiftRight_eq_div_pow]
    omega
  have shifted : (high <<< 3).toNat = (high.toNat % 2 ^ 29) <<< 3 := by
    rw [UInt32.toNat_shiftLeft, Nat.shiftLeft_eq, Nat.shiftLeft_eq]
    change high.toNat * 2 ^ 3 % 2 ^ 32 = high.toNat % 2 ^ 29 * 2 ^ 3
    omega
  have bits : low.toNat / 2 ^ 29 < 2 ^ 3 := by omega
  rw [UInt32.toNat_or, shifted, carried, ← Nat.shiftLeft_add_eq_or_of_lt bits, Nat.shiftLeft_eq]
  omega

/-- The two words, shifted, are the number of bits. -/
theorem md5Bits_eq {total : UInt32 × UInt32} {length : Nat} (same : countOf total = length % 2 ^ 64) :
    md5Bits total = lowFirst 8 (8 * length) := by
  have byte : ∀ {n m : Nat}, n % 2 ^ 8 = m % 2 ^ 8 → UInt8.ofNat n = UInt8.ofNat m := by
    intro n m same
    apply UInt8.toNat_inj.mp
    rw [UInt8.toNat_ofNat', UInt8.toNat_ofNat', same]
  have low := total.1.toNat_lt
  have high := total.2.toNat_lt
  unfold countOf at same
  have list : lowFirst 8 (8 * length) =
      [UInt8.ofNat (8 * length), UInt8.ofNat (8 * length / 2 ^ 8),
        UInt8.ofNat (8 * length / 2 ^ 16), UInt8.ofNat (8 * length / 2 ^ 24),
        UInt8.ofNat (8 * length / 2 ^ 32), UInt8.ofNat (8 * length / 2 ^ 40),
        UInt8.ofNat (8 * length / 2 ^ 48), UInt8.ofNat (8 * length / 2 ^ 56)] := by
    simp only [lowFirst, List.range, List.range.loop, List.map_cons, List.map_nil, Nat.reducePow,
      Nat.div_one]
  rw [md5Bits, wordBytes_eq, wordBytes_eq, low_word, high_word, list]
  simp only [List.cons_append, List.nil_append, List.cons.injEq, and_true]
  refine ⟨?_, ?_, ?_, ?_, ?_, ?_, ?_, ?_⟩
  all_goals
    apply byte
    omega

/-! ## Pieces -/

/-- Some blocks of the message are processed, and what waits is counted later. -/
structure Streamed (message : Bytes) (md5 : Md5) (waiting : Bytes) : Prop where
  absorbed : Absorbed md5Compress 64 md5Init.words message md5.words waiting
  count : (countOf md5.total + waiting.length) % 2 ^ 64 = message.length % 2 ^ 64

/-- A structure between two calls. -/
structure Md5.Holds (md5 : Md5) (message : Bytes) : Prop where
  streamed : Streamed message md5 md5.buffer
  short : md5.buffer.length ≤ 64

theorem md5Init_holds : md5Init.Holds [] where
  streamed := ⟨.nothing _, rfl⟩
  short := Nat.zero_le 64

section Streamed

variable {message waiting : Bytes} {md5 : Md5} (streamed : Streamed message md5 waiting)

include streamed

theorem Streamed.append (more : Bytes) : Streamed (message ++ more) md5 (waiting ++ more) where
  absorbed := streamed.absorbed.append more
  count := by
    have count := streamed.count
    rw [List.length_append, List.length_append]
    omega

/-- The full blocks among what waits are processed. -/
theorem Streamed.process (bounded : waiting.length < 2 ^ 32) {whole : Nat}
    (blocks : whole = waiting.length / 64 * 64) :
    Streamed message (processBlock md5 (waiting.take whole)) (waiting.drop whole) := by
  have taken : (waiting.take whole).length = whole := by
    rw [List.length_take]
    omega
  have turns : (whole / 4 + 15) / 16 = waiting.length / 64 := by omega
  have enough : waiting.length / 64 * 64 ≤ waiting.length := Nat.div_mul_le_self _ _
  constructor
  · have stepped := streamed.absorbed.step enough
    rw [← absorb_take _ _ enough, ← blocks] at stepped
    rw [processBlock, taken, turns]
    exact stepped
  · have count := streamed.count
    have small : whole < 2 ^ 32 := by omega
    have exact_ : (UInt32.ofNat whole).toNat = whole := UInt32.toNat_ofNat_of_lt' small
    change (countOf (md5Count md5.total (UInt32.ofNat (waiting.take whole).length)) + _) % _ = _
    rw [taken, countOf_md5Count, exact_, List.length_drop]
    omega

end Streamed

/-- What a call holds back is filled up first, and nothing is left for a buffer
in use. -/
theorem md5Fill_spec {md5 : Md5} {message : Bytes} (holds : md5.Holds message) (piece : Bytes)
    (bounded : piece.length + 64 < 2 ^ 32) :
    Exists fun filled => md5Fill md5 piece = some filled ∧ Exists fun front =>
      piece = front ++ filled.2 ∧ filled.1.Holds (message ++ front) ∧
        (filled.2 ≠ [] → filled.1.buffer = []) := by
  have short := holds.short
  unfold md5Fill
  by_cases some_ : md5.buffer.length > 0
  · dsimp only
    rw [if_pos some_, Nat.mod_eq_of_lt (by omega)]
    generalize added : (if md5.buffer.length + piece.length > 128 then 128 - md5.buffer.length
      else piece.length) = add
    have within : md5.buffer.length + add ≤ 128 ∧ add ≤ piece.length ∧
        (add < piece.length → md5.buffer.length + add = 128) := by
      split at added <;> omega
    have taken : (piece.take add).length = add := by
      rw [List.length_take]
      omega
    have streamed := holds.streamed.append (piece.take add)
    have length : (md5.buffer ++ piece.take add).length = md5.buffer.length + add := by
      rw [List.length_append, taken]
    rw [if_neg (Nat.not_lt.mpr within.1)]
    refine ⟨_, rfl, piece.take add, (List.take_append_drop add piece).symm, ?_⟩
    by_cases full : md5.buffer.length + add > 64
    · rw [if_pos full]
      have processed := streamed.process (by omega) (congrArg (· / 64 * 64) length.symm)
      refine ⟨⟨⟨processed.absorbed, processed.count⟩, ?_⟩, fun more => ?_⟩
      · dsimp only
        rw [List.length_drop, length]
        omega
      · have left : add < piece.length := by
          apply Nat.lt_of_not_le
          exact fun all => more (List.drop_eq_nil_of_le all)
        apply List.drop_eq_nil_of_le
        rw [length, within.2.2 left]
    · rw [if_neg full]
      refine ⟨⟨⟨streamed.absorbed, streamed.count⟩, ?_⟩, fun more => ?_⟩
      · rw [length]
        omega
      · refine absurd ?_ more
        apply List.drop_eq_nil_of_le
        omega
  · have empty : md5.buffer = [] := List.eq_nil_of_length_eq_zero (by omega)
    dsimp only
    rw [if_neg some_]
    refine ⟨_, rfl, [], rfl, ?_, fun _ => empty⟩
    rw [List.append_nil]
    exact holds

/-- The rest is processed, or it is kept. -/
theorem md5Keep_spec {md5 : Md5} {message : Bytes} (holds : md5.Holds message) (rest : Bytes)
    (bounded : rest.length < 2 ^ 32) (free : rest ≠ [] → md5.buffer = []) :
    (md5Keep md5 rest).Holds (message ++ rest) := by
  have appended := holds.streamed.append rest
  unfold md5Keep
  by_cases many : rest.length > 64
  · have empty : md5.buffer = [] := free (List.ne_nil_of_length_pos (by omega))
    rw [empty, List.nil_append] at appended
    have processed := appended.process bounded rfl
    have left : (rest.drop (rest.length / 64 * 64)).length ≤ 64 := by
      rw [List.length_drop]
      omega
    dsimp only
    rw [if_pos many]
    split
    next more => exact ⟨⟨processed.absorbed, processed.count⟩, left⟩
    next none_ =>
      have nothing : rest.drop (rest.length / 64 * 64) = md5.buffer := by
        rw [empty]
        exact List.eq_nil_of_length_eq_zero (by omega)
      rw [nothing] at processed
      exact ⟨processed, holds.short⟩
  · dsimp only
    rw [if_neg many]
    split
    next more =>
      rw [free (List.ne_nil_of_length_pos more), List.nil_append] at appended
      exact ⟨⟨appended.absorbed, appended.count⟩, Nat.le_of_not_lt many⟩
    next none_ =>
      have nothing : rest = [] := List.eq_nil_of_length_eq_zero (by omega)
      rw [nothing, List.append_nil]
      exact holds

theorem md5Process_spec {md5 : Md5} {message : Bytes} (holds : md5.Holds message) {piece : Bytes}
    (bounded : piece.length + 64 < 2 ^ 32) :
    Exists fun after => md5Process md5 piece = some after ∧ after.Holds (message ++ piece) := by
  rcases md5Fill_spec holds piece bounded with ⟨filled, done, front, split, between, free⟩
  refine ⟨md5Keep filled.1 filled.2, ?_, ?_⟩
  · rw [md5Process, done]
    rfl
  · have length := congrArg List.length split
    rw [List.length_append] at length
    rw [split, ← List.append_assoc]
    exact md5Keep_spec between filled.2 (by omega) free

theorem length_lowFirst (count n : Nat) : (lowFirst count n).length = count := by
  rw [lowFirst, List.length_map, List.length_range]

/-- The last blocks are those of the padded message. -/
theorem md5Finish_spec {md5 : Md5} {message : Bytes} (holds : md5.Holds message) :
    md5Finish md5 = some (rfcDigest message) := by
  have short := holds.short
  rcases holds.streamed.absorbed with ⟨count, within, _, kept⟩
  have length : md5.buffer.length = message.length - count * 64 := by
    rw [kept, List.length_drop]
  have counted : countOf (md5Count md5.total (UInt32.ofNat md5.buffer.length)) =
      message.length % 2 ^ 64 := by
    have small : md5.buffer.length < 2 ^ 32 := Nat.lt_of_le_of_lt short (by decide)
    rw [countOf_md5Count, UInt32.toNat_ofNat_of_lt' small]
    exact holds.streamed.count
  have zeros : md5Pad md5.buffer.length - 1 = (119 - message.length % 64) % 64 := by
    unfold md5Pad
    split <;> omega
  have last : md5Last md5.buffer (md5Bits (md5Count md5.total (UInt32.ofNat md5.buffer.length))) =
      md5.buffer ++ ((0x80 :: List.replicate ((119 - message.length % 64) % 64) 0) ++
        lowFirst 8 (8 * message.length)) := by
    rw [md5Last, md5Bits_eq counted, zeros, List.append_assoc]
  have size : (md5Last md5.buffer
      (md5Bits (md5Count md5.total (UInt32.ofNat md5.buffer.length)))).length =
      md5.buffer.length + ((119 - message.length % 64) % 64 + 1 + 8) := by
    rw [last, List.length_append, List.length_append, List.length_cons, List.length_replicate,
      length_lowFirst]
  have padded := holds.streamed.absorbed.append
    ((0x80 :: List.replicate ((119 - message.length % 64) % 64) 0) ++
      lowFirst 8 (8 * message.length))
  rw [← last, ← List.append_assoc] at padded
  unfold md5Finish
  dsimp only
  generalize md5Last md5.buffer
    (md5Bits (md5Count md5.total (UInt32.ofNat md5.buffer.length))) = filled at size padded
  have blocks : filled.length = (filled.length / 4 + 15) / 16 * 64 ∧ filled.length ≤ 128 := by
    omega
  have digested := padded.finish (by decide) blocks.1
  rw [if_neg (Nat.not_lt.mpr blocks.2), processBlock]
  dsimp only
  rw [digested, md5Compress_eq]
  rfl

/-- Whatever the pieces of a message, what `md5_finish` returns behind them is the
digest of RFC 1321 of the whole message, and no byte is copied beyond the
storage buffer. -/
theorem md5_of_pieces {pieces : List Bytes} (bounded : ∀ piece ∈ pieces, piece.length + 64 < 2 ^ 32) :
    (pieces.foldlM md5Process md5Init).bind md5Finish = some (rfcDigest pieces.flatten) := by
  have whole : ∀ (pieces : List Bytes) (md5 : Md5) (message : Bytes), md5.Holds message →
      (∀ piece ∈ pieces, piece.length + 64 < 2 ^ 32) →
      (pieces.foldlM md5Process md5).bind md5Finish =
        some (rfcDigest (message ++ pieces.flatten)) := by
    intro pieces
    induction pieces with
    | nil =>
        intro md5 message holds _
        rw [List.flatten_nil, List.append_nil]
        exact md5Finish_spec holds
    | cons piece rest inductionHypothesis =>
        intro md5 message holds bounded
        rcases md5Process_spec holds (bounded piece List.mem_cons_self) with ⟨after, done, later⟩
        rw [List.foldlM_cons, done, List.flatten_cons, ← List.append_assoc]
        exact inductionHypothesis after _ later fun other member =>
          bounded other (List.mem_cons_of_mem piece member)
  exact whole pieces md5Init [] md5Init_holds bounded

theorem md5_of_two_pieces :
    ([lit "ab", lit "c"].foldlM md5Process md5Init).bind md5Finish = some (rfcDigest (lit "abc")) :=
  md5_of_pieces (by decide : ∀ piece ∈ [lit "ab", lit "c"], piece.length + 64 < 2 ^ 32)

/-! ## Digests as text -/

/-- `HEX_STRING` -/
def md5HexString : Bytes := lit "0123456789abcdef"

/-- The digit of a number below 16. -/
def md5HexDigit (n : Nat) : UInt8 := md5HexString.getD n 0

/-- `md5_sig_to_string` with so much room: what it writes, with the terminator
where there is room for it. -/
def md5SigToString : Bytes → Nat → Bytes
  | [], room => if 0 < room then [0] else []
  | byte :: rest, room =>
      if room ≤ 1 then if 0 < room then [0] else []
      else md5HexDigit (byte.toNat / 16) :: md5HexDigit (byte.toNat % 16) :: md5SigToString rest (room - 2)

/-- `strchr(hex, c) - hex`, which finds the terminator too; `none` for a NULL pointer. -/
def hexIndex (c : UInt8) : Option Nat := (md5HexString ++ [0]).idxOf? c

/-- `md5_sig_from_string`: so many pairs of digits. -/
def md5SigFromString : Nat → Bytes → Option Bytes
  | 0, _ => some []
  | count + 1, high :: low :: rest => do
      let high ← hexIndex high
      let low ← hexIndex low
      let others ← md5SigFromString count rest
      some (UInt8.ofNat (high * 16 + low) :: others)
  | _ + 1, _ => none

/-- The bytes of a string in a buffer. -/
def terminated (buffer : Bytes) : Bytes := buffer.takeWhile fun c => c ≠ 0

/-- `xf_md5` on its arguments as strings, NULL adding nothing. -/
def xfMd5 (args : List (Option Bytes)) : Option Bytes :=
  (md5Buffer (args.map fun arg => arg.getD []).flatten).map fun sig =>
    terminated (md5SigToString sig 33)

/-- `external_cache_normalize_key` -/
def externalCacheNormalizeKey (key : Bytes) : Option Bytes :=
  if key.length > 200 then (md5Buffer key).map fun sig => terminated (md5SigToString sig 34)
  else some key

theorem md5HexDigit_spec {n : Nat} (small : n < 16) :
    hexIndex (md5HexDigit n) = some n ∧ md5HexDigit n ∈ md5HexString ∧ md5HexDigit n ≠ 0 := by
  have all : ∀ n : Fin 16, hexIndex (md5HexDigit n) = some n.val ∧ md5HexDigit n ∈ md5HexString ∧
      md5HexDigit n ≠ 0 := by
    decide
  exact all ⟨n, small⟩

/-- With room for all digits they are written, and a terminator if it fits. -/
theorem md5SigToString_eq (signature : Bytes) {room : Nat} (enough : 2 * signature.length ≤ room) :
    md5SigToString signature room =
      signature.flatMap (fun byte => [md5HexDigit (byte.toNat / 16), md5HexDigit (byte.toNat % 16)]) ++
        if 2 * signature.length < room then [0] else [] := by
  induction signature generalizing room with
  | nil =>
      rw [md5SigToString, List.flatMap_nil, List.nil_append, List.length_nil]
  | cons byte rest inductionHypothesis =>
      rw [List.length_cons] at enough ⊢
      rw [md5SigToString, if_neg (by omega), inductionHypothesis (by omega), List.flatMap_cons]
      have same : 2 * rest.length < room - 2 ↔ 2 * (rest.length + 1) < room := by omega
      simp only [same, List.cons_append, List.nil_append]

theorem length_digits (signature : Bytes) :
    (signature.flatMap fun byte =>
      [md5HexDigit (byte.toNat / 16), md5HexDigit (byte.toNat % 16)]).length = 2 * signature.length := by
  induction signature with
  | nil => rfl
  | cons byte rest inductionHypothesis =>
      rw [List.flatMap_cons, List.length_append, inductionHypothesis, List.length_cons,
        List.length_cons, List.length_cons, List.length_nil]
      omega

/-- The digits are read back, whatever follows them. -/
theorem md5SigFromString_digits (signature behind : Bytes) :
    md5SigFromString signature.length
      (signature.flatMap (fun byte => [md5HexDigit (byte.toNat / 16), md5HexDigit (byte.toNat % 16)]) ++
        behind) = some signature := by
  induction signature with
  | nil => rfl
  | cons byte rest inductionHypothesis =>
      have bound := byte.toNat_lt
      have high := md5HexDigit_spec (show byte.toNat / 16 < 16 by omega)
      have low := md5HexDigit_spec (show byte.toNat % 16 < 16 by omega)
      have byte_ : UInt8.ofNat (byte.toNat / 16 * 16 + byte.toNat % 16) = byte := by
        rw [Nat.div_add_mod' byte.toNat 16]
        exact UInt8.ofNat_toNat
      rw [List.flatMap_cons, List.length_cons, List.append_assoc, List.cons_append,
        List.cons_append, List.nil_append, md5SigFromString, high.1, low.1, inductionHypothesis]
      change some (UInt8.ofNat (byte.toNat / 16 * 16 + byte.toNat % 16) :: rest) = _
      rw [byte_]

/-- The text of a digest has two digits for each byte. -/
theorem digest_text (signature : Bytes) {room : Nat} (enough : 2 * signature.length < room) :
    (terminated (md5SigToString signature room)).length = 2 * signature.length ∧
      (∀ c ∈ terminated (md5SigToString signature room), c ∈ md5HexString) ∧
      md5SigFromString signature.length (terminated (md5SigToString signature room)) =
        some signature := by
  have digits : ∀ c ∈ signature.flatMap (fun byte =>
      [md5HexDigit (byte.toNat / 16), md5HexDigit (byte.toNat % 16)]), c ∈ md5HexString ∧ c ≠ 0 := by
    intro c member
    rcases List.mem_flatMap.mp member with ⟨byte, _, inside⟩
    have bound := byte.toNat_lt
    have high := md5HexDigit_spec (show byte.toNat / 16 < 16 by omega)
    have low := md5HexDigit_spec (show byte.toNat % 16 < 16 by omega)
    rcases List.mem_pair.mp inside with rfl | rfl
    · exact high.2
    · exact low.2
  have text : terminated (md5SigToString signature room) = signature.flatMap (fun byte =>
      [md5HexDigit (byte.toNat / 16), md5HexDigit (byte.toNat % 16)]) := by
    rw [md5SigToString_eq signature (Nat.le_of_lt enough), if_pos enough, terminated,
      List.takeWhile_append_of_pos fun c member => decide_eq_true (digits c member).2]
    exact List.append_nil _
  rw [text]
  refine ⟨?_, fun c member => (digits c member).1, ?_⟩
  · exact length_digits signature
  · have read := md5SigFromString_digits signature []
    rwa [List.append_nil] at read

theorem length_rfcDigest (message : Bytes) : (rfcDigest message).length = 16 := rfl

theorem md5Buffer_eq {buffer : Bytes} (bounded : buffer.length < 2 ^ 32) :
    md5Buffer buffer = some (rfcDigest buffer) := by
  have fresh : md5Process md5Init buffer = some (md5Keep md5Init buffer) := rfl
  rw [md5Buffer, Nat.mod_eq_of_lt bounded, List.take_length, fresh]
  exact md5Finish_spec (md5Keep_spec md5Init_holds buffer bounded fun _ => rfl)

/-- `ltr:md5_hex` gives 32 digits, which read back are the digest of its
arguments one behind the other. -/
theorem xfMd5_spec {args : List (Option Bytes)}
    (bounded : (args.map fun arg => arg.getD []).flatten.length < 2 ^ 32) :
    ∃ hex, xfMd5 args = some hex ∧ hex.length = 32 ∧ (∀ c ∈ hex, c ∈ md5HexString) ∧
      md5SigFromString 16 hex = some (rfcDigest (args.map fun arg => arg.getD []).flatten) := by
  have enough : 2 * (rfcDigest (args.map fun arg => arg.getD []).flatten).length < 33 := by
    rw [length_rfcDigest]
    decide
  have text := digest_text _ enough
  rw [length_rfcDigest] at text
  refine ⟨_, ?_, text⟩
  rw [xfMd5, md5Buffer_eq bounded]
  rfl

theorem xfMd5_abc :
    ∃ hex, xfMd5 [some (lit "ab"), none, some (lit "c")] = some hex ∧ hex.length = 32 ∧
      (∀ c ∈ hex, c ∈ md5HexString) ∧ md5SigFromString 16 hex = some (rfcDigest (lit "abc")) :=
  xfMd5_spec (by decide : ([some (lit "ab"), none, some (lit "c")].map fun arg =>
    arg.getD []).flatten.length < 2 ^ 32)

/-- The key handed to the cache has at most 200 bytes. -/
theorem externalCacheNormalizeKey_short {key : Bytes} (bounded : key.length < 2 ^ 32) :
    ∃ normal, externalCacheNormalizeKey key = some normal ∧ normal.length ≤ 200 ∧
      (normal = key ∨ 200 < key.length ∧ md5SigFromString 16 normal = some (rfcDigest key)) := by
  unfold externalCacheNormalizeKey
  by_cases long : key.length > 200
  · have enough : 2 * (rfcDigest key).length < 34 := by
      rw [length_rfcDigest]
      decide
    have text := digest_text _ enough
    rw [length_rfcDigest] at text
    rw [if_pos long, md5Buffer_eq bounded]
    exact ⟨_, rfl, Nat.le_trans (Nat.le_of_eq text.1) (by decide), .inr ⟨long, text.2.2⟩⟩
  · rw [if_neg long]
    exact ⟨key, rfl, Nat.le_of_not_lt long, .inl rfl⟩

end TurboXSL
