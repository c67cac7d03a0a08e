import TurboXSL.Library.Buffer
import TurboXSL.Parse

namespace TurboXSL
namespace StringBuilder

open Library

/-!
# The string builder

An `XMLSTRING` that grows: the recorded size, the length and the buffer.
The first buffer is one byte larger than recorded; later ones have the
recorded size.  `xmls_add_char` leaves two bytes free and computes that limit
without a sign, `xmls_add_str` counts the terminator of what it copies.  Sizes
are `size_t`, the length of an appended string is an `unsigned`.  An access
outside of the buffer has no result.
-/

/-- `struct _xmls`; the buffer with all its bytes. -/
structure Xmls where
  allocated : Nat
  len : Nat
  s : Bytes

/-- `PTRDIFF_MAX`: there is no larger object. -/
def ptrdiffMax : Nat := 2 ^ 63 - 1

/-- The block `memory_allocator_new` returns, all zero. -/
def newBlock (size : Nat) : Option Bytes :=
  if ptrdiffMax < size then none else some (List.replicate size 0)

/-- `xmls_new` -/
def xmlsNew (bsize : UInt64) : Option Xmls := do
  let s ← newBlock ((bsize.toNat + 1) % 2 ^ 64)
  some { allocated := bsize.toNat, len := 0, s := s }

/-- What both functions do when the string does not fit: a new block of
`size` bytes, with the old one up to the recorded size. -/
def grow (b : Xmls) (size : Nat) : Option Xmls := do
  let s ← newBlock size
  let s ← Buffer.blit s 0 b.s b.allocated
  some { b with allocated := size, s := s }

/-- The last two lines of `xmls_add_char`. -/
def putChar (b : Xmls) (c : UInt8) : Option Xmls := do
  let s ← Buffer.store b.s b.len c
  let len := (b.len + 1) % 2 ^ 64
  let s ← Buffer.store s len 0
  some { b with len := len, s := s }

/-- `xmls_add_char` -/
def xmlsAddChar (b : Xmls) (c : UInt8) : Option Xmls := do
  let b ← if b.len ≥ (b.allocated + 2 ^ 64 - 2) % 2 ^ 64 then
      grow b ((b.allocated * 2 + 1) % 2 ^ 64) else some b
  putChar b c

/-- The last two lines of `xmls_add_str`, where `l` counts the terminator. -/
def putStr (b : Xmls) (d : CString) (l : Nat) : Option Xmls := do
  let s ← Buffer.blit b.s b.len (d.bytes ++ [0]) l
  some { b with len := (b.len + l + 2 ^ 64 - 1) % 2 ^ 64, s := s }

/-- `xmls_add_str` -/
def xmlsAddStr (b : Xmls) (d : Option CString) : Option Xmls :=
  match d with
  | none => some b
  | some d =>
      let l := (d.bytes.length + 1) % 2 ^ 32
      if l = 0 then some b
      else do
        let b ← if (b.len + l) % 2 ^ 64 ≥ b.allocated then
            grow b ((b.allocated * 2 + l) % 2 ^ 64) else some b
        putStr b d l

/-- A call of `xmls_add_char` or `xmls_add_str`. -/
inductive Step where
  | addChar (c : UInt8)
  | addStr (d : Option CString)

def Step.perform (b : Xmls) : Step → Option Xmls
  | .addChar c => xmlsAddChar b c
  | .addStr d => xmlsAddStr b d

/-- What a call appends. -/
def Step.piece : Step → Bytes
  | .addChar c => [c]
  | .addStr d => (d.map CString.bytes).getD []

/-- A call of one of the three functions; `xmls_add_utf` takes an `unsigned`. -/
inductive Call where
  | addChar (c : UInt8)
  | addStr (d : Option CString)
  | addUtf (u : UInt32)

/-- `xmls_add_utf` calls `xmls_add_char` for every byte. -/
def Call.steps : Call → List Step
  | .addChar c => [.addChar c]
  | .addStr d => [.addStr d]
  | .addUtf u => (xmlsAddUtf u.toNat).map .addChar

/-- A new string, and calls one after the other. -/
def run (bsize : UInt64) (steps : List Step) : Option Xmls := do
  steps.foldlM Step.perform (← xmlsNew bsize)

/-- The string holds a text of its length, followed by a NUL. -/
def Holds (b : Xmls) (text : Bytes) : Prop := b.len = text.length ∧ text ++ [0] <+: b.s

/-- After the calls no access was outside, and the string is what was appended. -/
def Concatenates (bsize : UInt64) (steps : List Step) : Prop :=
  Exists fun b => run bsize steps = some b ∧ Holds b (steps.flatMap Step.piece)

example : (run 2 [.addChar 0x61, .addStr (some ⟨lit "bc", by decide⟩)]).map
    (fun b => (b.len, b.s.take 4)) = some (3, lit "abc" ++ [0]) := by decide

/-! ## The invariant -/

/-- What holds between calls: the recorded size covers the text, and the
buffer has it or, at the beginning, one byte more. -/
structure Sound (b : Xmls) (text : Bytes) : Prop where
  holds : Holds b text
  possible : b.s.length ≤ ptrdiffMax
  recorded : b.allocated ≤ b.s.length
  covered : b.len ≤ b.allocated
  small : b.allocated < 2 → b.s.length ≤ b.allocated + 1

/-- There is room for a call: an appended character needs a recorded size of
two, or the untouched buffer of a string of size one; an appended string a
length that fits in an `unsigned`; and where the buffer has to grow, there is
an object of that size. -/
def Roomy (b : Xmls) : Step → Prop
  | .addChar _ =>
      2 ≤ b.allocated ∧ (b.allocated ≤ b.len + 2 → b.allocated * 2 + 1 ≤ ptrdiffMax) ∨
        b.allocated = 1 ∧ b.len = 0 ∧ b.s.length = 2
  | .addStr none => True
  | .addStr (some d) =>
      d.bytes.length + 1 < 2 ^ 32 ∧
        (b.allocated ≤ b.len + (d.bytes.length + 1) →
          b.allocated * 2 + (d.bytes.length + 1) ≤ ptrdiffMax)

variable {b : Xmls} {text : Bytes}

theorem Holds.text_prefix (holds : Holds b text) : text <+: b.s :=
  (List.prefix_append text [0]).trans holds.2

theorem Holds.inside (holds : Holds b text) : b.len < b.s.length := by
  have length := holds.2.length_le
  rw [List.length_append, List.length_singleton, ← holds.1] at length
  exact length

/-- Growing to a size that is possible and not smaller. -/
theorem Sound.grow (sound : Sound b text) {size : Nat} (larger : b.allocated ≤ size)
    (possible : size ≤ ptrdiffMax) :
    Exists fun after => grow b size = some after ∧ after.allocated = size ∧ after.len = b.len ∧
      after.s.length = size ∧ text <+: after.s := by
  have length : (List.replicate size (0 : UInt8)).length = size := List.length_replicate
  have room : b.allocated ≤ (List.replicate size (0 : UInt8)).length := by rwa [length]
  rcases Buffer.blit_start sound.holds.text_prefix (sound.holds.1 ▸ sound.covered) room
    sound.recorded with ⟨s, copied, held⟩
  refine ⟨{ b with allocated := size, s := s }, ?_, rfl, rfl, ?_, held⟩
  · rw [StringBuilder.grow, newBlock, if_neg (Nat.not_lt.mpr possible)]
    dsimp only [Option.bind_eq_bind, Option.bind_some]
    rw [copied]
    rfl
  · rw [Buffer.blit_length copied, length]

/-- Growing to a size that is too large, or too small for what is copied. -/
theorem grow_eq_none {size : Nat} (wrong : ptrdiffMax < size ∨ size < b.allocated) :
    grow b size = none := by
  rw [grow, newBlock]
  by_cases large : ptrdiffMax < size
  · rw [if_pos large]
    rfl
  · have short : size < b.allocated := wrong.resolve_left large
    rw [if_neg large]
    dsimp only [Option.bind_eq_bind, Option.bind_some]
    rw [Buffer.blit, if_neg]
    · rfl
    · rw [List.length_replicate]
      omega

/-! ## One call -/

theorem putChar_spec (len : b.len = text.length) (held : text <+: b.s)
    (possible : b.s.length ≤ ptrdiffMax) (room : b.len + 1 < b.s.length) (c : UInt8) :
    Exists fun after => putChar b c = some after ∧ after.allocated = b.allocated ∧
      after.s.length = b.s.length ∧ Holds after (text ++ [c]) := by
  have next : (b.len + 1) % 2 ^ 64 = b.len + 1 := by
    rw [ptrdiffMax] at possible
    exact Nat.mod_eq_of_lt (by omega)
  refine ⟨{ b with len := b.len + 1, s := (b.s.set b.len c).set (b.len + 1) 0 }, ?_, rfl, ?_, ?_, ?_⟩
  · rw [putChar, Buffer.store_eq_some (by omega)]
    dsimp only [Option.bind_eq_bind, Option.bind_some]
    rw [next, Buffer.store_eq_some (by rwa [List.length_set])]
    rfl
  · rw [List.length_set, List.length_set]
  · rw [List.length_append, len]
    rfl
  · rw [len] at room ⊢
    exact Buffer.store_store held room c 0

theorem addChar_roomy (sound : Sound b text) {c : UInt8} (roomy : Roomy b (.addChar c)) :
    Exists fun after => xmlsAddChar b c = some after ∧ Sound after (text ++ [c]) := by
  have inside := sound.holds.inside
  rcases sound with ⟨holds, possible, recorded, covered, small⟩
  rcases roomy with ⟨two, growing⟩ | ⟨single, fresh, double⟩
  · have limit : (b.allocated + 2 ^ 64 - 2) % 2 ^ 64 = b.allocated - 2 := by
      rw [ptrdiffMax] at possible
      omega
    rw [xmlsAddChar, limit]
    by_cases full : b.allocated ≤ b.len + 2
    · have grown := growing full
      have size : (b.allocated * 2 + 1) % 2 ^ 64 = b.allocated * 2 + 1 := by
        rw [ptrdiffMax] at grown
        exact Nat.mod_eq_of_lt (by omega)
      rw [if_pos (by omega), size]
      rcases Sound.grow ⟨holds, possible, recorded, covered, small⟩
        (show b.allocated ≤ b.allocated * 2 + 1 by omega) grown with
        ⟨larger, growth, allocated, len, length, held⟩
      rcases putChar_spec (len.trans holds.1) held (length ▸ grown) (by omega) c with
        ⟨after, done, same, sameLength, now⟩
      refine ⟨after, by rw [growth]; exact done, now, ?_, ?_, ?_, fun few => ?_⟩
      · omega
      · omega
      · rw [now.1, List.length_append, ← holds.1, List.length_singleton]
        omega
      · omega
    · rw [if_neg (by omega)]
      rcases putChar_spec holds.1 holds.text_prefix possible (by omega) c with
        ⟨after, done, same, sameLength, now⟩
      refine ⟨after, done, now, ?_, ?_, ?_, fun few => ?_⟩
      · omega
      · omega
      · rw [now.1, List.length_append, ← holds.1, List.length_singleton]
        omega
      · omega
  · have limit : (b.allocated + 2 ^ 64 - 2) % 2 ^ 64 = 2 ^ 64 - 1 := by
      omega
    rw [xmlsAddChar, limit, if_neg (by omega)]
    rcases putChar_spec holds.1 holds.text_prefix possible (by omega) c with
      ⟨after, done, same, sameLength, now⟩
    refine ⟨after, done, now, ?_, ?_, ?_, fun few => ?_⟩
    · omega
    · omega
    · rw [now.1, List.length_append, ← holds.1, List.length_singleton]
      omega
    · omega

theorem addChar_tight (sound : Sound b text) {c : UInt8} (tight : ¬ Roomy b (.addChar c)) :
    xmlsAddChar b c = none := by
  have inside := sound.holds.inside
  rcases sound with ⟨holds, possible, recorded, covered, small⟩
  rw [Roomy] at tight
  by_cases two : 2 ≤ b.allocated
  · have full : b.allocated ≤ b.len + 2 ∧ ptrdiffMax < b.allocated * 2 + 1 := by omega
    have limit : (b.allocated + 2 ^ 64 - 2) % 2 ^ 64 = b.allocated - 2 := by
      rw [ptrdiffMax] at possible
      omega
    have size : (b.allocated * 2 + 1) % 2 ^ 64 = b.allocated * 2 + 1 := by
      rw [ptrdiffMax] at possible
      exact Nat.mod_eq_of_lt (by omega)
    rw [xmlsAddChar, limit, if_pos (by omega), size, grow_eq_none (.inl full.2)]
    rfl
  · have limit : 2 ^ 64 - 2 ≤ (b.allocated + 2 ^ 64 - 2) % 2 ^ 64 := by
      omega
    have last : b.s.length ≤ b.len + 1 := by
      have bound := small (by omega)
      omega
    rw [ptrdiffMax] at possible
    rw [xmlsAddChar, if_neg (by omega)]
    dsimp only [Option.bind_eq_bind, Option.bind_some]
    rw [putChar, Buffer.store_eq_some inside]
    dsimp only [Option.bind_eq_bind, Option.bind_some]
    rw [Nat.mod_eq_of_lt (by omega), Buffer.store_eq_none (by rwa [List.length_set])]
    rfl

theorem putStr_spec (len : b.len = text.length) (held : text <+: b.s)
    (possible : b.s.length ≤ ptrdiffMax) (d : CString)
    (room : b.len + (d.bytes.length + 1) ≤ b.s.length) :
    Exists fun after => putStr b d (d.bytes.length + 1) = some after ∧
      after.allocated = b.allocated ∧ after.s.length = b.s.length ∧
      Holds after (text ++ d.bytes) := by
  have source : (d.bytes ++ [0]).length = d.bytes.length + 1 := by simp
  have ends : text.length + (d.bytes ++ [0]).length ≤ b.s.length := by rwa [source, ← len]
  rcases Buffer.blit_append held ends with ⟨s, copied, now⟩
  rw [source, ← len] at copied
  have next : (b.len + (d.bytes.length + 1) + 2 ^ 64 - 1) % 2 ^ 64 = b.len + d.bytes.length := by
    rw [ptrdiffMax] at possible
    omega
  refine ⟨{ b with len := b.len + d.bytes.length, s := s }, ?_, rfl, ?_, ?_, ?_⟩
  · rw [putStr, copied, next]
    rfl
  · exact Buffer.blit_length copied
  · rw [List.length_append, len]
  · rwa [List.append_assoc]

theorem addStr_roomy (sound : Sound b text) {d : CString} (roomy : Roomy b (.addStr (some d))) :
    Exists fun after => xmlsAddStr b (some d) = some after ∧ Sound after (text ++ d.bytes) := by
  have inside := sound.holds.inside
  rcases sound with ⟨holds, possible, recorded, covered, small⟩
  rcases roomy with ⟨short, growing⟩
  have count : (d.bytes.length + 1) % 2 ^ 32 = d.bytes.length + 1 := Nat.mod_eq_of_lt short
  have sum : (b.len + (d.bytes.length + 1)) % 2 ^ 64 = b.len + (d.bytes.length + 1) := by
    rw [ptrdiffMax] at possible
    exact Nat.mod_eq_of_lt (by omega)
  rw [xmlsAddStr]
  dsimp only
  rw [count, if_neg (Nat.succ_ne_zero _), sum]
  by_cases full : b.allocated ≤ b.len + (d.bytes.length + 1)
  · have grown := growing full
    have size : (b.allocated * 2 + (d.bytes.length + 1)) % 2 ^ 64 =
        b.allocated * 2 + (d.bytes.length + 1) := by
      rw [ptrdiffMax] at grown
      exact Nat.mod_eq_of_lt (by omega)
    rw [if_pos full, size]
    rcases Sound.grow ⟨holds, possible, recorded, covered, small⟩
      (show b.allocated ≤ b.allocated * 2 + (d.bytes.length + 1) by omega) grown with
      ⟨larger, growth, allocated, len, length, held⟩
    rcases putStr_spec (len.trans holds.1) held (length ▸ grown) d (by omega) with
      ⟨after, done, same, sameLength, now⟩
    refine ⟨after, by rw [growth]; exact done, now, ?_, ?_, ?_, fun few => ?_⟩
    · omega
    · omega
    · rw [now.1, List.length_append, ← holds.1]
      omega
    · omega
  · rw [if_neg full]
    rcases putStr_spec holds.1 holds.text_prefix possible d (by omega) with
      ⟨after, done, same, sameLength, now⟩
    refine ⟨after, done, now, ?_, ?_, ?_, fun few => ?_⟩
    · omega
    · omega
    · rw [now.1, List.length_append, ← holds.1]
      omega
    · omega

theorem grow_len {size : Nat} {after : Xmls} (done : grow b size = some after) :
    after.len = b.len := by
  rw [grow] at done
  rcases Option.bind_eq_some_iff.mp done with ⟨s, -, done⟩
  rcases Option.bind_eq_some_iff.mp done with ⟨s, -, done⟩
  cases done
  rfl

/-- A string whose length with the terminator does not fit in an `unsigned`
is cut or left out, and a buffer that cannot grow has no result. -/
theorem addStr_tight (sound : Sound b text) {d : CString} (tight : ¬ Roomy b (.addStr (some d)))
    (after : Xmls) (done : xmlsAddStr b (some d) = some after) :
    ¬ Holds after (text ++ d.bytes) := by
  rcases sound with ⟨holds, possible, recorded, covered, small⟩
  rw [ptrdiffMax] at possible
  rw [xmlsAddStr] at done
  dsimp only at done
  by_cases short : d.bytes.length + 1 < 2 ^ 32
  · have failing : b.allocated ≤ b.len + (d.bytes.length + 1) ∧
        ptrdiffMax < b.allocated * 2 + (d.bytes.length + 1) := by
      rw [Roomy] at tight
      omega
    have wrong : ptrdiffMax < (b.allocated * 2 + (d.bytes.length + 1)) % 2 ^ 64 ∨
        (b.allocated * 2 + (d.bytes.length + 1)) % 2 ^ 64 < b.allocated := by
      rw [ptrdiffMax] at failing ⊢
      omega
    rw [Nat.mod_eq_of_lt short, if_neg (Nat.succ_ne_zero _), if_pos (by omega),
      grow_eq_none wrong] at done
    cases done
  · intro now
    have length := now.1
    rw [List.length_append, ← holds.1] at length
    by_cases nothing : (d.bytes.length + 1) % 2 ^ 32 = 0
    · rw [if_pos nothing] at done
      cases done
      omega
    · rw [if_neg nothing] at done
      have grown : Exists fun larger : Xmls => larger.len = b.len ∧
          putStr larger d ((d.bytes.length + 1) % 2 ^ 32) = some after := by
        split at done
        · rcases Option.bind_eq_some_iff.mp done with ⟨larger, growth, done⟩
          exact ⟨larger, grow_len growth, done⟩
        · exact ⟨b, rfl, done⟩
      rcases grown with ⟨larger, same, done⟩
      rw [putStr] at done
      rcases Option.bind_eq_some_iff.mp done with ⟨s, -, done⟩
      cases done
      dsimp only at length
      rw [same] at length
      omega

/-- Between two calls, exactly the calls there is room for append their piece. -/
theorem step_iff (sound : Sound b text) (step : Step) :
    (Roomy b step ↔
      Exists fun after => step.perform b = some after ∧ Holds after (text ++ step.piece)) ∧
    (Roomy b step →
      Exists fun after => step.perform b = some after ∧ Sound after (text ++ step.piece)) := by
  have enough : Roomy b step →
      Exists fun after => step.perform b = some after ∧ Sound after (text ++ step.piece) := by
    intro roomy
    cases step with
    | addChar c =>
        rw [Step.perform, Step.piece]
        exact addChar_roomy sound roomy
    | addStr d =>
        cases d with
        | none => exact ⟨b, rfl, by rwa [Step.piece, Option.map_none, Option.getD_none,
            List.append_nil]⟩
        | some d =>
            rw [Step.perform, Step.piece]
            exact addStr_roomy sound roomy
  refine ⟨⟨fun roomy => ?_, ?_⟩, enough⟩
  · rcases enough roomy with ⟨after, done, later⟩
    exact ⟨after, done, later.holds⟩
  · rintro ⟨after, done, now⟩
    by_contra tight
    cases step with
    | addChar c =>
        rw [Step.perform, addChar_tight sound tight] at done
        cases done
    | addStr d =>
        cases d with
        | none => exact tight trivial
        | some d =>
            rw [Step.perform] at done
            exact addStr_tight sound tight after done now

/-! ## The recorded size -/

theorem grow_allocated {size : Nat} {after : Xmls} (done : grow b size = some after) :
    b.allocated ≤ after.allocated := by
  rw [grow, newBlock] at done
  split at done
  · cases done
  · rcases Option.bind_eq_some_iff.mp done with ⟨s, block, done⟩
    rcases Option.bind_eq_some_iff.mp done with ⟨copied, fits, done⟩
    cases done
    cases block
    rw [Buffer.blit] at fits
    split at fits
    · rename_i room
      rw [List.length_replicate] at room
      dsimp only
      omega
    · cases fits

/-- The recorded size never shrinks. -/
theorem perform_allocated {step : Step} {after : Xmls} (done : step.perform b = some after) :
    b.allocated ≤ after.allocated := by
  cases step with
  | addChar c =>
      rw [Step.perform, xmlsAddChar] at done
      have grown : Exists fun larger : Xmls => b.allocated ≤ larger.allocated ∧
          putChar larger c = some after := by
        split at done
        · rcases Option.bind_eq_some_iff.mp done with ⟨larger, growth, done⟩
          exact ⟨larger, grow_allocated growth, done⟩
        · exact ⟨b, Nat.le_refl _, done⟩
      rcases grown with ⟨larger, least, done⟩
      rw [putChar] at done
      rcases Option.bind_eq_some_iff.mp done with ⟨_, -, done⟩
      rcases Option.bind_eq_some_iff.mp done with ⟨_, -, done⟩
      cases done
      exact least
  | addStr d =>
      cases d with
      | none =>
          cases done
          exact Nat.le_refl _
      | some d =>
          rw [Step.perform, xmlsAddStr] at done
          dsimp only at done
          split at done
          · cases done
            exact Nat.le_refl _
          · have grown : Exists fun larger : Xmls => b.allocated ≤ larger.allocated ∧
                putStr larger d ((d.bytes.length + 1) % 2 ^ 32) = some after := by
              split at done
              · rcases Option.bind_eq_some_iff.mp done with ⟨larger, growth, done⟩
                exact ⟨larger, grow_allocated growth, done⟩
              · exact ⟨b, Nat.le_refl _, done⟩
            rcases grown with ⟨larger, least, done⟩
            rw [putStr] at done
            rcases Option.bind_eq_some_iff.mp done with ⟨_, -, done⟩
            cases done
            exact least

/-! ## Runs -/

theorem xmlsNew_iff (bsize : UInt64) :
    (bsize.toNat + 1 ≤ ptrdiffMax ↔
      Exists fun b => xmlsNew bsize = some b ∧ Holds b []) ∧
    (bsize.toNat + 1 ≤ ptrdiffMax → Exists fun b => xmlsNew bsize = some b ∧ Sound b []) := by
  have bound := bsize.toNat_lt
  have enough : bsize.toNat + 1 ≤ ptrdiffMax →
      Exists fun b => xmlsNew bsize = some b ∧ Sound b [] := by
    intro possible
    have size : (bsize.toNat + 1) % 2 ^ 64 = bsize.toNat + 1 := by
      rw [ptrdiffMax] at possible
      exact Nat.mod_eq_of_lt (by omega)
    have length : (List.replicate (bsize.toNat + 1) (0 : UInt8)).length = bsize.toNat + 1 :=
      List.length_replicate
    refine ⟨{ allocated := bsize.toNat, len := 0, s := List.replicate (bsize.toNat + 1) 0 }, ?_,
      ⟨rfl, List.replicate bsize.toNat 0, rfl⟩, ?_, ?_, Nat.zero_le _, fun _ => ?_⟩
    · rw [xmlsNew, size, newBlock, if_neg (Nat.not_lt.mpr possible)]
      rfl
    · rwa [length]
    · rw [length]
      exact Nat.le_succ _
    · exact Nat.le_of_eq length
  refine ⟨⟨fun possible => ?_, ?_⟩, enough⟩
  · rcases enough possible with ⟨b, made, sound⟩
    exact ⟨b, made, sound.holds⟩
  · rintro ⟨b, made, holds⟩
    rw [xmlsNew] at made
    rcases Option.bind_eq_some_iff.mp made with ⟨s, block, made⟩
    cases made
    rw [newBlock] at block
    split at block
    · cases block
    · rename_i possible
      cases block
      have inside := holds.inside
      rw [List.length_replicate] at inside
      rw [ptrdiffMax] at possible ⊢
      dsimp only at inside
      omega

theorem run_append (bsize : UInt64) (steps : List Step) (step : Step) :
    run bsize (steps ++ [step]) = (run bsize steps).bind fun b => step.perform b := by
  rw [run, run]
  cases xmlsNew bsize with
  | none => rfl
  | some b =>
      dsimp only [Option.bind_eq_bind, Option.bind_some]
      rw [List.foldlM_append]
      cases steps.foldlM Step.perform b with
      | none => rfl
      | some after =>
          dsimp only [Option.bind_eq_bind, Option.bind_some]
          rw [List.foldlM_cons]
          cases step.perform after <;> rfl

/-- The recorded size never falls below the first: from a size of two on, a
character lacks room only where no larger object is possible. -/
theorem run_allocated {bsize : UInt64} {steps : List Step} (ran : run bsize steps = some b) :
    bsize.toNat ≤ b.allocated := by
  induction steps using List.reverseRecOn generalizing b with
  | nil =>
      rw [run, xmlsNew] at ran
      rcases Option.bind_eq_some_iff.mp ran with ⟨first, made, ran⟩
      rcases Option.bind_eq_some_iff.mp made with ⟨s, -, made⟩
      cases ran
      cases made
      exact Nat.le_refl _
  | append_singleton steps step inductionHypothesis =>
      rw [run_append] at ran
      rcases Option.bind_eq_some_iff.mp ran with ⟨before, earlier, done⟩
      exact Nat.le_trans (inductionHypothesis earlier) (perform_allocated done)

/-- While there is room for every call, the string stays sound. -/
theorem run_sound {bsize : UInt64} (possible : bsize.toNat + 1 ≤ ptrdiffMax) (steps : List Step)
    (roomy : ∀ before step, before ++ [step] <+: steps →
      ∀ b, run bsize before = some b → Roomy b step) :
    Exists fun b => run bsize steps = some b ∧ Sound b (steps.flatMap Step.piece) := by
  induction steps using List.reverseRecOn with
  | nil =>
      rcases (xmlsNew_iff bsize).2 possible with ⟨b, made, sound⟩
      exact ⟨b, by rw [run, made]; rfl, sound⟩
  | append_singleton steps step inductionHypothesis =>
      rcases inductionHypothesis fun before next earlier =>
        roomy before next (earlier.trans (List.prefix_append _ _)) with ⟨b, ran, sound⟩
      rcases (step_iff sound step).2 (roomy steps step (List.prefix_refl _) b ran) with
        ⟨after, done, later⟩
      refine ⟨after, ?_, ?_⟩
      · rw [run_append, ran]
        exact done
      · rwa [List.flatMap_append, List.flatMap_singleton]

/-- Where every state holds what was appended, the string is sound in every state. -/
theorem concatenates_sound {bsize : UInt64} (steps : List Step)
    (always : ∀ before, before <+: steps → Concatenates bsize before) :
    Exists fun b => run bsize steps = some b ∧ Sound b (steps.flatMap Step.piece) := by
  induction steps using List.reverseRecOn with
  | nil =>
      rcases always [] (List.prefix_refl _) with ⟨b, ran, holds⟩
      have made : xmlsNew bsize = some b := by
        rw [run] at ran
        rcases Option.bind_eq_some_iff.mp ran with ⟨first, made, ran⟩
        cases ran
        exact made
      have possible := (xmlsNew_iff bsize).1.mpr ⟨b, made, holds⟩
      rcases (xmlsNew_iff bsize).2 possible with ⟨first, again, sound⟩
      rw [made] at again
      cases again
      exact ⟨b, ran, sound⟩
  | append_singleton steps step inductionHypothesis =>
      rcases inductionHypothesis fun before earlier =>
        always before (earlier.trans (List.prefix_append _ _)) with ⟨b, ran, sound⟩
      rcases always (steps ++ [step]) (List.prefix_refl _) with ⟨after, done, holds⟩
      rw [run_append, ran] at done
      rw [List.flatMap_append, List.flatMap_singleton] at holds ⊢
      rcases step_iff sound step with ⟨exactly, enough⟩
      rcases enough (exactly.mpr ⟨after, done, holds⟩) with ⟨last, performed, later⟩
      refine ⟨last, ?_, later⟩
      rw [run_append, ran]
      exact performed

/-- Every state of a run is inside its buffer and holds what was appended iff
the first buffer is possible and there is room for every call. -/
theorem builder_concatenates_iff (bsize : UInt64) (calls : List Call) :
    (∀ steps, steps <+: calls.flatMap Call.steps → Concatenates bsize steps) ↔
      bsize.toNat + 1 ≤ ptrdiffMax ∧
        ∀ before step, before ++ [step] <+: calls.flatMap Call.steps →
          ∀ b, run bsize before = some b → Roomy b step := by
  constructor
  · intro always
    have start : bsize.toNat + 1 ≤ ptrdiffMax := by
      rcases always [] List.nil_prefix with ⟨b, ran, holds⟩
      rw [run] at ran
      rcases Option.bind_eq_some_iff.mp ran with ⟨first, made, ran⟩
      cases ran
      exact (xmlsNew_iff bsize).1.mpr ⟨b, made, holds⟩
    refine ⟨start, fun before step earlier b ran => ?_⟩
    rcases concatenates_sound before fun first within =>
      always first (within.trans ((List.prefix_append _ _).trans earlier)) with ⟨b, same, sound⟩
    rw [ran] at same
    cases same
    rcases always (before ++ [step]) earlier with ⟨after, done, holds⟩
    rw [run_append, ran] at done
    rw [List.flatMap_append, List.flatMap_singleton] at holds
    exact (step_iff sound step).1.mpr ⟨after, done, holds⟩
  · rintro ⟨possible, roomy⟩ steps within
    rcases run_sound possible steps fun before step earlier =>
      roomy before step (earlier.trans within) with ⟨b, ran, sound⟩
    exact ⟨b, ran, sound.holds⟩

/-- A string of size zero has no room for a character and the NUL behind it. -/
theorem size_zero_overflows :
    ¬ ∀ (bsize : UInt64) (calls : List Call) (steps : List Step),
      steps <+: calls.flatMap Call.steps → Concatenates bsize steps := by
  intro always
  rcases always 0 [.addChar 0x61] [.addChar 0x61] (List.prefix_refl _) with ⟨b, ran, -⟩
  have outside : (run 0 [.addChar 0x61]).isNone = true := by decide
  rw [ran] at outside
  cases outside

end StringBuilder
end TurboXSL
