import TurboXSL.ParseSafety
import TurboXSL.StringBuilder

namespace TurboXSL
namespace DecodingRange

open Parse StringBuilder

/-!
# References decoded into the string builder

`do_parse` has character data and attribute values decoded into a builder that
is as large as they are.  `strtoul` and `match` look at the bytes behind such a
range too, but the byte that ends it is part of no reference, so the cursor
stops there.  A reference is never shorter than what is appended for it: four
bytes take a number, and a number a digit between `&#` and the semicolon.
-/

/-- The number `decode_entity` finds, and the cursor after the reference.  The
message about an unknown one moves nothing. -/
def decodeReference (s : Bytes) : Nat × Bytes :=
  if byteAt s = '#'.toUInt8 then numericEntity s.tail else (namedEntity s).getD ('&'.toNat, s)

/-- `decode_entity(&s, d)` -/
def decodeEntityInto (s : Bytes) (d : Xmls) : Option (Xmls × Bytes) := do
  let found := decodeReference s
  let d ← (xmlsAddUtf found.1).foldlM xmlsAddChar d
  some (d, found.2)

/-- The loop of `make_unescaped_string`, where the range ends `stop` bytes
before the document; the builder and the cursor at the end. -/
def unescapeInto : Nat → Bytes → Nat → Xmls → Option (Xmls × Bytes)
  | 0, _, _, _ => none
  | fuel + 1, p, stop, buf =>
      if p.length ≤ stop then some (buf, p)
      else if byteAt p = '&'.toUInt8 then do
        let decoded ← decodeEntityInto p.tail buf
        unescapeInto fuel decoded.2 stop decoded.1
      else do
        let buf ← xmlsAddChar buf (byteAt p)
        unescapeInto fuel p.tail stop buf

/-- `make_unescaped_string(p, s)`; the loop passes a byte each time. -/
def makeUnescapedStringInto (p s : Bytes) : Option (Xmls × Bytes) := do
  let buf ← xmlsNew (UInt64.ofNat (p.length - s.length))
  unescapeInto (p.length + 1) p s.length buf

/-- What ends a range: the markup or the terminator behind character data, or
the quote of a value. -/
def EndsRange (c : UInt8) : Prop := c = '<'.toUInt8 ∨ c = 0 ∨ isQuote c = true

/-- The ranges that are passed, with what follows in the document. -/
def PassedRange (range rest : Bytes) : Prop :=
  0 ∉ range ∧
    ('<'.toUInt8 ∉ range ∧ (byteAt rest = '<'.toUInt8 ∨ byteAt rest = 0) ∨
      isQuote (byteAt rest) = true ∧ byteAt rest ∉ range)

/-- The allocator is asked for a block larger than any object. -/
def Refused (b : Xmls) : Prop :=
  b.len ≥ (b.allocated + 2 ^ 64 - 2) % 2 ^ 64 ∧ ptrdiffMax < (b.allocated * 2 + 1) % 2 ^ 64

example : (makeUnescapedStringInto (lit "&#8364;&lt;&<") (lit "<")).map
    (fun found => (found.1.len, found.1.s.take 6, found.2)) =
      some (5, UInt8.ofNat 0xE2 :: UInt8.ofNat 0x82 :: UInt8.ofNat 0xAC :: lit "<&" ++ [0], lit "<") := by
  decide

variable {range rest : Bytes}

theorem PassedRange.ends (passed : PassedRange range rest) : EndsRange (byteAt rest) := by
  rcases passed with ⟨-, ⟨-, markup | terminator⟩ | ⟨quote, -⟩⟩
  · exact .inl markup
  · exact .inr (.inl terminator)
  · exact .inr (.inr quote)

/-! ## The ranges of the parser -/

/-- The state `TEXT`. -/
theorem passedRange_text {p : Bytes} (noNul : 0 ∉ p) :
    Exists fun range => p = range ++ seekMarkup p ∧ PassedRange range (seekMarkup p) := by
  refine ⟨p.takeWhile fun c => c ≠ '<'.toUInt8, ?_, fun nul => ?_, .inl ⟨fun markup => ?_, ?_⟩⟩
  · exact (List.takeWhile_append_dropWhile).symm
  · exact noNul ((List.takeWhile_prefix _).subset nul)
  · have other := List.mem_takeWhile_imp markup
    exact absurd rfl (of_decide_eq_true other)
  · rw [seekMarkup]
    cases left : p.dropWhile fun c => c ≠ '<'.toUInt8 with
    | nil => exact .inr rfl
    | cons c rest =>
        have here := List.head?_dropWhile_not (fun c : UInt8 => decide (c ≠ '<'.toUInt8)) p
        rw [left] at here
        left
        exact not_not.mp (of_decide_eq_false here)

/-- The state `ATTR_VALUE`, behind the first quote. -/
theorem passedRange_value {quote : UInt8} {p c : Bytes} (noNul : 0 ∉ p)
    (isMark : isQuote quote = true) (found : seekByte quote p = .ok c) :
    Exists fun range => p = range ++ c ∧ PassedRange range c := by
  rcases seekByte_eq_ok found with ⟨range, rest, rfl, absent, rfl⟩
  refine ⟨range, rfl, fun nul => ?_, .inr ⟨isMark, absent⟩⟩
  exact noNul (List.mem_append_left _ nul)

/-! ## One reference -/

theorem not_numeric {c : UInt8} (ends : EndsRange c) : isNumericByte c = false := by
  rcases ends with rfl | rfl | quote
  · decide
  · decide
  · simp only [isQuote, Bool.or_eq_true, decide_eq_true_eq] at quote
    rcases quote with (rfl | rfl) | rfl <;> decide

theorem not_named {c : UInt8} (ends : EndsRange c) {name : Bytes}
    (listed : name ∈ [lit "amp;", lit "quot;", lit "lt;", lit "gt;", lit "apos;"]) :
    c ∉ name := by
  revert name
  rcases ends with rfl | rfl | quote
  · decide
  · decide
  · simp only [isQuote, Bool.or_eq_true, decide_eq_true_eq] at quote
    rcases quote with (rfl | rfl) | rfl <;> decide

/-- Bytes that end no range are taken from the range. -/
theorem eaten_inside {eaten after : Bytes} (ends : EndsRange (byteAt rest))
    (split : range ++ rest = eaten ++ after) (plain : ∀ c ∈ eaten, ¬ EndsRange c) :
    Exists fun left => after = left ++ rest ∧ range = eaten ++ left := by
  rcases List.append_eq_append_iff.mp split with ⟨more, rfl, behind⟩ | ⟨left, inside, rest⟩
  · cases more with
    | nil =>
        refine ⟨[], behind.symm, ?_⟩
        rw [List.append_nil, List.append_nil]
    | cons c more =>
        rw [behind] at ends
        exact absurd ends (plain c (List.mem_append_right _ List.mem_cons_self))
  · exact ⟨left, rest, inside⟩

theorem xmlsAddUtf_length (u : Nat) : (xmlsAddUtf u).length ≤ 4 := by
  unfold xmlsAddUtf
  repeat' split
  all_goals simp

/-- `strtoul` without a digit finds no number but zero. -/
theorem strtoul_length {p : Bytes} {base : Nat} (found : (strtoul p base).1 ≠ 0) :
    (strtoul p base).2.length < p.length := by
  have spaces : (p.dropWhile isSpace).length ≤ p.length := (List.dropWhile_suffix _).length_le
  revert found
  unfold strtoul
  extract_lets start negative q hexMark digits
  intro found
  have sign : q.length ≤ p.length := by
    refine Nat.le_trans ?_ spaces
    unfold q
    split
    · rw [List.length_tail]
      exact Nat.sub_le _ _
    · exact Nat.le_refl _
  have mark : (if hexMark then q.tail.tail else q).length ≤ p.length := by
    refine Nat.le_trans ?_ sign
    split
    · rw [List.length_tail, List.length_tail]
      omega
    · exact Nat.le_refl _
  by_cases none : digits.1 = []
  · rw [if_pos none] at found
    exact absurd rfl found
  · rw [if_neg none]
    have whole : digits.1.length + digits.2.length =
        (if hexMark then q.tail.tail else q).length := by
      unfold digits
      rw [digitsAt, List.span_eq_takeWhile_dropWhile, ← List.length_append,
        List.takeWhile_append_dropWhile]
    have some := List.length_pos_of_ne_nil none
    dsimp only
    omega

theorem tail_length {s : Bytes} {c : UInt8} (here : byteAt s = c) (visible : c ≠ 0) :
    s.tail.length + 1 = s.length := by
  cases s with
  | nil => exact absurd here.symm visible
  | cons c s => rfl

theorem strtoul_behind (p : Bytes) {base : Nat} (small : base ≤ 16) :
    (strtoul p base).2.length ≤ p.length := by
  rcases strtoul_eats p small with ⟨eaten, split, -⟩
  have length := congrArg List.length split
  rw [List.length_append] at length
  omega

theorem numericEntity_length (s : Bytes) :
    (xmlsAddUtf (numericEntity s).1).length + (numericEntity s).2.length ≤ s.length + 2 := by
  rw [numericEntity]
  generalize digits : (if byteAt s = 'x'.toUInt8 ∨ byteAt s = 'X'.toUInt8
    then strtoul s.tail 16 else strtoul s 10) = found
  have tail : s.tail.length ≤ s.length := by
    rw [List.length_tail]
    exact Nat.sub_le _ _
  have most : found.2.length ≤ s.length := by
    rw [← digits]
    split
    · exact Nat.le_trans (strtoul_behind s.tail (Nat.le_refl 16)) tail
    · exact strtoul_behind s (by decide)
  have number : found.1 ≠ 0 → found.2.length < s.length := by
    rw [← digits]
    split
    · exact fun nonzero => Nat.lt_of_lt_of_le (strtoul_length nonzero) tail
    · exact strtoul_length
  split
  next semicolon =>
      have behind := tail_length semicolon (by decide)
      dsimp only
      by_cases zero : found.1 = 0
      · rw [zero, Nat.zero_mod]
        have single : (xmlsAddUtf 0).length = 1 := rfl
        omega
      · have atMost := xmlsAddUtf_length (found.1 % 2 ^ 32)
        have fewer := number zero
        omega
  next =>
      have single : (xmlsAddUtf '?'.toNat).length = 1 := rfl
      dsimp only
      omega

/-- The numbers of the named references are single bytes. -/
theorem namedEntity_single {s after : Bytes} {u : Nat} (found : namedEntity s = some (u, after)) :
    (xmlsAddUtf u).length = 1 := by
  simp only [namedEntity, Option.orElse_eq_orElse, Option.orElse_eq_or, Option.or_eq_some_iff,
    Option.map_eq_some_iff, Prod.mk.injEq] at found
  rcases found with ⟨_, -, rfl, -⟩ | ⟨-, ⟨_, -, rfl, -⟩ | ⟨-, ⟨_, -, rfl, -⟩ |
    ⟨-, ⟨_, -, rfl, -⟩ | ⟨-, _, -, rfl, -⟩⟩⟩⟩ <;> rfl

theorem decodeReference_length (s : Bytes) :
    (xmlsAddUtf (decodeReference s).1).length + (decodeReference s).2.length ≤ s.length + 1 := by
  rw [decodeReference]
  split
  next mark =>
      have behind := tail_length mark (by decide)
      have number := numericEntity_length s.tail
      omega
  next =>
      cases found : namedEntity s with
      | none =>
          have single : (xmlsAddUtf '&'.toNat).length = 1 := rfl
          rw [Option.getD_none, single, Nat.add_comm]
      | some found' =>
          rcases namedEntity_eq_some found with ⟨name, -, split⟩
          rw [Option.getD_some, namedEntity_single found, split, List.length_append]
          omega

/-- The bytes of a reference end no range. -/
theorem decodeReference_eats (s : Bytes) :
    Exists fun eaten => s = eaten ++ (decodeReference s).2 ∧ ∀ c ∈ eaten, ¬ EndsRange c := by
  rw [decodeReference]
  split
  next mark =>
      rcases (EatsNumeric.tail mark (by decide)).trans (numericEntity_eats s.tail) with
        ⟨eaten, split, numeric⟩
      refine ⟨eaten, split, fun c member ends => ?_⟩
      have plain := not_numeric ends
      rw [numeric c member] at plain
      cases plain
  next =>
      cases found : namedEntity s with
      | none => exact ⟨[], rfl, nofun⟩
      | some found' =>
          rcases namedEntity_eq_some found with ⟨name, listed, split⟩
          exact ⟨name, split, fun c member ends => not_named ends listed member⟩

/-- A reference is decoded inside of the range, and a byte of it is left out
for every byte that is appended, but the ampersand before it. -/
theorem decodeReference_inside (ends : EndsRange (byteAt rest)) :
    Exists fun left => (decodeReference (range ++ rest)).2 = left ++ rest ∧
      left.length ≤ range.length ∧
      (xmlsAddUtf (decodeReference (range ++ rest)).1).length + left.length ≤ range.length + 1 := by
  rcases decodeReference_eats (range ++ rest) with ⟨eaten, split, plain⟩
  rcases eaten_inside ends split plain with ⟨left, behind, inside⟩
  have length := decodeReference_length (range ++ rest)
  rw [behind, List.length_append, List.length_append] at length
  have whole := congrArg List.length inside
  rw [List.length_append] at whole
  exact ⟨left, behind, by omega, by omega⟩

/-! ## The loop -/

/-- The parser's own model of a reference, where its message stays inside. -/
theorem decodeEntity_eq {s : Bytes} {decoded : Bytes × Bytes}
    (inside : decodeEntity s = .ok decoded) :
    decoded = (xmlsAddUtf (decodeReference s).1, (decodeReference s).2) := by
  unfold decodeEntity at inside
  unfold decodeReference
  split at inside
  next mark =>
      rw [if_pos mark]
      exact (Except.ok.inj inside).symm
  next other =>
      rw [if_neg other]
      cases found : namedEntity s with
      | none =>
          rw [found] at inside
          dsimp only at inside
          split at inside
          · cases inside
          · exact (Except.ok.inj inside).symm
      | some found' =>
          rw [found] at inside
          exact (Except.ok.inj inside).symm

variable {p : Bytes} {c : UInt8} {stop : Nat}

theorem unescapeInto_reference (fuel : Nat) (buf : Xmls) (more : ¬ (c :: p).length ≤ stop)
    (mark : c = '&'.toUInt8) :
    unescapeInto (fuel + 1) (c :: p) stop buf =
      ((xmlsAddUtf (decodeReference p).1).foldlM xmlsAddChar buf).bind fun buf =>
        unescapeInto fuel (decodeReference p).2 stop buf := by
  have here : byteAt (c :: p) = '&'.toUInt8 := mark
  rw [unescapeInto, if_neg more, if_pos here, List.tail_cons, decodeEntityInto]
  cases (xmlsAddUtf (decodeReference p).1).foldlM xmlsAddChar buf <;> rfl

theorem unescapeInto_plain (fuel : Nat) (buf : Xmls) (more : ¬ (c :: p).length ≤ stop)
    (other : ¬ c = '&'.toUInt8) :
    unescapeInto (fuel + 1) (c :: p) stop buf =
      (xmlsAddChar buf c).bind fun buf => unescapeInto fuel p stop buf := by
  have here : ¬ byteAt (c :: p) = '&'.toUInt8 := other
  rw [unescapeInto, if_neg more, if_neg here]
  rfl

/-- The loop appends some text, no longer than the range, and stops behind the
range; by induction on the number of turns. -/
theorem unescapeInto_inside (ends : EndsRange (byteAt rest)) (fuel : Nat) (range : Bytes)
    (enough : range.length ≤ fuel) :
    Exists fun text => text.length ≤ range.length ∧
      (∀ buf, unescapeInto (fuel + 1) (range ++ rest) rest.length buf =
        (text.foldlM xmlsAddChar buf).map fun buf => (buf, rest)) ∧
      ∀ content, unescapeLoop fuel (range ++ rest) rest.length = .ok content → content = text := by
  induction fuel generalizing range with
  | zero =>
      have nothing := List.eq_nil_of_length_eq_zero (Nat.le_zero.mp enough)
      rw [nothing]
      refine ⟨[], Nat.le_refl _, fun buf => ?_, fun content done => ?_⟩
      · rw [unescapeInto, List.nil_append, if_pos (Nat.le_refl _)]
        rfl
      · exact (Except.ok.inj done).symm
  | succ fuel inductionHypothesis =>
      cases range with
      | nil =>
          refine ⟨[], Nat.le_refl _, fun buf => ?_, fun content done => ?_⟩
          · rw [unescapeInto, List.nil_append, if_pos (Nat.le_refl _)]
            rfl
          · rw [List.nil_append] at done
            cases rest with
            | nil => exact (Except.ok.inj done).symm
            | cons c rest =>
                rw [unescapeLoop, if_pos (Nat.le_refl _)] at done
                exact (Except.ok.inj done).symm
      | cons c range =>
          have more : ¬ (c :: (range ++ rest)).length ≤ rest.length := by
            rw [List.length_cons, List.length_append]
            omega
          rw [List.length_cons] at enough
          by_cases reference : c = '&'.toUInt8
          · rcases @decodeReference_inside range rest ends with ⟨left, behind, shorter, room⟩
            rcases inductionHypothesis left (by omega) with ⟨text, length, appended, same⟩
            refine ⟨xmlsAddUtf (decodeReference (range ++ rest)).1 ++ text, ?_, fun buf => ?_,
              fun content done => ?_⟩
            · rw [List.length_append, List.length_cons]
              omega
            · rw [List.cons_append, unescapeInto_reference _ _ more reference, behind,
                List.foldlM_append]
              cases (xmlsAddUtf (decodeReference (range ++ rest)).1).foldlM xmlsAddChar buf with
              | none => rfl
              | some buf => exact appended buf
            · rw [List.cons_append, unescapeLoop, if_neg more, if_pos reference] at done
              rcases bind_eq_ok done with ⟨decoded, one, done⟩
              rcases bind_eq_ok done with ⟨others, two, done⟩
              rw [decodeEntity_eq one, behind] at two
              rw [decodeEntity_eq one, same others two] at done
              exact (Except.ok.inj done).symm
          · rcases inductionHypothesis range (by omega) with ⟨text, length, appended, same⟩
            refine ⟨c :: text, ?_, fun buf => ?_, fun content done => ?_⟩
            · rw [List.length_cons, List.length_cons]
              omega
            · rw [List.cons_append, unescapeInto_plain _ _ more reference, List.foldlM_cons]
              cases xmlsAddChar buf c with
              | none => rfl
              | some buf => exact appended buf
            · rw [List.cons_append, unescapeLoop, if_neg more, if_neg reference] at done
              rcases bind_eq_ok done with ⟨others, one, done⟩
              rw [same others one] at done
              exact (Except.ok.inj done).symm

/-! ## The builder -/

/-- A character leaves the recorded size as it is, or doubles it and adds one. -/
theorem addChar_allocated {b after : Xmls} {c : UInt8} (done : xmlsAddChar b c = some after) :
    after.allocated = b.allocated ∨ after.allocated = (b.allocated * 2 + 1) % 2 ^ 64 := by
  have kept : ∀ larger : Xmls, putChar larger c = some after →
      after.allocated = larger.allocated := by
    intro larger done
    rw [putChar] at done
    rcases Option.bind_eq_some_iff.mp done with ⟨_, -, done⟩
    rcases Option.bind_eq_some_iff.mp done with ⟨_, -, done⟩
    cases done
    rfl
  rw [xmlsAddChar] at done
  split at done
  · rcases Option.bind_eq_some_iff.mp done with ⟨larger, growth, done⟩
    rw [grow] at growth
    rcases Option.bind_eq_some_iff.mp growth with ⟨_, -, growth⟩
    rcases Option.bind_eq_some_iff.mp growth with ⟨_, -, growth⟩
    cases growth
    exact .inr (kept _ done)
  · exact .inl (kept b done)

theorem run_addChars (bsize : UInt64) (text : Bytes) :
    run bsize (text.map .addChar) = (xmlsNew bsize).bind fun b => text.foldlM xmlsAddChar b := by
  rw [run]
  cases xmlsNew bsize with
  | none => rfl
  | some b => exact List.foldlM_map

theorem run_nil_length {bsize : UInt64} {b : Xmls} (made : run bsize [] = some b) :
    b.s.length = (bsize.toNat + 1) % 2 ^ 64 := by
  rw [run, xmlsNew] at made
  rcases Option.bind_eq_some_iff.mp made with ⟨first, made, same⟩
  rcases Option.bind_eq_some_iff.mp made with ⟨s, block, made⟩
  cases same
  cases made
  rw [newBlock] at block
  split at block
  · cases block
  · cases block
    exact List.length_replicate

theorem made_allocated {bsize : UInt64} {b : Xmls} (made : xmlsNew bsize = some b) :
    b.allocated = bsize.toNat := by
  rw [xmlsNew] at made
  rcases Option.bind_eq_some_iff.mp made with ⟨_, -, made⟩
  cases made
  rfl

/-- The builder before the next byte: it is of the first size or has grown. -/
structure Filled (bsize : UInt64) (text : Bytes) (b : Xmls) : Prop where
  ran : run bsize (text.map .addChar) = some b
  sound : Sound b text
  size : b.allocated = bsize.toNat ∨ 2 * bsize.toNat + 1 ≤ b.allocated

/-- One byte more, while there are fewer than the builder was made for.  A
builder of size one has no room but for its first byte, which it never needs
more of. -/
theorem Filled.next {bsize : UInt64} {text : Bytes} {b : Xmls} (filled : Filled bsize text b)
    (fewer : text.length < bsize.toNat) (c : UInt8) :
    (Exists fun after => Filled bsize (text ++ [c]) after) ∨
      ptrdiffMax < 2 * bsize.toNat + 1 ∧ Refused b := by
  have len := filled.sound.holds.1
  by_cases refused : b.allocated ≤ b.len + 2 ∧ 2 ≤ b.allocated ∧ ptrdiffMax < b.allocated * 2 + 1
  · rcases refused with ⟨full, two, large⟩
    have bound := filled.sound.recorded
    have object := filled.sound.possible
    rw [ptrdiffMax] at large object
    right
    rw [Refused, ptrdiffMax]
    rcases filled.size with first | grown
    · omega
    · omega
  · left
    have roomy : Roomy b (.addChar c) := by
      by_cases two : 2 ≤ b.allocated
      · refine .inl ⟨two, fun full => ?_⟩
        by_contra large
        exact refused ⟨full, two, Nat.not_le.mp large⟩
      · have single : bsize.toNat = 1 := by
          rcases filled.size with first | grown
          · omega
          · omega
        have none : text = [] := List.eq_nil_of_length_eq_zero (by omega)
        have made := filled.ran
        rw [none, List.map_nil] at made
        have length := run_nil_length made
        rw [single] at length
        rcases filled.size with first | grown
        · rw [none] at len
          exact .inr ⟨first.trans single, len, length⟩
        · omega
    rcases addChar_roomy filled.sound roomy with ⟨after, done, sound⟩
    refine ⟨after, ?_, sound, ?_⟩
    · rw [List.map_append, List.map_singleton, run_append, filled.ran]
      rw [Option.bind_some, Step.perform]
      exact done
    · rcases addChar_allocated done with same | grown
      · rw [same]
        exact filled.size
      · have bound := filled.sound.recorded
        have object := filled.sound.possible
        rw [ptrdiffMax] at object
        rw [grown, Nat.mod_eq_of_lt (by omega)]
        right
        rcases filled.size with first | grown
        · omega
        · omega

theorem foldlM_stuck {State Item : Type} {f : State → Item → Option State} {first last : State}
    {front : List Item} {item : Item} (ran : front.foldlM f first = some last)
    (stuck : f last item = none) (behind : List Item) :
    (front ++ item :: behind).foldlM f first = none := by
  rw [List.foldlM_append, ran]
  dsimp only [Option.bind_eq_bind, Option.bind_some]
  rw [List.foldlM_cons, stuck]
  rfl

/-- Nothing comes after a refused block. -/
theorem Refused.stops {bsize : UInt64} {front text : Bytes} {b : Xmls} (refused : Refused b)
    (before : front <+: text) (shorter : front ≠ text)
    (ran : run bsize (front.map .addChar) = some b) : run bsize (text.map .addChar) = none := by
  rcases before with ⟨behind, rfl⟩
  cases behind with
  | nil => exact absurd (List.append_nil front).symm shorter
  | cons c behind =>
      have stuck : xmlsAddChar b c = none := by
        rw [xmlsAddChar, if_pos refused.1, grow_eq_none (.inl refused.2)]
        rfl
      rw [run_addChars] at ran ⊢
      cases made : xmlsNew bsize with
      | none => rfl
      | some first =>
          rw [made, Option.bind_some] at ran
          exact foldlM_stuck ran stuck behind

/-- All bytes find room, or the allocator is asked for too large a block. -/
theorem filled_or_refused {bsize : UInt64} (possible : bsize.toNat + 1 ≤ ptrdiffMax)
    (text : Bytes) (fits : text.length ≤ bsize.toNat) :
    (Exists fun b => Filled bsize text b) ∨
      ptrdiffMax < 2 * bsize.toNat + 1 ∧ Exists fun front => Exists fun b =>
        front <+: text ∧ front ≠ text ∧ Filled bsize front b ∧ Refused b := by
  induction text using List.reverseRecOn with
  | nil =>
      rcases (xmlsNew_iff bsize).2 possible with ⟨b, made, sound⟩
      have ran : run bsize [] = some b := by
        rw [run, made]
        rfl
      left
      exact ⟨b, ran, sound, .inl (made_allocated made)⟩
  | append_singleton text c inductionHypothesis =>
      rw [List.length_append, List.length_singleton] at fits
      rcases inductionHypothesis (Nat.le_of_succ_le fits) with
        ⟨b, filled⟩ | ⟨large, front, b, before, -, filled, refused⟩
      · rcases filled.next fits c with full | ⟨large, refused⟩
        · exact .inl full
        · refine .inr ⟨large, text, b, List.prefix_append _ _, fun same => ?_, filled, refused⟩
          have length := congrArg List.length same
          rw [List.length_append, List.length_singleton] at length
          omega
      · refine .inr ⟨large, front, b, before.trans (List.prefix_append _ _), fun same => ?_,
          filled, refused⟩
        have length := before.length_le
        rw [same, List.length_append, List.length_singleton] at length
        omega

/-! ## The whole range -/

theorem ofNat_range (object : (range ++ rest).length + 1 ≤ ptrdiffMax) :
    (UInt64.ofNat range.length).toNat = range.length := by
  rw [List.length_append, ptrdiffMax] at object
  rw [UInt64.toNat_ofNat']
  exact Nat.mod_eq_of_lt (by omega)

/-- What is appended, and where the cursor ends; the builder gets what the
model of the parser puts into the node. -/
theorem makeUnescapedStringInto_eq (passed : PassedRange range rest) :
    Exists fun text => text.length ≤ range.length ∧
      makeUnescapedStringInto (range ++ rest) rest =
        (run (UInt64.ofNat range.length) (text.map .addChar)).map (fun b => (b, rest)) ∧
      ∀ content, makeUnescapedString (range ++ rest) rest = .ok content → content = text := by
  have enough : range.length ≤ (range ++ rest).length := by
    rw [List.length_append]
    exact Nat.le_add_right _ _
  rcases unescapeInto_inside passed.ends _ range enough with ⟨text, length, appended, same⟩
  refine ⟨text, length, ?_, same⟩
  have size : (range ++ rest).length - rest.length = range.length := by
    rw [List.length_append, Nat.add_sub_cancel]
  rw [makeUnescapedStringInto, size, run_addChars]
  cases xmlsNew (UInt64.ofNat range.length) with
  | none => rfl
  | some buf => exact appended buf

/-- A range of a document that is an object in memory: the loop stops at its
end, having appended no more bytes than it has, and the builder holds them,
unless it comes to a block that is larger than any object; it is not left
before that either. -/
theorem decoding_stays_inside (range rest : Bytes)
    (object : (range ++ rest).length + 1 ≤ ptrdiffMax) (passed : PassedRange range rest) :
    Exists fun text => text.length ≤ range.length ∧
      makeUnescapedStringInto (range ++ rest) rest =
        (run (UInt64.ofNat range.length) (text.map .addChar)).map (fun b => (b, rest)) ∧
      ((Exists fun b => makeUnescapedStringInto (range ++ rest) rest = some (b, rest) ∧
          Holds b text) ∨
        ptrdiffMax < 2 * range.length + 1 ∧ Exists fun front => Exists fun b =>
          front <+: text ∧ front ≠ text ∧
          run (UInt64.ofNat range.length) (front.map .addChar) = some b ∧
          Holds b front ∧ Refused b) := by
  rcases makeUnescapedStringInto_eq passed with ⟨text, length, decoded, -⟩
  have size := ofNat_range object
  have possible : (UInt64.ofNat range.length).toNat + 1 ≤ ptrdiffMax := by
    rw [size]
    rw [List.length_append] at object
    omega
  refine ⟨text, length, decoded, ?_⟩
  rcases filled_or_refused possible text (by rwa [size]) with
    ⟨b, filled⟩ | ⟨large, front, b, before, shorter, filled, refused⟩
  · left
    refine ⟨b, ?_, filled.sound.holds⟩
    rw [decoded, filled.ran]
    rfl
  · rw [size] at large
    exact .inr ⟨large, front, b, before, shorter, filled.ran, filled.sound.holds, refused⟩

theorem euro_stays_inside :
    Exists fun text : Bytes => text.length ≤ 7 ∧
      makeUnescapedStringInto (lit "&#8364;" ++ lit "<") (lit "<") =
        (run (UInt64.ofNat 7) (text.map .addChar)).map (fun b => (b, lit "<")) ∧
      ((Exists fun b => makeUnescapedStringInto (lit "&#8364;" ++ lit "<") (lit "<") =
          some (b, lit "<") ∧ Holds b text) ∨
        ptrdiffMax < 2 * 7 + 1 ∧ Exists fun front => Exists fun b =>
          front <+: text ∧ front ≠ text ∧ run (UInt64.ofNat 7) (front.map .addChar) = some b ∧
          Holds b front ∧ Refused b) :=
  decoding_stays_inside (lit "&#8364;") (lit "<") (by decide) (by unfold PassedRange; decide)

/-- The builder holds the content that the model of the parser computes. -/
theorem makeUnescapedStringInto_content {content after : Bytes} {b : Xmls}
    (object : (range ++ rest).length + 1 ≤ ptrdiffMax) (passed : PassedRange range rest)
    (parsed : makeUnescapedString (range ++ rest) rest = .ok content)
    (done : makeUnescapedStringInto (range ++ rest) rest = some (b, after)) :
    Holds b content ∧ after = rest := by
  rcases makeUnescapedStringInto_eq passed with ⟨text, length, decoded, same⟩
  have size := ofNat_range object
  have possible : (UInt64.ofNat range.length).toNat + 1 ≤ ptrdiffMax := by
    rw [size]
    rw [List.length_append] at object
    omega
  rw [decoded] at done
  rcases Option.map_eq_some_iff.mp done with ⟨found, ran, pair⟩
  rcases Prod.mk.inj pair with ⟨rfl, rfl⟩
  refine ⟨?_, rfl⟩
  rcases filled_or_refused possible text (by rwa [size]) with
    ⟨b, filled⟩ | ⟨-, front, b, before, shorter, filled, refused⟩
  · rw [filled.ran] at ran
    rw [same content parsed, ← Option.some.inj ran]
    exact filled.sound.holds
  · rw [refused.stops before shorter filled.ran] at ran
    cases ran

end DecodingRange
end TurboXSL
