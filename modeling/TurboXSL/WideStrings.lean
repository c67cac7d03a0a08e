import TurboXSL.ParseDecode

namespace TurboXSL
namespace WideStrings

/-!
# Strings of 16-bit units

`utf2ws` turns a NUL-terminated string into an array of `short`, one turn of
its loop for each unit.  The loop trusts the lead byte: it reads the trail
bytes and steps over them without looking for the terminator.  Here the
memory ends with the terminator, so a read behind it ends the run, and so
does an index that leaves the range of `int`.  `substring` and `translate`
hand the units to `xmls_add_utf`, which takes an `unsigned`.
-/

/-- How a run of `utf2ws` ends that is not defined to the end. -/
inductive Undefined where
  | overread | overflow
deriving DecidableEq

/-- `INT_MAX` -/
def intMax : Nat := 2 ^ 31 - 1

/-- The index `i` moved on by `count`. -/
def advance (i count : Nat) : Except Undefined Nat :=
  if intMax < i + count then .error .overflow else .ok (i + count)

/-- The loop of `utf2ws` at the index `i`, on the bytes from `s + i` on; the
units it writes before the last. -/
def utf2wsLoop : Bytes → Nat → Except Undefined (List Int16)
  | [], _ => .error .overread
  | c :: rest, i =>
      if c = 0 then .ok []
      else if c &&& 0x80 ≠ 0 then
        if c &&& 0xE0 = 0xC0 then
          match rest with
          | c₁ :: rest => do
              let ws ← utf2wsLoop rest (← advance i 2)
              .ok (Int16.ofNat (((c &&& 0x1F).toNat <<< 6) ||| (c₁ &&& 0x3F).toNat) :: ws)
          | [] => .error .overread
        else if c &&& 0xF0 = 0xE0 then
          match rest with
          | c₁ :: c₂ :: rest => do
              let ws ← utf2wsLoop rest (← advance i 3)
              .ok (Int16.ofNat (((c &&& 0x0F).toNat <<< 12) ||| ((c₁ &&& 0x3F).toNat <<< 6) |||
                (c₂ &&& 0x3F).toNat) :: ws)
          | _ => .error .overread
        else do
          let ws ← utf2wsLoop rest (← advance i 1)
          .ok (0 :: ws)
      else do
        let ws ← utf2wsLoop rest (← advance i 1)
        .ok (Int16.ofNat c.toNat :: ws)

/-- `utf2ws`: the units before the terminating one. -/
def utf2ws (s : CString) : Except Undefined (List Int16) := utf2wsLoop (s.bytes ++ [0]) 0

/-- A `short` that is passed for an `unsigned`. -/
def asUnsigned (u : Int16) : Nat := (u.toInt % 2 ^ 32).toNat

/-- The string that is built from the units, as `substring` does it, up to the first zero. -/
def rebuild (ws : List Int16) : Bytes :=
  (ws.takeWhile fun u => u ≠ 0).flatMap fun u => xmlsAddUtf (asUnsigned u)

theorem advance_ok {i count : Nat} (fits : i + count ≤ intMax) :
    advance i count = .ok (i + count) :=
  if_neg (Nat.not_lt.mpr fits)

/-! ## How far a lead byte reaches -/

/-- The length of a sequence as `utf2ws` takes it from the first byte. -/
def announced (c : UInt8) : Nat :=
  if c &&& 0x80 ≠ 0 then
    if c &&& 0xE0 = 0xC0 then 2 else if c &&& 0xF0 = 0xE0 then 3 else 1
  else 1

/-- A row of sequences, each as long as its first byte announces. -/
inductive Whole : Bytes → Prop where
  | nil : Whole []
  | sequence (c : UInt8) (trail rest : Bytes) (length : trail.length + 1 = announced c) :
      Whole rest → Whole (c :: (trail ++ rest))

theorem announced_pos (c : UInt8) : 0 < announced c := by
  rw [announced]
  repeat' split
  all_goals decide

theorem whole_cons_iff {c : UInt8} {s : Bytes} :
    Whole (c :: s) ↔ announced c ≤ s.length + 1 ∧ Whole (s.drop (announced c - 1)) := by
  constructor
  · intro whole
    cases whole with
    | sequence _ trail rest length later =>
        rw [← length, Nat.add_sub_cancel, List.drop_left, List.length_append]
        exact ⟨by omega, later⟩
  · rintro ⟨fits, later⟩
    have positive := announced_pos c
    rw [← List.take_append_drop (announced c - 1) s]
    apply Whole.sequence c _ _ _ later
    rw [List.length_take]
    omega

/-- One turn of the loop. -/
theorem utf2wsLoop_cons {c : UInt8} (visible : c ≠ 0) (memory : Bytes) (i : Nat) :
    (announced c ≤ memory.length + 1 → Exists fun u =>
      utf2wsLoop (c :: memory) i = do
        let ws ← utf2wsLoop (memory.drop (announced c - 1)) (← advance i (announced c))
        .ok (u :: ws)) ∧
    (memory.length + 1 < announced c → utf2wsLoop (c :: memory) i = .error .overread) := by
  rw [announced]
  by_cases high : c &&& 0x80 ≠ 0
  · rw [if_pos high]
    by_cases two : c &&& 0xE0 = 0xC0
    · rw [if_pos two]
      cases memory with
      | nil =>
          refine ⟨fun fits => absurd fits (by simp), fun _ => ?_⟩
          rw [utf2wsLoop, if_neg visible, if_pos high, if_pos two]
      | cons c₁ memory =>
          refine ⟨fun _ => ⟨Int16.ofNat (((c &&& 0x1F).toNat <<< 6) ||| (c₁ &&& 0x3F).toNat), ?_⟩,
            fun cut => ?_⟩
          · rw [utf2wsLoop, if_neg visible, if_pos high, if_pos two]
            rfl
          · rw [List.length_cons] at cut
            omega
    · rw [if_neg two]
      by_cases three : c &&& 0xF0 = 0xE0
      · rw [if_pos three]
        match memory with
        | [] | [_] =>
            refine ⟨fun fits => absurd fits (by simp), fun _ => ?_⟩
            rw [utf2wsLoop, if_neg visible, if_pos high, if_neg two, if_pos three]
        | c₁ :: c₂ :: memory =>
            refine ⟨fun _ => ⟨Int16.ofNat (((c &&& 0x0F).toNat <<< 12) |||
              ((c₁ &&& 0x3F).toNat <<< 6) ||| (c₂ &&& 0x3F).toNat), ?_⟩, fun cut => ?_⟩
            · rw [utf2wsLoop, if_neg visible, if_pos high, if_neg two, if_pos three]
              rfl
            · simp only [List.length_cons] at cut
              omega
      · rw [if_neg three]
        refine ⟨fun _ => ⟨0, ?_⟩, fun cut => absurd cut (by omega)⟩
        rw [utf2wsLoop.eq_def]
        dsimp only
        rw [if_neg visible, if_pos high, if_neg two, if_neg three]
        rfl
  · rw [if_neg high]
    refine ⟨fun _ => ⟨Int16.ofNat c.toNat, ?_⟩, fun cut => absurd cut (by omega)⟩
    rw [utf2wsLoop.eq_def]
    dsimp only
    rw [if_neg visible, if_neg high]
    rfl

/-- The loop runs to the terminator iff no sequence is cut by it and the
index stays in its range; then there are no more units than bytes. -/
theorem utf2wsLoop_ok_iff {s : Bytes} (noNul : 0 ∉ s) {i : Nat} (inside : i ≤ intMax) :
    ((Exists fun ws => utf2wsLoop (s ++ [0]) i = .ok ws) ↔
      Whole s ∧ i + s.length ≤ intMax) ∧
    ∀ ws, utf2wsLoop (s ++ [0]) i = .ok ws → ws.length ≤ s.length := by
  induction length : s.length using Nat.strong_induction_on generalizing s i with
  | _ n inductionHypothesis =>
      cases s with
      | nil =>
          subst length
          have ended : utf2wsLoop ([] ++ [0]) i = .ok [] := rfl
          refine ⟨⟨fun _ => ⟨.nil, inside⟩, fun _ => ⟨[], ended⟩⟩, fun ws done => ?_⟩
          rw [← Except.ok.inj (ended.symm.trans done)]
          exact Nat.le_refl _
      | cons c s =>
          subst length
          have visible : c ≠ 0 := fun zero => noNul (zero ▸ List.mem_cons_self)
          have noNulTail : 0 ∉ s := fun member => noNul (List.mem_cons_of_mem c member)
          have positive := announced_pos c
          have memoryLength : (s ++ [0]).length = s.length + 1 := by simp
          rcases utf2wsLoop_cons visible (s ++ [0]) i with ⟨step, cut⟩
          rw [memoryLength] at step cut
          rw [whole_cons_iff, List.cons_append]
          by_cases fits : announced c ≤ s.length + 1
          · have behind : (s ++ [0]).drop (announced c - 1) = s.drop (announced c - 1) ++ [0] :=
              List.drop_append_of_le_length (by omega)
            have shorter : (s.drop (announced c - 1)).length = s.length - (announced c - 1) :=
              List.length_drop
            rcases step (by omega) with ⟨u, turn⟩
            rw [behind] at turn
            have noNulBehind : 0 ∉ s.drop (announced c - 1) := fun member =>
              noNulTail (List.mem_of_mem_drop member)
            rw [List.length_cons]
            by_cases far : intMax < i + announced c
            · rw [turn, advance, if_pos far]
              refine ⟨⟨nofun, fun both => absurd both.2 ?_⟩, nofun⟩
              omega
            · rw [advance, if_neg far] at turn
              simp only [bind, Except.bind] at turn
              have later := inductionHypothesis _ (by rw [List.length_cons, shorter]; omega)
                noNulBehind (Nat.le_of_not_lt far) rfl
              rw [shorter] at later
              have bounds : i + announced c + (s.length - (announced c - 1)) ≤ intMax ↔
                  i + (s.length + 1) ≤ intMax := by omega
              cases run : utf2wsLoop (s.drop (announced c - 1) ++ [0]) (i + announced c) with
              | error stop =>
                  rw [run] at turn
                  rw [run, bounds] at later
                  rw [turn]
                  refine ⟨⟨?_, fun both => ?_⟩, ?_⟩
                  · rintro ⟨ws, ⟨⟩⟩
                  · rcases later.1.mpr ⟨both.1.2, both.2⟩ with ⟨ws, ⟨⟩⟩
                  · rintro ws ⟨⟩
              | ok found =>
                  rw [run] at turn
                  rw [run, bounds] at later
                  rw [turn]
                  have whole := later.1.mp ⟨found, rfl⟩
                  refine ⟨⟨fun _ => ⟨⟨fits, whole.1⟩, whole.2⟩, fun _ => ⟨_, rfl⟩⟩, ?_⟩
                  rintro ws ⟨⟩
                  have bound := later.2 found rfl
                  rw [List.length_cons]
                  omega
          · have outside : utf2wsLoop (c :: (s ++ [0])) i = .error .overread ∨
                utf2wsLoop (c :: (s ++ [0])) i = .error .overflow := by
              by_cases next : announced c ≤ s.length + 1 + 1
              · rcases step next with ⟨u, turn⟩
                have behind : (s ++ [0]).drop (announced c - 1) = [] :=
                  List.drop_eq_nil_of_le (by omega)
                rw [turn, behind, advance]
                split
                · exact .inr rfl
                · exact .inl rfl
              · exact .inl (cut (by omega))
            refine ⟨⟨?_, fun both => absurd both.1.1 fits⟩, ?_⟩
            · rintro ⟨ws, done⟩
              rcases outside with stopped | stopped <;> cases stopped.symm.trans done
            · intro ws done
              rcases outside with stopped | stopped <;> cases stopped.symm.trans done

/-- `utf2ws` reads nothing behind the terminator, and writes at most one unit
for each byte and the last one, iff no sequence is cut. -/
theorem utf2ws_in_bounds_iff (s : CString) :
    (Exists fun ws => utf2ws s = .ok ws ∧ ws.length + 1 ≤ s.bytes.length + 1) ↔
      Whole s.bytes ∧ s.bytes.length ≤ intMax := by
  have loop := utf2wsLoop_ok_iff s.noNul (i := 0) (Nat.zero_le _)
  rw [Nat.zero_add] at loop
  rw [← loop.1]
  constructor
  · rintro ⟨ws, done, -⟩
    exact ⟨ws, done⟩
  · rintro ⟨ws, done⟩
    exact ⟨ws, done, Nat.succ_le_succ (loop.2 ws done)⟩

/-- A lead byte of two at the very end: the terminator is stepped over. -/
theorem cut_sequence_is_read_over :
    ¬ ∀ s : CString, Exists fun ws => utf2ws s = .ok ws ∧ ws.length + 1 ≤ s.bytes.length + 1 := by
  intro bounded
  rcases bounded ⟨[0xC3], by decide⟩ with ⟨ws, done, -⟩
  cases done

/-! ## Characters -/

/-- The bits of a number, taken apart and put together again. -/
theorem rejoin (u n : Nat) : ((u >>> n) <<< n) ||| (u &&& (2 ^ n - 1)) = u := by
  apply Nat.eq_of_testBit_eq
  intro i
  simp only [Nat.testBit_or, Nat.testBit_shiftLeft, Nat.testBit_shiftRight, Nat.testBit_and,
    Nat.testBit_two_pow_sub_one]
  by_cases high : n ≤ i
  · simpa [high, Nat.add_sub_cancel' high] using fun bit _ => bit
  · simpa [high] using fun _ => Nat.lt_of_not_le high

theorem lead_two : ∀ k < 32, UInt8.ofNat (0xC0 ||| k) ≠ 0 ∧ UInt8.ofNat (0xC0 ||| k) &&& 0x80 ≠ 0 ∧
    UInt8.ofNat (0xC0 ||| k) &&& 0xE0 = 0xC0 ∧ (UInt8.ofNat (0xC0 ||| k) &&& 0x1F).toNat = k := by
  decide

theorem lead_three : ∀ k < 16, UInt8.ofNat (0xE0 ||| k) ≠ 0 ∧
    UInt8.ofNat (0xE0 ||| k) &&& 0x80 ≠ 0 ∧ UInt8.ofNat (0xE0 ||| k) &&& 0xE0 ≠ 0xC0 ∧
    UInt8.ofNat (0xE0 ||| k) &&& 0xF0 = 0xE0 ∧ (UInt8.ofNat (0xE0 ||| k) &&& 0x0F).toNat = k := by
  decide

theorem trail_value : ∀ k < 64, (UInt8.ofNat (0x80 ||| k) &&& 0x3F).toNat = k := by
  decide

/-- The bytes `utf2ws` makes a zero unit of. -/
def Skipped (c : UInt8) : Prop :=
  c ≠ 0 ∧ c &&& 0x80 ≠ 0 ∧ c &&& 0xE0 ≠ 0xC0 ∧ c &&& 0xF0 ≠ 0xE0

instance : DecidablePred Skipped := fun _ => inferInstanceAs (Decidable (_ ∧ _ ∧ _ ∧ _))

theorem trail_skipped : ∀ k < 64, Skipped (UInt8.ofNat (0x80 ||| k)) := by
  decide

theorem lead_four_skipped : ∀ k < 8, Skipped (UInt8.ofNat (0xF0 ||| k)) := by
  decide

/-- The units `utf2ws` writes for the character with the number `u`. -/
def unitsOf (u : Nat) : List Int16 :=
  if u < 0x10000 then [Int16.ofNat u] else [0, 0, 0, 0]

theorem utf2wsLoop_skipped {c : UInt8} (skipped : Skipped c) (memory : Bytes) {i : Nat}
    (fits : i + 1 ≤ intMax) :
    utf2wsLoop (c :: memory) i = (utf2wsLoop memory (i + 1)).map (0 :: ·) := by
  rcases skipped with ⟨visible, high, two, three⟩
  rw [utf2wsLoop.eq_def]
  dsimp only
  rw [if_neg visible, if_pos high, if_neg two, if_neg three, advance_ok fits]
  simp only [bind, Except.bind]
  cases utf2wsLoop memory (i + 1) <;> rfl

/-- A character is read as its units. -/
theorem utf2wsLoop_utf {u : Nat} (visible : u ≠ 0) (bound : u < 0x200000) (memory : Bytes)
    {i : Nat} (fits : i + (xmlsAddUtf u).length ≤ intMax) :
    utf2wsLoop (xmlsAddUtf u ++ memory) i =
      (utf2wsLoop memory (i + (xmlsAddUtf u).length)).map (unitsOf u ++ ·) := by
  have low : u &&& 0x3F < 64 := Nat.and_lt_two_pow u (show 0x3F < 2 ^ 6 by decide)
  have middle : (u >>> 6) &&& 0x3F < 64 := Nat.and_lt_two_pow _ (show 0x3F < 2 ^ 6 by decide)
  have high : (u >>> 12) &&& 0x3F < 64 := Nat.and_lt_two_pow _ (show 0x3F < 2 ^ 6 by decide)
  rw [xmlsAddUtf] at fits ⊢
  by_cases one : u < 128
  · rw [if_pos one] at fits ⊢
    have value : (UInt8.ofNat u).toNat = u := UInt8.toNat_ofNat_of_lt' (Nat.lt_trans one (by decide))
    have nonzero : UInt8.ofNat u ≠ 0 := by
      intro zero
      rw [zero] at value
      exact visible value.symm
    have plain : ∀ u < 128, UInt8.ofNat u &&& 0x80 = 0 := by decide
    rw [List.singleton_append, utf2wsLoop.eq_def]
    dsimp only
    rw [if_neg nonzero, if_neg (not_not.mpr (plain u one)),
      advance_ok (show i + 1 ≤ intMax from fits), value, unitsOf, if_pos (by omega)]
    simp only [bind, Except.bind, List.length_singleton]
    cases utf2wsLoop memory (i + 1) <;> rfl
  · rw [if_neg one] at fits ⊢
    by_cases two : u < 0x800
    · rw [if_pos two] at fits ⊢
      have small : u >>> 6 < 32 := by
        rw [Nat.shiftRight_eq_div_pow]
        omega
      rcases lead_two _ small with ⟨nonzero, marked, lead, value⟩
      have joined : ((u >>> 6) <<< 6) ||| (u &&& 0x3F) = u := rejoin u 6
      rw [List.cons_append, List.singleton_append, utf2wsLoop.eq_def]
      dsimp only
      rw [if_neg nonzero, if_pos marked, if_pos lead, value, trail_value _ low, joined,
        advance_ok (show i + 2 ≤ intMax from fits), unitsOf, if_pos (by omega)]
      simp only [bind, Except.bind, List.length_cons, List.length_nil]
      cases utf2wsLoop memory (i + 2) <;> rfl
    · rw [if_neg two] at fits ⊢
      by_cases three : u < 0x10000
      · rw [if_pos three] at fits ⊢
        have small : u >>> 12 < 16 := by
          rw [Nat.shiftRight_eq_div_pow]
          omega
        rcases lead_three _ small with ⟨nonzero, marked, other, lead, value⟩
        have joined : ((u >>> 12) <<< 12) ||| (((u >>> 6) &&& 0x3F) <<< 6) ||| (u &&& 0x3F) = u := by
          have upper : ((u >>> 12) <<< 12) ||| (((u >>> 6) &&& 0x3F) <<< 6) = (u >>> 6) <<< 6 := by
            have parts := congrArg (· <<< 6) (rejoin (u >>> 6) 6)
            simp only [Nat.shiftLeft_or_distrib, ← Nat.shiftLeft_add, ← Nat.shiftRight_add] at parts
            exact parts
          rw [upper]
          exact rejoin u 6
        rw [List.cons_append, List.cons_append, List.singleton_append, utf2wsLoop.eq_def]
        dsimp only
        rw [if_neg nonzero, if_pos marked, if_neg other, if_pos lead, value, trail_value _ low,
          trail_value _ middle, joined, advance_ok (show i + 3 ≤ intMax from fits), unitsOf,
          if_pos three]
        simp only [bind, Except.bind, List.length_cons, List.length_nil]
        cases utf2wsLoop memory (i + 3) <;> rfl
      · rw [if_neg three, if_pos bound] at fits ⊢
        have small : u >>> 18 < 8 := by
          rw [Nat.shiftRight_eq_div_pow]
          omega
        simp only [List.length_cons, List.length_nil] at fits ⊢
        rw [List.cons_append, List.cons_append, List.cons_append, List.singleton_append,
          utf2wsLoop_skipped (lead_four_skipped _ small) _ (by omega),
          utf2wsLoop_skipped (trail_skipped _ high) _ (by omega),
          utf2wsLoop_skipped (trail_skipped _ middle) _ (by omega),
          utf2wsLoop_skipped (trail_skipped _ low) _ (by omega), unitsOf, if_neg three]
        cases utf2wsLoop memory (i + 4) <;> rfl

/-- The units of a string that is made of characters. -/
theorem utf2wsLoop_chars {chars : List Char} (visible : ∀ c ∈ chars, c.toNat ≠ 0) {i : Nat}
    (fits : i + (chars.flatMap String.utf8EncodeChar).length ≤ intMax) :
    utf2wsLoop (chars.flatMap String.utf8EncodeChar ++ [0]) i =
      .ok (chars.flatMap fun c => unitsOf c.toNat) := by
  induction chars generalizing i with
  | nil => rfl
  | cons c chars inductionHypothesis =>
      rw [List.flatMap_cons, List.length_append, ← Parse.xmlsAddUtf_char] at fits
      have bound : c.toNat < 0x200000 := by
        have valid := c.valid
        simp only [UInt32.isValidChar, Nat.isValidChar] at valid
        show c.val.toNat < _
        omega
      rw [List.flatMap_cons, ← Parse.xmlsAddUtf_char, List.append_assoc,
        utf2wsLoop_utf (visible c List.mem_cons_self) bound _ (by omega),
        inductionHypothesis (fun d member => visible d (List.mem_cons_of_mem c member)) (by omega)]
      rfl

theorem unitsOf_length (u : Nat) : 1 ≤ (unitsOf u).length ∧ (0x10000 ≤ u → 1 < (unitsOf u).length) := by
  rw [unitsOf]
  split
  · exact ⟨Nat.le_refl _, fun high => absurd high (by omega)⟩
  · exact ⟨by decide, fun _ => by decide⟩

/-- There is one unit a character iff none takes four bytes. -/
theorem units_length_iff (chars : List Char) :
    chars.length ≤ (chars.flatMap fun c => unitsOf c.toNat).length ∧
      ((chars.flatMap fun c => unitsOf c.toNat).length = chars.length ↔
        ∀ c ∈ chars, c.toNat < 0x10000) := by
  induction chars with
  | nil => exact ⟨Nat.le_refl _, ⟨fun _ => nofun, fun _ => rfl⟩⟩
  | cons c chars inductionHypothesis =>
      rcases inductionHypothesis with ⟨least, exactly⟩
      rcases unitsOf_length c.toNat with ⟨one, more⟩
      rw [List.flatMap_cons, List.length_append, List.length_cons]
      refine ⟨by omega, ?_⟩
      rw [List.forall_mem_cons, ← exactly]
      constructor
      · intro same
        refine ⟨Nat.lt_of_not_le fun high => ?_, by omega⟩
        have two := more high
        omega
      · rintro ⟨low, same⟩
        rw [unitsOf, if_pos low, List.length_singleton]
        omega

theorem asUnsigned_low {u : Nat} (low : u < 0x8000) : asUnsigned (Int16.ofNat u) = u := by
  rw [asUnsigned, Int16.toInt_ofNat_of_lt low]
  omega

/-- A unit from `0x8000` on is negative, and too large when it is passed on. -/
theorem asUnsigned_high {u : Nat} (high : 0x8000 ≤ u) (short : u < 0x10000) :
    0x200000 ≤ asUnsigned (Int16.ofNat u) := by
  have size : (Int16.size : Int) = 65536 := rfl
  have value : (Int16.ofNat u).toInt = (u : Int) - 65536 := by
    rw [Int16.toInt_ofNat', Int.bmod, size]
    split <;> omega
  rw [asUnsigned, value]
  omega

/-- What is left of a character that was read and written again. -/
def kept (c : Char) : Bytes := if c.toNat < 0x8000 then String.utf8EncodeChar c else []

theorem rebuild_units {chars : List Char} (visible : ∀ c ∈ chars, c.toNat ≠ 0)
    (short : ∀ c ∈ chars, c.toNat < 0x10000) :
    rebuild (chars.flatMap fun c => unitsOf c.toNat) = chars.flatMap kept := by
  induction chars with
  | nil => rfl
  | cons c chars inductionHypothesis =>
      have later := inductionHypothesis (fun d member => visible d (List.mem_cons_of_mem c member))
        fun d member => short d (List.mem_cons_of_mem c member)
      have low := short c List.mem_cons_self
      have nonzero : Int16.ofNat c.toNat ≠ 0 := by
        intro zero
        have unsigned : asUnsigned (Int16.ofNat c.toNat) = 0 := by
          rw [zero]
          rfl
        by_cases small : c.toNat < 0x8000
        · exact visible c List.mem_cons_self ((asUnsigned_low small).symm.trans unsigned)
        · have large := asUnsigned_high (Nat.le_of_not_lt small) low
          omega
      rw [List.flatMap_cons, List.flatMap_cons, ← later, unitsOf, if_pos low, rebuild, rebuild,
        List.singleton_append, List.takeWhile_cons_of_pos (p := fun u => decide (u ≠ 0)) (decide_eq_true nonzero),
        List.flatMap_cons, kept]
      by_cases small : c.toNat < 0x8000
      · rw [if_pos small, asUnsigned_low small, Parse.xmlsAddUtf_char]
      · have large := asUnsigned_high (Nat.le_of_not_lt small) low
        have nothing : xmlsAddUtf (asUnsigned (Int16.ofNat c.toNat)) = [] := by
          rw [xmlsAddUtf, if_neg (by omega), if_neg (by omega), if_neg (by omega),
            if_neg (by omega)]
        rw [if_neg small, nothing]

/-- Nothing is lost iff every character is kept. -/
theorem kept_iff (chars : List Char) :
    (chars.flatMap kept).length ≤ (chars.flatMap String.utf8EncodeChar).length ∧
      (chars.flatMap kept = chars.flatMap String.utf8EncodeChar ↔ ∀ c ∈ chars, c.toNat < 0x8000) := by
  induction chars with
  | nil => exact ⟨Nat.le_refl _, ⟨fun _ => nofun, fun _ => rfl⟩⟩
  | cons c chars inductionHypothesis =>
      rcases inductionHypothesis with ⟨bound, exactly⟩
      rw [List.flatMap_cons, List.flatMap_cons, List.length_append, List.length_append,
        List.forall_mem_cons, ← exactly, kept]
      by_cases small : c.toNat < 0x8000
      · rw [if_pos small]
        refine ⟨by omega, fun same => ⟨small, List.append_cancel_left same⟩, fun both => ?_⟩
        rw [both.2]
      · rw [if_neg small]
        have positive : 0 < (String.utf8EncodeChar c).length :=
          List.length_pos_iff.mpr String.utf8EncodeChar_ne_nil
        refine ⟨by rw [List.length_nil]; omega, fun same => ?_, fun both => absurd both.1 small⟩
        have length := congrArg List.length same
        rw [List.length_append, List.length_append, List.length_nil] at length
        omega

/-- Reading a string and writing its units again gives one unit a character
and the string itself iff all its characters are below U+8000. -/
theorem utf2ws_inverted_iff (s : CString) (chars : List Char)
    (valid : s.bytes = chars.flatMap String.utf8EncodeChar) :
    (Exists fun ws => utf2ws s = .ok ws ∧ ws.length = chars.length ∧ rebuild ws = s.bytes) ↔
      (∀ c ∈ chars, c.toNat < 0x8000) ∧ s.bytes.length ≤ intMax := by
  have visible : ∀ c ∈ chars, c.toNat ≠ 0 := by
    intro c member zero
    have nul : (0 : UInt8) ∈ String.utf8EncodeChar c := by
      rw [← Parse.xmlsAddUtf_char, zero]
      exact List.mem_cons_self
    exact s.noNul (valid ▸ List.mem_flatMap.mpr ⟨c, member, nul⟩)
  have read : s.bytes.length ≤ intMax →
      utf2ws s = .ok (chars.flatMap fun c => unitsOf c.toNat) := by
    intro fits
    rw [utf2ws, valid]
    exact utf2wsLoop_chars visible (by rwa [Nat.zero_add, ← valid])
  constructor
  · rintro ⟨ws, done, length, same⟩
    have fits : s.bytes.length ≤ intMax := by
      have loop := (utf2wsLoop_ok_iff s.noNul (Nat.zero_le intMax)).1.mp ⟨ws, done⟩
      rw [Nat.zero_add] at loop
      exact loop.2
    refine ⟨?_, fits⟩
    obtain rfl : (chars.flatMap fun c => unitsOf c.toNat) = ws :=
      Except.ok.inj ((read fits).symm.trans done)
    have short := (units_length_iff chars).2.mp length
    rw [rebuild_units visible short, valid] at same
    exact (kept_iff chars).2.mp same
  · rintro ⟨small, fits⟩
    have short : ∀ c ∈ chars, c.toNat < 0x10000 := fun c member =>
      Nat.lt_trans (small c member) (by decide)
    refine ⟨_, read fits, (units_length_iff chars).2.mpr short, ?_⟩
    rw [rebuild_units visible short, valid]
    exact (kept_iff chars).2.mpr small

/-- Two letters of one and two bytes. -/
theorem utf2ws_inverted_letters :
    (Exists fun ws => utf2ws ⟨[0x61, 0xD0, 0x96], by decide⟩ = .ok ws ∧ ws.length = 2 ∧
      rebuild ws = [0x61, 0xD0, 0x96]) ↔
    (∀ c ∈ ['a', 'Ж'], c.toNat < 0x8000) ∧ ([0x61, 0xD0, 0x96] : Bytes).length ≤ intMax :=
  utf2ws_inverted_iff ⟨[0x61, 0xD0, 0x96], by decide⟩ ['a', 'Ж'] (by decide)

/-- A character of three bytes with the number U+8AAC is lost. -/
theorem character_from_8000_is_lost :
    ¬ ∀ (s : CString) (chars : List Char), s.bytes = chars.flatMap String.utf8EncodeChar →
      Exists fun ws => utf2ws s = .ok ws ∧ ws.length = chars.length ∧ rebuild ws = s.bytes := by
  intro inverted
  rcases inverted ⟨[0xE8, 0xAA, 0xAC], by decide⟩ [Char.ofNat 0x8AAC] (by decide) with
    ⟨ws, done, -, same⟩
  have read : utf2ws ⟨[0xE8, 0xAA, 0xAC], by decide⟩ = .ok [Int16.ofNat 0x8AAC] := by rfl
  rw [← Except.ok.inj (read.symm.trans done)] at same
  exact absurd same (by decide)

end WideStrings
end TurboXSL
