import TurboXSL.Library.Rounding
import TurboXSL.Literals

namespace TurboXSL

open Library

/-!
# The remainder of two numbers

`XPATH_NODE_MOD` truncates both numbers to `long` and takes the remainder of
these.  A divisor between -1 and 1 is zero there, and the least `long` has no
remainder by -1.  What a number that does not fit becomes is not defined, so
that all that is known of the code holds for every outcome.
-/

/-- What a `double` stands for. -/
inductive Datum where
  | nan
  | infinite (negative : Bool)
  | finite (q : ℚ)

/-- The integers that are a `long`. -/
def IsLong (n : Int) : Prop := -2 ^ 63 ≤ n ∧ n < 2 ^ 63

instance : DecidablePred IsLong := fun _ => inferInstanceAs (Decidable (_ ∧ _))

abbrev Long := { n : Int // IsLong n }

/-- Numbers with 53 leading bits. -/
class BinaryDouble (Num : Type) [Double Num] where
  datum : Num → Datum
  ofInt : ∀ n : Int, IsLong n → datum (Double.ofInt n) = .finite (nearest 53 n : Int)

section Modulo

variable {Num : Type} [Double Num] [BinaryDouble Num]

/-- `long ll = trunc(l)`, with what the conversion gives where it is not
defined. -/
def toLong (elsewhere : Num → Long) (number : Num) : Int :=
  match BinaryDouble.datum number with
  | .finite q => if IsLong (trunc q) then trunc q else elsewhere number
  | _ => elsewhere number

/-- The remainder in `XPATH_NODE_MOD`; none where the division traps. -/
def remainder (elsewhere : Num → Long) (left right : Num) : Option Num :=
  let ll := toLong elsewhere left
  let lr := toLong elsewhere right
  if lr = 0 then none
  else if ll = -2 ^ 63 ∧ lr = -1 then none
  else some (Double.ofInt (ll.tmod lr))

/-- The numbers of a machine with these conversions. -/
@[reducible]
def machine (elsewhere : Num → Long) : Double Num where
  ofInt := Double.ofInt
  strtod := Double.strtod
  nan := Double.nan
  isNan := Double.isNan
  add := Double.add
  sub := Double.sub
  mul := Double.mul
  div := Double.div
  mod := remainder elsewhere
  equal := Double.equal
  less := Double.less
  print := Double.print

/-- `XPATH_NODE_MOD` on such a machine. -/
def evalMod (elsewhere : Num → Long) (env : Env Num) (run : Expr → Eval Num)
    (args : List (Operand Num)) : Eval Num :=
  @executeNode Num (machine elsewhere) env run { type := .mod } args

/-! ## Where the division is safe -/

/-- A number between these bounds is truncated to a `long`. -/
def Fits (q : ℚ) : Prop := -2 ^ 63 - 1 < q ∧ q < 2 ^ 63

/-- The divisor is a number that fits, no smaller than one, and the dividend
too where the divisor is truncated to -1, and not the least `long`. -/
def Divides (left right : Num) : Prop :=
  Exists fun q => BinaryDouble.datum right = .finite q ∧ Fits q ∧ 1 ≤ |q| ∧
    (-2 < q → q ≤ -1 → Exists fun p => BinaryDouble.datum left = .finite p ∧ -2 ^ 63 < p ∧ p < 2 ^ 63)

theorem isLong_trunc_iff (q : ℚ) : IsLong (trunc q) ↔ Fits q := by
  have low := @lt_trunc_iff q (-2 ^ 63 - 1) (by decide)
  have high := @trunc_lt_iff q (2 ^ 63) (by decide)
  rw [Int.cast_sub, Int.cast_neg, Int.cast_pow, Int.cast_ofNat, Int.cast_one] at low
  rw [Int.cast_pow, Int.cast_ofNat] at high
  unfold Fits
  rw [← low, ← high, Int.sub_one_lt_iff]
  rfl

theorem trunc_ne_zero_iff (q : ℚ) : trunc q ≠ 0 ↔ 1 ≤ |q| := by
  have low := @lt_trunc_iff q (-1) (by decide)
  have high := @trunc_lt_iff q 1 (by decide)
  rw [Int.cast_neg, Int.cast_one] at low
  rw [Int.cast_one] at high
  rw [← not_lt, abs_lt, ← low, ← high]
  apply not_congr
  omega

theorem trunc_eq_neg_one_iff (q : ℚ) : trunc q = -1 ↔ -2 < q ∧ q ≤ -1 := by
  have low := @lt_trunc_iff q (-2) (by decide)
  have high := @lt_trunc_iff q (-1) (by decide)
  rw [Int.cast_neg, Int.cast_ofNat] at low
  rw [Int.cast_neg, Int.cast_one] at high
  have last : q ≤ -1 ↔ ¬ -1 < trunc q := by
    rw [high, not_lt]
  rw [← low, last]
  omega

/-- A number that fits is not truncated to the least `long` if it is larger. -/
theorem trunc_ne_least_iff {q : ℚ} (fits : Fits q) : trunc q ≠ -2 ^ 63 ↔ -2 ^ 63 < q := by
  have least := ((isLong_trunc_iff q).mpr fits).1
  have low := @lt_trunc_iff q (-2 ^ 63) (by decide)
  rw [Int.cast_neg, Int.cast_pow, Int.cast_ofNat] at low
  rw [← low]
  omega

theorem toLong_finite (elsewhere : Num → Long) {number : Num} {q : ℚ}
    (finite : BinaryDouble.datum number = .finite q) (fits : Fits q) :
    toLong elsewhere number = trunc q := by
  unfold toLong
  rw [finite]
  exact if_pos ((isLong_trunc_iff q).mpr fits)

theorem toLong_elsewhere (elsewhere : Num → Long) {number : Num}
    (undefined : ∀ q, BinaryDouble.datum number = .finite q → ¬ Fits q) :
    toLong elsewhere number = elsewhere number := by
  unfold toLong
  cases known : BinaryDouble.datum number with
  | finite q => exact if_neg fun long => undefined q known ((isLong_trunc_iff q).mp long)
  | nan | infinite => rfl

/-- The remainder is taken unless the truncated divisor is zero, or -1 under
the least `long`. -/
theorem remainder_isSome_iff (elsewhere : Num → Long) (left right : Num) :
    (remainder elsewhere left right).isSome = true ↔
      toLong elsewhere right ≠ 0 ∧ ¬ (toLong elsewhere left = -2 ^ 63 ∧ toLong elsewhere right = -1) := by
  unfold remainder
  simp only
  split
  · rename_i zero
    exact iff_of_false nofun fun safe => safe.1 zero
  · rename_i there
    split
    · rename_i least
      exact iff_of_false nofun fun safe => safe.2 least
    · rename_i safe
      exact iff_of_true rfl ⟨there, safe⟩

theorem remainder_safe_iff (left right : Num) :
    (∀ elsewhere : Num → Long, (remainder elsewhere left right).isSome = true) ↔
      Divides left right := by
  simp only [remainder_isSome_iff]
  constructor
  · intro safe
    -- a divisor that does not fit might become zero
    have exists_ : Exists fun q => BinaryDouble.datum right = .finite q ∧ Fits q := by
      by_contra none_
      have zero := toLong_elsewhere (fun _ => ⟨0, by decide⟩) fun q finite fits =>
        none_ ⟨q, finite, fits⟩
      exact (safe _).1 zero
    rcases exists_ with ⟨q, finite, fits⟩
    have large := (safe fun _ => ⟨0, by decide⟩).1
    rw [toLong_finite _ finite fits, trunc_ne_zero_iff] at large
    refine ⟨q, finite, fits, large, fun above below => ?_⟩
    have minusOne := (trunc_eq_neg_one_iff q).mpr ⟨above, below⟩
    -- and a dividend that does not fit the least of all
    have notLeast := (safe fun _ => ⟨-2 ^ 63, by decide⟩).2
    rw [toLong_finite _ finite fits, minusOne] at notLeast
    have exists_ : Exists fun p => BinaryDouble.datum left = .finite p ∧ Fits p := by
      by_contra none_
      have least := toLong_elsewhere (fun _ => ⟨-2 ^ 63, by decide⟩) fun p finite fits =>
        none_ ⟨p, finite, fits⟩
      exact notLeast ⟨least, rfl⟩
    rcases exists_ with ⟨p, finite, fits⟩
    rw [toLong_finite _ finite fits] at notLeast
    exact ⟨p, finite, (trunc_ne_least_iff fits).mp fun least => notLeast ⟨least, rfl⟩, fits.2⟩
  · rintro ⟨q, finite, fits, large, whole⟩ elsewhere
    rw [toLong_finite elsewhere finite fits]
    refine ⟨(trunc_ne_zero_iff q).mpr large, fun trap => ?_⟩
    have bounds := (trunc_eq_neg_one_iff q).mp trap.2
    rcases whole bounds.1 bounds.2 with ⟨p, dividend, above, below⟩
    have dividendFits : Fits p := ⟨(sub_one_lt _).trans above, below⟩
    rw [toLong_finite elsewhere dividend dividendFits] at trap
    exact (trunc_ne_least_iff dividendFits).mpr above trap.1

/-! ## Integer operands -/

/-- `a = b * q + m` for an integer `q`, with `m` smaller than `b`, and zero or
of the sign of `a`. -/
def IsRemainder (a b m : Int) : Prop :=
  (Exists fun q => a = b * q + m) ∧ m.natAbs < b.natAbs ∧
    (m = 0 ∨ (0 < m ∧ 0 < a) ∨ (m < 0 ∧ a < 0))

/-- The integers next to the operands fit, the least `long` is not divided by
-1, and rounding does not change the remainder.  A dividend that does not fit
is harmless under the divisor one. -/
def KeepsRemainder (a b : Int) : Prop :=
  nearest 53 b < 2 ^ 63 ∧
    if nearest 53 a < 2 ^ 63 then
      ¬ (nearest 53 a = -2 ^ 63 ∧ b = -1) ∧ (nearest 53 a).tmod (nearest 53 b) = a.tmod b
    else b = 1

/-- There is one such remainder. -/
theorem isRemainder_iff {a b m : Int} (there : b ≠ 0) : IsRemainder a b m ↔ m = a.tmod b := by
  rcases Int.le_total 0 a with nonneg | nonpos
  · constructor
    · rintro ⟨⟨q, shape⟩, less, sign⟩
      have unique := (@Int.tdiv_tmod_unique a b m q nonneg there).mpr
        ⟨by omega, by omega, by omega⟩
      exact unique.2.symm
    · rintro rfl
      have known := (@Int.tdiv_tmod_unique a b _ _ nonneg there).mp ⟨rfl, rfl⟩
      have zero : a = 0 → a.tmod b = 0 := fun same => same ▸ Int.zero_tmod b
      exact ⟨⟨a.tdiv b, by omega⟩, by omega, by omega⟩
  · constructor
    · rintro ⟨⟨q, shape⟩, less, sign⟩
      have unique := (@Int.tdiv_tmod_unique' a b m q nonpos there).mpr
        ⟨by omega, by omega, by omega⟩
      exact unique.2.symm
    · rintro rfl
      have known := (@Int.tdiv_tmod_unique' a b _ _ nonpos there).mp ⟨rfl, rfl⟩
      have zero : a = 0 → a.tmod b = 0 := fun same => same ▸ Int.zero_tmod b
      exact ⟨⟨a.tdiv b, by omega⟩, by omega, by omega⟩

theorem nearest_ge {n : Int} (long : IsLong n) : -2 ^ 63 ≤ nearest 53 n := by
  have bound : n.natAbs ≤ 2 ^ 63 := by
    have low := long.1
    have high := long.2
    omega
  have kept := nearestNat_le_pow (by decide : 0 < 53) bound
  rw [← natAbs_nearest] at kept
  omega

theorem toLong_ofInt (elsewhere : Num → Long) {n : Int} (long : IsLong n)
    (fits : nearest 53 n < 2 ^ 63) : toLong elsewhere (Double.ofInt n) = nearest 53 n := by
  unfold toLong
  rw [BinaryDouble.ofInt n long]
  simp only [trunc_intCast]
  exact if_pos ⟨nearest_ge long, fits⟩

theorem toLong_ofInt_elsewhere (elsewhere : Num → Long) {n : Int} (long : IsLong n)
    (large : ¬ nearest 53 n < 2 ^ 63) :
    toLong elsewhere (Double.ofInt n) = elsewhere (Double.ofInt n) := by
  unfold toLong
  rw [BinaryDouble.ofInt n long]
  simp only [trunc_intCast]
  exact if_neg fun fits => large fits.2

theorem isLong_toLong (elsewhere : Num → Long) (number : Num) : IsLong (toLong elsewhere number) := by
  unfold toLong
  split
  · split
    · assumption
    · exact (elsewhere number).property
  · exact (elsewhere number).property

/-- The remainder as a number. -/
theorem remainder_datum (elsewhere : Num → Long) {left right result : Num}
    (taken : remainder elsewhere left right = some result) :
    BinaryDouble.datum result =
      .finite (nearest 53 ((toLong elsewhere left).tmod (toLong elsewhere right)) : Int) := by
  have safe := (remainder_isSome_iff elsewhere left right).mp (taken ▸ rfl)
  have long := isLong_toLong elsewhere right
  unfold remainder at taken
  simp only [if_neg safe.1, if_neg safe.2] at taken
  cases taken
  apply BinaryDouble.ofInt
  have less := Nat.mod_lt (toLong elsewhere left).natAbs (Int.natAbs_pos.mpr safe.1)
  rw [← Int.natAbs_tmod] at less
  have low := long.1
  have high := long.2
  constructor <;> omega

/-- What the code computes of two integers is their remainder. -/
def TakesRemainder (elsewhere : Num → Long) (a b : Int) : Prop :=
  Exists fun result => Exists fun m : Int =>
    remainder elsewhere (Double.ofInt a) (Double.ofInt b) = some result ∧
      BinaryDouble.datum result = .finite m ∧ IsRemainder a b m

theorem takesRemainder_iff (elsewhere : Num → Long) {a b : Int} (there : b ≠ 0) :
    TakesRemainder elsewhere a b ↔
      (remainder elsewhere (Double.ofInt a) (Double.ofInt b)).isSome = true ∧
        nearest 53 ((toLong elsewhere (Double.ofInt a)).tmod (toLong elsewhere (Double.ofInt b))) =
          a.tmod b := by
  constructor
  · rintro ⟨result, m, taken, datum, exact_⟩
    rw [remainder_datum elsewhere taken] at datum
    refine ⟨taken ▸ rfl, ?_⟩
    rw [← (isRemainder_iff there).mp exact_]
    exact_mod_cast Datum.finite.inj datum
  · rintro ⟨safe, same⟩
    rcases Option.isSome_iff_exists.mp safe with ⟨result, taken⟩
    refine ⟨result, _, taken, remainder_datum elsewhere taken, ?_⟩
    exact (isRemainder_iff there).mpr same

theorem takesRemainder_always_iff {a b : Int} (dividend : IsLong a) (divisor : IsLong b)
    (there : b ≠ 0) :
    (∀ elsewhere : Num → Long, TakesRemainder elsewhere a b) ↔ KeepsRemainder a b := by
  have minusOne := @nearest_eq_unit_iff 53 (by decide) b (-1) rfl
  simp only [takesRemainder_iff _ there, remainder_isSome_iff]
  unfold KeepsRemainder
  constructor
  · intro right
    have divisorFits : nearest 53 b < 2 ^ 63 := by
      by_contra large
      have zero := toLong_ofInt_elsewhere (fun _ : Num => ⟨0, by decide⟩) divisor large
      exact (right _).1.1 zero
    refine ⟨divisorFits, ?_⟩
    split
    · rename_i dividendFits
      have known := right fun _ => ⟨0, by decide⟩
      rw [toLong_ofInt _ dividend dividendFits, toLong_ofInt _ divisor divisorFits, minusOne,
        nearest_tmod (by decide) a there] at known
      exact ⟨known.1.2, known.2⟩
    · rename_i large
      have known : ∀ x : Long, ¬ (x.val = -2 ^ 63 ∧ nearest 53 b = -1) ∧
          nearest 53 (x.val.tmod (nearest 53 b)) = a.tmod b := by
        intro x
        have here := right fun _ => x
        rw [toLong_ofInt_elsewhere _ dividend large, toLong_ofInt _ divisor divisorFits] at here
        exact ⟨here.1.2, here.2⟩
      -- the outcomes 0 and 1 have one remainder, so the divisor is a unit
      have zero : a.tmod b = 0 := by
        rw [← (known ⟨0, by decide⟩).2, Int.zero_tmod]
        exact (nearest_eq_zero_iff (by decide)).mpr rfl
      have one := (known ⟨1, by decide⟩).2
      rw [zero, nearest_eq_zero_iff (by decide)] at one
      rcases Int.isUnit_iff.mp (isUnit_of_dvd_one (Int.dvd_of_tmod_eq_zero one)) with same | same
      · exact (nearest_eq_unit_iff (by decide) rfl).mp same
      · exact absurd ⟨rfl, same⟩ (known ⟨-2 ^ 63, by decide⟩).1
  · rintro ⟨divisorFits, kept⟩ elsewhere
    rw [toLong_ofInt elsewhere divisor divisorFits]
    have nonzero := mt (@nearest_eq_zero_iff 53 (by decide) b).mp there
    split at kept
    · rename_i dividendFits
      rw [toLong_ofInt elsewhere dividend dividendFits, minusOne, nearest_tmod (by decide) a there]
      exact ⟨⟨nonzero, kept.1⟩, kept.2⟩
    · have one : nearest 53 b = 1 := (nearest_eq_unit_iff (by decide) rfl).mpr kept
      rw [one, kept, Int.tmod_one, Int.tmod_one]
      exact ⟨⟨by decide, fun least => absurd least.2 (by decide)⟩,
        (nearest_eq_zero_iff (by decide)).mpr rfl⟩

/-! ## The operator -/

/-- Both operands are evaluated and made numbers, and then their remainder is
taken. -/
theorem evalMod_eq (elsewhere : Num → Long) (env : Env Num) (run : Expr → Eval Num)
    {args : List (Operand Num)} {current : NodeId} {before heap : Heap} {left right : RValue Num}
    {l r : Num} (operands : evalBoth args current before = some (left, right, heap))
    (leftNumber : rval2number heap left = some l) (rightNumber : rval2number heap right = some r) :
    evalMod elsewhere env run args current before =
      (remainder elsewhere l r).map fun result => (.number result, heap) := by
  have first : @rval2number Num (machine elsewhere) heap left = some l := leftNumber
  have second : @rval2number Num (machine elsewhere) heap right = some r := rightNumber
  change @arithmetic Num (machine elsewhere) (remainder elsewhere) args current before = _
  unfold arithmetic
  simp only [operands, first, second, Option.bind_eq_bind, Option.bind_some]
  cases remainder elsewhere l r <;> rfl

omit [Double Num] [BinaryDouble Num] in
theorem map_number_eq_some_iff (found : Option Num) (result : Num) (heap : Heap) :
    found.map (fun result => (RValue.number result, heap)) = some (.number result, heap) ↔
      found = some result := by
  cases found with
  | none => exact iff_of_false nofun nofun
  | some other =>
      rw [Option.map_some, Option.some.injEq, Option.some.injEq, Prod.mk.injEq, RValue.number.injEq]
      exact and_iff_left rfl

/-- No conversion makes the division trap exactly if the divisor is a number
of at least one that fits, and its truncation not -1 under the least `long`;
and integers leave their remainder exactly if rounding keeps it. -/
theorem mod_right_iff (env : Env Num) (run : Expr → Eval Num) {args : List (Operand Num)}
    {current : NodeId} {before heap : Heap} {left right : RValue Num} {l r : Num}
    (operands : evalBoth args current before = some (left, right, heap))
    (leftNumber : rval2number heap left = some l) (rightNumber : rval2number heap right = some r) :
    ((∀ elsewhere : Num → Long, Exists fun result =>
      evalMod elsewhere env run args current before = some (.number result, heap)) ↔ Divides l r) ∧
    ∀ a b, left = .int a → right = .int b → IsLong a → IsLong b → b ≠ 0 →
      ((∀ elsewhere : Num → Long, Exists fun result => Exists fun m : Int =>
        evalMod elsewhere env run args current before = some (.number result, heap) ∧
          BinaryDouble.datum result = .finite m ∧ IsRemainder a b m) ↔ KeepsRemainder a b) := by
  have evaluated := fun elsewhere => @evalMod_eq Num _ _ elsewhere env run _ _ _ _ _ _ _ _ operands leftNumber
    rightNumber
  constructor
  · rw [← remainder_safe_iff]
    apply forall_congr'
    intro elsewhere
    rw [evaluated, Option.isSome_iff_exists]
    exact exists_congr fun result => map_number_eq_some_iff _ result heap
  · rintro a b rfl rfl dividend divisor there
    cases leftNumber
    cases rightNumber
    rw [← @takesRemainder_always_iff Num _ _ a b dividend divisor there]
    apply forall_congr'
    intro elsewhere
    rw [evaluated]
    apply exists_congr
    intro result
    apply exists_congr
    intro m
    rw [map_number_eq_some_iff]

end Modulo

/-! ### Exact numbers in the place of `double` -/

namespace Datum

/-- An operation on finite numbers. -/
def lift (operation : ℚ → ℚ → Datum) : Datum → Datum → Datum
  | .finite p, .finite q => operation p q
  | _, _ => .nan

/-- A relation between finite numbers. -/
def test (relation : ℚ → ℚ → Bool) : Datum → Datum → Bool
  | .finite p, .finite q => relation p q
  | _, _ => false

end Datum

/-- Only integers are rounded; the remainder is that of the machine. -/
instance : Double Datum where
  ofInt := fun n => .finite (nearest 53 n : Int)
  strtod := fun text => .finite (decimalNumber text)
  nan := .nan
  isNan := fun
    | .nan => true
    | _ => false
  add := Datum.lift fun p q => .finite (p + q)
  sub := Datum.lift fun p q => .finite (p - q)
  mul := Datum.lift fun p q => .finite (p * q)
  div := Datum.lift fun p q =>
    if q = 0 then if p = 0 then .nan else .infinite (p < 0) else .finite (p / q)
  mod := fun _ _ => none
  equal := Datum.test fun p q => p = q
  less := Datum.test fun p q => p < q
  print := fun
    | .nan => lit "nan"
    | .infinite negative => lit (if negative then "-inf" else "inf")
    | .finite q => lit (toString q)

instance : BinaryDouble Datum where
  datum := id
  ofInt := fun _ _ => rfl

/-- `5 mod 3` -/
def fiveAndThree : Expr :=
  .node { type := .int, integer := 5 } .null (.leaf { type := .int, integer := 3 })

theorem mod_right_iff_five :
    (∀ elsewhere : Datum → Long, Exists fun result =>
      evalMod elsewhere (Env.bare Datum 0) (keyEval (Env.bare Datum 0) 0)
        (operandsAt (Env.bare Datum 0) 0 fiveAndThree) 0 .empty = some (.number result, .empty)) ∧
    ∀ elsewhere : Datum → Long, Exists fun result => Exists fun m : Int =>
      evalMod elsewhere (Env.bare Datum 0) (keyEval (Env.bare Datum 0) 0)
        (operandsAt (Env.bare Datum 0) 0 fiveAndThree) 0 .empty = some (.number result, .empty) ∧
        BinaryDouble.datum result = .finite m ∧ IsRemainder 5 3 m := by
  have five : nearest 53 5 = 5 := nearest_of_lt (by decide)
  have three : nearest 53 3 = 3 := nearest_of_lt (by decide)
  have right := @mod_right_iff Datum _ _ (Env.bare Datum 0) (keyEval (Env.bare Datum 0) 0)
    (operandsAt (Env.bare Datum 0) 0 fiveAndThree) 0 .empty .empty (.int 5) (.int 3) _ _ rfl rfl rfl
  refine ⟨right.1.mpr ⟨((nearest 53 3 : Int) : ℚ), rfl, ?_, ?_, ?_⟩, (right.2 5 3 rfl rfl (by decide)
    (by decide) (by decide)).mpr ?_⟩
  · rw [three]
    unfold Fits
    norm_num
  · rw [three]
    norm_num
  · rw [three]
    intro _ small
    norm_num at small
  · unfold KeepsRemainder
    rw [five, three]
    decide

/-- `5 mod 0.5` -/
def fiveAndHalf : Expr :=
  .node { type := .int, integer := 5 } .null (.leaf { type := .text, content := lit "0.5" })

theorem half_truncated (elsewhere : Datum → Long) :
    remainder elsewhere (Double.ofInt 5) (textNumber (lit "0.5")) = none := by
  have spelled : lit "0.5" = zeroPointFive.spelling := rfl
  have half : (textNumber (lit "0.5") : Datum) = .finite zeroPointFive.value := by
    rw [spelled, Literal.textNumber_spelling, ← decimalNumber_spelling]
    rfl
  have value : zeroPointFive.value = 1 / 2 := by
    change 1 * (0 + 5 / 10 ^ 1) = (1 / 2 : ℚ)
    norm_num
  have zero : trunc (1 / 2) = 0 := by
    by_contra there
    have large := (trunc_ne_zero_iff (1 / 2)).mp there
    norm_num [abs_of_pos] at large
  have divisor : toLong elsewhere (textNumber (lit "0.5") : Datum) = 0 := by
    rw [half, value, toLong_finite elsewhere (q := 1 / 2) rfl (by unfold Fits; norm_num), zero]
  have trapped := mt (remainder_isSome_iff elsewhere (Double.ofInt 5 : Datum)
    (textNumber (lit "0.5"))).mp fun safe => safe.1 divisor
  exact Option.not_isSome_iff_eq_none.mp trapped

/-- The divisor of `5 mod 0.5` becomes zero, and the rounded dividend of
`9007199254740993 mod 3` leaves another remainder. -/
theorem half_is_no_divisor :
    (Exists fun tree => xpathCompile (lit "5 mod 0.5") = some tree ∧
      ∀ elsewhere : Datum → Long, ∀ heap,
        @xpathExecuteScalar Datum (machine elsewhere) (Env.bare Datum 0) 0 tree 0 heap = none) ∧
      ¬ ∀ elsewhere : Datum → Long, TakesRemainder elsewhere 9007199254740993 3 := by
  refine ⟨⟨.node { type := .mod } fiveAndHalf .null, by decide, fun elsewhere heap => ?_⟩, ?_⟩
  · have evaluated := @evalMod_eq Datum _ _ elsewhere (Env.bare Datum 0)
      (@keyEval Datum (machine elsewhere) (Env.bare Datum 0) 0)
      (@operandsAt Datum (machine elsewhere) (Env.bare Datum 0) 0 fiveAndHalf) 0 heap heap
      (.int 5) (.string (some (lit "0.5"))) _ _ rfl rfl rfl
    rw [half_truncated] at evaluated
    exact evaluated
  · rw [takesRemainder_always_iff (by decide) (by decide) (by decide)]
    intro kept
    exact absurd kept.2 (by decide)

end TurboXSL
