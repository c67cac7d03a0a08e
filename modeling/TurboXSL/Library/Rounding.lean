import Mathlib.Data.Nat.Size
import Mathlib.Data.Rat.Floor

namespace Library

/-!
# Rounding integers to a number of bits

What is kept of an integer in a format with a fixed number of leading bits,
ties to even.  A number of that many bits with zeros behind is kept whole, and
the remainder of two such numbers is one again.  Rounding towards zero is
compared with integers away from zero.
-/

/-! ## Leading bits -/

/-- The place of the last bit that is kept. -/
def unit (bits n : Nat) : Nat := 2 ^ (n.size - bits)

def nearestNat (bits n : Nat) : Nat :=
  let low := n / unit bits n
  let rest := n % unit bits n
  (if 2 * rest < unit bits n ∨ (2 * rest = unit bits n ∧ low % 2 = 0) then low else low + 1) *
    unit bits n

/-- The integer with so many leading bits that is nearest to this one. -/
def nearest (bits : Nat) (n : Int) : Int := n.sign * nearestNat bits n.natAbs

/-- At most so many bits, and zeros behind. -/
def Representable (bits n : Nat) : Prop :=
  Exists fun leading => Exists fun zeros => leading ≤ 2 ^ bits ∧ n = leading * 2 ^ zeros

theorem unit_pos (bits n : Nat) : 0 < unit bits n := Nat.two_pow_pos _

theorem nearestNat_of_dvd {bits n : Nat} (whole : unit bits n ∣ n) : nearestNat bits n = n := by
  have rest : n % unit bits n = 0 := Nat.mod_eq_zero_of_dvd whole
  have kept : 2 * 0 < unit bits n := unit_pos bits n
  unfold nearestNat
  simp only [rest, kept, true_or, if_true]
  exact Nat.div_mul_cancel whole

theorem nearestNat_of_lt {bits n : Nat} (small : n < 2 ^ bits) : nearestNat bits n = n := by
  apply nearestNat_of_dvd
  have short : n.size - bits = 0 := Nat.sub_eq_zero_of_le (Nat.size_le.mpr small)
  unfold unit
  rw [short]
  exact one_dvd n

theorem nearestNat_of_representable {bits n : Nat} (positive : 0 < bits)
    (known : Representable bits n) : nearestNat bits n = n := by
  rcases known with ⟨leading, zeros, bound, rfl⟩
  apply nearestNat_of_dvd
  rcases Nat.lt_or_eq_of_le bound with less | same
  · have short : (leading * 2 ^ zeros).size ≤ bits + zeros := by
      rw [Nat.size_le, pow_add]
      exact Nat.mul_lt_mul_of_pos_right less (Nat.two_pow_pos zeros)
    exact Dvd.dvd.mul_left (pow_dvd_pow 2 (by omega)) leading
  · have size : (leading * 2 ^ zeros).size ≤ bits + zeros + 1 := by
      rw [same, ← pow_add, Nat.size_pow]
    rw [same, ← pow_add] at size ⊢
    exact pow_dvd_pow 2 (by omega)

theorem div_unit_lt (bits n : Nat) : n / unit bits n < 2 ^ bits := by
  rw [Nat.div_lt_iff_lt_mul (unit_pos bits n)]
  have size := Nat.lt_size_self n
  unfold unit
  rw [← pow_add]
  exact Nat.lt_of_lt_of_le size (Nat.pow_le_pow_right (by decide) (by omega))

theorem nearestNat_representable (bits n : Nat) : Representable bits (nearestNat bits n) := by
  have low := div_unit_lt bits n
  unfold nearestNat
  refine ⟨_, n.size - bits, ?_, rfl⟩
  split <;> omega

/-- From this bound on the last bits are zeros. -/
theorem two_dvd_nearestNat {bits n : Nat} (large : 2 ^ bits ≤ n) : 2 ∣ nearestNat bits n := by
  have size : bits < n.size := Nat.lt_size.mpr large
  unfold nearestNat unit
  refine Dvd.dvd.mul_left ?_ _
  exact dvd_pow_self 2 (by omega)

theorem nearestNat_pos {bits n : Nat} (positive : 0 < bits) (there : 0 < n) :
    0 < nearestNat bits n := by
  rcases Nat.lt_or_ge n (2 ^ bits) with small | large
  · rw [nearestNat_of_lt small]
    exact there
  · have size : bits < n.size := Nat.lt_size.mpr large
    have below : unit bits n ≤ n := by
      have last : 2 ^ (n.size - 1) ≤ n := Nat.lt_size.mp (by omega)
      exact Nat.le_trans (Nat.pow_le_pow_right (by decide) (by omega)) last
    have low : 0 < n / unit bits n := Nat.div_pos below (unit_pos bits n)
    unfold nearestNat
    apply Nat.mul_pos _ (unit_pos bits n)
    split <;> omega

/-- Rounding stays below powers of two. -/
theorem nearestNat_le_pow {bits n k : Nat} (positive : 0 < bits) (below : n ≤ 2 ^ k) :
    nearestNat bits n ≤ 2 ^ k := by
  rcases Nat.lt_or_eq_of_le below with less | same
  · rcases Nat.lt_or_ge n (2 ^ bits) with small | large
    · rw [nearestNat_of_lt small]
      exact below
    · have size : bits < n.size := Nat.lt_size.mpr large
      have short : n.size ≤ k := Nat.size_le.mpr less
      have low : n / unit bits n < 2 ^ bits := div_unit_lt bits n
      have whole : 2 ^ bits * unit bits n = 2 ^ n.size := by
        unfold unit
        rw [← pow_add, Nat.add_sub_cancel' (Nat.le_of_lt size)]
      calc
        nearestNat bits n ≤ 2 ^ bits * unit bits n := by
          unfold nearestNat
          apply Nat.mul_le_mul_right
          split <;> omega
        _ = 2 ^ n.size := whole
        _ ≤ 2 ^ k := Nat.pow_le_pow_right (by decide) short
  · rw [same, nearestNat_of_representable positive ⟨1, k, Nat.one_le_two_pow, (Nat.one_mul _).symm⟩]

theorem Representable.mod {bits m n : Nat} (left : Representable bits m)
    (right : Representable bits n) (there : 0 < n) : Representable bits (m % n) := by
  rcases left with ⟨first, e, firstBound, firstEq⟩
  rcases right with ⟨second, f, secondBound, secondEq⟩
  rcases Nat.le_total f e with le | le
  · -- a multiple of the last place of the divisor, and smaller than it
    have inM : 2 ^ f ∣ m := firstEq ▸ Dvd.dvd.mul_left (pow_dvd_pow 2 le) first
    have inN : 2 ^ f ∣ n := secondEq ▸ Dvd.intro_left second rfl
    rcases (Nat.dvd_mod_iff inN).mpr inM with ⟨k, shape⟩
    have less := Nat.mod_lt m there
    rw [shape, secondEq, Nat.mul_comm] at less
    refine ⟨k, f, ?_, by rw [shape, Nat.mul_comm]⟩
    exact Nat.le_of_lt (Nat.lt_of_lt_of_le (Nat.lt_of_mul_lt_mul_right less) secondBound)
  · -- a multiple of the last place of the dividend, and no larger than it
    have inM : 2 ^ e ∣ m := firstEq ▸ Dvd.intro_left first rfl
    have inN : 2 ^ e ∣ n := secondEq ▸ Dvd.dvd.mul_left (pow_dvd_pow 2 le) second
    rcases (Nat.dvd_mod_iff inN).mpr inM with ⟨k, shape⟩
    have least := Nat.mod_le m n
    rw [shape, firstEq, Nat.mul_comm] at least
    refine ⟨k, e, ?_, by rw [shape, Nat.mul_comm]⟩
    exact Nat.le_trans (Nat.le_of_mul_le_mul_right least (Nat.two_pow_pos e)) firstBound

theorem natAbs_nearest (bits : Nat) (n : Int) : (nearest bits n).natAbs = nearestNat bits n.natAbs := by
  unfold nearest
  rw [Int.natAbs_mul, Int.natAbs_natCast, Int.natAbs_sign]
  split
  · rename_i zero
    rw [zero, Nat.zero_mul]
    exact (nearestNat_of_lt (Nat.two_pow_pos bits)).symm
  · exact Nat.one_mul _

theorem nearest_of_representable {bits : Nat} {n : Int} (positive : 0 < bits)
    (known : Representable bits n.natAbs) : nearest bits n = n := by
  unfold nearest
  rw [nearestNat_of_representable positive known]
  exact Int.sign_mul_natAbs n

theorem nearest_of_lt {bits : Nat} {n : Int} (small : n.natAbs < 2 ^ bits) : nearest bits n = n := by
  unfold nearest
  rw [nearestNat_of_lt small]
  exact Int.sign_mul_natAbs n

theorem nearest_eq_zero_iff {bits : Nat} (positive : 0 < bits) {n : Int} :
    nearest bits n = 0 ↔ n = 0 := by
  rw [← Int.natAbs_eq_zero, natAbs_nearest, ← Int.natAbs_eq_zero]
  constructor
  · intro zero
    by_contra there
    have kept := nearestNat_pos positive (Nat.pos_of_ne_zero there)
    omega
  · intro zero
    rw [zero]
    exact nearestNat_of_lt (Nat.two_pow_pos bits)

/-- Units are nearest to themselves alone. -/
theorem nearest_eq_unit_iff {bits : Nat} (positive : 0 < bits) {n e : Int} (one : e.natAbs = 1) :
    nearest bits n = e ↔ n = e := by
  have several : 1 < 2 ^ bits := Nat.one_lt_two_pow (by omega)
  constructor
  · intro same
    have size : nearestNat bits n.natAbs = 1 := by
      rw [← natAbs_nearest, same, one]
    rcases Nat.lt_or_ge n.natAbs (2 ^ bits) with small | large
    · rw [← same, nearest_of_lt small]
    · have even := two_dvd_nearestNat large
      omega
  · rintro rfl
    exact nearest_of_lt (by omega)

/-- The remainder of two rounded numbers is not rounded again. -/
theorem nearest_tmod {bits : Nat} (positive : 0 < bits) (m : Int) {n : Int} (there : n ≠ 0) :
    nearest bits ((nearest bits m).tmod (nearest bits n)) = (nearest bits m).tmod (nearest bits n) := by
  apply nearest_of_representable positive
  rw [Int.natAbs_tmod, natAbs_nearest, natAbs_nearest]
  exact (nearestNat_representable bits _).mod (nearestNat_representable bits _)
    (nearestNat_pos positive (Int.natAbs_pos.mpr there))

/-! ## Towards zero -/

def trunc (q : ℚ) : Int := if 0 ≤ q then ⌊q⌋ else ⌈q⌉

theorem trunc_intCast (n : Int) : trunc (n : ℚ) = n := by
  unfold trunc
  rw [Int.floor_intCast, Int.ceil_intCast, ite_self]

theorem trunc_lt_iff {q : ℚ} {n : Int} (positive : 0 < n) : trunc q < n ↔ q < n := by
  unfold trunc
  split
  · exact Int.floor_lt
  · rename_i negative
    have below : q < 0 := not_le.mp negative
    have above : (0 : ℚ) < n := by exact_mod_cast positive
    refine iff_of_true ?_ (below.trans above)
    exact Int.lt_of_le_of_lt (Int.ceil_le.mpr (by exact_mod_cast below.le)) positive

theorem lt_trunc_iff {q : ℚ} {n : Int} (negative : n < 0) : n < trunc q ↔ (n : ℚ) < q := by
  unfold trunc
  have below : (n : ℚ) < 0 := by exact_mod_cast negative
  split
  · rename_i positive
    refine iff_of_true ?_ (below.trans_le positive)
    exact Int.lt_of_lt_of_le negative (Int.floor_nonneg.mpr positive)
  · exact Int.lt_ceil

end Library
