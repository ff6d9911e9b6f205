import Mathlib.Algebra.GroupWithZero.Nat
import Mathlib.Algebra.Order.Ring.Int
import Mathlib.Tactic.Common

namespace Words

variable {v w : Nat}

section Wrapping

theorem ofInt_sub (x y : Int) : BitVec.ofInt w (x - y) = BitVec.ofInt w x - BitVec.ofInt w y := by
  rw [Int.sub_eq_add_neg, BitVec.ofInt_add, BitVec.ofInt_neg, BitVec.sub_eq_add_neg]

theorem ofInt_toNat (x : BitVec w) : BitVec.ofInt w x.toNat = x := by
  rw [BitVec.ofInt_natCast, BitVec.ofNat_toNat, BitVec.setWidth_eq]

theorem setWidth_eq_ofInt (x : BitVec w) : x.setWidth v = BitVec.ofInt v x.toNat := by
  rw [BitVec.ofInt_natCast, BitVec.ofNat_toNat]

theorem emod_two_pow_nonneg (z : Int) (w : Nat) : 0 ≤ z % ((2 ^ w : Nat) : Int) :=
  Int.emod_nonneg z (Int.natCast_ne_zero.mpr (Nat.two_pow_pos w).ne')

/-- A narrower word keeps the residue. -/
theorem setWidth_ofInt (h : v ≤ w) (z : Int) : (BitVec.ofInt w z).setWidth v = BitVec.ofInt v z := by
  have hdvd : ((2 ^ v : Nat) : Int) ∣ ((2 ^ w : Nat) : Int) := Int.natCast_dvd_natCast.mpr (Nat.pow_dvd_pow 2 h)
  apply BitVec.eq_of_toNat_eq
  apply Int.ofNat_inj.mp
  rw [BitVec.toNat_setWidth, BitVec.toNat_ofInt, BitVec.toNat_ofInt, Int.natCast_emod,
    Int.toNat_of_nonneg (emod_two_pow_nonneg z w), Int.toNat_of_nonneg (emod_two_pow_nonneg z v)]
  exact Int.emod_emod_of_dvd z hdvd

theorem ofInt_add_of_dvd {z d : Int} (h : (2 ^ w : Int) ∣ d) : BitVec.ofInt w (z + d) = BitVec.ofInt w z := by
  obtain ⟨c, rfl⟩ := h
  have hcast : ((2 ^ w : Nat) : Int) = 2 ^ w := by norm_cast
  apply BitVec.eq_of_toNat_eq
  rw [BitVec.toNat_ofInt, BitVec.toNat_ofInt, hcast, Int.add_mul_emod_self_left]

end Wrapping

section Shifts

/-- A shift of a word that holds an integer exactly. -/
theorem sshiftRight_ofInt (hw : 0 < w) {z : Int} (hlow : -2 ^ (w - 1) ≤ z) (hhigh : z < 2 ^ (w - 1)) (k : Nat) :
    (BitVec.ofInt w z).sshiftRight k = BitVec.ofInt w (z / 2 ^ k) := by
  rw [BitVec.sshiftRight, BitVec.toInt_ofInt_eq_self hw hlow hhigh, Int.shiftRight_eq_div_pow]
  norm_cast

theorem ushiftRight_ofInt {z : Int} (hlow : 0 ≤ z) (hhigh : z < 2 ^ w) (k : Nat) :
    BitVec.ofInt w z >>> k = BitVec.ofInt w (z / 2 ^ k) := by
  obtain ⟨n, rfl⟩ := Int.eq_ofNat_of_zero_le hlow
  have hn : n < 2 ^ w := by exact_mod_cast hhigh
  apply BitVec.eq_of_toNat_eq
  rw [BitVec.toNat_ushiftRight, BitVec.ofInt_natCast, BitVec.toNat_ofNat, Nat.mod_eq_of_lt hn,
    Nat.shiftRight_eq_div_pow]
  have hdiv : ((n : Int) / 2 ^ k) = ((n / 2 ^ k : Nat) : Int) := by norm_cast
  rw [hdiv, BitVec.ofInt_natCast, BitVec.toNat_ofNat, Nat.mod_eq_of_lt (Nat.lt_of_le_of_lt (Nat.div_le_self _ _) hn)]

/-- The bits that a narrower word takes from a shifted one do not depend on how the integer was wrapped. -/
theorem setWidth_ushiftRight_ofInt {k : Nat} (h : v + k ≤ w) (z : Int) :
    (BitVec.ofInt w z >>> k).setWidth v = BitVec.ofInt v (z / 2 ^ k) := by
  have hpow : (2 : Int) ^ w = 2 ^ (w - k) * 2 ^ k := by rw [← pow_add, Nat.sub_add_cancel (by omega)]
  have hpos : (0 : Int) < 2 ^ w := Int.pow_pos (by decide)
  have hk : (2 : Int) ^ k ≠ 0 := Int.ne_of_gt (Int.pow_pos (by decide))
  have hz : z % 2 ^ w + 2 ^ w * (z / 2 ^ w) = z := Int.emod_add_mul_ediv z _
  have hdvd : (2 : Int) ^ v ∣ 2 ^ (w - k) * (z / 2 ^ w) := Dvd.dvd.mul_right (pow_dvd_pow 2 (by omega)) _
  have hword : BitVec.ofInt w z = BitVec.ofInt w (z % 2 ^ w) := by
    conv_lhs => rw [← hz]
    exact ofInt_add_of_dvd (Dvd.intro _ rfl)
  have hquot : z / 2 ^ k = z % 2 ^ w / 2 ^ k + 2 ^ (w - k) * (z / 2 ^ w) := by
    conv_lhs => rw [← hz]
    rw [hpow, mul_right_comm, Int.add_mul_ediv_right _ _ hk]
  rw [hword, ushiftRight_ofInt (Int.emod_nonneg z (Int.ne_of_gt hpos)) (Int.emod_lt_of_pos z hpos),
    setWidth_ofInt (by omega), hquot, ofInt_add_of_dvd hdvd]

theorem shiftLeft_ofInt (z : Int) (k : Nat) : BitVec.ofInt w z <<< k = BitVec.ofInt w (z * 2 ^ k) := by
  have hpow : BitVec.ofInt w (2 ^ k) = BitVec.twoPow w k := by
    apply BitVec.eq_of_toNat_eq
    have hcast : (2 ^ k : Int) = ((2 ^ k : Nat) : Int) := by norm_cast
    rw [hcast, BitVec.ofInt_natCast, BitVec.toNat_ofNat, BitVec.toNat_twoPow]
  rw [BitVec.shiftLeft_eq_mul_twoPow, BitVec.ofInt_mul, hpow]

end Shifts

section Clamping

/-- The word closest to an integer, read with a sign. -/
def clampSigned (w : Nat) (z : Int) : BitVec w := BitVec.ofInt w (max (-2 ^ (w - 1)) (min (2 ^ (w - 1) - 1) z))

/-- The word closest to an integer, read without a sign. -/
def clampUnsigned (w : Nat) (z : Int) : BitVec w := BitVec.ofInt w (max 0 (min (2 ^ w - 1) z))

variable {z : Int}

theorem clampSigned_of_mem (hlow : -2 ^ (w - 1) ≤ z) (hhigh : z < 2 ^ (w - 1)) :
    clampSigned w z = BitVec.ofInt w z := by
  rw [clampSigned, min_eq_right (by omega), max_eq_right hlow]

theorem clampSigned_of_ge (h : 2 ^ (w - 1) ≤ z) : clampSigned w z = BitVec.intMax w := by
  have hpos : (0 : Int) < 2 ^ (w - 1) := Int.pow_pos (by decide)
  rw [clampSigned, min_eq_left (by omega), max_eq_right (by omega), ← BitVec.toInt_intMax, BitVec.ofInt_toInt]

theorem clampSigned_of_lt (hw : 0 < w) (h : z < -2 ^ (w - 1)) : clampSigned w z = BitVec.intMin w := by
  have hpos : (0 : Int) < 2 ^ (w - 1) := Int.pow_pos (by decide)
  rw [clampSigned, min_eq_right (by omega), max_eq_left (by omega), ← BitVec.toInt_intMin_of_pos hw, BitVec.ofInt_toInt]

theorem clampUnsigned_of_mem (hlow : 0 ≤ z) (hhigh : z < 2 ^ w) : clampUnsigned w z = BitVec.ofInt w z := by
  rw [clampUnsigned, min_eq_right (by omega), max_eq_right hlow]

theorem clampUnsigned_of_ge (h : 2 ^ w ≤ z) : clampUnsigned w z = BitVec.allOnes w := by
  have hpos : (0 : Int) < 2 ^ w := Int.pow_pos (by decide)
  have hones : ((BitVec.allOnes w).toNat : Int) = 2 ^ w - 1 := by
    rw [BitVec.toNat_allOnes, Nat.cast_sub Nat.one_le_two_pow]
    norm_cast
  rw [clampUnsigned, min_eq_left (by omega), max_eq_right (by omega), ← hones, ofInt_toNat]

theorem clampUnsigned_of_neg (h : z < 0) : clampUnsigned w z = 0#w := by
  have hpos : (0 : Int) < 2 ^ w := Int.pow_pos (by decide)
  rw [clampUnsigned, min_eq_right (by omega), max_eq_left (by omega)]
  rfl

end Clamping

end Words
