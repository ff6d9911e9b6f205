import Mathlib.Algebra.GroupWithZero.Nat
import Mathlib.Tactic.Common

namespace Masks

variable {w : Nat} {a v k q : BitVec w}

theorem bit_of_and {i : Nat} {r : BitVec w} (h : k &&& q = r) : (k.getLsbD i && q.getLsbD i) = r.getLsbD i := by
  rw [← BitVec.getLsbD_and, h]

theorem getLsbD_of_and_eq {i : Nat} (h : a &&& q = v &&& q) (hq : q.getLsbD i = true) : a.getLsbD i = v.getLsbD i := by
  have hbit := bit_of_and (i := i) h
  rwa [BitVec.getLsbD_and, hq, Bool.and_true, Bool.and_true] at hbit

/-- A mask inside the written bits sees the written value. -/
theorem and_of_merge (h : k &&& q = q) : ((a &&& ~~~k) ||| (v &&& k)) &&& q = v &&& q := by
  apply BitVec.eq_of_getLsbD_eq
  intro i hi
  have hbit := bit_of_and (i := i) h
  simp only [BitVec.getLsbD_and, BitVec.getLsbD_or, BitVec.getLsbD_not, hi, decide_true, Bool.true_and]
  cases hq : q.getLsbD i
  · simp only [Bool.and_false]
  · rw [hq, Bool.and_true] at hbit
    simp [hbit]

/-- A mask outside the written bits sees the old value. -/
theorem and_of_masked (h : k &&& q = 0#w) : ((a &&& ~~~k) ||| (v &&& k)) &&& q = a &&& q := by
  apply BitVec.eq_of_getLsbD_eq
  intro i hi
  have hbit := bit_of_and (i := i) h
  rw [BitVec.getLsbD_zero] at hbit
  simp only [BitVec.getLsbD_and, BitVec.getLsbD_or, BitVec.getLsbD_not, hi, decide_true, Bool.true_and]
  cases hq : q.getLsbD i
  · simp only [Bool.and_false]
  · rw [hq, Bool.and_true] at hbit
    simp [hbit]

theorem and_or_self (a v : BitVec w) : (a &&& v) ||| v = v := by
  apply BitVec.eq_of_getLsbD_eq
  intro i _
  rw [BitVec.getLsbD_or, BitVec.getLsbD_and]
  cases a.getLsbD i <;> simp

theorem or_of_and_eq (h : a &&& v = a) : a ||| v = v := by
  have hor := and_or_self a v
  rwa [h] at hor

theorem xor_and_eq_zero_iff : (a ^^^ v) &&& q = 0#w ↔ a &&& q = v &&& q := by
  have hdistrib : (a ^^^ v) &&& q = (a &&& q) ^^^ (v &&& q) := by
    apply BitVec.eq_of_getLsbD_eq
    intro i _
    simp only [BitVec.getLsbD_and, BitVec.getLsbD_xor, Bool.and_xor_distrib_right]
  rw [hdistrib, BitVec.xor_eq_zero_iff]

section Fields

variable (v m : BitVec w) (k : Nat)

/-- A field that is taken out and put back. -/
theorem field_shiftLeft : ((v >>> k) &&& m) <<< k = v &&& (m <<< k) := by
  apply BitVec.eq_of_getLsbD_eq
  intro i hi
  simp only [BitVec.getLsbD_and, BitVec.getLsbD_shiftLeft, BitVec.getLsbD_ushiftRight]
  by_cases hk : i < k
  · simp [hk]
  · simp [hk, hi, Nat.add_sub_of_le (Nat.le_of_not_lt hk)]

theorem field_ushiftRight : ((v <<< k) &&& m) >>> k = v &&& (m >>> k) := by
  apply BitVec.eq_of_getLsbD_eq
  intro i hi
  simp only [BitVec.getLsbD_and, BitVec.getLsbD_shiftLeft, BitVec.getLsbD_ushiftRight, Nat.add_sub_cancel_left,
    Nat.not_lt.mpr (Nat.le_add_right k i), decide_false, Bool.not_false, Bool.and_true]
  by_cases hki : k + i < w
  · simp [hki]
  · simp [hki, BitVec.getLsbD_of_ge m (k + i) (Nat.le_of_not_lt hki)]

theorem and_twoPow_ne_zero_iff {v : BitVec w} {k : Nat} (hk : k < w) :
    v &&& BitVec.twoPow w k ≠ 0#w ↔ v.getLsbD k = true := by
  have hne : BitVec.twoPow w k ≠ 0#w := by
    intro h
    have hbit := congrArg (BitVec.getLsbD · k) h
    simp [hk] at hbit
  rw [BitVec.and_twoPow]
  cases v.getLsbD k with
  | false => simp
  | true => simp [hne]

/-- A bit that is kept as a truth value. -/
theorem flag_shiftLeft : (if v &&& BitVec.twoPow w k ≠ 0#w then 1#w else 0#w) <<< k = v &&& BitVec.twoPow w k := by
  by_cases hk : k < w
  · rw [if_congr (and_twoPow_ne_zero_iff hk) rfl rfl, BitVec.and_twoPow]
    cases v.getLsbD k with
    | false => simp
    | true => rfl
  · simp [BitVec.and_twoPow, BitVec.getLsbD_of_ge v k (Nat.le_of_not_lt hk)]

theorem and_one_cases (v : BitVec w) : v &&& 1#w = 0#w ∨ v &&& 1#w = 1#w := by
  have h := BitVec.and_twoPow v 0
  rw [show BitVec.twoPow w 0 = 1#w by simp [BitVec.twoPow]] at h
  rw [h]
  split_ifs
  · exact .inr rfl
  · exact .inl rfl

theorem and_lt {v q m : BitVec w} (h : q < m) : v &&& q < m := by
  rw [BitVec.lt_def, BitVec.toNat_and]
  exact Nat.lt_of_le_of_lt Nat.and_le_right h

end Fields

section High

variable {a b : BitVec w} {j k : Nat}

/-- All bits from one on. -/
def high (w k : Nat) : BitVec w := BitVec.allOnes w <<< k

theorem getLsbD_high (w k i : Nat) : (high w k).getLsbD i = (decide (i < w) && decide (k ≤ i)) := by
  rw [high, BitVec.getLsbD_shiftLeft, BitVec.getLsbD_allOnes]
  by_cases hk : k ≤ i
  · by_cases hi : i < w
    · simp [hk, hi, Nat.sub_lt_of_lt hi]
    · simp [hi]
  · simp [hk, Nat.lt_of_not_le hk]

theorem high_and (w j k : Nat) : high w j &&& high w k = high w (max j k) := by
  apply BitVec.eq_of_getLsbD_eq
  intro i hi
  simp only [BitVec.getLsbD_and, getLsbD_high, hi, decide_true, Bool.true_and, ← Bool.decide_and, Nat.max_le]

theorem high_shiftLeft (w k n : Nat) : high w k <<< n = high w (k + n) := by
  rw [high, high, BitVec.shiftLeft_add]

theorem getLsbD_of_and_high (h : a &&& high w k = b &&& high w k) {i : Nat} (hi : k ≤ i) :
    a.getLsbD i = b.getLsbD i := by
  by_cases hlt : i < w
  · exact getLsbD_of_and_eq h (by simp [getLsbD_high, hlt, hi])
  · rw [BitVec.getLsbD_of_ge _ _ (Nat.le_of_not_lt hlt), BitVec.getLsbD_of_ge _ _ (Nat.le_of_not_lt hlt)]

theorem and_high_eq (a : BitVec w) (k : Nat) : a &&& high w k = (a >>> k) <<< k := by
  apply BitVec.eq_of_getLsbD_eq
  intro i hi
  rw [BitVec.getLsbD_and, getLsbD_high, BitVec.getLsbD_shiftLeft, BitVec.getLsbD_ushiftRight]
  by_cases hk : k ≤ i
  · simp [hi, hk, Nat.add_sub_of_le hk]
  · simp [hi, hk, Nat.lt_of_not_le hk]

theorem and_high_eq_iff : a &&& high w k = b &&& high w k ↔ a.toNat / 2 ^ k = b.toNat / 2 ^ k := by
  rw [← Nat.shiftRight_eq_div_pow, ← Nat.shiftRight_eq_div_pow, ← BitVec.toNat_ushiftRight,
    ← BitVec.toNat_ushiftRight]
  constructor
  · intro h
    congr 1
    apply BitVec.eq_of_getLsbD_eq
    intro i _
    rw [BitVec.getLsbD_ushiftRight, BitVec.getLsbD_ushiftRight]
    exact getLsbD_of_and_high h (Nat.le_add_right k i)
  · intro h
    rw [and_high_eq, and_high_eq, BitVec.eq_of_toNat_eq h]

theorem toNat_and_high (a : BitVec w) (k : Nat) : (a &&& high w k).toNat = a.toNat / 2 ^ k * 2 ^ k := by
  have hle : a.toNat / 2 ^ k * 2 ^ k ≤ a.toNat := Nat.div_mul_le_self _ _
  rw [and_high_eq, BitVec.toNat_shiftLeft, BitVec.toNat_ushiftRight, Nat.shiftRight_eq_div_pow, Nat.shiftLeft_eq,
    Nat.mod_eq_of_lt (Nat.lt_of_le_of_lt hle a.isLt)]

theorem toNat_and_low (a : BitVec w) (k : Nat) : (a &&& ~~~high w k).toNat = a.toNat % 2 ^ k := by
  apply Nat.eq_of_testBit_eq
  intro i
  rw [Nat.testBit_mod_two_pow, BitVec.testBit_toNat, BitVec.testBit_toNat, BitVec.getLsbD_and, BitVec.getLsbD_not,
    getLsbD_high]
  by_cases hi : i < w
  · simp only [hi, decide_true, Bool.true_and, Bool.and_comm (a.getLsbD i), ← decide_not, Nat.not_le]
  · simp only [BitVec.getLsbD_of_ge a i (Nat.le_of_not_lt hi), Bool.false_and, Bool.and_false]

/-- A frame and an offset in it. -/
theorem toNat_splice (a b : BitVec w) (k : Nat) :
    ((a &&& high w k) ||| (b &&& ~~~high w k)).toNat = a.toNat / 2 ^ k * 2 ^ k + b.toNat % 2 ^ k := by
  have hlow : b.toNat % 2 ^ k < 2 ^ k := Nat.mod_lt _ (Nat.two_pow_pos k)
  rw [BitVec.toNat_or, toNat_and_high, toNat_and_low, ← Nat.shiftLeft_eq, Nat.shiftLeft_add_eq_or_of_lt hlow]

end High

end Masks
