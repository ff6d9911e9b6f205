import Mathlib.Data.Rat.Floor
import Mathlib.Tactic.Common
import Mathlib.Tactic.FieldSimp
import Mathlib.Tactic.Ring

namespace Scaling

/-- An integer scaled by a power of two and rounded down. -/
def scaled (x s : Int) : Int := ⌊(x : ℚ) * 2 ^ s⌋

/-- An integer scaled by a power of two and rounded to the nearest integer, halves up. -/
def rounded (x s : Int) : Int := ⌊(x : ℚ) * 2 ^ s + 1 / 2⌋

variable {x : Int} {k w : Nat}

section Values

theorem scaled_neg (x : Int) (k : Nat) : scaled x (-k) = x / 2 ^ k := by
  have hcast : (x : ℚ) * 2 ^ (-(k : Int)) = (x : ℚ) / ((2 ^ k : Nat) : ℚ) := by
    rw [zpow_neg, zpow_natCast]
    push_cast
    rfl
  rw [scaled, hcast, Rat.floor_intCast_div_natCast]
  push_cast
  rfl

theorem rounded_neg_succ (x : Int) (k : Nat) : rounded x (-(k + 1)) = (x + 2 ^ k) / 2 ^ (k + 1) := by
  have hcast : (x : ℚ) * 2 ^ (-(k + 1 : Int)) + 1 / 2 = ((x + 2 ^ k : Int) : ℚ) / ((2 ^ (k + 1) : Nat) : ℚ) := by
    rw [show (k + 1 : Int) = ((k + 1 : Nat) : Int) by norm_cast, zpow_neg, zpow_natCast]
    push_cast
    rw [pow_succ]
    field_simp
  rw [rounded, hcast, Rat.floor_intCast_div_natCast]
  push_cast
  rfl

end Values

section Division

theorem two_pow_pos (k : Nat) : (0 : Int) < 2 ^ k := Int.pow_pos (by decide)

/-- Rounding takes one more bit than rounding down, and adds it. -/
theorem add_two_pow_ediv (x : Int) (k : Nat) : (x + 2 ^ k) / 2 ^ (k + 1) = (x / 2 ^ k + 1) / 2 := by
  rw [pow_succ, ← Int.ediv_ediv_of_nonneg (two_pow_pos k).le, Int.add_ediv_of_dvd_right (dvd_refl _),
    Int.ediv_self (two_pow_pos k).ne']

theorem two_pow_le_two_pow (h : w ≤ k) : (2 : Int) ^ w ≤ 2 ^ k := pow_le_pow_right₀ (by decide) h

theorem ediv_two_pow_of_lt (hlow : 0 ≤ x) (hhigh : x < 2 ^ w) (h : w ≤ k) : x / 2 ^ k = 0 :=
  Int.ediv_eq_zero_of_lt hlow (Int.lt_of_lt_of_le hhigh (two_pow_le_two_pow h))

/-- Beyond the width only the sign is left. -/
theorem ediv_two_pow_of_signed (hlow : -2 ^ w ≤ x) (hhigh : x < 2 ^ w) (h : w ≤ k) :
    x / 2 ^ k = if x < 0 then -1 else 0 := by
  have hpow := two_pow_le_two_pow h
  split_ifs with hneg
  · rw [Int.ediv_eq_iff_of_pos (two_pow_pos k)]
    omega
  · exact ediv_two_pow_of_lt (by omega) hhigh h

theorem rounded_eq_zero (hlow : -2 ^ w ≤ x) (hhigh : x < 2 ^ w) (h : w ≤ k) : rounded x (-(k + 1)) = 0 := by
  have hpow := two_pow_le_two_pow h
  rw [rounded_neg_succ]
  refine Int.ediv_eq_zero_of_lt (by omega) ?_
  rw [pow_succ]
  omega

/-- The only bit that is left counts as a half. -/
theorem rounded_top_bit (hlow : 0 ≤ x) (hhigh : x < 2 ^ (w + 1)) : rounded x (-(w + 1)) = x / 2 ^ w := by
  have hbit : x / 2 ^ w < 2 := by
    rw [pow_succ, Int.mul_comm] at hhigh
    exact Int.ediv_lt_of_lt_mul (two_pow_pos w) hhigh
  have hnonneg : 0 ≤ x / 2 ^ w := Int.ediv_nonneg hlow (two_pow_pos w).le
  rw [rounded_neg_succ, add_two_pow_ediv]
  omega

theorem ediv_range (hlow : -2 ^ w ≤ x) (hhigh : x < 2 ^ w) (k : Nat) : -2 ^ w ≤ x / 2 ^ k ∧ x / 2 ^ k < 2 ^ w := by
  have hk := two_pow_pos k
  have hw := two_pow_pos w
  rw [Int.le_ediv_iff_mul_le hk, Int.ediv_lt_iff_lt_mul hk]
  have hmul : 2 ^ w * 1 ≤ 2 ^ w * (2 : Int) ^ k := Int.mul_le_mul_of_nonneg_left hk hw.le
  rw [Int.neg_mul]
  omega

/-- Rounding stays in a range that is symmetric up to one. -/
theorem rounded_range (hlow : -2 ^ w ≤ x) (hhigh : x < 2 ^ w) (k : Nat) :
    -2 ^ w ≤ rounded x (-(k + 1)) ∧ rounded x (-(k + 1)) < 2 ^ w := by
  obtain ⟨hqlow, hqhigh⟩ := ediv_range hlow hhigh k
  have hw := two_pow_pos w
  rw [rounded_neg_succ, add_two_pow_ediv]
  omega

theorem rounded_nonneg (h : 0 ≤ x) (k : Nat) : 0 ≤ rounded x (-(k + 1)) := by
  rw [rounded_neg_succ]
  exact Int.ediv_nonneg (by have hk := two_pow_pos k; omega) (two_pow_pos (k + 1)).le

end Division

end Scaling
