import Mathlib.Data.Nat.Log
import Mathlib.Tactic.Common
import Mathlib.Tactic.Ring

namespace Division

/-- The zeros before the highest bit of a number in a word. -/
def leading (w rem : Nat) : Nat := if rem = 0 then w else w - 1 - rem.log2

/-- A divisor with some bits behind the point, scaled by a power of two and rounded up. -/
def divisor (bits p s : Nat) : Nat := (p * 2 ^ s + (2 ^ bits - 1)) / 2 ^ bits

def quotient (bits p s rem : Nat) : Nat := rem * 2 ^ s / divisor bits p s

/-- The quotient at the largest scale that keeps the bits of the dividend, up to a bound. -/
def count (bits w p c rem : Nat) : Nat := quotient bits p (min (leading w rem) c) rem

variable {bits w p c s rem : Nat}

section Leading

theorem le_leading_iff (hrem : rem < 2 ^ w) (hs : s ≤ w) : s ≤ leading w rem ↔ rem < 2 ^ (w - s) := by
  unfold leading
  split_ifs with hzero
  · rw [hzero]
    exact iff_of_true hs (Nat.two_pow_pos _)
  · have hlog := (Nat.log2_lt hzero).mpr hrem
    rw [← Nat.log2_lt hzero]
    omega

theorem leading_le (w rem : Nat) : leading w rem ≤ w := by
  unfold leading
  split_ifs <;> omega

theorem mul_two_pow_lt (hrem : rem < 2 ^ w) (h : s ≤ leading w rem) : rem * 2 ^ s < 2 ^ w := by
  have hs := h.trans (leading_le w rem)
  calc rem * 2 ^ s < 2 ^ (w - s) * 2 ^ s :=
        Nat.mul_lt_mul_of_pos_right ((le_leading_iff hrem hs).mp h) (Nat.two_pow_pos s)
    _ = 2 ^ w := by rw [← pow_add, Nat.sub_add_cancel hs]

theorem leading_two_pow (w k : Nat) : leading w (2 ^ k) = w - 1 - k := by
  rw [leading, if_neg (Nat.two_pow_pos k).ne', Nat.log2_two_pow]

theorem leading_pred_two_pow (w k : Nat) : leading w (2 ^ (k + 1) - 1) = w - 1 - k := by
  have hpos := Nat.two_pow_pos k
  have hzero : 2 ^ (k + 1) - 1 ≠ 0 := by
    rw [pow_succ]
    omega
  have hlog : (2 ^ (k + 1) - 1).log2 = k := by
    rw [Nat.log2_eq_iff hzero, pow_succ]
    omega
  rw [leading, if_neg hzero, hlog]

end Leading

section Divisor

theorem le_divisor_mul (bits p s : Nat) : p * 2 ^ s ≤ divisor bits p s * 2 ^ bits := by
  have hpos := Nat.two_pow_pos bits
  have hdiv := Nat.lt_div_mul_add (a := p * 2 ^ s + (2 ^ bits - 1)) hpos
  unfold divisor
  omega

theorem divisor_mul_lt (bits p s : Nat) : divisor bits p s * 2 ^ bits < p * 2 ^ s + 2 ^ bits := by
  have hpos := Nat.two_pow_pos bits
  have hdiv := Nat.div_mul_le_self (p * 2 ^ s + (2 ^ bits - 1)) (2 ^ bits)
  unfold divisor
  omega

theorem divisor_pos (bits s : Nat) (hp : 0 < p) : 0 < divisor bits p s := by
  by_contra hzero
  have hle := le_divisor_mul bits p s
  rw [Nat.eq_zero_of_not_pos hzero, Nat.zero_mul] at hle
  exact absurd hle (Nat.not_le.mpr (Nat.mul_pos hp (Nat.two_pow_pos s)))

theorem divisor_succ (bits p s : Nat) : divisor bits p (s + 1) = 2 * divisor bits p s ∨
    divisor bits p (s + 1) + 1 = 2 * divisor bits p s := by
  have hlow := le_divisor_mul bits p s
  have hhigh := divisor_mul_lt bits p s
  have hlow' := le_divisor_mul bits p (s + 1)
  have hhigh' := divisor_mul_lt bits p (s + 1)
  have hdouble : p * 2 ^ (s + 1) = 2 * (p * 2 ^ s) := by rw [pow_succ]; ring
  have hle : divisor bits p (s + 1) < 2 * divisor bits p s + 1 := by
    refine Nat.lt_of_mul_lt_mul_right (a := 2 ^ bits) ?_
    rw [Nat.add_mul, Nat.mul_assoc]
    omega
  have hge : 2 * divisor bits p s < divisor bits p (s + 1) + 2 := by
    refine Nat.lt_of_mul_lt_mul_right (a := 2 ^ bits) ?_
    rw [Nat.add_mul, Nat.mul_assoc]
    omega
  omega

theorem quotient_mul_le (bits p s rem : Nat) : quotient bits p s rem * p ≤ rem * 2 ^ bits := by
  have hquotient : quotient bits p s rem * divisor bits p s ≤ rem * 2 ^ s := Nat.div_mul_le_self _ _
  refine Nat.le_of_mul_le_mul_right ?_ (Nat.two_pow_pos s)
  calc quotient bits p s rem * p * 2 ^ s = quotient bits p s rem * (p * 2 ^ s) := Nat.mul_assoc _ _ _
    _ ≤ quotient bits p s rem * (divisor bits p s * 2 ^ bits) := Nat.mul_le_mul_left _ (le_divisor_mul bits p s)
    _ = quotient bits p s rem * divisor bits p s * 2 ^ bits := (Nat.mul_assoc _ _ _).symm
    _ ≤ rem * 2 ^ s * 2 ^ bits := Nat.mul_le_mul_right _ hquotient
    _ = rem * 2 ^ bits * 2 ^ s := Nat.mul_right_comm _ _ _

end Divisor

section Steps

-- Where the scale steps up with the dividend just below a power of two, a divisor that was rounded up
-- is too large by one in twice as many, and the quotient must not gain more than the dividend loses.
theorem quotient_step_iff (bits : Nat) (hp : 0 < p) (hs : s + 1 < w) :
    quotient bits p (s + 1) (2 ^ (w - 1 - s) - 1) ≤ quotient bits p s (2 ^ (w - 1 - s)) ↔
      (divisor bits p (s + 1) + 1 = 2 * divisor bits p s →
        2 ^ (w - 1) / divisor bits p s + 1 + 2 * (2 ^ (w - 1) % divisor bits p s) <
          2 * divisor bits p s + 2 ^ (s + 1)) := by
  have hd := divisor_pos bits s hp
  have hd' := divisor_pos bits (s + 1) hp
  have htop : 2 ^ (w - 1 - s) * 2 ^ s = 2 ^ (w - 1) := by
    rw [← pow_add]
    congr 1
    omega
  have hbelow : (2 ^ (w - 1 - s) - 1) * 2 ^ (s + 1) + 2 ^ (s + 1) = 2 * 2 ^ (w - 1) := by
    have hone : 1 ≤ 2 ^ (w - 1 - s) := Nat.two_pow_pos _
    rw [Nat.sub_mul, Nat.one_mul, Nat.sub_add_cancel (Nat.le_mul_of_pos_left _ hone), pow_succ 2 s, ← Nat.mul_assoc,
      htop, Nat.mul_comm]
  unfold quotient
  rw [htop]
  generalize 2 ^ (w - 1) = top at hbelow ⊢
  generalize (2 ^ (w - 1 - s) - 1) * 2 ^ (s + 1) = below at hbelow ⊢
  have hsucc := divisor_succ bits p s
  generalize divisor bits p s = d at hd hsucc ⊢
  generalize divisor bits p (s + 1) = d' at hd' hsucc ⊢
  rcases hsucc with heven | hodd
  · have hle : below / d' ≤ top / d := by
      rw [heven, ← Nat.mul_div_mul_left top d (by decide : 0 < 2)]
      exact Nat.div_le_div_right ((Nat.le_add_right _ _).trans hbelow.le)
    refine iff_of_true hle ?_
    intro hodd
    omega
  · have hsplit := Nat.div_add_mod top d
    have hproduct : (top / d + 1) * d' + (top / d + 1) = 2 * (d * (top / d)) + 2 * d := by
      calc (top / d + 1) * d' + (top / d + 1) = (top / d + 1) * (d' + 1) := by ring
        _ = (top / d + 1) * (2 * d) := by rw [hodd]
        _ = 2 * (d * (top / d)) + 2 * d := by ring
    rw [← Nat.lt_succ_iff, Nat.succ_eq_add_one, Nat.div_lt_iff_lt_mul hd']
    constructor
    · intro hlt _
      omega
    · intro h
      have hlt := h hodd
      omega

theorem quotient_mono {rem' : Nat} (h : rem ≤ rem') : quotient bits p s rem ≤ quotient bits p s rem' :=
  Nat.div_le_div_right (Nat.mul_le_mul_right _ h)

-- The scale changes only at a power of two.
theorem leading_succ (hc : c < w) (hrem : rem + 1 < 2 ^ w)
    (h : min (leading w (rem + 1)) c < min (leading w rem) c) :
    ∃ s < c, rem + 1 = 2 ^ (w - 1 - s) ∧ min (leading w (rem + 1)) c = s ∧ min (leading w rem) c = s + 1 := by
  obtain ⟨s, hs⟩ : ∃ s, leading w (rem + 1) = s := ⟨_, rfl⟩
  have hsc : s < c := by omega
  have hlt : rem < 2 ^ (w - 1 - s) := by
    have hlow := (le_leading_iff (s := s + 1) (by omega : rem < 2 ^ w) (by omega)).mp (by omega)
    rwa [Nat.sub_add_eq, Nat.sub_right_comm] at hlow
  have hge : 2 ^ (w - 1 - s) ≤ rem + 1 := by
    by_contra hlow
    have hle := (le_leading_iff (s := s + 1) hrem (by omega)).mpr (by
      rw [Nat.sub_add_eq, Nat.sub_right_comm]
      omega)
    omega
  have hnext : ¬ s + 2 ≤ leading w rem := by
    intro hle
    have hlow := (le_leading_iff (by omega : rem < 2 ^ w) (hle.trans (leading_le w rem))).mp hle
    have hhalf : 2 ^ (w - 1 - s) = 2 * 2 ^ (w - (s + 2)) := by
      rw [← pow_succ']
      congr 1
      have := leading_le w rem
      omega
    have hpos := Nat.two_pow_pos (w - (s + 2))
    omega
  exact ⟨s, hsc, by omega, by omega, by omega⟩

theorem leading_mono (hrem : rem + 1 < 2 ^ w) : leading w (rem + 1) ≤ leading w rem := by
  have hle := leading_le w (rem + 1)
  rw [le_leading_iff (by omega) hle]
  have hlt := (le_leading_iff hrem hle).mp (Nat.le_refl _)
  omega

/-- The count falls with the dividend if and only if it does so wherever the scale changes. -/
theorem count_mono_iff (bits R : Nat) (hp : 0 < p) (hc : c < w) (hR : R < 2 ^ w) :
    (∀ a b, a ≤ b → b ≤ R → count bits w p c a ≤ count bits w p c b) ↔
      ∀ s < c, 2 ^ (w - 1 - s) ≤ R → divisor bits p (s + 1) + 1 = 2 * divisor bits p s →
        2 ^ (w - 1) / divisor bits p s + 1 + 2 * (2 ^ (w - 1) % divisor bits p s) <
          2 * divisor bits p s + 2 ^ (s + 1) := by
  constructor
  · intro h s hs hle
    have hstep := h (2 ^ (w - 1 - s) - 1) (2 ^ (w - 1 - s)) (Nat.sub_le _ _) hle
    have hlow : min (leading w (2 ^ (w - 1 - s))) c = s := by
      rw [leading_two_pow]
      omega
    have hhigh : min (leading w (2 ^ (w - 1 - s) - 1)) c = s + 1 := by
      rw [show w - 1 - s = w - 2 - s + 1 by omega, leading_pred_two_pow]
      omega
    rw [count, count, hlow, hhigh] at hstep
    exact (quotient_step_iff bits hp (by omega)).mp hstep
  · intro h a b hab hb
    induction b, hab using Nat.le_induction with
    | base => exact Nat.le_refl _
    | succ b hab ih =>
      refine (ih (by omega)).trans ?_
      have hmono := leading_mono (hb.trans_lt hR)
      by_cases hstep : min (leading w (b + 1)) c < min (leading w b) c
      · obtain ⟨s, hs, hpow, hlow, hhigh⟩ := leading_succ hc (hb.trans_lt hR) hstep
        have hquotient := (quotient_step_iff bits hp (by omega)).mpr (h s hs (hpow ▸ hb))
        rw [← hpow, Nat.add_sub_cancel] at hquotient
        rwa [count, count, hlow, hhigh]
      · have hsame : min (leading w b) c = min (leading w (b + 1)) c := by omega
        rw [count, count, hsame]
        exact quotient_mono (Nat.le_succ b)

end Steps

end Division
