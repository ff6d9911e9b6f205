import IDeviceEmulator.Timer.Ptimer

namespace IDeviceEmulator.Timer.Ptimer

variable {s : PtimerState} {now : Int64}

section Falling

/-- Where the remaining time falls below a power of two the divisor gets one more bit. The count is
steady if none of these bits makes up for more than the time that has gone. -/
def Steady (s : PtimerState) (now : Int64) : Prop :=
  s.enabled ≠ .disabled → ∀ shift < clz64 s.period.toUInt64, now.toInt + 2 ^ (63 - shift) ≤ s.nextEvent.toInt →
    let divisor := Division.divisor 32 (fixedPeriod s.period.toUInt64 s.periodFrac)
    divisor (shift + 1) + 1 = 2 * divisor shift →
      2 ^ 63 / divisor shift + 1 + 2 * (2 ^ 63 % divisor shift) < 2 * divisor shift + 2 ^ (shift + 1)

theorem Inv.count_toNat (h : Inv s now) (hrun : s.enabled ≠ .disabled) {t : Int64} (hle : t ≤ s.nextEvent) :
    (ptimerGetCount s t).toNat = Division.count 32 64 (fixedPeriod s.period.toUInt64 s.periodFrac)
      (clz64 s.period.toUInt64) (s.nextEvent - t).toUInt64.toNat := by
  have hperiod := (h.running hrun).1
  have hnot : ¬ (t > s.nextEvent ∨ s.period = 0) := by
    rintro (hlt | hzero)
    · exact Int64.not_lt.mpr hle hlt
    · exact hperiod hzero
  rw [ptimerGetCount, if_pos hrun, if_neg hnot, scaledCount_toNat _ (toUInt64_ne_zero hperiod) h.frac_toNat]

theorem toNat_sub {t e : Int64} (ht : 0 ≤ t) (hle : t ≤ e) : (e - t).toUInt64.toNat = (e.toInt - t.toInt).toNat := by
  rw [Int64.le_iff_toInt_le] at ht hle
  have hzero : (0 : Int64).toInt = 0 := rfl
  rw [hzero, toInt_eq t] at ht
  rw [toInt_eq t, toInt_eq e] at hle
  rw [Int64.toUInt64_sub, UInt64.toNat_sub, toInt_eq t, toInt_eq e]
  have ht' := t.toUInt64.toNat_lt
  have he' := e.toUInt64.toNat_lt
  split_ifs at ht hle ⊢ <;> omega

theorem Inv.steady_iff (h : Inv s now) (hrun : s.enabled ≠ .disabled) : Steady s now ↔
    ∀ a b, a ≤ b → b ≤ (s.nextEvent.toInt - now.toInt).toNat →
      Division.count 32 64 (fixedPeriod s.period.toUInt64 s.periodFrac) (clz64 s.period.toUInt64) a ≤
        Division.count 32 64 (fixedPeriod s.period.toUInt64 s.periodFrac) (clz64 s.period.toUInt64) b := by
  have hdiv := toUInt64_ne_zero (h.running hrun).1
  have hbits : clz64 s.period.toUInt64 < 64 := by
    rw [clz64, if_pos hdiv]
    omega
  have hclock : 0 ≤ now.toInt := Int64.le_iff_toInt_le.mp h.clock
  have hnext := s.nextEvent.toInt_lt
  rw [Division.count_mono_iff 32 _ (fixedPeriod_pos hdiv s.periodFrac) hbits (by omega)]
  have hreach (shift : Nat) : now.toInt + 2 ^ (63 - shift) ≤ s.nextEvent.toInt ↔
      2 ^ (64 - 1 - shift) ≤ (s.nextEvent.toInt - now.toInt).toNat := by
    have hpos := Nat.two_pow_pos (63 - shift)
    have hcast : ((2 ^ (63 - shift) : Nat) : Int) = 2 ^ (63 - shift) := by push_cast; rfl
    rw [← hcast, show 64 - 1 - shift = 63 - shift from rfl]
    generalize 2 ^ (63 - shift) = pow at hpos ⊢
    omega
  unfold Steady
  simp only [hreach]
  exact ⟨fun hsteady ↦ hsteady hrun, fun hsteady _ ↦ hsteady⟩

-- The time at which so much remains.
theorem exists_time {e : Int64} {r : Nat} (hclock : 0 ≤ now) (hpos : 0 < r) (hr : r ≤ (e.toInt - now.toInt).toNat) :
    ∃ t, now ≤ t ∧ t < e ∧ (e - t).toUInt64.toNat = r := by
  have hnow : 0 ≤ now.toInt := Int64.le_iff_toInt_le.mp hclock
  have he := e.toInt_lt
  have ht : (Int64.ofInt (e.toInt - r)).toInt = e.toInt - r := Int64.toInt_ofInt_of_le (by omega) (by omega)
  have hle : now ≤ Int64.ofInt (e.toInt - r) := by
    rw [Int64.le_iff_toInt_le, ht]
    omega
  have hlt : Int64.ofInt (e.toInt - r) < e := by
    rw [Int64.lt_iff_toInt_lt, ht]
    omega
  refine ⟨_, hle, hlt, ?_⟩
  rw [toNat_sub (Int64.le_trans hclock hle) (Int64.le_of_lt hlt), ht]
  omega

theorem Inv.falls_iff (h : Inv s now) :
    (∀ t₁ t₂, now ≤ t₁ → t₁ ≤ t₂ → t₂ < s.nextEvent → ptimerGetCount s t₂ ≤ ptimerGetCount s t₁) ↔ Steady s now := by
  by_cases hrun : s.enabled ≠ .disabled
  · rw [h.steady_iff hrun]
    constructor
    · intro hfalls a b hab hb
      rcases Nat.eq_zero_or_pos a with rfl | ha
      · rw [Division.count, Division.quotient, Nat.zero_mul, Nat.zero_div]
        exact Nat.zero_le _
      · obtain ⟨t₁, hnow₁, hnext₁, hrem₁⟩ := exists_time h.clock (ha.trans_le hab) hb
        obtain ⟨t₂, hnow₂, hnext₂, hrem₂⟩ := exists_time h.clock ha (hab.trans hb)
        have h₁₂ : t₁ ≤ t₂ := by
          rw [toNat_sub (Int64.le_trans h.clock hnow₁) (Int64.le_of_lt hnext₁)] at hrem₁
          rw [toNat_sub (Int64.le_trans h.clock hnow₂) (Int64.le_of_lt hnext₂)] at hrem₂
          rw [Int64.le_iff_toInt_le]
          omega
        have hle := UInt64.le_iff_toNat_le.mp (hfalls t₁ t₂ hnow₁ h₁₂ hnext₂)
        rwa [h.count_toNat hrun (Int64.le_of_lt hnext₁), h.count_toNat hrun (Int64.le_of_lt hnext₂), hrem₁,
          hrem₂] at hle
    · intro hcount t₁ t₂ hnow h₁₂ hnext
      have hnext₂ := Int64.le_of_lt hnext
      have hnow₂ := Int64.le_trans hnow h₁₂
      have hnext₁ := Int64.le_trans h₁₂ hnext₂
      rw [UInt64.le_iff_toNat_le, h.count_toNat hrun hnext₁, h.count_toNat hrun hnext₂,
        toNat_sub (Int64.le_trans h.clock hnow) hnext₁, toNat_sub (Int64.le_trans h.clock hnow₂) hnext₂]
      rw [Int64.le_iff_toInt_le] at hnow h₁₂
      exact hcount _ _ (by omega) (by omega)
  · refine iff_of_true ?_ fun hnot ↦ absurd hnot hrun
    intro t₁ t₂ _ _ _
    rw [ptimerGetCount, ptimerGetCount, if_neg hrun, if_neg hrun]
    exact UInt64.le_refl _

theorem count_falls_iff (h : Reachable ByFrequency s now) :
    (∀ t₁ t₂, now ≤ t₁ → t₁ ≤ t₂ → t₂ < s.nextEvent → ptimerGetCount s t₂ ≤ ptimerGetCount s t₁) ↔ Steady s now :=
  (h.mono fun _ ↦ Positive.of_byFrequency).inv.falls_iff

theorem count_falls_iff_started :
    (∀ t₁ t₂, 0 ≤ t₁ → t₁ ≤ t₂ → t₂ < (started 6012954216).nextEvent →
      ptimerGetCount (started 6012954216) t₂ ≤ ptimerGetCount (started 6012954216) t₁) ↔
        Steady (started 6012954216) 0 :=
  count_falls_iff (reachable_started 6012954216)

theorem not_count_falls : ¬ ∀ s now, Reachable ByFrequency s now → ∀ t₁ t₂, now ≤ t₁ → t₁ ≤ t₂ → t₂ < s.nextEvent →
    ptimerGetCount s t₂ ≤ ptimerGetCount s t₁ := by
  intro h
  have hfalls := h _ _ (reachable_started 6012954216) ((started 6012954216).nextEvent - 2 ^ 33)
    ((started 6012954216).nextEvent - 2 ^ 33 + 1)
  exact absurd hfalls (by decide)

end Falling

end IDeviceEmulator.Timer.Ptimer
