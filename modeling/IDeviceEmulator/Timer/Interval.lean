import IDeviceEmulator.Timer.Device

namespace IDeviceEmulator.Timer

/-- The whole part of the nanoseconds that a count takes at 24 MHz. -/
def period (count : Word) : Nat := count.toNat * 1000 / 24

theorem interval_toNat {count : Word} (h : count ≠ 0) :
    (interval count).toNat = count.toNat * 1000 % 2 ^ 32 / 24 := by
  have hlt : count.toNat * 1000 % 2 ^ 32 / 24 < 2 ^ 64 := by omega
  rw [interval, if_pos h, BitVec.toNat_setWidth, BitVec.toNat_udiv, BitVec.toNat_mul]
  exact Nat.mod_eq_of_lt hlt

/-- A product that leaves 32 bits loses at least one multiple of 2 ^ 32. -/
theorem interval_eq_period_iff {count : Word} (h : count ≠ 0) :
    (interval count).toNat = period count ↔ count.toNat * 1000 < 2 ^ 32 := by
  rw [interval_toNat h, period]
  omega

/-- A timer was set to a count from now. -/
structure Counted (now : Time) (count : Word) (tickInterval : BitVec 64) (deadline : Option (BitVec 64)) :
    Prop where
  interval : tickInterval.toNat = period count
  deadline : deadline = some (BitVec.ofNat 64 (now.val + period count))

theorem counted_interval_iff (now : Time) {count : Word} (h : count ≠ 0) :
    Counted now count (interval count) (some (BitVec.ofNat 64 now.val + interval count)) ↔
      count.toNat * 1000 < 2 ^ 32 := by
  rw [← interval_eq_period_iff h]
  refine ⟨Counted.interval, fun hexact ↦ ⟨hexact, ?_⟩⟩
  rw [← hexact, BitVec.ofNat_add, BitVec.ofNat_toNat, BitVec.setWidth_eq]

section Programming

variable (now : Time) {s : Timers} {count : Word}

theorem writeRegister_started (hall : count ≠ 0xffffffff) (h : s.status &&& timerStateStart ≠ 0) :
    write now s count timerRegister = stSetTimer now { s with timer := count } := by
  change writeRegister now s count = _
  rw [writeRegister, if_neg hall]
  exact if_pos h

theorem writeRegister2_started (hall : count ≠ 0xffffffff) (h : s.status2 &&& timerStateStart ≠ 0) :
    write now s count timerRegister2 = stSetTimer2 now { s with timer2 := count } := by
  change writeRegister2 now s count = _
  rw [writeRegister2, if_neg hall]
  exact if_pos h

theorem writeTick_starts {value : Word} (h : value &&& timerStateStart ≠ 0) :
    (write now s value timerRegisterTick).tickInterval = interval s.timer ∧
      (write now s value timerRegisterTick).stTimer = some (BitVec.ofNat 64 now.val + interval s.timer) := by
  change (writeTick now s value).tickInterval = _ ∧ (writeTick now s value).stTimer = _
  unfold writeTick
  dsimp only
  rw [if_pos h]
  split_ifs <;> exact ⟨rfl, rfl⟩

end Programming

/-- Every way to program a timer with the count gives it the exact interval, and no shorter
count takes longer. -/
structure Exact (count : Word) : Prop where
  first : ∀ (now : Time) (s : Timers), s.status &&& timerStateStart ≠ 0 →
    Counted now count (write now s count timerRegister).tickInterval (write now s count timerRegister).stTimer
  second : ∀ (now : Time) (s : Timers), s.status2 &&& timerStateStart ≠ 0 →
    Counted now count (write now s count timerRegister2).tickInterval2 (write now s count timerRegister2).stTimer2
  started : ∀ (now : Time) (s : Timers) (value : Word), s.timer = count → value &&& timerStateStart ≠ 0 →
    Counted now count (write now s value timerRegisterTick).tickInterval
      (write now s value timerRegisterTick).stTimer
  ordered : ∀ shorter : Word, shorter ≠ 0 → shorter ≤ count → interval shorter ≤ interval count

/-- The counts that are timed exactly are those of less than 4294968 ticks, on either channel. -/
theorem exact_iff {count : Word} (hzero : count ≠ 0) (hall : count ≠ 0xffffffff) :
    Exact count ↔ count.toNat * 1000 < 2 ^ 32 := by
  constructor
  · intro h
    have hfirst := h.first 0 { status := 1 } (by decide)
    rw [writeRegister_started 0 hall (by decide)] at hfirst
    exact (counted_interval_iff 0 hzero).mp hfirst
  · intro hlt
    refine ⟨fun now s hstart ↦ ?_, fun now s hstart ↦ ?_, fun now s value hcount hstart ↦ ?_,
      fun shorter hshorter hle ↦ ?_⟩
    · rw [writeRegister_started now hall hstart]
      exact (counted_interval_iff now hzero).mpr hlt
    · rw [writeRegister2_started now hall hstart]
      exact (counted_interval_iff now hzero).mpr hlt
    · obtain ⟨hinterval, hdeadline⟩ := writeTick_starts now hstart
      rw [hinterval, hdeadline, hcount]
      exact (counted_interval_iff now hzero).mpr hlt
    · have hnat : shorter.toNat ≤ count.toNat := hle
      have hlt' : shorter.toNat * 1000 < 2 ^ 32 := Nat.lt_of_le_of_lt (Nat.mul_le_mul_right 1000 hnat) hlt
      rw [BitVec.le_def, (interval_eq_period_iff hshorter).mpr hlt', (interval_eq_period_iff hzero).mpr hlt]
      exact Nat.div_le_div_right (Nat.mul_le_mul_right 1000 hnat)

theorem exact_limit : Exact 4294967 := (exact_iff (by decide) (by decide)).mpr (by decide)

/-- One tick more than the longest exact count takes 29 nanoseconds, and 24 ticks take 1000. -/
theorem exact_fails : interval 4294968 = 29 ∧ ¬Exact 4294968 := by
  refine ⟨by decide, fun h ↦ ?_⟩
  have hle := h.ordered 24 (by decide) (by decide)
  exact absurd hle (by decide)

end IDeviceEmulator.Timer
