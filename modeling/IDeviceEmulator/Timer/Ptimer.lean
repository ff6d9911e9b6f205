import IDeviceEmulator.Library.Division

namespace IDeviceEmulator.Timer.Ptimer

inductive Enabled
  | disabled
  | periodic
  | oneshot
  deriving DecidableEq, Repr

structure PtimerState where
  enabled : Enabled
  limit : UInt64
  delta : UInt64
  periodFrac : UInt32
  period : Int64
  lastEvent : Int64
  nextEvent : Int64
  /-- Whether there is a bottom half, and whether it has been scheduled. -/
  bh : Bool
  scheduled : Bool
  /-- The time that the timer is armed for. -/
  timer : Option Int64
  deriving DecidableEq, Repr

def ptimerInit (bh : Bool) : PtimerState := ⟨.disabled, 0, 0, 0, 0, 0, 0, bh, false, none⟩

def ptimerTrigger (s : PtimerState) : PtimerState := if s.bh then { s with scheduled := true } else s

/-- The next event of a count of periods from the last one. -/
def nextEventOf (lastEvent : Int64) (delta : UInt64) (period : Int64) (periodFrac : UInt32) : Int64 :=
  let nextEvent := (lastEvent.toUInt64 + delta * period.toUInt64).toInt64
  if periodFrac ≠ 0 then (nextEvent.toUInt64 + (periodFrac.toUInt64 * delta) >>> 32).toInt64 else nextEvent

def ptimerReload (s : PtimerState) : PtimerState :=
  let s := if s.delta = 0 then { ptimerTrigger s with delta := s.limit } else s
  if s.delta = 0 ∨ s.period = 0 then { s with enabled := .disabled }
  else
    let nextEvent := nextEventOf s.nextEvent s.delta s.period s.periodFrac
    { s with lastEvent := s.nextEvent, nextEvent, timer := some nextEvent }

def ptimerTick (s : PtimerState) : PtimerState :=
  let s := { ptimerTrigger s with delta := 0 }
  if s.enabled = .oneshot then { s with enabled := .disabled } else ptimerReload s

section Count

def clz64 (val : UInt64) : Nat := if val ≠ 0 then 63 - val.toNat.log2 else 64

def shiftOf (rem div : UInt64) : Nat := min (clz64 rem) (clz64 div)

def scaledDivisor (div : UInt64) (periodFrac : UInt32) (shift : Nat) : UInt64 :=
  let div := div <<< UInt64.ofNat shift
  if 32 ≤ shift then div ||| (periodFrac.toUInt64 <<< UInt64.ofNat (shift - 32))
  else
    let div := if shift ≠ 0 then div ||| (periodFrac >>> UInt32.ofNat (32 - shift)).toUInt64 else div
    -- The bits of the fraction that are left.
    if periodFrac <<< UInt32.ofNat shift ≠ 0 then div + 1 else div

def scaledCount (rem div : UInt64) (periodFrac : UInt32) : UInt64 :=
  let shift := shiftOf rem div
  (rem <<< UInt64.ofNat shift) / scaledDivisor div periodFrac shift

-- The difference of two times is taken as it is where it fits its type.
def ptimerGetCount (s : PtimerState) (now : Int64) : UInt64 :=
  if s.enabled ≠ .disabled then
    if now > s.nextEvent ∨ s.period = 0 then 0
    else scaledCount (s.nextEvent - now).toUInt64 s.period.toUInt64 s.periodFrac
  else s.delta

end Count

section Operations

variable (now : Int64)

def reloadFrom (s : PtimerState) : PtimerState :=
  if s.enabled ≠ .disabled then ptimerReload { s with nextEvent := now } else s

def ptimerSetCount (count : UInt64) (s : PtimerState) : PtimerState := reloadFrom now { s with delta := count }

def ptimerRun (oneshot : Bool) (s : PtimerState) : PtimerState :=
  if s.enabled ≠ .disabled ∨ s.period = 0 then s
  else ptimerReload { s with enabled := if oneshot then .oneshot else .periodic, nextEvent := now }

def ptimerStop (s : PtimerState) : PtimerState :=
  if s.enabled = .disabled then s
  else { s with delta := ptimerGetCount s now, timer := none, enabled := .disabled }

def ptimerSetPeriod (period : Int64) (s : PtimerState) : PtimerState :=
  reloadFrom now { s with period, periodFrac := 0 }

def ptimerSetFreq (freq : UInt32) (s : PtimerState) : PtimerState :=
  reloadFrom now { s with
    period := Int64.ofNat (1000000000 / freq.toNat)
    periodFrac := UInt32.ofNat (1000000000 <<< 32 / freq.toNat) }

def ptimerSetLimit (limit : UInt64) (reload : Bool) (s : PtimerState) : PtimerState :=
  let s := { s with limit, delta := if reload then limit else s.delta }
  if reload then reloadFrom now s else s

end Operations

inductive Operation
  | setFreq (freq : UInt32)
  | setPeriod (period : Int64)
  | setLimit (limit : UInt64) (reload : Bool)
  | setCount (count : UInt64)
  | run (oneshot : Bool)
  | stop

def Operation.apply (now : Int64) : Operation → PtimerState → PtimerState
  | .setFreq freq => ptimerSetFreq now freq
  | .setPeriod period => ptimerSetPeriod now period
  | .setLimit limit reload => ptimerSetLimit now limit reload
  | .setCount count => ptimerSetCount now count
  | .run oneshot => ptimerRun now oneshot
  | .stop => ptimerStop now

/-- The timer and the time at some point of a run of these operations. The clock starts at zero and
does not go back, and a timer ticks at its time or later. -/
inductive Reachable (allowed : Operation → Prop) : PtimerState → Int64 → Prop
  | init (bh : Bool) : Reachable allowed (ptimerInit bh) 0
  | wait {s : PtimerState} {now later : Int64} : Reachable allowed s now → now ≤ later → Reachable allowed s later
  | operation {s : PtimerState} {now : Int64} {op : Operation} : Reachable allowed s now → allowed op →
      Reachable allowed (op.apply now s) now
  | tick {s : PtimerState} {now expire : Int64} : Reachable allowed s now → s.timer = some expire → expire ≤ now →
      Reachable allowed (ptimerTick { s with timer := none }) now

-- A frequency of zero is divided by.
def Positive : Operation → Prop
  | .setFreq freq => freq ≠ 0
  | .setPeriod period => 0 < period
  | _ => True

def ByFrequency : Operation → Prop
  | .setFreq freq => 1 ≤ freq ∧ freq ≤ 1000000000
  | .setLimit _ _ => True
  | .run _ => True
  | _ => False

variable {s : PtimerState} {now : Int64}

section Words

variable {shift : Nat}

theorem clz64_eq (val : UInt64) : clz64 val = Division.leading 64 val.toNat := by
  unfold clz64 Division.leading
  by_cases hzero : val = 0
  · subst hzero
    rfl
  · have hne : val.toNat ≠ 0 := fun h ↦ hzero (UInt64.toNat_inj.mp h)
    rw [if_pos hzero, if_neg hne]

theorem shiftOf_spec (rem : UInt64) {div : UInt64} (hdiv : div ≠ 0) :
    shiftOf rem div ≤ clz64 rem ∧ shiftOf rem div ≤ clz64 div ∧ shiftOf rem div < 64 := by
  refine ⟨Nat.min_le_left _ _, Nat.min_le_right _ _, (Nat.min_le_right _ _).trans_lt ?_⟩
  rw [clz64, if_pos hdiv]
  omega

theorem toNat_shiftLeft {v : UInt64} (hshift : shift < 64) (h : v.toNat * 2 ^ shift < 2 ^ 64) :
    (v <<< UInt64.ofNat shift).toNat = v.toNat * 2 ^ shift := by
  rw [UInt64.toNat_shiftLeft, UInt64.toNat_ofNat', Nat.mod_mod_of_dvd _ (by decide : 64 ∣ 2 ^ 64),
    Nat.mod_eq_of_lt hshift, Nat.shiftLeft_eq, Nat.mod_eq_of_lt h]

theorem shiftLeft_of_le_clz64 {v : UInt64} (hshift : shift < 64) (h : shift ≤ clz64 v) :
    (v <<< UInt64.ofNat shift).toNat = v.toNat * 2 ^ shift :=
  toNat_shiftLeft hshift (Division.mul_two_pow_lt v.toNat_lt (clz64_eq v ▸ h))

theorem frac_lt (periodFrac : UInt32) (hle : 32 ≤ shift) : periodFrac.toNat * 2 ^ (shift - 32) < 2 ^ shift := by
  calc periodFrac.toNat * 2 ^ (shift - 32) < 2 ^ 32 * 2 ^ (shift - 32) :=
        Nat.mul_lt_mul_of_pos_right periodFrac.toNat_lt (Nat.two_pow_pos _)
    _ = 2 ^ shift := by rw [← pow_add, Nat.add_sub_cancel' hle]

theorem toNat_shiftLeft_frac (periodFrac : UInt32) (hshift : shift < 64) (hle : 32 ≤ shift) :
    (periodFrac.toUInt64 <<< UInt64.ofNat (shift - 32)).toNat = periodFrac.toNat * 2 ^ (shift - 32) := by
  have hpow : 2 ^ shift ≤ 2 ^ 64 := Nat.pow_le_pow_right (by decide) hshift.le
  have hlt := (frac_lt periodFrac hle).trans_le hpow
  rw [toNat_shiftLeft (by omega), UInt32.toNat_toUInt64]
  rwa [UInt32.toNat_toUInt64]

/-- The period with 32 bits behind the point. -/
def fixedPeriod (div : UInt64) (periodFrac : UInt32) : Nat := div.toNat * 2 ^ 32 + periodFrac.toNat

theorem toNat_or {a b : UInt64} {n : Nat} (ha : a.toNat = n * 2 ^ shift) (hb : b.toNat < 2 ^ shift) :
    (a ||| b).toNat = a.toNat + b.toNat := by
  rw [UInt64.toNat_or, ha, ← Nat.shiftLeft_eq, Nat.shiftLeft_add_eq_or_of_lt hb]

theorem divisor_large (div : UInt64) (periodFrac : UInt32) (hle : 32 ≤ shift) :
    Division.divisor 32 (fixedPeriod div periodFrac) shift =
      div.toNat * 2 ^ shift + periodFrac.toNat * 2 ^ (shift - 32) := by
  obtain ⟨k, rfl⟩ := Nat.exists_eq_add_of_le hle
  rw [Nat.add_sub_cancel_left, Division.divisor, fixedPeriod]
  have hproduct : (div.toNat * 2 ^ 32 + periodFrac.toNat) * 2 ^ (32 + k) =
      2 ^ 32 * (div.toNat * 2 ^ (32 + k) + periodFrac.toNat * 2 ^ k) := by
    rw [pow_add]
    ring
  rw [hproduct]
  omega

theorem divisor_small (div : UInt64) (periodFrac : UInt32) (hlt : shift < 32) :
    Division.divisor 32 (fixedPeriod div periodFrac) shift = div.toNat * 2 ^ shift +
      periodFrac.toNat / 2 ^ (32 - shift) + if periodFrac.toNat * 2 ^ shift % 2 ^ 32 = 0 then 0 else 1 := by
  have hquotient : periodFrac.toNat / 2 ^ (32 - shift) = periodFrac.toNat * 2 ^ shift / 2 ^ 32 := by
    rw [← Nat.mul_div_mul_right _ (2 ^ (32 - shift)) (Nat.two_pow_pos shift), ← pow_add, Nat.sub_add_cancel hlt.le]
  rw [hquotient, Division.divisor, fixedPeriod, Nat.add_mul, Nat.mul_right_comm]
  generalize div.toNat * 2 ^ shift = x
  generalize periodFrac.toNat * 2 ^ shift = y
  split_ifs with hzero <;> omega

theorem toNat_or_frac {div : UInt64} (periodFrac : UInt32) (hlt : shift < 32)
    (hdiv : (div <<< UInt64.ofNat shift).toNat = div.toNat * 2 ^ shift) :
    (if shift ≠ 0 then div <<< UInt64.ofNat shift ||| (periodFrac >>> UInt32.ofNat (32 - shift)).toUInt64
      else div <<< UInt64.ofNat shift).toNat = div.toNat * 2 ^ shift + periodFrac.toNat / 2 ^ (32 - shift) := by
  have hfrac := periodFrac.toNat_lt
  split_ifs with hzero
  · have hright : (periodFrac >>> UInt32.ofNat (32 - shift)).toUInt64.toNat = periodFrac.toNat / 2 ^ (32 - shift) := by
      rw [UInt32.toNat_toUInt64, UInt32.toNat_shiftRight, UInt32.toNat_ofNat',
        Nat.mod_mod_of_dvd _ (by decide : 32 ∣ 2 ^ 32), Nat.mod_eq_of_lt (by omega), Nat.shiftRight_eq_div_pow]
    have hlow : periodFrac.toNat / 2 ^ (32 - shift) < 2 ^ shift := by
      rw [Nat.div_lt_iff_lt_mul (Nat.two_pow_pos _), ← pow_add, Nat.add_sub_cancel' hlt.le]
      exact hfrac
    rw [toNat_or hdiv (hright ▸ hlow), hright, hdiv]
  · rw [not_not.mp hzero] at hdiv ⊢
    rw [hdiv, Nat.div_eq_of_lt (by simpa using hfrac), Nat.add_zero]

theorem scaledDivisor_toNat {div : UInt64} {periodFrac : UInt32} (hshift : shift < 64) (hle : shift ≤ clz64 div)
    (hfrac : periodFrac = 0 ∨ div.toNat ≤ 1000000000) :
    (scaledDivisor div periodFrac shift).toNat = Division.divisor 32 (fixedPeriod div periodFrac) shift := by
  have hdiv := shiftLeft_of_le_clz64 hshift hle
  unfold scaledDivisor
  by_cases hlarge : 32 ≤ shift
  · have hbits := toNat_shiftLeft_frac periodFrac hshift hlarge
    have hlow := frac_lt periodFrac hlarge
    rw [if_pos hlarge, toNat_or hdiv (hbits ▸ hlow), hbits, hdiv, divisor_large div periodFrac hlarge]
  · have hsmall : shift < 32 := Nat.lt_of_not_le hlarge
    have hor := toNat_or_frac periodFrac hsmall hdiv
    have hleft : periodFrac <<< UInt32.ofNat shift = 0 ↔ periodFrac.toNat * 2 ^ shift % 2 ^ 32 = 0 := by
      rw [← UInt32.toNat_inj, UInt32.toNat_shiftLeft, UInt32.toNat_ofNat',
        Nat.mod_mod_of_dvd _ (by decide : 32 ∣ 2 ^ 32), Nat.mod_eq_of_lt hsmall, Nat.shiftLeft_eq]
      rfl
    rw [if_neg hlarge, divisor_small div periodFrac hsmall]
    dsimp only
    generalize (if shift ≠ 0 then div <<< UInt64.ofNat shift ||| (periodFrac >>> UInt32.ofNat (32 - shift)).toUInt64
      else div <<< UInt64.ofNat shift) = x at hor ⊢
    by_cases hzero : periodFrac.toNat * 2 ^ shift % 2 ^ 32 = 0
    · rw [if_pos hzero, if_neg (not_not.mpr (hleft.mpr hzero)), hor, Nat.add_zero]
    · have hbound : div.toNat ≤ 1000000000 := by
        refine hfrac.resolve_left fun hfrac ↦ hzero ?_
        rw [hfrac]
        exact (congrArg (· % 2 ^ 32) (Nat.zero_mul _)).trans rfl
      have hproduct : div.toNat * 2 ^ shift ≤ 1000000000 * 2 ^ 31 :=
        Nat.mul_le_mul hbound (Nat.pow_le_pow_right (by decide) (Nat.le_of_lt_succ hsmall))
      have hquotient := Nat.div_le_self periodFrac.toNat (2 ^ (32 - shift))
      have hlt := periodFrac.toNat_lt
      have hone : (1 : UInt64).toNat = 1 := rfl
      rw [if_neg hzero, if_pos (mt hleft.mp hzero), UInt64.toNat_add, hor, hone, Nat.mod_eq_of_lt (by omega)]

theorem scaledCount_toNat (rem : UInt64) {div : UInt64} {periodFrac : UInt32} (hdiv : div ≠ 0)
    (hfrac : periodFrac = 0 ∨ div.toNat ≤ 1000000000) :
    (scaledCount rem div periodFrac).toNat =
      Division.count 32 64 (fixedPeriod div periodFrac) (clz64 div) rem.toNat := by
  obtain ⟨hrem, hdivisor, hlt⟩ := shiftOf_spec rem hdiv
  rw [scaledCount, UInt64.toNat_div, shiftLeft_of_le_clz64 hlt hrem, scaledDivisor_toNat hlt hdivisor hfrac,
    Division.count, Division.quotient, ← clz64_eq]
  rfl

end Words

section Invariant

/-- What the operations keep: only a frequency leaves a fraction, and a running timer expires at the
end of its count. -/
structure Inv (s : PtimerState) (now : Int64) : Prop where
  clock : 0 ≤ now
  period : 0 ≤ s.period
  frac : s.periodFrac = 0 ∨ s.period ≤ 1000000000
  running : s.enabled ≠ .disabled → s.period ≠ 0 ∧ s.lastEvent ≤ now ∧
    s.nextEvent = nextEventOf s.lastEvent s.delta s.period s.periodFrac
  armed : ∀ expire, s.timer = some expire → expire = s.nextEvent ∨ s.nextEvent ≤ now

@[simp] theorem ptimerTrigger_period (s : PtimerState) : (ptimerTrigger s).period = s.period := by
  unfold ptimerTrigger
  split_ifs <;> rfl

@[simp] theorem ptimerTrigger_periodFrac (s : PtimerState) : (ptimerTrigger s).periodFrac = s.periodFrac := by
  unfold ptimerTrigger
  split_ifs <;> rfl

@[simp] theorem ptimerTrigger_nextEvent (s : PtimerState) : (ptimerTrigger s).nextEvent = s.nextEvent := by
  unfold ptimerTrigger
  split_ifs <;> rfl

@[simp] theorem ptimerTrigger_timer (s : PtimerState) : (ptimerTrigger s).timer = s.timer := by
  unfold ptimerTrigger
  split_ifs <;> rfl

theorem inv_reload (hclock : 0 ≤ now) (hperiod : 0 ≤ s.period) (hfrac : s.periodFrac = 0 ∨ s.period ≤ 1000000000)
    (hnext : s.nextEvent ≤ now) : Inv (ptimerReload s) now := by
  obtain ⟨r, hr, hfields⟩ : ∃ r, (if s.delta = 0 then { ptimerTrigger s with delta := s.limit } else s) = r ∧
      r.period = s.period ∧ r.periodFrac = s.periodFrac ∧ r.nextEvent = s.nextEvent := by
    refine ⟨_, rfl, ?_⟩
    split_ifs <;> simp
  obtain ⟨hp, hf, hn⟩ := hfields
  rw [ptimerReload, hr]
  dsimp only
  split_ifs with hstop
  · exact ⟨hclock, hp ▸ hperiod, by rwa [hp, hf], fun h ↦ absurd rfl h, fun _ _ ↦ .inr (hn ▸ hnext)⟩
  · refine ⟨hclock, hp ▸ hperiod, by rwa [hp, hf], fun _ ↦ ⟨fun h ↦ hstop (.inr h), hn ▸ hnext, rfl⟩, ?_⟩
    intro expire hexpire
    exact .inl (Option.some.inj hexpire).symm

theorem inv_reloadFrom (hclock : 0 ≤ now) (hperiod : 0 ≤ s.period)
    (hfrac : s.periodFrac = 0 ∨ s.period ≤ 1000000000)
    (harmed : ∀ expire, s.timer = some expire → expire = s.nextEvent ∨ s.nextEvent ≤ now) :
    Inv (reloadFrom now s) now := by
  unfold reloadFrom
  split_ifs with henabled
  · exact inv_reload hclock hperiod hfrac (Int64.le_refl now)
  · exact ⟨hclock, hperiod, hfrac, fun h ↦ absurd h henabled, harmed⟩

theorem period_of_le {n : Nat} (h : n ≤ 1000000000) : 0 ≤ Int64.ofNat n ∧ Int64.ofNat n ≤ 1000000000 := by
  have hvalue := Int64.toInt_ofNat_of_lt (n := n) (by omega)
  have hbound : (1000000000 : Int64).toInt = 1000000000 := rfl
  have hzero : (0 : Int64).toInt = 0 := rfl
  rw [Int64.le_iff_toInt_le, Int64.le_iff_toInt_le, hvalue, hbound, hzero]
  omega

theorem Inv.operation {op : Operation} (h : Inv s now) (hop : Positive op) : Inv (op.apply now s) now := by
  cases op with
  | setFreq freq =>
    have hperiod := period_of_le (Nat.div_le_self 1000000000 freq.toNat)
    exact inv_reloadFrom h.clock hperiod.1 (.inr hperiod.2) h.armed
  | setPeriod period => exact inv_reloadFrom h.clock (Int64.le_of_lt hop) (.inl rfl) h.armed
  | setLimit limit reload =>
    rw [Operation.apply, ptimerSetLimit]
    cases reload with
    | false => exact ⟨h.clock, h.period, h.frac, h.running, h.armed⟩
    | true => exact inv_reloadFrom h.clock h.period h.frac h.armed
  | setCount count => exact inv_reloadFrom h.clock h.period h.frac h.armed
  | run oneshot =>
    rw [Operation.apply, ptimerRun]
    by_cases hstop : s.enabled ≠ .disabled ∨ s.period = 0
    · rwa [if_pos hstop]
    · rw [if_neg hstop]
      exact inv_reload h.clock h.period h.frac (Int64.le_refl now)
  | stop =>
    rw [Operation.apply, ptimerStop]
    split_ifs with hstop
    · exact h
    · exact ⟨h.clock, h.period, h.frac, fun hrun ↦ absurd rfl hrun, nofun⟩

theorem Inv.tick (h : Inv s now) {expire : Int64} (htimer : s.timer = some expire) (hexpire : expire ≤ now) :
    Inv (ptimerTick { s with timer := none }) now := by
  have hnext : s.nextEvent ≤ now := by
    rcases h.armed expire htimer with heq | hle
    · rwa [← heq]
    · exact hle
  unfold ptimerTick
  dsimp only
  split_ifs with hone
  · refine ⟨h.clock, ?_, ?_, fun hrun ↦ absurd rfl hrun, ?_⟩
    · simpa using h.period
    · simpa using h.frac
    · simp
  · refine inv_reload h.clock ?_ ?_ ?_
    · simpa using h.period
    · simpa using h.frac
    · simpa using hnext

theorem Inv.wait (h : Inv s now) {later : Int64} (hle : now ≤ later) : Inv s later := by
  refine ⟨Int64.le_trans h.clock hle, h.period, h.frac, ?_, ?_⟩
  · intro hrun
    obtain ⟨hperiod, hlast, hnext⟩ := h.running hrun
    exact ⟨hperiod, Int64.le_trans hlast hle, hnext⟩
  · intro expire hexpire
    exact (h.armed expire hexpire).imp_right fun hnext ↦ Int64.le_trans hnext hle

theorem Reachable.inv (h : Reachable Positive s now) : Inv s now := by
  induction h with
  | init bh => exact ⟨Int64.le_refl 0, Int64.le_refl 0, .inl rfl, fun hrun ↦ absurd rfl hrun, nofun⟩
  | wait _ hle ih => exact ih.wait hle
  | operation _ hop ih => exact ih.operation hop
  | tick _ htimer hexpire ih => exact ih.tick htimer hexpire

end Invariant

section Safety

/-- The division by the period is defined for this remaining time, keeps the bits and rounds down. -/
structure DivisionSafe (s : PtimerState) (rem : UInt64) : Prop where
  divisor_ne : scaledDivisor s.period.toUInt64 s.periodFrac (shiftOf rem s.period.toUInt64) ≠ 0
  rem_kept : (rem <<< UInt64.ofNat (shiftOf rem s.period.toUInt64)).toNat =
    rem.toNat * 2 ^ shiftOf rem s.period.toUInt64
  period_kept : (s.period.toUInt64 <<< UInt64.ofNat (shiftOf rem s.period.toUInt64)).toNat =
    s.period.toUInt64.toNat * 2 ^ shiftOf rem s.period.toUInt64
  frac_kept : 32 ≤ shiftOf rem s.period.toUInt64 →
    (s.periodFrac.toUInt64 <<< UInt64.ofNat (shiftOf rem s.period.toUInt64 - 32)).toNat =
      s.periodFrac.toNat * 2 ^ (shiftOf rem s.period.toUInt64 - 32)
  rounded_down : (scaledCount rem s.period.toUInt64 s.periodFrac).toNat * fixedPeriod s.period.toUInt64 s.periodFrac ≤
    rem.toNat * 2 ^ 32

theorem toUInt64_ne_zero {a : Int64} (h : a ≠ 0) : a.toUInt64 ≠ 0 := by
  intro hzero
  have hback := congrArg UInt64.toInt64 hzero
  rw [Int64.toInt64_toUInt64] at hback
  exact h hback

theorem Inv.frac_toNat (h : Inv s now) : s.periodFrac = 0 ∨ s.period.toUInt64.toNat ≤ 1000000000 :=
  h.frac.imp_right fun hle ↦
    (UInt64.le_iff_toNat_le.mp (Int64.toUInt64_le h.period hle) : _ ≤ (1000000000 : Int64).toUInt64.toNat)

theorem fixedPeriod_pos {div : UInt64} (hdiv : div ≠ 0) (periodFrac : UInt32) : 0 < fixedPeriod div periodFrac := by
  have hne : div.toNat ≠ 0 := fun h ↦ hdiv (UInt64.toNat_inj.mp h)
  unfold fixedPeriod
  omega

theorem Inv.divisionSafe (h : Inv s now) (hperiod : s.period ≠ 0) (rem : UInt64) : DivisionSafe s rem := by
  have hdiv := toUInt64_ne_zero hperiod
  obtain ⟨hrem, hdivisor, hlt⟩ := shiftOf_spec rem hdiv
  refine ⟨?_, shiftLeft_of_le_clz64 hlt hrem, shiftLeft_of_le_clz64 hlt hdivisor,
    toNat_shiftLeft_frac s.periodFrac hlt, ?_⟩
  · intro hzero
    have hvalue := scaledDivisor_toNat hlt hdivisor h.frac_toNat
    rw [hzero] at hvalue
    exact (Division.divisor_pos 32 _ (fixedPeriod_pos hdiv s.periodFrac)).ne hvalue
  · rw [scaledCount_toNat rem hdiv h.frac_toNat]
    exact Division.quotient_mul_le _ _ _ _

theorem toInt_eq (x : Int64) : x.toInt = if 2 * x.toUInt64.toNat < 2 ^ 64 then (x.toUInt64.toNat : Int)
    else (x.toUInt64.toNat : Int) - (2 ^ 64 : Nat) :=
  BitVec.toInt_eq_toNat_cond _

theorem nextEventOf_toUInt64 (lastEvent period : Int64) (delta : UInt64) (periodFrac : UInt32) :
    (nextEventOf lastEvent delta period periodFrac).toUInt64 =
      lastEvent.toUInt64 + delta * period.toUInt64 + (periodFrac.toUInt64 * delta) >>> 32 := by
  unfold nextEventOf
  dsimp only
  split_ifs with hfrac
  · rw [UInt64.toUInt64_toInt64, UInt64.toUInt64_toInt64]
  · rw [not_not.mp hfrac, UInt64.toUInt64_toInt64]
    simp

-- What is left of the time to the next event, whatever its computation has dropped.
theorem rem_le {lastEvent period : Int64} {delta : UInt64} {periodFrac : UInt32}
    (hlast : lastEvent ≤ now) (hnext : now ≤ nextEventOf lastEvent delta period periodFrac) :
    (nextEventOf lastEvent delta period periodFrac - now).toUInt64.toNat * 2 ^ 32 ≤
      delta.toNat * fixedPeriod period.toUInt64 periodFrac := by
  have hvalue := congrArg UInt64.toNat (nextEventOf_toUInt64 lastEvent period delta periodFrac)
  generalize nextEventOf lastEvent delta period periodFrac = nextEvent at hnext hvalue ⊢
  rw [Int64.le_iff_toInt_le] at hlast hnext
  rw [toInt_eq now] at hlast hnext
  rw [toInt_eq lastEvent] at hlast
  rw [toInt_eq nextEvent] at hnext
  rw [UInt64.toNat_add, UInt64.toNat_add, UInt64.toNat_shiftRight, UInt64.toNat_mul, UInt64.toNat_mul,
    UInt32.toNat_toUInt64, Nat.shiftRight_eq_div_pow] at hvalue
  change _ = (_ + periodFrac.toNat * delta.toNat % 2 ^ 64 / 2 ^ 32) % 2 ^ 64 at hvalue
  have hperiods := Nat.mod_le (delta.toNat * period.toUInt64.toNat) (2 ^ 64)
  have hfracs := (Nat.div_mul_le_self (periodFrac.toNat * delta.toNat % 2 ^ 64) (2 ^ 32)).trans (Nat.mod_le _ _)
  rw [Int64.toUInt64_sub, UInt64.toNat_sub]
  generalize delta.toNat * period.toUInt64.toNat % 2 ^ 64 = periods at hvalue hperiods
  generalize periodFrac.toNat * delta.toNat % 2 ^ 64 / 2 ^ 32 = fracs at hvalue hfracs
  have hrem : (2 ^ 64 - now.toUInt64.toNat + nextEvent.toUInt64.toNat) % 2 ^ 64 ≤ periods + fracs := by
    have hlast' := lastEvent.toUInt64.toNat_lt
    have hnow' := now.toUInt64.toNat_lt
    split_ifs at hlast hnext <;> omega
  calc (2 ^ 64 - now.toUInt64.toNat + nextEvent.toUInt64.toNat) % 2 ^ 64 * 2 ^ 32
      ≤ (periods + fracs) * 2 ^ 32 := Nat.mul_le_mul_right _ hrem
    _ = periods * 2 ^ 32 + fracs * 2 ^ 32 := Nat.add_mul _ _ _
    _ ≤ delta.toNat * period.toUInt64.toNat * 2 ^ 32 + periodFrac.toNat * delta.toNat :=
        Nat.add_le_add (Nat.mul_le_mul_right _ hperiods) hfracs
    _ = delta.toNat * fixedPeriod period.toUInt64 periodFrac := by rw [fixedPeriod]; ring

theorem Inv.count_le (h : Inv s now) : ptimerGetCount s now ≤ s.delta := by
  unfold ptimerGetCount
  by_cases hrun : s.enabled ≠ .disabled
  · obtain ⟨hperiod, hlast, hnext⟩ := h.running hrun
    rw [if_pos hrun]
    by_cases hover : now > s.nextEvent ∨ s.period = 0
    · rw [if_pos hover]
      exact UInt64.zero_le
    · rw [if_neg hover]
      have hle : now ≤ s.nextEvent := Int64.not_lt.mp fun hlt ↦ hover (.inl hlt)
      have hrem : (s.nextEvent - now).toUInt64.toNat * 2 ^ 32 ≤
          s.delta.toNat * fixedPeriod s.period.toUInt64 s.periodFrac := by
        rw [hnext] at hle ⊢
        exact rem_le hlast hle
      have hcount := (h.divisionSafe hperiod (s.nextEvent - now).toUInt64).rounded_down
      have hpos := fixedPeriod_pos (toUInt64_ne_zero hperiod) s.periodFrac
      exact UInt64.le_iff_toNat_le.mpr (Nat.le_of_mul_le_mul_right (hcount.trans hrem) hpos)
  · rw [if_neg hrun]
    exact UInt64.le_refl _

/-- The count of a running timer is at most the exact quotient of the time that remains, and zero when none does. -/
structure CountBounded (s : PtimerState) (now : Int64) : Prop where
  quotient : s.enabled ≠ .disabled → now ≤ s.nextEvent →
    (ptimerGetCount s now).toNat * fixedPeriod s.period.toUInt64 s.periodFrac ≤
      (s.nextEvent.toInt - now.toInt).toNat * 2 ^ 32
  expired : s.enabled ≠ .disabled → s.nextEvent < now → ptimerGetCount s now = 0
  programmed : ptimerGetCount s now ≤ s.delta

/-- The time that remains fits its word. -/
theorem Inv.remaining (h : Inv s now) (hle : now ≤ s.nextEvent) :
    (s.nextEvent - now).toUInt64.toNat = (s.nextEvent.toInt - now.toInt).toNat := by
  rw [Int64.toNat_toUInt64_of_le (Int64.sub_nonneg_of_le h.clock hle), Int64.toNatClampNeg,
    Int64.toInt_sub_of_le _ _ h.clock hle]

theorem Inv.countBounded (h : Inv s now) : CountBounded s now := by
  refine ⟨fun hrun hle ↦ ?_, fun hrun hover ↦ ?_, h.count_le⟩
  · obtain ⟨hperiod, -, -⟩ := h.running hrun
    have hbefore : ¬ (now > s.nextEvent ∨ s.period = 0) := by
      rintro (hlater | hzero)
      · exact Int64.not_le.mpr hlater hle
      · exact hperiod hzero
    rw [ptimerGetCount, if_pos hrun, if_neg hbefore, ← h.remaining hle]
    exact (h.divisionSafe hperiod _).rounded_down
  · rw [ptimerGetCount, if_pos hrun, if_pos (.inl hover)]

theorem division_safe (h : Reachable Positive s now) (hperiod : 0 < s.period) :
    (∀ rem, DivisionSafe s rem) ∧ CountBounded s now :=
  ⟨h.inv.divisionSafe (Int64.lt_iff_le_and_ne.mp hperiod).2.symm, h.inv.countBounded⟩

theorem Positive.of_byFrequency {op : Operation} (h : ByFrequency op) : Positive op := by
  cases op with
  | setFreq freq =>
    intro hzero
    rw [hzero] at h
    exact absurd h.1 (by decide)
  | setPeriod period => exact h.elim
  | setLimit limit reload => trivial
  | setCount count => trivial
  | run oneshot => trivial
  | stop => trivial

theorem Reachable.mono {allowed allowed' : Operation → Prop} (hsub : ∀ op, allowed op → allowed' op)
    (h : Reachable allowed s now) : Reachable allowed' s now := by
  induction h with
  | init bh => exact .init bh
  | wait _ hle ih => exact ih.wait hle
  | operation _ hop ih => exact ih.operation (hsub _ hop)
  | tick _ htimer hexpire ih => exact ih.tick htimer hexpire

/-- A timer of 700 MHz that has just been started. -/
def started (limit : UInt64) : PtimerState :=
  ptimerRun 0 false (ptimerSetLimit 0 limit true (ptimerSetFreq 0 700000000 (ptimerInit true)))

theorem reachable_started (limit : UInt64) : Reachable ByFrequency (started limit) 0 := by
  have hfreq : ByFrequency (.setFreq 700000000) := ⟨by decide, by decide⟩
  have hany : ByFrequency (.setLimit limit true) := trivial
  have hrun : ByFrequency (.run false) := trivial
  have hset : Reachable ByFrequency (ptimerSetFreq 0 700000000 (ptimerInit true)) 0 := .operation (.init true) hfreq
  have hlimit : Reachable ByFrequency (ptimerSetLimit 0 limit true (ptimerSetFreq 0 700000000 (ptimerInit true))) 0 :=
    .operation hset hany
  exact .operation hlimit hrun

/-- At 1000 ns, 428 ns of the 1428 remain. -/
theorem division_safe_started : (∀ rem, DivisionSafe (started 1000) rem) ∧ CountBounded (started 1000) 1000 :=
  have hstarted : Reachable Positive (started 1000) 0 :=
    (reachable_started 1000).mono fun _ ↦ Positive.of_byFrequency
  division_safe (hstarted.wait (by decide)) (by decide)

end Safety

end IDeviceEmulator.Timer.Ptimer
