import IDeviceEmulator.Library.Machine
import IDeviceEmulator.Timer.Device

namespace IDeviceEmulator.Timer

open Machine

/-- `qemu_run_timers` compares the deadline as a signed number. -/
def due (now : Time) (deadline : BitVec 64) : Bool := deadline.toInt ≤ now.val

section Expiry

variable (now : Time) (s : Timers)

/-- A timer is taken off the list before its callback runs. -/
def expire : Timers := if s.stTimer.any (due now) then stTick { s with stTimer := none } else s

def expire2 : Timers := if s.stTimer2.any (due now) then stTick2 { s with stTimer2 := none } else s

end Expiry

inductive Op
  | write (now : Time) (addr : Nat) (value : Word)
  | read (now : Time) (addr : Nat)
  | expire (now : Time)
  | expire2 (now : Time)

def step (s : Timers) : Op → Except Empty (Timers × Option Word)
  | .write now addr value => .ok (write now s value addr, none)
  | .read now addr => .ok ((read now s addr).1, some (read now s addr).2)
  | .expire now => .ok (expire now s, none)
  | .expire2 now => .ok (expire2 now s, none)

/-- What the two timers have in common. -/
structure Channel where
  status : Word
  armed : Bool
  irq : Bool

def Timers.first (s : Timers) : Channel := ⟨s.status, s.stTimer.isSome, s.irq⟩

def Timers.second (s : Timers) : Channel := ⟨s.status2, s.stTimer2.isSome, s.irq2⟩

/-- A started timer is armed, or it has fired and was not acknowledged. -/
def Channel.Live (c : Channel) : Prop := c.status &&& timerStateStart ≠ 0 → c.armed = true ∨ c.irq = true

instance (c : Channel) : Decidable c.Live := inferInstanceAs (Decidable (_ → _))

structure Live (s : Timers) : Prop where
  first : s.first.Live
  second : s.second.Live

/-- The second timer is started only while its interrupt is asserted, and the write does not
acknowledge it. -/
def Rearms (s : Timers) : Op → Prop
  | .write _ addr value =>
    addr = timerRegisterTick2 → value &&& timerStateStart ≠ 0 →
      s.irq2 = true ∧ value &&& timerStateManualupdate = 0
  | _ => True

section Callbacks

variable (now : Time) (s : Timers)

theorem second_stTick : (stTick s).second = s.second := by
  unfold stTick
  split_ifs <;> rfl

theorem first_stTick2 : (stTick2 s).first = s.first := by
  unfold stTick2
  split_ifs <;> rfl

theorem live_stTick : (stTick s).first.Live := by
  intro hstart
  unfold stTick at hstart ⊢
  split_ifs at hstart ⊢
  · exact .inr rfl
  · contradiction

theorem live_stTick2 : (stTick2 s).second.Live := by
  intro hstart
  unfold stTick2 at hstart ⊢
  split_ifs at hstart ⊢
  · exact .inr rfl
  · contradiction

theorem live_expire (h : Live s) : Live (expire now s) := by
  unfold expire
  split_ifs with hdue
  · refine ⟨live_stTick _, ?_⟩
    rw [second_stTick]
    exact h.second
  · exact h

theorem live_expire2 (h : Live s) : Live (expire2 now s) := by
  unfold expire2
  split_ifs with hdue
  · refine ⟨?_, live_stTick2 _⟩
    rw [first_stTick2]
    exact h.first
  · exact h

/-- A read only latches the counter. -/
theorem read_state (addr : Nat) : ∃ ticksHigh ticksLow, (read now s addr).1 = { s with ticksHigh, ticksLow } := by
  by_cases hhigh : addr = timerTicksHigh
  · refine ⟨high (ticks now), low (ticks now), ?_⟩
    rw [read, if_pos hhigh]
  · by_cases hlow : addr = timerTicksLow
    · refine ⟨s.ticksHigh, low (ticks now), ?_⟩
      rw [read, if_neg hhigh, if_pos hlow]
    · refine ⟨s.ticksHigh, s.ticksLow, ?_⟩
      simp only [read, hhigh, hlow, if_false, apply_ite Prod.fst, ite_self]

theorem live_read (addr : Nat) (h : Live s) : Live (read now s addr).1 := by
  obtain ⟨ticksHigh, ticksLow, hread⟩ := read_state now s addr
  rw [hread]
  exact ⟨h.first, h.second⟩

end Callbacks

section Writes

variable (now : Time) (s : Timers) (value : Word)

theorem second_writeTick : (writeTick now s value).second = s.second := by
  unfold writeTick
  split_ifs <;> rfl

theorem first_writeTick2 : (writeTick2 s value).first = s.first := by
  unfold writeTick2
  split_ifs <;> rfl

theorem second_writeRegister : (writeRegister now s value).second = s.second := by
  unfold writeRegister
  dsimp only
  split_ifs <;> rfl

theorem first_writeRegister2 : (writeRegister2 now s value).first = s.first := by
  unfold writeRegister2
  dsimp only
  split_ifs <;> rfl

theorem armed_writeTick (hstart : value &&& timerStateStart ≠ 0) :
    (writeTick now s value).first.armed = true := by
  unfold writeTick
  dsimp only
  rw [if_pos hstart]
  split_ifs <;> rfl

theorem live_writeTick : (writeTick now s value).first.Live :=
  fun hstart ↦ .inl (armed_writeTick now s value hstart)

theorem live_writeRegister (h : s.first.Live) : (writeRegister now s value).first.Live := by
  unfold writeRegister
  dsimp only
  split_ifs with hall hstart
  · exact h
  · exact fun _ ↦ .inl rfl
  · exact fun hstart' ↦ absurd hstart' hstart

theorem live_writeRegister2 (h : s.second.Live) : (writeRegister2 now s value).second.Live := by
  unfold writeRegister2
  dsimp only
  split_ifs with hall hstart
  · exact h
  · exact fun _ ↦ .inl rfl
  · exact fun hstart' ↦ absurd hstart' hstart

theorem second_writeTick2 : (writeTick2 s value).second =
    ⟨value, false,
      if value &&& timerStateStart = 0 ∨ value &&& timerStateManualupdate ≠ 0 then false else s.irq2⟩ := by
  unfold writeTick2
  split_ifs <;> rfl

/-- The write of the second state register leaves the timer disarmed, so that only an interrupt
that it keeps makes the channel live. -/
theorem live_writeTick2_iff : (writeTick2 s value).second.Live ↔
    (value &&& timerStateStart ≠ 0 → s.irq2 = true ∧ value &&& timerStateManualupdate = 0) := by
  rw [second_writeTick2]
  refine imp_congr_right fun hstart ↦ ?_
  replace hstart : ¬ value &&& timerStateStart = 0 := hstart
  by_cases hupdate : value &&& timerStateManualupdate = 0
  · simp only [hstart, hupdate, ne_eq, not_true_eq_false, or_self, if_false, Bool.false_eq_true, false_or, and_true]
  · simp only [hstart, hupdate, ne_eq, not_false_eq_true, or_true, if_true, Bool.false_eq_true, or_self, and_false]

end Writes

theorem live_write_iff {s : Timers} (h : Live s) (now : Time) (addr : Nat) (value : Word) :
    Live (write now s value addr) ↔ Rearms s (.write now addr value) := by
  unfold write
  by_cases hsecond : addr = timerRegisterTick2
  · subst hsecond
    have hfirst : (writeTick2 s value).first.Live := first_writeTick2 s value ▸ h.first
    have hlive := live_writeTick2_iff s value
    exact ⟨fun ht _ ↦ hlive.mp ht.second, fun hr ↦ ⟨hfirst, hlive.mpr (hr rfl)⟩⟩
  · refine iff_of_true ?_ fun haddr ↦ absurd haddr hsecond
    split_ifs
    · exact ⟨h.first, h.second⟩
    · exact ⟨live_writeTick now s value, second_writeTick now s value ▸ h.second⟩
    · exact ⟨live_writeRegister now s value h.first, second_writeRegister now s value ▸ h.second⟩
    · exact ⟨first_writeRegister2 now s value ▸ h.first, live_writeRegister2 now s value h.second⟩
    · exact h

theorem live_step_iff {s t : Timers} {op : Op} {o : Option Word} (h : Live s) (hs : step s op = .ok (t, o)) :
    Live t ↔ Rearms s op := by
  cases op with
  | write now addr value =>
    cases hs
    exact live_write_iff h now addr value
  | read now addr =>
    cases hs
    exact iff_of_true (live_read now s addr h) trivial
  | expire now =>
    cases hs
    exact iff_of_true (live_expire now s h) trivial
  | expire2 now =>
    cases hs
    exact iff_of_true (live_expire2 now s h) trivial

theorem live_reset : Live {} := ⟨by decide, by decide⟩

/-- The second timer is lost exactly by a write that starts it without an interrupt pending. -/
theorem live_throughout_iff (ops : List Op) : Throughout step Live {} ops ↔ Attempts step Rearms {} ops := by
  refine throughout_iff_attempts live_reset (fun s op t o _ hs ht ↦ live_step_iff hs ht) ?_
  intro s op hdone
  cases op with
  | write now addr value => exact hdone _ _ rfl
  | read now addr => trivial
  | expire now => trivial
  | expire2 now => trivial

theorem live_throughout_fails :
    ∃ t, Run step {} [.write 0 timerRegister2 24, .write 0 timerRegisterTick2 1] t ∧ ¬ Live t := by
  refine ⟨_, .cons rfl (.cons rfl (.nil _)), fun h ↦ ?_⟩
  exact absurd h.second (by decide)

end IDeviceEmulator.Timer
