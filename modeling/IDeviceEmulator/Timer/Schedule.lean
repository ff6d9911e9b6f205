import Mathlib.Order.Fin.Basic
import IDeviceEmulator.Timer.Liveness

namespace IDeviceEmulator.Timer.S5l8900

open Machine

/-- A call of `qemu_mod_timer`, with the time that was read, the count at the last update of the
interval, and what the deadline was computed from. -/
structure Program where
  now : Time
  updated : Option Word
  baseTime : BitVec 64
  tickInterval : BitVec 64
  deadline : BitVec 64
deriving DecidableEq

/-- `s5l8900_timer_s`, with the deadline of its QEMU timer while it is armed and the level of its
interrupt line. The last two fields record the count at the last update of the interval and the
calls that set the timer. -/
structure Timer1 where
  ticksHigh : Word := 0
  ticksLow : Word := 0
  status : Word := 0
  config : Word := 0
  bcount1 : Word := 0
  bcount2 : Word := 0
  irqstat : Word := 0
  stTimer : Option (BitVec 64) := none
  bcreload : Word := 0
  freqOut : Word := 0
  tickInterval : BitVec 64 := 0
  lastTick : BitVec 64 := 0
  nextPlannedTick : BitVec 64 := 0
  baseTime : BitVec 64
  irq : Bool := false
  updated : Option Word := none
  programmed : List Program := []
deriving DecidableEq

inductive Fault
  | divisionByZero
deriving DecidableEq

def timerIrqstat : Nat := 0x10000

def timerIrqlatch : Nat := 0xf8

def timerTicksHigh : Nat := 0x80

def timerTicksLow : Nat := 0x84

def timer4 : Nat := 0xa0

def timerConfig : Nat := 0

def timerState : Nat := 0x4

def timerCountBuffer : Nat := 0x8

def timerCountBuffer2 : Nat := 0xc

def ticksPerSec : Word := 1000000000

/-- `muldiv64`, by the halves of its first operand and of its result. -/
def muldiv64 (a : BitVec 64) (b c : Word) : BitVec 64 :=
  let rl := (low a).setWidth 64 * b.setWidth 64
  let rh := (high a).setWidth 64 * b.setWidth 64
  let rh := rh + rl >>> 32
  let resHigh := low (rh / c.setWidth 64)
  let resLow := low (((rh % c.setWidth 64) <<< 32 + (rl &&& 0xffffffff)) / c.setWidth 64)
  resHigh ++ resLow

def stUpdate (s : Timer1) : Timer1 :=
  let s := { s with freqOut := 1000000000 / 100 }
  { s with
    tickInterval := muldiv64 ((if s.bcount1 < 1000 then 1000 else s.bcount1).setWidth 64) ticksPerSec s.freqOut
    nextPlannedTick := 0
    updated := some s.bcount1 }

def stSetTimer (now : Time) (s : Timer1) : Except Fault Timer1 :=
  let last := BitVec.ofNat 64 now.val - s.baseTime
  if s.tickInterval = 0 then .error .divisionByZero
  else
    let next := last + (s.tickInterval - last % s.tickInterval)
    .ok { s with
      nextPlannedTick := next
      stTimer := some (next + s.baseTime)
      lastTick := last
      programmed := s.programmed ++ [⟨now, s.updated, s.baseTime, s.tickInterval, next + s.baseTime⟩] }

def stTick (now : Time) (s : Timer1) : Except Fault Timer1 :=
  if s.status &&& timerStateStart ≠ 0 then stSetTimer now { s with irq := true }
  else .ok { s with nextPlannedTick := 0, lastTick := 0, stTimer := none }

/-- A timer is taken off the list before its callback runs. -/
def expire (now : Time) (s : Timer1) : Except Fault Timer1 :=
  if s.stTimer.any (due now) then stTick now { s with stTimer := none } else .ok s

/-- `s5l8900_timer1_read`. -/
def read (now : Time) (s : Timer1) (addr : Nat) : Timer1 × Word :=
  let ticks := BitVec.ofNat 64 now.val
  if addr = timerTicksHigh then ({ s with ticksHigh := high ticks, ticksLow := low ticks }, high ticks)
  else if addr = timerTicksLow then (s, s.ticksLow)
  else if addr = timerIrqstat then (s, s.irqstat)
  else if addr = timerIrqlatch then (s, 0xffffffff)
  else (s, 0)

section Writes

variable (now later : Time) (s : Timer1) (value : Word)

/-- A start reads the clock twice, for the base and for the first deadline. -/
def writeState : Except Fault Timer1 :=
  let s' :=
    if value &&& timerStateStart > s.status &&& timerStateStart then
      stSetTimer later (stUpdate { s with baseTime := BitVec.ofNat 64 now.val })
    else if value &&& timerStateStart < s.status &&& timerStateStart then .ok { s with stTimer := none }
    else .ok s
  s'.map fun s ↦ { s with status := value }

/-- `s5l8900_timer1_write`. -/
def write (addr : Nat) : Except Fault Timer1 :=
  if addr = timerIrqstat then .ok { s with irqstat := value }
  else if addr = timerIrqlatch then .ok { s with irq := false }
  else if addr = timer4 + timerConfig then .ok { stUpdate s with config := value }
  else if addr = timer4 + timerState then writeState now later s value
  else if addr = timer4 + timerCountBuffer then .ok { s with bcreload := value, bcount1 := value }
  else if addr = timer4 + timerCountBuffer2 then .ok { s with bcount2 := value }
  else .ok s

end Writes

/-- `s5l8900_timer_init`. -/
def init (now : Time) : Timer1 := { baseTime := BitVec.ofNat 64 now.val }

inductive Op
  | read (now : Time) (addr : Nat)
  | write (now later : Time) (addr : Nat) (value : Word)
  | expire (now : Time)

def Op.readings : Op → List Time
  | read now _ => [now]
  | write now later _ _ => [now, later]
  | expire now => [now]

def step (s : Timer1) : Op → Except Fault (Timer1 × Option Word)
  | .read now addr => .ok ((read now s addr).1, some (read now s addr).2)
  | .write now later addr value => (write now later s value addr).map fun s ↦ (s, none)
  | .expire now => (expire now s).map fun s ↦ (s, none)

/-- The nanoseconds that a count takes at 10 MHz, for 1000 at least. -/
def period (count : Word) : Nat := 100 * max count.toNat 1000

/-- The deadline is the next of the times that stand whole intervals behind the base. -/
structure Program.OnSchedule (p : Program) : Prop where
  later : p.now.val < p.deadline.toNat
  within : p.deadline.toNat ≤ p.now.val + p.tickInterval.toNat
  multiple : ∃ k, p.deadline.toNat = p.baseTime.toNat + k * p.tickInterval.toNat
  interval : ∃ count, p.updated = some count ∧ p.tickInterval.toNat = period count

structure Scheduled (s : Timer1) : Prop where
  interval : ∀ count, s.updated = some count → s.tickInterval.toNat = period count
  programmed : ∀ p ∈ s.programmed, p.OnSchedule

/-- The base is not ahead of the clock, and the interval was computed before the timer is armed. -/
structure Sound (last : Time) (s : Timer1) : Prop where
  base : s.baseTime.toNat ≤ last.val
  armed : s.stTimer.isSome → s.updated.isSome
  scheduled : Scheduled s

section Arithmetic

theorem toNat_wide (x : Word) : (x.setWidth 64).toNat = x.toNat := by
  rw [BitVec.toNat_setWidth]
  exact Nat.mod_eq_of_lt (Nat.lt_trans x.isLt (by decide))

theorem toNat_wide_mul (x y : Word) : (x.setWidth 64 * y.setWidth 64).toNat = x.toNat * y.toNat := by
  have hx := x.isLt
  have hy := y.isLt
  have hlt : x.toNat * y.toNat < 2 ^ 64 :=
    Nat.lt_of_lt_of_le (Nat.mul_lt_mul'' hx hy) (by decide)
  rw [BitVec.toNat_mul, toNat_wide, toNat_wide, Nat.mod_eq_of_lt hlt]

/-- A quotient by parts: the remainder of the upper half is divided together with the lower half. -/
theorem div_halves {c : Nat} (hc : 0 < c) (r l : Nat) (hl : l < 2 ^ 32) :
    (r * 2 ^ 32 + l) / c % 2 ^ 64 = r / c % 2 ^ 32 * 2 ^ 32 + (r % c * 2 ^ 32 + l) / c ∧
      (r % c * 2 ^ 32 + l) / c < 2 ^ 32 := by
  have hmod := Nat.mod_lt r hc
  have hlow : (r % c * 2 ^ 32 + l) / c < 2 ^ 32 := by
    refine Nat.div_lt_of_lt_mul ?_
    have hle : (r % c + 1) * 2 ^ 32 ≤ c * 2 ^ 32 := Nat.mul_le_mul_right _ hmod
    omega
  have hsplit : r * 2 ^ 32 + l = c * (r / c * 2 ^ 32) + (r % c * 2 ^ 32 + l) := by
    have hr := Nat.div_add_mod r c
    calc r * 2 ^ 32 + l = (c * (r / c) + r % c) * 2 ^ 32 + l := by rw [hr]
      _ = c * (r / c * 2 ^ 32) + (r % c * 2 ^ 32 + l) := by rw [Nat.add_mul, Nat.mul_assoc, Nat.add_assoc]
  refine ⟨?_, hlow⟩
  rw [hsplit, Nat.mul_add_div hc]
  generalize (r % c * 2 ^ 32 + l) / c = low at hlow ⊢
  generalize r / c = high
  omega

section Product

variable (a : BitVec 64) (b : Word)

theorem mul_halves : a.toNat * b.toNat =
    ((high a).toNat * b.toNat + (low a).toNat * b.toNat / 2 ^ 32) * 2 ^ 32 + (low a).toNat * b.toNat % 2 ^ 32 := by
  have hsplit : a.toNat = (high a).toNat * 2 ^ 32 + (low a).toNat := by
    rw [toNat_high, toNat_low]
    omega
  have hlow := Nat.div_add_mod ((low a).toNat * b.toNat) (2 ^ 32)
  rw [hsplit, Nat.add_mul, Nat.mul_right_comm]
  omega

/-- The upper part of the product does not overflow. -/
theorem toNat_upper :
    ((high a).setWidth 64 * b.setWidth 64 + ((low a).setWidth 64 * b.setWidth 64) >>> 32).toNat =
      (high a).toNat * b.toNat + (low a).toNat * b.toNat / 2 ^ 32 := by
  have hproduct (x : Word) : x.toNat * b.toNat ≤ (2 ^ 32 - 1) * (2 ^ 32 - 1) :=
    Nat.mul_le_mul (Nat.le_pred_of_lt x.isLt) (Nat.le_pred_of_lt b.isLt)
  have hhigh := hproduct (high a)
  have hlow := hproduct (low a)
  rw [BitVec.toNat_add, BitVec.toNat_ushiftRight, toNat_wide_mul, toNat_wide_mul, Nat.shiftRight_eq_div_pow]
  omega

theorem toNat_muldiv64 {c : Word} (hc : 0 < c.toNat) :
    (muldiv64 a b c).toNat = a.toNat * b.toNat / c.toNat % 2 ^ 64 := by
  have hclt := c.isLt
  have hlower : ((low a).setWidth 64 * b.setWidth 64 &&& 0xffffffff).toNat = (low a).toNat * b.toNat % 2 ^ 32 := by
    rw [BitVec.toNat_and, toNat_wide_mul]
    exact Nat.and_two_pow_sub_one_eq_mod _ 32
  rw [mul_halves, muldiv64, toNat_append, toNat_low, toNat_low, BitVec.toNat_udiv, BitVec.toNat_udiv, toNat_upper,
    BitVec.toNat_add, BitVec.toNat_shiftLeft, BitVec.toNat_umod, toNat_upper, toNat_wide, hlower, Nat.shiftLeft_eq]
  have hl : (low a).toNat * b.toNat % 2 ^ 32 < 2 ^ 32 := Nat.mod_lt _ (by decide)
  generalize (high a).toNat * b.toNat + (low a).toNat * b.toNat / 2 ^ 32 = r
  generalize (low a).toNat * b.toNat % 2 ^ 32 = l at hl ⊢
  have hmod := Nat.mod_lt r hc
  obtain ⟨hdiv, hlt⟩ := div_halves hc r l hl
  rw [hdiv, Nat.mod_eq_of_lt (show r % c.toNat * 2 ^ 32 < 2 ^ 64 by omega),
    Nat.mod_eq_of_lt (show r % c.toNat * 2 ^ 32 + l < 2 ^ 64 by omega), Nat.mod_eq_of_lt hlt]

end Product

/-- The interval is an exact multiple of the count. -/
theorem tickInterval_stUpdate (s : Timer1) : (stUpdate s).tickInterval.toNat = period s.bcount1 := by
  have hlt := s.bcount1.isLt
  have hcount : (if s.bcount1 < 1000 then 1000 else s.bcount1).toNat = max s.bcount1.toNat 1000 := by
    split_ifs with hsmall
    · have hnat : s.bcount1.toNat < 1000 := hsmall
      rw [Nat.max_eq_right (by omega)]
      rfl
    · have hnat : ¬s.bcount1.toNat < 1000 := hsmall
      rw [Nat.max_eq_left (by omega)]
  change (muldiv64 _ ticksPerSec (1000000000 / 100)).toNat = _
  rw [toNat_muldiv64 _ _ (by decide), toNat_wide, hcount, period]
  change max s.bcount1.toNat 1000 * 1000000000 / 10000000 % 2 ^ 64 = _
  omega

theorem ofNat_time (now : Time) : (BitVec.ofNat 64 now.val).toNat = now.val := by
  have hnow := now.isLt
  rw [BitVec.toNat_ofNat]
  exact Nat.mod_eq_of_lt (by omega)

end Arithmetic

section SetTimer

variable {s : Timer1} {now last : Time}

theorem period_pos (count : Word) : 0 < period count := by
  rw [period]
  omega

theorem period_lt (count : Word) : period count < 2 ^ 39 := by
  have hcount := count.isLt
  rw [period]
  omega

/-- No step of the computation of the deadline leaves 64 bits. -/
theorem deadline_toNat {base interval : BitVec 64} (hbase : base.toNat ≤ now.val) (hpos : 0 < interval.toNat)
    (hlt : interval.toNat < 2 ^ 39) :
    ((BitVec.ofNat 64 now.val - base) + (interval - (BitVec.ofNat 64 now.val - base) % interval) + base).toNat =
      base.toNat + (now.val - base.toNat - (now.val - base.toNat) % interval.toNat) + interval.toNat := by
  have hnow := now.isLt
  have hlast : (BitVec.ofNat 64 now.val - base).toNat = now.val - base.toNat := by
    rw [BitVec.toNat_sub, ofNat_time]
    omega
  have hmod := Nat.mod_lt (now.val - base.toNat) hpos
  have hle := Nat.mod_le (now.val - base.toNat) interval.toNat
  have hrest : (interval - (BitVec.ofNat 64 now.val - base) % interval).toNat =
      interval.toNat - (now.val - base.toNat) % interval.toNat := by
    rw [BitVec.toNat_sub, BitVec.toNat_umod, hlast]
    omega
  rw [BitVec.toNat_add, BitVec.toNat_add, hlast, hrest]
  omega

theorem onSchedule_program {base interval : BitVec 64} {count : Word} (hbase : base.toNat ≤ now.val)
    (hinterval : interval.toNat = period count) :
    Program.OnSchedule ⟨now, some count, base, interval,
      (BitVec.ofNat 64 now.val - base) + (interval - (BitVec.ofNat 64 now.val - base) % interval) + base⟩ := by
  have hpos : 0 < interval.toNat := hinterval ▸ period_pos count
  have hlt : interval.toNat < 2 ^ 39 := hinterval ▸ period_lt count
  have hdeadline := deadline_toNat hbase hpos hlt
  have hmod := Nat.mod_lt (now.val - base.toNat) hpos
  have hdiv := Nat.div_add_mod (now.val - base.toNat) interval.toNat
  refine ⟨?_, ?_, ⟨(now.val - base.toNat) / interval.toNat + 1, ?_⟩, count, rfl, hinterval⟩
  · dsimp only
    omega
  · dsimp only
    omega
  · dsimp only
    rw [hdeadline, Nat.add_mul, Nat.mul_comm]
    omega

theorem sound_stSetTimer (hbase : s.baseTime.toNat ≤ now.val) (hupdated : s.updated.isSome) (h : Scheduled s) :
    ∃ t, stSetTimer now s = .ok t ∧ Sound now t := by
  obtain ⟨count, hcount⟩ := Option.isSome_iff_exists.mp hupdated
  have hinterval := h.interval count hcount
  have hne : s.tickInterval ≠ 0 := by
    intro hzero
    have hpos := period_pos count
    rw [← hinterval, hzero] at hpos
    exact absurd hpos (by decide)
  refine ⟨_, if_neg hne, hbase, fun _ ↦ hupdated, h.interval, fun p hp ↦ ?_⟩
  rcases List.mem_append.mp hp with hold | hnew
  · exact h.programmed p hold
  · rw [List.mem_singleton.mp hnew, hcount]
    exact onSchedule_program hbase hinterval

end SetTimer

section Steps

variable {s : Timer1} {now later last : Time}

theorem Sound.mono (h : Sound last s) (hle : last ≤ now) : Sound now s :=
  ⟨h.base.trans hle, h.armed, h.scheduled⟩

/-- The registers that the guest alone reads back do not matter. -/
theorem Sound.congr {t : Timer1} (h : Sound last s) (hbase : t.baseTime = s.baseTime) (htimer : t.stTimer = s.stTimer)
    (hupdated : t.updated = s.updated) (hinterval : t.tickInterval = s.tickInterval)
    (hprogrammed : t.programmed = s.programmed) : Sound last t := by
  refine ⟨hbase ▸ h.base, fun harmed ↦ ?_, fun count hcount ↦ ?_, hprogrammed ▸ h.scheduled.programmed⟩
  · rw [hupdated]
    exact h.armed (htimer ▸ harmed)
  · rw [hinterval]
    exact h.scheduled.interval count (hupdated ▸ hcount)

theorem sound_stUpdate (h : Sound last s) : Sound last (stUpdate s) := by
  refine ⟨h.base, fun _ ↦ rfl, fun count hcount ↦ ?_, h.scheduled.programmed⟩
  rw [← Option.some.inj hcount]
  exact tickInterval_stUpdate s

theorem sound_stTick (h : Sound last s) (hupdated : s.updated.isSome) (hle : last ≤ now) :
    ∃ t, stTick now s = .ok t ∧ Sound now t := by
  have hbase := (h.mono hle).base
  unfold stTick
  split_ifs
  · exact sound_stSetTimer hbase hupdated ⟨h.scheduled.interval, h.scheduled.programmed⟩
  · exact ⟨_, rfl, hbase, fun _ ↦ hupdated, h.scheduled.interval, h.scheduled.programmed⟩

theorem sound_expire (h : Sound last s) (hle : last ≤ now) : ∃ t, expire now s = .ok t ∧ Sound now t := by
  unfold expire
  split_ifs with hdue
  · have harmed : s.stTimer.isSome := Option.isSome_of_any hdue
    exact sound_stTick ⟨h.base, fun _ ↦ h.armed harmed, h.scheduled.interval, h.scheduled.programmed⟩
      (h.armed harmed) hle
  · exact ⟨s, rfl, h.mono hle⟩

theorem sound_read (h : Sound last s) (hle : last ≤ now) (addr : Nat) : Sound now (read now s addr).1 := by
  have hnow := h.mono hle
  unfold read
  dsimp only
  split_ifs
  · exact hnow.congr rfl rfl rfl rfl rfl
  all_goals exact hnow

theorem sound_writeState (h : Sound last s) (hle : last ≤ now) (hle' : now ≤ later) (value : Word) :
    ∃ t, writeState now later s value = .ok t ∧ Sound later t := by
  have hlater := h.mono (hle.trans hle')
  have hstatus {x : Except Fault Timer1} (hx : ∃ t, x = .ok t ∧ Sound later t) :
      ∃ t, (x.map fun s ↦ { s with status := value }) = .ok t ∧ Sound later t := by
    obtain ⟨t, rfl, ht⟩ := hx
    exact ⟨_, rfl, ht.congr rfl rfl rfl rfl rfl⟩
  rw [writeState]
  apply hstatus
  split_ifs
  · have hbase : (BitVec.ofNat 64 now.val).toNat ≤ later.val := (ofNat_time now).le.trans hle'
    have hrebased : Sound later { s with baseTime := BitVec.ofNat 64 now.val } :=
      ⟨hbase, h.armed, h.scheduled.interval, h.scheduled.programmed⟩
    exact sound_stSetTimer hbase rfl (sound_stUpdate hrebased).scheduled
  · exact ⟨_, rfl, hlater.base, fun harmed ↦ absurd harmed Bool.false_ne_true, h.scheduled.interval,
      h.scheduled.programmed⟩
  · exact ⟨s, rfl, hlater⟩

theorem sound_write (h : Sound last s) (hle : last ≤ now) (hle' : now ≤ later) (addr : Nat) (value : Word) :
    ∃ t, write now later s value addr = .ok t ∧ Sound later t := by
  have hlater := h.mono (hle.trans hle')
  have hupdate := sound_stUpdate hlater
  unfold write
  split_ifs
  · exact ⟨_, rfl, hlater.congr rfl rfl rfl rfl rfl⟩
  · exact ⟨_, rfl, hlater.congr rfl rfl rfl rfl rfl⟩
  · exact ⟨_, rfl, hupdate.congr rfl rfl rfl rfl rfl⟩
  · exact sound_writeState h hle hle' value
  · exact ⟨_, rfl, hlater.congr rfl rfl rfl rfl rfl⟩
  · exact ⟨_, rfl, hlater.congr rfl rfl rfl rfl rfl⟩
  · exact ⟨s, rfl, hlater⟩

theorem sound_init (now : Time) : Sound now (init now) := by
  refine ⟨(ofNat_time now).le, fun harmed ↦ absurd harmed Bool.false_ne_true, fun count hcount ↦ ?_, fun p hp ↦ ?_⟩
  · cases hcount
  · cases hp

end Steps

/-- Every run goes through, whatever is written and in whatever order. -/
theorem sound_exec {last : Time} {s : Timer1} {ops : List Op} (h : Sound last s)
    (hclock : (last :: ops.flatMap Op.readings).Pairwise (· ≤ ·)) :
    ∃ t values now, exec step s ops = .ok (t, values) ∧ Sound now t := by
  induction ops generalizing last s with
  | nil => exact ⟨s, [], last, rfl, h⟩
  | cons op ops ih =>
    obtain ⟨hfirst, hrest⟩ := List.pairwise_cons.mp hclock
    cases op with
    | read now addr =>
      have hle : last ≤ now := hfirst now List.mem_cons_self
      obtain ⟨u, values, final, hexec, hu⟩ := ih (sound_read h hle addr) hrest
      exact ⟨u, _, final, exec_cons rfl hexec, hu⟩
    | write now later addr value =>
      have hle : last ≤ now := hfirst now List.mem_cons_self
      obtain ⟨hsecond, hlater⟩ := List.pairwise_cons.mp hrest
      obtain ⟨t, hwrite, ht⟩ := sound_write h hle (hsecond later List.mem_cons_self) addr value
      obtain ⟨u, values, final, hexec, hu⟩ := ih ht hlater
      exact ⟨u, _, final, exec_cons (congrArg (Except.map _) hwrite) hexec, hu⟩
    | expire now =>
      obtain ⟨t, hexpire, ht⟩ := sound_expire h (hfirst now List.mem_cons_self)
      obtain ⟨u, values, final, hexec, hu⟩ := ih ht hrest
      exact ⟨u, _, final, exec_cons (congrArg (Except.map _) hexpire) hexec, hu⟩

/-- With a clock that never goes back nothing is divided by zero, the interval is that of the
count at its last update, and every deadline is the next multiple of it behind the base. -/
theorem schedule_kept (start : Time) {ops : List Op} (hclock : (start :: ops.flatMap Op.readings).Pairwise (· ≤ ·)) :
    ∃ s values, exec step (init start) ops = .ok (s, values) ∧ Scheduled s := by
  obtain ⟨s, values, _, hexec, hs⟩ := sound_exec (sound_init start) hclock
  exact ⟨s, values, hexec, hs.scheduled⟩

/-- A timer of 1000 ticks is started, reprogrammed while it runs, and fires late. -/
def reconfigured : List Op :=
  [.write 70 70 (timer4 + timerCountBuffer) 20, .write 80 90 (timer4 + timerState) 1,
    .write 100 100 (timer4 + timerCountBuffer) 3000, .write 110 110 (timer4 + timerConfig) 0, .expire 100500]

theorem schedule_reconfigured :
    (∃ s values, exec step (init 50) reconfigured = .ok (s, values) ∧ Scheduled s) ∧
      (exec step (init 50) reconfigured).map (fun r ↦ r.1.programmed.map Program.deadline) = .ok [100080, 300080] := by
  refine ⟨schedule_kept 50 (by decide), by decide +kernel⟩

end IDeviceEmulator.Timer.S5l8900
