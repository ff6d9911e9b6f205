import Mathlib.Algebra.GroupWithZero.Nat
import Mathlib.Tactic.Common

namespace IDeviceEmulator.Timer

abbrev Word := BitVec 32

/-- `vm_clock` in nanoseconds, a non-negative `int64_t`. -/
abbrev Time := Fin (2 ^ 63)

/-- `s5l8930_timer_s`, with the deadlines of the two QEMU timers while they are armed and the
levels of the two interrupt lines. -/
structure Timers where
  ticksHigh : Word := 0
  ticksLow : Word := 0
  status : Word := 0
  timer : Word := 0
  stTimer : Option (BitVec 64) := none
  stTimer2 : Option (BitVec 64) := none
  tickInterval : BitVec 64 := 0
  tickInterval2 : BitVec 64 := 0
  irq : Bool := false
  irq2 : Bool := false
  timer2 : Word := 0
  status2 : Word := 0
  val3030 : Word := 0
deriving DecidableEq

def timerStateStart : Word := 1

def timerStateManualupdate : Word := 2

def timerTicksLow : Nat := 0x00

def timerTicksHigh : Nat := 0x04

def timerRegister : Nat := 0x08

def timerRegister2 : Nat := 0x0c

def timerRegisterTick : Nat := 0x10

def timerRegisterTick2 : Nat := 0x14

/-- The counter runs at 24 ticks a microsecond. -/
def ticks (now : Time) : BitVec 64 := BitVec.ofNat 64 (now.val / 1000 * 24)

def high (x : BitVec 64) : Word := (x >>> 32).setWidth 32

def low (x : BitVec 64) : Word := x.setWidth 32

theorem toNat_high (x : BitVec 64) : (high x).toNat = x.toNat / 2 ^ 32 := by
  have hx := x.isLt
  rw [high, BitVec.toNat_setWidth, BitVec.toNat_ushiftRight, Nat.shiftRight_eq_div_pow, Nat.mod_eq_of_lt]
  omega

theorem toNat_low (x : BitVec 64) : (low x).toNat = x.toNat % 2 ^ 32 := BitVec.toNat_setWidth 32 x

theorem toNat_append (x y : Word) : (x ++ y).toNat = x.toNat * 2 ^ 32 + y.toNat := by
  have hy := y.isLt
  rw [BitVec.toNat_append, ← Nat.shiftLeft_add_eq_or_of_lt hy, Nat.shiftLeft_eq]

/-- The nanoseconds that a count takes. The product is a 32-bit one. -/
def interval (count : Word) : BitVec 64 := ((if count ≠ 0 then count else 1000) * 1000 / 24).setWidth 64

section Callbacks

variable (now : Time) (s : Timers)

def stSetTimer : Timers :=
  { s with tickInterval := interval s.timer, stTimer := some (BitVec.ofNat 64 now.val + interval s.timer) }

def stTick : Timers := if s.status &&& timerStateStart ≠ 0 then { s with irq := true } else s

def stSetTimer2 : Timers :=
  { s with tickInterval2 := interval s.timer2, stTimer2 := some (BitVec.ofNat 64 now.val + interval s.timer2) }

def stTick2 : Timers := if s.status2 &&& timerStateStart ≠ 0 then { s with irq2 := true } else s

end Callbacks

/-- `s5l8930_timer1_read`. -/
def read (now : Time) (s : Timers) (addr : Nat) : Timers × Word :=
  if addr = timerTicksHigh then
    ({ s with ticksHigh := high (ticks now), ticksLow := low (ticks now) }, high (ticks now))
  else if addr = timerTicksLow then ({ s with ticksLow := low (ticks now) }, low (ticks now))
  else if addr = 0x4000 then (s, 0x2020001)
  else if addr = timerRegister then (s, s.timer)
  else if addr = timerRegisterTick then (s, s.status)
  else if addr = timerRegister2 then (s, s.timer2)
  else if addr = timerRegisterTick2 then (s, s.status2)
  else if addr = 0x3030 then (s, s.val3030)
  else (s, 0)

section Writes

variable (now : Time) (s : Timers) (value : Word)

def writeTick : Timers :=
  let s := { s with stTimer := none }
  let s := if value &&& timerStateManualupdate ≠ 0 then { s with irq := false } else s
  let s := if value &&& timerStateStart ≠ 0 then stSetTimer now s else s
  let s :=
    if value &&& timerStateStart = 0 ∨ value &&& timerStateManualupdate ≠ 0 then { s with irq := false } else s
  { s with status := value }

def writeRegister : Timers :=
  if value = 0xffffffff then { s with timer := 0 }
  else
    let s := { s with timer := value }
    if s.status &&& timerStateStart ≠ 0 then stSetTimer now s else s

/-- Unlike the write of the first state register, this one does not set the timer. -/
def writeTick2 : Timers :=
  let s := { s with stTimer2 := none }
  let s :=
    if value &&& timerStateStart = 0 ∨ value &&& timerStateManualupdate ≠ 0 then { s with irq2 := false } else s
  { s with status2 := value }

def writeRegister2 : Timers :=
  if value = 0xffffffff then { s with timer2 := 0 }
  else
    let s := { s with timer2 := value }
    if s.status2 &&& timerStateStart ≠ 0 then stSetTimer2 now s else s

/-- `s5l8930_timer1_write`. -/
def write (addr : Nat) : Timers :=
  if addr = 0x3030 then { s with val3030 := value }
  else if addr = timerRegisterTick then writeTick now s value
  else if addr = timerRegister then writeRegister now s value
  else if addr = timerRegisterTick2 then writeTick2 s value
  else if addr = timerRegister2 then writeRegister2 now s value
  else s

end Writes

end IDeviceEmulator.Timer
