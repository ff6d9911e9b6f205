import Mathlib.Algebra.GroupWithZero.Nat
import Mathlib.Logic.Function.Basic
import Mathlib.Tactic.Common

namespace IDeviceEmulator.Arm

abbrev Word := BitVec 32

/-- `enum arm_cpu_mode`. -/
inductive Mode
  | usr
  | fiq
  | irq
  | svc
  | abt
  | und
  | sys
deriving DecidableEq

def Mode.bits : Mode → Word
  | usr => 0x10
  | fiq => 0x11
  | irq => 0x12
  | svc => 0x13
  | abt => 0x17
  | und => 0x1b
  | sys => 0x1f

/-- The saved register banks, in the order of their numbers. -/
inductive Bank
  | usr
  | svc
  | abt
  | und
  | irq
  | fiq
deriving DecidableEq

def Mode.bank : Mode → Bank
  | usr | sys => .usr
  | svc => .svc
  | abt => .abt
  | und => .und
  | irq => .irq
  | fiq => .fiq

section Constants

def cpsrM : Word := 0x1f
def cpsrT : Word := 0x20
def cpsrF : Word := 0x40
def cpsrI : Word := 0x80
def cpsrA : Word := 0x100
def cpsrIt27 : Word := 0xfc00
def cpsrGe : Word := 0xf0000
def cpsrIt01 : Word := 0x6000000
def cpsrQ : Word := 0x8000000
def cpsrZ : Word := 0x40000000
def cpsrNzcv : Word := 0xf0000000

/-- `CACHED_CPSR_BITS`. -/
def cachedCpsrBits : Word := cpsrT ||| cpsrGe ||| (cpsrIt01 ||| cpsrIt27) ||| cpsrQ ||| cpsrNzcv

/-- `CPU_INTERRUPT_EXITTB`. -/
def interruptExittb : Word := 4

end Constants

/-- `enum arm_features`, as far as the modelled functions ask for them. -/
inductive Feature
  | vfp
  | xscale
  | iwmmxt
  | v6k
  | v7
  | mpu
  | vfp3
  | m
  | omapcp
  | thumb2ee
deriving DecidableEq

def Feature.bit : Feature → Nat
  | vfp => 0
  | xscale => 2
  | iwmmxt => 3
  | v6k => 5
  | v7 => 6
  | mpu => 8
  | vfp3 => 9
  | m => 13
  | omapcp => 14
  | thumb2ee => 15

inductive RoundingMode
  | nearestEven
  | down
  | up
  | toZero
deriving DecidableEq

/-- `float_status`, with the exception flags as the host has them. -/
structure FloatStatus where
  roundingMode : RoundingMode := .nearestEven
  exceptionFlags : BitVec 8 := 0
  flushToZero : Bool := false
  flushInputsToZero : Bool := false
  defaultNanMode : Bool := false
deriving DecidableEq

structure Cp15 where
  c0Cpuid : Word := 0
  c0Cachetype : Word := 0
  c0Cssel : Word := 0
  c1Sys : Word := 0
  c1Coproc : Word := 0
  c1Xscaleauxcr : Word := 0
  c2Base0 : Word := 0
  c2Base1 : Word := 0
  c2Control : Word := 0
  c2Mask : Word := 0
  c2BaseMask : Word := 0
  c2Data : Word := 0
  c2Insn : Word := 0
  c3 : Word := 0
  c5Insn : Word := 0
  c5Data : Word := 0
  c6Region : Fin 8 → Word := fun _ ↦ 0
  c6Insn : Word := 0
  c6Data : Word := 0
  c7Par : Word := 0
  c9Insn : Word := 0
  c9Data : Word := 0
  c13Fcse : Word := 0
  c13Context : Word := 0
  c13Tls1 : Word := 0
  c13Tls2 : Word := 0
  c13Tls3 : Word := 0
  c15Cpar : Word := 0

structure V7m where
  otherSp : Word := 0
  vecbase : Word := 0
  basepri : Word := 0
  control : Word := 0
  currentSp : Word := 0
  exception : Word := 0

structure Vfp where
  regs : Fin 32 → BitVec 64 := fun _ ↦ 0
  xregs : Fin 16 → Word := fun _ ↦ 0
  vecLen : Word := 0
  vecStride : Word := 0
  fpStatus : FloatStatus := {}
  standardFpStatus : FloatStatus := {}

structure Iwmmxt where
  regs : Fin 16 → BitVec 64 := fun _ ↦ 0
  cregs : Fin 16 → Word := fun _ ↦ 0

/-- `CPUARMState`. -/
structure Cpu where
  regs : Fin 16 → Word := fun _ ↦ 0
  uncachedCpsr : Word := 0
  spsr : Word := 0
  bankedSpsr : Bank → Word := fun _ ↦ 0
  bankedR13 : Bank → Word := fun _ ↦ 0
  bankedR14 : Bank → Word := fun _ ↦ 0
  usrRegs : Fin 5 → Word := fun _ ↦ 0
  fiqRegs : Fin 5 → Word := fun _ ↦ 0
  cf : Word := 0
  vf : Word := 0
  nf : Word := 0
  zf : Word := 0
  qf : Word := 0
  ge : Word := 0
  thumb : Word := 0
  condexecBits : Word := 0
  cp15 : Cp15 := {}
  v7m : V7m := {}
  teecr : Word := 0
  teehbr : Word := 0
  features : Word := 0
  vfp : Vfp := {}
  iwmmxt : Iwmmxt := {}
  interruptRequest : Word := 0

def sp : Fin 16 := 13

def lr : Fin 16 := 14

def pc : Fin 16 := 15

inductive Fault
  /-- `cpu_abort` for a mode without a bank. -/
  | badMode
  /-- `cpu_abort` for an exception without a vector. -/
  | unhandled
deriving DecidableEq

def Cpu.feature (s : Cpu) (f : Feature) : Bool := s.features.getLsbD f.bit

def Cpu.mode (s : Cpu) : Word := s.uncachedCpsr &&& cpsrM

section Window

/-- `regs[8]` to `regs[12]`. -/
def window (regs : Fin 16 → Word) : Fin 5 → Word := fun i ↦ regs ⟨8 + i.val, by omega⟩

def setWindow (regs : Fin 16 → Word) (w : Fin 5 → Word) : Fin 16 → Word :=
  fun i ↦ if h : 8 ≤ i.val ∧ i.val < 13 then w ⟨i.val - 8, by omega⟩ else regs i

end Window

section Modes

variable (s : Cpu)

def bankNumber (mode : Word) : Except Fault Bank :=
  if mode = Mode.usr.bits ∨ mode = Mode.sys.bits then .ok .usr
  else if mode = Mode.svc.bits then .ok .svc
  else if mode = Mode.abt.bits then .ok .abt
  else if mode = Mode.und.bits then .ok .und
  else if mode = Mode.irq.bits then .ok .irq
  else if mode = Mode.fiq.bits then .ok .fiq
  else .error .badMode

/-- The copies of `r8` to `r12` that a switch to or from FIQ makes. -/
def swapWindow (oldMode mode : Word) : Cpu :=
  if oldMode = Mode.fiq.bits then
    { s with fiqRegs := window s.regs, regs := setWindow s.regs s.usrRegs }
  else if mode = Mode.fiq.bits then
    { s with usrRegs := window s.regs, regs := setWindow s.regs s.fiqRegs }
  else s

def saveBank (i : Bank) : Cpu :=
  { s with
    bankedR13 := Function.update s.bankedR13 i (s.regs sp)
    bankedR14 := Function.update s.bankedR14 i (s.regs lr)
    bankedSpsr := Function.update s.bankedSpsr i s.spsr }

def loadBank (i : Bank) : Cpu :=
  { s with
    regs := Function.update (Function.update s.regs sp (s.bankedR13 i)) lr (s.bankedR14 i)
    spsr := s.bankedSpsr i }

def switchMode (mode : Word) : Except Fault Cpu :=
  let oldMode := s.uncachedCpsr &&& cpsrM
  if mode = oldMode then .ok s
  else do
    let s := swapWindow s oldMode mode
    let i ← bankNumber oldMode
    let s := saveBank s i
    let i ← bankNumber mode
    return loadBank s i

end Modes

section Cpsr

variable (s : Cpu)

def cpsrRead : Word :=
  let zf : Word := if s.zf = 0 then 1 else 0
  s.uncachedCpsr ||| (s.nf &&& 0x80000000#32) ||| (zf <<< 30) ||| (s.cf <<< 29) |||
    ((s.vf &&& 0x80000000#32) >>> 3) ||| (s.qf <<< 27) ||| (s.thumb <<< 5) |||
    ((s.condexecBits &&& 3#32) <<< 25) ||| ((s.condexecBits &&& 0xfc#32) <<< 8) ||| (s.ge <<< 16)

/-- The part of `cpsr_write` before the mode. -/
def writeFlags (val mask : Word) : Cpu :=
  let condexecBits := if mask &&& cpsrIt01 ≠ 0 then
      (s.condexecBits &&& ~~~3#32) ||| ((val >>> 25) &&& 3#32)
    else s.condexecBits
  { s with
    zf := if mask &&& cpsrNzcv ≠ 0 then ~~~val &&& cpsrZ else s.zf
    nf := if mask &&& cpsrNzcv ≠ 0 then val else s.nf
    cf := if mask &&& cpsrNzcv ≠ 0 then (val >>> 29) &&& 1#32 else s.cf
    vf := if mask &&& cpsrNzcv ≠ 0 then (val <<< 3) &&& 0x80000000#32 else s.vf
    qf := if mask &&& cpsrQ ≠ 0 then (if val &&& cpsrQ ≠ 0 then 1 else 0) else s.qf
    thumb := if mask &&& cpsrT ≠ 0 then (if val &&& cpsrT ≠ 0 then 1 else 0) else s.thumb
    condexecBits := if mask &&& cpsrIt27 ≠ 0 then
        (condexecBits &&& 3#32) ||| ((val >>> 8) &&& 0xfc#32)
      else condexecBits
    ge := if mask &&& cpsrGe ≠ 0 then (val >>> 16) &&& 0xf#32 else s.ge }

def cpsrWrite (val mask : Word) : Except Fault Cpu := do
  let s := writeFlags s val mask
  let s ← if (s.uncachedCpsr ^^^ val) &&& mask &&& cpsrM ≠ 0 then switchMode s (val &&& cpsrM) else .ok s
  let mask := mask &&& ~~~cachedCpsrBits
  return { s with uncachedCpsr := (s.uncachedCpsr &&& ~~~mask) ||| (val &&& mask) }

end Cpsr

section Exceptions

variable (s : Cpu)

/-- `exception_index`. -/
inductive Exception
  | udef
  | swi
  | prefetchAbort
  | dataAbort
  | irq
  | fiq
  | bkpt
  | other (index : Int)
deriving DecidableEq

structure Entry where
  newMode : Mode
  addr : Word
  mask : Word
  offset : Word
deriving DecidableEq

/-- The cases of `do_interrupt`. Semihosting is not enabled. -/
def entry : Exception → Except Fault Entry
  | .udef => .ok ⟨.und, 0x04, cpsrI, if s.thumb ≠ 0 then 2 else 4⟩
  | .swi => .ok ⟨.svc, 0x08, cpsrI, 0⟩
  | .bkpt | .prefetchAbort => .ok ⟨.abt, 0x0c, cpsrA ||| cpsrI, 4⟩
  | .dataAbort => .ok ⟨.abt, 0x10, cpsrA ||| cpsrI, 8⟩
  | .irq => .ok ⟨.irq, 0x18, cpsrA ||| cpsrI, 4⟩
  | .fiq => .ok ⟨.fiq, 0x1c, cpsrA ||| cpsrI ||| cpsrF, 4⟩
  | .other _ => .error .unhandled

/-- The part of `do_interrupt` after the switch. -/
def enter (e : Entry) : Cpu :=
  let addr := if s.cp15.c1Sys.getLsbD 13 then e.addr + 0xffff0000 else e.addr
  let s := { s with spsr := cpsrRead s }
  let s := { s with condexecBits := 0 }
  let s := { s with uncachedCpsr := (s.uncachedCpsr &&& ~~~cpsrM) ||| e.newMode.bits }
  let s := { s with uncachedCpsr := s.uncachedCpsr ||| e.mask }
  let s := { s with thumb := if s.cp15.c1Sys.getLsbD 30 then 1 else 0 }
  let s := { s with regs := Function.update s.regs lr (s.regs pc + e.offset) }
  let s := { s with regs := Function.update s.regs pc addr }
  { s with interruptRequest := s.interruptRequest ||| interruptExittb }

/-- A microcontroller profile has an exception model of its own. -/
def doInterrupt (v7m : Cpu → Exception → Except Fault Cpu) (e : Exception) : Except Fault Cpu :=
  if s.feature .m then v7m s e
  else do
    let e ← entry s e
    let s ← switchMode s e.newMode.bits
    return enter s e

end Exceptions

section Helpers

variable (s : Cpu)

def setR13Banked (mode val : Word) : Except Fault Cpu :=
  if s.uncachedCpsr &&& cpsrM = mode then .ok { s with regs := Function.update s.regs sp val }
  else do
    let i ← bankNumber mode
    return { s with bankedR13 := Function.update s.bankedR13 i val }

def getR13Banked (mode : Word) : Except Fault Word :=
  if s.uncachedCpsr &&& cpsrM = mode then .ok (s.regs sp)
  else do
    let i ← bankNumber mode
    return s.bankedR13 i

/-- The translator asks for `r0` to `r14` only. -/
def getUserReg (regno : Fin 15) : Word :=
  if h13 : regno.val = 13 then s.bankedR13 .usr
  else if h14 : regno.val = 14 then s.bankedR14 .usr
  else if h : 8 ≤ regno.val ∧ s.uncachedCpsr &&& cpsrM = Mode.fiq.bits then
    s.usrRegs ⟨regno.val - 8, by omega⟩
  else s.regs regno.castSucc

def setUserReg (regno : Fin 15) (val : Word) : Cpu :=
  if h13 : regno.val = 13 then { s with bankedR13 := Function.update s.bankedR13 .usr val }
  else if h14 : regno.val = 14 then { s with bankedR14 := Function.update s.bankedR14 .usr val }
  else if h : 8 ≤ regno.val ∧ s.uncachedCpsr &&& cpsrM = Mode.fiq.bits then
    { s with usrRegs := Function.update s.usrRegs ⟨regno.val - 8, by omega⟩ val }
  else { s with regs := Function.update s.regs regno.castSucc val }

end Helpers

end IDeviceEmulator.Arm
