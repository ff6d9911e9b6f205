import Mathlib.Tactic.Common
import Mathlib.Data.Nat.Basic
import Mathlib.Algebra.GroupWithZero.Nat

namespace IDeviceEmulator.Pl192

abbrev Word := BitVec 32

scoped instance neZeroSources : NeZero 32 := ⟨by decide⟩

/-- `PL192_DAISY_IRQ`, one past the last of the `PL192_INT_SOURCES` sources. -/
def daisyIrq : Word := 32

/-- `PL192_NO_IRQ`. -/
def noIrq : Word := 33

/-- The registers of one `pl192_state`. The wiring fields `irq`, `fiq` and `daisy`
are fixed by the position in the chain; `daisyCallback` names a controller by its
distance from the head. -/
structure State where
  irqStatus : Word := 0
  fiqStatus : Word := 0
  rawintr : Word := 0
  intselect : Word := 0
  intenable : Word := 0
  softint : Word := 0
  protection : Word := 0
  swPriorityMask : Word := 0
  vectAddr : Vector Word 32 := Vector.replicate 32 0
  vectPriority : Vector Word 32 := Vector.replicate 32 0
  address : Word := 0
  current : Word := 0
  currentHighest : Word := 0
  stackI : Nat := 0
  priorityStack : Vector Word 17 := Vector.replicate 17 0
  irqStack : Vector (BitVec 8) 17 := Vector.replicate 17 0
  priority : Word := 0
  daisyVectaddr : Word := 0
  daisyPriority : Word := 0
  daisyCallback : Option Nat := none
  daisyInput : BitVec 8 := 0
deriving DecidableEq

def reset (s : State) : State :=
  { s with
    vectPriority := Vector.replicate 32 0xf
    swPriorityMask := 0xffff
    daisyPriority := 0xf
    current := noIrq
    currentHighest := noIrq
    stackI := 0
    priorityStack := s.priorityStack.set 0 0x10
    irqStack := s.irqStack.set 0 (noIrq.setWidth 8)
    priority := 0x10 }

/-- `pl192_init1` on a zero-allocated device. -/
def init : State := reset {}

inductive Access
  | vectAddr (i : Nat)
  | vectPriority (i : Nat)
  | prioIrq (i : Nat)
  | priorityStack (i : Nat)
  | irqStack (i : Nat)
deriving DecidableEq

def Access.InRange : Access → Prop
  | .vectAddr i | .vectPriority i => i < 32
  | .prioIrq i => i < 16
  | .priorityStack i | .irqStack i => i ≤ 16

instance : DecidablePred Access.InRange
  | .vectAddr i | .vectPriority i => inferInstanceAs (Decidable (i < 32))
  | .prioIrq i => inferInstanceAs (Decidable (i < 16))
  | .priorityStack i | .irqStack i => inferInstanceAs (Decidable (i ≤ 16))

/-- `vect_priority[i]`. The words after the array are `address` and `current`, so
`vect_priority[PL192_NO_IRQ]` is `current`; no larger index is ever used. -/
def vectPriorityAt (s : State) (i : Word) : Word :=
  if h : i.toNat < 32 then s.vectPriority[i.toNat]
  else if i = daisyIrq then s.address
  else if i = noIrq then s.current
  else 0

def vectAddrAt (s : State) (i : Word) : Word :=
  if h : i.toNat < 32 then s.vectAddr[i.toNat] else 0

section Sorter

variable (s : State)

/-- The table `prio_irq` after its initialisation and the daisy input. -/
def daisyTable : Vector Word 16 :=
  let table := Vector.replicate 16 noIrq
  if s.daisyInput ≠ 0 then table.setIfInBounds s.daisyPriority.toNat daisyIrq else table

def fillSource (i : Fin 32) (table : Vector Word 16) : Vector Word 16 :=
  if s.irqStatus.getLsbD i then
    table.setIfInBounds (s.vectPriority.get i).toNat (BitVec.ofNat 32 i)
  else table

def prioIrq : Vector Word 16 := (List.finRange 32).foldr (fillSource s) (daisyTable s)

def prioritySorter : Word :=
  match (List.finRange 16).find? (fun p : Fin 16 ↦ s.swPriorityMask.getLsbD p ∧ (prioIrq s)[p] ≤ daisyIrq) with
  | some p => (prioIrq s)[p]
  | none => noIrq

def sorterAccesses : List Access :=
  (if s.daisyInput ≠ 0 then [.prioIrq s.daisyPriority.toNat] else []) ++
    (List.finRange 32).flatMap fun i : Fin 32 ↦
      if s.irqStatus.getLsbD i then [.vectPriority i, .prioIrq (s.vectPriority.get i).toNat] else []

end Sorter

def refreshStatus (s : State) : State :=
  { s with
    irqStatus := (s.rawintr ||| s.softint) &&& s.intenable &&& ~~~s.intselect
    fiqStatus := (s.rawintr ||| s.softint) &&& s.intenable &&& s.intselect }

/-- `s->irq_status || s->daisy_input`. -/
def Pending (s : State) : Prop := s.irqStatus ≠ 0 ∨ s.daisyInput ≠ 0

instance (s : State) : Decidable (Pending s) := inferInstanceAs (Decidable (_ ∨ _))

def select (s : State) : State :=
  let highest := prioritySorter s
  { s with
    currentHighest := highest
    address := if highest < 32 then vectAddrAt s highest else s.daisyVectaddr }

def selectAccesses (s : State) : List Access :=
  sorterAccesses s ++
    if prioritySorter s < 32 then
      .vectAddr (prioritySorter s).toNat ::
        if prioritySorter s ≠ s.current then [.vectPriority (prioritySorter s).toNat] else []
    else []

inductive Drive
  | silent
  | raise
  | lower
deriving DecidableEq

def driveOf (s : State) : Drive :=
  if s.currentHighest ≠ s.current then
    if s.currentHighest < 32 ∧ s.priority ≤ vectPriorityAt s s.currentHighest then .silent
    else if s.currentHighest = daisyIrq ∧ s.priority ≤ s.daisyPriority then .silent
    else if s.currentHighest ≤ daisyIrq then .raise
    else .lower
  else .silent

def currentPriority (s : State) : Word :=
  if s.current = daisyIrq then s.daisyPriority else vectPriorityAt s s.current

/-- The assignments of `pl192_mask_priority`. -/
def push (s : State) : State :=
  { s with
    stackI := s.stackI + 1
    priority := currentPriority s
    priorityStack := s.priorityStack.setIfInBounds (s.stackI + 1) (currentPriority s)
    irqStack := s.irqStack.setIfInBounds (s.stackI + 1) (s.current.setWidth 8) }

def pushAccesses (s : State) : List Access :=
  (if s.current = daisyIrq then [] else [.vectPriority s.current.toNat]) ++
    [.priorityStack (s.stackI + 1), .irqStack (s.stackI + 1)]

/-- The assignments of `pl192_unmask_priority`. -/
def pop (s : State) : State :=
  { s with
    stackI := s.stackI - 1
    priority := (s.priorityStack[s.stackI - 1]?).getD 0
    current := ((s.irqStack[s.stackI - 1]?).getD 0).setWidth 32 }

def popAccesses (s : State) : List Access :=
  [.priorityStack (s.stackI - 1), .irqStack (s.stackI - 1)]

end IDeviceEmulator.Pl192
