import IDeviceEmulator.Pl192.Controller

namespace IDeviceEmulator.Pl192

inductive Line
  | irq
  | fiq
deriving DecidableEq

/-- Controllers wired by `pl192_chain`: the head is number 0 and alone has parent
lines, and the `daisy` pointer of controller `k + 1` is controller `k`. The calls of
`qemu_irq_raise` and `qemu_irq_lower` and the indexed accesses are recorded, newest first. -/
structure Chain where
  ctrl : Nat → State
  lines : List (Line × Bool) := []
  trace : List Access := []

/-- How an operation can fail to return. `hw_error` aborts the emulator. -/
inductive Fault
  | hwError
  | outOfBounds
  | nullDeref
deriving DecidableEq

structure Stop where
  fault : Fault
  chain : Chain

namespace Chain

def modify (w : Chain) (k : Nat) (f : State → State) : Chain :=
  { w with ctrl := Function.update w.ctrl k (f (w.ctrl k)) }

def touch (w : Chain) (accesses : List Access) : Chain :=
  { w with trace := accesses.reverse ++ w.trace }

def drive (w : Chain) (line : Line) (level : Bool) : Chain :=
  { w with lines := (line, level) :: w.lines }

def level (w : Chain) (line : Line) : Bool :=
  match w.lines.find? (fun e ↦ e.1 = line) with
  | some e => e.2
  | none => false

end Chain

def Chain.initial : Chain := { ctrl := fun _ ↦ init }

/-- `pl192_raise` and `pl192_lower` with `is_fiq` set. -/
def driveFiq (level : Bool) : Nat → Chain → Chain
  | 0, w => w.drive .fiq level
  | k + 1, w => driveFiq level k w

/-- The body of `pl192_update`, over what raising and lowering the IRQ output does. -/
def updateWith (k : Nat) (raise lower : Chain → Chain) (w : Chain) : Chain :=
  let w := w.modify k refreshStatus
  let w := driveFiq ((w.ctrl k).fiqStatus ≠ 0) k w
  if Pending (w.ctrl k) then
    let w := (w.touch (selectAccesses (w.ctrl k))).modify k select
    match driveOf (w.ctrl k) with
    | .silent => w
    | .raise => raise w
    | .lower => lower w
  else
    lower (w.modify k fun s ↦ { s with currentHighest := noIrq })

def raiseDaisy (k : Nat) (w : Chain) : Chain :=
  w.modify k fun s ↦
    { s with
      daisyVectaddr := (w.ctrl (k + 1)).address
      daisyCallback := some (k + 1)
      daisyInput := 1 }

def lowerDaisy (k : Nat) (w : Chain) : Chain := w.modify k fun s ↦ { s with daisyInput := 0 }

/-- The head drives its parent line. Any other controller writes the daisy fields of
the next one and updates it. -/
def update : Nat → Chain → Chain
  | 0 => updateWith 0 (fun w ↦ w.drive .irq true) (fun w ↦ w.drive .irq false)
  | k + 1 => updateWith (k + 1) (fun w ↦ update k (raiseDaisy k w)) (fun w ↦ update k (lowerDaisy k w))

def maskPriority (w : Chain) (k : Nat) : Except Stop Chain :=
  if 32 ≤ (w.ctrl k).stackI then .error ⟨.hwError, w⟩
  else if (w.ctrl k).stackI + 1 ≤ 16 then .ok ((w.touch (pushAccesses (w.ctrl k))).modify k push)
  else .error ⟨.outOfBounds, w.touch (pushAccesses (w.ctrl k))⟩

def unmaskPriority (w : Chain) (k : Nat) : Except Stop Chain :=
  if (w.ctrl k).stackI < 1 then .error ⟨.hwError, w⟩
  else if (w.ctrl k).stackI - 1 ≤ 16 then .ok ((w.touch (popAccesses (w.ctrl k))).modify k pop)
  else .error ⟨.outOfBounds, w.touch (popAccesses (w.ctrl k))⟩

def onCallback (f : Chain → Nat → Except Stop Chain) (w : Chain) (k : Nat) : Except Stop Chain :=
  match (w.ctrl k).daisyCallback with
  | some j => f w j
  | none => .error ⟨.nullDeref, w⟩

/-- `pl192_irq_ack` up to its call of `pl192_update`. -/
def irqAck (w : Chain) (k : Nat) : Except Stop Chain := do
  let isDaisy := (w.ctrl k).currentHighest = daisyIrq
  let w ← maskPriority (w.modify k fun s ↦ { s with current := s.currentHighest }) k
  if isDaisy then onCallback maskPriority w k else pure w

/-- `pl192_irq_fin` up to its call of `pl192_update`. -/
def irqFin (w : Chain) (k : Nat) : Except Stop Chain := do
  let isDaisy := (w.ctrl k).current = daisyIrq
  let w ← unmaskPriority w k
  if isDaisy then onCallback unmaskPriority w k else pure w

/-- The cases of the `switch` over the register offset, after the four range tests
that `pl192_read` and `pl192_write` share. -/
inductive Register
  | unaligned
  | id (i : Fin 8)
  | vectAddr (i : Fin 32)
  | vectPriority (i : Fin 32)
  | irqStatus
  | fiqStatus
  | rawIntr
  | intSelect
  | intEnable
  | intEnClear
  | softInt
  | softIntClear
  | protection
  | swPriorityMask
  | priorityDaisy
  | vectAddress
  | pl190
  | bad
deriving DecidableEq

def Register.ofOffset (offset : Word) : Register :=
  if offset &&& 3 ≠ 0 then .unaligned
  else if 0xfe0 ≤ offset ∧ offset < 0x1000 then .id (Fin.ofNat 8 ((offset - 0xfe0) >>> 2).toNat)
  else if 0x100 ≤ offset ∧ offset < 0x180 then .vectAddr (Fin.ofNat 32 ((offset - 0x100) >>> 2).toNat)
  else if 0x200 ≤ offset ∧ offset < 0x280 then
    .vectPriority (Fin.ofNat 32 ((offset - 0x200) >>> 2).toNat)
  else if offset = 0x00 then .irqStatus
  else if offset = 0x04 then .fiqStatus
  else if offset = 0x08 then .rawIntr
  else if offset = 0x0C then .intSelect
  else if offset = 0x10 then .intEnable
  else if offset = 0x14 then .intEnClear
  else if offset = 0x18 then .softInt
  else if offset = 0x1C then .softIntClear
  else if offset = 0x20 then .protection
  else if offset = 0x24 then .swPriorityMask
  else if offset = 0x28 then .priorityDaisy
  else if offset = 0xF00 then .vectAddress
  else if offset = 0x300 ∨ offset = 0x30 ∨ offset = 0x34 then .pl190
  else .bad

def pl192Id : Vector Word 8 := #v[0x92, 0x11, 0x04, 0x00, 0x0D, 0xF0, 0x05, 0xB1]

/-- What an access has done when it returns or calls `pl192_update`, and the value
the guest reads. -/
structure Effect where
  chain : Chain
  updates : Bool
  value : Word

def view (register : Register) (s : State) : Word :=
  match register with
  | .id i => pl192Id.get i
  | .vectAddr i => s.vectAddr[i]
  | .vectPriority i => s.vectPriority[i]
  | .irqStatus => s.irqStatus
  | .fiqStatus => s.fiqStatus
  | .rawIntr => s.rawintr
  | .intSelect => s.intselect
  | .intEnable => s.intenable
  | .softInt => s.softint
  | .protection => s.protection
  | .swPriorityMask => s.swPriorityMask
  | .priorityDaisy => s.daisyPriority
  | _ => 0

/-- Reading `SOFTINTCLEAR` falls through to the `VECTADDR` case. -/
def read (w : Chain) (k : Nat) (offset : Word) : Except Stop Effect :=
  match Register.ofOffset offset with
  | .softIntClear | .vectAddress => do return ⟨← irqAck w k, true, (w.ctrl k).address⟩
  | register => .ok ⟨w, false, view register (w.ctrl k)⟩

def store (value : Word) (register : Register) (s : State) : State :=
  match register with
  | .vectAddr i => { s with vectAddr := s.vectAddr.set i value }
  | .vectPriority i => { s with vectPriority := s.vectPriority.set i (value &&& 0xf) }
  | .intSelect => { s with intselect := value }
  | .intEnable => { s with intenable := s.intenable ||| value }
  | .intEnClear => { s with intenable := s.intenable &&& ~~~value }
  | .softInt => { s with softint := s.softint ||| value }
  | .softIntClear => { s with softint := s.softint &&& ~~~value }
  | .protection => { s with protection := value &&& 1 }
  | .swPriorityMask => { s with swPriorityMask := value &&& 0xffff }
  | .priorityDaisy => { s with daisyPriority := value &&& 0xf }
  | _ => s

def write (w : Chain) (k : Nat) (offset value : Word) : Except Stop Effect :=
  match Register.ofOffset offset with
  | .unaligned | .id _ | .fiqStatus | .rawIntr => .error ⟨.hwError, w⟩
  | .irqStatus | .pl190 | .bad => .ok ⟨w, false, 0⟩
  | .vectAddress => do return ⟨← irqFin w k, true, 0⟩
  | register => .ok ⟨w.modify k (store value register), true, 0⟩

def irqHandler (w : Chain) (k : Nat) (irq : Fin 32) (level : Bool) : Effect :=
  let bit : Word := BitVec.twoPow 32 irq
  ⟨w.modify k fun s ↦
    { s with rawintr := if level then s.rawintr ||| bit else s.rawintr &&& ~~~bit }, true, 0⟩

inductive Request
  | irqHandler (irq : Fin 32) (level : Bool)
  | read (offset : Word)
  | write (offset value : Word)
deriving DecidableEq

structure Op where
  target : Nat
  request : Request
deriving DecidableEq

def effect (w : Chain) (op : Op) : Except Stop Effect :=
  match op.request with
  | .irqHandler irq level => .ok (irqHandler w op.target irq level)
  | .read offset => read w op.target offset
  | .write offset value => write w op.target offset value

/-- A whole operation: its own assignments, then `pl192_update` unless it returned before. -/
def step (w : Chain) (op : Op) : Except Stop (Chain × Word) := do
  let e ← effect w op
  return (if e.updates then update op.target e.chain else e.chain, e.value)

end IDeviceEmulator.Pl192
