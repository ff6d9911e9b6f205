import IDeviceEmulator.Library.Circular
import Mathlib.Order.Interval.Set.Defs

namespace IDeviceEmulator.Uart

abbrev Byte := BitVec 8

abbrev Word := BitVec 32

abbrev queueSize : Nat := 257

/-- `UartQueue`. The property `queue-size` is at most the number of cells, 256 on the boards. -/
structure Queue where
  ring : Circular Byte queueSize
  size : Nat
  size_pos : 1 ≤ size
  size_le : size ≤ queueSize

namespace Queue

variable (q : Queue)

def elemCount : Nat := q.ring.count

def emptyCount : Int := q.size - q.elemCount - 1

def empty : Bool := q.elemCount = 0

def push (x : Byte) : Queue := { q with ring := q.ring.push x }

def get : Queue × Byte := ({ q with ring := q.ring.get.1 }, q.ring.get.2)

def reset : Queue := { q with ring := q.ring.clear }

end Queue

inductive Fault
  /-- `hw_error` on an offset without a register. -/
  | hwError
  /-- `buf[0]` of a block without bytes. -/
  | outOfBlock
deriving DecidableEq

/-- `S5L8900UartState`, with the level of its interrupt line. -/
structure State where
  rx : Queue
  ulcon : Word := 0
  ucon : Word := 0
  ufcon : Word := 0
  umcon : Word := 0
  utrstat : Word := 0x6
  uerstat : Word := 0
  ufstat : Word := 0
  umstat : Word := 0
  utxh : Word := 0
  urxh : Word := 0
  ubrdiv : Word := 0
  udivslot : Word := 0
  uintp : Word := 0
  uintsp : Word := 0
  uintm : Word := 0
  irq : Bool := false

def intRxd : Word := 1

def intError : Word := 2

def intTxd : Word := 4

def trstatusTransmitterReady : Word := 4

def trstatusBufferEmpty : Word := 2

def trstatusDataReady : Word := 1

def ufstatRxFifoFull : Word := 0x100

def ufconFifoEnabled : Word := 1

def ufconTxLevelShift : Nat := 8

def ufconTxLevel : Word := 7 <<< ufconTxLevelShift

def ufstatTxCountShit : Nat := 16

def ufstatTxCount : Word := 0xff <<< ufstatTxCountShit

/-- The value of `x && y` as an `int`. -/
def logicalAnd (x y : Word) : Word := if x ≠ 0 ∧ y ≠ 0 then 1 else 0

def update (u : State) : State :=
  let u :=
    if logicalAnd u.ufcon ufconFifoEnabled ≠ 0 then
      if logicalAnd u.ufstat ufstatTxCount >>> ufstatTxCountShit ≤
          (logicalAnd u.ufcon ufconTxLevel >>> ufconTxLevelShift) * 2 then
        { u with uintsp := u.uintsp ||| intTxd }
      else u
    else u
  let u := { u with uintp := u.uintsp &&& ~~~u.uintm }
  { u with irq := u.uintp ≠ 0 }

def readUfstat (u : State) : State :=
  let u := { u with ufstat := BitVec.ofNat 32 u.rx.elemCount &&& 0xff }
  if u.rx.emptyCount = 0 then { u with ufstat := u.ufstat ||| ufstatRxFifoFull } else u

def readUrxh (u : State) : State × Word :=
  if u.ufcon &&& 1 ≠ 0 then
    if !u.rx.empty then
      let (rx, res) := u.rx.get
      let u := { u with rx }
      let u :=
        if u.rx.empty then { u with utrstat := u.utrstat &&& ~~~trstatusDataReady }
        else { u with utrstat := u.utrstat ||| trstatusDataReady }
      (u, res.setWidth 32)
    else (update { u with uintsp := u.uintsp ||| intError }, 0)
  else ({ u with utrstat := u.utrstat &&& ~~~trstatusDataReady }, u.urxh)

def mmRead (u : State) (offset : Nat) : Except Fault (State × Word) :=
  match offset with
  | 0x00 => .ok (u, u.ulcon)
  | 0x04 => .ok (u, u.ucon)
  | 0x08 => .ok (u, u.ufcon)
  | 0x0c => .ok (u, u.umcon)
  | 0x10 => .ok (u, u.utrstat)
  | 0x14 => .ok ({ u with irq := false, uerstat := 0 }, u.uerstat)
  | 0x18 => .ok (readUfstat u, (readUfstat u).ufstat)
  | 0x1c => .ok (u, 1)
  | 0x20 => .ok (u, u.utxh)
  | 0x24 => .ok (readUrxh u)
  | 0x28 => .ok (u, u.ubrdiv)
  | 0x2c => .ok (u, u.udivslot)
  | 0x30 => .ok (u, u.uintp)
  | 0x34 => .ok (u, u.uintsp)
  | 0x38 => .ok (u, u.uintm)
  | _ => .error .hwError

def writeUfcon (u : State) (val : Word) : State :=
  let u := { u with ufcon := val }
  let u := if val &&& 2 ≠ 0 then { u with rx := u.rx.reset } else u
  { u with ufcon := u.ufcon &&& ~~~6 }

/-- The state after a write, and the character that it sends. -/
def mmWrite (u : State) (offset : Nat) (val : Word) : Except Fault (State × Option Byte) :=
  match offset with
  | 0x00 => .ok ({ u with ulcon := val }, none)
  | 0x04 => .ok ({ u with ucon := val }, none)
  | 0x08 => .ok (writeUfcon u val, none)
  | 0x0c => .ok ({ u with umcon := val }, none)
  | 0x10 => .ok (u, none)
  | 0x14 => .ok (u, none)
  | 0x20 =>
    let u := { u with utrstat := u.utrstat &&& ~~~(trstatusTransmitterReady ||| trstatusBufferEmpty) }
    let u := { u with utrstat := u.utrstat ||| (trstatusTransmitterReady ||| trstatusBufferEmpty) }
    .ok ({ u with uintsp := u.uintsp ||| intTxd }, some (val.setWidth 8))
  | 0x28 => .ok ({ u with ubrdiv := val }, none)
  | 0x2c => .ok ({ u with udivslot := val }, none)
  | 0x30 => .ok ({ u with uintp := u.uintp &&& ~~~val, uintsp := u.uintsp &&& ~~~val }, none)
  | 0x34 => .ok ({ u with uintsp := val }, none)
  | 0x38 => .ok ({ u with uintm := val }, none)
  | _ => .error .hwError

def canReceive (u : State) : Int := u.rx.emptyCount

def triggerLevel (u : State) : State :=
  if !u.rx.empty then { u with uintsp := u.uintsp ||| intRxd } else u

/-- The loop of a block that does not fit. Its bound is computed anew for every byte. -/
def pushOverflow (q : Queue) (i : Nat) : List Byte → Queue
  | [] => q
  | b :: block => if i < q.emptyCount then pushOverflow (q.push b) (i + 1) block else q

def receive (u : State) (buf : List Byte) : Except Fault State :=
  if u.ufcon &&& 1 ≠ 0 then
    let u :=
      if u.rx.emptyCount < buf.length then
        { u with
          rx := pushOverflow u.rx 0 buf
          uintp := u.uintp ||| intError
          utrstat := u.utrstat ||| trstatusDataReady }
      else { u with rx := buf.foldl Queue.push u.rx, utrstat := u.utrstat ||| trstatusDataReady }
    .ok (update (triggerLevel u))
  else
    match buf with
    | [] => .error .outOfBlock
    | b :: _ =>
      let u := { u with urxh := b.setWidth 32 }
      let u := { u with uintsp := u.uintsp ||| intRxd }
      let u := { u with utrstat := u.utrstat ||| trstatusDataReady }
      .ok (update u)

/-- `s5l8900_uart_reset` leaves the holding registers and the interrupt line alone. -/
def reset (u : State) : State := { rx := u.rx.reset, utxh := u.utxh, urxh := u.urxh, irq := u.irq }

/-- The state after `s5l8900_uart_init1` on zeroed memory. -/
def init (size : Set.Icc 1 queueSize) : State := { rx := ⟨⟨fun _ ↦ 0, 0, 0⟩, size, size.2.1, size.2.2⟩ }

end IDeviceEmulator.Uart
