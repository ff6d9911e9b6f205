import IDeviceEmulator.I2c.Bus

namespace IDeviceEmulator.I2c

abbrev Word := BitVec 32

/-- `S5L8900I2CState`. Its interrupt line is never raised. -/
structure Controller where
  control : Byte := 0
  status : Byte := 0
  address : Byte := 0
  datashift : Byte := 0
  lineCtrl : Byte := 0
  iicreg20 : Word := 0
  active : Byte := 0
  ibmr : Byte := 0
  data : Byte := 0
deriving DecidableEq

def i2ccon : Nat := 0x00

def i2cstat : Nat := 0x04

def i2cadd : Nat := 0x08

def i2cds : Nat := 0x0c

def i2clc : Nat := 0x10

def iicreg20 : Nat := 0x20

def iicconAcken : Byte := 0x80

def iicstatStart : Word := 0x20

def iicstatTxrxen : Byte := 0x10

def iicstatLastbit : Byte := 0x01

/-- An operation that the controller asks of its bus. -/
inductive Call
  | startTransfer (address : Byte) (recv : Bool)
  | endTransfer
  | send (data : Byte)
  | recv
deriving DecidableEq

structure System (δ : Type) (n : Nat) where
  ctrl : Controller
  bus : Bus δ n
  calls : List Call := []

namespace System

variable {δ : Type} {n : Nat} (s : System δ n)

def startTransfer (address : Byte) (recv : Bool) : System δ n :=
  { s with bus := (s.bus.startTransfer address recv).1, calls := s.calls ++ [.startTransfer address recv] }

def endTransfer : System δ n := { s with bus := s.bus.endTransfer, calls := s.calls ++ [.endTransfer] }

/-- `s5l8900_i2c_receive`, with its result stored as a byte. -/
def receive : System δ n :=
  { ctrl := { s.ctrl with data := BitVec.ofInt 8 s.bus.recv.2 }
    bus := s.bus.recv.1
    calls := s.calls ++ [.recv] }

def send (data : Byte) : System δ n :=
  if s.ctrl.status &&& iicstatLastbit = 0 then
    { ctrl :=
        { s.ctrl with status := s.ctrl.status ||| iicconAcken, data, iicreg20 := s.ctrl.iicreg20 ||| 0x100 }
      bus := (s.bus.send data).1
      calls := s.calls ++ [.send data] }
  else s

def read (offset : Nat) : System δ n × Word :=
  if offset = i2ccon then (s, s.ctrl.control.setWidth 32)
  else if offset = i2cstat then (s, s.ctrl.status.setWidth 32)
  else if offset = i2cadd then (s, s.ctrl.address.setWidth 32)
  else if offset = i2cds then
    let s := { s with ctrl.iicreg20 := s.ctrl.iicreg20 ||| 0x100 }
    let s := s.receive
    (s, s.ctrl.data.setWidth 32)
  else if offset = i2clc then (s, s.ctrl.lineCtrl.setWidth 32)
  else if offset = iicreg20 then
    ({ s with ctrl.iicreg20 := s.ctrl.iicreg20 &&& ~~~0x100 &&& ~~~0x2000 }, s.ctrl.iicreg20)
  else (s, 0)

def writeCon (value : Word) : System δ n :=
  let s := if value &&& ~~~(iicconAcken.setWidth 32) ≠ 0 then
    { s with ctrl.iicreg20 := s.ctrl.iicreg20 ||| 0x100 } else s
  let s := if value &&& 0x10 ≠ 0 ∧ s.ctrl.status = 0x90 then
    { s with ctrl.iicreg20 := s.ctrl.iicreg20 ||| 0x2000 } else s
  { s with ctrl.control := value.setWidth 8 }

/-- The top bits of the status and of a value that is written to it differ. -/
def toggles (value : Word) : Bool := (s.ctrl.status >>> 6).setWidth 32 ≠ value >>> 6

def mode : Nat := ((s.ctrl.status >>> 6) &&& 3).toNat

/-- The two master modes. -/
def master (value : Word) (recv : Bool) : System δ n :=
  if value &&& iicstatStart ≠ 0 then
    let s := { s with ctrl.status := s.ctrl.status &&& ~~~iicstatLastbit }
    let s := { s with ctrl.iicreg20 := s.ctrl.iicreg20 ||| 0x100 }
    let s := { s with ctrl.active := 1 }
    s.startTransfer (s.ctrl.data >>> 1) recv
  else
    let s := s.endTransfer
    let s := { s with ctrl.active := 0 }
    { s with ctrl.status := s.ctrl.status ||| iicstatTxrxen }

def transfer (value : Word) : System δ n :=
  if value &&& iicstatTxrxen.setWidth 32 ≠ 0 then
    match s.mode with
    | 0 => s.receive
    | 1 => s.receive
    | 2 => s.master value true
    | 3 => s.master value false
    | _ => s
  else s

def writeStat (value : Word) : System δ n :=
  if s.ctrl.active = 0 ∧ s.toggles value then
    { s with ctrl.status := value.setWidth 8 }.transfer value
  else if s.ctrl.active ≠ 0 ∧ s.toggles value then
    -- A change of the mode forces the end of the transfer.
    let s := s.endTransfer
    let s := { s with ctrl.active := 0 }
    let s := { s with ctrl.status := value.setWidth 8 }
    { s with ctrl.status := s.ctrl.status ||| iicstatTxrxen }
  else s.transfer value

def write (offset : Nat) (value : Word) : System δ n :=
  if offset = i2ccon then s.writeCon value
  else if offset = i2cstat then s.writeStat value
  else if offset = i2cadd then { s with ctrl.address := value.setWidth 8 }
  else if offset = i2cds then s.send (value.setWidth 8)
  else if offset = i2clc then { s with ctrl.lineCtrl := value.setWidth 8 }
  else s

end System

/-- The guest asks for a start condition in a master mode, and no transfer has to end first. -/
structure Starts {δ : Type} {n : Nat} (s : System δ n) (value : Word) : Prop where
  enabled : value &&& iicstatTxrxen.setWidth 32 ≠ 0
  start : value &&& iicstatStart ≠ 0
  master : value.toNat / 64 % 4 = 2 ∨ value.toNat / 64 % 4 = 3
  idle : s.ctrl.active = 0 ∨ s.toggles value = false

section Start

variable {δ : Type} {n : Nat} {s : System δ n} {value : Word}

theorem System.mode_eq (s : System δ n) : s.mode = s.ctrl.status.toNat / 64 := by
  have hlt := s.ctrl.status.isLt
  rw [System.mode, BitVec.toNat_and, BitVec.toNat_ushiftRight, Nat.shiftRight_eq_div_pow]
  change s.ctrl.status.toNat / 2 ^ 6 &&& (2 ^ 2 - 1) = _
  rw [Nat.and_two_pow_sub_one_eq_mod]
  omega

theorem System.mode_of_not_toggles (h : s.toggles value = false) : s.mode = value.toNat / 64 % 4 := by
  have hlt := s.ctrl.status.isLt
  have htop : (s.ctrl.status >>> 6).setWidth 32 = value >>> 6 := by simpa [System.toggles] using h
  have hnat := congrArg BitVec.toNat htop
  rw [BitVec.toNat_setWidth, BitVec.toNat_ushiftRight, BitVec.toNat_ushiftRight, Nat.shiftRight_eq_div_pow,
    Nat.shiftRight_eq_div_pow] at hnat
  rw [s.mode_eq]
  omega

theorem System.mode_of_status (h : s.ctrl.status = value.setWidth 8) : s.mode = value.toNat / 64 % 4 := by
  rw [s.mode_eq, h, BitVec.toNat_setWidth]
  omega

theorem bus_master (hstart : value &&& iicstatStart ≠ 0) (recv : Bool) :
    (s.master value recv).bus = (s.bus.startTransfer (s.ctrl.data >>> 1) recv).1 := by
  rw [System.master, if_pos hstart]
  rfl

theorem bus_transfer (hen : value &&& iicstatTxrxen.setWidth 32 ≠ 0) (hstart : value &&& iicstatStart ≠ 0)
    (hmode : s.mode = 2 ∨ s.mode = 3) :
    ∃ recv, (s.transfer value).bus = (s.bus.startTransfer (s.ctrl.data >>> 1) recv).1 := by
  unfold System.transfer
  rw [if_pos hen]
  rcases hmode with hmode | hmode
  · rw [hmode]
    exact ⟨true, bus_master hstart true⟩
  · rw [hmode]
    exact ⟨false, bus_master hstart false⟩

/-- A start condition reaches the bus with the data byte shifted by one. -/
theorem bus_write_of_starts (h : Starts s value) :
    ∃ recv, (s.write i2cstat value).bus = (s.bus.startTransfer (s.ctrl.data >>> 1) recv).1 := by
  have hwrite : s.write i2cstat value = s.writeStat value := rfl
  rw [hwrite, System.writeStat]
  cases htoggles : s.toggles value with
  | false =>
    have hmode := System.mode_of_not_toggles htoggles
    simp only [Bool.false_eq_true, and_false, if_false]
    exact bus_transfer h.enabled h.start (hmode ▸ h.master)
  | true =>
    have hidle : s.ctrl.active = 0 := by simpa [htoggles] using h.idle
    rw [if_pos ⟨hidle, rfl⟩]
    have hmode : System.mode { s with ctrl.status := value.setWidth 8 } = value.toNat / 64 % 4 :=
      System.mode_of_status rfl
    exact bus_transfer h.enabled h.start (hmode ▸ h.master)

/-- A slave can be addressed, on the bus and through the controller, exactly if its address is
even. -/
theorem selects_iff (bus : Bus δ n) (hdistinct : Function.Injective bus.address) (i : Fin n) :
    (bus.Selects i ∧
      ∀ (s : System δ n) (value : Word), s.bus = bus → s.ctrl.data >>> 1 = bus.address i → Starts s value →
        (s.write i2cstat value).bus.currentDev = some i) ↔
      bus.address i &&& 1 = 0 := by
  rw [← Bus.selects_iff_even hdistinct i]
  refine ⟨And.left, fun hselects ↦ ⟨hselects, fun s value hbus hdata hstarts ↦ ?_⟩⟩
  obtain ⟨recv, hwrite⟩ := bus_write_of_starts hstarts
  rw [hwrite, hbus, hdata]
  exact (hselects recv).2

end Start

def pcf50633AddrGet : Byte := 0xe6

/-- A bus with the power management unit, created at address zero and then moved. The callbacks
play no part in the choice of a slave. -/
def pcf50633Init (addr : Byte) : Bus Unit 1 :=
  Bus.setSlaveAddress
    { info := fun _ ↦ ⟨fun d _ ↦ d, fun d ↦ (d, 0), fun d _ ↦ (d, 0)⟩
      address := fun _ ↦ 0
      dev := fun _ ↦ () } 0 addr

/-- The unit of the S5L8930 is at an even address. -/
theorem selects_pmu_at_74 : (pcf50633Init 0x74).Selects 0 :=
  ((selects_iff (pcf50633Init 0x74) (fun _ _ _ ↦ Subsingleton.elim _ _) 0).mpr rfl).1

/-- The unit of the S5L8900 is at 0x73, and the bus looks for 0x72. -/
theorem selects_fails :
    ¬ (pcf50633Init (pcf50633AddrGet >>> 1)).Selects 0 ∧
      (System.write { ctrl := { data := pcf50633AddrGet }, bus := pcf50633Init (pcf50633AddrGet >>> 1) }
        i2cstat 0xf0).bus.currentDev = none := by
  refine ⟨fun h ↦ ?_, rfl⟩
  have hfound := (h false).1
  exact absurd hfound (by decide)

end IDeviceEmulator.I2c
