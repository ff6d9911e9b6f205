import Mathlib.Data.List.FinRange
import Mathlib.Logic.Function.Basic
import Mathlib.Tactic.Common

namespace IDeviceEmulator.I2c

abbrev Byte := BitVec 8

inductive Event
  | startRecv
  | startSend
  | finish
  | nack
deriving DecidableEq

/-- `I2CSlaveInfo`: the callbacks of a device with a state of its own. -/
structure SlaveInfo (δ : Type) where
  event : δ → Event → δ
  recv : δ → δ × Int
  send : δ → Byte → δ × Int

/-- `i2c_bus`, with its slaves in the order of the list of children. -/
structure Bus (δ : Type) (n : Nat) where
  info : Fin n → SlaveInfo δ
  address : Fin n → Byte
  dev : Fin n → δ
  currentDev : Option (Fin n) := none

namespace Bus

variable {δ : Type} {n : Nat} (bus : Bus δ n)

def setSlaveAddress (i : Fin n) (address : Byte) : Bus δ n :=
  { bus with address := Function.update bus.address i address }

def event (i : Fin n) (e : Event) : Bus δ n :=
  { bus with dev := Function.update bus.dev i ((bus.info i).event (bus.dev i) e) }

/-- The first child with an address. -/
def find (address : Byte) : Option (Fin n) := (List.finRange n).find? fun i ↦ bus.address i = address

/-- The address that is looked up: the lowest bit is cleared. -/
def lookup (address : Byte) : Byte := if address &&& 1 ≠ 0 then address &&& ~~~1 else address

def startTransfer (address : Byte) (recv : Bool) : Bus δ n × Int :=
  match bus.find (lookup address) with
  | none => (bus, 1)
  | some slave =>
    ({ bus with currentDev := some slave }.event slave (if recv then .startRecv else .startSend), 0)

def endTransfer : Bus δ n :=
  match bus.currentDev with
  | none => bus
  | some dev => { bus.event dev .finish with currentDev := none }

def send (data : Byte) : Bus δ n × Int :=
  match bus.currentDev with
  | none => (bus, -1)
  | some dev =>
    let r := (bus.info dev).send (bus.dev dev) data
    ({ bus with dev := Function.update bus.dev dev r.1 }, r.2)

def recv : Bus δ n × Int :=
  match bus.currentDev with
  | none => (bus, -1)
  | some dev =>
    let r := (bus.info dev).recv (bus.dev dev)
    ({ bus with dev := Function.update bus.dev dev r.1 }, r.2)

def nack : Bus δ n :=
  match bus.currentDev with
  | none => bus
  | some dev => bus.event dev .nack

/-- A transfer with the address of a slave succeeds and makes that slave the current one. -/
def Selects (i : Fin n) : Prop :=
  ∀ recv, (bus.startTransfer (bus.address i) recv).2 = 0 ∧
    (bus.startTransfer (bus.address i) recv).1.currentDev = some i

variable {bus}

theorem address_of_find {address : Byte} {i : Fin n} (h : bus.find address = some i) :
    bus.address i = address := by
  have hi := List.find?_some h
  exact of_decide_eq_true hi

theorem find_address (hdistinct : Function.Injective bus.address) (i : Fin n) :
    bus.find (bus.address i) = some i := by
  cases hfind : bus.find (bus.address i) with
  | none =>
    have hmiss := List.find?_eq_none.mp hfind i (List.mem_finRange i)
    simp at hmiss
  | some j => rw [hdistinct (address_of_find hfind)]

theorem lookup_eq_iff (address : Byte) : lookup address = address ↔ address &&& 1 = 0 := by
  have heven : (address &&& ~~~1) &&& 1 = 0 := by
    rw [BitVec.and_assoc, show ~~~(1 : Byte) &&& 1 = 0 by decide]
    exact BitVec.and_zero
  unfold lookup
  split_ifs with hodd
  · constructor
    · intro h
      rwa [h] at heven
    · intro h
      contradiction
  · exact iff_of_true rfl (not_not.mp hodd)

theorem startTransfer_of_find {address : Byte} {i : Fin n} (h : bus.find (lookup address) = some i) (recv : Bool) :
    (bus.startTransfer address recv).2 = 0 ∧ (bus.startTransfer address recv).1.currentDev = some i := by
  unfold startTransfer
  rw [h]
  exact ⟨rfl, rfl⟩

theorem find_of_startTransfer {address : Byte} {i : Fin n} {recv : Bool}
    (hok : (bus.startTransfer address recv).2 = 0)
    (hcurrent : (bus.startTransfer address recv).1.currentDev = some i) :
    bus.find (lookup address) = some i := by
  unfold startTransfer at hok hcurrent
  cases hfind : bus.find (lookup address) with
  | none =>
    rw [hfind] at hok
    exact absurd hok (show (1 : Int) ≠ 0 by decide)
  | some j =>
    rw [hfind] at hcurrent
    exact hcurrent

/-- The bus clears the lowest bit of the address, so it selects the slaves at even addresses. -/
theorem selects_iff_even (hdistinct : Function.Injective bus.address) (i : Fin n) :
    bus.Selects i ↔ bus.address i &&& 1 = 0 := by
  rw [← lookup_eq_iff]
  constructor
  · intro h
    obtain ⟨hok, hcurrent⟩ := h false
    exact (address_of_find (find_of_startTransfer hok hcurrent)).symm
  · intro hsame recv
    refine startTransfer_of_find ?_ recv
    rw [hsame]
    exact find_address hdistinct i

end Bus

end IDeviceEmulator.I2c
