import IDeviceEmulator.I2c.Controller
import IDeviceEmulator.Library.Bytes

namespace IDeviceEmulator.I2c

open Bytes

def save (c : Controller) : List Byte :=
  [c.control, c.status, c.address, c.datashift, c.lineCtrl, c.ibmr, c.data]

/-- The stream does not carry `iicreg20` and `active`, which keep their values. -/
def loadFields (c : Controller) : Reader Controller := do
  let control ← getByte
  let status ← getByte
  let address ← getByte
  let datashift ← getByte
  let lineCtrl ← getByte
  let ibmr ← getByte
  let data ← getByte
  return { c with control, status, address, datashift, lineCtrl, ibmr, data }

/-- Any other version is `-EINVAL`. -/
def load (version : Nat) (c : Controller) (stream : List Byte) : Except Unit Controller :=
  if version = 1 then .ok (loadFields c stream).1 else .error ()

theorem load_save (c d : Controller) :
    load 1 d (save c) = .ok { c with iicreg20 := d.iicreg20, active := d.active } := rfl

inductive Access
  | read (offset : Nat)
  | write (offset : Nat) (value : Word)

section Observation

variable {δ : Type} {n : Nat}

/-- The values that a sequence of accesses reads, and the calls that the bus has seen at its
end. -/
def observe (s : System δ n) : List Access → List Word × List Call
  | [] => ([], s.calls)
  | .read offset :: rest =>
    let r := s.read offset
    (r.2 :: (observe r.1 rest).1, (observe r.1 rest).2)
  | .write offset value :: rest => observe (s.write offset value) rest

def run (s : System δ n) : List Access → System δ n
  | [] => s
  | .read offset :: rest => run (s.read offset).1 rest
  | .write offset value :: rest => run (s.write offset value) rest

theorem observe_iicreg20 (s : System δ n) : (observe s [.read iicreg20]).1 = [s.ctrl.iicreg20] := rfl

/-- A value with other top bits than the status, and with the transfer disabled. -/
def toggle (status : Byte) : Word := if status >>> 6 = 0 then 0x40 else 0

theorem toggles_toggle (s : System δ n) : s.toggles (toggle s.ctrl.status) = true := by
  unfold System.toggles toggle
  split_ifs with hzero
  · rw [hzero]
    decide
  · have hne : (s.ctrl.status >>> 6).setWidth 32 ≠ 0 := by
      intro h
      have hback := congrArg (BitVec.setWidth 8) h
      rw [BitVec.setWidth_setWidth_of_le _ (by decide), BitVec.setWidth_eq] at hback
      exact hzero hback
    simpa using hne

theorem disabled_toggle (status : Byte) : ¬ toggle status &&& iicstatTxrxen.setWidth 32 ≠ 0 := by
  unfold toggle
  split_ifs <;> decide

/-- A change of the mode shows on the bus whether a transfer is active. -/
theorem calls_toggle (s : System δ n) : (s.write i2cstat (toggle s.ctrl.status)).calls =
    if s.ctrl.active = 0 then s.calls else s.calls ++ [.endTransfer] := by
  have hwrite : s.write i2cstat (toggle s.ctrl.status) = s.writeStat (toggle s.ctrl.status) := rfl
  rw [hwrite, System.writeStat]
  by_cases hactive : s.ctrl.active = 0
  · rw [if_pos ⟨hactive, toggles_toggle s⟩, if_pos hactive, System.transfer, if_neg (disabled_toggle _)]
  · rw [if_neg fun h ↦ hactive h.1, if_pos ⟨hactive, toggles_toggle s⟩, if_neg hactive]
    rfl

/-- A loaded controller behaves as the saved one exactly if the two fields that the stream lacks
had their initial values. -/
theorem snapshot_iff (s : System δ n) :
    ∃ c, load 1 {} (save s.ctrl) = .ok c ∧
      ((∀ accesses, observe { s with ctrl := c } accesses = observe s accesses) ↔
        s.ctrl.iicreg20 = 0 ∧ s.ctrl.active = 0) := by
  refine ⟨_, load_save s.ctrl {}, ?_⟩
  constructor
  · intro h
    have hread := congrArg Prod.fst (h [.read iicreg20])
    rw [observe_iicreg20, observe_iicreg20] at hread
    have hcalls : (System.write { s with ctrl := { s.ctrl with iicreg20 := 0, active := 0 } } i2cstat
        (toggle s.ctrl.status)).calls = (s.write i2cstat (toggle s.ctrl.status)).calls :=
      congrArg Prod.snd (h [.write i2cstat (toggle s.ctrl.status)])
    rw [calls_toggle s, calls_toggle { s with ctrl := { s.ctrl with iicreg20 := 0, active := 0 } }] at hcalls
    refine ⟨(List.singleton_inj.mp hread).symm, ?_⟩
    by_contra hactive
    rw [if_neg hactive, if_pos rfl] at hcalls
    have hlength : s.calls.length = (s.calls ++ [Call.endTransfer]).length := congrArg List.length hcalls
    rw [List.length_append, List.length_singleton] at hlength
    omega
  · rintro ⟨hreg, hactive⟩ accesses
    have hsame : { s.ctrl with iicreg20 := 0, active := 0 } = s.ctrl := by
      rw [← hreg, ← hactive]
    exact congrArg (fun c ↦ observe { s with ctrl := c } accesses) hsame

end Observation

/-- An interrupt acknowledgement sets a bit of `iicreg20` that the snapshot loses. -/
theorem snapshot_fails : ∃ c,
    load 1 {} (save (run { ctrl := {}, bus := pcf50633Init 0x74 } [.write i2ccon 0x10]).ctrl) = .ok c ∧
      observe { run { ctrl := {}, bus := pcf50633Init 0x74 } [.write i2ccon 0x10] with ctrl := c }
          [.read iicreg20] = ([0], []) ∧
      observe (run { ctrl := {}, bus := pcf50633Init 0x74 } [.write i2ccon 0x10]) [.read iicreg20] =
        ([0x100], []) :=
  ⟨_, rfl, rfl, rfl⟩

end IDeviceEmulator.I2c
