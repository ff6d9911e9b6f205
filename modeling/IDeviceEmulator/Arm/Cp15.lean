import IDeviceEmulator.Arm.Mmu
import IDeviceEmulator.Library.Masks

namespace IDeviceEmulator.Arm

open Masks

section Writes

/-- `extended_mpu_ap_bits`. -/
def extendedMpuApBits (val : Word) : Word :=
  (List.range 8).foldl (fun ret i ↦ ret ||| ((val &&& (3#32 <<< (2 * i))) <<< (2 * i))) 0#32

/-- The value of `c7_par` after a translation that was asked for. -/
def translationPar (v7 : Bool) : Except Word Mapping → Word
  | .ok r =>
    if r.pageSize = 0x1000000 ∧ v7 then (r.physAddr &&& 0xff000000#32) ||| 2#32 else r.physAddr &&& 0xfffff000#32
  | .error ret =>
    ((ret &&& 20#32) >>> 5) ||| ((ret &&& 24#32) >>> 6) ||| ((ret &&& 0xf#32) <<< 1) ||| 1#32

def cpuidTi915t : Word := 0x54029152
def cpuidTi925t : Word := 0x54029252

/-- The fields of the instruction that select the register. -/
structure Cp15Reg where
  crn : Nat
  op1 : Nat
  op2 : Nat
  crm : Nat

def cp15Reg (insn : Word) : Cp15Reg where
  crn := ((insn >>> 16) &&& 0xf#32).toNat
  op1 := ((insn >>> 21) &&& 7#32).toNat
  op2 := ((insn >>> 5) &&& 7#32).toNat
  crm := (insn &&& 0xf#32).toNat

variable (s : Cpu) (r : Cp15Reg) (val : Word)

/-- Some cores ignore the second opcode. -/
def op2Of : Nat := if s.feature .omapcp then 0 else r.op2

/-- ID codes. -/
def setC0 : Option Cp15 :=
  if s.feature .xscale then some s.cp15
  else if s.feature .omapcp then some s.cp15
  else if s.feature .v7 ∧ r.op1 = 2 ∧ r.crm = 0 ∧ r.op2 = 0 then some { s.cp15 with c0Cssel := val &&& 0xf#32 }
  else none

/-- System configuration. -/
def setC1 : Option Cp15 :=
  match op2Of s r with
  | 0 => some (if s.feature .xscale = false ∨ r.crm = 0 then { s.cp15 with c1Sys := val } else s.cp15)
  | 1 => some (if s.feature .xscale then { s.cp15 with c1Xscaleauxcr := val } else s.cp15)
  | 2 => if s.feature .xscale then none else some { s.cp15 with c1Coproc := val }
  | _ => none

/-- MMU page table control or MPU cache control. -/
def setC2 : Option Cp15 :=
  if s.feature .mpu then
    match r.op2 with
    | 0 => some { s.cp15 with c2Data := val }
    | 1 => some { s.cp15 with c2Insn := val }
    | _ => none
  else
    match r.op2 with
    | 0 => some { s.cp15 with c2Base0 := val }
    | 1 => some { s.cp15 with c2Base1 := val }
    | 2 =>
      let val := val &&& 7#32
      some { s.cp15 with
        c2Control := val
        c2Mask := ~~~(0xffffffff#32 >>> val)
        c2BaseMask := ~~~(0x3fff#32 >>> val) }
    | _ => none

/-- MMU fault status or MPU access permission. -/
def setC5 : Option Cp15 :=
  let simple := if s.feature .mpu then extendedMpuApBits val else val
  match op2Of s r with
  | 0 => some { s.cp15 with c5Data := simple }
  | 1 => some { s.cp15 with c5Insn := simple }
  | 2 => if s.feature .mpu then some { s.cp15 with c5Data := val } else none
  | 3 => if s.feature .mpu then some { s.cp15 with c5Insn := val } else none
  | _ => none

/-- MMU fault address or MPU base and size. -/
def setC6 : Option Cp15 :=
  if s.feature .mpu then
    if h : r.crm < 8 then some { s.cp15 with c6Region := Function.update s.cp15.c6Region ⟨r.crm, h⟩ val } else none
  else
    match op2Of s r with
    | 0 => some { s.cp15 with c6Data := val }
    | 1 | 2 => some { s.cp15 with c6Insn := val }
    | _ => none

/-- Cache control. Nothing is cached, so that only translations have an effect. -/
def setC7 (ldlPhys : Word → Word) : Option Cp15 :=
  if r.op1 ≠ 0 then none
  else if s.feature .v6k = false then some s.cp15
  else
    match r.crm with
    | 4 => some { s.cp15 with c7Par := val &&& (if s.feature .v7 then 0xfffff6ff#32 else 0xfffff1ff#32) }
    | 8 =>
      if r.op2.testBit 2 then none
      else
        let ret := getPhysAddr s ldlPhys val (if r.op2.testBit 0 then .write else .read) (r.op2.testBit 1)
        some { s.cp15 with c7Par := translationPar (s.feature .v7) ret }
    | _ => some s.cp15

/-- Cache lockdown. -/
def setC9 : Option Cp15 :=
  if s.feature .omapcp then some s.cp15
  else
    match r.crm, r.op1, r.op2 with
    | 0, 0, 0 => some { s.cp15 with c9Data := val }
    | 0, 0, 1 => some { s.cp15 with c9Insn := val }
    | 0, 1, _ => some s.cp15
    | _, _, _ => none

/-- Process ID. -/
def setC13 : Option Cp15 :=
  match r.op2 with
  | 0 => some { s.cp15 with c13Fcse := val }
  | 1 => some { s.cp15 with c13Context := val }
  | _ => none

/-- Implementation specific. -/
def setC15 : Option Cp15 :=
  if s.feature .xscale then
    if r.op2 = 0 ∧ r.crm = 1 then some { s.cp15 with c15Cpar := val &&& 0x3fff#32 } else none
  else if s.feature .omapcp then
    match r.crm with
    | 0 | 2 | 3 | 4 | 8 => some s.cp15
    | 1 => some { s.cp15 with c0Cpuid := if val.getLsbD 5 then cpuidTi915t else cpuidTi925t }
    | _ => none
  else some s.cp15

/-- `set_cp15`, where `none` is `cpu_abort`. -/
def setCp15 (ldlPhys : Word → Word) (insn val : Word) : Option Cpu :=
  let r := cp15Reg insn
  let written : Option Cp15 :=
    match r.crn with
    | 0 => setC0 s r val
    | 1 => setC1 s r val
    | 2 => setC2 s r val
    | 3 => some { s.cp15 with c3 := val }
    | 5 => setC5 s r val
    | 6 => setC6 s r val
    | 7 => setC7 s r val ldlPhys
    | 8 => if r.op2 < 4 then some s.cp15 else none
    | 9 => setC9 s r val
    | 10 | 11 => some s.cp15
    | 13 => setC13 s r val
    | 15 => setC15 s r val
    | _ => none
  written.map fun cp15 ↦ { s with cp15 }

end Writes

section Tables

/-- What `cpu_reset` leaves in the translation table registers. -/
structure ResetTables (c : Cp15) : Prop where
  base0 : c.c2Base0 = 0
  base1 : c.c2Base1 = 0
  control : c.c2Control = 0
  mask : c.c2Mask = 0
  baseMask : c.c2BaseMask = 0xffffc000

/-- From a reset by writes of the coprocessor and by anything that leaves it alone. -/
inductive Reached : Cpu → Prop
  | reset {s : Cpu} : ResetTables s.cp15 → Reached s
  | write {s t : Cpu} {ldlPhys : Word → Word} {insn val : Word} :
      Reached s → setCp15 s ldlPhys insn val = some t → Reached t
  | other {s t : Cpu} : Reached s → t.cp15 = s.cp15 → Reached t

/-- The masks that a table control register stands for. -/
structure TableMasks (c : Cp15) : Prop where
  control : c.c2Control.toNat < 8
  mask : c.c2Mask = high 32 (32 - c.c2Control.toNat)
  baseMask : c.c2BaseMask = high 32 (14 - c.c2Control.toNat)

/-- The registers that the masks are about. -/
def Cp15.tableControl (c : Cp15) : Word × Word × Word := (c.c2Control, c.c2Mask, c.c2BaseMask)

theorem TableMasks.of_eq {c d : Cp15} (h : TableMasks c) (heq : d.tableControl = c.tableControl) : TableMasks d := by
  obtain ⟨hcontrol, hmask, hbase⟩ : d.c2Control = c.c2Control ∧ d.c2Mask = c.c2Mask ∧ d.c2BaseMask = c.c2BaseMask := by
    simpa only [Cp15.tableControl, Prod.mk.injEq] using heq
  exact ⟨hcontrol ▸ h.control, hmask.trans (hcontrol ▸ h.mask), hbase.trans (hcontrol ▸ h.baseMask)⟩

variable {s : Cpu} {r : Cp15Reg} {val : Word} {c : Cp15}

theorem setC0_frame (h : setC0 s r val = some c) : c.tableControl = s.cp15.tableControl := by
  grind [setC0, Cp15.tableControl]

theorem setC1_frame (h : setC1 s r val = some c) : c.tableControl = s.cp15.tableControl := by
  grind [setC1, Cp15.tableControl]

theorem setC5_frame (h : setC5 s r val = some c) : c.tableControl = s.cp15.tableControl := by
  grind [setC5, Cp15.tableControl]

theorem setC6_frame (h : setC6 s r val = some c) : c.tableControl = s.cp15.tableControl := by
  grind [setC6, Cp15.tableControl]

theorem setC7_frame {ldlPhys : Word → Word} (h : setC7 s r val ldlPhys = some c) :
    c.tableControl = s.cp15.tableControl := by
  grind [setC7, Cp15.tableControl]

theorem setC9_frame (h : setC9 s r val = some c) : c.tableControl = s.cp15.tableControl := by
  grind [setC9, Cp15.tableControl]

theorem setC13_frame (h : setC13 s r val = some c) : c.tableControl = s.cp15.tableControl := by
  grind [setC13, Cp15.tableControl]

theorem setC15_frame (h : setC15 s r val = some c) : c.tableControl = s.cp15.tableControl := by
  grind [setC15, Cp15.tableControl]

/-- The masks that a write of the control register computes. -/
theorem masks_of_control : ∀ n : Fin 8,
    ~~~(0xffffffff#32 >>> n.val) = high 32 (32 - n.val) ∧ ~~~(0x3fff#32 >>> n.val) = high 32 (14 - n.val) := by
  decide

theorem setC2_masks (hs : TableMasks s.cp15) (h : setC2 s r val = some c) : TableMasks c := by
  unfold setC2 at h
  split_ifs at h
  · split at h
    · cases h
      exact hs.of_eq rfl
    · cases h
      exact hs.of_eq rfl
    · cases h
  · split at h
    · cases h
      exact hs.of_eq rfl
    · cases h
      exact hs.of_eq rfl
    · cases h
      have hlt : (val &&& 7#32).toNat < 8 := and_lt (m := 8#32) (by decide)
      obtain ⟨hmask, hbase⟩ := masks_of_control ⟨(val &&& 7#32).toNat, hlt⟩
      exact ⟨hlt, hmask, hbase⟩
    · cases h

theorem setCp15_masks {t : Cpu} {ldlPhys : Word → Word} {insn : Word} (hs : TableMasks s.cp15)
    (h : setCp15 s ldlPhys insn val = some t) : TableMasks t.cp15 := by
  unfold setCp15 at h
  obtain ⟨c, hc, rfl⟩ := Option.map_eq_some_iff.mp h
  dsimp only at hc ⊢
  split at hc
  · exact hs.of_eq (setC0_frame hc)
  · exact hs.of_eq (setC1_frame hc)
  · exact setC2_masks hs hc
  · cases hc
    exact hs.of_eq rfl
  · exact hs.of_eq (setC5_frame hc)
  · exact hs.of_eq (setC6_frame hc)
  · exact hs.of_eq (setC7_frame hc)
  · split_ifs at hc
    cases hc
    exact hs
  · exact hs.of_eq (setC9_frame hc)
  · cases hc
    exact hs
  · cases hc
    exact hs
  · exact hs.of_eq (setC13_frame hc)
  · exact hs.of_eq (setC15_frame hc)
  · cases hc

theorem Reached.masks (h : Reached s) : TableMasks s.cp15 := by
  induction h with
  | reset h =>
    refine ⟨?_, ?_, ?_⟩
    · rw [h.control]
      decide
    · rw [h.control, h.mask]
      decide
    · rw [h.control, h.baseMask]
      decide
  | write _ hwrite ih => exact setCp15_masks ih hwrite
  | other _ heq ih =>
    rw [heq]
    exact ih

end Tables

end IDeviceEmulator.Arm
