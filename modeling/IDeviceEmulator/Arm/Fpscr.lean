import IDeviceEmulator.Arm.Cpu
import IDeviceEmulator.Library.Machine
import IDeviceEmulator.Library.Masks

namespace IDeviceEmulator.Arm.Fpscr

open Machine Masks

section Flags

def floatFlagInvalid : BitVec 8 := 1
def floatFlagDivbyzero : BitVec 8 := 4
def floatFlagOverflow : BitVec 8 := 8
def floatFlagUnderflow : BitVec 8 := 16
def floatFlagInexact : BitVec 8 := 32
def floatFlagInputDenormal : BitVec 8 := 64

def vfpExceptbitsFromHost (host : BitVec 8) : Word :=
  (if host &&& floatFlagInvalid ≠ 0 then 1#32 else 0#32) |||
  (if host &&& floatFlagDivbyzero ≠ 0 then 2#32 else 0#32) |||
  (if host &&& floatFlagOverflow ≠ 0 then 4#32 else 0#32) |||
  (if host &&& floatFlagUnderflow ≠ 0 then 8#32 else 0#32) |||
  (if host &&& floatFlagInexact ≠ 0 then 0x10#32 else 0#32) |||
  (if host &&& floatFlagInputDenormal ≠ 0 then 0x80#32 else 0#32)

def vfpExceptbitsToHost (target : Word) : BitVec 8 :=
  (if target.getLsbD 0 then floatFlagInvalid else 0#8) |||
  (if target.getLsbD 1 then floatFlagDivbyzero else 0#8) |||
  (if target.getLsbD 2 then floatFlagOverflow else 0#8) |||
  (if target.getLsbD 3 then floatFlagUnderflow else 0#8) |||
  (if target.getLsbD 4 then floatFlagInexact else 0#8) |||
  (if target.getLsbD 7 then floatFlagInputDenormal else 0#8)

end Flags

section Registers

scoped instance neZeroRegisters : NeZero 16 := ⟨by decide⟩

/-- `ARM_VFP_FPSCR`. -/
def armVfpFpscr : Fin 16 := 1

/-- The bits that `vfp_set_fpscr` stores as they are. -/
def storedBits : Word := 0xffc8ffff

variable (s : Vfp)

def vfpGetFpscr : Word :=
  (s.xregs armVfpFpscr &&& storedBits) ||| (s.vecLen <<< 16) ||| (s.vecStride <<< 20) |||
    vfpExceptbitsFromHost (s.fpStatus.exceptionFlags ||| s.standardFpStatus.exceptionFlags)

def roundingModeOf (val : Word) : RoundingMode :=
  match ((val >>> 22).setWidth 2).toFin with
  | 0 => .nearestEven
  | 1 => .up
  | 2 => .down
  | 3 => .toZero

def vfpSetFpscr (val : Word) : Vfp :=
  let changed := s.xregs armVfpFpscr ^^^ val
  { s with
    xregs := Function.update s.xregs armVfpFpscr (val &&& storedBits)
    vecLen := (val >>> 16) &&& 7#32
    vecStride := (val >>> 20) &&& 3#32
    fpStatus := {
      roundingMode := if changed &&& 0xc00000#32 ≠ 0#32 then roundingModeOf val else s.fpStatus.roundingMode
      flushToZero := if changed &&& 0x1000000#32 ≠ 0#32 then val.getLsbD 24 else s.fpStatus.flushToZero
      flushInputsToZero := if changed &&& 0x1000000#32 ≠ 0#32 then val.getLsbD 24 else s.fpStatus.flushInputsToZero
      defaultNanMode := if changed &&& 0x2000000#32 ≠ 0#32 then val.getLsbD 25 else s.fpStatus.defaultNanMode
      exceptionFlags := vfpExceptbitsToHost val }
    standardFpStatus := { s.standardFpStatus with exceptionFlags := 0 } }

/-- `SET_QC`. -/
def setQc : Vfp := { s with xregs := Function.update s.xregs armVfpFpscr cpsrQ }

/-- `float_raise` into `fp_status`. -/
def raise (flags : BitVec 8) : Vfp :=
  { s with fpStatus := { s.fpStatus with exceptionFlags := s.fpStatus.exceptionFlags ||| flags } }

/-- `float_raise` into `standard_fp_status`. -/
def raiseStandard (flags : BitVec 8) : Vfp :=
  { s with standardFpStatus :=
    { s.standardFpStatus with exceptionFlags := s.standardFpStatus.exceptionFlags ||| flags } }

/-- `cpu_reset`. -/
def resetVfp : Vfp :=
  { standardFpStatus := { flushToZero := true, flushInputsToZero := true, defaultNanMode := true } }

end Registers

section Saturation

variable {w : Nat}

/-- The result of a helper and whether it executed `SET_QC`. -/
abbrev Saturated (w : Nat) := BitVec w × Bool

/-- `NEON_USAT` of the additions. -/
def usatAdd (a b : BitVec w) : Saturated w :=
  let tmp : Word := a.setWidth 32 + b.setWidth 32
  if tmp ≠ (tmp.setWidth w).setWidth 32 then (BitVec.allOnes w, true) else (tmp.setWidth w, false)

/-- `NEON_USAT` of the subtractions. -/
def usatSub (a b : BitVec w) : Saturated w :=
  let tmp : Word := a.setWidth 32 - b.setWidth 32
  if tmp ≠ (tmp.setWidth w).setWidth 32 then (0, true) else (tmp.setWidth w, false)

/-- `NEON_SSAT` of the additions. -/
def ssatAdd (a b : BitVec w) : Saturated w :=
  let tmp : Word := a.signExtend 32 + b.signExtend 32
  if tmp ≠ (tmp.setWidth w).signExtend 32 then (if 0 < b.toInt then BitVec.intMax w else BitVec.intMin w, true)
  else (tmp.setWidth w, false)

/-- `NEON_SSAT` of the subtractions. -/
def ssatSub (a b : BitVec w) : Saturated w :=
  let tmp : Word := a.signExtend 32 - b.signExtend 32
  if tmp ≠ (tmp.setWidth w).signExtend 32 then (if b.toInt < 0 then BitVec.intMax w else BitVec.intMin w, true)
  else (tmp.setWidth w, false)

/-- `NEON_VOP` with lanes of eight bits. -/
def vop8 (fn : BitVec 8 → BitVec 8 → Saturated 8) (a b : Word) : Saturated 32 :=
  let lane (i : Nat) := fn (a.extractLsb' (8 * i) 8) (b.extractLsb' (8 * i) 8)
  ((lane 3).1 ++ (lane 2).1 ++ (lane 1).1 ++ (lane 0).1, (lane 0).2 || (lane 1).2 || (lane 2).2 || (lane 3).2)

/-- `NEON_VOP` with lanes of sixteen bits. -/
def vop16 (fn : BitVec 16 → BitVec 16 → Saturated 16) (a b : Word) : Saturated 32 :=
  let lane (i : Nat) := fn (a.extractLsb' (16 * i) 16) (b.extractLsb' (16 * i) 16)
  ((lane 1).1 ++ (lane 0).1, (lane 0).2 || (lane 1).2)

def neonQaddU8 : Word → Word → Saturated 32 := vop8 usatAdd
def neonQaddU16 : Word → Word → Saturated 32 := vop16 usatAdd
def neonQaddS8 : Word → Word → Saturated 32 := vop8 ssatAdd
def neonQaddS16 : Word → Word → Saturated 32 := vop16 ssatAdd
def neonQsubU8 : Word → Word → Saturated 32 := vop8 usatSub
def neonQsubU16 : Word → Word → Saturated 32 := vop16 usatSub
def neonQsubS8 : Word → Word → Saturated 32 := vop8 ssatSub
def neonQsubS16 : Word → Word → Saturated 32 := vop16 ssatSub

/-- `neon_qadd_u32` and `neon_qadd_u64`. -/
def neonQaddU (a b : BitVec w) : Saturated w :=
  let res := a + b
  if res < a then (BitVec.allOnes w, true) else (res, false)

/-- `neon_qadd_s32` and `neon_qadd_s64`. -/
def neonQaddS (a b : BitVec w) : Saturated w :=
  let res := a + b
  if (res ^^^ a).msb ∧ ¬ (a ^^^ b).msb then (~~~(a.sshiftRight (w - 1) ^^^ BitVec.intMin w), true) else (res, false)

def neonQsubU32 (a b : Word) : Saturated 32 :=
  let res := a - b
  if a < res then (0, true) else (res, false)

def neonQsubU64 (a b : BitVec 64) : Saturated 64 := if a < b then (0, true) else (a - b, false)

/-- `neon_qsub_s32` and `neon_qsub_s64`. -/
def neonQsubS (a b : BitVec w) : Saturated w :=
  let res := a - b
  if (res ^^^ a).msb ∧ (a ^^^ b).msb then (~~~(a.sshiftRight (w - 1) ^^^ BitVec.intMin w), true) else (res, false)

/-- The helpers on words. -/
inductive Neon
  | qaddU8 | qaddU16 | qaddS8 | qaddS16 | qsubU8 | qsubU16 | qsubS8 | qsubS16 | qaddU32 | qaddS32 | qsubU32 | qsubS32
deriving DecidableEq

/-- The helpers on double words. -/
inductive Neon64
  | qaddU64 | qaddS64 | qsubU64 | qsubS64
deriving DecidableEq

def Neon.apply : Neon → Word → Word → Saturated 32
  | qaddU8 => neonQaddU8
  | qaddU16 => neonQaddU16
  | qaddS8 => neonQaddS8
  | qaddS16 => neonQaddS16
  | qsubU8 => neonQsubU8
  | qsubU16 => neonQsubU16
  | qsubS8 => neonQsubS8
  | qsubS16 => neonQsubS16
  | qaddU32 => neonQaddU
  | qaddS32 => neonQaddS
  | qsubU32 => neonQsubU32
  | qsubS32 => neonQsubS

def Neon64.apply : Neon64 → BitVec 64 → BitVec 64 → Saturated 64
  | qaddU64 => neonQaddU
  | qaddS64 => neonQaddS
  | qsubU64 => neonQsubU64
  | qsubS64 => neonQsubS

end Saturation

section Sessions

inductive Op
  | setFpscr (val : Word)
  | neon (f : Neon) (a b : Word)
  | neon64 (f : Neon64) (a b : BitVec 64)
  /-- Any other helper that executes `SET_QC`. -/
  | saturating
  | raise (flags : BitVec 8)
  | raiseStandard (flags : BitVec 8)

def Op.saturates : Op → Bool
  | .neon f a b => (f.apply a b).2
  | .neon64 f a b => (f.apply a b).2
  | .saturating => true
  | _ => false

/-- The registers, the value last written and whether a saturation changed a bit other than `QC`. -/
structure Session where
  vfp : Vfp
  last : Word
  disturbed : Bool

def start : Session := ⟨resetVfp, 0, false⟩

def saturate (x : Session) : Session :=
  let vfp := setQc x.vfp
  let others (v : Vfp) := vfpGetFpscr v &&& ~~~cpsrQ
  ⟨vfp, x.last, x.disturbed || others vfp != others x.vfp⟩

def step (x : Session) (op : Op) : Except Empty (Session × Unit) :=
  .ok (match op with
    | .setFpscr val => ⟨vfpSetFpscr x.vfp val, val, x.disturbed⟩
    | .raise flags => { x with vfp := raise x.vfp flags }
    | .raiseStandard flags => { x with vfp := raiseStandard x.vfp flags }
    | op => if op.saturates then saturate x else x, ())

/-- `QC` and the exception flags. -/
def cumulativeBits : Word := 0x0800009f

/-- The settings in force and the value read are those last written, with cumulative bits added. -/
structure Coherent (x : Session) : Prop where
  roundingMode : x.vfp.fpStatus.roundingMode = roundingModeOf x.last
  flushToZero : x.vfp.fpStatus.flushToZero = x.last.getLsbD 24 ∧ x.vfp.fpStatus.flushInputsToZero = x.last.getLsbD 24
  defaultNanMode : x.vfp.fpStatus.defaultNanMode = x.last.getLsbD 25
  kept : vfpGetFpscr x.vfp &&& x.last = x.last
  added : vfpGetFpscr x.vfp &&& ~~~cumulativeBits = x.last &&& ~~~cumulativeBits
  undisturbed : x.disturbed = false

/-- The stored bits that do not accumulate. -/
def plainBits : Word := storedBits &&& ~~~cumulativeBits

/-- A saturation finds none of the bits that `SET_QC` clears. -/
def Spares (x : Session) (op : Op) : Prop := op.saturates = true → x.last &&& plainBits = 0#32

end Sessions

section Flags

/-- The exception flags of the register. -/
def exceptionBits : Word := 0x9f

theorem fromHost_or (a b : BitVec 8) :
    vfpExceptbitsFromHost (a ||| b) = vfpExceptbitsFromHost a ||| vfpExceptbitsFromHost b := by
  have hflag (f : BitVec 8) (c : Word) : (if (a ||| b) &&& f ≠ 0 then c else 0#32) =
      (if a &&& f ≠ 0 then c else 0#32) ||| (if b &&& f ≠ 0 then c else 0#32) := by
    have hor : (a ||| b) &&& f = 0#8 ↔ a &&& f = 0#8 ∧ b &&& f = 0#8 := by
      rw [BitVec.and_or_distrib_right, BitVec.or_eq_zero_iff]
    by_cases ha : a &&& f = 0#8 <;> by_cases hb : b &&& f = 0#8 <;> simp [hor, ha, hb]
  unfold vfpExceptbitsFromHost
  rw [hflag, hflag, hflag, hflag, hflag, hflag]
  ac_rfl

theorem fromHost_and (host : BitVec 8) : vfpExceptbitsFromHost host &&& exceptionBits = vfpExceptbitsFromHost host := by
  have hflag (p : Prop) [Decidable p] {c : Word} (hc : c &&& exceptionBits = c) :
      (if p then c else 0#32) &&& exceptionBits = if p then c else 0#32 := by
    split_ifs
    · exact hc
    · rfl
  unfold vfpExceptbitsFromHost
  simp only [BitVec.and_or_distrib_right]
  rw [hflag _ (by decide), hflag _ (by decide), hflag _ (by decide), hflag _ (by decide), hflag _ (by decide),
    hflag _ (by decide)]

theorem and_exceptionBits (v : Word) : v &&& exceptionBits =
    (if v.getLsbD 0 then 1#32 else 0#32) ||| (if v.getLsbD 1 then 2#32 else 0#32) |||
    (if v.getLsbD 2 then 4#32 else 0#32) ||| (if v.getLsbD 3 then 8#32 else 0#32) |||
    (if v.getLsbD 4 then 0x10#32 else 0#32) ||| (if v.getLsbD 7 then 0x80#32 else 0#32) := by
  have hbits : exceptionBits = 1#32 ||| 2#32 ||| 4#32 ||| 8#32 ||| 0x10#32 ||| 0x80#32 := by decide
  have h0 : v &&& 1#32 = if v.getLsbD 0 then 1#32 else 0#32 := BitVec.and_twoPow v 0
  have h1 : v &&& 2#32 = if v.getLsbD 1 then 2#32 else 0#32 := BitVec.and_twoPow v 1
  have h2 : v &&& 4#32 = if v.getLsbD 2 then 4#32 else 0#32 := BitVec.and_twoPow v 2
  have h3 : v &&& 8#32 = if v.getLsbD 3 then 8#32 else 0#32 := BitVec.and_twoPow v 3
  have h4 : v &&& 0x10#32 = if v.getLsbD 4 then 0x10#32 else 0#32 := BitVec.and_twoPow v 4
  have h7 : v &&& 0x80#32 = if v.getLsbD 7 then 0x80#32 else 0#32 := BitVec.and_twoPow v 7
  rw [hbits]
  simp only [BitVec.and_or_distrib_left, h0, h1, h2, h3, h4, h7]

/-- The flags come back from the host as they were written. -/
theorem fromHost_toHost (v : Word) : vfpExceptbitsFromHost (vfpExceptbitsToHost v) = v &&& exceptionBits := by
  rw [and_exceptionBits]
  unfold vfpExceptbitsToHost
  generalize v.getLsbD 0 = b₀, v.getLsbD 1 = b₁, v.getLsbD 2 = b₂, v.getLsbD 3 = b₃, v.getLsbD 4 = b₄, v.getLsbD 7 = b₇
  revert b₀ b₁ b₂ b₃ b₄ b₇
  decide

end Flags

section Parts

variable (s : Vfp)

/-- The vector length and stride in place. -/
def dims : Word := (s.vecLen <<< 16) ||| (s.vecStride <<< 20)

def dimBits : Word := 0x370000

def flags : Word := vfpExceptbitsFromHost (s.fpStatus.exceptionFlags ||| s.standardFpStatus.exceptionFlags)

theorem get_eq : vfpGetFpscr s = (s.xregs armVfpFpscr &&& storedBits) ||| (dims s ||| flags s) := by
  simp only [vfpGetFpscr, dims, flags, BitVec.or_assoc]

theorem flags_and : flags s &&& exceptionBits = flags s := fromHost_and _

/-- What holds of the registers in every run. -/
structure Bounded : Prop where
  dims : dims s &&& dimBits = dims s
  flags : s.xregs armVfpFpscr &&& exceptionBits &&& flags s = s.xregs armVfpFpscr &&& exceptionBits

theorem dims_set (val : Word) : dims (vfpSetFpscr s val) = val &&& dimBits := by
  have hlen : ((val >>> 16) &&& 7#32) <<< 16 = val &&& 0x70000#32 := field_shiftLeft val 7 16
  have hstride : ((val >>> 20) &&& 3#32) <<< 20 = val &&& 0x300000#32 := field_shiftLeft val 3 20
  have hbits : dimBits = 0x70000#32 ||| 0x300000#32 := by decide
  rw [hbits, BitVec.and_or_distrib_left, ← hlen, ← hstride]
  rfl

theorem flags_set (val : Word) : flags (vfpSetFpscr s val) = val &&& exceptionBits := by
  have hor : vfpExceptbitsToHost val ||| 0#8 = vfpExceptbitsToHost val := BitVec.or_zero
  rw [← fromHost_toHost]
  exact congrArg vfpExceptbitsFromHost hor

theorem xregs_set (val : Word) : (vfpSetFpscr s val).xregs armVfpFpscr = val &&& storedBits := by
  simp only [vfpSetFpscr, Function.update_self]

theorem get_set (val : Word) : vfpGetFpscr (vfpSetFpscr s val) = val := by
  have hstored : val &&& storedBits &&& storedBits = val &&& storedBits := by rw [BitVec.and_assoc, BitVec.and_self]
  rw [get_eq, xregs_set, dims_set, flags_set, hstored, ← BitVec.and_or_distrib_left, ← BitVec.and_or_distrib_left]
  exact BitVec.and_allOnes

theorem bounded_set (val : Word) : Bounded (vfpSetFpscr s val) where
  dims := by rw [dims_set, BitVec.and_assoc, BitVec.and_self]
  flags := by
    have hmask : storedBits &&& exceptionBits = exceptionBits := by decide
    rw [xregs_set, flags_set, BitVec.and_assoc val, hmask, BitVec.and_self]

theorem xregs_setQc : (setQc s).xregs armVfpFpscr = cpsrQ := by
  simp only [setQc, Function.update_self]

theorem bounded_setQc (h : Bounded s) : Bounded (setQc s) where
  dims := h.dims
  flags := by
    have hmask : cpsrQ &&& exceptionBits = 0#32 := by decide
    rw [xregs_setQc, hmask, BitVec.zero_and]

theorem flags_raise (f : BitVec 8) : flags (raise s f) = flags s ||| vfpExceptbitsFromHost f := by
  simp only [flags, raise, fromHost_or]
  ac_rfl

theorem flags_raiseStandard (f : BitVec 8) : flags (raiseStandard s f) = flags s ||| vfpExceptbitsFromHost f := by
  simp only [flags, raiseStandard, fromHost_or]
  ac_rfl

end Parts

section Coherence

variable {s : Vfp} {x : Session}

theorem get_and_not_cumulative (h : Bounded s) :
    vfpGetFpscr s &&& ~~~cumulativeBits = (s.xregs armVfpFpscr &&& plainBits) ||| dims s := by
  have hdims : dims s &&& ~~~cumulativeBits = dims s := by
    rw [← h.dims, BitVec.and_assoc]
    rfl
  have hflags : flags s &&& ~~~cumulativeBits = 0#32 := by
    rw [← flags_and, BitVec.and_assoc]
    exact BitVec.and_zero
  rw [get_eq, BitVec.and_or_distrib_right, BitVec.and_or_distrib_right, hdims, hflags, BitVec.or_zero, BitVec.and_assoc]
  rfl

theorem dims_and_plain (h : Bounded s) : dims s &&& plainBits = 0#32 := by
  rw [← h.dims, BitVec.and_assoc]
  exact BitVec.and_zero

/-- The stored copy agrees with the value last written outside the cumulative bits. -/
theorem Coherent.plain (h : Coherent x) (hb : Bounded x.vfp) :
    x.vfp.xregs armVfpFpscr &&& plainBits = x.last &&& plainBits := by
  have hadded := h.added
  rw [get_and_not_cumulative hb] at hadded
  have hmask := congrArg (· &&& plainBits) hadded
  have hplain : ~~~cumulativeBits &&& plainBits = plainBits := by decide
  simp only [BitVec.and_or_distrib_right, dims_and_plain hb, BitVec.or_zero, BitVec.and_assoc, BitVec.and_self, hplain]
    at hmask
  exact hmask

theorem roundingModeOf_congr {a b : Word} (h : a &&& 0xc00000#32 = b &&& 0xc00000#32) :
    roundingModeOf a = roundingModeOf b := by
  have hfield : (a >>> 22).setWidth 2 = (b >>> 22).setWidth 2 := by
    apply BitVec.eq_of_getLsbD_eq
    intro i hi
    simp only [BitVec.getLsbD_setWidth, BitVec.getLsbD_ushiftRight]
    congr 1
    refine getLsbD_of_and_eq h ?_
    obtain rfl | rfl : i = 0 ∨ i = 1 := by omega
    · decide
    · decide
  unfold roundingModeOf
  rw [hfield]

/-- A setting is updated when its bits differ from the stored copy, which has the bits last written. -/
theorem setting_updated {α : Type} (setting : Word → α) {stored last val mask : Word}
    (hsetting : ∀ {a b : Word}, a &&& mask = b &&& mask → setting a = setting b)
    (hstored : stored &&& plainBits = last &&& plainBits) (hmask : plainBits &&& mask = mask) :
    (if (stored ^^^ val) &&& mask ≠ 0#32 then setting val else setting last) = setting val := by
  have hsame : stored &&& mask = last &&& mask := by
    rw [← hmask, ← BitVec.and_assoc, ← BitVec.and_assoc, hstored]
  by_cases h : (stored ^^^ val) &&& mask = 0#32
  · rw [if_neg (not_not.mpr h)]
    exact hsetting (hsame.symm.trans (xor_and_eq_zero_iff.mp h))
  · rw [if_pos h]

theorem coherent_set (h : Coherent x) (hb : Bounded x.vfp) (val : Word) :
    Coherent ⟨vfpSetFpscr x.vfp val, val, x.disturbed⟩ := by
  have hplain := h.plain hb
  refine ⟨?_, ⟨?_, ?_⟩, ?_, ?_, ?_, h.undisturbed⟩
  · simp only [vfpSetFpscr, h.roundingMode]
    exact setting_updated roundingModeOf roundingModeOf_congr hplain (by decide)
  · simp only [vfpSetFpscr, h.flushToZero.1]
    exact setting_updated (BitVec.getLsbD · 24) (getLsbD_of_and_eq · (by decide)) hplain (by decide)
  · simp only [vfpSetFpscr, h.flushToZero.2]
    exact setting_updated (BitVec.getLsbD · 24) (getLsbD_of_and_eq · (by decide)) hplain (by decide)
  · simp only [vfpSetFpscr, h.defaultNanMode]
    exact setting_updated (BitVec.getLsbD · 25) (getLsbD_of_and_eq · (by decide)) hplain (by decide)
  · rw [get_set, BitVec.and_self]
  · rw [get_set]

/-- More exception flags are only added to what is read. -/
theorem coherent_of_flags (h : Coherent x) {t : Vfp} {f : Word} (hf : f &&& exceptionBits = f)
    (hget : vfpGetFpscr t = vfpGetFpscr x.vfp ||| f) (hround : t.fpStatus.roundingMode = x.vfp.fpStatus.roundingMode)
    (hflush : t.fpStatus.flushToZero = x.vfp.fpStatus.flushToZero)
    (hinputs : t.fpStatus.flushInputsToZero = x.vfp.fpStatus.flushInputsToZero)
    (hnan : t.fpStatus.defaultNanMode = x.vfp.fpStatus.defaultNanMode) : Coherent { x with vfp := t } := by
  have hcumulative : f &&& ~~~cumulativeBits = 0#32 := by
    rw [← hf, BitVec.and_assoc]
    exact BitVec.and_zero
  refine ⟨hround.trans h.roundingMode, ⟨hflush.trans h.flushToZero.1, hinputs.trans h.flushToZero.2⟩,
    hnan.trans h.defaultNanMode, ?_, ?_, h.undisturbed⟩
  · rw [hget, BitVec.and_or_distrib_right, h.kept, BitVec.or_comm]
    exact and_or_self f x.last
  · rw [hget, BitVec.and_or_distrib_right, hcumulative, BitVec.or_zero, h.added]

theorem get_raise (s : Vfp) (f : BitVec 8) : vfpGetFpscr (raise s f) = vfpGetFpscr s ||| vfpExceptbitsFromHost f := by
  rw [get_eq, get_eq, flags_raise, BitVec.or_assoc, BitVec.or_assoc]
  rfl

theorem get_raiseStandard (s : Vfp) (f : BitVec 8) :
    vfpGetFpscr (raiseStandard s f) = vfpGetFpscr s ||| vfpExceptbitsFromHost f := by
  rw [get_eq, get_eq, flags_raiseStandard, BitVec.or_assoc, BitVec.or_assoc]
  rfl

theorem bounded_of_flags (h : Bounded s) {t : Vfp} {f : Word} (hdims : dims t = dims s)
    (hxregs : t.xregs = s.xregs) (hflags : flags t = flags s ||| f) : Bounded t where
  dims := by rw [hdims, h.dims]
  flags := by
    rw [hxregs, hflags, BitVec.and_or_distrib_left, h.flags, BitVec.or_comm, BitVec.and_comm]
    exact and_or_self f _

theorem get_setQc (s : Vfp) : vfpGetFpscr (setQc s) = cpsrQ ||| (dims s ||| flags s) := by
  rw [get_eq, xregs_setQc]
  rfl

/-- With no plain bit set, only the flags remain of the stored copy. -/
theorem exceptions_and (hb : Bounded s) : vfpGetFpscr s &&& exceptionBits = flags s := by
  have hstored : s.xregs armVfpFpscr &&& storedBits &&& exceptionBits = s.xregs armVfpFpscr &&& exceptionBits := by
    rw [BitVec.and_assoc]
    rfl
  have hdims : dims s &&& exceptionBits = 0#32 := by
    rw [← hb.dims, BitVec.and_assoc]
    exact BitVec.and_zero
  rw [get_eq, BitVec.and_or_distrib_right, BitVec.and_or_distrib_right, hstored, hdims, flags_and, BitVec.zero_or]
  exact or_of_and_eq hb.flags

theorem kept_setQc (h : Coherent x) (hb : Bounded x.vfp) (hdims : dims x.vfp = x.last &&& ~~~cumulativeBits) :
    vfpGetFpscr (setQc x.vfp) &&& x.last = x.last := by
  have hlast : x.last = (x.last &&& cpsrQ) ||| ((x.last &&& ~~~cumulativeBits) ||| (x.last &&& exceptionBits)) := by
    rw [← BitVec.and_or_distrib_left, ← BitVec.and_or_distrib_left]
    exact BitVec.and_allOnes.symm
  have hflags : x.last &&& exceptionBits = flags x.vfp &&& x.last := by
    rw [← exceptions_and hb, BitVec.and_assoc, BitVec.and_comm exceptionBits, ← BitVec.and_assoc, h.kept]
  have hkept : dims x.vfp &&& x.last = dims x.vfp := by
    rw [hdims, BitVec.and_assoc, BitVec.and_comm _ x.last, ← BitVec.and_assoc, BitVec.and_self]
  rw [get_setQc, BitVec.and_or_distrib_right, BitVec.and_or_distrib_right, hkept, BitVec.and_comm cpsrQ, ← hflags,
    hdims]
  exact hlast.symm

theorem others_setQc (hb : Bounded s) (hplain : s.xregs armVfpFpscr &&& plainBits = 0#32) :
    vfpGetFpscr (setQc s) &&& ~~~cpsrQ = vfpGetFpscr s &&& ~~~cpsrQ := by
  have hstored : s.xregs armVfpFpscr &&& storedBits &&& ~~~cpsrQ = s.xregs armVfpFpscr &&& exceptionBits := by
    have hmask : storedBits &&& ~~~cpsrQ = plainBits ||| exceptionBits := by decide
    rw [BitVec.and_assoc, hmask, BitVec.and_or_distrib_left, hplain, BitVec.zero_or]
  have hq : cpsrQ &&& ~~~cpsrQ = 0#32 := by decide
  have hrest : (dims s ||| flags s) &&& ~~~cpsrQ = flags s ||| (dims s &&& ~~~cpsrQ) := by
    have hflags : flags s &&& ~~~cpsrQ = flags s := by
      rw [← flags_and, BitVec.and_assoc]
      rfl
    rw [BitVec.and_or_distrib_right, hflags, BitVec.or_comm]
  rw [get_setQc, get_eq, BitVec.and_or_distrib_right, hrest, BitVec.and_or_distrib_right, hrest, hq, hstored,
    BitVec.zero_or, ← BitVec.or_assoc, or_of_and_eq hb.flags]

/-- `SET_QC` keeps the register coherent exactly when there is nothing else for it to clear. -/
theorem coherent_saturate_iff (h : Coherent x) (hb : Bounded x.vfp) :
    Coherent (saturate x) ↔ x.last &&& plainBits = 0#32 := by
  have hnot : vfpGetFpscr (setQc x.vfp) &&& ~~~cumulativeBits = dims x.vfp := by
    have hq : cpsrQ &&& plainBits = 0#32 := by decide
    rw [get_and_not_cumulative (bounded_setQc x.vfp hb), xregs_setQc, hq, BitVec.zero_or]
    rfl
  constructor
  · intro ht
    have hadded : dims x.vfp = x.last &&& ~~~cumulativeBits := hnot.symm.trans ht.added
    have hmask : ~~~cumulativeBits &&& plainBits = plainBits := by decide
    rw [← hmask, ← BitVec.and_assoc, ← hadded, dims_and_plain hb]
  · intro hplain
    have hxregs : x.vfp.xregs armVfpFpscr &&& plainBits = 0#32 := (h.plain hb).trans hplain
    have hdims : dims x.vfp = x.last &&& ~~~cumulativeBits := by
      rw [← h.added, get_and_not_cumulative hb, hxregs, BitVec.zero_or]
    refine ⟨h.roundingMode, h.flushToZero, h.defaultNanMode, kept_setQc h hb hdims, hnot.trans hdims, ?_⟩
    simp only [saturate, h.undisturbed, others_setQc hb hxregs, bne_self_eq_false, Bool.or_false]

theorem bounded_step {t : Session} {o : Unit} {op : Op} (h : Bounded x.vfp) (hs : step x op = .ok (t, o)) :
    Bounded t.vfp := by
  have hsat : Bounded (if op.saturates then saturate x else x).vfp := by
    split_ifs
    · exact bounded_setQc x.vfp h
    · exact h
  cases op with
  | setFpscr val =>
    cases hs
    exact bounded_set x.vfp val
  | raise f =>
    cases hs
    exact bounded_of_flags h rfl rfl (flags_raise x.vfp f)
  | raiseStandard f =>
    cases hs
    exact bounded_of_flags h rfl rfl (flags_raiseStandard x.vfp f)
  | _ =>
    cases hs
    exact hsat

theorem coherent_step_iff {t : Session} {o : Unit} {op : Op} (h : Coherent x) (hb : Bounded x.vfp)
    (hs : step x op = .ok (t, o)) : Coherent t ↔ Spares x op := by
  have hsat : Coherent (if op.saturates then saturate x else x) ↔ Spares x op := by
    unfold Spares
    split_ifs with hop
    · rw [coherent_saturate_iff h hb]
      simp [hop]
    · simp [hop, h]
  cases op with
  | setFpscr val =>
    cases hs
    exact iff_of_true (coherent_set h hb val) (fun hop ↦ Bool.noConfusion hop)
  | raise f =>
    cases hs
    exact iff_of_true (coherent_of_flags h (fromHost_and f) (get_raise x.vfp f) rfl rfl rfl rfl)
      (fun hop ↦ Bool.noConfusion hop)
  | raiseStandard f =>
    cases hs
    exact iff_of_true (coherent_of_flags h (fromHost_and f) (get_raiseStandard x.vfp f) rfl rfl rfl rfl)
      (fun hop ↦ Bool.noConfusion hop)
  | _ =>
    cases hs
    exact hsat

theorem start_bounded : Bounded start.vfp := ⟨by decide, by decide⟩

theorem start_coherent : Coherent start := ⟨by decide, by decide, by decide, by decide, by decide, rfl⟩

/-- A run keeps the register coherent exactly when nothing saturates while a plain bit is set. -/
theorem coherent_throughout_iff (ops : List Op) :
    Throughout step Coherent start ops ↔ Attempts step Spares start ops := by
  rw [← throughout_and_iff (I := fun x ↦ Bounded x.vfp) start_bounded fun x op t o hb hs ↦ bounded_step hb hs]
  refine throughout_iff_attempts ⟨start_bounded, start_coherent⟩ ?_ ?_
  · rintro x op t o - ⟨hb, h⟩ hs
    rw [← coherent_step_iff h hb hs]
    exact and_iff_right (bounded_step hb hs)
  · intro x op h
    exact h _ _ rfl

theorem coherent_throughout_fails :
    ∃ t, Run step start [.setFpscr 0x1000000, .neon .qaddU8 0xff 1] t ∧ ¬ Coherent t := by
  refine ⟨_, .cons rfl (.cons rfl (.nil _)), fun h ↦ ?_⟩
  exact absurd h.undisturbed (by decide)

end Coherence

end IDeviceEmulator.Arm.Fpscr
