import IDeviceEmulator.Arm.Cpu
import IDeviceEmulator.Library.Masks

namespace IDeviceEmulator.Arm

open Masks

/-- How the fields of the CPU hold a status register. -/
structure Represented (s : Cpu) : Prop where
  uncached : s.uncachedCpsr &&& cachedCpsrBits = 0#32
  cf : s.cf = 0 ∨ s.cf = 1
  qf : s.qf = 0 ∨ s.qf = 1
  thumb : s.thumb = 0 ∨ s.thumb = 1
  ge : s.ge < 16
  condexecBits : s.condexecBits < 256

/-- The uncached part after a write. -/
def mergeCpsr (old val mask : Word) : Word :=
  (old &&& ~~~(mask &&& ~~~cachedCpsrBits)) ||| (val &&& (mask &&& ~~~cachedCpsrBits))

/-- A write that leaves the mode alone moves no register. -/
theorem cpsrWrite_keep {s : Cpu} {val mask : Word} (h : (s.uncachedCpsr ^^^ val) &&& mask &&& cpsrM = 0#32) :
    cpsrWrite s val mask =
      .ok { writeFlags s val mask with uncachedCpsr := mergeCpsr s.uncachedCpsr val mask } := by
  have hkeep : ¬ (((writeFlags s val mask).uncachedCpsr ^^^ val) &&& mask &&& cpsrM ≠ 0) := not_not.mpr h
  rw [cpsrWrite, if_neg hkeep]
  rfl

def fullMask : Word := 0xffffffff

section Written

variable (s : Cpu) (val : Word)

/-- The CPU after all bits of the status register were written without a change of mode. -/
def written : Cpu := { writeFlags s val fullMask with uncachedCpsr := val &&& ~~~cachedCpsrBits }

theorem written_zf : (if (written s val).zf = 0 then (1 : Word) else 0) <<< 30 = val &&& cpsrZ := by
  have hzf : (written s val).zf = 0 ↔ val &&& cpsrZ ≠ 0#32 := by
    have hnot : ~~~val &&& cpsrZ = (if (~~~val).getLsbD 30 then cpsrZ else 0#32) := BitVec.and_twoPow (~~~val) 30
    have hval : val &&& cpsrZ = (if val.getLsbD 30 then cpsrZ else 0#32) := BitVec.and_twoPow val 30
    have hbit : (~~~val).getLsbD 30 = !val.getLsbD 30 := by
      rw [BitVec.getLsbD_not, decide_eq_true (by decide), Bool.true_and]
    change ~~~val &&& cpsrZ = 0#32 ↔ _
    rw [hnot, hval, hbit]
    cases val.getLsbD 30 <;> decide
  rw [if_congr hzf rfl rfl]
  exact flag_shiftLeft val 30

theorem written_it01 : ((written s val).condexecBits &&& 3#32) <<< 25 = val &&& cpsrIt01 := by
  have hbits : (written s val).condexecBits &&& 3#32 = (val >>> 25) &&& 3#32 := by
    have hcond : (written s val).condexecBits = ((s.condexecBits &&& ~~~3#32 ||| (val >>> 25) &&& 3#32) &&& 3#32) |||
      ((val >>> 8) &&& 0xfc#32) := rfl
    have hold : s.condexecBits &&& ~~~3#32 &&& 3#32 = 0#32 := by
      rw [BitVec.and_assoc]
      exact BitVec.and_zero
    have hhigh : (val >>> 8) &&& 0xfc#32 &&& 3#32 = 0#32 := by
      rw [BitVec.and_assoc]
      exact BitVec.and_zero
    rw [hcond, BitVec.and_or_distrib_right, hhigh, BitVec.or_zero, BitVec.and_or_distrib_right, hold, BitVec.zero_or]
    simp only [BitVec.and_assoc, BitVec.and_self]
  rw [hbits]
  exact field_shiftLeft val 3 25

theorem written_it27 : ((written s val).condexecBits &&& 0xfc#32) <<< 8 = val &&& cpsrIt27 := by
  have hbits : (written s val).condexecBits &&& 0xfc#32 = (val >>> 8) &&& 0xfc#32 := by
    have hcond : (written s val).condexecBits = ((s.condexecBits &&& ~~~3#32 ||| (val >>> 25) &&& 3#32) &&& 3#32) |||
      ((val >>> 8) &&& 0xfc#32) := rfl
    have hlow (x : Word) : x &&& 3#32 &&& 0xfc#32 = 0#32 := by
      rw [BitVec.and_assoc]
      exact BitVec.and_zero
    rw [hcond, BitVec.and_or_distrib_right, hlow, BitVec.zero_or, BitVec.and_assoc, BitVec.and_self]
  rw [hbits]
  exact field_shiftLeft val 0xfc 8

theorem written_vf : ((written s val).vf &&& 0x80000000#32) >>> 3 = val &&& 0x10000000#32 := by
  have hvf : (written s val).vf &&& 0x80000000#32 = (val <<< 3) &&& 0x80000000#32 := by
    change (val <<< 3) &&& 0x80000000#32 &&& 0x80000000#32 = _
    rw [BitVec.and_assoc, BitVec.and_self]
  rw [hvf]
  exact field_ushiftRight val 0x80000000 3

theorem cpsrRead_written : cpsrRead (written s val) = val := by
  have hcf : (written s val).cf <<< 29 = val &&& 0x20000000#32 := field_shiftLeft val 1 29
  have hqf : (written s val).qf <<< 27 = val &&& cpsrQ := flag_shiftLeft val 27
  have hthumb : (written s val).thumb <<< 5 = val &&& cpsrT := flag_shiftLeft val 5
  have hge : (written s val).ge <<< 16 = val &&& cpsrGe := field_shiftLeft val 0xf 16
  have hnf : (written s val).nf = val := rfl
  have huncached : (written s val).uncachedCpsr = val &&& ~~~cachedCpsrBits := rfl
  unfold cpsrRead
  dsimp only
  rw [written_zf, written_it01, written_it27, written_vf, hcf, hqf, hthumb, hge, hnf, huncached]
  simp only [← BitVec.and_or_distrib_left]
  exact BitVec.and_allOnes

theorem written_represented : Represented (written s val) := by
  refine ⟨?_, and_one_cases (val >>> 29), ?_, ?_, ?_, ?_⟩
  · change val &&& ~~~cachedCpsrBits &&& cachedCpsrBits = 0#32
    rw [BitVec.and_assoc]
    exact BitVec.and_zero
  · change (if val &&& cpsrQ ≠ 0 then (1 : Word) else 0) = 0 ∨ (if val &&& cpsrQ ≠ 0 then (1 : Word) else 0) = 1
    split_ifs <;> decide
  · change (if val &&& cpsrT ≠ 0 then (1 : Word) else 0) = 0 ∨ (if val &&& cpsrT ≠ 0 then (1 : Word) else 0) = 1
    split_ifs <;> decide
  · exact and_lt (by decide)
  · have hlow (x : Word) : (x &&& 3#32).toNat < 2 ^ 8 := and_lt (m := 0x100) (by decide)
    have hhigh : ((val >>> 8) &&& 0xfc#32).toNat < 2 ^ 8 := and_lt (m := 0x100) (by decide)
    exact Nat.or_lt_two_pow (hlow _) hhigh

end Written

end IDeviceEmulator.Arm
