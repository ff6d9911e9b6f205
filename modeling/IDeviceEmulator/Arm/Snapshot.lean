import Mathlib.Data.Fin.Tuple.Basic
import IDeviceEmulator.Arm.Cpsr
import IDeviceEmulator.Library.Bytes

namespace IDeviceEmulator.Arm

open Bytes

section Save

def putBe32 (x : Word) : List Byte := putWord 4 x

def putBe64 (x : BitVec 64) : List Byte := putWord 8 x

/-- `CPU_DoubleU`, the upper half first. -/
def putDouble (d : BitVec 64) : List Byte := putBe32 (d.extractLsb' 32 32) ++ putBe32 (d.setWidth 32)

def putWords {n : Nat} (f : Fin n → Word) : List Byte := (Vector.ofFn f).toList.flatMap putBe32

def putDoubles {n : Nat} (f : Fin n → BitVec 64) : List Byte := (Vector.ofFn f).toList.flatMap putDouble

/-- The numbers of the banks. -/
def Bank.ofNumber : Fin 6 → Bank
  | 0 => usr
  | 1 => svc
  | 2 => abt
  | 3 => und
  | 4 => irq
  | 5 => fiq

def Bank.number : Bank → Fin 6
  | usr => 0
  | svc => 1
  | abt => 2
  | und => 3
  | irq => 4
  | fiq => 5

/-- `vfp.regs[0]` to `vfp.regs[15]`. -/
def lowDoubles (regs : Fin 32 → BitVec 64) : Fin 16 → BitVec 64 := fun i ↦ regs (i.castLE (by decide))

/-- `vfp.regs[16]` to `vfp.regs[31]`. -/
def highDoubles (regs : Fin 32 → BitVec 64) : Fin 16 → BitVec 64 := fun i ↦ regs (i.natAdd 16)

variable (s : Cpu)

def saveBanks : List Byte :=
  List.flatten [
    putBe32 s.spsr,
    (Vector.ofFn fun i ↦ (s.bankedSpsr (.ofNumber i), s.bankedR13 (.ofNumber i),
      s.bankedR14 (.ofNumber i))).toList.flatMap fun p ↦ putBe32 p.1 ++ (putBe32 p.2.1 ++ putBe32 p.2.2),
    (Vector.ofFn fun i ↦ (s.usrRegs i, s.fiqRegs i)).toList.flatMap fun p ↦ putBe32 p.1 ++ putBe32 p.2]

def saveCp15 : List Byte :=
  let c := s.cp15
  List.flatten [
    putBe32 c.c0Cpuid, putBe32 c.c0Cachetype, putBe32 c.c0Cssel, putBe32 c.c1Sys, putBe32 c.c1Coproc,
    putBe32 c.c1Xscaleauxcr, putBe32 c.c2Base0, putBe32 c.c2Base1, putBe32 c.c2Control, putBe32 c.c2Mask,
    putBe32 c.c2BaseMask, putBe32 c.c2Data, putBe32 c.c2Insn, putBe32 c.c3, putBe32 c.c5Insn, putBe32 c.c5Data,
    putWords c.c6Region, putBe32 c.c6Insn, putBe32 c.c6Data, putBe32 c.c7Par, putBe32 c.c9Insn, putBe32 c.c9Data,
    putBe32 c.c13Fcse, putBe32 c.c13Context, putBe32 c.c13Tls1, putBe32 c.c13Tls2, putBe32 c.c13Tls3,
    putBe32 c.c15Cpar]

def saveVfp3 : List Byte := if s.feature .vfp3 then putDoubles (highDoubles s.vfp.regs) else []

def saveVfp : List Byte :=
  if s.feature .vfp then
    putDoubles (lowDoubles s.vfp.regs) ++ (putWords s.vfp.xregs ++ (putBe32 s.vfp.vecLen ++
      (putBe32 s.vfp.vecStride ++ saveVfp3 s)))
  else []

def saveIwmmxt : List Byte :=
  if s.feature .iwmmxt then (Vector.ofFn s.iwmmxt.regs).toList.flatMap putBe64 ++ putWords s.iwmmxt.cregs else []

def saveV7m : List Byte :=
  if s.feature .m then
    List.flatten [putBe32 s.v7m.otherSp, putBe32 s.v7m.vecbase, putBe32 s.v7m.basepri, putBe32 s.v7m.control,
      putBe32 s.v7m.currentSp, putBe32 s.v7m.exception]
  else []

def saveThumb2ee : List Byte := if s.feature .thumb2ee then putBe32 s.teecr ++ putBe32 s.teehbr else []

def cpuSave : List Byte :=
  List.flatten [putWords s.regs, putBe32 (cpsrRead s), saveBanks s, saveCp15 s, putBe32 s.features, saveVfp s,
    saveIwmmxt s, saveV7m s, saveThumb2ee s]

end Save

section Load

def getBe32 : Reader Word := getWord 4 32

def getBe64 : Reader (BitVec 64) := getWord 8 64

def getDouble : Reader (BitVec 64) := do
  let upper ← getBe32
  let lower ← getBe32
  return upper ++ lower

variable (s : Cpu)

def loadBanks : Reader Cpu := do
  let spsr ← getBe32
  let banks ← getFn (getPair getBe32 (getPair getBe32 getBe32)) 6
  let windows ← getFn (getPair getBe32 getBe32) 5
  return { s with
    spsr
    bankedSpsr := fun b ↦ (banks b.number).1
    bankedR13 := fun b ↦ (banks b.number).2.1
    bankedR14 := fun b ↦ (banks b.number).2.2
    usrRegs := fun i ↦ (windows i).1
    fiqRegs := fun i ↦ (windows i).2 }

def loadCp15 : Reader Cpu := do
  let c0Cpuid ← getBe32
  let c0Cachetype ← getBe32
  let c0Cssel ← getBe32
  let c1Sys ← getBe32
  let c1Coproc ← getBe32
  let c1Xscaleauxcr ← getBe32
  let c2Base0 ← getBe32
  let c2Base1 ← getBe32
  let c2Control ← getBe32
  let c2Mask ← getBe32
  let c2BaseMask ← getBe32
  let c2Data ← getBe32
  let c2Insn ← getBe32
  let c3 ← getBe32
  let c5Insn ← getBe32
  let c5Data ← getBe32
  let c6Region ← getFn getBe32 8
  let c6Insn ← getBe32
  let c6Data ← getBe32
  let c7Par ← getBe32
  let c9Insn ← getBe32
  let c9Data ← getBe32
  let c13Fcse ← getBe32
  let c13Context ← getBe32
  let c13Tls1 ← getBe32
  let c13Tls2 ← getBe32
  let c13Tls3 ← getBe32
  let c15Cpar ← getBe32
  return { s with cp15 := {
    c0Cpuid, c0Cachetype, c0Cssel, c1Sys, c1Coproc, c1Xscaleauxcr, c2Base0, c2Base1, c2Control, c2Mask, c2BaseMask
    c2Data, c2Insn, c3, c5Insn, c5Data, c6Region, c6Insn, c6Data, c7Par, c9Insn, c9Data, c13Fcse, c13Context
    c13Tls1, c13Tls2, c13Tls3, c15Cpar } }

def setLowDoubles (regs : Fin 32 → BitVec 64) (low : Fin 16 → BitVec 64) : Fin 32 → BitVec 64 :=
  Fin.append low (highDoubles regs)

/-- The second loop counts from 0 as the first one does. -/
def loadVfp3 : Reader Cpu :=
  if s.feature .vfp3 then do
    let low ← getFn getDouble 16
    return { s with vfp := { s.vfp with regs := setLowDoubles s.vfp.regs low } }
  else return s

def loadVfp : Reader Cpu :=
  if s.feature .vfp then do
    let low ← getFn getDouble 16
    let xregs ← getFn getBe32 16
    let vecLen ← getBe32
    let vecStride ← getBe32
    loadVfp3 { s with vfp := { s.vfp with regs := setLowDoubles s.vfp.regs low, xregs, vecLen, vecStride } }
  else return s

def loadIwmmxt : Reader Cpu :=
  if s.feature .iwmmxt then do
    let regs ← getFn getBe64 16
    let cregs ← getFn getBe32 16
    return { s with iwmmxt := { regs, cregs } }
  else return s

def loadV7m : Reader Cpu :=
  if s.feature .m then do
    let otherSp ← getBe32
    let vecbase ← getBe32
    let basepri ← getBe32
    let control ← getBe32
    let currentSp ← getBe32
    let exception ← getBe32
    return { s with v7m := { otherSp, vecbase, basepri, control, currentSp, exception } }
  else return s

def loadThumb2ee : Reader Cpu :=
  if s.feature .thumb2ee then do
    let teecr ← getBe32
    let teehbr ← getBe32
    return { s with teecr, teehbr }
  else return s

/-- What follows the status register in the stream. -/
def loadRest : Reader Cpu := do
  let s ← loadBanks s
  let s ← loadCp15 s
  let features ← getBe32
  let s := { s with features }
  let s ← loadVfp s
  let s ← loadIwmmxt s
  let s ← loadV7m s
  loadThumb2ee s

inductive LoadError
  /-- `-EINVAL`. -/
  | version
  | fault (f : Fault)

def cpuSaveVersion : Nat := 3

/-- `cpu_load` from the write of the status register on. -/
def loadCpsr (val : Word) (stream : List Byte) : Except LoadError (Cpu × List Byte) :=
  match cpsrWrite { s with uncachedCpsr := val &&& cpsrM } val fullMask with
  | .error f => .error (.fault f)
  | .ok s => .ok (loadRest s stream)

def cpuLoad (version : Nat) (stream : List Byte) : Except LoadError (Cpu × List Byte) :=
  if version ≠ cpuSaveVersion then .error .version
  else
    let head := getPair (getFn getBe32 16) getBe32 stream
    loadCpsr { s with regs := head.1.1 } head.1.2 head.2

end Load

section Reading

theorem reads_getBe32 (x : Word) : Reads getBe32 (putBe32 x) x := reads_getWord (by decide) x

theorem reads_getDouble (d : BitVec 64) : Reads getDouble (putDouble d) d := by
  have hd : d.extractLsb' 32 32 ++ d.setWidth 32 = d := by
    apply BitVec.eq_of_getLsbD_eq
    intro i hi
    rw [BitVec.getLsbD_append]
    by_cases hlow : i < 32
    · simp [hlow]
    · have hhigh : i - 32 < 32 := by omega
      rw [if_neg hlow, BitVec.getLsbD_extractLsb', decide_eq_true hhigh, Bool.true_and, Nat.add_sub_of_le (by omega)]
  have hread :=
    (reads_getBe32 (d.extractLsb' 32 32)).bind (f := fun upper ↦ getBe32 >>= fun lower ↦ pure (upper ++ lower))
    ((reads_getBe32 (d.setWidth 32)).bind (.pure _))
  rw [List.append_nil, hd] at hread
  exact hread

theorem reads_words {n : Nat} (f : Fin n → Word) : Reads (getFn getBe32 n) (putWords f) f :=
  reads_getFn reads_getBe32 f

theorem reads_doubles {n : Nat} (f : Fin n → BitVec 64) : Reads (getFn getDouble n) (putDoubles f) f :=
  reads_getFn reads_getDouble f

theorem Bank.ofNumber_number (b : Bank) : Bank.ofNumber b.number = b := by
  cases b <;> rfl

variable (s t : Cpu)

theorem reads_loadBanks : Reads (loadBanks t) (saveBanks s) { t with
    spsr := s.spsr, bankedSpsr := s.bankedSpsr, bankedR13 := s.bankedR13, bankedR14 := s.bankedR14
    usrRegs := s.usrRegs, fiqRegs := s.fiqRegs } := by
  have hbanks := reads_getFn (fun p : Word × Word × Word ↦ (reads_getBe32 p.1).pair
    ((reads_getBe32 p.2.1).pair (reads_getBe32 p.2.2))) fun i ↦
      (s.bankedSpsr (.ofNumber i), s.bankedR13 (.ofNumber i), s.bankedR14 (.ofNumber i))
  have hwindows := reads_getFn (fun p : Word × Word ↦ (reads_getBe32 p.1).pair (reads_getBe32 p.2)) fun i ↦
    (s.usrRegs i, s.fiqRegs i)
  refine (reads_getBe32 s.spsr).bind (hbanks.bind (hwindows.bind ?_))
  simp only [Bank.ofNumber_number]
  exact .pure _

theorem reads_loadCp15 : Reads (loadCp15 t) (saveCp15 s) { t with cp15 := s.cp15 } := by
  have h := reads_getBe32
  exact (h _).bind ((h _).bind ((h _).bind ((h _).bind ((h _).bind ((h _).bind ((h _).bind ((h _).bind ((h _).bind
    ((h _).bind ((h _).bind ((h _).bind ((h _).bind ((h _).bind ((h _).bind ((h _).bind ((reads_words _).bind
    ((h _).bind ((h _).bind ((h _).bind ((h _).bind ((h _).bind ((h _).bind ((h _).bind ((h _).bind ((h _).bind
    ((h _).bind ((h _).bind (.pure _))))))))))))))))))))))))))))

/-- The double registers after a load. -/
def loadedDoubles (v : Vfp) : Fin 32 → BitVec 64 :=
  let regs := setLowDoubles v.regs (lowDoubles s.vfp.regs)
  if s.feature .vfp3 then setLowDoubles regs (highDoubles s.vfp.regs) else regs

def loadedVfp (v : Vfp) : Vfp :=
  if s.feature .vfp then
    { v with regs := loadedDoubles s v, xregs := s.vfp.xregs, vecLen := s.vfp.vecLen, vecStride := s.vfp.vecStride }
  else v

variable {s t}

theorem feature_of_features (h : t.features = s.features) (f : Feature) : t.feature f = s.feature f := by
  rw [Cpu.feature, Cpu.feature, h]

theorem reads_loadVfp3 (h : t.features = s.features) : Reads (loadVfp3 t) (saveVfp3 s) { t with vfp :=
    { t.vfp with regs :=
      if s.feature .vfp3 then setLowDoubles t.vfp.regs (highDoubles s.vfp.regs) else t.vfp.regs } } := by
  unfold loadVfp3 saveVfp3
  rw [feature_of_features h]
  split_ifs
  · rw [← List.append_nil (putDoubles _)]
    exact (reads_doubles _).bind (.pure _)
  · exact .pure _

theorem reads_loadVfp (h : t.features = s.features) :
    Reads (loadVfp t) (saveVfp s) { t with vfp := loadedVfp s t.vfp } := by
  unfold loadVfp saveVfp loadedVfp
  rw [feature_of_features h]
  split_ifs
  · exact (reads_doubles _).bind ((reads_words _).bind ((reads_getBe32 _).bind ((reads_getBe32 _).bind
      (reads_loadVfp3 h))))
  · exact .pure _

theorem reads_loadIwmmxt (h : t.features = s.features) : Reads (loadIwmmxt t) (saveIwmmxt s)
    { t with iwmmxt := if s.feature .iwmmxt then s.iwmmxt else t.iwmmxt } := by
  unfold loadIwmmxt saveIwmmxt
  rw [feature_of_features h]
  split_ifs
  · rw [← List.append_nil (putWords _)]
    exact (reads_getFn (reads_getWord (by decide)) _).bind ((reads_words _).bind (.pure _))
  · exact .pure _

theorem reads_loadV7m (h : t.features = s.features) : Reads (loadV7m t) (saveV7m s)
    { t with v7m := if s.feature .m then s.v7m else t.v7m } := by
  unfold loadV7m saveV7m
  rw [feature_of_features h]
  have hword := reads_getBe32
  split_ifs
  · exact (hword _).bind ((hword _).bind ((hword _).bind ((hword _).bind ((hword _).bind ((hword _).bind (.pure _))))))
  · exact .pure _

theorem reads_loadThumb2ee (h : t.features = s.features) : Reads (loadThumb2ee t) (saveThumb2ee s)
    { t with
      teecr := if s.feature .thumb2ee then s.teecr else t.teecr
      teehbr := if s.feature .thumb2ee then s.teehbr else t.teehbr } := by
  unfold loadThumb2ee saveThumb2ee
  rw [feature_of_features h]
  split_ifs
  · rw [← List.append_nil (putBe32 s.teehbr)]
    exact (reads_getBe32 _).bind ((reads_getBe32 _).bind (.pure _))
  · exact .pure _

/-- What a CPU holds after the stream of another one was loaded into it. -/
def loaded (s t : Cpu) : Cpu :=
  { t with
    spsr := s.spsr, bankedSpsr := s.bankedSpsr, bankedR13 := s.bankedR13, bankedR14 := s.bankedR14
    usrRegs := s.usrRegs, fiqRegs := s.fiqRegs, cp15 := s.cp15, features := s.features, vfp := loadedVfp s t.vfp
    iwmmxt := if s.feature .iwmmxt then s.iwmmxt else t.iwmmxt
    v7m := if s.feature .m then s.v7m else t.v7m
    teecr := if s.feature .thumb2ee then s.teecr else t.teecr
    teehbr := if s.feature .thumb2ee then s.teehbr else t.teehbr }

theorem reads_loadRest (s t : Cpu) : Reads (loadRest t) (List.flatten [saveBanks s, saveCp15 s, putBe32 s.features,
    saveVfp s, saveIwmmxt s, saveV7m s, saveThumb2ee s]) (loaded s t) := by
  simp only [List.flatten_cons, List.flatten_nil, List.append_nil]
  refine (reads_loadBanks s t).bind ?_
  refine (reads_loadCp15 s _).bind ?_
  refine (reads_getBe32 s.features).bind ?_
  refine Reads.bind (reads_loadVfp rfl) ?_
  refine Reads.bind (reads_loadIwmmxt rfl) ?_
  refine Reads.bind (reads_loadV7m rfl) ?_
  exact reads_loadThumb2ee rfl

end Reading

section Restoring

variable (s t : Cpu)

/-- The mode of the loaded status register is in place before it is written, so no bank is switched. -/
theorem cpsrWrite_loaded (val : Word) :
    cpsrWrite { t with uncachedCpsr := val &&& cpsrM } val fullMask = .ok (written t val) := by
  have hkeep : (val &&& cpsrM ^^^ val) &&& fullMask &&& cpsrM = 0#32 := by
    rw [BitVec.and_assoc]
    refine Masks.xor_and_eq_zero_iff.mpr ?_
    rw [BitVec.and_assoc]
    rfl
  have hmerge : mergeCpsr (val &&& cpsrM) val fullMask = val &&& ~~~cachedCpsrBits := by
    have hclean : val &&& cpsrM &&& ~~~(fullMask &&& ~~~cachedCpsrBits) = 0#32 := by
      rw [BitVec.and_assoc]
      exact BitVec.and_zero
    rw [mergeCpsr, hclean, BitVec.zero_or]
    rfl
  have hwrite := cpsrWrite_keep (s := { t with uncachedCpsr := val &&& cpsrM }) hkeep
  rw [hmerge] at hwrite
  exact hwrite

theorem loadCpsr_eq (val : Word) (stream : List Byte) :
    loadCpsr t val stream = .ok (loadRest (written t val) stream) := by
  rw [loadCpsr, cpsrWrite_loaded]

theorem cpuLoad_of_head {stream rest : List Byte} {regs : Fin 16 → Word} {val : Word}
    (h : getPair (getFn getBe32 16) getBe32 stream = ((regs, val), rest)) :
    cpuLoad t cpuSaveVersion stream = loadCpsr { t with regs } val rest := by
  unfold cpuLoad
  rw [h]
  exact if_neg (not_not.mpr rfl)

theorem cpuLoad_cpuSave (rest : List Byte) : cpuLoad t cpuSaveVersion (cpuSave s ++ rest) =
    .ok (loaded s (written { t with regs := s.regs } (cpsrRead s)), rest) := by
  have hhead := (reads_words s.regs).pair (reads_getBe32 (cpsrRead s))
  have hstream :
      cpuSave s ++ rest = (putWords s.regs ++ putBe32 (cpsrRead s)) ++ (List.flatten [saveBanks s, saveCp15 s,
      putBe32 s.features, saveVfp s, saveIwmmxt s, saveV7m s, saveThumb2ee s] ++ rest) := by
    rw [cpuSave, List.flatten_cons, List.flatten_cons, List.append_assoc, List.append_assoc, List.append_assoc]
  rw [hstream, cpuLoad_of_head t (hhead _), loadCpsr_eq, reads_loadRest]

/-- The registers of a saved CPU are those of the loaded one. -/
structure Restored (u : Cpu) : Prop where
  regs : u.regs = s.regs
  cpsr : cpsrRead u = cpsrRead s
  spsr : u.spsr = s.spsr
  bankedSpsr : u.bankedSpsr = s.bankedSpsr
  bankedR13 : u.bankedR13 = s.bankedR13
  bankedR14 : u.bankedR14 = s.bankedR14
  usrRegs : u.usrRegs = s.usrRegs
  fiqRegs : u.fiqRegs = s.fiqRegs
  cp15 : u.cp15 = s.cp15
  features : u.features = s.features
  lowDoubles : s.feature .vfp = true → lowDoubles u.vfp.regs = lowDoubles s.vfp.regs
  highDoubles : s.feature .vfp = true → s.feature .vfp3 = true → highDoubles u.vfp.regs = highDoubles s.vfp.regs
  xregs : s.feature .vfp = true → u.vfp.xregs = s.vfp.xregs
  vecLen : s.feature .vfp = true → u.vfp.vecLen = s.vfp.vecLen
  vecStride : s.feature .vfp = true → u.vfp.vecStride = s.vfp.vecStride

/-- The upper registers are lost unless they equal the lower ones and are already in place. -/
def KeepsDoubles : Prop :=
  s.feature .vfp = true → s.feature .vfp3 = true →
    lowDoubles s.vfp.regs = highDoubles s.vfp.regs ∧ highDoubles t.vfp.regs = highDoubles s.vfp.regs

theorem lowDoubles_setLow (regs : Fin 32 → BitVec 64) (low : Fin 16 → BitVec 64) :
    lowDoubles (setLowDoubles regs low) = low := by
  funext i
  exact Fin.append_left low (highDoubles regs) i

theorem highDoubles_setLow (regs : Fin 32 → BitVec 64) (low : Fin 16 → BitVec 64) :
    highDoubles (setLowDoubles regs low) = highDoubles regs := by
  funext i
  exact Fin.append_right low (highDoubles regs) i

theorem lowDoubles_loaded (v : Vfp) : lowDoubles (loadedDoubles s v) =
    if s.feature .vfp3 then highDoubles s.vfp.regs else lowDoubles s.vfp.regs := by
  unfold loadedDoubles
  split_ifs <;> exact lowDoubles_setLow _ _

theorem highDoubles_loaded (v : Vfp) : highDoubles (loadedDoubles s v) = highDoubles v.regs := by
  unfold loadedDoubles
  dsimp only
  split_ifs
  · rw [highDoubles_setLow, highDoubles_setLow]
  · rw [highDoubles_setLow]

theorem restored_iff : Restored s (loaded s (written { t with regs := s.regs } (cpsrRead s))) ↔ KeepsDoubles s t := by
  have hvfp (h : s.feature .vfp = true) (v : Vfp) : loadedVfp s v = { v with
      regs := loadedDoubles s v, xregs := s.vfp.xregs, vecLen := s.vfp.vecLen, vecStride := s.vfp.vecStride } := by
    rw [loadedVfp, if_pos h]
  constructor
  · intro h hfp hfp3
    have hlow := h.lowDoubles hfp
    have hhigh := h.highDoubles hfp hfp3
    simp only [loaded, hvfp hfp] at hlow hhigh
    rw [lowDoubles_loaded, if_pos hfp3] at hlow
    rw [highDoubles_loaded] at hhigh
    exact ⟨hlow.symm, hhigh⟩
  · intro h
    refine ⟨rfl, cpsrRead_written { t with regs := s.regs } (cpsrRead s), rfl, rfl, rfl, rfl, rfl, rfl, rfl, rfl,
      ?_, ?_,
      ?_, ?_, ?_⟩
    · intro hfp
      simp only [loaded, hvfp hfp, lowDoubles_loaded]
      split_ifs with hfp3
      · exact (h hfp hfp3).1.symm
      · rfl
    · intro hfp hfp3
      simp only [loaded, hvfp hfp, highDoubles_loaded]
      exact (h hfp hfp3).2
    · intro hfp
      simp only [loaded, hvfp hfp]
    · intro hfp
      simp only [loaded, hvfp hfp]
    · intro hfp
      simp only [loaded, hvfp hfp]

/-- A snapshot is restored in full, with its bytes consumed, exactly when the upper double registers
are not needed. -/
theorem snapshot_restored_iff (rest : List Byte) :
    (∃ u, cpuLoad t cpuSaveVersion (cpuSave s ++ rest) = .ok (u, rest) ∧ Restored s u) ↔ KeepsDoubles s t := by
  rw [cpuLoad_cpuSave, ← restored_iff]
  constructor
  · rintro ⟨u, hu, h⟩
    cases hu
    exact h
  · exact fun h ↦ ⟨_, rfl, h⟩

/-- A CPU with VFP3 in user mode and a value in `d16`. -/
def vfp3Cpu : Cpu := { uncachedCpsr := 0x10, features := 0x201, vfp := { regs := fun i ↦ if i = 16 then 1 else 0 } }

theorem snapshot_restored_fails :
    ¬ ∃ u, cpuLoad {} cpuSaveVersion (cpuSave vfp3Cpu ++ []) = .ok (u, []) ∧ Restored vfp3Cpu u := by
  rw [cpuLoad_cpuSave]
  rintro ⟨u, hu, h⟩
  cases hu
  have hkeeps := (restored_iff vfp3Cpu {}).mp h (by decide) (by decide)
  exact absurd (congrFun hkeeps.1 0) (by decide)

end Restoring

end IDeviceEmulator.Arm
