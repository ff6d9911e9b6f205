import IDeviceEmulator.Arm.Banked
import IDeviceEmulator.Arm.Cpsr

namespace IDeviceEmulator.Arm

open Masks

section Status

variable {s : Cpu} {m n : Mode}

/-- A switch touches the registers only. -/
theorem switched_eq (s : Cpu) (m n : Mode) : ∃ regs spsr bankedSpsr bankedR13 bankedR14 usrRegs fiqRegs,
    switched s m n = { s with regs, spsr, bankedSpsr, bankedR13, bankedR14, usrRegs, fiqRegs } := by
  unfold switched
  split_ifs
  · exact ⟨_, _, _, _, _, _, _, rfl⟩
  · unfold swapWindow
    split_ifs <;> exact ⟨_, _, _, _, _, _, _, rfl⟩

theorem Represented.switched (h : Represented s) (m n : Mode) : Represented (switched s m n) := by
  obtain ⟨_, _, _, _, _, _, _, heq⟩ := switched_eq s m n
  rw [heq]
  exact ⟨h.uncached, h.cf, h.qf, h.thumb, h.ge, h.condexecBits⟩

theorem shiftLeft_and_cpsrM (v : Word) {k : Nat} (hk : 5 ≤ k) : v <<< k &&& cpsrM = 0#32 := by
  apply BitVec.eq_of_getLsbD_eq
  intro i hi
  by_cases h5 : i < k
  · simp [h5]
  · have hbit : cpsrM.getLsbD i = false := by
      have hmask : cpsrM = BitVec.setWidth 32 (BitVec.allOnes 5) := by decide
      have hge : ¬ i < 5 := by omega
      rw [hmask, BitVec.getLsbD_setWidth, BitVec.getLsbD_allOnes, decide_eq_false hge, Bool.and_false]
    simp [hbit]

/-- The mode bits of the status register are those of the uncached part. -/
theorem cpsrRead_and_cpsrM (s : Cpu) : cpsrRead s &&& cpsrM = s.mode := by
  have hnf : s.nf &&& 0x80000000#32 &&& cpsrM = 0#32 := by
    rw [BitVec.and_assoc]
    exact BitVec.and_zero
  have hvf : (s.vf &&& 0x80000000#32) >>> 3 &&& cpsrM = 0#32 := by
    rw [BitVec.ushiftRight_and_distrib, BitVec.and_assoc]
    exact BitVec.and_zero
  unfold cpsrRead
  dsimp only
  simp only [BitVec.and_or_distrib_right, hnf, hvf, shiftLeft_and_cpsrM _ (k := 30) (by decide),
    shiftLeft_and_cpsrM _ (k := 29) (by decide), shiftLeft_and_cpsrM _ (k := 27) (by decide),
    shiftLeft_and_cpsrM _ (k := 5) (by decide), shiftLeft_and_cpsrM _ (k := 25) (by decide),
    shiftLeft_and_cpsrM _ (k := 8) (by decide), shiftLeft_and_cpsrM _ (k := 16) (by decide), BitVec.or_zero]
  rfl

/-- A write of all bits is read back, from any state whose uncached part is clean. -/
theorem cpsrWrite_full (hs : s.mode = m.bits) (hu : s.uncachedCpsr &&& cachedCpsrBits = 0#32) {val : Word}
    (hval : val &&& cpsrM = n.bits) : ∃ t, cpsrWrite s val fullMask = .ok t ∧ cpsrRead t = val ∧ Represented t ∧
      cellsIn n t = cellsIn m s := by
  obtain ⟨regs, spsr, bankedSpsr, bankedR13, bankedR14, usrRegs, fiqRegs, heq⟩ :=
    switched_eq (writeFlags s val fullMask) m n
  have hmerge : mergeCpsr s.uncachedCpsr val fullMask = val &&& ~~~cachedCpsrBits := by
    have hold : s.uncachedCpsr &&& ~~~(fullMask &&& ~~~cachedCpsrBits) = 0#32 := hu
    rw [mergeCpsr, hold, BitVec.zero_or]
    rfl
  have hcells := cellsIn_switched (writeFlags s val fullMask) m n
  have hwrite := cpsrWrite_mode hs (show fullMask &&& cpsrM = cpsrM by decide) hval
  rw [hmerge] at hwrite
  refine ⟨_, hwrite, ?_, ?_, ?_⟩
  · rw [heq]
    exact cpsrRead_written s val
  · rw [heq]
    obtain ⟨huncached, hcf, hqf, hthumb, hge, hcond⟩ := written_represented s val
    exact ⟨huncached, hcf, hqf, hthumb, hge, hcond⟩
  · rw [cellsIn_uncached, hcells, cellsIn_writeFlags]

end Status

section Returning

/-- The registers that a handler may change before it returns. -/
def Own (n : Mode) : Cell → Prop
  | .low _ => False
  | .high fiq _ => fiq = true ∧ n = .fiq
  | .r13 b | .r14 b | .spsr b => b = n.bank

/-- The CPU at the end of a handler that was entered in a mode. The flags may have any values. -/
structure Handled (n : Mode) (t h : Cpu) : Prop where
  mode : h.mode = n.bits
  uncached : h.uncachedCpsr &&& cachedCpsrBits = 0#32
  kept : ∀ c, ¬ Own n c → cellsIn n h c = cellsIn n t c

/-- The return of a handler with the values it found in its `SPSR` and `r14`. -/
def handlerReturn (h : Cpu) (status link offset : Word) : Except Fault Cpu := do
  let s ← cpsrWrite h status fullMask
  return { s with regs := Function.update s.regs pc (link - offset) }

variable {s : Cpu} {m n : Mode}

theorem not_own_cell (hbank : n.bank ≠ m.bank) (r : Fin 15) : ¬ Own n (m.cell r) := by
  unfold Mode.cell
  split_ifs
  · exact id
  · rintro ⟨hfiq, rfl⟩
    exact hbank (by rw [of_decide_eq_true hfiq])
  · exact fun h ↦ hbank h.symm
  · exact fun h ↦ hbank h.symm

theorem not_own_spsr (hbank : n.bank ≠ m.bank) : ¬ Own n (.spsr m.bank) := fun h ↦ hbank h.symm

/-- What an exception leaves of the registers of the interrupted mode. -/
theorem cellsIn_entered {e : Entry} {c : Cell} (hc : ¬ Own e.newMode c) :
    cellsIn e.newMode (enter (switched s m e.newMode) e) c = cellsIn m s c := by
  have h14 : c ≠ .r14 e.newMode.bank := by
    rintro rfl
    exact hc rfl
  have hspsr : c ≠ .spsr e.newMode.bank := by
    rintro rfl
    exact hc rfl
  rw [cellsIn_enter, Function.update_of_ne h14, Function.update_of_ne hspsr, cellsIn_switched]

theorem entry_mask {e : Exception} {e' : Entry} (he : entry s e = .ok e') :
    e'.mask &&& cachedCpsrBits = 0#32 ∧ e'.mask &&& cpsrM = 0#32 := by
  have hi : cpsrI &&& cachedCpsrBits = 0#32 ∧ cpsrI &&& cpsrM = 0#32 := by decide
  cases e with
  | udef =>
    cases he
    exact hi
  | other index => cases he
  | _ =>
    cases he
    decide

theorem enter_represented (hr : Represented s) {e : Entry} (he : e.mask &&& cachedCpsrBits = 0#32) :
    Represented (enter s e) := by
  refine ⟨?_, hr.cf, hr.qf, ?_, hr.ge, (by decide : (0 : Word) < 256)⟩
  · change ((s.uncachedCpsr &&& ~~~cpsrM ||| e.newMode.bits) ||| e.mask) &&& cachedCpsrBits = 0#32
    have hbits : e.newMode.bits &&& cachedCpsrBits = 0#32 := by cases e.newMode <;> decide
    have hold : s.uncachedCpsr &&& ~~~cpsrM &&& cachedCpsrBits = 0#32 := by
      rw [BitVec.and_assoc, BitVec.and_comm (~~~cpsrM), ← BitVec.and_assoc, hr.uncached, BitVec.zero_and]
    rw [BitVec.and_or_distrib_right, BitVec.and_or_distrib_right, hold, hbits, he, BitVec.or_zero, BitVec.or_zero]
  · change (if s.cp15.c1Sys.getLsbD 30 then (1 : Word) else 0) = 0 ∨
      (if s.cp15.c1Sys.getLsbD 30 then (1 : Word) else 0) = 1
    split_ifs <;> decide

theorem regs_of_cells {t : Cpu} (h : ∀ r, cellsIn m t (m.cell r) = cellsIn m s (m.cell r))
    (hpc : t.regs pc = s.regs pc) :
    t.regs = s.regs := by
  funext i
  refine Fin.lastCases hpc (fun r ↦ ?_) i
  rw [← cellsIn_cell m t r, ← cellsIn_cell m s r, h]

theorem enter_spsr (s : Cpu) (e : Entry) : (enter s e).spsr = cpsrRead s := rfl

theorem enter_lr (s : Cpu) (e : Entry) : (enter s e).regs lr = s.regs pc + e.offset := by
  have hne : lr ≠ pc := by decide
  simp only [enter, Function.update_of_ne hne, Function.update_self]

/-- Every exception taken in another bank returns to the interrupted state, whatever its handler left in
the registers of its own. -/
theorem exception_returns (hs : s.mode = m.bits) (hr : Represented s) (hm : s.feature .m = false)
    (v7m : Cpu → Exception → Except Fault Cpu) {e : Exception} {e' : Entry} (he : entry s e = .ok e')
    (hbank : e'.newMode.bank ≠ m.bank) :
    ∃ t, doInterrupt s v7m e = .ok t ∧ Represented t ∧ t.mode = e'.newMode.bits ∧
      ∀ h, Handled e'.newMode t h → ∃ u, handlerReturn h t.spsr (t.regs lr) e'.offset = .ok u ∧ Represented u ∧
        cpsrRead u = cpsrRead s ∧ u.regs = s.regs ∧ u.spsr = s.spsr := by
  obtain ⟨hcached, hmask⟩ := entry_mask he
  refine ⟨_, doInterrupt_eq hs hm v7m he, enter_represented (hr.switched m e'.newMode) hcached, enter_mode _ _ hmask,
    ?_⟩
  intro h hh
  have hkept (c : Cell) (hc : ¬ Own e'.newMode c) : cellsIn e'.newMode h c = cellsIn m s c :=
    (hh.kept c hc).trans (cellsIn_entered hc)
  rw [enter_spsr, enter_lr, cpsrRead_switched, switched_pc]
  obtain ⟨u, hu, hread, hrep, hcells⟩ := cpsrWrite_full hh.mode hh.uncached ((cpsrRead_and_cpsrM s).trans hs)
  refine ⟨{ u with regs := Function.update u.regs pc (s.regs pc + e'.offset - e'.offset) }, ?_, ?_, hread, ?_, ?_⟩
  · rw [handlerReturn, hu]
    rfl
  · exact ⟨hrep.uncached, hrep.cf, hrep.qf, hrep.thumb, hrep.ge, hrep.condexecBits⟩
  · refine regs_of_cells (m := m) (fun r ↦ ?_) ?_
    · rw [cellsIn_pc, hcells, hkept _ (not_own_cell hbank r)]
    · simp only [Function.update_self, BitVec.add_sub_cancel]
  · have hspsr : cellsIn m u (.spsr m.bank) = cellsIn m s (.spsr m.bank) := by rw [hcells, hkept _ (not_own_spsr hbank)]
    simpa only [cellsIn, if_true] using hspsr

def interruptedCpu : Cpu := { uncachedCpsr := 0x10, cf := 1, zf := 1, thumb := 1, ge := 5, condexecBits := 0x2c }

theorem exception_returns_interrupted :
    ∃ t, doInterrupt interruptedCpu unhandledV7m .irq = .ok t ∧ Represented t ∧ t.mode = Mode.irq.bits ∧
      ∀ h, Handled .irq t h → ∃ u, handlerReturn h t.spsr (t.regs lr) 4 = .ok u ∧ Represented u ∧
        cpsrRead u = cpsrRead interruptedCpu ∧ u.regs = interruptedCpu.regs ∧ u.spsr = interruptedCpu.spsr := by
  have hmode : interruptedCpu.mode = Mode.usr.bits := by decide
  have hrep : Represented interruptedCpu :=
    ⟨by decide, .inr rfl, .inl rfl, .inr rfl, by decide, by decide⟩
  exact exception_returns hmode hrep (by decide) unhandledV7m (e := .irq) rfl (by decide)

end Returning

end IDeviceEmulator.Arm
