import IDeviceEmulator.Arm.Cpsr
import IDeviceEmulator.Library.History

namespace IDeviceEmulator.Arm

open History Machine Masks

section Modes

def modes : List Mode := [.usr, .fiq, .irq, .svc, .abt, .und, .sys]

def Mode.ofBits (w : Word) : Option Mode := modes.find? fun m ↦ m.bits = w

@[simp] theorem Mode.ofBits_bits (m : Mode) : Mode.ofBits m.bits = some m := by
  cases m <;> decide

theorem Mode.bits_injective {m n : Mode} (h : m.bits = n.bits) : m = n := by
  have hsome := congrArg Mode.ofBits h
  rw [Mode.ofBits_bits, Mode.ofBits_bits] at hsome
  exact Option.some.inj hsome

@[simp] theorem bankNumber_bits (m : Mode) : bankNumber m.bits = .ok m.bank := by
  cases m <;> rfl

theorem bits_and_cpsrM (m : Mode) : m.bits &&& cpsrM = m.bits := by
  cases m <;> rfl

theorem Mode.ofBits_isSome_iff (w : Word) : (Mode.ofBits w).isSome = true ↔ ∃ m : Mode, w = m.bits := by
  rw [Mode.ofBits, List.find?_isSome]
  constructor
  · rintro ⟨m, -, hm⟩
    exact ⟨m, (of_decide_eq_true hm).symm⟩
  · rintro ⟨m, rfl⟩
    exact ⟨m, by cases m <;> decide, decide_eq_true rfl⟩

end Modes

section Cells

/-- The architectural registers. `r8` to `r12` have a copy for FIQ. -/
inductive Cell
  | low (i : Fin 8)
  | high (fiq : Bool) (i : Fin 5)
  | r13 (b : Bank)
  | r14 (b : Bank)
  | spsr (b : Bank)
deriving DecidableEq

def Mode.cell (m : Mode) (r : Fin 15) : Cell :=
  if h8 : r.val < 8 then .low ⟨r.val, h8⟩
  else if h13 : r.val < 13 then .high (m = .fiq) ⟨r.val - 8, by omega⟩
  else if r.val = 13 then .r13 m.bank
  else .r14 m.bank

/-- Where the registers are kept while the CPU is in a mode. -/
def cellsIn (m : Mode) (s : Cpu) : Cell → Word
  | .low i => s.regs ⟨i.val, by omega⟩
  | .high fiq i => if fiq = decide (m = .fiq) then window s.regs i else if fiq then s.fiqRegs i else s.usrRegs i
  | .r13 b => if b = m.bank then s.regs sp else s.bankedR13 b
  | .r14 b => if b = m.bank then s.regs lr else s.bankedR14 b
  | .spsr b => if b = m.bank then s.spsr else s.bankedSpsr b

/-- The CPU with the mode of the register file that it stands for. -/
structure System where
  cpu : Cpu
  mode : Mode

def System.cells (x : System) : Cell → Word := cellsIn x.mode x.cpu

def System.InMode (x : System) : Prop := x.cpu.mode = x.mode.bits

inductive Op
  | cpsrWrite (val mask : Word)
  | interrupt (e : Exception)
  | write (r : Fin 15) (v : Word)
  | read (r : Fin 15)
  | writeSpsr (v : Word)
  | readSpsr
  | setR13Banked (mode : Mode) (v : Word)
  | getR13Banked (mode : Mode)
  | setUserReg (r : Fin 15) (v : Word)
  | getUserReg (r : Fin 15)

/-- Mode bits of a mask are all set or all clear, and a written mode is one of the seven. A banked
`r13` is that of another bank, and the user registers are accessed from modes with registers of
their own. -/
def Legal (x : System) : Op → Prop
  | .cpsrWrite val mask => mask &&& cpsrM = 0 ∨ mask &&& cpsrM = cpsrM ∧ ∃ m : Mode, val &&& cpsrM = m.bits
  | .interrupt e => x.cpu.feature .m = false ∧ ∀ index, e ≠ .other index
  | .setR13Banked mode _ | .getR13Banked mode => mode.bank ≠ x.mode.bank
  | .setUserReg _ _ | .getUserReg _ => x.mode ≠ .usr ∧ x.mode ≠ .sys
  | _ => True

instance Legal.decidable (x : System) : ∀ op : Op, Decidable (Legal x op)
  | .cpsrWrite val mask =>
    decidable_of_iff
      (mask &&& cpsrM = 0 ∨ mask &&& cpsrM = cpsrM ∧ (Mode.ofBits (val &&& cpsrM)).isSome = true)
      (or_congr_right (and_congr_right' (Mode.ofBits_isSome_iff _)))
  | .interrupt (.other index) => isFalse fun h ↦ h.2 index rfl
  | .interrupt .udef | .interrupt .swi | .interrupt .prefetchAbort | .interrupt .dataAbort | .interrupt .irq
  | .interrupt .fiq | .interrupt .bkpt => decidable_of_iff (x.cpu.feature .m = false) (by simp [Legal])
  | .setR13Banked mode _ | .getR13Banked mode => inferInstanceAs (Decidable (mode.bank ≠ x.mode.bank))
  | .setUserReg _ _ | .getUserReg _ => inferInstanceAs (Decidable (x.mode ≠ .usr ∧ x.mode ≠ .sys))
  | .write _ _ | .read _ | .writeSpsr _ | .readSpsr => inferInstanceAs (Decidable True)

/-- The operations with the accesses to the register file that they stand for. -/
def step (v7m : Cpu → Exception → Except Fault Cpu) (x : System) :
    Op → Except Fault (System × List (Event Cell Word))
  | .cpsrWrite val mask => do
    let cpu ← cpsrWrite x.cpu val mask
    let mode := if mask &&& cpsrM = 0 then x.mode else (Mode.ofBits (val &&& cpsrM)).getD x.mode
    return (⟨cpu, mode⟩, [])
  | .interrupt e => do
    let e' ← entry x.cpu e
    let cpu ← doInterrupt x.cpu v7m e
    return (⟨cpu, e'.newMode⟩, [.write (.spsr e'.newMode.bank) (cpsrRead x.cpu),
      .write (.r14 e'.newMode.bank) (x.cpu.regs pc + e'.offset)])
  | .write r v =>
    .ok (⟨{ x.cpu with regs := Function.update x.cpu.regs r.castSucc v }, x.mode⟩, [.write (x.mode.cell r) v])
  | .read r => .ok (x, [.read (x.mode.cell r) (x.cpu.regs r.castSucc)])
  | .writeSpsr v => .ok (⟨{ x.cpu with spsr := v }, x.mode⟩, [.write (.spsr x.mode.bank) v])
  | .readSpsr => .ok (x, [.read (.spsr x.mode.bank) x.cpu.spsr])
  | .setR13Banked mode v => do
    let cpu ← setR13Banked x.cpu mode.bits v
    return (⟨cpu, x.mode⟩, [.write (.r13 mode.bank) v])
  | .getR13Banked mode => do
    let v ← getR13Banked x.cpu mode.bits
    return (x, [.read (.r13 mode.bank) v])
  | .setUserReg r v => .ok (⟨setUserReg x.cpu r v, x.mode⟩, [.write (Mode.usr.cell r) v])
  | .getUserReg r => .ok (x, [.read (Mode.usr.cell r) (getUserReg x.cpu r)])

end Cells

section Switching

variable {s : Cpu} {m n : Mode}

def switched (s : Cpu) (m n : Mode) : Cpu :=
  if n = m then s else loadBank (saveBank (swapWindow s m.bits n.bits) m.bank) n.bank

theorem switchMode_eq (h : s.mode = m.bits) (n : Mode) : switchMode s n.bits = .ok (switched s m n) := by
  have hold : s.uncachedCpsr &&& cpsrM = m.bits := h
  unfold switchMode switched
  dsimp only
  rw [hold]
  by_cases hn : n = m
  · rw [hn, if_pos rfl, if_pos rfl]
  · rw [if_neg fun hb ↦ hn (Mode.bits_injective hb), if_neg hn, bankNumber_bits, bankNumber_bits]
    rfl

theorem window_setWindow (regs : Fin 16 → Word) (w : Fin 5 → Word) : window (setWindow regs w) = w := by
  funext i
  have hi : 8 ≤ 8 + i.val ∧ 8 + i.val < 13 := by omega
  simp only [window, setWindow, dif_pos hi, Nat.add_sub_cancel_left]

theorem setWindow_of_not {regs : Fin 16 → Word} {w : Fin 5 → Word} {i : Fin 16}
    (h : ¬ (8 ≤ i.val ∧ i.val < 13)) : setWindow regs w i = regs i := dif_neg h

theorem window_update_of_le (regs : Fin 16 → Word) {i : Fin 16} (h : 13 ≤ i.val) (v : Word) :
    window (Function.update regs i v) = window regs := by
  funext j
  have hne : (⟨8 + j.val, by omega⟩ : Fin 16) ≠ i := by
    intro he
    have hval := congrArg Fin.val he
    simp only at hval
    omega
  exact Function.update_of_ne hne v regs

section Parts

variable (s : Cpu) (old new : Word) (b c : Bank)

theorem swapWindow_regs {i : Fin 16} (h : ¬ (8 ≤ i.val ∧ i.val < 13)) : (swapWindow s old new).regs i = s.regs i := by
  unfold swapWindow
  split_ifs
  · exact setWindow_of_not h
  · exact setWindow_of_not h
  · rfl

theorem swapWindow_banks : (swapWindow s old new).bankedR13 = s.bankedR13 ∧
    (swapWindow s old new).bankedR14 = s.bankedR14 ∧ (swapWindow s old new).bankedSpsr = s.bankedSpsr ∧
      (swapWindow s old new).spsr = s.spsr := by
  unfold swapWindow
  split_ifs <;> exact ⟨rfl, rfl, rfl, rfl⟩

theorem exchange_regs {i : Fin 16} (h : i.val < 13) : (loadBank (saveBank s b) c).regs i = s.regs i := by
  have hsp : i ≠ sp := fun he ↦ absurd (congrArg Fin.val he) (Nat.ne_of_lt h)
  have hlr : i ≠ lr := fun he ↦ absurd (congrArg Fin.val he) (Nat.ne_of_lt (Nat.lt_succ_of_lt h))
  exact (Function.update_of_ne hlr _ _).trans (Function.update_of_ne hsp _ _)

theorem exchange_sp : (loadBank (saveBank s b) c).regs sp = Function.update s.bankedR13 b (s.regs sp) c := by
  have hne : sp ≠ lr := by decide
  simp only [loadBank, saveBank, Function.update_of_ne hne, Function.update_self]

theorem exchange_lr : (loadBank (saveBank s b) c).regs lr = Function.update s.bankedR14 b (s.regs lr) c := by
  simp only [loadBank, saveBank, Function.update_self]

/-- A value kept in place for the current bank and in the table for the others. -/
theorem update_cell (table : Bank → Word) (v : Word) (d : Bank) :
    (if d = c then Function.update table b v c else Function.update table b v d) = if d = b then v else table d := by
  have hd : (if d = c then Function.update table b v c else Function.update table b v d) =
      Function.update table b v d := by
    split_ifs with h
    · rw [h]
    · rfl
  rw [hd, Function.update_apply]

end Parts

theorem high_switched (s : Cpu) {m n : Mode} (hn : n ≠ m) (fiq : Bool) (i : Fin 5) :
    cellsIn n (switched s m n) (.high fiq i) = cellsIn m s (.high fiq i) := by
  have hwindow (s : Cpu) (b c : Bank) : window (loadBank (saveBank s b) c).regs = window s.regs := by
    funext j
    exact exchange_regs s b c (by simp only; omega)
  rw [switched, if_neg hn]
  simp only [cellsIn, hwindow]
  by_cases hm : m = .fiq
  · subst hm
    have hswap : swapWindow s Mode.fiq.bits n.bits =
        { s with fiqRegs := window s.regs, regs := setWindow s.regs s.usrRegs } := if_pos rfl
    simp only [hswap, loadBank, saveBank, window_setWindow, hn]
    cases fiq <;> rfl
  · have hm' : m.bits ≠ Mode.fiq.bits := fun h ↦ hm (Mode.bits_injective h)
    by_cases hf : n = .fiq
    · subst hf
      have hswap : swapWindow s m.bits Mode.fiq.bits =
          { s with usrRegs := window s.regs, regs := setWindow s.regs s.fiqRegs } := by
        rw [swapWindow, if_neg hm', if_pos rfl]
      simp only [hswap, loadBank, saveBank, window_setWindow, hm]
      cases fiq <;> rfl
    · have hf' : n.bits ≠ Mode.fiq.bits := fun h ↦ hf (Mode.bits_injective h)
      have hswap : swapWindow s m.bits n.bits = s := by rw [swapWindow, if_neg hm', if_neg hf']
      simp only [hswap, loadBank, saveBank, hm, hf]

/-- A switch moves the registers without changing what any of the cells holds. -/
theorem cellsIn_switched (s : Cpu) (m n : Mode) : cellsIn n (switched s m n) = cellsIn m s := by
  by_cases hn : n = m
  · rw [switched, if_pos hn, hn]
  · funext c
    obtain ⟨h13, h14, hspsr, hcur⟩ := swapWindow_banks s m.bits n.bits
    cases c with
    | low i =>
      rw [switched, if_neg hn]
      refine (exchange_regs _ _ _ (by simp only; omega)).trans (swapWindow_regs s _ _ ?_)
      simp only
      omega
    | high fiq i => exact high_switched s hn fiq i
    | r13 b =>
      rw [switched, if_neg hn]
      simp only [cellsIn, exchange_sp]
      simp only [loadBank, saveBank, swapWindow_regs s m.bits n.bits (i := sp) (by decide), h13]
      exact update_cell m.bank n.bank s.bankedR13 (s.regs sp) b
    | r14 b =>
      rw [switched, if_neg hn]
      simp only [cellsIn, exchange_lr]
      simp only [loadBank, saveBank, swapWindow_regs s m.bits n.bits (i := lr) (by decide), h14]
      exact update_cell m.bank n.bank s.bankedR14 (s.regs lr) b
    | spsr b =>
      rw [switched, if_neg hn]
      simp only [cellsIn, loadBank, saveBank, hspsr, hcur]
      exact update_cell m.bank n.bank s.bankedSpsr s.spsr b

end Switching

section Steps

variable {s : Cpu} {m : Mode}

theorem uncached_and_cpsrM (mask : Word) : mask &&& ~~~cachedCpsrBits &&& cpsrM = mask &&& cpsrM := by
  have h : ~~~cachedCpsrBits &&& cpsrM = cpsrM := by decide
  rw [BitVec.and_assoc, h]

theorem cellsIn_eq_of_regs {t : Cpu} (hregs : t.regs = s.regs) (h13 : t.bankedR13 = s.bankedR13)
    (h14 : t.bankedR14 = s.bankedR14) (hbank : t.bankedSpsr = s.bankedSpsr) (hspsr : t.spsr = s.spsr)
    (husr : t.usrRegs = s.usrRegs) (hfiq : t.fiqRegs = s.fiqRegs) (m : Mode) : cellsIn m t = cellsIn m s := by
  funext c
  cases c <;> simp only [cellsIn, hregs, h13, h14, hbank, hspsr, husr, hfiq]

theorem cellsIn_uncached (m : Mode) (s : Cpu) (u : Word) : cellsIn m { s with uncachedCpsr := u } = cellsIn m s :=
  cellsIn_eq_of_regs rfl rfl rfl rfl rfl rfl rfl m

theorem cellsIn_writeFlags (m : Mode) (s : Cpu) (val mask : Word) : cellsIn m (writeFlags s val mask) = cellsIn m s :=
  cellsIn_eq_of_regs rfl rfl rfl rfl rfl rfl rfl m

theorem swapWindow_uncached (s : Cpu) (old new : Word) : (swapWindow s old new).uncachedCpsr = s.uncachedCpsr := by
  unfold swapWindow
  split_ifs <;> rfl

theorem switched_uncached (s : Cpu) (m n : Mode) : (switched s m n).uncachedCpsr = s.uncachedCpsr := by
  unfold switched
  split_ifs
  · rfl
  · exact swapWindow_uncached s _ _

/-- A write without mode bits moves no register. -/
theorem cpsrWrite_same (hs : s.mode = m.bits) (val : Word) {mask : Word} (hmask : mask &&& cpsrM = 0) :
    ∃ t, cpsrWrite s val mask = .ok t ∧ t.mode = m.bits ∧ cellsIn m t = cellsIn m s := by
  have hkeep : (s.uncachedCpsr ^^^ val) &&& mask &&& cpsrM = 0#32 := by
    rw [BitVec.and_assoc, hmask]
    exact BitVec.and_zero
  refine ⟨_, cpsrWrite_keep hkeep, ?_, ?_⟩
  · refine (and_of_masked ?_).trans hs
    rw [uncached_and_cpsrM, hmask]
    rfl
  · rw [cellsIn_uncached, cellsIn_writeFlags]

theorem cpsrWrite_mode (hs : s.mode = m.bits) {val mask : Word} (hmask : mask &&& cpsrM = cpsrM) {n : Mode}
    (hval : val &&& cpsrM = n.bits) : cpsrWrite s val mask =
      .ok { switched (writeFlags s val mask) m n with uncachedCpsr := mergeCpsr s.uncachedCpsr val mask } := by
  have hguard : (s.uncachedCpsr ^^^ val) &&& mask &&& cpsrM = 0#32 ↔ n = m := by
    rw [BitVec.and_assoc, hmask]
    refine xor_and_eq_zero_iff.trans ?_
    rw [hval]
    refine ⟨fun h ↦ (Mode.bits_injective (hs.symm.trans h)).symm, fun h ↦ ?_⟩
    rw [h]
    exact hs
  by_cases hn : n = m
  · rw [cpsrWrite_keep (hguard.mpr hn), switched, if_pos hn]
  · have hchange : ((writeFlags s val mask).uncachedCpsr ^^^ val) &&& mask &&& cpsrM ≠ 0 := fun h ↦ hn (hguard.mp h)
    have hflags : (writeFlags s val mask).mode = m.bits := hs
    have hu := switched_uncached (writeFlags s val mask) m n
    rw [cpsrWrite, if_pos hchange, hval, switchMode_eq hflags]
    simp only [bind, Except.bind, pure, Except.pure, hu]
    rfl

/-- A write of a mode switches to it. -/
theorem cpsrWrite_switch (hs : s.mode = m.bits) {val mask : Word} (hmask : mask &&& cpsrM = cpsrM) {n : Mode}
    (hval : val &&& cpsrM = n.bits) :
    ∃ t, cpsrWrite s val mask = .ok t ∧ t.mode = n.bits ∧ cellsIn n t = cellsIn m s := by
  refine ⟨_, cpsrWrite_mode hs hmask hval, ?_, ?_⟩
  · refine (and_of_merge ?_).trans hval
    rw [uncached_and_cpsrM, hmask]
  · rw [cellsIn_uncached, cellsIn_switched, cellsIn_writeFlags]

theorem cpsrRead_switched (s : Cpu) (m n : Mode) : cpsrRead (switched s m n) = cpsrRead s := by
  unfold switched
  split_ifs
  · rfl
  · unfold swapWindow
    split_ifs <;> rfl

theorem switched_pc (s : Cpu) (m n : Mode) : (switched s m n).regs pc = s.regs pc := by
  unfold switched
  split_ifs
  · rfl
  · have hsp : pc ≠ sp := by decide
    have hlr : pc ≠ lr := by decide
    simp only [loadBank, saveBank, Function.update_of_ne hlr, Function.update_of_ne hsp]
    exact swapWindow_regs s _ _ (by decide)

end Steps

section Accesses

variable (m : Mode) (s : Cpu) (r : Fin 15)

theorem low_eq_cell_iff (i : Fin 8) : Cell.low i = m.cell r ↔ i.val = r.val := by
  unfold Mode.cell
  split_ifs <;> simp [Fin.ext_iff] <;> omega

theorem high_eq_cell_iff (fiq : Bool) (i : Fin 5) :
    Cell.high fiq i = m.cell r ↔ fiq = decide (m = .fiq) ∧ 8 + i.val = r.val := by
  unfold Mode.cell
  split_ifs <;> simp [Fin.ext_iff] <;> omega

theorem r13_eq_cell_iff (b : Bank) : Cell.r13 b = m.cell r ↔ b = m.bank ∧ r.val = 13 := by
  unfold Mode.cell
  split_ifs <;> simp <;> omega

theorem r14_eq_cell_iff (b : Bank) : Cell.r14 b = m.cell r ↔ b = m.bank ∧ r.val = 14 := by
  unfold Mode.cell
  split_ifs <;> simp <;> omega

theorem spsr_ne_cell (b : Bank) : Cell.spsr b ≠ m.cell r := by
  unfold Mode.cell
  split_ifs <;> simp

theorem cellsIn_cell : cellsIn m s (m.cell r) = s.regs r.castSucc := by
  unfold Mode.cell
  split_ifs with h8 h13 hr
  · rfl
  · simp only [cellsIn, if_true, window]
    exact congrArg s.regs (Fin.ext (by simp only [Fin.val_castSucc]; omega))
  · simp only [cellsIn, if_true]
    exact congrArg s.regs (Fin.ext hr.symm)
  · simp only [cellsIn, if_true]
    exact congrArg s.regs (Fin.ext (by simp only [lr, Fin.val_castSucc]; omega))

theorem cellsIn_write (v : Word) : cellsIn m { s with regs := Function.update s.regs r.castSucc v } =
    Function.update (cellsIn m s) (m.cell r) v := by
  funext c
  rw [Function.update_apply]
  cases c with
  | low i => simp only [cellsIn, low_eq_cell_iff, Function.update_apply, Fin.ext_iff, Fin.val_castSucc]
  | high fiq i =>
    simp only [cellsIn, window, high_eq_cell_iff, Function.update_apply, Fin.ext_iff, Fin.val_castSucc]
    split_ifs <;> tauto
  | r13 b =>
    simp only [cellsIn, r13_eq_cell_iff, Function.update_apply, Fin.ext_iff, Fin.val_castSucc, sp]
    split_ifs <;> grind
  | r14 b =>
    simp only [cellsIn, r14_eq_cell_iff, Function.update_apply, Fin.ext_iff, Fin.val_castSucc, lr]
    split_ifs <;> grind
  | spsr b => rw [if_neg (spsr_ne_cell m r b), cellsIn, cellsIn]

theorem cellsIn_pc (v : Word) : cellsIn m { s with regs := Function.update s.regs pc v } = cellsIn m s := by
  have hsp : sp ≠ pc := by decide
  have hlr : lr ≠ pc := by decide
  funext c
  cases c with
  | low i =>
    have hne : (⟨i.val, by omega⟩ : Fin 16) ≠ pc := Fin.ne_of_val_ne (by simp only [pc]; omega)
    simp only [cellsIn, Function.update_of_ne hne]
  | high fiq i => simp only [cellsIn, window_update_of_le s.regs (i := pc) (by decide)]
  | r13 b => simp only [cellsIn, Function.update_of_ne hsp]
  | r14 b => simp only [cellsIn, Function.update_of_ne hlr]
  | spsr b => rfl

theorem cellsIn_spsr (v : Word) :
    cellsIn m { s with spsr := v } = Function.update (cellsIn m s) (.spsr m.bank) v := by
  funext c
  rw [Function.update_apply]
  cases c with
  | spsr b =>
    simp only [cellsIn, Cell.spsr.injEq]
    split_ifs <;> rfl
  | _ => rfl

theorem cell_lr : m.cell 14 = .r14 m.bank := rfl

end Accesses

section Interrupts

variable {s : Cpu} {m : Mode}

theorem enter_mode (s : Cpu) (e : Entry) (h : e.mask &&& cpsrM = 0#32) : (enter s e).mode = e.newMode.bits := by
  have hclear : s.uncachedCpsr &&& ~~~cpsrM &&& cpsrM = 0#32 := by
    rw [BitVec.and_assoc]
    exact (congrArg (s.uncachedCpsr &&& ·) (show ~~~cpsrM &&& cpsrM = 0#32 by decide)).trans BitVec.and_zero
  have hmode : ((s.uncachedCpsr &&& ~~~cpsrM ||| e.newMode.bits) ||| e.mask) &&& cpsrM = e.newMode.bits := by
    rw [BitVec.and_or_distrib_right, BitVec.and_or_distrib_right, hclear, h, bits_and_cpsrM, BitVec.zero_or,
      BitVec.or_zero]
  exact hmode

/-- An exception leaves the status and the return address in the bank of its mode. -/
theorem cellsIn_enter (s : Cpu) (e : Entry) :
    cellsIn e.newMode (enter s e) = Function.update (Function.update (cellsIn e.newMode s) (.spsr e.newMode.bank)
      (cpsrRead s)) (.r14 e.newMode.bank) (s.regs pc + e.offset) := by
  let saved : Cpu := { s with spsr := cpsrRead s }
  let linked : Cpu := { saved with regs := Function.update saved.regs (Fin.castSucc 14) (s.regs pc + e.offset) }
  let vector : Word := if s.cp15.c1Sys.getLsbD 13 then e.addr + 0xffff0000 else e.addr
  calc cellsIn e.newMode (enter s e)
      = cellsIn e.newMode { linked with regs := Function.update linked.regs pc vector } :=
        cellsIn_eq_of_regs rfl rfl rfl rfl rfl rfl rfl e.newMode
    _ = cellsIn e.newMode linked := cellsIn_pc _ _ _
    _ = Function.update (cellsIn e.newMode saved) (e.newMode.cell 14) (s.regs pc + e.offset) := cellsIn_write _ _ _ _
    _ = _ := by rw [cellsIn_spsr, cell_lr]

theorem entry_ok (s : Cpu) {e : Exception} (h : ∀ index, e ≠ .other index) :
    ∃ e', entry s e = .ok e' ∧ e'.mask &&& cpsrM = 0#32 := by
  cases e with
  | other index => exact absurd rfl (h index)
  | udef => exact ⟨_, rfl, (by decide : cpsrI &&& cpsrM = 0#32)⟩
  | _ => exact ⟨_, rfl, by decide⟩

theorem doInterrupt_eq (hs : s.mode = m.bits) (hm : s.feature .m = false)
    (v7m : Cpu → Exception → Except Fault Cpu) {e : Exception} {e' : Entry} (he : entry s e = .ok e') :
    doInterrupt s v7m e = .ok (enter (switched s m e'.newMode) e') := by
  rw [doInterrupt, hm, if_neg Bool.false_ne_true, he]
  simp only [bind, Except.bind, switchMode_eq hs]
  rfl

end Interrupts

section Helpers

variable {s : Cpu} {m : Mode}

theorem cellsIn_bankedR13 (s : Cpu) {b : Bank} (hb : b ≠ m.bank) (v : Word) :
    cellsIn m { s with bankedR13 := Function.update s.bankedR13 b v } = Function.update (cellsIn m s) (.r13 b) v := by
  funext c
  rw [Function.update_apply]
  cases c with
  | r13 d =>
    simp only [cellsIn, Cell.r13.injEq, Function.update_apply]
    split_ifs with hd hd' <;> first | rfl | exact absurd (hd'.symm.trans hd) hb
  | _ => rfl

theorem cellsIn_bankedR14 (s : Cpu) {b : Bank} (hb : b ≠ m.bank) (v : Word) :
    cellsIn m { s with bankedR14 := Function.update s.bankedR14 b v } = Function.update (cellsIn m s) (.r14 b) v := by
  funext c
  rw [Function.update_apply]
  cases c with
  | r14 d =>
    simp only [cellsIn, Cell.r14.injEq, Function.update_apply]
    split_ifs with hd hd' <;> first | rfl | exact absurd (hd'.symm.trans hd) hb
  | _ => rfl

theorem cellsIn_usrRegs (s : Cpu) (i : Fin 5) (v : Word) :
    cellsIn .fiq { s with usrRegs := Function.update s.usrRegs i v } =
      Function.update (cellsIn .fiq s) (.high false i) v := by
  funext c
  rw [Function.update_apply]
  cases c with
  | high fiq j => cases fiq <;> simp [cellsIn, Function.update_apply]
  | _ => rfl

theorem cellsIn_setR13Banked (hs : s.mode = m.bits) {n : Mode} (hn : n.bank ≠ m.bank) (v : Word) :
    ∃ t, setR13Banked s n.bits v = .ok t ∧ t.mode = m.bits ∧
      cellsIn m t = Function.update (cellsIn m s) (.r13 n.bank) v := by
  have hne : ¬ s.uncachedCpsr &&& cpsrM = n.bits := by
    intro h
    exact hn (congrArg Mode.bank (Mode.bits_injective (h.symm.trans hs)))
  refine ⟨{ s with bankedR13 := Function.update s.bankedR13 n.bank v }, ?_, hs, ?_⟩
  · rw [setR13Banked, if_neg hne, bankNumber_bits]
    rfl
  · exact cellsIn_bankedR13 s hn v

theorem getR13Banked_eq (hs : s.mode = m.bits) {n : Mode} (hn : n.bank ≠ m.bank) :
    getR13Banked s n.bits = .ok (cellsIn m s (.r13 n.bank)) := by
  have hne : ¬ s.uncachedCpsr &&& cpsrM = n.bits := by
    intro h
    exact hn (congrArg Mode.bank (Mode.bits_injective (h.symm.trans hs)))
  rw [getR13Banked, if_neg hne, bankNumber_bits, cellsIn, if_neg hn]
  rfl

theorem Mode.bank_ne_usr (h : m ≠ .usr ∧ m ≠ .sys) : Bank.usr ≠ m.bank := by
  cases m <;> simp_all [Mode.bank]

theorem mode_eq_fiq_iff (hs : s.mode = m.bits) : s.uncachedCpsr &&& cpsrM = Mode.fiq.bits ↔ m = .fiq := by
  have hs' : s.uncachedCpsr &&& cpsrM = m.bits := hs
  rw [hs']
  exact ⟨Mode.bits_injective, fun h ↦ by rw [h]⟩

theorem getUserReg_eq (hs : s.mode = m.bits) (hm : m ≠ .usr ∧ m ≠ .sys) (r : Fin 15) :
    getUserReg s r = cellsIn m s (Mode.usr.cell r) := by
  have hbank := Mode.bank_ne_usr hm
  have hfiq := mode_eq_fiq_iff hs
  unfold getUserReg Mode.cell
  by_cases h8 : r.val < 8
  · rw [dif_neg (by omega), dif_neg (by omega), dif_neg (by omega), dif_pos h8]
    rfl
  · by_cases h13 : r.val < 13
    · rw [dif_neg (by omega), dif_neg (by omega), dif_neg h8, dif_pos h13]
      simp only [hfiq, cellsIn]
      by_cases hf : m = .fiq
      · rw [dif_pos ⟨by omega, hf⟩]
        simp [hf]
      · rw [dif_neg (by tauto)]
        simp only [hf, decide_false, reduceCtorEq, if_true, window]
        exact congrArg s.regs (Fin.ext (by simp only [Fin.val_castSucc]; omega))
    · rw [dif_neg h8, dif_neg h13]
      by_cases hr : r.val = 13
      · rw [dif_pos hr, if_pos hr]
        exact (if_neg hbank).symm
      · rw [dif_neg hr, if_neg hr, dif_pos (by omega)]
        exact (if_neg hbank).symm

theorem setUserReg_mode (s : Cpu) (r : Fin 15) (v : Word) : (setUserReg s r v).mode = s.mode := by
  unfold setUserReg
  split_ifs <;> rfl

theorem cellsIn_setUserReg (hs : s.mode = m.bits) (hm : m ≠ .usr ∧ m ≠ .sys) (r : Fin 15) (v : Word) :
    cellsIn m (setUserReg s r v) = Function.update (cellsIn m s) (Mode.usr.cell r) v := by
  have hbank := Mode.bank_ne_usr hm
  have hfiq := mode_eq_fiq_iff hs
  by_cases h13 : r.val = 13
  · have hcell : Mode.usr.cell r = .r13 .usr := ((r13_eq_cell_iff .usr r .usr).mpr ⟨rfl, h13⟩).symm
    rw [setUserReg, dif_pos h13, hcell]
    exact cellsIn_bankedR13 s hbank v
  by_cases h14 : r.val = 14
  · have hcell : Mode.usr.cell r = .r14 .usr := ((r14_eq_cell_iff .usr r .usr).mpr ⟨rfl, h14⟩).symm
    rw [setUserReg, dif_neg h13, dif_pos h14, hcell]
    exact cellsIn_bankedR14 s hbank v
  by_cases h : 8 ≤ r.val ∧ m = .fiq
  · obtain ⟨h8, rfl⟩ := h
    have hcell : Mode.usr.cell r = .high false ⟨r.val - 8, by omega⟩ :=
      ((high_eq_cell_iff .usr r false _).mpr ⟨rfl, by simp only; omega⟩).symm
    rw [setUserReg, dif_neg h13, dif_neg h14, dif_pos ⟨h8, hfiq.mpr rfl⟩, hcell]
    exact cellsIn_usrRegs s _ v
  · have hcell : Mode.usr.cell r = m.cell r := by
      unfold Mode.cell
      split_ifs with h8 h9
      · rfl
      · have hf : m ≠ .fiq := fun hf ↦ h ⟨by omega, hf⟩
        simp [hf]
      · omega
    rw [setUserReg, dif_neg h13, dif_neg h14, dif_neg (by rw [hfiq]; exact h), hcell]
    exact cellsIn_write m s r v

end Helpers

section Refinement

variable (v7m : Cpu → Exception → Except Fault Cpu)

theorem refines_of_read {x : System} {k : Cell} {v : Word} (h : v = x.cells k) :
    Refines System.cells x x [.read k v] := ⟨coherent_read h, rfl⟩

theorem refines_of_write {x y : System} {k : Cell} {v : Word} (h : y.cells = Function.update x.cells k v) :
    Refines System.cells x y [.write k v] := by
  refine ⟨coherent_writes ?_, ?_⟩
  · simp
  · rw [contents_write, contents_nil, h]

theorem step_refines (x : System) (op : Op) (hx : x.InMode) (h : Legal x op) :
    ∃ y es, step v7m x op = .ok (y, es) ∧ y.InMode ∧ Refines System.cells x y es := by
  have hs : x.cpu.mode = x.mode.bits := hx
  cases op with
  | cpsrWrite val mask =>
    rcases h with hmask | ⟨hmask, n, hval⟩
    · obtain ⟨t, ht, hmode, hcells⟩ := cpsrWrite_same hs val hmask
      refine ⟨⟨t, x.mode⟩, [], ?_, hmode, coherent_nil _, hcells⟩
      simp only [step, ht, bind, Except.bind, pure, Except.pure, if_pos hmask]
    · obtain ⟨t, ht, hmode, hcells⟩ := cpsrWrite_switch hs hmask hval
      have hne : ¬ mask &&& cpsrM = 0 := by
        rw [hmask]
        decide
      refine ⟨⟨t, n⟩, [], ?_, hmode, coherent_nil _, hcells⟩
      simp only [step, ht, bind, Except.bind, pure, Except.pure, if_neg hne, hval, Mode.ofBits_bits, Option.getD_some]
  | interrupt e =>
    obtain ⟨e', he, hmask⟩ := entry_ok x.cpu h.2
    have hdo := doInterrupt_eq hs h.1 v7m he
    refine ⟨⟨enter (switched x.cpu x.mode e'.newMode) e', e'.newMode⟩,
      [.write (.spsr e'.newMode.bank) (cpsrRead x.cpu), .write (.r14 e'.newMode.bank) (x.cpu.regs pc + e'.offset)],
      ?_, enter_mode _ _ hmask, ?_, ?_⟩
    · simp only [step, he, hdo, bind, Except.bind, pure, Except.pure]
    · exact coherent_writes (by simp)
    · rw [contents_write, contents_write, contents_nil]
      have hcells := cellsIn_enter (switched x.cpu x.mode e'.newMode) e'
      rw [cellsIn_switched, cpsrRead_switched, switched_pc] at hcells
      exact hcells
  | write r v => exact ⟨_, _, rfl, hx, refines_of_write (cellsIn_write x.mode x.cpu r v)⟩
  | read r => exact ⟨_, _, rfl, hx, refines_of_read (cellsIn_cell x.mode x.cpu r).symm⟩
  | writeSpsr v => exact ⟨_, _, rfl, hx, refines_of_write (cellsIn_spsr x.mode x.cpu v)⟩
  | readSpsr => exact ⟨_, _, rfl, hx, refines_of_read (if_pos rfl).symm⟩
  | setR13Banked n v =>
    obtain ⟨t, ht, hmode, hcells⟩ := cellsIn_setR13Banked hs h v
    refine ⟨⟨t, x.mode⟩, [.write (.r13 n.bank) v], ?_, hmode, refines_of_write hcells⟩
    simp only [step, ht, bind, Except.bind, pure, Except.pure]
  | getR13Banked n =>
    have hv := getR13Banked_eq hs h
    refine ⟨x, [.read (.r13 n.bank) (x.cells (.r13 n.bank))], ?_, hx, refines_of_read rfl⟩
    simp only [step, hv, bind, Except.bind, pure, Except.pure, System.cells]
  | setUserReg r v =>
    exact ⟨_, _, rfl, (setUserReg_mode x.cpu r v).trans hs, refines_of_write (cellsIn_setUserReg hs h r v)⟩
  | getUserReg r => exact ⟨_, _, rfl, hx, refines_of_read (getUserReg_eq hs h r)⟩

/-- Over every legal run the register file behaves as one cell for each architectural register. -/
theorem banked_registers_refine_cells (x : System) (hx : x.InMode) (ops : List Op)
    (h : Attempts (step v7m) Legal x ops) :
    ∃ y ess, exec (step v7m) x ops = .ok (y, ess) ∧ y.InMode ∧
      Coherent x.cells ess.flatten ∧ y.cells = contents x.cells ess.flatten :=
  exec_refines (step_refines v7m) hx h

def unhandledV7m (_ : Cpu) (_ : Exception) : Except Fault Cpu := .error .unhandled

def userSystem : System := ⟨{ uncachedCpsr := 0x10 }, .usr⟩

def switchingOps : List Op :=
  [.write 13 1, .write 8 2, .cpsrWrite 0x11 0xffffffff, .write 8 3, .getUserReg 8, .getR13Banked .sys, .interrupt .irq,
    .setUserReg 13 4, .cpsrWrite 0x1f 0x1f, .read 13, .read 8]

theorem banked_registers_refine_cells_switching :
    userSystem.InMode ∧ Attempts (step unhandledV7m) Legal userSystem switchingOps ∧
      ∃ y ess, exec (step unhandledV7m) userSystem switchingOps = .ok (y, ess) ∧ y.InMode ∧
        Coherent userSystem.cells ess.flatten ∧ y.cells = contents userSystem.cells ess.flatten := by
  have hmode : userSystem.InMode := by unfold System.InMode; decide
  have hlegal : Attempts (step unhandledV7m) Legal userSystem switchingOps := by decide +kernel
  exact ⟨hmode, hlegal, banked_registers_refine_cells unhandledV7m userSystem hmode switchingOps hlegal⟩

end Refinement

end IDeviceEmulator.Arm
