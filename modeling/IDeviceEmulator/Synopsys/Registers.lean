import IDeviceEmulator.Synopsys.Irq

namespace IDeviceEmulator.Synopsys

/-- The registers that no write changes. -/
structure Constants where
  ghwcfg1 : Word
  ghwcfg2 : Word
  ghwcfg3 : Word
  ghwcfg4 : Word
  dsts : Word

section Reads

variable (s : Device)

/-- `synopsys_usb_in_ep_read` and `synopsys_usb_out_ep_read`. -/
def epRead (dir : Direction) (ep addr : Nat) : Except Fault Word :=
  if h : ep < numEndpoints then
    let e := s.eps dir ⟨ep, h⟩
    match addr with
    | 0x00 => .ok e.control
    | 0x08 => .ok e.interruptStatus
    | 0x10 => .ok e.txSize
    | 0x14 => .ok e.dmaAddress
    | 0x1c => .ok e.dmaBuffer
    | _ => .error .hwError
  else .error .hwError

/-- As for writes, the register range goes one past `dptxfsiz`. -/
def getDptxfsiz (index : Nat) : Word := if h : index < 16 then s.dptxfsiz ⟨index, h⟩ else s.dctl

def fifoWord (offset : Nat) : Word :=
  s.fifos (offset + 3) ++ s.fifos (offset + 2) ++ s.fifos (offset + 1) ++ s.fifos offset

/-- `synopsys_usb_read`. -/
def read (k : Constants) (addr : Nat) : Except Fault Word :=
  match addr with
  | 0xe00 => .ok s.pcgcctl
  | 0x0 => .ok s.gotgctl
  | 0x4 => .ok s.gotgint
  | 0x10 => .ok s.grstctl
  | 0x44 => .ok k.ghwcfg1
  | 0x48 => .ok k.ghwcfg2
  | 0x4c => .ok k.ghwcfg3
  | 0x50 => .ok k.ghwcfg4
  | 0x8 => .ok s.gahbcfg
  | 0xc => .ok s.gusbcfg
  | 0x18 => .ok s.gintmsk
  | 0x14 => .ok s.gintsts
  | 0x810 => .ok s.diepmsk
  | 0x814 => .ok s.doepmsk
  | 0x81c => .ok s.daintmsk
  | 0x818 => .ok s.daintsts
  | 0x804 => .ok s.dctl
  | 0x800 => .ok s.dcfg
  | 0x808 => .ok k.dsts
  | 0x1c | 0x20 => .ok 0
  | 0x2c => .ok 0xffffffff
  | 0x24 => .ok s.grxfsiz
  | 0x28 => .ok s.gnptxfsiz
  | addr =>
    if 0x104 ≤ addr ∧ addr ≤ 0x144 then .ok (getDptxfsiz s ((addr - 0x104) >>> 2))
    else if 0x900 ≤ addr ∧ addr ≤ 0xafc then epRead s .dirIn ((addr - 0x900) >>> 5) ((addr - 0x900) &&& 0x1f)
    else if 0xb00 ≤ addr ∧ addr ≤ 0xcfc then epRead s .dirOut ((addr - 0xb00) >>> 5) ((addr - 0xb00) &&& 0x1f)
    else if 0x1000 ≤ addr ∧ addr ≤ 0x20fc then .ok (fifoWord s (addr - 0x1000))
    else .error .hwError

end Reads

/-- The registers of an endpoint that keep what is written to them. -/
inductive EpField
  | txSize
  | dmaAddress
  | dmaBuffer

namespace EpField

def offset : EpField → Nat
  | txSize => 0x10
  | dmaAddress => 0x14
  | dmaBuffer => 0x1c

def set (e : EpState) (val : Word) : EpField → EpState
  | txSize => { e with txSize := val }
  | dmaAddress => { e with dmaAddress := val }
  | dmaBuffer => { e with dmaBuffer := val }

end EpField

/-- The offset of a register that keeps what is written to it: GOTGCTL, GAHBCFG, GUSBCFG, GINTMSK,
GRXFSIZ, GNPTXFSIZ, DCFG, DIEPMSK, DOEPMSK, DAINTMSK, PCGCCTL, a FIFO size, a register of an
endpoint or a word of the FIFO memory. -/
inductive Plain : Nat → Prop
  | named {a : Nat} (h : a ∈ [0x0, 0x8, 0xc, 0x18, 0x24, 0x28, 0x800, 0x810, 0x814, 0x81c, 0xe00]) : Plain a
  | dieptxf {a : Nat} (h : 0x104 ≤ a ∧ a ≤ 0x144) : Plain a
  | ep (dir : Direction) (i : Fin numEndpoints) (field : EpField) : Plain (controlAddr dir i + field.offset)
  | fifo {a : Nat} (h : 0x1000 ≤ a ∧ a ≤ 0x20fc) : Plain a

/-- Two offsets name different registers, or words of the FIFO memory that do not overlap. The
offsets of the FIFO sizes may be unaligned. -/
def Apart (a b : Nat) : Prop :=
  a ≠ b ∧ (0x104 ≤ a ∧ a ≤ 0x144 → 0x104 ≤ b ∧ b ≤ 0x144 → (a - 0x104) >>> 2 ≠ (b - 0x104) >>> 2) ∧
    (0x1000 ≤ a ∧ a ≤ 0x20fc → 0x1000 ≤ b ∧ b ≤ 0x20fc → a + 4 ≤ b ∨ b + 4 ≤ a)

/-- A register reads as written, and the write changes no other. GINTSTS and DAINTSTS, which
`synopsys_usb_update_irq` computes, are left aside. -/
def Stores (k : Constants) (s : Device) (a : Nat) (val : Word) : Prop :=
  ∃ t, write s a val true = .ok t ∧ read t k a = .ok val ∧
    ∀ b, b ∉ [0x14, 0x818] → Apart a b → read t k b = read s k b

section Frames

variable {k : Constants} {s : Device} {a b : Nat} {val : Word}

theorem read_updateIrq (hb : b ∉ [0x14, 0x818]) (s : Device) : read (updateIrq s) k b = read s k b := by
  unfold read
  split
  all_goals first | rfl | exact absurd (by decide) hb

/-- The device after a write to a named register, before the interrupts are updated. -/
def storeNamed (s : Device) (a : Nat) (val : Word) : Device :=
  match a with
  | 0x0 => { s with gotgctl := val }
  | 0x8 => { s with gahbcfg := val }
  | 0xc => { s with gusbcfg := val }
  | 0x18 => { s with gintmsk := val }
  | 0x24 => { s with grxfsiz := val }
  | 0x28 => { s with gnptxfsiz := val }
  | 0x800 => { s with dcfg := val }
  | 0x810 => { s with diepmsk := val }
  | 0x814 => { s with doepmsk := val }
  | 0x81c => { s with daintmsk := val }
  | 0xe00 => { s with pcgcctl := val }
  | _ => s

theorem read_storeNamed (s : Device) (val : Word) (hb : b ≠ a) : read (storeNamed s a val) k b = read s k b := by
  unfold storeNamed
  split
  all_goals
    unfold read
    split
    all_goals first | rfl | exact absurd rfl hb

theorem stores_of_named (ha : a ∈ [0x0, 0x8, 0xc, 0x18, 0x24, 0x28, 0x800, 0x810, 0x814, 0x81c, 0xe00]) :
    Stores k s a val := by
  have hwrite : ∃ t, write s a val true = .ok t ∧ read t k a = .ok val ∧
      (t = storeNamed s a val ∨ t = updateIrq (storeNamed s a val)) := by
    simp only [List.mem_cons, List.not_mem_nil, or_false] at ha
    rcases ha with rfl | rfl | rfl | rfl | rfl | rfl | rfl | rfl | rfl | rfl | rfl
    all_goals first | exact ⟨_, rfl, rfl, .inl rfl⟩ | exact ⟨_, rfl, rfl, .inr rfl⟩
  obtain ⟨t, ht, hself, hstored⟩ := hwrite
  refine ⟨t, ht, hself, ?_⟩
  intro b hb hapart
  have hother := read_storeNamed (k := k) s val (Ne.symm hapart.1)
  rcases hstored with rfl | rfl
  · exact hother
  · rw [read_updateIrq hb, hother]

theorem write_dieptxf (s : Device) (ha : 0x104 ≤ a ∧ a ≤ 0x144) (val : Word) :
    write s a val true = .ok (setDptxfsiz s ((a - 0x104) >>> 2) val) := by
  unfold write
  split
  all_goals first | omega | exact if_pos ha

theorem read_dieptxf (k : Constants) (s : Device) (ha : 0x104 ≤ a ∧ a ≤ 0x144) :
    read s k a = .ok (getDptxfsiz s ((a - 0x104) >>> 2)) := by
  unfold read
  split
  all_goals first | omega | exact if_pos ha

theorem dptxfsiz_self (s : Device) (index : Nat) (val : Word) :
    getDptxfsiz (setDptxfsiz s index val) index = val := by
  unfold getDptxfsiz setDptxfsiz
  split
  · rename_i hindex
    exact Function.update_self (⟨index, hindex⟩ : Fin 16) val s.dptxfsiz
  · rfl

theorem read_setDptxfsiz (s : Device) {index : Nat} (hindex : index < 16) (val : Word)
    (hb : 0x104 ≤ b ∧ b ≤ 0x144 → (b - 0x104) >>> 2 ≠ index) :
    read (setDptxfsiz s index val) k b = read s k b := by
  have hset : setDptxfsiz s index val = { s with dptxfsiz := Function.update s.dptxfsiz ⟨index, hindex⟩ val } :=
    dif_pos hindex
  by_cases hrange : 0x104 ≤ b ∧ b ≤ 0x144
  · rw [read_dieptxf k _ hrange, read_dieptxf k _ hrange, hset, getDptxfsiz, getDptxfsiz]
    split
    · rename_i hother
      have hne : (⟨_, hother⟩ : Fin 16) ≠ ⟨index, hindex⟩ := fun heq ↦ hb hrange (congrArg Fin.val heq)
      exact congrArg Except.ok (Function.update_of_ne hne val s.dptxfsiz)
    · rfl
  · rw [hset]
    unfold read
    split
    all_goals first | rfl | (rw [if_neg hrange, if_neg hrange]; rfl)

theorem write_fifo (s : Device) (ha : 0x1000 ≤ a ∧ a ≤ 0x20fc) (val : Word) :
    write s a val true = .ok (setFifoWord s (a - 0x1000) val) := by
  unfold write
  split
  all_goals first | omega | rw [if_neg (by omega), if_neg (by omega), if_neg (by omega), if_pos ha]

theorem read_fifo (k : Constants) (s : Device) (ha : 0x1000 ≤ a ∧ a ≤ 0x20fc) :
    read s k a = .ok (fifoWord s (a - 0x1000)) := by
  unfold read
  split
  all_goals first | omega | rw [if_neg (by omega), if_neg (by omega), if_neg (by omega), if_pos ha]

theorem fifoWord_self (s : Device) (offset : Nat) (val : Word) :
    fifoWord (setFifoWord s offset val) offset = val := by
  have hbyte (j : Nat) (hj : j < 4) :
      (setFifoWord s offset val).fifos (offset + j) = val.extractLsb' (8 * j) 8 := by
    refine (if_pos (by omega)).trans ?_
    rw [Nat.add_sub_cancel_left]
  have hfirst := hbyte 0 (by decide)
  rw [Nat.add_zero] at hfirst
  have hhigh : (16 + 8 : Nat) = 24 := rfl
  have hmiddle : (8 + 8 : Nat) = 16 := rfl
  have hlow : (0 + 8 : Nat) = 8 := rfl
  rw [fifoWord, hbyte 1 (by decide), hbyte 2 (by decide), hbyte 3 (by decide), hfirst]
  change val.extractLsb' 24 8 ++ val.extractLsb' 16 8 ++ val.extractLsb' 8 8 ++ val.extractLsb' 0 8 = val
  rw [BitVec.extractLsb'_append_extractLsb'_eq_extractLsb' hhigh.symm,
    BitVec.extractLsb'_append_extractLsb'_eq_extractLsb' hmiddle.symm,
    BitVec.extractLsb'_append_extractLsb'_eq_extractLsb' hlow.symm]
  exact BitVec.extractLsb'_eq_self

theorem fifoWord_other (s : Device) {offset offset' : Nat} (val : Word)
    (h : offset + 4 ≤ offset' ∨ offset' + 4 ≤ offset) :
    fifoWord (setFifoWord s offset val) offset' = fifoWord s offset' := by
  have hbyte (j : Nat) (hj : j < 4) : (setFifoWord s offset val).fifos (offset' + j) = s.fifos (offset' + j) :=
    if_neg (by omega)
  have hfirst := hbyte 0 (by decide)
  rw [Nat.add_zero] at hfirst
  rw [fifoWord, hbyte 1 (by decide), hbyte 2 (by decide), hbyte 3 (by decide), hfirst, fifoWord]

theorem read_setFifoWord (s : Device) {offset : Nat} (val : Word)
    (hb : 0x1000 ≤ b ∧ b ≤ 0x20fc → offset + 4 ≤ b - 0x1000 ∨ b - 0x1000 + 4 ≤ offset) :
    read (setFifoWord s offset val) k b = read s k b := by
  by_cases hrange : 0x1000 ≤ b ∧ b ≤ 0x20fc
  · rw [read_fifo k _ hrange, read_fifo k _ hrange, fifoWord_other s val (hb hrange)]
  · unfold read
    split
    all_goals first | rfl | (rw [if_neg hrange, if_neg hrange]; rfl)

theorem write_ep (s : Device) (dir : Direction) (i : Fin numEndpoints) (field : EpField) (val : Word) :
    write s (controlAddr dir i + field.offset) val true = .ok (setEp s dir i (field.set (s.eps dir i) val)) := by
  cases dir with
  | dirIn => cases field <;> fin_cases i <;> rfl
  | dirOut => cases field <;> fin_cases i <;> rfl

/-- The register of an endpoint that an offset names. -/
theorem read_ep (k : Constants) (s : Device) (dir : Direction) (i : Fin numEndpoints) (field : EpField) :
    read s k (controlAddr dir i + field.offset) = epRead s dir i field.offset := by
  cases dir with
  | dirIn => cases field <;> fin_cases i <;> rfl
  | dirOut => cases field <;> fin_cases i <;> rfl

theorem epRead_self (s : Device) (dir : Direction) (i : Fin numEndpoints) (field : EpField) (val : Word) :
    epRead (setEp s dir i (field.set (s.eps dir i) val)) dir i field.offset = .ok val := by
  rw [epRead, dif_pos i.isLt, eps_setEp_self]
  cases field with
  | txSize => rfl
  | dmaAddress => rfl
  | dmaBuffer => rfl

theorem epRead_other (s : Device) {dir dir' : Direction} {i : Fin numEndpoints} {field : EpField} (val : Word)
    {ep addr : Nat} (h : ¬ (dir' = dir ∧ ep = i ∧ addr = field.offset)) :
    epRead (setEp s dir i (field.set (s.eps dir i) val)) dir' ep addr = epRead s dir' ep addr := by
  unfold epRead
  split
  · rename_i hep
    by_cases hsame : dir' = dir ∧ (⟨ep, hep⟩ : Fin numEndpoints) = i
    · obtain ⟨rfl, rfl⟩ := hsame
      have haddr : addr ≠ field.offset := fun heq ↦ h ⟨rfl, rfl, heq⟩
      rw [eps_setEp_self]
      cases field with
      | txSize =>
        dsimp only [EpField.set]
        split
        all_goals first | rfl | exact absurd rfl haddr
      | dmaAddress =>
        dsimp only [EpField.set]
        split
        all_goals first | rfl | exact absurd rfl haddr
      | dmaBuffer =>
        dsimp only [EpField.set]
        split
        all_goals first | rfl | exact absurd rfl haddr
    · rw [eps_setEp_of_ne s _ hsame]
  · rfl

theorem read_setEp (s : Device) {dir : Direction} {i : Fin numEndpoints} {field : EpField} (val : Word)
    (hb : b ≠ controlAddr dir i + field.offset) :
    read (setEp s dir i (field.set (s.eps dir i) val)) k b = read s k b := by
  have hmask (x : Nat) : x &&& 0x1f = x % 32 := Nat.and_two_pow_sub_one_eq_mod x 5
  have hshift (x : Nat) : x >>> 5 = x / 32 := Nat.shiftRight_eq_div_pow x 5
  have hin : 0x900 ≤ b ∧ b ≤ 0xafc →
      ¬ (.dirIn = dir ∧ (b - 0x900) >>> 5 = i ∧ (b - 0x900) &&& 0x1f = field.offset) := by
    rintro hrange ⟨rfl, hi, hfield⟩
    apply hb
    rw [hmask] at hfield
    rw [hshift] at hi
    unfold controlAddr
    dsimp only
    omega
  have hout : 0xb00 ≤ b ∧ b ≤ 0xcfc →
      ¬ (.dirOut = dir ∧ (b - 0xb00) >>> 5 = i ∧ (b - 0xb00) &&& 0x1f = field.offset) := by
    rintro hrange ⟨rfl, hi, hfield⟩
    apply hb
    rw [hmask] at hfield
    rw [hshift] at hi
    unfold controlAddr
    dsimp only
    omega
  unfold read
  split
  all_goals first | rfl | skip
  split_ifs with hsize hin' hout'
  · rfl
  · exact epRead_other s val (hin hin')
  · exact epRead_other s val (hout hout')
  · rfl
  · rfl

end Frames

/-- Every plain register keeps what is written to it and leaves the others alone, except for the one
behind the last FIFO size, which is `dctl`. -/
theorem stores_iff (k : Constants) (s : Device) {a : Nat} (ha : Plain a) (val : Word) :
    Stores k s a val ↔ (a = 0x144 → val = s.dctl) := by
  constructor
  · rintro ⟨t, ht, -, hothers⟩ rfl
    cases ht
    have hdctl := hothers 0x804 (by decide) ⟨by decide, by omega, by omega⟩
    exact Except.ok.inj hdctl
  · intro hlast
    cases ha with
    | named ha => exact stores_of_named ha
    | dieptxf ha =>
      refine ⟨_, write_dieptxf s ha val, ?_, ?_⟩
      · rw [read_dieptxf k _ ha, dptxfsiz_self]
      · intro b _ hapart
        by_cases hend : a = 0x144
        · obtain rfl := hlast hend
          subst hend
          rfl
        · apply read_setDptxfsiz s
          · rw [Nat.shiftRight_eq_div_pow]
            omega
          · intro hb
            exact (hapart.2.1 ha hb).symm
    | ep dir i field =>
      refine ⟨_, write_ep s dir i field val, ?_, ?_⟩
      · rw [read_ep, epRead_self]
      · intro b _ hapart
        exact read_setEp s val hapart.1.symm
    | fifo ha =>
      refine ⟨_, write_fifo s ha val, ?_, ?_⟩
      · rw [read_fifo k _ ha, fifoWord_self]
      · intro b _ hapart
        apply read_setFifoWord
        intro hb
        have hbytes := hapart.2.2 ha hb
        omega

theorem stores_first_size : Stores ⟨0, 0, 0, 0, 0⟩ (initialReset false fun _ ↦ 0) 0x104 0x2000080 := by
  refine (stores_iff _ _ (.dieptxf ⟨by decide, by decide⟩) _).mpr ?_
  intro hend
  cases hend

/-- The seventeenth FIFO size is the device control register. -/
theorem stores_fails : ¬ ∀ k s a val, Plain a → Stores k s a val := by
  intro h
  obtain ⟨t, ht, -, hothers⟩ :=
    h ⟨0, 0, 0, 0, 0⟩ (initialReset false fun _ ↦ 0) 0x144 1 (.dieptxf ⟨by decide, by decide⟩)
  cases ht
  have hdctl := hothers 0x804 (by decide) ⟨by decide, by omega, by omega⟩
  have hone : (1 : Word) = 0 := Except.ok.inj hdctl
  cases hone

end IDeviceEmulator.Synopsys
