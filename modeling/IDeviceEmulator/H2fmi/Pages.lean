import IDeviceEmulator.H2fmi.Fifo

namespace IDeviceEmulator.H2fmi

/-- The part of `h2fmi_state_t` that page reads use. -/
structure Nand where
  pageSize : Word := 4096
  metaSize : Word := 12
  eccStages : Word := 4
  addr : Word := 0
  buf0 : Buffer := {}
  buf1 : Buffer := {}
  eccbuf : Buffer := {}

/-- `h2fmi_page_offset`. Its `int` argument is sign-extended before the multiplication. -/
def pageOffset (s : Nand) (addr : Word) : BitVec 64 :=
  8 + addr.signExtend 64 * (1 + s.pageSize.setWidth 64 + s.metaSize.setWidth 64)

inductive AddrRegister
  | addr0
  | addr1
deriving DecidableEq

/-- The cases of `h2fmi_nwritel` that change the page address. -/
def nwritel (addr : Word) : AddrRegister → Word → Word
  | .addr0, v => (addr &&& ~~~(0xffff : Word)) ||| (v >>> 16)
  | .addr1, v => (addr &&& 0xffff) ||| (v <<< 16)

/-- The page address after register writes. -/
def program (writes : List (AddrRegister × Word)) : Word := writes.foldl (fun addr w ↦ nwritel addr w.1 w.2) 0

theorem getLsbD_lowHalf {i : Nat} (hi : i < 32) : (0xffff : Word).getLsbD i = decide (i < 16) := by
  have hall : ∀ i : Fin 32, (0xffff : Word).getLsbD i = decide (i.val < 16) := by decide
  exact hall ⟨i, hi⟩

/-- Any page address can be programmed. -/
theorem program_halves (addr : Word) : program [(.addr0, addr <<< 16), (.addr1, addr >>> 16)] = addr := by
  apply BitVec.eq_of_getLsbD_eq
  intro i hi
  simp only [program, nwritel, List.foldl_cons, List.foldl_nil, BitVec.getLsbD_or, BitVec.getLsbD_and,
    BitVec.getLsbD_shiftLeft, BitVec.getLsbD_ushiftRight, BitVec.getLsbD_not,
    getLsbD_lowHalf hi]
  by_cases hlow : i < 16
  · have hhigh : ¬ 16 + i < 16 := by omega
    have hword : 16 + i < 32 := by omega
    have hmask := getLsbD_lowHalf hi
    rw [decide_eq_true hlow] at hmask
    simp [hlow, hhigh, hword]
    intro _
    exact hmask
  · have hback : 16 + (i - 16) = i := by omega
    simp [hlow, hi, hback]
    intro _ h _
    exact h

/-- The bytes of a page, its marker and its spare bytes. -/
def stride (s : Nand) : Nat := 1 + s.pageSize.toNat + s.metaSize.toNat

/-- The exact offset of a page. -/
def exactOffset (s : Nand) (addr : Word) : Nat := 8 + addr.toNat * stride s

/-- Two pages behind the chip id that do not overlap. -/
structure LaidOut (s : Nand) (a b : Word) : Prop where
  exact : (pageOffset s a).toInt = exactOffset s a ∧ (pageOffset s b).toInt = exactOffset s b
  behind : 8 ≤ (pageOffset s a).toInt ∧ 8 ≤ (pageOffset s b).toInt
  disjoint : (pageOffset s a).toInt + stride s ≤ (pageOffset s b).toInt ∨
    (pageOffset s b).toInt + stride s ≤ (pageOffset s a).toInt

/-- The address is no negative `int`, and its offset fits in `int64_t`. -/
def Addressable (s : Nand) (addr : Word) : Prop := addr.toNat < 2 ^ 31 ∧ exactOffset s addr < 2 ^ 63

theorem toNat_stride (s : Nand) :
    (1 + s.pageSize.setWidth 64 + s.metaSize.setWidth 64 : BitVec 64).toNat = stride s := by
  have hpage := s.pageSize.isLt
  have hmeta := s.metaSize.isLt
  simp only [BitVec.toNat_add, BitVec.toNat_setWidth, stride]
  have hone : (1 : BitVec 64).toNat = 1 := rfl
  omega

theorem stride_bounds (s : Nand) : 1 ≤ stride s ∧ stride s < 2 ^ 33 := by
  have hpage := s.pageSize.isLt
  have hmeta := s.metaSize.isLt
  unfold stride
  omega

theorem toNat_pageOffset (s : Nand) (addr : Word) :
    (pageOffset s addr).toNat = (8 + (addr.signExtend 64).toNat * stride s) % 2 ^ 64 := by
  unfold pageOffset
  have height : (8 : BitVec 64).toNat = 8 := rfl
  rw [BitVec.toNat_add, BitVec.toNat_mul, toNat_stride, height, Nat.add_mod_mod]

theorem toNat_signExtend (addr : Word) :
    (addr.signExtend 64).toNat = if addr.toNat < 2 ^ 31 then addr.toNat else 2 ^ 64 - 2 ^ 32 + addr.toNat := by
  have haddr := addr.isLt
  have hwidth : addr.toNat % 2 ^ 64 = addr.toNat := by omega
  rw [BitVec.toNat_signExtend, BitVec.toNat_setWidth, BitVec.msb_eq_decide, hwidth]
  by_cases h : addr.toNat < 2 ^ 31
  · rw [if_pos h, if_neg (by simpa using h)]
    rfl
  · rw [if_neg h, if_pos (by simpa using h)]
    omega

/-- The offset is the exact one for addresses that are not negative, as long as it fits. -/
theorem toInt_pageOffset_eq_iff (s : Nand) (addr : Word) :
    (pageOffset s addr).toInt = exactOffset s addr ↔ Addressable s addr := by
  have hoffset := toNat_pageOffset s addr
  rw [toNat_signExtend] at hoffset
  obtain ⟨hpos, hlt⟩ := stride_bounds s
  have haddr := addr.isLt
  have hint := BitVec.toInt_eq_toNat_cond (pageOffset s addr)
  unfold Addressable exactOffset
  by_cases h : addr.toNat < 2 ^ 31
  · rw [if_pos h] at hoffset
    have hproduct : addr.toNat * stride s ≤ (2 ^ 31 - 1) * (2 ^ 33 - 1) := Nat.mul_le_mul (by omega) (by omega)
    generalize addr.toNat * stride s = product at *
    rw [hint]
    split <;> omega
  · rw [if_neg h, Nat.add_mul] at hoffset
    have hproduct : 2 ^ 31 * stride s ≤ addr.toNat * stride s := Nat.mul_le_mul_right _ (by omega)
    generalize addr.toNat * stride s = product at *
    rw [hint]
    split <;> omega

/-- Exact offsets of distinct pages are a stride apart. -/
theorem exactOffset_apart {s : Nand} {a b : Word} (h : a.toNat < b.toNat) :
    exactOffset s a + stride s ≤ exactOffset s b := by
  have hstep : (a.toNat + 1) * stride s ≤ b.toNat * stride s := Nat.mul_le_mul_right _ h
  rw [Nat.add_mul] at hstep
  unfold exactOffset
  omega

/-- The pages of two addresses that were programmed are laid out as they should be exactly if both
offsets are exact. -/
theorem laidOut_iff (s : Nand) (ws vs : List (AddrRegister × Word)) (hne : program ws ≠ program vs) :
    LaidOut s (program ws) (program vs) ↔ Addressable s (program ws) ∧ Addressable s (program vs) := by
  constructor
  · intro h
    exact ⟨(toInt_pageOffset_eq_iff s _).mp h.exact.1, (toInt_pageOffset_eq_iff s _).mp h.exact.2⟩
  · rintro ⟨ha, hb⟩
    have hexact := (toInt_pageOffset_eq_iff s _).mpr ha
    have hexact' := (toInt_pageOffset_eq_iff s _).mpr hb
    have hbehind : ∀ addr, (8 : Int) ≤ exactOffset s addr := by
      intro addr
      unfold exactOffset
      omega
    refine ⟨⟨hexact, hexact'⟩, ?_, ?_⟩
    · rw [hexact, hexact']
      exact ⟨hbehind _, hbehind _⟩
    · rw [hexact, hexact']
      have htoNat : (program ws).toNat ≠ (program vs).toNat := fun h ↦ hne (BitVec.eq_of_toNat_eq h)
      rcases Nat.lt_or_gt_of_ne htoNat with hlt | hlt
      · exact .inl (by exact_mod_cast exactOffset_apart hlt)
      · exact .inr (by exact_mod_cast exactOffset_apart hlt)

/-- The first page and the last page below the negative addresses. -/
theorem laidOut_default :
    LaidOut {} (program []) (program [(.addr0, 0xffff0000), (.addr1, 0x7fff)]) ↔
      Addressable {} (program []) ∧ Addressable {} (program [(.addr0, 0xffff0000), (.addr1, 0x7fff)]) :=
  laidOut_iff {} [] [(.addr0, 0xffff0000), (.addr1, 0x7fff)] (by decide)

/-- The address `0x80000000` is a negative `int`. -/
theorem laidOut_fails :
    program [] ≠ program [(.addr1, 0x8000)] ∧ ¬ LaidOut {} (program []) (program [(.addr1, 0x8000)]) := by
  refine ⟨by decide, fun h ↦ ?_⟩
  exact absurd h.behind.2 (by decide)

end IDeviceEmulator.H2fmi
