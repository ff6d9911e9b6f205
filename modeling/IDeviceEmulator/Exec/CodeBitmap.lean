import IDeviceEmulator.Exec.Blocks

namespace IDeviceEmulator.Exec.Blocks

open Tlb (Addr targetPageBits targetPageMask)

section Bits

def bit (tab : List (BitVec 8)) (j : Nat) : Bool := (tab[j / 8]?.getD 0).getLsbD (j % 8)

variable {tab tab' : List (BitVec 8)}

theorem bit_set {i : Nat} (hi : i < tab.length) (byte : BitVec 8) (j : Nat) :
    bit (tab.set i byte) j = if j / 8 = i then byte.getLsbD (j % 8) else bit tab j := by
  unfold bit
  by_cases hj : j / 8 = i
  · subst hj
    simp [hi]
  · rw [if_neg hj, List.getElem?_set_ne (Ne.symm hj)]

theorem getLsbD_upper (k : Nat) {m : Nat} (hm : m < 8) : ((0xff : BitVec 8) <<< k).getLsbD m = decide (k ≤ m) := by
  have hall : (0xff : BitVec 8) = BitVec.allOnes 8 := rfl
  rw [hall, BitVec.getLsbD_shiftLeft, BitVec.getLsbD_allOnes]
  by_cases hk : k ≤ m
  · simp [hm, hk]
    omega
  · simp [hm, hk]

theorem getLsbD_lower (k : Nat) {m : Nat} (hm : m < 8) :
    (~~~((0xff : BitVec 8) <<< k)).getLsbD m = decide (m < k) := by
  rw [BitVec.getLsbD_not, getLsbD_upper k hm, decide_eq_true hm, Bool.true_and, ← decide_not]
  exact decide_eq_decide.mpr Nat.not_le

theorem orByte_bits {i : Nat} (hi : i < tab.length) (mask : BitVec 8) :
    ∃ tab', orByte tab i mask = some tab' ∧ tab'.length = tab.length ∧
      ∀ j, bit tab' j = (bit tab j || (decide (j / 8 = i) && mask.getLsbD (j % 8))) := by
  refine ⟨_, dif_pos hi, List.length_set, fun j ↦ ?_⟩
  rw [bit_set hi]
  by_cases hj : j / 8 = i
  · subst hj
    simp [bit, hi]
  · simp [hj]

theorem fillBytes_bits {i e : Nat} (hie : i ≤ e) (he : e ≤ tab.length) :
    ∃ tab', fillBytes tab i (i * 8) (e * 8) = some (tab', e, e * 8) ∧ tab'.length = tab.length ∧
      ∀ j, bit tab' j = (bit tab j || decide (i ≤ j / 8 ∧ j / 8 < e)) := by
  induction hk : e - i generalizing tab i with
  | zero =>
    obtain rfl : i = e := by omega
    refine ⟨tab, ?_, rfl, fun j ↦ ?_⟩
    · rw [fillBytes, if_neg (Nat.lt_irrefl _)]
    · have hnone : ¬ (i ≤ j / 8 ∧ j / 8 < i) := by omega
      simp [hnone]
  | succ k ih =>
    have hlen : (tab.set i 0xff).length = tab.length := List.length_set
    have he' : e ≤ (tab.set i 0xff).length := hlen ▸ he
    obtain ⟨tab', hfill, hlen', hbits⟩ := ih (Nat.lt_of_sub_eq_succ hk) he' (by omega)
    refine ⟨tab', ?_, hlen'.trans hlen, fun j ↦ ?_⟩
    · rw [fillBytes, if_pos (by omega), storeByte, if_pos (by omega), Option.bind_some]
      rwa [Nat.succ_mul] at hfill
    · rw [hbits j, bit_set (by omega)]
      by_cases hj : j / 8 = i
      · have hmod : j % 8 < 8 := Nat.mod_lt j (by decide)
        have hbyte : (0xff : BitVec 8).getLsbD (j % 8) = true := by
          have hup := getLsbD_upper 0 hmod
          simpa using hup
        have hin : i ≤ j / 8 ∧ j / 8 < e := by omega
        rw [if_pos hj, hbyte, decide_eq_true hin]
        simp
      · have hiff : (i + 1 ≤ j / 8 ∧ j / 8 < e) ↔ (i ≤ j / 8 ∧ j / 8 < e) := by omega
        rw [if_neg hj, decide_eq_decide.mpr hiff]

/-- The bits of a range are set, the others are left, and no byte outside the table is touched. -/
theorem setBits_bits {start len : Nat} (h : start + len ≤ tab.length * 8) :
    ∃ tab', setBits tab start len = some tab' ∧ tab'.length = tab.length ∧
      ∀ j, bit tab' j = (bit tab j || decide (start ≤ j ∧ j < start + len)) := by
  have hshift : start >>> 3 = start / 8 := Nat.shiftRight_eq_div_pow start 3
  have hmod : ∀ j, j % 8 < 8 := fun j ↦ Nat.mod_lt j (by decide)
  unfold setBits
  simp only [hshift]
  by_cases hsame : start / 8 * 8 = (start + len) / 8 * 8
  · rw [if_pos hsame]
    by_cases hlt : start < start + len
    · rw [if_pos hlt]
      have hin : start / 8 < tab.length := by omega
      obtain ⟨tab', hor, hlen, hbits⟩ := orByte_bits hin
        ((0xff : BitVec 8) <<< (start % 8) &&& ~~~((0xff : BitVec 8) <<< ((start + len) % 8)))
      refine ⟨tab', hor, hlen, fun j ↦ ?_⟩
      rw [hbits j, BitVec.getLsbD_and, getLsbD_lower _ (hmod j), getLsbD_upper _ (hmod j), Bool.eq_iff_iff]
      simp only [Bool.or_eq_true, Bool.and_eq_true, decide_eq_true_eq]
      apply or_congr_right
      omega
    · rw [if_neg hlt]
      refine ⟨tab, rfl, rfl, fun j ↦ ?_⟩
      have hnone : ¬ (start ≤ j ∧ j < start + len) := by omega
      simp [hnone]
  · rw [if_neg hsame]
    -- the rest of the first byte, whole bytes, and the beginning of the last one
    have hin : start / 8 < tab.length := by omega
    obtain ⟨tab₁, hfirst, hlen₁, hbits₁⟩ := orByte_bits hin ((0xff : BitVec 8) <<< (start % 8))
    have hstart : (start + 8) / 8 * 8 = (start / 8 + 1) * 8 := by omega
    have hle : (start + len) / 8 ≤ tab₁.length := by omega
    have hnext : start / 8 + 1 ≤ (start + len) / 8 := by omega
    obtain ⟨tab₂, hwhole, hlen₂, hbits₂⟩ := fillBytes_bits hnext hle
    simp only [hfirst, hstart, hwhole, Option.bind_eq_bind, Option.bind_some]
    by_cases hlast : (start + len) / 8 * 8 < start + len
    · rw [if_pos hlast]
      have hend : (start + len) / 8 < tab₂.length := by omega
      obtain ⟨tab₃, hor, hlen₃, hbits₃⟩ := orByte_bits hend (~~~((0xff : BitVec 8) <<< ((start + len) % 8)))
      refine ⟨tab₃, hor, hlen₃.trans (hlen₂.trans hlen₁), fun j ↦ ?_⟩
      rw [hbits₃ j, hbits₂ j, hbits₁ j, getLsbD_lower _ (hmod j), getLsbD_upper _ (hmod j), Bool.eq_iff_iff]
      simp only [Bool.or_eq_true, Bool.and_eq_true, decide_eq_true_eq, or_assoc]
      apply or_congr_right
      omega
    · rw [if_neg hlast]
      refine ⟨tab₂, rfl, hlen₂.trans hlen₁, fun j ↦ ?_⟩
      rw [hbits₂ j, hbits₁ j, getLsbD_upper _ (hmod j), Bool.eq_iff_iff]
      simp only [Bool.or_eq_true, Bool.and_eq_true, decide_eq_true_eq, or_assoc]
      apply or_congr_right
      omega

end Bits

section Parts

theorem pageOffset_eq (pc : Addr) : pageOffset pc = pc.toNat % 1024 := by
  have hmask : ~~~targetPageMask = 1023#32 := rfl
  rw [pageOffset, hmask, BitVec.toNat_and]
  exact Nat.and_two_pow_sub_one_eq_mod pc.toNat 10

theorem targetPageSize_eq : targetPageSize = 1024 := by decide

/-- Whether the last byte of a block is on another page than the first. -/
def Crosses (pc : Addr) (size : Nat) : Prop := ¬ Tlb.samePage pc (pc + BitVec.ofNat 32 size - 1)

namespace TranslationBlock

variable {b : TranslationBlock} {n : Fin 2} {p : Page}

/-- The size and the pages of a linked block. -/
structure Sound (b : TranslationBlock) : Prop where
  size_pos : 0 < b.size
  end_lt : pageOffset b.pc + b.size < 2 * targetPageSize
  first : (b.pageAddr 0).isSome
  second : (b.pageAddr 1).isSome ↔ Crosses b.pc b.size

/-- The physical address of a byte of the block. -/
def address (b : TranslationBlock) (i : Nat) : Option Nat :=
  if pageOffset b.pc + i < targetPageSize then (b.pageAddr 0).map fun p ↦ p * targetPageSize + (pageOffset b.pc + i)
  else (b.pageAddr 1).map fun p ↦ p * targetPageSize + (pageOffset b.pc + i - targetPageSize)

def Occupies (b : TranslationBlock) (a : Nat) : Prop := ∃ i < b.size, b.address i = some a

/-- The offset `j` is in the part of its page `n` that the block is on. -/
def InPart (b : TranslationBlock) (n : Fin 2) (j : Nat) : Prop := (b.bitmapPart n).1 ≤ j ∧ j < (b.bitmapPart n).2

theorem crosses_iff (pc : Addr) {size : Nat} (hpos : 0 < size) (hend : pageOffset pc + size < 2 * targetPageSize) :
    Crosses pc size ↔ targetPageSize < pageOffset pc + size := by
  rw [pageOffset_eq, targetPageSize_eq] at hend
  rw [Crosses, Tlb.samePage, Tlb.targetPageMask_eq, Masks.and_high_eq_iff, pageOffset_eq, targetPageSize_eq]
  have hlast : (pc + BitVec.ofNat 32 size - 1).toNat = (pc.toNat + size - 1) % 2 ^ 32 := by
    rw [BitVec.toNat_sub, BitVec.toNat_add, BitVec.toNat_ofNat]
    have hone : (1 : Addr).toNat = 1 := rfl
    rw [hone]
    omega
  have hpow : 2 ^ targetPageBits = 1024 := rfl
  have hpc := pc.isLt
  rw [hlast, hpow]
  omega

theorem bitmapPart_le (b : TranslationBlock) (n : Fin 2) :
    (b.bitmapPart n).1 ≤ (b.bitmapPart n).2 ∧ (b.bitmapPart n).2 ≤ targetPageSize := by
  have hpc := pageOffset_eq b.pc
  have hend := pageOffset_eq (b.pc + BitVec.ofNat 32 b.size)
  match n with
  | 0 =>
    simp only [bitmapPart, targetPageSize_eq]
    split <;> omega
  | 1 =>
    simp only [bitmapPart, targetPageSize_eq]
    omega

theorem Sound.end_eq (h : b.Sound) (hcross : targetPageSize < pageOffset b.pc + b.size) :
    pageOffset (b.pc + BitVec.ofNat 32 b.size) = pageOffset b.pc + b.size - targetPageSize := by
  have hlt := h.end_lt
  rw [pageOffset_eq, BitVec.toNat_add, BitVec.toNat_ofNat]
  rw [pageOffset_eq] at hcross hlt ⊢
  rw [targetPageSize_eq] at hlt hcross ⊢
  omega

/-- The bytes of a block are those in its parts of its pages. -/
theorem Sound.occupies_iff (h : b.Sound) (a : Nat) :
    b.Occupies a ↔ ∃ n, b.pageAddr n = some (a / targetPageSize) ∧ b.InPart n (a % targetPageSize) := by
  have hpos := h.size_pos
  have hlt := h.end_lt
  have hoff := pageOffset_eq b.pc
  obtain ⟨(p₀ : Nat), hp₀⟩ := Option.isSome_iff_exists.mp h.first
  have hsecond := h.second.trans (crosses_iff b.pc h.size_pos h.end_lt)
  rw [targetPageSize_eq] at hlt hsecond
  have hend := h.end_eq
  rw [targetPageSize_eq] at hend
  simp only [Occupies, address, InPart, bitmapPart, targetPageSize_eq, Fin.exists_fin_two]
  constructor
  · rintro ⟨i, hi, haddr⟩
    by_cases hin : pageOffset b.pc + i < 1024
    · rw [if_pos hin, hp₀, Option.map_some, Option.some.injEq] at haddr
      subst haddr
      left
      have hpage : (p₀ * 1024 + (pageOffset b.pc + i)) / 1024 = p₀ := by omega
      refine ⟨by rw [hp₀, hpage], by omega, ?_⟩
      split <;> omega
    · rw [if_neg hin] at haddr
      obtain ⟨p₁, hp₁, rfl⟩ := Option.map_eq_some_iff.mp haddr
      right
      have hcross := hsecond.mp (by rw [hp₁]; rfl)
      have hpage : (p₁ * 1024 + (pageOffset b.pc + i - 1024)) / 1024 = p₁ := by omega
      refine ⟨by rw [hp₁, hpage], by omega, ?_⟩
      rw [hend hcross]
      omega
  · rintro (⟨hp, hlow, hhigh⟩ | ⟨hp, -, hhigh⟩)
    · refine ⟨a % 1024 - pageOffset b.pc, ?_, ?_⟩
      · split at hhigh <;> omega
      · rw [if_pos (by omega), hp]
        simp only [Option.map_some, Option.some.injEq]
        omega
    · have hcross := hsecond.mp (by rw [hp]; rfl)
      rw [hend hcross] at hhigh
      refine ⟨a % 1024 + 1024 - pageOffset b.pc, by omega, ?_⟩
      rw [if_neg (by omega), hp]
      simp only [Option.map_some, Option.some.injEq]
      omega

/-- A list entry is hit by a range on its page if a byte of its part is in the range. -/
theorem Sound.hit_iff (h : b.Sound) {start stop : Nat} (hp : b.pageAddr n = some (start / targetPageSize))
    (hlt : start < stop) (hstop : stop ≤ (start / targetPageSize + 1) * targetPageSize) :
    b.hit n start stop = true ↔ ∃ a, start ≤ a ∧ a < stop ∧ b.InPart n (a % targetPageSize) := by
  have hpos := h.size_pos
  have hoff := pageOffset_eq b.pc
  have hend := pageOffset_eq (b.pc + BitVec.ofNat 32 b.size)
  simp only [hit, hp, InPart, targetPageSize_eq] at hstop ⊢
  match n with
  | 0 =>
    simp only [rangePart, bitmapPart, targetPageSize_eq, Bool.not_eq_true', Bool.or_eq_false_iff,
      decide_eq_false_iff_not]
    constructor
    · rintro ⟨hafter, hbefore⟩
      refine ⟨max start (start / 1024 * 1024 + pageOffset b.pc), by omega, by omega, by omega, ?_⟩
      split <;> omega
    · rintro ⟨a, hstart, hastop, hlow, hhigh⟩
      split at hhigh <;> omega
  | 1 =>
    simp only [rangePart, bitmapPart, targetPageSize_eq, Bool.not_eq_true', Bool.or_eq_false_iff,
      decide_eq_false_iff_not]
    constructor
    · rintro ⟨hafter, hbefore⟩
      exact ⟨start, by omega, by omega, by omega, by omega⟩
    · rintro ⟨a, hstart, hastop, hlow, hhigh⟩
      omega

end TranslationBlock

end Parts

end IDeviceEmulator.Exec.Blocks
