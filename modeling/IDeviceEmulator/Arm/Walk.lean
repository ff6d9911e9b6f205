import IDeviceEmulator.Arm.Cp15
import IDeviceEmulator.Library.Machine
import Mathlib.Tactic.Ring

namespace IDeviceEmulator.Arm

open Masks

section Level1

/-- Where the architecture puts the entry of the first level for an address, with `n` from the control register: the
first table has `16K >> n` bytes and serves the addresses whose top `n` bits are zero. -/
def level1Entry (ttbr0 ttbr1 : Word) (n : Nat) (address : Word) : Nat :=
  if address.toNat / 2 ^ (32 - n) = 0 then
    ttbr0.toNat / 2 ^ (14 - n) * 2 ^ (14 - n) + 4 * (address.toNat % 2 ^ (32 - n) / 2 ^ 20)
  else ttbr1.toNat / 2 ^ 14 * 2 ^ 14 + 4 * (address.toNat / 2 ^ 20)

theorem level1_index (address : Word) :
    ((address >>> 18) &&& 0x3ffc#32).toNat = 4 * (address.toNat / 2 ^ 20) := by
  have hfield : (address >>> 18) &&& 0x3ffc#32 = (address &&& high 32 20) >>> 18 := by
    rw [BitVec.ushiftRight_and_distrib]
    congr 1
  rw [hfield, BitVec.toNat_ushiftRight, toNat_and_high, Nat.shiftRight_eq_div_pow]
  omega

/-- An index below an aligned table. -/
theorem toNat_entry {base index : Word} {k : Nat} (h : index.toNat < 2 ^ k) :
    ((base &&& high 32 k) ||| index).toNat = base.toNat / 2 ^ k * 2 ^ k + index.toNat := by
  rw [BitVec.toNat_or, toNat_and_high, ← Nat.shiftLeft_eq, Nat.shiftLeft_add_eq_or_of_lt h]

variable {s : Cpu}

theorem getLevel1TableAddress_eq (h : TableMasks s.cp15) (address : Word) :
    (getLevel1TableAddress s address).toNat =
      level1Entry s.cp15.c2Base0 s.cp15.c2Base1 s.cp15.c2Control.toNat address := by
  have hn := h.control
  have hselect : address &&& s.cp15.c2Mask ≠ (0 : Word) ↔ address.toNat / 2 ^ (32 - s.cp15.c2Control.toNat) ≠ 0 := by
    have hzero := and_high_eq_iff (a := address) (b := 0#32) (k := 32 - s.cp15.c2Control.toNat)
    rw [BitVec.zero_and, BitVec.toNat_zero, Nat.zero_div] at hzero
    rw [h.mask]
    exact not_congr hzero
  have hindex := level1_index address
  have haddress : address.toNat < 2 ^ 32 := address.isLt
  unfold getLevel1TableAddress level1Entry
  dsimp only
  by_cases htop : address.toNat / 2 ^ (32 - s.cp15.c2Control.toNat) = 0
  · have hlow : address.toNat < 2 ^ (32 - s.cp15.c2Control.toNat) := (Nat.div_eq_zero_iff_lt (Nat.two_pow_pos _)).mp htop
    have hsmall : address.toNat / 2 ^ 20 < 2 ^ (12 - s.cp15.c2Control.toNat) := by
      rw [Nat.div_lt_iff_lt_mul (Nat.two_pow_pos 20), ← Nat.pow_add]
      rwa [show 12 - s.cp15.c2Control.toNat + 20 = 32 - s.cp15.c2Control.toNat by omega]
    have hfit : ((address >>> 18) &&& 0x3ffc#32).toNat < 2 ^ (14 - s.cp15.c2Control.toNat) := by
      rw [hindex, show 14 - s.cp15.c2Control.toNat = 12 - s.cp15.c2Control.toNat + 2 by omega, Nat.pow_add]
      omega
    rw [if_neg (mt hselect.mp (not_not.mpr htop)), if_pos htop, h.baseMask, toNat_entry hfit, hindex,
      Nat.mod_eq_of_lt hlow]
  · have hfit : ((address >>> 18) &&& 0x3ffc#32).toNat < 2 ^ 14 := by
      rw [hindex]
      omega
    rw [if_pos (hselect.mpr htop), if_neg htop]
    change ((s.cp15.c2Base1 &&& high 32 14) ||| _).toNat = _
    rw [toNat_entry hfit, hindex]

/-- The entry lies in the table that serves the address. -/
theorem level1Entry_lt (ttbr0 ttbr1 : Word) {n : Nat} (hn : n < 8) (address : Word)
    (h : address.toNat / 2 ^ (32 - n) = 0) :
    level1Entry ttbr0 ttbr1 n address < ttbr0.toNat / 2 ^ (14 - n) * 2 ^ (14 - n) + 2 ^ 14 / 2 ^ n := by
  have hlow : address.toNat % 2 ^ (32 - n) < 2 ^ (32 - n) := Nat.mod_lt _ (Nat.two_pow_pos _)
  have hindex : address.toNat % 2 ^ (32 - n) / 2 ^ 20 < 2 ^ (12 - n) := by
    rw [Nat.div_lt_iff_lt_mul (Nat.two_pow_pos 20), ← Nat.pow_add]
    rwa [show 12 - n + 20 = 32 - n by omega]
  have hsize : 2 ^ 14 / 2 ^ n = 2 ^ (12 - n) * 4 := by
    rw [Nat.pow_div (by omega) (by decide), show 14 - n = 12 - n + 2 by omega, Nat.pow_add]
  rw [level1Entry, if_pos h, hsize]
  omega

end Level1

section Descriptors

variable (s : Cpu) (ldlPhys : Word → Word)

def usesV6 : Bool := s.cp15.c1Sys.getLsbD 23

/-- The walk that `get_phys_addr` chooses, up to the check of the permissions. -/
def lookup (address : Word) : Except Word Leaf :=
  if usesV6 s then lookupV6 s ldlPhys address else lookupV5 s ldlPhys address

/-- A descriptor of the first level that leads to a table with an entry for each kilobyte. -/
def IsFine (desc : Word) : Prop := usesV6 s = false ∧ desc &&& 3#32 ≠ 1

/-- The entry of the second level below a descriptor of the first. -/
def level2Address (desc address : Word) : Word :=
  if usesV6 s ∨ desc &&& 3#32 = 1 then (desc &&& 0xfffffc00#32) ||| ((address >>> 10) &&& 0x3fc#32)
  else (desc &&& 0xfffff000#32) ||| ((address >>> 8) &&& 0xffc#32)

def level1Desc (address : Word) : Word := ldlPhys (getLevel1TableAddress s address)

def level2Desc (address : Word) : Word := ldlPhys (level2Address s (level1Desc s ldlPhys address) address)

/-- The walk of the second address reads what the walk of the first one read. -/
structure SameDescriptors (address address' : Word) : Prop where
  level1 : level1Desc s ldlPhys address' = level1Desc s ldlPhys address
  level2 : level1Desc s ldlPhys address &&& 3#32 ≠ 2 → level2Desc s ldlPhys address' = level2Desc s ldlPhys address

/-- A leaf of a block of `2 ^ k` bytes in a frame of `2 ^ j` bytes. -/
structure Leaf.InFrame (leaf : Leaf) (frame : Word) (j k : Nat) (address : Word) : Prop where
  pageSize : leaf.pageSize = BitVec.twoPow 32 k
  physAddr : leaf.physAddr = (frame &&& high 32 j) ||| (address &&& ~~~high 32 j)

/-- Walks of two addresses that end in one frame, with blocks of one size. -/
def Joined (address address' : Word) (leaf : Leaf) (walk' : Except Word Leaf) : Prop :=
  ∃ frame j k, k ≤ j ∧ j < 32 ∧ leaf.InFrame frame j k address ∧
    ∃ leaf', walk' = .ok leaf' ∧ leaf'.InFrame frame j k address'

variable {s : Cpu} {ldlPhys : Word → Word} {address address' desc desc₂ domain : Word} {leaf : Leaf}

theorem pageV5_joined (h : pageV5 s (fun _ ↦ desc₂) address desc domain = .ok leaf) :
    Joined address address' leaf (pageV5 s (fun _ ↦ desc₂) address' desc domain) := by
  unfold pageV5 at h ⊢
  dsimp only at h ⊢
  split at h
  case h_1 => cases h
  case h_2 =>
    cases h
    exact ⟨desc₂, 16, 16, Nat.le_refl 16, by decide, ⟨rfl, rfl⟩, _, rfl, ⟨rfl, rfl⟩⟩
  case h_3 =>
    cases h
    exact ⟨desc₂, 12, 12, Nat.le_refl 12, by decide, ⟨rfl, rfl⟩, _, rfl, ⟨rfl, rfl⟩⟩
  case h_4 =>
    split_ifs at h ⊢
    · cases h
      exact ⟨desc₂, 12, 10, by decide, by decide, ⟨rfl, rfl⟩, _, rfl, ⟨rfl, rfl⟩⟩
    · cases h
      exact ⟨desc₂, 10, 10, Nat.le_refl 10, by decide, ⟨rfl, rfl⟩, _, rfl, ⟨rfl, rfl⟩⟩

theorem pageV6_joined (h : pageV6 (fun _ ↦ desc₂) address desc domain = .ok leaf) :
    Joined address address' leaf (pageV6 (fun _ ↦ desc₂) address' desc domain) := by
  unfold pageV6 at h ⊢
  dsimp only at h ⊢
  split at h
  case h_1 => cases h
  case h_2 =>
    cases h
    exact ⟨desc₂, 16, 16, Nat.le_refl 16, by decide, ⟨rfl, rfl⟩, _, rfl, ⟨rfl, rfl⟩⟩
  all_goals
    cases h
    exact ⟨desc₂, 12, 12, Nat.le_refl 12, by decide, ⟨rfl, rfl⟩, _, rfl, ⟨rfl, rfl⟩⟩

theorem pageV5_fetch (hv : usesV6 s = false) :
    pageV5 s ldlPhys address desc domain =
      pageV5 s (fun _ ↦ ldlPhys (level2Address s desc address)) address desc domain := by
  simp only [pageV5, level2Address, hv, Bool.false_eq_true, false_or]

theorem pageV6_fetch (hv : usesV6 s = true) :
    pageV6 ldlPhys address desc domain =
      pageV6 (fun _ ↦ ldlPhys (level2Address s desc address)) address desc domain := by
  simp only [pageV6, level2Address, hv, true_or, if_true]

theorem lookupV5_joined (hv : usesV6 s = false) (hsame : SameDescriptors s ldlPhys address address')
    (h : lookupV5 s ldlPhys address = .ok leaf) :
    Joined address address' leaf (lookupV5 s ldlPhys address') := by
  have h1 : ldlPhys (getLevel1TableAddress s address') = ldlPhys (getLevel1TableAddress s address) := hsame.level1
  have h2 := hsame.level2
  unfold level2Desc at h2
  rw [hsame.level1] at h2
  unfold level1Desc at h2
  unfold lookupV5 at h ⊢
  dsimp only at h ⊢
  rw [h1]
  generalize ldlPhys (getLevel1TableAddress s address) = desc at h h2 ⊢
  by_cases htype : desc &&& 3#32 = 0
  · rw [if_pos htype] at h
    cases h
  rw [if_neg htype] at h ⊢
  by_cases hdomain : (s.cp15.c3 >>> ((desc >>> 4) &&& 0x1e#32)) &&& 3#32 = 0 ∨
      (s.cp15.c3 >>> ((desc >>> 4) &&& 0x1e#32)) &&& 3#32 = 2
  · rw [if_pos hdomain] at h
    cases h
  rw [if_neg hdomain] at h ⊢
  by_cases hsection : desc &&& 3#32 = 2
  · rw [if_pos hsection] at h ⊢
    cases h
    exact ⟨desc, 20, 20, Nat.le_refl 20, by decide, ⟨rfl, rfl⟩, _, rfl, ⟨rfl, rfl⟩⟩
  · rw [if_neg hsection] at h ⊢
    rw [pageV5_fetch hv] at h ⊢
    rw [h2 hsection]
    exact pageV5_joined h

theorem lookupV6_joined (hv : usesV6 s = true) (hsame : SameDescriptors s ldlPhys address address')
    (h : lookupV6 s ldlPhys address = .ok leaf) :
    Joined address address' leaf (lookupV6 s ldlPhys address') := by
  have h1 : ldlPhys (getLevel1TableAddress s address') = ldlPhys (getLevel1TableAddress s address) := hsame.level1
  have h2 := hsame.level2
  unfold level2Desc at h2
  rw [hsame.level1] at h2
  unfold level1Desc at h2
  unfold lookupV6 at h ⊢
  dsimp only at h ⊢
  rw [h1]
  generalize ldlPhys (getLevel1TableAddress s address) = desc at h h2 ⊢
  by_cases htype : desc &&& 3#32 = 0
  · rw [if_pos htype] at h
    cases h
  rw [if_neg htype] at h ⊢
  generalize (s.cp15.c3 >>> if desc &&& 3#32 = 2 ∧ desc.getLsbD 18 = true then 0#32 else (desc >>> 4) &&& 0x1e#32) &&&
    3#32 = domain at h ⊢
  by_cases hdomain : domain = 0 ∨ domain = 2
  · rw [if_pos hdomain] at h
    cases h
  rw [if_neg hdomain] at h ⊢
  by_cases hsection : desc &&& 3#32 = 2
  · rw [if_pos hsection] at h ⊢
    by_cases hsuper : desc.getLsbD 18 = true
    · rw [if_pos hsuper] at h ⊢
      cases h
      exact ⟨desc, 24, 24, Nat.le_refl 24, by decide, ⟨rfl, rfl⟩, _, rfl, ⟨rfl, rfl⟩⟩
    · rw [if_neg hsuper] at h ⊢
      cases h
      exact ⟨desc, 20, 20, Nat.le_refl 20, by decide, ⟨rfl, rfl⟩, _, rfl, ⟨rfl, rfl⟩⟩
  · rw [if_neg hsection] at h ⊢
    rw [pageV6_fetch hv] at h ⊢
    rw [h2 hsection]
    exact pageV6_joined h

theorem lookup_joined (hsame : SameDescriptors s ldlPhys address address') (h : lookup s ldlPhys address = .ok leaf) :
    Joined address address' leaf (lookup s ldlPhys address') := by
  unfold lookup at h ⊢
  cases hv : usesV6 s with
  | true =>
    rw [hv] at h
    exact lookupV6_joined hv hsame h
  | false =>
    rw [hv] at h
    exact lookupV5_joined hv hsame h

/-- The block of an address in memory and the one in the frame have the same place. -/
theorem splice_block {n a b j k : Nat} (hjk : k ≤ j) (h : b / 2 ^ k = a / 2 ^ k) :
    n * 2 ^ j + b % 2 ^ j = (n * 2 ^ j + a % 2 ^ j) / 2 ^ k * 2 ^ k + b % 2 ^ k := by
  obtain ⟨d, rfl⟩ := Nat.exists_eq_add_of_le hjk
  have hsplit (x : Nat) : n * 2 ^ (k + d) + x % 2 ^ (k + d) = (n * 2 ^ d + x / 2 ^ k % 2 ^ d) * 2 ^ k + x % 2 ^ k := by
    rw [Nat.pow_add, Nat.mod_mul]
    ring
  have hdiv (q r : Nat) (hr : r < 2 ^ k) : (q * 2 ^ k + r) / 2 ^ k = q := by
    rw [Nat.mul_comm, Nat.mul_add_div (Nat.two_pow_pos k), Nat.div_eq_of_lt hr, Nat.add_zero]
  rw [hsplit, hsplit, hdiv _ _ (Nat.mod_lt _ (Nat.two_pow_pos k)), h]

theorem Joined.block (h : Joined address address' leaf (lookup s ldlPhys address'))
    (hblock : address'.toNat / leaf.pageSize.toNat = address.toNat / leaf.pageSize.toNat) :
    ∃ leaf', lookup s ldlPhys address' = .ok leaf' ∧ leaf'.pageSize = leaf.pageSize ∧
      leaf'.physAddr.toNat = leaf.physAddr.toNat / leaf.pageSize.toNat * leaf.pageSize.toNat +
        address'.toNat % leaf.pageSize.toNat := by
  obtain ⟨frame, j, k, hjk, hj, hframe, leaf', hleaf', hframe'⟩ := h
  have hk : k < 32 := Nat.lt_of_le_of_lt hjk hj
  have hsize : leaf.pageSize.toNat = 2 ^ k := by
    rw [hframe.pageSize, BitVec.toNat_twoPow_of_lt hk]
  rw [hsize] at hblock ⊢
  refine ⟨leaf', hleaf', hframe'.pageSize.trans hframe.pageSize.symm, ?_⟩
  rw [hframe.physAddr, hframe'.physAddr, toNat_splice, toNat_splice]
  exact splice_block hjk hblock

/-- A block that no second descriptor describes. -/
def OneDescriptor (s : Cpu) (desc pageSize : Word) : Prop :=
  pageSize = 0x100000 ∨ pageSize = 0x400 ∨ pageSize = 0x1000 ∧ ¬ IsFine s desc

theorem level1Entry_congr {ttbr0 ttbr1 : Word} {n : Nat} (hn : n < 8)
    (h : address'.toNat / 2 ^ 20 = address.toNat / 2 ^ 20) :
    level1Entry ttbr0 ttbr1 n address' = level1Entry ttbr0 ttbr1 n address := by
  have htop (x : Nat) : x / 2 ^ (32 - n) = x / 2 ^ 20 / 2 ^ (12 - n) := by
    rw [Nat.div_div_eq_div_mul, ← Nat.pow_add, show 20 + (12 - n) = 32 - n by omega]
  have hbelow (x : Nat) : x % 2 ^ (32 - n) / 2 ^ 20 = x / 2 ^ 20 % 2 ^ (12 - n) := by
    rw [show 32 - n = 20 + (12 - n) by omega, Nat.pow_add, Nat.mod_mul_right_div_self]
  simp only [level1Entry, htop, hbelow, h]

theorem getLevel1TableAddress_congr (hs : TableMasks s.cp15)
    (h : address'.toNat / 2 ^ 20 = address.toNat / 2 ^ 20) :
    getLevel1TableAddress s address' = getLevel1TableAddress s address := by
  apply BitVec.eq_of_toNat_eq
  rw [getLevel1TableAddress_eq hs, getLevel1TableAddress_eq hs, level1Entry_congr hs.control h]

theorem shiftRight_and_congr {k n : Nat} {m : Word} (hkn : k ≤ n) (hm : m &&& high 32 (n - k) = m)
    (h : address'.toNat / 2 ^ n = address.toNat / 2 ^ n) : (address' >>> k) &&& m = (address >>> k) &&& m := by
  have hhigh : (address' >>> k) &&& high 32 (n - k) = (address >>> k) &&& high 32 (n - k) := by
    rw [and_high_eq_iff]
    have hdiv (x : Word) : (x >>> k).toNat / 2 ^ (n - k) = x.toNat / 2 ^ n := by
      rw [BitVec.toNat_ushiftRight, Nat.shiftRight_eq_div_pow, Nat.div_div_eq_div_mul, ← Nat.pow_add,
        Nat.add_sub_of_le hkn]
    rw [hdiv, hdiv, h]
  rw [← hm, BitVec.and_comm m, ← BitVec.and_assoc, ← BitVec.and_assoc, hhigh]

theorem level2Address_coarse (hfine : ¬ IsFine s desc) (h : address'.toNat / 2 ^ 12 = address.toNat / 2 ^ 12) :
    level2Address s desc address' = level2Address s desc address := by
  have hcoarse : usesV6 s = true ∨ desc &&& 3#32 = 1 := by
    by_contra hno
    simp only [not_or, Bool.not_eq_true] at hno
    exact hfine hno
  rw [level2Address, level2Address, if_pos hcoarse, if_pos hcoarse,
    shiftRight_and_congr (k := 10) (n := 12) (m := 0x3fc#32) (by decide) (by decide) h]

theorem level2Address_fine (h : address'.toNat / 2 ^ 10 = address.toNat / 2 ^ 10) :
    level2Address s desc address' = level2Address s desc address := by
  have hpage : address'.toNat / 2 ^ 12 = address.toNat / 2 ^ 12 := by omega
  rw [level2Address, level2Address,
    shiftRight_and_congr (k := 10) (n := 12) (m := 0x3fc#32) (by decide) (by decide) hpage,
    shiftRight_and_congr (k := 8) (n := 10) (m := 0xffc#32) (by decide) (by decide) h]

/-- The permissions of the part `q` of a page, from the least significant ones up. -/
def apField (desc : Word) (q : Nat) : Ap := ((desc >>> (4 + 2 * q)) &&& 3#32).setWidth 3

/-- Both kinds of pages with four fields take the field of a quarter of 64 kilobytes. -/
theorem pageV5_leaf (h : pageV5 s (fun _ ↦ desc₂) address desc domain = .ok leaf) :
    leaf.pageSize = 0x400 ∨
      (leaf.pageSize = 0x10000 ∨ leaf.pageSize = 0x1000) ∧ leaf.ap = apField desc₂ (address.toNat / 0x4000 % 4) := by
  have hshift : desc₂ >>> (4#32 + ((address >>> 13) &&& 6#32)) = desc₂ >>> (4 + 2 * (address.toNat / 0x4000 % 4)) := by
    have hfield : ((address >>> 13) &&& 6#32).toNat = 2 * (address.toNat / 0x4000 % 4) := by
      have hlow : (address >>> 13) &&& 6#32 = ((address >>> 13) &&& ~~~high 32 3) &&& high 32 1 := by
        rw [BitVec.and_assoc]
        rfl
      rw [hlow, toNat_and_high, toNat_and_low, BitVec.toNat_ushiftRight, Nat.shiftRight_eq_div_pow]
      omega
    have hfour : (4#32).toNat = 4 := rfl
    rw [BitVec.ushiftRight_eq', BitVec.toNat_add, hfield, hfour, Nat.mod_eq_of_lt (by omega)]
  unfold pageV5 at h
  dsimp only at h
  split at h
  case h_1 => cases h
  case h_2 =>
    cases h
    exact .inr ⟨.inl rfl, by rw [hshift, apField]⟩
  case h_3 =>
    cases h
    exact .inr ⟨.inr rfl, by rw [hshift, apField]⟩
  case h_4 =>
    split_ifs at h
    · cases h
      exact .inl rfl
    · cases h
      exact .inl rfl

theorem pageV6_leaf (h : pageV6 (fun _ ↦ desc₂) address desc domain = .ok leaf) :
    leaf.pageSize = 0x10000 ∨ leaf.pageSize = 0x1000 := by
  unfold pageV6 at h
  dsimp only at h
  split at h
  case h_1 => cases h
  case h_2 =>
    cases h
    exact .inl rfl
  all_goals
    cases h
    exact .inr rfl

/-- A block of one megabyte comes from a section. -/
theorem lookup_section (h : lookup s ldlPhys address = .ok leaf) (hsize : leaf.pageSize = 0x100000) :
    level1Desc s ldlPhys address &&& 3#32 = 2 := by
  by_contra hsection
  unfold lookup at h
  unfold level1Desc at hsection
  cases hv : usesV6 s with
  | true =>
    rw [hv, if_pos rfl] at h
    unfold lookupV6 at h
    dsimp only at h
    generalize ldlPhys (getLevel1TableAddress s address) = desc at h hsection
    rw [if_neg hsection] at h
    split at h
    · cases h
    generalize (s.cp15.c3 >>> if desc &&& 3#32 = 2 ∧ desc.getLsbD 18 = true then 0#32 else (desc >>> 4) &&& 0x1e#32) &&&
      3#32 = domain at h
    split at h
    · cases h
    rw [pageV6_fetch hv] at h
    rcases pageV6_leaf h with h | h <;> rw [h] at hsize <;> exact absurd hsize (by decide)
  | false =>
    rw [hv, if_neg (by decide)] at h
    unfold lookupV5 at h
    dsimp only at h
    rw [if_neg hsection] at h
    split at h
    · cases h
    split at h
    · cases h
    rw [pageV5_fetch hv] at h
    rcases pageV5_leaf h with h | ⟨h | h, -⟩ <;> rw [h] at hsize <;> exact absurd hsize (by decide)

theorem sameDescriptors_of_one (hs : TableMasks s.cp15) (h : lookup s ldlPhys address = .ok leaf)
    (hone : OneDescriptor s (level1Desc s ldlPhys address) leaf.pageSize)
    (hblock : address'.toNat / leaf.pageSize.toNat = address.toNat / leaf.pageSize.toNat) :
    SameDescriptors s ldlPhys address address' := by
  have hwithin {k : Nat} (hk : k ≤ 20) (hdiv : address'.toNat / 2 ^ k = address.toNat / 2 ^ k) :
      level1Desc s ldlPhys address' = level1Desc s ldlPhys address := by
    have hmega : address'.toNat / 2 ^ 20 = address.toNat / 2 ^ 20 := by
      rw [← Nat.add_sub_of_le hk, Nat.pow_add, ← Nat.div_div_eq_div_mul, ← Nat.div_div_eq_div_mul, hdiv]
    rw [level1Desc, getLevel1TableAddress_congr hs hmega, level1Desc]
  rcases hone with hsize | hsize | ⟨hsize, hfine⟩
  · rw [hsize] at hblock
    exact ⟨hwithin (k := 20) (by decide) hblock, fun hno ↦ absurd (lookup_section h hsize) hno⟩
  · rw [hsize] at hblock
    have h1 := hwithin (k := 10) (by decide) hblock
    refine ⟨h1, fun _ ↦ ?_⟩
    rw [level2Desc, h1, level2Address_fine hblock, level2Desc]
  · rw [hsize] at hblock
    have h1 := hwithin (k := 12) (by decide) hblock
    refine ⟨h1, fun _ ↦ ?_⟩
    rw [level2Desc, h1, level2Address_coarse hfine hblock, level2Desc]

/-- Which part of a version 5 page its permissions are taken from. -/
theorem lookupV5_ap (hv : usesV6 s = false) (h : lookup s ldlPhys address = .ok leaf)
    (hsize : leaf.pageSize = 0x10000 ∨ leaf.pageSize = 0x1000) :
    leaf.ap = apField (level2Desc s ldlPhys address) (address.toNat / 0x4000 % 4) := by
  unfold lookup at h
  rw [hv, if_neg (by decide)] at h
  unfold lookupV5 at h
  dsimp only at h
  split at h
  · cases h
  split at h
  · cases h
  split at h
  · cases h
    change (0x100000 : Word) = 0x10000 ∨ (0x100000 : Word) = 0x1000 at hsize
    exact absurd hsize (by decide)
  · rw [pageV5_fetch hv] at h
    rcases pageV5_leaf h with hleaf | ⟨-, hap⟩
    · rw [hleaf] at hsize
      exact absurd hsize (by decide)
    · exact hap

end Descriptors

section Geometry

variable {s : Cpu} {ldlPhys : Word → Word} {address : Word} {t : Access} {isUser : Bool} {r : Mapping}

/-- What `get_phys_addr` grants comes from the walk that it chooses. -/
theorem getPhysAddr_leaf (hmmu : s.cp15.c1Sys.getLsbD 0 = true) (hmpu : s.feature .mpu = false)
    (hfcse : s.cp15.c13Fcse = 0) (h : getPhysAddr s ldlPhys address t isUser = .ok r) :
    ∃ leaf, lookup s ldlPhys address = .ok leaf ∧ r.physAddr = leaf.physAddr ∧ r.pageSize = leaf.pageSize ∧
      (usesV6 s = false → r.prot = checkAp s leaf.ap leaf.domain t isUser ||| pageExec) := by
  have haddress : (if address < 0x02000000 then address + s.cp15.c13Fcse else address) = address := by
    rw [hfcse]
    split_ifs
    · exact BitVec.add_zero address
    · rfl
  unfold getPhysAddr at h
  dsimp only at h
  rw [haddress, if_neg (by rw [hmmu]; decide), if_neg (by rw [hmpu]; decide)] at h
  unfold lookup usesV6
  cases hv : s.cp15.c1Sys.getLsbD 23 with
  | true =>
    rw [hv, if_pos rfl] at h
    obtain ⟨leaf, hleaf, hprot⟩ := Machine.ok_of_bind h
    refine ⟨leaf, hleaf, ?_⟩
    by_cases hdomain : leaf.domain = 3
    · rw [if_pos hdomain] at hprot
      cases hprot
      exact ⟨rfl, rfl, nofun⟩
    rw [if_neg hdomain] at hprot
    split at hprot
    · cases hprot
    split at hprot
    · cases hprot
    dsimp only at hprot
    split at hprot
    · cases hprot
    · cases hprot
      exact ⟨rfl, rfl, nofun⟩
  | false =>
    rw [hv, if_neg (by decide)] at h
    obtain ⟨leaf, hleaf, hprot⟩ := Machine.ok_of_bind h
    refine ⟨leaf, hleaf, ?_⟩
    dsimp only at hprot
    split at hprot
    · cases hprot
    · cases hprot
      exact ⟨rfl, rfl, fun _ ↦ rfl⟩

/-- Every granted access reaches the block that its descriptors name, through the entry that the architecture puts
them at. -/
theorem walk_geometry (hs : Reached s) (hmmu : s.cp15.c1Sys.getLsbD 0 = true) (hmpu : s.feature .mpu = false)
    (hfcse : s.cp15.c13Fcse = 0) (h : getPhysAddr s ldlPhys address t isUser = .ok r) :
    s.cp15.c2Control.toNat < 8 ∧
    (getLevel1TableAddress s address).toNat =
      level1Entry s.cp15.c2Base0 s.cp15.c2Base1 s.cp15.c2Control.toNat address ∧
    (address.toNat / 2 ^ (32 - s.cp15.c2Control.toNat) = 0 → (getLevel1TableAddress s address).toNat <
      s.cp15.c2Base0.toNat / 2 ^ (14 - s.cp15.c2Control.toNat) * 2 ^ (14 - s.cp15.c2Control.toNat) +
        2 ^ 14 / 2 ^ s.cp15.c2Control.toNat) ∧
    (∀ address' : Word, address'.toNat / r.pageSize.toNat = address.toNat / r.pageSize.toNat →
      OneDescriptor s (level1Desc s ldlPhys address) r.pageSize ∨ SameDescriptors s ldlPhys address address' →
        (∃ leaf', lookup s ldlPhys address' = .ok leaf' ∧ leaf'.pageSize = r.pageSize ∧
          leaf'.physAddr.toNat = r.physAddr.toNat / r.pageSize.toNat * r.pageSize.toNat +
            address'.toNat % r.pageSize.toNat) ∧
        ∀ t' isUser' r', getPhysAddr s ldlPhys address' t' isUser' = .ok r' →
          r'.pageSize = r.pageSize ∧
          r'.physAddr.toNat = r.physAddr.toNat / r.pageSize.toNat * r.pageSize.toNat +
            address'.toNat % r.pageSize.toNat) ∧
    (usesV6 s = false → r.pageSize = 0x10000 → ∃ leaf, lookup s ldlPhys address = .ok leaf ∧
      leaf.ap = apField (level2Desc s ldlPhys address) (address.toNat % 0x10000 / 0x4000) ∧
      r.prot = checkAp s leaf.ap leaf.domain t isUser ||| pageExec) := by
  have hmasks := hs.masks
  obtain ⟨leaf, hleaf, hphys, hsize, hprot⟩ := getPhysAddr_leaf hmmu hmpu hfcse h
  have hentry := getLevel1TableAddress_eq hmasks address
  refine ⟨hmasks.control, hentry, fun hlow ↦ ?_, fun address' hblock hdesc ↦ ?_, fun hv hlarge ↦ ?_⟩
  · rw [hentry]
    exact level1Entry_lt _ _ hmasks.control address hlow
  · rw [hsize] at hblock hdesc ⊢
    rw [hphys]
    have hsame : SameDescriptors s ldlPhys address address' := by
      rcases hdesc with hone | hsame
      · exact sameDescriptors_of_one hmasks hleaf hone hblock
      · exact hsame
    obtain ⟨leaf', hleaf', hsize', hphys'⟩ := (lookup_joined hsame hleaf).block hblock
    refine ⟨⟨leaf', hleaf', hsize', hphys'⟩, fun t' isUser' r' hr' ↦ ?_⟩
    obtain ⟨leaf'', hleaf'', hphys'', hsize'', -⟩ := getPhysAddr_leaf hmmu hmpu hfcse hr'
    cases hleaf'.symm.trans hleaf''
    rw [hsize'', hphys'']
    exact ⟨hsize', hphys'⟩
  · have hap := lookupV5_ap hv hleaf (.inl (hsize.symm.trans hlarge))
    refine ⟨leaf, hleaf, ?_, hprot hv⟩
    rw [hap, show address.toNat / 0x4000 % 4 = address.toNat % 0x10000 / 0x4000 by omega]

/-- A large page, described once where the architecture asks for sixteen times. -/
def largePageOnce (table : Word) : Word := if table = 0 then 0x8001 else if table = 0x8000 then 0x90000031 else 0

theorem mappedCpu_reached : Reached mappedCpu := .reset ⟨rfl, rfl, rfl, rfl, rfl⟩

theorem walk_geometry_large : getPhysAddr mappedCpu largePageOnce 0x123 .read true = .ok ⟨0x90000123, 7, 0x10000⟩ ∧
    (getLevel1TableAddress mappedCpu 0x123).toNat = level1Entry 0 0 0 0x123 :=
  ⟨by decide, (walk_geometry (r := ⟨0x90000123, 7, 0x10000⟩) mappedCpu_reached (by decide) (by decide) rfl
    (by decide : getPhysAddr mappedCpu largePageOnce 0x123 .read true = _)).2.1⟩

/-- The other addresses of the block have descriptors of their own. -/
theorem walk_geometry_once : Reached mappedCpu ∧
    getPhysAddr mappedCpu largePageOnce 0x123 .read true = .ok ⟨0x90000123, 7, 0x10000⟩ ∧
    0x1123 / 0x10000 = 0x123 / 0x10000 ∧
    getPhysAddr mappedCpu largePageOnce 0x1123 .read true = .error 0x17 :=
  ⟨mappedCpu_reached, by decide, by decide, by decide⟩

end Geometry

end IDeviceEmulator.Arm
