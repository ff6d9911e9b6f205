import IDeviceEmulator.Arm.Cpu
import IDeviceEmulator.Library.Lanes
import Mathlib.Data.Fintype.Basic
import Mathlib.Tactic.FinCases

namespace IDeviceEmulator.Arm.Zip

open Lanes

section Words

abbrev Double := BitVec 64

/-- `ELEM`. -/
def elem (v : Double) (n size : Nat) : Double := (v >>> (n * size)) &&& ((1#64 <<< size) - 1)

/-- Elements that are put together, each given by the word it is taken from and its number there. -/
def pack (size : Nat) (x : Double × Nat) (xs : List (Double × Nat)) : Double :=
  assemble (fun j e ↦ elem e.1 e.2 size <<< (size * j)) x xs

variable (zd0 zd1 zm0 zm1 zd zm : Double)

def qunzip8 : Vector Double 4 :=
  let d0 := pack 8 (zd0, 0) [(zd0, 2), (zd0, 4), (zd0, 6), (zd1, 0), (zd1, 2), (zd1, 4), (zd1, 6)]
  let d1 := pack 8 (zm0, 0) [(zm0, 2), (zm0, 4), (zm0, 6), (zm1, 0), (zm1, 2), (zm1, 4), (zm1, 6)]
  let m0 := pack 8 (zd0, 1) [(zd0, 3), (zd0, 5), (zd0, 7), (zd1, 1), (zd1, 3), (zd1, 5), (zd1, 7)]
  let m1 := pack 8 (zm0, 1) [(zm0, 3), (zm0, 5), (zm0, 7), (zm1, 1), (zm1, 3), (zm1, 5), (zm1, 7)]
  #v[d0, d1, m0, m1]

def qunzip16 : Vector Double 4 :=
  let d0 := pack 16 (zd0, 0) [(zd0, 2), (zd1, 0), (zd1, 2)]
  let d1 := pack 16 (zm0, 0) [(zm0, 2), (zm1, 0), (zm1, 2)]
  let m0 := pack 16 (zd0, 1) [(zd0, 3), (zd1, 1), (zd1, 3)]
  let m1 := pack 16 (zm0, 1) [(zm0, 3), (zm1, 1), (zm1, 3)]
  #v[d0, d1, m0, m1]

def qunzip32 : Vector Double 4 :=
  let d0 := pack 32 (zd0, 0) [(zd1, 0)]
  let d1 := pack 32 (zm0, 0) [(zm1, 0)]
  let m0 := pack 32 (zd0, 1) [(zd1, 1)]
  let m1 := pack 32 (zm0, 1) [(zm1, 1)]
  #v[d0, d1, m0, m1]

def unzip8 : Vector Double 2 :=
  let d0 := pack 8 (zd, 0) [(zd, 2), (zd, 4), (zd, 6), (zm, 0), (zm, 2), (zm, 4), (zm, 6)]
  let m0 := pack 8 (zd, 1) [(zd, 3), (zd, 5), (zd, 7), (zm, 1), (zm, 3), (zm, 5), (zm, 7)]
  #v[d0, m0]

def unzip16 : Vector Double 2 :=
  let d0 := pack 16 (zd, 0) [(zd, 2), (zm, 0), (zm, 2)]
  let m0 := pack 16 (zd, 1) [(zd, 3), (zm, 1), (zm, 3)]
  #v[d0, m0]

def qzip8 : Vector Double 4 :=
  let d0 := pack 8 (zd0, 0) [(zm0, 0), (zd0, 1), (zm0, 1), (zd0, 2), (zm0, 2), (zd0, 3), (zm0, 3)]
  let d1 := pack 8 (zd0, 4) [(zm0, 4), (zd0, 5), (zm0, 5), (zd0, 6), (zm0, 6), (zd0, 7), (zm0, 7)]
  let m0 := pack 8 (zd1, 0) [(zm1, 0), (zd1, 1), (zm1, 1), (zd1, 2), (zm1, 2), (zd1, 3), (zm1, 3)]
  let m1 := pack 8 (zd1, 4) [(zm1, 4), (zd1, 5), (zm1, 5), (zd1, 6), (zm1, 6), (zd1, 7), (zm1, 7)]
  #v[d0, d1, m0, m1]

def qzip16 : Vector Double 4 :=
  let d0 := pack 16 (zd0, 0) [(zm0, 0), (zd0, 1), (zm0, 1)]
  let d1 := pack 16 (zd0, 2) [(zm0, 2), (zd0, 3), (zm0, 3)]
  let m0 := pack 16 (zd1, 0) [(zm1, 0), (zd1, 1), (zm1, 1)]
  let m1 := pack 16 (zd1, 2) [(zm1, 2), (zd1, 3), (zm1, 3)]
  #v[d0, d1, m0, m1]

def qzip32 : Vector Double 4 :=
  let d0 := pack 32 (zd0, 0) [(zm0, 0)]
  let d1 := pack 32 (zd0, 1) [(zm0, 1)]
  let m0 := pack 32 (zd1, 0) [(zm1, 0)]
  let m1 := pack 32 (zd1, 1) [(zm1, 1)]
  #v[d0, d1, m0, m1]

def zip8 : Vector Double 2 :=
  let d0 := pack 8 (zd, 0) [(zm, 0), (zd, 1), (zm, 1), (zd, 2), (zm, 2), (zd, 3), (zm, 3)]
  let m0 := pack 8 (zd, 4) [(zm, 4), (zd, 5), (zm, 5), (zd, 6), (zm, 6), (zd, 7), (zm, 7)]
  #v[d0, m0]

def zip16 : Vector Double 2 :=
  let d0 := pack 16 (zd, 0) [(zm, 0), (zd, 1), (zm, 1)]
  let m0 := pack 16 (zd, 2) [(zm, 2), (zd, 3), (zm, 3)]
  #v[d0, m0]

end Words

section Registers

scoped instance neZeroDoubles : NeZero 32 := ⟨by decide⟩

scoped instance neZeroQuad : NeZero 4 := ⟨by decide⟩

scoped instance neZeroPair : NeZero 2 := ⟨by decide⟩

/-- The helpers on pairs of registers, with the order of their stores. -/
def quad (f : Double → Double → Double → Double → Vector Double 4) (rd rm : Fin 32) (s : Vfp) : Vfp :=
  let z := f (s.regs rd) (s.regs (rd + 1)) (s.regs rm) (s.regs (rm + 1))
  { s with regs := Function.update (Function.update (Function.update (Function.update s.regs rm (z.get 2))
      (rm + 1) (z.get 3)) rd (z.get 0)) (rd + 1) (z.get 1) }

/-- The helpers on single registers. -/
def double (f : Double → Double → Vector Double 2) (rd rm : Fin 32) (s : Vfp) : Vfp :=
  let z := f (s.regs rd) (s.regs rm)
  { s with regs := Function.update (Function.update s.regs rm (z.get 1)) rd (z.get 0) }

def neonQunzip8 : Fin 32 → Fin 32 → Vfp → Vfp := quad qunzip8
def neonQunzip16 : Fin 32 → Fin 32 → Vfp → Vfp := quad qunzip16
def neonQunzip32 : Fin 32 → Fin 32 → Vfp → Vfp := quad qunzip32
def neonUnzip8 : Fin 32 → Fin 32 → Vfp → Vfp := double unzip8
def neonUnzip16 : Fin 32 → Fin 32 → Vfp → Vfp := double unzip16
def neonQzip8 : Fin 32 → Fin 32 → Vfp → Vfp := quad qzip8
def neonQzip16 : Fin 32 → Fin 32 → Vfp → Vfp := quad qzip16
def neonQzip32 : Fin 32 → Fin 32 → Vfp → Vfp := quad qzip32
def neonZip8 : Fin 32 → Fin 32 → Vfp → Vfp := double zip8
def neonZip16 : Fin 32 → Fin 32 → Vfp → Vfp := double zip16

end Registers

section Indices

variable {n h i : Nat}

/-- Where an element of the unzipped words comes from, with `h` elements in each operand. -/
def unzipIndex (h i : Nat) : Nat := if i < h then 2 * i else 2 * (i - h) + 1

/-- Where an element of the zipped words comes from. -/
def zipIndex (h i : Nat) : Nat := i / 2 + i % 2 * h

theorem unzipIndex_lt (hi : i < 2 * h) : unzipIndex h i < 2 * h := by
  unfold unzipIndex
  split_ifs <;> omega

theorem zipIndex_cases (h i : Nat) :
    (i = 2 * (i / 2) ∧ zipIndex h i = i / 2) ∨ (i = 2 * (i / 2) + 1 ∧ zipIndex h i = i / 2 + h) := by
  unfold zipIndex
  rcases Nat.mod_two_eq_zero_or_one i with heven | hodd
  · rw [heven]
    omega
  · rw [hodd]
    omega

theorem zipIndex_lt (hi : i < 2 * h) : zipIndex h i < 2 * h := by
  rcases zipIndex_cases h i with ⟨_, heq⟩ | ⟨_, heq⟩ <;> omega

theorem unzipIndex_zipIndex (hi : i < 2 * h) : unzipIndex h (zipIndex h i) = i := by
  rcases zipIndex_cases h i with ⟨_, heq⟩ | ⟨_, heq⟩
  · rw [heq, unzipIndex, if_pos (by omega)]
    omega
  · rw [heq, unzipIndex, if_neg (by omega)]
    omega

theorem zipIndex_unzipIndex (h i : Nat) : zipIndex h (unzipIndex h i) = i := by
  rcases zipIndex_cases h (unzipIndex h i) with ⟨hval, heq⟩ | ⟨hval, heq⟩ <;> rw [heq] <;>
    unfold unzipIndex at hval ⊢ <;> split_ifs at hval ⊢ <;> omega

end Indices

section Elements

variable {n size k : Nat}

/-- The sizes of the elements. -/
def Size (size : Nat) : Prop := size = 8 ∨ size = 16 ∨ size = 32

theorem elem_eq (h : Size size) (v : Double) (n : Nat) : elem v n size = (lane size n v).setWidth 64 := by
  have hmask : (1#64 <<< size) - 1 = field 64 size 0 := by rcases h with rfl | rfl | rfl <;> decide
  have hlt : size < 64 := by rcases h with rfl | rfl | rfl <;> decide
  apply BitVec.eq_of_getLsbD_eq
  intro i hi
  rw [elem, hmask, BitVec.getLsbD_and, getLsbD_field, BitVec.getLsbD_ushiftRight, BitVec.getLsbD_setWidth, getLsbD_lane,
    Nat.mul_comm n]
  simp only [hi, Nat.mul_zero, Nat.zero_le, Nat.zero_add, decide_true, Bool.true_and]
  rw [Bool.and_comm]

theorem lane_pack (h : Size size) {x : Double × Nat} {xs : List (Double × Nat)} (hk : size * k + size ≤ 64)
    (hlen : k < (x :: xs).length) :
    lane size k (pack size x xs) = lane size ((x :: xs).getD k x).2 ((x :: xs).getD k x).1 := by
  have hfills : Fills (fun j (e : Double × Nat) ↦ elem e.1 e.2 size <<< (size * j)) (fun _ e ↦ lane size e.2 e.1) := by
    intro j k e hn
    dsimp only
    rw [elem_eq h]
    exact fills_shiftLeft j k (lane size e.2 e.1) hn
  refine lane_assemble hfills hk ?_
  rw [List.getD_eq_getElem?_getD, List.getElem?_eq_getElem hlen]
  rfl

/-- An element of words in a row. -/
def element (size : Nat) (z : Vector Double n) (i : Nat) : BitVec size :=
  lane size (i % (64 / size)) (if hi : i / (64 / size) < n then z[i / (64 / size)] else 0)

theorem eq_of_elements (h : Size size) {z z' : Vector Double n}
    (heq : ∀ i < n * (64 / size), element size z i = element size z' i) : z = z' := by
  have hpos : 0 < 64 / size := by rcases h with rfl | rfl | rfl <;> decide
  have hwidth : 64 ≤ size * (64 / size) := by rcases h with rfl | rfl | rfl <;> decide
  ext j hj
  apply congrArg (BitVec.getLsbD · _)
  refine eq_of_lanes hwidth fun k hk ↦ ?_
  have hi : 64 / size * j + k < n * (64 / size) := by
    have hle : 64 / size * (j + 1) ≤ 64 / size * n := Nat.mul_le_mul_left _ hj
    rw [Nat.mul_succ] at hle
    rw [Nat.mul_comm n]
    omega
  have helem := heq _ hi
  unfold element at helem
  have hdiv : (64 / size * j + k) / (64 / size) = j := by
    rw [Nat.mul_add_div hpos, Nat.div_eq_of_lt hk, Nat.add_zero]
  simpa only [Nat.mul_add_mod, Nat.mod_eq_of_lt hk, hdiv, hj, dif_pos] using helem

end Elements

section Permutations

variable (zd0 zd1 zm0 zm1 zd zm : Double)

instance (size : Nat) : Decidable (Size size) := inferInstanceAs (Decidable (size = 8 ∨ size = 16 ∨ size = 32))

theorem qunzip8_element (i : Fin 32) :
    element 8 (qunzip8 zd0 zd1 zm0 zm1) i = element 8 #v[zd0, zd1, zm0, zm1] (unzipIndex 16 i) := by
  fin_cases i <;> exact (lane_pack (by decide) (by decide) (of_decide_eq_true rfl)).trans rfl

theorem qunzip16_element (i : Fin 16) :
    element 16 (qunzip16 zd0 zd1 zm0 zm1) i = element 16 #v[zd0, zd1, zm0, zm1] (unzipIndex 8 i) := by
  fin_cases i <;> exact (lane_pack (by decide) (by decide) (of_decide_eq_true rfl)).trans rfl

theorem qunzip32_element (i : Fin 8) :
    element 32 (qunzip32 zd0 zd1 zm0 zm1) i = element 32 #v[zd0, zd1, zm0, zm1] (unzipIndex 4 i) := by
  fin_cases i <;> exact (lane_pack (by decide) (by decide) (of_decide_eq_true rfl)).trans rfl

theorem qzip8_element (i : Fin 32) :
    element 8 (qzip8 zd0 zd1 zm0 zm1) i = element 8 #v[zd0, zd1, zm0, zm1] (zipIndex 16 i) := by
  fin_cases i <;> exact (lane_pack (by decide) (by decide) (of_decide_eq_true rfl)).trans rfl

theorem qzip16_element (i : Fin 16) :
    element 16 (qzip16 zd0 zd1 zm0 zm1) i = element 16 #v[zd0, zd1, zm0, zm1] (zipIndex 8 i) := by
  fin_cases i <;> exact (lane_pack (by decide) (by decide) (of_decide_eq_true rfl)).trans rfl

theorem qzip32_element (i : Fin 8) :
    element 32 (qzip32 zd0 zd1 zm0 zm1) i = element 32 #v[zd0, zd1, zm0, zm1] (zipIndex 4 i) := by
  fin_cases i <;> exact (lane_pack (by decide) (by decide) (of_decide_eq_true rfl)).trans rfl

theorem unzip8_element (i : Fin 16) :
    element 8 (unzip8 zd zm) i = element 8 #v[zd, zm] (unzipIndex 8 i) := by
  fin_cases i <;> exact (lane_pack (by decide) (by decide) (of_decide_eq_true rfl)).trans rfl

theorem unzip16_element (i : Fin 8) :
    element 16 (unzip16 zd zm) i = element 16 #v[zd, zm] (unzipIndex 4 i) := by
  fin_cases i <;> exact (lane_pack (by decide) (by decide) (of_decide_eq_true rfl)).trans rfl

theorem zip8_element (i : Fin 16) :
    element 8 (zip8 zd zm) i = element 8 #v[zd, zm] (zipIndex 8 i) := by
  fin_cases i <;> exact (lane_pack (by decide) (by decide) (of_decide_eq_true rfl)).trans rfl

theorem zip16_element (i : Fin 8) :
    element 16 (zip16 zd zm) i = element 16 #v[zd, zm] (zipIndex 4 i) := by
  fin_cases i <;> exact (lane_pack (by decide) (by decide) (of_decide_eq_true rfl)).trans rfl

variable {n size h : Nat} {f g : Vector Double n → Vector Double n}

/-- Words whose elements are moved to their places and back are the same. -/
theorem restored (hsize : Size size) (hn : n * (64 / size) = 2 * h) {σ τ : Nat → Nat}
    (hf : ∀ z, ∀ i < 2 * h, element size (f z) i = element size z (σ i))
    (hg : ∀ z, ∀ i < 2 * h, element size (g z) i = element size z (τ i)) (hτ : ∀ i < 2 * h, τ i < 2 * h)
    (hinv : ∀ i < 2 * h, σ (τ i) = i) (z : Vector Double n) : g (f z) = z := by
  refine eq_of_elements hsize fun i hi ↦ ?_
  rw [hn] at hi
  rw [hg _ i hi, hf _ _ (hτ i hi), hinv i hi]

end Permutations

section Files

variable {rd rm r : Fin 32} (s : Vfp)

/-- The words of two pairs of registers. -/
def quadWords (rd rm : Fin 32) (s : Vfp) : Vector Double 4 :=
  #v[s.regs rd, s.regs (rd + 1), s.regs rm, s.regs (rm + 1)]

def doubleWords (rd rm : Fin 32) (s : Vfp) : Vector Double 2 := #v[s.regs rd, s.regs rm]

/-- Pairs that start at different even registers. -/
structure Pairs (rd rm : Fin 32) : Prop where
  distinct : rd ≠ rm
  rdEven : rd.val % 2 = 0
  rmEven : rm.val % 2 = 0

/-- Four registers of which no two are the same. -/
theorem Pairs.apart (h : Pairs rd rm) :
    rd + 1 ≠ rd ∧ rm + 1 ≠ rm ∧ rd ≠ rm + 1 ∧ rd + 1 ≠ rm ∧ rd + 1 ≠ rm + 1 := by
  obtain ⟨hne, hd, hm⟩ := h
  have hval : rd.val ≠ rm.val := fun h ↦ hne (Fin.ext h)
  simp only [ne_eq, Fin.ext_iff, Fin.val_add, Fin.val_one]
  omega

theorem quad_other {f : Double → Double → Double → Double → Vector Double 4} (hd : r ≠ rd) (hd1 : r ≠ rd + 1)
    (hm : r ≠ rm) (hm1 : r ≠ rm + 1) : (quad f rd rm s).regs r = s.regs r := by
  simp only [quad, Function.update_of_ne hd, Function.update_of_ne hd1, Function.update_of_ne hm,
    Function.update_of_ne hm1]

theorem double_other {f : Double → Double → Vector Double 2} (hd : r ≠ rd) (hm : r ≠ rm) :
    (double f rd rm s).regs r = s.regs r := by
  simp only [double, Function.update_of_ne hd, Function.update_of_ne hm]

/-- A helper on four words. -/
def onQuad (f : Double → Double → Double → Double → Vector Double 4) (z : Vector Double 4) : Vector Double 4 :=
  f (z.get 0) (z.get 1) (z.get 2) (z.get 3)

def onDouble (f : Double → Double → Vector Double 2) (z : Vector Double 2) : Vector Double 2 := f (z.get 0) (z.get 1)

theorem quad_words (h : Pairs rd rm) (f : Double → Double → Double → Double → Vector Double 4) :
    quadWords rd rm (quad f rd rm s) = onQuad f (quadWords rd rm s) := by
  obtain ⟨hd, hm, hdm, hd1m, hd1m1⟩ := h.apart
  let z := onQuad f (quadWords rd rm s)
  have hrd : (quad f rd rm s).regs rd = z[0] := by
    simp only [quad, Function.update_of_ne hd.symm, Function.update_self]
    rfl
  have hrd1 : (quad f rd rm s).regs (rd + 1) = z[1] := by
    simp only [quad, Function.update_self]
    rfl
  have hrm : (quad f rd rm s).regs rm = z[2] := by
    simp only [quad, Function.update_of_ne hd1m.symm, Function.update_of_ne h.distinct.symm,
      Function.update_of_ne hm.symm, Function.update_self]
    rfl
  have hrm1 : (quad f rd rm s).regs (rm + 1) = z[3] := by
    simp only [quad, Function.update_of_ne hd1m1.symm, Function.update_of_ne hdm.symm, Function.update_self]
    rfl
  rw [quadWords, hrd, hrd1, hrm, hrm1]
  ext i hi
  apply congrArg (BitVec.getLsbD · _)
  match i with
  | 0 | 1 | 2 | 3 => rfl

theorem double_words (hne : rd ≠ rm) (f : Double → Double → Vector Double 2) :
    doubleWords rd rm (double f rd rm s) = onDouble f (doubleWords rd rm s) := by
  let z := onDouble f (doubleWords rd rm s)
  have hrd : (double f rd rm s).regs rd = z[0] := by
    simp only [double, Function.update_self]
    rfl
  have hrm : (double f rd rm s).regs rm = z[1] := by
    simp only [double, Function.update_of_ne hne.symm, Function.update_self]
    rfl
  rw [doubleWords, hrd, hrm]
  ext i hi
  apply congrArg (BitVec.getLsbD · _)
  match i with
  | 0 | 1 => rfl

/-- The registers are all that the helpers change. -/
theorem eq_of_quadWords (rd rm : Fin 32) {s t : Vfp}
    (hrest : ∀ r, r ≠ rd → r ≠ rd + 1 → r ≠ rm → r ≠ rm + 1 → t.regs r = s.regs r)
    (hwords : quadWords rd rm t = quadWords rd rm s) : t.regs = s.regs := by
  funext r
  by_cases hd : r = rd
  · rw [hd]
    exact congrArg (fun z : Vector Double 4 ↦ z[0]) hwords
  by_cases hd1 : r = rd + 1
  · rw [hd1]
    exact congrArg (fun z : Vector Double 4 ↦ z[1]) hwords
  by_cases hm : r = rm
  · rw [hm]
    exact congrArg (fun z : Vector Double 4 ↦ z[2]) hwords
  by_cases hm1 : r = rm + 1
  · rw [hm1]
    exact congrArg (fun z : Vector Double 4 ↦ z[3]) hwords
  exact hrest r hd hd1 hm hm1

theorem eq_of_doubleWords (rd rm : Fin 32) {s t : Vfp} (hrest : ∀ r, r ≠ rd → r ≠ rm → t.regs r = s.regs r)
    (hwords : doubleWords rd rm t = doubleWords rd rm s) : t.regs = s.regs := by
  funext r
  by_cases hd : r = rd
  · rw [hd]
    exact congrArg (fun z : Vector Double 2 ↦ z[0]) hwords
  by_cases hm : r = rm
  · rw [hm]
    exact congrArg (fun z : Vector Double 2 ↦ z[1]) hwords
  exact hrest r hd hm

theorem quad_restored (h : Pairs rd rm) {f g : Double → Double → Double → Double → Vector Double 4}
    (hfg : ∀ z, onQuad g (onQuad f z) = z) : quad g rd rm (quad f rd rm s) = s := by
  have hregs : (quad g rd rm (quad f rd rm s)).regs = s.regs := by
    refine eq_of_quadWords rd rm (fun r hd hd1 hm hm1 ↦ ?_) ?_
    · rw [quad_other _ hd hd1 hm hm1, quad_other _ hd hd1 hm hm1]
    · rw [quad_words _ h, quad_words _ h, hfg]
  change { s with regs := (quad g rd rm (quad f rd rm s)).regs } = s
  rw [hregs]

theorem double_restored (hne : rd ≠ rm) {f g : Double → Double → Vector Double 2}
    (hfg : ∀ z, onDouble g (onDouble f z) = z) : double g rd rm (double f rd rm s) = s := by
  have hregs : (double g rd rm (double f rd rm s)).regs = s.regs := by
    refine eq_of_doubleWords rd rm (fun r hd hm ↦ ?_) ?_
    · rw [double_other _ hd hm, double_other _ hd hm]
    · rw [double_words _ hne, double_words _ hne, hfg]
  change { s with regs := (double g rd rm (double f rd rm s)).regs } = s
  rw [hregs]

end Files

section Inverse

/-- The pairs of helpers. -/
inductive Form
  | word8
  | word16
  | quad8
  | quad16
  | quad32
deriving DecidableEq

def Form.zip : Form → Fin 32 → Fin 32 → Vfp → Vfp
  | word8 => neonZip8
  | word16 => neonZip16
  | quad8 => neonQzip8
  | quad16 => neonQzip16
  | quad32 => neonQzip32

def Form.unzip : Form → Fin 32 → Fin 32 → Vfp → Vfp
  | word8 => neonUnzip8
  | word16 => neonUnzip16
  | quad8 => neonQunzip8
  | quad16 => neonQunzip16
  | quad32 => neonQunzip32

/-- The registers that a helper is used with. -/
def Form.Operands : Form → Fin 32 → Fin 32 → Prop
  | word8, rd, rm | word16, rd, rm => rd ≠ rm
  | quad8, rd, rm | quad16, rd, rm | quad32, rd, rm => Pairs rd rm

/-- The registers of the operands. -/
def Form.registers : Form → Fin 32 → Fin 32 → List (Fin 32)
  | word8, rd, rm | word16, rd, rm => [rd, rm]
  | quad8, rd, rm | quad16, rd, rm | quad32, rd, rm => [rd, rd + 1, rm, rm + 1]

/-- A vector is made of its words. -/
theorem quad_eta (z : Vector Double 4) : #v[z.get 0, z.get 1, z.get 2, z.get 3] = z := by
  ext i hi
  apply congrArg (BitVec.getLsbD · _)
  match i with
  | 0 | 1 | 2 | 3 => rfl

theorem double_eta (z : Vector Double 2) : #v[z.get 0, z.get 1] = z := by
  ext i hi
  apply congrArg (BitVec.getLsbD · _)
  match i with
  | 0 | 1 => rfl

section Orders

variable {size h : Nat}

theorem quads_inverse (hsize : Size size) (hn : 4 * (64 / size) = 2 * h)
    {unzip zip : Double → Double → Double → Double → Vector Double 4}
    (hunzip : ∀ z0 z1 z2 z3, ∀ i < 2 * h,
      element size (unzip z0 z1 z2 z3) i = element size #v[z0, z1, z2, z3] (unzipIndex h i))
    (hzip : ∀ z0 z1 z2 z3, ∀ i < 2 * h,
      element size (zip z0 z1 z2 z3) i = element size #v[z0, z1, z2, z3] (zipIndex h i)) (z : Vector Double 4) :
    onQuad unzip (onQuad zip z) = z ∧ onQuad zip (onQuad unzip z) = z := by
  have hu (z : Vector Double 4) : ∀ i < 2 * h, element size (onQuad unzip z) i = element size z (unzipIndex h i) := by
    intro i hi
    rw [onQuad, hunzip _ _ _ _ i hi, quad_eta]
  have hz (z : Vector Double 4) : ∀ i < 2 * h, element size (onQuad zip z) i = element size z (zipIndex h i) := by
    intro i hi
    rw [onQuad, hzip _ _ _ _ i hi, quad_eta]
  exact ⟨restored hsize hn hz hu (fun i ↦ unzipIndex_lt) (fun i _ ↦ zipIndex_unzipIndex h i) z,
    restored hsize hn hu hz (fun i ↦ zipIndex_lt) (fun i ↦ unzipIndex_zipIndex) z⟩

theorem doubles_inverse (hsize : Size size) (hn : 2 * (64 / size) = 2 * h)
    {unzip zip : Double → Double → Vector Double 2}
    (hunzip : ∀ z0 z1, ∀ i < 2 * h, element size (unzip z0 z1) i = element size #v[z0, z1] (unzipIndex h i))
    (hzip : ∀ z0 z1, ∀ i < 2 * h, element size (zip z0 z1) i = element size #v[z0, z1] (zipIndex h i))
    (z : Vector Double 2) :
    onDouble unzip (onDouble zip z) = z ∧ onDouble zip (onDouble unzip z) = z := by
  have hu (z : Vector Double 2) : ∀ i < 2 * h, element size (onDouble unzip z) i = element size z (unzipIndex h i) := by
    intro i hi
    rw [onDouble, hunzip _ _ i hi, double_eta]
  have hz (z : Vector Double 2) : ∀ i < 2 * h, element size (onDouble zip z) i = element size z (zipIndex h i) := by
    intro i hi
    rw [onDouble, hzip _ _ i hi, double_eta]
  exact ⟨restored hsize hn hz hu (fun i ↦ unzipIndex_lt) (fun i _ ↦ zipIndex_unzipIndex h i) z,
    restored hsize hn hu hz (fun i ↦ zipIndex_lt) (fun i ↦ unzipIndex_zipIndex) z⟩

end Orders

theorem zip8_inverse : ∀ z, onDouble unzip8 (onDouble zip8 z) = z ∧ onDouble zip8 (onDouble unzip8 z) = z :=
  doubles_inverse (by decide) rfl (fun zd zm i hi ↦ unzip8_element zd zm ⟨i, hi⟩)
    fun zd zm i hi ↦ zip8_element zd zm ⟨i, hi⟩

theorem zip16_inverse : ∀ z, onDouble unzip16 (onDouble zip16 z) = z ∧ onDouble zip16 (onDouble unzip16 z) = z :=
  doubles_inverse (by decide) rfl (fun zd zm i hi ↦ unzip16_element zd zm ⟨i, hi⟩)
    fun zd zm i hi ↦ zip16_element zd zm ⟨i, hi⟩

theorem qzip8_inverse : ∀ z, onQuad qunzip8 (onQuad qzip8 z) = z ∧ onQuad qzip8 (onQuad qunzip8 z) = z :=
  quads_inverse (by decide) rfl (fun zd0 zd1 zm0 zm1 i hi ↦ qunzip8_element zd0 zd1 zm0 zm1 ⟨i, hi⟩)
    fun zd0 zd1 zm0 zm1 i hi ↦ qzip8_element zd0 zd1 zm0 zm1 ⟨i, hi⟩

theorem qzip16_inverse : ∀ z, onQuad qunzip16 (onQuad qzip16 z) = z ∧ onQuad qzip16 (onQuad qunzip16 z) = z :=
  quads_inverse (by decide) rfl (fun zd0 zd1 zm0 zm1 i hi ↦ qunzip16_element zd0 zd1 zm0 zm1 ⟨i, hi⟩)
    fun zd0 zd1 zm0 zm1 i hi ↦ qzip16_element zd0 zd1 zm0 zm1 ⟨i, hi⟩

theorem qzip32_inverse : ∀ z, onQuad qunzip32 (onQuad qzip32 z) = z ∧ onQuad qzip32 (onQuad qunzip32 z) = z :=
  quads_inverse (by decide) rfl (fun zd0 zd1 zm0 zm1 i hi ↦ qunzip32_element zd0 zd1 zm0 zm1 ⟨i, hi⟩)
    fun zd0 zd1 zm0 zm1 i hi ↦ qzip32_element zd0 zd1 zm0 zm1 ⟨i, hi⟩

theorem double_outside (f : Double → Double → Vector Double 2) {rd rm r : Fin 32} (s : Vfp) (h : r ∉ [rd, rm]) :
    (double f rd rm s).regs r = s.regs r := by
  simp only [List.mem_cons, List.not_mem_nil, or_false, not_or] at h
  exact double_other s h.1 h.2

theorem quad_outside (f : Double → Double → Double → Double → Vector Double 4) {rd rm r : Fin 32} (s : Vfp)
    (h : r ∉ [rd, rd + 1, rm, rm + 1]) : (quad f rd rm s).regs r = s.regs r := by
  simp only [List.mem_cons, List.not_mem_nil, or_false, not_or] at h
  exact quad_other s h.1 h.2.1 h.2.2.1 h.2.2.2

/-- Zipping and unzipping undo each other, and only the operands change. -/
theorem zip_unzip_inverse (f : Form) {rd rm : Fin 32} (h : f.Operands rd rm) (s : Vfp) :
    f.unzip rd rm (f.zip rd rm s) = s ∧ f.zip rd rm (f.unzip rd rm s) = s ∧
      ∀ r ∉ f.registers rd rm, (f.zip rd rm s).regs r = s.regs r ∧ (f.unzip rd rm s).regs r = s.regs r := by
  cases f with
  | word8 => exact ⟨double_restored s h fun z ↦ (zip8_inverse z).1, double_restored s h fun z ↦ (zip8_inverse z).2,
      fun r hr ↦ ⟨double_outside zip8 s hr, double_outside unzip8 s hr⟩⟩
  | word16 => exact ⟨double_restored s h fun z ↦ (zip16_inverse z).1, double_restored s h fun z ↦ (zip16_inverse z).2,
      fun r hr ↦ ⟨double_outside zip16 s hr, double_outside unzip16 s hr⟩⟩
  | quad8 => exact ⟨quad_restored s h fun z ↦ (qzip8_inverse z).1, quad_restored s h fun z ↦ (qzip8_inverse z).2,
      fun r hr ↦ ⟨quad_outside qzip8 s hr, quad_outside qunzip8 s hr⟩⟩
  | quad16 => exact ⟨quad_restored s h fun z ↦ (qzip16_inverse z).1, quad_restored s h fun z ↦ (qzip16_inverse z).2,
      fun r hr ↦ ⟨quad_outside qzip16 s hr, quad_outside qunzip16 s hr⟩⟩
  | quad32 => exact ⟨quad_restored s h fun z ↦ (qzip32_inverse z).1, quad_restored s h fun z ↦ (qzip32_inverse z).2,
      fun r hr ↦ ⟨quad_outside qzip32 s hr, quad_outside qunzip32 s hr⟩⟩

theorem zip_unzip_inverse_quad8 :
    Pairs 4 2 ∧ Form.quad8.unzip 4 2 (Form.quad8.zip 4 2 { regs := fun r ↦ .ofNat 64 (r.val * 0x0102030405060708) }) =
      { regs := fun r ↦ .ofNat 64 (r.val * 0x0102030405060708) } :=
  have h : Pairs 4 2 := ⟨by decide, rfl, rfl⟩
  ⟨h, (zip_unzip_inverse .quad8 h _).1⟩

end Inverse

end IDeviceEmulator.Arm.Zip
