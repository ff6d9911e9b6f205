import Mathlib.Data.List.Nodup
import Mathlib.Data.List.Perm.Subperm
import Mathlib.Logic.Equiv.Basic
import Mathlib.Tactic.Common

/-- Blocks are combined element by element. -/
instance Vector.instXorOp {α : Type*} [XorOp α] {w : Nat} : XorOp (Vector α w) := ⟨Vector.zipWith (· ^^^ ·)⟩

namespace Cbc

section Chaining

variable {β : Type*} [XorOp β]

def encrypt (E : β → β) : β → List β → List β
  | _, [] => []
  | iv, p :: ps => E (p ^^^ iv) :: encrypt E (E (p ^^^ iv)) ps

def decrypt (D : β → β) : β → List β → List β
  | _, [] => []
  | iv, c :: cs => (D c ^^^ iv) :: decrypt D c cs

theorem length_encrypt (E : β → β) (iv : β) (ps : List β) : (encrypt E iv ps).length = ps.length := by
  induction ps generalizing iv with
  | nil => rfl
  | cons p ps ih => simp only [encrypt, List.length_cons, ih]

theorem length_decrypt (D : β → β) (iv : β) (cs : List β) : (decrypt D iv cs).length = cs.length := by
  induction cs generalizing iv with
  | nil => rfl
  | cons c cs ih => simp only [decrypt, List.length_cons, ih]

end Chaining

section Blocks

variable {α : Type*} {w : Nat}

/-- The first `w` elements as a block. -/
def block (w : Nat) (zero : α) (data : List α) : Vector α w := Vector.ofFn fun i ↦ data.getD i zero

def split (w : Nat) (zero : α) : Nat → List α → List (Vector α w)
  | 0, _ => []
  | n + 1, data => block w zero data :: split w zero n (data.drop w)

def join (blocks : List (Vector α w)) : List α := blocks.flatMap Vector.toList

theorem length_split (zero : α) (n : Nat) (data : List α) : (split w zero n data).length = n := by
  induction n generalizing data with
  | zero => rfl
  | succ n ih => simp only [split, List.length_cons, ih]

theorem length_join (blocks : List (Vector α w)) : (join blocks).length = blocks.length * w := by
  induction blocks with
  | nil => simp [join]
  | cons b bs ih =>
    rw [join] at ih
    rw [join, List.flatMap_cons, List.length_append, ih, Vector.length_toList, List.length_cons, Nat.add_mul]
    omega

/-- A list cut into pieces of one width is known from their concatenation. -/
theorem flatMap_injective {β : Type*} {g : β → List α} (hwidth : ∀ x y, (g x).length = (g y).length)
    (hg : Function.Injective g) {xs ys : List β} (hlength : xs.length = ys.length)
    (h : xs.flatMap g = ys.flatMap g) : xs = ys := by
  induction xs generalizing ys with
  | nil => exact (List.eq_nil_of_length_eq_zero hlength.symm).symm
  | cons x xs ih =>
    cases ys with
    | nil => cases hlength
    | cons y ys =>
      obtain ⟨hhead, htail⟩ := List.append_inj h (hwidth x y)
      rw [hg hhead, ih (Nat.succ.inj hlength) htail]

theorem join_injective {bs cs : List (Vector α w)} (hlength : bs.length = cs.length) (h : join bs = join cs) :
    bs = cs :=
  flatMap_injective (fun x y ↦ by rw [Vector.length_toList, Vector.length_toList])
    (fun _ _ ↦ Vector.toList_inj.mp) hlength h

section Heads

variable [XorOp α] {v v' x : Vector α w} {rest : List (Vector α w)}

theorem decrypt_head {D D' : Vector α w → Vector α w}
    (h : join (decrypt D v (x :: rest)) = join (decrypt D' v' (x :: rest))) : D x ^^^ v = D' x ^^^ v' := by
  have hblocks := join_injective (by rw [length_decrypt, length_decrypt]) h
  exact (List.cons.inj hblocks).1

theorem encrypt_head {E E' : Vector α w → Vector α w}
    (h : join (encrypt E v (x :: rest)) = join (encrypt E' v' (x :: rest))) : E (x ^^^ v) = E' (x ^^^ v') := by
  have hblocks := join_injective (by rw [length_encrypt, length_encrypt]) h
  exact (List.cons.inj hblocks).1

theorem decrypt_encrypt_head {D E : Vector α w → Vector α w}
    (h : join (decrypt D v (x :: rest)) = join (encrypt E v' (x :: rest))) : D x ^^^ v = E (x ^^^ v') := by
  have hblocks := join_injective (by rw [length_decrypt, length_encrypt]) h
  exact (List.cons.inj hblocks).1

end Heads

end Blocks

section Words

variable {n w : Nat}

theorem getElem_xor (x v : Vector (BitVec n) w) {i : Nat} (hi : i < w) : (x ^^^ v)[i] = x[i] ^^^ v[i] :=
  Vector.getElem_zipWith hi

theorem xor_left_cancel {x a b : Vector (BitVec n) w} (h : x ^^^ a = x ^^^ b) : a = b := by
  ext1 i hi
  have hi' := congrArg (fun v : Vector (BitVec n) w ↦ v[i]) h
  simp only [getElem_xor] at hi'
  exact BitVec.xor_right_inj x[i] |>.mp hi'

theorem xor_right_cancel {x a b : Vector (BitVec n) w} (h : a ^^^ x = b ^^^ x) : a = b := by
  ext1 i hi
  have hi' := congrArg (fun v : Vector (BitVec n) w ↦ v[i]) h
  simp only [getElem_xor] at hi'
  exact BitVec.xor_left_inj x[i] |>.mp hi'

theorem xor_xor_cancel (x v : Vector (BitVec n) w) : x ^^^ v ^^^ v = x := by
  ext1 i hi
  rw [getElem_xor, getElem_xor, BitVec.xor_assoc, BitVec.xor_self, BitVec.xor_zero]

/-- Adds one to every element. -/
def bump (n w : Nat) : Equiv.Perm (Vector (BitVec n) w) where
  toFun x := x.map (· + 1)
  invFun x := x.map (· - 1)
  left_inv x := by
    ext1 i hi
    rw [Vector.getElem_map, Vector.getElem_map, BitVec.add_sub_cancel]
  right_inv x := by
    ext1 i hi
    rw [Vector.getElem_map, Vector.getElem_map, BitVec.sub_add_cancel]

theorem getElem_bump (x : Vector (BitVec n) w) {i : Nat} (hi : i < w) : (bump n w x)[i] = x[i] + 1 :=
  Vector.getElem_map _ hi

theorem getElem_bump_symm (x : Vector (BitVec n) w) {i : Nat} (hi : i < w) : ((bump n w).symm x)[i] = x[i] - 1 :=
  Vector.getElem_map _ hi

theorem bump_symm_ne (hn : 0 < n) (hw : 0 < w) (x : Vector (BitVec n) w) : (bump n w).symm x ≠ x := by
  intro h
  have hhead := getElem_bump_symm x hw
  rw [h] at hhead
  have hone : BitVec.ofNat n 1 = 0 := by grind
  have hpow : 2 ≤ 2 ^ n := Nat.pow_le_pow_right (n := 2) (by decide) hn
  have hnat := congrArg BitVec.toNat hone
  rw [BitVec.toNat_ofNat, Nat.mod_eq_of_lt (by omega)] at hnat
  simp at hnat

/-- One permutation tells the encryption of every block from its decryption. -/
theorem exists_perm_ne (hn : 2 ≤ n) (hw : 0 < w) (v : Vector (BitVec n) w) :
    ∃ σ : Equiv.Perm (Vector (BitVec n) w), ∀ x, σ (x ^^^ v) ≠ σ.symm x ^^^ v := by
  let τ : Equiv.Perm (Vector (BitVec n) w) := ⟨(· ^^^ v), (· ^^^ v), (xor_xor_cancel · v), (xor_xor_cancel · v)⟩
  refine ⟨τ.trans (bump n w), fun x h ↦ ?_⟩
  have hforth : (τ.trans (bump n w)) (x ^^^ v) = bump n w x := congrArg (bump n w) (xor_xor_cancel x v)
  have hback : (τ.trans (bump n w)).symm x ^^^ v = (bump n w).symm x := xor_xor_cancel _ v
  rw [hforth, hback] at h
  have hhead := congrArg (fun y : Vector (BitVec n) w ↦ y[0]) h
  simp only [getElem_bump, getElem_bump_symm] at hhead
  have htwo : BitVec.ofNat n 2 = 0 := by grind
  have hpow : 4 ≤ 2 ^ n := Nat.pow_le_pow_right (n := 2) (by decide) hn
  have hnat := congrArg BitVec.toNat htwo
  rw [BitVec.toNat_ofNat, Nat.mod_eq_of_lt (by omega)] at hnat
  simp at hnat

end Words

end Cbc
