import Mathlib.Algebra.GroupWithZero.Nat
import Mathlib.Tactic.Common

namespace Bytes

abbrev Byte := BitVec 8

abbrev Reader (α : Type) := StateM (List Byte) α

/-- At the end of the stream the read byte is zero. -/
def getByte : Reader Byte
  | [] => (0, [])
  | b :: bs => (b, bs)

def putBe : Nat → Nat → List Byte
  | 0, _ => []
  | n + 1, x => BitVec.ofNat 8 (x / 256 ^ n) :: putBe n x

def getBe : Nat → Reader Nat
  | 0 => pure 0
  | n + 1 => do
    let b ← getByte
    let x ← getBe n
    return b.toNat * 256 ^ n + x

def getPair {α β : Type} (r : Reader α) (q : Reader β) : Reader (α × β) := do
  let a ← r
  let b ← q
  return (a, b)

def getVector {α : Type} (r : Reader α) : (n : Nat) → Reader (Vector α n)
  | 0 => pure #v[]
  | n + 1 => do
    let v ← getVector r n
    let a ← r
    return v.push a

/-- An array that is indexed by a function. -/
def getFn {α : Type} (r : Reader α) (n : Nat) : Reader (Fin n → α) := Vector.get <$> getVector r n

def putWord {w : Nat} (n : Nat) (x : BitVec w) : List Byte := putBe n x.toNat

def getWord (n w : Nat) : Reader (BitVec w) := BitVec.ofNat w <$> getBe n

def Reads {α : Type} (r : Reader α) (bs : List Byte) (a : α) : Prop := ∀ rest, r (bs ++ rest) = (a, rest)

section Reads

variable {α β : Type}

theorem Reads.pure (a : α) : Reads (Pure.pure a) [] a := fun _ ↦ rfl

theorem Reads.bind {r : Reader α} {f : α → Reader β} {bs cs : List Byte} {a : α} {b : β}
    (hr : Reads r bs a) (hf : Reads (f a) cs b) : Reads (r >>= f) (bs ++ cs) b := by
  intro rest
  rw [List.append_assoc]
  change f (r (bs ++ (cs ++ rest))).1 (r (bs ++ (cs ++ rest))).2 = (b, rest)
  rw [hr]
  exact hf rest

theorem Reads.map {r : Reader α} {bs : List Byte} {a : α} (f : α → β) (hr : Reads r bs a) :
    Reads (f <$> r) bs (f a) := by
  intro rest
  change (f (r (bs ++ rest)).1, (r (bs ++ rest)).2) = (f a, rest)
  rw [hr]

theorem reads_getByte (b : Byte) : Reads getByte [b] b := fun _ ↦ rfl

theorem reads_getBe (n x : Nat) : Reads (getBe n) (putBe n x) (x % 256 ^ n) := by
  induction n with
  | zero =>
    rw [Nat.pow_zero, Nat.mod_one]
    exact .pure 0
  | succ n ih =>
    have hx : (BitVec.ofNat 8 (x / 256 ^ n)).toNat * 256 ^ n + x % 256 ^ n = x % 256 ^ (n + 1) := by
      rw [BitVec.toNat_ofNat, Nat.mod_pow_succ (b := 256), Nat.mul_comm, Nat.add_comm]
    have hbytes : putBe (n + 1) x = [BitVec.ofNat 8 (x / 256 ^ n)] ++ (putBe n x ++ []) := by
      rw [List.append_nil]
      rfl
    rw [← hx, hbytes]
    exact (reads_getByte _).bind (ih.bind (.pure _))

theorem Reads.pair {r : Reader α} {q : Reader β} {bs cs : List Byte} {a : α} {b : β}
    (hr : Reads r bs a) (hq : Reads q cs b) : Reads (getPair r q) (bs ++ cs) (a, b) := by
  rw [← List.append_nil cs]
  exact hr.bind (hq.bind (.pure _))

theorem reads_getVector {r : Reader α} {put : α → List Byte} (h : ∀ a, Reads r (put a) a) {n : Nat}
    (v : Vector α n) : Reads (getVector r n) (v.toList.flatMap put) v := by
  induction n with
  | zero =>
    have hv : v = #v[] := Vector.eq_empty
    subst hv
    exact .pure _
  | succ n ih =>
    obtain ⟨u, a, rfl⟩ := v.exists_push
    rw [Vector.toList_push, List.flatMap_append, List.flatMap_singleton, ← List.append_nil (put a)]
    exact (ih u).bind ((h a).bind (.pure _))

theorem reads_getFn {r : Reader α} {put : α → List Byte} (h : ∀ a, Reads r (put a) a) {n : Nat} (f : Fin n → α) :
    Reads (getFn r n) ((Vector.ofFn f).toList.flatMap put) f := by
  have hget : Vector.get (Vector.ofFn f) = f := by
    funext i
    change (Vector.ofFn f)[i.val] = f i
    rw [Vector.getElem_ofFn]
  have hread := (reads_getVector h (Vector.ofFn f)).map Vector.get
  rw [hget] at hread
  exact hread

theorem reads_getWord {n w : Nat} (h : w ≤ 8 * n) (x : BitVec w) : Reads (getWord n w) (putWord n x) x := by
  have hx : x.toNat % 256 ^ n = x.toNat := by
    refine Nat.mod_eq_of_lt (Nat.lt_of_lt_of_le x.isLt ?_)
    rw [show 256 = 2 ^ 8 by decide, ← Nat.pow_mul]
    exact Nat.pow_le_pow_right (by decide) h
  have hread := (reads_getBe n x.toNat).map (BitVec.ofNat w)
  rw [hx, BitVec.ofNat_toNat, BitVec.setWidth_eq] at hread
  exact hread

end Reads

section Overwrite

variable {α : Type}

def overwrite (memory : List α) (offset : Nat) (bytes : List α) : List α :=
  memory.take offset ++ bytes ++ memory.drop (offset + bytes.length)

variable {memory bytes : List α} {offset : Nat}

theorem length_overwrite (h : offset + bytes.length ≤ memory.length) :
    (overwrite memory offset bytes).length = memory.length := by
  simp only [overwrite, List.length_append, List.length_take, List.length_drop]
  omega

theorem take_overwrite (h : offset ≤ memory.length) :
    (overwrite memory offset bytes).take (offset + bytes.length) = memory.take offset ++ bytes := by
  have hlength : (memory.take offset ++ bytes).length = offset + bytes.length := by
    rw [List.length_append, List.length_take, Nat.min_eq_left h]
  rw [overwrite, ← hlength, List.take_left]

/-- Bytes that lie in a prefix are overwritten there. -/
theorem take_overwrite_of_le {n : Nat} (h : offset + bytes.length ≤ n) (hn : n ≤ memory.length) :
    (overwrite memory offset bytes).take n = overwrite (memory.take n) offset bytes := by
  have hstart : (memory.take offset ++ bytes).length = offset + bytes.length := by
    rw [List.length_append, List.length_take, Nat.min_eq_left (by omega)]
  unfold overwrite
  rw [List.take_append, List.take_of_length_le (hstart ▸ h), hstart, List.take_take, Nat.min_eq_left (by omega),
    List.drop_take]

theorem overwrite_append {first second : List α} (h : offset = first.length) :
    overwrite (first ++ second) offset bytes = first ++ (bytes ++ second.drop bytes.length) := by
  subst h
  rw [overwrite, List.take_left, List.drop_length_add_append, List.append_assoc]

end Overwrite

end Bytes
