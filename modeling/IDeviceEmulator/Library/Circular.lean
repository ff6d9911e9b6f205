import Mathlib.Tactic.Common
import Mathlib.Data.Nat.ModEq
import Mathlib.Logic.Function.Basic

/-- A circular buffer of `n` cells. One cell stays free, so that equal positions mean empty. -/
structure Circular (α : Type*) (n : Nat) where
  data : Fin n → α
  s : Fin n
  t : Fin n

namespace Circular

variable {α : Type*} {n : Nat}

def next (i : Fin n) : Fin n := ⟨(i.val + 1) % n, Nat.mod_lt _ i.pos⟩

def count (r : Circular α n) : Nat :=
  if r.s.val ≤ r.t.val then r.t.val - r.s.val else n - r.s.val + r.t.val

def push (r : Circular α n) (x : α) : Circular α n :=
  { r with data := Function.update r.data r.t x, t := next r.t }

def get (r : Circular α n) : Circular α n × α := ({ r with s := next r.s }, r.data r.s)

def clear (r : Circular α n) : Circular α n := { r with s := ⟨0, r.s.pos⟩, t := ⟨0, r.s.pos⟩ }

/-- The cell that stands `i` places behind the first one in use. -/
def cell (r : Circular α n) (i : Nat) : Fin n := ⟨(r.s.val + i) % n, Nat.mod_lt _ r.s.pos⟩

/-- The elements in the order in which they leave the buffer. -/
def contents (r : Circular α n) : List α := (List.range r.count).map fun i ↦ r.data (r.cell i)

section Positions

variable (r : Circular α n)

theorem count_lt : r.count < n := by
  have hs := r.s.isLt
  have ht := r.t.isLt
  unfold count
  split_ifs <;> omega

theorem val_next (i : Fin n) : (next i).val = if i.val + 1 = n then 0 else i.val + 1 := by
  have hi := i.isLt
  change (i.val + 1) % n = _
  split_ifs with hlast
  · rw [hlast, Nat.mod_self]
  · exact Nat.mod_eq_of_lt (by omega)

theorem cell_count : r.cell r.count = r.t := by
  have hs := r.s.isLt
  have ht := r.t.isLt
  apply Fin.ext
  change (r.s.val + r.count) % n = r.t.val
  unfold count
  split_ifs with hle
  · rw [Nat.add_sub_cancel' hle, Nat.mod_eq_of_lt ht]
  · rw [show r.s.val + (n - r.s.val + r.t.val) = r.t.val + n by omega, Nat.add_mod_right, Nat.mod_eq_of_lt ht]

theorem cell_injective {i j : Nat} (hi : i < n) (hj : j < n) (h : r.cell i = r.cell j) : i = j := by
  have hmod : (r.s.val + i) % n = (r.s.val + j) % n := congrArg Fin.val h
  have hcancel : i % n = j % n := Nat.ModEq.add_left_cancel' r.s.val hmod
  rwa [Nat.mod_eq_of_lt hi, Nat.mod_eq_of_lt hj] at hcancel

end Positions

@[simp]
theorem length_contents (r : Circular α n) : r.contents.length = r.count := by simp [contents]

@[simp]
theorem contents_clear (r : Circular α n) : r.clear.contents = [] := by simp [contents, clear, count]

@[simp]
theorem count_clear (r : Circular α n) : r.clear.count = 0 := by simp [clear, count]

section Push

variable {r : Circular α n} (x : α)

theorem count_push (h : r.count + 1 < n) : (r.push x).count = r.count + 1 := by
  have hs := r.s.isLt
  have ht := r.t.isLt
  have hnext := val_next r.t
  unfold count at h ⊢
  change (if r.s.val ≤ (next r.t).val then (next r.t).val - r.s.val else n - r.s.val + (next r.t).val) = _
  rw [hnext]
  split_ifs at h ⊢ <;> omega

theorem contents_push (h : r.count + 1 < n) : (r.push x).contents = r.contents ++ [x] := by
  have hold (i : Nat) (hi : i ∈ List.range r.count) : (r.push x).data (r.cell i) = r.data (r.cell i) := by
    have hlt := List.mem_range.mp hi
    have hne : r.cell i ≠ r.t := by
      intro he
      have hcell : r.cell i = r.cell r.count := he.trans r.cell_count.symm
      have := r.cell_injective (by omega) r.count_lt hcell
      omega
    exact Function.update_of_ne hne x r.data
  have hnew : (r.push x).data (r.cell r.count) = x := by
    rw [r.cell_count]
    exact Function.update_self r.t x r.data
  change (List.range (r.push x).count).map (fun i ↦ (r.push x).data (r.cell i)) = _
  rw [count_push x h, List.range_succ, List.map_append, List.map_singleton, hnew]
  exact congrArg (· ++ [x]) (List.map_congr_left hold)

end Push

section Get

variable {r : Circular α n}

theorem count_get (h : r.count ≠ 0) : r.get.1.count = r.count - 1 := by
  have hs := r.s.isLt
  have ht := r.t.isLt
  have hnext := val_next r.s
  unfold count at h ⊢
  change (if (next r.s).val ≤ r.t.val then r.t.val - (next r.s).val else n - (next r.s).val + r.t.val) = _
  rw [hnext]
  split_ifs at h ⊢ <;> omega

theorem contents_get (h : r.count ≠ 0) : r.contents = r.get.2 :: r.get.1.contents := by
  have hs := r.s.isLt
  have hfirst : r.cell 0 = r.s := Fin.ext (Nat.mod_eq_of_lt hs)
  have hcell (i : Nat) : r.cell (i + 1) = r.get.1.cell i := by
    apply Fin.ext
    change (r.s.val + (i + 1)) % n = ((r.s.val + 1) % n + i) % n
    rw [Nat.mod_add_mod, Nat.add_assoc, Nat.add_comm 1 i]
  have hcount : r.count = r.count - 1 + 1 := by omega
  unfold contents
  rw [count_get h, hcount, List.range_succ_eq_map, List.map_cons, List.map_map, hfirst, Nat.add_sub_cancel]
  refine congrArg (r.data r.s :: ·) (List.map_congr_left fun i _ ↦ ?_)
  exact congrArg r.data (hcell i)

end Get

end Circular
