import Mathlib.Algebra.BigOperators.Group.List.Basic
import Mathlib.Algebra.Order.BigOperators.Group.List
import Mathlib.Algebra.Order.Ring.Nat
import Mathlib.Tactic.Common

namespace Sums

variable {α : Type*}

/-- Two lists that differ in one place have sums that differ by that place. -/
theorem sum_add_of_agree {a b : List Nat} (hlen : a.length = b.length) {i : Nat} (hi : i < a.length)
    (h : ∀ j, j ≠ i → a[j]? = b[j]?) : a.sum + b.getD i 0 = b.sum + a.getD i 0 := by
  induction a generalizing b i with
  | nil => simp at hi
  | cons x a ih =>
    cases b with
    | nil => simp at hlen
    | cons y b =>
      cases i with
      | zero =>
        have hab : a = b := by
          apply List.ext_getElem?
          intro j
          simpa using h (j + 1) (by omega)
        subst hab
        simp only [List.sum_cons, List.getD_cons_zero]
        omega
      | succ i =>
        have hxy : x = y := by simpa using h 0 (by omega)
        have hrest := ih (b := b) (i := i) (by simpa using hlen) (by simpa using hi) fun j hj ↦ by
          simpa using h (j + 1) (by omega)
        simp only [List.sum_cons, List.getD_cons_succ]
        omega

theorem sum_map_add_of_agree {l : List α} (f f' : α → Nat) {i : Nat} {a : α} (hi : l[i]? = some a)
    (h : ∀ j b, j ≠ i → l[j]? = some b → f' b = f b) : (l.map f').sum + f a = (l.map f).sum + f' a := by
  obtain ⟨hlt, ha⟩ := List.getElem?_eq_some_iff.mp hi
  have hsum := sum_add_of_agree (a := l.map f') (b := l.map f) (i := i) (by simp) (by simpa using hlt) fun j hj ↦ by
    rw [List.getElem?_map, List.getElem?_map]
    cases hb : l[j]? with
    | none => rfl
    | some b => simp [h j b hj hb]
  simpa [List.getD_eq_getElem?_getD, hi] using hsum

theorem sum_map_set {l : List α} (f : α → Nat) {i : Nat} {a : α} (hi : l[i]? = some a) (b : α) :
    ((l.set i b).map f).sum + f a = (l.map f).sum + f b := by
  obtain ⟨hlt, ha⟩ := List.getElem?_eq_some_iff.mp hi
  have hsum := sum_add_of_agree (a := (l.set i b).map f) (b := l.map f) (i := i) (by simp) (by simpa using hlt)
    fun j hj ↦ by simp [List.getElem?_map, List.getElem?_set_ne (Ne.symm hj)]
  rw [List.getD_eq_getElem?_getD, List.getD_eq_getElem?_getD, List.getElem?_map, List.getElem?_map, hi,
    List.getElem?_set_self hlt] at hsum
  exact hsum

theorem le_sum_map {l : List α} (f : α → Nat) {a : α} (ha : a ∈ l) : f a ≤ (l.map f).sum :=
  List.single_le_sum (by simp) _ (List.mem_map_of_mem ha)

/-- Two places of a list add to its sum. -/
theorem add_le_sum_map {l : List α} (f : α → Nat) {i j : Nat} {a b : α} (hij : j ≠ i) (hi : l[i]? = some a)
    (hj : l[j]? = some b) : f a + f b ≤ (l.map f).sum := by
  have hlt : i < (l.map f).length := by simpa using (List.getElem?_eq_some_iff.mp hi).1
  have hsum := sum_add_of_agree (a := (l.map f).set i 0) (b := l.map f) (i := i) (by simp) (by simpa using hlt)
    fun k hk ↦ List.getElem?_set_ne (Ne.symm hk)
  have hmem : f b ∈ (l.map f).set i 0 := by
    refine List.mem_of_getElem? (i := j) ?_
    rw [List.getElem?_set_ne (Ne.symm hij), List.getElem?_map, hj]
    rfl
  have hle := List.single_le_sum (by simp) _ hmem
  rw [List.getD_eq_getElem?_getD, List.getD_eq_getElem?_getD, List.getElem?_map, hi, List.getElem?_set_self hlt] at hsum
  simp only [Option.map_some, Option.getD_some] at hsum
  omega

end Sums
