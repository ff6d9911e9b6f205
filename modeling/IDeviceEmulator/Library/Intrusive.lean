import Mathlib.Data.List.Nodup
import Mathlib.Data.Set.Insert
import Mathlib.Logic.Function.Basic
import Mathlib.Tactic.Common
import IDeviceEmulator.Library.Loop

namespace Intrusive

/-- How lists are threaded through the cells of a store. The list `i` starts in the cell `head i`, a
cell leads to the node `x` when it holds `ptr x`, goes on in `next x`, and ends with `term i`. A walk
goes from a cell to the cell that `link` finds in its contents, if there is one. -/
structure Layout (ι κ μ ν : Type*) where
  head : ι → κ
  next : ν → κ
  ptr : ν → μ
  term : ι → μ
  link : μ → Option κ
  link_ptr : ∀ x, link (ptr x) = some (next x)
  head_injective : Function.Injective head
  next_injective : Function.Injective next
  ptr_injective : Function.Injective ptr
  head_ne_next : ∀ i x, head i ≠ next x
  term_ne_ptr : ∀ i x, term i ≠ ptr x

variable {ι κ μ ν : Type*}

namespace Layout

variable (L : Layout ι κ μ ν)

def find (mem : κ → μ) (p : μ → Bool) : Nat → κ → Option κ
  | 0, _ => none
  | n + 1, c => if p (mem c) then some c else (L.link (mem c)).bind (find mem p n)

def unlink [DecidableEq κ] (mem : κ → μ) (p : μ → Bool) (fuel : Nat) (c : κ) : Option (κ → μ) :=
  (L.find mem p fuel c).bind fun d ↦ (L.link (mem d)).map fun e ↦ Function.update mem d (mem e)

def push [DecidableEq κ] (mem : κ → μ) (i : ι) (x : ν) : κ → μ :=
  Function.update (Function.update mem (L.next x) (mem (L.head i))) (L.head i) (L.ptr x)

/-- The nodes of `l` follow from the contents `y`, and then comes `e`. -/
def Follows (mem : κ → μ) (e : μ) : μ → List ν → Prop
  | y, [] => y = e
  | y, x :: l => y = L.ptr x ∧ Follows mem e (mem (L.next x)) l

def cellBefore : κ → List ν → κ
  | c, [] => c
  | _, x :: l => cellBefore (L.next x) l

/-- The lists of `I` are threaded through the store, and each has once the nodes that belong there. -/
structure Holds (mem : κ → μ) (I : Set ι) (place : ν → Option ι) (lists : ι → List ν) : Prop where
  follows : ∀ i ∈ I, L.Follows mem (L.term i) (mem (L.head i)) (lists i)
  nodup : ∀ i ∈ I, (lists i).Nodup
  mem_iff : ∀ i ∈ I, ∀ x, x ∈ lists i ↔ place x = some i

variable {L} {mem mem' : κ → μ} {e y : μ} {c : κ} {l l₁ l₂ : List ν} {x : ν} {p : μ → Bool}

theorem Follows.congr (h : L.Follows mem e y l) (hmem : ∀ x ∈ l, mem' (L.next x) = mem (L.next x)) :
    L.Follows mem' e y l := by
  induction l generalizing y with
  | nil => exact h
  | cons x l ih =>
    refine ⟨h.1, ?_⟩
    rw [hmem x List.mem_cons_self]
    exact ih h.2 fun z hz ↦ hmem z (List.mem_cons_of_mem x hz)

theorem Follows.unique {l' : List ν} (he : ∀ x, e ≠ L.ptr x) (h : L.Follows mem e y l) (h' : L.Follows mem e y l') :
    l = l' := by
  induction l generalizing y l' with
  | nil =>
    cases l' with
    | nil => rfl
    | cons x l' => exact absurd (h.symm.trans h'.1) (he x)
  | cons x l ih =>
    cases l' with
    | nil => exact absurd (h'.symm.trans h.1) (he x)
    | cons z l' =>
      obtain rfl := L.ptr_injective (h.1.symm.trans h'.1)
      rw [ih h.2 h'.2]

theorem Follows.cell (h : L.Follows mem e (mem c) (l₁ ++ l₂)) :
    L.Follows mem e (mem (L.cellBefore c l₁)) l₂ := by
  induction l₁ generalizing c with
  | nil => exact h
  | cons x l₁ ih => exact ih h.2

/-- Behind a node comes another one of the list, but not the first, or the end. -/
theorem Follows.next (h : L.Follows mem e y l) (hx : x ∈ l) :
    mem (L.next x) = e ∨ ∃ z ∈ l.tail, mem (L.next x) = L.ptr z := by
  induction l generalizing y with
  | nil => exact absurd hx List.not_mem_nil
  | cons w l ih =>
    rcases List.mem_cons.mp hx with rfl | hx
    · cases l with
      | nil => exact .inl h.2
      | cons z l => exact .inr ⟨z, List.mem_cons_self, h.2.1⟩
    · rcases ih h.2 hx with hend | ⟨z, hz, hptr⟩
      · exact .inl hend
      · exact .inr ⟨z, List.mem_of_mem_tail hz, hptr⟩

theorem cellBefore_mem (c : κ) (l : List ν) : L.cellBefore c l ∈ c :: l.map L.next := by
  induction l generalizing c with
  | nil => exact List.mem_cons_self
  | cons x l ih => exact List.mem_cons_of_mem c (ih (L.next x))

theorem find_cellBefore (h : L.Follows mem e (mem c) (l₁ ++ l₂)) (hp : ∀ x ∈ l₁, p (L.ptr x) = false) (n : Nat) :
    L.find mem p (n + l₁.length) c = L.find mem p n (L.cellBefore c l₁) := by
  induction l₁ generalizing c with
  | nil => rfl
  | cons x l₁ ih =>
    obtain ⟨hc, h⟩ := h
    rw [List.length_cons, ← Nat.add_assoc, find, hc, hp x List.mem_cons_self, L.link_ptr]
    exact ih h fun z hz ↦ hp z (List.mem_cons_of_mem x hz)

theorem find_here (h : p (mem c) = true) (n : Nat) : L.find mem p (n + 1) c = some c := by
  rw [find, if_pos h]

section Update

variable [DecidableEq κ]

theorem unlink_of_find {n : Nat} {d : κ} (hd : L.find mem p n c = some d) (hx : mem d = L.ptr x) :
    L.unlink mem p n c = some (Function.update mem d (mem (L.next x))) := by
  simp [unlink, hd, hx, L.link_ptr]

theorem push_next (mem : κ → μ) (i : ι) {x z : ν} (hzx : z ≠ x) : L.push mem i x (L.next z) = mem (L.next z) := by
  rw [push, Function.update_of_ne (L.head_ne_next i z).symm,
    Function.update_of_ne fun heq ↦ hzx (L.next_injective heq)]

theorem Follows.unlink (h : L.Follows mem e (mem c) (l₁ ++ x :: l₂))
    (hnodup : (c :: (l₁ ++ x :: l₂).map L.next).Nodup) :
    let mem' := Function.update mem (L.cellBefore c l₁) (mem (L.next x))
    L.Follows mem' e (mem' c) (l₁ ++ l₂) := by
  induction l₁ generalizing c with
  | nil =>
    obtain ⟨hc, h⟩ := h
    simp only [cellBefore, Function.update_self, List.nil_append]
    refine h.congr fun z hz ↦ Function.update_of_ne ?_ _ _
    rintro rfl
    exact (List.nodup_cons.mp hnodup).1 (List.mem_map_of_mem (List.mem_cons_of_mem x hz))
  | cons y l₁ ih =>
    obtain ⟨hc, h⟩ := h
    obtain ⟨hcell, hnodup⟩ := List.nodup_cons.mp hnodup
    have hne : c ≠ L.cellBefore (L.next y) l₁ := by
      intro heq
      have hmem := L.cellBefore_mem (L.next y) l₁
      rw [← heq] at hmem
      apply hcell
      rcases List.mem_cons.mp hmem with hy | hl
      · exact List.mem_cons.mpr (.inl hy)
      · refine List.mem_cons_of_mem _ ?_
        exact List.map_subset L.next (List.subset_append_left l₁ (x :: l₂)) hl
    refine ⟨?_, ih h hnodup⟩
    rw [cellBefore, Function.update_of_ne hne, hc]

end Update

namespace Holds

variable {I J : Set ι} {place place' : ν → Option ι} {lists : ι → List ν} {i : ι}

theorem mono (h : L.Holds mem I place lists) (hJ : J ⊆ I) : L.Holds mem J place lists where
  follows i hi := h.follows i (hJ hi)
  nodup i hi := h.nodup i (hJ hi)
  mem_iff i hi := h.mem_iff i (hJ hi)

theorem congr (h : L.Holds mem I place lists) (hplace : ∀ i ∈ I, ∀ x, place x = some i ↔ place' x = some i) :
    L.Holds mem I place' lists where
  follows := h.follows
  nodup := h.nodup
  mem_iff i hi x := (h.mem_iff i hi x).trans (hplace i hi x)

theorem empty (hmem : ∀ i ∈ I, mem (L.head i) = L.term i) (hplace : ∀ i ∈ I, ∀ x, place x ≠ some i) :
    L.Holds mem I place fun _ ↦ [] where
  follows i hi := hmem i hi
  nodup _ _ := List.nodup_nil
  mem_iff i hi x := by simp [hplace i hi x]

theorem cells_nodup (h : L.Holds mem I place lists) (hi : i ∈ I) :
    (L.head i :: (lists i).map L.next).Nodup := by
  refine List.nodup_cons.mpr ⟨?_, (h.nodup i hi).map L.next_injective⟩
  intro hmem
  obtain ⟨x, _, hx⟩ := List.mem_map.mp hmem
  exact L.head_ne_next i x hx.symm

theorem cell_ne (h : L.Holds mem I place lists) (hi : i ∈ I) (hlist : lists i = l₁ ++ l₂) {j : ι} (hj : j ∈ I)
    (hji : j ≠ i) : L.cellBefore (L.head i) l₁ ∉ L.head j :: (lists j).map L.next := by
  intro hmem
  rcases List.mem_cons.mp (L.cellBefore_mem (L.head i) l₁) with hhead | hnext
  · rw [hhead] at hmem
    rcases List.mem_cons.mp hmem with heq | hx
    · exact hji (L.head_injective heq.symm)
    · obtain ⟨x, _, hx⟩ := List.mem_map.mp hx
      exact L.head_ne_next i x hx.symm
  · obtain ⟨x, hxl, hx⟩ := List.mem_map.mp hnext
    rw [← hx] at hmem
    rcases List.mem_cons.mp hmem with heq | hz
    · exact L.head_ne_next j x heq.symm
    · obtain ⟨z, hzl, hz⟩ := List.mem_map.mp hz
      cases L.next_injective hz
      have hxi : x ∈ lists i := hlist ▸ List.mem_append_left _ hxl
      have hplace := ((h.mem_iff i hi x).mp hxi).symm.trans ((h.mem_iff j hj x).mp hzl)
      exact hji (Option.some.inj hplace).symm

/-- The cell that leads to a node of a list. -/
theorem cell (h : L.Holds mem I place lists) (hi : i ∈ I) (hlist : lists i = l₁ ++ x :: l₂) :
    mem (L.cellBefore (L.head i) l₁) = L.ptr x ∧ L.Follows mem (L.term i) (mem (L.next x)) l₂ := by
  have hfollows := h.follows i hi
  rw [hlist] at hfollows
  exact hfollows.cell

/-- Only the cells of the lists matter. -/
theorem frame (h : L.Holds mem I place lists) (hhead : ∀ i ∈ I, mem' (L.head i) = mem (L.head i))
    (hnext : ∀ i ∈ I, ∀ x, place x = some i → mem' (L.next x) = mem (L.next x)) :
    L.Holds mem' I place lists where
  follows i hi := by
    rw [hhead i hi]
    exact (h.follows i hi).congr fun x hx ↦ hnext i hi x ((h.mem_iff i hi x).mp hx)
  nodup := h.nodup
  mem_iff := h.mem_iff

section Update

variable [DecidableEq κ] [DecidableEq ι] [DecidableEq ν]

theorem unlink (h : L.Holds mem I place lists) (hi : i ∈ I) (hlist : lists i = l₁ ++ x :: l₂) :
    L.Holds (Function.update mem (L.cellBefore (L.head i) l₁) (mem (L.next x))) I
      (Function.update place x none) (Function.update lists i (l₁ ++ l₂)) := by
  have hnodup := h.nodup i hi
  have hx : ∀ j ∈ I, x ∈ lists j → j = i := by
    intro j hj hxj
    have hxi : x ∈ lists i := hlist ▸ List.mem_append_right l₁ List.mem_cons_self
    have hplace := ((h.mem_iff i hi x).mp hxi).symm.trans ((h.mem_iff j hj x).mp hxj)
    exact (Option.some.inj hplace).symm
  rw [hlist] at hnodup
  refine ⟨fun j hj ↦ ?_, fun j hj ↦ ?_, fun j hj z ↦ ?_⟩
  · by_cases hji : j = i
    · subst hji
      rw [Function.update_self]
      have hfollows := h.follows j hj
      have hcells := h.cells_nodup hj
      rw [hlist] at hfollows hcells
      exact hfollows.unlink hcells
    · have hne := h.cell_ne hi hlist hj hji
      rw [Function.update_of_ne hji, Function.update_of_ne (ne_of_mem_of_not_mem List.mem_cons_self hne)]
      refine (h.follows j hj).congr fun z hz ↦ Function.update_of_ne ?_ _ _
      exact ne_of_mem_of_not_mem (List.mem_cons_of_mem _ (List.mem_map_of_mem hz)) hne
  · by_cases hji : j = i
    · subst hji
      rw [Function.update_self]
      exact hnodup.sublist ((List.Sublist.refl l₁).append (List.sublist_cons_self x l₂))
    · rw [Function.update_of_ne hji]
      exact h.nodup j hj
  · by_cases hzx : z = x
    · subst hzx
      rw [Function.update_self]
      refine ⟨fun hz ↦ ?_, fun hnone ↦ by cases hnone⟩
      by_cases hji : j = i
      · subst hji
        rw [Function.update_self] at hz
        exact absurd hz (List.nodup_middle.mp hnodup |> List.nodup_cons.mp).1
      · rw [Function.update_of_ne hji] at hz
        exact absurd (hx j hj hz) hji
    · rw [Function.update_of_ne hzx, ← h.mem_iff j hj z]
      by_cases hji : j = i
      · subst hji
        rw [Function.update_self, hlist]
        simp [hzx]
      · rw [Function.update_of_ne hji]

theorem push (h : L.Holds mem I place lists) (hi : i ∈ I) (hx : ∀ j ∈ I, place x ≠ some j) :
    L.Holds (L.push mem i x) I (Function.update place x (some i)) (Function.update lists i (x :: lists i)) := by
  have hout : ∀ j ∈ I, x ∉ lists j := fun j hj hmem ↦ hx j hj ((h.mem_iff j hj x).mp hmem)
  have hnext : ∀ j ∈ I, ∀ z ∈ lists j, L.push mem i x (L.next z) = mem (L.next z) := by
    intro j hj z hz
    exact push_next mem i (ne_of_mem_of_not_mem hz (hout j hj))
  have hhead : L.push mem i x (L.head i) = L.ptr x := Function.update_self _ _ _
  have hthen : L.push mem i x (L.next x) = mem (L.head i) := by
    rw [Layout.push, Function.update_of_ne (L.head_ne_next i x).symm, Function.update_self]
  refine ⟨fun j hj ↦ ?_, fun j hj ↦ ?_, fun j hj z ↦ ?_⟩
  · by_cases hji : j = i
    · subst hji
      rw [Function.update_self, hhead]
      refine ⟨rfl, ?_⟩
      rw [hthen]
      exact (h.follows j hj).congr (hnext j hj)
    · rw [Function.update_of_ne hji, Layout.push, Function.update_of_ne fun heq ↦ hji (L.head_injective heq),
        Function.update_of_ne (L.head_ne_next j x)]
      exact (h.follows j hj).congr (hnext j hj)
  · by_cases hji : j = i
    · subst hji
      rw [Function.update_self]
      exact List.nodup_cons.mpr ⟨hout j hj, h.nodup j hj⟩
    · rw [Function.update_of_ne hji]
      exact h.nodup j hj
  · by_cases hji : j = i
    · subst hji
      rw [Function.update_self, List.mem_cons]
      by_cases hzx : z = x
      · simp [hzx]
      · rw [Function.update_of_ne hzx, h.mem_iff j hj z]
        simp [hzx]
    · rw [Function.update_of_ne hji, h.mem_iff j hj z]
      by_cases hzx : z = x
      · subst hzx
        rw [Function.update_self]
        exact ⟨fun heq ↦ absurd heq (hx j hj), fun heq ↦ absurd (Option.some.inj heq).symm hji⟩
      · rw [Function.update_of_ne hzx]

omit [DecidableEq ν] in
/-- A new list starts empty. -/
theorem insert (h : L.Holds mem I place lists) (hi : i ∉ I) (hplace : ∀ x, place x ≠ some i) :
    L.Holds (Function.update mem (L.head i) (L.term i)) (Insert.insert i I) place
      (Function.update lists i []) := by
  have hold : ∀ j ∈ I, Function.update lists i [] j = lists j := by
    intro j hj
    exact Function.update_of_ne (ne_of_mem_of_not_mem hj hi) _ _
  have hhead : ∀ j ∈ I, L.head j ≠ L.head i := by
    intro j hj heq
    cases L.head_injective heq
    exact hi hj
  have hfree : L.Holds (Function.update mem (L.head i) (L.term i)) I place lists :=
    h.frame (fun j hj ↦ Function.update_of_ne (hhead j hj) _ _)
      fun j _ x _ ↦ Function.update_of_ne (L.head_ne_next i x).symm _ _
  have hnew : Function.update lists i [] i = [] := Function.update_self _ _ _
  refine ⟨?_, ?_, ?_⟩
  · rintro j (rfl | hj)
    · rw [hnew, Function.update_self]
      rfl
    · rw [hold j hj]
      exact hfree.follows j hj
  · rintro j (rfl | hj)
    · rw [hnew]
      exact List.nodup_nil
    · rw [hold j hj]
      exact h.nodup j hj
  · rintro j (rfl | hj) x
    · rw [hnew]
      simp [hplace x]
    · rw [hold j hj]
      exact h.mem_iff j hj x

/-- To take the first node that `p` selects off a list takes a walk from its head. -/
theorem unlink_head (h : L.Holds mem I place lists) (hi : i ∈ I) (hx : x ∈ lists i) (hp : p (L.ptr x) = true) :
    ∃ z d l₁ l₂, lists i = l₁ ++ z :: l₂ ∧ p (L.ptr z) = true ∧ mem d = L.ptr z ∧
      Loop.Settles (fun n ↦ L.unlink mem p n (L.head i)) (Function.update mem d (mem (L.next z))) ∧
      L.Holds (Function.update mem d (mem (L.next z))) I (Function.update place z none)
        (Function.update lists i (l₁ ++ l₂)) := by
  have hfind : ((lists i).find? fun y ↦ p (L.ptr y)).isSome := List.find?_isSome.mpr ⟨x, hx, hp⟩
  obtain ⟨z, hz⟩ := Option.isSome_iff_exists.mp hfind
  obtain ⟨hpz, l₁, l₂, hlist, hbefore⟩ := List.find?_eq_some_iff_append.mp hz
  obtain ⟨hcell, -⟩ := h.cell hi hlist
  refine ⟨z, _, l₁, l₂, hlist, hpz, hcell, ⟨l₁.length + 1, fun n hn ↦ ?_⟩, h.unlink hi hlist⟩
  obtain ⟨k, rfl⟩ := Nat.exists_eq_add_of_le' hn
  refine unlink_of_find ?_ hcell
  have hfollows := h.follows i hi
  rw [hlist] at hfollows
  have hwalk := find_cellBefore hfollows (fun y hy ↦ by simpa using hbefore y hy) (k + 1)
  have hat : p (mem (L.cellBefore (L.head i) l₁)) = true := hcell ▸ hpz
  rw [Nat.add_comm l₁.length 1, ← Nat.add_assoc, hwalk, find_here hat]

/-- In a circular list the walk to a node can start behind it. -/
theorem unlink_around (h : L.Holds mem I place lists) (hi : i ∈ I) (hx : x ∈ lists i)
    (hlink : L.link (L.term i) = some (L.head i)) (hp : ∀ y, p y = true ↔ y = L.ptr x) :
    ∃ d l₁ l₂, lists i = l₁ ++ x :: l₂ ∧ mem d = L.ptr x ∧
      Loop.Settles (fun n ↦ L.unlink mem p n (L.next x)) (Function.update mem d (mem (L.next x))) ∧
      L.Holds (Function.update mem d (mem (L.next x))) I (Function.update place x none)
        (Function.update lists i (l₁ ++ l₂)) := by
  obtain ⟨l₁, l₂, hlist⟩ := List.append_of_mem hx
  obtain ⟨hcell, hrest⟩ := h.cell hi hlist
  have hnodup := h.nodup i hi
  rw [hlist] at hnodup
  obtain ⟨hout, -⟩ := List.nodup_cons.mp (List.nodup_middle.mp hnodup)
  have hfalse : ∀ y, y ≠ L.ptr x → p y = false := by
    intro y hy
    exact Bool.eq_false_iff.mpr fun htrue ↦ hy ((hp y).mp htrue)
  have hpass : ∀ z, z ∈ l₁ ++ l₂ → p (L.ptr z) = false := by
    intro z hz
    refine hfalse _ fun heq ↦ hout ?_
    cases L.ptr_injective heq
    exact hz
  refine ⟨_, l₁, l₂, hlist, hcell, ⟨l₂.length + (l₁.length + 2), fun n hn ↦ ?_⟩, h.unlink hi hlist⟩
  obtain ⟨k, rfl⟩ := Nat.exists_eq_add_of_le' hn
  refine unlink_of_find ?_ hcell
  have hfollows := h.follows i hi
  rw [hlist] at hfollows
  have happend : L.Follows mem (L.term i) (mem (L.next x)) (l₂ ++ []) := by rwa [List.append_nil]
  have hend : mem (L.cellBefore (L.next x) l₂) = L.term i := happend.cell
  have hbehind := find_cellBefore happend (fun z hz ↦ hpass z (List.mem_append_right l₁ hz)) (k + 1 + l₁.length + 1)
  have hfirst := find_cellBefore hfollows (fun z hz ↦ hpass z (List.mem_append_left l₂ hz)) (k + 1)
  have hturn : L.find mem p (k + 1 + l₁.length + 1) (L.cellBefore (L.next x) l₂) =
      L.find mem p (k + 1 + l₁.length) (L.head i) := by
    rw [find, hend, hfalse _ (L.term_ne_ptr i x), hlink]
    rfl
  have hat : p (mem (L.cellBefore (L.head i) l₁)) = true := (hp _).mpr hcell
  have hfuel : k + (l₂.length + (l₁.length + 2)) = k + 1 + l₁.length + 1 + l₂.length := by omega
  rw [hfuel, hbehind, hturn, hfirst, find_here hat]

end Update

end Holds

end Layout

end Intrusive
