import Mathlib.Algebra.GroupWithZero.Nat
import Mathlib.Data.Finset.Card
import Mathlib.Data.Finset.Image

namespace Memory

abbrev Byte := BitVec 8

/-- A byte memory whose addresses wrap around. -/
abbrev Mem (w : Nat) := BitVec w → Byte

section Regions

variable {w : Nat}

def Covers (a : BitVec w) (n : Nat) (x : BitVec w) : Prop := (x - a).toNat < n

instance (a : BitVec w) (n : Nat) : DecidablePred (Covers a n) := fun _ ↦ inferInstanceAs (Decidable (_ < _))

def Apart (a : BitVec w) (n : Nat) (b : BitVec w) (m : Nat) : Prop :=
  n = 0 ∨ m = 0 ∨ n ≤ (b - a).toNat ∧ m ≤ (a - b).toNat

instance (a : BitVec w) (n : Nat) (b : BitVec w) (m : Nat) : Decidable (Apart a n b m) :=
  inferInstanceAs (Decidable (_ ∨ _))

theorem Apart.not_covers {a b : BitVec w} {n m : Nat} (h : Apart a n b m) {x : BitVec w}
    (ha : Covers a n x) (hb : Covers b m x) : False := by
  unfold Covers at ha hb
  rcases h with rfl | rfl | ⟨hn, hm⟩
  · omega
  · omega
  · have hba : b - a = (x - a) - (x - b) := by grind
    have hab : a - b = (x - b) - (x - a) := by grind
    rcases Nat.le_total (x - b).toNat (x - a).toNat with hle | hle
    · rw [hba, BitVec.toNat_sub_of_le hle] at hn
      omega
    · rw [hab, BitVec.toNat_sub_of_le hle] at hm
      omega

theorem covers_add (a : BitVec w) {n i : Nat} (hi : i < n) (hn : n ≤ 2 ^ w) :
    Covers a n (a + BitVec.ofNat w i) := by
  unfold Covers
  rw [BitVec.add_comm, BitVec.add_sub_cancel, BitVec.toNat_ofNat, Nat.mod_eq_of_lt (by omega)]
  exact hi

theorem offset_add (a : BitVec w) {i : Nat} (hi : i < 2 ^ w) : (a + BitVec.ofNat w i - a).toNat = i := by
  rw [BitVec.add_comm, BitVec.add_sub_cancel, BitVec.toNat_ofNat, Nat.mod_eq_of_lt hi]

theorem sum_le_of_apart (regions : List (BitVec w × Nat)) (hle : ∀ r ∈ regions, r.2 ≤ 2 ^ w)
    (hapart : regions.Pairwise fun r s ↦ Apart r.1 r.2 s.1 s.2) :
    (regions.map Prod.snd).sum ≤ 2 ^ w := by
  have hset : ∃ S : Finset (BitVec w), S.card = (regions.map Prod.snd).sum ∧
      ∀ x ∈ S, ∃ r ∈ regions, Covers r.1 r.2 x := by
    induction regions with
    | nil => exact ⟨∅, rfl, by simp⟩
    | cons r regions ih =>
      obtain ⟨hr, hrest⟩ := List.pairwise_cons.mp hapart
      obtain ⟨S, hcard, hS⟩ := ih (fun s hs ↦ hle s (List.mem_cons_of_mem _ hs)) hrest
      have hrle := hle r List.mem_cons_self
      let T := (Finset.range r.2).image fun i ↦ r.1 + BitVec.ofNat w i
      have hT (x : BitVec w) (hx : x ∈ T) : Covers r.1 r.2 x := by
        obtain ⟨i, hi, rfl⟩ := Finset.mem_image.mp hx
        exact covers_add r.1 (Finset.mem_range.mp hi) hrle
      have hTcard : T.card = r.2 := by
        rw [Finset.card_image_of_injOn, Finset.card_range]
        intro i hi j hj hij
        have hi' := Finset.mem_range.mp (Finset.mem_coe.mp hi)
        have hj' := Finset.mem_range.mp (Finset.mem_coe.mp hj)
        have hi'' := offset_add r.1 (i := i) (by omega)
        have hj'' := offset_add r.1 (i := j) (by omega)
        simp only at hij
        rw [← hi'', ← hj'', hij]
      have hdisjoint : Disjoint T S := by
        refine Finset.disjoint_left.mpr fun x hx hxS ↦ ?_
        obtain ⟨s, hs, hcov⟩ := hS x hxS
        exact (hr s hs).not_covers (hT x hx) hcov
      refine ⟨T ∪ S, ?_, fun x hx ↦ ?_⟩
      · rw [Finset.card_union_of_disjoint hdisjoint, hTcard, hcard, List.map_cons, List.sum_cons]
      · rcases Finset.mem_union.mp hx with hx | hx
        · exact ⟨r, List.mem_cons_self, hT x hx⟩
        · obtain ⟨s, hs, hcov⟩ := hS x hx
          exact ⟨s, List.mem_cons_of_mem _ hs, hcov⟩
  obtain ⟨S, hcard, -⟩ := hset
  rw [← hcard, ← Finset.card_range (2 ^ w)]
  refine Finset.card_le_card_of_injOn BitVec.toNat (fun x _ ↦ ?_) fun x _ y _ h ↦ BitVec.eq_of_toNat_eq h
  exact Finset.mem_coe.mpr (Finset.mem_range.mpr x.isLt)

end Regions

section Access

variable {w : Nat} (m : Mem w)

def put (a : BitVec w) (n : Nat) (bytes : Nat → Byte) : Mem w :=
  fun x ↦ if Covers a n x then bytes (x - a).toNat else m x

theorem put_of_covers {a : BitVec w} {n : Nat} {bytes : Nat → Byte} {x : BitVec w} (h : Covers a n x) :
    put m a n bytes x = bytes (x - a).toNat := if_pos h

theorem put_of_not_covers {a : BitVec w} {n : Nat} {bytes : Nat → Byte} {x : BitVec w}
    (h : ¬ Covers a n x) : put m a n bytes x = m x := if_neg h

theorem put_congr {a : BitVec w} {n : Nat} {f g : Nat → Byte} (h : ∀ i < n, f i = g i) :
    put m a n f = put m a n g := by
  funext x
  by_cases hx : Covers a n x
  · rw [put_of_covers m hx, put_of_covers m hx, h _ hx]
  · rw [put_of_not_covers m hx, put_of_not_covers m hx]

theorem put_injective {a : BitVec w} {n : Nat} (hn : n ≤ 2 ^ w) {f g : Nat → Byte}
    (h : put m a n f = put m a n g) {i : Nat} (hi : i < n) : f i = g i := by
  have hx := congrFun h (a + BitVec.ofNat w i)
  rw [put_of_covers m (covers_add a hi hn), put_of_covers m (covers_add a hi hn), offset_add a (by omega)] at hx
  exact hx

/-- Two writes one behind the other are one. -/
theorem put_append (a : BitVec w) {n n' : Nat} (h : n + n' ≤ 2 ^ w) (f g : Nat → Byte) :
    put (put m a n f) (a + BitVec.ofNat w n) n' g = put m a (n + n') fun k ↦ if k < n then f k else g (k - n) := by
  funext x
  have hlt := (x - a).isLt
  have hoffset : (x - (a + BitVec.ofNat w n)).toNat =
      if n ≤ (x - a).toNat then (x - a).toNat - n else 2 ^ w + (x - a).toNat - n := by
    have hsub : x - (a + BitVec.ofNat w n) = (x - a) - BitVec.ofNat w n := by grind
    rw [hsub, BitVec.toNat_sub, BitVec.toNat_ofNat]
    generalize (x - a).toNat = k at hlt ⊢
    by_cases hfull : n = 2 ^ w
    · subst hfull
      have hle : ¬ 2 ^ w ≤ k := by omega
      rw [if_neg hle, Nat.mod_self, Nat.sub_zero, Nat.add_mod_left, Nat.mod_eq_of_lt hlt]
      omega
    · rw [Nat.mod_eq_of_lt (by omega : n < 2 ^ w)]
      split
      · have hsplit : 2 ^ w - n + k = 2 ^ w + (k - n) := by omega
        rw [hsplit, Nat.add_mod_left, Nat.mod_eq_of_lt (by omega)]
      · rw [Nat.mod_eq_of_lt (by omega)]
        omega
  have hsecond : Covers (a + BitVec.ofNat w n) n' x ↔ n ≤ (x - a).toNat ∧ (x - a).toNat < n + n' := by
    unfold Covers
    rw [hoffset]
    split
    · omega
    · omega
  by_cases hfirst : (x - a).toNat < n
  · have hboth : Covers a (n + n') x := Nat.lt_of_lt_of_le hfirst (Nat.le_add_right n n')
    rw [put_of_not_covers _ (by rw [hsecond]; omega), put_of_covers m hfirst, put_of_covers m hboth, if_pos hfirst]
  · by_cases hboth : (x - a).toNat < n + n'
    · rw [put_of_covers _ (hsecond.mpr ⟨by omega, hboth⟩), put_of_covers m hboth, if_neg hfirst, hoffset,
        if_pos (by omega)]
    · rw [put_of_not_covers _ (by rw [hsecond]; omega), put_of_not_covers m hfirst, put_of_not_covers m hboth]

def word (a : BitVec w) : BitVec 32 := m (a + 3) ++ m (a + 2) ++ m (a + 1) ++ m a

theorem word_congr {m m' : Mem w} {a : BitVec w} (h : ∀ i < 4, m' (a + BitVec.ofNat w i) = m (a + BitVec.ofNat w i)) :
    word m' a = word m a := by
  have h₀ := h 0 (by decide)
  rw [BitVec.add_zero] at h₀
  have h₁ := h 1 (by decide)
  have h₂ := h 2 (by decide)
  have h₃ := h 3 (by decide)
  unfold word
  exact congrArg₂ _ (congrArg₂ _ (congrArg₂ _ h₃ h₂) h₁) h₀

end Access

end Memory
