import Mathlib.Data.Fin.Tuple.Basic
import IDeviceEmulator.Pl192.Controller

namespace IDeviceEmulator.Pl192

theorem find_finRange_eq_some {n : Nat} {p : Fin n → Bool} {i : Fin n} :
    (List.finRange n).find? p = some i ↔ p i = true ∧ ∀ j < i, p j = false := by
  rw [← Fin.find?_eq_find?_finRange, Fin.find?_eq_some_iff]

section Table

variable (s : State)

def OnLevel (p : Nat) (i : Fin 32) : Prop :=
  s.irqStatus.getLsbD i = true ∧ (s.vectPriority.get i).toNat = p

instance (p : Nat) : DecidablePred (OnLevel s p) := fun _ ↦ inferInstanceAs (Decidable (_ ∧ _))

def sourceAt (p : Nat) : Option (Fin 32) := (List.finRange 32).find? (OnLevel s p)

/-- The loop runs downwards, so the lowest source written to a level survives. -/
theorem fillSources_getElem (sources : List (Fin 32)) (table : Vector Word 16) (p : Nat)
    (hp : p < 16) :
    (sources.foldr (fillSource s) table)[p] =
      match sources.find? (OnLevel s p) with
      | some i => BitVec.ofNat 32 i
      | none => table[p] := by
  induction sources with
  | nil => rfl
  | cons i sources ih =>
    rw [List.foldr_cons, fillSource]
    by_cases hi : s.irqStatus.getLsbD i = true
    · rw [if_pos hi, Vector.getElem_setIfInBounds hp]
      by_cases hprio : (s.vectPriority.get i).toNat = p
      · have hon : OnLevel s p i := ⟨hi, hprio⟩
        simp only [if_pos hprio, List.find?_cons, hon, decide_true]
      · have hon : ¬ OnLevel s p i := fun h ↦ hprio h.2
        simp only [if_neg hprio, List.find?_cons, hon, decide_false, ih]
    · have hon : ¬ OnLevel s p i := fun h ↦ hi h.1
      simp only [if_neg hi, List.find?_cons, hon, decide_false, ih]

theorem daisyTable_getElem (p : Nat) (hp : p < 16) :
    (daisyTable s)[p] =
      if s.daisyInput ≠ 0 ∧ s.daisyPriority.toNat = p then daisyIrq else noIrq := by
  unfold daisyTable
  by_cases hd : s.daisyInput ≠ 0
  · rw [if_pos hd, Vector.getElem_setIfInBounds hp, Vector.getElem_replicate]
    exact if_congr (by rw [and_iff_right hd]) rfl rfl
  · rw [if_neg hd, Vector.getElem_replicate, if_neg (fun h ↦ hd h.1)]

theorem prioIrq_getElem (p : Nat) (hp : p < 16) :
    (prioIrq s)[p] =
      match sourceAt s p with
      | some i => BitVec.ofNat 32 i
      | none => if s.daisyInput ≠ 0 ∧ s.daisyPriority.toNat = p then daisyIrq else noIrq := by
  have h := fillSources_getElem s (List.finRange 32) (daisyTable s) p hp
  rw [daisyTable_getElem s p hp] at h
  exact h

theorem ofNat_source_lt (i : Fin 32) : BitVec.ofNat 32 i < (32 : Word) := by
  have hi := i.isLt
  have h32 : (32 : Word).toNat = 32 := rfl
  rw [BitVec.lt_def, BitVec.toNat_ofNat, h32]
  omega

theorem prioIrq_le_daisy_iff (p : Nat) (hp : p < 16) :
    (prioIrq s)[p] ≤ daisyIrq ↔
      (sourceAt s p).isSome ∨ s.daisyInput ≠ 0 ∧ s.daisyPriority.toNat = p := by
  rw [prioIrq_getElem s p hp]
  cases sourceAt s p with
  | some i => exact iff_of_true (BitVec.le_of_lt (ofNat_source_lt i)) (.inl rfl)
  | none =>
    have hno : ¬ noIrq ≤ daisyIrq := by decide
    dsimp only
    split_ifs with hd
    · exact iff_of_true (BitVec.le_refl _) (.inr hd)
    · exact iff_of_false hno (by simpa using hd)

end Table

section Selection

variable {s : State}

theorem prioritySorter_of_first {p : Fin 16} (hm : s.swPriorityMask.getLsbD p = true)
    (hp : (prioIrq s).get p ≤ daisyIrq)
    (hmin : ∀ q < p, s.swPriorityMask.getLsbD q = true → ¬ (prioIrq s).get q ≤ daisyIrq) :
    prioritySorter s = (prioIrq s).get p := by
  have h : (List.finRange 16).find?
      (fun p : Fin 16 ↦ s.swPriorityMask.getLsbD p ∧ (prioIrq s)[p] ≤ daisyIrq) = some p := by
    refine find_finRange_eq_some.mpr ⟨decide_eq_true ⟨hm, hp⟩, fun q hq ↦ ?_⟩
    exact decide_eq_false fun h ↦ hmin q hq h.1 h.2
  rw [prioritySorter, h]
  rfl

theorem prioritySorter_cases (s : State) :
    prioritySorter s = noIrq ∨
      ∃ p : Fin 16, prioritySorter s = (prioIrq s).get p ∧ (prioIrq s).get p ≤ daisyIrq := by
  unfold prioritySorter
  split
  · rename_i p hp
    have h := (find_finRange_eq_some.mp hp).1
    simp only [decide_eq_true_eq] at h
    exact .inr ⟨p, rfl, h.2⟩
  · exact .inl rfl

theorem prioritySorter_le (s : State) : (prioritySorter s).toNat ≤ 33 := by
  rcases prioritySorter_cases s with h | ⟨p, h, hp⟩
  · rw [h]; decide
  · rw [h]
    exact Nat.le_succ_of_le hp

theorem daisyInput_of_sorter (h : prioritySorter s = daisyIrq) : s.daisyInput ≠ 0 := by
  rcases prioritySorter_cases s with hn | ⟨p, hs, -⟩
  · rw [hn] at h
    exact absurd h (by decide)
  · replace h : (prioIrq s)[p.val] = daisyIrq := hs.symm.trans h
    rw [prioIrq_getElem s p p.isLt] at h
    cases hsrc : sourceAt s p with
    | some i =>
      rw [hsrc] at h
      have hlt := ofNat_source_lt i
      simp only at h
      rw [h] at hlt
      exact absurd hlt (by decide)
    | none =>
      rw [hsrc] at h
      by_contra hd
      simp only [hd, ne_eq, not_true_eq_false, false_and, if_false] at h
      exact absurd h (by decide)

theorem prioritySorter_of_not_pending (h : ¬ Pending s) : prioritySorter s = noIrq := by
  obtain ⟨hirq, hdaisy⟩ : s.irqStatus = 0 ∧ s.daisyInput = 0 := by simpa [Pending] using h
  rcases prioritySorter_cases s with hn | ⟨p, -, hp⟩
  · exact hn
  · replace hp := (prioIrq_le_daisy_iff s p p.isLt).mp hp
    have hsrc : sourceAt s p = none := by
      simp only [sourceAt, List.find?_eq_none, decide_eq_true_eq]
      intro i _ hi
      simp [OnLevel, hirq] at hi
    simp [hsrc, hdaisy] at hp

end Selection

section Choice

variable (s : State)

def Enabled (p : Nat) : Prop := p < 16 ∧ s.swPriorityMask.getLsbD p = true

def DaisyOn (p : Nat) : Prop := s.daisyInput ≠ 0 ∧ s.daisyPriority.toNat = p

def Occupied (p : Nat) : Prop := (∃ i, OnLevel s p i) ∨ DaisyOn s p

/-- The level that is numerically the lowest of those enabled and occupied. -/
structure Best (p : Nat) : Prop where
  enabled : Enabled s p
  occupied : Occupied s p
  least : ∀ q < p, Enabled s q → ¬ Occupied s q

/-- What an interrupt number has to be for it to be the one chosen. -/
structure Picks (r : Word) : Prop where
  source : ∀ i : Fin 32, r = BitVec.ofNat 32 i ↔ ∃ p, Best s p ∧ OnLevel s p i ∧ ∀ j < i, ¬ OnLevel s p j
  daisy : r = daisyIrq ↔ ∃ p, Best s p ∧ DaisyOn s p ∧ ∀ i, ¬ OnLevel s p i
  none : r = noIrq ↔ ∀ p, Enabled s p → ¬ Occupied s p

variable {s}

theorem Best.eq {p q : Nat} (hp : Best s p) (hq : Best s q) : p = q := by
  rcases Nat.lt_trichotomy p q with hlt | heq | hlt
  · exact absurd hp.occupied (hq.least p hlt hp.enabled)
  · exact heq
  · exact absurd hq.occupied (hp.least q hlt hq.enabled)

theorem exists_best {p : Nat} (he : Enabled s p) (ho : Occupied s p) : ∃ q, Best s q := by
  classical
  have hex : ∃ q, Enabled s q ∧ Occupied s q := ⟨p, he, ho⟩
  obtain ⟨henabled, hoccupied⟩ := Nat.find_spec hex
  exact ⟨Nat.find hex, henabled, hoccupied, fun q hq hqe hqo ↦ Nat.find_min hex hq ⟨hqe, hqo⟩⟩

theorem sourceAt_eq_some {p : Nat} {i : Fin 32} :
    sourceAt s p = some i ↔ OnLevel s p i ∧ ∀ j < i, ¬ OnLevel s p j := by
  unfold sourceAt
  rw [find_finRange_eq_some, decide_eq_true_iff]
  exact and_congr_right fun _ ↦ forall₂_congr fun j _ ↦ decide_eq_false_iff_not

theorem sourceAt_eq_none {p : Nat} : sourceAt s p = none ↔ ∀ i, ¬ OnLevel s p i := by
  unfold sourceAt
  rw [List.find?_eq_none]
  constructor
  · intro h i hi
    exact h i (List.mem_finRange i) (decide_eq_true hi)
  · intro h i _ hi
    exact h i (of_decide_eq_true hi)

theorem occupied_iff {p : Nat} (hp : p < 16) : Occupied s p ↔ (prioIrq s)[p] ≤ daisyIrq := by
  rw [prioIrq_le_daisy_iff s p hp]
  apply or_congr_left
  constructor
  · rintro ⟨i, hi⟩
    cases hsource : sourceAt s p with
    | some j => rfl
    | none => exact absurd hi (sourceAt_eq_none.mp hsource i)
  · intro h
    obtain ⟨i, hi⟩ := Option.isSome_iff_exists.mp h
    exact ⟨i, (sourceAt_eq_some.mp hi).1⟩

theorem ofNat_source_inj {i j : Fin 32} (h : BitVec.ofNat 32 i = BitVec.ofNat 32 j) : i = j := by
  have hi := i.isLt
  have hj := j.isLt
  have htoNat := congrArg BitVec.toNat h
  rw [BitVec.toNat_ofNat, BitVec.toNat_ofNat] at htoNat
  omega

theorem ofNat_source_ne (i : Fin 32) : BitVec.ofNat 32 i ≠ daisyIrq ∧ BitVec.ofNat 32 i ≠ noIrq := by
  have hlt := ofNat_source_lt i
  constructor
  · intro h
    rw [h] at hlt
    exact absurd hlt (by decide)
  · intro h
    rw [h] at hlt
    exact absurd hlt (by decide)

/-- What stands on the best level is what is chosen. -/
theorem prioritySorter_of_best {p : Nat} (h : Best s p) (hp : p < 16) : prioritySorter s = (prioIrq s)[p] := by
  obtain ⟨-, hm⟩ := h.enabled
  apply prioritySorter_of_first (p := ⟨p, hp⟩) hm
  · exact (occupied_iff hp).mp h.occupied
  · intro q hq hqm hqo
    have hq16 : q.val < 16 := q.isLt
    exact h.least q hq ⟨hq16, hqm⟩ ((occupied_iff hq16).mpr hqo)

theorem prioritySorter_of_no_best (h : ∀ p, Enabled s p → ¬ Occupied s p) : prioritySorter s = noIrq := by
  unfold prioritySorter
  split
  · rename_i p hp
    have hfound := (find_finRange_eq_some.mp hp).1
    rw [decide_eq_true_iff] at hfound
    exact absurd ((occupied_iff p.isLt).mpr hfound.2) (h p ⟨p.isLt, hfound.1⟩)
  · rfl

theorem picks_prioritySorter (s : State) : Picks s (prioritySorter s) := by
  by_cases hnone : ∀ p, Enabled s p → ¬ Occupied s p
  · rw [prioritySorter_of_no_best hnone]
    have hbest : ∀ p, ¬ Best s p := fun p h ↦ hnone p h.enabled h.occupied
    refine ⟨?_, ?_, iff_of_true rfl hnone⟩
    · intro i
      apply iff_of_false (ofNat_source_ne i).2.symm
      rintro ⟨p, hp, -⟩
      exact hbest p hp
    · apply iff_of_false (by decide)
      rintro ⟨p, hp, -⟩
      exact hbest p hp
  · push Not at hnone
    obtain ⟨q, hq, ho⟩ := hnone
    obtain ⟨p, hp⟩ := exists_best hq ho
    rw [prioritySorter_of_best hp hp.enabled.1, prioIrq_getElem s p hp.enabled.1]
    cases hsource : sourceAt s p with
    | some i =>
      have hi := sourceAt_eq_some.mp hsource
      refine ⟨?_, ?_, ?_⟩
      · intro j
        constructor
        · intro h
          obtain rfl := ofNat_source_inj h
          exact ⟨p, hp, hi⟩
        · rintro ⟨q, hq, hj⟩
          obtain rfl := hp.eq hq
          obtain rfl := Option.some.inj (hsource.symm.trans (sourceAt_eq_some.mpr hj))
          rfl
      · apply iff_of_false (ofNat_source_ne i).1
        rintro ⟨q, hq, -, hempty⟩
        obtain rfl := hp.eq hq
        exact hempty i hi.1
      · apply iff_of_false (ofNat_source_ne i).2
        intro h
        exact h p hp.enabled hp.occupied
    | none =>
      have hempty := sourceAt_eq_none.mp hsource
      have hdaisy : s.daisyInput ≠ 0 ∧ s.daisyPriority.toNat = p := by
        rcases hp.occupied with ⟨i, hi⟩ | h
        · exact absurd hi (hempty i)
        · exact h
      dsimp only
      rw [if_pos hdaisy]
      refine ⟨?_, ?_, ?_⟩
      · intro i
        apply iff_of_false (ofNat_source_ne i).1.symm
        rintro ⟨q, hq, hi, -⟩
        obtain rfl := hp.eq hq
        exact hempty i hi
      · exact iff_of_true rfl ⟨p, hp, hdaisy, hempty⟩
      · apply iff_of_false (by decide)
        intro h
        exact h p hp.enabled hp.occupied

end Choice

end IDeviceEmulator.Pl192
