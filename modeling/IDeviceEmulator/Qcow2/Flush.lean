import IDeviceEmulator.Qcow2.Cache

namespace IDeviceEmulator.Qcow2

section Host

variable {m : Nat}

theorem bdrvPread_bdrvPwrite (file : File) (offset : Nat) (t : Table m) :
    bdrvPread (bdrvPwrite file offset t) offset = t := by
  funext i
  have hin : offset ≤ offset + i.val ∧ offset + i.val < offset + m := by omega
  simp only [bdrvPread, bdrvPwrite, dif_pos hin]
  exact congrArg t (Fin.ext (by simp only; omega))

theorem bdrvPread_bdrvPwrite_of_apart (file : File) {offset offset' : Nat} (t : Table m)
    (h : offset + m ≤ offset' ∨ offset' + m ≤ offset) :
    (bdrvPread (bdrvPwrite file offset t) offset' : Table m) = bdrvPread file offset' := by
  funext i
  have hout : ¬ (offset ≤ offset' + i.val ∧ offset' + i.val < offset + m) := by omega
  simp only [bdrvPread, bdrvPwrite, dif_neg hout]

end Host

/-- The places of the tables in the file, with the cache that each is requested from. -/
structure Layout (m : Nat) where
  admits : Which → Nat → Prop
  nonzero : ∀ {c offset}, admits c offset → offset ≠ 0
  apart : ∀ {c offset c' offset'}, admits c offset → admits c' offset' → (c, offset) ≠ (c', offset') →
    offset + m ≤ offset' ∨ offset' + m ≤ offset

structure Layout.Key {m : Nat} (L : Layout m) where
  cache : Which
  offset : Nat
  admitted : L.admits cache offset
deriving DecidableEq

section Tables

variable {m : Nat} {size : Which → Nat} (L : Layout m) (blank : Slot size → Bool) (s : Caches m size)

/-- What the caches and the file hold together. An entry is blank from the `qcow2_cache_get_empty` that made it
to the first store. -/
structure Valid : Prop where
  admitted : ∀ slot, (s.entries slot).offset ≠ 0 → L.admits slot.1 (s.entries slot).offset
  distinct : ∀ c i j, (s.entries ⟨c, i⟩).offset = (s.entries ⟨c, j⟩).offset → (s.entries ⟨c, i⟩).offset ≠ 0 → i = j
  dirty : ∀ slot, (s.entries slot).dirty = true → (s.entries slot).offset ≠ 0 ∧ blank slot = false
  clean : ∀ slot, (s.entries slot).dirty = false → (s.entries slot).offset ≠ 0 → blank slot = false →
    (s.entries slot).table = bdrvPread s.file (s.entries slot).offset
  depends : ∀ c d, s.depends c = some d → d ≠ c ∧ s.depends d = none

/-- The contents of a table as the last store left them. -/
def Caches.contents (k : L.Key) : Table m :=
  match lookup s k.cache k.offset with
  | some i => if (s.entries ⟨k.cache, i⟩).dirty then (s.entries ⟨k.cache, i⟩).table else bdrvPread s.file k.offset
  | none => bdrvPread s.file k.offset

variable {L blank s} {t u : Caches m size} {k : L.Key} {c : Which} {offset : Nat}

theorem offset_of_lookup {i : Fin (size c)} (h : lookup s c offset = some i) : (s.entries ⟨c, i⟩).offset = offset := by
  simpa using List.find?_some h

theorem offset_ne_of_lookup (h : lookup s c offset = none) (i : Fin (size c)) : (s.entries ⟨c, i⟩).offset ≠ offset := by
  simpa using List.find?_eq_none.mp h i (List.mem_finRange i)

theorem Valid.lookup_eq (hs : Valid L blank s) {i : Fin (size c)} (h : (s.entries ⟨c, i⟩).offset ≠ 0) :
    lookup s c (s.entries ⟨c, i⟩).offset = some i := by
  cases hl : lookup s c (s.entries ⟨c, i⟩).offset with
  | none => exact absurd rfl (offset_ne_of_lookup hl i)
  | some j => rw [hs.distinct c i j (offset_of_lookup hl).symm h]

theorem Valid.contents_dirty (hs : Valid L blank s) {i : Fin (size k.cache)}
    (ho : (s.entries ⟨k.cache, i⟩).offset = k.offset) (h : (s.entries ⟨k.cache, i⟩).dirty = true) :
    s.contents L k = (s.entries ⟨k.cache, i⟩).table := by
  have hl := hs.lookup_eq (hs.dirty _ h).1
  rw [ho] at hl
  simp only [Caches.contents, hl, h, if_true]

theorem contents_clean (h : ∀ i, (s.entries ⟨k.cache, i⟩).offset = k.offset → (s.entries ⟨k.cache, i⟩).dirty = false) :
    s.contents L k = bdrvPread s.file k.offset := by
  unfold Caches.contents
  cases hl : lookup s k.cache k.offset with
  | none => rfl
  | some i => simp [h i (offset_of_lookup hl)]

/-- A table that is not blank shows its contents. -/
theorem Valid.table_eq (hs : Valid L blank s) {i : Fin (size k.cache)}
    (ho : (s.entries ⟨k.cache, i⟩).offset = k.offset) (hb : blank ⟨k.cache, i⟩ = false) :
    (s.entries ⟨k.cache, i⟩).table = s.contents L k := by
  have hne : (s.entries ⟨k.cache, i⟩).offset ≠ 0 := ho ▸ L.nonzero k.admitted
  cases hd : (s.entries ⟨k.cache, i⟩).dirty with
  | true => exact (hs.contents_dirty ho hd).symm
  | false =>
    rw [hs.clean _ hd hne hb, ho, contents_clean]
    intro j hj
    rw [← hs.distinct k.cache i j (ho.trans hj.symm) hne]
    exact hd

theorem contents_eq_of (hs : Valid L blank s) {blank' : Slot size → Bool} (ht : Valid L blank' t)
    (hdirty : ∀ i, (s.entries ⟨k.cache, i⟩).offset = k.offset → (s.entries ⟨k.cache, i⟩).dirty = true →
      (t.entries ⟨k.cache, i⟩).table = (s.entries ⟨k.cache, i⟩).table ∧
        (t.entries ⟨k.cache, i⟩).offset = k.offset ∧ blank' ⟨k.cache, i⟩ = false)
    (hclean : (∀ i, (s.entries ⟨k.cache, i⟩).offset = k.offset → (s.entries ⟨k.cache, i⟩).dirty = false) →
      t.contents L k = bdrvPread s.file k.offset) :
    t.contents L k = s.contents L k := by
  by_cases h : ∃ i, (s.entries ⟨k.cache, i⟩).offset = k.offset ∧ (s.entries ⟨k.cache, i⟩).dirty = true
  · obtain ⟨i, ho, hd⟩ := h
    obtain ⟨htable, ho', hb⟩ := hdirty i ho hd
    rw [← ht.table_eq ho' hb, htable, hs.contents_dirty ho hd]
  · have hall : ∀ i, (s.entries ⟨k.cache, i⟩).offset = k.offset → (s.entries ⟨k.cache, i⟩).dirty = false := by
      simpa using h
    rw [hclean hall, contents_clean hall]

end Tables

section Flush

variable {m : Nat} {size : Which → Nat} {L : Layout m} {blank : Slot size → Bool} {s t u : Caches m size}

/-- A step that only writes tables back and resolves dependencies. -/
structure Flushed (L : Layout m) (blank : Slot size → Bool) (s t : Caches m size) : Prop where
  valid : Valid L blank t
  entries : ∀ slot, t.entries slot = { s.entries slot with dirty := (t.entries slot).dirty }
  dirty : ∀ slot, (t.entries slot).dirty = true → (s.entries slot).dirty = true
  depends : ∀ c, t.depends c = s.depends c ∨ t.depends c = none
  contents : ∀ k : L.Key, t.contents L k = s.contents L k

theorem Flushed.refl (hs : Valid L blank s) : Flushed L blank s s :=
  ⟨hs, fun _ ↦ rfl, fun _ h ↦ h, fun _ ↦ .inl rfl, fun _ ↦ rfl⟩

theorem Flushed.trans (h : Flushed L blank s t) (h' : Flushed L blank t u) : Flushed L blank s u where
  valid := h'.valid
  entries slot := by
    rw [h'.entries slot, h.entries slot]
  dirty slot hd := h.dirty slot (h'.dirty slot hd)
  depends c := by
    rcases h'.depends c with hu | hu
    · rw [hu]
      exact h.depends c
    · exact .inr hu
  contents k := (h'.contents k).trans (h.contents k)

theorem Flushed.clean (h : Flushed L blank s t) {slot : Slot size} (hd : (s.entries slot).dirty = false) :
    (t.entries slot).dirty = false := by
  cases ht : (t.entries slot).dirty with
  | false => rfl
  | true => exact absurd (h.dirty slot ht) (by simp [hd])

theorem Flushed.depends_none (h : Flushed L blank s t) {c : Which} (hc : s.depends c = none) : t.depends c = none := by
  rcases h.depends c with ht | ht
  · rw [ht, hc]
  · exact ht

theorem writeBack_entries (s : Caches m size) (slot slot' : Slot size) :
    (writeBack s slot).entries slot' =
      { s.entries slot' with dirty := if slot' = slot then false else (s.entries slot').dirty } := by
  by_cases h : slot' = slot
  · subst h
    simp [writeBack, Caches.modify]
  · simp [writeBack, Caches.modify, h]

theorem Valid.apart (hs : Valid L blank s) {slot slot' : Slot size} (h : slot' ≠ slot)
    (ho : (s.entries slot).offset ≠ 0) (ho' : (s.entries slot').offset ≠ 0) :
    (s.entries slot).offset + m ≤ (s.entries slot').offset ∨
      (s.entries slot').offset + m ≤ (s.entries slot).offset := by
  refine L.apart (hs.admitted slot ho) (hs.admitted slot' ho') fun he ↦ h ?_
  obtain ⟨c, i⟩ := slot
  obtain ⟨c', j⟩ := slot'
  obtain ⟨hc, he⟩ := Prod.mk.inj he
  dsimp only at hc he
  subst hc
  rw [hs.distinct c i j he ho]

theorem writeBack_flushed (hs : Valid L blank s) {slot : Slot size} (ho : (s.entries slot).offset ≠ 0)
    (hb : blank slot = false) : Flushed L blank s (writeBack s slot) := by
  have hentries := writeBack_entries s slot
  have hvalid : Valid L blank (writeBack s slot) := by
    refine ⟨fun slot' h ↦ ?_, fun c i j h h' ↦ ?_, fun slot' h ↦ ?_, fun slot' h h' hb' ↦ ?_, hs.depends⟩
    · rw [hentries] at h ⊢
      exact hs.admitted slot' h
    · rw [hentries, hentries] at h
      rw [hentries] at h'
      exact hs.distinct c i j h h'
    · rw [hentries] at h ⊢
      by_cases he : slot' = slot
      · simp [he] at h
      · simp only [he, if_false] at h
        exact hs.dirty slot' h
    · rw [hentries] at h h' ⊢
      by_cases he : slot' = slot
      · subst he
        exact (bdrvPread_bdrvPwrite s.file _ _).symm
      · simp only [he, if_false] at h h' ⊢
        rw [hs.clean slot' h h' hb']
        exact (bdrvPread_bdrvPwrite_of_apart s.file _ (hs.apart he ho h')).symm
  refine ⟨hvalid, fun slot' ↦ ?_, fun slot' h ↦ ?_, fun c ↦ .inl rfl, fun k ↦ ?_⟩
  · rw [hentries]
  · rw [hentries] at h
    by_cases he : slot' = slot
    · simp [he] at h
    · simpa only [he, if_false] using h
  · refine contents_eq_of hs hvalid (fun i hi hd ↦ ?_) fun hall ↦ ?_
    · rw [hentries]
      exact ⟨rfl, hi, (hs.dirty _ hd).2⟩
    · rw [contents_clean]
      · by_cases hk : ∃ i, slot = ⟨k.cache, i⟩ ∧ (s.entries slot).offset = k.offset
        · obtain ⟨i, rfl, hi⟩ := hk
          have htable := hs.clean _ (hall i hi) ho hb
          change bdrvPread (bdrvPwrite s.file _ _) k.offset = _
          rw [hi, bdrvPread_bdrvPwrite, htable, hi]
        · refine bdrvPread_bdrvPwrite_of_apart s.file _ (L.apart (hs.admitted slot ho) k.admitted fun he ↦ hk ?_)
          obtain ⟨c, i⟩ := slot
          obtain ⟨hc, he⟩ := Prod.mk.inj he
          dsimp only at hc he
          subst hc
          exact ⟨i, rfl, he⟩
      · intro i hi
        rw [hentries] at hi ⊢
        simp [hall i hi]

theorem clearDepends_flushed (hs : Valid L blank s) (c : Which) (f : Which → Bool) :
    Flushed L blank s { s with depends := Function.update s.depends c none, dependsOnFlush := f } := by
  refine ⟨⟨hs.admitted, hs.distinct, hs.dirty, hs.clean, fun c' d h ↦ ?_⟩, fun _ ↦ rfl, fun _ h ↦ h, fun c' ↦ ?_,
    fun _ ↦ rfl⟩
  · by_cases hc : c' = c
    · simp [hc] at h
    · dsimp only at h ⊢
      rw [Function.update_of_ne hc] at h
      obtain ⟨hne, hd⟩ := hs.depends c' d h
      refine ⟨hne, ?_⟩
      by_cases hdc : d = c
      · rw [hdc, Function.update_self]
      · rw [Function.update_of_ne hdc, hd]
  · by_cases hc : c' = c
    · exact .inr (by simp [hc])
    · exact .inl (by simp [Function.update_of_ne hc])

theorem noFlushNeeded_flushed (hs : Valid L blank s) (f : Which → Bool) :
    Flushed L blank s { s with dependsOnFlush := f } :=
  ⟨⟨hs.admitted, hs.distinct, hs.dirty, hs.clean, hs.depends⟩, fun _ ↦ rfl, fun _ h ↦ h, fun _ ↦ .inl rfl, fun _ ↦ rfl⟩

section Entries

variable {flush : Which → Caches m size → Except Fault (Caches m size)}

theorem cacheFlushDependency_flushed {c d : Which} (h : flush d s = .ok t) (ht : Flushed L blank s t) :
    ∃ u, cacheFlushDependency s flush c d = .ok u ∧ Flushed L blank s u ∧ u.depends c = none := by
  have hclear := clearDepends_flushed ht.valid c (Function.update t.dependsOnFlush c false)
  refine ⟨_, ?_, ht.trans hclear, Function.update_self _ _ _⟩
  simp only [cacheFlushDependency, h]
  rfl

theorem cacheResolve_flushed (hs : Valid L blank s) (c : Which)
    (hflush : ∀ d, s.depends c = some d → ∃ t, flush d s = .ok t ∧ Flushed L blank s t) :
    ∃ t, cacheResolve s flush c = .ok t ∧ Flushed L blank s t := by
  unfold cacheResolve
  cases hc : s.depends c with
  | none => exact ⟨_, rfl, noFlushNeeded_flushed hs _⟩
  | some d =>
    obtain ⟨t, hdt, ht⟩ := hflush d hc
    obtain ⟨u, hu, hflushed, -⟩ := cacheFlushDependency_flushed (c := c) hdt ht
    exact ⟨u, hu, hflushed⟩

theorem cacheEntryFlush_flushed (hs : Valid L blank s) (slot : Slot size)
    (hflush : ∀ d, s.depends slot.1 = some d → ∃ t, flush d s = .ok t ∧ Flushed L blank s t) :
    ∃ t, cacheEntryFlush s flush slot = .ok t ∧ Flushed L blank s t ∧ (t.entries slot).dirty = false := by
  unfold cacheEntryFlush
  by_cases hd : (s.entries slot).dirty = true
  · obtain ⟨ho, hb⟩ := hs.dirty slot hd
    obtain ⟨t, hresolve, ht⟩ := cacheResolve_flushed hs slot.1 hflush
    have ho' : (t.entries slot).offset ≠ 0 := by
      rw [ht.entries slot]
      exact ho
    refine ⟨writeBack t slot, ?_, ht.trans (writeBack_flushed ht.valid ho' hb), ?_⟩
    · rw [if_neg (by simp [hd, ho]), hresolve]
      rfl
    · rw [writeBack_entries]
      simp
  · rw [Bool.not_eq_true] at hd
    exact ⟨s, if_pos (.inl hd), .refl hs, hd⟩

/-- The loop of `qcow2_cache_flush`. -/
theorem foldlM_cacheEntryFlush (flush : Which → Caches m size → Except Fault (Caches m size)) {c : Which}
    (l : List (Fin (size c))) (hs : Valid L blank s)
    (hflush : ∀ t d, Flushed L blank s t → t.depends c = some d → ∃ u, flush d t = .ok u ∧ Flushed L blank t u) :
    ∃ t, l.foldlM (fun s i ↦ cacheEntryFlush s flush ⟨c, i⟩) s = .ok t ∧ Flushed L blank s t ∧
      ∀ i ∈ l, (t.entries ⟨c, i⟩).dirty = false := by
  induction l generalizing s with
  | nil => exact ⟨s, rfl, .refl hs, by simp⟩
  | cons i l ih =>
    obtain ⟨t, hst, ht, hclean⟩ := cacheEntryFlush_flushed hs ⟨c, i⟩ fun d hd ↦ hflush s d (.refl hs) hd
    obtain ⟨u, htu, hu, hall⟩ := ih ht.valid fun v d hv hd ↦ hflush v d (ht.trans hv) hd
    refine ⟨u, ?_, ht.trans hu, ?_⟩
    · rw [List.foldlM_cons, hst]
      exact htu
    · intro j hj
      rcases List.mem_cons.mp hj with rfl | hj
      · exact hu.clean hclean
      · exact hall j hj

end Entries

/-- A flush succeeds and leaves no entry of its cache dirty. -/
def Flushes (L : Layout m) (blank : Slot size → Bool) (n : Nat) (c : Which) (s : Caches m size) : Prop :=
  ∃ t, cacheFlush n c s = .ok t ∧ Flushed L blank s t ∧ ∀ i, (t.entries ⟨c, i⟩).dirty = false

theorem flushes_succ {n : Nat} {c : Which} (hs : Valid L blank s)
    (hflush : ∀ t d, Flushed L blank s t → t.depends c = some d → Flushes L blank n d t) :
    Flushes L blank (n + 1) c s := by
  obtain ⟨t, hst, ht, hall⟩ : ∃ t, cacheFlushEntries s (cacheFlush n) c = .ok t ∧ Flushed L blank s t ∧
      ∀ i ∈ List.finRange (size c), (t.entries ⟨c, i⟩).dirty = false := by
    refine foldlM_cacheEntryFlush (cacheFlush n) _ hs fun t d ht hd ↦ ?_
    obtain ⟨u, hu, hflushed, -⟩ := hflush t d ht hd
    exact ⟨u, hu, hflushed⟩
  exact ⟨t, hst, ht, fun i ↦ hall i (List.mem_finRange i)⟩

theorem flushes_of_independent {c : Which} (hs : Valid L blank s) (hc : s.depends c = none) (n : Nat) :
    Flushes L blank (n + 1) c s := by
  refine flushes_succ hs fun t d ht hd ↦ ?_
  rw [ht.depends_none hc] at hd
  cases hd

/-- The recursion ends because what a cache depends on is independent. -/
theorem flushes_depth (hs : Valid L blank s) (c : Which) : Flushes L blank depth c s :=
  flushes_succ hs fun _ _ ht hd ↦ flushes_of_independent ht.valid (ht.valid.depends c _ hd).2 0

theorem cacheEntryFlush_ok (hs : Valid L blank s) (slot : Slot size) :
    ∃ t, cacheEntryFlush s (cacheFlush depth) slot = .ok t ∧ Flushed L blank s t ∧ (t.entries slot).dirty = false := by
  refine cacheEntryFlush_flushed hs slot fun d _ ↦ ?_
  obtain ⟨t, ht, hflushed, -⟩ := flushes_depth hs d
  exact ⟨t, ht, hflushed⟩

theorem cacheRelease_ok (hs : Valid L blank s) (c : Which) (keep : Option Which) :
    ∃ t, cacheRelease s c keep = .ok t ∧ Flushed L blank s t ∧ ∀ d, t.depends c = some d → some d = keep := by
  unfold cacheRelease
  cases hc : s.depends c with
  | none => exact ⟨s, rfl, .refl hs, by simp [hc]⟩
  | some d =>
    by_cases hd : some d = keep
    · exact ⟨s, if_pos hd, .refl hs, fun e he ↦ by rw [← hd, ← he, hc]⟩
    · obtain ⟨t, ht, hflushed, -⟩ := flushes_depth hs d
      obtain ⟨u, hu, hflushed', hnone⟩ := cacheFlushDependency_flushed (c := c) ht hflushed
      exact ⟨u, (if_neg hd).trans hu, hflushed', by simp [hnone]⟩

end Flush

end IDeviceEmulator.Qcow2
