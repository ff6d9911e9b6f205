import IDeviceEmulator.Qcow2.Barrier

namespace IDeviceEmulator.Qcow2.Barrier

open Hoare Machine

variable {m : Nat} {size : Which → Nat}

/-- Everything that was owed has been written, and a flush has followed. -/
def Settled (mid : List (Event size)) (owed : Slot size → Option Nat) : Prop :=
  ∃ m₁ m₂, mid = m₁ ++ .flushed :: m₂ ∧ ∀ slot, ∀ offset ∈ owed slot, .wrote slot offset ∈ m₁

/-- No table of a cache is handed to the file before what it had to wait for is settled. -/
def Ordered (log : List (Event size)) : Prop :=
  ∀ pre mid post c owed slot offset, log = pre ++ .barrier c owed :: mid ++ .writing slot offset :: post →
    slot.1 = c → Settled mid owed

/-- The cache still depends on the other one, in which what is owed is dirty or has been written. -/
structure Waits (s : Caches m size) (mid : List (Event size)) (c : Which) (owed : Slot size → Option Nat) :
    Prop where
  depends : s.depends c = some (other c)
  owed : ∀ slot, ∀ offset ∈ owed slot, slot.1 = other c ∧
    (.wrote slot offset ∈ mid ∨ (s.entries slot).dirty = true ∧ (s.entries slot).offset = offset)

/-- Each barrier is settled or waited for. -/
def Owing (s : Caches m size) (log : List (Event size)) : Prop :=
  ∀ pre mid c owed, log = pre ++ .barrier c owed :: mid → Settled mid owed ∨ Waits s mid c owed

def AllSettled (log : List (Event size)) (c : Which) : Prop :=
  ∀ pre mid owed, log = pre ++ .barrier c owed :: mid → Settled mid owed

/-- At most one of the caches depends on the other one. -/
def OneWay (s : Caches m size) : Prop := ∀ c d, s.depends c = some d → d = other c ∧ s.depends d = none

/-- Tables that are dirty or held have a place in the file. -/
structure Placed (s : Caches m size) : Prop where
  dirty : ∀ slot, (s.entries slot).dirty = true → (s.entries slot).offset ≠ 0
  held : ∀ slot, (s.entries slot).ref ≠ 0 → (s.entries slot).offset ≠ 0

structure Sound (w : Journal m size) : Prop where
  oneWay : OneWay w.caches
  placed : Placed w.caches
  ordered : Ordered w.log
  owing : Owing w.caches w.log

section Logs

variable {s s' : Caches m size} {log mid : List (Event size)} {c : Which} {owed : Slot size → Option Nat}
  {e : Event size}

theorem Settled.snoc (h : Settled mid owed) (e : Event size) : Settled (mid ++ [e]) owed := by
  obtain ⟨m₁, m₂, rfl, hw⟩ := h
  exact ⟨m₁, m₂ ++ [e], by simp, hw⟩

theorem snoc_eq_of_ne {pre : List (Event size)} (h : log ++ [e] = pre ++ .barrier c owed :: mid)
    (he : e ≠ .barrier c owed) : ∃ mid', mid = mid' ++ [e] ∧ log = pre ++ .barrier c owed :: mid' := by
  rcases List.eq_nil_or_concat' mid with rfl | ⟨mid', e', rfl⟩
  · obtain ⟨-, hlast⟩ := List.append_inj' h rfl
    exact absurd (List.cons.inj hlast).1 he
  · rw [← List.cons_append, ← List.append_assoc] at h
    obtain ⟨hlog, hlast⟩ := List.append_inj' h rfl
    obtain ⟨rfl, -⟩ := List.cons.inj hlast
    exact ⟨mid', rfl, hlog⟩

/-- When the log grows by another event than a barrier, it is enough to look at those who wait. -/
theorem Owing.snoc (h : Owing s log) (hne : ∀ c owed, e ≠ .barrier c owed)
    (hwaits : ∀ mid c owed, Waits s mid c owed → Settled (mid ++ [e]) owed ∨ Waits s' (mid ++ [e]) c owed) :
    Owing s' (log ++ [e]) := by
  intro pre mid c owed hlog
  obtain ⟨mid', rfl, hlog'⟩ := snoc_eq_of_ne hlog (hne c owed)
  rcases h pre mid' c owed hlog' with hs | hw
  · exact .inl (hs.snoc e)
  · exact hwaits mid' c owed hw

theorem Waits.snoc (h : Waits s mid c owed) (e : Event size) : Waits s (mid ++ [e]) c owed := by
  refine ⟨h.depends, fun slot offset ho ↦ ?_⟩
  obtain ⟨hc, hw⟩ := h.owed slot offset ho
  exact ⟨hc, hw.imp_left (List.mem_append_left [e])⟩

theorem Ordered.snoc (h : Ordered log) (he : ∀ slot offset, e = .writing slot offset → AllSettled log slot.1) :
    Ordered (log ++ [e]) := by
  intro pre mid post c owed slot offset hlog hc
  rcases List.eq_nil_or_concat' post with rfl | ⟨post', e', rfl⟩
  · obtain ⟨hpre, hlast⟩ := List.append_inj' hlog rfl
    obtain ⟨rfl, -⟩ := List.cons.inj hlast
    subst hc
    exact he slot offset rfl pre mid owed hpre
  · rw [← List.cons_append, ← List.append_assoc] at hlog
    obtain ⟨hpre, -⟩ := List.append_inj' hlog rfl
    exact h pre mid post' c owed slot offset hpre hc

theorem Owing.allSettled (h : Owing s log) (hc : s.depends c = none) : AllSettled log c := by
  intro pre mid owed hlog
  rcases h pre mid c owed hlog with hs | hw
  · exact hs
  · exact absurd (hw.depends.symm.trans hc) (by simp)

/-- Whoever waits goes on waiting when its dependency and the dirty tables stay. -/
theorem Owing.mono (h : Owing s log) (hdepends : ∀ c d, s.depends c = some d → s'.depends c = some d)
    (hdirty : ∀ slot, (s.entries slot).dirty = true →
      (s'.entries slot).dirty = true ∧ (s'.entries slot).offset = (s.entries slot).offset) : Owing s' log := by
  intro pre mid c owed hlog
  refine (h pre mid c owed hlog).imp_right fun hw ↦ ⟨hdepends c _ hw.depends, fun slot offset ho ↦ ?_⟩
  obtain ⟨hc, hw⟩ := hw.owed slot offset ho
  refine ⟨hc, hw.imp_right fun ⟨hd, hoff⟩ ↦ ?_⟩
  exact ⟨(hdirty slot hd).1, (hdirty slot hd).2.trans hoff⟩

end Logs

/-- A sound state in which tables are held so often, some are clean and some caches depend on none. -/
structure Inv (refs : Slot size → Nat) (clean : Slot size → Prop) (free : Which → Prop) (w : Journal m size) : Prop
    extends Sound w where
  isClean : ∀ slot, clean slot → (w.caches.entries slot).dirty = false
  isFree : ∀ c, free c → w.caches.depends c = none
  ref_eq : ∀ slot, (w.caches.entries slot).ref = refs slot

/-- The function returns a negative value in such a state. -/
def Fails (I : Journal m size → Prop) (e : Stop) (w : Journal m size) : Prop := (∃ errno, e = .failed errno) ∧ I w

section Specs

variable {refs : Slot size → Nat} {clean : Slot size → Prop} {free : Which → Prop} {w : Journal m size}

theorem hostCall_of_none (h : w.host w.calls = none) : hostCall w = .ok () { w with calls := w.calls + 1 } := by
  rw [hostCall, h]

theorem hostCall_of_some {errno : Errno} (h : w.host w.calls = some errno) :
    hostCall w = .error (.failed errno) { w with calls := w.calls + 1 } := by
  rw [hostCall, h]

theorem bdrvFlush_of_none (h : w.host w.calls = none) :
    bdrvFlush w = .ok () { w with calls := w.calls + 1, log := w.log ++ [.flushed] } := by
  change EStateM.bind hostCall _ w = _
  rw [EStateM.bind, hostCall_of_none h]
  rfl

theorem bdrvFlush_of_some {errno : Errno} (h : w.host w.calls = some errno) :
    bdrvFlush w = .error (.failed errno) { w with calls := w.calls + 1 } := by
  change EStateM.bind hostCall _ w = _
  rw [EStateM.bind, hostCall_of_some h]

theorem Inv.flushed (h : Inv refs clean free w) (n : Nat) :
    Inv refs clean free { w with calls := n, log := w.log ++ [.flushed] } := by
  refine ⟨⟨h.oneWay, h.placed, h.ordered.snoc ?_, h.owing.snoc ?_ ?_⟩, h.isClean, h.isFree, h.ref_eq⟩
  · intro slot offset he
    cases he
  · intro c owed he
    cases he
  · exact fun mid c owed hw ↦ .inr (hw.snoc .flushed)

theorem Inv.calls (h : Inv refs clean free w) (n : Nat) : Inv refs clean free { w with calls := n } :=
  ⟨⟨h.oneWay, h.placed, h.ordered, h.owing⟩, h.isClean, h.isFree, h.ref_eq⟩

/-- When nothing of a cache is dirty, a flush settles what waits for the cache. -/
theorem Inv.allSettled_flushed (h : Inv refs clean free w) {d : Which}
    (hd : ∀ slot : Slot size, slot.1 = d → clean slot) :
    AllSettled (w.log ++ [.flushed]) (other d) := by
  intro pre mid owed hlog
  obtain ⟨mid', rfl, hlog'⟩ := snoc_eq_of_ne hlog (by simp)
  rcases h.owing pre mid' (other d) owed hlog' with hs | hw
  · exact hs.snoc _
  · refine ⟨mid', [], rfl, fun slot offset ho ↦ ?_⟩
    obtain ⟨hc, hw⟩ := hw.owed slot offset ho
    have hslot : slot.1 = d := by
      rw [hc]
      cases d <;> rfl
    rcases hw with hw | ⟨hdirty, -⟩
    · exact hw
    · rw [h.isClean slot (hd slot hslot)] at hdirty
      cases hdirty

theorem spec_bdrvFlush :
    Triple (Inv refs clean free) (bdrvFlush : Act m size Unit) (fun _ ↦ Inv refs clean free)
      (Fails (Inv refs clean free)) := by
  intro w h
  cases hh : w.host w.calls with
  | none =>
    rw [bdrvFlush_of_none hh]
    exact h.flushed _
  | some errno =>
    rw [bdrvFlush_of_some hh]
    exact ⟨⟨errno, rfl⟩, h.calls _⟩

theorem writeTable_of_none {slot : Slot size} (h : w.host w.calls = none) :
    writeTable slot w = .ok () { w with
      caches := writeBack w.caches slot
      calls := w.calls + 1
      log := w.log ++ [.writing slot (w.caches.entries slot).offset] ++
        [.wrote slot (w.caches.entries slot).offset] } := by
  have hcall : hostCall { w with log := w.log ++ [.writing slot (w.caches.entries slot).offset] } = .ok () _ :=
    hostCall_of_none h
  change EStateM.bind hostCall _ { w with log := w.log ++ [.writing slot (w.caches.entries slot).offset] } = _
  rw [EStateM.bind, hcall]
  rfl

theorem writeTable_of_some {slot : Slot size} {errno : Errno} (h : w.host w.calls = some errno) :
    writeTable slot w = .error (.failed errno) { w with
      calls := w.calls + 1
      log := w.log ++ [.writing slot (w.caches.entries slot).offset] } := by
  have hcall : hostCall { w with log := w.log ++ [.writing slot (w.caches.entries slot).offset] } =
      .error (.failed errno) _ := hostCall_of_some h
  change EStateM.bind hostCall _ { w with log := w.log ++ [.writing slot (w.caches.entries slot).offset] } = _
  rw [EStateM.bind, hcall]

/-- A cache that depends on none may write. -/
theorem Inv.writing (h : Inv refs clean free w) {slot : Slot size} (hd : w.caches.depends slot.1 = none)
    (n offset : Nat) :
    Inv refs clean free { w with calls := n, log := w.log ++ [.writing slot offset] } := by
  refine ⟨⟨h.oneWay, h.placed, h.ordered.snoc ?_, h.owing.snoc ?_ ?_⟩, h.isClean, h.isFree, h.ref_eq⟩
  · intro slot' offset' he
    cases he
    exact h.owing.allSettled hd
  · intro c owed he
    cases he
  · exact fun mid c owed hw ↦ .inr (hw.snoc _)

theorem writeBack_entries_self (s : Caches m size) (slot : Slot size) :
    (writeBack s slot).entries slot = { s.entries slot with dirty := false } := Function.update_self ..

theorem writeBack_entries_of_ne (s : Caches m size) {slot slot' : Slot size} (h : slot' ≠ slot) :
    (writeBack s slot).entries slot' = s.entries slot' := Function.update_of_ne h ..

/-- A table that was written is clean, and what waits for it sees it in the log. -/
theorem Inv.wrote (h : Inv refs clean free w) (slot : Slot size) :
    Inv refs (fun slot' ↦ slot' = slot ∨ clean slot') free { w with
      caches := writeBack w.caches slot
      log := w.log ++ [.wrote slot (w.caches.entries slot).offset] } := by
  have hentry : ∀ slot', ((writeBack w.caches slot).entries slot').offset = (w.caches.entries slot').offset ∧
      ((writeBack w.caches slot).entries slot').ref = (w.caches.entries slot').ref ∧
      (((writeBack w.caches slot).entries slot').dirty = true ↔
        slot' ≠ slot ∧ (w.caches.entries slot').dirty = true) := by
    intro slot'
    by_cases hs : slot' = slot
    · subst hs
      simp [writeBack_entries_self]
    · simp [writeBack_entries_of_ne _ hs, hs]
  refine ⟨⟨h.oneWay, ⟨?_, ?_⟩, h.ordered.snoc ?_, h.owing.snoc ?_ ?_⟩, ?_, h.isFree, ?_⟩
  · intro slot' hd
    rw [(hentry slot').1]
    exact h.placed.dirty slot' ((hentry slot').2.2.mp hd).2
  · intro slot' hr
    rw [(hentry slot').1]
    rw [(hentry slot').2.1] at hr
    exact h.placed.held slot' hr
  · intro slot' offset he
    cases he
  · intro c owed he
    cases he
  · intro mid c owed hw
    refine .inr ⟨hw.depends, fun slot' offset ho ↦ ?_⟩
    obtain ⟨hc, hw⟩ := hw.owed slot' offset ho
    refine ⟨hc, ?_⟩
    rcases hw with hw | ⟨hd, hoff⟩
    · exact .inl (List.mem_append_left _ hw)
    · by_cases hs : slot' = slot
      · subst hs hoff
        exact .inl (by simp)
      · exact .inr ⟨(hentry slot').2.2.mpr ⟨hs, hd⟩, (hentry slot').1.trans hoff⟩
  · intro slot' hc
    rw [Bool.eq_false_iff, ne_eq, (hentry slot').2.2]
    rintro ⟨hne, hd⟩
    rcases hc with hs | hc
    · exact hne hs
    · rw [h.isClean slot' hc] at hd
      cases hd
  · exact fun slot' ↦ (hentry slot').2.1.trans (h.ref_eq slot')

theorem spec_writeTable (slot : Slot size) :
    Triple (fun w ↦ Inv refs clean free w ∧ w.caches.depends slot.1 = none) (writeTable slot : Act m size Unit)
      (fun _ ↦ Inv refs (fun slot' ↦ slot' = slot ∨ clean slot') free) (Fails (Inv refs clean free)) := by
  intro w ⟨h, hd⟩
  cases hh : w.host w.calls with
  | none =>
    rw [writeTable_of_none hh]
    exact (h.writing hd (w.calls + 1) _).wrote slot
  | some errno =>
    rw [writeTable_of_some hh]
    exact ⟨⟨errno, rfl⟩, h.writing hd _ _⟩

theorem triple_modifyCaches {P : Journal m size → Prop} {Q : Unit → Journal m size → Prop}
    {E : Stop → Journal m size → Prop} {f : Caches m size → Caches m size}
    (h : ∀ w, P w → Q () { w with caches := f w.caches }) : Triple P (modifyCaches f) Q E := h

theorem triple_getCaches {α : Type} {P : Journal m size → Prop} {Q : α → Journal m size → Prop}
    {E : Stop → Journal m size → Prop} {f : Caches m size → Act m size α}
    (h : ∀ s, Triple (fun w ↦ P w ∧ w.caches = s) (f s) Q E) : Triple P (getCaches >>= f) Q E :=
  fun w hw ↦ h w.caches w ⟨hw, rfl⟩

theorem Inv.weaken {clean' : Slot size → Prop} {free' : Which → Prop} (h : Inv refs clean free w)
    (hclean : ∀ slot, clean' slot → clean slot) (hfree : ∀ c, free' c → free c) : Inv refs clean' free' w :=
  ⟨h.toSound, fun slot hs ↦ h.isClean slot (hclean slot hs), fun c hc ↦ h.isFree c (hfree c hc), h.ref_eq⟩

theorem Inv.not_both (h : Inv refs clean free w) {c d : Which} (hc : w.caches.depends c = some d) :
    d = other c ∧ w.caches.depends d = none := h.oneWay c d hc

/-- What is settled need not be waited for. -/
theorem Inv.clearDepends (h : Inv refs clean free w) {c : Which} (hc : AllSettled w.log c) (f : Which → Bool) :
    Inv refs clean (fun c' ↦ c' = c ∨ free c') { w with
      caches := { w.caches with depends := Function.update w.caches.depends c none, dependsOnFlush := f } } := by
  refine ⟨⟨?_, ⟨h.placed.dirty, h.placed.held⟩, h.ordered, ?_⟩, h.isClean, ?_, h.ref_eq⟩
  · intro a b hab
    by_cases ha : a = c
    · subst ha
      simp at hab
    · simp only [Function.update_of_ne ha] at hab
      obtain ⟨hb, hnone⟩ := h.oneWay a b hab
      refine ⟨hb, ?_⟩
      by_cases hbc : b = c
      · subst hbc
        exact Function.update_self ..
      · simp only [Function.update_of_ne hbc]
        exact hnone
  · intro pre mid a owed hlog
    by_cases ha : a = c
    · subst ha
      exact .inl (hc pre mid owed hlog)
    · refine (h.owing pre mid a owed hlog).imp_right fun hw ↦ ⟨?_, hw.owed⟩
      simp only [Function.update_of_ne ha]
      exact hw.depends
  · intro a ha
    by_cases hac : a = c
    · subst hac
      exact Function.update_self ..
    · simp only [Function.update_of_ne hac]
      exact h.isFree a (ha.resolve_left hac)

theorem Inv.noFlushNeeded (h : Inv refs clean free w) (f : Which → Bool) :
    Inv refs clean free { w with caches := { w.caches with dependsOnFlush := f } } :=
  ⟨⟨h.oneWay, ⟨h.placed.dirty, h.placed.held⟩, h.ordered, h.owing.mono (fun _ _ hd ↦ hd) fun _ hd ↦ ⟨hd, rfl⟩⟩,
    h.isClean, h.isFree, h.ref_eq⟩

theorem Inv.addFree (h : Inv refs clean free w) {c : Which} (hc : w.caches.depends c = none) :
    Inv refs clean (fun c' ↦ c' = c ∨ free c') w := by
  refine ⟨h.toSound, h.isClean, ?_, h.ref_eq⟩
  rintro c' (rfl | hf)
  · exact hc
  · exact h.isFree c' hf

theorem Inv.addClean (h : Inv refs clean free w) {slot : Slot size} (hs : (w.caches.entries slot).dirty = false) :
    Inv refs (fun slot' ↦ slot' = slot ∨ clean slot') free w := by
  refine ⟨h.toSound, ?_, h.isFree, h.ref_eq⟩
  rintro slot' (rfl | hc)
  · exact hs
  · exact h.isClean slot' hc

theorem Fails.weaken {I J : Journal m size → Prop} {e : Stop} (h : Fails I e w) (hIJ : I w → J w) : Fails J e w :=
  ⟨h.1, hIJ h.2⟩

/-- A cache that depends on none is flushed, and what waited for it is settled. -/
def FlushesFree (flush : Which → Act m size Unit) : Prop :=
  ∀ (d : Which) (refs : Slot size → Nat) (clean : Slot size → Prop) (free : Which → Prop), free d →
    Triple (Inv refs clean free) (flush d) (fun _ w ↦ Inv refs clean free w ∧ AllSettled w.log (other d))
      (Fails (Inv refs clean free))

variable {flush : Which → Act m size Unit}

theorem other_other (c : Which) : other (other c) = c := by
  cases c <;> rfl

theorem spec_cacheFlushDependency (hflush : FlushesFree flush) (c d : Which) :
    Triple (fun w ↦ Inv refs clean free w ∧ w.caches.depends c = some d) (cacheFlushDependency flush c d)
      (fun _ ↦ Inv refs clean fun c' ↦ c' = c ∨ free c') (Fails (Inv refs clean free)) := by
  apply triple_of_forall
  intro w ⟨h, hc⟩
  obtain ⟨rfl, hd⟩ := h.not_both hc
  have hinner := hflush (other c) refs clean (fun c' ↦ c' = other c ∨ free c') (.inl rfl)
  rw [other_other] at hinner
  refine Triple.bind (hinner.weaken ?_ (fun _ _ hq ↦ hq) ?_) fun _ ↦ triple_modifyCaches ?_
  · rintro _ rfl
    exact h.addFree hd
  · exact fun _ _ he ↦ he.weaken fun h ↦ h.weaken (fun _ hs ↦ hs) fun _ hf ↦ .inr hf
  · intro w ⟨h, hsettled⟩
    refine (h.clearDepends hsettled _).weaken (fun _ hs ↦ hs) ?_
    rintro c' (rfl | hf)
    · exact .inl rfl
    · exact .inr (.inr hf)

theorem spec_resolve {c : Which} (hflush : free c ∨ FlushesFree flush) (s : Caches m size) :
    Triple (fun w ↦ Inv refs clean free w ∧ w.caches = s) (resolve flush s c)
      (fun _ ↦ Inv refs clean fun c' ↦ c' = c ∨ free c') (Fails (Inv refs clean free)) := by
  unfold resolve
  cases hc : s.depends c with
  | some d =>
    refine triple_of_forall ?_
    rintro w ⟨h, rfl⟩
    rcases hflush with hfree | hflush
    · rw [h.isFree c hfree] at hc
      cases hc
    · refine (spec_cacheFlushDependency hflush c d).strengthen ?_
      rintro _ rfl
      exact ⟨h, hc⟩
  | none =>
    have hstart : ∀ w, Inv refs clean free w ∧ w.caches = s → Inv refs clean (fun c' ↦ c' = c ∨ free c') w := by
      rintro w ⟨h, rfl⟩
      exact h.addFree hc
    dsimp only
    split_ifs
    · refine Triple.bind (spec_bdrvFlush.weaken hstart (fun _ _ hq ↦ hq) ?_) fun _ ↦ triple_modifyCaches ?_
      · exact fun _ _ he ↦ he.weaken fun h ↦ h.weaken (fun _ hs ↦ hs) fun _ hf ↦ .inr hf
      · exact fun w h ↦ h.noFlushNeeded _
    · exact triple_pure hstart

theorem spec_cacheEntryFlush {slot : Slot size} (hflush : free slot.1 ∨ FlushesFree flush) :
    Triple (Inv refs clean free) (cacheEntryFlush flush slot)
      (fun _ ↦ Inv refs (fun slot' ↦ slot' = slot ∨ clean slot') free) (Fails (Inv refs clean free)) := by
  refine triple_getCaches fun s ↦ triple_ite ?_ ?_
  · intro hskip
    apply triple_pure
    rintro w ⟨h, rfl⟩
    apply h.addClean
    rcases hskip with hclean | hnone
    · exact hclean
    · rw [Bool.eq_false_iff]
      intro hd
      exact h.placed.dirty slot hd hnone
  · intro _
    have hwrite : Triple (fun w ↦ Inv refs clean (fun c ↦ c = slot.1 ∨ free c) w ∧ w.caches.depends slot.1 = none)
        (writeTable slot : Act m size Unit) _ _ := spec_writeTable slot
    refine Triple.bind (spec_resolve hflush s) fun _ ↦ hwrite.weaken ?_ ?_ ?_
    · exact fun w h ↦ ⟨h, h.isFree slot.1 (.inl rfl)⟩
    · exact fun _ w h ↦ h.weaken (fun _ hs ↦ hs) fun _ hf ↦ .inr hf
    · exact fun _ _ he ↦ he.weaken fun h ↦ h.weaken (fun _ hs ↦ hs) fun _ hf ↦ .inr hf

theorem spec_attempt {P I : Journal m size → Prop} {Q : Unit → Journal m size → Prop} {x : Act m size Unit}
    (h : Triple P x Q (Fails I)) :
    Triple P (attempt x) (fun r w ↦ (r = none → Q () w) ∧ (r ≠ none → I w)) fun _ _ ↦ False := by
  intro w hw
  unfold attempt
  cases hx : x w with
  | ok a t => exact ⟨fun _ ↦ h.ok hw hx, fun hne ↦ absurd rfl hne⟩
  | error e t =>
    obtain ⟨⟨errno, rfl⟩, hi⟩ := h.error hw hx
    refine ⟨fun hn ↦ ?_, fun _ ↦ hi⟩
    cases hn

theorem combine_eq_none {result ret : Option Errno} (h : combine result ret = none) : result = none ∧ ret = none := by
  cases ret with
  | none => exact ⟨h, rfl⟩
  | some errno =>
    simp only [combine] at h
    split_ifs at h with hspace
    rw [hspace] at h
    cases h

/-- The loop reports no failure only if it has left every entry clean. -/
theorem spec_flushLoop {c : Which} (hflush : free c ∨ FlushesFree flush) (is : List (Fin (size c)))
    (result : Option Errno) :
    Triple (Inv refs clean free) (flushLoop flush c is result)
      (fun r w ↦ Inv refs clean free w ∧
        (r = none → result = none ∧ Inv refs (fun slot ↦ (∃ i ∈ is, slot = ⟨c, i⟩) ∨ clean slot) free w))
      fun _ _ ↦ False := by
  induction is generalizing clean result with
  | nil =>
    apply triple_pure
    intro w h
    refine ⟨h, fun hr ↦ ⟨hr, h.weaken ?_ fun _ hf ↦ hf⟩⟩
    rintro slot (⟨i, hi, -⟩ | hs)
    · cases hi
    · exact hs
  | cons i is ih =>
    refine Triple.bind (spec_attempt (spec_cacheEntryFlush hflush)) fun ret ↦ ?_
    cases ret with
    | none =>
      refine (ih result).weaken (fun w h ↦ h.1 rfl) ?_ fun _ _ he ↦ he
      intro r w ⟨h, hr⟩
      refine ⟨h.weaken (fun _ hs ↦ .inr hs) fun _ hf ↦ hf, fun hn ↦ ⟨(hr hn).1, ?_⟩⟩
      refine (hr hn).2.weaken ?_ fun _ hf ↦ hf
      rintro slot (⟨j, hj, rfl⟩ | hs)
      · rcases List.mem_cons.mp hj with rfl | hj
        · exact .inr (.inl rfl)
        · exact .inl ⟨j, hj, rfl⟩
      · exact .inr (.inr hs)
    | some errno =>
      refine (ih (combine result (some errno))).weaken (fun w h ↦ h.2 (by simp)) ?_ fun _ _ he ↦ he
      intro r w ⟨h, hr⟩
      refine ⟨h, fun hn ↦ ?_⟩
      have hnone := combine_eq_none (hr hn).1
      cases hnone.2

theorem spec_bdrvFlush_settles {d : Which} (hd : ∀ slot : Slot size, slot.1 = d → clean slot) :
    Triple (Inv refs clean free) (bdrvFlush : Act m size Unit)
      (fun _ w ↦ Inv refs clean free w ∧ AllSettled w.log (other d)) (Fails (Inv refs clean free)) := by
  intro w h
  cases hh : w.host w.calls with
  | none =>
    rw [bdrvFlush_of_none hh]
    exact ⟨h.flushed _, h.allSettled_flushed hd⟩
  | some errno =>
    rw [bdrvFlush_of_some hh]
    exact ⟨⟨errno, rfl⟩, h.calls _⟩

theorem spec_cacheFlush_succ {c : Which} {n : Nat}
    (hflush : free c ∨ FlushesFree (cacheFlush n : Which → Act m size Unit)) :
    Triple (Inv refs clean free) (cacheFlush (n + 1) c : Act m size Unit)
      (fun _ w ↦ Inv refs clean free w ∧ AllSettled w.log (other c)) (Fails (Inv refs clean free)) := by
  refine Triple.bind ((spec_flushLoop hflush _ none).weaken (fun _ h ↦ h) (fun _ _ hq ↦ hq)
    fun _ _ he ↦ he.elim) fun result ↦ ?_
  cases result with
  | none =>
    have hall : ∀ slot : Slot size, slot.1 = c → (∃ i ∈ List.finRange (size c), slot = ⟨c, i⟩) ∨ clean slot := by
      rintro ⟨_, i⟩ rfl
      exact .inl ⟨i, List.mem_finRange i, rfl⟩
    refine (spec_bdrvFlush_settles hall).weaken (fun w h ↦ (h.2 rfl).2) ?_ ?_
    · exact fun _ w h ↦ ⟨h.1.weaken (fun _ hs ↦ .inr hs) fun _ hf ↦ hf, h.2⟩
    · exact fun _ _ he ↦ he.weaken fun h ↦ h.weaken (fun _ hs ↦ .inr hs) fun _ hf ↦ hf
  | some errno => exact triple_throw fun w h ↦ ⟨⟨errno, rfl⟩, h.1⟩

theorem flushesFree_cacheFlush (n : Nat) : FlushesFree (cacheFlush (n + 1) : Which → Act m size Unit) :=
  fun _ _ _ _ hd ↦ spec_cacheFlush_succ (.inl hd)

/-- The dependencies between the caches go one level deep, so the recursion ends. -/
theorem spec_cacheFlush (c : Which) :
    Triple (Inv refs clean free) (cacheFlush depth c : Act m size Unit) (fun _ ↦ Inv refs clean free)
      (Fails (Inv refs clean free)) :=
  (spec_cacheFlush_succ (.inr (flushesFree_cacheFlush 0))).weaken (fun _ h ↦ h) (fun _ _ hq ↦ hq.1) fun _ _ he ↦ he

/-- A function that returns a negative value leaves a sound state; one that does not return
stops for another reason than that a flush leads back to itself. -/
def Stops (e : Stop) (w : Journal m size) : Prop :=
  (∃ errno, e = .failed errno ∧ Sound w) ∨ ∃ f, e = .fault f ∧ f ≠ .diverges

def Keeps (x : Act m size Unit) : Prop := Triple Sound x (fun _ ↦ Sound) Stops

theorem Sound.inv (h : Sound w) :
    Inv (fun slot ↦ (w.caches.entries slot).ref) (fun _ ↦ False) (fun _ ↦ False) w :=
  ⟨h, fun _ hs ↦ hs.elim, fun _ hc ↦ hc.elim, fun _ ↦ rfl⟩

theorem Fails.keeps {I : Journal m size → Prop} {e : Stop} (h : Fails I e w) (hI : I w → Sound w) : Stops e w := by
  obtain ⟨⟨errno, rfl⟩, hi⟩ := h
  exact .inl ⟨errno, rfl, hI hi⟩

theorem keeps_fault {f : Fault} (hf : f ≠ .diverges) : Keeps (throw (.fault f) : Act m size Unit) :=
  triple_throw fun _ _ ↦ .inr ⟨f, rfl, hf⟩

/-- What keeps sound whatever is held, keeps sound. -/
theorem keeps_of_inv {x : Act m size Unit} {clean : Slot size → Prop}
    (h : ∀ refs, Triple (Inv refs (fun _ ↦ False) fun _ ↦ False) x (fun _ ↦ Inv refs clean fun _ ↦ False)
      (Fails (Inv refs (fun _ ↦ False) fun _ ↦ False))) : Keeps x := by
  apply triple_of_forall
  intro w hw
  refine (h fun slot ↦ (w.caches.entries slot).ref).weaken ?_ (fun _ _ hq ↦ hq.toSound)
    fun _ _ he ↦ he.keeps Inv.toSound
  rintro _ rfl
  exact hw.inv

theorem keeps_cacheFlush (c : Which) : Keeps (cacheFlush depth c : Act m size Unit) :=
  keeps_of_inv fun _ ↦ spec_cacheFlush c

theorem keeps_cacheEntryFlush (slot : Slot size) :
    Keeps (cacheEntryFlush (cacheFlush depth) slot : Act m size Unit) :=
  keeps_of_inv fun _ ↦ spec_cacheEntryFlush (.inr (flushesFree_cacheFlush 1))

/-- What users do to one entry: its place in the file stays if it is dirty, and stays dirty. -/
theorem Sound.modify (h : Sound w) {slot : Slot size} {f : CachedTable m → CachedTable m}
    (hdirty : (w.caches.entries slot).dirty = true →
      (f (w.caches.entries slot)).dirty = true ∧
        (f (w.caches.entries slot)).offset = (w.caches.entries slot).offset)
    (hplaced : (f (w.caches.entries slot)).dirty = true ∨ (f (w.caches.entries slot)).ref ≠ 0 →
      (f (w.caches.entries slot)).offset ≠ 0) : Sound { w with caches := w.caches.modify slot f } := by
  have hself : (w.caches.modify slot f).entries slot = f (w.caches.entries slot) := Function.update_self ..
  have hother : ∀ slot' ≠ slot, (w.caches.modify slot f).entries slot' = w.caches.entries slot' :=
    fun slot' hs ↦ Function.update_of_ne hs ..
  refine ⟨h.oneWay, ⟨?_, ?_⟩, h.ordered, h.owing.mono (fun _ _ hd ↦ hd) ?_⟩
  · intro slot' hd
    by_cases hs : slot' = slot
    · subst hs
      rw [hself] at hd ⊢
      exact hplaced (.inl hd)
    · rw [hother slot' hs] at hd ⊢
      exact h.placed.dirty slot' hd
  · intro slot' hr
    by_cases hs : slot' = slot
    · subst hs
      rw [hself] at hr ⊢
      exact hplaced (.inr hr)
    · rw [hother slot' hs] at hr ⊢
      exact h.placed.held slot' hr
  · intro slot' hd
    by_cases hs : slot' = slot
    · subst hs
      rw [hself]
      exact hdirty hd
    · rw [hother slot' hs]
      exact ⟨hd, rfl⟩

theorem keeps_cachePut (slot : Slot size) : Keeps (cachePut slot : Act m size Unit) := by
  refine triple_getCaches fun s ↦ triple_ite (fun _ ↦ ?_) fun hheld ↦ ?_
  · exact (keeps_fault (by decide)).strengthen fun _ h ↦ h.1
  · have hput : Triple (fun w : Journal m size ↦ Sound w ∧ w.caches = s)
        (modifyCaches fun s ↦ s.modify slot fun e ↦ { e with ref := e.ref - 1 }) (fun _ ↦ Sound) Stops := by
      apply triple_modifyCaches
      rintro w ⟨h, rfl⟩
      exact h.modify (fun hd ↦ ⟨hd, rfl⟩) fun _ ↦ h.placed.held slot hheld
    refine Triple.bind hput fun _ ↦ triple_ite (fun _ ↦ keeps_cacheEntryFlush slot) fun _ ↦ ?_
    exact triple_pure fun _ h ↦ h

theorem keeps_cacheEntryMarkDirty (slot : Slot size) (t : Table m) : Keeps (cacheEntryMarkDirty slot t) := by
  refine triple_getCaches fun s ↦ triple_ite (fun _ ↦ ?_) fun hheld ↦ triple_modifyCaches ?_
  · exact (keeps_fault (by decide)).strengthen fun _ h ↦ h.1
  · rintro w ⟨h, rfl⟩
    exact h.modify (fun _ ↦ ⟨rfl, rfl⟩) fun _ ↦ h.placed.held slot hheld

theorem keeps_hold (slot : Slot size) :
    Triple (fun w : Journal m size ↦ Sound w ∧ (w.caches.entries slot).offset ≠ 0) (hold slot)
      (fun _ ↦ Sound) Stops := by
  refine triple_getCaches fun s ↦ triple_ite (fun _ ↦ ?_) fun _ ↦ triple_modifyCaches ?_
  · exact (keeps_fault (by decide)).strengthen fun _ h ↦ h.1.1
  · rintro w ⟨⟨h, hoffset⟩, -⟩
    exact h.modify (fun hd ↦ ⟨hd, rfl⟩) fun _ ↦ hoffset

/-- A slot that nobody holds and whose table is clean. -/
structure Vacant (slot : Slot size) (w : Journal m size) : Prop where
  sound : Sound w
  clean : (w.caches.entries slot).dirty = false
  idle : (w.caches.entries slot).ref = 0

theorem Vacant.modify {slot : Slot size} (h : Vacant slot w) {f : CachedTable m → CachedTable m}
    (hf : ∀ e, (f e).dirty = e.dirty ∧ (f e).ref = e.ref) :
    Vacant slot { w with caches := w.caches.modify slot f } := by
  obtain ⟨hfd, hfr⟩ := hf (w.caches.entries slot)
  rw [h.clean] at hfd
  rw [h.idle] at hfr
  have hself : (w.caches.modify slot f).entries slot = f (w.caches.entries slot) := Function.update_self ..
  refine ⟨h.sound.modify (fun hd ↦ ?_) fun hd ↦ ?_, ?_, ?_⟩
  · rw [h.clean] at hd
    cases hd
  · rw [hfd, hfr] at hd
    simp at hd
  · rw [hself, hfd]
  · rw [hself, hfr]

theorem spec_fetch (slot : Slot size) (readFromDisk : Bool) :
    Triple (Vacant slot) (fetch readFromDisk : Act m size Unit) (fun _ ↦ Vacant slot) Stops := by
  refine triple_ite (fun _ ↦ ?_) fun _ ↦ triple_pure fun _ h ↦ h
  intro w h
  have hsound : Sound { w with calls := w.calls + 1 } := (h.sound.inv.calls _).toSound
  cases hh : w.host w.calls with
  | none =>
    rw [hostCall_of_none hh]
    exact ⟨hsound, h.clean, h.idle⟩
  | some errno =>
    rw [hostCall_of_some hh]
    exact .inl ⟨errno, rfl, hsound⟩

/-- Such a slot may take another table. -/
theorem keeps_load (slot : Slot size) {offset : Nat} (hoffset : offset ≠ 0) (readFromDisk : Bool) :
    Triple (Vacant slot) (load slot offset readFromDisk : Act m size Unit)
      (fun _ w ↦ Sound w ∧ (w.caches.entries slot).offset ≠ 0) Stops := by
  refine Triple.bind (R := fun _ ↦ Vacant slot) (triple_modifyCaches fun w h ↦ h.modify fun e ↦ ⟨rfl, rfl⟩) fun _ ↦
    Triple.bind (spec_fetch slot readFromDisk) fun _ ↦ triple_modifyCaches ?_
  intro w h
  have hself : ((cacheReplace w.caches slot offset readFromDisk).entries slot).offset = offset := by
    simp [cacheReplace, Caches.modify]
  have hvacant : Vacant slot { w with caches := cacheReplace w.caches slot offset readFromDisk } :=
    h.modify fun e ↦ ⟨rfl, rfl⟩
  refine ⟨hvacant.sound, ?_⟩
  rw [hself]
  exact hoffset

theorem sound_decay (h : Sound w) (c : Which) : Sound { w with caches := decay w.caches c } := by
  have hentry : ∀ slot, ((decay w.caches c).entries slot).dirty = (w.caches.entries slot).dirty ∧
      ((decay w.caches c).entries slot).offset = (w.caches.entries slot).offset ∧
      ((decay w.caches c).entries slot).ref = (w.caches.entries slot).ref := by
    intro slot
    simp only [decay]
    split <;> simp
  refine ⟨h.oneWay, ⟨fun slot hd ↦ ?_, fun slot hr ↦ ?_⟩, h.ordered, h.owing.mono (fun _ _ hd ↦ hd) fun slot hd ↦ ?_⟩
  · rw [(hentry slot).1] at hd
    rw [(hentry slot).2.1]
    exact h.placed.dirty slot hd
  · rw [(hentry slot).2.2] at hr
    rw [(hentry slot).2.1]
    exact h.placed.held slot hr
  · exact ⟨(hentry slot).1.trans hd, (hentry slot).2.1⟩

theorem decay_ref (s : Caches m size) (c : Which) (slot : Slot size) :
    ((decay s c).entries slot).ref = (s.entries slot).ref := by
  simp only [decay]
  split <;> rfl

theorem keeps_cacheDoGet (c : Which) {offset : Nat} (hoffset : offset ≠ 0) (readFromDisk : Bool) :
    Keeps (cacheDoGet c offset readFromDisk : Act m size Unit) := by
  refine triple_getCaches fun s ↦ ?_
  cases hl : lookup s c offset with
  | some i =>
    refine (keeps_hold ⟨c, i⟩).strengthen ?_
    rintro w ⟨h, rfl⟩
    rw [offset_of_lookup hl]
    exact ⟨h, hoffset⟩
  | none =>
    dsimp only
    cases hv : victim fun i ↦ s.entries ⟨c, i⟩ with
    | none => exact (keeps_fault (by decide)).strengthen fun _ h ↦ h.1
    | some i =>
      have hflush : Triple (fun w : Journal m size ↦ Sound w ∧ (w.caches.entries ⟨c, i⟩).ref = 0)
          (cacheEntryFlush (cacheFlush depth) ⟨c, i⟩) (fun _ ↦ Vacant ⟨c, i⟩) Stops := by
        apply triple_of_forall
        intro w ⟨hw, hr⟩
        have hspec : Triple (Inv (fun slot ↦ (w.caches.entries slot).ref) (fun _ ↦ False) fun _ ↦ False)
            (cacheEntryFlush (cacheFlush depth) ⟨c, i⟩ : Act m size Unit) _ _ :=
          spec_cacheEntryFlush (.inr (flushesFree_cacheFlush 1))
        refine hspec.weaken ?_ (fun _ w' hq ↦ ⟨hq.toSound, hq.isClean _ (.inl rfl), (hq.ref_eq _).trans hr⟩)
          fun _ _ he ↦ he.keeps Inv.toSound
        rintro _ rfl
        exact hw.inv
      refine Triple.bind (R := fun _ w ↦ Sound w ∧ (w.caches.entries ⟨c, i⟩).ref = 0) (triple_modifyCaches ?_) fun _ ↦
        Triple.bind hflush fun _ ↦ Triple.bind (keeps_load ⟨c, i⟩ hoffset readFromDisk) fun _ ↦ keeps_hold ⟨c, i⟩
      rintro w ⟨h, rfl⟩
      exact ⟨sound_decay h c, (decay_ref _ _ _).trans (victim_ref hv)⟩

/-- The cache is free of a dependency other than the given one. -/
theorem spec_release (c : Which) (keep : Option Which) :
    Triple (Inv refs clean free) (release c keep : Act m size Unit)
      (fun _ w ↦ Inv refs clean free w ∧ (w.caches.depends c = none ∨ w.caches.depends c = keep))
      (Fails (Inv refs clean free)) := by
  refine triple_getCaches fun s ↦ ?_
  cases hc : s.depends c with
  | none =>
    apply triple_pure
    rintro w ⟨h, rfl⟩
    exact ⟨h, .inl hc⟩
  | some d =>
    refine triple_ite (fun hkeep ↦ triple_pure ?_) fun _ ↦ ?_
    · rintro w ⟨h, rfl⟩
      exact ⟨h, .inr (hc.trans hkeep)⟩
    · refine (spec_cacheFlushDependency (flushesFree_cacheFlush 1) c d).weaken ?_ ?_ fun _ _ he ↦ he
      · rintro w ⟨h, rfl⟩
        exact ⟨h, hc⟩
      · exact fun _ w h ↦ ⟨h.weaken (fun _ hs ↦ hs) fun _ hf ↦ .inr hf, .inl (h.isFree c (.inl rfl))⟩

/-- A barrier is waited for from the moment on at which it is set. -/
theorem Sound.barrier (h : Sound w) {c : Which} (hc : w.caches.depends c = none ∨ w.caches.depends c = some (other c))
    (hd : w.caches.depends (other c) = none) :
    Sound { w with
      caches := { w.caches with depends := Function.update w.caches.depends c (some (other c)) }
      log := w.log ++ [.barrier c (dirtyTables w.caches (other c))] } := by
  have hne : other c ≠ c := by cases c <;> decide
  refine ⟨?_, ⟨h.placed.dirty, h.placed.held⟩, h.ordered.snoc ?_, ?_⟩
  · intro a b hab
    by_cases ha : a = c
    · subst ha
      simp only [Function.update_self, Option.some.injEq] at hab
      subst hab
      refine ⟨rfl, ?_⟩
      simp only [Function.update_of_ne hne]
      exact hd
    · have hother : a = other c := by
        cases a <;> cases c <;> first | rfl | exact absurd rfl ha
      simp only [Function.update_of_ne ha] at hab
      rw [hother, hd] at hab
      cases hab
  · intro slot offset he
    cases he
  · intro pre mid a owed hlog
    rcases List.eq_nil_or_concat' mid with rfl | ⟨mid', e', rfl⟩
    · obtain ⟨-, hlast⟩ := List.append_inj' hlog rfl
      obtain ⟨he, -⟩ := List.cons.inj hlast
      obtain ⟨rfl, rfl⟩ := Event.barrier.inj he
      refine .inr ⟨Function.update_self .., fun slot offset ho ↦ ?_⟩
      simp only [dirtyTables, Option.mem_def, Option.ite_none_right_eq_some, Option.some.injEq] at ho
      exact ⟨ho.1.1, .inr ⟨ho.1.2, ho.2⟩⟩
    · rw [← List.cons_append, ← List.append_assoc] at hlog
      obtain ⟨hlog', hlast⟩ := List.append_inj' hlog rfl
      rcases h.owing pre mid' a owed hlog' with hs | hw
      · exact .inl (hs.snoc e')
      · have ha : a = c := by
          by_contra hne'
          have hother : a = other c := by
            cases a <;> cases c <;> first | rfl | exact absurd rfl hne'
          have hdep := hw.depends
          rw [hother, hd] at hdep
          cases hdep
        subst ha
        have hw' := hw.snoc e'
        exact .inr ⟨Function.update_self .., hw'.owed⟩

theorem keeps_cacheSetDependency (c : Which) : Keeps (cacheSetDependency c : Act m size Unit) := by
  apply triple_of_forall
  intro w hw
  have hfirst : Triple (· = w) (release (other c) none : Act m size Unit)
      (fun _ ↦ Inv (fun slot ↦ (w.caches.entries slot).ref) (fun _ ↦ False) (· = other c)) Stops := by
    have hrelease : Triple (Inv (fun slot ↦ (w.caches.entries slot).ref) (fun _ ↦ False) fun _ ↦ False)
        (release (other c) none : Act m size Unit) _ _ := spec_release (other c) none
    refine hrelease.weaken ?_ ?_ fun _ _ he ↦ he.keeps Inv.toSound
    · rintro _ rfl
      exact hw.inv
    · intro _ w h
      exact ⟨h.1.toSound, h.1.isClean, fun c' hc' ↦ hc' ▸ h.2.elim id id, h.1.ref_eq⟩
  refine Triple.bind hfirst fun _ ↦ Triple.bind ((spec_release c (some (other c))).weaken (fun _ h ↦ h)
    (fun _ _ hq ↦ hq) fun _ _ he ↦ he.keeps Inv.toSound) fun _ ↦ ?_
  intro w ⟨h, hc⟩
  exact h.toSound.barrier hc (h.isFree (other c) rfl)

end Specs

/-- No table is asked for at the offset that marks an entry as unused. -/
def Op.Legal : Op m size → Prop
  | .get _ offset => offset ≠ 0
  | .getEmpty _ offset => offset ≠ 0
  | _ => True

theorem keeps_run {op : Op m size} (h : op.Legal) : Keeps op.run := by
  cases op with
  | get c offset => exact keeps_cacheDoGet c h true
  | getEmpty c offset => exact keeps_cacheDoGet c h false
  | markDirty slot t => exact keeps_cacheEntryMarkDirty slot t
  | put slot => exact keeps_cachePut slot
  | setDependency c => exact keeps_cacheSetDependency c
  | dependsOnFlush c =>
    intro w h
    exact (h.inv.noFlushNeeded _).toSound
  | flush c => exact keeps_cacheFlush c

theorem step_sound {w w' : Journal m size} {op : Op m size} {r : Option Errno} (h : Sound w) (hop : op.Legal)
    (hstep : step w op = .ok (w', r)) : Sound w' := by
  unfold step at hstep
  cases hrun : op.run w with
  | ok a t =>
    rw [hrun] at hstep
    cases hstep
    exact (keeps_run hop).ok h hrun
  | error e t =>
    rw [hrun] at hstep
    cases e with
    | failed errno =>
      cases hstep
      rcases (keeps_run hop).error h hrun with ⟨_, -, ht⟩ | ⟨f, hf, -⟩
      · exact ht
      · cases hf
    | fault f => cases hstep

theorem step_terminates {w : Journal m size} {op : Op m size} (h : Sound w) (hop : op.Legal) :
    step w op ≠ .error .diverges := by
  intro hstep
  unfold step at hstep
  cases hrun : op.run w with
  | ok a t =>
    rw [hrun] at hstep
    cases hstep
  | error e t =>
    rw [hrun] at hstep
    cases e with
    | failed errno => cases hstep
    | fault f =>
      cases hstep
      rcases (keeps_run hop).error h hrun with ⟨_, hf, -⟩ | ⟨f, hf, hne⟩
      · cases hf
      · cases hf
        exact hne rfl

theorem sound_create (file : File) (writethrough : Which → Bool) (buffers : Slot size → Table m)
    (host : Nat → Option Errno) : Sound (create file writethrough buffers host) := by
  refine ⟨?_, ⟨?_, ?_⟩, ?_, ?_⟩
  · intro c d hc
    cases hc
  · intro slot hd
    cases hd
  · intro slot hr
    exact absurd rfl hr
  · intro pre mid post c owed slot offset hlog
    simp [create] at hlog
  · intro pre mid c owed hlog
    simp [create] at hlog

/-- What a run shows: in every state at most one of the caches depends on the other one, no
flush leads back to itself, and a cache has written nothing before what its dependencies stand
for was written and flushed. -/
def Orders (w : Journal m size) (ops : List (Op m size)) : Prop :=
  Throughout step (fun w ↦ OneWay w.caches ∧ Ordered w.log) w ops ∧
    Attempts step (fun w op ↦ step w op ≠ .error .diverges) w ops

theorem writes_ordered (file : File) (writethrough : Which → Bool) (buffers : Slot size → Table m)
    (host : Nat → Option Errno) (ops : List (Op m size)) (h : ∀ op ∈ ops, op.Legal) :
    Orders (create file writethrough buffers host) ops := by
  have hsound : ∀ pre w, pre <+: ops → Run step (create file writethrough buffers host) pre w → Sound w := by
    intro pre w hpre hrun
    refine hrun.invariant (sound_create file writethrough buffers host) ?_
    intro w op w' r hop hw hstep
    exact step_sound hw (h op (hpre.subset hop)) hstep
  constructor
  · intro pre w hpre hrun
    have hw := hsound pre w hpre hrun
    exact ⟨hw.oneWay, hw.ordered⟩
  · intro pre op w hpre hrun
    have hprefix : pre <+: ops := (List.prefix_append pre [op]).trans hpre
    exact step_terminates (hsound pre w hprefix hrun) (h op (prefix_snoc_mem hpre))

section Runs

abbrev oneEntry : Which → Nat := fun _ ↦ 1

local instance neZeroOne : NeZero 1 := ⟨by decide⟩

def block : Slot oneEntry := ⟨.refcountBlock, 0⟩

def l2Table : Slot oneEntry := ⟨.l2Table, 0⟩

/-- Two caches of one entry each; the host fails at the given calls. -/
def freshCaches (failing : List Nat) : Journal 1 oneEntry :=
  create (fun _ ↦ 0) (fun _ ↦ false) (fun _ _ ↦ 0) fun n ↦ if n ∈ failing then some enospc else none

/-- An allocation, of which the flush is tried twice. -/
def allocation : List (Op 1 oneEntry) :=
  [.getEmpty .refcountBlock 512, .markDirty block fun _ ↦ 1, .put block, .setDependency .l2Table,
    .getEmpty .l2Table 1024, .markDirty l2Table fun _ ↦ 2, .put l2Table, .flush .l2Table, .flush .l2Table]

theorem writes_ordered_allocation :
    (∀ op ∈ allocation, op.Legal) ∧ Orders (freshCaches [0]) allocation := by
  have hlegal : ∀ op ∈ allocation, op.Legal := by simp [allocation, Op.Legal]
  exact ⟨hlegal, writes_ordered _ _ _ _ allocation hlegal⟩

/-- The same with a refcount block that is asked for at offset 0. -/
def misplaced : List (Op 1 oneEntry) :=
  [.getEmpty .refcountBlock 0, .markDirty block fun _ ↦ 1, .setDependency .l2Table,
    .getEmpty .l2Table 1024, .markDirty l2Table fun _ ↦ 2, .flush .l2Table]

/-- A table of the L2 cache is written while the refcount block that it had to wait for is not. -/
def overtakes : List (Event oneEntry) → Bool
  | [.barrier .l2Table owed, .flushed, .writing slot _, .wrote _ _, .flushed] =>
    decide (slot.1 = .l2Table ∧ owed block = some 0)
  | _ => false

theorem not_ordered_of_overtakes {log : List (Event oneEntry)} (h : overtakes log = true) : ¬ Ordered log := by
  intro hordered
  unfold overtakes at h
  split at h
  case h_1 owed slot offset slot' offset' =>
    obtain ⟨hslot, howed⟩ := of_decide_eq_true h
    obtain ⟨m₁, m₂, hmid, hwrote⟩ := hordered [] [.flushed] _ .l2Table owed slot offset rfl hslot
    have hnone : m₁ = [] := by
      rcases m₁ with - | ⟨e, m₁⟩
      · rfl
      · simp at hmid
    have hmem := hwrote block 0 howed
    rw [hnone] at hmem
    cases hmem
  case h_2 => cases h

theorem writes_ordered_fails :
    ¬ ∀ (file : File) (writethrough : Which → Bool) (buffers : Slot oneEntry → Table 1)
      (host : Nat → Option Errno) (ops : List (Op 1 oneEntry)),
      Orders (create file writethrough buffers host) ops := by
  intro hall
  obtain ⟨w, os, hexec, hovertakes⟩ : ∃ w os, exec step (freshCaches []) misplaced = .ok (w, os) ∧
      overtakes w.log = true := exists_exec_of_check (by decide +kernel)
  have horders := (hall _ _ _ _ misplaced).1 misplaced w (List.prefix_refl _) (run_of_exec hexec)
  exact not_ordered_of_overtakes hovertakes horders.2

end Runs

end IDeviceEmulator.Qcow2.Barrier
