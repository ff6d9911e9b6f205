import IDeviceEmulator.Library.History
import IDeviceEmulator.Qcow2.Flush

namespace IDeviceEmulator.Qcow2

open History Machine

section Sessions

variable {m : Nat} {size : Which → Nat}

structure Session (m : Nat) (size : Which → Nat) where
  caches : Caches m size
  blank : Slot size → Bool

def Session.create (file : File) (writethrough : Which → Bool) (buffers : Slot size → Table m) : Session m size where
  caches := cacheCreate file writethrough buffers
  blank := fun _ ↦ false

/-- The tables as their users see them. -/
def Session.tables (L : Layout m) (x : Session m size) (k : L.Key) : Table m := x.caches.contents L k

inductive Op (L : Layout m) (size : Which → Nat)
  | get (k : L.Key)
  | getEmpty (k : L.Key)
  | store (k : L.Key) (i : Fin (size k.cache)) (t : Table m)
  | put (slot : Slot size)
  | setDependency (c dependency : Which)
  | dependsOnFlush (c : Which)
  | flush (c : Which)

variable {L : Layout m}

def request (x : Session m size) (k : L.Key) (readFromDisk : Bool) : Except Fault (Session m size × Slot size) := do
  let r ← cacheDoGet x.caches k.cache k.offset readFromDisk
  return (⟨r.1, if lookup x.caches k.cache k.offset = none then Function.update x.blank r.2 (!readFromDisk)
    else x.blank⟩, r.2)

/-- A step of the users of the caches, with the accesses to the tables that it makes. A table that is blank has no
contents yet. -/
def step (x : Session m size) : Op L size → Except Fault (Session m size × List (Event L.Key (Table m)))
  | .get k => do
    let r ← request x k true
    return (r.1, if r.1.blank r.2 then [] else [.read k (r.1.caches.entries r.2).table])
  | .getEmpty k => do
    let r ← request x k false
    return (r.1, [])
  | .store k i t =>
    .ok (⟨cacheStore x.caches ⟨k.cache, i⟩ t, Function.update x.blank ⟨k.cache, i⟩ false⟩, [.write k t])
  | .put slot => do
    let s ← cachePut x.caches slot
    return (⟨s, x.blank⟩, [])
  | .setDependency c dependency => do
    let s ← cacheSetDependency x.caches c dependency
    return (⟨s, x.blank⟩, [])
  | .dependsOnFlush c => .ok (⟨cacheDependsOnFlush x.caches c, x.blank⟩, [])
  | .flush c => do
    let s ← cacheFlush depth c x.caches
    return (⟨s, x.blank⟩, [])

/-- A new table is requested while an entry is left for it, and no hit counter is at its end. -/
def Ready (s : Caches m size) (k : L.Key) : Prop :=
  (∀ i, (s.entries ⟨k.cache, i⟩).cacheHits < intMax) ∧
    (lookup s k.cache k.offset = none → ∃ i, (s.entries ⟨k.cache, i⟩).ref = 0)

def Legal (x : Session m size) : Op L size → Prop
  | .get k | .getEmpty k => Ready x.caches k
  | .store k i _ => (x.caches.entries ⟨k.cache, i⟩).ref ≠ 0 ∧ (x.caches.entries ⟨k.cache, i⟩).offset = k.offset
  | .put slot => (x.caches.entries slot).ref ≠ 0
  | .setDependency c dependency => c ≠ dependency
  | .dependsOnFlush _ | .flush _ => True

instance (s : Caches m size) (k : L.Key) : Decidable (Ready s k) := inferInstanceAs (Decidable (_ ∧ _))

instance (x : Session m size) (op : Op L size) : Decidable (Legal x op) :=
  match op with
  | .get k | .getEmpty k => inferInstanceAs (Decidable (Ready x.caches k))
  | .store _ _ _ => inferInstanceAs (Decidable (_ ∧ _))
  | .put _ => inferInstanceAs (Decidable (_ ≠ _))
  | .setDependency _ _ => inferInstanceAs (Decidable (_ ≠ _))
  | .dependsOnFlush _ | .flush _ => inferInstanceAs (Decidable True)

end Sessions

section Retaining

variable {m : Nat} {size : Which → Nat} {L : Layout m} {blank : Slot size → Bool} {s t : Caches m size}

/-- Only the counters of the entries differ. -/
structure Retains (s t : Caches m size) : Prop where
  file : t.file = s.file
  depends : t.depends = s.depends
  table : ∀ slot, (t.entries slot).table = (s.entries slot).table
  offset : ∀ slot, (t.entries slot).offset = (s.entries slot).offset
  dirty : ∀ slot, (t.entries slot).dirty = (s.entries slot).dirty

theorem Retains.valid (h : Retains s t) (hs : Valid L blank s) : Valid L blank t := by
  refine ⟨fun slot ↦ ?_, fun c i j ↦ ?_, fun slot ↦ ?_, fun slot ↦ ?_, ?_⟩
  · rw [h.offset]
    exact hs.admitted slot
  · rw [h.offset, h.offset]
    exact hs.distinct c i j
  · rw [h.dirty, h.offset]
    exact hs.dirty slot
  · rw [h.dirty, h.offset, h.table, h.file]
    exact hs.clean slot
  · rw [h.depends]
    exact hs.depends

theorem Retains.lookup_eq (h : Retains s t) (c : Which) (offset : Nat) : lookup t c offset = lookup s c offset := by
  simp only [lookup, h.offset]

theorem Retains.contents_eq (h : Retains s t) (k : L.Key) : t.contents L k = s.contents L k := by
  simp only [Caches.contents, h.lookup_eq, h.dirty, h.table, h.file]

theorem retains_decay (s : Caches m size) (c : Which) : Retains s (decay s c) := by
  refine ⟨rfl, rfl, fun slot ↦ ?_, fun slot ↦ ?_, fun slot ↦ ?_⟩ <;>
  · dsimp only [decay]
    split_ifs <;> rfl

theorem retains_modify (s : Caches m size) (slot : Slot size) (f : CachedTable m → CachedTable m)
    (hf : ∀ e, (f e).table = e.table ∧ (f e).offset = e.offset ∧ (f e).dirty = e.dirty) :
    Retains s (s.modify slot f) := by
  have hentries : ∀ slot', (s.modify slot f).entries slot' = s.entries slot' ∨
      (s.modify slot f).entries slot' = f (s.entries slot') := by
    intro slot'
    by_cases h : slot' = slot
    · right
      simp [Caches.modify, h]
    · left
      simp [Caches.modify, Function.update_of_ne h]
  refine ⟨rfl, rfl, fun slot' ↦ ?_, fun slot' ↦ ?_, fun slot' ↦ ?_⟩ <;>
  · rcases hentries slot' with h | h
    · rw [h]
    · rw [h]
      simp [hf]

end Retaining

section Requests

variable {m : Nat} {size : Which → Nat} {L : Layout m} {blank : Slot size → Bool} {s : Caches m size} {k : L.Key}

theorem found_ok (slot : Slot size) (h : (s.entries slot).cacheHits ≠ intMax) :
    ∃ t, found s slot = .ok (t, slot) ∧ Retains s t := by
  refine ⟨_, if_neg h, ?_⟩
  exact retains_modify s slot _ fun e ↦ ⟨rfl, rfl, rfl⟩

/-- Once the loop has looked at a free entry it has a candidate. -/
theorem foldl_candidate_isSome {n : Nat} (entries : Fin n → CachedTable m) {i : Fin n} (h : (entries i).ref = 0)
    (hits : ∀ i, (entries i).cacheHits < intMax) (l : List (Fin n)) (best : Option (Fin n) × Nat)
    (hbest : best.1 = none → best.2 = intMax ∧ i ∈ l) : ∃ j, (l.foldl (candidate entries) best).1 = some j := by
  induction l generalizing best with
  | nil =>
    cases hb : best.1 with
    | none => simpa using (hbest hb).2
    | some j => exact ⟨j, hb⟩
  | cons a l ih =>
    rw [List.foldl_cons]
    refine ih _ fun hnone ↦ ?_
    unfold candidate at hnone ⊢
    split_ifs at hnone ⊢ with href hlt
    · obtain ⟨hmax, hmem⟩ := hbest hnone
      refine ⟨hmax, (List.mem_cons.mp hmem).resolve_left ?_⟩
      rintro rfl
      exact href h
    · obtain ⟨hmax, -⟩ := hbest hnone
      exact absurd (hits a) (by omega)

theorem victim_isSome {n : Nat} (entries : Fin n → CachedTable m) {i : Fin n} (h : (entries i).ref = 0)
    (hits : ∀ i, (entries i).cacheHits < intMax) : ∃ j, victim entries = some j :=
  foldl_candidate_isSome entries h hits _ _ fun _ ↦ ⟨rfl, List.mem_finRange i⟩

/-- Every candidate is free. -/
theorem foldl_candidate_ref {n : Nat} (entries : Fin n → CachedTable m) (l : List (Fin n)) (best : Option (Fin n) × Nat)
    (hbest : ∀ i, best.1 = some i → (entries i).ref = 0) {i : Fin n}
    (h : (l.foldl (candidate entries) best).1 = some i) : (entries i).ref = 0 := by
  induction l generalizing best with
  | nil => exact hbest i h
  | cons a l ih =>
    refine ih (candidate entries best a) (fun j hj ↦ ?_) h
    unfold candidate at hj
    split_ifs at hj with href hlt
    · exact hbest j hj
    · cases hj
      simpa using href
    · exact hbest j hj

theorem victim_ref {n : Nat} {entries : Fin n → CachedTable m} {i : Fin n} (h : victim entries = some i) :
    (entries i).ref = 0 :=
  foldl_candidate_ref entries _ _ (by simp) h

theorem cacheReplace_entries (s : Caches m size) (slot slot' : Slot size) (offset : Nat) (r : Bool) (h : slot' ≠ slot) :
    (cacheReplace s slot offset r).entries slot' = s.entries slot' :=
  Function.update_of_ne h _ _

theorem cacheReplace_valid (hs : Valid L blank s) {i : Fin (size k.cache)}
    (hnew : ∀ j, (s.entries ⟨k.cache, j⟩).offset ≠ k.offset)
    (hclean : (s.entries ⟨k.cache, i⟩).dirty = false) (r : Bool) :
    Valid L (Function.update blank ⟨k.cache, i⟩ (!r)) (cacheReplace s ⟨k.cache, i⟩ k.offset r) := by
  have hself : (cacheReplace s ⟨k.cache, i⟩ k.offset r).entries ⟨k.cache, i⟩ = _ := Function.update_self _ _ _
  have hother := fun slot' h ↦ cacheReplace_entries s ⟨k.cache, i⟩ slot' k.offset r h
  refine ⟨fun slot h ↦ ?_, fun c j j' h h' ↦ ?_, fun slot h ↦ ?_, fun slot h h' hb ↦ ?_, hs.depends⟩
  · by_cases he : slot = ⟨k.cache, i⟩
    · subst he
      rw [hself]
      exact k.admitted
    · rw [hother slot he] at h ⊢
      exact hs.admitted slot h
  · by_cases hj : (⟨c, j⟩ : Slot size) = ⟨k.cache, i⟩
    · by_cases hj' : (⟨c, j'⟩ : Slot size) = ⟨k.cache, i⟩
      · cases hj
        exact (eq_of_heq (Sigma.mk.inj hj').2).symm
      · cases hj
        rw [hself, hother _ hj'] at h
        exact absurd h.symm (hnew j')
    · by_cases hj' : (⟨c, j'⟩ : Slot size) = ⟨k.cache, i⟩
      · cases hj'
        rw [hself, hother _ hj] at h
        exact absurd h (hnew j)
      · rw [hother _ hj, hother _ hj'] at h
        rw [hother _ hj] at h'
        exact hs.distinct c j j' h h'
  · by_cases he : slot = ⟨k.cache, i⟩
    · subst he
      rw [hself] at h
      exact absurd h (by simp [hclean])
    · rw [hother slot he] at h ⊢
      rw [Function.update_of_ne he]
      exact hs.dirty slot h
  · by_cases he : slot = ⟨k.cache, i⟩
    · subst he
      rw [Function.update_self, Bool.not_eq_false'] at hb
      rw [hself]
      exact if_pos hb
    · rw [hother slot he] at h h' ⊢
      rw [Function.update_of_ne he] at hb
      exact hs.clean slot h h' hb

theorem contents_cacheReplace (hs : Valid L blank s) {i : Fin (size k.cache)}
    (hnew : ∀ j, (s.entries ⟨k.cache, j⟩).offset ≠ k.offset)
    (hclean : (s.entries ⟨k.cache, i⟩).dirty = false) (r : Bool) (k' : L.Key) :
    (cacheReplace s ⟨k.cache, i⟩ k.offset r).contents L k' = s.contents L k' := by
  have hself : (cacheReplace s ⟨k.cache, i⟩ k.offset r).entries ⟨k.cache, i⟩ = _ := Function.update_self _ _ _
  have hother := fun slot' h ↦ cacheReplace_entries s ⟨k.cache, i⟩ slot' k.offset r h
  refine contents_eq_of hs (cacheReplace_valid hs hnew hclean r) (fun j hj hd ↦ ?_) fun hall ↦ ?_
  · have hne : (⟨k'.cache, j⟩ : Slot size) ≠ ⟨k.cache, i⟩ := by
      intro he
      rw [he, hclean] at hd
      cases hd
    rw [hother _ hne, Function.update_of_ne hne]
    exact ⟨rfl, hj, (hs.dirty _ hd).2⟩
  · refine contents_clean fun j hj ↦ ?_
    by_cases he : (⟨k'.cache, j⟩ : Slot size) = ⟨k.cache, i⟩
    · rw [he, hself]
      exact hclean
    · rw [hother _ he] at hj ⊢
      exact hall j hj

/-- A request makes its table the one that the returned entry holds. It changes no contents and leaves the tables
that are held in their places. -/
theorem request_ok {x : Session m size} (hx : Valid L x.blank x.caches) (hk : Ready x.caches k) (r : Bool) :
    ∃ y i, request x k r = .ok (y, ⟨k.cache, i⟩) ∧ Valid L y.blank y.caches ∧
      (y.caches.entries ⟨k.cache, i⟩).offset = k.offset ∧
      (∀ slot, (x.caches.entries slot).ref ≠ 0 → (y.caches.entries slot).offset = (x.caches.entries slot).offset) ∧
      ∀ k' : L.Key, y.caches.contents L k' = x.caches.contents L k' := by
  obtain ⟨hhits, hfree⟩ := hk
  cases hl : lookup x.caches k.cache k.offset with
  | some i =>
    obtain ⟨t, hfound, ht⟩ := found_ok (s := x.caches) ⟨k.cache, i⟩ (hhits i).ne
    refine ⟨⟨t, x.blank⟩, i, ?_, ht.valid hx, ?_, fun slot _ ↦ ht.offset slot, ht.contents_eq⟩
    · simp only [request, cacheDoGet, hl, hfound, bind, Except.bind, pure, Except.pure, reduceCtorEq, if_false]
    · rw [ht.offset]
      exact offset_of_lookup hl
  | none =>
    obtain ⟨j, href⟩ := hfree hl
    obtain ⟨i, hvictim⟩ := victim_isSome (fun i ↦ x.caches.entries ⟨k.cache, i⟩) href hhits
    have hdecay := retains_decay x.caches k.cache
    obtain ⟨s, hflush, hs, hclean⟩ := cacheEntryFlush_ok (hdecay.valid hx) ⟨k.cache, i⟩
    have hnew : ∀ j, (s.entries ⟨k.cache, j⟩).offset ≠ k.offset := by
      intro j
      rw [hs.entries, hdecay.offset]
      exact offset_ne_of_lookup hl j
    obtain ⟨t, hfound, ht⟩ := found_ok (s := cacheReplace s ⟨k.cache, i⟩ k.offset r) ⟨k.cache, i⟩ (by
      simp [cacheReplace, Caches.modify, intMax])
    refine ⟨⟨t, Function.update x.blank ⟨k.cache, i⟩ (!r)⟩, i, ?_, ht.valid (cacheReplace_valid hs.valid hnew hclean r),
      ?_, fun slot hheld ↦ ?_, fun k' ↦ ?_⟩
    · simp only [request, cacheDoGet, hl, hvictim, hflush, hfound, bind, Except.bind, pure, Except.pure, if_true]
    · rw [ht.offset]
      simp [cacheReplace, Caches.modify]
    · have hne : slot ≠ ⟨k.cache, i⟩ := by
        rintro rfl
        exact hheld (victim_ref hvictim)
      rw [ht.offset, cacheReplace_entries s _ _ _ _ hne, hs.entries, hdecay.offset]
    · rw [ht.contents_eq, contents_cacheReplace hs.valid hnew hclean r, hs.contents, hdecay.contents_eq]

end Requests

section Stores

variable {m : Nat} {size : Which → Nat} {L : Layout m} {blank : Slot size → Bool} {s : Caches m size} {k : L.Key}

theorem cacheStore_valid (hs : Valid L blank s) {slot : Slot size} (ho : (s.entries slot).offset ≠ 0) (t : Table m) :
    Valid L (Function.update blank slot false) (cacheStore s slot t) := by
  have hoffset : ∀ slot', ((cacheStore s slot t).entries slot').offset = (s.entries slot').offset := by
    intro slot'
    by_cases h : slot' = slot
    · subst h
      simp [cacheStore, Caches.modify]
    · simp [cacheStore, Caches.modify, h]
  have hother : ∀ slot', slot' ≠ slot → (cacheStore s slot t).entries slot' = s.entries slot' :=
    fun slot' h ↦ Function.update_of_ne h _ _
  refine ⟨fun slot' h ↦ ?_, fun c i j h h' ↦ ?_, fun slot' h ↦ ?_, fun slot' h h' hb ↦ ?_, hs.depends⟩
  · rw [hoffset] at h ⊢
    exact hs.admitted slot' h
  · rw [hoffset, hoffset] at h
    rw [hoffset] at h'
    exact hs.distinct c i j h h'
  · rw [hoffset]
    by_cases he : slot' = slot
    · subst he
      exact ⟨ho, Function.update_self _ _ _⟩
    · rw [hother slot' he] at h
      rw [Function.update_of_ne he]
      exact hs.dirty slot' h
  · by_cases he : slot' = slot
    · subst he
      simp [cacheStore, Caches.modify] at h
    · rw [hother slot' he] at h h' ⊢
      rw [Function.update_of_ne he] at hb
      exact hs.clean slot' h h' hb

theorem contents_cacheStore (hs : Valid L blank s) {i : Fin (size k.cache)}
    (ho : (s.entries ⟨k.cache, i⟩).offset = k.offset) (t : Table m) :
    (cacheStore s ⟨k.cache, i⟩ t).contents L = Function.update (s.contents L) k t := by
  have hne : (s.entries ⟨k.cache, i⟩).offset ≠ 0 := ho ▸ L.nonzero k.admitted
  have ht := cacheStore_valid hs hne t
  have hself : (cacheStore s ⟨k.cache, i⟩ t).entries ⟨k.cache, i⟩ =
      { s.entries ⟨k.cache, i⟩ with table := t, dirty := true } := Function.update_self _ _ _
  funext k'
  by_cases hk : k' = k
  · subst hk
    rw [Function.update_self, ht.contents_dirty (i := i) (by rw [hself]; exact ho) (by rw [hself]), hself]
  · rw [Function.update_of_ne hk]
    -- the entries of the other tables are the same
    have hslot : ∀ j, (s.entries ⟨k'.cache, j⟩).offset = k'.offset → (⟨k'.cache, j⟩ : Slot size) ≠ ⟨k.cache, i⟩ := by
      intro j hj he
      refine hk ?_
      have hc : k'.cache = k.cache := congrArg Sigma.fst he
      rw [he, ho] at hj
      cases k
      cases k'
      simp_all
    have hother : ∀ j, (⟨k'.cache, j⟩ : Slot size) ≠ ⟨k.cache, i⟩ →
        (cacheStore s ⟨k.cache, i⟩ t).entries ⟨k'.cache, j⟩ = s.entries ⟨k'.cache, j⟩ :=
      fun j h ↦ Function.update_of_ne h _ _
    refine contents_eq_of hs ht (fun j hj hd ↦ ?_) fun hall ↦ contents_clean fun j hj ↦ ?_
    · rw [hother j (hslot j hj), Function.update_of_ne (hslot j hj)]
      exact ⟨rfl, hj, (hs.dirty _ hd).2⟩
    · by_cases he : (⟨k'.cache, j⟩ : Slot size) = ⟨k.cache, i⟩
      · refine absurd ?_ (hslot j · he)
        rw [he, hself] at hj
        rw [he]
        exact hj
      · rw [hother j he] at hj ⊢
        exact hall j hj

theorem cachePut_ok (hs : Valid L blank s) {slot : Slot size} (h : (s.entries slot).ref ≠ 0) :
    ∃ t, cachePut s slot = .ok t ∧ Valid L blank t ∧ (∀ slot, (t.entries slot).offset = (s.entries slot).offset) ∧
      ∀ k : L.Key, t.contents L k = s.contents L k := by
  have hput := retains_modify s slot (fun e ↦ { e with ref := e.ref - 1 }) fun e ↦ ⟨rfl, rfl, rfl⟩
  unfold cachePut
  rw [if_neg h]
  dsimp only
  split_ifs
  · obtain ⟨t, hflush, ht, -⟩ := cacheEntryFlush_ok (hput.valid hs) slot
    refine ⟨t, hflush, ht.valid, fun slot' ↦ ?_, fun k ↦ (ht.contents k).trans (hput.contents_eq k)⟩
    rw [ht.entries, hput.offset]
  · exact ⟨_, rfl, hput.valid hs, hput.offset, hput.contents_eq⟩

theorem cacheSetDependency_ok (hs : Valid L blank s) {c d : Which} (h : c ≠ d) :
    ∃ t, cacheSetDependency s c d = .ok t ∧ Valid L blank t ∧
      (∀ slot, (t.entries slot).offset = (s.entries slot).offset) ∧ ∀ k : L.Key, t.contents L k = s.contents L k := by
  obtain ⟨t, hd, ht, hfree⟩ := cacheRelease_ok hs d none
  obtain ⟨u, hc, hu, -⟩ := cacheRelease_ok ht.valid c (some d)
  have hnone : u.depends d = none := by
    refine hu.depends_none (Option.eq_none_iff_forall_not_mem.mpr fun e he ↦ ?_)
    cases hfree e he
  refine ⟨{ u with depends := Function.update u.depends c (some d) }, ?_, ?_, fun slot ↦ ?_, (ht.trans hu).contents⟩
  · simp only [cacheSetDependency, hd, hc, bind, Except.bind, pure, Except.pure]
  · have hvalid := hu.valid
    refine ⟨hvalid.admitted, hvalid.distinct, hvalid.dirty, hvalid.clean, fun c' d' h' ↦ ?_⟩
    dsimp only at h' ⊢
    by_cases hc' : c' = c
    · subst hc'
      rw [Function.update_self] at h'
      cases h'
      rw [Function.update_of_ne h.symm]
      exact ⟨h.symm, hnone⟩
    · -- the only other cache is the dependency itself
      have hcd : c' = d := by
        cases c <;> cases d <;> cases c' <;> simp_all
      rw [Function.update_of_ne hc', hcd, hnone] at h'
      cases h'
  · dsimp only
    rw [(ht.trans hu).entries]

end Stores

section Refinement

variable {m : Nat} {size : Which → Nat} {L : Layout m}

theorem step_refines (x : Session m size) (op : Op L size) (hx : Valid L x.blank x.caches) (h : Legal x op) :
    ∃ y es, step x op = .ok (y, es) ∧ Valid L y.blank y.caches ∧
      Refines (Session.tables L) x y es := by
  cases op with
  | get k =>
    obtain ⟨y, i, hreq, hy, ho, -, hsame⟩ := request_ok hx h true
    refine ⟨y, _, by simp only [step, hreq, bind, Except.bind, pure, Except.pure]; rfl, hy, ?_, ?_⟩
    · cases hb : y.blank ⟨k.cache, i⟩ with
      | true => exact coherent_nil _
      | false => exact coherent_read ((hy.table_eq ho hb).trans (hsame k))
    · cases y.blank ⟨k.cache, i⟩ <;> exact funext hsame
  | getEmpty k =>
    obtain ⟨y, i, hreq, hy, -, -, hsame⟩ := request_ok hx h false
    refine ⟨y, [], ?_, hy, coherent_nil _, funext hsame⟩
    simp only [step, hreq, bind, Except.bind, pure, Except.pure]
  | store k i t =>
    have hne : (x.caches.entries ⟨k.cache, i⟩).offset ≠ 0 := h.2 ▸ L.nonzero k.admitted
    refine ⟨_, _, rfl, cacheStore_valid hx hne t, coherent_writes (by simp), ?_⟩
    rw [contents_write, contents_nil]
    exact contents_cacheStore hx h.2 t
  | put slot =>
    obtain ⟨t, hput, ht, -, hsame⟩ := cachePut_ok hx h
    refine ⟨⟨t, x.blank⟩, [], ?_, ht, coherent_nil _, funext hsame⟩
    simp only [step, hput, bind, Except.bind, pure, Except.pure]
  | setDependency c d =>
    obtain ⟨t, hset, ht, -, hsame⟩ := cacheSetDependency_ok hx h
    refine ⟨⟨t, x.blank⟩, [], ?_, ht, coherent_nil _, funext hsame⟩
    simp only [step, hset, bind, Except.bind, pure, Except.pure]
  | dependsOnFlush c =>
    have hsame := noFlushNeeded_flushed hx (Function.update x.caches.dependsOnFlush c true)
    exact ⟨_, _, rfl, hsame.valid, coherent_nil _, funext hsame.contents⟩
  | flush c =>
    obtain ⟨t, hflush, ht, -⟩ := flushes_depth hx c
    refine ⟨⟨t, x.blank⟩, [], ?_, ht.valid, coherent_nil _, funext ht.contents⟩
    simp only [step, hflush, bind, Except.bind, pure, Except.pure]

theorem cacheCreate_valid (file : File) (writethrough : Which → Bool) (buffers : Slot size → Table m) :
    Valid L (fun _ ↦ false) (cacheCreate file writethrough buffers) := by
  refine ⟨?_, ?_, ?_, ?_, ?_⟩ <;> simp [cacheCreate]

theorem contents_cacheCreate (file : File) (writethrough : Which → Bool) (buffers : Slot size → Table m) (k : L.Key) :
    (cacheCreate file writethrough buffers).contents L k = bdrvPread file k.offset :=
  contents_clean fun _ _ ↦ rfl

/-- Over every legal run the caches are transparent. -/
theorem cache_transparent (L : Layout m) (file : File) (writethrough : Which → Bool) (buffers : Slot size → Table m)
    (ops : List (Op L size)) (h : Attempts step Legal (Session.create file writethrough buffers) ops) :
    ∃ x ess, exec step (Session.create file writethrough buffers) ops = .ok (x, ess) ∧
      Coherent (fun k : L.Key ↦ bdrvPread file k.offset) ess.flatten ∧
      (∀ c i j, (x.caches.entries ⟨c, i⟩).offset = (x.caches.entries ⟨c, j⟩).offset →
        (x.caches.entries ⟨c, i⟩).offset ≠ 0 → i = j) ∧
      ∀ c, ∃ t, cacheFlush depth c x.caches = .ok t ∧ ∀ k : L.Key, k.cache = c →
        bdrvPread t.file k.offset = contents (fun k : L.Key ↦ bdrvPread file k.offset) ess.flatten k := by
  obtain ⟨x, ess, hexec, hx, hco, hcells⟩ :=
    exec_refines step_refines (cacheCreate_valid file writethrough buffers) h
  have hfile : (Session.create file writethrough buffers).tables L = fun k ↦ bdrvPread file k.offset :=
    funext (contents_cacheCreate file writethrough buffers)
  rw [hfile] at hco hcells
  refine ⟨x, ess, hexec, hco, hx.distinct, fun c ↦ ?_⟩
  obtain ⟨t, hflush, ht, hclean⟩ := flushes_depth hx c
  refine ⟨t, hflush, fun k hk ↦ ?_⟩
  subst hk
  rw [← contents_clean fun i _ ↦ hclean i, ht.contents, ← hcells]
  rfl

/-- Clusters of one byte, two of which hold L2 tables. -/
def smallLayout : Layout 1 where
  admits c offset := c = .l2Table ∧ (offset = 1 ∨ offset = 2) ∨ c = .refcountBlock ∧ offset = 3
  nonzero := by
    rintro c offset (⟨-, rfl | rfl⟩ | ⟨-, rfl⟩) <;> decide
  apart := by
    rintro c offset c' offset' (⟨rfl, rfl | rfl⟩ | ⟨rfl, rfl⟩) (⟨rfl, rfl | rfl⟩ | ⟨rfl, rfl⟩) h <;> simp at h ⊢

def firstTable : smallLayout.Key := ⟨.l2Table, 1, .inl ⟨rfl, .inl rfl⟩⟩

def secondTable : smallLayout.Key := ⟨.l2Table, 2, .inl ⟨rfl, .inr rfl⟩⟩

def firstBlock : smallLayout.Key := ⟨.refcountBlock, 3, .inr ⟨rfl, rfl⟩⟩

def countingFile : File := fun a ↦ BitVec.ofNat 8 a

/-- Each cache has one entry. -/
def smallCreate : Session 1 fun _ ↦ 1 := .create countingFile (fun c ↦ c = .refcountBlock) fun _ _ ↦ 0

local instance neZeroEntry : NeZero 1 := ⟨by decide⟩

def evictingOps : List (Op smallLayout fun _ ↦ 1) :=
  [.get firstTable, .store firstTable 0 fun _ ↦ 9, .put ⟨.l2Table, 0⟩, .setDependency .l2Table .refcountBlock,
    .get firstBlock, .store firstBlock 0 fun _ ↦ 8, .get secondTable, .put ⟨.l2Table, 0⟩, .get firstTable]

theorem cache_transparent_evicting :
    Attempts step Legal smallCreate evictingOps ∧
    ∃ x ess, exec step smallCreate evictingOps = .ok (x, ess) ∧
      Coherent (fun k : smallLayout.Key ↦ bdrvPread countingFile k.offset) ess.flatten ∧
      (∀ c i j, (x.caches.entries ⟨c, i⟩).offset = (x.caches.entries ⟨c, j⟩).offset →
        (x.caches.entries ⟨c, i⟩).offset ≠ 0 → i = j) ∧
      ∀ c, ∃ t, cacheFlush depth c x.caches = .ok t ∧ ∀ k : smallLayout.Key, k.cache = c →
        bdrvPread t.file k.offset = contents
          (fun k : smallLayout.Key ↦ bdrvPread countingFile k.offset) ess.flatten k := by
  have hlegal : Attempts step Legal smallCreate evictingOps := by decide +kernel
  exact ⟨hlegal, cache_transparent smallLayout _ _ _ _ hlegal⟩

def emptyOps : List (Op smallLayout fun _ ↦ 1) :=
  [.get firstTable, .put ⟨.l2Table, 0⟩, .getEmpty secondTable, .put ⟨.l2Table, 0⟩]

/-- Nothing was ever stored, yet the second table reads as the first one. -/
theorem cache_transparent_fails :
    Attempts step Legal smallCreate (emptyOps ++ [.get secondTable]) ∧
    ∃ x ess t slot, exec step smallCreate emptyOps = .ok (x, ess) ∧
      (∀ k, lastWrite k ess.flatten = none) ∧ cacheGet x.caches .l2Table 2 = .ok (t, slot) ∧
      (t.entries slot).table = bdrvPread countingFile 1 ∧
      (t.entries slot).table ≠ bdrvPread countingFile 2 := by
  refine ⟨by decide +kernel, _, _, _, _, rfl, fun k ↦ rfl, rfl, rfl, fun h ↦ ?_⟩
  have hbyte := congrFun h 0
  revert hbyte
  decide +kernel

end Refinement

end IDeviceEmulator.Qcow2
