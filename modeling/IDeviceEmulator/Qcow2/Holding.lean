import Mathlib.Algebra.BigOperators.Fin
import Mathlib.Algebra.Order.BigOperators.Group.Finset
import Mathlib.Algebra.Group.Pi.Lemmas
import IDeviceEmulator.Qcow2.Calls

namespace IDeviceEmulator.Qcow2.Handles

open Hoare
open Leases (Account)
open Leases.Account
open Barrier (Journal Act)

/-- How often each table is held. -/
abbrev Refs := Slot cacheSize → Nat

def refs {m : Nat} (s : Caches m cacheSize) : Refs := fun slot ↦ (s.entries slot).ref

def Driver.refs {g : Geometry} (d : Driver g) : Refs := Handles.refs d.journal.caches

def total (c : Which) (r : Refs) : Nat := ∑ i, r ⟨c, i⟩

/-- So many more tables of each cache can be held. -/
def Room (n : Which → Nat) (r : Refs) : Prop := ∀ c, total c r + n c ≤ cacheSize c

def lease {c : Which} (h : Handle c) : Refs := Pi.single h.slot 1

/-- The loop of `qcow2_cache_find_entry_to_replace` passes over entries whose hits are at `INT_MAX`. -/
def Worn {m : Nat} (s : Caches m cacheSize) : Prop :=
  ∃ c : Which, (∃ i, (s.entries ⟨c, i⟩).ref = 0) ∧
    ∀ i, (s.entries ⟨c, i⟩).ref = 0 → intMax ≤ (s.entries ⟨c, i⟩).cacheHits

section Rooms

variable {n n' : Which → Nat} {r : Refs}

theorem total_add (c : Which) (r r' : Refs) : total c (r + r') = total c r + total c r' :=
  Finset.sum_add_distrib

theorem total_lease (c : Which) {c' : Which} (h : Handle c') : total c (lease h) = if c = c' then 1 else 0 := by
  unfold total
  split_ifs with hc
  · subst hc
    have hsum : ∀ i, lease h ⟨c, i⟩ = if i = h.index then 1 else 0 := by
      intro i
      rw [lease, Pi.single_apply]
      simp [Handle.slot]
    simp only [hsum, Finset.sum_ite_eq', Finset.mem_univ, if_true]
  · refine Finset.sum_eq_zero fun i _ ↦ Pi.single_eq_of_ne ?_ 1
    intro heq
    exact hc (congrArg Sigma.fst heq)

theorem Room.mono (h : Room n' r) (hn : ∀ c, n c ≤ n' c) : Room n r :=
  fun c ↦ Nat.le_trans (Nat.add_le_add_left (hn c) _) (h c)

theorem Room.lease {c : Which} (h : Room n' r) (table : Handle c) (hn : ∀ d, (if d = c then 1 else 0) + n d ≤ n' d) :
    Room n (r + lease table) := by
  intro d
  have hd := hn d
  have hroom := h d
  rw [total_add, total_lease]
  omega

theorem Room.free {c : Which} (h : Room n r) (hn : 0 < n c) : ∃ i, r ⟨c, i⟩ = 0 := by
  by_contra hall
  push Not at hall
  have hsum : ∑ _i : Fin (cacheSize c), 1 ≤ total c r := Finset.sum_le_sum fun i _ ↦ Nat.one_le_iff_ne_zero.mpr (hall i)
  have hroom := h c
  simp only [Finset.sum_const, Finset.card_univ, Fintype.card_fin, smul_eq_mul, mul_one] at hsum
  omega

end Rooms

section Accounts

def cacheStops {m : Nat} : Barrier.Stop → Journal m cacheSize → Prop
  | .fault .assertion, _ => False
  | .fault .abort, w => Worn w.caches
  | _, _ => True

def cacheAccount (m : Nat) : Account Barrier.Stop (Journal m cacheSize) Refs (Which → Nat) where
  held w := refs w.caches
  returns e := (Stop.ofCache e).returns
  room := Room
  stops := cacheStops

def driverStops {g : Geometry} : Stop → Driver g → Prop
  | .fault .assertion, _ => False
  | .fault .abort, d => Worn d.journal.caches
  | _, _ => True

def account (g : Geometry) : Account Stop (Driver g) Refs (Which → Nat) where
  held d := d.refs
  returns := Stop.returns
  room := Room
  stops := driverStops

variable {g : Geometry} {α : Type} {n : Which → Nat} {p : Refs} {q : α → Refs}

theorem triple_lift {P : Journal g.clusterSize cacheSize → Prop} {Q : α → Journal g.clusterSize cacheSize → Prop}
    {r : Refs} {x : Act g.clusterSize cacheSize α} (h : Triple P x Q ((cacheAccount g.clusterSize).Fails n r)) :
    Triple (fun d : Driver g ↦ P d.journal) (lift x) (fun a d ↦ Q a d.journal) ((account g).Fails n r) := by
  intro d hd
  unfold lift
  cases hx : x d.journal with
  | ok a w => exact h.ok hd hx
  | error e w =>
    obtain ⟨hheld, hstops⟩ := h.error hd hx
    refine ⟨hheld, fun hret hr ↦ ?_⟩
    have hstop := hstops hret hr
    cases e with
    | failed errno => trivial
    | fault f => cases f <;> exact hstop

theorem runs_lift {x : Act g.clusterSize cacheSize α} (h : (cacheAccount g.clusterSize).Runs n p x q) :
    (account g).Runs n p (lift x) q := fun r ↦ triple_lift (h r)

end Accounts

section Caches

variable {m : Nat} {size : Which → Nat} {α β : Type}

/-- What a flush leaves as it is. -/
def tags (s : Caches m size) : Slot size → Nat × Nat × Nat := fun slot ↦
  ((s.entries slot).offset, (s.entries slot).cacheHits, (s.entries slot).ref)

/-- A program that only looks after the contents of the tables. -/
def Still (x : Act m size α) : Prop :=
  ∀ k, Triple (fun w ↦ tags w.caches = k) x (fun _ w ↦ tags w.caches = k) fun e w ↦
    tags w.caches = k ∧ ∀ f, e = .fault f → f = .diverges

theorem Still.bind {x : Act m size α} {f : α → Act m size β} (hx : Still x) (hf : ∀ a, Still (f a)) :
    Still (x >>= f) := fun k ↦ (hx k).bind fun a ↦ hf a k

theorem still_pure (a : α) : Still (pure a : Act m size α) := fun _ ↦ triple_pure fun _ h ↦ h

theorem still_ite {c : Prop} [Decidable c] {x y : Act m size α} (hx : Still x) (hy : Still y) :
    Still (if c then x else y) := fun k ↦ triple_ite (fun _ ↦ hx k) fun _ ↦ hy k

theorem still_failed (errno : Barrier.Errno) : Still (throw (.failed errno) : Act m size α) := by
  intro k
  refine triple_throw fun w h ↦ ⟨h, fun f he ↦ ?_⟩
  cases he

theorem still_getCaches : Still (Barrier.getCaches : Act m size (Caches m size)) := fun _ _ h ↦ h

theorem still_note (e : Barrier.Event size) : Still (Barrier.note e : Act m size Unit) := fun _ _ h ↦ h

theorem still_modifyCaches {f : Caches m size → Caches m size} (h : ∀ s, tags (f s) = tags s) :
    Still (Barrier.modifyCaches f) := fun _ w hw ↦ (h w.caches).trans hw

theorem still_hostCall : Still (Barrier.hostCall : Act m size Unit) := by
  intro k w hw
  cases h : w.host w.calls with
  | none =>
    rw [Barrier.hostCall_of_none h]
    exact hw
  | some errno =>
    rw [Barrier.hostCall_of_some h]
    refine ⟨hw, fun f he ↦ ?_⟩
    cases he

theorem still_bdrvFlush : Still (Barrier.bdrvFlush : Act m size Unit) := still_hostCall.bind fun _ ↦ still_note _

theorem tags_modify (s : Caches m size) (slot : Slot size) {f : CachedTable m → CachedTable m}
    (h : ∀ e, (f e).offset = e.offset ∧ (f e).cacheHits = e.cacheHits ∧ (f e).ref = e.ref) :
    tags (s.modify slot f) = tags s := by
  funext slot'
  by_cases hs : slot' = slot
  · subst hs
    obtain ⟨ho, hh, hr⟩ := h (s.entries slot')
    simp only [tags, Caches.modify, Function.update_self, ho, hh, hr]
  · simp only [tags, Caches.modify, Function.update_of_ne hs]

theorem still_writeTable (slot : Slot size) : Still (Barrier.writeTable slot : Act m size Unit) := by
  refine still_getCaches.bind fun s ↦ (still_note _).bind fun _ ↦ still_hostCall.bind fun _ ↦ Still.bind ?_ fun _ ↦
    still_note _
  refine still_modifyCaches fun s ↦ ?_
  change tags (s.modify slot fun e ↦ { e with dirty := false }) = tags s
  exact tags_modify s slot fun e ↦ ⟨rfl, rfl, rfl⟩

variable {flush : Which → Act m size Unit}

theorem still_cacheFlushDependency (h : ∀ c, Still (flush c)) (c d : Which) :
    Still (Barrier.cacheFlushDependency flush c d) := (h d).bind fun _ ↦ still_modifyCaches fun _ ↦ rfl

theorem still_resolve (h : ∀ c, Still (flush c)) (s : Caches m size) (c : Which) :
    Still (Barrier.resolve flush s c) := by
  unfold Barrier.resolve
  cases s.depends c with
  | some d => exact still_cacheFlushDependency h c d
  | none => exact still_ite (still_bdrvFlush.bind fun _ ↦ still_modifyCaches fun _ ↦ rfl) (still_pure ())

theorem still_cacheEntryFlush (h : ∀ c, Still (flush c)) (slot : Slot size) :
    Still (Barrier.cacheEntryFlush flush slot) :=
  still_getCaches.bind fun s ↦ still_ite (still_pure ()) ((still_resolve h s slot.1).bind fun _ ↦ still_writeTable slot)

theorem Still.attempt {x : Act m size Unit} (h : Still x) : Still (Barrier.attempt x) := by
  intro k w hw
  unfold Barrier.attempt
  cases hx : x w with
  | ok a w' => exact (h k).ok hw hx
  | error e w' =>
    cases e with
    | failed errno => exact ((h k).error hw hx).1
    | fault f => exact (h k).error hw hx

theorem still_flushLoop (h : ∀ c, Still (flush c)) (c : Which) (is : List (Fin (size c)))
    (result : Option Barrier.Errno) : Still (Barrier.flushLoop flush c is result) := by
  induction is generalizing result with
  | nil => exact still_pure result
  | cons i is ih => exact (still_cacheEntryFlush h ⟨c, i⟩).attempt.bind fun ret ↦ ih _

theorem still_finish (result : Option Barrier.Errno) : Still (Barrier.finish result : Act m size Unit) := by
  cases result with
  | none => exact still_bdrvFlush
  | some errno => exact still_failed errno

theorem still_cacheFlush (n : Nat) (c : Which) : Still (Barrier.cacheFlush n c : Act m size Unit) := by
  induction n generalizing c with
  | zero =>
    intro k
    refine triple_throw fun w h ↦ ⟨h, fun f he ↦ ?_⟩
    cases he
    rfl
  | succ n ih => exact (still_flushLoop ih c _ none).bind fun result ↦ still_finish result

theorem still_release (c : Which) (keep : Option Which) : Still (Barrier.release c keep : Act m size Unit) := by
  refine still_getCaches.bind fun s ↦ ?_
  cases s.depends c with
  | some d => exact still_ite (still_pure ()) (still_cacheFlushDependency (still_cacheFlush depth) c d)
  | none => exact still_pure ()

theorem still_cacheSetDependency (c : Which) : Still (Barrier.cacheSetDependency c : Act m size Unit) := by
  refine (still_release _ _).bind fun _ ↦ (still_release _ _).bind fun _ ↦ Still.bind ?_ fun _ ↦ ?_
  · exact still_modifyCaches fun _ ↦ rfl
  · exact still_getCaches.bind fun _ ↦ still_note _

end Caches

section Candidates

variable {m k : Nat}

theorem foldl_candidate_none (entries : Fin k → CachedTable m) (l : List (Fin k)) (best : Option (Fin k) × Nat)
    (h : (l.foldl (candidate entries) best).1 = none) :
    best.1 = none ∧ ∀ i ∈ l, (entries i).ref = 0 → best.2 ≤ (entries i).cacheHits := by
  induction l generalizing best with
  | nil => exact ⟨h, fun i hi ↦ by cases hi⟩
  | cons a l ih =>
    obtain ⟨hnone, hall⟩ := ih (candidate entries best a) h
    unfold candidate at hnone hall
    split_ifs at hnone hall with href hlt
    · refine ⟨hnone, fun i hi hi0 ↦ ?_⟩
      rcases List.mem_cons.mp hi with rfl | hi
      · exact absurd hi0 href
      · exact hall i hi hi0
    · refine ⟨hnone, fun i hi hi0 ↦ ?_⟩
      rcases List.mem_cons.mp hi with rfl | hi
      · exact Nat.le_of_not_lt hlt
      · exact hall i hi hi0

theorem victim_none {entries : Fin k → CachedTable m} (h : victim entries = none) {i : Fin k}
    (hi : (entries i).ref = 0) : intMax ≤ (entries i).cacheHits :=
  (foldl_candidate_none entries _ _ h).2 i (List.mem_finRange i) hi

end Candidates

section Requests

variable {m : Nat} {n : Which → Nat} {r : Refs} {c : Which} {offset : Nat} {s t : Caches m cacheSize}

theorem refs_of_tags (h : tags s = tags t) : refs s = refs t :=
  funext fun slot ↦ congrArg (fun e ↦ e.2.2) (congrFun h slot)

theorem offset_of_tags (h : tags s = tags t) (slot : Slot cacheSize) :
    (s.entries slot).offset = (t.entries slot).offset := congrArg Prod.fst (congrFun h slot)

theorem Still.runs {α : Type} {x : Act m cacheSize α} (h : Still x) : (cacheAccount m).Runs n 0 x fun _ ↦ 0 := by
  intro r
  apply triple_of_forall
  intro w hw
  refine (h (tags w.caches)).weaken ?_ ?_ ?_
  · rintro _ rfl
    rfl
  · exact fun _ w' hq ↦ (refs_of_tags hq).trans hw
  · intro e w' ⟨hq, hf⟩
    refine ⟨fun _ ↦ (refs_of_tags hq).trans hw, fun _ _ ↦ ?_⟩
    cases e with
    | failed errno => trivial
    | fault f =>
      cases hf f rfl
      trivial

theorem refs_modify (slot : Slot cacheSize) (f : CachedTable m → CachedTable m) :
    refs (s.modify slot f) = Function.update (refs s) slot (f (s.entries slot)).ref := by
  funext slot'
  by_cases hs : slot' = slot
  · subst hs
    simp only [refs, Caches.modify, Function.update_self]
  · simp only [refs, Caches.modify, Function.update_of_ne hs]

theorem refs_modify_same (slot : Slot cacheSize) {f : CachedTable m → CachedTable m}
    (h : ∀ e, (f e).ref = e.ref) : refs (s.modify slot f) = refs s := by
  rw [refs_modify, h]
  exact Function.update_eq_self slot (refs s)

theorem lease_self (h : Handle c) : (r + lease h) h.slot = r h.slot + 1 := by
  simp only [lease, Pi.add_apply, Pi.single_eq_same]

theorem update_lease (h : Handle c) : Function.update r h.slot (r h.slot + 1) = r + lease h := by
  funext slot
  by_cases hs : slot = h.slot
  · subst hs
    rw [Function.update_self, lease_self]
  · simp only [Function.update_of_ne hs, lease, Pi.add_apply, Pi.single_eq_of_ne hs, Nat.add_zero]

theorem update_put (h : Handle c) : Function.update (r + lease h) h.slot ((r + lease h) h.slot - 1) = r := by
  funext slot
  by_cases hs : slot = h.slot
  · subst hs
    rw [Function.update_self, lease_self, Nat.add_sub_cancel]
  · simp only [Function.update_of_ne hs, lease, Pi.add_apply, Pi.single_eq_of_ne hs, Nat.add_zero]

theorem runs_cachePut (h : Handle c) : (cacheAccount m).Runs n (lease h) (Barrier.cachePut h.slot) fun _ ↦ 0 := by
  intro r w hw
  have hheld : (w.caches.entries h.slot).ref = r h.slot + 1 := (congrFun hw h.slot).trans (lease_self h)
  have hput : refs (w.caches.modify h.slot fun e ↦ { e with ref := e.ref - 1 }) = r := by
    have hw' : refs w.caches = r + lease h := hw
    rw [refs_modify]
    change Function.update (refs w.caches) h.slot (refs w.caches h.slot - 1) = r
    rw [hw']
    exact update_put h
  have hrest : Barrier.cachePut h.slot w =
      (if w.caches.writethrough h.slot.1 then Barrier.cacheEntryFlush (Barrier.cacheFlush depth) h.slot else pure () :
        Act m cacheSize Unit) { w with caches := w.caches.modify h.slot fun e ↦ { e with ref := e.ref - 1 } } := by
    change (if (w.caches.entries h.slot).ref = 0 then _ else _ : Act m cacheSize Unit) w = _
    rw [if_neg (by omega)]
    rfl
  rw [hrest]
  have hflush : Still (Barrier.cacheEntryFlush (Barrier.cacheFlush depth) h.slot : Act m cacheSize Unit) :=
    still_cacheEntryFlush (still_cacheFlush depth) h.slot
  have hstill := still_ite (c := w.caches.writethrough h.slot.1 = true) hflush (still_pure ())
  refine hstill.runs (n := n) r _ ?_
  rw [add_zero]
  exact hput

theorem lookup_congr (h : ∀ i, (s.entries ⟨c, i⟩).offset = (t.entries ⟨c, i⟩).offset) :
    lookup s c offset = lookup t c offset := by
  unfold lookup
  simp only [h]

theorem lookup_of_unique {i : Fin (cacheSize c)} (h : (s.entries ⟨c, i⟩).offset = offset)
    (hunique : ∀ j, (s.entries ⟨c, j⟩).offset = offset → j = i) : lookup s c offset = some i := by
  cases hl : lookup s c offset with
  | none => exact absurd h (offset_ne_of_lookup hl i)
  | some j => rw [hunique j (offset_of_lookup hl)]

/-- The table that is handed out is the one that the caller holds from now on. -/
def Found (r : Refs) (c : Which) (offset : Nat) (w : Journal m cacheSize) : Prop :=
  ∃ i, lookup w.caches c offset = some i ∧ refs w.caches = r + lease ⟨i⟩

theorem spec_hold (h : Handle c) :
    Triple (fun w : Journal m cacheSize ↦ refs w.caches = r ∧ lookup w.caches c offset = some h.index)
      (Barrier.hold h.slot) (fun _ ↦ Found r c offset) ((cacheAccount m).Fails n r) := by
  refine Barrier.triple_getCaches fun s ↦ triple_ite (fun _ ↦ triple_throw ?_) fun _ ↦ ?_
  · intro w _
    refine ⟨fun hret ↦ ?_, fun _ _ ↦ trivial⟩
    cases hret
  · refine Barrier.triple_modifyCaches ?_
    rintro w ⟨⟨hr, hl⟩, rfl⟩
    refine ⟨h.index, ?_, ?_⟩
    · rw [← hl]
      refine lookup_congr fun i ↦ ?_
      by_cases hi : (⟨c, i⟩ : Slot cacheSize) = h.slot
      · rw [hi]
        simp only [Caches.modify, Function.update_self]
      · simp only [Caches.modify, Function.update_of_ne hi]
    · rw [refs_modify]
      change Function.update (refs w.caches) h.slot (refs w.caches h.slot + 1) = _
      rw [hr]
      exact update_lease h

theorem spec_fetch {P : Journal m cacheSize → Prop} (hP : ∀ w k, P w → P { w with calls := k }) (readFromDisk : Bool) :
    Triple P (Barrier.fetch readFromDisk) (fun _ ↦ P) fun e w ↦ (∃ errno, e = .failed errno) ∧ P w := by
  unfold Barrier.fetch
  refine triple_ite (fun _ ↦ ?_) fun _ ↦ triple_pure fun _ h ↦ h
  intro w hw
  cases hh : w.host w.calls with
  | none =>
    rw [Barrier.hostCall_of_none hh]
    exact hP w _ hw
  | some errno =>
    rw [Barrier.hostCall_of_some hh]
    exact ⟨⟨errno, rfl⟩, hP w _ hw⟩

theorem spec_load (h : Handle c) (readFromDisk : Bool) :
    Triple (fun w : Journal m cacheSize ↦ refs w.caches = r ∧ ∀ j, (w.caches.entries ⟨c, j⟩).offset ≠ offset)
      (Barrier.load h.slot offset readFromDisk)
      (fun _ w ↦ refs w.caches = r ∧ lookup w.caches c offset = some h.index) ((cacheAccount m).Fails n r) := by
  let others (w : Journal m cacheSize) : Prop :=
    refs w.caches = r ∧ ∀ j, j ≠ h.index → (w.caches.entries ⟨c, j⟩).offset ≠ offset
  have hslot : ∀ j, j ≠ h.index → (⟨c, j⟩ : Slot cacheSize) ≠ h.slot := by
    intro j hj heq
    have hsnd := congrArg (fun x : Slot cacheSize ↦ x) heq
    simp only [Handle.slot, Sigma.mk.injEq, heq_eq_eq, true_and] at hsnd
    exact hj hsnd
  refine Triple.bind (R := fun _ ↦ others) (Barrier.triple_modifyCaches ?_) fun _ ↦
    Triple.bind (R := fun _ ↦ others) ?_ fun _ ↦ Barrier.triple_modifyCaches ?_
  · rintro w ⟨hr, hnone⟩
    have hsame : refs (w.caches.modify h.slot fun e ↦ { e with offset := 0 }) = refs w.caches :=
      refs_modify_same h.slot fun _ ↦ rfl
    refine ⟨hsame.trans hr, fun j hj ↦ ?_⟩
    simp only [Caches.modify, Function.update_of_ne (hslot j hj)]
    exact hnone j
  · refine (spec_fetch (P := others) (fun w k hw ↦ hw) readFromDisk).weaken (fun _ hw ↦ hw) (fun _ _ hw ↦ hw) ?_
    rintro e w ⟨⟨errno, rfl⟩, hw⟩
    exact ⟨fun _ ↦ hw.1, fun hret ↦ by cases hret⟩
  · rintro w ⟨hr, hnone⟩
    have hsame : refs (cacheReplace w.caches h.slot offset readFromDisk) = refs w.caches := by
      refine refs_modify_same h.slot fun e ↦ ?_
      rfl
    refine ⟨hsame.trans hr, lookup_of_unique ?_ ?_⟩
    · have hself : (⟨c, h.index⟩ : Slot cacheSize) = h.slot := rfl
      rw [hself]
      simp only [cacheReplace, Caches.modify, Function.update_self]
    · intro j hj
      by_contra hne
      simp only [cacheReplace, Caches.modify, Function.update_of_ne (hslot j hne)] at hj
      exact hnone j hne hj

theorem refs_decay (c : Which) : refs (decay s c) = refs s := funext fun slot ↦ Barrier.decay_ref s c slot

theorem decay_offset (c : Which) (slot : Slot cacheSize) :
    ((decay s c).entries slot).offset = (s.entries slot).offset := by
  simp only [decay]
  split <;> rfl

theorem spec_cacheDoGet (hn : 0 < n c) (readFromDisk : Bool) :
    Triple (fun w : Journal m cacheSize ↦ refs w.caches = r) (Barrier.cacheDoGet c offset readFromDisk)
      (fun _ ↦ Found r c offset) ((cacheAccount m).Fails n r) := by
  refine Barrier.triple_getCaches fun s ↦ ?_
  cases hl : lookup s c offset with
  | some i =>
    refine (spec_hold ⟨i⟩).strengthen ?_
    rintro w ⟨hr, rfl⟩
    exact ⟨hr, hl⟩
  | none =>
    dsimp only
    cases hv : victim fun i ↦ s.entries ⟨c, i⟩ with
    | none =>
      refine triple_throw ?_
      rintro w ⟨hr, rfl⟩
      refine ⟨fun hret ↦ ?_, fun _ hroom ↦ ?_⟩
      · cases hret
      · obtain ⟨i, hi⟩ := Room.free hroom hn
        have hworn : Worn w.caches := ⟨c, ⟨i, (congrFun hr _).trans hi⟩, fun i hi ↦ victim_none hv hi⟩
        exact hworn
    | some i =>
      let ready (w : Journal m cacheSize) : Prop :=
        refs w.caches = r ∧ ∀ j, (w.caches.entries ⟨c, j⟩).offset ≠ offset
      have hflush : Triple ready (Barrier.cacheEntryFlush (Barrier.cacheFlush depth) ⟨c, i⟩) (fun _ ↦ ready)
          ((cacheAccount m).Fails n r) := by
        apply triple_of_forall
        intro w ⟨hr, hnone⟩
        refine (still_cacheEntryFlush (still_cacheFlush depth) ⟨c, i⟩ (tags w.caches)).weaken ?_ ?_ ?_
        · rintro _ rfl
          rfl
        · exact fun _ w' hq ↦ ⟨(refs_of_tags hq).trans hr, fun j ↦ offset_of_tags hq ⟨c, j⟩ ▸ hnone j⟩
        · intro e w' ⟨hq, hf⟩
          refine ⟨fun _ ↦ (refs_of_tags hq).trans hr, fun _ _ ↦ ?_⟩
          cases e with
          | failed errno => trivial
          | fault f =>
            cases hf f rfl
            trivial
      refine Triple.bind (R := fun _ ↦ ready) (Barrier.triple_modifyCaches ?_) fun _ ↦ hflush.bind fun _ ↦
        (spec_load ⟨i⟩ readFromDisk).bind fun _ ↦ spec_hold ⟨i⟩
      rintro w ⟨hr, rfl⟩
      exact ⟨(refs_decay c).trans hr, fun j ↦ (decay_offset c _).trans_ne (offset_ne_of_lookup hl j)⟩

end Requests

section Calls

variable {g : Geometry} {α : Type} {n n' : Which → Nat} {p f : Refs} {q : α → Refs} {x : Io g α} {c : Which}

/-- Whatever is called holds in the end what it held. -/
abbrev Balanced (n : Which → Nat) (x : Io g α) : Prop := (account g).Runs n 0 x fun _ ↦ 0

/-- A table is handed to the caller. -/
abbrev Takes (n : Which → Nat) (x : Io g (Handle c)) : Prop := (account g).Runs n 0 x lease

/-- The caller's tables leave enough room for the call. -/
def Fits (n n' : Which → Nat) (f : Refs) : Prop := ∀ r, Room n' r → Room n (r + f)

theorem fits_zero (h : ∀ c, n c ≤ n' c) : Fits n n' 0 := by
  intro r hr
  rw [add_zero]
  exact hr.mono h

theorem fits_lease {table : Handle c} (h : ∀ d, (if d = c then 1 else 0) + n d ≤ n' d) : Fits n n' (lease table) :=
  fun _ hr ↦ hr.lease table h

theorem runs_done (a : α) : (account g).Runs n p (pure a) fun _ ↦ p := runs_pure (q := fun _ ↦ p) a

def handed (q : α → Refs) : Except Failure α → Refs
  | .ok a => q a
  | .error _ => 0

theorem runs_attempt (h : (account g).Runs n p x q) : (account g).Runs n p (attempt x) (handed q) := by
  have hfits : Fits n n 0 := fits_zero fun _ ↦ Nat.le_refl _
  have hrun := Runs.attempt h hfits
  rw [add_zero] at hrun
  refine fun r ↦ (hrun r).weaken (fun _ hs ↦ hs) ?_ fun _ _ he ↦ he
  intro a d hd
  cases a with
  | ok a => exact hd
  | error e => exact hd

theorem runs_attempt_holding (h : Balanced n x) (hfits : Fits n n' f) :
    (account g).Runs n' f (attempt x) fun _ ↦ f := by
  have hrun := Runs.attempt h hfits
  rw [zero_add] at hrun
  refine fun r ↦ (hrun r).weaken (fun _ hs ↦ hs) ?_ fun _ _ he ↦ he
  intro a d hd
  cases a with
  | ok a =>
    change _ = r + (0 + f) at hd
    rw [zero_add] at hd
    exact hd
  | error e => exact hd

theorem runs_onFailure {cleanup : Io g Unit} (h : Balanced n x)
    (hcleanup : (account g).Runs n' f cleanup fun _ ↦ 0) (hfits : Fits n n' f) :
    (account g).Runs n' f (onFailure x cleanup) fun _ ↦ f := by
  have hrun := Runs.onFailure h hcleanup hfits
  simp only [zero_add] at hrun
  exact hrun

theorem runs_ignore {x : Io g Unit} (h : Balanced n x) (hfits : Fits n n' f) :
    (account g).Runs n' f (ignore x) fun _ ↦ f := (runs_attempt_holding h hfits).bind fun _ ↦ runs_done ()

theorem Still.balanced {x : Act g.clusterSize cacheSize α} (h : Still x) : Balanced n (lift x) := runs_lift h.runs

theorem balanced_hostCall : Balanced n (hostCall : Io g Unit) := still_hostCall.balanced

theorem balanced_bdrvFlush : Balanced n (bdrvFlush : Io g Unit) := still_bdrvFlush.balanced

theorem balanced_cacheFlush (c : Which) : Balanced n (cacheFlush c : Io g Unit) := (still_cacheFlush depth c).balanced

theorem balanced_cacheSetDependency (c : Which) : Balanced n (cacheSetDependency c : Io g Unit) :=
  (still_cacheSetDependency c).balanced

theorem handOut_eq {d : Driver g} {offset : Nat} {i : Fin (cacheSize c)}
    (h : lookup d.journal.caches c offset = some i) : handOut c offset d = .ok ⟨i⟩ d := by
  change handOver c (lookup d.journal.caches c offset) d = _
  rw [h]
  rfl

theorem takes_cacheDoGet (hn : 0 < n c) (offset : Nat) (readFromDisk : Bool) :
    Takes n (cacheDoGet c offset readFromDisk : Io g (Handle c)) := by
  intro r
  refine Triple.bind (R := fun _ d ↦ Found r c offset d.journal) (triple_lift (spec_cacheDoGet hn readFromDisk))
    fun _ ↦ ?_
  rintro d ⟨i, hl, hr⟩
  rw [handOut_eq hl]
  exact hr

theorem runs_put (h : Handle c) : (account g).Runs n (lease h) (cachePut h) fun _ ↦ 0 := runs_lift (runs_cachePut h)

theorem runs_ignore_put (h : Handle c) : (account g).Runs n (lease h) (ignore (cachePut h)) fun _ ↦ 0 := by
  refine (runs_attempt (runs_put h)).bind fun a ↦ ?_
  cases a with
  | ok a => exact runs_done ()
  | error e => exact runs_done ()

theorem runs_cacheStep {f : Caches g.clusterSize cacheSize → Caches g.clusterSize cacheSize}
    (h : ∀ s, refs (f s) = refs s) : (account g).Runs n p (lift (Barrier.modifyCaches f)) fun _ ↦ p :=
  fun _ d hd ↦ (h d.journal.caches).trans hd

theorem runs_markDirty (h : Handle c) : (account g).Runs n p (markDirty h) fun _ ↦ p :=
  runs_cacheStep fun _ ↦ refs_modify_same h.slot fun _ ↦ rfl

theorem runs_store (h : Handle c) (t : Table g.clusterSize) : (account g).Runs n p (store h t) fun _ ↦ p :=
  runs_cacheStep fun _ ↦ refs_modify_same h.slot fun _ ↦ rfl

theorem runs_tableOf (h : Handle c) : (account g).Runs n p (tableOf h) fun _ ↦ p := fun _ _ hd ↦ hd

end Calls

end IDeviceEmulator.Qcow2.Handles
