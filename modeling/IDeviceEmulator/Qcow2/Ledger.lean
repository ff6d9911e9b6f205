import Mathlib.Order.Lattice
import IDeviceEmulator.Library.Hoare
import IDeviceEmulator.Qcow2.Refcount

namespace IDeviceEmulator.Qcow2

open Hoare

section Specs

variable {α β : Type} {I I' : Image → Prop} {Q Q' : α → Image → Prop} {E E' : Image → Prop} {x : Io α}

/-- A function that is called with `I` returns with `Q`, or a negative value with `E`. -/
def Spec (I : Image → Prop) (x : Io α) (Q : α → Image → Prop) (E : Image → Prop) : Prop :=
  Triple (fun w ↦ I w.image) x (fun a w ↦ Q a w.image) fun e w ↦ e = .failed → E w.image

theorem Spec.weaken (h : Spec I x Q E) (hI : ∀ img, I' img → I img) (hQ : ∀ a img, Q a img → Q' a img)
    (hE : ∀ img, E img → E' img) : Spec I' x Q' E' :=
  Triple.weaken h (fun _ hw ↦ hI _ hw) (fun _ _ hq ↦ hQ _ _ hq) fun _ _ he hf ↦ hE _ (he hf)

theorem Spec.ok {img : Image} {answers : List Answer} {a : α} {w : World} (h : Spec I x Q E) (hi : I img)
    (hx : x ⟨img, answers⟩ = .ok a w) : Q a w.image := Triple.ok (s := ⟨img, answers⟩) h hi hx

theorem Spec.failed {img : Image} {answers : List Answer} {w : World} (h : Spec I x Q E) (hi : I img)
    (hx : x ⟨img, answers⟩ = .error .failed w) : E w.image := Triple.error (s := ⟨img, answers⟩) h hi hx rfl

/-- The same for one image. -/
theorem Spec.at {img : Image} (h : Spec I x Q E) (hi : I img) (hE : ∀ img, E img → E' img) : Spec (· = img) x Q E' :=
  h.weaken (fun _ he ↦ he ▸ hi) (fun _ _ hq ↦ hq) hE

theorem Spec.bind {R : α → Image → Prop} {Q : β → Image → Prop} {f : α → Io β} (hx : Spec I x R E)
    (hf : ∀ a, Spec (R a) (f a) Q E) : Spec I (x >>= f) Q E :=
  Triple.bind hx hf

theorem spec_pure {a : α} (h : ∀ img, I img → Q a img) : Spec I (pure a) Q E := triple_pure fun _ hw ↦ h _ hw

theorem spec_failed (h : ∀ img, I img → E img) : Spec I (throw Stop.failed : Io α) Q E :=
  triple_throw fun _ hw _ ↦ h _ hw

theorem spec_abort : Spec I (throw Stop.abort : Io α) Q E := triple_throw fun _ _ hf ↦ by cases hf

theorem spec_ite {c : Prop} [Decidable c] {y : Io α} (hx : c → Spec I x Q E) (hy : ¬ c → Spec I y Q E) :
    Spec I (if c then x else y) Q E := triple_ite hx hy

theorem spec_of_forall (h : ∀ img, I img → Spec (· = img) x Q E) : Spec I x Q E :=
  fun w hw ↦ h w.image hw w rfl

theorem spec_answer : Spec I answer (fun _ ↦ I) I := by
  intro w hw
  unfold answer
  cases w.answers with
  | nil => exact fun _ ↦ hw
  | cons a rest => exact hw

theorem spec_check (a : Answer) : Spec I (check a) (fun _ ↦ I) I := by
  unfold check
  split_ifs
  · exact spec_pure fun _ h ↦ h
  · exact spec_failed fun _ h ↦ h

theorem spec_hostIo : Spec I hostIo (fun _ ↦ I) I := spec_answer.bind spec_check

theorem spec_hostIo_at {img : Image} (h : E img) : Spec (· = img) hostIo (fun _ ↦ (· = img)) E :=
  spec_hostIo.weaken (fun _ hi ↦ hi) (fun _ _ hi ↦ hi) fun _ hi ↦ hi ▸ h

theorem spec_modifyImage {f : Image → Image} {Q : Unit → Image → Prop} (h : ∀ img, I img → Q () (f img)) :
    Spec I (modifyImage f) Q E := fun w hw ↦ h w.image hw

theorem spec_getImage_bind {Q : β → Image → Prop} {f : Image → Io β} (h : ∀ img, I img → Spec (· = img) (f img) Q E) :
    Spec I (getImage >>= f) Q E :=
  fun w hw ↦ h w.image hw w rfl

theorem spec_attempt {x : Io Unit} {Q E F : Image → Prop} (h : Spec I x (fun _ ↦ Q) E) :
    Spec I (attempt x) (fun ok ↦ if ok then Q else E) F := by
  intro w hw
  unfold attempt
  cases hx : x w with
  | ok a t => exact Triple.ok h hw hx
  | error e t =>
    cases e with
    | failed => exact Triple.error h hw hx rfl
    | abort => exact fun hf ↦ by cases hf

theorem Spec.and (h : Spec I x Q E) (h' : Spec I' x Q' E') :
    Spec (fun img ↦ I img ∧ I' img) x (fun a img ↦ Q a img ∧ Q' a img) fun img ↦ E img ∧ E' img := by
  intro w hw
  cases hx : x w with
  | ok a t => exact ⟨Triple.ok h hw.1 hx, Triple.ok h' hw.2 hx⟩
  | error e t => exact fun hf ↦ ⟨Triple.error h hw.1 hx hf, Triple.error h' hw.2 hx hf⟩

theorem spec_attempt_at {x : Io Unit} {img : Image} (h : Spec (· = img) x (fun _ ↦ (· = img)) (· = img)) :
    Spec (· = img) (attempt x) (fun _ ↦ (· = img)) E :=
  (spec_attempt h).weaken (fun _ hi ↦ hi) (fun ok _ hi ↦ by cases ok <;> exact hi) fun _ hi ↦ hi

/-- A call whose result is ignored. -/
theorem spec_attempt_bind {x : Io Unit} {R : Image → Prop} {Q : β → Image → Prop} {y : Io β}
    (h : Spec I x (fun _ ↦ R) R) (hy : Spec R y Q E) : Spec I (attempt x >>= fun _ ↦ y) Q E := by
  refine (spec_attempt h).bind fun ok ↦ ?_
  cases ok <;> exact hy

end Specs

section Books

/-- The books on the clusters: what the tables refer to (`T`), what is owned and what is due to be given back is
covered by the refcounts. Clusters that are owned, and those in `C`, are counted once. -/
structure Books (T : Nat → Nat) (C : Nat → Prop) (own : Nat → Nat) (due : List Nat) (img : Image) : Prop where
  ledger : ∀ h, T h + img.refcountClusters.count h + own h + due.count h ≤ img.refcount h
  own_le : ∀ h, own h ≠ 0 → img.refcount h ≤ 1
  single_le : ∀ h, C h → img.refcount h ≤ 1

/-- Only the refcounts differ. -/
structure SameTables (img img' : Image) : Prop where
  l1Table : img'.l1Table = img.l1Table
  l1TableOffset : img'.l1TableOffset = img.l1TableOffset
  l2Table : img'.l2Table = img.l2Table

theorem SameTables.refl (img : Image) : SameTables img img := ⟨rfl, rfl, rfl⟩

theorem SameTables.trans {a b c : Image} (h : SameTables a b) (h' : SameTables b c) : SameTables a c :=
  ⟨h'.1.trans h.1, h'.2.trans h.2, h'.3.trans h.3⟩

variable {T : Nat → Nat} {C : Nat → Prop} {own : Nat → Nat} {due clusters : List Nat} {img img' : Image}

/-- The clusters that can be counted up without a check. -/
def Free (C : Nat → Prop) (own : Nat → Nat) (clusters : List Nat) : Prop := ∀ c ∈ clusters, own c = 0 ∧ ¬ C c

theorem Books.free_of_zero (hC : ∀ h, C h → 1 ≤ T h) (h : Books T C own due img)
    (hz : ∀ c ∈ clusters, img.refcount c = 0) : Free C own clusters := by
  intro c hc
  have hledger := h.ledger c
  have hzero := hz c hc
  refine ⟨by omega, fun hsingle ↦ ?_⟩
  have hrefs := hC c hsingle
  omega

theorem Books.free_of_due (hC : ∀ h, C h → 1 ≤ T h) (h : Books T C own (clusters ++ due) img) :
    Free C own clusters := by
  intro c hc
  have hledger := h.ledger c
  have hcount := List.count_pos_iff.mpr hc
  rw [List.count_append] at hledger
  refine ⟨?_, fun hsingle ↦ ?_⟩
  · by_contra hown
    have hle := h.own_le c hown
    omega
  · have hrefs := hC c hsingle
    have hle := h.single_le c hsingle
    omega

theorem Books.drop_due (h : Books T C own (clusters ++ due) img) : Books T C own due img := by
  refine ⟨fun c ↦ ?_, h.own_le, h.single_le⟩
  have hledger := h.ledger c
  rw [List.count_append] at hledger
  omega

theorem Books.perm {due' : List Nat} (h : Books T C own due img) (hp : due.Perm due') : Books T C own due' img := by
  refine ⟨fun c ↦ ?_, h.own_le, h.single_le⟩
  rw [← hp.count_eq c]
  exact h.ledger c

def addOwn (own : Nat → Nat) (clusters : List Nat) (h : Nat) : Nat := own h + clusters.count h

theorem Books.own_to_due (h : Books T C (addOwn own clusters) due img) : Books T C own (clusters ++ due) img := by
  refine ⟨fun c ↦ ?_, fun c hc ↦ h.own_le c (by unfold addOwn; omega), h.single_le⟩
  have hledger := h.ledger c
  rw [List.count_append]
  unfold addOwn at hledger
  omega

theorem Books.due_to_own (h : Books T C own (clusters ++ due) img) (hle : ∀ c ∈ clusters, img.refcount c ≤ 1) :
    Books T C (addOwn own clusters) due img := by
  refine ⟨fun c ↦ ?_, fun c hc ↦ ?_, h.single_le⟩
  · have hledger := h.ledger c
    rw [List.count_append] at hledger
    unfold addOwn
    omega
  · by_cases hmem : c ∈ clusters
    · exact hle c hmem
    · refine h.own_le c ?_
      rwa [addOwn, List.count_eq_zero_of_not_mem hmem, Nat.add_zero] at hc

end Books

section Refcounts

variable {g : Geometry} {T : Nat → Nat} {C : Nat → Prop} {own : Nat → Nat} {due clusters : List Nat} {img img₀ : Image}

theorem takeCluster_same (img : Image) (c : Nat) : SameTables img (takeCluster img c) := by
  unfold takeCluster
  split_ifs <;> exact ⟨rfl, rfl, rfl⟩

theorem dropCluster_same (img : Image) (c : Nat) : SameTables img (dropCluster img c) := by
  unfold dropCluster
  split_ifs <;> exact ⟨rfl, rfl, rfl⟩

theorem Books.takeCluster (h : Books T C own due img) (c : Nat) : Books T C own due (takeCluster img c) := by
  unfold Qcow2.takeCluster
  split_ifs with hc
  · have hzero := h.ledger c
    refine ⟨fun d ↦ ?_, fun d hd ↦ ?_, fun d hd ↦ ?_⟩
    · have hledger := h.ledger d
      by_cases hdc : d = c
      · subst hdc
        simp only [List.count_cons_self, Function.update_self]
        omega
      · simpa only [List.count_cons_of_ne (Ne.symm hdc), Function.update_of_ne hdc] using hledger
    · by_cases hdc : d = c
      · subst hdc
        simp
      · simpa [Function.update_of_ne hdc] using h.own_le d hd
    · by_cases hdc : d = c
      · subst hdc
        simp
      · simpa [Function.update_of_ne hdc] using h.single_le d hd
  · exact h

/-- Counting down what nothing is booked on. -/
theorem Books.countDown (h : Books T C own due img) (img' : Image) (hle : ∀ d, img'.refcount d ≤ img.refcount d)
    (hledger : ∀ d, T d + img'.refcountClusters.count d + own d + due.count d ≤ img'.refcount d) :
    Books T C own due img' :=
  ⟨hledger, fun d hd ↦ (hle d).trans (h.own_le d hd), fun d hd ↦ (hle d).trans (h.single_le d hd)⟩

theorem Books.dropCluster (h : Books T C own due img) (c : Nat) : Books T C own due (dropCluster img c) := by
  unfold Qcow2.dropCluster
  split_ifs with hc
  · refine h.countDown _ (fun d ↦ ?_) fun d ↦ ?_
    · by_cases hdc : d = c
      · subst hdc
        simp
      · simp [Function.update_of_ne hdc]
    · have hledger := h.ledger d
      by_cases hdc : d = c
      · subst hdc
        have hpos := List.count_pos_iff.mpr hc
        simp only [List.count_erase_self, Function.update_self]
        omega
      · simpa only [List.count_erase_of_ne hdc, Function.update_of_ne hdc] using hledger
  · exact h

/-- The books are kept and the tables are those of a given image. -/
def Kept (T : Nat → Nat) (C : Nat → Prop) (img₀ : Image) (own : Nat → Nat) (due : List Nat) (img : Image) : Prop :=
  Books T C own due img ∧ SameTables img₀ img

theorem Kept.passClusters (h : Kept T C img₀ own due img) (n : Nat) : Kept T C img₀ own due (passClusters n img) :=
  ⟨⟨h.1.ledger, h.1.own_le, h.1.single_le⟩, h.2.trans ⟨rfl, rfl, rfl⟩⟩

theorem spec_allocRefcountBlock :
    Spec (Kept T C img₀ own due) allocRefcountBlock (fun _ ↦ Kept T C img₀ own due) (Kept T C img₀ own due) := by
  refine spec_answer.bind fun a ↦ Spec.bind (spec_modifyImage fun img h ↦ ?_) fun _ ↦ spec_check a
  have htaken : Kept T C img₀ own due (a.taken.foldl takeCluster img) := by
    refine List.foldlRecOn a.taken takeCluster h fun img h c _ ↦ ?_
    exact ⟨h.1.takeCluster c, h.2.trans (takeCluster_same img c)⟩
  refine List.foldlRecOn a.dropped dropCluster (htaken.passClusters a.searched) fun img h c _ ↦ ?_
  exact ⟨h.1.dropCluster c, h.2.trans (dropCluster_same img c)⟩

theorem spec_nextBlock (prev : Option Nat) (c : Nat) :
    Spec (Kept T C img₀ own due) (nextBlock g prev c) (fun _ ↦ Kept T C img₀ own due) (Kept T C img₀ own due) := by
  refine spec_ite (fun _ ↦ spec_pure fun _ h ↦ h) fun _ ↦ ?_
  refine Spec.bind (R := fun _ ↦ Kept T C img₀ own due) ?_ fun _ ↦ spec_allocRefcountBlock
  exact spec_ite (fun _ ↦ spec_pure fun _ h ↦ h) fun _ ↦ spec_hostIo

theorem spec_increment {c : Nat} (hc : Free C own [c]) :
    Spec (Kept T C img₀ own due) (increment g c) (fun _ ↦ Kept T C img₀ own (c :: due))
      (Kept T C img₀ own due) := by
  refine spec_getImage_bind fun img h ↦ spec_ite (fun _ ↦ spec_failed fun _ hi ↦ hi ▸ h) fun _ ↦ ?_
  refine spec_modifyImage fun img' hi ↦ ?_
  subst hi
  obtain ⟨hown, hsingle⟩ := hc c List.mem_cons_self
  refine ⟨⟨fun d ↦ ?_, fun d hd ↦ ?_, fun d hd ↦ ?_⟩, h.2.trans ⟨rfl, rfl, rfl⟩⟩
  · have hledger := h.1.ledger d
    by_cases hdc : d = c
    · subst hdc
      simp only [List.count_cons_self, Function.update_self]
      omega
    · simpa only [List.count_cons_of_ne (Ne.symm hdc), Function.update_of_ne hdc] using hledger
  · have hdc : d ≠ c := by
      rintro rfl
      exact hd hown
    simpa only [Function.update_of_ne hdc] using h.1.own_le d hd
  · have hdc : d ≠ c := by
      rintro rfl
      exact hsingle hd
    simpa only [Function.update_of_ne hdc] using h.1.single_le d hd

theorem spec_decrement {c : Nat} :
    Spec (Kept T C img₀ own (c :: due)) (decrement c) (fun _ ↦ Kept T C img₀ own due)
      (Kept T C img₀ own (c :: due)) := by
  refine spec_getImage_bind fun img h ↦ spec_ite (fun _ ↦ spec_failed fun _ hi ↦ hi ▸ h) fun _ ↦ ?_
  refine spec_modifyImage fun img' hi ↦ ?_
  subst hi
  have hrest : Books T C own due img' := Books.drop_due (show Books T C own ([c] ++ due) img' from h.1)
  refine ⟨hrest.countDown _ (fun d ↦ ?_) fun d ↦ ?_, h.2.trans ⟨rfl, rfl, rfl⟩⟩
  · by_cases hdc : d = c
    · subst hdc
      simp
    · simp [Function.update_of_ne hdc]
  · have hledger := h.1.ledger d
    by_cases hdc : d = c
    · subst hdc
      simp only [List.count_cons_self] at hledger
      simp only [Function.update_self]
      omega
    · simp only [List.count_cons_of_ne (Ne.symm hdc)] at hledger
      simpa only [Function.update_of_ne hdc] using hledger

theorem spec_updateCluster_up (prev : Option Nat) {c : Nat} (hc : Free C own [c]) :
    Spec (Kept T C img₀ own due) (updateCluster g true prev c) (fun _ ↦ Kept T C img₀ own (c :: due))
      (Kept T C img₀ own due) := (spec_nextBlock prev c).bind fun _ ↦ spec_increment hc

theorem spec_updateCluster_down (prev : Option Nat) (c : Nat) :
    Spec (Kept T C img₀ own (c :: due)) (updateCluster g false prev c) (fun _ ↦ Kept T C img₀ own due)
      (Kept T C img₀ own (c :: due)) := (spec_nextBlock prev c).bind fun _ ↦ spec_decrement

theorem Kept.perm {due' : List Nat} (h : Kept T C img₀ own due img) (hp : due.Perm due') :
    Kept T C img₀ own due' img := ⟨h.1.perm hp, h.2⟩

theorem Kept.drop_due (h : Kept T C img₀ own (clusters ++ due) img) :
    Kept T C img₀ own due img := ⟨h.1.drop_due, h.2⟩

theorem spec_updateLoop_up (hfree : Free C own clusters) (prev : Option Nat)
    {F : Image → Prop} :
    Spec (Kept T C img₀ own due) (updateLoop g true prev clusters)
      (fun left img ↦ left ≤ clusters.length ∧
        Kept T C img₀ own (clusters.take (clusters.length - left) ++ due) img) F := by
  induction clusters generalizing prev due with
  | nil => exact spec_pure fun img h ↦ ⟨le_rfl, h⟩
  | cons c cs ih =>
    have hc : Free C own [c] := fun d hd ↦ hfree d (by simp_all)
    have hcs : Free C own cs := fun d hd ↦ hfree d (List.mem_cons_of_mem c hd)
    refine (spec_attempt (spec_updateCluster_up prev hc)).bind fun ok ↦ ?_
    cases ok with
    | false =>
      refine spec_pure fun img h ↦ ⟨le_rfl, ?_⟩
      simpa using h
    | true =>
      refine (ih hcs _).weaken (fun img h ↦ h) (fun left img h ↦ ⟨by simp; omega, ?_⟩) fun img h ↦ h
      have htake : (c :: cs).length - left = cs.length - left + 1 := by
        rw [List.length_cons]
        omega
      rw [htake, List.take_succ_cons]
      exact h.2.perm List.perm_middle

theorem spec_updateLoop_down (prev : Option Nat) {F : Image → Prop} :
    Spec (Kept T C img₀ own (clusters ++ due)) (updateLoop g false prev clusters)
      (fun left img ↦ left ≤ clusters.length ∧
        Kept T C img₀ own (clusters.drop (clusters.length - left) ++ due) img) F := by
  induction clusters generalizing prev with
  | nil => exact spec_pure fun img h ↦ ⟨le_rfl, h⟩
  | cons c cs ih =>
    refine (spec_attempt (spec_updateCluster_down prev c)).bind fun ok ↦ ?_
    cases ok with
    | false =>
      refine spec_pure fun img h ↦ ⟨le_rfl, ?_⟩
      simpa using h
    | true =>
      refine (ih _).weaken (fun img h ↦ h) (fun left img h ↦ ⟨by simp; omega, ?_⟩) fun img h ↦ h
      have hdrop : (c :: cs).length - left = cs.length - left + 1 := by
        rw [List.length_cons]
        omega
      rw [hdrop, List.drop_succ_cons]
      exact h.2

/-- Both directions of `update_refcount`: each undoes the other when it fails. -/
theorem spec_updateClusters (hC : ∀ h, C h → 1 ≤ T h) (fuel : Nat) :
    (∀ (clusters due : List Nat), clusters.length ≤ fuel → Free C own clusters →
      Spec (Kept T C img₀ own due) (updateClusters g fuel true clusters)
        (fun _ ↦ Kept T C img₀ own (clusters ++ due)) (Kept T C img₀ own due)) ∧
    ∀ (clusters due : List Nat), clusters.length ≤ fuel →
      Spec (Kept T C img₀ own (clusters ++ due)) (updateClusters g fuel false clusters)
        (fun _ ↦ Kept T C img₀ own due) (Kept T C img₀ own due) := by
  induction fuel with
  | zero =>
    constructor
    · intro clusters due hlen _
      obtain rfl := List.length_eq_zero_iff.mp (Nat.le_zero.mp hlen)
      exact spec_pure fun img h ↦ h
    · intro clusters due hlen
      obtain rfl := List.length_eq_zero_iff.mp (Nat.le_zero.mp hlen)
      exact spec_pure fun img h ↦ h
  | succ fuel ih =>
    constructor
    · intro clusters due hlen hfree
      cases clusters with
      | nil => exact spec_pure fun img h ↦ h
      | cons c cs =>
        refine (spec_updateLoop_up hfree none).bind fun left ↦ spec_of_forall fun img h ↦ ?_
        obtain ⟨hleft, h⟩ := h
        refine Spec.bind (spec_hostIo.weaken (fun _ hi ↦ hi) (fun _ _ hi ↦ hi) fun _ hi ↦ hi ▸ h.drop_due) fun _ ↦ ?_
        refine spec_ite (fun hzero ↦ spec_pure fun _ hi ↦ ?_) fun hne ↦ ?_
        · subst hi
          simpa [hzero] using h
        · have hundo := ih.2 ((c :: cs).take (cs.length + 1 - left)) due (by simp at hlen ⊢; omega)
          exact spec_attempt_bind (hundo.weaken (fun _ hi ↦ hi ▸ h) (fun _ _ hk ↦ hk) fun _ hk ↦ hk)
            (spec_failed fun _ hk ↦ hk)
    · intro clusters due hlen
      cases clusters with
      | nil => exact spec_pure fun img h ↦ h
      | cons c cs =>
        refine spec_of_forall fun img₁ h₁ ↦ ?_
        have hfree : Free C own (c :: cs) := h₁.1.free_of_due hC
        refine Spec.bind ((spec_updateLoop_down none).weaken (fun _ hi ↦ hi ▸ h₁) (fun _ _ hk ↦ hk)
          fun _ hk ↦ hk) fun left ↦ spec_of_forall fun img h ↦ ?_
        obtain ⟨hleft, h⟩ := h
        refine Spec.bind (spec_hostIo.weaken (fun _ hi ↦ hi) (fun _ _ hi ↦ hi) fun _ hi ↦ hi ▸ h.drop_due) fun _ ↦ ?_
        refine spec_ite (fun hzero ↦ spec_pure fun _ hi ↦ hi ▸ h.drop_due) fun hne ↦ ?_
        have hundo := ih.1 ((c :: cs).take (cs.length + 1 - left)) due (by simp at hlen ⊢; omega)
          fun d hd ↦ hfree d (List.mem_of_mem_take hd)
        exact spec_attempt_bind (hundo.weaken (fun _ hi ↦ hi ▸ h.drop_due) (fun _ _ hk ↦ hk.drop_due) fun _ hk ↦ hk)
          (spec_failed fun _ hk ↦ hk)

/-- Bounds on the refcounts of the clusters before the free index, which no refcount block is put into. -/
def Low (cap : Nat → Nat) (n : Nat) (img : Image) : Prop :=
  n ≤ img.freeClusterIndex ∧ ∀ c < n, img.refcount c ≤ cap c

theorem spec_allocRefcountBlock_low {cap : Nat → Nat} {n : Nat} :
    Spec (Low cap n) allocRefcountBlock (fun _ ↦ Low cap n) fun _ ↦ True := by
  refine Spec.bind (spec_answer.weaken (fun _ h ↦ h) (fun _ _ h ↦ h) fun _ _ ↦ trivial) fun a ↦ ?_
  refine Spec.bind (spec_modifyImage fun img h ↦ ?_)
    fun _ ↦ (spec_check a).weaken (fun _ h ↦ h) (fun _ _ h ↦ h) fun _ _ ↦ trivial
  have htaken : Low cap n (a.taken.foldl takeCluster img) := by
    refine List.foldlRecOn a.taken takeCluster h fun img h c _ ↦ ?_
    unfold takeCluster
    split_ifs with hc
    · refine ⟨h.1, fun d hd ↦ ?_⟩
      have hdc : d ≠ c := by
        have hn := h.1
        omega
      simpa only [Function.update_of_ne hdc] using h.2 d hd
    · exact h
  have hpassed : Low cap n (passClusters a.searched (a.taken.foldl takeCluster img)) :=
    ⟨Nat.le_add_right_of_le htaken.1, htaken.2⟩
  refine List.foldlRecOn a.dropped dropCluster hpassed fun img h c _ ↦ ?_
  unfold dropCluster
  split_ifs with hc
  · refine ⟨h.1, fun d hd ↦ ?_⟩
    have hle := h.2 d hd
    by_cases hdc : d = c
    · subst hdc
      simp only [Function.update_self]
      omega
    · simpa only [Function.update_of_ne hdc] using hle
  · exact h

theorem spec_nextBlock_low {cap : Nat → Nat} {n : Nat} (prev : Option Nat) (c : Nat) :
    Spec (Low cap n) (nextBlock g prev c) (fun _ ↦ Low cap n) fun _ ↦ True := by
  refine spec_ite (fun _ ↦ spec_pure fun _ h ↦ h) fun _ ↦ ?_
  refine Spec.bind (R := fun _ ↦ Low cap n) ?_ fun _ ↦ spec_allocRefcountBlock_low
  refine spec_ite (fun _ ↦ spec_pure fun _ h ↦ h) fun _ ↦ ?_
  exact spec_hostIo.weaken (fun _ h ↦ h) (fun _ _ h ↦ h) fun _ _ ↦ trivial

theorem spec_increment_low {cap : Nat → Nat} {n : Nat} (c : Nat) :
    Spec (Low cap n) (increment g c)
      (fun _ img ↦ Low (addOwn cap [c]) n img ∧ (c + 1) * g.clusterSize ≤ hostLimit) fun _ ↦ True := by
  refine spec_getImage_bind fun img h ↦ spec_ite (fun _ ↦ spec_failed fun _ _ ↦ trivial) fun hlimit ↦ ?_
  refine spec_modifyImage fun img' hi ↦ ⟨?_, by omega⟩
  subst hi
  refine ⟨h.1, fun d hd ↦ ?_⟩
  have hle := h.2 d hd
  unfold addOwn
  by_cases hdc : d = c
  · subst hdc
    simp only [Function.update_self, List.count_singleton_self]
    omega
  · simp only [Function.update_of_ne hdc, List.count_singleton, beq_iff_eq, Ne.symm hdc, if_false]
    omega

theorem spec_updateCluster_low {cap : Nat → Nat} {n : Nat} (prev : Option Nat) (c : Nat) :
    Spec (Low cap n) (updateCluster g true prev c)
      (fun _ img ↦ Low (addOwn cap [c]) n img ∧ (c + 1) * g.clusterSize ≤ hostLimit) fun _ ↦ True :=
  (spec_nextBlock_low prev c).bind fun _ ↦ spec_increment_low c

theorem spec_updateLoop_low {cap : Nat → Nat} {n : Nat} (clusters : List Nat) (prev : Option Nat) {F : Image → Prop} :
    Spec (Low cap n) (updateLoop g true prev clusters)
      (fun left img ↦ left = 0 → Low (addOwn cap clusters) n img ∧ ∀ c ∈ clusters, (c + 1) * g.clusterSize ≤ hostLimit)
      F := by
  induction clusters generalizing cap prev with
  | nil => exact spec_pure fun img h _ ↦ ⟨h, by simp⟩
  | cons c cs ih =>
    refine (spec_attempt (spec_updateCluster_low prev c)).bind fun ok ↦ ?_
    cases ok with
    | false => exact spec_pure fun img _ hzero ↦ by omega
    | true =>
      refine spec_of_forall fun img h ↦ ?_
      refine (ih _).weaken (fun _ hi ↦ hi ▸ h.1) (fun left img' h' hzero ↦ ?_) fun _ h ↦ h
      obtain ⟨hlow, hlimit⟩ := h' hzero
      refine ⟨⟨hlow.1, fun d hd ↦ ?_⟩, ?_⟩
      · have hle := hlow.2 d hd
        simp only [addOwn, List.count_cons, List.count_nil] at hle ⊢
        omega
      · intro d hd
        rcases List.mem_cons.mp hd with rfl | hd
        · exact h.2
        · exact hlimit d hd

theorem spec_updateClusters_low {cap : Nat → Nat} {n : Nat} (fuel : Nat) (clusters : List Nat) :
    Spec (Low cap n) (updateClusters g fuel true clusters)
      (fun _ img ↦ Low (addOwn cap clusters) n img ∧ ∀ c ∈ clusters, (c + 1) * g.clusterSize ≤ hostLimit)
      fun _ ↦ True := by
  cases clusters with
  | nil =>
    refine Spec.weaken (x := updateClusters g fuel true []) (I := Low cap n) (Q := fun _ ↦ Low cap n)
      (E := fun _ ↦ True) ?_ (fun _ h ↦ h) (fun _ _ h ↦ ⟨h, by simp⟩) fun _ _ ↦ trivial
    cases fuel <;> exact spec_pure fun _ h ↦ h
  | cons c cs =>
    cases fuel with
    | zero => exact spec_failed fun _ _ ↦ trivial
    | succ fuel =>
      refine (spec_updateLoop_low (c :: cs) none).bind fun left ↦ ?_
      refine Spec.bind (spec_hostIo.weaken (fun _ h ↦ h) (fun _ _ h ↦ h) fun _ _ ↦ trivial) fun _ ↦ ?_
      refine spec_ite (fun hzero ↦ spec_pure fun _ h ↦ h hzero) fun _ ↦ ?_
      refine Spec.bind (R := fun _ _ ↦ True) ?_ fun _ ↦ spec_failed fun _ _ ↦ trivial
      intro w _
      cases attempt _ w with
      | ok a t => trivial
      | error e t => exact fun _ ↦ trivial

theorem spec_release (hC : ∀ h, C h → 1 ≤ T h) (clusters : List Nat) {F : Image → Prop} :
    Spec (Kept T C img₀ own (clusters ++ due)) (release g clusters) (fun _ ↦ Kept T C img₀ own due) F :=
  spec_attempt_bind ((spec_updateClusters hC _).2 clusters due le_rfl) (spec_pure fun _ h ↦ h)

/-- What the search has passed last are free clusters. -/
def Found (i : Nat) (img : Image) : Prop :=
  i ≤ img.freeClusterIndex ∧ ∀ c, img.freeClusterIndex - i ≤ c → c < img.freeClusterIndex → img.refcount c = 0

theorem spec_searchFree (n fuel i : Nat) (hi : i ≤ n) :
    Spec (fun img ↦ Kept T C img₀ own due img ∧ Found i img) (searchFree g n fuel i)
      (fun offset img ↦ Kept T C img₀ own due img ∧ ∃ start, offset = start * g.clusterSize ∧
        start + n = img.freeClusterIndex ∧ ∀ c ∈ List.range' start n, img.refcount c = 0)
      (Kept T C img₀ own due) := by
  induction fuel generalizing i with
  | zero => exact spec_failed fun _ h ↦ h.1
  | succ fuel ih =>
    refine spec_ite (fun hn ↦ ?_) fun hn ↦ ?_
    · refine spec_getImage_bind fun img h ↦ spec_pure fun img' hi' ↦ ?_
      subst hi'
      obtain ⟨hkept, hle, hzero⟩ := h
      have hin : i = n := by omega
      subst hin
      refine ⟨hkept, img'.freeClusterIndex - i, rfl, by omega, fun c hc ↦ ?_⟩
      rw [List.mem_range'_1] at hc
      exact hzero c hc.1 (by omega)
    · refine Spec.bind (R := fun c img ↦ Kept T C img₀ own due img ∧ Found i { img with freeClusterIndex := c } ∧
        img.freeClusterIndex = c + 1) ?_ fun c ↦ ?_
      · intro w h
        exact ⟨⟨⟨h.1.1.ledger, h.1.1.own_le, h.1.1.single_le⟩, ⟨h.1.2.1, h.1.2.2, h.1.2.3⟩⟩, h.2, rfl⟩
      · refine Spec.bind (R := fun r img ↦ (Kept T C img₀ own due img ∧ Found i { img with freeClusterIndex := c } ∧
          img.freeClusterIndex = c + 1) ∧ r = img.refcount c) ?_ fun r ↦ ?_
        · refine Spec.bind (spec_hostIo.weaken (fun _ h ↦ h) (fun _ _ h ↦ h) fun _ h ↦ h.1) fun _ ↦ ?_
          refine spec_getImage_bind fun img h ↦ spec_pure fun img' hi' ↦ ?_
          subst hi'
          exact ⟨h, rfl⟩
        · refine (ih (if r = 0 then i + 1 else 0) (by split_ifs <;> omega)).weaken (fun img h ↦ ?_) (fun _ _ h ↦ h)
            fun _ h ↦ h
          obtain ⟨⟨hkept, hfound, hfci⟩, hr⟩ := h
          refine ⟨hkept, ?_⟩
          obtain ⟨hle, hzero⟩ := hfound
          split_ifs with hr0
          · refine ⟨by dsimp only at hle; omega, fun d hd hd' ↦ ?_⟩
            by_cases hdc : d = c
            · rw [hdc, ← hr, hr0]
            · exact hzero d (by dsimp only; omega) (by dsimp only; omega)
          · exact ⟨Nat.zero_le _, fun d hd hd' ↦ by omega⟩

theorem span_aligned (start size : Nat) :
    span g (start * g.clusterSize) size = List.range' start (sizeToClusters g size) := by
  have hpos : 0 < g.clusterSize := Nat.two_pow_pos _
  unfold span sizeToClusters
  split_ifs with hsize
  · subst hsize
    have hzero : (0 + g.clusterSize - 1) / g.clusterSize = 0 := Nat.div_eq_of_lt (by omega)
    rw [hzero]
    rfl
  · have hstart : start * g.clusterSize / g.clusterSize = start := Nat.mul_div_cancel _ hpos
    have hlast : (start * g.clusterSize + size - 1) / g.clusterSize = start + (size - 1) / g.clusterSize := by
      rw [Nat.add_sub_assoc (by omega), Nat.add_comm, Nat.add_mul_div_right _ _ hpos, Nat.add_comm]
    have hsizes : (size + g.clusterSize - 1) / g.clusterSize = (size - 1) / g.clusterSize + 1 := by
      have hsum : size + g.clusterSize - 1 = size - 1 + g.clusterSize := by omega
      rw [hsum, Nat.add_div_right _ hpos]
    rw [hstart, hlast, hsizes, Nat.add_assoc, Nat.add_sub_cancel_left]

theorem spec_allocClusters (hC : ∀ h, C h → 1 ≤ T h) (size : Nat) :
    Spec (Kept T C img₀ own due) (allocClusters g size)
      (fun offset img ↦ ∃ start, offset = start * g.clusterSize ∧
        Kept T C img₀ (addOwn own (List.range' start (sizeToClusters g size))) due img ∧
        ∀ c ∈ List.range' start (sizeToClusters g size), (c + 1) * g.clusterSize ≤ hostLimit)
      (Kept T C img₀ own due) := by
  refine Spec.bind (R := fun offset img ↦ Kept T C img₀ own due img ∧ ∃ start, offset = start * g.clusterSize ∧
        start + sizeToClusters g size = img.freeClusterIndex ∧
        ∀ c ∈ List.range' start (sizeToClusters g size), img.refcount c = 0) ?_ fun offset ↦ ?_
  · intro w h
    exact spec_searchFree (sizeToClusters g size) (w.answers.length + 1) 0 (Nat.zero_le _) w
      ⟨h, Nat.zero_le _, fun c hc hc' ↦ by omega⟩
  · refine spec_of_forall fun img₁ h₁ ↦ ?_
    obtain ⟨hkept, start, rfl, hend, hzero⟩ := h₁
    have hspan := span_aligned (g := g) start size
    have hfree : Free C own (span g (start * g.clusterSize) size) := hkept.1.free_of_zero hC (hspan ▸ hzero)
    have hstart : ∀ img, img = img₁ → Kept T C img₀ own due img ∧ Low img₁.refcount img₁.freeClusterIndex img := by
      rintro img rfl
      exact ⟨hkept, le_rfl, fun _ _ ↦ le_rfl⟩
    have hup := (((spec_updateClusters hC _).1 _ due le_rfl hfree).and
      (spec_updateClusters_low (g := g) _ (span g (start * g.clusterSize) size))).weaken hstart
        (fun _ _ h ↦ h) fun _ h ↦ h.1
    refine hup.bind fun _ ↦ spec_pure fun img h ↦ ⟨start, rfl, ⟨?_, h.1.2⟩, hspan ▸ h.2.2⟩
    rw [hspan] at h
    refine h.1.1.due_to_own fun c hc ↦ ?_
    have hlt : c < img₁.freeClusterIndex := by
      rw [List.mem_range'_1] at hc
      omega
    have hle := h.2.1.2 c hlt
    have hcount := List.nodup_iff_count.mp (List.nodup_range' (s := start) (n := sizeToClusters g size)) c
    unfold addOwn at hle
    rw [hzero c hc] at hle
    omega

end Refcounts

end IDeviceEmulator.Qcow2
