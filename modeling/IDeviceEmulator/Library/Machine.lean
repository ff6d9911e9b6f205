import Mathlib.Tactic.Common
import Mathlib.Data.List.Induction
import Mathlib.Data.List.ReduceOption

namespace Machine

theorem ok_of_map {ε α β : Type*} {f : α → β} {x : Except ε α} {b : β} (h : x.map f = .ok b) :
    ∃ a, x = .ok a ∧ b = f a := by
  cases x with
  | error e => cases h
  | ok a => exact ⟨a, rfl, (Except.ok.inj h).symm⟩

theorem ok_of_bind {ε α β : Type} {f : α → Except ε β} {x : Except ε α} {b : β} (h : x >>= f = .ok b) :
    ∃ a, x = .ok a ∧ f a = .ok b := by
  cases x with
  | error e => cases h
  | ok a => exact ⟨a, rfl, h⟩

theorem forall_ok_iff {ε α : Type*} {x : Except ε α} {a : α} (h : x = .ok a) {P : α → Prop} :
    (∀ b, x = .ok b → P b) ↔ P a := by
  constructor
  · intro hall
    exact hall a h
  · intro ha b hb
    cases h.symm.trans hb
    exact ha

variable {σ ι ε ο : Type*} {step : σ → ι → Except ε (σ × ο)}

inductive Run (step : σ → ι → Except ε (σ × ο)) : σ → List ι → σ → Prop
  | nil (s : σ) : Run step s [] s
  | cons {s t u : σ} {a : ι} {o : ο} {as : List ι} :
      step s a = .ok (t, o) → Run step t as u → Run step s (a :: as) u

theorem Run.one {s t : σ} {a : ι} {o : ο} (h : step s a = .ok (t, o)) : Run step s [a] t :=
  .cons h (.nil t)

theorem Run.trans {s t u : σ} {as bs : List ι} (h : Run step s as t) (h' : Run step t bs u) :
    Run step s (as ++ bs) u := by
  induction h with
  | nil => exact h'
  | cons hs _ ih => exact .cons hs (ih h')

theorem Run.split {s u : σ} {as bs : List ι} (h : Run step s (as ++ bs) u) :
    ∃ t, Run step s as t ∧ Run step t bs u := by
  induction as generalizing s with
  | nil => exact ⟨s, .nil s, h⟩
  | cons a as ih =>
    cases h with
    | cons hs h =>
      obtain ⟨t, ht, hu⟩ := ih h
      exact ⟨t, .cons hs ht, hu⟩

theorem Run.deterministic {s t u : σ} {as : List ι} (h : Run step s as t)
    (h' : Run step s as u) : t = u := by
  induction h with
  | nil => cases h'; rfl
  | cons hs _ ih =>
    cases h' with
    | cons hs' h' =>
      rw [hs] at hs'
      cases hs'
      exact ih h'

theorem Run.invariant {P : σ → Prop} {s t : σ} {as : List ι} (h : Run step s as t)
    (hs : P s) (hP : ∀ s a t o, a ∈ as → P s → step s a = .ok (t, o) → P t) : P t := by
  induction h with
  | nil => exact hs
  | cons ha _ ih =>
    exact ih (hP _ _ _ _ List.mem_cons_self hs ha)
      (fun s a t o hm ↦ hP s a t o (List.mem_cons_of_mem _ hm))

def exec (step : σ → ι → Except ε (σ × ο)) (s : σ) : List ι → Except ε (σ × List ο)
  | [] => .ok (s, [])
  | a :: as =>
    match step s a with
    | .error e => .error e
    | .ok (t, o) =>
      match exec step t as with
      | .error e => .error e
      | .ok (u, os) => .ok (u, o :: os)

theorem exec_cons {s t u : σ} {a : ι} {as : List ι} {o : ο} {os : List ο} (h : step s a = .ok (t, o))
    (h' : exec step t as = .ok (u, os)) : exec step s (a :: as) = .ok (u, o :: os) := by
  simp only [exec, h, h']

theorem exec_cons_ok {s u : σ} {a : ι} {as : List ι} {os : List ο} (h : exec step s (a :: as) = .ok (u, os)) :
    ∃ t o os', step s a = .ok (t, o) ∧ exec step t as = .ok (u, os') ∧ os = o :: os' := by
  unfold exec at h
  cases hs : step s a with
  | error e => simp [hs] at h
  | ok p =>
    obtain ⟨t, o⟩ := p
    cases ht : exec step t as with
    | error e => simp [hs, ht] at h
    | ok q =>
      simp only [hs, ht, Except.ok.injEq, Prod.mk.injEq] at h
      obtain ⟨rfl, rfl⟩ := h
      exact ⟨t, o, q.2, rfl, ht, rfl⟩

theorem exec_append {s t u : σ} {as bs : List ι} {os os' : List ο} (h : exec step s as = .ok (t, os))
    (h' : exec step t bs = .ok (u, os')) : exec step s (as ++ bs) = .ok (u, os ++ os') := by
  induction as generalizing s os with
  | nil =>
    cases h
    exact h'
  | cons a as ih =>
    obtain ⟨v, o, os₁, hs, hv, rfl⟩ := exec_cons_ok h
    exact exec_cons hs (ih hv)

theorem run_of_exec {s t : σ} {as : List ι} {os : List ο} (h : exec step s as = .ok (t, os)) :
    Run step s as t := by
  induction as generalizing s os with
  | nil =>
    cases h
    exact .nil _
  | cons a as ih =>
    obtain ⟨u, o, os', hs, hu, rfl⟩ := exec_cons_ok h
    exact .cons hs (ih hu)

theorem exists_exec_of_check {Q : σ → Prop} [DecidablePred Q] {s : σ} {as : List ι}
    (h : (match exec step s as with | .ok (t, _) => decide (Q t) | .error _ => false) = true) :
    ∃ t os, exec step s as = .ok (t, os) ∧ Q t := by
  cases he : exec step s as with
  | error e => simp [he] at h
  | ok p =>
    obtain ⟨t, os⟩ := p
    exact ⟨t, os, rfl, by simpa [he] using h⟩

theorem exists_run_of_exec {Q : σ → Prop} [DecidablePred Q] {s : σ} {as : List ι}
    (h : (match exec step s as with | .ok (t, _) => decide (Q t) | .error _ => false) = true) :
    ∃ t, Run step s as t ∧ Q t := by
  obtain ⟨t, os, he, hQ⟩ := exists_exec_of_check h
  exact ⟨t, run_of_exec he, hQ⟩

def Throughout (step : σ → ι → Except ε (σ × ο)) (Q : σ → Prop) (s : σ) (as : List ι) : Prop :=
  ∀ pre t, pre <+: as → Run step s pre t → Q t

/-- Every operation that gets executed meets the condition when it is issued. -/
def Attempts (step : σ → ι → Except ε (σ × ο)) (C : σ → ι → Prop) (s : σ) (as : List ι) : Prop :=
  ∀ pre a t, pre ++ [a] <+: as → Run step s pre t → C t a

theorem Attempts.head {C : σ → ι → Prop} {s : σ} {a : ι} {as : List ι}
    (h : Attempts step C s (a :: as)) : C s a :=
  h [] a s (by simp) (.nil s)

theorem Attempts.drop {C : σ → ι → Prop} {s t : σ} {as bs : List ι}
    (h : Attempts step C s (as ++ bs)) (hr : Run step s as t) : Attempts step C t bs := by
  intro pre a u hp hu
  refine h (as ++ pre) a u ?_ (hr.trans hu)
  rw [List.append_assoc]
  exact (List.prefix_append_right_inj as).mpr hp

theorem Attempts.take {C : σ → ι → Prop} {s : σ} {as bs : List ι}
    (h : Attempts step C s (as ++ bs)) : Attempts step C s as := by
  intro pre a t hp hr
  exact h pre a t (hp.trans (List.prefix_append as bs)) hr

/-- The run comes to an operation that stands in a given relation to the state. -/
def Meets (step : σ → ι → Except ε (σ × ο)) (R : σ → ι → Prop) (s : σ) (as : List ι) : Prop :=
  ∃ pre a t, pre ++ [a] <+: as ∧ Run step s pre t ∧ R t a

theorem Meets.head {R : σ → ι → Prop} {s : σ} {a : ι} {as : List ι} (h : R s a) :
    Meets step R s (a :: as) := ⟨[], a, s, by simp, .nil s, h⟩

theorem Meets.after {R : σ → ι → Prop} {s t : σ} {as bs : List ι} (hr : Run step s as t)
    (h : Meets step R t bs) : Meets step R s (as ++ bs) := by
  obtain ⟨pre, a, u, hp, hu, hR⟩ := h
  refine ⟨as ++ pre, a, u, ?_, hr.trans hu, hR⟩
  rw [List.append_assoc]
  exact (List.prefix_append_right_inj as).mpr hp

theorem Meets.extend {R : σ → ι → Prop} {s : σ} {as : List ι} (h : Meets step R s as) (bs : List ι) :
    Meets step R s (as ++ bs) := by
  obtain ⟨pre, a, t, hp, hr, hR⟩ := h
  exact ⟨pre, a, t, hp.trans (List.prefix_append as bs), hr, hR⟩

theorem Run.prefix_of_stuck {s t u : σ} {as bs pre : List ι} {a : ι} (h : Run step s bs u)
    (hb : bs <+: as) (hp : pre ++ [a] <+: as) (hr : Run step s pre t)
    (hstuck : ∀ v o, step t a ≠ .ok (v, o)) : bs <+: pre := by
  by_contra hn
  have hlen : (pre ++ [a]).length ≤ bs.length := by
    rcases List.prefix_or_prefix_of_prefix hb ((List.prefix_append pre [a]).trans hp) with h' | h'
    · exact absurd h' hn
    · have hne : pre.length ≠ bs.length := by
        intro he
        exact hn (h'.eq_of_length he ▸ List.prefix_refl _)
      have hle := h'.length_le
      rw [List.length_append, List.length_singleton]
      omega
  obtain ⟨cs, rfl⟩ := List.prefix_of_prefix_length_le hp hb hlen
  obtain ⟨v, hv, -⟩ := h.split
  obtain ⟨t', ht', hstep⟩ := hv.split
  cases hr.deterministic ht'
  cases hstep with
  | cons hs _ => exact hstuck _ _ hs

theorem Attempts.tail {C : σ → ι → Prop} {s t : σ} {a : ι} {o : ο} {as : List ι}
    (h : Attempts step C s (a :: as)) (hs : step s a = .ok (t, o)) : Attempts step C t as :=
  h.drop (.one hs)

theorem Meets.cons {R : σ → ι → Prop} {s t : σ} {a : ι} {o : ο} {as : List ι}
    (hs : step s a = .ok (t, o)) (h : Meets step R t as) : Meets step R s (a :: as) :=
  .after (.one hs) h

section Evaluation

variable (step)

def checkThroughout (Q : σ → Prop) [DecidablePred Q] (s : σ) : List ι → Bool
  | [] => decide (Q s)
  | a :: as =>
    decide (Q s) &&
      match step s a with
      | .ok (t, _) => checkThroughout Q t as
      | .error _ => true

def checkAttempts (C : σ → ι → Prop) [∀ s a, Decidable (C s a)] (s : σ) : List ι → Bool
  | [] => true
  | a :: as =>
    decide (C s a) &&
      match step s a with
      | .ok (t, _) => checkAttempts C t as
      | .error _ => true

variable {step}

theorem throughout_cons {Q : σ → Prop} {s : σ} {a : ι} {as : List ι} :
    Throughout step Q s (a :: as) ↔ Q s ∧ ∀ t o, step s a = .ok (t, o) → Throughout step Q t as := by
  constructor
  · intro h
    refine ⟨h [] s List.nil_prefix (.nil s), fun t o hs pre u hp hr ↦ ?_⟩
    exact h (a :: pre) u (List.cons_prefix_cons.mpr ⟨rfl, hp⟩) (.cons hs hr)
  · rintro ⟨hs, h⟩ pre u hp hr
    cases hr with
    | nil => exact hs
    | cons ha hr =>
      obtain ⟨rfl, hpre⟩ := List.cons_prefix_cons.mp hp
      exact h _ _ ha _ u hpre hr

theorem attempts_cons {C : σ → ι → Prop} {s : σ} {a : ι} {as : List ι} :
    Attempts step C s (a :: as) ↔ C s a ∧ ∀ t o, step s a = .ok (t, o) → Attempts step C t as := by
  constructor
  · exact fun h ↦ ⟨h.head, fun t o hs ↦ h.tail hs⟩
  · rintro ⟨hs, h⟩ pre b u hp hr
    cases hr with
    | nil =>
      obtain ⟨rfl, -⟩ := List.cons_prefix_cons.mp hp
      exact hs
    | cons ha hr =>
      obtain ⟨rfl, hpre⟩ := List.cons_prefix_cons.mp hp
      exact h _ _ ha _ b u hpre hr

theorem checkThroughout_iff {Q : σ → Prop} [DecidablePred Q] {s : σ} {as : List ι} :
    checkThroughout step Q s as = true ↔ Throughout step Q s as := by
  induction as generalizing s with
  | nil =>
    rw [checkThroughout, decide_eq_true_iff]
    refine ⟨fun hs pre t hp hr ↦ ?_, fun h ↦ h [] s List.nil_prefix (.nil s)⟩
    cases List.prefix_nil.mp hp
    cases hr
    exact hs
  | cons a as ih =>
    rw [checkThroughout, throughout_cons, Bool.and_eq_true, decide_eq_true_iff]
    refine and_congr_right fun _ ↦ ?_
    cases step s a with
    | error e => simp
    | ok p =>
      obtain ⟨t, o⟩ := p
      simp [ih]

theorem checkAttempts_iff {C : σ → ι → Prop} [∀ s a, Decidable (C s a)] {s : σ} {as : List ι} :
    checkAttempts step C s as = true ↔ Attempts step C s as := by
  induction as generalizing s with
  | nil =>
    refine iff_of_true rfl fun pre a t hp _ ↦ ?_
    simp at hp
  | cons a as ih =>
    rw [checkAttempts, attempts_cons, Bool.and_eq_true, decide_eq_true_iff]
    refine and_congr_right fun _ ↦ ?_
    cases step s a with
    | error e => simp
    | ok p =>
      obtain ⟨t, o⟩ := p
      simp [ih]

instance (Q : σ → Prop) [DecidablePred Q] (s : σ) (as : List ι) : Decidable (Throughout step Q s as) :=
  decidable_of_iff _ checkThroughout_iff

instance (C : σ → ι → Prop) [∀ s a, Decidable (C s a)] (s : σ) (as : List ι) :
    Decidable (Attempts step C s as) :=
  decidable_of_iff _ checkAttempts_iff

end Evaluation

theorem prefix_snoc_mem {as pre : List ι} {a : ι} (h : pre ++ [a] <+: as) : a ∈ as :=
  h.subset (by simp)

theorem throughout_of_attempts {I : σ → Prop} {C : σ → ι → Prop} {s : σ} {as : List ι} (hI : I s)
    (hstep : ∀ s a t o, a ∈ as → I s → C s a → step s a = .ok (t, o) → I t)
    (h : Attempts step C s as) : Throughout step I s as := by
  intro pre
  induction pre using List.reverseRecOn with
  | nil =>
    intro t _ hr
    cases hr
    exact hI
  | append_singleton pre a ih =>
    intro u hp hr
    obtain ⟨t, ht, hu⟩ := hr.split
    cases hu with
    | cons hs hnil =>
      cases hnil
      have hpre : pre <+: as := (List.prefix_append pre [a]).trans hp
      exact hstep t a _ _ (prefix_snoc_mem hp) (ih t hpre ht) (h pre a t hp ht) hs

theorem attempts_mono {I : σ → Prop} {C D : σ → ι → Prop} {s : σ} {as : List ι}
    (hI : Throughout step I s as) (hCD : ∀ s a, a ∈ as → I s → C s a → D s a)
    (h : Attempts step C s as) : Attempts step D s as := by
  intro pre a t hp hr
  have hpre : pre <+: as := (List.prefix_append pre [a]).trans hp
  exact hCD t a (prefix_snoc_mem hp) (hI pre t hpre hr) (h pre a t hp hr)

theorem attempts_iff {I : σ → Prop} {C D : σ → ι → Prop} {s : σ} {as : List ι} (hI : I s)
    (hiff : ∀ s a, a ∈ as → I s → (C s a ↔ D s a))
    (hstep : ∀ s a t o, a ∈ as → I s → C s a → step s a = .ok (t, o) → I t) :
    Attempts step C s as ↔ Attempts step D s as := by
  constructor
  · intro h
    exact attempts_mono (throughout_of_attempts hI hstep h) (fun s a hm hs ↦ (hiff s a hm hs).mp) h
  · intro h
    refine attempts_mono (throughout_of_attempts hI ?_ h) (fun s a hm hs ↦ (hiff s a hm hs).mpr) h
    exact fun s a t o hm hs hD ↦ hstep s a t o hm hs ((hiff s a hm hs).mpr hD)

/-- When the steps of a run that complete keep the law exactly if they meet a condition, the run
keeps the law throughout exactly if all its steps meet the condition. -/
theorem throughout_iff_attempts_along {Q : σ → Prop} {C : σ → ι → Prop} {s : σ} {as : List ι} (hQ : Q s)
    (hstep : ∀ pre a t u o, pre ++ [a] <+: as → Run step s pre t → Q t → step t a = .ok (u, o) → (Q u ↔ C t a))
    (hdone : ∀ pre a t, pre ++ [a] <+: as → Run step s pre t → (∀ u o, step t a = .ok (u, o) → C t a) → C t a) :
    Throughout step Q s as ↔ Attempts step C s as := by
  constructor
  · intro h pre a t hp hr
    refine hdone pre a t hp hr fun u o hs ↦ ?_
    have hpre : pre <+: as := (List.prefix_append pre [a]).trans hp
    exact (hstep pre a t u o hp hr (h pre t hpre hr) hs).mp (h _ u hp (hr.trans (.one hs)))
  · intro h pre
    induction pre using List.reverseRecOn with
    | nil =>
      intro t _ hr
      cases hr
      exact hQ
    | append_singleton pre a ih =>
      intro u hp hr
      obtain ⟨t, ht, hu⟩ := hr.split
      cases hu with
      | cons hs hnil =>
        cases hnil
        have hpre : pre <+: as := (List.prefix_append pre [a]).trans hp
        exact (hstep pre a t _ _ hp ht (ih t hpre ht) hs).mpr (h pre a t hp ht)

theorem throughout_iff_attempts {Q : σ → Prop} {C : σ → ι → Prop} {s : σ} {as : List ι} (hQ : Q s)
    (hstep : ∀ s a t o, a ∈ as → Q s → step s a = .ok (t, o) → (Q t ↔ C s a))
    (hdone : ∀ s a, (∀ t o, step s a = .ok (t, o) → C s a) → C s a) :
    Throughout step Q s as ↔ Attempts step C s as :=
  throughout_iff_attempts_along hQ
    (fun _ a t u o hp _ ht hs ↦ hstep t a u o (prefix_snoc_mem hp) ht hs) fun _ a t _ _ ↦ hdone t a

/-- An invariant of every step may be assumed of the states of a run. -/
theorem throughout_and_iff {I Q : σ → Prop} {s : σ} {as : List ι} (hI : I s)
    (hstep : ∀ s a t o, I s → step s a = .ok (t, o) → I t) :
    Throughout step (fun t ↦ I t ∧ Q t) s as ↔ Throughout step Q s as := by
  constructor
  · intro h pre t hp hr
    exact (h pre t hp hr).2
  · intro h pre t hp hr
    exact ⟨hr.invariant hI fun s a t o _ ↦ hstep s a t o, h pre t hp hr⟩

section Silent

variable {α : Type*} {step : σ → ι → Except ε (σ × Option α)}

/-- A run is simulated by the run without the steps that the related states do not show. -/
theorem exec_of_filter {R : σ → σ → Prop} {visible : ι → Bool} {as : List ι}
    (hsilent : ∀ s t a, visible a = false → R s t → ∃ s', step s a = .ok (s', none) ∧ R s' t)
    (hstep : ∀ s t a t' o, a ∈ as.filter visible → R s t → step t a = .ok (t', o) →
      ∃ s', step s a = .ok (s', o) ∧ R s' t') {s t t' : σ} {os : List (Option α)} (hR : R s t)
    (h : exec step t (as.filter visible) = .ok (t', os)) :
    ∃ s' os', exec step s as = .ok (s', os') ∧ R s' t' ∧ os'.reduceOption = os.reduceOption := by
  induction as generalizing s t os with
  | nil =>
    cases h
    exact ⟨s, [], rfl, hR, rfl⟩
  | cons a as ih =>
    cases hv : visible a with
    | false =>
      rw [List.filter_cons_of_neg (by simp [hv])] at h hstep
      obtain ⟨s₁, hs, hR₁⟩ := hsilent s t a hv hR
      obtain ⟨s', os', hexec, hR', hos⟩ := ih hstep hR₁ h
      exact ⟨s', none :: os', exec_cons hs hexec, hR', hos⟩
    | true =>
      rw [List.filter_cons_of_pos hv] at h hstep
      rw [exec] at h
      cases ht : step t a with
      | error e => simp [ht] at h
      | ok p =>
        obtain ⟨t₁, o⟩ := p
        cases hrest : exec step t₁ (as.filter visible) with
        | error e => simp [ht, hrest] at h
        | ok q =>
          simp only [ht, hrest, Except.ok.injEq, Prod.mk.injEq] at h
          obtain ⟨rfl, rfl⟩ := h
          obtain ⟨s₁, hs, hR₁⟩ := hstep s t a t₁ o List.mem_cons_self hR ht
          obtain ⟨s', os', hexec, hR', hos⟩ :=
            ih (fun s t b t' o hb ↦ hstep s t b t' o (List.mem_cons_of_mem _ hb)) hR₁ hrest
          refine ⟨s', o :: os', exec_cons hs hexec, hR', ?_⟩
          cases o <;> simp [hos]

end Silent

end Machine
