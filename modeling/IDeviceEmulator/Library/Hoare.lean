import Mathlib.Tactic.Common

namespace Hoare

variable {ε σ α β : Type}

theorem bind_eq {x : EStateM ε σ α} {f : α → EStateM ε σ β} {s t : σ} {a : α} (h : x s = .ok a t) :
    (x >>= f) s = f a t := by
  simp only [bind, EStateM.bind, h]

theorem get_apply (s : σ) : (EStateM.get : EStateM ε σ σ) s = .ok s s := rfl

theorem get_bind {f : σ → EStateM ε σ α} (s : σ) : (get >>= f) s = f s s := rfl

theorem bind_ok {x : EStateM ε σ α} {f : α → EStateM ε σ β} {s t : σ} {b : β} (h : (x >>= f) s = .ok b t) :
    ∃ a u, x s = .ok a u ∧ f a u = .ok b t := by
  simp only [bind, EStateM.bind] at h
  cases hx : x s with
  | ok a u =>
    rw [hx] at h
    exact ⟨a, u, rfl, h⟩
  | error e u =>
    rw [hx] at h
    cases h

/-- From a state with `P` the program ends in `Q`, or fails in `E`. A failed program keeps what it did before. -/
def Triple (P : σ → Prop) (x : EStateM ε σ α) (Q : α → σ → Prop) (E : ε → σ → Prop) : Prop :=
  ∀ s, P s → match x s with
    | .ok a t => Q a t
    | .error e t => E e t

variable {P P' : σ → Prop} {Q Q' : α → σ → Prop} {E E' : ε → σ → Prop} {x : EStateM ε σ α}

theorem Triple.ok (h : Triple P x Q E) {s t : σ} {a : α} (hs : P s) (hx : x s = .ok a t) : Q a t := by
  have hq := h s hs
  rwa [hx] at hq

theorem Triple.error (h : Triple P x Q E) {s t : σ} {e : ε} (hs : P s) (hx : x s = .error e t) : E e t := by
  have hq := h s hs
  rwa [hx] at hq

theorem Triple.weaken (h : Triple P x Q E) (hP : ∀ s, P' s → P s) (hQ : ∀ a s, Q a s → Q' a s)
    (hE : ∀ e s, E e s → E' e s) : Triple P' x Q' E' := by
  intro s hs
  cases hx : x s with
  | ok a t => exact hQ a t (h.ok (hP s hs) hx)
  | error e t => exact hE e t (h.error (hP s hs) hx)

theorem Triple.strengthen (h : Triple P x Q E) (hP : ∀ s, P' s → P s) : Triple P' x Q E :=
  h.weaken hP (fun _ _ hq ↦ hq) fun _ _ he ↦ he

theorem triple_pure {a : α} (h : ∀ s, P s → Q a s) : Triple P (pure a : EStateM ε σ α) Q E := h

theorem triple_throw {e : ε} (h : ∀ s, P s → E e s) : Triple P (throw e : EStateM ε σ α) Q E := h

theorem Triple.bind {R : α → σ → Prop} {Q : β → σ → Prop} {f : α → EStateM ε σ β} (hx : Triple P x R E)
    (hf : ∀ a, Triple (R a) (f a) Q E) : Triple P (x >>= f) Q E := by
  intro s hs
  change match EStateM.bind x f s with | .ok a t => Q a t | .error e t => E e t
  unfold EStateM.bind
  cases hr : x s with
  | ok a t => exact hf a t (hx.ok hs hr)
  | error e t => exact hx.error hs hr

theorem triple_ite {c : Prop} [Decidable c] {y : EStateM ε σ α} (hx : c → Triple P x Q E) (hy : ¬ c → Triple P y Q E) :
    Triple P (if c then x else y) Q E := by
  split_ifs with h
  · exact hx h
  · exact hy h

/-- A precondition that only speaks of the state at the start can be fixed before the program is looked at. -/
theorem triple_of_forall (h : ∀ s, P s → Triple (· = s) x Q E) : Triple P x Q E :=
  fun s hs ↦ h s hs s rfl

end Hoare
