import Mathlib.Algebra.Group.Basic
import IDeviceEmulator.Library.Hoare

namespace Leases

open Hoare

variable {ε σ M N α β : Type}

/-- A call whose errors the caller looks at, as far as they come back to it. -/
def attempt (returns : ε → Bool) (x : EStateM ε σ α) : EStateM ε σ (Except {e // returns e = true} α) := fun s ↦
  match x s with
  | .ok a s => .ok (.ok a) s
  | .error e s => if h : returns e = true then .ok (.error ⟨e, h⟩) s else .error e s

theorem triple_attempt {returns : ε → Bool} {x : EStateM ε σ α} {P : σ → Prop} {Q : α → σ → Prop} {E : ε → σ → Prop}
    (h : Triple P x Q E) :
    Triple P (attempt returns x) (fun r s ↦ (∀ a, r = .ok a → Q a s) ∧ ∀ e, r = .error e → E e.val s)
      fun e s ↦ returns e = false ∧ E e s := by
  intro s hs
  unfold attempt
  cases hx : x s with
  | ok a t =>
    have hq := h.ok hs hx
    refine ⟨fun b hb ↦ ?_, fun e he ↦ by cases he⟩
    cases hb
    exact hq
  | error e t =>
    have he := h.error hs hx
    by_cases hr : returns e = true
    · simp only [hr, dite_true]
      refine ⟨fun b hb ↦ (by cases hb), fun e' he' ↦ ?_⟩
      cases he'
      exact he
    · simp only [hr]
      exact ⟨by simpa using hr, he⟩

/-- A failure is passed on after the cleanup. -/
def onFailure (returns : ε → Bool) (x : EStateM ε σ α) (cleanup : EStateM ε σ Unit) : EStateM ε σ α := do
  match ← attempt returns x with
  | .ok a => pure a
  | .error e => do
    cleanup
    throw e.val

/-- What is held in each state. Some errors go back to the caller, at the others the program stops, and where there is
room for what it demands only in some ways. -/
structure Account (ε σ M N : Type) where
  held : σ → M
  returns : ε → Bool
  room : N → M → Prop
  stops : ε → σ → Prop

namespace Account

variable [AddCommMonoid M] (A : Account ε σ M N)

/-- A program that fails has given back whatever it took. -/
def Fails (n : N) (r : M) (e : ε) (s : σ) : Prop :=
  (A.returns e = true → A.held s = r) ∧ (A.returns e = false → A.room n r → A.stops e s)

/-- The program takes over `p` and hands over `q`, whatever else is held. -/
def Runs (n : N) (p : M) (x : EStateM ε σ α) (q : α → M) : Prop :=
  ∀ r, Triple (fun s ↦ A.held s = r + p) x (fun a s ↦ A.held s = r + q a) (A.Fails n r)

variable {A} {n n' : N} {p f : M} {q : α → M} {x : EStateM ε σ α}

theorem runs_pure (a : α) : A.Runs n (q a) (pure a) q := fun _ ↦ triple_pure fun _ h ↦ h

theorem runs_throw {e : ε} (h : A.returns e = true) : A.Runs n 0 (throw e) q := by
  intro r
  refine triple_throw fun s hs ↦ ⟨fun _ ↦ ?_, fun he ↦ ?_⟩
  · rw [hs, add_zero]
  · rw [h] at he
    cases he

theorem runs_stop {e : ε} (h : A.returns e = false) (hstops : ∀ s, A.stops e s) : A.Runs n p (throw e) q := by
  intro r
  refine triple_throw fun s _ ↦ ⟨fun he ↦ ?_, fun _ _ ↦ hstops s⟩
  rw [h] at he
  cases he

theorem Runs.bind {q' : β → M} {g : α → EStateM ε σ β} (hx : A.Runs n p x q) (hg : ∀ a, A.Runs n (q a) (g a) q') :
    A.Runs n p (x >>= g) q' :=
  fun r ↦ (hx r).bind fun a ↦ hg a r

theorem runs_ite {c : Prop} [Decidable c] {y : EStateM ε σ α} (hx : c → A.Runs n p x q) (hy : ¬ c → A.Runs n p y q) :
    A.Runs n p (if c then x else y) q :=
  fun r ↦ triple_ite (fun h ↦ hx h r) fun h ↦ hy h r

theorem runs_get {q : σ → M} (h : ∀ s, q s = p) : A.Runs n p (get : EStateM ε σ σ) q := by
  intro r s hs
  change A.held s = r + q s
  rw [hs, h]

theorem runs_modify {g : σ → σ} (h : ∀ s, A.held (g s) = A.held s) :
    A.Runs n p (modify g : EStateM ε σ Unit) fun _ ↦ p := by
  intro r s hs
  exact (h s).trans hs

/-- What the caller holds it still holds after the call. -/
def lent (f : M) (q : α → M) : Except {e // A.returns e = true} α → M
  | .ok a => q a + f
  | .error _ => f

theorem Runs.attempt (h : A.Runs n p x q) (hroom : ∀ r, A.room n' r → A.room n (r + f)) :
    A.Runs n' (p + f) (attempt A.returns x) (lent f q) := by
  intro r s hs
  rw [add_comm p, ← add_assoc] at hs
  unfold Leases.attempt
  cases hx : x s with
  | ok a t =>
    have hq := (h (r + f)).ok hs hx
    rw [add_assoc, add_comm f] at hq
    exact hq
  | error e t =>
    obtain ⟨hheld, hstop⟩ := (h (r + f)).error hs hx
    dsimp only
    by_cases he : A.returns e = true
    · rw [dif_pos he]
      exact hheld he
    · rw [dif_neg he]
      exact ⟨fun hret ↦ absurd hret he, fun hret hr ↦ hstop hret (hroom r hr)⟩

theorem Runs.onFailure {cleanup : EStateM ε σ Unit} (h : A.Runs n p x q) (hcleanup : A.Runs n' f cleanup fun _ ↦ 0)
    (hroom : ∀ r, A.room n' r → A.room n (r + f)) :
    A.Runs n' (p + f) (onFailure A.returns x cleanup) fun a ↦ q a + f := by
  refine (h.attempt hroom).bind fun a ↦ ?_
  cases a with
  | ok a => exact runs_pure (q := fun a ↦ q a + f) a
  | error e => exact hcleanup.bind fun _ ↦ runs_throw e.property

end Account

end Leases
