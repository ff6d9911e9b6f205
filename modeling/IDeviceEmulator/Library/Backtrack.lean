import Mathlib.Tactic.Common

namespace Backtrack

/-- A program that works on a copy of its state: it gives a value with the copy, or gives up
and leaves the caller's state alone, or stops with a fault. -/
abbrev Search (ε σ : Type) := StateT σ (OptionT (Except ε))

variable {ε σ α β : Type}

def Search.fault (e : ε) : Search ε σ α := fun _ ↦ OptionT.mk (.error e)

/-- The result of a search from a state. -/
def Search.result (x : Search ε σ α) (s : σ) : Except ε (Option (α × σ)) := (x s).run

@[simp] theorem result_pure (a : α) (s : σ) : (pure a : Search ε σ α).result s = .ok (some (a, s)) := rfl

@[simp] theorem result_failure (s : σ) : (failure : Search ε σ α).result s = .ok none := rfl

@[simp] theorem result_fault (e : ε) (s : σ) : (Search.fault e : Search ε σ α).result s = .error e := rfl

variable {x y : Search ε σ α} {f : α → Search ε σ β} {s t : σ} {a : α}

theorem result_bind_some (h : x.result s = .ok (some (a, t))) : (x >>= f).result s = (f a).result t := by
  change (x s).run = _ at h
  change (OptionT.bind (x s) _).run = _
  simp only [OptionT.bind, OptionT.run, OptionT.mk] at h ⊢
  rw [h]
  rfl

theorem result_bind_none (h : x.result s = .ok none) : (x >>= f).result s = .ok none := by
  change (x s).run = _ at h
  change (OptionT.bind (x s) _).run = _
  simp only [OptionT.bind, OptionT.run, OptionT.mk] at h ⊢
  rw [h]
  rfl

theorem result_bind_error {e : ε} (h : x.result s = .error e) : (x >>= f).result s = .error e := by
  change (x s).run = _ at h
  change (OptionT.bind (x s) _).run = _
  simp only [OptionT.bind, OptionT.run, OptionT.mk] at h ⊢
  rw [h]
  rfl

theorem result_orElse_some (h : x.result s = .ok (some (a, t))) : (x <|> y).result s = .ok (some (a, t)) := by
  change (x s).run = _ at h
  change (OptionT.orElse (x s) fun _ ↦ y s).run = _
  simp only [OptionT.orElse, OptionT.run, OptionT.mk] at h ⊢
  rw [h]
  rfl

theorem result_orElse_none (h : x.result s = .ok none) : (x <|> y).result s = y.result s := by
  change (x s).run = _ at h
  change (OptionT.orElse (x s) fun _ ↦ y s).run = _
  simp only [OptionT.orElse, OptionT.run, OptionT.mk] at h ⊢
  rw [h]
  rfl

theorem result_orElse_error {e : ε} (h : x.result s = .error e) : (x <|> y).result s = .error e := by
  change (x s).run = _ at h
  change (OptionT.orElse (x s) fun _ ↦ y s).run = _
  simp only [OptionT.orElse, OptionT.run, OptionT.mk] at h ⊢
  rw [h]
  rfl

/-- From this state the program does not fault, and what it gives satisfies `Q`. -/
def Safe (x : Search ε σ α) (s : σ) (Q : α → σ → Prop) : Prop :=
  ∃ r, x.result s = .ok r ∧ ∀ a t, r = some (a, t) → Q a t

variable {Q Q' : α → σ → Prop}

theorem safe_pure (h : Q a s) : Safe (pure a : Search ε σ α) s Q := by
  refine ⟨_, rfl, ?_⟩
  intro b t hb
  cases hb
  exact h

theorem safe_failure : Safe (failure : Search ε σ α) s Q := ⟨none, rfl, nofun⟩

theorem Safe.bind {R : β → σ → Prop} (hx : Safe x s Q) (hf : ∀ a t, Q a t → Safe (f a) t R) :
    Safe (x >>= f) s R := by
  obtain ⟨r, hr, hq⟩ := hx
  cases r with
  | none => exact ⟨none, result_bind_none hr, nofun⟩
  | some p =>
    obtain ⟨a, t⟩ := p
    obtain ⟨r', hr', hq'⟩ := hf a t (hq a t rfl)
    exact ⟨r', (result_bind_some hr).trans hr', hq'⟩

theorem Safe.orElse (hx : Safe x s Q) (hy : Safe y s Q) : Safe (x <|> y) s Q := by
  obtain ⟨r, hr, hq⟩ := hx
  cases r with
  | none =>
    obtain ⟨r', hr', hq'⟩ := hy
    exact ⟨r', (result_orElse_none hr).trans hr', hq'⟩
  | some p => exact ⟨some p, result_orElse_some hr, hq⟩

theorem Safe.weaken (h : Safe x s Q) (hQ : ∀ a t, Q a t → Q' a t) : Safe x s Q' := by
  obtain ⟨r, hr, hq⟩ := h
  exact ⟨r, hr, fun a t ha ↦ hQ a t (hq a t ha)⟩

theorem safe_ite {c : Prop} [Decidable c] (hx : c → Safe x s Q) (hy : ¬ c → Safe y s Q) :
    Safe (if c then x else y) s Q := by
  split_ifs with h
  · exact hx h
  · exact hy h

/-- What the program gives from this state satisfies `Q`. -/
def Gives (x : Search ε σ α) (s : σ) (Q : α → σ → Prop) : Prop :=
  ∀ a t, x.result s = .ok (some (a, t)) → Q a t

theorem gives_pure (h : Q a s) : Gives (pure a : Search ε σ α) s Q := by
  intro b t hb
  cases hb
  exact h

theorem gives_failure : Gives (failure : Search ε σ α) s Q := nofun

theorem gives_fault {e : ε} : Gives (Search.fault e : Search ε σ α) s Q := nofun

theorem Gives.bind {R : β → σ → Prop} (hx : Gives x s Q) (hf : ∀ a t, Q a t → Gives (f a) t R) :
    Gives (x >>= f) s R := by
  intro b u h
  cases hr : x.result s with
  | error e =>
    rw [result_bind_error hr] at h
    cases h
  | ok r =>
    cases r with
    | none =>
      rw [result_bind_none hr] at h
      cases h
    | some p =>
      obtain ⟨a, t⟩ := p
      rw [result_bind_some hr] at h
      exact hf a t (hx a t hr) b u h

theorem Gives.orElse (hx : Gives x s Q) (hy : Gives y s Q) : Gives (x <|> y) s Q := by
  intro a t h
  cases hr : x.result s with
  | error e =>
    rw [result_orElse_error hr] at h
    cases h
  | ok r =>
    cases r with
    | none =>
      rw [result_orElse_none hr] at h
      exact hy a t h
    | some p =>
      obtain ⟨b, u⟩ := p
      rw [result_orElse_some hr] at h
      exact hx a t (hr.trans h)

theorem gives_ite {c : Prop} [Decidable c] (hx : c → Gives x s Q) (hy : ¬ c → Gives y s Q) :
    Gives (if c then x else y) s Q := by
  split_ifs with h
  · exact hx h
  · exact hy h

end Backtrack
