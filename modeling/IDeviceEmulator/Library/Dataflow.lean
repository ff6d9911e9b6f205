import Mathlib.Logic.Function.Basic
import Mathlib.Data.List.Basic

namespace Dataflow

variable {τ V : Type*} [DecidableEq τ]

/-- The places take the values in their order; the last value of a place stays. -/
def assign (f : τ → V) : List τ → (Nat → V) → τ → V
  | [], _ => f
  | t :: ts, v => assign (Function.update f t (v 0)) ts fun k ↦ v (k + 1)

def kill (ts : List τ) (dead : τ → Bool) (t : τ) : Bool := decide (t ∈ ts) || dead t

def revive (ts : List τ) (dead : τ → Bool) (t : τ) : Bool := !decide (t ∈ ts) && dead t

/-- Two states agree on what is not dead. -/
def Agree (dead : τ → Bool) (f g : τ → V) : Prop := ∀ t, dead t = false → f t = g t

variable {dead dead' : τ → Bool} {f g : τ → V} {ts : List τ} {t : τ} {v : Nat → V}

theorem kill_nil (dead : τ → Bool) : kill [] dead = dead := by
  funext t
  simp [kill]

theorem revive_nil (dead : τ → Bool) : revive [] dead = dead := by
  funext t
  simp [revive]

theorem kill_cons (t : τ) (ts : List τ) (dead : τ → Bool) :
    kill (t :: ts) dead = kill ts (Function.update dead t true) := by
  funext u
  by_cases h : u = t
  · subst h
    simp [kill]
  · simp [kill, h]

theorem revive_cons (t : τ) (ts : List τ) (dead : τ → Bool) :
    revive (t :: ts) dead = revive ts (Function.update dead t false) := by
  funext u
  by_cases h : u = t
  · subst h
    simp [revive]
  · simp [revive, h]

theorem assign_of_notMem (ht : t ∉ ts) : assign f ts v t = f t := by
  induction ts generalizing f v with
  | nil => rfl
  | cons u ts ih =>
    rw [List.mem_cons, not_or] at ht
    rw [assign, ih ht.2, Function.update_of_ne ht.1]

theorem assign_of_mem (ht : t ∈ ts) : assign f ts v t = assign g ts v t := by
  induction ts generalizing f g v with
  | nil => cases ht
  | cons u ts ih =>
    rw [assign, assign]
    by_cases hts : t ∈ ts
    · exact ih hts
    · obtain rfl : t = u := (List.mem_cons.mp ht).resolve_right hts
      rw [assign_of_notMem hts, assign_of_notMem hts, Function.update_self, Function.update_self]

omit [DecidableEq τ] in
theorem Agree.mono (h : Agree dead f g) (hle : ∀ t, dead' t = false → dead t = false) : Agree dead' f g :=
  fun t ht ↦ h t (hle t ht)

/-- A value that nobody needs may be stored on one side only. -/
theorem Agree.assign_left (h : Agree dead f g) (hts : ∀ t ∈ ts, dead t = true) (v : Nat → V) :
    Agree dead (assign f ts v) g := by
  intro t ht
  have hmem : t ∉ ts := fun hmem ↦ by
    rw [hts t hmem] at ht
    cases ht
  rw [assign_of_notMem hmem]
  exact h t ht

end Dataflow
