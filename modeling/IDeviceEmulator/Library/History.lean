import Mathlib.Logic.Function.Basic
import IDeviceEmulator.Library.Machine

namespace History

open Machine

variable {κ ν : Type*}

/-- An access to one of a family of cells. -/
inductive Event (κ ν : Type*)
  | read (k : κ) (v : ν)
  | write (k : κ) (v : ν)

variable [DecidableEq κ]

def lastWrite (k : κ) : List (Event κ ν) → Option ν
  | [] => none
  | .read _ _ :: es => lastWrite k es
  | .write j v :: es => (lastWrite k es).or (if j = k then some v else none)

/-- What the cells hold after a history: the value last written, or the initial one. -/
def contents (f : κ → ν) (es : List (Event κ ν)) (k : κ) : ν := (lastWrite k es).getD (f k)

/-- Each read returns the value last written to its cell, or the initial one. -/
def Coherent (f : κ → ν) (es : List (Event κ ν)) : Prop :=
  ∀ pre k v post, es = pre ++ .read k v :: post → v = contents f pre k

variable {f : κ → ν} {es es' : List (Event κ ν)} {k : κ} {v : ν}

theorem contents_nil (f : κ → ν) : contents f [] = f := rfl

theorem contents_write (f : κ → ν) (k : κ) (v : ν) (es : List (Event κ ν)) :
    contents f (.write k v :: es) = contents (Function.update f k v) es := by
  funext j
  have hlast : lastWrite j (.write k v :: es) = (lastWrite j es).or (if k = j then some v else none) := rfl
  rw [contents, contents, hlast]
  cases lastWrite j es with
  | some w => rfl
  | none =>
    by_cases h : k = j
    · subst h
      simp
    · simp [h, Function.update_of_ne (Ne.symm h)]

theorem contents_append (f : κ → ν) (es es' : List (Event κ ν)) :
    contents f (es ++ es') = contents (contents f es) es' := by
  induction es generalizing f with
  | nil => rfl
  | cons e es ih =>
    cases e with
    | read k v => exact ih f
    | write k v => rw [List.cons_append, contents_write, contents_write, ih]

theorem coherent_nil (f : κ → ν) : Coherent f [] := by
  intro pre k v post h
  simp at h

theorem coherent_read (h : v = f k) : Coherent f [.read k v] := by
  intro pre j w post he
  cases pre with
  | nil =>
    cases he
    exact h
  | cons e pre => simp at he

theorem Coherent.append (h : Coherent f es) (h' : Coherent (contents f es) es') : Coherent f (es ++ es') := by
  intro pre k v post he
  rcases List.append_eq_append_iff.mp he with ⟨mid, rfl, hmid⟩ | ⟨mid, rfl, hmid⟩
  · rw [contents_append]
    exact h' mid k v post hmid
  · cases mid with
    | nil =>
      have hlast := h' [] k v post hmid.symm
      rw [List.append_nil] at hlast
      exact hlast
    | cons e mid =>
      obtain ⟨rfl, -⟩ := List.cons.inj hmid
      exact h pre k v mid rfl

theorem coherent_writes (h : ∀ e ∈ es, ∃ k v, e = Event.write k v) : Coherent f es := by
  intro pre k v post he
  obtain ⟨j, w, hw⟩ := h (.read k v) (by simp [he])
  cases hw

section Machines

variable {σ ι ε : Type*} {step : σ → ι → Except ε (σ × List (Event κ ν))} {cells : σ → κ → ν}

/-- A step as the cells see it. -/
def Refines (cells : σ → κ → ν) (s t : σ) (es : List (Event κ ν)) : Prop :=
  Coherent (cells s) es ∧ cells t = contents (cells s) es

/-- When every legal step refines the cells, so does every legal run. -/
theorem exec_refines {I : σ → Prop} {C : σ → ι → Prop}
    (hstep : ∀ s a, I s → C s a → ∃ t es, step s a = .ok (t, es) ∧ I t ∧ Refines cells s t es)
    {s : σ} {as : List ι} (hs : I s) (h : Attempts step C s as) :
    ∃ t ess, exec step s as = .ok (t, ess) ∧ I t ∧ Refines cells s t ess.flatten := by
  induction as generalizing s with
  | nil => exact ⟨s, [], rfl, hs, coherent_nil _, rfl⟩
  | cons a as ih =>
    obtain ⟨t, es, ha, ht, hco, hcells⟩ := hstep s a hs h.head
    obtain ⟨u, ess, hexec, hu, hco', hcells'⟩ := ih ht (h.tail ha)
    refine ⟨u, es :: ess, exec_cons ha hexec, hu, ?_, ?_⟩
    · rw [List.flatten_cons]
      rw [hcells] at hco'
      exact hco.append hco'
    · rw [List.flatten_cons, contents_append, hcells', hcells]

end Machines

end History
