import Mathlib.Algebra.GroupWithZero.Nat
import Mathlib.Tactic.Common
import Mathlib.Data.Nat.Find

namespace Loop

variable {σ ρ : Type*} {body : σ → σ ⊕ ρ}

/-- Execute a loop for a bounded number of turns. A turn continues with a new state or
leaves with a result. -/
def run (body : σ → σ ⊕ ρ) : Nat → σ → Option ρ
  | 0, _ => none
  | n + 1, s =>
    match body s with
    | .inl t => run body n t
    | .inr r => some r

theorem run_inl {n : Nat} {s t : σ} (h : body s = .inl t) : run body (n + 1) s = run body n t := by
  rw [run, h]

theorem run_inr {n : Nat} {s : σ} {r : ρ} (h : body s = .inr r) : run body (n + 1) s = some r := by
  rw [run, h]

theorem run_mono {n m : Nat} (hnm : n ≤ m) {s : σ} {r : ρ} (h : run body n s = some r) :
    run body m s = some r := by
  induction n generalizing m s with
  | zero => cases h
  | succ n ih =>
    obtain ⟨m, rfl⟩ := Nat.exists_eq_add_of_le hnm
    rw [Nat.add_right_comm]
    cases hb : body s with
    | inl t =>
      rw [run_inl hb] at h ⊢
      exact ih (Nat.le_add_right n m) h
    | inr r' =>
      rw [run_inr hb] at h ⊢
      exact h

def Ends (body : σ → σ ⊕ ρ) (s : σ) (r : ρ) : Prop := ∃ n, run body n s = some r

theorem Ends.exit {s : σ} {r : ρ} (h : body s = .inr r) : Ends body s r := ⟨1, run_inr h⟩

theorem Ends.turn {s t : σ} {r : ρ} (h : body s = .inl t) (ht : Ends body t r) : Ends body s r := by
  obtain ⟨n, hn⟩ := ht
  exact ⟨n + 1, (run_inl h).trans hn⟩

theorem Ends.eventually {s : σ} {r : ρ} (h : Ends body s r) : ∃ n, ∀ m, n ≤ m → run body m s = some r := by
  obtain ⟨n, hn⟩ := h
  exact ⟨n, fun m hm ↦ run_mono hm hn⟩

theorem Ends.unique {s : σ} {r r' : ρ} (h : Ends body s r) (h' : Ends body s r') : r = r' := by
  obtain ⟨n, hn⟩ := h
  obtain ⟨m, hm⟩ := h'
  have h₁ := run_mono (Nat.le_max_left n m) hn
  have h₂ := run_mono (Nat.le_max_right n m) hm
  rw [h₁] at h₂
  exact Option.some.inj h₂

theorem Ends.of_states (state : Nat → σ) {n : Nat} {r : ρ}
    (hturn : ∀ m < n, body (state m) = .inl (state (m + 1))) (hexit : body (state n) = .inr r) :
    Ends body (state 0) r := by
  induction n generalizing state with
  | zero => exact .exit hexit
  | succ n ih =>
    refine .turn (hturn 0 (Nat.zero_lt_succ n)) ?_
    exact ih (fun n ↦ state (n + 1)) (fun m hm ↦ hturn (m + 1) (Nat.succ_lt_succ hm)) hexit

theorem not_ends_of_states (state : Nat → σ) (hturn : ∀ n, body (state n) = .inl (state (n + 1))) (r : ρ) :
    ¬ Ends body (state 0) r := by
  rintro ⟨n, hn⟩
  induction n generalizing state with
  | zero => cases hn
  | succ n ih =>
    rw [run_inl (hturn 0)] at hn
    exact ih (fun n ↦ state (n + 1)) (fun m ↦ hturn (m + 1)) hn

/-- A loop that follows a sequence of states unless it stops leaves exactly if there is a
state where it stops. -/
theorem ends_iff_states (state : Nat → σ) {stop : Nat → Prop}
    (hturn : ∀ n, ¬ stop n → body (state n) = .inl (state (n + 1)))
    (hexit : ∀ n, stop n → (∀ m < n, ¬ stop m) → ∃ r, body (state n) = .inr r) :
    (∃ r, Ends body (state 0) r) ↔ ∃ n, stop n := by
  classical
  constructor
  · rintro ⟨r, hr⟩
    by_contra hnone
    exact not_ends_of_states state (fun n ↦ hturn n fun hn ↦ hnone ⟨n, hn⟩) r hr
  · intro h
    obtain ⟨r, hr⟩ := hexit (Nat.find h) (Nat.find_spec h) fun m hm ↦ Nat.find_min h hm
    exact ⟨r, .of_states state (fun m hm ↦ hturn m (Nat.find_min h hm)) hr⟩

section Settles

variable {α β : Type*} {f : Nat → Option α} {a b : α}

/-- With enough turns the computation gives `a`. -/
def Settles (f : Nat → Option α) (a : α) : Prop := ∃ n, ∀ m, n ≤ m → f m = some a

theorem Settles.of_forall (h : ∀ n, f n = some a) : Settles f a := ⟨0, fun m _ ↦ h m⟩

theorem Settles.bind {g : Nat → α → Option β} {b : β} (hf : Settles f a) (hg : Settles (fun n ↦ g n a) b) :
    Settles (fun n ↦ (f n).bind (g n)) b := by
  obtain ⟨n, hn⟩ := hf
  obtain ⟨m, hm⟩ := hg
  refine ⟨max n m, fun k hk ↦ ?_⟩
  change (f k).bind (g k) = some b
  rw [hn k (Nat.le_trans (Nat.le_max_left n m) hk)]
  exact hm k (Nat.le_trans (Nat.le_max_right n m) hk)

theorem Settles.map {g : α → β} (hf : Settles f a) : Settles (fun n ↦ (f n).map g) (g a) := by
  obtain ⟨n, hn⟩ := hf
  exact ⟨n, fun m hm ↦ congrArg (Option.map g) (hn m hm)⟩

theorem Settles.unique (h : Settles f a) (h' : Settles f b) : a = b := by
  obtain ⟨n, hn⟩ := h
  obtain ⟨m, hm⟩ := h'
  have hab := (hn _ (Nat.le_max_left n m)).symm.trans (hm _ (Nat.le_max_right n m))
  exact Option.some.inj hab

end Settles

/-- The states in which a turn of the loop starts. -/
inductive Reaches (body : σ → σ ⊕ ρ) : σ → σ → Prop
  | refl (s : σ) : Reaches body s s
  | turn {s t u : σ} : body s = .inl t → Reaches body t u → Reaches body s u

theorem Reaches.snoc {s t u : σ} (h : Reaches body s t) (hu : body t = .inl u) : Reaches body s u := by
  induction h with
  | refl s => exact .turn hu (.refl u)
  | turn hs _ ih => exact .turn hs (ih hu)

section States

variable (state : Nat → σ) {stop : Nat → Prop}
  (hturn : ∀ n, (∀ m ≤ n, ¬ stop m) → body (state n) = .inl (state (n + 1)))
include hturn

theorem reaches_state {n : Nat} (h : ∀ m < n, ¬ stop m) : Reaches body (state 0) (state n) := by
  induction n with
  | zero => exact .refl _
  | succ n ih =>
    refine (ih fun m hm ↦ h m (Nat.lt_succ_of_lt hm)).snoc (hturn n ?_)
    exact fun m hm ↦ h m (Nat.lt_succ_of_le hm)

theorem state_of_reaches
    (hexit : ∀ n, stop n → (∀ m < n, ¬ stop m) → ∃ r, body (state n) = .inr r) {k : Nat} {s : σ}
    (hk : ∀ m < k, ¬ stop m) (h : Reaches body (state k) s) : ∃ n, s = state n ∧ ∀ m < n, ¬ stop m := by
  generalize hstart : state k = t at h
  induction h generalizing k with
  | refl => exact ⟨k, hstart.symm, hk⟩
  | turn hs _ ih =>
    subst hstart
    by_cases hstop : stop k
    · obtain ⟨r, hr⟩ := hexit k hstop hk
      cases hr.symm.trans hs
    · have hall : ∀ m ≤ k, ¬ stop m := by
        intro m hm
        rcases Nat.lt_or_eq_of_le hm with hlt | rfl
        · exact hk m hlt
        · exact hstop
      exact ih (fun m hm ↦ hall m (Nat.le_of_lt_succ hm)) (Sum.inl.inj ((hturn k hall).symm.trans hs))

/-- A loop that follows a sequence of states until it stops starts a turn in just these. -/
theorem reaches_iff_states
    (hexit : ∀ n, stop n → (∀ m < n, ¬ stop m) → ∃ r, body (state n) = .inr r) (s : σ) :
    Reaches body (state 0) s ↔ ∃ n, s = state n ∧ ∀ m < n, ¬ stop m := by
  constructor
  · exact fun h ↦ state_of_reaches state hturn hexit (fun m hm ↦ absurd hm (Nat.not_lt_zero m)) h
  · rintro ⟨n, rfl, hn⟩
    exact reaches_state state hturn hn

end States

end Loop
