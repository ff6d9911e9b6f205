import Mathlib.Tactic.Common

namespace Descent

variable {σ : Type*} {run : Nat → σ} {Rank : σ → Nat → Prop}

/-- A rank that a run never raises, and that it lowers again and again while it is positive. -/
structure Descends (run : Nat → σ) (Rank : σ → Nat → Prop) : Prop where
  step : ∀ n k, Rank (run n) k → ∃ k' ≤ k, Rank (run (n + 1)) k'
  lower : ∀ n k, 0 < k → Rank (run n) k → ∃ m ≥ n, ∃ k' < k, Rank (run m) k'

theorem rank_le (hstep : ∀ n k, Rank (run n) k → ∃ k' ≤ k, Rank (run (n + 1)) k') {n m k : Nat} (hnm : n ≤ m)
    (h : Rank (run n) k) : ∃ k' ≤ k, Rank (run m) k' := by
  induction hnm with
  | refl => exact ⟨k, Nat.le_refl k, h⟩
  | step _ ih =>
    obtain ⟨k', hk', hm⟩ := ih
    obtain ⟨k'', hk'', hm'⟩ := hstep _ k' hm
    exact ⟨k'', Nat.le_trans hk'' hk', hm'⟩

theorem Descends.exists_zero (h : Descends run Rank) {n k : Nat} (hn : Rank (run n) k) :
    ∃ m ≥ n, Rank (run m) 0 := by
  induction k using Nat.strongRecOn generalizing n with
  | ind k ih =>
    rcases Nat.eq_zero_or_pos k with rfl | hpos
    · exact ⟨n, Nat.le_refl n, hn⟩
    · obtain ⟨m, hm, k', hk', hrank⟩ := h.lower n k hpos hn
      obtain ⟨m', hm', hzero⟩ := ih k' hk' hrank
      exact ⟨m', Nat.le_trans hm hm', hzero⟩

theorem Descends.eventually_zero (h : Descends run Rank) {k : Nat} (hstart : Rank (run 0) k) :
    ∃ n, ∀ m, n ≤ m → Rank (run m) 0 := by
  obtain ⟨n, -, hn⟩ := h.exists_zero hstart
  refine ⟨n, fun m hm ↦ ?_⟩
  obtain ⟨k', hk', hrank⟩ := rank_le h.step hm hn
  rwa [Nat.le_zero.mp hk'] at hrank

end Descent
