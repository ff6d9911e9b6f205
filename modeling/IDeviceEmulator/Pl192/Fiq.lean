import IDeviceEmulator.Library.Machine
import IDeviceEmulator.Pl192.Update

namespace IDeviceEmulator.Pl192

open Machine

theorem level_settleAt (k : Nat) (w : Chain) :
    (settleAt k w).level .fiq = decide (FiqActive (w.ctrl k)) := by
  simp [Chain.level, settleAt]

theorem level_fiq_drive_irq (w : Chain) (b : Bool) : (w.drive .irq b).level .fiq = w.level .fiq := by
  simp [Chain.level]

theorem fiqActive_held (s : State) : FiqActive (held s) ↔ FiqActive s := Iff.rfl

theorem fiqActive_congr {s t : State} (h : held s = held t) : FiqActive s ↔ FiqActive t := by
  rw [← fiqActive_held s, h, fiqActive_held]

/-- The controller at which a call of `pl192_update` on controller `k` stops following
the daisy chain. -/
def cascadeEnd : Nat → Chain → Nat
  | 0, _ => 0
  | k + 1, w =>
    match outputOf (w.ctrl (k + 1)) with
    | .silent => k + 1
    | .raise => cascadeEnd k (raiseDaisy k (settleAt (k + 1) w))
    | .lower => cascadeEnd k (lowerDaisy k (settleAt (k + 1) w))

theorem cascadeEnd_le (k : Nat) (w : Chain) : cascadeEnd k w ≤ k := by
  induction k generalizing w with
  | zero => exact le_rfl
  | succ k ih =>
    unfold cascadeEnd
    cases outputOf (w.ctrl (k + 1)) with
    | silent => exact le_rfl
    | raise => exact Nat.le_succ_of_le (ih _)
    | lower => exact Nat.le_succ_of_le (ih _)

theorem update_fiq (k : Nat) (w : Chain) :
    (update k w).level .fiq = decide (FiqActive (w.ctrl (cascadeEnd k w))) := by
  induction k generalizing w with
  | zero =>
    rw [update_zero]
    cases outputOf (w.ctrl 0) with
    | silent => exact level_settleAt 0 w
    | raise => exact (level_fiq_drive_irq _ _).trans (level_settleAt 0 w)
    | lower => exact (level_fiq_drive_irq _ _).trans (level_settleAt 0 w)
  | succ k ih =>
    rw [update_succ]
    unfold cascadeEnd
    cases outputOf (w.ctrl (k + 1)) with
    | silent => exact level_settleAt (k + 1) w
    | raise =>
      refine (ih _).trans (decide_eq_decide.mpr (fiqActive_congr ?_))
      exact (held_raiseDaisy k _ _).trans (held_settleAt (k + 1) w _)
    | lower =>
      refine (ih _).trans (decide_eq_decide.mpr (fiqActive_congr ?_))
      exact (held_lowerDaisy k _ _).trans (held_settleAt (k + 1) w _)

/-- The CPU FIQ line is the disjunction of the requests of all controllers. -/
def FiqLaw (n : Nat) (w : Chain) : Prop :=
  w.level .fiq = true ↔ ∃ j < n, FiqActive (w.ctrl j)

instance (n : Nat) : DecidablePred (FiqLaw n) := fun _ ↦ inferInstanceAs (Decidable (_ ↔ _))

/-- If any controller requests an FIQ once the operation has done its assignments, the
one at which its update stops does. -/
def EndsActive (n : Nat) (w : Chain) (op : Op) : Prop :=
  ∀ e, effect w op = .ok e → e.updates = true → (∃ j < n, FiqActive (e.chain.ctrl j)) →
    FiqActive (e.chain.ctrl (cascadeEnd op.target e.chain))

theorem fiqLaw_step {n : Nat} {w v : Chain} {op : Op} {value : Word} (hop : op.target < n)
    (hw : FiqLaw n w) (h : step w op = .ok (v, value)) : FiqLaw n v ↔ EndsActive n w op := by
  obtain ⟨e, he, -, hv⟩ := step_ok h
  rw [EndsActive, forall_ok_iff he]
  cases hu : e.updates with
  | false =>
    have hc := quiet_chain he hu
    have hvw : v = w := by simpa [hu, hc] using hv
    exact iff_of_true (hvw ▸ hw) fun hu' ↦ by cases hu'
  | true =>
    have hv' : v = update op.target e.chain := by simpa [hu] using hv
    have hany : (∃ j < n, FiqActive (v.ctrl j)) ↔ ∃ j < n, FiqActive (e.chain.ctrl j) := by
      simp only [hv', fiqActive_congr (held_update _ _ _)]
    have hlevel : v.level .fiq = true ↔
        FiqActive (e.chain.ctrl (cascadeEnd op.target e.chain)) := by
      rw [hv', update_fiq, decide_eq_true_iff]
    have hend : cascadeEnd op.target e.chain < n := Nat.lt_of_le_of_lt (cascadeEnd_le _ _) hop
    simp only [FiqLaw, hlevel, hany]
    constructor
    · intro hl _ hex
      exact hl.mpr hex
    · intro hc
      exact ⟨fun ha ↦ ⟨_, hend, ha⟩, hc trivial⟩

theorem fiqLaw_initial (n : Nat) : FiqLaw n Chain.initial := by
  refine iff_of_false (by simp [Chain.level, Chain.initial]) ?_
  rintro ⟨j, -, hj⟩
  have hinit : ¬ FiqActive init := by decide
  exact hinit hj

/-- The FIQ line follows the whole chain exactly in the runs in which no update stops at
a controller without an FIQ request while another one has it. -/
theorem fiq_line_iff (n : Nat) (ops : List Op) (hops : ∀ op ∈ ops, op.target < n) :
    Throughout step (FiqLaw n) Chain.initial ops ↔ Attempts step (EndsActive n) Chain.initial ops := by
  apply throughout_iff_attempts (fiqLaw_initial n)
  · intro w op v value hm hw hs
    exact fiqLaw_step (hops op hm) hw hs
  · intro w op hc e he hu
    exact hc _ _ (step_of_effect he hu) e he hu

theorem fiq_line_head_source :
    (∀ op ∈ [Op.mk 0 (.write 0x0C 1), Op.mk 0 (.write 0x10 1), Op.mk 0 (.irqHandler 0 true)],
      op.target < 2) ∧
    (Throughout step (FiqLaw 2) Chain.initial
        [Op.mk 0 (.write 0x0C 1), Op.mk 0 (.write 0x10 1), Op.mk 0 (.irqHandler 0 true)] ↔
      Attempts step (EndsActive 2) Chain.initial
        [Op.mk 0 (.write 0x0C 1), Op.mk 0 (.write 0x10 1), Op.mk 0 (.irqHandler 0 true)]) :=
  ⟨by decide, fiq_line_iff 2 _ (by decide)⟩

/-- An FIQ source on the second controller is lost: its update ends by lowering the IRQ
output, and the update of the head lowers the FIQ line again. -/
theorem fiq_line_lost_on_second :
    ¬ Throughout step (FiqLaw 2) Chain.initial
      [⟨1, .write 0x0C 1⟩, ⟨1, .write 0x10 1⟩, ⟨1, .irqHandler 0 true⟩] :=
  by decide +kernel

end IDeviceEmulator.Pl192
