import IDeviceEmulator.Library.Machine
import IDeviceEmulator.Pl192.Sorter
import IDeviceEmulator.Pl192.Update

namespace IDeviceEmulator.Pl192

open Machine

def selectedPriority (s : State) : Word :=
  if prioritySorter s = daisyIrq then s.daisyPriority else vectPriorityAt s (prioritySorter s)

/-- The sorter selects a source or the daisy input strictly below the in-service priority. -/
def Below (s : State) : Prop := prioritySorter s ≤ daisyIrq ∧ selectedPriority s < s.priority

instance : DecidablePred Below := fun _ ↦ inferInstanceAs (Decidable (_ ∧ _))

theorem driveOf_raise {s : State} (h : driveOf s = .raise) :
    s.currentHighest ≤ daisyIrq ∧
      ¬ (s.currentHighest < 32 ∧ s.priority ≤ vectPriorityAt s s.currentHighest) ∧
      ¬ (s.currentHighest = daisyIrq ∧ s.priority ≤ s.daisyPriority) := by
  unfold driveOf at h
  split_ifs at h with _ hsource hdaisy hle
  exact ⟨hle, hsource, hdaisy⟩

theorem driveOf_lower {s : State} (h : driveOf s = .lower) : ¬ s.currentHighest ≤ daisyIrq := by
  unfold driveOf at h
  split_ifs at h
  assumption

theorem lt_of_le_daisy {x : Word} (h : x ≤ daisyIrq) (hne : x ≠ daisyIrq) : x < 32 := by
  have hle : x.toNat ≤ 32 := h
  have hne' : x.toNat ≠ 32 := fun hx ↦ hne (BitVec.eq_of_toNat_eq hx)
  exact Nat.lt_of_le_of_ne hle hne'

theorem outputOf_raise {s : State} (h : outputOf s = .raise) : Below (settle s) := by
  unfold outputOf at h
  split_ifs at h with hp
  have hsort : prioritySorter (settle s) = (settle s).currentHighest := by
    rw [settle, if_pos hp]
    rfl
  obtain ⟨hle, hsource, hdaisy⟩ := driveOf_raise h
  unfold Below selectedPriority
  rw [hsort]
  refine ⟨hle, ?_⟩
  split_ifs with hd
  · exact BitVec.not_le.mp fun hpri ↦ hdaisy ⟨hd, hpri⟩
  · exact BitVec.not_le.mp fun hpri ↦ hsource ⟨lt_of_le_daisy hle hd, hpri⟩

theorem outputOf_lower {s : State} (h : outputOf s = .lower) : ¬ Below (settle s) := by
  intro hb
  by_cases hp : Pending (refreshStatus s)
  · have hsort : prioritySorter (settle s) = (settle s).currentHighest := by
      rw [settle, if_pos hp]
      rfl
    rw [outputOf, if_pos hp] at h
    exact driveOf_lower h (hsort ▸ hb.1)
  · have hno : prioritySorter (settle s) = noIrq := by
      rw [settle, if_neg hp]
      exact prioritySorter_of_not_pending hp
    have hle := hb.1
    rw [hno] at hle
    exact absurd hle (by decide)

/-- The CPU IRQ line of a lone controller is asserted exactly below the in-service priority. -/
def MaskingLaw (w : Chain) : Prop := w.level .irq = true ↔ Below (w.ctrl 0)

instance : DecidablePred MaskingLaw := fun _ ↦ inferInstanceAs (Decidable (_ ↔ _))

/-- When the update leaves by an exit that does not drive the line, the operation has not
changed whether the selection is below the in-service priority. -/
def KeepsVerdict (w : Chain) (op : Op) : Prop :=
  ∀ e, effect w op = .ok e → e.updates = true → outputOf (e.chain.ctrl 0) = .silent →
    (Below (settle (e.chain.ctrl 0)) ↔ Below (w.ctrl 0))

theorem level_irq_settleAt (w : Chain) : (settleAt 0 w).level .irq = w.level .irq := by
  simp [Chain.level, settleAt]

theorem level_drive (w : Chain) (l : Line) (b : Bool) : (w.drive l b).level l = b := by
  simp [Chain.level]

theorem level_of_lines {v w : Chain} (h : v.lines = w.lines) (l : Line) : v.level l = w.level l := by
  simp only [Chain.level, h]

theorem update_zero_ctrl (w : Chain) : (update 0 w).ctrl 0 = settle (w.ctrl 0) := by
  rw [update_zero]
  cases outputOf (w.ctrl 0) <;> simp [settleAt]

theorem maskingLaw_update (w : Chain) :
    MaskingLaw (update 0 w) ↔
      (outputOf (w.ctrl 0) = .silent → (w.level .irq = true ↔ Below (settle (w.ctrl 0)))) := by
  unfold MaskingLaw
  rw [update_zero_ctrl, update_zero]
  cases ho : outputOf (w.ctrl 0) with
  | silent => simp [level_irq_settleAt]
  | raise => simp [level_drive, outputOf_raise ho]
  | lower => simp [level_drive, outputOf_lower ho]

theorem maskingLaw_step {w v : Chain} {op : Op} {value : Word} (hop : op.target = 0)
    (hw : MaskingLaw w) (h : step w op = .ok (v, value)) : MaskingLaw v ↔ KeepsVerdict w op := by
  obtain ⟨e, he, -, hv⟩ := step_ok h
  rw [KeepsVerdict, forall_ok_iff he]
  cases hu : e.updates with
  | false =>
    have hvw : v = w := by simpa [hu, quiet_chain he hu] using hv
    exact iff_of_true (hvw ▸ hw) fun hu' ↦ by cases hu'
  | true =>
    have hv' : v = update 0 e.chain := by simpa [hu, hop] using hv
    have hlevel : e.chain.level .irq = w.level .irq := level_of_lines (effect_lines he) .irq
    have hverdict : w.level .irq = true ↔ Below (w.ctrl 0) := hw
    rw [hv', maskingLaw_update, hlevel, hverdict]
    constructor
    · intro hl _ hs
      exact (hl hs).symm
    · intro hc hs
      exact (hc rfl hs).symm

theorem maskingLaw_initial : MaskingLaw Chain.initial := by decide +kernel

/-- The masking law holds throughout exactly the runs in which no silent exit coincides
with a change of verdict. -/
theorem masking_line_iff (ops : List Op) (hops : ∀ op ∈ ops, op.target = 0) :
    Throughout step MaskingLaw Chain.initial ops ↔ Attempts step KeepsVerdict Chain.initial ops := by
  apply throughout_iff_attempts maskingLaw_initial
  · intro w op v value hm hw hs
    exact maskingLaw_step (hops op hm) hw hs
  · intro w op hc e he hu
    exact hc _ _ (step_of_effect he hu) e he hu

theorem masking_line_source :
    (∀ op ∈ [Op.mk 0 (.write 0x10 1), Op.mk 0 (.irqHandler 0 true)], op.target = 0) ∧
    (Throughout step MaskingLaw Chain.initial [Op.mk 0 (.write 0x10 1), Op.mk 0 (.irqHandler 0 true)] ↔
      Attempts step KeepsVerdict Chain.initial
        [Op.mk 0 (.write 0x10 1), Op.mk 0 (.irqHandler 0 true)]) :=
  ⟨by decide, masking_line_iff _ (by decide)⟩

/-- The line stays asserted when the only pending interrupt is acknowledged, and when
`SWPRIORITYMASK` masks it. -/
theorem masking_line_stuck :
    ¬ Throughout step MaskingLaw Chain.initial
      [⟨0, .write 0x10 1⟩, ⟨0, .irqHandler 0 true⟩, ⟨0, .read 0xF00⟩] ∧
    ¬ Throughout step MaskingLaw Chain.initial
      [⟨0, .write 0x10 1⟩, ⟨0, .irqHandler 0 true⟩, ⟨0, .write 0x24 0⟩] :=
  ⟨by decide +kernel, by decide +kernel⟩

end IDeviceEmulator.Pl192
