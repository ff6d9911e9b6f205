import IDeviceEmulator.Library.Machine
import IDeviceEmulator.Pl192.Chain

namespace IDeviceEmulator.Pl192

section Lines

variable (w : Chain)

@[simp] theorem modify_ctrl (k : Nat) (f : State → State) :
    (w.modify k f).ctrl = Function.update w.ctrl k (f (w.ctrl k)) := rfl

theorem modify_self (k : Nat) (f : State → State) : (w.modify k f).ctrl k = f (w.ctrl k) :=
  Function.update_self ..

theorem modify_of_ne {j k : Nat} (h : j ≠ k) (f : State → State) : (w.modify k f).ctrl j = w.ctrl j :=
  Function.update_of_ne h ..

@[simp] theorem modify_lines (k : Nat) (f : State → State) : (w.modify k f).lines = w.lines := rfl

@[simp] theorem modify_trace (k : Nat) (f : State → State) : (w.modify k f).trace = w.trace := rfl

@[simp] theorem touch_ctrl (as : List Access) : (w.touch as).ctrl = w.ctrl := rfl

@[simp] theorem touch_lines (as : List Access) : (w.touch as).lines = w.lines := rfl

@[simp] theorem touch_trace (as : List Access) : (w.touch as).trace = as.reverse ++ w.trace := rfl

@[simp] theorem drive_ctrl (l : Line) (b : Bool) : (w.drive l b).ctrl = w.ctrl := rfl

@[simp] theorem drive_lines (l : Line) (b : Bool) : (w.drive l b).lines = (l, b) :: w.lines := rfl

@[simp] theorem drive_trace (l : Line) (b : Bool) : (w.drive l b).trace = w.trace := rfl

theorem driveFiq_eq (b : Bool) (k : Nat) : driveFiq b k w = w.drive .fiq b := by
  induction k with
  | zero => rfl
  | succ k ih => exact ih

end Lines

def settle (s : State) : State :=
  if Pending (refreshStatus s) then select (refreshStatus s)
  else { refreshStatus s with currentHighest := noIrq }

def outputOf (s : State) : Drive :=
  if Pending (refreshStatus s) then driveOf (settle s) else .lower

def FiqActive (s : State) : Prop := (s.rawintr ||| s.softint) &&& s.intenable &&& s.intselect ≠ 0

instance (s : State) : Decidable (FiqActive s) := inferInstanceAs (Decidable (_ ≠ _))

def settleAccesses (s : State) : List Access :=
  if Pending (refreshStatus s) then selectAccesses (refreshStatus s) else []

def settleAt (k : Nat) (w : Chain) : Chain :=
  { ctrl := Function.update w.ctrl k (settle (w.ctrl k))
    lines := (.fiq, decide (FiqActive (w.ctrl k))) :: w.lines
    trace := (settleAccesses (w.ctrl k)).reverse ++ w.trace }

theorem updateWith_eq (k : Nat) (raise lower : Chain → Chain) (w : Chain) :
    updateWith k raise lower w =
      match outputOf (w.ctrl k) with
      | .silent => settleAt k w
      | .raise => raise (settleAt k w)
      | .lower => lower (settleAt k w) := by
  have hfiq : decide ((refreshStatus (w.ctrl k)).fiqStatus ≠ 0) = decide (FiqActive (w.ctrl k)) := rfl
  simp only [updateWith, driveFiq_eq, drive_ctrl, modify_ctrl, Function.update_self, hfiq]
  by_cases hp : Pending (refreshStatus (w.ctrl k))
  · have hs : settle (w.ctrl k) = select (refreshStatus (w.ctrl k)) := if_pos hp
    have hc : (((w.modify k refreshStatus).drive .fiq (decide (FiqActive (w.ctrl k)))).touch
        (selectAccesses (refreshStatus (w.ctrl k)))).modify k select = settleAt k w := by
      simp [settleAt, settleAccesses, hp, hs, Chain.modify, Chain.touch, Chain.drive]
    cases hd : driveOf (select (refreshStatus (w.ctrl k))) <;>
      simp only [hp, if_true, outputOf, hs, hd, hc, touch_ctrl, drive_ctrl, modify_ctrl, Function.update_self]
  · have hc : ((w.modify k refreshStatus).drive .fiq (decide (FiqActive (w.ctrl k)))).modify k
        (fun s ↦ { s with currentHighest := noIrq }) = settleAt k w := by
      simp [settleAt, settleAccesses, settle, hp, Chain.modify, Chain.drive]
    simp only [hp, if_false, outputOf, hc]

theorem update_zero (w : Chain) :
    update 0 w =
      match outputOf (w.ctrl 0) with
      | .silent => settleAt 0 w
      | .raise => (settleAt 0 w).drive .irq true
      | .lower => (settleAt 0 w).drive .irq false :=
  updateWith_eq 0 _ _ w

theorem update_succ (k : Nat) (w : Chain) :
    update (k + 1) w =
      match outputOf (w.ctrl (k + 1)) with
      | .silent => settleAt (k + 1) w
      | .raise => update k (raiseDaisy k (settleAt (k + 1) w))
      | .lower => update k (lowerDaisy k (settleAt (k + 1) w)) :=
  updateWith_eq (k + 1) _ _ w

/-- What every hop of the cascade preserves, `pl192_update` preserves. -/
theorem update_preserves {P : Chain → Prop} (hsettle : ∀ k w, P w → P (settleAt k w))
    (hdrive : ∀ b w, P w → P (w.drive .irq b)) (hraise : ∀ k w, P w → P (raiseDaisy k w))
    (hlower : ∀ k w, P w → P (lowerDaisy k w)) (k : Nat) {w : Chain} (hw : P w) : P (update k w) := by
  induction k generalizing w with
  | zero =>
    have hs := hsettle 0 w hw
    rw [update_zero]
    cases outputOf (w.ctrl 0) with
    | silent => exact hs
    | raise => exact hdrive true _ hs
    | lower => exact hdrive false _ hs
  | succ k ih =>
    have hs := hsettle (k + 1) w hw
    rw [update_succ]
    cases outputOf (w.ctrl (k + 1)) with
    | silent => exact hs
    | raise => exact ih (hraise k _ hs)
    | lower => exact ih (hlower k _ hs)

/-- The registers that no call of `pl192_update` writes. -/
def held (s : State) : State :=
  { s with
    irqStatus := 0
    fiqStatus := 0
    currentHighest := 0
    address := 0
    daisyVectaddr := 0
    daisyCallback := none
    daisyInput := 0 }

theorem held_settle (s : State) : held (settle s) = held s := by
  unfold settle
  split <;> rfl

theorem settle_callback (s : State) : (settle s).daisyCallback = s.daisyCallback := by
  unfold settle
  split <;> rfl

theorem settle_input (s : State) : (settle s).daisyInput = s.daisyInput := by
  unfold settle
  split <;> rfl

theorem settle_vectaddr (s : State) : (settle s).daisyVectaddr = s.daisyVectaddr := by
  unfold settle
  split <;> rfl

theorem settleAt_self (k : Nat) (w : Chain) : (settleAt k w).ctrl k = settle (w.ctrl k) :=
  Function.update_self ..

theorem settleAt_of_ne {k j : Nat} (h : j ≠ k) (w : Chain) : (settleAt k w).ctrl j = w.ctrl j :=
  Function.update_of_ne h ..

theorem held_update_self (f : Nat → State) (k : Nat) (s : State) (h : held s = held (f k)) (j : Nat) :
    held (Function.update f k s j) = held (f j) := by
  by_cases hj : j = k
  · subst j; simpa using h
  · simp [Function.update_of_ne hj]

theorem held_settleAt (k : Nat) (w : Chain) (j : Nat) :
    held ((settleAt k w).ctrl j) = held (w.ctrl j) :=
  held_update_self _ _ _ (held_settle _) j

theorem held_raiseDaisy (k : Nat) (w : Chain) (j : Nat) :
    held ((raiseDaisy k w).ctrl j) = held (w.ctrl j) := by
  apply held_update_self w.ctrl
  rfl

theorem held_lowerDaisy (k : Nat) (w : Chain) (j : Nat) :
    held ((lowerDaisy k w).ctrl j) = held (w.ctrl j) := by
  apply held_update_self w.ctrl
  rfl

theorem held_update (k : Nat) (w : Chain) (j : Nat) :
    held ((update k w).ctrl j) = held (w.ctrl j) := by
  apply update_preserves (P := fun v ↦ held (v.ctrl j) = held (w.ctrl j))
  · exact fun i v hv ↦ (held_settleAt i v j).trans hv
  · exact fun _ _ hv ↦ hv
  · exact fun i v hv ↦ (held_raiseDaisy i v j).trans hv
  · exact fun i v hv ↦ (held_lowerDaisy i v j).trans hv
  · rfl

theorem maskPriority_ok {w v : Chain} {k : Nat} (h : maskPriority w k = .ok v) :
    (w.ctrl k).stackI < 16 ∧ v = (w.touch (pushAccesses (w.ctrl k))).modify k push := by
  unfold maskPriority at h
  split_ifs at h with h₁ h₂
  cases h
  exact ⟨by omega, rfl⟩

theorem unmaskPriority_ok {w v : Chain} {k : Nat} (h : unmaskPriority w k = .ok v) :
    0 < (w.ctrl k).stackI ∧ v = (w.touch (popAccesses (w.ctrl k))).modify k pop := by
  unfold unmaskPriority at h
  split_ifs at h with h₁ h₂
  cases h
  exact ⟨by omega, rfl⟩

theorem maskPriority_of_lt {w : Chain} {k : Nat} (h : (w.ctrl k).stackI < 16) :
    maskPriority w k = .ok ((w.touch (pushAccesses (w.ctrl k))).modify k push) := by
  rw [maskPriority, if_neg (by omega), if_pos (by omega)]

theorem unmaskPriority_of_pos {w : Chain} {k : Nat} (h : 0 < (w.ctrl k).stackI)
    (hd : (w.ctrl k).stackI < 17) :
    unmaskPriority w k = .ok ((w.touch (popAccesses (w.ctrl k))).modify k pop) := by
  rw [unmaskPriority, if_neg (by omega), if_pos (by omega)]

theorem onCallback_ok {f : Chain → Nat → Except Stop Chain} {w v : Chain} {k : Nat}
    (h : onCallback f w k = .ok v) : ∃ j, (w.ctrl k).daisyCallback = some j ∧ f w j = .ok v := by
  unfold onCallback at h
  cases hc : (w.ctrl k).daisyCallback with
  | none => simp [hc] at h
  | some j => exact ⟨j, rfl, by simpa [hc] using h⟩

def takeHighest (s : State) : State := { s with current := s.currentHighest }

theorem irqAck_eq (w : Chain) (k : Nat) :
    irqAck w k = (maskPriority (w.modify k takeHighest) k).bind fun u ↦
      if (w.ctrl k).currentHighest = daisyIrq then onCallback maskPriority u k else .ok u := rfl

theorem irqFin_eq (w : Chain) (k : Nat) :
    irqFin w k = (unmaskPriority w k).bind fun u ↦
      if (w.ctrl k).current = daisyIrq then onCallback unmaskPriority u k else .ok u := rfl

theorem bind_callback_ok {r : Except Stop Chain} {f : Chain → Nat → Except Stop Chain} {v : Chain}
    {k : Nat} {daisy : Prop} [Decidable daisy]
    (h : (r.bind fun u ↦ if daisy then onCallback f u k else .ok u) = .ok v) :
    ∃ u, r = .ok u ∧ if daisy then onCallback f u k = .ok v else v = u := by
  cases r with
  | error stop => cases h
  | ok u =>
    refine ⟨u, rfl, ?_⟩
    rw [Except.bind] at h
    split_ifs at h ⊢ with hd
    · exact h
    · exact (Except.ok.inj h).symm

theorem irqAck_ok {w v : Chain} {k : Nat} (h : irqAck w k = .ok v) :
    ∃ u, maskPriority (w.modify k takeHighest) k = .ok u ∧
      if (w.ctrl k).currentHighest = daisyIrq then onCallback maskPriority u k = .ok v else v = u :=
  bind_callback_ok (irqAck_eq w k ▸ h)

theorem irqFin_ok {w v : Chain} {k : Nat} (h : irqFin w k = .ok v) :
    ∃ u, unmaskPriority w k = .ok u ∧
      if (w.ctrl k).current = daisyIrq then onCallback unmaskPriority u k = .ok v else v = u :=
  bind_callback_ok (irqFin_eq w k ▸ h)

def internal (s : State) : State :=
  { s with
    rawintr := 0
    intselect := 0
    intenable := 0
    softint := 0
    protection := 0
    swPriorityMask := 0
    vectAddr := Vector.replicate 32 0
    vectPriority := Vector.replicate 32 0
    daisyPriority := 0 }

structure Leveled (s : State) : Prop where
  daisy : s.daisyPriority.toNat < 16
  vect : ∀ i : Fin 32, (s.vectPriority[i]).toNat < 16

structure IsStore (f : State → State) : Prop where
  internal_eq : ∀ s, internal (f s) = internal s
  callback : ∀ s c, f { s with daisyCallback := c } = { f s with daisyCallback := c }
  leveled : ∀ s, Leveled s → Leveled (f s)

theorem and_f_lt (v : Word) : (v &&& 0xf).toNat < 16 := by
  rw [BitVec.toNat_and]
  exact Nat.lt_of_le_of_lt Nat.and_le_right (by decide)

theorem leveled_vectPriority (s : State) (h : Leveled s) (i : Fin 32) (v : Word) :
    Leveled (store v (.vectPriority i) s) := by
  refine ⟨h.daisy, fun j ↦ ?_⟩
  have hj := h.vect j
  simp only [store, Fin.getElem_fin, Vector.getElem_set]
  split_ifs
  · exact and_f_lt v
  · exact hj

theorem isStore_store (value : Word) (r : Register) : IsStore (store value r) := by
  cases r with
  | vectPriority i => exact ⟨fun _ ↦ rfl, fun _ _ ↦ rfl, fun s hs ↦ leveled_vectPriority s hs i value⟩
  | priorityDaisy => exact ⟨fun _ ↦ rfl, fun _ _ ↦ rfl, fun s hs ↦ ⟨and_f_lt value, hs.vect⟩⟩
  | _ => exact ⟨fun _ ↦ rfl, fun _ _ ↦ rfl, fun s hs ↦ ⟨hs.daisy, hs.vect⟩⟩

/-- Reads of `VECTADDR`, and of `SOFTINTCLEAR`, which falls through to it. -/
def Op.Acknowledges (op : Op) : Prop :=
  match op.request with
  | .read offset => Register.ofOffset offset = .softIntClear ∨ Register.ofOffset offset = .vectAddress
  | _ => False

instance : DecidablePred Op.Acknowledges
  | ⟨_, .read _⟩ => inferInstanceAs (Decidable (_ ∨ _))
  | ⟨_, .write _ _⟩ => inferInstanceAs (Decidable False)
  | ⟨_, .irqHandler _ _⟩ => inferInstanceAs (Decidable False)

def Op.Finishes (op : Op) : Prop :=
  match op.request with
  | .write offset _ => Register.ofOffset offset = .vectAddress
  | _ => False

instance : DecidablePred Op.Finishes
  | ⟨_, .read _⟩ => inferInstanceAs (Decidable False)
  | ⟨_, .write _ _⟩ => inferInstanceAs (Decidable (_ = _))
  | ⟨_, .irqHandler _ _⟩ => inferInstanceAs (Decidable False)

theorem not_acknowledges_of_finishes {op : Op} (h : op.Finishes) : ¬ op.Acknowledges := by
  obtain ⟨k, request⟩ := op
  cases request with
  | write offset value => exact id
  | read offset => exact False.elim h
  | irqHandler irq level => exact False.elim h

inductive Acts (op : Op) : Prop
  | ack (h : op.Acknowledges)
      (hr : ∀ w, effect w op = (irqAck w op.target).map fun v ↦ ⟨v, true, (w.ctrl op.target).address⟩)
  | fin (h : op.Finishes) (hr : ∀ w, effect w op = (irqFin w op.target).map fun v ↦ ⟨v, true, 0⟩)
  | quiet (ha : ¬ op.Acknowledges) (hf : ¬ op.Finishes) {value : State → Word}
      (hv : ∀ s c, value { s with daisyCallback := c } = value s)
      (hr : ∀ w, effect w op = .ok ⟨w, false, value (w.ctrl op.target)⟩)
  | store (ha : ¬ op.Acknowledges) (hf : ¬ op.Finishes) {f : State → State} (hs : IsStore f)
      (hr : ∀ w, effect w op = .ok ⟨w.modify op.target f, true, 0⟩)
  | refuse (ha : ¬ op.Acknowledges) (hf : ¬ op.Finishes)
      (hr : ∀ w, effect w op = .error ⟨.hwError, w⟩)

theorem view_callback (register : Register) (s : State) (c : Option Nat) :
    view register { s with daisyCallback := c } = view register s := by
  cases register <;> rfl

theorem read_acts (k : Nat) (offset : Word) : Acts ⟨k, .read offset⟩ := by
  have hfin : ¬ (Op.mk k (.read offset)).Finishes := id
  cases hr : Register.ofOffset offset
  case softIntClear | vectAddress =>
    refine .ack (by simp [Op.Acknowledges, hr]) fun w ↦ ?_
    simp only [effect, read, hr]
    cases irqAck w k <;> rfl
  all_goals
    refine .quiet (by simp [Op.Acknowledges, hr]) hfin (view_callback (Register.ofOffset offset)) fun w ↦ ?_
    simp only [effect, read, hr]

theorem write_acts (k : Nat) (offset value : Word) : Acts ⟨k, .write offset value⟩ := by
  have hack : ¬ (Op.mk k (.write offset value)).Acknowledges := id
  cases hr : Register.ofOffset offset
  case vectAddress =>
    refine .fin hr fun w ↦ ?_
    simp only [effect, write, hr]
    cases irqFin w k <;> rfl
  case unaligned | id | fiqStatus | rawIntr =>
    refine .refuse hack (by simp [Op.Finishes, hr]) fun w ↦ ?_
    simp only [effect, write, hr]
  case irqStatus | pl190 | bad =>
    refine @Acts.quiet _ hack (by simp [Op.Finishes, hr]) (fun _ ↦ 0) (fun _ _ ↦ rfl) fun w ↦ ?_
    simp only [effect, write, hr]
  all_goals
    refine .store hack (by simp [Op.Finishes, hr]) (isStore_store value (Register.ofOffset offset)) fun w ↦ ?_
    simp only [effect, write, hr]

theorem op_acts (op : Op) : Acts op := by
  obtain ⟨k, request⟩ := op
  cases request with
  | irqHandler irq level =>
    refine .store id id ?_ fun w ↦ rfl
    exact ⟨fun _ ↦ rfl, fun _ _ ↦ rfl, fun s hs ↦ ⟨hs.daisy, hs.vect⟩⟩
  | read offset => exact read_acts k offset
  | write offset value => exact write_acts k offset value

/-- An operation that returns has done nothing, stored into its controller, stacked an
acknowledged interrupt or unstacked a finished one. -/
inductive Effects (w : Chain) (op : Op) : Effect → Prop
  | quiet (value : Word) : Effects w op ⟨w, false, value⟩
  | store {f : State → State} (h : IsStore f) : Effects w op ⟨w.modify op.target f, true, 0⟩
  | ack {v : Chain} (h : irqAck w op.target = .ok v) :
      Effects w op ⟨v, true, (w.ctrl op.target).address⟩
  | fin {v : Chain} (h : irqFin w op.target = .ok v) : Effects w op ⟨v, true, 0⟩

theorem effect_effects {w : Chain} {op : Op} {e : Effect} (h : effect w op = .ok e) :
    Effects w op e := by
  cases op_acts op with
  | ack _ hr =>
    obtain ⟨v, ha, rfl⟩ := Machine.ok_of_map (hr w ▸ h)
    exact .ack ha
  | fin _ hr =>
    obtain ⟨v, ha, rfl⟩ := Machine.ok_of_map (hr w ▸ h)
    exact .fin ha
  | quiet _ _ _ hr =>
    rw [hr w] at h
    cases h
    exact .quiet _
  | store _ _ hs hr =>
    rw [hr w] at h
    cases h
    exact .store hs
  | refuse _ _ hr =>
    rw [hr w] at h
    cases h

theorem maskPriority_lines {w v : Chain} {k : Nat} (h : maskPriority w k = .ok v) :
    v.lines = w.lines := by
  obtain ⟨-, rfl⟩ := maskPriority_ok h
  rfl

theorem unmaskPriority_lines {w v : Chain} {k : Nat} (h : unmaskPriority w k = .ok v) :
    v.lines = w.lines := by
  obtain ⟨-, rfl⟩ := unmaskPriority_ok h
  rfl

theorem effect_lines {w : Chain} {op : Op} {e : Effect} (h : effect w op = .ok e) :
    e.chain.lines = w.lines := by
  cases effect_effects h with
  | quiet | store => rfl
  | ack ha =>
    obtain ⟨u, hu, hd⟩ := irqAck_ok ha
    have hul : u.lines = w.lines := by rw [maskPriority_lines hu, modify_lines]
    split_ifs at hd
    · obtain ⟨j, -, hj⟩ := onCallback_ok hd
      exact (maskPriority_lines hj).trans hul
    · exact hd ▸ hul
  | fin ha =>
    obtain ⟨u, hu, hd⟩ := irqFin_ok ha
    have hul : u.lines = w.lines := unmaskPriority_lines hu
    split_ifs at hd
    · obtain ⟨j, -, hj⟩ := onCallback_ok hd
      exact (unmaskPriority_lines hj).trans hul
    · exact hd ▸ hul

theorem quiet_chain {w : Chain} {op : Op} {e : Effect} (h : effect w op = .ok e)
    (hu : e.updates = false) : e.chain = w := by
  cases effect_effects h with
  | quiet => rfl
  | store | ack | fin => cases hu

theorem step_of_effect {w : Chain} {op : Op} {e : Effect} (h : effect w op = .ok e)
    (hu : e.updates = true) : step w op = .ok (update op.target e.chain, e.value) := by
  simp [step, h, hu, bind, Except.bind, pure, Except.pure]

theorem step_of_quiet {w : Chain} {op : Op} {e : Effect} (h : effect w op = .ok e)
    (hu : e.updates = false) : step w op = .ok (e.chain, e.value) := by
  simp [step, h, hu, bind, Except.bind, pure, Except.pure]

theorem step_of_error {w : Chain} {op : Op} {stop : Stop} (h : effect w op = .error stop) :
    step w op = .error stop := by
  simp [step, h, bind, Except.bind]

theorem step_ok {w v : Chain} {op : Op} {value : Word} (h : step w op = .ok (v, value)) :
    ∃ e, effect w op = .ok e ∧ value = e.value ∧
      v = if e.updates then update op.target e.chain else e.chain := by
  unfold step at h
  cases he : effect w op with
  | error stop => simp [he, bind, Except.bind] at h
  | ok e =>
    simp only [he, bind, Except.bind, pure, Except.pure, Except.ok.injEq, Prod.mk.injEq] at h
    exact ⟨e, rfl, h.2.symm, h.1.symm⟩

end IDeviceEmulator.Pl192
