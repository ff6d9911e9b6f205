import IDeviceEmulator.Pl192.Invariant

namespace IDeviceEmulator.Pl192

open Machine

def InRange (accesses : List Access) : Prop := ∀ a ∈ accesses, a.InRange

instance : DecidablePred InRange := fun _ ↦ inferInstanceAs (Decidable (∀ a ∈ _, _))

theorem inRange_extend {as bs : List Access} : InRange (as.reverse ++ bs) ↔ InRange as ∧ InRange bs := by
  simp [InRange, or_imp, forall_and]

def accesses : Except Stop (Chain × Word) → List Access
  | .ok (w, _) => w.trace
  | .error stop => stop.chain.trace

def InBounds (w : Chain) (op : Op) : Prop := InRange (accesses (step w op))

instance (w : Chain) (op : Op) : Decidable (InBounds w op) := inferInstanceAs (Decidable (InRange _))

/-- Controller `k` can stack its selection: there is one, its stacks have room, and if it is
the daisy input then the previous controller can stack its in-service interrupt once more. -/
def AckFits (w : Chain) (k : Nat) : Prop :=
  ((w.ctrl k).currentHighest ≠ noIrq ∧ (w.ctrl k).stackI < 16) ∧
    ((w.ctrl k).currentHighest = daisyIrq →
      (w.ctrl (k + 1)).current ≠ noIrq ∧ (w.ctrl (k + 1)).stackI < 16)

def AcknowledgeFits (w : Chain) (op : Op) : Prop := op.Acknowledges → AckFits w op.target

section Update

variable {s : State}

theorem inRange_sorterAccesses (hs : Leveled s) : InRange (sorterAccesses s) := by
  intro a ha
  simp only [sorterAccesses, List.mem_append, List.mem_flatMap] at ha
  rcases ha with ha | ⟨i, -, ha⟩
  · split_ifs at ha
    · cases List.mem_singleton.mp ha
      exact hs.daisy
    · cases ha
  · split_ifs at ha
    · rcases List.mem_cons.mp ha with rfl | ha
      · exact i.isLt
      · cases List.mem_singleton.mp ha
        exact hs.vect i
    · cases ha

/-- With priorities of four bits, the sorter stays in its table and picks the lowest source on the
best level, the daisy input if there is no source on it, or nothing. -/
theorem sorter_picks (hs : Leveled s) : InRange (sorterAccesses s) ∧ Picks s (prioritySorter s) :=
  ⟨inRange_sorterAccesses hs, picks_prioritySorter s⟩

/-- Two sources of one level, a third and the daisy input on levels that are masked. -/
def maskedLevels : State :=
  { init with
    irqStatus := 0x8000_0028
    daisyInput := 1
    daisyPriority := 1
    swPriorityMask := 0xfffc
    vectPriority := ((init.vectPriority.set 3 2).set 5 2).set 31 0 }

theorem sorter_picks_masked :
    InRange (sorterAccesses maskedLevels) ∧ Picks maskedLevels (prioritySorter maskedLevels) :=
  sorter_picks ⟨by decide, by decide⟩

theorem inRange_selectAccesses (hs : Leveled s) : InRange (selectAccesses s) := by
  intro a ha
  rcases List.mem_append.mp ha with ha | ha
  · exact inRange_sorterAccesses hs a ha
  · split_ifs at ha with hlt hne
    · have hlt' : (prioritySorter s).toNat < 32 := hlt
      rcases List.mem_cons.mp ha with rfl | ha
      · exact hlt'
      · cases List.mem_singleton.mp ha
        exact hlt'
    · cases List.mem_singleton.mp ha
      exact hlt
    · cases ha

theorem inRange_settleAccesses (hs : Leveled s) : InRange (settleAccesses s) := by
  unfold settleAccesses
  split_ifs
  · exact inRange_selectAccesses ⟨hs.daisy, hs.vect⟩
  · exact fun a ha ↦ by cases ha

theorem inRange_settleAt {w : Chain} {k : Nat} (hw : w.Sound) :
    InRange (settleAt k w).trace ↔ InRange w.trace := by
  simp only [settleAt, inRange_extend, inRange_settleAccesses (hw k).leveled, true_and]

theorem inRange_update {w : Chain} (hw : w.Sound) (k : Nat) :
    InRange (update k w).trace ↔ InRange w.trace := by
  have h : (update k w).Sound ∧ (InRange (update k w).trace ↔ InRange w.trace) := by
    apply update_preserves (P := fun v ↦ v.Sound ∧ (InRange v.trace ↔ InRange w.trace))
    · exact fun i v hv ↦ ⟨sound_settleAt hv.1 i, (inRange_settleAt hv.1).trans hv.2⟩
    · exact fun _ _ hv ↦ hv
    · exact fun i v hv ↦ ⟨sound_raiseDaisy hv.1 i, hv.2⟩
    · exact fun i v hv ↦ ⟨sound_lowerDaisy hv.1 i, hv.2⟩
    · exact ⟨hw, Iff.rfl⟩
  exact h.2

end Update

section Stack

def traceOf : Except Stop Chain → List Access
  | .ok w => w.trace
  | .error stop => stop.chain.trace

theorem inRange_pushAccesses {s : State} (hc : s.current.toNat ≤ 33) :
    InRange (pushAccesses s) ↔ s.current ≠ noIrq ∧ s.stackI < 16 := by
  have hno : s.current = noIrq ↔ s.current.toNat = 33 := BitVec.toNat_inj.symm
  have hdaisy : s.current = daisyIrq ↔ s.current.toNat = 32 := BitVec.toNat_inj.symm
  unfold pushAccesses InRange
  split_ifs with hd
  · rw [hdaisy] at hd
    simp [Access.InRange, hno]
    omega
  · rw [hdaisy] at hd
    simp [Access.InRange, hno]
    omega

theorem traceOf_maskPriority {w : Chain} {k : Nat} (h : (w.ctrl k).stackI < 17) :
    traceOf (maskPriority w k) = (pushAccesses (w.ctrl k)).reverse ++ w.trace := by
  unfold maskPriority
  rw [if_neg (by omega)]
  split_ifs <;> rfl

theorem inRange_unmaskPriority {w : Chain} {k : Nat} (h : (w.ctrl k).stackI < 17)
    (ht : InRange w.trace) : InRange (traceOf (unmaskPriority w k)) := by
  unfold unmaskPriority
  split_ifs with h₁ h₂
  · exact ht
  · refine inRange_extend.mpr ⟨?_, ht⟩
    intro a ha
    simp only [popAccesses, List.mem_cons, List.not_mem_nil, or_false] at ha
    rcases ha with rfl | rfl <;> exact h₂
  · omega

theorem inRange_irqFin {w : Chain} {k : Nat} (hw : w.Sound) (ht : InRange w.trace) :
    InRange (traceOf (irqFin w k)) := by
  have hu := inRange_unmaskPriority (hw k).depth ht
  simp only [irqFin, bind, Except.bind]
  cases hm : unmaskPriority w k with
  | error stop => simpa [hm] using hu
  | ok u =>
    rw [hm] at hu
    have hus := sound_unmaskPriority hw hm
    dsimp only
    split_ifs with hd
    · unfold onCallback
      split
      · exact inRange_unmaskPriority (hus _).depth hu
      · exact hu
    · exact hu

theorem inRange_irqAck {w : Chain} {k : Nat} (hw : w.Sound) (ht : InRange w.trace) :
    InRange (traceOf (irqAck w k)) ↔ AckFits w k := by
  have hdepth := (hw k).depth
  have hhighest : (takeHighest (w.ctrl k)).current.toNat ≤ 33 := (hw k).highest
  have hself := modify_self w k takeHighest
  have hfirst : InRange (traceOf (maskPriority (w.modify k takeHighest) k)) ↔
      (w.ctrl k).currentHighest ≠ noIrq ∧ (w.ctrl k).stackI < 16 := by
    rw [traceOf_maskPriority (by rwa [hself]), inRange_extend, hself, inRange_pushAccesses hhighest]
    exact and_iff_left ht
  unfold AckFits
  rw [← hfirst]
  rw [irqAck_eq]
  cases hm : maskPriority (w.modify k takeHighest) k with
  | error stop =>
    rw [hm] at hfirst
    refine (and_iff_left_of_imp fun hin ↦ ?_).symm
    have hlt := (hfirst.mp hin).2
    rw [maskPriority_of_lt (by rwa [hself])] at hm
    cases hm
  | ok u =>
    simp only [Except.bind]
    split_ifs with hd
    · obtain ⟨-, rfl⟩ := maskPriority_ok hm
      have hcb : (w.ctrl k).daisyCallback = some (k + 1) := (hw k).callback_of (.inr (.inl hd))
      have hne : k + 1 ≠ k := by omega
      have hcall : ∀ u : Chain, (u.ctrl k).daisyCallback = some (k + 1) →
          onCallback maskPriority u k = maskPriority u (k + 1) := by
        intro u hu
        rw [onCallback, hu]
      rw [hcall]
      · rw [traceOf_maskPriority, inRange_extend, and_comm]
        · refine and_congr Iff.rfl ?_
          simp only [modify_ctrl, touch_ctrl, Function.update_of_ne hne, hd, true_imp_iff]
          exact inRange_pushAccesses (hw (k + 1)).current_le
        · simpa [Function.update_of_ne hne] using (hw (k + 1)).depth
      · rw [modify_self, touch_ctrl, hself]
        exact hcb
    · exact (and_iff_left fun h ↦ absurd h hd).symm

end Stack

theorem inBounds_of_updates {w : Chain} {op : Op} {e : Effect} (hw : w.Sound)
    (h : effect w op = .ok e) (hu : e.updates = true) : InBounds w op ↔ InRange e.chain.trace := by
  unfold InBounds
  rw [step_of_effect h hu]
  exact inRange_update (sound_effect hw h) op.target

theorem inBounds_map {w : Chain} {op : Op} (hw : w.Sound) {r : Except Stop Chain} {value : Word}
    (h : effect w op = r.map fun v ↦ ⟨v, true, value⟩) : InBounds w op ↔ InRange (traceOf r) := by
  cases r with
  | error stop =>
    unfold InBounds
    rw [step_of_error h]
    rfl
  | ok v => exact inBounds_of_updates hw h rfl

theorem inBounds_iff {w : Chain} (hw : w.Sound) (ht : InRange w.trace) (op : Op) :
    InBounds w op ↔ AcknowledgeFits w op := by
  unfold AcknowledgeFits
  cases op_acts op with
  | ack ha hr => rw [inBounds_map hw (hr w), inRange_irqAck hw ht, imp_iff_right ha]
  | fin hf hr =>
    refine iff_of_true ((inBounds_map hw (hr w)).mpr (inRange_irqFin hw ht)) fun h ↦ ?_
    exact absurd h (not_acknowledges_of_finishes hf)
  | quiet hna _ _ hr =>
    refine iff_of_true ?_ fun h ↦ absurd h hna
    unfold InBounds
    rw [step_of_quiet (hr w) rfl]
    exact ht
  | store hna _ hf hr =>
    exact iff_of_true ((inBounds_of_updates hw (hr w) rfl).mpr ht) fun h ↦ absurd h hna
  | refuse hna _ hr =>
    refine iff_of_true ?_ fun h ↦ absurd h hna
    unfold InBounds
    rw [step_of_error (hr w)]
    exact ht

/-- The accesses of a run stay in range exactly when every acknowledge fits. -/
theorem accesses_in_range_iff (ops : List Op) :
    Attempts step InBounds Chain.initial ops ↔ Attempts step AcknowledgeFits Chain.initial ops := by
  refine attempts_iff (I := fun w ↦ w.Sound ∧ InRange w.trace) ?_ ?_ ?_
  · exact ⟨sound_initial, fun a ha ↦ by cases ha⟩
  · exact fun w op _ hw ↦ inBounds_iff hw.1 hw.2 op
  · intro w op v value _ hw hin hs
    refine ⟨sound_step hw.1 hs, ?_⟩
    rwa [InBounds, hs] at hin

/-- A spurious acknowledge, a daisy acknowledge whose child has nothing in service, and a
seventeenth acknowledge each leave an array. -/
theorem accesses_out_of_range :
    ¬ Attempts step InBounds Chain.initial [⟨0, .read 0xF00⟩] ∧
    ¬ Attempts step InBounds Chain.initial
      [⟨1, .write 0x10 1⟩, ⟨1, .irqHandler 0 true⟩, ⟨0, .read 0xF00⟩] ∧
    ¬ Attempts step InBounds Chain.initial
      (⟨0, .write 0x10 1⟩ :: ⟨0, .irqHandler 0 true⟩ :: List.replicate 17 ⟨0, .read 0xF00⟩) := by
  refine ⟨?_, ?_, ?_⟩ <;> decide +kernel

end IDeviceEmulator.Pl192
