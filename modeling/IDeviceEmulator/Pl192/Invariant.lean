import Mathlib.Data.Nat.Basic
import IDeviceEmulator.Library.Machine
import IDeviceEmulator.Pl192.Sorter
import IDeviceEmulator.Pl192.Update

namespace IDeviceEmulator.Pl192

open Machine

/-- The in-service priority and interrupt are the tops of their stacks, and a daisy
interrupt that is offered, selected or stacked has a callback to go with it. -/
structure Sound (k : Nat) (s : State) : Prop where
  leveled : Leveled s
  depth : s.stackI < 17
  priority : s.priority = s.priorityStack[s.stackI]
  current : s.current = (s.irqStack[s.stackI]).setWidth 32
  stacked : ∀ i : Fin 17, (s.irqStack[i]).toNat ≤ 33
  highest : s.currentHighest.toNat ≤ 33
  callback : ∀ j, s.daisyCallback = some j → j = k + 1
  linked : s.daisyInput ≠ 0 ∨ s.currentHighest = daisyIrq ∨ (∃ i : Fin 17, s.irqStack[i] = 32) →
    s.daisyCallback.isSome

section Local

variable {k : Nat} {s t : State}

theorem Sound.current_le (h : Sound k s) : s.current.toNat ≤ 33 := by
  have hi := h.stacked ⟨s.stackI, h.depth⟩
  rw [h.current, BitVec.toNat_setWidth]
  exact Nat.le_trans (Nat.mod_le _ _) hi

theorem Sound.callback_of (h : Sound k s)
    (hd : s.daisyInput ≠ 0 ∨ s.currentHighest = daisyIrq ∨ (∃ i : Fin 17, s.irqStack[i] = 32)) :
    s.daisyCallback = some (k + 1) := by
  obtain ⟨j, hj⟩ := Option.isSome_iff_exists.mp (h.linked hd)
  rw [hj, h.callback j hj]

theorem setWidth_eq_daisy {x : BitVec 8} (h : x.setWidth 32 = daisyIrq) : x = 32 := by
  apply BitVec.eq_of_toNat_eq
  have hx := congrArg BitVec.toNat h
  rw [BitVec.toNat_setWidth, Nat.mod_eq_of_lt (Nat.lt_trans x.isLt (by decide))] at hx
  exact hx

theorem setWidth_roundtrip {x : Word} (h : x.toNat ≤ 33) : (x.setWidth 8).setWidth 32 = x := by
  apply BitVec.eq_of_toNat_eq
  rw [BitVec.toNat_setWidth, BitVec.toNat_setWidth]
  omega

theorem Sound.callback_of_current (h : Sound k s) (hc : s.current = daisyIrq) :
    s.daisyCallback = some (k + 1) := by
  refine h.callback_of (.inr (.inr ⟨⟨s.stackI, h.depth⟩, ?_⟩))
  exact setWidth_eq_daisy (h.current ▸ hc)

theorem Sound.of_held (hs : Sound k s) (h : held t = held s) (hhighest : t.currentHighest.toNat ≤ 33)
    (hcallback : ∀ j, t.daisyCallback = some j → j = k + 1)
    (hlinked : t.daisyInput ≠ 0 ∨ t.currentHighest = daisyIrq ∨ s.daisyCallback.isSome →
      t.daisyCallback.isSome) : Sound k t := by
  obtain ⟨hl, hd, hp, hc, hst, -, -, hlink⟩ := hs
  obtain ⟨⟩ := s
  obtain ⟨⟩ := t
  simp only [held, State.mk.injEq] at h
  obtain ⟨-, -, rfl, rfl, rfl, rfl, rfl, rfl, rfl, rfl, -, rfl, -, rfl, rfl, rfl, rfl, -, rfl, -, -⟩ := h
  refine ⟨⟨hl.daisy, hl.vect⟩, hd, hp, hc, hst, hhighest, hcallback, ?_⟩
  rintro (hi | hi | hi)
  · exact hlinked (.inl hi)
  · exact hlinked (.inr (.inl hi))
  · exact hlinked (.inr (.inr (hlink (.inr (.inr hi)))))

theorem settle_highest (s : State) :
    (settle s).currentHighest = prioritySorter (refreshStatus s) := by
  unfold settle
  split_ifs with hp
  · rfl
  · exact (prioritySorter_of_not_pending hp).symm

theorem sound_settle (hs : Sound k s) : Sound k (settle s) := by
  refine hs.of_held (held_settle s) ?_ ?_ ?_
  · rw [settle_highest]
    exact prioritySorter_le _
  · rw [settle_callback]
    exact hs.callback
  · rw [settle_callback, settle_input, settle_highest]
    rintro (h | h | h)
    · exact hs.linked (.inl h)
    · have hi := daisyInput_of_sorter h
      exact hs.linked (.inl hi)
    · exact h

theorem sound_store {f : State → State} (hf : IsStore f) (hs : Sound k s) : Sound k (f s) := by
  have hl := hf.leveled s hs.leveled
  have hi := hf.internal_eq s
  generalize f s = t at hl hi
  obtain ⟨-, hd, hp, hc, hst, hh, hcb, hlink⟩ := hs
  obtain ⟨⟩ := s
  obtain ⟨⟩ := t
  simp only [internal, State.mk.injEq] at hi
  obtain ⟨rfl, rfl, -, -, -, -, -, -, -, -, rfl, rfl, rfl, rfl, rfl, rfl, rfl, rfl, -, rfl, rfl⟩ := hi
  exact ⟨hl, hd, hp, hc, hst, hh, hcb, hlink⟩

theorem setWidth_eight_eq_daisy {x : Word} (hx : x.toNat ≤ 33) (h : x.setWidth 8 = 32) : x = daisyIrq := by
  rw [← setWidth_roundtrip hx, h]
  rfl

theorem sound_push (hs : Sound k s) (hd : s.stackI < 16) {c : Word} (hc : c.toNat ≤ 33)
    (hlink : c = daisyIrq → s.daisyCallback.isSome) : Sound k (push { s with current := c }) := by
  have hdepth : s.stackI + 1 < 17 := by omega
  refine ⟨⟨hs.leveled.daisy, hs.leveled.vect⟩, hdepth, ?_, ?_, fun i ↦ ?_, hs.highest, hs.callback, ?_⟩
  · simp [push]
  · simp only [push, Vector.getElem_setIfInBounds_self]
    exact (setWidth_roundtrip hc).symm
  · have hi := hs.stacked i
    simp only [push, Fin.getElem_fin, Vector.getElem_setIfInBounds i.isLt]
    split_ifs
    · rw [BitVec.toNat_setWidth]
      exact Nat.le_trans (Nat.mod_le _ _) hc
    · exact hi
  · rintro (h | h | ⟨i, h⟩)
    · exact hs.linked (.inl h)
    · exact hs.linked (.inr (.inl h))
    · simp only [push, Fin.getElem_fin, Vector.getElem_setIfInBounds i.isLt] at h
      split_ifs at h
      · exact hlink (setWidth_eight_eq_daisy hc h)
      · exact hs.linked (.inr (.inr ⟨i, h⟩))

theorem sound_acknowledge (hs : Sound k s) (hd : s.stackI < 16) : Sound k (push (takeHighest s)) :=
  sound_push hs hd hs.highest fun h ↦ hs.linked (.inr (.inl h))

theorem sound_pushCurrent (hs : Sound k s) (hd : s.stackI < 16) : Sound k (push s) := by
  refine sound_push hs hd hs.current_le fun h ↦ ?_
  rw [hs.callback_of_current h]
  rfl

theorem sound_pop (hs : Sound k s) : Sound k (pop s) := by
  have hd := hs.depth
  have hdepth : s.stackI - 1 < 17 := by omega
  refine ⟨⟨hs.leveled.daisy, hs.leveled.vect⟩, hdepth, ?_, ?_, hs.stacked, hs.highest, hs.callback,
    hs.linked⟩
  · simp [pop, hdepth]
  · simp [pop, hdepth]

end Local

def Chain.Sound (w : Chain) : Prop := ∀ k, Pl192.Sound k (w.ctrl k)

theorem sound_modify {w : Chain} (hw : w.Sound) {k : Nat} {f : State → State}
    (hf : Sound k (f (w.ctrl k))) : (w.modify k f).Sound := by
  intro j
  by_cases hj : j = k
  · subst j
    rwa [modify_self]
  · rw [modify_of_ne w hj]
    exact hw j

theorem sound_settleAt {w : Chain} (hw : w.Sound) (k : Nat) : (settleAt k w).Sound :=
  sound_modify hw (sound_settle (hw k))

theorem sound_raiseDaisy {w : Chain} (hw : w.Sound) (k : Nat) : (raiseDaisy k w).Sound := by
  apply sound_modify hw
  refine (hw k).of_held rfl (hw k).highest ?_ fun _ ↦ rfl
  rintro j ⟨⟩
  rfl

theorem sound_lowerDaisy {w : Chain} (hw : w.Sound) (k : Nat) : (lowerDaisy k w).Sound := by
  apply sound_modify hw
  refine (hw k).of_held rfl (hw k).highest (hw k).callback ?_
  rintro (h | h | h)
  · exact absurd rfl h
  · exact (hw k).linked (.inr (.inl h))
  · exact h

theorem sound_update {w : Chain} (hw : w.Sound) (k : Nat) : (update k w).Sound := by
  apply update_preserves
  · exact fun i v hv ↦ sound_settleAt hv i
  · exact fun _ _ hv ↦ hv
  · exact fun i v hv ↦ sound_raiseDaisy hv i
  · exact fun i v hv ↦ sound_lowerDaisy hv i
  · exact hw

theorem sound_maskPriority {w v : Chain} {k : Nat} (hw : w.Sound) (h : maskPriority w k = .ok v) :
    v.Sound := by
  obtain ⟨hd, rfl⟩ := maskPriority_ok h
  exact sound_modify hw (sound_pushCurrent (hw k) hd)

theorem sound_unmaskPriority {w v : Chain} {k : Nat} (hw : w.Sound)
    (h : unmaskPriority w k = .ok v) : v.Sound := by
  obtain ⟨-, rfl⟩ := unmaskPriority_ok h
  exact sound_modify hw (sound_pop (hw k))

theorem sound_irqAck {w v : Chain} {k : Nat} (hw : w.Sound) (h : irqAck w k = .ok v) : v.Sound := by
  obtain ⟨u, hu, hd⟩ := irqAck_ok h
  have hus : u.Sound := by
    obtain ⟨hdepth, rfl⟩ := maskPriority_ok hu
    have hdepth' : (w.ctrl k).stackI < 16 := by simpa [takeHighest] using hdepth
    intro j
    by_cases hj : j = k
    · subst j
      simpa using sound_acknowledge (hw k) hdepth'
    · simpa [Function.update_of_ne hj] using hw j
  split_ifs at hd
  · obtain ⟨j, -, hj⟩ := onCallback_ok hd
    exact sound_maskPriority hus hj
  · exact hd ▸ hus

theorem sound_irqFin {w v : Chain} {k : Nat} (hw : w.Sound) (h : irqFin w k = .ok v) : v.Sound := by
  obtain ⟨u, hu, hd⟩ := irqFin_ok h
  have hus : u.Sound := sound_unmaskPriority hw hu
  split_ifs at hd
  · obtain ⟨j, -, hj⟩ := onCallback_ok hd
    exact sound_unmaskPriority hus hj
  · exact hd ▸ hus

theorem sound_effect {w : Chain} {op : Op} {e : Effect} (hw : w.Sound) (h : effect w op = .ok e) :
    e.chain.Sound := by
  cases effect_effects h with
  | quiet => exact hw
  | store hf => exact sound_modify hw (sound_store hf (hw _))
  | ack ha => exact sound_irqAck hw ha
  | fin ha => exact sound_irqFin hw ha

theorem sound_step {w v : Chain} {op : Op} {value : Word} (hw : w.Sound)
    (h : step w op = .ok (v, value)) : v.Sound := by
  obtain ⟨e, he, -, rfl⟩ := step_ok h
  have hs := sound_effect hw he
  split_ifs
  · exact sound_update hs op.target
  · exact hs

theorem sound_initial : Chain.initial.Sound := by
  have h : ∀ i : Fin 17, (init.irqStack[i]).toNat ≤ 33 ∧ init.irqStack[i] ≠ 32 := by decide
  intro k
  have hinit : Pl192.Sound k init := by
    refine ⟨⟨by decide, by decide⟩, by decide, by decide, by decide, fun i ↦ (h i).1, by decide, ?_, ?_⟩
    · rintro j ⟨⟩
    · rintro (hi | hi | ⟨i, hi⟩)
      · exact absurd rfl hi
      · exact absurd hi (by decide)
      · exact absurd hi (h i).2
  exact hinit

theorem sound_run {w v : Chain} {ops : List Op} (hw : w.Sound) (h : Run step w ops v) : v.Sound :=
  h.invariant hw fun _ _ _ _ _ hs h ↦ sound_step hs h

def Reachable (w : Chain) : Prop := ∃ ops, Run step Chain.initial ops w

theorem sound_of_reachable {w : Chain} (h : Reachable w) : w.Sound := by
  obtain ⟨ops, hr⟩ := h
  exact sound_run sound_initial hr

end IDeviceEmulator.Pl192
