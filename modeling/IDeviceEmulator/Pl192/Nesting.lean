import IDeviceEmulator.Pl192.Invariant

namespace IDeviceEmulator.Pl192

open Machine

def Coherent (w : Chain) : Prop :=
  ∀ k < 2, (w.ctrl k).priorityStack[(w.ctrl k).stackI]? = some (w.ctrl k).priority ∧
    ((w.ctrl k).irqStack[(w.ctrl k).stackI]?).map (BitVec.setWidth 32) = some (w.ctrl k).current

def SameService (w v : Chain) : Prop :=
  ∀ k < 2, (v.ctrl k).stackI = (w.ctrl k).stackI ∧ (v.ctrl k).priority = (w.ctrl k).priority ∧
    (v.ctrl k).current = (w.ctrl k).current

def acknowledge : Op := ⟨0, .read 0xF00⟩

def finish (value : Word) : Op := ⟨0, .write 0xF00 value⟩

/-- Source-line changes and register writes on a chain of two controllers. -/
def Op.Ordinary (op : Op) : Prop :=
  op.target < 2 ∧
    match op.request with
    | .irqHandler _ _ => True
    | .write offset _ => Register.ofOffset offset ≠ .vectAddress
    | .read _ => False

/-- Acknowledges matched by end-of-interrupt writes, at most `d` deep. -/
inductive Nested : Nat → List Op → Prop
  | nil (d : Nat) : Nested d []
  | ordinary {d : Nat} {op : Op} {ops : List Op} : op.Ordinary → Nested d ops → Nested d (op :: ops)
  | pair {d : Nat} {body rest : List Op} (value : Word) :
      Nested d body → Nested (d + 1) rest →
        Nested (d + 1) (acknowledge :: (body ++ finish value :: rest))

def Selected (w : Chain) (op : Op) : Prop :=
  op = acknowledge → (w.ctrl 0).currentHighest ≠ noIrq

structure WellNested (w : Chain) (ops : List Op) : Prop where
  nested : Nested 16 ops
  selected : Attempts step Selected w ops

def Refused (w : Chain) (op : Op) : Prop := op.Ordinary ∧ step w op = .error ⟨.hwError, w⟩

/-- The run keeps the stacks coherent and, unless the emulator aborts on a register write,
ends with the same interrupts in service. -/
def Nests (w : Chain) (ops : List Op) : Prop :=
  Throughout step Coherent w ops ∧
    ((∃ v, Run step w ops v ∧ SameService w v) ∨ Meets step Refused w ops)

/-- Each stack that the acknowledge pushes on has an entry left. -/
def Room (w : Chain) (op : Op) : Prop :=
  op = acknowledge →
    (w.ctrl 0).stackI < 16 ∧ ((w.ctrl 0).currentHighest = daisyIrq → (w.ctrl 1).stackI < 16)

section Stacks

def Agree (n : Nat) (s t : State) : Prop :=
  ∀ i : Fin 17, i.val ≤ n → t.priorityStack.get i = s.priorityStack.get i ∧ t.irqStack.get i = s.irqStack.get i

def SameStack (s t : State) : Prop := t.stackI = s.stackI ∧ Agree s.stackI s t

def Pushed (s t : State) : Prop := t.stackI = s.stackI + 1 ∧ Agree s.stackI s t

variable {k : Nat} {s t u : State}

theorem Agree.trans {n m : Nat} (hst : Agree n s t) (htu : Agree m t u) (hnm : n ≤ m) : Agree n s u := by
  intro i hi
  obtain ⟨hp, hq⟩ := hst i hi
  obtain ⟨hp', hq'⟩ := htu i (by omega)
  exact ⟨hp'.trans hp, hq'.trans hq⟩

theorem SameStack.refl (s : State) : SameStack s s := ⟨rfl, fun _ _ ↦ ⟨rfl, rfl⟩⟩

theorem SameStack.trans (h : SameStack s t) (h' : SameStack t u) : SameStack s u :=
  ⟨h'.1.trans h.1, h.2.trans h'.2 (Nat.le_of_eq h.1.symm)⟩

theorem Pushed.then_same (h : Pushed s t) (h' : SameStack t u) : Pushed s u :=
  ⟨h'.1.trans h.1, h.2.trans h'.2 (by rw [h.1]; omega)⟩

theorem sameStack_of_eq (hi : t.stackI = s.stackI) (hp : t.priorityStack = s.priorityStack)
    (hq : t.irqStack = s.irqStack) : SameStack s t := by
  refine ⟨hi, fun i _ ↦ ⟨?_, ?_⟩⟩
  · rw [hp]
  · rw [hq]

theorem sameStack_of_held (h : held t = held s) : SameStack s t := by
  have hi := congrArg State.stackI h
  have hp := congrArg State.priorityStack h
  have hq := congrArg State.irqStack h
  exact sameStack_of_eq hi hp hq

theorem sameStack_store {f : State → State} (hf : IsStore f) (s : State) : SameStack s (f s) := by
  have h := hf.internal_eq s
  have hi := congrArg State.stackI h
  have hp := congrArg State.priorityStack h
  have hq := congrArg State.irqStack h
  exact sameStack_of_eq hi hp hq

theorem get_setIfInBounds_ne {α : Type} {n j : Nat} {i : Fin n} (v : Vector α n) (x : α)
    (h : j ≠ i.val) : (v.setIfInBounds j x).get i = v.get i := by
  change (v.setIfInBounds j x)[i.val] = v[i.val]
  rw [Vector.getElem_setIfInBounds i.isLt, if_neg h]

theorem pushed_push (s : State) (c : Word) : Pushed s (push { s with current := c }) := by
  refine ⟨rfl, fun i hi ↦ ?_⟩
  have hne : s.stackI + 1 ≠ i.val := by omega
  exact ⟨get_setIfInBounds_ne _ _ hne, get_setIfInBounds_ne _ _ hne⟩

theorem Pushed.pop (h : Pushed s t) : SameStack s (pop t) := by
  refine ⟨?_, h.2⟩
  have hi : t.stackI - 1 = s.stackI := by rw [h.1]; omega
  exact hi

theorem SameStack.service (h : SameStack s t) (hs : Sound k s) (ht : Sound k t) :
    t.stackI = s.stackI ∧ t.priority = s.priority ∧ t.current = s.current := by
  obtain ⟨hp, hq⟩ := h.2 ⟨s.stackI, hs.depth⟩ (Nat.le_refl _)
  refine ⟨h.1, ?_, ?_⟩
  · rw [ht.priority, hs.priority]
    simp only [h.1]
    exact hp
  · rw [ht.current, hs.current]
    simp only [h.1]
    exact congrArg (BitVec.setWidth 32) hq

end Stacks

section Steps

variable {w v : Chain} {k : Nat}

theorem coherent_of_sound (hw : w.Sound) : Coherent w := by
  intro k _
  have hd := (hw k).depth
  rw [Vector.getElem?_eq_getElem hd, Vector.getElem?_eq_getElem hd, Option.map_some]
  exact ⟨congrArg some (hw k).priority.symm, congrArg some (hw k).current.symm⟩

theorem irqAck_of_room (hw : w.Sound) (hk : (w.ctrl k).stackI < 16)
    (hd : (w.ctrl k).currentHighest = daisyIrq → (w.ctrl (k + 1)).stackI < 16) :
    ∃ v, irqAck w k = .ok v ∧ v.ctrl k = push (takeHighest (w.ctrl k)) ∧
      v.ctrl (k + 1) = if (w.ctrl k).currentHighest = daisyIrq then push (w.ctrl (k + 1)) else w.ctrl (k + 1) := by
  have hne : k + 1 ≠ k := by omega
  have hself := modify_self w k takeHighest
  have hmask := maskPriority_of_lt (w := w.modify k takeHighest) (k := k) (by rwa [hself])
  rw [irqAck_eq, hmask, Except.bind]
  generalize hu : ((w.modify k takeHighest).touch _).modify k push = u
  have huk : u.ctrl k = push (takeHighest (w.ctrl k)) := by
    rw [← hu, modify_self, touch_ctrl, hself]
  have huc : u.ctrl (k + 1) = w.ctrl (k + 1) := by
    rw [← hu, modify_of_ne _ hne, touch_ctrl, modify_of_ne _ hne]
  split_ifs with h
  · have hcb : (u.ctrl k).daisyCallback = some (k + 1) := by
      rw [huk]
      exact (hw k).callback_of (.inr (.inl h))
    rw [onCallback, hcb]
    refine ⟨_, maskPriority_of_lt (huc ▸ hd h), ?_, ?_⟩
    · rw [modify_of_ne _ hne.symm, touch_ctrl, huk]
    · rw [modify_self, touch_ctrl, huc]
  · exact ⟨u, rfl, huk, huc⟩

theorem irqFin_of_stacked (hw : w.Sound) (hk : 0 < (w.ctrl k).stackI)
    (hd : (w.ctrl k).current = daisyIrq → 0 < (w.ctrl (k + 1)).stackI) :
    ∃ v, irqFin w k = .ok v ∧ v.ctrl k = pop (w.ctrl k) ∧
      v.ctrl (k + 1) = if (w.ctrl k).current = daisyIrq then pop (w.ctrl (k + 1)) else w.ctrl (k + 1) := by
  have hne : k + 1 ≠ k := by omega
  rw [irqFin_eq, unmaskPriority_of_pos hk (hw k).depth, Except.bind]
  generalize hu : (w.touch _).modify k pop = u
  have huk : u.ctrl k = pop (w.ctrl k) := by
    rw [← hu, modify_self, touch_ctrl]
  have huc : u.ctrl (k + 1) = w.ctrl (k + 1) := by
    rw [← hu, modify_of_ne _ hne, touch_ctrl]
  split_ifs with h
  · have hcb : (u.ctrl k).daisyCallback = some (k + 1) := by
      rw [huk]
      exact (hw k).callback_of_current h
    rw [onCallback, hcb]
    refine ⟨_, unmaskPriority_of_pos (huc ▸ hd h) (huc ▸ (hw (k + 1)).depth), ?_, ?_⟩
    · rw [modify_of_ne _ hne.symm, touch_ctrl, huk]
    · rw [modify_self, touch_ctrl, huc]
  · exact ⟨u, rfl, huk, huc⟩

structure Acked (highest : Word) (w v : Chain) : Prop where
  head : Pushed (w.ctrl 0) (v.ctrl 0)
  current : (v.ctrl 0).current = highest
  child : if highest = daisyIrq then Pushed (w.ctrl 1) (v.ctrl 1) else SameStack (w.ctrl 1) (v.ctrl 1)

def SameStacks (w v : Chain) : Prop := ∀ k < 2, SameStack (w.ctrl k) (v.ctrl k)

theorem SameStacks.trans {u : Chain} (h : SameStacks w v) (h' : SameStacks v u) : SameStacks w u :=
  fun k hk ↦ (h k hk).trans (h' k hk)

theorem sameStacks_update (k : Nat) (w : Chain) : SameStacks w (update k w) :=
  fun j _ ↦ sameStack_of_held (held_update k w j)

theorem Acked.then_same {highest : Word} {u : Chain} (h : Acked highest w v) (h' : SameStacks v u)
    (hv : v.Sound) (hu : u.Sound) : Acked highest w u := by
  refine ⟨h.head.then_same (h' 0 (by decide)), ?_, ?_⟩
  · rw [((h' 0 (by decide)).service (hv 0) (hu 0)).2.2, h.current]
  · have hc := h.child
    have hs := h' 1 (by decide)
    split_ifs at hc ⊢
    · exact hc.then_same hs
    · exact hc.trans hs

theorem acknowledge_effect (w : Chain) :
    effect w acknowledge = (irqAck w 0).map fun v ↦ ⟨v, true, (w.ctrl 0).address⟩ := by
  have hack : acknowledge.Acknowledges := by decide
  cases op_acts acknowledge with
  | ack _ hr => exact hr w
  | fin hf => exact False.elim hf
  | quiet ha | store ha | refuse ha => exact absurd hack ha

theorem finish_effect (w : Chain) (value : Word) :
    effect w (finish value) = (irqFin w 0).map fun v ↦ ⟨v, true, 0⟩ := by
  have hr : Register.ofOffset 0xF00 = .vectAddress := by decide
  have hfin : (finish value).Finishes := hr
  cases op_acts (finish value) with
  | fin _ hr => exact hr w
  | ack ha => exact False.elim ha
  | quiet _ hf | store _ hf | refuse _ hf => exact absurd hfin hf

theorem Op.Ordinary.not_acknowledges {op : Op} (h : op.Ordinary) : ¬ op.Acknowledges := by
  obtain ⟨k, request⟩ := op
  cases request with
  | read offset => exact False.elim h.2
  | write offset value => exact id
  | irqHandler irq level => exact id

theorem Op.Ordinary.not_finishes {op : Op} (h : op.Ordinary) : ¬ op.Finishes := by
  obtain ⟨k, request⟩ := op
  cases request with
  | read offset => exact id
  | write offset value => exact h.2
  | irqHandler irq level => exact id

theorem acknowledge_step (hw : w.Sound) (hroom : Room w acknowledge) :
    ∃ v value, step w acknowledge = .ok (v, value) ∧ Acked (w.ctrl 0).currentHighest w v := by
  obtain ⟨hk, hd⟩ := hroom rfl
  obtain ⟨u, hu, hhead, hchild⟩ := irqAck_of_room hw hk hd
  have he : effect w acknowledge = .ok ⟨u, true, (w.ctrl 0).address⟩ := by
    rw [acknowledge_effect, hu]
    rfl
  have hs := sameStacks_update 0 u
  refine ⟨_, _, step_of_effect he rfl, ?_, ?_, ?_⟩
  · refine Pushed.then_same ?_ (hs 0 (by decide))
    rw [hhead]
    exact pushed_push (w.ctrl 0) _
  · have hcurrent := congrArg State.current (held_update 0 u 0)
    refine Eq.trans hcurrent ?_
    rw [held, hhead]
    rfl
  · split_ifs with hdaisy
    · rw [if_pos hdaisy] at hchild
      refine Pushed.then_same ?_ (hs 1 (by decide))
      rw [hchild]
      exact pushed_push (w.ctrl 1) (w.ctrl 1).current
    · rw [if_neg hdaisy] at hchild
      have h := hs 1 (by decide)
      rwa [hchild] at h

theorem finish_step {highest : Word} (hv : v.Sound) (h : Acked highest w v) (value : Word) :
    ∃ x, step v (finish value) = .ok (x, 0) ∧ SameStacks w x := by
  have hk : 0 < (v.ctrl 0).stackI := by rw [h.head.1]; omega
  have hchild := h.child
  have hd : (v.ctrl 0).current = daisyIrq → 0 < (v.ctrl 1).stackI := by
    intro hc
    rw [if_pos (h.current ▸ hc)] at hchild
    rw [hchild.1]
    omega
  obtain ⟨u, hu, hu0, hu1⟩ := irqFin_of_stacked hv hk hd
  have he : effect v (finish value) = .ok ⟨u, true, 0⟩ := by
    rw [finish_effect, hu]
    rfl
  refine ⟨_, step_of_effect he rfl, fun j hj ↦ SameStack.trans ?_ (sameStacks_update 0 u j hj)⟩
  match j, hj with
  | 0, _ =>
    rw [hu0]
    exact h.head.pop
  | 1, _ =>
    rw [hu1, h.current]
    split_ifs at hchild ⊢
    · exact hchild.pop
    · exact hchild

theorem ordinary_step {op : Op} (hop : op.Ordinary) (w : Chain) :
    (∃ v value, step w op = .ok (v, value) ∧ SameStacks w v) ∨ Refused w op := by
  cases op_acts op with
  | ack ha => exact absurd ha hop.not_acknowledges
  | fin hf => exact absurd hf hop.not_finishes
  | quiet _ _ _ hr =>
    exact .inl ⟨w, _, step_of_quiet (hr w) rfl, fun k _ ↦ .refl _⟩
  | store _ _ hf hr =>
    refine .inl ⟨_, _, step_of_effect (hr w) rfl, SameStacks.trans (fun k _ ↦ ?_) (sameStacks_update op.target _)⟩
    by_cases hk : k = op.target
    · subst k
      rw [modify_self]
      exact sameStack_store hf _
    · rw [modify_of_ne w hk]
      exact .refl _
  | refuse _ _ hr =>
    exact .inr ⟨hop, step_of_error (hr w)⟩

end Steps

/-- With room for every acknowledge, a nested sequence comes back to the stacks it found or
meets a refused register write. -/
theorem nested_settles {d : Nat} {ops : List Op} (h : Nested d ops) {w : Chain} (hw : w.Sound)
    (hroom : Attempts step Room w ops) :
    (∃ v, Run step w ops v ∧ v.Sound ∧ SameStacks w v) ∨ Meets step Refused w ops := by
  induction h generalizing w with
  | nil => exact .inl ⟨w, .nil w, hw, fun k _ ↦ .refl _⟩
  | @ordinary d op ops hop _ ih =>
    rcases ordinary_step hop w with ⟨t, value, ht, hwt⟩ | hrefused
    · rcases ih (sound_step hw ht) (hroom.tail ht) with ⟨v, hv, hvs, htv⟩ | hmeets
      · exact .inl ⟨v, .cons ht hv, hvs, hwt.trans htv⟩
      · exact .inr (.cons ht hmeets)
    · exact .inr (.head hrefused)
  | @pair d body rest value _ _ ihbody ihrest =>
    obtain ⟨t, address, ht, hacked⟩ := acknowledge_step hw hroom.head
    have hts := sound_step hw ht
    have hbody := hroom.tail ht
    -- The body restores the stacks as the acknowledge left them, so the finish pops its entries.
    rcases ihbody hts hbody.take with ⟨u, hu, hus, htu⟩ | hmeets
    · have hacked' := hacked.then_same htu hts hus
      obtain ⟨x, hx, hwx⟩ := finish_step hus hacked' value
      have hrest := (hbody.drop hu).tail hx
      rcases ihrest (sound_step hus hx) hrest with ⟨v, hv, hvs, hxv⟩ | hmeets
      · refine .inl ⟨v, .cons ht ?_, hvs, hwx.trans hxv⟩
        exact hu.trans (.cons hx hv)
      · exact .inr (.cons ht (.after hu (.cons hx hmeets)))
    · exact .inr (.cons ht (hmeets.extend _))

theorem not_step_of_refused {w v : Chain} {op : Op} {value : Word} (h : Refused w op) :
    step w op ≠ .ok (v, value) := by
  rw [h.2]
  exact fun he ↦ by cases he

theorem room_of_irqAck {w v : Chain} (hw : w.Sound) (h : irqAck w 0 = .ok v) :
    (w.ctrl 0).stackI < 16 ∧ ((w.ctrl 0).currentHighest = daisyIrq → (w.ctrl 1).stackI < 16) := by
  obtain ⟨u, hu, hd⟩ := irqAck_ok h
  obtain ⟨hdepth, rfl⟩ := maskPriority_ok hu
  refine ⟨by simpa [takeHighest] using hdepth, fun hdaisy ↦ ?_⟩
  rw [if_pos hdaisy] at hd
  obtain ⟨j, hj, hmask⟩ := onCallback_ok hd
  have hcb := (hw 0).callback j (by simpa [push, takeHighest] using hj)
  subst hcb
  obtain ⟨hchild, -⟩ := maskPriority_ok hmask
  simpa using hchild

theorem room_of_step {w v : Chain} {op : Op} {value : Word} (hw : w.Sound)
    (h : step w op = .ok (v, value)) : Room w op := by
  rintro rfl
  obtain ⟨e, he, -, -⟩ := step_ok h
  obtain ⟨v, ha, -⟩ := ok_of_map (acknowledge_effect w ▸ he)
  exact room_of_irqAck hw ha

theorem attempts_room_of_nests {w : Chain} {ops : List Op} (hw : w.Sound) (h : Nests w ops) :
    Attempts step Room w ops := by
  intro pre op t hp hr
  have hts := sound_run hw hr
  by_contra hroom
  have hstuck (v : Chain) (value : Word) : step t op ≠ .ok (v, value) :=
    fun hs ↦ hroom (room_of_step hts hs)
  rcases h.2 with ⟨v, hv, -⟩ | ⟨pre', op', t', hp', hr', hrefused⟩
  · have hle := (hv.prefix_of_stuck (List.prefix_refl ops) hp hr hstuck).length_le
    have hlt := hp.length_le
    rw [List.length_append, List.length_singleton] at hlt
    omega
  · have hpre : pre <+: ops := (List.prefix_append pre [op]).trans hp
    have hpre' : pre' <+: ops := (List.prefix_append pre' [op']).trans hp'
    have h₁ := hr.prefix_of_stuck hpre hp' hr' fun v value ↦ not_step_of_refused hrefused
    have h₂ := hr'.prefix_of_stuck hpre' hp hr hstuck
    have heq : pre = pre' := h₁.eq_of_length (Nat.le_antisymm h₁.length_le h₂.length_le)
    subst heq
    have hop : op = op' := by
      have hlast := List.prefix_of_prefix_length_le hp hp' (by simp)
      simpa using hlast
    subst hop
    refine hroom fun hack ↦ ?_
    subst hack
    exact False.elim hrefused.1.2

def ReachableIn (n : Nat) (w : Chain) : Prop :=
  ∃ ops, (∀ op ∈ ops, op.target < n) ∧ Run step Chain.initial ops w

theorem ReachableIn.reachable {n : Nat} {w : Chain} (h : ReachableIn n w) : Reachable w := by
  obtain ⟨ops, -, hr⟩ := h
  exact ⟨ops, hr⟩

/-- A well-nested sequence nests exactly when every acknowledge in it has room. -/
theorem nests_iff_room {w : Chain} {ops : List Op} (hw : ReachableIn 2 w) (h : WellNested w ops) :
    Nests w ops ↔ Attempts step Room w ops := by
  have hs : w.Sound := sound_of_reachable hw.reachable
  refine ⟨attempts_room_of_nests hs, fun hroom ↦ ⟨fun pre t _ hr ↦ ?_, ?_⟩⟩
  · exact coherent_of_sound (sound_run hs hr)
  · rcases nested_settles h.nested hs hroom with ⟨v, hv, hvs, hsame⟩ | hmeets
    · exact .inl ⟨v, hv, fun k hk ↦ (hsame k hk).service (hs k) (hvs k)⟩
    · exact .inr hmeets

instance (w : Chain) (op : Op) : Decidable (Selected w op) := inferInstanceAs (Decidable (_ → _))

instance (w : Chain) (op : Op) : Decidable (Room w op) := inferInstanceAs (Decidable (_ → _))

theorem nests_one_interrupt :
    let ops : List Op := [⟨0, .write 0x10 1⟩, ⟨0, .irqHandler 0 true⟩, acknowledge, finish 0]
    WellNested Chain.initial ops ∧ (Nests Chain.initial ops ↔ Attempts step Room Chain.initial ops) := by
  intro ops
  have hnested : Nested 16 ops := by
    refine .ordinary ⟨by decide, ?_⟩ (.ordinary ⟨by decide, trivial⟩ (.pair 0 (.nil 15) (.nil 16)))
    decide
  have h : WellNested Chain.initial ops := ⟨hnested, by decide +kernel⟩
  exact ⟨h, nests_iff_room ⟨[], by simp, .nil _⟩ h⟩

/-- Acknowledges read from the second controller itself leave its stack full. The first
acknowledge on the head then runs past its end. -/
theorem nests_overfull_child :
    ∃ w, ReachableIn 2 w ∧ WellNested w [acknowledge, finish 0] ∧ ¬ Nests w [acknowledge, finish 0] := by
  obtain ⟨w, hr, hselected, hroom⟩ : ∃ w, Run step Chain.initial (⟨1, .write 0x10 1⟩ ::
      ⟨1, .irqHandler 0 true⟩ :: List.replicate 16 ⟨1, .read 0xF00⟩) w ∧
      Attempts step Selected w [acknowledge, finish 0] ∧ ¬ Room w acknowledge :=
    exists_run_of_exec (by decide +kernel)
  have hreach : ReachableIn 2 w := ⟨_, by simp, hr⟩
  refine ⟨w, hreach, ⟨.pair 0 (.nil 15) (.nil 16), hselected⟩, fun hn ↦ hroom ?_⟩
  exact (attempts_room_of_nests (sound_of_reachable hreach.reachable) hn).head

end IDeviceEmulator.Pl192
