import IDeviceEmulator.Library.Bytes
import IDeviceEmulator.Pl192.Invariant

namespace IDeviceEmulator.Pl192

open Bytes Machine

section Stream

def putBe32 (x : Word) : List Byte := putBe 4 x.toNat

def getBe32 : Reader Word := BitVec.ofNat 32 <$> getBe 4

def save (s : State) : List Byte :=
  List.flatten [
    putBe32 s.irqStatus, putBe32 s.fiqStatus, putBe32 s.rawintr, putBe32 s.intselect,
    putBe32 s.intenable, putBe32 s.softint, putBe32 s.protection, putBe32 s.swPriorityMask,
    (s.vectAddr.zip s.vectPriority).toList.flatMap fun p ↦ putBe32 p.1 ++ putBe32 p.2,
    putBe32 s.address, putBe32 s.current, putBe32 s.currentHighest, putBe32 (BitVec.ofNat 32 s.stackI),
    (s.priorityStack.zip s.irqStack).toList.flatMap fun p ↦ putBe32 p.1 ++ [p.2],
    putBe32 s.priority, putBe32 s.daisyVectaddr, putBe32 s.daisyPriority, [s.daisyInput]]

/-- The fields that the stream carries, read into a controller that keeps its wiring. -/
def loadFields (s : State) : Reader State := do
  let irqStatus ← getBe32
  let fiqStatus ← getBe32
  let rawintr ← getBe32
  let intselect ← getBe32
  let intenable ← getBe32
  let softint ← getBe32
  let protection ← getBe32
  let swPriorityMask ← getBe32
  let vectors ← getVector (getPair getBe32 getBe32) 32
  let address ← getBe32
  let current ← getBe32
  let currentHighest ← getBe32
  let stackI ← getBe32
  let frames ← getVector (getPair getBe32 getByte) 17
  let priority ← getBe32
  let daisyVectaddr ← getBe32
  let daisyPriority ← getBe32
  let daisyInput ← getByte
  return { s with
    irqStatus, fiqStatus, rawintr, intselect, intenable, softint, protection, swPriorityMask
    vectAddr := vectors.map Prod.fst
    vectPriority := vectors.map Prod.snd
    address, current, currentHighest
    stackI := stackI.toNat
    priorityStack := frames.map Prod.fst
    irqStack := frames.map Prod.snd
    priority, daisyVectaddr, daisyPriority, daisyInput }

/-- A stream of another version is refused with `-EINVAL`. -/
def load (version : Nat) (s : State) (stream : List Byte) : Except Unit State :=
  if version = 1 then .ok (loadFields s stream).1 else .error ()

theorem reads_getBe32 (x : Word) : Reads getBe32 (putBe32 x) x := by
  have h := (reads_getBe 4 x.toNat).map (BitVec.ofNat 32)
  have hx : x.toNat % 256 ^ 4 = x.toNat := Nat.mod_eq_of_lt x.isLt
  rw [hx, BitVec.ofNat_toNat, BitVec.setWidth_eq] at h
  exact h

theorem reads_loadFields {s : State} (h : s.stackI < 2 ^ 32) (t : State) :
    Reads (loadFields t) (save s) { s with daisyCallback := t.daisyCallback } := by
  have hstack : (BitVec.ofNat 32 s.stackI).toNat = s.stackI := by
    rw [BitVec.toNat_ofNat, Nat.mod_eq_of_lt h]
  have hword := reads_getBe32
  have hvectors := reads_getVector (fun p : Word × Word ↦ (hword p.1).pair (hword p.2))
    (s.vectAddr.zip s.vectPriority)
  have hframes := reads_getVector (fun p : Word × Byte ↦ (hword p.1).pair (reads_getByte p.2))
    (s.priorityStack.zip s.irqStack)
  refine (hword _).bind ((hword _).bind ((hword _).bind ((hword _).bind ((hword _).bind ((hword _).bind
    ((hword _).bind ((hword _).bind (hvectors.bind ((hword _).bind ((hword _).bind ((hword _).bind
    ((hword _).bind (hframes.bind ((hword _).bind ((hword _).bind ((hword _).bind
    ((reads_getByte _).bind ?_)))))))))))))))))
  rw [hstack, Vector.map_fst_zip, Vector.map_snd_zip, Vector.map_fst_zip, Vector.map_snd_zip]
  exact .pure _

/-- Loading a saved controller restores everything but the daisy callback. -/
theorem load_save {s : State} (h : s.stackI < 2 ^ 32) (t : State) :
    load 1 t (save s) = .ok { s with daisyCallback := t.daisyCallback } := by
  have hread := reads_loadFields h t []
  rw [List.append_nil] at hread
  rw [load, if_pos rfl, hread]

end Stream

/-- A freshly initialised chain into which every saved controller has been loaded. -/
def restored (w : Chain) : Chain where
  ctrl k :=
    match load 1 init (save (w.ctrl k)) with
    | .ok s => s
    | .error _ => init

inductive Observation
  | returned (value : Word) (events : List (Line × Bool))
  | stopped (fault : Fault)
deriving DecidableEq

def events (w v : Chain) : List (Line × Bool) := v.lines.take (v.lines.length - w.lines.length)

def observe (w : Chain) : List Op → List Observation
  | [] => []
  | op :: ops =>
    match step w op with
    | .ok (v, value) => .returned value (events w v) :: observe v ops
    | .error stop => [.stopped stop.fault]

def Calls (w : Chain) (op : Op) : Prop :=
  op.Acknowledges ∧ (w.ctrl op.target).stackI < 16 ∧ (w.ctrl op.target).currentHighest = daisyIrq ∨
    op.Finishes ∧ 0 < (w.ctrl op.target).stackI ∧ (w.ctrl op.target).current = daisyIrq

/-- An operation that follows the daisy callback finds it set. -/
def Linked (w : Chain) (op : Op) : Prop :=
  Calls w op → ((w.ctrl op.target).daisyCallback).isSome

section Twins

def withCallback (c : Option Nat) (s : State) : State := { s with daisyCallback := c }

def TwinState (s t : State) : Prop := ∃ c, t = withCallback c s ∧ (c = none ∨ c = s.daisyCallback)

def Twin (w w' : Chain) : Prop := ∀ k, TwinState (w.ctrl k) (w'.ctrl k)

variable {s t : State} {w w' : Chain} {k : Nat}

theorem TwinState.map {f : State → State} (h : TwinState s t)
    (hf : ∀ c, f (withCallback c s) = withCallback c (f s)) (hc : (f s).daisyCallback = s.daisyCallback) :
    TwinState (f s) (f t) := by
  obtain ⟨c, rfl, hcs⟩ := h
  exact ⟨c, hf c, hc ▸ hcs⟩

theorem twin_modify {f g : State → State} (h : Twin w w')
    (hf : TwinState (f (w.ctrl k)) (g (w'.ctrl k))) : Twin (w.modify k f) (w'.modify k g) := by
  intro j
  by_cases hj : j = k
  · subst j
    rwa [modify_self, modify_self]
  · rw [modify_of_ne w hj, modify_of_ne w' hj]
    exact h j

theorem settle_withCallback (c : Option Nat) (s : State) : settle (withCallback c s) = withCallback c (settle s) := by
  have hp : Pending (refreshStatus (withCallback c s)) ↔ Pending (refreshStatus s) := Iff.rfl
  unfold settle
  by_cases h : Pending (refreshStatus s)
  · rw [if_pos h, if_pos (hp.mpr h)]
    rfl
  · rw [if_neg h, if_neg (mt hp.mp h)]
    rfl

theorem outputOf_withCallback (c : Option Nat) (s : State) : outputOf (withCallback c s) = outputOf s := by
  have hp : Pending (refreshStatus (withCallback c s)) ↔ Pending (refreshStatus s) := Iff.rfl
  unfold outputOf
  by_cases h : Pending (refreshStatus s)
  · rw [if_pos h, if_pos (hp.mpr h), settle_withCallback]
    rfl
  · rw [if_neg h, if_neg (mt hp.mp h)]

theorem TwinState.settle (h : TwinState s t) : TwinState (settle s) (Pl192.settle t) :=
  h.map (fun c ↦ settle_withCallback c s) (settle_callback s)

theorem TwinState.output (h : TwinState s t) : outputOf t = outputOf s := by
  obtain ⟨c, rfl, -⟩ := h
  exact outputOf_withCallback c s

theorem TwinState.fiqActive (h : TwinState s t) : FiqActive t ↔ FiqActive s := by
  obtain ⟨c, rfl, -⟩ := h
  exact Iff.rfl

theorem twin_settleAt (h : Twin w w') (k : Nat) : Twin (settleAt k w) (settleAt k w') :=
  twin_modify h (h k).settle

theorem twin_raiseDaisy (h : Twin w w') (k : Nat) : Twin (raiseDaisy k w) (raiseDaisy k w') := by
  obtain ⟨c, hc, -⟩ := h k
  obtain ⟨d, hd, -⟩ := h (k + 1)
  refine twin_modify h ⟨some (k + 1), ?_, .inr rfl⟩
  rw [hc, hd]
  rfl

theorem twin_lowerDaisy (h : Twin w w') (k : Nat) : Twin (lowerDaisy k w) (lowerDaisy k w') :=
  twin_modify h ((h k).map (f := fun s ↦ { s with daisyInput := 0 }) (fun _ ↦ rfl) rfl)

def SameEvents (u u' w w' : Chain) : Prop := ∃ new, w.lines = new ++ u.lines ∧ w'.lines = new ++ u'.lines

theorem SameEvents.trans {u u' v v' : Chain} (h : SameEvents u u' v v') (h' : SameEvents v v' w w') :
    SameEvents u u' w w' := by
  obtain ⟨new, hv, hv'⟩ := h
  obtain ⟨new', hw, hw'⟩ := h'
  refine ⟨new' ++ new, ?_, ?_⟩
  · rw [hw, hv, List.append_assoc]
  · rw [hw', hv', List.append_assoc]

theorem sameEvents_settleAt (h : Twin w w') (k : Nat) :
    SameEvents w w' (settleAt k w) (settleAt k w') := by
  refine ⟨[(.fiq, decide (FiqActive (w.ctrl k)))], rfl, ?_⟩
  rw [← decide_eq_decide.mpr (h k).fiqActive]
  rfl

theorem twin_update (h : Twin w w') (k : Nat) :
    Twin (update k w) (update k w') ∧ SameEvents w w' (update k w) (update k w') := by
  induction k generalizing w w' with
  | zero =>
    have hs := twin_settleAt h 0
    have he := sameEvents_settleAt h 0
    rw [update_zero, update_zero, (h 0).output]
    cases outputOf (w.ctrl 0) with
    | silent => exact ⟨hs, he⟩
    | raise => exact ⟨hs, he.trans ⟨[(.irq, true)], rfl, rfl⟩⟩
    | lower => exact ⟨hs, he.trans ⟨[(.irq, false)], rfl, rfl⟩⟩
  | succ k ih =>
    have hs := twin_settleAt h (k + 1)
    have he := sameEvents_settleAt h (k + 1)
    rw [update_succ, update_succ, (h (k + 1)).output]
    cases outputOf (w.ctrl (k + 1)) with
    | silent => exact ⟨hs, he⟩
    | raise =>
      obtain ⟨ht, hl⟩ := ih (twin_raiseDaisy hs k)
      exact ⟨ht, he.trans hl⟩
    | lower =>
      obtain ⟨ht, hl⟩ := ih (twin_lowerDaisy hs k)
      exact ⟨ht, he.trans hl⟩

inductive Matched : Except Stop Chain → Except Stop Chain → Prop
  | ok {v v' : Chain} (h : Twin v v') : Matched (.ok v) (.ok v')
  | error {stop stop' : Stop} (h : stop'.fault = stop.fault) : Matched (.error stop) (.error stop')

theorem Matched.bind {r r' : Except Stop Chain} {f g : Chain → Except Stop Chain} (h : Matched r r')
    (hf : ∀ v v', r = .ok v → r' = .ok v' → Twin v v' → Matched (f v) (g v')) :
    Matched (r.bind f) (r'.bind g) := by
  cases h with
  | ok h => exact hf _ _ rfl rfl h
  | error h => exact .error h

theorem Twin.stackI (h : Twin w w') (k : Nat) : (w'.ctrl k).stackI = (w.ctrl k).stackI := by
  obtain ⟨c, hc, -⟩ := h k
  rw [hc]
  rfl

theorem Twin.current (h : Twin w w') (k : Nat) : (w'.ctrl k).current = (w.ctrl k).current := by
  obtain ⟨c, hc, -⟩ := h k
  rw [hc]
  rfl

theorem Twin.currentHighest (h : Twin w w') (k : Nat) :
    (w'.ctrl k).currentHighest = (w.ctrl k).currentHighest := by
  obtain ⟨c, hc, -⟩ := h k
  rw [hc]
  rfl

theorem Twin.callback (h : Twin w w') {k j : Nat} (hj : (w'.ctrl k).daisyCallback = some j) :
    (w.ctrl k).daisyCallback = some j := by
  obtain ⟨c, hc, hor⟩ := h k
  rw [hc] at hj
  have hcj : c = some j := hj
  rcases hor with rfl | rfl
  · cases hcj
  · exact hcj

theorem matched_maskPriority (h : Twin w w') (k : Nat) : Matched (maskPriority w k) (maskPriority w' k) := by
  unfold maskPriority
  rw [h.stackI k]
  split_ifs
  · exact .error rfl
  · exact .ok (twin_modify h ((h k).map (fun _ ↦ rfl) rfl))
  · exact .error rfl

theorem matched_unmaskPriority (h : Twin w w') (k : Nat) :
    Matched (unmaskPriority w k) (unmaskPriority w' k) := by
  unfold unmaskPriority
  rw [h.stackI k]
  split_ifs
  · exact .error rfl
  · exact .ok (twin_modify h ((h k).map (fun _ ↦ rfl) rfl))
  · exact .error rfl

theorem matched_onCallback {f : Chain → Nat → Except Stop Chain} (h : Twin w w')
    (hc : ((w'.ctrl k).daisyCallback).isSome) (hf : ∀ j, Matched (f w j) (f w' j)) :
    Matched (onCallback f w k) (onCallback f w' k) := by
  obtain ⟨j, hj⟩ := Option.isSome_iff_exists.mp hc
  rw [onCallback, onCallback, hj, h.callback hj]
  exact hf j

theorem callback_of_mask {u : Chain} (h : maskPriority (w.modify k takeHighest) k = .ok u) :
    (w.ctrl k).stackI < 16 ∧ (u.ctrl k).daisyCallback = (w.ctrl k).daisyCallback := by
  obtain ⟨hd, rfl⟩ := maskPriority_ok h
  rw [modify_self] at hd
  rw [modify_self, touch_ctrl, modify_self]
  exact ⟨hd, rfl⟩

theorem callback_of_unmask {u : Chain} (h : unmaskPriority w k = .ok u) :
    0 < (w.ctrl k).stackI ∧ (u.ctrl k).daisyCallback = (w.ctrl k).daisyCallback := by
  obtain ⟨hd, rfl⟩ := unmaskPriority_ok h
  rw [modify_self, touch_ctrl]
  exact ⟨hd, rfl⟩

theorem matched_irqAck (h : Twin w w')
    (hc : (w'.ctrl k).stackI < 16 → (w'.ctrl k).currentHighest = daisyIrq →
      ((w'.ctrl k).daisyCallback).isSome) : Matched (irqAck w k) (irqAck w' k) := by
  have htake : Twin (w.modify k takeHighest) (w'.modify k takeHighest) :=
    twin_modify h ((h k).map (fun _ ↦ rfl) rfl)
  rw [irqAck_eq, irqAck_eq, h.currentHighest k]
  refine (matched_maskPriority htake k).bind fun u u' _ hu' htwin ↦ ?_
  obtain ⟨hd, hcb⟩ := callback_of_mask hu'
  split_ifs with hdaisy
  · refine matched_onCallback htwin ?_ fun j ↦ matched_maskPriority htwin j
    rw [hcb]
    exact hc hd ((h.currentHighest k).trans hdaisy)
  · exact .ok htwin

theorem matched_irqFin (h : Twin w w')
    (hc : 0 < (w'.ctrl k).stackI → (w'.ctrl k).current = daisyIrq →
      ((w'.ctrl k).daisyCallback).isSome) : Matched (irqFin w k) (irqFin w' k) := by
  rw [irqFin_eq, irqFin_eq, h.current k]
  refine (matched_unmaskPriority h k).bind fun u u' _ hu' htwin ↦ ?_
  obtain ⟨hd, hcb⟩ := callback_of_unmask hu'
  split_ifs with hdaisy
  · refine matched_onCallback htwin ?_ fun j ↦ matched_unmaskPriority htwin j
    rw [hcb]
    exact hc hd ((h.current k).trans hdaisy)
  · exact .ok htwin

inductive Together (w w' : Chain) (op : Op) : Prop
  | ok {v v' : Chain} {value : Word} (h : step w op = .ok (v, value)) (h' : step w' op = .ok (v', value))
      (ht : Twin v v') (he : SameEvents w w' v v')
  | error {stop stop' : Stop} (h : step w op = .error stop) (h' : step w' op = .error stop')
      (hf : stop'.fault = stop.fault)

theorem together_of_matched {op : Op} {r r' : Except Stop Chain} {value : Word} (h : Matched r r')
    (hr : effect w op = r.map fun v ↦ ⟨v, true, value⟩)
    (hr' : effect w' op = r'.map fun v ↦ ⟨v, true, value⟩) : Together w w' op := by
  cases h with
  | @ok v v' ht =>
    obtain ⟨hu, hl⟩ := twin_update ht op.target
    have hlines : v.lines = w.lines := effect_lines hr
    have hlines' : v'.lines = w'.lines := effect_lines hr'
    have hs : step w op = .ok (update op.target v, value) := step_of_effect hr rfl
    have hs' : step w' op = .ok (update op.target v', value) := step_of_effect hr' rfl
    exact .ok hs hs' hu (SameEvents.trans ⟨[], hlines, hlines'⟩ hl)
  | error hf => exact .error (step_of_error hr) (step_of_error hr') hf

theorem together_of_linked {op : Op} (h : Twin w w') (hlinked : Linked w' op) : Together w w' op := by
  cases op_acts op with
  | ack ha hr =>
    obtain ⟨c, hc, -⟩ := h op.target
    have haddress : (w'.ctrl op.target).address = (w.ctrl op.target).address := by rw [hc]; rfl
    refine together_of_matched (matched_irqAck h fun hd hdaisy ↦ ?_) (hr w) (haddress ▸ hr w')
    exact hlinked (.inl ⟨ha, hd, hdaisy⟩)
  | fin hf hr =>
    refine together_of_matched (matched_irqFin h fun hd hdaisy ↦ ?_) (hr w) (hr w')
    exact hlinked (.inr ⟨hf, hd, hdaisy⟩)
  | @quiet _ _ value hv hr =>
    obtain ⟨c, hc, -⟩ := h op.target
    have hvalue : value (w'.ctrl op.target) = value (w.ctrl op.target) := by rw [hc]; exact hv _ c
    have hs : step w op = .ok (w, value (w.ctrl op.target)) := step_of_quiet (hr w) rfl
    have hs' : step w' op = .ok (w', value (w'.ctrl op.target)) := step_of_quiet (hr w') rfl
    exact .ok hs (hvalue ▸ hs') h ⟨[], rfl, rfl⟩
  | store _ _ hs hr =>
    have hcb := congrArg State.daisyCallback (hs.internal_eq (w.ctrl op.target))
    exact together_of_matched (.ok (twin_modify h ((h op.target).map (hs.callback _) hcb))) (hr w) (hr w')
  | refuse _ _ hr => exact .error (step_of_error (hr w)) (step_of_error (hr w')) rfl

theorem maskPriority_fault {stop : Stop} (h : maskPriority w k = .error stop) :
    stop.fault ≠ .nullDeref := by
  unfold maskPriority at h
  split_ifs at h
  all_goals
    cases h
    simp

theorem unmaskPriority_fault {stop : Stop} (h : unmaskPriority w k = .error stop) :
    stop.fault ≠ .nullDeref := by
  unfold unmaskPriority at h
  split_ifs at h
  all_goals
    cases h
    simp

theorem irqAck_fault (hw : w.Sound) {stop : Stop} (h : irqAck w k = .error stop) :
    stop.fault ≠ .nullDeref := by
  rw [irqAck_eq] at h
  cases hm : maskPriority (w.modify k takeHighest) k with
  | error stop' =>
    rw [hm] at h
    cases h
    exact maskPriority_fault hm
  | ok u =>
    rw [hm, Except.bind] at h
    split_ifs at h with hd
    rw [onCallback, (callback_of_mask hm).2, (hw k).callback_of (.inr (.inl hd))] at h
    exact maskPriority_fault h

theorem irqFin_fault (hw : w.Sound) {stop : Stop} (h : irqFin w k = .error stop) :
    stop.fault ≠ .nullDeref := by
  rw [irqFin_eq] at h
  cases hm : unmaskPriority w k with
  | error stop' =>
    rw [hm] at h
    cases h
    exact unmaskPriority_fault hm
  | ok u =>
    rw [hm, Except.bind] at h
    split_ifs at h with hd
    rw [onCallback, (callback_of_unmask hm).2, (hw k).callback_of_current hd] at h
    exact unmaskPriority_fault h

theorem irqAck_of_none (hd : (w.ctrl k).stackI < 16) (hdaisy : (w.ctrl k).currentHighest = daisyIrq)
    (hc : (w.ctrl k).daisyCallback = none) : ∃ u, irqAck w k = .error ⟨.nullDeref, u⟩ := by
  have hself := modify_self w k takeHighest
  have hmask := maskPriority_of_lt (w := w.modify k takeHighest) (k := k) (by rwa [hself])
  have hcb := (callback_of_mask hmask).2
  rw [irqAck_eq, hmask, Except.bind, if_pos hdaisy, onCallback, hcb, hc]
  exact ⟨_, rfl⟩

theorem irqFin_of_none (hk : (w.ctrl k).stackI < 17) (hd : 0 < (w.ctrl k).stackI)
    (hdaisy : (w.ctrl k).current = daisyIrq) (hc : (w.ctrl k).daisyCallback = none) :
    ∃ u, irqFin w k = .error ⟨.nullDeref, u⟩ := by
  have hmask := unmaskPriority_of_pos hd hk
  have hcb := (callback_of_unmask hmask).2
  rw [irqFin_eq, hmask, Except.bind, if_pos hdaisy, onCallback, hcb, hc]
  exact ⟨_, rfl⟩

theorem step_error_of_map {op : Op} {r : Except Stop Chain} {value : Word} {stop : Stop}
    (hr : effect w op = r.map fun v ↦ ⟨v, true, value⟩) : step w op = .error stop ↔ r = .error stop := by
  cases r with
  | ok v => rw [step_of_effect hr rfl]; simp
  | error stop' => rw [step_of_error hr]; simp

theorem nullDeref_of_not_linked {op : Op} (h : Twin w w') (hw : w.Sound) (hlinked : ¬ Linked w' op) :
    (∃ u, step w' op = .error ⟨.nullDeref, u⟩) ∧
      ∀ stop, step w op = .error stop → stop.fault ≠ .nullDeref := by
  obtain ⟨hcalls, hcb⟩ := Classical.not_imp.mp hlinked
  have hnone : (w'.ctrl op.target).daisyCallback = none := by simpa using hcb
  rcases hcalls with ⟨ha, hd, hdaisy⟩ | ⟨hf, hd, hdaisy⟩
  · cases op_acts op with
    | ack _ hr =>
      obtain ⟨u, hu⟩ := irqAck_of_none hd hdaisy hnone
      exact ⟨⟨u, (step_error_of_map (hr w')).mpr hu⟩,
        fun stop hs ↦ irqAck_fault hw ((step_error_of_map (hr w)).mp hs)⟩
    | fin hf => exact absurd ha (not_acknowledges_of_finishes hf)
    | quiet hna | store hna | refuse hna => exact absurd ha hna
  · cases op_acts op with
    | fin _ hr =>
      have hk : (w'.ctrl op.target).stackI < 17 := h.stackI op.target ▸ (hw op.target).depth
      obtain ⟨u, hu⟩ := irqFin_of_none hk hd hdaisy hnone
      exact ⟨⟨u, (step_error_of_map (hr w')).mpr hu⟩,
        fun stop hs ↦ irqFin_fault hw ((step_error_of_map (hr w)).mp hs)⟩
    | ack ha => exact absurd ha (not_acknowledges_of_finishes hf)
    | quiet _ hnf | store _ hnf | refuse _ hnf => exact absurd hf hnf

theorem observe_ok {v : Chain} {op : Op} {value : Word} (ops : List Op) (h : step w op = .ok (v, value)) :
    observe w (op :: ops) = .returned value (events w v) :: observe v ops := by
  rw [observe, h]

theorem observe_error {op : Op} {stop : Stop} (ops : List Op) (h : step w op = .error stop) :
    observe w (op :: ops) = [.stopped stop.fault] := by
  rw [observe, h]

theorem events_eq {v v' : Chain} (h : SameEvents w w' v v') : events w v = events w' v' := by
  obtain ⟨new, hv, hv'⟩ := h
  unfold events
  rw [hv, hv', List.length_append, List.length_append, Nat.add_sub_cancel, Nat.add_sub_cancel,
    List.take_left, List.take_left]

theorem observe_iff_linked (ops : List Op) (h : Twin w w') (hw : w.Sound) :
    observe w ops = observe w' ops ↔ Attempts step Linked w' ops := by
  induction ops generalizing w w' with
  | nil => exact iff_of_true rfl fun pre op t hp _ ↦ by simp at hp
  | cons op ops ih =>
    rw [attempts_cons]
    by_cases hlinked : Linked w' op
    · cases together_of_linked h hlinked with
      | ok hs hs' ht he =>
        rw [observe_ok ops hs, observe_ok ops hs', events_eq he]
        simp only [List.cons.injEq, true_and, hlinked, ih ht (sound_step hw hs)]
        refine ⟨fun hops t o heq ↦ ?_, fun hops ↦ hops _ _ hs'⟩
        rw [hs'] at heq
        cases heq
        exact hops
      | error hs hs' hf =>
        rw [observe_error ops hs, observe_error ops hs', hf]
        refine iff_of_true rfl ⟨hlinked, fun t o heq ↦ ?_⟩
        rw [hs'] at heq
        cases heq
    -- The twin stops on its lost callback, which the original never does.
    · obtain ⟨⟨u, hs'⟩, hne⟩ := nullDeref_of_not_linked h hw hlinked
      refine iff_of_false ?_ fun hc ↦ hlinked hc.1
      rw [observe_error ops hs']
      cases hs : step w op with
      | error stop =>
        have hfault := hne stop hs
        rw [observe_error ops hs]
        simpa using hfault
      | ok p =>
        rw [observe_ok ops hs]
        simp

end Twins

theorem restored_ctrl {w : Chain} (hw : w.Sound) (k : Nat) :
    (restored w).ctrl k = { w.ctrl k with daisyCallback := none } := by
  have hd := (hw k).depth
  have hload := load_save (s := w.ctrl k) (by omega) init
  simp only [restored, hload]
  rfl

theorem twin_restored {w : Chain} (hw : w.Sound) : Twin w (restored w) :=
  fun k ↦ ⟨none, restored_ctrl hw k, .inl rfl⟩

/-- A restored chain shows what the original shows exactly as long as no operation follows a
daisy callback before the controller behind it has set it again. -/
theorem snapshot_iff_linked {w : Chain} (hw : Reachable w) (ops : List Op) :
    observe w ops = observe (restored w) ops ↔ Attempts step Linked (restored w) ops := by
  have hs := sound_of_reachable hw
  exact observe_iff_linked ops (twin_restored hs) hs

/-- A source is raised and acknowledged, the chain is saved, and after it another source is raised and the first one is
finished. -/
theorem snapshot_acknowledged :
    let ops : List Op := [⟨0, .irqHandler 1 true⟩, ⟨0, .write 0xF00 0⟩, ⟨0, .read 0xF00⟩]
    ∃ w, Run step Chain.initial [⟨0, .write 0x10 3⟩, ⟨0, .irqHandler 0 true⟩, ⟨0, .read 0xF00⟩] w ∧
      (w.ctrl 0).stackI = 1 ∧ observe w ops = observe (restored w) ops ∧ Attempts step Linked (restored w) ops := by
  intro ops
  obtain ⟨w, hrun, hstack, hsame⟩ : ∃ w,
      Run step Chain.initial [⟨0, .write 0x10 3⟩, ⟨0, .irqHandler 0 true⟩, ⟨0, .read 0xF00⟩] w ∧
        (w.ctrl 0).stackI = 1 ∧ observe w ops = observe (restored w) ops := exists_run_of_exec (by decide +kernel)
  exact ⟨w, hrun, hstack, hsame, (snapshot_iff_linked ⟨_, hrun⟩ ops).mp hsame⟩

/-- The second controller has raised its output when the chain is saved. The head then
acknowledges through a callback that the stream does not carry. -/
theorem snapshot_loses_callback :
    ∃ w, Run step Chain.initial [⟨1, .write 0x10 1⟩, ⟨1, .irqHandler 0 true⟩, ⟨1, .read 0xF00⟩] w ∧
      observe w [⟨0, .read 0xF00⟩] ≠ observe (restored w) [⟨0, .read 0xF00⟩] :=
  exists_run_of_exec (by decide +kernel)

end IDeviceEmulator.Pl192
