import Mathlib.Data.Finset.Max
import Mathlib.Data.Fintype.Basic
import IDeviceEmulator.Library.Machine
import IDeviceEmulator.Pl192.Sorter
import IDeviceEmulator.Pl192.Update

namespace IDeviceEmulator.Pl192

open Machine

section Rule

variable (s : State)

def PendingSource (i : Fin 32) : Prop :=
  ((s.rawintr ||| s.softint) &&& s.intenable &&& ~~~s.intselect).getLsbD i = true

instance : DecidablePred (PendingSource s) := fun _ ↦ inferInstanceAs (Decidable (_ = _))

def Foremost (i : Fin 32) : Prop :=
  PendingSource s i ∧ ∀ j, PendingSource s j → s.vectPriority.get i ≤ s.vectPriority.get j

instance : DecidablePred (Foremost s) := fun _ ↦ inferInstanceAs (Decidable (_ ∧ _))

/-- The lowest-numbered pending source of the numerically lowest priority. -/
def bestSource : Option (Fin 32) := (List.finRange 32).find? (Foremost s)

/-- The vector a controller chooses when the previous one offers `daisy`. -/
def choose (daisy : Option Word) : Option Word :=
  match bestSource s, daisy with
  | none, daisy => daisy
  | some i, none => some (s.vectAddr.get i)
  | some i, some address =>
    if s.daisyPriority < s.vectPriority.get i then some address else some (s.vectAddr.get i)

end Rule

/-- The vector chosen by the `m` controllers that start at controller `k` and go away
from the head. -/
def chosenFrom (w : Chain) : Nat → Nat → Option Word
  | 0, _ => none
  | m + 1, k => choose (w.ctrl k) (chosenFrom w m (k + 1))

section Local

variable {s : State}

theorem foremost_of_best {i : Fin 32} (h : bestSource s = some i) :
    Foremost s i ∧ ∀ j < i, ¬ Foremost s j := by
  obtain ⟨hi, hmin⟩ := find_finRange_eq_some.mp h
  exact ⟨of_decide_eq_true hi, fun j hj ↦ of_decide_eq_false (hmin j hj)⟩

theorem exists_foremost {i : Fin 32} (h : PendingSource s i) : ∃ j, Foremost s j := by
  obtain ⟨j, hj, hmin⟩ := Finset.exists_min_image (Finset.univ.filter (PendingSource s))
    (fun j ↦ (s.vectPriority.get j).toNat) ⟨i, by simpa using h⟩
  exact ⟨j, by simpa using hj, fun l hl ↦ hmin l (by simpa using hl)⟩

theorem best_eq_none (h : bestSource s = none) (i : Fin 32) : ¬ PendingSource s i := by
  intro hi
  obtain ⟨j, hj⟩ := exists_foremost hi
  have hn := List.find?_eq_none.mp h j (List.mem_finRange j)
  exact hn (decide_eq_true hj)

structure Unmasked (s : State) : Prop where
  current : s.current = noIrq
  priority : s.priority = 0x10
  mask : s.swPriorityMask = 0xffff
  leveled : Leveled s

structure Offered (s : State) (daisy : Option Word) : Prop where
  input : s.daisyInput ≠ 0 ↔ daisy.isSome
  address : ∀ a, daisy = some a → s.daisyVectaddr = a

theorem mask_bit (p : Fin 16) : (0xffff : Word).getLsbD p = true := by
  revert p
  decide

theorem sorter_unmasked (hs : Unmasked s) (p : Fin 16)
    (hp : (prioIrq (refreshStatus s)).get p ≤ daisyIrq)
    (hmin : ∀ q < p, ¬ (prioIrq (refreshStatus s)).get q ≤ daisyIrq) :
    prioritySorter (refreshStatus s) = (prioIrq (refreshStatus s)).get p := by
  have hm : (refreshStatus s).swPriorityMask = 0xffff := hs.mask
  refine prioritySorter_of_first ?_ hp (fun q hq _ ↦ hmin q hq)
  rw [hm]
  exact mask_bit p

theorem sourceAt_below_best {i : Fin 32} (hi : Foremost s i) {q : Nat}
    (hq : q < (s.vectPriority.get i).toNat) : sourceAt (refreshStatus s) q = none := by
  simp only [sourceAt, List.find?_eq_none, decide_eq_true_eq]
  intro j _ hj
  have hle : (s.vectPriority.get i).toNat ≤ (s.vectPriority.get j).toNat := hi.2 j hj.1
  have hjq : (s.vectPriority.get j).toNat = q := hj.2
  omega

theorem sourceAt_best {i : Fin 32} (h : bestSource s = some i) :
    sourceAt (refreshStatus s) (s.vectPriority.get i).toNat = some i := by
  obtain ⟨hi, hmin⟩ := foremost_of_best h
  refine find_finRange_eq_some.mpr ⟨decide_eq_true ⟨hi.1, rfl⟩, fun j hj ↦ ?_⟩
  refine decide_eq_false fun hon ↦ hmin j hj ⟨hon.1, fun l hl ↦ ?_⟩
  have hle : (s.vectPriority.get i).toNat ≤ (s.vectPriority.get l).toNat := hi.2 l hl
  have hjq : (s.vectPriority.get j).toNat = (s.vectPriority.get i).toNat := hon.2
  exact BitVec.le_def.mpr (by omega)

theorem sorter_daisy (hs : Unmasked s) (hd : s.daisyInput ≠ 0)
    (hnone : ∀ q ≤ s.daisyPriority.toNat, sourceAt (refreshStatus s) q = none) :
    prioritySorter (refreshStatus s) = daisyIrq := by
  have hp := hs.leveled.daisy
  have hget : (prioIrq (refreshStatus s))[s.daisyPriority.toNat] = daisyIrq := by
    rw [prioIrq_getElem _ _ hp, hnone _ le_rfl]
    exact if_pos ⟨hd, rfl⟩
  rw [sorter_unmasked hs ⟨_, hp⟩ ?_ ?_]
  · exact hget
  · exact hget ▸ BitVec.le_refl _
  · intro q hq
    have hq' : q.val < s.daisyPriority.toNat := hq
    intro hle
    have hor := (prioIrq_le_daisy_iff _ _ q.isLt).mp hle
    rw [hnone _ (Nat.le_of_lt hq')] at hor
    rcases hor with h | ⟨-, h⟩
    · cases h
    · exact absurd h (Nat.ne_of_gt hq')

theorem sorter_source (hs : Unmasked s) {i : Fin 32} (h : bestSource s = some i)
    (hd : s.daisyInput ≠ 0 → (s.vectPriority.get i).toNat ≤ s.daisyPriority.toNat) :
    prioritySorter (refreshStatus s) = BitVec.ofNat 32 i := by
  have hp : (s.vectPriority.get i).toNat < 16 := hs.leveled.vect i
  have hget : (prioIrq (refreshStatus s))[(s.vectPriority.get i).toNat] = BitVec.ofNat 32 i := by
    rw [prioIrq_getElem _ _ hp, sourceAt_best h]
  rw [sorter_unmasked hs ⟨_, hp⟩ ?_ ?_]
  · exact hget
  · exact Eq.trans_le hget (BitVec.le_of_lt (ofNat_source_lt i))
  · intro q hq
    have hq' : q.val < (s.vectPriority.get i).toNat := hq
    intro hle
    have hor := (prioIrq_le_daisy_iff _ _ q.isLt).mp hle
    rw [sourceAt_below_best (foremost_of_best h).1 hq'] at hor
    rcases hor with hf | ⟨hin, hf⟩
    · cases hf
    · have hle := hd hin
      have hf' : s.daisyPriority.toNat = q.val := hf
      omega

theorem leveled_held (s : State) : Leveled (held s) ↔ Leveled s :=
  ⟨fun h ↦ ⟨h.daisy, h.vect⟩, fun h ↦ ⟨h.daisy, h.vect⟩⟩

theorem leveled_of_held {s t : State} (h : held s = held t) (ht : Leveled t) : Leveled s := by
  rw [← leveled_held, h, leveled_held]
  exact ht

theorem vectPriorityAt_lt (hs : Leveled s) {x : Word} (hx : x < 32) :
    (vectPriorityAt s x).toNat < 16 := by
  have hx' : x.toNat < 32 := hx
  rw [vectPriorityAt, dif_pos hx']
  exact hs.vect ⟨x.toNat, hx'⟩

theorem output_of_sorter (hs : Unmasked s)
    (hx : prioritySorter (refreshStatus s) ≤ daisyIrq) :
    outputOf s = .raise ∧ (settle s).address =
      if prioritySorter (refreshStatus s) < 32 then vectAddrAt s (prioritySorter (refreshStatus s))
      else s.daisyVectaddr := by
  have hp : Pending (refreshStatus s) := by
    by_contra hn
    rw [prioritySorter_of_not_pending hn] at hx
    exact absurd hx (by decide)
  have hset : settle s = select (refreshStatus s) := if_pos hp
  refine ⟨?_, by rw [hset]; rfl⟩
  have hhighest : (settle s).currentHighest = prioritySorter (refreshStatus s) := by rw [hset]; rfl
  have hheld := held_settle s
  have hcurrent : (settle s).current = noIrq := (congrArg State.current hheld).trans hs.current
  have hpriority : (settle s).priority = 0x10 := (congrArg State.priority hheld).trans hs.priority
  have hleveled : Leveled (settle s) := leveled_of_held hheld hs.leveled
  rw [outputOf, if_pos hp, driveOf, hhighest, hcurrent, hpriority, if_pos, if_neg, if_neg, if_pos hx]
  · exact fun h ↦ absurd (Nat.lt_of_le_of_lt h.2 hleveled.daisy) (by decide)
  · exact fun h ↦ absurd (Nat.lt_of_le_of_lt h.2 (vectPriorityAt_lt hleveled h.1)) (by decide)
  · intro hno
    rw [hno] at hx
    exact absurd hx (by decide)

theorem vectAddrAt_source (i : Fin 32) : vectAddrAt s (BitVec.ofNat 32 i) = s.vectAddr.get i := by
  have hi : (BitVec.ofNat 32 i.val).toNat = i.val := by
    rw [BitVec.toNat_ofNat]
    omega
  have hlt : (BitVec.ofNat 32 i.val).toNat < 32 := hi.trans_lt i.isLt
  rw [vectAddrAt, dif_pos hlt]
  simp only [hi]
  rfl

theorem sourceAt_of_no_best (h : bestSource s = none) (p : Nat) : sourceAt (refreshStatus s) p = none := by
  simp only [sourceAt, List.find?_eq_none, decide_eq_true_eq]
  exact fun i _ hi ↦ best_eq_none h i hi.1

theorem not_pending_of_no_best (h : bestSource s = none) (hin : s.daisyInput = 0) :
    ¬ Pending (refreshStatus s) := by
  have hirq : (refreshStatus s).irqStatus = 0 := by
    apply BitVec.eq_of_getLsbD_eq
    intro i hi
    have hp := best_eq_none h ⟨i, hi⟩
    simpa [PendingSource, refreshStatus] using hp
  rintro (hp | hp)
  · exact hp hirq
  · exact hp hin

theorem settle_choose (hs : Unmasked s) {daisy : Option Word} (hd : Offered s daisy) :
    match choose s daisy with
    | some a => outputOf s = .raise ∧ (settle s).address = a
    | none => outputOf s = .lower := by
  have hsource {i : Fin 32} (h : prioritySorter (refreshStatus s) = BitVec.ofNat 32 i) :
      outputOf s = .raise ∧ (settle s).address = s.vectAddr.get i := by
    have ho := output_of_sorter hs (h ▸ BitVec.le_of_lt (ofNat_source_lt i))
    rwa [h, if_pos (ofNat_source_lt i), vectAddrAt_source] at ho
  have hdaisy {a : Word} (ha : daisy = some a) (h : prioritySorter (refreshStatus s) = daisyIrq) :
      outputOf s = .raise ∧ (settle s).address = a := by
    have ho := output_of_sorter hs (h ▸ BitVec.le_refl _)
    rwa [h, if_neg (by decide), hd.address a ha] at ho
  unfold choose
  cases hb : bestSource s with
  | none =>
    cases ha : daisy with
    | none =>
      have hin : s.daisyInput = 0 := by
        by_contra hne
        simpa [ha] using hd.input.mp hne
      exact if_neg (not_pending_of_no_best hb hin)
    | some a =>
      exact hdaisy ha (sorter_daisy hs (hd.input.mpr (by simp [ha])) fun q _ ↦ sourceAt_of_no_best hb q)
  | some i =>
    cases ha : daisy with
    | none =>
      have hin : ¬ s.daisyInput ≠ 0 := fun hne ↦ by simpa [ha] using hd.input.mp hne
      exact hsource (sorter_source hs hb fun h ↦ absurd h hin)
    | some a =>
      dsimp only
      split_ifs with hlt
      · refine hdaisy ha (sorter_daisy hs (hd.input.mpr (by simp [ha])) fun q hq ↦ ?_)
        exact sourceAt_below_best (foremost_of_best hb).1 (Nat.lt_of_le_of_lt hq hlt)
      · exact hsource (sorter_source hs hb fun _ ↦ BitVec.not_lt.mp hlt)

theorem choose_held (s : State) (daisy : Option Word) : choose (held s) daisy = choose s daisy := rfl

theorem choose_congr {s t : State} (h : held s = held t) (daisy : Option Word) :
    choose s daisy = choose t daisy := by
  rw [← choose_held s, h, choose_held]

theorem choose_isSome_of_pending {i : Fin 32} (h : PendingSource s i) (daisy : Option Word) :
    (choose s daisy).isSome := by
  unfold choose
  cases hb : bestSource s with
  | none => exact absurd h (best_eq_none hb i)
  | some j =>
    cases daisy with
    | none => rfl
    | some a =>
      dsimp only
      split_ifs <;> rfl

theorem choose_isSome_of_daisy (s : State) {daisy : Option Word} (h : daisy.isSome) :
    (choose s daisy).isSome := by
  unfold choose
  obtain ⟨a, rfl⟩ := Option.isSome_iff_exists.mp h
  cases bestSource s with
  | none => rfl
  | some j =>
    dsimp only
    split_ifs <;> rfl

end Local

section Propagation

theorem chosenFrom_congr {v w : Chain} (m k : Nat)
    (h : ∀ j, k ≤ j → held (v.ctrl j) = held (w.ctrl j)) : chosenFrom v m k = chosenFrom w m k := by
  induction m generalizing k with
  | zero => rfl
  | succ m ih =>
    rw [chosenFrom, chosenFrom, ih (k + 1) (fun j hj ↦ h j (by omega)),
      choose_congr (h k le_rfl)]

theorem chosenFrom_isSome {w : Chain} {i : Fin 32} (m k d : Nat) (hd : d < m)
    (h : PendingSource (w.ctrl (k + d)) i) : (chosenFrom w m k).isSome := by
  induction m generalizing k d with
  | zero => omega
  | succ m ih =>
    rw [chosenFrom]
    cases d with
    | zero => exact choose_isSome_of_pending h _
    | succ d =>
      refine choose_isSome_of_daisy _ (ih (k + 1) d (by omega) ?_)
      rwa [Nat.add_right_comm]

variable (n : Nat)

def Wired (w : Chain) (k : Nat) : Prop := Offered (w.ctrl k) (chosenFrom w (n - (k + 1)) (k + 1))

def Addressed (w : Chain) (k : Nat) : Prop :=
  ∀ a, chosenFrom w (n - k) k = some a → (w.ctrl k).address = a

variable {n}

theorem chosenFrom_sub {k : Nat} (hk : k < n) (w : Chain) :
    chosenFrom w (n - k) k = choose (w.ctrl k) (chosenFrom w (n - (k + 1)) (k + 1)) := by
  rw [show n - k = n - (k + 1) + 1 by omega, chosenFrom]

theorem wired_congr {v w : Chain} {k : Nat} (hheld : ∀ j, k < j → held (v.ctrl j) = held (w.ctrl j))
    (hin : (v.ctrl k).daisyInput = (w.ctrl k).daisyInput)
    (haddr : (v.ctrl k).daisyVectaddr = (w.ctrl k).daisyVectaddr) (h : Wired n w k) : Wired n v k := by
  unfold Wired at h ⊢
  rw [chosenFrom_congr _ _ fun j hj ↦ hheld j (by omega)]
  exact ⟨hin ▸ h.input, fun a ha ↦ haddr.trans (h.address a ha)⟩

theorem addressed_congr {v w : Chain} {k : Nat} (hheld : ∀ j, k ≤ j → held (v.ctrl j) = held (w.ctrl j))
    (haddr : (v.ctrl k).address = (w.ctrl k).address) (h : Addressed n w k) : Addressed n v k := by
  intro a ha
  rw [chosenFrom_congr _ _ hheld] at ha
  exact haddr.trans (h a ha)

theorem hops_congr {v w : Chain} {k : Nat} (hheld : ∀ j, held (v.ctrl j) = held (w.ctrl j))
    (hsame : v.ctrl k = w.ctrl k) (h : Wired n w k ∧ Addressed n w k) :
    Wired n v k ∧ Addressed n v k :=
  ⟨wired_congr (fun j _ ↦ hheld j) (by rw [hsame]) (by rw [hsame]) h.1,
    addressed_congr (fun j _ ↦ hheld j) (by rw [hsame]) h.2⟩

theorem unmasked_held (s : State) : Unmasked (held s) ↔ Unmasked s :=
  ⟨fun h ↦ ⟨h.current, h.priority, h.mask, (leveled_held s).mp h.leveled⟩,
    fun h ↦ ⟨h.current, h.priority, h.mask, (leveled_held s).mpr h.leveled⟩⟩

theorem unmasked_of_held {s t : State} (h : held s = held t) (ht : Unmasked t) : Unmasked s := by
  rw [← unmasked_held, h, unmasked_held]
  exact ht

theorem settled {k : Nat} (hk : k < n) {w : Chain} (hun : Unmasked (w.ctrl k))
    (hbehind : ∀ j, k < j → j < n → Wired n w j ∧ Addressed n w j) (hwired : Wired n w k)
    (j : Nat) (hkj : k ≤ j) (hj : j < n) :
    Wired n (settleAt k w) j ∧ Addressed n (settleAt k w) j := by
  have hheld (i : Nat) : held ((settleAt k w).ctrl i) = held (w.ctrl i) := held_settleAt k w i
  by_cases hjk : j = k
  · subst j
    refine ⟨wired_congr (fun i _ ↦ hheld i) ?_ ?_ hwired, fun a ha ↦ ?_⟩
    · rw [settleAt_self, settle_input]
    · rw [settleAt_self, settle_vectaddr]
    · rw [chosenFrom_congr _ _ fun i _ ↦ hheld i, chosenFrom_sub hk] at ha
      have h := settle_choose hun hwired
      rw [ha] at h
      rw [settleAt_self]
      exact h.2
  · exact hops_congr hheld (settleAt_of_ne hjk w) (hbehind j (by omega) hj)

/-- An update with nothing in service reaches the head and repairs every hop on the way. -/
theorem update_propagates {k : Nat} (hk : k < n) {w : Chain} (hun : ∀ j < n, Unmasked (w.ctrl j))
    (hbehind : ∀ j, k < j → j < n → Wired n w j ∧ Addressed n w j) (hwired : Wired n w k)
    (j : Nat) (hj : j < n) : Wired n (update k w) j ∧ Addressed n (update k w) j := by
  induction k generalizing w with
  | zero =>
    have h := settled hk (hun 0 hk) hbehind hwired j (Nat.zero_le j) hj
    rw [update_zero]
    cases outputOf (w.ctrl 0) with
    | silent => exact h
    | raise => exact hops_congr (w := settleAt 0 w) (fun _ ↦ rfl) rfl h
    | lower => exact hops_congr (w := settleAt 0 w) (fun _ ↦ rfl) rfl h
  | succ k ih =>
    have hset := settled hk (hun _ hk) hbehind hwired
    have hchoice := settle_choose (hun _ hk) hwired
    have hheld (i : Nat) : held ((settleAt (k + 1) w).ctrl i) = held (w.ctrl i) :=
      held_settleAt (k + 1) w i
    have hchosen : chosenFrom (settleAt (k + 1) w) (n - (k + 1)) (k + 1) =
        choose (w.ctrl (k + 1)) (chosenFrom w (n - (k + 1 + 1)) (k + 1 + 1)) := by
      rw [chosenFrom_congr _ _ fun i _ ↦ hheld i, chosenFrom_sub hk]
    -- Both ways of driving the output change controller `k` alone, outside its held registers.
    have hnext (v : Chain) (hv : ∀ i, held (v.ctrl i) = held ((settleAt (k + 1) w).ctrl i))
        (hsame : ∀ i, i ≠ k → v.ctrl i = (settleAt (k + 1) w).ctrl i)
        (hoffer : Offered (v.ctrl k) (choose (w.ctrl (k + 1)) (chosenFrom w (n - (k + 1 + 1)) (k + 1 + 1)))) :
        Wired n (update k v) j ∧ Addressed n (update k v) j := by
      refine ih (by omega) (fun i hi ↦ unmasked_of_held ((hv i).trans (hheld i)) (hun i hi)) ?_ ?_
      · intro i hki hi
        exact hops_congr hv (hsame i (by omega)) (hset i (by omega) hi)
      · unfold Wired
        rwa [chosenFrom_congr _ _ fun i _ ↦ hv i, hchosen]
    rw [update_succ]
    cases hc : choose (w.ctrl (k + 1)) (chosenFrom w (n - (k + 1 + 1)) (k + 1 + 1)) with
    | none =>
      rw [hc] at hchoice hnext
      rw [hchoice]
      refine hnext _ (held_lowerDaisy k _) (fun i hi ↦ modify_of_ne _ hi _) ⟨?_, by simp⟩
      simp [lowerDaisy]
    | some a =>
      rw [hc] at hchoice hnext
      rw [hchoice.1]
      refine hnext _ (held_raiseDaisy k _) (fun i hi ↦ modify_of_ne _ hi _) ⟨?_, ?_⟩
      · simp [raiseDaisy]
      · rintro b hb
        cases hb
        simpa [raiseDaisy, settleAt_self] using hchoice.2

end Propagation

/-- The registers whose writes leave the priority mask and the in-service state alone. -/
def Register.Configures : Register → Prop
  | .intEnable | .intEnClear | .intSelect | .softInt | .softIntClear
  | .vectAddr _ | .vectPriority _ | .priorityDaisy => True
  | _ => False

def Op.Configures (op : Op) : Prop :=
  match op.request with
  | .irqHandler _ _ => True
  | .write offset _ => (Register.ofOffset offset).Configures
  | .read _ => False

structure Configured (n : Nat) (w : Chain) : Prop where
  unmasked : ∀ k < n, Unmasked (w.ctrl k)
  hops : ∀ k < n, Wired n w k ∧ Addressed n w k

theorem unmasked_store (value : Word) {r : Register} (hr : r.Configures) {s : State} (hs : Unmasked s) :
    Unmasked (store value r s) := by
  have hl := (isStore_store value r).leveled s hs.leveled
  cases r with
  | protection | swPriorityMask => exact False.elim hr
  | _ => exact ⟨hs.current, hs.priority, hs.mask, hl⟩

theorem configures_effect {w : Chain} {op : Op} (h : op.Configures) :
    ∃ f, effect w op = .ok ⟨w.modify op.target f, true, 0⟩ ∧ IsStore f ∧
      ∀ s, Unmasked s → Unmasked (f s) := by
  obtain ⟨k, request⟩ := op
  cases request with
  | irqHandler irq level =>
    refine ⟨_, rfl, ⟨fun _ ↦ rfl, fun _ _ ↦ rfl, fun s hs ↦ ⟨hs.daisy, hs.vect⟩⟩, fun s hs ↦ ?_⟩
    exact ⟨hs.current, hs.priority, hs.mask, hs.leveled.daisy, hs.leveled.vect⟩
  | read offset => exact False.elim h
  | write offset value =>
    have hr : (Register.ofOffset offset).Configures := h
    refine ⟨store value (Register.ofOffset offset), ?_, isStore_store _ _, fun s ↦ unmasked_store value hr⟩
    cases ho : Register.ofOffset offset <;> rw [ho] at hr
    case unaligned | id | irqStatus | fiqStatus | rawIntr | protection | swPriorityMask | vectAddress
        | pl190 | bad => exact False.elim hr
    all_goals simp only [effect, write, ho]

theorem configured_initial (n : Nat) : Configured n Chain.initial := by
  have hun : Unmasked init := ⟨rfl, rfl, rfl, by decide, by decide⟩
  have hbest : bestSource init = none := by decide +kernel
  have hnone (m k : Nat) : chosenFrom Chain.initial m k = none := by
    induction m generalizing k with
    | zero => rfl
    | succ m ih =>
      have hctrl : Chain.initial.ctrl k = init := rfl
      rw [chosenFrom, ih, hctrl]
      simp only [choose, hbest]
  have hinput : ¬ init.daisyInput ≠ 0 := by decide
  refine ⟨fun _ _ ↦ hun, fun k _ ↦ ⟨⟨?_, ?_⟩, ?_⟩⟩
  · rw [hnone]
    exact iff_of_false hinput (by decide)
  · rw [hnone]
    exact fun a ha ↦ by cases ha
  · intro a ha
    rw [hnone] at ha
    cases ha

theorem configured_step {n : Nat} {w : Chain} {op : Op} (hop : op.target < n) (hc : op.Configures)
    (hw : Configured n w) : ∃ v, step w op = .ok (v, 0) ∧ Configured n v := by
  obtain ⟨f, he, hstore, hun⟩ := configures_effect (w := w) hc
  refine ⟨_, step_of_effect he rfl, ?_⟩
  have hself := modify_self w op.target f
  have hother (j : Nat) (hj : j ≠ op.target) := modify_of_ne w hj f
  have hunmasked (j : Nat) (hj : j < n) : Unmasked ((w.modify op.target f).ctrl j) := by
    by_cases h : j = op.target
    · subst j
      rw [hself]
      exact hun _ (hw.unmasked _ hj)
    · rw [hother j h]
      exact hw.unmasked j hj
  have hbehind (j : Nat) (hj : op.target < j) : held ((w.modify op.target f).ctrl j) = held (w.ctrl j) := by
    rw [hother j (by omega)]
  refine ⟨fun k hk ↦ unmasked_of_held (held_update _ _ _) (hunmasked k hk), fun k hk ↦ ?_⟩
  refine update_propagates hop hunmasked (fun j hj hjn ↦ ?_) ?_ k hk
  · obtain ⟨h₁, h₂⟩ := hw.hops j hjn
    have hsame := hother j (by omega)
    exact ⟨wired_congr (fun i hi ↦ hbehind i (by omega)) (by rw [hsame]) (by rw [hsame]) h₁,
      addressed_congr (fun i hi ↦ hbehind i (by omega)) (by rw [hsame]) h₂⟩
  · have hi := hstore.internal_eq (w.ctrl op.target)
    have hinput := congrArg State.daisyInput hi
    have hvector := congrArg State.daisyVectaddr hi
    refine wired_congr hbehind ?_ ?_ (hw.hops _ hop).1
    · rw [hself]
      exact hinput
    · rw [hself]
      exact hvector

theorem configured_exec {n : Nat} (ops : List Op) (hops : ∀ op ∈ ops, op.target < n ∧ op.Configures)
    {w : Chain} (hw : Configured n w) : ∃ v os, exec step w ops = .ok (v, os) ∧ Configured n v := by
  induction ops generalizing w with
  | nil => exact ⟨w, [], rfl, hw⟩
  | cons op ops ih =>
    obtain ⟨hop, hc⟩ := hops op List.mem_cons_self
    obtain ⟨u, hu, hcu⟩ := configured_step hop hc hw
    obtain ⟨v, os, hv, hcv⟩ := ih (fun op hm ↦ hops op (List.mem_cons_of_mem _ hm)) hcu
    exact ⟨v, 0 :: os, by simp only [exec, hu, hv], hcv⟩

/-- While only sources and vectors are configured, every operation returns and the head's
address register is the vector chosen by the recursive rule. -/
theorem head_address_chosen (n : Nat) (ops : List Op)
    (hops : ∀ op ∈ ops, op.target < n ∧ op.Configures) :
    ∃ w os, exec step Chain.initial ops = .ok (w, os) ∧
      ((∃ k < n, ∃ i, PendingSource (w.ctrl k) i) → chosenFrom w n 0 = some (w.ctrl 0).address) := by
  obtain ⟨w, os, hw, hc⟩ := configured_exec ops hops (configured_initial n)
  refine ⟨w, os, hw, ?_⟩
  rintro ⟨k, hk, i, hi⟩
  obtain ⟨a, ha⟩ := Option.isSome_iff_exists.mp (chosenFrom_isSome n 0 k hk (by simpa using hi))
  rw [ha, (hc.hops 0 (by omega)).2 a ha]

theorem head_address_second :
    (∀ op ∈ [Op.mk 1 (.write 0x100 0x1234), Op.mk 1 (.write 0x10 1), Op.mk 1 (.irqHandler 0 true)],
      op.target < 2 ∧ op.Configures) ∧
    ∃ w os, exec step Chain.initial
        [Op.mk 1 (.write 0x100 0x1234), Op.mk 1 (.write 0x10 1), Op.mk 1 (.irqHandler 0 true)] =
          .ok (w, os) ∧
      ((∃ k < 2, ∃ i, PendingSource (w.ctrl k) i) → chosenFrom w 2 0 = some (w.ctrl 0).address) := by
  have hops : ∀ op ∈ [Op.mk 1 (.write 0x100 0x1234), Op.mk 1 (.write 0x10 1),
      Op.mk 1 (.irqHandler 0 true)], op.target < 2 ∧ op.Configures := by
    intro op hop
    simp only [List.mem_cons, List.not_mem_nil, or_false] at hop
    rcases hop with rfl | rfl | rfl <;> exact ⟨by decide, trivial⟩
  exact ⟨hops, head_address_chosen 2 _ hops⟩

end IDeviceEmulator.Pl192
