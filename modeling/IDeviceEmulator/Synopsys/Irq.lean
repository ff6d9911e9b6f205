import Mathlib.Data.Fintype.Basic
import Mathlib.Tactic.FinCases
import IDeviceEmulator.Library.Machine
import IDeviceEmulator.Synopsys.Device

namespace IDeviceEmulator.Synopsys

open Machine TcpUsb
open Memory (Mem)

/-- The derived interrupt state agrees with what it is derived from. -/
structure Consistent (s : Device) : Prop where
  daint : ∀ (dir : Direction) (i : Fin numEndpoints), s.daintsts.getLsbD (dir.shift + i) = true ↔ Pending s dir i
  endpoints : ∀ dir : Direction, s.gintsts.getLsbD dir.flag = true ↔
    ∃ i : Fin numEndpoints, s.daintsts.getLsbD (dir.shift + i) = true ∧ s.daintmsk.getLsbD (dir.shift + i) = true
  otg : s.gintsts.getLsbD 2 = true ↔ s.gotgint ≠ 0
  line : s.irq = true ↔ s.pcgcctl &&& 3 = 0 ∧ s.gintsts &&& s.gintmsk ≠ 0

section Update

variable (s : Device)

theorem getLsbD_or_bit (x : Word) {k j : Nat} (hk : k < 32) :
    (x ||| bit k).getLsbD j = true ↔ x.getLsbD j = true ∨ k = j := by
  rw [BitVec.getLsbD_or, bit, BitVec.getLsbD_twoPow]
  simp [hk]

theorem and_bit_ne_zero (x : Word) {k : Nat} (hk : k < 32) : x &&& bit k ≠ 0 ↔ x.getLsbD k = true := by
  rw [bit, BitVec.and_twoPow]
  split_ifs with hx
  · refine iff_of_true (fun hzero ↦ ?_) hx
    have hbit := congrArg (fun y : Word ↦ y.getLsbD k) hzero
    simp [hk] at hbit
  · simp [hx]

theorem shift_lt (dir : Direction) (i : Fin numEndpoints) : dir.shift + i < 32 := by
  have hi := i.isLt
  unfold numEndpoints at hi
  cases dir with
  | dirIn => simp only [Direction.shift]; omega
  | dirOut => simp only [Direction.shift]; omega

theorem shift_inj (dir dir' : Direction) (i j : Fin numEndpoints) :
    dir.shift + i = dir'.shift + j ↔ dir = dir' ∧ i = j := by
  have hi := i.isLt
  have hj := j.isLt
  unfold numEndpoints at hi hj
  cases dir with
  | dirIn =>
    cases dir' with
    | dirIn => simp [Direction.shift, Fin.ext_iff]
    | dirOut => simp [Direction.shift]; omega
  | dirOut =>
    cases dir' with
    | dirIn => simp [Direction.shift]; omega
    | dirOut => simp [Direction.shift, Fin.ext_iff]

theorem flag_lt (dir : Direction) : dir.flag < 32 := by cases dir <;> decide

theorem raise_daintsts (dir dir' : Direction) (sum : Summary) (i j : Fin numEndpoints) :
    (raise s dir sum i).daintsts.getLsbD (dir'.shift + j) = true ↔
      sum.daintsts.getLsbD (dir'.shift + j) = true ∨ (dir = dir' ∧ i = j) ∧ Pending s dir' j := by
  unfold raise
  by_cases hpending : Pending s dir i
  · rw [if_pos hpending, getLsbD_or_bit _ (shift_lt dir i), shift_inj]
    constructor
    · rintro (h | ⟨rfl, rfl⟩)
      · exact .inl h
      · exact .inr ⟨⟨rfl, rfl⟩, hpending⟩
    · rintro (h | ⟨h, -⟩)
      · exact .inl h
      · exact .inr h
  · rw [if_neg hpending]
    constructor
    · exact .inl
    · rintro (h | ⟨⟨rfl, rfl⟩, h⟩)
      · exact h
      · exact absurd h hpending

theorem raise_gintsts (dir : Direction) (sum : Summary) (i : Fin numEndpoints) (k : Nat) :
    (raise s dir sum i).gintsts.getLsbD k = true ↔
      sum.gintsts.getLsbD k = true ∨
        dir.flag = k ∧ Pending s dir i ∧ s.daintmsk.getLsbD (dir.shift + i) = true := by
  unfold raise
  by_cases hpending : Pending s dir i
  · rw [if_pos hpending]
    dsimp only
    by_cases hmask : s.daintmsk &&& bit (dir.shift + i) ≠ 0
    · rw [if_pos hmask, getLsbD_or_bit _ (flag_lt dir)]
      simp [hpending, (and_bit_ne_zero _ (shift_lt dir i)).mp hmask]
    · rw [if_neg hmask]
      rw [and_bit_ne_zero _ (shift_lt dir i)] at hmask
      simp [hmask]
  · simp [hpending]

/-- The loop of `synopsys_usb_update_irq` over any of the endpoints. -/
theorem loop_daintsts (l : List (Fin numEndpoints)) (sum : Summary) (dir : Direction) (j : Fin numEndpoints) :
    (l.foldl (fun sum i ↦ raise s .dirIn (raise s .dirOut sum i) i) sum).daintsts.getLsbD (dir.shift + j) = true ↔
      sum.daintsts.getLsbD (dir.shift + j) = true ∨ j ∈ l ∧ Pending s dir j := by
  induction l generalizing sum with
  | nil => simp
  | cons i l ih =>
    rw [List.foldl_cons, ih, raise_daintsts, raise_daintsts, List.mem_cons]
    cases dir <;> grind

theorem loop_gintsts (l : List (Fin numEndpoints)) (sum : Summary) (k : Nat) :
    (l.foldl (fun sum i ↦ raise s .dirIn (raise s .dirOut sum i) i) sum).gintsts.getLsbD k = true ↔
      sum.gintsts.getLsbD k = true ∨ ∃ dir : Direction, dir.flag = k ∧
        ∃ i ∈ l, Pending s dir i ∧ s.daintmsk.getLsbD (dir.shift + i) = true := by
  induction l generalizing sum with
  | nil => simp
  | cons i l ih =>
    rw [List.foldl_cons, ih, raise_gintsts, raise_gintsts]
    constructor
    · rintro (((h | ⟨hk, h⟩) | ⟨hk, h⟩) | ⟨dir, hk, j, hj, h⟩)
      · exact .inl h
      · exact .inr ⟨.dirOut, hk, i, List.mem_cons_self, h⟩
      · exact .inr ⟨.dirIn, hk, i, List.mem_cons_self, h⟩
      · exact .inr ⟨dir, hk, j, List.mem_cons_of_mem _ hj, h⟩
    · rintro (h | ⟨dir, hk, j, hj, h⟩)
      · exact .inl (.inl (.inl h))
      · rcases List.mem_cons.mp hj with rfl | hj
        · cases dir with
          | dirIn => exact .inl (.inr ⟨hk, h⟩)
          | dirOut => exact .inl (.inl (.inr ⟨hk, h⟩))
        · exact .inr ⟨dir, hk, j, hj, h⟩

theorem direction_exists {p : Direction → Prop} : (∃ dir, p dir) ↔ p .dirIn ∨ p .dirOut := by
  constructor
  · rintro ⟨dir, h⟩
    cases dir with
    | dirIn => exact .inl h
    | dirOut => exact .inr h
  · rintro (h | h)
    · exact ⟨_, h⟩
    · exact ⟨_, h⟩

/-- The summary register before the loop. -/
theorem cleared_gintsts (x : Word) {k : Nat} (hk : k < 32) :
    (x &&& ~~~(bit Direction.dirOut.flag ||| bit Direction.dirIn.flag ||| gintmskOtg)).getLsbD k = true ↔
      x.getLsbD k = true ∧ k ≠ 19 ∧ k ≠ 18 ∧ k ≠ 2 := by
  rw [BitVec.getLsbD_and, BitVec.getLsbD_not, BitVec.getLsbD_or, BitVec.getLsbD_or, gintmskOtg]
  simp only [bit, BitVec.getLsbD_twoPow, Direction.flag]
  grind

theorem updateIrq_gintsts {k : Nat} (hk : k < 32) :
    (updateIrq s).gintsts.getLsbD k = true ↔
      (s.gintsts.getLsbD k = true ∧ k ≠ 19 ∧ k ≠ 18 ∧ k ≠ 2) ∨ (s.gotgint ≠ 0 ∧ k = 2) ∨
        ∃ dir : Direction, dir.flag = k ∧ ∃ i, Pending s dir i ∧ s.daintmsk.getLsbD (dir.shift + i) = true := by
  simp only [updateIrq, summarise]
  rw [loop_gintsts]
  simp only [List.mem_finRange, true_and]
  rw [← or_assoc]
  refine or_congr_left ?_
  by_cases hotg : s.gotgint ≠ 0
  · rw [if_pos hotg, and_iff_right hotg]
    rw [gintmskOtg, getLsbD_or_bit _ (by decide), ← gintmskOtg, cleared_gintsts _ hk]
    exact or_congr_right eq_comm
  · rw [if_neg hotg, cleared_gintsts _ hk]
    exact (or_iff_left fun h ↦ hotg h.1).symm

theorem consistent_updateIrq : Consistent (updateIrq s) := by
  have hdaint (dir : Direction) (i : Fin numEndpoints) :
      (updateIrq s).daintsts.getLsbD (dir.shift + i) = true ↔ Pending s dir i := by
    simp only [updateIrq, summarise]
    rw [loop_daintsts]
    simp
  refine ⟨hdaint, fun dir ↦ ?_, ?_, ?_⟩
  · simp only [hdaint]
    rw [updateIrq_gintsts s (flag_lt dir)]
    cases dir with
    | dirIn =>
      simp only [Direction.flag, direction_exists]
      simp [updateIrq]
    | dirOut =>
      simp only [Direction.flag, direction_exists]
      simp [updateIrq]
  · rw [updateIrq_gintsts s (by decide)]
    simp only [Direction.flag, direction_exists]
    simp [updateIrq]
  · simp only [updateIrq, decide_eq_true_iff]
    rw [BitVec.and_comm s.gintmsk]

end Update

/-- What the interrupt state is derived from, and the state itself, are the same. -/
structure Quiet (s t : Device) : Prop where
  status : ∀ dir i, (t.eps dir i).interruptStatus = (s.eps dir i).interruptStatus
  mask : mask t = mask s
  daintmsk : t.daintmsk = s.daintmsk
  daintsts : t.daintsts = s.daintsts
  gotgint : t.gotgint = s.gotgint
  gintmsk : t.gintmsk = s.gintmsk
  gintsts : t.gintsts = s.gintsts
  pcgcctl : t.pcgcctl = s.pcgcctl
  irq : t.irq = s.irq

/-- The fields that `Quiet` compares. -/
def derivation (s : Device) :=
  (fun dir i ↦ (s.eps dir i).interruptStatus, mask s, s.daintmsk, s.daintsts, s.gotgint, s.gintmsk, s.gintsts,
    s.pcgcctl, s.irq)

section Steps

variable {s t : Device}

theorem Quiet.of_derivation (h : derivation t = derivation s) : Quiet s t := by
  simp only [derivation, Prod.mk.injEq] at h
  obtain ⟨hstatus, hmask, hdaintmsk, hdaintsts, hgotgint, hgintmsk, hgintsts, hpcgcctl, hirq⟩ := h
  exact ⟨fun dir i ↦ congrFun (congrFun hstatus dir) i, hmask, hdaintmsk, hdaintsts, hgotgint, hgintmsk, hgintsts,
    hpcgcctl, hirq⟩

theorem Quiet.consistent (h : Quiet s t) (hs : Consistent s) : Consistent t := by
  have hpending (dir : Direction) (i : Fin numEndpoints) : Pending t dir i ↔ Pending s dir i := by
    rw [Pending, Pending, h.status, h.mask]
  refine ⟨fun dir i ↦ ?_, fun dir ↦ ?_, ?_, ?_⟩
  · rw [h.daintsts, hpending]
    exact hs.daint dir i
  · rw [h.gintsts, h.daintsts, h.daintmsk]
    exact hs.endpoints dir
  · rw [h.gintsts, h.gotgint]
    exact hs.otg
  · rw [h.irq, h.pcgcctl, h.gintsts, h.gintmsk]
    exact hs.line

theorem eps_setEp_self (s : Device) (dir : Direction) (i : Fin numEndpoints) (e : EpState) :
    (setEp s dir i e).eps dir i = e := by
  simp [setEp]

theorem eps_setEp_of_ne (s : Device) {dir dir' : Direction} {i j : Fin numEndpoints} (e : EpState)
    (h : ¬ (dir' = dir ∧ j = i)) : (setEp s dir i e).eps dir' j = s.eps dir' j := by
  by_cases hdir : dir' = dir
  · subst hdir
    have hj : j ≠ i := fun hj ↦ h ⟨rfl, hj⟩
    simp [setEp, hj]
  · simp [setEp, hdir]

theorem quiet_setEp {dir : Direction} {i : Fin numEndpoints} {e : EpState}
    (h : e.interruptStatus = (s.eps dir i).interruptStatus) : Quiet s (setEp s dir i e) := by
  refine ⟨fun dir' j ↦ ?_, rfl, rfl, rfl, rfl, rfl, rfl, rfl, rfl⟩
  by_cases hsame : dir' = dir ∧ j = i
  · obtain ⟨rfl, rfl⟩ := hsame
    rw [eps_setEp_self, h]
  · rw [eps_setEp_of_ne s e hsame]

/-- The control registers of the endpoints. -/
def controlAddr (dir : Direction) (i : Fin numEndpoints) : Nat :=
  match dir with
  | .dirIn => 0x900 + 0x20 * i
  | .dirOut => 0xb00 + 0x20 * i

/-- The interrupts that `synopsys_usb_update_ep` raises for a value written to a control register. -/
def epintRaised (val : Word) : Word :=
  (if val &&& epconSetNak ≠ 0 then epintNakEff else 0) ||| if val &&& epconDisable ≠ 0 then epintDisabled else 0

theorem interruptStatus_updateEp (e : EpState) :
    (updateEp e).interruptStatus = e.interruptStatus ||| epintRaised e.control := by
  have hdisable :
      (e.control ||| epconNakSts) &&& ~~~epconSetNak &&& epconDisable = e.control &&& epconDisable := by
    rw [epconDisable, bit, BitVec.and_twoPow, BitVec.and_twoPow]
    simp [epconNakSts, epconSetNak, bit]
  unfold updateEp epintRaised
  by_cases hnak : e.control &&& epconSetNak ≠ 0
  · simp only [if_pos hnak, hdisable]
    split_ifs <;> simp [BitVec.or_assoc]
  · simp only [if_neg hnak]
    split_ifs <;> simp

theorem write_control (s : Device) (dir : Direction) (i : Fin numEndpoints) (val : Word) (connected : Bool) :
    write s (controlAddr dir i) val connected =
      .ok (setEp s dir i (updateEp { s.eps dir i with control := val })) := by
  cases dir with
  | dirIn => fin_cases i <;> rfl
  | dirOut => fin_cases i <;> rfl

theorem epWrite_other {dir : Direction} {ep addr : Nat} {val : Word} (haddr : ep < numEndpoints → addr ≠ 0)
    (h : epWrite s dir ep addr val = .ok t) : (∃ s', t = updateIrq s') ∨ Quiet s t := by
  unfold epWrite at h
  by_cases hep : ep < numEndpoints
  · rw [dif_pos hep] at h
    dsimp only at h
    split at h
    · exact absurd rfl (haddr hep)
    · exact .inl ⟨_, (Except.ok.inj h).symm⟩
    · cases h
      exact .inr (quiet_setEp rfl)
    · cases h
      exact .inr (quiet_setEp rfl)
    · cases h
      exact .inr (quiet_setEp rfl)
    · cases h
  · rw [dif_neg hep] at h
    cases h

theorem control_of_offset {addr base : Nat} (hbase : base ≤ addr) (hzero : (addr - base) &&& 0x1f = 0) :
    addr = base + 0x20 * ((addr - base) >>> 5) := by
  have hmod : (addr - base) &&& 0x1f = (addr - base) % 32 := Nat.and_two_pow_sub_one_eq_mod (addr - base) 5
  rw [hmod] at hzero
  rw [Nat.shiftRight_eq_div_pow]
  omega

theorem quiet_setFifoWord (s : Device) (offset : Nat) (val : Word) : Quiet s (setFifoWord s offset val) :=
  .of_derivation rfl

theorem dctlWrite_updates (s : Device) (val : Word) : ∃ s', dctlWrite s val = updateIrq s' := by
  unfold dctlWrite
  exact ⟨_, rfl⟩

theorem write_other {addr : Nat} {val : Word} {connected : Bool} (haddr : ∀ dir i, addr ≠ controlAddr dir i)
    (h : write s addr val connected = .ok t) : (∃ s', t = updateIrq s') ∨ Quiet s t := by
  unfold write at h
  split at h
  · exact .inl ⟨_, (Except.ok.inj h).symm⟩
  · cases h
    exact .inr (.of_derivation rfl)
  · exact .inl ⟨_, (Except.ok.inj h).symm⟩
  · split_ifs at h
    · unfold coreSoftReset at h
      split_ifs at h
      exact .inl ⟨_, (Except.ok.inj h).symm⟩
    · cases h
      exact .inr (.of_derivation rfl)
    · cases h
      exact .inr (.of_derivation rfl)
  · exact .inl ⟨_, (Except.ok.inj h).symm⟩
  · exact .inl ⟨_, (Except.ok.inj h).symm⟩
  · exact .inl ⟨_, (Except.ok.inj h).symm⟩
  · exact .inl ⟨_, (Except.ok.inj h).symm⟩
  · exact .inl ⟨_, (Except.ok.inj h).symm⟩
  · exact .inl ⟨_, (Except.ok.inj h).symm⟩
  · cases h
    exact .inr (.of_derivation rfl)
  · cases h
    exact .inr (.of_derivation rfl)
  · cases h
    exact .inl (dctlWrite_updates s val)
  · cases h
    exact .inr (.of_derivation rfl)
  · cases h
    exact .inr (.of_derivation rfl)
  · cases h
    exact .inr (.of_derivation rfl)
  · split_ifs at h with hsize hin hout hfifo
    · cases h
      unfold setDptxfsiz
      split_ifs <;> exact .inr (.of_derivation rfl)
    · refine epWrite_other (fun hep hzero ↦ haddr .dirIn ⟨_, hep⟩ ?_) h
      exact control_of_offset hin.1 hzero
    · refine epWrite_other (fun hep hzero ↦ haddr .dirOut ⟨_, hep⟩ ?_) h
      exact control_of_offset hout.1 hzero
    · cases h
      exact .inr (quiet_setFifoWord s _ val)

theorem or_and_ne_zero (a b m : Word) : (a ||| b) &&& m ≠ 0 ↔ a &&& m ≠ 0 ∨ b &&& m ≠ 0 := by
  rw [BitVec.and_or_distrib_right, ← not_and_or]
  exact not_congr BitVec.or_eq_zero_iff

theorem pending_control (s : Device) (dir : Direction) (i : Fin numEndpoints) (val : Word) :
    Pending (setEp s dir i (updateEp { s.eps dir i with control := val })) dir i ↔
      Pending s dir i ∨ epintRaised val &&& mask s dir ≠ 0 := by
  rw [Pending, eps_setEp_self, interruptStatus_updateEp]
  exact or_and_ne_zero _ _ _

theorem pending_control_of_ne (s : Device) {dir dir' : Direction} {i j : Fin numEndpoints} (e : EpState)
    (h : ¬ (dir' = dir ∧ j = i)) : Pending (setEp s dir i e) dir' j ↔ Pending s dir' j := by
  rw [Pending, eps_setEp_of_ne s e h]
  rfl

/-- A write to a control register keeps the law exactly if it does not make its endpoint pending. -/
theorem consistent_control (hs : Consistent s) (dir : Direction) (i : Fin numEndpoints) (val : Word) :
    Consistent (setEp s dir i (updateEp { s.eps dir i with control := val })) ↔
      (epintRaised val &&& mask s dir ≠ 0 → Pending s dir i) := by
  constructor
  · intro ht hraised
    have hpending := (pending_control s dir i val).mpr (.inr hraised)
    exact (hs.daint dir i).mp ((ht.daint dir i).mpr hpending)
  · intro hkept
    refine ⟨fun dir' j ↦ ?_, hs.endpoints, hs.otg, hs.line⟩
    refine (hs.daint dir' j).trans ?_
    by_cases hsame : dir' = dir ∧ j = i
    · obtain ⟨rfl, rfl⟩ := hsame
      rw [pending_control]
      exact (or_iff_left_of_imp hkept).symm
    · exact (pending_control_of_ne s _ hsame).symm

theorem controlAddr_inj {dir dir' : Direction} {i j : Fin numEndpoints}
    (h : controlAddr dir i = controlAddr dir' j) : dir = dir' ∧ i = j := by
  have hi := i.isLt
  have hj := j.isLt
  unfold numEndpoints at hi hj
  cases dir with
  | dirIn =>
    cases dir' with
    | dirIn => exact ⟨rfl, Fin.ext (by simp only [controlAddr] at h; omega)⟩
    | dirOut => simp only [controlAddr] at h; omega
  | dirOut =>
    cases dir' with
    | dirIn => simp only [controlAddr] at h; omega
    | dirOut => exact ⟨rfl, Fin.ext (by simp only [controlAddr] at h; omega)⟩

theorem tcpCallback_updates {h : Header} {buffer : List Byte} {reply : Reply Device}
    (hr : tcpCallback s h buffer = .ok reply) : ∃ s', reply.app = updateIrq s' := by
  unfold tcpCallback at hr
  dsimp only at hr
  split_ifs at hr
  · cases hr
    exact ⟨_, rfl⟩
  all_goals
    obtain ⟨i, -, hr⟩ := ok_of_bind hr
    obtain ⟨⟨s', ret, buffer'⟩, -, hr⟩ := ok_of_bind hr
    cases hr
    exact ⟨s', rfl⟩

end Steps

inductive Op
  | write (addr : Nat) (val : Word) (connected : Bool)
  | request (header : Header) (buffer : List Byte)
  | memory (mem : Mem 32)

def step (s : Device) : Op → Except Fault (Device × Unit)
  | .write addr val connected => (write s addr val connected).map fun t ↦ (t, ())
  | .request header buffer => (tcpCallback s header buffer).map fun reply ↦ (reply.app, ())
  | .memory mem => .ok ({ s with mem }, ())

/-- A write to the control register of an endpoint raises an unmasked interrupt only if the
endpoint has one already. -/
def Settled (s : Device) : Op → Prop
  | .write addr val _ => ∀ dir i, addr = controlAddr dir i → epintRaised val &&& mask s dir ≠ 0 → Pending s dir i
  | _ => True

theorem step_consistent_iff {s t : Device} {op : Op} {o : Unit} (hs : Consistent s) (h : step s op = .ok (t, o)) :
    Consistent t ↔ Settled s op := by
  cases op with
  | write addr val connected =>
    obtain ⟨t', hwrite, heq⟩ := ok_of_map h
    cases heq
    by_cases hcontrol : ∃ dir i, addr = controlAddr dir i
    · obtain ⟨dir, i, rfl⟩ := hcontrol
      rw [write_control] at hwrite
      cases hwrite
      rw [consistent_control hs]
      constructor
      · intro hkept dir' j haddr
        obtain ⟨rfl, rfl⟩ := controlAddr_inj haddr
        exact hkept
      · exact fun hkept ↦ hkept dir i rfl
    · simp only [not_exists] at hcontrol
      have hsettled : Settled s (.write addr val connected) := fun dir i haddr ↦ absurd haddr (hcontrol dir i)
      refine iff_of_true ?_ hsettled
      rcases write_other hcontrol hwrite with ⟨s', rfl⟩ | hquiet
      · exact consistent_updateIrq s'
      · exact hquiet.consistent hs
  | request header buffer =>
    obtain ⟨reply, hreply, heq⟩ := ok_of_map h
    obtain ⟨s', hs'⟩ := tcpCallback_updates hreply
    cases heq
    rw [hs']
    exact iff_of_true (consistent_updateIrq s') trivial
  | memory mem =>
    cases h
    have hquiet : Quiet s { s with mem } := .of_derivation rfl
    exact iff_of_true (hquiet.consistent hs) trivial

theorem settled_of_done {s : Device} {op : Op} (h : ∀ t o, step s op = .ok (t, o) → Settled s op) : Settled s op := by
  cases op with
  | write addr val connected =>
    intro dir i haddr
    subst haddr
    have hstep : step s (.write (controlAddr dir i) val connected) =
        .ok (setEp s dir i (updateEp { s.eps dir i with control := val }), ()) := by
      rw [step, write_control]
      rfl
    exact h _ () hstep dir i rfl
  | request => trivial
  | memory => trivial

theorem interrupts_consistent_iff (serverHost : Bool) (mem : Mem 32) (ops : List Op) :
    Throughout step Consistent (initialReset serverHost mem) ops ↔
      Attempts step Settled (initialReset serverHost mem) ops :=
  throughout_iff_attempts (consistent_updateIrq _) (fun _ _ _ _ _ hs h ↦ step_consistent_iff hs h)
    fun _ _ h ↦ settled_of_done h

/-- The guest unmasks the endpoint's disable interrupt and disables endpoint 0. -/
def disableEndpoint : List Op := [.write 0x810 2 true, .write 0x900 0x40000000 true]

theorem interrupts_consistent_fails :
    ¬ Throughout step Consistent (initialReset false fun _ ↦ 0) disableEndpoint := by
  intro h
  have hrun : Run step (initialReset false fun _ ↦ 0) disableEndpoint _ := .cons rfl (.cons rfl (.nil _))
  have hdaint := (h disableEndpoint _ (List.prefix_refl _) hrun).daint .dirIn ⟨0, by decide⟩
  exact absurd hdaint (by decide)

end IDeviceEmulator.Synopsys
