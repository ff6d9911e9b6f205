import IDeviceEmulator.Library.Machine
import IDeviceEmulator.Cdma.Scatter

namespace IDeviceEmulator.Cdma

open Memory Machine

/-- The three places that record a completed transfer: the calls on the interrupt lines,
newest first, and the two status registers. -/
structure Lines where
  irqs : List (Channel × Bool)
  status : Channel → Word
  mstatus : Word

namespace Lines

variable (l : Lines) (ch : Channel)

def asserted : Bool := ((l.irqs.find? fun call ↦ call.1 = ch).map Prod.snd).getD false

def pending : Bool := (l.status ch).getLsbD 19

def master : Bool := l.mstatus.getLsbD ch

structure Agree : Prop where
  line : l.asserted ch = l.pending ch
  master : l.pending ch = l.master ch

theorem agree_iff : l.Agree ch ↔ l.asserted ch = l.pending ch ∧ l.pending ch = l.master ch :=
  ⟨fun h ↦ ⟨h.line, h.master⟩, fun h ↦ ⟨h.1, h.2⟩⟩

def clear : Lines := { l with irqs := (ch, false) :: l.irqs, mstatus := l.mstatus &&& ~~~channelBit ch }

def store (value : Word) : Lines := { l with status := Function.update l.status ch value }

def raise : Lines where
  irqs := (ch, true) :: l.irqs
  status := Function.update l.status ch (l.status ch &&& ~~~0xc0000 ||| 0x80000)
  mstatus := l.mstatus ||| channelBit ch

def acknowledge (value : Word) : Lines × Word :=
  if value.getLsbD 19 ∧ l.pending ch then (l.clear ch, value &&& ~~~0x80000) else (l, value)

variable {l ch} {c : Channel}

theorem getLsbD_channelBit : (channelBit ch).getLsbD c = decide (c = ch) := by
  have hch := ch.isLt
  simp only [channelBit, BitVec.getLsbD_twoPow, Fin.ext_iff]
  grind

@[simp] theorem asserted_clear : (l.clear ch).asserted c = if c = ch then false else l.asserted c := by
  by_cases h : c = ch
  · simp [asserted, clear, h]
  · simp [asserted, clear, h, Ne.symm h]

@[simp] theorem pending_clear : (l.clear ch).pending c = l.pending c := rfl

@[simp] theorem master_clear : (l.clear ch).master c = if c = ch then false else l.master c := by
  have hc := c.isLt
  simp only [master, clear, BitVec.getLsbD_and, BitVec.getLsbD_not, getLsbD_channelBit]
  by_cases h : c = ch
  · simp [h]
  · simp [h]
    omega

@[simp] theorem asserted_store {value : Word} : (l.store ch value).asserted c = l.asserted c := rfl

@[simp] theorem pending_store {value : Word} :
    (l.store ch value).pending c = if c = ch then value.getLsbD 19 else l.pending c := by
  by_cases h : c = ch
  · simp [pending, store, h]
  · simp [pending, store, h]

@[simp] theorem master_store {value : Word} : (l.store ch value).master c = l.master c := rfl

@[simp] theorem asserted_raise : (l.raise ch).asserted c = if c = ch then true else l.asserted c := by
  by_cases h : c = ch
  · simp [asserted, raise, h]
  · simp [asserted, raise, h, Ne.symm h]

@[simp] theorem pending_raise : (l.raise ch).pending c = if c = ch then true else l.pending c := by
  by_cases h : c = ch
  · simp [pending, raise, h]
  · simp [pending, raise, h]

@[simp] theorem master_raise : (l.raise ch).master c = if c = ch then true else l.master c := by
  simp only [master, raise, BitVec.getLsbD_or, getLsbD_channelBit]
  by_cases h : c = ch
  · simp [h]
  · simp [h]

end Lines

section Writes

variable {δ κ : Type} {host : Host δ κ}

def System.lines (w : System δ κ) : Lines := ⟨w.irqs, w.regs.status, w.regs.mstatus⟩

theorem and_bit19 (x : Word) : x &&& 0x80000 ≠ 0 ↔ x.getLsbD 19 = true := by
  have hbit : (0x80000 : Word) = BitVec.twoPow 32 19 := by decide
  rw [hbit, BitVec.and_twoPow]
  by_cases h : x.getLsbD 19
  · rw [if_pos h]
    exact iff_of_true (by decide) h
  · rw [if_neg h]
    exact iff_of_false (fun hne ↦ hne rfl) h

theorem clearIrq_lines (w : System δ κ) (ch : Channel) (value : Word) :
    ((clearIrq w ch value).1.lines, (clearIrq w ch value).2) = w.lines.acknowledge ch value := by
  unfold clearIrq Lines.acknowledge
  simp only [and_bit19]
  by_cases h : value.getLsbD 19 = true ∧ (w.regs.status ch).getLsbD 19 = true
  · have hpending : value.getLsbD 19 = true ∧ w.lines.pending ch = true := h
    rw [if_pos h, if_pos hpending]
    rfl
  · have hpending : ¬ (value.getLsbD 19 = true ∧ w.lines.pending ch = true) := h
    rw [if_neg h, if_neg hpending]

theorem startAes_lines {w v : System δ κ} (h : startAes host w = .ok v) : v.lines = w.lines := by
  unfold startAes at h
  split at h
  · dsimp only at h
    split_ifs at h
    all_goals
      cases h
      rfl
  · cases h

theorem decode_lines (host : Host δ κ) (regs : Registers κ) (seg : Segment) (csize : Word) (inBuf : List Byte) :
    (decode host regs seg csize inBuf).1.status = regs.status ∧
      (decode host regs seg csize inBuf).1.mstatus = regs.mstatus := by
  unfold decode
  split_ifs
  · exact ⟨rfl, rfl⟩
  · exact ⟨rfl, rfl⟩

theorem startTransfer_lines {w v : System δ κ} {fuel : Nat} {ch : Channel}
    (h : startTransfer host fuel w ch = some (.ok v)) :
    w.regs.config ch &&& 2 ≠ 0 ∧ v.lines = w.lines ∨ w.regs.config ch &&& 2 = 0 ∧ v.lines = w.lines.raise ch := by
  unfold startTransfer at h
  split_ifs at h with hdir
  · cases h
    exact .inl ⟨hdir, rfl⟩
  · right
    refine ⟨not_not.mp hdir, ?_⟩
    cases hseg : w.regs.dmaSegment ch with
    | none => simp [hseg] at h
    | some seg =>
      simp only [hseg] at h
      split at h
      · cases h
      · cases h
      · split at h
        · cases h
        · cases h
          obtain ⟨hstatus, hmstatus⟩ := decode_lines host w.regs seg (w.regs.size ch) ‹Fetch δ›.inBuf
          simp only [System.lines, Lines.raise, complete, hstatus, hmstatus]

/-- What a write of the status register does to the lines of an H2FMI channel, and to those of
any other channel when it is not one. -/
inductive StatusEffect (w : System δ κ) (ch : Channel) (value : Word) : Lines → Prop
  | store (h : value &&& 1 = 0 ∨ ¬ IsH2fmi ch) :
      StatusEffect w ch value ((w.lines.acknowledge ch value).1.store ch (w.lines.acknowledge ch value).2)
  | refuse (hstart : value &&& 1 ≠ 0) (hch : IsH2fmi ch) (hdir : w.regs.config ch &&& 2 ≠ 0) :
      StatusEffect w ch value (w.lines.acknowledge ch value).1
  | transfer (hstart : value &&& 1 ≠ 0) (hch : IsH2fmi ch) (hdir : w.regs.config ch &&& 2 = 0) :
      StatusEffect w ch value ((w.lines.acknowledge ch value).1.raise ch)

theorem writeStatus_effect {w v : System δ κ} {fuel : Nat} {ch : Channel} {value : Word}
    (h : writeStatus host fuel w ch value = some (.ok v)) : StatusEffect w ch value v.lines := by
  have hlines := clearIrq_lines w ch value
  have hclear : (clearIrq w ch value).1.lines = (w.lines.acknowledge ch value).1 := congrArg Prod.fst hlines
  have hvalue : (clearIrq w ch value).2 = (w.lines.acknowledge ch value).2 := congrArg Prod.snd hlines
  have hstored {u : System δ κ} (hu : u.lines = (clearIrq w ch value).1.lines) :
      (setStatus u ch (clearIrq w ch value).2).lines =
        (w.lines.acknowledge ch value).1.store ch (w.lines.acknowledge ch value).2 := by
    rw [← hclear, ← hvalue, ← hu]
    rfl
  unfold writeStatus at h
  dsimp only at h
  rw [clearIrq_and_one] at h
  split_ifs at h with hstart haes hh2fmi
  · obtain ⟨u, hu, rfl⟩ := ok_of_map (Option.some.inj h)
    rw [hstored (startAes_lines hu)]
    exact .store (.inr (by rw [haes]; decide))
  · have hconfig := (regs_clearIrq w ch value).1
    rcases startTransfer_lines h with ⟨hdir, hv⟩ | ⟨hdir, hv⟩
    · rw [hv, hclear]
      exact .refuse hstart hh2fmi (hconfig ▸ hdir)
    · rw [hv, hclear]
      exact .transfer hstart hh2fmi (hconfig ▸ hdir)
  · cases h
    rw [hstored rfl]
    exact .store (.inr hh2fmi)
  · cases h
    rw [hstored rfl]
    exact .store (.inl (not_not.mp hstart))

theorem agree_other {w : System δ κ} {ch c : Channel} {value : Word} {l : Lines} (h : StatusEffect w ch value l)
    (hc : c ≠ ch) : l.Agree c ↔ w.lines.Agree c := by
  have hack : (w.lines.acknowledge ch value).1.asserted c = w.lines.asserted c ∧
      (w.lines.acknowledge ch value).1.pending c = w.lines.pending c ∧
      (w.lines.acknowledge ch value).1.master c = w.lines.master c := by
    unfold Lines.acknowledge
    split_ifs <;> simp [hc]
  cases h <;> simp [Lines.agree_iff, hc, hack]

/-- The acknowledged lines agree with what a plain status write stores exactly if the write
keeps bit 19 as it stands. -/
theorem agree_store_iff {l : Lines} {ch : Channel} (h : l.Agree ch) (value : Word) :
    ((l.acknowledge ch value).1.store ch (l.acknowledge ch value).2).Agree ch ↔
      value.getLsbD 19 = l.pending ch := by
  obtain ⟨hline, hmaster⟩ := (Lines.agree_iff l ch).mp h
  unfold Lines.acknowledge
  split_ifs with hack
  · simp [Lines.agree_iff, hack]
  · simp only [Lines.agree_iff, Lines.asserted_store, Lines.pending_store, Lines.master_store, if_true,
      hline, ← hmaster]
    constructor
    · exact fun h ↦ h.2
    · exact fun h ↦ ⟨h.symm, h⟩

theorem agree_refuse_iff {l : Lines} {ch : Channel} (h : l.Agree ch) (value : Word) :
    (l.acknowledge ch value).1.Agree ch ↔ ¬ (value.getLsbD 19 = true ∧ l.pending ch = true) := by
  unfold Lines.acknowledge
  split_ifs with hack
  · simp [Lines.agree_iff, hack]
  · exact iff_of_true h hack

theorem agree_transfer (l : Lines) (ch : Channel) : (l.raise ch).Agree ch := by simp [Lines.agree_iff]

theorem agree_effect_iff {w : System δ κ} {ch : Channel} {value : Word} {l : Lines}
    (h : StatusEffect w ch value l) (hch : IsH2fmi ch) (hw : w.lines.Agree ch) :
    l.Agree ch ↔ (value &&& 1 = 0 → value.getLsbD 19 = w.lines.pending ch) ∧
      (value &&& 1 ≠ 0 → w.regs.config ch &&& 2 ≠ 0 → ¬ (value.getLsbD 19 = true ∧ w.lines.pending ch = true)) := by
  cases h with
  | store h =>
    have hplain := h.resolve_right fun hnot ↦ hnot hch
    rw [agree_store_iff hw]
    exact ⟨fun h ↦ ⟨fun _ ↦ h, fun hne ↦ absurd hplain hne⟩, fun h ↦ h.1 hplain⟩
  | refuse hstart _ hdir =>
    rw [agree_refuse_iff hw]
    exact ⟨fun h ↦ ⟨fun heq ↦ absurd heq hstart, fun _ _ ↦ h⟩, fun h ↦ h.2 hstart hdir⟩
  | transfer hstart _ hdir =>
    refine iff_of_true (agree_transfer _ ch) ⟨fun heq ↦ absurd heq hstart, ?_⟩
    exact fun _ hne ↦ absurd hdir hne

end Writes

section Runs

variable {δ κ : Type} (host : Host δ κ)

/-- A write of the register block, with guest memory and the FIFO device as the write finds
them. The fuel bounds the walks of a transfer that it starts. -/
structure Access (δ : Type) where
  addr : BitVec 16
  value : Word
  mem : Mem 32
  dev : δ
  fuel : Nat

def step (w : System δ κ) (a : Access δ) : Except (Option Fault) (System δ κ × Unit) :=
  match write host a.fuel { w with mem := a.mem, dev := a.dev } a.addr a.value with
  | none => .error none
  | some (.error fault) => .error (some fault)
  | some (.ok v) => .ok (v, ())

def Deasserts (w : System δ κ) (ch : Channel) : Prop :=
  w.lines.asserted ch = true → ∀ addr fuel, addr &&& 0xff = 0 → channelOf addr = ch →
    ∃ v, write host fuel w addr 0x80000 = some (.ok v) ∧ v.lines.asserted ch = false

/-- The line of every H2FMI channel and the two status bits say the same, and the line can be
deasserted by one write. -/
def Consistent (w : System δ κ) : Prop := ∀ ch, IsH2fmi ch → w.lines.Agree ch ∧ Deasserts host w ch

/-- A plain status write of an H2FMI channel leaves bit 19 as it is, and a start in the write
direction does not acknowledge. -/
structure Balanced (w : System δ κ) (a : Access δ) : Prop where
  store : a.addr &&& 0xff = 0 → IsH2fmi (channelOf a.addr) → a.value &&& 1 = 0 →
    a.value.getLsbD 19 = (w.regs.status (channelOf a.addr)).getLsbD 19
  start : a.addr &&& 0xff = 0 → IsH2fmi (channelOf a.addr) → a.value &&& 1 ≠ 0 →
    w.regs.config (channelOf a.addr) &&& 2 ≠ 0 →
      ¬ (a.value.getLsbD 19 = true ∧ (w.regs.status (channelOf a.addr)).getLsbD 19 = true)

instance (w : System δ κ) (a : Access δ) : Decidable (Balanced w a) :=
  decidable_of_iff
    (a.addr &&& 0xff = 0 ∧ IsH2fmi (channelOf a.addr) →
      (a.value &&& 1 = 0 → a.value.getLsbD 19 = (w.regs.status (channelOf a.addr)).getLsbD 19) ∧
      (a.value &&& 1 ≠ 0 → w.regs.config (channelOf a.addr) &&& 2 ≠ 0 →
        ¬ (a.value.getLsbD 19 = true ∧ (w.regs.status (channelOf a.addr)).getLsbD 19 = true)))
    ⟨fun h ↦ ⟨fun haddr hch ↦ (h ⟨haddr, hch⟩).1, fun haddr hch ↦ (h ⟨haddr, hch⟩).2⟩,
      fun h hop ↦ ⟨h.store hop.1 hop.2, h.start hop.1 hop.2⟩⟩

variable {host}

theorem write_status {addr : BitVec 16} (h : addr &&& 0xff = 0) (fuel : Nat) (w : System δ κ) (value : Word) :
    write host fuel w addr value = writeStatus host fuel w (channelOf addr) value := by
  have hreg : (addr &&& 0xff).toNat = 0 := by rw [h]; rfl
  rw [write]
  simp only [hreg]

theorem write_other {addr : BitVec 16} {fuel : Nat} {w v : System δ κ} {value : Word}
    (hstatus : addr &&& 0xff ≠ 0) (hmaster : addr &&& 0xff ≠ 0x10)
    (h : write host fuel w addr value = some (.ok v)) : v.lines = w.lines := by
  unfold write at h
  dsimp only at h
  split at h
  · exact absurd (BitVec.eq_of_toNat_eq ‹_›) hstatus
  · cases h
    rfl
  · cases h
    rfl
  · cases h
    rfl
  · exact absurd (BitVec.eq_of_toNat_eq ‹_›) hmaster
  · cases h
    unfold writeSegptr
    split_ifs <;> rfl
  · cases h
    rfl

theorem writeStatus_plain {value : Word} (h : value &&& 1 = 0) (fuel : Nat) (w : System δ κ) (ch : Channel) :
    writeStatus host fuel w ch value =
      some (.ok (setStatus (clearIrq w ch value).1 ch (clearIrq w ch value).2)) := by
  rw [writeStatus]
  dsimp only
  rw [clearIrq_and_one, if_neg fun hne ↦ hne h]

theorem writeStatus_refuse (w : System δ κ) {value : Word} {ch : Channel} (hstart : value &&& 1 ≠ 0)
    (hch : IsH2fmi ch) (hdir : w.regs.config ch &&& 2 ≠ 0) (fuel : Nat) :
    writeStatus host fuel w ch value = some (.ok (clearIrq w ch value).1) := by
  have haes : ch ≠ 2 := by
    intro heq
    subst heq
    exact absurd hch (by decide)
  have hconfig : (clearIrq w ch value).1.regs.config ch &&& 2 ≠ 0 := by
    rw [(regs_clearIrq w ch value).1]
    exact hdir
  rw [writeStatus]
  dsimp only
  rw [clearIrq_and_one, if_pos hstart, if_neg haes, if_pos hch, startTransfer, if_pos hconfig]

theorem deasserts_of_agree {w : System δ κ} {ch : Channel} (h : w.lines.Agree ch) : Deasserts host w ch := by
  intro hline addr fuel haddr hch
  have hpending : w.lines.pending ch = true := h.line.symm.trans hline
  have hack : w.lines.acknowledge ch 0x80000 = (w.lines.clear ch, 0x80000 &&& ~~~0x80000) :=
    if_pos ⟨by decide, hpending⟩
  refine ⟨setStatus (clearIrq w ch 0x80000).1 ch (clearIrq w ch 0x80000).2, ?_, ?_⟩
  · rw [write_status haddr, hch]
    exact writeStatus_plain (by decide) fuel w ch
  · have hlines : (clearIrq w ch 0x80000).1.lines = w.lines.clear ch :=
      congrArg Prod.fst ((clearIrq_lines w ch 0x80000).trans hack)
    change (clearIrq w ch 0x80000).1.lines.asserted ch = false
    rw [hlines, Lines.asserted_clear, if_pos rfl]

theorem consistent_iff {w : System δ κ} : Consistent host w ↔ ∀ ch, IsH2fmi ch → w.lines.Agree ch := by
  constructor
  · exact fun h ch hch ↦ (h ch hch).1
  · exact fun h ch hch ↦ ⟨h ch hch, deasserts_of_agree (h ch hch)⟩

theorem step_ok {w v : System δ κ} {a : Access δ} {o : Unit} (h : step host w a = .ok (v, o)) :
    write host a.fuel { w with mem := a.mem, dev := a.dev } a.addr a.value = some (.ok v) := by
  unfold step at h
  split at h
  · cases h
  · cases h
  · cases h
    assumption

theorem consistent_step {w v : System δ κ} {a : Access δ} {o : Unit} (hmaster : a.addr &&& 0xff ≠ 0x10)
    (hw : Consistent host w) (h : step host w a = .ok (v, o)) : Consistent host v ↔ Balanced w a := by
  rw [consistent_iff] at hw ⊢
  have hwrite := step_ok h
  by_cases hstatus : a.addr &&& 0xff = 0
  · rw [write_status hstatus] at hwrite
    have heffect := writeStatus_effect hwrite
    have hself : (∀ ch, IsH2fmi ch → v.lines.Agree ch) ↔
        (IsH2fmi (channelOf a.addr) → v.lines.Agree (channelOf a.addr)) := by
      refine ⟨fun h ↦ h _, fun h ch hch ↦ ?_⟩
      by_cases heq : ch = channelOf a.addr
      · subst heq
        exact h hch
      · exact (agree_other heffect heq).mpr (hw ch hch)
    rw [hself]
    by_cases hch : IsH2fmi (channelOf a.addr)
    · have hiff := agree_effect_iff heffect hch (hw _ hch)
      constructor
      · intro h
        obtain ⟨hplain, hstart⟩ := hiff.mp (h hch)
        exact ⟨fun _ _ ↦ hplain, fun _ _ ↦ hstart⟩
      · intro h _
        exact hiff.mpr ⟨h.store hstatus hch, h.start hstatus hch⟩
    · refine iff_of_true (fun h ↦ absurd h hch) ?_
      exact ⟨fun _ h ↦ absurd h hch, fun _ h ↦ absurd h hch⟩
  · have hlines := write_other hstatus hmaster hwrite
    change v.lines = w.lines at hlines
    refine iff_of_true ?_ ?_
    · rw [hlines]
      exact hw
    · exact ⟨fun h ↦ absurd h hstatus, fun h ↦ absurd h hstatus⟩

theorem balanced_of_fault {w : System δ κ} {a : Access δ}
    (h : ∀ v o, step host w a = .ok (v, o) → Balanced w a) : Balanced w a := by
  have hstep (haddr : a.addr &&& 0xff = 0) (v : System δ κ)
      (hv : writeStatus host a.fuel { w with mem := a.mem, dev := a.dev } (channelOf a.addr) a.value =
        some (.ok v)) : Balanced w a := by
    apply h v ()
    simp only [step, write_status haddr, hv]
  refine ⟨fun haddr hch hstart ↦ ?_, fun haddr hch hstart hdir ↦ ?_⟩
  · exact (hstep haddr _ (writeStatus_plain hstart _ _ _)).store haddr hch hstart
  · exact (hstep haddr _ (writeStatus_refuse { w with mem := a.mem, dev := a.dev } hstart hch hdir _)).start
      haddr hch hstart hdir

/-- From reset, the interrupt lines stay consistent exactly if every status write is balanced. -/
theorem lines_consistent_iff (host : Host δ κ) (key : κ) (mem : Mem 32) (dev : δ) (ops : List (Access δ))
    (hops : ∀ a ∈ ops, a.addr &&& 0xff ≠ 0x10) :
    Throughout (step host) (Consistent host) ⟨{ decryptKey := key }, mem, dev, []⟩ ops ↔
      Attempts (step host) Balanced ⟨{ decryptKey := key }, mem, dev, []⟩ ops := by
  refine throughout_iff_attempts ?_ ?_ ?_
  · rw [consistent_iff]
    intro ch _
    simp [Lines.agree_iff, Lines.asserted, Lines.pending, Lines.master, System.lines]
  · exact fun _ _ _ _ hm hw ht ↦ consistent_step (hops _ hm) hw ht
  · exact fun _ _ h ↦ balanced_of_fault h

end Runs

section Instances

def oneDescriptor (addr : BitVec 16) (value : Word) : Access Unit where
  addr := addr
  value := value
  mem := wordsAt (descriptorAt 0x1000 0 2 0x2000 4)
  dev := ()
  fuel := 2

/-- A transfer on channel 5 that completes. -/
def transferFive : List (Access Unit) :=
  [oneDescriptor 0x5014 0x1000, oneDescriptor 0x500c 4, oneDescriptor 0x5000 1]

theorem lines_consistent_acknowledged :
    (∀ a ∈ transferFive ++ [oneDescriptor 0x5000 0x80000], a.addr &&& 0xff ≠ 0x10) ∧
      Throughout (step onesHost) (Consistent onesHost) ⟨{ decryptKey := () }, fun _ ↦ 0, (), []⟩
        (transferFive ++ [oneDescriptor 0x5000 0x80000]) := by
  have hops : ∀ a ∈ transferFive ++ [oneDescriptor 0x5000 0x80000], a.addr &&& 0xff ≠ 0x10 := by decide +kernel
  refine ⟨hops, (lines_consistent_iff onesHost () (fun _ ↦ 0) () _ hops).mpr ?_⟩
  decide +kernel

/-- A plain write of the status register forgets the interrupt while its line stays up. -/
theorem lines_consistent_fails :
    (∀ a ∈ transferFive ++ [oneDescriptor 0x5000 0], a.addr &&& 0xff ≠ 0x10) ∧
      ¬ Throughout (step onesHost) (Consistent onesHost) ⟨{ decryptKey := () }, fun _ ↦ 0, (), []⟩
        (transferFive ++ [oneDescriptor 0x5000 0]) := by
  refine ⟨by decide +kernel, fun h ↦ ?_⟩
  obtain ⟨w, hr, hw⟩ : ∃ w, Run (step onesHost) ⟨{ decryptKey := () }, fun _ ↦ 0, (), []⟩
      (transferFive ++ [oneDescriptor 0x5000 0]) w ∧ w.lines.asserted 5 ≠ w.lines.pending 5 := by
    refine exists_run_of_exec ?_
    decide +kernel
  exact hw (h _ w (List.prefix_refl _) hr 5 (by decide)).1.line

end Instances

end IDeviceEmulator.Cdma
