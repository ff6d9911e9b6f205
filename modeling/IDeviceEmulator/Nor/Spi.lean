import IDeviceEmulator.Nor.Flash

namespace IDeviceEmulator.Nor

open Machine

/-- `S5L8930SPIState`. The level of the interrupt line and whether the timer is armed stand for
`irq` and `timer`. -/
structure Spi where
  pflash : Option Flash
  cmd : Word := 0
  ctrl : Word := 0
  setup : Word := 0
  status : Word := 0
  pin : Word := 0
  txData : Vector Word 10 := Vector.replicate 10 0
  rxData : Word := 0
  clkdiv : Word := 0
  cnt : Word := 0
  idd : Word := 0
  txBuffer : Word := 0
  rxFifoCnt : Word := 0
  irq : Bool := false
  timer : Bool := false

namespace Spi

variable (s : Spi)

/-- A handler that uses the flash. -/
def withFlash {α : Type} (k : Flash → Except Fault α) : Except Fault α :=
  match s.pflash with
  | none => .error .nullDeref
  | some f => k f

/-- `spi_timer`, when the timer expires. -/
def expire : Spi :=
  if s.timer then
    let s := { s with timer := false }
    if s.rxFifoCnt = 0x1e then { s with rxFifoCnt := 0, status := s.status ||| 1, irq := true } else s
  else s

def received (f : Flash) (rxData : Word) : Spi :=
  let s := { s with pflash := some (cmdLen f).1, rxData, status := s.status ||| (cmdLen f).2 <<< 11 }
  if s.rxFifoCnt = 0x1e then { s with irq := false, timer := true }
  else { s with rxFifoCnt := s.rxFifoCnt + 1 }

def readRxdata : Except Fault (Spi × Word) :=
  s.withFlash fun f ↦ (cmdParse f).map fun r ↦ (s.received r.1 r.2, r.2)

/-- `s5l8930_spi_mm_read`. -/
def mmRead (offset : Word) : Except Fault (Spi × Word) :=
  match offset.toNat with
  | 0x00 => .ok (s, s.ctrl)
  | 0x04 => .ok (s, s.setup)
  | 0x08 => .ok ({ s with irq := false }, s.status)
  | 0x0c => .ok (s, s.pin)
  | 0x10 => .ok (s, s.txData[0])
  | 0x20 => s.readRxdata
  | 0x30 => .ok (s, s.clkdiv)
  | 0x34 => .ok (s, s.cnt)
  | 0x38 => .ok (s, s.idd)
  | _ => .ok (s, 0)

def start (f : Flash) : Spi :=
  if s.setup &&& 0x200000 ≠ 0 then
    { s with
      status := 0x400002
      cmd := s.txData[0]
      pflash := some (cmdSet f #v[s.txData[0], s.txData[1], s.txData[2], s.txData[3]])
      irq := true }
  else
    { s with
      pflash := some (cmdLen f).1
      rxFifoCnt := 0
      status := s.status ||| 1 ||| (cmdLen f).2 <<< 11
      irq := true }

def writeTxdata (val : Word) : Except Fault Spi :=
  if h : s.txBuffer.toNat < 10 then
    .ok { s with txData := s.txData.set s.txBuffer.toNat val h, txBuffer := s.txBuffer + 1 }
  else .error .txRange

/-- `s5l8930_spi_mm_write`. -/
def mmWrite (offset val : Word) : Except Fault Spi :=
  match offset.toNat with
  | 0x00 => if val &&& 1 ≠ 0 then s.withFlash fun f ↦ .ok (s.start f) else .ok s
  | 0x04 => .ok { s with setup := val }
  | 0x08 => .ok { s with irq := false, status := 0, txBuffer := 0 }
  | 0x0c => .ok { s with pin := val }
  | 0x10 => s.writeTxdata val
  | 0x20 => .ok { s with rxData := val }
  | 0x30 => .ok { s with clkdiv := val }
  | 0x34 => s.withFlash fun f ↦ .ok { s with pflash := some (setRxlen f val), cnt := val }
  | 0x38 => .ok { s with idd := val }
  | _ => .ok s

end Spi

inductive Access
  | read (offset : Word)
  | write (offset val : Word)
  | expire
deriving DecidableEq

def Access.guest : Access → Bool
  | expire => false
  | _ => true

def access (s : Spi) : Access → Except Fault (Spi × Option Word)
  | .read offset => (s.mmRead offset).map fun r ↦ (r.1, some r.2)
  | .write offset val => (s.mmWrite offset val).map fun t ↦ (t, none)
  | .expire => .ok (s.expire, none)

/-- The words with which a guest clears the status, sets up the two directions and starts. -/
structure Words where
  clear : Word
  tx : Word
  rx : Word
  startTx : Word
  startRx : Word

structure Words.Valid (w : Words) : Prop where
  tx : w.tx &&& 0x200000 ≠ 0
  rx : w.rx &&& 0x200000 = 0
  startTx : w.startTx &&& 1 ≠ 0
  startRx : w.startRx &&& 1 ≠ 0

def readCommand (w : Words) (addr : BitVec 24) (n : Word) : List Access :=
  [.write 0x08 w.clear, .write 0x10 0x03, .write 0x10 ((addr >>> 16).setWidth 32),
    .write 0x10 ((addr >>> 8 &&& 0xff).setWidth 32), .write 0x10 ((addr &&& 0xff).setWidth 32),
    .write 0x04 w.tx, .write 0x00 w.startTx, .write 0x34 n, .write 0x04 w.rx, .write 0x00 w.startRx]

/-- The bytes that a `READ` of the flash returns. -/
def Flash.slice (f : Flash) (addr n : Nat) : List Word :=
  ((f.storage.toList.drop addr).take n).map fun b ↦ b.setWidth 32

section Transaction

variable {s : Spi} {f : Flash}

theorem withFlash_some {α : Type} (h : s.pflash = some f) (k : Flash → Except Fault α) : s.withFlash k = k f := by
  rw [Spi.withFlash, h]

theorem start_tx (h : s.setup &&& 0x200000 ≠ 0) : (s.start f).pflash =
    some (cmdSet f #v[s.txData[0], s.txData[1], s.txData[2], s.txData[3]]) := by
  rw [Spi.start, if_pos h]

theorem start_rx (h : s.setup &&& 0x200000 = 0) (hcmd : f.cmd ≠ 0x9f) : (s.start f).pflash = some f := by
  rw [Spi.start, if_neg fun hne ↦ hne h, cmdLen_other hcmd]

theorem access_control {val : Word} (hval : val &&& 1 ≠ 0) (hf : s.pflash = some f) :
    access s (.write 0x00 val) = .ok (s.start f, none) := by
  have h : s.mmWrite 0x00 val = .ok (s.start f) := by
    rw [← withFlash_some hf fun f ↦ .ok (s.start f)]
    exact if_pos hval
  rw [access, h]
  rfl

theorem access_cnt (hf : s.pflash = some f) (n : Word) :
    access s (.write 0x34 n) = .ok ({ s with pflash := some (setRxlen f n), cnt := n }, none) := by
  have h : s.mmWrite 0x34 n = .ok { s with pflash := some (setRxlen f n), cnt := n } :=
    withFlash_some hf _
  rw [access, h]
  rfl

theorem exec_readCommand {w : Words} (hw : w.Valid) (hf : s.pflash = some f) (addr : BitVec 24) (n : Word) :
    ∃ t, exec access s (readCommand w addr n) = .ok (t, List.replicate 10 none) ∧
      t.pflash = some ((Command.read addr n).issue f) := by
  -- The status write puts the transmit index back, so the four words go to the first places.
  let s₁ : Spi := { s with
    irq := false, status := 0, txBuffer := 4, setup := w.tx
    txData := (((s.txData.set 0 0x03).set 1 ((addr >>> 16).setWidth 32)).set 2
      ((addr >>> 8 &&& 0xff).setWidth 32)).set 3 ((addr &&& 0xff).setWidth 32) }
  have h₁ : exec access s ((readCommand w addr n).take 6) = .ok (s₁, List.replicate 6 none) := rfl
  have hwords : #v[s₁.txData[0], s₁.txData[1], s₁.txData[2], s₁.txData[3]] = (Command.read addr n).words := by
    simp [s₁, Command.words]
  let s₂ := s₁.start f
  have h₂ : access s₁ (.write 0x00 w.startTx) = .ok (s₂, none) := access_control hw.startTx hf
  have hf₂ : s₂.pflash = some (cmdSet f (Command.read addr n).words) := by
    rw [← hwords]
    exact start_tx hw.tx
  let s₃ : Spi := { s₂ with pflash := some ((Command.read addr n).issue f), cnt := n }
  have h₃ : access s₂ (.write 0x34 n) = .ok (s₃, none) := access_cnt hf₂ n
  let s₄ : Spi := { s₃ with setup := w.rx }
  have h₄ : access s₃ (.write 0x04 w.rx) = .ok (s₄, none) := rfl
  have h₅ : access s₄ (.write 0x00 w.startRx) = .ok (s₄.start ((Command.read addr n).issue f), none) :=
    access_control hw.startRx rfl
  refine ⟨_, exec_append h₁ (exec_cons h₂ (exec_cons h₃ (exec_cons h₄ (exec_cons h₅ rfl)))), ?_⟩
  refine start_rx hw.rx ?_
  rw [issue_read]
  exact (by decide : (0x03 : Byte) ≠ 0x9f)

theorem received_pflash (g : Flash) (v : Word) : (s.received g v).pflash = some (cmdLen g).1 := by
  simp only [Spi.received]
  split_ifs <;> rfl

theorem access_rxdata {g : Flash} {v : Word} (hf : s.pflash = some f) (hparse : cmdParse f = .ok (g, v))
    (hcmd : g.cmd ≠ 0x9f) : ∃ t, access s (.read 0x20) = .ok (t, some v) ∧ t.pflash = some g := by
  have h : s.mmRead 0x20 = .ok (s.received g v, v) := by
    have hread : s.readRxdata = (cmdParse f).map fun r ↦ (s.received r.1 r.2, r.2) := withFlash_some hf _
    rw [hparse] at hread
    exact hread
  refine ⟨s.received g v, ?_, ?_⟩
  · rw [access, h]
    rfl
  · rw [received_pflash, cmdLen_other hcmd]

theorem exec_rxdata_zero (hf : s.pflash = some f) (hcmd : f.cmd = 0x03) (hlen : f.rxLen = 0) (k : Nat) :
    ∃ t, exec access s (List.replicate k (.read 0x20)) = .ok (t, List.replicate k (some 0)) ∧
      t.pflash = some f := by
  induction k generalizing s with
  | zero => exact ⟨s, rfl, hf⟩
  | succ k ih =>
    obtain ⟨t, ht, hft⟩ := access_rxdata hf (cmdParse_read_zero hcmd hlen) (by rw [hcmd]; decide)
    obtain ⟨u, hu, hfu⟩ := ih hft
    exact ⟨u, exec_cons ht hu, hfu⟩

/-- The bytes still to come are read in order, and each moves the cursor on. -/
theorem exec_rxdata (hf : s.pflash = some f) (hcmd : f.cmd = 0x03) {n : Nat} (hlen : f.rxLen = BitVec.ofNat 32 n)
    (hfits : f.wordRx.toNat + n ≤ f.chipLen.toNat) :
    ∃ t, exec access s (List.replicate n (.read 0x20)) =
        .ok (t, (f.slice f.wordRx.toNat n).map some) ∧
      t.pflash = some { f with rxLen := 0, wordRx := f.wordRx + BitVec.ofNat 32 n } := by
  induction n generalizing s f with
  | zero =>
    refine ⟨s, by simp [exec, Flash.slice], ?_⟩
    have hzero : f.rxLen = 0 := hlen
    rw [hf, ← hzero]
    simp
  | succ n ih =>
    have hchip := f.chipLen.isLt
    have hlt : f.wordRx.toNat < f.chipLen.toNat := by omega
    have hone : (1 : Word).toNat = 1 := rfl
    have hne : f.rxLen ≠ 0 := by
      intro heq
      have hnat := congrArg BitVec.toNat (hlen.symm.trans heq)
      rw [BitVec.toNat_ofNat] at hnat
      change (n + 1) % 2 ^ 32 = 0 at hnat
      omega
    have hnext : f.rxLen - 1 = BitVec.ofNat 32 n := by
      rw [hlen, BitVec.ofNat_add]
      exact BitVec.add_sub_cancel _ _
    have hword : (f.wordRx + 1).toNat = f.wordRx.toNat + 1 := by
      rw [BitVec.toNat_add, hone, Nat.mod_eq_of_lt (by omega)]
    have hparse := cmdParse_read hcmd hne (Vector.getElem?_eq_getElem hlt)
    obtain ⟨t, ht, hft⟩ := access_rxdata hf hparse (by rw [hcmd]; decide)
    have hfits' : (f.wordRx + 1).toNat + n ≤ f.chipLen.toNat := by
      rw [hword]
      omega
    obtain ⟨u, hu, hfu⟩ := ih hft hcmd hnext hfits'
    refine ⟨u, ?_, ?_⟩
    · rw [hword] at hu
      have hslice : f.slice f.wordRx.toNat (n + 1) =
          f.storage[f.wordRx.toNat].setWidth 32 :: f.slice (f.wordRx.toNat + 1) n := by
        rw [Flash.slice, List.drop_eq_getElem_cons (by simpa using hlt)]
        rfl
      rw [hslice]
      exact exec_cons ht hu
    · rw [hfu, BitVec.add_assoc, Nat.add_comm n 1, BitVec.ofNat_add]
      rfl

end Transaction

section Registers

theorem mmRead_other {offset : Word} (h : offset ≠ 0x20) (s : Spi) :
    ∃ irq v, s.mmRead offset = .ok ({ s with irq }, v) := by
  unfold Spi.mmRead
  split
  all_goals first | exact ⟨_, _, rfl⟩ | skip
  rename_i hoffset
  exact (h (BitVec.eq_of_toNat_eq hoffset)).elim

theorem not_mem_registers {offset : Word} (hcontrol : offset ≠ 0x00) (hstatus : offset ≠ 0x08) (htx : offset ≠ 0x10)
    (hcnt : offset ≠ 0x34) : offset ∉ [0x00, 0x08, 0x10, 0x34] := by
  simp only [List.mem_cons, List.not_mem_nil, not_or]
  exact ⟨hcontrol, hstatus, htx, hcnt, id⟩

/-- The other registers are plain storage. -/
theorem mmWrite_other {offset : Word} (h : offset ∉ [0x00, 0x08, 0x10, 0x34]) (s : Spi) (val : Word) :
    ∃ t, s.mmWrite offset val = .ok t ∧ t.pflash = s.pflash ∧ t.status = s.status ∧ t.txBuffer = s.txBuffer := by
  have habsurd {k : Word} (hk : k ∈ [0x00, 0x08, 0x10, 0x34]) {P : Prop} (hoffset : offset.toNat = k.toNat) : P := by
    rw [← BitVec.eq_of_toNat_eq hoffset] at hk
    exact absurd hk h
  unfold Spi.mmWrite
  split
  · rename_i hoffset
    exact habsurd (k := 0x00) (by decide) hoffset
  · exact ⟨_, rfl, rfl, rfl, rfl⟩
  · rename_i hoffset
    exact habsurd (k := 0x08) (by decide) hoffset
  · exact ⟨_, rfl, rfl, rfl, rfl⟩
  · rename_i hoffset
    exact habsurd (k := 0x10) (by decide) hoffset
  · exact ⟨_, rfl, rfl, rfl, rfl⟩
  · exact ⟨_, rfl, rfl, rfl, rfl⟩
  · rename_i hoffset
    exact habsurd (k := 0x34) (by decide) hoffset
  · exact ⟨_, rfl, rfl, rfl, rfl⟩
  · exact ⟨_, rfl, rfl, rfl, rfl⟩

end Registers

section Timer

/-- The parts of the controller that a transfer depends on. -/
def Spi.view (s : Spi) : Option Flash × Word × Vector Word 10 × Word :=
  (s.pflash, s.setup, s.txData, s.txBuffer)

theorem view_expire (s : Spi) : s.expire.view = s.view := by
  simp only [Spi.expire]
  split_ifs <;> rfl

theorem view_start {s t : Spi} (h : s.view = t.view) (f : Flash) : (s.start f).view = (t.start f).view := by
  simp only [Spi.view, Prod.mk.injEq] at h
  obtain ⟨hflash, hsetup, htx, hindex⟩ := h
  simp only [Spi.start, hsetup, htx]
  split_ifs
  · simp only [Spi.view, hindex]
  · simp only [Spi.view, hindex]

theorem view_received {s t : Spi} (h : s.view = t.view) (f : Flash) (v : Word) :
    (s.received f v).view = (t.received f v).view := by
  have hview (r : Spi) : (r.received f v).view = (some (cmdLen f).1, r.setup, r.txData, r.txBuffer) := by
    simp only [Spi.received]
    split_ifs <;> rfl
  simp only [Spi.view, Prod.mk.injEq] at h
  simp only [hview, h]

theorem view_mmWrite {s t : Spi} (h : s.view = t.view) (offset val : Word) :
    (s.mmWrite offset val).map Spi.view = (t.mmWrite offset val).map Spi.view := by
  have hparts := h
  simp only [Spi.view, Prod.mk.injEq] at hparts
  obtain ⟨hflash, hsetup, htx, hindex⟩ := hparts
  have hview {r r' : Spi} (heq : r.view = r'.view) :
      (Except.ok r : Except Fault Spi).map Spi.view = (Except.ok r').map Spi.view := congrArg Except.ok heq
  unfold Spi.mmWrite
  split
  · split_ifs
    · simp only [Spi.withFlash, hflash]
      split
      · rfl
      · exact hview (view_start h _)
    · exact hview h
  · exact hview (by simp only [Spi.view, hflash, htx, hindex])
  · exact hview (by simp only [Spi.view, hflash, hsetup, htx])
  · exact hview h
  · simp only [Spi.writeTxdata, hindex, htx]
    split_ifs
    · exact hview (by simp only [Spi.view, hflash, hsetup])
    · rfl
  · exact hview h
  · exact hview h
  · simp only [Spi.withFlash, hflash]
    split
    · rfl
    · exact hview (by simp only [Spi.view, hsetup, htx, hindex])
  · exact hview h
  · exact hview h

theorem view_readRxdata {s t : Spi} (h : s.view = t.view) :
    (s.readRxdata).map (fun r ↦ (r.1.view, r.2)) = (t.readRxdata).map fun r ↦ (r.1.view, r.2) := by
  have hflash : s.pflash = t.pflash := congrArg Prod.fst h
  simp only [Spi.readRxdata, Spi.withFlash, hflash]
  split
  · rfl
  · cases cmdParse _ with
    | error e => rfl
    | ok r =>
      simp only [Except.map, view_received h]

theorem access_expire {s t : Spi} {a : Access} (ha : a.guest = false) (h : s.view = t.view) :
    ∃ s', access s a = .ok (s', none) ∧ s'.view = t.view := by
  cases a with
  | read offset => cases ha
  | write offset val => cases ha
  | expire => exact ⟨s.expire, rfl, (view_expire s).trans h⟩

theorem access_of_view {s t t' : Spi} {a : Access} {o : Option Word} (ha : a.guest = true)
    (hread : ∀ offset, a = .read offset → offset = 0x20) (h : s.view = t.view)
    (ht : access t a = .ok (t', o)) : ∃ s', access s a = .ok (s', o) ∧ s'.view = t'.view := by
  cases a with
  | read offset =>
    cases hread offset rfl
    have hmap : (s.mmRead 0x20).map (fun r ↦ (r.1.view, r.2)) = (t.mmRead 0x20).map fun r ↦ (r.1.view, r.2) :=
      view_readRxdata h
    obtain ⟨⟨t₁, v⟩, ht₁, heq⟩ := ok_of_map ht
    cases heq
    rw [ht₁] at hmap
    obtain ⟨⟨s₁, v₁⟩, hs₁, heq⟩ := ok_of_map hmap
    obtain ⟨hview, rfl⟩ := Prod.mk.inj heq
    exact ⟨s₁, by rw [access, hs₁]; rfl, hview.symm⟩
  | write offset val =>
    have hmap := view_mmWrite h offset val
    obtain ⟨t₁, ht₁, heq⟩ := ok_of_map ht
    cases heq
    rw [ht₁] at hmap
    obtain ⟨s₁, hs₁, hview⟩ := ok_of_map hmap
    exact ⟨s₁, by rw [access, hs₁]; rfl, hview.symm⟩
  | expire => cases ha

end Timer

/-- In any state of the controller and the flash, also while the timer expires, the guest
reads the bytes at the address in order and zeros behind them. -/
theorem read_returns_storage {s : Spi} {f : Flash} (hf : s.pflash = some f) {w : Words} (hw : w.Valid)
    (addr : BitVec 24) (n : Word) (hfits : addr.toNat + n.toNat ≤ f.chipLen.toNat) (k : Nat) {ops : List Access}
    (hops : ops.filter Access.guest = readCommand w addr n ++ List.replicate (n.toNat + k) (.read 0x20)) :
    ∃ t os, exec access s ops = .ok (t, os) ∧
      os.reduceOption = f.slice addr.toNat n.toNat ++ List.replicate k 0 ∧
      t.pflash = some { f with cmd := 0x03, rxLen := 0, wordRx := addr.setWidth 32 + n } := by
  have haddr : (addr.setWidth 32).toNat = addr.toNat := by
    have hlt := addr.isLt
    rw [BitVec.toNat_setWidth]
    omega
  obtain ⟨s₁, h₁, hf₁⟩ := exec_readCommand hw hf addr n
  rw [issue_read] at hf₁
  obtain ⟨s₂, h₂, hf₂⟩ := exec_rxdata (n := n.toNat) hf₁ rfl (by simp) (by rw [haddr]; exact hfits)
  obtain ⟨s₃, h₃, hf₃⟩ := exec_rxdata_zero hf₂ rfl rfl k
  have hexec := exec_append h₁ (exec_append h₂ h₃)
  rw [List.replicate_append_replicate, ← hops] at hexec
  have hreads : ∀ a ∈ ops.filter Access.guest, ∀ offset, a = .read offset → offset = 0x20 := by
    intro a ha offset heq
    subst heq
    rw [hops] at ha
    simp only [readCommand, List.mem_append, List.mem_cons, List.mem_replicate, reduceCtorEq,
      List.not_mem_nil, false_or, Access.read.injEq] at ha
    exact ha.2
  obtain ⟨t, os, ht, hview, hos⟩ := exec_of_filter (R := fun s t ↦ s.view = t.view)
    (fun _ _ _ ha hR ↦ access_expire ha hR)
    (fun _ _ a _ _ ha hR hstep ↦ access_of_view (List.mem_filter.mp ha).2 (hreads a ha) hR hstep) rfl hexec
  refine ⟨t, os, ht, ?_, ?_⟩
  · have hsome (l : List Word) : (l.map some).reduceOption = l := by
      rw [List.reduceOption, List.filterMap_map]
      exact List.filterMap_some
    have hzeros : List.replicate k (some (0 : Word)) = (List.replicate k 0).map some := by simp
    rw [hos, List.reduceOption_append, List.reduceOption_append, List.reduceOption_replicate_none, hzeros,
      hsome, hsome, List.nil_append, haddr]
    rfl
  · have hflash : t.pflash = s₃.pflash := congrArg Prod.fst hview
    rw [hflash, hf₃]
    simp

theorem read_returns_storage_bytes : ∃ t os,
    exec access { pflash := some sampleFlash, txBuffer := 10, timer := true, rxFifoCnt := 0x1e }
      (.expire :: readCommand ⟨0, 0x200000, 0, 1, 1⟩ 1 2 ++ List.replicate 3 (.read 0x20)) = .ok (t, os) ∧
    os.reduceOption = [0x11, 0x12, 0] := by
  have hops : (Access.expire :: readCommand ⟨0, 0x200000, 0, 1, 1⟩ 1 2 ++ List.replicate 3 (Access.read 0x20)).filter
      Access.guest = readCommand ⟨0, 0x200000, 0, 1, 1⟩ 1 2 ++
        List.replicate ((2 : Word).toNat + 1) (.read 0x20) := by decide +kernel
  obtain ⟨t, os, hexec, hos, -⟩ := read_returns_storage
    (s := { pflash := some sampleFlash, txBuffer := 10, timer := true, rxFifoCnt := 0x1e }) rfl
    (w := ⟨0, 0x200000, 0, 1, 1⟩) ⟨by decide, by decide, by decide, by decide⟩ 1 2 (by decide) 1 hops
  refine ⟨t, os, hexec, hos.trans ?_⟩
  decide +kernel

end IDeviceEmulator.Nor
