import IDeviceEmulator.I2c.Snapshot

namespace IDeviceEmulator.I2c

variable {δ : Type} {n : Nat}

section Bus

variable (bus : Bus δ n)

theorem currentDev_recv : bus.recv.1.currentDev = bus.currentDev := by
  unfold Bus.recv
  split
  · rfl
  · rfl

theorem currentDev_send (data : Byte) : (bus.send data).1.currentDev = bus.currentDev := by
  unfold Bus.send
  split
  · rfl
  · rfl

theorem currentDev_endTransfer : bus.endTransfer.currentDev = none := by
  unfold Bus.endTransfer
  split
  · next hnone => exact hnone
  · rfl

/-- The end of a transfer is a single event of the current slave. -/
theorem endTransfer_of_current {bus : Bus δ n} {i : Fin n} (h : bus.currentDev = some i) :
    bus.endTransfer = { bus.event i .finish with currentDev := none } := by
  rw [Bus.endTransfer, h]

end Bus

section Mode

variable {s t : System δ n}

theorem mode_of_status_eq (h : t.ctrl.status = s.ctrl.status) : t.mode = s.mode := by
  rw [System.mode, System.mode, h]

/-- The bits below the mode are cleared and set without a change of the mode. -/
theorem mode_of_status_and (mask : Byte) (hmask : mask >>> 6 = 3) (h : t.ctrl.status = s.ctrl.status &&& mask) :
    t.mode = s.mode := by
  rw [System.mode, System.mode, h, BitVec.ushiftRight_and_distrib, hmask, BitVec.and_assoc, BitVec.and_self]

theorem mode_of_status_or (mask : Byte) (hmask : mask >>> 6 = 0) (h : t.ctrl.status = s.ctrl.status ||| mask) :
    t.mode = s.mode := by
  rw [System.mode, System.mode, h, BitVec.ushiftRight_or_distrib, hmask]
  exact congrArg (fun x : Byte ↦ (x &&& 3).toNat) BitVec.or_zero

/-- A write of data sets the upper bit of the mode, which a master mode has anyway. -/
theorem or_acken {status : Byte} (h : 2 ≤ status.toNat / 64) : status ||| iicconAcken = status := by
  have hlt := status.isLt
  apply BitVec.eq_of_getLsbD_eq
  intro i hi
  rw [BitVec.getLsbD_or]
  by_cases hseven : i = 7
  · subst hseven
    have hset : status.getLsbD 7 = true := by
      rw [BitVec.getLsbD, Nat.testBit_eq_decide_div_mod_eq, decide_eq_true_iff]
      omega
    rw [hset]
    rfl
  · have hclear : iicconAcken.getLsbD i = false := by
      rw [show iicconAcken = BitVec.twoPow 8 7 by rfl, BitVec.getLsbD_twoPow]
      simp [Ne.symm hseven]
    rw [hclear, Bool.or_false]

end Mode

/-- A transfer is open only while the controller is active, and then it is in a master mode. -/
structure Bracketed (s : System δ n) : Prop where
  flag : s.ctrl.active = 0 ∨ s.ctrl.active = 1
  opened : s.bus.currentDev.isSome → s.ctrl.active = 1
  master : s.ctrl.active = 1 → 2 ≤ s.mode

/-- The transfer is ended, and nothing else is asked of the bus. -/
structure Finishes (s t : System δ n) : Prop where
  calls : t.calls = s.calls ++ [.endTransfer]
  finish : ∀ i, s.bus.currentDev = some i → t.bus = { s.bus.event i .finish with currentDev := none }
  closed : t.bus.currentDev = none
  inactive : t.ctrl.active = 0

section Steps

variable {s t : System δ n}

theorem Bracketed.congr (h : Bracketed s) (hcurrent : t.bus.currentDev = s.bus.currentDev)
    (hactive : t.ctrl.active = s.ctrl.active) (hmode : t.mode = s.mode) : Bracketed t := by
  refine ⟨?_, ?_, ?_⟩
  · rw [hactive]
    exact h.flag
  · rw [hcurrent, hactive]
    exact h.opened
  · rw [hactive, hmode]
    exact h.master

theorem bracketed_inactive (hcurrent : t.bus.currentDev = none) (hactive : t.ctrl.active = 0) : Bracketed t := by
  refine ⟨.inl hactive, fun hopen ↦ ?_, fun hone ↦ ?_⟩
  · rw [hcurrent] at hopen
    exact absurd hopen Bool.false_ne_true
  · rw [hactive] at hone
    exact absurd hone (by decide)

theorem Bracketed.idle (h : Bracketed s) (hactive : s.ctrl.active = 0) : s.bus.currentDev = none := by
  cases hcurrent : s.bus.currentDev with
  | none => rfl
  | some i =>
    have hone := h.opened (by rw [hcurrent]; rfl)
    rw [hactive] at hone
    exact absurd hone (by decide)

theorem bracketed_receive (h : Bracketed s) : Bracketed s.receive :=
  h.congr (currentDev_recv s.bus) rfl rfl

theorem mode_send (h : Bracketed s) (hactive : s.ctrl.active = 1) (data : Byte) : (s.send data).mode = s.mode := by
  have hmaster := h.master hactive
  rw [s.mode_eq] at hmaster
  unfold System.send
  split_ifs
  · exact mode_of_status_eq (or_acken hmaster)
  · rfl

theorem bracketed_send (h : Bracketed s) (data : Byte) : Bracketed (s.send data) := by
  have hcurrent : (s.send data).bus.currentDev = s.bus.currentDev := by
    unfold System.send
    split_ifs
    · exact currentDev_send s.bus data
    · rfl
  have hactive : (s.send data).ctrl.active = s.ctrl.active := by
    unfold System.send
    split_ifs <;> rfl
  rcases h.flag with hzero | hone
  · exact bracketed_inactive (hcurrent.trans (h.idle hzero)) (hactive.trans hzero)
  · exact h.congr hcurrent hactive (mode_send h hone data)

theorem mode_master (value : Word) (recv : Bool) : (s.master value recv).mode = s.mode := by
  unfold System.master
  split_ifs
  · exact mode_of_status_and (~~~iicstatLastbit) (by decide) rfl
  · exact mode_of_status_or iicstatTxrxen (by decide) rfl

/-- A start condition opens a transfer, and anything else ends it. -/
theorem bracketed_master (hmode : 2 ≤ s.mode) (value : Word) (recv : Bool) : Bracketed (s.master value recv) := by
  have hsame := mode_master (s := s) value recv
  unfold System.master at hsame ⊢
  split_ifs at hsame ⊢
  · exact ⟨.inr rfl, fun _ ↦ rfl, fun _ ↦ hsame ▸ hmode⟩
  · exact bracketed_inactive (currentDev_endTransfer s.bus) rfl

theorem bracketed_transfer (h : Bracketed s) (value : Word) : Bracketed (s.transfer value) := by
  unfold System.transfer
  split_ifs
  · split
    · exact bracketed_receive h
    · exact bracketed_receive h
    · next hmode => exact bracketed_master (by omega) value true
    · next hmode => exact bracketed_master (by omega) value false
    · exact h
  · exact h

theorem mode_transfer (value : Word) : (s.transfer value).mode = s.mode := by
  unfold System.transfer
  split_ifs
  · split
    · rfl
    · rfl
    · exact mode_master value true
    · exact mode_master value false
    · rfl
  · rfl

/-- The forced end of the transfer, when the top bits change while the controller is active. -/
theorem finishes_writeStat {value : Word} (hactive : s.ctrl.active = 1) (htoggles : s.toggles value = true) :
    Finishes s (s.writeStat value) := by
  have hne : s.ctrl.active ≠ 0 := by
    rw [hactive]
    decide
  rw [System.writeStat, if_neg fun h ↦ hne h.1, if_pos ⟨hne, htoggles⟩]
  exact ⟨rfl, fun i hi ↦ endTransfer_of_current hi, currentDev_endTransfer s.bus, rfl⟩

theorem writeStat_same {value : Word} (htoggles : s.toggles value = false) :
    s.writeStat value = s.transfer value := by
  rw [System.writeStat, htoggles]
  simp only [Bool.false_eq_true, and_false, if_false]

theorem bracketed_writeStat (h : Bracketed s) (value : Word) : Bracketed (s.writeStat value) := by
  cases htoggles : s.toggles value with
  | false =>
    rw [writeStat_same htoggles]
    exact bracketed_transfer h value
  | true =>
    rcases h.flag with hzero | hone
    · rw [System.writeStat, if_pos ⟨hzero, htoggles⟩]
      refine bracketed_transfer ?_ value
      exact bracketed_inactive (h.idle hzero) hzero
    · have hfinishes := finishes_writeStat hone htoggles
      exact bracketed_inactive hfinishes.closed hfinishes.inactive

theorem status_read (s : System δ n) (offset : Nat) : (s.read offset).1.ctrl.status = s.ctrl.status := by
  unfold System.read
  split_ifs <;> rfl

theorem bracketed_read (h : Bracketed s) (offset : Nat) : Bracketed (s.read offset).1 := by
  have hmode := mode_of_status_eq (status_read s offset)
  unfold System.read at hmode ⊢
  split_ifs at hmode ⊢
  all_goals first | exact h | skip
  · exact h.congr (currentDev_recv s.bus) rfl hmode
  · exact h.congr rfl rfl hmode

theorem status_writeCon (s : System δ n) (value : Word) : (s.writeCon value).ctrl.status = s.ctrl.status := by
  unfold System.writeCon
  dsimp only
  split_ifs <;> rfl

theorem bracketed_writeCon (h : Bracketed s) (value : Word) : Bracketed (s.writeCon value) := by
  have hmode := mode_of_status_eq (status_writeCon s value)
  refine h.congr ?_ ?_ hmode
  · unfold System.writeCon
    dsimp only
    split_ifs <;> rfl
  · unfold System.writeCon
    dsimp only
    split_ifs <;> rfl

theorem bracketed_write (h : Bracketed s) (offset : Nat) (value : Word) : Bracketed (s.write offset value) := by
  unfold System.write
  split_ifs
  · exact bracketed_writeCon h value
  · exact bracketed_writeStat h value
  · exact h.congr rfl rfl rfl
  · exact bracketed_send h _
  · exact h.congr rfl rfl rfl
  · exact h

/-- Only a write of the status changes the mode of an active controller. -/
theorem finishes_write (h : Bracketed s) (hactive : s.ctrl.active = 1) {offset : Nat} {value : Word}
    (hmode : (s.write offset value).mode ≠ s.mode) : Finishes s (s.write offset value) := by
  unfold System.write at hmode ⊢
  split_ifs at hmode ⊢
  · exact absurd (mode_of_status_eq (status_writeCon s value)) hmode
  · cases htoggles : s.toggles value with
    | false =>
      rw [writeStat_same htoggles] at hmode
      exact absurd (mode_transfer value) hmode
    | true => exact finishes_writeStat hactive htoggles
  · exact absurd rfl hmode
  · exact absurd (mode_send h hactive _) hmode
  · exact absurd rfl hmode
  · exact absurd rfl hmode

end Steps

section Runs

variable {s : System δ n}

theorem run_append (s : System δ n) (before after : List Access) :
    run s (before ++ after) = run (run s before) after := by
  induction before generalizing s with
  | nil => rfl
  | cons access rest ih =>
    cases access with
    | read offset => exact ih _
    | write offset value => exact ih _

theorem bracketed_run (h : Bracketed s) (accesses : List Access) : Bracketed (run s accesses) := by
  induction accesses generalizing s with
  | nil => exact h
  | cons access rest ih =>
    cases access with
    | read offset => exact ih (bracketed_read h offset)
    | write offset value => exact ih (bracketed_write h offset value)

/-- The controller and its bus after `s5l8900_i2c_init`, with any slaves. -/
def start (info : Fin n → SlaveInfo δ) (address : Fin n → Byte) (dev : Fin n → δ) : System δ n :=
  { ctrl := {}, bus := { info, address, dev } }

/-- While the bus has a current device the controller is active, and an access that changes the
mode of an active controller ends the transfer and starts none. -/
theorem transfers_bracketed (info : Fin n → SlaveInfo δ) (address : Fin n → Byte) (dev : Fin n → δ)
    (accesses : List Access) :
    ((run (start info address dev) accesses).bus.currentDev.isSome →
      (run (start info address dev) accesses).ctrl.active = 1) ∧
    ∀ access, (run (start info address dev) accesses).ctrl.active ≠ 0 →
      (run (start info address dev) (accesses ++ [access])).mode ≠ (run (start info address dev) accesses).mode →
      Finishes (run (start info address dev) accesses) (run (start info address dev) (accesses ++ [access])) := by
  have hstart : Bracketed (start info address dev) := bracketed_inactive rfl rfl
  have hrun := bracketed_run hstart accesses
  refine ⟨hrun.opened, fun access hactive hmode ↦ ?_⟩
  have hone := hrun.flag.resolve_left hactive
  rw [run_append] at hmode ⊢
  cases access with
  | read offset => exact absurd (mode_of_status_eq (status_read _ offset)) hmode
  | write offset value => exact finishes_write hrun hone hmode

end Runs

/-- A slave that keeps the events it gets. -/
def recorder : SlaveInfo (List Event) := ⟨fun seen e ↦ seen ++ [e], fun seen ↦ (seen, 0), fun seen _ ↦ (seen, 0)⟩

/-- A transfer to the slave at 0x74 is open when the guest asks for a start in the receive mode. -/
theorem forced_finish : Finishes
    (run (start (fun _ : Fin 1 ↦ recorder) (fun _ ↦ 0x74) fun _ ↦ []) [.write i2cds 0xe8, .write i2cstat 0xf0])
    (run (start (fun _ : Fin 1 ↦ recorder) (fun _ ↦ 0x74) fun _ ↦ [])
      ([.write i2cds 0xe8, .write i2cstat 0xf0] ++ [.write i2cstat 0xb0])) ∧
    (run (start (fun _ : Fin 1 ↦ recorder) (fun _ ↦ 0x74) fun _ ↦ [])
      [.write i2cds 0xe8, .write i2cstat 0xf0, .write i2cstat 0xb0]).bus.dev 0 = [.startSend, .finish] := by
  refine ⟨?_, by decide⟩
  exact (transfers_bracketed (fun _ : Fin 1 ↦ recorder) (fun _ ↦ 0x74) (fun _ ↦ [])
    [.write i2cds 0xe8, .write i2cstat 0xf0]).2 (.write i2cstat 0xb0) (by decide) (by decide)

end IDeviceEmulator.I2c
