import IDeviceEmulator.I2c.Bus
import IDeviceEmulator.Library.Machine

namespace IDeviceEmulator.I2c.Smbus

open Machine

inductive Mode
  | idle
  | writeData
  | recvByte
  | readData
  | done
  | confused
deriving DecidableEq

/-- `SMBusDeviceInfo`: the callbacks that a device provides. -/
structure DeviceInfo (δ : Type) where
  quickCmd : Option (δ → Bool → δ) := none
  sendByte : Option (δ → Byte → δ) := none
  receiveByte : Option (δ → δ × Byte) := none
  writeData : Option (δ → Byte → List Byte → δ) := none
  readData : Option (δ → Byte → Nat → δ × Byte) := none

/-- The size of `data_buf`: a command, a length and 32 bytes of data. -/
abbrev bufSize : Nat := 34

/-- `SMBusDevice`, with the state that the callbacks work on. -/
structure Device (δ : Type) where
  dev : δ
  mode : Mode := .idle
  dataLen : Nat := 0
  dataBuf : Vector Byte bufSize := Vector.replicate bufSize 0
  command : Byte := 0

inductive Fault
  /-- A write behind the end of `data_buf`. -/
  | outOfBounds
deriving DecidableEq

section Callbacks

variable {δ : Type} (info : DeviceInfo δ) (d : Device δ)

def Device.buffered : List Byte := d.dataBuf.toList.take d.dataLen

def doQuickCmd (recv : Bool) : Device δ :=
  match info.quickCmd with
  | some quickCmd => { d with dev := quickCmd d.dev recv }
  | none => d

/-- The device, and the bytes that a callback for a write has seen. -/
def doWrite : Device δ × Option (List Byte) :=
  if d.dataLen = 0 then (doQuickCmd info d false, none)
  else if d.dataLen = 1 then
    match info.sendByte with
    | some sendByte => ({ d with dev := sendByte d.dev d.dataBuf[0] }, some [d.dataBuf[0]])
    | none => (d, none)
  else
    let d := { d with command := d.dataBuf[0] }
    match info.writeData with
    | some writeData =>
      ({ d with dev := writeData d.dev d.command (d.buffered.drop 1) }, some (d.command :: d.buffered.drop 1))
    | none => (d, none)

def startSend : Device δ :=
  match d.mode with
  | .idle => { d with mode := .writeData }
  | _ => { d with mode := .confused }

def startRecv : Device δ × Option (List Byte) :=
  match d.mode with
  | .idle => ({ d with mode := .recvByte }, none)
  | .writeData =>
    if d.dataLen = 0 then ({ d with mode := .confused }, none)
    else
      let r := if d.dataLen > 1 then doWrite info d else ({ d with command := d.dataBuf[0] }, none)
      ({ r.1 with dataLen := 0, mode := .readData }, r.2)
  | _ => ({ d with mode := .confused }, none)

def finish : Device δ × Option (List Byte) :=
  let r :=
    match d.mode with
    | .writeData => doWrite info d
    | .recvByte => (doQuickCmd info d true, none)
    | _ => (d, none)
  ({ r.1 with mode := .idle, dataLen := 0 }, r.2)

def nack : Device δ :=
  match d.mode with
  | .done => d
  | .readData => { d with mode := .done }
  | _ => { d with mode := .confused }

/-- `smbus_i2c_event`. -/
def event : Event → Device δ × Option (List Byte)
  | .startSend => (startSend d, none)
  | .startRecv => startRecv info d
  | .finish => finish info d
  | .nack => (nack d, none)

def recv : Device δ × Byte :=
  match d.mode with
  | .recvByte =>
    match info.receiveByte with
    | some receiveByte =>
      let r := receiveByte d.dev
      ({ d with dev := r.1, mode := .done }, r.2)
    | none => ({ d with mode := .done }, 0)
  | .readData =>
    match info.readData with
    | some readData =>
      let r := readData d.dev d.command d.dataLen
      ({ d with dev := r.1, dataLen := d.dataLen + 1 }, r.2)
    | none => (d, 0)
  | _ => ({ d with mode := .confused }, 0)

def send (data : Byte) : Except Fault (Device δ) :=
  match d.mode with
  | .writeData =>
    if h : d.dataLen < bufSize then
      .ok { d with dataBuf := d.dataBuf.set d.dataLen data, dataLen := d.dataLen + 1 }
    else .error .outOfBounds
  | _ => .ok d

end Callbacks

inductive Op
  | event (e : Event)
  | send (data : Byte)
  | recv
deriving DecidableEq

/-- What a master has done so far: nothing since the last stop condition, or a write with some
bytes, or anything else. -/
inductive Phase
  | idle
  | writing (bytes : List Byte)
  | other
deriving DecidableEq

def Phase.next : Phase → Op → Phase
  | _, .event .finish => .idle
  | .idle, .event .startSend => .writing []
  | .idle, .send _ => .idle
  | .writing bytes, .send data => .writing (bytes ++ [data])
  | _, _ => .other

def Phase.bytes : Phase → List Byte
  | .writing bytes => bytes
  | _ => []

/-- A device with the transaction that its master has made, and for each callback of a write the
bytes that it has seen beside those of the transaction. -/
structure Session (δ : Type) where
  device : Device δ
  phase : Phase := .idle
  seen : List (List Byte × List Byte) := []

section Session

variable {δ : Type} (info : DeviceInfo δ)

def step (s : Session δ) : Op → Except Fault (Session δ × Byte)
  | .event e =>
    let r := event info s.device e
    .ok (⟨r.1, s.phase.next (.event e), s.seen ++ r.2.toList.map fun bytes ↦ (bytes, s.phase.bytes)⟩, 0)
  | .send data => (send s.device data).map fun device ↦ ({ s with device, phase := s.phase.next (.send data) }, 0)
  | .recv => .ok ({ s with device := (recv info s.device).1, phase := s.phase.next .recv }, (recv info s.device).2)

/-- The write into the buffer is inside it. -/
def InBounds (s : Session δ) (op : Op) : Prop :=
  ∀ data, op = .send data → s.device.mode = .writeData → s.device.dataLen < bufSize

/-- An idle device has no data, and the callbacks see the bytes of their transaction. -/
structure Current (s : Session δ) : Prop where
  idle : s.device.mode = .idle → s.device.dataLen = 0
  seen : ∀ p ∈ s.seen, p.1 = p.2

def Stopped (pre : List Op) : Prop := pre = [] ∨ ∃ older, pre = older ++ [.event .finish]

/-- A write of a block after stray bytes. -/
def writeOps (pre : List Op) (stray block : List Byte) : List Op :=
  pre ++ stray.map .send ++ .event .startSend :: block.map .send

/-- A write of more bytes than the buffer holds. It starts on an idle bus: at the beginning or
after a stop condition, with at most stray bytes before it. -/
def Overlong (ops : List Op) : Prop :=
  ∃ pre stray block, writeOps pre stray block <+: ops ∧ Stopped pre ∧ bufSize < block.length

end Session

section Tracking

variable {δ : Type} {info : DeviceInfo δ} {d : Device δ}

/-- What the transaction so far says about the device. -/
def Tracks (d : Device δ) : Phase → Prop
  | .idle => d.mode = .idle ∧ d.dataLen = 0
  | .writing bytes => d.mode = .writeData ∧ d.dataLen = bytes.length ∧ d.buffered = bytes
  | .other => d.mode ≠ .idle ∧ d.mode ≠ .writeData

theorem buffered_eq_cons (hne : d.dataLen ≠ 0) : d.buffered = d.dataBuf[0] :: d.buffered.drop 1 := by
  have hpos : 0 < d.buffered.length := by
    rw [Device.buffered, List.length_take, Vector.length_toList]
    exact Nat.lt_min.mpr ⟨Nat.pos_of_ne_zero hne, by decide⟩
  have hhead : d.buffered[0] = d.dataBuf[0] := List.getElem_take
  rw [← hhead, List.getElem_cons_drop hpos]
  rfl

theorem doWrite_seen {bytes : List Byte} (h : (doWrite info d).2 = some bytes) : bytes = d.buffered := by
  unfold doWrite at h
  split_ifs at h with hzero hone
  · have hbuffered : d.buffered = [d.dataBuf[0]] := by
      rw [buffered_eq_cons hzero, Device.buffered, List.drop_take, hone, Nat.sub_self, List.take_zero]
    split at h
    · rw [hbuffered]
      exact (Option.some.inj h).symm
    · contradiction
  · dsimp only at h
    split at h
    · rw [buffered_eq_cons hzero]
      exact (Option.some.inj h).symm
    · contradiction

theorem tracks_send {data : Byte} {e : Device δ} {phase : Phase} (h : Tracks d phase) (hs : send d data = .ok e) :
    Tracks e (phase.next (.send data)) := by
  cases phase with
  | idle =>
    rw [send, h.1] at hs
    cases hs
    exact h
  | writing bytes =>
    obtain ⟨hmode, hlen, hbuffered⟩ := h
    rw [send, hmode] at hs
    dsimp only at hs
    split_ifs at hs with hlt
    cases hs
    refine ⟨rfl, ?_, ?_⟩
    · rw [List.length_append, List.length_singleton, ← hlen]
    · have hin : d.dataLen < d.dataBuf.toList.length := by rwa [Vector.length_toList]
      unfold Device.buffered at hbuffered ⊢
      rw [Vector.toList_set, List.take_add_one, List.take_set_of_le (Nat.le_refl _), hbuffered,
        List.getElem?_set_self hin]
      rfl
  | other =>
    rw [send.eq_def] at hs
    split at hs
    · next hmode => exact absurd hmode h.2
    · cases hs
      exact h

theorem tracks_recv {phase : Phase} (h : Tracks d phase) : Tracks (recv info d).1 (phase.next .recv) := by
  have hnext : phase.next .recv = .other := by cases phase <;> rfl
  rw [hnext]
  unfold recv
  split
  · split
    · exact ⟨nofun, nofun⟩
    · exact ⟨nofun, nofun⟩
  · next hmode =>
    split
    · exact ⟨by simp [hmode], by simp [hmode]⟩
    · exact ⟨by simp [hmode], by simp [hmode]⟩
  · exact ⟨nofun, nofun⟩

theorem tracks_event {phase : Phase} (e : Event) (h : Tracks d phase) :
    Tracks (event info d e).1 (phase.next (.event e)) := by
  cases e with
  | finish => exact ⟨rfl, rfl⟩
  | startSend =>
    cases phase with
    | idle =>
      obtain ⟨hmode, hlen⟩ := h
      have hstart : startSend d = { d with mode := .writeData } := by rw [startSend, hmode]
      refine ⟨?_, ?_, ?_⟩
      · change (startSend d).mode = _
        rw [hstart]
      · change (startSend d).dataLen = _
        rw [hstart]
        exact hlen
      · change (startSend d).buffered = _
        rw [hstart]
        unfold Device.buffered
        rw [hlen, List.take_zero]
    | writing bytes =>
      change Tracks (startSend d) .other
      rw [startSend, h.1]
      exact ⟨nofun, nofun⟩
    | other =>
      change Tracks (startSend d) .other
      unfold startSend
      split
      · next hmode => exact absurd hmode h.1
      · exact ⟨nofun, nofun⟩
  | startRecv =>
    have hnext : phase.next (.event .startRecv) = .other := by cases phase <;> rfl
    rw [hnext]
    change Tracks (startRecv info d).1 .other
    unfold startRecv
    split
    · exact ⟨nofun, nofun⟩
    · split_ifs
      · exact ⟨nofun, nofun⟩
      · exact ⟨nofun, nofun⟩
      · exact ⟨nofun, nofun⟩
    · exact ⟨nofun, nofun⟩
  | nack =>
    have hnext : phase.next (.event .nack) = .other := by cases phase <;> rfl
    rw [hnext]
    change Tracks (nack d) .other
    unfold nack
    split
    · next hmode => exact ⟨by simp [hmode], by simp [hmode]⟩
    · exact ⟨nofun, nofun⟩
    · exact ⟨nofun, nofun⟩

theorem event_seen {e : Event} {bytes : List Byte} (h : (event info d e).2 = some bytes) :
    d.mode = .writeData ∧ bytes = d.buffered := by
  cases e with
  | startSend => contradiction
  | nack => contradiction
  | startRecv =>
    change (startRecv info d).2 = some bytes at h
    unfold startRecv at h
    split at h
    · contradiction
    · next hmode =>
      split_ifs at h
      · exact ⟨hmode, doWrite_seen h⟩
    · contradiction
  | finish =>
    change (finish info d).2 = some bytes at h
    unfold finish at h
    dsimp only at h
    split at h
    · next hmode => exact ⟨hmode, doWrite_seen h⟩
    · contradiction
    · contradiction

theorem Tracks.buffered {phase : Phase} (h : Tracks d phase) (hmode : d.mode = .writeData) :
    d.dataLen = phase.bytes.length ∧ d.buffered = phase.bytes := by
  cases phase with
  | idle => simp [h.1] at hmode
  | writing bytes => exact h.2
  | other => exact absurd hmode h.2

structure Traced (s : Session δ) : Prop where
  tracks : Tracks s.device s.phase
  seen : ∀ p ∈ s.seen, p.1 = p.2

theorem traced_step {s t : Session δ} {op : Op} {o : Byte} (h : Traced s) (hs : step info s op = .ok (t, o)) :
    Traced t := by
  cases op with
  | event e =>
    cases hs
    refine ⟨tracks_event e h.tracks, fun p hp ↦ ?_⟩
    rcases List.mem_append.mp hp with hold | hnew
    · exact h.seen p hold
    · obtain ⟨bytes, hbytes, rfl⟩ := List.mem_map.mp hnew
      obtain ⟨hmode, hbuffered⟩ := event_seen (Option.mem_toList.mp hbytes)
      exact hbuffered.trans (h.tracks.buffered hmode).2
  | send data =>
    obtain ⟨device, hsend, ht⟩ := ok_of_map hs
    cases ht
    exact ⟨tracks_send h.tracks hsend, h.seen⟩
  | recv =>
    cases hs
    exact ⟨tracks_recv h.tracks, h.seen⟩

theorem Traced.current {s : Session δ} (h : Traced s) : Current s := by
  refine ⟨fun hmode ↦ ?_, h.seen⟩
  have htracks := h.tracks
  cases hphase : s.phase with
  | idle =>
    rw [hphase] at htracks
    exact htracks.2
  | writing bytes =>
    rw [hphase] at htracks
    simp [htracks.1] at hmode
  | other =>
    rw [hphase] at htracks
    exact absurd hmode htracks.1

theorem phase_step {s t : Session δ} {op : Op} {o : Byte} (hs : step info s op = .ok (t, o)) :
    t.phase = s.phase.next op := by
  cases op with
  | event e =>
    cases hs
    rfl
  | send data =>
    obtain ⟨device, -, ht⟩ := ok_of_map hs
    cases ht
    rfl
  | recv =>
    cases hs
    rfl

theorem phase_run {s t : Session δ} {ops : List Op} (h : Run (step info) s ops t) :
    t.phase = ops.foldl Phase.next s.phase := by
  induction h with
  | nil => rfl
  | cons hs _ ih => rw [ih, phase_step hs, List.foldl_cons]

theorem exists_step {s : Session δ} {op : Op} (h : InBounds s op) : ∃ t o, step info s op = .ok (t, o) := by
  cases op with
  | event e => exact ⟨_, _, rfl⟩
  | send data =>
    have hsend : ∃ device, send s.device data = .ok device := by
      unfold send
      split
      · next hmode => exact ⟨_, dif_pos (h data rfl hmode)⟩
      · exact ⟨_, rfl⟩
    obtain ⟨device, hdevice⟩ := hsend
    exact ⟨_, _, congrArg (Except.map _) hdevice⟩
  | recv => exact ⟨_, _, rfl⟩

theorem exists_run {s : Session δ} {ops : List Op} (h : Attempts (step info) InBounds s ops) :
    ∃ t, Run (step info) s ops t := by
  induction ops generalizing s with
  | nil => exact ⟨s, .nil s⟩
  | cons op ops ih =>
    obtain ⟨t, o, hs⟩ : ∃ t o, step info s op = .ok (t, o) := exists_step h.head
    obtain ⟨u, hu⟩ := ih (h.tail hs)
    exact ⟨u, .cons hs hu⟩

end Tracking

section Phases

theorem foldl_stopped {pre : List Op} (h : Stopped pre) : pre.foldl Phase.next .idle = .idle := by
  rcases h with rfl | ⟨older, rfl⟩
  · rfl
  · rw [List.foldl_append]
    exact rfl

theorem foldl_stray (stray : List Byte) : (stray.map Op.send).foldl Phase.next .idle = .idle := by
  induction stray with
  | nil => rfl
  | cons b stray ih => exact ih

theorem foldl_block (block bytes : List Byte) :
    (block.map Op.send).foldl Phase.next (.writing bytes) = .writing (bytes ++ block) := by
  induction block generalizing bytes with
  | nil => rw [List.append_nil]; rfl
  | cons b block ih =>
    rw [List.append_cons, ← ih]
    rfl

theorem foldl_write {pre : List Op} (h : Stopped pre) (stray block : List Byte) :
    (writeOps pre stray block).foldl Phase.next .idle = .writing block := by
  rw [writeOps, List.foldl_append, List.foldl_append, foldl_stopped h, foldl_stray, List.foldl_cons]
  exact foldl_block block []

theorem writeOps_append (pre : List Op) (stray first rest : List Byte) :
    writeOps pre stray (first ++ rest) = writeOps pre stray first ++ rest.map .send := by
  rw [writeOps, writeOps, List.map_append, ← List.cons_append, ← List.append_assoc]

/-- The operations of a master that is idle, or has begun a write. -/
def Reaches (ops : List Op) : Phase → Prop
  | .idle => ∃ pre, ∃ stray : List Byte, ops = pre ++ stray.map .send ∧ Stopped pre
  | .writing block => ∃ pre stray, ops = writeOps pre stray block ∧ Stopped pre
  | .other => True

theorem reaches_next {ops : List Op} {phase : Phase} (h : Reaches ops phase) (op : Op) :
    Reaches (ops ++ [op]) (phase.next op) := by
  have hfinish : Reaches (ops ++ [.event .finish]) .idle :=
    ⟨ops ++ [.event .finish], [], (List.append_nil _).symm, .inr ⟨ops, rfl⟩⟩
  cases phase with
  | idle =>
    obtain ⟨pre, stray, rfl, hstopped⟩ := h
    cases op with
    | event e =>
      cases e with
      | finish => exact hfinish
      | startSend => exact ⟨pre, stray, rfl, hstopped⟩
      | startRecv => trivial
      | nack => trivial
    | send data =>
      refine ⟨pre, stray ++ [data], ?_, hstopped⟩
      rw [List.map_append, ← List.append_assoc]
      rfl
    | recv => trivial
  | writing block =>
    obtain ⟨pre, stray, rfl, hstopped⟩ := h
    cases op with
    | event e =>
      cases e with
      | finish => exact hfinish
      | startSend => trivial
      | startRecv => trivial
      | nack => trivial
    | send data =>
      refine ⟨pre, stray, ?_, hstopped⟩
      exact (writeOps_append pre stray block [data]).symm
    | recv => trivial
  | other =>
    cases op with
    | event e =>
      cases e with
      | finish => exact hfinish
      | startSend => trivial
      | startRecv => trivial
      | nack => trivial
    | send data => trivial
    | recv => trivial

theorem reaches_foldl (ops : List Op) : Reaches ops (ops.foldl Phase.next .idle) := by
  induction ops using List.reverseRecOn with
  | nil => exact ⟨[], [], rfl, .inl rfl⟩
  | append_singleton ops op ih =>
    rw [List.foldl_append]
    exact reaches_next ih op

end Phases

section Runs

variable {δ : Type} (info : DeviceInfo δ) (dev : δ)

def start : Session δ := { device := { dev } }

theorem traced_run {ops : List Op} {s : Session δ} (h : Run (step info) (start dev) ops s) : Traced s :=
  h.invariant ⟨⟨rfl, rfl⟩, nofun⟩ fun _ _ _ _ _ hs ht ↦ traced_step hs ht

/-- A write into the buffer that is not inside it ends an overlong write. -/
theorem inBounds_of_not_overlong {ops : List Op} (h : ¬ Overlong ops) :
    Attempts (step info) InBounds (start dev) ops := by
  intro pre op s hpre hr data hop hmode
  subst hop
  have htracks := (traced_run info dev hr).tracks
  obtain ⟨hlen, -⟩ := htracks.buffered hmode
  cases hphase : s.phase with
  | idle =>
    rw [hphase] at htracks
    simp [htracks.1] at hmode
  | other =>
    rw [hphase] at htracks
    exact absurd hmode htracks.2
  | writing block =>
    rw [hphase] at hlen
    have hreach := reaches_foldl (pre ++ [Op.send data])
    have hpast : pre.foldl Phase.next .idle = .writing block := (phase_run hr).symm.trans hphase
    have hnext : (pre ++ [Op.send data]).foldl Phase.next .idle = .writing (block ++ [data]) := by
      rw [List.foldl_append, hpast]
      rfl
    rw [hnext] at hreach
    obtain ⟨older, stray, hops, hstopped⟩ := hreach
    by_contra hfull
    refine h ⟨older, stray, block ++ [data], hops ▸ hpre, hstopped, ?_⟩
    rw [List.length_append, List.length_singleton, ← show s.device.dataLen = block.length from hlen]
    omega

/-- In an overlong write the byte behind the end of the buffer is attempted, or the run has
ended before. -/
theorem not_overlong_of_inBounds {ops : List Op} (h : Attempts (step info) InBounds (start dev) ops) :
    ¬ Overlong ops := by
  rintro ⟨pre, stray, block, hblock, hstopped, hlong⟩
  obtain ⟨first, b, rest, rfl, hfirst⟩ : ∃ first b rest, block = first ++ b :: rest ∧ first.length = bufSize := by
    refine ⟨block.take bufSize, block[bufSize], block.drop (bufSize + 1), ?_, ?_⟩
    · rw [List.getElem_cons_drop hlong, List.take_append_drop]
    · exact List.length_take_of_le hlong.le
  have hpre : writeOps pre stray first ++ [.send b] <+: ops := by
    refine List.IsPrefix.trans ?_ hblock
    rw [writeOps_append, List.map_cons]
    exact (List.prefix_append_right_inj _).mpr ⟨rest.map .send, rfl⟩
  obtain ⟨later, rfl⟩ := (List.prefix_append _ _).trans hpre
  obtain ⟨t, ht⟩ := exists_run h.take
  have hphase : t.phase = .writing first := (phase_run ht).trans (foldl_write hstopped stray first)
  have htracks := (traced_run info dev ht).tracks
  rw [hphase] at htracks
  obtain ⟨hmode, hlen, -⟩ := htracks
  have hbound : t.device.dataLen < bufSize := h _ _ t hpre ht b rfl hmode
  omega

/-- The buffer is kept, and every callback sees its own transaction, exactly if no write is longer
than the buffer. -/
theorem buffer_iff (ops : List Op) :
    (Attempts (step info) InBounds (start dev) ops ∧ Throughout (step info) Current (start dev) ops) ↔
      ¬ Overlong ops := by
  constructor
  · intro h
    exact not_overlong_of_inBounds info dev h.1
  · intro h
    refine ⟨inBounds_of_not_overlong info dev h, fun pre s _ hr ↦ ?_⟩
    exact (traced_run info dev hr).current

end Runs

/-- The callbacks of the power management unit, which keeps the last byte that it was sent. -/
def pcf50633Info : DeviceInfo (BitVec 32) where
  quickCmd := some fun cmd _ ↦ cmd
  sendByte := some fun _ val ↦ val.setWidth 32
  receiveByte := some fun cmd ↦ (cmd, 0xff)
  writeData := some fun cmd _ _ ↦ cmd
  readData := some fun cmd _ _ ↦ (cmd, 0)

/-- A write of 35 bytes. -/
theorem buffer_fails :
    ¬ Attempts (step pcf50633Info) InBounds (start 0)
      (.event .startSend :: List.replicate 35 (.send 0)) := by
  intro h
  refine not_overlong_of_inBounds pcf50633Info 0 h ⟨[], [], List.replicate 35 0, ?_, .inl rfl, by decide⟩
  exact List.prefix_refl _

end IDeviceEmulator.I2c.Smbus
