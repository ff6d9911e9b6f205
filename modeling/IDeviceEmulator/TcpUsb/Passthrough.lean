import IDeviceEmulator.Library.Machine
import IDeviceEmulator.TcpUsb.Link

namespace IDeviceEmulator.Passthrough

open TcpUsb Machine

inductive Pid
  | attach
  | detach
  | reset
  | setup
  | tokenIn
  | tokenOut
  | other
deriving DecidableEq

/-- `USBPacket`. Its length is that of the memory behind its data pointer. -/
structure Packet where
  pid : Pid
  devaddr : Byte := 0
  devep : Byte := 0
  data : List Byte := []

inductive UsbState
  | notAttached
  | attached
  | default
deriving DecidableEq

inductive UsbRet
  | zero
  | nodev
  | nak
  | stall
  | async
deriving DecidableEq

/-- A call of `usb_packet_complete`: the submission it completes, the number of responses
delivered before, and the length it passes on. -/
structure Completion where
  packet : Nat
  index : Nat
  len : BitVec 16
deriving DecidableEq

/-- `tcp_passthrough_state_t`. Packets are named by the order of their submission. The last
four fields record what has happened. -/
structure Device where
  addr : Byte := 0
  state : UsbState := .notAttached
  setupLen : Nat := 0
  packet : Option Nat := none
  cancelled : Bool := false
  submitted : Nat := 0
  requests : List (Option Nat) := []
  delivered : Nat := 0
  completions : List Completion := []

def tcpUsbSetup : Byte := 1

def tcpUsbReset : Byte := 2

def tcpUsbEnumdone : Byte := 4

def usbReqSetAddress : Nat := 5

/-- What `passthrough_tcp` does with a response. -/
def complete (s : Device) (hdr : Header) : Device :=
  if hdr.flags &&& tcpUsbReset ≠ 0 then s
  else
    match s.packet with
    | none => s
    | some p =>
      { s with
        packet := none, addr := hdr.addr
        completions := s.completions ++ [⟨p, s.delivered, hdr.length⟩] }

def passthroughTcp : Callback Device := fun s hdr buffer ↦
  ⟨0, hdr, buffer, { complete s hdr with delivered := s.delivered + 1 }⟩

def passthroughCancel (s : Device) : Device := { s with cancelled := true, packet := none }

def answering {β : Type} (d : TcpUsb.Device β) : TcpUsb.Device (β × List Header) where
  handle app header buffer :=
    let reply := d.handle app.1 header buffer
    { reply with app := (reply.app, app.2 ++ [{ reply.header with length := BitVec.ofInt 16 reply.ret }]) }
  fits app header buffer := d.fits app.1 header buffer

abbrev System (β : Type) := Link Device (β × List Header)

section Operations

variable {β : Type}

def modify (s : System β) (f : Device → Device) : System β := { s with hostApp := f s.hostApp }

/-- The header that a request under way is read from and answered into is the one that the
passthrough device fills in for the next request. -/
def fillHeader (s : System β) (header : Header) : System β :=
  match s.host.state with
  | .writeRequest | .readResponse => { s with host := { s.host with header } }
  | _ => s

/-- Fill in the header and call `tcp_usb_request`. A request that is accepted is recorded with
the packet it is sent for. -/
def request (s : System β) (sentFor : Option Nat) (header : Header) (data : List Byte)
    (calls : List Outcome) : Int × System β :=
  let s := fillHeader s header
  let s :=
    if s.host.state = .idle then modify s fun t ↦ { t with requests := t.requests ++ [sentFor] } else s
  s.hostRequest passthroughTcp header data calls

def passthroughReset (s : System β) (calls : List Outcome) : System β :=
  if s.host.closed then s
  else
    let s := modify s fun t ↦ { t with packet := none }
    (request s none { addr := 0, ep := 0, flags := tcpUsbReset, length := 0 } [] calls).2

/-- The end of the three `do_token` functions. -/
def submit (s : System β) (p : Nat) (header : Header) (data : List Byte) (calls : List Outcome) :
    UsbRet × System β :=
  let (ret, s) := request s (some p) header data calls
  (if ret < 0 then .stall else .async, s)

def doTokenSetup (s : System β) (p : Nat) (data : List Byte) (calls : List Outcome) : UsbRet × System β :=
  if data.length ≠ 8 then (.stall, s)
  else
    let byte (i : Nat) : Nat := (data.getD i 0).toNat
    let s := modify s fun t ↦ { t with setupLen := byte 7 <<< 8 ||| byte 6 }
    let request := byte 0 <<< 8 ||| byte 1
    let flags := if request = usbReqSetAddress then tcpUsbSetup ||| tcpUsbEnumdone else tcpUsbSetup
    submit s p { addr := s.hostApp.addr, ep := 0, flags, length := 8 } data calls

def doTokenIn (s : System β) (p : Nat) (packet : Packet) (calls : List Outcome) : UsbRet × System β :=
  submit s p
    { addr := s.hostApp.addr, ep := packet.devep ||| usbDirIn, flags := 0
      length := BitVec.ofNat 16 s.hostApp.setupLen } packet.data calls

def doTokenOut (s : System β) (p : Nat) (packet : Packet) (calls : List Outcome) : UsbRet × System β :=
  submit s p
    { addr := s.hostApp.addr, ep := packet.devep &&& 0x7f, flags := 0
      length := BitVec.ofNat 16 packet.data.length } packet.data calls

/-- The slot is filled before the token is looked at. -/
def takeSlot (s : System β) : System β :=
  modify s fun t ↦ { t with packet := some t.submitted, submitted := t.submitted + 1 }

def doToken (s : System β) (packet : Packet) (calls : List Outcome) : UsbRet × System β :=
  let p := s.hostApp.submitted
  match packet.pid with
  | .setup => doTokenSetup (takeSlot s) p packet.data calls
  | .tokenIn => doTokenIn (takeSlot s) p packet calls
  | .tokenOut => doTokenOut (takeSlot s) p packet calls
  | _ => (.stall, takeSlot s)

/-- `passthrough_packet`. The device has no `tcp` once the connection is closed. -/
def passthroughPacket (s : System β) (packet : Packet) (calls : List Outcome) : UsbRet × System β :=
  match packet.pid with
  | .attach => (.zero, modify s fun t ↦ { t with state := .attached })
  | .detach => (.zero, modify s fun t ↦ { t with state := .notAttached })
  | .reset => (.zero, passthroughReset (modify s fun t ↦ { t with addr := 0, state := .default }) calls)
  | _ =>
    if s.hostApp.state ≠ .default ∨ packet.devaddr ≠ s.hostApp.addr then (.nodev, s)
    else if s.host.closed then (.stall, s)
    else if s.hostApp.packet.isSome then (.nak, s)
    else doToken s packet calls

inductive Event
  | packet (p : Packet) (calls : List Outcome)
  | cancel
  | callback (side : Side) (ready : Ready) (calls : List Outcome)

def Event.calls : Event → List Outcome
  | packet _ calls => calls
  | cancel => []
  | callback _ _ calls => calls

def step (d : TcpUsb.Device β) (s : System β) : Event → Except Empty (System β × UsbRet)
  | .packet p calls =>
    let (ret, s) := passthroughPacket s p calls
    .ok (s, ret)
  | .cancel => .ok (modify s passthroughCancel, .zero)
  | .callback .host ready calls => .ok (s.hostCallback passthroughTcp ready calls, .zero)
  | .callback .device ready calls => .ok (s.deviceCallback (answering d).handle ready calls, .zero)

def start (b : β) : System β := { hostApp := {}, deviceApp := (b, []) }

end Operations

section Property

variable {β : Type}

/-- The response that was delivered answers the request sent for the completed packet, and the
length is its own. -/
def Answered (s : System β) (c : Completion) : Prop :=
  s.hostApp.requests[c.index]? = some (some c.packet) ∧
    (s.deviceApp.2[c.index]?).map Header.length = some c.len

def Matched (s : System β) : Prop := ∀ c ∈ s.hostApp.completions, Answered s c

def TakesSlot (s : System β) (packet : Packet) : Prop :=
  packet.pid ≠ .attach ∧ packet.pid ≠ .detach ∧ packet.pid ≠ .reset ∧ s.hostApp.state = .default ∧
    packet.devaddr = s.hostApp.addr ∧ s.host.closed = false ∧ s.hostApp.packet = none

/-- No call moves eleven bytes, and packets take the slot and resets are sent while no request
is under way. -/
def Clear (s : System β) (event : Event) : Prop :=
  Outcome.moves 11 ∉ event.calls ∧
    match event with
    | .packet p _ => TakesSlot s p ∨ p.pid = .reset → s.host.state = .idle
    | _ => True

instance (s : System β) (c : Completion) : Decidable (Answered s c) := inferInstanceAs (Decidable (_ ∧ _))

instance : DecidablePred (@Matched β) := fun s ↦
  inferInstanceAs (Decidable (∀ c ∈ s.hostApp.completions, Answered s c))

instance (s : System β) (packet : Packet) : Decidable (TakesSlot s packet) :=
  inferInstanceAs (Decidable (_ ∧ _ ∧ _ ∧ _ ∧ _ ∧ _ ∧ _))

instance (s : System β) (event : Event) : Decidable (Clear s event) :=
  match event with
  | .packet _ _ => inferInstanceAs (Decidable (_ ∧ (_ → _)))
  | .cancel => inferInstanceAs (Decidable (_ ∧ True))
  | .callback _ _ _ => inferInstanceAs (Decidable (_ ∧ True))

end Property

section Invariant

variable {β : Type}

def underway : Phase → Nat
  | .idle => 0
  | _ => 1

def answers : Phase → List Header
  | .responding _ p _ _ => [p.header]
  | _ => []

/-- The slot holds the packet of the request under way, if there is one. -/
structure Sound (s : System β) (phase : Phase) : Prop where
  framed : Framed s phase
  requests : s.hostApp.requests.length = s.hostApp.delivered + underway phase
  responses : ∃ earlier, earlier.length = s.hostApp.delivered ∧ s.deviceApp.2 = earlier ++ answers phase
  slot : phase ≠ .idle → ∀ p, s.hostApp.packet = some p →
    s.hostApp.requests[s.hostApp.delivered]? = some (some p)
  matched : Matched s

theorem framed_of_link {s s' : System β} {phase : Phase} (h : Framed s phase) (hhost : s'.host = s.host)
    (hdevice : s'.device = s.device) (hup : s'.up = s.up) (hdown : s'.down = s.down) : Framed s' phase := by
  obtain ⟨hopen, hopen', hhere⟩ := h
  refine ⟨hhost ▸ hopen, hdevice ▸ hopen', ?_⟩
  cases phase with
  | idle =>
    rw [At, hhost, hdevice, hup, hdown]
    exact hhere
  | requesting q received sent =>
    rw [At, hhost, hdevice, hup, hdown]
    exact hhere
  | responding q p received sent =>
    rw [At, hhost, hdevice, hup, hdown]
    exact hhere

theorem framed_modify {s : System β} {phase : Phase} (h : Framed s phase) (f : Device → Device) :
    Framed (modify s f) phase :=
  framed_of_link h rfl rfl rfl rfl

theorem sound_modify {s : System β} {phase : Phase} (h : Sound s phase) {f : Device → Device}
    (hrequests : (f s.hostApp).requests = s.hostApp.requests)
    (hdelivered : (f s.hostApp).delivered = s.hostApp.delivered)
    (hcompletions : (f s.hostApp).completions = s.hostApp.completions)
    (hpacket : phase ≠ .idle → (f s.hostApp).packet = none ∨ (f s.hostApp).packet = s.hostApp.packet) :
    Sound (modify s f) phase := by
  refine ⟨framed_modify h.framed f, ?_, ?_, fun hphase p hp ↦ ?_, fun c hc ↦ ?_⟩
  · rw [modify, hrequests, hdelivered]
    exact h.requests
  · rw [modify, hdelivered]
    exact h.responses
  · rw [modify] at hp
    rw [modify, hrequests, hdelivered]
    rcases hpacket hphase with hnone | hsame
    · exact absurd (hp.symm.trans hnone) (by simp)
    · exact h.slot hphase p (hsame.symm.trans hp)
  · rw [modify, hcompletions] at hc
    rw [Answered, modify, hrequests]
    exact h.matched c hc

theorem answered_append {s s' : System β} {c : Completion} (h : Answered s c) (more : List (Option Nat))
    (more' : List Header) (hrequests : s'.hostApp.requests = s.hostApp.requests ++ more)
    (hresponses : s'.deviceApp.2 = s.deviceApp.2 ++ more') : Answered s' c := by
  obtain ⟨hrequest, hresponse⟩ := h
  obtain ⟨header, hheader, hlen⟩ := Option.map_eq_some_iff.mp hresponse
  have hlt := (List.getElem?_eq_some_iff.mp hrequest).1
  have hlt' := (List.getElem?_eq_some_iff.mp hheader).1
  refine ⟨?_, ?_⟩
  · rw [hrequests, List.getElem?_append_left hlt, hrequest]
  · rw [hresponses, List.getElem?_append_left hlt', hresponse]

theorem sound_progress {s s' : System β} {phase phase' : Phase} (h : Sound s phase) (hframed : Framed s' phase')
    (hsame : phase.Same phase') (hhost : s'.hostApp = s.hostApp) (hdevice : s'.deviceApp = s.deviceApp) :
    Sound s' phase' := by
  have hunderway : underway phase' = underway phase := by cases hsame <;> rfl
  have hanswers : answers phase' = answers phase := by cases hsame <;> rfl
  refine ⟨hframed, ?_, ?_, fun hphase ↦ ?_, fun c hc ↦ ?_⟩
  · rw [hhost, hunderway]
    exact h.requests
  · rw [hhost, hdevice, hanswers]
    exact h.responses
  · rw [hhost]
    refine h.slot fun hidle ↦ hphase ?_
    subst hidle
    cases hsame
    rfl
  · rw [hhost] at hc
    rw [Answered, hhost, hdevice]
    exact h.matched c hc

theorem sound_cancel {s : System β} {phase : Phase} (h : Sound s phase) :
    Sound (modify s passthroughCancel) phase :=
  sound_modify h rfl rfl rfl fun _ ↦ .inl rfl

theorem complete_cases (t : Device) (hdr : Header) :
    (complete t hdr).requests = t.requests ∧ (complete t hdr).delivered = t.delivered ∧
      ((complete t hdr).completions = t.completions ∨
        ∃ p, t.packet = some p ∧ (complete t hdr).completions = t.completions ++ [⟨p, t.delivered, hdr.length⟩]) := by
  rw [complete]
  split_ifs
  · exact ⟨rfl, rfl, .inl rfl⟩
  · cases hpacket : t.packet with
    | none => exact ⟨rfl, rfl, .inl rfl⟩
    | some p => exact ⟨rfl, rfl, .inr ⟨p, rfl, rfl⟩⟩

theorem sound_delivered {s s' : System β} {q : Request} {p : Message isIn} {received sent : Nat}
    (h : Sound s (.responding q p received sent)) (hframed : Framed s' .idle)
    (hhost : s'.hostApp = { complete s.hostApp p.header with delivered := s.hostApp.delivered + 1 })
    (hdevice : s'.deviceApp = s.deviceApp) : Sound s' .idle := by
  obtain ⟨hrequests, -, hcompletions⟩ := complete_cases s.hostApp p.header
  obtain ⟨earlier, hearlier, hresponses⟩ := h.responses
  have hkept : s'.hostApp.requests = s.hostApp.requests := by
    rw [hhost]
    exact hrequests
  have hearlier' (c : Completion) (hc : c ∈ s.hostApp.completions) : Answered s' c := by
    refine answered_append (h.matched c hc) [] [] ?_ ?_
    · rw [hkept, List.append_nil]
    · rw [hdevice, List.append_nil]
  refine ⟨hframed, ?_, ⟨earlier ++ [p.header], ?_, ?_⟩, fun hne ↦ absurd rfl hne, fun c hc ↦ ?_⟩
  · rw [hkept, h.requests, hhost]
    rfl
  · rw [List.length_append, hearlier, hhost]
    rfl
  · rw [hdevice, hresponses]
    exact (List.append_nil _).symm
  · rw [hhost] at hc
    rcases hcompletions with hnone | ⟨packet, hpacket, hsome⟩
    · exact hearlier' c (hnone ▸ hc)
    · dsimp only at hc
      rw [hsome] at hc
      rcases List.mem_append.mp hc with hold | hnew
      · exact hearlier' c hold
      · cases List.mem_singleton.mp hnew
        refine ⟨?_, ?_⟩
        · rw [hkept]
          exact h.slot (by simp) packet hpacket
        · have hlast : s.deviceApp.2[s.hostApp.delivered]? = some p.header := by
            rw [hresponses, ← hearlier]
            exact List.getElem?_concat_length
          rw [hdevice]
          exact congrArg (Option.map Header.length) hlast

theorem sound_hostCallback {s : System β} {phase : Phase} (h : Sound s phase) (ready : Ready)
    {calls : List Outcome} (hcalm : Calm calls) :
    ∃ phase', Sound (s.hostCallback passthroughTcp ready calls) phase' := by
  obtain ⟨hdevice, phase', hframed, ⟨hprogress, hhost⟩ | ⟨q, p, received, sent, rfl, rfl, hhost⟩⟩ :=
    framed_hostCallback passthroughTcp h.framed ready hcalm
  · exact ⟨phase', sound_progress h hframed hprogress.same hhost hdevice⟩
  · exact ⟨.idle, sound_delivered h hframed hhost hdevice⟩

theorem sound_deviceCallback (d : TcpUsb.Device β) {s : System β} {phase : Phase} (h : Sound s phase)
    (ready : Ready) {calls : List Outcome} (hcalm : Calm calls) :
    ∃ phase', Sound (s.deviceCallback (answering d).handle ready calls) phase' := by
  obtain ⟨hhost, phase', hframed, ⟨hprogress, hdevice⟩ | ⟨q, received, sent, sent', rfl, rfl, hdevice⟩⟩ :=
    framed_deviceCallback (answering d) h.framed ready hcalm
  · exact ⟨phase', sound_progress h hframed hprogress.same hhost hdevice⟩
  · obtain ⟨earlier, hearlier, hresponses⟩ := h.responses
    have hrecord : (s.deviceCallback (answering d).handle ready calls).deviceApp.2 =
        s.deviceApp.2 ++ [((answering d).response s.deviceApp q).header] := by
      rw [hdevice]
      rfl
    refine ⟨_, hframed, ?_, ⟨earlier, ?_, ?_⟩, fun _ ↦ ?_, fun c hc ↦ ?_⟩
    · rw [hhost]
      exact h.requests
    · rw [hhost]
      exact hearlier
    · rw [hrecord, hresponses]
      exact congrArg (· ++ _) (List.append_nil _)
    · rw [hhost]
      exact h.slot (by simp)
    · rw [hhost] at hc
      refine answered_append (h.matched c hc) [] _ ?_ hrecord
      rw [hhost, List.append_nil]

theorem sound_request {s : System β} (h : Sound s .idle) (q : Request) (sentFor : Option Nat)
    (hslot : ∀ p, s.hostApp.packet = some p → sentFor = some p) {calls : List Outcome} (hcalm : Calm calls) :
    ∃ sent, Sound (request s sentFor q.header q.data calls).2 (.requesting q 0 sent) := by
  have hidle : s.host.state = .idle := h.framed.here.1
  have hfill : fillHeader s q.header = s := by rw [fillHeader, hidle]
  let record (t : Device) : Device := { t with requests := t.requests ++ [sentFor] }
  have hrequest : request s sentFor q.header q.data calls =
      (modify s record).hostRequest passthroughTcp q.header q.data calls := by
    rw [request, hfill, if_pos hidle]
  obtain ⟨-, sent, hframed, hhost, hdevice⟩ :=
    framed_hostRequest passthroughTcp (framed_modify h.framed record) q hcalm
  obtain ⟨earlier, hearlier, hresponses⟩ := h.responses
  have hlength : s.hostApp.requests.length = s.hostApp.delivered := h.requests
  rw [hrequest]
  refine ⟨sent, hframed, ?_, ⟨earlier, ?_, ?_⟩, fun _ p hp ↦ ?_, fun c hc ↦ ?_⟩
  · rw [hhost]
    exact List.length_append.trans (congrArg (· + 1) hlength)
  · rw [hhost]
    exact hearlier
  · rw [hdevice]
    exact hresponses
  · rw [hhost] at hp ⊢
    rw [← hslot p hp]
    exact (congrArg _ hlength.symm).trans List.getElem?_concat_length
  · rw [hhost] at hc
    refine answered_append (h.matched c hc) [sentFor] [] ?_ ?_
    · rw [hhost]
      rfl
    · rw [hdevice, List.append_nil]
      rfl

theorem sound_takeSlot {s : System β} (h : Sound s .idle) : Sound (takeSlot s) .idle :=
  sound_modify h rfl rfl rfl fun hne ↦ absurd rfl hne

theorem sound_submit {s : System β} (h : Sound s .idle) {p : Nat} (hpacket : s.hostApp.packet = some p)
    (q : Request) {calls : List Outcome} (hcalm : Calm calls) :
    ∃ phase, Sound (submit s p q.header q.data calls).2 phase := by
  obtain ⟨sent, hsound⟩ := sound_request h q (some p) (fun p' hp' ↦ hpacket.symm.trans hp') hcalm
  exact ⟨_, hsound⟩

theorem payloadSize_tokenIn (header : Header) (x : Byte) :
    payloadSize isOut { header with ep := x ||| usbDirIn } = 0 := by
  have hand : (x ||| usbDirIn) &&& usbDirIn = usbDirIn := by
    ext i hi
    rw [BitVec.getElem_and, BitVec.getElem_or]
    cases usbDirIn[i] with
    | false => rw [Bool.and_false]
    | true => rw [Bool.or_true, Bool.and_true]
  have hnot : isOut { header with ep := x ||| usbDirIn } = false := by
    rw [isOut, hand]
    decide
  rw [payloadSize, hnot, if_neg fun h ↦ absurd h.1 (by decide)]

theorem sound_doToken {s : System β} (h : Sound s .idle) (packet : Packet) {calls : List Outcome}
    (hcalm : Calm calls) : ∃ phase, Sound (doToken s packet calls).2 phase := by
  have hslot := sound_takeSlot h
  rw [doToken]
  split
  · rw [doTokenSetup]
    split_ifs with hlength
    · exact ⟨.idle, hslot⟩
    · refine sound_submit (sound_modify hslot rfl rfl rfl fun hne ↦ absurd rfl hne) rfl
        ⟨_, packet.data, ?_⟩ hcalm
      rw [not_not.mp hlength]
      exact payloadSize_le _ _
  · refine sound_submit hslot rfl ⟨_, packet.data, ?_⟩ hcalm
    rw [payloadSize_tokenIn { addr := _, flags := _, length := _ }]
    exact Nat.zero_le _
  · refine sound_submit hslot rfl ⟨_, packet.data, ?_⟩ hcalm
    refine Nat.le_trans (payloadSize_le _ _) ?_
    rw [BitVec.toNat_ofNat]
    exact Nat.mod_le _ _
  · exact ⟨.idle, hslot⟩

theorem sound_reset {s : System β} (h : Sound s .idle) {calls : List Outcome} (hcalm : Calm calls) :
    ∃ phase, Sound (passthroughReset s calls) phase := by
  rw [passthroughReset, h.framed.host_open]
  have hcleared : Sound (modify s fun t ↦ { t with packet := none }) .idle :=
    sound_modify h rfl rfl rfl fun hne ↦ absurd rfl hne
  obtain ⟨sent, hsound⟩ := sound_request hcleared ⟨{ flags := tcpUsbReset }, [], by decide⟩ none
    (fun p hp ↦ nomatch hp) hcalm
  exact ⟨_, hsound⟩

theorem idle_of_sound {s : System β} {phase : Phase} (h : Sound s phase) (hidle : s.host.state = .idle) :
    phase = .idle := by
  by_contra hne
  exact host_busy h.framed hne hidle

theorem sound_packet {s : System β} {phase : Phase} (h : Sound s phase) (packet : Packet) {calls : List Outcome}
    (hcalm : Calm calls) (hclear : TakesSlot s packet ∨ packet.pid = .reset → s.host.state = .idle) :
    ∃ phase', Sound (passthroughPacket s packet calls).2 phase' := by
  rw [passthroughPacket]
  split
  case h_1 =>
    exact ⟨phase, sound_modify h (f := fun t ↦ { t with state := .attached }) rfl rfl rfl fun _ ↦ .inr rfl⟩
  case h_2 =>
    exact ⟨phase, sound_modify h (f := fun t ↦ { t with state := .notAttached }) rfl rfl rfl fun _ ↦ .inr rfl⟩
  case h_3 hpid =>
    have hphase := idle_of_sound h (hclear (.inr hpid))
    subst hphase
    exact sound_reset (sound_modify h rfl rfl rfl fun hne ↦ absurd rfl hne) hcalm
  case h_4 hattach hdetach hreset =>
    split_ifs with hnodev hclosed hnak
    · exact ⟨phase, h⟩
    · exact ⟨phase, h⟩
    · exact ⟨phase, h⟩
    · simp only [not_or, not_not] at hnodev
      have htakes : TakesSlot s packet := ⟨hattach, hdetach, hreset, hnodev.1, hnodev.2, h.framed.host_open,
        Option.not_isSome_iff_eq_none.mp hnak⟩
      have hphase := idle_of_sound h (hclear (.inl htakes))
      subst hphase
      exact sound_doToken h packet hcalm

theorem sound_start (b : β) : Sound (start b) .idle :=
  ⟨⟨rfl, rfl, rfl, rfl, rfl, rfl⟩, rfl, ⟨[], rfl, rfl⟩, fun hne ↦ absurd rfl hne, fun _ hc ↦ absurd hc List.not_mem_nil⟩

theorem sound_step (d : TcpUsb.Device β) {s t : System β} {event : Event} {ret : UsbRet}
    (h : ∃ phase, Sound s phase) (hreliable : Outcome.closed ∉ event.calls) (hclear : Clear s event)
    (hstep : step d s event = .ok (t, ret)) : ∃ phase, Sound t phase := by
  obtain ⟨phase, h⟩ := h
  obtain ⟨heleven, hclear⟩ := hclear
  have hcalm : Calm event.calls := fun outcome ho ↦ ⟨fun he ↦ hreliable (he ▸ ho), fun he ↦ heleven (he ▸ ho)⟩
  cases event with
  | packet p calls =>
    cases hstep
    exact sound_packet h p hcalm hclear
  | cancel =>
    cases hstep
    exact ⟨phase, sound_cancel h⟩
  | callback side ready calls =>
    cases side with
    | host =>
      cases hstep
      exact sound_hostCallback h ready hcalm
    | device =>
      cases hstep
      exact sound_deviceCallback d h ready hcalm

end Invariant

section Completion

variable {β : Type}

/-- In a run in which no call moves eleven bytes, and packets take the slot and resets are sent
only while no request is under way, each packet is completed by the response to its own
request. -/
theorem completions_matched (d : TcpUsb.Device β) (b : β) {events : List Event}
    (hreliable : ∀ event ∈ events, Outcome.closed ∉ event.calls)
    (hclear : Attempts (step d) Clear (start b) events) :
    Throughout (step d) Matched (start b) events := by
  have hsound : Throughout (step d) (fun s ↦ ∃ phase, Sound s phase) (start b) events := by
    refine throughout_of_attempts ⟨.idle, sound_start b⟩ ?_ hclear
    intro s event t ret hmem h hc hstep
    exact sound_step d h (hreliable event hmem) hc hstep
  intro pre t hpre hrun
  obtain ⟨phase, h⟩ := hsound pre t hpre hrun
  exact h.matched

def connected : List Event :=
  [.packet { pid := .attach } [],
    .packet { pid := .reset } [.moves 5],
    .callback .device .readable [.moves 5, .moves 5],
    .callback .host .readable [.moves 5]]

def setupPacket : Event := .packet { pid := .setup, data := List.replicate 8 0 } [.moves 5, .moves 8]

def answered : List Event :=
  [.callback .device .readable [.moves 5, .moves 8, .moves 5], .callback .host .readable [.moves 5]]

theorem completions_matched_setup :
    Attempts (step acknowledging) Clear (start ()) (connected ++ [setupPacket] ++ answered) ∧
      Throughout (step acknowledging) Matched (start ()) (connected ++ [setupPacket] ++ answered) := by
  have hclear : Attempts (step acknowledging) Clear (start ()) (connected ++ [setupPacket] ++ answered) := by
    decide +kernel
  exact ⟨hclear, completions_matched acknowledging () (by decide +kernel) hclear⟩

/-- The response to a cancelled packet completes a packet that was refused. -/
theorem completions_matched_fails :
    (∀ event ∈ connected ++ [setupPacket, .cancel, .packet { pid := .tokenOut, data := [0] } []] ++ answered,
      Outcome.closed ∉ event.calls) ∧
    ¬ Throughout (step acknowledging) Matched (start ())
      (connected ++ [setupPacket, .cancel, .packet { pid := .tokenOut, data := [0] } []] ++ answered) := by
  refine ⟨?_, ?_⟩
  · decide +kernel
  · decide +kernel

end Completion

end IDeviceEmulator.Passthrough
