import IDeviceEmulator.TcpUsb.Exchange

namespace IDeviceEmulator.TcpUsb

inductive Ready
  | readable
  | writable
deriving DecidableEq

inductive Side
  | host
  | device
deriving DecidableEq

/-- A host endpoint and a device endpoint joined by two byte streams, with the states that
their callbacks work on. -/
structure Link (α β : Type) where
  host : Endpoint := {}
  device : Endpoint := {}
  up : List Byte := []
  down : List Byte := []
  hostApp : α
  deviceApp : β

namespace Link

variable {α β : Type}

def hostConn (s : Link α β) (ready : Ready) (calls : List Outcome) : Conn :=
  { s.host with
    canRead := ready = .readable, canWrite := ready = .writable, rx := s.down, tx := s.up, calls }

def deviceConn (s : Link α β) (ready : Ready) (calls : List Outcome) : Conn :=
  { s.device with
    canRead := ready = .readable, canWrite := ready = .writable, rx := s.up, tx := s.down, calls }

def withHost (s : Link α β) (r : Conn × α) : Link α β :=
  { s with host := r.1.toEndpoint, down := r.1.rx, up := r.1.tx, hostApp := r.2 }

def withDevice (s : Link α β) (r : Conn × β) : Link α β :=
  { s with device := r.1.toEndpoint, up := r.1.rx, down := r.1.tx, deviceApp := r.2 }

/-- `tcp_usb_read_callback` or `tcp_usb_write_callback` of the host. The main loop calls the
first one when bytes have arrived. -/
def hostCallback (callback : Callback α) (s : Link α β) (ready : Ready) (calls : List Outcome) : Link α β :=
  if ready = .readable ∧ s.down = [] then s
  else s.withHost (tcpUsbCallback (some callback) (s.hostConn ready calls) s.hostApp)

def deviceCallback (callback : Callback β) (s : Link α β) (ready : Ready) (calls : List Outcome) : Link α β :=
  if ready = .readable ∧ s.up = [] then s
  else s.withDevice (tcpUsbCallback (some callback) (s.deviceConn ready calls) s.deviceApp)

def hostRequest (callback : Callback α) (s : Link α β) (header : Header) (data : List Byte)
    (calls : List Outcome) : Int × Link α β :=
  let (ret, r) := tcpUsbRequest (some callback) header data (s.hostConn .writable calls) s.hostApp
  (ret, s.withHost r)

end Link

/-- Where the exchange of a request and its response stands, with the bytes received and sent
of the message under way. -/
inductive Phase
  | idle
  | requesting (q : Request) (received sent : Nat)
  | responding (q : Request) (p : Message isIn) (received sent : Nat)

namespace Phase

def left : Phase → Nat
  | idle => 0
  | requesting q received sent => 2 * q.message.wire.length - received - sent
  | responding _ p received sent => 2 * p.wire.length - received - sent

inductive Same : Phase → Phase → Prop
  | idle : Same .idle .idle
  | requesting (q : Request) (r n r' n' : Nat) : Same (.requesting q r n) (.requesting q r' n')
  | responding (q : Request) (p : Message isIn) (r n r' n' : Nat) :
      Same (.responding q p r n) (.responding q p r' n')

end Phase

variable {α β : Type}

def At (s : Link α β) : Phase → Prop
  | .idle => s.host.state = .idle ∧ s.device.state = .idle ∧ s.up = [] ∧ s.down = []
  | .requesting q received sent =>
    Asks q sent s.host ∧ Serves q received s.device ∧ InTransit q.message.wire received sent s.up ∧
      s.down = [] ∧ received < q.message.wire.length
  | .responding q p received sent =>
    Awaits q p received s.host ∧ Answers p sent s.device ∧ InTransit p.wire received sent s.down ∧
      s.up = [] ∧ received < p.wire.length

/-- The invariant of the two endpoints and the streams between them. -/
structure Framed (s : Link α β) (phase : Phase) : Prop where
  host_open : s.host.closed = false
  device_open : s.device.closed = false
  here : At s phase

def Moved (s s' : Link α β) : Prop := s'.up ≠ s.up ∨ s'.down ≠ s.down

structure Progress (s s' : Link α β) (phase phase' : Phase) : Prop where
  same : phase.Same phase'
  le : phase'.left ≤ phase.left
  lt : Moved s s' → phase'.left < phase.left

theorem Progress.refl {s : Link α β} {phase : Phase} : Progress s s phase phase := by
  refine ⟨?_, Nat.le_refl _, ?_⟩
  · cases phase with
    | idle => exact .idle
    | requesting q r n => exact .requesting q r n r n
    | responding q p r n => exact .responding q p r n r n
  · rintro (h | h)
    · exact absurd rfl h
    · exact absurd rfl h

theorem Progress.of_bytes {s s' : Link α β} {phase phase' : Phase} {n : Nat} (hsame : phase.Same phase')
    (hleft : phase'.left + n = phase.left) (hstill : n = 0 → s'.up = s.up ∧ s'.down = s.down) :
    Progress s s' phase phase' := by
  refine ⟨hsame, by omega, fun hmoved ↦ ?_⟩
  have hpos : n ≠ 0 := by
    intro hn
    obtain ⟨hup, hdown⟩ := hstill hn
    rcases hmoved with h | h
    · exact h hup
    · exact h hdown
  omega

section Host

variable (callback : Callback α)

theorem tcpUsbCallback_idle {γ : Type} (callback : Callback γ) {c : Conn} {app : γ} (hstate : c.state = .idle)
    (hread : c.canRead = false) : tcpUsbCallback (some callback) c app = (c, app) := by
  rw [tcpUsbCallback, hstate]
  simp [hread]

theorem framed_asks {s : Link α β} {q : Request} {received sent : Nat}
    (h : Framed s (.requesting q received sent)) {c : Conn} (hc : Asks q sent c.toEndpoint)
    (hopen : c.closed = false) (hrx : c.rx = s.down) (htx : c.tx = s.up) (hcalm : Calm c.calls) :
    ∃ n, Framed (s.withHost (tcpUsbCallback (some callback) c s.hostApp)) (.requesting q received (sent + n)) ∧
      Progress s (s.withHost (tcpUsbCallback (some callback) c s.hostApp)) (.requesting q received sent)
        (.requesting q received (sent + n)) ∧
      (s.withHost (tcpUsbCallback (some callback) c s.hostApp)).hostApp = s.hostApp := by
  obtain ⟨-, hserves, htransit, hdown, hlt⟩ := h.here
  obtain ⟨n, c', hcallback, hn, hasks, hopen', hrx', htx'⟩ :=
    asks_callback callback s.hostApp hc hopen hcalm (hrx.trans hdown)
  rw [hcallback]
  have hle := htransit.received_le
  refine ⟨n, ⟨hopen', h.device_open, hasks, hserves, ?_, hrx', hlt⟩, .of_bytes (n := n) (.requesting ..) ?_ ?_, rfl⟩
  · rw [Link.withHost, htx', htx]
    exact htransit.push hn
  · simp only [Phase.left]
    omega
  · rintro rfl
    refine ⟨?_, hrx'.trans hdown.symm⟩
    rw [Link.withHost, htx', htx, List.take_zero, List.append_nil]

theorem framed_awaits {s : Link α β} {q : Request} {p : Message isIn} {received sent : Nat}
    (h : Framed s (.responding q p received sent)) (ready : Ready) {calls : List Outcome} (hcalm : Calm calls) :
    ∃ s' phase', s.withHost (tcpUsbCallback (some callback) (s.hostConn ready calls) s.hostApp) = s' ∧
      Framed s' phase' ∧
      (Progress s s' (.responding q p received sent) phase' ∧ s'.hostApp = s.hostApp ∨
        phase' = .idle ∧
          s'.hostApp = (callback s.hostApp p.header (p.payload ++ q.data.drop p.payload.length)).app) := by
  obtain ⟨hawaits, hanswers, htransit, hup, hlt⟩ := h.here
  obtain ⟨n, c', app', hcallback, hn, hopen, htx, hrx, hcases⟩ :=
    awaits_callback callback (c := s.hostConn ready calls) s.hostApp hawaits h.host_open hcalm hlt
      htransit.isPrefix
  rw [hcallback]
  have htransit' : InTransit p.wire (received + n) sent c'.rx := hrx ▸ htransit.pull hn
  have hle := htransit'.received_le
  have hsent := htransit'.sent_le
  rcases hcases with ⟨hlt', hawaits', rfl⟩ | ⟨heq, hidle, rfl⟩
  · refine ⟨_, .responding q p (received + n) sent, rfl,
      ⟨hopen, h.device_open, hawaits', hanswers, htransit', htx.trans hup, hlt'⟩,
      .inl ⟨.of_bytes (n := n) (.responding ..) ?_ ?_, rfl⟩⟩
    · simp only [Phase.left]
      omega
    · rintro rfl
      exact ⟨htx, hrx⟩
  · obtain ⟨hall, hdown⟩ := htransit'.sent_of_received heq
    have hdevice : s.device.state = .idle := by
      rcases hanswers with ⟨-, -, hsent', -⟩ | ⟨hstate, -⟩
      · omega
      · exact hstate
    exact ⟨_, .idle, rfl, ⟨hopen, h.device_open, hidle, hdevice, htx.trans hup, hdown⟩, .inr ⟨rfl, rfl⟩⟩

theorem framed_hostCallback {s : Link α β} {phase : Phase} (h : Framed s phase) (ready : Ready)
    {calls : List Outcome} (hcalm : Calm calls) :
    (s.hostCallback callback ready calls).deviceApp = s.deviceApp ∧
      ∃ phase', Framed (s.hostCallback callback ready calls) phase' ∧
        (Progress s (s.hostCallback callback ready calls) phase phase' ∧
            (s.hostCallback callback ready calls).hostApp = s.hostApp ∨
          ∃ q p received sent, phase = .responding q p received sent ∧ phase' = .idle ∧
            (s.hostCallback callback ready calls).hostApp =
              (callback s.hostApp p.header (p.payload ++ q.data.drop p.payload.length)).app) := by
  rw [Link.hostCallback]
  split_ifs with hready
  · exact ⟨rfl, phase, h, .inl ⟨.refl, rfl⟩⟩
  · refine ⟨rfl, ?_⟩
    cases phase with
    | idle =>
      obtain ⟨hhost, -, -, hdown⟩ := h.here
      cases ready with
      | readable => exact absurd ⟨rfl, hdown⟩ hready
      | writable =>
        rw [tcpUsbCallback_idle callback hhost rfl]
        exact ⟨.idle, h, .inl ⟨.refl, rfl⟩⟩
    | requesting q received sent =>
      obtain ⟨n, hframed, hprogress, happ⟩ := framed_asks callback h (c := s.hostConn ready calls)
        h.here.1 h.host_open rfl rfl hcalm
      exact ⟨_, hframed, .inl ⟨hprogress, happ⟩⟩
    | responding q p received sent =>
      obtain ⟨s', phase', rfl, hframed, hcases⟩ := framed_awaits callback h ready hcalm
      refine ⟨phase', hframed, ?_⟩
      rcases hcases with hsame | ⟨rfl, happ⟩
      · exact .inl hsame
      · exact .inr ⟨q, p, received, sent, rfl, rfl, happ⟩

theorem framed_hostRequest {s : Link α β} (h : Framed s .idle) (q : Request) {calls : List Outcome}
    (hcalm : Calm calls) :
    (s.hostRequest callback q.header q.data calls).1 = 0 ∧
      ∃ sent, Framed (s.hostRequest callback q.header q.data calls).2 (.requesting q 0 sent) ∧
        (s.hostRequest callback q.header q.data calls).2.hostApp = s.hostApp ∧
        (s.hostRequest callback q.header q.data calls).2.deviceApp = s.deviceApp := by
  obtain ⟨hhost, hdevice, hup, hdown⟩ := h.here
  let host : Endpoint := { s.host with
    state := .writeRequest, amountDone := 0, buffer := q.data, header := q.header }
  let c : Conn := { s.hostConn .writable calls with toEndpoint := host, canRead := false, canWrite := true }
  have hrequest : s.hostRequest callback q.header q.data calls =
      (0, s.withHost (tcpUsbCallback (some callback) c s.hostApp)) := by
    rw [Link.hostRequest, tcpUsbRequest, if_neg fun hne ↦ hne hhost]
    rfl
  have hpos := wire_pos q.message
  have hasks : Asks q 0 host := ⟨rfl, .inl ⟨rfl, rfl, hpos, rfl⟩⟩
  have hstart : Framed { s with host } (.requesting q 0 0) :=
    ⟨h.host_open, h.device_open, hasks, .inl ⟨hdevice, rfl⟩, hup ▸ InTransit.start _, hdown, hpos⟩
  obtain ⟨n, hframed, -, happ⟩ := framed_asks callback hstart (c := c) hasks h.host_open rfl rfl hcalm
  rw [hrequest]
  exact ⟨rfl, 0 + n, hframed, happ, rfl⟩

theorem host_busy {s : Link α β} {phase : Phase} (h : Framed s phase) (hphase : phase ≠ .idle) :
    s.host.state ≠ .idle := by
  intro hidle
  cases phase with
  | idle => exact hphase rfl
  | requesting q received sent =>
    obtain ⟨⟨-, ⟨hstate, -⟩ | ⟨hstate, -⟩⟩, -⟩ := h.here
    · exact absurd (hidle.symm.trans hstate) (by decide)
    · exact absurd (hidle.symm.trans hstate) (by decide)
  | responding q p received sent =>
    obtain ⟨⟨hstate, -⟩, -⟩ := h.here
    exact absurd (hidle.symm.trans hstate) (by decide)

theorem hostRequest_busy {s : Link α β} (h : s.host.state ≠ .idle) (header : Header) (data : List Byte)
    (calls : List Outcome) : s.hostRequest callback header data calls = (-ebusy, s) := by
  have hbusy : (s.hostConn .writable calls).state ≠ .idle := h
  rw [Link.hostRequest, tcpUsbRequest, if_pos hbusy]
  rfl

end Host

section Device

variable (d : Device β)

theorem framed_serves {s : Link α β} {q : Request} {received sent : Nat}
    (h : Framed s (.requesting q received sent)) (ready : Ready) {calls : List Outcome} (hcalm : Calm calls) :
    ∃ s' phase', s.withDevice (tcpUsbCallback (some d.handle) (s.deviceConn ready calls) s.deviceApp) = s' ∧
      Framed s' phase' ∧
      (Progress s s' (.requesting q received sent) phase' ∧ s'.deviceApp = s.deviceApp ∨
        (∃ sent', phase' = .responding q (d.response s.deviceApp q) 0 sent') ∧
          s'.deviceApp = (d.reply s.deviceApp q).app) := by
  obtain ⟨hasks, hserves, htransit, hdown, hlt⟩ := h.here
  obtain ⟨n, c', app', hcallback, hn, hopen, hrx, hcases⟩ :=
    serves_callback d (c := s.deviceConn ready calls) s.deviceApp hserves h.device_open hcalm hlt
      htransit.isPrefix
  rw [hcallback]
  have htransit' : InTransit q.message.wire (received + n) sent c'.rx := hrx ▸ htransit.pull hn
  have hle := htransit'.received_le
  have hsent := htransit'.sent_le
  rcases hcases with ⟨hlt', hserves', htx, rfl⟩ | ⟨heq, rfl, k, hk, hanswers, htx⟩
  · refine ⟨_, .requesting q (received + n) sent, rfl,
      ⟨h.host_open, hopen, hasks, hserves', htransit', htx.trans hdown, hlt'⟩,
      .inl ⟨.of_bytes (n := n) (.requesting ..) ?_ ?_, rfl⟩⟩
    · simp only [Phase.left]
      omega
    · rintro rfl
      exact ⟨hrx, htx⟩
  · obtain ⟨hall, hup⟩ := htransit'.sent_of_received heq
    have hawaits : Awaits q (d.response s.deviceApp q) 0 s.host := by
      obtain ⟨hbuffer, ⟨-, -, hsent', -⟩ | ⟨hstate, hamount, -⟩⟩ := hasks
      · omega
      · exact ⟨hstate, hamount, gathers_start hamount hbuffer⟩
    have hbegin : InTransit (d.response s.deviceApp q).wire 0 k c'.tx := by
      have hpush := (InTransit.start (d.response s.deviceApp q).wire).push (n := k) (by omega)
      rw [htx]
      simpa [Link.deviceConn, hdown] using hpush
    exact ⟨_, .responding q (d.response s.deviceApp q) 0 k, rfl,
      ⟨h.host_open, hopen, hawaits, hanswers, hbegin, hup, wire_pos _⟩, .inr ⟨⟨k, rfl⟩, rfl⟩⟩

theorem framed_answers {s : Link α β} {q : Request} {p : Message isIn} {received sent : Nat}
    (h : Framed s (.responding q p received sent)) {ready : Ready} {calls : List Outcome} (hcalm : Calm calls)
    (hready : ready = .writable ∨ s.device.state ≠ .idle) :
    ∃ s' n, s.withDevice (tcpUsbCallback (some d.handle) (s.deviceConn ready calls) s.deviceApp) = s' ∧
      Framed s' (.responding q p received (sent + n)) ∧
      Progress s s' (.responding q p received sent) (.responding q p received (sent + n)) ∧
      s'.deviceApp = s.deviceApp := by
  obtain ⟨hawaits, hanswers, htransit, hup, hlt⟩ := h.here
  have hread : (s.deviceConn ready calls).canRead = false ∨ (s.deviceConn ready calls).state ≠ .idle := by
    rcases hready with rfl | hbusy
    · exact .inl rfl
    · exact .inr hbusy
  obtain ⟨n, c', hcallback, hn, hanswers', hopen, hrx, htx⟩ :=
    answers_callback d.handle s.deviceApp hanswers h.device_open hcalm hread
  rw [hcallback]
  have hle := htransit.received_le
  refine ⟨_, n, rfl, ⟨h.host_open, hopen, hawaits, hanswers', ?_, hrx.trans hup, hlt⟩,
    .of_bytes (n := n) (.responding ..) ?_ ?_, rfl⟩
  · rw [Link.withDevice, htx]
    exact htransit.push hn
  · simp only [Phase.left]
    omega
  · rintro rfl
    refine ⟨hrx, ?_⟩
    rw [Link.withDevice, htx, List.take_zero, List.append_nil]
    rfl

theorem framed_deviceCallback {s : Link α β} {phase : Phase} (h : Framed s phase) (ready : Ready)
    {calls : List Outcome} (hcalm : Calm calls) :
    (s.deviceCallback d.handle ready calls).hostApp = s.hostApp ∧
      ∃ phase', Framed (s.deviceCallback d.handle ready calls) phase' ∧
        (Progress s (s.deviceCallback d.handle ready calls) phase phase' ∧
            (s.deviceCallback d.handle ready calls).deviceApp = s.deviceApp ∨
          ∃ q received sent sent', phase = .requesting q received sent ∧
            phase' = .responding q (d.response s.deviceApp q) 0 sent' ∧
            (s.deviceCallback d.handle ready calls).deviceApp = (d.reply s.deviceApp q).app) := by
  rw [Link.deviceCallback]
  split_ifs with hready
  · exact ⟨rfl, phase, h, .inl ⟨.refl, rfl⟩⟩
  · refine ⟨rfl, ?_⟩
    cases phase with
    | idle =>
      obtain ⟨-, hdevice, hup, -⟩ := h.here
      cases ready with
      | readable => exact absurd ⟨rfl, hup⟩ hready
      | writable =>
        rw [tcpUsbCallback_idle d.handle hdevice rfl]
        exact ⟨.idle, h, .inl ⟨.refl, rfl⟩⟩
    | requesting q received sent =>
      obtain ⟨s', phase', rfl, hframed, hcases⟩ := framed_serves d h ready hcalm
      refine ⟨phase', hframed, ?_⟩
      rcases hcases with hsame | ⟨⟨sent', rfl⟩, happ⟩
      · exact .inl hsame
      · exact .inr ⟨q, received, sent, sent', rfl, rfl, happ⟩
    | responding q p received sent =>
      have hwritable : ready = .writable ∨ s.device.state ≠ .idle := by
        cases ready with
        | readable => exact absurd ⟨rfl, h.here.2.2.2.1⟩ hready
        | writable => exact .inl rfl
      obtain ⟨s', n, rfl, hframed, hprogress, happ⟩ := framed_answers d h hcalm hwritable
      exact ⟨_, hframed, .inl ⟨hprogress, happ⟩⟩

end Device

end IDeviceEmulator.TcpUsb
