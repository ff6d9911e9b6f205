import IDeviceEmulator.TcpUsb.Transfer

namespace IDeviceEmulator.TcpUsb

/-- A header and the memory behind the data pointer, as given to `tcp_usb_request`. -/
structure Request where
  header : Header
  data : List Byte
  fits : payloadSize isOut header ≤ data.length

namespace Request

def message (q : Request) : Message isOut where
  header := q.header
  payload := q.data.take (payloadSize isOut q.header)
  length_payload := by rw [List.length_take, Nat.min_eq_left q.fits]

def received (q : Request) : List Byte :=
  q.message.payload ++ (allocate q.header []).drop q.message.payload.length

end Request

/-- A callback for requests. It does not return more bytes than it was given room for. -/
structure Device (β : Type) where
  handle : Callback β
  fits : ∀ app header buffer,
    let reply := handle app header buffer
    payloadSize isIn { reply.header with length := BitVec.ofInt 16 reply.ret } ≤ reply.buffer.length

namespace Device

variable {β : Type} (d : Device β) (app : β) (q : Request)

def reply : Reply β := d.handle app q.header q.received

def responseHeader : Header := { (d.reply app q).header with length := BitVec.ofInt 16 (d.reply app q).ret }

def response : Message isIn where
  header := d.responseHeader app q
  payload := (d.reply app q).buffer.take (payloadSize isIn (d.responseHeader app q))
  length_payload := by
    rw [List.length_take]
    exact Nat.min_eq_left (d.fits app q.header q.received)

end Device

def acknowledging : Device Unit where
  handle _ header buffer := ⟨0, header, buffer, ()⟩
  fits _ _ _ := by simp [payloadSize]

def Asks (q : Request) (sent : Nat) (e : Endpoint) : Prop :=
  e.buffer = q.data ∧
    (e.state = .writeRequest ∧ e.amountDone = sent ∧ sent < q.message.wire.length ∧ e.header = q.header ∨
      e.state = .readResponse ∧ e.amountDone = 0 ∧ sent = q.message.wire.length)

def Serves (q : Request) (received : Nat) (e : Endpoint) : Prop :=
  e.state = .idle ∧ received = 0 ∨
    e.state = .readRequest ∧ e.amountDone = received ∧ Gathers allocate q.message (allocate q.header []) e

def Answers (p : Message isIn) (sent : Nat) (e : Endpoint) : Prop :=
  e.state = .writeResponse ∧ e.amountDone = sent ∧ sent < p.wire.length ∧ Conn.Holds p e ∨
    e.state = .idle ∧ sent = p.wire.length

def Awaits (q : Request) (p : Message isIn) (received : Nat) (e : Endpoint) : Prop :=
  e.state = .readResponse ∧ e.amountDone = received ∧ Gathers keep p q.data e

variable {carries : Header → Bool}

theorem wire_pos (m : Message carries) : 0 < m.wire.length := by
  have hwire := m.length_wire
  have hsize : sizeofHeader = 5 := rfl
  omega

theorem gathers_start {prepare : Header → List Byte → List Byte} {m : Message carries} {base : List Byte}
    {e : Endpoint} (hamount : e.amountDone = 0) (hbase : prepare m.header e.buffer = base) :
    Gathers prepare m base e := by
  refine ⟨fun _ ↦ ⟨?_, hbase⟩, fun hlate ↦ ?_⟩
  · rw [hamount, List.take_zero, List.take_zero]
  · rw [hamount] at hlate
    exact absurd hlate (by decide)

theorem receive_nothing {c : Conn} (hamount : c.amountDone = 0) (hrx : c.rx = []) (hcalm : Calm c.calls) :
    ∃ c', c.receive isIn keep = .error c' ∧ Conn.Took 0 c c' ∧ c'.buffer = c.buffer := by
  let m : Message isIn := ⟨{}, [], rfl⟩
  have hstart : Gathers keep m c.buffer c.toEndpoint := gathers_start hamount rfl
  have hpos := wire_pos m
  obtain ⟨n, c', hn, -, htook, h', hcases⟩ := receive_cases hstart hcalm (by omega)
    (hrx ▸ List.nil_prefix)
  have hzero : n = 0 := by
    rw [hrx] at hn
    exact Nat.le_zero.mp hn
  subst hzero
  rcases hcases with ⟨-, herror⟩ | ⟨heq, -⟩
  · refine ⟨c', herror, htook, (h'.early ?_).2⟩
    rw [htook.amountDone, hamount]
    decide
  · omega

section Callback

variable {α : Type} (callback : Callback α)

theorem callback_writeRequest {c : Conn} (app : α) (hopen : c.closed = false) (hstate : c.state = .writeRequest) :
    tcpUsbCallback (some callback) c app = writeRequest (some callback) c app := by
  rw [tcpUsbCallback, hopen, hstate]
  rfl

theorem callback_readResponse {c : Conn} (app : α) (hopen : c.closed = false) (hstate : c.state = .readResponse) :
    tcpUsbCallback (some callback) c app = readResponse (some callback) c app := by
  rw [tcpUsbCallback, hopen, hstate]
  rfl

theorem readResponse_nothing {c : Conn} (app : α) (hamount : c.amountDone = 0) (hrx : c.rx = [])
    (hcalm : Calm c.calls) :
    ∃ c', readResponse (some callback) c app = (c', app) ∧ Conn.Took 0 c c' ∧ c'.buffer = c.buffer := by
  obtain ⟨c', herror, htook, hbuffer⟩ := receive_nothing hamount hrx hcalm
  refine ⟨c', ?_, htook, hbuffer⟩
  rw [readResponse, herror]

theorem holds_of_header {q : Request} {e : Endpoint} (hheader : e.header = q.header) (hbuffer : e.buffer = q.data) :
    Conn.Holds q.message e := by
  refine ⟨hheader, ?_⟩
  rw [hbuffer, q.message.length_payload]
  rfl

theorem asks_callback {q : Request} {sent : Nat} {c : Conn} (app : α) (h : Asks q sent c.toEndpoint)
    (hopen : c.closed = false) (hcalm : Calm c.calls) (hrx : c.rx = []) :
    ∃ n c', tcpUsbCallback (some callback) c app = (c', app) ∧ sent + n ≤ q.message.wire.length ∧
      Asks q (sent + n) c'.toEndpoint ∧ c'.closed = false ∧ c'.rx = [] ∧
      c'.tx = c.tx ++ (q.message.wire.drop sent).take n := by
  obtain ⟨hbuffer, ⟨hstate, rfl, hlt, hheader⟩ | ⟨hstate, hamount, rfl⟩⟩ := h
  · have hcallback := callback_writeRequest callback app hopen hstate
    obtain ⟨n, c', hn, hwrote, ⟨hlt', herror⟩ | ⟨heq, hok⟩⟩ :=
      Conn.send_cases (holds_of_header hheader hbuffer) hcalm hlt
    · have hlength : ((q.message.wire.drop c.amountDone).take n).length = n := by
        rw [List.length_take, List.length_drop]
        omega
      refine ⟨n, c', ?_, hn, ?_, ?_, hwrote.rx.trans hrx, hwrote.tx⟩
      · rw [hcallback, writeRequest, herror]
      · rw [hwrote.endpoint, hlength]
        exact ⟨hbuffer, .inl ⟨hstate, rfl, hlt', hheader⟩⟩
      · rw [hwrote.endpoint]
        exact hopen
    · obtain ⟨c'', hread, htook, hbuffer'⟩ := readResponse_nothing callback
        (c := { c' with state := .readResponse, amountDone := 0 }) app rfl (hwrote.rx.trans hrx) hwrote.calm
      refine ⟨n, c'', ?_, hn, ⟨?_, .inr ⟨htook.state, htook.amountDone, heq⟩⟩, ?_, ?_, ?_⟩
      · rw [hcallback, writeRequest, hok]
        exact hread
      · rw [hbuffer']
        exact (congrArg Endpoint.buffer hwrote.endpoint).trans hbuffer
      · exact htook.closed.trans ((congrArg Endpoint.closed hwrote.endpoint).trans hopen)
      · exact htook.rx.trans (hwrote.rx.trans hrx)
      · exact htook.tx.trans hwrote.tx
  · have hcallback := callback_readResponse callback app hopen hstate
    obtain ⟨c', hread, htook, hbuffer'⟩ := readResponse_nothing callback app hamount hrx hcalm
    refine ⟨0, c', hcallback.trans hread, Nat.le_refl _, ⟨hbuffer'.trans hbuffer, .inr ⟨?_, ?_, rfl⟩⟩, ?_, ?_, ?_⟩
    · exact htook.state.trans hstate
    · exact htook.amountDone.trans hamount
    · exact htook.closed.trans hopen
    · exact htook.rx.trans hrx
    · rw [htook.tx, List.take_zero, List.append_nil]

theorem awaits_callback {q : Request} {p : Message isIn} {received : Nat} {c : Conn} (app : α)
    (h : Awaits q p received c.toEndpoint) (hopen : c.closed = false) (hcalm : Calm c.calls)
    (hlt : received < p.wire.length) (hrx : c.rx <+: p.wire.drop received) :
    ∃ n c' app', tcpUsbCallback (some callback) c app = (c', app') ∧ n ≤ c.rx.length ∧ c'.closed = false ∧
      c'.tx = c.tx ∧ c'.rx = c.rx.drop n ∧
      (received + n < p.wire.length ∧ Awaits q p (received + n) c'.toEndpoint ∧ app' = app ∨
        received + n = p.wire.length ∧ c'.state = .idle ∧
          app' = (callback app p.header (p.payload ++ q.data.drop p.payload.length)).app) := by
  obtain ⟨hstate, rfl, hgathers⟩ := h
  have hcallback := callback_readResponse callback app hopen hstate
  obtain ⟨n, c', hn, -, htook, hgathers', ⟨hlt', herror⟩ | ⟨heq, hok⟩⟩ := receive_cases hgathers hcalm hlt hrx
  · refine ⟨n, c', app, ?_, hn, htook.closed.trans hopen, htook.tx, htook.rx, .inl ⟨hlt', ?_, rfl⟩⟩
    · rw [hcallback, readResponse, herror]
    · exact ⟨htook.state.trans hstate, htook.amountDone, hgathers'⟩
  · obtain ⟨hheader, hbuffer⟩ := hgathers'.complete (htook.amountDone.trans heq)
    let reply := callback app p.header (p.payload ++ q.data.drop p.payload.length)
    have hread : readResponse (some callback) c app =
        ({ c' with state := .idle, header := reply.header, buffer := reply.buffer }, reply.app) := by
      rw [readResponse, hok]
      dsimp only
      rw [hheader, hbuffer]
    exact ⟨n, _, _, hcallback.trans hread, hn, htook.closed.trans hopen, htook.tx, htook.rx,
      .inr ⟨heq, rfl, rfl⟩⟩

theorem writeResponse_cases {p : Message isIn} {c : Conn} (app : α) (hstate : c.state = .writeResponse)
    (hlt : c.amountDone < p.wire.length) (hholds : Conn.Holds p c.toEndpoint) (hopen : c.closed = false)
    (hcalm : Calm c.calls) :
    ∃ n c', writeResponse c app = (c', app) ∧ c.amountDone + n ≤ p.wire.length ∧
      Answers p (c.amountDone + n) c'.toEndpoint ∧ c'.closed = false ∧ c'.rx = c.rx ∧
      c'.tx = c.tx ++ (p.wire.drop c.amountDone).take n := by
  obtain ⟨n, c', hn, hwrote, ⟨hlt', herror⟩ | ⟨heq, hok⟩⟩ := Conn.send_cases hholds hcalm hlt
  · have hlength : ((p.wire.drop c.amountDone).take n).length = n := by
      rw [List.length_take, List.length_drop]
      omega
    refine ⟨n, c', ?_, hn, ?_, ?_, hwrote.rx, hwrote.tx⟩
    · rw [writeResponse, herror]
    · rw [hwrote.endpoint, hlength]
      exact .inl ⟨hstate, rfl, hlt', hholds.header, hholds.buffer⟩
    · rw [hwrote.endpoint]
      exact hopen
  · refine ⟨n, { c' with state := .idle }, ?_, hn, .inr ⟨rfl, heq⟩, ?_, hwrote.rx, hwrote.tx⟩
    · rw [writeResponse, hok]
    · exact (congrArg Endpoint.closed hwrote.endpoint).trans hopen

theorem answers_callback {p : Message isIn} {sent : Nat} {c : Conn} (app : α) (h : Answers p sent c.toEndpoint)
    (hopen : c.closed = false) (hcalm : Calm c.calls) (hread : c.canRead = false ∨ c.state ≠ .idle) :
    ∃ n c', tcpUsbCallback (some callback) c app = (c', app) ∧ sent + n ≤ p.wire.length ∧
      Answers p (sent + n) c'.toEndpoint ∧ c'.closed = false ∧ c'.rx = c.rx ∧
      c'.tx = c.tx ++ (p.wire.drop sent).take n := by
  rcases h with ⟨hstate, rfl, hlt, hholds⟩ | ⟨hstate, rfl⟩
  · have hcallback : tcpUsbCallback (some callback) c app = writeResponse c app := by
      rw [tcpUsbCallback, hopen, hstate]
      rfl
    rw [hcallback]
    exact writeResponse_cases app hstate hlt hholds hopen hcalm
  · have hidle : c.canRead = false := hread.resolve_right fun hne ↦ hne hstate
    have hcallback : tcpUsbCallback (some callback) c app = (c, app) := by
      rw [tcpUsbCallback, hopen, hstate]
      simp [hidle]
    refine ⟨0, c, hcallback, Nat.le_refl _, .inr ⟨hstate, rfl⟩, hopen, rfl, ?_⟩
    rw [List.take_zero, List.append_nil]

end Callback

section Serve

variable {β : Type} (d : Device β)

theorem holds_response (app : β) (q : Request) (e : Endpoint) :
    Conn.Holds (d.response app q) { e with
      header := d.responseHeader app q, buffer := (d.reply app q).buffer } := by
  refine ⟨rfl, ?_⟩
  rw [(d.response app q).length_payload]
  rfl

theorem readRequest_cases {q : Request} {c : Conn} (app : β) (hstate : c.state = .readRequest)
    (hgathers : Gathers allocate q.message (allocate q.header []) c.toEndpoint)
    (hopen : c.closed = false) (hcalm : Calm c.calls) (hlt : c.amountDone < q.message.wire.length)
    (hrx : c.rx <+: q.message.wire.drop c.amountDone) :
    ∃ n c' app', readRequest (some d.handle) c app = (c', app') ∧ n ≤ c.rx.length ∧ c'.closed = false ∧
      c'.rx = c.rx.drop n ∧
      (c.amountDone + n < q.message.wire.length ∧ Serves q (c.amountDone + n) c'.toEndpoint ∧
          c'.tx = c.tx ∧ app' = app ∨
        c.amountDone + n = q.message.wire.length ∧ app' = (d.reply app q).app ∧
          ∃ k, k ≤ (d.response app q).wire.length ∧ Answers (d.response app q) k c'.toEndpoint ∧
            c'.tx = c.tx ++ (d.response app q).wire.take k) := by
  obtain ⟨n, c', hn, -, htook, hgathers', ⟨hlt', herror⟩ | ⟨heq, hok⟩⟩ := receive_cases hgathers hcalm hlt hrx
  · refine ⟨n, c', app, ?_, hn, htook.closed.trans hopen, htook.rx, .inl ⟨hlt', ?_, htook.tx, rfl⟩⟩
    · rw [readRequest, herror]
    · exact .inr ⟨htook.state.trans hstate, htook.amountDone, hgathers'⟩
  · obtain ⟨hheader, hbuffer⟩ := hgathers'.complete (htook.amountDone.trans heq)
    let c₁ : Conn := { c' with
      state := .writeResponse, amountDone := 0, header := d.responseHeader app q
      buffer := (d.reply app q).buffer }
    have hread : readRequest (some d.handle) c app = writeResponse c₁ (d.reply app q).app := by
      rw [readRequest, hok]
      dsimp only
      rw [hheader, hbuffer]
      rfl
    obtain ⟨k, c₂, hwrite, hk, hanswers, hopen', hrx', htx'⟩ := writeResponse_cases (c := c₁)
      (d.reply app q).app rfl (wire_pos (d.response app q))
      (holds_response d app q { c' with state := .writeResponse, amountDone := 0 })
      (htook.closed.trans hopen) htook.calm
    refine ⟨n, c₂, _, hread.trans hwrite, hn, hopen', hrx'.trans htook.rx, .inr ⟨heq, rfl, k, ?_, ?_, ?_⟩⟩
    · exact Nat.zero_add k ▸ hk
    · exact Nat.zero_add k ▸ hanswers
    · rw [htx']
      exact congrArg (· ++ _) htook.tx

theorem serves_callback {q : Request} {received : Nat} {c : Conn} (app : β) (h : Serves q received c.toEndpoint)
    (hopen : c.closed = false) (hcalm : Calm c.calls) (hlt : received < q.message.wire.length)
    (hrx : c.rx <+: q.message.wire.drop received) :
    ∃ n c' app', tcpUsbCallback (some d.handle) c app = (c', app') ∧ n ≤ c.rx.length ∧ c'.closed = false ∧
      c'.rx = c.rx.drop n ∧
      (received + n < q.message.wire.length ∧ Serves q (received + n) c'.toEndpoint ∧
          c'.tx = c.tx ∧ app' = app ∨
        received + n = q.message.wire.length ∧ app' = (d.reply app q).app ∧
          ∃ k, k ≤ (d.response app q).wire.length ∧ Answers (d.response app q) k c'.toEndpoint ∧
            c'.tx = c.tx ++ (d.response app q).wire.take k) := by
  rcases h with ⟨hstate, rfl⟩ | ⟨hstate, rfl, hgathers⟩
  · by_cases hread : c.canRead = true
    · have hcallback : tcpUsbCallback (some d.handle) c app =
          readRequest (some d.handle) { c with amountDone := 0, state := .readRequest } app := by
        rw [tcpUsbCallback, hopen, hstate]
        simp [hread]
      rw [hcallback]
      exact readRequest_cases d (c := { c with amountDone := 0, state := .readRequest }) app rfl
        (gathers_start rfl rfl) hopen hcalm hlt hrx
    · have hcallback : tcpUsbCallback (some d.handle) c app = (c, app) := by
        rw [tcpUsbCallback, hopen, hstate]
        simp [hread]
      exact ⟨0, c, app, hcallback, Nat.zero_le _, hopen, rfl, .inl ⟨hlt, .inl ⟨hstate, rfl⟩, rfl, rfl⟩⟩
  · have hcallback : tcpUsbCallback (some d.handle) c app = readRequest (some d.handle) c app := by
      rw [tcpUsbCallback, hopen, hstate]
      rfl
    rw [hcallback]
    exact readRequest_cases d app hstate hgathers hopen hcalm hlt hrx

end Serve

end IDeviceEmulator.TcpUsb
