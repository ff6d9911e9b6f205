import IDeviceEmulator.TcpUsb.Link

namespace IDeviceEmulator.TcpUsb

/-- A host endpoint with an untrusted peer: the bytes that have arrived and are unread, and the
buffer that `data_callback` was given. -/
structure Waiting where
  host : Endpoint
  unread : List Byte
  written : List Byte := []
  delivered : Option (List Byte) := none

/-- Bytes from the peer and the callback of the main loop after them. -/
structure Arrival where
  bytes : List Byte := []
  ready : Ready
  calls : List Outcome

def noting : Callback (Option (List Byte)) := fun _ header buffer ↦ ⟨0, header, buffer, some buffer⟩

namespace Waiting

def conn (w : Waiting) (ready : Ready) (calls : List Outcome) : Conn :=
  { w.host with
    canRead := ready = .readable, canWrite := ready = .writable, rx := w.unread, tx := w.written, calls }

def ofConn (r : Conn × Option (List Byte)) : Waiting := ⟨r.1.toEndpoint, r.1.rx, r.1.tx, r.2⟩

/-- `tcp_usb_request` on an idle endpoint when the first bytes of the peer may be there already. -/
def request (host : Endpoint) (q : Request) (early : List Byte) (calls : List Outcome) : Waiting :=
  let w : Waiting := { host, unread := early }
  ofConn (tcpUsbRequest (some noting) q.header q.data (w.conn .writable calls) none).2

/-- One turn of the main loop, up to the call of `data_callback`. -/
def arrive (w : Waiting) (a : Arrival) : Waiting :=
  if w.delivered.isSome then w
  else
    let w := { w with unread := w.unread ++ a.bytes }
    ofConn (tcpUsbCallback (some noting) (w.conn a.ready a.calls) w.delivered)

end Waiting

/-- However the stream arrives and the calls move it, the data buffer of the request never holds
more bytes than it has room for. Bytes stored behind its end extend it. -/
def ResponseBounded (q : Request) (stream : List Byte) : Prop :=
  ∀ (host : Endpoint) (early : List Byte) (calls : List Outcome) (arrivals : List Arrival),
    host.state = .idle → host.closed = false → early ++ arrivals.flatMap Arrival.bytes <+: stream →
    (arrivals.foldl Waiting.arrive (Waiting.request host q early calls)).host.buffer.length ≤ q.data.length

/-- The response's own header announces no more than there is room for, or the peer does not send that much. -/
def ResponseFits (q : Request) (stream : List Byte) : Prop :=
  stream.length ≤ sizeofHeader + q.data.length ∨
    payloadSize isIn (Header.ofBytes (stream.take sizeofHeader)) ≤ q.data.length

theorem ResponseFits.take {q : Request} {stream arrived : List Byte} (h : ResponseFits q stream)
    (hpre : arrived <+: stream) : ResponseFits q arrived := by
  have hle := hpre.length_le
  rcases h with h | h
  · exact .inl (by omega)
  · by_cases hlength : arrived.length ≤ sizeofHeader + q.data.length
    · exact .inl hlength
    · right
      obtain ⟨rest, rfl⟩ := hpre
      rwa [List.take_append_of_le_length (by omega)] at h

theorem length_store_le (memory bytes : List Byte) (offset : Nat) :
    (store memory offset bytes).length ≤ max memory.length (offset + bytes.length) := by
  simp only [store, List.length_append, List.length_take, List.length_drop]
  omega

namespace Conn

/-- The endpoint after a call whose bytes have been stored: a count of eleven is not counted, and
a return value of zero may close the endpoint. -/
theorem checkReturn_any (can : Bool) (c : Conn) {ret : Int} (hret : ret = -1 ∨ 0 ≤ ret) :
    ∃ done closed, (done = c.amountDone + ret.toNat ∨ ret = 11 ∧ done = c.amountDone) ∧
      (checkReturn can ret c = .error { c with amountDone := done, closed } ∨
        checkReturn can ret c = .ok { c with amountDone := done } ∧ closed = c.closed ∧
          done = c.amountDone + ret.toNat) := by
  by_cases hzero : ret = 0
  · subst hzero
    refine ⟨c.amountDone, can || c.closed, .inl rfl, .inl ?_⟩
    cases can with
    | true => rfl
    | false => rfl
  · by_cases hblock : ret = ewouldblock ∨ ret = 0 ∨ ret = -1
    · refine ⟨c.amountDone, c.closed, ?_, .inl ?_⟩
      · rcases hblock with h | h | h
        · exact .inr ⟨h, rfl⟩
        · exact absurd h hzero
        · exact .inl (by rw [h]; rfl)
      · rw [checkReturn, if_neg fun h ↦ hzero h.1, if_pos hblock]
    · refine ⟨c.amountDone + ret.toNat, c.closed, .inl rfl, .inr ⟨?_, rfl, rfl⟩⟩
      rw [checkReturn, if_neg fun h ↦ hzero h.1, if_neg hblock, if_neg (by omega)]

theorem readPart_of_call {c : Conn} {upTo : Nat} {save : Endpoint → List Byte → Endpoint} (hsave : Keeps save)
    {ret : Int} {calls : List Outcome} (hret : ret = -1 ∨ 0 ≤ ret)
    (hcall : c.call (min (upTo - c.amountDone) c.rx.length) = (ret, { c with calls })) :
    ∃ done closed c', (done = c.amountDone + ret.toNat ∨ ret = 11 ∧ done = c.amountDone) ∧
      c'.rx = c.rx.drop ret.toNat ∧
      c'.toEndpoint = { save c.toEndpoint (c.rx.take ret.toNat) with amountDone := done, closed } ∧
      (readPart upTo save c = .error c' ∨ readPart upTo save c = .ok c' ∧ upTo ≤ done) := by
  obtain ⟨hamount, hclosed, hstate⟩ := hsave c.toEndpoint (c.rx.take ret.toNat)
  let c₁ : Conn :=
    { c with calls, rx := c.rx.drop ret.toNat, toEndpoint := save c.toEndpoint (c.rx.take ret.toNat) }
  have hpart : readPart upTo save c = checkReturn c.canRead ret c₁ >>= fun c ↦
      let c := { c with canRead := false }
      if c.amountDone < upTo then .error c else .ok c := by
    simp only [readPart, read, hcall]
    rfl
  obtain ⟨done, closed, hdone, hcheck⟩ := checkReturn_any c.canRead c₁ hret
  rw [show c₁.amountDone = c.amountDone from hamount] at hdone
  rcases hcheck with herror | ⟨hok, hsame, -⟩
  · refine ⟨done, closed, { c₁ with amountDone := done, closed }, hdone, rfl, rfl, .inl ?_⟩
    rw [hpart, herror]
    rfl
  · refine ⟨done, closed, { c₁ with amountDone := done, closed, canRead := false }, hdone, rfl, rfl, ?_⟩
    have hpart' : readPart upTo save c =
        if done < upTo then .error { c₁ with amountDone := done, closed, canRead := false }
        else .ok { c₁ with amountDone := done, closed, canRead := false } := by
      rw [hpart, hok, hsame]
      rfl
    by_cases hlt : done < upTo
    · exact .inl (hpart'.trans (if_pos hlt))
    · exact .inr ⟨hpart'.trans (if_neg hlt), by omega⟩

/-- What a call of `read` for the rest of a part can do. -/
theorem readPart_any {c : Conn} {upTo : Nat} (hle : c.amountDone ≤ upTo)
    {save : Endpoint → List Byte → Endpoint} (hsave : Keeps save) :
    ∃ n done closed c', n ≤ c.rx.length ∧ c.amountDone + n ≤ upTo ∧
      (done = c.amountDone + n ∨ n = 11 ∧ done = c.amountDone) ∧ c'.rx = c.rx.drop n ∧
      c'.toEndpoint = { save c.toEndpoint (c.rx.take n) with amountDone := done, closed } ∧
      (readPart upTo save c = .error c' ∨ readPart upTo save c = .ok c' ∧ upTo ≤ done) := by
  obtain ⟨calls, -, hcall | ⟨-, hcall⟩ | ⟨n, hn, hlimit, -, hcall⟩⟩ :=
    c.call_any (min (upTo - c.amountDone) c.rx.length)
  · obtain ⟨done, closed, c', hdone, hrest⟩ := readPart_of_call hsave (.inl rfl) hcall
    exact ⟨0, done, closed, c', Nat.zero_le _, hle, .inl (by simpa using hdone), hrest⟩
  · obtain ⟨done, closed, c', hdone, hrest⟩ := readPart_of_call hsave (.inr (Int.le_refl 0)) hcall
    exact ⟨0, done, closed, c', Nat.zero_le _, hle, .inl (by simpa using hdone), hrest⟩
  · obtain ⟨done, closed, c', hdone, hrest⟩ := readPart_of_call hsave (.inr (Int.natCast_nonneg n)) hcall
    rw [Int.toNat_natCast] at hdone hrest
    refine ⟨n, done, closed, c', by omega, by omega, ?_, hrest⟩
    exact hdone.imp_right fun ⟨heleven, hd⟩ ↦ ⟨by omega, hd⟩

/-- The part of a connection that sending does not touch. -/
structure Sent (c c' : Conn) : Prop where
  header : c'.header = c.header
  buffer : c'.buffer = c.buffer
  state : c'.state = c.state
  rx : c'.rx = c.rx

theorem Sent.trans {c c' c'' : Conn} (h : Sent c c') (h' : Sent c' c'') : Sent c c'' :=
  ⟨h'.header.trans h.header, h'.buffer.trans h.buffer, h'.state.trans h.state, h'.rx.trans h.rx⟩

theorem writePart_any (upTo : Nat) (bytes : List Byte) (c : Conn) :
    ∃ c', Sent c c' ∧ (writePart upTo bytes c = .error c' ∨ writePart upTo bytes c = .ok c') := by
  have hwrite (ret : Int) (calls : List Outcome) (hret : ret = -1 ∨ 0 ≤ ret)
      (hcall : c.call bytes.length = (ret, { c with calls })) :
      ∃ c', Sent c c' ∧ (writePart upTo bytes c = .error c' ∨ writePart upTo bytes c = .ok c') := by
    let c₁ : Conn := { c with calls, tx := c.tx ++ bytes.take ret.toNat }
    have hpart : writePart upTo bytes c = checkReturn c.canWrite ret c₁ >>= fun c ↦
        let c := { c with canWrite := false }
        if c.amountDone < upTo then .error c else .ok c := by
      simp only [writePart, write, hcall]
      rfl
    obtain ⟨done, closed, -, herror | ⟨hok, -, -⟩⟩ := checkReturn_any c.canWrite c₁ hret
    · refine ⟨{ c₁ with amountDone := done, closed }, ⟨rfl, rfl, rfl, rfl⟩, .inl ?_⟩
      rw [hpart, herror]
      rfl
    · refine ⟨{ c₁ with amountDone := done, canWrite := false }, ⟨rfl, rfl, rfl, rfl⟩, ?_⟩
      have hpart' : writePart upTo bytes c =
          if done < upTo then .error { c₁ with amountDone := done, canWrite := false }
          else .ok { c₁ with amountDone := done, canWrite := false } := by
        rw [hpart, hok]
        rfl
      by_cases hlt : done < upTo
      · exact .inl (hpart'.trans (if_pos hlt))
      · exact .inr (hpart'.trans (if_neg hlt))
  obtain ⟨calls, -, hcall | ⟨-, hcall⟩ | ⟨n, -, -, -, hcall⟩⟩ := c.call_any bytes.length
  · exact hwrite (-1) calls (.inl rfl) hcall
  · exact hwrite 0 calls (.inr (Int.le_refl 0)) hcall
  · exact hwrite n calls (.inr (by omega)) hcall

theorem send_any (carries : Header → Bool) (c : Conn) :
    ∃ c', Sent c c' ∧ (c.send carries = .error c' ∨ c.send carries = .ok c') := by
  have hpayload (c : Conn) : ∃ c', Sent c c' ∧
      ((if carries c.header ∧ 0 < c.header.length.toInt then c.writePayload else .ok c) = .error c' ∨
        (if carries c.header ∧ 0 < c.header.length.toInt then c.writePayload else .ok c) = .ok c') := by
    split_ifs
    · exact writePart_any _ _ c
    · exact ⟨c, ⟨rfl, rfl, rfl, rfl⟩, .inr rfl⟩
  rw [send]
  split_ifs with hheader
  · obtain ⟨c₁, hsent, herror | hok⟩ := writePart_any sizeofHeader (c.header.bytes.drop c.amountDone) c
    · refine ⟨c₁, hsent, .inl ?_⟩
      rw [writeHeader, herror]
      rfl
    · obtain ⟨c₂, hsent', hresult⟩ := hpayload c₁
      refine ⟨c₂, hsent.trans hsent', ?_⟩
      rw [writeHeader, hok]
      exact hresult
  · exact hpayload c

end Conn

section Receive

variable {q : Request} {arrived : List Byte}

/-- A response being read. Once its header is there, the bytes counted of the payload are among
those that have been read. -/
structure Receiving (q : Request) (arrived : List Byte) (e : Endpoint) (unread : List Byte) : Prop where
  bounded : e.buffer.length ≤ q.data.length
  early : e.amountDone < sizeofHeader → e.header.bytes.take e.amountDone = arrived.take e.amountDone ∧
    e.amountDone ≤ arrived.length ∧ unread = arrived.drop e.amountDone
  late : sizeofHeader ≤ e.amountDone → e.header.bytes = arrived.take sizeofHeader ∧
    e.amountDone ≤ sizeofHeader + e.header.length.toNat ∧
    ∃ m, e.amountDone ≤ m ∧ m ≤ arrived.length ∧ unread = arrived.drop m

theorem Receiving.more {e : Endpoint} {unread : List Byte} (h : Receiving q arrived e unread) (bytes : List Byte) :
    Receiving q (arrived ++ bytes) e (unread ++ bytes) := by
  refine ⟨h.bounded, fun hearly ↦ ?_, fun hlate ↦ ?_⟩
  · obtain ⟨htake, hle, hunread⟩ := h.early hearly
    refine ⟨?_, ?_, ?_⟩
    · rw [htake, List.take_append_of_le_length hle]
    · rw [List.length_append]
      omega
    · rw [hunread, List.drop_append_of_le_length hle]
  · obtain ⟨hheader, hle, m, hm, hm', hunread⟩ := h.late hlate
    refine ⟨?_, hle, m, hm, ?_, ?_⟩
    · rw [hheader, List.take_append_of_le_length (by omega)]
    · rw [List.length_append]
      omega
    · rw [hunread, List.drop_append_of_le_length hm']

theorem bytes_saveHeader {e : Endpoint} {bytes : List Byte} (h : e.amountDone + bytes.length ≤ sizeofHeader) :
    (e.saveHeader bytes).header.bytes = store e.header.bytes e.amountDone bytes := by
  have hlength := e.header.length_bytes
  refine Header.bytes_ofBytes ?_
  rw [length_store (by omega), hlength]

/-- The payload part of a response keeps within the buffer. -/
theorem readPayload_bounded (hfits : ResponseFits q arrived) {c : Conn}
    (h : Receiving q arrived c.toEndpoint c.rx) (hheader : sizeofHeader ≤ c.amountDone)
    (hcarries : isIn c.header ∧ 0 < c.header.length.toInt) :
    ∃ c', Receiving q arrived c'.toEndpoint c'.rx ∧ c'.state = c.state ∧
      (c.readPayload = .error c' ∨ c.readPayload = .ok c') := by
  obtain ⟨hbytes, hle, m, hm, hm', hunread⟩ := h.late hheader
  obtain ⟨n, done, closed, c', hn, hupTo, hdone, hrx, hendpoint, hresult⟩ := Conn.readPart_any hle keeps_savePayload
  have hnlen : n ≤ arrived.length - m := by
    rw [hunread, List.length_drop] at hn
    exact hn
  have hroom : c.amountDone - sizeofHeader + n ≤ q.data.length := by
    rcases hfits with hshort | hsmall
    · omega
    · rw [← hbytes, Header.ofBytes_bytes, payloadSize, if_pos hcarries] at hsmall
      omega
  have hbuffer : c'.buffer = store c.buffer (c.amountDone - sizeofHeader) (c.rx.take n) :=
    congrArg Endpoint.buffer hendpoint
  have hhdr : c'.header = c.header := by rw [hendpoint]; rfl
  have hamount : c'.amountDone = done := congrArg Endpoint.amountDone hendpoint
  refine ⟨c', ⟨?_, fun hearly ↦ ?_, fun _ ↦ ⟨?_, ?_, m + n, ?_, ?_, ?_⟩⟩, ?_, ?_⟩
  · have hstore := length_store_le c.buffer (c.rx.take n) (c.amountDone - sizeofHeader)
    have hbounded := h.bounded
    rw [List.length_take, Nat.min_eq_left hn] at hstore
    rw [hbuffer]
    omega
  · omega
  · rw [hhdr, hbytes]
  · rw [hhdr]
    omega
  · omega
  · omega
  · rw [hrx, hunread, List.drop_drop]
  · rw [hendpoint]
    rfl
  · exact hresult.imp_right And.left

theorem readHeader_receiving {c : Conn} (h : Receiving q arrived c.toEndpoint c.rx)
    (hheader : c.amountDone < sizeofHeader) :
    ∃ c', Receiving q arrived c'.toEndpoint c'.rx ∧ c'.state = c.state ∧
      (c.readHeader = .error c' ∨ c.readHeader = .ok c' ∧ sizeofHeader ≤ c'.amountDone) := by
  obtain ⟨htake, hlen, hunread⟩ := h.early hheader
  obtain ⟨n, done, closed, c', hn, hupTo, hdone, hrx, hendpoint, hresult⟩ :=
    Conn.readPart_any (Nat.le_of_lt hheader) keeps_saveHeader
  -- A header has five bytes, so the count of eleven cannot occur.
  have hcounted : done = c.amountDone + n := by
    have hsize : sizeofHeader = 5 := rfl
    omega
  have hnlen : n ≤ arrived.length - c.amountDone := by
    rw [hunread, List.length_drop] at hn
    exact hn
  have hlenTake : (c.rx.take n).length = n := by rw [List.length_take, Nat.min_eq_left hn]
  have hsaved : c'.header.bytes.take (c.amountDone + n) = arrived.take (c.amountDone + n) := by
    have hbytes : c'.header.bytes = store c.header.bytes c.amountDone (c.rx.take n) := by
      rw [← bytes_saveHeader (by omega)]
      exact congrArg (fun e ↦ e.header.bytes) hendpoint
    have hoffset : c.amountDone ≤ c.header.bytes.length := Nat.le_of_lt hheader
    have hstored := take_store (c.rx.take n) hoffset
    rw [hlenTake] at hstored
    rw [hbytes, hstored, htake, hunread, List.take_add]
  have hamount : c'.amountDone = done := congrArg Endpoint.amountDone hendpoint
  have hbuffer : c'.buffer = c.buffer := by rw [hendpoint]; rfl
  have hstate : c'.state = c.state := by rw [hendpoint]; rfl
  rw [← hamount] at hresult
  refine ⟨c', ⟨?_, fun _ ↦ ⟨?_, ?_, ?_⟩, fun hlate ↦ ⟨?_, ?_, c.amountDone + n, ?_, ?_, ?_⟩⟩, hstate, hresult⟩
  · rw [hbuffer]
    exact h.bounded
  · rw [hamount, hcounted, hsaved]
  · omega
  · rw [hrx, hunread, List.drop_drop, hamount, hcounted]
  · have hall : c.amountDone + n = sizeofHeader := by omega
    rw [hall, List.take_of_length_le (Nat.le_of_eq c'.header.length_bytes)] at hsaved
    exact hsaved
  · omega
  · omega
  · omega
  · rw [hrx, hunread, List.drop_drop]

theorem receive_bounded (hfits : ResponseFits q arrived) {c : Conn} (h : Receiving q arrived c.toEndpoint c.rx) :
    ∃ c', Receiving q arrived c'.toEndpoint c'.rx ∧ c'.state = c.state ∧
      (c.receive isIn keep = .error c' ∨ c.receive isIn keep = .ok c') := by
  have hpayload (c : Conn) (h : Receiving q arrived c.toEndpoint c.rx) (hheader : sizeofHeader ≤ c.amountDone) :
      ∃ c', Receiving q arrived c'.toEndpoint c'.rx ∧ c'.state = c.state ∧
        ((if isIn c.header ∧ 0 < c.header.length.toInt then c.readPayload else .ok c) = .error c' ∨
          (if isIn c.header ∧ 0 < c.header.length.toInt then c.readPayload else .ok c) = .ok c') := by
    split_ifs with hcarries
    · exact readPayload_bounded hfits h hheader hcarries
    · exact ⟨c, h, rfl, .inr rfl⟩
  rw [Conn.receive]
  split_ifs with hheader
  · obtain ⟨c₁, h₁, hstate, herror | ⟨hok, hfull⟩⟩ := readHeader_receiving h hheader
    · refine ⟨c₁, h₁, hstate, .inl ?_⟩
      rw [herror]
      rfl
    · obtain ⟨c₂, h₂, hstate₂, hresult₂⟩ := hpayload c₁ h₁ hfull
      refine ⟨c₂, h₂, hstate₂.trans hstate, ?_⟩
      rw [hok]
      exact hresult₂
  · exact hpayload c h (by omega)

end Receive

section Bounded

variable {q : Request} {arrived : List Byte}

/-- The request is being sent, its response is being read, or its callback has been called. -/
def Guarded (q : Request) (arrived : List Byte) (w : Waiting) : Prop :=
  w.delivered.isSome ∧ w.host.buffer.length ≤ q.data.length ∨
    w.host.state = .writeRequest ∧ w.host.buffer = q.data ∧ w.unread = arrived ∨
    w.host.state = .readResponse ∧ Receiving q arrived w.host w.unread

theorem Guarded.bounded {w : Waiting} (h : Guarded q arrived w) : w.host.buffer.length ≤ q.data.length := by
  rcases h with ⟨-, h⟩ | ⟨-, h, -⟩ | ⟨-, h⟩
  · exact h
  · exact Nat.le_of_eq (congrArg List.length h)
  · exact h.bounded

theorem readResponse_guarded (hfits : ResponseFits q arrived) {c : Conn} (hstate : c.state = .readResponse)
    (h : Receiving q arrived c.toEndpoint c.rx) (delivered : Option (List Byte)) :
    Guarded q arrived (.ofConn (readResponse (some noting) c delivered)) := by
  obtain ⟨c', h', hstate', herror | hok⟩ := receive_bounded hfits h
  · rw [readResponse, herror]
    exact .inr (.inr ⟨hstate'.trans hstate, h'⟩)
  · rw [readResponse, hok]
    exact .inl ⟨rfl, h'.bounded⟩

theorem writeRequest_guarded (hfits : ResponseFits q arrived) {c : Conn} (hstate : c.state = .writeRequest)
    (hbuffer : c.buffer = q.data) (hrx : c.rx = arrived) (delivered : Option (List Byte)) :
    Guarded q arrived (.ofConn (writeRequest (some noting) c delivered)) := by
  obtain ⟨c', hsent, herror | hok⟩ := c.send_any isOut
  · rw [writeRequest, herror]
    exact .inr (.inl ⟨hsent.state.trans hstate, hsent.buffer.trans hbuffer, hsent.rx.trans hrx⟩)
  · rw [writeRequest, hok]
    refine readResponse_guarded hfits rfl ⟨?_, fun _ ↦ ⟨rfl, Nat.zero_le _, ?_⟩, fun hlate ↦ ?_⟩ delivered
    · exact Nat.le_of_eq (congrArg List.length (hsent.buffer.trans hbuffer))
    · exact hsent.rx.trans hrx
    · exact absurd hlate (Nat.not_succ_le_zero 4)

theorem callback_guarded (hfits : ResponseFits q arrived) {w : Waiting} (h : Guarded q arrived w) (ready : Ready)
    (calls : List Outcome) (hpending : w.delivered.isSome = false) :
    Guarded q arrived (.ofConn (tcpUsbCallback (some noting) (w.conn ready calls) w.delivered)) := by
  by_cases hclosed : w.host.closed
  · have hcallback : tcpUsbCallback (some noting) (w.conn ready calls) w.delivered =
        (w.conn ready calls, w.delivered) := by
      rw [tcpUsbCallback]
      exact if_pos hclosed
    rw [hcallback]
    exact h
  · have hopen : (w.conn ready calls).closed = false := Bool.eq_false_iff.mpr hclosed
    rcases h with ⟨hdone, -⟩ | ⟨hstate, hbuffer, hunread⟩ | ⟨hstate, hreceiving⟩
    · rw [hpending] at hdone
      cases hdone
    · rw [callback_writeRequest noting _ hopen hstate]
      exact writeRequest_guarded hfits hstate hbuffer hunread _
    · rw [callback_readResponse noting _ hopen hstate]
      exact readResponse_guarded hfits hstate hreceiving _

theorem Guarded.more {w : Waiting} (h : Guarded q arrived w) (bytes : List Byte) :
    Guarded q (arrived ++ bytes) { w with unread := w.unread ++ bytes } := by
  rcases h with hdone | ⟨hstate, hbuffer, hunread⟩ | ⟨hstate, hreceiving⟩
  · exact .inl hdone
  · exact .inr (.inl ⟨hstate, hbuffer, by rw [hunread]⟩)
  · exact .inr (.inr ⟨hstate, hreceiving.more bytes⟩)

theorem Guarded.arrive {w : Waiting} (h : Guarded q arrived w) (a : Arrival)
    (hfits : ResponseFits q (arrived ++ a.bytes)) : Guarded q (arrived ++ a.bytes) (w.arrive a) := by
  unfold Waiting.arrive
  split_ifs with hdelivered
  · exact .inl ⟨hdelivered, h.bounded⟩
  · exact callback_guarded hfits (h.more a.bytes) a.ready a.calls (Bool.eq_false_iff.mpr hdelivered)

theorem guarded_request (hfits : ResponseFits q arrived) {host : Endpoint} (hidle : host.state = .idle)
    (hopen : host.closed = false) (calls : List Outcome) :
    Guarded q arrived (.request host q arrived calls) := by
  unfold Waiting.request tcpUsbRequest
  simp only [Waiting.conn, hidle, ne_eq, not_true_eq_false, if_false, tcpUsbCallback, hopen]
  exact writeRequest_guarded hfits rfl rfl rfl none

theorem bounded_of_fits {stream : List Byte} (hfits : ResponseFits q stream) : ResponseBounded q stream := by
  intro host early calls arrivals hidle hopen hpre
  have hstart := guarded_request (hfits.take ((List.prefix_append _ _).trans hpre)) hidle hopen calls
  generalize Waiting.request host q early calls = w at hstart
  -- The bytes that have arrived stay a prefix of the stream along the arrivals.
  induction arrivals generalizing w early with
  | nil => exact hstart.bounded
  | cons a arrivals ih =>
    rw [List.flatMap_cons, ← List.append_assoc] at hpre
    have hnext := hstart.arrive a (hfits.take ((List.prefix_append _ _).trans hpre))
    exact ih (early ++ a.bytes) hpre (w.arrive a) hnext

end Bounded

section Overrun

variable {q : Request} {c : Conn}

theorem writePart_one (hcalls : c.calls = [.moves 1]) (upTo : Nat) {bytes : List Byte} (hpos : 0 < bytes.length) :
    ∃ c' : Conn, c'.toEndpoint = { c.toEndpoint with amountDone := c.amountDone + 1 } ∧ c'.rx = c.rx ∧ c'.calls = [] ∧
      Conn.writePart upTo bytes c = if c.amountDone + 1 < upTo then .error c' else .ok c' := by
  have hcall : c.call bytes.length = (((1 : Nat) : Int), { c with calls := [] }) := by
    rw [Conn.call, hcalls]
    dsimp only
    rw [if_neg (by omega)]
  refine ⟨{ c with
    calls := [], tx := c.tx ++ bytes.take 1, amountDone := c.amountDone + 1, canWrite := false }, rfl, rfl, rfl, ?_⟩
  simp only [Conn.writePart, Conn.write, hcall, Conn.checkReturn_of_moved _ _ Nat.one_pos (by decide)]
  rfl

theorem writePart_none (hcalls : c.calls = []) (upTo : Nat) (bytes : List Byte) :
    Conn.writePart upTo bytes c = .error c := by
  have hcall : c.call bytes.length = (-1, c) := by rw [Conn.call, hcalls]
  simp only [Conn.writePart, Conn.write, hcall, Conn.checkReturn_of_blocked]
  simp [bind, Except.bind]

theorem readPart_none (hcalls : c.calls = []) (upTo : Nat) (save : Endpoint → List Byte → Endpoint) :
    Conn.readPart upTo save c = .error { c with toEndpoint := save c.toEndpoint [] } := by
  have hcall : c.call (min (upTo - c.amountDone) c.rx.length) = (-1, c) := by rw [Conn.call, hcalls]
  simp only [Conn.readPart, Conn.read, hcall, Conn.checkReturn_of_blocked]
  simp [bind, Except.bind]

theorem receive_none (hcalls : c.calls = []) (hamount : c.amountDone < sizeofHeader) :
    c.receive isIn keep = .error { c with toEndpoint := c.toEndpoint.saveHeader [] } := by
  rw [Conn.receive, if_pos hamount, Conn.readHeader, readPart_none hcalls]
  rfl

/-- One byte of the request is sent. -/
structure SendsOne (q : Request) (c c' : Conn) : Prop where
  endpoint : c'.toEndpoint = { c.toEndpoint with amountDone := c.amountDone + 1 }
  rx : c'.rx = c.rx
  calls : c'.calls = []
  result : c.amountDone + 1 < q.message.wire.length ∧ c.send isOut = .error c' ∨
    c.amountDone + 1 = q.message.wire.length ∧ c.send isOut = .ok c'

theorem send_header_one (h : Conn.Holds q.message c.toEndpoint) (hcalls : c.calls = [.moves 1])
    (hheader : c.amountDone < sizeofHeader) : ∃ c', SendsOne q c c' := by
  have hwire := q.message.length_wire
  have hsize := q.message.length_payload
  have hpos : 0 < (c.header.bytes.drop c.amountDone).length := by
    rw [List.length_drop, Header.length_bytes]
    omega
  obtain ⟨c', hendpoint, hrx, hcalls', hwrite⟩ := writePart_one hcalls sizeofHeader hpos
  refine ⟨c', hendpoint, hrx, hcalls', ?_⟩
  rw [Conn.send, if_pos hheader, Conn.writeHeader, hwrite]
  by_cases hshort : c.amountDone + 1 < sizeofHeader
  · rw [if_pos hshort]
    exact .inl ⟨by omega, rfl⟩
  · rw [if_neg hshort]
    have hhdr : c'.header = q.message.header := by
      rw [hendpoint]
      exact h.header
    change _ ∧ (if isOut c'.header ∧ 0 < c'.header.length.toInt then c'.writePayload else .ok c') = _ ∨
      _ ∧ (if isOut c'.header ∧ 0 < c'.header.length.toInt then c'.writePayload else .ok c') = _
    rw [hhdr]
    by_cases hpayload : isOut q.message.header ∧ 0 < q.message.header.length.toInt
    · have hlength := length_pos_of_carries hpayload
      rw [payloadSize, if_pos hpayload] at hsize
      rw [if_pos hpayload]
      exact .inl ⟨by omega, writePart_none hcalls' _ _⟩
    · rw [payloadSize, if_neg hpayload] at hsize
      rw [if_neg hpayload]
      exact .inr ⟨by omega, rfl⟩

theorem send_payload_one (h : Conn.Holds q.message c.toEndpoint) (hcalls : c.calls = [.moves 1])
    (hheader : ¬ c.amountDone < sizeofHeader) (hlt : c.amountDone < q.message.wire.length) :
    ∃ c', SendsOne q c c' := by
  have hwire := q.message.length_wire
  have hsize := q.message.length_payload
  have hhdr : c.header = q.message.header := h.header
  have hpayload : isOut q.message.header ∧ 0 < q.message.header.length.toInt := by
    by_contra hnone
    rw [payloadSize, if_neg hnone] at hsize
    omega
  rw [payloadSize, if_pos hpayload] at hsize
  have hpos : 0 < ((c.buffer.take c.header.length.toNat).drop (c.amountDone - sizeofHeader)).length := by
    rw [hhdr, ← hsize, h.buffer, List.length_drop]
    omega
  obtain ⟨c', hendpoint, hrx, hcalls', hwrite⟩ := writePart_one hcalls (sizeofHeader + c.header.length.toNat) hpos
  have hsend : c.send isOut =
      if c.amountDone + 1 < sizeofHeader + c.header.length.toNat then .error c' else .ok c' := by
    rw [Conn.send, if_neg hheader, ← hwrite, hhdr]
    change (if isOut c.header ∧ 0 < c.header.length.toInt then c.writePayload else .ok c) = _
    rw [hhdr, if_pos hpayload, Conn.writePayload, hhdr]
  refine ⟨c', hendpoint, hrx, hcalls', ?_⟩
  rw [hsend, hhdr]
  by_cases hshort : c.amountDone + 1 < sizeofHeader + q.message.header.length.toNat
  · exact .inl ⟨by omega, if_pos hshort⟩
  · exact .inr ⟨by omega, if_neg hshort⟩

theorem send_one (h : Conn.Holds q.message c.toEndpoint) (hcalls : c.calls = [.moves 1])
    (hlt : c.amountDone < q.message.wire.length) : ∃ c', SendsOne q c c' := by
  by_cases hheader : c.amountDone < sizeofHeader
  · exact send_header_one h hcalls hheader
  · exact send_payload_one h hcalls hheader hlt

variable {stream : List Byte}

/-- A request of which a number of bytes is sent, with the whole response there already. -/
structure Sending (q : Request) (stream : List Byte) (sent : Nat) (w : Waiting) : Prop where
  state : w.host.state = .writeRequest
  hopen : w.host.closed = false
  header : w.host.header = q.header
  buffer : w.host.buffer = q.data
  amountDone : w.host.amountDone = sent
  unread : w.unread = stream
  delivered : w.delivered = none

structure Primed (q : Request) (stream : List Byte) (w : Waiting) : Prop where
  state : w.host.state = .readResponse
  hopen : w.host.closed = false
  buffer : w.host.buffer = q.data
  amountDone : w.host.amountDone = 0
  unread : w.unread = stream
  delivered : w.delivered = none

theorem arrive_quiet {w : Waiting} (hdelivered : w.delivered = none) (ready : Ready) (calls : List Outcome) :
    w.arrive ⟨[], ready, calls⟩ = .ofConn (tcpUsbCallback (some noting) (w.conn ready calls) none) := by
  rw [Waiting.arrive, hdelivered]
  simp [Waiting.conn]

theorem sending_next {sent : Nat} {w : Waiting} (h : Sending q stream sent w) (hlt : sent < q.message.wire.length) :
    sent + 1 < q.message.wire.length ∧ Sending q stream (sent + 1) (w.arrive ⟨[], .writable, [.moves 1]⟩) ∨
      sent + 1 = q.message.wire.length ∧ Primed q stream (w.arrive ⟨[], .writable, [.moves 1]⟩) := by
  have hholds : Conn.Holds q.message (w.conn .writable [.moves 1]).toEndpoint := holds_of_header h.header h.buffer
  have hamount : (w.conn .writable [.moves 1]).amountDone = sent := h.amountDone
  obtain ⟨c', hendpoint, hrx, hcalls, hsend⟩ := send_one hholds rfl (by omega)
  have hrx' : c'.rx = stream := hrx.trans h.unread
  rw [arrive_quiet h.delivered, callback_writeRequest noting none h.hopen h.state, writeRequest]
  rcases hsend with ⟨hmore, herror⟩ | ⟨hall, hok⟩
  · rw [herror]
    refine .inl ⟨by omega, ?_, ?_, ?_, ?_, ?_, hrx', rfl⟩ <;> simp only [Waiting.ofConn, hendpoint]
    · exact h.state
    · exact h.hopen
    · exact h.header
    · exact h.buffer
    · exact congrArg (· + 1) h.amountDone
  · rw [hok]
    refine .inr ⟨by omega, ?_⟩
    -- No call is left, so the fall-through to the response reads nothing.
    have hread := receive_none (c := { c' with state := .readResponse, amountDone := 0 }) hcalls (Nat.succ_pos 4)
    dsimp only
    rw [readResponse, hread]
    refine ⟨rfl, ?_, ?_, rfl, hrx', rfl⟩
    · simp only [Waiting.ofConn, Endpoint.saveHeader, hendpoint]
      exact h.hopen
    · simp only [Waiting.ofConn, Endpoint.saveHeader, hendpoint]
      exact h.buffer

theorem exists_primed {sent : Nat} {w : Waiting} (h : Sending q stream sent w) (hlt : sent < q.message.wire.length) :
    ∃ arrivals : List Arrival, arrivals.flatMap Arrival.bytes = [] ∧
      Primed q stream (arrivals.foldl Waiting.arrive w) := by
  induction hleft : q.message.wire.length - sent generalizing sent w with
  | zero => omega
  | succ left ih =>
    rcases sending_next h hlt with ⟨hmore, hnext⟩ | ⟨-, hprimed⟩
    · obtain ⟨arrivals, hbytes, hprimed⟩ := ih hnext hmore (by omega)
      exact ⟨⟨[], .writable, [.moves 1]⟩ :: arrivals, by simpa using hbytes, hprimed⟩
    · exact ⟨[⟨[], .writable, [.moves 1]⟩], rfl, hprimed⟩

theorem readHeader_all {calls : List Outcome} (hcalls : c.calls = .moves 5 :: calls) (hamount : c.amountDone = 0)
    (hrx : sizeofHeader ≤ c.rx.length) :
    ∃ c', c.readHeader = .ok c' ∧ c'.header = .ofBytes (c.rx.take sizeofHeader) ∧ c'.buffer = c.buffer ∧
      c'.amountDone = sizeofHeader ∧ c'.rx = c.rx.drop sizeofHeader ∧ c'.calls = calls := by
  have hsize : sizeofHeader = 5 := rfl
  have hcall : c.call (min (sizeofHeader - c.amountDone) c.rx.length) = (((5 : Nat) : Int), { c with calls }) := by
    rw [Conn.call, hcalls]
    dsimp only
    rw [if_neg (by omega)]
  have hlength : (c.rx.take sizeofHeader).length = sizeofHeader := by rw [List.length_take, Nat.min_eq_left hrx]
  refine ⟨{ c with
    toEndpoint := { c.toEndpoint.saveHeader (c.rx.take 5) with amountDone := sizeofHeader }
    calls, rx := c.rx.drop 5, canRead := false }, ?_, ?_, rfl, rfl, rfl, rfl⟩
  · simp only [Conn.readHeader, Conn.readPart, Conn.read, hcall,
      Conn.checkReturn_of_moved _ _ (by decide : 0 < 5) (by decide), Int.toNat_natCast]
    simp [bind, Except.bind, Endpoint.saveHeader, hamount, hsize]
  · change Header.ofBytes (store c.header.bytes c.amountDone (c.rx.take sizeofHeader)) = _
    rw [hamount, store, List.take_zero, List.nil_append, hlength, Nat.zero_add,
      List.drop_eq_nil_of_le (Nat.le_of_eq c.header.length_bytes), List.append_nil]

/-- All bytes of the payload that have arrived are stored. -/
theorem readPayload_stores {n : Nat} (hcalls : c.calls = [.moves n]) (hpos : 0 < n)
    (hlength : n ≤ c.header.length.toNat) (hrx : n ≤ c.rx.length) (hamount : c.amountDone = sizeofHeader) :
    ∃ c', n ≤ c'.buffer.length ∧ (c.readPayload = .error c' ∨ c.readPayload = .ok c') := by
  have hcall : c.call (min (sizeofHeader + c.header.length.toNat - c.amountDone) c.rx.length) =
      ((n : Int), { c with calls := [] }) := by
    rw [Conn.call, hcalls]
    dsimp only
    rw [if_neg (by omega)]
  obtain ⟨done, closed, c', -, -, hendpoint, hresult⟩ :=
    Conn.readPart_of_call keeps_savePayload (.inr (Int.natCast_nonneg n)) hcall
  have hbuffer : c'.buffer = store c.buffer (c.amountDone - sizeofHeader) (c.rx.take n) :=
    congrArg Endpoint.buffer hendpoint
  refine ⟨c', ?_, hresult.imp_right And.left⟩
  rw [hbuffer, hamount, Nat.sub_self, store, List.take_zero, List.nil_append, List.length_append, List.length_take]
  omega

/-- A response that announces and brings more bytes than there is room for overruns the buffer. -/
theorem overruns {w : Waiting} (h : Primed q stream w) (hmiss : ¬ ResponseFits q stream) :
    ∃ a : Arrival, a.bytes = [] ∧ q.data.length < (w.arrive a).host.buffer.length := by
  simp only [ResponseFits, not_or, Nat.not_le] at hmiss
  obtain ⟨hlong, hlarge⟩ := hmiss
  generalize hfirst : Header.ofBytes (stream.take sizeofHeader) = header at hlarge
  have hcarries : isIn header ∧ 0 < header.length.toInt := by
    by_contra hnone
    rw [payloadSize, if_neg hnone] at hlarge
    omega
  rw [payloadSize, if_pos hcarries] at hlarge
  obtain ⟨n, hn⟩ : ∃ n, n = min header.length.toNat (stream.length - sizeofHeader) := ⟨_, rfl⟩
  let c := w.conn .readable [.moves 5, .moves n]
  have hrx : c.rx = stream := h.unread
  have hamount : c.amountDone = 0 := h.amountDone
  obtain ⟨c₁, hok, hheader, -, hamount₁, hrx₁, hcalls⟩ := readHeader_all (c := c) rfl hamount (by rw [hrx]; omega)
  rw [hrx, hfirst] at hheader
  rw [hrx] at hrx₁
  have hleft : c₁.rx.length = stream.length - sizeofHeader := by rw [hrx₁, List.length_drop]
  obtain ⟨c₂, hlength, hresult⟩ :=
    readPayload_stores hcalls (by omega) (by rw [hheader]; omega) (by omega) hamount₁
  have hreceive : c.receive isIn keep = c₁.readPayload := by
    rw [Conn.receive, if_pos (by rw [hamount]; decide), hok]
    change (if isIn c₁.header ∧ 0 < c₁.header.length.toInt then c₁.readPayload else .ok c₁) = _
    rw [hheader, if_pos hcarries]
  refine ⟨⟨[], .readable, [.moves 5, .moves n]⟩, rfl, ?_⟩
  rw [arrive_quiet h.delivered, callback_readResponse noting none h.hopen h.state, readResponse]
  have hover : q.data.length < c₂.buffer.length := by omega
  rcases hresult with herror | hdone
  · have hstop : c.receive isIn keep = .error c₂ := hreceive.trans herror
    rw [hstop]
    exact hover
  · have hend : c.receive isIn keep = .ok c₂ := hreceive.trans hdone
    rw [hend]
    exact hover

theorem sending_request (q : Request) (stream : List Byte) :
    Sending q stream 0 (Waiting.request {} q stream []) := by
  let c : Conn :=
    { state := .writeRequest, header := q.header, buffer := q.data
      canRead := false, canWrite := true, rx := stream, tx := [], calls := [] }
  have hsend : c.send isOut = .error c := by
    have hamount : c.amountDone < sizeofHeader := Nat.succ_pos 4
    rw [Conn.send, if_pos hamount, Conn.writeHeader, writePart_none rfl]
    rfl
  have hrequest : Waiting.request {} q stream [] = .ofConn (writeRequest (some noting) c none) := rfl
  rw [hrequest, writeRequest, hsend]
  exact ⟨rfl, rfl, rfl, rfl, rfl, rfl, rfl⟩

theorem fits_of_bounded (h : ResponseBounded q stream) : ResponseFits q stream := by
  by_contra hmiss
  -- The request goes out byte by byte while the whole response waits to be read.
  obtain ⟨arrivals, hquiet, hprimed⟩ := exists_primed (sending_request q stream) (wire_pos q.message)
  obtain ⟨a, ha, hover⟩ := overruns hprimed hmiss
  have hpre : stream ++ (arrivals ++ [a]).flatMap Arrival.bytes <+: stream := by
    simp [hquiet, ha]
  have hbound := h {} stream [] (arrivals ++ [a]) rfl rfl hpre
  rw [List.foldl_append] at hbound
  exact Nat.not_le.mpr hover hbound

end Overrun

theorem response_bounded_iff (q : Request) (stream : List Byte) : ResponseBounded q stream ↔ ResponseFits q stream :=
  ⟨fits_of_bounded, bounded_of_fits⟩

def oneByteIn : Request := ⟨{ ep := 0x80, length := 1 }, [0], by decide⟩

def twoBytesBack : List Byte := [0, 0x80, 0, 2, 0, 0xaa, 0xbb]

theorem response_bounded_fails :
    (Waiting.request {} oneByteIn twoBytesBack [.moves 5, .moves 5, .moves 2]).delivered = some [0xaa, 0xbb] ∧
      oneByteIn.data.length = 1 ∧ ¬ ResponseBounded oneByteIn twoBytesBack := by
  have hrun : (Waiting.request {} oneByteIn twoBytesBack [.moves 5, .moves 5, .moves 2]).host.buffer.length = 2 := by
    decide
  refine ⟨by decide, rfl, fun hbounded ↦ ?_⟩
  have hle := hbounded {} twoBytesBack [.moves 5, .moves 5, .moves 2] [] rfl rfl (by decide)
  rw [List.foldl_nil, hrun] at hle
  exact absurd hle (by decide)

end IDeviceEmulator.TcpUsb
