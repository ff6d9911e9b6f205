import IDeviceEmulator.TcpUsb.Passthrough

namespace IDeviceEmulator.Passthrough

open TcpUsb

variable {β : Type}

/-- A property that `data_callback` keeps is kept by the state machine of an endpoint. -/
theorem tcpUsbCallback_keeps {α : Type} {callback : Callback α} {P : α → Prop}
    (hcallback : ∀ app header buffer, P app → P (callback app header buffer).app) (c : Conn) {app : α}
    (h : P app) : P (tcpUsbCallback (some callback) c app).2 := by
  have hwriteResponse (c : Conn) {app : α} (h : P app) : P (writeResponse c app).2 := by
    rw [writeResponse]
    split <;> exact h
  have hreadRequest (c : Conn) : P (readRequest (some callback) c app).2 := by
    rw [readRequest]
    split
    · exact h
    · exact hwriteResponse _ (hcallback _ _ _ h)
  have hreadResponse (c : Conn) : P (readResponse (some callback) c app).2 := by
    rw [readResponse]
    split
    · exact h
    · exact hcallback _ _ _ h
  have hwriteRequest (c : Conn) : P (writeRequest (some callback) c app).2 := by
    rw [writeRequest]
    split
    · exact h
    · exact hreadResponse _
  rw [tcpUsbCallback]
  split
  · exact h
  · split
    · split
      · exact hreadRequest _
      · exact h
    · exact hreadRequest _
    · exact hwriteResponse _ h
    · exact hwriteRequest _
    · exact hreadResponse _

theorem complete_packet_of_none {s : Device} (h : s.packet = none) (hdr : Header) :
    (complete s hdr).packet = none := by
  rw [complete]
  split_ifs
  · exact h
  · rw [h]
    exact h

theorem host_modify (s : System β) (f : Device → Device) : (modify s f).host = s.host := rfl

/-- The only error of `tcp_usb_request` is that a request is under way, and then it changes
nothing but the header. -/
theorem request_busy {s : System β} (h : s.host.state ≠ .idle) (sentFor : Option Nat) (header : Header)
    (data : List Byte) (calls : List Outcome) : (request s sentFor header data calls).1 = -ebusy ∧
      (request s sentFor header data calls).2.hostApp = s.hostApp := by
  have hfill : (fillHeader s header).host.state = s.host.state ∧ (fillHeader s header).hostApp = s.hostApp := by
    rw [fillHeader]
    split <;> exact ⟨rfl, rfl⟩
  have hbusy : (fillHeader s header).host.state ≠ .idle := hfill.1.trans_ne h
  rw [request, if_neg hbusy, hostRequest_busy passthroughTcp hbusy]
  exact ⟨rfl, hfill.2⟩

theorem request_idle {s : System β} (h : s.host.state = .idle) (sentFor : Option Nat) (header : Header)
    (data : List Byte) (calls : List Outcome) : (request s sentFor header data calls).1 = 0 := by
  have hfill : fillHeader s header = s := by rw [fillHeader, h]
  rw [request, hfill, if_pos h, Link.hostRequest, tcpUsbRequest, if_neg fun hne ↦ hne h]

theorem request_packet_of_none {s : System β} (h : s.hostApp.packet = none) (sentFor : Option Nat)
    (header : Header) (data : List Byte) (calls : List Outcome) :
    (request s sentFor header data calls).2.hostApp.packet = none := by
  by_cases hidle : s.host.state = .idle
  · have hfill : fillHeader s header = s := by rw [fillHeader, hidle]
    rw [request, hfill, if_pos hidle, Link.hostRequest, tcpUsbRequest, if_neg fun hne ↦ hne hidle]
    exact tcpUsbCallback_keeps (P := fun t : Device ↦ t.packet = none)
      (fun t header _ ht ↦ complete_packet_of_none ht header) _ h
  · rw [(request_busy hidle sentFor header data calls).2]
    exact h

/-- The packets that one of the three handlers sends on. -/
def Packet.Token (packet : Packet) : Prop :=
  match packet.pid with
  | .setup => packet.data.length = 8
  | .tokenIn | .tokenOut => True
  | _ => False

instance (packet : Packet) : Decidable packet.Token :=
  match h : packet.pid with
  | .setup => decidable_of_iff (packet.data.length = 8) (by rw [Packet.Token, h])
  | .tokenIn | .tokenOut => isTrue (by rw [Packet.Token, h]; trivial)
  | .attach | .detach | .reset | .other => isFalse (by rw [Packet.Token, h]; exact id)

/-- The handlers call `usb_defer_packet` in front of `tcp_usb_request`. -/
def Defers (s : System β) (packet : Packet) : Prop := TakesSlot s packet ∧ packet.Token

/-- A packet that is not accepted leaves the slot as it was, and is not deferred. -/
def Atomic (s : System β) (packet : Packet) (calls : List Outcome) : Prop :=
  (passthroughPacket s packet calls).1 ≠ .async →
    (passthroughPacket s packet calls).2.hostApp.packet = s.hostApp.packet ∧ ¬Defers s packet

/-- What takes the slot is sent on at once, and a reset finds the slot empty or the connection
closed. -/
structure Undisturbed (s : System β) (packet : Packet) : Prop where
  accepted : TakesSlot s packet → packet.Token ∧ s.host.state = .idle
  reset : packet.pid = .reset → s.host.closed = true ∨ s.hostApp.packet = none

theorem submit_idle {s : System β} (h : s.host.state = .idle) (p : Nat) (header : Header) (data : List Byte)
    (calls : List Outcome) : (submit s p header data calls).1 = .async := by
  rw [submit]
  dsimp only
  rw [request_idle h]
  rfl

theorem submit_busy {s : System β} (h : s.host.state ≠ .idle) (p : Nat) (header : Header) (data : List Byte)
    (calls : List Outcome) : (submit s p header data calls).1 = .stall ∧
      (submit s p header data calls).2.hostApp = s.hostApp := by
  obtain ⟨hret, happ⟩ := request_busy h (some p) header data calls
  rw [submit]
  dsimp only
  rw [hret]
  exact ⟨rfl, happ⟩

theorem token_setup {packet : Packet} (hpid : packet.pid = .setup) :
    packet.Token ↔ packet.data.length = 8 := by
  rw [Packet.Token, hpid]

theorem token_in_or_out {packet : Packet} (hpid : packet.pid = .tokenIn ∨ packet.pid = .tokenOut) :
    packet.Token := by
  rw [Packet.Token]
  rcases hpid with hpid | hpid <;> rw [hpid] <;> trivial

theorem not_token {packet : Packet} (hsetup : packet.pid ≠ .setup) (hin : packet.pid ≠ .tokenIn)
    (hout : packet.pid ≠ .tokenOut) : ¬packet.Token := by
  rw [Packet.Token]
  split
  · exact absurd ‹_› hsetup
  · exact absurd ‹_› hin
  · exact absurd ‹_› hout
  · exact id

theorem doToken_accepted {s : System β} {packet : Packet} (htoken : packet.Token) (hidle : s.host.state = .idle)
    (calls : List Outcome) : (doToken s packet calls).1 = .async := by
  rw [doToken]
  split
  case h_1 hpid =>
    rw [doTokenSetup, if_neg (not_not.mpr ((token_setup hpid).mp htoken))]
    apply submit_idle
    exact hidle
  case h_2 =>
    rw [doTokenIn]
    apply submit_idle
    exact hidle
  case h_3 =>
    rw [doTokenOut]
    apply submit_idle
    exact hidle
  case h_4 hsetup hin hout => exact absurd htoken (not_token hsetup hin hout)

/-- The slot is not given back on any of the failure exits. -/
theorem doToken_refused {s : System β} {packet : Packet} (h : ¬(packet.Token ∧ s.host.state = .idle))
    (calls : List Outcome) : (doToken s packet calls).1 = .stall ∧
      (doToken s packet calls).2.hostApp.packet = some s.hostApp.submitted := by
  have hsubmit (t : System β) (p : Nat) (header : Header) (data : List Byte) (htoken : packet.Token)
      (hhost : t.host = s.host) (hslot : t.hostApp.packet = some s.hostApp.submitted) :
      (submit t p header data calls).1 = .stall ∧
        (submit t p header data calls).2.hostApp.packet = some s.hostApp.submitted := by
    have hbusy : t.host.state ≠ .idle := fun hidle ↦ h ⟨htoken, hhost ▸ hidle⟩
    obtain ⟨hret, happ⟩ := submit_busy hbusy p header data calls
    exact ⟨hret, happ ▸ hslot⟩
  rw [doToken]
  split
  case h_1 hpid =>
    rw [doTokenSetup]
    split
    · exact ⟨rfl, rfl⟩
    case isFalse hlength =>
      have htoken : packet.Token := (token_setup hpid).mpr (not_not.mp hlength)
      exact hsubmit _ _ _ _ htoken rfl rfl
  case h_2 hpid => exact hsubmit (takeSlot s) _ _ _ (token_in_or_out (.inl hpid)) rfl rfl
  case h_3 hpid => exact hsubmit (takeSlot s) _ _ _ (token_in_or_out (.inr hpid)) rfl rfl
  case h_4 => exact ⟨rfl, rfl⟩

theorem passthroughPacket_taken {s : System β} {packet : Packet} (h : TakesSlot s packet) (calls : List Outcome) :
    passthroughPacket s packet calls = doToken s packet calls := by
  obtain ⟨hattach, hdetach, hreset, hstate, haddr, hopen, hslot⟩ := h
  rw [passthroughPacket]
  split
  · exact absurd ‹_› hattach
  · exact absurd ‹_› hdetach
  · exact absurd ‹_› hreset
  · rw [if_neg (by simp [hstate, haddr]), hopen, hslot]
    rfl

theorem passthroughReset_packet (s : System β) (calls : List Outcome) :
    (passthroughReset s calls).hostApp.packet = if s.host.closed then s.hostApp.packet else none := by
  rw [passthroughReset]
  split_ifs
  · rfl
  · exact request_packet_of_none rfl _ _ _ _

/-- A packet that does not take the slot leaves it alone, unless it is a reset. -/
theorem passthroughPacket_packet {s : System β} {packet : Packet} (h : ¬TakesSlot s packet)
    (calls : List Outcome) : (passthroughPacket s packet calls).2.hostApp.packet =
      if packet.pid = .reset ∧ s.host.closed = false then none else s.hostApp.packet := by
  rw [passthroughPacket]
  split
  case h_1 hpid =>
    rw [if_neg fun hall ↦ by simp [hpid] at hall]
    rfl
  case h_2 hpid =>
    rw [if_neg fun hall ↦ by simp [hpid] at hall]
    rfl
  case h_3 hpid =>
    rw [passthroughReset_packet, host_modify]
    cases hclosed : s.host.closed <;> simp [hpid, modify]
  case h_4 hattach hdetach hreset =>
    have hkept : ¬(packet.pid = .reset ∧ s.host.closed = false) := fun hall ↦ hreset hall.1
    split_ifs with hnodev hclosed hnak
    · rfl
    · rfl
    · rfl
    · simp only [not_or, not_not] at hnodev
      exact absurd ⟨hattach, hdetach, hreset, hnodev.1, hnodev.2, Bool.eq_false_iff.mpr hclosed,
        Option.not_isSome_iff_eq_none.mp hnak⟩ h

theorem ret_of_reset {s : System β} {packet : Packet} (h : packet.pid = .reset) (calls : List Outcome) :
    (passthroughPacket s packet calls).1 = .zero := by
  rw [passthroughPacket, h]

/-- The slot is disturbed by a packet that fails after it was taken, and by a reset of a
connected device. -/
theorem atomic_iff (s : System β) (packet : Packet) (calls : List Outcome) :
    Atomic s packet calls ↔ Undisturbed s packet := by
  rw [Atomic]
  by_cases htakes : TakesSlot s packet
  · have hslot : s.hostApp.packet = none := htakes.2.2.2.2.2.2
    have hreset : packet.pid ≠ .reset := htakes.2.2.1
    rw [passthroughPacket_taken htakes]
    by_cases haccepted : packet.Token ∧ s.host.state = .idle
    · refine iff_of_true (fun hne ↦ absurd (doToken_accepted haccepted.1 haccepted.2 calls) hne) ?_
      exact ⟨fun _ ↦ haccepted, fun hpid ↦ absurd hpid hreset⟩
    · obtain ⟨hret, hpacket⟩ := doToken_refused haccepted calls
      refine iff_of_false (fun hatomic ↦ ?_) fun h ↦ haccepted (h.accepted htakes)
      have hsame := (hatomic (by rw [hret]; decide)).1
      rw [hpacket, hslot] at hsame
      cases hsame
  · rw [passthroughPacket_packet htakes]
    have hdefers : ¬Defers s packet := fun h ↦ htakes h.1
    constructor
    · refine fun hatomic ↦ ⟨fun h ↦ absurd h htakes, fun hpid ↦ ?_⟩
      have hsame := (hatomic (by rw [ret_of_reset hpid]; decide)).1
      cases hclosed : s.host.closed with
      | true => exact .inl rfl
      | false =>
        rw [if_pos ⟨hpid, hclosed⟩] at hsame
        exact .inr hsame.symm
    · refine fun h _ ↦ ⟨?_, hdefers⟩
      split_ifs with hreset
      · refine ((h.reset hreset.1).resolve_left ?_).symm
        rw [hreset.2]
        decide
      · rfl

/-- A setup packet of seven bytes fails and keeps the slot, and the next packet meets a NAK. -/
theorem atomic_fails :
    ¬Atomic (modify (start ()) fun t ↦ { t with state := .default }) { pid := .setup, data := [0, 0, 0, 0, 0, 0, 0] }
        [] ∧
      (passthroughPacket
        (passthroughPacket (modify (start ()) fun t ↦ { t with state := .default })
          { pid := .setup, data := [0, 0, 0, 0, 0, 0, 0] } []).2
        { pid := .setup, data := [0, 0, 0, 0, 0, 0, 0, 0] } []).1 = .nak := by
  refine ⟨fun h ↦ ?_, rfl⟩
  have hsame := (h (by decide)).1
  cases hsame

end IDeviceEmulator.Passthrough
