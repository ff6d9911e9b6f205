import IDeviceEmulator.Library.Transit
import IDeviceEmulator.TcpUsb.Endpoint

namespace IDeviceEmulator.TcpUsb

namespace Header

theorem length_bytes (h : Header) : h.bytes.length = sizeofHeader := rfl

theorem ofBytes_bytes (h : Header) : ofBytes h.bytes = h := by
  have hlength : h.length.extractLsb' 8 8 ++ h.length.extractLsb' 0 8 = h.length := by
    have hoffset : 8 = 0 + 8 := rfl
    rw [BitVec.extractLsb'_append_extractLsb'_eq_extractLsb' hoffset]
    exact BitVec.extractLsb'_eq_self
  simp only [ofBytes, bytes, List.getD_cons_zero, List.getD_cons_succ, hlength]

theorem bytes_ofBytes {b : List Byte} (hb : b.length = sizeofHeader) : (ofBytes b).bytes = b := by
  obtain ⟨b₀, b₁, b₂, b₃, b₄, rfl⟩ : ∃ b₀ b₁ b₂ b₃ b₄, b = [b₀, b₁, b₂, b₃, b₄] := by
    match b, hb with
    | [b₀, b₁, b₂, b₃, b₄], _ => exact ⟨b₀, b₁, b₂, b₃, b₄, rfl⟩
  simp only [bytes, ofBytes, List.getD_cons_zero, List.getD_cons_succ, BitVec.extractLsb'_append_eq_left,
    BitVec.extractLsb'_append_eq_right]

end Header

def payloadSize (carries : Header → Bool) (h : Header) : Nat :=
  if carries h ∧ 0 < h.length.toInt then h.length.toNat else 0

theorem payloadSize_le (carries : Header → Bool) (h : Header) : payloadSize carries h ≤ h.length.toNat := by
  rw [payloadSize]
  split
  · exact Nat.le_refl _
  · exact Nat.zero_le _

theorem length_pos_of_carries {carries : Header → Bool} {h : Header}
    (hpayload : carries h ∧ 0 < h.length.toInt) : 0 < h.length.toNat := by
  have hpos := hpayload.2
  have hlt := h.length.isLt
  rw [BitVec.toInt_eq_toNat_cond] at hpos
  split at hpos
  · omega
  · omega

/-- A request or a response as it crosses the stream. -/
structure Message (carries : Header → Bool) where
  header : Header
  payload : List Byte
  length_payload : payload.length = payloadSize carries header

variable {carries : Header → Bool}

namespace Message

def wire (m : Message carries) : List Byte := m.header.bytes ++ m.payload

theorem length_wire (m : Message carries) : m.wire.length = sizeofHeader + m.payload.length := by
  rw [wire, List.length_append, m.header.length_bytes]

theorem drop_wire (m : Message carries) {n : Nat} (hn : sizeofHeader ≤ n) :
    m.wire.drop n = m.payload.drop (n - sizeofHeader) := by
  rw [wire, List.drop_append, m.header.length_bytes, List.drop_eq_nil_of_le, List.nil_append]
  rwa [m.header.length_bytes]

theorem take_drop_wire (m : Message carries) {n k : Nat} (h : n + k ≤ sizeofHeader) :
    (m.wire.drop n).take k = (m.header.bytes.drop n).take k := by
  have hlength := m.header.length_bytes
  have hk : k ≤ (m.header.bytes.drop n).length := by
    rw [List.length_drop]
    omega
  rw [wire, List.drop_append_of_le_length (by omega), List.take_append_of_le_length hk]

end Message

/-- No call moves eleven bytes, and the peer does not close the stream. -/
def Calm (calls : List Outcome) : Prop := ∀ outcome ∈ calls, outcome ≠ .closed ∧ outcome ≠ .moves 11

namespace Conn

theorem call_any (c : Conn) (limit : Nat) :
    ∃ calls, calls ⊆ c.calls ∧ (c.call limit = (-1, { c with calls }) ∨
      .closed ∈ c.calls ∧ c.call limit = (0, { c with calls }) ∨
      ∃ n : Nat, 0 < n ∧ n ≤ limit ∧ .moves n ∈ c.calls ∧ c.call limit = ((n : Int), { c with calls })) := by
  rw [call]
  cases hcalls : c.calls with
  | nil => exact ⟨c.calls, by rw [hcalls]; exact List.Subset.refl [], .inl rfl⟩
  | cons outcome calls =>
    refine ⟨calls, List.subset_cons_self _ _, ?_⟩
    cases outcome with
    | wouldBlock => exact .inl rfl
    | closed => exact .inr (.inl ⟨List.mem_cons_self, rfl⟩)
    | moves n =>
      by_cases hn : n = 0 ∨ limit < n
      · left
        dsimp only
        rw [if_pos hn]
      · refine .inr (.inr ⟨n, by omega, by omega, List.mem_cons_self, ?_⟩)
        dsimp only
        rw [if_neg hn]

theorem call_cases (c : Conn) (hcalm : Calm c.calls) (limit : Nat) :
    ∃ calls, Calm calls ∧ (c.call limit = (-1, { c with calls }) ∨
      ∃ n : Nat, 0 < n ∧ n ≤ limit ∧ n ≠ 11 ∧ c.call limit = ((n : Int), { c with calls })) := by
  obtain ⟨calls, hsub, hcases⟩ := c.call_any limit
  refine ⟨calls, fun outcome ho ↦ hcalm outcome (hsub ho), ?_⟩
  rcases hcases with hcall | ⟨hclosed, -⟩ | ⟨n, hn, hle, hmoves, hcall⟩
  · exact .inl hcall
  · exact absurd rfl (hcalm _ hclosed).1
  · exact .inr ⟨n, hn, hle, fun h ↦ (hcalm _ hmoves).2 (congrArg _ h), hcall⟩

theorem checkReturn_of_blocked (can : Bool) (c : Conn) : checkReturn can (-1) c = .error c := by
  rw [checkReturn, if_neg fun h ↦ absurd h.1 (by decide), if_pos (.inr (.inr rfl))]

theorem checkReturn_of_moved (can : Bool) (c : Conn) {n : Nat} (hpos : 0 < n) (hne : n ≠ 11) :
    checkReturn can n c = .ok { c with amountDone := c.amountDone + n } := by
  have hne' : (n : Int) ≠ ewouldblock := fun h ↦ hne (Int.ofNat_inj.mp h)
  rw [checkReturn, if_neg fun h ↦ by omega, if_neg, if_neg (by omega), Int.toNat_natCast]
  rintro (h | h | h)
  · exact hne' h
  · omega
  · omega

structure Wrote (bytes : List Byte) (c c' : Conn) : Prop where
  endpoint : c'.toEndpoint = { c.toEndpoint with amountDone := c.amountDone + bytes.length }
  rx : c'.rx = c.rx
  tx : c'.tx = c.tx ++ bytes
  calm : Calm c'.calls

theorem Wrote.amountDone {c c' : Conn} {bytes : List Byte} (h : Wrote bytes c c') :
    c'.amountDone = c.amountDone + bytes.length :=
  congrArg Endpoint.amountDone h.endpoint

theorem Wrote.trans {c c' c'' : Conn} {bytes bytes' : List Byte} (h : Wrote bytes c c')
    (h' : Wrote bytes' c' c'') : Wrote (bytes ++ bytes') c c'' := by
  refine ⟨?_, h'.rx.trans h.rx, ?_, h'.calm⟩
  · rw [h'.endpoint, h.endpoint, List.length_append, ← Nat.add_assoc]
  · rw [h'.tx, h.tx, List.append_assoc]

theorem writePart_cases {c : Conn} (hcalm : Calm c.calls) {upTo : Nat} (bytes : List Byte)
    (hpos : 0 < bytes.length) (hupTo : c.amountDone + bytes.length = upTo) :
    ∃ n c', n ≤ bytes.length ∧ Wrote (bytes.take n) c c' ∧
      (n < bytes.length ∧ writePart upTo bytes c = .error c' ∨
        n = bytes.length ∧ writePart upTo bytes c = .ok c') := by
  obtain ⟨calls, hcalls, hcall | ⟨n, hn, hle, hne, hcall⟩⟩ := c.call_cases hcalm bytes.length
  · refine ⟨0, { c with calls }, Nat.zero_le _, ⟨rfl, rfl, by simp, hcalls⟩, .inl ⟨hpos, ?_⟩⟩
    simp only [writePart, write, hcall, checkReturn_of_blocked]
    simp [bind, Except.bind]
  · refine ⟨n, { c with
      calls, tx := c.tx ++ bytes.take n, amountDone := c.amountDone + n, canWrite := false },
      hle, ⟨?_, rfl, rfl, hcalls⟩, ?_⟩
    · rw [List.length_take, Nat.min_eq_left hle]
    · simp only [writePart, write, hcall, checkReturn_of_moved _ _ hn hne, Int.toNat_natCast]
      by_cases hlt : n < bytes.length
      · refine .inl ⟨hlt, ?_⟩
        simp only [bind, Except.bind]
        rw [if_pos (by omega)]
      · refine .inr ⟨by omega, ?_⟩
        simp only [bind, Except.bind]
        rw [if_neg (by omega)]

structure Holds (m : Message carries) (e : Endpoint) : Prop where
  header : e.header = m.header
  buffer : e.buffer.take m.payload.length = m.payload

theorem writePayload_cases {m : Message carries} {c : Conn} (h : Holds m c.toEndpoint)
    (hcalm : Calm c.calls) (hheader : sizeofHeader ≤ c.amountDone)
    (hlt : c.amountDone < m.wire.length ∨ c.amountDone = sizeofHeader)
    (hle : c.amountDone ≤ m.wire.length) :
    ∃ n c', c.amountDone + n ≤ m.wire.length ∧ Wrote ((m.wire.drop c.amountDone).take n) c c' ∧
      (c.amountDone + n < m.wire.length ∧
          (if carries c.header ∧ 0 < c.header.length.toInt then c.writePayload else .ok c) = .error c' ∨
        c.amountDone + n = m.wire.length ∧
          (if carries c.header ∧ 0 < c.header.length.toInt then c.writePayload else .ok c) = .ok c') := by
  have hsize := m.length_payload
  have hwire := m.length_wire
  rw [h.header]
  by_cases hpayload : carries m.header ∧ 0 < m.header.length.toInt
  · rw [payloadSize, if_pos hpayload] at hsize
    have hlength := length_pos_of_carries hpayload
    have hrest : (c.buffer.take c.header.length.toNat).drop (c.amountDone - sizeofHeader) =
        m.wire.drop c.amountDone := by
      rw [h.header, ← hsize, h.buffer, m.drop_wire hheader]
    have hupTo : c.amountDone + (m.wire.drop c.amountDone).length = sizeofHeader + m.header.length.toNat := by
      rw [List.length_drop]
      omega
    have hpos : 0 < (m.wire.drop c.amountDone).length := by
      rw [List.length_drop]
      omega
    obtain ⟨n, c', hn, hwrote, hcases⟩ := writePart_cases hcalm _ hpos hupTo
    rw [List.length_drop] at hn hcases
    rw [if_pos hpayload, writePayload, hrest, h.header]
    refine ⟨n, c', by omega, hwrote, ?_⟩
    rcases hcases with ⟨hlt', herror⟩ | ⟨heq, hok⟩
    · exact .inl ⟨by omega, herror⟩
    · exact .inr ⟨by omega, hok⟩
  · rw [payloadSize, if_neg hpayload] at hsize
    rw [if_neg hpayload]
    refine ⟨0, c, by omega, ⟨?_, rfl, ?_, hcalm⟩, .inr ⟨by omega, rfl⟩⟩
    · simp
    · simp

theorem writeHeader_cases {m : Message carries} {c : Conn} (h : Holds m c.toEndpoint)
    (hcalm : Calm c.calls) (hheader : c.amountDone < sizeofHeader) :
    ∃ n c', c.amountDone + n ≤ sizeofHeader ∧ Wrote ((m.wire.drop c.amountDone).take n) c c' ∧
      (c.amountDone + n < sizeofHeader ∧ c.writeHeader = .error c' ∨
        c.amountDone + n = sizeofHeader ∧ c.writeHeader = .ok c') := by
  have hrest : (m.header.bytes.drop c.amountDone).length = sizeofHeader - c.amountDone := by
    rw [List.length_drop, m.header.length_bytes]
  have hupTo : c.amountDone + (m.header.bytes.drop c.amountDone).length = sizeofHeader := by omega
  obtain ⟨n, c', hn, hwrote, hcases⟩ := writePart_cases hcalm _ (by omega) hupTo
  rw [← m.take_drop_wire (by omega)] at hwrote
  rw [writeHeader, h.header]
  refine ⟨n, c', by omega, hwrote, ?_⟩
  rcases hcases with ⟨hshort, herror⟩ | ⟨hall, hok⟩
  · exact .inl ⟨by omega, herror⟩
  · exact .inr ⟨by omega, hok⟩

theorem send_cases {m : Message carries} {c : Conn} (h : Holds m c.toEndpoint) (hcalm : Calm c.calls)
    (hlt : c.amountDone < m.wire.length) :
    ∃ n c', c.amountDone + n ≤ m.wire.length ∧ Wrote ((m.wire.drop c.amountDone).take n) c c' ∧
      (c.amountDone + n < m.wire.length ∧ c.send carries = .error c' ∨
        c.amountDone + n = m.wire.length ∧ c.send carries = .ok c') := by
  have hwire := m.length_wire
  by_cases hheader : c.amountDone < sizeofHeader
  · obtain ⟨n, c₁, hn, hwrote, ⟨hshort, herror⟩ | ⟨hall, hok⟩⟩ := writeHeader_cases h hcalm hheader
    · refine ⟨n, c₁, by omega, hwrote, .inl ⟨by omega, ?_⟩⟩
      rw [send, if_pos hheader, herror]
      rfl
    · have hamount : c₁.amountDone = sizeofHeader := by
        rw [hwrote.amountDone, List.length_take, List.length_drop]
        omega
      have h₁ : Holds m c₁.toEndpoint := by
        rw [hwrote.endpoint]
        exact ⟨h.header, h.buffer⟩
      obtain ⟨k, c₂, hk, hwrote', hcases⟩ := writePayload_cases h₁ hwrote.calm (by omega) (.inr hamount)
        (by omega)
      have hsend : c.send carries =
          if carries c₁.header ∧ 0 < c₁.header.length.toInt then c₁.writePayload else .ok c₁ := by
        rw [send, if_pos hheader, hok]
        rfl
      have hbytes : (m.wire.drop c.amountDone).take (n + k) =
          (m.wire.drop c.amountDone).take n ++ (m.wire.drop c₁.amountDone).take k := by
        rw [List.take_add, List.drop_drop]
        congr 3
        omega
      refine ⟨n + k, c₂, by omega, ?_, ?_⟩
      · rw [hbytes]
        exact hwrote.trans hwrote'
      · rw [hsend]
        rcases hcases with ⟨hlt', herror⟩ | ⟨heq, hdone⟩
        · exact .inl ⟨by omega, herror⟩
        · exact .inr ⟨by omega, hdone⟩
  · obtain ⟨n, c', hn, hwrote, hcases⟩ := writePayload_cases h hcalm (by omega) (.inl hlt) (by omega)
    have hsend : c.send carries =
        if carries c.header ∧ 0 < c.header.length.toInt then c.writePayload else .ok c := by
      rw [send, if_neg hheader]
      rfl
    rw [hsend]
    exact ⟨n, c', hn, hwrote, hcases⟩

structure Took (n : Nat) (c c' : Conn) : Prop where
  closed : c'.closed = c.closed
  state : c'.state = c.state
  amountDone : c'.amountDone = c.amountDone + n
  rx : c'.rx = c.rx.drop n
  tx : c'.tx = c.tx
  calm : Calm c'.calls

theorem Took.trans {c c' c'' : Conn} {n n' : Nat} (h : Took n c c') (h' : Took n' c' c'') :
    Took (n + n') c c'' := by
  refine ⟨h'.closed.trans h.closed, h'.state.trans h.state, ?_, ?_, h'.tx.trans h.tx, h'.calm⟩
  · rw [h'.amountDone, h.amountDone, Nat.add_assoc]
  · rw [h'.rx, h.rx, List.drop_drop]

def Keeps (save : Endpoint → List Byte → Endpoint) : Prop :=
  ∀ e bytes, (save e bytes).amountDone = e.amountDone ∧ (save e bytes).closed = e.closed ∧
    (save e bytes).state = e.state

theorem readPart_cases {c : Conn} (hcalm : Calm c.calls) {upTo : Nat} (hupTo : c.amountDone < upTo)
    {save : Endpoint → List Byte → Endpoint} (hsave : Keeps save) :
    ∃ n c', n ≤ c.rx.length ∧ c.amountDone + n ≤ upTo ∧ Took n c c' ∧
      c'.toEndpoint = { save c.toEndpoint (c.rx.take n) with amountDone := c.amountDone + n } ∧
      (c.amountDone + n < upTo ∧ readPart upTo save c = .error c' ∨
        c.amountDone + n = upTo ∧ readPart upTo save c = .ok c') := by
  obtain ⟨calls, hcalls, hcall | ⟨n, hn, hle, hne, hcall⟩⟩ :=
    c.call_cases hcalm (min (upTo - c.amountDone) c.rx.length)
  · obtain ⟨hamount, hclosed, hstate⟩ := hsave c.toEndpoint []
    refine ⟨0, { c with calls, toEndpoint := save c.toEndpoint [] }, Nat.zero_le _, by omega,
      ⟨hclosed, hstate, hamount, rfl, rfl, hcalls⟩, ?_, .inl ⟨hupTo, ?_⟩⟩
    · rw [List.take_zero, Nat.add_zero, ← hamount]
    · simp only [readPart, read, hcall, checkReturn_of_blocked]
      simp [bind, Except.bind]
  · obtain ⟨hamount, hclosed, hstate⟩ := hsave c.toEndpoint (c.rx.take n)
    refine ⟨n, { c with
      toEndpoint := { save c.toEndpoint (c.rx.take n) with amountDone := c.amountDone + n }
      calls, rx := c.rx.drop n, canRead := false }, by omega, by omega,
      ⟨hclosed, hstate, rfl, rfl, rfl, hcalls⟩, rfl, ?_⟩
    simp only [readPart, read, hcall, checkReturn_of_moved _ _ hn hne, Int.toNat_natCast, hamount]
    by_cases hlt : c.amountDone + n < upTo
    · refine .inl ⟨hlt, ?_⟩
      simp only [bind, Except.bind]
      rw [if_pos hlt]
    · refine .inr ⟨by omega, ?_⟩
      simp only [bind, Except.bind]
      rw [if_neg hlt]

end Conn

section Gather

/-- The endpoint holds what it has received of a message. The payload goes over `base`. -/
structure Gathers (prepare : Header → List Byte → List Byte) (m : Message carries) (base : List Byte)
    (e : Endpoint) : Prop where
  early : e.amountDone < sizeofHeader →
    e.header.bytes.take e.amountDone = m.header.bytes.take e.amountDone ∧ prepare m.header e.buffer = base
  late : sizeofHeader ≤ e.amountDone →
    e.header = m.header ∧ e.buffer = m.payload.take (e.amountDone - sizeofHeader) ++
      base.drop (e.amountDone - sizeofHeader)

theorem length_store {memory bytes : List Byte} {offset : Nat} (h : offset + bytes.length ≤ memory.length) :
    (store memory offset bytes).length = memory.length := by
  simp only [store, List.length_append, List.length_take, List.length_drop]
  omega

theorem take_store {memory : List Byte} (bytes : List Byte) {offset : Nat} (h : offset ≤ memory.length) :
    (store memory offset bytes).take (offset + bytes.length) = memory.take offset ++ bytes := by
  have hlength : (memory.take offset ++ bytes).length = offset + bytes.length := by
    rw [List.length_append, List.length_take, Nat.min_eq_left h]
  rw [store, ← hlength, List.take_left']
  rfl

theorem take_saveHeader {e : Endpoint} {h : Header} {n : Nat}
    (htake : e.header.bytes.take e.amountDone = h.bytes.take e.amountDone)
    (hn : e.amountDone + n ≤ sizeofHeader) :
    (e.saveHeader ((h.bytes.drop e.amountDone).take n)).header.bytes.take (e.amountDone + n) =
      h.bytes.take (e.amountDone + n) := by
  have hlength : ((h.bytes.drop e.amountDone).take n).length = n := by
    rw [List.length_take, List.length_drop, h.length_bytes]
    omega
  have hle : e.amountDone ≤ e.header.bytes.length := by
    rw [e.header.length_bytes]
    omega
  have hstore := take_store ((h.bytes.drop e.amountDone).take n) hle
  rw [hlength, htake, ← List.take_add] at hstore
  rw [Endpoint.saveHeader, Header.bytes_ofBytes]
  · exact hstore
  · rw [length_store, e.header.length_bytes]
    rw [hlength, e.header.length_bytes]
    exact hn

theorem buffer_savePayload {e : Endpoint} {payload base : List Byte} {n : Nat}
    (hbuffer : e.buffer = payload.take (e.amountDone - sizeofHeader) ++ base.drop (e.amountDone - sizeofHeader))
    (hn : e.amountDone - sizeofHeader + n ≤ payload.length) :
    (e.savePayload ((payload.drop (e.amountDone - sizeofHeader)).take n)).buffer =
      payload.take (e.amountDone - sizeofHeader + n) ++ base.drop (e.amountDone - sizeofHeader + n) := by
  rw [Endpoint.savePayload, hbuffer]
  generalize e.amountDone - sizeofHeader = k at hn
  have hlength : (payload.take k).length = k := by
    rw [List.length_take]
    omega
  have hmoved : ((payload.drop k).take n).length = n := by
    rw [List.length_take, List.length_drop]
    omega
  have hdrop : (payload.take k ++ base.drop k).drop (k + n) = base.drop (k + n) := by
    rw [List.drop_append, hlength, List.drop_eq_nil_of_le (by omega), List.nil_append, List.drop_drop]
    congr 1
    omega
  dsimp only
  rw [store, hmoved, hdrop, List.take_left' hlength, ← List.take_add]

theorem keeps_saveHeader : Conn.Keeps Endpoint.saveHeader := fun _ _ ↦ ⟨rfl, rfl, rfl⟩

theorem keeps_savePayload : Conn.Keeps Endpoint.savePayload := fun _ _ ↦ ⟨rfl, rfl, rfl⟩

variable {prepare : Header → List Byte → List Byte} {m : Message carries} {base : List Byte} {c : Conn}

theorem readPayload_cases (h : Gathers prepare m base c.toEndpoint) (hcalm : Calm c.calls)
    (hheader : sizeofHeader ≤ c.amountDone)
    (hlt : c.amountDone < m.wire.length ∨ c.amountDone = sizeofHeader)
    (hle : c.amountDone ≤ m.wire.length) (hrx : c.rx <+: m.wire.drop c.amountDone) :
    ∃ n c', n ≤ c.rx.length ∧ c.amountDone + n ≤ m.wire.length ∧ Conn.Took n c c' ∧
      Gathers prepare m base c'.toEndpoint ∧
      (c.amountDone + n < m.wire.length ∧
          (if carries c.header ∧ 0 < c.header.length.toInt then c.readPayload else .ok c) = .error c' ∨
        c.amountDone + n = m.wire.length ∧
          (if carries c.header ∧ 0 < c.header.length.toInt then c.readPayload else .ok c) = .ok c') := by
  have hsize := m.length_payload
  have hwire := m.length_wire
  obtain ⟨hhdr, hbuffer⟩ := h.late hheader
  rw [hhdr]
  by_cases hpayload : carries m.header ∧ 0 < m.header.length.toInt
  · have hpos := length_pos_of_carries hpayload
    rw [payloadSize, if_pos hpayload] at hsize
    have hupTo : c.amountDone < sizeofHeader + m.header.length.toNat := by omega
    obtain ⟨n, c', hn, hn', htook, hendpoint, hcases⟩ := Conn.readPart_cases hcalm hupTo keeps_savePayload
    have hbytes : c.rx.take n = (m.payload.drop (c.amountDone - sizeofHeader)).take n := by
      obtain ⟨tail, htail⟩ := hrx
      rw [← m.drop_wire hheader, ← htail, List.take_append_of_le_length hn]
    rw [if_pos hpayload, Conn.readPayload, hhdr]
    refine ⟨n, c', hn, by omega, htook, ?_, ?_⟩
    · rw [hbytes] at hendpoint
      have hsaved := buffer_savePayload hbuffer (n := n) (by omega)
      rw [hendpoint]
      refine ⟨fun hearly ↦ ?_, fun _ ↦ ⟨hhdr, ?_⟩⟩
      · dsimp only at hearly
        omega
      · dsimp only
        rw [hsaved]
        congr 2 <;> omega
    · rcases hcases with ⟨hlt', herror⟩ | ⟨heq, hok⟩
      · exact .inl ⟨by omega, herror⟩
      · exact .inr ⟨by omega, hok⟩
  · rw [payloadSize, if_neg hpayload] at hsize
    rw [if_neg hpayload]
    exact ⟨0, c, Nat.zero_le _, by omega, ⟨rfl, rfl, rfl, rfl, rfl, hcalm⟩, h, .inr ⟨by omega, rfl⟩⟩

theorem eq_of_take_bytes {h h' : Header} {n : Nat} (hn : n = sizeofHeader)
    (htake : h.bytes.take n = h'.bytes.take n) : h = h' := by
  rw [hn, List.take_of_length_le (Nat.le_of_eq h.length_bytes),
    List.take_of_length_le (Nat.le_of_eq h'.length_bytes)] at htake
  rw [← Header.ofBytes_bytes h, htake, Header.ofBytes_bytes]

theorem readHeader_cases (h : Gathers prepare m base c.toEndpoint) (hcalm : Calm c.calls)
    (hheader : c.amountDone < sizeofHeader) (hrx : c.rx <+: m.wire.drop c.amountDone) :
    ∃ n c', n ≤ c.rx.length ∧ Conn.Took n c c' ∧
      (c.amountDone + n < sizeofHeader ∧ Gathers prepare m base c'.toEndpoint ∧ c.readHeader = .error c' ∨
        c.amountDone + n = sizeofHeader ∧ c'.header = m.header ∧ prepare m.header c'.buffer = base ∧
          c.readHeader = .ok c') := by
  obtain ⟨htake, hbase⟩ := h.early hheader
  obtain ⟨n, c', hn, hn', htook, hendpoint, hcases⟩ := Conn.readPart_cases hcalm hheader keeps_saveHeader
  have hbytes : c.rx.take n = (m.header.bytes.drop c.amountDone).take n := by
    obtain ⟨tail, htail⟩ := hrx
    rw [← m.take_drop_wire hn', ← htail, List.take_append_of_le_length hn]
  have hsaved := take_saveHeader htake hn'
  rw [hbytes] at hendpoint
  refine ⟨n, c', hn, htook, ?_⟩
  rcases hcases with ⟨hshort, herror⟩ | ⟨hall, hok⟩
  · refine .inl ⟨hshort, ?_, herror⟩
    rw [hendpoint]
    refine ⟨fun _ ↦ ⟨hsaved, hbase⟩, fun hlate ↦ ?_⟩
    dsimp only at hlate
    omega
  · refine .inr ⟨hall, ?_, ?_, hok⟩
    · rw [hendpoint]
      exact eq_of_take_bytes hall hsaved
    · rw [hendpoint]
      exact hbase

theorem receive_cases (h : Gathers prepare m base c.toEndpoint) (hcalm : Calm c.calls)
    (hlt : c.amountDone < m.wire.length) (hrx : c.rx <+: m.wire.drop c.amountDone) :
    ∃ n c', n ≤ c.rx.length ∧ c.amountDone + n ≤ m.wire.length ∧ Conn.Took n c c' ∧
      Gathers prepare m base c'.toEndpoint ∧
      (c.amountDone + n < m.wire.length ∧ c.receive carries prepare = .error c' ∨
        c.amountDone + n = m.wire.length ∧ c.receive carries prepare = .ok c') := by
  have hwire := m.length_wire
  by_cases hheader : c.amountDone < sizeofHeader
  · obtain ⟨n, c₁, hn, htook, ⟨hshort, h₁, herror⟩ | ⟨hall, hhdr, hbuffer, hok⟩⟩ :=
      readHeader_cases h hcalm hheader hrx
    · refine ⟨n, c₁, hn, by omega, htook, h₁, .inl ⟨by omega, ?_⟩⟩
      rw [Conn.receive, if_pos hheader, herror]
      rfl
    · have hamount : c₁.amountDone = sizeofHeader := htook.amountDone.trans hall
      have hreceive : c.receive carries prepare =
          if carries c₁.header ∧ 0 < c₁.header.length.toInt then
            { c₁ with buffer := prepare c₁.header c₁.buffer }.readPayload
          else .ok { c₁ with buffer := prepare c₁.header c₁.buffer } := by
        rw [Conn.receive, if_pos hheader, hok]
        rfl
      rw [show prepare c₁.header c₁.buffer = base from hhdr ▸ hbuffer] at hreceive
      have h₁ : Gathers prepare m base { c₁ with buffer := base }.toEndpoint := by
        refine ⟨fun hearly ↦ ?_, fun _ ↦ ⟨hhdr, ?_⟩⟩
        · dsimp only at hearly
          omega
        · dsimp only
          rw [hamount, Nat.sub_self, List.take_zero, List.drop_zero, List.nil_append]
      have hrx₁ : c₁.rx <+: m.wire.drop c₁.amountDone := by
        rw [htook.rx, htook.amountDone, ← List.drop_drop]
        exact hrx.drop n
      obtain ⟨k, c₂, hk, hk', htook', h₂, hcases⟩ := readPayload_cases (c := { c₁ with buffer := base }) h₁
        htook.calm (Nat.le_of_eq hamount.symm) (.inr hamount) (by dsimp only; omega) hrx₁
      have hrest : k ≤ c.rx.length - n := by
        rw [← List.length_drop, ← htook.rx]
        exact hk
      dsimp only at hk' hcases
      have htook₁ : Conn.Took n c { c₁ with buffer := base } :=
        ⟨htook.closed, htook.state, htook.amountDone, htook.rx, htook.tx, htook.calm⟩
      refine ⟨n + k, c₂, by omega, by omega, htook₁.trans htook', h₂, ?_⟩
      rw [hreceive]
      rcases hcases with ⟨hlt', herror⟩ | ⟨heq, hdone⟩
      · exact .inl ⟨by omega, herror⟩
      · exact .inr ⟨by omega, hdone⟩
  · obtain ⟨n, c', hn, hn', htook, h', hcases⟩ := readPayload_cases h hcalm (by omega) (.inl hlt) (by omega) hrx
    have hreceive : c.receive carries prepare =
        if carries c.header ∧ 0 < c.header.length.toInt then c.readPayload else .ok c := by
      rw [Conn.receive, if_neg hheader]
      rfl
    rw [hreceive]
    exact ⟨n, c', hn, hn', htook, h', hcases⟩

theorem Gathers.complete (h : Gathers prepare m base c.toEndpoint) (hall : c.amountDone = m.wire.length) :
    c.header = m.header ∧ c.buffer = m.payload ++ base.drop m.payload.length := by
  have hwire := m.length_wire
  obtain ⟨hhdr, hbuffer⟩ := h.late (by omega)
  have hsub : c.amountDone - sizeofHeader = m.payload.length := by omega
  rw [hsub, List.take_length] at hbuffer
  exact ⟨hhdr, hbuffer⟩

end Gather

end IDeviceEmulator.TcpUsb
