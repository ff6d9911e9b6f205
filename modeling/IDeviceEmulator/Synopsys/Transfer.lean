import IDeviceEmulator.Library.Masks
import IDeviceEmulator.Synopsys.Irq
import IDeviceEmulator.Synopsys.Peer
import Mathlib.Data.List.GetD

namespace IDeviceEmulator.Synopsys

open Machine
open Memory (put)
open TcpUsb

/-- What happens at one endpoint: the guest writes its control register, or the peer makes a
request of it. -/
inductive Event
  | enable (val : Word)
  | request (header : Header) (buffer : List Byte)

/-- The bytes that a request moves are at the front of the peer's buffer, for an IN transfer as the
device leaves it. -/
def movedBytes : Direction → List Byte → List Byte → Int → List Byte
  | .dirIn, _, buffer', ret => buffer'.take ret.toNat
  | .dirOut, buffer, _, ret => buffer.take ret.toNat

def serve (dir : Direction) (i : Fin numEndpoints) (s : Device) : Event → Except Fault (Device × List Byte)
  | .enable val => (write s (controlAddr dir i) val true).map fun t ↦ (t, [])
  | .request h buffer => (tcpCallback s h buffer).map fun reply ↦
      (reply.app, movedBytes dir buffer reply.buffer reply.ret)

/-- A request for the endpoint, with a length that is not negative and a buffer of that length. -/
def Event.For (dir : Direction) (i : Fin numEndpoints) : Event → Prop
  | enable _ => True
  | request h buffer => directionOf h = dir ∧ (h.ep &&& 0x7f).toNat = i ∧ 0 ≤ h.length.toInt ∧
      h.length.toInt.toNat ≤ buffer.length

/-- The FIFO of an endpoint passes the overflow checks. -/
def FifoPasses (s : Device) (e : EpState) : Direction → Prop
  | .dirIn => ∃ fifo : Fin 16, e.fifo.toNat = fifo ∧ txFifoStart s fifo + txFifoSize s fifo ≤ fifosSize
  | .dirOut => s.grxfsiz.toNat ≤ fifosSize

/-- The bytes that are moved are those of guest memory from the DMA address on, or are stored there. -/
def Transferred (s t : Device) (a : Word) (bytes : List Byte) : Direction → Prop
  | .dirIn => t.mem = s.mem ∧ bytes = (List.range bytes.length).map fun k ↦ s.mem (a + BitVec.ofNat 32 k)
  | .dirOut => t.mem = put s.mem a bytes.length fun k ↦ bytes.getD k 0

/-- Some bytes are moved, and the registers of the endpoint account for them. -/
structure Accounted (dir : Direction) (i : Fin numEndpoints) (s t : Device) (bytes : List Byte) : Prop where
  size : xferSize (t.eps dir i) + bytes.length = xferSize (s.eps dir i)
  packets : (t.eps dir i).txSize &&& ~~~xferSizMask = (s.eps dir i).txSize &&& ~~~xferSizMask
  dma : (t.eps dir i).dmaAddress.toNat = (s.eps dir i).dmaAddress.toNat + bytes.length
  memory : Transferred s t (s.eps dir i).dmaAddress bytes dir

/-- An endpoint with DMA whose transfer does not wrap around. -/
structure Ready (dir : Direction) (i : Fin numEndpoints) (s : Device) : Prop where
  dma : (s.eps dir i).dmaAddress ≠ 0
  fits : (s.eps dir i).dmaAddress.toNat + xferSize (s.eps dir i) < 2 ^ 32
  fifo : FifoPasses s (s.eps dir i) dir

/-- The size of the FIFO that an endpoint uses. -/
def fifoSize (s : Device) (e : EpState) : Direction → Nat
  | .dirIn => txFifoSize s (Fin.ofNat 16 e.fifo.toNat)
  | .dirOut => s.grxfsiz.toNat

/-- The number of bytes that a token is to move: what is left of the transfer, as far as the request and the FIFO go.
A stalled or disabled endpoint moves none. -/
def quantity (dir : Direction) (i : Fin numEndpoints) (s : Device) (h : Header) : Nat :=
  if (s.eps dir i).control &&& epconStall ≠ 0 ∨ (s.eps dir i).control &&& epconEnable = 0 then 0
  else min (min (xferSize (s.eps dir i)) h.length.toInt.toNat) (fifoSize s (s.eps dir i) dir)

/-- A request to reset the bus moves nothing. -/
def Event.quantity (dir : Direction) (i : Fin numEndpoints) (s : Device) : Event → Nat
  | enable _ => 0
  | request h _ => if h.flags &&& 2 ≠ 0 then 0 else Synopsys.quantity dir i s h

section Accounts

variable {dir : Direction} {i : Fin numEndpoints} {s t u : Device}

theorem xferSize_lt (e : EpState) : xferSize e < 2 ^ 17 := by
  have hle : (e.txSize &&& xferSizMask).toNat ≤ 0x1ffff := by
    rw [BitVec.toNat_and]
    exact Nat.and_le_right
  unfold xferSize
  omega

/-- Nothing is moved. -/
theorem Accounted.nothing (hmem : t.mem = s.mem) (hsize : (t.eps dir i).txSize = (s.eps dir i).txSize)
    (hdma : (t.eps dir i).dmaAddress = (s.eps dir i).dmaAddress) : Accounted dir i s t [] := by
  refine ⟨?_, ?_, ?_, ?_⟩
  · rw [xferSize, hsize]
    rfl
  · rw [hsize]
  · rw [hdma]
    rfl
  · cases dir with
    | dirIn => exact ⟨hmem, rfl⟩
    | dirOut =>
      have hput : put s.mem (s.eps .dirOut i).dmaAddress 0 (fun k ↦ ([] : List Byte).getD k 0) = s.mem := by
        funext x
        exact Memory.put_of_not_covers s.mem (Nat.not_lt_zero _)
      exact hmem.trans hput.symm

theorem Accounted.next {bytes : List Byte} (h : Accounted dir i s t bytes) :
    (t.eps dir i).dmaAddress = (s.eps dir i).dmaAddress + BitVec.ofNat 32 bytes.length := by
  have hlt := (t.eps dir i).dmaAddress.isLt
  have hdma := h.dma
  apply BitVec.eq_of_toNat_eq
  rw [BitVec.toNat_add, BitVec.toNat_ofNat, Nat.add_mod_mod, ← hdma]
  exact (Nat.mod_eq_of_lt hlt).symm

theorem Transferred.trans {a : Word} {bytes bytes' : List Byte} (hlen : bytes.length + bytes'.length ≤ 2 ^ 32)
    (h : Transferred s t a bytes dir) (h' : Transferred t u (a + BitVec.ofNat 32 bytes.length) bytes' dir) :
    Transferred s u a (bytes ++ bytes') dir := by
  cases dir with
  | dirIn =>
    obtain ⟨hmem, hbytes⟩ := h
    obtain ⟨hmem', hbytes'⟩ := h'
    refine ⟨hmem'.trans hmem, ?_⟩
    rw [List.length_append, List.range_add, List.map_append, List.map_map, ← hbytes]
    refine congrArg (bytes ++ ·) (hbytes'.trans (List.map_congr_left ?_))
    intro k _
    rw [hmem, Function.comp_apply, BitVec.add_assoc, BitVec.ofNat_add]
  | dirOut =>
    have hput : u.mem = put (put s.mem a bytes.length fun k ↦ bytes.getD k 0) (a + BitVec.ofNat 32 bytes.length)
        bytes'.length fun k ↦ bytes'.getD k 0 := by
      rw [← show t.mem = _ from h]
      exact h'
    change u.mem = put s.mem a (bytes ++ bytes').length _
    rw [hput, Memory.put_append s.mem a hlen, List.length_append]
    apply Memory.put_congr
    intro k hk
    split
    · rename_i hfirst
      rw [List.getD_append _ _ _ _ hfirst]
    · rename_i hsecond
      rw [List.getD_append_right _ _ _ _ (by omega)]

theorem Accounted.trans {bytes bytes' : List Byte} (h : Accounted dir i s t bytes)
    (h' : Accounted dir i t u bytes') : Accounted dir i s u (bytes ++ bytes') := by
  have hsize := h.size
  have hsize' := h'.size
  have hdma := h.dma
  have hdma' := h'.dma
  have hsmall := xferSize_lt (s.eps dir i)
  refine ⟨?_, h'.packets.trans h.packets, ?_, ?_⟩
  · rw [List.length_append]
    omega
  · rw [List.length_append]
    omega
  · have hmemory := h'.memory
    rw [h.next] at hmemory
    exact h.memory.trans (by omega) hmemory

theorem xferSize_finish (e : EpState) {done : Nat} (hdone : done ≤ xferSize e) (raised : Word) :
    xferSize (finish e (xferSize e) done raised) + done = xferSize e := by
  have hsmall := xferSize_lt e
  have hmerge : (finish e (xferSize e) done raised).txSize &&& xferSizMask =
      BitVec.ofNat 32 (xferSize e - done) &&& xferSizMask := Masks.and_of_merge (BitVec.and_self)
  have hmask : xferSizMask.toNat = 2 ^ 17 - 1 := rfl
  rw [xferSize, hmerge, BitVec.toNat_and, hmask, Nat.and_two_pow_sub_one_eq_mod, BitVec.toNat_ofNat]
  generalize xferSize e = n at hdone hsmall
  omega

theorem packets_finish (e : EpState) (sz done : Nat) (raised : Word) :
    (finish e sz done raised).txSize &&& ~~~xferSizMask = e.txSize &&& ~~~xferSizMask :=
  Masks.and_of_masked (by decide)

theorem dma_finish (e : EpState) {done : Nat} (sz : Nat) (raised : Word) (hdma : e.dmaAddress ≠ 0)
    (hfits : e.dmaAddress.toNat + done < 2 ^ 32) :
    (finish e sz done raised).dmaAddress.toNat = e.dmaAddress.toNat + done := by
  unfold finish
  dsimp only
  by_cases hdone : 0 < done
  · rw [if_pos ⟨hdone, hdma⟩, BitVec.toNat_add, BitVec.toNat_ofNat, Nat.add_mod_mod, Nat.mod_eq_of_lt hfits]
  · rw [if_neg fun hboth ↦ hdone hboth.1]
    omega

end Accounts

section Tokens

variable {i : Fin numEndpoints} {s : Device} {h : Header} {buffer : List Byte}

/-- Where the token of a transfer leaves the device. -/
structure Moves (dir : Direction) (i : Fin numEndpoints) (s t : Device) (bytes : List Byte) : Prop where
  accounted : Accounted dir i s t bytes
  ready : Ready dir i t

theorem Ready.moves {dir : Direction} {t : Device} {bytes : List Byte} (hready : Ready dir i s)
    (h : Accounted dir i s t bytes) (hfifo : FifoPasses t (t.eps dir i) dir) : Moves dir i s t bytes := by
  have hsize := h.size
  have hdma := h.dma
  have hfits := hready.fits
  refine ⟨h, ?_, by omega, hfifo⟩
  intro hzero
  rw [hzero] at hdma
  apply hready.dma
  apply BitVec.eq_of_toNat_eq
  have hnat : (0 : Word).toNat = 0 := rfl
  rw [hnat] at hdma ⊢
  omega

/-- The endpoint is left as `finish` leaves it, after the bytes have been moved. -/
theorem Ready.finished {dir : Direction} {t : Device} {bytes : List Byte} {raised : Word} (hready : Ready dir i s)
    (hle : bytes.length ≤ xferSize (s.eps dir i)) (hmemory : Transferred s t (s.eps dir i).dmaAddress bytes dir)
    (hep : t.eps dir i = finish (s.eps dir i) (xferSize (s.eps dir i)) bytes.length raised)
    (hfifo : FifoPasses t (t.eps dir i) dir) : Moves dir i s t bytes := by
  have hfits := hready.fits
  refine hready.moves ⟨?_, ?_, ?_, hmemory⟩ hfifo
  · rw [hep]
    exact xferSize_finish _ hle raised
  · rw [hep]
    exact packets_finish _ _ _ raised
  · rw [hep]
    exact dma_finish _ _ raised hready.dma (by omega)

theorem ok_bind {α β : Type} (a : α) (f : α → Except Fault β) : ((.ok a : Except Fault α) >>= f) = f a := rfl

theorem sendToPeer_eq (fifos : Nat → Byte) {start done : Nat} (hfits : start + done ≤ fifosSize)
    (hbuffer : done ≤ buffer.length) :
    sendToPeer fifos start done buffer =
      .ok ((List.range done).map (fun k ↦ fifos (start + k)) ++ buffer.drop done) := by
  unfold sendToPeer
  by_cases hdone : 0 < done
  · have hlen : ¬ buffer.length < ((List.range done).map fun k ↦ fifos (start + k)).length := by
      rw [List.length_map, List.length_range]
      omega
    rw [if_pos hdone, loadFifos, if_neg (by omega), ok_bind, copyToPeer, if_neg hlen, List.length_map,
      List.length_range]
  · obtain rfl : done = 0 := by omega
    rfl

theorem fillFifo_eq {e : EpState} {start done : Nat} (hdma : e.dmaAddress ≠ 0) (hfits : start + done ≤ fifosSize) :
    ∃ fifos, fillFifo s e start done = .ok fifos ∧
      ∀ k < done, fifos (start + k) = s.mem (e.dmaAddress + BitVec.ofNat 32 k) := by
  unfold fillFifo
  by_cases hdone : 0 < done
  · rw [if_pos ⟨hdone, hdma⟩, storeFifos, if_neg (by omega)]
    refine ⟨_, rfl, ?_⟩
    intro k hk
    rw [if_pos (by omega), Nat.add_sub_cancel_left]
  · rw [if_neg fun hboth ↦ hdone hboth.1]
    refine ⟨_, rfl, ?_⟩
    intro k hk
    omega

theorem takeFromPeer_eq (buffer : List Byte) {done : Nat} (hfits : done ≤ fifosSize) (hbuffer : done ≤ buffer.length) :
    ∃ fifos, takeFromPeer s done buffer = .ok fifos ∧ ∀ k < done, fifos k = (buffer.take done).getD k 0 := by
  unfold takeFromPeer
  by_cases hdone : 0 < done
  · have hstore (bytes : Nat → Byte) : storeFifos s.fifos 0 done bytes =
        .ok fun i ↦ if 0 ≤ i ∧ i < 0 + done then bytes (i - 0) else s.fifos i := if_neg (by omega)
    rw [if_pos hdone, copyFromPeer, if_neg (by omega), ok_bind]
    refine ⟨_, hstore _, ?_⟩
    intro k hk
    rw [if_pos (by omega), Nat.sub_zero]
  · rw [if_neg hdone]
    refine ⟨_, rfl, ?_⟩
    intro k hk
    omega

theorem inTransfer_moves (hready : Ready .dirIn i s) (hlen : 0 ≤ h.length.toInt)
    (hbuffer : h.length.toInt.toNat ≤ buffer.length) :
    ∃ t n buffer', inTransfer s i h buffer = .ok (t, (n : Nat), buffer') ∧ Moves .dirIn i s t (buffer'.take n) ∧
      (buffer'.take n).length =
        min (min (xferSize (s.eps .dirIn i)) h.length.toInt.toNat) (fifoSize s (s.eps .dirIn i) .dirIn) := by
  obtain ⟨fifo, hnumber, hpasses⟩ := hready.fifo
  obtain ⟨e, he⟩ : ∃ e, s.eps .dirIn i = e := ⟨_, rfl⟩
  have hexists : existingFifo e.fifo = .ok fifo := by
    rw [← he, existingFifo, dif_pos (by rw [hnumber]; exact fifo.isLt)]
    exact congrArg Except.ok (Fin.ext hnumber)
  have hsize := lengthSize_of_nonneg h hlen
  obtain ⟨done, hdone⟩ : ∃ done, min (min (xferSize e) (lengthSize h)) (txFifoSize s fifo) = done := ⟨_, rfl⟩
  have hle : done ≤ xferSize e := by omega
  have hlast : done ≤ buffer.length := by omega
  have hfits : txFifoStart s fifo + done ≤ fifosSize := by omega
  have hdma : e.dmaAddress ≠ 0 := he ▸ hready.dma
  obtain ⟨fifos, hfill, hbytes⟩ := fillFifo_eq (s := s) hdma hfits
  have hsend := sendToPeer_eq fifos hfits hlast
  have hmap : (List.range done).map (fun k ↦ fifos (txFifoStart s fifo + k)) =
      (List.range done).map fun k ↦ s.mem (e.dmaAddress + BitVec.ofNat 32 k) := by
    apply List.map_congr_left
    intro k hk
    exact hbytes k (List.mem_range.mp hk)
  rw [hmap] at hsend
  obtain ⟨moved, hmoved⟩ : ∃ moved : List Byte,
      ((List.range done).map fun k ↦ s.mem (e.dmaAddress + BitVec.ofNat 32 k)) = moved := ⟨_, rfl⟩
  have hlength : moved.length = done := by
    rw [← hmoved, List.length_map, List.length_range]
  rw [hmoved] at hsend
  have hroom : fifoSize s e .dirIn = txFifoSize s fifo := by
    rw [fifoSize, ← he, hnumber]
    exact congrArg (txFifoSize s) (Fin.ext (Nat.mod_eq_of_lt fifo.isLt))
  refine ⟨setEp { s with fifos } .dirIn i (finish e (xferSize e) done epintXferCompl), done,
    moved ++ buffer.drop done, ?_, ?_, ?_⟩
  · unfold inTransfer
    rw [he]
    dsimp only
    rw [hexists, ok_bind, if_neg (by omega), hdone, hfill, ok_bind, hsend, ok_bind]
  · rw [List.take_left' hlength]
    refine hready.finished (by rw [hlength, he]; exact hle) ⟨rfl, ?_⟩ (by rw [eps_setEp_self, hlength, he]) ?_
    · rw [hlength, he]
      exact hmoved.symm
    · rw [eps_setEp_self]
      exact ⟨fifo, he ▸ hnumber, hpasses⟩
  · rw [List.take_left' hlength, hlength, he, hroom, ← hsize, hdone]

theorem outTransfer_moves (hready : Ready .dirOut i s) (hlen : 0 ≤ h.length.toInt)
    (hbuffer : h.length.toInt.toNat ≤ buffer.length) :
    ∃ t n, outTransfer s i h buffer = .ok (t, (n : Nat), buffer) ∧ Moves .dirOut i s t (buffer.take n) ∧
      (buffer.take n).length =
        min (min (xferSize (s.eps .dirOut i)) h.length.toInt.toNat) (fifoSize s (s.eps .dirOut i) .dirOut) := by
  obtain ⟨e, he⟩ : ∃ e, s.eps .dirOut i = e := ⟨_, rfl⟩
  have hpasses : s.grxfsiz.toNat ≤ fifosSize := hready.fifo
  have hsize := lengthSize_of_nonneg h hlen
  obtain ⟨done, hdone⟩ : ∃ done, min (min (xferSize e) (lengthSize h)) s.grxfsiz.toNat = done := ⟨_, rfl⟩
  have hle : done ≤ xferSize e := by omega
  have hlast : done ≤ buffer.length := by omega
  have hdma : e.dmaAddress ≠ 0 := he ▸ hready.dma
  obtain ⟨fifos, htake, hbytes⟩ := takeFromPeer_eq (s := s) buffer (by omega : done ≤ fifosSize) hlast
  have hlength : (buffer.take done).length = done := by
    rw [List.length_take]
    omega
  obtain ⟨raised, hraised⟩ : ∃ raised, (if h.flags &&& 1 ≠ 0 then epintSetUp else epintXferCompl) = raised := ⟨_, rfl⟩
  have hmem : (if 0 < done ∧ e.dmaAddress ≠ 0 then put s.mem e.dmaAddress done fifos else s.mem) =
      put s.mem e.dmaAddress done fun k ↦ (buffer.take done).getD k 0 := by
    by_cases hpos : 0 < done
    · rw [if_pos ⟨hpos, hdma⟩]
      exact Memory.put_congr s.mem hbytes
    · rw [if_neg fun hboth ↦ hpos hboth.1]
      funext x
      exact (Memory.put_of_not_covers s.mem fun hcovers ↦ hpos (Nat.zero_lt_of_lt hcovers)).symm
  refine ⟨setEp { s with
    fifos
    mem := put s.mem e.dmaAddress done fun k ↦ (buffer.take done).getD k 0 } .dirOut i
      (finish e (xferSize e) done raised), done, ?_, ?_, ?_⟩
  · unfold outTransfer
    rw [he, hraised]
    dsimp only
    rw [if_neg (by omega), hdone, htake, ← hmem]
    rfl
  · refine hready.finished (by rw [hlength, he]; exact hle) ?_ (by rw [eps_setEp_self, hlength, he]) hpasses
    rw [Transferred, hlength, he]
    rfl
  · rw [hlength, he, fifoSize, ← hsize, hdone]

theorem movedBytes_nothing (dir : Direction) (buffer buffer' : List Byte) {ret : Int} (h : ret ≤ 0) :
    movedBytes dir buffer buffer' ret = [] := by
  have hzero := Int.toNat_of_nonpos h
  cases dir with
  | dirIn => rw [movedBytes, hzero, List.take_zero]
  | dirOut => rw [movedBytes, hzero, List.take_zero]

theorem token_moves {dir : Direction} (hready : Ready dir i s) (hlen : 0 ≤ h.length.toInt)
    (hbuffer : h.length.toInt.toNat ≤ buffer.length) :
    ∃ t ret buffer', token s dir i h buffer = .ok (t, ret, buffer') ∧
      Moves dir i s t (movedBytes dir buffer buffer' ret) ∧
      (movedBytes dir buffer buffer' ret).length = quantity dir i s h := by
  unfold token quantity
  dsimp only
  by_cases hstall : (s.eps dir i).control &&& epconStall ≠ 0
  · rw [if_pos hstall]
    refine ⟨_, _, _, rfl, ?_⟩
    rw [movedBytes_nothing _ _ _ (by decide), if_pos (.inl hstall)]
    refine ⟨hready.moves ?_ ?_, rfl⟩
    · apply Accounted.nothing
      · rfl
      · rw [eps_setEp_self]
      · rw [eps_setEp_self]
    · rw [eps_setEp_self]
      exact hready.fifo
  · rw [if_neg hstall]
    by_cases henable : (s.eps dir i).control &&& epconEnable ≠ 0
    · rw [if_pos henable, if_neg (not_or.mpr ⟨hstall, henable⟩)]
      cases dir with
      | dirIn =>
        obtain ⟨t, n, buffer', ht, hmoves⟩ := inTransfer_moves hready hlen hbuffer
        exact ⟨t, n, buffer', ht, hmoves⟩
      | dirOut =>
        obtain ⟨t, n, ht, hmoves⟩ := outTransfer_moves hready hlen hbuffer
        exact ⟨t, n, buffer, ht, hmoves⟩
    · rw [if_neg henable, if_pos (.inr (not_not.mp henable))]
      refine ⟨_, _, _, rfl, ?_⟩
      rw [movedBytes_nothing _ _ _ (by decide)]
      exact ⟨hready.moves (.nothing rfl rfl rfl) hready.fifo, rfl⟩

/-- The interrupt registers have no part in a transfer. -/
theorem Moves.updateIrq {dir : Direction} {t : Device} {bytes : List Byte} (gintsts : Word)
    (h : Moves dir i { s with gintsts } t bytes) : Moves dir i s (updateIrq t) bytes :=
  ⟨⟨h.accounted.size, h.accounted.packets, h.accounted.dma, h.accounted.memory⟩,
    ⟨h.ready.dma, h.ready.fits, h.ready.fifo⟩⟩

theorem callback_moves {dir : Direction} (hready : Ready dir i s) (hdir : directionOf h = dir)
    (hep : (h.ep &&& 0x7f).toNat = i) (hlen : 0 ≤ h.length.toInt) (hbuffer : h.length.toInt.toNat ≤ buffer.length) :
    ∃ reply, tcpCallback s h buffer = .ok reply ∧
      Moves dir i s reply.app (movedBytes dir buffer reply.buffer reply.ret) ∧
      (movedBytes dir buffer reply.buffer reply.ret).length = (Event.request h buffer).quantity dir i s := by
  have hexists : existingEp (h.ep &&& 0x7f) = .ok i := by
    rw [existingEp, dif_pos (by rw [hep]; exact i.isLt)]
    exact congrArg Except.ok (Fin.ext hep)
  unfold tcpCallback Event.quantity
  dsimp only
  by_cases hreset : h.flags &&& 2 ≠ 0
  · rw [if_pos hreset, if_pos hreset]
    refine ⟨_, rfl, ?_⟩
    rw [movedBytes_nothing _ _ _ (by exact Int.le_refl 0)]
    exact ⟨hready.moves (.nothing rfl rfl rfl) hready.fifo, rfl⟩
  · rw [if_neg hreset, if_neg hreset, hexists, ok_bind]
    obtain ⟨gintsts, hs⟩ : ∃ gintsts, (if h.flags &&& 4 ≠ 0 then
        { s with gintsts := s.gintsts ||| gintmskEnumDone } else s) = { s with gintsts } := by
      split
      · exact ⟨_, rfl⟩
      · exact ⟨s.gintsts, rfl⟩
    have hready' : Ready dir i { s with gintsts } := ⟨hready.dma, hready.fits, hready.fifo⟩
    obtain ⟨t, ret, buffer', ht, hmoves, hquantity⟩ :=
      token_moves (h := { h with addr := ((s.dcfg &&& 0x7f0) >>> 4).setWidth 8 }) hready' hlen hbuffer
    have hsame : directionOf { h with addr := ((s.dcfg &&& 0x7f0) >>> 4).setWidth 8 } = dir := hdir
    rw [hs, hsame, ht, ok_bind]
    exact ⟨_, rfl, hmoves.updateIrq gintsts, hquantity⟩

theorem FifoPasses.of_fifo {dir : Direction} {e e' : EpState} (h : FifoPasses s e dir) (hfifo : e'.fifo = e.fifo) :
    FifoPasses s e' dir := by
  cases dir with
  | dirIn =>
    obtain ⟨fifo, hnumber, hpasses⟩ := h
    exact ⟨fifo, by rw [hfifo, hnumber], hpasses⟩
  | dirOut => exact h

theorem updateEp_kept (e : EpState) :
    (updateEp e).txSize = e.txSize ∧ (updateEp e).dmaAddress = e.dmaAddress ∧ (updateEp e).fifo = e.fifo := by
  unfold updateEp
  dsimp only
  split_ifs
  · exact ⟨rfl, rfl, rfl⟩
  · exact ⟨rfl, rfl, rfl⟩
  · exact ⟨rfl, rfl, rfl⟩
  · exact ⟨rfl, rfl, rfl⟩

theorem serve_moves {dir : Direction} (hready : Ready dir i s) {event : Event} (hevent : event.For dir i) :
    ∃ t bytes, serve dir i s event = .ok (t, bytes) ∧ Moves dir i s t bytes ∧
      bytes.length = event.quantity dir i s := by
  cases event with
  | enable val =>
    obtain ⟨hsize, hdma, hfifo⟩ := updateEp_kept { s.eps dir i with control := val }
    rw [serve, write_control]
    refine ⟨_, _, rfl, hready.moves ?_ ?_, rfl⟩
    · apply Accounted.nothing
      · rfl
      · rw [eps_setEp_self]
        exact hsize
      · rw [eps_setEp_self]
        exact hdma
    · rw [eps_setEp_self]
      exact FifoPasses.of_fifo hready.fifo hfifo
  | request h buffer =>
    obtain ⟨hdir, hep, hlen, hbuffer⟩ := hevent
    obtain ⟨reply, hreply, hmoves⟩ := callback_moves hready hdir hep hlen hbuffer
    rw [serve, hreply]
    exact ⟨_, _, rfl, hmoves⟩

end Tokens

/-- However the requests cut a transfer up, and whenever the guest enables the endpoint again, the
bytes moved are the consecutive bytes of guest memory at the DMA address, the registers of the
endpoint account for each of them, and the next request moves as many as it is to move. -/
theorem transfers_accounted {dir : Direction} {i : Fin numEndpoints} {s : Device}
    (hdma : (s.eps dir i).dmaAddress ≠ 0)
    (hfits : (s.eps dir i).dmaAddress.toNat + xferSize (s.eps dir i) < 2 ^ 32)
    (hfifo : FifoPasses s (s.eps dir i) dir) {events : List Event} (hevents : ∀ event ∈ events, event.For dir i) :
    ∃ t chunks, exec (serve dir i) s events = .ok (t, chunks) ∧ Accounted dir i s t chunks.flatten ∧
      ∀ event : Event, event.For dir i →
        ∃ u bytes, serve dir i t event = .ok (u, bytes) ∧ bytes.length = event.quantity dir i t := by
  induction events generalizing s with
  | nil =>
    refine ⟨s, [], rfl, .nothing rfl rfl rfl, fun event hevent ↦ ?_⟩
    obtain ⟨u, bytes, hu, -, hquantity⟩ := serve_moves ⟨hdma, hfits, hfifo⟩ hevent
    exact ⟨u, bytes, hu, hquantity⟩
  | cons event events ih =>
    obtain ⟨t, bytes, ht, hmoves, -⟩ := serve_moves ⟨hdma, hfits, hfifo⟩ (hevents event List.mem_cons_self)
    obtain ⟨hdma', hfits', hfifo'⟩ := hmoves.ready
    obtain ⟨u, chunks, hu, haccounted, hnext⟩ :=
      ih hdma' hfits' hfifo' fun event hevent ↦ hevents event (List.mem_cons_of_mem _ hevent)
    exact ⟨u, bytes :: chunks, exec_cons ht hu, hmoves.accounted.trans haccounted, hnext⟩

/-- A device after reset whose first endpoint has six bytes at 0x2000 to send. -/
def sending : Device :=
  setEp (initialReset false fun a ↦ a.setWidth 8) .dirIn ⟨1, by decide⟩
    { control := bit 31, txSize := 6, dmaAddress := 0x2000 }

theorem transfers_accounted_sending : ∃ t chunks,
    exec (serve .dirIn ⟨1, by decide⟩) sending
      [.request { ep := 0x81, length := 4 } (List.replicate 4 0), .enable (bit 31),
        .request { ep := 0x81, length := 4 } (List.replicate 4 0)] = .ok (t, chunks) ∧
      Accounted .dirIn ⟨1, by decide⟩ sending t chunks.flatten ∧
      ∀ event : Event, event.For .dirIn ⟨1, by decide⟩ → ∃ u bytes,
        serve .dirIn ⟨1, by decide⟩ t event = .ok (u, bytes) ∧ bytes.length = event.quantity .dirIn ⟨1, by decide⟩ t := by
  have hfifo : FifoPasses sending (sending.eps .dirIn ⟨1, by decide⟩) .dirIn := ⟨0, by decide, by decide⟩
  refine transfers_accounted (by decide) (by decide) hfifo ?_
  intro event hevent
  simp only [List.mem_cons, List.not_mem_nil, or_false] at hevent
  rcases hevent with rfl | rfl | rfl
  · exact ⟨by decide, by decide, by decide, by decide⟩
  · trivial
  · exact ⟨by decide, by decide, by decide, by decide⟩

-- the first request moves four of the six bytes
example : Event.quantity .dirIn ⟨1, by decide⟩ sending (.request { ep := 0x81, length := 4 } []) = 4 := by decide

end IDeviceEmulator.Synopsys
