import IDeviceEmulator.Library.Memory
import IDeviceEmulator.TcpUsb.Endpoint

namespace IDeviceEmulator.Synopsys

open Memory (Mem put)
open TcpUsb

abbrev Word := BitVec 32

scoped instance neZeroFifos : NeZero 16 := ⟨by decide⟩

/-- `synopsys_usb_ep_state`. -/
structure EpState where
  control : Word := 0
  txSize : Word := 0
  fifo : Word := 0
  interruptStatus : Word := 0
  dmaAddress : Word := 0
  dmaBuffer : Word := 0
deriving DecidableEq

inductive Direction
  | dirIn
  | dirOut
deriving DecidableEq

def numEndpoints : Nat := 8

def fifosSize : Nat := 0x1100

/-- `synopsys_usb_state`: the registers, `in_eps` and `out_eps` as one family, the FIFO memory,
the level of the interrupt line, and the guest memory that the transfers read and write. -/
structure Device where
  serverHost : Bool
  pcgcctl : Word
  gahbcfg : Word
  gusbcfg : Word
  grxfsiz : Word
  gnptxfsiz : Word
  gotgctl : Word
  gotgint : Word
  grstctl : Word
  gintmsk : Word
  gintsts : Word
  dptxfsiz : Fin 16 → Word
  dctl : Word
  dcfg : Word
  daintmsk : Word
  daintsts : Word
  diepmsk : Word
  doepmsk : Word
  eps : Direction → Fin numEndpoints → EpState
  fifos : Nat → Byte
  irq : Bool
  mem : Mem 32

/-- `hw_error` ends the emulator. The other faults are accesses outside an object. -/
inductive Fault
  | hwError
  | endpointRange
  | fifoRange
  | peerRange
deriving DecidableEq

def bit (k : Nat) : Word := BitVec.twoPow 32 k

def gintmskOtg : Word := bit 2

def gintmskGinNakEff : Word := bit 6

def gintmskGoutNakEff : Word := bit 7

def gintmskReset : Word := bit 12

def gintmskEnumDone : Word := bit 13

namespace Direction

/-- `DAINT_IN_SHIFT` and `DAINT_OUT_SHIFT`. -/
def shift : Direction → Nat
  | .dirIn => 0
  | .dirOut => 16

/-- The places of `GINTMSK_INEP` and `GINTMSK_OEP`. -/
def flag : Direction → Nat
  | .dirIn => 18
  | .dirOut => 19

end Direction

section Interrupts

variable (s : Device)

def mask : Direction → Word
  | .dirIn => s.diepmsk
  | .dirOut => s.doepmsk

def Pending (dir : Direction) (i : Fin numEndpoints) : Prop := (s.eps dir i).interruptStatus &&& mask s dir ≠ 0

instance (dir : Direction) : DecidablePred (Pending s dir) := fun _ ↦ inferInstanceAs (Decidable (_ ≠ _))

/-- The two registers that a turn of the loop in `synopsys_usb_update_irq` adds to. -/
structure Summary where
  daintsts : Word
  gintsts : Word

def raise (dir : Direction) (sum : Summary) (i : Fin numEndpoints) : Summary :=
  if Pending s dir i then
    { daintsts := sum.daintsts ||| bit (dir.shift + i)
      gintsts := if s.daintmsk &&& bit (dir.shift + i) ≠ 0 then sum.gintsts ||| bit dir.flag else sum.gintsts }
  else sum

def summarise (sum : Summary) : Summary :=
  (List.finRange numEndpoints).foldl (fun sum i ↦ raise s .dirIn (raise s .dirOut sum i) i) sum

/-- `synopsys_usb_update_irq`. -/
def updateIrq : Device :=
  let gintsts := s.gintsts &&& ~~~(bit Direction.dirOut.flag ||| bit Direction.dirIn.flag ||| gintmskOtg)
  let gintsts := if s.gotgint ≠ 0 then gintsts ||| gintmskOtg else gintsts
  let sum := summarise s ⟨0, gintsts⟩
  { s with
    daintsts := sum.daintsts
    gintsts := sum.gintsts
    irq := decide (s.pcgcctl &&& 3 = 0 ∧ s.gintmsk &&& sum.gintsts ≠ 0) }

end Interrupts

def epconEnable : Word := bit 31

def epconDisable : Word := bit 30

def epconSetNak : Word := bit 27

def epconStall : Word := bit 21

def epconNakSts : Word := bit 17

def epintNakEff : Word := 0x40

def epintSetUp : Word := 0x8

def epintDisabled : Word := 0x2

def epintXferCompl : Word := 0x1

def xferSizMask : Word := 0x1ffff

/-- `synopsys_usb_update_ep`. -/
def updateEp (e : EpState) : EpState :=
  let e :=
    if e.control &&& epconSetNak ≠ 0 then
      { e with
        control := (e.control ||| epconNakSts) &&& ~~~epconSetNak
        interruptStatus := e.interruptStatus ||| epintNakEff }
    else e
  if e.control &&& epconDisable ≠ 0 then
    { e with
      control := e.control &&& ~~~(epconDisable ||| epconEnable)
      interruptStatus := e.interruptStatus ||| epintDisabled }
  else e

section Registers

variable (s : Device)

def setEp (dir : Direction) (i : Fin numEndpoints) (e : EpState) : Device :=
  { s with eps := Function.update s.eps dir (Function.update (s.eps dir) i e) }

/-- `synopsys_usb_in_ep_write` and `synopsys_usb_out_ep_write`. -/
def epWrite (dir : Direction) (ep addr : Nat) (val : Word) : Except Fault Device :=
  if h : ep < numEndpoints then
    let e := s.eps dir ⟨ep, h⟩
    match addr with
    | 0x00 => .ok (setEp s dir ⟨ep, h⟩ (updateEp { e with control := val }))
    | 0x08 => .ok (updateIrq (setEp s dir ⟨ep, h⟩ { e with interruptStatus := e.interruptStatus &&& ~~~val }))
    | 0x10 => .ok (setEp s dir ⟨ep, h⟩ { e with txSize := val })
    | 0x14 => .ok (setEp s dir ⟨ep, h⟩ { e with dmaAddress := val })
    | 0x1c => .ok (setEp s dir ⟨ep, h⟩ { e with dmaBuffer := val })
    | _ => .error .hwError
  else .error .hwError

/-- The core soft reset. With a server configured it opens a new connection, which may fail. -/
def coreSoftReset (connected : Bool) : Except Fault Device :=
  if s.serverHost ∧ ¬ connected then .error .hwError
  else .ok (updateIrq { s with grstctl := bit 31, gintsts := s.gintsts ||| gintmskReset })

/-- A global NAK request, which takes effect at once. -/
def dctlNak (request : Nat) (effective : Word) (s : Device) (val : Word) : Device × Word :=
  if val &&& bit request ≠ s.dctl &&& bit request ∧ val &&& bit request ≠ 0 then
    ({ s with gintsts := s.gintsts ||| effective }, val &&& ~~~bit request)
  else (s, val)

def dctlWrite (val : Word) : Device :=
  let (s, val) := dctlNak 7 gintmskGinNakEff s val
  let (s, val) := dctlNak 9 gintmskGoutNakEff s val
  updateIrq { s with dctl := val }

/-- The register range goes one past `dptxfsiz`, whose end is followed by `dctl`. -/
def setDptxfsiz (index : Nat) (val : Word) : Device :=
  if h : index < 16 then { s with dptxfsiz := Function.update s.dptxfsiz ⟨index, h⟩ val } else { s with dctl := val }

def setFifoWord (offset : Nat) (val : Word) : Device :=
  { s with fifos := fun i ↦
      if offset ≤ i ∧ i < offset + 4 then val.extractLsb' (8 * (i - offset)) 8 else s.fifos i }

/-- `synopsys_usb_write`. -/
def write (addr : Nat) (val : Word) (connected : Bool) : Except Fault Device :=
  match addr with
  | 0xe00 => .ok (updateIrq { s with pcgcctl := val })
  | 0x0 => .ok { s with gotgctl := val }
  | 0x4 => .ok (updateIrq { s with gotgint := s.gotgint &&& ~~~val })
  | 0x10 =>
    if val &&& 1 ≠ 0 then coreSoftReset s connected
    else if val = 0 then .ok { s with grstctl := val }
    else .ok s
  | 0x18 => .ok (updateIrq { s with gintmsk := val })
  | 0x14 => .ok (updateIrq { s with gintsts := s.gintsts &&& ~~~val })
  | 0x814 => .ok (updateIrq { s with doepmsk := val })
  | 0x810 => .ok (updateIrq { s with diepmsk := val })
  | 0x81c => .ok (updateIrq { s with daintmsk := val })
  | 0x818 => .ok (updateIrq { s with daintsts := s.daintsts &&& ~~~val })
  | 0x8 => .ok { s with gahbcfg := val }
  | 0xc => .ok { s with gusbcfg := val }
  | 0x804 => .ok (dctlWrite s val)
  | 0x800 => .ok { s with dcfg := val }
  | 0x24 => .ok { s with grxfsiz := val }
  | 0x28 => .ok { s with gnptxfsiz := val }
  | addr =>
    if 0x104 ≤ addr ∧ addr ≤ 0x144 then .ok (setDptxfsiz s ((addr - 0x104) >>> 2) val)
    else if 0x900 ≤ addr ∧ addr ≤ 0xafc then epWrite s .dirIn ((addr - 0x900) >>> 5) ((addr - 0x900) &&& 0x1f) val
    else if 0xb00 ≤ addr ∧ addr ≤ 0xcfc then epWrite s .dirOut ((addr - 0xb00) >>> 5) ((addr - 0xb00) &&& 0x1f) val
    else if 0x1000 ≤ addr ∧ addr ≤ 0x20fc then .ok (setFifoWord s (addr - 0x1000) val)
    else .error .hwError

end Registers

section Transfers

/-- `_hdr->length` compared with a `size_t`. -/
def lengthSize (h : Header) : Nat := (h.length.signExtend 64).toNat

def existingEp (ep : Byte) : Except Fault (Fin numEndpoints) :=
  if h : ep.toNat < numEndpoints then .ok ⟨ep.toNat, h⟩ else .error .endpointRange

def existingFifo (fifo : Word) : Except Fault (Fin 16) :=
  if h : fifo.toNat < 16 then .ok ⟨fifo.toNat, h⟩ else .error .hwError

def storeFifos (fifos : Nat → Byte) (start n : Nat) (bytes : Nat → Byte) : Except Fault (Nat → Byte) :=
  if fifosSize < start + n then .error .fifoRange
  else .ok fun i ↦ if start ≤ i ∧ i < start + n then bytes (i - start) else fifos i

def loadFifos (fifos : Nat → Byte) (start n : Nat) : Except Fault (List Byte) :=
  if fifosSize < start + n then .error .fifoRange else .ok ((List.range n).map fun i ↦ fifos (start + i))

def copyToPeer (buffer bytes : List Byte) : Except Fault (List Byte) :=
  if buffer.length < bytes.length then .error .peerRange else .ok (bytes ++ buffer.drop bytes.length)

def copyFromPeer (buffer : List Byte) (n : Nat) : Except Fault (List Byte) :=
  if buffer.length < n then .error .peerRange else .ok (buffer.take n)

def usbRetNak : Int := -2

def usbRetStall : Int := -3

variable (s : Device)

/-- The register behind `synopsys_usb_tx_fifo_start` and `synopsys_usb_tx_fifo_size`. -/
def txFifo (fifo : Fin 16) : Word := if fifo = 0 then s.gnptxfsiz else s.dptxfsiz (fifo - 1)

def txFifoStart (fifo : Fin 16) : Nat := (txFifo s fifo >>> 16).toNat

def txFifoSize (fifo : Fin 16) : Nat := (txFifo s fifo &&& 0xffff).toNat

/-- The endpoint after a transfer of `done` of the `sz` bytes it asked for. -/
def finish (e : EpState) (sz done : Nat) (raised : Word) : EpState :=
  { e with
    control := e.control &&& ~~~epconEnable
    txSize := (e.txSize &&& ~~~xferSizMask) ||| (BitVec.ofNat 32 (sz - done) &&& xferSizMask)
    interruptStatus := e.interruptStatus ||| raised
    dmaAddress := if 0 < done ∧ e.dmaAddress ≠ 0 then e.dmaAddress + BitVec.ofNat 32 done else e.dmaAddress }

def xferSize (e : EpState) : Nat := (e.txSize &&& xferSizMask).toNat

/-- The bytes of an IN transfer come from guest memory if the endpoint has a DMA address. -/
def fillFifo (e : EpState) (start done : Nat) : Except Fault (Nat → Byte) :=
  if 0 < done ∧ e.dmaAddress ≠ 0 then storeFifos s.fifos start done fun k ↦ s.mem (e.dmaAddress + BitVec.ofNat 32 k)
  else .ok s.fifos

def sendToPeer (fifos : Nat → Byte) (start done : Nat) (buffer : List Byte) : Except Fault (List Byte) :=
  if 0 < done then loadFifos fifos start done >>= copyToPeer buffer else .ok buffer

def takeFromPeer (done : Nat) (buffer : List Byte) : Except Fault (Nat → Byte) :=
  if 0 < done then copyFromPeer buffer done >>= fun bytes ↦ storeFifos s.fifos 0 done fun k ↦ bytes.getD k 0
  else .ok s.fifos

/-- What a token does with an endpoint: the device, the return value and the peer's buffer. -/
abbrev Served := Device × Int × List Byte

/-- An IN transfer on an enabled endpoint. -/
def inTransfer (i : Fin numEndpoints) (h : Header) (buffer : List Byte) : Except Fault Served := do
  let e := s.eps .dirIn i
  let fifo ← existingFifo e.fifo
  let done := min (min (xferSize e) (lengthSize h)) (txFifoSize s fifo)
  let start := txFifoStart s fifo
  if fifosSize < start + txFifoSize s fifo then .error .hwError
  else do
    let fifos ← fillFifo s e start done
    let buffer ← sendToPeer fifos start done buffer
    .ok (setEp { s with fifos } .dirIn i (finish e (xferSize e) done epintXferCompl), done, buffer)

/-- An OUT transfer on an enabled endpoint. -/
def outTransfer (i : Fin numEndpoints) (h : Header) (buffer : List Byte) : Except Fault Served := do
  let e := s.eps .dirOut i
  let done := min (min (xferSize e) (lengthSize h)) s.grxfsiz.toNat
  if fifosSize < s.grxfsiz.toNat then .error .hwError
  else do
    let fifos ← takeFromPeer s done buffer
    let mem := if 0 < done ∧ e.dmaAddress ≠ 0 then put s.mem e.dmaAddress done fifos else s.mem
    let raised := if h.flags &&& 1 ≠ 0 then epintSetUp else epintXferCompl
    .ok (setEp { s with fifos, mem } .dirOut i (finish e (xferSize e) done raised), done, buffer)

/-- A stalled endpoint answers once with a stall, a disabled one with NAK. -/
def token (dir : Direction) (i : Fin numEndpoints) (h : Header) (buffer : List Byte) : Except Fault Served :=
  let e := s.eps dir i
  if e.control &&& epconStall ≠ 0 then
    .ok (setEp s dir i { e with control := e.control &&& ~~~epconStall }, usbRetStall, buffer)
  else if e.control &&& epconEnable ≠ 0 then
    match dir with
    | .dirIn => inTransfer s i h buffer
    | .dirOut => outTransfer s i h buffer
  else .ok (s, usbRetNak, buffer)

def directionOf (h : Header) : Direction := if isIn h then .dirIn else .dirOut

/-- `synopsys_usb_tcp_callback`. -/
def tcpCallback (h : Header) (buffer : List Byte) : Except Fault (Reply Device) :=
  let h := { h with addr := ((s.dcfg &&& 0x7f0) >>> 4).setWidth 8 }
  if h.flags &&& 2 ≠ 0 then .ok ⟨0, h, buffer, updateIrq { s with gintsts := s.gintsts ||| gintmskReset }⟩
  else
    let s := if h.flags &&& 4 ≠ 0 then { s with gintsts := s.gintsts ||| gintmskEnumDone } else s
    do
      let i ← existingEp (h.ep &&& 0x7f)
      let (s, ret, buffer) ← token s (directionOf h) i h buffer
      .ok ⟨ret, h, buffer, updateIrq s⟩

end Transfers

/-- `synopsys_usb_initial_reset` of a state that was allocated as zeros. -/
def initialReset (serverHost : Bool) (mem : Mem 32) : Device :=
  updateIrq {
    serverHost, mem
    pcgcctl := 3
    gahbcfg := 0
    gusbcfg := 0
    grxfsiz := 0x100
    gnptxfsiz := 0x1000100
    gotgctl := 0
    gotgint := 0
    grstctl := 0
    gintmsk := 0
    gintsts := 0
    dptxfsiz := fun i ↦ BitVec.ofNat 32 ((0x200 + 0x100 * i) * 2 ^ 16 + 0x100)
    dctl := 0
    dcfg := 0
    daintmsk := 0
    daintsts := 0
    diepmsk := 0
    doepmsk := 0
    eps := fun _ _ ↦ {}
    fifos := fun _ ↦ 0
    irq := false }

end IDeviceEmulator.Synopsys
