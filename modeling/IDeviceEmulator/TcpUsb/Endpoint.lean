import Mathlib.Algebra.GroupWithZero.Nat
import Mathlib.Tactic.Common

namespace IDeviceEmulator.TcpUsb

abbrev Byte := BitVec 8

/-- `tcp_usb_header_t`. -/
structure Header where
  addr : Byte := 0
  ep : Byte := 0
  flags : Byte := 0
  length : BitVec 16 := 0
deriving DecidableEq

def sizeofHeader : Nat := 5

namespace Header

/-- The packed layout, with the length in little-endian order. -/
def bytes (h : Header) : List Byte :=
  [h.addr, h.ep, h.flags, h.length.extractLsb' 0 8, h.length.extractLsb' 8 8]

def ofBytes (b : List Byte) : Header where
  addr := b.getD 0 0
  ep := b.getD 1 0
  flags := b.getD 2 0
  length := b.getD 4 0 ++ b.getD 3 0

end Header

def store (memory : List Byte) (offset : Nat) (bytes : List Byte) : List Byte :=
  memory.take offset ++ bytes ++ memory.drop (offset + bytes.length)

def usbDirIn : Byte := 0x80

def isOut (h : Header) : Bool := h.ep &&& usbDirIn = 0

def isIn (h : Header) : Bool := h.ep &&& usbDirIn ≠ 0

/-- `tcp_usb_state_enum_t`. -/
inductive State
  | idle
  | readRequest
  | writeResponse
  | writeRequest
  | readResponse
deriving DecidableEq

/-- `tcp_usb_state_t` without the socket and the callbacks. -/
structure Endpoint where
  closed : Bool := false
  state : State := .idle
  header : Header := {}
  buffer : List Byte := []
  amountDone : Nat := 0
deriving DecidableEq

namespace Endpoint

def saveHeader (e : Endpoint) (bytes : List Byte) : Endpoint :=
  { e with header := .ofBytes (store e.header.bytes e.amountDone bytes) }

def savePayload (e : Endpoint) (bytes : List Byte) : Endpoint :=
  { e with buffer := store e.buffer (e.amountDone - sizeofHeader) bytes }

end Endpoint

/-- What the kernel does with a non-blocking `read` or `write`. A number of bytes that the
call cannot move counts as `wouldBlock`. -/
inductive Outcome
  | wouldBlock
  | closed
  | moves (n : Nat)
deriving DecidableEq

/-- An endpoint inside `tcp_usb_callback`: the two flags, the bytes that have arrived, the
outgoing stream, and the outcomes of the calls to come. -/
structure Conn extends Endpoint where
  canRead : Bool
  canWrite : Bool
  rx : List Byte
  tx : List Byte
  calls : List Outcome

def ewouldblock : Int := 11

def ebusy : Int := 16

namespace Conn

/-- The return value of a call that can move at most `limit` bytes. -/
def call (c : Conn) (limit : Nat) : Int × Conn :=
  match c.calls with
  | [] => (-1, c)
  | .wouldBlock :: calls => (-1, { c with calls })
  | .closed :: calls => (0, { c with calls })
  | .moves n :: calls => (if n = 0 ∨ limit < n then -1 else n, { c with calls })

def read (c : Conn) (asked : Nat) : Int × List Byte × Conn :=
  let (ret, c) := c.call (min asked c.rx.length)
  (ret, c.rx.take ret.toNat, { c with rx := c.rx.drop ret.toNat })

def write (c : Conn) (bytes : List Byte) : Int × Conn :=
  let (ret, c) := c.call bytes.length
  (ret, { c with tx := c.tx ++ bytes.take ret.toNat })

def doClosed (c : Conn) : Conn := { c with closed := true }

/-- The checks after each call. An error ends the callback. The value of `EWOULDBLOCK` is
compared with the number of bytes moved. -/
def checkReturn (can : Bool) (ret : Int) (c : Conn) : Except Conn Conn :=
  if ret = 0 ∧ can then .error c.doClosed
  else if ret = ewouldblock ∨ ret = 0 ∨ ret = -1 then .error c
  else if ret < 0 then .error c
  else .ok { c with amountDone := c.amountDone + ret.toNat }

def readPart (upTo : Nat) (save : Endpoint → List Byte → Endpoint) (c : Conn) : Except Conn Conn := do
  let (ret, bytes, c) := c.read (upTo - c.amountDone)
  -- `read` has stored its bytes before the return value is looked at.
  let c ← checkReturn c.canRead ret { c with toEndpoint := save c.toEndpoint bytes }
  let c := { c with canRead := false }
  if c.amountDone < upTo then .error c else .ok c

def writePart (upTo : Nat) (bytes : List Byte) (c : Conn) : Except Conn Conn := do
  let (ret, c) := c.write bytes
  let c ← checkReturn c.canWrite ret c
  let c := { c with canWrite := false }
  if c.amountDone < upTo then .error c else .ok c

def readHeader : Conn → Except Conn Conn := readPart sizeofHeader Endpoint.saveHeader

def writeHeader (c : Conn) : Except Conn Conn :=
  writePart sizeofHeader (c.header.bytes.drop c.amountDone) c

def readPayload (c : Conn) : Except Conn Conn :=
  readPart (sizeofHeader + c.header.length.toNat) Endpoint.savePayload c

def writePayload (c : Conn) : Except Conn Conn :=
  writePart (sizeofHeader + c.header.length.toNat)
    ((c.buffer.take c.header.length.toNat).drop (c.amountDone - sizeofHeader)) c

/-- The part that `tcp_usb_read_request` and `tcp_usb_read_response` share. The buffer for
the payload is known once the header is. -/
def receive (carries : Header → Bool) (prepare : Header → List Byte → List Byte) (c : Conn) :
    Except Conn Conn := do
  let c ←
    if c.amountDone < sizeofHeader then do
      let c ← c.readHeader
      .ok { c with buffer := prepare c.header c.buffer }
    else .ok c
  if carries c.header ∧ 0 < c.header.length.toInt then c.readPayload else .ok c

/-- The part that `tcp_usb_write_response` and `tcp_usb_write_request` share. -/
def send (carries : Header → Bool) (c : Conn) : Except Conn Conn := do
  let c ← if c.amountDone < sizeofHeader then c.writeHeader else .ok c
  if carries c.header ∧ 0 < c.header.length.toInt then c.writePayload else .ok c

end Conn

def allocate (h : Header) (_ : List Byte) : List Byte :=
  if 0 < h.length.toInt then List.replicate h.length.toNat 0 else []

def keep (_ : Header) (buffer : List Byte) : List Byte := buffer

/-- What `data_callback` returns, and the header and the buffer as it leaves them. -/
structure Reply (α : Type) where
  ret : Int
  header : Header
  buffer : List Byte
  app : α

/-- `tcp_usb_callback_t`. -/
abbrev Callback (α : Type) := α → Header → List Byte → Reply α

section Callback

variable {α : Type} (dataCallback : Option (Callback α))

def writeResponse (c : Conn) (app : α) : Conn × α :=
  match c.send isIn with
  | .error c => (c, app)
  | .ok c => ({ c with state := .idle }, app)

def readRequest (c : Conn) (app : α) : Conn × α :=
  match c.receive isOut allocate with
  | .error c => (c, app)
  | .ok c =>
    match dataCallback with
    | none => ({ c with state := .idle }, app)
    | some callback =>
      let reply := callback app c.header c.buffer
      let header := { reply.header with length := BitVec.ofInt 16 reply.ret }
      writeResponse { c with state := .writeResponse, amountDone := 0, header, buffer := reply.buffer }
        reply.app

def readResponse (c : Conn) (app : α) : Conn × α :=
  match c.receive isIn keep with
  | .error c => (c, app)
  | .ok c =>
    match dataCallback with
    | none => ({ c with state := .idle }, app)
    | some callback =>
      let reply := callback app c.header c.buffer
      ({ c with state := .idle, header := reply.header, buffer := reply.buffer }, reply.app)

def writeRequest (c : Conn) (app : α) : Conn × α :=
  match c.send isOut with
  | .error c => (c, app)
  | .ok c => readResponse dataCallback { c with state := .readResponse, amountDone := 0 } app

/-- `tcp_usb_callback`. -/
def tcpUsbCallback (c : Conn) (app : α) : Conn × α :=
  if c.closed then (c, app)
  else
    match c.state with
    | .idle =>
      if c.canRead then readRequest dataCallback { c with amountDone := 0, state := .readRequest } app
      else (c, app)
    | .readRequest => readRequest dataCallback c app
    | .writeResponse => writeResponse c app
    | .writeRequest => writeRequest dataCallback c app
    | .readResponse => readResponse dataCallback c app

/-- `tcp_usb_request`. -/
def tcpUsbRequest (header : Header) (data : List Byte) (c : Conn) (app : α) : Int × Conn × α :=
  if c.state ≠ .idle then (-ebusy, c, app)
  else
    let c := { c with
      state := .writeRequest, amountDone := 0, buffer := data, header, canRead := false, canWrite := true }
    (0, tcpUsbCallback dataCallback c app)

end Callback

end IDeviceEmulator.TcpUsb
