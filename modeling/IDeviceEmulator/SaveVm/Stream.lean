import IDeviceEmulator.SaveVm.File

namespace IDeviceEmulator.SaveVm.Stream

open Machine

/-- The `get_buffer` function of a file that is read. -/
inductive GetBuffer
  | socket
  | stdio
  | file
  | block

/-- Where a chunk is taken from. -/
def GetBuffer.origin (kind : GetBuffer) (position pos : Nat) : Nat :=
  match kind with
  | .socket | .stdio => position
  | .file | .block => pos

/-- What a backend has to deliver, in chunks of any size, and what it returns behind its end. -/
structure Source where
  getBuffer : GetBuffer
  data : Block
  chunk : Nat → Nat
  eof : Nat → Int
  chunk_pos : ∀ k, 0 < chunk k
  eof_nonpos : ∀ k, eof k ≤ 0

/-- The `k`-th call of `get_buffer`. -/
def Source.call (s : Source) (k position pos size : Nat) : Block × Int :=
  let rest := s.data.drop (s.getBuffer.origin position pos)
  let part := rest.take (min (s.chunk k) size)
  if rest.length = 0 then ([], s.eof k) else (part, part.length)

def eagain : Int := 11

/-- A file that is read, with the position of its stream and the number of calls of
`get_buffer`. `buf` are the first `buf_size` bytes of the buffer. -/
structure ReadFile where
  source : Source
  position : Nat
  calls : Nat
  isWrite : Bool
  bufOffset : Nat
  buf : Block
  bufIndex : Nat
  hasError : Bool

namespace ReadFile

def qemuFopenOps (s : Source) : ReadFile := ⟨s, 0, 0, false, 0, [], 0, false⟩

def qemuFillBuffer (f : ReadFile) : Except Fault ReadFile :=
  if f.isWrite then .error .abort
  else
    let (part, len) := f.source.call f.calls f.position f.bufOffset ioBufSize
    let f := { f with calls := f.calls + 1, position := f.source.getBuffer.origin f.position f.bufOffset + part.length }
    if 0 < len then .ok { f with bufIndex := 0, buf := part, bufOffset := f.bufOffset + part.length }
    else if len ≠ -eagain then .ok { f with hasError := true }
    else .ok f

/-- A buffer that is used up is filled. -/
def ready (f : ReadFile) : Except Fault ReadFile :=
  if f.buf.length ≤ f.bufIndex then f.qemuFillBuffer else .ok f

/-- The loop of `qemu_get_buffer`, with the bytes that are copied. -/
def getLoop (f : ReadFile) (size : Nat) : Except Fault (ReadFile × Block) :=
  if size = 0 then .ok (f, [])
  else
    match f.ready with
    | .error e => .error e
    | .ok f =>
      let l := min (f.buf.length - f.bufIndex) size
      if l = 0 then .ok (f, [])
      else (getLoop { f with bufIndex := f.bufIndex + l } (size - l)).map fun (g, rest) ↦
        (g, (f.buf.drop f.bufIndex).take l ++ rest)
termination_by size

def qemuGetBuffer (f : ReadFile) (size : Nat) : Except Fault (ReadFile × Block) :=
  if f.isWrite then .error .abort else f.getLoop size

def qemuPeekByte (f : ReadFile) : Except Fault (ReadFile × UInt8) :=
  if f.isWrite then .error .abort else f.ready.map fun f ↦ (f, f.buf.getD f.bufIndex 0)

def qemuGetByte (f : ReadFile) : Except Fault (ReadFile × UInt8) :=
  if f.isWrite then .error .abort
  else f.ready.map fun f ↦
    if f.buf.length ≤ f.bufIndex then (f, 0)
    else ({ f with bufIndex := f.bufIndex + 1 }, f.buf.getD f.bufIndex 0)

def qemuGetBe16 (f : ReadFile) : Except Fault (ReadFile × UInt32) := do
  let (f, b₁) ← f.qemuGetByte
  let (f, b₀) ← f.qemuGetByte
  return (f, b₁.toUInt32 <<< 8 ||| b₀.toUInt32)

def qemuGetBe32 (f : ReadFile) : Except Fault (ReadFile × UInt32) := do
  let (f, b₃) ← f.qemuGetByte
  let (f, b₂) ← f.qemuGetByte
  let (f, b₁) ← f.qemuGetByte
  let (f, b₀) ← f.qemuGetByte
  return (f, b₃.toUInt32 <<< 24 ||| b₂.toUInt32 <<< 16 ||| b₁.toUInt32 <<< 8 ||| b₀.toUInt32)

def qemuGetBe64 (f : ReadFile) : Except Fault (ReadFile × UInt64) := do
  let (f, high) ← f.qemuGetBe32
  let (f, low) ← f.qemuGetBe32
  return (f, high.toUInt64 <<< 32 ||| low.toUInt64)

def qemuFtell (f : ReadFile) : Int := f.bufOffset - f.buf.length + f.bufIndex

end ReadFile

inductive Get
  | byte
  | be16
  | be32
  | be64
  | buffer (size : Nat)
  | peek
  | tell

inductive Value
  | byte (b : UInt8)
  | be16 (v : UInt32)
  | be32 (v : UInt32)
  | be64 (v : UInt64)
  | buffer (buf : Block)
  | peek (b : UInt8)
  | tell (pos : Int)

def ReadFile.get (f : ReadFile) : Get → Except Fault (ReadFile × Value)
  | .byte => f.qemuGetByte.map fun (f, b) ↦ (f, .byte b)
  | .be16 => f.qemuGetBe16.map fun (f, v) ↦ (f, .be16 v)
  | .be32 => f.qemuGetBe32.map fun (f, v) ↦ (f, .be32 v)
  | .be64 => f.qemuGetBe64.map fun (f, v) ↦ (f, .be64 v)
  | .buffer size => (f.qemuGetBuffer size).map fun (f, buf) ↦ (f, .buffer buf)
  | .peek => f.qemuPeekByte.map fun (f, b) ↦ (f, .peek b)
  | .tell => .ok (f, .tell f.qemuFtell)

section Writing

variable (reply : Nat → Outcome)

def qemuPutBe16 (f : QEMUFile) (v : UInt32) : Except Fault QEMUFile := do
  let f ← f.qemuPutByte reply (v >>> 8).toInt32
  f.qemuPutByte reply v.toInt32

def qemuPutBe32 (f : QEMUFile) (v : UInt32) : Except Fault QEMUFile := do
  let f ← f.qemuPutByte reply (v >>> 24).toInt32
  let f ← f.qemuPutByte reply (v >>> 16).toInt32
  let f ← f.qemuPutByte reply (v >>> 8).toInt32
  f.qemuPutByte reply v.toInt32

def qemuPutBe64 (f : QEMUFile) (v : UInt64) : Except Fault QEMUFile := do
  let f ← qemuPutBe32 reply f (v >>> 32).toUInt32
  qemuPutBe32 reply f v.toUInt32

inductive Put
  | byte (v : Int32)
  | be16 (v : UInt32)
  | be32 (v : UInt32)
  | be64 (v : UInt64)
  | buffer (buf : Block)
  | flush

def put (f : QEMUFile) : Put → Except Fault (QEMUFile × Unit)
  | .byte v => (f.qemuPutByte reply v).map (·, ())
  | .be16 v => (qemuPutBe16 reply f v).map (·, ())
  | .be32 v => (qemuPutBe32 reply f v).map (·, ())
  | .be64 v => (qemuPutBe64 reply f v).map (·, ())
  | .buffer buf => (f.qemuPutBuffer reply buf).map (·, ())
  | .flush => .ok (f.qemuFflush reply, ())

end Writing

/-- The calls below a put. -/
def Put.calls : Put → List Op
  | .byte v => [.putByte v]
  | .be16 v => [.putByte (v >>> 8).toInt32, .putByte v.toInt32]
  | .be32 v => be32Calls v
  | .be64 v => be32Calls (v >>> 32).toUInt32 ++ be32Calls v.toUInt32
  | .buffer buf => [.putBuffer buf]
  | .flush => [.flush]
where
  be32Calls (v : UInt32) : List Op :=
    [.putByte (v >>> 24).toInt32, .putByte (v >>> 16).toInt32, .putByte (v >>> 8).toInt32, .putByte v.toInt32]

def Put.bytes (p : Put) : Block := p.calls.flatMap Op.bytes

/-- What is got back for a put. Nothing is got for a flush. -/
def Put.get? : Put → Option (Get × Value)
  | .byte v => some (.byte, .byte v.toInt8.toUInt8)
  | .be16 v => some (.be16, .be16 v.toUInt16.toUInt32)
  | .be32 v => some (.be32, .be32 v)
  | .be64 v => some (.be64, .be64 v)
  | .buffer buf => some (.buffer buf.length, .buffer buf)
  | .flush => none

/-- A put with the get of the same kind, or what only the reading side does. -/
inductive Item
  | put (p : Put)
  | peek
  | tell

def Item.put? : Item → Option Put
  | .put p => some p
  | _ => none

def Item.get? : Item → Option Get
  | .put p => p.get?.map Prod.fst
  | .peek => some .peek
  | .tell => some .tell

/-- All bytes that the puts of a script make. -/
def bytes (script : List Item) : Block := (script.filterMap Item.put?).flatMap Put.bytes

/-- What the gets return if `o` bytes were read before. -/
def expected (o : Nat) : List Item → List Value
  | [] => []
  | .put p :: script => (p.get?.map Prod.snd).toList ++ expected (o + p.bytes.length) script
  | .peek :: script => .peek ((bytes script).headD 0) :: expected o script
  | .tell :: script => .tell o :: expected o script

section Digits

/-- A number from two of its parts. -/
theorem join {w : Nat} (x : BitVec w) (k n : Nat) :
    ((x >>> k).setWidth n).setWidth w <<< k ||| (x.setWidth k).setWidth w = (x.setWidth (k + n)).setWidth w := by
  ext i hi
  simp only [BitVec.getElem_or, BitVec.getElem_shiftLeft, BitVec.getElem_setWidth, BitVec.getLsbD_setWidth,
    BitVec.getLsbD_ushiftRight]
  by_cases hlow : i < k
  · have hsum : i < k + n := Nat.lt_add_right n hlow
    simp [hlow, hsum]
  · have hhigh : i - k < n ↔ i < k + n := by omega
    have hback : k + (i - k) = i := by omega
    simp [hlow, hhigh, hback]

theorem be16_join (v : UInt32) : (v >>> 8).toUInt8.toUInt32 <<< 8 ||| v.toUInt8.toUInt32 = v.toUInt16.toUInt32 :=
  UInt32.toBitVec_inj.mp (join v.toBitVec 8 8)

theorem be32_join (v : UInt32) : (v >>> 24).toUInt8.toUInt32 <<< 24 ||| (v >>> 16).toUInt8.toUInt32 <<< 16 |||
    (v >>> 8).toUInt8.toUInt32 <<< 8 ||| v.toUInt8.toUInt32 = v := by
  apply UInt32.toBitVec_inj.mp
  have h₁ := join v.toBitVec 8 8
  have h₂ := join v.toBitVec 16 8
  have h₃ := join v.toBitVec 24 8
  rw [← h₁] at h₂
  rw [← h₂, ← BitVec.or_assoc, ← BitVec.or_assoc] at h₃
  exact h₃.trans (by simp)

theorem be64_join (v : UInt64) : (v >>> 32).toUInt32.toUInt64 <<< 32 ||| v.toUInt32.toUInt64 = v := by
  apply UInt64.toBitVec_inj.mp
  have h := join v.toBitVec 32 32
  exact h.trans (by simp)

theorem byte_toInt32 (v : UInt32) : v.toInt32.toInt8.toUInt8 = v.toUInt8 :=
  UInt8.toBitVec_inj.mp (BitVec.signExtend_eq_setWidth_of_le v.toBitVec (by decide))

def be32Bytes (v : UInt32) : Block := [(v >>> 24).toUInt8, (v >>> 16).toUInt8, (v >>> 8).toUInt8, v.toUInt8]

theorem bytes_be16 (v : UInt32) : (Put.be16 v).bytes = [(v >>> 8).toUInt8, v.toUInt8] := by
  simp [Put.bytes, Put.calls, Op.bytes, byte_toInt32]

theorem bytes_be32 (v : UInt32) : (Put.be32 v).bytes = be32Bytes v := by
  simp [Put.bytes, Put.calls, Put.calls.be32Calls, Op.bytes, byte_toInt32, be32Bytes]

theorem bytes_be64 (v : UInt64) :
    (Put.be64 v).bytes = be32Bytes (v >>> 32).toUInt32 ++ be32Bytes v.toUInt32 := by
  simp [Put.bytes, Put.calls, Put.calls.be32Calls, Op.bytes, byte_toInt32, be32Bytes]

theorem bytes_buffer (buf : Block) : (Put.buffer buf).bytes = buf := by
  simp [Put.bytes, Put.calls, Op.bytes]

end Digits

namespace ReadFile

variable {f g h : ReadFile} {o : Nat} {b : UInt8} {rest : Block}

/-- A file after `o` bytes were read, when the bytes `rest` are still to be read. -/
structure At (f : ReadFile) (o : Nat) (rest : Block) : Prop where
  isWrite : f.isWrite = false
  bufIndex : f.bufIndex ≤ f.buf.length
  bufOffset : f.bufOffset + f.bufIndex = o + f.buf.length
  position : f.position = f.bufOffset
  rest : f.buf.drop f.bufIndex ++ f.source.data.drop f.bufOffset = rest

theorem at_qemuFopenOps (s : Source) : (qemuFopenOps s).At 0 s.data :=
  ⟨rfl, Nat.le_refl _, rfl, rfl, by simp [qemuFopenOps]⟩

theorem At.origin (hat : f.At o rest) : f.source.getBuffer.origin f.position f.bufOffset = f.bufOffset := by
  cases f.source.getBuffer with
  | socket => exact hat.position
  | stdio => exact hat.position
  | file => rfl
  | block => rfl

/-- A buffer that is used up is replaced by the next chunk, if there is one. -/
theorem At.fill (hat : f.At o rest) (hused : f.buf.length ≤ f.bufIndex) :
    ∃ g, f.qemuFillBuffer = .ok g ∧ g.At o rest ∧ (rest ≠ [] → g.bufIndex < g.buf.length) := by
  have hindex := hat.bufIndex
  have hoffset := hat.bufOffset
  have hdata : f.source.data.drop f.bufOffset = rest := by
    rw [← hat.rest, List.drop_of_length_le hused, List.nil_append]
  unfold qemuFillBuffer Source.call
  simp only [hat.origin, hdata]
  rw [hat.isWrite, if_neg Bool.false_ne_true]
  by_cases hrest : rest.length = 0
  · have heof := Int.not_lt.mpr (f.source.eof_nonpos f.calls)
    have hnil : rest = [] := List.length_eq_zero_iff.mp hrest
    simp only [if_pos hrest, if_neg heof, List.length_nil, Nat.add_zero]
    split
    · exact ⟨_, rfl, ⟨rfl, hindex, hoffset, rfl, hat.rest⟩, fun h ↦ absurd hnil h⟩
    · exact ⟨_, rfl, ⟨rfl, hindex, hoffset, rfl, hat.rest⟩, fun h ↦ absurd hnil h⟩
  · have hchunk := f.source.chunk_pos f.calls
    generalize hl : min (f.source.chunk f.calls) ioBufSize = l
    have hsize : 0 < ioBufSize := by decide
    have hpart : 0 < (rest.take l).length := by
      rw [List.length_take]
      omega
    have hlen : (0 : Int) < (rest.take l).length := by omega
    simp only [if_neg hrest, if_pos hlen]
    refine ⟨_, rfl, ⟨rfl, Nat.zero_le _, ?_, rfl, ?_⟩, fun _ ↦ hpart⟩
    · dsimp only
      omega
    · dsimp only
      rw [List.drop_zero, ← List.drop_drop, hdata]
      conv_rhs => rw [← List.take_append_drop l rest]
      rw [List.length_take]
      congr 1
      rcases Nat.le_total l rest.length with hle | hle
      · rw [Nat.min_eq_left hle]
      · rw [Nat.min_eq_right hle, List.drop_length, List.drop_of_length_le hle]

theorem At.ready (hat : f.At o rest) :
    ∃ g, f.ready = .ok g ∧ g.At o rest ∧ (rest ≠ [] → g.bufIndex < g.buf.length) := by
  unfold ReadFile.ready
  split
  · exact hat.fill ‹_›
  · exact ⟨f, rfl, hat, fun _ ↦ Nat.lt_of_not_le ‹_›⟩

theorem At.headD (hat : f.At o rest) (hready : rest ≠ [] → f.bufIndex < f.buf.length) :
    f.buf.getD f.bufIndex 0 = rest.headD 0 := by
  by_cases hlt : f.bufIndex < f.buf.length
  · rw [← hat.rest, List.drop_eq_getElem_cons hlt, List.getD_eq_getElem?_getD, List.getElem?_eq_getElem hlt]
    rfl
  · have hnil : rest = [] := by
      by_contra hne
      exact hlt (hready hne)
    rw [hnil, List.getD_eq_getElem?_getD, List.getElem?_eq_none (Nat.le_of_not_lt hlt)]
    rfl

/-- Bytes of the buffer are read. -/
theorem At.advance (hat : f.At o rest) {l : Nat} (hl : f.bufIndex + l ≤ f.buf.length) :
    At { f with bufIndex := f.bufIndex + l } (o + l) (rest.drop l) := by
  have hoffset := hat.bufOffset
  refine ⟨hat.isWrite, hl, ?_, hat.position, ?_⟩
  · dsimp only
    omega
  · dsimp only
    rw [← hat.rest, List.drop_append_of_le_length (by rw [List.length_drop]; omega), List.drop_drop]

theorem At.take (hat : f.At o rest) {l : Nat} (hl : f.bufIndex + l ≤ f.buf.length) :
    (f.buf.drop f.bufIndex).take l = rest.take l := by
  rw [← hat.rest, List.take_append_of_le_length (by rw [List.length_drop]; omega)]

theorem At.qemuPeekByte (hat : f.At o rest) : ∃ g, f.qemuPeekByte = .ok (g, rest.headD 0) ∧ g.At o rest := by
  obtain ⟨g, hg, hatg, hready⟩ := hat.ready
  refine ⟨g, ?_, hatg⟩
  rw [ReadFile.qemuPeekByte, hat.isWrite, hg, ← hatg.headD hready]
  rfl

theorem At.qemuGetByte (hat : f.At o (b :: rest)) : ∃ g, f.qemuGetByte = .ok (g, b) ∧ g.At (o + 1) rest := by
  obtain ⟨g, hg, hatg, hready⟩ := hat.ready
  have hlt := hready (List.cons_ne_nil b rest)
  refine ⟨_, ?_, hatg.advance hlt⟩
  have hhead := hatg.headD hready
  rw [List.headD_cons] at hhead
  rw [ReadFile.qemuGetByte, hat.isWrite, hg, ← hhead]
  simp only [Except.map, if_neg (Nat.not_le.mpr hlt), Bool.false_eq_true, if_false]

-- The measure is what is still asked for: a turn of the loop reads at least one byte.
theorem At.getLoop (hat : f.At o rest) {size : Nat} (hsize : size ≤ rest.length) :
    ∃ g, f.getLoop size = .ok (g, rest.take size) ∧ g.At (o + size) (rest.drop size) := by
  induction size using Nat.strongRecOn generalizing f o rest with
  | ind size ih =>
    rw [ReadFile.getLoop]
    by_cases hzero : size = 0
    · subst hzero
      exact ⟨f, rfl, hat⟩
    · obtain ⟨g, hg, hatg, hready⟩ := hat.ready
      have hlt : g.bufIndex < g.buf.length := by
        refine hready fun hnil ↦ hzero ?_
        rw [hnil] at hsize
        exact Nat.le_zero.mp hsize
      rw [if_neg hzero]
      generalize hl : min (g.buf.length - g.bufIndex) size = l
      have hbuf : g.bufIndex + l ≤ g.buf.length := by omega
      have hrest : size - l ≤ (rest.drop l).length := by
        rw [List.length_drop]
        omega
      obtain ⟨t, ht, hatt⟩ := ih (size - l) (by omega) (hatg.advance hbuf) hrest
      refine ⟨t, ?_, ?_⟩
      · have hsum : l + (size - l) = size := by omega
        simp only [hg, hl, if_neg (show l ≠ 0 by omega), ht, Except.map, hatg.take hbuf]
        rw [← List.take_add, hsum]
      · rw [List.drop_drop, Nat.add_assoc] at hatt
        rwa [show l + (size - l) = size by omega] at hatt

theorem At.qemuGetBuffer {buf : Block} (hat : f.At o (buf ++ rest)) :
    ∃ g, f.qemuGetBuffer buf.length = .ok (g, buf) ∧ g.At (o + buf.length) rest := by
  have hsize : buf.length ≤ (buf ++ rest).length := by
    rw [List.length_append]
    omega
  obtain ⟨g, hg, hatg⟩ := hat.getLoop hsize
  rw [List.take_left'  rfl] at hg
  rw [List.drop_left' rfl] at hatg
  refine ⟨g, ?_, hatg⟩
  rw [ReadFile.qemuGetBuffer, hat.isWrite]
  exact hg

theorem At.qemuFtell (hat : f.At o rest) : f.qemuFtell = o := by
  have hoffset := hat.bufOffset
  unfold ReadFile.qemuFtell
  omega

theorem At.qemuGetBe16 {v : UInt32} (hat : f.At o ((v >>> 8).toUInt8 :: v.toUInt8 :: rest)) :
    ∃ g, f.qemuGetBe16 = .ok (g, v.toUInt16.toUInt32) ∧ g.At (o + 2) rest := by
  obtain ⟨f₁, h₁, hat₁⟩ := hat.qemuGetByte
  obtain ⟨f₂, h₂, hat₂⟩ := hat₁.qemuGetByte
  refine ⟨f₂, ?_, hat₂⟩
  rw [ReadFile.qemuGetBe16, h₁, ← be16_join v]
  simp only [bind, Except.bind, h₂]
  rfl

theorem At.qemuGetBe32 {v : UInt32} (hat : f.At o (be32Bytes v ++ rest)) :
    ∃ g, f.qemuGetBe32 = .ok (g, v) ∧ g.At (o + 4) rest := by
  obtain ⟨f₁, h₁, hat₁⟩ := hat.qemuGetByte
  obtain ⟨f₂, h₂, hat₂⟩ := hat₁.qemuGetByte
  obtain ⟨f₃, h₃, hat₃⟩ := hat₂.qemuGetByte
  obtain ⟨f₄, h₄, hat₄⟩ := hat₃.qemuGetByte
  refine ⟨f₄, ?_, hat₄⟩
  rw [ReadFile.qemuGetBe32, h₁]
  simp only [bind, Except.bind, h₂, h₃, h₄]
  rw [be32_join]
  rfl

theorem At.qemuGetBe64 {v : UInt64}
    (hat : f.At o (be32Bytes (v >>> 32).toUInt32 ++ (be32Bytes v.toUInt32 ++ rest))) :
    ∃ g, f.qemuGetBe64 = .ok (g, v) ∧ g.At (o + 8) rest := by
  obtain ⟨f₁, h₁, hat₁⟩ := hat.qemuGetBe32
  obtain ⟨f₂, h₂, hat₂⟩ := hat₁.qemuGetBe32
  refine ⟨f₂, ?_, hat₂⟩
  rw [ReadFile.qemuGetBe64, h₁]
  simp only [bind, Except.bind, h₂]
  rw [be64_join]
  rfl

/-- The get for a put reads its bytes. -/
theorem At.get {p : Put} {a : Get × Value} (hp : p.get? = some a) (hat : f.At o (p.bytes ++ rest)) :
    ∃ g, f.get a.1 = .ok (g, a.2) ∧ g.At (o + p.bytes.length) rest := by
  cases p with
  | byte v =>
    cases hp
    obtain ⟨g, hg, hatg⟩ := hat.qemuGetByte
    exact ⟨g, by rw [ReadFile.get, hg]; rfl, hatg⟩
  | be16 v =>
    cases hp
    rw [bytes_be16] at hat
    obtain ⟨g, hg, hatg⟩ := hat.qemuGetBe16
    exact ⟨g, by rw [ReadFile.get, hg]; rfl, hatg⟩
  | be32 v =>
    cases hp
    rw [bytes_be32] at hat
    obtain ⟨g, hg, hatg⟩ := hat.qemuGetBe32
    exact ⟨g, by rw [ReadFile.get, hg]; rfl, hatg⟩
  | be64 v =>
    cases hp
    rw [bytes_be64, List.append_assoc] at hat
    obtain ⟨g, hg, hatg⟩ := hat.qemuGetBe64
    exact ⟨g, by rw [ReadFile.get, hg]; rfl, hatg⟩
  | buffer buf =>
    cases hp
    rw [bytes_buffer] at hat ⊢
    obtain ⟨g, hg, hatg⟩ := hat.qemuGetBuffer
    exact ⟨g, by rw [ReadFile.get, hg]; rfl, hatg⟩
  | flush => cases hp

theorem At.exec {script : List Item} (hat : f.At o (bytes script)) :
    ∃ g, exec ReadFile.get f (script.filterMap Item.get?) = .ok (g, expected o script) := by
  induction script generalizing f o with
  | nil => exact ⟨f, rfl⟩
  | cons item script ih =>
    cases item with
    | put p =>
      cases hp : p.get? with
      | none =>
        obtain rfl : p = .flush := by
          cases p <;> first | rfl | cases hp
        exact ih hat
      | some a =>
        obtain ⟨g, hg, hatg⟩ := hat.get hp
        obtain ⟨t, ht⟩ := ih hatg
        refine ⟨t, ?_⟩
        have hget : Item.get? (.put p) = some a.1 := congrArg (Option.map Prod.fst) hp
        rw [List.filterMap_cons_some hget]
        refine (exec_cons hg ht).trans ?_
        rw [expected, hp]
        rfl
    | peek =>
      obtain ⟨g, hg, hatg⟩ := hat.qemuPeekByte
      obtain ⟨t, ht⟩ := ih hatg
      have hget : f.get .peek = .ok (g, .peek ((bytes script).headD 0)) := by
        rw [ReadFile.get, hg]
        rfl
      exact ⟨t, exec_cons hget ht⟩
    | tell =>
      obtain ⟨t, ht⟩ := ih hat
      have hget : f.get .tell = .ok (f, .tell o) := by
        rw [ReadFile.get, hat.qemuFtell]
      exact ⟨t, exec_cons hget ht⟩

end ReadFile

section Written

variable {reply : Nat → Outcome} {kind : PutBuffer} {f g : QEMUFile} {pending block : Block}

theorem length_pos_of_mem_cut {bytes : Block} (h : block ∈ (cut pending bytes).1) : 0 < block.length := by
  induction bytes generalizing pending with
  | nil => cases h
  | cons b bytes ih =>
    rw [cut] at h
    dsimp only at h
    split at h
    · rcases List.mem_cons.mp h with rfl | hmem
      · rw [List.length_append, List.length_singleton]
        omega
      · exact ih hmem
    · exact ih h

theorem length_pos_of_mem_blocks {ops : List Op} (h : block ∈ blocks pending ops) : 0 < block.length := by
  induction ops generalizing pending with
  | nil => cases h
  | cons op ops ih =>
    rw [QEMUFile.blocks_cons] at h
    rcases List.mem_append.mp h with hadd | hmem
    · cases op with
      | putBuffer buf => exact length_pos_of_mem_cut hadd
      | putByte v => exact length_pos_of_mem_cut hadd
      | flush =>
        rw [QEMUFile.add] at hadd
        split at hadd
        · cases hadd
        · cases List.mem_singleton.mp hadd
          exact Nat.pos_of_ne_zero ‹_›
    · exact ih hmem

/-- No failure is reported for a block that is stored whole. -/
theorem not_reports {o : Outcome} (hblock : 0 < block.length) (h : o.Whole block) : ¬ kind.Reports o := by
  intro hreport
  cases o with
  | fails => exact h
  | stores count =>
    have hzero : count = 0 := by
      cases kind with
      | stdio => exact hreport
      | file => exact hreport
      | block => exact hreport.elim
    have hle : block.length ≤ count := h
    omega

theorem run_putByte {v : Int32} {ops : List Op} (h : Run (QEMUFile.step reply) f (.putByte v :: ops) g) :
    ∃ t, f.qemuPutByte reply v = .ok t ∧ Run (QEMUFile.step reply) t ops g := by
  cases h with
  | cons hs h =>
    obtain ⟨t, ht, heq⟩ := ok_of_map hs
    cases heq
    exact ⟨_, ht, h⟩

theorem run_be32Calls {v : UInt32} {ops : List Op}
    (h : Run (QEMUFile.step reply) f (Put.calls.be32Calls v ++ ops) g) :
    ∃ t, qemuPutBe32 reply f v = .ok t ∧ Run (QEMUFile.step reply) t ops g := by
  obtain ⟨f₁, h₁, h⟩ := run_putByte h
  obtain ⟨f₂, h₂, h⟩ := run_putByte h
  obtain ⟨f₃, h₃, h⟩ := run_putByte h
  obtain ⟨f₄, h₄, h⟩ := run_putByte h
  refine ⟨f₄, ?_, h⟩
  simp only [qemuPutBe32, bind, Except.bind, h₁, h₂, h₃, h₄]

theorem run_put {p : Put} (h : Run (QEMUFile.step reply) f p.calls g) : put reply f p = .ok (g, ()) := by
  cases p with
  | byte v =>
    obtain ⟨f₁, h₁, h⟩ := run_putByte h
    cases h
    rw [put, h₁]
    rfl
  | be16 v =>
    obtain ⟨f₁, h₁, h⟩ := run_putByte h
    obtain ⟨f₂, h₂, h⟩ := run_putByte h
    cases h
    simp only [put, qemuPutBe16, bind, Except.bind, h₁, h₂]
    rfl
  | be32 v =>
    have hrun : Run (QEMUFile.step reply) f (Put.calls.be32Calls v ++ []) g := h
    obtain ⟨f₁, h₁, h⟩ := run_be32Calls hrun
    cases h
    rw [put, h₁]
    rfl
  | be64 v =>
    obtain ⟨f₁, h₁, h⟩ := run_be32Calls h
    have hrun : Run (QEMUFile.step reply) f₁ (Put.calls.be32Calls v.toUInt32 ++ []) g := h
    obtain ⟨f₂, h₂, h⟩ := run_be32Calls hrun
    cases h
    simp only [put, qemuPutBe64, bind, Except.bind, h₁, h₂]
    rfl
  | buffer buf =>
    cases h with
    | cons hs h =>
      cases h
      exact hs
  | flush =>
    cases h with
    | cons hs h =>
      cases h
      exact hs

theorem run_puts {puts : List Put} (h : Run (QEMUFile.step reply) f (puts.flatMap Put.calls) g) :
    Run (put reply) f puts g := by
  induction puts generalizing f with
  | nil =>
    cases h
    exact .nil _
  | cons p puts ih =>
    obtain ⟨t, ht, hg⟩ := h.split
    exact .cons (run_put ht) (ih hg)

end Written

/-- All calls below the puts of a script and a last flush. -/
def calls (script : List Item) : List Op := (script.filterMap Item.put? ++ [Put.flush]).flatMap Put.calls

theorem written (kind : PutBuffer) {reply : Nat → Outcome} {script : List Item}
    (haccept : ∀ i block, (blocks [] (calls script))[i]? = some block → (reply i).Whole block) :
    ∃ f, Run (put reply) (SaveVm.qemuFopenOps kind) (script.filterMap Item.put? ++ [.flush]) f ∧
      f.hasError = false ∧ ∀ p, f.store.bytes p = (bytes script)[p]? := by
  obtain ⟨f, rest, hrun, hafter⟩ := (QEMUFile.clean_qemuFopenOps reply kind).run (by decide) (calls script)
  rw [List.nil_append] at hafter
  rcases hafter with hclean | ⟨-, i, hi, hreport⟩
  · refine ⟨f, run_puts hrun, hclean.hasError, fun p ↦ ?_⟩
    rw [(hclean.holds haccept).bytes]
    have hcalls : calls script = (script.filterMap Item.put?).flatMap Put.calls ++ [Op.flush] := by
      rw [calls, List.flatMap_append]
      rfl
    rw [hcalls, QEMUFile.flatten_blocks, List.nil_append, List.flatMap_assoc]
    rfl
  · have hblock := List.getElem?_eq_getElem hi
    exact absurd hreport (not_reports (length_pos_of_mem_blocks (List.getElem_mem hi)) (haccept i _ hblock))

/-- What was put is got back through any chunks of the bytes that were written. -/
theorem transparent (kind : PutBuffer) (reply : Nat → Outcome) (script : List Item)
    (haccept : ∀ i block, (blocks [] (calls script))[i]? = some block → (reply i).Whole block) :
    ∃ f, Run (put reply) (SaveVm.qemuFopenOps kind) (script.filterMap Item.put? ++ [.flush]) f ∧ f.hasError = false ∧
      ∀ s : Source, (∀ p, s.data[p]? = f.store.bytes p) →
        ∃ g, exec ReadFile.get (ReadFile.qemuFopenOps s) (script.filterMap Item.get?) = .ok (g, expected 0 script) := by
  obtain ⟨f, hrun, herror, hbytes⟩ := written kind haccept
  refine ⟨f, hrun, herror, fun s hdata ↦ ?_⟩
  have hsource : s.data = bytes script := List.ext_getElem? fun p ↦ (hdata p).trans (hbytes p)
  have hat := ReadFile.at_qemuFopenOps s
  rw [hsource] at hat
  exact hat.exec

theorem transparent_be16 : ∃ f,
    Run (put fun _ ↦ .stores ioBufSize) (SaveVm.qemuFopenOps .stdio) [.be16 0x10203, .byte 8, .flush] f ∧
      f.hasError = false ∧ ∀ s : Source, (∀ p, s.data[p]? = f.store.bytes p) →
        ∃ g, exec ReadFile.get (ReadFile.qemuFopenOps s) [.be16, .peek, .byte, .tell] =
          .ok (g, [.be16 0x203, .peek 8, .byte 8, .tell 3]) := by
  refine transparent .stdio (fun _ ↦ .stores ioBufSize) [.put (.be16 0x10203), .peek, .put (.byte 8), .tell] ?_
  have hblocks : blocks [] (calls [.put (.be16 0x10203), .peek, .put (.byte 8), .tell]) = [[2, 3, 8]] := by
    decide +kernel
  rw [hblocks]
  intro i block hi
  obtain rfl := List.mem_singleton.mp (List.mem_of_getElem? hi)
  exact (by decide : 3 ≤ ioBufSize)

end IDeviceEmulator.SaveVm.Stream
