import IDeviceEmulator.Library.Loop
import IDeviceEmulator.Library.Memory

namespace IDeviceEmulator.Cdma

open Memory

abbrev Word := BitVec 32

/-- `segmentBuffer`. -/
structure Segment where
  address : Word
  flags : Word
  buffer : Word
  size : Word
  iv : Vector Word 4
deriving DecidableEq

def field (mem : Mem 32) (p : Word) (j : Nat) : Word := word mem (p + BitVec.ofNat 32 (4 * j))

/-- A descriptor as `cpu_physical_memory_read` copies it out of guest memory. -/
def segmentAt (mem : Mem 32) (p : Word) : Segment where
  address := field mem p 0
  flags := field mem p 1
  buffer := field mem p 2
  size := field mem p 3
  iv := #v[field mem p 4, field mem p 5, field mem p 6, field mem p 7]

/-- `cpu_physical_memory_write`, whose length argument is an `int`. -/
def physWrite (mem : Mem 32) (p : Word) (bytes : Nat → Byte) (len : Word) : Mem 32 :=
  if len.msb then mem else put mem p len.toNat bytes

def physRead (mem : Mem 32) (p : Word) (len : Word) : List Byte :=
  if len.msb then List.replicate len.toNat 0
  else (List.range len.toNat).map fun i ↦ mem (p + BitVec.ofNat 32 i)

/-- The register block spans `0xffff` bytes, so a channel number has four bits. -/
abbrev Channel := Fin 16

scoped instance neZeroChannels : NeZero 16 := ⟨by decide⟩

inductive AesKeyType
  | uid
  | gid
  | custom
deriving DecidableEq

/-- `s5l8930_cdma_s`, with the two initialisation vectors of the source file that
`AES_cbc_encrypt` updates in place. -/
structure Registers (κ : Type) where
  size : Channel → Word := fun _ ↦ 0
  segptr : Channel → Word := fun _ ↦ 0
  status : Channel → Word := fun _ ↦ 0
  dmaAesSetup : Channel → Word := fun _ ↦ 0
  config : Channel → Word := fun _ ↦ 0
  creg : Channel → Word := fun _ ↦ 0
  mstatus : Word := 0
  aesOperation : Word := 0
  dmaSegment : Channel → Option Segment := fun _ ↦ none
  decryptKey : κ
  ivec : List Byte := List.replicate 16 0
  custkey : Vector Word 8 := Vector.replicate 8 0
  keyLen : Word := 0
  keyType : AesKeyType := .uid
  kernIv435 : List Byte :=
    [0x80, 0xf4, 0xc7, 0x0d, 0x2a, 0x18, 0xf3, 0xe4, 0x5e, 0xbb, 0xe4, 0x4f, 0x9e, 0x61, 0x21, 0xeb]
  deviceIv435 : List Byte :=
    [0x2a, 0x3c, 0x0a, 0x12, 0xcb, 0xfc, 0xfd, 0xa5, 0x64, 0xd3, 0x38, 0xe0, 0x68, 0xa8, 0xf3, 0xd1]

/-- What the block relies on outside its own source: the FIFO register behind a
channel, the AES routines, and the heap past the end of a bounce buffer. -/
structure Host (δ κ : Type) where
  fifo : Word → δ → Byte × δ
  setDecryptKey : List Byte → Word → κ → κ
  cbcEncrypt : List Byte → κ → List Byte → Word → List Byte × List Byte
  heap : Nat → Byte

structure System (δ κ : Type) where
  regs : Registers κ
  mem : Mem 32
  dev : δ
  irqs : List (Channel × Bool) := []

inductive Fault
  | nullDeref
  | heapOverflow
deriving DecidableEq

variable {δ κ : Type} (host : Host δ κ)

/-- The inner loop of the first walk: `n` one-byte reads of the FIFO register. -/
def readFifo (creg : Word) : Nat → δ → List Byte × δ
  | 0, d => ([], d)
  | n + 1, d =>
    let (b, d) := host.fifo creg d
    let (bs, d) := readFifo creg n d
    (b :: bs, d)

theorem readFifo_length (creg : Word) (n : Nat) (d : δ) : (readFifo host creg n d).1.length = n := by
  induction n generalizing d with
  | zero => rfl
  | succ n ih => simp only [readFifo, List.length_cons, ih]

theorem readFifo_head (creg : Word) {n : Nat} (hn : 0 < n) (d : δ) :
    (readFifo host creg n d).1[0]? = some (host.fifo creg d).1 := by
  cases n with
  | zero => omega
  | succ n => rfl

theorem readFifo_add (creg : Word) (m n : Nat) (d : δ) :
    readFifo host creg (m + n) d =
      ((readFifo host creg m d).1 ++ (readFifo host creg n (readFifo host creg m d).2).1,
        (readFifo host creg n (readFifo host creg m d).2).2) := by
  induction m generalizing d with
  | zero => simp [readFifo]
  | succ m ih =>
    rw [Nat.add_right_comm]
    simp only [readFifo, ih, List.cons_append]

/-- The variables of the first walk. The bytes go to consecutive places of `inBuf`, so the
running total `size` is the number of bytes stored. -/
structure Fetch (δ : Type) where
  nextSeg : Word
  inBuf : List Byte
  dev : δ

def bufferSize (csize : Word) : Nat := (csize + 4).toNat

def fetch (mem : Mem 32) (creg csize : Word) (s : Fetch δ) : Fetch δ ⊕ Except Fault (Fetch δ) :=
  let seg := segmentAt mem s.nextSeg
  let loopEnd (t : Fetch δ) : Fetch δ ⊕ Except Fault (Fetch δ) :=
    if t.nextSeg ≠ 0 ∧ t.inBuf.length < csize.toNat then .inl t else .inr (.ok t)
  if seg.flags &&& 3 ≠ 0 then
    if csize.toNat < s.inBuf.length + seg.size.toNat then .inr (.ok s)
    -- `csize + 4` wraps around, so the buffers can be smaller than the transfer.
    else if bufferSize csize < s.inBuf.length + seg.size.toNat then .inr (.error .heapOverflow)
    else
      let (bytes, dev) := readFifo host creg seg.size.toNat s.dev
      loopEnd ⟨seg.address, s.inBuf ++ bytes, dev⟩
  else loopEnd { s with nextSeg := seg.address }

structure Copy where
  nextSeg : Word
  soffset : Word
  mem : Mem 32

def copyOut (outBuf : Nat → Byte) (s : Copy) : Copy ⊕ Mem 32 :=
  let seg := segmentAt s.mem s.nextSeg
  if seg.flags &&& 2 = 0 then .inr s.mem
  else
    let mem := physWrite s.mem seg.buffer (fun i ↦ outBuf (s.soffset.toNat + i)) seg.size
    if seg.flags &&& 1 ≠ 0 then .inl ⟨seg.address, s.soffset + seg.size, mem⟩ else .inr mem

def buffer (n : Nat) (bytes : List Byte) (i : Nat) : Byte :=
  match bytes[i]? with
  | some b => b
  | none => if i < n then 0 else host.heap i

def bufferZero (bytes : List Byte) : Bool := bytes.all (· = 0)

def wordBytes (x : Word) : List Byte :=
  [x.extractLsb' 0 8, x.extractLsb' 8 8, x.extractLsb' 16 8, x.extractLsb' 24 8]

def keyUid : List Byte :=
  [0x01, 0x23, 0x45, 0x67, 0x89, 0xAB, 0xCD, 0xEF, 0x01, 0x23, 0x45, 0x67, 0x89, 0xAB, 0xCD, 0xEF]

def kernKey435 : List Byte :=
  [0x16, 0x52, 0xc8, 0x59, 0x14, 0x19, 0x0a, 0x2a, 0x99, 0x99, 0x70, 0x42, 0x8a, 0x9e, 0xa0, 0x3e,
    0x7a, 0xbc, 0x6c, 0x2b, 0x36, 0xf9, 0x74, 0xd7, 0x26, 0x75, 0x8e, 0x2b, 0x95, 0x93, 0xcc, 0xdd]

def deviceKey435 : List Byte :=
  [0xc6, 0x99, 0xaf, 0xb2, 0x5b, 0x70, 0x74, 0xe1, 0x55, 0x05, 0x40, 0xc7, 0x15, 0x28, 0xb9, 0xa0,
    0x93, 0x78, 0x95, 0x8b, 0xfd, 0xce, 0x8f, 0xf1, 0x74, 0xa2, 0x88, 0x94, 0x19, 0x35, 0x6f, 0x30]

def zeroIv : List Byte := List.replicate 16 0

def custkeyBytes (regs : Registers κ) : List Byte := regs.custkey.toList.flatMap wordBytes

/-- `do_aes_crypto` with `AES_DECRYPT`. -/
def doAesCrypto (regs : Registers κ) (inBuf : List Byte) : Registers κ × List Byte :=
  let key := host.setDecryptKey (custkeyBytes regs) regs.keyLen regs.decryptKey
  let (outBuf, ivec) := host.cbcEncrypt inBuf key regs.ivec 0
  ({ regs with decryptKey := key, ivec }, outBuf)

/-- `DMA_START` on the AES channel, number 2. -/
def startAes (w : System δ κ) : Except Fault (System δ κ) :=
  match w.regs.dmaSegment 2, w.regs.dmaSegment 1 with
  | some dst, some src =>
    let regs := w.regs
    let key :=
      match regs.keyType with
      | .uid => host.setDecryptKey keyUid 128 regs.decryptKey
      | .gid => regs.decryptKey
      | .custom => host.setDecryptKey (custkeyBytes regs) regs.keyLen regs.decryptKey
    let input := physRead w.mem src.buffer dst.size
    let (regs, output) :=
      if dst.size = 0x5e42c0 then
        let key := host.setDecryptKey kernKey435 regs.keyLen key
        let (output, iv) := host.cbcEncrypt input key regs.kernIv435 regs.aesOperation
        ({ regs with decryptKey := key, kernIv435 := iv }, output)
      else if dst.size = 0xe9a0 then
        let key := host.setDecryptKey deviceKey435 regs.keyLen key
        let (output, iv) := host.cbcEncrypt input key regs.deviceIv435 regs.aesOperation
        ({ regs with decryptKey := key, deviceIv435 := iv }, output)
      else ({ regs with decryptKey := key }, (host.cbcEncrypt input key zeroIv regs.aesOperation).1)
    .ok { w with
      mem := physWrite w.mem dst.buffer (buffer host dst.size.toNat output) dst.size
      regs := { regs with ivec := zeroIv, keyLen := 0, keyType := .uid, aesOperation := 0 } }
  | _, _ => .error .nullDeref

/-- The registers and `outBuf` between the two walks. Without `FLAG_DATA` the bytes are
decrypted, unless they are all zero. -/
def decode (regs : Registers κ) (seg : Segment) (csize : Word) (inBuf : List Byte) :
    Registers κ × (Nat → Byte) :=
  if seg.flags &&& 1 ≠ 0 ∨ bufferZero inBuf then (regs, buffer host (bufferSize csize) inBuf)
  else
    let padded := inBuf ++ List.replicate (csize.toNat - inBuf.length) 0
    let (regs, output) := doAesCrypto host { regs with ivec := seg.iv.toList.flatMap wordBytes } padded
    (regs, buffer host (bufferSize csize) output)

def firstSeg (regs : Registers κ) (ch : Channel) (seg : Segment) : Word :=
  if seg.flags &&& 1 ≠ 0 then regs.segptr ch else seg.address

def channelBit (ch : Channel) : Word := BitVec.twoPow 32 ch

def complete (regs : Registers κ) (ch : Channel) : Registers κ :=
  { regs with
    size := Function.update regs.size ch 0
    status := Function.update regs.status ch (regs.status ch &&& ~~~0xc0000 ||| 0x80000)
    mstatus := regs.mstatus ||| channelBit ch
    ivec := zeroIv }

/-- `DMA_START` on an H2FMI channel. It is `none` while one of the walks has not ended
within `fuel` turns. The write direction only prints a message. -/
def startTransfer (fuel : Nat) (w : System δ κ) (ch : Channel) : Option (Except Fault (System δ κ)) :=
  if w.regs.config ch &&& 2 ≠ 0 then some (.ok w)
  else
    match w.regs.dmaSegment ch with
    | none => some (.error .nullDeref)
    | some seg =>
      let csize := w.regs.size ch
      let first := firstSeg w.regs ch seg
      match Loop.run (fetch host w.mem (w.regs.creg ch) csize) fuel ⟨first, [], w.dev⟩ with
      | none => none
      | some (.error fault) => some (.error fault)
      | some (.ok fetched) =>
        let (regs, outBuf) := decode host w.regs seg csize fetched.inBuf
        match Loop.run (copyOut outBuf) fuel ⟨first, 0, w.mem⟩ with
        | none => none
        | some mem =>
          some (.ok ⟨complete regs ch, mem, fetched.dev, (ch, true) :: w.irqs⟩)

/-- Writing bit 19 of the status register while it is set clears the interrupt. -/
def clearIrq (w : System δ κ) (ch : Channel) (value : Word) : System δ κ × Word :=
  if value &&& 0x80000 ≠ 0 ∧ w.regs.status ch &&& 0x80000 ≠ 0 then
    ({ w with
      regs := { w.regs with mstatus := w.regs.mstatus &&& ~~~channelBit ch }
      irqs := (ch, false) :: w.irqs }, value &&& ~~~0x80000)
  else (w, value)

def setStatus (w : System δ κ) (ch : Channel) (value : Word) : System δ κ :=
  { w with regs := { w.regs with status := Function.update w.regs.status ch value } }

def IsH2fmi (ch : Channel) : Prop := 5 ≤ ch ∧ ch ≤ 8

instance : DecidablePred IsH2fmi := fun _ ↦ inferInstanceAs (Decidable (_ ∧ _))

def writeStatus (fuel : Nat) (w : System δ κ) (ch : Channel) (value : Word) :
    Option (Except Fault (System δ κ)) :=
  let (w, value) := clearIrq w ch value
  if value &&& 1 ≠ 0 then
    if ch = 2 then some ((startAes host w).map fun w ↦ setStatus w ch value)
    else if IsH2fmi ch then startTransfer host fuel w ch
    else some (.ok (setStatus w ch value))
  else some (.ok (setStatus w ch value))

/-- The segment pointer register loads the descriptor it is pointed at. Channel 1 also takes
the AES direction from its setup word. -/
def writeSegptr (w : System δ κ) (ch : Channel) (value : Word) : System δ κ :=
  if value = 0 then w
  else
    { w with
      regs := { w.regs with
        aesOperation := if ch = 1 then (w.regs.dmaAesSetup ch >>> 16) &&& 1 else w.regs.aesOperation
        dmaSegment := Function.update w.regs.dmaSegment ch (some (segmentAt w.mem value))
        segptr := Function.update w.regs.segptr ch value } }

def channelOf (addr : BitVec 16) : Channel := (addr >>> 12).toFin.castLT (by
  have h := addr.isLt
  rw [BitVec.val_toFin, BitVec.toNat_ushiftRight, Nat.shiftRight_eq_div_pow]
  omega)

/-- `s5l8930_cdma_write`. -/
def write (fuel : Nat) (w : System δ κ) (addr : BitVec 16) (value : Word) :
    Option (Except Fault (System δ κ)) :=
  let ch := channelOf addr
  let regs := w.regs
  let done (regs : Registers κ) : Option (Except Fault (System δ κ)) := some (.ok { w with regs })
  match (addr &&& 0xff).toNat with
  | 0x0 => writeStatus host fuel w ch value
  | 0x4 => done { regs with config := Function.update regs.config ch value }
  | 0x8 => done { regs with creg := Function.update regs.creg ch value }
  | 0xc => done { regs with size := Function.update regs.size ch value }
  | 0x10 => done { regs with mstatus := value }
  | 0x14 => some (.ok (writeSegptr w ch value))
  | _ => some (.ok w)

theorem startTransfer_mono {n m : Nat} (hnm : n ≤ m) {w : System δ κ} {ch : Channel}
    {r : Except Fault (System δ κ)} (h : startTransfer host n w ch = some r) :
    startTransfer host m w ch = some r := by
  unfold startTransfer at h ⊢
  split_ifs at h ⊢ with hdir
  · exact h
  · cases hseg : w.regs.dmaSegment ch with
    | none => simpa [hseg] using h
    | some seg =>
      simp only [hseg] at h ⊢
      cases hf : Loop.run (fetch host w.mem (w.regs.creg ch) (w.regs.size ch)) n
          ⟨firstSeg w.regs ch seg, [], w.dev⟩ with
      | none => simp [hf] at h
      | some fetched =>
        rw [hf] at h
        rw [Loop.run_mono hnm hf]
        cases fetched with
        | error fault => exact h
        | ok t =>
          dsimp only at h ⊢
          cases hc : Loop.run (copyOut (decode host w.regs seg (w.regs.size ch) t.inBuf).2) n
              ⟨firstSeg w.regs ch seg, 0, w.mem⟩ with
          | none =>
            rw [hc] at h
            cases h
          | some mem =>
            rw [hc] at h
            rw [Loop.run_mono hnm hc]
            exact h

/-- A write that sets `DMA_START` of an H2FMI channel. -/
structure Starts (addr : BitVec 16) (value : Word) : Prop where
  register : addr &&& 0xff = 0
  start : value &&& 1 ≠ 0
  channel : IsH2fmi (channelOf addr)

theorem clearIrq_and_one (w : System δ κ) (ch : Channel) (value : Word) :
    (clearIrq w ch value).2 &&& 1 = value &&& 1 := by
  unfold clearIrq
  split_ifs
  · dsimp only
    rw [BitVec.and_assoc]
    rfl
  · rfl

theorem regs_clearIrq (w : System δ κ) (ch : Channel) (value : Word) :
    (clearIrq w ch value).1.regs.config = w.regs.config ∧
      (clearIrq w ch value).1.regs.dmaSegment = w.regs.dmaSegment := by
  unfold clearIrq
  split_ifs
  · exact ⟨rfl, rfl⟩
  · exact ⟨rfl, rfl⟩

theorem write_start {addr : BitVec 16} {value : Word} (h : Starts addr value) (fuel : Nat)
    (w : System δ κ) :
    write host fuel w addr value =
      startTransfer host fuel (clearIrq w (channelOf addr) value).1 (channelOf addr) := by
  have hne : channelOf addr ≠ 2 := by
    intro h2
    have hch := h.channel.1
    rw [h2] at hch
    exact absurd hch (by decide)
  have hreg : (addr &&& 0xff).toNat = 0 := by rw [h.register]; rfl
  rw [write]
  simp only [hreg]
  rw [writeStatus]
  simp only [clearIrq_and_one, h.start, ne_eq, not_false_eq_true, if_true, hne, if_false, h.channel]

theorem write_mono {addr : BitVec 16} {value : Word} (h : Starts addr value) {n m : Nat} (hnm : n ≤ m)
    {w : System δ κ} {r : Except Fault (System δ κ)} (hn : write host n w addr value = some r) :
    write host m w addr value = some r := by
  rw [write_start host h] at hn ⊢
  exact startTransfer_mono host hnm hn

end IDeviceEmulator.Cdma
