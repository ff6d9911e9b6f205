import Mathlib.Data.Fintype.Basic
import Mathlib.Tactic.FinCases
import IDeviceEmulator.Library.Cbc
import IDeviceEmulator.Cdma.Scatter

namespace IDeviceEmulator.Cdma

open Memory Cbc

section Programming

variable {δ κ : Type}

def aesSetup (regs : Registers κ) (ch : Channel) (value : Word) : Registers κ :=
  let regs := { regs with dmaAesSetup := Function.update regs.dmaAesSetup ch value }
  if value >>> 20 &&& 1 ≠ 0 then
    { regs with
      keyType := .custom
      keyLen :=
        match (value >>> 18 &&& 2).toNat with
        | 2 => 256
        | 1 => 192
        | 0 => 128
        | _ => 128 }
  else if value >>> 21 &&& 1 ≠ 0 then { regs with keyType := .gid, keyLen := 256 }
  else { regs with keyType := .uid, keyLen := 256 }

/-- `s5l8930_cdma_aes_write`. -/
def aesWrite (regs : Registers κ) (addr : BitVec 16) (value : Word) : Registers κ :=
  let reg := (addr &&& 0xff).toNat
  if reg = 0 then aesSetup regs (channelOf addr) value
  else if 0x10 ≤ reg ∧ reg ≤ 0x1c then
    { regs with ivec := regs.ivec.set ((reg - 0x10) / 4) (value.setWidth 8) }
  else if 0x20 ≤ reg ∧ reg ≤ 0x3c then
    { regs with custkey := regs.custkey.setIfInBounds ((reg - 0x20) / 4) value }
  else regs

/-- The guest's accesses before a start: segment pointers, the registers of the AES block, and
stores to its memory. -/
inductive Program
  | segment (ch : Channel) (ptr : Word)
  | key (ch : Channel) (i : Fin 8) (value : Word)
  | iv (ch : Channel) (i : Fin 4) (value : Word)
  | setup (ch : Channel) (value : Word)
  | memory (mem : Mem 32)

def aesAddr (ch : Channel) (reg : Nat) : BitVec 16 := BitVec.ofNat 16 (4096 * ch + reg)

def Program.apply (w : System δ κ) : Program → System δ κ
  | segment ch ptr => writeSegptr w ch ptr
  | key ch i value => { w with regs := aesWrite w.regs (aesAddr ch (0x20 + 4 * i)) value }
  | iv ch i value => { w with regs := aesWrite w.regs (aesAddr ch (0x10 + 4 * i)) value }
  | setup ch value => { w with regs := aesWrite w.regs (aesAddr ch 0) value }
  | memory mem => { w with mem }

def Program.run (w : System δ κ) (ops : List Program) : System δ κ := ops.foldl Program.apply w

/-- The words last written to the registers of the AES block. -/
structure Programmed where
  key : Fin 8 → Option Word := fun _ ↦ none
  iv : Fin 4 → Option Word := fun _ ↦ none
  setup : Option Word := none

def Program.note (p : Programmed) : Program → Programmed
  | key _ i value => { p with key := Function.update p.key i (some value) }
  | iv _ i value => { p with iv := Function.update p.iv i (some value) }
  | setup _ value => { p with setup := some value }
  | _ => p

def Program.noted (ops : List Program) : Programmed := ops.foldl Program.note {}

theorem aesAddr_key (ch : Channel) (i : Fin 8) : (aesAddr ch (0x20 + 4 * i) &&& 0xff).toNat = 0x20 + 4 * i := by
  revert ch i
  decide

theorem aesAddr_iv (ch : Channel) (i : Fin 4) : (aesAddr ch (0x10 + 4 * i) &&& 0xff).toNat = 0x10 + 4 * i := by
  revert ch i
  decide

theorem aesAddr_setup (ch : Channel) : (aesAddr ch 0 &&& 0xff).toNat = 0 ∧ channelOf (aesAddr ch 0) = ch := by
  revert ch
  decide

theorem apply_key (w : System δ κ) (ch : Channel) (i : Fin 8) (value : Word) :
    (Program.key ch i value).apply w =
      { w with regs := { w.regs with custkey := w.regs.custkey.setIfInBounds i value } } := by
  have hi := i.isLt
  simp only [Program.apply, aesWrite, aesAddr_key]
  rw [if_neg (by omega), if_neg (by omega), if_pos (by omega)]
  congr 4
  omega

theorem apply_iv (w : System δ κ) (ch : Channel) (i : Fin 4) (value : Word) :
    (Program.iv ch i value).apply w =
      { w with regs := { w.regs with ivec := w.regs.ivec.set i (value.setWidth 8) } } := by
  have hi := i.isLt
  simp only [Program.apply, aesWrite, aesAddr_iv]
  rw [if_neg (by omega), if_pos (by omega)]
  congr 4
  omega

theorem apply_setup (w : System δ κ) (ch : Channel) (value : Word) :
    (Program.setup ch value).apply w = { w with regs := aesSetup w.regs ch value } := by
  obtain ⟨hreg, hch⟩ := aesAddr_setup ch
  simp only [Program.apply, aesWrite, hreg, hch, if_true]

/-- The key length that the setup register leaves behind for a custom key. -/
def setupLen (setup : Word) : Word := if setup >>> 18 &&& 2 = 2 then 256 else 128

theorem aesSetup_custom (regs : Registers κ) (ch : Channel) {value : Word} (hcustom : value >>> 20 &&& 1 ≠ 0) :
    (aesSetup regs ch value).keyType = .custom ∧ (aesSetup regs ch value).keyLen = setupLen value := by
  have hfield := BitVec.and_twoPow (value >>> 18) 1
  rw [aesSetup]
  simp only [hcustom, ne_eq, not_false_eq_true, if_true, true_and]
  rw [setupLen]
  change value >>> 18 &&& 2 = _ at hfield
  rw [hfield]
  by_cases hbit : (value >>> 18).getLsbD 1
  · rw [if_pos hbit]
    rfl
  · rw [if_neg hbit]
    rfl

/-- The registers hold what was noted of the writes. -/
structure Tracks (regs : Registers κ) (p : Programmed) : Prop where
  key : ∀ i value, p.key i = some value → regs.custkey[i] = value
  setup : ∀ value, p.setup = some value → value >>> 20 &&& 1 ≠ 0 →
    regs.keyType = .custom ∧ regs.keyLen = setupLen value

theorem tracks_segment {w : System δ κ} {p : Programmed} (h : Tracks w.regs p) (ch : Channel) (ptr : Word) :
    Tracks (writeSegptr w ch ptr).regs p := by
  unfold writeSegptr
  split_ifs
  · exact h
  · exact ⟨h.key, h.setup⟩
  · exact ⟨h.key, h.setup⟩

theorem tracks_apply {w : System δ κ} {p : Programmed} (h : Tracks w.regs p) (op : Program) :
    Tracks (op.apply w).regs (op.note p) := by
  cases op with
  | segment ch ptr => exact tracks_segment h ch ptr
  | key ch i value =>
    rw [apply_key]
    refine ⟨fun j v hj ↦ ?_, h.setup⟩
    by_cases hij : j = i
    · subst hij
      simp only [Program.note, Function.update_self, Option.some.injEq] at hj
      rw [← hj]
      simp
    · simp only [Program.note, Function.update_of_ne hij] at hj
      have hne : (i : Nat) ≠ j := fun hc ↦ hij (Fin.ext hc.symm)
      rw [← h.key j v hj]
      simp [hne]
  | iv ch i value =>
    rw [apply_iv]
    exact ⟨h.key, h.setup⟩
  | setup ch value =>
    rw [apply_setup]
    refine ⟨fun j v hj ↦ ?_, fun v hv hcustom ↦ ?_⟩
    · rw [← h.key j v hj, aesSetup]
      split_ifs <;> rfl
    · cases hv
      exact aesSetup_custom w.regs ch hcustom
  | memory mem => exact ⟨h.key, h.setup⟩

theorem tracks_run {w : System δ κ} {p : Programmed} (h : Tracks w.regs p) (ops : List Program) :
    Tracks (Program.run w ops).regs (ops.foldl Program.note p) := by
  induction ops generalizing w p with
  | nil => exact h
  | cons op ops ih => exact ih (tracks_apply h op)

theorem tracks_noted (w : System δ κ) (ops : List Program) :
    Tracks (Program.run w ops).regs (Program.noted ops) :=
  tracks_run ⟨by simp, by simp⟩ ops

end Programming

/-- A write that sets `DMA_START` of the AES channel. -/
structure StartsAes (addr : BitVec 16) (value : Word) : Prop where
  register : addr &&& 0xff = 0
  start : value &&& 1 ≠ 0
  channel : channelOf addr = 2

/-- The key material of a transfer with a custom key. Two transfer sizes have a key of their own. -/
def cryptKey (size : Word) (custom : List Byte) : List Byte :=
  if size = 0x5e42c0 then kernKey435 else if size = 0xe9a0 then deviceKey435 else custom

section Start

variable {δ κ : Type} (host : Host δ κ)

def cryptIv (regs : Registers κ) (size : Word) : List Byte :=
  if size = 0x5e42c0 then regs.kernIv435 else if size = 0xe9a0 then regs.deviceIv435 else zeroIv

theorem startAes_mem {w : System δ κ} {src dst : Segment} (hsrc : w.regs.dmaSegment 1 = some src)
    (hdst : w.regs.dmaSegment 2 = some dst) (hcustom : w.regs.keyType = .custom) :
    ∃ v old, startAes host w = .ok v ∧
      v.mem = physWrite w.mem dst.buffer (buffer host dst.size.toNat
        (host.cbcEncrypt (physRead w.mem src.buffer dst.size)
          (host.setDecryptKey (cryptKey dst.size (custkeyBytes w.regs)) w.regs.keyLen old)
          (cryptIv w.regs dst.size) w.regs.aesOperation).1) dst.size := by
  rw [startAes, hsrc, hdst]
  simp only [hcustom, cryptKey, cryptIv]
  split_ifs
  · exact ⟨_, _, rfl, rfl⟩
  · exact ⟨_, _, rfl, rfl⟩
  · exact ⟨_, _, rfl, rfl⟩

theorem write_startAes {addr : BitVec 16} {value : Word} (h : StartsAes addr value) (fuel : Nat) {w : System δ κ}
    {src dst : Segment} (hsrc : w.regs.dmaSegment 1 = some src) (hdst : w.regs.dmaSegment 2 = some dst)
    (hcustom : w.regs.keyType = .custom) :
    ∃ v old, write host fuel w addr value = some (.ok v) ∧
      v.mem = physWrite w.mem dst.buffer (buffer host dst.size.toNat
        (host.cbcEncrypt (physRead w.mem src.buffer dst.size)
          (host.setDecryptKey (cryptKey dst.size (custkeyBytes w.regs)) w.regs.keyLen old)
          (cryptIv w.regs dst.size) w.regs.aesOperation).1) dst.size := by
  have hreg : (addr &&& 0xff).toNat = 0 := by rw [h.register]; rfl
  have hclear : ∃ mstatus irqs, (clearIrq w 2 value).1 = { w with regs := { w.regs with mstatus }, irqs } := by
    unfold clearIrq
    split_ifs
    · exact ⟨_, _, rfl⟩
    · exact ⟨_, _, rfl⟩
  obtain ⟨mstatus, irqs, hclear⟩ := hclear
  have hbegin : write host fuel w addr value =
      some ((startAes host (clearIrq w 2 value).1).map fun w' ↦ setStatus w' 2 (clearIrq w 2 value).2) := by
    rw [write]
    simp only [hreg]
    rw [writeStatus]
    simp only [clearIrq_and_one, h.start, h.channel, ne_eq, not_false_eq_true, if_true]
  have hsrc' : (clearIrq w 2 value).1.regs.dmaSegment 1 = some src := by rw [hclear]; exact hsrc
  have hdst' : (clearIrq w 2 value).1.regs.dmaSegment 2 = some dst := by rw [hclear]; exact hdst
  obtain ⟨v, old, hv, hmem⟩ := startAes_mem host hsrc' hdst' (by rw [hclear]; exact hcustom)
  rw [hclear] at hmem
  refine ⟨setStatus v 2 (clearIrq w 2 value).2, old, ?_, hmem⟩
  rw [hbegin, hv]
  rfl

end Start

/-- The round keys that `AES_set_decrypt_key` leaves in an `AES_KEY`, as bytes. -/
abbrev KeySchedule := List Byte

abbrev Block := Vector Byte 16

abbrev Cipher := List Byte → Equiv.Perm Block

def blocksOf (data : List Byte) : List Block := split 16 0 (data.length / 16) data

/-- A decryption key schedule with `AES_DECRYPT` gives CBC decryption under the cipher. -/
def Implements {δ : Type} (host : Host δ KeySchedule) (c : Cipher) : Prop :=
  ∀ (key : List Byte) (bits : Word) (old : KeySchedule) (input iv : List Byte),
    bits ∈ [128, 192, 256] → bits.toNat / 8 ≤ key.length → 16 ∣ input.length →
    (host.cbcEncrypt input (host.setDecryptKey key bits old) iv 0).1 =
      join (decrypt (c (key.take (bits.toNat / 8))).symm (block 16 0 iv) (blocksOf input))

def keyBits (setup : Word) : Nat :=
  match (setup >>> 18 &&& 3).toNat with
  | 0 => 128
  | 1 => 192
  | _ => 256

def keyOf (setup : Word) (key : Vector Word 8) : List Byte := (key.toList.flatMap wordBytes).take (keyBits setup / 8)

def ivOf (iv : Vector Word 4) : Block := block 16 0 (iv.toList.flatMap wordBytes)

def sourceBytes (mem : Mem 32) (src dst : Segment) : List Byte :=
  (List.range dst.size.toNat).map fun i ↦ mem (src.buffer + BitVec.ofNat 32 i)

/-- The AES-CBC transform in the direction of bit 16 of the setup word. -/
def transform (c : Cipher) (setup : Word) (key : Vector Word 8) (iv : Vector Word 4) (input : List Byte) : List Byte :=
  if setup >>> 16 &&& 1 ≠ 0 then join (encrypt (c (keyOf setup key)) (ivOf iv) (blocksOf input))
  else join (decrypt (c (keyOf setup key)).symm (ivOf iv) (blocksOf input))

section Transform

variable {δ : Type}

/-- The writes program a custom key, an initialisation vector, a setup word, and segments of a
whole number of blocks. -/
structure Programs (w : System δ KeySchedule) (ops : List Program) (key : Vector Word 8) (iv : Vector Word 4)
    (setup : Word) (src dst : Segment) : Prop where
  keyWords : ∀ i : Fin 8, (Program.noted ops).key i = some key[i]
  ivWords : ∀ i : Fin 4, (Program.noted ops).iv i = some iv[i]
  setupWord : (Program.noted ops).setup = some setup
  custom : setup >>> 20 &&& 1 ≠ 0
  keySize : setup >>> 18 &&& 3 ≠ 3
  source : (Program.run w ops).regs.dmaSegment 1 = some src
  target : (Program.run w ops).regs.dmaSegment 2 = some dst
  blocks : 16 ∣ dst.size.toNat

/-- Whatever cipher the AES routines implement, the start replaces the destination segment by the
transform of the source bytes. -/
def Transforms (w : System δ KeySchedule) (addr : BitVec 16) (value : Word) (key : Vector Word 8) (iv : Vector Word 4)
    (setup : Word) (src dst : Segment) : Prop :=
  ∀ (host : Host δ KeySchedule) (c : Cipher), Implements host c → ∀ fuel, ∃ v,
    write host fuel w addr value = some (.ok v) ∧
      v.mem = put w.mem dst.buffer dst.size.toNat fun i ↦
        (transform c setup key iv (sourceBytes w.mem src dst)).getD i 0

/-- The programming that the engine carries out: a decryption that was also selected when the
source segment was loaded, with a 128 or 256 bit key, under the key and the initialisation vector
that the engine has for the transfer size. -/
structure Honoured (regs : Registers KeySchedule) (key : Vector Word 8) (iv : Vector Word 4) (setup : Word)
    (dst : Segment) : Prop where
  direction : setup >>> 16 &&& 1 = 0
  operation : regs.aesOperation = 0
  length : dst.size.msb = false
  keySize : setup >>> 18 &&& 3 ≠ 1
  keyBytes : (cryptKey dst.size (key.toList.flatMap wordBytes)).take (keyBits setup / 8) = keyOf setup key
  ivBlock : block 16 0 (cryptIv regs dst.size) = ivOf iv

theorem length_keyWords (key : Vector Word 8) : (key.toList.flatMap wordBytes).length = 32 := by
  simp [List.length_flatMap, wordBytes]

theorem length_cryptKey (size : Word) (key : Vector Word 8) :
    (cryptKey size (key.toList.flatMap wordBytes)).length = 32 := by
  unfold cryptKey
  split_ifs
  · rfl
  · rfl
  · exact length_keyWords key

theorem setupLen_mem (setup : Word) : setupLen setup ∈ [128, 192, 256] := by
  unfold setupLen
  split_ifs <;> simp

theorem setupLen_toNat {setup : Word} (h3 : setup >>> 18 &&& 3 ≠ 3) :
    (setupLen setup).toNat = if setup >>> 18 &&& 3 = 1 then 128 else keyBits setup := by
  have hand : setup >>> 18 &&& (2 : Word) = (setup >>> 18 &&& 3) &&& 2 := by rw [BitVec.and_assoc]; rfl
  have hle : (setup >>> 18 &&& 3).toNat ≤ 3 := by
    rw [BitVec.toNat_and]
    exact Nat.and_le_right
  rw [setupLen, keyBits, hand]
  generalize setup >>> 18 &&& 3 = field at h3 hle
  have hcases : field = 0 ∨ field = 1 ∨ field = 2 := by bv_omega
  rcases hcases with rfl | rfl | rfl <;> rfl

theorem length_sourceBytes (mem : Mem 32) (src dst : Segment) :
    (sourceBytes mem src dst).length = dst.size.toNat := by
  simp [sourceBytes]

theorem length_join_encrypt (E : Block → Block) (iv : Block) {input : List Byte} (h : 16 ∣ input.length) :
    (join (encrypt E iv (blocksOf input))).length = input.length := by
  rw [length_join, length_encrypt, blocksOf, length_split, Nat.div_mul_cancel h]

theorem length_join_decrypt (D : Block → Block) (iv : Block) {input : List Byte} (h : 16 ∣ input.length) :
    (join (decrypt D iv (blocksOf input))).length = input.length := by
  rw [length_join, length_decrypt, blocksOf, length_split, Nat.div_mul_cancel h]

theorem length_transform (c : Cipher) (setup : Word) (key : Vector Word 8) (iv : Vector Word 4) {input : List Byte}
    (h : 16 ∣ input.length) : (transform c setup key iv input).length = input.length := by
  unfold transform
  split_ifs
  · exact length_join_encrypt _ _ h
  · exact length_join_decrypt _ _ h

theorem buffer_getD (host : Host δ KeySchedule) {n i : Nat} (hi : i < n) {bytes : List Byte} (h : bytes.length = n) :
    buffer host n bytes i = bytes.getD i 0 := by
  have hlt : i < bytes.length := by omega
  rw [buffer, List.getElem?_eq_getElem hlt, List.getD_eq_getElem?_getD, List.getElem?_eq_getElem hlt]
  rfl

variable {w₀ : System δ KeySchedule} {ops : List Program} {key : Vector Word 8} {iv : Vector Word 4} {setup : Word}
  {src dst : Segment} {addr : BitVec 16} {value : Word}

theorem Programs.custkeyBytes (h : Programs w₀ ops key iv setup src dst) :
    custkeyBytes (Program.run w₀ ops).regs = key.toList.flatMap wordBytes := by
  have hkey : (Program.run w₀ ops).regs.custkey = key := by
    ext1 i hi
    exact (tracks_noted w₀ ops).key ⟨i, hi⟩ _ (h.keyWords ⟨i, hi⟩)
  rw [Cdma.custkeyBytes, hkey]

/-- The key that reaches the cipher. -/
def usedKey (key : Vector Word 8) (setup : Word) (dst : Segment) : List Byte :=
  (cryptKey dst.size (key.toList.flatMap wordBytes)).take ((setupLen setup).toNat / 8)

theorem Programs.start (h : Programs w₀ ops key iv setup src dst) (hstart : StartsAes addr value)
    (host : Host δ KeySchedule) (fuel : Nat) :
    ∃ v old, write host fuel (Program.run w₀ ops) addr value = some (.ok v) ∧
      v.mem = physWrite (Program.run w₀ ops).mem dst.buffer (buffer host dst.size.toNat
        (host.cbcEncrypt (physRead (Program.run w₀ ops).mem src.buffer dst.size)
          (host.setDecryptKey (cryptKey dst.size (key.toList.flatMap wordBytes)) (setupLen setup) old)
          (cryptIv (Program.run w₀ ops).regs dst.size) (Program.run w₀ ops).regs.aesOperation).1) dst.size := by
  obtain ⟨htype, hlen⟩ := (tracks_noted w₀ ops).setup setup h.setupWord h.custom
  obtain ⟨v, old, hv, hmem⟩ := write_startAes host hstart fuel h.source h.target htype
  rw [h.custkeyBytes, hlen] at hmem
  exact ⟨v, old, hv, hmem⟩

theorem Programs.input_dvd (h : Programs w₀ ops key iv setup src dst) (mem : Mem 32) :
    16 ∣ (sourceBytes mem src dst).length := by
  rw [length_sourceBytes]
  exact h.blocks

theorem Honoured.usedKey {regs : Registers KeySchedule} (h : Honoured regs key iv setup dst)
    (h3 : setup >>> 18 &&& 3 ≠ 3) : usedKey key setup dst = keyOf setup key := by
  rw [Cdma.usedKey, setupLen_toNat h3, if_neg h.keySize]
  exact h.keyBytes

/-- The bytes that a start with `AES_DECRYPT` computes. -/
def decrypted (c : Cipher) (regs : Registers KeySchedule) (key : Vector Word 8) (setup : Word) (dst : Segment)
    (input : List Byte) : List Byte :=
  join (decrypt (c (usedKey key setup dst)).symm (block 16 0 (cryptIv regs dst.size)) (blocksOf input))

theorem length_decrypted (c : Cipher) (regs : Registers KeySchedule) (key : Vector Word 8) (setup : Word)
    (dst : Segment) {input : List Byte} (h : 16 ∣ input.length) :
    (decrypted c regs key setup dst input).length = input.length :=
  length_join_decrypt _ _ h

theorem physRead_eq (mem : Mem 32) (src dst : Segment) (h : dst.size.msb = false) :
    physRead mem src.buffer dst.size = sourceBytes mem src dst := by
  rw [physRead, h, sourceBytes]
  rfl

theorem setupLen_le_cryptKey (key : Vector Word 8) (setup size : Word) :
    (setupLen setup).toNat / 8 ≤ (cryptKey size (key.toList.flatMap wordBytes)).length := by
  rw [length_cryptKey, setupLen]
  split_ifs <;> decide

theorem Programs.start_decrypts (h : Programs w₀ ops key iv setup src dst) (hstart : StartsAes addr value)
    {host : Host δ KeySchedule} {c : Cipher} (himpl : Implements host c) (fuel : Nat)
    (hop : (Program.run w₀ ops).regs.aesOperation = 0) (hsize : dst.size.msb = false) :
    ∃ v, write host fuel (Program.run w₀ ops) addr value = some (.ok v) ∧
      v.mem = put (Program.run w₀ ops).mem dst.buffer dst.size.toNat fun i ↦
        (decrypted c (Program.run w₀ ops).regs key setup dst
          (sourceBytes (Program.run w₀ ops).mem src dst)).getD i 0 := by
  obtain ⟨v, old, hv, hmem⟩ := h.start hstart host fuel
  have hdvd := h.input_dvd (Program.run w₀ ops).mem
  have hlen := length_decrypted c (Program.run w₀ ops).regs key setup dst hdvd
  rw [length_sourceBytes] at hlen
  have hkey := setupLen_le_cryptKey key setup dst.size
  rw [hop, physRead_eq _ src dst hsize, himpl _ _ _ _ _ (setupLen_mem setup) hkey hdvd, physWrite, hsize] at hmem
  refine ⟨v, hv, hmem.trans (put_congr _ fun i hi ↦ ?_)⟩
  exact buffer_getD host hi hlen

theorem transforms_of_honoured (h : Programs w₀ ops key iv setup src dst) (hstart : StartsAes addr value)
    (hok : Honoured (Program.run w₀ ops).regs key iv setup dst) :
    Transforms (Program.run w₀ ops) addr value key iv setup src dst := by
  intro host c himpl fuel
  obtain ⟨v, hv, hmem⟩ := h.start_decrypts hstart himpl fuel hok.operation hok.length
  have hdirection : ¬ (setup >>> 16 &&& 1 ≠ 0) := not_not.mpr hok.direction
  rw [decrypted, hok.usedKey h.keySize, hok.ivBlock] at hmem
  refine ⟨v, hv, ?_⟩
  rw [transform, if_neg hdirection]
  exact hmem

theorem transforms_of_empty (h : Programs w₀ ops key iv setup src dst) (hstart : StartsAes addr value)
    (hempty : dst.size = 0) : Transforms (Program.run w₀ ops) addr value key iv setup src dst := by
  intro host c himpl fuel
  obtain ⟨v, old, hv, hmem⟩ := h.start hstart host fuel
  have hsize : dst.size.msb = false := by rw [hempty]; rfl
  rw [physWrite, hsize] at hmem
  refine ⟨v, hv, hmem.trans (put_congr _ fun i hi ↦ ?_)⟩
  rw [hempty] at hi
  exact absurd hi (Nat.not_lt_zero i)

/-- AES routines over a given cipher. Encrypting with a decryption key schedule gives a fixed byte. -/
def cipherHost (c : Cipher) (junk : Byte) : Host δ KeySchedule where
  fifo _ d := (0, d)
  setDecryptKey key bits _ := key.take (bits.toNat / 8)
  cbcEncrypt input key iv operation :=
    (if operation = 0 then join (decrypt (c key).symm (block 16 0 iv) (blocksOf input))
      else List.replicate input.length junk, iv)
  heap _ := 0

theorem implements_cipherHost (c : Cipher) (junk : Byte) : Implements (cipherHost c junk : Host δ KeySchedule) c :=
  fun _ _ _ _ _ _ _ _ ↦ rfl

theorem cipherHost_crypt (c : Cipher) (junk : Byte) (regs : Registers KeySchedule) (key : Vector Word 8) (setup : Word)
    (dst : Segment) (old : KeySchedule) (input : List Byte) :
    ((cipherHost c junk : Host δ KeySchedule).cbcEncrypt input
      ((cipherHost c junk : Host δ KeySchedule).setDecryptKey (cryptKey dst.size (key.toList.flatMap wordBytes))
        (setupLen setup) old) (cryptIv regs dst.size) regs.aesOperation).1 =
      if regs.aesOperation = 0 then decrypted c regs key setup dst input else List.replicate input.length junk := rfl

theorem getD_ext {xs ys : List Byte} {n : Nat} (hx : xs.length = n) (hy : ys.length = n)
    (h : ∀ i < n, xs.getD i 0 = ys.getD i 0) : xs = ys := by
  refine List.ext_getElem (hx.trans hy.symm) fun i hi hi' ↦ ?_
  have hget := h i (by omega)
  rw [List.getD_eq_getElem?_getD, List.getD_eq_getElem?_getD] at hget
  rwa [List.getElem?_eq_getElem hi, List.getElem?_eq_getElem hi'] at hget

theorem blocksOf_cons {data : List Byte} (hdvd : 16 ∣ data.length) (hne : data.length ≠ 0) :
    ∃ x rest, blocksOf data = x :: rest := by
  obtain ⟨m, hm⟩ : ∃ m, data.length / 16 = m + 1 := Nat.exists_eq_succ_of_ne_zero (by omega)
  rw [blocksOf, hm]
  exact ⟨_, _, rfl⟩

theorem exists_ne_block (x : Block) : ∃ z, z ≠ x := ⟨_, bump_symm_ne (by decide) (by decide) x⟩

/-- The first block of a transform. -/
theorem transform_head {c c' : Cipher} {input : List Byte} {x : Block} {rest : List Block}
    (hblocks : blocksOf input = x :: rest)
    (h : transform c setup key iv input = transform c' setup key iv input) :
    if setup >>> 16 &&& 1 ≠ 0 then c (keyOf setup key) (x ^^^ ivOf iv) = c' (keyOf setup key) (x ^^^ ivOf iv)
    else (c (keyOf setup key)).symm x = (c' (keyOf setup key)).symm x := by
  unfold transform at h
  rw [hblocks] at h
  split_ifs at h ⊢ with hdir
  · exact encrypt_head h
  · exact xor_right_cancel (decrypt_head h)

theorem Transforms.size (ht : Transforms (Program.run w₀ ops) addr value key iv setup src dst)
    (h : Programs w₀ ops key iv setup src dst) (hstart : StartsAes addr value) (hne : dst.size ≠ 0) :
    dst.size.msb = false := by
  by_contra hmsb
  rw [Bool.not_eq_false] at hmsb
  let mem := (Program.run w₀ ops).mem
  let input := sourceBytes mem src dst
  have hdvd : 16 ∣ input.length := h.input_dvd mem
  -- Nothing is written, so the transform would not depend on the cipher.
  have hstays (c : Cipher) : mem = put mem dst.buffer dst.size.toNat fun i ↦
      (transform c setup key iv input).getD i 0 := by
    obtain ⟨v, hv, hmem⟩ := ht (cipherHost c 0) c (implements_cipherHost c 0) 0
    obtain ⟨v', old, hv', hmem'⟩ := h.start hstart (cipherHost c 0) 0
    rw [hv] at hv'
    cases hv'
    rw [physWrite, hmsb] at hmem'
    exact hmem'.symm.trans hmem
  have hsame (c c' : Cipher) : transform c setup key iv input = transform c' setup key iv input := by
    have hputs := (hstays c).symm.trans (hstays c')
    have hlen (c : Cipher) : (transform c setup key iv input).length = dst.size.toNat := by
      rw [length_transform c setup key iv hdvd, length_sourceBytes]
    refine getD_ext (hlen c) (hlen c') fun i hi ↦ ?_
    exact put_injective mem (by have := dst.size.isLt; omega) hputs hi
  have hlength : input.length ≠ 0 := by
    rw [length_sourceBytes]
    intro hzero
    exact hne (BitVec.eq_of_toNat_eq hzero)
  obtain ⟨x, rest, hblocks⟩ := blocksOf_cons hdvd hlength
  by_cases hdir : setup >>> 16 &&& 1 ≠ 0
  · obtain ⟨z, hz⟩ := exists_ne_block (x ^^^ ivOf iv)
    have hhead := transform_head hblocks (hsame (fun _ ↦ Equiv.swap (x ^^^ ivOf iv) z) fun _ ↦ Equiv.refl _)
    rw [if_pos hdir, Equiv.swap_apply_left] at hhead
    exact hz hhead
  · obtain ⟨z, hz⟩ := exists_ne_block x
    have hhead := transform_head hblocks (hsame (fun _ ↦ Equiv.swap x z) fun _ ↦ Equiv.refl _)
    rw [if_neg hdir, Equiv.symm_swap, Equiv.swap_apply_left] at hhead
    exact hz hhead

/-- What a start on `cipherHost` writes is the transform. -/
theorem Transforms.output (ht : Transforms (Program.run w₀ ops) addr value key iv setup src dst)
    (h : Programs w₀ ops key iv setup src dst) (hstart : StartsAes addr value) (hsize : dst.size.msb = false)
    (c : Cipher) (junk : Byte) :
    (if (Program.run w₀ ops).regs.aesOperation = 0 then
        decrypted c (Program.run w₀ ops).regs key setup dst (sourceBytes (Program.run w₀ ops).mem src dst)
      else List.replicate dst.size.toNat junk) =
      transform c setup key iv (sourceBytes (Program.run w₀ ops).mem src dst) := by
  have hdvd := h.input_dvd (Program.run w₀ ops).mem
  have hlenT := length_transform c setup key iv hdvd
  have hlenD := length_decrypted c (Program.run w₀ ops).regs key setup dst hdvd
  rw [length_sourceBytes] at hlenT hlenD
  obtain ⟨v, hv, hmem⟩ := ht (cipherHost c junk) c (implements_cipherHost c junk) 0
  obtain ⟨v', old, hv', hmem'⟩ := h.start hstart (cipherHost c junk) 0
  rw [hv] at hv'
  cases hv'
  rw [physWrite, hsize, physRead_eq _ src dst hsize, cipherHost_crypt, length_sourceBytes] at hmem'
  have hputs := hmem'.symm.trans hmem
  have hlen : (if (Program.run w₀ ops).regs.aesOperation = 0 then
        decrypted c (Program.run w₀ ops).regs key setup dst (sourceBytes (Program.run w₀ ops).mem src dst)
      else List.replicate dst.size.toNat junk).length = dst.size.toNat := by
    split_ifs
    · exact hlenD
    · exact List.length_replicate
  refine getD_ext hlen hlenT fun i hi ↦ ?_
  rw [← put_injective _ (by have := dst.size.isLt; omega) hputs hi, ← buffer_getD (cipherHost c junk) hi hlen]

theorem Transforms.operation (ht : Transforms (Program.run w₀ ops) addr value key iv setup src dst)
    (h : Programs w₀ ops key iv setup src dst) (hstart : StartsAes addr value) (hsize : dst.size.msb = false)
    (hne : dst.size ≠ 0) : (Program.run w₀ ops).regs.aesOperation = 0 := by
  by_contra hop
  have houtput (junk : Byte) := ht.output h hstart hsize (fun _ ↦ Equiv.refl _) junk
  have hjunk := (houtput 0).trans (houtput 1).symm
  rw [if_neg hop, if_neg hop] at hjunk
  have hzero : dst.size.toNat ≠ 0 := fun hzero ↦ hne (BitVec.eq_of_toNat_eq hzero)
  have hbytes := (List.replicate_inj.mp hjunk).2.resolve_left hzero
  exact absurd hbytes (by decide)

theorem honoured_of_transforms (ht : Transforms (Program.run w₀ ops) addr value key iv setup src dst)
    (h : Programs w₀ ops key iv setup src dst) (hstart : StartsAes addr value) (hne : dst.size ≠ 0) :
    Honoured (Program.run w₀ ops).regs key iv setup dst := by
  let input := sourceBytes (Program.run w₀ ops).mem src dst
  let used := block 16 0 (cryptIv (Program.run w₀ ops).regs dst.size)
  have hsize := ht.size h hstart hne
  have hop := ht.operation h hstart hsize hne
  have hlength : input.length ≠ 0 := by
    rw [length_sourceBytes]
    intro hzero
    exact hne (BitVec.eq_of_toNat_eq hzero)
  obtain ⟨x, rest, hblocks⟩ := blocksOf_cons (h.input_dvd _) hlength
  have houtput (c : Cipher) := ht.output h hstart hsize c 0
  simp only [if_pos hop, decrypted] at houtput
  rw [hblocks] at houtput
  by_cases hdir : setup >>> 16 &&& 1 ≠ 0
  · have hhead (c : Cipher) : (c (usedKey key setup dst)).symm x ^^^ used = c (keyOf setup key) (x ^^^ ivOf iv) := by
      have hlist := houtput c
      rw [transform, if_pos hdir, hblocks] at hlist
      exact decrypt_encrypt_head hlist
    have hiv : used = ivOf iv := xor_left_cancel (hhead fun _ ↦ Equiv.refl _)
    obtain ⟨σ, hσ⟩ := exists_perm_ne (by decide) (by decide) (ivOf iv)
    have hperm := hhead fun _ ↦ σ
    rw [hiv] at hperm
    exact absurd hperm.symm (hσ x)
  · have hhead (c : Cipher) :
      (c (usedKey key setup dst)).symm x ^^^ used = (c (keyOf setup key)).symm x ^^^ ivOf iv := by
      have hlist := houtput c
      rw [transform, if_neg hdir, hblocks] at hlist
      exact decrypt_head hlist
    have hiv : used = ivOf iv := xor_left_cancel (hhead fun _ ↦ Equiv.refl _)
    have hkey : usedKey key setup dst = keyOf setup key := by
      by_contra hkey
      obtain ⟨z, hz⟩ := exists_ne_block x
      have hswap := hhead (Function.update (fun _ ↦ Equiv.refl _) (usedKey key setup dst) (Equiv.swap x z))
      rw [Function.update_self, Function.update_of_ne (Ne.symm hkey), hiv, Equiv.symm_swap,
        Equiv.swap_apply_left] at hswap
      exact hz (xor_right_cancel hswap)
    have hbits : setup >>> 18 &&& 3 ≠ 1 := by
      intro hfield
      have hlen := congrArg List.length hkey
      rw [usedKey, keyOf, setupLen_toNat h.keySize, if_pos hfield, keyBits, hfield, List.length_take,
        List.length_take, length_cryptKey, length_keyWords] at hlen
      exact absurd hlen (by decide)
    rw [usedKey, setupLen_toNat h.keySize, if_neg hbits] at hkey
    exact ⟨not_not.mp hdir, hop, hsize, hbits, hkey, hiv⟩

theorem start_transforms_iff (h : Programs w₀ ops key iv setup src dst) (hstart : StartsAes addr value) :
    Transforms (Program.run w₀ ops) addr value key iv setup src dst ↔
      dst.size = 0 ∨ Honoured (Program.run w₀ ops).regs key iv setup dst := by
  constructor
  · intro ht
    by_cases hempty : dst.size = 0
    · exact .inl hempty
    · exact .inr (honoured_of_transforms ht h hstart hempty)
  · rintro (hempty | hok)
    · exact transforms_of_empty h hstart hempty
    · exact transforms_of_honoured h hstart hok

end Transform

/-- Two descriptors of one block each, the source's at `0x1000` and the destination's at `0x2000`. -/
def twoDescriptors : Mem 32 := fun a ↦
  if a = 0x100c ∨ a = 0x200c then 16 else if a = 0x1009 then 0x30 else if a = 0x2009 then 0x40 else 0

/-- The writes of a decryption with a 128 bit key of zeros. -/
def decryption (word : Word) : List Program :=
  (List.finRange 8).map (fun i ↦ .key 1 i 0) ++ (List.finRange 4).map (fun i ↦ .iv 1 i word) ++
    [.setup 1 0x100000, .memory twoDescriptors, .segment 1 0x1000, .segment 2 0x2000]

def idle : System Unit KeySchedule := ⟨{ decryptKey := [] }, fun _ ↦ 0, (), []⟩

theorem programs_decryption (word : Word) :
    Programs idle (decryption word) (Vector.replicate 8 0) (Vector.replicate 4 word) 0x100000
      (segmentAt twoDescriptors 0x1000) (segmentAt twoDescriptors 0x2000) := by
  refine ⟨?_, ?_, rfl, by decide, by decide, rfl, rfl, by decide⟩
  · intro i
    fin_cases i <;> rfl
  · intro i
    fin_cases i <;> rfl

theorem startsAes_channel_two : StartsAes 0x2000 1 := ⟨by decide, by decide, by decide⟩

theorem start_transforms_zero_iv :
    Transforms (Program.run idle (decryption 0)) 0x2000 1 (Vector.replicate 8 0) (Vector.replicate 4 0) 0x100000
        (segmentAt twoDescriptors 0x1000) (segmentAt twoDescriptors 0x2000) := by
  refine (start_transforms_iff (programs_decryption 0) startsAes_channel_two).mpr (.inr ?_)
  exact ⟨by decide, rfl, by decide, by decide, by decide, by decide⟩

theorem start_transforms_fails :
    Programs idle (decryption 1) (Vector.replicate 8 0) (Vector.replicate 4 1) 0x100000
        (segmentAt twoDescriptors 0x1000) (segmentAt twoDescriptors 0x2000) ∧
      StartsAes 0x2000 1 ∧
      ¬ Transforms (Program.run idle (decryption 1)) 0x2000 1 (Vector.replicate 8 0) (Vector.replicate 4 1) 0x100000
        (segmentAt twoDescriptors 0x1000) (segmentAt twoDescriptors 0x2000) := by
  refine ⟨programs_decryption 1, startsAes_channel_two, fun ht ↦ ?_⟩
  have hok := honoured_of_transforms ht (programs_decryption 1) startsAes_channel_two (by decide)
  exact absurd hok.ivBlock (by decide)

end IDeviceEmulator.Cdma
