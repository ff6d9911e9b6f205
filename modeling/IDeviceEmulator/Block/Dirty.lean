import Mathlib.Data.Finset.Card
import IDeviceEmulator.Block.Completion
import IDeviceEmulator.Library.Masks

namespace IDeviceEmulator.Block

open Machine

def eacces : Int := 13

def sectorBits : Int64 := 9

def sectorSize : UInt64 := 512

def sectorsPerDirtyChunk : Int64 := 2048

/-- What stays the same in a run. `length` is what `bdrv_getlength` gives, and
`allowZeroMalloc` belongs to the build. -/
structure Device where
  opened : Bool
  inserted : Bool
  readOnly : Bool
  growable : Bool
  length : Int64
  allowZeroMalloc : Bool

/-- An allocation that is used in words of the host. The words are those that lie inside. -/
structure DirtyBitmap where
  bytes : Nat
  words : List (BitVec 64)
  whole : words.length = bytes / 8

/-- A write given to the driver, and whether its callback is `block_complete_cb`. -/
structure AioWrite where
  sectorNum : Int64
  nbSectors : Int32
  tracked : Bool

/-- What the dirty bits are about. -/
inductive Event
  | switchedOn
  | written (sectorNum nbSectors : Int)
  | reset (sectorNum nbSectors : Int)

/-- The latest event is the first of the history. -/
structure Tracking where
  dirtyBitmap : Option DirtyBitmap
  dirtyCount : Int
  outstanding : List AioWrite
  history : List Event

/-- A call, with what the driver answers to it, and the completion of a write. -/
inductive Request
  | setDirtyTracking (enable : Bool)
  | write (sectorNum : Int64) (nbSectors : Int32) (ret : Int)
  | aioWritev (sectorNum : Int64) (nbSectors : Int32) (acb : Bool)
  | completes (i : Nat)
  | resetDirty (sectorNum : Int64) (nbSectors : Int32)

inductive Answer
  | none
  | ret (n : Int)
  | acb (present : Bool)

inductive Trap
  | abort
  | null
  | outside
  | notOutstanding
  deriving DecidableEq

def Device.bdrvIsInserted (d : Device) : Bool := d.opened && d.inserted

def bdrvCheckByteRequest (d : Device) (offset : Int64) (size : UInt64) : Int :=
  if ¬ d.bdrvIsInserted then -enomedium
  else if d.growable then 0
  else if offset < 0 then -eio
  else if offset > d.length ∨ (d.length - offset).toUInt64 < size then -eio
  else 0

/-- The size of a sector is unsigned, and so are the products. -/
def bdrvCheckRequest (d : Device) (sectorNum : Int64) (nbSectors : Int32) : Int :=
  bdrvCheckByteRequest d (sectorNum.toUInt64 * sectorSize).toInt64 (nbSectors.toInt64.toUInt64 * sectorSize)

namespace DirtyBitmap

def read (b : DirtyBitmap) (idx : Nat) : Except Trap (BitVec 64) :=
  match b.words[idx]? with
  | some val => .ok val
  | none => .error .outside

def write (b : DirtyBitmap) (idx : Nat) (val : BitVec 64) : DirtyBitmap where
  bytes := b.bytes
  words := b.words.set idx val
  whole := List.length_set.trans b.whole

def zeros (bytes : Nat) : DirtyBitmap where
  bytes := bytes
  words := List.replicate (bytes / 8) 0
  whole := List.length_replicate

def bit (b : DirtyBitmap) (chunk : Nat) : Bool := (b.words[chunk / 64]?.getD 0).getLsbD (chunk % 64)

def setBits (b : DirtyBitmap) : Finset Nat := {chunk ∈ Finset.range (64 * b.words.length) | b.bit chunk}

end DirtyBitmap

/-- A turn of the loop of `set_dirty_bitmap`. The number of the word is unsigned. -/
def setDirtyChunk (s : Tracking) (chunk : Int64) (dirty : Bool) : Except Trap Tracking :=
  match s.dirtyBitmap with
  | none => .error .null
  | some b => do
    let idx := (chunk.toUInt64 / 64).toNat
    let mask := 1#64 <<< (chunk.toUInt64 % 64).toNat
    let val ← b.read idx
    if dirty then
      if val &&& mask = 0 then
        .ok { s with dirtyCount := s.dirtyCount + 1, dirtyBitmap := some (b.write idx (val ||| mask)) }
      else .ok { s with dirtyBitmap := some (b.write idx val) }
    else if val &&& mask ≠ 0 then
      .ok { s with dirtyCount := s.dirtyCount - 1, dirtyBitmap := some (b.write idx (val &&& ~~~mask)) }
    else .ok { s with dirtyBitmap := some (b.write idx val) }

def setDirtyChunks (dirty : Bool) : Nat → Tracking → Int64 → Except Trap Tracking
  | 0, s, _ => .ok s
  | n + 1, s, start => do
    let s ← setDirtyChunk s start dirty
    setDirtyChunks dirty n s (start + 1)

def setDirtyBitmap (s : Tracking) (sectorNum : Int64) (nbSectors : Int32) (dirty : Bool) : Except Trap Tracking :=
  let start := sectorNum / sectorsPerDirtyChunk
  let last := (sectorNum + nbSectors.toInt64 - 1) / sectorsPerDirtyChunk
  setDirtyChunks dirty (last.toInt + 1 - start.toInt).toNat s start

def setDirtyIfTracking (s : Tracking) (sectorNum : Int64) (nbSectors : Int32) : Except Trap Tracking :=
  match s.dirtyBitmap with
  | some _ => setDirtyBitmap s sectorNum nbSectors true
  | none => .ok s

def Tracking.record (s : Tracking) (e : Event) : Tracking := { s with history := e :: s.history }

def bdrvWrite (d : Device) (s : Tracking) (sectorNum : Int64) (nbSectors : Int32) (ret : Int) :
    Except Trap (Tracking × Answer) :=
  if ¬ d.opened then .ok (s, .ret (-enomedium))
  else if d.readOnly then .ok (s, .ret (-eacces))
  else if bdrvCheckRequest d sectorNum nbSectors ≠ 0 then .ok (s, .ret (-eio))
  else do
    let s ← setDirtyIfTracking s sectorNum nbSectors
    .ok (s.record (.written sectorNum.toInt nbSectors.toInt), .ret ret)

def bdrvAioWritev (d : Device) (s : Tracking) (sectorNum : Int64) (nbSectors : Int32) (acb : Bool) :
    Except Trap (Tracking × Answer) :=
  if ¬ d.opened ∨ d.readOnly ∨ bdrvCheckRequest d sectorNum nbSectors ≠ 0 then .ok (s, .acb false)
  else if acb then
    .ok ({ s with outstanding := s.outstanding ++ [⟨sectorNum, nbSectors, s.dirtyBitmap.isSome⟩] }, .acb true)
  else .ok (s, .acb false)

def blockCompleteCb (s : Tracking) (w : AioWrite) : Except Trap Tracking :=
  setDirtyIfTracking s w.sectorNum w.nbSectors

def completes (s : Tracking) (i : Nat) : Except Trap (Tracking × Answer) :=
  match s.outstanding[i]? with
  | none => .error .notOutstanding
  | some w => do
    let s := { s with outstanding := s.outstanding.eraseIdx i }
    let s ← if w.tracked then blockCompleteCb s w else .ok s
    .ok (s.record (.written w.sectorNum.toInt w.nbSectors.toInt), .none)

def bitmapSize (length : Int64) : Int64 :=
  ((length >>> sectorBits) + (sectorsPerDirtyChunk * 8 - 1)) / (sectorsPerDirtyChunk * 8)

/-- The size is unsigned, and a negative one is more than there is. -/
def qemuMallocz (d : Device) (size : Int64) : Except Trap DirtyBitmap :=
  if size < 0 ∨ (size = 0 ∧ ¬ d.allowZeroMalloc) then .error .abort
  else .ok (.zeros size.toUInt64.toNat)

def bdrvSetDirtyTracking (d : Device) (s : Tracking) (enable : Bool) : Except Trap Tracking :=
  let s := { s with dirtyCount := 0 }
  if enable then
    match s.dirtyBitmap with
    | none => do
      let b ← qemuMallocz d (bitmapSize d.length)
      .ok { s with dirtyBitmap := some b, history := .switchedOn :: s.history }
    | some _ => .ok s
  else .ok { s with dirtyBitmap := none }

def bdrvGetDirty (d : Device) (s : Tracking) (sector : Int64) : Except Trap Bool :=
  let chunk := sector / sectorsPerDirtyChunk
  match s.dirtyBitmap with
  | none => .ok false
  | some b =>
    if sector <<< sectorBits < d.length then do
      let val ← b.read (chunk.toUInt64 / 64).toNat
      .ok (val &&& 1#64 <<< (chunk.toUInt64 % 64).toNat != 0)
    else .ok false

def bdrvResetDirty (s : Tracking) (curSector : Int64) (nrSectors : Int32) : Except Trap Tracking := do
  let s ← setDirtyBitmap s curSector nrSectors false
  .ok (s.record (.reset curSector.toInt nrSectors.toInt))

def Tracking.step (d : Device) (s : Tracking) : Request → Except Trap (Tracking × Answer)
  | .setDirtyTracking enable => (bdrvSetDirtyTracking d s enable).map fun s ↦ (s, .none)
  | .write sectorNum nbSectors ret => bdrvWrite d s sectorNum nbSectors ret
  | .aioWritev sectorNum nbSectors acb => bdrvAioWritev d s sectorNum nbSectors acb
  | .completes i => completes s i
  | .resetDirty sectorNum nbSectors => (bdrvResetDirty s sectorNum nbSectors).map fun s ↦ (s, .none)

def Tracking.off : Tracking := ⟨none, 0, [], []⟩

def Covers (sectorNum nbSectors chunk : Int) : Prop :=
  ∃ k, sectorNum ≤ k ∧ k < sectorNum + nbSectors ∧ k / 2048 = chunk

def Event.Writes (chunk : Int) : Event → Prop
  | .written sectorNum nbSectors => Covers sectorNum nbSectors chunk
  | _ => False

def Event.Clears (chunk : Int) : Event → Prop
  | .switchedOn => True
  | .reset sectorNum nbSectors => Covers sectorNum nbSectors chunk
  | .written .. => False

/-- Some sector of the chunk was written since tracking was switched on and since the chunk
was last reset. -/
def WrittenSince (history : List Event) (chunk : Int) : Prop :=
  ∃ later e earlier, history = later ++ e :: earlier ∧ e.Writes chunk ∧ ∀ f ∈ later, ¬ f.Clears chunk

structure Exact (d : Device) (s : Tracking) : Prop where
  get : ∀ b, s.dirtyBitmap = some b → ∀ sector : Int64, 0 ≤ sector.toInt → sector.toInt * 512 < d.length.toInt →
    ∃ dirty, bdrvGetDirty d s sector = .ok dirty ∧ (dirty = true ↔ WrittenSince s.history (sector.toInt / 2048))
  count : ∀ b, s.dirtyBitmap = some b → s.dirtyCount = b.setBits.card

/-- No word outside of the bitmap is accessed. -/
def Inside (d : Device) (s : Tracking) (c : Request) : Prop :=
  s.step d c ≠ .error .null ∧ s.step d c ≠ .error .outside

instance {α : Type} (x : Except Trap α) (e : Trap) : Decidable (x = .error e) :=
  match x with
  | .ok _ => .isFalse nofun
  | .error e' => decidable_of_iff (e' = e) ⟨congrArg _, Except.error.inj⟩

instance (d : Device) (s : Tracking) (c : Request) : Decidable (Inside d s c) := inferInstanceAs (Decidable (_ ∧ _))

/-- The law of dirty tracking for a run of a device that is not tracked at first. -/
def TracksDirt (d : Device) (cs : List Request) : Prop :=
  Throughout (Tracking.step d) (Exact d) .off cs ∧ Attempts (Tracking.step d) (Inside d) .off cs

/-- Writes of at least one sector, and resets of sectors of the device. -/
def Request.Proper (d : Device) : Request → Prop
  | .write _ nbSectors _ => 1 ≤ nbSectors.toInt
  | .aioWritev _ nbSectors _ => 1 ≤ nbSectors.toInt
  | .resetDirty sectorNum nbSectors =>
    0 ≤ sectorNum.toInt ∧ 1 ≤ nbSectors.toInt ∧ (sectorNum.toInt + nbSectors.toInt) * 512 ≤ d.length.toInt
  | _ => True

instance (d : Device) : (c : Request) → Decidable (c.Proper d)
  | .write _ nbSectors _ => inferInstanceAs (Decidable (1 ≤ nbSectors.toInt))
  | .aioWritev _ nbSectors _ => inferInstanceAs (Decidable (1 ≤ nbSectors.toInt))
  | .resetDirty .. => inferInstanceAs (Decidable (_ ∧ _ ∧ _))
  | .setDirtyTracking _ => .isTrue trivial
  | .completes _ => .isTrue trivial

/-- The sectors lie under whole words of the bitmap, if there is one. -/
def Tracking.Spans (s : Tracking) (sectorNum nbSectors : Int) : Prop :=
  ∀ b ∈ s.dirtyBitmap, 0 ≤ sectorNum ∧ sectorNum + nbSectors ≤ 131072 * (b.bytes / 8 : Nat)

/-- The words of all the sectors of the device get allocated, or nothing is dirty. -/
def Tracking.Switchable (d : Device) (s : Tracking) : Prop :=
  match s.dirtyBitmap with
  | some _ => s.dirtyCount = 0
  | none => d.length.toInt ≤ 512 * (131072 * ((bitmapSize d.length).toUInt64.toNat / 8 : Nat))

instance (s : Tracking) (sectorNum nbSectors : Int) : Decidable (s.Spans sectorNum nbSectors) :=
  inferInstanceAs (Decidable (∀ b ∈ s.dirtyBitmap, _))

instance (d : Device) (s : Tracking) : Decidable (s.Switchable d) :=
  match hb : s.dirtyBitmap with
  | some b => decidable_of_iff (s.dirtyCount = 0) (by simp only [Tracking.Switchable, hb])
  | none => decidable_of_iff (d.length.toInt ≤ 512 * (131072 * ((bitmapSize d.length).toUInt64.toNat / 8 : Nat)))
      (by simp only [Tracking.Switchable, hb])

/-- Tracking is switched on where it may be. The sectors of a write that is accepted are under
the bitmap; one that completes while tracking is on was submitted while it was on. Sectors
are reset while tracking is on. -/
def Tracking.Careful (d : Device) (s : Tracking) : Request → Prop
  | .setDirtyTracking enable => enable = true → s.Switchable d
  | .write sectorNum nbSectors _ => d.opened → d.readOnly = false → bdrvCheckRequest d sectorNum nbSectors = 0 →
    s.Spans sectorNum.toInt nbSectors.toInt
  | .aioWritev .. => True
  | .completes i => ∀ w ∈ s.outstanding[i]?, s.dirtyBitmap.isSome →
    w.tracked = true ∧ s.Spans w.sectorNum.toInt w.nbSectors.toInt
  | .resetDirty .. => s.dirtyBitmap.isSome

instance (d : Device) (s : Tracking) : (c : Request) → Decidable (s.Careful d c)
  | .setDirtyTracking enable => inferInstanceAs (Decidable (enable = true → s.Switchable d))
  | .write sectorNum nbSectors _ => inferInstanceAs (Decidable (d.opened = true → d.readOnly = false →
      bdrvCheckRequest d sectorNum nbSectors = 0 → s.Spans sectorNum.toInt nbSectors.toInt))
  | .aioWritev .. => .isTrue trivial
  | .completes i => inferInstanceAs (Decidable (∀ w ∈ s.outstanding[i]?, s.dirtyBitmap.isSome →
      w.tracked = true ∧ s.Spans w.sectorNum.toInt w.nbSectors.toInt))
  | .resetDirty .. => inferInstanceAs (Decidable (s.dirtyBitmap.isSome = true))

section Words

theorem toInt_div_chunk {a : Int64} (h : 0 ≤ a.toInt) : (a / sectorsPerDirtyChunk).toInt = a.toInt / 2048 := by
  have hlt := a.toInt_lt
  have hsize : sectorsPerDirtyChunk.toInt = 2048 := rfl
  rw [Int64.toInt_div, hsize, Int.tdiv_eq_ediv_of_nonneg h]
  apply Int.bmod_eq_of_le
  · omega
  · omega

theorem toInt_last {a : Int64} {n : Int32} (ha : 0 ≤ a.toInt) (hn : 1 ≤ n.toInt)
    (h : a.toInt + n.toInt ≤ 2 ^ 60) : (a + n.toInt64 - 1).toInt = a.toInt + n.toInt - 1 := by
  have hone : (1 : Int64).toInt = 1 := rfl
  have hsum : (a + n.toInt64).toInt = a.toInt + n.toInt := by
    rw [Int64.toInt_add, Int32.toInt_toInt64]
    apply Int.bmod_eq_of_le
    · omega
    · omega
  rw [Int64.toInt_sub, hsum, hone]
  apply Int.bmod_eq_of_le
  · omega
  · omega

theorem toNat_toUInt64 {a : Int64} (ha : 0 ≤ a.toInt) : a.toUInt64.toNat = a.toInt.toNat := by
  change 0 ≤ a.toBitVec.toInt at ha
  change a.toBitVec.toNat = a.toBitVec.toInt.toNat
  have hlt := a.toBitVec.isLt
  rw [BitVec.toInt_eq_toNat_cond] at ha ⊢
  split_ifs at ha ⊢ with hsmall
  · omega
  · omega

theorem toInt_shiftLeft_sector {a : Int64} (ha : 0 ≤ a.toInt) (h : a.toInt * 512 < 2 ^ 63) :
    (a <<< sectorBits).toInt = a.toInt * 512 := by
  have hsize : (512 : Int64).toInt = 512 := rfl
  have hmul : a <<< sectorBits = a * 512 := by
    apply Int64.toBitVec_inj.mp
    have hbits : BitVec.smod 9#64 64#64 = 9#64 := by decide
    change a.toBitVec <<< BitVec.smod 9#64 64#64 = a.toBitVec * 512
    rw [hbits]
    apply BitVec.eq_of_toNat_eq
    simp [Nat.shiftLeft_eq]
  rw [hmul, Int64.toInt_mul, hsize]
  apply Int.bmod_eq_of_le
  · omega
  · omega

theorem toNat_wordNumber {c : Int64} (h : 0 ≤ c.toInt) : (c.toUInt64 / 64).toNat = c.toInt.toNat / 64 := by
  rw [UInt64.toNat_div, toNat_toUInt64 h]
  rfl

theorem toNat_bitNumber {c : Int64} (h : 0 ≤ c.toInt) : (c.toUInt64 % 64).toNat = c.toInt.toNat % 64 := by
  rw [UInt64.toNat_mod, toNat_toUInt64 h]
  rfl

theorem getLsbD_mask (k j : Nat) (hj : j < 64) : (1#64 <<< k).getLsbD j = decide (j = k) := by
  rw [BitVec.getLsbD_shiftLeft, BitVec.getLsbD_one, Bool.eq_iff_iff]
  simp only [Bool.and_eq_true, Bool.not_eq_true', decide_eq_true_eq, decide_eq_false_iff_not]
  omega

theorem and_mask_ne_zero_iff (val : BitVec 64) {k : Nat} (hk : k < 64) :
    val &&& 1#64 <<< k ≠ 0 ↔ val.getLsbD k = true := by
  rw [← BitVec.twoPow_eq]
  exact Masks.and_twoPow_ne_zero_iff hk

end Words

namespace DirtyBitmap

variable {b : DirtyBitmap} {j k idx : Nat} {val : BitVec 64}

theorem read_of_lt (h : idx < b.words.length) : b.read idx = .ok (b.words[idx]) := by
  unfold read
  rw [List.getElem?_eq_getElem h]

theorem bit_eq (h : j / 64 < b.words.length) : b.bit j = (b.words[j / 64]).getLsbD (j % 64) := by
  unfold bit
  rw [List.getElem?_eq_getElem h, Option.getD_some]

@[simp] theorem length_write : (b.write idx val).words.length = b.words.length := List.length_set

theorem bit_write (h : idx < b.words.length) (j : Nat) :
    (b.write idx val).bit j = if j / 64 = idx then val.getLsbD (j % 64) else b.bit j := by
  change ((b.words.set idx val)[j / 64]?.getD 0).getLsbD (j % 64) = _
  by_cases hj : j / 64 = idx
  · subst hj
    simp [h]
  · rw [if_neg hj, List.getElem?_set_ne (Ne.symm hj)]
    rfl

/-- Storing a word that differs in one bit. -/
theorem bit_write_update {dirty : Bool} (h : k / 64 < b.words.length)
    (hval : ∀ i < 64, val.getLsbD i = if i = k % 64 then dirty else (b.words[k / 64]).getLsbD i) (j : Nat) :
    (b.write (k / 64) val).bit j = if j = k then dirty else b.bit j := by
  rw [bit_write h]
  by_cases hword : j / 64 = k / 64
  · rw [if_pos hword, hval _ (Nat.mod_lt j (by decide))]
    by_cases hbit : j % 64 = k % 64
    · have hj : j = k := by omega
      rw [if_pos hbit, if_pos hj]
    · have hj : j ≠ k := by
        intro he
        exact hbit (congrArg (· % 64) he)
      rw [if_neg hbit, if_neg hj, bit_eq (hword ▸ h)]
      simp only [hword]
  · have hj : j ≠ k := by
      intro he
      exact hword (congrArg (· / 64) he)
    rw [if_neg hword, if_neg hj]

theorem mem_setBits : j ∈ b.setBits ↔ j < 64 * b.words.length ∧ b.bit j = true := by
  simp [setBits]

variable {b' : DirtyBitmap}

theorem setBits_insert (hlen : b'.words.length = b.words.length) (hk : k < 64 * b.words.length)
    (hbits : ∀ j, b'.bit j = if j = k then true else b.bit j) : b'.setBits = insert k b.setBits := by
  ext j
  rw [Finset.mem_insert, mem_setBits, mem_setBits, hlen, hbits]
  by_cases hj : j = k
  · subst hj
    simp [hk]
  · simp [hj]

theorem setBits_erase (hlen : b'.words.length = b.words.length)
    (hbits : ∀ j, b'.bit j = if j = k then false else b.bit j) : b'.setBits = b.setBits.erase k := by
  ext j
  rw [Finset.mem_erase, mem_setBits, mem_setBits, hlen, hbits]
  by_cases hj : j = k
  · simp [hj]
  · simp [hj]

theorem setBits_congr (hlen : b'.words.length = b.words.length) (hbits : ∀ j, b'.bit j = b.bit j) :
    b'.setBits = b.setBits := by
  ext j
  rw [mem_setBits, mem_setBits, hlen, hbits]

end DirtyBitmap

theorem DirtyBitmap.length_eq {b b' : DirtyBitmap} (h : b'.bytes = b.bytes) : b'.words.length = b.words.length := by
  rw [b'.whole, b.whole, h]

namespace Tracking

def redraw (s : Tracking) (b : DirtyBitmap) : Tracking :=
  { s with dirtyBitmap := some b, dirtyCount := b.setBits.card }

/-- The bitmap of the state has the same bytes allocated and other bits. -/
def Redrawn (s : Tracking) (b : DirtyBitmap) (t : Tracking) (bit : Nat → Bool) : Prop :=
  ∃ b', t = s.redraw b' ∧ b'.bytes = b.bytes ∧ ∀ j, b'.bit j = bit j

variable {s t : Tracking} {b : DirtyBitmap}

theorem redrawn {b' : DirtyBitmap} {n : Int} {bit : Nat → Bool} (hbytes : b'.bytes = b.bytes)
    (hbits : ∀ j, b'.bit j = bit j) (hn : n = b'.setBits.card) :
    s.Redrawn b { s with dirtyBitmap := some b', dirtyCount := n } bit := by
  refine ⟨b', ?_, hbytes, hbits⟩
  rw [redraw, hn]

theorem redraw_self (hb : s.dirtyBitmap = some b) (hcount : s.dirtyCount = b.setBits.card) : s.redraw b = s := by
  cases s
  cases hb
  cases hcount
  rfl

theorem setDirtyChunk_spec (hb : s.dirtyBitmap = some b) (hcount : s.dirtyCount = b.setBits.card) {chunk : Int64}
    {k : Nat} (hk : chunk.toInt = k) (hlt : k < 64 * b.words.length) (dirty : Bool) :
    ∃ t, setDirtyChunk s chunk dirty = .ok t ∧ s.Redrawn b t fun j ↦ if j = k then dirty else b.bit j := by
  have h0 : 0 ≤ chunk.toInt := by omega
  have hword : k / 64 < b.words.length := by omega
  have hmod : k % 64 < 64 := Nat.mod_lt k (by decide)
  have hidx : (chunk.toUInt64 / 64).toNat = k / 64 := by
    rw [toNat_wordNumber h0, hk, Int.toNat_natCast]
  have hbit : (chunk.toUInt64 % 64).toNat = k % 64 := by
    rw [toNat_bitNumber h0, hk, Int.toNat_natCast]
  have hread := DirtyBitmap.read_of_lt hword
  have hisSet := and_mask_ne_zero_iff (b.words[k / 64]) hmod
  have hbitk : b.bit k = (b.words[k / 64]).getLsbD (k % 64) := DirtyBitmap.bit_eq hword
  -- a word that is stored with bit `k` as it should be
  have hstore : ∀ val : BitVec 64,
      (∀ i < 64, val.getLsbD i = if i = k % 64 then dirty else (b.words[k / 64]).getLsbD i) →
      ∀ j, (b.write (k / 64) val).bit j = if j = k then dirty else b.bit j :=
    fun val hval j ↦ DirtyBitmap.bit_write_update hword hval j
  have hsame : (b.words[k / 64]).getLsbD (k % 64) = dirty →
      ∀ i < 64, (b.words[k / 64]).getLsbD i = if i = k % 64 then dirty else (b.words[k / 64]).getLsbD i := by
    intro hval i _
    by_cases hi : i = k % 64
    · rw [if_pos hi, hi, hval]
    · rw [if_neg hi]
  have hkeep : b.bit k = dirty → ∀ b' : DirtyBitmap, b'.words.length = b.words.length →
      (∀ j, b'.bit j = if j = k then dirty else b.bit j) → b'.setBits = b.setBits := by
    intro hval b' hlen hbits
    apply DirtyBitmap.setBits_congr hlen
    intro j
    rw [hbits]
    by_cases hj : j = k
    · rw [if_pos hj, hj, hval]
    · rw [if_neg hj]
  unfold setDirtyChunk
  simp only [hb, hidx, hbit, hread]
  change ∃ t, (if dirty = true then _ else _) = Except.ok t ∧ _
  cases dirty with
  | true =>
    rw [if_pos rfl]
    by_cases hset : b.words[k / 64] &&& 1#64 <<< (k % 64) = 0
    · have hclear : b.bit k = false := by
        rw [hbitk, ← Bool.not_eq_true, ← hisSet]
        exact not_not.mpr hset
      have hbits := hstore (b.words[k / 64] ||| 1#64 <<< (k % 64)) (by
        intro i hi
        rw [BitVec.getLsbD_or, getLsbD_mask _ _ hi]
        by_cases he : i = k % 64
        · simp [he]
        · simp [he])
      have hcard : (b.write (k / 64) (b.words[k / 64] ||| 1#64 <<< (k % 64))).setBits.card = b.setBits.card + 1 := by
        rw [DirtyBitmap.setBits_insert DirtyBitmap.length_write hlt hbits]
        apply Finset.card_insert_of_notMem
        rw [DirtyBitmap.mem_setBits, hclear]
        simp
      refine ⟨_, if_pos hset, redrawn (by rfl) hbits ?_⟩
      rw [hcard, hcount]
      rfl
    · have hset' := hisSet.mp hset
      have hbits := hstore _ (hsame hset')
      refine ⟨_, if_neg hset, redrawn (by rfl) hbits ?_⟩
      rw [hkeep (hbitk.trans hset') _ DirtyBitmap.length_write hbits, hcount]
  | false =>
    rw [if_neg Bool.false_ne_true]
    by_cases hset : b.words[k / 64] &&& 1#64 <<< (k % 64) ≠ 0
    · have hset' := hisSet.mp hset
      have hbits := hstore (b.words[k / 64] &&& ~~~(1#64 <<< (k % 64))) (by
        intro i hi
        rw [BitVec.getLsbD_and, BitVec.getLsbD_not, getLsbD_mask _ _ hi]
        by_cases he : i = k % 64
        · simp [he]
        · simp [he, hi])
      have hmem : k ∈ b.setBits := DirtyBitmap.mem_setBits.mpr ⟨hlt, hbitk.trans hset'⟩
      have hcard :
          (b.write (k / 64) (b.words[k / 64] &&& ~~~(1#64 <<< (k % 64)))).setBits.card + 1 = b.setBits.card := by
        rw [DirtyBitmap.setBits_erase DirtyBitmap.length_write hbits]
        exact Finset.card_erase_add_one hmem
      refine ⟨_, if_pos hset, redrawn (by rfl) hbits ?_⟩
      rw [hcount, ← hcard]
      simp
    · have hclear : (b.words[k / 64]).getLsbD (k % 64) = false := by
        rw [← Bool.not_eq_true, ← hisSet]
        exact hset
      have hbits := hstore _ (hsame hclear)
      refine ⟨_, if_neg hset, redrawn (by rfl) hbits ?_⟩
      rw [hkeep (hbitk.trans hclear) _ DirtyBitmap.length_write hbits, hcount]

theorem setDirtyChunks_spec (dirty : Bool) (n : Nat) (hb : s.dirtyBitmap = some b)
    (hcount : s.dirtyCount = b.setBits.card) (start : Int64) {k : Nat} (hk : start.toInt = k)
    (hlt : k + n ≤ 64 * b.words.length) (hsmall : 64 * b.words.length ≤ 2 ^ 60) :
    ∃ t, setDirtyChunks dirty n s start = .ok t ∧
      s.Redrawn b t fun j ↦ if k ≤ j ∧ j < k + n then dirty else b.bit j := by
  induction n generalizing s b start k with
  | zero =>
    refine ⟨s, rfl, b, (redraw_self hb hcount).symm, rfl, fun j ↦ ?_⟩
    have hnone : ¬ (k ≤ j ∧ j < k + 0) := by omega
    exact (if_neg hnone).symm
  | succ n ih =>
    have hfirst : k < 64 * b.words.length := by omega
    obtain ⟨t, hturn, b₁, rfl, hbytes, hbits⟩ := setDirtyChunk_spec hb hcount hk hfirst dirty
    have hlen := DirtyBitmap.length_eq hbytes
    have hnext : (start + 1).toInt = (k + 1 : Nat) := by
      have hone : (1 : Int64).toInt = 1 := rfl
      rw [Int64.toInt_add, hone, hk]
      apply Int.bmod_eq_of_le
      · omega
      · omega
    obtain ⟨u, hrest, b₂, rfl, hbytes₂, hbits₂⟩ :=
      ih (s := s.redraw b₁) (b := b₁) rfl rfl (start + 1) hnext (by omega) (by omega)
    refine ⟨_, ?_, b₂, rfl, hbytes₂.trans hbytes, fun j ↦ ?_⟩
    · change (setDirtyChunk s start dirty >>= fun s ↦ setDirtyChunks dirty n s (start + 1)) = _
      rw [hturn]
      exact hrest
    · have hturn' : b₁.bit j = if j = k then dirty else b.bit j := hbits j
      have hrest' : b₂.bit j = if k + 1 ≤ j ∧ j < k + 1 + n then dirty else b₁.bit j := hbits₂ j
      rw [hrest', hturn']
      by_cases hj : j = k
      · have hin : k ≤ j ∧ j < k + (n + 1) := by omega
        have hout : ¬ (k + 1 ≤ j ∧ j < k + 1 + n) := by omega
        rw [if_neg hout, if_pos hj]
        exact (if_pos hin).symm
      · have hiff : (k + 1 ≤ j ∧ j < k + 1 + n) ↔ (k ≤ j ∧ j < k + (n + 1)) := by omega
        rw [if_neg hj]
        simp only [hiff]

theorem covers_iff {sectorNum nbSectors chunk : Int} (h : 1 ≤ nbSectors) :
    Covers sectorNum nbSectors chunk ↔ sectorNum / 2048 ≤ chunk ∧ chunk ≤ (sectorNum + nbSectors - 1) / 2048 := by
  constructor
  · rintro ⟨k, hfrom, hto, rfl⟩
    omega
  · intro hin
    by_cases hfirst : sectorNum / 2048 = chunk
    · exact ⟨sectorNum, by omega, by omega, hfirst⟩
    · exact ⟨chunk * 2048, by omega, by omega, by omega⟩

theorem setDirtyBitmap_spec (dirty : Bool) (hb : s.dirtyBitmap = some b) (hcount : s.dirtyCount = b.setBits.card)
    {sectorNum : Int64} {nbSectors : Int32} (hfrom : 0 ≤ sectorNum.toInt) (hsome : 1 ≤ nbSectors.toInt)
    (hto : sectorNum.toInt + nbSectors.toInt ≤ 131072 * b.words.length) (hsmall : b.words.length ≤ 2 ^ 40) :
    ∃ t b', setDirtyBitmap s sectorNum nbSectors dirty = .ok t ∧ t = s.redraw b' ∧ b'.bytes = b.bytes ∧
      ∀ j : Nat, (Covers sectorNum.toInt nbSectors.toInt j → b'.bit j = dirty) ∧
        (¬ Covers sectorNum.toInt nbSectors.toInt j → b'.bit j = b.bit j) := by
  have hfirst := toInt_div_chunk hfrom
  have hlast := toInt_last hfrom hsome (by omega)
  have hlast' := toInt_div_chunk (a := sectorNum + nbSectors.toInt64 - 1) (by omega)
  rw [hlast] at hlast'
  obtain ⟨t, hrun, b', ht, hbytes, hbits⟩ :=
    setDirtyChunks_spec dirty ((sectorNum.toInt + nbSectors.toInt - 1) / 2048 + 1 - sectorNum.toInt / 2048).toNat
      hb hcount (sectorNum / sectorsPerDirtyChunk) (k := (sectorNum.toInt / 2048).toNat) (by omega) (by omega)
      (by omega)
  refine ⟨t, b', ?_, ht, hbytes, fun j ↦ ?_⟩
  · unfold setDirtyBitmap
    simp only [hfirst, hlast']
    exact hrun
  · rw [covers_iff hsome, hbits]
    constructor
    · intro hin
      exact if_pos (by omega)
    · intro hout
      exact if_neg (by omega)

end Tracking

theorem writtenSince_cons {e : Event} {history : List Event} {chunk : Int} :
    WrittenSince (e :: history) chunk ↔ e.Writes chunk ∨ (¬ e.Clears chunk ∧ WrittenSince history chunk) := by
  constructor
  · rintro ⟨later, f, earlier, heq, hwrites, hkept⟩
    cases later with
    | nil =>
      cases heq
      exact .inl hwrites
    | cons g later =>
      cases heq
      exact .inr ⟨hkept _ List.mem_cons_self, later, f, earlier, rfl, hwrites,
        fun g hg ↦ hkept g (List.mem_cons_of_mem _ hg)⟩
  · intro h
    rcases h with hwrites | ⟨hkept, later, f, earlier, rfl, hwrites, hall⟩
    · exact ⟨[], e, history, rfl, hwrites, nofun⟩
    · refine ⟨e :: later, f, earlier, rfl, hwrites, fun g hg ↦ ?_⟩
      rcases List.mem_cons.mp hg with rfl | hlater
      · exact hkept
      · exact hall g hlater

theorem not_writtenSince_switchedOn (history : List Event) (chunk : Int) :
    ¬ WrittenSince (.switchedOn :: history) chunk := by
  rw [writtenSince_cons]
  simp [Event.Writes, Event.Clears]

namespace Tracking

variable {d : Device}

/-- What holds of the bitmap while tracking is on. -/
structure Marked (d : Device) (s : Tracking) (b : DirtyBitmap) : Prop where
  bits : ∀ chunk : Nat, chunk < 64 * b.words.length → (b.bit chunk = true ↔ WrittenSince s.history chunk)
  count : s.dirtyCount = b.setBits.card
  fits : d.length.toInt ≤ 512 * (131072 * b.words.length)
  small : b.words.length ≤ 2 ^ 40

structure Kept (d : Device) (s : Tracking) : Prop where
  outstanding : ∀ w ∈ s.outstanding, 1 ≤ w.nbSectors.toInt
  bitmap : ∀ b, s.dirtyBitmap = some b → Marked d s b

theorem kept_off (d : Device) : Kept d off := by
  constructor
  · intro w hw
    cases hw
  · intro b hb
    cases hb

theorem Marked.get (h : Marked d s b) (hb : s.dirtyBitmap = some b) {sector : Int64} (hfrom : 0 ≤ sector.toInt)
    (hin : sector.toInt * 512 < d.length.toInt) :
    ∃ dirty, bdrvGetDirty d s sector = .ok dirty ∧
      (dirty = true ↔ WrittenSince s.history (sector.toInt / 2048)) := by
  have hlength := d.length.toInt_lt
  have hfits := h.fits
  have hchunk := toInt_div_chunk hfrom
  have hlt : (sector.toInt / 2048).toNat < 64 * b.words.length := by omega
  have hword : (sector.toInt / 2048).toNat / 64 < b.words.length := by omega
  have hmod : (sector.toInt / 2048).toNat % 64 < 64 := Nat.mod_lt _ (by decide)
  have hidx := toNat_wordNumber (c := sector / sectorsPerDirtyChunk) (by omega)
  have hbit := toNat_bitNumber (c := sector / sectorsPerDirtyChunk) (by omega)
  have hless : sector <<< sectorBits < d.length := by
    rw [Int64.lt_iff_toInt_lt, toInt_shiftLeft_sector hfrom (by omega)]
    exact hin
  rw [hchunk] at hidx hbit
  have hread := DirtyBitmap.read_of_lt hword
  refine ⟨b.words[(sector.toInt / 2048).toNat / 64] &&& 1#64 <<< ((sector.toInt / 2048).toNat % 64) != 0, ?_, ?_⟩
  · unfold bdrvGetDirty
    simp only [hb, hidx, hbit, if_pos hless, hread]
    rfl
  · have hcast : ((sector.toInt / 2048).toNat : Int) = sector.toInt / 2048 := by omega
    rw [bne_iff_ne, and_mask_ne_zero_iff _ hmod, ← DirtyBitmap.bit_eq hword, h.bits _ hlt, hcast]

theorem Kept.exact (h : Kept d s) : Exact d s := by
  constructor
  · intro b hb sector hfrom hin
    exact (h.bitmap b hb).get hb hfrom hin
  · intro b hb
    exact (h.bitmap b hb).count

/-- The chunks of a range are marked or cleared, and the history says why. -/
theorem Marked.setDirtyBitmap (h : Marked d s b) (hb : s.dirtyBitmap = some b) {dirty : Bool} {sectorNum : Int64}
    {nbSectors : Int32} (hfrom : 0 ≤ sectorNum.toInt) (hsome : 1 ≤ nbSectors.toInt)
    (hto : sectorNum.toInt + nbSectors.toInt ≤ 131072 * b.words.length) (e : Event)
    (he : ∀ chunk : Nat, e.Writes chunk ∨ (¬ e.Clears chunk ∧ WrittenSince s.history chunk) ↔
      (Covers sectorNum.toInt nbSectors.toInt chunk ∧ dirty = true) ∨
        (¬ Covers sectorNum.toInt nbSectors.toInt chunk ∧ WrittenSince s.history chunk)) :
    ∃ t, Block.setDirtyBitmap s sectorNum nbSectors dirty = .ok t ∧ t.outstanding = s.outstanding ∧
      ∀ b', (t.record e).dirtyBitmap = some b' → Marked d (t.record e) b' := by
  obtain ⟨t, b', hrun, rfl, hbytes, hbits⟩ := setDirtyBitmap_spec dirty hb h.count hfrom hsome hto h.small
  refine ⟨_, hrun, rfl, fun b₁ hb₁ ↦ ?_⟩
  cases hb₁
  have hlen := DirtyBitmap.length_eq hbytes
  refine ⟨fun chunk hchunk ↦ ?_, rfl, hlen ▸ h.fits, hlen ▸ h.small⟩
  change b'.bit chunk = true ↔ WrittenSince (e :: s.history) chunk
  rw [writtenSince_cons, he chunk]
  by_cases hcovers : Covers sectorNum.toInt nbSectors.toInt chunk
  · rw [(hbits chunk).1 hcovers]
    simp [hcovers]
  · rw [(hbits chunk).2 hcovers, h.bits chunk (hlen ▸ hchunk)]
    simp [hcovers]

/-- An operation that keeps the bitmap right, or stops for another reason than an access
outside of it. -/
def Sound (d : Device) : Except Trap Tracking → Prop
  | .ok t => Kept d t
  | .error e => e = .abort ∨ e = .notOutstanding

theorem Sound.done {x : Except Trap Tracking} (h : Sound d x) :
    Sound d ((x.map fun s ↦ (s, Answer.none)).map Prod.fst) := by
  cases x with
  | error e => exact h
  | ok t => exact h

theorem Kept.completed (h : Kept d s) (i : Nat) : Kept d { s with outstanding := s.outstanding.eraseIdx i } := by
  refine ⟨fun w hw ↦ h.outstanding w (List.mem_of_mem_eraseIdx hw), fun b hb ↦ ?_⟩
  have hmarked := h.bitmap b hb
  exact ⟨hmarked.bits, hmarked.count, hmarked.fits, hmarked.small⟩

theorem Kept.submitted (h : Kept d s) {w : AioWrite} (hsome : 1 ≤ w.nbSectors.toInt) :
    Kept d { s with outstanding := s.outstanding ++ [w] } := by
  refine ⟨fun v hv ↦ ?_, fun b hb ↦ ?_⟩
  · rcases List.mem_append.mp hv with hold | hnew
    · exact h.outstanding v hold
    · cases List.mem_singleton.mp hnew
      exact hsome
  · have hmarked := h.bitmap b hb
    exact ⟨hmarked.bits, hmarked.count, hmarked.fits, hmarked.small⟩

theorem Kept.setDirtyIfTracking (h : Kept d s) {sectorNum : Int64} {nbSectors : Int32} (hsome : 1 ≤ nbSectors.toInt)
    (hspans : s.Spans sectorNum.toInt nbSectors.toInt) :
    ∃ t, Block.setDirtyIfTracking s sectorNum nbSectors = .ok t ∧
      Kept d (t.record (.written sectorNum.toInt nbSectors.toInt)) := by
  cases hb : s.dirtyBitmap with
  | none =>
    refine ⟨s, ?_, h.outstanding, fun b hb' ↦ ?_⟩
    · unfold Block.setDirtyIfTracking
      simp only [hb]
    · cases hb.symm.trans hb'
  | some b =>
    obtain ⟨hfrom, hto⟩ := hspans b hb
    rw [← b.whole] at hto
    have hevent : ∀ chunk : Nat, (Event.written sectorNum.toInt nbSectors.toInt).Writes chunk ∨
        (¬ (Event.written sectorNum.toInt nbSectors.toInt).Clears chunk ∧ WrittenSince s.history chunk) ↔
        (Covers sectorNum.toInt nbSectors.toInt chunk ∧ true = true) ∨
          (¬ Covers sectorNum.toInt nbSectors.toInt chunk ∧ WrittenSince s.history chunk) := by
      intro chunk
      simp only [Event.Writes, Event.Clears, not_false_iff, true_and, and_true]
      by_cases hcovers : Covers sectorNum.toInt nbSectors.toInt chunk
      · simp [hcovers]
      · simp [hcovers]
    obtain ⟨t, hrun, houtstanding, hmarked⟩ := (h.bitmap b hb).setDirtyBitmap hb hfrom hsome hto _ hevent
    refine ⟨t, ?_, ?_, hmarked⟩
    · unfold Block.setDirtyIfTracking
      simp only [hb]
      exact hrun
    · intro w hw
      exact h.outstanding w (houtstanding ▸ hw)

theorem Kept.bdrvResetDirty (h : Kept d s) {sectorNum : Int64} {nbSectors : Int32}
    (hproper : (Request.resetDirty sectorNum nbSectors).Proper d) (hon : s.dirtyBitmap.isSome) :
    Sound d (Block.bdrvResetDirty s sectorNum nbSectors) := by
  obtain ⟨b, hb⟩ := Option.isSome_iff_exists.mp hon
  obtain ⟨hfrom, hsome, hto⟩ := hproper
  have hfits := (h.bitmap b hb).fits
  have hevent : ∀ chunk : Nat, (Event.reset sectorNum.toInt nbSectors.toInt).Writes chunk ∨
      (¬ (Event.reset sectorNum.toInt nbSectors.toInt).Clears chunk ∧ WrittenSince s.history chunk) ↔
      (Covers sectorNum.toInt nbSectors.toInt chunk ∧ false = true) ∨
        (¬ Covers sectorNum.toInt nbSectors.toInt chunk ∧ WrittenSince s.history chunk) := by
    intro chunk
    simp only [Event.Writes, Event.Clears, Bool.false_eq_true, and_false, false_or]
  obtain ⟨t, hrun, houtstanding, hmarked⟩ :=
    (h.bitmap b hb).setDirtyBitmap hb hfrom hsome (by omega) _ hevent
  have hreset : Block.bdrvResetDirty s sectorNum nbSectors =
      .ok (t.record (.reset sectorNum.toInt nbSectors.toInt)) := by
    unfold Block.bdrvResetDirty
    rw [hrun]
    rfl
  rw [hreset]
  refine ⟨?_, hmarked⟩
  intro w hw
  exact h.outstanding w (houtstanding ▸ hw)

theorem bit_zeros (bytes j : Nat) : (DirtyBitmap.zeros bytes).bit j = false := by
  unfold DirtyBitmap.bit DirtyBitmap.zeros
  by_cases hj : j / 64 < bytes / 8
  · simp [hj]
  · simp [hj]

theorem toInt_bitmapSize_le (length : Int64) : (bitmapSize length).toInt ≤ 2 ^ 41 := by
  have hlt := length.toInt_lt
  have hle := length.le_toInt
  have hround : (sectorsPerDirtyChunk * 8 - 1).toInt = 16383 := by decide
  have hchunks : (sectorsPerDirtyChunk * 8).toInt = 16384 := by decide
  have hbits : (BitVec.smod 9#64 64#64).toNat = 9 := by decide
  have hsectors : (length >>> sectorBits).toInt = length.toInt / 512 := by
    change (length.toBitVec.sshiftRight' (BitVec.smod 9#64 64#64)).toInt = length.toBitVec.toInt / 512
    rw [BitVec.sshiftRight', hbits, BitVec.toInt_sshiftRight, Int.shiftRight_eq_div_pow]
    rfl
  have hsum : ((length >>> sectorBits) + (sectorsPerDirtyChunk * 8 - 1)).toInt = length.toInt / 512 + 16383 := by
    rw [Int64.toInt_add, hsectors, hround]
    apply Int.bmod_eq_of_le
    · omega
    · omega
  have hquot : (length.toInt / 512 + 16383).tdiv 16384 ≤ 2 ^ 41 := by
    have hto := Int.tdiv_le_tdiv (c := 16384) (by decide) (show length.toInt / 512 + 16383 ≤ 16384 * 2 ^ 41 by omega)
    exact hto.trans (by decide)
  have hneg : -2 ^ 41 ≤ (length.toInt / 512 + 16383).tdiv 16384 := by
    have hfrom :=
      Int.tdiv_le_tdiv (c := 16384) (by decide) (show -(16384 * 2 ^ 41) ≤ length.toInt / 512 + 16383 by omega)
    exact Int.le_trans (by decide) hfrom
  unfold bitmapSize
  rw [Int64.toInt_div, hsum, hchunks, Int.bmod_eq_of_le]
  · exact hquot
  · omega
  · omega

theorem Kept.bdrvSetDirtyTracking (h : Kept d s) {enable : Bool} (hcareful : s.Careful d (.setDirtyTracking enable)) :
    Sound d (Block.bdrvSetDirtyTracking d s enable) := by
  unfold Block.bdrvSetDirtyTracking
  cases enable with
  | false =>
    refine ⟨h.outstanding, fun b hb ↦ ?_⟩
    cases hb
  | true =>
    have hcareful' := hcareful rfl
    cases hb : s.dirtyBitmap with
    | some b =>
      simp only [Switchable, hb] at hcareful'
      have hmarked := h.bitmap b hb
      refine ⟨h.outstanding, fun b' hb' ↦ ?_⟩
      cases hb'
      refine ⟨hmarked.bits, ?_, hmarked.fits, hmarked.small⟩
      change (0 : Int) = _
      rw [← hmarked.count, hcareful']
    | none =>
      simp only [Switchable, hb] at hcareful'
      rw [if_pos rfl]
      unfold qemuMallocz
      split_ifs with hsize
      · exact .inl rfl
      · refine ⟨h.outstanding, fun b' hb' ↦ ?_⟩
        cases hb'
        have hlen : (DirtyBitmap.zeros (bitmapSize d.length).toUInt64.toNat).words.length =
            (bitmapSize d.length).toUInt64.toNat / 8 := List.length_replicate
        refine ⟨fun chunk _ ↦ ?_, ?_, ?_, ?_⟩
        · rw [bit_zeros]
          exact iff_of_false Bool.false_ne_true (not_writtenSince_switchedOn _ _)
        · have hnone : (DirtyBitmap.zeros (bitmapSize d.length).toUInt64.toNat).setBits = ∅ := by
            apply Finset.filter_false_of_mem
            intro j _
            rw [bit_zeros]
            exact Bool.false_ne_true
          rw [hnone]
          rfl
        · rw [hlen]
          exact hcareful'
        · have hle := toInt_bitmapSize_le d.length
          have h0 : 0 ≤ (bitmapSize d.length).toInt := by
            have hneg := not_or.mp hsize |>.1
            rw [Int64.lt_iff_toInt_lt] at hneg
            exact not_lt.mp hneg
          rw [hlen, toNat_toUInt64 h0]
          omega

theorem Kept.write (h : Kept d s) {sectorNum : Int64} {nbSectors : Int32} {ret : Int}
    (hproper : (Request.write sectorNum nbSectors ret).Proper d)
    (hcareful : s.Careful d (.write sectorNum nbSectors ret)) :
    Sound d ((bdrvWrite d s sectorNum nbSectors ret).map Prod.fst) := by
  unfold bdrvWrite
  split_ifs with hopened hreadOnly hcheck
  · exact h
  · exact h
  · have hspans := hcareful hopened (Bool.not_eq_true _ ▸ hreadOnly) (not_not.mp hcheck)
    obtain ⟨t, hrun, ht⟩ := h.setDirtyIfTracking hproper hspans
    rw [hrun]
    exact ht
  · exact h

theorem Kept.aioWritev (h : Kept d s) {sectorNum : Int64} {nbSectors : Int32} {acb : Bool}
    (hproper : (Request.aioWritev sectorNum nbSectors acb).Proper d) :
    Sound d ((bdrvAioWritev d s sectorNum nbSectors acb).map Prod.fst) := by
  unfold bdrvAioWritev
  split_ifs with hrefused hacb
  · exact h
  · exact h.submitted hproper
  · exact h

/-- A write that completes while tracking is on is marked by its callback. -/
theorem Kept.completes (h : Kept d s) {i : Nat} (hcareful : s.Careful d (.completes i)) :
    Sound d ((Block.completes s i).map Prod.fst) := by
  unfold Block.completes
  cases hw : s.outstanding[i]? with
  | none => exact .inr rfl
  | some w =>
    have hsome := h.outstanding w (List.mem_of_getElem? hw)
    have hspans : Spans { s with outstanding := s.outstanding.eraseIdx i } w.sectorNum.toInt w.nbSectors.toInt := by
      intro b hb
      exact (hcareful w hw (Option.isSome_of_eq_some hb)).2 b hb
    obtain ⟨t, hrun, ht⟩ := (h.completed i).setDirtyIfTracking hsome hspans
    by_cases htracked : w.tracked = true
    · simp only [htracked, if_true, blockCompleteCb, hrun]
      exact ht
    · have hoff : s.dirtyBitmap = none := by
        rw [← Option.not_isSome_iff_eq_none]
        intro hon
        exact htracked (hcareful w hw hon).1
      have hskip : Block.setDirtyIfTracking { s with outstanding := s.outstanding.eraseIdx i } w.sectorNum
          w.nbSectors = .ok { s with outstanding := s.outstanding.eraseIdx i } := by
        unfold Block.setDirtyIfTracking
        simp only [hoff]
      cases hskip.symm.trans hrun
      rw [Bool.not_eq_true] at htracked
      simp only [htracked, Bool.false_eq_true, if_false]
      exact ht

theorem Kept.step (h : Kept d s) {c : Request} (hproper : c.Proper d) (hcareful : s.Careful d c) :
    Sound d ((s.step d c).map Prod.fst) := by
  cases c with
  | setDirtyTracking enable => exact (h.bdrvSetDirtyTracking hcareful).done
  | write sectorNum nbSectors ret => exact h.write hproper hcareful
  | aioWritev sectorNum nbSectors acb => exact h.aioWritev hproper
  | completes i => exact h.completes hcareful
  | resetDirty sectorNum nbSectors => exact (h.bdrvResetDirty hproper hcareful).done

theorem Kept.next (h : Kept d s) {c : Request} (hproper : c.Proper d) (hcareful : s.Careful d c) {o : Answer}
    (hstep : s.step d c = .ok (t, o)) : Kept d t := by
  have hsound := h.step hproper hcareful
  rw [hstep] at hsound
  exact hsound

theorem Kept.inside (h : Kept d s) {c : Request} (hproper : c.Proper d) (hcareful : s.Careful d c) :
    Inside d s c := by
  have hsound := h.step hproper hcareful
  constructor
  · intro he
    rw [he] at hsound
    rcases hsound with h' | h' <;> cases h'
  · intro he
    rw [he] at hsound
    rcases hsound with h' | h' <;> cases h'

end Tracking

/-- In a run of careful requests, a chunk is dirty exactly if a sector of it was written since
tracking was switched on and since its last reset, the count is that of the dirty chunks, and
the bitmap is accessed in its bytes only. -/
theorem tracks_dirt (d : Device) (cs : List Request) (hproper : ∀ c ∈ cs, c.Proper d)
    (h : Attempts (Tracking.step d) (Tracking.Careful d) .off cs) : TracksDirt d cs := by
  have hkept : Throughout (Tracking.step d) (Tracking.Kept d) .off cs := by
    apply throughout_of_attempts (Tracking.kept_off d) _ h
    intro s c t o hc hs hcareful hstep
    exact hs.next (hproper c hc) hcareful hstep
  constructor
  · intro pre t hp hr
    exact (hkept pre t hp hr).exact
  · refine attempts_mono hkept ?_ h
    intro s c hc hs hcareful
    exact hs.inside (hproper c hc) hcareful

/-- A device of 64 MiB has one word of dirty bits. -/
def wholeWord : Device := ⟨true, true, false, false, 67108864, false⟩

/-- A write, two that complete later, and a reset in between. -/
def writesAndReset : List Request :=
  [.setDirtyTracking true, .write 2047 2 0, .aioWritev 4096 8 true, .aioWritev 0 1 true, .resetDirty 2048 2048,
    .completes 1, .completes 0, .setDirtyTracking false]

theorem tracks_dirt_reset : TracksDirt wholeWord writesAndReset :=
  tracks_dirt wholeWord writesAndReset (by decide) (by decide +kernel)

/-- A device of one sector gets one byte of dirty bits. -/
def oneSector : Device := ⟨true, true, false, false, 512, false⟩

theorem tracks_dirt_fails : (∀ c ∈ [.setDirtyTracking true, .write 0 1 0], Request.Proper oneSector c) ∧
    ¬ TracksDirt oneSector [.setDirtyTracking true, .write 0 1 0] := by
  refine ⟨by decide, fun h ↦ ?_⟩
  exact absurd h.2 (by decide +kernel)

end IDeviceEmulator.Block
