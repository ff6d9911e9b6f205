import Mathlib.Data.List.TakeWhile
import IDeviceEmulator.Block.Pwrite
import IDeviceEmulator.Qcow2.Counts

namespace IDeviceEmulator.Qcow2.Snapshots

open Bytes Hoare
open Block (imageBytes)
open Block.Pwrite (storeBytes)

/-- The strings are the contents of buffers, without the NUL at the end. -/
structure QCowSnapshot where
  l1TableOffset : BitVec 64
  l1Size : BitVec 32
  idStr : List Byte
  name : List Byte
  vmStateSize : BitVec 32
  dateSec : BitVec 32
  dateNsec : BitVec 32
  vmClockNsec : BitVec 64
deriving DecidableEq

structure QCowSnapshotHeader where
  l1TableOffset : BitVec 64
  l1Size : BitVec 32
  idStrSize : BitVec 16
  nameSize : BitVec 16
  dateSec : BitVec 32
  dateNsec : BitVec 32
  vmClockNsec : BitVec 64
  vmStateSize : BitVec 32
  extraDataSize : BitVec 32

section Header

def putHeader (h : QCowSnapshotHeader) : List Byte :=
  putWord 8 h.l1TableOffset ++ (putWord 4 h.l1Size ++ (putWord 2 h.idStrSize ++ (putWord 2 h.nameSize ++
    (putWord 4 h.dateSec ++ (putWord 4 h.dateNsec ++ (putWord 8 h.vmClockNsec ++ (putWord 4 h.vmStateSize ++
      (putWord 4 h.extraDataSize ++ []))))))))

def getHeader : Reader QCowSnapshotHeader := do
  let l1TableOffset ← getWord 8 64
  let l1Size ← getWord 4 32
  let idStrSize ← getWord 2 16
  let nameSize ← getWord 2 16
  let dateSec ← getWord 4 32
  let dateNsec ← getWord 4 32
  let vmClockNsec ← getWord 8 64
  let vmStateSize ← getWord 4 32
  let extraDataSize ← getWord 4 32
  return {
    l1TableOffset, l1Size, idStrSize, nameSize, dateSec, dateNsec, vmClockNsec, vmStateSize, extraDataSize }

theorem reads_getHeader (h : QCowSnapshotHeader) : Reads getHeader (putHeader h) h :=
  (reads_getWord (by decide) _).bind <| (reads_getWord (by decide) _).bind <| (reads_getWord (by decide) _).bind <|
    (reads_getWord (by decide) _).bind <| (reads_getWord (by decide) _).bind <| (reads_getWord (by decide) _).bind <|
      (reads_getWord (by decide) _).bind <| (reads_getWord (by decide) _).bind <|
        (reads_getWord (by decide) _).bind <| .pure h

theorem length_putBe (n x : Nat) : (putBe n x).length = n := by
  induction n with
  | zero => rfl
  | succ n ih => rw [putBe, List.length_cons, ih]

/-- `sizeof(QCowSnapshotHeader)`. -/
theorem length_putHeader (h : QCowSnapshotHeader) : (putHeader h).length = 40 := by
  simp only [putHeader, putWord, List.length_append, length_putBe, List.length_nil]

end Header

section Code

/-- What the functions use of the image. `refcounts` are the structures that cluster allocation works on, and at a
broken byte the file cannot be read or written. -/
structure QcowState (ρ : Type) where
  refcounts : ρ
  file : Int → Byte
  broken : Int → Bool
  snapshots : List QCowSnapshot
  snapshotsOffset : Int
  snapshotsSize : Int

abbrev Io (ρ : Type) := EStateM Handles.Stop (QcowState ρ)

variable {ρ : Type}

def int32 (x : Int) : Int := Int.bmod x (2 ^ 32)

def strlen (s : List Byte) : Nat := (s.takeWhile (· ≠ 0)).length

/-- `n` is a power of two. -/
def alignOffset (offset n : Int) : Int := offset + n - 1 - (offset + n - 1) % n

/-- The functions return -1 when an access to the file fails. -/
def fail : Handles.Stop := .failed 1

def works (s : QcowState ρ) (offset : Int) (n : Nat) : Bool := (List.range n).all fun k ↦ !s.broken (offset + k)

def bdrvPread (offset : Int) (n : Nat) : Io ρ (List Byte) := do
  let s ← get
  if works s offset n then pure (imageBytes s.file offset n) else throw fail

def bdrvPwriteSync (offset : Int) (bytes : List Byte) : Io ρ Unit := do
  let s ← get
  if works s offset bytes.length then set { s with file := storeBytes s.file offset bytes } else throw fail

def readSnapshot (offset : Int) : Io ρ (QCowSnapshot × Int) := do
  let bytes ← bdrvPread offset 40
  let h := (getHeader bytes).1
  let idStr ← bdrvPread (offset + 40 + h.extraDataSize.toNat) h.idStrSize.toNat
  let name ← bdrvPread (offset + 40 + h.extraDataSize.toNat + h.idStrSize.toNat) h.nameSize.toNat
  let sn : QCowSnapshot := {
    l1TableOffset := h.l1TableOffset
    l1Size := h.l1Size
    idStr, name
    vmStateSize := h.vmStateSize
    dateSec := h.dateSec
    dateNsec := h.dateNsec
    vmClockNsec := h.vmClockNsec }
  pure (sn, offset + 40 + h.extraDataSize.toNat + h.idStrSize.toNat + h.nameSize.toNat)

def readLoop : Nat → Int → Io ρ (List QCowSnapshot × Int)
  | 0, offset => pure ([], offset)
  | n + 1, offset => do
    let (sn, offset) ← readSnapshot (alignOffset offset 8)
    let (rest, offset) ← readLoop n offset
    pure (sn :: rest, offset)

/-- `qcow2_read_snapshots`. On a failure there are no snapshots. -/
def readSnapshots (nbSnapshots : Nat) : Io ρ Unit := fun s ↦
  if nbSnapshots = 0 then .ok () { s with snapshots := [], snapshotsSize := 0 }
  else
    match readLoop nbSnapshots s.snapshotsOffset s with
    | .ok (snapshots, offset) t => .ok () { t with snapshots, snapshotsSize := int32 (offset - s.snapshotsOffset) }
    | .error e t => .error e { t with snapshots := [] }

/-- The offset after the pass that computes the size. -/
def sizePass : List QCowSnapshot → Int → Int
  | [], offset => offset
  | sn :: rest, offset => sizePass rest (alignOffset offset 8 + 40 + strlen sn.idStr + strlen sn.name)

def headerOf (sn : QCowSnapshot) : QCowSnapshotHeader where
  l1TableOffset := sn.l1TableOffset
  l1Size := sn.l1Size
  vmStateSize := sn.vmStateSize
  dateSec := sn.dateSec
  dateNsec := sn.dateNsec
  vmClockNsec := sn.vmClockNsec
  idStrSize := BitVec.ofNat 16 (strlen sn.idStr)
  nameSize := BitVec.ofNat 16 (strlen sn.name)
  extraDataSize := 0

def writeSnapshot (sn : QCowSnapshot) (offset : Int) : Io ρ Int := do
  bdrvPwriteSync offset (putHeader (headerOf sn))
  bdrvPwriteSync (offset + 40) (sn.idStr.take (strlen sn.idStr))
  bdrvPwriteSync (offset + 40 + strlen sn.idStr) (sn.name.take (strlen sn.name))
  pure (offset + 40 + strlen sn.idStr + strlen sn.name)

def writeLoop : List QCowSnapshot → Int → Io ρ Int
  | [], offset => pure offset
  | sn :: rest, offset => do
    let offset ← writeSnapshot sn (alignOffset offset 8)
    writeLoop rest offset

variable (alloc : Int → EStateM Handles.Stop ρ Int) (free : Int → Int → ρ → ρ)

def qcow2AllocClusters (size : Int) : Io ρ Int := fun s ↦
  match alloc size s.refcounts with
  | .ok offset refcounts => .ok offset { s with refcounts }
  | .error e refcounts => .error e { s with refcounts }

/-- The places of `snapshots_offset` and `nb_snapshots` in the header of the image. -/
def writeHeader (offset : Int) (nbSnapshots : Nat) : Io ρ Unit := do
  bdrvPwriteSync 64 (putBe 8 offset.toNat)
  bdrvPwriteSync 60 (putBe 4 nbSnapshots)

/-- `qcow2_write_snapshots`, given how clusters are allocated and freed. -/
def writeSnapshots : Io ρ Unit := do
  let s ← get
  let snapshotsSize := int32 (sizePass s.snapshots 0)
  let offset ← qcow2AllocClusters alloc snapshotsSize
  if offset < 0 then throw (.failed offset.natAbs)
  else do
    let _ ← writeLoop s.snapshots offset
    writeHeader offset s.snapshots.length
    modify fun t ↦ { t with
      refcounts := free s.snapshotsOffset s.snapshotsSize t.refcounts
      snapshotsOffset := offset
      snapshotsSize }

end Code

section Meaning

variable {ρ : Type}

/-- What the claim of a name or an id in the header holds. -/
def CString (s : List Byte) : Prop := 0 ∉ s ∧ s.length < 65536

/-- The number of bytes from the first header to the end of the last name. -/
def tableSize (snapshots : List QCowSnapshot) : Int := sizePass snapshots 0

/-- The table takes the bytes that were computed for it, no other byte has changed but for the header of the image, and
the table is read again as it was. -/
def Exact (s : QcowState ρ) : EStateM.Result Handles.Stop (QcowState ρ) Unit → Prop
  | .ok _ t =>
    (∃ u, writeLoop s.snapshots t.snapshotsOffset t = .ok (t.snapshotsOffset + t.snapshotsSize) u) ∧
      (∀ a, ¬ (t.snapshotsOffset ≤ a ∧ a < t.snapshotsOffset + t.snapshotsSize) → ¬ (60 ≤ a ∧ a < 72) →
        t.file a = s.file a) ∧
      ∀ u : QcowState ρ, u.file = t.file → u.broken = t.broken → u.snapshotsOffset = t.snapshotsOffset →
        readSnapshots s.snapshots.length u =
          .ok () { u with snapshots := s.snapshots, snapshotsSize := t.snapshotsSize }
  | .error _ _ => False

/-- Clusters are found for the table behind the header of the image, and the file works there. -/
structure Room (alloc : Int → EStateM Handles.Stop ρ Int) (s : QcowState ρ) : Prop where
  aligned : ∀ size r offset r', alloc size r = .ok offset r' → 8 ∣ offset
  found : ∃ offset r, alloc (tableSize s.snapshots) s.refcounts = .ok offset r ∧ 0 ≤ offset ∧
    (s.snapshots ≠ [] → 72 ≤ offset) ∧
    ∀ a, offset ≤ a → a < offset + tableSize s.snapshots → s.broken a = false
  header : ∀ a, 60 ≤ a → a < 72 → s.broken a = false

end Meaning

section Passes

variable {snapshots : List QCowSnapshot} {offset a k : Int}

theorem alignOffset_add (h : 8 ∣ a) : alignOffset (a + k) 8 = a + alignOffset k 8 := by
  obtain ⟨b, rfl⟩ := h
  unfold alignOffset
  omega

theorem le_alignOffset (offset : Int) : offset ≤ alignOffset offset 8 := by
  unfold alignOffset
  omega

theorem sizePass_add (h : 8 ∣ a) : sizePass snapshots (a + k) = a + sizePass snapshots k := by
  induction snapshots generalizing k with
  | nil => rfl
  | cons sn rest ih =>
    rw [sizePass, sizePass, alignOffset_add h, Int.add_assoc a, Int.add_assoc a, Int.add_assoc a, ih]

/-- The table has the same size wherever it begins. -/
theorem sizePass_aligned (h : 8 ∣ offset) : sizePass snapshots offset = offset + tableSize snapshots := by
  have hadd : sizePass snapshots (offset + 0) = _ := sizePass_add h
  rwa [Int.add_zero] at hadd

theorem le_sizePass (snapshots : List QCowSnapshot) (offset : Int) : offset ≤ sizePass snapshots offset := by
  induction snapshots generalizing offset with
  | nil => exact Int.le_refl offset
  | cons sn rest ih =>
    have hrest := ih (alignOffset offset 8 + 40 + strlen sn.idStr + strlen sn.name)
    have halign := le_alignOffset offset
    rw [sizePass]
    omega

end Passes

section Records

variable {ρ : Type} {s t u : QcowState ρ} {sn : QCowSnapshot} {offset e : Int} {bytes : List Byte}

theorem strlen_eq {s : List Byte} (h : CString s) : strlen s = s.length := by
  have hall : ∀ b ∈ s, decide (b ≠ 0) = true := fun b hb ↦ decide_eq_true fun hzero ↦ h.1 (hzero ▸ hb)
  rw [strlen, List.takeWhile_eq_self_iff.mpr hall]

/-- The bytes of a snapshot in the table. -/
def record (sn : QCowSnapshot) : List Byte := putHeader (headerOf sn) ++ sn.idStr ++ sn.name

theorem length_record (sn : QCowSnapshot) :
    ((record sn).length : Int) = 40 + sn.idStr.length + sn.name.length := by
  rw [record, List.length_append, List.length_append, length_putHeader]
  omega

def Named (sn : QCowSnapshot) : Prop := CString sn.idStr ∧ CString sn.name

theorem sizePass_cons (h : Named sn) (rest : List QCowSnapshot) :
    sizePass (sn :: rest) offset = sizePass rest (alignOffset offset 8 + (record sn).length) := by
  rw [sizePass, strlen_eq h.1, strlen_eq h.2, length_record]
  congr 1
  omega

theorem works_of {n : Nat} (h : ∀ a, offset ≤ a → a < offset + n → s.broken a = false) : works s offset n = true := by
  refine List.all_eq_true.mpr fun k hk ↦ ?_
  have hlt := List.mem_range.mp hk
  rw [h _ (by omega) (by omega)]
  rfl

/-- What is written behind other bytes. -/
theorem bdrvPwriteSync_behind (s : QcowState ρ) (offset : Int) (xs ys : List Byte)
    (h : ∀ a, offset + xs.length ≤ a → a < offset + (xs ++ ys).length → s.broken a = false) :
    bdrvPwriteSync (offset + xs.length) ys { s with file := storeBytes s.file offset xs } =
      .ok () { s with file := storeBytes s.file offset (xs ++ ys) } := by
  have hworks : works { s with file := storeBytes s.file offset xs } (offset + xs.length) ys.length = true :=
    works_of fun a ha ha' ↦ h a ha (by rw [List.length_append]; omega)
  rw [bdrvPwriteSync, get_bind, if_pos hworks, ← Block.Pwrite.storeBytes_append]
  rfl

theorem bdrvPwriteSync_ok (h : ∀ a, offset ≤ a → a < offset + bytes.length → s.broken a = false) :
    bdrvPwriteSync offset bytes s = .ok () { s with file := storeBytes s.file offset bytes } := by
  rw [bdrvPwriteSync, get_bind, if_pos (works_of h)]
  rfl

theorem bdrvPread_ok {n : Nat} (h : ∀ a, offset ≤ a → a < offset + n → s.broken a = false) :
    bdrvPread offset n s = .ok (imageBytes s.file offset n) s := by
  rw [bdrvPread, get_bind, if_pos (works_of h)]
  rfl

theorem writeSnapshot_ok (hn : Named sn)
    (h : ∀ a, offset ≤ a → a < offset + (record sn).length → s.broken a = false) :
    writeSnapshot sn offset s =
      .ok (offset + (record sn).length) { s with file := storeBytes s.file offset (record sn) } := by
  have hlength := length_record sn
  have hheader := length_putHeader (headerOf sn)
  have happend : (putHeader (headerOf sn) ++ sn.idStr).length = _ := List.length_append
  have hwrite : bdrvPwriteSync offset (putHeader (headerOf sn)) s = _ :=
    bdrvPwriteSync_ok fun a ha ha' ↦ h a ha (by omega)
  have hid := bdrvPwriteSync_behind s offset (putHeader (headerOf sn)) sn.idStr fun a ha ha' ↦
    h a (by omega) (by omega)
  have hname := bdrvPwriteSync_behind s offset (putHeader (headerOf sn) ++ sn.idStr) sn.name fun a ha ha' ↦
    h a (by omega) ha'
  rw [hheader] at hid
  rw [happend, hheader, Int.natCast_add, ← Int.add_assoc] at hname
  rw [writeSnapshot, strlen_eq hn.1, strlen_eq hn.2, List.take_length, List.take_length, bind_eq hwrite]
  refine (bind_eq hid).trans ((bind_eq hname).trans ?_)
  rw [hlength, ← Int.add_assoc, ← Int.add_assoc]
  rfl

theorem getHeader_putHeader (h : QCowSnapshotHeader) : (getHeader (putHeader h)).1 = h := by
  have hread := reads_getHeader h []
  rw [List.append_nil] at hread
  rw [hread]

/-- The parts of a snapshot in the file. -/
theorem parts_of_record (h : imageBytes u.file offset (record sn).length = record sn) :
    imageBytes u.file offset 40 = putHeader (headerOf sn) ∧
      imageBytes u.file (offset + 40) sn.idStr.length = sn.idStr ∧
      imageBytes u.file (offset + 40 + sn.idStr.length) sn.name.length = sn.name := by
  have hlength : (record sn).length = 40 + (sn.idStr.length + sn.name.length) := by
    have hlength := length_record sn
    omega
  have hsplit : record sn = putHeader (headerOf sn) ++ (sn.idStr ++ sn.name) := List.append_assoc _ _ _
  rw [hlength, ← Block.imageBytes_append, ← Block.imageBytes_append, hsplit] at h
  obtain ⟨hheader, hrest⟩ := List.append_inj h (by rw [Block.length_imageBytes, length_putHeader])
  obtain ⟨hid, hname⟩ := List.append_inj hrest (by rw [Block.length_imageBytes])
  exact ⟨hheader, hid, hname⟩

theorem readSnapshot_ok (hn : Named sn) (himage : imageBytes u.file offset (record sn).length = record sn)
    (h : ∀ a, offset ≤ a → a < offset + (record sn).length → u.broken a = false) :
    readSnapshot offset u = .ok (sn, offset + (record sn).length) u := by
  have hlength := length_record sn
  obtain ⟨hheader, hid, hname⟩ := parts_of_record himage
  have hextra : ((headerOf sn).extraDataSize.toNat : Int) = 0 := rfl
  have hidSize : (headerOf sn).idStrSize.toNat = sn.idStr.length := by
    rw [headerOf, strlen_eq hn.1, BitVec.toNat_ofNat]
    exact Nat.mod_eq_of_lt hn.1.2
  have hnameSize : (headerOf sn).nameSize.toNat = sn.name.length := by
    rw [headerOf, strlen_eq hn.2, BitVec.toNat_ofNat]
    exact Nat.mod_eq_of_lt hn.2.2
  have hreadHeader : bdrvPread offset 40 u = .ok (putHeader (headerOf sn)) u := by
    rw [bdrvPread_ok fun a ha ha' ↦ h a ha (by omega), hheader]
  have hreadId : bdrvPread (offset + 40) sn.idStr.length u = .ok sn.idStr u := by
    rw [bdrvPread_ok fun a ha ha' ↦ h a (by omega) (by omega), hid]
  have hreadName : bdrvPread (offset + 40 + sn.idStr.length) sn.name.length u = .ok sn.name u := by
    rw [bdrvPread_ok fun a ha ha' ↦ h a (by omega) (by omega), hname]
  rw [readSnapshot, bind_eq hreadHeader, getHeader_putHeader, hextra, hidSize, hnameSize, Int.add_zero,
    bind_eq hreadId, bind_eq hreadName, hlength, ← Int.add_assoc, ← Int.add_assoc]
  rfl

end Records

section Loops

variable {ρ : Type} {s t : QcowState ρ} {snapshots : List QCowSnapshot} {offset e : Int}

/-- The table is written in its place, and nowhere else, and what reads these bytes gets the snapshots back. -/
theorem writeLoop_ok (hnames : ∀ sn ∈ snapshots, Named sn)
    (hworks : ∀ a, offset ≤ a → a < sizePass snapshots offset → s.broken a = false) :
    ∃ f, writeLoop snapshots offset s = .ok (sizePass snapshots offset) { s with file := f } ∧
      (∀ a, ¬ (offset ≤ a ∧ a < sizePass snapshots offset) → f a = s.file a) ∧
      ∀ u : QcowState ρ, (∀ a, offset ≤ a → a < sizePass snapshots offset → u.file a = f a ∧ u.broken a = false) →
        readLoop snapshots.length offset u = .ok (snapshots, sizePass snapshots offset) u := by
  induction snapshots generalizing offset s with
  | nil => exact ⟨s.file, rfl, fun a _ ↦ rfl, fun u _ ↦ rfl⟩
  | cons sn rest ih =>
    have hn := hnames sn List.mem_cons_self
    have halign := le_alignOffset offset
    have hrest := le_sizePass rest (alignOffset offset 8 + (record sn).length)
    rw [sizePass_cons hn] at hworks ⊢
    have hwrite : writeSnapshot sn (alignOffset offset 8) s = _ :=
      writeSnapshot_ok hn fun a ha ha' ↦ hworks a (by omega) (by omega)
    have hworks' : ∀ a, alignOffset offset 8 + (record sn).length ≤ a →
        a < sizePass rest (alignOffset offset 8 + (record sn).length) →
        QcowState.broken { s with file := storeBytes s.file (alignOffset offset 8) (record sn) } a = false :=
      fun a ha ha' ↦ hworks a (by omega) ha'
    obtain ⟨f, hloop, hframe, hread⟩ := ih (fun sn' hsn' ↦ hnames sn' (List.mem_cons_of_mem _ hsn')) hworks'
    refine ⟨f, ?_, fun a ha ↦ ?_, fun u hu ↦ ?_⟩
    · rw [writeLoop]
      exact (bind_eq hwrite).trans hloop
    · rw [hframe a (by omega)]
      exact Block.Pwrite.storeBytes_outside (by omega)
    · have himage : imageBytes u.file (alignOffset offset 8) (record sn).length = record sn := by
        rw [Block.Pwrite.imageBytes_congr fun i hi ↦ (hu _ (by omega) (by omega)).1.trans (hframe _ (by omega))]
        exact Block.Pwrite.imageBytes_storeBytes _ _ _
      have hfirst := readSnapshot_ok hn himage fun a ha ha' ↦ (hu a (by omega) (by omega)).2
      have htail := hread u fun a ha ha' ↦ hu a (by omega) ha'
      rw [List.length_cons, readLoop]
      refine (bind_eq hfirst).trans ((bind_eq htail).trans ?_)
      rfl

theorem writeSnapshot_offset {sn : QCowSnapshot} (h : writeSnapshot sn offset s = .ok e t) :
    e = offset + 40 + strlen sn.idStr + strlen sn.name := by
  obtain ⟨_, _, -, h⟩ := bind_ok h
  obtain ⟨_, _, -, h⟩ := bind_ok h
  obtain ⟨_, _, -, h⟩ := bind_ok h
  cases h
  rfl

theorem writeLoop_offset (h : writeLoop snapshots offset s = .ok e t) : e = sizePass snapshots offset := by
  induction snapshots generalizing offset s with
  | nil =>
    cases h
    rfl
  | cons sn rest ih =>
    obtain ⟨next, u, hfirst, hrest⟩ := bind_ok h
    rw [ih hrest, writeSnapshot_offset hfirst, sizePass]

end Loops

section Table

variable {ρ : Type} {alloc : Int → EStateM Handles.Stop ρ Int} {free : Int → Int → ρ → ρ} {s t : QcowState ρ}
  {offset : Int}

theorem allocClusters_ok {size : Int} (h : qcow2AllocClusters alloc size s = .ok offset t) :
    ∃ r, alloc size s.refcounts = .ok offset r ∧ t = { s with refcounts := r } := by
  unfold qcow2AllocClusters at h
  cases halloc : alloc size s.refcounts with
  | ok a r =>
    rw [halloc] at h
    cases h
    exact ⟨r, rfl, rfl⟩
  | error e r =>
    rw [halloc] at h
    cases h

/-- The offset and the size of a table that has been written. -/
theorem writeSnapshots_fields (haligned : ∀ size r offset r', alloc size r = .ok offset r' → 8 ∣ offset)
    (h : writeSnapshots alloc free s = .ok () t) :
    8 ∣ t.snapshotsOffset ∧ t.snapshotsSize = int32 (tableSize s.snapshots) := by
  rw [writeSnapshots, get_bind] at h
  obtain ⟨offset, u, halloc, h⟩ := bind_ok h
  split_ifs at h
  · cases h
  · obtain ⟨e, v, -, h⟩ := bind_ok h
    obtain ⟨_, w, -, h⟩ := bind_ok h
    cases h
    obtain ⟨r, hr, -⟩ := allocClusters_ok halloc
    exact ⟨haligned _ _ _ _ hr, rfl⟩

theorem int32_eq_iff {x : Int} (hx : 0 ≤ x) : int32 x = x ↔ x < 2 ^ 31 := by
  rw [int32, Int.bmod]
  omega

theorem tableSize_nonneg (snapshots : List QCowSnapshot) : 0 ≤ tableSize snapshots := le_sizePass snapshots 0

theorem writeHeader_ok (nb : Nat) (h : ∀ a, 60 ≤ a → a < 72 → s.broken a = false) :
    writeHeader offset nb s =
      .ok () { s with file := storeBytes (storeBytes s.file 64 (putBe 8 offset.toNat)) 60 (putBe 4 nb) } := by
  have hlength (n x : Nat) := length_putBe n x
  have hfirst : bdrvPwriteSync 64 (putBe 8 offset.toNat) s = _ := bdrvPwriteSync_ok fun a ha ha' ↦ by
    rw [hlength] at ha'
    exact h a (by omega) (by omega)
  have hsecond : bdrvPwriteSync 60 (putBe 4 nb) { s with file := storeBytes s.file 64 (putBe 8 offset.toNat) } = _ :=
    bdrvPwriteSync_ok fun a ha ha' ↦ by
      rw [hlength] at ha'
      exact h a (by omega) (by omega)
  exact (bind_eq hfirst).trans hsecond

theorem Room.inside (hroom : Room alloc s) {r : ρ} (halloc : alloc (tableSize s.snapshots) s.refcounts = .ok offset r) :
    0 ≤ offset ∧ (∀ a, offset ≤ a → a < sizePass s.snapshots offset → 72 ≤ a ∧ s.broken a = false) := by
  obtain ⟨offset', r', halloc', hpos, hbehind, hworks⟩ := hroom.found
  rw [halloc] at halloc'
  cases halloc'
  refine ⟨hpos, fun a ha ha' ↦ ⟨?_, hworks a ha ?_⟩⟩
  · have hne : s.snapshots ≠ [] := by
      intro hnil
      rw [hnil, sizePass] at ha'
      omega
    exact (hbehind hne).trans ha
  · rwa [sizePass_aligned (hroom.aligned _ _ _ _ halloc)] at ha'

/-- The run that writes the table, and then the header of the image. -/
theorem writeSnapshots_ok (free : Int → Int → ρ → ρ) (hnames : ∀ sn ∈ s.snapshots, Named sn) (hroom : Room alloc s)
    (hsize : tableSize s.snapshots < 2 ^ 31) :
    ∃ (offset : Int) (f : Int → Byte) (t : QcowState ρ), writeSnapshots alloc free s = .ok () t ∧
      (t.snapshotsOffset = offset ∧ t.snapshotsSize = tableSize s.snapshots ∧ t.broken = s.broken) ∧
      sizePass s.snapshots offset = offset + tableSize s.snapshots ∧
      (∀ a, offset ≤ a → a < sizePass s.snapshots offset → 72 ≤ a ∧ s.broken a = false) ∧
      (∀ a, ¬ (60 ≤ a ∧ a < 72) → t.file a = f a) ∧
      (∀ a, ¬ (offset ≤ a ∧ a < sizePass s.snapshots offset) → f a = s.file a) ∧
      ∀ u : QcowState ρ,
        (∀ a, offset ≤ a → a < sizePass s.snapshots offset → u.file a = f a ∧ u.broken a = false) →
        readLoop s.snapshots.length offset u = .ok (s.snapshots, sizePass s.snapshots offset) u := by
  obtain ⟨offset, r, halloc, -⟩ := hroom.found
  obtain ⟨hpos, hinside⟩ := hroom.inside halloc
  have hint := (int32_eq_iff (tableSize_nonneg s.snapshots)).mpr hsize
  obtain ⟨f, hloop, hframe, hread⟩ := writeLoop_ok (s := { s with refcounts := r }) hnames fun a ha ha' ↦
    (hinside a ha ha').2
  have hheader : writeHeader offset s.snapshots.length { s with refcounts := r, file := f } = _ :=
    writeHeader_ok s.snapshots.length hroom.header
  have hfound : qcow2AllocClusters alloc (int32 (sizePass s.snapshots 0)) s = .ok offset { s with refcounts := r } := by
    change qcow2AllocClusters alloc (int32 (tableSize s.snapshots)) s = _
    rw [hint, qcow2AllocClusters, halloc]
  have hrun : writeSnapshots alloc free s = .ok () {
      s with
      refcounts := free s.snapshotsOffset s.snapshotsSize r
      file := storeBytes (storeBytes f 64 (putBe 8 offset.toNat)) 60 (putBe 4 s.snapshots.length)
      snapshotsOffset := offset
      snapshotsSize := int32 (tableSize s.snapshots) } := by
    rw [writeSnapshots, get_bind]
    refine (bind_eq hfound).trans ?_
    rw [if_neg (by omega)]
    exact (bind_eq hloop).trans (bind_eq hheader)
  refine ⟨offset, f, _, hrun, ⟨rfl, hint, rfl⟩, sizePass_aligned (hroom.aligned _ _ _ _ halloc), hinside,
    fun a ha ↦ ?_, hframe, hread⟩
  have hlength (n x : Nat) := length_putBe n x
  change storeBytes (storeBytes f 64 (putBe 8 offset.toNat)) 60 (putBe 4 s.snapshots.length) a = f a
  rw [Block.Pwrite.storeBytes_outside (by rw [hlength]; omega),
    Block.Pwrite.storeBytes_outside (by rw [hlength]; omega)]

theorem writeSnapshots_exact (hnames : ∀ sn ∈ s.snapshots, Named sn) (hroom : Room alloc s)
    (hsize : tableSize s.snapshots < 2 ^ 31) : Exact s (writeSnapshots alloc free s) := by
  obtain ⟨offset, f, t, hrun, ⟨hplace, htotal, hbroken⟩, hend, hinside, hfile, hframe, hread⟩ :=
    writeSnapshots_ok free hnames hroom hsize
  rw [hrun, Exact, hplace, htotal, ← hend]
  refine ⟨?_, fun a ha ha' ↦ (hfile a ha').trans (hframe a ha), fun u hu hu' hu'' ↦ ?_⟩
  · obtain ⟨f', hloop, -⟩ := writeLoop_ok (s := t) hnames fun a ha ha' ↦ by
      rw [hbroken]
      exact (hinside a ha ha').2
    exact ⟨_, hloop⟩
  · have hloop := hread u fun a ha ha' ↦ by
      have hle := hinside a ha ha'
      rw [hu, hu', hbroken]
      exact ⟨hfile a (by omega), hle.2⟩
    unfold readSnapshots
    split_ifs with hzero
    · rw [List.length_eq_zero_iff.mp hzero]
      rfl
    · have hdiff : sizePass s.snapshots offset - offset = tableSize s.snapshots := by omega
      rw [hu'', hloop]
      dsimp only
      rw [hdiff, (int32_eq_iff (tableSize_nonneg _)).mpr hsize, hu'']

/-- A table that takes the bytes that were computed is not too large for the `int`. -/
theorem Exact.size_lt (haligned : ∀ size r offset r', alloc size r = .ok offset r' → 8 ∣ offset)
    (h : Exact s (writeSnapshots alloc free s)) : tableSize s.snapshots < 2 ^ 31 := by
  cases hrun : writeSnapshots alloc free s with
  | error e t =>
    rw [hrun] at h
    exact h.elim
  | ok _ t =>
    rw [hrun] at h
    obtain ⟨⟨u, hend⟩, -⟩ := h
    obtain ⟨hdvd, hsize⟩ := writeSnapshots_fields haligned hrun
    have hoffset := writeLoop_offset hend
    rw [sizePass_aligned hdvd, hsize] at hoffset
    rw [← int32_eq_iff (tableSize_nonneg _)]
    omega

theorem table_exact_iff (alloc : Int → EStateM Handles.Stop ρ Int) (free : Int → Int → ρ → ρ) (s : QcowState ρ)
    (hnames : ∀ sn ∈ s.snapshots, Named sn) (hroom : Room alloc s) :
    Exact s (writeSnapshots alloc free s) ↔ tableSize s.snapshots < 2 ^ 31 :=
  ⟨Exact.size_lt hroom.aligned, writeSnapshots_exact hnames hroom⟩

end Table

section Allocator

variable {g : Geometry} {addBlock : Int → Counts.Io (Nat × Int)} {r r' : Counts.Refcounts} {nb size offset : Int}

theorem searchFree_le (fuel i : Nat) (hi : i ≤ r.freeClusterIndex)
    (h : Counts.searchFree g nb fuel i r = .ok offset r') : nb ≤ r'.freeClusterIndex := by
  induction fuel generalizing r i with
  | zero => cases h
  | succ fuel ih =>
    rw [Counts.searchFree, get_bind] at h
    split_ifs at h with hdone
    · obtain ⟨-, -, rfl⟩ := Counts.int64_ok h
      omega
    · exact ih (i + 1) (Nat.succ_le_succ hi) h
    · exact ih 0 (Nat.zero_le _) h

/-- Clusters that have been allocated. -/
theorem allocClusters_searched {fuel depth : Nat}
    (h : Counts.allocClusters g addBlock fuel depth size r = .ok offset r') :
    ∃ u, Counts.Searched g (Int.bmod ((size + (g.clusterSize - 1)) / g.clusterSize) (2 ^ 32)) offset r u ∧
      Int.bmod ((size + (g.clusterSize - 1)) / g.clusterSize) (2 ^ 32) ≤ u.freeClusterIndex := by
  obtain ⟨offset', u, hsearch, hrest⟩ := bind_ok h
  obtain ⟨_, v, -, hpure⟩ := bind_ok hrest
  cases hpure
  obtain ⟨rounded, w, hrounded, hfree⟩ := bind_ok hsearch
  obtain ⟨-, rfl, rfl⟩ := Counts.int64_ok hrounded
  exact ⟨u, Counts.searchFree_searched fuel 0 ⟨Nat.zero_le _, fun c hc hc' ↦ by omega⟩ (fun h ↦ h) hfree,
    searchFree_le fuel 0 (Nat.zero_le _) hfree⟩

theorem allocClusters_aligned {fuel depth : Nat}
    (h : Counts.allocClusters g addBlock fuel depth size r = .ok offset r') : 8 ∣ offset := by
  obtain ⟨u, hu, -⟩ := allocClusters_searched h
  have hlower := g.lower
  have hdvd : (8 : Int) ∣ g.clusterSize := by
    have hpow : 2 ^ 3 ∣ 2 ^ g.clusterBits := Nat.pow_dvd_pow 2 (by omega)
    exact_mod_cast hpow
  rw [hu.offset_eq]
  exact Dvd.dvd.mul_left hdvd _

/-- `qcow2_alloc_clusters` makes room for a table if the header of the image is in use. -/
theorem room_allocClusters {fuel depth : Nat} {s : QcowState Counts.Refcounts}
    (hheader : Counts.getRefcount g s.refcounts 0 ≠ 0) (hsize : tableSize s.snapshots < 2 ^ 31)
    (hworks : ∀ a, s.broken a = false)
    (h : Counts.allocClusters g addBlock fuel depth (tableSize s.snapshots) s.refcounts = .ok offset r') :
    Room (Counts.allocClusters g addBlock fuel depth) s := by
  obtain ⟨u, hu, hle⟩ := allocClusters_searched h
  have hpos := Counts.clusterSize_pos (g := g)
  refine ⟨fun _ _ _ _ ↦ allocClusters_aligned, ⟨offset, r', h, ?_, fun hne ↦ ?_, fun a _ _ ↦ hworks a⟩,
    fun a _ _ ↦ hworks a⟩
  · rw [hu.offset_eq]
    exact Int.mul_nonneg (by omega) hpos.le
  · -- the clusters that were found are free, and that of the header is not
    have hsome : 0 < tableSize s.snapshots := by
      obtain ⟨sn, rest, hcons⟩ := List.exists_cons_of_ne_nil hne
      have hle := le_sizePass rest (alignOffset 0 8 + 40 + strlen sn.idStr + strlen sn.name)
      have halign := le_alignOffset 0
      rw [hcons, tableSize, sizePass]
      omega
    have hlower := g.lower
    have hcluster : (512 : Int) ≤ g.clusterSize := by
      have hpow : 2 ^ 9 ≤ 2 ^ g.clusterBits := Nat.pow_le_pow_right (by decide) hlower
      exact_mod_cast hpow
    have hfew : tableSize s.snapshots ≤ (2 ^ 31 - 1) * g.clusterSize :=
      (by omega : tableSize s.snapshots ≤ (2 ^ 31 - 1) * 512).trans (Int.mul_le_mul_of_nonneg_left hcluster (by decide))
    have hnb := Counts.clusters_eq (g := g) hsome hfew
    have hdiv := Int.ediv_nonneg (by omega : 0 ≤ tableSize s.snapshots - 1) hpos.le
    have hfirst : (1 : Int) ≤ u.freeClusterIndex -
        Int.bmod ((tableSize s.snapshots + (g.clusterSize - 1)) / g.clusterSize) (2 ^ 32) := by
      by_contra hzero
      exact hheader (hu.free 0 (by omega) (by omega))
    have hmul := Int.mul_le_mul_of_nonneg_right hfirst hpos.le
    rw [hu.offset_eq]
    omega

end Allocator

section Images

/-- An image in which the first block counts two clusters. -/
def smallImage (snapshots : List QCowSnapshot) : QcowState Counts.Refcounts where
  refcounts := Counts.oneBlock
  file _ := 0
  broken _ := false
  snapshots := snapshots
  snapshotsOffset := 0
  snapshotsSize := 0

def snapshot (idStr name : List Byte) : QCowSnapshot := ⟨0x50000, 1, idStr, name, 0, 1300000000, 5, 77⟩

theorem table_exact_iff_smallImage :
    Exact (smallImage [snapshot [49] [97, 98], snapshot [50] []])
      (writeSnapshots (Counts.allocClusters .smallest Counts.noBlock 10 2) (fun _ _ r ↦ r)
        (smallImage [snapshot [49] [97, 98], snapshot [50] []])) := by
  have hroom : Room (Counts.allocClusters .smallest Counts.noBlock 10 2)
      (smallImage [snapshot [49] [97, 98], snapshot [50] []]) := by
    obtain ⟨r, halloc⟩ : ∃ r, Counts.allocClusters .smallest Counts.noBlock 10 2 89 Counts.oneBlock = .ok 1024 r :=
      ⟨_, rfl⟩
    exact room_allocClusters (by decide) (by decide) (fun _ ↦ rfl) halloc
  have hnames : ∀ sn ∈ (smallImage [snapshot [49] [97, 98], snapshot [50] []]).snapshots, Named sn := by
    rintro sn (_ | ⟨_, _ | ⟨_, ⟨⟩⟩⟩) <;> exact ⟨⟨by decide, by decide⟩, by decide, by decide⟩
  rw [table_exact_iff _ _ _ hnames hroom]
  decide

theorem le_sizePass_replicate (sn : QCowSnapshot) (n : Nat) (offset : Int) :
    offset + n * (strlen sn.name : Int) ≤ sizePass (List.replicate n sn) offset := by
  induction n generalizing offset with
  | zero => exact (by omega : offset + ((0 : Nat) : Int) * (strlen sn.name : Int) ≤ offset)
  | succ n ih =>
    have hrest := ih (alignOffset offset 8 + 40 + strlen sn.idStr + strlen sn.name)
    have halign := le_alignOffset offset
    rw [List.replicate_succ, sizePass, Int.natCast_succ, Int.add_mul]
    omega

def longName : List Byte := List.replicate 65535 97

theorem cstring_longName : CString longName := by
  refine ⟨fun hmem ↦ absurd (List.mem_replicate.mp hmem).2 (by decide), ?_⟩
  rw [longName, List.length_replicate]
  omega

/-- Names that come to more than `2 ^ 31` bytes. -/
def largeImage : QcowState Unit := ⟨(), fun _ ↦ 0, fun _ ↦ false, List.replicate 40000 (snapshot [49] longName), 0, 0⟩

theorem not_table_exact :
    ¬ ∀ (alloc : Int → EStateM Handles.Stop Unit Int) (s : QcowState Unit), (∀ sn ∈ s.snapshots, Named sn) →
      Room alloc s → Exact s (writeSnapshots alloc (fun _ _ r ↦ r) s) := by
  intro hall
  obtain ⟨s, hnames, hroom, hlarge⟩ : ∃ s : QcowState Unit, (∀ sn ∈ s.snapshots, Named sn) ∧
      Room (fun _ r ↦ .ok 1048576 r) s ∧ 2 ^ 31 ≤ tableSize s.snapshots := by
    refine ⟨largeImage, fun sn hmem ↦ ?_, ⟨fun size r offset r' h ↦ ?_, ⟨1048576, (), rfl, by decide,
      fun _ ↦ by decide, fun _ _ _ ↦ rfl⟩, fun _ _ _ ↦ rfl⟩, ?_⟩
    · rw [(List.mem_replicate.mp hmem).2]
      exact ⟨⟨by decide, by decide⟩, cstring_longName⟩
    · cases h
      decide
    · have hle := le_sizePass_replicate (snapshot [49] longName) 40000 0
      have hlength : strlen (snapshot [49] longName).name = 65535 :=
        (strlen_eq cstring_longName).trans List.length_replicate
      rw [hlength] at hle
      exact (by omega : (2 ^ 31 : Int) ≤ 0 + ((40000 : Nat) : Int) * ((65535 : Nat) : Int)).trans hle
  have hlt := (hall _ s hnames hroom).size_lt hroom.aligned
  omega

end Images

end IDeviceEmulator.Qcow2.Snapshots
