import Mathlib.Algebra.Group.Int.Defs
import IDeviceEmulator.Block.Pread
import IDeviceEmulator.H2fmi.Pages

namespace IDeviceEmulator.H2fmi

open Bytes Buffer Block

/-- `val` of `initNandHash` after some steps. -/
def nandHash : Nat → Word
  | 0 => 0x50F4546A
  | n + 1 => 0x19660D * nandHash n + 0x3C6EF35F

/-- An entry of `h2fmi_hash_table`, each 763 steps after the last. -/
def hashTable (i : Nat) : Word := nandHash (763 * (i + 1))

/-- A byte of a word in memory. -/
def wordByte (w : Word) (i : Nat) : Byte := (w >>> (8 * i)).setWidth 8

inductive Which
  | buf0
  | buf1
deriving DecidableEq

/-- Bytes of the allocation of a buffer. -/
structure Range where
  buffer : Which
  first : Nat
  size : Nat
deriving DecidableEq

def Range.Within (r s : Range) : Prop := r.buffer = s.buffer ∧ s.first ≤ r.first ∧ r.first + r.size ≤ s.first + s.size

/-- How a page read ends: with a number, an error word, and what it mapped and touched of the
allocations of the two data buffers. -/
structure Outcome where
  state : Nand
  ret : Int
  err : Word
  mapped : List Range
  touched : List Range

/-- The bytes of a word of the hash table that a word of the spare bytes is combined with. -/
def hashBytes (table : Nat → Word) (addr : Word) (i : Nat) : List Byte :=
  (List.range 4).map (wordByte (table ((i + addr.toNat) % 256)))

def xorWord (table : Nat → Word) (addr : Word) (offset : Nat) (mem : List Byte) (i : Nat) : List Byte :=
  overwrite mem (offset + 4 * i) (((mem.drop (offset + 4 * i)).take 4).zipWith (· ^^^ ·) (hashBytes table addr i))

/-- The loop over the three words of the spare bytes. The words are printed before, so that all
are accessed. -/
def deWhiten (table : Nat → Word) (b : Buffer) (offset : Nat) (addr : Word) : Except Fault Buffer :=
  match b.ptr with
  | none => .error .nullDeref
  | some mem =>
    if mem.length < offset + 12 then .error .heapOverflow
    else .ok { b with ptr := some ((List.range 3).foldl (xorWord table addr offset) mem) }

variable (heap : Nat → Byte)

def errBytes (err : Word) : Vector Byte (4 : SizeT).toNat := Vector.ofFn fun i ↦ wordByte err i

/-- The error word is written once for each stage. -/
def writeErr (err : Word) : Nat → Buffer → Except Fault Buffer
  | 0, b => .ok b
  | n + 1, b => do
    let b ← bufferWrite heap b (errBytes err)
    writeErr err n b

/-- What is behind the label `done`. -/
def done (s : Nand) (ret : Int) (err : Word) (mapped touched : List Range) : Except Fault Outcome := do
  let eccbuf ← writeErr heap err s.eccStages.toNat s.eccbuf
  return ⟨{ s with eccbuf }, ret, err, mapped, touched⟩

variable (d : Disk) (s : Nand)

def pageMarker : Int × List Byte := pread d (pageOffset s s.addr).toInt 1

def pageData : Int × List Byte := pread d (pageOffset s s.addr + 1).toInt s.pageSize.toInt

def pageSpare : Int × List Byte :=
  pread d (pageOffset s s.addr + 1 + s.pageSize.setWidth 64).toInt (s.metaSize - 2).toInt

/-- The part of `h2fmi_do_read` behind the two calls of `h2fmi_buffer_map`. -/
def readMapped (buf0 : Buffer) (data : SizeT) (buf1 : Buffer) (spare : SizeT) : Except Fault Outcome :=
  let mapped : List Range := [⟨.buf0, data.toNat, s.pageSize.toNat⟩, ⟨.buf1, spare.toNat, (s.metaSize - 2).toNat⟩]
  if buf0.ptr = none ∨ buf1.ptr = none then done heap { s with buf0, buf1 } (pageMarker d s).1 4 mapped []
  else do
    let page := pageData d s
    let buf0 ← memcpyTo buf0 data page.2
    let touched : List Range := [⟨.buf0, data.toNat, page.2.length⟩]
    if page.1 ≤ 0 then done heap { s with buf0, buf1 } page.1 4 mapped touched
    else
      let rest := pageSpare d s
      let buf1 ← memcpyTo buf1 spare rest.2
      let touched := ⟨.buf1, spare.toNat, rest.2.length⟩ :: touched
      if rest.1 ≤ 0 then done heap { s with buf0, buf1 } rest.1 4 mapped touched
      else
        let buf1 ← deWhiten hashTable buf1 spare.toNat s.addr
        done heap { s with buf0, buf1 } rest.1 0 mapped (⟨.buf1, spare.toNat, 12⟩ :: touched)

/-- `h2fmi_do_read`. -/
def doRead : Except Fault Outcome :=
  if (pageMarker d s).1 ≤ 0 then done heap s (pageMarker d s).1 4 [] []
  else if (pageMarker d s).2 = [0] ∨ (pageMarker d s).2 = [0x30] then done heap s (pageMarker d s).1 0xa [] []
  else do
    let (buf0, data) ← bufferMap heap s.buf0 (s.pageSize.setWidth 64)
    let (buf1, spare) ← bufferMap heap s.buf1 ((s.metaSize - 2).setWidth 64)
    readMapped heap d s buf0 data buf1 spare

/-- The spare bytes of a page, each of the first twelve with its byte of the hash table. -/
def whiten (table : Nat → Word) (addr : Word) (bytes : List Byte) : List Byte :=
  bytes.mapIdx fun j b ↦ if j < 12 then b ^^^ wordByte (table ((j / 4 + addr.toNat) % 256)) (j % 4) else b

/-- There is a marker, and it is not that of an empty page. -/
def MarkedPage : Prop := 0 < (pageMarker d s).1 ∧ ¬ ((pageMarker d s).2 = [0] ∨ (pageMarker d s).2 = [0x30])

instance : Decidable (MarkedPage d s) := inferInstanceAs (Decidable (_ ∧ _))

/-- The page is not empty, and all reads succeed. -/
def Succeeds : Prop := MarkedPage d s ∧ 0 < (pageData d s).1 ∧ 0 < (pageSpare d s).1

instance : Decidable (Succeeds d s) := inferInstanceAs (Decidable (_ ∧ _))

/-- The page was read: its bytes and spare bytes are behind those that the buffers had, as are the
zero words, and no byte was touched that was not mapped. -/
structure Reads (out : Outcome) : Prop where
  data : out.state.buf0.contents =
    s.buf0.contents ++ imageBytes d.image ((pageOffset s s.addr).toInt + 1) s.pageSize.toNat
  spare : out.state.buf1.contents = s.buf1.contents ++ whiten hashTable s.addr
    (imageBytes d.image ((pageOffset s s.addr).toInt + 1 + s.pageSize.toNat) (s.metaSize.toNat - 2))
  ecc : out.state.eccbuf.contents = s.eccbuf.contents ++ List.replicate (4 * s.eccStages.toNat) 0
  within : ∀ t ∈ out.touched, ∃ r ∈ out.mapped, t.Within r

/-- The bytes of a buffer between those read and those written. -/
def Buffer.readable (b : Buffer) : List Byte := b.contents.drop b.cursor

/-- Nothing is left of a page read but the error words. -/
structure Clean (out : Outcome) : Prop where
  data : out.state.buf0.readable = s.buf0.readable
  spare : out.state.buf1.readable = s.buf1.readable
  ecc : out.state.eccbuf.contents =
    s.eccbuf.contents ++ (List.replicate s.eccStages.toNat (errBytes out.err).toList).flatten

section Mapping

/-- A buffer whose allocation has no more than a given number of bytes. -/
structure Buffer.Under (b : Buffer) (m : Nat) : Prop extends b.Sound where
  small : ∀ mem, b.ptr = some mem → mem.length ≤ m

/-- A buffer to which some bytes were added. -/
structure Extended (b t : Buffer) (bytes : List Byte) (m : Nat) : Prop extends t.Under m where
  contents : t.contents = b.contents ++ bytes
  cursor : t.cursor = b.cursor
  null : t.ptr = none ↔ b.ptr = none ∧ bytes = []

/-- More bytes of an allocation that has room for them. -/
theorem extended_of_some {b t : Buffer} {m : Nat} {mem mem' : List Byte} {sz : SizeT} (hptr : b.ptr = some mem)
    (htptr : t.ptr = some mem') (hread : t.read = b.read) (hwritten : t.written.toNat = b.written.toNat + sz.toNat)
    (hsize : mem'.length = t.size.toNat) (hroom : b.written.toNat + sz.toNat ≤ mem'.length)
    (hkept : mem'.take b.written.toNat = mem.take b.written.toNat) (hm : mem'.length ≤ m) :
    Extended b t ((mem'.drop b.written.toNat).take sz.toNat) m := by
  refine ⟨⟨⟨?_, ?_⟩, ?_⟩, ?_, ?_, ?_⟩
  · intro x hx
    obtain rfl := Option.some.inj (htptr.symm.trans hx)
    exact hsize
  · intro x hx
    obtain rfl := Option.some.inj (htptr.symm.trans hx)
    apply BitVec.le_def.mpr
    omega
  · intro x hx
    obtain rfl := Option.some.inj (htptr.symm.trans hx)
    exact hm
  · rw [contents_of_some htptr, contents_of_some hptr, hwritten, List.take_add, hkept]
  · rw [cursor_of_some htptr, cursor_of_some hptr, hread]
  · rw [htptr, hptr]
    constructor
    · intro h
      cases h
    · rintro ⟨h, -⟩
      cases h

/-- Mapping adds bytes of which nothing is known. -/
theorem bufferMap_ok {b : Buffer} {m : Nat} (sz : SizeT) (hb : b.Under m) (hm : m + sz.toNat + 512 < 2 ^ 63) :
    ∃ t offset tail, bufferMap heap b sz = .ok (t, offset) ∧ Extended b t tail (m + sz.toNat + 512) ∧
      tail.length = sz.toNat ∧ offset.toNat = b.contents.length := by
  unfold bufferMap
  cases hptr : b.ptr with
  | none =>
    rw [contents_of_none hptr]
    by_cases hsz : sz = 0
    · subst hsz
      refine ⟨_, _, [], rfl, ?_, rfl, rfl⟩
      have hnone : (({ bufferAlloc b 0 with written := 0 } : Buffer)).ptr = none := rfl
      refine ⟨⟨sound_of_none hnone, ?_⟩, ?_, ?_, ?_⟩
      · intro mem hmem
        cases hnone.symm.trans hmem
      · rw [contents_of_none hnone, contents_of_none hptr]
        rfl
      · rw [cursor_of_none hnone, cursor_of_none hptr]
      · exact iff_of_true hnone ⟨hptr, rfl⟩
    · have hpos : sz.toNat ≠ 0 := fun h ↦ hsz (BitVec.eq_of_toNat_eq h)
      refine ⟨_, _, List.replicate sz.toNat 0, rfl, ?_, List.length_replicate, rfl⟩
      rw [bufferAlloc, if_neg hsz]
      refine ⟨⟨⟨?_, fun _ _ ↦ BitVec.le_refl sz⟩, ?_⟩, ?_, ?_, ?_⟩
      · intro mem hmem
        cases hmem
        exact List.length_replicate
      · intro mem hmem
        cases hmem
        rw [List.length_replicate]
        omega
      · rw [contents_of_none hptr, List.nil_append]
        exact List.take_of_length_le (Nat.le_of_eq List.length_replicate)
      · rw [cursor_of_none hptr]
        rfl
      · apply iff_of_false
        · intro h
          cases h
        · rintro ⟨-, h⟩
          rw [List.replicate_eq_nil_iff] at h
          exact hpos h
  | some mem =>
    have hsize := hb.size mem hptr
    have hsmall := hb.small mem hptr
    have hwritten := BitVec.le_def.mp (hb.written mem hptr)
    have hsum : (b.written + sz).toNat = b.written.toNat + sz.toNat := by
      rw [BitVec.toNat_add, Nat.mod_eq_of_lt (by omega)]
    have hlength := length_contents hb.toSound hptr
    dsimp only
    by_cases hfull : b.size < b.written + sz
    · have hlt := BitVec.lt_def.mp hfull
      have hround := toNat_round (b.written + sz)
      rw [Nat.mod_eq_of_lt (by omega)] at hround
      rw [if_pos hfull, bufferRealloc_cases heap hptr (BitVec.not_lt.mpr (BitVec.le_of_lt hfull))]
      dsimp only
      generalize (b.written + sz + 512 - 1) / 512 * 512 = n at hround ⊢
      have hlen := length_qemuRealloc heap mem n.toNat
      rw [Nat.max_eq_left (by omega : 1 ≤ n.toNat)]
      refine ⟨_, _, ((qemuRealloc heap mem n.toNat).drop b.written.toNat).take sz.toNat, rfl, ?_, ?_, hlength.symm⟩
      · refine extended_of_some hptr ?_ ?_ ?_ ?_ ?_ ?_ ?_
        · rfl
        · rfl
        · exact hsum
        · exact hlen
        · rw [hlen]
          omega
        · apply take_qemuRealloc
          · omega
          · omega
        · rw [hlen]
          omega
      · rw [List.length_take, List.length_drop, hlen]
        omega
    · have hle := BitVec.le_def.mp (BitVec.not_lt.mp hfull)
      rw [if_neg hfull]
      refine ⟨_, _, (mem.drop b.written.toNat).take sz.toNat, rfl, ?_, ?_, hlength.symm⟩
      · refine extended_of_some hptr ?_ ?_ ?_ ?_ ?_ ?_ ?_
        · exact hptr
        · rfl
        · exact hsum
        · exact hsize
        · omega
        · rfl
        · omega
      · rw [List.length_take, List.length_drop]
        omega

/-- Bytes are copied over the first of those that a buffer got. -/
theorem memcpyTo_ok {b t : Buffer} {m : Nat} {tail bytes : List Byte} {offset : SizeT} (ht : Extended b t tail m)
    (hoffset : offset.toNat = b.contents.length) (hlength : bytes.length ≤ tail.length) (hptr : t.ptr ≠ none) :
    ∃ u, memcpyTo t offset bytes = .ok u ∧ Extended b u (bytes ++ tail.drop bytes.length) m ∧ u.ptr ≠ none := by
  cases hmem : t.ptr with
  | none => exact absurd hmem hptr
  | some mem =>
    have hsize := ht.size mem hmem
    have hwritten := BitVec.le_def.mp (ht.written mem hmem)
    have hcontents := ht.contents
    have htotal := length_contents ht.toSound hmem
    rw [hcontents, List.length_append] at htotal
    have hroom : ¬ mem.length < offset.toNat + bytes.length := by omega
    have hkept : (overwrite mem offset.toNat bytes).length = mem.length := length_overwrite (Nat.not_lt.mp hroom)
    have hu : memcpyTo t offset bytes = .ok { t with ptr := some (overwrite mem offset.toNat bytes) } := by
      unfold memcpyTo
      rw [hmem]
      exact if_neg hroom
    refine ⟨_, hu, ⟨⟨⟨?_, fun _ _ ↦ ht.written mem hmem⟩, ?_⟩, ?_, ?_, ?_⟩, Option.some_ne_none _⟩
    · intro x hx
      cases hx
      exact hkept.trans hsize
    · intro x hx
      cases hx
      rw [hkept]
      exact ht.small mem hmem
    · rw [contents_of_some hmem] at hcontents
      change (overwrite mem offset.toNat bytes).take t.written.toNat = _
      rw [take_overwrite_of_le (by omega) (by omega), hcontents, overwrite_append hoffset]
    · rw [← ht.cursor, cursor_of_some hmem]
      rfl
    · apply iff_of_false (Option.some_ne_none _)
      rintro ⟨hnone, hnil⟩
      apply hptr
      apply ht.null.mpr
      refine ⟨hnone, ?_⟩
      rw [List.append_eq_nil_iff] at hnil
      rw [hnil.1] at hnil
      exact hnil.2

end Mapping

section Whitening

variable {table : Nat → Word} {addr : Word}

/-- A word of the loop is combined in its place. -/
theorem xorWord_block {offset i : Nat} {pre block post : List Byte} (hpre : offset + 4 * i = pre.length)
    (hblock : block.length = 4) : xorWord table addr offset (pre ++ (block ++ post)) i =
      pre ++ (block.zipWith (· ^^^ ·) (hashBytes table addr i) ++ post) := by
  have hlength : (block.zipWith (· ^^^ ·) (hashBytes table addr i)).length = 4 := by
    simp [hashBytes, hblock]
  unfold xorWord
  rw [hpre, List.drop_left, List.take_left' hblock, overwrite_append rfl, hlength, List.drop_left' hblock]

theorem mapIdx_block {i : Nat} (hi : i < 3) {block : List Byte} (hblock : block.length = 4) :
    block.mapIdx (fun j b ↦ if j + 4 * i < 12 then
      b ^^^ wordByte (table (((j + 4 * i) / 4 + addr.toNat) % 256)) ((j + 4 * i) % 4) else b) =
      block.zipWith (· ^^^ ·) (hashBytes table addr i) := by
  apply List.ext_getElem
  · simp [hashBytes, hblock]
  · intro j hj _
    rw [List.length_mapIdx, hblock] at hj
    have hlt : j + 4 * i < 12 := by omega
    have hword : (j + 4 * i) / 4 = i := by omega
    simp [hashBytes, hlt, hword, Nat.mod_eq_of_lt hj]

theorem whiten_blocks {a b c post : List Byte} (ha : a.length = 4) (hb : b.length = 4) (hc : c.length = 4) :
    whiten table addr (a ++ (b ++ (c ++ post))) =
      a.zipWith (· ^^^ ·) (hashBytes table addr 0) ++ (b.zipWith (· ^^^ ·) (hashBytes table addr 1) ++
        (c.zipWith (· ^^^ ·) (hashBytes table addr 2) ++ post)) := by
  have hpost : post.mapIdx (fun j b ↦ if j + 4 + 4 + 4 < 12 then
      b ^^^ wordByte (table (((j + 4 + 4 + 4) / 4 + addr.toNat) % 256)) ((j + 4 + 4 + 4) % 4) else b) = post := by
    apply List.ext_getElem
    · exact List.length_mapIdx
    · intro j _ _
      have hge : ¬ j + 4 + 4 + 4 < 12 := by omega
      simp [hge]
  unfold whiten
  rw [List.mapIdx_append, List.mapIdx_append, List.mapIdx_append, ha, hb, hc, hpost,
    ← mapIdx_block (i := 0) (by omega) ha, ← mapIdx_block (i := 1) (by omega) hb, ← mapIdx_block (i := 2) (by omega) hc]
  rfl

theorem exists_blocks {tail : List Byte} (h : 12 ≤ tail.length) :
    ∃ a b c rest, tail = a ++ (b ++ (c ++ rest)) ∧ a.length = 4 ∧ b.length = 4 ∧ c.length = 4 := by
  refine ⟨tail.take 4, (tail.drop 4).take 4, (tail.drop 8).take 4, tail.drop 12, ?_, ?_, ?_, ?_⟩
  · have hthird : (tail.drop 8).take 4 ++ tail.drop 12 = tail.drop 8 := by
      have hparts := List.take_append_drop 4 (tail.drop 8)
      rw [List.drop_drop] at hparts
      exact hparts
    have hsecond : (tail.drop 4).take 4 ++ tail.drop 8 = tail.drop 4 := by
      have hparts := List.take_append_drop 4 (tail.drop 4)
      rw [List.drop_drop] at hparts
      exact hparts
    rw [hthird, hsecond, List.take_append_drop]
  · rw [List.length_take]
    omega
  · rw [List.length_take, List.length_drop]
    omega
  · rw [List.length_take, List.length_drop]
    omega

/-- The loop on memory that has all of its three words. -/
theorem xorWords (table : Nat → Word) (addr : Word) {tail : List Byte} (old post : List Byte) (h : 12 ≤ tail.length) :
    (List.range 3).foldl (xorWord table addr old.length) (old ++ (tail ++ post)) =
      old ++ (whiten table addr tail ++ post) := by
  obtain ⟨a, b, c, rest, rfl, ha, hb, hc⟩ := exists_blocks h
  have hword :
      ∀ i (block : List Byte), block.length = 4 → (block.zipWith (· ^^^ ·) (hashBytes table addr i)).length = 4 := by
    intro i block hblock
    simp [hashBytes, hblock]
  change xorWord table addr old.length (xorWord table addr old.length (xorWord table addr old.length _ 0) 1) 2 = _
  rw [whiten_blocks ha hb hc, List.append_assoc, List.append_assoc, List.append_assoc, xorWord_block rfl ha]
  generalize hzero : a.zipWith (· ^^^ ·) (hashBytes table addr 0) = x
  have hx := hword 0 a ha
  rw [hzero] at hx
  rw [← List.append_assoc old x, xorWord_block (by rw [List.length_append, hx]) hb]
  generalize hone : b.zipWith (· ^^^ ·) (hashBytes table addr 1) = y
  have hy := hword 1 b hb
  rw [hone] at hy
  rw [← List.append_assoc (old ++ x) y, xorWord_block (by rw [List.length_append, List.length_append, hx, hy]) hc]
  simp only [List.append_assoc]

/-- The spare bytes are combined where they are all of the three words. -/
theorem deWhiten_ok (table : Nat → Word) (addr : Word) {b t : Buffer} {m offset : Nat} {tail : List Byte}
    (ht : Extended b t tail m)
    (hoffset : offset = b.contents.length) (hlength : 12 ≤ tail.length) (hptr : t.ptr ≠ none) :
    ∃ u, deWhiten table t offset addr = .ok u ∧ Extended b u (whiten table addr tail) m := by
  cases hmem : t.ptr with
  | none => exact absurd hmem hptr
  | some mem =>
    have hsize := ht.size mem hmem
    have hwritten := BitVec.le_def.mp (ht.written mem hmem)
    have hcontents := ht.contents
    have htotal := length_contents ht.toSound hmem
    rw [hcontents, List.length_append] at htotal
    rw [contents_of_some hmem] at hcontents
    have hroom : ¬ mem.length < offset + 12 := by omega
    have hsplit : mem = b.contents ++ (tail ++ mem.drop t.written.toNat) := by
      rw [← List.append_assoc, ← hcontents, List.take_append_drop]
    have hxor := xorWords table addr b.contents (mem.drop t.written.toNat) hlength
    rw [← hsplit, ← hoffset] at hxor
    have hwhiten : (whiten table addr tail).length = tail.length := List.length_mapIdx
    have hkept : (b.contents ++ (whiten table addr tail ++ mem.drop t.written.toNat)).length = mem.length := by
      rw [List.length_append, List.length_append, hwhiten, List.length_drop]
      omega
    have hu : deWhiten table t offset addr =
        .ok { t with ptr := some (b.contents ++ (whiten table addr tail ++ mem.drop t.written.toNat)) } := by
      unfold deWhiten
      rw [hmem]
      dsimp only
      rw [if_neg hroom, hxor]
    refine ⟨_, hu, ⟨⟨⟨?_, fun _ _ ↦ ht.written mem hmem⟩, ?_⟩, ?_, ?_, ?_⟩⟩
    · intro x hx
      cases hx
      exact hkept.trans hsize
    · intro x hx
      cases hx
      rw [hkept]
      exact ht.small mem hmem
    · change (b.contents ++ (whiten table addr tail ++ mem.drop t.written.toNat)).take t.written.toNat = _
      rw [← List.append_assoc]
      apply List.take_left'
      rw [List.length_append, hwhiten]
      exact htotal
    · rw [← ht.cursor, cursor_of_some hmem]
      rfl
    · apply iff_of_false (Option.some_ne_none _)
      rintro ⟨-, hnil⟩
      rw [hnil] at hwhiten
      rw [← hwhiten] at hlength
      exact absurd hlength (by decide)

end Whitening


section Stages

variable {s}

/-- The buffers have allocations that an address space can hold. -/
structure Nand.InMemory (s : Nand) : Prop where
  buf0 : s.buf0.Under (2 ^ 62)
  buf1 : s.buf1.Under (2 ^ 62)
  eccbuf : s.eccbuf.Under (2 ^ 62)

theorem writeErr_ok (err : Word) (n : Nat) {b : Buffer} {m : Nat} (hb : b.Under m) (hm : m + 516 * n + 1024 < 2 ^ 63) :
    ∃ u, writeErr heap err n b = .ok u ∧
      u.contents = b.contents ++ (List.replicate n (errBytes err).toList).flatten := by
  induction n generalizing b m with
  | zero => exact ⟨b, rfl, (List.append_nil _).symm⟩
  | succ n ih =>
    have hfour : (4 : SizeT).toNat = 4 := rfl
    obtain ⟨t, offset, tail, hmap, ht, htail, hoffset⟩ := bufferMap_ok heap 4 hb (by omega)
    have hlength : (errBytes err).toList.length = tail.length := by
      rw [Vector.length_toList, htail]
    have hptr : t.ptr ≠ none := by
      intro hnone
      have hnil := (ht.null.mp hnone).2
      rw [hnil] at htail
      cases htail
    obtain ⟨u, hcopy, hu, -⟩ := memcpyTo_ok ht hoffset (Nat.le_of_eq hlength) hptr
    rw [hlength, List.drop_length, List.append_nil] at hu
    obtain ⟨v, hv, hcontents⟩ := ih hu.toUnder (by omega)
    refine ⟨v, ?_, ?_⟩
    · unfold writeErr bufferWrite fill
      rw [hmap]
      change (memcpyTo t offset (errBytes err).toList >>= fun b ↦ writeErr heap err n b) = _
      rw [hcopy]
      exact hv
    · rw [hcontents, hu.contents, List.append_assoc, List.replicate_succ, List.flatten_cons]

theorem done_ok (hecc : s.eccbuf.Under (2 ^ 62)) (ret : Int) (err : Word) (mapped touched : List Range) :
    ∃ eccbuf, done heap s ret err mapped touched = .ok ⟨{ s with eccbuf }, ret, err, mapped, touched⟩ ∧
      eccbuf.contents = s.eccbuf.contents ++ (List.replicate s.eccStages.toNat (errBytes err).toList).flatten := by
  have hstages := s.eccStages.isLt
  obtain ⟨u, hu, hcontents⟩ := writeErr_ok heap err s.eccStages.toNat hecc (by omega)
  refine ⟨u, ?_, hcontents⟩
  unfold done
  rw [hu]
  rfl

/-- What is known when the buffers are mapped. -/
structure Mapped (b t : Buffer) (offset : SizeT) (n : Nat) : Prop where
  extended : ∃ tail m, Extended b t tail m ∧ tail.length = n
  offset : offset.toNat = b.contents.length

theorem mapped_of_under {b : Buffer} (hb : b.Under (2 ^ 62)) (w : Word) :
    ∃ t offset, bufferMap heap b (w.setWidth 64) = .ok (t, offset) ∧ Mapped b t offset w.toNat := by
  have hw := w.isLt
  have hwidth : (w.setWidth 64).toNat = w.toNat := by
    rw [BitVec.toNat_setWidth]
    omega
  obtain ⟨t, offset, tail, hmap, ht, htail, hoffset⟩ :=
    bufferMap_ok heap (w.setWidth 64) hb (by omega)
  exact ⟨t, offset, hmap, ⟨tail, _, ht, htail.trans hwidth⟩, hoffset⟩

end Stages

section Success

variable {d} {s}

theorem toInt_add_small {x y : BitVec 64} {n : Nat} (hx : 0 ≤ x.toInt) (hy : y.toNat = n) (h : x.toInt + n < 2 ^ 63) :
    (x + y).toInt = x.toInt + n := by
  have hxn := BitVec.toInt_eq_toNat_cond x
  have hsum := BitVec.toInt_eq_toNat_cond (x + y)
  have hlt := x.isLt
  rw [BitVec.toNat_add, hy] at hsum
  split_ifs at hxn hsum
  all_goals omega

theorem toNat_of_toInt_pos {w : Word} (h : 0 < w.toInt) : w.toInt = w.toNat := by
  have hlt := w.isLt
  have hint := BitVec.toInt_eq_toNat_cond w
  split_ifs at hint
  · exact hint
  · omega

/-- The reads of a page that is read got its bytes and its spare bytes. -/
structure Found (d : Disk) (s : Nand) : Prop where
  data : (pageData d s).2 = imageBytes d.image ((pageOffset s s.addr).toInt + 1) s.pageSize.toNat
  spare : (pageSpare d s).2 =
    imageBytes d.image ((pageOffset s s.addr).toInt + 1 + s.pageSize.toNat) (s.metaSize.toNat - 2)
  pagePos : 0 < s.pageSize.toNat
  spareSize : (s.metaSize - 2).toNat = s.metaSize.toNat - 2
  sparePos : 2 < s.metaSize.toNat

theorem found_of_succeeds (h : Succeeds d s) : Found d s := by
  obtain ⟨⟨hmarker, -⟩, hdata, hspare⟩ := h
  have hlength := d.length_lt
  obtain ⟨-, hat⟩ := pread_image hmarker
  have hinside : 0 ≤ (pageOffset s s.addr).toInt ∧ (pageOffset s s.addr).toInt + 1 ≤ d.length := hat.inside (by decide)
  have hnext : (pageOffset s s.addr).toInt + ((1 : Nat) : Int) < 2 ^ 63 := by omega
  have hone : (pageOffset s s.addr + 1).toInt = (pageOffset s s.addr).toInt + 1 :=
    toInt_add_small hinside.1 rfl hnext
  obtain ⟨hpage, hloaded⟩ := pread_image hdata
  have hpagePos : 0 < s.pageSize.toInt := hpage ▸ hdata
  have hpageNat := toNat_of_toInt_pos hpagePos
  have hpageInside := hloaded.inside (by omega)
  have hwidth : (s.pageSize.setWidth 64).toNat = s.pageSize.toNat := by
    have hlt := s.pageSize.isLt
    rw [BitVec.toNat_setWidth]
    omega
  have hrest : (pageOffset s s.addr + 1 + s.pageSize.setWidth 64).toInt =
      (pageOffset s s.addr).toInt + 1 + s.pageSize.toNat := by
    rw [← hone]
    exact toInt_add_small hpageInside.1 hwidth (by omega)
  obtain ⟨hmeta, hmetaLoaded⟩ := pread_image hspare
  have hmetaPos : 0 < (s.metaSize - 2).toInt := hmeta ▸ hspare
  have hmetaNat := toNat_of_toInt_pos hmetaPos
  have hmetaInt := BitVec.toInt_eq_toNat_cond (s.metaSize - 2)
  have hmetaLt := s.metaSize.isLt
  have htwo : (2 : Word).toNat = 2 := rfl
  have hsub : (s.metaSize - 2).toNat = (2 ^ 32 - 2 + s.metaSize.toNat) % 2 ^ 32 := by
    rw [BitVec.toNat_sub, htwo]
  have hsize : (s.metaSize - 2).toNat = s.metaSize.toNat - 2 ∧ 2 < s.metaSize.toNat := by
    split_ifs at hmetaInt
    all_goals omega
  refine ⟨?_, ?_, by omega, hsize.1, hsize.2⟩
  · have hbytes : (pageData d s).2 = imageBytes d.image (pageOffset s s.addr + 1).toInt s.pageSize.toInt.toNat :=
      hloaded.bytes
    rw [hone, hpageNat, Int.toNat_natCast] at hbytes
    exact hbytes
  · have hbytes : (pageSpare d s).2 = imageBytes d.image (pageOffset s s.addr + 1 + s.pageSize.setWidth 64).toInt
        (s.metaSize - 2).toInt.toNat :=
      hmetaLoaded.bytes
    rw [hrest, hmetaNat, Int.toNat_natCast, hsize.1] at hbytes
    exact hbytes

variable {buf0 buf1 : Buffer} {data spare : SizeT}

/-- All of what was mapped is copied over. -/
theorem Mapped.copy {b t : Buffer} {offset : SizeT} {n : Nat} {bytes : List Byte} (h : Mapped b t offset n)
    (hbytes : bytes.length = n) (hn : 0 < n) :
    ∃ u m, memcpyTo t offset bytes = .ok u ∧ Extended b u bytes m ∧ u.ptr ≠ none ∧ t.ptr ≠ none := by
  obtain ⟨tail, m, ht, htail⟩ := h.extended
  have hptr : t.ptr ≠ none := by
    intro hnone
    have hnil := (ht.null.mp hnone).2
    rw [hnil, List.length_nil] at htail
    omega
  have hroom : bytes.length ≤ tail.length := by omega
  obtain ⟨u, hcopy, hu, huptr⟩ := memcpyTo_ok ht h.offset hroom hptr
  rw [hbytes, ← htail, List.drop_length, List.append_nil] at hu
  exact ⟨u, m, hcopy, hu, huptr, hptr⟩

/-- The ranges of a page that is read. -/
def pageRanges (s : Nand) (data spare : SizeT) : List Range :=
  [⟨.buf0, data.toNat, s.pageSize.toNat⟩, ⟨.buf1, spare.toNat, (s.metaSize - 2).toNat⟩]

/-- What is left to do when both reads succeeded. -/
theorem readMapped_succeeds (h : Succeeds d s) (h0 : Mapped s.buf0 buf0 data s.pageSize.toNat)
    (h1 : Mapped s.buf1 buf1 spare (s.metaSize - 2).toNat) :
    ∃ u v m n touched, Extended s.buf0 u (pageData d s).2 m ∧ Extended s.buf1 v (pageSpare d s).2 n ∧ v.ptr ≠ none ∧
      (∀ t ∈ touched, ∃ r ∈ pageRanges s data spare, t.Within r) ∧
      readMapped heap d s buf0 data buf1 spare = deWhiten hashTable v spare.toNat s.addr >>= fun buf1 ↦
        done heap { s with buf0 := u, buf1 } (pageSpare d s).1 0 (pageRanges s data spare)
          (⟨.buf1, spare.toNat, 12⟩ :: touched) := by
  have hf := found_of_succeeds h
  have hdata : (pageData d s).2.length = s.pageSize.toNat := by
    rw [hf.data, length_imageBytes]
  have hspare : (pageSpare d s).2.length = (s.metaSize - 2).toNat := by
    rw [hf.spare, length_imageBytes, hf.spareSize]
  obtain ⟨u, m, hcopy0, hu, -, hptr0⟩ := h0.copy hdata hf.pagePos
  obtain ⟨v, n, hcopy1, hv, hvptr, hptr1⟩ := h1.copy hspare (by have hpos := hf.sparePos; rw [hf.spareSize]; omega)
  refine ⟨u, v, m, n, [⟨.buf1, spare.toNat, (pageSpare d s).2.length⟩, ⟨.buf0, data.toNat, (pageData d s).2.length⟩],
    hu, hv, hvptr, ?_, ?_⟩
  · intro t ht
    rw [hdata, hspare] at ht
    refine ⟨t, ?_, rfl, Nat.le_refl _, Nat.le_refl _⟩
    rcases List.mem_cons.mp ht with rfl | ht
    · exact List.mem_cons_of_mem _ List.mem_cons_self
    · rcases List.mem_cons.mp ht with rfl | ht
      · exact List.mem_cons_self
      · cases ht
  · have hnull : ¬ (buf0.ptr = none ∨ buf1.ptr = none) := not_or.mpr ⟨hptr0, hptr1⟩
    have hread0 : ¬ (pageData d s).1 ≤ 0 := Int.not_le.mpr h.2.1
    have hread1 : ¬ (pageSpare d s).1 ≤ 0 := Int.not_le.mpr h.2.2
    unfold readMapped
    dsimp only
    rw [if_neg hnull, hcopy0]
    change (if (pageData d s).1 ≤ 0 then _ else _) = _
    rw [if_neg hread0, hcopy1]
    change (if (pageSpare d s).1 ≤ 0 then _ else _) = _
    rw [if_neg hread1]
    rfl

end Success

section Results

variable {d} {s}

theorem doRead_mapped (hs : s.InMemory) (h : MarkedPage d s) :
    ∃ buf0 data buf1 spare, Mapped s.buf0 buf0 data s.pageSize.toNat ∧
      Mapped s.buf1 buf1 spare (s.metaSize - 2).toNat ∧
      doRead heap d s = readMapped heap d s buf0 data buf1 spare := by
  obtain ⟨buf0, data, hmap0, h0⟩ := mapped_of_under heap hs.buf0 s.pageSize
  obtain ⟨buf1, spare, hmap1, h1⟩ := mapped_of_under heap hs.buf1 (s.metaSize - 2)
  refine ⟨buf0, data, buf1, spare, h0, h1, ?_⟩
  unfold doRead
  rw [if_neg (Int.not_le.mpr h.1), if_neg h.2, hmap0]
  change (bufferMap heap s.buf1 ((s.metaSize - 2).setWidth 64) >>= fun p ↦ readMapped heap d s buf0 data p.1 p.2) = _
  rw [hmap1]
  rfl

theorem reads_of_long (hs : s.InMemory) (h : Succeeds d s) (hmeta : 14 ≤ s.metaSize.toNat) :
    ∃ out, doRead heap d s = .ok out ∧ Reads d s out := by
  have hf := found_of_succeeds h
  obtain ⟨buf0, data, buf1, spare, h0, h1, hread⟩ := doRead_mapped heap hs h.1
  obtain ⟨u, v, m, n, touched, hu, hv, hptr, htouched, hrest⟩ := readMapped_succeeds heap h h0 h1
  have hlong : 12 ≤ (pageSpare d s).2.length := by
    rw [hf.spare, length_imageBytes]
    omega
  obtain ⟨w, hwhiten, hw⟩ := deWhiten_ok hashTable s.addr hv h1.offset hlong hptr
  obtain ⟨eccbuf, hdone, hecc⟩ := done_ok heap (s := { s with buf0 := u, buf1 := w }) hs.eccbuf (pageSpare d s).1 0
    (pageRanges s data spare) (⟨.buf1, spare.toNat, 12⟩ :: touched)
  rw [hread, hrest, hwhiten]
  refine ⟨_, hdone, ?_, ?_, ?_, ?_⟩
  · rw [← hf.data]
    exact hu.contents
  · rw [← hf.spare]
    exact hw.contents
  · have hzero : (errBytes 0).toList = List.replicate 4 0 := by decide
    rw [hzero, List.flatten_replicate_replicate, Nat.mul_comm] at hecc
    exact hecc
  · intro t ht
    rcases List.mem_cons.mp ht with rfl | ht
    · refine ⟨_, List.mem_cons_of_mem _ List.mem_cons_self, rfl, Nat.le_refl _, ?_⟩
      have hsize := hf.spareSize
      dsimp only
      omega
    · exact htouched t ht

/-- Twelve bytes are touched however few were mapped. -/
theorem long_of_reads (hs : s.InMemory) (h : Succeeds d s) {out : Outcome} (hout : doRead heap d s = .ok out)
    (hreads : Reads d s out) : 14 ≤ s.metaSize.toNat := by
  have hf := found_of_succeeds h
  obtain ⟨buf0, data, buf1, spare, h0, h1, hread⟩ := doRead_mapped heap hs h.1
  obtain ⟨u, v, m, n, touched, hu, hv, hptr, htouched, hrest⟩ := readMapped_succeeds heap h h0 h1
  rw [hread, hrest] at hout
  obtain ⟨w, -, hdone⟩ := Machine.ok_of_bind hout
  obtain ⟨eccbuf, hdone', -⟩ := done_ok heap (s := { s with buf0 := u, buf1 := w }) hs.eccbuf (pageSpare d s).1 0
    (pageRanges s data spare) (⟨.buf1, spare.toNat, 12⟩ :: touched)
  obtain rfl := Except.ok.inj (hdone'.symm.trans hdone)
  obtain ⟨r, hr, hbuffer, hfirst, hend⟩ := hreads.within ⟨.buf1, spare.toNat, 12⟩ List.mem_cons_self
  have hsize := hf.spareSize
  rcases List.mem_cons.mp hr with rfl | hr
  · cases hbuffer
  · rcases List.mem_cons.mp hr with rfl | hr
    · dsimp only at hend
      omega
    · cases hr

/-- A page whose reads succeed is read as it should be exactly if it has twelve spare bytes to
combine with the hash table. -/
theorem reads_iff (hs : s.InMemory) (h : Succeeds d s) :
    (∃ out, doRead heap d s = .ok out ∧ Reads d s out) ↔ 14 ≤ s.metaSize.toNat := by
  constructor
  · rintro ⟨out, hout, hreads⟩
    exact long_of_reads heap hs h hout hreads
  · exact reads_of_long heap hs h

/-- Nothing becomes readable when bytes are mapped: there are none, or the reads have gone beyond
them. -/
def Buffer.Quiet (b : Buffer) (n : Nat) : Prop := n = 0 ∨ b.contents.length + n ≤ b.cursor

theorem readable_eq_iff {b t : Buffer} {bytes : List Byte} {m : Nat} (h : Extended b t bytes m) :
    t.readable = b.readable ↔ b.Quiet bytes.length := by
  unfold Buffer.readable Buffer.Quiet
  rw [h.contents, h.cursor]
  constructor
  · intro heq
    have hlength := congrArg List.length heq
    rw [List.length_drop, List.length_drop, List.length_append] at hlength
    omega
  · rintro (hnil | hle)
    · rw [List.length_eq_zero_iff.mp hnil, List.append_nil]
    · have hlong : (b.contents ++ bytes).length ≤ b.cursor := by
        rw [List.length_append]
        exact hle
      have hshort : b.contents.length ≤ b.cursor := by omega
      rw [List.drop_of_length_le hlong, List.drop_of_length_le hshort]

/-- A read that fails behind the mapping leaves what was mapped. -/
structure Leaves (s : Nand) (out : Outcome) : Prop where
  data : ∃ bytes m, Extended s.buf0 out.state.buf0 bytes m ∧ bytes.length = s.pageSize.toNat
  spare : ∃ bytes m, Extended s.buf1 out.state.buf1 bytes m ∧ bytes.length = (s.metaSize - 2).toNat
  ecc : out.state.eccbuf.contents =
    s.eccbuf.contents ++ (List.replicate s.eccStages.toNat (errBytes out.err).toList).flatten

theorem clean_iff_of_leaves {out : Outcome} (h : Leaves s out) :
    Clean s out ↔ s.buf0.Quiet s.pageSize.toNat ∧ s.buf1.Quiet (s.metaSize - 2).toNat := by
  obtain ⟨bytes0, m, h0, hlength0⟩ := h.data
  obtain ⟨bytes1, n, h1, hlength1⟩ := h.spare
  rw [← hlength0, ← hlength1, ← readable_eq_iff h0, ← readable_eq_iff h1]
  exact ⟨fun hc ↦ ⟨hc.data, hc.spare⟩, fun hq ↦ ⟨hq.1, hq.2, h.ecc⟩⟩

/-- Some of what was mapped is copied over. -/
theorem Mapped.copyPart {b t : Buffer} {offset : SizeT} {n : Nat} {bytes : List Byte} (h : Mapped b t offset n)
    (hbytes : bytes.length ≤ n) (hptr : t.ptr ≠ none) :
    ∃ u, memcpyTo t offset bytes = .ok u ∧ ∃ bytes m, Extended b u bytes m ∧ bytes.length = n := by
  obtain ⟨tail, m, ht, htail⟩ := h.extended
  have hroom : bytes.length ≤ tail.length := by omega
  obtain ⟨u, hcopy, hu, -⟩ := memcpyTo_ok ht h.offset hroom hptr
  refine ⟨u, hcopy, _, m, hu, ?_⟩
  rw [List.length_append, List.length_drop]
  omega

theorem toInt_le_toNat (w : Word) : w.toInt ≤ w.toNat := by
  have hint := BitVec.toInt_eq_toNat_cond w
  split_ifs at hint
  all_goals omega

theorem length_pageData (d : Disk) (s : Nand) : (pageData d s).2.length ≤ s.pageSize.toNat := by
  have hlength := length_pread d (pageOffset s s.addr + 1).toInt s.pageSize.toInt
  have hint := toInt_le_toNat s.pageSize
  unfold pageData
  omega

theorem length_pageSpare (d : Disk) (s : Nand) : (pageSpare d s).2.length ≤ (s.metaSize - 2).toNat := by
  have hlength := length_pread d (pageOffset s s.addr + 1 + s.pageSize.setWidth 64).toInt (s.metaSize - 2).toInt
  have hint := toInt_le_toNat (s.metaSize - 2)
  unfold pageSpare
  omega

theorem readError_ne_zero : (4 : Word) ≠ 0 := by decide

theorem emptyError_ne_zero : (0xa : Word) ≠ 0 := by decide

theorem readMapped_fails {buf0 buf1 : Buffer} {data spare : SizeT} (hs : s.InMemory) (h : ¬ Succeeds d s)
    (hmarked : MarkedPage d s) (h0 : Mapped s.buf0 buf0 data s.pageSize.toNat)
    (h1 : Mapped s.buf1 buf1 spare (s.metaSize - 2).toNat) :
    ∃ out, readMapped heap d s buf0 data buf1 spare = .ok out ∧ out.err ≠ 0 ∧ Leaves s out := by
  obtain ⟨tail0, m, ht0, htail0⟩ := h0.extended
  obtain ⟨tail1, n, ht1, htail1⟩ := h1.extended
  unfold readMapped
  dsimp only
  by_cases hnull : buf0.ptr = none ∨ buf1.ptr = none
  · rw [if_pos hnull]
    obtain ⟨eccbuf, hdone, hecc⟩ := done_ok heap (s := { s with buf0, buf1 }) hs.eccbuf (pageMarker d s).1 4
      (pageRanges s data spare) []
    exact ⟨_, hdone, readError_ne_zero, ⟨tail0, m, ht0, htail0⟩, ⟨tail1, n, ht1, htail1⟩, hecc⟩
  · rw [if_neg hnull]
    obtain ⟨hptr0, hptr1⟩ := not_or.mp hnull
    obtain ⟨u, hcopy0, hu⟩ := h0.copyPart (length_pageData d s) hptr0
    rw [hcopy0]
    change ∃ out, (if (pageData d s).1 ≤ 0 then _ else _) = _ ∧ _
    by_cases hdata : (pageData d s).1 ≤ 0
    · rw [if_pos hdata]
      obtain ⟨eccbuf, hdone, hecc⟩ := done_ok heap (s := { s with buf0 := u, buf1 }) hs.eccbuf (pageData d s).1 4
        (pageRanges s data spare) [⟨.buf0, data.toNat, (pageData d s).2.length⟩]
      exact ⟨_, hdone, readError_ne_zero, hu, ⟨tail1, n, ht1, htail1⟩, hecc⟩
    · rw [if_neg hdata]
      obtain ⟨v, hcopy1, hv⟩ := h1.copyPart (length_pageSpare d s) hptr1
      rw [hcopy1]
      change ∃ out, (if (pageSpare d s).1 ≤ 0 then _ else _) = _ ∧ _
      have hspare : (pageSpare d s).1 ≤ 0 := by
        by_contra hspare
        exact h ⟨hmarked, Int.not_le.mp hdata, Int.not_le.mp hspare⟩
      rw [if_pos hspare]
      obtain ⟨eccbuf, hdone, hecc⟩ := done_ok heap (s := { s with buf0 := u, buf1 := v }) hs.eccbuf (pageSpare d s).1
        4 (pageRanges s data spare) [⟨.buf1, spare.toNat, (pageSpare d s).2.length⟩,
          ⟨.buf0, data.toNat, (pageData d s).2.length⟩]
      exact ⟨_, hdone, readError_ne_zero, hu, hv, hecc⟩

theorem doRead_unmarked (hs : s.InMemory) (h : ¬ MarkedPage d s) :
    ∃ out, doRead heap d s = .ok out ∧ out.err ≠ 0 ∧ Clean s out := by
  unfold doRead
  by_cases hmarker : (pageMarker d s).1 ≤ 0
  · rw [if_pos hmarker]
    obtain ⟨eccbuf, hdone, hecc⟩ := done_ok heap hs.eccbuf (pageMarker d s).1 4 [] []
    exact ⟨_, hdone, readError_ne_zero, rfl, rfl, hecc⟩
  · have hempty : (pageMarker d s).2 = [0] ∨ (pageMarker d s).2 = [0x30] := by
      by_contra hne
      exact h ⟨Int.not_le.mp hmarker, hne⟩
    rw [if_neg hmarker, if_pos hempty]
    obtain ⟨eccbuf, hdone, hecc⟩ := done_ok heap hs.eccbuf (pageMarker d s).1 0xa [] []
    exact ⟨_, hdone, emptyError_ne_zero, rfl, rfl, hecc⟩

/-- A page read that fails ends with an error word. -/
theorem doRead_fails (hs : s.InMemory) (h : ¬ Succeeds d s) :
    ∃ out, doRead heap d s = .ok out ∧ out.err ≠ 0 ∧ (Clean s out ↔
      ¬ MarkedPage d s ∨ s.buf0.Quiet s.pageSize.toNat ∧ s.buf1.Quiet (s.metaSize - 2).toNat) := by
  by_cases hmarked : MarkedPage d s
  · obtain ⟨buf0, data, buf1, spare, h0, h1, hread⟩ := doRead_mapped heap hs hmarked
    obtain ⟨out, hout, herr, hleaves⟩ := readMapped_fails heap hs h hmarked h0 h1
    refine ⟨out, hread.trans hout, herr, ?_⟩
    rw [clean_iff_of_leaves hleaves, or_iff_right (not_not_intro hmarked)]
  · obtain ⟨out, hout, herr, hclean⟩ := doRead_unmarked heap hs hmarked
    exact ⟨out, hout, herr, iff_of_true hclean (.inl hmarked)⟩

/-- A page read that succeeds ends with no error. -/
theorem err_of_succeeds (hs : s.InMemory) (h : Succeeds d s) {out : Outcome} (hout : doRead heap d s = .ok out) :
    out.err = 0 := by
  obtain ⟨buf0, data, buf1, spare, h0, h1, hread⟩ := doRead_mapped heap hs h.1
  obtain ⟨u, v, m, n, touched, -, -, -, -, hrest⟩ := readMapped_succeeds heap h h0 h1
  rw [hread, hrest] at hout
  obtain ⟨w, -, hdone⟩ := Machine.ok_of_bind hout
  obtain ⟨eccbuf, hdone', -⟩ := done_ok heap (s := { s with buf0 := u, buf1 := w }) hs.eccbuf (pageSpare d s).1 0
    (pageRanges s data spare) (⟨.buf1, spare.toNat, 12⟩ :: touched)
  obtain rfl := Except.ok.inj (hdone'.symm.trans hdone)
  rfl

/-- A page read that ends with an error word is clean exactly if it ended before the buffers were
mapped, or nothing of what was mapped can be read. -/
theorem clean_iff (hs : s.InMemory) {out : Outcome} (hout : doRead heap d s = .ok out) (herr : out.err ≠ 0) :
    Clean s out ↔ ¬ MarkedPage d s ∨ s.buf0.Quiet s.pageSize.toNat ∧ s.buf1.Quiet (s.metaSize - 2).toNat := by
  have hfail : ¬ Succeeds d s := fun h ↦ herr (err_of_succeeds heap hs h hout)
  obtain ⟨out', hout', -, hiff⟩ := doRead_fails heap hs hfail
  obtain rfl := Except.ok.inj (hout'.symm.trans hout)
  exact hiff

/-- The buffers of a controller that was just initialised. -/
theorem inMemory_fresh (pageSize metaSize eccStages addr : Word) :
    Nand.InMemory { pageSize, metaSize, eccStages, addr } := by
  have hempty : Buffer.Under {} (2 ^ 62) := by
    refine ⟨sound_of_none rfl, ?_⟩
    intro mem hmem
    cases hmem
  exact ⟨hempty, hempty, hempty⟩

instance (b : Buffer) (n : Nat) : Decidable (b.Quiet n) := inferInstanceAs (Decidable (_ ∨ _))

/-- A marker at the first page. -/
def markedImage (offset : Int) : Byte := if offset = 8 then 0x31 else 0x5a

theorem reads_wide : (∃ out, doRead (fun _ ↦ 0) (ofImage markedImage 8192 (by decide)) { metaSize := 14 } = .ok out ∧
      Reads (ofImage markedImage 8192 (by decide)) { metaSize := 14 } out) ↔ 14 ≤ (14 : Word).toNat :=
  reads_iff (fun _ ↦ 0) (inMemory_fresh 4096 14 4 0) (by decide +kernel)

/-- The default size of the spare bytes. -/
theorem reads_fails : Succeeds (ofImage markedImage 8192 (by decide)) {} ∧
    ¬ ∃ out, doRead (fun _ ↦ 0) (ofImage markedImage 8192 (by decide)) {} = .ok out ∧
      Reads (ofImage markedImage 8192 (by decide)) {} out := by
  have hsucceeds : Succeeds (ofImage markedImage 8192 (by decide)) {} := by decide +kernel
  refine ⟨hsucceeds, ?_⟩
  rintro ⟨out, hout, hreads⟩
  have hlong := long_of_reads (fun _ ↦ 0) (inMemory_fresh 4096 12 4 0) hsucceeds hout hreads
  exact absurd hlong (by decide)

/-- One byte was written to each buffer, and a read of 8192 bytes followed. -/
def overread : Nand :=
  { buf0 := ⟨some [0x5a], 8192, 1, 1⟩, buf1 := ⟨some [0x5a], 8192, 1, 1⟩ }

theorem inMemory_overread : overread.InMemory := by
  have hbyte : Buffer.Under ⟨some [0x5a], 8192, 1, 1⟩ (2 ^ 62) := by
    refine ⟨⟨?_, ?_⟩, ?_⟩
    · intro mem hmem
      cases hmem
      decide
    · intro mem _
      decide
    · intro mem hmem
      cases hmem
      decide
  exact ⟨hbyte, hbyte, (inMemory_fresh 4096 12 4 0).eccbuf⟩

/-- The image ends in the middle of the page, and what the command maps lies before the cursors. -/
theorem clean_overread : ∃ out, doRead (fun _ ↦ 0) (ofImage markedImage 512 (by decide)) overread = .ok out ∧
    out.err ≠ 0 ∧ MarkedPage (ofImage markedImage 512 (by decide)) overread ∧ Clean overread out := by
  obtain ⟨out, hout, herr, -⟩ := doRead_fails (fun _ ↦ 0) (d := ofImage markedImage 512 (by decide))
    inMemory_overread (by decide +kernel)
  refine ⟨out, hout, herr, by decide +kernel, ?_⟩
  exact (clean_iff (fun _ ↦ 0) inMemory_overread hout herr).mpr (.inr (by decide))

/-- An image that ends in the middle of the page. -/
theorem clean_fails : ∃ out, doRead (fun _ ↦ 0) (ofImage markedImage 512 (by decide)) {} = .ok out ∧ out.err ≠ 0 ∧
    ¬ Clean {} out := by
  have hs := inMemory_fresh 4096 12 4 0
  obtain ⟨out, hout, herr, hiff⟩ := doRead_fails (fun _ ↦ 0) (d := ofImage markedImage 512 (by decide)) hs
    (by decide +kernel)
  refine ⟨out, hout, herr, ?_⟩
  rw [hiff]
  rintro (hunmarked | ⟨hquiet, -⟩)
  · exact hunmarked (by decide +kernel)
  · exact absurd hquiet (by decide)

end Results

end IDeviceEmulator.H2fmi
