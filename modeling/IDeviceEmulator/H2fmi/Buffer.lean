import IDeviceEmulator.Library.Machine
import IDeviceEmulator.Library.Bytes

namespace IDeviceEmulator.H2fmi

open Bytes

abbrev SizeT := BitVec 64

/-- `struct h2fmi_buffer`, with the allocation that `ptr` points to. -/
structure Buffer where
  ptr : Option (List Byte) := none
  read : SizeT := 0
  written : SizeT := 0
  size : SizeT := 0
deriving DecidableEq

inductive Fault
  | nullDeref
  | heapOverflow
deriving DecidableEq

/-- `qemu_realloc` leaves the bytes past the old allocation as the heap has them. -/
def qemuRealloc (heap : Nat → Byte) (mem : List Byte) (sz : Nat) : List Byte :=
  mem.take sz ++ (List.range' mem.length (sz - mem.length)).map heap

variable (heap : Nat → Byte)

def bufferAlloc (b : Buffer) (sz : SizeT) : Buffer :=
  if sz = 0 then { b with ptr := none }
  else ⟨some (List.replicate sz.toNat 0), 0, 0, sz⟩

def bufferRealloc (b : Buffer) (sz : SizeT) : Buffer :=
  match b.ptr with
  | none => b
  | some mem =>
    if sz < b.size then b
    else
      let rounded := (sz + 512 - 1) / 512 * 512
      -- For a size of zero `qemu_realloc` allocates one byte.
      { b with ptr := some (qemuRealloc heap mem (max rounded.toNat 1)), size := rounded }

def bufferClear (b : Buffer) : Buffer := { b with read := 0, written := 0 }

def bufferRead (b : Buffer) (sz : SizeT) : Except Fault (Buffer × List Byte) :=
  match b.ptr with
  | none => .ok (b, [])
  | some mem =>
    if b.written = 0 ∨ b.written ≤ b.read then .ok (b, [])
    else
      let amt := if b.written - b.read < sz then b.written - b.read else sz
      if mem.length < b.read.toNat + amt.toNat then .error .heapOverflow
      else .ok ({ b with read := b.read + sz }, (mem.drop b.read.toNat).take amt.toNat)

/-- `h2fmi_buffer_map`. The pointer it returns is given by its offset in the allocation. -/
def bufferMap (b : Buffer) (sz : SizeT) : Except Fault (Buffer × SizeT) :=
  match b.ptr with
  | none => .ok ({ bufferAlloc b sz with written := sz }, 0)
  | some _ =>
    let b := if b.size < b.written + sz then bufferRealloc heap b (b.written + sz) else b
    .ok ({ b with written := b.written + sz }, b.written)

/-- `memcpy` into the allocation. -/
def memcpyTo (b : Buffer) (offset : SizeT) (bytes : List Byte) : Except Fault Buffer :=
  match b.ptr with
  | none => if bytes = [] then .ok b else .error .nullDeref
  | some mem =>
    if mem.length < offset.toNat + bytes.length then .error .heapOverflow
    else .ok { b with ptr := some (overwrite mem offset.toNat bytes) }

/-- The caller of `h2fmi_buffer_map` fills the bytes mapped. -/
def fill (b : Buffer) {sz : SizeT} (src : Vector Byte sz.toNat) : Except Fault Buffer := do
  let (b, offset) ← bufferMap heap b sz
  memcpyTo b offset src.toList

/-- `h2fmi_buffer_write` finds its place as `h2fmi_buffer_map` does. -/
def bufferWrite (b : Buffer) {sz : SizeT} (src : Vector Byte sz.toNat) : Except Fault Buffer := fill heap b src

namespace Buffer

/-- The allocation has the size that is recorded, and the bytes written lie in it. -/
structure Sound (b : Buffer) : Prop where
  size : ∀ mem, b.ptr = some mem → mem.length = b.size.toNat
  written : ∀ mem, b.ptr = some mem → b.written ≤ b.size

def contents (b : Buffer) : List Byte :=
  match b.ptr with
  | none => []
  | some mem => mem.take b.written.toNat

def cursor (b : Buffer) : Nat :=
  match b.ptr with
  | none => 0
  | some _ => b.read.toNat

/-- Nothing is in the buffer, as after its initialisation or `h2fmi_buffer_clear`. -/
structure Fresh (b : Buffer) : Prop extends b.Sound where
  empty : b.ptr = none ∨ b.read = 0 ∧ b.written = 0

section Parts

variable {b : Buffer} {mem : List Byte}

theorem contents_of_none (h : b.ptr = none) : b.contents = [] := by simp only [contents, h]

theorem contents_of_some (h : b.ptr = some mem) : b.contents = mem.take b.written.toNat := by
  simp only [contents, h]

theorem cursor_of_none (h : b.ptr = none) : b.cursor = 0 := by simp only [cursor, h]

theorem cursor_of_some (h : b.ptr = some mem) : b.cursor = b.read.toNat := by simp only [cursor, h]

theorem sound_of_none (h : b.ptr = none) : b.Sound := by
  refine ⟨?_, ?_⟩
  · intro mem hmem
    cases h.symm.trans hmem
  · intro mem hmem
    cases h.symm.trans hmem

end Parts

end Buffer

open Buffer

theorem fresh_init (read written size : SizeT) : Buffer.Fresh ⟨none, read, written, size⟩ :=
  ⟨sound_of_none rfl, .inl rfl⟩

theorem fresh_bufferClear {b : Buffer} (h : b.Sound) : (bufferClear b).Fresh := by
  refine ⟨⟨h.size, ?_⟩, .inr ⟨rfl, rfl⟩⟩
  intro mem _
  exact BitVec.le_def.mpr (Nat.zero_le _)

theorem length_contents {b : Buffer} (h : b.Sound) {mem : List Byte} (hptr : b.ptr = some mem) :
    b.contents.length = b.written.toNat := by
  have hsize := h.size mem hptr
  have hwritten := BitVec.le_def.mp (h.written mem hptr)
  simp only [Buffer.contents, hptr, List.length_take]
  omega

theorem length_qemuRealloc (mem : List Byte) (sz : Nat) : (qemuRealloc heap mem sz).length = sz := by
  simp only [qemuRealloc, List.length_append, List.length_take, List.length_map, List.length_range']
  omega

theorem take_qemuRealloc {mem : List Byte} {sz n : Nat} (hn : n ≤ mem.length) (hsz : n ≤ sz) :
    (qemuRealloc heap mem sz).take n = mem.take n := by
  have hlength : n ≤ (mem.take sz).length := by
    rw [List.length_take]
    omega
  rw [qemuRealloc, List.take_append_of_le_length hlength, List.take_take, Nat.min_eq_left hsz]

variable {heap}

theorem bufferRealloc_cases (heap : Nat → Byte) {b : Buffer} {sz : SizeT} {mem : List Byte} (hptr : b.ptr = some mem)
    (hsz : ¬ sz < b.size) :
    bufferRealloc heap b sz = { b with
      ptr := some (qemuRealloc heap mem (max ((sz + 512 - 1) / 512 * 512).toNat 1))
      size := (sz + 512 - 1) / 512 * 512 } := by
  simp only [bufferRealloc, hptr, if_neg hsz]

theorem toNat_round (sz : SizeT) : ((sz + 512 - 1) / 512 * 512).toNat = (sz.toNat + 511) % 2 ^ 64 / 512 * 512 := by
  have hsum : sz + 512 - 1 = sz + 511 := by
    rw [BitVec.sub_eq_add_neg, BitVec.add_assoc]
    rfl
  have hdiv : (512 : SizeT).toNat = 512 := rfl
  have hadd : (511 : SizeT).toNat = 511 := rfl
  rw [hsum, BitVec.toNat_mul, BitVec.toNat_udiv, BitVec.toNat_add, hdiv, hadd, Nat.mod_eq_of_lt]
  omega

theorem memcpyTo_cases {b t : Buffer} {offset : SizeT} {bytes : List Byte}
    (h : memcpyTo b offset bytes = .ok t) :
    b.ptr = none ∧ bytes = [] ∧ t = b ∨ ∃ mem, b.ptr = some mem ∧ offset.toNat + bytes.length ≤ mem.length ∧
      t = { b with ptr := some (overwrite mem offset.toNat bytes) } := by
  unfold memcpyTo at h
  cases hptr : b.ptr with
  | none =>
    simp only [hptr] at h
    split_ifs at h with hbytes
    exact .inl ⟨rfl, hbytes, (Except.ok.inj h).symm⟩
  | some mem =>
    simp only [hptr] at h
    split_ifs at h with hroom
    exact .inr ⟨mem, rfl, Nat.not_lt.mp hroom, (Except.ok.inj h).symm⟩

/-- Space for `sz` bytes is mapped behind the bytes written before, if the allocation has it. -/
theorem bufferMap_cases {b t : Buffer} {sz offset : SizeT} (hb : b.Sound)
    (h : bufferMap heap b sz = .ok (t, offset)) :
    b.ptr = none ∧ offset = 0 ∧ t = { bufferAlloc b sz with written := sz } ∨
      ∃ mem mem', b.ptr = some mem ∧ t.ptr = some mem' ∧ offset = b.written ∧ t.read = b.read ∧
        t.written = b.written + sz ∧ (mem'.length = t.size.toNat ∨ mem'.length < b.written.toNat + sz.toNat) ∧
        (b.written.toNat ≤ mem'.length → mem'.take b.written.toNat = mem.take b.written.toNat) := by
  unfold bufferMap at h
  cases hptr : b.ptr with
  | none =>
    simp only [hptr, Except.ok.injEq, Prod.mk.injEq] at h
    exact .inl ⟨rfl, h.2.symm, h.1.symm⟩
  | some mem =>
    simp only [hptr] at h
    have hsize := hb.size mem hptr
    have hwritten := BitVec.le_def.mp (hb.written mem hptr)
    by_cases hgrow : b.size < b.written + sz
    · rw [if_pos hgrow, bufferRealloc_cases heap hptr (BitVec.not_lt.mpr (BitVec.le_of_lt hgrow))] at h
      cases h
      have hround := toNat_round (b.written + sz)
      have hadd := BitVec.toNat_add b.written sz
      have hlt := BitVec.lt_def.mp hgrow
      refine .inr ⟨mem, _, rfl, rfl, rfl, rfl, rfl, ?_, ?_⟩
      · rw [length_qemuRealloc]
        dsimp only
        omega
      · intro hle
        rw [length_qemuRealloc] at hle
        exact take_qemuRealloc heap (by omega) hle
    · rw [if_neg hgrow] at h
      cases h
      exact .inr ⟨mem, mem, rfl, hptr, rfl, rfl, rfl, .inl hsize, fun _ ↦ rfl⟩

theorem fill_spec {b t : Buffer} {sz : SizeT} {src : Vector Byte sz.toNat} (hb : b.Sound)
    (h : fill heap b src = .ok t) :
    t.Sound ∧ t.contents = b.contents ++ src.toList ∧ t.cursor = b.cursor := by
  unfold fill at h
  cases hmap : bufferMap heap b sz with
  | error e =>
    rw [hmap] at h
    cases h
  | ok p =>
    obtain ⟨u, offset⟩ := p
    rw [hmap] at h
    have hcopy : memcpyTo u offset src.toList = .ok t := h
    have hlength : src.toList.length = sz.toNat := src.length_toList
    rcases bufferMap_cases hb hmap with ⟨hptr, rfl, rfl⟩ |
      ⟨mem, mem', hptr, huptr, rfl, hread, hwritten, hsize, htake⟩
    · rcases memcpyTo_cases hcopy with ⟨hnone, hnil, rfl⟩ | ⟨mem, hmem, hroom, rfl⟩
      · refine ⟨sound_of_none hnone, ?_, ?_⟩
        · rw [contents_of_none hnone, contents_of_none hptr, hnil, List.append_nil]
        · rw [cursor_of_none hnone, cursor_of_none hptr]
      · have hne : sz ≠ 0 := by
          intro hzero
          rw [bufferAlloc, if_pos hzero] at hmem
          cases hmem
        rw [bufferAlloc, if_neg hne] at hmem ⊢
        cases hmem
        have htake : (overwrite (List.replicate sz.toNat 0) 0 src.toList).take (0 + src.toList.length) =
            [] ++ src.toList := take_overwrite (Nat.zero_le _)
        rw [hlength, Nat.zero_add] at htake
        refine ⟨⟨?_, fun _ _ ↦ BitVec.le_refl sz⟩, ?_, ?_⟩
        · intro mem hmem
          cases hmem
          exact (length_overwrite hroom).trans List.length_replicate
        · rw [contents_of_none hptr]
          exact htake
        · rw [cursor_of_none hptr]
          rfl
    · rcases memcpyTo_cases hcopy with ⟨hnone, -, -⟩ | ⟨mem'', hmem, hroom, rfl⟩
      · cases huptr.symm.trans hnone
      · cases huptr.symm.trans hmem
        replace hsize := hsize.resolve_right (by omega)
        have hlt := u.size.isLt
        have hsum : u.written.toNat = b.written.toNat + sz.toNat := by
          rw [hwritten, BitVec.toNat_add, Nat.mod_eq_of_lt (by omega)]
        refine ⟨⟨?_, ?_⟩, ?_, ?_⟩
        · intro mem hmem
          cases hmem
          exact (length_overwrite hroom).trans hsize
        · intro _ _
          apply BitVec.le_def.mpr
          dsimp only
          omega
        · have hover : (overwrite mem' b.written.toNat src.toList).take
              (b.written.toNat + src.toList.length) = mem'.take b.written.toNat ++ src.toList :=
            take_overwrite (by omega)
          rw [hlength, ← hsum, htake (by omega)] at hover
          rw [contents_of_some hptr]
          exact hover
        · rw [cursor_of_some hptr, ← hread]
          rfl

theorem bufferRead_cases {b t : Buffer} {sz : SizeT} {bytes : List Byte} (h : bufferRead b sz = .ok (t, bytes)) :
    t = b ∧ bytes = [] ∨ ∃ mem, b.ptr = some mem ∧ b.read < b.written ∧ t = { b with read := b.read + sz } ∧
      bytes = (mem.drop b.read.toNat).take (min (b.written.toNat - b.read.toNat) sz.toNat) := by
  unfold bufferRead at h
  cases hptr : b.ptr with
  | none =>
    simp only [hptr, Except.ok.injEq, Prod.mk.injEq] at h
    exact .inl ⟨h.1.symm, h.2.symm⟩
  | some mem =>
    simp only [hptr] at h
    split_ifs at h with hnone hshort hroom hroom
    · simp only [Except.ok.injEq, Prod.mk.injEq] at h
      exact .inl ⟨h.1.symm, h.2.symm⟩
    all_goals
      simp only [not_or, BitVec.not_le] at hnone
      have hsub := BitVec.toNat_sub_of_le (BitVec.le_of_lt hnone.2)
      rw [BitVec.lt_def, hsub] at hshort
      obtain ⟨hstate, hbytes⟩ := Prod.mk.inj (Except.ok.inj h)
      refine .inr ⟨mem, rfl, hnone.2, hstate.symm, ?_⟩
    · rw [← hbytes, hsub, Nat.min_eq_left (Nat.le_of_lt hshort)]
    · rw [← hbytes, Nat.min_eq_right (Nat.not_lt.mp hshort)]

/-- A read that asks for no more than there is goes on where the last one stopped. -/
theorem bufferRead_spec {b t : Buffer} {sz : SizeT} {bytes : List Byte} (hb : b.Sound)
    (hcursor : b.cursor ≤ b.contents.length)
    (hsz : b.ptr ≠ none → b.read < b.written → sz ≤ b.written - b.read)
    (h : bufferRead b sz = .ok (t, bytes)) :
    t.Sound ∧ t.contents = b.contents ∧ t.cursor ≤ t.contents.length ∧
      b.contents.take b.cursor ++ bytes = b.contents.take t.cursor := by
  rcases bufferRead_cases h with ⟨rfl, rfl⟩ | ⟨mem, hptr, hlt, rfl, rfl⟩
  · exact ⟨hb, rfl, hcursor, List.append_nil _⟩
  · have hle := BitVec.le_def.mp (hsz (by rw [hptr]; exact Option.some_ne_none mem) hlt)
    rw [BitVec.toNat_sub_of_le (BitVec.le_of_lt hlt)] at hle
    have hwritten := b.written.isLt
    have hlt' := BitVec.lt_def.mp hlt
    have hsum : (b.read + sz).toNat = b.read.toNat + sz.toNat := by
      rw [BitVec.toNat_add, Nat.mod_eq_of_lt (by omega)]
    have hnext : Buffer.cursor { b with read := b.read + sz } = b.read.toNat + sz.toNat := by
      rw [cursor_of_some (b := { b with read := b.read + sz }) hptr, hsum]
    refine ⟨⟨hb.size, hb.written⟩, rfl, ?_, ?_⟩
    · have hlength := length_contents hb hptr
      rw [hnext]
      change _ ≤ b.contents.length
      omega
    · rw [hnext, cursor_of_some hptr, contents_of_some hptr, Nat.min_eq_right hle, List.take_add,
        List.drop_take, List.take_take (i := sz.toNat), Nat.min_eq_left hle]

end IDeviceEmulator.H2fmi
