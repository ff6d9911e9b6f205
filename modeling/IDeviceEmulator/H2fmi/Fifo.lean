import IDeviceEmulator.H2fmi.Buffer

namespace IDeviceEmulator.H2fmi

open Bytes Machine Buffer

abbrev Word := BitVec 32

/-- The part of `h2fmi_state_t` that the controller registers show. -/
structure Controller where
  eccfmt : Word := 0
  pagefmt : Word := 0
  csts : Word := 0
  buf0 : Buffer := {}
  buf1 : Buffer := {}

def littleEndian (bytes : List Byte) : Word := bytes.foldr (fun b x ↦ x <<< 8 ||| b.setWidth 32) 0

/-- A data register of a given width. Bytes that the buffer does not have are zero. -/
def readData (c : Controller) (sz : SizeT) (addr : Word) : Except Fault (Controller × Word) :=
  match addr.toNat with
  | 0x14 => do
    let (b, bytes) ← bufferRead c.buf0 sz
    return ({ c with buf0 := b }, littleEndian bytes)
  | 0x18 => do
    let (b, bytes) ← bufferRead c.buf1 sz
    return ({ c with buf1 := b }, littleEndian bytes)
  | _ => .ok (c, 0)

def creadl (c : Controller) (addr : Word) : Except Fault (Controller × Word) :=
  match addr.toNat with
  | 0x0 => .ok (c, c.eccfmt)
  | 0xc => .ok (c, c.csts)
  | 0x1c => .ok (c, 0x18)
  | 0x34 => .ok (c, c.pagefmt)
  | _ => readData c 4 addr

def creads (c : Controller) (addr : Word) : Except Fault (Controller × Word) := readData c 2 addr

def creadb (c : Controller) (addr : Word) : Except Fault (Controller × Word) := readData c 1 addr

inductive Width
  | byte
  | half
  | word
deriving DecidableEq

def Width.size : Width → SizeT
  | .byte => 1
  | .half => 2
  | .word => 4

/-- `h2fmi_cread`. -/
def cread (c : Controller) : Width → Word → Except Fault (Controller × Word)
  | .byte, addr => creadb c addr
  | .half, addr => creads c addr
  | .word, addr => creadl c addr

theorem cread_data0 (c : Controller) (w : Width) :
    cread c w 0x14 =
      (bufferRead c.buf0 w.size).map fun r ↦ ({ c with buf0 := r.1 }, littleEndian r.2) := by
  cases w <;> exact rfl

theorem cread_data1 (c : Controller) (w : Width) :
    cread c w 0x18 =
      (bufferRead c.buf1 w.size).map fun r ↦ ({ c with buf1 := r.1 }, littleEndian r.2) := by
  cases w <;> exact rfl

inductive Op
  | write (sz : SizeT) (src : Vector Byte sz.toNat)
  | map (sz : SizeT) (src : Vector Byte sz.toNat)
  | read (sz : SizeT)

/-- A buffer with the bytes that were written to it and those that its reads returned. -/
structure Session where
  buffer : Buffer
  stored : List Byte := []
  returned : List Byte := []
deriving DecidableEq

def step (heap : Nat → Byte) (s : Session) : Op → Except Fault (Session × Unit)
  | .write _ src =>
    (bufferWrite heap s.buffer src).map fun b ↦ ({ s with buffer := b, stored := s.stored ++ src.toList }, ())
  | .map _ src =>
    (fill heap s.buffer src).map fun b ↦ ({ s with buffer := b, stored := s.stored ++ src.toList }, ())
  | .read sz =>
    (bufferRead s.buffer sz).map fun r ↦ ({ s with buffer := r.1, returned := s.returned ++ r.2 }, ())

def Session.InOrder (s : Session) : Prop := s.returned <+: s.stored

instance : DecidablePred Session.InOrder := fun s ↦ inferInstanceAs (Decidable (s.returned <+: s.stored))

/-- A read of a buffer that is not exhausted asks for no more than it holds. -/
def Op.Covered (b : Buffer) : Op → Prop
  | .read sz => b.ptr ≠ none → b.read < b.written → sz ≤ b.written - b.read
  | _ => True

instance (b : Buffer) : DecidablePred (Op.Covered b)
  | .read sz => inferInstanceAs (Decidable (b.ptr ≠ none → b.read < b.written → sz ≤ b.written - b.read))
  | .write _ _ => isTrue trivial
  | .map _ _ => isTrue trivial

section Runs

variable {heap : Nat → Byte}

structure Session.Tracks (s : Session) : Prop where
  sound : s.buffer.Sound
  stored : s.stored = s.buffer.contents
  cursor : s.buffer.cursor ≤ s.buffer.contents.length
  returned : s.returned = s.buffer.contents.take s.buffer.cursor

theorem Session.Tracks.inOrder {s : Session} (h : s.Tracks) : s.InOrder := by
  rw [InOrder, h.returned, h.stored]
  exact List.take_prefix _ _

theorem tracks_fresh {b : Buffer} (h : b.Fresh) : Session.Tracks ⟨b, [], []⟩ := by
  cases hptr : b.ptr with
  | none =>
    have hcontents := contents_of_none hptr
    have hcursor := cursor_of_none hptr
    exact ⟨h.toSound, hcontents.symm, by simp [hcursor], by simp [hcontents]⟩
  | some mem =>
    obtain ⟨hread, hwritten⟩ := h.empty.resolve_left (by simp [hptr])
    have hcontents : b.contents = [] := by simp [contents_of_some hptr, hwritten]
    have hcursor : b.cursor = 0 := by simp [cursor_of_some hptr, hread]
    exact ⟨h.toSound, hcontents.symm, by simp [hcursor], by simp [hcontents]⟩

theorem tracks_fill {s : Session} {b : Buffer} {sz : SizeT} {src : Vector Byte sz.toNat} (hs : s.Tracks)
    (h : fill heap s.buffer src = .ok b) :
    Session.Tracks { s with buffer := b, stored := s.stored ++ src.toList } := by
  obtain ⟨hsound, hcontents, hcursor⟩ := fill_spec hs.sound h
  refine ⟨hsound, ?_, ?_, ?_⟩
  · rw [hcontents, hs.stored]
  · have hle := hs.cursor
    rw [hcursor, hcontents, List.length_append]
    omega
  · rw [hcursor, hcontents, List.take_append_of_le_length hs.cursor]
    exact hs.returned

theorem tracks_step {s t : Session} {op : Op} {o : Unit} (hs : s.Tracks) (hop : op.Covered s.buffer)
    (h : step heap s op = .ok (t, o)) : t.Tracks := by
  cases op with
  | write sz src =>
    obtain ⟨b, hb, ht⟩ := ok_of_map h
    cases ht
    exact tracks_fill hs hb
  | map sz src =>
    obtain ⟨b, hb, ht⟩ := ok_of_map h
    cases ht
    exact tracks_fill hs hb
  | read sz =>
    obtain ⟨⟨b, bytes⟩, hb, ht⟩ := ok_of_map h
    cases ht
    obtain ⟨hsound, hcontents, hcursor, htake⟩ := bufferRead_spec hs.sound hs.cursor hop hb
    refine ⟨hsound, hs.stored.trans hcontents.symm, hcursor, ?_⟩
    dsimp only
    rw [hs.returned, htake, hcontents]

/-- On a buffer that starts empty, the reads return the bytes written in order as long as no
read asks for more than the rest of them. -/
theorem reads_in_order (heap : Nat → Byte) {b : Buffer} (hb : b.Fresh) (ops : List Op)
    (h : Attempts (step heap) (fun s op ↦ op.Covered s.buffer) ⟨b, [], []⟩ ops) :
    Throughout (step heap) Session.InOrder ⟨b, [], []⟩ ops := by
  have htracks : Throughout (step heap) Session.Tracks ⟨b, [], []⟩ ops :=
    throughout_of_attempts (tracks_fresh hb) (fun _ _ _ _ _ hs hop ht ↦ tracks_step hs hop ht) h
  intro pre t hp hr
  exact (htracks pre t hp hr).inOrder

theorem reads_in_order_twice :
    Throughout (step fun _ ↦ 0) Session.InOrder ⟨{}, [], []⟩
      [.write 3 #v[1, 2, 3], .read 2, .map 2 #v[4, 5], .read 3, .read 4] := by
  refine reads_in_order _ (fresh_init 0 0 0) _ ?_
  decide +kernel

/-- The second read skips the bytes that the first one asked for in vain. -/
theorem reads_in_order_fails : ∃ t, Run (step fun _ ↦ 0) ⟨{}, [], []⟩
    [.write 2 #v[1, 2], .read 4, .write 3 #v[3, 4, 5], .read 1] t ∧ ¬ t.InOrder := by
  refine exists_run_of_exec ?_
  decide +kernel

end Runs

end IDeviceEmulator.H2fmi
