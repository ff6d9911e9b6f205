import IDeviceEmulator.Library.Machine

namespace IDeviceEmulator.SaveVm

open Machine

abbrev Block := List UInt8

def ioBufSize : Nat := 32768

/-- What becomes of a block below a `put_buffer` function: a prefix of it is stored, or nothing
because of a failure. -/
inductive Outcome
  | stores (count : Nat)
  | fails

/-- What a backend holds at each position, and the position of its stream. -/
structure Store where
  bytes : Nat → Option UInt8
  position : Nat

namespace Store

def empty : Store := ⟨fun _ ↦ none, 0⟩

def writeAt (s : Store) (pos : Nat) (block : Block) : Store :=
  { s with bytes := fun i ↦ if pos ≤ i ∧ i < pos + block.length then block[i - pos]? else s.bytes i }

def fseek (s : Store) (pos : Nat) : Store := { s with position := pos }

def fwrite (s : Store) (o : Outcome) (buf : Block) : Store × Nat :=
  match o with
  | .stores count =>
    let part := buf.take count
    ({ s.writeAt s.position part with position := s.position + part.length }, part.length)
  | .fails => (s, 0)

def stdioPutBuffer (s : Store) (o : Outcome) (buf : Block) (_pos : Nat) : Store × Int :=
  let (s, count) := s.fwrite o buf
  (s, count)

def filePutBuffer (s : Store) (o : Outcome) (buf : Block) (pos : Nat) : Store × Int :=
  let (s, count) := (s.fseek pos).fwrite o buf
  (s, count)

/-- Either all of the block is stored or a negative error is returned. -/
def bdrvSaveVmstate (s : Store) (o : Outcome) (buf : Block) (pos : Nat) : Store × Int :=
  match o with
  | .stores count => (s.writeAt pos (buf.take count), if count < buf.length then -5 else buf.length)
  | .fails => (s, -5)

def blockPutBuffer (s : Store) (o : Outcome) (buf : Block) (pos : Nat) : Store × Int :=
  let (s, _) := s.bdrvSaveVmstate o buf pos
  (s, buf.length)

end Store

/-- The `put_buffer` function of a file that is written. -/
inductive PutBuffer
  | stdio
  | file
  | block

def PutBuffer.call : PutBuffer → Store → Outcome → Block → Nat → Store × Int
  | .stdio => Store.stdioPutBuffer
  | .file => Store.filePutBuffer
  | .block => Store.blockPutBuffer

/-- A file that is written, with what its backend holds and the number of calls of
`put_buffer`. `buf` are the first `buf_index` bytes of the buffer. -/
structure QEMUFile where
  putBuffer : PutBuffer
  store : Store
  calls : Nat
  isWrite : Bool
  bufOffset : Nat
  buf : Block
  hasError : Bool

def qemuFopenOps (putBuffer : PutBuffer) : QEMUFile := ⟨putBuffer, .empty, 0, false, 0, [], false⟩

inductive Fault
  | abort
  | hang

inductive Op
  | putBuffer (buf : Block)
  | putByte (v : Int32)
  | flush

namespace QEMUFile

variable (reply : Nat → Outcome)

def qemuFflush (f : QEMUFile) : QEMUFile :=
  if f.isWrite ∧ 0 < f.buf.length then
    let (store, len) := f.putBuffer.call f.store (reply f.calls) f.buf f.bufOffset
    let f := { f with store, calls := f.calls + 1 }
    let f := if 0 < len then { f with bufOffset := f.bufOffset + f.buf.length } else { f with hasError := true }
    { f with buf := [] }
  else f

/-- Bytes are put into the buffer, which is flushed when it is full. -/
def fill (f : QEMUFile) (bytes : Block) : QEMUFile :=
  let f := { f with buf := f.buf ++ bytes, isWrite := true }
  if ioBufSize ≤ f.buf.length then f.qemuFflush reply else f

/-- A file with something in its buffer that was opened for reading. -/
def ReadBuffered (f : QEMUFile) : Prop := f.hasError = false ∧ f.isWrite = false ∧ 0 < f.buf.length

instance (f : QEMUFile) : Decidable f.ReadBuffered :=
  inferInstanceAs (Decidable (f.hasError = false ∧ f.isWrite = false ∧ 0 < f.buf.length))

/-- The loop of `qemu_put_buffer`. -/
def putLoop (f : QEMUFile) (buf : Block) : Except Fault QEMUFile :=
  if f.hasError ∨ buf.length = 0 then .ok f
  else
    let l := min (ioBufSize - f.buf.length) buf.length
    -- A turn that copies nothing is repeated for ever.
    if l = 0 then .error .hang else putLoop (f.fill reply (buf.take l)) (buf.drop l)
termination_by buf.length
decreasing_by
  rw [List.length_drop]
  omega

def qemuPutBuffer (f : QEMUFile) (buf : Block) : Except Fault QEMUFile :=
  if f.ReadBuffered then .error .abort else f.putLoop reply buf

def qemuPutByte (f : QEMUFile) (v : Int32) : Except Fault QEMUFile :=
  if f.ReadBuffered then .error .abort else .ok (f.fill reply [v.toInt8.toUInt8])

def step (f : QEMUFile) : Op → Except Fault (QEMUFile × Unit)
  | .putBuffer buf => (f.qemuPutBuffer reply buf).map (·, ())
  | .putByte v => (f.qemuPutByte reply v).map (·, ())
  | .flush => .ok (f.qemuFflush reply, ())

end QEMUFile

def Op.bytes : Op → Block
  | .putBuffer buf => buf
  | .putByte v => [v.toInt8.toUInt8]
  | .flush => []

/-- The full buffers that bytes make with those that are pending, and what is pending then. -/
def cut : Block → Block → List Block × Block
  | pending, [] => ([], pending)
  | pending, b :: bytes =>
    let pending := pending ++ [b]
    if ioBufSize ≤ pending.length then
      let (blocks, rest) := cut [] bytes
      (pending :: blocks, rest)
    else cut pending bytes

/-- The blocks that reach `put_buffer` if no error occurs. -/
def blocks (pending : Block) : List Op → List Block
  | [] => []
  | .flush :: ops => if pending.length = 0 then blocks [] ops else pending :: blocks [] ops
  | op :: ops =>
    let (full, rest) := cut pending op.bytes
    full ++ blocks rest ops

/-- The backend stores the whole block. -/
def Outcome.Whole (block : Block) : Outcome → Prop
  | .stores count => block.length ≤ count
  | .fails => False

/-- The `put_buffer` function reports that nothing was stored. -/
def PutBuffer.Reports : PutBuffer → Outcome → Prop
  | .block, _ => False
  | _, .stores count => count = 0
  | _, .fails => True

/-- A file that shows no error holds all bytes that were put, each at its position. -/
def QEMUFile.Complete (f : QEMUFile) (ops : List Op) : Prop :=
  f.hasError = false → ∀ p, f.store.bytes p = (ops.flatMap Op.bytes)[p]?

/-- The prefix of a block that is stored. -/
def Outcome.part (block : Block) : Outcome → Block
  | .stores count => block.take count
  | .fails => []

theorem Outcome.length_part_le (o : Outcome) (block : Block) : (o.part block).length ≤ block.length := by
  cases o with
  | stores count => exact List.length_take_le' count block
  | fails => exact Nat.zero_le _

theorem Outcome.part_of_whole {o : Outcome} {block : Block} (h : o.Whole block) : o.part block = block := by
  cases o with
  | stores count => exact List.take_of_length_le h
  | fails => exact h.elim

theorem Outcome.length_part_lt {o : Outcome} {block : Block} (hb : 0 < block.length) (h : ¬ o.Whole block) :
    (o.part block).length < block.length := by
  cases o with
  | stores count =>
    simp only [Outcome.Whole] at h
    simp only [Outcome.part, List.length_take]
    omega
  | fails => exact hb

namespace PutBuffer

variable {kind : PutBuffer} {s : Store} {o : Outcome} {buf : Block} {pos : Nat}

/-- Where a block is stored. -/
def origin (kind : PutBuffer) (s : Store) (pos : Nat) : Nat :=
  match kind with
  | .stdio => s.position
  | _ => pos

theorem writeAt_nil (s : Store) (pos : Nat) : s.writeAt pos [] = s := by
  have hempty : ∀ i, ¬ (pos ≤ i ∧ i < pos + ([] : Block).length) := by
    intro i h
    simp only [List.length_nil] at h
    omega
  simp only [Store.writeAt, hempty, if_false]

theorem bytes_call (kind : PutBuffer) (s : Store) (o : Outcome) (buf : Block) (pos : Nat) :
    (kind.call s o buf pos).1.bytes = (s.writeAt (kind.origin s pos) (o.part buf)).bytes := by
  cases o with
  | stores count => cases kind <;> rfl
  | fails =>
    simp only [Outcome.part, writeAt_nil]
    cases kind <;> rfl

theorem position_call (s : Store) (o : Outcome) (buf : Block) (pos : Nat) :
    (PutBuffer.stdio.call s o buf pos).1.position = s.position + (o.part buf).length := by
  cases o with
  | stores count => rfl
  | fails => rfl

/-- A file learns of a failure just when the `put_buffer` function reports it. -/
theorem call_pos_iff (kind : PutBuffer) (s : Store) (o : Outcome) (pos : Nat) (hbuf : 0 < buf.length) :
    0 < (kind.call s o buf pos).2 ↔ ¬ kind.Reports o := by
  cases kind with
  | block => simpa [call, Store.blockPutBuffer, Reports] using hbuf
  | stdio =>
    cases o with
    | stores count =>
      simp only [call, Store.stdioPutBuffer, Store.fwrite, Reports, List.length_take]
      omega
    | fails => simp [call, Store.stdioPutBuffer, Store.fwrite, Reports]
  | file =>
    cases o with
    | stores count =>
      simp only [call, Store.filePutBuffer, Store.fwrite, Reports, List.length_take]
      omega
    | fails => simp [call, Store.filePutBuffer, Store.fwrite, Reports]

end PutBuffer

namespace Store

variable {kind : PutBuffer} {s : Store} {o : Outcome}

/-- The backend holds all bytes of the blocks, and its stream stands behind them. -/
structure Holds (kind : PutBuffer) (s : Store) (l : Block) : Prop where
  bytes : ∀ p, s.bytes p = l[p]?
  position : kind = .stdio → s.position = l.length

/-- Not all of the first `n` positions are filled, and none from there on. -/
def Gap (kind : PutBuffer) (s : Store) (n : Nat) : Prop :=
  match kind with
  | .stdio => s.position < n ∧ ∀ p, s.position ≤ p → s.bytes p = none
  | _ => (∃ p < n, s.bytes p = none) ∧ ∀ p, n ≤ p → s.bytes p = none

theorem Gap.exists_none {n : Nat} (h : s.Gap kind n) : ∃ p < n, s.bytes p = none := by
  cases kind with
  | stdio => exact ⟨s.position, h.1, h.2 _ (Nat.le_refl _)⟩
  | file => exact h.1
  | block => exact h.1

theorem writeAt_of_le {pos p : Nat} {block : Block} (h : pos + block.length ≤ p) :
    (s.writeAt pos block).bytes p = s.bytes p :=
  if_neg fun hp ↦ absurd hp.2 (Nat.not_lt.mpr h)

theorem writeAt_of_lt {pos p : Nat} {block : Block} (h : p < pos) :
    (s.writeAt pos block).bytes p = s.bytes p :=
  if_neg fun hp ↦ absurd hp.1 (Nat.not_le.mpr h)

theorem Holds.origin {l : Block} (h : s.Holds kind l) : kind.origin s l.length = l.length := by
  cases kind with
  | stdio => exact h.position rfl
  | file => rfl
  | block => rfl

theorem Holds.call {l buf : Block} (h : s.Holds kind l) (ho : o.Whole buf) :
    Holds kind (kind.call s o buf l.length).1 (l ++ buf) := by
  constructor
  · intro p
    rw [PutBuffer.bytes_call, h.origin, Outcome.part_of_whole ho]
    by_cases hlow : p < l.length
    · rw [writeAt_of_lt hlow, h.bytes, List.getElem?_append_left hlow]
    · rw [List.getElem?_append_right (Nat.le_of_not_lt hlow)]
      by_cases hhigh : p < l.length + buf.length
      · exact if_pos ⟨Nat.le_of_not_lt hlow, hhigh⟩
      · rw [writeAt_of_le (Nat.le_of_not_lt hhigh), h.bytes, List.getElem?_eq_none (Nat.le_of_not_lt hlow),
          List.getElem?_eq_none (by omega)]
  · rintro rfl
    rw [PutBuffer.position_call, h.position rfl, Outcome.part_of_whole ho, List.length_append]

theorem Holds.none_of_le {l : Block} (h : s.Holds kind l) {p : Nat} (hp : l.length ≤ p) : s.bytes p = none := by
  rw [h.bytes, List.getElem?_eq_none hp]

/-- A block that is not stored whole leaves a gap. -/
theorem Holds.gap {l buf : Block} (h : s.Holds kind l) (hbuf : 0 < buf.length) (ho : ¬ o.Whole buf) :
    Gap kind (kind.call s o buf l.length).1 (l.length + buf.length) := by
  have hlt := Outcome.length_part_lt hbuf ho
  have horigin := h.origin
  have hbeyond : ∀ p, l.length + (o.part buf).length ≤ p → (kind.call s o buf l.length).1.bytes p = none := by
    intro p hp
    rw [PutBuffer.bytes_call, horigin, writeAt_of_le hp]
    exact h.none_of_le (by omega)
  have hpositional : (∃ p < l.length + buf.length, (kind.call s o buf l.length).1.bytes p = none) ∧
      ∀ p, l.length + buf.length ≤ p → (kind.call s o buf l.length).1.bytes p = none :=
    ⟨⟨l.length + (o.part buf).length, by omega, hbeyond _ (Nat.le_refl _)⟩, fun p hp ↦ hbeyond p (by omega)⟩
  cases kind with
  | stdio =>
    have hposition := h.position rfl
    refine ⟨?_, fun p hp ↦ hbeyond p ?_⟩
    · rw [PutBuffer.position_call]
      omega
    · rw [PutBuffer.position_call] at hp
      omega
  | file => exact hpositional
  | block => exact hpositional

/-- What comes later does not fill a gap. -/
theorem Gap.call {n : Nat} (h : s.Gap kind n) (o : Outcome) (buf : Block) :
    Gap kind (kind.call s o buf n).1 (n + buf.length) := by
  have hle := o.length_part_le buf
  have hpositional (hkind : kind.origin s n = n) (h : (∃ p < n, s.bytes p = none) ∧ ∀ p, n ≤ p → s.bytes p = none) :
      (∃ p < n + buf.length, (kind.call s o buf n).1.bytes p = none) ∧
        ∀ p, n + buf.length ≤ p → (kind.call s o buf n).1.bytes p = none := by
    rw [PutBuffer.bytes_call, hkind]
    obtain ⟨⟨p, hp, hnone⟩, hbeyond⟩ := h
    refine ⟨⟨p, by omega, ?_⟩, fun q hq ↦ ?_⟩
    · rw [writeAt_of_lt hp, hnone]
    · rw [writeAt_of_le (by omega)]
      exact hbeyond q (by omega)
  cases kind with
  | stdio =>
    obtain ⟨hposition, hbeyond⟩ := h
    refine ⟨?_, fun p hp ↦ ?_⟩
    · rw [PutBuffer.position_call]
      omega
    · rw [PutBuffer.position_call] at hp
      rw [PutBuffer.bytes_call, PutBuffer.origin, writeAt_of_le hp]
      exact hbeyond p (by omega)
  | file => exact hpositional rfl h
  | block => exact hpositional rfl h

end Store

namespace QEMUFile

variable {reply : Nat → Outcome} {kind : PutBuffer} {f : QEMUFile} {emitted : List Block} {pending : Block}

/-- A file that shows no error after the blocks `emitted` reached its backend. -/
structure Clean (reply : Nat → Outcome) (kind : PutBuffer) (emitted : List Block) (pending : Block)
    (f : QEMUFile) : Prop where
  putBuffer : f.putBuffer = kind
  hasError : f.hasError = false
  buf : f.buf = pending
  isWrite : f.isWrite = false → pending.length = 0
  calls : f.calls = emitted.length
  bufOffset : f.bufOffset = emitted.flatten.length
  silent : ∀ i < emitted.length, ¬ kind.Reports (reply i)
  holds : (∀ i block, emitted[i]? = some block → (reply i).Whole block) → f.store.Holds kind emitted.flatten
  gap : ¬ (∀ i block, emitted[i]? = some block → (reply i).Whole block) → f.store.Gap kind emitted.flatten.length

/-- A file that shows an error, which was reported for one of the blocks `emitted`. -/
def Failed (reply : Nat → Outcome) (kind : PutBuffer) (emitted : List Block) (f : QEMUFile) : Prop :=
  f.hasError = true ∧ ∃ i < emitted.length, kind.Reports (reply i)

def After (reply : Nat → Outcome) (kind : PutBuffer) (emitted : List Block) (pending : Block) (f : QEMUFile) : Prop :=
  f.Clean reply kind emitted pending ∨ f.Failed reply kind emitted

theorem whole_concat_iff {block : Block} :
    (∀ i b, (emitted ++ [block])[i]? = some b → (reply i).Whole b) ↔
      (∀ i b, emitted[i]? = some b → (reply i).Whole b) ∧ (reply emitted.length).Whole block := by
  constructor
  · intro h
    refine ⟨fun i b hi ↦ h i b ?_, h emitted.length block (by simp)⟩
    rw [List.getElem?_append_left (List.getElem?_eq_some_iff.mp hi).1, hi]
  · rintro ⟨h, hlast⟩ i b hi
    rcases Nat.lt_trichotomy i emitted.length with hlt | rfl | hgt
    · rw [List.getElem?_append_left hlt] at hi
      exact h i b hi
    · simp only [List.getElem?_concat_length, Option.some.injEq] at hi
      exact hi ▸ hlast
    · rw [List.getElem?_eq_none (by simp; omega)] at hi
      cases hi

theorem Clean.flush (h : f.Clean reply kind emitted pending) (hpending : 0 < pending.length)
    (hwrite : f.isWrite = true) :
    (f.qemuFflush reply).After reply kind (emitted ++ [pending]) [] := by
  have hpos := PutBuffer.call_pos_iff kind f.store (reply emitted.length) emitted.flatten.length hpending
  have hflatten : (emitted ++ [pending]).flatten = emitted.flatten ++ pending := by simp
  unfold qemuFflush
  rw [if_pos ⟨hwrite, h.buf.symm ▸ hpending⟩, h.putBuffer, h.calls, h.buf, h.bufOffset]
  by_cases hreport : kind.Reports (reply emitted.length)
  · refine .inr ⟨?_, emitted.length, by simp, hreport⟩
    simp only [if_neg fun hlen ↦ hpos.mp hlen hreport]
  · simp only [if_pos (hpos.mpr hreport)]
    refine .inl ⟨rfl, h.hasError, rfl, fun _ ↦ rfl, by simp, ?_, ?_, ?_, ?_⟩
    · rw [hflatten, List.length_append]
    · intro i hi
      rw [List.length_append, List.length_singleton] at hi
      rcases Nat.lt_succ_iff_lt_or_eq.mp hi with hlt | rfl
      · exact h.silent i hlt
      · exact hreport
    · rw [whole_concat_iff, hflatten]
      rintro ⟨hwhole, hlast⟩
      exact (h.holds hwhole).call hlast
    · rw [whole_concat_iff, hflatten, List.length_append, not_and_or]
      by_cases hwhole : ∀ i b, emitted[i]? = some b → (reply i).Whole b
      · rintro (hnot | hlast)
        · exact absurd hwhole hnot
        · exact (h.holds hwhole).gap hpending hlast
      · exact fun _ ↦ (h.gap hwhole).call _ _

theorem hasError_qemuFflush (h : f.hasError = true) : (f.qemuFflush reply).hasError = true := by
  unfold qemuFflush
  split
  · dsimp only
    split
    · exact h
    · rfl
  · exact h

theorem hasError_fill (h : f.hasError = true) (bytes : Block) : (f.fill reply bytes).hasError = true := by
  simp only [fill]
  split
  · exact hasError_qemuFflush h
  · exact h

theorem Clean.append (h : f.Clean reply kind emitted pending) (bytes : Block) :
    Clean reply kind emitted (pending ++ bytes) { f with buf := f.buf ++ bytes, isWrite := true } :=
  ⟨h.putBuffer, h.hasError, congrArg (· ++ bytes) h.buf, by simp, h.calls, h.bufOffset, h.silent, h.holds, h.gap⟩

theorem Clean.fill (h : f.Clean reply kind emitted pending) (bytes : Block) (hbytes : 0 < bytes.length) :
    if ioBufSize ≤ (pending ++ bytes).length then
      (f.fill reply bytes).After reply kind (emitted ++ [pending ++ bytes]) []
    else (f.fill reply bytes).Clean reply kind emitted (pending ++ bytes) := by
  have happend := h.append bytes
  simp only [QEMUFile.fill, h.buf]
  rw [h.buf] at happend
  split
  · refine happend.flush ?_ rfl
    rw [List.length_append]
    omega
  · exact happend

theorem cut_of_lt {bytes : Block} (rest : Block) (h : (pending ++ bytes).length < ioBufSize) :
    cut pending (bytes ++ rest) = cut (pending ++ bytes) rest := by
  induction bytes generalizing pending with
  | nil => rw [List.append_nil, List.nil_append]
  | cons b bytes ih =>
    have happend : pending ++ b :: bytes = pending ++ [b] ++ bytes := by simp
    rw [happend] at h ⊢
    have hshort : ¬ ioBufSize ≤ (pending ++ [b]).length := by
      rw [List.length_append] at h
      omega
    rw [List.cons_append, cut]
    exact (if_neg hshort).trans (ih h)

theorem cut_full {bytes : Block} (rest : Block) (hbytes : 0 < bytes.length)
    (h : (pending ++ bytes).length = ioBufSize) :
    cut pending (bytes ++ rest) = ((pending ++ bytes) :: (cut [] rest).1, (cut [] rest).2) := by
  obtain ⟨front, b, rfl⟩ := (List.eq_nil_or_concat' bytes).resolve_left (List.length_pos_iff.mp hbytes)
  rw [← List.append_assoc] at h ⊢
  have hfront : (pending ++ front).length < ioBufSize := by
    rw [List.length_append, List.length_singleton] at h
    omega
  rw [List.append_assoc front [b] rest, cut_of_lt _ hfront, List.singleton_append, cut]
  exact if_pos (Nat.le_of_eq h.symm)

theorem length_cut_lt (bytes : Block) (h : pending.length < ioBufSize) : (cut pending bytes).2.length < ioBufSize := by
  induction bytes generalizing pending with
  | nil => exact h
  | cons b bytes ih =>
    rw [cut]
    dsimp only
    split
    · exact ih (by decide)
    · exact ih (Nat.lt_of_not_le ‹_›)

theorem Failed.append (h : f.Failed reply kind emitted) (more : List Block) :
    f.Failed reply kind (emitted ++ more) := by
  obtain ⟨herror, i, hi, hreport⟩ := h
  refine ⟨herror, i, ?_, hreport⟩
  rw [List.length_append]
  omega

theorem putLoop_of_hasError (h : f.hasError = true) (buf : Block) : f.putLoop reply buf = .ok f := by
  rw [putLoop, if_pos (.inl h)]

-- The loop fills the buffer up to its end, so that a turn after the first begins with an empty one.
theorem Clean.putLoop (h : f.Clean reply kind emitted pending) (hpending : pending.length < ioBufSize) (buf : Block) :
    ∃ g, f.putLoop reply buf = .ok g ∧
      g.After reply kind (emitted ++ (cut pending buf).1) (cut pending buf).2 := by
  induction hn : buf.length using Nat.strongRecOn generalizing f emitted pending buf with
  | ind n ih =>
    subst hn
    rw [QEMUFile.putLoop]
    by_cases hbuf : buf.length = 0
    · rw [if_pos (.inr hbuf)]
      cases List.length_eq_zero_iff.mp hbuf
      refine ⟨f, rfl, .inl ?_⟩
      simpa [cut] using h
    rw [if_neg (by simp [h.hasError, hbuf]), h.buf]
    generalize hl : min (ioBufSize - pending.length) buf.length = l
    have hlpos : l ≠ 0 := by omega
    have htake : (buf.take l).length = l := List.length_take_of_le (by omega)
    have hfill := h.fill (buf.take l) (by omega)
    have hdrop : (buf.drop l).length < buf.length := by
      rw [List.length_drop]
      omega
    simp only [if_neg hlpos]
    by_cases hfull : ioBufSize ≤ (pending ++ buf.take l).length
    · rw [if_pos hfull] at hfill
      have hlength : (pending ++ buf.take l).length = ioBufSize := by
        rw [List.length_append] at hfull ⊢
        omega
      have hcut := cut_full (buf.drop l) (by omega) hlength
      rw [List.take_append_drop] at hcut
      rw [hcut]
      rcases hfill with hclean | herror
      · obtain ⟨g, hg, hafter⟩ := ih _ hdrop hclean (by decide) _ rfl
        refine ⟨g, hg, ?_⟩
        rwa [List.append_assoc] at hafter
      · refine ⟨_, putLoop_of_hasError herror.1 _, .inr ?_⟩
        have hmore := herror.append (cut [] (buf.drop l)).1
        rwa [List.append_assoc] at hmore
    · rw [if_neg hfull] at hfill
      obtain ⟨g, hg, hafter⟩ := ih _ hdrop hfill (Nat.lt_of_not_le hfull) _ rfl
      refine ⟨g, hg, ?_⟩
      have hcut := cut_of_lt (buf.drop l) (Nat.lt_of_not_le hfull)
      rw [List.take_append_drop] at hcut
      rwa [hcut]

theorem not_readBuffered_of_hasError (h : f.hasError = true) : ¬ f.ReadBuffered := by
  intro hread
  cases h.symm.trans hread.1

theorem Clean.not_readBuffered (h : f.Clean reply kind emitted pending) : ¬ f.ReadBuffered := by
  rintro ⟨-, hwrite, hbuf⟩
  rw [h.buf, h.isWrite hwrite] at hbuf
  cases hbuf

theorem Failed.step (h : f.Failed reply kind emitted) (op : Op) :
    ∃ g, f.step reply op = .ok (g, ()) ∧ g.Failed reply kind emitted := by
  obtain ⟨herror, hreport⟩ := h
  have hguard := not_readBuffered_of_hasError herror
  cases op with
  | putBuffer buf =>
    refine ⟨f, ?_, herror, hreport⟩
    simp only [QEMUFile.step, qemuPutBuffer, if_neg hguard, putLoop_of_hasError herror, Except.map]
  | putByte v =>
    refine ⟨f.fill reply [v.toInt8.toUInt8], ?_, hasError_fill herror _, hreport⟩
    simp only [QEMUFile.step, qemuPutByte, if_neg hguard, Except.map]
  | flush => exact ⟨_, rfl, hasError_qemuFflush herror, hreport⟩

/-- What an operation adds to the blocks, and what is pending after it. -/
def add (pending : Block) : Op → List Block × Block
  | .flush => if pending.length = 0 then ([], []) else ([pending], [])
  | op => cut pending op.bytes

theorem blocks_cons (pending : Block) (op : Op) (ops : List Op) :
    blocks pending (op :: ops) = (add pending op).1 ++ blocks (add pending op).2 ops := by
  cases op with
  | putBuffer buf => rfl
  | putByte v => rfl
  | flush =>
    rw [blocks, add]
    split <;> rfl

theorem length_add_lt (op : Op) (h : pending.length < ioBufSize) : (add pending op).2.length < ioBufSize := by
  cases op with
  | putBuffer buf => exact length_cut_lt buf h
  | putByte v => exact length_cut_lt _ h
  | flush =>
    have hnil : (add pending .flush).2 = [] := by
      rw [add]
      split <;> rfl
    rw [hnil]
    decide

theorem Clean.step (h : f.Clean reply kind emitted pending) (hpending : pending.length < ioBufSize) (op : Op) :
    ∃ g, f.step reply op = .ok (g, ()) ∧
      g.After reply kind (emitted ++ (add pending op).1) (add pending op).2 := by
  have hguard := h.not_readBuffered
  cases op with
  | putBuffer buf =>
    obtain ⟨g, hg, hafter⟩ := h.putLoop hpending buf
    refine ⟨g, ?_, hafter⟩
    simp only [QEMUFile.step, qemuPutBuffer, if_neg hguard, hg, Except.map]
  | putByte v =>
    refine ⟨f.fill reply [v.toInt8.toUInt8], ?_, ?_⟩
    · simp only [QEMUFile.step, qemuPutByte, if_neg hguard, Except.map]
    · have hfill := h.fill [v.toInt8.toUInt8] Nat.one_pos
      simp only [add, Op.bytes, cut]
      split
      · rwa [if_pos ‹_›] at hfill
      · rw [if_neg ‹_›] at hfill
        rw [List.append_nil]
        exact .inl hfill
  | flush =>
    refine ⟨_, rfl, ?_⟩
    rw [add]
    by_cases hempty : pending.length = 0
    · rw [if_pos hempty, List.append_nil]
      have hnone : f.qemuFflush reply = f := by
        unfold qemuFflush
        rw [h.buf, hempty]
        exact if_neg fun hpos ↦ absurd hpos.2 (Nat.lt_irrefl 0)
      rw [hnone]
      exact .inl (List.length_eq_zero_iff.mp hempty ▸ h)
    · rw [if_neg hempty]
      have hwrite : f.isWrite = true := by
        by_contra hread
        exact hempty (h.isWrite (Bool.eq_false_iff.mpr hread))
      exact h.flush (Nat.pos_of_ne_zero hempty) hwrite

theorem Failed.run (h : f.Failed reply kind emitted) (ops : List Op) :
    ∃ g, Run (QEMUFile.step reply) f ops g ∧ g.Failed reply kind emitted := by
  induction ops generalizing f with
  | nil => exact ⟨f, .nil f, h⟩
  | cons op ops ih =>
    obtain ⟨g, hg, hfailed⟩ := h.step op
    obtain ⟨t, ht, hend⟩ := ih hfailed
    exact ⟨t, .cons hg ht, hend⟩

theorem Clean.run (h : f.Clean reply kind emitted pending) (hpending : pending.length < ioBufSize) (ops : List Op) :
    ∃ g rest, Run (QEMUFile.step reply) f ops g ∧ g.After reply kind (emitted ++ blocks pending ops) rest := by
  induction ops generalizing f emitted pending with
  | nil => exact ⟨f, pending, .nil f, .inl (by simpa [blocks] using h)⟩
  | cons op ops ih =>
    rw [blocks_cons, ← List.append_assoc]
    obtain ⟨g, hg, hclean | hfailed⟩ := h.step hpending op
    · obtain ⟨t, rest, ht, hafter⟩ := ih hclean (length_add_lt op hpending)
      exact ⟨t, rest, .cons hg ht, hafter⟩
    · obtain ⟨t, ht, hend⟩ := hfailed.run ops
      exact ⟨t, [], .cons hg ht, .inr (hend.append _)⟩

theorem flatten_cut (pending bytes : Block) :
    (cut pending bytes).1.flatten ++ (cut pending bytes).2 = pending ++ bytes := by
  induction bytes generalizing pending with
  | nil => simp [cut]
  | cons b bytes ih =>
    have happend : pending ++ b :: bytes = pending ++ [b] ++ bytes := by simp
    rw [cut, happend]
    dsimp only
    split
    · rw [List.flatten_cons, List.append_assoc, ih, List.nil_append]
    · exact ih _

theorem flatten_blocks (pending : Block) (ops : List Op) :
    (blocks pending (ops ++ [.flush])).flatten = pending ++ ops.flatMap Op.bytes := by
  induction ops generalizing pending with
  | nil =>
    rw [List.nil_append, blocks_cons, add]
    split
    · cases List.length_eq_zero_iff.mp ‹_›
      rfl
    · simp [blocks]
  | cons op ops ih =>
    rw [List.cons_append, blocks_cons, List.flatten_append, ih, List.flatMap_cons, ← List.append_assoc,
      ← List.append_assoc]
    congr 1
    cases op with
    | putBuffer buf => exact flatten_cut pending buf
    | putByte v => exact flatten_cut pending _
    | flush =>
      rw [add]
      split
      · cases List.length_eq_zero_iff.mp ‹_›
        rfl
      · simp [Op.bytes]

theorem clean_qemuFopenOps (reply : Nat → Outcome) (kind : PutBuffer) :
    (qemuFopenOps kind).Clean reply kind [] [] := by
  have hwhole : ∀ i b, ([] : List Block)[i]? = some b → (reply i).Whole b := by simp
  refine ⟨rfl, rfl, rfl, fun _ ↦ rfl, rfl, rfl, ?_, ?_, fun h ↦ absurd hwhole h⟩
  · intro i hi
    cases hi
  · intro _
    refine ⟨fun p ↦ ?_, fun _ ↦ rfl⟩
    simp [qemuFopenOps, Store.empty]

end QEMUFile

/-- After any puts and flushes and a last flush, a file that shows no error holds all that was
put if and only if a failure was reported for one of the blocks or all of them were stored
whole. -/
theorem saved_complete_iff (kind : PutBuffer) (reply : Nat → Outcome) (ops : List Op) :
    ∃ f, Run (QEMUFile.step reply) (qemuFopenOps kind) (ops ++ [.flush]) f ∧
      (f.Complete ops ↔ (∃ i < (blocks [] (ops ++ [.flush])).length, kind.Reports (reply i)) ∨
        ∀ i block, (blocks [] (ops ++ [.flush]))[i]? = some block → (reply i).Whole block) := by
  obtain ⟨f, rest, hrun, hafter⟩ := (QEMUFile.clean_qemuFopenOps reply kind).run (by decide) (ops ++ [.flush])
  refine ⟨f, hrun, ?_⟩
  have hflatten := QEMUFile.flatten_blocks [] ops
  rw [List.nil_append] at hafter hflatten
  rcases hafter with hclean | ⟨herror, hreport⟩
  · constructor
    · intro hcomplete
      refine .inr ?_
      by_contra hshort
      obtain ⟨p, hp, hnone⟩ := (hclean.gap hshort).exists_none
      rw [hcomplete hclean.hasError p, ← hflatten, List.getElem?_eq_none_iff] at hnone
      omega
    · rintro (⟨i, hi, hreport⟩ | hwhole)
      · exact absurd hreport (hclean.silent i hi)
      · intro _ p
        rw [(hclean.holds hwhole).bytes, hflatten]
  · constructor
    · exact fun _ ↦ .inl hreport
    · intro _ hnone
      cases herror.symm.trans hnone

/-- One of the two bytes is stored. -/
theorem saved_complete_fails : ∃ f, Run (QEMUFile.step fun _ ↦ .stores 1) (qemuFopenOps .stdio)
    ([.putByte 7, .putByte 8] ++ [.flush]) f ∧ ¬ f.Complete [.putByte 7, .putByte 8] := by
  obtain ⟨f, hrun, herror, hnone⟩ : ∃ f, Run (QEMUFile.step fun _ ↦ .stores 1) (qemuFopenOps .stdio)
      ([.putByte 7, .putByte 8] ++ [.flush]) f ∧ f.hasError = false ∧ f.store.bytes 1 = none :=
    exists_run_of_exec (by decide +kernel)
  refine ⟨f, hrun, fun hcomplete ↦ ?_⟩
  have hsome := hcomplete herror 1
  rw [hnone] at hsome
  cases hsome

end IDeviceEmulator.SaveVm
