import IDeviceEmulator.Library.Segments

namespace IDeviceEmulator.Block.Vectors

open Memory Segments

abbrev Iovec := Segment 64

/-- A vector of buffers. Without an allocation the vector is external. -/
structure QEMUIOVector where
  iov : List Iovec
  nalloc : Option Nat
  size : Nat
  size_eq : size = total iov
  room : ∀ n ∈ nalloc, iov.length ≤ n

def qemuIovecInit (allocHint : Nat) : QEMUIOVector := ⟨[], some allocHint, 0, total_nil.symm, fun n _ ↦ Nat.zero_le n⟩

def qemuIovecInitExternal (iov : List Iovec) : QEMUIOVector := ⟨iov, none, total iov, rfl, nofun⟩

def nallocFor (n niov : Nat) : Nat := if niov = n then 2 * n + 1 else n

theorem lt_nallocFor {n niov : Nat} (h : niov ≤ n) : niov + 1 ≤ nallocFor n niov := by
  unfold nallocFor
  split_ifs <;> omega

-- Without a result where an assertion fails.
def qemuIovecAdd (qiov : QEMUIOVector) (base : BitVec 64) (len : Nat) : Option QEMUIOVector :=
  match h : qiov.nalloc with
  | none => none
  | some n => some {
      iov := qiov.iov ++ [⟨base, len⟩]
      nalloc := some (nallocFor n qiov.iov.length)
      size := qiov.size + len
      size_eq := by rw [qiov.size_eq, total, total, List.map_append, List.sum_append]; rfl
      room := by
        intro _ hn
        cases hn
        rw [List.length_append]
        exact lt_nallocFor (qiov.room n h) }

/-- The loop of `qemu_iovec_copy` over what is left of the source. -/
def copyLoop (size : Nat) : QEMUIOVector → List Iovec → Nat → Nat → Option QEMUIOVector
  | dst, [], _, _ => some dst
  | dst, v :: iov, skip, done =>
    if done = size then some dst
    else if v.len ≤ skip then copyLoop size dst iov (skip - v.len) done
    else
      let iovBase := v.base + BitVec.ofNat 64 skip
      let iovLen := v.len - skip
      if size < done + iovLen then qemuIovecAdd dst iovBase (size - done)
      else (qemuIovecAdd dst iovBase iovLen).bind fun dst ↦ copyLoop size dst iov 0 (done + iovLen)

def qemuIovecCopy (dst src : QEMUIOVector) (skip size : Nat) : Option QEMUIOVector :=
  if dst.nalloc = none then none else copyLoop size dst src.iov skip 0

section Writers

def memset (m : Mem 64) (base : BitVec 64) (c : Int) (n : Nat) : Mem 64 := put m base n fun _ ↦ BitVec.ofInt 8 c

def memsetLoop (c : Int) : Mem 64 → List Iovec → Nat → Mem 64
  | m, [], _ => m
  | m, v :: iov, count =>
    if count = 0 then m
    else
      let n := min count v.len
      memsetLoop c (memset m v.base c n) iov (count - n)

def qemuIovecMemset (m : Mem 64) (qiov : QEMUIOVector) (c : Int) (count : Nat) : Mem 64 :=
  memsetLoop c m qiov.iov count

def memsetSkipLoop (c : Int) (count : Nat) : Mem 64 → List Iovec → Nat → Nat → Mem 64
  | m, [], _, _ => m
  | m, v :: iov, skip, done =>
    if done = count then m
    else if v.len ≤ skip then memsetSkipLoop c count m iov (skip - v.len) done
    else
      let iovBase := v.base + BitVec.ofNat 64 skip
      let iovLen := v.len - skip
      if count < done + iovLen then memset m iovBase c (count - done)
      else memsetSkipLoop c count (memset m iovBase c iovLen) iov 0 (done + iovLen)

def qemuIovecMemsetSkip (m : Mem 64) (qiov : QEMUIOVector) (c : Int) (count skip : Nat) : Mem 64 :=
  memsetSkipLoop c count m qiov.iov skip 0

def fromBufferLoop : Mem 64 → List Iovec → (Nat → Byte) → Nat → Mem 64
  | m, [], _, _ => m
  | m, v :: iov, p, count =>
    if count = 0 then m
    else
      let copy := if v.len < count then v.len else count
      fromBufferLoop (put m v.base copy p) iov (fun i ↦ p (copy + i)) (count - copy)

def qemuIovecFromBuffer (m : Mem 64) (qiov : QEMUIOVector) (buf : Nat → Byte) (count : Nat) : Mem 64 :=
  fromBufferLoop m qiov.iov buf count

-- With the offset that the source returns.
def fromBufLoop (buf : Nat → Byte) (size : Nat) : Mem 64 → List Iovec → Nat → Mem 64 × Nat
  | m, [], offset => (m, offset)
  | m, v :: iov, offset =>
    if offset < size then
      let len := min v.len (size - offset)
      fromBufLoop buf size (put m v.base len fun i ↦ buf (offset + i)) iov (offset + len)
    else (m, offset)

def iovFromBuf (m : Mem 64) (iov : List Iovec) (buf : Nat → Byte) (size : Nat) : Mem 64 × Nat :=
  fromBufLoop buf size m iov 0

end Writers

section Readers

def qemuIovecToBuffer (m : Mem 64) (qiov : QEMUIOVector) : List Byte :=
  qiov.iov.foldl (fun p v ↦ p ++ v.bytes m) []

-- With the bytes in the buffer and their number.
def toBufLoop (m : Mem 64) : List Iovec → Nat → Nat → Nat → List Byte → Nat → List Byte × Nat
  | [], _, _, _, buf, bufOff => (buf, bufOff)
  | v :: iov, iovOff, offset, size, buf, bufOff =>
    if size = 0 then (buf, bufOff)
    else if offset < iovOff + v.len then
      let len := min (iovOff + v.len - offset) size
      let part : Iovec := ⟨v.base + BitVec.ofNat 64 (offset - iovOff), len⟩
      toBufLoop m iov (iovOff + v.len) (offset + len) (size - len) (buf ++ part.bytes m) (bufOff + len)
    else toBufLoop m iov (iovOff + v.len) offset size buf bufOff

def iovToBuf (m : Mem 64) (iov : List Iovec) (offset size : Nat) : List Byte × Nat :=
  toBufLoop m iov 0 offset size [] 0

end Readers

variable {m : Mem 64} {iov : List Iovec} {skip done size count : Nat} {buf : Nat → Byte} {c : Int}

section Copy

theorem qemuIovecAdd_isSome {qiov : QEMUIOVector} (h : qiov.nalloc ≠ none) (base : BitVec 64) (len : Nat) :
    ∃ r, qemuIovecAdd qiov base len = some r ∧ r.iov = qiov.iov ++ [⟨base, len⟩] ∧ r.nalloc ≠ none := by
  unfold qemuIovecAdd
  split
  · exact absurd ‹_› h
  · exact ⟨_, rfl, rfl, Option.some_ne_none _⟩

theorem slice_zero (iov : List Iovec) (skip : Nat) : slice iov skip 0 = [] := by
  cases iov with
  | nil => rfl
  | cons v iov => rw [slice, if_pos rfl]

theorem copyLoop_slice {dst : QEMUIOVector} (hdst : dst.nalloc ≠ none) (iov : List Iovec) (skip : Nat)
    (hdone : done ≤ size) :
    ∃ r, copyLoop size dst iov skip done = some r ∧ r.iov = dst.iov ++ slice iov skip (size - done) := by
  induction iov generalizing dst skip done with
  | nil => exact ⟨dst, rfl, (List.append_nil _).symm⟩
  | cons v iov ih =>
    rw [copyLoop, slice]
    by_cases hfull : done = size
    · rw [if_pos hfull, if_pos (by omega), List.append_nil]
      exact ⟨dst, rfl, rfl⟩
    · rw [if_neg hfull, if_neg (show ¬ size - done = 0 by omega)]
      by_cases hskip : v.len ≤ skip
      · rw [if_pos hskip, if_pos hskip]
        exact ih hdst _ hdone
      · rw [if_neg hskip, if_neg hskip]
        dsimp only
        by_cases hlast : size < done + (v.len - skip)
        · obtain ⟨r, hr, hiov, -⟩ := qemuIovecAdd_isSome hdst (v.base + BitVec.ofNat 64 skip) (size - done)
          rw [if_pos hlast, Nat.min_eq_right (by omega), Nat.sub_self, slice_zero]
          exact ⟨r, hr, hiov⟩
        · obtain ⟨r, hr, hiov, hnalloc⟩ := qemuIovecAdd_isSome hdst (v.base + BitVec.ofNat 64 skip) (v.len - skip)
          obtain ⟨r', hr', hiov'⟩ := ih hnalloc 0 (by omega : done + (v.len - skip) ≤ size)
          rw [if_neg hlast, hr, Nat.min_eq_left (by omega), ← Nat.sub_add_eq]
          refine ⟨r', hr', ?_⟩
          rw [hiov', hiov, List.append_assoc]
          rfl

end Copy

section Write

theorem fill_cons (g : Nat → Byte) (m : Mem 64) (v : Iovec) (iov : List Iovec) (skip n : Nat) :
    fill g m (v :: iov) skip n = if v.len ≤ skip then fill g m iov (skip - v.len) n
      else fill (fun i ↦ g (min (v.len - skip) n + i)) (put m (v.base + BitVec.ofNat 64 skip) (min (v.len - skip) n) g)
        iov 0 (n - min (v.len - skip) n) := rfl

-- Without bytes to skip an empty buffer is not passed over, but nothing is written to it.
theorem fill_first (g : Nat → Byte) (m : Mem 64) (v : Iovec) (iov : List Iovec) (n : Nat) :
    fill g m (v :: iov) 0 n =
      fill (fun i ↦ g (min v.len n + i)) (put m v.base (min v.len n) g) iov 0 (n - min v.len n) := by
  rw [fill_cons]
  split_ifs with hzero
  · rw [Nat.le_zero.mp hzero, Nat.zero_min, put_zero]
    simp
  · rw [BitVec.add_zero]
    rfl

theorem memsetLoop_eq (c : Int) (m : Mem 64) (iov : List Iovec) (count : Nat) :
    memsetLoop c m iov count = fill (fun _ ↦ BitVec.ofInt 8 c) m iov 0 count := by
  induction iov generalizing m count with
  | nil => rfl
  | cons v iov ih =>
    rw [memsetLoop]
    split_ifs with hzero
    · rw [hzero, fill_zero]
    · rw [fill_first, ih, memset, Nat.min_comm]

theorem fromBufferLoop_eq (m : Mem 64) (iov : List Iovec) (p : Nat → Byte) (count : Nat) :
    fromBufferLoop m iov p count = fill p m iov 0 count := by
  induction iov generalizing m p count with
  | nil => rfl
  | cons v iov ih =>
    rw [fromBufferLoop]
    split_ifs with hzero hlen
    · rw [hzero, fill_zero]
    · rw [fill_first, ih, Nat.min_eq_left hlen.le]
    · rw [fill_first, ih, Nat.min_eq_right (Nat.not_lt.mp hlen)]

theorem memsetSkipLoop_eq (m : Mem 64) (iov : List Iovec) (skip : Nat) (hdone : done ≤ count) :
    memsetSkipLoop c count m iov skip done = fill (fun _ ↦ BitVec.ofInt 8 c) m iov skip (count - done) := by
  induction iov generalizing m skip done with
  | nil => rfl
  | cons v iov ih =>
    rw [memsetSkipLoop, fill_cons]
    by_cases hfull : done = count
    · rw [if_pos hfull, hfull, Nat.sub_self, Nat.min_zero, put_zero, fill_zero, fill_zero, ite_self]
    · rw [if_neg hfull]
      by_cases hskip : v.len ≤ skip
      · rw [if_pos hskip, if_pos hskip, ih m _ hdone]
      · rw [if_neg hskip, if_neg hskip]
        dsimp only
        by_cases hlast : count < done + (v.len - skip)
        · rw [if_pos hlast, Nat.min_eq_right (by omega), Nat.sub_self, fill_zero]
          rfl
        · rw [if_neg hlast, Nat.min_eq_left (by omega), ih _ 0 (by omega), Nat.sub_add_eq]
          rfl

theorem fromBufLoop_eq (m : Mem 64) (iov : List Iovec) {offset : Nat} (hoffset : offset ≤ size) :
    fromBufLoop buf size m iov offset =
      (fill (fun i ↦ buf (offset + i)) m iov 0 (size - offset), offset + min (total iov) (size - offset)) := by
  induction iov generalizing m offset with
  | nil => simp [fromBufLoop, total, fill]
  | cons v iov ih =>
    rw [fromBufLoop]
    split_ifs with hlt
    · dsimp only
      rw [ih _ (by omega), fill_first, ← Nat.sub_sub]
      refine Prod.ext ?_ ?_
      · simp only [Nat.add_assoc]
      · simp only [total, List.map_cons, List.sum_cons]
        omega
    · rw [show size - offset = 0 by omega, fill_zero, Nat.min_zero, Nat.add_zero]

end Write

section Read

theorem toBuffer_eq (m : Mem 64) (iov : List Iovec) (p : List Byte) :
    iov.foldl (fun p v ↦ p ++ Segment.bytes m v) p = p ++ concat m iov := by
  induction iov generalizing p with
  | nil => exact (List.append_nil p).symm
  | cons v iov ih => rw [List.foldl_cons, ih, concat_cons, List.append_assoc]

theorem toBufLoop_zero (m : Mem 64) (iov : List Iovec) (iovOff offset : Nat) (out : List Byte) (moved : Nat) :
    toBufLoop m iov iovOff offset 0 out moved = (out, moved) := by
  cases iov with
  | nil => rfl
  | cons v iov => rw [toBufLoop, if_pos rfl]

theorem toBufLoop_eq (m : Mem 64) (iov : List Iovec) {iovOff offset : Nat} (size : Nat) (out : List Byte)
    (hoffset : iovOff ≤ offset) :
    toBufLoop m iov iovOff offset size out out.length =
      (out ++ ((concat m iov).drop (offset - iovOff)).take size,
        (out ++ ((concat m iov).drop (offset - iovOff)).take size).length) := by
  induction iov generalizing iovOff offset size out with
  | nil => simp [toBufLoop]
  | cons v iov ih =>
    rw [toBufLoop]
    by_cases hzero : size = 0
    · rw [if_pos hzero, hzero, List.take_zero, List.append_nil]
    · rw [if_neg hzero, concat_cons, List.drop_append, length_bytes]
      by_cases hin : offset < iovOff + v.len
      · rw [if_pos hin, show iovOff + v.len - offset = v.len - (offset - iovOff) by omega]
        dsimp only
        rw [bytes_part]
        have hlength : out.length + min (v.len - (offset - iovOff)) size =
            (out ++ ((v.bytes m).drop (offset - iovOff)).take size).length := by
          rw [List.length_append, List.length_take, List.length_drop, length_bytes, Nat.min_comm]
        rw [hlength, List.take_append, List.length_drop, length_bytes]
        by_cases hlast : size ≤ v.len - (offset - iovOff)
        · rw [Nat.min_eq_right hlast, Nat.sub_self, toBufLoop_zero, Nat.sub_eq_zero_of_le hlast, List.take_zero,
            List.append_nil]
        · rw [Nat.min_eq_left (by omega), ih _ _ (by omega), List.append_assoc,
            show offset + (v.len - (offset - iovOff)) - (iovOff + v.len) = offset - iovOff - v.len by omega]
      · rw [if_neg hin, ih size out (by omega)]
        have hnone : (v.bytes m).drop (offset - iovOff) = [] := by
          apply List.drop_eq_nil_of_le
          rw [length_bytes]
          omega
        rw [hnone, List.nil_append, Nat.sub_sub]

end Read

section Agreement

variable {qiov : QEMUIOVector}

theorem take_overlay (buf : Nat → Byte) (size : Nat) (bytes : List Byte) :
    (overlay buf 0 size bytes).take size = (List.range (min bytes.length size)).map buf := by
  apply List.ext_getElem
  · rw [List.length_take, overlay, List.length_mapIdx, List.length_map, List.length_range, Nat.min_comm]
  · intro i hi _
    rw [List.length_take] at hi
    simp only [overlay, List.getElem_take, List.getElem_mapIdx, List.getElem_map, List.getElem_range]
    rw [if_pos (by omega), Nat.sub_zero]

/-- The helpers do on the bytes of the vectors, one behind the other, what they would do on one buffer. -/
structure Agrees (m : Mem 64) (dst src qiov : QEMUIOVector) (buf : Nat → Byte) (c : Int) (skip size : Nat) : Prop where
  copy : ∃ r added, qemuIovecCopy dst src skip size = some r ∧ r.iov = dst.iov ++ added ∧
    (∀ m, concat m added = ((concat m src.iov).drop skip).take size) ∧
    r.size = dst.size + min size (src.size - skip)
  memset_skip : concat (qemuIovecMemsetSkip m qiov c size skip) qiov.iov =
    overlay (fun _ ↦ BitVec.ofInt 8 c) skip size (concat m qiov.iov)
  memset : concat (qemuIovecMemset m qiov c size) qiov.iov =
    overlay (fun _ ↦ BitVec.ofInt 8 c) 0 size (concat m qiov.iov)
  buffer : (qemuIovecToBuffer (qemuIovecFromBuffer m qiov buf size) qiov).take size =
    (List.range (min qiov.size size)).map buf
  from_buf : (iovFromBuf m qiov.iov buf size).2 = min qiov.size size
  to_buf : iovToBuf (iovFromBuf m qiov.iov buf size).1 qiov.iov 0 size =
    ((List.range (min qiov.size size)).map buf, min qiov.size size)
  to_buf_skip : iovToBuf m qiov.iov skip size =
    (((concat m qiov.iov).drop skip).take size, min size (qiov.size - skip))
  outside : ∀ x, (∀ v ∈ qiov.iov, ¬ Memory.Covers v.base v.len x) → qemuIovecMemsetSkip m qiov c size skip x = m x ∧
    qemuIovecMemset m qiov c size x = m x ∧ qemuIovecFromBuffer m qiov buf size x = m x ∧
    (iovFromBuf m qiov.iov buf size).1 x = m x

theorem copy_agrees {dst : QEMUIOVector} (hdst : dst.nalloc ≠ none) (src : QEMUIOVector) (skip size : Nat) :
    ∃ r added, qemuIovecCopy dst src skip size = some r ∧ r.iov = dst.iov ++ added ∧
      (∀ m, concat m added = ((concat m src.iov).drop skip).take size) ∧
      r.size = dst.size + min size (src.size - skip) := by
  obtain ⟨r, hr, hiov⟩ := copyLoop_slice hdst src.iov skip (Nat.zero_le size)
  refine ⟨r, _, ?_, hiov, fun m ↦ concat_slice m src.iov skip size, ?_⟩
  · rw [qemuIovecCopy, if_neg hdst, hr]
  · have hlength := congrArg List.length (concat_slice (fun _ ↦ 0) src.iov skip size)
    rw [length_concat, List.length_take, List.length_drop, length_concat] at hlength
    rw [r.size_eq, dst.size_eq, src.size_eq, hiov, total, List.map_append, List.sum_append]
    exact congrArg _ hlength

theorem helpers_agree (dst src qiov : QEMUIOVector) (hdst : dst.nalloc ≠ none) (hqiov : Separate qiov.iov)
    (m : Mem 64) (buf : Nat → Byte) (c : Int) (skip size : Nat) : Agrees m dst src qiov buf c skip size := by
  have hskip : qemuIovecMemsetSkip m qiov c size skip = fill (fun _ ↦ BitVec.ofInt 8 c) m qiov.iov skip size :=
    memsetSkipLoop_eq m qiov.iov skip (Nat.zero_le size)
  have hset : qemuIovecMemset m qiov c size = fill (fun _ ↦ BitVec.ofInt 8 c) m qiov.iov 0 size :=
    memsetLoop_eq c m qiov.iov size
  have hbuffer : qemuIovecFromBuffer m qiov buf size = fill buf m qiov.iov 0 size :=
    fromBufferLoop_eq m qiov.iov buf size
  have hbuf : iovFromBuf m qiov.iov buf size = (fill buf m qiov.iov 0 size, min qiov.size size) := by
    rw [iovFromBuf, fromBufLoop_eq m qiov.iov (Nat.zero_le size), qiov.size_eq]
    simp only [Nat.zero_add, Nat.sub_zero]
  have hto (m : Mem 64) (offset : Nat) : iovToBuf m qiov.iov offset size =
      (((concat m qiov.iov).drop offset).take size, (((concat m qiov.iov).drop offset).take size).length) :=
    toBufLoop_eq m qiov.iov size [] (Nat.zero_le offset)
  have hsize (m : Mem 64) : (concat m qiov.iov).length = qiov.size := by rw [length_concat, qiov.size_eq]
  have hoverlay : (concat (fill buf m qiov.iov 0 size) qiov.iov).take size =
      (List.range (min qiov.size size)).map buf := by
    rw [concat_fill hqiov, take_overlay, hsize]
  exact {
    copy := copy_agrees hdst src skip size
    memset_skip := by rw [hskip, concat_fill hqiov]
    memset := by rw [hset, concat_fill hqiov]
    buffer := by rw [hbuffer, qemuIovecToBuffer, toBuffer_eq, List.nil_append, hoverlay]
    from_buf := by rw [hbuf]
    to_buf := by rw [hbuf, hto, List.drop_zero, hoverlay, List.length_map, List.length_range]
    to_buf_skip := by rw [hto, List.length_take, List.length_drop, hsize]
    outside := by
      intro x hx
      rw [hskip, hset, hbuffer, hbuf]
      exact ⟨fill_outside hqiov.fits hx, fill_outside hqiov.fits hx, fill_outside hqiov.fits hx,
        fill_outside hqiov.fits hx⟩ }

theorem helpers_agree_emptySegment : Agrees (fun _ ↦ 0) (qemuIovecInit 1)
    (qemuIovecInitExternal [⟨0, 2⟩, ⟨16, 0⟩, ⟨32, 3⟩]) (qemuIovecInitExternal [⟨0, 2⟩, ⟨16, 0⟩, ⟨32, 3⟩])
    (fun i ↦ BitVec.ofNat 8 i) 255 2 3 := by
  have hseparate : Separate (qemuIovecInitExternal [⟨0, 2⟩, ⟨16, 0⟩, ⟨32, 3⟩]).iov :=
    ⟨by decide, by decide⟩
  exact helpers_agree _ _ _ (Option.some_ne_none 1) hseparate _ _ _ _ _

end Agreement

end IDeviceEmulator.Block.Vectors
