import Mathlib.Data.List.Basic
import IDeviceEmulator.Library.Memory

namespace Segments

open Memory

variable {w : Nat}

/-- A buffer in a memory. -/
structure Segment (w : Nat) where
  base : BitVec w
  len : Nat
  deriving DecidableEq

def Segment.bytes (m : Mem w) (v : Segment w) : List Byte :=
  (List.range v.len).map fun i ↦ m (v.base + BitVec.ofNat w i)

/-- The bytes of a list of buffers, one behind the other. -/
def concat (m : Mem w) (segments : List (Segment w)) : List Byte := segments.flatMap (Segment.bytes m)

def total (segments : List (Segment w)) : Nat := (segments.map Segment.len).sum

theorem total_nil : total ([] : List (Segment w)) = 0 := rfl

/-- The buffers lie apart. -/
structure Separate (segments : List (Segment w)) : Prop where
  fits : ∀ v ∈ segments, v.len ≤ 2 ^ w
  apart : segments.Pairwise fun v u ↦ Apart v.base v.len u.base u.len

/-- A range of the bytes is replaced. -/
def overlay (g : Nat → Byte) (skip n : Nat) (bytes : List Byte) : List Byte :=
  bytes.mapIdx fun i b ↦ if skip ≤ i ∧ i < skip + n then g (i - skip) else b

/-- The range of the buffers behind the skipped bytes is written, as far as there is room. -/
def fill (g : Nat → Byte) : Mem w → List (Segment w) → Nat → Nat → Mem w
  | m, [], _, _ => m
  | m, v :: segments, skip, n =>
    if v.len ≤ skip then fill g m segments (skip - v.len) n
    else
      let k := min (v.len - skip) n
      fill (fun i ↦ g (k + i)) (put m (v.base + BitVec.ofNat w skip) k g) segments 0 (n - k)

/-- The buffers that a range of the bytes lies in. -/
def slice : List (Segment w) → Nat → Nat → List (Segment w)
  | [], _, _ => []
  | v :: segments, skip, n =>
    if n = 0 then []
    else if v.len ≤ skip then slice segments (skip - v.len) n
    else ⟨v.base + BitVec.ofNat w skip, min (v.len - skip) n⟩ :: slice segments 0 (n - min (v.len - skip) n)

section Bytes

variable {m m' : Mem w} {v : Segment w} {segments : List (Segment w)} {skip n k : Nat} {g : Nat → Byte}

@[simp] theorem length_bytes (m : Mem w) (v : Segment w) : (v.bytes m).length = v.len := by
  rw [Segment.bytes, List.length_map, List.length_range]

theorem bytes_congr (h : ∀ x, Covers v.base v.len x → m' x = m x) (hlen : v.len ≤ 2 ^ w) : v.bytes m' = v.bytes m := by
  apply List.map_congr_left
  intro i hi
  exact h _ (covers_add v.base (List.mem_range.mp hi) hlen)

@[simp] theorem concat_nil (m : Mem w) : concat m [] = [] := rfl

@[simp] theorem concat_cons (m : Mem w) (v : Segment w) (segments : List (Segment w)) :
    concat m (v :: segments) = v.bytes m ++ concat m segments := List.flatMap_cons

@[simp] theorem concat_append (m : Mem w) (segments segments' : List (Segment w)) :
    concat m (segments ++ segments') = concat m segments ++ concat m segments' := List.flatMap_append

theorem length_concat (m : Mem w) (segments : List (Segment w)) : (concat m segments).length = total segments := by
  induction segments with
  | nil => rfl
  | cons v segments ih =>
    rw [concat_cons, List.length_append, length_bytes, ih]
    rfl

theorem concat_congr (h : ∀ v ∈ segments, ∀ x, Covers v.base v.len x → m' x = m x)
    (hfits : ∀ v ∈ segments, v.len ≤ 2 ^ w) : concat m' segments = concat m segments :=
  List.flatMap_congr fun v hv ↦ bytes_congr (h v hv) (hfits v hv)

theorem bytes_part (m : Mem w) (v : Segment w) (skip n : Nat) :
    Segment.bytes m ⟨v.base + BitVec.ofNat w skip, min (v.len - skip) n⟩ = ((v.bytes m).drop skip).take n := by
  apply List.ext_getElem
  · rw [length_bytes, List.length_take, List.length_drop, length_bytes, Nat.min_comm]
  · intro i _ _
    simp [Segment.bytes, BitVec.add_assoc, BitVec.ofNat_add]

theorem Separate.tail (h : Separate (v :: segments)) : Separate segments :=
  ⟨fun u hu ↦ h.fits u (List.mem_cons_of_mem v hu), (List.pairwise_cons.mp h.apart).2⟩

theorem covers_offset (a : BitVec w) {i : Nat} (hi : i < 2 ^ w) (hskip : skip + k ≤ 2 ^ w) :
    Covers (a + BitVec.ofNat w skip) k (a + BitVec.ofNat w i) ↔ skip ≤ i ∧ i < skip + k := by
  have hsub : a + BitVec.ofNat w i - (a + BitVec.ofNat w skip) = BitVec.ofNat w i - BitVec.ofNat w skip := by grind
  rw [Covers, hsub, BitVec.toNat_sub, BitVec.toNat_ofNat, BitVec.toNat_ofNat, Nat.mod_eq_of_lt hi]
  rcases Nat.eq_zero_or_pos k with rfl | hk
  · omega
  · rw [Nat.mod_eq_of_lt (by omega : skip < 2 ^ w)]
    by_cases hle : skip ≤ i
    · rw [show 2 ^ w - skip + i = 2 ^ w + (i - skip) by omega, Nat.add_mod_left, Nat.mod_eq_of_lt (by omega)]
      omega
    · rw [Nat.mod_eq_of_lt (by omega)]
      omega

theorem covers_of_offset {a x : BitVec w} (hskip : skip + k ≤ n) (hn : n ≤ 2 ^ w)
    (h : Covers (a + BitVec.ofNat w skip) k x) : Covers a n x := by
  have hx : a + BitVec.ofNat w (x - a).toNat = x := by
    rw [BitVec.ofNat_toNat, BitVec.setWidth_eq]
    grind
  rw [← hx, covers_offset a (x - a).isLt (hskip.trans hn)] at h
  exact h.2.trans_le hskip

theorem offset_toNat (a : BitVec w) {i : Nat} (hi : i < 2 ^ w) (hle : skip ≤ i) :
    (a + BitVec.ofNat w i - (a + BitVec.ofNat w skip)).toNat = i - skip := by
  have hsub : a + BitVec.ofNat w i - (a + BitVec.ofNat w skip) = BitVec.ofNat w i - BitVec.ofNat w skip := by grind
  rw [hsub, BitVec.toNat_sub, BitVec.toNat_ofNat, BitVec.toNat_ofNat, Nat.mod_eq_of_lt hi,
    Nat.mod_eq_of_lt (by omega : skip < 2 ^ w), show 2 ^ w - skip + i = 2 ^ w + (i - skip) by omega,
    Nat.add_mod_left, Nat.mod_eq_of_lt (by omega)]

theorem bytes_put (m : Mem w) {v : Segment w} (hlen : v.len ≤ 2 ^ w) (hskip : skip + k ≤ v.len) (g : Nat → Byte) :
    v.bytes (put m (v.base + BitVec.ofNat w skip) k g) = overlay g skip k (v.bytes m) := by
  apply List.ext_getElem
  · rw [length_bytes, overlay, List.length_mapIdx, length_bytes]
  · intro i hi _
    rw [length_bytes] at hi
    simp only [overlay, Segment.bytes, List.getElem_map, List.getElem_range, List.getElem_mapIdx]
    have hcovers := covers_offset v.base (hi.trans_le hlen) (hskip.trans hlen)
    by_cases hin : skip ≤ i ∧ i < skip + k
    · rw [put_of_covers m (hcovers.mpr hin), if_pos hin, offset_toNat v.base (hi.trans_le hlen) hin.1]
    · rw [put_of_not_covers m (mt hcovers.mp hin), if_neg hin]

theorem overlay_append_skip {xs : List Byte} (h : xs.length ≤ skip) (g : Nat → Byte) (n : Nat) (ys : List Byte) :
    overlay g skip n (xs ++ ys) = xs ++ overlay g (skip - xs.length) n ys := by
  rw [overlay, List.mapIdx_append]
  congr 1
  · apply List.ext_getElem
    · rw [List.length_mapIdx]
    · intro i _ hi
      rw [List.getElem_mapIdx, if_neg (by omega)]
  · apply List.ext_getElem
    · rw [overlay, List.length_mapIdx, List.length_mapIdx]
    · intro i _ _
      simp only [overlay, List.getElem_mapIdx]
      refine if_congr (by omega) ?_ rfl
      congr 1
      omega

theorem overlay_append_within {xs : List Byte} (h : skip < xs.length) (g : Nat → Byte) (n : Nat) (ys : List Byte) :
    overlay g skip n (xs ++ ys) = overlay g skip (min (xs.length - skip) n) xs ++
      overlay (fun i ↦ g (min (xs.length - skip) n + i)) 0 (n - min (xs.length - skip) n) ys := by
  rw [overlay, List.mapIdx_append]
  congr 1
  · apply List.ext_getElem
    · rw [overlay, List.length_mapIdx, List.length_mapIdx]
    · intro i hi _
      rw [List.length_mapIdx] at hi
      simp only [overlay, List.getElem_mapIdx]
      exact if_congr (by omega) rfl rfl
  · apply List.ext_getElem
    · rw [overlay, List.length_mapIdx, List.length_mapIdx]
    · intro i _ _
      simp only [overlay, List.getElem_mapIdx]
      by_cases hin : skip ≤ i + xs.length ∧ i + xs.length < skip + n
      · rw [if_pos hin, if_pos (by omega)]
        congr 1
        omega
      · rw [if_neg hin, if_neg (by omega)]

end Bytes

section Walks

variable {m : Mem w} {v : Segment w} {segments : List (Segment w)} {skip n : Nat} {g : Nat → Byte}

/-- Nothing outside the buffers is written. -/
theorem fill_outside (hfits : ∀ v ∈ segments, v.len ≤ 2 ^ w) {x : BitVec w}
    (hx : ∀ v ∈ segments, ¬ Covers v.base v.len x) : fill g m segments skip n x = m x := by
  induction segments generalizing g m skip n with
  | nil => rfl
  | cons v segments ih =>
    have hfits' (u : Segment w) (hu : u ∈ segments) := hfits u (List.mem_cons_of_mem v hu)
    have hx' (u : Segment w) (hu : u ∈ segments) := hx u (List.mem_cons_of_mem v hu)
    rw [fill]
    split_ifs with hskip
    · exact ih hfits' hx'
    · rw [ih hfits' hx']
      refine put_of_not_covers m fun hcovers ↦ hx v List.mem_cons_self ?_
      exact covers_of_offset (by omega) (hfits v List.mem_cons_self) hcovers

theorem put_zero (m : Mem w) (a : BitVec w) (g : Nat → Byte) : put m a 0 g = m := by
  funext x
  exact put_of_not_covers m (Nat.not_lt_zero _)

theorem fill_zero (g : Nat → Byte) (m : Mem w) (segments : List (Segment w)) (skip : Nat) :
    fill g m segments skip 0 = m := by
  induction segments generalizing g m skip with
  | nil => rfl
  | cons v segments ih =>
    rw [fill]
    split_ifs
    · exact ih g m _
    · dsimp only
      rw [Nat.min_zero, put_zero]
      exact ih _ m _

theorem concat_fill (h : Separate segments) (g : Nat → Byte) (m : Mem w) (skip n : Nat) :
    concat (fill g m segments skip n) segments = overlay g skip n (concat m segments) := by
  induction segments generalizing g m skip n with
  | nil => rfl
  | cons v segments ih =>
    obtain ⟨hapart, -⟩ := List.pairwise_cons.mp h.apart
    have hlen := h.fits v List.mem_cons_self
    have hfits := h.tail.fits
    -- The rest of the walk leaves the first buffer as it is.
    have hfirst (m' : Mem w) (g : Nat → Byte) (skip n : Nat) :
        v.bytes (fill g m' segments skip n) = v.bytes m' := by
      refine bytes_congr (fun x hx ↦ fill_outside hfits fun u hu hcovers ↦ ?_) hlen
      exact (hapart u hu).not_covers hx hcovers
    rw [fill]
    split_ifs with hskip
    · rw [concat_cons, concat_cons, hfirst, ih h.tail, overlay_append_skip (by rwa [length_bytes]), length_bytes]
    · have hrest : concat (put m (v.base + BitVec.ofNat w skip) (min (v.len - skip) n) g) segments =
          concat m segments := by
        refine concat_congr (fun u hu x hx ↦ put_of_not_covers m fun hcovers ↦ ?_) hfits
        exact (hapart u hu).not_covers (covers_of_offset (by omega) hlen hcovers) hx
      rw [concat_cons, concat_cons, hfirst, ih h.tail, hrest, bytes_put m hlen (by omega),
        overlay_append_within (by rw [length_bytes]; omega), length_bytes]

theorem concat_slice (m : Mem w) (segments : List (Segment w)) (skip n : Nat) :
    concat m (slice segments skip n) = ((concat m segments).drop skip).take n := by
  induction segments generalizing skip n with
  | nil => simp [slice]
  | cons v segments ih =>
    rw [slice]
    split_ifs with hzero hskip
    · rw [hzero, List.take_zero]
      rfl
    · have hdropped : (v.bytes m).drop skip = [] := List.drop_eq_nil_of_le (by rwa [length_bytes])
      rw [ih, concat_cons, List.drop_append, length_bytes, hdropped, List.nil_append]
    · rw [concat_cons, ih, bytes_part, concat_cons, List.drop_append, length_bytes, List.take_append,
        List.length_drop, length_bytes, show skip - v.len = 0 by omega,
        show n - min (v.len - skip) n = n - (v.len - skip) by omega]

end Walks

end Segments
