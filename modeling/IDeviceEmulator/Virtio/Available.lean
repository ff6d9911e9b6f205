import IDeviceEmulator.Virtio.Queue
import Mathlib.Algebra.Group.Int.Defs
import Mathlib.Data.List.Forall2

namespace IDeviceEmulator.Virtio

open Memory Loop

variable {w : Nat}

/-- What `virtqueue_avail_bytes` and `virtqueue_pop` read of a descriptor. -/
structure Descriptor (w : Nat) where
  write : Bool
  addr : BitVec w
  len : BitVec 32

/-- `in_total` and `out_total`. -/
structure Totals where
  inTotal : BitVec 32
  outTotal : BitVec 32

/-- The totals after one more descriptor, unless the bytes that are asked for are reached. -/
def Totals.count (inBytes outBytes : BitVec 32) (t : Totals) (d : Descriptor w) : Option Totals :=
  if d.write then
    if 0 < inBytes.toInt then
      let inTotal := t.inTotal + d.len
      if inBytes.toInt ≤ inTotal.toInt then none else some { t with inTotal }
    else some t
  else if 0 < outBytes.toInt then
    let outTotal := t.outTotal + d.len
    if outBytes.toInt ≤ outTotal.toInt then none else some { t with outTotal }
  else some t

section Avail

variable (m : Mem w) (vq : VirtQueue w)

def vringDesc (descPa : BitVec w) (i : Nat) : Descriptor w :=
  ⟨descFWrite (vringDescFlags m descPa i), vringDescAddr m descPa i, vringDescLen m descPa i⟩

/-- `virtqueue_get_head` with an index that is not reduced to 16 bits. -/
def virtqueueGetHeadAt (idx : Nat) : Except Stop Nat :=
  let head := vringAvailRing m vq (idx % vq.vring.num)
  if vq.vring.num ≤ head then .error (.exits (.guestSaysAvailable head)) else .ok head

variable (inBytes outBytes : BitVec 32)

/-- The loop over the descriptors of a chain, with the number of buffers. There is no result if
the bytes that are asked for are reached. -/
def availChain (descPa : BitVec w) (max numBufs i : Nat) (t : Totals) : Except Stop (Option (Totals × Nat)) :=
  if max < numBufs + 1 then .error (.exits .loopedDescriptor)
  else
    match t.count inBytes outBytes (vringDesc m descPa i) with
    | none => .ok none
    | some t =>
      match virtqueueNextDesc m descPa i max with
      | .error stop => .error stop
      | .ok next =>
        if next = max then .ok (some (t, numBufs + 1)) else availChain descPa max (numBufs + 1) next t
termination_by max - numBufs
decreasing_by omega

def availHead (idx totalBufs : Nat) (t : Totals) : Except Stop (Option (Totals × Nat)) := do
  let head ← virtqueueGetHeadAt m vq idx
  let descPa := vq.vring.desc
  if descFIndirect (vringDescFlags m descPa head) then
    let len := (vringDescLen m descPa head).toNat
    if len % 16 ≠ 0 then throw (.exits .invalidSizeForIndirectBufferTable)
    if vq.vring.num ≤ totalBufs then throw (.exits .loopedDescriptor)
    -- The index is zero by the time the address is read.
    let r ← availChain m inBytes outBytes (vringDescAddr m descPa 0) (len / 16) 0 0 t
    return r.map fun (t, _) ↦ (t, totalBufs + 1)
  else availChain m inBytes outBytes descPa vq.vring.num totalBufs head t

theorem toNat_sub_succ {a b : BitVec 16} (h : (a - b).toNat ≠ 0) : (a - (b + 1)).toNat + 1 = (a - b).toNat := by
  bv_omega

theorem numHeads_eq {idx : BitVec 16} {n : Nat} (h : virtqueueNumHeads m vq idx = .ok n) :
    n = (vringAvailIdx m vq - idx).toNat := by
  unfold virtqueueNumHeads at h
  dsimp only at h
  split at h
  · cases h
  · cases h
    rfl

/-- The loop over the heads. -/
def availHeads (idx totalBufs : Nat) (t : Totals) : Except Stop Bool :=
  match _ : virtqueueNumHeads m vq (BitVec.ofNat 16 idx) with
  | .error stop => .error stop
  | .ok numHeads =>
    if numHeads = 0 then .ok false
    else
      match availHead m vq inBytes outBytes idx totalBufs t with
      | .error stop => .error stop
      | .ok none => .ok true
      | .ok (some (t, totalBufs)) => availHeads (idx + 1) totalBufs t
termination_by (vringAvailIdx m vq - BitVec.ofNat 16 idx).toNat
decreasing_by
  have hpos := numHeads_eq m vq ‹virtqueueNumHeads m vq (BitVec.ofNat 16 idx) = .ok _›
  have hsucc := @toNat_sub_succ (vringAvailIdx m vq) (BitVec.ofNat 16 idx) (by omega)
  rw [BitVec.ofNat_add]
  exact Nat.lt_of_succ_le (Nat.le_of_eq hsucc)

def virtqueueAvailBytes : Except Stop Bool := availHeads m vq inBytes outBytes vq.lastAvailIdx.toNat 0 ⟨0, 0⟩

end Avail

/-- The descriptors from one on, up to one that has no successor. All successors lie in the
table. -/
inductive Walks (m : Mem w) (descPa : BitVec w) (max : Nat) : Nat → List (Descriptor w) → Prop
  | last {i : Nat} : descFNext (vringDescFlags m descPa i) = false → Walks m descPa max i [vringDesc m descPa i]
  | next {i : Nat} {l : List (Descriptor w)} : descFNext (vringDescFlags m descPa i) = true →
      vringDescNext m descPa i < max → Walks m descPa max (vringDescNext m descPa i) l →
      Walks m descPa max i (vringDesc m descPa i :: l)

/-- A chain that is loop free: it has no more descriptors than the table. -/
def Table.Chain (m : Mem w) (table : Table w) (l : List (Descriptor w)) : Prop :=
  Walks m table.descPa table.max table.first l ∧ l.length ≤ table.max

/-- The table of a head if the address of an indirect table is read from descriptor `source`. -/
def VirtQueue.tableFrom (m : Mem w) (vq : VirtQueue w) (head source : Nat) : Table w :=
  if descFIndirect (vringDescFlags m vq.vring.desc head) then
    ⟨vringDescAddr m vq.vring.desc source, 0, (vringDescLen m vq.vring.desc head).toNat / 16⟩
  else ⟨vq.vring.desc, head, vq.vring.num⟩

/-- The buffers that a chain takes of the ring. -/
def VirtQueue.bufs (m : Mem w) (vq : VirtQueue w) (head : Nat) (l : List (Descriptor w)) : Nat :=
  if descFIndirect (vringDescFlags m vq.vring.desc head) then 1 else l.length

/-- The next `n` heads. -/
def VirtQueue.heads (m : Mem w) (vq : VirtQueue w) (idx : BitVec 16) : Nat → List Nat
  | 0 => []
  | n + 1 => vringAvailRing m vq (idx.toNat % vq.vring.num) :: vq.heads m (idx + 1) n

def VirtQueue.numHeads (m : Mem w) (vq : VirtQueue w) : Nat := (vringAvailIdx m vq - vq.lastAvailIdx).toNat

def VirtQueue.available (m : Mem w) (vq : VirtQueue w) : List Nat := vq.heads m vq.lastAvailIdx (vq.numHeads m)

/-- The chains of heads if all addresses of indirect tables are read from descriptor 0. -/
def VirtQueue.Finds (m : Mem w) (vq : VirtQueue w) (heads : List Nat) (seen : List (List (Descriptor w))) : Prop :=
  List.Forall₂ (fun head l ↦ (vq.tableFrom m head 0).Chain m l) heads seen

/-- The buffers that chains take of the ring. -/
def VirtQueue.totalBufs (m : Mem w) (vq : VirtQueue w) (heads : List Nat) (seen : List (List (Descriptor w))) : Nat :=
  (List.zipWith (vq.bufs m) heads seen).sum

/-- The lengths of the descriptors of one direction. -/
def lens (write : Bool) (l : List (Descriptor w)) : List (BitVec 32) := (l.filter (·.write = write)).map (·.len)

def bytes (lens : List (BitVec 32)) : Nat := (lens.map BitVec.toNat).sum

/-- The highest running total of lengths as an `int`, and at least zero. -/
def peak (total : BitVec 32) : List (BitVec 32) → Int
  | [] => 0
  | len :: lens => max (total + len).toInt (peak (total + len) lens)

/-- A head as both functions accept it. -/
structure HeadOk (m : Mem w) (vq : VirtQueue w) (head : Nat) : Prop where
  head_lt : head < vq.vring.num
  size : descFIndirect (vringDescFlags m vq.vring.desc head) → (vringDescLen m vq.vring.desc head).toNat % 16 = 0

/-- A chain that `virtqueue_pop` can make an element of. -/
structure WellFormedChain (m : Mem w) (map : PhysicalMemoryMap w) (vq : VirtQueue w) (head : Nat)
    (l : List (Descriptor w)) : Prop extends HeadOk m vq head where
  chain : (vq.tableFrom m head head).Chain m l
  room : ∀ write, (lens write l).length ≤ virtqueueMaxSize
  mapped : ∀ d ∈ l, ∃ base len, map d.addr d.len d.write = some (base, len) ∧ len.setWidth 64 = d.len.setWidth 64

/-- The queue has a size as all devices give it, and all its available chains are well formed. -/
structure WellFormed (m : Mem w) (map : PhysicalMemoryMap w) (vq : VirtQueue w) (chains : List (List (Descriptor w))) :
    Prop where
  num_dvd : vq.vring.num ∣ 2 ^ 16
  numHeads_le : vq.numHeads m ≤ vq.vring.num
  chains : List.Forall₂ (WellFormedChain m map vq) (vq.available m) chains

section Totals

variable {inBytes outBytes total : BitVec 32} {t : Totals} {d : Descriptor w} {l : List (Descriptor w)}

/-- The running total of one direction, unless the bytes that are asked for are reached. -/
def tally (bytes : BitVec 32) (total : BitVec 32) : List (BitVec 32) → Option (BitVec 32)
  | [] => some total
  | len :: lens =>
    if 0 < bytes.toInt then
      if bytes.toInt ≤ (total + len).toInt then none else tally bytes (total + len) lens
    else tally bytes total lens

theorem tally_eq_none_iff {bytes : BitVec 32} {lens : List (BitVec 32)} :
    tally bytes total lens = none ↔ 0 < bytes.toInt ∧ bytes.toInt ≤ peak total lens := by
  induction lens generalizing total with
  | nil =>
    simp only [tally, peak, reduceCtorEq, false_iff, not_and, not_le]
    exact id
  | cons len lens ih =>
    rw [tally, peak]
    by_cases hpos : 0 < bytes.toInt
    · rw [if_pos hpos, le_max_iff]
      by_cases hreach : bytes.toInt ≤ (total + len).toInt
      · rw [if_pos hreach]
        exact iff_of_true rfl ⟨hpos, .inl hreach⟩
      · rw [if_neg hreach, ih]
        simp only [hpos, hreach, true_and, false_or]
    · rw [if_neg hpos, ih]
      exact iff_of_false (fun h ↦ hpos h.1) (fun h ↦ hpos h.1)

theorem lens_cons_self : lens d.write (d :: l) = d.len :: lens d.write l := by
  simp [lens]

theorem lens_cons_of_ne {write : Bool} (h : d.write ≠ write) : lens write (d :: l) = lens write l := by
  simp [lens, h]

/-- The sums of the two directions do not depend on each other. -/
theorem foldlM_count (t : Totals) (l : List (Descriptor w)) :
    l.foldlM (Totals.count inBytes outBytes) t =
      (tally inBytes t.inTotal (lens true l)).bind fun inTotal ↦
        (tally outBytes t.outTotal (lens false l)).map fun outTotal ↦ ⟨inTotal, outTotal⟩ := by
  induction l generalizing t with
  | nil => rfl
  | cons d l ih =>
    rw [List.foldlM_cons]
    cases hwrite : d.write with
    | true =>
      have htrue : lens true (d :: l) = d.len :: lens true l := hwrite ▸ lens_cons_self
      have hfalse : lens false (d :: l) = lens false l := lens_cons_of_ne (by simp [hwrite])
      rw [htrue, hfalse, Totals.count, hwrite, tally]
      simp only [if_true]
      split
      · split
        · rfl
        · exact ih _
      · exact ih _
    | false =>
      have htrue : lens true (d :: l) = lens true l := lens_cons_of_ne (by simp [hwrite])
      have hfalse : lens false (d :: l) = d.len :: lens false l := hwrite ▸ lens_cons_self
      rw [htrue, hfalse, Totals.count, hwrite, tally]
      simp only [Bool.false_eq_true, if_false]
      split
      · split
        · cases tally inBytes t.inTotal (lens true l) <;> rfl
        · exact ih _
      · exact ih _

theorem foldlM_count_eq_none_iff :
    l.foldlM (Totals.count inBytes outBytes) ⟨0, 0⟩ = none ↔
      0 < inBytes.toInt ∧ inBytes.toInt ≤ peak 0 (lens true l) ∨
        0 < outBytes.toInt ∧ outBytes.toInt ≤ peak 0 (lens false l) := by
  rw [foldlM_count, ← tally_eq_none_iff, ← tally_eq_none_iff]
  cases tally inBytes 0 (lens true l) with
  | none => simp
  | some inTotal => simp

theorem peak_nonneg (total : BitVec 32) (lens : List (BitVec 32)) : 0 ≤ peak total lens := by
  induction lens generalizing total with
  | nil => exact Int.le_refl 0
  | cons len lens ih => exact (ih _).trans (le_max_right _ _)

theorem peak_lt (total : BitVec 32) (lens : List (BitVec 32)) : peak total lens < 2 ^ 31 := by
  induction lens generalizing total with
  | nil => exact (by decide : (0 : Int) < 2 ^ 31)
  | cons len lens ih => exact max_lt BitVec.toInt_lt (ih _)

/-- A total that an `int` holds is the highest running total. -/
theorem max_peak {lens : List (BitVec 32)} (h : total.toNat + bytes lens < 2 ^ 31) :
    max total.toInt (peak total lens) = total.toNat + bytes lens := by
  have htotal : total.toInt = total.toNat := BitVec.toInt_eq_toNat_of_lt (by omega)
  induction lens generalizing total with
  | nil =>
    rw [htotal]
    exact max_eq_left (Int.natCast_nonneg _)
  | cons len lens ih =>
    have hbytes : bytes (len :: lens) = len.toNat + bytes lens := List.sum_cons
    rw [hbytes] at h ⊢
    have hsum : (total + len).toNat = total.toNat + len.toNat := by
      rw [BitVec.toNat_add]
      exact Nat.mod_eq_of_lt (by omega)
    have hnext := @ih (total + len) (by omega) (BitVec.toInt_eq_toNat_of_lt (by omega))
    rw [peak, hnext, htotal, hsum, max_eq_right (by omega)]
    omega

theorem peak_eq_bytes {lens : List (BitVec 32)} (h : bytes lens < 2 ^ 31) : peak 0 lens = bytes lens := by
  have hmax := @max_peak 0 lens (by simpa using h)
  have hzero : (0 : BitVec 32).toInt = 0 := rfl
  rw [hzero, max_eq_right (peak_nonneg 0 lens)] at hmax
  exact hmax.trans (by simp)

/-- Numbers of bytes reach what they reach just when the highest totals are equal. -/
theorem peak_eq_iff {lens lens' : List (BitVec 32)} (h : bytes lens' < 2 ^ 31) :
    peak 0 lens = bytes lens' ↔
      ∀ n : BitVec 32, 0 < n.toInt → (n.toInt ≤ peak 0 lens ↔ n.toInt ≤ bytes lens') := by
  constructor
  · intro heq n _
    rw [heq]
  · intro hall
    have hnonneg := peak_nonneg 0 lens
    have hlt := peak_lt 0 lens
    have hreach (k : Int) (hk : 0 ≤ k) (hk' : k < 2 ^ 31) : k ≤ peak 0 lens ↔ k ≤ bytes lens' := by
      by_cases hzero : k = 0
      · omega
      · have htoInt : (BitVec.ofInt 32 k).toInt = k := by
          rw [BitVec.toInt_ofInt]
          exact Int.bmod_eq_of_le_mul_two (by omega) (by omega)
        have hn := hall (BitVec.ofInt 32 k) (by omega)
        rwa [htoInt] at hn
    refine Int.le_antisymm ((hreach _ hnonneg hlt).mp (Int.le_refl _)) ?_
    exact (hreach _ (Int.natCast_nonneg _) (by omega)).mpr (Int.le_refl _)

end Totals

section Chain

variable {m : Mem w} {vq : VirtQueue w} {inBytes outBytes : BitVec 32} {t t' : Totals} {descPa : BitVec w}
  {max numBufs n i : Nat} {l : List (Descriptor w)}

theorem Walks.length_pos (h : Walks m descPa max i l) : 0 < l.length := by
  cases h with
  | last => exact Nat.one_pos
  | next => exact Nat.succ_pos _

theorem nextDesc_last (h : descFNext (vringDescFlags m descPa i) = false) :
    virtqueueNextDesc m descPa i max = .ok max := by
  simp [virtqueueNextDesc, h]

theorem nextDesc_next (h : descFNext (vringDescFlags m descPa i) = true) (hlt : vringDescNext m descPa i < max) :
    virtqueueNextDesc m descPa i max = .ok (vringDescNext m descPa i) := by
  simp [virtqueueNextDesc, h, Nat.not_le.mpr hlt]

theorem nextDesc_ok (h : virtqueueNextDesc m descPa i max = .ok n) :
    (descFNext (vringDescFlags m descPa i) = false ∧ n = max) ∨
      (descFNext (vringDescFlags m descPa i) = true ∧ n = vringDescNext m descPa i ∧ n < max) := by
  unfold virtqueueNextDesc at h
  cases hflag : descFNext (vringDescFlags m descPa i) with
  | false =>
    simp only [hflag, Bool.not_false, if_true] at h
    cases h
    exact .inl ⟨rfl, rfl⟩
  | true =>
    simp only [hflag, Bool.not_true, Bool.false_eq_true, if_false] at h
    split at h
    · cases h
    · cases h
      exact .inr ⟨rfl, rfl, Nat.lt_of_not_le ‹_›⟩

theorem Walks.availChain (h : Walks m descPa max i l) (hfits : numBufs + l.length ≤ max) :
    availChain m inBytes outBytes descPa max numBufs i t =
      .ok ((l.foldlM (Totals.count inBytes outBytes) t).map (·, numBufs + l.length)) := by
  induction h generalizing numBufs t with
  | @last i hflag =>
    rw [List.length_singleton] at hfits ⊢
    rw [Virtio.availChain, if_neg (Nat.not_lt.mpr hfits), List.foldlM_cons]
    cases t.count inBytes outBytes (vringDesc m descPa i) with
    | none => rfl
    | some t =>
      simp only [nextDesc_last hflag, if_true]
      rfl
  | @next i l hflag hlt hl ih =>
    have hsum : numBufs + 1 + l.length = numBufs + (vringDesc m descPa i :: l).length := by
      rw [List.length_cons]
      omega
    have hpos := hl.length_pos
    rw [Virtio.availChain, if_neg (by omega), List.foldlM_cons]
    cases t.count inBytes outBytes (vringDesc m descPa i) with
    | none => rfl
    | some t =>
      simp only [nextDesc_next hflag hlt, if_neg (Nat.ne_of_lt hlt)]
      rw [ih (by omega), hsum]
      rfl

/-- A chain that the loop goes through to its end. -/
theorem walks_of_availChain (h : Virtio.availChain m inBytes outBytes descPa max numBufs i t = .ok (some (t', n))) :
    ∃ l, Walks m descPa max i l ∧ n = numBufs + l.length ∧ n ≤ max := by
  induction hleft : max - numBufs using Nat.strongRecOn generalizing numBufs i t with
  | ind left ih =>
    rw [Virtio.availChain] at h
    split at h
    · cases h
    · split at h
      · cases h
      · split at h
        · cases h
        · next hnext =>
          rcases nextDesc_ok hnext with ⟨hflag, rfl⟩ | ⟨hflag, rfl, hlt⟩
          · rw [if_pos rfl] at h
            cases h
            exact ⟨_, .last hflag, rfl, by omega⟩
          · rw [if_neg (Nat.ne_of_lt hlt)] at h
            obtain ⟨l, hl, hn, hle⟩ := ih _ (by omega) h rfl
            refine ⟨_, .next hflag hlt hl, ?_, hle⟩
            rw [List.length_cons]
            omega

end Chain

/-- What `virtqueue_avail_bytes` goes through: its chains end in their tables, the ring has room
for their buffers, and the highest totals are those of the available chains. -/
structure Sees (m : Mem w) (vq : VirtQueue w) (chains seen : List (List (Descriptor w))) : Prop where
  finds : vq.Finds m (vq.available m) seen
  bufs_le : vq.totalBufs m (vq.available m) seen ≤ vq.vring.num
  peaks : ∀ write, peak 0 (lens write seen.flatten) = bytes (lens write chains.flatten)

section Heads

variable {m : Mem w} {vq : VirtQueue w} {inBytes outBytes : BitVec 32} {t t' : Totals} {head idx n totalBufs : Nat}
  {l : List (Descriptor w)} {seen : List (List (Descriptor w))}

theorem virtqueueGetHeadAt_ok (hdvd : vq.vring.num ∣ 2 ^ 16)
    (h : vringAvailRing m vq ((BitVec.ofNat 16 idx).toNat % vq.vring.num) < vq.vring.num) :
    virtqueueGetHeadAt m vq idx = .ok (vringAvailRing m vq ((BitVec.ofNat 16 idx).toNat % vq.vring.num)) := by
  rw [BitVec.toNat_ofNat, Nat.mod_mod_of_dvd _ hdvd] at h ⊢
  exact if_neg (Nat.not_le.mpr h)

theorem HeadOk.availHead (h : HeadOk m vq head) (hget : virtqueueGetHeadAt m vq idx = .ok head)
    (hl : (vq.tableFrom m head 0).Chain m l) (hbufs : totalBufs + vq.bufs m head l ≤ vq.vring.num) :
    availHead m vq inBytes outBytes idx totalBufs t =
      .ok ((l.foldlM (Totals.count inBytes outBytes) t).map (·, totalBufs + vq.bufs m head l)) := by
  have hsize := h.size
  obtain ⟨hwalks, hlength⟩ := hl
  unfold Virtio.availHead VirtQueue.bufs at *
  unfold VirtQueue.tableFrom at hwalks hlength
  rw [hget]
  cases hindirect : descFIndirect (vringDescFlags m vq.vring.desc head) with
  | true =>
    simp only [hindirect, if_true] at hsize hwalks hlength hbufs ⊢
    have hchain := @Walks.availChain _ m inBytes outBytes t _ _ 0 _ l hwalks (by omega)
    have hroom : ¬ vq.vring.num ≤ totalBufs := by omega
    simp only [bind, Except.bind, hindirect, if_true, hsize trivial, ne_eq, not_true_eq_false, if_false, hroom, hchain]
    cases l.foldlM (Totals.count inBytes outBytes) t <;> rfl
  | false =>
    simp only [hindirect, Bool.false_eq_true, if_false] at hwalks hlength hbufs ⊢
    have hchain := @Walks.availChain _ m inBytes outBytes t _ _ totalBufs _ l hwalks hbufs
    simp only [bind, Except.bind, hindirect, Bool.false_eq_true, if_false, hchain]

theorem tableFrom_of_availHead (hget : virtqueueGetHeadAt m vq idx = .ok head)
    (h : availHead m vq inBytes outBytes idx totalBufs t = .ok (some (t', n))) :
    ∃ l, (vq.tableFrom m head 0).Chain m l ∧ n = totalBufs + vq.bufs m head l ∧ n ≤ vq.vring.num := by
  unfold availHead at h
  unfold VirtQueue.bufs VirtQueue.tableFrom
  rw [hget] at h
  cases hindirect : descFIndirect (vringDescFlags m vq.vring.desc head) with
  | true =>
    simp only [bind, Except.bind, hindirect, if_true] at h ⊢
    split at h
    · cases h
    · split at h
      · cases h
      · cases hchain : availChain m inBytes outBytes (vringDescAddr m vq.vring.desc 0)
            ((vringDescLen m vq.vring.desc head).toNat / 16) 0 0 t with
        | error stop =>
          rw [hchain] at h
          cases h
        | ok r =>
          rw [hchain] at h
          obtain ⟨p, hp, hpair⟩ := Option.map_eq_some_iff.mp (Except.ok.inj h)
          cases hp
          cases hpair
          obtain ⟨l, hl, hn, hle⟩ := walks_of_availChain hchain
          exact ⟨l, ⟨hl, by dsimp only; omega⟩, rfl, by omega⟩
  | false =>
    simp only [bind, Except.bind, hindirect, Bool.false_eq_true, if_false] at h ⊢
    obtain ⟨l, hl, rfl, hle⟩ := walks_of_availChain h
    exact ⟨l, ⟨hl, by dsimp only; omega⟩, rfl, hle⟩

theorem virtqueueNumHeads_ok {idx : BitVec 16} (h : (vringAvailIdx m vq - idx).toNat ≤ vq.vring.num) :
    virtqueueNumHeads m vq idx = .ok (vringAvailIdx m vq - idx).toNat :=
  if_neg (Nat.not_lt.mpr h)

theorem toNat_sub_succ_ofNat (hn : (vringAvailIdx m vq - BitVec.ofNat 16 idx).toNat = n + 1) :
    (vringAvailIdx m vq - BitVec.ofNat 16 (idx + 1)).toNat = n := by
  have hsucc := @toNat_sub_succ (vringAvailIdx m vq) (BitVec.ofNat 16 idx) (by omega)
  rw [BitVec.ofNat_add]
  exact Nat.succ_inj.mp (hsucc.trans hn)

theorem heads_succ (m : Mem w) (vq : VirtQueue w) (idx n : Nat) :
    vq.heads m (BitVec.ofNat 16 idx) (n + 1) =
      vringAvailRing m vq ((BitVec.ofNat 16 idx).toNat % vq.vring.num) ::
        vq.heads m (BitVec.ofNat 16 (idx + 1)) n := by
  rw [BitVec.ofNat_add]
  rfl

theorem totalBufs_cons (m : Mem w) (vq : VirtQueue w) (head : Nat) (heads : List Nat) (l : List (Descriptor w))
    (seen : List (List (Descriptor w))) :
    vq.totalBufs m (head :: heads) (l :: seen) = vq.bufs m head l + vq.totalBufs m heads seen :=
  List.sum_cons

-- The induction is on the number of heads that are left.
theorem availHeads_eq (hdvd : vq.vring.num ∣ 2 ^ 16) (hn : (vringAvailIdx m vq - BitVec.ofNat 16 idx).toNat = n)
    (hle : n ≤ vq.vring.num) (hok : ∀ head ∈ vq.heads m (BitVec.ofNat 16 idx) n, HeadOk m vq head)
    (hseen : vq.Finds m (vq.heads m (BitVec.ofNat 16 idx) n) seen)
    (hbufs : totalBufs + vq.totalBufs m (vq.heads m (BitVec.ofNat 16 idx) n) seen ≤ vq.vring.num) :
    availHeads m vq inBytes outBytes idx totalBufs t =
      .ok (seen.flatten.foldlM (Totals.count inBytes outBytes) t).isNone := by
  have hnum := virtqueueNumHeads_ok (hn.trans_le hle)
  rw [hn] at hnum
  induction n generalizing idx totalBufs t seen with
  | zero =>
    cases hseen
    rw [availHeads]
    split
    · next herror => cases hnum.symm.trans herror
    · next hfound =>
      cases hnum.symm.trans hfound
      rfl
  | succ n ih =>
    have hnext := toNat_sub_succ_ofNat hn
    rw [heads_succ] at hok hseen hbufs
    obtain ⟨l, rest, hl, hrest, rfl⟩ := List.forall₂_cons_left_iff.mp hseen
    rw [totalBufs_cons] at hbufs
    have hhead := hok _ List.mem_cons_self
    have hget := virtqueueGetHeadAt_ok hdvd hhead.head_lt
    have hnum' := virtqueueNumHeads_ok (hnext.trans_le (by omega))
    rw [hnext] at hnum'
    rw [availHeads]
    split
    · next herror => cases hnum.symm.trans herror
    · next hfound =>
      cases hnum.symm.trans hfound
      rw [if_neg (Nat.succ_ne_zero n), hhead.availHead hget hl (by omega), List.flatten_cons, List.foldlM_append]
      cases l.foldlM (Totals.count inBytes outBytes) t with
      | none => rfl
      | some t =>
        exact ih hnext (by omega) (fun head hmem ↦ hok head (List.mem_cons_of_mem _ hmem)) hrest (by omega) hnum'

/-- What a call that goes through all heads has seen. -/
theorem sees_of_availHeads (hdvd : vq.vring.num ∣ 2 ^ 16)
    (hn : (vringAvailIdx m vq - BitVec.ofNat 16 idx).toNat = n)
    (hle : n ≤ vq.vring.num) (hok : ∀ head ∈ vq.heads m (BitVec.ofNat 16 idx) n, HeadOk m vq head)
    (htotal : totalBufs ≤ vq.vring.num) (h : availHeads m vq inBytes outBytes idx totalBufs t = .ok false) :
    ∃ seen, vq.Finds m (vq.heads m (BitVec.ofNat 16 idx) n) seen ∧
      totalBufs + vq.totalBufs m (vq.heads m (BitVec.ofNat 16 idx) n) seen ≤ vq.vring.num := by
  have hnum := virtqueueNumHeads_ok (hn.trans_le hle)
  rw [hn] at hnum
  induction n generalizing idx totalBufs t with
  | zero => exact ⟨[], .nil, htotal⟩
  | succ n ih =>
    have hnext := toNat_sub_succ_ofNat hn
    rw [heads_succ] at hok ⊢
    have hhead := hok _ List.mem_cons_self
    have hget := virtqueueGetHeadAt_ok hdvd hhead.head_lt
    have hnum' := virtqueueNumHeads_ok (hnext.trans_le (by omega))
    rw [hnext] at hnum'
    rw [availHeads] at h
    split at h
    · next herror => cases hnum.symm.trans herror
    · next hfound =>
      cases hnum.symm.trans hfound
      rw [if_neg (Nat.succ_ne_zero n)] at h
      split at h
      · cases h
      · cases h
      · next t' totalBufs' hrest =>
        obtain ⟨l, hl, rfl, hle'⟩ := tableFrom_of_availHead hget hrest
        obtain ⟨seen, hseen, hsum⟩ :=
          ih hnext (by omega) (fun head hmem ↦ hok head (List.mem_cons_of_mem _ hmem)) hle' h hnum'
        refine ⟨l :: seen, .cons hl hseen, ?_⟩
        rw [totalBufs_cons]
        omega

end Heads

/-- Popping a queue until it is empty. -/
inductive PopsAll (m : Mem w) (map : PhysicalMemoryMap w) : VirtQueue w → List (VirtQueueElement w) → Prop
  | empty {vq : VirtQueue w} {elem : VirtQueueElement w} :
      Settles (virtqueuePop m map vq elem) (.ok (vq, elem, 0)) → PopsAll m map vq []
  | pop {vq vq' : VirtQueue w} {elem elem' : VirtQueueElement w} {n : Nat} {elems : List (VirtQueueElement w)} :
      Settles (virtqueuePop m map vq elem) (.ok (vq', elem', n)) → n ≠ 0 → PopsAll m map vq' elems →
      PopsAll m map vq (elem' :: elems)

def VirtQueueElement.sg (elem : VirtQueueElement w) (write : Bool) : List (Entry w) :=
  if write then elem.inSg.entries else elem.outSg.entries

section Pop

variable {m : Mem w} {map : PhysicalMemoryMap w} {vq : VirtQueue w} {elem : VirtQueueElement w} {descPa : BitVec w}
  {max i head n : Nat} {l : List (Descriptor w)} {chains : List (List (Descriptor w))}

def Descriptor.entry (d : Descriptor w) : Entry w := ⟨d.addr, d.len, none⟩

theorem Sg.store_ok {sg : Sg w} (entry : Entry w) (h : sg.entries.length < virtqueueMaxSize) :
    ∃ sg', sg.store entry = .ok sg' ∧ sg'.entries = sg.entries ++ [entry] := by
  unfold Sg.store
  rw [dif_pos h]
  exact ⟨_, rfl, rfl⟩

/-- The entries that a turn stores beyond those of the element. -/
def VirtQueueElement.Adds (elem elem' : VirtQueueElement w) (l : List (Descriptor w)) : Prop :=
  ∀ write, elem'.sg write = elem.sg write ++ (l.filter (·.write = write)).map Descriptor.entry

theorem VirtQueueElement.Adds.trans {elem' elem'' : VirtQueueElement w} {l' : List (Descriptor w)}
    (h : elem.Adds elem' l) (h' : elem'.Adds elem'' l') : elem.Adds elem'' (l ++ l') := by
  intro write
  rw [h' write, h write, List.filter_append, List.map_append, List.append_assoc]

theorem VirtQueueElement.Adds.length_sg {elem' : VirtQueueElement w} (h : elem.Adds elem' l) (write : Bool) :
    (elem'.sg write).length = (elem.sg write).length + (lens write l).length := by
  rw [h write, List.length_append, List.length_map, lens, List.length_map]

theorem length_lens_add (l : List (Descriptor w)) : (lens true l).length + (lens false l).length = l.length := by
  induction l with
  | nil => rfl
  | cons d l ih =>
    cases hwrite : d.write with
    | true =>
      have htrue : lens true (d :: l) = d.len :: lens true l := hwrite ▸ lens_cons_self
      have hfalse : lens false (d :: l) = lens false l := lens_cons_of_ne (by simp [hwrite])
      rw [htrue, hfalse, List.length_cons, List.length_cons]
      omega
    | false =>
      have htrue : lens true (d :: l) = lens true l := lens_cons_of_ne (by simp [hwrite])
      have hfalse : lens false (d :: l) = d.len :: lens false l := hwrite ▸ lens_cons_self
      rw [htrue, hfalse, List.length_cons, List.length_cons]
      omega

theorem VirtQueueElement.Adds.num {elem' : VirtQueueElement w} (h : elem.Adds elem' l) :
    elem'.num = elem.num + l.length := by
  have htrue : elem'.inSg.entries.length = elem.inSg.entries.length + (lens true l).length := h.length_sg true
  have hfalse : elem'.outSg.entries.length = elem.outSg.entries.length + (lens false l).length := h.length_sg false
  have hadd := length_lens_add l
  unfold VirtQueueElement.num
  omega

theorem VirtQueueElement.collect_ok
    (h : (elem.sg (vringDesc m descPa i).write).length < virtqueueMaxSize) :
    ∃ elem', elem.collect m descPa i = .ok elem' ∧ elem.Adds elem' [vringDesc m descPa i] := by
  have hentry : (vringDesc m descPa i).entry = ⟨vringDescAddr m descPa i, vringDescLen m descPa i, none⟩ := rfl
  have hfilter (write : Bool) : [vringDesc m descPa i].filter (·.write = write) =
      if (vringDesc m descPa i).write = write then [vringDesc m descPa i] else [] := by
    rw [List.filter_singleton]
    simp
  unfold VirtQueueElement.collect VirtQueueElement.Adds
  simp only [hfilter]
  cases hwrite : (vringDesc m descPa i).write with
  | true =>
    rw [hwrite] at h
    have hflag : descFWrite (vringDescFlags m descPa i) = true := hwrite
    obtain ⟨inSg, hstore, hentries⟩ := Sg.store_ok (vringDesc m descPa i).entry h
    refine ⟨{ elem with inSg }, ?_, ?_⟩
    · rw [if_pos hflag, ← hentry, hstore]
      rfl
    · intro write
      cases write with
      | true => exact hentries
      | false => exact (List.append_nil _).symm
  | false =>
    rw [hwrite] at h
    have hflag : ¬ descFWrite (vringDescFlags m descPa i) = true := Bool.eq_false_iff.mp hwrite
    obtain ⟨outSg, hstore, hentries⟩ := Sg.store_ok (vringDesc m descPa i).entry h
    refine ⟨{ elem with outSg }, ?_, ?_⟩
    · rw [if_neg hflag, ← hentry, hstore]
      rfl
    · intro write
      cases write with
      | true => exact (List.append_nil _).symm
      | false => exact hentries

theorem lens_cons (write : Bool) (d : Descriptor w) (l : List (Descriptor w)) :
    lens write (d :: l) = lens write [d] ++ lens write l := by
  simp only [lens, ← List.map_append, ← List.filter_append, List.singleton_append]

theorem Walks.collects (h : Walks m descPa max i l) (hnum : elem.num + l.length ≤ max)
    (hroom : ∀ write, (elem.sg write).length + (lens write l).length ≤ virtqueueMaxSize) :
    ∃ elem', Ends (collectTurn m descPa max) (elem, i) (.ok elem') ∧ elem.Adds elem' l := by
  have hfirst {i : Nat} {l : List (Descriptor w)} {elem : VirtQueueElement w}
      (hroom : ∀ write,
        (elem.sg write).length + (lens write (vringDesc m descPa i :: l)).length ≤ virtqueueMaxSize) :
      (elem.sg (vringDesc m descPa i).write).length < virtqueueMaxSize := by
    have hwrite := hroom (vringDesc m descPa i).write
    rw [lens_cons_self, List.length_cons] at hwrite
    omega
  induction h generalizing elem with
  | @last i hflag =>
    obtain ⟨elem', hcollect, hadds⟩ := VirtQueueElement.collect_ok (hfirst hroom)
    have hshort : ¬ max < elem'.num := by
      rw [hadds.num]
      exact Nat.not_lt.mpr hnum
    exact ⟨elem', .exit (by simp [collectTurn, hcollect, hshort, nextDesc_last hflag]), hadds⟩
  | @next i l hflag hlt hl ih =>
    obtain ⟨elem', hcollect, hadds⟩ := VirtQueueElement.collect_ok (hfirst hroom)
    have hnum' := hadds.num
    rw [List.length_singleton] at hnum'
    rw [List.length_cons] at hnum
    have hroom' : ∀ write, (elem'.sg write).length + (lens write l).length ≤ virtqueueMaxSize := by
      intro write
      have hwrite := hroom write
      rw [lens_cons, List.length_append] at hwrite
      rw [hadds.length_sg]
      omega
    obtain ⟨elem'', hends, hadds'⟩ := @ih elem' (by omega) hroom'
    refine ⟨elem'', .turn ?_ hends, hadds.trans hadds'⟩
    have hshort : ¬ max < elem'.num := by omega
    simp [collectTurn, hcollect, hshort, nextDesc_next hflag hlt, Nat.ne_of_lt hlt]

theorem virtqueueMapEntries_ok {write : Bool}
    (h : ∀ d ∈ l, ∃ base len, map d.addr d.len write = some (base, len) ∧ len.setWidth 64 = d.len.setWidth 64) :
    ∃ entries, virtqueueMapEntries map write (l.map Descriptor.entry) = .ok entries ∧
      entries.map (·.iovLen) = l.map (·.len) := by
  induction l with
  | nil => exact ⟨[], rfl, rfl⟩
  | cons d l ih =>
    obtain ⟨base, len, hmap, hlen⟩ := h d List.mem_cons_self
    obtain ⟨entries, hentries, hlens⟩ := ih fun d hd ↦ h d (List.mem_cons_of_mem _ hd)
    refine ⟨⟨d.addr, d.len, some base⟩ :: entries, ?_, congrArg (d.len :: ·) hlens⟩
    have hentry : mapEntry map write d.entry = .ok ⟨d.addr, d.len, some base⟩ := by
      simp [mapEntry, Descriptor.entry, hmap, hlen]
    rw [List.map_cons, virtqueueMapEntries, hentry, hentries]
    rfl

theorem virtqueueMapSg_ok {write : Bool} {sg : Sg w} {entries : List (Entry w)}
    (h : virtqueueMapEntries map write sg.entries = .ok entries) :
    ∃ sg', virtqueueMapSg map write sg = .ok sg' ∧ sg'.entries = entries := by
  unfold virtqueueMapSg
  split
  · next herror => cases herror.symm.trans h
  · next hok =>
    cases hok.symm.trans h
    exact ⟨_, rfl, rfl⟩

theorem WellFormedChain.mapCollected (h : WellFormedChain m map vq head l) {index : Nat}
    (hadds : VirtQueueElement.Adds ⟨index, .empty, .empty⟩ elem l) :
    ∃ elem', mapCollected map vq head elem =
        .ok ({ vq with lastAvailIdx := vq.lastAvailIdx + 1, inuse := vq.inuse + 1 }, elem', l.length) ∧
      ∀ write, (elem'.sg write).map (·.iovLen) = lens write l := by
  have hmapped (write : Bool) : ∀ d ∈ l.filter (·.write = write), ∃ base len,
      map d.addr d.len write = some (base, len) ∧ len.setWidth 64 = d.len.setWidth 64 := by
    intro d hd
    obtain ⟨hmem, hwrite⟩ := List.mem_filter.mp hd
    rw [← of_decide_eq_true hwrite]
    exact h.mapped d hmem
  obtain ⟨ins, hins, hinlens⟩ := virtqueueMapEntries_ok (hmapped true)
  obtain ⟨outs, houts, houtlens⟩ := virtqueueMapEntries_ok (hmapped false)
  have hin : elem.inSg.entries = (l.filter (·.write = true)).map Descriptor.entry := hadds true
  have hout : elem.outSg.entries = (l.filter (·.write = false)).map Descriptor.entry := hadds false
  rw [← hin] at hins
  rw [← hout] at houts
  obtain ⟨inSg, hinSg, rfl⟩ := virtqueueMapSg_ok hins
  obtain ⟨outSg, houtSg, rfl⟩ := virtqueueMapSg_ok houts
  have hnum : elem.num = l.length := hadds.num.trans (Nat.zero_add _)
  refine ⟨⟨head, outSg, inSg⟩, ?_, ?_⟩
  · rw [Virtio.mapCollected, hinSg, houtSg, hnum]
    rfl
  · intro write
    cases write with
    | true => exact hinlens
    | false => exact houtlens

theorem HeadOk.table (h : HeadOk m vq head) : vq.table m head = .ok (vq.tableFrom m head head) := by
  unfold VirtQueue.table VirtQueue.tableFrom
  dsimp only
  split
  · rw [if_neg (by simp [h.size ‹_›])]
  · rfl

/-- A well formed chain is popped as an element with the lengths of its descriptors. -/
theorem WellFormedChain.virtqueuePop (h : WellFormedChain m map vq head l)
    (hnum : virtqueueNumHeads m vq vq.lastAvailIdx = .ok (n + 1))
    (hhead : head = vringAvailRing m vq (vq.lastAvailIdx.toNat % vq.vring.num)) (elem : VirtQueueElement w) :
    ∃ elem', Settles (virtqueuePop m map vq elem)
        (.ok ({ vq with lastAvailIdx := vq.lastAvailIdx + 1, inuse := vq.inuse + 1 }, elem', l.length)) ∧
      ∀ write, (elem'.sg write).map (·.iovLen) = lens write l := by
  have hget : virtqueueGetHead m vq vq.lastAvailIdx = .ok head := by
    unfold virtqueueGetHead
    rw [← hhead]
    exact if_neg (Nat.not_le.mpr h.head_lt)
  have htable : vq.nextTable m = .ok (some (head, vq.tableFrom m head head)) := by
    rw [VirtQueue.nextTable, hnum]
    simp only [bind, Except.bind, Nat.succ_ne_zero, if_false, hget, h.table]
    rfl
  have hroom : ∀ write, ((⟨elem.index, .empty, .empty⟩ : VirtQueueElement w).sg write).length +
      (lens write l).length ≤ virtqueueMaxSize := by
    intro write
    have hempty : ((⟨elem.index, .empty, .empty⟩ : VirtQueueElement w).sg write) = [] := by cases write <;> rfl
    rw [hempty, List.length_nil, Nat.zero_add]
    exact h.room write
  obtain ⟨hwalks, hlength⟩ := h.chain
  have hnum : (⟨elem.index, .empty, .empty⟩ : VirtQueueElement w).num + l.length ≤ (vq.tableFrom m head head).max :=
    (Nat.zero_add l.length).trans_le hlength
  obtain ⟨elem₁, hends, hadds⟩ := hwalks.collects hnum hroom
  obtain ⟨elem', hmap, hlens⟩ := h.mapCollected hadds
  refine ⟨elem', ?_, hlens⟩
  unfold Virtio.virtqueuePop
  rw [htable, ← hmap]
  exact .map hends.eventually

end Pop

/-- The bytes of one direction in all elements. -/
def elementBytes (write : Bool) (elems : List (VirtQueueElement w)) : Nat :=
  bytes (elems.flatMap fun elem ↦ (elem.sg write).map (·.iovLen))

/-- The elements hold the bytes that are asked for in one of the directions. -/
def Reaches (elems : List (VirtQueueElement w)) (inBytes outBytes : BitVec 32) : Prop :=
  0 < inBytes.toInt ∧ inBytes.toInt ≤ elementBytes true elems ∨
    0 < outBytes.toInt ∧ outBytes.toInt ≤ elementBytes false elems

instance (elems : List (VirtQueueElement w)) (inBytes outBytes : BitVec 32) :
    Decidable (Reaches elems inBytes outBytes) :=
  inferInstanceAs (Decidable (_ ∨ _))

section Queue

variable {m : Mem w} {map : PhysicalMemoryMap w} {vq : VirtQueue w} {chains : List (List (Descriptor w))}

theorem popsAll (n : Nat) {idx : BitVec 16} (inuse : Int) (hn : (vringAvailIdx m vq - idx).toNat = n)
    (hle : n ≤ vq.vring.num) (h : List.Forall₂ (WellFormedChain m map vq) (vq.heads m idx n) chains) :
    ∃ elems, PopsAll m map { vq with lastAvailIdx := idx, inuse := inuse } elems ∧
      ∀ write, elems.flatMap (fun elem ↦ (elem.sg write).map (·.iovLen)) = lens write chains.flatten := by
  have hnum : virtqueueNumHeads m { vq with lastAvailIdx := idx, inuse := inuse } idx = .ok n := by
    have hnum := virtqueueNumHeads_ok (hn.trans_le hle)
    rwa [hn] at hnum
  induction n generalizing idx inuse chains with
  | zero =>
    cases h
    refine ⟨[], @PopsAll.empty _ _ _ _ ⟨0, .empty, .empty⟩ (.of_forall fun _ ↦ ?_), fun _ ↦ rfl⟩
    have hnext : VirtQueue.nextTable m { vq with lastAvailIdx := idx, inuse := inuse } = .ok none := by
      rw [VirtQueue.nextTable, hnum]
      rfl
    simp only [virtqueuePop, hnext]
  | succ n ih =>
    have hsucc := @toNat_sub_succ (vringAvailIdx m vq) idx (by omega)
    have hnext : (vringAvailIdx m vq - (idx + 1)).toNat = n := Nat.succ_inj.mp (hsucc.trans hn)
    have hnum' := virtqueueNumHeads_ok (hnext.trans_le (by omega))
    rw [hnext] at hnum'
    obtain ⟨l, rest, hl, hrest, rfl⟩ := List.forall₂_cons_left_iff.mp h
    have hlength := hl.chain.1.length_pos
    have hwell : WellFormedChain m map { vq with lastAvailIdx := idx, inuse := inuse }
        (vringAvailRing m vq (idx.toNat % vq.vring.num)) l :=
      ⟨⟨hl.head_lt, hl.size⟩, hl.chain, hl.room, hl.mapped⟩
    obtain ⟨elem', hpop, hlens⟩ := hwell.virtqueuePop hnum rfl ⟨0, .empty, .empty⟩
    obtain ⟨elems, hpops, hrests⟩ := ih (inuse + 1) hnext (by omega) hrest hnum'
    refine ⟨elem' :: elems, .pop hpop (by omega) hpops, fun write ↦ ?_⟩
    have happend : lens write (l ++ rest.flatten) = lens write l ++ lens write rest.flatten := by
      simp only [lens, List.filter_append, List.map_append]
    rw [List.flatMap_cons, hlens, hrests, List.flatten_cons, happend]

theorem WellFormed.headOk (h : WellFormed m map vq chains) :
    ∀ head ∈ vq.available m, HeadOk m vq head := by
  intro head hmem
  obtain ⟨i, hi, hget⟩ := List.getElem_of_mem hmem
  have hlength := h.chains.length_eq
  have hchain := h.chains.get hi (hlength ▸ hi)
  rw [List.get_eq_getElem, hget] at hchain
  exact hchain.toHeadOk

theorem available_eq (m : Mem w) (vq : VirtQueue w) :
    vq.available m = vq.heads m (BitVec.ofNat 16 vq.lastAvailIdx.toNat) (vq.numHeads m) := by
  rw [BitVec.ofNat_toNat, BitVec.setWidth_eq]
  rfl

theorem numHeads_lastAvailIdx (m : Mem w) (vq : VirtQueue w) :
    (vringAvailIdx m vq - BitVec.ofNat 16 vq.lastAvailIdx.toNat).toNat = vq.numHeads m := by
  rw [BitVec.ofNat_toNat, BitVec.setWidth_eq]
  rfl

variable {seen : List (List (Descriptor w))} {inBytes outBytes : BitVec 32}

/-- A call returns 1 just when one of the highest totals of what it goes through is enough. -/
theorem WellFormed.virtqueueAvailBytes (h : WellFormed m map vq chains)
    (hfinds : vq.Finds m (vq.available m) seen) (hbufs : vq.totalBufs m (vq.available m) seen ≤ vq.vring.num) :
    virtqueueAvailBytes m vq inBytes outBytes = .ok (decide
      (0 < inBytes.toInt ∧ inBytes.toInt ≤ peak 0 (lens true seen.flatten) ∨
        0 < outBytes.toInt ∧ outBytes.toInt ≤ peak 0 (lens false seen.flatten))) := by
  have hok := h.headOk
  rw [available_eq] at hfinds hbufs hok
  refine (availHeads_eq h.num_dvd (numHeads_lastAvailIdx m vq) h.numHeads_le hok hfinds
    ((Nat.zero_add _).trans_le hbufs)).trans (congrArg Except.ok ?_)
  rw [Bool.eq_iff_iff, Option.isNone_iff_eq_none, foldlM_count_eq_none_iff, decide_eq_true_iff]

/-- A call that reaches nothing goes through chains that end in their tables. -/
theorem WellFormed.finds (h : WellFormed m map vq chains) (hcall : Virtio.virtqueueAvailBytes m vq 0 0 = .ok false) :
    ∃ seen, vq.Finds m (vq.available m) seen ∧ vq.totalBufs m (vq.available m) seen ≤ vq.vring.num := by
  have hok := h.headOk
  rw [available_eq] at hok ⊢
  obtain ⟨seen, hfinds, hbufs⟩ :=
    sees_of_availHeads h.num_dvd (numHeads_lastAvailIdx m vq) h.numHeads_le hok (Nat.zero_le _) hcall
  exact ⟨seen, hfinds, (Nat.zero_add _).symm.trans_le hbufs⟩

/-- The calls with non-negative arguments tell what the elements hold. -/
def Exact (m : Mem w) (vq : VirtQueue w) (elems : List (VirtQueueElement w)) : Prop :=
  ∀ inBytes outBytes : BitVec 32, 0 ≤ inBytes.toInt → 0 ≤ outBytes.toInt →
    Virtio.virtqueueAvailBytes m vq inBytes outBytes = .ok (decide (Reaches elems inBytes outBytes))

theorem WellFormed.exact_iff_sees (h : WellFormed m map vq chains) {elems : List (VirtQueueElement w)}
    (hbytes : ∀ write, bytes (lens write chains.flatten) < 2 ^ 31)
    (helems : ∀ write, elementBytes write elems = bytes (lens write chains.flatten)) :
    Exact m vq elems ↔ ∃ seen, Sees m vq chains seen := by
  constructor
  · intro hexact
    have hnone : ¬ Reaches elems (0 : BitVec 32) 0 := by
      rintro (hin | hout)
      · exact absurd hin.1 (by decide)
      · exact absurd hout.1 (by decide)
    have hcall := hexact 0 0 (by decide) (by decide)
    rw [decide_eq_false hnone] at hcall
    obtain ⟨seen, hfinds, hbufs⟩ := h.finds hcall
    refine ⟨seen, hfinds, hbufs, fun write ↦ (peak_eq_iff (hbytes write)).mpr fun n hn ↦ ?_⟩
    rw [← helems write]
    have hzero : ¬ 0 < (0 : BitVec 32).toInt := by decide
    cases write with
    | true =>
      have hagree := (h.virtqueueAvailBytes hfinds hbufs).symm.trans (hexact n 0 hn.le (by decide))
      have hiff := decide_eq_decide.mp (Except.ok.inj hagree)
      simpa only [Reaches, hn, hzero, true_and, false_and, or_false] using hiff
    | false =>
      have hagree := (h.virtqueueAvailBytes hfinds hbufs).symm.trans (hexact 0 n (by decide) hn.le)
      have hiff := decide_eq_decide.mp (Except.ok.inj hagree)
      simpa only [Reaches, hn, hzero, true_and, false_and, false_or] using hiff
  · rintro ⟨seen, hseen⟩ inBytes outBytes - -
    rw [h.virtqueueAvailBytes hseen.finds hseen.bufs_le, hseen.peaks, hseen.peaks, ← helems, ← helems]
    rfl

/-- Where all available indirect heads have the address of descriptor 0, what is seen are the available
chains. -/
theorem WellFormed.sees (h : WellFormed m map vq chains)
    (hbytes : ∀ write, bytes (lens write chains.flatten) < 2 ^ 31)
    (haddr : ∀ head ∈ vq.available m, descFIndirect (vringDescFlags m vq.vring.desc head) →
      vringDescAddr m vq.vring.desc 0 = vringDescAddr m vq.vring.desc head)
    (hbufs : vq.totalBufs m (vq.available m) chains ≤ vq.vring.num) :
    Sees m vq chains chains := by
  have hchains := (List.forall₂_and_left _ _).mpr ⟨haddr, h.chains⟩
  refine ⟨hchains.imp fun head l ⟨haddr, hl⟩ ↦ ?_, hbufs, fun write ↦ peak_eq_bytes (hbytes write)⟩
  have hchain := hl.chain
  unfold VirtQueue.tableFrom at hchain ⊢
  split at hchain
  · rwa [if_pos ‹_›, haddr ‹_›]
  · rwa [if_neg ‹_›]

end Queue

/-- On well formed queues `virtqueue_avail_bytes` tells what popping all elements gives just when
it sees chains with the same totals, in spite of the address of descriptor 0 that it takes for
the indirect table of any head. -/
theorem avail_bytes_iff (m : Mem w) (map : PhysicalMemoryMap w) (vq : VirtQueue w)
    (chains : List (List (Descriptor w))) (hwell : WellFormed m map vq chains)
    (hbytes : ∀ write, bytes (lens write chains.flatten) < 2 ^ 31) :
    ∃ elems, PopsAll m map vq elems ∧ (Exact m vq elems ↔ ∃ seen, Sees m vq chains seen) := by
  obtain ⟨elems, hpops, hlens⟩ := popsAll (vq.numHeads m) vq.inuse rfl hwell.numHeads_le hwell.chains
  exact ⟨elems, hpops, hwell.exact_iff_sees hbytes fun write ↦ congrArg bytes (hlens write)⟩

/-- A ring of 128 descriptors at 4096 with one available head, descriptor 1, whose indirect table
at 16384 has one descriptor of 8 readable bytes. -/
def indirectMemory : Mem 64 := fun a ↦
  if a = 4113 then 64 else if a = 4120 then 16 else if a = 4124 then 4 else if a = 6146 then 1
  else if a = 6148 then 1 else if a = 16392 then 8 else 0

def indirectRing : VirtQueue 64 := ⟨⟨128, 4096, 6144, by decide⟩, 0, 0⟩

theorem wellFormed_indirect :
    WellFormed indirectMemory (fun a _ _ ↦ some (a, 8)) indirectRing [[⟨false, 0, 8⟩]] := by
  have hnum : indirectRing.numHeads indirectMemory = 1 := by decide +kernel
  have hheads : indirectRing.heads indirectMemory indirectRing.lastAvailIdx 1 = [1] := by decide +kernel
  have htable : indirectRing.tableFrom indirectMemory 1 1 = ⟨16384, 0, 1⟩ := by rfl
  have hlast : Walks indirectMemory 16384 1 0 [⟨false, 0, 8⟩] :=
    .last (by decide +kernel)
  refine ⟨by decide, by rw [hnum]; decide, ?_⟩
  rw [VirtQueue.available, hnum, hheads]
  refine .cons ⟨⟨by decide, fun _ ↦ by decide +kernel⟩, ?_, ?_, ?_⟩ .nil
  · rw [htable]
    exact ⟨hlast, Nat.le_refl _⟩
  · intro write
    cases write <;> decide
  · intro d hd
    cases List.mem_singleton.mp hd
    exact ⟨_, _, rfl, by decide⟩

theorem avail_bytes_iff_indirect : ∃ elems, PopsAll indirectMemory (fun a _ _ ↦ some (a, 8)) indirectRing elems ∧
    (Exact indirectMemory indirectRing elems ↔
      ∃ seen, Sees indirectMemory indirectRing [[⟨false, 0, 8⟩]] seen) :=
  avail_bytes_iff _ _ _ _ wellFormed_indirect fun write ↦ by cases write <;> decide

/-- The element has 8 readable bytes, which a call does not find. -/
theorem not_avail_bytes : ∃ elems, WellFormed indirectMemory (fun a _ _ ↦ some (a, 8)) indirectRing [[⟨false, 0, 8⟩]] ∧
    PopsAll indirectMemory (fun a _ _ ↦ some (a, 8)) indirectRing elems ∧ elementBytes false elems = 8 ∧
      virtqueueAvailBytes indirectMemory indirectRing 0 8 = .ok false := by
  have hwell := wellFormed_indirect
  obtain ⟨elems, hpops, hlens⟩ := popsAll _ indirectRing.inuse rfl hwell.numHeads_le hwell.chains
  refine ⟨elems, hwell, hpops, congrArg bytes (hlens false), ?_⟩
  have hnum : indirectRing.numHeads indirectMemory = 1 := by decide +kernel
  have hheads : indirectRing.heads indirectMemory indirectRing.lastAvailIdx 1 = [1] := by decide +kernel
  have htable : indirectRing.tableFrom indirectMemory 1 0 = ⟨0, 0, 1⟩ := by rfl
  have hlast : Walks indirectMemory 0 1 0 [⟨false, 0, 0⟩] := .last (by decide +kernel)
  have hfinds : indirectRing.Finds indirectMemory (indirectRing.available indirectMemory) [[⟨false, 0, 0⟩]] := by
    rw [VirtQueue.available, hnum, hheads]
    refine .cons ?_ .nil
    rw [htable]
    exact ⟨hlast, Nat.le_refl _⟩
  refine (hwell.virtqueueAvailBytes hfinds ?_).trans (congrArg Except.ok (by decide +kernel))
  rw [VirtQueue.available, hnum, hheads]
  decide +kernel

end IDeviceEmulator.Virtio
