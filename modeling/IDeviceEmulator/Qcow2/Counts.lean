import IDeviceEmulator.Qcow2.Handles
import IDeviceEmulator.Qcow2.Overlap

namespace IDeviceEmulator.Qcow2.Counts

open Handles (Failure einval)
open Hoare

/-- The refcount table and the blocks at the offsets that it names, as they are seen through a cache whose accesses
succeed. -/
structure Refcounts where
  refcountTable : List Nat
  refcountTableOffset : Nat
  refcountBlock : Nat → Nat → BitVec 16
  freeClusterIndex : Nat

abbrev Io := EStateM Handles.Stop Refcounts

/-- A value of type `int64_t`. Going beyond it has no meaning in C. -/
def int64 (x : Int) : Io Int := if x < 2 ^ 63 then pure x else throw .abort

def attempt {α : Type} (x : Io α) : Io (Except Failure α) := Leases.attempt Handles.Stop.returns x

def ignore (x : Io Unit) : Io Unit := do
  let _ ← attempt x
  pure ()

section Update

variable (g : Geometry)

def alignDown (offset : Int) : Int := offset - offset % g.clusterSize

/-- `refcount_table_index`, an `unsigned int`. -/
def tableIndex (cluster : Int) : Nat := (cluster / g.refcountBlockClusters % 2 ^ 32).toNat

def blockIndex (cluster : Int) : Nat := (cluster % g.refcountBlockClusters).toNat

/-- The offset of a refcount block, zero if there is none. -/
def blockOffset (s : Refcounts) (cluster : Int) : Nat := s.refcountTable[tableIndex g cluster]?.getD 0

def getRefcount (s : Refcounts) (cluster : Int) : Nat :=
  if blockOffset g s cluster = 0 then 0
  else (s.refcountBlock (blockOffset g s cluster) (blockIndex g cluster)).toNat

variable (addBlock : Int → Io (Nat × Int))

/-- `alloc_refcount_block`, given what it does where there is no block yet. -/
def allocRefcountBlock (cluster : Int) : Io (Nat × Int) := do
  let s ← get
  if blockOffset g s cluster = 0 then addBlock cluster else pure (blockOffset g s cluster, 0)

/-- The refcount block of the next cluster, which is kept as long as the index into the table stays the same. -/
def nextBlock (held : Option Nat) (old cluster : Int) : Io (Option Nat × Int) :=
  if cluster / g.refcountBlockClusters = old then pure (held, 0)
  else do
    let (block, ret) ← allocRefcountBlock g addBlock cluster
    pure (some block, ret)

def setRefcount (s : Refcounts) (block : Nat) (cluster refcount : Int) : Refcounts :=
  { s with
    freeClusterIndex := if refcount = 0 ∧ cluster < s.freeClusterIndex then cluster.toNat else s.freeClusterIndex
    refcountBlock := Function.update s.refcountBlock block
      (Function.update (s.refcountBlock block) (blockIndex g cluster) (BitVec.ofInt 16 refcount)) }

/-- Without a block there is nothing to write to. -/
def changeRefcount (addend : Int) (cluster : Int) : Option Nat → Io Unit
  | none => throw .abort
  | some block => do
    let s ← get
    let refcount := (s.refcountBlock block (blockIndex g cluster)).toNat + addend
    if refcount < 0 ∨ 0xffff < refcount then throw (.failed einval)
    else set (setRefcount g s block cluster refcount)

/-- One round of the loop of `update_refcount`. -/
def updateCluster (addend : Int) (held : Option Nat) (old cluster : Int) : Io (Option Nat) := do
  let (block, ret) ← nextBlock g addBlock held old cluster
  if ret < 0 then throw (.failed ret.natAbs)
  else do
    changeRefcount g addend cluster block
    pure block

/-- The loop of `update_refcount`, which ends with `cluster_offset` and the error, if there is one. -/
def updateLoop (addend last : Int) : Nat → Int → Option Nat → Int → Io (Int × Option Failure)
  | 0, _, _, _ => throw .unfinished
  | rounds + 1, clusterOffset, held, old =>
    if last < clusterOffset then pure (clusterOffset, none)
    else do
      match ← attempt (updateCluster g addBlock addend held old (clusterOffset / g.clusterSize)) with
      | .error e => pure (clusterOffset, some e)
      | .ok block => do
        let next ← int64 (clusterOffset + g.clusterSize)
        updateLoop addend last rounds next block (clusterOffset / g.clusterSize / g.refcountBlockClusters)

/-- More rounds than there are clusters. -/
def rounds (start last : Int) : Nat := ((last - start) / g.clusterSize + 2).toNat

/-- The end of `update_refcount`. -/
def afterLoop (undo : Int → Io Unit) : Int × Option Failure → Io Unit
  | (_, none) => pure ()
  | (clusterOffset, some e) => do
    ignore (undo clusterOffset)
    throw e.val

/-- `update_refcount`. What was done is undone with a call on the part in front of `cluster_offset`. -/
def updateRefcount : Nat → Int → Int → Int → Io Unit
  | 0, _, _, _ => throw .unfinished
  | depth + 1, offset, length, addend =>
    if length < 0 then throw (.failed einval)
    else if length = 0 then pure ()
    else do
      let stop ← int64 (offset + length)
      let result ← updateLoop g addBlock addend (alignDown g (stop - 1))
        (rounds g (alignDown g offset) (alignDown g (stop - 1))) (alignDown g offset) none (-1)
      afterLoop (fun clusterOffset ↦ updateRefcount depth offset (clusterOffset - offset) (-addend)) result

/-- The search of `alloc_clusters_noref`, which has found `i` free clusters in a row. -/
def searchFree (nbClusters : Int) : Nat → Nat → Io Int
  | 0, _ => throw .unfinished
  | fuel + 1, i => do
    let s ← get
    if nbClusters ≤ i then int64 ((s.freeClusterIndex - nbClusters) * g.clusterSize)
    else do
      set { s with freeClusterIndex := s.freeClusterIndex + 1 }
      searchFree nbClusters fuel (if getRefcount g s s.freeClusterIndex = 0 then i + 1 else 0)

/-- `alloc_clusters_noref`. The number of clusters is an `int`. -/
def allocClustersNoref (fuel : Nat) (size : Int) : Io Int := do
  let rounded ← int64 (size + (g.clusterSize - 1))
  searchFree g (Int.bmod (rounded / g.clusterSize) (2 ^ 32)) fuel 0

def allocClusters (fuel depth : Nat) (size : Int) : Io Int := do
  let offset ← allocClustersNoref g fuel size
  updateRefcount g addBlock depth offset size 1
  pure offset

end Update

section Meaning

variable (g : Geometry)

/-- The clusters that a range of bytes touches. -/
def Touches (offset length c : Int) : Prop := ∃ x, offset ≤ x ∧ x < offset + length ∧ x / g.clusterSize = c

/-- A refcount block counts the cluster. -/
def Counted (s : Refcounts) (c : Int) : Prop :=
  0 ≤ c ∧ ∃ b ≠ 0, s.refcountTable[(c / g.refcountBlockClusters).toNat]? = some b

def refcountIn (block : Nat → Nat → BitVec 16) (c : Int) : Option Nat → Nat
  | none => 0
  | some b => if c < 0 ∨ b = 0 then 0 else (block b (blockIndex g c)).toNat

/-- What the refcount structures say of a cluster. -/
def refcount (s : Refcounts) (c : Int) : Nat :=
  refcountIn g s.refcountBlock c s.refcountTable[(c / g.refcountBlockClusters).toNat]?

/-- No two entries of the refcount table share a block, and an `int` is enough to number them. -/
structure Described (s : Refcounts) : Prop where
  length_le : s.refcountTable.length ≤ 2 ^ 31
  distinct : ∀ (i j b : Nat), b ≠ 0 → s.refcountTable[i]? = some b → s.refcountTable[j]? = some b → i = j

/-- The refcounts of the clusters change and no others, or none does since one would leave the 16 bits. -/
def Atomic (touched : Int → Prop) (addend : Int) (s : Refcounts) : EStateM.Result Handles.Stop Refcounts Unit → Prop
  | .ok _ t =>
    ∀ c, (touched c → (refcount g t c : Int) = refcount g s c + addend) ∧
      (¬ touched c → refcount g t c = refcount g s c)
  | .error e t =>
    e = .failed einval ∧ (∃ c, touched c ∧ (refcount g s c + addend < 0 ∨ 0xffff < refcount g s c + addend)) ∧
      ∀ c, refcount g t c = refcount g s c

end Meaning

section Clusters

variable {g : Geometry} {s : Refcounts} {c : Int} {b : Nat}

theorem blockClusters_pos : (0 : Int) < g.refcountBlockClusters := Int.natCast_pos.mpr (Nat.two_pow_pos _)

theorem Counted.entry (hs : Described s) (hc : Counted g s c) :
    blockOffset g s c ≠ 0 ∧ s.refcountTable[(c / g.refcountBlockClusters).toNat]? = some (blockOffset g s c) := by
  obtain ⟨hpos, b, hb, hget⟩ := hc
  have hlt := (List.getElem?_eq_some_iff.mp hget).1
  have hle := hs.length_le
  have hdiv : 0 ≤ c / (g.refcountBlockClusters : Int) := Int.ediv_nonneg hpos blockClusters_pos.le
  have hindex : tableIndex g c = (c / g.refcountBlockClusters).toNat := by
    rw [tableIndex, Int.emod_eq_of_lt hdiv (by omega)]
  have hoffset : blockOffset g s c = b := by rw [blockOffset, hindex, hget, Option.getD_some]
  rw [hoffset]
  exact ⟨hb, hget⟩

theorem refcount_of_entry (hpos : 0 ≤ c) (hb : b ≠ 0)
    (hget : s.refcountTable[(c / g.refcountBlockClusters).toNat]? = some b) :
    refcount g s c = (s.refcountBlock b (blockIndex g c)).toNat := by
  rw [refcount, hget]
  exact if_neg (by omega)

theorem Counted.refcount_eq (hs : Described s) (hc : Counted g s c) :
    refcount g s c = (s.refcountBlock (blockOffset g s c) (blockIndex g c)).toNat :=
  refcount_of_entry hc.1 (hc.entry hs).1 (hc.entry hs).2

/-- What `get_refcount` reads is what the structures say. -/
theorem getRefcount_eq (hs : Described s) (hc : Counted g s c) : getRefcount g s c = refcount g s c := by
  rw [getRefcount, if_neg (hc.entry hs).1, hc.refcount_eq hs]

theorem refcount_lt (s : Refcounts) (c : Int) : refcount g s c < 2 ^ 16 := by
  unfold refcount
  cases s.refcountTable[(c / g.refcountBlockClusters).toNat]? with
  | none => exact Nat.two_pow_pos _
  | some b =>
    rw [refcountIn]
    split_ifs
    · exact Nat.two_pow_pos _
    · exact BitVec.isLt _

theorem cluster_ext {d : Int} (hpos : 0 ≤ c) (hpos' : 0 ≤ d)
    (hdiv : (c / g.refcountBlockClusters).toNat = (d / g.refcountBlockClusters).toNat)
    (hmod : blockIndex g c = blockIndex g d) : c = d := by
  have hblock := blockClusters_pos (g := g)
  have hc := Int.ediv_nonneg hpos hblock.le
  have hd := Int.ediv_nonneg hpos' hblock.le
  have hc' := Int.emod_nonneg c hblock.ne'
  have hd' := Int.emod_nonneg d hblock.ne'
  have hdiv' : c / (g.refcountBlockClusters : Int) = d / g.refcountBlockClusters := by omega
  have hmod' : c % (g.refcountBlockClusters : Int) = d % g.refcountBlockClusters := by
    unfold blockIndex at hmod
    omega
  rw [← Int.mul_ediv_add_emod c g.refcountBlockClusters, hdiv', hmod', Int.mul_ediv_add_emod]

/-- Storing a refcount changes it for the one cluster. -/
theorem refcount_setRefcount (hs : Described s) (hc : Counted g s c) {r : Int} (hr : 0 ≤ r) (hr' : r ≤ 0xffff)
    (d : Int) :
    (refcount g (setRefcount g s (blockOffset g s c) c r) d : Int) = if d = c then r else refcount g s d := by
  obtain ⟨hb, hget⟩ := hc.entry hs
  have hvalue : ((BitVec.ofInt 16 r).toNat : Int) = r := by
    rw [BitVec.toNat_ofInt]
    omega
  by_cases hd : d = c
  · subst hd
    rw [if_pos rfl, refcount_of_entry (s := setRefcount g s (blockOffset g s d) d r) hc.1 hb hget]
    simp only [setRefcount, Function.update_self]
    exact hvalue
  · rw [if_neg hd]
    change (refcountIn g _ d s.refcountTable[(d / g.refcountBlockClusters).toNat]? : Int) = _
    rw [refcount]
    cases hgetd : s.refcountTable[(d / g.refcountBlockClusters).toNat]? with
    | none => rfl
    | some b =>
      dsimp only [refcountIn]
      split_ifs with hzero
      · rfl
      · congr 2
        simp only [setRefcount]
        by_cases hsame : b = blockOffset g s c
        · subst hsame
          have hindex := hs.distinct _ _ _ hb hgetd hget
          rw [Function.update_self, Function.update_of_ne]
          exact fun hmod ↦ hd (cluster_ext (by omega) hc.1 hindex hmod)
        · rw [Function.update_of_ne hsame]

end Clusters

section Rounds

variable {g : Geometry} {addBlock : Int → Io (Nat × Int)} {s t u : Refcounts} {c k j addend : Int}

/-- Whatever block is held is the one for the clusters of its index. -/
def Held (g : Geometry) (s : Refcounts) (held : Option Nat) (old : Int) : Prop :=
  ∀ c, Counted g s c → c / g.refcountBlockClusters = old → held = some (blockOffset g s c)

/-- The refcounts from one cluster up to another have changed. -/
structure Shifted (g : Geometry) (addend k j : Int) (s t : Refcounts) : Prop where
  table : t.refcountTable = s.refcountTable
  place : t.refcountTableOffset = s.refcountTableOffset
  counts : ∀ c, (refcount g t c : Int) = refcount g s c + if k ≤ c ∧ c < j then addend else 0

theorem Shifted.described (h : Shifted g addend k j s t) (hs : Described s) : Described t :=
  ⟨h.table ▸ hs.length_le, h.table ▸ hs.distinct⟩

theorem Shifted.counted (h : Shifted g addend k j s t) (hc : Counted g s c) : Counted g t c := by
  unfold Counted
  rw [h.table]
  exact hc

theorem Shifted.refl (k : Int) (s : Refcounts) : Shifted g addend k k s s := by
  refine ⟨rfl, rfl, fun c ↦ ?_⟩
  rw [if_neg (by omega), add_zero]

theorem Shifted.cons (h : Shifted g addend k (k + 1) s t) (h' : Shifted g addend (k + 1) j t u) (hkj : k < j) :
    Shifted g addend k j s u := by
  refine ⟨h'.table.trans h.table, h'.place.trans h.place, fun c ↦ ?_⟩
  rw [h'.counts, h.counts]
  split_ifs <;> omega

/-- A change that is undone. -/
theorem Shifted.undo (h : Shifted g addend k j s t) (h' : Shifted g (-addend) k j t u) (c : Int) :
    refcount g u c = refcount g s c := by
  have hback := h'.counts c
  rw [h.counts] at hback
  split_ifs at hback <;> omega

theorem held_nil (g : Geometry) (s : Refcounts) : Held g s none (-1) := by
  intro c hc hold
  have hdiv := Int.ediv_nonneg hc.1 (blockClusters_pos (g := g)).le
  omega

theorem blockOffset_congr {d : Int} (h : c / g.refcountBlockClusters = d / g.refcountBlockClusters) :
    blockOffset g s c = blockOffset g s d := by
  rw [blockOffset, blockOffset, tableIndex, tableIndex, h]

theorem held_self (ht : t.refcountTable = s.refcountTable) (c : Int) :
    Held g t (some (blockOffset g s c)) (c / g.refcountBlockClusters) := by
  intro d _ hd
  rw [← blockOffset_congr hd, blockOffset, blockOffset, ht]

theorem nextBlock_eq (hs : Described s) (hc : Counted g s c) {held : Option Nat} {old : Int}
    (hheld : Held g s held old) :
    nextBlock g addBlock held old c s = .ok (some (blockOffset g s c), 0) s := by
  unfold nextBlock
  split_ifs with h
  · rw [hheld c hc h]
    rfl
  · simp only [allocRefcountBlock, bind, EStateM.bind, get, getThe, MonadStateOf.get, Hoare.get_apply,
      (hc.entry hs).1, if_false, pure, EStateM.pure]

/-- A round changes the refcount of its cluster, if the new one is in range. -/
theorem updateCluster_eq (addBlock : Int → Io (Nat × Int)) (addend : Int) (hs : Described s) (hc : Counted g s c)
    {held : Option Nat} {old : Int} (hheld : Held g s held old) :
    updateCluster g addBlock addend held old c s =
      if refcount g s c + addend < 0 ∨ 0xffff < refcount g s c + addend then .error (.failed einval) s
      else .ok (some (blockOffset g s c)) (setRefcount g s (blockOffset g s c) c (refcount g s c + addend)) := by
  rw [hc.refcount_eq hs]
  simp only [updateCluster, bind, EStateM.bind, nextBlock_eq hs hc hheld]
  rw [if_neg (by omega)]
  simp only [changeRefcount, bind, EStateM.bind, get, getThe, MonadStateOf.get, Hoare.get_apply]
  split_ifs <;> rfl

theorem shifted_setRefcount (hs : Described s) (hc : Counted g s c)
    (hr : ¬ (refcount g s c + addend < 0 ∨ 0xffff < refcount g s c + addend)) :
    Shifted g addend c (c + 1) s (setRefcount g s (blockOffset g s c) c (refcount g s c + addend)) := by
  refine ⟨rfl, rfl, fun d ↦ ?_⟩
  rw [refcount_setRefcount hs hc (by omega) (by omega)]
  split_ifs with hd h h
  · rw [hd]
  · omega
  · omega
  · omega

/-- The new refcount would not fit. -/
def Leaves (g : Geometry) (addend : Int) (s : Refcounts) (c : Int) : Prop :=
  refcount g s c + addend < 0 ∨ 0xffff < refcount g s c + addend

/-- The loop goes through all clusters, or ends at the first one that would leave the range. -/
def LoopEnds (g : Geometry) (addend k l : Int) (s : Refcounts) :
    EStateM.Result Handles.Stop Refcounts (Int × Option Failure) → Prop
  | .ok (clusterOffset, none) t => clusterOffset = (l + 1) * g.clusterSize ∧ Shifted g addend k (l + 1) s t
  | .ok (clusterOffset, some e) t =>
    ∃ j, k ≤ j ∧ j ≤ l ∧ clusterOffset = j * g.clusterSize ∧ e = .of einval ∧ Shifted g addend k j s t ∧
      Leaves g addend s j
  | .error _ _ => False

theorem LoopEnds.cons {l : Int} {r : EStateM.Result Handles.Stop Refcounts (Int × Option Failure)} (hkl : k ≤ l)
    (h : Shifted g addend k (k + 1) s t) (hr : LoopEnds g addend (k + 1) l t r) : LoopEnds g addend k l s r := by
  match r, hr with
  | .ok (_, none) _, ⟨hoffset, hrest⟩ => exact ⟨hoffset, h.cons hrest (by omega)⟩
  | .ok (_, some _) _, ⟨j, hkj, hjl, hoffset, he, hrest, hleaves⟩ =>
    refine ⟨j, by omega, hjl, hoffset, he, h.cons hrest (by omega), ?_⟩
    have hsame := h.counts j
    rw [if_neg (by omega), add_zero] at hsame
    unfold Leaves at hleaves ⊢
    rwa [hsame] at hleaves

theorem updateLoop_ends {l : Int} (hend : (l + 1) * g.clusterSize < 2 ^ 63) (n : Nat) (hs : Described s)
    (hk : k ≤ l + 1) (hn : l + 1 - k < n) (hcounted : ∀ c, k ≤ c → c ≤ l → Counted g s c) {held : Option Nat}
    {old : Int} (hheld : Held g s held old) :
    LoopEnds g addend k l s (updateLoop g addBlock addend (l * g.clusterSize) n (k * g.clusterSize) held old s) := by
  have hsize : (0 : Int) < g.clusterSize := Int.natCast_pos.mpr Writes.clusterSize_pos
  induction n generalizing s k held old with
  | zero => omega
  | succ n ih =>
    rw [updateLoop]
    by_cases hlast : l < k
    · rw [if_pos (Int.mul_lt_mul_of_pos_right hlast hsize)]
      obtain rfl : k = l + 1 := by omega
      exact ⟨rfl, .refl _ _⟩
    · rw [if_neg (not_lt_of_ge (Int.mul_le_mul_of_nonneg_right (by omega) hsize.le)),
        Int.mul_ediv_cancel _ hsize.ne']
      have hround := updateCluster_eq addBlock addend hs (hcounted k le_rfl (by omega)) hheld
      simp only [bind, EStateM.bind, attempt, Leases.attempt, hround]
      by_cases hr : refcount g s k + addend < 0 ∨ 0xffff < refcount g s k + addend
      · rw [if_pos hr]
        exact ⟨k, le_rfl, by omega, rfl, rfl, .refl _ _, hr⟩
      · have hshift := shifted_setRefcount hs (hcounted k le_rfl (by omega)) hr
        have hnext : k * g.clusterSize + g.clusterSize = (k + 1) * (g.clusterSize : Int) := by
          rw [Int.add_mul, Int.one_mul]
        have hfits : (k + 1) * (g.clusterSize : Int) ≤ (l + 1) * g.clusterSize :=
          Int.mul_le_mul_of_nonneg_right (by omega) hsize.le
        rw [if_neg hr]
        simp only [int64, hnext, if_pos (lt_of_le_of_lt hfits hend), pure]
        refine .cons (by omega) hshift (ih (hshift.described hs) (by omega) (by omega) (fun c hc hc' ↦ ?_) ?_)
        · exact hshift.counted (hcounted c (by omega) hc')
        · exact held_self rfl k

end Rounds

section Update

variable {g : Geometry} {addBlock : Int → Io (Nat × Int)} {s t : Refcounts} {k l addend offset length : Int}

theorem clusterSize_pos : (0 : Int) < g.clusterSize := Int.natCast_pos.mpr Writes.clusterSize_pos

theorem alignDown_eq (x : Int) : alignDown g x = x / g.clusterSize * g.clusterSize := by
  have hdiv := Int.mul_ediv_add_emod x g.clusterSize
  rw [Int.mul_comm] at hdiv
  rw [alignDown]
  omega

theorem touches_iff (hlength : 0 < length) (c : Int) :
    Touches g offset length c ↔ offset / g.clusterSize ≤ c ∧ c ≤ (offset + length - 1) / g.clusterSize := by
  have hsize := clusterSize_pos (g := g)
  constructor
  · rintro ⟨x, hx, hx', rfl⟩
    exact ⟨Int.ediv_le_ediv hsize hx, Int.ediv_le_ediv hsize (by omega)⟩
  · rintro ⟨hlow, hhigh⟩
    -- the first byte of the cluster, or of the range
    refine ⟨max offset (c * g.clusterSize), le_max_left _ _, ?_, ?_⟩
    · have hc := (Int.le_ediv_iff_mul_le hsize).mp hhigh
      omega
    · have hc := Int.lt_mul_of_ediv_lt hsize (by omega : offset / g.clusterSize < c + 1)
      rw [Int.add_mul, Int.one_mul] at hc
      refine le_antisymm ?_ ?_
      · refine Int.le_of_lt_add_one (Int.ediv_lt_of_lt_mul hsize ?_)
        rw [Int.add_mul, Int.one_mul]
        omega
      · exact (Int.le_ediv_iff_mul_le hsize).mpr (le_max_right _ _)

theorem mem_span_iff {d start size : Nat} :
    d ∈ span g start size ↔ 0 < size ∧ start < (d + 1) * g.clusterSize ∧ d * g.clusterSize < start + size := by
  have hpos := Writes.clusterSize_pos (g := g)
  have hmono : size ≠ 0 → start / g.clusterSize ≤ (start + size - 1) / g.clusterSize :=
    fun h ↦ Nat.div_le_div_right (by omega)
  have hlow : start / g.clusterSize ≤ d ↔ start < (d + 1) * g.clusterSize := by
    rw [← Nat.div_lt_iff_lt_mul hpos, Nat.lt_succ_iff]
  have hhigh : d ≤ (start + size - 1) / g.clusterSize ↔ d * g.clusterSize ≤ start + size - 1 :=
    Nat.le_div_iff_mul_le hpos
  unfold span
  split_ifs with hz
  · simp [hz]
  · have hle := hmono hz
    rw [List.mem_range'_1, ← hlow]
    omega

theorem touches_iff_mem_span {start size : Nat} (d : Nat) : Touches g start size d ↔ d ∈ span g start size := by
  have hpos := clusterSize_pos (g := g)
  rw [mem_span_iff]
  constructor
  · rintro ⟨x, hlow, hhigh, hx⟩
    have hle := Int.ediv_mul_le x hpos.ne'
    have hlt := Int.lt_ediv_add_one_mul_self x hpos
    rw [hx] at hle hlt
    have hlow' : (start : Int) < (d + 1) * g.clusterSize := by omega
    have hhigh' : (d : Int) * g.clusterSize < start + size := by omega
    exact ⟨by omega, by exact_mod_cast hlow', by exact_mod_cast hhigh'⟩
  · rintro ⟨hsize, hlow, hhigh⟩
    rw [touches_iff (by omega)]
    have hlow' : (start : Int) < (d + 1) * g.clusterSize := by exact_mod_cast hlow
    have hhigh' : (d : Int) * g.clusterSize < start + size := by exact_mod_cast hhigh
    exact ⟨Int.lt_add_one_iff.mp (Int.ediv_lt_of_lt_mul hpos hlow'), (Int.le_ediv_iff_mul_le hpos).mpr (by omega)⟩

theorem rounds_eq (k l : Int) : rounds g (k * g.clusterSize) (l * g.clusterSize) = (l - k + 2).toNat := by
  rw [rounds, ← Int.sub_mul, Int.mul_ediv_cancel _ clusterSize_pos.ne']

/-- The loop over the clusters from one to another. -/
def loopOver (g : Geometry) (addBlock : Int → Io (Nat × Int)) (addend k l : Int) : Io (Int × Option Failure) :=
  updateLoop g addBlock addend (l * g.clusterSize) (l - k + 2).toNat (k * g.clusterSize) none (-1)

theorem loopOver_ends (hs : Described s) (hkl : k ≤ l + 1) (hend : (l + 1) * g.clusterSize < 2 ^ 63)
    (hcounted : ∀ c, k ≤ c → c ≤ l → Counted g s c) :
    LoopEnds g addend k l s (loopOver g addBlock addend k l s) :=
  updateLoop_ends hend _ hs hkl (by omega) hcounted (held_nil g s)

theorem updateRefcount_loop (addBlock : Int → Io (Nat × Int)) (addend : Int) (s : Refcounts) (hlength : 0 < length)
    (hfits : offset + length < 2 ^ 63) (depth : Nat) :
    updateRefcount g addBlock (depth + 1) offset length addend s =
      (loopOver g addBlock addend (offset / g.clusterSize) ((offset + length - 1) / g.clusterSize) >>=
        afterLoop fun clusterOffset ↦ updateRefcount g addBlock depth offset (clusterOffset - offset) (-addend)) s := by
  rw [updateRefcount, if_neg (by omega), if_neg (by omega), bind_eq (s := s) (t := s) (a := offset + length),
    alignDown_eq, alignDown_eq, rounds_eq]
  · rfl
  · simp only [int64, if_pos hfits, pure, EStateM.pure]

theorem pred_div (j : Int) : (j * g.clusterSize - 1) / (g.clusterSize : Int) = j - 1 := by
  have hsize := clusterSize_pos (g := g)
  refine le_antisymm (Int.le_of_lt_add_one (Int.ediv_lt_of_lt_mul hsize ?_)) ((Int.le_ediv_iff_mul_le hsize).mpr ?_)
  · rw [Int.sub_add_cancel]
    omega
  · rw [Int.sub_mul, Int.one_mul]
    omega

/-- The call that undoes the loop covers what the loop has done, wherever the range starts in its first cluster. -/
theorem undo_eq (addBlock : Int → Io (Nat × Int)) (hs : Described s) {j : Int} (hj : offset / g.clusterSize ≤ j)
    (hend : j * g.clusterSize < 2 ^ 63)
    (hcounted : ∀ c, offset / g.clusterSize ≤ c → c < j → Counted g s c)
    (h : Shifted g addend (offset / g.clusterSize) j s t) (depth : Nat) :
    ∃ u, ignore (updateRefcount g addBlock (depth + 1) offset (j * g.clusterSize - offset) (-addend)) t = .ok () u ∧
      ∀ c, refcount g u c = refcount g s c := by
  have hsize := clusterSize_pos (g := g)
  rcases hj.lt_or_eq with hlt | rfl
  · have hfirst := Int.lt_mul_of_ediv_lt hsize hlt
    have hadd : offset + (j * g.clusterSize - offset) = j * g.clusterSize := by omega
    have hcall := updateRefcount_loop (g := g) addBlock (-addend) t
      (by omega : 0 < j * g.clusterSize - offset) (by omega : offset + (j * g.clusterSize - offset) < 2 ^ 63) depth
    rw [hadd, pred_div] at hcall
    have hloop : LoopEnds g (-addend) (offset / g.clusterSize) (j - 1) t
        (loopOver g addBlock (-addend) (offset / g.clusterSize) (j - 1) t) :=
      loopOver_ends (h.described hs) (by omega) (by rwa [Int.sub_add_cancel])
        fun c hc hc' ↦ h.counted (hcounted c hc (by omega))
    rcases hr : loopOver g addBlock (-addend) (offset / g.clusterSize) (j - 1) t with ⟨⟨_, _ | e⟩, u⟩ | ⟨e, u⟩
    · rw [hr] at hloop
      obtain ⟨-, hback⟩ := hloop
      rw [Int.sub_add_cancel] at hback
      rw [bind_eq hr] at hcall
      refine ⟨u, ?_, fun c ↦ h.undo hback c⟩
      simp only [ignore, attempt, Leases.attempt, bind, EStateM.bind, hcall, afterLoop, pure, EStateM.pure]
    · -- what was in range before is in range again
      rw [hr] at hloop
      obtain ⟨i, hki, hij, -, -, -, hleaves⟩ := hloop
      have hi := h.counts i
      have hlt := refcount_lt (g := g) s i
      rw [if_pos ⟨hki, by omega⟩] at hi
      unfold Leaves at hleaves
      omega
    · rw [hr] at hloop
      exact hloop.elim
  · have hdown := Int.ediv_mul_le offset hsize.ne'
    have hsame : ∀ c, refcount g t c = refcount g s c := by
      intro c
      have hc := h.counts c
      rw [if_neg (by omega), add_zero] at hc
      omega
    refine ⟨t, ?_, hsame⟩
    rcases hdown.lt_or_eq with hlt | heq
    · rw [updateRefcount, if_pos (by omega)]
      rfl
    · rw [updateRefcount, if_neg (by omega), if_pos (by omega)]
      rfl

theorem updateRefcount_atomic (hs : Described s) (hlength : 0 ≤ length)
    (hcounted : ∀ c, Touches g offset length c → Counted g s c ∧ (c + 1) * g.clusterSize < 2 ^ 63) (depth : Nat) :
    Atomic g (Touches g offset length) addend s (updateRefcount g addBlock (depth + 2) offset length addend s) := by
  have hsize := clusterSize_pos (g := g)
  rcases hlength.lt_or_eq with hlength | rfl
  · have hle : offset / g.clusterSize ≤ (offset + length - 1) / g.clusterSize := Int.ediv_le_ediv hsize (by omega)
    have hwithin := (hcounted _ ((touches_iff hlength _).mpr ⟨hle, le_rfl⟩)).2
    have hlast := Int.lt_mul_of_ediv_lt hsize (Int.lt_succ ((offset + length - 1) / g.clusterSize))
    have hloop : LoopEnds g addend (offset / g.clusterSize) ((offset + length - 1) / g.clusterSize) s
        (loopOver g addBlock addend (offset / g.clusterSize) ((offset + length - 1) / g.clusterSize) s) :=
      loopOver_ends hs (by omega) hwithin fun c hc hc' ↦ (hcounted c ((touches_iff hlength c).mpr ⟨hc, hc'⟩)).1
    rw [updateRefcount_loop _ _ _ hlength (by omega)]
    rcases hr : loopOver g addBlock addend (offset / g.clusterSize) ((offset + length - 1) / g.clusterSize) s with
      ⟨⟨_, _ | e⟩, t⟩ | ⟨e, t⟩
    · rw [hr] at hloop
      rw [bind_eq hr]
      intro c
      rw [touches_iff hlength]
      have hc := hloop.2.counts c
      split_ifs at hc with hin
      · exact ⟨fun _ ↦ hc, fun hout ↦ absurd ⟨hin.1, by omega⟩ hout⟩
      · exact ⟨fun h ↦ absurd ⟨h.1, by omega⟩ hin, fun _ ↦ by omega⟩
    · rw [hr] at hloop
      obtain ⟨j, hkj, hjl, rfl, rfl, hshift, hleaves⟩ := hloop
      have hjend : j * (g.clusterSize : Int) ≤ ((offset + length - 1) / g.clusterSize + 1) * g.clusterSize :=
        Int.mul_le_mul_of_nonneg_right (by omega) hsize.le
      obtain ⟨u, hundo, hsame⟩ := undo_eq addBlock hs hkj (by omega)
        (fun c hc hc' ↦ (hcounted c ((touches_iff hlength c).mpr ⟨hc, by omega⟩)).1) hshift depth
      rw [bind_eq hr, afterLoop, bind_eq hundo]
      exact ⟨rfl, ⟨j, (touches_iff hlength j).mpr ⟨hkj, hjl⟩, hleaves⟩, hsame⟩
    · rw [hr] at hloop
      exact hloop.elim
  · rw [updateRefcount, if_neg (by omega), if_pos rfl]
    intro c
    refine ⟨?_, fun _ ↦ rfl⟩
    rintro ⟨x, hx, hx', -⟩
    omega

/-- A loop that has come to its end has computed an offset behind the last cluster. -/
theorem updateLoop_fits (n : Nat) (hk : k * g.clusterSize < 2 ^ 63) {held : Option Nat} {old o : Int}
    (h : updateLoop g addBlock addend (l * g.clusterSize) n (k * g.clusterSize) held old s = .ok (o, none) t) :
    (l + 1) * g.clusterSize < 2 ^ 63 := by
  have hsize := clusterSize_pos (g := g)
  induction n generalizing s k held old with
  | zero => cases h
  | succ n ih =>
    rw [updateLoop] at h
    by_cases hlast : l < k
    · refine lt_of_le_of_lt (Int.mul_le_mul_of_nonneg_right ?_ hsize.le) hk
      omega
    · rw [if_neg (not_lt_of_ge (Int.mul_le_mul_of_nonneg_right (by omega) hsize.le))] at h
      simp only [bind, EStateM.bind, attempt, Leases.attempt] at h
      cases hx : updateCluster g addBlock addend held old (k * g.clusterSize / g.clusterSize) s with
      | ok block u =>
        have hnext : k * g.clusterSize + g.clusterSize = (k + 1) * (g.clusterSize : Int) := by
          rw [Int.add_mul, Int.one_mul]
        simp only [hx, hnext, int64] at h
        by_cases hfits : (k + 1) * (g.clusterSize : Int) < 2 ^ 63
        · simp only [if_pos hfits, pure] at h
          exact ih hfits h
        · simp only [if_neg hfits, throw, throwThe, MonadExceptOf.throw] at h
          cases h
      | error e u =>
        simp only [hx] at h
        split_ifs at h
        cases h

end Update

section Allocation

variable {g : Geometry} {addBlock : Int → Io (Nat × Int)} {s t : Refcounts} {nb offset size : Int}

/-- The clusters that were looked at last are free. -/
def Found (g : Geometry) (s : Refcounts) (i : Nat) : Prop :=
  i ≤ s.freeClusterIndex ∧ ∀ c : Int, s.freeClusterIndex - i ≤ c → c < s.freeClusterIndex → getRefcount g s c = 0

/-- The search changes nothing but its place. -/
structure Searched (g : Geometry) (nb offset : Int) (s t : Refcounts) : Prop where
  table : t.refcountTable = s.refcountTable
  block : t.refcountBlock = s.refcountBlock
  offset_eq : offset = (t.freeClusterIndex - nb) * g.clusterSize
  free : ∀ c : Int, t.freeClusterIndex - nb ≤ c → c < t.freeClusterIndex → getRefcount g s c = 0

theorem searchFree_searched (fuel i : Nat) (hfound : Found g s i) (hi : 0 ≤ nb → i ≤ nb)
    (h : searchFree g nb fuel i s = .ok offset t) : Searched g nb offset s t := by
  induction fuel generalizing s i with
  | zero => cases h
  | succ fuel ih =>
    simp only [searchFree, bind, EStateM.bind, get, getThe, MonadStateOf.get, Hoare.get_apply] at h
    split_ifs at h with hdone hz
    · unfold int64 at h
      split_ifs at h
      · cases h
        refine ⟨rfl, rfl, rfl, fun c hc hc' ↦ ?_⟩
        by_cases hnb : 0 ≤ nb
        · have heq := hi hnb
          exact hfound.2 c (by omega) hc'
        · omega
      · cases h
    · have hnext := ih (i + 1) ⟨Nat.succ_le_succ hfound.1, fun c hc hc' ↦ ?_⟩ (by omega) h
      · exact ⟨hnext.table, hnext.block, hnext.offset_eq, hnext.free⟩
      · change getRefcount g s c = 0
        dsimp only at hc hc'
        rcases (by omega : c = s.freeClusterIndex ∨ c < s.freeClusterIndex) with rfl | hlt
        · exact hz
        · exact hfound.2 c (by omega) hlt
    · have hnext := ih 0 ⟨Nat.zero_le _, fun c hc hc' ↦ by omega⟩ (fun hnb ↦ hnb) h
      exact ⟨hnext.table, hnext.block, hnext.offset_eq, hnext.free⟩

theorem int64_ok {x y : Int} (h : int64 x s = .ok y t) : x < 2 ^ 63 ∧ y = x ∧ t = s := by
  unfold int64 at h
  split_ifs at h with hx
  · cases h
    exact ⟨hx, rfl, rfl⟩
  · cases h

/-- An update that succeeds has computed the offset behind its last cluster. -/
theorem updateRefcount_fits {length addend : Int} {depth : Nat} (hlength : 0 < length)
    (h : updateRefcount g addBlock depth offset length addend s = .ok () t) :
    offset + length < 2 ^ 63 ∧ ((offset + length - 1) / g.clusterSize + 1) * g.clusterSize < 2 ^ 63 := by
  cases depth with
  | zero => cases h
  | succ depth =>
    have hfits : offset + length < 2 ^ 63 := by
      rw [updateRefcount, if_neg (by omega), if_neg (by omega)] at h
      obtain ⟨a, u, hx, -⟩ := bind_ok h
      exact (int64_ok hx).1
    refine ⟨hfits, ?_⟩
    rw [updateRefcount_loop _ _ _ hlength hfits] at h
    obtain ⟨⟨o, result⟩, u, hloop, hafter⟩ := bind_ok h
    cases result with
    | none =>
      have hdown := Int.ediv_mul_le offset (clusterSize_pos (g := g)).ne'
      exact updateLoop_fits _ (by omega) hloop
    | some e =>
      obtain ⟨a, v, -, hthrow⟩ := bind_ok hafter
      cases hthrow

theorem refcount_congr (htable : t.refcountTable = s.refcountTable) (hblock : t.refcountBlock = s.refcountBlock)
    (c : Int) : refcount g t c = refcount g s c := by
  rw [refcount, refcount, htable, hblock]

/-- The clusters of a rounded size. -/
theorem clusters_eq (hsize : 0 < size) (hle : size ≤ (2 ^ 31 - 1) * g.clusterSize) :
    Int.bmod ((size + (g.clusterSize - 1)) / g.clusterSize) (2 ^ 32) = (size - 1) / g.clusterSize + 1 := by
  have hpos := clusterSize_pos (g := g)
  have hround : (size + (g.clusterSize - 1)) / (g.clusterSize : Int) = (size - 1) / g.clusterSize + 1 := by
    rw [show size + ((g.clusterSize : Int) - 1) = size - 1 + 1 * g.clusterSize by omega,
      Int.add_mul_ediv_right _ _ hpos.ne']
  have hlow : 0 ≤ (size - 1) / (g.clusterSize : Int) := Int.ediv_nonneg (by omega) hpos.le
  have hhigh : (size - 1) / (g.clusterSize : Int) < 2 ^ 31 - 1 := Int.ediv_lt_of_lt_mul hpos (by omega)
  rw [hround]
  exact Int.bmod_eq_of_le (by omega) (by omega)

theorem allocClusters_fresh (hs : Described s) (hle : size ≤ (2 ^ 31 - 1) * g.clusterSize) {fuel depth : Nat}
    (h : allocClusters g addBlock fuel (depth + 2) size s = .ok offset t)
    (hcounted : ∀ c, Touches g offset size c → Counted g s c) (c : Int) :
    (Touches g offset size c → refcount g s c = 0 ∧ refcount g t c = 1) ∧
      (¬ Touches g offset size c → refcount g t c = refcount g s c) := by
  have hpos := clusterSize_pos (g := g)
  obtain ⟨offset', u, hsearch, hrest⟩ := bind_ok h
  obtain ⟨⟨⟩, v, hupdate, hpure⟩ := bind_ok hrest
  cases hpure
  obtain ⟨rounded, v, hrounded, hfree⟩ := bind_ok hsearch
  obtain ⟨-, rfl, hv⟩ := int64_ok hrounded
  rw [hv] at hfree
  have hsearched := searchFree_searched fuel 0 ⟨Nat.zero_le _, fun c hc hc' ↦ by omega⟩ (fun h ↦ h) hfree
  have hsame := refcount_congr (g := g) hsearched.table hsearched.block
  have hlength : 0 ≤ size := by
    by_contra hneg
    rw [updateRefcount, if_pos (by omega)] at hupdate
    cases hupdate
  rcases hlength.lt_or_eq with hlength | rfl
  · have hnb := clusters_eq (g := g) hlength hle
    rw [hnb] at hsearched
    have hbefore : ∀ c, Touches g offset size c → refcount g s c = 0 := by
      intro c hc
      have hc' := (touches_iff hlength c).mp hc
      rw [← getRefcount_eq hs (hcounted c hc)]
      rw [hsearched.offset_eq, Int.mul_ediv_cancel _ hpos.ne',
        show (u.freeClusterIndex - ((size - 1) / g.clusterSize + 1)) * (g.clusterSize : Int) + size - 1 =
          size - 1 + (u.freeClusterIndex - ((size - 1) / g.clusterSize + 1)) * g.clusterSize by omega,
        Int.add_mul_ediv_right _ _ hpos.ne'] at hc'
      exact hsearched.free c hc'.1 (by omega)
    have hfits := updateRefcount_fits hlength hupdate
    have hready : ∀ c, Touches g offset size c → Counted g u c ∧ (c + 1) * g.clusterSize < 2 ^ 63 := by
      intro c hc
      have hc' := (touches_iff hlength c).mp hc
      refine ⟨?_, lt_of_le_of_lt (Int.mul_le_mul_of_nonneg_right (by omega) hpos.le) hfits.2⟩
      unfold Counted
      rw [hsearched.table]
      exact hcounted c hc
    have hatomic : Atomic g (Touches g offset size) 1 u (updateRefcount g addBlock (depth + 2) offset size 1 u) :=
      updateRefcount_atomic ⟨hsearched.table ▸ hs.length_le, hsearched.table ▸ hs.distinct⟩ hlength.le hready depth
    rw [hupdate] at hatomic
    obtain ⟨hin, hout⟩ := hatomic c
    rw [hsame] at hin hout
    refine ⟨fun hc ↦ ⟨hbefore c hc, ?_⟩, hout⟩
    have hone := hin hc
    rw [hbefore c hc] at hone
    omega
  · rw [updateRefcount, if_neg (by omega), if_pos rfl] at hupdate
    cases hupdate
    refine ⟨?_, fun _ ↦ hsame c⟩
    rintro ⟨x, hx, hx', -⟩
    omega

/-- An update changes the refcounts of its clusters, or of none; an allocation finds clusters without references. -/
theorem refcounts_atomic_fresh (g : Geometry) (addBlock : Int → Io (Nat × Int)) (s : Refcounts) (hs : Described s)
    (depth : Nat) :
    (∀ offset length addend : Int, length < 0 →
      updateRefcount g addBlock (depth + 2) offset length addend s = .error (.failed einval) s) ∧
    (∀ offset length addend : Int, 0 ≤ length →
      (∀ c, Touches g offset length c → Counted g s c ∧ (c + 1) * g.clusterSize < 2 ^ 63) →
      Atomic g (Touches g offset length) addend s (updateRefcount g addBlock (depth + 2) offset length addend s)) ∧
    ∀ (size offset : Int) (fuel : Nat) (t : Refcounts), size ≤ (2 ^ 31 - 1) * g.clusterSize →
      allocClusters g addBlock fuel (depth + 2) size s = .ok offset t →
      (∀ c, Touches g offset size c → Counted g s c) →
      ∀ c, (Touches g offset size c → refcount g s c = 0 ∧ refcount g t c = 1) ∧
        (¬ Touches g offset size c → refcount g t c = refcount g s c) :=
  ⟨fun offset length addend hlength ↦ by rw [updateRefcount, if_pos hlength]; rfl,
    fun _ _ _ hlength hcounted ↦ updateRefcount_atomic hs hlength hcounted depth,
    fun _ _ _ _ hle h hcounted ↦ allocClusters_fresh hs hle h hcounted⟩

/-- One block, of which the first two clusters are in use. -/
def oneBlock : Refcounts where
  refcountTable := [512]
  refcountTableOffset := 1024
  refcountBlock := fun _ i ↦ if i < 2 then 1 else 0
  freeClusterIndex := 0

theorem described_oneBlock : Described oneBlock := by
  refine ⟨by decide, fun i j b _ hi hj ↦ ?_⟩
  have hi' := (List.getElem?_eq_some_iff.mp hi).1
  have hj' := (List.getElem?_eq_some_iff.mp hj).1
  change i < 1 at hi'
  change j < 1 at hj'
  omega

def noBlock (_ : Int) : Io (Nat × Int) := throw .abort

theorem counted_oneBlock {c : Int} (h : 0 ≤ c) (h' : c < 256) : Counted .smallest oneBlock c := by
  refine ⟨h, 512, by decide, ?_⟩
  rw [show c / ((Geometry.smallest.refcountBlockClusters : Nat) : Int) = 0 from
    Int.ediv_eq_zero_of_lt h h']
  rfl

theorem refcounts_atomic_fresh_oneBlock :
    updateRefcount .smallest noBlock 2 700 (-1) 1 oneBlock = .error (.failed einval) oneBlock ∧
    Atomic .smallest (Touches .smallest 700 1000) 1 oneBlock
        (updateRefcount .smallest noBlock 2 700 1000 1 oneBlock) ∧
      ∃ t, allocClusters .smallest noBlock 10 2 1000 oneBlock = .ok 1024 t ∧
        ∀ c, (Touches .smallest 1024 1000 c → refcount .smallest oneBlock c = 0 ∧ refcount .smallest t c = 1) ∧
          (¬ Touches .smallest 1024 1000 c → refcount .smallest t c = refcount .smallest oneBlock c) := by
  have hall := refcounts_atomic_fresh .smallest noBlock oneBlock described_oneBlock 0
  have hsize : ((Geometry.smallest.clusterSize : Nat) : Int) = 512 := rfl
  refine ⟨hall.1 700 (-1) 1 (by decide), hall.2.1 700 1000 1 (by decide) fun c hc ↦ ?_, _, rfl,
    hall.2.2 1000 1024 10 _ (by decide) rfl fun c hc ↦ ?_⟩
  · obtain ⟨x, hx, hx', rfl⟩ := hc
    rw [hsize]
    exact ⟨counted_oneBlock (by omega) (by omega), by omega⟩
  · obtain ⟨x, hx, hx', rfl⟩ := hc
    rw [hsize]
    exact counted_oneBlock (by omega) (by omega)

/-- Both entries of the refcount table name the same block. -/
def twinBlocks : Refcounts where
  refcountTable := [512, 512]
  refcountTableOffset := 1024
  refcountBlock := fun _ _ ↦ 0
  freeClusterIndex := 0

/-- A negative length is refused although it touches no cluster, and where two entries name one block a cluster that is
not touched changes. -/
theorem not_atomic :
    ¬ Atomic .smallest (Touches .smallest 0 (-1)) 1 oneBlock (updateRefcount .smallest noBlock 2 0 (-1) 1 oneBlock) ∧
      (∀ c, Touches .smallest 0 512 c → Counted .smallest twinBlocks c) ∧
      ¬ Atomic .smallest (Touches .smallest 0 512) 1 twinBlocks
        (updateRefcount .smallest noBlock 2 0 512 1 twinBlocks) := by
  have hsize : ((Geometry.smallest.clusterSize : Nat) : Int) = 512 := rfl
  have hupdate : updateRefcount .smallest noBlock 2 0 512 1 twinBlocks =
      .ok () (setRefcount .smallest twinBlocks 512 0 1) := rfl
  refine ⟨?_, fun c hc ↦ ?_, ?_⟩
  · rintro ⟨-, ⟨c, ⟨x, hx, hx', -⟩, -⟩, -⟩
    omega
  · obtain ⟨x, hx, hx', rfl⟩ := hc
    rw [hsize, Int.ediv_eq_zero_of_lt hx (by omega)]
    exact ⟨le_rfl, 512, by decide, rfl⟩
  · rw [hupdate]
    intro hatomic
    -- cluster 256 is counted in the same place as cluster 0
    have hsame := (hatomic 256).2 fun ⟨x, hx, hx', hdiv⟩ ↦ by
      rw [hsize] at hdiv
      omega
    exact absurd hsame (by decide)

end Allocation

end IDeviceEmulator.Qcow2.Counts
