import IDeviceEmulator.Qcow2.Mapping

namespace IDeviceEmulator.Qcow2.Lookup

open Contents Writes

/-- The tables of an image, whatever their entries are. `l1_size` is an `int`. -/
structure Tables where
  l1Table : List Entry
  l1_lt : l1Table.length < 2 ^ 31
  l2Table : Nat → Nat → Entry
  /-- Whether `l2_load` can read the table at an offset. -/
  readable : Nat → Bool

section Walk

variable (g : Geometry) (t : Tables)

def indexInCluster (offset : Nat) : Nat := offset / 512 % g.clusterSectors

/-- The sectors from the start of a cluster up to the end of what its L1 entry covers. -/
def availableSectors (offset : Nat) : Nat :=
  (2 ^ (g.l2Bits + g.clusterBits) - offset % 2 ^ (g.l2Bits + g.clusterBits)) / 512 + indexInCluster g offset

/-- `nb_needed`. The sum is one of `unsigned int`s. -/
def neededSectors (offset num : Nat) : Nat :=
  min ((num + indexInCluster g offset) % 2 ^ 32) (availableSectors g offset)

/-- What is stored in `*num`, an `int`. -/
def returned (offset num available : Nat) : Int :=
  Int.bmod ((min available (neededSectors g offset num) : Nat) - (indexInCluster g offset : Nat)) (2 ^ 32)

/-- The part of an L2 table that starts with the entry of an offset. -/
def tableAt (e : Entry) (offset i : Nat) : Entry := t.l2Table (target e).toNat (l2Index g offset + i)

/-- `qcow2_get_cluster_offset`: the number of sectors and the offset of their cluster. -/
def getClusterOffset (offset num : Nat) : Option (Int × Entry) :=
  match t.l1Table[l1Index g offset]? with
  | none => some (returned g offset num (availableSectors g offset), 0#64)
  | some e =>
    if e = 0#64 then some (returned g offset num (availableSectors g offset), 0#64)
    else if t.readable (target e).toNat then
      let c := clustersTogether g (tableAt g t e offset) (sizeToClusters g (neededSectors g offset num * 512))
      some (returned g offset num (c * g.clusterSectors), target (tableAt g t e offset 0))
    else none

end Walk

section Meaning

variable (g : Geometry) (t : Tables)

/-- The entry of a sector's cluster. The L1 index is not cut off. -/
def entryOf (sector : Nat) : Entry := entryAt g t.l1Table t.l2Table (sector / g.clusterSectors)

def hostPosition (sector : Nat) : Nat := (target (entryOf g t sector)).toNat + sector % g.clusterSectors * 512

/-- What a returned offset says of a sector of its run. -/
def Served (sector : Nat) (e : Entry) (i : Nat) : Prop :=
  if e = 0#64 then entryOf g t (sector + i) = 0#64
  else if isCompressed e then
    target (entryOf g t (sector + i)) = e ∧ sector % g.clusterSectors + i < g.clusterSectors
  else
    target (entryOf g t (sector + i)) ≠ 0#64 ∧ ¬ isCompressed (entryOf g t (sector + i)) ∧
      hostPosition g t (sector + i) = e.toNat + (sector % g.clusterSectors + i) * 512

/-- A lookup that succeeds returns a run that the tables bear out. -/
def Sound (sector num : Nat) : Option (Int × Entry) → Prop
  | none => True
  | some (n, e) => 1 ≤ n ∧ n ≤ num ∧ ∀ i : Nat, i < n → Served g t sector e i

/-- The L1 entry that a lookup uses, zero beyond the table. -/
def l1Entry (sector : Nat) : Entry := t.l1Table[l1Index g (sector * 512)]?.getD 0#64

/-- The entries up to a later cluster follow on from the first one. -/
def Follows (sector i : Nat) : Prop :=
  ∀ j ≤ i, target (tableAt g t (l1Entry g t sector) (sector * 512) j) =
    target (tableAt g t (l1Entry g t sector) (sector * 512) 0) + BitVec.ofNat 64 (j * g.clusterSize)

/-- The clusters of a request that one L1 entry covers. -/
def Reached (sector num i : Nat) : Prop :=
  sector / g.clusterSectors % g.l2Size + i < g.l2Size ∧ i * g.clusterSectors < sector % g.clusterSectors + num

/-- An allocated cluster has an L1 entry of its own and an offset, and what follows on from it in the request is made
of ordinary clusters. -/
structure Regular (sector num : Nat) (e : Entry) : Prop where
  inRange : InRange g sector
  offset : target e ≠ 0#64
  ordinary : ∀ i, 0 < i → Reached g sector num i → Follows g t sector i →
    ¬ isCompressed e ∧ (target e).toNat + i * g.clusterSize < 2 ^ 62

/-- Where a lookup meets an entry, the entry is regular. -/
def Meets (sector num : Nat) : Prop :=
  l1Entry g t sector ≠ 0#64 → t.readable (target (l1Entry g t sector)).toNat = true →
    tableAt g t (l1Entry g t sector) (sector * 512) 0 ≠ 0#64 →
    Regular g t sector num (tableAt g t (l1Entry g t sector) (sector * 512) 0)

end Meaning

section Counts

variable {g : Geometry} {sector num : Nat}

theorem clusterSectors_le : g.clusterSectors ≤ 2 ^ 12 := by
  have hupper := g.upper
  exact Nat.pow_le_pow_right (by omega) (by omega)

theorem indexInCluster_sector (sector : Nat) : indexInCluster g (sector * 512) = sector % g.clusterSectors := by
  rw [indexInCluster, Nat.mul_div_cancel _ (by omega)]

theorem availableSectors_sector (sector : Nat) : availableSectors g (sector * 512) = sectorsToEnd g sector := by
  rw [availableSectors, indexInCluster_sector, sectorsToEnd]

theorem neededSectors_sector (hnum : num < 2 ^ 31) :
    neededSectors g (sector * 512) num = min (num + sector % g.clusterSectors) (sectorsToEnd g sector) := by
  have hin : sector % g.clusterSectors < g.clusterSectors := Nat.mod_lt _ clusterSectors_pos
  have hle := clusterSectors_le (g := g)
  rw [neededSectors, indexInCluster_sector, availableSectors_sector, Nat.mod_eq_of_lt (by omega)]

theorem returned_eq (hnum : num < 2 ^ 31) (available : Nat) :
    returned g (sector * 512) num available =
      (min available (min (num + sector % g.clusterSectors) (sectorsToEnd g sector)) : Nat) -
        (sector % g.clusterSectors : Nat) := by
  have hin : sector % g.clusterSectors < g.clusterSectors := Nat.mod_lt _ clusterSectors_pos
  have hle := clusterSectors_le (g := g)
  rw [returned, indexInCluster_sector, neededSectors_sector hnum]
  exact Int.bmod_eq_of_le (by omega) (by omega)

theorem lt_sizeToClusters_iff {i n : Nat} : i < sizeToClusters g (n * 512) ↔ i * g.clusterSectors < n := by
  have hpos := clusterSectors_pos (g := g)
  have hsplit : i * (g.clusterSectors * 512) = i * g.clusterSectors * 512 := (Nat.mul_assoc _ _ _).symm
  rw [sizeToClusters, clusterSize_eq, Nat.lt_iff_add_one_le, Nat.le_div_iff_mul_le (by omega), Nat.add_mul, hsplit]
  omega

theorem mul_lt_needed_iff {i : Nat} :
    i * g.clusterSectors < min (num + sector % g.clusterSectors) (sectorsToEnd g sector) ↔ Reached g sector num i := by
  have hk : sector / g.clusterSectors % g.l2Size < g.l2Size := Nat.mod_lt _ l2Size_pos
  rw [sectorsToEnd_eq, Reached, lt_min_iff, Nat.mul_lt_mul_right clusterSectors_pos]
  omega

theorem lt_runLength_iff {p : Nat → Bool} {start n i : Nat} :
    i < runLength p start n ↔ i < n ∧ ∀ j ≤ i, p (start + j) = true := by
  induction n generalizing start i with
  | zero => simp [runLength]
  | succ n ih =>
    unfold runLength
    split_ifs with hp
    · cases i with
      | zero => simpa using hp
      | succ i =>
        rw [Nat.succ_lt_succ_iff, Nat.succ_lt_succ_iff, ih]
        refine and_congr_right fun _ ↦ ⟨fun h j hj ↦ ?_, fun h j hj ↦ ?_⟩
        · cases j with
          | zero => exact hp
          | succ j =>
            rw [show start + (j + 1) = start + 1 + j by omega]
            exact h j (by omega)
        · rw [show start + 1 + j = start + (j + 1) by omega]
          exact h (j + 1) (by omega)
    · refine ⟨fun h ↦ absurd h (Nat.not_lt_zero _), fun h ↦ absurd ?_ hp⟩
      exact h.2 0 (Nat.zero_le _)

end Counts

section Entries

variable {g : Geometry} {t : Tables} {sector num : Nat}

theorem isCompressed_target (e : Entry) : isCompressed (target e) ↔ isCompressed e := by
  rw [isCompressed_iff, isCompressed_iff, getLsbD_target e (by omega)]
  simp

theorem target_lt_iff (e : Entry) : (target e).toNat < 2 ^ 62 ↔ ¬ isCompressed e := by
  rw [← isCompressed_target]
  refine ⟨not_isCompressed, fun h ↦ ?_⟩
  rw [isCompressed_iff, Bool.not_eq_true] at h
  refine Nat.lt_pow_two_of_testBit _ fun i hi ↦ ?_
  change (target e).getLsbD i = false
  by_cases hlt : i < 64
  · rcases (by omega : i = 62 ∨ i = 63) with rfl | rfl
    · exact h
    · rw [getLsbD_target e hlt]
      simp
  · exact BitVec.getLsbD_of_ge _ _ (by omega)

theorem add_div_sectors (sector i : Nat) :
    (sector + i) / g.clusterSectors =
      sector / g.clusterSectors + (sector % g.clusterSectors + i) / g.clusterSectors := by
  have hsplit := Nat.div_add_mod sector g.clusterSectors
  rw [← Nat.mul_add_div clusterSectors_pos, ← Nat.add_assoc, hsplit]

theorem add_mod_sectors (sector i : Nat) :
    (sector + i) % g.clusterSectors = (sector % g.clusterSectors + i) % g.clusterSectors := by
  rw [Nat.mod_add_mod]

theorem entryOf_of_inRange (hr : InRange g sector) {i : Nat}
    (hi : sector % g.clusterSectors + i < sectorsToEnd g sector) :
    entryOf g t (sector + i) =
      if l1Entry g t sector = 0#64 then 0#64
      else tableAt g t (l1Entry g t sector) (sector * 512) ((sector % g.clusterSectors + i) / g.clusterSectors) := by
  rw [entryOf, add_div_sectors, entryAt_add (inTable_of_lt hi), l1Entry, l1Index_sector hr, tableAt, l2Index_sector]

/-- Beyond what the 32 bits of `l1_index` number there is no L1 table. -/
theorem entryOf_of_not_inRange (hr : ¬ InRange g sector) (i : Nat) : entryOf g t (sector + i) = 0#64 := by
  have hle : sector / g.clusterSectors / g.l2Size ≤ (sector + i) / g.clusterSectors / g.l2Size :=
    Nat.div_le_div_right (Nat.div_le_div_right (Nat.le_add_right _ _))
  have hlt := t.l1_lt
  unfold InRange at hr
  have hnone : t.l1Table[(sector + i) / g.clusterSectors / g.l2Size]? = none := List.getElem?_eq_none (by omega)
  simp [entryOf, entryAt, hnone]

theorem countContiguousClusters_copied (n : Nat) (table : Nat → Entry) (start : Nat) :
    countContiguousClusters g n table start oflagCopied =
      if target (table 0) = 0#64 then 0
      else runLength (fun i ↦ target (table 0) + BitVec.ofNat 64 (i * g.clusterSize) = target (table i)) start n := rfl

theorem lt_clustersTogether_iff (hnum : num < 2 ^ 31)
    (hoff : target (tableAt g t (l1Entry g t sector) (sector * 512) 0) ≠ 0#64) {i : Nat} :
    i < clustersTogether g (tableAt g t (l1Entry g t sector) (sector * 512))
        (sizeToClusters g (neededSectors g (sector * 512) num * 512)) ↔
      Reached g sector num i ∧ Follows g t sector i := by
  have hne : tableAt g t (l1Entry g t sector) (sector * 512) 0 ≠ 0#64 := by
    intro hz
    rw [hz] at hoff
    exact hoff rfl
  rw [neededSectors_sector hnum, clustersTogether, if_neg hne, countContiguousClusters_copied, if_neg hoff,
    lt_runLength_iff, lt_sizeToClusters_iff, mul_lt_needed_iff, Follows]
  refine and_congr_right fun _ ↦ forall_congr' fun j ↦ forall_congr' fun _ ↦ ?_
  rw [Nat.zero_add, decide_eq_true_iff]
  exact eq_comm

theorem offset_toNat_add {e : Entry} (he : ¬ isCompressed e) {i : Nat} (hi : i < g.l2Size) :
    (target e + BitVec.ofNat 64 (i * g.clusterSize)).toNat = (target e).toNat + i * g.clusterSize := by
  have hlt := (target_lt_iff e).mpr he
  have hl2 : g.l2Size ≤ 2 ^ 18 := Nat.pow_le_pow_right (by omega) (by have := g.upper; unfold Geometry.l2Bits; omega)
  have hmul : i * g.clusterSize ≤ 2 ^ 18 * 2 ^ 21 := Nat.mul_le_mul (by omega) clusterSize_le
  rw [BitVec.toNat_add, BitVec.toNat_ofNat, Nat.mod_eq_of_lt (by omega : i * g.clusterSize < 2 ^ 64),
    Nat.mod_eq_of_lt (by omega)]

end Entries

section Soundness

variable {g : Geometry} {t : Tables} {sector num : Nat}

/-- A run that starts with its cluster and has something left of it. -/
theorem needed_room (g : Geometry) (sector : Nat) (hnum : 0 < num) :
    sector % g.clusterSectors < min (num + sector % g.clusterSectors) (sectorsToEnd g sector) := by
  have hin : sector % g.clusterSectors < g.clusterSectors := Nat.mod_lt _ clusterSectors_pos
  have hroom := sectorsToEnd_room (g := g) sector
  omega

theorem sound_of_free (hnum : 0 < num) (hnum' : num < 2 ^ 31) {available : Nat}
    (hroom : sector % g.clusterSectors < available)
    (hfree : ∀ i, sector % g.clusterSectors + i < min available
      (min (num + sector % g.clusterSectors) (sectorsToEnd g sector)) → entryOf g t (sector + i) = 0#64) :
    Sound g t sector num (some (returned g (sector * 512) num available, 0#64)) := by
  have hneeded := needed_room g sector hnum
  rw [returned_eq hnum']
  refine ⟨by omega, by omega, fun i hi ↦ ?_⟩
  rw [Served, if_pos rfl]
  exact hfree i (by omega)

theorem entryOf_of_l1Entry_zero (hz : l1Entry g t sector = 0#64) {i : Nat}
    (hi : sector % g.clusterSectors + i < sectorsToEnd g sector) : entryOf g t (sector + i) = 0#64 := by
  by_cases hr : InRange g sector
  · rw [entryOf_of_inRange hr hi, if_pos hz]
  · exact entryOf_of_not_inRange hr i

theorem sound_without_table (hnum : 0 < num) (hnum' : num < 2 ^ 31) (hz : l1Entry g t sector = 0#64) :
    Sound g t sector num (some (returned g (sector * 512) num (availableSectors g (sector * 512)), 0#64)) := by
  have hneeded := needed_room g sector hnum
  rw [availableSectors_sector]
  refine sound_of_free hnum hnum' (by omega) fun i hi ↦ ?_
  exact entryOf_of_l1Entry_zero hz (by omega)

theorem sound_of_entry_zero (hnum : 0 < num) (hnum' : num < 2 ^ 31)
    (hz : tableAt g t (l1Entry g t sector) (sector * 512) 0 = 0#64) :
    Sound g t sector num (some (returned g (sector * 512) num
      (clustersTogether g (tableAt g t (l1Entry g t sector) (sector * 512))
        (sizeToClusters g (neededSectors g (sector * 512) num * 512)) * g.clusterSectors), 0#64)) := by
  have hin : sector % g.clusterSectors < g.clusterSectors := Nat.mod_lt _ clusterSectors_pos
  have hneeded := needed_room g sector hnum
  have hsize : 0 < neededSectors g (sector * 512) num * 512 := by
    rw [neededSectors_sector hnum']
    omega
  have hpos : 0 < clustersTogether g (tableAt g t (l1Entry g t sector) (sector * 512))
      (sizeToClusters g (neededSectors g (sector * 512) num * 512)) :=
    clustersTogether_pos (sizeToClusters_pos hsize) fun _ ↦ hz
  have hfull := Nat.le_mul_of_pos_left g.clusterSectors hpos
  refine sound_of_free hnum hnum' (by omega) fun i hi ↦ ?_
  have hlt := lt_of_lt_of_le hi (min_le_left _ _)
  by_cases hr : InRange g sector
  · rw [entryOf_of_inRange hr (by omega)]
    split_ifs
    · rfl
    · exact (clustersTogether_spec (div_lt_of_lt_mul hlt)).1 hz
  · exact entryOf_of_not_inRange hr i

/-- An entry that holds nothing but `QCOW_OFLAG_COPIED` makes a run of no clusters. -/
theorem clustersTogether_of_target_zero {table : Nat → Entry} (hne : table 0 ≠ 0#64) (hz : target (table 0) = 0#64)
    (n : Nat) : clustersTogether g table n = 0 := by
  rw [clustersTogether, if_neg hne, countContiguousClusters_copied, if_pos hz]

theorem regular_of_sound (hnum' : num < 2 ^ 31) (hl1 : l1Entry g t sector ≠ 0#64)
    (hne : tableAt g t (l1Entry g t sector) (sector * 512) 0 ≠ 0#64)
    (hs : Sound g t sector num (some (returned g (sector * 512) num
      (clustersTogether g (tableAt g t (l1Entry g t sector) (sector * 512))
        (sizeToClusters g (neededSectors g (sector * 512) num * 512)) * g.clusterSectors),
      target (tableAt g t (l1Entry g t sector) (sector * 512) 0)))) :
    Regular g t sector num (tableAt g t (l1Entry g t sector) (sector * 512) 0) := by
  have hin : sector % g.clusterSectors < g.clusterSectors := Nat.mod_lt _ clusterSectors_pos
  obtain ⟨hone, -, hserved⟩ := hs
  rw [returned_eq hnum'] at hone hserved
  have hoff : target (tableAt g t (l1Entry g t sector) (sector * 512) 0) ≠ 0#64 := by
    intro hz
    rw [clustersTogether_of_target_zero hne hz, Nat.zero_mul, Nat.zero_min] at hone
    omega
  have hr : InRange g sector := by
    by_contra hr
    have hfirst := hserved 0 (by omega)
    rw [Served, if_neg hoff, entryOf_of_not_inRange hr] at hfirst
    split_ifs at hfirst with hc
    · exact hoff hfirst.1.symm
    · exact hfirst.1 rfl
  refine ⟨hr, hoff, fun i hpos hreached hfollows ↦ ?_⟩
  -- the first sector of the later cluster belongs to the run
  have hlt := (lt_clustersTogether_iff hnum' hoff).mpr ⟨hreached, hfollows⟩
  have hrun := Nat.mul_lt_mul_of_pos_right hlt (clusterSectors_pos (g := g))
  have hneeded := mul_lt_needed_iff.mpr hreached
  have hle := Nat.le_mul_of_pos_left g.clusterSectors hpos
  have hat := hserved (i * g.clusterSectors - sector % g.clusterSectors) (by omega)
  have hstart : sector % g.clusterSectors + (i * g.clusterSectors - sector % g.clusterSectors) =
      i * g.clusterSectors := by omega
  rw [Served, if_neg hoff] at hat
  split_ifs at hat with hc
  · omega
  · rw [isCompressed_target] at hc
    obtain ⟨-, hord, -⟩ := hat
    have hi := hreached.1
    rw [entryOf_of_inRange hr (by omega), if_neg hl1, hstart, Nat.mul_div_cancel _ clusterSectors_pos,
      ← target_lt_iff, hfollows i le_rfl, offset_toNat_add hc (by omega)] at hord
    exact ⟨hc, hord⟩

theorem sound_of_regular (hnum : 0 < num) (hnum' : num < 2 ^ 31) (hl1 : l1Entry g t sector ≠ 0#64)
    (hreg : Regular g t sector num (tableAt g t (l1Entry g t sector) (sector * 512) 0)) :
    Sound g t sector num (some (returned g (sector * 512) num
      (clustersTogether g (tableAt g t (l1Entry g t sector) (sector * 512))
        (sizeToClusters g (neededSectors g (sector * 512) num * 512)) * g.clusterSectors),
      target (tableAt g t (l1Entry g t sector) (sector * 512) 0))) := by
  obtain ⟨hr, hoff, hordinary⟩ := hreg
  have hin : sector % g.clusterSectors < g.clusterSectors := Nat.mod_lt _ clusterSectors_pos
  have hk : sector / g.clusterSectors % g.l2Size < g.l2Size := Nat.mod_lt _ l2Size_pos
  have hneeded := needed_room g sector hnum
  have hfirst : Follows g t sector 0 := by
    intro j hj
    rw [Nat.le_zero.mp hj, Nat.zero_mul]
    simp
  have hpos := (lt_clustersTogether_iff hnum' hoff).mpr ⟨⟨by omega, by omega⟩, hfirst⟩
  have hfull := Nat.le_mul_of_pos_left g.clusterSectors hpos
  rw [returned_eq hnum']
  refine ⟨by omega, by omega, fun i hi ↦ ?_⟩
  have hlt : sector % g.clusterSectors + i <
      clustersTogether g (tableAt g t (l1Entry g t sector) (sector * 512))
        (sizeToClusters g (neededSectors g (sector * 512) num * 512)) * g.clusterSectors := by omega
  obtain ⟨hreached, hfollows⟩ := (lt_clustersTogether_iff hnum' hoff).mp (div_lt_of_lt_mul hlt)
  have hentry := entryOf_of_inRange (t := t) hr (i := i) (by omega)
  rw [if_neg hl1] at hentry
  have hnext := hfollows _ le_rfl
  rw [← hentry] at hnext
  have hdiv := Nat.div_add_mod (sector % g.clusterSectors + i) g.clusterSectors
  rw [Served, if_neg hoff]
  split_ifs with hc
  · rw [isCompressed_target] at hc
    have hq : (sector % g.clusterSectors + i) / g.clusterSectors = 0 := by
      by_contra hq
      exact (hordinary _ (Nat.pos_of_ne_zero hq) hreached hfollows).1 hc
    rw [hq] at hentry
    exact ⟨by rw [hentry], (Nat.div_eq_zero_iff_lt clusterSectors_pos).mp hq⟩
  · rw [isCompressed_target] at hc
    have hsum := offset_toNat_add hc (g := g) (by have := hreached.1; omega :
      (sector % g.clusterSectors + i) / g.clusterSectors < g.l2Size)
    rw [← hnext] at hsum
    have hlt62 : (target (entryOf g t (sector + i))).toNat < 2 ^ 62 := by
      rw [hsum]
      by_cases hq : (sector % g.clusterSectors + i) / g.clusterSectors = 0
      · rw [hq, Nat.zero_mul]
        exact (target_lt_iff _).mpr hc
      · exact (hordinary _ (Nat.pos_of_ne_zero hq) hreached hfollows).2
    have hposition : (target (tableAt g t (l1Entry g t sector) (sector * 512) 0)).toNat ≠ 0 :=
      fun hz ↦ hoff (BitVec.eq_of_toNat_eq hz)
    refine ⟨fun hz ↦ ?_, (target_lt_iff _).mp hlt62, ?_⟩
    · rw [hz, BitVec.toNat_zero] at hsum
      omega
    · rw [hostPosition, add_mod_sectors, hsum, clusterSize_eq, ← Nat.mul_assoc,
        Nat.mul_comm _ g.clusterSectors]
      omega

theorem getClusterOffset_eq :
    getClusterOffset g t (sector * 512) num =
      if l1Entry g t sector = 0#64 then
        some (returned g (sector * 512) num (availableSectors g (sector * 512)), 0#64)
      else if t.readable (target (l1Entry g t sector)).toNat then
        some (returned g (sector * 512) num
          (clustersTogether g (tableAt g t (l1Entry g t sector) (sector * 512))
            (sizeToClusters g (neededSectors g (sector * 512) num * 512)) * g.clusterSectors),
          target (tableAt g t (l1Entry g t sector) (sector * 512) 0))
      else none := by
  unfold getClusterOffset l1Entry
  cases t.l1Table[l1Index g (sector * 512)]? <;> rfl

/-- The run that a lookup returns is sound exactly where the entry it meets is regular. -/
theorem lookup_sound_iff (g : Geometry) (t : Tables) (sector num : Nat) (hnum : 0 < num) (hnum' : num < 2 ^ 31) :
    Sound g t sector num (getClusterOffset g t (sector * 512) num) ↔ Meets g t sector num := by
  rw [getClusterOffset_eq, Meets]
  by_cases hl1 : l1Entry g t sector = 0#64
  · rw [if_pos hl1]
    exact ⟨fun _ h ↦ absurd hl1 h, fun _ ↦ sound_without_table hnum hnum' hl1⟩
  rw [if_neg hl1]
  by_cases hread : t.readable (target (l1Entry g t sector)).toNat = true
  · rw [if_pos hread]
    by_cases hz : tableAt g t (l1Entry g t sector) (sector * 512) 0 = 0#64
    · refine ⟨fun _ _ _ h ↦ absurd hz h, fun _ ↦ ?_⟩
      have hsound := sound_of_entry_zero hnum hnum' hz
      rwa [hz]
    · exact ⟨fun hs _ _ _ ↦ regular_of_sound hnum' hl1 hz hs,
        fun h ↦ sound_of_regular hnum hnum' hl1 (h hl1 hread hz)⟩
  · rw [if_neg hread]
    exact ⟨fun _ _ h ↦ absurd h hread, fun _ ↦ trivial⟩

/-- One L1 entry, and one L2 table at offset 1024. -/
def oneTable (l2 : Nat → Entry) : Tables where
  l1Table := [1024#64]
  l1_lt := by decide
  l2Table := fun _ ↦ l2
  readable := fun _ ↦ true

theorem lookup_sound_iff_oneTable :
    Sound .smallest (oneTable fun i ↦ BitVec.ofNat 64 (4096 + 512 * i)) 0 2
        (getClusterOffset .smallest (oneTable fun i ↦ BitVec.ofNat 64 (4096 + 512 * i)) 0 2) ↔
      Meets .smallest (oneTable fun i ↦ BitVec.ofNat 64 (4096 + 512 * i)) 0 2 :=
  lookup_sound_iff .smallest (oneTable fun i ↦ BitVec.ofNat 64 (4096 + 512 * i)) 0 2 (by decide) (by decide)

/-- Two compressed clusters a cluster apart make one run, and an entry with only the flag makes a run of no sectors. -/
theorem not_lookup_sound :
    getClusterOffset .smallest (oneTable fun i ↦ oflagCompressed + BitVec.ofNat 64 (4096 + 512 * i)) 0 2 =
        some (2, oflagCompressed + 4096#64) ∧
      ¬ Sound .smallest (oneTable fun i ↦ oflagCompressed + BitVec.ofNat 64 (4096 + 512 * i)) 0 2
        (getClusterOffset .smallest (oneTable fun i ↦ oflagCompressed + BitVec.ofNat 64 (4096 + 512 * i)) 0 2) ∧
      getClusterOffset .smallest (oneTable fun _ ↦ oflagCopied) 0 1 = some (0, 0#64) ∧
      ¬ Sound .smallest (oneTable fun _ ↦ oflagCopied) 0 1
        (getClusterOffset .smallest (oneTable fun _ ↦ oflagCopied) 0 1) := by
  have hrun : getClusterOffset .smallest (oneTable fun i ↦ oflagCompressed + BitVec.ofNat 64 (4096 + 512 * i)) 0 2 =
      some (2, oflagCompressed + 4096#64) := by decide
  have hnone : getClusterOffset .smallest (oneTable fun _ ↦ oflagCopied) 0 1 = some (0, 0#64) := by decide
  refine ⟨hrun, ?_, hnone, ?_⟩
  · rw [hrun]
    rintro ⟨-, -, hserved⟩
    have hsecond := hserved 1 (by decide)
    rw [Served, if_neg (by decide), if_pos (by decide)] at hsecond
    exact absurd hsecond.2 (by decide)
  · rw [hnone]
    rintro ⟨hone, -⟩
    exact absurd hone (by decide)

end Soundness

end IDeviceEmulator.Qcow2.Lookup
