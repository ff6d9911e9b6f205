import IDeviceEmulator.Qcow2.Contents
import IDeviceEmulator.Qcow2.Overlap

namespace IDeviceEmulator.Qcow2.Contents

open Writes

section Lookup

variable (g : Geometry)

/-- The entry of a guest cluster in the tables of an L1 table. -/
def entryAt (l1 : List Entry) (l2 : Nat → Nat → Entry) (k : Nat) : Entry :=
  let e := l1[k / g.l2Size]?.getD 0#64
  if e = 0#64 then 0#64 else l2 (target e).toNat (k % g.l2Size)

variable {g}

theorem l2Size_pos : 0 < g.l2Size := Nat.two_pow_pos _

end Lookup

section Sectors

variable {g : Geometry}

theorem clusterSize_eq : g.clusterSize = g.clusterSectors * 512 := by
  have hlower := g.lower
  unfold Geometry.clusterSize Geometry.clusterSectors
  rw [show (512 : Nat) = 2 ^ 9 from rfl, ← Nat.pow_add]
  congr 1
  omega

/-- The sector has an L1 entry of its own. -/
def InRange (g : Geometry) (sector : Nat) : Prop := sector / g.clusterSectors / g.l2Size < 2 ^ 32

theorem offset_div (sector : Nat) : sector * 512 / g.clusterSize = sector / g.clusterSectors := by
  rw [clusterSize_eq]
  exact Nat.mul_div_mul_right _ _ (by omega)

theorem l1Size_eq : 2 ^ (g.l2Bits + g.clusterBits) = g.l2Size * g.clusterSectors * 512 := by
  rw [Nat.pow_add, Nat.mul_assoc, ← clusterSize_eq]
  rfl

theorem l1Index_sector {sector : Nat} (h : InRange g sector) :
    l1Index g (sector * 512) = sector / g.clusterSectors / g.l2Size := by
  rw [l1Index, l1Size_eq, Nat.mul_div_mul_right _ _ (by omega), Nat.mul_comm g.l2Size, ← Nat.div_div_eq_div_mul]
  exact Nat.mod_eq_of_lt h

theorem l2Index_sector (sector : Nat) : l2Index g (sector * 512) = sector / g.clusterSectors % g.l2Size := by
  rw [l2Index, offset_div]

theorem sectorsToEnd_eq (sector : Nat) :
    sectorsToEnd g sector = (g.l2Size - sector / g.clusterSectors % g.l2Size) * g.clusterSectors := by
  have hmod : sector * 512 % (g.l2Size * g.clusterSectors * 512) = sector % (g.l2Size * g.clusterSectors) * 512 :=
    Nat.mul_mod_mul_right _ _ _
  have hsplit : sector % (g.l2Size * g.clusterSectors) =
      sector / g.clusterSectors % g.l2Size * g.clusterSectors + sector % g.clusterSectors := by
    rw [Nat.mul_comm g.l2Size, Nat.mod_mul, Nat.add_comm, Nat.mul_comm g.clusterSectors]
  have hlt : sector / g.clusterSectors % g.l2Size < g.l2Size := Nat.mod_lt _ l2Size_pos
  have hin : sector % g.clusterSectors < g.clusterSectors := Nat.mod_lt _ clusterSectors_pos
  have hroom : sector / g.clusterSectors % g.l2Size * g.clusterSectors + g.clusterSectors ≤
      g.l2Size * g.clusterSectors := by
    rw [← Nat.succ_mul]
    exact Nat.mul_le_mul_right _ hlt
  rw [sectorsToEnd, l1Size_eq, hmod, ← Nat.sub_mul, Nat.mul_div_cancel _ (by omega), hsplit, Nat.sub_mul]
  omega

/-- Guest clusters of one L2 table have one L1 entry. -/
theorem entryAt_add {l1 : List Entry} {l2 : Nat → Nat → Entry} {k c : Nat} (hc : k % g.l2Size + c < g.l2Size) :
    entryAt g l1 l2 (k + c) =
      if l1[k / g.l2Size]?.getD 0#64 = 0#64 then 0#64
      else l2 (target (l1[k / g.l2Size]?.getD 0#64)).toNat (k % g.l2Size + c) := by
  have hdiv : (k + c) / g.l2Size = k / g.l2Size := by
    have hk := Nat.div_add_mod k g.l2Size
    rw [show k + c = g.l2Size * (k / g.l2Size) + (k % g.l2Size + c) by omega, Nat.mul_add_div l2Size_pos,
      Nat.div_eq_of_lt hc, Nat.add_zero]
  have hmod : (k + c) % g.l2Size = k % g.l2Size + c := by
    rw [Nat.add_mod, Nat.mod_eq_of_lt (by omega : c < g.l2Size), Nat.mod_eq_of_lt hc]
  rw [entryAt, hdiv, hmod]

end Sectors

section Together

variable {g : Geometry}

theorem runLength_spec {p : Nat → Bool} {start n i : Nat} (hi : i < runLength p start n) : p (start + i) = true := by
  induction n generalizing start i with
  | zero => cases hi
  | succ n ih =>
    unfold runLength at hi
    split_ifs at hi with hp
    · cases i with
      | zero => exact hp
      | succ i =>
        have hnext : p (start + 1 + i) = true := ih (by omega)
        rwa [show start + 1 + i = start + (i + 1) by omega] at hnext
    · cases hi

theorem runLength_pos {p : Nat → Bool} {start n : Nat} (hn : 0 < n) (hp : p start = true) :
    0 < runLength p start n := by
  cases n with
  | zero => cases hn
  | succ n =>
    rw [runLength, if_pos hp]
    exact Nat.succ_pos _

theorem clustersTogether_pos {table : Nat → Entry} {n : Nat} (hn : 0 < n)
    (h0 : target (table 0) = 0#64 → table 0 = 0#64) :
    0 < clustersTogether g table n := by
  unfold clustersTogether
  split_ifs with hz
  · exact runLength_pos hn (by simpa using hz)
  · have ht : table 0 &&& ~~~oflagCopied ≠ 0#64 := fun ht ↦ hz (h0 ht)
    rw [countContiguousClusters, if_neg ht]
    exact runLength_pos hn (by simp)

theorem clustersTogether_spec {table : Nat → Entry} {n i : Nat} (hi : i < clustersTogether g table n) :
    (table 0 = 0#64 → table i = 0#64) ∧
      (table 0 ≠ 0#64 → target (table i) = target (table 0) + BitVec.ofNat 64 (i * g.clusterSize)) := by
  unfold clustersTogether at hi
  split_ifs at hi with hz
  · have hrun := runLength_spec hi
    refine ⟨fun _ ↦ by simpa using hrun, fun hne ↦ absurd hz hne⟩
  · refine ⟨fun hzero ↦ absurd hzero hz, fun _ ↦ ?_⟩
    unfold countContiguousClusters at hi
    split_ifs at hi
    · cases hi
    · have hrun := runLength_spec hi
      rw [Nat.zero_add, decide_eq_true_iff] at hrun
      exact hrun.symm

theorem sizeToClusters_pos {n : Nat} (h : 0 < n) : 0 < sizeToClusters g n :=
  Nat.div_pos (by omega) clusterSize_pos

theorem div_lt_of_lt_mul {i c n : Nat} (h : i < c * n) : i / n < c := by
  have hpos : 0 < n := Nat.pos_of_ne_zero (by rintro rfl; simp at h)
  exact (Nat.div_lt_iff_lt_mul hpos).mpr h

theorem sectorsToEnd_room (sector : Nat) : g.clusterSectors ≤ sectorsToEnd g sector := by
  have hk : sector / g.clusterSectors % g.l2Size < g.l2Size := Nat.mod_lt _ l2Size_pos
  rw [sectorsToEnd_eq]
  exact Nat.le_mul_of_pos_left _ (by omega)

theorem inTable_of_lt {sector i : Nat} (h : sector % g.clusterSectors + i < sectorsToEnd g sector) :
    sector / g.clusterSectors % g.l2Size + (sector % g.clusterSectors + i) / g.clusterSectors < g.l2Size := by
  have hk : sector / g.clusterSectors % g.l2Size < g.l2Size := Nat.mod_lt _ l2Size_pos
  rw [sectorsToEnd_eq] at h
  have hlt := div_lt_of_lt_mul h
  omega

end Together

end IDeviceEmulator.Qcow2.Contents
