import IDeviceEmulator.Library.Masks
import IDeviceEmulator.Library.Sums
import IDeviceEmulator.Qcow2.Cluster
import IDeviceEmulator.Qcow2.Ledger

namespace IDeviceEmulator.Qcow2

open Sums

section Flags

theorem isCopied_iff (e : Entry) : isCopied e ↔ e.getLsbD 63 = true :=
  Masks.and_twoPow_ne_zero_iff (show 63 < 64 by omega)

theorem isCompressed_iff (e : Entry) : isCompressed e ↔ e.getLsbD 62 = true :=
  Masks.and_twoPow_ne_zero_iff (show 62 < 64 by omega)

theorem getLsbD_oflagCopied (i : Nat) : oflagCopied.getLsbD i = decide (i = 63) := by
  have h : oflagCopied = BitVec.twoPow 64 63 := rfl
  rw [h, BitVec.getLsbD_twoPow]
  by_cases hi : i = 63 <;> simp [hi, Ne.symm]

theorem getLsbD_target (e : Entry) {i : Nat} (hi : i < 64) :
    (target e).getLsbD i = (e.getLsbD i && !decide (i = 63)) := by
  simp only [target, BitVec.getLsbD_and, BitVec.getLsbD_not, getLsbD_oflagCopied, hi, decide_true, Bool.true_and]

theorem getLsbD_of_lt {e : Entry} {n i : Nat} (h : e.toNat < 2 ^ n) (hi : n ≤ i) : e.getLsbD i = false := by
  rw [BitVec.getLsbD, Nat.testBit_lt_two_pow]
  exact lt_of_lt_of_le h (Nat.pow_le_pow_right (by omega) hi)

theorem target_eq {e f : Entry} (h63 : f.getLsbD 63 = false) (h : ∀ i, i ≠ 63 → e.getLsbD i = f.getLsbD i) :
    target e = f := by
  apply BitVec.eq_of_getLsbD_eq
  intro i hi
  rw [getLsbD_target e hi]
  by_cases h' : i = 63
  · subst h'
    rw [h63]
    simp only [decide_true, Bool.not_true, Bool.and_false]
  · simp only [h i h', h', decide_false, Bool.not_false, Bool.and_true]

theorem target_or_copied {e : Entry} (h : e.toNat < 2 ^ 62) : target (e ||| oflagCopied) = e := by
  refine target_eq (getLsbD_of_lt h (by omega)) fun i hi ↦ ?_
  simp only [BitVec.getLsbD_or, getLsbD_oflagCopied, hi, decide_false, Bool.or_false]

theorem target_of_not_copied {e : Entry} (h : ¬ isCopied e) : target e = e := by
  rw [isCopied_iff, Bool.not_eq_true] at h
  exact target_eq h fun _ _ ↦ rfl

theorem isCopied_or_copied (e : Entry) : isCopied (e ||| oflagCopied) := by
  rw [isCopied_iff, BitVec.getLsbD_or, getLsbD_oflagCopied]
  simp only [decide_true, Bool.or_true]

theorem not_isCompressed {e : Entry} (h : e.toNat < 2 ^ 62) : ¬ isCompressed e := by
  rw [isCompressed_iff, getLsbD_of_lt h le_rfl]
  simp

end Flags

section References

variable (g : Geometry)

def tableRefs (t : Nat → Entry) (h : Nat) : Nat :=
  ((List.range g.l2Size).map fun j ↦ (dataClusters g (t j)).count h).sum

/-- The references to a cluster that are made through an L1 entry. -/
def treeRefs (l2 : Nat → Nat → Entry) (h : Nat) (e : Entry) : Nat :=
  if e = 0#64 then 0 else (tableClusters g e).count h + tableRefs g (l2 (target e).toNat) h

def Image.treeRefs (img : Image) (h : Nat) : Nat := (img.l1Table.map (Qcow2.treeRefs g img.l2Table h)).sum

def Image.l1Clusters (img : Image) : List Nat := span g img.l1TableOffset (8 * img.l1Table.length)

/-- The clusters behind an L1 entry that can be written to in place. -/
def SingleVia (l2 : Nat → Nat → Entry) (e : Entry) (h : Nat) : Prop :=
  isCopied e ∧ h ∈ tableClusters g e ∨
    ∃ j < g.l2Size, isCopied (l2 (target e).toNat j) ∧ h ∈ dataClusters g (l2 (target e).toNat j)

def Image.Single (img : Image) (h : Nat) : Prop := ∃ e ∈ img.l1Table, e ≠ 0#64 ∧ SingleVia g img.l2Table e h

/-- The books of an image. The references from its header and its snapshots do not change. -/
def Sound (fixed own : Nat → Nat) (due : List Nat) (img : Image) : Prop :=
  Books (fun h ↦ img.treeRefs g h + (img.l1Clusters g).count h + fixed h) (img.Single g) own due img

variable {g} {fixed own : Nat → Nat} {due clusters : List Nat} {img img' img₀ : Image}

theorem ne_zero_of_copied {e : Entry} (hc : isCopied e) : e ≠ 0#64 := by
  rintro rfl
  exact hc (by simp)

theorem count_le_tableRefs (t : Nat → Entry) {j : Nat} (hj : j < g.l2Size) (h : Nat) :
    (dataClusters g (t j)).count h ≤ tableRefs g t h :=
  le_sum_map (fun j ↦ (dataClusters g (t j)).count h) (List.mem_range.mpr hj)

theorem SingleVia.treeRefs_pos {l2 : Nat → Nat → Entry} {e : Entry} {h : Nat} (he : e ≠ 0#64)
    (hs : SingleVia g l2 e h) : 1 ≤ Qcow2.treeRefs g l2 h e := by
  rw [Qcow2.treeRefs, if_neg he]
  rcases hs with ⟨-, hmem⟩ | ⟨j, hj, -, hmem⟩
  · have hpos := List.count_pos_iff.mpr hmem
    omega
  · have hpos := List.count_pos_iff.mpr hmem
    have hle := count_le_tableRefs (g := g) (l2 (target e).toNat) hj h
    omega

theorem Image.Single.treeRefs_pos {h : Nat} (hs : img.Single g h) : 1 ≤ img.treeRefs g h := by
  obtain ⟨e, he, hz, hvia⟩ := hs
  exact (hvia.treeRefs_pos hz).trans (le_sum_map _ he)

theorem Image.Single.refs_pos {h : Nat} (hs : img.Single g h) :
    1 ≤ img.treeRefs g h + (img.l1Clusters g).count h + fixed h := by
  have hpos := hs.treeRefs_pos
  omega

theorem SameTables.treeRefs (h : SameTables img img') : img'.treeRefs g = img.treeRefs g := by
  funext c
  simp only [Image.treeRefs, h.l1Table, h.l2Table]

theorem SameTables.l1Clusters (h : SameTables img img') : img'.l1Clusters g = img.l1Clusters g := by
  simp only [Image.l1Clusters, h.l1Table, h.l1TableOffset]

theorem SameTables.single (h : SameTables img img') : img'.Single g = img.Single g := by
  funext c
  simp only [Image.Single, h.l1Table, h.l2Table]

theorem SameTables.sound_iff (h : SameTables img₀ img) :
    Sound g fixed own due img ↔
      Books (fun h ↦ img₀.treeRefs g h + (img₀.l1Clusters g).count h + fixed h) (img₀.Single g) own due img := by
  rw [Sound, h.treeRefs, h.l1Clusters, h.single]

/-- The references of an image without those to its L1 table. -/
def Image.treesAnd (g : Geometry) (fixed : Nat → Nat) (img : Image) (h : Nat) : Nat := img.treeRefs g h + fixed h

def Image.tablesAnd (g : Geometry) (fixed : Nat → Nat) (img : Image) (h : Nat) : Nat :=
  img.treeRefs g h + (img.l1Clusters g).count h + fixed h

theorem Sound.kept (h : Sound g fixed own due img) : Kept (img.tablesAnd g fixed) (img.Single g) img own due img :=
  ⟨h, .refl img⟩

theorem Kept.sound (h : Kept (img₀.tablesAnd g fixed) (img₀.Single g) img₀ own due img) : Sound g fixed own due img :=
  h.2.sound_iff.mpr h.1

theorem Sound.drop_due (h : Sound g fixed own (clusters ++ due) img) : Sound g fixed own due img := Books.drop_due h

theorem Sound.own_to_due (h : Sound g fixed (addOwn own clusters) due img) : Sound g fixed own (clusters ++ due) img :=
  Books.own_to_due h

theorem Sound.drop_own (h : Sound g fixed (addOwn own clusters) due img) : Sound g fixed own due img :=
  h.own_to_due.drop_due

/-- No other entry leads to a table that can be written to. -/
theorem Sound.unique (h : Sound g fixed own due img) {i j : Nat} {e e' : Entry} (hi : img.l1Table[i]? = some e)
    (hc : isCopied e) (hj : img.l1Table[j]? = some e') (hij : j ≠ i) (he' : e' ≠ 0#64) :
    (target e').toNat ≠ (target e).toNat := by
  intro haddr
  obtain ⟨c, hmem⟩ : ∃ c, c ∈ tableClusters g e := by
    refine ⟨(target e).toNat / g.clusterSize, ?_⟩
    have hpos : 0 < g.clusterSize := Nat.two_pow_pos _
    have hle : (target e).toNat / g.clusterSize ≤ ((target e).toNat + g.clusterSize - 1) / g.clusterSize :=
      Nat.div_le_div_right (by omega)
    rw [tableClusters, span, if_neg (by omega), List.mem_range'_1]
    omega
  have hmem' : c ∈ tableClusters g e' := by rwa [tableClusters, haddr]
  have hone : 1 ≤ treeRefs g img.l2Table c e := by
    rw [treeRefs, if_neg (ne_zero_of_copied hc)]
    have hpos := List.count_pos_iff.mpr hmem
    omega
  have hone' : 1 ≤ treeRefs g img.l2Table c e' := by
    rw [treeRefs, if_neg he']
    have hpos := List.count_pos_iff.mpr hmem'
    omega
  have hsum : treeRefs g img.l2Table c e + treeRefs g img.l2Table c e' ≤ img.treeRefs g c := add_le_sum_map _ hij hi hj
  have hledger := h.ledger c
  have hle := h.single_le c ⟨e, List.mem_of_getElem? hi, ne_zero_of_copied hc, .inl ⟨hc, hmem⟩⟩
  omega

end References

section Growing

/-- What the growth of the L1 table and the allocation of an L2 table leave as it is. -/
structure Stable (g : Geometry) (fixed : Nat → Nat) (R : Image → Prop) : Prop where
  same : ∀ img img', SameTables img img' → R img → R img'
  grow : ∀ img offset n, R img → R { img with l1TableOffset := offset, l1Table := img.l1Table ++ List.replicate n 0#64 }
  fill : ∀ img c t, (∀ e ∈ img.l1Table, e ≠ 0#64 → (target e).toNat ≠ c * g.clusterSize) → fixed c = 0 → R img →
    R (setL2 img (c * g.clusterSize) t)
  link : ∀ img i old new, img.l1Table[i]? = some old → new ≠ 0#64 →
    (∀ j, img.l2Table (target new).toNat j = if old = 0#64 then 0#64 else img.l2Table (target old).toNat j) → R img →
    R (setL1 img i new)

theorem stable_true {g : Geometry} {fixed : Nat → Nat} : Stable g fixed fun _ ↦ True :=
  ⟨fun _ _ _ h ↦ h, fun _ _ _ h ↦ h, fun _ _ _ _ _ h ↦ h, fun _ _ _ _ _ _ _ h ↦ h⟩

variable {g : Geometry} {fixed own : Nat → Nat} {due clusters : List Nat} {img img₀ : Image} {R : Image → Prop}

theorem le_growSize (min fuel n : Nat) : n ≤ growSize min fuel n := by
  induction fuel generalizing n with
  | zero => exact le_rfl
  | succ fuel ih =>
    unfold growSize
    split_ifs
    · exact le_trans (by omega) (ih _)
    · exact le_rfl

theorem treeRefs_append_zeros (img : Image) (n h : Nat) (offset : Nat) :
    Image.treeRefs g { img with l1TableOffset := offset, l1Table := img.l1Table ++ List.replicate n 0#64 } h =
      img.treeRefs g h := by
  have hzero : treeRefs g img.l2Table h 0#64 = 0 := if_pos rfl
  simp [Image.treeRefs, hzero]

/-- An allocated table takes the place of the old L1 table, which is due to be freed. -/
theorem Kept.moveL1 {start n : Nat} (hn : img₀.l1Table.length ≤ n)
    (h : Kept (img₀.treesAnd g fixed) (img₀.Single g) img₀
      (addOwn own (List.range' start (sizeToClusters g (8 * n)))) due img) :
    Sound g fixed own due
      { img with
        l1TableOffset := start * g.clusterSize
        l1Table := img.l1Table ++ List.replicate (n - img.l1Table.length) 0#64 } := by
  refine ⟨fun c ↦ ?_, fun c hc ↦ h.1.own_le c (by unfold addOwn; omega), fun c hc ↦ h.1.single_le c ?_⟩
  · have hledger := h.1.ledger c
    have htree := treeRefs_append_zeros (g := g) img (n - img.l1Table.length) c (start * g.clusterSize)
    have hsame := congrFun (h.2.treeRefs (g := g)) c
    have hlen : (img.l1Table ++ List.replicate (n - img.l1Table.length) 0#64).length = n := by
      rw [List.length_append, List.length_replicate, h.2.l1Table]
      omega
    rw [htree, hsame, Image.l1Clusters, hlen, span_aligned]
    simp only [Image.treesAnd, addOwn] at hledger
    dsimp only
    omega
  · obtain ⟨e, he, hz, hvia⟩ := hc
    rw [List.mem_append, h.2.l1Table] at he
    rcases he with he | he
    · exact ⟨e, he, hz, h.2.l2Table ▸ hvia⟩
    · exact absurd (List.eq_of_mem_replicate he) hz

theorem spec_writeL1 {I : Image → Prop} : Spec I writeL1 (fun _ ↦ I) I := spec_hostIo.bind fun _ ↦ spec_hostIo

theorem spec_activateL1 (hR : Stable g fixed R) (hr : R img₀) {start n : Nat} (hn : img₀.l1Table.length ≤ n)
    {F : Image → Prop} :
    Spec (Kept (img₀.tablesAnd g fixed) (img₀.Single g) img₀
        (addOwn own (List.range' start (sizeToClusters g (8 * n)))) due)
      (activateL1 g (start * g.clusterSize) n) (fun _ img ↦ Sound g fixed own due img ∧ R img) F := by
  refine spec_getImage_bind fun img h ↦ ?_
  -- the old table is still referred to while it is being freed
  have hfree : Kept (img₀.treesAnd g fixed) (img₀.Single g) img₀
      (addOwn own (List.range' start (sizeToClusters g (8 * n)))) (img₀.l1Clusters g ++ due) img := by
    refine ⟨⟨fun c ↦ ?_, h.1.own_le, h.1.single_le⟩, h.2⟩
    have hledger := h.1.ledger c
    simp only [Image.tablesAnd] at hledger
    rw [Image.treesAnd, List.count_append]
    omega
  have hold : span g img.l1TableOffset (8 * img.l1Table.length) = img₀.l1Clusters g := h.2.l1Clusters
  have hpos : ∀ c, img₀.Single g c → 1 ≤ img₀.treesAnd g fixed c :=
    fun c hc ↦ hc.treeRefs_pos.trans (Nat.le_add_right _ _)
  unfold freeClusters
  rw [hold]
  refine ((spec_release hpos _).at hfree fun _ hk ↦ hk).bind fun _ ↦ ?_
  exact spec_modifyImage fun img' hk ↦ ⟨hk.moveL1 hn, hR.grow _ _ _ (hR.same _ _ hk.2 hr)⟩

theorem spec_growL1To (hR : Stable g fixed R) {n : Nat} :
    Spec (fun img ↦ Sound g fixed own due img ∧ img.l1Table.length ≤ n ∧ R img) (growL1To g n)
      (fun _ img ↦ Sound g fixed own due img ∧ R img) (Sound g fixed own due) := by
  refine spec_of_forall fun img₀ h₀ ↦ ?_
  refine ((spec_allocClusters (fun _ hc ↦ hc.refs_pos) (8 * n)).at h₀.1.kept fun _ hk ↦ hk.sound).bind fun offset ↦ ?_
  refine spec_of_forall fun img₁ h₁ ↦ ?_
  obtain ⟨start, rfl, hkept, -⟩ := h₁
  refine (spec_hostIo_at hkept.sound.drop_own).bind fun _ ↦ ?_
  refine (spec_attempt_at spec_writeL1).bind fun ok ↦ ?_
  cases ok with
  | true => exact (spec_activateL1 hR h₀.2.2 h₀.2.1).at hkept fun _ hk ↦ hk
  | false =>
    have hdue : Kept (img₀.tablesAnd g fixed) (img₀.Single g) img₀ own
        (List.range' start (sizeToClusters g (8 * n)) ++ due) img₁ := ⟨hkept.1.own_to_due, hkept.2⟩
    unfold freeClusters
    rw [span_aligned]
    refine ((spec_release (fun _ hc ↦ hc.refs_pos) _).at hdue fun _ hk ↦ hk).bind fun _ ↦ ?_
    exact spec_failed fun _ hk ↦ hk.sound

theorem spec_growL1Table (hR : Stable g fixed R) (min : Nat) :
    Spec (fun img ↦ Sound g fixed own due img ∧ R img) (growL1Table g min)
      (fun _ img ↦ Sound g fixed own due img ∧ R img) (Sound g fixed own due) := by
  refine spec_getImage_bind fun img h ↦ spec_ite (fun _ ↦ spec_pure fun _ hi ↦ hi ▸ h) fun _ ↦ ?_
  refine spec_ite (fun _ ↦ spec_abort) fun _ ↦ ?_
  refine (spec_growL1To hR).weaken (fun img' hi ↦ ?_) (fun _ _ hk ↦ hk) fun _ hk ↦ hk
  subst hi
  exact ⟨h.1, le_trans (le_max_left _ _) (le_growSize _ _ _), h.2⟩

end Growing

section Allocating

variable {g : Geometry} {fixed own : Nat → Nat} {due clusters : List Nat} {img img₀ : Image} {R : Image → Prop}

theorem sizeToClusters_clusterSize : sizeToClusters g g.clusterSize = 1 := by
  have hpos : 0 < g.clusterSize := Nat.two_pow_pos _
  rw [sizeToClusters, Nat.add_sub_assoc (by omega), Nat.add_div_left _ hpos, Nat.div_eq_of_lt (by omega)]

theorem span_cluster (c : Nat) : span g (c * g.clusterSize) g.clusterSize = [c] := by
  rw [span_aligned, sizeToClusters_clusterSize]
  rfl

theorem toNat_offset {c : Nat} (h : (c + 1) * g.clusterSize ≤ hostLimit) :
    (BitVec.ofNat 64 (c * g.clusterSize)).toNat = c * g.clusterSize ∧ c * g.clusterSize < 2 ^ 62 := by
  have hpos : 0 < g.clusterSize := Nat.two_pow_pos _
  have hlt : c * g.clusterSize < 2 ^ 62 := by
    rw [Nat.add_mul] at h
    unfold hostLimit at h
    omega
  exact ⟨by rw [BitVec.toNat_ofNat, Nat.mod_eq_of_lt (by omega)], hlt⟩

theorem target_offset {c : Nat} (h : (c + 1) * g.clusterSize ≤ hostLimit) :
    target (BitVec.ofNat 64 (c * g.clusterSize) ||| oflagCopied) = BitVec.ofNat 64 (c * g.clusterSize) := by
  obtain ⟨htoNat, hlt⟩ := toNat_offset h
  exact target_or_copied (by rwa [htoNat])

theorem treeRefs_setL2 {offset : Nat} (t : Nat → Entry)
    (hunused : ∀ e ∈ img.l1Table, e ≠ 0#64 → (target e).toNat ≠ offset) :
    (setL2 img offset t).treeRefs g = img.treeRefs g := by
  funext h
  unfold Image.treeRefs
  congr 1
  refine List.map_congr_left fun e he ↦ ?_
  unfold treeRefs
  by_cases hz : e = 0#64
  · simp [hz]
  · have hne := hunused e he hz
    simp [setL2, Function.update_of_ne hne]

/-- A cluster that is owned is no table. -/
theorem Sound.unused {c : Nat} (h : Sound g fixed (addOwn own [c]) due img) (e : Entry) (he : e ∈ img.l1Table)
    (hz : e ≠ 0#64) : (target e).toNat ≠ c * g.clusterSize := by
  intro haddr
  have hone : 1 ≤ treeRefs g img.l2Table c e := by
    rw [treeRefs, if_neg hz, tableClusters, haddr, span_cluster, List.count_singleton_self]
    omega
  have hsum : treeRefs g img.l2Table c e ≤ img.treeRefs g c := le_sum_map _ he
  have hledger := h.ledger c
  have hle := h.own_le c (by simp [addOwn])
  simp only [addOwn, List.count_singleton_self] at hledger
  omega

theorem Sound.fixed_eq_zero {c : Nat} (h : Sound g fixed (addOwn own [c]) due img) : fixed c = 0 := by
  have hledger := h.ledger c
  have hle := h.own_le c (by simp [addOwn])
  simp only [addOwn, List.count_singleton_self] at hledger
  omega

theorem Sound.setL2 {c : Nat} (h : Sound g fixed (addOwn own [c]) due img) (t : Nat → Entry) :
    Sound g fixed (addOwn own [c]) due (Qcow2.setL2 img (c * g.clusterSize) t) := by
  unfold Sound
  rw [treeRefs_setL2 t h.unused]
  refine ⟨h.ledger, h.own_le, fun d hd ↦ h.single_le d ?_⟩
  obtain ⟨e, he, hz, hvia⟩ := hd
  refine ⟨e, he, hz, ?_⟩
  have hsame : (Qcow2.setL2 img (c * g.clusterSize) t).l2Table (target e).toNat = img.l2Table (target e).toNat :=
    Function.update_of_ne (h.unused e he hz) _ _
  unfold SingleVia at hvia
  rwa [hsame] at hvia

/-- What becomes due when an L1 entry is replaced. -/
def oldTable (g : Geometry) (old : Entry) : List Nat := if old = 0#64 then [] else tableClusters g old

def filling (img : Image) (old : Entry) : Nat → Entry :=
  if old = 0#64 then fun _ ↦ 0#64 else img.l2Table old.toNat

theorem tableRefs_zero (h : Nat) : tableRefs g (fun _ ↦ 0#64) h = 0 := by
  simp [tableRefs, dataClusters]

theorem treeRefs_setL1 {i : Nat} {old : Entry} (hi : img.l1Table[i]? = some old) (new : Entry) (h : Nat) :
    (setL1 img i new).treeRefs g h + treeRefs g img.l2Table h old =
      img.treeRefs g h + treeRefs g img.l2Table h new :=
  sum_map_set (treeRefs g img.l2Table h) hi new

/-- An owned cluster becomes the table of an L1 entry, and the old table is due to be freed. -/
theorem Sound.setL1 {c i : Nat} {old new : Entry} (h : Sound g fixed (addOwn own [c]) due img)
    (hi : img.l1Table[i]? = some old) (hnew : tableClusters g new = [c])
    (hrefs : ∀ d, treeRefs g img.l2Table d new + (oldTable g old).count d =
      treeRefs g img.l2Table d old + [c].count d)
    (hflags : ∀ j, isCopied (img.l2Table (target new).toNat j) →
      old ≠ 0#64 ∧ img.l2Table (target old).toNat j = img.l2Table (target new).toNat j) :
    Sound g fixed own (oldTable g old ++ due) (Qcow2.setL1 img i new) := by
  refine ⟨fun d ↦ ?_, fun d hd ↦ h.own_le d (by unfold addOwn; omega), fun d hd ↦ ?_⟩
  · have hset := treeRefs_setL1 (g := g) hi new d
    have hledger := h.ledger d
    have hl1 : (Qcow2.setL1 img i new).l1Clusters g = img.l1Clusters g := by simp [Image.l1Clusters, Qcow2.setL1]
    rw [hl1, List.count_append, setL1_refcount, setL1_refcountClusters]
    simp only [addOwn] at hledger
    have hd := hrefs d
    omega
  · obtain ⟨e, he, hz, hvia⟩ := hd
    rcases List.mem_or_eq_of_mem_set he with he | rfl
    · exact h.single_le d ⟨e, he, hz, hvia⟩
    · rcases hvia with ⟨-, hmem⟩ | ⟨j, hj, hcopied, hmem⟩
      · rw [hnew, List.mem_singleton] at hmem
        subst hmem
        exact h.own_le d (by simp [addOwn])
      · obtain ⟨hz', hsame⟩ := hflags j hcopied
        refine h.single_le d ⟨old, List.mem_of_getElem? hi, hz', .inr ⟨j, hj, ?_⟩⟩
        rw [hsame]
        exact ⟨hcopied, hmem⟩

/-- The new table refers to what the old one did. -/
theorem treeRefs_filling {c : Nat} {old : Entry} (hlimit : (c + 1) * g.clusterSize ≤ hostLimit) (hold : ¬ isCopied old)
    (hne : old ≠ 0#64 → (target old).toNat ≠ c * g.clusterSize) (d : Nat) :
    treeRefs g (setL2 img (c * g.clusterSize) (filling img old)).l2Table d
        (BitVec.ofNat 64 (c * g.clusterSize) ||| oflagCopied) + (oldTable g old).count d =
      treeRefs g (setL2 img (c * g.clusterSize) (filling img old)).l2Table d old + [c].count d := by
  have haddr : (target (BitVec.ofNat 64 (c * g.clusterSize) ||| oflagCopied)).toNat = c * g.clusterSize := by
    rw [target_offset hlimit]
    exact (toNat_offset hlimit).1
  have hnew : treeRefs g (setL2 img (c * g.clusterSize) (filling img old)).l2Table d
      (BitVec.ofNat 64 (c * g.clusterSize) ||| oflagCopied) = [c].count d + tableRefs g (filling img old) d := by
    rw [treeRefs, if_neg (ne_zero_of_copied (isCopied_or_copied _)), tableClusters, haddr, span_cluster]
    simp [setL2]
  have hwas : treeRefs g (setL2 img (c * g.clusterSize) (filling img old)).l2Table d old =
      (oldTable g old).count d + tableRefs g (filling img old) d := by
    unfold treeRefs oldTable filling
    by_cases hz : old = 0#64
    · simp [hz, tableRefs_zero]
    · have hne := hne hz
      rw [target_of_not_copied hold] at hne
      simp [hz, setL2, target_of_not_copied hold, Function.update_of_ne hne]
  omega

/-- The new table has the entries of the old one. -/
theorem filling_entry {c : Nat} {old : Entry} (hlimit : (c + 1) * g.clusterSize ≤ hostLimit) (hold : ¬ isCopied old)
    (hne : old ≠ 0#64 → (target old).toNat ≠ c * g.clusterSize) (j : Nat) :
    (setL2 img (c * g.clusterSize) (filling img old)).l2Table
        (target (BitVec.ofNat 64 (c * g.clusterSize) ||| oflagCopied)).toNat j =
      if old = 0#64 then 0#64
      else (setL2 img (c * g.clusterSize) (filling img old)).l2Table (target old).toNat j := by
  have haddr : (target (BitVec.ofNat 64 (c * g.clusterSize) ||| oflagCopied)).toNat = c * g.clusterSize := by
    rw [target_offset hlimit]
    exact (toNat_offset hlimit).1
  rw [haddr]
  simp only [setL2, Function.update_self, filling]
  split_ifs with hz
  · rfl
  · rw [Function.update_of_ne (hne hz), target_of_not_copied hold]

theorem flags_filling {c : Nat} {old : Entry} (hlimit : (c + 1) * g.clusterSize ≤ hostLimit) (hold : ¬ isCopied old)
    (hne : old ≠ 0#64 → (target old).toNat ≠ c * g.clusterSize) (j : Nat)
    (hcopied : isCopied ((setL2 img (c * g.clusterSize) (filling img old)).l2Table
      (target (BitVec.ofNat 64 (c * g.clusterSize) ||| oflagCopied)).toNat j)) :
    old ≠ 0#64 ∧ (setL2 img (c * g.clusterSize) (filling img old)).l2Table (target old).toNat j =
      (setL2 img (c * g.clusterSize) (filling img old)).l2Table
        (target (BitVec.ofNat 64 (c * g.clusterSize) ||| oflagCopied)).toNat j := by
  rw [filling_entry hlimit hold hne] at hcopied ⊢
  split_ifs at hcopied ⊢ with hz
  · exact absurd rfl (ne_zero_of_copied hcopied)
  · exact ⟨hz, rfl⟩

theorem spec_fillL2 {c : Nat} {old : Entry} (h : Sound g fixed (addOwn own [c]) due img) :
    Spec (· = img) (fillL2 (c * g.clusterSize) old)
      (fun _ ↦ (· = setL2 img (c * g.clusterSize) (filling img old))) (Sound g fixed own due) := by
  unfold fillL2 filling
  refine spec_ite (fun hz ↦ spec_modifyImage fun img' hi ↦ ?_) fun hz ↦ ?_
  · rw [hi, if_pos hz]
  · refine (spec_hostIo_at h.drop_own).bind fun _ ↦ ?_
    refine Spec.bind (spec_modifyImage fun img' hi ↦ ?_) fun _ ↦ spec_hostIo_at (h.setL2 _).drop_own
    rw [hi, if_neg hz]

theorem spec_linkL1 {i : Nat} {old new : Entry} (hi : img.l1Table[i]? = some old) {E : Image → Prop} (hE : E img) :
    Spec (· = img) (linkL1 i old new) (fun _ ↦ (· = setL1 img i new)) E := by
  refine Spec.bind (R := fun _ ↦ (· = setL1 img i new)) (spec_modifyImage fun img' he ↦ by rw [he]) fun _ ↦ ?_
  refine (spec_attempt_at (spec_hostIo_at rfl)).bind fun ok ↦ ?_
  cases ok with
  | true => exact spec_pure fun _ he ↦ he
  | false =>
    refine Spec.bind (R := fun _ ↦ (· = img)) (spec_modifyImage fun img' he ↦ ?_) fun _ ↦ spec_failed fun _ he ↦ he ▸ hE
    obtain ⟨hlt, hget⟩ := List.getElem?_eq_some_iff.mp hi
    rw [he, setL1, setL1, List.set_set, ← hget, List.set_getElem_self]

/-- The table that an L1 entry leads to can be written to. -/
def Writable (i table : Nat) (img : Image) : Prop :=
  ∃ e, img.l1Table[i]? = some e ∧ isCopied e ∧ (target e).toNat = table

theorem spec_l2Allocate (hR : Stable g fixed R) {i : Nat} {old : Entry} (h : Sound g fixed own due img₀) (hr : R img₀)
    (hi : img₀.l1Table[i]? = some old) (hold : ¬ isCopied old) :
    Spec (· = img₀) (l2Allocate g i old)
      (fun offset img ↦ Sound g fixed own (oldTable g old ++ due) img ∧ Writable i offset img ∧ R img)
      (Sound g fixed own due) := by
  refine ((spec_allocClusters (fun _ hc ↦ hc.refs_pos) g.clusterSize).at h.kept fun _ hk ↦ hk.sound).bind
    fun offset ↦ ?_
  refine spec_of_forall fun img₁ h₁ ↦ ?_
  obtain ⟨start, rfl, hkept, hlimit⟩ := h₁
  rw [sizeToClusters_clusterSize] at hkept hlimit
  have hsound : Sound g fixed (addOwn own [start]) due img₁ := hkept.sound
  have hlimit : (start + 1) * g.clusterSize ≤ hostLimit := hlimit start (by simp)
  have hi₁ : img₁.l1Table[i]? = some old := by rwa [hkept.2.l1Table]
  have hi₂ : (setL2 img₁ (start * g.clusterSize) (filling img₁ old)).l1Table[i]? = some old := hi₁
  refine (spec_hostIo_at hsound.drop_own).bind fun _ ↦ (spec_hostIo_at hsound.drop_own).bind fun _ ↦ ?_
  refine (spec_fillL2 hsound).bind fun _ ↦ (spec_hostIo_at (hsound.setL2 _).drop_own).bind fun _ ↦ ?_
  refine (spec_linkL1 hi₂ (hsound.setL2 _).drop_own).bind fun _ ↦ spec_pure fun img he ↦ ?_
  subst he
  have haddr : (target (BitVec.ofNat 64 (start * g.clusterSize) ||| oflagCopied)).toNat = start * g.clusterSize := by
    rw [target_offset hlimit]
    exact (toNat_offset hlimit).1
  have hclusters : tableClusters g (BitVec.ofNat 64 (start * g.clusterSize) ||| oflagCopied) = [start] := by
    rw [tableClusters, haddr, span_cluster]
  have hunused := hsound.unused old (List.mem_of_getElem? hi₁)
  refine ⟨(hsound.setL2 _).setL1 hi₂ hclusters (treeRefs_filling hlimit hold hunused)
    (flags_filling hlimit hold hunused),
    ⟨_, ?_, isCopied_or_copied _, haddr⟩, ?_⟩
  · exact List.getElem?_set_self (List.getElem?_eq_some_iff.mp hi₁).1
  · refine hR.link _ i old _ hi₂ (ne_zero_of_copied (isCopied_or_copied _)) (fun j ↦ ?_)
      (hR.fill _ _ _ hsound.unused hsound.fixed_eq_zero (hR.same _ _ hkept.2 hr))
    exact filling_entry hlimit hold hunused j

theorem spec_freeOldTable (hR : Stable g fixed R) {i table : Nat} {old : Entry} (hold : ¬ isCopied old)
    {F : Image → Prop} :
    Spec (fun img ↦ Sound g fixed own (oldTable g old ++ due) img ∧ Writable i table img ∧ R img) (freeOldTable g old)
      (fun _ img ↦ Sound g fixed own due img ∧ Writable i table img ∧ R img) F := by
  refine spec_of_forall fun img₀ h ↦ ?_
  unfold freeOldTable
  refine spec_ite (fun hz ↦ spec_pure fun _ hi ↦ hi ▸ ⟨h.1.drop_due, h.2⟩) fun hz ↦ ?_
  have hdue : oldTable g old = span g old.toNat g.clusterSize := by
    rw [oldTable, if_neg hz, tableClusters, target_of_not_copied hold]
  rw [hdue] at h
  refine ((spec_release (fun _ hc ↦ hc.refs_pos) _).at h.1.kept fun _ hk ↦ hk).weaken (fun _ hi ↦ hi)
    (fun _ img hk ↦ ⟨hk.sound, ?_, hR.same _ _ hk.2 h.2.2⟩) fun _ hk ↦ hk
  unfold Writable
  rw [hk.2.l1Table]
  exact h.2.1

theorem spec_getClusterTable_stable (hR : Stable g fixed R) (offset : Nat) :
    Spec (fun img ↦ Sound g fixed own due img ∧ R img) (getClusterTable g offset)
      (fun table img ↦ Sound g fixed own due img ∧ Writable (l1Index g offset) table img ∧ R img)
      (Sound g fixed own due) := by
  refine (spec_growL1Table hR _).bind fun _ ↦ spec_getImage_bind fun img h ↦ ?_
  cases hi : img.l1Table[l1Index g offset]? with
  | none => exact spec_abort
  | some e =>
    refine spec_ite (fun hc ↦ ?_) fun hc ↦ ?_
    · exact (spec_hostIo_at h.1).bind fun _ ↦ spec_pure fun _ he ↦ he ▸ ⟨h.1, ⟨e, hi, hc, rfl⟩, h.2⟩
    · refine (spec_l2Allocate hR h.1 h.2 hi hc).bind fun table ↦ ?_
      exact (spec_freeOldTable hR hc).bind fun _ ↦ spec_pure fun _ hk ↦ hk

theorem spec_getClusterTable (offset : Nat) :
    Spec (Sound g fixed own due) (getClusterTable g offset)
      (fun table img ↦ Sound g fixed own due img ∧ Writable (l1Index g offset) table img) (Sound g fixed own due) :=
  (spec_getClusterTable_stable stable_true offset).weaken (fun _ h ↦ ⟨h, trivial⟩)
    (fun _ _ h ↦ ⟨h.1, h.2.1⟩) fun _ h ↦ h

end Allocating

section Linking

variable {g : Geometry} {fixed own : Nat → Nat} {due : List Nat} {img : Image}

theorem tableRefs_update (t : Nat → Entry) {j : Nat} (hj : j < g.l2Size) (e : Entry) (h : Nat) :
    tableRefs g (Function.update t j e) h + (dataClusters g (t j)).count h =
      tableRefs g t h + (dataClusters g e).count h := by
  have hget : (List.range g.l2Size)[j]? = some j := List.getElem?_range hj
  have hsum := sum_map_add_of_agree (fun k ↦ (dataClusters g (t k)).count h)
    (fun k ↦ (dataClusters g (Function.update t j e k)).count h) hget fun k b hk hb ↦ by
      have hbk : b = k := by
        have hlt := (List.getElem?_eq_some_iff.mp hb).1
        rw [List.getElem?_range (by simpa using hlt)] at hb
        exact (Option.some.inj hb).symm
      rw [hbk, Function.update_of_ne hk]
  simpa [tableRefs] using hsum

theorem Sound.treeRefs_setL2 (h : Sound g fixed own due img) {i table : Nat} (hw : Writable i table img)
    (t : Nat → Entry) (c : Nat) :
    (Qcow2.setL2 img table t).treeRefs g c + tableRefs g (img.l2Table table) c =
      img.treeRefs g c + tableRefs g t c := by
  obtain ⟨e, hi, hcopied, rfl⟩ := hw
  have hz := ne_zero_of_copied hcopied
  have hsum := sum_map_add_of_agree (treeRefs g img.l2Table c)
    (treeRefs g (Qcow2.setL2 img (target e).toNat t).l2Table c) hi fun j e' hij hj ↦ by
      unfold treeRefs
      by_cases hz' : e' = 0#64
      · rw [if_pos hz', if_pos hz']
      · have hne := h.unique hi hcopied hj hij hz'
        simp [hz', Qcow2.setL2, Function.update_of_ne hne]
  have hnew : treeRefs g (Qcow2.setL2 img (target e).toNat t).l2Table c e =
      (tableClusters g e).count c + tableRefs g t c := by
    simp [treeRefs, hz, Qcow2.setL2]
  have hold : treeRefs g img.l2Table c e = (tableClusters g e).count c + tableRefs g (img.l2Table (target e).toNat) c :=
    if_neg hz
  change (Qcow2.setL2 img (target e).toNat t).treeRefs g c + _ = img.treeRefs g c + _ at hsum
  omega

/-- An owned cluster becomes the target of an L2 entry, and what the entry referred to is due to be freed. -/
theorem Sound.setEntry {i table j d : Nat} {ds : List Nat} {e : Entry}
    (h : Sound g fixed (addOwn own (d :: ds)) due img)
    (hw : Writable i table img) (hj : j < g.l2Size) (he : dataClusters g e = [d]) :
    Sound g fixed (addOwn own ds) (dataClusters g (img.l2Table table j) ++ due)
      (Qcow2.setL2 img table (Function.update (img.l2Table table) j e)) := by
  refine ⟨fun c ↦ ?_, fun c hc ↦ h.own_le c ?_, fun c hc ↦ ?_⟩
  · have htree := h.treeRefs_setL2 hw (Function.update (img.l2Table table) j e) c
    have htable := tableRefs_update (g := g) (img.l2Table table) hj e c
    have hledger := h.ledger c
    have hl1 : (Qcow2.setL2 img table (Function.update (img.l2Table table) j e)).l1Clusters g = img.l1Clusters g := rfl
    have hcons : (d :: ds).count c = [d].count c + ds.count c := by
      rw [← List.count_append]
      rfl
    rw [he] at htable
    rw [hl1, List.count_append, setL2_refcount, setL2_refcountClusters]
    simp only [addOwn, hcons] at hledger ⊢
    omega
  · have hcount : ds.count c ≤ (d :: ds).count c := by
      rw [List.count_cons]
      omega
    unfold addOwn at hc ⊢
    omega
  · obtain ⟨e', he', hz, hvia⟩ := hc
    by_cases hnew : (target e').toNat = table ∧ c ∈ dataClusters g e
    · -- the entry that was written
      rw [he, List.mem_singleton] at hnew
      obtain ⟨-, rfl⟩ := hnew
      exact h.own_le c (by simp [addOwn])
    · refine h.single_le c ⟨e', he', hz, hvia.imp_right ?_⟩
      rintro ⟨k, hk, hcopied, hmem⟩
      refine ⟨k, hk, ?_⟩
      by_cases htable : (target e').toNat = table
      · have hkj : k ≠ j := by
          rintro rfl
          apply hnew
          refine ⟨htable, ?_⟩
          simpa [Qcow2.setL2, htable] using hmem
        simpa [Qcow2.setL2, htable, Function.update_of_ne hkj] using And.intro hcopied hmem
      · simpa [Qcow2.setL2, Function.update_of_ne htable] using And.intro hcopied hmem

theorem dataClusters_newEntry (m : L2Meta) {c k : Nat} (hc : m.clusterOffset = c * g.clusterSize)
    (hlimit : (c + k + 1) * g.clusterSize ≤ hostLimit) : dataClusters g (newEntry g m k) = [c + k] := by
  obtain ⟨htoNat, hlt⟩ := toNat_offset hlimit
  rw [newEntry, hc, ← Nat.add_mul, dataClusters, if_neg (ne_zero_of_copied (isCopied_or_copied _)), anyClusters,
    target_offset hlimit, if_neg (not_isCompressed (by rwa [htoNat])), htoNat, span_cluster]

/-- The loop that puts the new clusters into the L2 table. -/
theorem Sound.linkEntries (m : L2Meta) {i table c : Nat} (hc : m.clusterOffset = c * g.clusterSize) (n k : Nat)
    (h : Sound g fixed (addOwn own (List.range' (c + k) n)) due img) (hw : Writable i table img)
    (hfit : l2Index g m.offset + k + n ≤ g.l2Size)
    (hlimit : ∀ d ∈ List.range' (c + k) n, (d + 1) * g.clusterSize ≤ hostLimit) :
    Sound g fixed own
      (((List.range' k n).flatMap fun x ↦ dataClusters g (img.l2Table table (l2Index g m.offset + x))) ++ due)
      ((List.range' k n).foldl (linkEntry g m table) img) := by
  induction n generalizing k due img with
  | zero => exact h
  | succ n ih =>
    rw [List.range'_succ] at h hlimit ⊢
    have hentry := dataClusters_newEntry m hc (hlimit (c + k) List.mem_cons_self)
    have hstep : Sound g fixed (addOwn own (List.range' (c + (k + 1)) n))
        (dataClusters g (img.l2Table table (l2Index g m.offset + k)) ++ due) (linkEntry g m table img k) :=
      h.setEntry hw (by omega) hentry
    have hrest := ih (k + 1) hstep hw (by omega) fun d hd ↦ hlimit d (List.mem_cons_of_mem _ hd)
    have hlater : ((List.range' (k + 1) n).flatMap fun x ↦
        dataClusters g ((linkEntry g m table img k).l2Table table (l2Index g m.offset + x))) =
        (List.range' (k + 1) n).flatMap fun x ↦ dataClusters g (img.l2Table table (l2Index g m.offset + x)) := by
      refine List.flatMap_congr fun x hx ↦ ?_
      have hxk : l2Index g m.offset + x ≠ l2Index g m.offset + k := by
        rw [List.mem_range'_1] at hx
        omega
      simp [linkEntry, Qcow2.setL2, Function.update_of_ne hxk]
    rw [hlater] at hrest
    rw [List.flatMap_cons, List.foldl_cons]
    refine Books.perm hrest ?_
    rw [← List.append_assoc]
    exact List.Perm.append_right due List.perm_append_comm

theorem flatMap_dataClusters_filter (es : List Entry) :
    (es.filter (· ≠ 0#64)).flatMap (dataClusters g) = es.flatMap (dataClusters g) := by
  induction es with
  | nil => rfl
  | cons e es ih =>
    by_cases he : e = 0#64
    · simp [he, dataClusters] at ih ⊢
      exact ih
    · simp [he] at ih ⊢
      exact ih

theorem spec_freeAll {T : Nat → Nat} {C : Nat → Prop} {img₀ : Image} (hC : ∀ h, C h → 1 ≤ T h) (es : List Entry)
    (hes : ∀ e ∈ es, e ≠ 0#64) {F : Image → Prop} :
    Spec (Kept T C img₀ own (es.flatMap (dataClusters g) ++ due)) (freeAll g es) (fun _ ↦ Kept T C img₀ own due) F := by
  induction es with
  | nil => exact spec_pure fun _ h ↦ h
  | cons e es ih =>
    have hdata : dataClusters g e = anyClusters g (target e) := if_neg (hes e List.mem_cons_self)
    rw [List.flatMap_cons, List.append_assoc, hdata]
    exact (spec_release hC _).bind fun _ ↦ ih fun e' he' ↦ hes e' (List.mem_cons_of_mem _ he')

/-- The image after the loop that puts the new clusters into the L2 table. -/
def linked (g : Geometry) (m : L2Meta) (table : Nat) (img : Image) : Image :=
  (List.range m.nbClusters).foldl (linkEntry g m table) img

theorem spec_replaceEntries (m : L2Meta) {i table c : Nat} (hc : m.clusterOffset = c * g.clusterSize)
    (hfit : l2Index g m.offset + m.nbClusters ≤ g.l2Size)
    (hlimit : ∀ d ∈ List.range' c m.nbClusters, (d + 1) * g.clusterSize ≤ hostLimit)
    (h : Sound g fixed (addOwn own (List.range' c m.nbClusters)) due img) (hw : Writable i table img) :
    Spec (· = img) (replaceEntries g m table)
      (fun _ img' ↦ Sound g fixed own due img' ∧ SameTables (linked g m table img) img') (Sound g fixed own due) := by
  refine spec_getImage_bind fun img' hi ↦ ?_
  subst hi
  have holds : (oldClusters g m (img'.l2Table table)).flatMap (dataClusters g) =
      (List.range' 0 m.nbClusters).flatMap fun x ↦ dataClusters g (img'.l2Table table (l2Index g m.offset + x)) := by
    rw [oldClusters, flatMap_dataClusters_filter, List.flatMap_map, List.range_eq_range']
  have hlinked := h.linkEntries m hc m.nbClusters 0 hw (by omega) hlimit
  rw [← holds, ← List.range_eq_range'] at hlinked
  refine Spec.bind (R := fun _ ↦ (· = linked g m table img')) (spec_modifyImage fun _ he ↦ by rw [he]; rfl) fun _ ↦ ?_
  refine (spec_hostIo_at hlinked.drop_due).bind fun _ ↦ ?_
  refine ((spec_freeAll (fun _ hc ↦ hc.refs_pos) _ (by simp [oldClusters])).at hlinked.kept fun _ hk ↦ hk).weaken
    (fun _ hi ↦ hi) (fun _ _ hk ↦ ⟨hk.sound, hk.2⟩) fun _ hk ↦ hk

theorem spec_copySectors {I : Image → Prop} (needed : Prop) [Decidable needed] :
    Spec I (copySectors needed) (fun _ ↦ I) I :=
  spec_ite (fun _ ↦ spec_hostIo.bind fun _ ↦ spec_hostIo) fun _ ↦ spec_pure fun _ h ↦ h

/-- What linking has done to the tables when it succeeds. -/
def Linked (g : Geometry) (fixed own : Nat → Nat) (due : List Nat) (R : Image → Prop) (m : L2Meta) (img : Image) :
    Prop :=
  ∃ img₁ table, Sound g fixed own due img₁ ∧ R img₁ ∧ Writable (l1Index g m.offset) table img₁ ∧
    SameTables (linked g m table img₁) img

/-- Linking uses up the clusters that were allocated for it, whether it succeeds or not. -/
theorem spec_allocClusterLinkL2_stable {R : Image → Prop} (hR : Stable g fixed R) (m : L2Meta)
    (hnb : m.nbClusters ≠ 0) {c : Nat}
    (hc : m.clusterOffset = c * g.clusterSize) (hfit : l2Index g m.offset + m.nbClusters ≤ g.l2Size)
    (hlimit : ∀ d ∈ List.range' c m.nbClusters, (d + 1) * g.clusterSize ≤ hostLimit) :
    Spec (fun img ↦ Sound g fixed (addOwn own (List.range' c m.nbClusters)) due img ∧ R img) (allocClusterLinkL2 g m)
      (fun _ img ↦ Sound g fixed own due img ∧ Linked g fixed (addOwn own (List.range' c m.nbClusters)) due R m img)
      (Sound g fixed own due) := by
  unfold allocClusterLinkL2
  rw [if_neg hnb]
  have hdrop : ∀ img, Sound g fixed (addOwn own (List.range' c m.nbClusters)) due img → Sound g fixed own due img :=
    fun _ h ↦ h.drop_own
  refine Spec.bind ((spec_copySectors _).weaken (fun _ h ↦ h) (fun _ _ h ↦ h) fun _ h ↦ hdrop _ h.1) fun _ ↦ ?_
  refine Spec.bind ((spec_copySectors _).weaken (fun _ h ↦ h) (fun _ _ h ↦ h) fun _ h ↦ hdrop _ h.1) fun _ ↦ ?_
  refine Spec.bind ((spec_getClusterTable_stable hR m.offset).weaken (fun _ h ↦ h) (fun _ _ h ↦ h) hdrop) fun table ↦ ?_
  refine spec_of_forall fun img h ↦ (spec_replaceEntries m hc hfit hlimit h.1 h.2.1).weaken
    (fun _ hi ↦ hi) ?_ fun _ h ↦ h
  exact fun _ img' h' ↦ ⟨h'.1, img, table, h.1, h.2.2, h.2.1, h'.2⟩

theorem spec_allocClusterLinkL2 (m : L2Meta) {c : Nat} (hc : m.clusterOffset = c * g.clusterSize)
    (hfit : l2Index g m.offset + m.nbClusters ≤ g.l2Size)
    (hlimit : ∀ d ∈ List.range' c m.nbClusters, (d + 1) * g.clusterSize ≤ hostLimit) :
    Spec (Sound g fixed (addOwn own (List.range' c m.nbClusters)) due) (allocClusterLinkL2 g m)
      (fun _ ↦ Sound g fixed own due) (Sound g fixed own due) := by
  by_cases hnb : m.nbClusters = 0
  · unfold allocClusterLinkL2
    rw [if_pos hnb]
    exact spec_pure fun _ h ↦ h.drop_own
  · exact (spec_allocClusterLinkL2_stable stable_true m hnb hc hfit hlimit).weaken (fun _ h ↦ ⟨h, trivial⟩)
      (fun _ _ h ↦ h.1) fun _ h ↦ h

end Linking

end IDeviceEmulator.Qcow2
