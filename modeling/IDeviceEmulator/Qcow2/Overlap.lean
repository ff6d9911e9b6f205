import IDeviceEmulator.Qcow2.Tables
import IDeviceEmulator.Qcow2.Writes

namespace IDeviceEmulator.Qcow2.Writes

section Sizes

variable {g : Geometry}

theorem clusterSize_pos : 0 < g.clusterSize := Nat.two_pow_pos _

theorem clusterSize_le : g.clusterSize ≤ 2 ^ 21 := Nat.pow_le_pow_right (by omega) g.upper

theorem clusterSectors_pos : 0 < g.clusterSectors := Nat.two_pow_pos _

theorem clusterBytes_eq {n : Nat} (h : n * g.clusterSize < 2 ^ 32) : clusterBytes g n = n * g.clusterSize :=
  Nat.mod_eq_of_lt h

theorem sizeToClusters_mul (n : Nat) : sizeToClusters g (n * g.clusterSize) = n := by
  have hpos := clusterSize_pos (g := g)
  rw [sizeToClusters, Nat.add_sub_assoc (by omega), Nat.add_comm, Nat.add_mul_div_right _ _ hpos,
    Nat.div_eq_of_lt (by omega), Nat.zero_add]

theorem oldEndOffset_eq {m : L2Meta} (h : m.nbClusters * g.clusterSize < 2 ^ 31) :
    oldEndOffset g m = m.offset + m.nbClusters * g.clusterSize := by
  have hbmod : Int.bmod (m.nbClusters * g.clusterSize) (2 ^ 32) = ((m.nbClusters * g.clusterSize : Nat) : Int) := by
    rw [← Int.natCast_mul]
    exact Int.bmod_eq_of_le (by omega) (by omega)
  unfold oldEndOffset
  rw [hbmod]
  exact if_neg (Int.not_lt.mpr (Int.natCast_nonneg _))

/-- Neither `n_end << 9` nor the size of the clusters that a write asks for in a table leaves an `int`. -/
def Modest (g : Geometry) (nEnd : Nat) : Prop :=
  nEnd < 2 ^ 22 ∧ min (sizeToClusters g (nEnd * 512)) g.l2Size * g.clusterSize < 2 ^ 31

instance (nEnd : Nat) : Decidable (Modest g nEnd) := by
  unfold Modest
  infer_instance

theorem Modest.mono {nEnd nEnd' : Nat} (h : Modest g nEnd) (hle : nEnd' ≤ nEnd) : Modest g nEnd' := by
  have hclusters : sizeToClusters g (nEnd' * 512) ≤ sizeToClusters g (nEnd * 512) :=
    Nat.div_le_div_right (by omega)
  exact ⟨hle.trans_lt h.1, (Nat.mul_le_mul_right _ (min_le_min_right _ hclusters)).trans_lt h.2⟩

theorem Modest.wantedClusters_lt {nEnd : Nat} (h : Modest g nEnd) (offset : Nat) :
    wantedClusters g offset nEnd * g.clusterSize < 2 ^ 31 := by
  have hend := h.1
  have hpos := clusterSize_pos (g := g)
  have hbmod : Int.bmod (nEnd * 512) (2 ^ 32) = nEnd * 512 := by
    rw [Int.bmod_eq_of_le] <;> omega
  have hcast : (nEnd * 512 + g.clusterSize - 1 : Int) = ((nEnd * 512 + g.clusterSize - 1 : Nat) : Int) := by omega
  have hwanted : wantedClusters g offset nEnd ≤ min (sizeToClusters g (nEnd * 512)) g.l2Size := by
    refine min_le_min ?_ (Nat.sub_le _ _)
    rw [hbmod, hcast, ← Int.natCast_ediv]
    exact Nat.mod_le _ _
  exact (Nat.mul_le_mul_right g.clusterSize hwanted).trans_lt h.2

theorem wantedClusters_le (offset nEnd : Nat) : wantedClusters g offset nEnd ≤ g.l2Size - l2Index g offset :=
  min_le_right _ _

theorem l2Index_lt (offset : Nat) : l2Index g offset < g.l2Size := Nat.mod_lt _ (Nat.two_pow_pos _)

end Sizes

section Available

variable {g : Geometry}

theorem runLength_le (p : Nat → Bool) (start n : Nat) : runLength p start n ≤ n := by
  induction n generalizing start with
  | zero => exact le_rfl
  | succ n ih =>
    unfold runLength
    split_ifs
    · exact Nat.succ_le_succ (ih _)
    · exact Nat.zero_le _

theorem countContiguousClusters_le (n : Nat) (table : Nat → Entry) (start : Nat) (mask : Entry) :
    countContiguousClusters g n table start mask ≤ n := by
  unfold countContiguousClusters
  split_ifs
  · exact Nat.zero_le _
  · exact runLength_le _ _ _

theorem countContiguousFreeClusters_le (n : Nat) (table : Nat → Entry) : countContiguousFreeClusters n table ≤ n :=
  runLength_le _ _ _

theorem ite_le_of (c : Prop) [Decidable c] {a b n : Nat} (ha : a ≤ n) (hb : ¬ c → b ≤ n) :
    (if c then a else b) ≤ n := by
  split_ifs with h
  · exact ha
  · exact hb h

theorem availableClusters_le (table : Nat → Entry) (n fuel i : Nat) (hi : i ≤ n) :
    availableClusters g table n fuel i ≤ n := by
  induction fuel generalizing i with
  | zero => exact hi
  | succ fuel ih =>
    have hcount := countContiguousClusters_le (g := g) (n - i) table i 0#64
    unfold availableClusters
    refine ite_le_of _ hi fun _ ↦ ite_le_of _ (by omega) fun _ ↦ ?_
    have hfree := countContiguousFreeClusters_le (n - (i + countContiguousClusters g (n - i) table i 0#64))
      fun k ↦ table (i + countContiguousClusters g (n - i) table i 0#64 + k)
    exact ite_le_of _ (by omega) fun _ ↦ ih _ (by omega)

end Available

section Places

variable (g : Geometry)

/-- The clusters of the guest and of the host that a request has allocated. -/
structure Place where
  offset : Nat
  nbClusters : Nat
  clusterOffset : Nat
deriving DecidableEq

def place (m : L2Meta) : Place := ⟨m.offset, m.nbClusters, m.clusterOffset⟩

def Place.guestClusters (p : Place) : List Nat := List.range' (p.offset / g.clusterSize) p.nbClusters

def Place.hostClusters (p : Place) : List Nat := List.range' (p.clusterOffset / g.clusterSize) p.nbClusters

def Place.Apart (p q : Place) : Prop :=
  p.offset / g.clusterSize + p.nbClusters ≤ q.offset / g.clusterSize ∨
    q.offset / g.clusterSize + q.nbClusters ≤ p.offset / g.clusterSize

/-- What `qcow2_alloc_cluster_link_l2` relies on. -/
structure Place.Linkable (p : Place) : Prop where
  ne_zero : p.nbClusters ≠ 0
  aligned : p.clusterOffset = p.clusterOffset / g.clusterSize * g.clusterSize
  fits : l2Index g p.offset + p.nbClusters ≤ g.l2Size
  small : p.nbClusters * g.clusterSize < 2 ^ 31
  limit : ∀ c ∈ p.hostClusters g, (c + 1) * g.clusterSize ≤ hostLimit

def owned (ps : List Place) (h : Nat) : Nat := (ps.flatMap (Place.hostClusters g)).count h

/-- The requests on the list own what they have allocated, beside the references of the image. -/
structure Accounted (fixed : Nat → Nat) (img : Image) (ps : List Place) : Prop where
  books : Sound g fixed (owned g ps) [] img
  apart : ps.Pairwise (Place.Apart g)
  linkable : ∀ p ∈ ps, p.Linkable g

variable {g} {fixed : Nat → Nat} {img img' : Image} {p q : Place} {ps qs : List Place}

theorem Place.Apart.symm (h : p.Apart g q) : q.Apart g p := Or.symm h

theorem Place.Apart.disjoint (h : p.Apart g q) : (p.guestClusters g).Disjoint (q.guestClusters g) := by
  intro c hp hq
  rw [guestClusters, List.mem_range'_1] at hp hq
  unfold Apart at h
  omega

theorem owned_cons (p : Place) (ps : List Place) : owned g (p :: ps) = addOwn (owned g ps) (p.hostClusters g) := by
  funext h
  rw [owned, List.flatMap_cons, List.count_append, Nat.add_comm]
  rfl

theorem owned_perm (h : ps.Perm qs) : owned g ps = owned g qs := by
  funext c
  exact (h.flatMap_right _).count_eq c

theorem Accounted.perm (h : Accounted g fixed img ps) (hp : ps.Perm qs) : Accounted g fixed img qs :=
  ⟨owned_perm (g := g) hp ▸ h.books, h.apart.perm hp Place.Apart.symm, fun p hq ↦ h.linkable p (hp.mem_iff.mpr hq)⟩

theorem Accounted.tail (h : Accounted g fixed img (p :: ps)) (hs : Sound g fixed (owned g ps) [] img') :
    Accounted g fixed img' ps :=
  ⟨hs, (List.pairwise_cons.mp h.apart).2, fun q hq ↦ h.linkable q (List.mem_cons_of_mem _ hq)⟩

theorem Accounted.drop (h : Accounted g fixed img (p :: ps)) : Accounted g fixed img ps := by
  have hbooks := h.books
  rw [owned_cons] at hbooks
  exact h.tail hbooks.drop_own

/-- A cluster that is owned is counted once, for its owner. -/
theorem Accounted.refcount_eq (h : Accounted g fixed img ps) (hp : p ∈ ps) {c : Nat} (hc : c ∈ p.hostClusters g) :
    img.refcount c = 1 ∧ img.tablesAnd g fixed c + img.refcountClusters.count c = 0 ∧ owned g ps c = 1 := by
  have hone : 0 < owned g ps c := List.count_pos_iff.mpr (List.mem_flatMap.mpr ⟨p, hp, hc⟩)
  have hledger := h.books.ledger c
  have hle := h.books.own_le c (by omega)
  unfold Image.tablesAnd
  omega

end Places

section Shrinking

variable {g : Geometry} {metas : Nat → L2Meta} {offset n n' : Nat} {allocs : List Nat}

/-- A range of the guest does not touch what a request has allocated. -/
def Clear (g : Geometry) (offset n : Nat) (m : L2Meta) : Prop :=
  offset / g.clusterSize + n ≤ m.offset / g.clusterSize ∨
    m.offset / g.clusterSize + m.nbClusters ≤ offset / g.clusterSize

theorem Clear.mono {m : L2Meta} (h : Clear g offset n m) (hle : n' ≤ n) : Clear g offset n' m := by
  unfold Clear at h ⊢
  omega

/-- The offsets need not be aligned for a gap of some clusters between them to be a gap between the clusters. -/
theorem div_add_le {a b n c : Nat} (hc : 0 < c) (h : a + n * c ≤ b) : a / c + n ≤ b / c := by
  rw [← Nat.add_mul_div_right _ _ hc]
  exact Nat.div_le_div_right h

theorem shrink_ok (hn : n * g.clusterSize < 2 ^ 31)
    (hallocs : ∀ m ∈ allocs, (metas m).nbClusters * g.clusterSize < 2 ^ 31)
    (h : shrink g metas offset allocs n = .ok n') : n' ≤ n ∧ ∀ m ∈ allocs, Clear g offset n' (metas m) := by
  have hpos := clusterSize_pos (g := g)
  induction allocs generalizing n with
  | nil =>
    cases h
    exact ⟨le_rfl, by simp⟩
  | cons m ms ih =>
    have hm := hallocs m List.mem_cons_self
    have hms : ∀ m ∈ ms, (metas m).nbClusters * g.clusterSize < 2 ^ 31 :=
      fun m' h' ↦ hallocs m' (List.mem_cons_of_mem _ h')
    rw [shrink, clusterBytes_eq (by omega), oldEndOffset_eq hm] at h
    split_ifs at h with hout hstop
    · obtain ⟨hle, hclear⟩ := ih hn hms h
      have hfirst : Clear g offset n (metas m) :=
        hout.imp (fun hlt ↦ div_add_le hpos hlt.le) fun hlt ↦ div_add_le hpos hlt.le
      exact ⟨hle, List.forall_mem_cons.mpr ⟨hfirst.mono hle, hclear⟩⟩
    · -- the range now ends where the other one starts
      have hgap := Nat.div_mul_le_self ((metas m).offset - offset) g.clusterSize
      have hfewer : ((metas m).offset - offset) / g.clusterSize ≤ n := by
        rw [← Nat.mul_div_cancel n hpos]
        exact Nat.div_le_div_right (by omega)
      obtain ⟨hle, hclear⟩ := ih ((Nat.mul_le_mul_right _ hfewer).trans_lt hn) hms h
      have hfirst : Clear g offset (((metas m).offset - offset) / g.clusterSize) (metas m) :=
        .inl (div_add_le hpos (by omega))
      exact ⟨hle.trans hfewer, List.forall_mem_cons.mpr ⟨hfirst.mono hle, hclear⟩⟩

-- an allocation of 2 GiB ends before it begins
example : shrink ⟨17, by decide, by decide⟩ (fun _ ↦ { offset := 2 ^ 31, nbClusters := 16384 }) (2 ^ 31) [0] 1 =
    .ok 1 := by decide

theorem shrink_error {m : Nat} (h : shrink g metas offset allocs n = .error m) : m ∈ allocs := by
  induction allocs generalizing n with
  | nil => cases h
  | cons m' ms ih =>
    unfold shrink at h
    split_ifs at h
    · exact List.mem_cons_of_mem _ (ih h)
    · exact List.mem_cons_of_mem _ (ih h)
    · cases h
      exact List.mem_cons_self

end Shrinking

section Allocating

variable {g : Geometry} {fixed own : Nat → Nat} {metas : Nat → L2Meta} {allocs : List Nat} {offset n nEnd : Nat}

/-- The outcomes of `qcow2_alloc_cluster_offset`, with the books that go with them. -/
def Allocated (g : Geometry) (fixed own : Nat → Nat) (metas : Nat → L2Meta) (allocs : List Nat) (offset : Nat)
    (img : Image) : Allocation → Prop
  | .existing _ _ => Sound g fixed own [] img
  | .waitFor m => Sound g fixed own [] img ∧ m ∈ allocs
  | .fresh clusterOffset n =>
    Sound g fixed (addOwn own ((Place.mk offset n clusterOffset).hostClusters g)) [] img ∧
      (Place.mk offset n clusterOffset).Linkable g ∧ ∀ m ∈ allocs, Clear g offset n (metas m)

theorem spec_freshClusters (hn : n ≠ 0) (hsmall : n * g.clusterSize < 2 ^ 31)
    (hfits : l2Index g offset + n ≤ g.l2Size) (hclear : ∀ m ∈ allocs, Clear g offset n (metas m)) :
    Spec (Sound g fixed own []) (freshClusters g n) (fun a img ↦ Allocated g fixed own metas allocs offset img a)
      (Sound g fixed own []) := by
  refine spec_of_forall fun img₀ h ↦ ?_
  refine ((spec_allocClusters (fun _ hc ↦ hc.refs_pos) _).at h.kept fun _ hk ↦ hk.sound).bind fun clusterOffset ↦ ?_
  refine spec_pure fun img hpost ↦ ?_
  obtain ⟨start, rfl, hkept, hlimit⟩ := hpost
  rw [clusterBytes_eq (by omega), sizeToClusters_mul] at hkept hlimit
  have hstart : start * g.clusterSize / g.clusterSize = start := Nat.mul_div_cancel _ clusterSize_pos
  refine ⟨?_, ⟨hn, by simp only [hstart], hfits, hsmall, ?_⟩, hclear⟩
  · rw [Place.hostClusters, hstart]
    exact hkept.sound
  · simpa only [Place.hostClusters, hstart] using hlimit

theorem spec_chooseClusters (hsmall : n * g.clusterSize < 2 ^ 31)
    (hallocs : ∀ m ∈ allocs, (metas m).nbClusters * g.clusterSize < 2 ^ 31)
    (hfits : l2Index g offset + n ≤ g.l2Size) :
    Spec (Sound g fixed own []) (chooseClusters g metas allocs offset n)
      (fun a img ↦ Allocated g fixed own metas allocs offset img a) (Sound g fixed own []) := by
  unfold chooseClusters
  cases hshrink : shrink g metas offset allocs n with
  | error m => exact spec_attempt_bind spec_hostIo (spec_pure fun _ h ↦ ⟨h, shrink_error hshrink⟩)
  | ok k =>
    obtain ⟨hle, hclear⟩ := shrink_ok hsmall hallocs hshrink
    refine spec_ite (fun _ ↦ spec_abort) fun hk ↦ spec_freshClusters hk ?_ (by omega) hclear
    exact (Nat.mul_le_mul_right _ hle).trans_lt hsmall

theorem spec_availableClusters (table : Nat → Entry) (hsmall : n * g.clusterSize < 2 ^ 31)
    (hallocs : ∀ m ∈ allocs, (metas m).nbClusters * g.clusterSize < 2 ^ 31)
    (hfits : l2Index g offset + n ≤ g.l2Size) :
    Spec (Sound g fixed own []) (chooseClusters g metas allocs offset (availableClusters g table n n 0))
      (fun a img ↦ Allocated g fixed own metas allocs offset img a) (Sound g fixed own []) := by
  have hle := availableClusters_le (g := g) table n n 0 (Nat.zero_le _)
  exact spec_chooseClusters ((Nat.mul_le_mul_right _ hle).trans_lt hsmall) hallocs (by omega)

theorem spec_allocClusterOffset (hend : Modest g nEnd)
    (hallocs : ∀ m ∈ allocs, (metas m).nbClusters * g.clusterSize < 2 ^ 31) :
    Spec (Sound g fixed own []) (allocClusterOffset g metas allocs offset nEnd)
      (fun a img ↦ Allocated g fixed own metas allocs offset img a) (Sound g fixed own []) := by
  refine ((spec_getClusterTable offset).weaken (fun _ h ↦ h) (fun _ _ h ↦ h.1) fun _ h ↦ h).bind fun table ↦ ?_
  refine spec_getImage_bind fun img h ↦ spec_ite (fun _ ↦ ?_) fun _ ↦ ?_
  · exact (spec_hostIo_at h).bind fun _ ↦ spec_pure fun _ hi ↦ hi ▸ h
  · have hwanted := hend.wantedClusters_lt offset
    have hrest := wantedClusters_le (g := g) offset nEnd
    have hindex := l2Index_lt (g := g) offset
    refine (spec_availableClusters _ ?_ hallocs ?_).at h fun _ hs ↦ hs
    · split_ifs
      · have hsize := clusterSize_le (g := g)
        omega
      · exact hwanted
    · split_ifs <;> omega

end Allocating

end IDeviceEmulator.Qcow2.Writes
