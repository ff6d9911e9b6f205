import IDeviceEmulator.Qcow2.Calls
import IDeviceEmulator.Qcow2.Counts

namespace IDeviceEmulator.Qcow2.Ranges

open Handles (Failure einval eio compressedEntry)
open Hoare Machine

/-- What a cluster allocation comes to: a negative value or the first cluster that it has found. On the way clusters are
taken for refcount blocks and tables, and those of an old table are dropped. -/
structure Outcome where
  result : Except Barrier.Errno Nat
  taken : List Nat := []
  dropped : List Nat := []

/-- The first outcome. Without one the request fails. -/
def firstOutcome (outcomes : List Outcome) : Outcome := outcomes.headD { result := .error eio }

/-- The refcounts of the host clusters, those that hold refcount structures, and the place for compressed data. -/
structure Allocator where
  refcount : Nat → Nat
  metadata : List Nat := []
  freeByteOffset : Int := 0
  outcomes : List Outcome := []

abbrev Io := EStateM Handles.Stop Allocator

def attempt {α : Type} (x : Io α) : Io (Except Failure α) := Leases.attempt Handles.Stop.returns x

def ignore (x : Io Unit) : Io Unit := do
  let _ ← attempt x
  pure ()

section Refcounts

variable (g : Geometry)

def takeCluster (a : Allocator) (c : Nat) : Allocator :=
  if a.refcount c = 0 then { a with refcount := Function.update a.refcount c 1, metadata := c :: a.metadata } else a

def dropCluster (a : Allocator) (c : Nat) : Allocator :=
  if c ∈ a.metadata then
    { a with refcount := Function.update a.refcount c (a.refcount c - 1), metadata := a.metadata.erase c }
  else a

def moveMetadata (o : Outcome) (a : Allocator) : Allocator :=
  o.dropped.foldl dropCluster (o.taken.foldl takeCluster a)

def addTo (up : Bool) (clusters : List Nat) (refcount : Nat → Nat) (c : Nat) : Nat :=
  if c ∈ clusters then if up then refcount c + 1 else refcount c - 1 else refcount c

/-- A refcount would leave the 16 bits. -/
def Refused (up : Bool) (clusters : List Nat) (a : Allocator) : Prop :=
  ∃ c ∈ clusters, a.refcount c = if up then 0xffff else 0

instance (up : Bool) (clusters : List Nat) (a : Allocator) : Decidable (Refused up clusters a) :=
  inferInstanceAs (Decidable (∃ c ∈ clusters, _))

/-- `update_refcount` where the refcount blocks can be read: all of the clusters, or none. -/
def updateRefcount (up : Bool) (clusters : List Nat) : Io Unit := fun a ↦
  if Refused up clusters a then .error (.failed einval) a
  else .ok () { a with refcount := addTo up clusters a.refcount }

def nextOutcome : Io Outcome := fun a ↦ .ok (firstOutcome a.outcomes) { a with outcomes := a.outcomes.tail }

/-- Clusters can only be found where they have no references. -/
def useOutcome (size : Nat) (o : Outcome) : Io Nat := fun a ↦
  match o.result with
  | .error errno => .error (.failed errno) (moveMetadata o a)
  | .ok start =>
    if ∀ c ∈ List.range' start (sizeToClusters g size), a.refcount c = 0 then
      .ok (start * g.clusterSize) (moveMetadata o
        { a with refcount := addTo true (List.range' start (sizeToClusters g size)) a.refcount })
    else .error (.failed eio) a

/-- `qcow2_alloc_clusters`. -/
def allocClusters (size : Nat) : Io Nat := do
  let o ← nextOutcome
  useOutcome g size o

def freeClusters (offset size : Nat) : Io Unit := ignore (updateRefcount false (span g offset size))

def freeAnyClusters (e : Entry) : Io Unit := ignore (updateRefcount false (anyClusters g e))

end Refcounts

section Bytes

variable (g : Geometry)

def setFreeByteOffset (offset : Int) : Io Unit := modify fun a ↦ { a with freeByteOffset := offset }

/-- The start of a cluster for compressed data. When there is none, `free_byte_offset` keeps the negative value. -/
def startBytes : Io Unit := do
  let a ← get
  if a.freeByteOffset = 0 then do
    match ← attempt (allocClusters g g.clusterSize) with
    | .ok offset => setFreeByteOffset offset
    | .error ⟨.failed errno, _⟩ => do
      setFreeByteOffset (-errno)
      throw (.failed errno)
    | .error ⟨e, _⟩ => throw e
  else pure ()

/-- `update_cluster_refcount`, of which the result is not looked at. A negative offset makes `update_refcount` write
without a block. -/
def countBytes (offset : Int) : Io Unit :=
  if offset < 0 then throw .abort
  else ignore (updateRefcount true (span g (offset.toNat / g.clusterSize * g.clusterSize) 1))

def countShared (offset : Int) : Io Unit := if offset % g.clusterSize = 0 then pure () else countBytes g offset

/-- The branch of `qcow2_alloc_bytes` in which there is enough space in the cluster. -/
def placeBytes (size : Nat) (offset : Int) : Io Int := do
  setFreeByteOffset (if (offset + size) % g.clusterSize = 0 then 0 else offset + size)
  countShared g offset
  pure offset

def extendBytes (size : Nat) (start : Int) : Io Int := do
  let offset ← allocClusters g g.clusterSize
  if start - start % g.clusterSize + g.clusterSize = offset then do
    countBytes g start
    setFreeByteOffset (start + size)
    pure start
  else do
    setFreeByteOffset offset
    placeBytes g size offset

def takeBytes (size : Nat) (start : Int) : Io Int :=
  if start % g.clusterSize + size ≤ g.clusterSize then placeBytes g size start else extendBytes g size start

/-- `qcow2_alloc_bytes`. -/
def allocBytes (size : Nat) : Io Int :=
  if size = 0 ∨ g.clusterSize < size then throw .abort
  else do
    startBytes g
    let a ← get
    takeBytes g size a.freeByteOffset

end Bytes

/-- What is allocated: bytes of a compressed cluster, or a cluster. -/
inductive Extent
  | bytes (offset size : Nat)
  | cluster (c : Nat)
deriving DecidableEq

section System

variable (g : Geometry)

def Extent.start : Extent → Nat
  | .bytes offset _ => offset
  | .cluster c => c * g.clusterSize

def Extent.size : Extent → Nat
  | .bytes _ size => size
  | .cluster _ => g.clusterSize

def Extent.clusters (e : Extent) : List Nat := span g (e.start g) (e.size g)

/-- The allocator with what has been allocated and not been freed. -/
structure System where
  allocator : Allocator
  live : List Extent

inductive Op
  | allocBytes (size : Nat) (outcomes : List Outcome)
  | allocClusters (size : Nat) (outcomes : List Outcome)
  /-- `qcow2_free_any_clusters` with the entry of the range. -/
  | freeBytes (offset size : Nat)
  | freeClusters (start size : Nat)

inductive Halt
  | stops (e : Handles.Stop)
  /-- Something is freed that is not allocated. -/
  | notAllocated

/-- A function is called with the outcomes that await it. One that fails leaves the state that it has made. -/
def call {α : Type} (f : Io α) (outcomes : List Outcome) (a : Allocator) : Except Halt (Allocator × Option α) :=
  match f { a with outcomes := outcomes } with
  | .ok r a => .ok (a, some r)
  | .error (.failed _) a => .ok (a, none)
  | .error e _ => .error (.stops e)

/-- The range that `qcow2_alloc_bytes` has returned, if it is no error. -/
def returnedBytes (size : Nat) : Option Int → List Extent
  | none => []
  | some offset => if offset < 0 then [] else [.bytes offset.toNat size]

def returnedClusters (size : Nat) : Option Nat → List Extent
  | none => []
  | some offset => (span g offset size).map .cluster

/-- A step, with the extents that it returns. -/
def step (x : System) : Op → Except Halt (System × List Extent)
  | .allocBytes size outcomes => do
    let (a, r) ← call (allocBytes g size) outcomes x.allocator
    return (⟨a, returnedBytes size r ++ x.live⟩, returnedBytes size r)
  | .allocClusters size outcomes => do
    let (a, r) ← call (allocClusters g size) outcomes x.allocator
    return (⟨a, returnedClusters g size r ++ x.live⟩, returnedClusters g size r)
  | .freeBytes offset size =>
    if .bytes offset size ∈ x.live then do
      let (a, _) ← call (freeAnyClusters g (compressedEntry g offset size)) [] x.allocator
      return (⟨a, x.live.erase (.bytes offset size)⟩, [])
    else .error .notAllocated
  | .freeClusters start size =>
    if ∀ c ∈ span g (start * g.clusterSize) size, .cluster c ∈ x.live then do
      let (a, _) ← call (freeClusters g (start * g.clusterSize) size) [] x.allocator
      return (⟨a, x.live.diff ((span g (start * g.clusterSize) size).map .cluster)⟩, [])
    else .error .notAllocated

/-- Two extents have no byte in common. -/
def Apart (e f : Extent) : Prop := e.start g + e.size g ≤ f.start g ∨ f.start g + f.size g ≤ e.start g

def Extent.count (live : List Extent) (c : Nat) : Nat := (live.flatMap (Extent.clusters g)).count c

/-- Live extents are apart from each other and from the refcount structures, and the refcount of a cluster is the
number of those that lie in it. -/
structure Exact (x : System) : Prop where
  refcount : ∀ c, x.allocator.refcount c = x.allocator.metadata.count c + Extent.count g x.live c
  clear : ∀ c ∈ x.allocator.metadata, Extent.count g x.live c = 0
  apart : x.live.Pairwise (Apart g)

/-- The cluster that `free_byte_offset` points into. -/
def currentCluster (a : Allocator) : Nat := a.freeByteOffset.toNat / g.clusterSize

/-- `free_byte_offset` points into a cluster of which the last reference has been freed. -/
def Stale (a : Allocator) : Prop := 0 < a.freeByteOffset ∧ a.refcount (currentCluster g a) = 0

/-- There is enough space in the current cluster. -/
def Fits (size : Nat) (a : Allocator) : Prop := a.freeByteOffset % g.clusterSize + size ≤ g.clusterSize

/-- No cluster is found, or the one behind the current cluster, so that `free_byte_offset` is kept. -/
def Keeps (outcomes : List Outcome) (a : Allocator) : Prop :=
  ∀ start, (firstOutcome outcomes).result = .ok start → start = currentCluster g a + 1

/-- The new bytes share the cluster that `free_byte_offset` points into. -/
def Shares (size : Nat) (outcomes : List Outcome) (a : Allocator) : Prop :=
  0 < a.freeByteOffset ∧ (Fits g size a ∨ (firstOutcome outcomes).result = .ok (currentCluster g a + 1))

/-- The cluster that `free_byte_offset` points into is not taken for a refcount structure. -/
def Spared (o : Outcome) (a : Allocator) : Prop := Stale g a → currentCluster g a ∉ o.taken

/-- No cluster that `free_byte_offset` still points into is handed out again, a shared cluster has room for one more
reference, and the entry of a range that is freed can hold its offset. -/
def MeetsOp (x : System) : Op → Prop
  | .allocBytes size outcomes =>
    (¬ Fits g size x.allocator → Keeps g outcomes x.allocator → Spared g (firstOutcome outcomes) x.allocator) ∧
      (Shares g size outcomes x.allocator → x.allocator.refcount (currentCluster g x.allocator) < 0xffff)
  | .allocClusters size outcomes =>
    Spared g (firstOutcome outcomes) x.allocator ∧
      ∀ start, (firstOutcome outcomes).result = .ok start → Stale g x.allocator →
        currentCluster g x.allocator ∉ List.range' start (sizeToClusters g size)
  | .freeBytes offset _ => offset < 2 ^ g.csizeShift
  | .freeClusters _ _ => True

section Decidability

variable {g : Geometry}

instance (e f : Extent) : Decidable (Apart g e f) := inferInstanceAs (Decidable (_ ∨ _))

instance (P : Nat → Prop) [DecidablePred P] (r : Except Barrier.Errno Nat) :
    Decidable (∀ start, r = .ok start → P start) :=
  match r with
  | .ok start => decidable_of_iff (P start) ⟨fun h _ hs ↦ Except.ok.inj hs ▸ h, fun h ↦ h start rfl⟩
  | .error _ => isTrue fun _ h ↦ by cases h

instance (a : Allocator) : Decidable (Stale g a) := inferInstanceAs (Decidable (_ ∧ _))

instance (o : Outcome) (a : Allocator) : Decidable (Spared g o a) := inferInstanceAs (Decidable (_ → _))

instance (size : Nat) (a : Allocator) : Decidable (Fits g size a) := inferInstanceAs (Decidable (_ ≤ _))

instance (outcomes : List Outcome) (a : Allocator) : Decidable (Keeps g outcomes a) :=
  inferInstanceAs (Decidable (∀ start, (firstOutcome outcomes).result = .ok start → start = currentCluster g a + 1))

instance (size : Nat) (outcomes : List Outcome) (a : Allocator) : Decidable (Shares g size outcomes a) :=
  inferInstanceAs (Decidable (_ ∧ (_ ∨ _)))

instance (x : System) : (op : Op) → Decidable (MeetsOp g x op)
  | .allocBytes size outcomes =>
    inferInstanceAs (Decidable
      ((¬ Fits g size x.allocator → Keeps g outcomes x.allocator → Spared g (firstOutcome outcomes) x.allocator) ∧
        (Shares g size outcomes x.allocator → x.allocator.refcount (currentCluster g x.allocator) < 0xffff)))
  | .allocClusters size outcomes =>
    inferInstanceAs (Decidable (Spared g (firstOutcome outcomes) x.allocator ∧
      ∀ start, (firstOutcome outcomes).result = .ok start → Stale g x.allocator →
        currentCluster g x.allocator ∉ List.range' start (sizeToClusters g size)))
  | .freeBytes offset _ => inferInstanceAs (Decidable (offset < 2 ^ g.csizeShift))
  | .freeClusters _ _ => inferInstanceAs (Decidable True)

end Decidability

end System

section Extents

variable {g : Geometry} {e : Extent} {live : List Extent} {c : Nat}

theorem nodup_span (offset size : Nat) : (span g offset size).Nodup := by
  unfold span
  split_ifs
  · exact List.nodup_nil
  · exact List.nodup_range'

theorem Extent.count_cons (e : Extent) (live : List Extent) (c : Nat) :
    Extent.count g (e :: live) c = (e.clusters g).count c + Extent.count g live c := by
  rw [Extent.count, List.flatMap_cons, List.count_append, Extent.count]

theorem Extent.count_singleton (e : Extent) (c : Nat) : Extent.count g [e] c = (e.clusters g).count c := by
  rw [Extent.count, List.flatMap_singleton]

theorem Extent.count_append (es live : List Extent) (c : Nat) :
    Extent.count g (es ++ live) c = Extent.count g es c + Extent.count g live c := by
  rw [Extent.count, List.flatMap_append, List.count_append, Extent.count, Extent.count]

theorem Extent.count_perm {live' : List Extent} (h : live.Perm live') (c : Nat) :
    Extent.count g live c = Extent.count g live' c :=
  (h.flatMap_right _).count_eq c

/-- A cluster that no live extent touches lies behind or before each of them. -/
theorem apart_of_count_zero (h : Extent.count g live c = 0) (he : e ∈ live) (hsize : 0 < e.size g) :
    e.start g + e.size g ≤ c * g.clusterSize ∨ (c + 1) * g.clusterSize ≤ e.start g := by
  have hnot : c ∉ e.clusters g := fun hmem ↦
    List.count_eq_zero.mp h (List.mem_flatMap.mpr ⟨e, he, hmem⟩)
  rw [Extent.clusters, Counts.mem_span_iff] at hnot
  omega

theorem clusters_cluster (c : Nat) : (Extent.cluster c).clusters g = [c] := span_cluster c

theorem Extent.count_map_cluster (cs : List Nat) (c : Nat) :
    Extent.count g (cs.map .cluster) c = cs.count c := by
  induction cs with
  | nil => rfl
  | cons d ds ih =>
    rw [List.map_cons, Extent.count_cons, clusters_cluster, ih]
    simp only [List.count_cons, List.count_nil]
    omega

/-- Bytes that lie within one cluster. -/
theorem clusters_bytes_one {offset size : Nat} (hsize : 0 < size) (hlow : c * g.clusterSize ≤ offset)
    (hhigh : offset + size ≤ (c + 1) * g.clusterSize) : (Extent.bytes offset size).clusters g = [c] := by
  have hpos := Writes.clusterSize_pos (g := g)
  have hfirst : offset / g.clusterSize = c := Nat.div_eq_of_lt_le hlow (by omega)
  have hlast : (offset + size - 1) / g.clusterSize = c := Nat.div_eq_of_lt_le (by omega) (by omega)
  change span g offset size = [c]
  rw [span, if_neg (by omega), hfirst, hlast, Nat.add_sub_cancel_left]
  rfl

/-- Bytes that lie in two clusters. -/
theorem clusters_bytes_two {offset size : Nat} (hlow : c * g.clusterSize ≤ offset)
    (hmid : offset < (c + 1) * g.clusterSize) (hmid' : (c + 1) * g.clusterSize < offset + size)
    (hhigh : offset + size ≤ (c + 1 + 1) * g.clusterSize) : (Extent.bytes offset size).clusters g = [c, c + 1] := by
  have hfirst : offset / g.clusterSize = c := Nat.div_eq_of_lt_le hlow hmid
  have hlast : (offset + size - 1) / g.clusterSize = c + 1 := Nat.div_eq_of_lt_le (by omega) (by omega)
  change span g offset size = [c, c + 1]
  rw [span, if_neg (by omega), hfirst, hlast, show c + 1 + 1 - c = 2 by omega]
  rfl

end Extents

section Books

variable {g : Geometry} {live : List Extent} {own : List Nat} {a b : Allocator} {c d : Nat}

/-- What is counted: refcount structures, live extents, and clusters that are about to be used. -/
structure Counted (g : Geometry) (live : List Extent) (own : List Nat) (a : Allocator) : Prop where
  refcount : ∀ c, a.refcount c = a.metadata.count c + Extent.count g live c + own.count c
  clear : ∀ c ∈ a.metadata, Extent.count g live c = 0 ∧ own.count c = 0

/-- The rest of the cluster that `free_byte_offset` points into is not used. -/
def Room (g : Geometry) (live : List Extent) (a : Allocator) : Prop :=
  0 < a.freeByteOffset → a.freeByteOffset % g.clusterSize ≠ 0 ∧ currentCluster g a ∉ a.metadata ∧
    ∀ e ∈ live, e.start g + e.size g ≤ a.freeByteOffset ∨ (currentCluster g a + 1) * g.clusterSize ≤ e.start g

/-- A cluster that refcount structures cannot take stays free of them. -/
structure Moved (taken : List Nat) (a b : Allocator) : Prop where
  place : b.freeByteOffset = a.freeByteOffset
  metadata : ∀ c, a.refcount c ≠ 0 ∨ c ∉ taken → c ∉ a.metadata → c ∉ b.metadata

theorem counted_takeCluster (h : Counted g live own a) (c : Nat) : Counted g live own (takeCluster a c) := by
  unfold takeCluster
  split_ifs with hz
  · refine ⟨fun d ↦ ?_, fun d hd ↦ ?_⟩
    · have hd := h.refcount d
      by_cases hdc : d = c
      · subst hdc
        simp only [Function.update_self, List.count_cons_self]
        omega
      · simp only [Function.update_of_ne hdc, List.count_cons_of_ne (Ne.symm hdc)]
        exact hd
    · rcases List.mem_cons.mp hd with rfl | hd
      · have hd := h.refcount d
        omega
      · exact h.clear d hd
  · exact h

theorem counted_dropCluster (h : Counted g live own a) (c : Nat) : Counted g live own (dropCluster a c) := by
  unfold dropCluster
  split_ifs with hmem
  · refine ⟨fun d ↦ ?_, fun d hd ↦ h.clear d (List.mem_of_mem_erase hd)⟩
    have hd := h.refcount d
    by_cases hdc : d = c
    · subst hdc
      have hpos := List.count_pos_iff.mpr hmem
      simp only [Function.update_self, List.count_erase_self]
      omega
    · simp only [Function.update_of_ne hdc, List.count_erase_of_ne hdc]
      exact hd
  · exact h

theorem counted_moveMetadata (h : Counted g live own a) (o : Outcome) : Counted g live own (moveMetadata o a) :=
  List.foldlRecOn o.dropped dropCluster
    (List.foldlRecOn o.taken takeCluster h fun _ h c _ ↦ counted_takeCluster h c)
    fun _ h c _ ↦ counted_dropCluster h c

theorem moved_takeCluster (a : Allocator) (c : Nat) :
    (takeCluster a c).freeByteOffset = a.freeByteOffset ∧ (a.refcount d ≠ 0 → (takeCluster a c).refcount d ≠ 0) ∧
      (a.refcount d ≠ 0 ∨ d ≠ c → d ∉ a.metadata → d ∉ (takeCluster a c).metadata) := by
  unfold takeCluster
  split_ifs with hz
  · refine ⟨rfl, fun hd ↦ ?_, fun hd hmem ↦ ?_⟩
    · have hdc : d ≠ c := by
        rintro rfl
        exact hd hz
      dsimp only
      rwa [Function.update_of_ne hdc]
    · have hdc : d ≠ c := by
        rintro rfl
        exact hd.elim (fun h ↦ h hz) fun h ↦ h rfl
      exact List.not_mem_cons_of_ne_of_not_mem hdc hmem
  · exact ⟨rfl, fun hd ↦ hd, fun _ hmem ↦ hmem⟩

theorem moved_taken (taken : List Nat) (a : Allocator) : Moved taken a (taken.foldl takeCluster a) := by
  induction taken generalizing a with
  | nil => exact ⟨rfl, fun _ _ h ↦ h⟩
  | cons c cs ih =>
    obtain ⟨hplace, hmeta⟩ := ih (takeCluster a c)
    refine ⟨hplace.trans (moved_takeCluster (d := c) a c).1, fun d hd hmem ↦ ?_⟩
    obtain ⟨-, hkeep, hfree⟩ := moved_takeCluster (d := d) a c
    rw [List.mem_cons, not_or] at hd
    exact hmeta d (hd.imp hkeep fun h ↦ h.2) (hfree (hd.imp id fun h ↦ h.1) hmem)

theorem moved_dropped (dropped : List Nat) (a : Allocator) :
    (dropped.foldl dropCluster a).freeByteOffset = a.freeByteOffset ∧
      ∀ d ∉ a.metadata, d ∉ (dropped.foldl dropCluster a).metadata := by
  refine List.foldlRecOn dropped dropCluster (motive := fun b ↦
    b.freeByteOffset = a.freeByteOffset ∧ ∀ d ∉ a.metadata, d ∉ b.metadata) ⟨rfl, fun _ h ↦ h⟩ fun b h c _ ↦ ?_
  unfold dropCluster
  split_ifs
  · exact ⟨h.1, fun d hd hmem ↦ h.2 d hd (List.mem_of_mem_erase hmem)⟩
  · exact h

theorem moved_moveMetadata (o : Outcome) (a : Allocator) : Moved o.taken a (moveMetadata o a) := by
  obtain ⟨hplace, hmeta⟩ := moved_taken o.taken a
  obtain ⟨hplace', hmeta'⟩ := moved_dropped o.dropped (o.taken.foldl takeCluster a)
  exact ⟨hplace'.trans hplace, fun c hc hmem ↦ hmeta' c (hmeta c hc hmem)⟩

theorem Counted.unused (h : Counted g live own a) (hz : a.refcount c = 0) :
    c ∉ a.metadata ∧ Extent.count g live c = 0 := by
  have hc := h.refcount c
  exact ⟨fun hmem ↦ absurd (List.count_pos_iff.mpr hmem) (by omega), by omega⟩

theorem Counted.not_mem (h : Counted g live own a) (hc : c ∈ own) : c ∉ a.metadata :=
  fun hmem ↦ absurd (List.count_pos_iff.mpr hc) (by rw [(h.clear c hmem).2]; exact lt_irrefl 0)

theorem Counted.congr (h : Counted g live own a) (hr : b.refcount = a.refcount) (hm : b.metadata = a.metadata) :
    Counted g live own b := by
  refine ⟨fun c ↦ ?_, fun c hc ↦ ?_⟩
  · rw [hr, hm]
    exact h.refcount c
  · rw [hm] at hc
    exact h.clear c hc

theorem Room.moved {taken : List Nat} (h : Room g live a) (hmoved : Moved taken a b)
    (hspared : Stale g a → currentCluster g a ∉ taken) : Room g live b := by
  intro hpos
  have hcurrent : currentCluster g b = currentCluster g a := by rw [currentCluster, currentCluster, hmoved.place]
  rw [hmoved.place] at hpos ⊢
  rw [hcurrent]
  obtain ⟨hmod, hmem, hlive⟩ := h hpos
  refine ⟨hmod, hmoved.metadata _ ?_ hmem, hlive⟩
  by_cases hz : a.refcount (currentCluster g a) = 0
  · exact .inr (hspared ⟨hpos, hz⟩)
  · exact .inl hz

theorem addTo_up (clusters : List Nat) (hn : clusters.Nodup) (r : Nat → Nat) (c : Nat) :
    addTo true clusters r c = r c + clusters.count c := by
  unfold addTo
  split_ifs with h hup
  · rw [List.count_eq_one_of_mem hn h]
  · exact absurd rfl hup
  · rw [List.count_eq_zero_of_not_mem h, Nat.add_zero]

theorem addTo_down (clusters : List Nat) (hn : clusters.Nodup) (r : Nat → Nat) (c : Nat) :
    addTo false clusters r c = r c - clusters.count c := by
  unfold addTo
  split_ifs with h hup
  · cases hup
  · rw [List.count_eq_one_of_mem hn h]
  · rw [List.count_eq_zero_of_not_mem h, Nat.sub_zero]

/-- Clusters that have been found belong to nothing yet. -/
structure Found (g : Geometry) (live : List Extent) (own : List Nat) (o : Outcome) (a b : Allocator) : Prop where
  counted : Counted g live own b
  fresh : ∀ c ∈ own, Extent.count g live c = 0
  room : Spared g o a → Room g live b
  place : b.freeByteOffset = a.freeByteOffset

structure NotFound (g : Geometry) (live : List Extent) (o : Outcome) (a b : Allocator) : Prop where
  counted : Counted g live [] b
  room : ((∀ start, o.result ≠ .ok start) → Spared g o a) → Room g live b

theorem spec_useOutcome (size : Nat) (hcounted : Counted g live [] a) (hroom : Room g live a) (o : Outcome) :
    Triple (· = a) (useOutcome g size o)
      (fun offset b ↦ ∃ start, o.result = .ok start ∧ offset = start * g.clusterSize ∧
        Found g live (List.range' start (sizeToClusters g size)) o a b)
      fun _ ↦ NotFound g live o a := by
  intro s hs
  subst hs
  unfold useOutcome
  cases hr : o.result with
  | error errno =>
    have hmoved := moved_moveMetadata o s
    refine ⟨counted_moveMetadata hcounted o, fun hspared ↦ hroom.moved hmoved (hspared fun start h ↦ ?_)⟩
    rw [hr] at h
    cases h
  | ok start =>
    dsimp only
    split_ifs with hz
    · have hfound : Counted g live (List.range' start (sizeToClusters g size))
          { s with refcount := addTo true (List.range' start (sizeToClusters g size)) s.refcount } := by
        refine ⟨fun c ↦ ?_, fun c hc ↦ ⟨(hcounted.clear c hc).1, List.count_eq_zero_of_not_mem fun hrun ↦ ?_⟩⟩
        · have hc := hcounted.refcount c
          rw [List.count_nil, Nat.add_zero] at hc
          dsimp only
          rw [addTo_up _ List.nodup_range', hc]
        · exact (hcounted.unused (hz c hrun)).1 hc
      have hmoved := moved_moveMetadata o
        { s with refcount := addTo true (List.range' start (sizeToClusters g size)) s.refcount }
      refine ⟨start, rfl, rfl, counted_moveMetadata hfound o, fun c hc ↦ (hcounted.unused (hz c hc)).2,
        fun hspared ↦ ?_, hmoved.place⟩
      refine Room.moved (a := { s with refcount := addTo true _ s.refcount }) hroom hmoved fun hstale ↦ hspared ?_
      refine ⟨hstale.1, ?_⟩
      have hzero := hstale.2
      dsimp only at hzero
      rw [addTo_up _ List.nodup_range'] at hzero
      exact Nat.eq_zero_of_add_eq_zero_right hzero
    · exact ⟨hcounted, fun _ ↦ hroom⟩

theorem spec_allocClusters (size : Nat) (hcounted : Counted g live [] a) (hroom : Room g live a) :
    Triple (· = a) (allocClusters g size)
      (fun offset b ↦ ∃ start, (firstOutcome a.outcomes).result = .ok start ∧ offset = start * g.clusterSize ∧
        Found g live (List.range' start (sizeToClusters g size)) (firstOutcome a.outcomes) a b)
      fun _ ↦ NotFound g live (firstOutcome a.outcomes) a := by
  intro s hs
  subst hs
  have hnext : nextOutcome s = .ok (firstOutcome s.outcomes) { s with outcomes := s.outcomes.tail } := rfl
  rw [allocClusters, bind_eq hnext]
  have huse := spec_useOutcome (a := { s with outcomes := s.outcomes.tail }) size (hcounted.congr rfl rfl) hroom
    (firstOutcome s.outcomes)
  refine huse.weaken (fun _ h ↦ h) (fun offset b hb ↦ ?_) (fun _ b hb ↦ ⟨hb.counted, hb.room⟩) _ rfl
  obtain ⟨start, hr, hoffset, hfound⟩ := hb
  exact ⟨start, hr, hoffset, hfound.counted, hfound.fresh, hfound.room, hfound.place⟩

end Books

section Refinement

variable {g : Geometry} {a : Allocator} {s : Counts.Refcounts} {offset size : Nat}

/-- The allocator has the refcounts that the structures of the image contain. -/
def Sees (g : Geometry) (a : Allocator) (s : Counts.Refcounts) : Prop := ∀ c : Nat, a.refcount c = Counts.refcount g s c

/-- The update of the structures is the update of the refcounts, where blocks count the clusters. -/
theorem updateRefcount_refines (addBlock : Int → Counts.Io (Nat × Int)) (up : Bool) (hs : Counts.Described s)
    (hcounted : ∀ c, Counts.Touches g offset size c → Counts.Counted g s c ∧ (c + 1) * g.clusterSize < 2 ^ 63)
    (ha : Sees g a s) (depth : Nat) :
    match Counts.updateRefcount g addBlock (depth + 2) offset size (if up then 1 else -1) s,
      updateRefcount up (span g offset size) a with
    | .ok _ t, .ok _ b => Sees g b t
    | .error e t, .error e' b => e = e' ∧ Sees g b t
    | _, _ => False := by
  have hatomic : Counts.Atomic g (Counts.Touches g offset size) (if up then 1 else -1) s
      (Counts.updateRefcount g addBlock (depth + 2) offset size (if up then 1 else -1) s) :=
    Counts.updateRefcount_atomic hs (Int.natCast_nonneg size) hcounted depth
  rcases hr : Counts.updateRefcount g addBlock (depth + 2) offset size (if up then 1 else -1) s with ⟨_, t⟩ | ⟨e, t⟩
  · rw [hr] at hatomic
    have hfits : ¬ Refused up (span g offset size) a := by
      rintro ⟨c, hc, hmax⟩
      have hchange := (hatomic c).1 ((Counts.touches_iff_mem_span c).mpr hc)
      have hlt := Counts.refcount_lt (g := g) t c
      rw [← ha c, hmax] at hchange
      cases up
      · simp only [Bool.false_eq_true, if_false] at hchange
        omega
      · simp only [if_true] at hchange
        omega
    rw [updateRefcount, if_neg hfits]
    intro c
    obtain ⟨hin, hout⟩ := hatomic c
    rw [Counts.touches_iff_mem_span, ← ha c] at hin hout
    dsimp only [addTo]
    split_ifs with hc hup
    · have hchange := hin hc
      rw [if_pos hup] at hchange
      omega
    · have hchange := hin hc
      rw [if_neg hup] at hchange
      omega
    · exact (hout hc).symm
  · rw [hr] at hatomic
    obtain ⟨rfl, ⟨c, hc, hleaves⟩, hsame⟩ := hatomic
    have hpos : 0 ≤ c := (hcounted c hc).1.1
    obtain ⟨c, rfl⟩ := Int.eq_ofNat_of_zero_le hpos
    have hlt := Counts.refcount_lt (g := g) s c
    have hrefused : Refused up (span g offset size) a := by
      refine ⟨c, (Counts.touches_iff_mem_span c).mp hc, ?_⟩
      rw [ha c]
      cases up
      · simp only [Bool.false_eq_true, if_false] at hleaves ⊢
        omega
      · simp only [if_true] at hleaves ⊢
        omega
    rw [updateRefcount, if_pos hrefused]
    exact ⟨rfl, fun c ↦ (ha c).trans (hsame c).symm⟩

/-- The allocator that has the refcounts of an image with one refcount block. -/
def seenOneBlock : Allocator := { refcount := fun c ↦ Counts.refcount .smallest Counts.oneBlock c }

theorem updateRefcount_refines_oneBlock :
    match Counts.updateRefcount .smallest Counts.noBlock (0 + 2) (700 : Nat) (1000 : Nat) (if true then 1 else -1)
        Counts.oneBlock,
      updateRefcount true (span .smallest 700 1000) seenOneBlock with
    | .ok _ t, .ok _ b => Sees .smallest b t
    | .error e t, .error e' b => e = e' ∧ Sees .smallest b t
    | _, _ => False := by
  have hcounted : ∀ c, Counts.Touches .smallest (700 : Nat) (1000 : Nat) c →
      Counts.Counted .smallest Counts.oneBlock c ∧ (c + 1) * ((Geometry.smallest.clusterSize : Nat) : Int) < 2 ^ 63 := by
    have hsize : ((Geometry.smallest.clusterSize : Nat) : Int) = 512 := rfl
    rintro c ⟨x, hx, hx', rfl⟩
    rw [hsize]
    exact ⟨Counts.counted_oneBlock (by omega) (by omega), by omega⟩
  have hsees : Sees .smallest seenOneBlock Counts.oneBlock := fun _ ↦ rfl
  exact updateRefcount_refines Counts.noBlock true Counts.described_oneBlock hcounted hsees 0

end Refinement

section Placing

variable {g : Geometry} {live : List Extent} {own : List Nat} {a b : Allocator} {c p size : Nat}

/-- New extents join those that are live. -/
structure Handed (g : Geometry) (es live : List Extent) (a : Allocator) : Prop where
  counted : Counted g (es ++ live) [] a
  room : Room g (es ++ live) a
  sized : ∀ e ∈ es, 0 < e.size g ∧ e.size g ≤ g.clusterSize
  pairwise : es.Pairwise (Apart g)
  apart : ∀ e ∈ es, ∀ f ∈ live, Apart g e f

theorem ignore_updateRefcount {up : Bool} {clusters : List Nat} (h : ¬ Refused up clusters a) :
    ignore (updateRefcount up clusters) a = .ok () { a with refcount := addTo up clusters a.refcount } := by
  simp only [ignore, attempt, Leases.attempt, updateRefcount, bind, EStateM.bind, if_neg h, pure, EStateM.pure]

theorem span_one (c : Nat) : span g (c * g.clusterSize) 1 = [c] := by
  have hpos := Writes.clusterSize_pos (g := g)
  exact clusters_bytes_one (by omega) le_rfl (by rw [Nat.add_mul]; omega)

theorem countBytes_eq (h : a.refcount (p / g.clusterSize) ≠ 0xffff) :
    countBytes g p a = .ok () { a with refcount := addTo true [p / g.clusterSize] a.refcount } := by
  rw [countBytes, if_neg (by omega), Int.toNat_natCast, span_one]
  refine ignore_updateRefcount ?_
  rintro ⟨c, hc, hmax⟩
  rw [List.mem_singleton.mp hc] at hmax
  exact h hmax

theorem counted_addTo (h : Counted g live own a) (hmem : c ∉ a.metadata) :
    Counted g live (c :: own) { a with refcount := addTo true [c] a.refcount } := by
  refine ⟨fun d ↦ ?_, fun d hd ↦ ⟨(h.clear d hd).1, ?_⟩⟩
  · have hd := h.refcount d
    dsimp only
    rw [addTo_up _ (List.nodup_singleton c), List.count_cons, hd]
    simp only [List.count_cons, List.count_nil]
    omega
  · have hne : c ≠ d := fun hcd ↦ hmem (by rwa [hcd])
    rw [List.count_cons_of_ne hne, (h.clear d hd).2]

/-- What is about to be used is used by new extents. -/
theorem Counted.hand {es : List Extent} (h : Counted g live own a) (hes : ∀ c, Extent.count g es c = own.count c) :
    Counted g (es ++ live) [] a := by
  refine ⟨fun d ↦ ?_, fun d hd ↦ ⟨?_, rfl⟩⟩
  · have hd := h.refcount d
    rw [Extent.count_append, hes, List.count_nil]
    omega
  · rw [Extent.count_append, hes, (h.clear d hd).1, (h.clear d hd).2]

theorem room_at {q : Nat} (hlow : c * g.clusterSize < q) (hhigh : q < (c + 1) * g.clusterSize) (hmem : c ∉ a.metadata)
    (hlive : ∀ e ∈ live, e.start g + e.size g ≤ q ∨ (c + 1) * g.clusterSize ≤ e.start g) :
    Room g live { a with freeByteOffset := q } := by
  have hdiv : q / g.clusterSize = c := Nat.div_eq_of_lt_le hlow.le hhigh
  have hcurrent : currentCluster g { a with freeByteOffset := q } = c := hdiv
  intro _
  rw [hcurrent]
  refine ⟨fun hzero ↦ ?_, hmem, fun e he ↦ ?_⟩
  · dsimp only at hzero
    rw [← Int.natCast_mod, Int.natCast_eq_zero] at hzero
    have hsplit := Nat.div_add_mod q g.clusterSize
    rw [hdiv, hzero, Nat.mul_comm] at hsplit
    omega
  · have he' := hlive e he
    dsimp only
    omega

theorem room_zero : Room g live { a with freeByteOffset := 0 } := fun h ↦ absurd h (lt_irrefl _)

/-- Where bytes at an offset leave `free_byte_offset`. -/
def behind (g : Geometry) (size : Nat) (offset : Int) (a : Allocator) : Allocator :=
  { a with freeByteOffset := if (offset + size) % g.clusterSize = 0 then 0 else offset + size }

theorem room_behind (hlow : c * g.clusterSize < p + size) (hhigh : p + size ≤ (c + 1) * g.clusterSize)
    (hmem : c ∉ a.metadata)
    (hlive : ∀ e ∈ live, e.start g + e.size g ≤ p + size ∨ (c + 1) * g.clusterSize ≤ e.start g) :
    Room g live (behind g size p a) := by
  unfold behind
  split_ifs with hend
  · exact room_zero
  · have hcast : (p : Int) + size = ((p + size : Nat) : Int) := by omega
    rw [hcast] at hend ⊢
    refine room_at hlow (lt_of_le_of_ne hhigh fun heq ↦ hend ?_) hmem hlive
    rw [heq, ← Int.natCast_mod, Nat.mul_mod_left]
    rfl

theorem placeBytes_eq (size : Nat) (offset : Int) (a : Allocator) :
    placeBytes g size offset a = (countShared g offset >>= fun _ ↦ pure offset) (behind g size offset a) := rfl

/-- Bytes at the start of a cluster that nothing else uses. -/
theorem placeBytes_fresh (hsize : 0 < size) (hle : size ≤ g.clusterSize) (hlive : ∀ e ∈ live, 0 < e.size g)
    (hcounted : Counted g live [c] a) (hzero : Extent.count g live c = 0) :
    ∃ b, placeBytes g size ((c * g.clusterSize : Nat) : Int) a = .ok ((c * g.clusterSize : Nat) : Int) b ∧
      Handed g [.bytes (c * g.clusterSize) size] live b := by
  have hmem := hcounted.not_mem (List.mem_singleton.mpr rfl)
  have hnext : (c + 1) * g.clusterSize = c * g.clusterSize + g.clusterSize := Nat.succ_mul _ _
  have haligned : ((c * g.clusterSize : Nat) : Int) % g.clusterSize = 0 := by
    rw [← Int.natCast_mod, Nat.mul_mod_left]
    rfl
  have hclusters := clusters_bytes_one (g := g) (c := c) hsize le_rfl (by omega)
  have hlow : c * g.clusterSize < c * g.clusterSize + size := by omega
  have hhigh : c * g.clusterSize + size ≤ (c + 1) * g.clusterSize := by omega
  have heq := placeBytes_eq (g := g) size ((c * g.clusterSize : Nat) : Int) a
  rw [countShared, if_pos haligned] at heq
  refine ⟨_, heq, (hcounted.hand fun d ↦ by rw [Extent.count_singleton, hclusters]).congr rfl rfl,
    room_behind hlow hhigh hmem fun e he ↦ ?_, fun e he ↦ List.mem_singleton.mp he ▸ ⟨hsize, hle⟩,
    List.pairwise_singleton _ _, fun e he f hf ↦ ?_⟩
  · rcases List.mem_cons.mp he with rfl | he
    · exact .inl le_rfl
    · have hlive' := apart_of_count_zero hzero he (hlive e he)
      omega
  · have hf' := apart_of_count_zero hzero hf (hlive f hf)
    rw [List.mem_singleton.mp he]
    unfold Apart
    change c * g.clusterSize + size ≤ _ ∨ _ ≤ c * g.clusterSize
    omega

/-- A place in the cluster that `free_byte_offset` points into. -/
theorem Room.current (h : Room g live a) (hp : a.freeByteOffset = p) (hpos : 0 < p) :
    currentCluster g a = p / g.clusterSize ∧ p % g.clusterSize ≠ 0 ∧ p / g.clusterSize ∉ a.metadata ∧
      ∀ e ∈ live, e.start g + e.size g ≤ p ∨ (p / g.clusterSize + 1) * g.clusterSize ≤ e.start g := by
  have hcurrent : currentCluster g a = p / g.clusterSize := by rw [currentCluster, hp, Int.toNat_natCast]
  obtain ⟨hmod, hmem, hlive⟩ := h (by omega)
  rw [hcurrent] at hmem hlive
  rw [hp] at hmod hlive
  refine ⟨hcurrent, fun hz ↦ hmod ?_, hmem, fun e he ↦ ?_⟩
  · rw [← Int.natCast_mod, hz]
    rfl
  · have he' := hlive e he
    omega

/-- Bytes behind others in the same cluster. -/
theorem placeBytes_shared (hsize : 0 < size) (hp : a.freeByteOffset = p) (hpos : 0 < p)
    (hfits : p % g.clusterSize + size ≤ g.clusterSize) (hcounted : Counted g live [] a) (hroom : Room g live a)
    (hmax : a.refcount (p / g.clusterSize) ≠ 0xffff) :
    ∃ b, placeBytes g size p a = .ok (p : Int) b ∧ Handed g [.bytes p size] live b := by
  obtain ⟨-, hmod, hmem, hlive⟩ := hroom.current hp hpos
  have hsplit := Nat.div_add_mod p g.clusterSize
  have hnext : (p / g.clusterSize + 1) * g.clusterSize = g.clusterSize * (p / g.clusterSize) + g.clusterSize := by
    rw [Nat.succ_mul, Nat.mul_comm]
  have hbase : p / g.clusterSize * g.clusterSize = g.clusterSize * (p / g.clusterSize) := Nat.mul_comm _ _
  have hclusters := clusters_bytes_one (g := g) (c := p / g.clusterSize) hsize (by omega : _ ≤ p) (by omega)
  have hshared : (p : Int) % g.clusterSize ≠ 0 := by
    rw [← Int.natCast_mod]
    omega
  have hle : size ≤ g.clusterSize := by omega
  have hlow : p / g.clusterSize * g.clusterSize < p + size := by omega
  have hhigh : p + size ≤ (p / g.clusterSize + 1) * g.clusterSize := by omega
  have heq := placeBytes_eq (g := g) size p a
  rw [countShared, if_neg hshared, bind_eq (countBytes_eq (a := behind g size p a) hmax)] at heq
  refine ⟨_, heq, ((counted_addTo hcounted hmem).hand fun d ↦ by rw [Extent.count_singleton, hclusters]).congr rfl rfl,
    room_behind hlow hhigh hmem fun e he ↦ ?_, fun e he ↦ List.mem_singleton.mp he ▸ ⟨hsize, hle⟩,
    List.pairwise_singleton _ _, fun e he f hf ↦ ?_⟩
  · rcases List.mem_cons.mp he with rfl | he
    · exact .inl le_rfl
    · have hlive' := hlive e he
      omega
  · have hf' := hlive f hf
    rw [List.mem_singleton.mp he]
    unfold Apart
    change p + size ≤ _ ∨ _ ≤ p
    omega

/-- A failed allocation can leave a negative `free_byte_offset`. -/
theorem room_of_nonpos (h : a.freeByteOffset ≤ 0) : Room g live a := fun hpos ↦ absurd hpos (not_lt.mpr h)

theorem handed_nil (hcounted : Counted g live [] a) (hroom : Room g live a) : Handed g [] live a :=
  ⟨hcounted, hroom, fun _ he ↦ (List.not_mem_nil he).elim, .nil, fun _ he ↦ (List.not_mem_nil he).elim⟩

/-- A function that fails has handed out nothing. -/
def Left (g : Geometry) (live : List Extent) (e : Handles.Stop) (a : Allocator) : Prop :=
  e.returns = true → Handed g [] live a

theorem nonpos_of_fits {offset : Int} (hneg : offset < 0) (hfits : offset % g.clusterSize + size ≤ g.clusterSize) :
    offset + size ≤ 0 := by
  have hpos := Writes.clusterSize_pos (g := g)
  have hsplit := Int.mul_ediv_add_emod offset g.clusterSize
  have hdiv : offset / g.clusterSize ≤ -1 := by
    have hlt : offset / g.clusterSize < 0 := Int.ediv_neg_of_neg_of_pos hneg (by omega)
    omega
  have hmul : (g.clusterSize : Int) * (offset / g.clusterSize) ≤ g.clusterSize * -1 :=
    Int.mul_le_mul_of_nonneg_left hdiv (by omega)
  omega

/-- There is nothing to place at a negative offset: the function returns it, or does not go on. -/
theorem spec_placeBytes_neg {offset : Int} (hneg : offset < 0)
    (hfits : offset % g.clusterSize + size ≤ g.clusterSize) (hcounted : Counted g live [] a) :
    Triple (· = a) (placeBytes g size offset) (fun r b ↦ Handed g (returnedBytes size (some r)) live b)
      (Left g live) := by
  intro s hs
  subst hs
  have hend := nonpos_of_fits hneg hfits
  rw [placeBytes_eq, countShared]
  split_ifs with haligned
  · change Handed g (returnedBytes size (some offset)) live (behind g size offset s)
    rw [returnedBytes, if_pos hneg]
    refine handed_nil (hcounted.congr rfl rfl) (room_of_nonpos ?_)
    unfold behind
    dsimp only
    split_ifs
    · exact le_rfl
    · exact hend
  · rw [countBytes, if_pos hneg]
    exact fun he ↦ by cases he

theorem returnedBytes_nat (p : Nat) : returnedBytes size (some (p : Int)) = [.bytes p size] := by
  rw [returnedBytes, if_neg (by omega), Int.toNat_natCast]

theorem spec_placeBytes_fresh (hsize : 0 < size) (hle : size ≤ g.clusterSize) (hlive : ∀ e ∈ live, 0 < e.size g)
    (hcounted : Counted g live [c] a) (hzero : Extent.count g live c = 0) :
    Triple (· = a) (placeBytes g size ((c * g.clusterSize : Nat) : Int))
      (fun r b ↦ Handed g (returnedBytes size (some r)) live b) (Left g live) := by
  intro s hs
  subst hs
  obtain ⟨b, hb, hhanded⟩ := placeBytes_fresh hsize hle hlive hcounted hzero
  rw [hb]
  change Handed g (returnedBytes size (some ((c * g.clusterSize : Nat) : Int))) live b
  rwa [returnedBytes_nat]

theorem spec_placeBytes_shared (hsize : 0 < size) (hp : a.freeByteOffset = p) (hpos : 0 < p)
    (hfits : p % g.clusterSize + size ≤ g.clusterSize) (hcounted : Counted g live [] a) (hroom : Room g live a)
    (hmax : a.refcount (p / g.clusterSize) ≠ 0xffff) :
    Triple (· = a) (placeBytes g size p) (fun r b ↦ Handed g (returnedBytes size (some r)) live b) (Left g live) := by
  intro s hs
  subst hs
  obtain ⟨b, hb, hhanded⟩ := placeBytes_shared hsize hp hpos hfits hcounted hroom hmax
  rw [hb]
  change Handed g (returnedBytes size (some (p : Int))) live b
  rwa [returnedBytes_nat]

/-- Bytes that begin in the current cluster and end in the next one. -/
theorem spanning_handed (hsize : 0 < size) (hle : size ≤ g.clusterSize) (hlive : ∀ e ∈ live, 0 < e.size g)
    (hp : a.freeByteOffset = p) (hpos : 0 < p) (hend : g.clusterSize < p % g.clusterSize + size)
    (hcounted : Counted g live [p / g.clusterSize + 1] a) (hzero : Extent.count g live (p / g.clusterSize + 1) = 0)
    (hroom : Room g live a) :
    Handed g [.bytes p size] live
      { a with refcount := addTo true [p / g.clusterSize] a.refcount, freeByteOffset := (p : Int) + size } := by
  have hcluster := Writes.clusterSize_pos (g := g)
  obtain ⟨-, hmod, hmem₀, hroom⟩ := hroom.current hp hpos
  have hmem := hcounted.not_mem (List.mem_singleton.mpr rfl)
  have hsplit := Nat.div_add_mod p g.clusterSize
  have hlt := Nat.mod_lt p hcluster
  generalize p / g.clusterSize = c at *
  have hbase : g.clusterSize * c = c * g.clusterSize := Nat.mul_comm _ _
  have hnext : (c + 1) * g.clusterSize = c * g.clusterSize + g.clusterSize := Nat.succ_mul _ _
  have hnext' : (c + 1 + 1) * g.clusterSize = (c + 1) * g.clusterSize + g.clusterSize := Nat.succ_mul _ _
  have hclusters : (Extent.bytes p size).clusters g = [c, c + 1] :=
    clusters_bytes_two (by omega) (by omega) (by omega) (by omega)
  have hbehind : ∀ e ∈ live, e.start g + e.size g ≤ p ∨ (c + 1 + 1) * g.clusterSize ≤ e.start g := by
    intro e he
    have hcurrent := hroom e he
    have hbeyond := apart_of_count_zero hzero he (hlive e he)
    have hpos := hlive e he
    omega
  have hlow : (c + 1) * g.clusterSize < p + size := by omega
  have hhigh : p + size < (c + 1 + 1) * g.clusterSize := by omega
  refine ⟨((counted_addTo hcounted hmem₀).hand fun d ↦ by rw [Extent.count_singleton, hclusters]).congr rfl rfl, ?_,
    fun e he ↦ List.mem_singleton.mp he ▸ ⟨hsize, hle⟩, List.pairwise_singleton _ _, fun e he f hf ↦ ?_⟩
  · rw [← Int.natCast_add]
    refine room_at (a := { a with refcount := addTo true [c] a.refcount }) hlow hhigh hmem fun e he ↦ ?_
    rcases List.mem_cons.mp he with rfl | he
    · exact .inl le_rfl
    · have hbehind' := hbehind e he
      omega
  · have hbehind' := hbehind f hf
    rw [List.mem_singleton.mp he]
    unfold Apart
    change p + size ≤ _ ∨ _ ≤ p
    omega

end Placing

section Requests

variable {g : Geometry} {live : List Extent} {a b : Allocator} {size : Nat}

theorem refcount_current (hcounted : Counted g live [] a) {own : List Nat} (hcounted' : Counted g live own b) {c : Nat}
    (hmem : c ∉ b.metadata) (hown : c ∉ own) : b.refcount c ≤ a.refcount c := by
  have hc := hcounted.refcount c
  have hc' := hcounted'.refcount c
  rw [List.count_eq_zero_of_not_mem hmem, List.count_eq_zero_of_not_mem hown] at hc'
  omega

theorem next_cluster_iff {p start : Nat} :
    (p : Int) - p % g.clusterSize + g.clusterSize = ((start * g.clusterSize : Nat) : Int) ↔
      start = p / g.clusterSize + 1 := by
  have hpos := Writes.clusterSize_pos (g := g)
  have hsplit := Nat.div_add_mod p g.clusterSize
  have hnext : (p / g.clusterSize + 1) * g.clusterSize = g.clusterSize * (p / g.clusterSize) + g.clusterSize := by
    rw [Nat.succ_mul, Nat.mul_comm]
  have hbase : p - p % g.clusterSize + g.clusterSize = (p / g.clusterSize + 1) * g.clusterSize := by omega
  have hmod := Nat.mod_le p g.clusterSize
  constructor
  · intro h
    refine Nat.eq_of_mul_eq_mul_right hpos (Eq.trans ?_ hbase)
    omega
  · intro h
    rw [h, ← hbase]
    omega

theorem spec_extendBytes (hsize : 0 < size) (hle : size ≤ g.clusterSize) (hlive : ∀ e ∈ live, 0 < e.size g)
    (hcounted : Counted g live [] a) (hroom : Room g live a) (hfits : ¬ Fits g size a)
    (hspared : Keeps g a.outcomes a → Spared g (firstOutcome a.outcomes) a)
    (hshared : Shares g size a.outcomes a → a.refcount (currentCluster g a) < 0xffff) :
    Triple (· = a) (extendBytes g size a.freeByteOffset) (fun r b ↦ Handed g (returnedBytes size (some r)) live b)
      (Left g live) := by
  have hfound : Triple (· = a) (allocClusters g g.clusterSize) _ (Left g live) :=
    (spec_allocClusters g.clusterSize hcounted hroom).weaken (fun _ h ↦ h) (fun _ _ h ↦ h) fun e b hb _ ↦
      handed_nil hb.counted (hb.room fun hnone ↦ hspared fun start h ↦ (hnone start h).elim)
  refine hfound.bind fun offset ↦ triple_of_forall fun b ⟨start, hr, hoffset, hb⟩ ↦ ?_
  rw [sizeToClusters_clusterSize, List.range'_one] at hb
  subst hoffset
  refine triple_ite (fun hlucky ↦ ?_) fun _ ↦ ?_
  · rcases lt_trichotomy a.freeByteOffset 0 with hneg | hzero | hpos
    · rw [countBytes, if_pos hneg]
      exact fun _ _ he ↦ by cases he
    · refine absurd ?_ hfits
      rw [Fits, hzero, Int.zero_emod, Int.zero_add]
      exact Int.ofNat_le.mpr hle
    · obtain ⟨p, hp⟩ := Int.eq_ofNat_of_zero_le hpos.le
      have hp' : 0 < p := by omega
      obtain ⟨hcurrent, -⟩ := hroom.current hp hp'
      rw [Fits, hp, ← Int.natCast_mod] at hfits
      rw [hp] at hlucky ⊢
      have hstart := next_cluster_iff.mp hlucky
      rw [hstart] at hr hb
      have hkeeps : Keeps g a.outcomes a := fun start h ↦ by
        rw [hr] at h
        rw [hcurrent]
        exact (Except.ok.inj h).symm
      have hroom' := hb.room (hspared hkeeps)
      have hplace : b.freeByteOffset = p := hb.place.trans hp
      obtain ⟨-, -, hmem', -⟩ := hroom'.current hplace hp'
      have hcount := refcount_current hcounted hb.counted hmem' (by simp)
      have hmax := hshared ⟨by omega, .inr (by rw [hr, hcurrent])⟩
      rw [hcurrent] at hmax
      have hzero := hb.fresh _ (List.mem_singleton.mpr rfl)
      have hhanded := spanning_handed hsize hle hlive hplace hp' (by omega) hb.counted hzero hroom'
      intro s hs
      subst hs
      rw [bind_eq (countBytes_eq (by omega))]
      change Handed g (returnedBytes size (some (p : Int))) live _
      rwa [returnedBytes_nat]
  · refine Triple.bind (R := fun _ s ↦ s = { b with freeByteOffset := ((start * g.clusterSize : Nat) : Int) })
      (fun s hs ↦ by rw [hs]; rfl) fun _ ↦ ?_
    exact spec_placeBytes_fresh hsize hle hlive (hb.counted.congr rfl rfl)
      (hb.fresh _ (List.mem_singleton.mpr rfl))

theorem spec_takeBytes (hsize : 0 < size) (hle : size ≤ g.clusterSize) (hlive : ∀ e ∈ live, 0 < e.size g)
    (hcounted : Counted g live [] a) (hroom : Room g live a) (hplace : a.freeByteOffset ≠ 0)
    (hspared : ¬ Fits g size a → Keeps g a.outcomes a → Spared g (firstOutcome a.outcomes) a)
    (hshared : Shares g size a.outcomes a → a.refcount (currentCluster g a) < 0xffff) :
    Triple (· = a) (takeBytes g size a.freeByteOffset) (fun r b ↦ Handed g (returnedBytes size (some r)) live b)
      (Left g live) := by
  refine triple_ite (fun hfits ↦ ?_) fun hfits ↦
    spec_extendBytes hsize hle hlive hcounted hroom hfits (hspared hfits) hshared
  rcases lt_or_gt_of_ne hplace with hneg | hpos
  · exact spec_placeBytes_neg hneg hfits hcounted
  · obtain ⟨p, hp⟩ := Int.eq_ofNat_of_zero_le hpos.le
    have hmax := hshared ⟨hpos, .inl hfits⟩
    rw [hp] at hfits ⊢
    have hp' : 0 < p := by omega
    rw [(hroom.current hp hp').1] at hmax
    rw [← Int.natCast_mod] at hfits
    exact spec_placeBytes_shared hsize hp hp' (by omega) hcounted hroom hmax.ne

/-- A cluster that has just been found is a place with enough space. -/
theorem spec_takeBytes_fresh {c : Nat} (hsize : 0 < size) (hle : size ≤ g.clusterSize)
    (hlive : ∀ e ∈ live, 0 < e.size g) (hcounted : Counted g live [c] a) (hzero : Extent.count g live c = 0) :
    Triple (· = a) (takeBytes g size ((c * g.clusterSize : Nat) : Int))
      (fun r b ↦ Handed g (returnedBytes size (some r)) live b) (Left g live) := by
  have hfits : ((c * g.clusterSize : Nat) : Int) % g.clusterSize + size ≤ g.clusterSize := by
    rw [← Int.natCast_mod, Nat.mul_mod_left]
    omega
  rw [takeBytes, if_pos hfits]
  exact spec_placeBytes_fresh hsize hle hlive hcounted hzero

theorem spec_startBytes_zero (hcounted : Counted g live [] a) (hroom : Room g live a) (hplace : a.freeByteOffset = 0) :
    Triple (· = a) (startBytes g)
      (fun _ b ↦ ∃ c : Nat, b.freeByteOffset = ((c * g.clusterSize : Nat) : Int) ∧ Counted g live [c] b ∧
        Extent.count g live c = 0) (Left g live) := by
  intro s hs
  subst hs
  have hfound : Triple (· = s) (attempt (allocClusters g g.clusterSize)) _ (Left g live) :=
    (Leases.triple_attempt (spec_allocClusters g.clusterSize hcounted hroom)).weaken (fun _ h ↦ h) (fun _ _ h ↦ h)
      fun _ _ h he ↦ by
        rw [h.1] at he
        cases he
  unfold startBytes
  rw [get_bind, if_pos hplace]
  refine hfound.bind (fun r ↦ ?_) s rfl
  cases r with
  | ok offset =>
    intro b hb
    obtain ⟨start, -, rfl, hfresh⟩ := hb.1 offset rfl
    rw [sizeToClusters_clusterSize, List.range'_one] at hfresh
    exact ⟨start, rfl, hfresh.counted.congr rfl rfl, hfresh.fresh _ (List.mem_singleton.mpr rfl)⟩
  | error e =>
    obtain ⟨e, he⟩ := e
    intro b hb
    cases e with
    | failed errno =>
      have hcounted' := (hb.2 _ rfl).counted
      exact fun _ ↦ handed_nil (hcounted'.congr rfl rfl) (room_of_nonpos (neg_nonpos.mpr (Int.natCast_nonneg errno)))
    | fault f => cases he
    | abort => cases he
    | unfinished => cases he

theorem spec_allocBytes (hlive : ∀ e ∈ live, 0 < e.size g) (hcounted : Counted g live [] a) (hroom : Room g live a)
    (hspared : ¬ Fits g size a → Keeps g a.outcomes a → Spared g (firstOutcome a.outcomes) a)
    (hshared : Shares g size a.outcomes a → a.refcount (currentCluster g a) < 0xffff) :
    Triple (· = a) (allocBytes g size) (fun r b ↦ Handed g (returnedBytes size (some r)) live b) (Left g live) := by
  refine triple_ite (fun _ ↦ triple_throw fun _ _ he ↦ by cases he) fun hsize ↦ ?_
  rw [not_or, not_lt] at hsize
  have hpos : 0 < size := Nat.pos_of_ne_zero hsize.1
  by_cases hzero : a.freeByteOffset = 0
  · refine (spec_startBytes_zero hcounted hroom hzero).bind fun _ ↦
      triple_of_forall fun b ⟨c, hb, hcounted, hfresh⟩ s hs ↦ ?_
    subst hs
    rw [get_bind, hb]
    exact spec_takeBytes_fresh hpos hsize.2 hlive hcounted hfresh s rfl
  · intro s hs
    subst hs
    have hstart : startBytes g s = .ok () s := by
      unfold startBytes
      rw [get_bind, if_neg hzero]
      rfl
    rw [bind_eq hstart, get_bind]
    exact spec_takeBytes hpos hsize.2 hlive hcounted hroom hzero hspared hshared s rfl

theorem pairwise_clusters (start n : Nat) : ((List.range' start n).map Extent.cluster).Pairwise (Apart g) := by
  have hlt : (List.range' start n).Pairwise (· < ·) := List.pairwise_lt_range'
  refine List.pairwise_map.mpr (hlt.imp fun {c d} h ↦ .inl ?_)
  change c * g.clusterSize + g.clusterSize ≤ d * g.clusterSize
  rw [← Nat.succ_mul]
  exact Nat.mul_le_mul_right _ h

/-- Clusters that have been found are handed out, unless the current one is among them. -/
theorem Found.handed {o : Outcome} {start : Nat} (hlive : ∀ e ∈ live, 0 < e.size g)
    (hcounted : Counted g live [] a) (hroom : Room g live a) (hspared : Spared g o a)
    (hrun : Stale g a → currentCluster g a ∉ List.range' start (sizeToClusters g size))
    (hb : Found g live (List.range' start (sizeToClusters g size)) o a b) :
    Handed g (returnedClusters g size (some (start * g.clusterSize))) live b := by
  rw [returnedClusters, span_aligned]
  generalize hn : List.range' start (sizeToClusters g size) = run at *
  refine ⟨hb.counted.hand fun c ↦ Extent.count_map_cluster run c, fun hpos ↦ ?_,
    fun e he ↦ ?_, hn ▸ pairwise_clusters start _, fun e he f hf ↦ ?_⟩
  · obtain ⟨hmod, hmem, hbehind⟩ := hb.room hspared hpos
    have hpos' : 0 < a.freeByteOffset := by rwa [hb.place] at hpos
    have hcurrent : currentCluster g b = currentCluster g a := by rw [currentCluster, currentCluster, hb.place]
    have hnot : currentCluster g a ∉ run := fun hin ↦ by
      refine hrun ⟨hpos', ?_⟩ hin
      have hzero := hb.fresh _ hin
      have hcount := hcounted.refcount (currentCluster g a)
      rw [hzero, List.count_eq_zero_of_not_mem (hroom hpos').2.1] at hcount
      exact hcount
    refine ⟨hmod, hmem, fun e he ↦ ?_⟩
    rcases List.mem_append.mp he with he | he
    · obtain ⟨c, hc, rfl⟩ := List.mem_map.mp he
      rcases Nat.lt_trichotomy c (currentCluster g b) with hlt | heq | hgt
      · refine .inl ?_
        change ((c * g.clusterSize + g.clusterSize : Nat) : Int) ≤ _
        have hle : (c + 1) * g.clusterSize ≤ currentCluster g b * g.clusterSize := Nat.mul_le_mul_right _ hlt
        have hdiv : currentCluster g b * g.clusterSize ≤ b.freeByteOffset.toNat := Nat.div_mul_le_self _ _
        rw [Nat.succ_mul] at hle
        omega
      · exact absurd hc (by rwa [heq, hcurrent])
      · exact .inr (Nat.mul_le_mul_right _ hgt)
    · exact hbehind e he
  · obtain ⟨c, -, rfl⟩ := List.mem_map.mp he
    exact ⟨Writes.clusterSize_pos, le_rfl⟩
  · obtain ⟨c, hc, rfl⟩ := List.mem_map.mp he
    have hf' := apart_of_count_zero (hb.fresh c hc) hf (hlive f hf)
    have hnext : (c + 1) * g.clusterSize = c * g.clusterSize + g.clusterSize := Nat.succ_mul _ _
    unfold Apart
    change c * g.clusterSize + g.clusterSize ≤ _ ∨ _ ≤ c * g.clusterSize
    omega

theorem spec_allocClusters_handed (hlive : ∀ e ∈ live, 0 < e.size g) (hcounted : Counted g live [] a)
    (hroom : Room g live a) (hspared : Spared g (firstOutcome a.outcomes) a)
    (hrun : ∀ start, (firstOutcome a.outcomes).result = .ok start → Stale g a →
      currentCluster g a ∉ List.range' start (sizeToClusters g size)) :
    Triple (· = a) (allocClusters g size) (fun offset b ↦ Handed g (returnedClusters g size (some offset)) live b)
      (Left g live) := by
  refine (spec_allocClusters size hcounted hroom).weaken (fun _ h ↦ h) (fun offset b hb ↦ ?_) fun _ b hb _ ↦
    handed_nil hb.counted (hb.room fun _ ↦ hspared)
  obtain ⟨start, hr, rfl, hb⟩ := hb
  exact hb.handed hlive hcounted hroom hspared (hrun start hr)

end Requests

section Frees

variable {g : Geometry} {live rest es : List Extent} {clusters : List Nat} {a : Allocator} {offset size : Nat}

/-- The three fields of the entry do not overlap. -/
theorem compressedEntry_toNat (hoffset : offset < 2 ^ g.csizeShift)
    (hsectors : (offset + size - 1) / 512 - offset / 512 < 2 ^ (g.clusterBits - 8)) :
    (compressedEntry g offset size).toNat =
      2 ^ g.csizeShift * (2 ^ (g.clusterBits - 8) + ((offset + size - 1) / 512 - offset / 512)) + offset := by
  have hlower := g.lower
  have hupper := g.upper
  have hsum : g.csizeShift + (g.clusterBits - 8) = 62 := by
    unfold Geometry.csizeShift
    omega
  unfold compressedEntry
  generalize (offset + size - 1) / 512 - offset / 512 = k at *
  have hlow : 2 ^ g.csizeShift * k + offset < 2 ^ 62 := by
    have hk : 2 ^ g.csizeShift * (k + 1) ≤ 2 ^ g.csizeShift * 2 ^ (g.clusterBits - 8) := Nat.mul_le_mul_left _ hsectors
    rw [← pow_add, hsum, Nat.mul_succ] at hk
    omega
  have hk : k * 2 ^ g.csizeShift < 2 ^ 64 := by
    rw [Nat.mul_comm]
    omega
  have hk' : k ≤ k * 2 ^ g.csizeShift := Nat.le_mul_of_pos_right k (Nat.two_pow_pos _)
  rw [BitVec.toNat_or, BitVec.toNat_or, BitVec.toNat_shiftLeft, BitVec.toNat_ofNat, BitVec.toNat_ofNat,
    Nat.mod_eq_of_lt (a := k) (by omega), Nat.shiftLeft_eq, Nat.mod_eq_of_lt hk,
    Nat.mod_eq_of_lt (a := offset) (by omega), Nat.or_comm offset, Nat.or_assoc, Nat.or_comm offset, Nat.mul_comm k,
    ← Nat.two_pow_add_eq_or_of_lt hoffset]
  change 2 ^ 62 * 1 ||| _ = _
  rw [← Nat.two_pow_add_eq_or_of_lt hlow, Nat.mul_add, ← pow_add, hsum]
  omega

theorem clusterSize_sectors (g : Geometry) : g.clusterSize = 512 * g.clusterSectors := by
  have hlower := g.lower
  rw [Geometry.clusterSize, Geometry.clusterSectors, show 512 = 2 ^ 9 from rfl, ← pow_add]
  congr 1
  omega

/-- The sectors of a range lie in the clusters of the range. -/
theorem anyClusters_compressedEntry (hsize : 0 < size) (hle : size ≤ g.clusterSize)
    (hoffset : offset < 2 ^ g.csizeShift) :
    anyClusters g (compressedEntry g offset size) = (Extent.bytes offset size).clusters g := by
  have hlower := g.lower
  have hcs := clusterSize_sectors g
  have hmask : 2 ^ (g.clusterBits - 8) = 2 * g.clusterSectors := by
    rw [Geometry.clusterSectors, Nat.mul_comm, ← pow_succ]
    congr 1
    omega
  have hcompressed : isCompressed (compressedEntry g offset size) := by
    rw [isCompressed_iff, compressedEntry, BitVec.getLsbD_or, BitVec.getLsbD_or]
    simp only [show oflagCompressed.getLsbD 62 = true by decide, Bool.or_true, Bool.true_or]
  have hsectors : (offset + size - 1) / 512 - offset / 512 < 2 ^ (g.clusterBits - 8) := by
    have hpos := Writes.clusterSize_pos (g := g)
    omega
  have hentry := compressedEntry_toNat hoffset hsectors
  have hfield : (compressedEntry g offset size).toNat % 2 ^ g.csizeShift = offset := by
    rw [hentry, Nat.mul_add_mod, Nat.mod_eq_of_lt hoffset]
  have hcount : (compressedEntry g offset size).toNat / 2 ^ g.csizeShift % 2 ^ (g.clusterBits - 8) =
      (offset + size - 1) / 512 - offset / 512 := by
    rw [hentry, Nat.mul_add_div (Nat.two_pow_pos _), Nat.div_eq_of_lt hoffset, Nat.add_zero, Nat.add_mod_left,
      Nat.mod_eq_of_lt hsectors]
  rw [anyClusters, if_pos hcompressed, hfield, hcount]
  have hfirst : offset / 512 * 512 / g.clusterSize = offset / g.clusterSize := by
    rw [hcs, ← Nat.div_div_eq_div_mul, ← Nat.div_div_eq_div_mul, Nat.mul_div_cancel _ (by decide)]
  have hend : offset / 512 * 512 + ((offset + size - 1) / 512 - offset / 512 + 1) * 512 - 1 =
      (offset + size - 1) / 512 * 512 + 511 := by omega
  have hlast : ((offset + size - 1) / 512 * 512 + 511) / g.clusterSize = (offset + size - 1) / g.clusterSize := by
    rw [hcs, ← Nat.div_div_eq_div_mul, ← Nat.div_div_eq_div_mul, Nat.mul_comm, Nat.mul_add_div (by decide),
      Nat.add_zero]
  change _ = span g offset size
  rw [span, span, if_neg (by omega), if_neg (by omega), hfirst, hend, hlast]

/-- Extents that are freed are no longer counted. -/
theorem Counted.free (h : Counted g live [] a) (hperm : live.Perm (es ++ rest)) (hn : clusters.Nodup)
    (hes : ∀ c, Extent.count g es c = clusters.count c) :
    ¬ Refused false clusters a ∧ Counted g rest [] { a with refcount := addTo false clusters a.refcount } := by
  have hsplit (c : Nat) : Extent.count g live c = clusters.count c + Extent.count g rest c := by
    rw [Extent.count_perm hperm, Extent.count_append, hes]
  refine ⟨?_, fun c ↦ ?_, fun c hc ↦ ⟨?_, rfl⟩⟩
  · rintro ⟨c, hc, hzero⟩
    have hcount := h.refcount c
    have hpos := List.count_pos_iff.mpr hc
    rw [hsplit] at hcount
    simp only [Bool.false_eq_true, if_false] at hzero
    omega
  · have hcount := h.refcount c
    rw [hsplit] at hcount
    dsimp only
    rw [addTo_down _ hn]
    omega
  · have hzero := (h.clear c hc).1
    rw [hsplit] at hzero
    exact Nat.eq_zero_of_add_eq_zero_left hzero

theorem Room.sublist (h : Room g live a) (hsub : rest.Sublist live) : Room g rest a := by
  intro hpos
  obtain ⟨hmod, hmem, hbehind⟩ := h hpos
  exact ⟨hmod, hmem, fun e he ↦ hbehind e (hsub.subset he)⟩

end Frees

section Steps

variable {g : Geometry} {x y : System} {op : Op} {es live : List Extent} {a b : Allocator}

/-- What holds between the operations. -/
structure Sound (g : Geometry) (x : System) : Prop where
  counted : Counted g x.live [] x.allocator
  room : Room g x.live x.allocator
  sized : ∀ e ∈ x.live, 0 < e.size g ∧ e.size g ≤ g.clusterSize
  pairwise : x.live.Pairwise (Apart g)

theorem Sound.exact (h : Sound g x) : Exact g x :=
  ⟨fun c ↦ h.counted.refcount c, fun c hc ↦ (h.counted.clear c hc).1, h.pairwise⟩

theorem Handed.sound (h : Handed g es x.live a) (hx : Sound g x) : Sound g ⟨a, es ++ x.live⟩ :=
  ⟨h.counted, h.room, fun e he ↦ (List.mem_append.mp he).elim (h.sized e) (hx.sized e),
    List.pairwise_append.mpr ⟨h.pairwise, hx.pairwise, h.apart⟩⟩

theorem call_spec {α : Type} {f : Io α} {outcomes : List Outcome} {P : Option α → Allocator → Prop} {r : Option α}
    (hf : Triple (· = { a with outcomes := outcomes }) f (fun r b ↦ P (some r) b)
      fun e b ↦ e.returns = true → P none b)
    (h : call f outcomes a = .ok (b, r)) : P r b := by
  unfold call at h
  cases hx : f { a with outcomes := outcomes } with
  | ok v s =>
    rw [hx] at h
    cases h
    exact hf.ok rfl hx
  | error e s =>
    rw [hx] at h
    cases e with
    | failed errno =>
      cases h
      exact hf.error rfl hx rfl
    | fault f => cases h
    | abort => cases h
    | unfinished => cases h

theorem call_free {clusters : List Nat} {outcomes : List Outcome} {r : Option Unit}
    (hrefused : ¬ Refused false clusters a)
    (h : call (ignore (updateRefcount false clusters)) outcomes a = .ok (b, r)) :
    b = { a with refcount := addTo false clusters a.refcount, outcomes := outcomes } := by
  rw [call, ignore_updateRefcount (a := { a with outcomes := outcomes }) hrefused] at h
  cases h
  rfl

theorem Sound.free {clusters : List Nat} (hx : Sound g x) (hperm : x.live.Perm (es ++ live))
    (hsub : live.Sublist x.live) (hn : clusters.Nodup) (hes : ∀ c, Extent.count g es c = clusters.count c)
    {r : Option Unit} (h : call (ignore (updateRefcount false clusters)) [] x.allocator = .ok (b, r)) :
    Sound g ⟨b, live⟩ := by
  obtain ⟨hrefused, hcounted⟩ := hx.counted.free hperm hn hes
  rw [call_free hrefused h]
  exact ⟨hcounted.congr rfl rfl, hx.room.sublist hsub, fun e he ↦ hx.sized e (hsub.subset he),
    hx.pairwise.sublist hsub⟩

theorem sound_alloc {α : Type} {f : Io α} {outcomes : List Outcome} {returned : Option α → List Extent}
    (hx : Sound g x) (hnone : returned none = [])
    (hf : Triple (· = { x.allocator with outcomes := outcomes }) f
      (fun r b ↦ Handed g (returned (some r)) x.live b) (Left g x.live))
    (h : (call f outcomes x.allocator >>= fun (b, r) ↦ pure (⟨b, returned r ++ x.live⟩, returned r)) = .ok (y, es)) :
    Sound g y ∧ ∀ e ∈ es, ∀ f ∈ x.live, Apart g e f := by
  obtain ⟨⟨b, r⟩, hcall, heq⟩ := ok_of_bind h
  have hhanded : Handed g (returned r) x.live b :=
    call_spec (P := fun r b ↦ Handed g (returned r) x.live b) (by rwa [hnone]) hcall
  cases heq
  exact ⟨hhanded.sound hx, hhanded.apart⟩

theorem perm_append_diff (hn : es.Nodup) (hmem : ∀ e ∈ es, e ∈ live) : (es ++ live.diff es).Perm live := by
  refine List.subperm_append_diff_self_of_count_le fun e he ↦ ?_
  rw [List.count_eq_one_of_mem hn he]
  exact List.count_pos_iff.mpr (hmem e he)

/-- A request that meets the conditions hands out nothing that is in use. -/
theorem step_sound (hx : Sound g x) (hmeets : MeetsOp g x op) (h : step g x op = .ok (y, es)) :
    Sound g y ∧ ∀ e ∈ es, ∀ f ∈ x.live, Apart g e f := by
  have hlive : ∀ e ∈ x.live, 0 < e.size g := fun e he ↦ (hx.sized e he).1
  cases op with
  | allocBytes size outcomes =>
    refine sound_alloc hx rfl ?_ h
    exact spec_allocBytes hlive (hx.counted.congr rfl rfl) hx.room hmeets.1 hmeets.2
  | allocClusters size outcomes =>
    refine sound_alloc hx rfl ?_ h
    exact spec_allocClusters_handed hlive (hx.counted.congr rfl rfl) hx.room hmeets.1 hmeets.2
  | freeBytes offset size =>
    rw [step] at h
    split_ifs at h with hmem
    obtain ⟨⟨b, r⟩, hcall, heq⟩ := ok_of_bind h
    cases heq
    obtain ⟨hsize, hle⟩ : 0 < size ∧ size ≤ g.clusterSize := hx.sized _ hmem
    rw [freeAnyClusters, anyClusters_compressedEntry hsize hle hmeets] at hcall
    have hperm : x.live.Perm ([.bytes offset size] ++ x.live.erase (.bytes offset size)) := List.perm_cons_erase hmem
    exact ⟨hx.free hperm List.erase_sublist (nodup_span _ _) (fun c ↦ Extent.count_singleton _ c) hcall,
      fun e he ↦ (List.not_mem_nil he).elim⟩
  | freeClusters start size =>
    rw [step] at h
    split_ifs at h with hmem
    obtain ⟨⟨b, r⟩, hcall, heq⟩ := ok_of_bind h
    cases heq
    have hn := nodup_span (g := g) (start * g.clusterSize) size
    have hperm := perm_append_diff (hn.map fun _ _ h ↦ Extent.cluster.inj h) fun e he ↦ by
      obtain ⟨c, hc, rfl⟩ := List.mem_map.mp he
      exact hmem c hc
    exact ⟨hx.free hperm.symm (List.diff_sublist _ _) hn (Extent.count_map_cluster _) hcall,
      fun e he ↦ (List.not_mem_nil he).elim⟩

/-- An image that has been opened, before bytes have been allocated. -/
structure Opened (g : Geometry) (x : System) : Prop where
  exact : Exact g x
  place : x.allocator.freeByteOffset = 0
  sized : ∀ e ∈ x.live, 0 < e.size g ∧ e.size g ≤ g.clusterSize

theorem Opened.sound (h : Opened g x) : Sound g x :=
  ⟨⟨fun c ↦ h.exact.refcount c, fun c hc ↦ ⟨h.exact.clear c hc, rfl⟩⟩, room_of_nonpos h.place.le, h.sized,
    h.exact.apart⟩

/-- As long as the operations meet the conditions, refcounts are exact and nothing that is in use is handed out. -/
theorem ranges_exact_of_meets {ops : List Op} (hx : Opened g x) (hmeets : Attempts (step g) (MeetsOp g) x ops) :
    Throughout (step g) (Exact g) x ops ∧
      ∀ pre op t u es, pre ++ [op] <+: ops → Run (step g) x pre t → step g t op = .ok (u, es) →
        ∀ e ∈ es, ∀ f ∈ t.live, Apart g e f := by
  have hsound : Throughout (step g) (Sound g) x ops :=
    throughout_of_attempts hx.sound (fun _ _ _ _ _ hs hop ht ↦ (step_sound hs hop ht).1) hmeets
  refine ⟨fun pre t hp hr ↦ (hsound pre t hp hr).exact, fun pre op t u es hp hr hs ↦ ?_⟩
  have hpre : pre <+: ops := (List.prefix_append pre [op]).trans hp
  exact (step_sound (hsound pre t hpre hr) (hmeets pre op t hp hr) hs).2

end Steps

/-- The header and the L1 table in clusters 0 and 3, the refcount table and its block in clusters 1 and 2. -/
def emptyImage : System :=
  { allocator := { refcount := fun c ↦ if c < 4 then 1 else 0, metadata := [1, 2] }, live := [.cluster 0, .cluster 3] }

theorem opened_emptyImage : Opened .smallest emptyImage := by
  have hcount (c : Nat) : Extent.count .smallest emptyImage.live c = [0, 3].count c := Extent.count_map_cluster [0, 3] c
  refine ⟨⟨fun c ↦ ?_, fun c hc ↦ ?_, by decide⟩, rfl, by decide⟩
  · rw [hcount]
    simp only [emptyImage, List.count_cons, List.count_nil, beq_iff_eq]
    split_ifs <;> omega
  · rw [hcount]
    exact (by decide : ∀ c ∈ [1, 2], [0, 3].count c = 0) c hc

theorem ranges_exact_of_meets_emptyImage :
    Throughout (step .smallest) (Exact .smallest) emptyImage
      [.allocBytes 100 [{ result := .ok 4 }], .allocBytes 200 [], .freeBytes 2048 100,
        .allocClusters 512 [{ result := .ok 5 }], .allocBytes 500 [{ result := .ok 6 }], .freeClusters 5 512] :=
  (ranges_exact_of_meets opened_emptyImage (by decide +kernel)).1

/-- The last reference of a cluster is freed while `free_byte_offset` points into it. Its place is kept, and is used
again after the cluster has been handed out to somebody else. -/
theorem not_ranges_exact : ¬ ∀ g x ops, Opened g x → Throughout (step g) (Exact g) x ops := by
  intro h
  obtain ⟨t, hr, ht⟩ : ∃ t, Run (step .smallest) emptyImage
      [.allocBytes 100 [{ result := .ok 4 }], .freeBytes 2048 100, .allocClusters 512 [{ result := .ok 4 }],
        .allocBytes 100 []] t ∧ ¬ t.live.Pairwise (Apart .smallest) := exists_run_of_exec (by decide +kernel)
  exact ht (h .smallest emptyImage _ opened_emptyImage _ t List.prefix_rfl hr).apart

end IDeviceEmulator.Qcow2.Ranges
