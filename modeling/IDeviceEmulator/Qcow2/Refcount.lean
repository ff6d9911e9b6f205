import Mathlib.Algebra.GroupWithZero.Nat
import Mathlib.Data.List.Basic
import Mathlib.Logic.Function.Basic
import Mathlib.Tactic.Common

namespace IDeviceEmulator.Qcow2

/-- An entry of an L1 or L2 table. -/
abbrev Entry := BitVec 64

def oflagCopied : Entry := 1#64 <<< 63

def oflagCompressed : Entry := 1#64 <<< 62

def isCopied (e : Entry) : Prop := e &&& oflagCopied ≠ 0#64

def isCompressed (e : Entry) : Prop := e &&& oflagCompressed ≠ 0#64

instance (e : Entry) : Decidable (isCopied e) := inferInstanceAs (Decidable (_ ≠ _))

instance (e : Entry) : Decidable (isCompressed e) := inferInstanceAs (Decidable (_ ≠ _))

/-- The entry without `QCOW_OFLAG_COPIED`. -/
def target (e : Entry) : Entry := e &&& ~~~oflagCopied

/-- The sizes that `qcow2_open` derives from the cluster bits of the header. -/
structure Geometry where
  clusterBits : Nat
  lower : 9 ≤ clusterBits
  upper : clusterBits ≤ 21

/-- The smallest clusters of the format. -/
def Geometry.smallest : Geometry := ⟨9, Nat.le_refl 9, by decide⟩

section Sizes

variable (g : Geometry)

def Geometry.clusterSize : Nat := 2 ^ g.clusterBits

def Geometry.clusterSectors : Nat := 2 ^ (g.clusterBits - 9)

def Geometry.l2Bits : Nat := g.clusterBits - 3

def Geometry.l2Size : Nat := 2 ^ g.l2Bits

def Geometry.csizeShift : Nat := 62 - (g.clusterBits - 8)

/-- The clusters that one refcount block counts. -/
def Geometry.refcountBlockClusters : Nat := 2 ^ (g.clusterBits - 1)

/-- The clusters that the bytes of a range lie in. -/
def span (offset length : Nat) : List Nat :=
  if length = 0 then []
  else List.range' (offset / g.clusterSize) ((offset + length - 1) / g.clusterSize + 1 - offset / g.clusterSize)

/-- What `qcow2_free_any_clusters` gives back. -/
def anyClusters (e : Entry) : List Nat :=
  if isCompressed e then
    span g (e.toNat % 2 ^ g.csizeShift / 512 * 512) ((e.toNat / 2 ^ g.csizeShift % 2 ^ (g.clusterBits - 8) + 1) * 512)
  else span g e.toNat g.clusterSize

/-- The clusters that an entry of an L2 table refers to. -/
def dataClusters (e : Entry) : List Nat := if e = 0#64 then [] else anyClusters g (target e)

def tableClusters (e : Entry) : List Nat := span g (target e).toNat g.clusterSize

end Sizes

/-- The metadata of an image as the driver sees it through its caches. The clusters of the refcount table and of the
refcount blocks are a list. -/
structure Image where
  l1Table : List Entry
  l1TableOffset : Nat
  l2Table : Nat → Nat → Entry
  refcount : Nat → Nat
  freeClusterIndex : Nat
  refcountClusters : List Nat

/-- What the host makes of a request. Where a refcount block has to be found, `alloc_refcount_block` may also search
for clusters and need some, and a new refcount table replaces the old one. -/
structure Answer where
  ok : Bool := true
  searched : Nat := 0
  taken : List Nat := []
  dropped : List Nat := []

inductive Stop
  /-- A function returns a negative value. -/
  | failed
  | abort
deriving DecidableEq

structure World where
  image : Image
  answers : List Answer

abbrev Io := EStateM Stop World

def answer : Io Answer := fun w ↦
  match w.answers with
  | [] => .error .failed w
  | a :: rest => .ok a { w with answers := rest }

def check (a : Answer) : Io Unit := if a.ok then pure () else throw .failed

/-- An access to the host file, be it direct or through a cache. -/
def hostIo : Io Unit := do
  let a ← answer
  check a

def getImage : Io Image := fun w ↦ .ok w.image w

def modifyImage (f : Image → Image) : Io Unit := fun w ↦ .ok () { w with image := f w.image }

/-- A call of which the caller only looks at the sign of the result. -/
def attempt (x : Io Unit) : Io Bool := fun w ↦
  match x w with
  | .ok _ w => .ok true w
  | .error .failed w => .ok false w
  | .error .abort w => .error .abort w

def takeCluster (img : Image) (c : Nat) : Image :=
  if img.refcount c = 0 ∧ img.freeClusterIndex ≤ c then
    { img with refcount := Function.update img.refcount c 1, refcountClusters := c :: img.refcountClusters }
  else img

def dropCluster (img : Image) (c : Nat) : Image :=
  if c ∈ img.refcountClusters then
    { img with
      refcount := Function.update img.refcount c (img.refcount c - 1)
      refcountClusters := img.refcountClusters.erase c }
  else img

/-- The search moves `free_cluster_index` on, also when there is no refcount block in the end. -/
def passClusters (n : Nat) (img : Image) : Image := { img with freeClusterIndex := img.freeClusterIndex + n }

def allocRefcountBlock : Io Unit := do
  let a ← answer
  modifyImage fun img ↦ a.dropped.foldl dropCluster (passClusters a.searched (a.taken.foldl takeCluster img))
  check a

/-- No host file reaches this size. -/
def hostLimit : Nat := 2 ^ 62

section Update

variable (g : Geometry)

def putBlock (prev : Option Nat) : Io Unit :=
  if prev = none then pure () else hostIo

/-- The refcount block of the next cluster in the loop of `update_refcount`. -/
def nextBlock (prev : Option Nat) (c : Nat) : Io Unit :=
  if prev = some (c / g.refcountBlockClusters) then pure ()
  else do
    putBlock prev
    allocRefcountBlock

def increment (c : Nat) : Io Unit := do
  let img ← getImage
  if img.refcount c = 0xffff ∨ hostLimit < (c + 1) * g.clusterSize then throw .failed
  else modifyImage fun img ↦ { img with refcount := Function.update img.refcount c (img.refcount c + 1) }

def decrement (c : Nat) : Io Unit := do
  let img ← getImage
  if img.refcount c = 0 then throw .failed
  else modifyImage fun img ↦
    { img with
      refcount := Function.update img.refcount c (img.refcount c - 1)
      freeClusterIndex :=
        if img.refcount c = 1 ∧ c < img.freeClusterIndex then c else img.freeClusterIndex }

def changeRefcount (up : Bool) (c : Nat) : Io Unit := if up then increment g c else decrement c

/-- One round of the loop of `update_refcount`. -/
def updateCluster (up : Bool) (prev : Option Nat) (c : Nat) : Io Unit := do
  nextBlock g prev c
  changeRefcount g up c

/-- The loop of `update_refcount`, with the number of clusters that were left when it ended. -/
def updateLoop (up : Bool) : Option Nat → List Nat → Io Nat
  | _, [] => pure 0
  | prev, c :: cs => do
    let ok ← attempt (updateCluster g up prev c)
    if ok then updateLoop up (some (c / g.refcountBlockClusters)) cs else pure (cs.length + 1)

/-- `update_refcount`, which undoes what it did when it fails. Each time there is less to undo. -/
def updateClusters : Nat → Bool → List Nat → Io Unit
  | _, _, [] => pure ()
  | 0, _, _ :: _ => throw .failed
  | fuel + 1, up, c :: cs => do
    let left ← updateLoop g up none (c :: cs)
    hostIo
    if left = 0 then pure ()
    else do
      let _ ← attempt (updateClusters fuel (!up) ((c :: cs).take (cs.length + 1 - left)))
      throw .failed

def updateRefcount (up : Bool) (offset length : Nat) : Io Unit :=
  updateClusters g (span g offset length).length up (span g offset length)

end Update

section Allocation

variable (g : Geometry)

def getRefcount (c : Nat) : Io Nat := do
  hostIo
  let img ← getImage
  pure (img.refcount c)

def advanceFreeIndex : Io Nat := fun w ↦
  .ok w.image.freeClusterIndex { w with image := { w.image with freeClusterIndex := w.image.freeClusterIndex + 1 } }

/-- The search of `alloc_clusters_noref`, which has found `i` free clusters in a row. Each round asks the host. -/
def searchFree (n : Nat) : Nat → Nat → Io Nat
  | 0, _ => throw .failed
  | fuel + 1, i =>
    if n ≤ i then do
      let img ← getImage
      pure ((img.freeClusterIndex - n) * g.clusterSize)
    else do
      let c ← advanceFreeIndex
      let r ← getRefcount c
      searchFree n fuel (if r = 0 then i + 1 else 0)

def sizeToClusters (size : Nat) : Nat := (size + g.clusterSize - 1) / g.clusterSize

def allocClustersNoref (size : Nat) : Io Nat := fun w ↦
  searchFree g (sizeToClusters g size) (w.answers.length + 1) 0 w

def allocClusters (size : Nat) : Io Nat := do
  let offset ← allocClustersNoref g size
  updateRefcount g true offset size
  pure offset

/-- `qcow2_free_clusters` reports a failure only to the user. -/
def release (clusters : List Nat) : Io Unit := do
  let _ ← attempt (updateClusters g clusters.length false clusters)
  pure ()

def freeClusters (offset size : Nat) : Io Unit := release g (span g offset size)

def freeAnyClusters (e : Entry) : Io Unit := release g (anyClusters g e)

end Allocation

end IDeviceEmulator.Qcow2
