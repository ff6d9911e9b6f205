import IDeviceEmulator.Qcow2.Refcount

namespace IDeviceEmulator.Qcow2

section Tables

variable (g : Geometry)

/-- The loop of `qcow2_grow_l1_table`. -/
def growSize (min : Nat) : Nat → Nat → Nat
  | 0, n => n
  | fuel + 1, n => if n < min then growSize min fuel ((n * 3 + 1) / 2) else n

/-- The new table takes the place of the old one. -/
def activateL1 (offset n : Nat) : Io Unit := do
  let img ← getImage
  freeClusters g img.l1TableOffset (8 * img.l1Table.length)
  modifyImage fun img ↦
    { img with
      l1TableOffset := offset
      l1Table := img.l1Table ++ List.replicate (n - img.l1Table.length) 0#64 }

def writeL1 : Io Unit := do
  hostIo
  hostIo

def growL1To (n : Nat) : Io Unit := do
  let offset ← allocClusters g (8 * n)
  hostIo
  let ok ← attempt writeL1
  if ok then activateL1 g offset n
  else do
    freeClusters g offset (8 * n)
    throw .failed

/-- `qcow2_grow_l1_table` without an exact size. A size that does not fit an `int` has the allocation of the table
abort. -/
def growL1Table (min : Nat) : Io Unit := do
  let img ← getImage
  if min ≤ img.l1Table.length then pure ()
  else if 2 ^ 31 ≤ 8 * growSize min min (max img.l1Table.length 1) then throw .abort
  else growL1To g (growSize min min (max img.l1Table.length 1))

def setL2 (img : Image) (offset : Nat) (t : Nat → Entry) : Image :=
  { img with l2Table := Function.update img.l2Table offset t }

def setL1 (img : Image) (i : Nat) (e : Entry) : Image := { img with l1Table := img.l1Table.set i e }

@[simp]
theorem setL2_refcount (img : Image) (offset : Nat) (t : Nat → Entry) :
    (setL2 img offset t).refcount = img.refcount := rfl

@[simp]
theorem setL2_refcountClusters (img : Image) (offset : Nat) (t : Nat → Entry) :
    (setL2 img offset t).refcountClusters = img.refcountClusters := rfl

@[simp]
theorem setL1_refcount (img : Image) (i : Nat) (e : Entry) : (setL1 img i e).refcount = img.refcount := rfl

@[simp]
theorem setL1_refcountClusters (img : Image) (i : Nat) (e : Entry) :
    (setL1 img i e).refcountClusters = img.refcountClusters := rfl

/-- The contents of a new L2 table. -/
def fillL2 (offset : Nat) (old : Entry) : Io Unit :=
  if old = 0#64 then modifyImage fun img ↦ setL2 img offset fun _ ↦ 0#64
  else do
    hostIo
    modifyImage fun img ↦ setL2 img offset (img.l2Table old.toNat)
    hostIo

def linkL1 (i : Nat) (old new : Entry) : Io Unit := do
  modifyImage fun img ↦ setL1 img i new
  let ok ← attempt hostIo
  if ok then pure ()
  else do
    modifyImage fun img ↦ setL1 img i old
    throw .failed

def l2Allocate (i : Nat) (old : Entry) : Io Nat := do
  let offset ← allocClusters g g.clusterSize
  hostIo
  hostIo
  fillL2 offset old
  hostIo
  linkL1 i old (BitVec.ofNat 64 offset ||| oflagCopied)
  pure offset

def freeOldTable (old : Entry) : Io Unit :=
  if old = 0#64 then pure () else freeClusters g old.toNat g.clusterSize

def l1Index (offset : Nat) : Nat := offset / 2 ^ (g.l2Bits + g.clusterBits) % 2 ^ 32

def l2Index (offset : Nat) : Nat := offset / g.clusterSize % g.l2Size

/-- The L2 table of an L1 entry, for writing. -/
def loadOrAllocate (i : Nat) (e : Entry) : Io Nat :=
  if isCopied e then do
    hostIo
    pure (target e).toNat
  else do
    let offset ← l2Allocate g i e
    freeOldTable g e
    pure offset

def getClusterTable (offset : Nat) : Io Nat := do
  growL1Table g (l1Index g offset + 1)
  let img ← getImage
  match img.l1Table[l1Index g offset]? with
  | none => throw .abort
  | some e => loadOrAllocate g (l1Index g offset) e

/-- The number of clusters from `start` on, at most `n`, that satisfy a test. -/
def runLength (p : Nat → Bool) : Nat → Nat → Nat
  | _, 0 => 0
  | start, n + 1 => if p start then runLength p (start + 1) n + 1 else 0

def countContiguousClusters (n : Nat) (table : Nat → Entry) (start : Nat) (mask : Entry) : Nat :=
  if table 0 &&& ~~~mask = 0#64 then 0
  else runLength (fun i ↦ (table 0 &&& ~~~mask) + BitVec.ofNat 64 (i * g.clusterSize) = table i &&& ~~~mask) start n

def countContiguousFreeClusters (n : Nat) (table : Nat → Entry) : Nat := runLength (fun i ↦ table i = 0#64) 0 n

/-- The loop of `qcow2_alloc_cluster_offset` that looks for clusters to allocate together. -/
def availableClusters (table : Nat → Entry) (n : Nat) : Nat → Nat → Nat
  | 0, i => i
  | fuel + 1, i =>
    if n ≤ i then i
    else
      let i := i + countContiguousClusters g (n - i) table i 0#64
      if n ≤ i ∨ table i ≠ 0#64 then i
      else
        let i := i + countContiguousFreeClusters (n - i) fun k ↦ table (i + k)
        if n ≤ i ∨ isCopied (table i) ∨ isCompressed (table i) then i
        else availableClusters table n fuel i

end Tables

/-- `QCowL2Meta`, with the requests known by numbers. -/
structure L2Meta where
  offset : Nat := 0
  nStart : Nat := 0
  nbAvailable : Nat := 0
  nbClusters : Nat := 0
  clusterOffset : Nat := 0
  dependsOn : Option Nat := none
  dependentRequests : List Nat := []

section Linking

variable (g : Geometry)

def copySectors (needed : Prop) [Decidable needed] : Io Unit :=
  if needed then do
    hostIo
    hostIo
  else pure ()

def newEntry (m : L2Meta) (i : Nat) : Entry := BitVec.ofNat 64 (m.clusterOffset + i * g.clusterSize) ||| oflagCopied

def linkEntry (m : L2Meta) (table : Nat) (img : Image) (i : Nat) : Image :=
  setL2 img table (Function.update (img.l2Table table) (l2Index g m.offset + i) (newEntry g m i))

/-- The entries that are replaced. -/
def oldClusters (m : L2Meta) (t : Nat → Entry) : List Entry :=
  ((List.range m.nbClusters).map fun i ↦ t (l2Index g m.offset + i)).filter (· ≠ 0#64)

def freeAll : List Entry → Io Unit
  | [] => pure ()
  | e :: es => do
    freeAnyClusters g (target e)
    freeAll es

def replaceEntries (m : L2Meta) (table : Nat) : Io Unit := do
  let img ← getImage
  modifyImage fun img ↦ (List.range m.nbClusters).foldl (linkEntry g m table) img
  hostIo
  freeAll g (oldClusters g m (img.l2Table table))

def allocClusterLinkL2 (m : L2Meta) : Io Unit :=
  if m.nbClusters = 0 then pure ()
  else do
    copySectors (m.nStart ≠ 0)
    copySectors (m.nbAvailable % g.clusterSectors ≠ 0)
    let table ← getClusterTable g m.offset
    replaceEntries g m table

end Linking

end IDeviceEmulator.Qcow2
