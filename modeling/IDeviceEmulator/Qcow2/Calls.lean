import IDeviceEmulator.Qcow2.Handles

namespace IDeviceEmulator.Qcow2.Handles

open Barrier (Errno)

variable {g : Geometry} (fuel : Nat)

section L1

def entryBytes (table : List Entry) : List Byte := table.flatMap fun e ↦ Bytes.putBe 8 e.toNat

def activateL1 (table : List Entry) (offset : Nat) : Io g Unit := do
  bdrvPwriteSync offset (entryBytes table)
  bdrvPwriteSync 36 (Bytes.putBe 4 table.length ++ Bytes.putBe 8 offset)

def growL1To (n : Nat) : Io g Unit := do
  let offset ← allocClusters fuel (8 * n)
  cacheFlush .refcountBlock
  let d ← get
  let table := d.l1Table ++ List.replicate (n - d.l1Table.length) 0#64
  onFailure (activateL1 table offset) (freeClusters fuel offset (8 * n))
  freeClusters fuel d.l1TableOffset (8 * d.l1Table.length)
  modify fun d ↦ { d with l1Table := table, l1TableOffset := offset }

/-- `qcow2_grow_l1_table` without an exact size. A size that does not fit an `int` has the allocation of the table
abort. -/
def growL1Table (min : Nat) : Io g Unit := do
  let d ← get
  if min ≤ d.l1Table.length then pure ()
  else if 2 ^ 31 ≤ 8 * growSize min min (max d.l1Table.length 1) then throw .abort
  else growL1To fuel (growSize min min (max d.l1Table.length 1))

/-- The entries of a sector of the L1 table are written together. -/
def writeL1Entry (i : Nat) : Io g Unit := do
  let d ← get
  let start := i / 64 * 64
  bdrvPwriteSync (d.l1TableOffset + 8 * start)
    (entryBytes ((List.range 64).map fun k ↦ d.l1Table[start + k]?.getD 0#64))

def setL1Entry (i : Nat) (e : Entry) : Io g Unit := modify fun d ↦ { d with l1Table := d.l1Table.set i e }

end L1

section L2

/-- A new L2 table is empty or a copy of the old one. -/
def fillTable (table : Handle .l2Table) (old : Entry) : Io g Unit :=
  if old = 0#64 then store table fun _ ↦ 0
  else do
    let oldTable ← cacheGet .l2Table old.toNat
    let t ← tableOf oldTable
    store table t
    cachePut oldTable

def installTable (i : Nat) (table : Handle .l2Table) (old new : Entry) : Io g Unit := do
  fillTable table old
  markDirty table
  cacheFlush .l2Table
  setL1Entry i new
  writeL1Entry i

/-- `l2_allocate`. Up to the flush there is no table to be put when it fails. -/
def l2Allocate (i : Nat) (old : Entry) : Io g (Handle .l2Table) := do
  let offset ← allocClusters fuel (8 * g.l2Size)
  cacheFlush .refcountBlock
  let table ← cacheGetEmpty .l2Table offset
  onFailure (installTable i table old (BitVec.ofNat 64 offset ||| oflagCopied)) do
    ignore (cachePut table)
    setL1Entry i old
  pure table

def freeOldTable (old : Entry) : Io g Unit :=
  if old = 0#64 then pure () else freeClusters fuel old.toNat (8 * g.l2Size)

def loadOrAllocate (i : Nat) (e : Entry) : Io g (Handle .l2Table) :=
  if isCopied e then cacheGet .l2Table (target e).toNat
  else do
    let table ← l2Allocate fuel i e
    freeOldTable fuel e
    pure table

def getClusterTable (offset : Nat) : Io g (Handle .l2Table) := do
  growL1Table fuel (l1Index g offset + 1)
  let d ← get
  match d.l1Table[l1Index g offset]? with
  | none => throw .abort
  | some e => loadOrAllocate fuel (l1Index g offset) e

/-- The sectors that one L1 entry covers from an offset on, with those before it in its cluster. -/
def sectorsAvailable (g : Geometry) (offset : Nat) : Nat :=
  (2 ^ (g.l2Bits + g.clusterBits) - offset % 2 ^ (g.l2Bits + g.clusterBits)) / 512 + offset / 512 % g.clusterSectors

/-- `qcow2_get_cluster_offset`, with the number of sectors that can be read together. -/
def getClusterOffset (offset num : Nat) : Io g (Nat × Entry) := do
  let before := offset / 512 % g.clusterSectors
  let nbNeeded := min (num + before) (sectorsAvailable g offset)
  let d ← get
  let e := d.l1Table[l1Index g offset]?.getD 0#64
  if e = 0#64 then pure (nbNeeded - before, 0#64)
  else do
    let table ← cacheGet .l2Table (target e).toNat
    let t ← tableOf table
    let entry := fun k ↦ entryAt t (l2Index g offset + k)
    let n := Contents.clustersTogether g entry (sizeToClusters g (nbNeeded * 512))
    ignore (cachePut table)
    pure (min (n * g.clusterSectors) nbNeeded - before, target (entry 0))

end L2

/-- What is outside the image, and the cipher that sectors of the guest are stored with. -/
structure Codec where
  host : Contents.Host Sector
  encrypt : Nat → Sector → Sector := fun _ x ↦ x
  decrypt : Nat → Sector → Sector := fun _ x ↦ x

section Copying

variable (codec : Codec)

def readBacking (sector : Nat) : Io g Unit :=
  match codec.host.backing with
  | none => pure ()
  | some (total, _) => if sector < total then hostCall else pure ()

def decompressCluster (e : Entry) : Io g Unit := do
  let d ← get
  if d.clusterCacheOffset = some (Contents.coffset g e) then pure ()
  else do
    hostCall
    match codec.host.inflate (Contents.stream g (fun s ↦ bdrvPread d.journal.caches.file (512 * s)) e)
      (Contents.coffset g e % 512) with
    | none => throw (.failed eio)
    | some c => modify fun d ↦ { d with clusterCacheOffset := some (Contents.coffset g e), clusterCache := c }

/-- The sectors that a round of the loop of `qcow2_read` gets. -/
def readPart (sector num : Nat) : Io g (List Sector) := do
  let (n, e) ← getClusterOffset (512 * sector) num
  let before := sector % g.clusterSectors
  if e = 0#64 then do
    readBacking codec sector
    pure ((List.range n).map fun i ↦ Contents.unallocated codec.host (sector + i))
  else if isCompressed e then do
    decompressCluster codec e
    let d ← get
    pure ((List.range n).map fun i ↦ d.clusterCache (before + i))
  else do
    hostCall
    let d ← get
    pure ((List.range n).map fun i ↦
      codec.decrypt (sector + i) (bdrvPread d.journal.caches.file (e.toNat + 512 * (before + i))))

/-- `qcow2_read`. -/
def readSectors : Nat → Nat → Nat → Io g (List Sector)
  | _, _, 0 => pure []
  | 0, _, _ + 1 => throw .unfinished
  | fuel + 1, sector, n + 1 => do
    let xs ← readPart codec sector (n + 1)
    let ys ← readSectors fuel (sector + xs.length) (n + 1 - xs.length)
    pure (xs ++ ys)

def encryptSectors (sector : Nat) (xs : List Sector) : List Byte :=
  xs.zipIdx.flatMap fun x ↦ List.ofFn (codec.encrypt (sector + x.2) x.1)

def copySectors (startSect clusterOffset nStart nEnd : Nat) : Io g Unit :=
  if nEnd ≤ nStart then pure ()
  else do
    let xs ← readSectors codec fuel (startSect + nStart) (nEnd - nStart)
    bdrvPwrite ((clusterOffset / 512 + nStart) * 512) (encryptSectors codec (startSect + nStart) xs)

end Copying

section Linking

variable (codec : Codec)

def copyHead (m : L2Meta) : Io g Unit :=
  if m.nStart ≠ 0 then
    copySectors fuel codec (m.offset / g.clusterSize * g.clusterSectors) m.clusterOffset 0 m.nStart
  else pure ()

def copyTail (m : L2Meta) : Io g Unit :=
  if m.nbAvailable % g.clusterSectors ≠ 0 then
    let full := m.nbAvailable / g.clusterSectors * g.clusterSectors
    copySectors fuel codec (m.offset / g.clusterSize * g.clusterSectors + full) (m.clusterOffset + full * 512)
      (m.nbAvailable - full) g.clusterSectors
  else pure ()

def orderCopies (m : L2Meta) : Io g Unit :=
  if m.nStart ≠ 0 ∨ m.nbAvailable % g.clusterSectors ≠ 0 then
    lift (Barrier.modifyCaches fun s ↦ cacheDependsOnFlush s .l2Table)
  else pure ()

def linkEntries (m : L2Meta) (t : Table g.clusterSize) : Table g.clusterSize :=
  (List.range m.nbClusters).foldl (fun t i ↦ setWord 8 t (l2Index g m.offset + i) (newEntry g m i).toNat) t

def freeAll : List Entry → Io g Unit
  | [] => pure ()
  | e :: es => do
    freeAnyClusters fuel (target e)
    freeAll es

def allocClusterLinkL2 (m : L2Meta) : Io g Unit :=
  if m.nbClusters = 0 then pure ()
  else do
    copyHead fuel codec m
    copyTail fuel codec m
    orderCopies m
    ignore (cacheSetDependency .l2Table)
    let table ← getClusterTable fuel m.offset
    markDirty table
    let t ← tableOf table
    store table (linkEntries m t)
    cachePut table
    freeAll fuel (oldClusters g m (entryAt t))

end Linking

section Allocation

def allocTogether (table : Handle .l2Table) (offset nStart n : Nat) : Io g Writes.Allocation := do
  let clusterOffset ← onFailure (allocClusters fuel (Writes.clusterBytes g n)) (ignore (cachePut table))
  modify fun d ↦
    { d with clusterAllocs := { offset := offset, nStart := nStart, nbClusters := n } :: d.clusterAllocs }
  cachePut table
  pure (.fresh clusterOffset n)

/-- The part of `qcow2_alloc_cluster_offset` that looks for requests in flight. -/
def chooseClusters (table : Handle .l2Table) (offset nStart n : Nat) : Io g Writes.Allocation := do
  let d ← get
  match Writes.shrink g (fun i ↦ d.clusterAllocs.getD i {}) offset (List.range d.clusterAllocs.length) n with
  | .error i => do
    ignore (cachePut table)
    pure (.waitFor i)
  | .ok n => if n = 0 then throw .abort else allocTogether fuel table offset nStart n

def allocClusterOffset (offset nStart nEnd : Nat) : Io g Writes.Allocation := do
  let table ← getClusterTable fuel offset
  let t ← tableOf table
  let entry := fun k ↦ entryAt t (l2Index g offset + k)
  if isCopied (entry 0) then do
    cachePut table
    pure (.existing (target (entry 0)).toNat
      (countContiguousClusters g (Writes.wantedClusters g offset nEnd) entry 0 0#64))
  else
    let n := if isCompressed (entry 0) then 1 else Writes.wantedClusters g offset nEnd
    chooseClusters fuel table offset nStart (availableClusters g entry n n 0)

/-- The entry of a compressed cluster. -/
def compressedEntry (g : Geometry) (offset size : Nat) : Entry :=
  BitVec.ofNat 64 offset ||| oflagCompressed |||
    BitVec.ofNat 64 ((offset + size - 1) / 512 - offset / 512) <<< g.csizeShift

def linkCompressed (table : Handle .l2Table) (i : Nat) (e : Entry) : Io g Unit := do
  markDirty table
  let t ← tableOf table
  store table (setWord 8 t i e.toNat)
  cachePut table

def freeOldCluster (old : Entry) : Io g Unit := if old = 0#64 then pure () else freeAnyClusters fuel old

/-- The rest of `qcow2_alloc_compressed_cluster_offset`, which returns zero when something fails. -/
def replaceCompressed (table : Handle .l2Table) (i : Nat) (e : Entry) (size : Nat) : Io g Entry := do
  freeOldCluster fuel e
  match ← attempt (allocBytes fuel size) with
  | .error _ => do
    ignore (cachePut table)
    pure 0#64
  | .ok offset =>
    if offset < 0 then do
      ignore (cachePut table)
      pure 0#64
    else
      match ← attempt (linkCompressed table i (compressedEntry g offset.toNat size)) with
      | .error _ => pure 0#64
      | .ok _ => pure (compressedEntry g offset.toNat size)

def allocCompressedClusterOffset (offset size : Nat) : Io g Entry := do
  match ← attempt (getClusterTable fuel offset) with
  | .error _ => pure 0#64
  | .ok table => do
    let t ← tableOf table
    let e := entryAt t (l2Index g offset)
    -- There is no `qcow2_cache_put` on this way out.
    if isCopied e then pure (target e)
    else replaceCompressed fuel table (l2Index g offset) e size

end Allocation

section Discarding

def discardEntry (table : Handle .l2Table) (i : Nat) : Io g Unit := do
  let t ← tableOf table
  let e := target (entryAt t i)
  if e = 0#64 then pure ()
  else do
    markDirty table
    store table (setWord 8 t i 0)
    freeAnyClusters fuel e

def discardEntries (table : Handle .l2Table) : List Nat → Io g Unit
  | [] => pure ()
  | i :: is => do
    discardEntry fuel table i
    discardEntries table is

/-- `discard_single_l2`, with the number of clusters that were discarded. -/
def discardSingleL2 (offset nbClusters : Nat) : Io g Nat := do
  let table ← getClusterTable fuel offset
  let n := min nbClusters (g.l2Size - l2Index g offset)
  discardEntries fuel table (List.range' (l2Index g offset) n)
  cachePut table
  pure n

def discardLoop : Nat → Nat → Nat → Io g Unit
  | _, _, 0 => pure ()
  | 0, _, _ + 1 => throw .unfinished
  | rounds + 1, offset, n + 1 => do
    let done ← discardSingleL2 fuel offset (n + 1)
    discardLoop rounds (offset + done * g.clusterSize) (n + 1 - done)

def discardClusters (offset nbSectors : Nat) : Io g Unit :=
  let start := (offset + g.clusterSize - 1) / g.clusterSize
  let last := (offset + nbSectors * 512) / g.clusterSize
  discardLoop fuel (last - start) (start * g.clusterSize) (last - start)

end Discarding

inductive Op
  | getClusterOffset (offset num : Nat)
  | allocClusterOffset (offset nStart nEnd : Nat)
  | allocClusterLinkL2 (m : L2Meta)
  | allocCompressedClusterOffset (offset size : Nat)
  | discardClusters (offset nbSectors : Nat)
  | allocClusters (size : Nat)
  | freeClusters (offset size : Nat)
  | flush (c : Which)
  /-- Data of the guest is written to the file, and requests leave `cluster_allocs`. -/
  | data (file : File) (clusterAllocs : List L2Meta)

def Op.run (codec : Codec) : Op → Io g Unit
  | .getClusterOffset offset num => do let _ ← Handles.getClusterOffset offset num
  | .allocClusterOffset offset nStart nEnd => do let _ ← Handles.allocClusterOffset fuel offset nStart nEnd
  | .allocClusterLinkL2 m => Handles.allocClusterLinkL2 fuel codec m
  | .allocCompressedClusterOffset offset size => do let _ ← Handles.allocCompressedClusterOffset fuel offset size
  | .discardClusters offset nbSectors => Handles.discardClusters fuel offset nbSectors
  | .allocClusters size => do let _ ← Handles.allocClusters fuel size
  | .freeClusters offset size => Handles.freeClusters fuel offset size
  | .flush c => cacheFlush c
  | .data file clusterAllocs => do
    lift (Barrier.modifyCaches fun s ↦ { s with file := file })
    modify fun d ↦ { d with clusterAllocs := clusterAllocs }

/-- An operation that returns, with its failure. -/
def step (codec : Codec) (d : Driver g) (op : Op) : Except Stop (Driver g × Option Failure) :=
  match attempt (op.run fuel codec) d with
  | .ok (.ok _) d => .ok (d, none)
  | .ok (.error e) d => .ok (d, some e)
  | .error e _ => .error e

/-- The assertion of `qcow2_cache_destroy`. -/
def cacheDestroy (c : Which) : Io g Unit := do
  let d ← get
  if ∀ i, (d.journal.caches.entries ⟨c, i⟩).ref = 0 then pure () else throw .abort

end IDeviceEmulator.Qcow2.Handles
