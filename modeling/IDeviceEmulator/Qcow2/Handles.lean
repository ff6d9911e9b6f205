import IDeviceEmulator.Library.Bytes
import IDeviceEmulator.Library.Leases
import IDeviceEmulator.Qcow2.Ordering
import IDeviceEmulator.Qcow2.Contents

namespace IDeviceEmulator.Qcow2.Handles

open Barrier (Errno Journal Act)

/-- `L2_CACHE_SIZE` and `REFCOUNT_CACHE_SIZE`. -/
def cacheSize : Which → Nat
  | .l2Table => 16
  | .refcountBlock => 4

/-- A pointer to a table of a cache, as `qcow2_cache_get` hands it out. -/
structure Handle (c : Which) where
  index : Fin (cacheSize c)

def Handle.slot {c : Which} (h : Handle c) : Slot cacheSize := ⟨c, h.index⟩

abbrev Sector := Table 512

/-- What the driver keeps of an image, with its caches and the file behind them. -/
structure Driver (g : Geometry) where
  journal : Journal g.clusterSize cacheSize
  l1Table : List Entry
  l1TableOffset : Nat
  refcountTable : List Nat
  refcountTableOffset : Nat
  freeClusterIndex : Nat := 0
  freeByteOffset : Int := 0
  clusterAllocs : List L2Meta := []
  clusterCacheOffset : Option Nat := none
  clusterCache : Nat → Sector := fun _ _ ↦ 0

inductive Stop
  /-- A function returns a negative value. -/
  | failed (errno : Errno)
  /-- The cache does not go on. -/
  | fault (f : Fault)
  /-- Another `abort`, a failed assertion, or an access outside a table. -/
  | abort
  /-- A loop or a recursion has not ended. -/
  | unfinished
deriving DecidableEq

def Stop.returns : Stop → Bool
  | .failed _ => true
  | _ => false

abbrev Failure := {e : Stop // e.returns = true}

def Failure.of (errno : Errno) : Failure := ⟨.failed errno, rfl⟩

def eio : Errno := 5

def einval : Errno := 22

variable {g : Geometry}

abbrev Io (g : Geometry) := EStateM Stop (Driver g)

section Host

variable {α : Type}

def Stop.ofCache : Barrier.Stop → Stop
  | .failed errno => .failed errno
  | .fault f => .fault f

def lift (x : Act g.clusterSize cacheSize α) : Io g α := fun d ↦
  match x d.journal with
  | .ok a w => .ok a { d with journal := w }
  | .error e w => .error (.ofCache e) { d with journal := w }

def attempt (x : Io g α) : Io g (Except Failure α) := Leases.attempt Stop.returns x

def onFailure (x : Io g α) (cleanup : Io g Unit) : Io g α := Leases.onFailure Stop.returns x cleanup

/-- A call of which the result is not looked at. -/
def ignore (x : Io g Unit) : Io g Unit := do
  let _ ← attempt x
  pure ()

def hostCall : Io g Unit := lift Barrier.hostCall

def bdrvFlush : Io g Unit := lift Barrier.bdrvFlush

def pokeBytes (offset : Nat) (bytes : List Byte) (file : File) : File := fun a ↦
  if offset ≤ a then bytes[a - offset]?.getD (file a) else file a

def bdrvPwrite (offset : Nat) (bytes : List Byte) : Io g Unit := do
  hostCall
  lift (Barrier.modifyCaches fun s ↦ { s with file := pokeBytes offset bytes s.file })

/-- `bdrv_pwrite_sync`. The caches write through when the file does. -/
def bdrvPwriteSync (offset : Nat) (bytes : List Byte) : Io g Unit := do
  bdrvPwrite offset bytes
  let d ← get
  if d.journal.caches.writethrough .l2Table then pure () else ignore bdrvFlush

end Host

section Tables

/-- The big-endian numbers of `n` bytes that a table consists of. -/
def word {m : Nat} (n : Nat) (t : Table m) (i : Nat) : Nat :=
  (Bytes.getBe n ((List.range n).map fun k ↦ if h : n * i + k < m then t ⟨n * i + k, h⟩ else 0)).1

def setWord {m : Nat} (n : Nat) (t : Table m) (i x : Nat) : Table m := fun a ↦
  if a.val / n = i then (Bytes.putBe n x)[a.val % n]?.getD 0 else t a

def entryAt {m : Nat} (t : Table m) (i : Nat) : Entry := BitVec.ofNat 64 (word 8 t i)

def handOver (c : Which) : Option (Fin (cacheSize c)) → Io g (Handle c)
  | some i => pure ⟨i⟩
  | none => throw .abort

def handOut (c : Which) (offset : Nat) : Io g (Handle c) := do
  let d ← get
  handOver c (lookup d.journal.caches c offset)

def cacheDoGet (c : Which) (offset : Nat) (readFromDisk : Bool) : Io g (Handle c) := do
  lift (Barrier.cacheDoGet c offset readFromDisk)
  handOut c offset

def cacheGet (c : Which) (offset : Nat) : Io g (Handle c) := cacheDoGet c offset true

def cacheGetEmpty (c : Which) (offset : Nat) : Io g (Handle c) := cacheDoGet c offset false

def cachePut {c : Which} (h : Handle c) : Io g Unit := lift (Barrier.cachePut h.slot)

def cacheFlush (c : Which) : Io g Unit := lift (Barrier.cacheFlush depth c)

def cacheSetDependency (c : Which) : Io g Unit := lift (Barrier.cacheSetDependency c)

def tableOf {c : Which} (h : Handle c) : Io g (Table g.clusterSize) := do
  let d ← get
  pure (d.journal.caches.entries h.slot).table

def markDirty {c : Which} (h : Handle c) : Io g Unit :=
  lift (Barrier.modifyCaches fun s ↦ s.modify h.slot ({ · with dirty := true }))

def store {c : Which} (h : Handle c) (t : Table g.clusterSize) : Io g Unit :=
  lift (Barrier.modifyCaches fun s ↦ s.modify h.slot ({ · with table := t }))

end Tables

section Search

def getRefcount (cluster : Nat) : Io g Nat := do
  let d ← get
  let offset := d.refcountTable[cluster / g.refcountBlockClusters]?.getD 0
  if offset = 0 then pure 0
  else do
    let block ← cacheGet .refcountBlock offset
    let t ← tableOf block
    cachePut block
    pure (word 2 t (cluster % g.refcountBlockClusters))

/-- The loop of `alloc_clusters_noref`, which has found `i` free clusters in a row. -/
def searchFree (n : Nat) : Nat → Nat → Io g Nat
  | 0, _ => throw .unfinished
  | fuel + 1, i => do
    let d ← get
    if n ≤ i then pure ((d.freeClusterIndex - n) * g.clusterSize)
    else do
      modify fun d ↦ { d with freeClusterIndex := d.freeClusterIndex + 1 }
      let refcount ← getRefcount d.freeClusterIndex
      searchFree n fuel (if refcount = 0 then i + 1 else 0)

def allocClustersNoref (fuel size : Nat) : Io g Nat := searchFree (sizeToClusters g size) fuel 0

end Search

section Blocks

abbrev Block := Handle .refcountBlock

variable (fuel : Nat) (update : Bool → Nat → Nat → Io g Unit)

def nextRefcountTableSize (g : Geometry) (tableSize minSize : Nat) : Nat :=
  growSize (minSize / g.l2Size + 1) (minSize / g.l2Size + 1) (max 1 (tableSize / g.l2Size)) * g.l2Size

def roundUp (a b : Nat) : Nat := (a + b - 1) / b

/-- The loop of `alloc_refcount_block` for the size of the new refcount table, with the clusters of its blocks. -/
def settleSize (tableSize blocksUsed : Nat) : Nat → Nat → Io g (Nat × Nat)
  | 0, _ => throw .unfinished
  | fuel + 1, size =>
    let tableClusters := sizeToClusters g size
    let blocksClusters := 1 + roundUp tableClusters g.refcountBlockClusters
    let next := nextRefcountTableSize g tableSize
      (blocksUsed + roundUp (tableClusters + blocksClusters) g.refcountBlockClusters)
    if next = size then pure (next, blocksClusters) else settleSize tableSize blocksUsed fuel next

/-- A longer table with the new block and the blocks that count what comes behind it. -/
def newTable (g : Geometry) (old : List Nat) (size index newBlock blocksUsed blocksClusters metaOffset : Nat) :
    List Nat :=
  (List.range blocksClusters).foldl (fun t i ↦ t.set (blocksUsed + i) (metaOffset + i * g.clusterSize))
    ((old ++ List.replicate (size - old.length) 0).set index newBlock)

def newBlocks (g : Geometry) (n blocksClusters : Nat) : List Byte :=
  (List.replicate n 1 ++ List.replicate (blocksClusters * g.clusterSize / 2 - n) 0).flatMap (Bytes.putBe 2)

/-- The new refcount table goes to the file with its blocks, and its place into the header. -/
def writeRefcountTable (table : List Nat) (metaOffset blocksClusters : Nat) : Io g Unit := do
  let tableOffset := metaOffset + blocksClusters * g.clusterSize
  let tableClusters := sizeToClusters g (8 * table.length)
  bdrvPwriteSync metaOffset (newBlocks g (tableClusters + blocksClusters) blocksClusters)
  bdrvPwriteSync tableOffset (table.flatMap (Bytes.putBe 8))
  bdrvPwriteSync 48 (Bytes.putBe 8 tableOffset ++ Bytes.putBe 4 tableClusters)

/-- The old table is freed, and what that does to `free_cluster_index` is undone. -/
def switchRefcountTable (table : List Nat) (tableOffset : Nat) : Io g Unit := do
  let d ← get
  modify fun d ↦ { d with refcountTable := table, refcountTableOffset := tableOffset }
  ignore (update false d.refcountTableOffset (8 * d.refcountTable.length))
  modify fun d' ↦ { d' with freeClusterIndex := d.freeClusterIndex }

/-- A refcount table that is too small for the block with the given index grows. -/
def growRefcountTable (index newBlock : Nat) : Io g Unit := do
  let d ← get
  let blocksUsed := roundUp d.freeClusterIndex g.refcountBlockClusters
  let (size, blocksClusters) ← settleSize d.refcountTable.length blocksUsed fuel
    (nextRefcountTableSize g d.refcountTable.length (blocksUsed + 1))
  let metaOffset := blocksUsed * g.refcountBlockClusters * g.clusterSize
  if size ≤ index then throw .abort
  else do
    let table := newTable g d.refcountTable size index newBlock blocksUsed blocksClusters metaOffset
    writeRefcountTable table metaOffset blocksClusters
    switchRefcountTable update table (metaOffset + blocksClusters * g.clusterSize)

/-- A new block that counts itself, or is counted by another one. -/
def initBlock (newBlock cluster : Nat) : Io g Block :=
  if newBlock / g.clusterSize / g.refcountBlockClusters = cluster / g.refcountBlockClusters then do
    let block ← cacheGetEmpty .refcountBlock newBlock
    store block (setWord 2 (fun _ ↦ 0) (newBlock / g.clusterSize % g.refcountBlockClusters) 1)
    pure block
  else do
    update true newBlock g.clusterSize
    ignore bdrvFlush
    let block ← cacheGetEmpty .refcountBlock newBlock
    store block fun _ ↦ 0
    pure block

def writeBlock (block : Block) : Io g Unit := do
  markDirty block
  cacheFlush .refcountBlock

def hookUp (index newBlock : Nat) : Io g Unit := do
  let d ← get
  bdrvPwriteSync (d.refcountTableOffset + 8 * index) (Bytes.putBe 8 newBlock)
  modify fun d ↦ { d with refcountTable := d.refcountTable.set index newBlock }

/-- `alloc_refcount_block` when there is no block yet. The offset of the new one is returned as an `int` if the table
had to grow. -/
def addBlock (cluster : Nat) : Io g (Block × Int) := do
  let index := cluster / g.refcountBlockClusters
  ignore (cacheFlush .l2Table)
  let newBlock ← allocClustersNoref fuel g.clusterSize
  let block ← initBlock update newBlock cluster
  onFailure (writeBlock block) (ignore (cachePut block))
  let d ← get
  if index < d.refcountTable.length then do
    onFailure (hookUp index newBlock) (ignore (cachePut block))
    pure (block, 0)
  else do
    cachePut block
    growRefcountTable fuel update index newBlock
    let block ← cacheGet .refcountBlock newBlock
    pure (block, Int.bmod newBlock (2 ^ 32))

def allocRefcountBlock (cluster : Nat) : Io g (Block × Int) := do
  let d ← get
  let offset := d.refcountTable[cluster / g.refcountBlockClusters]?.getD 0
  if offset = 0 then addBlock fuel update cluster
  else do
    let block ← cacheGet .refcountBlock offset
    pure (block, 0)

end Blocks

section Update

variable (alloc : Nat → Io g (Block × Int))

/-- The refcount block of the next cluster in the loop of `update_refcount`. -/
def nextBlock (held : Option (Block × Nat)) (cluster : Nat) : Io g (Block × Int) :=
  match held with
  | none => alloc cluster
  | some (block, index) =>
    if index = cluster / g.refcountBlockClusters then pure (block, 0)
    else do
      cachePut block
      alloc cluster

def changeRefcount (up : Bool) (block : Block) (cluster : Nat) : Io g Unit := do
  markDirty block
  let t ← tableOf block
  let refcount := word 2 t (cluster % g.refcountBlockClusters)
  if refcount = (if up then 0xffff else 0) then throw (.failed einval)
  else do
    let refcount := if up then refcount + 1 else refcount - 1
    modify fun d ↦
      if refcount = 0 ∧ cluster < d.freeClusterIndex then { d with freeClusterIndex := cluster } else d
    store block (setWord 2 t (cluster % g.refcountBlockClusters) refcount)

/-- The loop of `update_refcount`, with the block that is held and the number of clusters that were left when it
ended. -/
def updateLoop (up : Bool) : Option (Block × Nat) → List Nat → Io g (Option Block × Nat × Option Failure)
  | held, [] => pure (held.map Prod.fst, 0, none)
  | held, c :: cs => do
    match ← attempt (nextBlock alloc held c) with
    | .error e => pure (none, cs.length + 1, some e)
    | .ok (block, ret) =>
      if ret < 0 then pure (some block, cs.length + 1, some (.of ret.natAbs))
      else do
        match ← attempt (changeRefcount up block c) with
        | .error e => pure (some block, cs.length + 1, some e)
        | .ok _ => updateLoop up (some (block, c / g.refcountBlockClusters)) cs

/-- Refcounts are only decreased after the L2 tables are written. -/
def dependOnTables (up : Bool) : Io g Unit :=
  if up then pure () else ignore (cacheSetDependency .refcountBlock)

/-- The last block is put. When that fails nothing is undone. -/
def putLast (block : Option Block) (result : Option Failure) : Io g Unit :=
  match block with
  | none => pure ()
  | some block => do
    match ← attempt (cachePut block) with
    | .error wret => throw (result.getD wret).val
    | .ok _ => pure ()

/-- `update_refcount`, which undoes what it did when it fails. Each time there is less to undo. -/
def updateClusters : Nat → Bool → List Nat → Io g Unit
  | _, _, [] => pure ()
  | 0, _, _ :: _ => throw .unfinished
  | n + 1, up, c :: cs => do
    dependOnTables up
    let (block, left, result) ← updateLoop alloc up none (c :: cs)
    putLast block result
    match result with
    | none => pure ()
    | some e => do
      ignore (updateClusters n (!up) ((c :: cs).take (cs.length + 1 - left)))
      throw e.val

end Update

/-- `update_refcount` and `alloc_refcount_block` call each other. -/
def updateRefcount : Nat → Bool → Nat → Nat → Io g Unit
  | 0, _, _, _ => throw .unfinished
  | fuel + 1, up, offset, length =>
    updateClusters (allocRefcountBlock fuel (updateRefcount fuel)) (span g offset length).length up
      (span g offset length)

section Allocation

variable (fuel : Nat)

def updateClusterRefcount (cluster : Nat) : Io g Nat := do
  updateRefcount fuel true (cluster * g.clusterSize) 1
  ignore bdrvFlush
  getRefcount cluster

def allocClusters (size : Nat) : Io g Nat := do
  let offset ← allocClustersNoref fuel size
  updateRefcount fuel true offset size
  pure offset

def freeClusters (offset size : Nat) : Io g Unit := ignore (updateRefcount fuel false offset size)

/-- `qcow2_free_any_clusters` for one cluster. -/
def freeAnyClusters (e : Entry) : Io g Unit :=
  if isCompressed e then
    freeClusters fuel (e.toNat % 2 ^ g.csizeShift / 512 * 512)
      ((e.toNat / 2 ^ g.csizeShift % 2 ^ (g.clusterBits - 8) + 1) * 512)
  else freeClusters fuel e.toNat g.clusterSize

def setFreeByteOffset (offset : Int) : Io g Unit := modify fun d ↦ { d with freeByteOffset := offset }

/-- The start of a cluster for compressed data. When there is none, `free_byte_offset` keeps the negative value. -/
def startBytes : Io g Unit := do
  let d ← get
  if d.freeByteOffset = 0 then do
    match ← attempt (allocClusters fuel g.clusterSize) with
    | .ok offset => setFreeByteOffset offset
    | .error ⟨.failed errno, _⟩ => do
      setFreeByteOffset (-errno)
      throw (.failed errno)
    | .error ⟨e, _⟩ => throw e
  else pure ()

/-- One more compressed cluster is counted where it starts. The loop of `update_refcount` takes the table index of a
negative offset for the one it has a block of, and has none. -/
def countBytes (offset : Int) : Io g Unit :=
  if offset < 0 then throw .abort
  else ignore do
    let _ ← updateClusterRefcount fuel (offset.toNat / g.clusterSize)

def countShared (offset : Int) : Io g Unit :=
  if offset % g.clusterSize = 0 then pure () else countBytes fuel offset

/-- The branch of `qcow2_alloc_bytes` in which there is enough space in the cluster. -/
def placeBytes (size : Nat) (offset : Int) : Io g Int := do
  setFreeByteOffset (if (offset + size) % g.clusterSize = 0 then 0 else offset + size)
  countShared fuel offset
  pure offset

def extendBytes (size : Nat) (start : Int) : Io g Int := do
  let offset ← allocClusters fuel g.clusterSize
  if start - start % g.clusterSize + g.clusterSize = offset then do
    countBytes fuel start
    setFreeByteOffset (start + size)
    pure start
  else do
    setFreeByteOffset offset
    placeBytes fuel size offset

def takeBytes (size : Nat) (start : Int) : Io g Int :=
  if start % g.clusterSize + size ≤ g.clusterSize then placeBytes fuel size start else extendBytes fuel size start

def allocBytes (size : Nat) : Io g Int :=
  if size = 0 ∨ g.clusterSize < size then throw .abort
  else do
    startBytes fuel
    let d ← get
    let offset ← takeBytes fuel size d.freeByteOffset
    ignore bdrvFlush
    pure offset

end Allocation

end IDeviceEmulator.Qcow2.Handles
