import IDeviceEmulator.Qcow2.Counts

namespace IDeviceEmulator.Qcow2.Growth

open Hoare
open Handles (roundUp)
open Counts (Refcounts ignore blockIndex tableIndex blockOffset refcount Described)

abbrev Io := Counts.Io

section Arrays

variable {α : Type}

/-- A store to `a[i]`. -/
def put (a : List α) (i : Nat) (x : α) : Io (List α) := if i < a.length then pure (a.set i x) else throw .abort

/-- The first `n` stores of a loop over `a[base + i]`. -/
def fill (base : Nat) (value : Nat → α) : Nat → List α → Io (List α)
  | 0, a => pure a
  | n + 1, a => do
    let a ← fill base value n a
    put a (base + n) (value n)

/-- `memcpy` to the start of an array of zeros. -/
def copyInto (old : List Nat) (size : Nat) : Io (List Nat) :=
  if size < old.length then throw .abort else pure (old ++ List.replicate (size - old.length) 0)

end Arrays

section Code

variable (g : Geometry)

def uint32 (x : Nat) : Nat := x % 2 ^ 32

def uint64 (x : Nat) : Nat := x % 2 ^ 64

/-- `next_refcount_table_size`. The number of clusters that it counts with stays far below `2 ^ 32`. -/
def nextRefcountTableSize (tableSize minSize : Nat) : Nat :=
  uint32 (Handles.nextRefcountTableSize g tableSize (uint32 minSize))

def inSameRefcountBlock (a b : Int) : Prop :=
  a / (g.clusterSize * g.refcountBlockClusters) = b / (g.clusterSize * g.refcountBlockClusters)

instance (a b : Int) : Decidable (inSameRefcountBlock g a b) := inferInstanceAs (Decidable (_ = _))

/-- The clusters of the blocks that count a table of the given size, which is taken for bytes. -/
def blocksClusters (size : Nat) : Nat := 1 + roundUp (sizeToClusters g size) g.refcountBlockClusters

/-- The loop for the size of the new table. -/
def settleSize (tableSize blocksUsed : Nat) : Nat → Nat → Io (Nat × Nat)
  | 0, _ => throw .unfinished
  | rounds + 1, size =>
    let next := nextRefcountTableSize g tableSize
      (blocksUsed + roundUp (sizeToClusters g size + blocksClusters g size) g.refcountBlockClusters)
    if next = size then pure (next, blocksClusters g size) else settleSize tableSize blocksUsed rounds next

def fillTable (old : List Nat) (size index newBlock blocksUsed blocks metaOffset : Nat) : Io (List Nat) := do
  let table ← copyInto old size
  let table ← put table index newBlock
  fill blocksUsed (fun i ↦ metaOffset + i * g.clusterSize) blocks table

def fillBlocks (blocks n : Nat) : Io (List (BitVec 16)) :=
  fill 0 (fun _ ↦ 1#16) n (List.replicate (blocks * g.clusterSize / 2) 0#16)

/-- The new blocks as they are in the file from `meta_offset` on. -/
def writeBlocks (metaOffset : Nat) (blocks : List (BitVec 16)) : Io Unit :=
  modify fun s ↦
    { s with
      refcountBlock := fun offset ↦
        if metaOffset ≤ offset ∧ offset < metaOffset + 2 * blocks.length then
          fun i ↦ blocks[(offset - metaOffset) / 2 + i]?.getD 0
        else s.refcountBlock offset }

variable (update : Int → Int → Int → Io Unit)

/-- The new table becomes the one in use, and the old one is freed. -/
def switchTable (table : List Nat) (tableOffset : Nat) : Io Unit := do
  let s ← get
  set { s with refcountTable := table, refcountTableOffset := tableOffset }
  ignore (update s.refcountTableOffset (8 * s.refcountTable.length : Nat) (-1))
  modify fun t ↦ { t with freeClusterIndex := s.freeClusterIndex }

/-- The new table with its blocks is built and written. -/
def replaceTable (index newBlock blocksUsed size blocks metaOffset : Nat) : Io Unit := do
  let s ← get
  let table ← fillTable g s.refcountTable size index newBlock blocksUsed blocks metaOffset
  let entries ← fillBlocks g blocks (sizeToClusters g (8 * size) + blocks)
  writeBlocks metaOffset entries
  switchTable update table (uint64 (metaOffset + blocks * g.clusterSize))

variable (fuel : Nat)

def growTable (index newBlock : Nat) : Io Unit := do
  let s ← get
  let blocksUsed := roundUp s.freeClusterIndex g.refcountBlockClusters
  let (size, blocks) ← settleSize g s.refcountTable.length blocksUsed fuel
    (nextRefcountTableSize g s.refcountTable.length (blocksUsed + 1))
  let metaOffset := uint64 (blocksUsed * g.refcountBlockClusters * g.clusterSize)
  if metaOffset < s.freeClusterIndex * g.clusterSize then throw .abort
  else replaceTable g update index newBlock blocksUsed size blocks metaOffset

def zeroBlock (block : Nat) (entries : Nat → BitVec 16) : Io Unit :=
  modify fun s ↦ { s with refcountBlock := Function.update s.refcountBlock block entries }

/-- The new block counts itself, or is counted by another one. -/
def initBlock (newBlock : Nat) (cluster : Int) : Io Unit :=
  if inSameRefcountBlock g newBlock (cluster * g.clusterSize) then
    zeroBlock newBlock (Function.update (fun _ ↦ 0) (blockIndex g (newBlock / g.clusterSize : Nat)) 1)
  else do
    update newBlock g.clusterSize 1
    zeroBlock newBlock fun _ ↦ 0

/-- The block goes into the table, which grows if it is too small. -/
def hookUp (newBlock : Nat) (index : Nat) : Io (Nat × Int) := do
  let s ← get
  if index < s.refcountTable.length then do
    set { s with refcountTable := s.refcountTable.set index newBlock }
    pure (newBlock, 0)
  else do
    growTable g update fuel index newBlock
    pure (newBlock, Int.bmod newBlock (2 ^ 32))

def placeBlock (cluster newBlock : Int) : Io (Nat × Int) :=
  if newBlock < 0 then pure (0, Int.bmod newBlock (2 ^ 32))
  else do
    initBlock g update newBlock.toNat cluster
    hookUp g update fuel newBlock.toNat (tableIndex g cluster)

/-- `alloc_refcount_block` where there is no block yet. -/
def addBlock : Nat → Int → Io (Nat × Int)
  | 0, _ => throw .unfinished
  | depth + 1, cluster => do
    let newBlock ← Counts.allocClustersNoref g fuel g.clusterSize
    placeBlock g (Counts.updateRefcount g (addBlock depth) fuel) fuel cluster newBlock

def allocRefcountBlock (depth : Nat) (cluster : Int) : Io (Nat × Int) :=
  Counts.allocRefcountBlock g (addBlock g fuel depth) cluster

end Code

section Meaning

variable (g : Geometry)

/-- The clusters of the new refcount table and of the new refcount blocks. -/
def New (s t : Refcounts) (d : Nat) : Prop :=
  d ∈ span g t.refcountTableOffset (8 * t.refcountTable.length) ∨
    ∃ b ∈ t.refcountTable, b ≠ 0 ∧ b ∉ s.refcountTable ∧ b / g.clusterSize = d

/-- The clusters of the old refcount table. -/
def Old (s : Refcounts) (d : Nat) : Prop := d ∈ span g s.refcountTableOffset (8 * s.refcountTable.length)

instance (s t : Refcounts) (d : Nat) : Decidable (New g s t d) := inferInstanceAs (Decidable (_ ∨ _))

instance (s : Refcounts) (d : Nat) : Decidable (Old g s d) := inferInstanceAs (Decidable (_ ∈ _))

/-- The function succeeds with a block for the cluster. Of the refcounts that `refcount_table_index` can reach, only
those of the new structures and of the old table have changed. -/
def Succeeds (s : Refcounts) (cluster : Nat) : EStateM.Result Handles.Stop Refcounts (Nat × Int) → Prop
  | .ok (block, ret) t =>
    0 ≤ ret ∧ block ≠ 0 ∧ blockOffset g t cluster = block ∧
      ∀ d : Nat, d / g.refcountBlockClusters < 2 ^ 32 →
        Counts.getRefcount g t d =
          if New g s t d then 1
          else if Old g s d then Counts.getRefcount g s d - 1 else Counts.getRefcount g s d
  | .error _ _ => False

/-- The refcount structures count themselves. -/
structure Valid (s : Refcounts) : Prop where
  described : Described s
  blocks : ∀ b ∈ s.refcountTable, b ≠ 0 → g.clusterSize ∣ b ∧ refcount g s (b / g.clusterSize : Nat) ≠ 0
  table : ∀ d, Old g s d → refcount g s d ≠ 0

/-- Clusters up to `free_cluster_index` are being allocated, and the refcount table is too small for one of them. With
the blocks that are needed the size of a table fits in 31 bits, and the size of the file in 63. -/
structure Growing (s : Refcounts) (cluster : Nat) : Prop where
  valid : Valid g s
  beyond : s.refcountTable.length ≤ cluster / g.refcountBlockClusters
  before : cluster < s.freeClusterIndex
  entries : (s.freeClusterIndex + 2) / g.refcountBlockClusters + 2 ≤ 2 ^ 30
  bytes : (s.freeClusterIndex + 2) * g.clusterSize ≤ 2 ^ 62

/-- The cluster of the block that counts itself, with which the recursion ends. -/
def lastBlock (s : Refcounts) (cluster : Nat) : Nat :=
  if s.freeClusterIndex / g.refcountBlockClusters = cluster / g.refcountBlockClusters then s.freeClusterIndex
  else if (s.freeClusterIndex + 1) / g.refcountBlockClusters = s.freeClusterIndex / g.refcountBlockClusters then
    s.freeClusterIndex + 1
  else s.freeClusterIndex + 2

/-- The offset of the last block is not negative as an `int`, and the first size for the new table that is considered
takes at most all but two of the clusters that two blocks count. -/
def Fits (s : Refcounts) (cluster : Nat) : Prop :=
  lastBlock g s cluster * g.clusterSize % 2 ^ 32 < 2 ^ 31 ∧
    nextRefcountTableSize g s.refcountTable.length (roundUp (lastBlock g s cluster + 1) g.refcountBlockClusters + 1) ≤
      (g.clusterSize - 2) * g.l2Size

end Meaning

section Sizes

variable {g : Geometry}

/-- Sizes in terms of the entries of a cluster of the refcount table. -/
theorem sizes (g : Geometry) :
    g.clusterSize = 8 * g.l2Size ∧ g.refcountBlockClusters = 4 * g.l2Size ∧ 64 ≤ g.l2Size ∧ g.l2Size ≤ 2 ^ 18 := by
  have hlower := g.lower
  have hupper := g.upper
  have hbits : g.clusterBits = g.l2Bits + 3 ∧ g.clusterBits - 1 = g.l2Bits + 2 ∧ 6 ≤ g.l2Bits ∧ g.l2Bits ≤ 18 := by
    unfold Geometry.l2Bits
    omega
  obtain ⟨hcluster, hblock, hlow, hhigh⟩ := hbits
  refine ⟨?_, ?_, ?_, ?_⟩
  · rw [Geometry.clusterSize, Geometry.l2Size, hcluster, pow_add]
    omega
  · rw [Geometry.refcountBlockClusters, Geometry.l2Size, hblock, pow_add]
    omega
  · exact Nat.pow_le_pow_right (n := 2) (by decide) hlow
  · exact Nat.pow_le_pow_right (n := 2) (by decide) hhigh

theorem min_le_growSize (min fuel n : Nat) (hn : 0 < n) (hfuel : min ≤ n + fuel) : min ≤ growSize min fuel n := by
  induction fuel generalizing n with
  | zero => exact hfuel
  | succ fuel ih =>
    unfold growSize
    split_ifs with h
    · exact ih _ (by omega) (by omega)
    · omega

theorem growSize_le (min fuel n : Nat) : growSize min fuel n ≤ max n ((3 * min - 2) / 2) := by
  induction fuel generalizing n with
  | zero => exact le_max_left _ _
  | succ fuel ih =>
    unfold growSize
    split_ifs with h
    · refine (ih _).trans ?_
      omega
    · exact le_max_left _ _

theorem growSize_mono {min min' fuel fuel' : Nat} (hmin : min ≤ min') (hfuel : fuel ≤ fuel') (n : Nat) :
    growSize min fuel n ≤ growSize min' fuel' n := by
  induction fuel generalizing n fuel' with
  | zero => exact le_growSize _ _ _
  | succ fuel ih =>
    obtain ⟨k, rfl⟩ : ∃ k, fuel' = k + 1 := ⟨fuel' - 1, by omega⟩
    rw [growSize, growSize]
    split_ifs with h h'
    · exact ih (by omega) _
    · omega
    · exact le_trans (by omega) (le_growSize _ _ _)
    · exact le_rfl

theorem roundUp_le_iff {a b q : Nat} (hb : 0 < b) : roundUp a b ≤ q ↔ a ≤ q * b := by
  rw [roundUp, ← Nat.lt_succ_iff, Nat.div_lt_iff_lt_mul hb, Nat.succ_mul]
  omega

theorem roundUp_mul {a b e : Nat} (hb : 0 < b) (he : 0 < e) : roundUp (a * e) (b * e) = roundUp a b := by
  refine eq_of_forall_ge_iff fun q ↦ ?_
  rw [roundUp_le_iff hb, roundUp_le_iff (Nat.mul_pos hb he), ← Nat.mul_assoc]
  exact Nat.mul_le_mul_right_iff he

theorem roundUp_mul_self {a e : Nat} (he : 0 < e) : roundUp (a * e) e = a := by
  refine eq_of_forall_ge_iff fun q ↦ ?_
  rw [roundUp_le_iff he]
  exact Nat.mul_le_mul_right_iff he

theorem roundUp_eq_one {a b : Nat} (ha : 0 < a) (hab : a ≤ b) : roundUp a b = 1 := by
  have hb : 0 < b := by omega
  refine eq_of_forall_ge_iff fun q ↦ ?_
  rw [roundUp_le_iff hb]
  constructor
  · intro h
    by_contra hq
    obtain rfl : q = 0 := by omega
    omega
  · intro h
    exact hab.trans (Nat.le_mul_of_pos_left b h)

theorem roundUp_pos {a b : Nat} (ha : 0 < a) (hb : 0 < b) : 0 < roundUp a b := by
  by_contra h
  have hle := (roundUp_le_iff hb).mp (not_lt.mp h)
  omega

theorem roundUp_le_self {a b : Nat} (hb : 0 < b) : roundUp a b ≤ a :=
  (roundUp_le_iff hb).mpr (Nat.le_mul_of_pos_right a hb)

theorem sizeToClusters_entries (k : Nat) : sizeToClusters g (k * g.l2Size) = roundUp k 8 := by
  obtain ⟨hcluster, -, hlow, -⟩ := sizes g
  change roundUp (k * g.l2Size) g.clusterSize = _
  rw [hcluster, roundUp_mul (by decide) (by omega)]

/-- The clusters that a table takes in the file. -/
theorem sizeToClusters_table (k : Nat) : sizeToClusters g (8 * (k * g.l2Size)) = k := by
  obtain ⟨hcluster, -, hlow, -⟩ := sizes g
  change roundUp (8 * (k * g.l2Size)) g.clusterSize = _
  rw [hcluster, Nat.mul_left_comm, roundUp_mul_self (by omega)]

/-- The clusters of the next table size. -/
def nextClusters (g : Geometry) (tableSize min : Nat) : Nat :=
  growSize (min / g.l2Size + 1) (min / g.l2Size + 1) (max 1 (tableSize / g.l2Size))

variable {tableSize min min' : Nat}

theorem lt_nextClusters : min < nextClusters g tableSize min * g.l2Size := by
  obtain ⟨-, -, hlow, -⟩ := sizes g
  rw [← Nat.div_lt_iff_lt_mul (by omega)]
  exact min_le_growSize _ _ _ (by omega) (by omega)

theorem nextClusters_mono (h : min ≤ min') : nextClusters g tableSize min ≤ nextClusters g tableSize min' :=
  growSize_mono (Nat.succ_le_succ (Nat.div_le_div_right h)) (Nat.succ_le_succ (Nat.div_le_div_right h)) _

theorem nextClusters_le (htable : tableSize ≤ 2 ^ 30) (hmin : min ≤ 2 ^ 30 + 2 ^ 20) :
    nextClusters g tableSize min * g.l2Size < 2 ^ 31 := by
  obtain ⟨-, -, hlow, hhigh⟩ := sizes g
  have hle := growSize_le (min / g.l2Size + 1) (min / g.l2Size + 1) (max 1 (tableSize / g.l2Size))
  have hstart : max 1 (tableSize / g.l2Size) * g.l2Size ≤ 2 ^ 30 := by
    have hdiv := Nat.div_mul_le_self tableSize g.l2Size
    rcases max_choice 1 (tableSize / g.l2Size) with h | h <;> rw [h] <;> omega
  have hgrown : (3 * (min / g.l2Size + 1) - 2) / 2 * g.l2Size < 2 ^ 31 := by
    have hdiv := Nat.div_mul_le_self min g.l2Size
    have hhalf : (3 * (min / g.l2Size + 1) - 2) / 2 * 2 ≤ 3 * (min / g.l2Size) + 1 := by omega
    generalize (3 * (min / g.l2Size + 1) - 2) / 2 = half at hhalf ⊢
    have hmul := Nat.mul_le_mul_right g.l2Size hhalf
    rw [Nat.mul_right_comm, Nat.add_mul, Nat.mul_assoc 3] at hmul
    omega
  have hmul := Nat.mul_le_mul_right g.l2Size hle
  rcases max_choice (max 1 (tableSize / g.l2Size)) ((3 * (min / g.l2Size + 1) - 2) / 2) with h | h <;>
    rw [h] at hmul <;> unfold nextClusters <;> omega

theorem nextRefcountTableSize_eq (htable : tableSize ≤ 2 ^ 30) (hmin : min ≤ 2 ^ 30 + 2 ^ 20) :
    nextRefcountTableSize g tableSize min = nextClusters g tableSize min * g.l2Size := by
  have hle := nextClusters_le (g := g) htable hmin
  rw [nextRefcountTableSize, uint32, uint32, Nat.mod_eq_of_lt (a := min) (by omega)]
  exact Nat.mod_eq_of_lt (by change nextClusters g tableSize min * g.l2Size < 2 ^ 32; omega)

end Sizes

section Settling

variable {g : Geometry} {tableSize blocksUsed k : Nat} {s : Refcounts}

theorem nextClusters_pos {min : Nat} : 0 < nextClusters g tableSize min := by
  have hlt : min < nextClusters g tableSize min * g.l2Size := lt_nextClusters
  exact Nat.pos_of_ne_zero fun hzero ↦ by simp [hzero] at hlt

theorem blocksClusters_two (hk : 0 < k) (hle : k ≤ 8 * g.refcountBlockClusters) :
    blocksClusters g (k * g.l2Size) = 2 := by
  have heighth : roundUp k 8 ≤ g.refcountBlockClusters := (roundUp_le_iff (by decide)).mpr (by omega)
  rw [blocksClusters, sizeToClusters_entries, roundUp_eq_one (roundUp_pos hk (by decide)) heighth]

theorem settleSize_ok (htable : tableSize ≤ 2 ^ 30) (hused : blocksUsed ≤ 2 ^ 30)
    (hk : nextClusters g tableSize (blocksUsed + 1) + 2 ≤ g.clusterSize) (rounds : Nat) :
    settleSize g tableSize blocksUsed (rounds + 1) (nextClusters g tableSize (blocksUsed + 1) * g.l2Size) s =
      .ok (nextClusters g tableSize (blocksUsed + 1) * g.l2Size, 2) s := by
  obtain ⟨hcluster, hblock, hlow, -⟩ := sizes g
  have hpos : 0 < nextClusters g tableSize (blocksUsed + 1) := nextClusters_pos
  have heighth : roundUp (nextClusters g tableSize (blocksUsed + 1)) 8 ≤ g.l2Size :=
    (roundUp_le_iff (by decide)).mpr (by omega)
  have hround : roundUp (roundUp (nextClusters g tableSize (blocksUsed + 1)) 8 + 2) g.refcountBlockClusters = 1 :=
    roundUp_eq_one (by omega) (by omega)
  rw [settleSize, blocksClusters_two hpos (by omega), sizeToClusters_entries, hround,
    nextRefcountTableSize_eq htable (by omega), if_pos rfl]
  rfl

/-- The clusters that the loop adds up stay few. -/
theorem roundUp_meta_le (hk : k * g.l2Size < 2 ^ 31) :
    roundUp (sizeToClusters g (k * g.l2Size) + blocksClusters g (k * g.l2Size)) g.refcountBlockClusters ≤ 2 ^ 20 := by
  obtain ⟨-, hblock, hlow, -⟩ := sizes g
  have hk' : k * 64 ≤ k * g.l2Size := Nat.mul_le_mul_left k hlow
  have heighth := roundUp_le_self (a := k) (b := 8) (by decide)
  have hblocks := roundUp_le_self (a := roundUp k 8) (b := g.refcountBlockClusters) (by omega)
  have hmul : 2 ^ 20 * 256 ≤ 2 ^ 20 * g.refcountBlockClusters := Nat.mul_le_mul_left _ (by omega)
  rw [blocksClusters, sizeToClusters_entries, roundUp_le_iff (by omega)]
  omega

/-- The sizes that the loop comes to do not get smaller. -/
theorem settleSize_spec (htable : tableSize ≤ 2 ^ 30) (hused : blocksUsed ≤ 2 ^ 30) (rounds : Nat)
    (hk : nextClusters g tableSize (blocksUsed + 1) ≤ k) (hsize : k * g.l2Size < 2 ^ 31) :
    Triple (· = s) (settleSize g tableSize blocksUsed rounds (k * g.l2Size))
      (fun r t ↦ t = s ∧ ∃ k, nextClusters g tableSize (blocksUsed + 1) ≤ k ∧
        r = (k * g.l2Size, blocksClusters g (k * g.l2Size)))
      fun _ _ ↦ True := by
  obtain ⟨-, hblock, hlow, -⟩ := sizes g
  induction rounds generalizing k with
  | zero => exact triple_throw fun _ _ ↦ trivial
  | succ rounds ih =>
    have hmeta := roundUp_meta_le (g := g) hsize
    have hpos : 0 < roundUp (sizeToClusters g (k * g.l2Size) + blocksClusters g (k * g.l2Size))
        g.refcountBlockClusters := roundUp_pos (by unfold blocksClusters; omega) (by omega)
    unfold settleSize
    rw [nextRefcountTableSize_eq htable (by omega)]
    refine triple_ite (fun hsame ↦ triple_pure fun t ht ↦ ⟨ht, k, hk, ?_⟩) fun _ ↦
      ih (nextClusters_mono (by omega)) (nextClusters_le htable (by omega))
    rw [hsame]

/-- A table that takes all but one of the clusters that two blocks count, or more, is too large for its blocks. -/
theorem blocks_overflow (hk : g.clusterSize < k + 2) :
    blocksClusters g (k * g.l2Size) * g.clusterSize / 2 <
      sizeToClusters g (8 * (k * g.l2Size)) + blocksClusters g (k * g.l2Size) := by
  obtain ⟨hcluster, hblock, hlow, -⟩ := sizes g
  have hhalf : blocksClusters g (k * g.l2Size) * g.clusterSize / 2 =
      blocksClusters g (k * g.l2Size) * g.refcountBlockClusters := by
    rw [show g.clusterSize = g.refcountBlockClusters * 2 by omega, ← Nat.mul_assoc, Nat.mul_div_cancel _ (by decide)]
  rw [hhalf, sizeToClusters_table]
  by_cases hfew : k ≤ 8 * g.refcountBlockClusters
  · rw [blocksClusters_two (by omega) hfew]
    omega
  · have hmany : roundUp (roundUp k 8) g.refcountBlockClusters * g.refcountBlockClusters ≤
        roundUp k 8 + g.refcountBlockClusters - 1 := Nat.div_mul_le_self _ _
    have heighth : roundUp k 8 * 8 ≤ k + 8 - 1 := Nat.div_mul_le_self _ _
    rw [blocksClusters, sizeToClusters_entries, Nat.add_mul]
    omega

end Settling

section Filling

variable {α : Type} {base n : Nat} {value : Nat → α} {a : List α} {s : Refcounts}

theorem fill_ok (value : Nat → α) (s : Refcounts) (h : base + n ≤ a.length) :
    ∃ r, fill base value n a s = .ok r s ∧ r.length = a.length ∧
      ∀ j, r[j]? = if base ≤ j ∧ j < base + n then some (value (j - base)) else a[j]? := by
  induction n with
  | zero =>
    refine ⟨a, rfl, rfl, fun j ↦ ?_⟩
    rw [if_neg (by omega)]
  | succ n ih =>
    obtain ⟨r, hr, hlength, hget⟩ := ih (by omega)
    have hput : put r (base + n) (value n) s = .ok (r.set (base + n) (value n)) s := by
      rw [put, if_pos (by omega)]
      rfl
    refine ⟨r.set (base + n) (value n), ?_, by rw [List.length_set, hlength], fun j ↦ ?_⟩
    · rw [fill, bind_eq hr, hput]
    · rw [List.getElem?_set, hget]
      split_ifs with hj h₁ h₂ h₃ h₄
      · rw [← hj, Nat.add_sub_cancel_left]
      all_goals first | rfl | omega

/-- A loop that ends has stayed inside the array. -/
theorem fill_within :
    Triple (· = s) (fill base value n a) (fun r _ ↦ r.length = a.length ∧ (0 < n → base + n ≤ a.length))
      fun _ _ ↦ True := by
  induction n generalizing s with
  | zero => exact triple_pure fun _ _ ↦ ⟨rfl, fun h ↦ absurd h (lt_irrefl 0)⟩
  | succ n ih =>
    refine ih.bind fun r ↦ triple_ite (fun hin ↦ triple_pure fun t ht ↦ ?_) fun _ ↦ triple_throw fun _ _ ↦ trivial
    rw [List.length_set]
    exact ⟨ht.1, fun _ ↦ by omega⟩

variable {g : Geometry} {old : List Nat} {size index newBlock blocksUsed blocks metaOffset : Nat}

theorem fillTable_ok (hold : old.length ≤ size) (hindex : index < size) (hblocks : blocksUsed + blocks ≤ size) :
    ∃ table, fillTable g old size index newBlock blocksUsed blocks metaOffset s = .ok table s ∧ table.length = size ∧
      ∀ j, table[j]? =
        if blocksUsed ≤ j ∧ j < blocksUsed + blocks then some (metaOffset + (j - blocksUsed) * g.clusterSize)
        else if j = index then some newBlock
        else if j < old.length then old[j]? else if j < size then some 0 else none := by
  have hlength : (old ++ List.replicate (size - old.length) 0).length = size := by
    rw [List.length_append, List.length_replicate]
    omega
  have hcopy : copyInto old size s = .ok (old ++ List.replicate (size - old.length) 0) s := by
    rw [copyInto, if_neg (by omega)]
    rfl
  have hput : put (old ++ List.replicate (size - old.length) 0) index newBlock s =
      .ok ((old ++ List.replicate (size - old.length) 0).set index newBlock) s := by
    rw [put, if_pos (by omega)]
    rfl
  have hfits : blocksUsed + blocks ≤ ((old ++ List.replicate (size - old.length) 0).set index newBlock).length := by
    rw [List.length_set]
    omega
  obtain ⟨table, htable, hsize, hget⟩ := fill_ok (fun i ↦ metaOffset + i * g.clusterSize) s hfits
  refine ⟨table, ?_, by rw [hsize, List.length_set, hlength], fun j ↦ ?_⟩
  · rw [fillTable, bind_eq hcopy, bind_eq hput, htable]
  · rw [hget, List.getElem?_set, hlength]
    by_cases hin : blocksUsed ≤ j ∧ j < blocksUsed + blocks
    · rw [if_pos hin, if_pos hin]
    · rw [if_neg hin, if_neg hin]
      by_cases hj : index = j
      · rw [if_pos hj, if_pos hj.symm, if_pos hindex]
      · rw [if_neg hj, if_neg (Ne.symm hj), List.getElem?_append, List.getElem?_replicate]
        split_ifs <;> first | rfl | omega

theorem fillBlocks_ok (h : n ≤ blocks * g.clusterSize / 2) :
    ∃ entries, fillBlocks g blocks n s = .ok entries s ∧ entries.length = blocks * g.clusterSize / 2 ∧
      ∀ j, entries[j]?.getD 0 = if j < n then 1 else 0 := by
  have hfits : 0 + n ≤ (List.replicate (blocks * g.clusterSize / 2) 0#16).length := by
    rw [List.length_replicate]
    omega
  obtain ⟨entries, hentries, hlength, hget⟩ := fill_ok (fun _ ↦ 1#16) s hfits
  refine ⟨entries, hentries, by rw [hlength, List.length_replicate], fun j ↦ ?_⟩
  rw [hget, List.getElem?_replicate]
  split_ifs <;> first | rfl | omega

end Filling

section States

variable {g : Geometry} {s t : Refcounts} {c d : Nat}

theorem blockClusters_pos : 0 < g.refcountBlockClusters := Nat.two_pow_pos _

theorem blockIndex_nat (d : Nat) : blockIndex g d = d % g.refcountBlockClusters := by
  rw [blockIndex, ← Int.natCast_emod, Int.toNat_natCast]

theorem tableIndex_nat (h : d / g.refcountBlockClusters < 2 ^ 32) :
    tableIndex g d = d / g.refcountBlockClusters := by
  have hlt : ((d / g.refcountBlockClusters : Nat) : Int) < 2 ^ 32 := by exact_mod_cast h
  rw [tableIndex, ← Int.natCast_ediv, Int.emod_eq_of_lt (Int.natCast_nonneg _) hlt, Int.toNat_natCast]

/-- What the structures say of a cluster, in natural numbers. -/
theorem refcount_nat (s : Refcounts) (d : Nat) :
    refcount g s d =
      match s.refcountTable[d / g.refcountBlockClusters]? with
      | none => 0
      | some b => if b = 0 then 0 else (s.refcountBlock b (d % g.refcountBlockClusters)).toNat := by
  have hindex : ((d : Int) / g.refcountBlockClusters).toNat = d / g.refcountBlockClusters := by
    rw [← Int.natCast_ediv, Int.toNat_natCast]
  rw [refcount, hindex]
  cases s.refcountTable[d / g.refcountBlockClusters]? with
  | none => rfl
  | some b =>
    have hneg : ((d : Int) < 0 ∨ b = 0) ↔ b = 0 := or_iff_right (by omega)
    simp only [Counts.refcountIn, blockIndex_nat, hneg]

theorem refcount_none (h : s.refcountTable[d / g.refcountBlockClusters]? = none) : refcount g s d = 0 := by
  rw [refcount_nat, h]

theorem refcount_zero (h : s.refcountTable[d / g.refcountBlockClusters]? = some 0) : refcount g s d = 0 := by
  rw [refcount_nat, h]
  rfl

theorem refcount_some {b : Nat} (h : s.refcountTable[d / g.refcountBlockClusters]? = some b) (hb : b ≠ 0) :
    refcount g s d = (s.refcountBlock b (d % g.refcountBlockClusters)).toNat := by
  rw [refcount_nat, h]
  exact if_neg hb

/-- A cluster with references has a block that counts it. -/
theorem counted_of_refcount (h : refcount g s d ≠ 0) :
    d / g.refcountBlockClusters < s.refcountTable.length ∧ Counts.Counted g s d := by
  cases hget : s.refcountTable[d / g.refcountBlockClusters]? with
  | none => exact absurd (refcount_none hget) h
  | some b =>
    refine ⟨(List.getElem?_eq_some_iff.mp hget).1, by omega, b, ?_, ?_⟩
    · rintro rfl
      exact h (refcount_zero hget)
    · rwa [← Int.natCast_ediv, Int.toNat_natCast]

theorem getRefcount_eq_refcount (h : d / g.refcountBlockClusters < 2 ^ 32) :
    Counts.getRefcount g s d = refcount g s d := by
  rw [Counts.getRefcount, blockOffset, tableIndex_nat h, blockIndex_nat, refcount_nat]
  cases s.refcountTable[d / g.refcountBlockClusters]? <;> rfl

end States

section Layout

variable {g : Geometry} {s t : Refcounts} {c d own used k : Nat}

/-- The state in which a call of `alloc_refcount_block` finds that the table is too small. -/
structure Level (g : Geometry) (s : Refcounts) (c : Nat) : Prop where
  valid : Valid g s
  beyond : s.refcountTable.length ≤ c / g.refcountBlockClusters
  before : c < s.freeClusterIndex
  entries : s.freeClusterIndex / g.refcountBlockClusters + 2 ≤ 2 ^ 30
  bytes : s.freeClusterIndex * g.clusterSize ≤ 2 ^ 62

/-- What is in use lies in front of the clusters that are being allocated. -/
theorem Level.used_lt (h : Level g s c) (hd : refcount g s d ≠ 0) :
    d / g.refcountBlockClusters < c / g.refcountBlockClusters := by
  have hlt := (counted_of_refcount hd).1
  have hle := h.beyond
  omega

theorem Level.block_lt (h : Level g s c) {b : Nat} (hb : b ∈ s.refcountTable) (hne : b ≠ 0) :
    b < s.freeClusterIndex * g.clusterSize := by
  obtain ⟨hdvd, hcount⟩ := h.valid.blocks b hb hne
  have hlt : b / g.clusterSize < c := lt_of_not_ge fun hle ↦
    absurd (h.used_lt hcount) (not_lt.mpr (Nat.div_le_div_right hle))
  have hbefore := h.before
  rw [← Nat.div_mul_cancel hdvd]
  exact Nat.mul_lt_mul_of_pos_right (by omega) Writes.clusterSize_pos

/-- The refcount structures after the switch to a table of `k` clusters. The block of cluster `own`, which counts
itself, is the last of those that are used; behind it two more blocks count themselves and the table. -/
structure Laid (g : Geometry) (s t : Refcounts) (own used k : Nat) : Prop where
  index : own / g.refcountBlockClusters + 1 = used
  few : k + 2 ≤ g.clusterSize
  short : k * g.l2Size < 2 ^ 31
  room : used + 2 ≤ k * g.l2Size
  length : t.refcountTable.length = k * g.l2Size
  place : t.refcountTableOffset = (used * g.refcountBlockClusters + 2) * g.clusterSize
  entry : ∀ j, t.refcountTable[j]? =
    if used ≤ j ∧ j < used + 2 then some ((used * g.refcountBlockClusters + (j - used)) * g.clusterSize)
    else if j + 1 = used then some (own * g.clusterSize)
    else if j < s.refcountTable.length then s.refcountTable[j]? else if j < k * g.l2Size then some 0 else none
  old : ∀ b < own * g.clusterSize, t.refcountBlock b = s.refcountBlock b
  self : ∀ i, t.refcountBlock (own * g.clusterSize) i = if i = own % g.refcountBlockClusters then 1 else 0
  new : ∀ j < 2, ∀ i < g.refcountBlockClusters,
    t.refcountBlock ((used * g.refcountBlockClusters + j) * g.clusterSize) i =
      if j * g.refcountBlockClusters + i < k + 2 then 1 else 0

/-- The state is about to be left with a new block that counts itself. -/
structure Ending (g : Geometry) (s t : Refcounts) (c own used k : Nat) : Prop where
  level : Level g s c
  own_eq : own = s.freeClusterIndex
  same : own / g.refcountBlockClusters = c / g.refcountBlockClusters
  laid : Laid g s t own used k

theorem Ending.lt_used (h : Ending g s t c own used k) :
    s.refcountTable.length < used ∧ own < used * g.refcountBlockClusters := by
  have hbeyond := h.level.beyond
  have hindex := h.laid.index
  have hsame := h.same
  refine ⟨by omega, ?_⟩
  rw [← Nat.div_lt_iff_lt_mul blockClusters_pos]
  omega

/-- Where the entries of the new table come from. -/
theorem Ending.entry_cases (h : Ending g s t c own used k) {j b : Nat} (hget : t.refcountTable[j]? = some b)
    (hb : b ≠ 0) :
    (j < s.refcountTable.length ∧ s.refcountTable[j]? = some b ∧ b < own * g.clusterSize) ∨
      (j + 1 = used ∧ b = own * g.clusterSize) ∨
      ∃ i < 2, j = used + i ∧ b = (used * g.refcountBlockClusters + i) * g.clusterSize ∧ own * g.clusterSize < b := by
  obtain ⟨-, hown⟩ := h.lt_used
  rw [h.laid.entry] at hget
  split_ifs at hget with hnew hself hold hzero
  · refine .inr (.inr ⟨j - used, by omega, by omega, (Option.some.inj hget).symm, ?_⟩)
    rw [← Option.some.inj hget]
    exact Nat.mul_lt_mul_of_pos_right (by omega) Writes.clusterSize_pos
  · exact .inr (.inl ⟨hself, (Option.some.inj hget).symm⟩)
  · refine .inl ⟨hold, hget, ?_⟩
    rw [h.own_eq]
    exact h.level.block_lt (List.mem_of_getElem? hget) hb
  · exact absurd (Option.some.inj hget).symm hb

theorem Ending.described (h : Ending g s t c own used k) : Described t := by
  have hshort := h.laid.short
  refine ⟨by rw [h.laid.length]; exact hshort.le, fun i j b hb hi hj ↦ ?_⟩
  rcases h.entry_cases hi hb with ⟨-, hi, hlt⟩ | ⟨hi, heq⟩ | ⟨m, hm, hi, heq, hlt⟩ <;>
    rcases h.entry_cases hj hb with ⟨-, hj, hlt'⟩ | ⟨hj, heq'⟩ | ⟨n, hn, hj, heq', hlt'⟩
  · exact h.level.valid.described.distinct i j b hb hi hj
  any_goals omega
  have hmn := Nat.eq_of_mul_eq_mul_right Writes.clusterSize_pos (heq.symm.trans heq')
  omega

theorem Ending.own_pos (h : Ending g s t c own used k) : 0 < own * g.clusterSize := by
  have hbefore := h.level.before
  exact Nat.mul_pos (by rw [h.own_eq]; omega) Writes.clusterSize_pos

theorem Ending.not_mem (h : Ending g s t c own used k) {b : Nat} (hb : own * g.clusterSize ≤ b) :
    b ∉ s.refcountTable := by
  intro hmem
  have hpos := h.own_pos
  have hlt := h.level.block_lt hmem (by omega)
  rw [← h.own_eq] at hlt
  omega

theorem Ending.new_iff (h : Ending g s t c own used k) (d : Nat) :
    New g s t d ↔
      d = own ∨ used * g.refcountBlockClusters ≤ d ∧ d < used * g.refcountBlockClusters + (k + 2) := by
  have hcluster := Writes.clusterSize_pos (g := g)
  have hroom := h.laid.room
  have hlength := h.laid.length
  obtain ⟨hused, -⟩ := h.lt_used
  rw [New, h.laid.place, hlength, span_aligned, sizeToClusters_table, List.mem_range'_1]
  constructor
  · rintro (htable | ⟨b, hmem, hb, hnew, rfl⟩)
    · omega
    · obtain ⟨j, hj, hget⟩ := List.mem_iff_getElem.mp hmem
      have hget' : t.refcountTable[j]? = some b := by rw [List.getElem?_eq_getElem hj, hget]
      rcases h.entry_cases hget' hb with ⟨-, hold, -⟩ | ⟨-, rfl⟩ | ⟨i, hi, -, rfl, -⟩
      · exact absurd (List.mem_of_getElem? hold) hnew
      · exact .inl (Nat.mul_div_cancel _ hcluster)
      · rw [Nat.mul_div_cancel _ hcluster]
        omega
  · rintro (rfl | ⟨hlow, hhigh⟩)
    · refine .inr ⟨d * g.clusterSize, ?_, h.own_pos.ne', h.not_mem le_rfl, Nat.mul_div_cancel _ hcluster⟩
      refine List.mem_of_getElem? (i := used - 1) ?_
      rw [h.laid.entry, if_neg (by omega), if_pos (by omega)]
    · by_cases hblock : d < used * g.refcountBlockClusters + 2
      · have hlt := h.lt_used.2
        have hle := Nat.mul_le_mul_right g.clusterSize (by omega : own ≤ d)
        have hpos := h.own_pos
        refine .inr ⟨d * g.clusterSize, ?_, by omega, h.not_mem hle, Nat.mul_div_cancel _ hcluster⟩
        refine List.mem_of_getElem? (i := used + (d - used * g.refcountBlockClusters)) ?_
        rw [h.laid.entry, if_pos (by omega), Nat.add_sub_cancel_left, Nat.add_sub_cancel' hlow]
      · exact .inl (by omega)

/-- The switch counts the new structures once and leaves all other refcounts as they are. -/
theorem Ending.refcount_eq (h : Ending g s t c own used k) (d : Nat) :
    refcount g t d = if New g s t d then 1 else refcount g s d := by
  have hblock := blockClusters_pos (g := g)
  have hd := Nat.div_add_mod' d g.refcountBlockClusters
  have hmod := Nat.mod_lt d hblock
  have hcs : g.clusterSize = 2 * g.refcountBlockClusters := by
    obtain ⟨hcluster, hentries, -, -⟩ := sizes g
    omega
  have hindex := h.laid.index
  have hfew := h.laid.few
  obtain ⟨hlen, hown⟩ := h.lt_used
  have hentry := h.laid.entry (d / g.refcountBlockClusters)
  have hnone : s.refcountTable.length ≤ d / g.refcountBlockClusters → refcount g s d = 0 := fun hle ↦
    refcount_none (List.getElem?_eq_none hle)
  have hself : d = own ↔ d / g.refcountBlockClusters + 1 = used ∧
      d % g.refcountBlockClusters = own % g.refcountBlockClusters := by
    constructor
    · rintro rfl
      exact ⟨hindex, rfl⟩
    · rintro ⟨hdiv, hsame⟩
      rw [← hd, hsame, show d / g.refcountBlockClusters = own / g.refcountBlockClusters by omega, Nat.div_add_mod']
  simp only [h.new_iff d, hself]
  by_cases hnew : used ≤ d / g.refcountBlockClusters ∧ d / g.refcountBlockClusters < used + 2
  · -- the blocks behind those that are used
    rw [if_pos hnew] at hentry
    have hb : (used * g.refcountBlockClusters + (d / g.refcountBlockClusters - used)) * g.clusterSize ≠ 0 := by
      have hpos := h.own_pos
      have hle := Nat.mul_le_mul_right g.clusterSize
        (by omega : own ≤ used * g.refcountBlockClusters + (d / g.refcountBlockClusters - used))
      omega
    rw [refcount_some hentry hb, h.laid.new _ (by omega) _ hmod, hnone (by omega)]
    have hsplit : (d / g.refcountBlockClusters - used) * g.refcountBlockClusters + d % g.refcountBlockClusters +
        used * g.refcountBlockClusters = d := by
      rw [Nat.sub_mul]
      have hle := Nat.mul_le_mul_right g.refcountBlockClusters hnew.1
      omega
    split_ifs <;> first | rfl | omega
  · rw [if_neg hnew] at hentry
    have hbefore : d / g.refcountBlockClusters < used → d < used * g.refcountBlockClusters := fun hlt ↦
      (Nat.div_lt_iff_lt_mul hblock).mp hlt
    by_cases howner : d / g.refcountBlockClusters + 1 = used
    · rw [if_pos howner] at hentry
      have hlt := hbefore (by omega)
      rw [refcount_some hentry h.own_pos.ne', h.laid.self, hnone (by omega)]
      split_ifs <;> first | rfl | omega
    · rw [if_neg howner] at hentry
      have hnot : ¬ (used * g.refcountBlockClusters ≤ d ∧ d < used * g.refcountBlockClusters + (k + 2)) := by
        rintro ⟨hlow, hhigh⟩
        have hle : used + 2 ≤ d / g.refcountBlockClusters := by
          by_contra hlt
          have hlt' := hbefore (by omega)
          omega
        have hmul := Nat.mul_le_mul_right g.refcountBlockClusters hle
        rw [Nat.add_mul] at hmul
        omega
      rw [if_neg (by omega)]
      split_ifs at hentry with hold hzero
      · rw [refcount_nat, refcount_nat, hentry]
        cases hget : s.refcountTable[d / g.refcountBlockClusters]? with
        | none => rfl
        | some b =>
          dsimp only
          split_ifs with hb
          · rfl
          · have hlt := h.level.block_lt (List.mem_of_getElem? hget) hb
            rw [← h.own_eq] at hlt
            rw [h.laid.old b hlt]
      · rw [refcount_zero hentry, hnone (by omega)]
      · rw [refcount_none hentry, hnone (by omega)]

end Layout

section Freeing

variable {g : Geometry} {s t : Refcounts} {start size : Nat} {add : Int → Io (Nat × Int)}

/-- Clusters that are counted are freed. -/
theorem updateRefcount_down (hs : Described s) (hused : ∀ d ∈ span g start size, refcount g s d ≠ 0)
    (hbytes : ∀ d ∈ span g start size, (d + 1) * g.clusterSize < 2 ^ 63) (depth : Nat) :
    ∃ t, Counts.updateRefcount g add (depth + 1) start size (-1) s = .ok () t ∧
      t.refcountTable = s.refcountTable ∧ t.refcountTableOffset = s.refcountTableOffset ∧
      ∀ d : Nat, refcount g t d = if d ∈ span g start size then refcount g s d - 1 else refcount g s d := by
  have hcluster := Counts.clusterSize_pos (g := g)
  by_cases hsize : size = 0
  · subst hsize
    exact ⟨s, rfl, rfl, rfl, fun d ↦ (if_neg List.not_mem_nil).symm⟩
  · have hpos : (0 : Int) < size := by omega
    have htouched (d : Nat) : d ∈ span g start size ↔
        (start : Int) / g.clusterSize ≤ d ∧ (d : Int) ≤ (start + size - 1) / g.clusterSize := by
      rw [← Counts.touches_iff_mem_span, Counts.touches_iff hpos]
    have hle : (start : Int) / g.clusterSize ≤ (start + size - 1) / g.clusterSize :=
      Int.ediv_le_ediv hcluster (by omega)
    obtain ⟨last, hlast⟩ : ∃ last : Nat, ((start : Int) + size - 1) / g.clusterSize = last :=
      Int.eq_ofNat_of_zero_le (Int.ediv_nonneg (by omega) hcluster.le)
    have hend : (((start : Int) + size - 1) / g.clusterSize + 1) * g.clusterSize < 2 ^ 63 := by
      rw [hlast] at hle ⊢
      exact_mod_cast hbytes last ((htouched last).mpr (by rw [hlast]; exact ⟨hle, le_rfl⟩))
    have hloop : Counts.LoopEnds g (-1) _ _ s (Counts.loopOver g add (-1) _ _ s) :=
      Counts.loopOver_ends hs (Int.le_add_one hle) hend fun c hc hc' ↦ by
      obtain ⟨d, rfl⟩ := Int.eq_ofNat_of_zero_le ((Int.ediv_nonneg (Int.natCast_nonneg start) hcluster.le).trans hc)
      exact (counted_of_refcount (hused d ((htouched d).mpr ⟨hc, hc'⟩))).2
    have hwithin := Int.lt_mul_of_ediv_lt hcluster (Int.lt_succ (((start : Int) + size - 1) / g.clusterSize))
    rw [Counts.updateRefcount_loop _ _ _ hpos (by omega)]
    rcases hr : Counts.loopOver g add (-1) ((start : Int) / g.clusterSize) ((start + size - 1) / g.clusterSize) s with
      ⟨⟨_, _ | e⟩, t⟩ | ⟨e, t⟩
    · rw [hr] at hloop
      rw [bind_eq hr]
      refine ⟨t, rfl, hloop.2.table, hloop.2.place, fun d ↦ ?_⟩
      have hd := hloop.2.counts d
      simp only [Int.lt_add_one_iff, ← htouched d] at hd
      split_ifs at hd ⊢ with hin
      · have hne := hused d hin
        omega
      · omega
    · -- no refcount would leave the range
      rw [hr] at hloop
      obtain ⟨j, hkj, hjl, -, -, -, hleaves⟩ := hloop
      obtain ⟨d, rfl⟩ := Int.eq_ofNat_of_zero_le ((Int.ediv_nonneg (Int.natCast_nonneg start) hcluster.le).trans hkj)
      have hne := hused d ((htouched d).mpr ⟨hkj, hjl⟩)
      have hlt := Counts.refcount_lt (g := g) s d
      unfold Counts.Leaves at hleaves
      omega
    · rw [hr] at hloop
      exact hloop.elim

end Freeing

section Growth

variable {g : Geometry} {s t m : Refcounts} {c own used k : Nat} {add : Int → Io (Nat × Int)}

/-- What is left by a call that has grown the table. -/
structure Grew (g : Geometry) (s t : Refcounts) (c block : Nat) : Prop where
  described : Described t
  block_eq : block = s.freeClusterIndex * g.clusterSize
  index : t.refcountTable[c / g.refcountBlockClusters]? = some block
  place : s.freeClusterIndex * g.clusterSize ≤ t.refcountTableOffset
  zero : ∀ i, s.refcountTable.length ≤ i → i < s.freeClusterIndex / g.refcountBlockClusters →
    i ≠ c / g.refcountBlockClusters → t.refcountTable[i]? = some 0
  entry : ∀ b ∈ t.refcountTable, b ≠ 0 → b ∈ s.refcountTable ∨ s.freeClusterIndex * g.clusterSize ≤ b
  refcounts : ∀ d : Nat, refcount g t d =
    if New g s t d then 1 else if Old g s d then refcount g s d - 1 else refcount g s d

theorem Level.not_old (h : Level g s c) {d : Nat}
    (hd : c / g.refcountBlockClusters ≤ d / g.refcountBlockClusters) : ¬ Old g s d := by
  intro hold
  have hlt := h.used_lt (h.valid.table d hold)
  omega

/-- The state after the old table has been freed. -/
theorem Ending.grew (h : Ending g s m c own used k) (htable : t.refcountTable = m.refcountTable)
    (hplace : t.refcountTableOffset = m.refcountTableOffset)
    (hcounts : ∀ d : Nat, refcount g t d = if Old g s d then refcount g m d - 1 else refcount g m d) :
    Grew g s t c (own * g.clusterSize) := by
  have hindex := h.laid.index
  have hsame := h.same
  have hroom := h.laid.room
  obtain ⟨hlen, hown⟩ := h.lt_used
  have hnew (d : Nat) : New g s t d ↔ New g s m d := by rw [New, New, htable, hplace]
  refine ⟨⟨?_, ?_⟩, by rw [h.own_eq], ?_, ?_, fun i hi hlt hne ↦ ?_, fun b hmem hb ↦ ?_, fun d ↦ ?_⟩
  · rw [htable]
    exact h.described.length_le
  · rw [htable]
    exact h.described.distinct
  · rw [htable, h.laid.entry, if_neg (by omega), if_pos (by omega)]
  · rw [hplace, h.laid.place, ← h.own_eq]
    exact Nat.mul_le_mul_right _ (by omega)
  · rw [← h.own_eq] at hlt
    rw [htable, h.laid.entry, if_neg (by omega), if_neg (by omega), if_neg (by omega), if_pos (by omega)]
  · rw [htable] at hmem
    obtain ⟨j, hget⟩ := List.mem_iff_getElem?.mp hmem
    rw [← h.own_eq]
    rcases h.entry_cases hget hb with ⟨-, hold, -⟩ | ⟨-, rfl⟩ | ⟨i, -, -, -, hlt⟩
    · exact .inl (List.mem_of_getElem? hold)
    · exact .inr le_rfl
    · exact .inr hlt.le
  · rw [hcounts, h.refcount_eq]
    simp only [hnew]
    by_cases hn : New g s m d
    · have hold : ¬ Old g s d := h.level.not_old (by
        rcases (h.new_iff d).mp hn with rfl | ⟨hlow, -⟩
        · omega
        · have hle := (Nat.le_div_iff_mul_le blockClusters_pos).mpr hlow
          omega)
      rw [if_pos hn, if_neg hold, if_pos hn]
    · simp only [if_neg hn]

end Growth

section Running

variable {g : Geometry} {s t m : Refcounts} {c own used k : Nat} {update : Int → Int → Int → Io Unit}

/-- The state in which the table begins to grow, with the new block in the cache. -/
def started (g : Geometry) (s : Refcounts) : Refcounts :=
  { s with
    freeClusterIndex := s.freeClusterIndex + 1
    refcountBlock := Function.update s.refcountBlock (s.freeClusterIndex * g.clusterSize)
      (Function.update (fun _ ↦ 0) (s.freeClusterIndex % g.refcountBlockClusters) 1) }

theorem roundUp_succ (n : Nat) : roundUp (n + 1) g.refcountBlockClusters = n / g.refcountBlockClusters + 1 := by
  have hpos := blockClusters_pos (g := g)
  rw [roundUp, show n + 1 + g.refcountBlockClusters - 1 = n + g.refcountBlockClusters by omega,
    Nat.add_div_right _ hpos]

/-- The number of clusters of the new table, unless the loop goes on. -/
def firstClusters (g : Geometry) (s : Refcounts) (own : Nat) : Nat :=
  nextClusters g s.refcountTable.length (own / g.refcountBlockClusters + 1 + 1)

theorem settleSize_started (hlen : s.refcountTable.length ≤ 2 ^ 30) (hown : own / g.refcountBlockClusters + 1 ≤ 2 ^ 30)
    (hfew : firstClusters g s own + 2 ≤ g.clusterSize) (rounds : Nat) (t : Refcounts) :
    settleSize g s.refcountTable.length (roundUp (own + 1) g.refcountBlockClusters) (rounds + 1)
        (nextRefcountTableSize g s.refcountTable.length (roundUp (own + 1) g.refcountBlockClusters + 1)) t =
      .ok (firstClusters g s own * g.l2Size, 2) t := by
  rw [roundUp_succ, nextRefcountTableSize_eq hlen (by omega)]
  exact settleSize_ok hlen hown hfew rounds

theorem replaceTable_overflows {index newBlock blocksUsed size blocks metaOffset : Nat}
    (h : blocks * g.clusterSize / 2 < sizeToClusters g (8 * size) + blocks) :
    Triple (· = t) (replaceTable g update index newBlock blocksUsed size blocks metaOffset) (fun _ _ ↦ False)
      fun _ _ ↦ True := by
  refine Triple.bind (R := fun _ _ ↦ True) (fun _ _ ↦ trivial) fun s ↦ ?_
  refine Triple.bind (R := fun _ _ ↦ True) ?_ fun table ↦ triple_of_forall fun u _ ↦ ?_
  · intro u _
    cases fillTable g s.refcountTable size index newBlock blocksUsed blocks metaOffset u <;> trivial
  · refine fill_within.bind fun entries v hv ↦ ?_
    have hlength : blocks * g.clusterSize / 2 < _ := h
    have hin := hv.2 (by omega)
    rw [List.length_replicate] at hin
    omega

/-- A table that is too large for its blocks is never put in place. -/
theorem growTable_overflows (hlen : t.refcountTable.length ≤ 2 ^ 30)
    (hown : own / g.refcountBlockClusters + 1 ≤ 2 ^ 30) (hfree : t.freeClusterIndex = own + 1)
    (hmany : g.clusterSize < firstClusters g t own + 2) (fuel index newBlock : Nat) :
    Triple (· = t) (growTable g update fuel index newBlock) (fun _ _ ↦ False) fun _ _ ↦ True := by
  intro s hs
  subst hs
  unfold growTable
  rw [get_bind, hfree, roundUp_succ, nextRefcountTableSize_eq hlen (by omega)]
  refine (settleSize_spec hlen hown fuel le_rfl (nextClusters_le hlen (by omega))).bind
    (fun r ↦ triple_of_forall fun u ⟨hu, k, hk, hr⟩ ↦ ?_) s rfl
  subst hr
  refine triple_ite (fun _ ↦ triple_throw fun _ _ ↦ trivial) fun _ ↦ ?_
  have hle : firstClusters g s own ≤ k := hk
  exact replaceTable_overflows (blocks_overflow (by omega))

/-- The state in which the new table is the one in use, and the old one has not been freed. -/
def switched (g : Geometry) (s : Refcounts) (metaOffset : Nat) (table : List Nat) (entries : List (BitVec 16)) :
    Refcounts where
  refcountTable := table
  refcountTableOffset := metaOffset + 2 * g.clusterSize
  refcountBlock := fun offset ↦
    if metaOffset ≤ offset ∧ offset < metaOffset + 2 * entries.length then
      fun i ↦ entries[(offset - metaOffset) / 2 + i]?.getD 0
    else s.refcountBlock offset
  freeClusterIndex := s.freeClusterIndex

theorem switched_block_before {metaOffset b : Nat} {table : List Nat} {entries : List (BitVec 16)}
    (h : b < metaOffset) : (switched g s metaOffset table entries).refcountBlock b = s.refcountBlock b :=
  if_neg fun hin ↦ absurd hin.1 (not_le.mpr h)

theorem switched_block_in {metaOffset b : Nat} {table : List Nat} {entries : List (BitVec 16)}
    (h : metaOffset ≤ b ∧ b < metaOffset + 2 * entries.length) (i : Nat) :
    (switched g s metaOffset table entries).refcountBlock b i = entries[(b - metaOffset) / 2 + i]?.getD 0 :=
  congrFun (if_pos h) i

/-- The end of `growTable`. -/
def freeOld (s : Refcounts) (update : Int → Int → Int → Io Unit) : Io Unit := do
  ignore (update s.refcountTableOffset (8 * s.refcountTable.length : Nat) (-1))
  modify fun t ↦ { t with freeClusterIndex := s.freeClusterIndex }

/-- A table of `k` clusters that is put in place. -/
theorem replaceTable_eq (update : Int → Int → Int → Io Unit) {index n blocksUsed metaOffset : Nat}
    (hfew : k + 2 ≤ g.clusterSize) (hbytes : metaOffset + 2 * g.clusterSize < 2 ^ 64)
    (hold : s.refcountTable.length ≤ k * g.l2Size) (hindex : index < k * g.l2Size)
    (hblocks : blocksUsed + 2 ≤ k * g.l2Size) :
    ∃ table entries, replaceTable g update index n blocksUsed (k * g.l2Size) 2 metaOffset s =
        freeOld s update (switched g s metaOffset table entries) ∧
      (table.length = k * g.l2Size ∧ ∀ j, table[j]? =
        if blocksUsed ≤ j ∧ j < blocksUsed + 2 then some (metaOffset + (j - blocksUsed) * g.clusterSize)
        else if j = index then some n
        else if j < s.refcountTable.length then s.refcountTable[j]? else if j < k * g.l2Size then some 0 else none) ∧
      entries.length = g.clusterSize ∧ ∀ j, entries[j]?.getD 0 = if j < k + 2 then 1 else 0 := by
  have htwo : 2 * g.clusterSize / 2 = g.clusterSize := Nat.mul_div_cancel_left _ (by decide)
  have hn : sizeToClusters g (8 * (k * g.l2Size)) + 2 ≤ 2 * g.clusterSize / 2 := by
    rw [sizeToClusters_table, htwo]
    exact hfew
  obtain ⟨table, htable, hlength, hget⟩ := fillTable_ok (s := s) (g := g) hold hindex hblocks
  obtain ⟨entries, hentries, hcount, hvalue⟩ := fillBlocks_ok (s := s) hn
  rw [htwo] at hcount
  rw [sizeToClusters_table] at hvalue
  refine ⟨table, entries, ?_, ⟨hlength, hget⟩, hcount, hvalue⟩
  rw [replaceTable, get_bind, bind_eq htable, bind_eq hentries, uint64, Nat.mod_eq_of_lt hbytes]
  rfl

theorem growTable_laid (h : Level g s c) (hown : own = s.freeClusterIndex)
    (hsame : own / g.refcountBlockClusters = c / g.refcountBlockClusters)
    (hfew : firstClusters g s own + 2 ≤ g.clusterSize) (rounds : Nat) :
    ∃ m, Laid g s m own (own / g.refcountBlockClusters + 1) (firstClusters g s own) ∧
      growTable g update (rounds + 1) (own / g.refcountBlockClusters) (own * g.clusterSize) (started g s) =
        freeOld (started g s) update m := by
  obtain ⟨hcluster, hblock, hlow, hhigh⟩ := sizes g
  have hentries := h.entries
  have hbytes := h.bytes
  have hbeyond := h.beyond
  rw [← hown] at hentries hbytes
  have hroom : own / g.refcountBlockClusters + 1 + 1 < firstClusters g s own * g.l2Size := lt_nextClusters
  have hshort : firstClusters g s own * g.l2Size < 2 ^ 31 := nextClusters_le (by omega) (by omega)
  have hbefore : own < (own / g.refcountBlockClusters + 1) * g.refcountBlockClusters := by
    rw [← Nat.div_lt_iff_lt_mul blockClusters_pos]
    omega
  have hmeta : (own / g.refcountBlockClusters + 1) * g.refcountBlockClusters * g.clusterSize ≤ 2 ^ 62 + 2 ^ 42 := by
    have hdiv := Nat.mul_le_mul_right g.clusterSize (Nat.div_mul_le_self own g.refcountBlockClusters)
    have hblocks : g.refcountBlockClusters * g.clusterSize ≤ 2 ^ 20 * 2 ^ 21 := Nat.mul_le_mul (by omega) (by omega)
    rw [Nat.succ_mul, Nat.add_mul]
    omega
  have hbehind : own * g.clusterSize + g.clusterSize ≤
      (own / g.refcountBlockClusters + 1) * g.refcountBlockClusters * g.clusterSize := by
    rw [← Nat.succ_mul]
    exact Nat.mul_le_mul_right _ hbefore
  have hlen : (started g s).refcountTable.length ≤ firstClusters g s own * g.l2Size := by
    change s.refcountTable.length ≤ _
    omega
  have hbytes' : (own / g.refcountBlockClusters + 1) * g.refcountBlockClusters * g.clusterSize + 2 * g.clusterSize <
      2 ^ 64 := by omega
  have hindex : own / g.refcountBlockClusters < firstClusters g s own * g.l2Size := by omega
  obtain ⟨table, entries, hrun, ⟨hlength, hget⟩, hcount, hvalue⟩ :=
    replaceTable_eq update (n := own * g.clusterSize) hfew hbytes' hlen hindex hroom
  refine ⟨switched g (started g s) ((own / g.refcountBlockClusters + 1) * g.refcountBlockClusters * g.clusterSize) table
    entries, ⟨rfl, hfew, hshort, hroom, hlength, ?_, fun j ↦ ?_, fun b hb ↦ ?_, fun i ↦ ?_, fun j hj i hi ↦ ?_⟩, ?_⟩
  · exact (Nat.add_mul _ 2 _).symm
  · have hentry := hget j
    have hindex : j = own / g.refcountBlockClusters ↔ j + 1 = own / g.refcountBlockClusters + 1 :=
      Nat.succ_inj.symm
    simp only [hindex] at hentry
    rw [Nat.add_mul _ (j - _)]
    exact hentry
  · rw [switched_block_before (by omega)]
    rw [hown] at hb
    exact Function.update_of_ne hb.ne _ _
  · rw [switched_block_before (by omega), hown]
    simp only [started, Function.update_self, Function.update_apply]
  · have hj' : j * g.clusterSize ≤ 1 * g.clusterSize := Nat.mul_le_mul_right _ (by omega)
    have hin : (own / g.refcountBlockClusters + 1) * g.refcountBlockClusters * g.clusterSize ≤
          ((own / g.refcountBlockClusters + 1) * g.refcountBlockClusters + j) * g.clusterSize ∧
        ((own / g.refcountBlockClusters + 1) * g.refcountBlockClusters + j) * g.clusterSize <
          (own / g.refcountBlockClusters + 1) * g.refcountBlockClusters * g.clusterSize + 2 * entries.length := by
      rw [hcount, Nat.add_mul _ j]
      omega
    rw [switched_block_in hin, Nat.add_mul _ j, Nat.add_sub_cancel_left,
      show g.clusterSize = g.refcountBlockClusters * 2 by omega, ← Nat.mul_assoc, Nat.mul_div_cancel _ (by decide),
      hvalue]
  · have hshort' : s.refcountTable.length ≤ 2 ^ 30 := by omega
    have hown' : own / g.refcountBlockClusters + 1 ≤ 2 ^ 30 := by omega
    have hsettle := settleSize_started hshort' hown' hfew rounds (started g s)
    have hfree : (started g s).freeClusterIndex = own + 1 := by rw [hown]; rfl
    have htable : (started g s).refcountTable = s.refcountTable := rfl
    rw [growTable, get_bind, hfree, htable, bind_eq hsettle]
    dsimp only
    rw [roundUp_succ, uint64, Nat.mod_eq_of_lt (by omega), if_neg (by rw [Nat.succ_mul own]; omega), hrun]

end Running

section Levels

variable {g : Geometry} {s t m : Refcounts} {c own used k : Nat}

theorem ignore_ok {x : Io Unit} (h : x s = .ok () t) : ignore x s = .ok () t := by
  simp only [ignore, Counts.attempt, Leases.attempt, bind, EStateM.bind, h, pure, EStateM.pure]

theorem Ending.freeOld (h : Ending g s m c own used k) (add : Int → Io (Nat × Int)) (depth : Nat) :
    ∃ t, freeOld (started g s) (Counts.updateRefcount g add (depth + 1)) m = .ok () t ∧
      Grew g s t c (own * g.clusterSize) := by
  have hcounts : ∀ d, Old g s d → refcount g m d ≠ 0 := by
    intro d hold
    rw [h.refcount_eq]
    split_ifs
    · exact one_ne_zero
    · exact h.level.valid.table d hold
  have hbytes : ∀ d, Old g s d → (d + 1) * g.clusterSize < 2 ^ 63 := by
    intro d hold
    have hlt := Nat.lt_of_div_lt_div (h.level.used_lt (h.level.valid.table d hold))
    have hbefore := h.level.before
    have hle : (d + 1) * g.clusterSize ≤ s.freeClusterIndex * g.clusterSize := Nat.mul_le_mul_right _ (by omega)
    have hmax := h.level.bytes
    omega
  obtain ⟨u, hu, htable, hplace, hfreed⟩ := updateRefcount_down h.described hcounts hbytes depth
  refine ⟨{ u with freeClusterIndex := (started g s).freeClusterIndex }, ?_, h.grew htable hplace hfreed⟩
  rw [Growth.freeOld]
  exact bind_eq (ignore_ok hu)

theorem allocClustersNoref_next (hfree : Counts.getRefcount g s s.freeClusterIndex = 0)
    (hbytes : (s.freeClusterIndex + 1) * g.clusterSize < 2 ^ 63) (fuel : Nat) :
    Counts.allocClustersNoref g (fuel + 2) g.clusterSize s =
      .ok ((s.freeClusterIndex * g.clusterSize : Nat) : Int) { s with freeClusterIndex := s.freeClusterIndex + 1 } := by
  have hpos := Counts.clusterSize_pos (g := g)
  have hle := Writes.clusterSize_le (g := g)
  have hround : Counts.int64 ((g.clusterSize : Int) + (g.clusterSize - 1)) s =
      .ok (g.clusterSize + (g.clusterSize - 1)) s := by
    rw [Counts.int64, if_pos (by omega)]
    rfl
  have hone : Int.bmod (((g.clusterSize : Int) + (g.clusterSize - 1)) / g.clusterSize) (2 ^ 32) = 1 := by
    rw [Counts.clusters_eq hpos (by omega), Int.ediv_eq_zero_of_lt (by omega) (by omega)]
    rfl
  have hend : (((s.freeClusterIndex + 1 : Nat) : Int) - 1) * g.clusterSize =
      ((s.freeClusterIndex * g.clusterSize : Nat) : Int) := by
    push_cast
    rw [Int.add_sub_cancel]
  rw [Nat.succ_mul] at hbytes
  rw [Counts.allocClustersNoref, bind_eq hround, hone, Counts.searchFree, get_bind, if_neg (by decide)]
  change Counts.searchFree g 1 (fuel + 1) (if Counts.getRefcount g s s.freeClusterIndex = 0 then 0 + 1 else 0)
    { s with freeClusterIndex := s.freeClusterIndex + 1 } = _
  rw [if_pos hfree, Counts.searchFree, get_bind, if_pos (by decide), hend, Counts.int64, if_pos (by omega)]
  rfl

theorem inSameRefcountBlock_iff (a b : Nat) :
    inSameRefcountBlock g (a * g.clusterSize : Nat) (b * g.clusterSize) ↔
      a / g.refcountBlockClusters = b / g.refcountBlockClusters := by
  have hdiv (n : Nat) :
      n * g.clusterSize / (g.clusterSize * g.refcountBlockClusters) = n / g.refcountBlockClusters := by
    rw [Nat.mul_comm n]
    exact Nat.mul_div_mul_left _ _ Writes.clusterSize_pos
  rw [← hdiv a, ← hdiv b]
  unfold inSameRefcountBlock
  exact_mod_cast Iff.rfl

theorem Level.index (h : Level g s c) : tableIndex g c = c / g.refcountBlockClusters := by
  have hentries := h.entries
  have hle := Nat.div_le_div_right (c := g.refcountBlockClusters) h.before.le
  exact tableIndex_nat (by omega)

/-- The new block is the first cluster behind those that are being allocated. -/
theorem Level.alloc (h : Level g s c) (fuel : Nat) :
    Counts.allocClustersNoref g (fuel + 2) g.clusterSize s =
      .ok ((s.freeClusterIndex * g.clusterSize : Nat) : Int) { s with freeClusterIndex := s.freeClusterIndex + 1 } := by
  have hentries := h.entries
  have hbytes := h.bytes
  have hbeyond := h.beyond
  have hle := Writes.clusterSize_le (g := g)
  have hdiv := Nat.div_le_div_right (c := g.refcountBlockClusters) h.before.le
  refine allocClustersNoref_next ?_ (by rw [Nat.succ_mul]; omega) fuel
  rw [getRefcount_eq_refcount (by omega), refcount_none (List.getElem?_eq_none (by omega))]

theorem placeBlock_nat (update : Int → Int → Int → Io Unit) (fuel n : Nat) (cluster : Int) :
    placeBlock g update fuel cluster (n : Int) =
      (initBlock g update n cluster >>= fun _ ↦ hookUp g update fuel n (tableIndex g cluster)) := by
  rw [placeBlock, if_neg (by omega), Int.toNat_natCast]

theorem addBlock_started (h : Level g s c)
    (hsame : s.freeClusterIndex / g.refcountBlockClusters = c / g.refcountBlockClusters) (fuel depth : Nat) :
    addBlock g (fuel + 2) (depth + 1) c s =
      (growTable g (Counts.updateRefcount g (addBlock g (fuel + 2) depth) (fuel + 2)) (fuel + 2)
          (s.freeClusterIndex / g.refcountBlockClusters) (s.freeClusterIndex * g.clusterSize) >>= fun _ ↦
        pure (s.freeClusterIndex * g.clusterSize, Int.bmod (s.freeClusterIndex * g.clusterSize : Nat) (2 ^ 32)))
        (started g s) := by
  have hbeyond := h.beyond
  have hinit : initBlock g (Counts.updateRefcount g (addBlock g (fuel + 2) depth) (fuel + 2))
      (s.freeClusterIndex * g.clusterSize) c { s with freeClusterIndex := s.freeClusterIndex + 1 } =
      .ok () (started g s) := by
    rw [initBlock, if_pos ((inSameRefcountBlock_iff _ _).mpr hsame), Nat.mul_div_cancel _ Writes.clusterSize_pos,
      blockIndex_nat]
    rfl
  rw [addBlock, bind_eq (h.alloc fuel), placeBlock_nat, bind_eq hinit, hookUp, get_bind, h.index, ← hsame]
  exact congrFun (if_neg (by change ¬ _ < s.refcountTable.length; omega)) _

theorem addBlock_same (h : Level g s c)
    (hsame : s.freeClusterIndex / g.refcountBlockClusters = c / g.refcountBlockClusters)
    (hfew : firstClusters g s s.freeClusterIndex + 2 ≤ g.clusterSize) (fuel depth : Nat) :
    ∃ t, addBlock g (fuel + 2) (depth + 1) c s =
        .ok (s.freeClusterIndex * g.clusterSize, Int.bmod (s.freeClusterIndex * g.clusterSize : Nat) (2 ^ 32)) t ∧
      Grew g s t c (s.freeClusterIndex * g.clusterSize) := by
  obtain ⟨m, hlaid, hgrow⟩ := growTable_laid h rfl hsame hfew (fuel + 1)
  obtain ⟨t, hfree, hgrew⟩ := Ending.freeOld ⟨h, rfl, hsame, hlaid⟩ (addBlock g (fuel + 2) depth) (fuel + 1)
  refine ⟨t, ?_, hgrew⟩
  rw [addBlock_started h hsame, bind_eq (hgrow.trans hfree)]
  rfl

theorem addBlock_overflows (h : Level g s c)
    (hsame : s.freeClusterIndex / g.refcountBlockClusters = c / g.refcountBlockClusters)
    (hmany : g.clusterSize < firstClusters g s s.freeClusterIndex + 2) (fuel depth : Nat) :
    ∀ r t, addBlock g (fuel + 2) (depth + 1) c s ≠ .ok r t := by
  intro r t hok
  have hbeyond := h.beyond
  have hentries := h.entries
  rw [addBlock_started h hsame] at hok
  obtain ⟨a, u, hgrow, -⟩ := bind_ok hok
  have hlen : (started g s).refcountTable.length ≤ 2 ^ 30 := by
    change s.refcountTable.length ≤ _
    omega
  exact (growTable_overflows hlen (by omega) rfl hmany _ _ _).ok rfl hgrow

end Levels

section OneCluster

variable {g : Geometry} {s t : Refcounts} {add : Int → Io (Nat × Int)} {d b : Nat} {ret : Int}

/-- What one round of `update_refcount` does with a block that has been added. -/
def afterAdd (g : Geometry) (d : Nat) : Nat × Int → Io (Option Nat)
  | (block, ret) =>
    if ret < 0 then throw (.failed ret.natAbs)
    else do
      Counts.changeRefcount g 1 d (some block)
      pure (some block)

theorem updateCluster_missing (hzero : blockOffset g s d = 0) :
    Counts.updateCluster g add 1 none (-1) d s = (add d >>= afterAdd g d) s := by
  have hdiv : (d : Int) / g.refcountBlockClusters ≠ -1 := by
    have hpos := Int.ediv_nonneg (Int.natCast_nonneg d) (Int.natCast_nonneg g.refcountBlockClusters)
    omega
  simp only [Counts.updateCluster, Counts.nextBlock, if_neg hdiv, Counts.allocRefcountBlock, bind, EStateM.bind, get,
    getThe, MonadStateOf.get, Hoare.get_apply, if_pos hzero, pure, EStateM.pure]
  cases add d s <;> rfl

/-- The loop of `update_refcount` over one cluster. -/
def oneCluster (g : Geometry) (add : Int → Io (Nat × Int)) (d : Nat) : Io (Int × Option Handles.Failure) := do
  match ← Counts.attempt (Counts.updateCluster g add 1 none (-1) d) with
  | .error e => pure ((d : Int) * g.clusterSize, some e)
  | .ok _ => pure (((d : Int) + 1) * g.clusterSize, none)

theorem loopOver_one (hbytes : d * g.clusterSize + g.clusterSize < 2 ^ 63) :
    Counts.loopOver g add 1 d d = oneCluster g add d := by
  have hpos := Counts.clusterSize_pos (g := g)
  have hnext : (d : Int) * g.clusterSize + g.clusterSize = (d + 1) * g.clusterSize := by rw [Int.add_mul, Int.one_mul]
  have hfits : (d : Int) * g.clusterSize + g.clusterSize < 2 ^ 63 := by exact_mod_cast hbytes
  have hrest (t : Refcounts) (held : Option Nat) :
      (do
        let next ← Counts.int64 ((d : Int) * g.clusterSize + g.clusterSize)
        Counts.updateLoop g add 1 (d * g.clusterSize) 1 next held (d / g.refcountBlockClusters)) t =
        .ok (((d : Int) + 1) * g.clusterSize, none) t := by
    rw [Counts.int64, if_pos hfits, hnext]
    change Counts.updateLoop g add 1 (d * g.clusterSize) 1 ((d + 1) * g.clusterSize) held _ t = _
    rw [Counts.updateLoop, if_pos (by omega)]
    rfl
  funext s
  rw [Counts.loopOver, Int.sub_self, show (0 + 2 : Int).toNat = 1 + 1 from rfl, Counts.updateLoop,
    if_neg (lt_irrefl _), Int.mul_ediv_cancel _ hpos.ne', oneCluster]
  simp only [bind, EStateM.bind]
  rcases Counts.attempt (Counts.updateCluster g add 1 none (-1) d) s with ⟨e | held, t⟩ | ⟨e, t⟩
  · rfl
  · exact hrest t held
  · rfl

theorem updateRefcount_one (hbytes : (d + 1) * g.clusterSize < 2 ^ 63) (depth : Nat) :
    Counts.updateRefcount g add (depth + 1) (d * g.clusterSize : Nat) g.clusterSize 1 s =
      (oneCluster g add d >>= Counts.afterLoop fun clusterOffset ↦
        Counts.updateRefcount g add depth (d * g.clusterSize : Nat)
          (clusterOffset - (d * g.clusterSize : Nat)) (-1)) s := by
  have hpos := Counts.clusterSize_pos (g := g)
  rw [Nat.succ_mul] at hbytes
  have hfirst : ((d * g.clusterSize : Nat) : Int) / g.clusterSize = d := by
    rw [Int.natCast_mul, Int.mul_ediv_cancel _ hpos.ne']
  have hlast : (((d * g.clusterSize : Nat) : Int) + g.clusterSize - 1) / g.clusterSize = d := by
    rw [Int.add_sub_assoc, Int.add_comm, Int.natCast_mul, Int.add_mul_ediv_right _ _ hpos.ne',
      Int.ediv_eq_zero_of_lt (by omega) (by omega), Int.zero_add]
  rw [Counts.updateRefcount_loop _ _ _ hpos (by omega), hfirst, hlast, loopOver_one hbytes]

end OneCluster

section Nesting

variable {g : Geometry} {s t u : Refcounts} {c d b : Nat} {ret : Int} {add : Int → Io (Nat × Int)}

/-- The cluster at `free_cluster_index` has been taken. -/
def taken (s : Refcounts) : Refcounts := { s with freeClusterIndex := s.freeClusterIndex + 1 }

/-- The new block of cluster `own` is in the table, after block `b` has been added to count it. -/
def hooked (g : Geometry) (t : Refcounts) (c own b : Nat) : Refcounts :=
  { Counts.setRefcount g t b own 1 with
    refcountTable := t.refcountTable.set (c / g.refcountBlockClusters) (own * g.clusterSize)
    refcountBlock := Function.update (Counts.setRefcount g t b own 1).refcountBlock (own * g.clusterSize) fun _ ↦ 0 }

/-- The new structures lie behind the clusters that were being allocated. -/
theorem Grew.le_of_new (h : Grew g s t c b) (hd : New g s t d) : s.freeClusterIndex ≤ d := by
  rcases hd with htable | ⟨n, hmem, hn, hnew, rfl⟩
  · have hlt := (Counts.mem_span_iff.mp htable).2.1
    have hlt' := lt_of_mul_lt_mul_right (h.place.trans_lt hlt) (Nat.zero_le _)
    omega
  · rcases h.entry n hmem hn with hold | hle
    · exact absurd hold hnew
    · exact (Nat.le_div_iff_mul_le Writes.clusterSize_pos).mpr hle

theorem Level.refcount_beyond (h : Level g s c) (hd : c / g.refcountBlockClusters ≤ d / g.refcountBlockClusters) :
    refcount g s d = 0 := by
  by_contra hne
  have hlt := h.used_lt hne
  omega

/-- The new block is not counted before its refcount is set. -/
theorem Level.refcount_own (h : Level g s c) (ht : Grew g (taken s) t s.freeClusterIndex b) :
    refcount g t s.freeClusterIndex = 0 := by
  have hle := Nat.div_le_div_right (c := g.refcountBlockClusters) h.before.le
  have hnew : ¬ New g (taken s) t s.freeClusterIndex := fun hnew ↦ Nat.not_succ_le_self _ (ht.le_of_new hnew)
  have hold : ¬ Old g (taken s) s.freeClusterIndex := h.not_old hle
  rw [ht.refcounts, if_neg hnew, if_neg hold]
  exact h.refcount_beyond hle

theorem Grew.refcount_set (ht : Grew g (taken s) t s.freeClusterIndex b) (d : Nat) :
    refcount g (Counts.setRefcount g t b s.freeClusterIndex 1) d =
      if d = s.freeClusterIndex then 1 else refcount g t d := by
  have hb : b ≠ 0 := by
    rw [ht.block_eq]
    exact (Nat.mul_pos (Nat.succ_pos _) Writes.clusterSize_pos).ne'
  have hcounted : Counts.Counted g t s.freeClusterIndex := by
    refine ⟨Int.natCast_nonneg _, b, hb, ?_⟩
    rw [← Int.natCast_ediv, Int.toNat_natCast]
    exact ht.index
  have hoffset : blockOffset g t s.freeClusterIndex = b := by
    have hget := (hcounted.entry ht.described).2
    rw [← Int.natCast_ediv, Int.toNat_natCast, ht.index] at hget
    exact (Option.some.inj hget).symm
  have hset := Counts.refcount_setRefcount ht.described hcounted zero_le_one (by decide) d
  rw [hoffset] at hset
  split_ifs with hd
  · rw [if_pos (by exact_mod_cast hd)] at hset
    exact_mod_cast hset
  · rw [if_neg (by exact_mod_cast hd)] at hset
    exact_mod_cast hset

theorem hooked_get (ht : Grew g (taken s) t s.freeClusterIndex b) (hle : c ≤ s.freeClusterIndex) (i : Nat) :
    (hooked g t c s.freeClusterIndex b).refcountTable[i]? =
      if i = c / g.refcountBlockClusters then some (s.freeClusterIndex * g.clusterSize) else t.refcountTable[i]? := by
  have hlt := (List.getElem?_eq_some_iff.mp ht.index).1
  have hdiv := Nat.div_le_div_right (c := g.refcountBlockClusters) hle
  change (t.refcountTable.set _ _)[i]? = _
  rw [List.getElem?_set]
  split_ifs with h h' h'' <;> first | rfl | omega

/-- The block for the cluster, and what the recursion has added, is what is new. -/
theorem Level.new_hooked (h : Level g s c)
    (hne : s.freeClusterIndex / g.refcountBlockClusters ≠ c / g.refcountBlockClusters)
    (ht : Grew g (taken s) t s.freeClusterIndex b) (d : Nat) :
    New g s (hooked g t c s.freeClusterIndex b) d ↔ d = s.freeClusterIndex ∨ New g (taken s) t d := by
  have hget := hooked_get ht h.before.le
  have hlen : (hooked g t c s.freeClusterIndex b).refcountTable.length = t.refcountTable.length := List.length_set
  have hpos : s.freeClusterIndex * g.clusterSize ≠ 0 :=
    (Nat.mul_pos (Nat.zero_lt_of_lt h.before) Writes.clusterSize_pos).ne'
  have hfresh : s.freeClusterIndex * g.clusterSize ∉ s.refcountTable := fun hmem ↦
    absurd (h.block_lt hmem hpos) (lt_irrefl _)
  have hdiv := Nat.div_le_div_right (c := g.refcountBlockClusters) h.before.le
  have hdiv' := Nat.div_le_div_right (c := g.refcountBlockClusters) (Nat.le_add_right s.freeClusterIndex 1)
  have hzero : t.refcountTable[c / g.refcountBlockClusters]? = some 0 :=
    ht.zero _ h.beyond (by change _ < (s.freeClusterIndex + 1) / _; omega) hne.symm
  rw [New, New, hlen]
  constructor
  · rintro (htable | ⟨n, hmem, hn, hnew, rfl⟩)
    · exact .inr (.inl htable)
    · rcases List.mem_or_eq_of_mem_set hmem with hmem | rfl
      · exact .inr (.inr ⟨n, hmem, hn, hnew, rfl⟩)
      · exact .inl (Nat.mul_div_cancel _ Writes.clusterSize_pos)
  · rintro (rfl | htable | ⟨n, hmem, hn, hnew, rfl⟩)
    · refine .inr ⟨_, List.mem_of_getElem? (i := c / g.refcountBlockClusters) ?_, hpos, hfresh,
        Nat.mul_div_cancel _ Writes.clusterSize_pos⟩
      rw [hget, if_pos rfl]
    · exact .inl htable
    · obtain ⟨i, hi⟩ := List.mem_iff_getElem?.mp hmem
      refine .inr ⟨n, List.mem_of_getElem? (i := i) ?_, hn, hnew, rfl⟩
      rw [hget, if_neg, hi]
      rintro rfl
      exact hn (Option.some.inj (hi.symm.trans hzero))

theorem Level.entry_ne (h : Level g s c) (ht : Grew g (taken s) t s.freeClusterIndex b) {n : Nat}
    (hmem : n ∈ t.refcountTable) (hn : n ≠ 0) : n ≠ s.freeClusterIndex * g.clusterSize := by
  rcases ht.entry n hmem hn with hold | hle
  · exact (h.block_lt hold hn).ne
  · exact ne_of_gt (lt_of_lt_of_le (Nat.mul_lt_mul_of_pos_right (Nat.lt_succ_self _) Writes.clusterSize_pos) hle)

theorem Level.refcount_hooked (h : Level g s c) (ht : Grew g (taken s) t s.freeClusterIndex b) (d : Nat) :
    refcount g (hooked g t c s.freeClusterIndex b) d =
      if d / g.refcountBlockClusters = c / g.refcountBlockClusters then 0
      else if d = s.freeClusterIndex then 1 else refcount g t d := by
  have hget := hooked_get ht h.before.le (d / g.refcountBlockClusters)
  have hpos : s.freeClusterIndex * g.clusterSize ≠ 0 :=
    (Nat.mul_pos (Nat.zero_lt_of_lt h.before) Writes.clusterSize_pos).ne'
  by_cases hd : d / g.refcountBlockClusters = c / g.refcountBlockClusters
  · rw [if_pos hd] at hget ⊢
    rw [refcount_some hget hpos]
    have hzero : (hooked g t c s.freeClusterIndex b).refcountBlock (s.freeClusterIndex * g.clusterSize) = fun _ ↦ 0 :=
      Function.update_self _ _ _
    rw [hzero]
    rfl
  · rw [if_neg hd] at hget ⊢
    rw [← ht.refcount_set]
    have hset : (Counts.setRefcount g t b s.freeClusterIndex 1).refcountTable[d / g.refcountBlockClusters]? =
      t.refcountTable[d / g.refcountBlockClusters]? := rfl
    rw [refcount_nat, refcount_nat, hget, hset]
    cases hentry : t.refcountTable[d / g.refcountBlockClusters]? with
    | none => rfl
    | some n =>
      dsimp only
      split_ifs with hn
      · rfl
      · have hblock : (hooked g t c s.freeClusterIndex b).refcountBlock n =
            (Counts.setRefcount g t b s.freeClusterIndex 1).refcountBlock n := 
              Function.update_of_ne (h.entry_ne ht (List.mem_of_getElem? hentry) hn) _ _
        rw [hblock]

/-- The block that goes into the longer table leaves what a call promises. -/
theorem Level.grew_hooked (h : Level g s c)
    (hne : s.freeClusterIndex / g.refcountBlockClusters ≠ c / g.refcountBlockClusters)
    (ht : Grew g (taken s) t s.freeClusterIndex b) :
    Grew g s (hooked g t c s.freeClusterIndex b) c (s.freeClusterIndex * g.clusterSize) := by
  have hget := hooked_get ht h.before.le
  have hdiv := Nat.div_le_div_right (c := g.refcountBlockClusters) h.before.le
  have hdiv' := Nat.div_le_div_right (c := g.refcountBlockClusters) (Nat.le_add_right s.freeClusterIndex 1)
  have hsucc : s.freeClusterIndex * g.clusterSize ≤ (taken s).freeClusterIndex * g.clusterSize :=
    Nat.mul_le_mul_right _ (Nat.le_succ _)
  refine ⟨⟨?_, fun i j n hn hi hj ↦ ?_⟩, rfl, by rw [hget, if_pos rfl], hsucc.trans ht.place, fun i hi hlt hi' ↦ ?_,
    fun n hmem hn ↦ ?_, fun d ↦ ?_⟩
  · exact List.length_set.trans_le ht.described.length_le
  · rw [hget] at hi hj
    split_ifs at hi hj with hic hjc hjc
    · rw [hic, hjc]
    · exact absurd (Option.some.inj hi).symm (h.entry_ne ht (List.mem_of_getElem? hj) hn)
    · exact absurd (Option.some.inj hj).symm (h.entry_ne ht (List.mem_of_getElem? hi) hn)
    · exact ht.described.distinct i j n hn hi hj
  · rw [hget, if_neg hi']
    exact ht.zero i hi (lt_of_lt_of_le hlt hdiv') hlt.ne
  · rcases List.mem_or_eq_of_mem_set hmem with hmem | rfl
    · exact (ht.entry n hmem hn).imp_right hsucc.trans
    · exact .inr le_rfl
  · rw [h.refcount_hooked ht, ht.refcounts]
    simp only [h.new_hooked hne ht]
    by_cases hd : d / g.refcountBlockClusters = c / g.refcountBlockClusters
    · -- the clusters of the block are not in use
      have hold := h.not_old hd.ge
      have hnew : ¬ (d = s.freeClusterIndex ∨ New g (taken s) t d) := by
        rintro (rfl | hnew)
        · exact hne hd
        · have hle := Nat.div_le_div_right (c := g.refcountBlockClusters) (ht.le_of_new hnew)
          change (s.freeClusterIndex + 1) / _ ≤ _ at hle
          omega
      rw [if_pos hd, if_neg hnew, if_neg hold, h.refcount_beyond hd.ge]
    · rw [if_neg hd]
      by_cases hd' : d = s.freeClusterIndex
      · rw [if_pos hd', if_pos (.inl hd')]
      · simp only [hd', false_or]
        rfl

theorem attempt_ok {α : Type} {x : Io α} {a : α} (h : x s = .ok a t) : Counts.attempt x s = .ok (.ok a) t := by
  simp only [Counts.attempt, Leases.attempt, h]

theorem attempt_ok_iff {α : Type} {x : Io α} {a : α} (h : Counts.attempt x s = .ok (.ok a) t) : x s = .ok a t := by
  unfold Counts.attempt Leases.attempt at h
  cases hx : x s with
  | ok a' t' =>
    rw [hx] at h
    cases h
    rfl
  | error e t' =>
    rw [hx] at h
    cases he : e.returns <;> simp only [he] at h <;> cases h

theorem oneCluster_ok (hzero : blockOffset g s d = 0) (hadd : add d s = .ok (b, ret) t) (hret : 0 ≤ ret)
    (hcount : (t.refcountBlock b (blockIndex g d)).toNat = 0) :
    oneCluster g add d s = .ok (((d : Int) + 1) * g.clusterSize, none) (Counts.setRefcount g t b d 1) := by
  have hchange : Counts.changeRefcount g 1 d (some b) t = .ok () (Counts.setRefcount g t b d 1) := by
    rw [Counts.changeRefcount, get_bind, hcount]
    rfl
  have hafter : afterAdd g d (b, ret) t = .ok (some b) (Counts.setRefcount g t b d 1) := by
    rw [afterAdd, if_neg (not_lt_of_ge hret), bind_eq hchange]
    rfl
  have hround : Counts.updateCluster g add 1 none (-1) d s = .ok (some b) (Counts.setRefcount g t b d 1) := by
    rw [updateCluster_missing hzero, bind_eq hadd, hafter]
  rw [oneCluster, bind_eq (attempt_ok hround)]
  rfl

/-- The round fails if no block can be added. -/
theorem oneCluster_fails (hzero : blockOffset g s d = 0) (hadd : ∀ b ret t, add d s = .ok (b, ret) t → ret < 0)
    (o : Int) (t : Refcounts) : oneCluster g add d s ≠ .ok (o, none) t := by
  intro hok
  obtain ⟨result, v, hattempt, hrest⟩ := bind_ok hok
  cases result with
  | error e => cases hrest
  | ok held =>
    have hround := attempt_ok_iff hattempt
    rw [updateCluster_missing hzero] at hround
    obtain ⟨⟨b, ret⟩, w, hb, hafter⟩ := bind_ok hround
    rw [afterAdd, if_pos (hadd b ret w hb)] at hafter
    cases hafter

/-- The block for the cluster is found. -/
def Works (g : Geometry) (s : Refcounts) (c : Nat) (r : EStateM.Result Handles.Stop Refcounts (Nat × Int)) : Prop :=
  ∃ b ret t, r = .ok (b, ret) t ∧ 0 ≤ ret ∧ Grew g s t c b

def Fails (r : EStateM.Result Handles.Stop Refcounts (Nat × Int)) : Prop := ∀ b ret t, r = .ok (b, ret) t → ret < 0

theorem Level.addBlock_nested (h : Level g s c)
    (hne : s.freeClusterIndex / g.refcountBlockClusters ≠ c / g.refcountBlockClusters) (fuel depth : Nat) :
    addBlock g (fuel + 2) (depth + 1) c s =
      (Counts.updateRefcount g (addBlock g (fuel + 2) depth) (fuel + 2) (s.freeClusterIndex * g.clusterSize : Nat)
          g.clusterSize 1 >>= fun _ ↦
        zeroBlock (s.freeClusterIndex * g.clusterSize) (fun _ ↦ 0) >>= fun _ ↦
          hookUp g (Counts.updateRefcount g (addBlock g (fuel + 2) depth) (fuel + 2)) (fuel + 2)
            (s.freeClusterIndex * g.clusterSize) (c / g.refcountBlockClusters)) (taken s) := by
  rw [addBlock, bind_eq (h.alloc fuel), placeBlock_nat, initBlock, if_neg, h.index, bind_assoc]
  · rfl
  · rwa [inSameRefcountBlock_iff]

theorem Level.updateRefcount_own (h : Level g s c) (fuel depth : Nat) :
    Counts.updateRefcount g (addBlock g (fuel + 2) depth) (fuel + 2) (s.freeClusterIndex * g.clusterSize : Nat)
        g.clusterSize 1 (taken s) =
      (oneCluster g (addBlock g (fuel + 2) depth) s.freeClusterIndex >>= Counts.afterLoop fun clusterOffset ↦
        Counts.updateRefcount g (addBlock g (fuel + 2) depth) (fuel + 1) (s.freeClusterIndex * g.clusterSize : Nat)
          (clusterOffset - (s.freeClusterIndex * g.clusterSize : Nat)) (-1)) (taken s) := by
  have hbytes := h.bytes
  have hcluster := Writes.clusterSize_le (g := g)
  exact updateRefcount_one (by rw [Nat.succ_mul]; omega) (fuel + 1)

theorem Level.missing_own (h : Level g s c) : blockOffset g (taken s) s.freeClusterIndex = 0 := by
  have hentries := h.entries
  have hbeyond := h.beyond
  have hle := Nat.div_le_div_right (c := g.refcountBlockClusters) h.before.le
  rw [blockOffset, tableIndex_nat (by omega), List.getElem?_eq_none, Option.getD_none]
  exact hbeyond.trans hle

/-- The recursion for a block that counts the new one. -/
theorem Level.works_nested (h : Level g s c)
    (hne : s.freeClusterIndex / g.refcountBlockClusters ≠ c / g.refcountBlockClusters) (fuel depth : Nat)
    (hinner : Works g (taken s) s.freeClusterIndex (addBlock g (fuel + 2) depth s.freeClusterIndex (taken s))) :
    Works g s c (addBlock g (fuel + 2) (depth + 1) c s) := by
  obtain ⟨b, ret, t, hadd, hret, ht⟩ := hinner
  have hle := Nat.div_le_div_right (c := g.refcountBlockClusters) h.before.le
  have hb : b ≠ 0 := by
    rw [ht.block_eq]
    exact (Nat.mul_pos (Nat.succ_pos _) Writes.clusterSize_pos).ne'
  have hcount : (t.refcountBlock b (blockIndex g s.freeClusterIndex)).toNat = 0 := by
    rw [blockIndex_nat, ← refcount_some ht.index hb]
    exact h.refcount_own ht
  have hupdate := h.updateRefcount_own fuel depth
  rw [bind_eq (oneCluster_ok h.missing_own hadd hret hcount)] at hupdate
  refine ⟨_, _, hooked g t c s.freeClusterIndex b, ?_, le_rfl, h.grew_hooked hne ht⟩
  rw [h.addBlock_nested hne, bind_eq hupdate]
  have hlt := (List.getElem?_eq_some_iff.mp ht.index).1
  exact congrFun (if_pos (hle.trans_lt hlt)) _

theorem Level.fails_nested (h : Level g s c)
    (hne : s.freeClusterIndex / g.refcountBlockClusters ≠ c / g.refcountBlockClusters) (fuel depth : Nat)
    (hinner : Fails (addBlock g (fuel + 2) depth s.freeClusterIndex (taken s))) :
    Fails (addBlock g (fuel + 2) (depth + 1) c s) := by
  intro b ret t hok
  rw [h.addBlock_nested hne] at hok
  obtain ⟨_, u, hupdate, -⟩ := bind_ok hok
  rw [h.updateRefcount_own] at hupdate
  obtain ⟨⟨o, result⟩, v, hround, hafter⟩ := bind_ok hupdate
  cases result with
  | none => exact absurd hround (oneCluster_fails h.missing_own hinner o v)
  | some e =>
    obtain ⟨_, w, -, hthrow⟩ := bind_ok hafter
    cases hthrow

theorem bmod_nonneg_iff (n : Nat) : 0 ≤ Int.bmod n (2 ^ 32) ↔ n % 2 ^ 32 < 2 ^ 31 := by
  rw [Int.bmod]
  omega

/-- The next level of the recursion. -/
theorem Level.taken (h : Level g s c) (hentries : (s.freeClusterIndex + 1) / g.refcountBlockClusters + 2 ≤ 2 ^ 30)
    (hbytes : (s.freeClusterIndex + 1) * g.clusterSize ≤ 2 ^ 62) : Level g (taken s) s.freeClusterIndex :=
  ⟨⟨⟨h.valid.described.length_le, h.valid.described.distinct⟩, h.valid.blocks, h.valid.table⟩,
    h.beyond.trans (Nat.div_le_div_right h.before.le), Nat.lt_succ_self _, hentries, hbytes⟩

/-- What `Fits` asks for, of the block with which the recursion ends. -/
def Enough (g : Geometry) (s : Refcounts) (own : Nat) : Prop :=
  own * g.clusterSize % 2 ^ 32 < 2 ^ 31 ∧ firstClusters g s own + 2 ≤ g.clusterSize

/-- Whether the block is found is decided by the one with which the recursion ends. -/
def Decided (g : Geometry) (s : Refcounts) (c own : Nat)
    (r : EStateM.Result Handles.Stop Refcounts (Nat × Int)) : Prop :=
  (Enough g s own → Works g s c r) ∧ (¬ Enough g s own → Fails r)

theorem Level.decided_same (h : Level g s c)
    (hsame : s.freeClusterIndex / g.refcountBlockClusters = c / g.refcountBlockClusters) (fuel depth : Nat) :
    Decided g s c s.freeClusterIndex (addBlock g (fuel + 2) (depth + 1) c s) := by
  refine ⟨fun ⟨hint, hfew⟩ ↦ ?_, fun hnot b ret t hok ↦ ?_⟩
  · obtain ⟨t, hadd, ht⟩ := addBlock_same h hsame hfew fuel depth
    exact ⟨_, _, t, hadd, (bmod_nonneg_iff _).mpr hint, ht⟩
  · by_cases hfew : firstClusters g s s.freeClusterIndex + 2 ≤ g.clusterSize
    · obtain ⟨u, hadd, -⟩ := addBlock_same h hsame hfew fuel depth
      rw [hadd] at hok
      cases hok
      exact lt_of_not_ge fun hint ↦ hnot ⟨(bmod_nonneg_iff _).mp hint, hfew⟩
    · exact absurd hok (addBlock_overflows h hsame (by omega) fuel depth _ _)

theorem Level.decided_nested (h : Level g s c)
    (hne : s.freeClusterIndex / g.refcountBlockClusters ≠ c / g.refcountBlockClusters) {fuel depth own : Nat}
    (hinner : Decided g (Growth.taken s) s.freeClusterIndex own
      (addBlock g (fuel + 2) depth s.freeClusterIndex (Growth.taken s))) :
    Decided g s c own (addBlock g (fuel + 2) (depth + 1) c s) :=
  ⟨fun henough ↦ h.works_nested hne fuel depth (hinner.1 henough),
    fun hnot ↦ h.fails_nested hne fuel depth (hinner.2 hnot)⟩

theorem Growing.level (h : Growing g s c) : Level g s c := by
  have hentries := h.entries
  have hbytes := h.bytes
  have hle := Nat.div_le_div_right (c := g.refcountBlockClusters) (Nat.le_add_right s.freeClusterIndex 2)
  have hle' := Nat.mul_le_mul_right g.clusterSize (Nat.le_add_right s.freeClusterIndex 2)
  exact ⟨h.valid, h.beyond, h.before, by omega, hle'.trans hbytes⟩

theorem lastBlock_le (g : Geometry) (s : Refcounts) (c : Nat) : lastBlock g s c ≤ s.freeClusterIndex + 2 := by
  unfold lastBlock
  split_ifs <;> omega

theorem Growing.fits_iff (h : Growing g s c) : Fits g s c ↔ Enough g s (lastBlock g s c) := by
  obtain ⟨hcluster, -, hlow, -⟩ := sizes g
  have hentries := h.entries
  have hlevel := h.level.entries
  have hbeyond := h.beyond
  have hdiv := Nat.div_le_div_right (c := g.refcountBlockClusters) h.before.le
  have hle := Nat.div_le_div_right (c := g.refcountBlockClusters) (lastBlock_le g s c)
  have hsize : nextRefcountTableSize g s.refcountTable.length
      (roundUp (lastBlock g s c + 1) g.refcountBlockClusters + 1) = firstClusters g s (lastBlock g s c) * g.l2Size := by
    rw [roundUp_succ]
    exact nextRefcountTableSize_eq (by omega) (by omega)
  rw [Fits, Enough, hsize, Nat.mul_le_mul_right_iff (by omega)]
  refine and_congr_right fun _ ↦ ?_
  omega

/-- The recursion comes to a block that counts itself after two rounds at most. -/
theorem Growing.decided (h : Growing g s c) (fuel depth : Nat) :
    Decided g s c (lastBlock g s c) (addBlock g (fuel + 2) (depth + 3) c s) := by
  have hentries := h.entries
  have hbytes := h.bytes
  have hlevel := h.level
  have hmul := Nat.mul_le_mul_right g.clusterSize (by omega : s.freeClusterIndex + 1 ≤ s.freeClusterIndex + 2)
  have hdiv := Nat.div_le_div_right (c := g.refcountBlockClusters)
    (by omega : s.freeClusterIndex + 1 ≤ s.freeClusterIndex + 2)
  have hnext : Level g (taken s) s.freeClusterIndex := hlevel.taken (by omega) (hmul.trans hbytes)
  unfold lastBlock
  split_ifs with hsame hsame'
  · exact hlevel.decided_same hsame fuel (depth + 2)
  · exact hlevel.decided_nested hsame (hnext.decided_same hsame' fuel (depth + 1))
  · -- a block that begins behind the one before it does not end at once
    have hstart : (s.freeClusterIndex + 2) / g.refcountBlockClusters =
        (s.freeClusterIndex + 1) / g.refcountBlockClusters := by
      obtain ⟨-, hblock, hlow, -⟩ := sizes g
      rw [Nat.succ_div] at hsame'
      split_ifs at hsame' with hdvd
      · have hnot : ¬ g.refcountBlockClusters ∣ s.freeClusterIndex + 1 + 1 := fun h ↦ by
          have hone := Nat.le_of_dvd one_pos ((Nat.dvd_add_right hdvd).mp h)
          omega
        rw [Nat.succ_div, if_neg hnot, Nat.add_zero]
      · exact absurd rfl hsame'
    exact hlevel.decided_nested hsame (hnext.decided_nested hsame'
      (Level.decided_same (hnext.taken hentries hbytes) hstart fuel depth))

theorem Works.succeeds {r : EStateM.Result Handles.Stop Refcounts (Nat × Int)} (h : Works g s c r)
    (hc : 0 < s.freeClusterIndex) (hdiv : c / g.refcountBlockClusters < 2 ^ 32) : Succeeds g s c r := by
  obtain ⟨b, ret, t, rfl, hret, ht⟩ := h
  refine ⟨hret, ?_, ?_, fun d hd ↦ ?_⟩
  · rw [ht.block_eq]
    exact (Nat.mul_pos hc Writes.clusterSize_pos).ne'
  · rw [blockOffset, tableIndex_nat hdiv, ht.index, Option.getD_some]
  · rw [getRefcount_eq_refcount hd, getRefcount_eq_refcount hd]
    exact ht.refcounts d

theorem Fails.not_succeeds {r : EStateM.Result Handles.Stop Refcounts (Nat × Int)} (h : Fails r) :
    ¬ Succeeds g s c r := by
  intro hsucceeds
  cases r with
  | ok a t => exact absurd hsucceeds.1 (not_le_of_gt (h a.1 a.2 t rfl))
  | error e t => exact hsucceeds

theorem Growing.alloc_eq (h : Growing g s c) (fuel depth : Nat) :
    allocRefcountBlock g fuel depth c s = addBlock g fuel depth c s := by
  have hentries := h.level.entries
  have hbeyond := h.beyond
  have hle := Nat.div_le_div_right (c := g.refcountBlockClusters) h.before.le
  have hzero : blockOffset g s c = 0 := by
    rw [blockOffset, tableIndex_nat (by omega), List.getElem?_eq_none (by omega), Option.getD_none]
  exact congrFun (if_pos hzero) s

/-- Growth succeeds if and only if the offset of the last block fits in an `int`, and the table is not too large for the
two blocks that describe it. -/
theorem growth_succeeds_iff (g : Geometry) (fuel depth : Nat) (s : Refcounts) (c : Nat) (h : Growing g s c) :
    Succeeds g s c (allocRefcountBlock g (fuel + 2) (depth + 3) c s) ↔ Fits g s c := by
  have hentries := h.level.entries
  have hle := Nat.div_le_div_right (c := g.refcountBlockClusters) h.before.le
  obtain ⟨hworks, hfails⟩ := h.decided fuel depth
  rw [h.alloc_eq, h.fits_iff]
  constructor
  · intro hsucceeds
    by_contra hnot
    exact (hfails hnot).not_succeeds hsucceeds
  · exact fun henough ↦ (hworks henough).succeeds (Nat.zero_lt_of_lt h.before) (by omega)

end Nesting

section FullImage

variable {g : Geometry} {n d : Nat}

/-- `n` blocks, with the table behind them, and a reference to every cluster that they count. -/
def fullImage (g : Geometry) (n : Nat) : Refcounts where
  refcountTable := (List.range n).map fun i ↦ (i + 1) * g.clusterSize
  refcountTableOffset := (n + 1) * g.clusterSize
  refcountBlock := fun _ _ ↦ 1
  freeClusterIndex := n * g.refcountBlockClusters + 1

theorem fullImage_get (i : Nat) :
    (fullImage g n).refcountTable[i]? = if i < n then some ((i + 1) * g.clusterSize) else none := by
  change ((List.range n).map _)[i]? = _
  rw [List.getElem?_map]
  split_ifs with hi
  · rw [List.getElem?_range hi]
    rfl
  · rw [List.getElem?_eq_none (by rw [List.length_range]; omega)]
    rfl

theorem refcount_fullImage (hd : d < n * g.refcountBlockClusters) : refcount g (fullImage g n) d = 1 := by
  have hget := fullImage_get (g := g) (n := n) (d / g.refcountBlockClusters)
  rw [if_pos ((Nat.div_lt_iff_lt_mul blockClusters_pos).mpr hd)] at hget
  rw [refcount_some hget (Nat.mul_pos (Nat.succ_pos _) Writes.clusterSize_pos).ne']
  rfl

theorem growing_fullImage (hn : 0 < n) (hentries : n + 2 ≤ 2 ^ 30)
    (hbytes : (n * g.refcountBlockClusters + 3) * g.clusterSize ≤ 2 ^ 62) :
    Growing g (fullImage g n) (n * g.refcountBlockClusters) := by
  obtain ⟨hcluster, hblock, hlow, -⟩ := sizes g
  have hpos := Writes.clusterSize_pos (g := g)
  have hlength : (fullImage g n).refcountTable.length = n := by
    change ((List.range n).map _).length = n
    rw [List.length_map, List.length_range]
  have hmany : n * 256 ≤ n * g.refcountBlockClusters := Nat.mul_le_mul_left _ (by omega)
  have hget {i b : Nat} (hi : (fullImage g n).refcountTable[i]? = some b) : i < n ∧ b = (i + 1) * g.clusterSize := by
    rw [fullImage_get] at hi
    split_ifs at hi with hlt
    exact ⟨hlt, (Option.some.inj hi).symm⟩
  refine ⟨⟨⟨by omega, fun i j b _ hi hj ↦ ?_⟩, fun b hmem _ ↦ ?_, fun d hd ↦ ?_⟩, ?_, Nat.lt_succ_self _, ?_, hbytes⟩
  · have heq := (hget hi).2.symm.trans (hget hj).2
    exact Nat.succ_inj.mp (Nat.eq_of_mul_eq_mul_right hpos heq)
  · obtain ⟨i, hi⟩ := List.mem_iff_getElem?.mp hmem
    obtain ⟨hlt, rfl⟩ := hget hi
    refine ⟨Nat.dvd_mul_left _ _, ?_⟩
    rw [Nat.mul_div_cancel _ hpos, refcount_fullImage (by omega)]
    exact one_ne_zero
  · have hsize : sizeToClusters g (8 * n) ≤ n := by
      refine (roundUp_le_iff hpos).mpr ?_
      rw [Nat.mul_comm]
      exact Nat.mul_le_mul_left n (by omega)
    rw [Old, hlength] at hd
    change d ∈ span g ((n + 1) * g.clusterSize) (8 * n) at hd
    rw [span_aligned, List.mem_range'_1] at hd
    rw [refcount_fullImage (by omega)]
    exact one_ne_zero
  · rw [hlength, Nat.mul_div_cancel _ blockClusters_pos]
  · have hdiv : (n * g.refcountBlockClusters + 3) / g.refcountBlockClusters = n := by
      rw [Nat.add_comm, Nat.add_mul_div_right _ _ blockClusters_pos, Nat.div_eq_of_lt (by omega), Nat.zero_add]
    change (n * g.refcountBlockClusters + 3) / _ + 2 ≤ _
    omega

theorem growing_fullImage_smallest (n : Nat) (hn : 0 < n) (hle : n ≤ 2 ^ 20) :
    Growing .smallest (fullImage .smallest n) (n * 256) := by
  have hblock : Geometry.smallest.refcountBlockClusters = 256 := by decide
  have hcluster : Geometry.smallest.clusterSize = 512 := by decide
  have hgrowing := growing_fullImage (g := .smallest) hn (by omega) (by rw [hblock, hcluster]; omega)
  rwa [hblock] at hgrowing

theorem growth_succeeds_iff_fullImage :
    Succeeds .smallest (fullImage .smallest 1) 256
      (allocRefcountBlock .smallest 2 3 (256 : Nat) (fullImage .smallest 1)) := by
  have hgrowing : Growing .smallest (fullImage .smallest 1) 256 :=
    growing_fullImage_smallest 1 one_pos (by omega)
  have hfits : Fits .smallest (fullImage .smallest 1) 256 := ⟨by decide, by decide⟩
  rwa [growth_succeeds_iff .smallest 0 0 (fullImage .smallest 1) 256 hgrowing]

/-- Where the last block comes to lie at `2 ^ 31` and 512 bytes, its offset is negative as an `int`. -/
theorem not_growth_succeeds :
    ¬ ∀ (g : Geometry) (s : Refcounts) (c : Nat), Growing g s c →
      Succeeds g s c (allocRefcountBlock g 2 3 c s) := by
  intro hall
  obtain ⟨s, hgrowing, hlast⟩ : ∃ s, Growing .smallest s (16384 * 256) ∧
      ¬ Enough .smallest s (lastBlock .smallest s (16384 * 256)) :=
    ⟨fullImage .smallest 16384, growing_fullImage_smallest 16384 (by omega) (by omega), fun h ↦ absurd h.1 (by decide)⟩
  have hsucceeds := hall _ _ _ hgrowing
  rw [hgrowing.alloc_eq] at hsucceeds
  exact ((hgrowing.decided 0 0).2 hlast).not_succeeds hsucceeds

end FullImage

end IDeviceEmulator.Qcow2.Growth
