import IDeviceEmulator.Qcow2.Holding

namespace IDeviceEmulator.Qcow2.Handles

open Leases.Account
open Barrier (Errno)

variable {g : Geometry} {n : Which → Nat} {p : Refs}

section Host

theorem balanced_bdrvPwrite (offset : Nat) (bytes : List Byte) : Balanced n (bdrvPwrite offset bytes : Io g Unit) :=
  balanced_hostCall.bind fun _ ↦ runs_cacheStep fun _ ↦ rfl

theorem runs_get : (account g).Runs n p (get : Io g (Driver g)) fun _ ↦ p := Leases.Account.runs_get fun _ ↦ rfl

/-- Only the journal has the caches. -/
theorem runs_set {f : Driver g → Driver g} (h : ∀ d, (f d).journal = d.journal) :
    (account g).Runs n p (modify f : Io g Unit) fun _ ↦ p := by
  refine runs_modify fun d ↦ ?_
  change refs (f d).journal.caches = refs d.journal.caches
  rw [h]

theorem runs_ignore_balanced {x : Io g Unit} (h : Balanced n x) : Balanced n (ignore x) :=
  runs_ignore h (fits_zero fun _ ↦ Nat.le_refl _)

theorem balanced_bdrvPwriteSync (offset : Nat) (bytes : List Byte) :
    Balanced n (bdrvPwriteSync offset bytes : Io g Unit) :=
  (balanced_bdrvPwrite offset bytes).bind fun _ ↦ runs_get.bind fun _ ↦
    runs_ite (fun _ ↦ runs_done ()) fun _ ↦ runs_ignore_balanced balanced_bdrvFlush

theorem runs_unfinished {α : Type} {q : α → Refs} : (account g).Runs n p (throw .unfinished) q :=
  runs_stop rfl fun _ ↦ trivial

theorem runs_abort {α : Type} {q : α → Refs} : (account g).Runs n p (throw .abort) q := runs_stop rfl fun _ ↦ trivial

end Host

section Search

theorem balanced_getRefcount (hn : 0 < n .refcountBlock) (cluster : Nat) :
    Balanced n (getRefcount cluster : Io g Nat) := by
  refine runs_get.bind fun d ↦ runs_ite (fun _ ↦ runs_done 0) fun _ ↦ ?_
  refine (takes_cacheDoGet hn _ true).bind fun block ↦ (runs_tableOf block).bind fun t ↦ ?_
  exact (runs_put block).bind fun _ ↦ runs_done _

theorem balanced_searchFree (hn : 0 < n .refcountBlock) (wanted fuel i : Nat) :
    Balanced n (searchFree wanted fuel i : Io g Nat) := by
  induction fuel generalizing i with
  | zero => exact runs_unfinished
  | succ fuel ih =>
    refine runs_get.bind fun d ↦ runs_ite (fun _ ↦ runs_done _) fun _ ↦ ?_
    exact Runs.bind (runs_set fun _ ↦ rfl) fun _ ↦ (balanced_getRefcount hn _).bind fun refcount ↦ ih _

theorem balanced_allocClustersNoref (hn : 0 < n .refcountBlock) (fuel size : Nat) :
    Balanced n (allocClustersNoref fuel size : Io g Nat) := balanced_searchFree hn _ fuel 0

end Search

section Blocks

variable {fuel : Nat} {update : Bool → Nat → Nat → Io g Unit}

theorem balanced_settleSize (tableSize blocksUsed size : Nat) :
    Balanced n (settleSize tableSize blocksUsed fuel size : Io g (Nat × Nat)) := by
  induction fuel generalizing size with
  | zero => exact runs_unfinished
  | succ fuel ih => exact runs_ite (fun _ ↦ runs_done _) fun _ ↦ ih _

theorem balanced_writeRefcountTable (table : List Nat) (metaOffset blocksClusters : Nat) :
    Balanced n (writeRefcountTable table metaOffset blocksClusters : Io g Unit) :=
  (balanced_bdrvPwriteSync _ _).bind fun _ ↦ (balanced_bdrvPwriteSync _ _).bind fun _ ↦ balanced_bdrvPwriteSync _ _

theorem balanced_switchRefcountTable (hupdate : ∀ up offset length, Balanced n (update up offset length))
    (table : List Nat) (tableOffset : Nat) : Balanced n (switchRefcountTable update table tableOffset) := by
  refine runs_get.bind fun d ↦ Runs.bind (runs_set fun _ ↦ rfl) fun _ ↦ ?_
  exact (runs_ignore_balanced (hupdate _ _ _)).bind fun _ ↦ runs_set fun _ ↦ rfl

theorem balanced_growRefcountTable (hupdate : ∀ up offset length, Balanced n (update up offset length))
    (index newBlock : Nat) : Balanced n (growRefcountTable fuel update index newBlock) := by
  refine runs_get.bind fun d ↦ (balanced_settleSize _ _ _).bind fun size ↦ ?_
  refine runs_ite (fun _ ↦ runs_abort) fun _ ↦ ?_
  exact (balanced_writeRefcountTable _ _ _).bind fun _ ↦ balanced_switchRefcountTable hupdate _ _

theorem takes_initBlock (hn : 0 < n .refcountBlock)
    (hupdate : ∀ up offset length, Balanced n (update up offset length)) (newBlock cluster : Nat) :
    Takes n (initBlock update newBlock cluster) := by
  refine runs_ite (fun _ ↦ ?_) fun _ ↦ ?_
  · refine (takes_cacheDoGet hn _ false).bind fun block ↦ (runs_store block _).bind fun _ ↦ ?_
    exact runs_pure block
  · refine (hupdate _ _ _).bind fun _ ↦ (runs_ignore_balanced balanced_bdrvFlush).bind fun _ ↦ ?_
    refine (takes_cacheDoGet hn _ false).bind fun block ↦ (runs_store block _).bind fun _ ↦ ?_
    exact runs_pure block

theorem balanced_writeBlock (block : Block) : Balanced n (writeBlock block : Io g Unit) :=
  (runs_markDirty block).bind fun _ ↦ balanced_cacheFlush .refcountBlock

theorem balanced_hookUp (index newBlock : Nat) : Balanced n (hookUp index newBlock : Io g Unit) :=
  runs_get.bind fun _ ↦ (balanced_bdrvPwriteSync _ _).bind fun _ ↦ runs_set fun _ ↦ rfl

theorem fits_block {c : Which} (hn : 0 < n c) (d : Which) : (if d = c then 1 else 0) + (0 : Which → Nat) d ≤ n d := by
  split_ifs with hd
  · subst hd
    exact hn
  · exact Nat.zero_le _

/-- A call that does not need any table besides the one that is held, which is put when the call fails. -/
theorem runs_orPut {c : Which} {x : Io g Unit} (table : Handle c) (h : Balanced 0 x)
    (hn : 0 < n c) : (account g).Runs n (lease table) (onFailure x (ignore (cachePut table))) fun _ ↦ lease table := by
  exact runs_onFailure h (runs_ignore_put table) (fits_lease (fits_block hn))

theorem runs_found (block : Block) (ret : Int) :
    (account g).Runs n (lease block) (pure (block, ret)) fun r ↦ lease r.1 :=
  runs_pure (q := fun r : Block × Int ↦ lease r.1) (block, ret)

theorem runs_addBlock (hn : 0 < n .refcountBlock)
    (hupdate : ∀ up offset length, Balanced n (update up offset length)) (cluster : Nat) :
    (account g).Runs n 0 (addBlock fuel update cluster) fun r ↦ lease r.1 := by
  refine (runs_ignore_balanced (balanced_cacheFlush .l2Table)).bind fun _ ↦ ?_
  refine (balanced_allocClustersNoref hn fuel _).bind fun newBlock ↦ ?_
  refine (takes_initBlock hn hupdate newBlock cluster).bind fun block ↦ ?_
  refine (runs_orPut block (balanced_writeBlock block) hn).bind fun _ ↦ runs_get.bind fun d ↦ ?_
  refine runs_ite (fun _ ↦ ?_) fun _ ↦ ?_
  · refine (runs_orPut block (balanced_hookUp _ _) hn).bind fun _ ↦ ?_
    exact runs_found block 0
  · refine (runs_put block).bind fun _ ↦ (balanced_growRefcountTable hupdate _ _).bind fun _ ↦ ?_
    refine (takes_cacheDoGet hn _ true).bind fun block ↦ ?_
    exact runs_found block _

theorem runs_allocRefcountBlock (hn : 0 < n .refcountBlock)
    (hupdate : ∀ up offset length, Balanced n (update up offset length)) (cluster : Nat) :
    (account g).Runs n 0 (allocRefcountBlock fuel update cluster) fun r ↦ lease r.1 := by
  refine runs_get.bind fun d ↦ runs_ite (fun _ ↦ runs_addBlock hn hupdate cluster) fun _ ↦ ?_
  refine (takes_cacheDoGet hn _ true).bind fun block ↦ ?_
  exact runs_found block 0

end Blocks

section Update

variable {alloc : Nat → Io g (Block × Int)}

/-- The block that the loop of `update_refcount` is at. -/
def held (block : Option Block) : Refs := block.elim 0 lease

theorem runs_nextBlock (halloc : ∀ c, (account g).Runs n 0 (alloc c) fun r ↦ lease r.1)
    (cur : Option (Block × Nat)) (cluster : Nat) :
    (account g).Runs n (held (cur.map Prod.fst)) (nextBlock alloc cur cluster) fun r ↦ lease r.1 := by
  match cur with
  | none => exact halloc cluster
  | some (block, index) =>
    refine runs_ite (fun _ ↦ ?_) fun _ ↦ (runs_put block).bind fun _ ↦ halloc cluster
    exact runs_found block 0

theorem balanced_changeRefcount (up : Bool) (block : Block) (cluster : Nat) :
    Balanced n (changeRefcount up block cluster : Io g Unit) := by
  refine (runs_markDirty block).bind fun _ ↦ (runs_tableOf block).bind fun t ↦ runs_ite (fun _ ↦ ?_) fun _ ↦ ?_
  · exact runs_throw rfl
  · refine Runs.bind (runs_set fun d ↦ ?_) fun _ ↦ runs_store block _
    split_ifs <;> rfl

/-- What is held when the loop has ended. -/
def lastHeld (r : Option Block × Nat × Option Failure) : Refs := held r.1

theorem runs_updateLoop (hn : 0 < n .refcountBlock) (halloc : ∀ c, (account g).Runs n 0 (alloc c) fun r ↦ lease r.1)
    (up : Bool) (cur : Option (Block × Nat)) (cs : List Nat) :
    (account g).Runs n (held (cur.map Prod.fst)) (updateLoop alloc up cur cs) lastHeld := by
  induction cs generalizing cur with
  | nil => exact runs_pure (q := lastHeld) (cur.map Prod.fst, 0, none)
  | cons c cs ih =>
    refine (runs_attempt (runs_nextBlock halloc cur c)).bind fun a ↦ ?_
    cases a with
    | error e => exact runs_pure (q := lastHeld) (none, cs.length + 1, some e)
    | ok r =>
      obtain ⟨block, ret⟩ := r
      have hret (e : Failure) : (account g).Runs n (lease block) (pure (some block, cs.length + 1, some e)) lastHeld :=
        runs_pure (q := lastHeld) (some block, cs.length + 1, some e)
      refine runs_ite (fun _ ↦ hret _) fun _ ↦ ?_
      have hchange : (account g).Runs n (lease block) (attempt (changeRefcount up block c)) fun _ ↦ lease block :=
        runs_attempt_holding (balanced_changeRefcount (n := 0) up block c) (fits_lease (fits_block hn))
      refine hchange.bind fun a ↦ ?_
      cases a with
      | error e => exact hret e
      | ok _ => exact ih (some (block, c / g.refcountBlockClusters))

theorem balanced_dependOnTables (up : Bool) : Balanced n (dependOnTables up : Io g Unit) :=
  runs_ite (fun _ ↦ runs_done ()) fun _ ↦ runs_ignore_balanced (balanced_cacheSetDependency .refcountBlock)

theorem runs_putLast (block : Option Block) (result : Option Failure) :
    (account g).Runs n (held block) (putLast block result) fun _ ↦ 0 := by
  cases block with
  | none => exact runs_done ()
  | some block =>
    refine (runs_attempt (runs_put block)).bind fun a ↦ ?_
    cases a with
    | ok _ => exact runs_done ()
    | error wret => exact runs_throw (result.getD wret).property

theorem balanced_updateClusters (hn : 0 < n .refcountBlock)
    (halloc : ∀ c, (account g).Runs n 0 (alloc c) fun r ↦ lease r.1) (rounds : Nat) (up : Bool) (cs : List Nat) :
    Balanced n (updateClusters alloc rounds up cs) := by
  induction rounds generalizing up cs with
  | zero =>
    cases cs with
    | nil => exact runs_done ()
    | cons c cs => exact runs_unfinished
  | succ rounds ih =>
    cases cs with
    | nil => exact runs_done ()
    | cons c cs =>
      refine (balanced_dependOnTables up).bind fun _ ↦ (runs_updateLoop hn halloc up none (c :: cs)).bind fun r ↦ ?_
      obtain ⟨block, left, result⟩ := r
      refine (runs_putLast block result).bind fun _ ↦ ?_
      cases result with
      | none => exact runs_done ()
      | some e => exact (runs_ignore_balanced (ih (!up) _)).bind fun _ ↦ runs_throw e.property

end Update

theorem balanced_updateRefcount (hn : 0 < n .refcountBlock) (fuel : Nat) (up : Bool) (offset length : Nat) :
    Balanced n (updateRefcount fuel up offset length : Io g Unit) := by
  induction fuel generalizing up offset length with
  | zero => exact runs_unfinished
  | succ fuel ih => exact balanced_updateClusters hn (runs_allocRefcountBlock hn ih) _ up _

section Allocation

variable {fuel : Nat}

theorem balanced_updateClusterRefcount (hn : 0 < n .refcountBlock) (cluster : Nat) :
    Balanced n (updateClusterRefcount fuel cluster : Io g Nat) :=
  (balanced_updateRefcount hn _ _ _ _).bind fun _ ↦ (runs_ignore_balanced balanced_bdrvFlush).bind fun _ ↦
    balanced_getRefcount hn cluster

theorem balanced_allocClusters (hn : 0 < n .refcountBlock) (size : Nat) :
    Balanced n (allocClusters fuel size : Io g Nat) :=
  (balanced_allocClustersNoref hn fuel size).bind fun offset ↦ (balanced_updateRefcount hn _ _ _ _).bind fun _ ↦
    runs_done offset

theorem balanced_freeClusters (hn : 0 < n .refcountBlock) (offset size : Nat) :
    Balanced n (freeClusters fuel offset size : Io g Unit) := runs_ignore_balanced (balanced_updateRefcount hn _ _ _ _)

theorem balanced_freeAnyClusters (hn : 0 < n .refcountBlock) (e : Entry) :
    Balanced n (freeAnyClusters fuel e : Io g Unit) :=
  runs_ite (fun _ ↦ balanced_freeClusters hn _ _) fun _ ↦ balanced_freeClusters hn _ _

theorem balanced_setFreeByteOffset (offset : Int) : Balanced n (setFreeByteOffset offset : Io g Unit) :=
  runs_set fun _ ↦ rfl

theorem balanced_startBytes (hn : 0 < n .refcountBlock) : Balanced n (startBytes fuel : Io g Unit) := by
  refine runs_get.bind fun d ↦ runs_ite (fun _ ↦ ?_) fun _ ↦ runs_done ()
  refine (runs_attempt (balanced_allocClusters hn g.clusterSize)).bind fun a ↦ ?_
  match a with
  | .ok offset => exact balanced_setFreeByteOffset offset
  | .error ⟨.failed errno, _⟩ => exact (balanced_setFreeByteOffset (-errno)).bind fun _ ↦ runs_throw rfl

theorem balanced_countBytes (hn : 0 < n .refcountBlock) (offset : Int) :
    Balanced n (countBytes fuel offset : Io g Unit) := by
  refine runs_ite (fun _ ↦ runs_abort) fun _ ↦ runs_ignore_balanced ?_
  exact (balanced_updateClusterRefcount hn _).bind fun _ ↦ runs_done ()

theorem balanced_placeBytes (hn : 0 < n .refcountBlock) (size : Nat) (offset : Int) :
    Balanced n (placeBytes fuel size offset : Io g Int) := by
  refine (balanced_setFreeByteOffset _).bind fun _ ↦ Runs.bind (q := fun _ ↦ 0) ?_ fun _ ↦ runs_done offset
  exact runs_ite (fun _ ↦ runs_done ()) fun _ ↦ balanced_countBytes hn offset

theorem balanced_extendBytes (hn : 0 < n .refcountBlock) (size : Nat) (start : Int) :
    Balanced n (extendBytes fuel size start : Io g Int) := by
  refine (balanced_allocClusters hn g.clusterSize).bind fun offset ↦ runs_ite (fun _ ↦ ?_) fun _ ↦ ?_
  · exact (balanced_countBytes hn start).bind fun _ ↦ (balanced_setFreeByteOffset _).bind fun _ ↦ runs_done start
  · exact (balanced_setFreeByteOffset _).bind fun _ ↦ balanced_placeBytes hn size offset

theorem balanced_allocBytes (hn : 0 < n .refcountBlock) (size : Nat) :
    Balanced n (allocBytes fuel size : Io g Int) := by
  refine runs_ite (fun _ ↦ runs_abort) fun _ ↦ (balanced_startBytes hn).bind fun _ ↦ runs_get.bind fun d ↦ ?_
  refine Runs.bind (q := fun _ ↦ 0) ?_ fun offset ↦ ?_
  · exact runs_ite (fun _ ↦ balanced_placeBytes hn size _) fun _ ↦ balanced_extendBytes hn size _
  · exact (runs_ignore_balanced balanced_bdrvFlush).bind fun _ ↦ runs_done offset

end Allocation

end IDeviceEmulator.Qcow2.Handles
