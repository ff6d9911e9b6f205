import IDeviceEmulator.Qcow2.Returns

namespace IDeviceEmulator.Qcow2.Handles

open Hoare Machine
open Leases.Account
open Barrier (Errno)

variable {g : Geometry} {fuel : Nat} {n : Which → Nat}

section Rooms

/-- One table of a cache. -/
def one (c d : Which) : Nat := if d = c then 1 else 0

theorem one_self (c : Which) : 0 < one c c := by
  rw [one, if_pos rfl]
  exact Nat.one_pos

theorem fits_block_beside (h2 : 0 < n .l2Table) (hn : 0 < n .refcountBlock) (table : Handle .l2Table) :
    Fits (one .refcountBlock) n (lease table) := by
  refine fits_lease fun d ↦ ?_
  cases d
  · exact h2
  · exact hn

theorem fits_table_beside (h2 : 1 < n .l2Table) (table : Handle .l2Table) :
    Fits (one .l2Table) n (lease table) := by
  refine fits_lease fun d ↦ ?_
  cases d
  · exact h2
  · exact Nat.zero_le _

end Rooms

section L1

theorem balanced_activateL1 (table : List Entry) (offset : Nat) :
    Balanced n (activateL1 table offset : Io g Unit) :=
  (balanced_bdrvPwriteSync _ _).bind fun _ ↦ balanced_bdrvPwriteSync _ _

theorem balanced_growL1To (hn : 0 < n .refcountBlock) (size : Nat) : Balanced n (growL1To fuel size : Io g Unit) := by
  refine (balanced_allocClusters hn _).bind fun offset ↦ (balanced_cacheFlush .refcountBlock).bind fun _ ↦ ?_
  refine runs_get.bind fun d ↦ Runs.bind (q := fun _ ↦ 0) ?_ fun _ ↦ ?_
  · exact runs_onFailure (balanced_activateL1 _ offset) (balanced_freeClusters hn _ _) (fits_zero fun _ ↦ Nat.le_refl _)
  · exact (balanced_freeClusters hn _ _).bind fun _ ↦ runs_set fun _ ↦ rfl

theorem balanced_growL1Table (hn : 0 < n .refcountBlock) (min : Nat) :
    Balanced n (growL1Table fuel min : Io g Unit) :=
  runs_get.bind fun _ ↦ runs_ite (fun _ ↦ runs_done ()) fun _ ↦ runs_ite (fun _ ↦ runs_abort) fun _ ↦
    balanced_growL1To hn _

theorem balanced_writeL1Entry (i : Nat) : Balanced n (writeL1Entry i : Io g Unit) :=
  runs_get.bind fun _ ↦ balanced_bdrvPwriteSync _ _

end L1

section L2

theorem balanced_fillTable (h1 : 0 < n .l2Table) (table : Handle .l2Table) (old : Entry) :
    Balanced n (fillTable table old : Io g Unit) := by
  refine runs_ite (fun _ ↦ runs_store table _) fun _ ↦ ?_
  refine (takes_cacheDoGet h1 _ true).bind fun oldTable ↦ (runs_tableOf oldTable).bind fun t ↦ ?_
  exact (runs_store table t).bind fun _ ↦ runs_put oldTable

theorem balanced_installTable (h1 : 0 < n .l2Table) (i : Nat) (table : Handle .l2Table) (old new : Entry) :
    Balanced n (installTable i table old new : Io g Unit) := by
  refine (balanced_fillTable h1 table old).bind fun _ ↦ (runs_markDirty table).bind fun _ ↦ ?_
  refine (balanced_cacheFlush .l2Table).bind fun _ ↦ Runs.bind (runs_set fun _ ↦ rfl) fun _ ↦ ?_
  exact balanced_writeL1Entry i

theorem takes_l2Allocate (h2 : 1 < n .l2Table) (hn : 0 < n .refcountBlock) (i : Nat) (old : Entry) :
    Takes n (l2Allocate fuel i old : Io g (Handle .l2Table)) := by
  refine (balanced_allocClusters hn _).bind fun offset ↦ (balanced_cacheFlush .refcountBlock).bind fun _ ↦ ?_
  refine (takes_cacheDoGet (Nat.lt_of_succ_lt h2) _ false).bind fun table ↦ ?_
  have hcleanup : (account g).Runs n (lease table) (do
      ignore (cachePut table)
      setL1Entry i old) fun _ ↦ 0 :=
    (runs_ignore_put table).bind fun _ ↦ runs_set fun _ ↦ rfl
  refine (runs_onFailure (balanced_installTable (one_self _) i table old _) hcleanup
    (fits_table_beside h2 table)).bind fun _ ↦ ?_
  exact runs_pure table

theorem takes_loadOrAllocate (h2 : 1 < n .l2Table) (hn : 0 < n .refcountBlock) (i : Nat) (e : Entry) :
    Takes n (loadOrAllocate fuel i e : Io g (Handle .l2Table)) := by
  refine runs_ite (fun _ ↦ takes_cacheDoGet (Nat.lt_of_succ_lt h2) _ true) fun _ ↦ ?_
  refine (takes_l2Allocate h2 hn i e).bind fun table ↦ Runs.bind (q := fun _ ↦ lease table) ?_ fun _ ↦ runs_pure table
  refine runs_ite (fun _ ↦ runs_done ()) fun _ ↦ ?_
  exact runs_ignore (balanced_updateRefcount (one_self .refcountBlock) _ _ _ _)
    (fits_block_beside (Nat.lt_of_succ_lt h2) hn table)

theorem takes_getClusterTable (h2 : 1 < n .l2Table) (hn : 0 < n .refcountBlock) (offset : Nat) :
    Takes n (getClusterTable fuel offset : Io g (Handle .l2Table)) := by
  refine (balanced_growL1Table hn _).bind fun _ ↦ runs_get.bind fun d ↦ ?_
  cases d.l1Table[l1Index g offset]? with
  | none => exact runs_abort
  | some e => exact takes_loadOrAllocate h2 hn _ e

theorem balanced_getClusterOffset (h1 : 0 < n .l2Table) (offset num : Nat) :
    Balanced n (getClusterOffset offset num : Io g (Nat × Entry)) := by
  refine runs_get.bind fun d ↦ runs_ite (fun _ ↦ runs_done _) fun _ ↦ ?_
  refine (takes_cacheDoGet h1 _ true).bind fun table ↦ (runs_tableOf table).bind fun t ↦ ?_
  exact (runs_ignore_put table).bind fun _ ↦ runs_done _

end L2

section Copying

variable {codec : Codec}

theorem balanced_readBacking (sector : Nat) : Balanced n (readBacking codec sector : Io g Unit) := by
  unfold readBacking
  match codec.host.backing with
  | none => exact runs_done ()
  | some (total, _) => exact runs_ite (fun _ ↦ balanced_hostCall) fun _ ↦ runs_done ()

theorem balanced_decompressCluster (e : Entry) : Balanced n (decompressCluster codec e : Io g Unit) := by
  refine runs_get.bind fun d ↦ runs_ite (fun _ ↦ runs_done ()) fun _ ↦ balanced_hostCall.bind fun _ ↦ ?_
  split
  · exact runs_throw rfl
  · exact runs_set fun _ ↦ rfl

theorem balanced_readPart (h1 : 0 < n .l2Table) (sector num : Nat) :
    Balanced n (readPart codec sector num : Io g (List Sector)) := by
  refine (balanced_getClusterOffset h1 _ _).bind fun r ↦ ?_
  obtain ⟨m, e⟩ := r
  refine runs_ite (fun _ ↦ ?_) fun _ ↦ runs_ite (fun _ ↦ ?_) fun _ ↦ ?_
  · exact (balanced_readBacking sector).bind fun _ ↦ runs_done _
  · exact (balanced_decompressCluster e).bind fun _ ↦ runs_get.bind fun d ↦ runs_done _
  · exact balanced_hostCall.bind fun _ ↦ runs_get.bind fun d ↦ runs_done _

theorem balanced_readSectors (h1 : 0 < n .l2Table) (rounds sector num : Nat) :
    Balanced n (readSectors codec rounds sector num : Io g (List Sector)) := by
  induction rounds generalizing sector num with
  | zero =>
    cases num with
    | zero => exact runs_done []
    | succ num => exact runs_unfinished
  | succ rounds ih =>
    cases num with
    | zero => exact runs_done []
    | succ num => exact (balanced_readPart h1 _ _).bind fun xs ↦ (ih _ _).bind fun ys ↦ runs_done _

theorem balanced_copySectors (h1 : 0 < n .l2Table) (startSect clusterOffset nStart nEnd : Nat) :
    Balanced n (copySectors fuel codec startSect clusterOffset nStart nEnd : Io g Unit) :=
  runs_ite (fun _ ↦ runs_done ()) fun _ ↦ (balanced_readSectors h1 _ _ _).bind fun _ ↦ balanced_bdrvPwrite _ _

theorem balanced_copyHead (h1 : 0 < n .l2Table) (m : L2Meta) : Balanced n (copyHead fuel codec m : Io g Unit) :=
  runs_ite (fun _ ↦ balanced_copySectors h1 _ _ _ _) fun _ ↦ runs_done ()

theorem balanced_copyTail (h1 : 0 < n .l2Table) (m : L2Meta) : Balanced n (copyTail fuel codec m : Io g Unit) :=
  runs_ite (fun _ ↦ balanced_copySectors h1 _ _ _ _) fun _ ↦ runs_done ()

theorem balanced_orderCopies (m : L2Meta) : Balanced n (orderCopies m : Io g Unit) :=
  runs_ite (fun _ ↦ runs_cacheStep fun _ ↦ rfl) fun _ ↦ runs_done ()

theorem balanced_freeAll (hn : 0 < n .refcountBlock) (es : List Entry) : Balanced n (freeAll fuel es : Io g Unit) := by
  induction es with
  | nil => exact runs_done ()
  | cons e es ih => exact (balanced_freeAnyClusters hn _).bind fun _ ↦ ih

theorem balanced_allocClusterLinkL2 (h2 : 1 < n .l2Table) (hn : 0 < n .refcountBlock) (m : L2Meta) :
    Balanced n (allocClusterLinkL2 fuel codec m : Io g Unit) := by
  have h1 : 0 < n .l2Table := Nat.lt_of_succ_lt h2
  refine runs_ite (fun _ ↦ runs_done ()) fun _ ↦ (balanced_copyHead h1 m).bind fun _ ↦ ?_
  refine (balanced_copyTail h1 m).bind fun _ ↦ (balanced_orderCopies m).bind fun _ ↦ ?_
  refine (runs_ignore_balanced (balanced_cacheSetDependency .l2Table)).bind fun _ ↦ ?_
  refine (takes_getClusterTable h2 hn _).bind fun table ↦ (runs_markDirty table).bind fun _ ↦ ?_
  refine (runs_tableOf table).bind fun t ↦ (runs_store table _).bind fun _ ↦ (runs_put table).bind fun _ ↦ ?_
  exact balanced_freeAll hn _

end Copying

section Allocation

theorem runs_allocTogether (h1 : 0 < n .l2Table) (hn : 0 < n .refcountBlock) (table : Handle .l2Table)
    (offset nStart count : Nat) :
    (account g).Runs n (lease table) (allocTogether fuel table offset nStart count) fun _ ↦ 0 := by
  have halloc : Balanced (one .refcountBlock) (allocClusters fuel (Writes.clusterBytes g count) : Io g Nat) :=
    balanced_allocClusters (one_self .refcountBlock) _
  refine (runs_onFailure halloc (runs_ignore_put table) (fits_block_beside h1 hn table)).bind fun clusterOffset ↦ ?_
  refine Runs.bind (runs_set fun _ ↦ rfl) fun _ ↦ ?_
  exact (runs_put table).bind fun _ ↦ runs_done _

theorem runs_chooseClusters (h1 : 0 < n .l2Table) (hn : 0 < n .refcountBlock) (table : Handle .l2Table)
    (offset nStart count : Nat) :
    (account g).Runs n (lease table) (chooseClusters fuel table offset nStart count) fun _ ↦ 0 := by
  refine runs_get.bind fun d ↦ ?_
  split
  · exact (runs_ignore_put table).bind fun _ ↦ runs_done _
  · exact runs_ite (fun _ ↦ runs_abort) fun _ ↦ runs_allocTogether h1 hn table _ _ _

theorem balanced_allocClusterOffset (h2 : 1 < n .l2Table) (hn : 0 < n .refcountBlock) (offset nStart nEnd : Nat) :
    Balanced n (allocClusterOffset fuel offset nStart nEnd : Io g Writes.Allocation) := by
  refine (takes_getClusterTable h2 hn _).bind fun table ↦ (runs_tableOf table).bind fun t ↦ ?_
  refine runs_ite (fun _ ↦ (runs_put table).bind fun _ ↦ runs_done _) fun _ ↦ ?_
  exact runs_chooseClusters (Nat.lt_of_succ_lt h2) hn table _ _ _

theorem runs_linkCompressed (table : Handle .l2Table) (i : Nat) (e : Entry) :
    (account g).Runs n (lease table) (linkCompressed table i e) fun _ ↦ 0 :=
  (runs_markDirty table).bind fun _ ↦ (runs_tableOf table).bind fun _ ↦ (runs_store table _).bind fun _ ↦ runs_put table

theorem runs_freeAnyClusters (h1 : 0 < n .l2Table) (hn : 0 < n .refcountBlock) (table : Handle .l2Table) (e : Entry) :
    (account g).Runs n (lease table) (freeAnyClusters fuel e) fun _ ↦ lease table := by
  have hfits := fits_block_beside h1 hn table
  exact runs_ite (fun _ ↦ runs_ignore (balanced_updateRefcount (one_self .refcountBlock) _ _ _ _) hfits) fun _ ↦
    runs_ignore (balanced_updateRefcount (one_self .refcountBlock) _ _ _ _) hfits

theorem runs_replaceCompressed (h1 : 0 < n .l2Table) (hn : 0 < n .refcountBlock) (table : Handle .l2Table) (i : Nat)
    (e : Entry) (size : Nat) :
    (account g).Runs n (lease table) (replaceCompressed fuel table i e size) fun _ ↦ 0 := by
  refine Runs.bind (q := fun _ ↦ lease table) ?_ fun _ ↦ ?_
  · exact runs_ite (fun _ ↦ runs_done ()) fun _ ↦ runs_freeAnyClusters h1 hn table e
  refine (runs_attempt_holding (balanced_allocBytes (one_self .refcountBlock) size)
    (fits_block_beside h1 hn table)).bind fun a ↦ ?_
  cases a with
  | error _ => exact (runs_ignore_put table).bind fun _ ↦ runs_done _
  | ok offset =>
    refine runs_ite (fun _ ↦ (runs_ignore_put table).bind fun _ ↦ runs_done _) fun _ ↦ ?_
    refine (runs_attempt (runs_linkCompressed table i _)).bind fun a ↦ ?_
    cases a with
    | error _ => exact runs_done _
    | ok _ => exact runs_done _

theorem runs_discardEntry (h1 : 0 < n .l2Table) (hn : 0 < n .refcountBlock) (table : Handle .l2Table) (i : Nat) :
    (account g).Runs n (lease table) (discardEntry fuel table i) fun _ ↦ lease table := by
  refine (runs_tableOf table).bind fun t ↦ runs_ite (fun _ ↦ runs_done ()) fun _ ↦ ?_
  exact (runs_markDirty table).bind fun _ ↦ (runs_store table _).bind fun _ ↦ runs_freeAnyClusters h1 hn table _

theorem runs_discardEntries (h1 : 0 < n .l2Table) (hn : 0 < n .refcountBlock) (table : Handle .l2Table)
    (is : List Nat) : (account g).Runs n (lease table) (discardEntries fuel table is) fun _ ↦ lease table := by
  induction is with
  | nil => exact runs_done ()
  | cons i is ih => exact (runs_discardEntry h1 hn table i).bind fun _ ↦ ih

theorem balanced_discardSingleL2 (h2 : 1 < n .l2Table) (hn : 0 < n .refcountBlock) (offset count : Nat) :
    Balanced n (discardSingleL2 fuel offset count : Io g Nat) := by
  refine (takes_getClusterTable h2 hn _).bind fun table ↦ ?_
  refine (runs_discardEntries (Nat.lt_of_succ_lt h2) hn table _).bind fun _ ↦ ?_
  exact (runs_put table).bind fun _ ↦ runs_done _

theorem balanced_discardLoop (h2 : 1 < n .l2Table) (hn : 0 < n .refcountBlock) (rounds offset count : Nat) :
    Balanced n (discardLoop fuel rounds offset count : Io g Unit) := by
  induction rounds generalizing offset count with
  | zero =>
    cases count with
    | zero => exact runs_done ()
    | succ count => exact runs_unfinished
  | succ rounds ih =>
    cases count with
    | zero => exact runs_done ()
    | succ count => exact (balanced_discardSingleL2 h2 hn _ _).bind fun done ↦ ih _ _

end Allocation

section Runs

variable {codec : Codec}

/-- The operations hold two L2 tables and one refcount block at most. -/
def demand : Which → Nat
  | .l2Table => 2
  | .refcountBlock => 1

theorem room_zero : Room demand 0 := by
  intro c
  have htotal : total c 0 = 0 := Finset.sum_const_zero
  rw [htotal]
  cases c <;> decide

def isCopiedAt (offset : Nat) : EStateM.Result Stop (Driver g) (Handle .l2Table) → Prop
  | .ok table t => isCopied (entryAt (t.journal.caches.entries table.slot).table (l2Index g offset))
  | .error _ _ => False

/-- A compressed write to a cluster that the image has for itself, which is the branch of
`qcow2_alloc_compressed_cluster_offset` that returns at once. -/
def MeetsCopied (fuel : Nat) (d : Driver g) : Op → Prop
  | .allocCompressedClusterOffset offset _ => isCopiedAt offset (getClusterTable fuel offset d)
  | _ => False

/-- The table that is never put then. -/
def leaked (fuel : Nat) (d : Driver g) : Op → Refs
  | .allocCompressedClusterOffset offset _ =>
    match getClusterTable fuel offset d with
    | .ok table t =>
      if isCopied (entryAt (t.journal.caches.entries table.slot).table (l2Index g offset)) then lease table else 0
    | .error _ _ => 0
  | _ => 0

theorem lease_ne_zero {c : Which} (h : Handle c) : lease h ≠ 0 := by
  intro hzero
  have hone := congrFun hzero h.slot
  rw [lease, Pi.single_eq_same] at hone
  cases hone

theorem leaked_eq_zero_iff (d : Driver g) (op : Op) : leaked fuel d op = 0 ↔ ¬ MeetsCopied fuel d op := by
  cases op with
  | allocCompressedClusterOffset offset size =>
    unfold leaked MeetsCopied isCopiedAt
    dsimp only
    cases getClusterTable fuel offset d with
    | ok table t =>
      dsimp only
      split_ifs with hcopied
      · exact ⟨fun h ↦ absurd h (lease_ne_zero table), fun h ↦ absurd hcopied h⟩
      · exact ⟨fun _ ↦ hcopied, fun _ ↦ rfl⟩
    | error e t => exact ⟨fun _ h ↦ h, fun _ ↦ rfl⟩
  | _ => exact ⟨fun _ h ↦ h, fun _ ↦ rfl⟩

theorem balanced_run {op : Op} (h : ∀ offset size, op ≠ .allocCompressedClusterOffset offset size) :
    Balanced demand (op.run fuel codec : Io g Unit) := by
  have h2 : 1 < demand .l2Table := by decide
  have h1 : 0 < demand .l2Table := by decide
  have hn : 0 < demand .refcountBlock := by decide
  cases op with
  | getClusterOffset offset num => exact (balanced_getClusterOffset h1 offset num).bind fun _ ↦ runs_done ()
  | allocClusterOffset offset nStart nEnd =>
    exact (balanced_allocClusterOffset h2 hn offset nStart nEnd).bind fun _ ↦ runs_done ()
  | allocClusterLinkL2 m => exact balanced_allocClusterLinkL2 h2 hn m
  | allocCompressedClusterOffset offset size => exact absurd rfl (h offset size)
  | discardClusters offset nbSectors => exact balanced_discardLoop h2 hn _ _ _
  | allocClusters size => exact (balanced_allocClusters hn size).bind fun _ ↦ runs_done ()
  | freeClusters offset size => exact balanced_freeClusters hn offset size
  | flush c => exact balanced_cacheFlush c
  | data file clusterAllocs => exact Runs.bind (runs_cacheStep fun _ ↦ rfl) fun _ ↦ runs_set fun _ ↦ rfl

theorem triple_start {α : Type} {x : Io g α} {q : α → Refs} (h : (account g).Runs n 0 x q) (d : Driver g) :
    Triple (· = d) x (fun a t ↦ t.refs = d.refs + q a)
      ((account g).Fails n d.refs) := by
  refine (h d.refs).strengthen ?_
  rintro _ rfl
  exact (add_zero _).symm

/-- An operation that does not end with a result has put its tables. -/
def StopsClean (fuel : Nat) (d : Driver g) (op : Op) (e : Stop) (t : Driver g) : Prop :=
  (account g).Fails demand d.refs e t ∧ leaked fuel d op = 0

theorem spec_attempt (fuel : Nat) (d : Driver g) (offset size : Nat) :
    Triple (· = d) (attempt (getClusterTable fuel offset)) (fun a t ↦
      t.refs = d.refs + handed lease a ∧
        match a with
        | .ok table => getClusterTable fuel offset d = .ok table t
        | .error e => getClusterTable fuel offset d = .error e.val t)
      (StopsClean fuel d (.allocCompressedClusterOffset offset size)) := by
  have htable : Takes demand (getClusterTable fuel offset : Io g (Handle .l2Table)) :=
    takes_getClusterTable (by decide) (by decide) offset
  have hattempt := triple_start (runs_attempt htable) d
  intro s hs
  rw [hs]
  cases hget : getClusterTable fuel offset d with
  | ok table t =>
    have hrun : attempt (getClusterTable fuel offset) d = .ok (.ok table) t := by
      unfold attempt Leases.attempt
      rw [hget]
    rw [hrun]
    exact ⟨hattempt.ok rfl hrun, rfl⟩
  | error e t =>
    by_cases hret : e.returns = true
    · have hrun : attempt (getClusterTable fuel offset) d = .ok (.error ⟨e, hret⟩) t := by
        unfold attempt Leases.attempt
        rw [hget]
        exact dif_pos hret
      rw [hrun]
      exact ⟨hattempt.ok rfl hrun, rfl⟩
    · have hrun : attempt (getClusterTable fuel offset) d = .error e t := by
        unfold attempt Leases.attempt
        rw [hget]
        exact dif_neg hret
      rw [hrun]
      refine ⟨hattempt.error rfl hrun, ?_⟩
      unfold leaked
      dsimp only
      rw [hget]

/-- The way out without `qcow2_cache_put` keeps the table that was loaded, every other one puts it. -/
theorem refs_allocCompressed (d : Driver g) (offset size : Nat) :
    Triple (· = d) (allocCompressedClusterOffset fuel offset size)
      (fun _ t ↦ t.refs = d.refs + leaked fuel d (.allocCompressedClusterOffset offset size))
      (StopsClean fuel d (.allocCompressedClusterOffset offset size)) := by
  refine (spec_attempt fuel d offset size).bind fun a ↦ triple_of_forall fun t ⟨hheld, hget⟩ ↦ ?_
  cases a with
  | error e =>
    refine triple_pure ?_
    rintro _ rfl
    unfold leaked
    dsimp only at hget ⊢
    rw [hget]
    exact hheld
  | ok table =>
    unfold StopsClean leaked
    dsimp only at hget ⊢
    rw [hget]
    dsimp only
    refine Triple.bind (R := fun u s ↦ s = t ∧ u = (t.journal.caches.entries table.slot).table) ?_ fun u ↦
      triple_of_forall fun s ⟨hs, hu⟩ ↦ ?_
    · rintro _ rfl
      exact ⟨rfl, rfl⟩
    · subst hs hu
      refine triple_ite (fun hcopied ↦ triple_pure ?_) fun hcopied ↦ ?_
      · rintro _ rfl
        rw [if_pos hcopied]
        exact hheld
      · simp only [if_neg hcopied]
        refine (runs_replaceCompressed (by decide) (by decide) table _ _ size d.refs).weaken ?_
          (fun _ _ hq ↦ hq) fun _ _ he ↦ ⟨he, trivial⟩
        rintro _ rfl
        exact hheld

/-- What an operation leaves held, and how it can stop. -/
theorem refs_run (fuel : Nat) (codec : Codec) (d : Driver g) (op : Op) :
    Triple (· = d) (op.run fuel codec) (fun _ t ↦ t.refs = d.refs + leaked fuel d op)
      (StopsClean fuel d op) := by
  by_cases hop : ∀ offset size, op ≠ .allocCompressedClusterOffset offset size
  · have hleaked : leaked fuel d op = 0 := by
      cases op with
      | allocCompressedClusterOffset offset size => exact absurd rfl (hop offset size)
      | _ => rfl
    unfold StopsClean
    rw [hleaked]
    exact (triple_start (balanced_run hop) d).weaken (fun _ hs ↦ hs) (fun _ _ hq ↦ hq) fun _ _ he ↦ ⟨he, rfl⟩
  · push Not at hop
    obtain ⟨offset, size, rfl⟩ := hop
    exact (refs_allocCompressed d offset size).bind fun _ ↦ triple_pure fun _ h ↦ h

theorem refs_step {d t : Driver g} {op : Op} {result : Option Failure} (h : step fuel codec d op = .ok (t, result)) :
    t.refs = d.refs + leaked fuel d op := by
  have hrun := refs_run fuel codec d op
  unfold step attempt Leases.attempt at h
  cases hx : op.run fuel codec d with
  | ok a s =>
    rw [hx] at h
    cases h
    exact hrun.ok rfl hx
  | error e s =>
    obtain ⟨⟨hheld, -⟩, hleaked⟩ := hrun.error rfl hx
    rw [hx] at h
    by_cases hret : e.returns = true
    · simp only [hret, dif_pos] at h
      cases h
      rw [hleaked, add_zero]
      exact hheld hret
    · simp only [hret] at h
      cases h

theorem balanced_step_iff {d t : Driver g} {op : Op} {result : Option Failure}
    (h : step fuel codec d op = .ok (t, result)) :
    t.refs = d.refs ↔ ¬ MeetsCopied fuel d op := by
  rw [refs_step h, ← leaked_eq_zero_iff]
  exact add_eq_left

def Unheld (d : Driver g) : Prop := d.refs = 0

/-- The operation puts no table that is not held, and the search for an entry to be replaced only fails where hits are
at `INT_MAX`. -/
def NeverAborts (fuel : Nat) (codec : Codec) (d : Driver g) (op : Op) : Prop :=
  ∀ e t, op.run fuel codec d = .error e t → e ≠ .fault .assertion ∧ (e = .fault .abort → Worn t.journal.caches)

def Destroyable (d : Driver g) : Prop := ∀ c, cacheDestroy c d = .ok () d

theorem Unheld.neverAborts {d : Driver g} (h : Unheld d) (op : Op) : NeverAborts fuel codec d op := by
  intro e t hrun
  obtain ⟨⟨-, hstops⟩, -⟩ := (refs_run fuel codec d op).error rfl hrun
  have hroom : Room demand d.refs := h ▸ room_zero
  refine ⟨?_, ?_⟩
  · rintro rfl
    exact hstops rfl hroom
  · rintro rfl
    exact hstops rfl hroom

theorem Unheld.destroyable {d : Driver g} (h : Unheld d) : Destroyable d := by
  intro c
  have hall : ∀ i, (d.journal.caches.entries ⟨c, i⟩).ref = 0 := fun i ↦ congrFun h ⟨c, i⟩
  change (if ∀ i, (d.journal.caches.entries ⟨c, i⟩).ref = 0 then pure () else throw .abort : Io g Unit) d = _
  rw [if_pos hall]
  rfl

theorem step_of_meetsCopied (codec : Codec) {d : Driver g} {op : Op} (h : MeetsCopied fuel d op) :
    ∃ t result, step fuel codec d op = .ok (t, result) := by
  unfold step attempt Leases.attempt
  cases hx : op.run fuel codec d with
  | ok a t => exact ⟨t, none, rfl⟩
  | error e t =>
    have hleaked := ((refs_run fuel codec d op).error rfl hx).2
    exact absurd h ((leaked_eq_zero_iff d op).mp hleaked)

theorem unheld_iff {d : Driver g} {ops : List Op} (h : Unheld d) :
    Throughout (step fuel codec) Unheld d ops ↔
      Attempts (step fuel codec) (fun t op ↦ ¬ MeetsCopied fuel t op) d ops := by
  constructor
  · intro hall pre op t hp hr hcopied
    obtain ⟨u, result, hs⟩ := step_of_meetsCopied codec hcopied
    have ht : Unheld t := hall pre t ((List.prefix_append pre [op]).trans hp) hr
    have hu : Unheld u := hall _ u hp (hr.trans (.one hs))
    exact (balanced_step_iff hs).mp (hu.trans ht.symm) hcopied
  · exact throughout_of_attempts h fun s op t result _ hs hop hstep ↦ ((balanced_step_iff hstep).mpr hop).trans hs

/-- The caches get every reference back, unless a compressed write meets a cluster that is copied already. -/
theorem references_balanced_iff (fuel : Nat) (codec : Codec) :
    (∀ (d t : Driver g) op result, step fuel codec d op = .ok (t, result) →
      (t.refs = d.refs ↔ ¬ MeetsCopied fuel d op)) ∧
    ∀ (d : Driver g) ops, Unheld d →
      (Throughout (step fuel codec) Unheld d ops ↔
        Attempts (step fuel codec) (fun t op ↦ ¬ MeetsCopied fuel t op) d ops) ∧
      (Attempts (step fuel codec) (fun t op ↦ ¬ MeetsCopied fuel t op) d ops →
        Attempts (step fuel codec) (NeverAborts fuel codec) d ops ∧
          Throughout (step fuel codec) Destroyable d ops) := by
  refine ⟨fun d t op result hs ↦ balanced_step_iff hs, fun d ops hd ↦ ⟨unheld_iff hd, fun hops ↦ ?_⟩⟩
  have hall := (unheld_iff hd).mpr hops
  refine ⟨fun pre op t hp hr ↦ ?_, fun pre t hp hr ↦ (hall pre t hp hr).destroyable⟩
  exact (hall pre t ((List.prefix_append pre [op]).trans hp) hr).neverAborts op

end Runs

section Small

instance (offset : Nat) : (r : EStateM.Result Stop (Driver g) (Handle .l2Table)) → Decidable (isCopiedAt offset r)
  | .ok _ _ => inferInstanceAs (Decidable (isCopied _))
  | .error _ _ => inferInstanceAs (Decidable False)

instance (d : Driver g) : (op : Op) → Decidable (MeetsCopied fuel d op)
  | .allocCompressedClusterOffset _ _ => inferInstanceAs (Decidable (isCopiedAt _ _))
  | .getClusterOffset _ _ | .allocClusterOffset _ _ _ | .allocClusterLinkL2 _ | .discardClusters _ _
  | .allocClusters _ | .freeClusters _ _ | .flush _ | .data _ _ => inferInstanceAs (Decidable False)

def smallGeometry : Geometry := .smallest

def plain : Codec where
  host := { zero := fun _ ↦ 0, backing := none, inflate := fun _ _ ↦ none }

/-- An image with more L2 tables than the cache holds, of which each has a cluster to itself in its first entry. -/
def smallDriver : Driver smallGeometry where
  journal := Barrier.create (fun a ↦ if a % 512 = 0 then 0x80 else if a % 512 = 6 then 0x04 else 0) (fun _ ↦ false)
    (fun _ _ ↦ 0) fun _ ↦ none
  l1Table := (List.range 17).map fun k ↦ BitVec.ofNat 64 (512 * (k + 1)) ||| oflagCopied
  l1TableOffset := 512 * 18
  refcountTable := [512 * 20]
  refcountTableOffset := 512 * 19
  freeClusterIndex := 21

/-- A compressed write to the cluster of an L2 table. -/
def overwrite (k : Nat) : Op := .allocCompressedClusterOffset (32768 * k) 100

def firstTable : Slot cacheSize := ⟨.l2Table, ⟨0, by decide⟩⟩

def stopsWith (e : Stop) : EStateM.Result Stop (Driver g) Unit → Bool
  | .ok _ _ => false
  | .error e' _ => e' = e

theorem error_of_stopsWith {e : Stop} {r : EStateM.Result Stop (Driver g) Unit} (h : stopsWith e r = true) :
    ∃ t, r = .error e t := by
  cases r with
  | ok a t => cases h
  | error e' t => exact ⟨t, by rw [of_decide_eq_true h]⟩

theorem references_balanced_fails : Unheld smallDriver ∧
    (∃ t, Run (step 1 plain) smallDriver [overwrite 0] t ∧ t.refs firstTable = 1) ∧
    ∃ t u, Run (step 1 plain) smallDriver ((List.range 16).map overwrite) t ∧
      (∀ i, t.refs ⟨.l2Table, i⟩ = 1) ∧ (overwrite 16).run 1 plain t = .error (.fault .abort) u := by
  refine ⟨rfl, exists_run_of_exec (by decide +kernel), ?_⟩
  have hexec : ∃ t, Run (step 1 plain) smallDriver ((List.range 16).map overwrite) t ∧
      (∀ i, t.refs ⟨.l2Table, i⟩ = 1) ∧
        stopsWith (.fault .abort) ((overwrite 16).run 1 plain t) = true :=
    exists_run_of_exec (by decide +kernel)
  obtain ⟨t, hrun, hheld, hstop⟩ := hexec
  obtain ⟨u, hu⟩ := error_of_stopsWith hstop
  exact ⟨t, u, hrun, hheld, hu⟩

/-- Clusters are allocated, compressed and not, read, linked and discarded. -/
def conversion : List Op :=
  [.allocCompressedClusterOffset 512 100, .getClusterOffset 512 8, .discardClusters 512 1, .allocClusterOffset 1024 0 3,
    .allocClusterLinkL2 { offset := 1024, nbAvailable := 3, nbClusters := 3, clusterOffset := 512 * 22 },
    .freeClusters 512 512, .flush .l2Table]

theorem references_balanced_conversion :
    (∃ t result, step 6 plain smallDriver (.allocCompressedClusterOffset 512 100) = .ok (t, result) ∧
      t.refs = smallDriver.refs) ∧
    Throughout (step 6 plain) Unheld smallDriver conversion ∧
    Throughout (step 6 plain) Destroyable smallDriver conversion := by
  obtain ⟨hstep, hruns⟩ := references_balanced_iff (g := smallGeometry) 6 plain
  obtain ⟨hunheld, hsafe⟩ := hruns smallDriver conversion rfl
  refine ⟨?_, hunheld.mpr (by decide +kernel), (hsafe (by decide +kernel)).2⟩
  have hexec : ∃ t, Run (step 6 plain) smallDriver [.allocCompressedClusterOffset 512 100] t ∧ True :=
    exists_run_of_exec (by decide +kernel)
  obtain ⟨t, hrun, -⟩ := hexec
  cases hrun with
  | cons hs hnil => exact ⟨_, _, hs, (hstep _ _ _ _ hs).mpr (by decide +kernel)⟩

end Small

end IDeviceEmulator.Qcow2.Handles
