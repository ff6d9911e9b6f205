import IDeviceEmulator.Library.Loop
import IDeviceEmulator.Library.Machine
import IDeviceEmulator.Library.Memory

namespace IDeviceEmulator.Virtio

open Memory Loop

def virtqueueMaxSize : Nat := 1024

/-- A ring lies in guest memory, at addresses of `w` bits. -/
structure VRing (w : Nat) where
  num : Nat
  desc : BitVec w
  avail : BitVec w
  num_le : num ≤ virtqueueMaxSize

structure VirtQueue (w : Nat) where
  vring : VRing w
  lastAvailIdx : BitVec 16
  inuse : Int

/-- An entry of `in_addr` and `in_sg`, or of `out_addr` and `out_sg`. -/
structure Entry (w : Nat) where
  addr : BitVec w
  iovLen : BitVec 32
  iovBase : Option (BitVec 64)

/-- The entries stored in one direction; they fit into the arrays of the element. -/
structure Sg (w : Nat) where
  entries : List (Entry w)
  length_le : entries.length ≤ virtqueueMaxSize

structure VirtQueueElement (w : Nat) where
  index : Nat
  outSg : Sg w
  inSg : Sg w

/-- The reasons for `exit(1)`. -/
inductive Fatal
  | guestMovedUsedIndex (idx availIdx : BitVec 16)
  | guestSaysAvailable (head : Nat)
  | descNext (next : Nat)
  | invalidSizeForIndirectBufferTable
  | loopedDescriptor
  | tryingToMapMmio

/-- `storesAt` is a store at an index that the arrays of the element do not have. -/
inductive Stop
  | exits (reason : Fatal)
  | storesAt (index : Nat)

variable {w : Nat}

section Ring

variable (m : Mem w)

def lduwPhys (pa : BitVec w) : BitVec 16 := m (pa + 1) ++ m pa

def ldlPhys (pa : BitVec w) : BitVec 32 := word m pa

def ldqPhys (pa : BitVec w) : BitVec 64 := word m (pa + 4) ++ word m pa

def vringDescAddr (descPa : BitVec w) (i : Nat) : BitVec w :=
  (ldqPhys m (descPa + BitVec.ofNat w (16 * i))).setWidth w

def vringDescLen (descPa : BitVec w) (i : Nat) : BitVec 32 := ldlPhys m (descPa + BitVec.ofNat w (16 * i + 8))

def vringDescFlags (descPa : BitVec w) (i : Nat) : BitVec 16 := lduwPhys m (descPa + BitVec.ofNat w (16 * i + 12))

def vringDescNext (descPa : BitVec w) (i : Nat) : Nat := (lduwPhys m (descPa + BitVec.ofNat w (16 * i + 14))).toNat

def vringAvailIdx (vq : VirtQueue w) : BitVec 16 := lduwPhys m (vq.vring.avail + 2)

def vringAvailRing (vq : VirtQueue w) (i : Nat) : Nat :=
  (lduwPhys m (vq.vring.avail + BitVec.ofNat w (4 + 2 * i))).toNat

def descFNext (flags : BitVec 16) : Bool := flags.getLsbD 0

def descFWrite (flags : BitVec 16) : Bool := flags.getLsbD 1

def descFIndirect (flags : BitVec 16) : Bool := flags.getLsbD 2

def virtqueueNumHeads (vq : VirtQueue w) (idx : BitVec 16) : Except Stop Nat :=
  let numHeads := (vringAvailIdx m vq - idx).toNat
  if vq.vring.num < numHeads then .error (.exits (.guestMovedUsedIndex idx (vringAvailIdx m vq)))
  else .ok numHeads

def virtqueueGetHead (vq : VirtQueue w) (idx : BitVec 16) : Except Stop Nat :=
  let head := vringAvailRing m vq (idx.toNat % vq.vring.num)
  if vq.vring.num ≤ head then .error (.exits (.guestSaysAvailable head)) else .ok head

def virtqueueNextDesc (descPa : BitVec w) (i max : Nat) : Except Stop Nat :=
  if !descFNext (vringDescFlags m descPa i) then .ok max
  else
    let next := vringDescNext m descPa i
    if max ≤ next then .error (.exits (.descNext next)) else .ok next

/-- The table `virtqueue_pop` reads its descriptors from, with the number of the first one. -/
structure Table (w : Nat) where
  descPa : BitVec w
  first : Nat
  max : Nat

/-- The table of a head, which is the ring or the indirect table of its descriptor. -/
def VirtQueue.table (vq : VirtQueue w) (head : Nat) : Except Stop (Table w) :=
  let descPa := vq.vring.desc
  if descFIndirect (vringDescFlags m descPa head) then
    if (vringDescLen m descPa head).toNat % 16 ≠ 0 then .error (.exits .invalidSizeForIndirectBufferTable)
    else .ok ⟨vringDescAddr m descPa head, 0, (vringDescLen m descPa head).toNat / 16⟩
  else .ok ⟨descPa, head, vq.vring.num⟩

def Sg.empty : Sg w := ⟨[], Nat.zero_le _⟩

def Sg.store (sg : Sg w) (entry : Entry w) : Except Stop (Sg w) :=
  if h : sg.entries.length < virtqueueMaxSize then
    .ok ⟨sg.entries ++ [entry], by rw [List.length_append]; exact h⟩
  else .error (.storesAt sg.entries.length)

/-- The store of one turn of the loop. -/
def VirtQueueElement.collect (elem : VirtQueueElement w) (descPa : BitVec w) (i : Nat) :
    Except Stop (VirtQueueElement w) :=
  let entry := ⟨vringDescAddr m descPa i, vringDescLen m descPa i, none⟩
  if descFWrite (vringDescFlags m descPa i) then (elem.inSg.store entry).map fun inSg ↦ { elem with inSg }
  else (elem.outSg.store entry).map fun outSg ↦ { elem with outSg }

def VirtQueueElement.num (elem : VirtQueueElement w) : Nat := elem.inSg.entries.length + elem.outSg.entries.length

/-- One turn of the loop that collects the descriptors. -/
def collectTurn (descPa : BitVec w) (max : Nat) :
    VirtQueueElement w × Nat → (VirtQueueElement w × Nat) ⊕ Except Stop (VirtQueueElement w)
  | (elem, i) =>
    match elem.collect m descPa i with
    | .error stop => .inr (.error stop)
    | .ok elem =>
      if max < elem.num then .inr (.error (.exits .loopedDescriptor))
      else
        match virtqueueNextDesc m descPa i max with
        | .error stop => .inr (.error stop)
        | .ok next => if next = max then .inr (.ok elem) else .inl (elem, next)

end Ring

/-- `cpu_physical_memory_map`: the host address, and the length that is mapped. -/
abbrev PhysicalMemoryMap (w : Nat) := BitVec w → BitVec 32 → Bool → Option (BitVec 64 × BitVec w)

def mapEntry (map : PhysicalMemoryMap w) (isWrite : Bool) (entry : Entry w) : Except Stop (Entry w) :=
  match map entry.addr entry.iovLen isWrite with
  | none => .error (.exits .tryingToMapMmio)
  | some (base, len) =>
    if len.setWidth 64 ≠ entry.iovLen.setWidth 64 then .error (.exits .tryingToMapMmio)
    else .ok { entry with iovBase := some base }

def virtqueueMapEntries (map : PhysicalMemoryMap w) (isWrite : Bool) : List (Entry w) → Except Stop (List (Entry w))
  | [] => .ok []
  | entry :: entries => do
    let entry ← mapEntry map isWrite entry
    let entries ← virtqueueMapEntries map isWrite entries
    return entry :: entries

theorem length_virtqueueMapEntries {map : PhysicalMemoryMap w} {isWrite : Bool} {entries mapped : List (Entry w)}
    (h : virtqueueMapEntries map isWrite entries = .ok mapped) : mapped.length = entries.length := by
  induction entries generalizing mapped with
  | nil =>
    cases h
    rfl
  | cons entry entries ih =>
    rw [virtqueueMapEntries] at h
    obtain ⟨entry', -, hrest⟩ := Machine.ok_of_bind h
    obtain ⟨entries', hentries, hok⟩ := Machine.ok_of_bind hrest
    cases hok
    exact congrArg (· + 1) (ih hentries)

def virtqueueMapSg (map : PhysicalMemoryMap w) (isWrite : Bool) (sg : Sg w) : Except Stop (Sg w) :=
  match h : virtqueueMapEntries map isWrite sg.entries with
  | .error stop => .error stop
  | .ok entries => .ok ⟨entries, (length_virtqueueMapEntries h).trans_le sg.length_le⟩

/-- The head that is popped and its table, if there is one. -/
def VirtQueue.nextTable (m : Mem w) (vq : VirtQueue w) : Except Stop (Option (Nat × Table w)) := do
  let numHeads ← virtqueueNumHeads m vq vq.lastAvailIdx
  if numHeads = 0 then return none
  let head ← virtqueueGetHead m vq vq.lastAvailIdx
  let table ← vq.table m head
  return some (head, table)

/-- The end of `virtqueue_pop`, when the descriptors are collected. -/
def mapCollected (map : PhysicalMemoryMap w) (vq : VirtQueue w) (head : Nat) (elem : VirtQueueElement w) :
    Except Stop (VirtQueue w × VirtQueueElement w × Nat) := do
  let inSg ← virtqueueMapSg map true elem.inSg
  let outSg ← virtqueueMapSg map false elem.outSg
  let vq := { vq with lastAvailIdx := vq.lastAvailIdx + 1, inuse := vq.inuse + 1 }
  return (vq, ⟨head, outSg, inSg⟩, elem.num)

/-- `fuel` bounds the turns of the loop that collects the descriptors. -/
def virtqueuePop (m : Mem w) (map : PhysicalMemoryMap w) (vq : VirtQueue w) (elem : VirtQueueElement w)
    (fuel : Nat) : Option (Except Stop (VirtQueue w × VirtQueueElement w × Nat)) :=
  match vq.nextTable m with
  | .error stop => some (.error stop)
  | .ok none => some (.ok (vq, elem, 0))
  | .ok (some (head, table)) =>
    (run (collectTurn m table.descPa table.max) fuel (⟨elem.index, .empty, .empty⟩, table.first)).map fun r ↦ do
      let elem ← r
      mapCollected map vq head elem

/-- No store went beyond the arrays of the element. -/
def InBounds {α : Type} (r : Except Stop α) : Prop := ∀ index, r = .error (.storesAt index) → index < virtqueueMaxSize

/-- The descriptors of a chain, at most `n` of them. -/
def chain (m : Mem w) (descPa : BitVec w) (max : Nat) : Nat → Nat → List Nat
  | 0, _ => []
  | n + 1, i =>
    let next := vringDescNext m descPa i
    if descFNext (vringDescFlags m descPa i) ∧ next < max then i :: chain m descPa max n next else [i]

/-- What the loop visits of a table: the chain, up to one descriptor more than the table has. -/
def Table.visited (m : Mem w) (table : Table w) : List Nat := chain m table.descPa table.max (table.max + 1) table.first

def Table.writable (m : Mem w) (table : Table w) (i : Nat) : Bool := descFWrite (vringDescFlags m table.descPa i)

/-- The arrays have room for what the loop visits. -/
def Table.Fits (m : Mem w) (table : Table w) : Prop :=
  (table.visited m).countP (table.writable m) ≤ virtqueueMaxSize ∧
    (table.visited m).countP (fun i ↦ !table.writable m i) ≤ virtqueueMaxSize

/-- The arrays have room for the descriptors `l` beyond what is in them. -/
def VirtQueueElement.Room (m : Mem w) (descPa : BitVec w) (elem : VirtQueueElement w) (l : List Nat) : Prop :=
  elem.inSg.entries.length + l.countP (fun i ↦ descFWrite (vringDescFlags m descPa i)) ≤ virtqueueMaxSize ∧
    elem.outSg.entries.length + l.countP (fun i ↦ !descFWrite (vringDescFlags m descPa i)) ≤ virtqueueMaxSize

section Collect

variable {m : Mem w} {elem elem' : VirtQueueElement w} {descPa : BitVec w} {i max : Nat}

theorem Sg.store_eq (sg : Sg w) (entry : Entry w) :
    (virtqueueMaxSize ≤ sg.entries.length ∧ sg.store entry = .error (.storesAt sg.entries.length)) ∨
    ∃ sg', sg.store entry = .ok sg' ∧ sg'.entries.length = sg.entries.length + 1 := by
  unfold Sg.store
  split
  · exact .inr ⟨_, rfl, List.length_append⟩
  · exact .inl ⟨Nat.le_of_not_lt ‹_›, rfl⟩

theorem VirtQueueElement.room_nil (elem : VirtQueueElement w) : elem.Room m descPa [] :=
  ⟨elem.inSg.length_le, elem.outSg.length_le⟩

/-- A turn stores one more entry in the direction of its descriptor, or beyond the array of
that direction. -/
theorem VirtQueueElement.collect_eq (elem : VirtQueueElement w) (m : Mem w) (descPa : BitVec w) (i : Nat) :
    (∃ index, elem.collect m descPa i = .error (.storesAt index) ∧ virtqueueMaxSize ≤ index ∧
      ∀ l, ¬ elem.Room m descPa (i :: l)) ∨
    ∃ elem', elem.collect m descPa i = .ok elem' ∧ elem'.num = elem.num + 1 ∧
      ∀ l, elem.Room m descPa (i :: l) ↔ elem'.Room m descPa l := by
  unfold VirtQueueElement.collect
  generalize (⟨vringDescAddr m descPa i, vringDescLen m descPa i, none⟩ : Entry w) = entry
  cases hwrites : descFWrite (vringDescFlags m descPa i) with
  | true =>
    rcases elem.inSg.store_eq entry with ⟨hfull, hstore⟩ | ⟨sg, hstore, hlength⟩
    · refine .inl ⟨_, by simp [hstore, Except.map], hfull, fun l hroom ↦ ?_⟩
      simp only [VirtQueueElement.Room, List.countP_cons, hwrites, if_true] at hroom
      omega
    · refine .inr ⟨{ elem with inSg := sg }, by simp [hstore, Except.map], ?_, fun l ↦ ?_⟩
      · unfold VirtQueueElement.num
        dsimp only
        omega
      · simp only [VirtQueueElement.Room, List.countP_cons, hwrites, Bool.not_true, if_true, hlength]
        simp only [Bool.false_eq_true, if_false, Nat.add_zero]
        omega
  | false =>
    rcases elem.outSg.store_eq entry with ⟨hfull, hstore⟩ | ⟨sg, hstore, hlength⟩
    · refine .inl ⟨_, by simp [hstore, Except.map], hfull, fun l hroom ↦ ?_⟩
      simp only [VirtQueueElement.Room, List.countP_cons, hwrites, Bool.not_false, if_true] at hroom
      omega
    · refine .inr ⟨{ elem with outSg := sg }, by simp [hstore, Except.map], ?_, fun l ↦ ?_⟩
      · unfold VirtQueueElement.num
        dsimp only
        omega
      · simp only [VirtQueueElement.Room, List.countP_cons, hwrites, Bool.not_false, if_true, hlength]
        simp only [Bool.false_eq_true, if_false, Nat.add_zero]
        omega

theorem inBounds_ok {α : Type} (a : α) : InBounds (.ok a : Except Stop α) := by
  intro index h
  cases h

theorem inBounds_exits {α : Type} (reason : Fatal) : InBounds (.error (.exits reason) : Except Stop α) := by
  intro index h
  cases h

theorem not_inBounds {α : Type} {index : Nat} (h : virtqueueMaxSize ≤ index) :
    ¬ InBounds (.error (.storesAt index) : Except Stop α) := by
  intro hin
  exact absurd (hin index rfl) (Nat.not_lt.mpr h)

/-- What a turn goes on with. -/
theorem virtqueueNextDesc_eq (m : Mem w) (descPa : BitVec w) (i max : Nat) :
    (descFNext (vringDescFlags m descPa i) ∧ vringDescNext m descPa i < max ∧
      virtqueueNextDesc m descPa i max = .ok (vringDescNext m descPa i)) ∨
    (¬ (descFNext (vringDescFlags m descPa i) ∧ vringDescNext m descPa i < max) ∧
      (virtqueueNextDesc m descPa i max = .ok max ∨
        ∃ reason, virtqueueNextDesc m descPa i max = .error (.exits reason))) := by
  unfold virtqueueNextDesc
  by_cases hflag : descFNext (vringDescFlags m descPa i)
  · by_cases hnext : vringDescNext m descPa i < max
    · exact .inl ⟨hflag, hnext, by simp [hflag, Nat.not_le.mpr hnext]⟩
    · refine .inr ⟨fun h ↦ hnext h.2, .inr ⟨.descNext (vringDescNext m descPa i), ?_⟩⟩
      simp [hflag, Nat.le_of_not_lt hnext]
  · exact .inr ⟨fun h ↦ hflag h.1, .inl (by simp [hflag])⟩

-- The induction is on the number of turns that are left before the check of a looped chain.
theorem collects {n : Nat} (hnum : elem.num + n = max) :
    ∃ r, Ends (collectTurn m descPa max) (elem, i) r ∧
      (InBounds r ↔ elem.Room m descPa (chain m descPa max (n + 1) i)) := by
  induction n generalizing elem i with
  | zero =>
    have hchain : chain m descPa max (0 + 1) i = [i] := by
      rw [chain]
      split <;> rfl
    rw [hchain]
    rcases elem.collect_eq m descPa i with ⟨index, hcollect, hindex, hroom⟩ | ⟨elem', hcollect, hnum', hroom⟩
    · refine ⟨.error (.storesAt index), .exit (by simp [collectTurn, hcollect]), ?_⟩
      exact iff_of_false (not_inBounds hindex) (hroom [])
    · refine ⟨.error (.exits .loopedDescriptor), .exit ?_, ?_⟩
      · have hlooped : max < elem'.num := by omega
        simp [collectTurn, hcollect, hlooped]
      · exact iff_of_true (inBounds_exits _) ((hroom []).mpr elem'.room_nil)
  | succ n ih =>
    rw [chain]
    rcases elem.collect_eq m descPa i with ⟨index, hcollect, hindex, hroom⟩ | ⟨elem', hcollect, hnum', hroom⟩
    · refine ⟨.error (.storesAt index), .exit (by simp [collectTurn, hcollect]), ?_⟩
      split
      · exact iff_of_false (not_inBounds hindex) (hroom _)
      · exact iff_of_false (not_inBounds hindex) (hroom _)
    · have hshort : ¬ max < elem'.num := by omega
      rcases virtqueueNextDesc_eq m descPa i max with ⟨hflag, hlt, hnext⟩ | ⟨hlast, hnext⟩
      · obtain ⟨r, hends, hr⟩ := @ih elem' (vringDescNext m descPa i) (by omega)
        refine ⟨r, .turn ?_ hends, ?_⟩
        · simp [collectTurn, hcollect, hshort, hnext, Nat.ne_of_lt hlt]
        · rw [if_pos ⟨hflag, hlt⟩]
          exact hr.trans (hroom _).symm
      · rw [if_neg hlast]
        have hfits := (hroom []).mpr elem'.room_nil
        rcases hnext with hok | ⟨reason, herror⟩
        · exact ⟨.ok elem', .exit (by simp [collectTurn, hcollect, hshort, hok]), iff_of_true (inBounds_ok _) hfits⟩
        · exact ⟨.error (.exits reason), .exit (by simp [collectTurn, hcollect, hshort, herror]),
            iff_of_true (inBounds_exits _) hfits⟩

end Collect

section Pop

variable {α β : Type} {m : Mem w} {vq : VirtQueue w}

theorem InBounds.bind {x : Except Stop α} {f : α → Except Stop β} (hx : InBounds x) (hf : ∀ a, InBounds (f a)) :
    InBounds (x >>= f) := by
  cases x with
  | error stop =>
    intro index h
    cases h
    exact hx index rfl
  | ok a => exact hf a

theorem inBounds_nextTable (m : Mem w) (vq : VirtQueue w) : InBounds (vq.nextTable m) := by
  refine InBounds.bind ?_ fun numHeads ↦ ?_
  · unfold virtqueueNumHeads
    dsimp only
    split
    · exact inBounds_exits _
    · exact inBounds_ok _
  · split
    · exact inBounds_ok none
    · refine InBounds.bind ?_ fun head ↦ InBounds.bind ?_ fun table ↦ inBounds_ok _
      · unfold virtqueueGetHead
        dsimp only
        split
        · exact inBounds_exits _
        · exact inBounds_ok _
      · unfold VirtQueue.table
        dsimp only
        split
        · split
          · exact inBounds_exits _
          · exact inBounds_ok _
        · exact inBounds_ok _

theorem inBounds_virtqueueMapEntries (map : PhysicalMemoryMap w) (isWrite : Bool) (entries : List (Entry w)) :
    InBounds (virtqueueMapEntries map isWrite entries) := by
  induction entries with
  | nil => exact inBounds_ok []
  | cons entry entries ih =>
    refine InBounds.bind ?_ fun entry' ↦ ih.bind fun entries' ↦ inBounds_ok _
    unfold mapEntry
    split
    · exact inBounds_exits _
    · split
      · exact inBounds_exits _
      · exact inBounds_ok _

theorem inBounds_virtqueueMapSg (map : PhysicalMemoryMap w) (isWrite : Bool) (sg : Sg w) :
    InBounds (virtqueueMapSg map isWrite sg) := by
  have hentries := inBounds_virtqueueMapEntries map isWrite sg.entries
  unfold virtqueueMapSg
  split
  case h_1 stop hstop =>
    intro index h
    cases h
    exact hentries index hstop
  case h_2 => exact inBounds_ok _

theorem inBounds_mapCollected (map : PhysicalMemoryMap w) (vq : VirtQueue w) (head : Nat) (elem : VirtQueueElement w) :
    InBounds (mapCollected map vq head elem) := by
  refine (inBounds_virtqueueMapSg map true elem.inSg).bind fun inSg ↦ ?_
  exact (inBounds_virtqueueMapSg map false elem.outSg).bind fun outSg ↦ inBounds_ok _

theorem inBounds_bind_iff {x : Except Stop α} {f : α → Except Stop β} (hf : ∀ a, InBounds (f a)) :
    InBounds (x >>= f) ↔ InBounds x := by
  constructor
  · intro h index hx
    apply h index
    rw [hx]
    rfl
  · exact fun hx ↦ hx.bind hf

/-- The loop stays in bounds just when the arrays have room for what it visits. -/
theorem collects_table (m : Mem w) (table : Table w) (index : Nat) :
    ∃ r, Ends (collectTurn m table.descPa table.max) (⟨index, .empty, .empty⟩, table.first) r ∧
      (InBounds r ↔ table.Fits m) := by
  obtain ⟨r, hends, hr⟩ := @collects _ m ⟨index, .empty, .empty⟩ table.descPa table.first table.max table.max
    (Nat.zero_add _)
  refine ⟨r, hends, hr.trans ?_⟩
  simp only [VirtQueueElement.Room, Sg.empty, List.length_nil, Nat.zero_add]
  exact Iff.rfl

theorem virtqueuePop_of_table {head : Nat} {table : Table w} (map : PhysicalMemoryMap w) (elem : VirtQueueElement w)
    (h : vq.nextTable m = .ok (some (head, table))) :
    ∃ r, Settles (virtqueuePop m map vq elem) r ∧ (InBounds r ↔ table.Fits m) := by
  obtain ⟨r, hends, hr⟩ := collects_table m table elem.index
  refine ⟨r >>= mapCollected map vq head, ?_, ?_⟩
  · unfold virtqueuePop
    rw [h]
    exact .map hends.eventually
  · exact (inBounds_bind_iff (inBounds_mapCollected map vq head)).trans hr

end Pop

/-- `virtqueue_pop` ends on every guest memory, and all its stores are in bounds if and only if
the descriptors it visits, which are at most one more than the table has, are no more than 1024
in either direction. -/
theorem pop_in_bounds_iff (m : Mem w) (map : PhysicalMemoryMap w) (vq : VirtQueue w) (elem : VirtQueueElement w) :
    ∃ r, Settles (virtqueuePop m map vq elem) r ∧
      (InBounds r ↔ ∀ head table, vq.nextTable m = .ok (some (head, table)) → table.Fits m) := by
  have hnext := inBounds_nextTable m vq
  cases htable : vq.nextTable m with
  | error stop =>
    refine ⟨.error stop, .of_forall fun _ ↦ by simp only [virtqueuePop, htable], iff_of_true ?_ ?_⟩
    · intro index h
      cases h
      exact hnext index htable
    · intro head table h
      cases h
  | ok next =>
    cases next with
    | none =>
      refine ⟨.ok (vq, elem, 0), .of_forall fun _ ↦ by simp only [virtqueuePop, htable], ?_⟩
      refine iff_of_true (inBounds_ok _) ?_
      intro head table h
      cases h
    | some p =>
      obtain ⟨head, table⟩ := p
      obtain ⟨r, hr, hiff⟩ := virtqueuePop_of_table map elem htable
      refine ⟨r, hr, hiff.trans ?_⟩
      constructor
      · intro hfits head' table' h
        cases h
        exact hfits
      · intro h
        exact h head table rfl

/-- A ring of 1024 descriptors with one available head, whose descriptor is writable and its
own successor. -/
def loopedMemory : Mem 64 := fun a ↦ if a = 12 then 3 else if a = 16386 then 1 else 0

def loopedRing : VirtQueue 64 := ⟨⟨1024, 0, 16384, Nat.le_refl _⟩, 0, 0⟩

theorem chain_looped (n : Nat) : chain loopedMemory 0 1024 n 0 = List.replicate n 0 := by
  induction n with
  | zero => rfl
  | succ n ih =>
    have hnext : vringDescNext loopedMemory 0 0 = 0 := by decide +kernel
    have hflag : descFNext (vringDescFlags loopedMemory 0 0) = true := by decide +kernel
    rw [chain, hnext, hflag, ih]
    rfl

theorem pop_in_bounds_fails :
    ∃ r, Settles (virtqueuePop loopedMemory (fun _ _ _ ↦ none) loopedRing ⟨0, .empty, .empty⟩) r ∧ ¬ InBounds r := by
  have htable : loopedRing.nextTable loopedMemory = .ok (some (0, ⟨0, 0, 1024⟩)) := by rfl
  obtain ⟨r, hr, hiff⟩ := virtqueuePop_of_table (fun _ _ _ ↦ none) ⟨0, .empty, .empty⟩ htable
  refine ⟨r, hr, fun hin ↦ ?_⟩
  have hfits := (hiff.mp hin).1
  have hwrite : descFWrite (vringDescFlags loopedMemory 0 0) = true := by decide +kernel
  simp only [Table.visited, chain_looped, Table.writable, List.countP_replicate, hwrite] at hfits
  exact absurd hfits (by decide)

end IDeviceEmulator.Virtio
