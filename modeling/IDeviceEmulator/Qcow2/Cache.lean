import Mathlib.Algebra.GroupWithZero.Nat
import Mathlib.Data.List.FinRange
import Mathlib.Logic.Function.Basic
import Mathlib.Tactic.Common

namespace IDeviceEmulator.Qcow2

abbrev Byte := BitVec 8

abbrev File := Nat → Byte

/-- The contents of a cluster. -/
abbrev Table (m : Nat) := Fin m → Byte

section Host

variable {m : Nat}

def bdrvPread (file : File) (offset : Nat) : Table m := fun i ↦ file (offset + i.val)

def bdrvPwrite (file : File) (offset : Nat) (t : Table m) : File :=
  fun a ↦ if h : offset ≤ a ∧ a < offset + m then t ⟨a - offset, by omega⟩ else file a

end Host

/-- The caches of `BDRVQcowState`. -/
inductive Which
  | l2Table
  | refcountBlock
deriving DecidableEq

/-- `INT_MAX`. -/
def intMax : Nat := 2 ^ 31 - 1

inductive Fault
  /-- `abort` of `qcow2_cache_find_entry_to_replace`. -/
  | abort
  /-- A table is put that is not held. -/
  | assertion
  /-- The hit counter does not fit an `int`. -/
  | overflow
  /-- A flush leads back to itself. -/
  | diverges
deriving DecidableEq

structure CachedTable (m : Nat) where
  table : Table m
  offset : Nat := 0
  dirty : Bool := false
  cacheHits : Nat := 0
  ref : Nat := 0

/-- The entries of the two caches. A table that is held is known by its slot. -/
abbrev Slot (size : Which → Nat) := (c : Which) × Fin (size c)

structure Caches (m : Nat) (size : Which → Nat) where
  file : File
  entries : Slot size → CachedTable m
  depends : Which → Option Which
  dependsOnFlush : Which → Bool
  writethrough : Which → Bool

section Operations

variable {m : Nat} {size : Which → Nat} (s : Caches m size)

def Caches.modify (slot : Slot size) (f : CachedTable m → CachedTable m) : Caches m size :=
  { s with entries := Function.update s.entries slot (f (s.entries slot)) }

/-- `qcow2_cache_create` for both caches, whose buffers are not initialised. -/
def cacheCreate (file : File) (writethrough : Which → Bool) (buffers : Slot size → Table m) : Caches m size where
  file := file
  entries := fun slot ↦ { table := buffers slot }
  depends := fun _ ↦ none
  dependsOnFlush := fun _ ↦ false
  writethrough := writethrough

section Flush

variable (flush : Which → Caches m size → Except Fault (Caches m size))

def cacheFlushDependency (c d : Which) : Except Fault (Caches m size) := do
  let s ← flush d s
  return { s with
    depends := Function.update s.depends c none
    dependsOnFlush := Function.update s.dependsOnFlush c false }

/-- What `qcow2_cache_entry_flush` does before it writes. -/
def cacheResolve (c : Which) : Except Fault (Caches m size) :=
  match s.depends c with
  | some d => cacheFlushDependency s flush c d
  | none => .ok { s with dependsOnFlush := Function.update s.dependsOnFlush c false }

def writeBack (slot : Slot size) : Caches m size :=
  { s.modify slot ({ · with dirty := false }) with
    file := bdrvPwrite s.file (s.entries slot).offset (s.entries slot).table }

/-- `qcow2_cache_entry_flush` with the function that flushes another cache. -/
def cacheEntryFlush (slot : Slot size) : Except Fault (Caches m size) :=
  if (s.entries slot).dirty = false ∨ (s.entries slot).offset = 0 then .ok s
  else do
    let s ← cacheResolve s flush slot.1
    return writeBack s slot

def cacheFlushEntries (c : Which) : Except Fault (Caches m size) :=
  (List.finRange (size c)).foldlM (fun s i ↦ cacheEntryFlush s flush ⟨c, i⟩) s

end Flush

/-- `qcow2_cache_flush`, as deep as the dependencies between the caches go. -/
def cacheFlush : Nat → Which → Caches m size → Except Fault (Caches m size)
  | 0, _, _ => .error .diverges
  | depth + 1, c, s => cacheFlushEntries s (cacheFlush depth) c

/-- A cache may depend on another one, which then depends on none. -/
def depth : Nat := 2

/-- A cache that is to be free of a dependency other than the given one. -/
def cacheRelease (c : Which) (keep : Option Which) : Except Fault (Caches m size) :=
  match s.depends c with
  | some d => if some d = keep then .ok s else cacheFlushDependency s (cacheFlush depth) c d
  | none => .ok s

def cacheSetDependency (c dependency : Which) : Except Fault (Caches m size) := do
  let s ← cacheRelease s dependency none
  let s ← cacheRelease s c (some dependency)
  return { s with depends := Function.update s.depends c (some dependency) }

def cacheDependsOnFlush (c : Which) : Caches m size :=
  { s with dependsOnFlush := Function.update s.dependsOnFlush c true }

/-- The index and the hits of the best candidate so far, after one more entry. -/
def candidate {n : Nat} (entries : Fin n → CachedTable m) (best : Option (Fin n) × Nat) (i : Fin n) :
    Option (Fin n) × Nat :=
  if (entries i).ref ≠ 0 then best
  else if (entries i).cacheHits < best.2 then (some i, (entries i).cacheHits)
  else best

/-- The entry that the loop of `qcow2_cache_find_entry_to_replace` ends with. -/
def victim {n : Nat} (entries : Fin n → CachedTable m) : Option (Fin n) :=
  ((List.finRange n).foldl (candidate entries) (none, intMax)).1

/-- The same loop halves the hits of the entries that it looks at. -/
def decay (c : Which) : Caches m size :=
  { s with entries := fun slot ↦
    if slot.1 = c ∧ (s.entries slot).ref = 0 then
      { s.entries slot with cacheHits := (s.entries slot).cacheHits / 2 }
    else s.entries slot }

/-- The end of `qcow2_cache_do_get`. -/
def found (slot : Slot size) : Except Fault (Caches m size × Slot size) :=
  if (s.entries slot).cacheHits = intMax then .error .overflow
  else .ok (s.modify slot fun e ↦ { e with cacheHits := e.cacheHits + 1, ref := e.ref + 1 }, slot)

def lookup (c : Which) (offset : Nat) : Option (Fin (size c)) :=
  (List.finRange (size c)).find? fun i ↦ (s.entries ⟨c, i⟩).offset = offset

/-- `qcow2_cache_do_get` puts a table in the place of another. -/
def cacheReplace (slot : Slot size) (offset : Nat) (readFromDisk : Bool) : Caches m size :=
  s.modify slot fun e ↦
    { e with
      table := if readFromDisk then bdrvPread s.file offset else e.table
      cacheHits := 32
      offset := offset }

def cacheDoGet (c : Which) (offset : Nat) (readFromDisk : Bool) : Except Fault (Caches m size × Slot size) :=
  match lookup s c offset with
  | some i => found s ⟨c, i⟩
  | none =>
    match victim fun i ↦ s.entries ⟨c, i⟩ with
    | none => .error .abort
    | some i => do
      let s ← cacheEntryFlush (decay s c) (cacheFlush depth) ⟨c, i⟩
      found (cacheReplace s ⟨c, i⟩ offset readFromDisk) ⟨c, i⟩

def cacheGet (c : Which) (offset : Nat) : Except Fault (Caches m size × Slot size) := cacheDoGet s c offset true

def cacheGetEmpty (c : Which) (offset : Nat) : Except Fault (Caches m size × Slot size) := cacheDoGet s c offset false

def cachePut (slot : Slot size) : Except Fault (Caches m size) :=
  if (s.entries slot).ref = 0 then .error .assertion
  else
    let s := s.modify slot fun e ↦ { e with ref := e.ref - 1 }
    if s.writethrough slot.1 then cacheEntryFlush s (cacheFlush depth) slot else .ok s

/-- A modification of a held table, with the `qcow2_cache_entry_mark_dirty` that goes with it. -/
def cacheStore (slot : Slot size) (t : Table m) : Caches m size :=
  s.modify slot fun e ↦ { e with table := t, dirty := true }

end Operations

end IDeviceEmulator.Qcow2
