import IDeviceEmulator.Library.Hoare
import IDeviceEmulator.Qcow2.Transparency

namespace IDeviceEmulator.Qcow2.Barrier

open Hoare Machine

variable {m : Nat} {size : Which → Nat}

abbrev Errno := Nat

def enospc : Errno := 28

/-- The other one of the two caches of an image. -/
def other : Which → Which
  | .l2Table => .refcountBlock
  | .refcountBlock => .l2Table

inductive Event (size : Which → Nat)
  /-- A table is handed to `bdrv_pwrite`, for its offset in the file. -/
  | writing (slot : Slot size) (offset : Nat)
  | wrote (slot : Slot size) (offset : Nat)
  | flushed
  /-- A dependency of a cache is set while tables of the other one are dirty. -/
  | barrier (c : Which) (owed : Slot size → Option Nat)

/-- The caches with what the host answers to each call, and a log of what has happened. -/
structure Journal (m : Nat) (size : Which → Nat) where
  caches : Caches m size
  host : Nat → Option Errno
  calls : Nat
  log : List (Event size)

/-- A function of the cache returns a negative value, or does not return. -/
inductive Stop
  | failed (errno : Errno)
  | fault (f : Fault)

abbrev Act (m : Nat) (size : Which → Nat) := EStateM Stop (Journal m size)

def hostCall : Act m size Unit := fun w ↦
  match w.host w.calls with
  | none => .ok () { w with calls := w.calls + 1 }
  | some errno => .error (.failed errno) { w with calls := w.calls + 1 }

def note (e : Event size) : Act m size Unit := modify fun w ↦ { w with log := w.log ++ [e] }

def getCaches : Act m size (Caches m size) := fun w ↦ .ok w.caches w

def modifyCaches (f : Caches m size → Caches m size) : Act m size Unit := modify fun w ↦ { w with caches := f w.caches }

def bdrvFlush : Act m size Unit := do
  hostCall
  note .flushed

/-- The write of a table and the end of `qcow2_cache_entry_flush`. -/
def writeTable (slot : Slot size) : Act m size Unit := do
  let s ← getCaches
  note (.writing slot (s.entries slot).offset)
  hostCall
  modifyCaches fun s ↦ writeBack s slot
  note (.wrote slot (s.entries slot).offset)

section Flush

variable (flush : Which → Act m size Unit)

def cacheFlushDependency (c d : Which) : Act m size Unit := do
  flush d
  modifyCaches fun s ↦
    { s with
      depends := Function.update s.depends c none
      dependsOnFlush := Function.update s.dependsOnFlush c false }

def resolve (s : Caches m size) (c : Which) : Act m size Unit :=
  match s.depends c with
  | some d => cacheFlushDependency flush c d
  | none =>
    if s.dependsOnFlush c then do
      bdrvFlush
      modifyCaches fun s ↦ { s with dependsOnFlush := Function.update s.dependsOnFlush c false }
    else pure ()

def cacheEntryFlush (slot : Slot size) : Act m size Unit := do
  let s ← getCaches
  if (s.entries slot).dirty = false ∨ (s.entries slot).offset = 0 then pure ()
  else do
    resolve flush s slot.1
    writeTable slot

/-- A call of which the negative result is kept. -/
def attempt (x : Act m size Unit) : Act m size (Option Errno) := fun w ↦
  match x w with
  | .ok _ w => .ok none w
  | .error (.failed errno) w => .ok (some errno) w
  | .error (.fault f) w => .error (.fault f) w

/-- The first result that says that there is no space is the one that is returned. -/
def combine (result : Option Errno) : Option Errno → Option Errno
  | none => result
  | some errno => if result = some enospc then result else some errno

def flushLoop (c : Which) : List (Fin (size c)) → Option Errno → Act m size (Option Errno)
  | [], result => pure result
  | i :: is, result => do
    let ret ← attempt (cacheEntryFlush flush ⟨c, i⟩)
    flushLoop c is (combine result ret)

def finish : Option Errno → Act m size Unit
  | none => bdrvFlush
  | some errno => throw (.failed errno)

end Flush

/-- `qcow2_cache_flush`, as deep as the dependencies between the caches go. -/
def cacheFlush : Nat → Which → Act m size Unit
  | 0, _ => throw (.fault .diverges)
  | depth + 1, c => do
    let result ← flushLoop (cacheFlush depth) c (List.finRange (size c)) none
    finish result

/-- A cache that is to be free of a dependency other than the given one. -/
def release (c : Which) (keep : Option Which) : Act m size Unit := do
  let s ← getCaches
  match s.depends c with
  | some d => if some d = keep then pure () else cacheFlushDependency (cacheFlush depth) c d
  | none => pure ()

/-- The dirty tables of a cache, with their offsets. -/
def dirtyTables (s : Caches m size) (d : Which) (slot : Slot size) : Option Nat :=
  if slot.1 = d ∧ (s.entries slot).dirty then some (s.entries slot).offset else none

/-- One cache is made to depend on the other. -/
def cacheSetDependency (c : Which) : Act m size Unit := do
  release (other c) none
  release c (some (other c))
  modifyCaches fun s ↦ { s with depends := Function.update s.depends c (some (other c)) }
  let s ← getCaches
  note (.barrier c (dirtyTables s (other c)))

def hold (slot : Slot size) : Act m size Unit := do
  let s ← getCaches
  if (s.entries slot).cacheHits = intMax then throw (.fault .overflow)
  else modifyCaches fun s ↦ s.modify slot fun e ↦ { e with cacheHits := e.cacheHits + 1, ref := e.ref + 1 }

def fetch (readFromDisk : Bool) : Act m size Unit := if readFromDisk then hostCall else pure ()

/-- A slot takes the table of another offset; it belongs to none while the table is read. -/
def load (slot : Slot size) (offset : Nat) (readFromDisk : Bool) : Act m size Unit := do
  modifyCaches fun s ↦ s.modify slot fun e ↦ { e with offset := 0 }
  fetch readFromDisk
  modifyCaches fun s ↦ cacheReplace s slot offset readFromDisk

def cacheDoGet (c : Which) (offset : Nat) (readFromDisk : Bool) : Act m size Unit := do
  let s ← getCaches
  match lookup s c offset with
  | some i => hold ⟨c, i⟩
  | none =>
    match victim fun i ↦ s.entries ⟨c, i⟩ with
    | none => throw (.fault .abort)
    | some i => do
      modifyCaches fun s ↦ decay s c
      cacheEntryFlush (cacheFlush depth) ⟨c, i⟩
      load ⟨c, i⟩ offset readFromDisk
      hold ⟨c, i⟩

def cachePut (slot : Slot size) : Act m size Unit := do
  let s ← getCaches
  if (s.entries slot).ref = 0 then throw (.fault .assertion)
  else do
    modifyCaches fun s ↦ s.modify slot fun e ↦ { e with ref := e.ref - 1 }
    if s.writethrough slot.1 then cacheEntryFlush (cacheFlush depth) slot else pure ()

-- Only who holds a table has a pointer to it.
def cacheEntryMarkDirty (slot : Slot size) (t : Table m) : Act m size Unit := do
  let s ← getCaches
  if (s.entries slot).ref = 0 then throw (.fault .assertion)
  else modifyCaches fun s ↦ cacheStore s slot t

inductive Op (m : Nat) (size : Which → Nat)
  | get (c : Which) (offset : Nat)
  | getEmpty (c : Which) (offset : Nat)
  | markDirty (slot : Slot size) (t : Table m)
  | put (slot : Slot size)
  | setDependency (c : Which)
  | dependsOnFlush (c : Which)
  | flush (c : Which)

def Op.run : Op m size → Act m size Unit
  | .get c offset => cacheDoGet c offset true
  | .getEmpty c offset => cacheDoGet c offset false
  | .markDirty slot t => cacheEntryMarkDirty slot t
  | .put slot => cachePut slot
  | .setDependency c => cacheSetDependency c
  | .dependsOnFlush c => modifyCaches fun s ↦ cacheDependsOnFlush s c
  | .flush c => cacheFlush depth c

/-- An operation, with the negative value that it returns, if it does. -/
def step (w : Journal m size) (op : Op m size) : Except Fault (Journal m size × Option Errno) :=
  match op.run w with
  | .ok _ w => .ok (w, none)
  | .error (.failed errno) w => .ok (w, some errno)
  | .error (.fault f) _ => .error f

def create (file : File) (writethrough : Which → Bool) (buffers : Slot size → Table m)
    (host : Nat → Option Errno) : Journal m size where
  caches := cacheCreate file writethrough buffers
  host := host
  calls := 0
  log := []

end IDeviceEmulator.Qcow2.Barrier
