import Mathlib.Algebra.GroupWithZero.Nat
import Mathlib.Logic.Function.Basic
import IDeviceEmulator.Library.Machine

namespace IDeviceEmulator.Exec.Phys

open Machine Function

-- Physical addresses are numbers below 2 ^ 32, and `ram_addr_t` ones below 2 ^ 64.

def pageSize : Nat := 1024

def l2Size : Nat := 1024

def l1Size : Nat := 4096

def ioMemNbEntries : Nat := 128

def ioMemRam : Nat := 0

def ioMemRom : Nat := 8

def ioMemUnassigned : Nat := 16

def ioMemRomd : Nat := 1

def ioMemSubpage : Nat := 2

structure PhysPageDesc where
  physOffset : Nat
  regionOffset : Nat

/-- For each byte of a page, the number of the handler and the offset that it adds. -/
structure Subpage where
  subIoIndex : Nat → Nat
  regionOffset : Nat → Nat

/-- The page tables, and the table of handlers: which numbers are used, and which of them
belong to pages that are split. -/
structure PhysMap where
  l1PhysMap : Nat → Option (Nat → PhysPageDesc)
  ioMemUsed : Nat → Bool
  ioMemSubpage : Nat → Option Subpage

/-- The arguments of `cpu_register_physical_memory_offset`. -/
structure Region where
  startAddr : Nat
  size : Nat
  physOffset : Nat
  regionOffset : Nat

def maskPage (n : Nat) : Nat := n / pageSize * pageSize

def ioIndex (physOffset : Nat) : Nat := physOffset / 8 % ioMemNbEntries

def isRomd (physOffset : Nat) : Bool := physOffset % 2 = ioMemRomd

def isSubpage (physOffset : Nat) : Bool := physOffset / 2 % 2 = 1

/-- Memory that takes the next page of its block for each page of the region. -/
def isMemory (physOffset : Nat) : Bool := physOffset % pageSize ≤ ioMemRom || isRomd physOffset

namespace PhysMap

variable (m : PhysMap)

def physPageFind (index : Nat) : Option PhysPageDesc :=
  (m.l1PhysMap (index / l2Size % l1Size)).map fun pd ↦ pd (index % l2Size)

/-- A new table counts its pages from the one that is looked for. -/
def physPageFindAlloc (index : Nat) : PhysMap :=
  match m.l1PhysMap (index / l2Size % l1Size) with
  | some _ => m
  | none =>
    { m with
      l1PhysMap := update m.l1PhysMap (index / l2Size % l1Size)
        (some fun i ↦ ⟨ioMemUnassigned, (index + i) * pageSize % 2 ^ 32⟩) }

def setPage (index : Nat) (p : PhysPageDesc) : PhysMap :=
  { m with
    l1PhysMap := update m.l1PhysMap (index / l2Size % l1Size)
      ((m.l1PhysMap (index / l2Size % l1Size)).map fun pd ↦ update pd (index % l2Size) p) }

def getFreeIoMemIdx : Option Nat := (List.range ioMemNbEntries).find? fun i ↦ !m.ioMemUsed i

end PhysMap

def subpageRegister (mmio : Subpage) (start last memory regionOffset : Nat) : Subpage :=
  if start ≥ pageSize ∨ last ≥ pageSize then mmio
  else
    let memory := if memory % pageSize = ioMemRam then ioMemUnassigned else memory
    { subIoIndex := fun idx ↦ if start ≤ idx ∧ idx ≤ last then ioIndex memory else mmio.subIoIndex idx
      regionOffset := fun idx ↦ if start ≤ idx ∧ idx ≤ last then regionOffset else mmio.regionOffset idx }

/-- The bytes of the page that are registered, and whether these are not all. -/
def checkSubpage (addr startAddr origSize : Nat) : Nat × Nat × Bool :=
  let (startAddr2, fromInside) :=
    if addr > startAddr then (0, false) else (startAddr % pageSize, decide (startAddr % pageSize > 0))
  let (endAddr2, toInside) :=
    if (2 ^ 64 + (startAddr + origSize) - addr) % 2 ^ 64 ≥ pageSize then (pageSize - 1, false)
    else
      ((2 ^ 64 + (startAddr + origSize) - 1) % 2 ^ 64 % pageSize,
        decide ((2 ^ 64 + (startAddr + origSize) - 1) % 2 ^ 64 % pageSize < pageSize - 1))
  (startAddr2, endAddr2, fromInside || toInside)

/-- The variables of the loop over the pages of a region. -/
structure Cursor where
  map : PhysMap
  addr : Nat
  physOffset : Nat
  regionOffset : Nat

/-- A page that gets split: first its handler is that of all bytes. When all numbers are used,
minus one is stored. -/
def splitPage (m : PhysMap) (index origMemory regionOffset startAddr2 endAddr2 : Nat) (c : Cursor) : PhysMap :=
  let mmio := subpageRegister ⟨fun _ ↦ 0, fun _ ↦ 0⟩ 0 (pageSize - 1) origMemory regionOffset
  match m.getFreeIoMemIdx with
  | none => m.setPage index ⟨2 ^ 64 - 1, 0⟩
  | some i =>
    { m with
      ioMemUsed := update m.ioMemUsed i true
      ioMemSubpage :=
        update m.ioMemSubpage i (some (subpageRegister mmio startAddr2 endAddr2 c.physOffset c.regionOffset)) }.setPage
      index ⟨i * 8 + ioMemSubpage, 0⟩

/-- More bytes of a page that is split. -/
def extendSubpage (m : PhysMap) (index physOffset startAddr2 endAddr2 : Nat) (c : Cursor) : PhysMap :=
  { m with
    ioMemSubpage := update m.ioMemSubpage (ioIndex physOffset)
      ((m.ioMemSubpage (ioIndex physOffset)).map fun mmio ↦
        subpageRegister mmio startAddr2 endAddr2 c.physOffset c.regionOffset) }.setPage index ⟨physOffset, 0⟩

def nextPhysOffset (physOffset : Nat) : Nat :=
  if isMemory physOffset then (physOffset + pageSize) % 2 ^ 64 else physOffset

/-- A page that is assigned already. Only its `phys_offset` is replaced. -/
def registerAssigned (c : Cursor) (p : PhysPageDesc) (startAddr origSize : Nat) : PhysMap × Nat :=
  let index := c.addr / pageSize
  let (startAddr2, endAddr2, needSubpage) := checkSubpage c.addr startAddr origSize
  if needSubpage then
    (if isSubpage p.physOffset then extendSubpage c.map index p.physOffset startAddr2 endAddr2 c
      else splitPage c.map index p.physOffset p.regionOffset startAddr2 endAddr2 c, c.physOffset)
  else (c.map.setPage index ⟨c.physOffset, p.regionOffset⟩, nextPhysOffset c.physOffset)

def registerUnassigned (c : Cursor) (startAddr origSize : Nat) : PhysMap × Nat :=
  let index := c.addr / pageSize
  let m := (c.map.physPageFindAlloc index).setPage index ⟨c.physOffset, c.regionOffset⟩
  if isMemory c.physOffset then (m, nextPhysOffset c.physOffset)
  else
    let (startAddr2, endAddr2, needSubpage) := checkSubpage c.addr startAddr origSize
    if needSubpage then (splitPage m index ioMemUnassigned (maskPage c.addr) startAddr2 endAddr2 c, c.physOffset)
    else (m, c.physOffset)

def registerPage (startAddr origSize : Nat) (c : Cursor) : Cursor :=
  let (map, physOffset) :=
    match c.map.physPageFind (c.addr / pageSize) with
    | some p =>
      if p.physOffset ≠ ioMemUnassigned then registerAssigned c p startAddr origSize
      else registerUnassigned c startAddr origSize
    | none => registerUnassigned c startAddr origSize
  { map
    addr := (c.addr + pageSize) % 2 ^ 32
    physOffset
    regionOffset := (c.regionOffset + pageSize) % 2 ^ 64 }

/-- The loop ends when the address has come to the end, which may be zero. -/
def registerPages (startAddr origSize : Nat) : Nat → Cursor → Cursor
  | 0, c => c
  | n + 1, c => registerPages startAddr origSize n (registerPage startAddr origSize c)

/-- The region offset that is used: that of an unassigned region is its address. -/
def Region.regionBase (r : Region) : Nat :=
  maskPage (if r.physOffset = ioMemUnassigned then r.startAddr else r.regionOffset)

def Region.pages (r : Region) : Nat := (r.size + pageSize - 1) % 2 ^ 64 / pageSize % 2 ^ 22

def cpuRegisterPhysicalMemoryOffset (m : PhysMap) (r : Region) : PhysMap :=
  (registerPages r.startAddr r.size r.pages ⟨m, r.startAddr, r.physOffset, r.regionBase⟩).map

/-- Where an access ends: in the memory of the host, or at a handler with an address. -/
inductive Access
  | memory (ramAddr : Nat)
  | io (index addr : Nat)
  deriving DecidableEq

/-- Whether an access goes to a handler. Those that write to memory that is not plain do. -/
def isIo (write : Bool) (pd : Nat) : Bool :=
  if write then pd % pageSize ≠ ioMemRam else pd % pageSize > ioMemRom && !isRomd pd

/-- The handlers of split pages look up the byte and call the handler registered for it. -/
def ioAccess (m : PhysMap) (index addr : Nat) : Access :=
  match m.ioMemSubpage index with
  | some mmio =>
    .io (mmio.subIoIndex (addr % pageSize)) ((addr + mmio.regionOffset (addr % pageSize)) % 2 ^ 32)
  | none => .io index addr

def PhysMap.access (m : PhysMap) (write : Bool) (addr : Nat) : Access :=
  match m.physPageFind (addr / pageSize) with
  | none => ioAccess m (ioIndex ioMemUnassigned) addr
  | some p =>
    if isIo write p.physOffset then
      ioAccess m (ioIndex p.physOffset) ((addr % pageSize + p.regionOffset) % 2 ^ 32)
    else .memory (maskPage p.physOffset + addr % pageSize)

/-- The map, and the history of the regions that were registered, latest first. -/
structure System where
  map : PhysMap
  regions : List Region

inductive Request
  | physical (r : Region)
  | io

/-- The result of the registration of a handler is minus one when all numbers are used. -/
def System.step (s : System) : Request → Except Empty (System × Option Int)
  | .physical r => .ok (⟨cpuRegisterPhysicalMemoryOffset s.map r, r :: s.regions⟩, none)
  | .io =>
    match s.map.getFreeIoMemIdx with
    | some i => .ok ({ s with map.ioMemUsed := update s.map.ioMemUsed i true }, some (i * 8))
    | none => .ok (s, some (-1))

/-- No page table, five handlers with fixed numbers, and that of the watchpoints. -/
def System.start : System := ⟨⟨fun _ ↦ none, fun i ↦ decide (i < 6), fun _ ↦ none⟩, []⟩

def Region.Covers (r : Region) (addr : Nat) : Prop := r.startAddr ≤ addr ∧ addr < r.startAddr + r.size

instance (r : Region) (addr : Nat) : Decidable (r.Covers addr) := inferInstanceAs (Decidable (_ ∧ _))

/-- Where an access to an address of the region should end. -/
def Region.target (r : Region) (write : Bool) (addr : Nat) : Access :=
  if isIo write r.physOffset then
    .io (ioIndex r.physOffset) ((addr - maskPage r.startAddr + r.regionBase) % 2 ^ 32)
  else .memory ((maskPage r.physOffset + (addr - maskPage r.startAddr)) % 2 ^ 64)

/-- The latest region that covers the address, or the handler of what is not assigned. -/
def route (regions : List Region) (write : Bool) (addr : Nat) : Access :=
  match regions.find? fun r ↦ r.Covers addr with
  | some r => r.target write addr
  | none => .io (ioIndex ioMemUnassigned) addr

def System.Routes (s : System) : Prop :=
  ∀ write, ∀ addr < 2 ^ 32, s.map.access write addr = route s.regions write addr

/-- A region of the address space, which begins with a page or lies in one, with a handler that
was registered. Memory is made of whole pages. -/
def Region.Proper (m : PhysMap) (r : Region) : Prop :=
  (r.startAddr < 2 ^ 32 ∧ r.startAddr + r.size ≤ 2 ^ 32 ∧ r.physOffset < 2 ^ 64 ∧ r.regionOffset < 2 ^ 64) ∧
    (r.startAddr % pageSize = 0 ∨ r.startAddr % pageSize + r.size ≤ pageSize) ∧
    (isMemory r.physOffset → r.startAddr % pageSize = 0 ∧ r.size % pageSize = 0) ∧
    r.physOffset % 8 ≤ 1 ∧ m.ioMemUsed (ioIndex r.physOffset) ∧ m.ioMemSubpage (ioIndex r.physOffset) = none

/-- Whether only a part of page `k` of the region belongs to it. -/
def Region.splits (r : Region) (k : Nat) : Bool :=
  (checkSubpage (r.startAddr + k * pageSize) r.startAddr r.size).2.2

/-- A page table is entered at its first page. There is a number for a page that gets split,
and this is no memory. A page that is assigned and gets replaced has the region offset
already, if this matters. -/
def Region.CarefulPage (m : PhysMap) (r : Region) (k : Nat) : Prop :=
  match m.physPageFind (r.startAddr / pageSize + k) with
  | none => (k = 0 → r.startAddr / pageSize % l2Size = 0) ∧ (r.splits k → m.getFreeIoMemIdx.isSome)
  | some p =>
    if p.physOffset = ioMemUnassigned then r.splits k → m.getFreeIoMemIdx.isSome
    else if r.splits k then
      isSubpage p.physOffset ∨ (isIo false p.physOffset ∧ m.getFreeIoMemIdx.isSome)
    else
      r.physOffset % pageSize = ioMemRam ∨ p.regionOffset % 2 ^ 32 = (r.regionBase + k * pageSize) % 2 ^ 32

instance (m : PhysMap) (r : Region) (k : Nat) : Decidable (r.CarefulPage m k) :=
  match h : m.physPageFind (r.startAddr / pageSize + k) with
  | none =>
    decidable_of_iff ((k = 0 → r.startAddr / pageSize % l2Size = 0) ∧ (r.splits k → m.getFreeIoMemIdx.isSome))
      (by rw [Region.CarefulPage, h])
  | some p =>
    decidable_of_iff
      (if p.physOffset = ioMemUnassigned then r.splits k → m.getFreeIoMemIdx.isSome
      else if r.splits k then isSubpage p.physOffset ∨ (isIo false p.physOffset ∧ m.getFreeIoMemIdx.isSome)
      else r.physOffset % pageSize = ioMemRam ∨ p.regionOffset % 2 ^ 32 = (r.regionBase + k * pageSize) % 2 ^ 32)
      (by rw [Region.CarefulPage, h])

/-- The region is not the whole address space, and each of its pages is registered with care. -/
def Region.Careful (m : PhysMap) (r : Region) : Prop :=
  (r.size + pageSize - 1) / pageSize < 2 ^ 22 ∧ ∀ k < r.pages, r.CarefulPage m k

def System.Proper (s : System) : Request → Prop
  | .physical r => r.Proper s.map
  | .io => True

def System.Careful (s : System) : Request → Prop
  | .physical r => r.Careful s.map
  | .io => True

instance (m : PhysMap) (r : Region) : Decidable (r.Proper m) := inferInstanceAs (Decidable (_ ∧ _))

instance (m : PhysMap) (r : Region) : Decidable (r.Careful m) := inferInstanceAs (Decidable (_ ∧ _))

instance (s : System) : (q : Request) → Decidable (s.Proper q)
  | .physical r => inferInstanceAs (Decidable (r.Proper s.map))
  | .io => inferInstanceAs (Decidable True)

instance (s : System) : (q : Request) → Decidable (s.Careful q)
  | .physical r => inferInstanceAs (Decidable (r.Careful s.map))
  | .io => inferInstanceAs (Decidable True)

end IDeviceEmulator.Exec.Phys
