import Mathlib.Data.Finset.Erase
import Mathlib.Data.Finset.Insert
import IDeviceEmulator.Exec.Tlb
import IDeviceEmulator.Library.Intrusive

namespace IDeviceEmulator.Exec.Blocks

open Intrusive (Layout)
open Tlb (Addr targetPageBits targetPageMask)

scoped instance neZeroPages : NeZero 2 := ⟨by decide⟩

def targetPageSize : Nat := 1 <<< targetPageBits

/-- `pc & ~TARGET_PAGE_MASK` -/
def pageOffset (pc : Addr) : Nat := (pc &&& ~~~targetPageMask).toNat

def l2Size : Nat := 1 <<< 10
def codeGenPhysHashSize : Nat := 1 <<< 15
def smcBitmapUseThreshold : BitVec 32 := 10

/-- An index in `tbs`. -/
abbrev Tb := Nat

/-- A physical page, by its address over `TARGET_PAGE_SIZE`. -/
abbrev Page := Nat

/-- A pointer to a block with a page number in its low bits. -/
abbrev PageLink := Tb × Fin 2

/-- A pointer to a block with 0 or 1 in its low bits, or with 2. -/
inductive JmpLink
  | jump (tb : Tb) (n : Fin 2)
  | owner (tb : Tb)
  deriving DecidableEq

inductive HashCell
  | tbPhysHash (h : Nat)
  | physHashNext (tb : Tb)
  deriving DecidableEq

inductive PageCell
  | firstTb (p : Page)
  | pageNext (tb : Tb) (n : Fin 2)
  deriving DecidableEq

inductive JmpCell
  | jmpFirst (tb : Tb)
  | jmpNext (tb : Tb) (n : Fin 2)
  deriving DecidableEq

def hashLists : Layout Nat HashCell (Option Tb) Tb where
  head := .tbPhysHash
  next := .physHashNext
  ptr := some
  term _ := none
  link y := y.map .physHashNext
  link_ptr _ := rfl
  head_injective := by intro h h' heq; cases heq; rfl
  next_injective := by intro x x' heq; cases heq; rfl
  ptr_injective := Option.some_injective Tb
  head_ne_next := by intro h x heq; cases heq
  term_ne_ptr := by intro h x heq; cases heq

def pageLists : Layout Page PageCell (Option PageLink) PageLink where
  head := .firstTb
  next x := .pageNext x.1 x.2
  ptr := some
  term _ := none
  link y := y.map fun x ↦ .pageNext x.1 x.2
  link_ptr _ := rfl
  head_injective := by intro p p' heq; cases heq; rfl
  next_injective := by intro x x' heq; cases x; cases x'; cases heq; rfl
  ptr_injective := Option.some_injective PageLink
  head_ne_next := by intro p x heq; cases heq
  term_ne_ptr := by intro p x heq; cases heq

/-- The list of a block ends in the block itself. -/
def jmpLists : Layout Tb JmpCell (Option JmpLink) (Tb × Fin 2) where
  head := .jmpFirst
  next x := .jmpNext x.1 x.2
  ptr x := some (.jump x.1 x.2)
  term tb := some (.owner tb)
  link
    | none => none
    | some (.jump tb n) => some (.jmpNext tb n)
    | some (.owner tb) => some (.jmpFirst tb)
  link_ptr _ := rfl
  head_injective := by intro tb tb' heq; cases heq; rfl
  next_injective := by intro x x' heq; cases x; cases x'; cases heq; rfl
  ptr_injective := by intro x x' heq; cases x; cases x'; cases heq; rfl
  head_ne_next := by intro tb x heq; cases heq
  term_ne_ptr := by intro tb x heq; cases heq

structure TranslationBlock where
  pc : Addr
  size : Nat
  tbNextOffset : Fin 2 → BitVec 16
  pageAddr : Fin 2 → Option Page

structure PageDesc where
  codeWriteCount : BitVec 32
  codeBitmap : Option (List (BitVec 8))

def PageDesc.zero : PageDesc := ⟨0, none⟩

/-- The cells of the three kinds of lists, the blocks and the pages. `jmpTarget` is the block that
the native code of an exit jumps to, `live` has the blocks linked and not invalidated since. -/
structure State where
  hash : HashCell → Option Tb
  page : PageCell → Option PageLink
  jmp : JmpCell → Option JmpLink
  tbs : Tb → TranslationBlock
  l1Map : Nat → Bool
  pageDesc : Page → PageDesc
  jmpTarget : Tb → Fin 2 → Option Tb
  live : Finset Tb

def boot : State where
  hash _ := none
  page _ := none
  jmp _ := none
  tbs _ := ⟨0, 0, fun _ ↦ 0, fun _ ↦ none⟩
  l1Map _ := false
  pageDesc _ := .zero
  jmpTarget _ _ := none
  live := ∅

def tbPhysHashFunc (pc : Nat) : Nat := (pc >>> 2) &&& (codeGenPhysHashSize - 1)

section Bitmap

/-- `*tab |= mask` -/
def orByte (tab : List (BitVec 8)) (i : Nat) (mask : BitVec 8) : Option (List (BitVec 8)) :=
  if h : i < tab.length then some (tab.set i (tab[i] ||| mask)) else none

def storeByte (tab : List (BitVec 8)) (i : Nat) (byte : BitVec 8) : Option (List (BitVec 8)) :=
  if i < tab.length then some (tab.set i byte) else none

def fillBytes (tab : List (BitVec 8)) (i start end1 : Nat) : Option (List (BitVec 8) × Nat × Nat) :=
  if start < end1 then
    (storeByte tab i 0xff).bind fun tab ↦ fillBytes tab (i + 1) (start + 8) end1
  else
    some (tab, i, start)
termination_by end1 - start

def setBits (tab : List (BitVec 8)) (start len : Nat) : Option (List (BitVec 8)) :=
  let stop := start + len
  let i := start >>> 3
  let mask := (0xff : BitVec 8) <<< (start % 8)
  if start / 8 * 8 = stop / 8 * 8 then
    if start < stop then orByte tab i (mask &&& ~~~((0xff : BitVec 8) <<< (stop % 8))) else some tab
  else do
    let tab ← orByte tab i mask
    let (tab, i, start) ← fillBytes tab (i + 1) ((start + 8) / 8 * 8) (stop / 8 * 8)
    if start < stop then orByte tab i (~~~((0xff : BitVec 8) <<< (stop % 8))) else some tab

/-- The part of its page `n` that a block is on, from the start of the page. -/
def TranslationBlock.bitmapPart (b : TranslationBlock) : Fin 2 → Nat × Nat
  | 0 =>
    let tbStart := pageOffset b.pc
    let tbEnd := tbStart + b.size
    (tbStart, if tbEnd > targetPageSize then targetPageSize else tbEnd)
  | 1 => (0, pageOffset (b.pc + BitVec.ofNat 32 b.size))

def buildPageBitmapFrom (s : State) : Nat → Option PageLink → List (BitVec 8) → Option (List (BitVec 8))
  | 0, _, _ => none
  | _ + 1, none, tab => some tab
  | fuel + 1, some (tb, n), tab =>
    let part := (s.tbs tb).bitmapPart n
    (setBits tab part.1 (part.2 - part.1)).bind fun tab ↦
      buildPageBitmapFrom s fuel (s.page (.pageNext tb n)) tab

def buildPageBitmap (fuel : Nat) (s : State) (p : Page) : Option (List (BitVec 8)) :=
  buildPageBitmapFrom s fuel (s.page (.firstTb p)) (List.replicate (targetPageSize / 8) 0)

end Bitmap

namespace State

def pageFind (s : State) (p : Page) : Option PageDesc :=
  if s.l1Map (p / l2Size) then some (s.pageDesc p) else none

/-- The descriptors of `L2_SIZE` pages are allocated together. -/
def pageFindAlloc (s : State) (p : Page) : State :=
  if s.l1Map (p / l2Size) then s else
    { s with
      l1Map := Function.update s.l1Map (p / l2Size) true
      pageDesc := fun q ↦ if q / l2Size = p / l2Size then .zero else s.pageDesc q
      page := fun
        | .firstTb q => if q / l2Size = p / l2Size then none else s.page (.firstTb q)
        | .pageNext tb n => s.page (.pageNext tb n) }

def invalidatePageBitmap (s : State) (p : Page) : State :=
  { s with pageDesc := Function.update s.pageDesc p .zero }

def setPageAddr (s : State) (tb : Tb) (n : Fin 2) (p : Option Page) : State :=
  let b := s.tbs tb
  { s with tbs := Function.update s.tbs tb { b with pageAddr := Function.update b.pageAddr n p } }

def tbAllocPage (s : State) (tb : Tb) (n : Fin 2) (p : Page) : State :=
  let s := (s.setPageAddr tb n (some p)).pageFindAlloc p
  { s with page := pageLists.push s.page p (tb, n) }.invalidatePageBitmap p

/-- Make the jump of an exit go back into the block, to the code after it. -/
def tbResetJump (s : State) (tb : Tb) (n : Fin 2) : State :=
  { s with jmpTarget := Function.update s.jmpTarget tb (Function.update (s.jmpTarget tb) n none) }

def tbSetJmpTarget (s : State) (tb : Tb) (n : Fin 2) (tbNext : Tb) : State :=
  { s with jmpTarget := Function.update s.jmpTarget tb (Function.update (s.jmpTarget tb) n (some tbNext)) }

/-- A new block takes the slot `tb`. Its native code has not been chained to anything. -/
def cpuGenCode (s : State) (tb : Tb) (pc : Addr) (size : Nat) (tbNextOffset : Fin 2 → BitVec 16) : State :=
  { s with
    tbs := Function.update s.tbs tb { s.tbs tb with pc, size, tbNextOffset }
    jmpTarget := Function.update s.jmpTarget tb fun _ ↦ none }

def initJump (s : State) (tb : Tb) (n : Fin 2) : State :=
  if (s.tbs tb).tbNextOffset n ≠ 0xffff then s.tbResetJump tb n else s

def tbLinkPage (s : State) (tb : Tb) (physPc : Nat) (physPage2 : Option Page) : State :=
  let s := { s with hash := hashLists.push s.hash (tbPhysHashFunc physPc) tb }
  let s := s.tbAllocPage tb 0 (physPc / targetPageSize)
  let s : State := match physPage2 with
    | some p => s.tbAllocPage tb 1 p
    | none => s.setPageAddr tb 1 none
  let jmp := Function.update s.jmp (.jmpFirst tb) (some (.owner tb))
  let jmp := Function.update jmp (.jmpNext tb 0) none
  let jmp := Function.update jmp (.jmpNext tb 1) none
  ({ s with jmp, live := insert tb s.live }.initJump tb 0).initJump tb 1

def tbAddJump (s : State) (tb : Tb) (n : Fin 2) (tbNext : Tb) : State :=
  if (s.jmp (.jmpNext tb n)).isNone then
    let s := s.tbSetJmpTarget tb n tbNext
    { s with jmp := jmpLists.push s.jmp tbNext (tb, n) }
  else
    s

def tbRemove (fuel : Nat) (s : State) (h : Nat) (tb : Tb) : Option State :=
  (hashLists.unlink s.hash (· == some tb) fuel (.tbPhysHash h)).map fun hash ↦ { s with hash }

def tbPageRemove (fuel : Nat) (s : State) (p : Page) (tb : Tb) : Option State :=
  (pageLists.unlink s.page (fun y ↦ y.map Prod.fst == some tb) fuel (.firstTb p)).map fun page ↦ { s with page }

def tbJmpRemove (fuel : Nat) (s : State) (tb : Tb) (n : Fin 2) : Option State :=
  match s.jmp (.jmpNext tb n) with
  | none => some s
  | some _ =>
    (jmpLists.unlink s.jmp (· == some (.jump tb n)) fuel (.jmpNext tb n)).map fun jmp ↦
      { s with jmp := Function.update jmp (.jmpNext tb n) none }

/-- Take the block off the list of its page `n`, unless that page is `pageAddr`. -/
def leavePage (fuel : Nat) (s : State) (tb : Tb) (n : Fin 2) (pageAddr : Option Page) : Option State :=
  match (s.tbs tb).pageAddr n with
  | none => some s
  | some p =>
    if some p = pageAddr then some s
    else (s.pageFind p).bind fun _ ↦ (s.tbPageRemove fuel p tb).map (·.invalidatePageBitmap p)

/-- Suppress the jumps from `tb1` on until the owner of the list is reached. -/
def resetJumps : Nat → Option JmpLink → State → Option State
  | 0, _, _ => none
  | _ + 1, none, _ => none
  | _ + 1, some (.owner _), s => some s
  | fuel + 1, some (.jump tb1 n1), s =>
    let tb2 := s.jmp (.jmpNext tb1 n1)
    let s := s.tbResetJump tb1 n1
    resetJumps fuel tb2 { s with jmp := Function.update s.jmp (.jmpNext tb1 n1) none }

def tbPhysInvalidate (fuel : Nat) (s : State) (tb : Tb) (pageAddr : Option Page) : Option State := do
  let page0 ← (s.tbs tb).pageAddr 0
  let physPc := page0 * targetPageSize + pageOffset (s.tbs tb).pc
  let s ← s.tbRemove fuel (tbPhysHashFunc physPc) tb
  let s ← s.leavePage fuel tb 0 pageAddr
  let s ← s.leavePage fuel tb 1 pageAddr
  let s ← s.tbJmpRemove fuel tb 0
  let s ← s.tbJmpRemove fuel tb 1
  let s ← resetJumps fuel (s.jmp (.jmpFirst tb)) s
  return { s with
    jmp := Function.update s.jmp (.jmpFirst tb) (some (.owner tb))
    live := s.live.erase tb }

def tbFlush (s : State) : State :=
  { s with
    hash := fun
      | .tbPhysHash _ => none
      | .physHashNext tb => s.hash (.physHashNext tb)
    page := fun
      | .firstTb p => if s.l1Map (p / l2Size) then none else s.page (.firstTb p)
      | .pageNext tb n => s.page (.pageNext tb n)
    pageDesc := fun p ↦ if s.l1Map (p / l2Size) then .zero else s.pageDesc p
    live := ∅ }

end State

/-- The physical addresses that a block has on its page `n`, as the page `p`. -/
def TranslationBlock.rangePart (b : TranslationBlock) (p : Page) : Fin 2 → Nat × Nat
  | 0 =>
    let tbStart := p * targetPageSize + pageOffset b.pc
    (tbStart, tbStart + b.size)
  | 1 =>
    let tbStart := p * targetPageSize
    (tbStart, tbStart + pageOffset (b.pc + BitVec.ofNat 32 b.size))

/-- The test of a list entry against the range that is invalidated. -/
def TranslationBlock.hit (b : TranslationBlock) (n : Fin 2) (start stop : Nat) : Bool :=
  match b.pageAddr n with
  | none => false
  | some p =>
    let part := b.rangePart p n
    !(part.2 ≤ start || part.1 ≥ stop)

namespace State

def invalidateFrom (fuel start stop : Nat) : Nat → Option PageLink → State → Option State
  | 0, _, _ => none
  | _ + 1, none, s => some s
  | turns + 1, some (tb, n), s =>
    let tbNext := s.page (.pageNext tb n)
    if (s.tbs tb).hit n start stop then
      (s.tbPhysInvalidate fuel tb none).bind (invalidateFrom fuel start stop turns tbNext)
    else
      invalidateFrom fuel start stop turns tbNext s

/-- Count a write to a page without a bitmap, and build the bitmap when there were enough. -/
def countWrite (fuel : Nat) (s : State) (p : Page) (isCpuWriteAccess : Bool) : Option State :=
  let desc := s.pageDesc p
  if desc.codeBitmap.isNone then
    let desc := { desc with codeWriteCount := desc.codeWriteCount + 1 }
    let s := { s with pageDesc := Function.update s.pageDesc p desc }
    if desc.codeWriteCount ≥ smcBitmapUseThreshold && isCpuWriteAccess then
      (buildPageBitmap fuel s p).map fun tab ↦
        { s with pageDesc := Function.update s.pageDesc p { desc with codeBitmap := some tab } }
    else
      some s
  else
    some s

def tbInvalidatePhysPageRange (fuel : Nat) (s : State) (start stop : Nat) (isCpuWriteAccess : Bool) :
    Option State :=
  let p := start / targetPageSize
  match s.pageFind p with
  | none => some s
  | some _ => do
    let s ← s.countWrite fuel p isCpuWriteAccess
    let s ← invalidateFrom fuel start stop fuel (s.page (.firstTb p)) s
    return if (s.page (.firstTb p)).isNone then s.invalidatePageBitmap p else s

def tbInvalidatePhysPageFast (fuel : Nat) (s : State) (start len : Nat) : Option State :=
  match s.pageFind (start / targetPageSize) with
  | none => some s
  | some desc =>
    match desc.codeBitmap with
    | none => s.tbInvalidatePhysPageRange fuel start (start + len) true
    | some tab =>
      let offset := start % targetPageSize
      (tab[offset >>> 3]?).bind fun byte ↦
        let b := byte >>> (offset % 8)
        if b.toNat &&& (1 <<< len - 1) ≠ 0 then s.tbInvalidatePhysPageRange fuel start (start + len) true
        else some s

end State

inductive Op
  | link (tb : Tb) (pc : Addr) (size : Nat) (tbNextOffset : Fin 2 → BitVec 16) (physPc : Nat)
      (physPage2 : Option Page)
  | addJump (tb : Tb) (n : Fin 2) (tbNext : Tb)
  | invalidate (tb : Tb)
  | invalidateRange (start stop : Nat) (isCpuWriteAccess : Bool)
  | flush
  | write (start len : Nat)

def step (fuel : Nat) (s : State) : Op → Option State
  | .link tb pc size tbNextOffset physPc physPage2 =>
    some ((s.cpuGenCode tb pc size tbNextOffset).tbLinkPage tb physPc physPage2)
  | .addJump tb n tbNext => some (s.tbAddJump tb n tbNext)
  | .invalidate tb => s.tbPhysInvalidate fuel tb none
  | .invalidateRange start stop isCpuWriteAccess => s.tbInvalidatePhysPageRange fuel start stop isCpuWriteAccess
  | .flush => some s.tbFlush
  | .write start len => s.tbInvalidatePhysPageFast fuel start len

end IDeviceEmulator.Exec.Blocks
