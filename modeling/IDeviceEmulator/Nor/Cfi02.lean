import IDeviceEmulator.Library.Machine
import Mathlib.Algebra.Order.Ring.Nat

namespace IDeviceEmulator.Nor.Cfi02

open Machine

abbrev Byte := BitVec 8

abbrev Word := BitVec 32

scoped instance neZeroUnlock : NeZero 2 := ⟨by decide⟩

/-- What a board passes to `pflash_cfi02_register`. Sector and chip have a power of two bytes, the
chip a whole number of disk sectors. The byte behind the CFI table is part of `cfi`, since the
bound of the table is inclusive. -/
structure Chip where
  sectorBits : Nat
  chipBits : Nat
  width : Nat
  ident : Vector (BitVec 16) 4
  unlockAddr : Vector (BitVec 16) 2
  be : Bool
  cfi : Nat → Byte := fun _ ↦ 0
  sector_le : sectorBits ≤ chipBits
  disk_le : 9 ≤ chipBits
  chip_le : chipBits ≤ 30

namespace Chip

variable (c : Chip)

def sectorLen : Nat := 2 ^ c.sectorBits

def chipLen : Nat := 2 ^ c.chipBits

def unlock (i : Fin 2) : Nat := c.unlockAddr[i].toNat

/-- An offset in units of the chip's width. -/
def units (offset : Nat) : Nat :=
  if c.width = 2 then offset >>> 1 else if c.width = 4 then offset >>> 2 else offset

end Chip

def cfiLen : Nat := 0x52

inductive Width
  | byte
  | half
  | word
deriving DecidableEq

def Width.bytes : Width → Nat
  | byte => 1
  | half => 2
  | word => 4

/-- `pflash_t`, with the contents of the disk behind `bs`. -/
structure Flash where
  wcycle : Nat := 0
  bypass : Bool := false
  cmd : Byte := 0
  status : Byte := 0
  romMode : Bool := true
  timer : Bool := false
  storage : Nat → Byte
  backing : Option (Nat → Byte)

inductive Fault
  | storageRange
deriving DecidableEq

section Accesses

variable (c : Chip)

/-- The flash as `pflash_cfi02_register` leaves it, over RAM whose contents are `ram`. -/
def register (bs : Option (Nat → Byte)) (ram : Nat → Byte) : Flash where
  storage := bs.getD ram
  backing := bs

/-- The place of the byte at `offset + k` in the value of an access. -/
def lane (width : Width) (k : Nat) : Nat := 8 * if c.be then width.bytes - 1 - k else k

def load (storage : Nat → Byte) (offset : Nat) (width : Width) : Except Fault Word :=
  if c.chipLen < offset + width.bytes then .error .storageRange
  else .ok ((List.range width.bytes).foldl
    (fun ret k ↦ ret ||| (storage (offset + k)).setWidth 32 <<< lane c width k) 0)

/-- `pflash_read`. -/
def read (f : Flash) (offset : Nat) (width : Width) : Except Fault (Flash × Word) :=
  let f := if f.romMode ∧ f.wcycle = 0 then { f with romMode := true } else f
  let offset := offset &&& (c.chipLen - 1)
  let boff := c.units (offset &&& 0xff)
  let flashRead (f : Flash) := (load c f.storage offset width).map fun ret ↦ (f, ret)
  match f.cmd.toNat with
  | 0x80 | 0x00 => flashRead f
  | 0x90 =>
    match boff with
    | 0x00 => .ok (f, c.ident[0].setWidth 32)
    | 0x01 => .ok (f, c.ident[1].setWidth 32)
    | 0x02 => .ok (f, 0)
    | 0x0e => if c.ident[2] = 0xff then flashRead f else .ok (f, c.ident[2].setWidth 32)
    | 0x0f => if c.ident[3] = 0xff then flashRead f else .ok (f, c.ident[3].setWidth 32)
    | _ => flashRead f
  | 0xa0 | 0x10 | 0x30 => .ok ({ f with status := f.status ^^^ 0x40 }, f.status.setWidth 32)
  | 0x98 => .ok (f, if cfiLen < boff then 0 else (c.cfi boff).setWidth 32)
  -- An unknown command state is reset and treated as a read.
  | _ => flashRead { f with wcycle := 0, cmd := 0 }

/-- `pflash_update`: the disk sectors that hold the changed bytes are written back. -/
def update (f : Flash) (offset size : Nat) : Flash :=
  let first := offset >>> 9
  let last := (offset + size + 511) >>> 9
  { f with backing := f.backing.map fun image i ↦
      if first <<< 9 ≤ i ∧ i < last <<< 9 then f.storage i else image i }

def resetFlash (f : Flash) : Flash := { f with bypass := false, wcycle := 0, cmd := 0 }

def doBypass (f : Flash) : Flash := { f with wcycle := 2, cmd := 0 }

def enterCfiMode (f : Flash) : Flash := { f with wcycle := 7, cmd := 0x98 }

def advance (f : Flash) : Flash := { f with wcycle := f.wcycle + 1 }

def checkUnlock0 (f : Flash) (boff : Nat) (cmd : Byte) : Flash :=
  if boff = 0x55 ∧ cmd = 0x98 then enterCfiMode f
  else if boff ≠ c.unlock 0 ∨ cmd ≠ 0xaa then resetFlash f
  else advance f

def checkUnlock1 (f : Flash) (boff : Nat) (cmd : Byte) : Flash :=
  if boff ≠ c.unlock 1 ∨ cmd ≠ 0x55 then resetFlash f else advance f

def inside (offset n i : Nat) : Prop := offset ≤ i ∧ i < offset + n

instance (offset n : Nat) : DecidablePred (inside offset n) := fun _ ↦ inferInstanceAs (Decidable (_ ∧ _))

/-- Every addressed byte becomes old AND new. -/
def programmed (storage : Nat → Byte) (offset : Nat) (value : Word) (width : Width) (i : Nat) : Byte :=
  if inside offset width.bytes i then storage i &&& (value >>> lane c width (i - offset)).setWidth 8 else storage i

def erased (storage : Nat → Byte) (offset size i : Nat) : Byte := if inside offset size i then 0xff else storage i

/-- The data cycle of a program command. -/
def program (f : Flash) (offset : Nat) (value : Word) (width : Width) : Except Fault Flash :=
  if c.chipLen < offset + width.bytes then .error .storageRange
  else
    let f := update { f with storage := programmed c f.storage offset value width } offset width.bytes
    let f := { f with status := ~~~(value &&& 0x80).setWidth 8 }
    .ok (if f.bypass then doBypass f else resetFlash f)

def erase (f : Flash) (offset size : Nat) (cmd : Byte) : Flash :=
  let f := update { f with storage := erased f.storage offset size } offset size
  advance { f with status := 0, timer := true, cmd }

def sectorStart (offset : Nat) : Nat := offset - (offset &&& (c.sectorLen - 1))

/-- `pflash_write`. -/
def write (f : Flash) (offset : Nat) (value : Word) (width : Width) : Except Fault Flash :=
  let cmd : Byte := value.setWidth 8
  if f.cmd ≠ 0xa0 ∧ cmd = 0xf0 then .ok (resetFlash f)
  else
    let offset := offset &&& (c.chipLen - 1)
    let boff := c.units (offset &&& (c.sectorLen - 1))
    match f.wcycle with
    | 0 => .ok (checkUnlock0 c { f with romMode := false } boff cmd)
    | 1 => .ok (checkUnlock1 c f boff cmd)
    | 2 =>
      if ¬ f.bypass ∧ boff ≠ c.unlock 0 then .ok (resetFlash f)
      else if cmd = 0x20 then .ok (doBypass { f with bypass := true })
      else if cmd = 0x80 ∨ cmd = 0x90 ∨ cmd = 0xa0 then .ok (advance { f with cmd })
      else .ok (resetFlash f)
    | 3 =>
      if f.cmd = 0x80 then .ok (checkUnlock0 c f boff cmd)
      else if f.cmd = 0xa0 then program c f offset value width
      else if f.cmd = 0x90 then
        if f.bypass ∧ cmd = 0 then .ok (resetFlash f)
        else if boff = 0x55 ∧ cmd = 0x98 then .ok (enterCfiMode f)
        else .ok (resetFlash f)
      else .ok (resetFlash f)
    | 4 =>
      if f.cmd = 0xa0 then .ok f
      else if f.cmd = 0x80 then .ok (checkUnlock1 c f boff cmd)
      else .ok (resetFlash f)
    | 5 =>
      if cmd = 0x10 then
        if boff ≠ c.unlock 0 then .ok (resetFlash f) else .ok (erase f 0 c.chipLen cmd)
      else if cmd = 0x30 then .ok (erase f (sectorStart c offset) c.sectorLen cmd)
      else .ok (resetFlash f)
    | 6 => if f.cmd = 0x10 ∨ f.cmd = 0x30 then .ok f else .ok (resetFlash f)
    | _ => .ok (resetFlash f)

/-- `pflash_timer`. -/
def expire (f : Flash) : Flash :=
  let f := { f with status := f.status ^^^ 0x80, timer := false }
  let f := if f.bypass then { f with wcycle := 2 } else { f with romMode := true, wcycle := 0 }
  { f with cmd := 0 }

end Accesses

inductive Op
  | read (offset : Nat) (width : Width)
  | write (offset : Nat) (value : Word) (width : Width)
  | expire
deriving DecidableEq

def step (c : Chip) (f : Flash) : Op → Except Fault (Flash × Option Word)
  | .read offset width => (read c f offset width).map fun p ↦ (p.1, some p.2)
  | .write offset value width => (write c f offset value width).map fun f ↦ (f, none)
  | .expire => .ok (expire f, none)

def Op.InRange (c : Chip) : Op → Prop
  | read offset width | write offset _ width => (offset &&& (c.chipLen - 1)) + width.bytes ≤ c.chipLen
  | expire => True

/-- The flash and the disk agree. -/
def Flash.Persisted (c : Chip) (f : Flash) : Prop :=
  ∀ image, f.backing = some image → ∀ i < c.chipLen, image i = f.storage i

/-- A write cycle as the command machine sees it, or an expiry of the timer. -/
inductive Cycle
  | write (boff : Nat) (cmd : Byte)
  | expiry
deriving DecidableEq

section History

variable (c : Chip)

def boff (offset : Nat) : Nat := c.units ((offset &&& (c.chipLen - 1)) &&& (c.sectorLen - 1))

def Op.cycle : Op → Option Cycle
  | read _ _ => none
  | write offset value _ => some (.write (boff c offset) (value.setWidth 8))
  | expire => some .expiry

def cycles (ops : List Op) : List Cycle := ops.filterMap (Op.cycle c)

def unlocking : List Cycle := [.write (c.unlock 0) 0xaa, .write (c.unlock 1) 0x55]

/-- The last cycles are the unlock sequence and a command, or in unlock-bypass mode the command alone. -/
def Issued (bypass : Bool) (history : List Cycle) (cmd : Byte) : Prop :=
  unlocking c ++ [.write (c.unlock 0) cmd] <:+ history ∨ bypass ∧ ∃ a, [.write a cmd] <:+ history

/-- An erase command is issued in the same way and followed by a second unlock sequence. -/
def EraseIssued (bypass : Bool) (history : List Cycle) : Prop :=
  ∃ before, history = before ++ unlocking c ∧ Issued c bypass before 0x80

/-- Unlock-bypass mode has been entered by its own command. -/
def BypassEntered (history : List Cycle) : Prop := unlocking c ++ [.write (c.unlock 0) 0x20] <:+: history

/-- What a write may do to the storage. -/
inductive Effect (history : List Cycle) (f : Flash) (offset : Nat) (value : Word) (width : Width) :
    (Nat → Byte) → Prop
  | unchanged : Effect history f offset value width f.storage
  | programs (issued : Issued c f.bypass history 0xa0) :
      Effect history f offset value width
        fun i ↦ if inside (offset &&& (c.chipLen - 1)) width.bytes i then
          f.storage i &&& (value >>> lane c width (i - (offset &&& (c.chipLen - 1)))).setWidth 8 else f.storage i
  | erasesSector (cmd : value.setWidth 8 = (0x30 : Byte)) (issued : EraseIssued c f.bypass history) :
      Effect history f offset value width
        fun i ↦ if i / c.sectorLen = (offset &&& (c.chipLen - 1)) / c.sectorLen then 0xff else f.storage i
  | erasesChip (cmd : value.setWidth 8 = (0x10 : Byte)) (issued : EraseIssued c f.bypass history) :
      Effect history f offset value width fun i ↦ if i < c.chipLen then 0xff else f.storage i

/-- A write has one of the effects above, and nothing else touches the storage. -/
def Lawful (history : List Cycle) (f : Flash) (op : Op) (f' : Flash) : Prop :=
  (f.bypass → BypassEntered c history) ∧
    match op with
    | .write offset value width => Effect c history f offset value width f'.storage
    | _ => f'.storage = f.storage

/-- The transitions of the command machine at a write. -/
inductive Transition (f : Flash) (offset : Nat) (value : Word) (width : Width) : Flash → Prop
  | reset (romMode : Bool) : Transition f offset value width (resetFlash { f with romMode })
  | query (romMode : Bool) : Transition f offset value width (enterCfiMode { f with romMode })
  | ignored (hcycle : f.wcycle = 4 ∧ f.cmd = 0xa0 ∨ f.wcycle = 6) : Transition f offset value width f
  | unlock0 (hcycle : f.wcycle = 0) (haddr : boff c offset = c.unlock 0) (hcmd : value.setWidth 8 = (0xaa : Byte)) :
      Transition f offset value width (advance { f with romMode := false })
  | unlock1 (hcycle : f.wcycle = 1) (haddr : boff c offset = c.unlock 1) (hcmd : value.setWidth 8 = (0x55 : Byte)) :
      Transition f offset value width (advance f)
  | bypass (hcycle : f.wcycle = 2) (haddr : f.bypass ∨ boff c offset = c.unlock 0)
      (hcmd : value.setWidth 8 = (0x20 : Byte)) : Transition f offset value width (doBypass { f with bypass := true })
  | command (hcycle : f.wcycle = 2) (haddr : f.bypass ∨ boff c offset = c.unlock 0) :
      Transition f offset value width (advance { f with cmd := value.setWidth 8 })
  | relock0 (hcycle : f.wcycle = 3) (hstate : f.cmd = 0x80) (haddr : boff c offset = c.unlock 0)
      (hcmd : value.setWidth 8 = (0xaa : Byte)) : Transition f offset value width (advance f)
  | data {f' : Flash} (hcycle : f.wcycle = 3) (hstate : f.cmd = 0xa0)
      (hprogram : program c f (offset &&& (c.chipLen - 1)) value width = .ok f') : Transition f offset value width f'
  | relock1 (hcycle : f.wcycle = 4) (hstate : f.cmd = 0x80) (haddr : boff c offset = c.unlock 1)
      (hcmd : value.setWidth 8 = (0x55 : Byte)) : Transition f offset value width (advance f)
  | eraseChip (hcycle : f.wcycle = 5) (hcmd : value.setWidth 8 = (0x10 : Byte)) :
      Transition f offset value width (erase f 0 c.chipLen 0x10)
  | eraseSector (hcycle : f.wcycle = 5) (hcmd : value.setWidth 8 = (0x30 : Byte)) :
      Transition f offset value width (erase f (sectorStart c (offset &&& (c.chipLen - 1))) c.sectorLen 0x30)

/-- What the state of the command machine tells about the cycles before it. -/
structure Traced (history : List Cycle) (f : Flash) : Prop where
  started : f.wcycle = 1 → [.write (c.unlock 0) 0xaa] <:+ history
  unlocked : f.wcycle = 2 → f.bypass ∨ unlocking c <:+ history
  command : f.wcycle = 3 → Issued c f.bypass history f.cmd
  restarted : f.wcycle = 4 → f.cmd = 0x80 ∧
    ∃ before, history = before ++ [.write (c.unlock 0) 0xaa] ∧ Issued c f.bypass before 0x80
  ready : f.wcycle = 5 → EraseIssued c f.bypass history
  bypass : f.bypass → BypassEntered c history

end History

section Transitions

variable {c : Chip} {f f' : Flash} {offset : Nat} {value : Word} {width : Width}

theorem checkUnlock0_cases (f : Flash) (a : Nat) (cmd : Byte) :
    checkUnlock0 c f a cmd = enterCfiMode f ∨ checkUnlock0 c f a cmd = resetFlash f ∨
      a = c.unlock 0 ∧ cmd = 0xaa ∧ checkUnlock0 c f a cmd = advance f := by
  unfold checkUnlock0
  split_ifs with hquery hfail
  · exact .inl rfl
  · exact .inr (.inl rfl)
  · rw [not_or, not_not, not_not] at hfail
    exact .inr (.inr ⟨hfail.1, hfail.2, rfl⟩)

theorem checkUnlock1_cases (f : Flash) (a : Nat) (cmd : Byte) :
    checkUnlock1 c f a cmd = resetFlash f ∨ a = c.unlock 1 ∧ cmd = 0x55 ∧ checkUnlock1 c f a cmd = advance f := by
  unfold checkUnlock1
  split_ifs with hfail
  · exact .inl rfl
  · rw [not_or, not_not, not_not] at hfail
    exact .inr ⟨hfail.1, hfail.2, rfl⟩

theorem transition_of_write (h : write c f offset value width = .ok f') : Transition c f offset value width f' := by
  have hreset : Transition c f offset value width (resetFlash f) := .reset f.romMode
  unfold write at h
  simp only at h
  by_cases hf0 : f.cmd ≠ 0xa0 ∧ value.setWidth 8 = (0xf0 : Byte)
  · rw [if_pos hf0] at h
    cases h
    exact hreset
  · rw [if_neg hf0] at h
    split at h
    · rename_i hcycle
      cases h
      rcases checkUnlock0_cases (c := c) { f with romMode := false } (boff c offset) (value.setWidth 8)
        with hq | hr | ⟨haddr, hcmd, hadv⟩
      · exact hq ▸ .query false
      · exact hr ▸ .reset false
      · exact hadv ▸ .unlock0 hcycle haddr hcmd
    · rename_i hcycle
      cases h
      rcases checkUnlock1_cases (c := c) f (boff c offset) (value.setWidth 8) with hr | ⟨haddr, hcmd, hadv⟩
      · exact hr ▸ hreset
      · exact hadv ▸ .unlock1 hcycle haddr hcmd
    · rename_i hcycle
      split_ifs at h with hlocked hbypass hcommand
      · cases h
        exact hreset
      · cases h
        exact .bypass hcycle (by grind [boff]) hbypass
      · cases h
        exact .command hcycle (by grind [boff])
      · cases h
        exact hreset
    · rename_i hcycle
      split_ifs at h with herase hprogram hident hleave hquery
      · cases h
        rcases checkUnlock0_cases (c := c) f (boff c offset) (value.setWidth 8) with hq | hr | ⟨haddr, hcmd, hadv⟩
        · exact hq ▸ .query f.romMode
        · exact hr ▸ hreset
        · exact hadv ▸ .relock0 hcycle herase haddr hcmd
      · exact .data hcycle hprogram h
      · cases h
        exact hreset
      · cases h
        exact .query f.romMode
      · cases h
        exact hreset
      · cases h
        exact hreset
    · rename_i hcycle
      split_ifs at h with hprogram herase
      · cases h
        exact .ignored (.inl ⟨hcycle, hprogram⟩)
      · cases h
        rcases checkUnlock1_cases (c := c) f (boff c offset) (value.setWidth 8) with hr | ⟨haddr, hcmd, hadv⟩
        · exact hr ▸ hreset
        · exact hadv ▸ .relock1 hcycle herase haddr hcmd
      · cases h
        exact hreset
    · rename_i hcycle
      split_ifs at h with hchip haddr hsector
      · cases h
        exact hreset
      · cases h
        rw [hchip]
        exact .eraseChip hcycle hchip
      · cases h
        rw [hsector]
        exact .eraseSector hcycle hsector
      · cases h
        exact hreset
    · rename_i hcycle
      split_ifs at h with hbusy
      · cases h
        exact .ignored (.inr hcycle)
      · cases h
        exact hreset
    · cases h
      exact hreset

theorem BypassEntered.snoc {history : List Cycle} (h : BypassEntered c history) (k : Cycle) :
    BypassEntered c (history ++ [k]) :=
  h.trans (List.prefix_append history [k]).isInfix

theorem traced_idle {history : List Cycle} (hcycle : f.wcycle = 0 ∨ 6 ≤ f.wcycle)
    (hbypass : f.bypass → BypassEntered c history) : Traced c history f := by
  refine ⟨?_, ?_, ?_, ?_, ?_, hbypass⟩ <;> (intro h; omega)

theorem unlocking_snoc {history : List Cycle} (h : [.write (c.unlock 0) 0xaa] <:+ history) :
    unlocking c <:+ history ++ [.write (c.unlock 1) 0x55] := by
  obtain ⟨before, rfl⟩ := h
  exact ⟨before, by simp [unlocking]⟩

theorem issued_snoc {history : List Cycle} {bypass : Bool} {a : Nat} (cmd : Byte)
    (h : bypass ∨ unlocking c <:+ history) (haddr : bypass ∨ a = c.unlock 0) :
    Issued c bypass (history ++ [.write a cmd]) cmd := by
  by_cases hb : bypass
  · exact .inr ⟨hb, a, history, rfl⟩
  · obtain ⟨before, hbefore⟩ := h.resolve_left hb
    refine .inl ⟨before, ?_⟩
    rw [haddr.resolve_left hb, ← hbefore, List.append_assoc]

theorem bypassEntered_snoc {history : List Cycle} (h : unlocking c <:+ history) :
    BypassEntered c (history ++ [.write (c.unlock 0) 0x20]) := by
  obtain ⟨before, rfl⟩ := h
  exact ⟨before, [], by simp⟩

theorem program_ok {offset : Nat} (h : program c f offset value width = .ok f') :
    offset + width.bytes ≤ c.chipLen ∧ f'.storage = programmed c f.storage offset value width ∧
      f'.backing = (update { f with storage := programmed c f.storage offset value width } offset width.bytes).backing ∧
      (f.bypass = true ∧ f'.bypass = true ∧ f'.wcycle = 2 ∨ f'.bypass = false ∧ f'.wcycle = 0) := by
  unfold program at h
  split_ifs at h with hrange
  refine ⟨by omega, ?_⟩
  cases h
  cases hb : f.bypass with
  | true => simp [update, doBypass]
  | false => simp [update, resetFlash]

theorem Traced.next {history : List Cycle} (h : Traced c history f) (ht : Transition c f offset value width f') :
    Traced c (history ++ [.write (boff c offset) (value.setWidth 8)]) f' := by
  have hkept (hb : f.bypass) := (h.bypass hb).snoc (.write (boff c offset) (value.setWidth 8))
  cases ht with
  | reset => exact traced_idle (.inl rfl) (by simp [resetFlash])
  | query => exact traced_idle (.inr (by simp [enterCfiMode])) hkept
  | ignored hcycle =>
    rcases hcycle with ⟨hcycle, hcmd⟩ | hcycle
    · have hstate := (h.restarted hcycle).1
      rw [hcmd] at hstate
      exact absurd hstate (by decide)
    · exact traced_idle (.inr (by omega)) hkept
  | unlock0 hcycle haddr hcmd =>
    rw [haddr, hcmd] at hkept ⊢
    refine ⟨?_, ?_, ?_, ?_, ?_, hkept⟩ <;> simp only [advance, hcycle]
    · exact fun _ ↦ ⟨history, rfl⟩
    all_goals intro hc; omega
  | unlock1 hcycle haddr hcmd =>
    rw [haddr, hcmd] at hkept ⊢
    refine ⟨?_, ?_, ?_, ?_, ?_, hkept⟩ <;> simp only [advance, hcycle]
    · intro hc; omega
    · exact fun _ ↦ .inr (unlocking_snoc (h.started hcycle))
    all_goals intro hc; omega
  | bypass hcycle haddr hcmd =>
    refine ⟨?_, ?_, ?_, ?_, ?_, fun _ ↦ ?_⟩
    · simp [doBypass]
    · simp [doBypass]
    · simp [doBypass]
    · simp [doBypass]
    · simp [doBypass]
    · by_cases hb : f.bypass
      · exact hkept hb
      · rw [haddr.resolve_left hb, hcmd]
        exact bypassEntered_snoc ((h.unlocked hcycle).resolve_left hb)
  | command hcycle haddr =>
    refine ⟨?_, ?_, ?_, ?_, ?_, hkept⟩ <;> simp only [advance, hcycle]
    · intro hc; omega
    · intro hc; omega
    · exact fun _ ↦ issued_snoc _ (h.unlocked hcycle) haddr
    all_goals intro hc; omega
  | relock0 hcycle hstate haddr hcmd =>
    have hissued := h.command hcycle
    rw [hstate] at hissued
    rw [haddr, hcmd] at hkept ⊢
    refine ⟨?_, ?_, ?_, ?_, ?_, hkept⟩ <;> simp only [advance, hcycle]
    · intro hc; omega
    · intro hc; omega
    · intro hc; omega
    · exact fun _ ↦ ⟨hstate, history, rfl, hissued⟩
    · intro hc; omega
  | data hcycle hstate hprogram =>
    obtain ⟨-, -, -, hmode | hmode⟩ := program_ok hprogram
    · obtain ⟨hb, hb', hcycle'⟩ := hmode
      refine ⟨?_, fun _ ↦ .inl hb', ?_, ?_, ?_, fun _ ↦ hkept hb⟩ <;> (intro hc; omega)
    · exact traced_idle (.inl hmode.2) (by simp [hmode.1])
  | relock1 hcycle hstate haddr hcmd =>
    obtain ⟨-, before, hhistory, hissued⟩ := h.restarted hcycle
    rw [haddr, hcmd] at hkept ⊢
    refine ⟨?_, ?_, ?_, ?_, ?_, hkept⟩ <;> simp only [advance, hcycle]
    · intro hc; omega
    · intro hc; omega
    · intro hc; omega
    · intro hc; omega
    · exact fun _ ↦ ⟨before, by simp [hhistory, unlocking], hissued⟩
  | eraseChip hcycle hcmd => exact traced_idle (.inr (by simp [erase, advance, update, hcycle])) hkept
  | eraseSector hcycle hcmd => exact traced_idle (.inr (by simp [erase, advance, update, hcycle])) hkept

theorem Traced.expire {history : List Cycle} (h : Traced c history f) :
    Traced c (history ++ [.expiry]) (expire f) := by
  have hkept (hb : f.bypass) := (h.bypass hb).snoc .expiry
  cases hb : f.bypass with
  | true => refine ⟨?_, ?_, ?_, ?_, ?_, ?_⟩ <;> simp [Cfi02.expire, hb, hkept hb]
  | false => exact traced_idle (.inl (by simp [Cfi02.expire, hb])) (by simp [Cfi02.expire, hb])

theorem update_covers {offset size : Nat} {storage : Nat → Byte} (h : f.Persisted c)
    (hsame : ∀ i, ¬ inside offset size i → storage i = f.storage i) {image : Nat → Byte}
    (himage : (update { f with storage } offset size).backing = some image) {i : Nat} (hi : i < c.chipLen) :
    image i = storage i := by
  cases hb : f.backing with
  | none => simp [update, hb] at himage
  | some old =>
    simp only [update, hb, Option.map_some, Option.some.injEq] at himage
    rw [← himage]
    dsimp only
    split_ifs with hcopied
    · rfl
    · rw [h old hb i hi, hsame i]
      simp only [inside, Nat.shiftRight_eq_div_pow, Nat.shiftLeft_eq] at hcopied ⊢
      omega

theorem storage_erase (f : Flash) (offset size : Nat) (cmd : Byte) :
    (erase f offset size cmd).storage = erased f.storage offset size := rfl

theorem Persisted.erase (h : f.Persisted c) (offset size : Nat) (cmd : Byte) :
    (erase f offset size cmd).Persisted c := by
  intro image himage i hi
  rw [storage_erase]
  exact update_covers h (fun i hi ↦ if_neg hi) himage hi

theorem Persisted.next (h : f.Persisted c) (ht : Transition c f offset value width f') : f'.Persisted c := by
  cases ht with
  | data hcycle hstate hprogram =>
    obtain ⟨-, hstorage, hbacking, -⟩ := program_ok hprogram
    intro image himage i hi
    rw [hbacking] at himage
    rw [hstorage]
    exact update_covers h (fun i hi ↦ if_neg hi) himage hi
  | eraseChip => exact Persisted.erase h _ _ _
  | eraseSector => exact Persisted.erase h _ _ _
  | _ => exact h

theorem inside_sector (offset i : Nat) :
    inside (sectorStart c offset) c.sectorLen i ↔ i / c.sectorLen = offset / c.sectorLen := by
  have hpos : 0 < c.sectorLen := Nat.two_pow_pos c.sectorBits
  have hstart : sectorStart c offset = c.sectorLen * (offset / c.sectorLen) := by
    rw [sectorStart, Chip.sectorLen, Nat.and_two_pow_sub_one_eq_mod]
    have := Nat.div_add_mod offset (2 ^ c.sectorBits)
    omega
  rw [inside, hstart, Nat.div_eq_iff hpos, Nat.mul_comm (offset / c.sectorLen)]
  omega

theorem Traced.effect {history : List Cycle} (h : Traced c history f) (ht : Transition c f offset value width f') :
    Effect c history f offset value width f'.storage := by
  cases ht with
  | data hcycle hstate hprogram =>
    obtain ⟨-, hstorage, -, -⟩ := program_ok hprogram
    have hissued := h.command hcycle
    rw [hstate] at hissued
    rw [hstorage]
    exact .programs hissued
  | eraseChip hcycle hcmd =>
    have hstorage : erased f.storage 0 c.chipLen = fun i ↦ if i < c.chipLen then 0xff else f.storage i := by
      funext i
      exact if_congr (by simp [inside]) rfl rfl
    rw [storage_erase, hstorage]
    exact .erasesChip hcmd (h.ready hcycle)
  | eraseSector hcycle hcmd =>
    have hstorage : erased f.storage (sectorStart c (offset &&& (c.chipLen - 1))) c.sectorLen = fun i ↦
        if i / c.sectorLen = (offset &&& (c.chipLen - 1)) / c.sectorLen then 0xff else f.storage i := by
      funext i
      exact if_congr (inside_sector _ i) rfl rfl
    rw [storage_erase, hstorage]
    exact .erasesSector hcmd (h.ready hcycle)
  | _ => exact .unchanged

theorem write_total (f : Flash) (h : (Op.write offset value width).InRange c) :
    ∃ f', write c f offset value width = .ok f' := by
  have hprogram : ∃ f', program c f (offset &&& (c.chipLen - 1)) value width = .ok f' := by
    have hrange : ¬ c.chipLen < (offset &&& (c.chipLen - 1)) + width.bytes := Nat.not_lt.mpr h
    rw [program, if_neg hrange]
    exact ⟨_, rfl⟩
  rw [write]
  simp only
  by_cases hf0 : f.cmd ≠ 0xa0 ∧ value.setWidth 8 = (0xf0 : Byte)
  · rw [if_pos hf0]
    exact ⟨_, rfl⟩
  · rw [if_neg hf0]
    split
    · exact ⟨_, rfl⟩
    · exact ⟨_, rfl⟩
    · split_ifs <;> exact ⟨_, rfl⟩
    · split_ifs <;> first | exact hprogram | exact ⟨_, rfl⟩
    · split_ifs <;> exact ⟨_, rfl⟩
    · split_ifs <;> exact ⟨_, rfl⟩
    · split_ifs <;> exact ⟨_, rfl⟩
    · exact ⟨_, rfl⟩

/-- A read leaves the contents alone, and the command machine where it is or in read mode. -/
structure Kept (f f' : Flash) : Prop where
  storage : f'.storage = f.storage
  backing : f'.backing = f.backing
  bypass : f'.bypass = f.bypass
  machine : f'.wcycle = 0 ∨ f'.wcycle = f.wcycle ∧ f'.cmd = f.cmd

theorem read_kept (f : Flash) (h : (Op.read offset width).InRange c) :
    ∃ f' ret, read c f offset width = .ok (f', ret) ∧ Kept f f' := by
  have hself : Kept f f := ⟨rfl, rfl, rfl, .inr ⟨rfl, rfl⟩⟩
  have hload : ∃ ret, load c f.storage (offset &&& (c.chipLen - 1)) width = .ok ret := by
    have hrange : ¬ c.chipLen < (offset &&& (c.chipLen - 1)) + width.bytes := Nat.not_lt.mpr h
    rw [load, if_neg hrange]
    exact ⟨_, rfl⟩
  obtain ⟨ret, hload⟩ := hload
  have hrom : (if f.romMode ∧ f.wcycle = 0 then { f with romMode := true } else f) = f := by
    split_ifs with hmode
    · rw [← hmode.1]
    · rfl
  rw [read]
  simp only [hrom, hload, Except.map]
  split
  · exact ⟨_, _, rfl, hself⟩
  · exact ⟨_, _, rfl, hself⟩
  · split
    · exact ⟨_, _, rfl, hself⟩
    · exact ⟨_, _, rfl, hself⟩
    · exact ⟨_, _, rfl, hself⟩
    · split_ifs <;> exact ⟨_, _, rfl, hself⟩
    · split_ifs <;> exact ⟨_, _, rfl, hself⟩
    · exact ⟨_, _, rfl, hself⟩
  · exact ⟨_, _, rfl, rfl, rfl, rfl, .inr ⟨rfl, rfl⟩⟩
  · exact ⟨_, _, rfl, rfl, rfl, rfl, .inr ⟨rfl, rfl⟩⟩
  · exact ⟨_, _, rfl, rfl, rfl, rfl, .inr ⟨rfl, rfl⟩⟩
  · exact ⟨_, _, rfl, hself⟩
  · exact ⟨_, _, rfl, rfl, rfl, rfl, .inl rfl⟩

theorem Traced.read {history : List Cycle} (h : Traced c history f) (hkept : Kept f f') : Traced c history f' := by
  rcases hkept.machine with hidle | ⟨hcycle, hcmd⟩
  · refine traced_idle (.inl hidle) ?_
    rw [hkept.bypass]
    exact h.bypass
  · refine ⟨?_, ?_, ?_, ?_, ?_, ?_⟩ <;> simp only [hcycle, hcmd, hkept.bypass]
    · exact h.started
    · exact h.unlocked
    · exact h.command
    · exact h.restarted
    · exact h.ready
    · exact h.bypass

/-- One in-range access keeps the disk up to date and has a lawful effect. -/
theorem step_lawful {history : List Cycle} {op : Op} (hp : f.Persisted c) (h : Traced c history f)
    (hrange : op.InRange c) :
    ∃ f' o, step c f op = .ok (f', o) ∧ f'.Persisted c ∧ Lawful c history f op f' ∧
      Traced c (history ++ (op.cycle c).toList) f' := by
  cases op with
  | read offset width =>
    obtain ⟨f', ret, hread, hkept⟩ := read_kept f hrange
    refine ⟨f', some ret, by rw [step, hread]; rfl, ?_, ⟨h.bypass, hkept.storage⟩, ?_⟩
    · intro image himage
      rw [hkept.backing] at himage
      rw [hkept.storage]
      exact hp image himage
    · simpa [Op.cycle] using h.read hkept
  | write offset value width =>
    obtain ⟨f', hwrite⟩ := write_total f hrange
    have ht := transition_of_write hwrite
    exact ⟨f', none, by rw [step, hwrite]; rfl, Persisted.next hp ht, ⟨h.bypass, h.effect ht⟩, h.next ht⟩
  | expire =>
    have hsame : (Cfi02.expire f).storage = f.storage ∧ (Cfi02.expire f).backing = f.backing := by
      unfold Cfi02.expire
      dsimp only
      split_ifs <;> exact ⟨rfl, rfl⟩
    refine ⟨Cfi02.expire f, none, rfl, ?_, ⟨h.bypass, hsame.1⟩, h.expire⟩
    intro image himage
    rw [hsame.2] at himage
    rw [hsame.1]
    exact hp image himage

end Transitions

section Runs

variable {c : Chip}

theorem cycles_cons (op : Op) (ops : List Op) : cycles c (op :: ops) = (op.cycle c).toList ++ cycles c ops := by
  cases hop : op.cycle c with
  | none => simp [cycles, hop]
  | some k => simp [cycles, hop]

theorem exec_lawful {f : Flash} {history : List Cycle} {ops : List Op} (hp : f.Persisted c)
    (h : Traced c history f) (hrange : ∀ op ∈ ops, op.InRange c) :
    ∃ t os, exec (step c) f ops = .ok (t, os) ∧ t.Persisted c ∧ Traced c (history ++ cycles c ops) t := by
  induction ops generalizing f history with
  | nil => exact ⟨f, [], rfl, hp, by simpa [cycles] using h⟩
  | cons op ops ih =>
    obtain ⟨f', o, hstep, hp', -, h'⟩ := step_lawful hp h (hrange op List.mem_cons_self)
    obtain ⟨t, os, hexec, hpt, ht⟩ := ih hp' h' fun op hop ↦ hrange op (List.mem_cons_of_mem _ hop)
    refine ⟨t, o :: os, exec_cons hstep hexec, hpt, ?_⟩
    rwa [cycles_cons, ← List.append_assoc]

theorem traced_register (bs : Option (Nat → Byte)) (ram : Nat → Byte) : Traced c [] (register bs ram) :=
  traced_idle (.inl rfl) (by simp [register])

theorem persisted_register (bs : Option (Nat → Byte)) (ram : Nat → Byte) : (register bs ram).Persisted c := by
  intro image himage i hi
  cases himage
  rfl

theorem storage_persists (bs : Option (Nat → Byte)) (ram : Nat → Byte) {ops : List Op}
    (hrange : ∀ op ∈ ops, op.InRange c) :
    (∃ t os, exec (step c) (register bs ram) ops = .ok (t, os) ∧ t.Persisted c) ∧
      ∀ pre op u v o, pre ++ [op] <+: ops → Run (step c) (register bs ram) pre u → step c u op = .ok (v, o) →
        Lawful c (cycles c pre) u op v := by
  have hp := persisted_register (c := c) bs ram
  have hinit := traced_register (c := c) bs ram
  constructor
  · obtain ⟨t, os, hexec, ht, -⟩ := exec_lawful hp hinit hrange
    exact ⟨t, os, hexec, ht⟩
  · intro pre op u v o hpre hrun hstep
    have hin : ∀ a ∈ pre ++ [op], a.InRange c := fun a ha ↦ hrange a (hpre.subset ha)
    obtain ⟨t, os, hexec, ht, htraced⟩ := exec_lawful hp hinit fun a ha ↦ hin a (List.mem_append_left _ ha)
    cases hrun.deterministic (run_of_exec hexec)
    obtain ⟨v', o', hstep', -, hlawful, -⟩ := step_lawful ht htraced (hin op (by simp))
    rw [hstep] at hstep'
    cases hstep'
    exact hlawful

/-- The NOR of the first iPhone. -/
def iphoneNor : Chip where
  sectorBits := 12
  chipBits := 20
  width := 2
  ident := #v[0x00bf, 0x273f, 0, 0]
  unlockAddr := #v[0x555, 0x2aa]
  be := false
  sector_le := by decide
  disk_le := by decide
  chip_le := by decide

example : (exec (step iphoneNor) (register (some fun _ ↦ 0xff) fun _ ↦ 0)
    [.write 0xaaa 0xaa .half, .write 0x554 0x55 .half, .write 0xaaa 0xa0 .half, .write 0x1234 0xbeef .half]).map
      (fun p ↦ (p.1.storage 0x1234, p.1.backing.map fun image ↦ image 0x1235)) = .ok (0xef, some 0xbe) := by decide

theorem storage_persists_programming :
    (∃ t os, exec (step iphoneNor) (register (some fun _ ↦ 0xff) fun _ ↦ 0)
        [.write 0xaaa 0xaa .half, .write 0x554 0x55 .half, .write 0xaaa 0xa0 .half, .write 0x1234 0xbeef .half] =
          .ok (t, os) ∧ t.Persisted iphoneNor) ∧
      ∀ pre op u v o, pre ++ [op] <+:
          [.write 0xaaa 0xaa .half, .write 0x554 0x55 .half, .write 0xaaa 0xa0 .half, .write 0x1234 0xbeef .half] →
        Run (step iphoneNor) (register (some fun _ ↦ 0xff) fun _ ↦ 0) pre u → step iphoneNor u op = .ok (v, o) →
        Lawful iphoneNor (cycles iphoneNor pre) u op v := by
  refine storage_persists _ _ ?_
  simp [Op.InRange, Width.bytes, Chip.chipLen, iphoneNor]

end Runs

end IDeviceEmulator.Nor.Cfi02
