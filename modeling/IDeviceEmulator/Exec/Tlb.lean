import Mathlib.Logic.Function.Basic
import IDeviceEmulator.Library.Loop
import IDeviceEmulator.Library.Machine
import IDeviceEmulator.Library.Masks

namespace IDeviceEmulator.Exec.Tlb

open Machine

abbrev Addr := BitVec 32

def targetPageBits : Nat := 10
def targetPageSize : Addr := 1 <<< targetPageBits
def targetPageMask : Addr := ~~~(targetPageSize - 1)

def cpuTlbSize : Nat := 256
def nbMmuModes : Nat := 2

def tlbInvalidMask : Addr := 1 <<< 3
def tlbNotdirty : Addr := 1 <<< 4
def tlbMmio : Addr := 1 <<< 5

def tbJmpPageBits : Nat := 6
def tbJmpPageSize : Nat := 64
def tbJmpAddrMask : Addr := 63
def tbJmpPageMask : Addr := 4096 - 64

structure CPUTLBEntry where
  addrRead : Addr
  addrWrite : Addr
  addrCode : Addr
  addend : BitVec 64

def sCputlbEmptyEntry : CPUTLBEntry := ⟨-1, -1, -1, -1⟩

/-- The part of the CPU state that has to do with addresses; `τ` is the type of translated
blocks. -/
structure CPUState (τ : Type*) where
  tlbTable : Fin nbMmuModes → Fin cpuTlbSize → CPUTLBEntry
  iotlb : Fin nbMmuModes → Fin cpuTlbSize → BitVec 32
  tbJmpCache : Nat → Option τ
  tlbFlushAddr : Addr
  tlbFlushMask : Addr
  currentTb : Option τ

variable {τ : Type*}

def tbJmpCacheHashPage (pc : Addr) : Nat :=
  let tmp := pc ^^^ (pc >>> (targetPageBits - tbJmpPageBits))
  ((tmp >>> (targetPageBits - tbJmpPageBits)) &&& tbJmpPageMask).toNat

def tbJmpCacheHashFunc (pc : Addr) : Nat :=
  let tmp := pc ^^^ (pc >>> (targetPageBits - tbJmpPageBits))
  (((tmp >>> (targetPageBits - tbJmpPageBits)) &&& tbJmpPageMask) ||| (tmp &&& tbJmpAddrMask)).toNat

def tlbIndex (vaddr : Addr) : Fin cpuTlbSize :=
  ⟨(vaddr >>> targetPageBits).toNat % cpuTlbSize, Nat.mod_lt _ (by decide)⟩

namespace CPUState

/-- `memset` of one page's part of the jump cache. -/
def clearJmpPage (env : CPUState τ) (i : Nat) : CPUState τ :=
  { env with tbJmpCache := fun h ↦ if i ≤ h ∧ h < i + tbJmpPageSize then none else env.tbJmpCache h }

def tlbFlushJmpCache (env : CPUState τ) (addr : Addr) : CPUState τ :=
  (env.clearJmpPage (tbJmpCacheHashPage (addr - targetPageSize))).clearJmpPage (tbJmpCacheHashPage addr)

def tlbFlush (env : CPUState τ) : CPUState τ :=
  { env with
    currentTb := none
    tlbTable := fun _ _ ↦ sCputlbEmptyEntry
    tbJmpCache := fun _ ↦ none
    tlbFlushAddr := -1
    tlbFlushMask := 0 }

end CPUState

def CPUTLBEntry.Matches (entry : CPUTLBEntry) (addr : Addr) : Prop :=
  addr = entry.addrRead &&& (targetPageMask ||| tlbInvalidMask) ∨
    addr = entry.addrWrite &&& (targetPageMask ||| tlbInvalidMask) ∨
    addr = entry.addrCode &&& (targetPageMask ||| tlbInvalidMask)

instance (entry : CPUTLBEntry) (addr : Addr) : Decidable (entry.Matches addr) :=
  inferInstanceAs (Decidable (_ ∨ _ ∨ _))

def tlbFlushEntry (entry : CPUTLBEntry) (addr : Addr) : CPUTLBEntry :=
  if entry.Matches addr then sCputlbEmptyEntry else entry

namespace CPUState

def tlbFlushPage (env : CPUState τ) (addr : Addr) : CPUState τ :=
  if addr &&& env.tlbFlushMask = env.tlbFlushAddr then env.tlbFlush
  else
    let addr := addr &&& targetPageMask
    let env := { env with
      currentTb := none
      tlbTable := fun mmuIdx i ↦
        if i = tlbIndex addr then tlbFlushEntry (env.tlbTable mmuIdx i) addr else env.tlbTable mmuIdx i }
    env.tlbFlushJmpCache addr

end CPUState

/-- One turn of the loop that widens a mask until two addresses agree on it. -/
def widenBody (diff mask : Addr) : Addr ⊕ Addr :=
  if diff &&& mask ≠ 0 then .inl (mask <<< 1) else .inr mask

inductive Fault
  | endless

-- A mask has no bits left after 32 turns.
def widenMask (diff mask : Addr) : Except Fault Addr :=
  match Loop.run (widenBody diff) 33 mask with
  | some mask => .ok mask
  | none => .error .endless

def CPUState.tlbAddLargePage (env : CPUState τ) (vaddr size : Addr) : Except Fault (CPUState τ) :=
  let mask := ~~~(size - 1)
  if env.tlbFlushAddr = -1 then
    .ok { env with tlbFlushAddr := vaddr &&& mask, tlbFlushMask := mask }
  else
    (widenMask (env.tlbFlushAddr ^^^ vaddr) (mask &&& env.tlbFlushMask)).map fun mask ↦
      { env with tlbFlushAddr := env.tlbFlushAddr &&& mask, tlbFlushMask := mask }

structure PhysPageDesc where
  physOffset : BitVec 64
  regionOffset : BitVec 64

structure Watchpoint where
  vaddr : Addr
  memRead : Bool

structure Prot where
  read : Bool
  write : Bool
  exec : Bool

/-- What `tlb_set_page` asks of the memory system and the debugger while it runs. -/
structure Host where
  physPageFind : BitVec 32 → Option PhysPageDesc
  qemuGetRamPtr : BitVec 64 → BitVec 64
  isDirty : BitVec 64 → Bool
  ioMemWatch : BitVec 32
  watchpoints : List Watchpoint

def ioMemRam : BitVec 64 := 0
def ioMemRom : BitVec 64 := 1 <<< 3
def ioMemUnassigned : BitVec 64 := 2 <<< 3
def ioMemNotdirty : BitVec 64 := 3 <<< 3
def ioMemRomd : BitVec 64 := 1

/-- The mask of a page offset, as the host's long integers have it. -/
def pageOffsetMask : BitVec 64 := 1024 - 1

namespace Host

def pd (host : Host) (paddr : BitVec 32) : BitVec 64 :=
  ((host.physPageFind (paddr >>> targetPageBits)).map PhysPageDesc.physOffset).getD ioMemUnassigned

/-- The first watchpoint of the page that asks for a trap. -/
def watched (host : Host) (vaddr : Addr) (prot : Prot) : Bool :=
  host.watchpoints.any fun wp ↦ vaddr == wp.vaddr &&& targetPageMask && (prot.write || wp.memRead)

def codeAddress (host : Host) (vaddr : Addr) (paddr : BitVec 32) : Addr :=
  if host.pd paddr &&& pageOffsetMask > ioMemRom ∧ host.pd paddr &&& ioMemRomd = 0 then vaddr ||| tlbMmio
  else vaddr

def address (host : Host) (vaddr : Addr) (paddr : BitVec 32) (prot : Prot) : Addr :=
  if host.watched vaddr prot then host.codeAddress vaddr paddr ||| tlbMmio else host.codeAddress vaddr paddr

def writeAddress (host : Host) (vaddr : Addr) (paddr : BitVec 32) (prot : Prot) : Addr :=
  if host.pd paddr &&& pageOffsetMask = ioMemRom ∨ host.pd paddr &&& ioMemRomd ≠ 0 then
    host.address vaddr paddr prot ||| tlbMmio
  else if host.pd paddr &&& pageOffsetMask = ioMemRam ∧ !host.isDirty (host.pd paddr) then
    host.address vaddr paddr prot ||| tlbNotdirty
  else host.address vaddr paddr prot

def entry (host : Host) (vaddr : Addr) (paddr : BitVec 32) (prot : Prot) : CPUTLBEntry where
  addrRead := if prot.read then host.address vaddr paddr prot else -1
  addrWrite := if prot.write then host.writeAddress vaddr paddr prot else -1
  addrCode := if prot.exec then host.codeAddress vaddr paddr else -1
  addend := host.qemuGetRamPtr (host.pd paddr &&& ~~~pageOffsetMask) - vaddr.setWidth 64

def iotlb (host : Host) (vaddr : Addr) (paddr : BitVec 32) (prot : Prot) : BitVec 32 :=
  let kind := host.pd paddr &&& pageOffsetMask
  if host.watched vaddr prot then host.ioMemWatch + paddr
  else if kind ≤ ioMemRom then
    ((host.pd paddr &&& ~~~pageOffsetMask) ||| (if kind = ioMemRam then ioMemNotdirty else ioMemRom)).setWidth 32
  else
    match host.physPageFind (paddr >>> targetPageBits) with
    | some p => kind.setWidth 32 + p.regionOffset.setWidth 32
    | none => kind.setWidth 32 + paddr

end Host

def CPUState.setEntry (env : CPUState τ) (mmuIdx : Fin nbMmuModes) (index : Fin cpuTlbSize)
    (iotlb : BitVec 32) (entry : CPUTLBEntry) : CPUState τ :=
  { env with
    iotlb := Function.update env.iotlb mmuIdx (Function.update (env.iotlb mmuIdx) index iotlb)
    tlbTable := Function.update env.tlbTable mmuIdx (Function.update (env.tlbTable mmuIdx) index entry) }

def CPUState.tlbSetPage (env : CPUState τ) (host : Host) (vaddr : Addr) (paddr : BitVec 32) (prot : Prot)
    (mmuIdx : Fin nbMmuModes) (size : Addr) : Except Fault (CPUState τ) :=
  let sized := if size ≠ targetPageSize then env.tlbAddLargePage vaddr size else .ok env
  sized.map fun env ↦
    env.setEntry mmuIdx (tlbIndex vaddr) (host.iotlb vaddr paddr prot - vaddr) (host.entry vaddr paddr prot)

/-- `tb_find_slow` remembers the block that it found for a program counter. -/
def CPUState.cacheTb (env : CPUState τ) (pc : Addr) (tb : τ) : CPUState τ :=
  { env with tbJmpCache := Function.update env.tbJmpCache (tbJmpCacheHashFunc pc) (some tb) }

def samePage (a b : Addr) : Prop := a &&& targetPageMask = b &&& targetPageMask

/-- A page as the page tables have it: its address, aligned as far as the TLB needs it, and
its size, a power of two. -/
structure Page where
  vaddr : Addr
  bits : Nat
  aligned : vaddr &&& targetPageMask = vaddr
  le_bits : targetPageBits ≤ bits
  bits_lt : bits < 32

def Page.size (page : Page) : Addr := 1 <<< page.bits

/-- The naturally aligned block of the page's size that the page's address is in has the
other address too. -/
def Page.Contains (page : Page) (addr : Addr) : Prop :=
  addr &&& ~~~(page.size - 1) = page.vaddr &&& ~~~(page.size - 1)

/-- An entry without any address: no access hits it. Such are the empty entry, and one that
was installed without any access right. -/
def CPUTLBEntry.Void (entry : CPUTLBEntry) : Prop :=
  entry.addrRead = -1 ∧ entry.addrWrite = -1 ∧ entry.addrCode = -1

inductive Call (τ : Type*)
  | setPage (host : Host) (page : Page) (paddr : BitVec 32) (prot : Prot) (mmuIdx : Fin nbMmuModes)
  | flush
  | flushPage (addr : Addr)
  | cacheTb (tb : τ)

/-- The CPU state, with the page that was last set for each entry of the TLB. -/
structure Session (τ : Type*) where
  env : CPUState τ
  last : Fin nbMmuModes → Fin cpuTlbSize → Option Page

namespace Session

/-- A CPU comes out of its reset with a flushed TLB. -/
def reset (env : CPUState τ) : Session τ := ⟨env.tlbFlush, fun _ _ ↦ none⟩

variable (pc : τ → Addr)

def step (s : Session τ) : Call τ → Except Fault (Session τ × Unit)
  | .setPage host page paddr prot mmuIdx =>
    (s.env.tlbSetPage host page.vaddr paddr prot mmuIdx page.size).map fun env ↦
      (⟨env, Function.update s.last mmuIdx
        (Function.update (s.last mmuIdx) (tlbIndex page.vaddr) (some page))⟩, ())
  | .flush => .ok ({ s with env := s.env.tlbFlush }, ())
  | .flushPage addr => .ok ({ s with env := s.env.tlbFlushPage addr }, ())
  | .cacheTb tb => .ok ({ s with env := s.env.cacheTb (pc tb) tb }, ())

/-- What a flush of one page promises: what was set for a page with the address in it is gone,
and so are the blocks that start in its page or in the page before. -/
structure Invalidated (s : Session τ) (addr : Addr) : Prop where
  entries : ∀ mmuIdx i, ∀ page ∈ s.last mmuIdx i, page.Contains addr → (s.env.tlbTable mmuIdx i).Void
  blocks : ∀ h, ∀ tb ∈ s.env.tbJmpCache h,
    ¬ samePage (pc tb) addr ∧ ¬ samePage (pc tb) ((addr &&& targetPageMask) - targetPageSize)

end Session

section LargePages

open Masks

theorem targetPageMask_eq : targetPageMask = high 32 targetPageBits := rfl

theorem not_sub_one_eq {k : Nat} (hk : k < 32) : ~~~((1#32 <<< k) - 1) = high 32 k := by
  have hall : ∀ k : Fin 32, ~~~((1#32 <<< k.val) - 1) = high 32 k.val := by decide
  exact hall ⟨k, hk⟩

theorem Page.mask_eq (page : Page) : ~~~(page.size - 1) = high 32 page.bits := not_sub_one_eq page.bits_lt

theorem widenBody_exit {diff mask : Addr} (h : diff &&& mask = 0) : widenBody diff mask = .inr mask := by
  rw [widenBody, if_neg (not_not.mpr h)]

theorem widenBody_turn {diff mask : Addr} (h : diff &&& mask ≠ 0) : widenBody diff mask = .inl (mask <<< 1) := by
  rw [widenBody, if_pos h]

/-- The loop ends at the latest when no bit is left in the mask. -/
theorem run_widenBody {diff mask : Addr} {k : Nat} (hk : mask <<< k = 0) :
    ∃ n : Nat, Loop.run (widenBody diff) (k + 1) mask = some (mask <<< n) ∧ diff &&& (mask <<< n) = 0 := by
  induction k generalizing mask with
  | zero =>
    rw [BitVec.shiftLeft_zero] at hk
    subst hk
    exact ⟨0, Loop.run_inr (widenBody_exit (BitVec.and_zero ..)), BitVec.and_zero ..⟩
  | succ k ih =>
    by_cases hdiff : diff &&& mask = 0
    · refine ⟨0, ?_, ?_⟩
      · rw [BitVec.shiftLeft_zero]
        exact Loop.run_inr (widenBody_exit hdiff)
      · rw [BitVec.shiftLeft_zero]
        exact hdiff
    · rw [Nat.add_comm, BitVec.shiftLeft_add] at hk
      obtain ⟨n, hrun, hzero⟩ := ih hk
      rw [← BitVec.shiftLeft_add] at hrun hzero
      exact ⟨1 + n, (Loop.run_inl (widenBody_turn hdiff)).trans hrun, hzero⟩

theorem widenMask_ok (diff mask : Addr) :
    ∃ n : Nat, widenMask diff mask = .ok (mask <<< n) ∧ diff &&& (mask <<< n) = 0 := by
  have hall : mask <<< 32 = 0 := BitVec.shiftLeft_eq_zero (Nat.le_refl 32)
  obtain ⟨n, hrun, hzero⟩ := run_widenBody hall
  exact ⟨n, by rw [widenMask, hrun], hzero⟩

theorem widenMask_high (diff : Addr) (k : Nat) :
    ∃ j, k ≤ j ∧ widenMask diff (high 32 k) = .ok (high 32 j) ∧ diff &&& high 32 j = 0 := by
  obtain ⟨n, hwiden, hzero⟩ := widenMask_ok diff (high 32 k)
  rw [high_shiftLeft] at hwiden hzero
  exact ⟨k + n, Nat.le_add_right k n, hwiden, hzero⟩

namespace CPUState

/-- The remembered region is a block of some size, or there is none. -/
def Region (env : CPUState τ) : Prop :=
  env.tlbFlushAddr = -1 ∨ ∃ k, env.tlbFlushMask = high 32 k

/-- The remembered region has the block of the page in it. -/
structure Covers (env : CPUState τ) (page : Page) : Prop where
  mask : high 32 page.bits &&& env.tlbFlushMask = env.tlbFlushMask
  addr : page.vaddr &&& env.tlbFlushMask = env.tlbFlushAddr

variable {env : CPUState τ} {page : Page}

theorem Covers.ne (h : env.Covers page) : env.tlbFlushAddr ≠ -1 := by
  intro hall
  have hbit := bit_of_and (i := 0) (h.addr.trans hall)
  have hmask := bit_of_and (i := 0) h.mask
  have hpos : ¬ page.bits ≤ 0 := by
    have hle := page.le_bits
    unfold targetPageBits at hle
    omega
  simp only [getLsbD_high, hpos, decide_false, Bool.and_false, Bool.false_and] at hmask
  rw [← hmask, Bool.and_false] at hbit
  exact absurd hbit (by decide)

theorem Covers.flushed (h : env.Covers page) {addr : Addr} (haddr : page.Contains addr) :
    env.tlbFlushPage addr = env.tlbFlush := by
  rw [Page.Contains, page.mask_eq] at haddr
  have hregion : addr &&& env.tlbFlushMask = env.tlbFlushAddr := by
    rw [← h.addr, ← h.mask, ← BitVec.and_assoc, haddr, BitVec.and_assoc]
  rw [tlbFlushPage, if_pos hregion]

/-- The remembered region of a state has grown, and nothing else has changed. -/
structure Widens (env env' : CPUState τ) : Prop where
  tlbTable : env'.tlbTable = env.tlbTable
  tbJmpCache : env'.tbJmpCache = env.tbJmpCache
  region : env'.Region
  covers : ∀ page, env.Covers page → env'.Covers page

/-- Remembering a large page widens the region so that it has the page in it. -/
theorem tlbAddLargePage_spec (h : env.Region) (page : Page) :
    ∃ env', env.tlbAddLargePage page.vaddr page.size = .ok env' ∧ env.Widens env' ∧ env'.Covers page := by
  by_cases hnone : env.tlbFlushAddr = -1
  · refine ⟨{ env with
      tlbFlushAddr := page.vaddr &&& ~~~(page.size - 1)
      tlbFlushMask := ~~~(page.size - 1) }, ?_, ⟨rfl, rfl, ?_, ?_⟩, ?_, rfl⟩
    · rw [tlbAddLargePage, if_pos hnone]
    · exact .inr ⟨page.bits, page.mask_eq⟩
    · intro q hq
      exact absurd hnone hq.ne
    · rw [page.mask_eq, BitVec.and_self]
  · obtain ⟨k, hmask⟩ := h.resolve_left hnone
    obtain ⟨j, hkj, hwiden, hzero⟩ := widenMask_high (env.tlbFlushAddr ^^^ page.vaddr) (max page.bits k)
    have hagree := xor_and_eq_zero_iff.mp hzero
    refine ⟨{ env with tlbFlushAddr := env.tlbFlushAddr &&& high 32 j, tlbFlushMask := high 32 j }, ?_,
      ⟨rfl, rfl, .inr ⟨j, rfl⟩, ?_⟩, ?_, hagree.symm⟩
    · rw [tlbAddLargePage, if_neg hnone, page.mask_eq, hmask, high_and, hwiden]
      rfl
    · intro q hq
      have hkeep : high 32 k &&& high 32 j = high 32 j := by
        rw [high_and, Nat.max_eq_right (Nat.le_trans (Nat.le_max_right _ _) hkj)]
      obtain ⟨hqmask, hqaddr⟩ := hq
      rw [hmask] at hqmask hqaddr
      constructor
      · rw [← hkeep, ← BitVec.and_assoc, hqmask]
      · rw [← hqaddr, BitVec.and_assoc, hkeep]
    · rw [high_and, Nat.max_eq_right (Nat.le_trans (Nat.le_max_left _ _) hkj)]

end CPUState

end LargePages

section JumpCache

open Masks

theorem tbJmpPageMask_low {i : Nat} (hi : i < tbJmpPageBits) : tbJmpPageMask.getLsbD i = false := by
  have hall : ∀ i : Fin 6, tbJmpPageMask.getLsbD i.val = false := by decide
  exact hall ⟨i, hi⟩

/-- The hash of a page mixes bits of the page number only. -/
theorem tbJmpCacheHashPage_congr {a b : Addr} (h : samePage a b) : tbJmpCacheHashPage a = tbJmpCacheHashPage b := by
  rw [samePage, targetPageMask_eq] at h
  have hbits : ∀ {i}, 10 ≤ i → a.getLsbD i = b.getLsbD i := fun hi ↦ getLsbD_of_and_high h hi
  apply congrArg BitVec.toNat
  apply BitVec.eq_of_getLsbD_eq
  intro i hi
  by_cases hlow : i < tbJmpPageBits
  · rw [BitVec.getLsbD_and, BitVec.getLsbD_and, tbJmpPageMask_low hlow, Bool.and_false, Bool.and_false]
  · have hsum : 10 ≤ targetPageBits - tbJmpPageBits + i := by
      unfold targetPageBits tbJmpPageBits at *
      omega
    simp only [BitVec.getLsbD_and, BitVec.getLsbD_ushiftRight, BitVec.getLsbD_xor]
    rw [hbits hsum, hbits (Nat.le_add_left_of_le hsum)]

/-- The blocks of a page are in one window of the jump cache. -/
theorem tbJmpCacheHashFunc_window {pc addr : Addr} (h : samePage pc addr) :
    tbJmpCacheHashPage addr ≤ tbJmpCacheHashFunc pc ∧
      tbJmpCacheHashFunc pc < tbJmpCacheHashPage addr + tbJmpPageSize := by
  rw [← tbJmpCacheHashPage_congr h]
  have hsum : ∀ x y : Addr, (x &&& tbJmpPageMask ||| y &&& tbJmpAddrMask).toNat =
      (x &&& tbJmpPageMask).toNat + (y &&& tbJmpAddrMask).toNat := by
    intro x y
    have hdisjoint : (x &&& tbJmpPageMask) &&& (y &&& tbJmpAddrMask) = 0#32 := by
      have hmasks : tbJmpPageMask &&& tbJmpAddrMask = 0#32 := by decide
      rw [BitVec.and_comm y, BitVec.and_assoc, ← BitVec.and_assoc tbJmpPageMask, hmasks, BitVec.zero_and,
        BitVec.and_zero]
    rw [← BitVec.add_eq_or_of_and_eq_zero _ _ hdisjoint, BitVec.toNat_add_of_and_eq_zero hdisjoint]
  have hlow : ∀ y : Addr, (y &&& tbJmpAddrMask).toNat < tbJmpPageSize := by
    intro y
    have hmask : tbJmpAddrMask < 64#32 := by decide
    exact and_lt hmask
  rw [tbJmpCacheHashFunc, hsum]
  exact ⟨Nat.le_add_right _ _, Nat.add_lt_add_left (hlow _) _⟩

end JumpCache

namespace CPUState

variable {env : CPUState τ} (pc : τ → Addr)

/-- Each block is in the slot of its program counter. -/
def Hashed (env : CPUState τ) : Prop := ∀ h, ∀ tb ∈ env.tbJmpCache h, h = tbJmpCacheHashFunc (pc tb)

theorem clearJmpPage_of_mem {i h : Nat} {tb : τ} (htb : tb ∈ (env.clearJmpPage i).tbJmpCache h) :
    tb ∈ env.tbJmpCache h ∧ ¬ (i ≤ h ∧ h < i + tbJmpPageSize) := by
  simp only [clearJmpPage] at htb
  split at htb
  · cases htb
  case isFalse hout => exact ⟨htb, hout⟩

variable {pc}

theorem Hashed.clearJmpPage (h : env.Hashed pc) (addr : Addr) :
    ∀ i, ∀ tb ∈ (env.clearJmpPage (tbJmpCacheHashPage addr)).tbJmpCache i,
      i = tbJmpCacheHashFunc (pc tb) ∧ ¬ samePage (pc tb) addr := by
  intro i tb htb
  obtain ⟨hmem, hout⟩ := clearJmpPage_of_mem htb
  have hi := h i tb hmem
  refine ⟨hi, fun hsame ↦ hout ?_⟩
  rw [hi]
  exact tbJmpCacheHashFunc_window hsame

theorem samePage_and (addr : Addr) : samePage (addr &&& targetPageMask) addr := by
  rw [samePage, BitVec.and_assoc, BitVec.and_self]

/-- The flush of one page drops the blocks of the page and of the page before. -/
theorem Hashed.tlbFlushJmpCache (h : env.Hashed pc) (addr : Addr) :
    ∀ i, ∀ tb ∈ (env.tlbFlushJmpCache addr).tbJmpCache i,
      i = tbJmpCacheHashFunc (pc tb) ∧ ¬ samePage (pc tb) addr ∧ ¬ samePage (pc tb) (addr - targetPageSize) := by
  have hfirst := h.clearJmpPage (addr - targetPageSize)
  have hashed : (env.clearJmpPage (tbJmpCacheHashPage (addr - targetPageSize))).Hashed pc :=
    fun i tb htb ↦ (hfirst i tb htb).1
  intro i tb htb
  obtain ⟨hi, hpage⟩ := hashed.clearJmpPage addr i tb htb
  exact ⟨hi, hpage, (hfirst i tb (clearJmpPage_of_mem htb).1).2⟩

/-- What an entry can be that was last set for a page: emptied since, or still found under
the address of the page, in which case a large page is remembered. -/
structure Holds (env : CPUState τ) (page : Page) (mmuIdx : Fin nbMmuModes) (i : Fin cpuTlbSize) : Prop where
  index : i = tlbIndex page.vaddr
  entry : (env.tlbTable mmuIdx i).Void ∨
    (env.tlbTable mmuIdx i).Matches page.vaddr ∧ (page.size ≠ targetPageSize → env.Covers page)

end CPUState

namespace Session

variable (pc : τ → Addr)

structure Kept (s : Session τ) : Prop where
  region : s.env.Region
  hashed : s.env.Hashed pc
  entries : ∀ mmuIdx i, ∀ page ∈ s.last mmuIdx i, s.env.Holds page mmuIdx i

theorem kept_tlbFlush (env : CPUState τ) (last : Fin nbMmuModes → Fin cpuTlbSize → Option Page)
    (hlast : ∀ mmuIdx i, ∀ page ∈ last mmuIdx i, i = tlbIndex page.vaddr) : Kept pc ⟨env.tlbFlush, last⟩ := by
  refine ⟨.inl rfl, ?_, ?_⟩
  · intro h tb htb
    cases htb
  · intro mmuIdx i page hpage
    exact ⟨hlast mmuIdx i page hpage, .inl ⟨rfl, rfl, rfl⟩⟩

end Session

/-- An address field of an entry for a page: the address, with flags that a flush ignores. -/
def IsAddress (vaddr field : Addr) : Prop := vaddr = field &&& (targetPageMask ||| tlbInvalidMask)

theorem isAddress_self (page : Page) : IsAddress page.vaddr page.vaddr := by
  rw [IsAddress, ← page.aligned, BitVec.and_assoc]
  rfl

theorem IsAddress.flag {vaddr field flag : Addr} (h : IsAddress vaddr field)
    (hflag : flag &&& (targetPageMask ||| tlbInvalidMask) = 0) : IsAddress vaddr (field ||| flag) := by
  rw [IsAddress, BitVec.and_or_distrib_right, hflag]
  exact h.trans (BitVec.or_zero ..).symm

theorem IsAddress.mmio {vaddr field : Addr} (h : IsAddress vaddr field) : IsAddress vaddr (field ||| tlbMmio) :=
  h.flag (by decide)

theorem IsAddress.ite {vaddr a b : Addr} {c : Prop} [Decidable c] (ha : IsAddress vaddr a) (hb : IsAddress vaddr b) :
    IsAddress vaddr (if c then a else b) := by
  split
  · exact ha
  · exact hb

theorem isAddress_entry (host : Host) (page : Page) (paddr : BitVec 32) (prot : Prot) :
    IsAddress page.vaddr (host.codeAddress page.vaddr paddr) ∧
      IsAddress page.vaddr (host.address page.vaddr paddr prot) ∧
      IsAddress page.vaddr (host.writeAddress page.vaddr paddr prot) := by
  have hself := isAddress_self page
  have hcode : IsAddress page.vaddr (host.codeAddress page.vaddr paddr) := .ite hself.mmio hself
  have haddr : IsAddress page.vaddr (host.address page.vaddr paddr prot) := .ite hcode.mmio hcode
  exact ⟨hcode, haddr, .ite haddr.mmio (.ite (haddr.flag (by decide)) haddr)⟩

/-- An entry for a page has no address, or is found under the page's address. -/
theorem void_or_matches (host : Host) (page : Page) (paddr : BitVec 32) (prot : Prot) :
    (host.entry page.vaddr paddr prot).Void ∨ (host.entry page.vaddr paddr prot).Matches page.vaddr := by
  obtain ⟨hcode, haddr, hwrite⟩ := isAddress_entry host page paddr prot
  by_cases hr : prot.read
  · refine .inr (.inl ?_)
    rw [Host.entry, if_pos hr]
    exact haddr
  · by_cases hw : prot.write
    · refine .inr (.inr (.inl ?_))
      rw [Host.entry, if_pos hw]
      exact hwrite
    · by_cases hx : prot.exec
      · refine .inr (.inr (.inr ?_))
        rw [Host.entry, if_pos hx]
        exact hcode
      · exact .inl ⟨if_neg hr, if_neg hw, if_neg hx⟩

/-- Setting a page widens the remembered region if the page is large, and changes the entry
of the page. -/
theorem CPUState.tlbSetPage_spec {env : CPUState τ} (h : env.Region) (host : Host) (page : Page)
    (paddr : BitVec 32) (prot : Prot) (mmuIdx : Fin nbMmuModes) :
    ∃ env', env.tlbSetPage host page.vaddr paddr prot mmuIdx page.size =
        .ok (env'.setEntry mmuIdx (tlbIndex page.vaddr) (host.iotlb page.vaddr paddr prot - page.vaddr)
          (host.entry page.vaddr paddr prot)) ∧
      env.Widens env' ∧ (page.size ≠ targetPageSize → env'.Covers page) := by
  by_cases hsize : page.size = targetPageSize
  · refine ⟨env, ?_, ⟨rfl, rfl, h, fun q hq ↦ hq⟩, fun hne ↦ absurd hsize hne⟩
    rw [tlbSetPage, if_neg (not_not.mpr hsize)]
    rfl
  · obtain ⟨env', hlarge, hwidens, hcovers⟩ := tlbAddLargePage_spec h page
    refine ⟨env', ?_, hwidens, fun _ ↦ hcovers⟩
    rw [tlbSetPage, if_pos hsize, hlarge]
    rfl

namespace CPUState

variable {env : CPUState τ} {addr : Addr} {page : Page} {mmuIdx : Fin nbMmuModes} {i : Fin cpuTlbSize}

/-- A flush of one page changes nothing else if the address is not in the remembered region. -/
theorem tlbFlushPage_of_ne (h : addr &&& env.tlbFlushMask ≠ env.tlbFlushAddr) :
    env.tlbFlushPage addr = tlbFlushJmpCache
      { env with
        currentTb := none
        tlbTable := fun mmuIdx i ↦
          if i = tlbIndex (addr &&& targetPageMask) then
            tlbFlushEntry (env.tlbTable mmuIdx i) (addr &&& targetPageMask)
          else env.tlbTable mmuIdx i } (addr &&& targetPageMask) := by
  rw [tlbFlushPage, if_neg h]

theorem tlbTable_tlbFlushPage (h : addr &&& env.tlbFlushMask ≠ env.tlbFlushAddr) (mmuIdx : Fin nbMmuModes)
    (i : Fin cpuTlbSize) :
    (env.tlbFlushPage addr).tlbTable mmuIdx i = env.tlbTable mmuIdx i ∨
      ((env.tlbFlushPage addr).tlbTable mmuIdx i).Void := by
  rw [tlbFlushPage_of_ne h]
  simp only [tlbFlushJmpCache, clearJmpPage, tlbFlushEntry]
  split
  · split
    · exact .inr ⟨rfl, rfl, rfl⟩
    · exact .inl rfl
  · exact .inl rfl

theorem Holds.void (h : env.Holds page mmuIdx i) (haddr : page.Contains addr) :
    ((env.tlbFlushPage addr).tlbTable mmuIdx i).Void := by
  by_cases hfull : addr &&& env.tlbFlushMask = env.tlbFlushAddr
  · rw [tlbFlushPage, if_pos hfull]
    exact ⟨rfl, rfl, rfl⟩
  rcases h.entry with hvoid | ⟨hmatches, hcovers⟩
  · rcases tlbTable_tlbFlushPage hfull mmuIdx i with heq | hvoid'
    · rw [heq]
      exact hvoid
    · exact hvoid'
  · by_cases hsize : page.size = targetPageSize
    · -- A small page: the address is in the page that the entry is for.
      have hpage : addr &&& targetPageMask = page.vaddr := by
        rw [← page.aligned]
        rw [Page.Contains, hsize] at haddr
        exact haddr
      have hi : i = tlbIndex (addr &&& targetPageMask) := by rw [hpage, h.index]
      rw [tlbFlushPage_of_ne hfull]
      simp only [tlbFlushJmpCache, clearJmpPage]
      rw [if_pos hi, hpage, tlbFlushEntry, if_pos hmatches]
      exact ⟨rfl, rfl, rfl⟩
    · have hflushed := (hcovers hsize).flushed haddr
      rw [hflushed]
      exact ⟨rfl, rfl, rfl⟩

end CPUState

namespace Session

variable {pc : τ → Addr} {s : Session τ}

theorem Kept.setPage (h : s.Kept pc) (host : Host) (page : Page) (paddr : BitVec 32) (prot : Prot)
    (mmuIdx : Fin nbMmuModes) :
    ∃ t, s.step pc (.setPage host page paddr prot mmuIdx) = .ok (t, ()) ∧ t.Kept pc := by
  obtain ⟨env', hset, hwidens, hcovers⟩ := CPUState.tlbSetPage_spec h.region host page paddr prot mmuIdx
  refine ⟨⟨env'.setEntry mmuIdx (tlbIndex page.vaddr) (host.iotlb page.vaddr paddr prot - page.vaddr)
      (host.entry page.vaddr paddr prot), Function.update s.last mmuIdx
    (Function.update (s.last mmuIdx) (tlbIndex page.vaddr) (some page))⟩, ?_, hwidens.region, ?_, ?_⟩
  · rw [step, hset]
    rfl
  · intro i tb htb
    simp only [CPUState.setEntry, hwidens.tbJmpCache] at htb
    exact h.hashed i tb htb
  intro m i q hq
  by_cases hslot : m = mmuIdx ∧ i = tlbIndex page.vaddr
  · obtain ⟨rfl, rfl⟩ := hslot
    simp only [Function.update_self, Option.mem_def, Option.some.injEq] at hq
    subst hq
    refine ⟨rfl, ?_⟩
    simp only [CPUState.setEntry, Function.update_self]
    rcases void_or_matches host page paddr prot with hvoid | hmatches
    · exact .inl hvoid
    · exact .inr ⟨hmatches, fun hne ↦ ⟨(hcovers hne).mask, (hcovers hne).addr⟩⟩
  · -- The entry of another slot is what it was, and its page is still remembered.
    have hother : ∀ {α : Type} (f : Fin nbMmuModes → Fin cpuTlbSize → α) (a : α),
        Function.update f mmuIdx (Function.update (f mmuIdx) (tlbIndex page.vaddr) a) m i = f m i := by
      intro α f a
      by_cases hm : m = mmuIdx
      · subst hm
        rw [Function.update_self, Function.update_of_ne fun hi ↦ hslot ⟨rfl, hi⟩]
      · rw [Function.update_of_ne hm]
    simp only [hother] at hq
    have hold := h.entries m i q hq
    refine ⟨hold.index, ?_⟩
    simp only [CPUState.setEntry, hother, hwidens.tlbTable]
    rcases hold.entry with hvoid | ⟨hmatches, hlarge⟩
    · exact .inl hvoid
    · refine .inr ⟨hmatches, fun hne ↦ ?_⟩
      have hcovered := hwidens.covers q (hlarge hne)
      exact ⟨hcovered.mask, hcovered.addr⟩

theorem Kept.tlbFlush (h : s.Kept pc) : Kept pc { s with env := s.env.tlbFlush } :=
  kept_tlbFlush pc s.env s.last fun mmuIdx i page hpage ↦ (h.entries mmuIdx i page hpage).index

theorem Kept.flushPage (h : s.Kept pc) (addr : Addr) :
    Kept pc { s with env := s.env.tlbFlushPage addr } ∧
      Invalidated pc { s with env := s.env.tlbFlushPage addr } addr := by
  have hvoid : ∀ mmuIdx i, ∀ page ∈ s.last mmuIdx i, page.Contains addr →
      ((s.env.tlbFlushPage addr).tlbTable mmuIdx i).Void :=
    fun mmuIdx i page hpage haddr ↦ (h.entries mmuIdx i page hpage).void haddr
  by_cases hfull : addr &&& s.env.tlbFlushMask = s.env.tlbFlushAddr
  · have hflush : s.env.tlbFlushPage addr = s.env.tlbFlush := by rw [CPUState.tlbFlushPage, if_pos hfull]
    refine ⟨?_, hvoid, ?_⟩
    · rw [hflush]
      exact h.tlbFlush
    · intro i tb htb
      simp only [hflush] at htb
      cases htb
  · have hnot := CPUState.tlbFlushPage_of_ne hfull
    have hcache : ∀ i, ∀ tb ∈ (s.env.tlbFlushPage addr).tbJmpCache i,
        i = tbJmpCacheHashFunc (pc tb) ∧ ¬ samePage (pc tb) (addr &&& targetPageMask) ∧
          ¬ samePage (pc tb) ((addr &&& targetPageMask) - targetPageSize) := by
      rw [hnot]
      apply CPUState.Hashed.tlbFlushJmpCache
      exact h.hashed
    refine ⟨⟨?_, fun i tb htb ↦ (hcache i tb htb).1, ?_⟩, hvoid, ?_⟩
    · simp only [hnot]
      exact h.region
    · intro mmuIdx i page hpage
      have hold := h.entries mmuIdx i page hpage
      refine ⟨hold.index, ?_⟩
      rcases CPUState.tlbTable_tlbFlushPage hfull mmuIdx i with heq | hvoid'
      · simp only [heq]
        rcases hold.entry with hvoid' | ⟨hmatches, hlarge⟩
        · exact .inl hvoid'
        · refine .inr ⟨hmatches, fun hne ↦ ?_⟩
          rw [hnot]
          exact ⟨(hlarge hne).mask, (hlarge hne).addr⟩
      · exact .inl hvoid'
    · intro i tb htb
      obtain ⟨-, hpage, hbefore⟩ := hcache i tb htb
      refine ⟨fun hsame ↦ hpage ?_, hbefore⟩
      exact hsame.trans (CPUState.samePage_and addr).symm

theorem Kept.cacheTb (h : s.Kept pc) (tb : τ) : Kept pc { s with env := s.env.cacheTb (pc tb) tb } := by
  refine ⟨h.region, ?_, fun mmuIdx i page hpage ↦ ?_⟩
  · intro i b hb
    by_cases hi : i = tbJmpCacheHashFunc (pc tb)
    · subst hi
      simp only [CPUState.cacheTb, Function.update_self, Option.mem_def, Option.some.injEq] at hb
      rw [hb]
    · simp only [CPUState.cacheTb, Function.update_of_ne hi] at hb
      exact h.hashed i b hb
  · have hold := h.entries mmuIdx i page hpage
    refine ⟨hold.index, hold.entry.imp_right fun ⟨hmatches, hlarge⟩ ↦ ⟨hmatches, fun hne ↦ ?_⟩⟩
    exact ⟨(hlarge hne).mask, (hlarge hne).addr⟩

theorem Kept.step (h : s.Kept pc) (c : Call τ) : ∃ t, s.step pc c = .ok (t, ()) ∧ t.Kept pc := by
  cases c with
  | setPage host page paddr prot mmuIdx => exact h.setPage host page paddr prot mmuIdx
  | flush => exact ⟨_, rfl, h.tlbFlush⟩
  | flushPage addr => exact ⟨_, rfl, (h.flushPage addr).1⟩
  | cacheTb tb => exact ⟨_, rfl, h.cacheTb tb⟩

theorem Kept.exec (h : s.Kept pc) (cs : List (Call τ)) :
    ∃ t os, exec (Session.step pc) s cs = .ok (t, os) ∧ t.Kept pc := by
  induction cs generalizing s with
  | nil => exact ⟨s, [], rfl, h⟩
  | cons c cs ih =>
    obtain ⟨t, hstep, ht⟩ := h.step c
    obtain ⟨u, os, hexec, hu⟩ := ih ht
    exact ⟨u, () :: os, exec_cons hstep hexec, hu⟩

end Session

/-- Every run completes; directly after a flush of a page, what was set for a page of any size
with the address in it is gone, and so are the blocks that start in the page or in the one
before; and the loop that widens the mask ends, whatever it starts with. -/
theorem flushPage_invalidates (pc : τ → Addr) (env : CPUState τ) (cs : List (Call τ)) :
    (∃ s os, exec (Session.step pc) (Session.reset env) cs = .ok (s, os)) ∧
      (∀ pre addr s t o, pre ++ [.flushPage addr] <+: cs → Run (Session.step pc) (Session.reset env) pre s →
        s.step pc (.flushPage addr) = .ok (t, o) → t.Invalidated pc addr) ∧
      ∀ diff mask, ∃ r, Loop.Ends (widenBody diff) mask r := by
  have hreset : (Session.reset env).Kept pc := by
    apply Session.kept_tlbFlush
    intro mmuIdx i page hpage
    cases hpage
  refine ⟨?_, ?_, ?_⟩
  · obtain ⟨s, os, hexec, -⟩ := hreset.exec cs
    exact ⟨s, os, hexec⟩
  · intro pre addr s t o _ hrun hstep
    have hs : s.Kept pc := by
      apply hrun.invariant hreset
      intro s c t o _ hs hstep
      obtain ⟨t', hstep', ht⟩ := hs.step c
      cases hstep'.symm.trans hstep
      exact ht
    cases hstep
    exact (hs.flushPage addr).2
  · intro diff mask
    have hall : mask <<< 32 = 0 := BitVec.shiftLeft_eq_zero (Nat.le_refl 32)
    obtain ⟨n, hrun, -⟩ := run_widenBody hall
    exact ⟨_, _, hrun⟩

end IDeviceEmulator.Exec.Tlb
