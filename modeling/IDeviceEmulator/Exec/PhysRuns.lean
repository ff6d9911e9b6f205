import IDeviceEmulator.Exec.PhysRegister

namespace IDeviceEmulator.Exec.Phys

open Machine Function

section Congruence

variable {a b : Nat} (h : a % pageSize = b % pageSize)
include h

-- all that is asked of a `phys_offset`, but the page of its block, is in its low bits

theorem ioIndex_congr : ioIndex a = ioIndex b := by
  simp only [ioIndex, pageSize, ioMemNbEntries] at h ⊢
  omega

theorem isIo_congr (write : Bool) : isIo write a = isIo write b := by
  have hpage : a % 1024 = b % 1024 := h
  have hromd : a % 2 = b % 2 := by omega
  apply Bool.eq_iff_iff.mpr
  cases write with
  | true => rw [isIo_true_iff, isIo_true_iff, hpage]
  | false => rw [isIo_false_iff, isIo_false_iff, hpage, hromd]

theorem isMemory_congr : isMemory a = isMemory b := by
  apply Bool.eq_iff_iff.mpr
  rw [isMemory_iff, isMemory_iff, isIo_congr h]

end Congruence

/-- What the loop needs to know of the bytes of a page. -/
structure PageBytes (r : Region) (k first last : Nat) (needSubpage : Bool) : Prop where
  check : checkSubpage (r.startAddr + k * pageSize) r.startAddr r.size = (first, last, needSubpage)
  firstLt : first < pageSize
  lastLt : last < pageSize
  whole : needSubpage = false → first = 0 ∧ last = pageSize - 1
  final : needSubpage = true → k + 1 = r.pages
  memory : isMemory r.physOffset = true → needSubpage = false
  covers : ∀ off < pageSize, (first ≤ off ∧ off ≤ last) ↔ r.Covers ((r.startAddr / pageSize + k) * pageSize + off)

section Region

variable {m : PhysMap} {r : Region} {k : Nat} (hproper : r.Proper m)
  (hsmall : (r.size + pageSize - 1) / pageSize < 2 ^ 22)
include hproper hsmall

theorem pages_eq : r.pages = (r.size + 1023) / 1024 := by
  obtain ⟨⟨-, hend, -⟩, -⟩ := hproper
  simp only [pageSize] at hsmall
  simp only [Region.pages, pageSize]
  omega

theorem pageBytes (hk : k < r.pages) : ∃ first last needSubpage, PageBytes r k first last needSubpage := by
  have hpages := pages_eq hproper hsmall
  obtain ⟨⟨-, hend, -⟩, hstart, hmemory, -⟩ := hproper
  simp only [pageSize] at hstart hmemory
  rw [hpages] at hk
  have hfrom : r.startAddr + k * 1024 > r.startAddr ↔ 0 < k := by omega
  have hleft : (2 ^ 64 + (r.startAddr + r.size) - (r.startAddr + k * 1024)) % 2 ^ 64 = r.size - k * 1024 := by omega
  have hto : (2 ^ 64 + (r.startAddr + r.size) - 1) % 2 ^ 64 = r.startAddr + r.size - 1 := by omega
  refine ⟨if 0 < k then 0 else r.startAddr % 1024,
    if r.size - k * 1024 ≥ 1024 then 1023 else (r.startAddr + r.size - 1) % 1024,
    decide (¬ 0 < k ∧ r.startAddr % 1024 > 0) ||
      decide (¬ r.size - k * 1024 ≥ 1024 ∧ (r.startAddr + r.size - 1) % 1024 < 1023), ?_, ?_, ?_, ?_, ?_, ?_, ?_⟩
  · simp only [checkSubpage, pageSize, hfrom, hleft, hto]
    by_cases hk0 : 0 < k
    · by_cases hwhole : r.size - k * 1024 ≥ 1024
      · simp [hk0, hwhole]
      · simp [hk0, hwhole]
    · by_cases hwhole : r.size - k * 1024 ≥ 1024
      · simp [hk0, hwhole]
      · simp [hk0, hwhole]
  · simp only [pageSize]
    split <;> omega
  · simp only [pageSize]
    split <;> omega
  · intro hneed
    rw [Bool.or_eq_false_iff, decide_eq_false_iff_not, decide_eq_false_iff_not] at hneed
    simp only [pageSize]
    constructor
    · split <;> omega
    · split <;> omega
  · intro hneed
    rw [Bool.or_eq_true, decide_eq_true_iff, decide_eq_true_iff] at hneed
    rw [hpages]
    omega
  · intro hmem
    obtain ⟨hstart0, hsize0⟩ := hmemory hmem
    rw [Bool.or_eq_false_iff, decide_eq_false_iff_not, decide_eq_false_iff_not]
    constructor
    · omega
    · omega
  · intro off hoff
    simp only [pageSize] at hoff
    simp only [Region.Covers, pageSize]
    constructor
    · rintro ⟨hlow, hhigh⟩
      split at hlow <;> split at hhigh <;> constructor <;> omega
    · rintro ⟨hlow, hhigh⟩
      constructor
      · split <;> omega
      · split <;> omega

/-- The pages of the region are those that its addresses lie in. -/
theorem index_of_covers {j off : Nat} (hoff : off < pageSize) (h : r.Covers (j * pageSize + off)) :
    r.startAddr / pageSize ≤ j ∧ j < r.startAddr / pageSize + r.pages := by
  rw [pages_eq hproper hsmall]
  obtain ⟨⟨-, hend, -⟩, hstart, -⟩ := hproper
  obtain ⟨hlow, hhigh⟩ := h
  simp only [pageSize] at hoff hlow hhigh hstart ⊢
  omega

end Region

/-- The loop over the pages of a region, when `k` of them are registered. -/
structure Registered (m : PhysMap) (r : Region) (k : Nat) (c : Cursor) : Prop where
  wellFormed : WellFormed c.map
  addr : c.addr = (r.startAddr + k * pageSize) % 2 ^ 32
  physOffset : c.physOffset = if isMemory r.physOffset then (r.physOffset + k * pageSize) % 2 ^ 64 else r.physOffset
  regionOffset : c.regionOffset = (r.regionBase + k * pageSize) % 2 ^ 64
  used : ∀ n, m.ioMemUsed n = true →
    c.map.ioMemUsed n = true ∧ (m.ioMemSubpage n = none → c.map.ioMemSubpage n = none)
  free : k < r.pages → c.map.ioMemUsed = m.ioMemUsed
  ahead : ∀ j < 2 ^ 22, r.startAddr / pageSize + k ≤ j → c.map.physPageFind j = m.physPageFind j ∨
    (m.physPageFind j = none ∧ ∃ regionOffset, c.map.physPageFind j = some ⟨ioMemUnassigned, regionOffset⟩)
  behind : 0 < k → (c.map.physPageFind (r.startAddr / pageSize + k - 1)).isSome
  access : ∀ j < 2 ^ 22, ∀ write, ∀ off < pageSize,
    pageAccess c.map.ioMemSubpage j (c.map.physPageFind j) write off =
      if j < r.startAddr / pageSize + k ∧ r.Covers (j * pageSize + off) then r.target write (j * pageSize + off)
      else pageAccess m.ioMemSubpage j (m.physPageFind j) write off

section Loop

variable {m : PhysMap} {r : Region} {k : Nat} {c : Cursor} (hproper : r.Proper m) (hcareful : r.Careful m)

theorem regionBase_lt (hregion : r.regionOffset < 2 ^ 64) (hstart : r.startAddr < 2 ^ 64) : r.regionBase < 2 ^ 64 := by
  unfold Region.regionBase maskPage
  simp only [pageSize]
  split <;> omega

include hproper

theorem registered_start (hm : WellFormed m) : Registered m r 0 ⟨m, r.startAddr, r.physOffset, r.regionBase⟩ := by
  obtain ⟨⟨hstart, -, hphys, hregion⟩, -⟩ := hproper
  have hbase : r.regionBase < 2 ^ 64 := regionBase_lt hregion (by omega)
  refine ⟨hm, ?_, ?_, ?_, fun n hn ↦ ⟨hn, id⟩, fun _ ↦ rfl, fun j _ _ ↦ .inl rfl, fun h ↦ absurd h (Nat.lt_irrefl 0),
    ?_⟩
  · rw [Nat.zero_mul, Nat.add_zero, Nat.mod_eq_of_lt hstart]
  · rw [Nat.zero_mul, Nat.add_zero, Nat.mod_eq_of_lt hphys, ite_self]
  · rw [Nat.zero_mul, Nat.add_zero, Nat.mod_eq_of_lt hbase]
  · intro j hj write off hoff
    have hbelow : ¬ (j < r.startAddr / pageSize + 0 ∧ r.Covers (j * pageSize + off)) := by
      rintro ⟨hlt, hlow, -⟩
      simp only [pageSize] at hoff hlt hlow
      omega
    rw [if_neg hbelow]

omit hproper in
theorem Registered.low_bits (h : Registered m r k c) : c.physOffset % pageSize = r.physOffset % pageSize := by
  rw [h.physOffset]
  simp only [pageSize]
  split <;> omega

omit hproper in
/-- A page that has no table follows one that has, unless it is the first of a table. -/
theorem first_of_table {i : Nat} (hbehind : (m.physPageFind (i - 1)).isSome) (hnone : m.physPageFind i = none) :
    i % l2Size = 0 := by
  by_contra hne
  have hsame : (i - 1) / l2Size = i / l2Size := by
    simp only [l2Size] at hne ⊢
    omega
  unfold PhysMap.physPageFind at hbehind hnone
  rw [hsame, Option.map_eq_none_iff.mp hnone] at hbehind
  cases hbehind

theorem Registered.index (hsmall : (r.size + pageSize - 1) / pageSize < 2 ^ 22) (h : Registered m r k c)
    (hk : k < r.pages) :
    c.addr = r.startAddr + k * pageSize ∧ c.addr / pageSize = r.startAddr / pageSize + k ∧
      c.addr / pageSize < 2 ^ 22 := by
  rw [pages_eq hproper hsmall] at hk
  obtain ⟨⟨-, hend, -⟩, hstart, -⟩ := hproper
  have haddr := h.addr
  simp only [pageSize] at haddr hstart ⊢
  omega

/-- An access to a byte of page `k` where the loop stores the page is one to the region. -/
theorem Registered.target (hsmall : (r.size + pageSize - 1) / pageSize < 2 ^ 22) (h : Registered m r k c)
    (hk : k < r.pages)
    (write : Bool) {off : Nat} (hoff : off < pageSize) :
    plainAccess ⟨c.physOffset, c.regionOffset⟩ write off = r.target write (c.addr / pageSize * pageSize + off) := by
  obtain ⟨-, hindex, hlt⟩ := h.index hproper hsmall hk
  have hlow := h.low_bits
  have hdistance : c.addr / pageSize * pageSize + off - maskPage r.startAddr = k * pageSize + off := by
    rw [hindex]
    simp only [maskPage, pageSize]
    omega
  unfold plainAccess Region.target
  rw [hdistance]
  dsimp only
  rw [isIo_congr hlow write, ioIndex_congr hlow, h.regionOffset]
  cases hio : isIo write r.physOffset with
  | true =>
    have haddr : (off + (r.regionBase + k * pageSize) % 2 ^ 64) % 2 ^ 32 =
        (k * pageSize + off + r.regionBase) % 2 ^ 32 := by
      omega
    rw [if_pos rfl, if_pos rfl, haddr]
  | false =>
    have hmem : isMemory r.physOffset = true := by
      apply isMemory_iff.mpr
      by_contra hread
      cases hio.symm.trans (isIo_of_false (Bool.not_eq_false _ ▸ hread) write)
    have hoffset := h.physOffset
    rw [hmem, if_pos rfl] at hoffset
    have hram : maskPage c.physOffset + off = (maskPage r.physOffset + (k * pageSize + off)) % 2 ^ 64 := by
      rw [hoffset]
      simp only [maskPage, pageSize] at hoff ⊢
      omega
    rw [if_neg Bool.false_ne_true, if_neg Bool.false_ne_true, hram]

include hcareful

/-- What was asked of the pages before the loop still holds where it has come to. -/
theorem Registered.ready (h : Registered m r k c) (hk : k < r.pages) {first last : Nat} {needSubpage : Bool}
    (hbytes : PageBytes r k first last needSubpage) : c.Ready needSubpage := by
  obtain ⟨hsmall, hpages⟩ := hcareful
  obtain ⟨-, hindex, hlt⟩ := h.index hproper hsmall hk
  have hpage := hpages k hk
  have hsplits : r.splits k = needSubpage := by
    unfold Region.splits
    rw [hbytes.check]
  have hfree : c.map.getFreeIoMemIdx = m.getFreeIoMemIdx := by
    unfold PhysMap.getFreeIoMemIdx
    rw [h.free hk]
  have hahead := h.ahead (c.addr / pageSize) hlt (Nat.le_of_eq hindex.symm)
  unfold Region.CarefulPage at hpage
  rw [← hindex, hsplits, ← hfree] at hpage
  unfold Cursor.Ready
  rcases hahead with hsame | ⟨hnone, regionOffset, hnew⟩
  · rw [hsame]
    cases hq : m.physPageFind (c.addr / pageSize) with
    | none =>
      rw [hq] at hpage hsame
      refine ⟨?_, hpage.2⟩
      by_cases hk0 : k = 0
      · rw [hindex, hk0]
        exact hpage.1 hk0
      · have hbehind := h.behind (by omega)
        rw [← hindex] at hbehind
        exact first_of_table hbehind hsame
    | some p =>
      rw [hq] at hpage
      dsimp only at hpage ⊢
      have hlow := h.low_bits
      have hregion : c.regionOffset % 2 ^ 32 = (r.regionBase + k * pageSize) % 2 ^ 32 := by
        have hoffset := h.regionOffset
        omega
      rw [hlow, hregion]
      exact hpage
  · rw [hnew]
    rw [hnone] at hpage
    dsimp only
    rw [if_pos rfl]
    exact hpage.2

/-- The turn for page `k`. -/
theorem registered_step (h : Registered m r k c) (hk : k < r.pages) :
    Registered m r (k + 1) (registerPage r.startAddr r.size c) := by
  obtain ⟨first, last, needSubpage, hbytes⟩ := pageBytes hproper hcareful.1 hk
  have hready := h.ready hproper hcareful hk hbytes
  have htarget := h.target hproper hcareful.1 hk
  obtain ⟨haddr, hindex, hlt⟩ := h.index hproper hcareful.1 hk
  obtain ⟨⟨-, hend, hphys, -⟩, -, -, hbits, hused, hnone⟩ := hproper
  have hlow := h.low_bits
  obtain ⟨hused', hnone'⟩ := h.used _ hused
  have hcheck := hbytes.check
  rw [← haddr] at hcheck
  have hmemory : isMemory c.physOffset = true → needSubpage = false := by
    rw [isMemory_congr hlow]
    exact hbytes.memory
  have hplain : isSubpage c.physOffset = false := by
    apply decide_eq_false
    simp only [pageSize] at hlow
    omega
  have hunassigned : c.physOffset = ioMemUnassigned → c.regionOffset % 2 ^ 32 = c.addr / pageSize * pageSize := by
    intro h16
    have hio : isMemory r.physOffset = false := by
      rw [← isMemory_congr hlow, h16]
      decide
    have hphys16 := h.physOffset
    rw [hio, if_neg Bool.false_ne_true, h16] at hphys16
    rw [h.regionOffset, hindex, Region.regionBase, if_pos hphys16.symm]
    simp only [maskPage, pageSize] at hindex hlt ⊢
    omega
  have hturned := turned_registerPage h.wellFormed hlt hcheck hbytes.firstLt hbytes.lastLt hbytes.whole hmemory hplain
    (ioIndex_congr hlow ▸ hused') (ioIndex_congr hlow ▸ hnone' hnone) hready hunassigned
  refine ⟨hturned.wellFormed, ?_, ?_, ?_, ?_, ?_, ?_, ?_, ?_⟩
  · change (c.addr + pageSize) % 2 ^ 32 = _
    rw [haddr, Nat.succ_mul, Nat.add_assoc]
  · rw [registerPage_physOffset hcheck hmemory, nextPhysOffset, isMemory_congr hlow, h.physOffset]
    simp only [pageSize]
    split <;> omega
  · change (c.regionOffset + pageSize) % 2 ^ 64 = _
    rw [h.regionOffset]
    simp only [pageSize]
    omega
  · intro n hn
    obtain ⟨hn', hkeep⟩ := h.used n hn
    obtain ⟨hn'', hkeep'⟩ := hturned.used n hn'
    exact ⟨hn'', fun hnone ↦ hkeep' (hkeep hnone)⟩
  · intro hmore
    have hneed : needSubpage = false := by
      by_contra hneed
      have hfinal := hbytes.final (Bool.not_eq_false _ ▸ hneed)
      omega
    rw [registerPage_used hcheck hneed, h.free hk]
  · intro j hj hjk
    have hahead := h.ahead j hj (by omega)
    rcases hturned.kept j hj (by omega) with hsame | ⟨hnone, hnew⟩
    · rw [hsame]
      exact hahead
    · rcases hahead with hsame | ⟨-, regionOffset, hsome⟩
      · rw [hsame] at hnone
        exact .inr ⟨hnone, hnew⟩
      · cases hnone.symm.trans hsome
  · intro _
    have hfound := hturned.found
    rw [hindex] at hfound
    exact hfound
  · intro j hj write off hoff
    have hold := h.access j hj write off hoff
    by_cases hji : j = c.addr / pageSize
    · subst hji
      have hcovers := hbytes.covers off hoff
      rw [← hindex] at hcovers
      rw [hturned.here write off hoff, Cursor.pageAccess, hold]
      by_cases hcov : r.Covers (c.addr / pageSize * pageSize + off)
      · have hbelow : c.addr / pageSize < r.startAddr / pageSize + (k + 1) := by omega
        rw [if_pos (hcovers.mpr hcov), if_pos ⟨hbelow, hcov⟩]
        exact htarget write hoff
      · rw [if_neg (fun hin ↦ hcov (hcovers.mp hin)), if_neg (fun hin ↦ hcov hin.2), if_neg (fun hin ↦ hcov hin.2)]
    · rw [hturned.there j hj hji write off hoff, hold]
      have hbelow : j < r.startAddr / pageSize + (k + 1) ↔ j < r.startAddr / pageSize + k := by omega
      simp only [hbelow]

theorem registered_pages (n : Nat) (h : Registered m r k c) (hn : k + n = r.pages) :
    Registered m r r.pages (registerPages r.startAddr r.size n c) := by
  induction n generalizing k c with
  | zero =>
    obtain rfl : k = r.pages := hn
    exact h
  | succ n ih => exact ih (registered_step hproper hcareful h (by omega)) (by omega)

/-- After a call, the addresses of the region lead to it, and others to where they led before. -/
theorem access_register (hm : WellFormed m) :
    WellFormed (cpuRegisterPhysicalMemoryOffset m r) ∧
      ∀ write, ∀ addr < 2 ^ 32, (cpuRegisterPhysicalMemoryOffset m r).access write addr =
        if r.Covers addr then r.target write addr else m.access write addr := by
  have hall := registered_pages hproper hcareful r.pages (registered_start hproper hm) (Nat.zero_add _)
  refine ⟨hall.wellFormed, ?_⟩
  intro write addr haddr
  have hj : addr / pageSize < 2 ^ 22 := by
    simp only [pageSize]
    omega
  have hoff : addr % pageSize < pageSize := Nat.mod_lt _ (by decide)
  have haccess := hall.access (addr / pageSize) hj write (addr % pageSize) hoff
  have hpages := index_of_covers (j := addr / pageSize) hproper hcareful.1 hoff
  rw [Nat.div_add_mod'] at haccess hpages
  have hcovers : (addr / pageSize < r.startAddr / pageSize + r.pages ∧ r.Covers addr) ↔ r.Covers addr :=
    ⟨fun h ↦ h.2, fun h ↦ ⟨(hpages h).2, h⟩⟩
  rw [hm.access_eq haddr write, cpuRegisterPhysicalMemoryOffset, hall.wellFormed.access_eq haddr write, haccess]
  exact if_congr hcovers rfl rfl

end Loop

/-- What holds in every state of a careful run. -/
structure System.Kept (s : System) : Prop where
  wellFormed : WellFormed s.map
  routes : s.Routes

theorem System.kept_start : System.Kept .start := by
  have hempty : ∀ i, PhysMap.physPageFind System.start.map i = none := fun _ ↦ rfl
  constructor
  · refine ⟨?_, ?_, ?_, ?_, ?_, ?_⟩
    · intro i _ p hp
      cases (hempty i).symm.trans hp
    · intro i _ p hp
      cases (hempty i).symm.trans hp
    · intro i _ j _ p q hp
      cases (hempty i).symm.trans hp
    · intro i _ p hp
      cases (hempty i).symm.trans hp
    · intro n mmio h
      cases h
    · intro n hn
      exact ⟨decide_eq_true (by omega), rfl⟩
  · intro write addr _
    rfl

theorem System.Kept.next {s t : System} {q : Request} {o : Option Int} (hs : s.Kept) (hproper : s.Proper q)
    (hcareful : s.Careful q) (h : s.step q = .ok (t, o)) : t.Kept := by
  cases q with
  | physical r =>
    cases h
    obtain ⟨hm, haccess⟩ := access_register hproper hcareful hs.wellFormed
    refine ⟨hm, ?_⟩
    intro write addr haddr
    rw [haccess write addr haddr, hs.routes write addr haddr]
    unfold route
    rw [List.find?_cons]
    by_cases hcov : r.Covers addr
    · rw [if_pos hcov, decide_eq_true hcov]
    · rw [if_neg hcov, decide_eq_false hcov]
  | io =>
    unfold System.step at h
    cases hfree : s.map.getFreeIoMemIdx with
    | none =>
      rw [hfree] at h
      cases h
      exact hs
    | some i =>
      rw [hfree] at h
      cases h
      obtain ⟨-, hunused⟩ := getFreeIoMemIdx_some hfree
      have hused : ∀ n, s.map.ioMemUsed n = true → update s.map.ioMemUsed i true n = true := by
        intro n hn
        by_cases hni : n = i
        · rw [hni, update_self]
        · rw [update_of_ne hni, hn]
      have hm := hs.wellFormed
      refine ⟨⟨hm.split, ?_, hm.owner, hm.unassigned, ?_, ?_⟩, hs.routes⟩
      · intro j hj p hp hsub
        obtain ⟨hp', hnone⟩ := hm.plain j hj p hp hsub
        exact ⟨hused _ hp', hnone⟩
      · intro n mmio hn
        exact hused n (hm.used n mmio hn)
      · intro n hn
        obtain ⟨hn', hnone⟩ := hm.fixed n hn
        exact ⟨hused n hn', hnone⟩

/-- In a run of careful calls, an access reaches the region of the latest call that covers the
address, at its offset in that region, and without such a call the handler of what is not
assigned with the address. -/
theorem phys_routes (cs : List Request) (hproper : Attempts System.step System.Proper .start cs)
    (h : Attempts System.step System.Careful .start cs) : Throughout System.step System.Routes .start cs := by
  have hboth : Attempts System.step (fun s q ↦ s.Proper q ∧ s.Careful q) .start cs :=
    fun pre q s hp hr ↦ ⟨hproper pre q s hp hr, h pre q s hp hr⟩
  have hkept : Throughout System.step System.Kept .start cs := by
    apply throughout_of_attempts System.kept_start _ hboth
    intro s q t o _ hs hq hstep
    exact hs.next hq.1 hq.2 hstep
  intro pre t hp hr
  exact (hkept pre t hp hr).routes

/-- Two handlers, memory, a page that is split between the handlers, and a page that is taken
back from the memory. -/
def splitPageCalls : List Request :=
  [.io, .io, .physical ⟨0, 4096, 0, 0⟩, .physical ⟨1048576, 64, 48, 0⟩, .physical ⟨1048704, 896, 56, 2048⟩,
    .physical ⟨0, 1024, 16, 0⟩]

theorem phys_routes_split : Throughout System.step System.Routes .start splitPageCalls :=
  phys_routes splitPageCalls (by decide +kernel) (by decide +kernel)

/-- The second page of a region is registered again as the first page of one. -/
def secondPageAgain : List Request := [.io, .physical ⟨0, 2048, 48, 0⟩, .physical ⟨1024, 1024, 48, 0⟩]

theorem phys_routes_fails : Attempts System.step System.Proper .start secondPageAgain ∧
    ¬ Throughout System.step System.Routes .start secondPageAgain := by
  refine ⟨by decide +kernel, fun h ↦ ?_⟩
  have haddr : Throughout System.step (fun s ↦ s.map.access false 1024 = route s.regions false 1024) .start
      secondPageAgain :=
    fun pre t hp hr ↦ h pre t hp hr false 1024 (by decide)
  exact absurd haddr (by decide +kernel)

end IDeviceEmulator.Exec.Phys
