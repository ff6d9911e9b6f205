import IDeviceEmulator.Exec.PhysRouting

namespace IDeviceEmulator.Exec.Phys

open Machine Function

section Split

variable {m : PhysMap} {i : Nat} {c : Cursor} {first last : Nat}

/-- The bytes that are registered go to the new handler, the others where they went. -/
theorem subpageRegister_access (mmio : Subpage) (hfirst : first < pageSize) (hlast : last < pageSize) {p : PhysPageDesc}
    (hio : isIo false p.physOffset = true) (write : Bool) (off : Nat) :
    (subpageRegister mmio first last p.physOffset p.regionOffset).access off =
      if first ≤ off ∧ off ≤ last then plainAccess p write off else mmio.access off := by
  have hram : ¬ p.physOffset % pageSize = ioMemRam := by
    have h := (isIo_false_iff.mp hio).1
    simp only [pageSize, ioMemRam]
    omega
  have hbounds : ¬ (first ≥ pageSize ∨ last ≥ pageSize) := by omega
  unfold subpageRegister Subpage.access plainAccess
  rw [if_neg hbounds, isIo_of_false hio write]
  dsimp only
  rw [if_neg hram]
  split <;> rfl

theorem getFreeIoMemIdx_some {n : Nat} (h : m.getFreeIoMemIdx = some n) :
    n < ioMemNbEntries ∧ m.ioMemUsed n = false := by
  constructor
  · exact List.mem_range.mp (List.mem_of_find?_eq_some h)
  · simpa using List.find?_some h

theorem Turned.congr {m' : PhysMap} {access access' : Bool → Nat → Access} (h : Turned m m' i access)
    (heq : ∀ write, ∀ off < pageSize, access write off = access' write off) : Turned m m' i access' := by
  refine ⟨h.wellFormed, h.used, ?_, h.there, h.found, h.kept⟩
  intro write off hoff
  rw [h.here write off hoff]
  exact heq write off hoff

variable (hm : WellFormed m) (hi : i < 2 ^ 22) (hsome : (m.physPageFind i).isSome)
  (hfirst : first < pageSize) (hlast : last < pageSize) (hio : isIo false c.physOffset = true)
include hm hi hsome hfirst hlast hio

theorem turned_splitPage {p : PhysPageDesc} (hp : isIo false p.physOffset = true) (hfree : m.getFreeIoMemIdx.isSome) :
    Turned m (splitPage m i p.physOffset p.regionOffset first last c) i fun write off ↦
      if first ≤ off ∧ off ≤ last then plainAccess ⟨c.physOffset, c.regionOffset⟩ write off
      else plainAccess p write off := by
  obtain ⟨n, hn⟩ := Option.isSome_iff_exists.mp hfree
  obtain ⟨hn128, hunused⟩ := getFreeIoMemIdx_some hn
  have hown : ∀ j < 2 ^ 22, j ≠ i → ∀ q, m.physPageFind j = some q → q.physOffset ≠ n * 8 + ioMemSubpage := by
    intro j hj _ q hq heq
    have hsub : isSubpage q.physOffset = true := by
      rw [heq]
      exact isSubpage_split n
    obtain ⟨k, mmio, rfl, hk, hmmio⟩ := hm.split j hj q hq hsub
    have hkn : k = n := by
      simp only [ioMemSubpage] at heq
      omega
    subst hkn
    cases hunused.symm.trans (hm.used k mmio hmmio)
  have hturned := turned_subpage hm hi hsome hn128
    (subpageRegister (subpageRegister ⟨fun _ ↦ 0, fun _ ↦ 0⟩ 0 (pageSize - 1) p.physOffset p.regionOffset) first last
      c.physOffset c.regionOffset) (fun h ↦ absurd (hunused.symm.trans h) (by decide)) hown
  unfold splitPage
  rw [hn]
  apply hturned.congr
  intro write off hoff
  have hall : 0 ≤ off ∧ off ≤ pageSize - 1 := ⟨Nat.zero_le _, by omega⟩
  have hnew := subpageRegister_access
    (subpageRegister ⟨fun _ ↦ 0, fun _ ↦ 0⟩ 0 (pageSize - 1) p.physOffset p.regionOffset) hfirst hlast
    (p := ⟨c.physOffset, c.regionOffset⟩) hio write off
  have hold := subpageRegister_access ⟨fun _ ↦ 0, fun _ ↦ 0⟩ (show 0 < pageSize by decide)
    (show pageSize - 1 < pageSize by decide) hp write off
  rw [hnew, hold, if_pos hall]

theorem turned_extendSubpage {p : PhysPageDesc} (hp : m.physPageFind i = some p)
    (hsub : isSubpage p.physOffset = true) :
    Turned m (extendSubpage m i p.physOffset first last c) i fun write off ↦
      if first ≤ off ∧ off ≤ last then plainAccess ⟨c.physOffset, c.regionOffset⟩ write off
      else pageAccess m.ioMemSubpage i (m.physPageFind i) write off := by
  obtain ⟨n, mmio, rfl, hn, hmmio⟩ := hm.split i hi p hp hsub
  have hown : ∀ j < 2 ^ 22, j ≠ i → ∀ q, m.physPageFind j = some q → q.physOffset ≠ n * 8 + ioMemSubpage := by
    intro j hj hji q hq heq
    exact hji (hm.owner i hi j hj _ q hp hq hsub heq.symm).symm
  have hturned := turned_subpage hm hi hsome hn (subpageRegister mmio first last c.physOffset c.regionOffset)
    (fun _ hnone ↦ by cases hmmio.symm.trans hnone) hown
  have hused : update m.ioMemUsed n true = m.ioMemUsed := update_eq_self_iff.mpr (hm.used n mmio hmmio).symm
  rw [hused] at hturned
  unfold extendSubpage
  dsimp only
  rw [ioIndex_split hn, hmmio]
  apply hturned.congr
  intro write off _
  have hnew := subpageRegister_access mmio hfirst hlast (p := ⟨c.physOffset, c.regionOffset⟩) hio write off
  rw [hnew, hp]
  simp only [pageAccess, isSubpage_split, if_true, ioIndex_split hn, hmmio]

end Split

/-- The careful page of a region, where the loop has come to it. -/
def Cursor.Ready (c : Cursor) (needSubpage : Bool) : Prop :=
  match c.map.physPageFind (c.addr / pageSize) with
  | none => c.addr / pageSize % l2Size = 0 ∧ (needSubpage → c.map.getFreeIoMemIdx.isSome)
  | some p =>
    if p.physOffset = ioMemUnassigned then needSubpage → c.map.getFreeIoMemIdx.isSome
    else if needSubpage then
      isSubpage p.physOffset ∨ (isIo false p.physOffset ∧ c.map.getFreeIoMemIdx.isSome)
    else c.physOffset % pageSize = ioMemRam ∨ p.regionOffset % 2 ^ 32 = c.regionOffset % 2 ^ 32

section Page

variable {c : Cursor} {startAddr size first last : Nat} {needSubpage : Bool}
  (hm : WellFormed c.map) (hi : c.addr / pageSize < 2 ^ 22)
  (hcheck : checkSubpage c.addr startAddr size = (first, last, needSubpage))
  (hfirst : first < pageSize) (hlast : last < pageSize)
  (hwhole : needSubpage = false → first = 0 ∧ last = pageSize - 1)
  (hmemory : isMemory c.physOffset = true → needSubpage = false)
  (hplain : isSubpage c.physOffset = false) (hused : c.map.ioMemUsed (ioIndex c.physOffset) = true)
  (hnone : c.map.ioMemSubpage (ioIndex c.physOffset) = none)
  (hunassigned : c.physOffset = ioMemUnassigned → c.regionOffset % 2 ^ 32 = c.addr / pageSize * pageSize)
include hm hi hcheck hfirst hlast hwhole hmemory hplain hused hnone

omit hm hi hcheck hfirst hlast hplain hused hnone hwhole in
theorem isIo_of_needSubpage (hneed : needSubpage = true) : isIo false c.physOffset = true := by
  by_contra hio
  have h := hmemory (isMemory_iff.mpr (Bool.eq_false_iff.mpr hio))
  rw [hneed] at h
  cases h

omit hm hi hfirst hlast hplain hused hnone hwhole hmemory in
theorem registerAssigned_eq (p : PhysPageDesc) :
    registerAssigned c p startAddr size =
      if needSubpage then
        (if isSubpage p.physOffset then extendSubpage c.map (c.addr / pageSize) p.physOffset first last c
          else splitPage c.map (c.addr / pageSize) p.physOffset p.regionOffset first last c, c.physOffset)
      else
        (c.map.setPage (c.addr / pageSize) ⟨c.physOffset, p.regionOffset⟩, nextPhysOffset c.physOffset) := by
  rw [registerAssigned, hcheck]

/-- What is to become of the page. -/
abbrev Cursor.pageAccess (c : Cursor) (first last : Nat) (write : Bool) (off : Nat) : Access :=
  if first ≤ off ∧ off ≤ last then plainAccess ⟨c.physOffset, c.regionOffset⟩ write off
  else Phys.pageAccess c.map.ioMemSubpage (c.addr / pageSize) (c.map.physPageFind (c.addr / pageSize)) write off

theorem turned_registerAssigned {p : PhysPageDesc} (hp : c.map.physPageFind (c.addr / pageSize) = some p)
    (hassigned : p.physOffset ≠ ioMemUnassigned) (hready : c.Ready needSubpage)
    (hunassigned : c.physOffset = ioMemUnassigned → c.regionOffset % 2 ^ 32 = c.addr / pageSize * pageSize) :
    Turned c.map (registerAssigned c p startAddr size).1 (c.addr / pageSize) (c.pageAccess first last) := by
  have hsome : (c.map.physPageFind (c.addr / pageSize)).isSome := by
    rw [hp]
    rfl
  unfold Cursor.Ready at hready
  rw [hp] at hready
  dsimp only at hready
  rw [if_neg hassigned] at hready
  rw [registerAssigned_eq hcheck]
  cases hneed : needSubpage with
  | true =>
    have hio := isIo_of_needSubpage hmemory hneed
    rw [hneed, if_pos rfl] at hready
    rw [if_pos rfl]
    cases hsub : isSubpage p.physOffset with
    | true =>
      rw [if_pos rfl]
      exact turned_extendSubpage hm hi hsome hfirst hlast hio hp hsub
    | false =>
      rw [if_neg Bool.false_ne_true]
      rw [hsub] at hready
      obtain ⟨hpio, hfree⟩ := hready.resolve_left Bool.false_ne_true
      apply (turned_splitPage hm hi hsome hfirst hlast hio hpio hfree).congr
      intro write off _
      simp only [Cursor.pageAccess, Phys.pageAccess, hp, hsub, Bool.false_eq_true, if_false]
  | false =>
    rw [hneed, if_neg Bool.false_ne_true] at hready
    rw [if_neg Bool.false_ne_true]
    obtain ⟨rfl, rfl⟩ := hwhole hneed
    have hbase : c.physOffset = ioMemUnassigned → p.regionOffset % 2 ^ 32 = c.addr / pageSize * pageSize := by
      intro h16
      rw [h16] at hready
      rw [hready.resolve_left (by decide)]
      exact hunassigned h16
    have hturned := turned_setPage hm hi hsome (p := ⟨c.physOffset, p.regionOffset⟩) hplain hused hnone hbase
    apply hturned.congr
    intro write off hoff
    have hall : 0 ≤ off ∧ off ≤ pageSize - 1 := ⟨Nat.zero_le _, by omega⟩
    rw [Cursor.pageAccess, if_pos hall]
    unfold plainAccess
    rcases hready with hram | hsame
    · cases hio : isIo write c.physOffset with
      | false => rfl
      | true =>
        exfalso
        cases write with
        | true => exact isIo_true_iff.mp hio hram
        | false =>
          have h := (isIo_false_iff.mp hio).1
          simp only [pageSize, ioMemRam] at hram
          omega
    · dsimp only
      rw [← Nat.add_mod_mod, hsame, Nat.add_mod_mod]

omit hm hi hfirst hlast hplain hused hnone hwhole hmemory in
theorem registerUnassigned_eq :
    registerUnassigned c startAddr size =
      if isMemory c.physOffset then
        ((c.map.physPageFindAlloc (c.addr / pageSize)).setPage (c.addr / pageSize) ⟨c.physOffset, c.regionOffset⟩,
          nextPhysOffset c.physOffset)
      else if needSubpage then
        (splitPage ((c.map.physPageFindAlloc (c.addr / pageSize)).setPage (c.addr / pageSize)
          ⟨c.physOffset, c.regionOffset⟩) (c.addr / pageSize) ioMemUnassigned (maskPage c.addr) first last c,
          c.physOffset)
      else
        ((c.map.physPageFindAlloc (c.addr / pageSize)).setPage (c.addr / pageSize) ⟨c.physOffset, c.regionOffset⟩,
          c.physOffset) := by
  rw [registerUnassigned, hcheck]

omit hcheck hfirst hlast hplain hused hnone hwhole hmemory in
theorem pageAccess_unassigned
    (hp : ∀ p, c.map.physPageFind (c.addr / pageSize) = some p → p.physOffset = ioMemUnassigned)
    (write : Bool) {off : Nat} (hoff : off < pageSize) :
    Phys.pageAccess c.map.ioMemSubpage (c.addr / pageSize) (c.map.physPageFind (c.addr / pageSize)) write off =
      plainAccess ⟨ioMemUnassigned, maskPage c.addr⟩ write off := by
  have hio : isIo write ioMemUnassigned = true := isIo_of_false (by decide) write
  cases hq : c.map.physPageFind (c.addr / pageSize) with
  | none =>
    have haddr : c.addr / pageSize * pageSize + off = (off + maskPage c.addr) % 2 ^ 32 := by
      simp only [maskPage, pageSize] at hoff hi ⊢
      omega
    simp only [Phys.pageAccess, plainAccess, hio, if_true, haddr]
  | some p =>
    have h16 := hp p hq
    have hbase : (off + p.regionOffset) % 2 ^ 32 = (off + maskPage c.addr) % 2 ^ 32 := by
      rw [← Nat.add_mod_mod, hm.unassigned _ hi p hq h16]
      rfl
    simp only [Phys.pageAccess, plainAccess, h16, isSubpage_unassigned, Bool.false_eq_true, if_false, hio, if_true,
      hbase]

omit hcheck hfirst hlast hplain hused hnone hwhole hmemory in
/-- The page has a table from here on, and nothing else is different. -/
theorem turned_physPageFindAlloc (hready : c.Ready needSubpage) :
    (c.map.physPageFindAlloc (c.addr / pageSize) = c.map ∧ (c.map.physPageFind (c.addr / pageSize)).isSome) ∨
      ∃ access, Turned c.map (c.map.physPageFindAlloc (c.addr / pageSize)) (c.addr / pageSize) access := by
  cases hq : c.map.physPageFind (c.addr / pageSize) with
  | none =>
    unfold Cursor.Ready at hready
    rw [hq] at hready
    exact .inr ⟨_, turned_alloc hm hi hq hready.1⟩
  | some p =>
    apply Or.inl
    constructor
    · unfold PhysMap.physPageFindAlloc
      cases htable : c.map.l1PhysMap (c.addr / pageSize / l2Size % l1Size) with
      | some pd => rfl
      | none =>
        unfold PhysMap.physPageFind at hq
        rw [htable] at hq
        cases hq
    · rfl

omit hcheck hfirst hlast hwhole hmemory in
/-- A page that is stored whole, whether there was a table for it or not. -/
theorem turned_store (hready : c.Ready needSubpage)
    (hunassigned : c.physOffset = ioMemUnassigned → c.regionOffset % 2 ^ 32 = c.addr / pageSize * pageSize) :
    Turned c.map ((c.map.physPageFindAlloc (c.addr / pageSize)).setPage (c.addr / pageSize)
      ⟨c.physOffset, c.regionOffset⟩) (c.addr / pageSize) (plainAccess ⟨c.physOffset, c.regionOffset⟩) := by
  rcases turned_physPageFindAlloc hm hi hready with ⟨hsame, hsome⟩ | ⟨access, halloc⟩
  · rw [hsame]
    exact turned_setPage hm hi hsome hplain hused hnone hunassigned
  · obtain ⟨hused', hnone'⟩ := halloc.used _ hused
    apply halloc.trans
    exact turned_setPage halloc.wellFormed hi halloc.found hplain hused' (hnone' hnone) hunassigned

theorem turned_registerUnassigned
    (hp : ∀ p, c.map.physPageFind (c.addr / pageSize) = some p → p.physOffset = ioMemUnassigned)
    (hready : c.Ready needSubpage)
    (hunassigned : c.physOffset = ioMemUnassigned → c.regionOffset % 2 ^ 32 = c.addr / pageSize * pageSize) :
    Turned c.map (registerUnassigned c startAddr size).1 (c.addr / pageSize) (c.pageAccess first last) := by
  have hstore := turned_store hm hi hplain hused hnone hready hunassigned
  have hfull : needSubpage = false → Turned c.map
      ((c.map.physPageFindAlloc (c.addr / pageSize)).setPage (c.addr / pageSize) ⟨c.physOffset, c.regionOffset⟩)
      (c.addr / pageSize) (c.pageAccess first last) := by
    intro hneed
    obtain ⟨rfl, rfl⟩ := hwhole hneed
    apply hstore.congr
    intro write off hoff
    have hall : 0 ≤ off ∧ off ≤ pageSize - 1 := ⟨Nat.zero_le _, by omega⟩
    rw [Cursor.pageAccess, if_pos hall]
  rw [registerUnassigned_eq hcheck]
  cases hmem : isMemory c.physOffset with
  | true => exact hfull (hmemory hmem)
  | false =>
    rw [if_neg Bool.false_ne_true]
    cases hneed : needSubpage with
    | false => exact hfull hneed
    | true =>
      have hio := isIo_of_needSubpage hmemory hneed
      have hfree : PhysMap.getFreeIoMemIdx ((c.map.physPageFindAlloc (c.addr / pageSize)).setPage (c.addr / pageSize)
          ⟨c.physOffset, c.regionOffset⟩) = c.map.getFreeIoMemIdx := by
        unfold PhysMap.physPageFindAlloc
        split <;> rfl
      have hnumber : c.map.getFreeIoMemIdx.isSome := by
        unfold Cursor.Ready at hready
        cases hq : c.map.physPageFind (c.addr / pageSize) with
        | none =>
          rw [hq] at hready
          exact hready.2 hneed
        | some p =>
          rw [hq] at hready
          dsimp only at hready
          rw [if_pos (hp p hq)] at hready
          exact hready hneed
      have hunassignedIo : isIo false ioMemUnassigned = true := by decide
      have hsplit := turned_splitPage hstore.wellFormed hi hstore.found hfirst hlast hio
        (p := ⟨ioMemUnassigned, maskPage c.addr⟩) hunassignedIo (hfree ▸ hnumber)
      apply (hstore.trans hsplit).congr
      intro write off hoff
      rw [Cursor.pageAccess, pageAccess_unassigned hm hi hp write hoff]

theorem turned_registerPage (hready : c.Ready needSubpage)
    (hunassigned : c.physOffset = ioMemUnassigned → c.regionOffset % 2 ^ 32 = c.addr / pageSize * pageSize) :
    Turned c.map (registerPage startAddr size c).map (c.addr / pageSize) (c.pageAccess first last) := by
  unfold registerPage
  dsimp only
  cases hq : c.map.physPageFind (c.addr / pageSize) with
  | none =>
    have hp : ∀ p, c.map.physPageFind (c.addr / pageSize) = some p → p.physOffset = ioMemUnassigned := by
      intro p hp
      cases hq.symm.trans hp
    exact turned_registerUnassigned hm hi hcheck hfirst hlast hwhole hmemory hplain hused hnone hp hready hunassigned
  | some p =>
    by_cases hassigned : p.physOffset = ioMemUnassigned
    · have hp : ∀ q, c.map.physPageFind (c.addr / pageSize) = some q → q.physOffset = ioMemUnassigned := by
        intro q hq'
        obtain rfl := Option.some.inj (hq.symm.trans hq')
        exact hassigned
      simp only [hassigned, ne_eq, not_true_eq_false, if_false]
      exact turned_registerUnassigned hm hi hcheck hfirst hlast hwhole hmemory hplain hused hnone hp hready hunassigned
    · simp only [ne_eq, hassigned, not_false_eq_true, if_true]
      exact turned_registerAssigned hm hi hcheck hfirst hlast hwhole hmemory hplain hused hnone hq hassigned hready
        hunassigned

omit hm hi hfirst hlast hplain hused hnone hwhole hmemory in
/-- Only a page that is split takes a number. -/
theorem registerPage_used (hneed : needSubpage = false) :
    (registerPage startAddr size c).map.ioMemUsed = c.map.ioMemUsed := by
  have halloc : (c.map.physPageFindAlloc (c.addr / pageSize)).ioMemUsed = c.map.ioMemUsed := by
    unfold PhysMap.physPageFindAlloc
    split <;> rfl
  subst hneed
  have hnew : (registerUnassigned c startAddr size).1.ioMemUsed = c.map.ioMemUsed := by
    rw [registerUnassigned_eq hcheck]
    split
    · exact halloc
    · exact halloc
  have hold : ∀ p, (registerAssigned c p startAddr size).1.ioMemUsed = c.map.ioMemUsed := by
    intro p
    rw [registerAssigned_eq hcheck]
    rfl
  unfold registerPage
  dsimp only
  split
  · split
    · exact hold _
    · exact hnew
  · exact hnew

omit hm hi hfirst hlast hplain hused hnone hwhole in
theorem registerPage_physOffset : (registerPage startAddr size c).physOffset = nextPhysOffset c.physOffset := by
  have hsame : isMemory c.physOffset = false → nextPhysOffset c.physOffset = c.physOffset := by
    intro h
    rw [nextPhysOffset, h, if_neg Bool.false_ne_true]
  have hnew : (registerUnassigned c startAddr size).2 = nextPhysOffset c.physOffset := by
    rw [registerUnassigned_eq hcheck]
    cases hmem : isMemory c.physOffset with
    | true => rfl
    | false =>
      rw [hsame hmem]
      cases needSubpage <;> rfl
  have hold : ∀ p, (registerAssigned c p startAddr size).2 = nextPhysOffset c.physOffset := by
    intro p
    rw [registerAssigned_eq hcheck]
    cases hneed : needSubpage with
    | false => rfl
    | true =>
      have hmem : isMemory c.physOffset = false := by
        by_contra hmem
        have h := hmemory (Bool.not_eq_false _ ▸ hmem)
        cases hneed.symm.trans h
      rw [hsame hmem]
      rfl
  unfold registerPage
  dsimp only
  split
  · split
    · exact hold _
    · exact hnew
  · exact hnew

end Page

end IDeviceEmulator.Exec.Phys
