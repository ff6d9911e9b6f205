import IDeviceEmulator.Exec.PhysMap

namespace IDeviceEmulator.Exec.Phys

open Machine Function

section Tables

variable {m : PhysMap} {i j : Nat} {p : PhysPageDesc}

/-- Two pages of the address space share their table and their place in it only if they are
one. -/
theorem eq_of_places (hi : i < 2 ^ 22) (hj : j < 2 ^ 22) (htable : i / l2Size % l1Size = j / l2Size % l1Size)
    (hplace : i % l2Size = j % l2Size) : i = j := by
  simp only [l2Size, l1Size] at htable hplace
  omega

theorem physPageFind_setPage (hi : i < 2 ^ 22) (hj : j < 2 ^ 22) (hsome : (m.physPageFind i).isSome)
    (p : PhysPageDesc) :
    (m.setPage i p).physPageFind j = if j = i then some p else m.physPageFind j := by
  unfold PhysMap.physPageFind PhysMap.setPage
  dsimp only
  by_cases htable : j / l2Size % l1Size = i / l2Size % l1Size
  · rw [htable, update_self]
    cases hpd : m.l1PhysMap (i / l2Size % l1Size) with
    | none => simp [PhysMap.physPageFind, hpd] at hsome
    | some pd =>
      by_cases hji : j = i
      · subst hji
        simp
      · have hplace : j % l2Size ≠ i % l2Size := fun he ↦ hji (eq_of_places hj hi htable he)
        simp [hji, update_of_ne hplace]
  · have hji : j ≠ i := by
      rintro rfl
      exact htable rfl
    rw [update_of_ne htable, if_neg hji]

/-- What is found after a page was stored is that page, or it was found before. -/
theorem setPage_cases (hi : i < 2 ^ 22) (hj : j < 2 ^ 22) (hsome : (m.physPageFind i).isSome) {q : PhysPageDesc}
    (hq : (m.setPage i p).physPageFind j = some q) : (j = i ∧ q = p) ∨ (j ≠ i ∧ m.physPageFind j = some q) := by
  rw [physPageFind_setPage hi hj hsome] at hq
  by_cases hji : j = i
  · rw [if_pos hji] at hq
    exact .inl ⟨hji, (Option.some.inj hq).symm⟩
  · rw [if_neg hji] at hq
    exact .inr ⟨hji, hq⟩

theorem physPageFind_alloc (hi : i < 2 ^ 22) (hj : j < 2 ^ 22) :
    (m.physPageFindAlloc i).physPageFind j =
      if m.physPageFind i = none ∧ j / l2Size = i / l2Size then
        some ⟨ioMemUnassigned, (i + j % l2Size) * pageSize % 2 ^ 32⟩
      else m.physPageFind j := by
  unfold PhysMap.physPageFindAlloc PhysMap.physPageFind
  have hsame : j / l2Size % l1Size = i / l2Size % l1Size ↔ j / l2Size = i / l2Size := by
    simp only [l2Size, l1Size]
    omega
  cases hpd : m.l1PhysMap (i / l2Size % l1Size) with
  | some pd => simp
  | none =>
    by_cases htable : j / l2Size = i / l2Size
    · simp [htable]
    · have hne : j / l2Size % l1Size ≠ i / l2Size % l1Size := fun he ↦ htable (hsame.mp he)
      simp [htable, update_of_ne hne]

end Tables

section Pages

variable {m : PhysMap} {write : Bool} {off : Nat}

/-- An access to a page that is not split. -/
def plainAccess (p : PhysPageDesc) (write : Bool) (off : Nat) : Access :=
  if isIo write p.physOffset then .io (ioIndex p.physOffset) ((off + p.regionOffset) % 2 ^ 32)
  else .memory (maskPage p.physOffset + off)

def Subpage.access (mmio : Subpage) (off : Nat) : Access :=
  .io (mmio.subIoIndex off) ((off + mmio.regionOffset off) % 2 ^ 32)

/-- The access to an address as its page tells it. -/
def pageAccess (subpages : Nat → Option Subpage) (index : Nat) (p : Option PhysPageDesc) (write : Bool) (off : Nat) :
    Access :=
  match p with
  | none => .io (ioIndex ioMemUnassigned) (index * pageSize + off)
  | some p =>
    if isSubpage p.physOffset then
      match subpages (ioIndex p.physOffset) with
      | some mmio => mmio.access off
      | none => plainAccess p write off
    else plainAccess p write off

/-- Split pages have handlers of their own. -/
structure WellFormed (m : PhysMap) : Prop where
  split : ∀ i < 2 ^ 22, ∀ p, m.physPageFind i = some p → isSubpage p.physOffset = true →
    ∃ n mmio, p = ⟨n * 8 + ioMemSubpage, 0⟩ ∧ n < ioMemNbEntries ∧ m.ioMemSubpage n = some mmio
  plain : ∀ i < 2 ^ 22, ∀ p, m.physPageFind i = some p → isSubpage p.physOffset = false →
    m.ioMemUsed (ioIndex p.physOffset) = true ∧ m.ioMemSubpage (ioIndex p.physOffset) = none
  owner : ∀ i < 2 ^ 22, ∀ j < 2 ^ 22, ∀ p q, m.physPageFind i = some p → m.physPageFind j = some q →
    isSubpage p.physOffset = true → p.physOffset = q.physOffset → i = j
  unassigned : ∀ i < 2 ^ 22, ∀ p, m.physPageFind i = some p → p.physOffset = ioMemUnassigned →
    p.regionOffset % 2 ^ 32 = i * pageSize
  used : ∀ n mmio, m.ioMemSubpage n = some mmio → m.ioMemUsed n = true
  fixed : ∀ n ≤ 2, m.ioMemUsed n = true ∧ m.ioMemSubpage n = none

theorem ioIndex_split {n : Nat} (h : n < ioMemNbEntries) : ioIndex (n * 8 + ioMemSubpage) = n := by
  simp only [ioIndex, ioMemNbEntries, ioMemSubpage] at h ⊢
  omega

theorem isSubpage_split (n : Nat) : isSubpage (n * 8 + ioMemSubpage) = true := by
  apply decide_eq_true
  simp only [ioMemSubpage]
  omega

theorem isSubpage_unassigned : isSubpage ioMemUnassigned = false := by decide

theorem ioIndex_unassigned : ioIndex ioMemUnassigned = 2 := by decide

theorem isIo_true_iff {pd : Nat} : isIo true pd = true ↔ pd % 1024 ≠ 0 := decide_eq_true_iff

theorem isIo_false_iff {pd : Nat} : isIo false pd = true ↔ 8 < pd % 1024 ∧ pd % 2 = 0 := by
  have hromd : isRomd pd = false ↔ pd % 2 = 0 := by
    rw [isRomd, decide_eq_false_iff_not, ioMemRomd]
    omega
  change (decide (pd % 1024 > 8) && !isRomd pd) = true ↔ _
  rw [Bool.and_eq_true, decide_eq_true_iff, Bool.not_eq_true', hromd]

theorem isIo_of_false {pd : Nat} (h : isIo false pd = true) (write : Bool) : isIo write pd = true := by
  cases write with
  | false => exact h
  | true =>
    rw [isIo_false_iff] at h
    rw [isIo_true_iff]
    omega

theorem isIo_false_split {n : Nat} (h : n < ioMemNbEntries) (h0 : 0 < n) :
    isIo false (n * 8 + ioMemSubpage) = true := by
  rw [isIo_false_iff]
  simp only [ioMemNbEntries, ioMemSubpage] at h ⊢
  omega

theorem isMemory_iff {pd : Nat} : isMemory pd = true ↔ isIo false pd = false := by
  change (decide (pd % 1024 ≤ 8) || isRomd pd) = true ↔ (decide (pd % 1024 > 8) && !isRomd pd) = false
  rw [Bool.or_eq_true, decide_eq_true_iff, Bool.and_eq_false_iff, decide_eq_false_iff_not, Nat.not_lt,
    Bool.not_eq_false']

variable (hm : WellFormed m)
include hm

theorem WellFormed.pos_of_subpage {n : Nat} {mmio : Subpage} (h : m.ioMemSubpage n = some mmio) : 0 < n := by
  by_contra hn
  have hnone := (hm.fixed n (by omega)).2
  cases hnone.symm.trans h

/-- An access in terms of the page. -/
theorem WellFormed.access_eq {addr : Nat} (haddr : addr < 2 ^ 32) (write : Bool) :
    m.access write addr =
      pageAccess m.ioMemSubpage (addr / pageSize) (m.physPageFind (addr / pageSize)) write (addr % pageSize) := by
  have hindex : addr / pageSize < 2 ^ 22 := by
    simp only [pageSize]
    omega
  unfold PhysMap.access
  cases hp : m.physPageFind (addr / pageSize) with
  | none =>
    have hnone : m.ioMemSubpage (ioIndex ioMemUnassigned) = none := (hm.fixed 2 (Nat.le_refl 2)).2
    have hsum : addr / pageSize * pageSize + addr % pageSize = addr := Nat.div_add_mod' addr pageSize
    simp only [ioAccess, hnone, pageAccess, hsum]
  | some p =>
    have hoff : addr % pageSize < pageSize := Nat.mod_lt _ (by decide)
    cases hsub : isSubpage p.physOffset with
    | false =>
      have hnone := (hm.plain _ hindex p hp hsub).2
      simp only [pageAccess, hsub, Bool.false_eq_true, if_false, plainAccess, ioAccess, hnone]
    | true =>
      obtain ⟨n, mmio, rfl, hn, hmmio⟩ := hm.split _ hindex p hp hsub
      have hio := isIo_of_false (isIo_false_split hn (hm.pos_of_subpage hmmio)) write
      have hsmall : (addr % pageSize + 0) % 2 ^ 32 = addr % pageSize := by
        simp only [pageSize] at hoff ⊢
        omega
      have hself : addr % pageSize % pageSize = addr % pageSize := Nat.mod_mod _ _
      simp only [pageAccess, hsub, if_true, ioIndex_split hn, hmmio, hio, ioAccess, hsmall, hself, Subpage.access]

end Pages

/-- The map after the turn of the loop for page `i`, where accesses are as given. -/
structure Turned (m m' : PhysMap) (i : Nat) (access : Bool → Nat → Access) : Prop where
  wellFormed : WellFormed m'
  used : ∀ n, m.ioMemUsed n = true → m'.ioMemUsed n = true ∧ (m.ioMemSubpage n = none → m'.ioMemSubpage n = none)
  here : ∀ write, ∀ off < pageSize, pageAccess m'.ioMemSubpage i (m'.physPageFind i) write off = access write off
  there : ∀ j < 2 ^ 22, j ≠ i → ∀ write, ∀ off < pageSize,
    pageAccess m'.ioMemSubpage j (m'.physPageFind j) write off =
      pageAccess m.ioMemSubpage j (m.physPageFind j) write off
  found : (m'.physPageFind i).isSome
  kept : ∀ j < 2 ^ 22, j ≠ i → m'.physPageFind j = m.physPageFind j ∨
    (m.physPageFind j = none ∧ ∃ regionOffset, m'.physPageFind j = some ⟨ioMemUnassigned, regionOffset⟩)

/-- Turns for one page after each other. -/
theorem Turned.trans {m m₁ m' : PhysMap} {i : Nat} {access₁ access : Bool → Nat → Access}
    (h₁ : Turned m m₁ i access₁) (h₂ : Turned m₁ m' i access) : Turned m m' i access := by
  refine ⟨h₂.wellFormed, ?_, h₂.here, ?_, h₂.found, ?_⟩
  · intro n hn
    obtain ⟨hn₁, hnone₁⟩ := h₁.used n hn
    obtain ⟨hn₂, hnone₂⟩ := h₂.used n hn₁
    exact ⟨hn₂, fun hnone ↦ hnone₂ (hnone₁ hnone)⟩
  · intro j hj hji write off hoff
    rw [h₂.there j hj hji write off hoff, h₁.there j hj hji write off hoff]
  · intro j hj hji
    rcases h₂.kept j hj hji with h | ⟨hnone, h⟩
    · rw [h]
      exact h₁.kept j hj hji
    · rcases h₁.kept j hj hji with h' | ⟨-, regionOffset, h'⟩
      · rw [h'] at hnone
        exact .inr ⟨hnone, h⟩
      · cases hnone.symm.trans h'

section Turns

variable {m m' : PhysMap} {i : Nat} {access : Bool → Nat → Access} (hm : WellFormed m) (hi : i < 2 ^ 22)
include hm hi

/-- A page that is stored in the table as it is. -/
theorem turned_setPage (hsome : (m.physPageFind i).isSome) {p : PhysPageDesc} (hplain : isSubpage p.physOffset = false)
    (hused : m.ioMemUsed (ioIndex p.physOffset) = true) (hnone : m.ioMemSubpage (ioIndex p.physOffset) = none)
    (hunassigned : p.physOffset = ioMemUnassigned → p.regionOffset % 2 ^ 32 = i * pageSize) :
    Turned m (m.setPage i p) i (plainAccess p) := by
  have hfind : ∀ j < 2 ^ 22, (m.setPage i p).physPageFind j = if j = i then some p else m.physPageFind j :=
    fun j hj ↦ physPageFind_setPage hi hj hsome p
  have hcases : ∀ j < 2 ^ 22, ∀ q, (m.setPage i p).physPageFind j = some q →
      (j = i ∧ q = p) ∨ (j ≠ i ∧ m.physPageFind j = some q) :=
    fun j hj q hq ↦ setPage_cases hi hj hsome hq
  refine ⟨⟨?_, ?_, ?_, ?_, hm.used, hm.fixed⟩, fun n hn ↦ ⟨hn, id⟩, ?_, ?_, ?_, ?_⟩
  · intro j hj q hq hsub
    rcases hcases j hj q hq with ⟨-, rfl⟩ | ⟨-, hold⟩
    · rw [hplain] at hsub
      cases hsub
    · exact hm.split j hj q hold hsub
  · intro j hj q hq hsub
    rcases hcases j hj q hq with ⟨-, rfl⟩ | ⟨-, hold⟩
    · exact ⟨hused, hnone⟩
    · exact hm.plain j hj q hold hsub
  · intro j hj k hk q r hq hr hsub heq
    rcases hcases j hj q hq with ⟨-, rfl⟩ | ⟨-, hold⟩
    · rw [hplain] at hsub
      cases hsub
    · rcases hcases k hk r hr with ⟨-, rfl⟩ | ⟨-, hold'⟩
      · rw [heq, hplain] at hsub
        cases hsub
      · exact hm.owner j hj k hk q r hold hold' hsub heq
  · intro j hj q hq h16
    rcases hcases j hj q hq with ⟨rfl, rfl⟩ | ⟨-, hold⟩
    · exact hunassigned h16
    · exact hm.unassigned j hj q hold h16
  · intro write off _
    rw [hfind i hi, if_pos rfl]
    simp only [pageAccess, hplain, Bool.false_eq_true, if_false]
  · intro j hj hji write off _
    rw [hfind j hj, if_neg hji]
    rfl
  · rw [hfind i hi, if_pos rfl]
    rfl
  · intro j hj hji
    rw [hfind j hj, if_neg hji]
    exact .inl rfl

/-- A page that gets a handler for its bytes, with a number that is new or is its own. -/
theorem turned_subpage (hsome : (m.physPageFind i).isSome) {n : Nat} (hn : n < ioMemNbEntries) (mmio : Subpage)
    (hfree : m.ioMemUsed n = true → m.ioMemSubpage n ≠ none)
    (hown : ∀ j < 2 ^ 22, j ≠ i → ∀ q, m.physPageFind j = some q → q.physOffset ≠ n * 8 + ioMemSubpage) :
    Turned m ({ m with
      ioMemUsed := update m.ioMemUsed n true
      ioMemSubpage := update m.ioMemSubpage n (some mmio) }.setPage i ⟨n * 8 + ioMemSubpage, 0⟩) i
      (fun _ off ↦ mmio.access off) := by
  have hfind : ∀ j < 2 ^ 22, PhysMap.physPageFind ({ m with
      ioMemUsed := update m.ioMemUsed n true
      ioMemSubpage := update m.ioMemSubpage n (some mmio) }.setPage i ⟨n * 8 + ioMemSubpage, 0⟩) j =
        if j = i then some ⟨n * 8 + ioMemSubpage, 0⟩ else m.physPageFind j :=
    fun j hj ↦ physPageFind_setPage hi hj hsome _
  have hcases : ∀ j < 2 ^ 22, ∀ q, PhysMap.physPageFind ({ m with
      ioMemUsed := update m.ioMemUsed n true
      ioMemSubpage := update m.ioMemSubpage n (some mmio) }.setPage i ⟨n * 8 + ioMemSubpage, 0⟩) j = some q →
      (j = i ∧ q = ⟨n * 8 + ioMemSubpage, 0⟩) ∨ (j ≠ i ∧ m.physPageFind j = some q) :=
    fun j hj q hq ↦ setPage_cases (m := { m with
      ioMemUsed := update m.ioMemUsed n true
      ioMemSubpage := update m.ioMemSubpage n (some mmio) }) hi hj hsome hq
  -- a number that is used and is no page's differs from the new one
  have hother : ∀ k, m.ioMemUsed k = true → m.ioMemSubpage k = none → k ≠ n := by
    rintro k hk hnone rfl
    exact hfree hk hnone
  have hused : ∀ k, m.ioMemUsed k = true →
      update m.ioMemUsed n true k = true ∧
        (m.ioMemSubpage k = none → update m.ioMemSubpage n (some mmio) k = none) := by
    intro k hk
    by_cases hkn : k = n
    · subst hkn
      exact ⟨update_self .., fun hnone ↦ absurd hnone (hfree hk)⟩
    · rw [update_of_ne hkn, update_of_ne hkn]
      exact ⟨hk, id⟩
  have hsub := isSubpage_split n
  refine ⟨⟨?_, ?_, ?_, ?_, ?_, ?_⟩, hused, ?_, ?_, ?_, ?_⟩
  · intro j hj q hq hqsub
    change ∃ k mmio', q = _ ∧ k < _ ∧ update m.ioMemSubpage n (some mmio) k = some mmio'
    rcases hcases j hj q hq with ⟨-, rfl⟩ | ⟨-, hold⟩
    · exact ⟨n, mmio, rfl, hn, update_self ..⟩
    · obtain ⟨k, mmio', rfl, hk, hmmio⟩ := hm.split j hj q hold hqsub
      by_cases hkn : k = n
      · subst hkn
        exact ⟨k, mmio, rfl, hk, update_self ..⟩
      · exact ⟨k, mmio', rfl, hk, by rw [update_of_ne hkn, hmmio]⟩
  · intro j hj q hq hqsub
    rcases hcases j hj q hq with ⟨-, rfl⟩ | ⟨-, hold⟩
    · cases hsub.symm.trans hqsub
    · obtain ⟨hqused, hqnone⟩ := hm.plain j hj q hold hqsub
      exact ⟨(hused _ hqused).1, (hused _ hqused).2 hqnone⟩
  · intro j hj k hk q r hq hr hqsub heq
    rcases hcases j hj q hq with ⟨rfl, rfl⟩ | ⟨hji, hold⟩
    · rcases hcases k hk r hr with ⟨rfl, -⟩ | ⟨hki, hold'⟩
      · rfl
      · exact absurd heq.symm (hown k hk hki r hold')
    · rcases hcases k hk r hr with ⟨rfl, rfl⟩ | ⟨-, hold'⟩
      · exact absurd heq (hown j hj hji q hold)
      · exact hm.owner j hj k hk q r hold hold' hqsub heq
  · intro j hj q hq h16
    rcases hcases j hj q hq with ⟨-, rfl⟩ | ⟨-, hold⟩
    · dsimp only at h16
      rw [h16] at hsub
      cases hsub
    · exact hm.unassigned j hj q hold h16
  · intro k mmio' hk
    change update m.ioMemUsed n true k = true
    change update m.ioMemSubpage n (some mmio) k = some mmio' at hk
    by_cases hkn : k = n
    · rw [hkn, update_self]
    · rw [update_of_ne hkn] at hk ⊢
      exact hm.used k mmio' hk
  · intro k hk
    obtain ⟨hkused, hknone⟩ := hm.fixed k hk
    exact ⟨(hused k hkused).1, (hused k hkused).2 hknone⟩
  · intro write off _
    rw [hfind i hi, if_pos rfl]
    change pageAccess (update m.ioMemSubpage n (some mmio)) i _ write off = _
    simp only [pageAccess, hsub, if_true, ioIndex_split hn, update_self]
  · intro j hj hji write off _
    rw [hfind j hj, if_neg hji]
    change pageAccess (update m.ioMemSubpage n (some mmio)) j _ write off = _
    cases hq : m.physPageFind j with
    | none => rfl
    | some q =>
      cases hqsub : isSubpage q.physOffset with
      | false => simp only [pageAccess, hqsub, Bool.false_eq_true, if_false]
      | true =>
        obtain ⟨k, mmio', rfl, hk, hmmio⟩ := hm.split j hj q hq hqsub
        have hkn : k ≠ n := by
          rintro rfl
          exact hown j hj hji _ hq rfl
        simp only [pageAccess, hqsub, if_true, ioIndex_split hk, update_of_ne hkn]
  · rw [hfind i hi, if_pos rfl]
    rfl
  · intro j hj hji
    rw [hfind j hj, if_neg hji]
    exact .inl rfl

/-- A new page table is not assigned, as the pages were before. Its addresses are right because
the page is the first of the table. -/
theorem turned_alloc (hnone : m.physPageFind i = none) (hfirst : i % l2Size = 0) :
    Turned m (m.physPageFindAlloc i) i (fun _ off ↦ .io (ioIndex ioMemUnassigned) (i * pageSize + off)) := by
  have hsub : (m.physPageFindAlloc i).ioMemSubpage = m.ioMemSubpage := by
    unfold PhysMap.physPageFindAlloc
    split <;> rfl
  have hused : (m.physPageFindAlloc i).ioMemUsed = m.ioMemUsed := by
    unfold PhysMap.physPageFindAlloc
    split <;> rfl
  have hbase : ∀ j < 2 ^ 22, j / l2Size = i / l2Size → (i + j % l2Size) * pageSize % 2 ^ 32 = j * pageSize := by
    intro j hj htable
    simp only [l2Size, pageSize] at hfirst htable ⊢
    omega
  have hempty : ∀ j, j < 2 ^ 22 → j / l2Size = i / l2Size → m.physPageFind j = none := by
    intro j hj htable
    unfold PhysMap.physPageFind at hnone ⊢
    rw [htable]
    exact Option.map_eq_none_iff.mpr (Option.map_eq_none_iff.mp hnone)
  have hcases : ∀ j < 2 ^ 22, ∀ q, (m.physPageFindAlloc i).physPageFind j = some q →
      (m.physPageFind j = none ∧ q = ⟨ioMemUnassigned, j * pageSize⟩) ∨ m.physPageFind j = some q := by
    intro j hj q hq
    rw [physPageFind_alloc hi hj] at hq
    by_cases htable : j / l2Size = i / l2Size
    · rw [if_pos ⟨hnone, htable⟩, hbase j hj htable] at hq
      exact .inl ⟨hempty j hj htable, (Option.some.inj hq).symm⟩
    · rw [if_neg fun h ↦ htable h.2] at hq
      exact .inr hq
  have hnew : ∀ j, pageAccess m.ioMemSubpage j (some ⟨ioMemUnassigned, j * pageSize⟩) =
      fun write off ↦ plainAccess ⟨ioMemUnassigned, j * pageSize⟩ write off := by
    intro j
    funext write off
    simp only [pageAccess, isSubpage_unassigned, Bool.false_eq_true, if_false]
  have hplain : ∀ j < 2 ^ 22, ∀ write, ∀ off < pageSize, plainAccess ⟨ioMemUnassigned, j * pageSize⟩ write off =
      .io (ioIndex ioMemUnassigned) (j * pageSize + off) := by
    intro j hj write off hoff
    have hio : isIo write ioMemUnassigned = true := by
      cases write <;> decide
    have haddr : (off + j * pageSize) % 2 ^ 32 = j * pageSize + off := by
      simp only [pageSize] at hoff ⊢
      omega
    simp only [plainAccess, hio, if_true, haddr]
  have hi' : (m.physPageFindAlloc i).physPageFind i = some ⟨ioMemUnassigned, i * pageSize⟩ := by
    rw [physPageFind_alloc hi hi, if_pos ⟨hnone, rfl⟩, hbase i hi rfl]
  refine ⟨⟨?_, ?_, ?_, ?_, ?_, ?_⟩, ?_, ?_, ?_, ?_, ?_⟩
  · intro j hj q hq hqsub
    rw [hsub]
    rcases hcases j hj q hq with ⟨-, rfl⟩ | hold
    · cases isSubpage_unassigned.symm.trans hqsub
    · exact hm.split j hj q hold hqsub
  · intro j hj q hq hqsub
    rw [hsub, hused]
    rcases hcases j hj q hq with ⟨-, rfl⟩ | hold
    · dsimp only
      rw [ioIndex_unassigned]
      exact hm.fixed 2 (Nat.le_refl 2)
    · exact hm.plain j hj q hold hqsub
  · intro j hj k hk q r hq hr hqsub heq
    rcases hcases j hj q hq with ⟨-, rfl⟩ | hold
    · cases isSubpage_unassigned.symm.trans hqsub
    · rcases hcases k hk r hr with ⟨-, rfl⟩ | hold'
      · rw [heq] at hqsub
        cases isSubpage_unassigned.symm.trans hqsub
      · exact hm.owner j hj k hk q r hold hold' hqsub heq
  · intro j hj q hq h16
    rcases hcases j hj q hq with ⟨-, rfl⟩ | hold
    · simp only [pageSize]
      omega
    · exact hm.unassigned j hj q hold h16
  · rw [hsub, hused]
    exact hm.used
  · rw [hsub, hused]
    exact hm.fixed
  · rw [hsub, hused]
    exact fun n hn ↦ ⟨hn, id⟩
  · intro write off hoff
    rw [hi', hsub, hnew]
    exact hplain i hi write off hoff
  · intro j hj _ write off hoff
    rw [hsub]
    cases hq : (m.physPageFindAlloc i).physPageFind j with
    | none =>
      rw [physPageFind_alloc hi hj] at hq
      split at hq
      · cases hq
      · rw [hq]
    | some q =>
      rcases hcases j hj q hq with ⟨hold, rfl⟩ | hold
      · rw [hold, hnew]
        exact hplain j hj write off hoff
      · rw [hold]
  · rw [hi']
    rfl
  · intro j hj _
    rw [physPageFind_alloc hi hj]
    by_cases htable : j / l2Size = i / l2Size
    · rw [if_pos ⟨hnone, htable⟩]
      exact .inr ⟨hempty j hj htable, _, rfl⟩
    · rw [if_neg fun h ↦ htable h.2]
      exact .inl rfl

end Turns

end IDeviceEmulator.Exec.Phys
