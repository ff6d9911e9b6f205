import IDeviceEmulator.Exec.Invalidation

namespace IDeviceEmulator.Exec.Blocks

open Loop (Settles)

namespace Op

/-- What callers of an operation see to: new blocks take free slots, have the sizes and pages of
translated code, and other operations are on live blocks and inside one page. -/
def Allowed (s : State) : Op → Prop
  | link tb pc size _ physPc physPage2 =>
    tb ∉ s.live ∧ 0 < size ∧ pageOffset pc + size < 2 * targetPageSize ∧ physPc % targetPageSize = pageOffset pc ∧
      (physPage2.isSome ↔ Crosses pc size)
  | addJump tb _ tbNext => tb ∈ s.live ∧ tbNext ∈ s.live
  | invalidate tb => tb ∈ s.live
  | invalidateRange start stop _ => start ≤ stop ∧ stop ≤ (start / targetPageSize + 1) * targetPageSize
  | flush => True
  | write start len => State.Width len ∧ len ∣ start

/-- The range that an operation invalidates. -/
def range : Op → Option (Nat × Nat)
  | invalidateRange start stop _ => some (start, stop)
  | write start len => some (start, start + len)
  | _ => none

def Once (s : State) (op : Op) : Prop := ∀ r, op.range = some r → s.HitOnce r.1 r.2

/-- The range of the operation hits no block in both parts of one page and, if it is empty, no block. -/
def Plain (s : State) (op : Op) : Prop := op.Once s ∧ ∀ r, op.range = some r → s.EmptyMisses r.1 r.2

theorem plain_of_range {s : State} {op : Op} (h : op.range = none) : op.Plain s := by
  constructor <;> intro r hr <;> cases h.symm.trans hr

/-- The two pages of a new block are not one. -/
def Distinct : Op → Prop
  | link _ _ _ _ physPc physPage2 => physPage2 ≠ some (physPc / targetPageSize)
  | _ => True

/-- The blocks that are live after an operation. -/
def Leaves (s s' : State) (op : Op) : Prop :=
  ∀ b, b ∈ s'.live ↔
    match op with
    | link tb .. => b = tb ∨ b ∈ s.live
    | addJump .. => b ∈ s.live
    | invalidate tb => b ≠ tb ∧ b ∈ s.live
    | invalidateRange start stop _ => s.Spared start stop b
    | flush => False
    | write start len => s.Spared start (start + len) b

end Op

/-- Operations one after the other, each of which comes to an end. -/
inductive Run (ok : State → Op → Prop) : State → List Op → State → Prop
  | nil (s : State) : Run ok s [] s
  | cons {s t u : State} {op : Op} {ops : List Op} :
      ok s op → Settles (fun fuel ↦ step fuel s op) t → Run ok t ops u → Run ok s (op :: ops) u

theorem Run.invariant {ok : State → Op → Prop} {P : State → Prop} {s t : State} {ops : List Op} (h : Run ok s ops t)
    (hs : P s) (hstep : ∀ s op t, P s → ok s op → Settles (fun fuel ↦ step fuel s op) t → P t) : P t := by
  induction h with
  | nil s => exact hs
  | cons hok hsettles _ ih => exact ih (hstep _ _ _ hs hok hsettles)

namespace State

variable {s : State} {op : Op}

theorem good_boot : boot.Good := by
  refine ⟨fun _ ↦ [], fun _ ↦ [], fun _ ↦ [], ⟨.empty (fun _ _ ↦ rfl) fun _ _ _ h ↦ ?_, .empty (fun _ _ ↦ rfl)
    fun _ _ _ h ↦ ?_, fun _ ↦ trivial, .empty (fun _ h ↦ ?_) fun _ h ↦ ?_, fun _ _ h ↦ ?_, fun _ h ↦ ?_, fun _ h ↦ ?_,
    fun _ _ h ↦ ?_, fun _ _ h ↦ ?_⟩⟩ <;> cases h

/-- An operation on a range comes to an end, and what it leaves on the page is not hit. -/
theorem Good.invalidates (h : s.Good) {start stop : Nat} (honce : s.HitOnce start stop) (hle : start ≤ stop)
    (hstop : stop ≤ (start / targetPageSize + 1) * targetPageSize) (isCpuWriteAccess : Bool) :
    ∃ s', Settles (fun fuel ↦ s.tbInvalidatePhysPageRange fuel start stop isCpuWriteAccess) s' ∧ s'.Good ∧
      s'.tbs = s.tbs ∧ s'.live ⊆ s.live ∧
      (s.EmptyMisses start stop → ∀ b, b ∈ s'.live ↔ s.Spared start stop b) := by
  obtain ⟨s', hsettles, hgood, htbs, hlive⟩ := h.range honce isCpuWriteAccess
  refine ⟨s', hsettles, hgood, htbs, fun b hb ↦ ((hlive b).mp hb).1, fun hempty b ↦ ?_⟩
  exact (hlive b).trans (h.spared_iff hempty hle hstop b).symm

/-- A write comes to an end as the invalidation of its range does, and the same blocks are left. -/
theorem Good.write (h : s.Good) {start len : Nat} (hlen : Width len) (hdvd : len ∣ start)
    (honce : s.HitOnce start (start + len)) :
    ∃ s', Settles (fun fuel ↦ s.tbInvalidatePhysPageFast fuel start len) s' ∧ s'.Good ∧ s'.tbs = s.tbs ∧
      ∀ b, b ∈ s'.live ↔ s.Spared start (start + len) b := by
  have hpos : start < start + len := by
    rcases hlen with rfl | rfl | rfl | rfl <;> omega
  obtain ⟨s', hsettles, hgood, htbs, -, hlive⟩ :=
    h.invalidates honce (Nat.le_of_lt hpos) (hlen.fits hdvd).2 true
  have hspared := hlive fun heq ↦ absurd heq (Nat.ne_of_lt hpos)
  unfold tbInvalidatePhysPageFast
  by_cases halloc : s.l1Map (start / targetPageSize / l2Size) = true
  · have hfind : s.pageFind (start / targetPageSize) = some (s.pageDesc (start / targetPageSize)) := if_pos halloc
    simp only [hfind]
    cases htab : (s.pageDesc (start / targetPageSize)).codeBitmap with
    | none => exact ⟨s', hsettles, hgood, htbs, hspared⟩
    | some tab =>
      obtain ⟨byte, hbyte, hclear⟩ := h.fast hlen hdvd htab
      simp only [hbyte, Option.bind_some]
      split_ifs with hbits
      · exact ⟨s', hsettles, hgood, htbs, hspared⟩
      · have hall := hclear (Decidable.not_not.mp hbits)
        exact ⟨s, .of_forall fun _ ↦ rfl, h, rfl, fun b ↦ ⟨hall b, And.left⟩⟩
  · -- without a descriptor there is no block on the page
    have hfind : s.pageFind (start / targetPageSize) = none := if_neg halloc
    have hsame : ∀ fuel, s.tbInvalidatePhysPageRange fuel start (start + len) true = some s := by
      intro fuel
      simp only [tbInvalidatePhysPageRange, hfind]
    obtain rfl : s' = s := hsettles.unique (.of_forall hsame)
    simp only [hfind]
    exact ⟨s', .of_forall fun _ ↦ rfl, hgood, rfl, hspared⟩

/-- No block has one page twice. -/
def TwoPages (s : State) : Prop := ∀ tb ∈ s.live, (s.tbs tb).pageAddr 0 ≠ (s.tbs tb).pageAddr 1

theorem TwoPages.hitOnce (h : s.TwoPages) (start stop : Nat) : s.HitOnce start stop :=
  fun tb htb heq ↦ absurd heq (h tb htb)

theorem TwoPages.mono {t : State} (h : s.TwoPages) (htbs : t.tbs = s.tbs) (hlive : t.live ⊆ s.live) : t.TwoPages := by
  intro tb htb
  rw [htbs]
  exact h tb (hlive htb)

/-- What an operation comes to. -/
structure Outcome (s s' : State) (op : Op) : Prop where
  good : s'.Good
  leaves : (∀ r, op.range = some r → s.EmptyMisses r.1 r.2) → op.Leaves s s'
  twoPages : op.Distinct → s.TwoPages → s'.TwoPages

theorem Good.step (h : s.Good) (hallowed : op.Allowed s) (honce : op.Once s) :
    ∃ s', Settles (fun fuel ↦ step fuel s op) s' ∧ s.Outcome s' op := by
  cases op with
  | link tb pc size tbNextOffset physPc physPage2 =>
    obtain ⟨hfresh, hpos, hend, hoff, hcross⟩ := hallowed
    obtain ⟨t, ht, hgood, hlive, htbs, haddr⟩ := h.link tbNextOffset hfresh hpos hend hoff hcross
    refine ⟨t, .of_forall fun _ ↦ congrArg some ht, hgood, fun _ b ↦ ?_, fun hdistinct htwo b hb ↦ ?_⟩
    · rw [hlive]
      exact Finset.mem_insert
    · by_cases hbtb : b = tb
      · subst hbtb
        rw [haddr]
        exact fun heq ↦ hdistinct heq.symm
      · rw [htbs b hbtb]
        rw [hlive] at hb
        exact htwo b (Finset.mem_of_mem_insert_of_ne hb hbtb)
  | addJump tb n tbNext =>
    have hsame : (s.tbAddJump tb n tbNext).tbs = s.tbs ∧ (s.tbAddJump tb n tbNext).live = s.live := by
      unfold tbAddJump
      split_ifs
      · exact ⟨rfl, rfl⟩
      · exact ⟨rfl, rfl⟩
    refine ⟨_, .of_forall fun _ ↦ rfl, h.addJump hallowed.1 hallowed.2, fun _ b ↦ ?_, fun _ htwo ↦
      htwo.mono hsame.1 hsame.2.subset⟩
    rw [hsame.2]
  | invalidate tb =>
    obtain ⟨buckets, pageList, chained, hk⟩ := h
    obtain ⟨t, hsettles, hgood, hlive, htbs, -⟩ := hk.tbPhysInvalidate hallowed
    refine ⟨t, hsettles, hgood, fun _ b ↦ ?_, fun _ htwo ↦ htwo.mono htbs ?_⟩
    · rw [hlive]
      exact Finset.mem_erase
    · rw [hlive]
      exact Finset.erase_subset tb s.live
  | invalidateRange start stop isCpuWriteAccess =>
    obtain ⟨t, hsettles, hgood, htbs, hsub, hlive⟩ :=
      h.invalidates (honce _ rfl) hallowed.1 hallowed.2 isCpuWriteAccess
    exact ⟨t, hsettles, hgood, fun hempty b ↦ hlive (hempty _ rfl) b, fun _ htwo ↦ htwo.mono htbs hsub⟩
  | flush =>
    refine ⟨_, .of_forall fun _ ↦ rfl, h.flush, fun _ b ↦ ?_, fun _ _ b hb ↦ ?_⟩
    · exact iff_of_false (Finset.notMem_empty b) id
    · exact absurd hb (Finset.notMem_empty b)
  | write start len =>
    obtain ⟨t, hsettles, hgood, htbs, hlive⟩ := h.write hallowed.1 hallowed.2 (honce _ rfl)
    exact ⟨t, hsettles, hgood, fun _ ↦ hlive, fun _ htwo ↦ htwo.mono htbs fun b hb ↦ ((hlive b).mp hb).1⟩

theorem Outcome.of_settles {t : State} (h : ∃ s', Settles (fun fuel ↦ Blocks.step fuel s op) s' ∧ s.Outcome s' op)
    (ht : Settles (fun fuel ↦ Blocks.step fuel s op) t) : s.Outcome t op := by
  obtain ⟨s', hsettles, houtcome⟩ := h
  rwa [ht.unique hsettles]

/-- Each live block is once in its hash bucket and once in the list of each of its pages, with the
number of the page, and each circular list has the exits that are chained to its block. Nothing
else is on the lists, and no live block is chained to one that is not. -/
structure Booked (s : State) : Prop where
  hash : ∀ h, ∃ l, hashLists.Follows s.hash none (s.hash (.tbPhysHash h)) l ∧ l.Nodup ∧
    ∀ tb, tb ∈ l ↔ tb ∈ s.live ∧ (s.tbs tb).bucket = some h
  page : ∀ p, ∃ l, pageLists.Follows s.page none (s.page (.firstTb p)) l ∧ l.Nodup ∧
    ∀ tb n, (tb, n) ∈ l ↔ tb ∈ s.live ∧ (s.tbs tb).pageAddr n = some p
  jmp : ∀ t ∈ s.live, ∃ l, jmpLists.Follows s.jmp (some (.owner t)) (s.jmp (.jmpFirst t)) l ∧ l.Nodup ∧
    ∀ tb n, (tb, n) ∈ l ↔ tb ∈ s.live ∧ s.jmpTarget tb n = some t
  chained : ∀ tb ∈ s.live, ∀ n t, s.jmpTarget tb n = some t → t ∈ s.live

theorem Good.booked (h : s.Good) : s.Booked := by
  obtain ⟨buckets, pageList, chained, h⟩ := h
  refine ⟨fun i ↦ ?_, fun p ↦ ?_, fun t ht ↦ ?_, fun tb htb n t ht ↦ ?_⟩
  · refine ⟨buckets i, h.hash.follows i trivial, h.hash.nodup i trivial, fun tb ↦ ?_⟩
    exact (h.hash.mem_iff i trivial tb).trans Option.ite_none_right_eq_some
  · refine ⟨pageList p, h.page.follows p trivial, h.page.nodup p trivial, fun tb n ↦ ?_⟩
    exact (h.page.mem_iff p trivial (tb, n)).trans Option.ite_none_right_eq_some
  · refine ⟨chained t, h.jmp.follows t ht, h.jmp.nodup t ht, fun tb n ↦ ?_⟩
    exact (h.jmp.mem_iff t ht (tb, n)).trans Option.ite_none_right_eq_some
  · exact h.target_live (tb, n) t ((if_pos htb).trans ht)

theorem Good.run {ops : List Op} {t : State} (hs : s.Good) (h : Run (fun s op ↦ op.Allowed s ∧ op.Plain s) s ops t) :
    t.Good :=
  h.invariant hs fun _ _ _ hgood hok hsettles ↦ (Outcome.of_settles (hgood.step hok.1 hok.2.1) hsettles).good

end State

/-- The lists of blocks are in order after all operations, all operations come to an end, and they
remove the blocks that they are to remove. -/
theorem blocks_booked {ops : List Op} {s : State} (h : Run (fun s op ↦ op.Allowed s ∧ op.Plain s) boot ops s) :
    s.Booked ∧ ∀ op : Op, op.Allowed s → op.Plain s →
      ∃ s', Settles (fun fuel ↦ step fuel s op) s' ∧ s'.Booked ∧ op.Leaves s s' := by
  have hgood := State.good_boot.run h
  refine ⟨hgood.booked, fun op hallowed hplain ↦ ?_⟩
  obtain ⟨s', hsettles, houtcome⟩ := hgood.step hallowed hplain.1
  exact ⟨s', hsettles, houtcome.good.booked, houtcome.leaves hplain.2⟩

/-- A block that ends at the start of the page it begins on. -/
def wrapped : Op := .link 0 4 1024 (fun _ ↦ 0) 4 (some 0)

def wrappedLinked : State := (boot.cpuGenCode 0 4 1024 fun _ ↦ 0).tbLinkPage 0 4 (some 0)

theorem wrapped_allowed : wrapped.Allowed boot := by
  refine ⟨Finset.notMem_empty 0, by decide, by decide, by decide, ?_⟩
  unfold Crosses Tlb.samePage
  decide

theorem blocks_booked_wrapped : (wrappedLinked.tbAddJump 0 0 0).Booked ∧
    ∀ op : Op, op.Allowed (wrappedLinked.tbAddJump 0 0 0) → op.Plain (wrappedLinked.tbAddJump 0 0 0) →
      ∃ s', Settles (fun fuel ↦ step fuel (wrappedLinked.tbAddJump 0 0 0) op) s' ∧ s'.Booked ∧
        op.Leaves (wrappedLinked.tbAddJump 0 0 0) s' :=
  have hlive : 0 ∈ wrappedLinked.live := Finset.mem_insert_self 0 ∅
  have hallowed : (Op.addJump 0 0 0).Allowed wrappedLinked := ⟨hlive, hlive⟩
  blocks_booked (.cons ⟨wrapped_allowed, Op.plain_of_range rfl⟩ (.of_forall fun _ ↦ rfl)
    (.cons ⟨hallowed, Op.plain_of_range rfl⟩ (.of_forall fun _ ↦ rfl) (.nil _)))

/-- The walk goes on from the entry of a block that it has removed, and removes it again. -/
theorem blocks_booked_fails : ¬ ∀ ops s, Run (fun s op ↦ op.Allowed s) boot ops s →
    s.Booked ∧ ∀ op : Op, op.Allowed s →
      ∃ s', Settles (fun fuel ↦ step fuel s op) s' ∧ s'.Booked ∧ op.Leaves s s' := by
  intro h
  obtain ⟨-, hall⟩ := h [wrapped] wrappedLinked (.cons wrapped_allowed (.of_forall fun _ ↦ rfl) (.nil _))
  obtain ⟨s', ⟨n, hn⟩, -⟩ := hall (.invalidateRange 0 8 false) ⟨by decide, by decide⟩
  have hfault : step (n + 10) wrappedLinked (.invalidateRange 0 8 false) = none := rfl
  cases hfault.symm.trans (hn (n + 10) (Nat.le_add_right n 10))

/-- A page's bitmap has all bytes of its blocks, the check of it removes what the search of the
list would remove, and the bits of a range on a page are set in it and no others. -/
theorem codeBitmap_exact {ops : List Op} {s : State}
    (h : Run (fun s op ↦ op.Allowed s ∧ op.Distinct) boot ops s) :
    (∀ p tab, (s.pageDesc p).codeBitmap = some tab → tab.length * 8 = targetPageSize ∧
      ∀ l, pageLists.Follows s.page none (s.page (.firstTb p)) l → ∀ x ∈ l, ∀ a, a / targetPageSize = p →
        (s.tbs x.1).Occupies a → bit tab (a % targetPageSize) = true) ∧
    (∀ start len, State.Width len → len ∣ start → ∃ s₁ s₂,
      Settles (fun fuel ↦ s.tbInvalidatePhysPageFast fuel start len) s₁ ∧
      Settles (fun fuel ↦ s.tbInvalidatePhysPageRange fuel start (start + len) true) s₂ ∧
      s₁.Booked ∧ s₂.Booked ∧ s₁.live = s₂.live) ∧
    ∀ (tab : List (BitVec 8)) (start len : Nat), tab.length * 8 = targetPageSize → start + len ≤ targetPageSize →
      ∃ tab', setBits tab start len = some tab' ∧ tab'.length = tab.length ∧
        ∀ j, bit tab' j = (bit tab j || decide (start ≤ j ∧ j < start + len)) := by
  have hinv : s.Good ∧ s.TwoPages := by
    have hboot : boot.Good ∧ boot.TwoPages :=
      ⟨State.good_boot, fun tb htb ↦ absurd htb (Finset.notMem_empty tb)⟩
    refine h.invariant (P := fun s ↦ s.Good ∧ s.TwoPages) hboot ?_
    intro s op t ⟨hgood, htwo⟩ ⟨hallowed, hdistinct⟩ hsettles
    have houtcome := State.Outcome.of_settles (hgood.step hallowed fun r _ ↦ htwo.hitOnce r.1 r.2) hsettles
    exact ⟨houtcome.good, houtcome.twoPages hdistinct htwo⟩
  obtain ⟨hgood, htwo⟩ := hinv
  refine ⟨fun p tab htab ↦ ?_, fun start len hlen hdvd ↦ ?_, fun tab start len hlen hle ↦ ?_⟩
  · obtain ⟨buckets, pageList, chained, hk⟩ := hgood
    obtain ⟨hsize, hbits⟩ := hk.bitmap p tab htab
    refine ⟨hsize, fun l hl x hx a ha hocc ↦ ?_⟩
    obtain rfl := hl.unique (fun _ heq ↦ by cases heq) (hk.page.follows p trivial)
    obtain ⟨hlive, -⟩ := Option.ite_none_right_eq_some.mp ((hk.page.mem_iff p trivial x).mp hx)
    obtain ⟨n, hn, hpart⟩ := ((hk.sound x.1 hlive).occupies_iff a).mp hocc
    rw [ha] at hn
    exact hbits (x.1, n) ((if_pos hlive).trans hn) _ hpart
  · obtain ⟨s₁, hfast, hgood₁, -, hlive₁⟩ := hgood.write hlen hdvd (htwo.hitOnce _ _)
    obtain ⟨s₂, hrange, hgood₂, -, -, hlive₂⟩ :=
      hgood.invalidates (htwo.hitOnce _ _) (Nat.le_add_right start len) (hlen.fits hdvd).2 true
    refine ⟨s₁, s₂, hfast, hrange, hgood₁.booked, hgood₂.booked, Finset.ext fun b ↦ ?_⟩
    have hpos : start ≠ start + len := by
      rcases hlen with rfl | rfl | rfl | rfl <;> omega
    exact (hlive₁ b).trans (hlive₂ (fun heq ↦ absurd heq hpos) b).symm
  · exact setBits_bits (hlen ▸ hle)

/-- A page of 16-bit instructions that ends with the first half of a 32-bit one. -/
def spanning : Op := .link 0 0 1026 (fun _ ↦ 0) 0 (some 1)

def spanningLinked : State := (boot.cpuGenCode 0 0 1026 fun _ ↦ 0).tbLinkPage 0 0 (some 1)

theorem spanning_allowed : spanning.Allowed boot ∧ spanning.Distinct := by
  refine ⟨⟨Finset.notMem_empty 0, by decide, by decide, by decide, ?_⟩, ?_⟩
  · unfold Crosses Tlb.samePage
    decide
  · unfold Op.Distinct spanning
    decide

/-- After writes to the second page that do not meet the block. -/
def spanningWritten (desc : PageDesc) : State :=
  { spanningLinked with pageDesc := Function.update spanningLinked.pageDesc 1 desc }

def spanningBitmap : List (BitVec 8) := (List.replicate (targetPageSize / 8) 0).set 0 3

theorem spanningWritten_again (desc desc' : PageDesc) :
    { spanningWritten desc with pageDesc := Function.update (spanningWritten desc).pageDesc 1 desc' } =
      spanningWritten desc' := by
  unfold spanningWritten
  simp only [Function.update_idem]

theorem spanningWritten_zero : spanningWritten .zero = spanningLinked :=
  congrArg (fun pageDesc ↦ { spanningLinked with pageDesc }) (Function.update_eq_self 1 spanningLinked.pageDesc)

theorem spanningBitmap_eq : setBits (List.replicate (targetPageSize / 8) 0) 0 (2 - 0) = some spanningBitmap := by
  have hor : orByte (List.replicate (targetPageSize / 8) 0) 0 3 = some spanningBitmap := by
    rw [orByte, dif_pos (by rw [List.length_replicate]; decide), List.getElem_replicate]
    rfl
  unfold setBits
  rw [if_pos (by decide), if_pos (by decide)]
  exact hor

/-- The first writes are counted, and the tenth has the bitmap built. -/
theorem spanningWritten_write (count : BitVec 32) :
    Settles (fun fuel ↦ step fuel (spanningWritten ⟨count, none⟩) (.write 1032 4))
      (spanningWritten ⟨count + 1, if count + 1 ≥ smcBitmapUseThreshold then some spanningBitmap else none⟩) := by
  refine ⟨2, fun fuel hfuel ↦ ?_⟩
  obtain ⟨turns, rfl⟩ := Nat.exists_eq_add_of_le' hfuel
  have hdesc : (spanningWritten ⟨count, none⟩).pageFind 1 = some ⟨count, none⟩ := rfl
  have hdesc' : (spanningWritten ⟨count, none⟩).pageDesc 1 = ⟨count, none⟩ := rfl
  have hfirst (desc : PageDesc) : (spanningWritten desc).page (.firstTb 1) = some (0, 1) := rfl
  have hnext (desc : PageDesc) : (spanningWritten desc).page (.pageNext 0 1) = none := rfl
  have hmiss (desc : PageDesc) : ((spanningWritten desc).tbs 0).hit 1 1032 (1032 + 4) = false :=
    (by decide : (spanningLinked.tbs 0).hit 1 1032 (1032 + 4) = false)
  have hpart (desc : PageDesc) : ((spanningWritten desc).tbs 0).bitmapPart 1 = (0, 2) :=
    (by decide : (spanningLinked.tbs 0).bitmapPart 1 = (0, 2))
  have hbuild (desc : PageDesc) : buildPageBitmap (turns + 2) (spanningWritten desc) 1 = some spanningBitmap := by
    simp only [buildPageBitmap, hfirst, buildPageBitmapFrom, hpart, spanningBitmap_eq, hnext, Option.bind_some]
  have hpage : 1032 / targetPageSize = 1 := rfl
  have hwalk (desc : PageDesc) : State.invalidateFrom (turns + 2) 1032 (1032 + 4) (turns + 2) (some (0, 1))
      (spanningWritten desc) = some (spanningWritten desc) := by
    simp only [State.invalidateFrom, hnext, hmiss, Bool.false_eq_true, if_false]
  have hcount : (spanningWritten ⟨count, none⟩).countWrite (turns + 2) 1 true =
      some (spanningWritten ⟨count + 1, if count + 1 ≥ smcBitmapUseThreshold then some spanningBitmap else none⟩) := by
    simp only [State.countWrite, hdesc', spanningWritten_again, Option.isNone_none, if_true, Bool.and_true,
      decide_eq_true_eq, hbuild, Option.map_some]
    split_ifs
    · rw [Function.update_idem, spanningWritten_again]
    · rfl
  simp only [step, State.tbInvalidatePhysPageFast, State.tbInvalidatePhysPageRange, hpage, hdesc, hcount]
  simp [hwalk, hfirst]

theorem spanningWritten_run : Run (fun s op ↦ op.Allowed s ∧ op.Distinct) boot
    (spanning :: List.replicate 10 (.write 1032 4)) (spanningWritten ⟨10, some spanningBitmap⟩) := by
  have hallowed (s : State) : (Op.write 1032 4).Allowed s ∧ (Op.write 1032 4).Distinct :=
    ⟨⟨.inr (.inr (.inl rfl)), by decide⟩, trivial⟩
  have hwrite {count : BitVec 32} {t : State} {ops : List Op}
      (h : Run (fun s op ↦ op.Allowed s ∧ op.Distinct)
        (spanningWritten ⟨count + 1, if count + 1 ≥ smcBitmapUseThreshold then some spanningBitmap else none⟩) ops t) :
      Run (fun s op ↦ op.Allowed s ∧ op.Distinct) (spanningWritten ⟨count, none⟩) (.write 1032 4 :: ops) t :=
    .cons (hallowed _) (spanningWritten_write count) h
  refine .cons (t := spanningWritten .zero) spanning_allowed (.of_forall fun _ ↦ ?_) ?_
  · exact congrArg some spanningWritten_zero.symm
  · iterate 10 refine hwrite ?_
    exact .nil _

/-- The last byte of the block is in the bitmap of the second page, and a write to it has the block
removed as the search of the list would. -/
theorem codeBitmap_exact_spanning : bit spanningBitmap 1 = true ∧ ∃ s₁ s₂,
    Settles (fun fuel ↦ (spanningWritten ⟨10, some spanningBitmap⟩).tbInvalidatePhysPageFast fuel 1024 4) s₁ ∧
    Settles (fun fuel ↦
      (spanningWritten ⟨10, some spanningBitmap⟩).tbInvalidatePhysPageRange fuel 1024 (1024 + 4) true) s₂ ∧
    s₁.Booked ∧ s₂.Booked ∧ s₁.live = s₂.live :=
  have hlist : pageLists.Follows spanningLinked.page none (spanningLinked.page (.firstTb 1)) [(0, 1)] := ⟨rfl, rfl⟩
  have hlast : (spanningLinked.tbs 0).Occupies 1025 := ⟨1025, by decide, by decide⟩
  ⟨((codeBitmap_exact spanningWritten_run).1 1 _ rfl).2 _ hlist _ (List.mem_singleton_self _) 1025 rfl hlast,
    (codeBitmap_exact spanningWritten_run).2.1 1024 4 (.inr (.inr (.inl rfl))) (by decide)⟩

end IDeviceEmulator.Exec.Blocks
