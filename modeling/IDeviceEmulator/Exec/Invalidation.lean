import IDeviceEmulator.Exec.Bookkeeping

namespace IDeviceEmulator.Exec.Blocks

open Loop (Settles)

namespace State

variable {s : State} {tb : Tb}

section Bitmap

theorem buildPageBitmapFrom_bits {l : List PageLink} {y : Option PageLink} {tab : List (BitVec 8)}
    (h : pageLists.Follows s.page none y l) (hlen : tab.length * 8 = targetPageSize) :
    ∃ tab', (∀ fuel, l.length < fuel → buildPageBitmapFrom s fuel y tab = some tab') ∧ tab'.length = tab.length ∧
      ∀ j, bit tab' j = true ↔ bit tab j = true ∨ ∃ x ∈ l, (s.tbs x.1).InPart x.2 j := by
  induction l generalizing y tab with
  | nil =>
    obtain rfl : y = none := h
    refine ⟨tab, fun fuel hfuel ↦ ?_, rfl, fun j ↦ by simp⟩
    obtain ⟨k, rfl⟩ := Nat.exists_eq_add_of_lt hfuel
    rw [List.length_nil, Nat.zero_add]
    rfl
  | cons x l ih =>
    obtain ⟨b, n⟩ := x
    obtain ⟨hy, hrest⟩ := h
    obtain rfl : y = some (b, n) := hy
    obtain ⟨hle, hend⟩ := (s.tbs b).bitmapPart_le n
    have hfits : ((s.tbs b).bitmapPart n).1 + (((s.tbs b).bitmapPart n).2 - ((s.tbs b).bitmapPart n).1) ≤
        tab.length * 8 := by
      rw [Nat.add_sub_of_le hle, hlen]
      exact hend
    obtain ⟨tab₁, hset, hlen₁, hbits₁⟩ := setBits_bits hfits
    obtain ⟨tab', hbuild, hlen', hbits'⟩ := ih hrest (hlen₁ ▸ hlen)
    refine ⟨tab', fun fuel hfuel ↦ ?_, hlen'.trans hlen₁, fun j ↦ ?_⟩
    · obtain ⟨k, rfl⟩ : ∃ k, fuel = k + 1 := ⟨fuel - 1, by omega⟩
      rw [buildPageBitmapFrom, hset, Option.bind_some]
      exact hbuild k (Nat.lt_of_succ_lt_succ hfuel)
    · rw [hbits' j, hbits₁ j, Nat.add_sub_of_le hle]
      simp [TranslationBlock.InPart, or_assoc]

variable {buckets : Nat → List Tb} {pageList : Page → List PageLink} {chained : Tb → List (Tb × Fin 2)}

theorem Kept.buildPageBitmap (h : s.Kept buckets pageList chained) (p : Page) :
    ∃ tab, Settles (fun fuel ↦ buildPageBitmap fuel s p) tab ∧ s.Marked p tab := by
  have hlen : (List.replicate (targetPageSize / 8) (0 : BitVec 8)).length * 8 = targetPageSize := by
    rw [List.length_replicate]
    rfl
  obtain ⟨tab, hbuild, hlen', hbits⟩ := buildPageBitmapFrom_bits (h.page.follows p trivial) hlen
  refine ⟨tab, ⟨(pageList p).length + 1, hbuild⟩, hlen'.symm ▸ hlen, fun x hx j hj ↦ ?_⟩
  exact (hbits j).mpr (.inr ⟨x, (h.page.mem_iff p trivial x).mpr hx, hj⟩)

/-- The descriptors of pages can change as long as the bitmaps have all bytes of blocks. -/
theorem Kept.pageDesc (h : s.Kept buckets pageList chained) {pageDesc : Page → PageDesc}
    (hmarked : ∀ p tab, (pageDesc p).codeBitmap = some tab → s.Marked p tab) :
    State.Kept { s with pageDesc } buckets pageList chained :=
  ⟨h.hash, h.page, h.spaced, h.jmp, h.target_live, h.unchained, h.sound, h.allocated, hmarked⟩

theorem Kept.updateDesc (h : s.Kept buckets pageList chained) {p : Page} {desc : PageDesc}
    (hmarked : ∀ tab, desc.codeBitmap = some tab → s.Marked p tab) :
    State.Kept { s with pageDesc := Function.update s.pageDesc p desc } buckets pageList chained := by
  refine h.pageDesc fun q tab hq ↦ ?_
  by_cases hqp : q = p
  · subst hqp
    rw [Function.update_self] at hq
    exact hmarked tab hq
  · rw [Function.update_of_ne hqp] at hq
    exact h.bitmap q tab hq

theorem Kept.countWrite (h : s.Kept buckets pageList chained) (p : Page) (isCpuWriteAccess : Bool) :
    ∃ pageDesc, Settles (fun fuel ↦ s.countWrite fuel p isCpuWriteAccess) { s with pageDesc } ∧
      State.Kept { s with pageDesc } buckets pageList chained := by
  unfold State.countWrite
  by_cases hnone : (s.pageDesc p).codeBitmap.isNone
  · simp only [if_pos hnone]
    have hno : ∀ tab, (s.pageDesc p).codeBitmap = some tab → s.Marked p tab := fun tab htab ↦ h.bitmap p tab htab
    let desc := { s.pageDesc p with codeWriteCount := (s.pageDesc p).codeWriteCount + 1 }
    have hcounted : State.Kept { s with pageDesc := Function.update s.pageDesc p desc } buckets pageList chained :=
      h.updateDesc hno
    split_ifs with hbuild
    · obtain ⟨tab, htab, hmarked⟩ := hcounted.buildPageBitmap p
      refine ⟨_, htab.map (g := fun tab ↦ { s with
        pageDesc := Function.update (Function.update s.pageDesc p desc) p { desc with codeBitmap := some tab } }), ?_⟩
      refine hcounted.updateDesc fun tab' htab' ↦ ?_
      cases htab'
      exact hmarked
    · exact ⟨_, .of_forall fun _ ↦ rfl, hcounted⟩
  · simp only [if_neg hnone]
    exact ⟨s.pageDesc, .of_forall fun _ ↦ rfl, h⟩

end Bitmap

section Range

variable {start stop : Nat}

/-- An entry of a list is taken on if it is one of a live block on the page or the range does not hit it. -/
theorem invalidateFrom_settles {p : Page} {l : List PageLink} {y : Option PageLink} (h : s.Good)
    (hfollows : pageLists.Follows s.page none y l) (hspaced : Spaced l) (hnodup : l.Nodup)
    (hentry : ∀ x ∈ l, s.pagePlace x = some p ∨ (s.tbs x.1).hit x.2 start stop = false)
    (honce : ∀ x ∈ l, ∀ z ∈ l, x.1 = z.1 → (s.tbs x.1).hit x.2 start stop = true →
      (s.tbs z.1).hit z.2 start stop = true → x = z) :
    ∃ s' n, (∀ fuel, n ≤ fuel → ∀ turns, l.length < turns → invalidateFrom fuel start stop turns y s = some s') ∧
      s'.Good ∧ s'.tbs = s.tbs ∧ s'.l1Map = s.l1Map ∧
      ∀ b, b ∈ s'.live ↔ b ∈ s.live ∧ ∀ x ∈ l, x.1 = b → (s.tbs x.1).hit x.2 start stop = false := by
  induction l generalizing s y with
  | nil =>
    obtain rfl : y = none := hfollows
    refine ⟨s, 0, fun fuel _ turns hturns ↦ ?_, h, rfl, rfl, fun b ↦ by simp⟩
    obtain ⟨k, rfl⟩ : ∃ k, turns = k + 1 := ⟨turns - 1, by omega⟩
    rfl
  | cons x l ih =>
    obtain ⟨tb, n⟩ := x
    obtain ⟨hy, hrest⟩ := hfollows
    obtain rfl : y = some (tb, n) := hy
    obtain ⟨hx, hnodup⟩ := List.nodup_cons.mp hnodup
    have hturn : ∀ {turns}, ((tb, n) :: l).length < turns → ∃ k, turns = k + 1 ∧ l.length < k := by
      intro turns hturns
      rw [List.length_cons] at hturns
      exact ⟨turns - 1, by omega, by omega⟩
    by_cases hhit : (s.tbs tb).hit n start stop = true
    · -- the block goes, and with it the entry that may come next
      have hlive : tb ∈ s.live := by
        rcases hentry (tb, n) List.mem_cons_self with hplace | hmiss
        · exact (Option.ite_none_right_eq_some.mp hplace).1
        · cases hhit.symm.trans hmiss
      obtain ⟨buckets, pageList, chained, hkept⟩ := h
      obtain ⟨t, hsettles, hgood, htlive, httbs, htl1, hframe⟩ := hkept.tbPhysInvalidate hlive
      have hplace : ∀ z : PageLink, z.1 ≠ tb → t.pagePlace z = s.pagePlace z := by
        intro z hz
        simp [pagePlace, htlive, httbs, hz]
      have hstays : pageLists.Follows t.page none (s.page (.pageNext tb n)) l := by
        refine hrest.congr fun z hz ↦ hframe _ fun m hm ↦ ?_
        rcases hrest.next hz with hend | ⟨w, hw, hptr⟩
        · cases hend.symm.trans hm
        · obtain rfl : w = (tb, m) := Option.some.inj (hptr.symm.trans hm)
          exact hspaced.1 _ hw rfl
      have hentry' : ∀ z ∈ l, t.pagePlace z = some p ∨ (t.tbs z.1).hit z.2 start stop = false := by
        intro z hz
        rw [httbs]
        by_cases hztb : z.1 = tb
        · right
          refine Bool.eq_false_iff.mpr fun hzhit ↦ hx ?_
          rw [honce (tb, n) List.mem_cons_self z (List.mem_cons_of_mem _ hz) hztb.symm hhit hzhit]
          exact hz
        · rw [hplace z hztb]
          exact hentry z (List.mem_cons_of_mem _ hz)
      obtain ⟨s', m, hrun, hgood', htbs', hl1', hlive'⟩ := ih hgood hstays hspaced.2 hnodup hentry' (by
        intro x hx z hz
        rw [httbs]
        exact honce x (List.mem_cons_of_mem _ hx) z (List.mem_cons_of_mem _ hz))
      obtain ⟨k, hk⟩ := hsettles
      refine ⟨s', max k m, fun fuel hfuel turns hturns ↦ ?_, hgood', htbs'.trans httbs, hl1'.trans htl1, fun b ↦ ?_⟩
      · obtain ⟨turns, rfl, hlen⟩ := hturn hturns
        rw [invalidateFrom]
        simp only [if_pos hhit, hk fuel (Nat.le_trans (Nat.le_max_left k m) hfuel), Option.bind_some]
        exact hrun fuel (Nat.le_trans (Nat.le_max_right k m) hfuel) turns hlen
      · rw [hlive', htlive, httbs, Finset.mem_erase]
        constructor
        · rintro ⟨⟨hb, hbs⟩, hmiss⟩
          refine ⟨hbs, fun z hz hzb ↦ ?_⟩
          rcases List.mem_cons.mp hz with rfl | hz
          · exact absurd hzb.symm hb
          · exact hmiss z hz hzb
        · rintro ⟨hbs, hmiss⟩
          refine ⟨⟨?_, hbs⟩, fun z hz ↦ hmiss z (List.mem_cons_of_mem _ hz)⟩
          rintro rfl
          cases hhit.symm.trans (hmiss (b, n) List.mem_cons_self rfl)
    · have hmiss : (s.tbs tb).hit n start stop = false := Bool.eq_false_iff.mpr hhit
      obtain ⟨s', m, hrun, hgood', htbs', hl1', hlive'⟩ := ih h hrest hspaced.2 hnodup
        (fun z hz ↦ hentry z (List.mem_cons_of_mem _ hz))
        fun x hx z hz ↦ honce x (List.mem_cons_of_mem _ hx) z (List.mem_cons_of_mem _ hz)
      refine ⟨s', m, fun fuel hfuel turns hturns ↦ ?_, hgood', htbs', hl1', fun b ↦ ?_⟩
      · obtain ⟨turns, rfl, hlen⟩ := hturn hturns
        rw [invalidateFrom]
        simp only [if_neg hhit]
        exact hrun fuel hfuel turns hlen
      · rw [hlive']
        refine and_congr_right fun _ ↦ ⟨fun hl z hz hzb ↦ ?_, fun hl z hz ↦ hl z (List.mem_cons_of_mem _ hz)⟩
        rcases List.mem_cons.mp hz with rfl | hz
        · exact hmiss
        · exact hl z hz hzb

/-- No block with both its pages on one is hit in both parts. -/
def HitOnce (s : State) (start stop : Nat) : Prop :=
  ∀ tb ∈ s.live, (s.tbs tb).pageAddr 0 = (s.tbs tb).pageAddr 1 →
    ¬ ((s.tbs tb).hit 0 start stop = true ∧ (s.tbs tb).hit 1 start stop = true)

/-- An empty range hits no block. -/
def EmptyMisses (s : State) (start stop : Nat) : Prop :=
  start = stop → ∀ tb ∈ s.live, ∀ n, (s.tbs tb).hit n start stop = false

theorem Good.invalidateBitmap (h : s.Good) (p : Page) : (s.invalidatePageBitmap p).Good := by
  obtain ⟨buckets, pageList, chained, h⟩ := h
  exact ⟨buckets, pageList, chained, h.updateDesc fun tab htab ↦ by cases htab⟩

/-- What an invalidation of a range on a page comes to. -/
theorem Good.range (h : s.Good) (honce : s.HitOnce start stop) (isCpuWriteAccess : Bool) :
    ∃ s', Settles (fun fuel ↦ s.tbInvalidatePhysPageRange fuel start stop isCpuWriteAccess) s' ∧ s'.Good ∧
      s'.tbs = s.tbs ∧ ∀ b, b ∈ s'.live ↔ b ∈ s.live ∧
        ∀ n, s.pagePlace (b, n) = some (start / targetPageSize) → (s.tbs b).hit n start stop = false := by
  obtain ⟨buckets, pageList, chained, hk⟩ := h
  unfold tbInvalidatePhysPageRange
  by_cases halloc : s.l1Map (start / targetPageSize / l2Size) = true
  · have hfind : s.pageFind (start / targetPageSize) = some (s.pageDesc (start / targetPageSize)) := if_pos halloc
    simp only [hfind]
    obtain ⟨pageDesc, hcount, hk'⟩ := hk.countWrite (start / targetPageSize) isCpuWriteAccess
    have hlist := hk.page.mem_iff (start / targetPageSize) trivial
    have hpair : ∀ x ∈ pageList (start / targetPageSize), ∀ z ∈ pageList (start / targetPageSize), x.1 = z.1 →
        (s.tbs x.1).hit x.2 start stop = true → (s.tbs z.1).hit z.2 start stop = true → x = z := by
      rintro ⟨b, m⟩ hx ⟨b', m'⟩ hz heq hit hit'
      obtain rfl : b = b' := heq
      obtain ⟨hblive, hpage⟩ := Option.ite_none_right_eq_some.mp ((hlist _).mp hx)
      obtain ⟨-, hpage'⟩ := Option.ite_none_right_eq_some.mp ((hlist _).mp hz)
      have hboth := honce b hblive
      match m, m' with
      | 0, 0 => rfl
      | 1, 1 => rfl
      | 0, 1 => exact absurd ⟨hit, hit'⟩ (hboth (hpage.trans hpage'.symm))
      | 1, 0 => exact absurd ⟨hit', hit⟩ (hboth (hpage'.trans hpage.symm))
    obtain ⟨t, n, hrun, hgood, htbs, -, hlive⟩ := invalidateFrom_settles ⟨_, _, _, hk'⟩
      (hk.page.follows (start / targetPageSize) trivial) (hk.spaced _)
      (hk.page.nodup (start / targetPageSize) trivial) (fun x hx ↦ .inl ((hlist x).mp hx)) hpair
    refine ⟨_, hcount.bind (Settles.bind ⟨max n ((pageList (start / targetPageSize)).length + 1), fun fuel hfuel ↦
      hrun fuel (Nat.le_trans (Nat.le_max_left _ _) hfuel) fuel (Nat.le_trans (Nat.le_max_right _ _) hfuel)⟩
      (.of_forall fun _ ↦ rfl)), ?_, ?_, fun b ↦ ?_⟩
    · split_ifs
      · exact hgood.invalidateBitmap _
      · exact hgood
    · split_ifs
      · exact htbs
      · exact htbs
    · have hsame : b ∈ State.live (if (t.page (.firstTb (start / targetPageSize))).isNone then
          t.invalidatePageBitmap (start / targetPageSize) else t) ↔ b ∈ t.live := by
        split_ifs <;> rfl
      refine hsame.trans ((hlive b).trans (and_congr_right fun _ ↦ ?_))
      refine ⟨fun hmiss n hn ↦ hmiss (b, n) ((hlist _).mpr hn) rfl, ?_⟩
      rintro hmiss ⟨b', n⟩ hx rfl
      exact hmiss n ((hlist _).mp hx)
  · have hfind : s.pageFind (start / targetPageSize) = none := if_neg halloc
    simp only [hfind]
    refine ⟨s, .of_forall fun _ ↦ rfl, ⟨_, _, _, hk⟩, rfl, fun b ↦ (and_iff_left fun n hn ↦ ?_).symm⟩
    exact absurd (hk.allocated _ _ hn) halloc

/-- The live blocks without a byte in the range. -/
def Spared (s : State) (start stop : Nat) (tb : Tb) : Prop :=
  tb ∈ s.live ∧ ¬ ∃ a, start ≤ a ∧ a < stop ∧ (s.tbs tb).Occupies a

theorem Good.page_of_range {a : Nat} (hstart : start ≤ a) (hastop : a < stop)
    (hstop : stop ≤ (start / targetPageSize + 1) * targetPageSize) : a / targetPageSize = start / targetPageSize := by
  rw [targetPageSize_eq] at hstop ⊢
  omega

/-- On one page the entries that are hit are those of blocks with bytes in the range. -/
theorem Good.spared_iff (h : s.Good) (hempty : s.EmptyMisses start stop) (hle : start ≤ stop)
    (hstop : stop ≤ (start / targetPageSize + 1) * targetPageSize) (b : Tb) :
    s.Spared start stop b ↔ b ∈ s.live ∧
      ∀ n, s.pagePlace (b, n) = some (start / targetPageSize) → (s.tbs b).hit n start stop = false := by
  obtain ⟨buckets, pageList, chained, hk⟩ := h
  refine and_congr_right fun hb ↦ ?_
  rcases Nat.lt_or_eq_of_le hle with hlt | rfl
  · have hsound := hk.sound b hb
    have hplace : ∀ n, s.pagePlace (b, n) = (s.tbs b).pageAddr n := fun n ↦ if_pos hb
    constructor
    · intro hnone n hn
      rw [hplace] at hn
      refine Bool.eq_false_iff.mpr fun hhit ↦ hnone ?_
      obtain ⟨a, hstart, hastop, hpart⟩ := (hsound.hit_iff hn hlt hstop).mp hhit
      refine ⟨a, hstart, hastop, (hsound.occupies_iff a).mpr ⟨n, ?_, hpart⟩⟩
      rw [Good.page_of_range hstart hastop hstop]
      exact hn
    · rintro hmiss ⟨a, hstart, hastop, hocc⟩
      obtain ⟨n, hn, hpart⟩ := (hsound.occupies_iff a).mp hocc
      rw [Good.page_of_range hstart hastop hstop] at hn
      have hhit := (hsound.hit_iff hn hlt hstop).mpr ⟨a, hstart, hastop, hpart⟩
      cases hhit.symm.trans (hmiss n ((hplace n).trans hn))
  · refine ⟨fun _ n _ ↦ hempty rfl b hb n, fun _ ↦ ?_⟩
    rintro ⟨a, hstart, hastop, -⟩
    omega

end Range

section Fast

theorem getLsbD_of_masked {byte : BitVec 8} {k len : Nat} (h : (byte >>> k).toNat &&& (1 <<< len - 1) = 0) {i : Nat}
    (hi : i < len) : byte.getLsbD (k + i) = false := by
  have hbit := congrArg (Nat.testBit · i) h
  simp only [Nat.testBit_and, Nat.one_shiftLeft, Nat.testBit_two_pow_sub_one, hi, decide_true, Bool.and_true,
    Nat.zero_testBit] at hbit
  rwa [← BitVec.getLsbD_ushiftRight]

/-- The lengths that a write can have. -/
def Width (len : Nat) : Prop := len = 1 ∨ len = 2 ∨ len = 4 ∨ len = 8

theorem Width.fits {start len : Nat} (h : Width len) (hdvd : len ∣ start) :
    start % 8 + len ≤ 8 ∧ start + len ≤ (start / targetPageSize + 1) * targetPageSize := by
  obtain ⟨k, rfl⟩ := hdvd
  rw [targetPageSize_eq]
  rcases h with rfl | rfl | rfl | rfl <;> omega

/-- When a write finds none of its bits there are no blocks to remove. -/
theorem Good.fast (h : s.Good) {start len : Nat} (hlen : Width len) (hdvd : len ∣ start)
    {tab : List (BitVec 8)} (htab : (s.pageDesc (start / targetPageSize)).codeBitmap = some tab) :
    ∃ byte, tab[(start % targetPageSize) >>> 3]? = some byte ∧
      ((byte >>> (start % targetPageSize % 8)).toNat &&& (1 <<< len - 1) = 0 →
        ∀ b ∈ s.live, s.Spared start (start + len) b) := by
  obtain ⟨buckets, pageList, chained, hk⟩ := h
  obtain ⟨hsize, hbits⟩ := hk.bitmap _ tab htab
  obtain ⟨hin, hpage⟩ := hlen.fits hdvd
  rw [targetPageSize_eq] at hsize
  have hshift : (start % targetPageSize) >>> 3 = start % targetPageSize / 8 := Nat.shiftRight_eq_div_pow _ 3
  have hlt : start % targetPageSize / 8 < tab.length := by
    rw [targetPageSize_eq]
    omega
  refine ⟨tab[start % targetPageSize / 8], by rw [hshift]; exact List.getElem?_eq_getElem hlt,
    fun hzero b hb ↦ ⟨hb, ?_⟩⟩
  rintro ⟨a, hstart, hastop, hocc⟩
  obtain ⟨n, hn, hpart⟩ := ((hk.sound b hb).occupies_iff a).mp hocc
  rw [Good.page_of_range hstart hastop hpage] at hn
  have hset := hbits (b, n) ((if_pos hb).trans hn) _ hpart
  have hclear := getLsbD_of_masked hzero (i := a - start) (by omega)
  have hdiv : a % targetPageSize / 8 = start % targetPageSize / 8 := by
    rw [targetPageSize_eq]
    omega
  have hmod : a % targetPageSize % 8 = start % targetPageSize % 8 + (a - start) := by
    rw [targetPageSize_eq]
    omega
  rw [bit, hdiv, hmod, List.getElem?_eq_getElem hlt, Option.getD_some] at hset
  cases hset.symm.trans hclear

end Fast

end State

end IDeviceEmulator.Exec.Blocks
