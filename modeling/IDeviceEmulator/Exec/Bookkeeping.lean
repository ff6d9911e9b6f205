import Mathlib.Order.Fin.Basic
import IDeviceEmulator.Exec.CodeBitmap

namespace IDeviceEmulator.Exec.Blocks

open Tlb (Addr)
open Intrusive (Layout)
open Loop (Settles)

/-- An entry of a block is not followed by another of the same block, but perhaps right after it. -/
def Spaced : List PageLink → Prop
  | [] => True
  | x :: l => (∀ z ∈ l.tail, z.1 ≠ x.1) ∧ Spaced l

theorem Spaced.sublist {l l' : List PageLink} (h : Spaced l) (hsub : l'.Sublist l) : Spaced l' := by
  induction hsub with
  | slnil => trivial
  | cons x _ ih => exact ih h.2
  | cons_cons x hsub ih => exact ⟨fun z hz ↦ h.1 z (hsub.tail.subset hz), ih h.2⟩

def TranslationBlock.bucket (b : TranslationBlock) : Option Nat :=
  (b.pageAddr 0).map fun p ↦ tbPhysHashFunc (p * targetPageSize + pageOffset b.pc)

namespace State

/-- The hash bucket of a live block. -/
def hashPlace (s : State) (tb : Tb) : Option Nat := if tb ∈ s.live then (s.tbs tb).bucket else none

/-- The page that a part of a live block is on. -/
def pagePlace (s : State) (x : PageLink) : Option Page := if x.1 ∈ s.live then (s.tbs x.1).pageAddr x.2 else none

/-- The block that an exit of a live block is chained to. -/
def jmpPlace (s : State) (x : Tb × Fin 2) : Option Tb := if x.1 ∈ s.live then s.jmpTarget x.1 x.2 else none

/-- The table has a bit for each byte of the page that a live block is on. -/
def Marked (s : State) (p : Page) (tab : List (BitVec 8)) : Prop :=
  tab.length * 8 = targetPageSize ∧
    ∀ x, s.pagePlace x = some p → ∀ j, (s.tbs x.1).InPart x.2 j → bit tab j = true

structure Kept (s : State) (buckets : Nat → List Tb) (pageList : Page → List PageLink)
    (chained : Tb → List (Tb × Fin 2)) : Prop where
  hash : hashLists.Holds s.hash Set.univ s.hashPlace buckets
  page : pageLists.Holds s.page Set.univ s.pagePlace pageList
  spaced : ∀ p, Spaced (pageList p)
  jmp : jmpLists.Holds s.jmp s.live s.jmpPlace chained
  target_live : ∀ x t, s.jmpPlace x = some t → t ∈ s.live
  unchained : ∀ tb ∈ s.live, ∀ n, s.jmpTarget tb n = none → s.jmp (.jmpNext tb n) = none
  sound : ∀ tb ∈ s.live, (s.tbs tb).Sound
  allocated : ∀ x p, s.pagePlace x = some p → s.l1Map (p / l2Size) = true
  bitmap : ∀ p tab, (s.pageDesc p).codeBitmap = some tab → s.Marked p tab

variable {s : State} {tb : Tb}

section Remove

variable {place : PageLink → Option Page} {pageList : Page → List PageLink}

theorem tbRemove_settles {place : Tb → Option Nat} {buckets : Nat → List Tb} {h : Nat}
    (hk : hashLists.Holds s.hash Set.univ place buckets) (hplace : place tb = some h) :
    ∃ hash buckets', Settles (fun fuel ↦ s.tbRemove fuel h tb) { s with hash } ∧
      hashLists.Holds hash Set.univ (Function.update place tb none) buckets' := by
  have hmem : tb ∈ buckets h := (hk.mem_iff h trivial tb).mpr hplace
  obtain ⟨z, d, l₁, l₂, -, hz, -, hsettles, hholds⟩ :=
    hk.unlink_head (p := (· == some tb)) trivial hmem (beq_self_eq_true (some tb))
  obtain rfl : z = tb := Option.some.inj (beq_iff_eq.mp hz)
  exact ⟨_, _, hsettles.map, hholds⟩

/-- What holds of the pages while entries are taken off their lists. -/
def Paged (page : PageCell → Option PageLink) (place : PageLink → Option Page) : Prop :=
  ∃ pageList, pageLists.Holds page Set.univ place pageList ∧ ∀ p, Spaced (pageList p)

theorem tbPageRemove_settles {p : Page} {n : Fin 2} (hk : Paged s.page place) (hplace : place (tb, n) = some p) :
    ∃ page m, place (tb, m) = some p ∧ Settles (fun fuel ↦ s.tbPageRemove fuel p tb) { s with page } ∧
      Paged page (Function.update place (tb, m) none) ∧
      ∀ c, (∀ m, s.page c ≠ some (tb, m)) → page c = s.page c := by
  obtain ⟨pageList, hholds, hspaced⟩ := hk
  have hmem : (tb, n) ∈ pageList p := (hholds.mem_iff p trivial (tb, n)).mpr hplace
  obtain ⟨⟨tb', m⟩, d, l₁, l₂, hlist, hz, hd, hsettles, hholds'⟩ :=
    hholds.unlink_head (p := fun y ↦ y.map Prod.fst == some tb) trivial hmem (beq_self_eq_true (some tb))
  obtain rfl : tb' = tb := Option.some.inj (beq_iff_eq.mp hz)
  have hzp : (tb', m) ∈ pageList p := hlist ▸ List.mem_append_right l₁ List.mem_cons_self
  refine ⟨_, m, (hholds.mem_iff p trivial _).mp hzp, hsettles.map, ⟨_, hholds', fun q ↦ ?_⟩, fun c hc ↦ ?_⟩
  · by_cases hq : q = p
    · subst hq
      rw [Function.update_self]
      refine (hspaced q).sublist ?_
      rw [hlist]
      exact (List.Sublist.refl l₁).append (List.sublist_cons_self _ l₂)
    · rw [Function.update_of_ne hq]
      exact hspaced q
  · refine Function.update_of_ne ?_ _ _
    rintro rfl
    exact hc m hd

theorem leavePage_settles {p : Page} {n m : Fin 2} (hk : Paged s.page place) (hpage : (s.tbs tb).pageAddr n = some p)
    (hplace : place (tb, m) = some p) (halloc : s.l1Map (p / l2Size) = true) :
    ∃ page k, place (tb, k) = some p ∧
      Settles (fun fuel ↦ s.leavePage fuel tb n none)
        { s with page, pageDesc := Function.update s.pageDesc p .zero } ∧
      Paged page (Function.update place (tb, k) none) ∧
      ∀ c, (∀ m, s.page c ≠ some (tb, m)) → page c = s.page c := by
  obtain ⟨page, k, hk', hsettles, hpaged, hframe⟩ := tbPageRemove_settles hk hplace
  refine ⟨page, k, hk', ?_, hpaged, hframe⟩
  have hfind : s.pageFind p = some (s.pageDesc p) := if_pos halloc
  have hne : some p ≠ none := Option.some_ne_none p
  simp only [leavePage, hpage, hfind, if_neg hne, Option.bind_some]
  exact hsettles.map (g := fun s ↦ s.invalidatePageBitmap p)

/-- The bitmaps of `pageDesc'` were there before. -/
def NoNewBitmap (pageDesc pageDesc' : Page → PageDesc) : Prop :=
  ∀ p tab, (pageDesc' p).codeBitmap = some tab → (pageDesc p).codeBitmap = some tab

theorem noNewBitmap_update (pageDesc : Page → PageDesc) (p : Page) :
    NoNewBitmap pageDesc (Function.update pageDesc p .zero) := by
  intro q tab hq
  by_cases hqp : q = p
  · subst hqp
    rw [Function.update_self] at hq
    cases hq
  · rwa [Function.update_of_ne hqp] at hq

theorem NoNewBitmap.trans {d₁ d₂ d₃ : Page → PageDesc} (h : NoNewBitmap d₁ d₂) (h' : NoNewBitmap d₂ d₃) :
    NoNewBitmap d₁ d₃ :=
  fun p tab htab ↦ h p tab (h' p tab htab)

/-- A block leaves both its pages, also if they are the same. -/
theorem leavePages_settles (hk : Paged s.page place) (hplace : ∀ n, place (tb, n) = (s.tbs tb).pageAddr n)
    (hfirst : ((s.tbs tb).pageAddr 0).isSome) (halloc : ∀ n p, place (tb, n) = some p → s.l1Map (p / l2Size) = true) :
    ∃ page pageDesc, Settles (fun fuel ↦ (s.leavePage fuel tb 0 none).bind fun s ↦ s.leavePage fuel tb 1 none)
        { s with page, pageDesc } ∧
      Paged page (fun x ↦ if x.1 = tb then none else place x) ∧
      (∀ c, (∀ m, s.page c ≠ some (tb, m)) → page c = s.page c) ∧
      NoNewBitmap s.pageDesc pageDesc := by
  obtain ⟨p₀, hp₀⟩ := Option.isSome_iff_exists.mp hfirst
  have hplace₀ := (hplace 0).trans hp₀
  obtain ⟨page, k, hk₀, hsettles, hpaged, hframe⟩ := leavePage_settles hk hp₀ hplace₀ (halloc 0 p₀ hplace₀)
  have hnew := noNewBitmap_update s.pageDesc p₀
  cases hp₁ : (s.tbs tb).pageAddr 1 with
  | none =>
    have hplace₁ := (hplace 1).trans hp₁
    obtain rfl : k = 0 := by
      match k with
      | 0 => rfl
      | 1 => cases hplace₁.symm.trans hk₀
    refine ⟨page, Function.update s.pageDesc p₀ .zero, hsettles.bind (.of_forall fun fuel ↦ ?_), ?_, hframe, hnew⟩
    · simp only [leavePage, hp₁]
    · convert hpaged using 1
      funext ⟨tb', m⟩
      by_cases htb : tb' = tb
      · subst htb
        match m with
        | 0 => simp
        | 1 => simp [hplace₁]
      · simp [htb]
  | some p₁ =>
    have hplace₁ := (hplace 1).trans hp₁
    -- the entry that is left is the other one, and it is on the second page
    obtain ⟨m, hmk, hm⟩ : ∃ m, m ≠ k ∧ Function.update place (tb, k) none (tb, m) = some p₁ := by
      match k with
      | 0 => exact ⟨1, by decide, by simp [hplace₁]⟩
      | 1 =>
        obtain rfl := Option.some.inj (hplace₁.symm.trans hk₀)
        exact ⟨0, by decide, by simp [hplace₀]⟩
    obtain ⟨page', k', hk', hsettles', hpaged', hframe'⟩ :=
      leavePage_settles (s := { s with page, pageDesc := Function.update s.pageDesc p₀ .zero }) hpaged hp₁ hm
        (halloc 1 p₁ hplace₁)
    have hkk' : k' ≠ k := by
      rintro rfl
      rw [Function.update_self] at hk'
      cases hk'
    refine ⟨page', Function.update (Function.update s.pageDesc p₀ .zero) p₁ .zero, hsettles.bind hsettles', ?_, ?_,
      hnew.trans (noNewBitmap_update _ p₁)⟩
    · convert hpaged' using 1
      funext ⟨tb', m'⟩
      by_cases htb : tb' = tb
      · subst htb
        have hor : m' = k ∨ m' = k' := by omega
        rcases hor with rfl | rfl
        · simp [Function.update_apply]
        · simp
      · simp [htb]
    · intro c hc
      have hc' := hframe c hc
      have hstill : ∀ m, page c ≠ some (tb, m) := hc' ▸ hc
      exact (hframe' c hstill).trans hc'

end Remove

section Jumps

variable {I : Set Tb} {place : Tb × Fin 2 → Option Tb} {chained : Tb → List (Tb × Fin 2)}

/-- Nothing follows an exit that is not chained. -/
def Quiet (jmp : JmpCell → Option JmpLink) (place : Tb × Fin 2 → Option Tb) (tb : Tb) (n : Fin 2) : Prop :=
  place (tb, n) = none → jmp (.jmpNext tb n) = none

theorem chained_next {x : Tb × Fin 2} {t : Tb} (hk : jmpLists.Holds s.jmp I place chained) (ht : t ∈ I)
    (hx : place x = some t) : (s.jmp (.jmpNext x.1 x.2)).isSome := by
  obtain ⟨l₁, l₂, hlist⟩ := List.append_of_mem ((hk.mem_iff t ht x).mpr hx)
  obtain ⟨-, hrest⟩ := hk.cell ht hlist
  cases l₂ with
  | nil =>
    have hend : s.jmp (.jmpNext x.1 x.2) = some (.owner t) := hrest
    rw [hend]
    rfl
  | cons y l₂ =>
    have hnext : s.jmp (.jmpNext x.1 x.2) = some (.jump y.1 y.2) := hrest.1
    rw [hnext]
    rfl

theorem tbJmpRemove_settles {n : Fin 2} (hk : jmpLists.Holds s.jmp I place chained) (hquiet : Quiet s.jmp place tb n)
    (hlive : ∀ t, place (tb, n) = some t → t ∈ I) :
    ∃ jmp chained', Settles (fun fuel ↦ s.tbJmpRemove fuel tb n) { s with jmp } ∧
      jmpLists.Holds jmp I (Function.update place (tb, n) none) chained' ∧
      ∀ c, s.jmp c = none → jmp c = none := by
  cases ht : place (tb, n) with
  | none =>
    have hsame : Function.update place (tb, n) none = place := by
      rw [← ht, Function.update_eq_self]
    refine ⟨s.jmp, chained, .of_forall fun fuel ↦ ?_, hsame.symm ▸ hk, fun c hc ↦ hc⟩
    rw [tbJmpRemove, hquiet ht]
  | some t =>
    have htI := hlive t ht
    obtain ⟨y, hy⟩ := Option.isSome_iff_exists.mp (chained_next hk htI ht)
    obtain ⟨d, l₁, l₂, -, hd, hsettles, hholds⟩ := hk.unlink_around (p := (· == some (.jump tb n))) htI
      ((hk.mem_iff t htI (tb, n)).mpr ht) rfl (fun y ↦ beq_iff_eq)
    refine ⟨Function.update (Function.update s.jmp d (s.jmp (.jmpNext tb n))) (.jmpNext tb n) none, _, ?_,
      hholds.frame ?_ ?_, ?_⟩
    · have hrun : ∀ fuel, s.tbJmpRemove fuel tb n =
          (jmpLists.unlink s.jmp (· == some (.jump tb n)) fuel (.jmpNext tb n)).map fun jmp ↦
            { s with jmp := Function.update jmp (.jmpNext tb n) none } := by
        intro fuel
        rw [tbJmpRemove, hy]
      simp only [hrun]
      exact hsettles.map
    · intro t' _
      exact Function.update_of_ne (jmpLists.head_ne_next t' (tb, n)) _ _
    · intro t' _ x hx
      refine Function.update_of_ne ?_ _ _
      intro heq
      obtain rfl : x = (tb, n) := jmpLists.next_injective heq
      rw [Function.update_self] at hx
      cases hx
    · intro c hc
      by_cases hcn : c = .jmpNext tb n
      · rw [hcn, Function.update_self]
      · rw [Function.update_of_ne hcn]
        by_cases hcd : c = d
        · subst hcd
          cases hc.symm.trans hd
        · rwa [Function.update_of_ne hcd]

/-- The state when the jumps of `l` have been reset. -/
def unchain (s : State) (l : List (Tb × Fin 2)) : State :=
  { s with
    jmp := fun
      | .jmpNext tb n => if (tb, n) ∈ l then none else s.jmp (.jmpNext tb n)
      | .jmpFirst tb => s.jmp (.jmpFirst tb)
    jmpTarget := fun tb n ↦ if (tb, n) ∈ l then none else s.jmpTarget tb n }

theorem unchain_nil (s : State) : s.unchain [] = s := by
  cases s
  simp only [unchain, List.not_mem_nil, if_false]
  congr 1
  funext c
  cases c <;> rfl

theorem unchain_cons (s : State) (b : Tb) (n : Fin 2) (l : List (Tb × Fin 2)) :
    ({ s.tbResetJump b n with jmp := Function.update s.jmp (.jmpNext b n) none } : State).unchain l =
      s.unchain ((b, n) :: l) := by
  cases s
  simp only [unchain, tbResetJump]
  congr 1
  · funext c
    cases c with
    | jmpFirst tb => rfl
    | jmpNext tb m =>
      by_cases heq : (tb, m) = (b, n)
      · cases heq
        simp
      · have hne : JmpCell.jmpNext tb m ≠ .jmpNext b n := by
          rintro heq'
          cases heq'
          exact heq rfl
        simp [heq, Function.update_of_ne hne]
  · funext tb m
    by_cases heq : (tb, m) = (b, n)
    · cases heq
      simp
    · by_cases htb : tb = b
      · subst htb
        have hm : m ≠ n := fun hmn ↦ heq (by rw [hmn])
        simp [hm]
      · simp [htb]

theorem resetJumps_settles {l : List (Tb × Fin 2)} {y : Option JmpLink} {t : Tb}
    (h : jmpLists.Follows s.jmp (some (.owner t)) y l) (hnodup : l.Nodup) {fuel : Nat} (hfuel : l.length < fuel) :
    resetJumps fuel y s = some (s.unchain l) := by
  induction l generalizing s y fuel with
  | nil =>
    obtain ⟨k, rfl⟩ := Nat.exists_eq_add_of_lt hfuel
    obtain rfl : y = some (.owner t) := h
    rw [unchain_nil]
    rfl
  | cons x l ih =>
    obtain ⟨b, n⟩ := x
    obtain ⟨hx, hnodup⟩ := List.nodup_cons.mp hnodup
    obtain ⟨hy, hrest⟩ := h
    obtain rfl : y = some (.jump b n) := hy
    obtain ⟨k, rfl⟩ : ∃ k, fuel = k + 1 := ⟨fuel - 1, by omega⟩
    rw [resetJumps, ← unchain_cons]
    refine ih (hrest.congr fun z hz ↦ Function.update_of_ne ?_ _ _) hnodup (Nat.lt_of_succ_lt_succ hfuel)
    intro heq
    obtain rfl : z = (b, n) := jmpLists.next_injective heq
    exact hx hz

end Jumps

def Good (s : State) : Prop := ∃ buckets pageList chained, s.Kept buckets pageList chained

section Invalidate

variable {buckets : Nat → List Tb} {pageList : Page → List PageLink} {chained : Tb → List (Tb × Fin 2)}

theorem Kept.bucket (h : s.Kept buckets pageList chained) (hlive : tb ∈ s.live) :
    ∃ p, (s.tbs tb).pageAddr 0 = some p ∧
      s.hashPlace tb = some (tbPhysHashFunc (p * targetPageSize + pageOffset (s.tbs tb).pc)) := by
  obtain ⟨p, hp⟩ := Option.isSome_iff_exists.mp (h.sound tb hlive).first
  refine ⟨p, hp, ?_⟩
  rw [hashPlace, if_pos hlive, TranslationBlock.bucket, hp]
  rfl

/-- The jumps of the block and those to it are taken off their lists. -/
theorem Kept.unchain (h : s.Kept buckets pageList chained) (hlive : tb ∈ s.live) {t : State} (hjmp : t.jmp = s.jmp) :
    ∃ jmp l chained', Settles (fun fuel ↦ (t.tbJmpRemove fuel tb 0).bind fun t ↦ (t.tbJmpRemove fuel tb 1).bind
        fun t ↦ resetJumps fuel (t.jmp (.jmpFirst tb)) t) (State.unchain { t with jmp } l) ∧
      jmpLists.Holds jmp s.live (fun x ↦ if x.1 = tb then none else s.jmpPlace x) chained' ∧
      (∀ x, x ∈ l ↔ x.1 ≠ tb ∧ s.jmpPlace x = some tb) ∧ ∀ c, s.jmp c = none → jmp c = none := by
  have hquiet : ∀ n, Quiet t.jmp s.jmpPlace tb n := by
    intro n hn
    rw [jmpPlace, if_pos hlive] at hn
    rw [hjmp]
    exact h.unchained tb hlive n hn
  have hholds := h.jmp
  rw [← hjmp] at hholds
  obtain ⟨jmp₀, chained₀, hsettles₀, hholds₀, hnone₀⟩ :=
    tbJmpRemove_settles hholds (hquiet 0) fun t ht ↦ h.target_live _ t ht
  have hother : Function.update s.jmpPlace (tb, 0) none (tb, 1) = s.jmpPlace (tb, 1) := by
    simp
  have hquiet₁ : Quiet jmp₀ (Function.update s.jmpPlace (tb, 0) none) tb 1 :=
    fun hn ↦ hnone₀ _ (hquiet 1 (hother ▸ hn))
  obtain ⟨jmp₁, chained₁, hsettles₁, hholds₁, hnone₁⟩ :=
    tbJmpRemove_settles (s := { t with jmp := jmp₀ }) hholds₀ hquiet₁
      fun t ht ↦ h.target_live _ t (hother ▸ ht)
  have hplace : Function.update (Function.update s.jmpPlace (tb, 0) none) (tb, 1) none =
      fun x ↦ if x.1 = tb then none else s.jmpPlace x := by
    funext ⟨b, n⟩
    by_cases hb : b = tb
    · subst hb
      match n with
      | 0 => simp
      | 1 => simp
    · simp [hb]
  rw [hplace] at hholds₁
  refine ⟨jmp₁, chained₁ tb, chained₁, hsettles₀.bind (hsettles₁.bind ⟨(chained₁ tb).length + 1, fun fuel hfuel ↦ ?_⟩),
    hholds₁, fun x ↦ ?_, fun c hc ↦ hnone₁ c (hnone₀ c (hjmp ▸ hc))⟩
  · exact resetJumps_settles (s := { t with jmp := jmp₁ }) (hholds₁.follows tb hlive) (hholds₁.nodup tb hlive) hfuel
  · rw [hholds₁.mem_iff tb hlive x]
    by_cases hx : x.1 = tb
    · simp [hx]
    · simp [hx]

theorem tbPhysInvalidate_eq {p : Page} (hp : (s.tbs tb).pageAddr 0 = some p) (fuel : Nat) :
    s.tbPhysInvalidate fuel tb none =
      (s.tbRemove fuel (tbPhysHashFunc (p * targetPageSize + pageOffset (s.tbs tb).pc)) tb).bind fun s ↦
        ((s.leavePage fuel tb 0 none).bind fun s ↦ s.leavePage fuel tb 1 none).bind fun s ↦
          ((s.tbJmpRemove fuel tb 0).bind fun s ↦ (s.tbJmpRemove fuel tb 1).bind fun s ↦
            resetJumps fuel (s.jmp (.jmpFirst tb)) s).map fun s ↦
              { s with
                jmp := Function.update s.jmp (.jmpFirst tb) (some (.owner tb))
                live := s.live.erase tb } := by
  simp only [tbPhysInvalidate, hp, Option.bind_eq_bind, Option.bind_some, Option.bind_assoc,
    Option.map_eq_bind]
  rfl

/-- What is left when a block is on no list any more and `l` had the jumps to it. -/
theorem Kept.erase (h : s.Kept buckets pageList chained) {t : State} {jmp : JmpCell → Option JmpLink}
    {l : List (Tb × Fin 2)} {buckets' : Nat → List Tb} {pageList' : Page → List PageLink}
    {chained' : Tb → List (Tb × Fin 2)} (hlive : t.live = s.live.erase tb) (htbs : t.tbs = s.tbs)
    (hl1 : t.l1Map = s.l1Map) (hhash : hashLists.Holds t.hash Set.univ (Function.update s.hashPlace tb none) buckets')
    (hpage : pageLists.Holds t.page Set.univ (fun x ↦ if x.1 = tb then none else s.pagePlace x) pageList')
    (hspaced : ∀ p, Spaced (pageList' p)) (hnew : NoNewBitmap s.pageDesc t.pageDesc)
    (hjmp : jmpLists.Holds jmp s.live (fun x ↦ if x.1 = tb then none else s.jmpPlace x) chained')
    (hl : ∀ x, x ∈ l ↔ x.1 ≠ tb ∧ s.jmpPlace x = some tb) (hnone : ∀ c, s.jmp c = none → jmp c = none)
    (hfirst : ∀ b, b ≠ tb → t.jmp (.jmpFirst b) = jmp (.jmpFirst b))
    (hnext : ∀ x : Tb × Fin 2, t.jmp (.jmpNext x.1 x.2) = if x ∈ l then none else jmp (.jmpNext x.1 x.2))
    (htarget : ∀ x : Tb × Fin 2, t.jmpTarget x.1 x.2 = if x ∈ l then none else s.jmpTarget x.1 x.2) :
    t.Kept buckets' pageList' chained' := by
  have hold : ∀ b, b ∈ t.live → b ≠ tb ∧ b ∈ s.live := by
    intro b hb
    rw [hlive] at hb
    exact Finset.mem_erase.mp hb
  have hhashPlace : t.hashPlace = Function.update s.hashPlace tb none := by
    funext b
    by_cases hb : b = tb
    · simp [hashPlace, hlive, hb]
    · simp [hashPlace, hlive, htbs, hb]
  have hpagePlace : t.pagePlace = fun x ↦ if x.1 = tb then none else s.pagePlace x := by
    funext x
    by_cases hx : x.1 = tb
    · simp [pagePlace, hlive, hx]
    · simp [pagePlace, hlive, htbs, hx]
  have hpageOld : ∀ x p, t.pagePlace x = some p → s.pagePlace x = some p := by
    intro x p hx
    rw [hpagePlace] at hx
    exact (Option.ite_none_left_eq_some.mp hx).2
  have hjmpPlace : ∀ x u, t.jmpPlace x = some u ↔ x ∉ l ∧ x.1 ≠ tb ∧ s.jmpPlace x = some u := by
    intro x u
    by_cases hx : x.1 = tb
    · simp [jmpPlace, hlive, hx]
    · by_cases hxl : x ∈ l
      · simp [jmpPlace, htarget, hxl]
      · simp [jmpPlace, hlive, htarget, hx, hxl]
  have hkept : ∀ i ∈ t.live, ∀ x, (if x.1 = tb then none else s.jmpPlace x) = some i → x ∉ l := by
    intro i hi x hx hxl
    obtain ⟨hxtb, hxp⟩ := (hl x).mp hxl
    rw [if_neg hxtb, hxp] at hx
    exact (hold i hi).1 (Option.some.inj hx).symm
  refine ⟨hhashPlace ▸ hhash, hpagePlace ▸ hpage, hspaced, ?_, ?_, ?_, ?_, ?_, ?_⟩
  · have hholds := hjmp.mono (J := ↑t.live) fun i hi ↦ (hold i hi).2
    refine (hholds.frame (fun i hi ↦ hfirst i (hold i hi).1) fun i hi x hx ↦ ?_).congr fun i hi x ↦ ?_
    · exact (hnext x).trans (if_neg (hkept i hi x hx))
    · rw [hjmpPlace x i]
      refine ⟨fun hx ↦ ⟨hkept i hi x hx, Option.ite_none_left_eq_some.mp hx⟩, fun hx ↦ ?_⟩
      exact Option.ite_none_left_eq_some.mpr hx.2
  · intro x u hx
    obtain ⟨hxl, hxtb, hxu⟩ := (hjmpPlace x u).mp hx
    rw [hlive, Finset.mem_erase]
    refine ⟨?_, h.target_live x u hxu⟩
    rintro rfl
    exact hxl ((hl x).mpr ⟨hxtb, hxu⟩)
  · intro b hb n hbn
    rw [htarget (b, n)] at hbn
    rw [hnext (b, n)]
    by_cases hbl : (b, n) ∈ l
    · exact if_pos hbl
    · rw [if_neg hbl] at hbn ⊢
      exact hnone _ (h.unchained b (hold b hb).2 n hbn)
  · intro b hb
    rw [htbs]
    exact h.sound b (hold b hb).2
  · intro x p hx
    rw [hl1]
    exact h.allocated x p (hpageOld x p hx)
  · intro p tab htab
    obtain ⟨hlen, hbits⟩ := h.bitmap p tab (hnew p tab htab)
    rw [Marked, htbs]
    exact ⟨hlen, fun x hx ↦ hbits x (hpageOld x p hx)⟩

theorem Kept.tbPhysInvalidate (h : s.Kept buckets pageList chained) (hlive : tb ∈ s.live) :
    ∃ s', Settles (fun fuel ↦ s.tbPhysInvalidate fuel tb none) s' ∧ s'.Good ∧ s'.live = s.live.erase tb ∧
      s'.tbs = s.tbs ∧ s'.l1Map = s.l1Map ∧ ∀ c, (∀ m, s.page c ≠ some (tb, m)) → s'.page c = s.page c := by
  obtain ⟨p₀, hp₀, hbucket⟩ := h.bucket hlive
  have hplace : ∀ n, s.pagePlace (tb, n) = (s.tbs tb).pageAddr n := fun n ↦ if_pos hlive
  obtain ⟨hash, buckets', hremove, hhash⟩ := tbRemove_settles h.hash hbucket
  obtain ⟨page, pageDesc, hleave, ⟨pageList', hpage, hspaced⟩, hframe, hnew⟩ :=
    leavePages_settles (s := { s with hash }) ⟨pageList, h.page, h.spaced⟩ hplace (h.sound tb hlive).first
      fun n p hp ↦ h.allocated (tb, n) p hp
  obtain ⟨jmp, l, chained', hjumps, hjmp, hl, hnone⟩ :=
    h.unchain hlive (t := { s with hash, page, pageDesc }) rfl
  simp only [tbPhysInvalidate_eq hp₀]
  refine ⟨_, hremove.bind (hleave.bind hjumps.map), ⟨buckets', pageList', chained', ?_⟩, rfl, rfl, rfl, hframe⟩
  refine h.erase rfl rfl rfl hhash hpage hspaced hnew hjmp hl hnone (fun b hb ↦ ?_) (fun x ↦ ?_) fun x ↦ rfl
  · exact Function.update_of_ne (fun heq ↦ hb (jmpLists.head_injective heq)) _ _
  · have hne : JmpCell.jmpNext x.1 x.2 ≠ .jmpFirst tb := (jmpLists.head_ne_next tb x).symm
    exact Function.update_of_ne hne (some (.owner tb)) (State.unchain { s with hash, page, pageDesc, jmp } l).jmp

end Invalidate

section Link

variable {buckets : Nat → List Tb} {pageList : Page → List PageLink} {chained : Tb → List (Tb × Fin 2)}

/-- What there is when a new block is on its lists and has no jumps. -/
theorem Kept.insert (h : s.Kept buckets pageList chained) {t : State} {buckets' : Nat → List Tb}
    {pageList' : Page → List PageLink} (hfresh : tb ∉ s.live) (hlive : t.live = insert tb s.live)
    (htbs : ∀ b, b ≠ tb → t.tbs b = s.tbs b) (hsound : (t.tbs tb).Sound)
    (hl1 : ∀ q, s.l1Map q = true → t.l1Map q = true)
    (halloc : ∀ n p, (t.tbs tb).pageAddr n = some p → t.l1Map (p / l2Size) = true)
    (hhash : hashLists.Holds t.hash Set.univ (Function.update s.hashPlace tb (t.tbs tb).bucket) buckets')
    (hpage : pageLists.Holds t.page Set.univ
      (fun x ↦ if x.1 = tb then (t.tbs tb).pageAddr x.2 else s.pagePlace x) pageList')
    (hspaced : ∀ p, Spaced (pageList' p)) (hnew : NoNewBitmap s.pageDesc t.pageDesc)
    (hgone : ∀ n p, (t.tbs tb).pageAddr n = some p → (t.pageDesc p).codeBitmap = none)
    (hfirst : t.jmp (.jmpFirst tb) = some (.owner tb)) (hnext : ∀ n, t.jmp (.jmpNext tb n) = none)
    (hfirst' : ∀ b, b ≠ tb → t.jmp (.jmpFirst b) = s.jmp (.jmpFirst b))
    (hnext' : ∀ b n, b ≠ tb → t.jmp (.jmpNext b n) = s.jmp (.jmpNext b n))
    (htarget : ∀ n, t.jmpTarget tb n = none) (htarget' : ∀ b, b ≠ tb → t.jmpTarget b = s.jmpTarget b) :
    t.Kept buckets' pageList' (Function.update chained tb []) := by
  have hmem : ∀ b, b ∈ t.live ↔ b = tb ∨ b ∈ s.live := by
    intro b
    rw [hlive]
    exact Finset.mem_insert
  have hhashPlace : t.hashPlace = Function.update s.hashPlace tb (t.tbs tb).bucket := by
    funext b
    by_cases hb : b = tb
    · subst hb
      simp [hashPlace, hlive]
    · simp [hashPlace, hlive, htbs b hb, hb]
  have hpagePlace : t.pagePlace = fun x ↦ if x.1 = tb then (t.tbs tb).pageAddr x.2 else s.pagePlace x := by
    funext ⟨b, n⟩
    by_cases hb : b = tb
    · subst hb
      simp [pagePlace, hlive]
    · simp [pagePlace, hlive, htbs b hb, hb]
  have hpageCases : ∀ x p, t.pagePlace x = some p →
      x.1 = tb ∧ (t.tbs tb).pageAddr x.2 = some p ∨ x.1 ≠ tb ∧ s.pagePlace x = some p := by
    intro x p hx
    rw [hpagePlace] at hx
    by_cases hb : x.1 = tb
    · exact .inl ⟨hb, (if_pos hb).symm.trans hx⟩
    · exact .inr ⟨hb, (if_neg hb).symm.trans hx⟩
  have hjmpPlace : t.jmpPlace = s.jmpPlace := by
    funext ⟨b, n⟩
    by_cases hb : b = tb
    · subst hb
      simp [jmpPlace, hfresh, htarget]
    · simp [jmpPlace, hlive, htarget' b hb, hb]
  have hplaced : ∀ x u, s.jmpPlace x = some u → x.1 ≠ tb := by
    intro x u hx
    have hxlive : x.1 ∈ s.live := (Option.ite_none_right_eq_some.mp hx).1
    exact ne_of_mem_of_not_mem hxlive hfresh
  refine ⟨hhashPlace ▸ hhash, hpagePlace ▸ hpage, hspaced, ?_, ?_, ?_, ?_, ?_, ?_⟩
  · have hset : (↑t.live : Set Tb) = Insert.insert tb (↑s.live : Set Tb) := by
      rw [hlive, Finset.coe_insert]
    have hholds := h.jmp.insert (i := tb) hfresh fun x hx ↦ hfresh (h.target_live x tb hx)
    rw [hset, hjmpPlace]
    refine hholds.frame (fun i hi ↦ ?_) fun i hi x hx ↦ ?_
    · by_cases hitb : i = tb
      · subst hitb
        exact hfirst.trans (Function.update_self (jmpLists.head i) (jmpLists.term i) s.jmp).symm
      · have hne : JmpCell.jmpFirst i ≠ .jmpFirst tb := fun heq ↦ hitb (jmpLists.head_injective heq)
        exact (hfirst' i hitb).trans (Function.update_of_ne hne _ _).symm
    · have hne : JmpCell.jmpNext x.1 x.2 ≠ .jmpFirst tb := (jmpLists.head_ne_next tb x).symm
      exact (hnext' x.1 x.2 (hplaced x i hx)).trans (Function.update_of_ne hne _ _).symm
  · intro x u hx
    rw [hjmpPlace] at hx
    exact (hmem u).mpr (.inr (h.target_live x u hx))
  · intro b hb n hbn
    by_cases hbtb : b = tb
    · subst hbtb
      exact hnext n
    · rw [hnext' b n hbtb]
      rw [htarget' b hbtb] at hbn
      exact h.unchained b (((hmem b).mp hb).resolve_left hbtb) n hbn
  · intro b hb
    by_cases hbtb : b = tb
    · subst hbtb
      exact hsound
    · rw [htbs b hbtb]
      exact h.sound b (((hmem b).mp hb).resolve_left hbtb)
  · intro x p hx
    rcases hpageCases x p hx with ⟨-, hp⟩ | ⟨-, hp⟩
    · exact halloc x.2 p hp
    · exact hl1 _ (h.allocated x p hp)
  · intro p tab htab
    obtain ⟨hlen, hbits⟩ := h.bitmap p tab (hnew p tab htab)
    refine ⟨hlen, fun x hx ↦ ?_⟩
    rcases hpageCases x p hx with ⟨-, hp⟩ | ⟨hb, hp⟩
    · cases htab.symm.trans (hgone x.2 p hp)
    · rw [htbs x.1 hb]
      exact hbits x hp

variable {place : PageLink → Option Page}

theorem pageFindAlloc_page (h : pageLists.Holds s.page Set.univ place pageList)
    (halloc : ∀ x q, place x = some q → s.l1Map (q / l2Size) = true) (p : Page) :
    (s.pageFindAlloc p).page = s.page := by
  unfold pageFindAlloc
  split_ifs with hp
  · rfl
  · funext c
    cases c with
    | pageNext tb n => rfl
    | firstTb q =>
      by_cases hq : q / l2Size = p / l2Size
      · refine (if_pos hq).trans ?_
        have hempty : pageList q = [] := by
          refine List.eq_nil_iff_forall_not_mem.mpr fun x hx ↦ hp ?_
          rw [← hq]
          exact halloc x q ((h.mem_iff q trivial x).mp hx)
        have hfollows := h.follows q trivial
        rw [hempty] at hfollows
        exact hfollows.symm
      · exact if_neg hq

theorem pageFindAlloc_l1Map (s : State) (p : Page) :
    (s.pageFindAlloc p).l1Map (p / l2Size) = true ∧ ∀ q, s.l1Map q = true → (s.pageFindAlloc p).l1Map q = true := by
  unfold pageFindAlloc
  split_ifs with hp
  · exact ⟨hp, fun q hq ↦ hq⟩
  · refine ⟨Function.update_self _ _ _, fun q hq ↦ ?_⟩
    refine (Function.update_of_ne ?_ _ _).trans hq
    rintro rfl
    exact hp hq

theorem pageFindAlloc_noNewBitmap (s : State) (p : Page) : NoNewBitmap s.pageDesc (s.pageFindAlloc p).pageDesc := by
  unfold pageFindAlloc
  split_ifs with hp
  · exact fun q tab hq ↦ hq
  · intro q tab hq
    by_cases hqp : q / l2Size = p / l2Size
    · simp only [if_pos hqp] at hq
      cases hq
    · simpa only [if_neg hqp] using hq

/-- What `tbAllocPage` keeps. -/
theorem pageFindAlloc_rest (s : State) (p : Page) : (s.pageFindAlloc p).hash = s.hash ∧
    (s.pageFindAlloc p).jmp = s.jmp ∧ (s.pageFindAlloc p).tbs = s.tbs ∧
    (s.pageFindAlloc p).jmpTarget = s.jmpTarget ∧ (s.pageFindAlloc p).live = s.live := by
  unfold pageFindAlloc
  split_ifs <;> exact ⟨rfl, rfl, rfl, rfl, rfl⟩

/-- A state before a block is on its page `n`, and the one after. -/
structure Alloc (s t : State) (tb : Tb) (n : Fin 2) (p : Page) : Prop where
  hash : t.hash = s.hash
  jmp : t.jmp = s.jmp
  tbs : t.tbs = (s.setPageAddr tb n (some p)).tbs
  jmpTarget : t.jmpTarget = s.jmpTarget
  live : t.live = s.live
  allocated : t.l1Map (p / l2Size) = true
  l1Map : ∀ q, s.l1Map q = true → t.l1Map q = true
  noNewBitmap : NoNewBitmap s.pageDesc t.pageDesc
  gone : (t.pageDesc p).codeBitmap = none

theorem tbAllocPage_alloc (s : State) (tb : Tb) (n : Fin 2) (p : Page) : s.Alloc (s.tbAllocPage tb n p) tb n p := by
  obtain ⟨hhash, hjmp, htbs, htarget, hlive⟩ := pageFindAlloc_rest (s.setPageAddr tb n (some p)) p
  obtain ⟨halloc, hl1⟩ := pageFindAlloc_l1Map (s.setPageAddr tb n (some p)) p
  have hnew := pageFindAlloc_noNewBitmap (s.setPageAddr tb n (some p)) p
  have hzero : (s.tbAllocPage tb n p).pageDesc p = .zero := Function.update_self (β := fun _ ↦ PageDesc) p .zero _
  refine ⟨hhash, hjmp, htbs, htarget, hlive, halloc, hl1, hnew.trans (noNewBitmap_update _ p), ?_⟩
  rw [hzero]
  rfl

theorem tbAllocPage_page {n : Fin 2} {p : Page} (h : pageLists.Holds s.page Set.univ place pageList)
    (halloc : ∀ x q, place x = some q → s.l1Map (q / l2Size) = true) (hplace : place (tb, n) = none) :
    pageLists.Holds (s.tbAllocPage tb n p).page Set.univ (Function.update place (tb, n) (some p))
      (Function.update pageList p ((tb, n) :: pageList p)) := by
  have hpage : (s.tbAllocPage tb n p).page = pageLists.push s.page p (tb, n) := by
    rw [tbAllocPage, invalidatePageBitmap]
    rw [pageFindAlloc_page (s := s.setPageAddr tb n (some p)) h halloc p]
    rfl
  rw [hpage]
  refine h.push trivial fun q _ hq ↦ ?_
  cases hplace.symm.trans hq

/-- A state before a block is on the lists of its pages `addr`, and the one after. -/
structure Linked (s t : State) (tb : Tb) (addr : Fin 2 → Option Page) (place : PageLink → Option Page) : Prop where
  hash : t.hash = s.hash
  jmp : t.jmp = s.jmp
  jmpTarget : t.jmpTarget = s.jmpTarget
  live : t.live = s.live
  tbs : t.tbs = Function.update s.tbs tb { s.tbs tb with pageAddr := addr }
  l1Map : ∀ q, s.l1Map q = true → t.l1Map q = true
  allocated : ∀ n p, addr n = some p → t.l1Map (p / l2Size) = true
  noNewBitmap : NoNewBitmap s.pageDesc t.pageDesc
  gone : ∀ n p, addr n = some p → (t.pageDesc p).codeBitmap = none
  page : Paged t.page fun x ↦ if x.1 = tb then addr x.2 else place x

variable {p₀ p₁ : Page}

theorem spaced_push {n : Fin 2} {p : Page} (hspaced : ∀ q, Spaced (pageList q))
    (htail : ∀ z ∈ (pageList p).tail, z.1 ≠ tb) (q : Page) :
    Spaced (Function.update pageList p ((tb, n) :: pageList p) q) := by
  by_cases hq : q = p
  · subst hq
    rw [Function.update_self]
    exact ⟨htail, hspaced q⟩
  · rw [Function.update_of_ne hq]
    exact hspaced q

theorem not_listed (h : pageLists.Holds s.page Set.univ place pageList) (hout : ∀ n, place (tb, n) = none) (p : Page) :
    ∀ z ∈ pageList p, z.1 ≠ tb := by
  intro z hz
  rintro rfl
  cases (hout z.2).symm.trans ((h.mem_iff p trivial z).mp hz)

theorem linked_one (h : pageLists.Holds s.page Set.univ place pageList) (hspaced : ∀ p, Spaced (pageList p))
    (halloc : ∀ x q, place x = some q → s.l1Map (q / l2Size) = true) (hout : ∀ n, place (tb, n) = none) :
    s.Linked ((s.tbAllocPage tb 0 p₀).setPageAddr tb 1 none) tb
      (Function.update (Function.update (s.tbs tb).pageAddr 0 (some p₀)) 1 none) place := by
  have ha := tbAllocPage_alloc s tb 0 p₀
  have hpage := tbAllocPage_page (p := p₀) h halloc (hout 0)
  have haddr : ∀ n p, Function.update (Function.update (s.tbs tb).pageAddr 0 (some p₀)) 1 none n = some p →
      p = p₀ := by
    intro n p hp
    match n with
    | 0 => simpa [eq_comm] using hp
    | 1 => cases hp
  have hplace : Function.update place (tb, 0) (some p₀) = fun x ↦ if x.1 = tb then
      Function.update (Function.update (s.tbs tb).pageAddr 0 (some p₀)) 1 none x.2 else place x := by
    funext ⟨b, n⟩
    by_cases hb : b = tb
    · subst hb
      match n with
      | 0 => simp
      | 1 => simp [hout 1]
    · simp [hb]
  rw [hplace] at hpage
  have hspaced' := spaced_push (n := 0) hspaced fun z hz ↦ not_listed h hout p₀ z (List.mem_of_mem_tail hz)
  refine ⟨ha.hash, ha.jmp, ha.jmpTarget, ha.live, ?_, ha.l1Map, fun n p hp ↦ ?_, ha.noNewBitmap, fun n p hp ↦ ?_,
    ⟨_, hpage, hspaced'⟩⟩
  · rw [setPageAddr, ha.tbs, setPageAddr]
    simp
  · rw [haddr n p hp]
    exact ha.allocated
  · rw [haddr n p hp]
    exact ha.gone

theorem linked_two (h : pageLists.Holds s.page Set.univ place pageList) (hspaced : ∀ p, Spaced (pageList p))
    (halloc : ∀ x q, place x = some q → s.l1Map (q / l2Size) = true) (hout : ∀ n, place (tb, n) = none) :
    s.Linked ((s.tbAllocPage tb 0 p₀).tbAllocPage tb 1 p₁) tb
      (Function.update (Function.update (s.tbs tb).pageAddr 0 (some p₀)) 1 (some p₁)) place := by
  have ha := tbAllocPage_alloc s tb 0 p₀
  have hb := tbAllocPage_alloc (s.tbAllocPage tb 0 p₀) tb 1 p₁
  have hpage := tbAllocPage_page (p := p₀) h halloc (hout 0)
  have halloc' : ∀ x q, Function.update place (tb, 0) (some p₀) x = some q →
      (s.tbAllocPage tb 0 p₀).l1Map (q / l2Size) = true := by
    intro x q hx
    by_cases hx0 : x = (tb, 0)
    · subst hx0
      rw [Function.update_self] at hx
      cases hx
      exact ha.allocated
    · rw [Function.update_of_ne hx0] at hx
      exact ha.l1Map _ (halloc x q hx)
  have hout' : Function.update place (tb, 0) (some p₀) (tb, 1) = none := by simp [hout 1]
  have hpage' := tbAllocPage_page (p := p₁) hpage halloc' hout'
  have haddr : ∀ n p, Function.update (Function.update (s.tbs tb).pageAddr 0 (some p₀)) 1 (some p₁) n = some p →
      p = p₀ ∨ p = p₁ := by
    intro n p hp
    match n with
    | 0 => exact .inl (by simpa [eq_comm] using hp)
    | 1 => exact .inr (by simpa [eq_comm] using hp)
  have hgone : (((s.tbAllocPage tb 0 p₀).tbAllocPage tb 1 p₁).pageDesc p₀).codeBitmap = none := by
    refine Option.eq_none_iff_forall_ne_some.mpr fun tab htab ↦ ?_
    cases ha.gone.symm.trans (hb.noNewBitmap p₀ tab htab)
  have hplace : Function.update (Function.update place (tb, 0) (some p₀)) (tb, 1) (some p₁) = fun x ↦
      if x.1 = tb then Function.update (Function.update (s.tbs tb).pageAddr 0 (some p₀)) 1 (some p₁) x.2
      else place x := by
    funext ⟨b, n⟩
    by_cases hb : b = tb
    · subst hb
      match n with
      | 0 => simp
      | 1 => simp
    · simp [hb]
  rw [hplace] at hpage'
  have hspaced₀ := spaced_push (n := 0) hspaced fun z hz ↦ not_listed h hout p₀ z (List.mem_of_mem_tail hz)
  -- on one list the two entries of the block are next to each other
  have htail : ∀ z ∈ (Function.update pageList p₀ ((tb, 0) :: pageList p₀) p₁).tail, z.1 ≠ tb := by
    by_cases hp : p₁ = p₀
    · subst hp
      rw [Function.update_self]
      exact not_listed h hout p₁
    · rw [Function.update_of_ne hp]
      exact fun z hz ↦ not_listed h hout p₁ z (List.mem_of_mem_tail hz)
  refine ⟨hb.hash.trans ha.hash, hb.jmp.trans ha.jmp, hb.jmpTarget.trans ha.jmpTarget, hb.live.trans ha.live, ?_,
    fun q hq ↦ hb.l1Map q (ha.l1Map q hq), fun n p hp ↦ ?_, ha.noNewBitmap.trans hb.noNewBitmap, fun n p hp ↦ ?_,
    ⟨_, hpage', spaced_push (n := 1) hspaced₀ htail⟩⟩
  · rw [hb.tbs, setPageAddr, ha.tbs, setPageAddr]
    simp
  · rcases haddr n p hp with rfl | rfl
    · exact hb.l1Map _ ha.allocated
    · exact hb.allocated
  · rcases haddr n p hp with rfl | rfl
    · exact hgone
    · exact hb.gone

theorem initJump_of_none {n : Fin 2} (h : s.jmpTarget tb n = none) : s.initJump tb n = s := by
  unfold initJump
  split_ifs
  · unfold tbResetJump
    rw [← h, Function.update_eq_self, Function.update_eq_self]
  · rfl

theorem Good.link (h : s.Good) {pc : Addr} {size : Nat} (tbNextOffset : Fin 2 → BitVec 16) {physPc : Nat}
    {physPage2 : Option Page} (hfresh : tb ∉ s.live) (hpos : 0 < size)
    (hend : pageOffset pc + size < 2 * targetPageSize) (hoff : physPc % targetPageSize = pageOffset pc)
    (hcross : physPage2.isSome ↔ Crosses pc size) :
    ∃ t, (s.cpuGenCode tb pc size tbNextOffset).tbLinkPage tb physPc physPage2 = t ∧ t.Good ∧
      t.live = insert tb s.live ∧ (∀ b, b ≠ tb → t.tbs b = s.tbs b) ∧
      (t.tbs tb).pageAddr = Function.update (fun _ ↦ some (physPc / targetPageSize)) 1 physPage2 := by
  obtain ⟨buckets, pageList, chained, h⟩ := h
  let code := s.cpuGenCode tb pc size tbNextOffset
  let hashed : State := { code with hash := hashLists.push s.hash (tbPhysHashFunc physPc) tb }
  let addr := Function.update (Function.update (hashed.tbs tb).pageAddr 0 (some (physPc / targetPageSize))) 1 physPage2
  let fresh (paged : State) : State :=
    { paged with
      jmp := Function.update (Function.update (Function.update paged.jmp (.jmpFirst tb) (some (.owner tb)))
        (.jmpNext tb 0) none) (.jmpNext tb 1) none
      live := Insert.insert tb paged.live }
  have hout : ∀ n, s.pagePlace (tb, n) = none := fun n ↦ if_neg hfresh
  obtain ⟨paged, hlinked, heq⟩ : ∃ paged, hashed.Linked paged tb addr s.pagePlace ∧
      code.tbLinkPage tb physPc physPage2 = ((fresh paged).initJump tb 0).initJump tb 1 := by
    cases physPage2 with
    | none => exact ⟨_, linked_one (s := hashed) h.page h.spaced h.allocated hout, rfl⟩
    | some p => exact ⟨_, linked_two (s := hashed) h.page h.spaced h.allocated hout, rfl⟩
  have htarget : ∀ n, paged.jmpTarget tb n = none := by
    intro n
    rw [hlinked.jmpTarget]
    simp [hashed, code, cpuGenCode]
  have hinit : ∀ n, (fresh paged).initJump tb n = fresh paged := fun n ↦ initJump_of_none (htarget n)
  rw [hinit 0, hinit 1] at heq
  have htb : paged.tbs tb = ⟨pc, size, tbNextOffset, addr⟩ := by
    rw [hlinked.tbs]
    simp [hashed, code, cpuGenCode]
  have hhash := h.hash.push (i := tbPhysHashFunc physPc) (x := tb) trivial fun i _ hi ↦
    hfresh (Option.ite_none_right_eq_some.mp hi).1
  have hpushed : paged.hash = hashLists.push s.hash (tbPhysHashFunc physPc) tb := hlinked.hash
  have hbucket : (paged.tbs tb).bucket = some (tbPhysHashFunc physPc) := by
    rw [htb]
    simp only [TranslationBlock.bucket, addr]
    rw [Function.update_of_ne (by decide), Function.update_self, ← hoff, Option.map_some, Nat.div_add_mod']
  rw [← hpushed, ← hbucket] at hhash
  obtain ⟨pageList', hpage, hspaced⟩ := hlinked.page
  have hpaged : (paged.tbs tb).pageAddr = addr := by rw [htb]
  have hold : ∀ b, b ≠ tb → paged.tbs b = s.tbs b := by
    intro b hb
    rw [hlinked.tbs]
    simp [hb, hashed, code, cpuGenCode]
  have haddr : addr = Function.update (fun _ ↦ some (physPc / targetPageSize)) 1 physPage2 := by
    funext n
    match n with
    | 0 => simp [addr]
    | 1 => simp [addr]
  have hlive : insert tb paged.live = insert tb s.live := congrArg (Insert.insert tb) hlinked.live
  refine ⟨fresh paged, heq, ?_, hlive, hold, hpaged.trans haddr⟩
  refine ⟨_, pageList', _, h.insert hfresh hlive hold ?_ hlinked.l1Map ?_
    hhash ?_ hspaced hlinked.noNewBitmap ?_ ?_ ?_ ?_ ?_ htarget ?_⟩
  · change (paged.tbs tb).Sound
    rw [htb]
    refine ⟨hpos, hend, ?_, ?_⟩
    · simp [addr]
    · simpa [addr] using hcross
  · change ∀ n p, (paged.tbs tb).pageAddr n = some p → paged.l1Map (p / l2Size) = true
    rw [hpaged]
    exact hlinked.allocated
  · change pageLists.Holds paged.page Set.univ
      (fun x ↦ if x.1 = tb then (paged.tbs tb).pageAddr x.2 else s.pagePlace x) pageList'
    rw [hpaged]
    exact hpage
  · change ∀ n p, (paged.tbs tb).pageAddr n = some p → (paged.pageDesc p).codeBitmap = none
    rw [hpaged]
    exact hlinked.gone
  · simp [fresh]
  · intro n
    match n with
    | 0 => simp [fresh]
    | 1 => simp [fresh]
  · intro b hb
    have hjmp : paged.jmp = s.jmp := hlinked.jmp
    simp [fresh, hb, hjmp]
  · intro b n hb
    have hjmp : paged.jmp = s.jmp := hlinked.jmp
    simp [fresh, hb, hjmp]
  · intro b hb
    change paged.jmpTarget b = s.jmpTarget b
    rw [hlinked.jmpTarget]
    simp [hb, hashed, code, cpuGenCode]

end Link

section Jump

theorem Good.addJump (h : s.Good) {n : Fin 2} {tbNext : Tb} (hlive : tb ∈ s.live) (hnext : tbNext ∈ s.live) :
    (s.tbAddJump tb n tbNext).Good := by
  obtain ⟨buckets, pageList, chained, h⟩ := h
  unfold tbAddJump
  split_ifs with hnone
  · have hplace : ∀ t, s.jmpPlace (tb, n) ≠ some t := by
      intro t ht
      have hsome := chained_next h.jmp (h.target_live _ t ht) ht
      rw [Option.isNone_iff_eq_none.mp hnone] at hsome
      cases hsome
    have hpush := h.jmp.push (x := (tb, n)) hnext fun t _ ↦ hplace t
    have hjmpPlace : (s.tbSetJmpTarget tb n tbNext).jmpPlace = Function.update s.jmpPlace (tb, n) (some tbNext) := by
      funext ⟨b, m⟩
      by_cases hb : b = tb
      · subst hb
        by_cases hm : m = n
        · subst hm
          simp [jmpPlace, tbSetJmpTarget, hlive]
        · simp [jmpPlace, tbSetJmpTarget, hm]
      · simp [jmpPlace, tbSetJmpTarget, hb]
    refine ⟨buckets, pageList, _, ⟨h.hash, h.page, h.spaced, hjmpPlace ▸ hpush, fun x t hx ↦ ?_, fun b hb m hm ↦ ?_,
      h.sound, h.allocated, h.bitmap⟩⟩
    · have hx' : (s.tbSetJmpTarget tb n tbNext).jmpPlace x = some t := hx
      rw [hjmpPlace] at hx'
      by_cases hxn : x = (tb, n)
      · rw [hxn, Function.update_self] at hx'
        cases hx'
        exact hnext
      · rw [Function.update_of_ne hxn] at hx'
        exact h.target_live x t hx'
    · have hne : (b, m) ≠ (tb, n) := by
        rintro heq
        cases heq
        simp [tbSetJmpTarget] at hm
      have hold : s.jmpTarget b m = none := by
        by_cases hbtb : b = tb
        · subst hbtb
          have hmn : m ≠ n := fun hmn ↦ hne (by rw [hmn])
          simpa [tbSetJmpTarget, hmn] using hm
        · simpa [tbSetJmpTarget, hbtb] using hm
      exact (Layout.push_next (L := jmpLists) s.jmp tbNext hne).trans (h.unchained b hb m hold)
  · exact ⟨buckets, pageList, chained, h⟩

end Jump

theorem Good.flush (h : s.Good) : s.tbFlush.Good := by
  obtain ⟨buckets, pageList, chained, h⟩ := h
  have hempty : ∀ b : Tb, b ∉ s.tbFlush.live := fun b ↦ Finset.notMem_empty b
  refine ⟨fun _ ↦ [], fun _ ↦ [], fun _ ↦ [], ⟨.empty (fun _ _ ↦ rfl) ?_, .empty ?_ ?_, fun _ ↦ trivial,
    .empty ?_ ?_, ?_, ?_, ?_, ?_, ?_⟩⟩
  · intro i _ b hb
    exact hempty b (Option.ite_none_right_eq_some.mp hb).1
  · intro p _
    by_cases hp : s.l1Map (p / l2Size)
    · exact if_pos hp
    · refine (if_neg hp).trans ?_
      have hlist : pageList p = [] := List.eq_nil_iff_forall_not_mem.mpr fun x hx ↦
        hp (h.allocated x p ((h.page.mem_iff p trivial x).mp hx))
      have hfollows := h.page.follows p trivial
      rw [hlist] at hfollows
      exact hfollows
  · intro i _ x hx
    exact hempty x.1 (Option.ite_none_right_eq_some.mp hx).1
  · intro i hi
    exact absurd hi (hempty i)
  · intro i hi
    exact absurd hi (hempty i)
  · intro x t hx
    exact absurd (Option.ite_none_right_eq_some.mp hx).1 (hempty x.1)
  · intro b hb
    exact absurd hb (hempty b)
  · intro b hb
    exact absurd hb (hempty b)
  · intro x p hx
    exact absurd (Option.ite_none_right_eq_some.mp hx).1 (hempty x.1)
  · intro p tab htab
    refine ⟨?_, fun x hx ↦ absurd (Option.ite_none_right_eq_some.mp hx).1 (hempty x.1)⟩
    by_cases hp : s.l1Map (p / l2Size)
    · simp only [tbFlush, if_pos hp] at htab
      cases htab
    · simp only [tbFlush, if_neg hp] at htab
      exact (h.bitmap p tab htab).1

end State

end IDeviceEmulator.Exec.Blocks
