import IDeviceEmulator.H2fmi.Buffer

namespace IDeviceEmulator.H2fmi.Bounds

open Bytes Machine Buffer

inductive Call
  | write (sz : SizeT) (src : Vector Byte sz.toNat)
  | map (sz : SizeT)
  | read (sz : SizeT)
  | clear

def Call.amount : Call → Nat
  | .write sz _ => sz.toNat
  | .map sz => sz.toNat
  | .read sz => sz.toNat
  | .clear => 0

def step (heap : Nat → Byte) (b : Buffer) : Call → Except Fault (Buffer × Unit)
  | .write _ src => (bufferWrite heap b src).map fun t ↦ (t, ())
  | .map sz => (bufferMap heap b sz).map fun r ↦ (r.1, ())
  | .read sz => (bufferRead b sz).map fun r ↦ (r.1, ())
  | .clear => .ok (bufferClear b, ())

/-- The allocation does not shrink. -/
def Grown (b t : Buffer) : Prop := ∀ mem, b.ptr = some mem → ∃ mem', t.ptr = some mem' ∧ mem.length ≤ mem'.length

/-- No call copies past the allocation, what is written lies in it, and it does not shrink. -/
structure Bounded (heap : Nat → Byte) (b : Buffer) (calls : List Call) : Prop where
  runs : ∃ t, Run (step heap) b calls t
  sound : Throughout (step heap) Sound b calls
  grown : ∀ pre c t u o, pre ++ [c] <+: calls → Run (step heap) b pre t → step heap t c = .ok (u, o) → Grown t u

/-- More room is asked for only as far as it can be rounded up. -/
def Rounds (b : Buffer) (sz : SizeT) : Prop :=
  b.ptr ≠ none → b.size.toNat < b.written.toNat + sz.toNat → b.written.toNat + sz.toNat ≤ 2 ^ 64 - 512

def Call.Fits (b : Buffer) : Call → Prop
  | .write sz _ => Rounds b sz
  | .map sz => Rounds b sz
  | _ => True

section Steps

variable {heap : Nat → Byte} {b t : Buffer} {mem : List Byte} {sz : SizeT}

theorem grown_refl (b : Buffer) : Grown b b := fun mem hmem ↦ ⟨mem, hmem, Nat.le_refl _⟩

theorem grown_of_none (h : b.ptr = none) (t : Buffer) : Grown b t := by
  intro mem hmem
  cases h.symm.trans hmem

theorem bufferMap_rounds (heap : Nat → Byte) (hb : b.Sound) (h : Rounds b sz) :
    ∃ t offset, bufferMap heap b sz = .ok (t, offset) ∧ t.Sound ∧ Grown b t ∧ (t.ptr = none → sz = 0) ∧
      t.contents.length = b.contents.length + sz.toNat ∧ offset.toNat = b.contents.length := by
  unfold bufferMap
  cases hptr : b.ptr with
  | none =>
    refine ⟨_, _, rfl, ?_⟩
    by_cases hsz : sz = 0
    · rw [bufferAlloc, if_pos hsz, contents_of_none hptr, hsz]
      exact ⟨sound_of_none rfl, grown_of_none hptr _, fun _ ↦ rfl, rfl, rfl⟩
    · rw [bufferAlloc, if_neg hsz, contents_of_none hptr]
      refine ⟨⟨?_, fun _ _ ↦ BitVec.le_refl sz⟩, grown_of_none hptr _,
        fun hnone ↦ absurd hnone (Option.some_ne_none _), ?_, rfl⟩
      · intro mem hmem
        cases hmem
        exact List.length_replicate
      · simp [contents]
  | some mem =>
    have hsize := hb.size mem hptr
    have hwritten := BitVec.le_def.mp (hb.written mem hptr)
    have hlength := length_contents hb hptr
    have hfits := h (by rw [hptr]; exact Option.some_ne_none mem)
    have hlt := b.size.isLt
    have hsum : (b.written + sz).toNat = b.written.toNat + sz.toNat := by
      rw [BitVec.toNat_add, Nat.mod_eq_of_lt (by omega)]
    refine ⟨_, _, rfl, ?_⟩
    by_cases hgrow : b.size < b.written + sz
    · have hmore := BitVec.lt_def.mp hgrow
      have hround := toNat_round (b.written + sz)
      rw [Nat.mod_eq_of_lt (by omega)] at hround
      rw [if_pos hgrow, bufferRealloc_cases heap hptr (BitVec.not_lt.mpr (BitVec.le_of_lt hgrow))]
      generalize (b.written + sz + 512 - 1) / 512 * 512 = n at hround ⊢
      rw [Nat.max_eq_left (by omega : 1 ≤ n.toNat)]
      have hlen := length_qemuRealloc heap mem n.toNat
      refine ⟨⟨?_, fun _ _ ↦ BitVec.le_def.mpr (by dsimp only; omega)⟩, ?_,
        fun hnone ↦ absurd hnone (Option.some_ne_none _), ?_, hlength.symm⟩
      · intro mem hmem
        cases hmem
        exact hlen
      · intro mem' hmem'
        cases hptr.symm.trans hmem'
        exact ⟨_, rfl, by omega⟩
      · rw [contents_of_some rfl, List.length_take, hlen]
        dsimp only
        omega
    · have hroom := BitVec.le_def.mp (BitVec.not_lt.mp hgrow)
      rw [if_neg hgrow]
      refine ⟨⟨hb.size, fun _ _ ↦ BitVec.le_def.mpr (by dsimp only; omega)⟩, fun mem hmem ↦ ⟨mem, hmem, Nat.le_refl _⟩,
        fun hnone ↦ ?_, ?_, hlength.symm⟩
      · cases hptr.symm.trans hnone
      · rw [contents_of_some hptr] at hlength ⊢
        simp only [contents, hptr, List.length_take] at hlength ⊢
        omega

/-- Where the room cannot be rounded up, one byte is left of the allocation. -/
theorem bufferMap_wraps (heap : Nat → Byte) (hb : b.Sound) (hsz : b.contents.length + sz.toNat < 2 ^ 64)
    (h : ¬ Rounds b sz) :
    ∃ t offset mem, bufferMap heap b sz = .ok (t, offset) ∧ ¬ t.Sound ∧ t.ptr = some mem ∧
      mem.length < offset.toNat + sz.toNat := by
  unfold Rounds at h
  push Not at h
  obtain ⟨hsome, hmore, hwraps⟩ := h
  obtain ⟨mem, hptr⟩ := Option.ne_none_iff_exists'.mp hsome
  rw [length_contents hb hptr] at hsz
  have hsum : (b.written + sz).toNat = b.written.toNat + sz.toNat := by
    rw [BitVec.toNat_add, Nat.mod_eq_of_lt hsz]
  have hgrow : b.size < b.written + sz := by
    rw [BitVec.lt_def]
    omega
  have hround := toNat_round (b.written + sz)
  unfold bufferMap
  rw [hptr]
  refine ⟨_, _, qemuRealloc heap mem 1, rfl, ?_⟩
  rw [if_pos hgrow, bufferRealloc_cases heap hptr (BitVec.not_lt.mpr (BitVec.le_of_lt hgrow))]
  generalize (b.written + sz + 512 - 1) / 512 * 512 = n at hround ⊢
  rw [Nat.max_eq_right (by omega : n.toNat ≤ 1), length_qemuRealloc]
  refine ⟨fun hsound ↦ ?_, rfl, by dsimp only; omega⟩
  have hle := BitVec.le_def.mp (hsound.written _ rfl)
  dsimp only at hle
  omega

theorem write_rounds (heap : Nat → Byte) (hb : b.Sound) (h : Rounds b sz) (src : Vector Byte sz.toNat) :
    ∃ t, bufferWrite heap b src = .ok t ∧ t.Sound ∧ Grown b t ∧
      t.contents.length = b.contents.length + sz.toNat := by
  obtain ⟨t, offset, hmap, hsound, hgrown, hnull, hlength, hoffset⟩ := bufferMap_rounds heap hb h
  have hsrc : src.toList.length = sz.toNat := src.length_toList
  have hcopy : ∃ u, memcpyTo t offset src.toList = .ok u ∧ Grown b u := by
    cases hptr : t.ptr with
    | none =>
      have hnil : src.toList = [] := by
        rw [← List.length_eq_zero_iff, hsrc, hnull hptr]
        rfl
      refine ⟨t, ?_, hgrown⟩
      rw [memcpyTo, hptr]
      exact if_pos hnil
    | some mem =>
      have hsize := hsound.size mem hptr
      have hwritten := BitVec.le_def.mp (hsound.written mem hptr)
      have hcontents := length_contents hsound hptr
      refine ⟨{ t with ptr := some (overwrite mem offset.toNat src.toList) }, ?_, ?_⟩
      · rw [memcpyTo, hptr]
        exact if_neg (by omega)
      · intro mem' hmem'
        obtain ⟨mem'', hmem'', hle⟩ := hgrown mem' hmem'
        cases hptr.symm.trans hmem''
        have hkept : (overwrite mem offset.toNat src.toList).length = mem.length := length_overwrite (by omega)
        exact ⟨_, rfl, by rwa [hkept]⟩
  obtain ⟨u, hu, hgrown'⟩ := hcopy
  have hfill : fill heap b src = .ok u := by
    rw [fill, hmap]
    exact hu
  obtain ⟨hsound', hcontents, -⟩ := fill_spec hb hfill
  exact ⟨u, hfill, hsound', hgrown', by rw [hcontents, List.length_append, hsrc]⟩

theorem write_wraps (heap : Nat → Byte) (hb : b.Sound) (hsz : b.contents.length + sz.toNat < 2 ^ 64)
    (h : ¬ Rounds b sz) (src : Vector Byte sz.toNat) : bufferWrite heap b src = .error .heapOverflow := by
  obtain ⟨t, offset, mem, hmap, -, hptr, hlt⟩ := bufferMap_wraps heap hb hsz h
  have hsrc : src.toList.length = sz.toNat := src.length_toList
  rw [bufferWrite, fill, hmap]
  change memcpyTo t offset src.toList = _
  rw [memcpyTo, hptr]
  exact if_pos (by rwa [hsrc])

theorem bufferRead_ok (hb : b.Sound) (sz : SizeT) :
    ∃ t bytes, bufferRead b sz = .ok (t, bytes) ∧ t.Sound ∧ Grown b t ∧ t.contents = b.contents := by
  have hsame : b.Sound ∧ Grown b b ∧ b.contents = b.contents := ⟨hb, grown_refl b, rfl⟩
  unfold bufferRead
  cases hptr : b.ptr with
  | none => exact ⟨b, [], rfl, hsame⟩
  | some mem =>
    dsimp only
    by_cases hnone : b.written = 0 ∨ b.written ≤ b.read
    · rw [if_pos hnone]
      exact ⟨b, [], rfl, hsame⟩
    · rw [if_neg hnone]
      simp only [not_or, BitVec.not_le] at hnone
      have hsize := hb.size mem hptr
      have hwritten := BitVec.le_def.mp (hb.written mem hptr)
      have hread := BitVec.lt_def.mp hnone.2
      have hsub := BitVec.toNat_sub_of_le (BitVec.le_of_lt hnone.2)
      have hamt : (if b.written - b.read < sz then b.written - b.read else sz).toNat ≤
          b.written.toNat - b.read.toNat := by
        split_ifs with hshort
        · exact Nat.le_of_eq hsub
        · rw [BitVec.not_lt, BitVec.le_def, hsub] at hshort
          exact hshort
      rw [if_neg (by omega)]
      rw [← hptr]
      exact ⟨_, _, rfl, ⟨hb.size, hb.written⟩, fun mem' hmem' ↦ ⟨mem', hmem', Nat.le_refl _⟩, rfl⟩

theorem step_of_fits (heap : Nat → Byte) (hb : b.Sound) {c : Call} (h : c.Fits b) :
    ∃ t, step heap b c = .ok (t, ()) ∧ t.Sound ∧ Grown b t ∧ t.contents.length ≤ b.contents.length + c.amount := by
  cases c with
  | write sz src =>
    obtain ⟨t, ht, hsound, hgrown, hlength⟩ := write_rounds heap hb h src
    exact ⟨t, by rw [step, ht]; rfl, hsound, hgrown, Nat.le_of_eq hlength⟩
  | map sz =>
    obtain ⟨t, offset, ht, hsound, hgrown, -, hlength, -⟩ := bufferMap_rounds heap hb h
    exact ⟨t, by rw [step, ht]; rfl, hsound, hgrown, Nat.le_of_eq hlength⟩
  | read sz =>
    obtain ⟨t, bytes, ht, hsound, hgrown, hcontents⟩ := bufferRead_ok hb sz
    refine ⟨t, by rw [step, ht]; rfl, hsound, hgrown, ?_⟩
    rw [hcontents]
    exact Nat.le_add_right _ _
  | clear =>
    refine ⟨_, rfl, (fresh_bufferClear hb).toSound, fun mem hmem ↦ ⟨mem, hmem, Nat.le_refl _⟩, ?_⟩
    cases hptr : b.ptr <;> simp [contents, bufferClear, hptr]

theorem fits_of_step (hb : b.Sound) {c : Call} (hc : b.contents.length + c.amount < 2 ^ 64)
    (h : step heap b c = .ok (t, ())) (ht : t.Sound) : c.Fits b := by
  cases c with
  | write sz src =>
    by_contra hwraps
    rw [step, write_wraps heap hb hc hwraps src] at h
    cases h
  | map sz =>
    by_contra hwraps
    obtain ⟨u, offset, mem, hu, hnot, -⟩ := bufferMap_wraps heap hb hc hwraps
    rw [step, hu] at h
    cases h
    exact hnot ht
  | read sz => trivial
  | clear => trivial

end Steps

section Runs

variable {heap : Nat → Byte} {b : Buffer}

theorem bounded_cons (hb : b.Sound) {c : Call} {calls : List Call} : Bounded heap b (c :: calls) ↔
    ∃ t, step heap b c = .ok (t, ()) ∧ t.Sound ∧ Grown b t ∧ Bounded heap t calls := by
  constructor
  · rintro ⟨⟨u, hrun⟩, hsound, hgrown⟩
    cases hrun with
    | @cons _ t _ _ o _ ht hrun =>
      obtain ⟨-, htail⟩ := throughout_cons.mp hsound
      refine ⟨t, ht, htail t o ht [] t List.nil_prefix (.nil t), ?_, ⟨u, hrun⟩, htail t o ht, ?_⟩
      · exact hgrown [] c b t o (by simp) (.nil b) ht
      · intro pre c' v w o' hp hv hw
        exact hgrown (c :: pre) c' v w o' (List.cons_prefix_cons.mpr ⟨rfl, hp⟩) (.cons ht hv) hw
  · rintro ⟨t, ht, hsound, hgrown, ⟨u, hrun⟩, htail, hrest⟩
    refine ⟨⟨u, .cons ht hrun⟩, throughout_cons.mpr ⟨hb, ?_⟩, ?_⟩
    · intro t' o ht'
      cases ht.symm.trans ht'
      exact htail
    · intro pre c' v w o' hp hv hw
      cases hv with
      | nil =>
        obtain ⟨rfl, -⟩ := List.cons_prefix_cons.mp hp
        cases ht.symm.trans hw
        exact hgrown
      | cons hs hv =>
        obtain ⟨rfl, hp'⟩ := List.cons_prefix_cons.mp hp
        cases ht.symm.trans hs
        exact hrest _ c' v w o' hp' hv hw

theorem bounded_of_sound (heap : Nat → Byte) (hb : b.Sound) (calls : List Call)
    (htotal : b.contents.length + (calls.map Call.amount).sum < 2 ^ 64) :
    Bounded heap b calls ↔ Attempts (step heap) (fun t c ↦ c.Fits t) b calls := by
  induction calls generalizing b with
  | nil =>
    refine iff_of_true ⟨⟨b, .nil b⟩, ?_, ?_⟩ ?_
    · intro pre t hp hr
      cases List.prefix_nil.mp hp
      cases hr
      exact hb
    · intro pre c t u o hp
      exact absurd hp (by simp)
    · intro pre c t hp
      exact absurd hp (by simp)
  | cons c calls ih =>
    rw [List.map_cons, List.sum_cons] at htotal
    rw [bounded_cons hb, attempts_cons]
    constructor
    · rintro ⟨t, ht, hsound, -, hrest⟩
      have hfits := fits_of_step hb (by omega) ht hsound
      obtain ⟨u, hu, -, -, hlength⟩ := step_of_fits heap hb hfits
      cases ht.symm.trans hu
      refine ⟨hfits, ?_⟩
      intro u o hu'
      cases ht.symm.trans hu'
      exact (ih hsound (by omega)).mp hrest
    · rintro ⟨hfits, hrest⟩
      obtain ⟨t, ht, hsound, hgrown, hlength⟩ := step_of_fits heap hb hfits
      exact ⟨t, ht, hsound, hgrown, (ih hsound (by omega)).mpr (hrest t () ht)⟩

/-- From an empty buffer, with sizes whose sum fits their type, the bounds are kept if and only if
every call that needs more room can round it up. -/
theorem bounded_iff (heap : Nat → Byte) (hb : b.Fresh) (calls : List Call)
    (htotal : (calls.map Call.amount).sum < 2 ^ 64) :
    Bounded heap b calls ↔ Attempts (step heap) (fun t c ↦ c.Fits t) b calls := by
  refine bounded_of_sound heap hb.toSound calls ?_
  have hempty : b.contents = [] := by
    cases hptr : b.ptr with
    | none => exact contents_of_none hptr
    | some mem =>
      obtain ⟨-, hwritten⟩ := hb.empty.resolve_left (by simp [hptr])
      simp [contents, hptr, hwritten]
  rwa [hempty, List.length_nil, Nat.zero_add]

theorem bounded_iff_refilled : Bounded (fun _ ↦ 0) {} [.map 0, .write 2 #v[1, 2], .read 3, .clear, .map 600] ↔
    Attempts (step fun _ ↦ 0) (fun t c ↦ c.Fits t) {} [.map 0, .write 2 #v[1, 2], .read 3, .clear, .map 600] :=
  bounded_iff _ (fresh_init 0 0 0) _ (by decide)

/-- The room for the second call is rounded up to nothing. -/
theorem not_bounded : ¬ ∀ (heap : Nat → Byte) (b : Buffer), b.Fresh → ∀ calls : List Call,
    (calls.map Call.amount).sum < 2 ^ 64 → Bounded heap b calls := by
  intro h
  have hbounded := h (fun _ ↦ 0) {} (fresh_init 0 0 0) [.map 100, .map (-200)] (by decide)
  obtain ⟨t, ht, hsound, -, hrest⟩ := (bounded_cons (fresh_init 0 0 0).toSound).mp hbounded
  cases ht
  obtain ⟨u, hu, hu', -⟩ := (bounded_cons hsound).mp hrest
  cases hu
  exact absurd (hu'.written _ rfl) (by decide)

end Runs

end IDeviceEmulator.H2fmi.Bounds
