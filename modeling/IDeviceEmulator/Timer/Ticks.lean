import IDeviceEmulator.Timer.Device

namespace IDeviceEmulator.Timer

structure Read where
  now : Time
  addr : Nat

/-- The two reads of the counter that a guest combines, and the value. -/
structure Sample where
  first : Time
  second : Time
  value : BitVec 64
deriving DecidableEq

def observe (s : Timers) : List Read → List (Read × Word)
  | [] => []
  | r :: rs => (r, (read r.now s r.addr).2) :: observe (read r.now s r.addr).1 rs

/-- A read of the low half completes the last read of the high half. -/
def assemble : Option (Time × Word) → List (Read × Word) → List Sample
  | _, [] => []
  | pending, (r, v) :: rest =>
    if r.addr = timerTicksHigh then assemble (some (r.now, v)) rest
    else if r.addr = timerTicksLow then
      match pending with
      | some (t, h) => ⟨t, r.now, h ++ v⟩ :: assemble none rest
      | none => assemble none rest
    else assemble pending rest

def samples (s : Timers) (reads : List Read) : List Sample := assemble none (observe s reads)

/-- The value lies between the counts at its two reads. -/
def Between (p : Sample) : Prop := ticks p.first ≤ p.value ∧ p.value ≤ ticks p.second

structure Coherent (values : List Sample) : Prop where
  monotone : values.Pairwise fun a b ↦ a.value ≤ b.value
  between : ∀ p ∈ values, Between p

section Halves

variable {t u : Time}

theorem toNat_ticks (t : Time) : (ticks t).toNat = t.val / 1000 * 24 := by
  have ht := t.isLt
  rw [ticks, BitVec.toNat_ofNat, Nat.mod_eq_of_lt (by omega)]

theorem ticks_mono (h : t ≤ u) : ticks t ≤ ticks u := by
  rw [BitVec.le_def, toNat_ticks, toNat_ticks]
  exact Nat.mul_le_mul_right 24 (Nat.div_le_div_right h)

theorem toNat_assembled (x y : BitVec 64) :
    (high x ++ low y).toNat = x.toNat / 2 ^ 32 * 2 ^ 32 + y.toNat % 2 ^ 32 := by
  rw [toNat_append, toNat_high, toNat_low]

/-- The halves of two counts make a value between them exactly if the low half has not wrapped. -/
theorem between_iff {x y : BitVec 64} (h : x ≤ y) :
    x ≤ high x ++ low y ∧ high x ++ low y ≤ y ↔ low x ≤ low y := by
  rw [BitVec.le_def] at h
  rw [BitVec.le_def, BitVec.le_def, BitVec.le_def, toNat_assembled, toNat_low, toNat_low]
  omega

end Halves

/-- The times of the reads that are combined. -/
def pairs : Option Time → List Read → List (Time × Time)
  | _, [] => []
  | pending, r :: rest =>
    if r.addr = timerTicksHigh then pairs (some r.now) rest
    else if r.addr = timerTicksLow then
      match pending with
      | some t => (t, r.now) :: pairs none rest
      | none => pairs none rest
    else pairs pending rest

/-- The halves that a guest combines are those of the counts at its two reads. -/
def sampleAt (p : Time × Time) : Sample := ⟨p.1, p.2, high (ticks p.1) ++ low (ticks p.2)⟩

theorem between_sampleAt {p : Time × Time} (h : p.1 ≤ p.2) :
    Between (sampleAt p) ↔ low (ticks p.1) ≤ low (ticks p.2) :=
  between_iff (ticks_mono h)

theorem assemble_observe (reads : List Read) (s : Timers) (pending : Option Time) :
    assemble (pending.map fun t ↦ (t, high (ticks t))) (observe s reads) = (pairs pending reads).map sampleAt := by
  induction reads generalizing s pending with
  | nil => rfl
  | cons r rs ih =>
    rw [observe, assemble.eq_def, pairs.eq_def]
    dsimp only
    by_cases hhigh : r.addr = timerTicksHigh
    · have hread : (read r.now s r.addr).2 = high (ticks r.now) := by rw [read, if_pos hhigh]
      rw [if_pos hhigh, if_pos hhigh, hread]
      exact ih _ (some r.now)
    · rw [if_neg hhigh, if_neg hhigh]
      by_cases hlow : r.addr = timerTicksLow
      · have hread : (read r.now s r.addr).2 = low (ticks r.now) := by rw [read, if_neg hhigh, if_pos hlow]
        rw [if_pos hlow, if_pos hlow]
        cases pending with
        | none => exact ih _ none
        | some t =>
          rw [List.map_cons, ← ih _ none, hread]
          rfl
      · rw [if_neg hlow, if_neg hlow]
        exact ih _ pending

theorem samples_eq (s : Timers) (reads : List Read) : samples s reads = (pairs none reads).map sampleAt :=
  assemble_observe reads s none

/-- The combined reads are some of the reads, in their order. -/
theorem pairs_sublist (reads : List Read) (pending : Option Time) :
    ((pairs pending reads).flatMap fun p ↦ [p.1, p.2]).Sublist (pending.toList ++ reads.map Read.now) := by
  induction reads generalizing pending with
  | nil => exact List.nil_sublist _
  | cons r rs ih =>
    have hskip (older : List Time) : (rs.map Read.now).Sublist (older ++ r.now :: rs.map Read.now) :=
      (List.sublist_cons_self r.now _).trans (List.sublist_append_right older _)
    rw [pairs.eq_def, List.map_cons]
    dsimp only
    split_ifs
    · exact (ih (some r.now)).trans (List.sublist_append_right pending.toList _)
    · cases pending with
      | none => exact (ih none).trans (hskip [])
      | some t => exact ((ih none).cons_cons r.now).cons_cons t
    · refine (ih pending).trans ?_
      exact (List.Sublist.refl pending.toList).append (List.sublist_cons_self r.now _)

theorem pairwise_of_flatMap {times : List (Time × Time)}
    (h : (times.flatMap fun p ↦ [p.1, p.2]).Pairwise (· ≤ ·)) :
    (∀ p ∈ times, p.1 ≤ p.2) ∧ times.Pairwise fun p q ↦ p.2 ≤ q.1 := by
  induction times with
  | nil => exact ⟨by simp, .nil⟩
  | cons p times ih =>
    obtain ⟨hfirst, hrest⟩ := List.pairwise_cons.mp h
    obtain ⟨hsecond, htimes⟩ := List.pairwise_cons.mp hrest
    obtain ⟨hforward, hordered⟩ := ih htimes
    refine ⟨List.forall_mem_cons.mpr ⟨hfirst p.2 List.mem_cons_self, hforward⟩, ?_⟩
    refine List.pairwise_cons.mpr ⟨fun q hq ↦ hsecond q.1 ?_, hordered⟩
    exact List.mem_flatMap.mpr ⟨q, hq, List.mem_cons_self⟩

/-- A guest sees a coherent counter exactly if the low half never wraps between the two reads
that make a value. -/
theorem samples_coherent_iff (s : Timers) {reads : List Read} (hclock : reads.Pairwise fun a b ↦ a.now ≤ b.now) :
    Coherent (samples s reads) ↔ ∀ p ∈ pairs none reads, low (ticks p.1) ≤ low (ticks p.2) := by
  have hsorted : (reads.map Read.now).Pairwise (· ≤ ·) := List.pairwise_map.mpr hclock
  obtain ⟨hforward, hordered⟩ := pairwise_of_flatMap (hsorted.sublist (pairs_sublist reads none))
  have hbetween (p : Time × Time) (hp : p ∈ pairs none reads) :
      Between (sampleAt p) ↔ low (ticks p.1) ≤ low (ticks p.2) :=
    between_sampleAt (hforward p hp)
  rw [samples_eq]
  constructor
  · intro h p hp
    have hin : Between (sampleAt p) := h.between (sampleAt p) (List.mem_map_of_mem hp)
    exact (hbetween p hp).mp hin
  · intro hlow
    refine ⟨List.pairwise_map.mpr (hordered.imp_of_mem fun {p q} hp hq hpq ↦ ?_), ?_⟩
    · calc (sampleAt p).value ≤ ticks p.2 := ((hbetween p hp).mpr (hlow p hp)).2
        _ ≤ ticks q.1 := ticks_mono hpq
        _ ≤ (sampleAt q).value := ((hbetween q hq).mpr (hlow q hq)).1
    · intro value hvalue
      obtain ⟨p, hp, rfl⟩ := List.mem_map.mp hvalue
      exact (hbetween p hp).mpr (hlow p hp)

/-- A read of both halves, and another one. -/
def twoCounts (t u t' u' : Time) : List Read :=
  [⟨t, timerTicksHigh⟩, ⟨u, timerTicksLow⟩, ⟨t', timerTicksHigh⟩, ⟨u', timerTicksLow⟩]

theorem samples_coherent_twice :
    (samples {} (twoCounts 1000 2000 3000 4000)).map Sample.value = [48, 96] ∧
      Coherent (samples {} (twoCounts 1000 2000 3000 4000)) := by
  have hpairs : pairs none (twoCounts 1000 2000 3000 4000) = [(1000, 2000), (3000, 4000)] := rfl
  refine ⟨by decide, (samples_coherent_iff {} (by decide)).mpr ?_⟩
  rw [hpairs, List.forall_mem_cons, List.forall_mem_singleton]
  decide

/-- The low half wraps between the two reads. The value is eight, although the counter is close
to its carry at the first read and past it at the second. -/
theorem samples_coherent_fails :
    (samples {} [⟨178956970000, timerTicksHigh⟩, ⟨178956971000, timerTicksLow⟩]).map Sample.value = [8] ∧
      ticks 178956970000 = 0xfffffff0 ∧
      ¬ Coherent (samples {} [⟨178956970000, timerTicksHigh⟩, ⟨178956971000, timerTicksLow⟩]) := by
  refine ⟨by decide, by decide, fun h ↦ ?_⟩
  have hbetween := h.between ⟨178956970000, 178956971000, 8⟩ (by decide)
  exact absurd hbetween.1 (by decide)

end IDeviceEmulator.Timer
