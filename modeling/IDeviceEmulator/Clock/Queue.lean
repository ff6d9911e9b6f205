import Mathlib.Data.List.Nodup
import Mathlib.Logic.Function.Basic
import IDeviceEmulator.Library.Machine

namespace IDeviceEmulator.Clock.Queue

open Machine

variable {ι : Type*}

/-- The timers of one clock: the list of the active ones, and the expire time in each. -/
structure Timers (ι : Type*) where
  active : List ι
  expireTime : ι → Int64
  enabled : Bool

namespace Timers

def qemuClockEnable (s : Timers ι) (enabled : Bool) : Timers ι := { s with enabled }

variable [DecidableEq ι]

def qemuDelTimer (s : Timers ι) (ts : ι) : Timers ι := { s with active := s.active.erase ts }

/-- The walk to the first timer that expires later. -/
def insertBefore (expireTime : ι → Int64) (ts : ι) (expire : Int64) : List ι → List ι
  | [] => [ts]
  | t :: rest =>
    if expireTime t > expire then ts :: t :: rest
    else t :: insertBefore expireTime ts expire rest

def qemuModTimerNs (s : Timers ι) (ts : ι) (expire : Int64) : Timers ι :=
  let s := s.qemuDelTimer ts
  { s with
    active := insertBefore s.expireTime ts expire s.active
    expireTime := Function.update s.expireTime ts expire }

def qemuModTimer (scale : ι → Int32) (s : Timers ι) (ts : ι) (expire : Int64) : Timers ι :=
  s.qemuModTimerNs ts (expire * (scale ts).toInt64)

def qemuTimerPending (s : Timers ι) (ts : ι) : Bool := s.active.any (· == ts)

def qemuPutTimer (s : Timers ι) (ts : ι) : UInt64 :=
  if s.qemuTimerPending ts then (s.expireTime ts).toUInt64 else -1

def qemuGetTimer (s : Timers ι) (ts : ι) (expire : UInt64) : Timers ι :=
  if expire ≠ -1 then s.qemuModTimerNs ts expire.toInt64 else s.qemuDelTimer ts

/-- One turn of the loop of `qemu_run_timers`: the timer to call and what is left, or nothing
when the loop ends. -/
def expire (s : Timers ι) (currentTime : Int64) : Option (ι × Timers ι) :=
  match s.active with
  | [] => none
  | ts :: rest =>
    if s.expireTime ts > currentTime then none
    else some (ts, { s with active := rest })

end Timers

/-- When a timer was armed, among all armings, and for which time. -/
structure Arming where
  deadline : Int64
  number : Nat

def Arming.Before (a b : Arming) : Prop :=
  a.deadline < b.deadline ∨ a.deadline = b.deadline ∧ a.number < b.number

/-- A call of `qemu_run_timers` that has not returned: the time it sampled, and the timer
whose callback it waits for. -/
structure Frame (ι : Type*) where
  currentTime : Int64
  waitsFor : Option ι

/-- The queue with its history: which timers are armed, and the calls of `qemu_run_timers`
that have not returned, the innermost one first. -/
structure Session (ι : Type*) where
  timers : Timers ι
  armed : ι → Option Arming
  armings : Nat
  frames : List (Frame ι)

def boot (ι : Type*) : Session ι := ⟨⟨[], fun _ ↦ 0, true⟩, fun _ ↦ none, 0, []⟩

inductive Input (ι : Type*)
  | clockEnable (enabled : Bool)
  | modTimer (ts : ι) (expire : Int64)
  | delTimer (ts : ι)
  | putTimer (ts : ι)
  | getTimer (ts : ι) (expire : UInt64)
  | runTimers (clock : Int64)
  | turn
  | callbackReturns

inductive Label (ι : Type*)
  | quiet
  | saved (ts : ι) (expire : UInt64)
  | calls (ts : ι) (currentTime : Int64)
  | returns (currentTime : Int64)

inductive Fault
  | notInLoop
  | notInCallback
  | notIdle

namespace Session

variable [DecidableEq ι]

def arm (s : Session ι) (timers : Timers ι) (ts : ι) (deadline : Int64) : Session ι :=
  { s with
    timers
    armed := Function.update s.armed ts (some ⟨deadline, s.armings⟩)
    armings := s.armings + 1 }

def disarm (s : Session ι) (timers : Timers ι) (ts : ι) : Session ι :=
  { s with timers, armed := Function.update s.armed ts none }

/-- Code other than the loop runs: outside of `qemu_run_timers`, or in a callback. -/
def Idle (s : Session ι) : Prop := ∀ frame ∈ s.frames.head?, frame.waitsFor.isSome

instance (s : Session ι) : Decidable s.Idle :=
  inferInstanceAs (Decidable (∀ frame ∈ s.frames.head?, frame.waitsFor.isSome))

def step (scale : ι → Int32) (s : Session ι) : Input ι → Except Fault (Session ι × Label ι)
  | .clockEnable enabled => .ok ({ s with timers := s.timers.qemuClockEnable enabled }, .quiet)
  | .modTimer ts expire =>
    .ok (s.arm (s.timers.qemuModTimer scale ts expire) ts (expire * (scale ts).toInt64), .quiet)
  | .delTimer ts => .ok (s.disarm (s.timers.qemuDelTimer ts) ts, .quiet)
  | .putTimer ts => .ok (s, .saved ts (s.timers.qemuPutTimer ts))
  | .getTimer ts expire =>
    if expire ≠ -1 then .ok (s.arm (s.timers.qemuGetTimer ts expire) ts expire.toInt64, .quiet)
    else .ok (s.disarm (s.timers.qemuGetTimer ts expire) ts, .quiet)
  | .runTimers clock =>
    if s.Idle then
      -- A stopped clock is not read.
      if !s.timers.enabled then .ok (s, .quiet)
      else .ok ({ s with frames := ⟨clock, none⟩ :: s.frames }, .quiet)
    else .error .notIdle
  | .turn =>
    match s.frames with
    | ⟨currentTime, none⟩ :: frames =>
      match s.timers.expire currentTime with
      | none => .ok ({ s with frames }, .returns currentTime)
      | some (ts, timers) =>
        .ok ({ s.disarm timers ts with frames := ⟨currentTime, some ts⟩ :: frames }, .calls ts currentTime)
    | _ => .error .notInLoop
  | .callbackReturns =>
    match s.frames with
    | ⟨currentTime, some _⟩ :: frames => .ok ({ s with frames := ⟨currentTime, none⟩ :: frames }, .quiet)
    | _ => .error .notInCallback

/-- The active list has each armed timer once, with its deadline, sorted by deadline and the
timers of one deadline in arming order. -/
structure Ordered (s : Session ι) : Prop where
  nodup : s.timers.active.Nodup
  mem_iff : ∀ ts, ts ∈ s.timers.active ↔ (s.armed ts).isSome
  expireTime : ∀ ts, ∀ a ∈ s.armed ts, s.timers.expireTime ts = a.deadline
  sorted : s.timers.active.Pairwise fun t u ↦ ∀ a ∈ s.armed t, ∀ b ∈ s.armed u, a.Before b

/-- What the queue shows of itself agrees with what is armed. A callback is called for the
first of all armed timers, and only when it is due; the loop ends when none is due. -/
def Shows (s : Session ι) : Label ι → Prop
  | .quiet => True
  | .saved ts expire => expire = ((s.armed ts).map fun a ↦ a.deadline.toUInt64).getD (-1)
  | .calls ts currentTime => ∃ a ∈ s.armed ts, a.deadline ≤ currentTime ∧
      ∀ u ≠ ts, ∀ b ∈ s.armed u, a.Before b
  | .returns currentTime => ∀ ts, ∀ a ∈ s.armed ts, currentTime < a.deadline

/-- An ordered queue whose armings are numbered as they come. -/
structure Kept (s : Session ι) : Prop extends s.Ordered where
  number_lt : ∀ ts, ∀ a ∈ s.armed ts, a.number < s.armings

end Session

theorem Arming.Before.deadline_le {a b : Arming} (h : a.Before b) : a.deadline ≤ b.deadline := by
  rcases h with h | ⟨h, -⟩
  · exact Int64.le_of_lt h
  · exact Int64.le_of_eq h

namespace Timers

variable {expireTime : ι → Int64} {ts : ι} {expire : Int64} {l : List ι}

theorem insertBefore_perm (expireTime : ι → Int64) (ts : ι) (expire : Int64) (l : List ι) :
    (insertBefore expireTime ts expire l).Perm (ts :: l) := by
  induction l with
  | nil => exact .refl _
  | cons t rest ih =>
    unfold insertBefore
    split
    · exact .refl _
    · exact (ih.cons t).trans (.swap ts t rest)

/-- The new timer comes between those that expire no later and those that expire later. -/
theorem insertBefore_pairwise {R : ι → ι → Prop} (hl : l.Pairwise R)
    (hlow : ∀ t ∈ l, expireTime t ≤ expire → R t ts) (hhigh : ∀ t ∈ l, expire < expireTime t → R ts t)
    (hmono : ∀ t ∈ l, ∀ u ∈ l, R t u → expireTime t ≤ expireTime u) :
    (insertBefore expireTime ts expire l).Pairwise R := by
  induction l with
  | nil => exact List.pairwise_singleton R ts
  | cons t rest ih =>
    obtain ⟨ht, hrest⟩ := List.pairwise_cons.mp hl
    unfold insertBefore
    split
    case isTrue hlt =>
      refine List.pairwise_cons.mpr ⟨?_, hl⟩
      intro u hu
      apply hhigh u hu
      rcases List.mem_cons.mp hu with rfl | hmem
      · exact hlt
      · exact Int64.lt_of_lt_of_le hlt (hmono t List.mem_cons_self u hu (ht u hmem))
    case isFalse hle =>
      refine List.pairwise_cons.mpr ⟨?_, ?_⟩
      · intro u hu
        rcases List.mem_cons.mp ((insertBefore_perm expireTime ts expire rest).subset hu) with rfl | hmem
        · exact hlow t List.mem_cons_self (Int64.not_lt.mp hle)
        · exact ht u hmem
      · apply ih hrest
        · exact fun u hu ↦ hlow u (List.mem_cons_of_mem t hu)
        · exact fun u hu ↦ hhigh u (List.mem_cons_of_mem t hu)
        · exact fun u hu v hv ↦ hmono u (List.mem_cons_of_mem t hu) v (List.mem_cons_of_mem t hv)

end Timers

namespace Session

variable {s t : Session ι}

theorem Ordered.exists_armed (h : s.Ordered) {ts : ι} (hmem : ts ∈ s.timers.active) :
    ∃ a, s.armed ts = some a ∧ s.timers.expireTime ts = a.deadline := by
  obtain ⟨a, ha⟩ := Option.isSome_iff_exists.mp ((h.mem_iff ts).mp hmem)
  exact ⟨a, ha, h.expireTime ts a ha⟩

theorem Kept.frames (h : s.Kept) (frames : List (Frame ι)) : Kept { s with frames } :=
  ⟨⟨h.nodup, h.mem_iff, h.expireTime, h.sorted⟩, h.number_lt⟩

variable [DecidableEq ι]

/-- Taking one timer out of the list and off the armed ones keeps the others as they are. -/
theorem Kept.disarm (h : s.Kept) (ts : ι) : (s.disarm (s.timers.qemuDelTimer ts) ts).Kept := by
  have hother : ∀ {u a}, a ∈ Function.update s.armed ts none u → u ≠ ts ∧ a ∈ s.armed u := by
    intro u a ha
    by_cases hu : u = ts
    · simp [hu] at ha
    · rw [Function.update_of_ne hu] at ha
      exact ⟨hu, ha⟩
  refine ⟨⟨h.nodup.erase ts, ?_, ?_, ?_⟩, ?_⟩
  · intro u
    by_cases hu : u = ts
    · subst hu
      simp [Session.disarm, Timers.qemuDelTimer, h.nodup.not_mem_erase]
    · simp [Session.disarm, Timers.qemuDelTimer, Function.update_of_ne hu, List.mem_erase_of_ne hu, h.mem_iff]
  · exact fun u a ha ↦ h.expireTime u a (hother ha).2
  · refine (h.sorted.sublist List.erase_sublist).imp ?_
    exact fun hR a ha b hb ↦ hR a (hother ha).2 b (hother hb).2
  · exact fun u a ha ↦ h.number_lt u a (hother ha).2

theorem armed_arm_of_ne {timers : Timers ι} {ts u : ι} {deadline : Int64} (hu : u ≠ ts) :
    (s.arm timers ts deadline).armed u = s.armed u :=
  Function.update_of_ne hu _ _

theorem armed_arm_self {timers : Timers ι} {ts : ι} {deadline : Int64} {a : Arming}
    (ha : a ∈ (s.arm timers ts deadline).armed ts) : a = ⟨deadline, s.armings⟩ := by
  simp only [arm, Function.update_self, Option.mem_def, Option.some.injEq] at ha
  exact ha.symm

-- The new arming has the greatest number, so it comes after the others of its deadline.
theorem Kept.insert_sorted (h : s.Kept) {ts : ι} (hts : ts ∉ s.timers.active) (timers : Timers ι)
    (deadline : Int64) :
    (Timers.insertBefore s.timers.expireTime ts deadline s.timers.active).Pairwise fun t u ↦
      ∀ a ∈ (s.arm timers ts deadline).armed t, ∀ b ∈ (s.arm timers ts deadline).armed u, a.Before b := by
  apply Timers.insertBefore_pairwise
  · refine h.sorted.imp_of_mem ?_
    intro u v hu hv hR a ha b hb
    rw [armed_arm_of_ne (ne_of_mem_of_not_mem hu hts)] at ha
    rw [armed_arm_of_ne (ne_of_mem_of_not_mem hv hts)] at hb
    exact hR a ha b hb
  · intro u hu hle a ha b hb
    rw [armed_arm_of_ne (ne_of_mem_of_not_mem hu hts)] at ha
    cases armed_arm_self hb
    rw [h.expireTime u a ha] at hle
    rcases Int64.lt_or_eq_of_le hle with hlt | heq
    · exact .inl hlt
    · exact .inr ⟨heq, h.number_lt u a ha⟩
  · intro u hu hgt a ha b hb
    cases armed_arm_self ha
    rw [armed_arm_of_ne (ne_of_mem_of_not_mem hu hts)] at hb
    rw [h.expireTime u b hb] at hgt
    exact .inl hgt
  · intro u hu v hv hR
    obtain ⟨a, ha, heu⟩ := h.exists_armed hu
    obtain ⟨b, hb, hev⟩ := h.exists_armed hv
    rw [heu, hev]
    apply Arming.Before.deadline_le
    apply hR
    · rw [armed_arm_of_ne (ne_of_mem_of_not_mem hu hts)]
      exact ha
    · rw [armed_arm_of_ne (ne_of_mem_of_not_mem hv hts)]
      exact hb

theorem Kept.insert (h : s.Kept) {ts : ι} (hts : ts ∉ s.timers.active) (deadline : Int64) :
    (s.arm { s.timers with
      active := Timers.insertBefore s.timers.expireTime ts deadline s.timers.active
      expireTime := Function.update s.timers.expireTime ts deadline } ts deadline).Kept := by
  have hperm := Timers.insertBefore_perm s.timers.expireTime ts deadline s.timers.active
  refine ⟨⟨hperm.nodup_iff.mpr ?_, ?_, ?_, h.insert_sorted hts _ deadline⟩, ?_⟩
  · exact List.nodup_cons.mpr ⟨hts, h.nodup⟩
  · intro u
    refine hperm.mem_iff.trans ?_
    by_cases hu : u = ts
    · subst hu
      simp [arm]
    · rw [armed_arm_of_ne hu, ← h.mem_iff]
      simp [hu]
  · intro u a ha
    by_cases hu : u = ts
    · subst hu
      cases armed_arm_self ha
      exact Function.update_self ..
    · rw [armed_arm_of_ne hu] at ha
      exact (Function.update_of_ne hu _ _).trans (h.expireTime u a ha)
  · intro u a ha
    by_cases hu : u = ts
    · subst hu
      cases armed_arm_self ha
      exact Nat.lt_succ_self _
    · rw [armed_arm_of_ne hu] at ha
      exact Nat.lt_succ_of_lt (h.number_lt u a ha)

theorem Kept.arm (h : s.Kept) (ts : ι) (deadline : Int64) :
    (s.arm (s.timers.qemuModTimerNs ts deadline) ts deadline).Kept := by
  have hins := (h.disarm ts).insert h.nodup.not_mem_erase deadline
  simp only [Session.arm, Session.disarm, Function.update_idem] at hins
  exact hins

/-- One turn of the loop takes the first of the armed timers if it is due. -/
theorem Kept.expire (h : s.Kept) (currentTime : Int64) :
    (s.timers.expire currentTime = none ∧ s.Shows (.returns currentTime)) ∨
    ∃ ts, s.timers.expire currentTime = some (ts, s.timers.qemuDelTimer ts) ∧
      s.Shows (.calls ts currentTime) := by
  cases hactive : s.timers.active with
  | nil =>
    refine .inl ⟨by simp [Timers.expire, hactive], ?_⟩
    intro ts a ha
    have hmem := (h.mem_iff ts).mpr (Option.isSome_of_mem ha)
    simp [hactive] at hmem
  | cons ts rest =>
    have hsorted := h.sorted
    rw [hactive, List.pairwise_cons] at hsorted
    obtain ⟨a, ha, hexpire⟩ := h.exists_armed (show ts ∈ s.timers.active by simp [hactive])
    have hfirst : ∀ u ≠ ts, ∀ b ∈ s.armed u, a.Before b := by
      intro u hu b hb
      have hmem := (h.mem_iff u).mpr (Option.isSome_of_mem hb)
      rw [hactive, List.mem_cons] at hmem
      exact hsorted.1 u (hmem.resolve_left hu) a ha b hb
    by_cases hdue : s.timers.expireTime ts > currentTime
    · refine .inl ⟨by simp [Timers.expire, hactive, hdue], ?_⟩
      rw [hexpire] at hdue
      intro u b hb
      by_cases hu : u = ts
      · subst hu
        cases ha.symm.trans hb
        exact hdue
      · exact Int64.lt_of_lt_of_le hdue (hfirst u hu b hb).deadline_le
    · refine .inr ⟨ts, by simp [Timers.expire, Timers.qemuDelTimer, hactive, hdue], a, ha, ?_, hfirst⟩
      rw [← hexpire]
      exact Int64.not_lt.mp hdue

theorem Kept.qemuTimerPending (h : s.Kept) (ts : ι) :
    s.timers.qemuTimerPending ts = (s.armed ts).isSome := by
  rw [Bool.eq_iff_iff, ← h.mem_iff]
  simp [Timers.qemuTimerPending]

theorem Kept.shows_saved (h : s.Kept) (ts : ι) : s.Shows (.saved ts (s.timers.qemuPutTimer ts)) := by
  have hpending := h.qemuTimerPending ts
  unfold Shows Timers.qemuPutTimer
  cases ha : s.armed ts with
  | none => simp [hpending, ha]
  | some a => simp [hpending, ha, h.expireTime ts a ha]

-- Callbacks run between two turns, and the next turn looks at the list as they left it.
theorem Kept.step {scale : ι → Int32} (h : s.Kept) {c : Input ι} {o : Label ι}
    (hstep : s.step scale c = .ok (t, o)) : t.Kept ∧ s.Shows o := by
  cases c with
  | clockEnable enabled =>
    cases hstep
    exact ⟨⟨⟨h.nodup, h.mem_iff, h.expireTime, h.sorted⟩, h.number_lt⟩, trivial⟩
  | modTimer ts expire =>
    cases hstep
    exact ⟨h.arm ts _, trivial⟩
  | delTimer ts =>
    cases hstep
    exact ⟨h.disarm ts, trivial⟩
  | putTimer ts =>
    cases hstep
    exact ⟨h, h.shows_saved ts⟩
  | getTimer ts expire =>
    simp only [Session.step, Timers.qemuGetTimer] at hstep
    split at hstep
    · cases hstep
      exact ⟨h.arm ts _, trivial⟩
    · cases hstep
      exact ⟨h.disarm ts, trivial⟩
  | runTimers clock =>
    simp only [Session.step] at hstep
    split at hstep
    · split at hstep
      · cases hstep
        exact ⟨h, trivial⟩
      · cases hstep
        exact ⟨h.frames _, trivial⟩
    · cases hstep
  | turn =>
    simp only [Session.step] at hstep
    split at hstep
    case h_1 currentTime frames hframes =>
      rcases h.expire currentTime with ⟨hnone, hshows⟩ | ⟨ts, hsome, hshows⟩
      · rw [hnone] at hstep
        cases hstep
        exact ⟨h.frames _, hshows⟩
      · rw [hsome] at hstep
        cases hstep
        exact ⟨(h.disarm ts).frames _, hshows⟩
    case h_2 => cases hstep
  | callbackReturns =>
    simp only [Session.step] at hstep
    split at hstep
    · cases hstep
      exact ⟨h.frames _, trivial⟩
    · cases hstep

end Session

theorem kept_boot : (boot ι).Kept := by
  refine ⟨⟨List.nodup_nil, ?_, ?_, List.Pairwise.nil⟩, ?_⟩
  · intro ts
    simp [boot]
  · intro ts a ha
    cases ha
  · intro ts a ha
    cases ha

/-- Whatever callbacks and other code arm and delete, in every state the active list has
exactly the armed timers, in order; each callback that is called is due and the first of the
timers armed then; and the loop ends only when no armed timer is due. -/
theorem timers_in_order [DecidableEq ι] (scale : ι → Int32) (cs : List (Input ι)) :
    Throughout (Session.step scale) Session.Ordered (boot ι) cs ∧
      ∀ pre c s t o, pre ++ [c] <+: cs → Run (Session.step scale) (boot ι) pre s →
        s.step scale c = .ok (t, o) → s.Shows o := by
  have hkept : ∀ {pre s}, Run (Session.step scale) (boot ι) pre s → s.Kept := by
    intro pre s hrun
    apply hrun.invariant kept_boot
    intro s c t o _ hs hstep
    exact (hs.step hstep).1
  constructor
  · intro pre s _ hrun
    exact (hkept hrun).toOrdered
  · intro pre c s t o _ hrun hstep
    exact ((hkept hrun).step hstep).2

end IDeviceEmulator.Clock.Queue
