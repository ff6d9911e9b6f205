import Mathlib.Algebra.Group.Int.Defs
import Mathlib.Data.Int.Order.Basic
import IDeviceEmulator.Library.Machine

namespace IDeviceEmulator.Clock.Ticks

open Machine

structure TimersState where
  cpuTicksPrev : Int64
  cpuTicksOffset : Int64
  cpuClockOffset : Int64
  cpuTicksEnabled : Bool

/-- The host cycle counter, with stops and restarts taken out; the counter of a machine
that does not count instructions. -/
def cpuGetTicks (s : TimersState) (realTicks : Int64) : TimersState × Int64 :=
  if !s.cpuTicksEnabled then (s, s.cpuTicksOffset)
  else
    let offset :=
      if s.cpuTicksPrev > realTicks then s.cpuTicksOffset + (s.cpuTicksPrev - realTicks)
      else s.cpuTicksOffset
    ({ s with cpuTicksOffset := offset, cpuTicksPrev := realTicks }, realTicks + offset)

def cpuGetClock (s : TimersState) (clock : Int64) : Int64 :=
  if !s.cpuTicksEnabled then s.cpuClockOffset else clock + s.cpuClockOffset

-- The remembered host value stays the one of the last sample before the stop.
def cpuEnableTicks (s : TimersState) (realTicks clock : Int64) : TimersState :=
  if !s.cpuTicksEnabled then
    { s with
      cpuTicksOffset := s.cpuTicksOffset - realTicks
      cpuClockOffset := s.cpuClockOffset - clock
      cpuTicksEnabled := true }
  else s

/-- The second component is what the call to `cpuGetTicks` inside returned. -/
def cpuDisableTicks (s : TimersState) (realTicks clock : Int64) : TimersState × Option Int64 :=
  if s.cpuTicksEnabled then
    let (s, ticks) := cpuGetTicks s realTicks
    let s := { s with cpuTicksOffset := ticks }
    ({ s with cpuClockOffset := cpuGetClock s clock, cpuTicksEnabled := false }, some ticks)
  else (s, none)

/-- A call, with what the host counter and the host clock show while it runs. -/
inductive Call
  | enable (realTicks clock : Int64)
  | disable (realTicks clock : Int64)
  | get (realTicks : Int64)

/-- The counter with its history: the last value that was returned, and the host value at
which the counter was enabled, until it is sampled again. -/
structure Session where
  timers : TimersState
  last : Option Int64
  resumed : Option Int64

def boot : Session := ⟨⟨0, 0, 0, false⟩, none, none⟩

namespace Session

def returned (s : Session) (timers : TimersState) (ticks : Int64) : Session :=
  ⟨timers, some ticks, if s.timers.cpuTicksEnabled then none else s.resumed⟩

def step (s : Session) : Call → Except Empty (Session × Option Int64)
  | .enable realTicks clock =>
    .ok ({ s with
      timers := cpuEnableTicks s.timers realTicks clock
      resumed := if s.timers.cpuTicksEnabled then s.resumed else some realTicks }, none)
  | .disable realTicks clock =>
    match cpuDisableTicks s.timers realTicks clock with
    | (timers, some ticks) => .ok (s.returned timers ticks, some ticks)
    | (timers, none) => .ok ({ s with timers }, none)
  | .get realTicks =>
    let (timers, ticks) := cpuGetTicks s.timers realTicks
    .ok (s.returned timers ticks, some ticks)

/-- The host value that the last returned value stands for. -/
def base (s : Session) : Int64 := s.resumed.getD s.timers.cpuTicksPrev

/-- The host counter, as far as the remembered value makes up for a jump, has not fallen
below the value at which the counter was enabled, and the guest counter does not pass
its last value. -/
def Compensated (s : Session) (realTicks : Int64) : Prop :=
  s.timers.cpuTicksEnabled → ∀ last ∈ s.last,
    let shown := max s.timers.cpuTicksPrev.toInt realTicks.toInt
    s.base.toInt ≤ shown ∧ last.toInt + (shown - s.base.toInt) < 2 ^ 63

def Legal (s : Session) : Call → Prop
  | .enable _ _ => True
  | .disable realTicks _ => s.Compensated realTicks
  | .get realTicks => s.Compensated realTicks

-- The last value is looked at, not every value of its type.
instance (s : Session) (realTicks : Int64) : Decidable (s.Compensated realTicks) :=
  @instDecidableForall _ _ _ (@Option.decidableForallMem _ _ (fun _ ↦ inferInstanceAs (Decidable (_ ∧ _ < _))) s.last)

instance (s : Session) : (c : Call) → Decidable (s.Legal c)
  | .enable _ _ => inferInstanceAs (Decidable True)
  | .disable realTicks _ => inferInstanceAs (Decidable (s.Compensated realTicks))
  | .get realTicks => inferInstanceAs (Decidable (s.Compensated realTicks))

/-- The last value is the offset while the counter is stopped, and the offset from the
host value it stands for while the counter runs. -/
def Agrees (s : Session) : Prop :=
  ∀ last ∈ s.last,
    last = if s.timers.cpuTicksEnabled then s.base + s.timers.cpuTicksOffset else s.timers.cpuTicksOffset

end Session

theorem toInt_add_sub {a b c : Int64} (hbc : b.toInt ≤ c.toInt) (h : a.toInt + (c.toInt - b.toInt) < 2 ^ 63) :
    (a + (c - b)).toInt = a.toInt + (c.toInt - b.toInt) := by
  have hlow := a.minValue_le_toInt
  rw [Int64.toInt_add, Int64.toInt_sub, Int.add_bmod_bmod]
  apply Int.bmod_eq_of_le
  · simp at hlow ⊢
    omega
  · omega

theorem le_add_sub {a b c : Int64} (hbc : b.toInt ≤ c.toInt) (h : a.toInt + (c.toInt - b.toInt) < 2 ^ 63) :
    a ≤ a + (c - b) := by
  rw [Int64.le_iff_toInt_le, toInt_add_sub hbc h]
  omega

def TimersState.shown (s : TimersState) (realTicks : Int64) : Int64 :=
  if s.cpuTicksPrev > realTicks then s.cpuTicksPrev else realTicks

theorem TimersState.toInt_shown (s : TimersState) (realTicks : Int64) :
    (s.shown realTicks).toInt = max s.cpuTicksPrev.toInt realTicks.toInt := by
  unfold shown
  split
  case isTrue h =>
    have hlt := Int64.lt_iff_toInt_lt.mp h
    omega
  case isFalse h =>
    have hle := mt Int64.lt_iff_toInt_lt.mpr h
    omega

/-- A jump back is made up for from the remembered host value. -/
theorem cpuGetTicks_enabled {s : TimersState} (h : s.cpuTicksEnabled = true) (realTicks : Int64) :
    ∃ offset, cpuGetTicks s realTicks =
        ({ s with cpuTicksOffset := offset, cpuTicksPrev := realTicks }, realTicks + offset) ∧
      realTicks + offset = s.shown realTicks + s.cpuTicksOffset := by
  unfold cpuGetTicks TimersState.shown
  simp only [h, Bool.not_true, Bool.false_eq_true, if_false]
  split
  · exact ⟨_, rfl, by grind⟩
  · exact ⟨_, rfl, rfl⟩

theorem cpuGetTicks_disabled {s : TimersState} (h : s.cpuTicksEnabled = false) (realTicks : Int64) :
    cpuGetTicks s realTicks = (s, s.cpuTicksOffset) := by
  simp [cpuGetTicks, h]

namespace Session

variable {s : Session} {realTicks : Int64}

theorem le_of_compensated (hs : s.Agrees) (hon : s.timers.cpuTicksEnabled = true)
    (h : s.Compensated realTicks) {last : Int64} (hlast : last ∈ s.last) :
    last ≤ s.timers.shown realTicks + s.timers.cpuTicksOffset := by
  obtain ⟨hbase, htop⟩ := h hon last hlast
  rw [← TimersState.toInt_shown] at hbase htop
  have hvalue := hs last hlast
  rw [if_pos hon] at hvalue
  have hle := le_add_sub hbase htop
  have heq : last + (s.timers.shown realTicks - s.base) = s.timers.shown realTicks + s.timers.cpuTicksOffset := by
    grind
  rw [← heq]
  exact hle

/-- What a step does to the last value. -/
structure Advances (s t : Session) (o : Option Int64) : Prop where
  agrees : t.Agrees
  returns : ∀ v ∈ o, t.last = some v ∧ ∀ last ∈ s.last, last ≤ v
  silent : o = none → t.last = s.last

theorem Advances.returned {timers : TimersState} {ticks : Int64} (ht : (s.returned timers ticks).Agrees)
    (hle : ∀ last ∈ s.last, last ≤ ticks) : Advances s (s.returned timers ticks) (some ticks) := by
  refine ⟨ht, ?_, by simp⟩
  intro v hv
  cases hv
  exact ⟨rfl, hle⟩

theorem get_advances (hs : s.Agrees) (h : s.Compensated realTicks) :
    ∃ t o, s.step (.get realTicks) = .ok (t, o) ∧ Advances s t o := by
  cases hon : s.timers.cpuTicksEnabled with
  | false =>
    refine ⟨_, _, by rw [step, cpuGetTicks_disabled hon], .returned ?_ ?_⟩
    · simp [Agrees, returned, hon]
    · intro last hlast
      have hvalue := hs last hlast
      simp only [hon, Bool.false_eq_true, if_false] at hvalue
      rw [hvalue]
      exact Int64.le_refl _
  | true =>
    obtain ⟨offset, hget, heq⟩ := cpuGetTicks_enabled hon realTicks
    refine ⟨_, _, by rw [step, hget], .returned ?_ ?_⟩
    · simp [Agrees, returned, base, hon]
    · intro last hlast
      rw [heq]
      exact le_of_compensated hs hon h hlast

theorem disable_advances (hs : s.Agrees) (clock : Int64) (h : s.Compensated realTicks) :
    ∃ t o, s.step (.disable realTicks clock) = .ok (t, o) ∧ Advances s t o := by
  cases hon : s.timers.cpuTicksEnabled with
  | false =>
    refine ⟨s, none, ?_, hs, by simp, by simp⟩
    simp [step, cpuDisableTicks, hon]
  | true =>
    obtain ⟨offset, hget, heq⟩ := cpuGetTicks_enabled hon realTicks
    refine ⟨_, _, by rw [step, cpuDisableTicks, if_pos hon, hget], .returned ?_ ?_⟩
    · simp [Agrees, returned]
    · intro last hlast
      rw [heq]
      exact le_of_compensated hs hon h hlast

theorem enable_advances (hs : s.Agrees) (clock : Int64) :
    ∃ t o, s.step (.enable realTicks clock) = .ok (t, o) ∧ Advances s t o := by
  refine ⟨_, _, rfl, ?_, by simp, by simp⟩
  intro last hlast
  have hvalue := hs last hlast
  cases hon : s.timers.cpuTicksEnabled with
  | false =>
    simp only [hon, Bool.false_eq_true, if_false] at hvalue
    simp only [cpuEnableTicks, hon, base, hvalue, Bool.not_false, if_true, Bool.false_eq_true, if_false,
      Option.getD_some]
    grind
  | true => simpa [cpuEnableTicks, hon, base] using hvalue

theorem step_advances (hs : s.Agrees) (c : Call) (h : s.Legal c) :
    ∃ t o, s.step c = .ok (t, o) ∧ Advances s t o := by
  cases c with
  | enable realTicks clock => exact enable_advances hs clock
  | disable realTicks clock => exact disable_advances hs clock h
  | get realTicks => exact get_advances hs h

/-- A legal run goes on from the last value and never back. -/
theorem exec_advances {cs : List Call} (hs : s.Agrees) (h : Attempts step Legal s cs) :
    ∃ t os, exec step s cs = .ok (t, os) ∧ (s.last.toList ++ os.reduceOption).Pairwise (· ≤ ·) := by
  induction cs generalizing s with
  | nil =>
    refine ⟨s, [], rfl, ?_⟩
    cases s.last <;> simp
  | cons c cs ih =>
    obtain ⟨t, o, hstep, hadv⟩ := step_advances hs c h.head
    obtain ⟨u, os, hexec, hsorted⟩ := ih hadv.agrees (h.tail hstep)
    refine ⟨u, o :: os, exec_cons hstep hexec, ?_⟩
    cases o with
    | none =>
      rw [hadv.silent rfl] at hsorted
      simpa using hsorted
    | some v =>
      obtain ⟨hlast, hle⟩ := hadv.returns v rfl
      rw [hlast] at hsorted
      rw [List.reduceOption_cons_of_some]
      cases hl : s.last with
      | none => simpa using hsorted
      | some last =>
        have hv := hle last hl
        simp only [Option.toList_some, List.cons_append, List.nil_append, List.pairwise_cons] at hsorted ⊢
        refine ⟨?_, hsorted⟩
        intro w hw
        rcases List.mem_cons.mp hw with rfl | hw
        · exact hv
        · exact Int64.le_trans hv (hsorted.1 w hw)

end Session

theorem agrees_boot : boot.Agrees := by
  intro last hlast
  cases hlast

/-- The guest counter never goes back, whatever the host counter does while it is sampled
or stopped, as long as it does not fall between the restart and the first sample. -/
theorem ticks_monotone (cs : List Call) (h : Attempts Session.step Session.Legal boot cs) :
    ∃ t os, exec Session.step boot cs = .ok (t, os) ∧ os.reduceOption.Pairwise (· ≤ ·) := by
  obtain ⟨t, os, hexec, hsorted⟩ := Session.exec_advances agrees_boot h
  exact ⟨t, os, hexec, hsorted⟩

theorem ticks_monotone_suspended :
    Attempts Session.step Session.Legal boot
        [.enable 100 0, .get 150, .get 40, .disable 60 5, .enable 10 9, .get 30] ∧
      ∃ t os, exec Session.step boot
          [.enable 100 0, .get 150, .get 40, .disable 60 5, .enable 10 9, .get 30] = .ok (t, os) ∧
        os.reduceOption.Pairwise (· ≤ ·) :=
  have h : Attempts Session.step Session.Legal boot
      [.enable 100 0, .get 150, .get 40, .disable 60 5, .enable 10 9, .get 30] := by decide +kernel
  ⟨h, ticks_monotone _ h⟩

/-- The host is suspended after the counter was enabled again and before it was sampled. -/
theorem ticks_monotone_fails :
    ¬ ∀ cs : List Call, ∃ t os, exec Session.step boot cs = .ok (t, os) ∧
      os.reduceOption.Pairwise (· ≤ ·) := by
  intro h
  obtain ⟨t, os, hexec, hsorted⟩ :=
    h [.enable 100 0, .get 100, .disable 110 0, .enable 200 0, .get 150]
  have hos : os = [none, some 0, some 10, none, some (-40)] := by
    have heq : (exec Session.step boot [.enable 100 0, .get 100, .disable 110 0, .enable 200 0, .get 150]).map
        Prod.snd = .ok [none, some 0, some 10, none, some (-40)] := by rfl
    rw [hexec] at heq
    exact Except.ok.inj heq
  rw [hos] at hsorted
  exact absurd hsorted (by decide)

end IDeviceEmulator.Clock.Ticks
