import Mathlib.Data.List.Nodup
import Mathlib.Data.List.Range
import IDeviceEmulator.Block.Multiwrite
import IDeviceEmulator.Library.Machine

namespace IDeviceEmulator.Block

open Machine

def eio : Int := 5

def enomedium : Int := 123

/-- A request of the caller with what its callback is called on, and its error. -/
structure UserRequest (κ : Type) where
  request : BlockRequest
  cb : κ
  error : Int

structure MultiwriteCB (κ : Type) where
  error : Int
  numRequests : Int
  callbacks : List κ

/-- Where `bdrv_aio_multiwrite` is: in the call of `bdrv_aio_writev` for a request, or
returned. -/
inductive Phase
  | calling (i : Nat)
  | returned (ret : Int)

/-- A call of `bdrv_aio_multiwrite`. `numReqs` is the number of requests after the merge and
`mcb` is gone when it is freed; the rest is history: how many requests were submitted, which of
these are not completed, the results of the others, and the callbacks called. -/
structure Session (κ : Type) where
  numReqs : Nat
  mcb : Option (MultiwriteCB κ)
  phase : Phase
  errors : List Int
  submitted : Nat
  outstanding : List Nat
  results : List (Nat × Int)
  called : List (κ × Int)

/-- The return of `bdrv_aio_writev`, with a control block or `NULL`, and the completion of a
request, which may come before that return. -/
inductive Input
  | writevReturns (acb : Bool)
  | completes (i : Nat) (ret : Int)

inductive Fault
  | freed
  | notCalling
  | notOutstanding

variable {κ : Type}

/-- The result of a request is kept if it is the first error. -/
def MultiwriteCB.complete (mcb : MultiwriteCB κ) (ret : Int) : MultiwriteCB κ :=
  { mcb with
    error := if ret < 0 ∧ mcb.error = 0 then ret else mcb.error
    numRequests := mcb.numRequests - 1 }

def multiwriteUserCb (s : Session κ) (mcb : MultiwriteCB κ) : Session κ :=
  { s with called := s.called ++ mcb.callbacks.map fun cb ↦ (cb, mcb.error) }

def multiwriteCb (s : Session κ) (ret : Int) : Except Fault (Session κ) :=
  match s.mcb with
  | none => .error .freed
  | some mcb =>
    let mcb := mcb.complete ret
    if mcb.numRequests = 0 then .ok { multiwriteUserCb s mcb with mcb := none }
    else .ok { s with mcb := some mcb }

/-- The beginning of a turn of the loop, up to the call of `bdrv_aio_writev`. -/
def callWritev (s : Session κ) (i : Nat) : Except Fault (Session κ) :=
  match s.mcb with
  | none => .error .freed
  | some mcb =>
    .ok { s with
      mcb := some { mcb with numRequests := mcb.numRequests + 1 }
      phase := .calling i
      submitted := s.submitted + 1
      outstanding := i :: s.outstanding }

/-- The completion of the dummy request. -/
def finish (s : Session κ) : Except Fault (Session κ) :=
  (multiwriteCb s 0).map fun s ↦ { s with phase := .returned 0 }

/-- `bdrv_aio_multiwrite` up to the first call of `bdrv_aio_writev`. -/
def bdrvAioMultiwrite (drv : Option MergeRequests) (reqs : List (UserRequest κ)) (sorted : List BlockRequest) :
    Except Fault (Session κ) :=
  match drv with
  | none => .ok ⟨0, none, .returned (-1), reqs.map fun _ ↦ -enomedium, 0, [], [], []⟩
  | some driver =>
    if reqs.length = 0 then .ok ⟨0, none, .returned 0, [], 0, [], [], []⟩
    else
      let mcb := ⟨0, 1, reqs.map UserRequest.cb⟩
      let numReqs := (multiwriteMerge driver sorted).length
      callWritev ⟨numReqs, some mcb, .calling 0, reqs.map UserRequest.error, 0, [], [], []⟩ 0

namespace Session

/-- The history when a request completes. -/
def record (s : Session κ) (i : Nat) (ret : Int) : Session κ :=
  { s with outstanding := s.outstanding.erase i, results := (i, ret) :: s.results }

/-- The turn of the loop for request `i` after the call of `bdrv_aio_writev`. -/
def writevReturned (s : Session κ) (i : Nat) (acb : Bool) : Except Fault (Session κ × Unit) :=
  if acb then
    if i + 1 < s.numReqs then (callWritev s (i + 1)).map (·, ()) else (finish s).map (·, ())
  -- What was not submitted cannot have completed.
  else if i ∈ s.outstanding then
    let s := { s with submitted := i, outstanding := s.outstanding.erase i }
    if i = 0 then .ok ({ s with mcb := none, phase := .returned (-1), errors := s.errors.map fun _ ↦ -eio }, ())
    else ((multiwriteCb s (-eio)).bind finish).map (·, ())
  else .error .notOutstanding

def step (s : Session κ) : Input → Except Fault (Session κ × Unit)
  | .completes i ret =>
    if i ∈ s.outstanding then (multiwriteCb (s.record i ret) ret).map (·, ()) else .error .notOutstanding
  | .writevReturns acb =>
    match s.phase with
    | .returned _ => .error .notCalling
    | .calling i => s.writevReturned i acb

/-- Every request after the merge was submitted and completed without an error. -/
def Succeeded (s : Session κ) : Prop := ∀ i < s.numReqs, ∃ ret, (i, ret) ∈ s.results ∧ 0 ≤ ret

/-- What the caller sees: nothing while the call lasts; after a failure an error on every
request and no callback; else no callback until all that was submitted has completed, and then
each callback once. -/
def Completes (reqs : List (UserRequest κ)) (s : Session κ) : Prop :=
  match s.phase with
  | .calling i => i < s.numReqs ∧ s.called = []
  | .returned ret =>
    (ret = -1 ∧ s.outstanding = [] ∧ s.called = [] ∧ s.errors.length = reqs.length ∧ ∀ error ∈ s.errors, error < 0) ∨
      (ret = 0 ∧ if s.outstanding = [] then
        ∃ status, s.called = reqs.map (fun r ↦ (r.cb, status)) ∧ (status = 0 ↔ s.Succeeded)
      else s.called = [])

/-- Where the return of `bdrv_aio_writev` for request `i` leads. -/
def nextPhase (s : Session κ) (i : Nat) (acb : Bool) : Phase :=
  if acb then if i + 1 < s.numReqs then .calling (i + 1) else .returned 0
  else if i = 0 then .returned (-1) else .returned 0

/-- The call goes on: `bdrv_aio_writev` can return for the request that it was called with, which leads to the next
request or out of the loop, and each request that is not completed can complete. -/
structure GoesOn (s : Session κ) : Prop where
  returns : ∀ i acb, s.phase = .calling i → acb = true ∨ i ∈ s.outstanding →
    ∃ t, s.step (.writevReturns acb) = .ok (t, ()) ∧ t.phase = s.nextPhase i acb
  completes : ∀ i ∈ s.outstanding, ∀ ret, ∃ t, s.step (.completes i ret) = .ok (t, ()) ∧ t.phase = s.phase ∧
    t.outstanding = s.outstanding.erase i ∧ t.results = (i, ret) :: s.results

end Session

def Input.isReturn : Input → Bool
  | .writevReturns _ => true
  | .completes _ _ => false

section Phases

variable {s t : Session κ} {i : Nat}

theorem multiwriteCb_frame {ret : Int} (h : multiwriteCb s ret = .ok t) :
    t.numReqs = s.numReqs ∧ t.phase = s.phase ∧ t.outstanding = s.outstanding ∧ t.results = s.results := by
  unfold multiwriteCb at h
  cases hmcb : s.mcb with
  | none =>
    rw [hmcb] at h
    cases h
  | some mcb =>
    rw [hmcb] at h
    dsimp only at h
    split_ifs at h with hlast
    · cases h
      exact ⟨rfl, rfl, rfl, rfl⟩
    · cases h
      exact ⟨rfl, rfl, rfl, rfl⟩

theorem callWritev_frame (h : callWritev s i = .ok t) : t.numReqs = s.numReqs ∧ t.phase = .calling i := by
  unfold callWritev at h
  cases hmcb : s.mcb with
  | none =>
    rw [hmcb] at h
    cases h
  | some mcb =>
    rw [hmcb] at h
    cases h
    exact ⟨rfl, rfl⟩

theorem finish_frame (h : finish s = .ok t) : t.numReqs = s.numReqs ∧ t.phase = .returned 0 := by
  obtain ⟨u, hu, rfl⟩ := ok_of_map h
  exact ⟨(multiwriteCb_frame hu).1, rfl⟩

theorem writevReturned_frame {acb : Bool} (h : s.writevReturned i acb = .ok (t, ())) :
    t.numReqs = s.numReqs ∧ t.phase = s.nextPhase i acb := by
  unfold Session.writevReturned at h
  unfold Session.nextPhase
  cases acb with
  | true =>
    rw [if_pos rfl] at h ⊢
    split_ifs at h ⊢ with hmore
    · obtain ⟨u, hu, heq⟩ := ok_of_map h
      cases heq
      exact callWritev_frame hu
    · obtain ⟨u, hu, heq⟩ := ok_of_map h
      cases heq
      exact finish_frame hu
  | false =>
    rw [if_neg Bool.false_ne_true] at h ⊢
    split_ifs at h ⊢ with hmem hzero
    · cases h
      exact ⟨rfl, rfl⟩
    · obtain ⟨u, hu, heq⟩ := ok_of_map h
      cases heq
      obtain ⟨v, hv, hfinish⟩ := ok_of_bind hu
      obtain ⟨hnum, hphase⟩ := finish_frame hfinish
      exact ⟨hnum.trans (multiwriteCb_frame hv).1, hphase⟩

/-- A completion leaves the call where it is, and a return leads it on. -/
theorem step_cases {c : Input} (h : s.step c = .ok (t, ())) :
    t.numReqs = s.numReqs ∧ (c.isReturn = false ∧ t.phase = s.phase ∨
      c.isReturn = true ∧ ∃ i acb, s.phase = .calling i ∧ t.phase = s.nextPhase i acb) := by
  cases c with
  | completes i ret =>
    simp only [Session.step] at h
    split_ifs at h
    obtain ⟨u, hu, heq⟩ := ok_of_map h
    cases heq
    obtain ⟨hnum, hphase, -⟩ := multiwriteCb_frame hu
    exact ⟨hnum, .inl ⟨rfl, hphase⟩⟩
  | writevReturns acb =>
    simp only [Session.step] at h
    cases hs : s.phase with
    | returned ret =>
      rw [hs] at h
      cases h
    | calling i =>
      rw [hs] at h
      obtain ⟨hnum, hphase⟩ := writevReturned_frame h
      exact ⟨hnum, .inr ⟨rfl, i, acb, rfl, hphase⟩⟩

/-- A call that has not returned is at the request that it has come to. -/
theorem step_calling {c : Input} (h : s.step c = .ok (t, ())) {n : Nat} (hs : ∀ i, s.phase = .calling i → n = i)
    (ht : t.phase = .calling i) : n + (if c.isReturn then 1 else 0) = i := by
  rcases (step_cases h).2 with ⟨hc, hphase⟩ | ⟨hc, j, acb, hj, hphase⟩
  · rw [hc]
    exact hs i (hphase.symm.trans ht)
  · have hnext := hphase.symm.trans ht
    unfold Session.nextPhase at hnext
    split_ifs at hnext
    cases hnext
    rw [hc]
    exact congrArg (· + 1) (hs j hj)

/-- As many calls of `bdrv_aio_writev` have returned as requests were submitted before the present one. -/
theorem run_calling {cs : List Input} (h : Run Session.step s cs t) {n : Nat} (hs : ∀ i, s.phase = .calling i → n = i)
    (ht : t.phase = .calling i) : n + cs.countP Input.isReturn = i := by
  induction h generalizing n with
  | nil => exact hs i ht
  | @cons s u t c o cs hstep _ ih =>
    have hcount := ih (n := n + if c.isReturn then 1 else 0) (fun j hj ↦ step_calling hstep hs hj) ht
    rw [List.countP_cons, ← hcount]
    omega

end Phases

section Invariant

variable {reqs : List (UserRequest κ)} {s t : Session κ} {count : Int} {ok : Prop}

/-- The control block counts what it waits for, and shows no error just as long as all is
`ok`. -/
structure Live (reqs : List (UserRequest κ)) (s : Session κ) (count : Int) (ok : Prop) : Prop where
  mcb : ∃ mcb, s.mcb = some mcb ∧ mcb.callbacks = reqs.map UserRequest.cb ∧ mcb.numRequests = count ∧
    (mcb.error = 0 ↔ ok)
  called : s.called = []

/-- The callbacks were called once, with a status that is zero just if all was `ok`. -/
structure Called (reqs : List (UserRequest κ)) (s : Session κ) (ok : Prop) : Prop where
  mcb : s.mcb = none
  called : ∃ status, s.called = reqs.map (fun r ↦ (r.cb, status)) ∧ (status = 0 ↔ ok)

theorem error_complete {mcb : MultiwriteCB κ} (h : mcb.error = 0 ↔ ok) (ret : Int) :
    (mcb.complete ret).error = 0 ↔ ok ∧ 0 ≤ ret := by
  unfold MultiwriteCB.complete
  by_cases hret : ret < 0 ∧ mcb.error = 0
  · rw [if_pos hret]
    change ret = 0 ↔ _
    constructor
    · intro hzero
      omega
    · rintro ⟨-, hnonneg⟩
      omega
  · rw [if_neg hret, h]
    rw [h] at hret
    constructor
    · intro hok
      exact ⟨hok, Int.not_lt.mp fun hneg ↦ hret ⟨hneg, hok⟩⟩
    · exact fun hboth ↦ hboth.1

/-- The completion of the last request that is waited for calls the callbacks. -/
theorem Live.complete_last (h : Live reqs s 1 ok) (ret : Int) :
    ∃ called, multiwriteCb s ret = .ok { s with mcb := none, called } ∧
      Called reqs { s with mcb := none, called } (ok ∧ 0 ≤ ret) := by
  obtain ⟨⟨mcb, hmcb, hcallbacks, hcount, herror⟩, hcalled⟩ := h
  have hlast : (mcb.complete ret).numRequests = 0 := by
    unfold MultiwriteCB.complete
    dsimp only
    omega
  refine ⟨reqs.map fun r ↦ (r.cb, (mcb.complete ret).error), ?_, rfl, _, rfl, error_complete herror ret⟩
  unfold multiwriteCb
  simp only [hmcb, if_pos hlast, multiwriteUserCb, hcalled, List.nil_append, Except.ok.injEq, Session.mk.injEq,
    true_and]
  rw [MultiwriteCB.complete, hcallbacks, List.map_map]
  rfl

theorem Live.complete (h : Live reqs s count ok) (hcount : count ≠ 1) (ret : Int) :
    ∃ mcb, multiwriteCb s ret = .ok { s with mcb := some mcb } ∧
      Live reqs { s with mcb := some mcb } (count - 1) (ok ∧ 0 ≤ ret) := by
  obtain ⟨⟨mcb, hmcb, hcallbacks, hnum, herror⟩, hcalled⟩ := h
  have hmore : (mcb.complete ret).numRequests = count - 1 := congrArg (· - 1) hnum
  refine ⟨mcb.complete ret, ?_, ⟨_, rfl, hcallbacks, hmore, error_complete herror ret⟩, hcalled⟩
  unfold multiwriteCb
  rw [hmcb]
  exact if_neg (by omega)

def NoError (s : Session κ) : Prop := ∀ p ∈ s.results, 0 ≤ p.2

/-- What holds in each phase. The dummy request is counted until the call returns. -/
inductive PhaseKept (reqs : List (UserRequest κ)) (s : Session κ) : Prop
  | calling (i : Nat) : s.phase = .calling i → i < s.numReqs → s.submitted = i + 1 →
      Live reqs s (1 + s.outstanding.length) (NoError s) → PhaseKept reqs s
  | failed : s.phase = .returned (-1) → s.outstanding = [] → s.called = [] → (∀ error ∈ s.errors, error < 0) →
      PhaseKept reqs s
  | waits : s.phase = .returned 0 → s.submitted ≤ s.numReqs → s.outstanding ≠ [] →
      Live reqs s s.outstanding.length (s.submitted = s.numReqs ∧ NoError s) → PhaseKept reqs s
  | done : s.phase = .returned 0 → s.submitted ≤ s.numReqs → s.outstanding = [] →
      Called reqs s (s.submitted = s.numReqs ∧ NoError s) → PhaseKept reqs s

structure Kept (reqs : List (UserRequest κ)) (s : Session κ) : Prop where
  errors : s.errors.length = reqs.length
  numbers : (s.results.map Prod.fst ++ s.outstanding).Perm (List.range s.submitted)
  phase : PhaseKept reqs s

/-- The dummy request is completed when the loop has ended. -/
theorem Live.finish (h : Live reqs s (1 + s.outstanding.length) ok) :
    ∃ mcb called, Block.finish s = .ok { s with mcb, called, phase := .returned 0 } ∧
      if s.outstanding = [] then Called reqs { s with mcb, called, phase := .returned 0 } ok
      else Live reqs { s with mcb, called, phase := .returned 0 } s.outstanding.length ok := by
  have hok : (ok ∧ (0 : Int) ≤ 0) = ok := by simp
  by_cases hnone : s.outstanding = []
  · rw [hnone] at h
    obtain ⟨called, hcb, hcalled⟩ := h.complete_last 0
    rw [hok] at hcalled
    refine ⟨none, called, ?_, ?_⟩
    · rw [Block.finish, hcb]
      rfl
    · rw [if_pos hnone]
      exact ⟨hcalled.mcb, hcalled.called⟩
  · have hpos := List.length_pos_iff.mpr hnone
    obtain ⟨mcb, hcb, hlive⟩ := h.complete (by omega) 0
    have hrest : (1 + s.outstanding.length - 1 : Int) = s.outstanding.length := by omega
    rw [hok, hrest] at hlive
    refine ⟨some mcb, s.called, ?_, ?_⟩
    · rw [Block.finish, hcb]
      rfl
    · rw [if_neg hnone]
      exact ⟨hlive.mcb, hlive.called⟩

theorem perm_complete {i n : Nat} (ret : Int) (hi : i ∈ s.outstanding)
    (h : (s.results.map Prod.fst ++ s.outstanding).Perm (List.range n)) :
    (((i, ret) :: s.results).map Prod.fst ++ s.outstanding.erase i).Perm (List.range n) := by
  refine List.Perm.trans ?_ h
  refine List.perm_middle.symm.trans ?_
  exact (List.perm_cons_erase hi).symm.append_left _

theorem noError_record (s : Session κ) (i : Nat) (ret : Int) : NoError (s.record i ret) ↔ NoError s ∧ 0 ≤ ret := by
  unfold NoError Session.record
  rw [List.forall_mem_cons, and_comm]

theorem Live.record (h : Live reqs s count ok) (i : Nat) (ret : Int) : Live reqs (s.record i ret) count ok :=
  ⟨h.mcb, h.called⟩

theorem Live.of_eq (h : Live reqs s count ok) {count' : Int} {ok' : Prop} (hcount : count = count') (hok : ok ↔ ok') :
    Live reqs s count' ok' := by
  subst hcount
  rwa [propext hok] at h

theorem Called.of_iff (h : Called reqs s ok) {ok' : Prop} (hok : ok ↔ ok') : Called reqs s ok' := by
  rwa [propext hok] at h

/-- What completes is no longer waited for, and the control block is only freed with the last. -/
theorem Kept.completes (h : Kept reqs s) {i : Nat} (hi : i ∈ s.outstanding) (ret : Int) :
    ∃ t, multiwriteCb (s.record i ret) ret = .ok t ∧ Kept reqs t := by
  have hnumbers := perm_complete (s := s) ret hi h.numbers
  have hlength : ((s.outstanding.erase i).length : Int) = s.outstanding.length - 1 := by
    have herase := List.length_erase_of_mem hi
    have hpos := List.length_pos_of_mem hi
    omega
  have hpos := List.length_pos_of_mem hi
  cases h.phase with
  | calling j hs hj hsubmitted hlive =>
    obtain ⟨mcb, hcb, hlive'⟩ := (hlive.record i ret).complete (by omega) ret
    refine ⟨_, hcb, h.errors, hnumbers, .calling j hs hj hsubmitted ?_⟩
    refine hlive'.of_eq ?_ (noError_record s i ret).symm
    change (1 + s.outstanding.length - 1 : Int) = 1 + (s.outstanding.erase i).length
    omega
  | failed _ hnone => exact absurd hi (hnone ▸ List.not_mem_nil)
  | done _ _ hnone => exact absurd hi (hnone ▸ List.not_mem_nil)
  | waits hs hle _ hwait =>
    have hok : ((s.submitted = s.numReqs ∧ NoError s) ∧ 0 ≤ ret) ↔
        s.submitted = s.numReqs ∧ NoError (s.record i ret) := by
      rw [noError_record, and_assoc]
    by_cases hlast : s.outstanding.erase i = []
    · have hone : (s.outstanding.length : Int) = 1 := by
        rw [hlast, List.length_nil] at hlength
        omega
      rw [hone] at hwait
      obtain ⟨called, hcb, hcalled⟩ := (hwait.record i ret).complete_last ret
      exact ⟨_, hcb, h.errors, hnumbers, .done hs hle hlast (hcalled.of_iff hok)⟩
    · have hmore := List.length_pos_iff.mpr hlast
      obtain ⟨mcb, hcb, hlive⟩ := (hwait.record i ret).complete (by omega) ret
      exact ⟨_, hcb, h.errors, hnumbers, .waits hs hle hlast (hlive.of_eq hlength.symm hok)⟩

/-- The loop goes on to the next request. -/
theorem Kept.callWritev {i : Nat} (herrors : s.errors.length = reqs.length)
    (hnumbers : (s.results.map Prod.fst ++ s.outstanding).Perm (List.range i)) (hsubmitted : s.submitted = i)
    (hlt : i < s.numReqs) (hlive : Live reqs s (1 + s.outstanding.length) (NoError s)) :
    ∃ t, Block.callWritev s i = .ok t ∧ Kept reqs t := by
  obtain ⟨⟨mcb, hmcb, hcallbacks, hcount, herror⟩, hcalled⟩ := hlive
  have hcall : Block.callWritev s i = .ok { s with
      mcb := some { mcb with numRequests := mcb.numRequests + 1 }
      phase := .calling i
      submitted := s.submitted + 1
      outstanding := i :: s.outstanding } := by
    rw [Block.callWritev, hmcb]
  refine ⟨_, hcall, herrors, ?_,
    .calling i rfl hlt (congrArg (· + 1) hsubmitted) ⟨⟨_, rfl, hcallbacks, ?_, herror⟩, hcalled⟩⟩
  · change (s.results.map Prod.fst ++ i :: s.outstanding).Perm (List.range (s.submitted + 1))
    rw [hsubmitted, List.range_succ]
    refine List.perm_middle.trans ?_
    exact (List.perm_append_singleton i _).symm.trans (hnumbers.append_right [i])
  · change mcb.numRequests + 1 = 1 + ((i :: s.outstanding).length : Int)
    rw [hcount, List.length_cons]
    omega

/-- The loop has ended, with all requests submitted or with an error. -/
theorem Kept.finish (herrors : s.errors.length = reqs.length)
    (hnumbers : (s.results.map Prod.fst ++ s.outstanding).Perm (List.range s.submitted)) (hle : s.submitted ≤ s.numReqs)
    (hlive : Live reqs s (1 + s.outstanding.length) (s.submitted = s.numReqs ∧ NoError s)) :
    ∃ t, Block.finish s = .ok t ∧ Kept reqs t := by
  obtain ⟨mcb, called, hfinish, hafter⟩ := hlive.finish
  refine ⟨_, hfinish, herrors, hnumbers, ?_⟩
  by_cases hnone : s.outstanding = []
  · rw [if_pos hnone] at hafter
    exact .done rfl hle hnone hafter
  · rw [if_neg hnone] at hafter
    exact .waits rfl hle hnone hafter

/-- What `bdrv_aio_writev` refuses has not completed. -/
theorem perm_refuse {i : Nat} (hi : i ∈ s.outstanding)
    (h : (s.results.map Prod.fst ++ s.outstanding).Perm (List.range (i + 1))) :
    (s.results.map Prod.fst ++ s.outstanding.erase i).Perm (List.range i) := by
  rw [List.range_succ] at h
  have hcons := ((List.perm_cons_erase hi).append_left (s.results.map Prod.fst)).symm.trans h
  have hfront := List.perm_middle.symm.trans (hcons.trans (List.perm_append_singleton i _))
  exact hfront.cons_inv

theorem step_writevReturns {i : Nat} (hs : s.phase = .calling i) (acb : Bool) :
    s.step (.writevReturns acb) = s.writevReturned i acb := by
  simp only [Session.step, hs]

theorem Kept.writevRefuses (h : Kept reqs s) {i : Nat} (hs : s.phase = .calling i) (hi : i ∈ s.outstanding) :
    ∃ t, s.writevReturned i false = .ok (t, ()) ∧ Kept reqs t := by
  cases h.phase with
  | failed hs' => cases hs.symm.trans hs'
  | waits hs' => cases hs.symm.trans hs'
  | done hs' => cases hs.symm.trans hs'
  | calling j hs' hlt hsubmitted hlive =>
    cases hs.symm.trans hs'
    have hnumbers := h.numbers
    rw [hsubmitted] at hnumbers
    have hrefused := perm_refuse hi hnumbers
    have hlength : ((s.outstanding.erase i).length : Int) = s.outstanding.length - 1 := by
      have herase := List.length_erase_of_mem hi
      have hpos := List.length_pos_of_mem hi
      omega
    have hpos := List.length_pos_of_mem hi
    unfold Session.writevReturned
    simp only [Bool.false_eq_true, if_false, if_pos hi]
    by_cases hzero : i = 0
    · subst hzero
      rw [if_pos rfl]
      obtain ⟨-, hnone⟩ := List.append_eq_nil_iff.mp hrefused.eq_nil
      refine ⟨_, rfl, ?_, hrefused, .failed rfl hnone hlive.called ?_⟩
      · exact (List.length_map _).trans h.errors
      · intro error hmem
        obtain ⟨-, -, rfl⟩ := List.mem_map.mp hmem
        decide
    · rw [if_neg hzero]
      have hlive' : Live reqs { s with submitted := i, outstanding := s.outstanding.erase i }
          (1 + s.outstanding.length) (NoError s) := ⟨hlive.mcb, hlive.called⟩
      obtain ⟨mcb, hcb, hrest⟩ := hlive'.complete (by omega) (-eio)
      have hcount : (1 + s.outstanding.length - 1 : Int) = 1 + (s.outstanding.erase i).length := by omega
      have hok : (NoError s ∧ 0 ≤ -eio) ↔ i = s.numReqs ∧ NoError s := by
        refine iff_of_false ?_ ?_
        · rintro ⟨-, hneg⟩
          exact absurd hneg (by decide)
        · rintro ⟨hall, -⟩
          exact absurd hall (Nat.ne_of_lt hlt)
      obtain ⟨t, ht, hkept⟩ := Kept.finish
        (s := { s with submitted := i, outstanding := s.outstanding.erase i, mcb := some mcb })
        h.errors hrefused (Nat.le_of_lt hlt) (hrest.of_eq hcount hok)
      refine ⟨t, ?_, hkept⟩
      rw [hcb]
      exact congrArg (Except.map (·, ())) ht

theorem Kept.writevAccepts (h : Kept reqs s) {i : Nat} (hs : s.phase = .calling i) :
    ∃ t, s.writevReturned i true = .ok (t, ()) ∧ Kept reqs t := by
  cases h.phase with
  | failed hs' => cases hs.symm.trans hs'
  | waits hs' => cases hs.symm.trans hs'
  | done hs' => cases hs.symm.trans hs'
  | calling j hs' hlt hsubmitted hlive =>
    cases hs.symm.trans hs'
    unfold Session.writevReturned
    rw [if_pos rfl]
    by_cases hmore : i + 1 < s.numReqs
    · obtain ⟨t, ht, hkept⟩ := Kept.callWritev h.errors (hsubmitted ▸ h.numbers) hsubmitted hmore hlive
      refine ⟨t, ?_, hkept⟩
      rw [if_pos hmore, ht]
      rfl
    · have hall : s.submitted = s.numReqs := by omega
      have hok : NoError s ↔ s.submitted = s.numReqs ∧ NoError s := (and_iff_right hall).symm
      obtain ⟨t, ht, hkept⟩ := Kept.finish h.errors h.numbers (Nat.le_of_eq hall) (hlive.of_eq rfl hok)
      refine ⟨t, ?_, hkept⟩
      rw [if_neg hmore, ht]
      rfl

/-- The control block is never used after it was freed. -/
theorem Kept.step (h : Kept reqs s) (c : Input) :
    (∃ t, s.step c = .ok (t, ()) ∧ Kept reqs t) ∨ s.step c = .error .notOutstanding ∨
      s.step c = .error .notCalling := by
  cases c with
  | completes i ret =>
    by_cases hi : i ∈ s.outstanding
    · obtain ⟨t, ht, hkept⟩ := h.completes hi ret
      refine .inl ⟨t, ?_, hkept⟩
      rw [Session.step, if_pos hi, ht]
      rfl
    · exact .inr (.inl (if_neg hi))
  | writevReturns acb =>
    cases hs : s.phase with
    | returned ret => exact .inr (.inr (by simp only [Session.step, hs]))
    | calling i =>
      rw [step_writevReturns hs]
      cases acb with
      | true => exact .inl (h.writevAccepts hs)
      | false =>
        by_cases hi : i ∈ s.outstanding
        · exact .inl (h.writevRefuses hs hi)
        · exact .inr (.inl (by simp [Session.writevReturned, hi]))

/-- Without unfinished requests, all were submitted without an error just if each of them has
a good result. -/
theorem succeeded_iff (hnone : s.outstanding = [])
    (hnumbers : (s.results.map Prod.fst ++ s.outstanding).Perm (List.range s.submitted))
    (hle : s.submitted ≤ s.numReqs) :
    s.submitted = s.numReqs ∧ NoError s ↔ s.Succeeded := by
  rw [hnone, List.append_nil] at hnumbers
  constructor
  · rintro ⟨hall, herror⟩ i hi
    obtain ⟨p, hp, rfl⟩ := List.mem_map.mp (hnumbers.symm.subset (List.mem_range.mpr (hall ▸ hi)))
    exact ⟨p.2, hp, herror p hp⟩
  · intro h
    have hge : s.numReqs ≤ s.submitted := by
      by_contra hlt
      obtain ⟨ret, hmem, -⟩ := h s.submitted (Nat.lt_of_not_le hlt)
      exact absurd (List.mem_range.mp (hnumbers.subset (List.mem_map_of_mem hmem))) (Nat.lt_irrefl _)
    refine ⟨Nat.le_antisymm hle hge, fun p hp ↦ ?_⟩
    have hlt := List.mem_range.mp (hnumbers.subset (List.mem_map_of_mem hp))
    obtain ⟨ret, hmem, hret⟩ := h p.1 (Nat.lt_of_lt_of_le hlt hle)
    have hnodup := hnumbers.nodup_iff.mpr List.nodup_range
    have hsame := List.inj_on_of_nodup_map hnodup hp hmem rfl
    rw [hsame]
    exact hret

theorem Kept.finished (h : Kept reqs s) : s.Completes reqs := by
  unfold Session.Completes
  cases h.phase with
  | calling i hs hlt _ hlive =>
    rw [hs]
    exact ⟨hlt, hlive.called⟩
  | failed hs hnone hcalled herrors =>
    rw [hs]
    exact .inl ⟨rfl, hnone, hcalled, h.errors, herrors⟩
  | waits hs _ hsome hlive =>
    rw [hs]
    refine .inr ⟨rfl, ?_⟩
    rw [if_neg hsome]
    exact hlive.called
  | done hs hle hnone hcalled =>
    rw [hs]
    refine .inr ⟨rfl, ?_⟩
    rw [if_pos hnone]
    obtain ⟨status, hstatus, hok⟩ := hcalled.called
    exact ⟨status, hstatus, hok.trans (succeeded_iff hnone h.numbers hle)⟩

theorem Kept.goesOn (h : Kept reqs s) : s.GoesOn := by
  refine ⟨fun i acb hs hmay ↦ ?_, fun i hi ret ↦ ?_⟩
  · rw [step_writevReturns hs]
    obtain ⟨t, ht⟩ : ∃ t, s.writevReturned i acb = .ok (t, ()) := by
      cases acb with
      | true =>
        obtain ⟨t, ht, -⟩ := h.writevAccepts hs
        exact ⟨t, ht⟩
      | false =>
        obtain ⟨t, ht, -⟩ := h.writevRefuses hs (hmay.resolve_left Bool.false_ne_true)
        exact ⟨t, ht⟩
    exact ⟨t, ht, (writevReturned_frame ht).2⟩
  · obtain ⟨t, ht, -⟩ := h.completes hi ret
    obtain ⟨-, hphase, houtstanding, hresults⟩ := multiwriteCb_frame ht
    refine ⟨t, ?_, hphase, houtstanding, hresults⟩
    rw [Session.step, if_pos hi, ht]
    rfl

end Invariant

theorem mergeLoop_ne_nil (driver : MergeRequests) (out : BlockRequest) (reqs : List BlockRequest) :
    mergeLoop driver out reqs ≠ [] := by
  induction reqs generalizing out with
  | nil => exact List.cons_ne_nil out []
  | cons r reqs ih =>
    rw [mergeLoop]
    split
    · exact ih _
    · exact List.cons_ne_nil _ _

theorem kept_bdrvAioMultiwrite {reqs : List (UserRequest κ)} {sorted : List BlockRequest} (hne : reqs ≠ [])
    (hsorted : SortedFrom (reqs.map UserRequest.request) sorted) (drv : Option MergeRequests) :
    ∃ s, bdrvAioMultiwrite drv reqs sorted = .ok s ∧ Kept reqs s := by
  cases drv with
  | none =>
    refine ⟨_, rfl, List.length_map _, List.Perm.refl _, .failed rfl rfl rfl ?_⟩
    intro error hmem
    obtain ⟨-, -, rfl⟩ := List.mem_map.mp hmem
    decide
  | some driver =>
    have hpos : 0 < (multiwriteMerge driver sorted).length := by
      cases sorted with
      | nil => exact absurd (List.map_eq_nil_iff.mp hsorted.perm.symm.eq_nil) hne
      | cons r rest => exact List.length_pos_iff.mpr (mergeLoop_ne_nil driver r rest)
    have hlength : reqs.length ≠ 0 := fun hzero ↦ hne (List.length_eq_zero_iff.mp hzero)
    simp only [bdrvAioMultiwrite, if_neg hlength]
    apply Kept.callWritev (List.length_map _) (List.Perm.refl _) rfl hpos
    refine ⟨⟨_, rfl, rfl, rfl, iff_of_true rfl ?_⟩, rfl⟩
    intro p hp
    cases hp

theorem bdrvAioMultiwrite_calling {reqs : List (UserRequest κ)} {sorted : List BlockRequest} {drv : Option MergeRequests}
    {s : Session κ} {i : Nat} (h : bdrvAioMultiwrite drv reqs sorted = .ok s) (hs : s.phase = .calling i) : 0 = i := by
  cases drv with
  | none =>
    cases h
    cases hs
  | some driver =>
    simp only [bdrvAioMultiwrite] at h
    split_ifs at h
    · cases h
      cases hs
    · cases (callWritev_frame h).2.symm.trans hs
      rfl

/-- In every run of `bdrv_aio_multiwrite`, whatever `bdrv_aio_writev` returns and whenever the
requests complete, the call goes on and is over after one return for each request at the latest, the callbacks of the
batch are called as they should be, and the control block is not used after it was freed. -/
theorem multiwrite_completes {reqs : List (UserRequest κ)} {sorted : List BlockRequest} (hne : reqs ≠ [])
    (hsorted : SortedFrom (reqs.map UserRequest.request) sorted) (drv : Option MergeRequests) :
    ∃ s, bdrvAioMultiwrite drv reqs sorted = .ok s ∧
      ∀ cs t, Run Session.step s cs t → t.Completes reqs ∧ t.GoesOn ∧ t.numReqs = s.numReqs ∧
        (∀ i, t.phase = .calling i → cs.countP Input.isReturn = i) ∧ ∀ c, t.step c ≠ .error .freed := by
  obtain ⟨s, hs, hkept⟩ := kept_bdrvAioMultiwrite hne hsorted drv
  refine ⟨s, hs, fun cs t hrun ↦ ?_⟩
  obtain ⟨hlast, hnum⟩ : Kept reqs t ∧ t.numReqs = s.numReqs := by
    refine hrun.invariant (P := fun u ↦ Kept reqs u ∧ u.numReqs = s.numReqs) ⟨hkept, rfl⟩ fun u c v o _ hu hstep ↦ ?_
    refine ⟨?_, (step_cases hstep).1.trans hu.2⟩
    rcases hu.1.step c with ⟨v', hv, hkept'⟩ | herror | herror
    · cases hv.symm.trans hstep
      exact hkept'
    · cases herror.symm.trans hstep
    · cases herror.symm.trans hstep
  refine ⟨hlast.finished, hlast.goesOn, hnum, fun i hi ↦ ?_, fun c hfreed ↦ ?_⟩
  · have hcount := run_calling hrun (fun j hj ↦ bdrvAioMultiwrite_calling hs hj) hi
    rwa [Nat.zero_add] at hcount
  rcases hlast.step c with ⟨v, hv, -⟩ | herror | herror
  · cases hv.symm.trans hfreed
  · cases herror.symm.trans hfreed
  · cases herror.symm.trans hfreed

/-- Two requests that are not merged. -/
def twice : List (UserRequest Nat) := [⟨filled 0 1 1, 0, 0⟩, ⟨filled 5 1 2, 1, 0⟩]

/-- The first request completes before its call returns, the second one with an error after the loop. -/
theorem multiwrite_completes_twice : ∃ s t, bdrvAioMultiwrite (some none) twice [filled 0 1 1, filled 5 1 2] = .ok s ∧
    Run Session.step s [.completes 0 0, .writevReturns true, .writevReturns true, .completes 1 (-5)] t ∧
    t.phase = .returned 0 ∧ t.outstanding = [] ∧ t.called = [(0, -5), (1, -5)] ∧ t.Completes twice := by
  have hsorted : SortedFrom (twice.map UserRequest.request) [filled 0 1 1, filled 5 1 2] := ⟨.refl _, by decide +kernel⟩
  obtain ⟨s, hs, hall⟩ := multiwrite_completes (by simp [twice]) hsorted (some none)
  have hstart : bdrvAioMultiwrite (some none) twice [filled 0 1 1, filled 5 1 2] =
      .ok ⟨2, some ⟨0, 2, [0, 1]⟩, .calling 0, [0, 0], 1, [0], [], []⟩ := rfl
  cases hs.symm.trans hstart
  have hrun : Run Session.step ⟨2, some ⟨0, 2, [0, 1]⟩, .calling 0, [0, 0], 1, [0], [], []⟩
      [.completes 0 0, .writevReturns true, .writevReturns true, .completes 1 (-5)]
      ⟨2, none, .returned 0, [0, 0], 2, [], [(1, -5), (0, 0)], [(0, -5), (1, -5)]⟩ :=
    .cons rfl (.cons rfl (.cons rfl (.cons rfl (.nil _))))
  exact ⟨_, _, hstart, hrun, rfl, rfl, rfl, (hall _ _ hrun).1⟩

end IDeviceEmulator.Block
