import Mathlib.Algebra.Group.Int.Defs
import Mathlib.Algebra.GroupWithZero.Nat
import Mathlib.Data.Int.Order.Basic
import Mathlib.Data.List.Perm.Basic
import Mathlib.Tactic.Common

namespace IDeviceEmulator.Block

/-- A vector of buffers, each with its contents. -/
structure QEMUIOVector where
  iov : List (List UInt8)
  size : Nat
  size_eq : size = iov.flatten.length

def qemuIovecInit : QEMUIOVector := ⟨[], 0, rfl⟩

def qemuIovecAdd (qiov : QEMUIOVector) (base : List UInt8) : QEMUIOVector :=
  ⟨qiov.iov ++ [base], qiov.size + base.length, by
    rw [List.flatten_append, List.length_append, ← qiov.size_eq, List.flatten_singleton]⟩

/-- The loop of `qemu_iovec_copy` over what is left of the source. -/
def copyLoop (dst : QEMUIOVector) (skip done size : Nat) : List (List UInt8) → QEMUIOVector
  | [] => dst
  | base :: iov =>
    if done = size then dst
    else if base.length ≤ skip then copyLoop dst (skip - base.length) done size iov
    else
      let part := base.drop skip
      if size < done + part.length then qemuIovecAdd dst (part.take (size - done))
      else copyLoop (qemuIovecAdd dst part) 0 (done + part.length) size iov

def qemuIovecCopy (dst src : QEMUIOVector) (skip size : Nat) : QEMUIOVector := copyLoop dst skip 0 size src.iov

def qemuIovecConcat (dst src : QEMUIOVector) (size : Nat) : QEMUIOVector := qemuIovecCopy dst src 0 size

structure BlockRequest where
  sector : Int
  nbSectors : Int32
  qiov : QEMUIOVector

namespace BlockRequest

def last (r : BlockRequest) : Int := r.sector + r.nbSectors.toInt

def Covers (r : BlockRequest) (x : Int) : Prop := r.sector ≤ x ∧ x < r.last

instance (r : BlockRequest) (x : Int) : Decidable (r.Covers x) := inferInstanceAs (Decidable (_ ∧ _))

/-- The data of a request for a sector. -/
def data (r : BlockRequest) (x : Int) : List UInt8 :=
  (r.qiov.iov.flatten.drop (512 * (x - r.sector).toNat)).take 512

/-- The vector of the request is as long as its sectors are. -/
def Exact (r : BlockRequest) : Prop := 0 ≤ r.nbSectors.toInt ∧ (r.qiov.size : Int) = 512 * r.nbSectors.toInt

instance (r : BlockRequest) : Decidable r.Exact := inferInstanceAs (Decidable (_ ∧ _))

end BlockRequest

def multiwriteReqCompare (req1 req2 : BlockRequest) : Int :=
  if req1.sector > req2.sector then 1 else if req1.sector < req2.sector then -1 else 0

def iovMax : Nat := 1024

/-- The `bdrv_merge_requests` of a driver that has one. -/
abbrev MergeRequests := Option (BlockRequest → BlockRequest → Bool)

/-- Whether the request `r` is merged into the request `out` before it. -/
def merges (driver : MergeRequests) (out r : BlockRequest) : Bool :=
  let merge := decide (r.sector ≤ out.last) || (driver.map fun mergeRequests ↦ mergeRequests out r).getD false
  if iovMax < out.qiov.iov.length + r.qiov.iov.length + 1 then false else merge

/-- The request that `r` and the request `out` before it are merged into. -/
def mergeRequest (out r : BlockRequest) : BlockRequest :=
  let size := (r.sector - out.sector).toNat * 512
  let qiov := qemuIovecConcat qemuIovecInit out.qiov size
  let qiov :=
    if out.last < r.sector then qemuIovecAdd qiov (List.replicate ((r.sector - out.last).toNat * 512) 0) else qiov
  let qiov := qemuIovecConcat qiov r.qiov r.qiov.size
  { out with nbSectors := .ofNat (qiov.size / 512), qiov }

/-- The loop of `multiwrite_merge`, with the request that is still open. -/
def mergeLoop (driver : MergeRequests) (out : BlockRequest) : List BlockRequest → List BlockRequest
  | [] => [out]
  | r :: reqs =>
    if merges driver out r then mergeLoop driver (mergeRequest out r) reqs else out :: mergeLoop driver r reqs

/-- `multiwrite_merge` after the sort. -/
def multiwriteMerge (driver : MergeRequests) : List BlockRequest → List BlockRequest
  | [] => []
  | r :: reqs => mergeLoop driver r reqs

/-- What `qsort` may give for an array. -/
structure SortedFrom (reqs sorted : List BlockRequest) : Prop where
  perm : sorted.Perm reqs
  pairwise : sorted.Pairwise fun r r' ↦ multiwriteReqCompare r r' ≤ 0

/-- What was written to each sector, if anything was. -/
abbrev Written := Int → Option (List UInt8)

def Written.write (written : Written) (r : BlockRequest) : Written :=
  fun x ↦ if r.Covers x then some (r.data x) else written x

/-- Every sector of the batch holds the data of a request of it, and no other sector changes. -/
def Lossless (reqs : List BlockRequest) (written : Written) : Prop :=
  ∀ x, ((∃ r ∈ reqs, r.Covers x) → ∃ r ∈ reqs, r.Covers x ∧ written x = some (r.data x)) ∧
    ((∀ r ∈ reqs, ¬ r.Covers x) → written x = none)

/-- The requests in the runs that become one request each. -/
def runsLoop (driver : MergeRequests) (out : BlockRequest) (run : List BlockRequest) :
    List BlockRequest → List (List BlockRequest)
  | [] => [run]
  | r :: reqs =>
    if merges driver out r then runsLoop driver (mergeRequest out r) (run ++ [r]) reqs
    else run :: runsLoop driver r [r] reqs

def runs (driver : MergeRequests) : List BlockRequest → List (List BlockRequest)
  | [] => []
  | r :: reqs => runsLoop driver r [r] reqs

/-- A request of the run covers the sector, and the next one does not begin at it or before. -/
def Uncut (x : Int) : List BlockRequest → Prop
  | [] => False
  | [r] => r.Covers x
  | r :: r' :: run => (r.Covers x ∧ x < r'.sector) ∨ Uncut x (r' :: run)

/-- The sectors from the beginning of the run to the end of its last request. -/
def span : List BlockRequest → Int
  | [] => 0
  | r :: run => ((r :: run).getLast (List.cons_ne_nil r run)).last - r.sector

/-- Every sector of the batch lies uncut in a run whose length fits into an `int`. -/
def Spared (driver : MergeRequests) (sorted : List BlockRequest) : Prop :=
  ∀ x, (∃ r ∈ sorted, r.Covers x) → ∃ run ∈ runs driver sorted, span run < 2 ^ 31 ∧ Uncut x run

theorem flatten_qemuIovecAdd (qiov : QEMUIOVector) (base : List UInt8) :
    (qemuIovecAdd qiov base).iov.flatten = qiov.iov.flatten ++ base := by
  simp [qemuIovecAdd]

theorem flatten_copyLoop {dst : QEMUIOVector} {skip done size : Nat} {iov : List (List UInt8)} (h : done ≤ size) :
    (copyLoop dst skip done size iov).iov.flatten =
      dst.iov.flatten ++ (iov.flatten.drop skip).take (size - done) := by
  induction iov generalizing dst skip done with
  | nil => simp [copyLoop]
  | cons base iov ih =>
    rw [copyLoop]
    by_cases hdone : done = size
    · rw [if_pos hdone, hdone, Nat.sub_self, List.take_zero, List.append_nil]
    rw [if_neg hdone, List.flatten_cons, List.drop_append]
    by_cases hskip : base.length ≤ skip
    · rw [if_pos hskip, ih h, List.drop_of_length_le hskip, List.nil_append]
    · have hzero : skip - base.length = 0 := by omega
      rw [if_neg hskip, hzero, List.drop_zero, List.take_append]
      generalize base.drop skip = part
      by_cases hlast : size < done + part.length
      · have hnone : size - done - part.length = 0 := by omega
        rw [if_pos hlast, flatten_qemuIovecAdd, hnone, List.take_zero, List.append_nil]
      · have hrest : size - (done + part.length) = size - done - part.length := by omega
        have hpart : part.length ≤ size - done := by omega
        rw [if_neg hlast, ih (Nat.le_of_not_lt hlast), flatten_qemuIovecAdd, List.drop_zero, hrest,
          List.take_of_length_le hpart, List.append_assoc]

theorem flatten_qemuIovecConcat (dst src : QEMUIOVector) (size : Nat) :
    (qemuIovecConcat dst src size).iov.flatten = dst.iov.flatten ++ src.iov.flatten.take size :=
  flatten_copyLoop (Nat.zero_le size)

theorem flatten_mergeRequest {out r : BlockRequest} (h : r.sector ≤ out.last) :
    (mergeRequest out r).qiov.iov.flatten =
      out.qiov.iov.flatten.take ((r.sector - out.sector).toNat * 512) ++ r.qiov.iov.flatten := by
  simp only [mergeRequest, if_neg (Int.not_lt.mpr h), flatten_qemuIovecConcat, qemuIovecInit, List.flatten_nil,
    List.nil_append]
  rw [List.take_of_length_le (Nat.le_of_eq r.qiov.size_eq.symm)]

theorem nbSectors_mergeRequest (out r : BlockRequest) :
    (mergeRequest out r).nbSectors = .ofNat ((mergeRequest out r).qiov.size / 512) := rfl

section Runs

variable {x : Int} {run : List BlockRequest} {out r : BlockRequest}

theorem uncut_concat (hrun : run.Pairwise fun r r' ↦ r.sector ≤ r'.sector) (hne : run ≠ [])
    (hle : ∀ r' ∈ run, r'.sector ≤ r.sector) : Uncut x (run ++ [r]) ↔ (Uncut x run ∧ x < r.sector) ∨ r.Covers x := by
  induction run with
  | nil => exact absurd rfl hne
  | cons first run ih =>
    cases run with
    | nil => exact Iff.rfl
    | cons second run =>
      obtain ⟨-, hrest⟩ := List.pairwise_cons.mp hrun
      have hsecond := hle second (by simp)
      have hrec := ih hrest (List.cons_ne_nil _ _) fun r' hr' ↦ hle r' (List.mem_cons_of_mem _ hr')
      simp only [List.cons_append, Uncut] at hrec ⊢
      rw [hrec]
      constructor
      · rintro (⟨hcovers, hlt⟩ | ⟨huncut, hlt⟩ | hcovers)
        · exact .inl ⟨.inl ⟨hcovers, hlt⟩, by omega⟩
        · exact .inl ⟨.inr huncut, hlt⟩
        · exact .inr hcovers
      · rintro (⟨⟨hcovers, hlt⟩ | huncut, hlt'⟩ | hcovers)
        · exact .inl ⟨hcovers, hlt⟩
        · exact .inr (.inl ⟨huncut, hlt'⟩)
        · exact .inr (.inr hcovers)

theorem span_concat (first : BlockRequest) (run : List BlockRequest) :
    span (first :: run ++ [r]) = r.last - first.sector := by
  simp [span]

/-- A run and the request that it is merged into, whose vector ends at the sector `stop`. -/
structure Folds (run : List BlockRequest) (out : BlockRequest) (stop : Int) : Prop where
  sector : ∃ first rest, run = first :: rest ∧ out.sector = first.sector
  span_eq : span run = stop - out.sector
  le_stop : out.sector ≤ stop
  stop_lt : stop - out.sector < 2 ^ 32
  size : (out.qiov.size : Int) = 512 * (stop - out.sector)
  nbSectors : out.nbSectors.toInt = (stop - out.sector).bmod (2 ^ 32)
  data : ∀ x, out.sector ≤ x → x < stop → ∃ r ∈ run, r.Covers x ∧ out.data x = r.data x
  uncut : ∀ x, Uncut x run ↔ out.sector ≤ x ∧ x < stop

theorem folds_single (h : r.Exact) : Folds [r] r r.last := by
  obtain ⟨hpos, hsize⟩ := h
  have hlt := r.nbSectors.toInt_lt
  have hspan : r.last - r.sector = r.nbSectors.toInt := by
    unfold BlockRequest.last
    omega
  refine ⟨⟨r, [], rfl, rfl⟩, rfl, ?_, ?_, ?_, ?_, ?_, fun x ↦ Iff.rfl⟩
  · omega
  · omega
  · rw [hspan, hsize]
  · rw [hspan]
    exact (Int.bmod_eq_of_le (by omega) (by omega)).symm
  · intro x hle hx
    exact ⟨r, List.mem_singleton_self r, ⟨hle, hx⟩, rfl⟩

variable {stop : Int}

/-- The `int` holds the length of the merged request if the run is short enough. -/
theorem Folds.last_eq (h : Folds run out stop) (hshort : stop - out.sector < 2 ^ 31) : out.last = stop := by
  have hle := h.le_stop
  rw [BlockRequest.last, h.nbSectors, Int.bmod_eq_of_le (by omega) (by omega)]
  omega

theorem Folds.last_lt (h : Folds run out stop) (hlong : 2 ^ 31 ≤ stop - out.sector) : out.last < out.sector := by
  have hlt := h.stop_lt
  have hwrap : (stop - out.sector).bmod (2 ^ 32) = stop - out.sector - 2 ^ 32 := by
    rw [← Int.sub_bmod_right]
    exact Int.bmod_eq_of_le (by omega) (by omega)
  rw [BlockRequest.last, h.nbSectors, hwrap]
  omega

theorem Folds.covers_iff (h : Folds run out stop) (x : Int) : out.Covers x ↔ span run < 2 ^ 31 ∧ Uncut x run := by
  rw [h.span_eq, h.uncut, BlockRequest.Covers]
  by_cases hshort : stop - out.sector < 2 ^ 31
  · rw [h.last_eq hshort]
    omega
  · have hlast := h.last_lt (Int.not_lt.mp hshort)
    omega

theorem Folds.data_of_covers (h : Folds run out stop) (hx : out.Covers x) :
    ∃ r ∈ run, r.Covers x ∧ out.data x = r.data x := by
  obtain ⟨-, huncut⟩ := (h.covers_iff x).mp hx
  obtain ⟨hle, hlt⟩ := (h.uncut x).mp huncut
  exact h.data x hle hlt

/-- A request is only merged into one whose length the `int` holds. -/
theorem Folds.sector_le (h : Folds run out stop) (hle : out.sector ≤ r.sector) (hmerge : merges none out r = true) :
    r.sector ≤ out.last ∧ out.last = stop := by
  have hsector : r.sector ≤ out.last := by
    unfold merges at hmerge
    split at hmerge
    · cases hmerge
    · simpa using hmerge
  refine ⟨hsector, h.last_eq ?_⟩
  by_contra hlong
  have hlast := h.last_lt (Int.not_lt.mp hlong)
  omega

theorem data_mergeRequest_of_lt (h : r.sector ≤ out.last) (hle : out.sector ≤ x) (hx : x < r.sector)
    (hsize : (512 * (r.sector - out.sector) : Int) ≤ out.qiov.size) : (mergeRequest out r).data x = out.data x := by
  have hsector : (mergeRequest out r).sector = out.sector := rfl
  have hflatten := flatten_mergeRequest h
  have hlength := out.qiov.size_eq
  unfold BlockRequest.data
  rw [hsector, hflatten]
  generalize out.qiov.iov.flatten = l at hlength
  rw [List.drop_append_of_le_length (by rw [List.length_take]; omega), List.drop_take,
    List.take_append_of_le_length (by rw [List.length_take, List.length_drop]; omega), List.take_take]
  congr 1
  omega

theorem data_mergeRequest_of_le (h : r.sector ≤ out.last) (hle : out.sector ≤ r.sector) (hx : r.sector ≤ x)
    (hsize : (512 * (r.sector - out.sector) : Int) ≤ out.qiov.size) : (mergeRequest out r).data x = r.data x := by
  have hsector : (mergeRequest out r).sector = out.sector := rfl
  have hflatten := flatten_mergeRequest h
  have hlength := out.qiov.size_eq
  unfold BlockRequest.data
  rw [hsector, hflatten]
  generalize out.qiov.iov.flatten = l at hlength
  rw [List.drop_append, List.drop_of_length_le (by rw [List.length_take]; omega), List.nil_append]
  congr 2
  rw [List.length_take]
  omega

theorem size_mergeRequest (h : r.sector ≤ out.last) (hle : out.sector ≤ r.sector)
    (hsize : (512 * (r.sector - out.sector) : Int) ≤ out.qiov.size) :
    ((mergeRequest out r).qiov.size : Int) = 512 * (r.sector - out.sector) + r.qiov.size := by
  have hlength := out.qiov.size_eq
  rw [QEMUIOVector.size_eq, flatten_mergeRequest h, List.length_append, List.length_take, ← out.qiov.size_eq,
    ← r.qiov.size_eq]
  omega

theorem Folds.concat (h : Folds run out stop) (hsorted : (run ++ [r]).Pairwise fun r r' ↦ r.sector ≤ r'.sector)
    (hr : r.Exact) (hmerge : merges none out r = true) : Folds (run ++ [r]) (mergeRequest out r) r.last := by
  obtain ⟨hrun, -, hcross⟩ := List.pairwise_append.mp hsorted
  have hlow : ∀ r' ∈ run, r'.sector ≤ r.sector := fun r' hr' ↦ hcross r' hr' r (List.mem_singleton_self r)
  obtain ⟨first, rest, rfl, hfirst⟩ := h.sector
  have hle : out.sector ≤ r.sector := hfirst ▸ hlow first List.mem_cons_self
  obtain ⟨hsector, hlast⟩ := h.sector_le hle hmerge
  have hsize := h.size
  have hcut : (512 * (r.sector - out.sector) : Int) ≤ out.qiov.size := by omega
  obtain ⟨hpos, hexact⟩ := hr
  have hlt := r.nbSectors.toInt_lt
  have hstop : r.last = r.sector + r.nbSectors.toInt := rfl
  have hshort : stop - out.sector < 2 ^ 31 := by
    by_contra hlong
    have hneg := h.last_lt (Int.not_lt.mp hlong)
    omega
  have hmerged := size_mergeRequest hsector hle hcut
  refine ⟨⟨first, rest ++ [r], rfl, hfirst⟩, ?_, ?_, ?_, ?_, ?_, ?_, ?_⟩
  · rw [span_concat]
    exact congrArg (r.last - ·) hfirst.symm
  · change out.sector ≤ r.last
    omega
  · change r.last - out.sector < 2 ^ 32
    omega
  · change _ = 512 * (r.last - out.sector)
    omega
  · change _ = (r.last - out.sector).bmod (2 ^ 32)
    have hcount : (((mergeRequest out r).qiov.size / 512 : Nat) : Int) = r.last - out.sector := by omega
    have hwidth : Int32.size = 2 ^ 32 := rfl
    rw [nbSectors_mergeRequest, Int32.toInt_ofNat', hcount, hwidth]
  · intro x hx hxstop
    by_cases hcase : x < r.sector
    · rw [data_mergeRequest_of_lt hsector hx hcase hcut]
      obtain ⟨r', hr', hcovers, hdata⟩ := h.data x hx (by omega)
      exact ⟨r', List.mem_append_left _ hr', hcovers, hdata⟩
    · rw [data_mergeRequest_of_le hsector hle (Int.not_lt.mp hcase) hcut]
      exact ⟨r, List.mem_append_right _ (List.mem_singleton_self r), ⟨Int.not_lt.mp hcase, hxstop⟩, rfl⟩
  · intro x
    rw [uncut_concat hrun (List.cons_ne_nil first rest) hlow, h.uncut]
    change _ ↔ out.sector ≤ x ∧ x < r.last
    unfold BlockRequest.Covers
    omega

theorem loops_fold {reqs : List BlockRequest} (h : Folds run out stop)
    (hsorted : (run ++ reqs).Pairwise fun r r' ↦ r.sector ≤ r'.sector) (hexact : ∀ r ∈ reqs, r.Exact) :
    List.Forall₂ (fun run out ↦ ∃ stop, Folds run out stop) (runsLoop none out run reqs) (mergeLoop none out reqs) := by
  induction reqs generalizing run out stop with
  | nil => exact .cons ⟨stop, h⟩ .nil
  | cons r reqs ih =>
    have hrest : ∀ r' ∈ reqs, r'.Exact := fun r' hr' ↦ hexact r' (List.mem_cons_of_mem r hr')
    rw [runsLoop, mergeLoop]
    by_cases hmerge : merges none out r = true
    · rw [if_pos hmerge, if_pos hmerge]
      have hsorted' : (run ++ [r] ++ reqs).Pairwise fun r r' ↦ r.sector ≤ r'.sector := by
        rw [List.append_assoc]
        exact hsorted
      have hrun := hsorted'.sublist (List.sublist_append_left (run ++ [r]) reqs)
      exact ih (h.concat hrun (hexact r List.mem_cons_self) hmerge) hsorted' hrest
    · rw [if_neg hmerge, if_neg hmerge]
      have htail := hsorted.sublist (List.sublist_append_right run (r :: reqs))
      exact .cons ⟨stop, h⟩ (ih (folds_single (hexact r List.mem_cons_self)) htail hrest)

theorem flatten_runsLoop (driver : MergeRequests) (out : BlockRequest) (run reqs : List BlockRequest) :
    (runsLoop driver out run reqs).flatten = run ++ reqs := by
  induction reqs generalizing out run with
  | nil => simp [runsLoop]
  | cons r reqs ih =>
    rw [runsLoop]
    split
    · rw [ih, List.append_assoc, List.singleton_append]
    · rw [List.flatten_cons, ih, List.singleton_append]

end Runs

section Batch

variable {reqs sorted : List BlockRequest} {x : Int}

theorem SortedFrom.sectors (h : SortedFrom reqs sorted) : sorted.Pairwise fun r r' ↦ r.sector ≤ r'.sector := by
  refine h.pairwise.imp fun {r r'} hcompare ↦ ?_
  by_contra hgt
  rw [multiwriteReqCompare, if_pos (Int.not_le.mp hgt)] at hcompare
  omega

theorem runs_fold (h : SortedFrom reqs sorted) (hexact : ∀ r ∈ reqs, r.Exact) :
    List.Forall₂ (fun run out ↦ ∃ stop, Folds run out stop) (runs none sorted) (multiwriteMerge none sorted) := by
  have hall : ∀ r ∈ sorted, r.Exact := fun r hr ↦ hexact r (h.perm.subset hr)
  cases sorted with
  | nil => exact .nil
  | cons r rest =>
    apply loops_fold (folds_single (hall r List.mem_cons_self)) h.sectors
    exact fun r' hr' ↦ hall r' (List.mem_cons_of_mem r hr')

theorem flatten_runs (driver : MergeRequests) (sorted : List BlockRequest) : (runs driver sorted).flatten = sorted := by
  cases sorted with
  | nil => rfl
  | cons r rest => exact flatten_runsLoop driver r [r] rest

/-- What is left covers just the sectors that lie uncut in a short run. -/
theorem merged_covers_iff (h : SortedFrom reqs sorted) (hexact : ∀ r ∈ reqs, r.Exact) (x : Int) :
    (∃ out ∈ multiwriteMerge none sorted, out.Covers x) ↔
      ∃ run ∈ runs none sorted, span run < 2 ^ 31 ∧ Uncut x run := by
  have hfold := runs_fold h hexact
  generalize multiwriteMerge none sorted = outs at hfold
  generalize runs none sorted = rs at hfold
  induction hfold with
  | nil => simp
  | cons hfirst _ ih =>
    obtain ⟨stop, hfolds⟩ := hfirst
    simp only [List.exists_mem_cons_iff, hfolds.covers_iff x, ih]

theorem exists_of_forall₂ {α β : Type} {R : α → β → Prop} {l : List α} {l' : List β} (h : List.Forall₂ R l l')
    {b : β} (hb : b ∈ l') : ∃ a ∈ l, R a b := by
  induction h with
  | nil => cases hb
  | @cons a b' l l' hfirst _ ih =>
    rcases List.mem_cons.mp hb with rfl | hrest
    · exact ⟨a, List.mem_cons_self, hfirst⟩
    · obtain ⟨a', ha', hR⟩ := ih hrest
      exact ⟨a', List.mem_cons_of_mem a ha', hR⟩

/-- What is left has the data of requests of the batch. -/
theorem merged_data (h : SortedFrom reqs sorted) (hexact : ∀ r ∈ reqs, r.Exact) {out : BlockRequest}
    (hout : out ∈ multiwriteMerge none sorted) (hx : out.Covers x) :
    ∃ r ∈ reqs, r.Covers x ∧ out.data x = r.data x := by
  have hfold := runs_fold h hexact
  have hmem : ∀ run ∈ runs none sorted, ∀ r ∈ run, r ∈ reqs := by
    intro run hrun r hr
    apply h.perm.subset
    rw [← flatten_runs none sorted]
    exact List.mem_flatten.mpr ⟨run, hrun, hr⟩
  obtain ⟨run, hrun, stop, hfolds⟩ := exists_of_forall₂ hfold hout
  obtain ⟨r, hr, hcovers, hdata⟩ := hfolds.data_of_covers hx
  exact ⟨r, hmem run hrun r hr, hcovers, hdata⟩

/-- After writes in any order a sector has the data of a request that covers it. -/
theorem foldl_write (order : List BlockRequest) (written : Written) (x : Int) :
    (∃ r ∈ order, r.Covers x ∧ order.foldl Written.write written x = some (r.data x)) ∨
      (∀ r ∈ order, ¬ r.Covers x) ∧ order.foldl Written.write written x = written x := by
  induction order generalizing written with
  | nil => exact .inr ⟨by simp, rfl⟩
  | cons first order ih =>
    rcases ih (written.write first) with ⟨r, hr, hcovers, hdata⟩ | ⟨hnone, hkeeps⟩
    · exact .inl ⟨r, List.mem_cons_of_mem first hr, hcovers, hdata⟩
    · by_cases hfirst : first.Covers x
      · refine .inl ⟨first, List.mem_cons_self, hfirst, hkeeps.trans ?_⟩
        exact if_pos hfirst
      · refine .inr ⟨?_, hkeeps.trans ?_⟩
        · intro r hr
          rcases List.mem_cons.mp hr with rfl | hrest
          · exact hfirst
          · exact hnone r hrest
        · exact if_neg hfirst

/-- When the requests that `multiwrite_merge` leaves have been written in any order, every
sector of the batch holds the data of one of the requests that cover it and no other sector
changes, if and only if each sector of the batch lies uncut in a run. -/
theorem multiwrite_lossless_iff (h : SortedFrom reqs sorted) (hexact : ∀ r ∈ reqs, r.Exact) :
    (∀ order : List BlockRequest, order.Perm (multiwriteMerge none sorted) →
      Lossless reqs (order.foldl Written.write fun _ ↦ none)) ↔ Spared none sorted := by
  constructor
  · intro hlossless x hx
    obtain ⟨r, hr, hcovers⟩ := hx
    apply (merged_covers_iff h hexact x).mp
    obtain ⟨r', -, -, hdata⟩ := (hlossless _ (.refl _) x).1 ⟨r, h.perm.subset hr, hcovers⟩
    rcases foldl_write (multiwriteMerge none sorted) (fun _ ↦ none) x with ⟨out, hout, hout', -⟩ | ⟨-, hnone⟩
    · exact ⟨out, hout, hout'⟩
    · cases hnone.symm.trans hdata
  · intro hspared order horder x
    rcases foldl_write order (fun _ ↦ none) x with ⟨out, hout, hcovers, hdata⟩ | ⟨huncovered, hnone⟩
    · obtain ⟨r, hr, hr', hsame⟩ := merged_data h hexact (horder.subset hout) hcovers
      refine ⟨fun _ ↦ ⟨r, hr, hr', hsame ▸ hdata⟩, fun hno ↦ absurd hr' (hno r hr)⟩
    · refine ⟨?_, fun _ ↦ hnone⟩
      rintro ⟨r, hr, hcovers⟩
      obtain ⟨out, hout, hout'⟩ := (merged_covers_iff h hexact x).mpr (hspared x ⟨r, h.perm.symm.subset hr, hcovers⟩)
      exact absurd hout' (huncovered out (horder.symm.subset hout))

end Batch

/-- A request of equal bytes in one buffer. -/
def filled (sector : Int) (nbSectors : Nat) (byte : UInt8) : BlockRequest :=
  ⟨sector, .ofNat nbSectors, qemuIovecAdd qemuIovecInit (List.replicate (512 * nbSectors) byte)⟩

theorem multiwrite_lossless_overlapping : (∀ order : List BlockRequest,
    order.Perm (multiwriteMerge none [filled 0 2 1, filled 1 2 2]) →
      Lossless [filled 1 2 2, filled 0 2 1] (order.foldl Written.write fun _ ↦ none)) ↔
    Spared none [filled 0 2 1, filled 1 2 2] :=
  multiwrite_lossless_iff ⟨.swap _ _ _, by decide +kernel⟩ (by decide +kernel)

/-- The last sector of the first request is lost. -/
theorem multiwrite_lossless_fails : SortedFrom [filled 0 3 1, filled 1 1 2] [filled 0 3 1, filled 1 1 2] ∧
    (∀ r ∈ [filled 0 3 1, filled 1 1 2], r.Exact) ∧
    ¬ Lossless [filled 0 3 1, filled 1 1 2]
      ((multiwriteMerge none [filled 0 3 1, filled 1 1 2]).foldl Written.write fun _ ↦ none) := by
  refine ⟨⟨.refl _, by decide +kernel⟩, by decide +kernel, fun h ↦ ?_⟩
  obtain ⟨r, -, -, hdata⟩ := (h 2).1 ⟨filled 0 3 1, List.mem_cons_self, by decide +kernel⟩
  have hnone : (multiwriteMerge none [filled 0 3 1, filled 1 1 2]).foldl Written.write (fun _ ↦ none) 2 = none := by
    decide +kernel
  cases hnone.symm.trans hdata

end IDeviceEmulator.Block
