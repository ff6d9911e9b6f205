import IDeviceEmulator.Library.Machine
import IDeviceEmulator.Qcow2.Overlap

namespace IDeviceEmulator.Qcow2.Writes

section Phases

/-- Where a request is between its start and its end. -/
inductive Phase
  | dead
  | called (f : Frame)
  /-- Its data is being written. -/
  | writing
  | waiting (m : Nat)
deriving DecidableEq

/-- The phases in which a request can be on the list. -/
def Phase.holds : Phase → Bool
  | .called (.entered _ _) | .writing => true
  | _ => false

def Phase.restarting : Phase → Bool
  | .called (.restarting _ _) => true
  | _ => false

variable (g : Geometry) (encrypted : Bool)

/-- A request in a phase, and on the list or not. -/
structure Fits (req : Request) (p : Phase) (on : Prop) : Prop where
  hdAiocb : req.hdAiocb = true ↔ p = .writing
  live : req.live = true ↔ p ≠ .dead
  modest : p ≠ .dead → Modest g (requestEnd g encrypted req) ∧ req.curNrSectors ≤ req.remainingSectors
  listed : on ↔ p.holds = true ∧ req.l2meta.nbClusters ≠ 0
  quiet : ¬ on → p.restarting = false → req.l2meta.dependentRequests = []
  waiting : ∀ m, p = .waiting m → req.l2meta.nbClusters = 0 ∧ req.l2meta.dependsOn = some m

/-- The calls on the stack are those of the requests that are called. -/
structure Stacked (stack : List Frame) (phase : Nat → Phase) : Prop where
  called_iff : ∀ r f, phase r = .called f ↔ f ∈ stack ∧ f.request = r
  nodup : (stack.map Frame.request).Nodup

structure Placed (s : State) (phase : Nat → Phase) : Prop where
  fits : ∀ r, Fits g encrypted (s.requests r) (phase r) (r ∈ s.clusterAllocs)
  dependent : ∀ m d, d ∈ (s.l2meta m).dependentRequests ↔ phase d = .waiting m
  nodup : ∀ m, (s.l2meta m).dependentRequests.Nodup
  allocs : s.clusterAllocs.Nodup
  stacked : Stacked s.stack phase
  unborn : ∀ r, s.next ≤ r → phase r = .dead

variable {g encrypted} {s t : State} {phase : Nat → Phase} {stack : List Frame} {f f' : Frame} {p : Phase} {r m : Nat}

theorem Stacked.mem_iff (h : Stacked stack phase) (f : Frame) : f ∈ stack ↔ phase f.request = .called f := by
  rw [h.called_iff]
  exact (and_iff_left rfl).symm

theorem Stacked.pop (h : Stacked (f :: stack) phase) (hp : ∀ f', p ≠ .called f') :
    Stacked stack (Function.update phase f.request p) := by
  have hnodup := List.nodup_cons.mp h.nodup
  refine ⟨fun r f' ↦ ?_, hnodup.2⟩
  by_cases hr : r = f.request
  · subst hr
    rw [Function.update_self]
    refine iff_of_false (hp f') ?_
    rintro ⟨hmem, hf⟩
    rw [← hf] at hnodup
    exact hnodup.1 (List.mem_map_of_mem hmem)
  · rw [Function.update_of_ne hr, h.called_iff, List.mem_cons]
    refine and_congr_left fun hf ↦ or_iff_right ?_
    rintro rfl
    exact hr hf.symm

theorem Stacked.push (h : Stacked stack phase) (hp : ∀ f', phase f.request ≠ .called f') :
    Stacked (f :: stack) (Function.update phase f.request (.called f)) := by
  have hnew : ∀ f' ∈ stack, f'.request ≠ f.request := by
    intro f' hmem heq
    exact hp f' ((h.called_iff _ _).mpr ⟨hmem, heq⟩)
  refine ⟨fun r f' ↦ ?_, List.nodup_cons.mpr ⟨?_, h.nodup⟩⟩
  · by_cases hr : r = f.request
    · subst hr
      rw [Function.update_self, List.mem_cons, Phase.called.injEq]
      refine ⟨fun heq ↦ ⟨.inl heq.symm, by rw [heq]⟩, ?_⟩
      rintro ⟨hmem, hf⟩
      exact (hmem.resolve_right fun hmem ↦ hnew f' hmem hf).symm
    · rw [Function.update_of_ne hr, h.called_iff, List.mem_cons]
      refine and_congr_left fun hf ↦ (or_iff_right ?_).symm
      rintro rfl
      exact hr hf.symm
  · rw [List.mem_map]
    rintro ⟨f', hmem, heq⟩
    exact hnew f' hmem heq

theorem Stacked.replace (h : Stacked (f :: stack) phase) (hf : f'.request = f.request) :
    Stacked (f' :: stack) (Function.update phase f.request (.called f')) := by
  have hpop : Stacked stack (Function.update phase f.request .dead) := h.pop (by simp)
  have hpush := hpop.push (f := f') (by simp [hf])
  rwa [hf, Function.update_idem] at hpush

/-- One request changes, and no other request begins or ceases to wait. -/
theorem Placed.update (req : Request) (h : Placed g encrypted s phase)
    (hrequests : t.requests = Function.update s.requests r req)
    (hdeps : req.l2meta.dependentRequests = (s.l2meta r).dependentRequests) (hold : ∀ m, phase r ≠ .waiting m)
    (hnew : ∀ m, p ≠ .waiting m) (hfits : Fits g encrypted req p (r ∈ t.clusterAllocs))
    (hallocs : ∀ x, x ≠ r → (x ∈ t.clusterAllocs ↔ x ∈ s.clusterAllocs)) (hnodup : t.clusterAllocs.Nodup)
    (hstack : Stacked t.stack (Function.update phase r p))
    (hnext : ∀ x, t.next ≤ x → x ≠ r ∧ s.next ≤ x ∨ x = r ∧ p = .dead) :
    Placed g encrypted t (Function.update phase r p) := by
  have hsame : ∀ m, (t.l2meta m).dependentRequests = (s.l2meta m).dependentRequests := by
    intro m
    unfold State.l2meta
    rw [hrequests]
    by_cases hm : m = r
    · subst hm
      rw [Function.update_self]
      exact hdeps
    · rw [Function.update_of_ne hm]
  refine ⟨fun x ↦ ?_, fun m d ↦ ?_, fun m ↦ hsame m ▸ h.nodup m, hnodup, hstack, fun x hx ↦ ?_⟩
  · by_cases hx : x = r
    · subst hx
      rw [hrequests, Function.update_self, Function.update_self]
      exact hfits
    · rw [hrequests, Function.update_of_ne hx, Function.update_of_ne hx, hallocs x hx]
      exact h.fits x
  · rw [hsame, h.dependent]
    by_cases hd : d = r
    · subst hd
      rw [Function.update_self]
      exact iff_of_false (hold m) (hnew m)
    · rw [Function.update_of_ne hd]
  · obtain ⟨hne, hle⟩ | ⟨rfl, hdead⟩ := hnext x hx
    · rw [Function.update_of_ne hne]
      exact h.unborn x hle
    · rw [Function.update_self, hdead]

end Phases

section Statuses

/-- What the labels so far say of a request. -/
inductive Status
  | running
  | waiting (m : Nat)
  /-- What it waited for has left the list. -/
  | due
deriving DecidableEq

/-- A request is restarted only when it is due, and then runs. -/
def observe (status : Nat → Status) : Label → Option (Nat → Status)
  | .waits r m => if status r = .running then some (Function.update status r (.waiting m)) else none
  | .leaves m => some fun r ↦ if status r = .waiting m then .due else status r
  | .restarts r => if status r = .due then some (Function.update status r .running) else none

def follow : (Nat → Status) → List Label → Option (Nat → Status)
  | status, [] => some status
  | status, l :: ls => (observe status l).bind fun status ↦ follow status ls

theorem follow_append (status : Nat → Status) (ls ls' : List Label) :
    follow status (ls ++ ls') = (follow status ls).bind fun status ↦ follow status ls' := by
  induction ls generalizing status with
  | nil => rfl
  | cons l ls ih =>
    simp only [List.cons_append, follow, Option.bind_assoc]
    congr 1
    funext status'
    exact ih status'

def statusOf (allocs : List Nat) (phase : Nat → Phase) (r : Nat) : Status :=
  match phase r with
  | .waiting m => if m ∈ allocs then .waiting m else .due
  | _ => .running

variable {allocs : List Nat} {phase : Nat → Phase} {p : Phase} {r m : Nat}

theorem statusOf_running (h : ∀ m, phase r ≠ .waiting m) : statusOf allocs phase r = .running := by
  unfold statusOf
  cases hp : phase r with
  | waiting m => exact absurd hp (h m)
  | _ => rfl

theorem statusOf_waiting (h : phase r = .waiting m) :
    statusOf allocs phase r = if m ∈ allocs then .waiting m else .due := by
  simp only [statusOf, h]

theorem statusOf_update_ne {x : Nat} (hx : x ≠ r) :
    statusOf allocs (Function.update phase r p) x = statusOf allocs phase x := by
  simp only [statusOf, Function.update_of_ne hx]

theorem statusOf_update (hold : ∀ m, phase r ≠ .waiting m) (hnew : ∀ m, p ≠ .waiting m) :
    statusOf allocs (Function.update phase r p) = statusOf allocs phase := by
  funext x
  by_cases hx : x = r
  · subst hx
    rw [statusOf_running hold, statusOf_running (by simpa using hnew)]
  · exact statusOf_update_ne hx

theorem statusOf_cons (h : ∀ x, phase x ≠ .waiting r) : statusOf (r :: allocs) phase = statusOf allocs phase := by
  funext x
  unfold statusOf
  cases hp : phase x with
  | waiting m =>
    have hm : m ≠ r := by
      rintro rfl
      exact h x hp
    simp [hm]
  | _ => rfl

theorem observe_leaves (hnodup : allocs.Nodup) (hr : r ∈ allocs) :
    observe (statusOf allocs phase) (.leaves r) = some (statusOf (allocs.erase r) phase) := by
  simp only [observe, Option.some.injEq]
  funext x
  unfold statusOf
  cases phase x with
  | waiting m =>
    by_cases hm : m = r
    · subst hm
      simp [hr, hnodup.not_mem_erase]
    · by_cases hin : m ∈ allocs <;> simp [hin, List.mem_erase_of_ne hm, hm]
  | _ => rfl

theorem observe_waits (hold : ∀ m, phase r ≠ .waiting m) (hm : m ∈ allocs) :
    observe (statusOf allocs phase) (.waits r m) = some (statusOf allocs (Function.update phase r (.waiting m))) := by
  rw [observe, if_pos (statusOf_running hold)]
  congr 1
  funext x
  by_cases hx : x = r
  · subst hx
    rw [Function.update_self, statusOf_waiting (m := m) (by simp), if_pos hm]
  · rw [Function.update_of_ne hx, statusOf_update_ne hx]

theorem observe_restarts (hold : phase r = .waiting m) (hm : m ∉ allocs) (hnew : ∀ m, p ≠ .waiting m) :
    observe (statusOf allocs phase) (.restarts r) = some (statusOf allocs (Function.update phase r p)) := by
  have hdue : statusOf allocs phase r = .due := by rw [statusOf_waiting hold, if_neg hm]
  rw [observe, if_pos hdue]
  congr 1
  funext x
  by_cases hx : x = r
  · subst hx
    rw [Function.update_self, statusOf_running (by simpa using hnew)]
  · rw [Function.update_of_ne hx, statusOf_update_ne hx]

end Statuses

section Steps

variable (g : Geometry) (encrypted : Bool) (fixed : Nat → Nat)

def placesOf (metas : Nat → L2Meta) (allocs : List Nat) : List Place := allocs.map fun r ↦ place (metas r)

structure Inv (s : State) (phase : Nat → Phase) : Prop where
  accounted : Accounted g fixed s.image (placesOf s.l2meta s.clusterAllocs)
  placed : Placed g encrypted s phase

/-- A step leads to a state with the invariant, and its labels are those of the change. -/
def Moves (s : State) (phase : Nat → Phase) (out : State × List Label) : Prop :=
  ∃ phase', Inv g encrypted fixed out.1 phase' ∧
    follow (statusOf s.clusterAllocs phase) out.2 = some (statusOf out.1.clusterAllocs phase')

variable {g encrypted fixed} {s : State} {phase : Nat → Phase} {r : Nat} {ok : Bool} {rest : List Frame}

theorem fits_called {req : Request} {f : Frame} {on : Prop} (hhd : req.hdAiocb = false) (hlive : req.live = true)
    (hmodest : Modest g (requestEnd g encrypted req) ∧ req.curNrSectors ≤ req.remainingSectors)
    (hlisted : on ↔ (Phase.called f).holds = true ∧ req.l2meta.nbClusters ≠ 0)
    (hquiet : ¬ on → (Phase.called f).restarting = false → req.l2meta.dependentRequests = []) :
    Fits g encrypted req (.called f) on :=
  ⟨by simp [hhd], by simp [hlive], fun _ ↦ hmodest, hlisted, hquiet, by simp⟩

theorem Fits.hdAiocb_called {req : Request} {f : Frame} {on : Prop} (h : Fits g encrypted req (.called f) on) :
    req.hdAiocb = false := by
  have hhd := h.hdAiocb
  simpa using hhd

theorem Fits.live_called {req : Request} {f : Frame} {on : Prop} (h : Fits g encrypted req (.called f) on) :
    req.live = true := h.live.mpr (by simp)

theorem Fits.modest_called {req : Request} {f : Frame} {on : Prop} (h : Fits g encrypted req (.called f) on) :
    Modest g (requestEnd g encrypted req) ∧ req.curNrSectors ≤ req.remainingSectors := h.modest (by simp)

theorem Placed.top {f : Frame} (h : Placed g encrypted s phase) (hstack : s.stack = f :: rest) :
    phase f.request = .called f :=
  (h.stacked.mem_iff f).mp (by simp [hstack])

theorem Placed.stacked_of {f : Frame} (h : Placed g encrypted s phase) (hstack : s.stack = f :: rest) :
    Stacked (f :: rest) phase := hstack ▸ h.stacked

theorem Placed.unborn_of_called {f : Frame} (h : Placed g encrypted s phase) (hr : phase r = .called f) (x : Nat)
    (hx : s.next ≤ x) : x ≠ r ∧ s.next ≤ x := by
  refine ⟨?_, hx⟩
  rintro rfl
  have hdead := h.unborn x hx
  rw [hr] at hdead
  cases hdead

theorem leave_moves {ok' : Bool} (h : Placed g encrypted s phase) (hstack : s.stack = .entered r ok' :: rest)
    (haccounted : Accounted g fixed s.image (placesOf s.l2meta (s.clusterAllocs.erase r))) :
    Moves g encrypted fixed s phase (leave s r ok rest) := by
  have hphase : phase r = .called (.entered r ok') := h.top hstack
  have hfits := h.fits r
  rw [hphase] at hfits
  have hgone : r ∉ s.clusterAllocs.erase r := h.allocs.not_mem_erase
  have hnew : Placed g encrypted
      { s with clusterAllocs := s.clusterAllocs.erase r, stack := .restarting r ok :: rest }
      (Function.update phase r (.called (.restarting r ok))) := by
    refine h.update (s.requests r) (by simp) rfl (by simp [hphase]) (by simp) ?_
      (fun x hx ↦ List.mem_erase_of_ne hx) (h.allocs.erase r) ((h.stacked_of hstack).replace rfl)
      fun x hx ↦ .inl (h.unborn_of_called hphase x hx)
    exact fits_called hfits.hdAiocb_called hfits.live_called hfits.modest_called
      (iff_of_false hgone (by simp [Phase.holds])) (by simp [Phase.restarting])
  unfold leave
  split_ifs with hnb
  · have hout : r ∉ s.clusterAllocs := fun hr ↦ (hfits.listed.mp hr).2 hnb
    rw [List.erase_of_not_mem hout] at hnew haccounted
    exact ⟨_, ⟨haccounted, hnew⟩, by rw [statusOf_update (by simp [hphase]) (by simp)]; rfl⟩
  · have hin : r ∈ s.clusterAllocs := hfits.listed.mpr ⟨rfl, hnb⟩
    refine ⟨_, ⟨haccounted, hnew⟩, ?_⟩
    rw [statusOf_update (by simp [hphase]) (by simp)]
    simp only [follow, observe_leaves h.allocs hin, Option.bind_some]

theorem placesOf_perm {metas : Nat → L2Meta} {allocs : List Nat} (h : r ∈ allocs) :
    (placesOf metas allocs).Perm (place (metas r) :: placesOf metas (allocs.erase r)) :=
  (List.perm_cons_erase h).map _

theorem Placed.withImage {img : Image} (h : Placed g encrypted s phase) :
    Placed g encrypted { s with image := img } phase :=
  ⟨h.fits, h.dependent, h.nodup, h.allocs, h.stacked, h.unborn⟩

theorem Inv.linkable (h : Inv g encrypted fixed s phase) (hr : r ∈ s.clusterAllocs) : (place (s.l2meta r)).Linkable g :=
  h.accounted.linkable _ (List.mem_map_of_mem hr)

/-- Linking the clusters of a request, whether it succeeds or not, leaves the other requests with what they own. -/
theorem Inv.link (h : Inv g encrypted fixed s phase) (hlisted : (s.l2meta r).nbClusters ≠ 0 → r ∈ s.clusterAllocs) :
    Spec (· = s.image) (allocClusterLinkL2 g (s.l2meta r))
      (fun _ img ↦ Accounted g fixed img (placesOf s.l2meta (s.clusterAllocs.erase r)))
      fun img ↦ Accounted g fixed img (placesOf s.l2meta (s.clusterAllocs.erase r)) := by
  by_cases hr : r ∈ s.clusterAllocs
  · have hplaces := h.accounted.perm (placesOf_perm hr)
    have hbooks := hplaces.books
    rw [owned_cons] at hbooks
    have hlink := h.linkable hr
    refine ((spec_allocClusterLinkL2 (s.l2meta r) hlink.aligned hlink.fits hlink.limit).at hbooks
      fun img himg ↦ hplaces.tail himg).weaken (fun _ hi ↦ hi) (fun _ img himg ↦ hplaces.tail himg) fun _ hi ↦ hi
  · have hnb : (s.l2meta r).nbClusters = 0 := by
      by_contra hne
      exact hr (hlisted hne)
    have haccounted := h.accounted
    rw [← List.erase_of_not_mem hr] at haccounted
    unfold allocClusterLinkL2
    rw [if_pos hnb]
    exact spec_pure fun _ hi ↦ hi ▸ haccounted

theorem Inv.erase (h : Inv g encrypted fixed s phase) (r : Nat) :
    Accounted g fixed s.image (placesOf s.l2meta (s.clusterAllocs.erase r)) := by
  by_cases hr : r ∈ s.clusterAllocs
  · exact (h.accounted.perm (placesOf_perm hr)).drop
  · rw [List.erase_of_not_mem hr]
    exact h.accounted

theorem enter_moves (h : Inv g encrypted fixed s phase)
    (hstack : s.stack = .entered r ok :: rest) {answers : List Answer}
    {out : State × List Label} (hstep : enter g s r ok rest answers = .ok out) :
    Moves g encrypted fixed s phase out := by
  have hphase : phase r = .called (.entered r ok) := h.placed.top hstack
  have hlisted : (s.l2meta r).nbClusters ≠ 0 → r ∈ s.clusterAllocs := by
    intro hne
    exact (h.placed.fits r).listed.mpr ⟨by rw [hphase]; rfl, hne⟩
  unfold enter at hstep
  cases ok with
  | false =>
    cases hstep
    exact leave_moves h.placed hstack (h.erase r)
  | true =>
    simp only [if_true] at hstep
    cases hlink : allocClusterLinkL2 g (s.l2meta r) ⟨s.image, answers⟩ with
    | ok a w =>
      rw [hlink] at hstep
      cases hstep
      exact leave_moves (s := { s with image := w.image }) h.placed.withImage hstack
        ((h.link hlisted).ok rfl hlink)
    | error e w =>
      rw [hlink] at hstep
      cases e with
      | abort => cases hstep
      | failed =>
        cases hstep
        exact leave_moves (s := { s with image := w.image }) h.placed.withImage hstack
          ((h.link hlisted).failed rfl hlink)

theorem setRequest_l2meta (s : State) (r : Nat) (req : Request) (x : Nat) :
    (s.setRequest r req).l2meta x = if x = r then req.l2meta else s.l2meta x := by
  by_cases hx : x = r <;> simp [State.l2meta, State.setRequest, hx]

theorem placesOf_setRequest {req : Request} {allocs : List Nat}
    (h : r ∈ allocs → place req.l2meta = place (s.l2meta r)) :
    placesOf (s.setRequest r req).l2meta allocs = placesOf s.l2meta allocs := by
  refine List.map_congr_left fun x hx ↦ ?_
  rw [setRequest_l2meta]
  split_ifs with hxr
  · subst hxr
    exact h hx
  · rfl

/-- The request on top goes on with its call, and nothing else changes. -/
theorem Inv.goesOn {f f' : Frame} (h : Inv g encrypted fixed s phase) (hstack : s.stack = f :: rest)
    (hf : f'.request = f.request)
    (hfits : Fits g encrypted (s.requests f.request) (.called f') (f.request ∈ s.clusterAllocs)) :
    Moves g encrypted fixed s phase ({ s with stack := f' :: rest }, []) := by
  have hphase := h.placed.top hstack
  refine ⟨Function.update phase f.request (.called f'), ⟨h.accounted, ?_⟩, ?_⟩
  · exact h.placed.update (s.requests f.request) (by simp) rfl (by simp [hphase]) (by simp) hfits (fun _ _ ↦ Iff.rfl)
      h.placed.allocs ((h.placed.stacked_of hstack).replace hf) fun x hx ↦ .inl (h.placed.unborn_of_called hphase x hx)
  · rw [statusOf_update (by simp [hphase]) (by simp)]
    rfl

/-- A request that waits is taken off the list of the one that it waits for. -/
theorem Placed.restart {d : Nat} {ds : List Nat} (h : Placed g encrypted s phase)
    (hstack : s.stack = .restarting r ok :: rest) (hdeps : (s.l2meta r).dependentRequests = d :: ds) :
    Placed g encrypted
      { s.setRequest r { s.requests r with l2meta := { s.l2meta r with dependentRequests := ds } } with
        stack := .entered d true :: .restarting r ok :: rest }
      (Function.update phase d (.called (.entered d true))) := by
  have hphase : phase r = .called (.restarting r ok) := h.top hstack
  have hd : phase d = .waiting r := (h.dependent r d).mp (by simp [hdeps])
  have hdr : d ≠ r := by
    rintro rfl
    rw [hd] at hphase
    cases hphase
  have hnodup := h.nodup r
  rw [hdeps, List.nodup_cons] at hnodup
  refine ⟨fun x ↦ ?_, fun m x ↦ ?_, fun m ↦ ?_, h.allocs, ?_, fun x hx ↦ ?_⟩
  · have hfits := h.fits x
    by_cases hxd : x = d
    · subst hxd
      rw [hd] at hfits
      have hout : x ∉ s.clusterAllocs := by simp [hfits.listed, Phase.holds]
      have hhd := hfits.hdAiocb
      simp only [State.setRequest, Function.update_of_ne hdr, Function.update_self]
      refine fits_called (by simpa using hhd) (hfits.live.mpr (by simp)) (hfits.modest (by simp)) ?_ ?_
      · exact iff_of_false hout (by simp [(hfits.waiting r rfl).1])
      · exact fun _ _ ↦ hfits.quiet hout rfl
    · rw [Function.update_of_ne hxd]
      by_cases hxr : x = r
      · subst hxr
        rw [hphase] at hfits ⊢
        simp only [State.setRequest, Function.update_self]
        exact fits_called hfits.hdAiocb_called hfits.live_called hfits.modest_called hfits.listed
          (by simp [Phase.restarting])
      · simp only [State.setRequest, Function.update_of_ne hxr]
        exact hfits
  · have hmem := h.dependent m x
    change x ∈ ((s.setRequest r _).l2meta m).dependentRequests ↔ _
    rw [setRequest_l2meta]
    by_cases hxd : x = d
    · subst hxd
      rw [Function.update_self]
      refine iff_of_false ?_ (by simp)
      split_ifs with hm
      · exact hnodup.1
      · rw [hmem, hd]
        simpa using Ne.symm hm
    · rw [Function.update_of_ne hxd, ← hmem]
      split_ifs with hm
      · simp [hm, hdeps, hxd]
      · exact Iff.rfl
  · change ((s.setRequest r _).l2meta m).dependentRequests.Nodup
    rw [setRequest_l2meta]
    split_ifs
    · exact hnodup.2
    · exact h.nodup m
  · have hpush := h.stacked.push (f := .entered d true) (by simp [Frame.request, hd])
    rwa [hstack] at hpush
  · have hdead := h.unborn x hx
    have hxd : x ≠ d := by
      rintro rfl
      rw [hd] at hdead
      cases hdead
    rw [Function.update_of_ne hxd]
    exact hdead

theorem restart_moves (h : Inv g encrypted fixed s phase) (hstack : s.stack = .restarting r ok :: rest) :
    Moves g encrypted fixed s phase (restart s r ok rest) := by
  have hphase : phase r = .called (.restarting r ok) := h.placed.top hstack
  have hfits := h.placed.fits r
  rw [hphase] at hfits
  have hout : r ∉ s.clusterAllocs := by simp [hfits.listed, Phase.holds]
  unfold restart
  cases hdeps : (s.l2meta r).dependentRequests with
  | nil =>
    refine h.goesOn hstack rfl (fits_called hfits.hdAiocb_called hfits.live_called hfits.modest_called ?_ ?_)
    · exact iff_of_false hout (by simp [Phase.holds])
    · exact fun _ _ ↦ hdeps
  | cons d ds =>
    have hd : phase d = .waiting r := (h.placed.dependent r d).mp (by simp [hdeps])
    refine ⟨_, ⟨?_, h.placed.restart hstack hdeps⟩, ?_⟩
    · change Accounted g fixed s.image (placesOf (s.setRequest r _).l2meta s.clusterAllocs)
      rw [placesOf_setRequest]
      · exact h.accounted
      · exact fun _ ↦ rfl
    · simp only [follow, observe_restarts (p := .called (.entered d true)) hd hout (by simp), Option.bind_some]
      rfl

theorem Placed.not_mem_of_resumed (h : Placed g encrypted s phase) (hstack : s.stack = .resumed r ok :: rest) :
    r ∉ s.clusterAllocs := by
  have hphase : phase r = .called (.resumed r ok) := h.top hstack
  rw [(h.fits r).listed, hphase]
  simp [Phase.holds]

theorem Placed.dependents_of_resumed (h : Placed g encrypted s phase) (hstack : s.stack = .resumed r ok :: rest) :
    (s.l2meta r).dependentRequests = [] := by
  have hphase : phase r = .called (.resumed r ok) := h.top hstack
  exact (h.fits r).quiet (h.not_mem_of_resumed hstack) (by rw [hphase]; rfl)

theorem Placed.not_awaited_of_resumed (h : Placed g encrypted s phase) (hstack : s.stack = .resumed r ok :: rest)
    (x : Nat) :
    phase x ≠ .waiting r := by
  intro hx
  have hmem := (h.dependent r x).mpr hx
  rw [h.dependents_of_resumed hstack] at hmem
  cases hmem

theorem submit_moves {s' : State} {req : Request} {submitted : Bool} (h : Placed g encrypted s phase)
    (hstack : s.stack = .resumed r ok :: rest) (hrequests : s'.requests = Function.update s.requests r req)
    (hallocs : s'.clusterAllocs = if req.l2meta.nbClusters = 0 then s.clusterAllocs else r :: s.clusterAllocs)
    (hnext : s'.next = s.next) (haccounted : Accounted g fixed s'.image (placesOf s'.l2meta s'.clusterAllocs))
    (hhd : req.hdAiocb = false) (hlive : req.live = true) (hdeps : req.l2meta.dependentRequests = [])
    (hmodest : Modest g (requestEnd g encrypted req) ∧ req.curNrSectors ≤ req.remainingSectors) :
    Moves g encrypted fixed s phase (submit s' r rest submitted) := by
  have hphase : phase r = .called (.resumed r ok) := h.top hstack
  have hout := h.not_mem_of_resumed hstack
  have hnone := h.dependents_of_resumed hstack
  have hmeta : s'.l2meta r = req.l2meta := by simp [State.l2meta, hrequests]
  have hstatus : statusOf s'.clusterAllocs phase = statusOf s.clusterAllocs phase := by
    rw [hallocs]
    split_ifs
    · rfl
    · exact statusOf_cons (h.not_awaited_of_resumed hstack)
  have hborn : ∀ x, s'.next ≤ x → x ≠ r ∧ s.next ≤ x :=
    fun x hx ↦ h.unborn_of_called hphase x (hnext ▸ hx)
  have hdone : Fits g encrypted req (.called (.done r)) (r ∈ s.clusterAllocs) :=
    fits_called hhd hlive hmodest (iff_of_false hout (by simp [Phase.holds])) fun _ _ ↦ hdeps
  unfold submit
  split_ifs with hsubmitted hnb
  · refine ⟨Function.update phase r .writing, ⟨?_, ?_⟩, ?_⟩
    · change Accounted g fixed s'.image (placesOf (s'.setRequest r _).l2meta s'.clusterAllocs)
      rw [placesOf_setRequest]
      · exact haccounted
      · exact fun _ ↦ rfl
    · refine h.update { req with hdAiocb := true } (by simp [State.setRequest, hrequests]) (by rw [hnone]; exact hdeps)
        (by simp [hphase]) (by simp) ⟨by simp, by simp [hlive], fun _ ↦ hmodest, ?_, fun _ _ ↦ hdeps, by simp⟩ ?_ ?_
        ((h.stacked_of hstack).pop (by simp)) fun x hx ↦ .inl (hborn x hx)
      · change r ∈ s'.clusterAllocs ↔ _
        rw [hallocs]
        split_ifs with hnb <;> simp [hnb, hout, Phase.holds]
      · intro x hx
        change x ∈ s'.clusterAllocs ↔ _
        rw [hallocs]
        split_ifs <;> simp [hx]
      · change s'.clusterAllocs.Nodup
        rw [hallocs]
        split_ifs
        · exact h.allocs
        · exact List.nodup_cons.mpr ⟨hout, h.allocs⟩
    · change some _ = some (statusOf s'.clusterAllocs _)
      rw [statusOf_update (by simp [hphase]) (by simp), hstatus]
  · rw [hmeta] at hnb
    rw [if_pos hnb] at hallocs
    refine ⟨Function.update phase r (.called (.done r)), ⟨haccounted, ?_⟩, ?_⟩
    · exact h.update req hrequests (hdeps.trans hnone.symm) (by simp [hphase]) (by simp) (hallocs ▸ hdone)
        (fun _ _ ↦ by rw [hallocs]) (hallocs ▸ h.allocs) ((h.stacked_of hstack).replace rfl) fun x hx ↦
          .inl (hborn x hx)
    · rw [statusOf_update (by simp [hphase]) (by simp), hstatus]
      rfl
  · rw [hmeta] at hnb
    rw [if_neg hnb] at hallocs
    have herase : s'.clusterAllocs.erase r = s.clusterAllocs := by rw [hallocs, List.erase_cons_head]
    have hin : r ∈ s'.clusterAllocs := hallocs ▸ List.mem_cons_self
    have hnodup : s'.clusterAllocs.Nodup := hallocs ▸ List.nodup_cons.mpr ⟨hout, h.allocs⟩
    refine ⟨Function.update phase r (.called (.done r)), ⟨(haccounted.perm (placesOf_perm hin)).drop, ?_⟩, ?_⟩
    · exact h.update req hrequests (hdeps.trans hnone.symm) (by simp [hphase]) (by simp) (herase ▸ hdone)
        (fun _ _ ↦ by rw [herase]) (herase ▸ h.allocs) ((h.stacked_of hstack).replace rfl) fun x hx ↦ .inl (hborn x hx)
    · rw [statusOf_update (by simp [hphase]) (by simp), ← hstatus]
      simp only [follow, observe_leaves hnodup hin, Option.bind_some]

theorem requestEnd_mono {req req' : Request}
    (h : req'.sectorNum % g.clusterSectors + req'.remainingSectors ≤
      req.sectorNum % g.clusterSectors + req.remainingSectors) :
    requestEnd g encrypted req' ≤ requestEnd g encrypted req := by
  unfold requestEnd
  cases encrypted
  · exact h
  · exact min_le_min_right _ h

theorem requestEnd_le (encrypted : Bool) (req : Request) :
    requestEnd g encrypted req ≤ req.sectorNum % g.clusterSectors + req.remainingSectors := by
  unfold requestEnd
  cases encrypted
  · exact le_rfl
  · exact min_le_left _ _

theorem requestEnd_advance {req : Request} (h : req.curNrSectors ≤ req.remainingSectors) :
    requestEnd g encrypted (advance req) ≤ requestEnd g encrypted req := by
  refine requestEnd_mono ?_
  have hmod := Nat.mod_le (req.sectorNum % g.clusterSectors + req.curNrSectors) g.clusterSectors
  rw [Nat.mod_add_mod] at hmod
  unfold advance
  dsimp only
  omega

/-- A request that waits has nothing allocated and is on the list of another one, which is on the list of allocations. -/
theorem wait_placed {req : Request} {m : Nat} (h : Placed g encrypted s phase)
    (hstack : s.stack = .resumed r ok :: rest)
    (hm : m ∈ s.clusterAllocs) (hhd : req.hdAiocb = false) (hlive : req.live = true)
    (hdeps : req.l2meta.dependentRequests = []) (hmodest : Modest g (requestEnd g encrypted req)) :
    Placed g encrypted (wait s r m req rest).1 (Function.update phase r (.waiting m)) := by
  have hphase : phase r = .called (.resumed r ok) := h.top hstack
  have hout := h.not_mem_of_resumed hstack
  have hmr : m ≠ r := by
    rintro rfl
    exact hout hm
  have hnotin : r ∉ (s.l2meta m).dependentRequests := by
    rw [h.dependent, hphase]
    simp
  have hnone := h.dependents_of_resumed hstack
  have hlists : ∀ x, ((wait s r m req rest).1.l2meta x).dependentRequests =
      if x = m then r :: (s.l2meta m).dependentRequests else (s.l2meta x).dependentRequests := by
    intro x
    by_cases hxm : x = m
    · subst hxm
      simp [wait, State.l2meta, State.setRequest, hmr]
    · by_cases hxr : x = r
      · subst hxr
        simpa [wait, State.l2meta, State.setRequest, hxm, hdeps] using hnone.symm
      · simp [wait, State.l2meta, State.setRequest, hxm, hxr]
  refine ⟨fun x ↦ ?_, fun k x ↦ ?_, fun k ↦ ?_, h.allocs, (h.stacked_of hstack).pop (by simp), fun x hx ↦ ?_⟩
  · have hfits := h.fits x
    by_cases hxr : x = r
    · subst hxr
      simp only [wait, State.setRequest, Function.update_of_ne hmr.symm, Function.update_self]
      exact ⟨by simp [hhd], by simp [hlive], fun _ ↦ ⟨hmodest, Nat.zero_le _⟩,
        iff_of_false hout (by simp [Phase.holds]), fun _ _ ↦ hdeps, by simp⟩
    · rw [Function.update_of_ne hxr]
      by_cases hxm : x = m
      · subst hxm
        simp only [wait, State.setRequest, Function.update_self, Function.update_of_ne hxr]
        refine ⟨hfits.hdAiocb, hfits.live, hfits.modest, ?_, fun hno ↦ absurd hm hno, ?_⟩
        · simpa [State.l2meta, hxr] using hfits.listed
        · simpa [State.l2meta, hxr] using hfits.waiting
      · simp only [wait, State.setRequest, Function.update_of_ne hxm, Function.update_of_ne hxr]
        exact hfits
  · have hmem := h.dependent k x
    rw [hlists]
    by_cases hxr : x = r
    · subst hxr
      rw [hphase] at hmem
      rw [Function.update_self, Phase.waiting.injEq]
      split_ifs with hk
      · simp [hk]
      · exact iff_of_false (by simp [hmem]) (Ne.symm hk)
    · rw [Function.update_of_ne hxr, ← hmem]
      split_ifs with hk
      · simp [hk, hxr]
      · exact Iff.rfl
  · rw [hlists]
    split_ifs
    · exact List.nodup_cons.mpr ⟨hnotin, h.nodup m⟩
    · exact h.nodup k
  · rw [Function.update_of_ne (h.unborn_of_called hphase x hx).1]
    exact h.unborn x hx

theorem wait_moves {req : Request} {m : Nat} (h : Inv g encrypted fixed s phase)
    (hstack : s.stack = .resumed r ok :: rest)
    (hm : m ∈ s.clusterAllocs) (hhd : req.hdAiocb = false) (hlive : req.live = true)
    (hdeps : req.l2meta.dependentRequests = []) (hmodest : Modest g (requestEnd g encrypted req)) :
    Moves g encrypted fixed s phase (wait s r m req rest) := by
  have hphase : phase r = .called (.resumed r ok) := h.placed.top hstack
  have hout := h.placed.not_mem_of_resumed hstack
  refine ⟨_, ⟨?_, wait_placed h.placed hstack hm hhd hlive hdeps hmodest⟩, ?_⟩
  · unfold wait
    change Accounted g fixed s.image (placesOf ((s.setRequest r _).setRequest m _).l2meta s.clusterAllocs)
    rw [placesOf_setRequest, placesOf_setRequest]
    · exact h.accounted
    · exact fun hr ↦ absurd hr hout
    · exact fun _ ↦ rfl
  · have hobserve : observe (statusOf s.clusterAllocs phase) (.waits r m) =
        some (statusOf s.clusterAllocs (Function.update phase r (.waiting m))) := observe_waits (by simp [hphase]) hm
    simp only [wait, follow, hobserve, Option.bind_some]
    rfl

theorem located_modest {req : Request} {n clusterOffset : Nat} {m : L2Meta}
    (hend : Modest g (requestEnd g encrypted req)) :
    Modest g (requestEnd g encrypted
      (located g req (req.sectorNum % g.clusterSectors) (requestEnd g encrypted req) clusterOffset n m)) ∧
      min (n * g.clusterSectors) (requestEnd g encrypted req) -
        req.sectorNum % g.clusterSectors ≤ req.remainingSectors := by
  have hle := requestEnd_le (g := g) encrypted req
  exact ⟨hend, by omega⟩

theorem Accounted.cons {img : Image} {p : Place} {ps : List Place}
    (hbooks : Sound g fixed (addOwn (owned g ps) (p.hostClusters g)) [] img) (hp : p.Linkable g)
    (happart : ∀ q ∈ ps, p.Apart g q) (hps : ps.Pairwise (Place.Apart g))
    (hlink : ∀ q ∈ ps, q.Linkable g) : Accounted g fixed img (p :: ps) :=
  ⟨owned_cons (g := g) p ps ▸ hbooks, List.pairwise_cons.mpr ⟨happart, hps⟩, List.forall_mem_cons.mpr ⟨hp, hlink⟩⟩

theorem allocated_moves {img : Image} {submitted : Bool} {a : Allocation} {out : State × List Label}
    (h : Inv g encrypted fixed s phase) (hstack : s.stack = .resumed r ok :: rest)
    (ha : Allocated g fixed (owned g (placesOf s.l2meta s.clusterAllocs)) s.l2meta s.clusterAllocs
      ((advance (s.requests r)).sectorNum * 512) img a)
    (hstep : allocated g encrypted { s with image := img } r (advance (s.requests r)) rest true submitted a = .ok out) :
    Moves g encrypted fixed s phase out := by
  have hphase : phase r = .called (.resumed r ok) := h.placed.top hstack
  have hfits := h.placed.fits r
  rw [hphase] at hfits
  have hend : Modest g (requestEnd g encrypted (advance (s.requests r))) :=
    hfits.modest_called.1.mono (requestEnd_advance hfits.modest_called.2)
  have hdeps := h.placed.dependents_of_resumed hstack
  have hout := h.placed.not_mem_of_resumed hstack
  cases a with
  | existing clusterOffset n =>
    simp only [allocated] at hstep
    split_ifs at hstep
    cases hstep
    refine submit_moves h.placed hstack rfl (if_pos rfl).symm rfl ?_ hfits.hdAiocb_called hfits.live_called hdeps
      (located_modest hend)
    change Accounted g fixed img (placesOf (s.setRequest r _).l2meta s.clusterAllocs)
    rw [placesOf_setRequest fun hr ↦ absurd hr hout]
    exact ⟨ha, h.accounted.apart, h.accounted.linkable⟩
  | waitFor m =>
    cases hstep
    have hinv : Inv g encrypted fixed { s with image := img } phase :=
      ⟨⟨ha.1, h.accounted.apart, h.accounted.linkable⟩, h.placed.withImage⟩
    exact wait_moves hinv hstack ha.2 hfits.hdAiocb_called hfits.live_called hdeps hend
  | fresh clusterOffset n =>
    simp only [allocated, if_true] at hstep
    cases hstep
    obtain ⟨hbooks, hlink, hclear⟩ := ha
    refine submit_moves h.placed hstack rfl (if_neg hlink.ne_zero).symm rfl ?_ hfits.hdAiocb_called
      hfits.live_called hdeps (located_modest hend)
    change Accounted g fixed img
      (place ((s.setRequest r _).l2meta r) :: placesOf (s.setRequest r _).l2meta s.clusterAllocs)
    rw [placesOf_setRequest fun hr ↦ absurd hr hout, setRequest_l2meta, if_pos rfl]
    refine Accounted.cons hbooks hlink ?_ h.accounted.apart h.accounted.linkable
    intro q hq
    obtain ⟨m, hm, rfl⟩ := List.mem_map.mp hq
    exact hclear m hm

theorem resume_moves {answers : List Answer} {submitted : Bool} {out : State × List Label}
    (h : Inv g encrypted fixed s phase) (hstack : s.stack = .resumed r ok :: rest)
    (hstep : resume g encrypted s r ok rest answers true submitted = .ok out) :
    Moves g encrypted fixed s phase out := by
  have hphase : phase r = .called (.resumed r ok) := h.placed.top hstack
  have hfits := h.placed.fits r
  rw [hphase] at hfits
  have hout := h.placed.not_mem_of_resumed hstack
  have hdone : Fits g encrypted (s.requests r) (.called (.done r)) (r ∈ s.clusterAllocs) :=
    fits_called hfits.hdAiocb_called hfits.live_called hfits.modest_called (iff_of_false hout (by simp [Phase.holds]))
      fun _ _ ↦ h.placed.dependents_of_resumed hstack
  have hend : Modest g (requestEnd g encrypted (advance (s.requests r))) :=
    hfits.modest_called.1.mono (requestEnd_advance hfits.modest_called.2)
  have hsmall : ∀ m ∈ s.clusterAllocs, (s.l2meta m).nbClusters * g.clusterSize < 2 ^ 31 :=
    fun m hm ↦ (h.linkable hm).small
  have hspec : Spec (Sound g fixed (owned g (placesOf s.l2meta s.clusterAllocs)) [])
      (allocClusterOffset g s.l2meta s.clusterAllocs ((advance (s.requests r)).sectorNum * 512)
        (requestEnd g encrypted (advance (s.requests r))))
      (fun a img ↦ Allocated g fixed (owned g (placesOf s.l2meta s.clusterAllocs)) s.l2meta s.clusterAllocs
        ((advance (s.requests r)).sectorNum * 512) img a)
      (Sound g fixed (owned g (placesOf s.l2meta s.clusterAllocs)) []) := spec_allocClusterOffset hend hsmall
  unfold resume at hstep
  dsimp only at hstep
  split_ifs at hstep
  · cases hstep
    exact h.goesOn hstack rfl hdone
  · cases hx : allocClusterOffset g s.l2meta s.clusterAllocs ((advance (s.requests r)).sectorNum * 512)
      (requestEnd g encrypted (advance (s.requests r))) ⟨s.image, answers⟩ with
    | ok a w =>
      rw [hx] at hstep
      exact allocated_moves h hstack (hspec.ok h.accounted.books hx) hstep
    | error e w =>
      rw [hx] at hstep
      cases e with
      | abort => cases hstep
      | failed =>
        cases hstep
        have hbooks := hspec.failed h.accounted.books hx
        have hinv : Inv g encrypted fixed { s with image := w.image } phase :=
          ⟨⟨hbooks, h.accounted.apart, h.accounted.linkable⟩, h.placed.withImage⟩
        exact hinv.goesOn hstack rfl hdone

theorem done_moves (h : Inv g encrypted fixed s phase) (hstack : s.stack = .done r :: rest) :
    Moves g encrypted fixed s phase
      ({ s.setRequest r { s.requests r with live := false } with stack := rest }, []) := by
  have hphase : phase r = .called (.done r) := h.placed.top hstack
  have hfits := h.placed.fits r
  rw [hphase] at hfits
  have hout : r ∉ s.clusterAllocs := by simp [hfits.listed, Phase.holds]
  refine ⟨Function.update phase r .dead, ⟨?_, ?_⟩, ?_⟩
  · change Accounted g fixed s.image (placesOf (s.setRequest r _).l2meta s.clusterAllocs)
    rw [placesOf_setRequest fun hr ↦ absurd hr hout]
    exact h.accounted
  · refine h.placed.update { s.requests r with live := false } rfl rfl (by simp [hphase]) (by simp)
      ⟨by simp [hfits.hdAiocb_called], by simp, by simp, iff_of_false hout (by simp [Phase.holds]), ?_, by simp⟩
      (fun _ _ ↦ Iff.rfl) h.placed.allocs ((h.placed.stacked_of hstack).pop (by simp))
      fun x hx ↦ .inl (h.placed.unborn_of_called hphase x hx)
    exact fun hno _ ↦ hfits.quiet hno rfl
  · change some _ = some (statusOf s.clusterAllocs _)
    rw [statusOf_update (by simp [hphase]) (by simp)]

theorem write_moves {sectorNum nbSectors : Nat} (h : Inv g encrypted fixed s phase)
    (hend : Modest g (requestEnd g encrypted { sectorNum := sectorNum, remainingSectors := nbSectors })) :
    Moves g encrypted fixed s phase
      ({ s.setRequest s.next { live := true, sectorNum := sectorNum, remainingSectors := nbSectors } with
        stack := .entered s.next true :: s.stack
        next := s.next + 1 }, []) := by
  have hphase : phase s.next = .dead := h.placed.unborn s.next le_rfl
  have hfits := h.placed.fits s.next
  rw [hphase] at hfits
  have hout : s.next ∉ s.clusterAllocs := by simp [hfits.listed, Phase.holds]
  have hdeps : (s.l2meta s.next).dependentRequests = [] := hfits.quiet hout rfl
  refine ⟨Function.update phase s.next (.called (.entered s.next true)), ⟨?_, ?_⟩, ?_⟩
  · change Accounted g fixed s.image (placesOf (s.setRequest s.next _).l2meta s.clusterAllocs)
    rw [placesOf_setRequest fun hr ↦ absurd hr hout]
    exact h.accounted
  · refine h.placed.update { live := true, sectorNum := sectorNum, remainingSectors := nbSectors } rfl hdeps.symm
      (by simp [hphase]) (by simp) ?_ (fun _ _ ↦ Iff.rfl) h.placed.allocs (h.placed.stacked.push ?_) fun x hx ↦ .inl ?_
    · exact fits_called rfl rfl ⟨hend, Nat.zero_le _⟩ (iff_of_false hout (by simp)) fun _ _ ↦ rfl
    · simp [Frame.request, hphase]
    · change s.next + 1 ≤ x at hx
      omega
  · change some _ = some (statusOf s.clusterAllocs _)
    rw [statusOf_update (by simp [hphase]) (by simp)]

theorem complete_moves (h : Inv g encrypted fixed s phase) (hstack : s.stack = [])
    (hhd : (s.requests r).hdAiocb = true) :
    Moves g encrypted fixed s phase
      ({ s.setRequest r { s.requests r with hdAiocb := false } with stack := [.entered r ok] }, []) := by
  have hfits := h.placed.fits r
  have hphase : phase r = .writing := hfits.hdAiocb.mp hhd
  rw [hphase] at hfits
  refine ⟨Function.update phase r (.called (.entered r ok)), ⟨?_, ?_⟩, ?_⟩
  · change Accounted g fixed s.image (placesOf (s.setRequest r _).l2meta s.clusterAllocs)
    rw [placesOf_setRequest]
    · exact h.accounted
    · exact fun _ ↦ rfl
  · refine h.placed.update { s.requests r with hdAiocb := false } rfl rfl (by simp [hphase]) (by simp) ?_
      (fun _ _ ↦ Iff.rfl) h.placed.allocs ?_ fun x hx ↦ .inl ⟨?_, hx⟩
    · exact fits_called rfl (hfits.live.mpr (by simp)) (hfits.modest (by simp)) hfits.listed hfits.quiet
    · have hpush := h.placed.stacked.push (f := .entered r ok) (by simp [Frame.request, hphase])
      rwa [hstack] at hpush
    · rintro rfl
      have hdead := h.placed.unborn x hx
      rw [hphase] at hdead
      cases hdead
  · change some _ = some (statusOf s.clusterAllocs _)
    rw [statusOf_update (by simp [hphase]) (by simp)]

/-- The inputs on which the driver keeps its requests apart: the clusters of a write have less than 2 GiB, and
`qcow2_cache_put` does not fail after an allocation. -/
def Admissible (g : Geometry) (encrypted : Bool) : Input → Prop
  | .write sectorNum nbSectors =>
    Modest g (requestEnd g encrypted { sectorNum := sectorNum, remainingSectors := nbSectors })
  | .complete _ _ => True
  | .run _ put _ => put = true

instance (a : Input) : Decidable (Admissible g encrypted a) := by
  cases a <;> unfold Admissible <;> infer_instance

theorem step_moves {a : Input} {out : State × List Label} (h : Inv g encrypted fixed s phase)
    (ha : Admissible g encrypted a) (hstep : step g encrypted s a = .ok out) : Moves g encrypted fixed s phase out := by
  cases a with
  | write sectorNum nbSectors =>
    unfold step at hstep
    split_ifs at hstep
    cases hstep
    exact write_moves h ha
  | complete r ok =>
    by_cases hc : s.stack = [] ∧ (s.requests r).hdAiocb = true
    · rw [step, if_pos hc] at hstep
      cases hstep
      exact complete_moves h hc.1 hc.2
    · rw [step, if_neg hc] at hstep
      cases hstep
  | run answers put submitted =>
    cases ha
    unfold step at hstep
    cases hstack : s.stack with
    | nil =>
      rw [hstack] at hstep
      cases hstep
    | cons f rest =>
      rw [hstack] at hstep
      cases f with
      | entered r ok => exact enter_moves h hstack hstep
      | restarting r ok =>
        cases hstep
        exact restart_moves h hstack
      | resumed r ok => exact resume_moves h hstack hstep
      | done r =>
        cases hstep
        exact done_moves h hstack

end Steps

section Runs

variable (g : Geometry) (encrypted : Bool) (fixed : Nat → Nat)

/-- The requests on the list are apart in the guest, and each has clusters of the host to itself. -/
structure Exclusive (s : State) : Prop where
  disjoint : s.clusterAllocs.Pairwise fun r r' ↦
    ((place (s.l2meta r)).guestClusters g).Disjoint ((place (s.l2meta r')).guestClusters g)
  live : ∀ r ∈ s.clusterAllocs, (s.requests r).live = true ∧ (s.l2meta r).nbClusters ≠ 0
  aligned : ∀ r ∈ s.clusterAllocs, (s.l2meta r).clusterOffset % g.clusterSize = 0
  fresh : ∀ r ∈ s.clusterAllocs, ∀ c ∈ (place (s.l2meta r)).hostClusters g,
    s.image.refcount c = 1 ∧ s.image.tablesAnd g fixed c + s.image.refcountClusters.count c = 0
  owner : ∀ r ∈ s.clusterAllocs, ∀ r' ∈ s.clusterAllocs, ∀ c ∈ (place (s.l2meta r)).hostClusters g,
    c ∈ (place (s.l2meta r')).hostClusters g → r' = r

/-- What the labels say of the requests is true of them, and no request is forgotten. -/
structure Restarted (s : State) (status : Nat → Status) : Prop where
  waiting : ∀ r m, status r = .waiting m →
    m ∈ s.clusterAllocs ∧ (s.l2meta r).nbClusters = 0 ∧ (s.l2meta r).dependsOn = some m
  due : s.stack = [] → ∀ r, status r ≠ .due
  live : ∀ r, (s.requests r).live = true →
    (s.requests r).hdAiocb = true ∨ (∃ f ∈ s.stack, f.request = r) ∨ status r ≠ .running

/-- The requests of a run that has come this far are exclusive, and those that waited were restarted once each. -/
def Safe (img : Image) (inputs : List Input) : Prop :=
  ∀ s labels, Machine.exec (step g encrypted) { image := img } inputs = .ok (s, labels) →
    Exclusive g fixed s ∧ ∃ status, follow (fun _ ↦ .running) labels.flatten = some status ∧ Restarted s status

variable {g encrypted fixed} {s : State} {phase : Nat → Phase}

theorem Inv.owner (h : Inv g encrypted fixed s phase) {r r' c : Nat} (hr : r ∈ s.clusterAllocs)
    (hr' : r' ∈ s.clusterAllocs)
    (hc : c ∈ (place (s.l2meta r)).hostClusters g) (hc' : c ∈ (place (s.l2meta r')).hostClusters g) : r' = r := by
  by_contra hne
  have hone := (h.accounted.refcount_eq (List.mem_map_of_mem hr) hc).2.2
  have hrest : 0 < owned g (placesOf s.l2meta (s.clusterAllocs.erase r)) c := by
    refine List.count_pos_iff.mpr (List.mem_flatMap.mpr ⟨_, List.mem_map_of_mem ?_, hc'⟩)
    exact (List.mem_erase_of_ne hne).mpr hr'
  have hfirst := List.count_pos_iff.mpr hc
  rw [owned_perm (placesOf_perm hr), owned_cons] at hone
  unfold addOwn at hone
  omega

theorem Inv.exclusive (h : Inv g encrypted fixed s phase) : Exclusive g fixed s where
  disjoint := (List.pairwise_map.mp h.accounted.apart).imp fun happart ↦ happart.disjoint
  live := by
    intro r hr
    have hfits := h.placed.fits r
    obtain ⟨hholds, hnb⟩ := hfits.listed.mp hr
    refine ⟨hfits.live.mpr ?_, hnb⟩
    intro hdead
    rw [hdead] at hholds
    cases hholds
  aligned := by
    intro r hr
    rw [show (s.l2meta r).clusterOffset = _ from (h.linkable hr).aligned]
    exact Nat.mul_mod_left _ _
  fresh := by
    intro r hr c hc
    obtain ⟨hcount, hrefs, -⟩ := h.accounted.refcount_eq (List.mem_map_of_mem hr) hc
    exact ⟨hcount, hrefs⟩
  owner := fun r hr r' hr' c hc hc' ↦ h.owner hr hr' hc hc'

theorem statusOf_eq_running_iff {allocs : List Nat} {r : Nat} :
    statusOf allocs phase r = .running ↔ ∀ m, phase r ≠ .waiting m := by
  refine ⟨fun h m hm ↦ ?_, statusOf_running⟩
  rw [statusOf_waiting hm] at h
  split_ifs at h

theorem phase_of_status {allocs : List Nat} {r : Nat} (h : statusOf allocs phase r ≠ .running) :
    ∃ m, phase r = .waiting m ∧ statusOf allocs phase r = if m ∈ allocs then .waiting m else .due := by
  simp only [ne_eq, statusOf_eq_running_iff, not_forall, not_not] at h
  obtain ⟨m, hm⟩ := h
  exact ⟨m, hm, statusOf_waiting hm⟩

theorem Inv.restarted (h : Inv g encrypted fixed s phase) : Restarted s (statusOf s.clusterAllocs phase) where
  waiting := by
    intro r m hstatus
    obtain ⟨k, hphase, hk⟩ := phase_of_status (r := r) (by rw [hstatus]; simp)
    rw [hstatus] at hk
    split_ifs at hk with hin
    cases hk
    exact ⟨hin, (h.placed.fits r).waiting m hphase⟩
  due := by
    intro hstack r hdue
    obtain ⟨m, hphase, hm⟩ := phase_of_status (r := r) (by rw [hdue]; simp)
    rw [hdue] at hm
    split_ifs at hm with hin
    have hmem := (h.placed.dependent m r).mpr hphase
    -- only a request that is being restarted keeps others waiting when it is off the list
    have hrestarting : (phase m).restarting = true := by
      by_contra hno
      rw [show (s.l2meta m).dependentRequests = [] from (h.placed.fits m).quiet hin (by simpa using hno)] at hmem
      cases hmem
    cases hp : phase m with
    | called f =>
      have hframe := ((h.placed.stacked.called_iff m f).mp hp).1
      rw [hstack] at hframe
      cases hframe
    | _ => simp [hp, Phase.restarting] at hrestarting
  live := by
    intro r hlive
    have hfits := h.placed.fits r
    cases hphase : phase r with
    | dead => exact absurd hphase (hfits.live.mp hlive)
    | called f => exact .inr (.inl ⟨f, (h.placed.stacked.called_iff r f).mp hphase⟩)
    | writing => exact .inl (hfits.hdAiocb.mpr hphase)
    | waiting m =>
      refine .inr (.inr ?_)
      rw [statusOf_waiting hphase]
      split_ifs <;> simp

theorem inv_initial {img : Image} (h : Sound g fixed (fun _ ↦ 0) [] img) :
    Inv g encrypted fixed { image := img } fun _ ↦ .dead where
  accounted := ⟨h, .nil, by simp [placesOf]⟩
  placed :=
    { fits := fun r ↦ ⟨by simp, by simp, by simp, by simp [Phase.holds], fun _ _ ↦ rfl, by simp⟩
      dependent := by simp [State.l2meta]
      nodup := by simp [State.l2meta]
      allocs := .nil
      stacked := ⟨by simp, .nil⟩
      unborn := fun _ _ ↦ rfl }

/-- What one step does to the statuses, whole runs do. -/
theorem exec_inv {inputs : List Input} {t : State} {labels : List (List Label)} (h : Inv g encrypted fixed s phase)
    (hinputs : ∀ a ∈ inputs, Admissible g encrypted a)
    (hrun : Machine.exec (step g encrypted) s inputs = .ok (t, labels)) :
    ∃ phase', Inv g encrypted fixed t phase' ∧
      follow (statusOf s.clusterAllocs phase) labels.flatten = some (statusOf t.clusterAllocs phase') := by
  induction inputs generalizing s phase labels with
  | nil =>
    cases hrun
    exact ⟨phase, h, rfl⟩
  | cons a inputs ih =>
    obtain ⟨u, ls, labels', hstep, hrest, rfl⟩ := Machine.exec_cons_ok hrun
    obtain ⟨phase₁, h₁, hfollow⟩ := step_moves h (hinputs a List.mem_cons_self) hstep
    obtain ⟨phase₂, h₂, hfollow'⟩ := ih h₁ (fun b hb ↦ hinputs b (List.mem_cons_of_mem _ hb)) hrest
    refine ⟨phase₂, h₂, ?_⟩
    rw [List.flatten_cons, follow_append, hfollow, Option.bind_some]
    exact hfollow'

theorem in_flight_safe {img : Image} (h : Sound g fixed (fun _ ↦ 0) [] img) {inputs : List Input}
    (hinputs : ∀ a ∈ inputs, Admissible g encrypted a) : Safe g encrypted fixed img inputs := by
  intro s labels hrun
  obtain ⟨phase, hinv, hfollow⟩ := exec_inv (inv_initial h) hinputs hrun
  exact ⟨hinv.exclusive, _, hfollow, hinv.restarted⟩

end Runs

section Examples

def smallGeometry : Geometry := .smallest

/-- An image without data: a header, an L1 table, a refcount table and a refcount block. -/
def emptyImage : Image where
  l1Table := [0#64]
  l1TableOffset := 512
  l2Table := fun _ _ ↦ 0#64
  refcount := fun c ↦ if c < 4 then 1 else 0
  freeClusterIndex := 4
  refcountClusters := [2, 3]

def headerRefs (c : Nat) : Nat := if c = 0 then 1 else 0

theorem emptyImage_sound : Sound smallGeometry headerRefs (fun _ ↦ 0) [] emptyImage := by
  have htree : ∀ c, emptyImage.treeRefs smallGeometry c = 0 := fun c ↦ by
    simp [Image.treeRefs, emptyImage, treeRefs]
  have hl1 : emptyImage.l1Clusters smallGeometry = [1] := by decide
  refine ⟨fun c ↦ ?_, by simp, ?_⟩
  · rw [htree, hl1]
    simp only [headerRefs, emptyImage, List.count_cons, List.count_nil, beq_iff_eq]
    split_ifs <;> omega
  · rintro c ⟨e, he, hcopied, -⟩
    cases List.mem_singleton.mp he
    exact absurd rfl (ne_zero_of_copied hcopied)

def answered : List Answer := List.replicate 12 {}

def goOn : Input := .run answered true true

/-- A write to the cluster that another one has allocated waits for it. -/
def overlappingWrites : List Input :=
  [.write 0 1, goOn, goOn, goOn, .write 0 2, goOn, goOn, goOn, .complete 0 true, goOn, goOn]

theorem in_flight_safe_overlapping :
    (∃ s labels, Machine.exec (step smallGeometry false) { image := emptyImage } overlappingWrites = .ok (s, labels) ∧
      s.stack = [.entered 1 true, .restarting 0 true]) ∧
    Safe smallGeometry false headerRefs emptyImage overlappingWrites :=
  ⟨Machine.exists_exec_of_check (by decide +kernel), in_flight_safe emptyImage_sound (by decide)⟩

/-- The L2 table of the first request stays dirty when it cannot be written, so that the second request fails after its
allocation. -/
def failingWrites : List Input :=
  [.write 0 1, goOn, goOn, goOn, .complete 0 true, .run [{}, { ok := false }] true true, goOn, goOn, goOn,
    .write 1 1, goOn, goOn, .run answered false true, goOn]

theorem in_flight_safe_fails :
    Sound smallGeometry headerRefs (fun _ ↦ 0) [] emptyImage ∧
      ¬ Safe smallGeometry false headerRefs emptyImage failingWrites := by
  refine ⟨emptyImage_sound, fun h ↦ ?_⟩
  obtain ⟨s, labels, hrun, hallocs, hlive⟩ : ∃ s labels,
      Machine.exec (step smallGeometry false) { image := emptyImage } failingWrites = .ok (s, labels) ∧
        s.clusterAllocs = [1] ∧ (s.requests 1).live = false :=
    Machine.exists_exec_of_check (by decide +kernel)
  have hlisted := (h s labels hrun).1.live 1 (by simp [hallocs])
  rw [hlive] at hlisted
  exact absurd hlisted.1 (by decide)

end Examples

end IDeviceEmulator.Qcow2.Writes
