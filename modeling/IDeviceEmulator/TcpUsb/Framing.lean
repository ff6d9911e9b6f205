import IDeviceEmulator.Library.Descent
import IDeviceEmulator.TcpUsb.Link

namespace IDeviceEmulator.TcpUsb

structure Delivery where
  header : Header
  payload : List Byte
deriving DecidableEq

def Message.delivery {carries : Header → Bool} (m : Message carries) : Delivery := ⟨m.header, m.payload⟩

def recording {γ : Type} (carries : Header → Bool) (callback : Callback γ) : Callback (γ × List Delivery) :=
  fun app header buffer ↦
    let reply := callback app.1 header buffer
    { reply with app := (reply.app, app.2 ++ [⟨header, buffer.take (payloadSize carries header)⟩]) }

def Device.recorded {β : Type} (d : Device β) : Device (β × List Delivery) where
  handle := recording isOut d.handle
  fits app header buffer := d.fits app.1 header buffer

inductive Event
  | request (calls : List Outcome)
  | callback (side : Side) (ready : Ready) (calls : List Outcome)

def Event.calls : Event → List Outcome
  | request calls => calls
  | callback _ _ calls => calls

structure Session (α β : Type) where
  link : Link (α × List Delivery) (β × List Delivery)
  pending : List Request

namespace Session

variable {α β : Type} (hostCallback : Callback α) (d : Device β)

/-- A request that is refused as busy is tried again later. -/
def step (s : Session α β) : Event → Session α β
  | .request calls =>
    match s.pending with
    | [] => s
    | q :: rest =>
      let (ret, link) := s.link.hostRequest (recording isIn hostCallback) q.header q.data calls
      if ret < 0 then { s with link } else ⟨link, rest⟩
  | .callback .host ready calls =>
    { s with link := s.link.hostCallback (recording isIn hostCallback) ready calls }
  | .callback .device ready calls =>
    { s with link := s.link.deviceCallback d.recorded.handle ready calls }

def run (start : Session α β) (schedule : Nat → Event) : Nat → Session α β
  | 0 => start
  | n + 1 => step hostCallback d (run start schedule n) (schedule n)

def start (a : α) (b : β) (requests : List Request) : Session α β :=
  ⟨{ hostApp := (a, []), deviceApp := (b, []) }, requests⟩

def deviceLog (s : Session α β) : List Delivery := s.link.deviceApp.2

def hostLog (s : Session α β) : List Delivery := s.link.hostApp.2

def CanMove (s : Session α β) : Side → Prop
  | .host => s.link.host.state = .writeRequest ∨ s.link.down ≠ []
  | .device => s.link.device.state = .writeResponse ∨ s.link.up ≠ []

def Moves (s s' : Session α β) (side : Side) (event : Event) : Prop :=
  (∃ ready calls, event = .callback side ready calls) ∧ Moved s.link s'.link

end Session

section Expected

variable {β : Type}

def sent (requests : List Request) : List Delivery := requests.map fun q ↦ q.message.delivery

def produced (d : Device β) : β → List Request → List Delivery
  | _, [] => []
  | b, q :: rest => (d.response b q).delivery :: produced d (d.reply b q).app rest

end Expected

variable {α β : Type} (hostCallback : Callback α) (d : Device β)

/-- An endpoint that can move bytes does so at some point, and the host tries to start the
requests it still has. -/
structure Fair (run : Nat → Session α β) (schedule : Nat → Event) : Prop where
  moves : ∀ n side, (run n).CanMove side → ∃ m ≥ n, Session.Moves (run m) (run (m + 1)) side (schedule m)
  requests : ∀ n, (run n).pending ≠ [] → ∃ m ≥ n, ∃ calls, schedule m = .request calls

/-- At every point the callbacks have been invoked with the first of the expected deliveries,
and on a fair schedule with all of them from some point on. -/
def DeliversOnce (a : α) (b : β) (requests : List Request) (schedule : Nat → Event) : Prop :=
  let run := Session.run hostCallback d (.start a b requests) schedule
  (∀ n, (run n).deviceLog <+: sent requests ∧ (run n).hostLog <+: produced d b requests) ∧
    (Fair run schedule → ∃ n, ∀ m, n ≤ m →
      (run m).deviceLog = sent requests ∧ (run m).hostLog = produced d b requests)

namespace Phase

def unserved : Phase → List Request
  | requesting q _ _ => [q]
  | _ => []

def undelivered : Phase → List Delivery
  | responding _ p _ _ => [p.delivery]
  | _ => []

def maxWire : Nat := sizeofHeader + 2 ^ 16

def rank : Phase → Nat
  | idle => 0
  | requesting q received sent => 2 * maxWire + 1 + (requesting q received sent).left
  | responding q p received sent => (responding q p received sent).left

def maxRank : Nat := 4 * maxWire + 2

theorem length_wire_le {carries : Header → Bool} (m : Message carries) : m.wire.length ≤ maxWire := by
  have hlt := m.header.length.isLt
  have hpayload : m.payload.length ≤ m.header.length.toNat := by
    rw [m.length_payload]
    exact payloadSize_le _ _
  rw [m.length_wire]
  exact Nat.add_le_add_left (Nat.le_of_lt (Nat.lt_of_le_of_lt hpayload hlt)) _

theorem rank_lt (phase : Phase) : phase.rank < maxRank := by
  cases phase with
  | idle => decide
  | requesting q received sent =>
    have hle := length_wire_le q.message
    simp only [rank, left, maxRank]
    omega
  | responding q p received sent =>
    have hle := length_wire_le p
    simp only [rank, left, maxRank]
    omega

theorem Same.unserved {phase phase' : Phase} (h : phase.Same phase') : phase'.unserved = phase.unserved := by
  cases h with
  | idle => rfl
  | requesting => rfl
  | responding => rfl

theorem Same.undelivered {phase phase' : Phase} (h : phase.Same phase') :
    phase'.undelivered = phase.undelivered := by
  cases h with
  | idle => rfl
  | requesting => rfl
  | responding => rfl

end Phase

theorem Progress.rank_le {γ δ : Type} {s s' : Link γ δ} {phase phase' : Phase}
    (h : Progress s s' phase phase') :
    phase'.rank ≤ phase.rank ∧ (Moved s s' → phase'.rank < phase.rank) := by
  obtain ⟨hsame, hle, hlt⟩ := h
  cases hsame with
  | idle => exact ⟨Nat.le_refl _, fun hmoved ↦ absurd (hlt hmoved) (Nat.lt_irrefl _)⟩
  | requesting q r n r' n' =>
    exact ⟨Nat.add_le_add_left hle _, fun hmoved ↦ Nat.add_lt_add_left (hlt hmoved) _⟩
  | responding q p r n r' n' => exact ⟨hle, hlt⟩

theorem canMove_of_busy {s : Session α β} {phase : Phase} (h : Framed s.link phase) (hphase : phase ≠ .idle) :
    ∃ side, s.CanMove side := by
  cases phase with
  | idle => exact absurd rfl hphase
  | requesting q received sent =>
    obtain ⟨⟨-, ⟨hstate, -⟩ | ⟨-, -, hall⟩⟩, -, htransit, -, hlt⟩ := h.here
    · exact ⟨.host, .inl hstate⟩
    · refine ⟨.device, .inr fun hup ↦ ?_⟩
      have heq := htransit.eq_nil_iff.mp hup
      omega
  | responding q p received sent =>
    obtain ⟨-, ⟨hstate, -⟩ | ⟨-, hall⟩, htransit, -, hlt⟩ := h.here
    · exact ⟨.device, .inl hstate⟩
    · refine ⟨.host, .inr fun hdown ↦ ?_⟩
      have heq := htransit.eq_nil_iff.mp hdown
      omega

theorem rank_pos_of_busy {s : Session α β} {phase : Phase} (h : Framed s.link phase) (hphase : phase ≠ .idle) :
    0 < phase.rank := by
  cases phase with
  | idle => exact absurd rfl hphase
  | requesting q received sent =>
    simp only [Phase.rank]
    omega
  | responding q p received sent =>
    obtain ⟨-, -, htransit, -, hlt⟩ := h.here
    have hle := htransit.sent_le
    simp only [Phase.rank, Phase.left]
    omega

/-- What has been delivered and what is still to come make up the expected deliveries. -/
structure Logged (toDevice toHost : List Delivery) (s : Session α β) (phase : Phase) : Prop where
  device : s.deviceLog ++ sent (phase.unserved ++ s.pending) = toDevice
  host : s.hostLog ++ (phase.undelivered ++ produced d s.link.deviceApp.1 (phase.unserved ++ s.pending)) = toHost

theorem take_received (q : Request) : q.received.take (payloadSize isOut q.header) = q.message.payload :=
  List.take_left' q.message.length_payload

theorem recorded_reply (app : β × List Delivery) (q : Request) :
    (d.recorded.reply app q).app = ((d.reply app.1 q).app, app.2 ++ [q.message.delivery]) := by
  have htake := take_received q
  simp only [Device.reply, Device.recorded, recording, htake]
  rfl

theorem take_delivered (app : α × List Delivery) (p : Message isIn) (rest : List Byte) :
    (recording isIn hostCallback app p.header (p.payload ++ rest)).app.2 = app.2 ++ [p.delivery] := by
  rw [recording]
  dsimp only
  rw [List.take_left' p.length_payload]
  rfl

theorem Logged.of_same {toDevice toHost : List Delivery} {s s' : Session α β} {phase phase' : Phase}
    (h : Logged d toDevice toHost s phase) (hsame : phase.Same phase') (hpending : s'.pending = s.pending)
    (hhost : s'.link.hostApp = s.link.hostApp) (hdevice : s'.link.deviceApp = s.link.deviceApp) :
    Logged d toDevice toHost s' phase' := by
  refine ⟨?_, ?_⟩
  · rw [Session.deviceLog, hdevice, hsame.unserved, hpending]
    exact h.device
  · rw [Session.hostLog, hhost, hdevice, hsame.unserved, hsame.undelivered, hpending]
    exact h.host

def totalRank (s : Session α β) (phase : Phase) : Nat := s.pending.length * Phase.maxRank + phase.rank

structure Steps (toDevice toHost : List Delivery) (s : Session α β) (phase : Phase) (s' : Session α β)
    (phase' : Phase) : Prop where
  framed : Framed s'.link phase'
  logged : Logged d toDevice toHost s' phase'
  le : totalRank s' phase' ≤ totalRank s phase
  moved : Moved s.link s'.link → totalRank s' phase' < totalRank s phase

theorem Steps.refl {toDevice toHost : List Delivery} {s : Session α β} {phase : Phase}
    (h : Framed s.link phase) (hlogged : Logged d toDevice toHost s phase) :
    Steps d toDevice toHost s phase s phase := by
  refine ⟨h, hlogged, Nat.le_refl _, ?_⟩
  rintro (hup | hdown)
  · exact absurd rfl hup
  · exact absurd rfl hdown

section Step

variable {toDevice toHost : List Delivery} {s : Session α β} {phase : Phase} (h : Framed s.link phase)
  (hlogged : Logged d toDevice toHost s phase) {calls : List Outcome} (hcalm : Calm calls)

include h hlogged hcalm

theorem step_host (ready : Ready) :
    ∃ phase', Steps d toDevice toHost s phase (s.step hostCallback d (.callback .host ready calls)) phase' := by
  obtain ⟨hdevice, phase', hframed, hcases⟩ :=
    framed_hostCallback (recording isIn hostCallback) h ready hcalm
  refine ⟨phase', ?_⟩
  rcases hcases with ⟨hprogress, hhost⟩ | ⟨q, p, received, sent, rfl, rfl, hhost⟩
  · obtain ⟨hle, hlt⟩ := hprogress.rank_le
    exact ⟨hframed, hlogged.of_same d hprogress.same rfl hhost hdevice, Nat.add_le_add_left hle _,
      fun hmoved ↦ Nat.add_lt_add_left (hlt hmoved) _⟩
  · have hpos := rank_pos_of_busy h (by simp)
    have hlt := Nat.add_lt_add_left hpos (s.pending.length * Phase.maxRank)
    refine ⟨hframed, ⟨?_, ?_⟩, Nat.le_of_lt hlt, fun _ ↦ hlt⟩
    · rw [Session.deviceLog, Session.step, hdevice]
      exact hlogged.device
    · rw [Session.hostLog, Session.step, hhost, hdevice, take_delivered, ← hlogged.host, List.append_assoc]
      rfl

theorem step_device (ready : Ready) :
    ∃ phase', Steps d toDevice toHost s phase (s.step hostCallback d (.callback .device ready calls)) phase' := by
  obtain ⟨hhost, phase', hframed, hcases⟩ := framed_deviceCallback d.recorded h ready hcalm
  refine ⟨phase', ?_⟩
  rcases hcases with ⟨hprogress, hdevice⟩ | ⟨q, received, sent, sent', rfl, rfl, hdevice⟩
  · obtain ⟨hle, hlt⟩ := hprogress.rank_le
    exact ⟨hframed, hlogged.of_same d hprogress.same rfl hhost hdevice, Nat.add_le_add_left hle _,
      fun hmoved ↦ Nat.add_lt_add_left (hlt hmoved) _⟩
  · have hsmall : (Phase.responding q (d.recorded.response s.link.deviceApp q) 0 sent').rank <
        (Phase.requesting q received sent).rank := by
      have hle := Phase.length_wire_le (d.recorded.response s.link.deviceApp q)
      simp only [Phase.rank, Phase.left]
      omega
    have hlt := Nat.add_lt_add_left hsmall (s.pending.length * Phase.maxRank)
    refine ⟨hframed, ⟨?_, ?_⟩, Nat.le_of_lt hlt, fun _ ↦ hlt⟩
    · rw [Session.deviceLog, Session.step, hdevice, recorded_reply, ← hlogged.device, List.append_assoc]
      rfl
    · rw [Session.hostLog, Session.step, hhost, hdevice]
      exact hlogged.host

theorem step_request :
    ∃ phase', Steps d toDevice toHost s phase (s.step hostCallback d (.request calls)) phase' ∧
      (phase = .idle → s.pending ≠ [] →
        totalRank (s.step hostCallback d (.request calls)) phase' < totalRank s phase) := by
  cases hpending : s.pending with
  | nil =>
    have hstep : s.step hostCallback d (.request calls) = s := by rw [Session.step, hpending]
    rw [hstep]
    exact ⟨phase, .refl d h hlogged, fun _ hne ↦ absurd rfl hne⟩
  | cons q rest =>
    by_cases hphase : phase = .idle
    · subst hphase
      obtain ⟨hret, sent, hframed, hhost, hdevice⟩ :=
        framed_hostRequest (recording isIn hostCallback) h q hcalm
      have hstep : s.step hostCallback d (.request calls) =
          ⟨(s.link.hostRequest (recording isIn hostCallback) q.header q.data calls).2, rest⟩ := by
        rw [Session.step, hpending]
        dsimp only
        rw [hret, if_neg (by decide)]
      have hlt : totalRank (s.step hostCallback d (.request calls)) (.requesting q 0 sent) <
          totalRank s .idle := by
        have hrank := (Phase.requesting q 0 sent).rank_lt
        rw [hstep, totalRank, totalRank, hpending, List.length_cons, Nat.succ_mul]
        simp only [Phase.rank] at hrank ⊢
        omega
      rw [hstep] at hlt ⊢
      refine ⟨.requesting q 0 sent, ⟨hframed, ⟨?_, ?_⟩, Nat.le_of_lt hlt, fun _ ↦ hlt⟩, fun _ _ ↦ hlt⟩
      · rw [Session.deviceLog, hdevice, ← hlogged.device, hpending]
        rfl
      · rw [Session.hostLog, hhost, hdevice, ← hlogged.host, hpending]
        rfl
    · have hstep : s.step hostCallback d (.request calls) = s := by
        have hneg : -ebusy < 0 := by decide
        rw [Session.step, hpending]
        dsimp only
        rw [hostRequest_busy _ (host_busy h hphase), if_pos hneg, ← hpending]
      rw [hstep]
      exact ⟨phase, .refl d h hlogged, fun hidle ↦ absurd hidle hphase⟩

end Step

section Run

def Stands (toDevice toHost : List Delivery) (s : Session α β) (k : Nat) : Prop :=
  ∃ phase, Framed s.link phase ∧ Logged d toDevice toHost s phase ∧ totalRank s phase = k

variable {toDevice toHost : List Delivery}

/-- Every event keeps the invariant. The rank falls when bytes move, and when the host starts
a request on an idle link. -/
theorem stands_step {s : Session α β} {k : Nat} (h : Stands d toDevice toHost s k) {event : Event}
    (hcalm : Calm event.calls) :
    ∃ k', Stands d toDevice toHost (s.step hostCallback d event) k' ∧ k' ≤ k ∧
      (Moved s.link (s.step hostCallback d event).link → k' < k) ∧
      (0 < k → (∃ calls, event = .request calls) → s.link.host.state = .idle → k' < k) := by
  obtain ⟨phase, hframed, hlogged, rfl⟩ := h
  cases event with
  | request calls =>
    obtain ⟨phase', hsteps, hstarted⟩ := step_request hostCallback d hframed hlogged hcalm
    refine ⟨_, ⟨phase', hsteps.framed, hsteps.logged, rfl⟩, hsteps.le, hsteps.moved, fun hpos _ hidle ↦ ?_⟩
    have hphase : phase = .idle := by
      by_contra hne
      exact host_busy hframed hne hidle
    refine hstarted hphase fun hpending ↦ ?_
    rw [totalRank, hphase, hpending] at hpos
    exact absurd hpos (by decide)
  | callback side ready calls =>
    have hsteps : ∃ phase', Steps d toDevice toHost s phase
        (s.step hostCallback d (.callback side ready calls)) phase' := by
      cases side with
      | host => exact step_host hostCallback d hframed hlogged hcalm ready
      | device => exact step_device hostCallback d hframed hlogged hcalm ready
    obtain ⟨phase', hsteps⟩ := hsteps
    exact ⟨_, ⟨phase', hsteps.framed, hsteps.logged, rfl⟩, hsteps.le, hsteps.moved,
      fun _ ⟨_, hrequest⟩ ↦ nomatch hrequest⟩

theorem stands_start (a : α) (b : β) (requests : List Request) :
    ∃ k, Stands d (sent requests) (produced d b requests) (.start a b requests) k :=
  ⟨_, .idle, ⟨rfl, rfl, rfl, rfl, rfl, rfl⟩, ⟨rfl, rfl⟩, rfl⟩

variable {schedule : Nat → Event} {start : Session α β}

theorem idle_of_dvd {s : Session α β} {k : Nat} (h : Stands d toDevice toHost s k)
    (hdvd : Phase.maxRank ∣ k) : s.link.host.state = .idle := by
  obtain ⟨phase, hframed, -, rfl⟩ := h
  have hrank : Phase.maxRank ∣ phase.rank := (Nat.dvd_add_right (Nat.dvd_mul_left _ _)).mp hdvd
  have hzero : phase.rank = 0 := Nat.eq_zero_of_dvd_of_lt hrank phase.rank_lt
  by_cases hphase : phase = .idle
  · subst hphase
    exact hframed.here.1
  · have hpos := rank_pos_of_busy hframed hphase
    omega

theorem descends_of_fair (hcalm : ∀ n, Calm (schedule n).calls)
    (hfair : Fair (Session.run hostCallback d start schedule) schedule) :
    Descent.Descends (Session.run hostCallback d start schedule) (Stands d toDevice toHost) := by
  have hstep (n k : Nat) (h : Stands d toDevice toHost (Session.run hostCallback d start schedule n) k) :=
    stands_step hostCallback d h (hcalm n)
  have hle (n k : Nat) (h : Stands d toDevice toHost (Session.run hostCallback d start schedule n) k) :
      ∃ k' ≤ k, Stands d toDevice toHost (Session.run hostCallback d start schedule (n + 1)) k' := by
    obtain ⟨k', hk', hle, -⟩ := hstep n k h
    exact ⟨k', hle, hk'⟩
  refine ⟨hle, fun n k hpos h ↦ ?_⟩
  obtain ⟨phase, hframed, hlogged, hrank⟩ := h
  by_cases hphase : phase = .idle
  · subst hphase
    have hpending : (Session.run hostCallback d start schedule n).pending ≠ [] := by
      intro hnil
      rw [totalRank, hnil] at hrank
      exact absurd (hrank ▸ hpos) (by decide)
    obtain ⟨m, hm, hrequest⟩ := hfair.requests n hpending
    obtain ⟨j, hj, hstands⟩ := Descent.rank_le hle hm ⟨.idle, hframed, hlogged, hrank⟩
    rcases Nat.lt_or_eq_of_le hj with hlt | rfl
    · exact ⟨m, hm, j, hlt, hstands⟩
    · obtain ⟨j', hj', -, -, hlower⟩ := hstep m j hstands
      have hdvd : Phase.maxRank ∣ j := by
        rw [← hrank, totalRank, Phase.rank, Nat.add_zero]
        exact Nat.dvd_mul_left _ _
      have hidle := idle_of_dvd d hstands hdvd
      exact ⟨m + 1, by omega, j', hlower hpos hrequest hidle, hj'⟩
  · obtain ⟨side, hside⟩ := canMove_of_busy hframed hphase
    obtain ⟨m, hm, -, hmoved⟩ := hfair.moves n side hside
    obtain ⟨j, hj, hstands⟩ := Descent.rank_le hle hm ⟨phase, hframed, hlogged, hrank⟩
    obtain ⟨j', hj', -, hlower, -⟩ := hstep m j hstands
    have hlt := hlower hmoved
    exact ⟨m + 1, by omega, j', by omega, hj'⟩

theorem stands_run (hcalm : ∀ n, Calm (schedule n).calls) {k : Nat} (h : Stands d toDevice toHost start k)
    (n : Nat) : ∃ k, Stands d toDevice toHost (Session.run hostCallback d start schedule n) k := by
  induction n with
  | zero => exact ⟨k, h⟩
  | succ n ih =>
    obtain ⟨k, hk⟩ := ih
    obtain ⟨k', hk', -⟩ := stands_step hostCallback d hk (hcalm n)
    exact ⟨k', hk'⟩

theorem delivered_of_zero {s : Session α β} (h : Stands d toDevice toHost s 0) :
    s.deviceLog = toDevice ∧ s.hostLog = toHost := by
  obtain ⟨phase, hframed, hlogged, hrank⟩ := h
  have hphase : phase = .idle := by
    by_contra hne
    have hpos := rank_pos_of_busy hframed hne
    rw [totalRank] at hrank
    omega
  subst hphase
  have hpending : s.pending = [] := by
    rw [totalRank, Phase.rank, Nat.add_zero, Nat.mul_eq_zero] at hrank
    exact List.length_eq_zero_iff.mp (hrank.resolve_right (by decide))
  obtain ⟨hdevice, hhost⟩ := hlogged
  rw [hpending] at hdevice hhost
  refine ⟨?_, ?_⟩
  · rw [← hdevice]
    exact (List.append_nil _).symm
  · rw [← hhost]
    exact (List.append_nil _).symm

end Run

/-- If the peer does not close the stream and no call moves eleven bytes, each request is
delivered to the device once and in order, and so is each response to the host. -/
theorem delivers_once (a : α) (b : β) (requests : List Request) {schedule : Nat → Event}
    (hreliable : ∀ n, Outcome.closed ∉ (schedule n).calls)
    (heleven : ∀ n, Outcome.moves 11 ∉ (schedule n).calls) :
    DeliversOnce hostCallback d a b requests schedule := by
  have hcalm (n : Nat) : Calm (schedule n).calls := fun outcome ho ↦
    ⟨fun h ↦ hreliable n (h ▸ ho), fun h ↦ heleven n (h ▸ ho)⟩
  obtain ⟨k, hstart⟩ := stands_start d a b requests
  refine ⟨fun n ↦ ?_, fun hfair ↦ ?_⟩
  · obtain ⟨k', phase, -, hlogged, -⟩ := stands_run hostCallback d hcalm hstart n
    exact ⟨⟨_, hlogged.device⟩, ⟨_, hlogged.host⟩⟩
  · obtain ⟨n, hn⟩ := (descends_of_fair hostCallback d hcalm hfair).eventually_zero hstart
    exact ⟨n, fun m hm ↦ delivered_of_zero d (hn m hm)⟩

section Instances

def ignoring : Callback Unit := fun _ header buffer ↦ ⟨0, header, buffer, ()⟩

def elevenBytes : Request := ⟨{ length := 11 }, List.replicate 11 0, by decide⟩

/-- The request and the answer go over the wire in parts of five bytes and less. -/
def byFives : Nat → Event
  | 0 => .request [.moves 5, .moves 5]
  | 1 => .callback .host .writable [.moves 5]
  | 2 => .callback .host .writable [.moves 1]
  | 3 => .callback .device .readable [.moves 5, .moves 5]
  | 4 => .callback .device .readable [.moves 5]
  | 5 => .callback .device .readable [.moves 1]
  | 6 => .callback .device .writable [.moves 5]
  | 7 => .callback .host .readable [.moves 5]
  | _ => .callback .host .readable []

theorem calls_byFives (n : Nat) {outcome : Outcome} (h : outcome ∈ (byFives n).calls) :
    outcome = .moves 5 ∨ outcome = .moves 1 := by
  rw [byFives.eq_def] at h
  split at h
  all_goals simp [Event.calls] at h
  all_goals simp [h]

def runByFives : Nat → Session Unit Unit :=
  Session.run ignoring acknowledging (.start () () [elevenBytes]) byFives

theorem runByFives_idle (k : Nat) : runByFives (8 + k) = runByFives 8 := by
  induction k with
  | zero => rfl
  | succ k ih =>
    have hevent : byFives (8 + k) = .callback .host .readable [] := by
      rw [Nat.add_comm]
      rfl
    have hstep : Session.step ignoring acknowledging (runByFives 8) (.callback .host .readable []) = runByFives 8 := by
      rfl
    change Session.step ignoring acknowledging (runByFives (8 + k)) (byFives (8 + k)) = runByFives 8
    rw [ih, hevent, hstep]

theorem byFives_fair : Fair runByFives byFives := by
  have hrequest : Session.Moves (runByFives 2) (runByFives 3) .host (byFives 2) :=
    ⟨⟨_, _, rfl⟩, .inl (by decide +kernel)⟩
  have hresponse : Session.Moves (runByFives 6) (runByFives 7) .device (byFives 6) :=
    ⟨⟨_, _, rfl⟩, .inr (by decide +kernel)⟩
  have hreceived : Session.Moves (runByFives 7) (runByFives 8) .host (byFives 7) :=
    ⟨⟨_, _, rfl⟩, .inr (by decide +kernel)⟩
  have hidle (side : Side) : ¬ (runByFives 8).CanMove side := by
    cases side <;> exact fun h ↦ h.elim (by decide +kernel) (by decide +kernel)
  have hdone : ¬ (runByFives 7).CanMove .device := fun h ↦ h.elim (by decide +kernel) (by decide +kernel)
  refine ⟨fun n side hcan ↦ ?_, fun n hpending ↦ ?_⟩
  · by_cases hn : 8 ≤ n
    · obtain ⟨k, rfl⟩ := Nat.exists_eq_add_of_le hn
      exact absurd (runByFives_idle k ▸ hcan) (hidle side)
    · cases side with
      | host =>
        by_cases hearly : n ≤ 2
        · exact ⟨2, hearly, hrequest⟩
        · exact ⟨7, by omega, hreceived⟩
      | device =>
        by_cases hearly : n ≤ 6
        · exact ⟨6, hearly, hresponse⟩
        · obtain rfl : n = 7 := by omega
          exact absurd hcan hdone
  · by_cases hn : n = 0
    · exact ⟨0, hn.le, _, rfl⟩
    · have hstarted : ∀ k : Fin 8, (runByFives (k + 1)).pending.length = 0 := by decide +kernel
      refine absurd (List.eq_nil_of_length_eq_zero ?_) hpending
      by_cases hlate : 8 ≤ n
      · obtain ⟨k, rfl⟩ := Nat.exists_eq_add_of_le hlate
        rw [runByFives_idle]
        exact hstarted 7
      · have hpast := hstarted ⟨n - 1, by omega⟩
        rwa [Nat.sub_add_cancel (by omega)] at hpast

theorem delivers_once_by_fives :
    ((∀ n, Outcome.closed ∉ (byFives n).calls) ∧ ∀ n, Outcome.moves 11 ∉ (byFives n).calls) ∧
      (∀ n, (runByFives n).deviceLog <+: sent [elevenBytes]) ∧
      ∃ n, ∀ m, n ≤ m → (runByFives m).deviceLog = sent [elevenBytes] ∧
        (runByFives m).hostLog = produced acknowledging () [elevenBytes] := by
  have hclosed (n : Nat) : Outcome.closed ∉ (byFives n).calls := fun h ↦
    absurd (calls_byFives n h) (by decide)
  have heleven (n : Nat) : Outcome.moves 11 ∉ (byFives n).calls := fun h ↦
    absurd (calls_byFives n h) (by decide)
  obtain ⟨hprefixes, hfinally⟩ := delivers_once ignoring acknowledging () () [elevenBytes] hclosed heleven
  exact ⟨⟨hclosed, heleven⟩, fun n ↦ (hprefixes n).1, hfinally byFives_fair⟩

/-- The host writes the payload of eleven bytes twice, because it takes the first `write` for
one that would have blocked. -/
def elevenAtOnce : Nat → Event
  | 0 => .request [.moves 5, .moves 11]
  | 1 => .callback .host .writable [.moves 5]
  | 2 => .callback .host .writable [.moves 6]
  | 3 => .callback .device .readable [.moves 5, .moves 5]
  | 4 => .callback .device .readable [.moves 6, .moves 5]
  | _ => .callback .device .readable [.moves 5, .moves 5]

theorem delivers_once_fails : (∀ n, Outcome.closed ∉ (elevenAtOnce n).calls) ∧
    ¬ DeliversOnce ignoring acknowledging () () [elevenBytes] elevenAtOnce := by
  refine ⟨fun n h ↦ ?_, fun h ↦ ?_⟩
  · rw [elevenAtOnce.eq_def] at h
    split at h
    all_goals simp [Event.calls] at h
  · have hlength := (h.1 6).1.length_le
    exact absurd hlength (by decide +kernel)

end Instances

end IDeviceEmulator.TcpUsb
