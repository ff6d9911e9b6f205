import Mathlib.Data.List.Nodup
import Mathlib.Data.List.Perm.Basic
import Mathlib.Data.List.Range
import IDeviceEmulator.Library.Machine

namespace IDeviceEmulator.Net

open Machine

/-- A packet of a queue. `number` is its place among all packets given to the queue; the
source has no such field. -/
structure NetPacket (σ : Type) where
  number : Nat
  sender : σ
  flags : UInt32
  data : List UInt8
  sentCb : Bool

structure NetQueue (σ : Type) where
  packets : List (NetPacket σ)
  delivering : Bool

def qemuNewNetQueue (σ : Type) : NetQueue σ := ⟨[], false⟩

variable {σ : Type}

def qemuNetQueueAppend (queue : NetQueue σ) (packet : NetPacket σ) (sentCb : Bool) : NetQueue σ × Int64 :=
  ({ queue with packets := queue.packets ++ [{ packet with sentCb }] }, .ofNat packet.data.length)

/-- Who waits for the handler or for a callback: `qemu_net_queue_send` with the packet it
delivers, `qemu_net_queue_flush` with the packet it took off the queue, or
`qemu_net_queue_flush` for the sent callback of a packet. -/
inductive Frame (σ : Type)
  | send (packet : NetPacket σ)
  | flush (packet : NetPacket σ)
  | sentCb

/-- The queue with its history: the number of packets given to it, those accepted in order of
acceptance, the senders that wait for their callback, and the calls that have not returned,
the innermost one first. -/
structure Session (σ : Type) where
  queue : NetQueue σ
  given : Nat
  accepted : List (NetPacket σ)
  waiting : List σ
  frames : List (Frame σ)

def start (σ : Type) : Session σ := ⟨qemuNewNetQueue σ, 0, [], [], []⟩

/-- `send` and `flush` are called from outside, from a sent callback or, for `send`, from the
handler; `delivered` is the return of the handler. -/
inductive Input (σ : Type)
  | send (sender : σ) (flags : UInt32) (data : List UInt8) (sentCb : Bool)
  | flush
  | delivered (ret : Int64)
  | sentCbReturns

inductive Fault
  | senderWaits
  | inHandler
  | notInHandler
  | notInCallback

namespace Session

/-- The packet in the hands of the handler. -/
def inDelivery (s : Session σ) : List (NetPacket σ) :=
  match s.frames with
  | .send packet :: _ => [packet]
  | .flush packet :: _ => [packet]
  | _ => []

/-- What `qemu_net_queue_deliver` does before it calls the handler. -/
def deliver (s : Session σ) (frame : Frame σ) : Session σ :=
  { s with queue := { s.queue with delivering := true }, frames := frame :: s.frames }

/-- What `qemu_net_queue_deliver` does after the handler returned. -/
def endDelivery (s : Session σ) (frames : List (Frame σ)) : Session σ :=
  { s with queue := { s.queue with delivering := false }, frames }

def accept (s : Session σ) (packet : NetPacket σ) : Session σ :=
  { s with accepted := s.accepted ++ [packet] }

/-- The sender that is told that nothing was sent waits for its callback. -/
def tell (s : Session σ) (sender : σ) (ret : Int64) : Session σ :=
  if ret = 0 then { s with waiting := sender :: s.waiting } else s

def append (s : Session σ) (packet : NetPacket σ) (sentCb : Bool) : Session σ × Int64 :=
  let (queue, ret) := qemuNetQueueAppend s.queue packet sentCb
  ({ s with queue }, ret)

/-- `qemu_net_queue_flush` up to the next call of the handler. -/
def qemuNetQueueFlush (s : Session σ) : Session σ :=
  match s.queue.packets with
  | [] => s
  | packet :: packets => { s with queue := { s.queue with packets } }.deliver (.flush packet)

variable [DecidableEq σ]

/-- `qemu_net_queue_send` up to the call of the handler, if there is one. -/
def qemuNetQueueSend (s : Session σ) (packet : NetPacket σ) : Session σ :=
  if s.queue.delivering then
    let (s, ret) := s.append packet false
    s.tell packet.sender ret
  else s.deliver (.send packet)

/-- The rest of `qemu_net_queue_send`. -/
def sendDelivered (s : Session σ) (packet : NetPacket σ) (ret : Int64) : Session σ :=
  if ret = 0 then (s.append packet packet.sentCb).1.tell packet.sender 0
  else (s.accept packet).qemuNetQueueFlush

/-- The rest of the turn of the loop of `qemu_net_queue_flush`. -/
def flushDelivered (s : Session σ) (packet : NetPacket σ) (ret : Int64) : Session σ :=
  let s := if ret = 0 then s else s.accept packet
  -- `ret` is kept in an `int`.
  if ret.toInt32 = 0 then { s with queue := { s.queue with packets := packet :: s.queue.packets } }
  else if packet.sentCb then
    { s with waiting := s.waiting.filter (· ≠ packet.sender), frames := .sentCb :: s.frames }
  else s.qemuNetQueueFlush

/-- A sender that was told that nothing was sent does not send before its callback, and the
handler does not flush. -/
def step (s : Session σ) : Input σ → Except Fault (Session σ × Unit)
  | .send sender flags data sentCb =>
    if sender ∈ s.waiting then .error .senderWaits
    else .ok ({ s with given := s.given + 1 }.qemuNetQueueSend ⟨s.given, sender, flags, data, sentCb⟩, ())
  | .flush =>
    if s.inDelivery.isEmpty then .ok (s.qemuNetQueueFlush, ())
    else .error .inHandler
  | .delivered ret =>
    match s.frames with
    | .send packet :: frames => .ok ((s.endDelivery frames).sendDelivered packet ret, ())
    | .flush packet :: frames => .ok ((s.endDelivery frames).flushDelivered packet ret, ())
    | _ => .error .notInHandler
  | .sentCbReturns =>
    match s.frames with
    | .sentCb :: frames => .ok ({ s with frames }.qemuNetQueueFlush, ())
    | _ => .error .notInCallback

end Session

def NetPacket.Before (p q : NetPacket σ) : Prop := p.sender = q.sender → p.number < q.number

instance (p q : NetPacket σ) [DecidableEq σ] : Decidable (p.Before q) :=
  inferInstanceAs (Decidable (p.sender = q.sender → p.number < q.number))

namespace Session

/-- No packet is accepted twice; one that is not accepted is queued, or with the handler; and
the packets of one sender are accepted in the order in which it sent them, none before an
earlier one that is still queued. -/
structure Orderly (s : Session σ) : Prop where
  once : (s.accepted.map NetPacket.number).Nodup
  kept : ∀ n < s.given, n ∈ (s.accepted ++ s.inDelivery ++ s.queue.packets).map NetPacket.number
  inOrder : s.accepted.Pairwise NetPacket.Before
  first : ∀ p ∈ s.accepted, ∀ q ∈ s.queue.packets, p.Before q

/-- A packet that is delivered at once is accepted only when no earlier packet of its sender is
queued, and refused only when its sender gave no further one meanwhile; and the loop of
`qemu_net_queue_flush` does not lose the result of the handler in an `int`. -/
def AnsweredInTurn (packets : List (NetPacket σ)) (ret : Int64) : Frame σ → Prop
  | .send packet => if ret = 0 then ∀ q ∈ packets, q.Before packet else ∀ q ∈ packets, packet.Before q
  | .flush _ => ret.toInt32 = 0 → ret = 0
  | .sentCb => True

instance [DecidableEq σ] (packets : List (NetPacket σ)) (ret : Int64) :
    (frame : Frame σ) → Decidable (AnsweredInTurn packets ret frame)
  | .send packet =>
    inferInstanceAs (Decidable (if ret = 0 then ∀ q ∈ packets, q.Before packet else ∀ q ∈ packets, packet.Before q))
  | .flush _ => inferInstanceAs (Decidable (ret.toInt32 = 0 → ret = 0))
  | .sentCb => .isTrue trivial

def InTurn (s : Session σ) : Input σ → Prop
  | .delivered ret => ∀ frame ∈ s.frames.head?, AnsweredInTurn s.queue.packets ret frame
  | _ => True

instance [DecidableEq σ] (s : Session σ) : (c : Input σ) → Decidable (s.InTurn c)
  | .delivered ret => inferInstanceAs (Decidable (∀ frame ∈ s.frames.head?, AnsweredInTurn s.queue.packets ret frame))
  | .send .. => .isTrue trivial
  | .flush => .isTrue trivial
  | .sentCbReturns => .isTrue trivial

/-- The packets in the order in which they should be accepted. The one that is delivered at
once has no place among them yet. -/
def line (s : Session σ) : List (NetPacket σ) :=
  match s.frames with
  | .flush packet :: _ => s.accepted ++ packet :: s.queue.packets
  | _ => s.accepted ++ s.queue.packets

structure Kept (s : Session σ) : Prop where
  numbers : ((s.accepted ++ s.inDelivery ++ s.queue.packets).map NetPacket.number).Perm (List.range s.given)
  delivering : s.queue.delivering = !s.inDelivery.isEmpty
  callbacks : ∀ frame ∈ s.frames.tail, frame = .sentCb
  line : s.line.Pairwise NetPacket.Before
  direct : ∀ packet frames, s.frames = .send packet :: frames → ∀ p ∈ s.accepted, p.Before packet

/-- The handler is not called: control is in a callback or outside of the queue's code. -/
structure Rests (s : Session σ) : Prop where
  numbers : ((s.accepted ++ s.queue.packets).map NetPacket.number).Perm (List.range s.given)
  delivering : s.queue.delivering = false
  callbacks : ∀ frame ∈ s.frames, frame = .sentCb
  line : (s.accepted ++ s.queue.packets).Pairwise NetPacket.Before

variable {s t : Session σ}

theorem inDelivery_of_callbacks (h : ∀ frame ∈ s.frames, frame = .sentCb) : s.inDelivery = [] := by
  unfold inDelivery
  split
  · rename_i packet frames hframes
    cases h (.send packet) (by simp [hframes])
  · rename_i packet frames hframes
    cases h (.flush packet) (by simp [hframes])
  · rfl

theorem line_of_callbacks (h : ∀ frame ∈ s.frames, frame = .sentCb) :
    s.line = s.accepted ++ s.queue.packets := by
  unfold Session.line
  split
  · rename_i packet frames hframes
    cases h (.flush packet) (by simp [hframes])
  · rfl

theorem Rests.kept (h : s.Rests) : s.Kept := by
  have hnone := inDelivery_of_callbacks h.callbacks
  refine ⟨?_, ?_, fun frame hf ↦ h.callbacks frame (List.mem_of_mem_tail hf), ?_, ?_⟩
  · rw [hnone, List.append_nil]
    exact h.numbers
  · rw [hnone]
    exact h.delivering
  · rw [line_of_callbacks h.callbacks]
    exact h.line
  · intro packet frames hframes
    cases h.callbacks (.send packet) (by simp [hframes])

theorem Kept.rests (h : s.Kept) (hnone : s.inDelivery = []) : s.Rests := by
  have hcallbacks : ∀ frame ∈ s.frames, frame = .sentCb := by
    intro frame hmem
    unfold inDelivery at hnone
    cases hframes : s.frames with
    | nil => simp [hframes] at hmem
    | cons first frames =>
      rw [hframes] at hnone hmem
      rcases List.mem_cons.mp hmem with rfl | hrest
      · cases frame with
        | send packet => simp at hnone
        | flush packet => simp at hnone
        | sentCb => rfl
      · exact h.callbacks frame (by simpa [hframes] using hrest)
  refine ⟨?_, ?_, hcallbacks, ?_⟩
  · have hnumbers := h.numbers
    rwa [hnone, List.append_nil] at hnumbers
  · rw [h.delivering, hnone]
    rfl
  · rw [← line_of_callbacks hcallbacks]
    exact h.line

theorem mem_of_mem_line {p : NetPacket σ} (h : p ∈ s.line) : p ∈ s.accepted ++ s.inDelivery ++ s.queue.packets := by
  unfold Session.line at h
  split at h
  · rename_i packet frames hframes
    simpa [inDelivery, hframes] using h
  · rcases List.mem_append.mp h with hacc | hqueued
    · simp [hacc]
    · simp [hqueued]

theorem line_append (s : Session σ) (packet : NetPacket σ) (sentCb : Bool) :
    (s.append packet sentCb).1.line = s.line ++ [{ packet with sentCb }] := by
  unfold Session.line
  simp only [append, qemuNetQueueAppend]
  split <;> simp

theorem Rests.frames (h : s.Rests) {frames : List (Frame σ)} (hframes : ∀ frame ∈ frames, frame = .sentCb) :
    Rests { s with frames } :=
  ⟨h.numbers, h.delivering, hframes, h.line⟩

-- The packet the flush takes is the first of the line that is not accepted.
theorem Rests.flush (h : s.Rests) : s.qemuNetQueueFlush.Kept := by
  unfold qemuNetQueueFlush
  split
  case h_1 => exact h.kept
  case h_2 packet packets hpackets =>
    have hnumbers := h.numbers
    have hline := h.line
    rw [hpackets] at hnumbers hline
    refine ⟨?_, rfl, h.callbacks, hline, ?_⟩
    · simpa [inDelivery, deliver] using hnumbers
    · intro packet frames hframes
      simp [deliver] at hframes

theorem Rests.waiting (h : s.Rests) (waiting : List σ) : Rests { s with waiting } :=
  ⟨h.numbers, h.delivering, h.callbacks, h.line⟩

theorem Kept.waiting (h : s.Kept) (waiting : List σ) : Kept { s with waiting } :=
  ⟨h.numbers, h.delivering, h.callbacks, h.line, h.direct⟩

theorem Kept.tell (h : s.Kept) (sender : σ) (ret : Int64) : (s.tell sender ret).Kept := by
  unfold Session.tell
  split
  · exact h.waiting _
  · exact h

/-- A packet put into the line where it belongs. -/
theorem pairwise_insert {R : α → α → Prop} {l r : List α} {a : α} (h : (l ++ r).Pairwise R)
    (hl : ∀ b ∈ l, R b a) (hr : ∀ b ∈ r, R a b) : (l ++ a :: r).Pairwise R := by
  obtain ⟨hleft, hright, hcross⟩ := List.pairwise_append.mp h
  refine List.pairwise_append.mpr ⟨hleft, List.pairwise_cons.mpr ⟨hr, hright⟩, ?_⟩
  intro b hb c hc
  rcases List.mem_cons.mp hc with rfl | hmem
  · exact hl b hb
  · exact hcross b hb c hmem

section Send

variable {packet : NetPacket σ} {frames : List (Frame σ)}

theorem Kept.callbacks_of_frames {frame : Frame σ} (h : s.Kept) (hframes : s.frames = frame :: frames) :
    ∀ f ∈ frames, f = .sentCb := by
  intro f hf
  apply h.callbacks f
  simpa [hframes] using hf

/-- A refused packet comes behind all that is queued. -/
theorem Kept.refused (h : s.Kept) (hframes : s.frames = .send packet :: frames) (sentCb : Bool)
    (hturn : ∀ q ∈ s.queue.packets, q.Before packet) : ((s.endDelivery frames).append packet sentCb).1.Rests := by
  have hnumbers := h.numbers
  have hline := h.line
  simp only [inDelivery, Session.line, hframes] at hnumbers hline
  refine ⟨?_, rfl, h.callbacks_of_frames hframes, ?_⟩
  · refine List.Perm.trans ?_ hnumbers
    simp only [append, qemuNetQueueAppend, endDelivery, List.map_append, List.map_cons, List.map_nil,
      List.append_assoc]
    exact List.perm_append_comm.append_left _
  · change (s.accepted ++ (s.queue.packets ++ [{ packet with sentCb }])).Pairwise NetPacket.Before
    rw [← List.append_assoc]
    apply pairwise_insert (by rwa [List.append_nil])
    · intro p hp
      rcases List.mem_append.mp hp with hacc | hqueued
      · exact h.direct packet frames hframes p hacc
      · exact hturn p hqueued
    · intro q hq
      cases hq

theorem Kept.accepted (h : s.Kept) (hframes : s.frames = .send packet :: frames)
    (hturn : ∀ q ∈ s.queue.packets, packet.Before q) : ((s.endDelivery frames).accept packet).Rests := by
  have hnumbers := h.numbers
  have hline := h.line
  simp only [inDelivery, Session.line, hframes] at hnumbers hline
  refine ⟨hnumbers, rfl, h.callbacks_of_frames hframes, ?_⟩
  change (s.accepted ++ [packet] ++ s.queue.packets).Pairwise NetPacket.Before
  rw [List.append_assoc]
  exact pairwise_insert hline (h.direct packet frames hframes) hturn

theorem Kept.putBack (h : s.Kept) (hframes : s.frames = .flush packet :: frames) :
    Rests { s.endDelivery frames with queue := ⟨packet :: s.queue.packets, false⟩ } := by
  have hnumbers := h.numbers
  have hline := h.line
  simp only [inDelivery, Session.line, hframes, List.append_assoc] at hnumbers hline
  exact ⟨hnumbers, rfl, h.callbacks_of_frames hframes, hline⟩

theorem Kept.flushed (h : s.Kept) (hframes : s.frames = .flush packet :: frames) :
    ((s.endDelivery frames).accept packet).Rests := by
  have hnumbers := h.numbers
  have hline := h.line
  simp only [inDelivery, Session.line, hframes] at hnumbers hline
  refine ⟨hnumbers, rfl, h.callbacks_of_frames hframes, ?_⟩
  change (s.accepted ++ [packet] ++ s.queue.packets).Pairwise NetPacket.Before
  rwa [List.append_assoc]

end Send

theorem Kept.orderly (h : s.Kept) : s.Orderly := by
  have hnodup := h.numbers.nodup_iff.mpr List.nodup_range
  have hacc : (s.accepted ++ s.queue.packets).Sublist s.line := by
    unfold Session.line
    split
    · exact (List.sublist_cons_self _ _).append_left _
    · exact .refl _
  obtain ⟨haccepted, -, hcross⟩ := List.pairwise_append.mp (h.line.sublist hacc)
  refine ⟨?_, ?_, haccepted, hcross⟩
  · rw [List.append_assoc, List.map_append] at hnodup
    exact hnodup.of_append_left
  · intro n hn
    exact h.numbers.symm.subset (List.mem_range.mpr hn)

/-- A packet given to the queue comes after all that were given before. -/
theorem Kept.send (h : s.Kept) (sender : σ) (flags : UInt32) (data : List UInt8) (sentCb : Bool) :
    ({ s with given := s.given + 1 }.qemuNetQueueSend ⟨s.given, sender, flags, data, sentCb⟩).Kept := by
  have hlt : ∀ p ∈ s.accepted ++ s.inDelivery ++ s.queue.packets, p.number < s.given := by
    intro p hp
    exact List.mem_range.mp (h.numbers.subset (List.mem_map_of_mem hp))
  have hnumbers : ((s.accepted ++ s.inDelivery ++ s.queue.packets).map NetPacket.number ++ [s.given]).Perm
      (List.range (s.given + 1)) := by
    rw [List.range_succ]
    exact h.numbers.append_right _
  unfold qemuNetQueueSend
  split
  case isTrue hdelivering =>
    apply Kept.tell
    refine ⟨?_, h.delivering, h.callbacks, ?_, h.direct⟩
    · simpa [append, qemuNetQueueAppend, inDelivery] using hnumbers
    · change (({ s with given := s.given + 1 } : Session σ).append ⟨s.given, sender, flags, data, sentCb⟩
        false).1.line.Pairwise NetPacket.Before
      rw [line_append]
      apply pairwise_insert (by rw [List.append_nil]; exact h.line)
      · exact fun p hp _ ↦ hlt p (mem_of_mem_line hp)
      · intro q hq
        cases hq
  case isFalse hdelivering =>
    have hflag : s.queue.delivering = false := by simpa using hdelivering
    have hnone : s.inDelivery = [] := by simpa [hflag] using h.delivering
    have hrests := h.rests hnone
    rw [hnone, List.append_nil] at hnumbers hlt
    refine ⟨hnumbers.symm.trans ?_ |>.symm, rfl, hrests.callbacks, hrests.line, ?_⟩
    · simp only [inDelivery, deliver, List.map_append, List.map_cons, List.map_nil, List.append_assoc]
      exact List.perm_append_comm.append_left _
    · intro packet frames hframes p hp
      cases hframes
      exact fun _ ↦ hlt p (List.mem_append_left _ hp)

theorem Kept.sendDelivered {packet : NetPacket σ} {frames : List (Frame σ)} (h : s.Kept)
    (hframes : s.frames = .send packet :: frames) {ret : Int64} (hturn : s.InTurn (.delivered ret)) :
    ((s.endDelivery frames).sendDelivered packet ret).Kept := by
  have hanswer : AnsweredInTurn s.queue.packets ret (.send packet) := hturn _ (by simp [hframes])
  simp only [AnsweredInTurn] at hanswer
  unfold Session.sendDelivered
  split
  case isTrue hret =>
    rw [if_pos hret] at hanswer
    exact (h.refused hframes packet.sentCb hanswer).kept.tell _ _
  case isFalse hret =>
    rw [if_neg hret] at hanswer
    exact (h.accepted hframes hanswer).flush

variable [DecidableEq σ]

theorem Kept.flushDelivered {packet : NetPacket σ} {frames : List (Frame σ)} (h : s.Kept)
    (hframes : s.frames = .flush packet :: frames) {ret : Int64} (hturn : s.InTurn (.delivered ret)) :
    ((s.endDelivery frames).flushDelivered packet ret).Kept := by
  have hanswer : ret.toInt32 = 0 → ret = 0 := hturn (.flush packet) (by simp [hframes])
  unfold Session.flushDelivered
  by_cases hret : ret = 0
  · subst hret
    exact (h.putBack hframes).kept
  · have hwide : ret.toInt32 ≠ 0 := fun hzero ↦ hret (hanswer hzero)
    have hrests := h.flushed hframes
    simp only [if_neg hret, if_neg hwide]
    split
    · have hcallbacks : ∀ frame ∈ Frame.sentCb :: frames, frame = .sentCb := by
        intro frame hmem
        rcases List.mem_cons.mp hmem with rfl | hrest
        · rfl
        · exact hrests.callbacks frame hrest
      exact ((hrests.waiting (s.waiting.filter (· ≠ packet.sender))).frames hcallbacks).kept
    · exact hrests.flush

theorem Kept.step (h : s.Kept) {c : Input σ} {o : Unit} (hturn : s.InTurn c)
    (hstep : s.step c = .ok (t, o)) : t.Kept := by
  cases c with
  | send sender flags data sentCb =>
    simp only [Session.step] at hstep
    split at hstep
    · cases hstep
    · cases hstep
      exact h.send sender flags data sentCb
  | flush =>
    simp only [Session.step] at hstep
    split at hstep
    case isTrue hnone =>
      cases hstep
      exact (h.rests (List.isEmpty_iff.mp hnone)).flush
    case isFalse => cases hstep
  | delivered ret =>
    simp only [Session.step] at hstep
    split at hstep
    case h_1 packet frames hframes =>
      cases hstep
      exact h.sendDelivered hframes hturn
    case h_2 packet frames hframes =>
      cases hstep
      exact h.flushDelivered hframes hturn
    case h_3 => cases hstep
  | sentCbReturns =>
    simp only [Session.step] at hstep
    split at hstep
    case h_1 frames hframes =>
      cases hstep
      have hnone : s.inDelivery = [] := by simp [inDelivery, hframes]
      exact ((h.rests hnone).frames (h.callbacks_of_frames hframes)).flush
    case h_2 => cases hstep

end Session

theorem kept_start (σ : Type) : (start σ).Kept := by
  refine ⟨List.Perm.refl _, rfl, ?_, List.Pairwise.nil, ?_⟩
  · intro frame hmem
    cases hmem
  · intro packet frames hframes
    cases hframes

/-- In every run of sends and flushes in which each delivery is answered in turn, every packet
is accepted at most once and kept until then, and the packets of each sender are accepted in
the order in which it sent them. -/
theorem packets_in_order [DecidableEq σ] (cs : List (Input σ))
    (h : Attempts Session.step Session.InTurn (start σ) cs) :
    Throughout Session.step Session.Orderly (start σ) cs := by
  have hkept : Throughout Session.step Session.Kept (start σ) cs := by
    apply throughout_of_attempts (kept_start σ) _ h
    intro s c t o _ hs hturn hstep
    exact hs.step hturn hstep
  intro pre t hp hr
  exact (hkept pre t hp hr).orderly

/-- The handler of the first packet gives the queue a second one, which is refused when it is
flushed and accepted after its callback. -/
def answeredInTurn : List (Input Nat) :=
  [.send 0 0 [0] true, .send 1 0 [1] true, .delivered 1, .delivered 0, .send 0 0 [2] true, .delivered 0, .flush,
    .delivered 1, .delivered 1, .sentCbReturns]

theorem packets_in_order_answered : Throughout Session.step Session.Orderly (start Nat) answeredInTurn :=
  packets_in_order answeredInTurn (by decide +kernel)

/-- The sender of the second packet was told that it was sent, and sends another one, which
the handler accepts at once. -/
def overtaking : List (Input Nat) :=
  [.send 0 0 [0] true, .send 1 0 [1] true, .delivered 1, .delivered 0, .send 1 0 [2] true, .delivered 1,
    .delivered 1]

theorem packets_in_order_fails : ¬ Throughout Session.step Session.Orderly (start Nat) overtaking := by
  intro h
  obtain ⟨s, hrun, haccepted⟩ : ∃ s, Run Session.step (start Nat) overtaking s ∧
      ¬ s.accepted.Pairwise NetPacket.Before := exists_run_of_exec (by decide +kernel)
  exact haccepted (h overtaking s (List.prefix_refl _) hrun).inOrder

end IDeviceEmulator.Net
