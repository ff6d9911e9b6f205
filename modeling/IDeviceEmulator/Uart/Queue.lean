import IDeviceEmulator.Library.Machine
import IDeviceEmulator.Uart.Device

namespace IDeviceEmulator.Uart

open Machine

def Queue.contents (q : Queue) : List Byte := q.ring.contents

def Queue.room (q : Queue) : Nat := q.emptyCount.toNat

/-- The count never exceeds the size less one. -/
def Queue.Bounded (q : Queue) : Prop := q.elemCount ≤ q.size - 1

instance (q : Queue) : Decidable q.Bounded := inferInstanceAs (Decidable (_ ≤ _))

/-- The queue takes the first bytes of a block, as many as it has room for. -/
def Queue.accepts (q : Queue) (buf : List Byte) : List Byte := buf.take (min buf.length q.room)

section Queue

variable {q : Queue}

theorem Queue.Bounded.emptyCount (h : q.Bounded) : q.emptyCount = q.room := by
  have hpos := q.size_pos
  unfold Queue.Bounded at h
  unfold Queue.room Queue.emptyCount
  omega

theorem Queue.Bounded.size (h : q.Bounded) : q.size = q.elemCount + q.room + 1 := by
  have hempty := h.emptyCount
  unfold Queue.emptyCount at hempty
  omega

theorem Queue.contents_reset (q : Queue) : q.reset.contents = [] := q.ring.contents_clear

theorem Queue.bounded_reset (q : Queue) : q.reset.Bounded := by
  have hcount : q.reset.elemCount = 0 := q.ring.count_clear
  unfold Queue.Bounded
  omega

theorem Queue.bounded_push (x : Byte) (h : q.elemCount + 1 < q.size) : (q.push x).Bounded := by
  have hle := q.size_le
  have hcount : (q.push x).elemCount = q.elemCount + 1 :=
    Circular.count_push x (show q.elemCount + 1 < queueSize by omega)
  have hsize : (q.push x).size = q.size := rfl
  unfold Queue.Bounded
  omega

theorem Queue.room_push (x : Byte) (h : q.elemCount + 1 < q.size) : (q.push x).room = q.room - 1 := by
  have hle := q.size_le
  have hcount : (q.push x).elemCount = q.elemCount + 1 :=
    Circular.count_push x (show q.elemCount + 1 < queueSize by omega)
  have hsize : (q.push x).size = q.size := rfl
  unfold Queue.room Queue.emptyCount
  omega

theorem Queue.contents_push (x : Byte) (h : q.elemCount + 1 < q.size) :
    (q.push x).contents = q.contents ++ [x] :=
  Circular.contents_push x (show q.elemCount + 1 < queueSize from h.trans_le q.size_le)

theorem Queue.bounded_get (h : q.Bounded) (hne : q.elemCount ≠ 0) : q.get.1.Bounded := by
  have hcount : q.get.1.elemCount = q.elemCount - 1 := Circular.count_get hne
  have hsize : q.get.1.size = q.size := rfl
  unfold Queue.Bounded at h ⊢
  omega

theorem Queue.contents_get (hne : q.elemCount ≠ 0) : q.contents = q.get.2 :: q.get.1.contents :=
  Circular.contents_get hne

/-- A block that fits is appended as a whole. -/
theorem foldl_push {buf : List Byte} (h : q.Bounded) (hfits : buf.length ≤ q.room) :
    (buf.foldl Queue.push q).Bounded ∧ (buf.foldl Queue.push q).contents = q.contents ++ buf := by
  induction buf generalizing q with
  | nil => exact ⟨h, (List.append_nil _).symm⟩
  | cons b buf ih =>
    have hsize := h.size
    rw [List.length_cons] at hfits
    have hroom := Queue.room_push b (show q.elemCount + 1 < q.size by omega)
    obtain ⟨hbounded, hcontents⟩ :=
      ih (Queue.bounded_push b (show q.elemCount + 1 < q.size by omega)) (by omega)
    refine ⟨hbounded, ?_⟩
    rw [List.foldl_cons, hcontents, Queue.contents_push b (by omega), List.append_assoc]
    rfl

/-- The bound of the loop falls while its counter rises, so that only half of the room is used. -/
theorem pushOverflow_spec (buf : List Byte) {i : Nat} (h : q.Bounded) :
    (pushOverflow q i buf).Bounded ∧
      (pushOverflow q i buf).contents = q.contents ++ buf.take ((q.room - i + 1) / 2) := by
  induction buf generalizing q i with
  | nil => exact ⟨h, by rw [List.take_nil, List.append_nil]; rfl⟩
  | cons b buf ih =>
    have hsize := h.size
    have hempty := h.emptyCount
    rw [pushOverflow]
    split_ifs with hlt
    · have hfree : q.elemCount + 1 < q.size := by omega
      have hroom := Queue.room_push b hfree
      obtain ⟨hbounded, hcontents⟩ := ih (i := i + 1) (Queue.bounded_push b hfree)
      have hhalf : (q.room - i + 1) / 2 = ((q.push b).room - (i + 1) + 1) / 2 + 1 := by omega
      refine ⟨hbounded, ?_⟩
      rw [hcontents, Queue.contents_push b hfree, hhalf, List.take_succ_cons, List.append_assoc]
      rfl
    · have hnone : (q.room - i + 1) / 2 = 0 := by omega
      rw [hnone, List.take_zero, List.append_nil]
      exact ⟨h, rfl⟩

end Queue

abbrev Enabled (u : State) : Prop := u.ufcon &&& 1 ≠ 0

theorem rx_update (u : State) : (update u).rx = u.rx := by
  unfold update
  split_ifs <;> rfl

theorem rx_triggerLevel (u : State) : (triggerLevel u).rx = u.rx := by
  unfold triggerLevel
  split_ifs <;> rfl

theorem rx_readUfstat (u : State) : (readUfstat u).rx = u.rx := by
  unfold readUfstat
  dsimp only
  split_ifs <;> rfl

/-- The block fits, or there is no room for two bytes. -/
def Fits (q : Queue) (buf : List Byte) : Prop := buf.length ≤ q.room ∨ q.room ≤ 1

instance (q : Queue) (buf : List Byte) : Decidable (Fits q buf) := inferInstanceAs (Decidable (_ ∨ _))

section Receive

variable {u v : State} {buf : List Byte}

theorem exists_receive (hen : Enabled u) (buf : List Byte) : ∃ v, receive u buf = .ok v :=
  ⟨_, if_pos hen⟩

theorem rx_receive (hen : Enabled u) (h : receive u buf = .ok v) :
    v.rx = if u.rx.emptyCount < buf.length then pushOverflow u.rx 0 buf else buf.foldl Queue.push u.rx := by
  rw [receive.eq_def, if_pos hen] at h
  rw [← Except.ok.inj h, rx_update, rx_triggerLevel]
  split_ifs <;> rfl

/-- A character device that asks first stays within the room. -/
theorem fits_of_canReceive (h : (buf.length : Int) ≤ canReceive u) : Fits u.rx buf := by
  refine .inl ?_
  unfold Queue.room
  rw [canReceive] at h
  omega

theorem rx_receive_disabled (hen : ¬ Enabled u) (h : receive u buf = .ok v) : v.rx = u.rx := by
  rw [receive.eq_def, if_neg hen] at h
  cases buf with
  | nil => cases h
  | cons b buf =>
    cases h
    rw [rx_update]

theorem bounded_receive (hb : u.rx.Bounded) (hen : Enabled u) (h : receive u buf = .ok v) : v.rx.Bounded := by
  rw [rx_receive hen h]
  split_ifs with hover
  · exact (pushOverflow_spec buf hb).1
  · have hempty := hb.emptyCount
    exact (foldl_push hb (by omega)).1

theorem receive_contents_iff (hb : u.rx.Bounded) (hen : Enabled u) (h : receive u buf = .ok v) :
    v.rx.contents = u.rx.contents ++ u.rx.accepts buf ↔ Fits u.rx buf := by
  have hempty := hb.emptyCount
  rw [rx_receive hen h, Queue.accepts]
  split_ifs with hover
  · rw [(pushOverflow_spec buf hb).2, List.append_cancel_left_eq]
    have hmin : min buf.length u.rx.room = u.rx.room := by omega
    rw [hmin, Nat.sub_zero]
    constructor
    · intro heq
      have hlength := congrArg List.length heq
      rw [List.length_take, List.length_take] at hlength
      right
      omega
    · intro hfits
      have hroom : u.rx.room ≤ 1 := hfits.resolve_left (by omega)
      rw [show (u.rx.room + 1) / 2 = u.rx.room by omega]
  · have hfits : buf.length ≤ u.rx.room := by omega
    rw [(foldl_push hb hfits).2, Nat.min_eq_left hfits, List.take_length]
    exact iff_of_true rfl (.inl hfits)

end Receive

section Urxh

variable {u : State}

theorem rx_readUrxh (hen : Enabled u) (hne : u.rx.elemCount ≠ 0) :
    (readUrxh u).1.rx = u.rx.get.1 ∧ (readUrxh u).2.setWidth 8 = u.rx.get.2 := by
  have hqueue : (!u.rx.empty) = true := by simp [Queue.empty, hne]
  rw [readUrxh, if_pos hen, if_pos hqueue]
  dsimp only
  refine ⟨?_, ?_⟩
  · split_ifs <;> rfl
  · exact BitVec.setWidth_setWidth_of_le _ (by decide)

theorem rx_readUrxh_of_empty (h : Enabled u → u.rx.elemCount = 0) : (readUrxh u).1.rx = u.rx := by
  unfold readUrxh
  split_ifs with hen hqueue
  · simp [Queue.empty, h hen] at hqueue
  · exact rx_update _
  · rfl

theorem rx_mmRead {v : State} {offset : Nat} {res : Word} (hoffset : offset ≠ 0x24)
    (h : mmRead u offset = .ok (v, res)) : v.rx = u.rx := by
  unfold mmRead at h
  split at h
  all_goals first | contradiction | cases h
  all_goals first | exact rx_readUfstat u | rfl

end Urxh

theorem rx_mmWrite {u v : State} {offset : Nat} {val : Word} {o : Option Byte}
    (hkeep : ¬ (offset = 0x08 ∧ val &&& 2 ≠ 0)) (h : mmWrite u offset val = .ok (v, o)) : v.rx = u.rx := by
  unfold mmWrite at h
  split at h
  case h_3 =>
    cases h
    have hval : ¬ val &&& 2 ≠ 0 := fun hval ↦ hkeep ⟨rfl, hval⟩
    rw [writeUfcon, if_neg hval]
  all_goals first | contradiction | cases h
  all_goals rfl

theorem rx_mmWrite_reset {u v : State} {val : Word} {o : Option Byte} (hval : val &&& 2 ≠ 0)
    (h : mmWrite u 0x08 val = .ok (v, o)) : v.rx = u.rx.reset := by
  cases h
  rw [writeUfcon, if_pos hval]

section Runs

inductive Op
  | receive (buf : List Byte)
  | read (offset : Nat)
  | write (offset : Nat) (val : Word)
  | reset

/-- A UART with the bytes that its queue took since the last reset, and those that reads of
`URXH` took from it. -/
structure Session where
  uart : State
  accepted : List Byte := []
  returned : List Byte := []

def step (s : Session) : Op → Except Fault (Session × Unit)
  | .receive buf =>
    (receive s.uart buf).map fun uart ↦
      ({ s with uart, accepted := s.accepted ++ if Enabled s.uart then s.uart.rx.accepts buf else [] }, ())
  | .read offset =>
    (mmRead s.uart offset).map fun r ↦
      ({ s with
        uart := r.1
        returned := s.returned ++
          if offset = 0x24 ∧ Enabled s.uart ∧ s.uart.rx.elemCount ≠ 0 then [r.2.setWidth 8] else [] }, ())
  | .write offset val =>
    (mmWrite s.uart offset val).map fun r ↦
      (if offset = 0x08 ∧ val &&& 2 ≠ 0 then ⟨r.1, [], []⟩ else { s with uart := r.1 }, ())
  | .reset => .ok (⟨reset s.uart, [], []⟩, ())

/-- What was returned and what is still queued are the accepted bytes in order. -/
structure InOrder (s : Session) : Prop where
  order : s.returned ++ s.uart.rx.contents = s.accepted
  bounded : s.uart.rx.Bounded

def Session.Fits (s : Session) : Op → Prop
  | .receive buf => Enabled s.uart → Uart.Fits s.uart.rx buf
  | _ => True

variable {s t : Session} {op : Op} {o : Unit}

theorem inOrder_empty {u : State} (q : Queue) (h : u.rx = q.reset) : InOrder ⟨u, [], []⟩ := by
  refine ⟨?_, ?_⟩
  · rw [h, Queue.contents_reset]
    rfl
  · rw [h]
    exact q.bounded_reset

theorem InOrder.congr {u : State} (h : InOrder s) (hrx : u.rx = s.uart.rx) : InOrder { s with uart := u } := by
  refine ⟨?_, ?_⟩
  · rw [hrx]
    exact h.order
  · rw [hrx]
    exact h.bounded

theorem inOrder_get (h : InOrder s) (hen : Enabled s.uart) (hne : s.uart.rx.elemCount ≠ 0) :
    InOrder { s with
      uart := (readUrxh s.uart).1
      returned := s.returned ++ [(readUrxh s.uart).2.setWidth 8] } := by
  obtain ⟨hrx, hres⟩ := rx_readUrxh hen hne
  have horder := h.order
  rw [Queue.contents_get hne] at horder
  refine ⟨?_, ?_⟩
  · rw [hrx, hres, List.append_assoc]
    exact horder
  · rw [hrx]
    exact Queue.bounded_get h.bounded hne

theorem inOrder_read {offset : Nat} (h : InOrder s) (hs : step s (.read offset) = .ok (t, o)) : InOrder t := by
  obtain ⟨r, hread, ht⟩ := ok_of_map hs
  cases ht
  by_cases hoffset : offset = 0x24
  · subst hoffset
    have hr : r = readUrxh s.uart := (Except.ok.inj hread).symm
    subst hr
    by_cases hget : Enabled s.uart ∧ s.uart.rx.elemCount ≠ 0
    · rw [if_pos ⟨rfl, hget⟩]
      exact inOrder_get h hget.1 hget.2
    · rw [if_neg fun hall ↦ hget hall.2, List.append_nil]
      exact h.congr (rx_readUrxh_of_empty fun hen ↦ by_contra fun hne ↦ hget ⟨hen, hne⟩)
  · rw [if_neg fun hall ↦ hoffset hall.1, List.append_nil]
    exact h.congr (rx_mmRead hoffset hread)

theorem inOrder_write {offset : Nat} {val : Word} (h : InOrder s)
    (hs : step s (.write offset val) = .ok (t, o)) : InOrder t := by
  obtain ⟨⟨u, sent⟩, hwrite, ht⟩ := ok_of_map hs
  cases ht
  dsimp only
  split_ifs with hreset
  · obtain ⟨rfl, hval⟩ := hreset
    exact inOrder_empty _ (rx_mmWrite_reset hval hwrite)
  · exact h.congr (rx_mmWrite hreset hwrite)

theorem inOrder_receive_iff {buf : List Byte} (h : InOrder s) (hs : step s (.receive buf) = .ok (t, o)) :
    InOrder t ↔ s.Fits (.receive buf) := by
  obtain ⟨u, hreceive, ht⟩ := ok_of_map hs
  cases ht
  by_cases hen : Enabled s.uart
  · have hbounded := bounded_receive h.bounded hen hreceive
    have hcontents := receive_contents_iff h.bounded hen hreceive
    rw [if_pos hen]
    constructor
    · intro ht _
      have horder : s.returned ++ u.rx.contents = s.accepted ++ s.uart.rx.accepts buf := ht.order
      rw [← h.order, List.append_assoc, List.append_cancel_left_eq] at horder
      exact hcontents.mp horder
    · intro hfits
      refine ⟨?_, hbounded⟩
      rw [hcontents.mpr (hfits hen), ← h.order, List.append_assoc]
  · rw [if_neg hen, List.append_nil]
    exact iff_of_true (h.congr (rx_receive_disabled hen hreceive)) fun hen' ↦ absurd hen' hen

theorem inOrder_step_iff (h : InOrder s) (hs : step s op = .ok (t, o)) : InOrder t ↔ s.Fits op := by
  cases op with
  | receive buf => exact inOrder_receive_iff h hs
  | read offset => exact iff_of_true (inOrder_read h hs) trivial
  | write offset val => exact iff_of_true (inOrder_write h hs) trivial
  | reset =>
    cases hs
    exact iff_of_true (inOrder_empty _ rfl) trivial

/-- The bound on the count holds of every run, whatever blocks arrive. -/
theorem bounded_step (h : s.uart.rx.Bounded) (hs : step s op = .ok (t, o)) : t.uart.rx.Bounded := by
  have hstart : InOrder ⟨s.uart, s.uart.rx.contents, []⟩ := ⟨rfl, h⟩
  cases op with
  | receive buf =>
    obtain ⟨u, hreceive, ht⟩ := ok_of_map hs
    cases ht
    by_cases hen : Enabled s.uart
    · exact bounded_receive h hen hreceive
    · exact (hstart.congr (rx_receive_disabled hen hreceive)).bounded
  | read offset =>
    obtain ⟨r, hread, ht⟩ := ok_of_map hs
    cases ht
    have hstep : step ⟨s.uart, s.uart.rx.contents, []⟩ (.read offset) = .ok _ := congrArg (Except.map _) hread
    exact (inOrder_read hstart hstep).bounded
  | write offset val =>
    obtain ⟨r, hwrite, ht⟩ := ok_of_map hs
    cases ht
    have hstep : step ⟨s.uart, s.uart.rx.contents, []⟩ (.write offset val) = .ok _ := congrArg (Except.map _) hwrite
    have hbounded := (inOrder_write hstart hstep).bounded
    split_ifs at hbounded ⊢
    · exact hbounded
    · exact hbounded
  | reset =>
    cases hs
    exact Queue.bounded_reset _

end Runs

section Boards

variable (size : Set.Icc 1 queueSize)

def start : Session := { uart := init size }

theorem inOrder_start : InOrder (start size) := inOrder_empty (init size).rx rfl

theorem bounded_run {ops : List Op} {s : Session} (h : Run step (start size) ops s) : s.uart.rx.Bounded :=
  h.invariant (inOrder_start size).bounded fun _ _ _ _ _ hs ht ↦ bounded_step hs ht

/-- A block is queued as far as there is room exactly if it fits or there is room for at most
one byte, and a run keeps the bytes in order exactly if all its blocks are such. -/
theorem queue_iff :
    (∀ ops s, Run step (start size) ops s → Enabled s.uart → ∀ buf, ∃ u, receive s.uart buf = .ok u ∧
      (u.rx.contents = s.uart.rx.contents ++ s.uart.rx.accepts buf ↔ Fits s.uart.rx buf)) ∧
      ∀ ops, Throughout step InOrder (start size) ops ↔ Attempts step Session.Fits (start size) ops := by
  refine ⟨fun ops s hr hen buf ↦ ?_, fun ops ↦ ?_⟩
  · obtain ⟨u, hu⟩ := exists_receive hen buf
    exact ⟨u, hu, receive_contents_iff (bounded_run size hr) hen hu⟩
  · refine throughout_iff_attempts (inOrder_start size) (fun s op t o _ hs ht ↦ inOrder_step_iff hs ht) ?_
    intro s op hdone
    cases op with
    | receive buf =>
      intro hen
      obtain ⟨u, hu⟩ := exists_receive hen buf
      exact hdone _ _ (congrArg (Except.map _) hu) hen
    | read offset => trivial
    | write offset val => trivial
    | reset => trivial

end Boards

def boardSize : Set.Icc 1 queueSize := ⟨256, by decide, by decide⟩

/-- The queue of the boards with its FIFO on. -/
def enabled : Session := { uart := writeUfcon (init boardSize) 1 }

theorem run_enabled : Run step (start boardSize) [.write 0x08 1] enabled := .one rfl

theorem queue_fit : ∃ u, receive enabled.uart [1, 2, 3] = .ok u ∧
    u.rx.contents = enabled.uart.rx.contents ++ enabled.uart.rx.accepts [1, 2, 3] := by
  obtain ⟨u, hu, hiff⟩ := (queue_iff boardSize).1 _ _ run_enabled (by decide) [1, 2, 3]
  exact ⟨u, hu, hiff.mpr (by decide)⟩

/-- One byte more than the 255 for which there is room: only 128 of them are queued. -/
theorem queue_fails : ∃ u, receive enabled.uart (List.replicate 256 7) = .ok u ∧
    u.rx.contents ≠ enabled.uart.rx.contents ++ enabled.uart.rx.accepts (List.replicate 256 7) := by
  obtain ⟨u, hu⟩ := exists_receive (u := enabled.uart) (by decide) (List.replicate 256 7)
  refine ⟨u, hu, fun heq ↦ ?_⟩
  have hfits := (receive_contents_iff (bounded_run _ run_enabled) (by decide) hu).mp heq
  have hroom : enabled.uart.rx.room = 255 := rfl
  rcases hfits with hlength | hone
  · rw [List.length_replicate] at hlength
    omega
  · omega

end IDeviceEmulator.Uart
