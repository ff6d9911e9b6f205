import IDeviceEmulator.Library.Masks
import IDeviceEmulator.Uart.Queue

namespace IDeviceEmulator.Uart

open Machine

/-- The flag is stored, and says whether the queue holds a byte. -/
def Ready (u : State) : Prop := u.utrstat &&& trstatusDataReady ≠ 0 ↔ u.rx.contents ≠ []

instance : DecidablePred Ready := fun _ ↦ inferInstanceAs (Decidable (_ ↔ _))

theorem dataReady_iff (x : Word) : x &&& trstatusDataReady ≠ 0 ↔ x.getLsbD 0 = true :=
  Masks.and_twoPow_ne_zero_iff (show 0 < 32 by decide)

theorem contents_eq_nil_iff (q : Queue) : q.contents = [] ↔ q.elemCount = 0 := by
  rw [← List.length_eq_zero_iff, Queue.contents, Circular.length_contents]
  rfl

theorem empty_iff (q : Queue) : q.empty = true ↔ q.contents = [] := by
  rw [contents_eq_nil_iff]
  exact decide_eq_true_iff

theorem ready_set {u : State} {x : Word} (h : u.utrstat = x ||| trstatusDataReady) :
    Ready u ↔ u.rx.contents ≠ [] := by
  have hflag : u.utrstat &&& trstatusDataReady ≠ 0 := by
    rw [dataReady_iff, h, BitVec.getLsbD_or]
    exact Bool.or_true _
  exact iff_true_left hflag

theorem ready_cleared {u : State} {x : Word} (h : u.utrstat = x &&& ~~~trstatusDataReady) :
    Ready u ↔ u.rx.contents = [] := by
  have hflag : ¬u.utrstat &&& trstatusDataReady ≠ 0 := by
    rw [dataReady_iff, h, BitVec.getLsbD_and]
    simp [trstatusDataReady]
  rw [Ready, iff_false_left hflag, not_not]

theorem Ready.congr {u v : State} (h : Ready u) (hflag : v.utrstat.getLsbD 0 = u.utrstat.getLsbD 0)
    (hrx : v.rx = u.rx) : Ready v := by
  rw [Ready, dataReady_iff] at h ⊢
  rw [hflag, hrx]
  exact h

section Flag

variable {u v : State}

theorem utrstat_update (u : State) : (update u).utrstat = u.utrstat := by
  unfold update
  split_ifs <;> rfl

theorem utrstat_triggerLevel (u : State) : (triggerLevel u).utrstat = u.utrstat := by
  unfold triggerLevel
  split_ifs <;> rfl

theorem utrstat_readUfstat (u : State) : (readUfstat u).utrstat = u.utrstat := by
  unfold readUfstat
  dsimp only
  split_ifs <;> rfl

theorem utrstat_mmRead {offset : Nat} {res : Word} (hoffset : offset ≠ 0x24)
    (h : mmRead u offset = .ok (v, res)) : v.utrstat = u.utrstat := by
  unfold mmRead at h
  split at h
  all_goals first | contradiction | cases h
  all_goals first | exact utrstat_readUfstat u | rfl

/-- The write of a character takes the two flags of the transmitter away and sets them again. -/
theorem flag_mmWrite {offset : Nat} {val : Word} {sent : Option Byte} (h : mmWrite u offset val = .ok (v, sent)) :
    v.utrstat.getLsbD 0 = u.utrstat.getLsbD 0 := by
  unfold mmWrite at h
  split at h
  case h_3 =>
    cases h
    unfold writeUfcon
    split_ifs <;> rfl
  case h_7 =>
    cases h
    simp [trstatusTransmitterReady, trstatusBufferEmpty]
  all_goals first | contradiction | cases h
  all_goals rfl

/-- A read of `URXH` keeps the flag in step while the FIFO is on. -/
theorem ready_readUrxh (h : Ready u) (hen : u.rx.contents ≠ [] → Enabled u) : Ready (readUrxh u).1 := by
  unfold readUrxh
  split_ifs with henabled hqueue
  · dsimp only
    split_ifs with hempty
    · exact (ready_cleared rfl).mpr ((empty_iff _).mp hempty)
    · exact (ready_set rfl).mpr fun hnil ↦ hempty ((empty_iff _).mpr hnil)
  · exact h.congr (congrArg (BitVec.getLsbD · 0) (utrstat_update _)) (rx_update _)
  · exact (ready_cleared rfl).mpr (by_contra fun hne ↦ henabled (hen hne))

theorem ready_mmRead {offset : Nat} {res : Word} (h : Ready u) (hen : u.rx.contents ≠ [] → Enabled u)
    (hread : mmRead u offset = .ok (v, res)) : Ready v := by
  by_cases hoffset : offset = 0x24
  · subst hoffset
    have hv : (readUrxh u).1 = v := congrArg Prod.fst (Except.ok.inj hread)
    rw [← hv]
    exact ready_readUrxh h hen
  · exact h.congr (congrArg (BitVec.getLsbD · 0) (utrstat_mmRead hoffset hread)) (rx_mmRead hoffset hread)

/-- The reset of the FIFO leaves the flag as it was. -/
theorem ready_mmWrite_iff {offset : Nat} {val : Word} {sent : Option Byte} (h : Ready u)
    (hwrite : mmWrite u offset val = .ok (v, sent)) :
    Ready v ↔ (offset = 0x08 → val &&& 2 ≠ 0 → u.rx.contents = []) := by
  have hflag := flag_mmWrite hwrite
  by_cases hreset : offset = 0x08 ∧ val &&& 2 ≠ 0
  · obtain ⟨rfl, hval⟩ := hreset
    have hnil : v.rx.contents = [] := by rw [rx_mmWrite_reset hval hwrite, Queue.contents_reset]
    rw [Ready, dataReady_iff] at h
    rw [Ready, dataReady_iff, hflag, h, hnil]
    constructor
    · intro hiff _ _
      exact not_not.mp fun hne ↦ hiff.mp hne rfl
    · intro hkept
      exact iff_of_false (not_not.mpr (hkept rfl hval)) (not_not.mpr rfl)
  · refine iff_of_true (h.congr hflag (rx_mmWrite hreset hwrite)) fun hoffset hval ↦ ?_
    exact absurd ⟨hoffset, hval⟩ hreset

theorem utrstat_receive {buf : List Byte} (hen : Enabled u) (h : receive u buf = .ok v) :
    v.utrstat = u.utrstat ||| trstatusDataReady := by
  rw [receive.eq_def, if_pos hen] at h
  rw [← Except.ok.inj h, utrstat_update, utrstat_triggerLevel]
  split_ifs <;> rfl

/-- A block sets the flag, whether or not a byte of it is queued. -/
theorem ready_receive_iff {buf : List Byte} (hb : u.rx.Bounded) (hen : Enabled u) (h : receive u buf = .ok v) :
    Ready v ↔ u.rx.contents ≠ [] ∨ buf ≠ [] ∧ u.rx.room ≠ 0 := by
  have hempty := hb.emptyCount
  rw [ready_set (utrstat_receive hen h), rx_receive hen h]
  split_ifs with hover
  · have hbuf : buf ≠ [] := by
      rintro rfl
      rw [List.length_nil] at hover
      omega
    rw [(pushOverflow_spec buf hb).2, ne_eq, List.append_eq_nil_iff, List.take_eq_nil_iff]
    have hhalf : (u.rx.room - 0 + 1) / 2 = 0 ↔ u.rx.room = 0 := by omega
    rw [hhalf]
    tauto
  · have hfits : buf.length ≤ u.rx.room := by omega
    have hroom : buf ≠ [] → u.rx.room ≠ 0 := fun hbuf ↦ by
      have hlength := List.length_pos_iff.mpr hbuf
      omega
    rw [(foldl_push hb hfits).2, ne_eq, List.append_eq_nil_iff]
    tauto

end Flag

section Runs

/-- No block arrives in the first part of the run, and the FIFO is on from then on. -/
structure FifoOn (s : Session) (pre post : List Op) : Prop where
  quiet : ∀ buf, .receive buf ∉ pre
  on : ∀ t, Run step s pre t → Throughout step (fun t ↦ Enabled t.uart) t post

/-- The FIFO is not reset while it holds bytes, and a block that finds the queue empty brings a
byte for which there is room. -/
def Session.Kept (s : Session) : Op → Prop
  | .receive buf => s.uart.rx.contents ≠ [] ∨ buf ≠ [] ∧ s.uart.rx.room ≠ 0
  | .write offset val => offset = 0x08 → val &&& 2 ≠ 0 → s.uart.rx.contents = []
  | _ => True

instance (s : Session) : (op : Op) → Decidable (s.Kept op)
  | .receive _ => inferInstanceAs (Decidable (_ ∨ _ ∧ _))
  | .write _ _ => inferInstanceAs (Decidable (_ → _ → _))
  | .read _ => isTrue trivial
  | .reset => isTrue trivial

variable {s t : Session} {op : Op} {o : Unit}

theorem uart_write {offset : Nat} {val : Word} (hs : step s (.write offset val) = .ok (t, o)) :
    ∃ u sent, mmWrite s.uart offset val = .ok (u, sent) ∧ t.uart = u := by
  obtain ⟨⟨u, sent⟩, hwrite, ht⟩ := ok_of_map hs
  refine ⟨u, sent, hwrite, ?_⟩
  cases ht
  dsimp only
  split_ifs <;> rfl

theorem ready_reset (u : State) : Ready (reset u) := by
  have hflag : ¬(0x6 : Word) &&& trstatusDataReady ≠ 0 := by decide
  exact iff_of_false hflag (not_not.mpr (Queue.contents_reset _))

/-- Only a block fills the queue. -/
theorem contents_step (h : s.uart.rx.contents = []) (hop : ∀ buf, op ≠ .receive buf)
    (hs : step s op = .ok (t, o)) : t.uart.rx.contents = [] := by
  cases op with
  | receive buf => exact absurd rfl (hop buf)
  | read offset =>
    obtain ⟨r, hread, ht⟩ := ok_of_map hs
    cases ht
    have hrx : r.1.rx = s.uart.rx := by
      by_cases hoffset : offset = 0x24
      · subst hoffset
        cases hread
        exact rx_readUrxh_of_empty fun _ ↦ (contents_eq_nil_iff _).mp h
      · exact rx_mmRead hoffset hread
    exact (congrArg Queue.contents hrx).trans h
  | write offset val =>
    obtain ⟨u, sent, hwrite, huart⟩ := uart_write hs
    rw [huart]
    by_cases hreset : offset = 0x08 ∧ val &&& 2 ≠ 0
    · obtain ⟨rfl, hval⟩ := hreset
      rw [rx_mmWrite_reset hval hwrite, Queue.contents_reset]
    · rw [rx_mmWrite hreset hwrite]
      exact h
  | reset =>
    cases hs
    exact Queue.contents_reset _

theorem ready_step_iff (hb : s.uart.rx.Bounded) (h : Ready s.uart) (hen : s.uart.rx.contents ≠ [] → Enabled s.uart)
    (hreceive : ∀ buf, op = .receive buf → Enabled s.uart) (hs : step s op = .ok (t, o)) :
    Ready t.uart ↔ s.Kept op := by
  cases op with
  | receive buf =>
    obtain ⟨u, hu, ht⟩ := ok_of_map hs
    cases ht
    exact ready_receive_iff hb (hreceive buf rfl) hu
  | read offset =>
    obtain ⟨r, hread, ht⟩ := ok_of_map hs
    cases ht
    exact iff_of_true (ready_mmRead h hen hread) trivial
  | write offset val =>
    obtain ⟨u, sent, hwrite, huart⟩ := uart_write hs
    rw [huart]
    exact ready_mmWrite_iff h hwrite
  | reset =>
    cases hs
    exact iff_of_true (ready_reset s.uart) trivial

/-- The FIFO is on in every state of the run in which the queue holds a byte or a block arrives. -/
theorem enabled_of_fifoOn {pre post as : List Op} (hnil : s.uart.rx.contents = []) (h : FifoOn s pre post)
    (hp : as ++ [op] <+: pre ++ post) (hr : Run step s as t) :
    Enabled t.uart ∨ t.uart.rx.contents = [] ∧ ∀ buf, op ≠ .receive buf := by
  by_cases hbefore : (as ++ [op]).length ≤ pre.length
  · have hpre : as ++ [op] <+: pre :=
      List.prefix_of_prefix_length_le hp (List.prefix_append pre post) hbefore
    refine .inr ⟨?_, fun buf hop ↦ h.quiet buf (hpre.subset (by simp [hop]))⟩
    refine hr.invariant hnil fun s a t o ha hs ht ↦ contents_step hs (fun buf hop ↦ ?_) ht
    exact h.quiet buf (hpre.subset (by simp [← hop, ha]))
  · left
    rw [List.length_append, List.length_singleton] at hbefore
    have has : as <+: pre ++ post := (List.prefix_append as [op]).trans hp
    obtain ⟨more, rfl⟩ := List.prefix_of_prefix_length_le (List.prefix_append pre post) has (by omega)
    obtain ⟨t₀, hpre, hmore⟩ := hr.split
    exact h.on t₀ hpre more t ((List.prefix_append_right_inj pre).mp has) hmore

/-- The flag is in step throughout a run exactly if no write resets a FIFO that holds bytes, and no
block leaves an empty queue empty. -/
theorem ready_throughout_iff (u : State) {pre post : List Op} (h : FifoOn ⟨reset u, [], []⟩ pre post) :
    Throughout step (fun s ↦ Ready s.uart) ⟨reset u, [], []⟩ (pre ++ post) ↔
      Attempts step Session.Kept ⟨reset u, [], []⟩ (pre ++ post) := by
  have hnil : (reset u).rx.contents = [] := Queue.contents_reset _
  refine throughout_iff_attempts_along (ready_reset u) (fun as op s t o hp hr hs ht ↦ ?_) fun as op s hp hr hdone ↦ ?_
  · have hb : s.uart.rx.Bounded := hr.invariant (Queue.bounded_reset _) fun _ _ _ _ _ hs ht ↦ bounded_step hs ht
    rcases enabled_of_fifoOn hnil h hp hr with hen | ⟨hempty, hop⟩
    · exact ready_step_iff hb hs (fun _ ↦ hen) (fun _ _ ↦ hen) ht
    · exact ready_step_iff hb hs (fun hne ↦ absurd hempty hne) (fun buf heq ↦ absurd heq (hop buf)) ht
  · rcases enabled_of_fifoOn hnil h hp hr with hen | ⟨hempty, hop⟩
    · cases op with
      | receive buf =>
        obtain ⟨v, hv⟩ := exists_receive hen buf
        exact hdone _ _ (congrArg (Except.map _) hv)
      | read offset => trivial
      | write offset val =>
        intro hoffset
        subst hoffset
        exact hdone _ _ rfl rfl
      | reset => trivial
    · cases op with
      | receive buf => exact absurd rfl (hop buf)
      | read offset => trivial
      | write offset val => exact fun _ _ ↦ hempty
      | reset => trivial

/-- The FIFO is switched on, takes a byte, and gives it back. -/
theorem ready_echo : Throughout step (fun s ↦ Ready s.uart) ⟨reset (init boardSize), [], []⟩
    ([.write 0x08 1] ++ [.receive [65], .read 0x24]) := by
  refine (ready_throughout_iff (init boardSize) ⟨by simp, fun t ht ↦ ?_⟩).mpr (by decide +kernel)
  cases ht.deterministic (.one rfl)
  decide +kernel

/-- The byte that is waiting is dropped by a reset of the FIFO, and the flag stays. -/
theorem ready_fails : FifoOn ⟨reset (init boardSize), [], []⟩ [.write 0x08 1] [.receive [65], .write 0x08 3] ∧
    ¬Throughout step (fun s ↦ Ready s.uart) ⟨reset (init boardSize), [], []⟩
      ([.write 0x08 1] ++ [.receive [65], .write 0x08 3]) := by
  refine ⟨⟨by simp, fun t ht ↦ ?_⟩, by decide +kernel⟩
  cases ht.deterministic (.one rfl)
  decide +kernel

end Runs

end IDeviceEmulator.Uart
