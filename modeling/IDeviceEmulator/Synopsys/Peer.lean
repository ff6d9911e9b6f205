import IDeviceEmulator.Synopsys.Device

namespace IDeviceEmulator.Synopsys

open TcpUsb

/-- No access goes outside its object. The emulator may still be ended by `hw_error`. -/
def InBounds {α : Type} (r : Except Fault α) : Prop := ∀ fault, r = .error fault → fault = .hwError

/-- The FIFO of an endpoint has no room, or is one that `hw_error` rejects. -/
def FifoClosed (s : Device) (e : EpState) : Direction → Prop
  | .dirIn => ∀ fifo : Fin 16, e.fifo.toNat = fifo →
      txFifoSize s fifo = 0 ∨ fifosSize < txFifoStart s fifo + txFifoSize s fifo
  | .dirOut => s.grxfsiz.toNat = 0 ∨ fifosSize < s.grxfsiz.toNat

/-- A token that finds nothing to transfer. -/
def MovesNothing (s : Device) (dir : Direction) (e : EpState) : Prop :=
  e.control &&& epconStall ≠ 0 ∨ e.control &&& epconEnable = 0 ∨ xferSize e = 0 ∨
    FifoClosed s e dir

/-- A request that resets the device, or one for an existing endpoint whose length is not
negative or that finds nothing to transfer. -/
def PeerSafe (s : Device) (h : Header) : Prop :=
  h.flags &&& 2 ≠ 0 ∨ ∃ i : Fin numEndpoints, (h.ep &&& 0x7f).toNat = i ∧
    (0 ≤ h.length.toInt ∨ MovesNothing s (directionOf h) (s.eps (directionOf h) i))

section Bounds

variable {α β : Type}

theorem inBounds_ok (a : α) : InBounds (.ok a : Except Fault α) := fun _ h ↦ nomatch h

theorem inBounds_error (fault : Fault) : InBounds (.error fault : Except Fault α) ↔ fault = .hwError := by
  constructor
  · exact fun h ↦ h fault rfl
  · rintro rfl fault h
    exact (Except.error.inj h).symm

theorem inBounds_bind_ok (x : Except Fault α) (f : α → β) :
    InBounds (x >>= fun a ↦ (.ok (f a) : Except Fault β)) ↔ InBounds x := by
  cases x with
  | error fault => exact (inBounds_error fault).trans (inBounds_error fault).symm
  | ok a => exact iff_of_true (inBounds_ok _) (inBounds_ok a)

theorem copyToPeer_inBounds (buffer bytes : List Byte) :
    InBounds (copyToPeer buffer bytes) ↔ bytes.length ≤ buffer.length := by
  unfold copyToPeer
  split_ifs with hlen
  · rw [inBounds_error]
    exact iff_of_false (by decide) (by omega)
  · exact iff_of_true (inBounds_ok _) (by omega)

theorem copyFromPeer_inBounds (buffer : List Byte) (n : Nat) :
    InBounds (copyFromPeer buffer n) ↔ n ≤ buffer.length := by
  unfold copyFromPeer
  split_ifs with hlen
  · rw [inBounds_error]
    exact iff_of_false (by decide) (by omega)
  · exact iff_of_true (inBounds_ok _) (by omega)

end Bounds

section Transfers

variable (s : Device) (i : Fin numEndpoints) (h : Header) (buffer : List Byte)

/-- The number of bytes an IN transfer moves through a FIFO. -/
def inAmount (fifo : Fin 16) : Nat := min (min (xferSize (s.eps .dirIn i)) (lengthSize h)) (txFifoSize s fifo)

def outAmount : Nat := min (min (xferSize (s.eps .dirOut i)) (lengthSize h)) s.grxfsiz.toNat

theorem storeFifos_ok (fifos bytes : Nat → Byte) {start n : Nat} (hfits : start + n ≤ fifosSize) :
    ∃ fifos', storeFifos fifos start n bytes = .ok fifos' := by
  rw [storeFifos, if_neg (by omega)]
  exact ⟨_, rfl⟩

theorem loadFifos_ok (fifos : Nat → Byte) {start n : Nat} (hfits : start + n ≤ fifosSize) :
    ∃ bytes : List Byte, loadFifos fifos start n = .ok bytes ∧ bytes.length = n := by
  rw [loadFifos, if_neg (by omega)]
  exact ⟨_, rfl, by simp⟩

theorem fillFifo_ok (e : EpState) {start done : Nat} (hfits : start + done ≤ fifosSize) :
    ∃ fifos, fillFifo s e start done = .ok fifos := by
  unfold fillFifo
  split_ifs
  · exact storeFifos_ok _ _ hfits
  · exact ⟨_, rfl⟩

theorem sendToPeer_inBounds (fifos : Nat → Byte) {start done : Nat} (hfits : start + done ≤ fifosSize) :
    InBounds (sendToPeer fifos start done buffer) ↔ done ≤ buffer.length := by
  unfold sendToPeer
  split_ifs with hdone
  · obtain ⟨bytes, hbytes, hlen⟩ := loadFifos_ok fifos hfits
    rw [hbytes, ← hlen]
    exact copyToPeer_inBounds buffer bytes
  · exact iff_of_true (inBounds_ok _) (by omega)

theorem takeFromPeer_inBounds {done : Nat} (hfits : done ≤ fifosSize) :
    InBounds (takeFromPeer s done buffer) ↔ done ≤ buffer.length := by
  unfold takeFromPeer
  split_ifs with hdone
  · rw [← copyFromPeer_inBounds]
    cases hcopy : copyFromPeer buffer done with
    | error fault => exact (inBounds_error fault).trans (inBounds_error fault).symm
    | ok bytes =>
      have hroom : 0 + done ≤ fifosSize := by omega
      obtain ⟨fifos, hfifos⟩ := storeFifos_ok s.fifos (fun k ↦ bytes.getD k 0) hroom
      refine iff_of_true ?_ (inBounds_ok bytes)
      change InBounds (storeFifos s.fifos 0 done fun k ↦ bytes.getD k 0)
      rw [hfifos]
      exact inBounds_ok fifos
  · exact iff_of_true (inBounds_ok _) (by omega)

theorem inTransfer_inBounds :
    InBounds (inTransfer s i h buffer) ↔
      ∀ fifo : Fin 16, (s.eps .dirIn i).fifo.toNat = fifo →
        fifosSize < txFifoStart s fifo + txFifoSize s fifo ∨ inAmount s i h fifo ≤ buffer.length := by
  unfold inTransfer existingFifo
  dsimp only
  by_cases hfifo : (s.eps .dirIn i).fifo.toNat < 16
  · rw [dif_pos hfifo]
    have hone (p : Fin 16 → Prop) : (∀ fifo : Fin 16, (s.eps .dirIn i).fifo.toNat = fifo → p fifo) ↔ p ⟨_, hfifo⟩ := by
      constructor
      · exact fun hp ↦ hp ⟨_, hfifo⟩ rfl
      · rintro hp fifo hfifo'
        exact (Fin.ext hfifo' : ⟨_, hfifo⟩ = fifo) ▸ hp
    rw [hone]
    generalize (⟨_, hfifo⟩ : Fin 16) = fifo
    change InBounds (if fifosSize < txFifoStart s fifo + txFifoSize s fifo then _ else _) ↔ _
    by_cases hover : fifosSize < txFifoStart s fifo + txFifoSize s fifo
    · rw [if_pos hover]
      exact iff_of_true ((inBounds_error _).mpr rfl) (.inl hover)
    · rw [if_neg hover, or_iff_right hover]
      have hfits : txFifoStart s fifo + inAmount s i h fifo ≤ fifosSize := by
        have hle : inAmount s i h fifo ≤ txFifoSize s fifo := Nat.min_le_right _ _
        omega
      obtain ⟨fifos, hfifos⟩ := fillFifo_ok s (s.eps .dirIn i) hfits
      unfold inAmount at hfifos hfits ⊢
      rw [hfifos]
      exact (inBounds_bind_ok _ _).trans (sendToPeer_inBounds buffer fifos hfits)
  · rw [dif_neg hfifo]
    refine iff_of_true ((inBounds_error _).mpr rfl) fun fifo hfifo' ↦ ?_
    omega

theorem outTransfer_inBounds :
    InBounds (outTransfer s i h buffer) ↔
      fifosSize < s.grxfsiz.toNat ∨ outAmount s i h ≤ buffer.length := by
  unfold outTransfer
  dsimp only
  by_cases hover : fifosSize < s.grxfsiz.toNat
  · rw [if_pos hover]
    exact iff_of_true ((inBounds_error _).mpr rfl) (.inl hover)
  · rw [if_neg hover, or_iff_right hover]
    have hfits : outAmount s i h ≤ fifosSize := by
      have hle : outAmount s i h ≤ s.grxfsiz.toNat := Nat.min_le_right _ _
      omega
    exact (inBounds_bind_ok _ _).trans (takeFromPeer_inBounds s buffer hfits)

theorem lengthSize_of_nonneg (hlen : 0 ≤ h.length.toInt) : lengthSize h = h.length.toInt.toNat := by
  have hmsb : h.length.msb = false := by
    rw [BitVec.msb_eq_toInt]
    simpa using hlen
  have hlt := h.length.isLt
  rw [lengthSize, BitVec.toNat_signExtend, hmsb, BitVec.toNat_setWidth, BitVec.toInt_eq_msb_cond, hmsb]
  simp only [Bool.false_eq_true, if_false]
  omega

theorem le_lengthSize_of_neg (hlen : h.length.toInt < 0) (e : EpState) : xferSize e ≤ lengthSize h := by
  have hmsb : h.length.msb = true := by
    rw [BitVec.msb_eq_toInt]
    simpa using hlen
  have hle : xferSize e ≤ 0x1ffff := by
    rw [xferSize, BitVec.toNat_and]
    exact Nat.and_le_right
  rw [lengthSize, BitVec.toNat_signExtend, hmsb]
  simp only [if_true]
  omega

/-- A token that is neither stalled nor disabled transfers within bounds exactly if the length
is not negative or nothing is moved. -/
theorem transfer_inBounds (hbuffer : buffer.length = h.length.toInt.toNat) (e : EpState) (room : Nat) :
    min (min (xferSize e) (lengthSize h)) room ≤ buffer.length ↔
      0 ≤ h.length.toInt ∨ xferSize e = 0 ∨ room = 0 := by
  rcases Int.lt_or_le h.length.toInt 0 with hneg | hnonneg
  · have hle := le_lengthSize_of_neg h hneg e
    have hempty : buffer.length = 0 := by omega
    rw [hempty]
    omega
  · have hsize := lengthSize_of_nonneg h hnonneg
    omega

theorem token_inBounds (dir : Direction) (hbuffer : buffer.length = h.length.toInt.toNat) :
    InBounds (token s dir i h buffer) ↔ 0 ≤ h.length.toInt ∨ MovesNothing s dir (s.eps dir i) := by
  unfold token MovesNothing
  dsimp only
  by_cases hstall : (s.eps dir i).control &&& epconStall ≠ 0
  · rw [if_pos hstall]
    exact iff_of_true (inBounds_ok _) (.inr (.inl hstall))
  · rw [if_neg hstall, or_iff_right hstall]
    by_cases henable : (s.eps dir i).control &&& epconEnable ≠ 0
    · rw [if_pos henable, or_iff_right henable]
      cases dir with
      | dirIn =>
        simp only [inTransfer_inBounds, inAmount, transfer_inBounds h buffer hbuffer, FifoClosed]
        grind
      | dirOut =>
        simp only [outTransfer_inBounds, outAmount, transfer_inBounds h buffer hbuffer, FifoClosed]
        grind
    · rw [if_neg henable]
      exact iff_of_true (inBounds_ok _) (.inr (.inl (not_not.mp henable)))

end Transfers

theorem callback_in_bounds_iff (s : Device) (h : Header) (buffer : List Byte)
    (hbuffer : buffer.length = h.length.toInt.toNat) : InBounds (tcpCallback s h buffer) ↔ PeerSafe s h := by
  unfold tcpCallback PeerSafe
  dsimp only
  by_cases hreset : h.flags &&& 2 ≠ 0
  · rw [if_pos hreset]
    exact iff_of_true (inBounds_ok _) (.inl hreset)
  · rw [if_neg hreset, or_iff_right hreset]
    unfold existingEp
    by_cases hep : (h.ep &&& 0x7f).toNat < numEndpoints
    · rw [dif_pos hep]
      have hexists (p : Fin numEndpoints → Prop) :
          (∃ i : Fin numEndpoints, (h.ep &&& 0x7f).toNat = i ∧ p i) ↔ p ⟨_, hep⟩ := by
        constructor
        · rintro ⟨i, hi, hp⟩
          exact (Fin.ext hi : ⟨_, hep⟩ = i) ▸ hp
        · exact fun hp ↦ ⟨⟨_, hep⟩, rfl, hp⟩
      rw [hexists]
      refine (inBounds_bind_ok _ _).trans ((token_inBounds _ _ _ _ _ hbuffer).trans ?_)
      split_ifs <;> rfl
    · rw [dif_neg hep]
      refine iff_of_false (fun hbounds ↦ absurd (hbounds _ rfl) (by decide)) ?_
      rintro ⟨i, hi, -⟩
      exact hep (hi ▸ i.isLt)

/-- A device after reset whose control endpoint has an IN transfer of four bytes queued. -/
def queued : Device :=
  setEp (initialReset false fun _ ↦ 0) .dirIn ⟨0, by decide⟩ { control := bit 31, txSize := 4 }

theorem callback_in_bounds_queued : InBounds (tcpCallback queued { ep := 0x80, length := 8 } (List.replicate 8 0)) := by
  refine (callback_in_bounds_iff queued { ep := 0x80, length := 8 } (List.replicate 8 0) (by decide)).mpr ?_
  exact .inr ⟨⟨0, by decide⟩, by decide, .inl (by decide)⟩

theorem callback_in_bounds_fails :
    (∃ buffer : List Byte, buffer.length = (0xffff : BitVec 16).toInt.toNat ∧
      ¬ InBounds (tcpCallback queued { ep := 0x80, length := 0xffff } buffer)) ∧
      ¬ InBounds (tcpCallback queued { ep := 0x88, length := 0 } []) := by
  refine ⟨⟨[], by decide, fun hbounds ↦ ?_⟩, fun hbounds ↦ ?_⟩
  · exact absurd (hbounds .peerRange rfl) (by decide)
  · exact absurd (hbounds .endpointRange rfl) (by decide)

end IDeviceEmulator.Synopsys
