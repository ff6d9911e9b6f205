import IDeviceEmulator.Cdma.Scatter

namespace IDeviceEmulator.Cdma

open Memory Loop

section Chain

variable (mem : Mem 32) (csize p : Word)

def position : Nat → Word
  | 0 => p
  | n + 1 => (segmentAt mem (position n)).address

def amount (q : Word) : Nat :=
  if (segmentAt mem q).flags &&& 3 ≠ 0 then (segmentAt mem q).size.toNat else 0

def taken : Nat → Nat
  | 0 => 0
  | n + 1 => taken n + amount mem (position mem p n)

/-- After `n` descriptors the chain is over, the transfer size is reached, or the bounce
buffer is. -/
def Exhausted (n : Nat) : Prop :=
  position mem p n = 0 ∨ csize.toNat ≤ taken mem p n ∨ bufferSize csize < taken mem p n

instance (n : Nat) : Decidable (Exhausted mem csize p n) := inferInstanceAs (Decidable (_ ∨ _ ∨ _))

structure FirstEnd (n : Nat) : Prop where
  reached : Exhausted mem csize p (n + 1)
  before : ∀ m < n, ¬ Exhausted mem csize p (m + 1)

/-- The last descriptor fits the transfer size but not the bounce buffer. -/
def Overflows (n : Nat) : Prop :=
  taken mem p (n + 1) ≤ csize.toNat ∧ bufferSize csize < taken mem p (n + 1)

/-- The number of bytes that the first walk stores. A descriptor that exceeds the transfer
size is not read. -/
def filled (n : Nat) : Nat :=
  if csize.toNat < taken mem p (n + 1) then taken mem p n else taken mem p (n + 1)

end Chain

section FirstWalk

variable {δ κ : Type} (host : Host δ κ) (mem : Mem 32) (creg csize p : Word) (dev : δ)

def fetched (n : Nat) : Fetch δ :=
  ⟨position mem p n, (readFifo host creg (taken mem p n) dev).1, (readFifo host creg (taken mem p n) dev).2⟩

theorem fetched_succ_of_read {n : Nat} (h : (segmentAt mem (position mem p n)).flags &&& 3 ≠ 0) :
    fetched host mem creg p dev (n + 1) =
      ⟨(segmentAt mem (position mem p n)).address,
        (fetched host mem creg p dev n).inBuf ++
          (readFifo host creg (segmentAt mem (position mem p n)).size.toNat
            (fetched host mem creg p dev n).dev).1,
        (readFifo host creg (segmentAt mem (position mem p n)).size.toNat
          (fetched host mem creg p dev n).dev).2⟩ := by
  simp only [fetched, taken, amount, if_pos h, readFifo_add, position]

theorem fetched_succ_of_skip {n : Nat} (h : (segmentAt mem (position mem p n)).flags &&& 3 = 0) :
    fetched host mem creg p dev (n + 1) =
      { fetched host mem creg p dev n with nextSeg := (segmentAt mem (position mem p n)).address } := by
  have hnot : ¬ (segmentAt mem (position mem p n)).flags &&& 3 ≠ 0 := fun hne ↦ hne h
  simp only [fetched, taken, amount, if_neg hnot, Nat.add_zero, position]

theorem fetched_length (n : Nat) : (fetched host mem creg p dev n).inBuf.length = taken mem p n :=
  readFifo_length host creg _ dev

theorem fetch_fetched {n : Nat} (hroom : taken mem p n ≤ bufferSize csize)
    (hsize : taken mem p n < csize.toNat ∨ n = 0) :
    fetch host mem creg csize (fetched host mem creg p dev n) =
      if csize.toNat < taken mem p (n + 1) then .inr (.ok (fetched host mem creg p dev n))
      else if bufferSize csize < taken mem p (n + 1) then .inr (.error .heapOverflow)
      else if position mem p (n + 1) ≠ 0 ∧ taken mem p (n + 1) < csize.toNat then
        .inl (fetched host mem creg p dev (n + 1))
      else .inr (.ok (fetched host mem creg p dev (n + 1))) := by
  have hnext : (fetched host mem creg p dev n).nextSeg = position mem p n := rfl
  rw [fetch, hnext, fetched_length]
  by_cases hread : (segmentAt mem (position mem p n)).flags &&& 3 ≠ 0
  · have htaken : taken mem p (n + 1) = taken mem p n + (segmentAt mem (position mem p n)).size.toNat := by
      rw [taken, amount, if_pos hread]
    have hlength := fetched_length host mem creg p dev (n + 1)
    have hposition : (fetched host mem creg p dev (n + 1)).nextSeg = position mem p (n + 1) := rfl
    rw [fetched_succ_of_read host mem creg p dev hread] at hlength hposition ⊢
    dsimp only at hlength hposition ⊢
    rw [if_pos hread, ← htaken, hlength, hposition]
  · have hskip : (segmentAt mem (position mem p n)).flags &&& 3 = 0 := not_not.mp hread
    have htaken : taken mem p (n + 1) = taken mem p n := by
      rw [taken, amount, if_neg hread, Nat.add_zero]
    have hfits : ¬ csize.toNat < taken mem p (n + 1) := by
      rcases hsize with hlt | rfl
      · omega
      · rw [htaken]
        exact Nat.not_lt_zero _
    have hposition : (segmentAt mem (position mem p n)).address = position mem p (n + 1) := rfl
    rw [if_neg hread, if_neg hfits, if_neg (by omega), fetched_succ_of_skip host mem creg p dev hskip]
    dsimp only
    rw [fetched_length, hposition, htaken]

theorem fetch_turn {n : Nat} (hroom : taken mem p n ≤ bufferSize csize)
    (hsize : taken mem p n < csize.toNat ∨ n = 0) (h : ¬ Exhausted mem csize p (n + 1)) :
    fetch host mem creg csize (fetched host mem creg p dev n) = .inl (fetched host mem creg p dev (n + 1)) := by
  simp only [Exhausted, not_or, Nat.not_le, Nat.not_lt] at h
  obtain ⟨hposition, hlt, hfits⟩ := h
  rw [fetch_fetched host mem creg csize p dev hroom hsize, if_neg (by omega), if_neg (by omega),
    if_pos ⟨hposition, hlt⟩]

theorem room_of_not_exhausted {n : Nat} (h : ∀ m < n, ¬ Exhausted mem csize p (m + 1)) :
    taken mem p n ≤ bufferSize csize ∧ (taken mem p n < csize.toNat ∨ n = 0) := by
  cases n with
  | zero => exact ⟨Nat.zero_le _, .inr rfl⟩
  | succ n =>
    have hn := h n (Nat.lt_succ_self n)
    simp only [Exhausted, not_or, Nat.not_le, Nat.not_lt] at hn
    exact ⟨hn.2.2, .inl hn.2.1⟩

theorem fetch_turns {n : Nat} (h : ∀ m < n, ¬ Exhausted mem csize p (m + 1)) {m : Nat} (hm : m < n) :
    fetch host mem creg csize (fetched host mem creg p dev m) = .inl (fetched host mem creg p dev (m + 1)) := by
  obtain ⟨hroom, hsize⟩ := room_of_not_exhausted mem csize p fun i hi ↦ h i (Nat.lt_trans hi hm)
  exact fetch_turn host mem creg csize p dev hroom hsize (h m hm)

theorem fetch_ends_at {n : Nat} (h : FirstEnd mem csize p n) :
    (Overflows mem csize p n ∧
      Ends (fetch host mem creg csize) ⟨p, [], dev⟩ (.error .heapOverflow)) ∨
    (¬ Overflows mem csize p n ∧ ∃ t, Ends (fetch host mem creg csize) ⟨p, [], dev⟩ (.ok t) ∧
      t.inBuf = (readFifo host creg (filled mem csize p n) dev).1) := by
  obtain ⟨hroom, hsize⟩ := room_of_not_exhausted mem csize p h.before
  have hbody := fetch_fetched host mem creg csize p dev hroom hsize
  have hends {r : Except Fault (Fetch δ)}
      (hr : fetch host mem creg csize (fetched host mem creg p dev n) = .inr r) :
      Ends (fetch host mem creg csize) ⟨p, [], dev⟩ r :=
    Ends.of_states (fetched host mem creg p dev)
      (fun m hm ↦ fetch_turns host mem creg csize p dev h.before hm) hr
  by_cases hbreak : csize.toNat < taken mem p (n + 1)
  · rw [if_pos hbreak] at hbody
    refine .inr ⟨fun ho ↦ absurd ho.1 (Nat.not_le.mpr hbreak), _, hends hbody, ?_⟩
    rw [filled, if_pos hbreak]
    rfl
  · rw [if_neg hbreak] at hbody
    by_cases hover : bufferSize csize < taken mem p (n + 1)
    · rw [if_pos hover] at hbody
      exact .inl ⟨⟨Nat.not_lt.mp hbreak, hover⟩, hends hbody⟩
    · have hlast : ¬ (position mem p (n + 1) ≠ 0 ∧ taken mem p (n + 1) < csize.toNat) := by
        rintro ⟨hposition, hlt⟩
        rcases h.reached with hzero | hfull | hfull
        · exact hposition hzero
        · omega
        · exact hover hfull
      rw [if_neg hover, if_neg hlast] at hbody
      refine .inr ⟨fun ho ↦ hover ho.2, _, hends hbody, ?_⟩
      rw [filled, if_neg hbreak]
      rfl

theorem exists_firstEnd {r : Except Fault (Fetch δ)}
    (h : Ends (fetch host mem creg csize) ⟨p, [], dev⟩ r) : ∃ n, FirstEnd mem csize p n := by
  by_cases hex : ∃ n, Exhausted mem csize p (n + 1)
  · exact ⟨Nat.find hex, Nat.find_spec hex, fun m hm ↦ Nat.find_min hex hm⟩
  · have hnever (n : Nat) : ¬ Exhausted mem csize p (n + 1) := fun hn ↦ hex ⟨n, hn⟩
    refine absurd h (not_ends_of_states (fetched host mem creg p dev) (fun n ↦ ?_) r)
    exact fetch_turns host mem creg csize p dev (fun m _ ↦ hnever m) (Nat.lt_succ_self n)

end FirstWalk

section SecondWalk

variable (outBuf : Nat → Byte) (mem : Mem 32) (p : Word)

/-- The state of the second walk after `n` descriptors, each read from memory as the copies
before it left it. -/
def copied : Nat → Copy
  | 0 => ⟨p, 0, mem⟩
  | n + 1 =>
    let s := copied n
    let seg := segmentAt s.mem s.nextSeg
    ⟨seg.address, s.soffset + seg.size,
      physWrite s.mem seg.buffer (fun i ↦ outBuf (s.soffset.toNat + i)) seg.size⟩

def Copy.Linked (s : Copy) : Prop := (segmentAt s.mem s.nextSeg).flags &&& 3 = 3

instance (s : Copy) : Decidable s.Linked := inferInstanceAs (Decidable (_ = _))

theorem and_three_eq_three_iff (x : Word) : x &&& 3 = 3 ↔ x &&& 2 ≠ 0 ∧ x &&& 1 ≠ 0 := by
  have hcases (k : Nat) (hk : k < 4) : BitVec.ofNat 32 k = 3 ↔
      BitVec.ofNat 32 k &&& 2 ≠ 0 ∧ BitVec.ofNat 32 k &&& 1 ≠ 0 := by
    revert k
    decide
  have hlt : (x &&& 3).toNat < 4 := by
    rw [BitVec.toNat_and]
    exact Nat.lt_succ_of_le Nat.and_le_right
  have h := hcases (x &&& 3).toNat hlt
  rw [BitVec.ofNat_toNat, BitVec.setWidth_eq] at h
  rw [and_two, and_one]
  exact h

theorem copyOut_linked {n : Nat} (h : (copied outBuf mem p n).Linked) :
    copyOut outBuf (copied outBuf mem p n) = .inl (copied outBuf mem p (n + 1)) := by
  obtain ⟨htwo, hone⟩ := (and_three_eq_three_iff _).mp h
  rw [copyOut]
  dsimp only
  rw [if_neg htwo, if_pos hone]
  rfl

theorem copyOut_not_linked {n : Nat} (h : ¬ (copied outBuf mem p n).Linked) :
    ∃ r, copyOut outBuf (copied outBuf mem p n) = .inr r := by
  rw [copyOut]
  dsimp only
  by_cases htwo : (segmentAt (copied outBuf mem p n).mem (copied outBuf mem p n).nextSeg).flags &&& 2 = 0
  · exact ⟨_, if_pos htwo⟩
  · rw [if_neg htwo, if_neg fun hone ↦ h ((and_three_eq_three_iff _).mpr ⟨htwo, hone⟩)]
    exact ⟨_, rfl⟩

theorem copyOut_ends_iff :
    (∃ r, Ends (copyOut outBuf) ⟨p, 0, mem⟩ r) ↔ ∃ n, ¬ (copied outBuf mem p n).Linked := by
  refine ends_iff_states (copied outBuf mem p) (fun n hlinked ↦ ?_) fun n hstop _ ↦ ?_
  · exact copyOut_linked outBuf mem p (not_not.mp hlinked)
  · exact copyOut_not_linked outBuf mem p hstop

def Untouched : Prop :=
  ∀ i j, Apart (position mem p i) 32 (segmentAt mem (position mem p j)).buffer
    (segmentAt mem (position mem p j)).size.toNat

theorem segmentAt_physWrite {m : Mem 32} {q a len : Word} {bytes : Nat → Byte}
    (h : Apart q 32 a len.toNat) : segmentAt (physWrite m a bytes len) q = segmentAt m q := by
  rw [physWrite]
  split
  · rfl
  · exact segmentAt_put h

theorem copied_of_untouched (h : Untouched mem p) (n : Nat) :
    (copied outBuf mem p n).nextSeg = position mem p n ∧
      ∀ i, segmentAt (copied outBuf mem p n).mem (position mem p i) = segmentAt mem (position mem p i) := by
  induction n with
  | zero => exact ⟨rfl, fun _ ↦ rfl⟩
  | succ n ih =>
    obtain ⟨hnext, hmem⟩ := ih
    have hseg : segmentAt (copied outBuf mem p n).mem (copied outBuf mem p n).nextSeg =
        segmentAt mem (position mem p n) := by rw [hnext, hmem]
    refine ⟨congrArg Segment.address hseg, fun i ↦ ?_⟩
    rw [copied]
    dsimp only
    rw [hseg, segmentAt_physWrite (h i n), hmem]

/-- Over descriptors that the copies leave alone, the second walk ends exactly if the chain
comes to one without link. -/
theorem exists_not_linked_iff (h : Untouched mem p) :
    (∃ n, ¬ (copied outBuf mem p n).Linked) ↔
      ∃ n, (segmentAt mem (position mem p n)).flags &&& 3 ≠ 3 := by
  refine exists_congr fun n ↦ not_congr ?_
  obtain ⟨hnext, hmem⟩ := copied_of_untouched outBuf mem p h n
  rw [Copy.Linked, hnext, hmem]

end SecondWalk

section Transfer

variable {δ κ : Type} (host : Host δ κ)

def Terminates (w : System δ κ) (addr : BitVec 16) (value : Word) : Prop :=
  ∃ fuel, (write host fuel w addr value).isSome

def outBufAt (w : System δ κ) (ch : Channel) (seg : Segment) (n : Nat) : Nat → Byte :=
  (decode host w.regs seg (w.regs.size ch)
    (readFifo host (w.regs.creg ch) (filled w.mem (w.regs.size ch) (firstSeg w.regs ch seg) n) w.dev).1).2

/-- The chain has an end for both walks. The second walk is not reached when the first one
overflows the bounce buffer. -/
def ChainEnds (w : System δ κ) (ch : Channel) (seg : Segment) : Prop :=
  ∃ n, FirstEnd w.mem (w.regs.size ch) (firstSeg w.regs ch seg) n ∧
    (Overflows w.mem (w.regs.size ch) (firstSeg w.regs ch seg) n ∨
      ∃ m, ¬ (copied (outBufAt host w ch seg n) w.mem (firstSeg w.regs ch seg) m).Linked)

/-- The end of the chain as its descriptors stand in memory before the transfer. -/
def DescriptorsEnd (w : System δ κ) (ch : Channel) (seg : Segment) : Prop :=
  ∃ n, FirstEnd w.mem (w.regs.size ch) (firstSeg w.regs ch seg) n ∧
    (Overflows w.mem (w.regs.size ch) (firstSeg w.regs ch seg) n ∨
      ∃ m, (segmentAt w.mem (position w.mem (firstSeg w.regs ch seg) m)).flags &&& 3 ≠ 3)

theorem chainEnds_iff_of_untouched {w : System δ κ} {ch : Channel} {seg : Segment}
    (h : Untouched w.mem (firstSeg w.regs ch seg)) : ChainEnds host w ch seg ↔ DescriptorsEnd w ch seg := by
  refine exists_congr fun n ↦ and_congr_right fun _ ↦ or_congr_right ?_
  exact exists_not_linked_iff _ _ _ h

variable {host}

theorem ends_of_startTransfer {w : System δ κ} {ch : Channel} {seg : Segment} {fuel : Nat}
    (hdir : w.regs.config ch &&& 2 = 0) (hseg : w.regs.dmaSegment ch = some seg)
    (h : (startTransfer host fuel w ch).isSome) :
    ∃ r, Ends (fetch host w.mem (w.regs.creg ch) (w.regs.size ch)) ⟨firstSeg w.regs ch seg, [], w.dev⟩ r ∧
      ∀ t, r = .ok t → ∃ mem, Ends (copyOut (decode host w.regs seg (w.regs.size ch) t.inBuf).2)
        ⟨firstSeg w.regs ch seg, 0, w.mem⟩ mem := by
  rw [startTransfer, if_neg fun hne ↦ hne hdir] at h
  simp only [hseg] at h
  cases hfetch : run (fetch host w.mem (w.regs.creg ch) (w.regs.size ch)) fuel
      ⟨firstSeg w.regs ch seg, [], w.dev⟩ with
  | none =>
    rw [hfetch] at h
    cases h
  | some r =>
    refine ⟨r, ⟨fuel, hfetch⟩, fun t ht ↦ ?_⟩
    subst ht
    rw [hfetch] at h
    dsimp only at h
    cases hcopy : run (copyOut (decode host w.regs seg (w.regs.size ch) t.inBuf).2) fuel
        ⟨firstSeg w.regs ch seg, 0, w.mem⟩ with
    | none =>
      rw [hcopy] at h
      cases h
    | some mem => exact ⟨mem, fuel, hcopy⟩

theorem startTransfer_of_fault {w : System δ κ} {ch : Channel} {seg : Segment} {fault : Fault}
    (hdir : w.regs.config ch &&& 2 = 0) (hseg : w.regs.dmaSegment ch = some seg)
    (h : Ends (fetch host w.mem (w.regs.creg ch) (w.regs.size ch))
      ⟨firstSeg w.regs ch seg, [], w.dev⟩ (.error fault)) :
    ∃ fuel, startTransfer host fuel w ch = some (.error fault) := by
  obtain ⟨fuel, hfuel⟩ := h
  refine ⟨fuel, ?_⟩
  rw [startTransfer, if_neg fun hne ↦ hne hdir]
  simp only [hseg, hfuel]

theorem chainEnds_of_startTransfer {w : System δ κ} {ch : Channel} {seg : Segment} {fuel : Nat}
    (hdir : w.regs.config ch &&& 2 = 0) (hseg : w.regs.dmaSegment ch = some seg)
    (h : (startTransfer host fuel w ch).isSome) : ChainEnds host w ch seg := by
  obtain ⟨r, hr, hcopy⟩ := ends_of_startTransfer hdir hseg h
  obtain ⟨n, hn⟩ := exists_firstEnd host w.mem _ _ _ w.dev hr
  refine ⟨n, hn, ?_⟩
  rcases fetch_ends_at host w.mem (w.regs.creg ch) _ _ w.dev hn with ⟨hover, -⟩ | ⟨-, t, ht, hbuf⟩
  · exact .inl hover
  · have hrt := hr.unique ht
    have hends := hcopy t hrt
    rw [hbuf] at hends
    exact .inr ((copyOut_ends_iff _ w.mem _).mp hends)

theorem startTransfer_of_chainEnds {w : System δ κ} {ch : Channel} {seg : Segment}
    (hdir : w.regs.config ch &&& 2 = 0) (hseg : w.regs.dmaSegment ch = some seg)
    (h : ChainEnds host w ch seg) : ∃ fuel, (startTransfer host fuel w ch).isSome := by
  obtain ⟨n, hn, hsecond⟩ := h
  rcases fetch_ends_at host w.mem (w.regs.creg ch) _ _ w.dev hn with ⟨-, hfault⟩ | ⟨hover, t, ht, hbuf⟩
  · obtain ⟨fuel, hfuel⟩ := startTransfer_of_fault hdir hseg hfault
    exact ⟨fuel, by rw [hfuel]; rfl⟩
  · have hlinked := hsecond.resolve_left hover
    obtain ⟨mem, hmem⟩ := (copyOut_ends_iff _ w.mem _).mpr hlinked
    rw [outBufAt, ← hbuf] at hmem
    obtain ⟨fuel, hfuel⟩ := startTransfer_of_ends hdir hseg ht hmem
    exact ⟨fuel, by rw [hfuel fuel (Nat.le_refl fuel)]; rfl⟩

theorem startTransfer_terminates_iff (host : Host δ κ) (w : System δ κ) (ch : Channel) :
    (∃ fuel, (startTransfer host fuel w ch).isSome) ↔
      w.regs.config ch &&& 2 ≠ 0 ∨ ∀ seg, w.regs.dmaSegment ch = some seg → ChainEnds host w ch seg := by
  by_cases hdir : w.regs.config ch &&& 2 = 0
  · cases hseg : w.regs.dmaSegment ch with
    | none =>
      refine ⟨fun _ ↦ .inr fun seg h ↦ ?_, fun _ ↦ ⟨0, ?_⟩⟩
      · cases h
      · rw [startTransfer, if_neg fun hne ↦ hne hdir]
        simp only [hseg]
        rfl
    | some seg =>
      constructor
      · rintro ⟨fuel, hfuel⟩
        refine .inr fun seg' hseg' ↦ ?_
        cases hseg'
        exact chainEnds_of_startTransfer hdir hseg hfuel
      · intro h
        have hends := h.resolve_left fun hne ↦ hne hdir
        exact startTransfer_of_chainEnds hdir hseg (hends seg rfl)
  · refine ⟨fun _ ↦ .inl hdir, fun _ ↦ ⟨0, ?_⟩⟩
    rw [startTransfer, if_pos hdir]
    rfl

theorem decode_mstatus (regs : Registers κ) (mstatus : Word) (seg : Segment) (csize : Word)
    (inBuf : List Byte) :
    (decode host { regs with mstatus } seg csize inBuf).2 = (decode host regs seg csize inBuf).2 := by
  unfold decode
  split_ifs
  · rfl
  · rfl

theorem chainEnds_clearIrq (w : System δ κ) (ch : Channel) (value : Word) (seg : Segment) :
    ChainEnds host (clearIrq w ch value).1 ch seg ↔ ChainEnds host w ch seg := by
  unfold clearIrq
  split_ifs
  · simp only [ChainEnds, outBufAt, decode_mstatus]
    exact Iff.rfl
  · exact Iff.rfl

/-- A transfer that is started terminates exactly if it is a write, no segment is loaded, or
the chain of the loaded segment has an end for both walks. Unless a destination buffer overlaps
a descriptor, that is decided by the descriptors as they stand. -/
theorem terminates_iff (host : Host δ κ) {addr : BitVec 16} {value : Word} (hstart : Starts addr value)
    (w : System δ κ) :
    (Terminates host w addr value ↔ w.regs.config (channelOf addr) &&& 2 ≠ 0 ∨
      ∀ seg, w.regs.dmaSegment (channelOf addr) = some seg → ChainEnds host w (channelOf addr) seg) ∧
    ∀ seg, Untouched w.mem (firstSeg w.regs (channelOf addr) seg) →
      (ChainEnds host w (channelOf addr) seg ↔ DescriptorsEnd w (channelOf addr) seg) := by
  refine ⟨?_, fun seg ↦ chainEnds_iff_of_untouched host⟩
  obtain ⟨hconfig, hsegment⟩ := regs_clearIrq w (channelOf addr) value
  have h := startTransfer_terminates_iff host (clearIrq w (channelOf addr) value).1 (channelOf addr)
  rw [hconfig, hsegment] at h
  simp only [chainEnds_clearIrq] at h
  rw [← h, Terminates]
  simp only [write_start host hstart]

end Transfer

section Instances

def ringWords (flags size : Word) : List (Word × Word) :=
  descriptorAt 0x40000000 0x40000000 flags 0x50000000 size

def ringSegment : Segment := ⟨0x40000000, 2, 0x50000000, 1, Vector.replicate 4 0⟩

theorem segmentAt_ring : segmentAt (wordsAt (ringWords 2 1)) 0x40000000 = ringSegment := by decide +kernel

theorem untouched_ring : Untouched (wordsAt (ringWords 2 1)) 0x40000000 := by
  have hposition (n : Nat) : position (wordsAt (ringWords 2 1)) 0x40000000 n = 0x40000000 := by
    induction n with
    | zero => rfl
    | succ n ih =>
      rw [position, ih, segmentAt_ring]
      rfl
  intro i j
  rw [hposition, hposition, segmentAt_ring]
  decide

/-- The chain has no end, but it fills the transfer size and has no link for the second walk. -/
theorem descriptorsEnd_ring : DescriptorsEnd (channel5 (ringWords 2 1) 0x40000000 3) 5 ringSegment := by
  refine ⟨2, ⟨by decide +kernel, by decide +kernel⟩, .inr ⟨0, ?_⟩⟩
  decide +kernel

theorem terminates_ring : Starts 0x5000 1 ∧ Untouched (wordsAt (ringWords 2 1)) 0x40000000 ∧
    Terminates onesHost (channel5 (ringWords 2 1) 0x40000000 3) 0x5000 1 := by
  obtain ⟨hiff, hends⟩ :=
    terminates_iff onesHost starts_five (channel5 (ringWords 2 1) 0x40000000 3)
  refine ⟨starts_five, untouched_ring, hiff.mpr (.inr fun seg hseg ↦ ?_)⟩
  have hchannel : channelOf 0x5000 = 5 := by decide
  rw [hchannel] at hseg hends ⊢
  cases hseg.symm.trans (congrArg some segmentAt_ring)
  exact (hends ringSegment untouched_ring).mpr descriptorsEnd_ring

def powerOn (mem : Mem 32) : System Unit Unit where
  regs := { decryptKey := () }
  mem := mem
  dev := ()

theorem taken_ring (n : Nat) :
    position (wordsAt (ringWords 0 0)) 0x40000000 n = 0x40000000 ∧
      taken (wordsAt (ringWords 0 0)) 0x40000000 n = 0 := by
  have hsegment : segmentAt (wordsAt (ringWords 0 0)) 0x40000000 =
      ⟨0x40000000, 0, 0x50000000, 0, #v[0, 0, 0, 0]⟩ := by decide +kernel
  induction n with
  | zero => exact ⟨rfl, rfl⟩
  | succ n ih =>
    obtain ⟨hposition, htaken⟩ := ih
    rw [position, taken, hposition, htaken, amount, hsegment]
    exact ⟨rfl, rfl⟩

theorem not_chainEnds_ring : ¬ ChainEnds onesHost (channel5 (ringWords 0 0) 0x40000000 16) 5
    ⟨0x40000000, 0, 0x50000000, 0, #v[0, 0, 0, 0]⟩ := by
  rintro ⟨n, hn, -⟩
  have hfirst : firstSeg (channel5 (ringWords 0 0) 0x40000000 16).regs 5
      ⟨0x40000000, 0, 0x50000000, 0, #v[0, 0, 0, 0]⟩ = 0x40000000 := by decide
  have hreached := hn.reached
  obtain ⟨hposition, htaken⟩ := taken_ring (n + 1)
  rw [hfirst, Exhausted] at hreached
  rcases hreached with hzero | hfull | hfull
  · exact absurd (hposition.symm.trans hzero) (by decide)
  · exact absurd (Nat.le_trans hfull (Nat.le_of_eq htaken)) (by decide)
  · exact absurd (Nat.lt_of_lt_of_le hfull (Nat.le_of_eq htaken)) (Nat.not_lt_zero _)

theorem terminates_fails : ∃ w₁ w₂,
    write onesHost 0 (powerOn (wordsAt (ringWords 0 0))) 0x5014 0x40000000 = some (.ok w₁) ∧
      write onesHost 0 w₁ 0x500c 16 = some (.ok w₂) ∧ Starts 0x5000 1 ∧
      ¬ Terminates onesHost w₂ 0x5000 1 := by
  refine ⟨_, channel5 (ringWords 0 0) 0x40000000 16, rfl, rfl, starts_five, ?_⟩
  rintro ⟨fuel, hfuel⟩
  rw [write_five] at hfuel
  have hsegment : segmentAt (wordsAt (ringWords 0 0)) 0x40000000 =
      ⟨0x40000000, 0, 0x50000000, 0, #v[0, 0, 0, 0]⟩ := by decide +kernel
  have hseg : (channel5 (ringWords 0 0) 0x40000000 16).regs.dmaSegment 5 =
      some ⟨0x40000000, 0, 0x50000000, 0, #v[0, 0, 0, 0]⟩ := congrArg some hsegment
  have hdir : (channel5 (ringWords 0 0) 0x40000000 16).regs.config 5 &&& 2 = 0 := by decide
  exact not_chainEnds_ring (chainEnds_of_startTransfer hdir hseg hfuel)

end Instances

end IDeviceEmulator.Cdma
