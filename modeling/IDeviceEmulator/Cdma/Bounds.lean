import IDeviceEmulator.Cdma.Termination

namespace IDeviceEmulator.Cdma

open Memory Loop

section Accesses

/-- The places of `inBuf` that a turn of the first walk stores to. -/
def Stores {δ : Type} (mem : Mem 32) (csize : Word) (s : Fetch δ) (i : Nat) : Prop :=
  (segmentAt mem s.nextSeg).flags &&& 3 ≠ 0 ∧
    s.inBuf.length + (segmentAt mem s.nextSeg).size.toNat ≤ csize.toNat ∧
    s.inBuf.length ≤ i ∧ i < s.inBuf.length + (segmentAt mem s.nextSeg).size.toNat

/-- The places of `outBuf` that a turn of the second walk reads. It copies them to guest memory,
and on a channel with an even number it prints bytes from the start on, with an `int` index. -/
def Loads (ch : Channel) (s : Copy) (i : Int) : Prop :=
  (segmentAt s.mem s.nextSeg).flags &&& 2 ≠ 0 ∧
    ((segmentAt s.mem s.nextSeg).size.msb = false ∧
        s.soffset.toNat ≤ i ∧ i < s.soffset.toNat + (segmentAt s.mem s.nextSeg).size.toNat ∨
      ch.val % 2 = 0 ∧ ∃ b : Word, b < (segmentAt s.mem s.nextSeg).size ∧ i = b.toInt)

/-- A segment of this size is copied from, and printed out of, the bytes allocated. -/
structure Fits (ch : Channel) (csize soffset size : Word) : Prop where
  copied : size = 0 ∨ size.msb = true ∨ soffset.toNat + size.toNat ≤ bufferSize csize
  printed : ch.val % 2 = 0 → size.toNat ≤ bufferSize csize ∧ size.toNat ≤ 2 ^ 31

theorem fits_of_loads {ch : Channel} {csize : Word} {s : Copy}
    (hflag : (segmentAt s.mem s.nextSeg).flags &&& 2 ≠ 0)
    (h : ∀ i, Loads ch s i → 0 ≤ i ∧ i < bufferSize csize) :
    Fits ch csize s.soffset (segmentAt s.mem s.nextSeg).size := by
  generalize hsize : (segmentAt s.mem s.nextSeg).size = size at *
  refine ⟨?_, fun heven ↦ ?_⟩
  · by_contra hnot
    simp only [not_or, Bool.not_eq_true, Nat.not_le] at hnot
    obtain ⟨hne, hmsb, hover⟩ := hnot
    have hpos : size.toNat ≠ 0 := fun heq ↦ hne (BitVec.eq_of_toNat_eq heq)
    have hlast := h (s.soffset.toNat + size.toNat - 1)
      ⟨hflag, .inl ⟨by rw [hsize]; exact hmsb, by omega, by rw [hsize]; omega⟩⟩
    omega
  · have hprinted (b : Word) (hb : b < size) : 0 ≤ b.toInt ∧ b.toInt < bufferSize csize :=
      h b.toInt ⟨hflag, .inr ⟨heven, b, by rw [hsize]; exact hb, rfl⟩⟩
    have htoInt (b : Word) : b.toInt = if 2 * b.toNat < 2 ^ 32 then (b.toNat : Int) else b.toNat - 2 ^ 32 :=
      BitVec.toInt_eq_toNat_cond b
    have hhalf : size.toNat ≤ 2 ^ 31 := by
      by_contra hnot
      have hneg := (hprinted 0x80000000 (BitVec.lt_def.mpr (Nat.not_le.mp hnot))).1
      exact absurd hneg (by decide)
    refine ⟨?_, hhalf⟩
    rcases Nat.eq_zero_or_pos size.toNat with hzero | hpos
    · omega
    · have hlt : (BitVec.ofNat 32 (size.toNat - 1)).toNat = size.toNat - 1 := by
        rw [BitVec.toNat_ofNat, Nat.mod_eq_of_lt (by omega)]
      have hlast := (hprinted (BitVec.ofNat 32 (size.toNat - 1)) (BitVec.lt_def.mpr (by omega))).2
      rw [htoInt, hlt, if_pos (by omega)] at hlast
      omega

theorem loads_of_fits {ch : Channel} {csize : Word} {s : Copy}
    (h : Fits ch csize s.soffset (segmentAt s.mem s.nextSeg).size) {i : Int} (hi : Loads ch s i) :
    0 ≤ i ∧ i < bufferSize csize := by
  obtain ⟨-, ⟨hmsb, hle, hlt⟩ | ⟨heven, b, hb, rfl⟩⟩ := hi
  · rcases h.copied with hzero | hneg | hfits
    · rw [hzero] at hlt
      change i < s.soffset.toNat + (0 : Nat) at hlt
      omega
    · rw [hmsb] at hneg
      cases hneg
    · omega
  · obtain ⟨hfits, hhalf⟩ := h.printed heven
    have hlt := BitVec.lt_def.mp hb
    rw [BitVec.toInt_eq_toNat_cond, if_pos (by omega)]
    omega

end Accesses

section FirstWalk

variable {δ κ : Type} (host : Host δ κ) (mem : Mem 32) (creg csize p : Word) (dev : δ)

/-- The first walk can only leave the allocation when its size wraps around. -/
theorem not_overflows (h : csize.toNat + 4 < 2 ^ 32) (n : Nat) : ¬ Overflows mem csize p n := by
  rintro ⟨hfits, hover⟩
  have hfour : (4 : Word).toNat = 4 := rfl
  rw [bufferSize, BitVec.toNat_add, hfour, Nat.mod_eq_of_lt h] at hover
  omega

theorem fetch_exits {n : Nat} (h : FirstEnd mem csize p n) :
    ∃ r, fetch host mem creg csize (fetched host mem creg p dev n) = .inr r := by
  obtain ⟨hroom, hsize⟩ := room_of_not_exhausted mem csize p h.before
  rw [fetch_fetched host mem creg csize p dev hroom hsize]
  split_ifs with hbreak hover hlast
  · exact ⟨_, rfl⟩
  · exact ⟨_, rfl⟩
  · obtain ⟨hposition, hlt⟩ := hlast
    rcases h.reached with hzero | hfull | hfull
    · exact absurd hzero hposition
    · omega
    · exact absurd hfull hover
  · exact ⟨_, rfl⟩

theorem fetch_reaches_iff (s : Fetch δ) :
    Reaches (fetch host mem creg csize) ⟨p, [], dev⟩ s ↔
      ∃ n, s = fetched host mem creg p dev n ∧ ∀ m < n, ¬ Exhausted mem csize p (m + 1) := by
  refine reaches_iff_states (fetched host mem creg p dev) (fun n hn ↦ ?_) (fun n hn hbefore ↦ ?_) s
  · exact fetch_turns host mem creg csize p dev (fun m hm ↦ hn m (Nat.le_of_lt_succ hm)) (Nat.lt_succ_self n)
  · exact fetch_exits host mem creg csize p dev ⟨hn, hbefore⟩

/-- The first walk keeps to the bytes allocated unless its last descriptor fits the transfer
size but not the allocation. -/
theorem stores_in_bounds_iff :
    (∀ s, Reaches (fetch host mem creg csize) ⟨p, [], dev⟩ s → ∀ i, Stores mem csize s i → i < bufferSize csize) ↔
      ∀ n, FirstEnd mem csize p n → ¬ Overflows mem csize p n := by
  have hlength (n : Nat) := fetched_length host mem creg p dev n
  constructor
  · intro h n hend hover
    obtain ⟨hfits, hlt⟩ := hover
    obtain ⟨hroom, -⟩ := room_of_not_exhausted mem csize p hend.before
    have hamount : amount mem (position mem p n) ≠ 0 := by
      intro hzero
      rw [taken, hzero] at hlt
      omega
    have hflags : (segmentAt mem (position mem p n)).flags &&& 3 ≠ 0 := by
      intro hflags
      exact hamount (if_neg fun hne ↦ hne hflags)
    rw [taken, amount, if_pos hflags] at hfits hlt
    have hreached := (fetch_reaches_iff host mem creg csize p dev _).mpr ⟨n, rfl, hend.before⟩
    refine absurd (h _ hreached (bufferSize csize) ⟨hflags, ?_, ?_, ?_⟩) (Nat.lt_irrefl _)
    · rw [hlength]
      exact hfits
    · rw [hlength]
      exact hroom
    · rw [hlength]
      exact hlt
  · intro h s hs i hi
    obtain ⟨n, rfl, hbefore⟩ := (fetch_reaches_iff host mem creg csize p dev s).mp hs
    obtain ⟨hflags, hfits, -, hlt⟩ := hi
    rw [hlength] at hfits hlt
    change (segmentAt mem (position mem p n)).flags &&& 3 ≠ 0 at hflags
    have htaken : taken mem p (n + 1) = taken mem p n + (segmentAt mem (position mem p n)).size.toNat := by
      rw [taken, amount, if_pos hflags]
    change taken mem p n + (segmentAt mem (position mem p n)).size.toNat ≤ csize.toNat at hfits
    change i < taken mem p n + (segmentAt mem (position mem p n)).size.toNat at hlt
    by_contra hout
    have hover : bufferSize csize < taken mem p (n + 1) := by omega
    exact h n ⟨.inr (.inr hover), hbefore⟩ ⟨by omega, hover⟩

end FirstWalk

section SecondWalk

variable (outBuf : Nat → Byte) (mem : Mem 32) (csize p : Word) (ch : Channel)

theorem copyOut_reaches_iff (s : Copy) :
    Reaches (copyOut outBuf) ⟨p, 0, mem⟩ s ↔
      ∃ n, s = copied outBuf mem p n ∧ ∀ m < n, (copied outBuf mem p m).Linked := by
  have hiff : Reaches (copyOut outBuf) ⟨p, 0, mem⟩ s ↔
      ∃ n, s = copied outBuf mem p n ∧ ∀ m < n, ¬ ¬ (copied outBuf mem p m).Linked := by
    refine reaches_iff_states (copied outBuf mem p) (fun n hn ↦ ?_) (fun n hn _ ↦ ?_) s
    · exact copyOut_linked outBuf mem p (not_not.mp (hn n (Nat.le_refl n)))
    · exact copyOut_not_linked outBuf mem p hn
  simp only [not_not] at hiff
  exact hiff

/-- The descriptors that the second walk comes to all fit, each read from memory as the
copies before it left it. -/
def CopiesFit : Prop :=
  ∀ n, (∀ m < n, (copied outBuf mem p m).Linked) →
    (segmentAt (copied outBuf mem p n).mem (copied outBuf mem p n).nextSeg).flags &&& 2 ≠ 0 →
      Fits ch csize (copied outBuf mem p n).soffset
        (segmentAt (copied outBuf mem p n).mem (copied outBuf mem p n).nextSeg).size

theorem loads_in_bounds_iff :
    (∀ s, Reaches (copyOut outBuf) ⟨p, 0, mem⟩ s → ∀ i, Loads ch s i → 0 ≤ i ∧ i < bufferSize csize) ↔
      CopiesFit outBuf mem csize p ch := by
  constructor
  · intro h n hn hflag
    exact fits_of_loads hflag (h _ ((copyOut_reaches_iff outBuf mem p _).mpr ⟨n, rfl, hn⟩))
  · intro h s hs i hi
    obtain ⟨n, rfl, hn⟩ := (copyOut_reaches_iff outBuf mem p s).mp hs
    exact loads_of_fits (h n hn hi.1) hi

/-- The offset of a descriptor's bytes in `outBuf`, a 32-bit sum. -/
def offsetOf : Nat → Word
  | 0 => 0
  | n + 1 => offsetOf n + (segmentAt mem (position mem p n)).size

/-- The descriptors up to the first one without link fit, as they stand in memory. -/
def DescriptorsFit : Prop :=
  ∀ n, (∀ m < n, (segmentAt mem (position mem p m)).flags &&& 3 = 3) →
    (segmentAt mem (position mem p n)).flags &&& 2 ≠ 0 →
      Fits ch csize (offsetOf mem p n) (segmentAt mem (position mem p n)).size

theorem copiesFit_iff_of_untouched (h : Untouched mem p) :
    CopiesFit outBuf mem csize p ch ↔ DescriptorsFit mem csize p ch := by
  have hsegment (n : Nat) : segmentAt (copied outBuf mem p n).mem (copied outBuf mem p n).nextSeg =
      segmentAt mem (position mem p n) := by
    obtain ⟨hnext, hmem⟩ := copied_of_untouched outBuf mem p h n
    rw [hnext, hmem]
  have hoffset (n : Nat) : (copied outBuf mem p n).soffset = offsetOf mem p n := by
    induction n with
    | zero => rfl
    | succ n ih =>
      rw [offsetOf, ← ih, ← hsegment]
      rfl
  simp only [CopiesFit, DescriptorsFit, Copy.Linked, hsegment, hoffset]

end SecondWalk

section Transfer

variable {δ κ : Type} (host : Host δ κ)

/-- The bytes of `inBuf` that the first walk stores and those of `outBuf` that the second one
reads are among the bytes allocated. -/
structure InBounds (w : System δ κ) (ch : Channel) (seg : Segment) : Prop where
  stores : ∀ s, Reaches (fetch host w.mem (w.regs.creg ch) (w.regs.size ch)) ⟨firstSeg w.regs ch seg, [], w.dev⟩ s →
    ∀ i, Stores w.mem (w.regs.size ch) s i → i < bufferSize (w.regs.size ch)
  loads : ∀ t, Ends (fetch host w.mem (w.regs.creg ch) (w.regs.size ch)) ⟨firstSeg w.regs ch seg, [], w.dev⟩ (.ok t) →
    ∀ s, Reaches (copyOut (decode host w.regs seg (w.regs.size ch) t.inBuf).2) ⟨firstSeg w.regs ch seg, 0, w.mem⟩ s →
      ∀ i, Loads ch s i → 0 ≤ i ∧ i < bufferSize (w.regs.size ch)

/-- The walks of a transfer that a write starts. A transfer in the write direction has none. -/
def StartsInBounds (w : System δ κ) (addr : BitVec 16) (value : Word) : Prop :=
  Starts addr value → (clearIrq w (channelOf addr) value).1.regs.config (channelOf addr) &&& 2 = 0 →
    ∀ seg, (clearIrq w (channelOf addr) value).1.regs.dmaSegment (channelOf addr) = some seg →
      InBounds host (clearIrq w (channelOf addr) value).1 (channelOf addr) seg

def ChainFits (w : System δ κ) (ch : Channel) (seg : Segment) : Prop :=
  ∀ n, FirstEnd w.mem (w.regs.size ch) (firstSeg w.regs ch seg) n →
    ¬ Overflows w.mem (w.regs.size ch) (firstSeg w.regs ch seg) n ∧
      CopiesFit (outBufAt host w ch seg n) w.mem (w.regs.size ch) (firstSeg w.regs ch seg) ch

/-- The chain fits as its descriptors stand in memory before the transfer. -/
def ChainFitsInPlace (w : System δ κ) (ch : Channel) (seg : Segment) : Prop :=
  ∀ n, FirstEnd w.mem (w.regs.size ch) (firstSeg w.regs ch seg) n →
    ¬ Overflows w.mem (w.regs.size ch) (firstSeg w.regs ch seg) n ∧
      DescriptorsFit w.mem (w.regs.size ch) (firstSeg w.regs ch seg) ch

theorem inBounds_iff (w : System δ κ) (ch : Channel) (seg : Segment) :
    InBounds host w ch seg ↔ ChainFits host w ch seg := by
  have hfirst := stores_in_bounds_iff host w.mem (w.regs.creg ch) (w.regs.size ch) (firstSeg w.regs ch seg) w.dev
  constructor
  · intro h n hend
    have hover := hfirst.mp h.stores n hend
    refine ⟨hover, ?_⟩
    rcases fetch_ends_at host w.mem (w.regs.creg ch) _ _ w.dev hend with ⟨ho, -⟩ | ⟨-, t, ht, hbuf⟩
    · exact absurd ho hover
    · rw [outBufAt, ← hbuf]
      exact (loads_in_bounds_iff _ _ _ _ ch).mp (h.loads t ht)
  · intro h
    refine ⟨hfirst.mpr fun n hend ↦ (h n hend).1, fun t ht ↦ ?_⟩
    obtain ⟨n, hend⟩ := exists_firstEnd host w.mem _ _ _ w.dev ht
    obtain ⟨hover, hfit⟩ := h n hend
    rcases fetch_ends_at host w.mem (w.regs.creg ch) _ _ w.dev hend with ⟨ho, -⟩ | ⟨-, t', ht', hbuf⟩
    · exact absurd ho hover
    · cases ht.unique ht'
      rw [outBufAt, ← hbuf] at hfit
      exact (loads_in_bounds_iff _ _ _ _ ch).mpr hfit

theorem chainFits_iff_of_untouched {w : System δ κ} {ch : Channel} {seg : Segment}
    (h : Untouched w.mem (firstSeg w.regs ch seg)) : ChainFits host w ch seg ↔ ChainFitsInPlace w ch seg := by
  refine forall_congr' fun n ↦ imp_congr_right fun _ ↦ and_congr_right fun _ ↦ ?_
  exact copiesFit_iff_of_untouched _ _ _ _ _ h

theorem chainFits_clearIrq (w : System δ κ) (ch : Channel) (value : Word) (seg : Segment) :
    ChainFits host (clearIrq w ch value).1 ch seg ↔ ChainFits host w ch seg := by
  unfold clearIrq
  split_ifs
  · simp only [ChainFits, outBufAt, decode_mstatus]
    exact Iff.rfl
  · exact Iff.rfl

/-- A transfer that is started keeps to its bounce buffers exactly if it is a write, no segment
is loaded, or the chain of the loaded segment fits. Unless a destination buffer overlaps a
descriptor, that is decided by the descriptors as they stand. -/
theorem transfer_in_bounds_iff {addr : BitVec 16} {value : Word} (hstart : Starts addr value) (w : System δ κ) :
    (StartsInBounds host w addr value ↔ w.regs.config (channelOf addr) &&& 2 ≠ 0 ∨
      ∀ seg, w.regs.dmaSegment (channelOf addr) = some seg → ChainFits host w (channelOf addr) seg) ∧
    ∀ seg, Untouched w.mem (firstSeg w.regs (channelOf addr) seg) →
      (ChainFits host w (channelOf addr) seg ↔ ChainFitsInPlace w (channelOf addr) seg) := by
  refine ⟨?_, fun seg ↦ chainFits_iff_of_untouched host⟩
  obtain ⟨hconfig, hsegment⟩ := regs_clearIrq w (channelOf addr) value
  simp only [StartsInBounds, hstart, true_implies, hconfig, hsegment, inBounds_iff, chainFits_clearIrq]
  exact imp_iff_not_or

end Transfer

section Instances

theorem chainFitsInPlace_ring : ChainFitsInPlace (channel5 (ringWords 2 1) 0x40000000 3) 5 ringSegment := by
  intro n _
  refine ⟨not_overflows _ _ _ (by decide) n, fun m hm _ ↦ ?_⟩
  cases m with
  | zero => exact ⟨by decide +kernel, fun heven ↦ absurd heven (by decide)⟩
  | succ m => exact absurd (hm 0 (Nat.succ_pos m)) (by decide +kernel)

theorem transfer_in_bounds_ring : Starts 0x5000 1 ∧ Untouched (wordsAt (ringWords 2 1)) 0x40000000 ∧
    StartsInBounds onesHost (channel5 (ringWords 2 1) 0x40000000 3) 0x5000 1 := by
  obtain ⟨hiff, hfits⟩ := transfer_in_bounds_iff onesHost starts_five (channel5 (ringWords 2 1) 0x40000000 3)
  refine ⟨starts_five, untouched_ring, hiff.mpr (.inr fun seg hseg ↦ ?_)⟩
  have hchannel : channelOf 0x5000 = 5 := by decide
  rw [hchannel] at hseg hfits ⊢
  cases hseg.symm.trans (congrArg some segmentAt_ring)
  exact (hfits ringSegment untouched_ring).mpr chainFitsInPlace_ring

/-- The first descriptor fills the transfer, but its link leads the second walk to another one. -/
def overrunWords : List (Word × Word) :=
  descriptorAt 0x1000 0x1020 3 0x2000 4 ++ descriptorAt 0x1020 0 2 0x3000 8

def overrunSegment : Segment := ⟨0x1020, 3, 0x2000, 4, Vector.replicate 4 0⟩

theorem not_chainFits_overrun : ¬ ChainFits onesHost (channel5 overrunWords 0x1000 4) 5 overrunSegment := by
  intro h
  obtain ⟨-, hfit⟩ := h 0 ⟨by decide +kernel, fun m hm ↦ absurd hm (Nat.not_lt_zero m)⟩
  have hcopied := (hfit 1 (fun m hm ↦ ?_) (by decide +kernel)).copied
  · revert hcopied
    decide +kernel
  · cases Nat.lt_one_iff.mp hm
    decide +kernel

theorem transfer_in_bounds_fails : ∃ w₁ w₂,
    write onesHost 0 (powerOn (wordsAt overrunWords)) 0x5014 0x1000 = some (.ok w₁) ∧
      write onesHost 0 w₁ 0x500c 4 = some (.ok w₂) ∧ Starts 0x5000 1 ∧
      ¬ StartsInBounds onesHost w₂ 0x5000 1 := by
  refine ⟨_, channel5 overrunWords 0x1000 4, rfl, rfl, starts_five, fun h ↦ ?_⟩
  have hsegment : segmentAt (wordsAt overrunWords) 0x1000 = overrunSegment := by decide +kernel
  have hseg : (channel5 overrunWords 0x1000 4).regs.dmaSegment 5 = some overrunSegment :=
    congrArg some hsegment
  exact not_chainFits_overrun ((inBounds_iff onesHost _ _ _).mp (h starts_five rfl _ hseg))

end Instances

end IDeviceEmulator.Cdma
