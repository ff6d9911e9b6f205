import IDeviceEmulator.Cdma.Engine

namespace IDeviceEmulator.Cdma

open Memory Loop

structure Placed where
  address : Word
  seg : Segment

namespace Placed

def length (d : Placed) : Nat := d.seg.size.toNat

def Target (d : Placed) (x : Word) : Prop := Covers d.seg.buffer d.length x

end Placed

/-- The descriptors linked from an address, all but the last with flags 3 and the last
with flags 2. -/
inductive Descriptors (mem : Mem 32) : Word → List Placed → Prop
  | last {p : Word} (h : (segmentAt mem p).flags &&& 3 = 2) : Descriptors mem p [⟨p, segmentAt mem p⟩]
  | more {p : Word} {chain : List Placed} (h : (segmentAt mem p).flags &&& 3 = 3)
      (hrest : Descriptors mem (segmentAt mem p).address chain) :
      Descriptors mem p (⟨p, segmentAt mem p⟩ :: chain)

def total (chain : List Placed) : Nat := (chain.map Placed.length).sum

structure Separate (chain : List Placed) : Prop where
  buffers : chain.Pairwise fun d e ↦ Apart d.seg.buffer d.length e.seg.buffer e.length
  descriptors : ∀ d ∈ chain, ∀ e ∈ chain, Apart d.address 32 e.seg.buffer e.length

/-- The second memory is the first one with every destination buffer replaced by the next
slice of the stream. -/
structure Scattered (chain : List Placed) (stream : List Byte) (mem mem' : Mem 32) : Prop where
  inside : ∀ before d after, chain = before ++ d :: after → ∀ i < d.length,
    stream[total before + i]? = some (mem' (d.seg.buffer + BitVec.ofNat 32 i))
  outside : ∀ x, (∀ d ∈ chain, ¬ d.Target x) → mem' x = mem x

section Walks

variable {δ κ : Type} {host : Host δ κ}

theorem total_cons (d : Placed) (chain : List Placed) : total (d :: chain) = d.length + total chain := by
  simp [total]

theorem fetch_read {mem : Mem 32} {creg csize p : Word} {inBuf : List Byte} {dev : δ}
    (hread : (segmentAt mem p).flags &&& 3 ≠ 0) (hfits : csize.toNat ≤ bufferSize csize)
    (hsize : inBuf.length + (segmentAt mem p).size.toNat ≤ csize.toNat) {r : List Byte × δ}
    (hr : readFifo host creg (segmentAt mem p).size.toNat dev = r) :
    fetch host mem creg csize ⟨p, inBuf, dev⟩ =
      if (segmentAt mem p).address ≠ 0 ∧ (inBuf ++ r.1).length < csize.toNat then
        .inl ⟨(segmentAt mem p).address, inBuf ++ r.1, r.2⟩
      else .inr (.ok ⟨(segmentAt mem p).address, inBuf ++ r.1, r.2⟩) := by
  rw [fetch]
  dsimp only
  rw [if_pos hread, if_neg (by omega), if_neg (by omega), hr]

theorem fetch_ends (host : Host δ κ) (creg : Word) {mem : Mem 32} {csize p : Word} {chain : List Placed}
    (h : Descriptors mem p chain) (hzero : ∀ d ∈ chain.tail, d.address ≠ 0)
    (hfits : csize.toNat ≤ bufferSize csize) (inBuf : List Byte) (dev : δ)
    (htotal : inBuf.length + total chain = csize.toNat) :
    ∃ t, Ends (fetch host mem creg csize) ⟨p, inBuf, dev⟩ (.ok t) ∧
      t.inBuf = inBuf ++ (readFifo host creg (total chain) dev).1 := by
  induction h generalizing inBuf dev with
  | @last p hflags =>
    have hread : (segmentAt mem p).flags &&& 3 ≠ 0 := by rw [hflags]; decide
    have hlen : total [⟨p, segmentAt mem p⟩] = (segmentAt mem p).size.toNat := by
      simp [total, Placed.length]
    rw [hlen] at htotal ⊢
    generalize hr : readFifo host creg (segmentAt mem p).size.toNat dev = r
    have hrlen : r.1.length = (segmentAt mem p).size.toNat := by rw [← hr, readFifo_length]
    have hbody := fetch_read hread hfits (Nat.le_of_eq htotal) hr
    have hdone : ¬ (inBuf ++ r.1).length < csize.toNat := by
      rw [List.length_append, hrlen]
      omega
    rw [if_neg fun hc ↦ hdone hc.2] at hbody
    exact ⟨_, .exit hbody, rfl⟩
  | @more p chain hflags hrest ih =>
    have hread : (segmentAt mem p).flags &&& 3 ≠ 0 := by rw [hflags]; decide
    have hlen : (Placed.mk p (segmentAt mem p)).length = (segmentAt mem p).size.toNat := rfl
    rw [total_cons, hlen] at htotal ⊢
    have hnext : (segmentAt mem p).address ≠ 0 := by
      cases hrest with
      | last => exact hzero _ List.mem_cons_self
      | more => exact hzero _ List.mem_cons_self
    rw [readFifo_add]
    generalize hr : readFifo host creg (segmentAt mem p).size.toNat dev = r
    have hrlen : r.1.length = (segmentAt mem p).size.toNat := by rw [← hr, readFifo_length]
    have hsize : inBuf.length + (segmentAt mem p).size.toNat ≤ csize.toNat := by omega
    have hbody := fetch_read hread hfits hsize hr
    have hinBuf : (inBuf ++ r.1).length + total chain = csize.toNat := by
      rw [List.length_append, hrlen]
      omega
    by_cases hmore : (inBuf ++ r.1).length < csize.toNat
    · rw [if_pos ⟨hnext, hmore⟩] at hbody
      obtain ⟨t, ht, htbuf⟩ := ih (fun d hd ↦ hzero d (List.mem_of_mem_tail hd)) _ r.2 hinBuf
      refine ⟨t, .turn hbody ht, ?_⟩
      rw [htbuf, List.append_assoc]
    · rw [if_neg fun hc ↦ hmore hc.2] at hbody
      have hdone : total chain = 0 := by omega
      refine ⟨_, .exit hbody, ?_⟩
      rw [hdone]
      simp [readFifo]

theorem segmentAt_congr {m m' : Mem 32} {p : Word}
    (h : ∀ k < 32, m' (p + BitVec.ofNat 32 k) = m (p + BitVec.ofNat 32 k)) :
    segmentAt m' p = segmentAt m p := by
  have hfield (j : Nat) (hj : j < 8) : field m' p j = field m p j := by
    refine word_congr fun i hi ↦ ?_
    rw [BitVec.add_assoc, ← BitVec.ofNat_add]
    exact h (4 * j + i) (by omega)
  simp only [segmentAt, hfield, Nat.reduceLT]

theorem segmentAt_put {m : Mem 32} {p a : Word} {n : Nat} {bytes : Nat → Byte} (h : Apart p 32 a n) :
    segmentAt (put m a n bytes) p = segmentAt m p := by
  refine segmentAt_congr fun k hk ↦ put_of_not_covers m fun hcov ↦ ?_
  exact h.not_covers (covers_add p hk (by decide)) hcov

def scatter (outBuf : Nat → Byte) : Nat → List Placed → Mem 32 → Mem 32
  | _, [], m => m
  | offset, d :: chain, m =>
    scatter outBuf (offset + d.length) chain
      (put m d.seg.buffer d.length fun i ↦ outBuf (offset + i))

theorem msb_of_lt {x : Word} (h : x.toNat < 2 ^ 31) : x.msb = false := by
  rw [BitVec.msb_eq_false_iff_two_mul_lt]
  omega

theorem and_two (x : Word) : x &&& 2 = (x &&& 3) &&& 2 := by
  rw [BitVec.and_assoc]
  rfl

theorem and_one (x : Word) : x &&& 1 = (x &&& 3) &&& 1 := by
  rw [BitVec.and_assoc]
  rfl

theorem copyOut_write (outBuf : Nat → Byte) (p soffset : Word) (mem : Mem 32)
    (hwrite : (segmentAt mem p).flags &&& 2 ≠ 0) (hsize : (segmentAt mem p).size.toNat < 2 ^ 31) :
    copyOut outBuf ⟨p, soffset, mem⟩ =
      if (segmentAt mem p).flags &&& 1 ≠ 0 then
        .inl ⟨(segmentAt mem p).address, soffset + (segmentAt mem p).size,
          put mem (segmentAt mem p).buffer (segmentAt mem p).size.toNat fun i ↦ outBuf (soffset.toNat + i)⟩
      else
        .inr (put mem (segmentAt mem p).buffer (segmentAt mem p).size.toNat fun i ↦
          outBuf (soffset.toNat + i)) := by
  rw [copyOut]
  dsimp only
  rw [if_neg hwrite, physWrite, msb_of_lt hsize]
  rfl

theorem copyOut_ends (outBuf : Nat → Byte) {mem₀ : Mem 32} {p : Word} {chain : List Placed}
    (h : Descriptors mem₀ p chain) (hsep : Separate chain) (hsize : ∀ d ∈ chain, d.length < 2 ^ 31)
    {mem : Mem 32} (hmem : ∀ d ∈ chain, segmentAt mem d.address = segmentAt mem₀ d.address)
    (soffset : Word) (hoff : soffset.toNat + total chain < 2 ^ 32) :
    Ends (copyOut outBuf) ⟨p, soffset, mem⟩ (scatter outBuf soffset.toNat chain mem) := by
  induction h generalizing mem soffset with
  | @last p hflags =>
    have hseg : segmentAt mem p = segmentAt mem₀ p := hmem ⟨p, segmentAt mem₀ p⟩ List.mem_cons_self
    have hlen : (segmentAt mem₀ p).size.toNat < 2 ^ 31 := hsize ⟨p, segmentAt mem₀ p⟩ List.mem_cons_self
    have hbody := copyOut_write outBuf p soffset mem
      (by rw [hseg, and_two, hflags]; decide) (by rw [hseg]; exact hlen)
    rw [hseg, if_neg (by rw [and_one, hflags]; decide)] at hbody
    exact .exit hbody
  | @more p chain hflags hrest ih =>
    have hseg : segmentAt mem p = segmentAt mem₀ p := hmem ⟨p, segmentAt mem₀ p⟩ List.mem_cons_self
    have hlen : (segmentAt mem₀ p).size.toNat < 2 ^ 31 := hsize ⟨p, segmentAt mem₀ p⟩ List.mem_cons_self
    have hbody := copyOut_write outBuf p soffset mem
      (by rw [hseg, and_two, hflags]; decide) (by rw [hseg]; exact hlen)
    rw [hseg, if_pos (by rw [and_one, hflags]; decide)] at hbody
    have hplaced : (Placed.mk p (segmentAt mem₀ p)).length = (segmentAt mem₀ p).size.toNat := rfl
    rw [total_cons, hplaced] at hoff
    have hoffset : (soffset + (segmentAt mem₀ p).size).toNat =
        soffset.toNat + (Placed.mk p (segmentAt mem₀ p)).length := by
      rw [BitVec.toNat_add, hplaced]
      exact Nat.mod_eq_of_lt (by omega)
    refine .turn hbody ?_
    rw [scatter, ← hoffset]
    refine ih ⟨hsep.buffers.of_cons, fun d hd e he ↦ ?_⟩ (fun d hd ↦ hsize d (List.mem_cons_of_mem _ hd))
      (fun d hd ↦ ?_) _ (by omega)
    · exact hsep.descriptors d (List.mem_cons_of_mem _ hd) e (List.mem_cons_of_mem _ he)
    · have hapart : Apart d.address 32 (segmentAt mem₀ p).buffer (segmentAt mem₀ p).size.toNat :=
        hsep.descriptors d (List.mem_cons_of_mem _ hd) _ List.mem_cons_self
      rw [segmentAt_put hapart]
      exact hmem d (List.mem_cons_of_mem _ hd)

theorem scatter_outside {outBuf : Nat → Byte} {chain : List Placed} {x : Word}
    (h : ∀ d ∈ chain, ¬ d.Target x) (offset : Nat) (m : Mem 32) : scatter outBuf offset chain m x = m x := by
  induction chain generalizing offset m with
  | nil => rfl
  | cons d chain ih =>
    rw [scatter, ih fun e he ↦ h e (List.mem_cons_of_mem _ he)]
    exact put_of_not_covers m (h d List.mem_cons_self)

theorem scatter_inside {outBuf : Nat → Byte} {before after : List Placed} {d : Placed} {x : Word}
    (hsep : (before ++ d :: after).Pairwise fun d e ↦ Apart d.seg.buffer d.length e.seg.buffer e.length)
    (hx : d.Target x) (offset : Nat) (m : Mem 32) :
    scatter outBuf offset (before ++ d :: after) m x =
      outBuf (offset + total before + (x - d.seg.buffer).toNat) := by
  induction before generalizing offset m with
  | nil =>
    obtain ⟨hd, -⟩ := List.pairwise_cons.mp hsep
    rw [List.nil_append, scatter, scatter_outside fun e he hcov ↦ (hd e he).not_covers hx hcov]
    exact put_of_covers m hx
  | cons e before ih =>
    rw [List.cons_append, scatter, ih hsep.of_cons, total_cons, Nat.add_assoc offset]

end Walks

section Transfer

variable {δ κ : Type} (host : Host δ κ)

/-- The channel is set up to read the descriptors of a chain, with `FLAG_DATA` in the loaded
segment. -/
structure ReadsChain (w : System δ κ) (ch : Channel) (chain : List Placed) : Prop where
  direction : w.regs.config ch &&& 2 = 0
  segment : ∃ seg, w.regs.dmaSegment ch = some seg ∧ seg.flags &&& 1 ≠ 0
  descriptors : Descriptors w.mem (w.regs.segptr ch) chain
  size : total chain = (w.regs.size ch).toNat
  separate : Separate chain

def stream (w : System δ κ) (ch : Channel) : List Byte :=
  (readFifo host (w.regs.creg ch) (w.regs.size ch).toNat w.dev).1

theorem stream_head {w : System δ κ} {ch : Channel} (h : 0 < (w.regs.size ch).toNat) :
    (stream host w ch)[0]? = some (host.fifo (w.regs.creg ch) w.dev).1 :=
  readFifo_head host _ h _

/-- With enough fuel the write returns and has scattered the FIFO bytes over the chain. -/
def Scatters (w : System δ κ) (addr : BitVec 16) (value : Word) (chain : List Placed) : Prop :=
  ∃ n w', (∀ fuel, n ≤ fuel → write host fuel w addr value = some (.ok w')) ∧
    Scattered chain (stream host w (channelOf addr)) w.mem w'.mem ∧
    w'.regs.size (channelOf addr) = 0 ∧ (w'.regs.status (channelOf addr)).getLsbD 19 = true

variable {host}

theorem bufferSize_of_separate {mem : Mem 32} {p csize : Word} {chain : List Placed}
    (h : Descriptors mem p chain) (hsep : Separate chain) (htotal : total chain = csize.toNat) :
    csize.toNat ≤ bufferSize csize := by
  obtain ⟨d, hd⟩ : ∃ d, d ∈ chain := by
    cases h with
    | last => exact ⟨_, List.mem_cons_self⟩
    | more => exact ⟨_, List.mem_cons_self⟩
  have hsum := sum_le_of_apart ((d.address, 32) :: chain.map fun e ↦ (e.seg.buffer, e.length)) ?_ ?_
  · rw [List.map_cons, List.sum_cons, List.map_map] at hsum
    have htot : (chain.map (Prod.snd ∘ fun e ↦ (e.seg.buffer, e.length))).sum = csize.toNat := htotal
    rw [htot] at hsum
    have h4 : (4 : Word).toNat = 4 := rfl
    rw [bufferSize, BitVec.toNat_add, h4, Nat.mod_eq_of_lt (by omega)]
    omega
  · intro r hr
    rcases List.mem_cons.mp hr with rfl | hr
    · exact Nat.le_of_ble_eq_true rfl
    · obtain ⟨e, -, rfl⟩ := List.mem_map.mp hr
      exact Nat.le_of_lt e.seg.size.isLt
  · refine List.pairwise_cons.mpr ⟨fun r hr ↦ ?_, ?_⟩
    · obtain ⟨e, he, rfl⟩ := List.mem_map.mp hr
      exact hsep.descriptors d hd e he
    · exact List.pairwise_map.mpr hsep.buffers

theorem buffer_getElem? {n : Nat} {bytes : List Byte} {i : Nat} (h : i < bytes.length) :
    bytes[i]? = some (buffer host n bytes i) := by
  rw [buffer, List.getElem?_eq_getElem h]

theorem scattered_scatter (host : Host δ κ) {chain : List Placed} (hsep : Separate chain) {bytes : List Byte}
    (hlen : bytes.length = total chain) (n : Nat) (mem : Mem 32) :
    Scattered chain bytes mem (scatter (buffer host n bytes) 0 chain mem) := by
  refine ⟨fun before d after hchain i hi ↦ ?_, fun x hx ↦ scatter_outside hx 0 mem⟩
  subst hchain
  have hsize := d.seg.size.isLt
  have hlt : i < 2 ^ 32 := Nat.lt_trans hi hsize
  have hcov : d.Target (d.seg.buffer + BitVec.ofNat 32 i) := covers_add _ hi (Nat.le_of_lt hsize)
  have htotal : total (before ++ d :: after) = total before + (d.length + total after) := by
    simp [total]
  rw [scatter_inside hsep.buffers hcov, offset_add _ hlt, Nat.zero_add]
  exact buffer_getElem? (by omega)

theorem complete_status (regs : Registers κ) (ch : Channel) :
    ((complete regs ch).status ch).getLsbD 19 = true := by
  have hbit : (0x80000 : Word).getLsbD 19 = true := by decide
  have hstatus : (complete regs ch).status ch = regs.status ch &&& ~~~0xc0000 ||| 0x80000 :=
    Function.update_self ..
  rw [hstatus, BitVec.getLsbD_or, hbit, Bool.or_true]

theorem startTransfer_of_ends {w : System δ κ} {ch : Channel} {seg : Segment} {t : Fetch δ} {mem : Mem 32}
    (hdir : w.regs.config ch &&& 2 = 0) (hseg : w.regs.dmaSegment ch = some seg)
    (hfetch : Ends (fetch host w.mem (w.regs.creg ch) (w.regs.size ch))
      ⟨firstSeg w.regs ch seg, [], w.dev⟩ (.ok t))
    (hcopy : Ends (copyOut (decode host w.regs seg (w.regs.size ch) t.inBuf).2)
      ⟨firstSeg w.regs ch seg, 0, w.mem⟩ mem) :
    ∃ n, ∀ fuel, n ≤ fuel → startTransfer host fuel w ch =
      some (.ok ⟨complete (decode host w.regs seg (w.regs.size ch) t.inBuf).1 ch, mem, t.dev,
        (ch, true) :: w.irqs⟩) := by
  obtain ⟨n, hn⟩ := hfetch.eventually
  obtain ⟨m, hm⟩ := hcopy.eventually
  refine ⟨max n m, fun fuel hfuel ↦ ?_⟩
  have hf := hn fuel (Nat.le_trans (Nat.le_max_left n m) hfuel)
  have hc := hm fuel (Nat.le_trans (Nat.le_max_right n m) hfuel)
  rw [startTransfer, if_neg fun hne ↦ hne hdir]
  simp only [hseg, hf, hc]

theorem startTransfer_scatters (host : Host δ κ) {w : System δ κ} {ch : Channel} {chain : List Placed}
    (h : ReadsChain w ch chain) (hzero : ∀ d ∈ chain.tail, d.address ≠ 0)
    (hsize : ∀ d ∈ chain, d.length < 2 ^ 31) :
    ∃ n w', (∀ fuel, n ≤ fuel → startTransfer host fuel w ch = some (.ok w')) ∧
      Scattered chain (stream host w ch) w.mem w'.mem ∧
      w'.regs.size ch = 0 ∧ (w'.regs.status ch).getLsbD 19 = true := by
  obtain ⟨seg, hseg, hflag⟩ := h.segment
  have hfirst : firstSeg w.regs ch seg = w.regs.segptr ch := if_pos hflag
  have hfits := bufferSize_of_separate h.descriptors h.separate h.size
  obtain ⟨t, ht, hbuf⟩ := fetch_ends host (w.regs.creg ch) h.descriptors hzero hfits [] w.dev
    (by rw [List.length_nil, Nat.zero_add, h.size])
  rw [List.nil_append, h.size] at hbuf
  have hdecode : decode host w.regs seg (w.regs.size ch) t.inBuf =
      (w.regs, buffer host (bufferSize (w.regs.size ch)) t.inBuf) := if_pos (.inl hflag)
  have hlen : t.inBuf.length = total chain := by rw [hbuf, readFifo_length, h.size]
  have hoff : (0 : Word).toNat + total chain < 2 ^ 32 := by
    have hlt := (w.regs.size ch).isLt
    rw [h.size]
    exact Nat.lt_of_le_of_lt (Nat.le_of_eq (Nat.zero_add _)) hlt
  have hcopy := copyOut_ends (decode host w.regs seg (w.regs.size ch) t.inBuf).2 h.descriptors h.separate
    hsize (fun _ _ ↦ rfl) 0 hoff
  rw [← hfirst] at ht hcopy
  obtain ⟨n, hn⟩ := startTransfer_of_ends h.direction hseg ht hcopy
  refine ⟨n, _, hn, ?_, Function.update_self .., complete_status _ ch⟩
  have hs := scattered_scatter host h.separate hlen (bufferSize (w.regs.size ch)) w.mem
  rw [hdecode]
  rwa [hbuf] at hs ⊢

theorem ReadsChain.clearIrq {w : System δ κ} {ch : Channel} {chain : List Placed}
    (h : ReadsChain w ch chain) (value : Word) : ReadsChain (clearIrq w ch value).1 ch chain := by
  unfold Cdma.clearIrq
  split_ifs
  · exact ⟨h.direction, h.segment, h.descriptors, h.size, h.separate⟩
  · exact h

theorem stream_clearIrq (w : System δ κ) (ch : Channel) (value : Word) :
    stream host (clearIrq w ch value).1 ch = stream host w ch := by
  unfold clearIrq
  split_ifs <;> rfl

theorem mem_clearIrq (w : System δ κ) (ch : Channel) (value : Word) :
    (clearIrq w ch value).1.mem = w.mem := by
  unfold clearIrq
  split_ifs <;> rfl

/-- Starting a read scatters the FIFO bytes over the chain when no later descriptor lies at
address zero and no segment has a negative `int` length. -/
theorem scatter_read (host : Host δ κ) {w : System δ κ} {addr : BitVec 16} {value : Word}
    {chain : List Placed} (hstart : Starts addr value) (h : ReadsChain w (channelOf addr) chain)
    (hzero : ∀ d ∈ chain.tail, d.address ≠ 0) (hsize : ∀ d ∈ chain, d.length < 2 ^ 31) :
    Scatters host w addr value chain := by
  obtain ⟨n, w', hn, hscattered, hdone⟩ := startTransfer_scatters host (h.clearIrq value) hzero hsize
  rw [stream_clearIrq, mem_clearIrq] at hscattered
  refine ⟨n, w', fun fuel hfuel ↦ ?_, hscattered, hdone⟩
  rw [write_start host hstart]
  exact hn fuel hfuel

end Transfer

section Instances

def wordsAt (words : List (Word × Word)) : Mem 32 := fun a ↦
  match words.find? fun p ↦ p.1 = a &&& ~~~3 with
  | some p => p.2.extractLsb' (8 * (a &&& 3).toNat) 8
  | none => 0

def descriptorAt (p address flags buffer size : Word) : List (Word × Word) :=
  [(p, address), (p + 4, flags), (p + 8, buffer), (p + 12, size)]

def onesHost : Host Unit Unit where
  fifo _ _ := (1, ())
  setDecryptKey _ _ key := key
  cbcEncrypt input _ iv _ := (input, iv)
  heap _ := 0

def channel5 (words : List (Word × Word)) (p csize : Word) : System Unit Unit where
  regs :=
    { decryptKey := ()
      size := Function.update (fun _ ↦ 0) 5 csize
      segptr := Function.update (fun _ ↦ 0) 5 p
      dmaSegment := Function.update (fun _ ↦ none) 5 (some (segmentAt (wordsAt words) p)) }
  mem := wordsAt words
  dev := ()

theorem starts_five : Starts 0x5000 1 := ⟨by decide, by decide, by decide⟩

theorem write_five {δ κ : Type} (host : Host δ κ) (fuel : Nat) (w : System δ κ) :
    write host fuel w 0x5000 1 = startTransfer host fuel w 5 := by
  have hchannel : channelOf 0x5000 = 5 := by decide
  rw [write_start host starts_five, hchannel, clearIrq, if_neg fun hc ↦ hc.1 (by decide)]

theorem readsChain_two {words : List (Word × Word)} {p q csize : Word} {d e : Segment}
    (hp : segmentAt (wordsAt words) p = d) (hq : segmentAt (wordsAt words) q = e)
    (hlinked : d.flags &&& 3 = 3 ∧ d.address = q ∧ e.flags &&& 3 = 2)
    (hsize : d.size.toNat + e.size.toNat = csize.toNat)
    (hbuffers : Apart d.buffer d.size.toNat e.buffer e.size.toNat)
    (hdescriptors : (Apart p 32 d.buffer d.size.toNat ∧ Apart p 32 e.buffer e.size.toNat) ∧
      Apart q 32 d.buffer d.size.toNat ∧ Apart q 32 e.buffer e.size.toNat) :
    ReadsChain (channel5 words p csize) 5 [⟨p, d⟩, ⟨q, e⟩] := by
  obtain ⟨hpflags, rfl, hqflags⟩ := hlinked
  have hdirection : (0 : Word) &&& 2 = 0 := by decide
  have hcsize : (channel5 words p csize).regs.size 5 = csize := rfl
  subst hp hq
  refine ⟨hdirection, ⟨_, rfl, ?_⟩, .more hpflags (.last hqflags), ?_, ?_, ?_⟩
  · rw [and_one, hpflags]
    decide
  · simpa [total, Placed.length, hcsize] using hsize
  · simpa [Placed.length] using hbuffers
  · simpa [Placed.length] using hdescriptors

def twoWords : List (Word × Word) :=
  descriptorAt 0x1000 0x1020 3 0x2000 2 ++ descriptorAt 0x1020 0 2 0x3000 1

def first : Segment := ⟨0x1020, 3, 0x2000, 2, #v[0, 0, 0, 0]⟩

def second : Segment := ⟨0, 2, 0x3000, 1, #v[0, 0, 0, 0]⟩

theorem scatter_read_two :
    ReadsChain (channel5 twoWords 0x1000 3) 5 [⟨0x1000, first⟩, ⟨0x1020, second⟩] ∧
      Scatters onesHost (channel5 twoWords 0x1000 3) 0x5000 1 [⟨0x1000, first⟩, ⟨0x1020, second⟩] := by
  have h : ReadsChain (channel5 twoWords 0x1000 3) 5 [⟨0x1000, first⟩, ⟨0x1020, second⟩] := by
    refine readsChain_two ?_ ?_ ?_ ?_ ?_ ?_
    all_goals decide +kernel
  refine ⟨h, scatter_read onesHost starts_five h ?_ ?_⟩
  · intro d hd
    cases List.mem_singleton.mp hd
    decide
  · intro d hd
    simp only [List.mem_cons, List.not_mem_nil, or_false] at hd
    rcases hd with rfl | rfl
    · decide
    · decide

def zeroWords : List (Word × Word) := descriptorAt 0x1000 0 3 0x2000 1 ++ descriptorAt 0 0 2 0x3000 1

def atZero : List Placed :=
  [⟨0x1000, 0, 3, 0x2000, 1, #v[0, 0, 0, 0]⟩, ⟨0, 0, 2, 0x3000, 1, #v[0, 0, 0, 0]⟩]

-- The second byte is not where its descriptor wants it.
theorem zeroWords_write : (write onesHost 8 (channel5 zeroWords 0x1000 2) 0x5000 1).any
      (fun r ↦ r.toOption.any fun v ↦ decide (v.mem 0x3000 = 0)) = true ∧
    (stream onesHost (channel5 zeroWords 0x1000 2) (channelOf 0x5000))[1]? = some 1 := by
  decide +kernel

theorem not_scatters_zero : ¬ Scatters onesHost (channel5 zeroWords 0x1000 2) 0x5000 1 atZero := by
  rintro ⟨n, w, hn, hscattered, -⟩
  obtain ⟨heval, hone⟩ := zeroWords_write
  have hbyte := hscattered.inside [_] _ [] rfl 0 (by decide)
  cases he : write onesHost 8 (channel5 zeroWords 0x1000 2) 0x5000 1 with
  | none =>
    rw [he] at heval
    cases heval
  | some r =>
    have hr := write_mono onesHost starts_five (Nat.le_max_right n 8) he
    rw [hn _ (Nat.le_max_left n 8)] at hr
    cases hr
    rw [he] at heval
    have hzero : w.mem 0x3000 = 0 := of_decide_eq_true heval
    have hvalue := Option.some.inj (hone.symm.trans hbyte)
    have haddress : (0x3000 : Word) + BitVec.ofNat 32 0 = 0x3000 := by decide
    rw [haddress, hzero] at hvalue
    exact absurd hvalue (by decide)

def longWords : List (Word × Word) :=
  descriptorAt 0x1000 0x1020 3 0x80000000 0x80000000 ++ descriptorAt 0x1020 0 2 0x4000 0

def long : List Placed :=
  [⟨0x1000, 0x1020, 3, 0x80000000, 0x80000000, #v[0, 0, 0, 0]⟩, ⟨0x1020, 0, 2, 0x4000, 0, #v[0, 0, 0, 0]⟩]

theorem longWords_segments : (segmentAt (wordsAt longWords) 0x1000 =
      ⟨0x1020, 3, 0x80000000, 0x80000000, #v[0, 0, 0, 0]⟩ ∧
      segmentAt (wordsAt longWords) 0x1020 = ⟨0, 2, 0x4000, 0, #v[0, 0, 0, 0]⟩) ∧
    firstSeg (channel5 longWords 0x1000 0x80000000).regs 5 (segmentAt (wordsAt longWords) 0x1000) = 0x1000 ∧
      wordsAt longWords (0x80000000 + BitVec.ofNat 32 0) = 0 := by
  decide +kernel

theorem readsChain_long : ReadsChain (channel5 longWords 0x1000 0x80000000) 5 long := by
  obtain ⟨⟨hfirst, hsecond⟩, -⟩ := longWords_segments
  refine readsChain_two hfirst hsecond ?_ ?_ ?_ ?_
  all_goals decide

/-- A length of two gigabytes is negative for `cpu_physical_memory_write`. -/
theorem copyOut_long (outBuf : Nat → Byte) :
    Ends (copyOut outBuf) ⟨0x1000, 0, wordsAt longWords⟩ (wordsAt longWords) := by
  obtain ⟨⟨hfirst, hsecond⟩, -⟩ := longWords_segments
  have hempty (bytes : Nat → Byte) : physWrite (wordsAt longWords) 0x4000 bytes 0 = wordsAt longWords := by
    rw [physWrite, if_neg (by decide)]
    funext x
    exact put_of_not_covers _ (Nat.not_lt_zero _)
  have hturn : copyOut outBuf ⟨0x1000, 0, wordsAt longWords⟩ =
      .inl ⟨0x1020, 0x80000000, wordsAt longWords⟩ := by
    rw [copyOut]
    simp only [hfirst]
    rfl
  refine .turn hturn (.exit ?_)
  rw [copyOut]
  simp only [hsecond]
  rw [if_neg (by decide), if_neg (by decide), hempty]

theorem not_scatters_long :
    ¬ Scatters onesHost (channel5 longWords 0x1000 0x80000000) 0x5000 1 long := by
  rintro ⟨n, w, hn, hscattered, -⟩
  have h : ReadsChain (channel5 longWords 0x1000 0x80000000) 5 long := readsChain_long
  have hfits : (0x80000000 : Word).toNat ≤ bufferSize 0x80000000 := by decide
  have hzero : ∀ d ∈ long.tail, d.address ≠ 0 := by
    intro d hd
    cases List.mem_singleton.mp hd
    decide
  obtain ⟨t, ht, -⟩ := fetch_ends onesHost 0 h.descriptors hzero hfits [] () (by decide)
  have hseg : (channel5 longWords 0x1000 0x80000000).regs.dmaSegment 5 =
      some (segmentAt (wordsAt longWords) 0x1000) := rfl
  obtain ⟨-, hfirst, hmem⟩ := longWords_segments
  obtain ⟨m, hm⟩ := startTransfer_of_ends h.direction hseg (hfirst ▸ ht) (hfirst ▸ copyOut_long _)
  have hw := hn _ (Nat.le_max_left n m)
  rw [write_five, hm _ (Nat.le_max_right n m)] at hw
  cases hw
  have hbyte := hscattered.inside [] _ [_] rfl 0 (by decide)
  have hindex : total [] + 0 = 0 := rfl
  have hpos : 0 < ((channel5 longWords 0x1000 0x80000000).regs.size 5).toNat := by decide
  have hchannel : channelOf 0x5000 = 5 := by decide
  rw [hchannel, hindex, stream_head onesHost hpos] at hbyte
  have hvalue : (1 : Byte) = wordsAt longWords (0x80000000 + BitVec.ofNat 32 0) := Option.some.inj hbyte
  rw [hmem] at hvalue
  exact absurd hvalue (by decide)

/-- The transfer fails when a later descriptor lies at address zero, and when a segment is
two gigabytes long. -/
theorem scatter_read_fails : Starts 0x5000 1 ∧
    (ReadsChain (channel5 zeroWords 0x1000 2) 5 atZero ∧
      ¬ Scatters onesHost (channel5 zeroWords 0x1000 2) 0x5000 1 atZero) ∧
    ReadsChain (channel5 longWords 0x1000 0x80000000) 5 long ∧
      ¬ Scatters onesHost (channel5 longWords 0x1000 0x80000000) 0x5000 1 long := by
  refine ⟨starts_five, ⟨?_, not_scatters_zero⟩, readsChain_long, not_scatters_long⟩
  refine readsChain_two ?_ ?_ ?_ ?_ ?_ ?_
  all_goals decide +kernel

end Instances

end IDeviceEmulator.Cdma
