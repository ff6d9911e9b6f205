import IDeviceEmulator.Nor.Spi

namespace IDeviceEmulator.Nor

open Machine

/-- `RX_BUFFER_LEFT`. -/
def rxBufferLeft (x : Word) : Word := (x >>> 11) &&& 0x1f

/-- The receive count that the status word shows. -/
def Spi.level (s : Spi) : Nat := (rxBufferLeft s.status).toNat

/-- An access within a transfer starts no other and sets no other length. -/
def Access.Within : Access → Prop
  | write offset val => (offset = 0x00 → val &&& 1 = 0) ∧ offset ≠ 0x34
  | _ => True

/-- The controller has sent a `READ`, and `n` bytes of it remain. -/
def Spi.Receiving (s : Spi) (n : Nat) : Prop := ∃ f, s.pflash = some f ∧ f.cmd = 0x03 ∧ f.rxLen.toNat = n

/-- From the receive start on, the status word shows after each count how many bytes remain. -/
structure ShowsRemaining (s : Spi) (val : Word) (n : Nat) (ops : List Access) : Prop where
  start : ∀ t, Run access s [.write 0x00 val] t → t.level = min n 0x1f
  reads : ∀ pre t, pre ++ [.read 0x20] <+: ops → Run access s (.write 0x00 val :: pre ++ [.read 0x20]) t →
    t.level = min (n - (pre.count (.read 0x20) + 1)) 0x1f

def Access.clears : Access → Bool
  | write offset _ => offset = 0x08
  | _ => false

/-- The status register is written between a count and a lower one. -/
def Clears : Bool → Nat → List Access → Prop
  | _, _, [] => True
  | cleared, n, a :: ops =>
    if a = .read 0x20 then (cleared = true ∨ n = 0 ∨ 0x1f < n) ∧ Clears false (n - 1) ops
    else Clears (cleared || a.clears) n ops

section Level

variable {s t : Spi} {f : Flash} {n : Nat}

theorem rxBufferLeft_or (x y : Word) : rxBufferLeft (x ||| y) = rxBufferLeft x ||| rxBufferLeft y := by
  unfold rxBufferLeft
  rw [BitVec.ushiftRight_or_distrib, BitVec.and_or_distrib_right]

/-- The ready bit is outside the field. -/
theorem rxBufferLeft_ready (x : Word) : rxBufferLeft (x ||| 1#32) = rxBufferLeft x := by
  have hzero : rxBufferLeft 1#32 = 0#32 := by decide
  rw [rxBufferLeft_or, hzero, BitVec.or_zero]

theorem rxBufferLeft_count {c : Word} (h : c.toNat ≤ 0x1f) : rxBufferLeft (c <<< 11) = c := by
  have hshifted : (c <<< 11).toNat = c.toNat * 2048 := by
    rw [BitVec.toNat_shiftLeft, Nat.shiftLeft_eq]
    exact Nat.mod_eq_of_lt (by omega)
  have hmask : (0x1f : Word).toNat = 2 ^ 5 - 1 := rfl
  apply BitVec.eq_of_toNat_eq
  rw [rxBufferLeft, BitVec.toNat_and, BitVec.toNat_ushiftRight, hshifted, hmask, Nat.and_two_pow_sub_one_eq_mod,
    Nat.shiftRight_eq_div_pow]
  omega

/-- The counts are put in on top of what is there. -/
theorem level_or {c : Word} (h : c.toNat ≤ 0x1f) (x : Word) :
    (rxBufferLeft (x ||| c <<< 11)).toNat = (rxBufferLeft x).toNat ||| c.toNat := by
  rw [rxBufferLeft_or, rxBufferLeft_count h, BitVec.toNat_or]

theorem cmdLen_read (hcmd : f.cmd = 0x03) :
    (cmdLen f).1 = f ∧ (cmdLen f).2.toNat = min f.rxLen.toNat 0x1f := by
  have hlen : cmdLen f = (f, if 0x1f ≤ f.rxLen then 0x1f else f.rxLen) := by
    have h : f.cmd.toNat = 0x03 := by rw [hcmd]; rfl
    simp only [cmdLen, h]
  have hthirtyOne : (0x1f : Word).toNat = 0x1f := rfl
  rw [hlen]
  refine ⟨rfl, ?_⟩
  dsimp only
  split
  · rename_i hle
    have hle : 0x1f ≤ f.rxLen.toNat := hle
    rw [hthirtyOne]
    omega
  · rename_i hlt
    have hlt : ¬ 0x1f ≤ f.rxLen.toNat := hlt
    omega

theorem cmdParse_remaining {g : Flash} {v : Word} (hcmd : f.cmd = 0x03) (h : cmdParse f = .ok (g, v)) :
    g.cmd = 0x03 ∧ g.rxLen.toNat = f.rxLen.toNat - 1 := by
  have hopcode : f.cmd.toNat = 0x03 := by rw [hcmd]; rfl
  have hone : (1 : Word).toNat = 1 := rfl
  unfold cmdParse at h
  simp only [hopcode] at h
  split_ifs at h with hzero
  · cases h
    refine ⟨hcmd, ?_⟩
    rw [hzero]
    rfl
  · have hpos : f.rxLen.toNat ≠ 0 := fun heq ↦ hzero (BitVec.eq_of_toNat_eq heq)
    split at h
    · cases h
    · cases h
      refine ⟨hcmd, ?_⟩
      have hle : (1 : Word) ≤ f.rxLen := by
        rw [BitVec.le_def, hone]
        omega
      dsimp only
      rw [BitVec.toNat_sub_of_le hle, hone]

theorem received_status (g : Flash) (v : Word) :
    (s.received g v).status = s.status ||| (cmdLen g).2 <<< 11 := by
  simp only [Spi.received]
  split_ifs
  · rfl
  · rfl

theorem rxdata_level (h : s.Receiving n) {o : Option Word} (hstep : access s (.read 0x20) = .ok (t, o)) :
    t.Receiving (n - 1) ∧ t.level = s.level ||| min (n - 1) 0x1f := by
  obtain ⟨f, hf, hcmd, hlen⟩ := h
  have hread : s.mmRead 0x20 = (cmdParse f).map fun r ↦ (s.received r.1 r.2, r.2) := withFlash_some hf _
  obtain ⟨p, hp, heq⟩ := ok_of_map hstep
  rw [hread] at hp
  obtain ⟨⟨g, v⟩, hparse, rfl⟩ := ok_of_map hp
  cases heq
  obtain ⟨hgcmd, hglen⟩ := cmdParse_remaining hcmd hparse
  obtain ⟨hself, hcount⟩ := cmdLen_read hgcmd
  have hsmall : (cmdLen g).2.toNat ≤ 0x1f := by
    rw [hcount]
    exact Nat.min_le_right _ _
  dsimp only
  constructor
  · refine ⟨g, ?_, hgcmd, ?_⟩
    · rw [received_pflash, hself]
    · rw [hglen, hlen]
  · rw [Spi.level, received_status, level_or hsmall, hcount, hglen, hlen]
    rfl

theorem start_level (h : s.Receiving n) (hsetup : s.setup &&& 0x200000 = 0) {val : Word} (hval : val &&& 1 ≠ 0)
    {o : Option Word} (hstep : access s (.write 0x00 val) = .ok (t, o)) :
    t.Receiving n ∧ t.level = s.level ||| min n 0x1f := by
  obtain ⟨f, hf, hcmd, hlen⟩ := h
  obtain ⟨hself, hcount⟩ := cmdLen_read hcmd
  have hsmall : (cmdLen f).2.toNat ≤ 0x1f := by
    rw [hcount]
    exact Nat.min_le_right _ _
  rw [access_control hval hf] at hstep
  cases hstep
  constructor
  · refine ⟨f, ?_, hcmd, hlen⟩
    exact start_rx hsetup (by rw [hcmd]; decide)
  · rw [Spi.level, Spi.start, if_neg (not_not_intro hsetup)]
    change (rxBufferLeft (s.status ||| 1#32 ||| (cmdLen f).2 <<< 11)).toNat = _
    rw [level_or hsmall, rxBufferLeft_ready, hcount, hlen]
    rfl

theorem mmWrite_within {offset val : Word} (hwithin : (Access.write offset val).Within)
    (h : s.mmWrite offset val = .ok t) :
    t.pflash = s.pflash ∧ t.status = if offset = 0x08 then 0 else s.status := by
  by_cases hstatus : offset = 0x08
  · subst hstatus
    cases h
    exact ⟨rfl, rfl⟩
  rw [if_neg hstatus]
  by_cases hcontrol : offset = 0x00
  · subst hcontrol
    have hself : s.mmWrite 0x00 val = .ok s := if_neg (not_not_intro (hwithin.1 rfl))
    cases hself.symm.trans h
    exact ⟨rfl, rfl⟩
  by_cases htx : offset = 0x10
  · subst htx
    have hwritten : s.writeTxdata val = .ok t := h
    unfold Spi.writeTxdata at hwritten
    split_ifs at hwritten
    cases hwritten
    exact ⟨rfl, rfl⟩
  · obtain ⟨u, hu, hflash, hsame, -⟩ :=
      mmWrite_other (not_mem_registers hcontrol hstatus htx hwithin.2) s val
    cases hu.symm.trans h
    exact ⟨hflash, hsame⟩

theorem expire_level (s : Spi) : s.expire.pflash = s.pflash ∧ s.expire.level = s.level := by
  simp only [Spi.expire]
  split_ifs
  · refine ⟨rfl, ?_⟩
    exact congrArg BitVec.toNat (rxBufferLeft_ready s.status)
  · exact ⟨rfl, rfl⟩
  · exact ⟨rfl, rfl⟩

theorem other_level (h : s.Receiving n) {a : Access} (ha : a.Within) (hne : a ≠ .read 0x20) {o : Option Word}
    (hstep : access s a = .ok (t, o)) :
    t.Receiving n ∧ t.level = if a.clears then 0 else s.level := by
  obtain ⟨f, hf, hread⟩ := h
  cases a with
  | read offset =>
    obtain ⟨⟨u, v⟩, hu, heq⟩ := ok_of_map hstep
    cases heq
    obtain ⟨irq, w, hw⟩ := mmRead_other (fun heq ↦ hne (congrArg Access.read heq)) s
    cases hw.symm.trans hu
    exact ⟨⟨f, hf, hread⟩, rfl⟩
  | write offset val =>
    obtain ⟨u, hu, heq⟩ := ok_of_map hstep
    cases heq
    obtain ⟨hflash, hstatus⟩ := mmWrite_within ha hu
    refine ⟨⟨f, hflash.trans hf, hread⟩, ?_⟩
    rw [Spi.level, hstatus, Access.clears]
    by_cases hoffset : offset = 0x08
    · rw [if_pos hoffset, if_pos (decide_eq_true hoffset)]
      rfl
    · rw [if_neg hoffset, if_neg (by rw [decide_eq_true_iff]; exact hoffset)]
      rfl
  | expire =>
    cases hstep
    obtain ⟨hflash, hlevel⟩ := expire_level s
    exact ⟨⟨f, hflash.trans hf, hread⟩, hlevel⟩

/-- The counts that reads put in are right. -/
def ReadsRight (s : Spi) (n : Nat) (ops : List Access) : Prop :=
  ∀ pre t, pre ++ [.read 0x20] <+: ops → Run access s (pre ++ [.read 0x20]) t →
    t.level = min (n - (pre.count (.read 0x20) + 1)) 0x1f

def Access.remaining (a : Access) (n : Nat) : Nat := if a = .read 0x20 then n - 1 else n

theorem readsRight_cons {a : Access} {ops : List Access} {o : Option Word} (hstep : access s a = .ok (t, o)) :
    ReadsRight s n (a :: ops) ↔
      (a = .read 0x20 → t.level = min (n - 1) 0x1f) ∧ ReadsRight t (a.remaining n) ops := by
  have hcount (pre : List Access) : n - ((a :: pre).count (.read 0x20) + 1) =
      a.remaining n - (pre.count (.read 0x20) + 1) := by
    rw [Access.remaining]
    by_cases ha : a = .read 0x20
    · rw [if_pos ha, ha, List.count_cons_self]
      omega
    · rw [if_neg ha, List.count_cons_of_ne ha]
  constructor
  · intro h
    constructor
    · intro ha
      subst ha
      exact h [] t (List.cons_prefix_cons.mpr ⟨rfl, List.nil_prefix⟩) (.one hstep)
    · intro pre u hp hr
      rw [← hcount]
      exact h (a :: pre) u (List.cons_prefix_cons.mpr ⟨rfl, hp⟩) (.cons hstep hr)
  · rintro ⟨hhere, hrest⟩ pre u hp hr
    cases pre with
    | nil =>
      obtain ⟨hread, -⟩ := List.cons_prefix_cons.mp hp
      cases hr.deterministic (.one (hread ▸ hstep))
      exact hhere hread.symm
    | cons b pre =>
      obtain ⟨rfl, hpre⟩ := List.cons_prefix_cons.mp hp
      rw [hcount]
      cases hr with
      | cons hs hu =>
        cases hstep.symm.trans hs
        exact hrest pre u hpre hu

/-- A count on top of another is right if and only if the other is no higher. -/
theorem or_min_eq_iff {l m : Nat} (hl : l = 0 ∨ m ≤ l) : l ||| m = m ↔ l = 0 ∨ l = m := by
  constructor
  · intro h
    rcases hl with hzero | hle
    · exact .inl hzero
    · have hleft : l ≤ l ||| m := Nat.left_le_or
      exact .inr (by omega)
  · rintro (rfl | rfl)
    · exact Nat.zero_or _
    · exact Nat.or_self _

theorem readsRight_iff {cleared : Bool} {ops : List Access} (h : s.Receiving n)
    (hlevel : s.level = if cleared then 0 else min n 0x1f) (hops : ∀ a ∈ ops, a.Within)
    (hrun : Run access s ops t) : ReadsRight s n ops ↔ Clears cleared n ops := by
  induction ops generalizing s n cleared with
  | nil =>
    refine iff_of_true ?_ trivial
    intro pre u hp
    simp at hp
  | cons a ops ih =>
    cases hrun with
    | cons hstep hrun =>
      rename_i u o
      have hrest : ∀ b ∈ ops, b.Within := fun b hb ↦ hops b (List.mem_cons_of_mem _ hb)
      rw [readsRight_cons hstep, Clears, Access.remaining]
      by_cases ha : a = .read 0x20
      · subst ha
        obtain ⟨hu, hul⟩ := rxdata_level h hstep
        have hright : u.level = min (n - 1) 0x1f ↔ cleared = true ∨ n = 0 ∨ 0x1f < n := by
          rw [hul, hlevel]
          cases cleared with
          | true => simp
          | false =>
            have hle : min (n - 1) 0x1f ≤ min n 0x1f := by omega
            simp only [Bool.false_eq_true, if_false, false_or]
            rw [or_min_eq_iff (.inr hle)]
            omega
        have hnext (hhere : u.level = min (n - 1) 0x1f) : ReadsRight u (n - 1) ops ↔ Clears false (n - 1) ops := by
          apply ih hu _ hrest hrun
          rw [hhere]
          rfl
        rw [if_pos rfl, if_pos rfl, ← hright]
        constructor
        · intro hboth
          exact ⟨hboth.1 rfl, (hnext (hboth.1 rfl)).mp hboth.2⟩
        · intro hboth
          exact ⟨fun _ ↦ hboth.1, (hnext hboth.1).mpr hboth.2⟩
      · obtain ⟨hu, hul⟩ := other_level h (hops a List.mem_cons_self) ha hstep
        have hnext : u.level = if cleared || a.clears then 0 else min n 0x1f := by
          rw [hul, hlevel]
          cases a.clears with
          | true => simp
          | false => simp
        rw [if_neg ha, if_neg ha, ← ih hu hnext hrest hrun]
        constructor
        · intro hboth
          exact hboth.2
        · intro hreads
          exact ⟨fun heq ↦ absurd heq ha, hreads⟩

end Level

/-- A `READ` of `n` bytes shows the remaining bytes at every count if and only if no stale bits are
there at the receive start, and the status register is written before every count that is lower
than the last one. -/
theorem showsRemaining_iff {s t : Spi} {n : Nat} (h : s.Receiving n) (hsetup : s.setup &&& 0x200000 = 0) {val : Word}
    (hval : val &&& 1 ≠ 0) {ops : List Access} (hops : ∀ a ∈ ops, a.Within)
    (hrun : Run access s (.write 0x00 val :: ops) t) :
    ShowsRemaining s val n ops ↔ s.level ||| min n 0x1f = min n 0x1f ∧ Clears false n ops := by
  cases hrun with
  | cons hstep hrun =>
    rename_i u o
    obtain ⟨hu, hul⟩ := start_level h hsetup hval hstep
    have hreads (hright : u.level = min n 0x1f) : ReadsRight u n ops ↔ Clears false n ops :=
      readsRight_iff hu hright hops hrun
    rw [← hul]
    constructor
    · intro hshows
      have hright := hshows.start u (.one hstep)
      refine ⟨hright, (hreads hright).mp ?_⟩
      intro pre v hp hr
      exact hshows.reads pre v hp (.cons hstep hr)
    · rintro ⟨hright, hclears⟩
      constructor
      · intro v hv
        cases hv.deterministic (.one hstep)
        exact hright
      · intro pre v hp hr
        cases hr with
        | cons hs hv =>
          cases hstep.symm.trans hs
          exact (hreads hright).mpr hclears pre v hp hv

/-- The flash after the `READ` of two bytes has been sent. -/
def readingFlash : Flash := (Command.read 1 2).issue sampleFlash

theorem showsRemaining_cleared :
    ShowsRemaining { pflash := some readingFlash } 1 2
      [.write 0x08 0, .read 0x20, .read 0x08, .write 0x08 0, .read 0x20] := by
  obtain ⟨t, hrun, -⟩ : ∃ t, Run access { pflash := some readingFlash } (.write 0x00 1 ::
      [.write 0x08 0, .read 0x20, .read 0x08, .write 0x08 0, .read 0x20]) t ∧ t.status = t.status :=
    exists_run_of_exec (by decide +kernel)
  refine (showsRemaining_iff ⟨readingFlash, rfl, rfl, rfl⟩ (by decide) (by decide) ?_ hrun).mpr ?_
  · simp [Access.Within]
  · refine ⟨by decide, ?_⟩
    simp [Clears, Access.clears]

/-- In the transfer of two bytes from the state at power on, the count of the second byte is put in
on top of the count of both. -/
theorem showsRemaining_fails :
    ∃ s, Run access { pflash := some sampleFlash } ((readCommand ⟨0, 0x200000, 0, 1, 1⟩ 1 2).dropLast) s ∧
      ¬ ShowsRemaining s 1 2 [.read 0x20] := by
  obtain ⟨s, hrun, hlevel⟩ : ∃ s, Run access { pflash := some sampleFlash }
      ((readCommand ⟨0, 0x200000, 0, 1, 1⟩ 1 2).dropLast) s ∧
        (exec access s [.write 0x00 1, .read 0x20]).toOption.map (fun r ↦ r.1.level) = some 3 :=
    exists_run_of_exec (by decide +kernel)
  refine ⟨s, hrun, ?_⟩
  intro hshows
  cases hexec : exec access s [.write 0x00 1, .read 0x20] with
  | error e =>
    rw [hexec] at hlevel
    cases hlevel
  | ok r =>
    rw [hexec] at hlevel
    have hone := hshows.reads [] r.1 (List.prefix_refl _) (run_of_exec hexec)
    cases hone.symm.trans (Option.some.inj hlevel)

end IDeviceEmulator.Nor
