import IDeviceEmulator.Nor.Spi

namespace IDeviceEmulator.Nor

open Machine

/-- The first `bdrv_read` fills the storage, or fails. -/
def pflashSpiRegister (sectorLen nbBlocs : Word) (id0 id1 id2 : BitVec 16)
    (image : Option (Vector Byte (sectorLen * nbBlocs).toNat)) : Option Flash :=
  image.map fun storage ↦ { chipLen := sectorLen * nbBlocs, storage, ident := #v[id0, id1, id2] }

/-- What is read of the image that `-pflash` names. -/
abbrev Image := Option (Vector Byte (4096 * 256 : Word).toNat)

/-- `s5l8930_spi_init1`. The first controller gets what the registration of the flash returns, and `intnum` counts it. -/
def Spi.init1 (intnum : Nat) (image : Image) : Spi × Nat :=
  if intnum = 0 then ({ pflash := pflashSpiRegister 4096 256 0x1f 0x45 0x02 image }, intnum + 1)
  else ({ pflash := none }, intnum)

namespace Access

def usesFlash : Access → Bool
  | read offset => offset = 0x20
  | write offset val => (offset = 0x00 && val &&& 1 ≠ 0) || offset = 0x34
  | expire => false

def fills : Access → Bool
  | write offset _ => offset = 0x10
  | _ => false

/-- The transmit index after an access. -/
def index (k : Nat) : Access → Nat
  | write offset _ => if offset = 0x08 then 0 else if offset = 0x10 then k + 1 else k
  | _ => k

end Access

/-- The words that are transmitted after the last write of the status register. -/
def transmitted (as : List Access) : Nat := as.foldl Access.index 0

def Harmless {α : Type} (x : Except Fault α) : Prop := ∀ e, x = .error e → e ≠ .txRange ∧ e ≠ .nullDeref

/-- An access neither goes behind the transmit data nor dereferences an absent flash. -/
def Spi.Safe (s : Spi) (a : Access) : Prop := Harmless (access s a)

section Safety

variable {α β : Type} {s t : Spi}

theorem harmless_ok (a : α) : Harmless (.ok a) := by
  intro e h
  cases h

theorem harmless_map {x : Except Fault α} (f : α → β) : Harmless (x.map f) ↔ Harmless x := by
  cases x with
  | ok a => exact iff_of_true (harmless_ok (f a)) (harmless_ok a)
  | error e =>
    constructor
    · intro h e' he
      cases he
      exact h e rfl
    · intro h e' he
      cases he
      exact h e rfl

theorem harmless_cmdParse (f : Flash) : Harmless (cmdParse f) := by
  intro e h
  unfold cmdParse at h
  split at h
  · cases h
  · cases h
  · split at h
    · cases h
      exact ⟨by decide, by decide⟩
    · cases h
  · split_ifs at h
    split at h
    · cases h
      exact ⟨by decide, by decide⟩
    · cases h
  · cases h

theorem harmless_withFlash (s : Spi) {k : Flash → Except Fault α} (hk : ∀ f, Harmless (k f)) :
    Harmless (s.withFlash k) ↔ s.pflash ≠ none := by
  unfold Spi.withFlash
  cases s.pflash with
  | none =>
    refine iff_of_false ?_ (not_not_intro rfl)
    intro h
    exact (h .nullDeref rfl).2 rfl
  | some f => exact iff_of_true (hk f) (Option.some_ne_none f)

theorem harmless_mmRead (s : Spi) (offset : Word) :
    Harmless (s.mmRead offset) ↔ ((Access.read offset).usesFlash = true → s.pflash ≠ none) := by
  rw [Access.usesFlash, decide_eq_true_iff]
  by_cases hoffset : offset = 0x20
  · subst hoffset
    have hread : Harmless s.readRxdata ↔ s.pflash ≠ none := by
      apply harmless_withFlash
      intro f
      exact (harmless_map _).mpr (harmless_cmdParse f)
    exact hread.trans ⟨fun h _ ↦ h, fun h ↦ h rfl⟩
  · obtain ⟨irq, v, hv⟩ := mmRead_other hoffset s
    rw [hv]
    exact iff_of_true (harmless_ok _) fun heq ↦ absurd heq hoffset

theorem harmless_writeTxdata (s : Spi) (val : Word) : Harmless (s.writeTxdata val) ↔ s.txBuffer.toNat < 10 := by
  unfold Spi.writeTxdata
  split
  · rename_i hfits
    exact iff_of_true (harmless_ok _) hfits
  · rename_i hfull
    refine iff_of_false ?_ hfull
    intro h
    exact (h .txRange rfl).1 rfl

theorem harmless_mmWrite (s : Spi) (offset val : Word) :
    Harmless (s.mmWrite offset val) ↔
      ((Access.write offset val).usesFlash = true → s.pflash ≠ none) ∧
        ((Access.write offset val).fills = true → s.txBuffer.toNat < 10) := by
  by_cases hcontrol : offset = 0#32
  · subst hcontrol
    by_cases hval : val &&& 1#32 = 0#32
    · have hself : s.mmWrite 0#32 val = .ok s := if_neg (not_not_intro hval)
      rw [hself]
      refine iff_of_true (harmless_ok _) ?_
      simp [Access.usesFlash, Access.fills, hval]
    · have hstart : s.mmWrite 0#32 val = s.withFlash fun f ↦ .ok (s.start f) := if_pos hval
      rw [hstart, harmless_withFlash s fun f ↦ harmless_ok _]
      simp [Access.usesFlash, Access.fills, hval]
  by_cases hstatus : offset = 0x08#32
  · subst hstatus
    refine iff_of_true (harmless_ok _) ?_
    simp [Access.usesFlash, Access.fills]
  by_cases htx : offset = 0x10#32
  · subst htx
    refine (harmless_writeTxdata s val).trans ?_
    simp [Access.usesFlash, Access.fills]
  by_cases hcnt : offset = 0x34#32
  · subst hcnt
    refine (harmless_withFlash s fun f ↦ harmless_ok _).trans ?_
    simp [Access.usesFlash, Access.fills]
  · obtain ⟨t, ht, -⟩ := mmWrite_other (not_mem_registers hcontrol hstatus htx hcnt) s val
    rw [ht]
    refine iff_of_true (harmless_ok _) ?_
    simp [Access.usesFlash, Access.fills, hcontrol, htx, hcnt]

theorem safe_iff (s : Spi) (a : Access) :
    s.Safe a ↔ (a.usesFlash = true → s.pflash ≠ none) ∧ (a.fills = true → s.txBuffer.toNat < 10) := by
  cases a with
  | read offset =>
    rw [Spi.Safe, access, harmless_map, harmless_mmRead]
    simp [Access.fills]
  | write offset val => rw [Spi.Safe, access, harmless_map, harmless_mmWrite]
  | expire =>
    rw [Spi.Safe, access]
    exact iff_of_true (harmless_ok _) ⟨fun h ↦ (by cases h), fun h ↦ (by cases h)⟩

theorem start_index (f : Flash) : (s.start f).txBuffer = s.txBuffer ∧ (s.start f).pflash.isSome = true := by
  unfold Spi.start
  split
  · exact ⟨rfl, rfl⟩
  · exact ⟨rfl, rfl⟩

theorem withFlash_ok {k : Flash → Except Fault α} {a : α} (h : s.withFlash k = .ok a) :
    s.pflash.isSome = true ∧ ∃ f, k f = .ok a := by
  unfold Spi.withFlash at h
  cases hf : s.pflash with
  | none =>
    rw [hf] at h
    cases h
  | some f =>
    rw [hf] at h
    exact ⟨rfl, f, h⟩

theorem index_write {offset val : Word} (h : s.mmWrite offset val = .ok t) :
    t.txBuffer.toNat = (Access.write offset val).index s.txBuffer.toNat ∧ t.pflash.isSome = s.pflash.isSome := by
  rw [Access.index]
  by_cases hstatus : offset = 0x08
  · subst hstatus
    cases h
    exact ⟨rfl, rfl⟩
  rw [if_neg hstatus]
  by_cases htx : offset = 0x10
  · subst htx
    have hwritten : s.writeTxdata val = .ok t := h
    unfold Spi.writeTxdata at hwritten
    split_ifs at hwritten with hfits
    cases hwritten
    have hone : (1 : Word).toNat = 1 := rfl
    dsimp only
    rw [if_pos rfl, BitVec.toNat_add, hone, Nat.mod_eq_of_lt (by omega)]
    exact ⟨rfl, rfl⟩
  rw [if_neg htx]
  by_cases hcontrol : offset = 0x00
  · subst hcontrol
    by_cases hval : val &&& 1 = 0
    · have hself : s.mmWrite 0x00 val = .ok s := if_neg (not_not_intro hval)
      cases hself.symm.trans h
      exact ⟨rfl, rfl⟩
    · have hstart : s.mmWrite 0x00 val = s.withFlash fun f ↦ .ok (s.start f) := if_pos hval
      obtain ⟨hsome, f, hf⟩ := withFlash_ok (hstart.symm.trans h)
      cases hf
      obtain ⟨hindex, hflash⟩ := start_index (s := s) f
      rw [hindex, hflash, hsome]
      exact ⟨rfl, rfl⟩
  by_cases hcnt : offset = 0x34
  · subst hcnt
    obtain ⟨hsome, f, hf⟩ := withFlash_ok h
    cases hf
    rw [hsome]
    exact ⟨rfl, rfl⟩
  · obtain ⟨u, hu, hflash, -, hindex⟩ := mmWrite_other (not_mem_registers hcontrol hstatus htx hcnt) s val
    cases hu.symm.trans h
    rw [hindex, hflash]
    exact ⟨rfl, rfl⟩

theorem received_index (f : Flash) (v : Word) :
    (s.received f v).txBuffer = s.txBuffer ∧ (s.received f v).pflash.isSome = true := by
  simp only [Spi.received]
  split_ifs
  · exact ⟨rfl, rfl⟩
  · exact ⟨rfl, rfl⟩

theorem index_step {a : Access} {o : Option Word} (h : access s a = .ok (t, o)) :
    t.txBuffer.toNat = a.index s.txBuffer.toNat ∧ t.pflash.isSome = s.pflash.isSome := by
  cases a with
  | read offset =>
    obtain ⟨⟨u, v⟩, hu, heq⟩ := ok_of_map h
    cases heq
    by_cases hoffset : offset = 0x20
    · subst hoffset
      obtain ⟨hsome, f, hf⟩ := withFlash_ok (s := s) hu
      obtain ⟨r, -, heq⟩ := ok_of_map hf
      cases heq
      obtain ⟨hindex, hflash⟩ := received_index (s := s) r.1 r.2
      rw [hindex, hflash, hsome]
      exact ⟨rfl, rfl⟩
    · obtain ⟨irq, w, hw⟩ := mmRead_other hoffset s
      cases hw.symm.trans hu
      exact ⟨rfl, rfl⟩
  | write offset val =>
    obtain ⟨u, hu, heq⟩ := ok_of_map h
    cases heq
    exact index_write hu
  | expire =>
    cases h
    simp only [Spi.expire]
    split_ifs
    · exact ⟨rfl, rfl⟩
    · exact ⟨rfl, rfl⟩
    · exact ⟨rfl, rfl⟩

theorem index_run {as : List Access} (h : Run access s as t) :
    t.txBuffer.toNat = as.foldl Access.index s.txBuffer.toNat ∧ t.pflash.isSome = s.pflash.isSome := by
  induction h with
  | nil s => exact ⟨rfl, rfl⟩
  | cons hstep _ ih =>
    obtain ⟨hindex, hflash⟩ := index_step hstep
    rw [hindex, hflash] at ih
    exact ih

end Safety

/-- An access is made within the bounds: on the first controller, with an image that could be read, if it uses the
flash, and after less than ten words if it fills in another. -/
def WithinBounds (intnum : Nat) (image : Image) (before : List Access) (a : Access) : Prop :=
  (a.usesFlash = true → intnum = 0 ∧ image ≠ none) ∧ (a.fills = true → transmitted before < 10)

theorem isSome_init1 (intnum : Nat) (image : Image) :
    (Spi.init1 intnum image).1.pflash.isSome = true ↔ intnum = 0 ∧ image ≠ none := by
  unfold Spi.init1
  split_ifs with hzero
  · rw [and_iff_right hzero]
    cases image with
    | none => exact iff_of_false Bool.false_ne_true fun h ↦ h rfl
    | some storage => exact iff_of_true rfl (Option.some_ne_none storage)
  · exact iff_of_false Bool.false_ne_true fun h ↦ hzero h.1

theorem txBuffer_init1 (intnum : Nat) (image : Image) : (Spi.init1 intnum image).1.txBuffer = 0 := by
  unfold Spi.init1
  split_ifs <;> rfl

/-- On every controller, with every image and in every run, all accesses that are reached are safe if and only if
they are made within the bounds. -/
theorem accesses_safe_iff (intnum : Nat) (image : Image) (as : List Access) :
    Attempts access Spi.Safe (Spi.init1 intnum image).1 as ↔
      ∀ before a s, before ++ [a] <+: as → Run access (Spi.init1 intnum image).1 before s →
        WithinBounds intnum image before a := by
  have hsafe {before : List Access} {s : Spi} (a : Access) (hr : Run access (Spi.init1 intnum image).1 before s) :
      s.Safe a ↔ WithinBounds intnum image before a := by
    obtain ⟨hindex, hflash⟩ := index_run hr
    rw [txBuffer_init1] at hindex
    have hsent : s.txBuffer.toNat = transmitted before := hindex
    rw [safe_iff, hsent, ← Option.isSome_iff_ne_none, hflash, isSome_init1]
    rfl
  constructor
  · intro h before a s hp hr
    exact (hsafe a hr).mp (h before a s hp hr)
  · intro h before a s hp hr
    exact (hsafe a hr).mpr (h before a s hp hr)

/-- An image without data. -/
def blank : Image := some (Vector.replicate _ 0xff)

/-- The eleventh word goes behind the transmit data. Every controller but the first lacks the flash that the receive
register reads, and the first one does where the image could not be read. -/
theorem accesses_safe_fails :
    ¬ Attempts access Spi.Safe (Spi.init1 0 blank).1 (List.replicate 11 (.write 0x10 0)) ∧
      ¬ Attempts access Spi.Safe (Spi.init1 1 blank).1 [.read 0x20] ∧
      ¬ Attempts access Spi.Safe (Spi.init1 0 none).1 [.read 0x20] := by
  refine ⟨fun h ↦ ?_, fun h ↦ ?_, fun h ↦ ?_⟩
  · obtain ⟨s, hrun, hfault⟩ : ∃ s, Run access (Spi.init1 0 blank).1 (List.replicate 10 (.write 0x10 0)) s ∧
        s.txBuffer = 10 := exists_run_of_exec (by decide +kernel)
    have hsafe := h _ (.write 0x10 0) s (List.prefix_refl _) hrun
    have hfull : ¬ s.txBuffer.toNat < 10 := by
      rw [hfault]
      decide
    have hwrite : s.mmWrite 0x10 0 = .error .txRange := dif_neg hfull
    have herror : access s (.write 0x10 0) = .error .txRange := by
      rw [access, hwrite]
      rfl
    exact (hsafe .txRange herror).1 rfl
  · exact (h [] (.read 0x20) _ (List.prefix_refl _) (.nil _) .nullDeref rfl).2 rfl
  · exact (h [] (.read 0x20) _ (List.prefix_refl _) (.nil _) .nullDeref rfl).2 rfl

end IDeviceEmulator.Nor
