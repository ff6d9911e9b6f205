import IDeviceEmulator.Nor.Cfi02

namespace IDeviceEmulator.Nor.Cfi02

open Machine

/-- The state in which the last cycle of an erase leaves the command machine. -/
def Flash.Erasing (f : Flash) : Prop := f.wcycle = 6 ∧ (f.cmd = 0x10 ∨ f.cmd = 0x30)

structure Unmoved (f f' : Flash) : Prop where
  wcycle : f'.wcycle = f.wcycle
  cmd : f'.cmd = f.cmd
  bypass : f'.bypass = f.bypass
  storage : f'.storage = f.storage

/-- While the timer of an erase is pending, writes are ignored, and the expiry finds the erase. -/
def IgnoresWrites (c : Chip) (f : Flash) (op : Op) : Prop :=
  f.timer = true →
    match op with
    | .read _ _ => True
    | .write offset value width => ∃ f', write c f offset value width = .ok f' ∧ Unmoved f f'
    | .expire => f.Erasing

/-- No reset is written while the timer of an erase is pending. -/
def NoReset (f : Flash) (op : Op) : Prop :=
  f.timer = true →
    match op with
    | .write _ value _ => value.setWidth 8 ≠ (0xf0 : Byte)
    | _ => True

section Window

variable {c : Chip} {f f' : Flash} {offset : Nat} {value : Word} {width : Width}

theorem Flash.Erasing.cmd_ne (h : f.Erasing) : f.cmd ≠ 0xa0 := by
  rcases h.2 with hcmd | hcmd
  · rw [hcmd]
    decide
  · rw [hcmd]
    decide

theorem write_erasing (h : f.Erasing) (hvalue : value.setWidth 8 ≠ (0xf0 : Byte)) :
    write c f offset value width = .ok f := by
  have hreset : ¬ (f.cmd ≠ 0xa0 ∧ value.setWidth 8 = (0xf0 : Byte)) := fun hboth ↦ hvalue hboth.2
  unfold write
  dsimp only
  rw [if_neg hreset, h.1]
  exact if_pos h.2

theorem write_reset (hcmd : f.cmd ≠ 0xa0) (hvalue : value.setWidth 8 = (0xf0 : Byte)) :
    write c f offset value width = .ok (resetFlash f) := if_pos ⟨hcmd, hvalue⟩

/-- A reset is the one write that an erase does not ignore. -/
theorem ignoresWrites_iff (h : f.timer = true → f.Erasing) (op : Op) : IgnoresWrites c f op ↔ NoReset f op := by
  constructor
  · intro hlaw htimer
    specialize hlaw htimer
    cases op with
    | read offset width => trivial
    | expire => trivial
    | write offset value width =>
      intro hvalue
      obtain ⟨f', hwrite, hsame⟩ := hlaw
      rw [write_reset (h htimer).cmd_ne hvalue] at hwrite
      cases hwrite
      have hcycle : (0 : Nat) = 6 := hsame.wcycle.trans (h htimer).1
      cases hcycle
  · intro hquiet htimer
    specialize hquiet htimer
    cases op with
    | read offset width => trivial
    | expire => exact h htimer
    | write offset value width => exact ⟨f, write_erasing (h htimer) hquiet, rfl, rfl, rfl, rfl⟩

/-- A read keeps the timer and, in the state of an erase, the command machine. -/
structure Watched (f f' : Flash) : Prop where
  timer : f'.timer = f.timer
  erasing : f.Erasing → f'.Erasing

theorem Watched.refl (f : Flash) : Watched f f := ⟨rfl, id⟩

theorem load_watched {ret : Word} (h : (load c f.storage offset width).map (fun ret ↦ (f, ret)) = .ok (f', ret)) :
    f' = f := by
  obtain ⟨_, _, heq⟩ := ok_of_map h
  exact congrArg Prod.fst heq

theorem read_watched {ret : Word} (h : read c f offset width = .ok (f', ret)) : Watched f f' := by
  have hrom : (if f.romMode ∧ f.wcycle = 0 then { f with romMode := true } else f) = f := by
    split_ifs with hmode
    · rw [← hmode.1]
    · rfl
  have hload (h : (load c f.storage (offset &&& (c.chipLen - 1)) width).map (fun ret ↦ (f, ret)) = .ok (f', ret)) :
      Watched f f' := by
    rw [load_watched h]
    exact .refl f
  have hself {ret' : Word} (h : (Except.ok (f, ret') : Except Fault (Flash × Word)) = .ok (f', ret)) :
      Watched f f' := by
    cases h
    exact .refl f
  unfold read at h
  simp only [hrom] at h
  split at h
  · exact hload h
  · exact hload h
  · split at h
    · exact hself h
    · exact hself h
    · exact hself h
    · split_ifs at h
      · exact hload h
      · exact hself h
    · split_ifs at h
      · exact hload h
      · exact hself h
    · exact hload h
  · cases h
    exact ⟨rfl, id⟩
  · cases h
    exact ⟨rfl, id⟩
  · cases h
    exact ⟨rfl, id⟩
  · exact hself h
  · rename_i h10 h30 _
    rw [load_watched h]
    refine ⟨rfl, ?_⟩
    intro hf
    rcases hf.2 with hcmd | hcmd
    · exact (h10 (congrArg BitVec.toNat hcmd)).elim
    · exact (h30 (congrArg BitVec.toNat hcmd)).elim

theorem program_timer (h : program c f offset value width = .ok f') : f'.timer = f.timer := by
  unfold program at h
  split_ifs at h
  cases h
  split_ifs
  · rfl
  · rfl

theorem Transition.timer (h : Transition c f offset value width f') (htimer : f.timer = false) :
    f'.timer = true → f'.Erasing := by
  have hidle {f' : Flash} (hsame : f'.timer = f.timer) : f'.timer = true → f'.Erasing := by
    intro harmed
    rw [hsame, htimer] at harmed
    cases harmed
  cases h with
  | data hcycle hstate hprogram => exact hidle (program_timer hprogram)
  | eraseChip hcycle hcmd =>
    intro _
    exact ⟨congrArg (· + 1) hcycle, .inl rfl⟩
  | eraseSector hcycle hcmd =>
    intro _
    exact ⟨congrArg (· + 1) hcycle, .inr rfl⟩
  | _ => exact hidle rfl

/-- The timer is pending in the state of an erase only. -/
theorem erasing_step {op : Op} {o : Option Word} (h : f.timer = true → f.Erasing) (hquiet : NoReset f op)
    (hstep : step c f op = .ok (f', o)) : f'.timer = true → f'.Erasing := by
  cases op with
  | read offset width =>
    obtain ⟨⟨g, ret⟩, hread, heq⟩ := ok_of_map hstep
    cases heq
    have hwatched := read_watched hread
    intro htimer
    rw [hwatched.timer] at htimer
    exact hwatched.erasing (h htimer)
  | write offset value width =>
    obtain ⟨g, hwrite, heq⟩ := ok_of_map hstep
    cases heq
    cases htimer : f.timer with
    | true =>
      rw [write_erasing (h htimer) (hquiet htimer)] at hwrite
      cases hwrite
      exact h
    | false => exact (transition_of_write hwrite).timer htimer
  | expire =>
    cases hstep
    intro htimer
    have hdone : (expire f).timer = false := by
      unfold expire
      dsimp only
      split_ifs
      · rfl
      · rfl
    rw [hdone] at htimer
    cases htimer

end Window

/-- An erase ignores the writes until its timer expires, in a run of any accesses and expiries, if
and only if no reset is written while a timer is pending. -/
theorem ignoresWrites_iff_noReset (c : Chip) (bs : Option (Nat → Byte)) (ram : Nat → Byte) (ops : List Op) :
    Attempts (step c) (IgnoresWrites c) (register bs ram) ops ↔ Attempts (step c) NoReset (register bs ram) ops := by
  refine attempts_iff (I := fun f ↦ f.timer = true → f.Erasing) ?_ ?_ ?_
  · intro htimer
    cases htimer
  · intro f op _ h
    exact ignoresWrites_iff h op
  · intro f op f' o _ h hlaw hstep
    exact erasing_step h ((ignoresWrites_iff h op).mp hlaw) hstep

/-- A sector erase of the NOR of the first iPhone. -/
def sectorErase : List Op :=
  [.write 0xaaa 0xaa .half, .write 0x554 0x55 .half, .write 0xaaa 0x80 .half, .write 0xaaa 0xaa .half,
    .write 0x554 0x55 .half, .write 0 0x30 .half]

theorem ignoresWrites_fails :
    ¬ ∀ c bs ram ops, Attempts (step c) (IgnoresWrites c) (register bs ram) ops := by
  intro h
  have herase := h iphoneNor none (fun _ ↦ 0) (sectorErase ++ [.write 0 0xf0 .half])
  have hrun : ∃ f, Run (step iphoneNor) (register none fun _ ↦ 0) sectorErase f ∧ f.timer = true ∧ f.wcycle = 6 ∧
      f.cmd = 0x30 := exists_run_of_exec (by decide +kernel)
  obtain ⟨f, hrun, htimer, hcycle, hcmd⟩ := hrun
  obtain ⟨f', hwrite, hsame⟩ := herase sectorErase _ f (List.prefix_refl _) hrun htimer
  have hne : f.cmd ≠ 0xa0 := by
    rw [hcmd]
    decide
  rw [write_reset hne (by decide)] at hwrite
  cases hwrite
  have hsix : (0 : Nat) = 6 := hsame.wcycle.trans hcycle
  cases hsix

end IDeviceEmulator.Nor.Cfi02
