import IDeviceEmulator.Tcg.Execution

namespace IDeviceEmulator.Tcg

open Dataflow

variable {h : Host} {s : TCGContext} {i : Instr h} {dead : Nat → Bool} {t : Nat}

/-- What is dead behind an op whatever op control goes to. -/
def Instr.deadOut (s : TCGContext) (i : Instr h) (dead : Nat → Bool) (t : Nat) : Bool :=
  if i.boundary then !s.outlives t else dead t

theorem flags_of_bbEnd (h : Host) (op : TCGOpcode) (hends : (tcgOpDefs h op).flags &&& tcgOpfBbEnd ≠ 0) :
    (tcgOpDefs h op).flags &&& tcgOpfSideEffects ≠ 0 := by
  revert hends
  rcases h with ⟨_ | _, _ | _⟩ <;> cases op <;> decide

theorem opcode_of_endsBlock (hends : i.endsBlock = true) :
    i.opcode ≠ .call ∧ i.opcode ≠ .nopn ∧ i.opcode ≠ .setLabel := by
  have hflags : (tcgOpDefs h i.opcode).flags &&& tcgOpfBbEnd ≠ 0 := of_decide_eq_true hends
  refine ⟨fun hop ↦ ?_, fun hop ↦ ?_, fun hop ↦ ?_⟩
  · rw [hop] at hflags
    exact hflags (show tcgOpfSideEffects &&& tcgOpfBbEnd = 0 by decide)
  · rw [hop] at hflags
    exact hflags BitVec.zero_and
  · rw [hop] at hflags
    exact hflags BitVec.zero_and

theorem sideEffects_of_endsBlock (hends : i.endsBlock = true) : i.sideEffects = true := by
  obtain ⟨hcall, -, -⟩ := opcode_of_endsBlock hends
  rw [sideEffects_of_op hcall]
  exact decide_eq_true (flags_of_bbEnd h i.opcode (of_decide_eq_true hends))

theorem effects_of_removable (hremovable : i.removable dead = true) :
    i.sideEffects = false ∧ ∀ t ∈ i.outs, dead t = true := by
  rw [Instr.removable] at hremovable
  split at hremovable
  · cases hremovable
  · simpa using hremovable
  · simp only [Bool.and_eq_true, List.all_eq_true, Bool.not_eq_true'] at hremovable
    exact ⟨hremovable.1.1, hremovable.2⟩

theorem endsBlock_of_removable (hremovable : i.removable dead = true) : i.endsBlock = false := by
  by_contra hends
  have heffects := sideEffects_of_endsBlock ((Bool.not_eq_false _).mp hends)
  rw [(effects_of_removable hremovable).1] at heffects
  cases heffects

theorem label_temps (hi : i.Shaped) (hop : i.opcode = .setLabel) :
    i.oargs = [] ∧ i.iargs = [] ∧ i.seesGlobals = false := by
  obtain ⟨-, ho, hin, -⟩ := hi.counts (by simp [hop]) (by simp [hop])
  rw [hop] at ho hin
  refine ⟨List.length_eq_zero_iff.mp ho, List.length_eq_zero_iff.mp hin, ?_⟩
  rw [Instr.seesGlobals, hop]
  exact decide_eq_false (not_not.mpr BitVec.zero_and)

theorem label_of_removable (hi : i.Shaped) (hremovable : i.removable dead = true) : i.opcode ≠ .setLabel := by
  intro hop
  rw [removable_of_no_outputs (by simp [hop]) (label_temps hi hop).1] at hremovable
  cases hremovable

theorem deadBefore_of_removable (hi : i.Shaped) (hremovable : i.removable dead = true) :
    i.deadBefore s dead = dead := by
  rw [Instr.deadBefore, if_neg (label_of_removable hi hremovable), hremovable]
  rfl

theorem deadBefore_of_kept (hset : i.opcode ≠ .setLabel) (hremovable : i.removable dead = false) :
    i.deadBefore s dead = revive i.ins (i.deadInside s dead) := by
  rw [Instr.deadBefore, if_neg hset, hremovable]
  rfl

theorem outlives_of_global (hglobal : s.isGlobal t = true) : s.outlives t = true := by
  rw [TCGContext.outlives, hglobal, Bool.true_or]

theorem live_of_reads (hi : i.Shaped) (hremovable : i.removable dead = false) (hreads : i.reads s t) :
    i.deadBefore s dead t = false := by
  by_cases hset : i.opcode = .setLabel
  · obtain ⟨-, hin, hsees⟩ := label_temps hi hset
    rcases hreads with hmem | ⟨hvisible, -⟩
    · rw [Instr.ins, hin] at hmem
      cases hmem
    · rw [hsees] at hvisible
      cases hvisible
  rw [deadBefore_of_kept hset hremovable, revive]
  rcases hreads with hmem | ⟨hsees, hglobal⟩
  · rw [decide_eq_true hmem]
    rfl
  · have hinside : i.deadInside s dead t = false := by
      rw [Instr.deadInside, if_pos hsees, hglobal, outlives_of_global hglobal]
      split_ifs <;> rfl
    rw [hinside, Bool.and_false]

theorem inside_of_deadOut (hset : i.opcode ≠ .setLabel) (hout : t ∉ i.outs) (hlive : i.deadOut s dead t = false) :
    i.deadInside s dead t = false := by
  rw [Instr.deadOut, Instr.boundary, decide_eq_false hset, Bool.false_or] at hlive
  rw [Instr.deadInside, kill, decide_eq_false hout, Bool.false_or]
  split_ifs at hlive ⊢
  · exact hlive
  · rw [hlive, Bool.and_false]
  · exact hlive

theorem live_of_deadOut (hremovable : i.removable dead = false) (hout : t ∉ i.outs)
    (hlive : i.deadOut s dead t = false) : i.deadBefore s dead t = false := by
  by_cases hset : i.opcode = .setLabel
  · have hboundary : i.boundary = true := by rw [Instr.boundary, decide_eq_true hset, Bool.true_or]
    rw [Instr.deadOut, if_pos hboundary] at hlive
    rw [Instr.deadBefore, if_pos hset]
    exact hlive
  · rw [deadBefore_of_kept hset hremovable, revive, inside_of_deadOut hset hout hlive, Bool.and_false]

section Places

variable {is : List (Instr h)} {place next : Nat}

theorem deadFrom_drop (hi : is[place]? = some i) :
    deadFrom s (is.drop place) = i.deadBefore s (deadFrom s (is.drop (place + 1))) := by
  obtain ⟨hlt, rfl⟩ := List.getElem?_eq_some_iff.mp hi
  rw [List.drop_eq_getElem_cons hlt]
  rfl

theorem getElem_rewritten (place : Nat) :
    (rewritten s is)[place]? = is[place]?.map fun i ↦ i.kept (deadFrom s (is.drop (place + 1))) := by
  induction is generalizing place with
  | nil => rfl
  | cons i is ih =>
    cases place with
    | zero => rfl
    | succ place => exact ih place

theorem isLabel_kept (hi : i.Shaped) (dead : Nat → Bool) (label : TCGArg h) :
    (i.kept dead).isLabel label = i.isLabel label := by
  rw [Instr.kept]
  split_ifs with hremovable
  · have hset : i.opcode ≠ .setLabel := label_of_removable hi hremovable
    have hnop : i.toNop.isLabel label = false := by
      rw [Instr.isLabel, decide_eq_false_iff_not]
      rintro ⟨hop, -⟩
      cases hop
    rw [hnop, Instr.isLabel, decide_eq_false fun hall ↦ hset hall.1]
  · rfl

theorem findIdx_rewritten (hall : ∀ i ∈ is, i.Shaped) (label : TCGArg h) :
    (rewritten s is).findIdx? (·.isLabel label) = is.findIdx? (·.isLabel label) := by
  induction is with
  | nil => rfl
  | cons i is ih =>
    rw [List.forall_mem_cons] at hall
    rw [rewritten, List.findIdx?_cons, List.findIdx?_cons, isLabel_kept hall.1, ih hall.2]

theorem follow_rewritten (s : TCGContext) (hall : ∀ i ∈ is, i.Shaped) (place : Nat) (next : Next h) :
    follow (rewritten s is) place next = follow is place next := by
  cases next with
  | fall => rfl
  | label label => exact findIdx_rewritten hall label
  | leave => rfl

theorem successor_of_follow (hends : i.endsBlock = true) {control : Next h}
    (hfollow : follow is place control = some next) : Successor is i place next := by
  cases control with
  | fall => exact .inl (Option.some.inj hfollow).symm
  | label label =>
    obtain ⟨hlt, hlabel, -⟩ := List.findIdx?_eq_some_iff_getElem.mp hfollow
    exact .inr ⟨hends, _, List.getElem?_eq_getElem hlt, (of_decide_eq_true hlabel).1⟩
  | leave => cases hfollow

/-- Temporaries that do not exist are not read. -/
theorem readFirst_of_le (hall : ∀ i ∈ is, i.Valid s) (ht : s.nbTemps ≤ t) : readFirst t is = false := by
  induction is with
  | nil => rfl
  | cons i is ih =>
    rw [List.forall_mem_cons] at hall
    have hin : t ∉ i.ins := fun hmem ↦ Nat.not_lt.mpr ht (hall.1.ins_lt t hmem)
    rw [readFirst, decide_eq_false hin, ih hall.2, Bool.and_false]
    rfl

theorem deadFrom_of_unread (hplain : s.outlives t = false) (hread : readFirst t is = false) :
    deadFrom s is t = true := by
  have hglobal : s.isGlobal t = false := by
    rw [TCGContext.outlives, Bool.or_eq_false_iff] at hplain
    exact hplain.1
  induction is with
  | nil => rfl
  | cons i is ih =>
    rw [readFirst, Bool.or_eq_false_iff, decide_eq_false_iff_not] at hread
    obtain ⟨hin, hrest⟩ := hread
    have hlater (hout : t ∉ i.outs) (hboundary : i.boundary = false) : deadFrom s is t = true := by
      apply ih
      rw [decide_eq_false hout, hboundary] at hrest
      exact hrest
    rw [deadFrom]
    by_cases hset : i.opcode = .setLabel
    · rw [Instr.deadBefore, if_pos hset, hplain]
      rfl
    cases hremovable : i.removable (deadFrom s is) with
    | true =>
      have hboundary : i.boundary = false := by
        rw [Instr.boundary, decide_eq_false hset, endsBlock_of_removable hremovable]
        rfl
      rw [Instr.deadBefore, if_neg hset, hremovable]
      by_cases hout : t ∈ i.outs
      · exact (effects_of_removable hremovable).2 t hout
      · exact hlater hout hboundary
    | false =>
      rw [deadBefore_of_kept hset hremovable, revive, decide_eq_false hin, Instr.deadInside, hplain, hglobal]
      cases hends : i.endsBlock with
      | true => rfl
      | false =>
        have hboundary : i.boundary = false := by
          rw [Instr.boundary, decide_eq_false hset, hends]
          rfl
        have hkill : kill i.outs (deadFrom s is) t = true := by
          rw [kill]
          by_cases hout : t ∈ i.outs
          · rw [decide_eq_true hout, Bool.true_or]
          · rw [hlater hout hboundary, Bool.or_true]
        rw [hkill]
        split_ifs <;> rfl

theorem defined_drop (hdefined : Defined s is) (hall : ∀ i ∈ is, i.Valid s) (hi : is[place]? = some i)
    (hboundary : i.boundary = true) (hplain : s.outlives t = false) : readFirst t (is.drop (place + 1)) = false := by
  induction is generalizing place with
  | nil => cases hi
  | cons j is ih =>
    rw [List.forall_mem_cons] at hall
    obtain ⟨hfirst, hrest⟩ := hdefined
    cases place with
    | zero =>
      cases hi
      rcases Nat.lt_or_ge t s.nbTemps with ht | ht
      · exact hfirst hboundary t ht hplain
      · exact readFirst_of_le hall.2 ht
    | succ place => exact ih hrest hall.2 hi

/-- What is dead behind an op is dead in front of every op that control may go to. -/
theorem dead_successor (hdefined : Defined s is) (hall : ∀ i ∈ is, i.Valid s) (hi : is[place]? = some i)
    (hsucc : Successor is i place next) (hdead : i.deadOut s (deadFrom s (is.drop (place + 1))) t = true) :
    deadFrom s (is.drop next) t = true := by
  rw [Instr.deadOut] at hdead
  rcases hsucc with rfl | ⟨hends, j, hj, hop⟩
  · split_ifs at hdead with hboundary
    · have hplain : s.outlives t = false := by simpa using hdead
      exact deadFrom_of_unread hplain (defined_drop hdefined hall hi hboundary hplain)
    · exact hdead
  · have hboundary : i.boundary = true := by rw [Instr.boundary, hends, Bool.or_true]
    rw [if_pos hboundary] at hdead
    rw [deadFrom_drop hj, Instr.deadBefore, if_pos hop]
    exact hdead

end Places

section Spent

variable {is : List (Instr h)} {place : Nat}

theorem dead_of_update {u : Nat} (hdead : Function.update dead u false t = true) : dead t = true := by
  by_cases htu : t = u
  · rw [htu, Function.update_self] at hdead
    cases hdead
  · rwa [Function.update_of_ne htu] at hdead

/-- Bits that are set in `dead_iargs` belong to inputs that are dead behind the op. -/
theorem getLsbD_inputBits {k b : Nat} {bits : BitVec 32} {iargs : List (TCGArg h)}
    (hbit : (i.inputBits k bits dead iargs).getLsbD b = true) :
    bits.getLsbD b = true ∨
      ∃ n arg, b = k + n ∧ iargs[n]? = some arg ∧ i.isInput arg = true ∧ dead arg.toNat = true := by
  induction iargs generalizing dead k bits with
  | nil => exact .inl hbit
  | cons arg iargs ih =>
    rw [Instr.inputBits] at hbit
    by_cases hinput : i.isInput arg = true
    · rw [if_pos hinput] at hbit
      rcases ih hbit with hold | ⟨n, arg', hb, hget, hinput', hdead'⟩
      · split_ifs at hold with hdead
        · rw [BitVec.getLsbD_or, Bool.or_eq_true] at hold
          rcases hold with hold | hnew
          · exact .inl hold
          · have hb : b = k := by
              rw [BitVec.getLsbD_shiftLeft, BitVec.getLsbD_one] at hnew
              simp only [Bool.and_eq_true, Bool.not_eq_true', decide_eq_true_eq, decide_eq_false_iff_not] at hnew
              omega
            exact .inr ⟨0, arg, hb, rfl, hinput, hdead⟩
        · exact .inl hold
      · exact .inr ⟨n + 1, arg', by omega, hget, hinput', dead_of_update hdead'⟩
    · rw [if_neg hinput] at hbit
      rcases ih hbit with hold | ⟨n, arg', hb, hget, hinput', hdead'⟩
      · exact .inl hold
      · exact .inr ⟨n + 1, arg', by omega, hget, hinput', hdead'⟩

theorem kept_of_endsBlock (hends : (i.kept dead).endsBlock = true) : i.kept dead = i := by
  rw [Instr.kept] at hends ⊢
  split_ifs at hends ⊢
  · exact absurd rfl (opcode_of_endsBlock hends).2.1
  · rfl

theorem successor_rewritten {next : Nat} (hsucc : Successor (rewritten s is) (i.kept dead) place next) :
    Successor is i place next := by
  rcases hsucc with hnext | ⟨hends, j, hj, hop⟩
  · exact .inl hnext
  · rw [getElem_rewritten] at hj
    obtain ⟨k, hk, rfl⟩ := Option.map_eq_some_iff.mp hj
    refine .inr ⟨kept_of_endsBlock hends ▸ hends, k, hk, ?_⟩
    rw [Instr.kept] at hop
    split_ifs at hop
    · cases hop
    · exact hop

theorem not_reads_toNop (i : Instr h) (t : Nat) : ¬i.toNop.reads s t := by
  rintro (hmem | ⟨hsees, -⟩)
  · cases hmem
  · exact of_decide_eq_true hsees BitVec.zero_and

/-- A temporary that is read later in the list that the pass leaves is not dead. -/
theorem live_of_readLater (hdefined : Defined s is) (hall : ∀ i ∈ is, i.Shaped ∧ i.Valid s)
    (hread : ReadLater s (rewritten s is) t place) : deadFrom s (is.drop place) t = false := by
  induction hread with
  | @here place j hj hreads =>
    rw [getElem_rewritten] at hj
    obtain ⟨i, hi, rfl⟩ := Option.map_eq_some_iff.mp hj
    have hshaped : i.Shaped := (hall i (List.mem_of_getElem? hi)).1
    rw [deadFrom_drop hi]
    rw [Instr.kept] at hreads
    split_ifs at hreads with hremovable
    · exact absurd hreads (not_reads_toNop i t)
    · exact live_of_reads hshaped (Bool.eq_false_iff.mpr hremovable) hreads
  | @after place next j hj hout hsucc _ ih =>
    rw [getElem_rewritten] at hj
    obtain ⟨i, hi, rfl⟩ := Option.map_eq_some_iff.mp hj
    have hshaped : i.Shaped := (hall i (List.mem_of_getElem? hi)).1
    have hlive : i.deadOut s (deadFrom s (is.drop (place + 1))) t = false := by
      by_contra hdead
      rw [Bool.not_eq_false] at hdead
      have hnext := dead_successor hdefined (fun k hk ↦ (hall k hk).2) hi (successor_rewritten hsucc) hdead
      rw [ih] at hnext
      cases hnext
    rw [deadFrom_drop hi]
    cases hremovable : i.removable (deadFrom s (is.drop (place + 1))) with
    | true =>
      have hboundary : i.boundary = false := by
        rw [Instr.boundary, decide_eq_false (label_of_removable hshaped hremovable),
          endsBlock_of_removable hremovable]
        rfl
      rw [Instr.deadOut, hboundary] at hlive
      rw [deadBefore_of_removable hshaped hremovable]
      exact hlive
    | false =>
      rw [Instr.kept, if_neg (by rw [hremovable]; exact Bool.false_ne_true)] at hout
      exact live_of_deadOut hremovable hout hlive

theorem getElem_deadBits (fresh : Nat → BitVec 16) (n place : Nat) :
    (deadBits s fresh n is)[place]? =
      is[place]?.map fun i ↦ i.deadIargs s (deadFrom s (is.drop (place + 1))) (fresh (n + place)) := by
  induction is generalizing n place with
  | nil => rfl
  | cons i is ih =>
    cases place with
    | zero => rfl
    | succ place =>
      rw [deadBits, List.getElem?_cons_succ, List.getElem?_cons_succ, ih, List.drop_succ_cons, Nat.succ_add_eq_add_succ]

theorem length_inputs (hi : i.Shaped) (hcall : i.opcode ≠ .call) :
    i.iargs.length = (tcgOpDefs h i.opcode).nbIargs := by
  by_cases hnopn : i.opcode = .nopn
  · rw [Instr.Shaped, hnopn] at hi
    obtain ⟨-, arg, ⟨-, hin, -⟩, -⟩ := hi
    rw [hin, hnopn]
    rfl
  · exact (hi.counts hcall hnopn).2.2.1

theorem analysed_of_input (hi : i.Shaped) (hin : i.iargs ≠ []) : i.analysed = true := by
  have hnone (hcall : i.opcode ≠ .call) (hzero : (tcgOpDefs h i.opcode).nbIargs = 0) : False :=
    hin (List.length_eq_zero_iff.mp ((length_inputs hi hcall).trans hzero))
  rw [Instr.analysed]
  split
  case h_6 => rfl
  all_goals
    rename_i hop
    rw [hop] at hnone
    exact (hnone (by simp) rfl).elim

/-- Where the bit of an input is set the pass has found its temporary dead behind the op. -/
theorem dead_of_bit {k : Nat} {arg : TCGArg h} {old : BitVec 16} (hi : i.Shaped)
    (hget : (i.kept dead).iargs[k]? = some arg) (hbit : (i.deadIargs s dead old).getLsbD k = true) :
    i.kept dead = i ∧ i.isInput arg = true ∧ (arg.toNat ∈ i.outs ∨ i.deadOut s dead arg.toNat = true) := by
  have hremovable : i.removable dead = false := by
    by_contra hremovable
    rw [Bool.not_eq_false] at hremovable
    rw [Instr.kept, if_pos hremovable] at hget
    cases hget
  have hkept : i.kept dead = i := by
    rw [Instr.kept, hremovable]
    rfl
  rw [hkept] at hget
  have hin : i.iargs ≠ [] := List.ne_nil_of_mem (List.mem_of_getElem? hget)
  have hset : i.opcode ≠ .setLabel := fun hop ↦ hin (label_temps hi hop).2.1
  rw [Instr.deadIargs, analysed_of_input hi hin, hremovable] at hbit
  change ((i.inputBits 0 0 (i.deadInside s dead) i.iargs).setWidth 16).getLsbD k = true at hbit
  rw [BitVec.getLsbD_setWidth, Bool.and_eq_true] at hbit
  rcases getLsbD_inputBits hbit.2 with hzero | ⟨n, arg', hk, hget', hinput, hdead⟩
  · exact absurd hzero (by simp)
  · rw [Nat.zero_add] at hk
    rw [← hk, hget] at hget'
    cases hget'
    refine ⟨hkept, hinput, ?_⟩
    by_contra hnone
    rw [not_or, Bool.not_eq_true] at hnone
    rw [inside_of_deadOut hset hnone.1 hnone.2] at hdead
    cases hdead

theorem spent_of_bit (hdefined : Defined s is) (hall : ∀ i ∈ is, i.Shaped ∧ i.Valid s) {fresh : Nat → BitVec 16}
    {j : Instr h} (hj : (rewritten s is)[place]? = some j) {k : Nat} {arg : TCGArg h} (hget : j.iargs[k]? = some arg)
    {bits : BitVec 16} (hbits : (deadBits s fresh 0 is)[place]? = some bits) (hbit : bits.getLsbD k = true) :
    j.isInput arg = true ∧ Spent s (rewritten s is) place arg.toNat := by
  rw [getElem_rewritten] at hj
  obtain ⟨i, hi, rfl⟩ := Option.map_eq_some_iff.mp hj
  rw [getElem_deadBits, hi, Option.map_some] at hbits
  cases hbits
  obtain ⟨hkept, hinput, hdead⟩ := dead_of_bit (hall i (List.mem_of_getElem? hi)).1 hget hbit
  refine ⟨hkept.symm ▸ hinput, fun j hj' ↦ ?_⟩
  rw [getElem_rewritten, hi, Option.map_some, hkept] at hj'
  cases hj'
  refine hdead.imp_right fun hdead next hsucc hread ↦ ?_
  have hnext : deadFrom s (is.drop next) arg.toNat = true :=
    dead_successor hdefined (fun k hk ↦ (hall k hk).2) hi (successor_rewritten (hkept.symm ▸ hsucc)) hdead
  rw [live_of_readLater hdefined hall hread] at hnext
  cases hnext

end Spent

end IDeviceEmulator.Tcg
