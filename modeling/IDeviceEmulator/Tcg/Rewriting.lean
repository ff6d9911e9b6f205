import Mathlib.Data.List.Induction
import IDeviceEmulator.Tcg.Analysis

namespace IDeviceEmulator.Tcg

open Dataflow

variable {h : Host} {s : TCGContext} {i : Instr h}

theorem inputsLive_tabulate {dead : Nat → Bool} {k : Nat} {bits : BitVec 32} {iargs : List (TCGArg h)}
    (hin : ∀ t ∈ (iargs.filter i.isInput).map BitVec.toNat, t < s.nbTemps) (hle : k + iargs.length ≤ 32) :
    inputsLive (decide (i.opcode = .call)) k bits (tabulate s dead) iargs =
      .ok (i.inputBits k bits dead iargs,
        tabulate s (revive ((iargs.filter i.isInput).map BitVec.toNat) dead)) := by
  induction iargs generalizing dead k bits with
  | nil => rw [List.filter_nil, List.map_nil, revive_nil, inputsLive, Instr.inputBits]
  | cons arg iargs ih =>
    rw [List.length_cons] at hle
    rw [inputsLive, Instr.inputBits]
    by_cases harg : i.isInput arg = true
    · have hdummy : ¬(decide (i.opcode = .call) = true ∧ arg = tcgCallDummyArg h) := by
        rintro ⟨hcall, hdummy⟩
        simp [Instr.isInput, of_decide_eq_true hcall, hdummy] at harg
      rw [List.filter_cons_of_pos harg, List.map_cons, List.forall_mem_cons] at hin
      rw [if_neg hdummy, if_pos harg, readTemp_tabulate hin.1, List.filter_cons_of_pos harg, List.map_cons,
        revive_cons]
      have hwrite : writeTemp (tabulate s dead) arg false =
          .ok (tabulate s (Function.update dead arg.toNat false)) := writeTemp_tabulate hin.1 false
      cases hdead : dead arg.toNat with
      | true =>
        have hmark : markInput bits k = .ok (bits ||| 1#32 <<< k) := if_pos (by omega)
        change ((markInput bits k).bind fun bits ↦ _) = _
        rw [hmark]
        change ((writeTemp (tabulate s dead) arg false).bind fun deadTemps ↦ _) = _
        rw [hwrite]
        exact ih hin.2 (by omega)
      | false =>
        change ((writeTemp (tabulate s dead) arg false).bind fun deadTemps ↦ _) = _
        rw [hwrite]
        exact ih hin.2 (by omega)
    · have hdummy : decide (i.opcode = .call) = true ∧ arg = tcgCallDummyArg h := by
        simpa [Instr.isInput] using harg
      rw [List.filter_cons_of_neg harg] at hin
      rw [if_pos hdummy, if_neg harg, List.filter_cons_of_neg harg]
      exact ih hin (by omega)

/-- The buffers around the words of one op. -/
structure Around (h : Host) where
  left : List TCGOpcode
  right : List TCGOpcode
  before : List (TCGArg h)
  after : List (TCGArg h)
  low : List (BitVec 16)
  high : List (BitVec 16)
  length_low : low.length = left.length

def Around.pass (c : Around h) (op : TCGOpcode) (words : List (TCGArg h)) (bits : BitVec 16) (deadTemps : List Bool)
    (args : Nat) : Pass h where
  genOpcBuf := c.left ++ op :: c.right
  genOpparamBuf := c.before ++ (words ++ c.after)
  opDeadIargs := c.low ++ bits :: c.high
  deadTemps := deadTemps
  args := args

section Around

variable {c : Around h} {op : TCGOpcode} {words : List (TCGArg h)} {bits : BitVec 16} {args : Nat}

theorem tcgSetNop_pass (hne : words ≠ []) (deadTemps : List Bool) :
    tcgSetNop c.left.length c.before.length words.length (c.pass op words bits deadTemps args) =
      .ok (c.pass .nopn ((words.set 0 (.ofNat _ words.length)).set (words.length - 1) (.ofNat _ words.length))
        bits deadTemps args) := by
  have hpos : 0 < words.length := List.length_pos_iff.mpr hne
  have hops : (c.left ++ op :: c.right).set c.left.length .nopn = c.left ++ .nopn :: c.right := by
    rw [List.set_append_right _ _ (Nat.le_refl _), Nat.sub_self, List.set_cons_zero]
  have hfirst : storeArg (c.before ++ (words ++ c.after)) (c.before.length + 0) (.ofNat _ words.length) =
      .ok (c.before ++ (words.set 0 (.ofNat _ words.length) ++ c.after)) := storeArg_append hpos _
  have hlast : storeArg (c.before ++ (words.set 0 (.ofNat _ words.length) ++ c.after))
      (c.before.length + (words.length - 1)) (.ofNat _ words.length) =
      .ok (c.before ++ ((words.set 0 (.ofNat _ words.length)).set (words.length - 1) (.ofNat _ words.length) ++
        c.after)) := by
    apply storeArg_append
    rw [List.length_set]
    omega
  rw [Nat.add_zero] at hfirst
  rw [tcgSetNop, if_neg (by omega), Around.pass, Around.pass]
  dsimp only
  rw [hops, hfirst]
  change ((storeArg _ _ _).bind fun buf ↦ _) = _
  rw [hlast]
  rfl

theorem keepOp_pass {between : List Bool → List Bool} {oargs iargs : List (TCGArg h)} {dead mid : Nat → Bool}
    (hout : ∀ t ∈ oargs.map BitVec.toNat, t < s.nbTemps)
    (hmid : between (tabulate s (kill (oargs.map BitVec.toNat) dead)) = tabulate s mid)
    (hin : ∀ t ∈ (iargs.filter i.isInput).map BitVec.toNat, t < s.nbTemps) (hle : iargs.length ≤ 32) :
    keepOp c.left.length (decide (i.opcode = .call)) between oargs iargs
        (c.pass op words bits (tabulate s dead) args) =
      .ok (c.pass op words ((i.inputBits 0 0 mid iargs).setWidth 16)
        (tabulate s (revive ((iargs.filter i.isInput).map BitVec.toNat) mid)) args) := by
  rw [keepOp, Around.pass]
  dsimp only
  rw [outputsDead_tabulate hout]
  change ((inputsLive _ _ _ (between _) _).bind fun r ↦ _) = _
  rw [hmid, inputsLive_tabulate hin (by omega)]
  have hlt : c.left.length < (c.low ++ bits :: c.high).length := by
    rw [List.length_append, c.length_low, List.length_cons]
    omega
  have hset (new : BitVec 16) : (c.low ++ bits :: c.high).set c.left.length new = c.low ++ new :: c.high := by
    rw [← c.length_low, List.set_append_right _ _ (Nat.le_refl _), Nat.sub_self, List.set_cons_zero]
  change (if c.left.length < (c.low ++ bits :: c.high).length then _ else _) = _
  rw [if_pos hlt, hset]
  rfl

end Around

theorem Instr.Shaped.counts (hi : i.Shaped) (hcall : i.opcode ≠ .call) (hnopn : i.opcode ≠ .nopn) :
    i.head = [] ∧ i.Counts (tcgOpDefs h i.opcode).nbOargs (tcgOpDefs h i.opcode).nbIargs
      (tcgOpDefs h i.opcode).nbCargs := by
  rw [Instr.Shaped] at hi
  split at hi
  · exact absurd ‹_› hcall
  · exact absurd ‹_› hnopn
  · exact hi

theorem sideEffects_of_op (hcall : i.opcode ≠ .call) :
    i.sideEffects = decide ((tcgOpDefs h i.opcode).flags &&& tcgOpfSideEffects ≠ 0) := by
  rw [Instr.sideEffects]
  split
  · exact absurd ‹_› hcall
  · rfl

theorem seesGlobals_of_op (hcall : i.opcode ≠ .call) :
    i.seesGlobals = decide ((tcgOpDefs h i.opcode).flags &&& tcgOpfCallClobber ≠ 0) := by
  rw [Instr.seesGlobals]
  split
  · exact absurd ‹_› hcall
  · rfl

section Pass

variable {dead : Nat → Bool} {old : BitVec 16}

theorem removable_of_op (dead : Nat → Bool) (hcall : i.opcode ≠ .call) (hdiscard : i.opcode ≠ .discard) :
    i.removable dead = (!i.sideEffects && i.oargs ≠ [] && i.outs.all dead) := by
  rw [Instr.removable]
  split
  · exact absurd ‹_› hdiscard
  · exact absurd ‹_› hcall
  · rfl

/-- The pass in front of an op. -/
def Around.start (c : Around h) (s : TCGContext) (i : Instr h) (dead : Nat → Bool) (old : BitVec 16) : Pass h :=
  c.pass i.opcode i.words old (tabulate s dead) (c.before.length + i.words.length)

/-- The pass behind it. -/
def Around.done (c : Around h) (s : TCGContext) (i : Instr h) (dead : Nat → Bool) (old : BitVec 16) : Pass h :=
  c.pass (i.kept dead).opcode (i.kept dead).words (i.deadIargs s dead old) (tabulate s (i.deadBefore s dead))
    c.before.length

theorem Instr.between_eq (s : TCGContext) (i : Instr h) (dead : Nat → Bool) :
    (if i.endsBlock then fun _ ↦ tcgLaBbEnd s else if i.seesGlobals then globalsLive s else id)
      (tabulate s (kill i.outs dead)) = tabulate s (i.deadInside s dead) := by
  have hinside : i.deadInside s dead =
      if i.endsBlock then fun t ↦ !s.outlives t
      else if i.seesGlobals then fun t ↦ !s.isGlobal t && kill i.outs dead t
      else kill i.outs dead := by
    funext t
    rw [deadInside]
    split_ifs <;> rfl
  rw [hinside]
  split_ifs
  · exact tcgLaBbEnd_eq s
  · exact globalsLive_tabulate
  · rfl

theorem kept_pass (hv : i.Valid s) (hset : i.opcode ≠ .setLabel) (hanalysed : i.analysed = true)
    (hremovable : i.removable dead = false) (c : Around h) {call : Bool} (hcall : call = decide (i.opcode = .call))
    {between : List Bool → List Bool}
    (hbetween : between =
      if i.endsBlock then fun _ ↦ tcgLaBbEnd s else if i.seesGlobals then globalsLive s else id)
    {place n : Nat} (hins : loadArgs (c.before ++ (i.words ++ c.after)) place n = .ok i.iargs) :
    (loadArgs (c.before ++ (i.words ++ c.after)) place n).bind (fun iargs ↦
        keepOp c.left.length call between i.oargs iargs
          (c.pass i.opcode i.words old (tabulate s dead) c.before.length)) = .ok (c.done s i dead old) := by
  have hbits : i.deadIargs s dead old = (i.inputBits 0 0 (i.deadInside s dead) i.iargs).setWidth 16 := by
    rw [Instr.deadIargs, hanalysed, hremovable]
    rfl
  have hbefore : i.deadBefore s dead = revive i.ins (i.deadInside s dead) := by
    rw [Instr.deadBefore, if_neg hset, hremovable]
    rfl
  rw [hins, hcall, hbetween, Around.done, hbits, hbefore, Instr.kept, hremovable]
  exact keepOp_pass hv.outs_lt (i.between_eq s dead) hv.ins_lt hv.inputs_le

theorem removed_pass (hremovable : i.removable dead = true) (hset : i.opcode ≠ .setLabel) (hne : i.words ≠ [])
    (c : Around h) :
    tcgSetNop c.left.length c.before.length i.words.length
        (c.pass i.opcode i.words old (tabulate s dead) c.before.length) =
      .ok (c.done s i dead old) := by
  have hbits : i.deadIargs s dead old = old := by
    rw [Instr.deadIargs, hremovable, Bool.not_true, Bool.and_false]
    rfl
  have hbefore : i.deadBefore s dead = dead := by
    rw [Instr.deadBefore, if_neg hset, hremovable]
    rfl
  rw [Around.done, hbits, hbefore, Instr.kept, hremovable]
  exact tcgSetNop_pass hne _

theorem loadArgs_words {before words after front middle back : List (TCGArg h)}
    (hwords : words = front ++ middle ++ back)
    {place n : Nat} (hplace : place = before.length + front.length) (hn : n = middle.length) :
    loadArgs (before ++ (words ++ after)) place n = .ok middle := by
  have hsplit : before ++ (words ++ after) = before ++ front ++ (middle ++ (back ++ after)) := by
    rw [hwords]
    simp only [List.append_assoc]
  rw [hsplit, hplace, hn, ← List.length_append]
  exact loadArgs_append _ _ _

theorem loadArg_words {before words after front back : List (TCGArg h)} {arg : TCGArg h}
    (hwords : words = front ++ arg :: back) {place : Nat} (hplace : place = before.length + front.length) :
    loadArg (before ++ (words ++ after)) place = .ok arg := by
  have hsplit : before ++ (words ++ after) = before ++ front ++ arg :: (back ++ after) := by
    rw [hwords]
    simp only [List.append_assoc, List.cons_append]
  rw [hsplit, hplace, ← List.length_append]
  exact loadArg_append _ _ _

theorem analyseDefault_pass (hi : i.Shaped) (hv : i.Valid s) (hcall : i.opcode ≠ .call) (hnopn : i.opcode ≠ .nopn)
    (hset : i.opcode ≠ .setLabel) (hdiscard : i.opcode ≠ .discard) (hanalysed : i.analysed = true) (c : Around h) :
    analyseDefault s c.left.length i.opcode
        (c.start s i dead old) =
      .ok (c.done s i dead old) := by
  obtain ⟨hhead, ho, hin, hc⟩ := hi.counts hcall hnopn
  have hwords : i.words = i.oargs ++ i.iargs ++ i.cargs := by rw [Instr.words, hhead, List.nil_append]
  have hlen : i.words.length = (tcgOpDefs h i.opcode).nbArgs := by
    rw [hwords, List.length_append, List.length_append, ho, hin, hc, TCGOpDef.nbArgs]
  have houts : loadArgs (c.before ++ (i.words ++ c.after)) c.before.length (tcgOpDefs h i.opcode).nbOargs =
      .ok i.oargs := by
    have hfront : i.words = [] ++ i.oargs ++ (i.iargs ++ i.cargs) := hwords.trans (List.append_assoc _ _ _)
    exact loadArgs_words hfront rfl ho.symm
  have hins : loadArgs (c.before ++ (i.words ++ c.after)) (c.before.length + (tcgOpDefs h i.opcode).nbOargs)
      (tcgOpDefs h i.opcode).nbIargs = .ok i.iargs :=
    loadArgs_words hwords (congrArg _ ho.symm) hin.symm
  have heffects := sideEffects_of_op hcall
  have hsees := seesGlobals_of_op hcall
  have hremovable := removable_of_op dead hcall hdiscard
  have hbetween : (if (tcgOpDefs h i.opcode).flags &&& tcgOpfBbEnd ≠ 0 then fun _ ↦ tcgLaBbEnd s
      else if (tcgOpDefs h i.opcode).flags &&& tcgOpfCallClobber ≠ 0 then globalsLive s else id) =
      if i.endsBlock then fun _ ↦ tcgLaBbEnd s else if i.seesGlobals then globalsLive s else id := by
    simp only [Instr.endsBlock, hsees, decide_eq_true_eq]
  rw [analyseDefault, Around.start, Around.pass]
  dsimp only
  rw [hlen, back_add]
  change ((loadArgs _ _ _).bind fun oargs ↦ _) = _
  rw [houts]
  change (if _ then (allDead (tabulate s dead) i.oargs).bind _ else _) = _
  by_cases hcand : (tcgOpDefs h i.opcode).flags &&& tcgOpfSideEffects = 0 ∧ (tcgOpDefs h i.opcode).nbOargs ≠ 0
  · have hpure : i.sideEffects = false := by
      rw [heffects, decide_eq_false_iff_not, not_not]
      exact hcand.1
    have hsome : i.oargs ≠ [] := fun hnil ↦ hcand.2 (by rw [← ho, hnil]; rfl)
    have hall : i.removable dead = i.outs.all dead := by
      rw [hremovable, hpure, decide_eq_true hsome]
      rfl
    rw [if_pos hcand, allDead_tabulate hv.outs_lt]
    change (if i.outs.all dead then _ else _) = _
    cases hdead : i.outs.all dead with
    | true =>
      have hne : i.words ≠ [] := by simp [hwords, hsome]
      rw [if_pos rfl, ← hlen]
      exact removed_pass (hall.trans hdead) hset hne c
    | false =>
      rw [if_neg Bool.false_ne_true]
      exact kept_pass hv hset hanalysed (hall.trans hdead) c (decide_eq_false hcall).symm hbetween hins
  · rw [if_neg hcand]
    refine kept_pass hv hset hanalysed ?_ c (decide_eq_false hcall).symm hbetween hins
    rw [hremovable, heffects]
    by_cases hpure : (tcgOpDefs h i.opcode).flags &&& tcgOpfSideEffects = 0
    · have hnone : i.oargs = [] := by
        have hzero : (tcgOpDefs h i.opcode).nbOargs = 0 := not_not.mp fun hne ↦ hcand ⟨hpure, hne⟩
        exact List.length_eq_zero_iff.mp (ho.trans hzero)
      simp [hnone]
    · rw [decide_eq_true hpure]
      rfl

theorem analyseCall_pass (hi : i.Shaped) (hv : i.Valid s) (hcall : i.opcode = .call) (c : Around h) :
    analyseCall s c.left.length (c.start s i dead old) =
      .ok (c.done s i dead old) := by
  have hset : i.opcode ≠ .setLabel := by simp [hcall]
  have hanalysed : i.analysed = true := by rw [Instr.analysed, hcall]
  have hends : i.endsBlock = false := by
    rw [Instr.endsBlock, hcall]
    change decide (tcgOpfSideEffects &&& tcgOpfBbEnd ≠ 0) = false
    decide
  obtain ⟨last, hlast, hcount⟩ := hv.counted (.inl hcall)
  have hshape := hi
  rw [Instr.Shaped, hcall] at hshape
  obtain ⟨arg, hhead, ho, hin, hc⟩ := hshape
  have hwords : i.words = [arg] ++ i.oargs ++ i.iargs ++ i.cargs := by rw [Instr.words, hhead]
  obtain ⟨callFlags, total, hcargs⟩ : ∃ callFlags total, i.cargs = [callFlags, total] := List.length_eq_two.mp hc
  have hflags : i.callFlags = callFlags := by rw [Instr.callFlags, hcargs, List.headD_cons]
  have hfirst : loadArg (c.before ++ (i.words ++ c.after)) c.before.length = .ok arg := by
    have hfront : i.words = [] ++ arg :: (i.oargs ++ (i.iargs ++ i.cargs)) := by
      rw [hwords]
      simp only [List.append_assoc, List.cons_append, List.nil_append]
    exact loadArg_words hfront rfl
  have hcallFlags : loadArg (c.before ++ (i.words ++ c.after))
      (c.before.length + 1 + ((arg >>> 16).toNat + (arg &&& 0xffff).toNat)) = .ok callFlags :=
    loadArg_words (hwords.trans (congrArg _ hcargs)) (by
      rw [← ho, ← hin]
      simp only [List.length_append, List.length_singleton]
      omega)
  have houts : loadArgs (c.before ++ (i.words ++ c.after)) (c.before.length + 1) (arg >>> 16).toNat = .ok i.oargs := by
    have hfront : i.words = [arg] ++ i.oargs ++ (i.iargs ++ i.cargs) := hwords.trans (List.append_assoc _ _ _)
    exact loadArgs_words hfront rfl ho.symm
  have hins : loadArgs (c.before ++ (i.words ++ c.after)) (c.before.length + 1 + (arg >>> 16).toNat)
      (arg &&& 0xffff).toNat = .ok i.iargs :=
    loadArgs_words hwords (by rw [← ho, List.length_append, List.length_singleton, Nat.add_assoc]) hin.symm
  have heffects : i.sideEffects = decide (callFlags &&& tcgCallPure h = 0) := by
    rw [Instr.sideEffects, hcall, hflags]
  have hbetween : (if callFlags &&& tcgCallConst h = 0 then globalsLive s else id) =
      if i.endsBlock then fun _ ↦ tcgLaBbEnd s else if i.seesGlobals then globalsLive s else id := by
    rw [hends, Instr.seesGlobals, hcall, hflags]
    simp only [Bool.false_eq_true, if_false, decide_eq_true_eq]
  have hremovable : i.removable dead = (!i.sideEffects && i.outs.all dead) := by rw [Instr.removable, hcall]
  have hlast' : lastArg (c.start s i dead old) = .ok last :=
    lastArg_append rfl rfl hlast
  rw [analyseCall, hlast']
  change ((back (c.before.length + i.words.length) last.toNat).bind fun args ↦ _) = _
  rw [hcount, back_add]
  change ((loadArg (c.before ++ (i.words ++ c.after)) c.before.length).bind fun arg ↦ _) = _
  rw [hfirst]
  change ((loadArg (c.before ++ (i.words ++ c.after))
    (c.before.length + 1 + ((arg >>> 16).toNat + (arg &&& 0xffff).toNat))).bind fun callFlags ↦ _) = _
  rw [hcallFlags]
  change ((loadArgs (c.before ++ (i.words ++ c.after)) (c.before.length + 1) (arg >>> 16).toNat).bind
    fun oargs ↦ _) = _
  rw [houts]
  change (if _ then (allDead (tabulate s dead) i.oargs).bind _ else _) = _
  by_cases hpure : callFlags &&& tcgCallPure h ≠ 0
  · have hall : i.removable dead = i.outs.all dead := by
      rw [hremovable, heffects, decide_eq_false hpure]
      rfl
    rw [if_pos hpure, allDead_tabulate hv.outs_lt]
    change (if i.outs.all dead then _ else _) = _
    cases hdead : i.outs.all dead with
    | true =>
      have hne : i.words ≠ [] := by simp [hwords]
      rw [if_pos rfl]
      exact removed_pass (hall.trans hdead) hset hne c
    | false =>
      rw [if_neg Bool.false_ne_true]
      exact kept_pass hv hset hanalysed (hall.trans hdead) c (decide_eq_true hcall).symm hbetween hins
  · rw [if_neg hpure]
    refine kept_pass hv hset hanalysed ?_ c (decide_eq_true hcall).symm hbetween hins
    rw [hremovable, heffects, decide_eq_true (not_not.mp hpure)]
    rfl

end Pass


section Pass

variable {dead : Nat → Bool} {old : BitVec 16}

/-- An op that the pass walks over: it stays, and its entry of `op_dead_iargs` is not written. -/
theorem passed_over (hanalysed : i.analysed = false) (hremovable : i.removable dead = false) {deadTemps : List Bool}
    (hdead : deadTemps = tabulate s (i.deadBefore s dead)) (c : Around h) :
    c.pass i.opcode i.words old deadTemps c.before.length =
      c.done s i dead old := by
  rw [hdead, Around.done, Instr.kept, Instr.deadIargs, hanalysed, hremovable]
  rfl

theorem inside_of_unflagged (hcall : i.opcode ≠ .call) (hflags : (tcgOpDefs h i.opcode).flags = 0) :
    i.deadInside s dead = kill i.outs dead := by
  have hends : i.endsBlock = false := by
    rw [Instr.endsBlock, hflags]
    exact decide_eq_false (not_not.mpr BitVec.zero_and)
  have hsees : i.seesGlobals = false := by
    rw [Instr.seesGlobals]
    split
    · exact absurd ‹_› hcall
    · rw [hflags]
      exact decide_eq_false (not_not.mpr BitVec.zero_and)
  funext t
  rw [Instr.deadInside, hends, hsees]
  rfl

theorem removable_of_no_outputs (hcall : i.opcode ≠ .call) (hout : i.oargs = []) : i.removable dead = false := by
  rw [Instr.removable]
  split
  · rfl
  · exact absurd ‹_› hcall
  · simp [hout]

/-- Such an op has no temporaries: it marks words only. -/
theorem idle_pass (hcall : i.opcode ≠ .call) (hset : i.opcode ≠ .setLabel) (hanalysed : i.analysed = false)
    (hflags : (tcgOpDefs h i.opcode).flags = 0) (hout : i.oargs = []) (hin : i.iargs = []) (c : Around h) :
    c.pass i.opcode i.words old (tabulate s dead) c.before.length =
      c.done s i dead old := by
  have hremovable : i.removable dead = false := removable_of_no_outputs hcall hout
  have houts : i.outs = [] := by rw [Instr.outs, hout, List.map_nil]
  have hins : i.ins = [] := by rw [Instr.ins, hin, List.filter_nil, List.map_nil]
  apply passed_over hanalysed hremovable
  rw [Instr.deadBefore, if_neg hset, hremovable, inside_of_unflagged hcall hflags, hins, houts, kill_nil, revive_nil]
  rfl

theorem analyseOp_pass (dead : Nat → Bool) (old : BitVec 16) (hi : i.Shaped) (hv : i.Valid s) (c : Around h) :
    analyseOp s c.left.length (c.start s i dead old) =
      .ok (c.done s i dead old) := by
  have hget : (c.start s i dead old).genOpcBuf[
      c.left.length]? = some i.opcode := by
    rw [Around.start, Around.pass, List.getElem?_append_right (Nat.le_refl _), Nat.sub_self, List.getElem?_cons_zero]
  rw [analyseOp, hget]
  split
  case h_1 hop => cases hop
  case h_2 hop => exact analyseCall_pass hi hv (Option.some.inj hop) c
  case h_3 hop =>
    have hop' : i.opcode = .setLabel := Option.some.inj hop
    obtain ⟨hhead, ho, hin, hc⟩ := hi.counts (by simp [hop']) (by simp [hop'])
    rw [hop'] at ho hin hc
    have hremovable : i.removable dead = false :=
      removable_of_no_outputs (by simp [hop']) (List.length_eq_zero_iff.mp ho)
    have hlen : i.words.length = 1 := by
      simp only [Instr.words, List.length_append, hhead, ho, hin, hc]
      rfl
    have hdead : tcgLaBbEnd s = tabulate s (i.deadBefore s dead) := by
      rw [tcgLaBbEnd_eq, Instr.deadBefore, if_pos hop']
    rw [← passed_over (by rw [Instr.analysed, hop']) hremovable hdead c]
    change ((back (c.before.length + i.words.length) 1).bind fun args ↦ _) = _
    rw [hlen, back_add]
    rfl
  case h_4 hop =>
    have hop' : i.opcode = .debugInsnStart := Option.some.inj hop
    obtain ⟨hhead, ho, hin, hc⟩ := hi.counts (by simp [hop']) (by simp [hop'])
    rw [hop'] at ho hin hc
    have hlen : i.words.length = (tcgOpDefs h .debugInsnStart).nbArgs := by
      simp only [Instr.words, List.length_append, hhead, ho, hin, hc, TCGOpDef.nbArgs, List.length_nil, Nat.zero_add]
    rw [← idle_pass (by simp [hop']) (by simp [hop']) (by rw [Instr.analysed, hop']) (by rw [hop']; rfl)
      (List.length_eq_zero_iff.mp ho) (List.length_eq_zero_iff.mp hin)]
    change ((back (c.before.length + i.words.length) (tcgOpDefs h .debugInsnStart).nbArgs).bind fun args ↦ _) = _
    rw [hlen, back_add]
    rfl
  case h_5 hop =>
    have hop' : i.opcode = .nopn := Option.some.inj hop
    have hshape := hi
    rw [Instr.Shaped, hop'] at hshape
    obtain ⟨hhead, arg, ⟨ho, hin, hc⟩, hfirst⟩ := hshape
    obtain ⟨last, hlast, hcount⟩ := hv.counted (.inr hop')
    rw [← idle_pass (by simp [hop']) (by simp [hop']) (by rw [Instr.analysed, hop']) (by rw [hop']; rfl)
      (List.length_eq_zero_iff.mp ho) (List.length_eq_zero_iff.mp hin)]
    change ((lastArg _).bind fun nbArgs ↦ _) = _
    rw [lastArg_append rfl rfl hlast]
    change ((back (c.before.length + i.words.length) last.toNat).bind fun args ↦ _) = _
    rw [hcount, back_add]
    rfl
  case h_6 hop =>
    have hop' : i.opcode = .discard := Option.some.inj hop
    obtain ⟨hhead, ho, hin, hc⟩ := hi.counts (by simp [hop']) (by simp [hop'])
    rw [hop'] at ho hin hc
    obtain ⟨arg, hout⟩ : ∃ arg, i.oargs = [arg] := List.length_eq_one_iff.mp ho
    have hwords : i.words = [arg] := by
      rw [Instr.words, hhead, hout, List.length_eq_zero_iff.mp hin, List.length_eq_zero_iff.mp hc]
      rfl
    have houts : i.outs = [arg.toNat] := by rw [Instr.outs, hout, List.map_singleton]
    have hins : i.ins = [] := by rw [Instr.ins, List.length_eq_zero_iff.mp hin, List.filter_nil, List.map_nil]
    have hremovable : i.removable dead = false := by rw [Instr.removable, hop']
    have hflags : (tcgOpDefs h i.opcode).flags = 0 := by
      rw [hop']
      rfl
    have hbefore : i.deadBefore s dead = Function.update dead arg.toNat true := by
      rw [Instr.deadBefore, if_neg (by simp [hop']), hremovable, inside_of_unflagged (by simp [hop']) hflags, hins,
        houts, kill_cons, kill_nil, revive_nil]
      rfl
    have hlt : arg.toNat < s.nbTemps := hv.outs_lt _ (by rw [houts]; exact List.mem_singleton_self _)
    have hfront : i.words = [] ++ arg :: [] := hwords
    have hload : loadArg (c.before ++ (i.words ++ c.after)) c.before.length = .ok arg := loadArg_words hfront rfl
    rw [← passed_over (by rw [Instr.analysed, hop']) hremovable (by rw [hbefore]) c]
    change ((back (c.before.length + i.words.length) 1).bind fun args ↦ _) = _
    rw [hwords, List.length_singleton, back_add, ← hwords]
    change ((loadArg (c.before ++ (i.words ++ c.after)) c.before.length).bind fun arg ↦ _) = _
    rw [hload]
    change ((writeTemp (tabulate s dead) arg true).bind fun deadTemps ↦ _) = _
    rw [writeTemp_tabulate hlt]
    rfl
  case h_7 hop =>
    have hop' : i.opcode = .endOp := Option.some.inj hop
    obtain ⟨hhead, ho, hin, hc⟩ := hi.counts (by simp [hop']) (by simp [hop'])
    rw [hop'] at ho hin hc
    have hlen : i.words.length = 0 := by
      simp only [Instr.words, List.length_append, hhead, ho, hin, hc]
      rfl
    rw [Around.start, hlen]
    exact congrArg Except.ok (idle_pass (by simp [hop']) (by simp [hop']) (by rw [Instr.analysed, hop'])
      (by rw [hop']; rfl) (List.length_eq_zero_iff.mp ho) (List.length_eq_zero_iff.mp hin) c)
  case h_8 op hcall hset hdebug hnopn hdiscard hend hop =>
    have hop' : i.opcode = op := Option.some.inj hop
    rw [← hop'] at hcall hset hdebug hnopn hdiscard hend
    have hanalysed : i.analysed = true := by
      rw [Instr.analysed]
      split <;> simp_all
    rw [← hop']
    exact analyseDefault_pass hi hv hcall hnopn hset hdiscard hanalysed c

end Pass


section Run

variable {fresh : Nat → BitVec 16} {is : List (Instr h)}

/-- The pass with the ops of `post` behind it. -/
def passAt (s : TCGContext) (fresh : Nat → BitVec 16) (pre post : List (Instr h)) : Pass h where
  genOpcBuf := pre.map Instr.opcode ++ (rewritten s post).map Instr.opcode
  genOpparamBuf := pre.flatMap Instr.words ++ (rewritten s post).flatMap Instr.words
  opDeadIargs := (List.range pre.length).map fresh ++ deadBits s fresh pre.length post
  deadTemps := tabulate s (deadFrom s post)
  args := (pre.flatMap Instr.words).length

theorem analyseOp_passAt (hi : i.Shaped) (hv : i.Valid s) (pre post : List (Instr h)) :
    analyseOp s pre.length (passAt s fresh (pre ++ [i]) post) = .ok (passAt s fresh pre (i :: post)) := by
  let c : Around h :=
    { left := pre.map Instr.opcode
      right := (rewritten s post).map Instr.opcode
      before := pre.flatMap Instr.words
      after := (rewritten s post).flatMap Instr.words
      low := (List.range pre.length).map fresh
      high := deadBits s fresh (pre.length + 1) post
      length_low := by simp }
  have hstart : passAt s fresh (pre ++ [i]) post =
      c.start s i (deadFrom s post) (fresh pre.length) := by
    simp [passAt, Around.start, Around.pass, c, List.range_succ]
  have hleft : c.left.length = pre.length := List.length_map _
  have hstep := analyseOp_pass (deadFrom s post) (fresh pre.length) hi hv c
  rw [hleft] at hstep
  rw [hstart, hstep]
  rfl

theorem analyseOps_passAt (fresh : Nat → BitVec 16) (pre post : List (Instr h))
    (hall : ∀ i ∈ pre, i.Shaped ∧ i.Valid s) :
    analyseOps s pre.length (passAt s fresh pre post) = .ok (passAt s fresh [] (pre ++ post)) := by
  induction pre using List.reverseRecOn generalizing post with
  | nil => rfl
  | append_singleton pre i ih =>
    obtain ⟨hi, hv⟩ := hall i (List.mem_append_right _ (List.mem_singleton_self i))
    rw [List.length_append, List.length_singleton, analyseOps, analyseOp_passAt hi hv, List.append_assoc]
    exact ih (i :: post) fun j hj ↦ hall j (List.mem_append_left _ hj)

theorem tcgLivenessAnalysis_eq (hall : ∀ i ∈ is, i.Shaped ∧ i.Valid s) :
    tcgLivenessAnalysis s fresh (is.map Instr.opcode) (is.flatMap Instr.words) = .ok (passAt s fresh [] is) := by
  have hstart : passAt s fresh is [] = ⟨is.map Instr.opcode, is.flatMap Instr.words,
      (List.range (is.map Instr.opcode).length).map fresh, List.replicate s.nbTemps true,
      (is.flatMap Instr.words).length⟩ := by
    have hdead : tabulate s (deadFrom s ([] : List (Instr h))) = List.replicate s.nbTemps true := by
      simp [tabulate, deadFrom, List.map_const']
    rw [passAt, hdead]
    simp [rewritten, deadBits]
  have hrun := analyseOps_passAt fresh is [] hall
  rw [hstart, List.append_nil] at hrun
  rw [tcgLivenessAnalysis, List.length_map]
  rw [List.length_map] at hrun
  rw [hrun]
  rfl

end Run

section Decode

variable {dead : Nat → Bool} {is : List (Instr h)}

theorem words_ne_nil_of_removable (hremovable : i.removable dead = true) (hi : i.Shaped) : i.words ≠ [] := by
  intro hnil
  simp only [Instr.words, List.append_eq_nil_iff] at hnil
  by_cases hcall : i.opcode = .call
  · rw [Instr.Shaped, hcall] at hi
    obtain ⟨arg, hhead, -⟩ := hi
    rw [hhead] at hnil
    cases hnil.1.1.1
  · rw [removable_of_no_outputs hcall hnil.1.1.2] at hremovable
    cases hremovable

theorem toNat_length (hi : i.Shaped) (hv : i.Valid s) :
    (BitVec.ofNat h.regBits.bits i.words.length).toNat = i.words.length := by
  by_cases hop : i.opcode = .call ∨ i.opcode = .nopn
  · obtain ⟨arg, -, hcount⟩ := hv.counted hop
    rw [← hcount, BitVec.ofNat_toNat, BitVec.setWidth_eq]
  · rw [not_or] at hop
    obtain ⟨hhead, ho, hin, hc⟩ := hi.counts hop.1 hop.2
    have hlen : i.words.length = (tcgOpDefs h i.opcode).nbArgs := by
      simp only [Instr.words, List.length_append, hhead, ho, hin, hc, TCGOpDef.nbArgs, List.length_nil, Nat.zero_add]
    have hle : i.words.length ≤ 6 := hlen ▸ nbArgs_le h i.opcode
    rw [BitVec.toNat_ofNat, Nat.mod_eq_of_lt]
    cases h.regBits
    · exact Nat.lt_of_le_of_lt hle (by decide)
    · exact Nat.lt_of_le_of_lt hle (by decide)

theorem shaped_kept (hi : i.Shaped) (hv : i.Valid s) (dead : Nat → Bool) :
    (i.kept dead).Shaped ∧ ((i.kept dead).opcode = .nopn → (i.kept dead).cargs ≠ []) := by
  rw [Instr.kept]
  split_ifs with hremovable
  · have hne : i.words ≠ [] := words_ne_nil_of_removable hremovable hi
    obtain ⟨first, rest, hwords⟩ := List.exists_cons_of_ne_nil hne
    have hcargs : i.toNop.cargs.length = i.words.length := by
      rw [Instr.toNop, List.length_set, List.length_set]
    have hsome : i.toNop.cargs ≠ [] := by
      rw [← List.length_pos_iff, hcargs]
      exact List.length_pos_iff.mpr hne
    have hhead : i.toNop.cargs.head? = some (.ofNat _ i.words.length) := by
      rw [Instr.toNop, hwords]
      cases rest <;> rfl
    refine ⟨⟨rfl, .ofNat _ i.words.length, ⟨rfl, rfl, ?_⟩, fun _ ↦ hhead⟩, fun _ ↦ hsome⟩
    rw [toNat_length hi hv, hcargs]
  · refine ⟨hi, fun hnopn hnil ↦ ?_⟩
    obtain ⟨last, hlast, -⟩ := hv.counted (.inr hnopn)
    rw [Instr.Shaped, hnopn] at hi
    obtain ⟨hhead, arg, ⟨ho, hin, -⟩, -⟩ := hi
    rw [Instr.words, hhead, List.length_eq_zero_iff.mp ho, List.length_eq_zero_iff.mp hin, hnil] at hlast
    cases hlast

theorem mem_rewritten {j : Instr h} (hj : j ∈ rewritten s is) : ∃ i ∈ is, ∃ dead, j = i.kept dead := by
  induction is with
  | nil => cases hj
  | cons i is ih =>
    rcases List.mem_cons.mp hj with rfl | hrest
    · exact ⟨i, List.mem_cons_self, _, rfl⟩
    · obtain ⟨k, hk, dead, rfl⟩ := ih hrest
      exact ⟨k, List.mem_cons_of_mem _ hk, dead, rfl⟩

/-- The buffers that the pass leaves hold the ops that stay, and a `nopn` in the place of the others. -/
theorem decode_rewritten (hall : ∀ i ∈ is, i.Shaped ∧ i.Valid s) :
    decode ((rewritten s is).map Instr.opcode) ((rewritten s is).flatMap Instr.words) = some (rewritten s is) := by
  apply decode_words
  intro j hj
  obtain ⟨i, hmem, dead, rfl⟩ := mem_rewritten hj
  exact shaped_kept (hall i hmem).1 (hall i hmem).2 dead

end Decode

end IDeviceEmulator.Tcg
