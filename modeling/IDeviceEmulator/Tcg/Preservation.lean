import IDeviceEmulator.Tcg.Deadness

namespace IDeviceEmulator.Tcg

open Dataflow

variable {h : Host} {s : TCGContext} {i : Instr h} {dead : Nat → Bool} {t : Nat}

section Simulation

variable {V ω : Type} {is : List (Instr h)} {f g : Nat → V} {sem : Semantics h V ω} {place : Nat}

theorem request_congr (hi : i.Shaped) (hremovable : i.removable dead = false)
    (hagree : Agree (i.deadBefore s dead) f g) : i.request s f = i.request s g := by
  have hinputs : (i.iargs.map fun arg ↦ if i.isInput arg then some (f arg.toNat) else none) =
      i.iargs.map fun arg ↦ if i.isInput arg then some (g arg.toNat) else none := by
    apply List.map_congr_left
    intro arg harg
    split_ifs with hinput
    · have hmem : arg.toNat ∈ i.ins := List.mem_map_of_mem (List.mem_filter.mpr ⟨harg, hinput⟩)
      rw [hagree _ (live_of_reads hi hremovable (.inl hmem))]
    · rfl
  have hvisible : (if i.seesGlobals then s.globals.map f else []) =
      if i.seesGlobals then s.globals.map g else [] := by
    split_ifs with hsees
    · apply List.map_congr_left
      intro u hu
      have hglobal : s.isGlobal u = true := decide_eq_true (List.mem_range.mp hu)
      exact hagree u (live_of_reads hi hremovable (.inr ⟨hsees, hglobal⟩))
    · rfl
  rw [Instr.request, Instr.request, hinputs, hvisible]

/-- The outputs of an op, and what is not dead behind it, are the same on both sides. -/
theorem agree_assign (hremovable : i.removable dead = false) (hagree : Agree (i.deadBefore s dead) f g)
    (outputs : Nat → V) : Agree (i.deadOut s dead) (assign f i.outs outputs) (assign g i.outs outputs) := by
  intro t ht
  by_cases hout : t ∈ i.outs
  · exact assign_of_mem hout
  · rw [assign_of_notMem hout, assign_of_notMem hout]
    exact hagree t (live_of_deadOut hremovable hout ht)

theorem agree_settle (hremovable : i.removable dead = false) (hagree : Agree (i.deadBefore s dead) f g)
    (outcome : Outcome V ω) : Agree (i.deadOut s dead) (i.settle s outcome f) (i.settle s outcome g) := by
  intro t ht
  rw [Instr.settle, Instr.settle]
  by_cases hout : t ∈ i.outs
  · exact assign_of_mem hout
  · rw [assign_of_notMem hout, assign_of_notMem hout, hagree t (live_of_deadOut hremovable hout ht)]

theorem lasting_congr (hboundary : i.boundary = true) (hagree : Agree (i.deadOut s dead) f g) :
    s.lasting.map f = s.lasting.map g := by
  apply List.map_congr_left
  intro t ht
  have hlasting : s.outlives t = true := (List.mem_filter.mp ht).2
  apply hagree
  rw [Instr.deadOut, if_pos hboundary, hlasting]
  rfl

/-- Two machines at the same place that differ only in what is dead there. -/
structure Tracks (s : TCGContext) (is : List (Instr h)) (x y : Machine h V ω) : Prop where
  place : x.place = y.place
  world : x.world = y.world
  trace : x.trace = y.trace
  agree : ∀ place, x.place = some place → Agree (deadFrom s (is.drop place)) x.temps y.temps

theorem agree_successor (hdefined : Defined s is) (hall : ∀ i ∈ is, i.Shaped ∧ i.Valid s) (hi : is[place]? = some i)
    {next : Nat} (hsucc : Successor is i place next)
    (hagree : Agree (i.deadOut s (deadFrom s (is.drop (place + 1)))) f g) : Agree (deadFrom s (is.drop next)) f g := by
  apply hagree.mono
  intro t ht
  by_contra hdead
  rw [Bool.not_eq_false] at hdead
  rw [dead_successor hdefined (fun j hj ↦ (hall j hj).2) hi hsucc hdead] at ht
  cases ht

theorem tracks_kept (hdefined : Defined s is) (hall : ∀ i ∈ is, i.Shaped ∧ i.Valid s) (hi : is[place]? = some i)
    {x y : Machine h V ω} (htracks : Tracks s is x y) (hplace : x.place = some place)
    (hremovable : i.removable (deadFrom s (is.drop (place + 1))) = false) :
    Tracks s is (execute sem s is place i x) (execute sem s (rewritten s is) place i y) := by
  have hshaped : i.Shaped := (hall i (List.mem_of_getElem? hi)).1
  have hagree : Agree (i.deadBefore s (deadFrom s (is.drop (place + 1)))) x.temps y.temps := by
    rw [← deadFrom_drop hi]
    exact htracks.agree place hplace
  have hrequest : i.request s x.temps = i.request s y.temps := request_congr hshaped hremovable hagree
  have hfall : Successor is i place (place + 1) := .inl rfl
  rw [execute, execute, ← hrequest, ← htracks.world, ← htracks.trace]
  by_cases hset : i.opcode = .setLabel
  · have hout : i.outs = [] := by rw [Instr.outs, (label_temps hshaped hset).1, List.map_nil]
    have hboundary : i.boundary = true := by rw [Instr.boundary, decide_eq_true hset, Bool.true_or]
    have hlabel : Agree (i.deadOut s (deadFrom s (is.drop (place + 1)))) x.temps y.temps := by
      intro t ht
      exact hagree t (live_of_deadOut hremovable (by rw [hout]; exact List.not_mem_nil) ht)
    rw [if_pos hset, if_pos hset, lasting_congr hboundary hlabel]
    refine ⟨rfl, rfl, rfl, fun next hnext ↦ ?_⟩
    cases hnext
    exact agree_successor hdefined hall hi hfall hlabel
  rw [if_neg hset, if_neg hset]
  cases heffects : i.sideEffects with
  | false =>
    refine ⟨rfl, rfl, rfl, fun next hnext ↦ ?_⟩
    cases hnext
    exact agree_successor hdefined hall hi hfall (agree_assign hremovable hagree _)
  | true =>
    have hafter := agree_settle hremovable hagree (sem.perform (i.request s x.temps) x.world)
    cases hends : i.endsBlock with
    | false =>
      refine ⟨rfl, rfl, rfl, fun next hnext ↦ ?_⟩
      cases hnext
      exact agree_successor hdefined hall hi hfall hafter
    | true =>
      have hboundary : i.boundary = true := by rw [Instr.boundary, hends, Bool.or_true]
      have hvalues := lasting_congr hboundary hafter
      have hfollow := follow_rewritten s (fun j hj ↦ (hall j hj).1) place
        (sem.control (i.request s x.temps) (sem.perform (i.request s x.temps) x.world).world)
      refine ⟨hfollow.symm, rfl, ?_, fun next hnext ↦ ?_⟩
      · exact congrArg (fun values ↦ x.trace ++ [.effect (i.request s x.temps), .blockEnd values]) hvalues
      · exact agree_successor hdefined hall hi (successor_of_follow hends hnext) hafter

theorem execute_toNop (i : Instr h) (is : List (Instr h)) (place : Nat) (x : Machine h V ω) :
    execute sem s is place i.toNop x = { x with place := some (place + 1) } := by
  have hset : i.toNop.opcode ≠ .setLabel := by
    intro hop
    cases hop
  have heffects : i.toNop.sideEffects = false := decide_eq_false (not_not.mpr BitVec.zero_and)
  rw [execute, if_neg hset, heffects]
  rfl

/-- An op is removed only if nothing behind it needs its outputs. -/
theorem tracks_removed (hshaped : i.Shaped) (hi : is[place]? = some i) {x y : Machine h V ω} (htracks : Tracks s is x y)
    (hplace : x.place = some place) (hremovable : i.removable (deadFrom s (is.drop (place + 1))) = true) :
    Tracks s is (execute sem s is place i x) (execute sem s (rewritten s is) place i.toNop y) := by
  have hagree : Agree (deadFrom s (is.drop (place + 1))) x.temps y.temps := by
    rw [← deadBefore_of_removable hshaped hremovable, ← deadFrom_drop hi]
    exact htracks.agree place hplace
  obtain ⟨heffects, houts⟩ := effects_of_removable hremovable
  rw [execute_toNop, execute, if_neg (label_of_removable hshaped hremovable), heffects]
  refine ⟨rfl, htracks.world, htracks.trace, fun next hnext ↦ ?_⟩
  cases hnext
  exact hagree.assign_left houts _

theorem tracks_step (hdefined : Defined s is) (hall : ∀ i ∈ is, i.Shaped ∧ i.Valid s) {x y : Machine h V ω}
    (htracks : Tracks s is x y) : Tracks s is (step sem s is x) (step sem s (rewritten s is) y) := by
  rw [step, step, ← htracks.place]
  cases hplace : x.place with
  | none => exact htracks
  | some place =>
    dsimp only
    rw [getElem_rewritten]
    cases hi : is[place]? with
    | none => exact ⟨rfl, htracks.world, htracks.trace, fun next hnext ↦ by cases hnext⟩
    | some i =>
      rw [Option.map_some]
      dsimp only
      cases hremovable : i.removable (deadFrom s (is.drop (place + 1))) with
      | true =>
        rw [Instr.kept, if_pos hremovable]
        exact tracks_removed (hall i (List.mem_of_getElem? hi)).1 hi htracks hplace hremovable
      | false =>
        rw [Instr.kept, if_neg (by rw [hremovable]; exact Bool.false_ne_true)]
        exact tracks_kept hdefined hall hi htracks hplace hremovable

theorem tracks_run (sem : Semantics h V ω) (hdefined : Defined s is) (hall : ∀ i ∈ is, i.Shaped ∧ i.Valid s)
    {x y : Machine h V ω} (htracks : Tracks s is x y) (n : Nat) :
    Tracks s is ((step sem s is)^[n] x) ((step sem s (rewritten s is))^[n] y) := by
  induction n generalizing x y with
  | zero => exact htracks
  | succ n ih =>
    rw [Function.iterate_succ_apply, Function.iterate_succ_apply]
    exact ih (tracks_step hdefined hall htracks)

/-- Every path of a machine is one of those that `ReadLater` looks at. -/
theorem successor_of_execute {x : Machine h V ω} {next : Nat}
    (hnext : (execute sem s is place i x).place = some next) : Successor is i place next := by
  rw [execute] at hnext
  dsimp only at hnext
  split_ifs at hnext with _ _ hends
  · exact .inl (Option.some.inj hnext).symm
  · exact successor_of_follow hends hnext
  · exact .inl (Option.some.inj hnext).symm
  · exact .inl (Option.some.inj hnext).symm

end Simulation

/-- The two machines have made the same effects and left the same values at every block end. -/
structure Same {V ω : Type} (x y : Machine h V ω) : Prop where
  place : x.place = y.place
  world : x.world = y.world
  trace : x.trace = y.trace

/-- The pass ends; the list that it leaves does what the list did, whatever the ops mean; and a bit
that it sets belongs to an input that is not read later. -/
structure Preserved (s : TCGContext) (fresh : Nat → BitVec 16) (ops : List TCGOpcode) (args : List (TCGArg h))
    (is : List (Instr h)) (x : Pass h) (is' : List (Instr h)) : Prop where
  returns : tcgLivenessAnalysis s fresh ops args = .ok x
  decoded : decode x.genOpcBuf x.genOpparamBuf = some is'
  same : ∀ (V ω : Type) (sem : Semantics h V ω) (temps : Nat → V) (world : ω) (n : Nat),
    Same ((step sem s is)^[n] (enter temps world)) ((step sem s is')^[n] (enter temps world))
  spent : ∀ (place k : Nat) (i : Instr h) (arg : TCGArg h) (bits : BitVec 16), is'[place]? = some i →
    i.iargs[k]? = some arg → x.opDeadIargs[place]? = some bits → bits.getLsbD k = true →
      i.isInput arg = true ∧ Spent s is' place arg.toNat

/-- The pass over a list of ops keeps its meaning. -/
theorem liveness_preserves {s : TCGContext} {ops : List TCGOpcode} {args : List (TCGArg h)} {is : List (Instr h)}
    (hwell : WellFormed s ops args is) (fresh : Nat → BitVec 16) : ∃ x is', Preserved s fresh ops args is x is' := by
  obtain ⟨rfl, rfl, hshaped⟩ := shaped_of_decode hwell.decoded
  have hall : ∀ i ∈ is, i.Shaped ∧ i.Valid s := fun i hi ↦ ⟨hshaped i hi, hwell.valid i hi⟩
  refine ⟨passAt s fresh [] is, rewritten s is, tcgLivenessAnalysis_eq hall, decode_rewritten hall, ?_, ?_⟩
  · intro V ω sem temps world n
    have hstart : Tracks s is (enter temps world) (enter temps world) := ⟨rfl, rfl, rfl, fun _ _ _ _ ↦ rfl⟩
    have hrun := tracks_run sem hwell.defined hall hstart n
    exact ⟨hrun.place, hrun.world, hrun.trace⟩
  · intro place k i arg bits hi hget hbits hbit
    exact spent_of_bit hwell.defined hall hi hget hbits hbit

def smallHost : Host := ⟨.w32, .w32⟩

/-- One global and one plain temporary. -/
def smallContext : TCGContext := ⟨1, [⟨false⟩, ⟨false⟩], by decide⟩

/-- The global is increased by 7, and the temporary is set once more before the block ends. -/
def smallList : List (Instr smallHost) :=
  [⟨.moviI32, [], [1], [], [7]⟩, ⟨.addI32, [], [0], [0, 1], []⟩, ⟨.moviI32, [], [1], [], [3]⟩,
    ⟨.exitTb, [], [], [], [0]⟩, ⟨.endOp, [], [], [], []⟩]

theorem smallList_wellFormed : WellFormed smallContext [.moviI32, .addI32, .moviI32, .exitTb, .endOp]
    [1, 7, 0, 0, 1, 1, 3, 0] smallList where
  decoded := rfl
  valid := by
    simp only [smallList, List.forall_mem_cons]
    refine ⟨⟨by decide, by decide, by simp, by decide⟩, ⟨by decide, by decide, by simp, by decide⟩,
      ⟨by decide, by decide, by simp, by decide⟩, ⟨by decide, by decide, by simp, by decide⟩,
      ⟨by decide, by decide, by simp, by decide⟩, by simp⟩
  defined := ⟨by decide, by decide, by decide, by decide, by decide, trivial⟩

theorem liveness_drops_a_move : ∃ x is', Preserved smallContext (fun _ ↦ 0)
    [.moviI32, .addI32, .moviI32, .exitTb, .endOp] [1, 7, 0, 0, 1, 1, 3, 0] smallList x is' :=
  liveness_preserves smallList_wellFormed _

end IDeviceEmulator.Tcg
