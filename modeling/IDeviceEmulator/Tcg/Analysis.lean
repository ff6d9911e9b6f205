import IDeviceEmulator.Library.Dataflow
import IDeviceEmulator.Tcg.Liveness

namespace IDeviceEmulator.Tcg

open Dataflow

variable {h : Host} {s : TCGContext} {i : Instr h}

def Instr.outs (i : Instr h) : List Nat := i.oargs.map BitVec.toNat

/-- The inputs of a call that only align its parameters are not temporaries. -/
def Instr.isInput (i : Instr h) (arg : TCGArg h) : Bool := !(i.opcode = .call ∧ arg = tcgCallDummyArg h)

def Instr.ins (i : Instr h) : List Nat := (i.iargs.filter i.isInput).map BitVec.toNat

def Instr.callFlags (i : Instr h) : TCGArg h := i.cargs.headD 0

def Instr.sideEffects (i : Instr h) : Bool :=
  match i.opcode with
  | .call => i.callFlags &&& tcgCallPure h = 0
  | op => (tcgOpDefs h op).flags &&& tcgOpfSideEffects ≠ 0

/-- The op may use the globals through memory. -/
def Instr.seesGlobals (i : Instr h) : Bool :=
  match i.opcode with
  | .call => i.callFlags &&& tcgCallConst h = 0
  | op => (tcgOpDefs h op).flags &&& tcgOpfCallClobber ≠ 0

def Instr.endsBlock (i : Instr h) : Bool := (tcgOpDefs h i.opcode).flags &&& tcgOpfBbEnd ≠ 0

def TCGContext.isGlobal (s : TCGContext) (t : Nat) : Bool := decide (t < s.nbGlobals)

def TCGContext.isLocal (s : TCGContext) (t : Nat) : Bool := (s.temps[t]?.map TCGTemp.tempLocal).getD false

/-- What outlives a basic block. -/
def TCGContext.outlives (s : TCGContext) (t : Nat) : Bool := s.isGlobal t || s.isLocal t

def Instr.removable (i : Instr h) (dead : Nat → Bool) : Bool :=
  match i.opcode with
  | .discard => false
  | .call => !i.sideEffects && i.outs.all dead
  | _ => !i.sideEffects && i.oargs ≠ [] && i.outs.all dead

/-- What is dead after the inputs of the op are read, from what is dead behind the op. -/
def Instr.deadInside (s : TCGContext) (i : Instr h) (dead : Nat → Bool) (t : Nat) : Bool :=
  if i.endsBlock then !s.outlives t
  else if i.seesGlobals then !s.isGlobal t && kill i.outs dead t
  else kill i.outs dead t

def Instr.deadBefore (s : TCGContext) (i : Instr h) (dead : Nat → Bool) : Nat → Bool :=
  if i.opcode = .setLabel then fun t ↦ !s.outlives t
  else if i.removable dead then dead
  else revive i.ins (i.deadInside s dead)

/-- What is dead in front of the ops; at the end of the list everything is. -/
def deadFrom (s : TCGContext) : List (Instr h) → Nat → Bool
  | [] => fun _ ↦ true
  | i :: is => i.deadBefore s (deadFrom s is)

def Instr.toNop (i : Instr h) : Instr h :=
  { opcode := .nopn, head := [], oargs := [], iargs := [],
    cargs := (i.words.set 0 (.ofNat _ i.words.length)).set (i.words.length - 1) (.ofNat _ i.words.length) }

/-- The op that the pass leaves in the place of an op. -/
def Instr.kept (i : Instr h) (dead : Nat → Bool) : Instr h := if i.removable dead then i.toNop else i

def rewritten (s : TCGContext) : List (Instr h) → List (Instr h)
  | [] => []
  | i :: is => i.kept (deadFrom s is) :: rewritten s is

/-- What `dead_iargs` becomes, input by input. -/
def Instr.inputBits (i : Instr h) : Nat → BitVec 32 → (Nat → Bool) → List (TCGArg h) → BitVec 32
  | _, bits, _, [] => bits
  | k, bits, dead, arg :: iargs =>
    if i.isInput arg then
      i.inputBits (k + 1) (if dead arg.toNat then bits ||| 1#32 <<< k else bits)
        (Function.update dead arg.toNat false) iargs
    else i.inputBits (k + 1) bits dead iargs

/-- The pass looks at the temporaries of the op, and writes its entry of `op_dead_iargs` if it stays. -/
def Instr.analysed (i : Instr h) : Bool :=
  match i.opcode with
  | .setLabel | .debugInsnStart | .nopn | .discard | .endOp => false
  | _ => true

def Instr.deadIargs (s : TCGContext) (i : Instr h) (dead : Nat → Bool) (old : BitVec 16) : BitVec 16 :=
  if i.analysed && !i.removable dead then (i.inputBits 0 0 (i.deadInside s dead) i.iargs).setWidth 16 else old

/-- `op_dead_iargs` from the `n`-th op on. -/
def deadBits (s : TCGContext) (fresh : Nat → BitVec 16) : Nat → List (Instr h) → List (BitVec 16)
  | _, [] => []
  | n, i :: is => i.deadIargs s (deadFrom s is) (fresh n) :: deadBits s fresh (n + 1) is

/-- What the pass relies on: temporaries that exist, the word count at the end of a call and of a
`nopn`, and a call that fits the parameters of `exec-all.h` (four arguments of at most two words). -/
structure Instr.Valid (s : TCGContext) (i : Instr h) : Prop where
  outs_lt : ∀ t ∈ i.outs, t < s.nbTemps
  ins_lt : ∀ t ∈ i.ins, t < s.nbTemps
  counted : i.opcode = .call ∨ i.opcode = .nopn → ∃ arg, i.words.getLast? = some arg ∧ arg.toNat = i.words.length
  inputs_le : i.iargs.length ≤ 32

section Buffers

variable {left right words : List (TCGArg h)} {arg : TCGArg h}

theorem back_add (n m : Nat) : back (n + m) m = .ok n := by
  rw [back, if_neg (by omega), Nat.add_sub_cancel]

theorem loadArg_append (left right : List (TCGArg h)) (arg : TCGArg h) :
    loadArg (left ++ arg :: right) left.length = .ok arg := by
  simp [loadArg]

theorem loadArgs_append (left words right : List (TCGArg h)) :
    loadArgs (left ++ (words ++ right)) left.length words.length = .ok words := by
  rw [loadArgs, if_neg (by simp), List.drop_left, List.take_left]

theorem storeArg_append {k : Nat} (hk : k < words.length) (arg : TCGArg h) :
    storeArg (left ++ (words ++ right)) (left.length + k) arg = .ok (left ++ (words.set k arg ++ right)) := by
  have hlt : left.length + k < (left ++ (words ++ right)).length := by
    simp only [List.length_append]
    omega
  rw [storeArg, if_pos hlt, List.set_append_right _ _ (Nat.le_add_right _ _), Nat.add_sub_cancel_left,
    List.set_append_left _ _ hk]

theorem lastArg_append {x : Pass h} (hbuf : x.genOpparamBuf = left ++ (words ++ right))
    (hargs : x.args = left.length + words.length) (hlast : words.getLast? = some arg) : lastArg x = .ok arg := by
  obtain ⟨init, rfl⟩ := List.getLast?_eq_some_iff.mp hlast
  have hback : back x.args 1 = .ok (left ++ init).length := by
    rw [hargs, List.length_append, List.length_singleton, ← Nat.add_assoc, back_add, List.length_append]
  rw [lastArg, hback, hbuf]
  have hsplit : left ++ (init ++ [arg] ++ right) = (left ++ init) ++ arg :: right := by simp
  rw [hsplit]
  exact loadArg_append _ _ _

end Buffers

/-- `dead_temps` with the given contents. -/
def tabulate (s : TCGContext) (dead : Nat → Bool) : List Bool := (List.range s.nbTemps).map dead

section Temps

variable {dead : Nat → Bool} {arg : TCGArg h}

theorem readTemp_tabulate (harg : arg.toNat < s.nbTemps) : readTemp (tabulate s dead) arg = .ok (dead arg.toNat) := by
  simp [readTemp, tabulate, harg]

theorem writeTemp_tabulate (harg : arg.toNat < s.nbTemps) (b : Bool) :
    writeTemp (tabulate s dead) arg b = .ok (tabulate s (Function.update dead arg.toNat b)) := by
  rw [writeTemp, if_pos (by simpa [tabulate] using harg)]
  refine congrArg Except.ok (List.ext_getElem? fun t ↦ ?_)
  rw [tabulate, tabulate, List.getElem?_set]
  split_ifs with ht hlt
  · subst ht
    simp [harg]
  · simp [harg] at hlt
  · rcases Nat.lt_or_ge t s.nbTemps with h | h
    · simp [h, Function.update_of_ne (Ne.symm ht)]
    · simp [h]

theorem allDead_tabulate {oargs : List (TCGArg h)} (ho : ∀ t ∈ oargs.map BitVec.toNat, t < s.nbTemps) :
    allDead (tabulate s dead) oargs = .ok ((oargs.map BitVec.toNat).all dead) := by
  induction oargs with
  | nil => rfl
  | cons arg oargs ih =>
    rw [List.map_cons, List.forall_mem_cons] at ho
    rw [allDead, readTemp_tabulate ho.1, List.map_cons, List.all_cons]
    change (if dead arg.toNat then allDead (tabulate s dead) oargs else .ok false) = _
    cases dead arg.toNat
    · rfl
    · exact ih ho.2

theorem outputsDead_tabulate {oargs : List (TCGArg h)} (ho : ∀ t ∈ oargs.map BitVec.toNat, t < s.nbTemps) :
    outputsDead (tabulate s dead) oargs = .ok (tabulate s (kill (oargs.map BitVec.toNat) dead)) := by
  induction oargs generalizing dead with
  | nil => rw [List.map_nil, kill_nil, outputsDead]
  | cons arg oargs ih =>
    rw [List.map_cons, List.forall_mem_cons] at ho
    rw [outputsDead, writeTemp_tabulate ho.1, List.map_cons, kill_cons]
    exact ih ho.2

/-- The globals are live, whatever the rest is. -/
theorem globals_tabulate {rest : List Bool}
    (hrest : ∀ t, s.nbGlobals ≤ t → rest[t - s.nbGlobals]? = if t < s.nbTemps then some (dead t) else none) :
    List.replicate s.nbGlobals false ++ rest = tabulate s fun t ↦ !s.isGlobal t && dead t := by
  refine List.ext_getElem? fun t ↦ ?_
  have hle : s.nbGlobals ≤ s.nbTemps := s.globals_le
  rw [tabulate]
  rcases Nat.lt_or_ge t s.nbGlobals with ht | ht
  · have hlt : t < s.nbTemps := Nat.lt_of_lt_of_le ht hle
    simp [ht, hlt, TCGContext.isGlobal, List.getElem?_append_left]
  · have hnot : ¬t < s.nbGlobals := Nat.not_lt.mpr ht
    rw [List.getElem?_append_right (by simpa using ht), List.length_replicate, hrest t ht]
    split_ifs with hlt
    · simp [hlt, TCGContext.isGlobal, hnot]
    · simp [hlt]

theorem globalsLive_tabulate : globalsLive s (tabulate s dead) = tabulate s fun t ↦ !s.isGlobal t && dead t := by
  apply globals_tabulate
  intro t ht
  rw [List.getElem?_drop, Nat.add_sub_cancel' ht, tabulate]
  split_ifs with hlt
  · simp [hlt]
  · simp [Nat.le_of_not_lt hlt]

theorem tcgLaBbEnd_eq (s : TCGContext) : tcgLaBbEnd s = tabulate s fun t ↦ !s.outlives t := by
  have houtlives : (fun t ↦ !s.outlives t) = fun t ↦ !s.isGlobal t && !s.isLocal t := by
    funext t
    rw [TCGContext.outlives, Bool.not_or]
  rw [houtlives]
  apply globals_tabulate
  intro t ht
  rw [List.getElem?_map, List.getElem?_drop, Nat.add_sub_cancel' ht, TCGContext.isLocal]
  split_ifs with hlt
  · have hget : s.temps[t]? = some s.temps[t] := List.getElem?_eq_getElem hlt
    rw [hget]
    rfl
  · rw [List.getElem?_eq_none (Nat.le_of_not_lt hlt)]
    rfl

end Temps

end IDeviceEmulator.Tcg
