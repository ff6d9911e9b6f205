import IDeviceEmulator.Tcg.Ops

namespace IDeviceEmulator.Tcg

def tcgCallPure (h : Host) : TCGArg h := 0x0010
def tcgCallConst (h : Host) : TCGArg h := 0x0020
def tcgCallDummyArg (h : Host) : TCGArg h := -1

structure TCGTemp where
  tempLocal : Bool

/-- The temporaries of a translation, globals first. -/
structure TCGContext where
  nbGlobals : Nat
  temps : List TCGTemp
  globals_le : nbGlobals ≤ temps.length

def TCGContext.nbTemps (s : TCGContext) : Nat := s.temps.length

/-- `undefined` is an access outside a buffer, or a shift past the width of an `int`. -/
inductive Stop
  | undefined
  | abort

/-- The buffers and the variables of `tcg_liveness_analysis`; `args` is an index. -/
structure Pass (h : Host) where
  genOpcBuf : List TCGOpcode
  genOpparamBuf : List (TCGArg h)
  opDeadIargs : List (BitVec 16)
  deadTemps : List Bool
  args : Nat

variable {h : Host}

def loadArg (buf : List (TCGArg h)) (at' : Nat) : Except Stop (TCGArg h) :=
  match buf[at']? with
  | some arg => .ok arg
  | none => .error .undefined

def loadArgs (buf : List (TCGArg h)) (at' n : Nat) : Except Stop (List (TCGArg h)) :=
  if buf.length < at' + n then .error .undefined else .ok ((buf.drop at').take n)

def storeArg (buf : List (TCGArg h)) (at' : Nat) (arg : TCGArg h) : Except Stop (List (TCGArg h)) :=
  if at' < buf.length then .ok (buf.set at' arg) else .error .undefined

/-- `args -= n`. -/
def back (args n : Nat) : Except Stop Nat := if args < n then .error .undefined else .ok (args - n)

/-- `args[-1]`. -/
def lastArg (x : Pass h) : Except Stop (TCGArg h) := do
  let at' ← back x.args 1
  loadArg x.genOpparamBuf at'

def readTemp (deadTemps : List Bool) (arg : TCGArg h) : Except Stop Bool :=
  match deadTemps[arg.toNat]? with
  | some dead => .ok dead
  | none => .error .undefined

def writeTemp (deadTemps : List Bool) (arg : TCGArg h) (dead : Bool) : Except Stop (List Bool) :=
  if arg.toNat < deadTemps.length then .ok (deadTemps.set arg.toNat dead) else .error .undefined

def tcgSetNop (opIndex args nbArgs : Nat) (x : Pass h) : Except Stop (Pass h) :=
  if nbArgs = 0 then .ok { x with genOpcBuf := x.genOpcBuf.set opIndex .nop }
  else do
    let buf ← storeArg x.genOpparamBuf args (.ofNat _ nbArgs)
    let buf ← storeArg buf (args + (nbArgs - 1)) (.ofNat _ nbArgs)
    .ok { x with genOpcBuf := x.genOpcBuf.set opIndex .nopn, genOpparamBuf := buf }

/-- `memset(dead_temps, 0, s->nb_globals)`. -/
def globalsLive (s : TCGContext) (deadTemps : List Bool) : List Bool :=
  List.replicate s.nbGlobals false ++ deadTemps.drop s.nbGlobals

def tcgLaBbEnd (s : TCGContext) : List Bool :=
  List.replicate s.nbGlobals false ++ (s.temps.drop s.nbGlobals).map fun ts ↦ !ts.tempLocal

def allDead (deadTemps : List Bool) : List (TCGArg h) → Except Stop Bool
  | [] => .ok true
  | arg :: oargs => do
    let dead ← readTemp deadTemps arg
    if dead then allDead deadTemps oargs else .ok false

def outputsDead (deadTemps : List Bool) : List (TCGArg h) → Except Stop (List Bool)
  | [] => .ok deadTemps
  | arg :: oargs => do
    let deadTemps ← writeTemp deadTemps arg true
    outputsDead deadTemps oargs

/-- `dead_iargs |= (1 << i)`. -/
def markInput (deadIargs : BitVec 32) (i : Nat) : Except Stop (BitVec 32) :=
  if i < 32 then .ok (deadIargs ||| 1#32 <<< i) else .error .undefined

/-- The inputs from the `i`-th on; only the inputs of a call may be `TCG_CALL_DUMMY_ARG`. -/
def inputsLive (call : Bool) (i : Nat) (deadIargs : BitVec 32) (deadTemps : List Bool) :
    List (TCGArg h) → Except Stop (BitVec 32 × List Bool)
  | [] => .ok (deadIargs, deadTemps)
  | arg :: iargs =>
    if call ∧ arg = tcgCallDummyArg h then inputsLive call (i + 1) deadIargs deadTemps iargs
    else do
      let dead ← readTemp deadTemps arg
      let deadIargs ← if dead then markInput deadIargs i else .ok deadIargs
      let deadTemps ← writeTemp deadTemps arg false
      inputsLive call (i + 1) deadIargs deadTemps iargs

/-- `do_not_remove` and `do_not_remove_call`, with what happens between outputs and inputs. -/
def keepOp (opIndex : Nat) (call : Bool) (between : List Bool → List Bool) (oargs iargs : List (TCGArg h))
    (x : Pass h) : Except Stop (Pass h) := do
  let deadTemps ← outputsDead x.deadTemps oargs
  let (deadIargs, deadTemps) ← inputsLive call 0 0 (between deadTemps) iargs
  if opIndex < x.opDeadIargs.length then
    .ok { x with deadTemps, opDeadIargs := x.opDeadIargs.set opIndex (deadIargs.setWidth 16) }
  else .error .undefined

def analyseCall (s : TCGContext) (opIndex : Nat) (x : Pass h) : Except Stop (Pass h) := do
  let nbArgs ← lastArg x
  let args ← back x.args nbArgs.toNat
  let arg ← loadArg x.genOpparamBuf args
  let nbIargs := (arg &&& 0xffff).toNat
  let nbOargs := (arg >>> 16).toNat
  let callFlags ← loadArg x.genOpparamBuf (args + 1 + (nbOargs + nbIargs))
  let oargs ← loadArgs x.genOpparamBuf (args + 1) nbOargs
  let dead ← if callFlags &&& tcgCallPure h ≠ 0 then allDead x.deadTemps oargs else .ok false
  if dead then tcgSetNop opIndex args nbArgs.toNat { x with args }
  else
    let iargs ← loadArgs x.genOpparamBuf (args + 1 + nbOargs) nbIargs
    keepOp opIndex true (if callFlags &&& tcgCallConst h = 0 then globalsLive s else id) oargs iargs { x with args }

def analyseDefault (s : TCGContext) (opIndex : Nat) (op : TCGOpcode) (x : Pass h) : Except Stop (Pass h) := do
  let d := tcgOpDefs h op
  let args ← back x.args d.nbArgs
  let oargs ← loadArgs x.genOpparamBuf args d.nbOargs
  let dead ← if d.flags &&& tcgOpfSideEffects = 0 ∧ d.nbOargs ≠ 0 then allDead x.deadTemps oargs else .ok false
  if dead then tcgSetNop opIndex args d.nbArgs { x with args }
  else
    let iargs ← loadArgs x.genOpparamBuf (args + d.nbOargs) d.nbIargs
    let between :=
      if d.flags &&& tcgOpfBbEnd ≠ 0 then fun _ ↦ tcgLaBbEnd s
      else if d.flags &&& tcgOpfCallClobber ≠ 0 then globalsLive s
      else id
    keepOp opIndex false between oargs iargs { x with args }

def analyseOp (s : TCGContext) (opIndex : Nat) (x : Pass h) : Except Stop (Pass h) :=
  match x.genOpcBuf[opIndex]? with
  | none => .error .undefined
  | some .call => analyseCall s opIndex x
  | some .setLabel => do
    let args ← back x.args 1
    .ok { x with args, deadTemps := tcgLaBbEnd s }
  | some .debugInsnStart => do
    let args ← back x.args (tcgOpDefs h .debugInsnStart).nbArgs
    .ok { x with args }
  | some .nopn => do
    let nbArgs ← lastArg x
    let args ← back x.args nbArgs.toNat
    .ok { x with args }
  | some .discard => do
    let args ← back x.args 1
    let arg ← loadArg x.genOpparamBuf args
    let deadTemps ← writeTemp x.deadTemps arg true
    .ok { x with args, deadTemps }
  | some .endOp => .ok x
  | some op => analyseDefault s opIndex op x

/-- The ops below the `n`-th, from the last to the first. -/
def analyseOps (s : TCGContext) : Nat → Pass h → Except Stop (Pass h)
  | 0, x => .ok x
  | n + 1, x => do
    let x ← analyseOp s n x
    analyseOps s n x

/-- The pass over the ops up to `end`; `fresh` is what `tcg_malloc` leaves in `op_dead_iargs`. -/
def tcgLivenessAnalysis (s : TCGContext) (fresh : Nat → BitVec 16) (genOpcBuf : List TCGOpcode)
    (genOpparamBuf : List (TCGArg h)) : Except Stop (Pass h) := do
  let x ← analyseOps s genOpcBuf.length
    ⟨genOpcBuf, genOpparamBuf, (List.range genOpcBuf.length).map fresh,
      List.replicate s.nbTemps true, genOpparamBuf.length⟩
  if x.args = 0 then .ok x else .error .abort

end IDeviceEmulator.Tcg
