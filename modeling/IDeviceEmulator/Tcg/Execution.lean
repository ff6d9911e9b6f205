import Mathlib.Logic.Function.Iterate
import IDeviceEmulator.Tcg.Rewriting

namespace IDeviceEmulator.Tcg

open Dataflow

variable {h : Host} {V ω : Type}

/-- What an op asks for: its inputs, and the globals if it can see them. -/
structure Request (h : Host) (V : Type) where
  opcode : TCGOpcode
  cargs : List (TCGArg h)
  inputs : List (Option V)
  visible : List V

inductive Next (h : Host)
  | fall
  | label (label : TCGArg h)
  | leave

/-- What an op with side effects leaves: its outputs, and new globals if it can see them. -/
structure Outcome (V ω : Type) where
  world : ω
  outputs : Nat → V
  globals : Nat → V

/-- What the ops mean. The world is the memory and all else that an op can reach. -/
structure Semantics (h : Host) (V ω : Type) where
  /-- The outputs of an op without side effects. -/
  compute : Request h V → ω → Nat → V
  perform : Request h V → ω → Outcome V ω
  control : Request h V → ω → Next h

inductive Event (h : Host) (V : Type)
  | effect (request : Request h V)
  /-- The globals and the local temporaries at the end of a basic block. -/
  | blockEnd (values : List V)

/-- The place of the next op, unless control has left the list. -/
structure Machine (h : Host) (V ω : Type) where
  place : Option Nat
  temps : Nat → V
  world : ω
  trace : List (Event h V)

def TCGContext.globals (s : TCGContext) : List Nat := List.range s.nbGlobals

def TCGContext.lasting (s : TCGContext) : List Nat := (List.range s.nbTemps).filter s.outlives

def Instr.request (s : TCGContext) (i : Instr h) (temps : Nat → V) : Request h V where
  opcode := i.opcode
  cargs := i.cargs
  inputs := i.iargs.map fun arg ↦ if i.isInput arg then some (temps arg.toNat) else none
  visible := if i.seesGlobals then s.globals.map temps else []

def Instr.settle (s : TCGContext) (i : Instr h) (outcome : Outcome V ω) (temps : Nat → V) : Nat → V :=
  assign (fun t ↦ if i.seesGlobals && s.isGlobal t then outcome.globals t else temps t) i.outs outcome.outputs

def Instr.isLabel (i : Instr h) (label : TCGArg h) : Bool := i.opcode = .setLabel ∧ i.cargs = [label]

def follow (is : List (Instr h)) (place : Nat) : Next h → Option Nat
  | .fall => some (place + 1)
  | .label label => is.findIdx? (·.isLabel label)
  | .leave => none

/-- One op, which may be one of three kinds: a label, an op with side effects, an op without. -/
def execute (sem : Semantics h V ω) (s : TCGContext) (is : List (Instr h)) (place : Nat) (i : Instr h)
    (x : Machine h V ω) : Machine h V ω :=
  let request := i.request s x.temps
  if i.opcode = .setLabel then
    { x with place := some (place + 1), trace := x.trace ++ [.blockEnd (s.lasting.map x.temps)] }
  else if i.sideEffects then
    let outcome := sem.perform request x.world
    let temps := i.settle s outcome x.temps
    if i.endsBlock then
      ⟨follow is place (sem.control request outcome.world), temps, outcome.world,
        x.trace ++ [.effect request, .blockEnd (s.lasting.map temps)]⟩
    else ⟨some (place + 1), temps, outcome.world, x.trace ++ [.effect request]⟩
  else { x with place := some (place + 1), temps := assign x.temps i.outs (sem.compute request x.world) }

def step (sem : Semantics h V ω) (s : TCGContext) (is : List (Instr h)) (x : Machine h V ω) : Machine h V ω :=
  match x.place with
  | none => x
  | some place =>
    match is[place]? with
    | none => { x with place := none }
    | some i => execute sem s is place i x

def enter (temps : Nat → V) (world : ω) : Machine h V ω := ⟨some 0, temps, world, []⟩

/-- The next op begins a basic block. -/
def Instr.boundary (i : Instr h) : Bool := i.opcode = .setLabel || i.endsBlock

/-- The temporary is read in the basic block at hand before it is written. -/
def readFirst (t : Nat) : List (Instr h) → Bool
  | [] => false
  | i :: is => decide (t ∈ i.ins) || (!decide (t ∈ i.outs) && !i.boundary && readFirst t is)

/-- No plain temporary is read in a block that another op begins before it is written there. -/
def Defined (s : TCGContext) : List (Instr h) → Prop
  | [] => True
  | i :: is => (i.boundary = true → ∀ t < s.nbTemps, s.outlives t = false → readFirst t is = false) ∧ Defined s is

/-- The buffers of a translation. -/
structure WellFormed (s : TCGContext) (ops : List TCGOpcode) (args : List (TCGArg h)) (is : List (Instr h)) : Prop where
  decoded : decode ops args = some is
  valid : ∀ i ∈ is, i.Valid s
  defined : Defined s is

def Instr.reads (s : TCGContext) (i : Instr h) (t : Nat) : Prop :=
  t ∈ i.ins ∨ i.seesGlobals = true ∧ s.isGlobal t = true

/-- Where control may go from an op. -/
def Successor (is : List (Instr h)) (i : Instr h) (place next : Nat) : Prop :=
  next = place + 1 ∨ i.endsBlock = true ∧ ∃ j, is[next]? = some j ∧ j.opcode = .setLabel

/-- From the place on, some path reads the temporary before it is written. -/
inductive ReadLater (s : TCGContext) (is : List (Instr h)) (t : Nat) : Nat → Prop
  | here {place : Nat} {i : Instr h} (hi : is[place]? = some i) (hreads : i.reads s t) : ReadLater s is t place
  | after {place next : Nat} {i : Instr h} (hi : is[place]? = some i) (hout : t ∉ i.outs)
      (hsucc : Successor is i place next) (hnext : ReadLater s is t next) : ReadLater s is t place

/-- The value that the temporary has before the op is not read behind it. -/
def Spent (s : TCGContext) (is : List (Instr h)) (place t : Nat) : Prop :=
  ∀ i, is[place]? = some i → t ∈ i.outs ∨ ∀ next, Successor is i place next → ¬ReadLater s is t next

end IDeviceEmulator.Tcg
