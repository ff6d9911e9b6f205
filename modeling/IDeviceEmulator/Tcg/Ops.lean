import Mathlib.Tactic.Common
import Mathlib.Data.List.Basic

namespace IDeviceEmulator.Tcg

inductive Width
  | w32
  | w64
  deriving DecidableEq

def Width.bits : Width → Nat
  | .w32 => 32
  | .w64 => 64

/-- `TCG_TARGET_REG_BITS` and `TARGET_LONG_BITS`, which the rows of `tcg_op_defs` depend on. -/
structure Host where
  regBits : Width
  longBits : Width
  deriving DecidableEq

abbrev TCGArg (h : Host) : Type := BitVec h.regBits.bits

/-- The constants `INDEX_op_*`; those a target may lack are always there. -/
inductive TCGOpcode
  | endOp | nop | nop1 | nop2 | nop3 | nopn | discard | setLabel | call | jmp | br
  | movI32 | moviI32 | setcondI32
  | ld8uI32 | ld8sI32 | ld16uI32 | ld16sI32 | ldI32 | st8I32 | st16I32 | stI32
  | addI32 | subI32 | mulI32 | divI32 | divuI32 | remI32 | remuI32 | div2I32 | divu2I32
  | andI32 | orI32 | xorI32 | shlI32 | shrI32 | sarI32 | rotlI32 | rotrI32 | depositI32
  | brcondI32 | add2I32 | sub2I32 | brcond2I32 | mulu2I32 | setcond2I32
  | ext8sI32 | ext16sI32 | ext8uI32 | ext16uI32 | bswap16I32 | bswap32I32 | notI32 | negI32
  | andcI32 | orcI32 | eqvI32 | nandI32 | norI32
  | movI64 | moviI64 | setcondI64
  | ld8uI64 | ld8sI64 | ld16uI64 | ld16sI64 | ld32uI64 | ld32sI64 | ldI64
  | st8I64 | st16I64 | st32I64 | stI64
  | addI64 | subI64 | mulI64 | divI64 | divuI64 | remI64 | remuI64 | div2I64 | divu2I64
  | andI64 | orI64 | xorI64 | shlI64 | shrI64 | sarI64 | rotlI64 | rotrI64 | depositI64
  | brcondI64
  | ext8sI64 | ext16sI64 | ext32sI64 | ext8uI64 | ext16uI64 | ext32uI64
  | bswap16I64 | bswap32I64 | bswap64I64 | notI64 | negI64
  | andcI64 | orcI64 | eqvI64 | nandI64 | norI64
  | debugInsnStart | exitTb | gotoTb
  | qemuLd8u | qemuLd8s | qemuLd16u | qemuLd16s | qemuLd32 | qemuLd32u | qemuLd32s | qemuLd64
  | qemuSt8 | qemuSt16 | qemuSt32 | qemuSt64
  deriving DecidableEq

def tcgOpfBbEnd : BitVec 8 := 0x01
def tcgOpfCallClobber : BitVec 8 := 0x02
def tcgOpfSideEffects : BitVec 8 := 0x04

structure TCGOpDef where
  nbOargs : Nat
  nbIargs : Nat
  nbCargs : Nat
  flags : BitVec 8

def TCGOpDef.nbArgs (d : TCGOpDef) : Nat := d.nbOargs + d.nbIargs + d.nbCargs

/-- The words that hold a guest address. -/
def Host.addrArgs (h : Host) : Nat :=
  if h.regBits = .w32 ∧ h.longBits = .w64 then 2 else 1

/-- The words that hold a 64 bit value. -/
def Host.quadArgs (h : Host) : Nat := if h.regBits = .w32 then 2 else 1

def tcgOpDefs (h : Host) : TCGOpcode → TCGOpDef
  | .endOp | .nop => ⟨0, 0, 0, 0⟩
  | .nop1 | .nopn | .setLabel => ⟨0, 0, 1, 0⟩
  | .nop2 => ⟨0, 0, 2, 0⟩
  | .nop3 => ⟨0, 0, 3, 0⟩
  | .discard => ⟨1, 0, 0, 0⟩
  | .call => ⟨0, 1, 2, tcgOpfSideEffects⟩
  | .jmp => ⟨0, 1, 0, tcgOpfBbEnd ||| tcgOpfSideEffects⟩
  | .br | .exitTb | .gotoTb => ⟨0, 0, 1, tcgOpfBbEnd ||| tcgOpfSideEffects⟩
  | .brcondI32 | .brcondI64 => ⟨0, 2, 2, tcgOpfBbEnd ||| tcgOpfSideEffects⟩
  | .brcond2I32 => ⟨0, 4, 2, tcgOpfBbEnd ||| tcgOpfSideEffects⟩
  | .moviI32 | .moviI64 => ⟨1, 0, 1, 0⟩
  | .setcondI32 | .setcondI64 => ⟨1, 2, 1, 0⟩
  | .setcond2I32 => ⟨1, 4, 1, 0⟩
  | .ld8uI32 | .ld8sI32 | .ld16uI32 | .ld16sI32 | .ldI32
  | .ld8uI64 | .ld8sI64 | .ld16uI64 | .ld16sI64 | .ld32uI64 | .ld32sI64 | .ldI64 => ⟨1, 1, 1, 0⟩
  | .st8I32 | .st16I32 | .stI32 | .st8I64 | .st16I64 | .st32I64 | .stI64 =>
    ⟨0, 2, 1, tcgOpfSideEffects⟩
  | .addI32 | .subI32 | .mulI32 | .divI32 | .divuI32 | .remI32 | .remuI32
  | .andI32 | .orI32 | .xorI32 | .shlI32 | .shrI32 | .sarI32 | .rotlI32 | .rotrI32
  | .andcI32 | .orcI32 | .eqvI32 | .nandI32 | .norI32
  | .addI64 | .subI64 | .mulI64 | .divI64 | .divuI64 | .remI64 | .remuI64
  | .andI64 | .orI64 | .xorI64 | .shlI64 | .shrI64 | .sarI64 | .rotlI64 | .rotrI64
  | .andcI64 | .orcI64 | .eqvI64 | .nandI64 | .norI64 => ⟨1, 2, 0, 0⟩
  | .div2I32 | .divu2I32 | .div2I64 | .divu2I64 => ⟨2, 3, 0, 0⟩
  | .depositI32 | .depositI64 => ⟨1, 2, 2, 0⟩
  | .add2I32 | .sub2I32 => ⟨2, 4, 0, 0⟩
  | .mulu2I32 => ⟨2, 2, 0, 0⟩
  | .movI32 | .ext8sI32 | .ext16sI32 | .ext8uI32 | .ext16uI32 | .bswap16I32 | .bswap32I32
  | .notI32 | .negI32
  | .movI64 | .ext8sI64 | .ext16sI64 | .ext32sI64 | .ext8uI64 | .ext16uI64 | .ext32uI64
  | .bswap16I64 | .bswap32I64 | .bswap64I64 | .notI64 | .negI64 => ⟨1, 1, 0, 0⟩
  | .debugInsnStart => ⟨0, 0, h.addrArgs, 0⟩
  | .qemuLd8u | .qemuLd8s | .qemuLd16u | .qemuLd16s | .qemuLd32 | .qemuLd32u | .qemuLd32s =>
    ⟨1, h.addrArgs, 1, tcgOpfCallClobber ||| tcgOpfSideEffects⟩
  | .qemuLd64 => ⟨h.quadArgs, h.addrArgs, 1, tcgOpfCallClobber ||| tcgOpfSideEffects⟩
  | .qemuSt8 | .qemuSt16 | .qemuSt32 =>
    ⟨0, h.addrArgs + 1, 1, tcgOpfCallClobber ||| tcgOpfSideEffects⟩
  | .qemuSt64 => ⟨0, h.addrArgs + h.quadArgs, 1, tcgOpfCallClobber ||| tcgOpfSideEffects⟩

theorem nbArgs_le (h : Host) (op : TCGOpcode) : (tcgOpDefs h op).nbArgs ≤ 6 := by
  rcases h with ⟨_ | _, _ | _⟩ <;> cases op <;> decide

variable {h : Host}

/-- An op and its words: the count word of a call, outputs, inputs and constants. -/
structure Instr (h : Host) where
  opcode : TCGOpcode
  head : List (TCGArg h)
  oargs : List (TCGArg h)
  iargs : List (TCGArg h)
  cargs : List (TCGArg h)

def Instr.words (i : Instr h) : List (TCGArg h) := i.head ++ i.oargs ++ i.iargs ++ i.cargs

/-- The numbers of outputs, inputs and constants. -/
def Instr.Counts (i : Instr h) (nbOargs nbIargs nbCargs : Nat) : Prop :=
  i.oargs.length = nbOargs ∧ i.iargs.length = nbIargs ∧ i.cargs.length = nbCargs

def cut (op : TCGOpcode) (head : List (TCGArg h)) (nbOargs nbIargs nbCargs : Nat) (args : List (TCGArg h)) :
    Option (Instr h × List (TCGArg h)) :=
  if args.length < nbOargs + nbIargs + nbCargs then none
  else some (⟨op, head, args.take nbOargs, (args.drop nbOargs).take nbIargs,
    (args.drop (nbOargs + nbIargs)).take nbCargs⟩, args.drop (nbOargs + nbIargs + nbCargs))

/-- One op of the walk in `tcg_gen_code_common`, with the words behind it. -/
def decodeOp (op : TCGOpcode) (args : List (TCGArg h)) : Option (Instr h × List (TCGArg h)) :=
  match op with
  | .call =>
    match args with
    | [] => none
    | arg :: args => cut .call [arg] (arg >>> 16).toNat (arg &&& 0xffff).toNat (tcgOpDefs h .call).nbCargs args
  | .nopn =>
    match args with
    | [] => none
    | arg :: _ => cut .nopn [] 0 0 arg.toNat args
  | op => cut op [] (tcgOpDefs h op).nbOargs (tcgOpDefs h op).nbIargs (tcgOpDefs h op).nbCargs args

/-- The ops of `gen_opc_buf` with their words of `gen_opparam_buf`. -/
def decode : List TCGOpcode → List (TCGArg h) → Option (List (Instr h))
  | [], [] => some []
  | [], _ :: _ => none
  | op :: ops, args =>
    match decodeOp op args with
    | none => none
    | some (i, args) => (decode ops args).map (i :: ·)

/-- The numbers of words are those that the walk finds. -/
def Instr.Shaped (i : Instr h) : Prop :=
  match i.opcode with
  | .call => ∃ arg, i.head = [arg] ∧
    i.Counts (arg >>> 16).toNat (arg &&& 0xffff).toNat (tcgOpDefs h .call).nbCargs
  | .nopn => i.head = [] ∧ ∃ arg, i.Counts 0 0 arg.toNat ∧ (i.cargs ≠ [] → i.cargs.head? = some arg)
  | op => i.head = [] ∧ i.Counts (tcgOpDefs h op).nbOargs (tcgOpDefs h op).nbIargs (tcgOpDefs h op).nbCargs

theorem cut_of_counts {i : Instr h} {nbOargs nbIargs nbCargs : Nat} (hc : i.Counts nbOargs nbIargs nbCargs)
    (args : List (TCGArg h)) :
    cut i.opcode i.head nbOargs nbIargs nbCargs (i.oargs ++ i.iargs ++ i.cargs ++ args) = some (i, args) := by
  obtain ⟨rfl, rfl, rfl⟩ := hc
  have hdrop : (i.oargs ++ i.iargs ++ i.cargs ++ args).drop (i.oargs.length + i.iargs.length) = i.cargs ++ args := by
    rw [List.append_assoc (i.oargs ++ i.iargs), ← List.length_append, List.drop_left]
  have hlen : ¬(i.oargs ++ i.iargs ++ i.cargs ++ args).length <
      i.oargs.length + i.iargs.length + i.cargs.length := by
    simp only [List.length_append]
    omega
  rw [cut, if_neg hlen, hdrop, ← List.drop_drop, hdrop, List.take_left, List.drop_left]
  simp [List.append_assoc]

theorem counts_of_cut {op : TCGOpcode} {head args rest : List (TCGArg h)} {nbOargs nbIargs nbCargs : Nat}
    {i : Instr h} (hcut : cut op head nbOargs nbIargs nbCargs args = some (i, rest)) :
    i.opcode = op ∧ i.head = head ∧ i.Counts nbOargs nbIargs nbCargs ∧
      args = i.oargs ++ i.iargs ++ i.cargs ++ rest := by
  rw [cut] at hcut
  split_ifs at hcut with hlen
  cases hcut
  refine ⟨rfl, rfl, ⟨?_, ?_, ?_⟩, ?_⟩
  · rw [List.length_take]
    omega
  · rw [List.length_take, List.length_drop]
    omega
  · rw [List.length_take, List.length_drop]
    omega
  · simp only [List.append_assoc]
    rw [← List.drop_drop (i := nbCargs), List.take_append_drop, ← List.drop_drop, List.take_append_drop,
      List.take_append_drop]

theorem decodeOp_words {i : Instr h} (hi : i.Shaped) (hne : i.opcode = .nopn → i.cargs ≠ [])
    (args : List (TCGArg h)) : decodeOp i.opcode (i.words ++ args) = some (i, args) := by
  rw [Instr.Shaped] at hi
  rw [Instr.words, decodeOp.eq_def]
  split at hi
  case h_1 hop =>
    obtain ⟨arg, hhead, hc⟩ := hi
    have hcut := cut_of_counts hc args
    rw [hop, hhead] at hcut
    rw [hhead]
    exact hcut
  case h_2 hop =>
    obtain ⟨hhead, arg, hc, hfirst⟩ := hi
    have hcut := cut_of_counts hc args
    obtain ⟨ho, hi', -⟩ := hc
    obtain ⟨rest, hrest⟩ := List.head?_eq_some_iff.mp (hfirst (hne hop))
    rw [List.length_eq_zero_iff] at ho hi'
    rw [hop, hhead, ho, hi', hrest] at hcut
    rw [hhead, ho, hi', hrest]
    exact hcut
  case h_3 hcall hnopn =>
    obtain ⟨hhead, hc⟩ := hi
    have hcut := cut_of_counts hc args
    rw [hhead] at hcut
    rw [hhead]
    exact hcut

theorem shaped_of_decodeOp {op : TCGOpcode} {args rest : List (TCGArg h)} {i : Instr h}
    (hdec : decodeOp op args = some (i, rest)) : i.opcode = op ∧ i.Shaped ∧ args = i.words ++ rest := by
  rw [decodeOp.eq_def] at hdec
  rw [Instr.Shaped, Instr.words]
  split at hdec
  · cases args with
    | nil => cases hdec
    | cons arg args =>
      obtain ⟨hop, hhead, hc, hargs⟩ := counts_of_cut hdec
      rw [hop, hhead]
      refine ⟨rfl, ⟨arg, rfl, hc⟩, ?_⟩
      simp [hargs]
  · cases args with
    | nil => cases hdec
    | cons arg args =>
      obtain ⟨hop, hhead, hc, hargs⟩ := counts_of_cut hdec
      obtain ⟨ho, hi, -⟩ := id hc
      rw [List.length_eq_zero_iff] at ho hi
      rw [hop, hhead]
      refine ⟨rfl, ⟨rfl, arg, hc, fun hne ↦ ?_⟩, by simp [hargs]⟩
      obtain ⟨first, cargs, hcargs⟩ := List.exists_cons_of_ne_nil hne
      rw [ho, hi, hcargs] at hargs
      rw [hcargs, List.head?_cons, (List.cons.inj hargs).1]
  · obtain ⟨hop, hhead, hc, hargs⟩ := counts_of_cut hdec
    rw [hop, hhead]
    refine ⟨rfl, ?_, by simp [hargs]⟩
    split
    · exact absurd rfl ‹_›
    · exact absurd rfl ‹_›
    · exact ⟨rfl, hc⟩

theorem decode_words {is : List (Instr h)} (hs : ∀ i ∈ is, i.Shaped ∧ (i.opcode = .nopn → i.cargs ≠ [])) :
    decode (is.map Instr.opcode) (is.flatMap Instr.words) = some is := by
  induction is with
  | nil => rfl
  | cons i is ih =>
    obtain ⟨hi, hne⟩ := hs i List.mem_cons_self
    rw [List.map_cons, List.flatMap_cons, decode, decodeOp_words hi hne]
    exact congrArg (Option.map (i :: ·)) (ih fun j hj ↦ hs j (List.mem_cons_of_mem _ hj))

theorem shaped_of_decode {ops : List TCGOpcode} {args : List (TCGArg h)} {is : List (Instr h)}
    (hdec : decode ops args = some is) :
    ops = is.map Instr.opcode ∧ args = is.flatMap Instr.words ∧ ∀ i ∈ is, i.Shaped := by
  induction ops generalizing args is with
  | nil =>
    cases args with
    | nil =>
      cases hdec
      simp
    | cons arg args => cases hdec
  | cons op ops ih =>
    rw [decode] at hdec
    split at hdec
    · cases hdec
    · rename_i i rest hop
      obtain ⟨is', hrest, rfl⟩ := Option.map_eq_some_iff.mp hdec
      obtain ⟨rfl, hi, rfl⟩ := shaped_of_decodeOp hop
      obtain ⟨rfl, rfl, hall⟩ := ih hrest
      exact ⟨rfl, rfl, List.forall_mem_cons.mpr ⟨hi, hall⟩⟩

end IDeviceEmulator.Tcg
