import IDeviceEmulator.Cdma.Aes

namespace IDeviceEmulator.Aes

open Memory Cdma

/-- The registers that `aes_write` tells apart. -/
inductive Reg
  | go
  | keylen
  | insize
  | inaddr
  | outsize
  | outaddr
  | type
  | key (i : Fin 8)
  | iv (i : Fin 4)
  | unmapped
deriving DecidableEq

def regAt (offset : Word) : Reg :=
  if offset = 0x4 then .go
  else if offset = 0x14 then .keylen
  else if offset = 0x20 then .inaddr
  else if offset = 0x18 then .insize
  else if offset = 0x24 then .outsize
  else if offset = 0x28 then .outaddr
  else if offset = 0x6c then .type
  else if h : 0x4c ≤ offset.toNat ∧ offset.toNat ≤ 0x6b then .key ⟨(offset.toNat - 0x4c) / 4, by omega⟩
  else if h : 0x74 ≤ offset.toNat ∧ offset.toNat ≤ 0x83 then .iv ⟨(offset.toNat - 0x74) / 4, by omega⟩
  else .unmapped

def aesCustom : Word := 0

def aesGid : Word := 1

def aesUid : Word := 2

/-- `aes_s` without its key schedule, and the static counter of `aes_write`. -/
structure Registers where
  ivec : Vector Word 4 := Vector.replicate 4 0
  insize : Word := 0
  inaddr : Word := 0
  outsize : Word := 0
  outaddr : Word := 0
  keytype : Word := 0
  status : Word := 0
  operation : Word := 0
  keylen : Word := 0
  custkey : Vector Word 8 := Vector.replicate 8 0
  keylenop : BitVec 8 := 0
deriving DecidableEq

namespace Registers

/-- A write to a register other than `AES_GO`. -/
def write (r : Registers) (value : Word) : Reg → Registers
  | .keylen =>
    { r with
      operation := if r.keylenop = 1 then value else r.operation
      keylenop := r.keylenop + 1
      keylen := value }
  | .inaddr => { r with inaddr := value }
  | .insize => { r with insize := value }
  | .outsize => { r with outsize := value }
  | .outaddr => { r with outaddr := value }
  | .type => { r with keytype := value }
  | .key i => { r with custkey := r.custkey.set i (r.custkey[i] ||| value) }
  | .iv i => { r with ivec := r.ivec.set i (r.ivec[i] ||| value) }
  | .go | .unmapped => r

/-- The end of an operation that was carried out. -/
def finish (r : Registers) : Registers :=
  { r with
    custkey := Vector.replicate 8 0
    ivec := Vector.replicate 4 0
    keylenop := 0
    outsize := r.insize
    status := 0xf }

/-- The size does not fit `inbuf`. A negative length reads nothing, so that the key type may still
reject the operation. -/
def Overflows (r : Registers) : Prop := 0x1000 < r.insize.toNat ∧ (r.insize.msb = false ∨ r.keytype ≠ aesGid)

instance (r : Registers) : Decidable r.Overflows := inferInstanceAs (Decidable (_ ∧ _))

end Registers

structure System where
  regs : Registers
  decryptKey : KeySchedule
  mem : Mem 32

/-- The AES routines are those of the CDMA block. -/
abbrev Routines := Host Unit KeySchedule

inductive Fault
  | inbufOverflow
  | inbufOverread
deriving DecidableEq

variable (host : Routines)

def schedule (w : System) : KeySchedule :=
  if w.regs.keytype = aesUid then host.setDecryptKey keyUid 128 w.decryptKey
  else if w.regs.keytype = aesCustom then
    host.setDecryptKey (w.regs.custkey.toList.flatMap wordBytes) 256 w.decryptKey
  else w.decryptKey

/-- From the choice of the key to the end of the `AES_GO` case. -/
def crypt (w : System) : System :=
  let inbuf := physRead w.mem (w.regs.inaddr - 0x80000000) w.regs.insize
  let decryptKey := schedule host w
  let buf := (host.cbcEncrypt inbuf decryptKey (w.regs.ivec.toList.flatMap wordBytes) w.regs.operation).1
  { regs := w.regs.finish
    decryptKey
    mem := physWrite w.mem (w.regs.outaddr - 0x80000000) (fun i ↦ buf.getD i 0) w.regs.insize }

/-- The `AES_GO` case of `aes_write`. -/
def go (w : System) : Except Fault System :=
  if w.regs.insize.msb = false ∧ 0x1000 < w.regs.insize.toNat then .error .inbufOverflow
  else if w.regs.keytype = aesGid then .ok w
  else if 0x1000 < w.regs.insize.toNat then .error .inbufOverread
  else .ok (crypt host w)

/-- `aes_write`. -/
def aesWrite (w : System) (offset value : Word) : Except Fault System :=
  match regAt offset with
  | .go => go host w
  | reg => .ok { w with regs := w.regs.write value reg }

/-- What the guest does with the engine and with its own memory. -/
inductive Event
  | write (offset value : Word)
  | store (addr : Word) (value : Byte)

def Event.apply (w : System) : Event → Except Fault System
  | write offset value => aesWrite host w offset value
  | store addr value => .ok { w with mem := Function.update w.mem addr value }

def run (w : System) (events : List Event) : Except Fault System := events.foldlM (Event.apply host) w

/-- `aes_init`. -/
def aesInit (mem : Mem 32) : System := ⟨{}, List.replicate 244 0, mem⟩

/-- The registers do not depend on the AES routines or on the memory. -/
def Registers.step (r : Registers) : Event → Registers
  | .write offset value =>
    match regAt offset with
    | .go => if r.keytype = aesGid then r else r.finish
    | reg => r.write value reg
  | .store _ _ => r

def registers (events : List Event) : Registers := events.foldl Registers.step {}

def Event.reg : Event → Reg
  | write offset _ => regAt offset
  | store _ _ => .unmapped

/-- Every operation that the events start has room in `inbuf`. -/
def Fits (events : List Event) : Prop :=
  ∀ before e after, events = before ++ e :: after → e.reg = .go → ¬ (registers before).Overflows

theorem go_of_overflows {w : System} (h : w.regs.Overflows) (v : System) : go host w ≠ .ok v := by
  obtain ⟨hsize, hkind⟩ := h
  unfold go
  rcases hkind with hmsb | hgid
  · rw [if_pos ⟨hmsb, hsize⟩]
    intro h
    cases h
  · rw [if_neg hgid, if_pos hsize]
    split_ifs
    · intro h
      cases h
    · intro h
      cases h

theorem go_of_not_overflows {w : System} (h : ¬ w.regs.Overflows) :
    go host w = .ok (if w.regs.keytype = aesGid then w else crypt host w) := by
  have hsize : ¬ (w.regs.insize.msb = false ∧ 0x1000 < w.regs.insize.toNat) := fun hs ↦ h ⟨hs.2, .inl hs.1⟩
  unfold go
  rw [if_neg hsize]
  split_ifs with hgid hlong
  · rfl
  · exact absurd ⟨hlong, .inr hgid⟩ h
  · rfl

theorem go_regs {w v : System} (h : go host w = .ok v) :
    v.regs = if w.regs.keytype = aesGid then w.regs else w.regs.finish := by
  by_cases hover : w.regs.Overflows
  · exact absurd h (go_of_overflows host hover v)
  · rw [go_of_not_overflows host hover] at h
    cases h
    split_ifs
    · rfl
    · rfl

theorem aesWrite_go (w : System) {offset : Word} (hgo : regAt offset = .go) (value : Word) :
    aesWrite host w offset value = go host w := by
  rw [aesWrite, hgo]

theorem aesWrite_reg (w : System) {offset : Word} (hgo : regAt offset ≠ .go) (value : Word) :
    aesWrite host w offset value = .ok { w with regs := w.regs.write value (regAt offset) } := by
  unfold aesWrite
  split
  · exact absurd ‹_› hgo
  · rfl

theorem step_go (r : Registers) {offset : Word} (hgo : regAt offset = .go) (value : Word) :
    r.step (.write offset value) = if r.keytype = aesGid then r else r.finish := by
  simp only [Registers.step, hgo]

theorem step_reg (r : Registers) {offset : Word} (hgo : regAt offset ≠ .go) (value : Word) :
    r.step (.write offset value) = r.write value (regAt offset) := by
  simp only [Registers.step]

/-- An event goes through exactly when it starts no operation too large for `inbuf`. -/
theorem apply_ok_iff (w : System) (e : Event) :
    (∃ v, e.apply host w = .ok v) ↔ (e.reg = .go → ¬ w.regs.Overflows) := by
  cases e with
  | store addr value => exact ⟨fun _ hgo ↦ (by cases hgo), fun _ ↦ ⟨_, rfl⟩⟩
  | write offset value =>
    by_cases hgo : regAt offset = .go
    · rw [Event.apply, aesWrite_go host w hgo]
      constructor
      · rintro ⟨v, hv⟩ - hover
        exact go_of_overflows host hover v hv
      · intro h
        exact ⟨_, go_of_not_overflows host (h hgo)⟩
    · rw [Event.apply, aesWrite_reg host w hgo]
      exact ⟨fun _ h ↦ absurd h hgo, fun _ ↦ ⟨_, rfl⟩⟩

theorem apply_regs {w v : System} {e : Event} (h : e.apply host w = .ok v) : v.regs = w.regs.step e := by
  cases e with
  | store addr value =>
    cases h
    rfl
  | write offset value =>
    rw [Event.apply] at h
    by_cases hgo : regAt offset = .go
    · rw [aesWrite_go host w hgo] at h
      rw [step_go _ hgo]
      exact go_regs host h
    · rw [aesWrite_reg host w hgo] at h
      cases h
      rw [step_reg _ hgo]

theorem run_concat (w v : System) (events : List Event) (e : Event) :
    run host w (events ++ [e]) = .ok v ↔ ∃ u, run host w events = .ok u ∧ e.apply host u = .ok v := by
  rw [run, List.foldlM_append]
  simp only [List.foldlM_cons, List.foldlM_nil, bind_pure]
  rw [← run]
  cases run host w events with
  | error f => simp [bind, Except.bind]
  | ok u => simp [bind, Except.bind]

theorem registers_concat (events : List Event) (e : Event) :
    registers (events ++ [e]) = (registers events).step e := by
  rw [registers, List.foldl_append]
  rfl

theorem fits_nil : Fits [] := by
  intro before e after h
  simp at h

theorem fits_concat (events : List Event) (e : Event) :
    Fits (events ++ [e]) ↔ Fits events ∧ (e.reg = .go → ¬ (registers events).Overflows) := by
  constructor
  · intro h
    refine ⟨fun before e' after hsplit ↦ ?_, h events e [] rfl⟩
    exact h before e' (after ++ [e]) (by rw [hsplit]; simp)
  · rintro ⟨hfits, hlast⟩ before e' after hsplit
    rcases List.eq_nil_or_concat after with rfl | ⟨rest, last, rfl⟩
    · obtain ⟨rfl, hsingle⟩ := List.append_inj' hsplit rfl
      cases hsingle
      exact hlast
    · rw [List.concat_eq_append, ← List.cons_append, ← List.append_assoc] at hsplit
      exact hfits before e' rest (List.append_inj' hsplit rfl).1

theorem run_regs {mem : Mem 32} {events : List Event} {w : System} (h : run host (aesInit mem) events = .ok w) :
    w.regs = registers events := by
  induction events using List.reverseRecOn generalizing w with
  | nil =>
    cases h
    rfl
  | append_singleton events e ih =>
    obtain ⟨v, hv, hw⟩ := (run_concat host _ _ _ _).mp h
    rw [apply_regs host hw, ih hv, registers_concat]

theorem run_ok_iff (mem : Mem 32) (events : List Event) :
    (∃ w, run host (aesInit mem) events = .ok w) ↔ Fits events := by
  induction events using List.reverseRecOn with
  | nil => exact ⟨fun _ ↦ fits_nil, fun _ ↦ ⟨_, rfl⟩⟩
  | append_singleton events e ih =>
    rw [fits_concat]
    constructor
    · rintro ⟨w, hw⟩
      obtain ⟨v, hv, hlast⟩ := (run_concat host _ _ _ _).mp hw
      refine ⟨ih.mp ⟨v, hv⟩, ?_⟩
      rw [← run_regs host hv]
      exact (apply_ok_iff host v e).mp ⟨w, hlast⟩
    · rintro ⟨hfits, hlast⟩
      obtain ⟨v, hv⟩ := ih.mpr hfits
      rw [← run_regs host hv] at hlast
      obtain ⟨w, hw⟩ := (apply_ok_iff host v e).mpr hlast
      exact ⟨w, (run_concat host _ _ _ _).mpr ⟨v, hv, hw⟩⟩

end IDeviceEmulator.Aes
