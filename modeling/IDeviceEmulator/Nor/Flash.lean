import IDeviceEmulator.Library.Machine

namespace IDeviceEmulator.Nor

open Machine

abbrev Byte := BitVec 8

abbrev Word := BitVec 32

/-- The part of `pflash_t` behind the SPI controller. -/
structure Flash where
  chipLen : Word
  storage : Vector Byte chipLen.toNat
  ident : Vector (BitVec 16) 3
  cmd : Byte := 0
  rxLen : Word := 0
  wordRx : Word := 0

inductive Fault
  | identRange
  | storageRange
  | txRange
  | nullDeref
deriving DecidableEq

section Commands

variable (f : Flash)

def cmdSet (cmd : Vector Word 4) : Flash :=
  let f := { f with cmd := (cmd.get 0).setWidth 8 }
  match f.cmd.toNat with
  | 0x03 => { f with wordRx := cmd.get 1 <<< 16 ||| cmd.get 2 <<< 8 ||| cmd.get 3 }
  | _ => f

def setRxlen (rxLen : Word) : Flash := { f with rxLen }

def cmdLen : Flash × Word :=
  match f.cmd.toNat with
  | 0x9f => ({ f with rxLen := 3 - f.wordRx }, 3 - f.wordRx)
  | 0x00 => (f, 0)
  | 0x05 => (f, 1)
  | 0x03 => (f, if 0x1f ≤ f.rxLen then 0x1f else f.rxLen)
  | _ => (f, 0)

def cmdParse : Except Fault (Flash × Word) :=
  match f.cmd.toNat with
  | 0x00 => .ok ({ f with cmd := 0, wordRx := 0 }, 0)
  | 0x05 => .ok (f, 0)
  | 0x9f =>
    match f.ident[f.wordRx.toNat]? with
    | none => .error .identRange
    | some id => .ok ({ f with wordRx := f.wordRx + 1 }, id.setWidth 32)
  | 0x03 =>
    if f.rxLen = 0 then .ok (f, 0)
    else
      match f.storage[f.wordRx.toNat]? with
      | none => .error .storageRange
      | some b => .ok ({ f with rxLen := f.rxLen - 1, wordRx := f.wordRx + 1 }, b.setWidth 32)
  | _ => .ok ({ f with cmd := 0, wordRx := 0 }, 0)

end Commands

/-- The commands of the SPI interface. Every other opcode is unknown to it. -/
inductive Command
  | read (addr : BitVec 24) (length : Word)
  | rdsr
  | reset
  | jedecId
  | unknown (opcode : { c : Byte // c ∉ [0x00, 0x03, 0x05, 0x9f] })
deriving DecidableEq

namespace Command

def opcode : Command → Byte
  | read _ _ => 0x03
  | rdsr => 0x05
  | reset => 0x00
  | jedecId => 0x9f
  | unknown c => c

def words : Command → Vector Word 4
  | read addr _ => #v[0x03, (addr >>> 16).setWidth 32, (addr >>> 8 &&& 0xff).setWidth 32, (addr &&& 0xff).setWidth 32]
  | c => #v[c.opcode.setWidth 32, 0, 0, 0]

def issue (f : Flash) (c : Command) : Flash :=
  match c with
  | read _ length => setRxlen (cmdSet f c.words) length
  | _ => cmdSet f c.words

end Command

theorem address_words (addr : BitVec 24) :
    (addr >>> 16).setWidth 32 <<< 16 ||| (addr >>> 8 &&& 0xff).setWidth 32 <<< 8 |||
      (addr &&& 0xff).setWidth 32 = addr.setWidth 32 := by
  have hand (n : Nat) : n &&& (255 : BitVec 24).toNat = n % 256 := Nat.and_two_pow_sub_one_eq_mod n 8
  have hlt := addr.isLt
  have hhigh : (addr.toNat / 65536 % 4294967296) <<< 16 % 4294967296 = (addr.toNat / 65536) <<< 16 := by
    simp only [Nat.shiftLeft_eq]
    omega
  have hmid : (addr.toNat / 256 % 256 % 4294967296) <<< 8 % 4294967296 = (addr.toNat / 256 % 256) <<< 8 := by
    simp only [Nat.shiftLeft_eq]
    omega
  have hlow : addr.toNat % 256 % 4294967296 = addr.toNat % 256 := by omega
  apply BitVec.eq_of_toNat_eq
  simp only [BitVec.toNat_or, BitVec.toNat_shiftLeft, BitVec.toNat_setWidth, BitVec.toNat_ushiftRight,
    BitVec.toNat_and, Nat.shiftRight_eq_div_pow, Nat.reducePow, hand]
  rw [hhigh, hmid, hlow, Nat.or_assoc, ← Nat.shiftLeft_add_eq_or_of_lt (i := 8) (by omega),
    ← Nat.shiftLeft_add_eq_or_of_lt (i := 16)]
  · simp only [Nat.shiftLeft_eq]
    omega
  · simp only [Nat.shiftLeft_eq]
    omega

section Parses

variable {f : Flash}

theorem issue_read (addr : BitVec 24) (length : Word) :
    (Command.read addr length).issue f =
      { f with cmd := 0x03, rxLen := length, wordRx := addr.setWidth 32 } := by
  rw [← address_words addr]
  rfl

theorem issue_other {c : Command} (h : ∀ addr length, c ≠ .read addr length) :
    c.issue f = { f with cmd := c.opcode } := by
  cases c with
  | read addr length => exact absurd rfl (h addr length)
  | unknown c =>
    have hread : c.val.toNat ≠ 3 := by
      intro heq
      apply c.property
      have hc : c.val = 3 := BitVec.eq_of_toNat_eq heq
      simp [hc]
    have hopcode : (Command.unknown c).words.get 0 = c.val.setWidth 32 := rfl
    simp [Command.issue, Command.opcode, cmdSet, hopcode]
  | rdsr => rfl
  | reset => rfl
  | jedecId => rfl

theorem cmdParse_read_zero (hcmd : f.cmd = 0x03) (hlen : f.rxLen = 0) : cmdParse f = .ok (f, 0) := by
  have h : f.cmd.toNat = 0x03 := by rw [hcmd]; rfl
  simp only [cmdParse, h, hlen, if_true]

theorem cmdParse_read {b : Byte} (hcmd : f.cmd = 0x03) (hlen : f.rxLen ≠ 0)
    (hb : f.storage[f.wordRx.toNat]? = some b) :
    cmdParse f = .ok ({ f with rxLen := f.rxLen - 1, wordRx := f.wordRx + 1 }, b.setWidth 32) := by
  have h : f.cmd.toNat = 0x03 := by rw [hcmd]; rfl
  simp only [cmdParse, h, hlen, if_false, hb]

theorem cmdParse_rdsr (hcmd : f.cmd = 0x05) : cmdParse f = .ok (f, 0) := by
  have h : f.cmd.toNat = 0x05 := by rw [hcmd]; rfl
  simp only [cmdParse, h]

theorem cmdParse_jedecId {id : BitVec 16} (hcmd : f.cmd = 0x9f) (hid : f.ident[f.wordRx.toNat]? = some id) :
    cmdParse f = .ok ({ f with wordRx := f.wordRx + 1 }, id.setWidth 32) := by
  have h : f.cmd.toNat = 0x9f := by rw [hcmd]; rfl
  simp only [cmdParse, h, hid]

theorem cmdParse_unknown (h : f.cmd ∉ [0x03, 0x05, 0x9f]) :
    cmdParse f = .ok ({ f with cmd := 0, wordRx := 0 }, 0) := by
  have hne (c : Byte) (hc : c ∈ [0x03, 0x05, 0x9f]) : f.cmd.toNat ≠ c.toNat := by
    intro heq
    apply h
    rw [BitVec.eq_of_toNat_eq heq]
    exact hc
  have h₃ := hne 0x03 (by simp)
  have h₅ := hne 0x05 (by simp)
  have h₉ := hne 0x9f (by simp)
  unfold cmdParse
  split
  all_goals first | rfl | contradiction

theorem cmdLen_jedecId (hcmd : f.cmd = 0x9f) : cmdLen f = ({ f with rxLen := 3 - f.wordRx }, 3 - f.wordRx) := by
  have h : f.cmd.toNat = 0x9f := by rw [hcmd]; rfl
  simp only [cmdLen, h]

theorem cmdLen_other (hcmd : f.cmd ≠ 0x9f) : (cmdLen f).1 = f := by
  have hne : f.cmd.toNat ≠ (0x9f : Byte).toNat := fun heq ↦ hcmd (BitVec.eq_of_toNat_eq heq)
  unfold cmdLen
  split
  all_goals first | rfl | contradiction

end Parses

inductive Op
  | issue (c : Command)
  | len
  | parse

/-- The chip with the last command issued and the number of parses that followed it. -/
structure Session where
  flash : Flash
  command : Option Command := none
  parses : Nat := 0

def step (s : Session) : Op → Except Fault (Session × Word)
  | .issue c => .ok (⟨c.issue s.flash, some c, 0⟩, 0)
  | .len => .ok ({ s with flash := (cmdLen s.flash).1 }, (cmdLen s.flash).2)
  | .parse => (cmdParse s.flash).map fun r ↦ ({ s with flash := r.1, parses := s.parses + 1 }, r.2)

/-- What is expected of the answer `v` while the chip identifies itself. -/
def Identifies (s : Session) (v : Word) : Op → Prop
  | .issue _ => True
  | .len => v = BitVec.ofNat 32 (3 - s.parses)
  | .parse => ∀ id, s.flash.ident[s.parses]? = some id → v = id.setWidth 32

/-- A call that stays in bounds, and returns the identification if that was asked for. -/
def Answers (s : Session) (op : Op) : Prop :=
  ∃ t v, step s op = .ok (t, v) ∧ (s.command = some .jedecId → Identifies s v op)

/-- The identification starts from a clear cursor and is not read past its end. A `READ`
ends inside the chip. -/
def Clean (s : Session) : Op → Prop
  | .issue (.read addr length) => addr.toNat + length.toNat ≤ s.flash.chipLen.toNat
  | .issue .jedecId => s.flash.wordRx = 0
  | .parse => s.command = some .jedecId → s.parses < 3
  | _ => True

instance (s : Session) : DecidablePred (Clean s)
  | .issue (.read addr length) => inferInstanceAs (Decidable (addr.toNat + length.toNat ≤ s.flash.chipLen.toNat))
  | .issue .jedecId => inferInstanceAs (Decidable (s.flash.wordRx = 0))
  | .issue .rdsr => isTrue trivial
  | .issue .reset => isTrue trivial
  | .issue (.unknown _) => isTrue trivial
  | .len => isTrue trivial
  | .parse => inferInstanceAs (Decidable (s.command = some .jedecId → s.parses < 3))

section Runs

/-- Where the shared cursor and the remaining length stand, by the command that runs. -/
def Aligned (s : Session) : Prop :=
  match s.command with
  | none => s.flash.cmd = 0
  | some (.read _ _) => s.flash.cmd = 0x03 ∧ s.flash.wordRx.toNat + s.flash.rxLen.toNat ≤ s.flash.chipLen.toNat
  | some .rdsr => s.flash.cmd = 0x05
  | some .reset => s.flash.cmd = 0
  | some .jedecId => s.flash.cmd = 0x9f ∧ s.flash.wordRx = BitVec.ofNat 32 s.parses ∧ s.parses ≤ 3
  | some (.unknown _) => s.flash.cmd ∉ [0x03, 0x05, 0x9f]

theorem aligned_issue {s : Session} {c : Command} (h : Clean s (.issue c)) :
    Aligned ⟨c.issue s.flash, some c, 0⟩ := by
  cases c with
  | read addr length =>
    have haddr : (addr.setWidth 32).toNat = addr.toNat := by
      have hlt := addr.isLt
      rw [BitVec.toNat_setWidth]
      omega
    rw [issue_read]
    refine ⟨rfl, ?_⟩
    dsimp only
    rw [haddr]
    exact h
  | unknown c =>
    rw [issue_other (by simp)]
    intro hmem
    exact c.property (List.mem_cons_of_mem _ hmem)
  | rdsr => rfl
  | reset => rfl
  | jedecId => exact ⟨rfl, h, Nat.zero_le 3⟩

theorem aligned_len {s : Session} (hs : Aligned s) :
    Aligned { s with flash := (cmdLen s.flash).1 } ∧
      (s.command = some .jedecId → Identifies s (cmdLen s.flash).2 .len) := by
  by_cases hcmd : s.flash.cmd = 0x9f
  · obtain ⟨f, command, parses⟩ := s
    rw [cmdLen_jedecId hcmd]
    cases command with
    | none => exact ⟨hs, by simp⟩
    | some c =>
      cases c with
      | read addr length => cases hcmd.symm.trans hs.1
      | rdsr => exact ⟨hs, by simp⟩
      | reset => exact ⟨hs, by simp⟩
      | unknown c => exact ⟨hs, by simp⟩
      | jedecId =>
        refine ⟨hs, fun _ ↦ ?_⟩
        obtain ⟨-, hword, hle⟩ := hs
        dsimp only at hword hle
        have hthree : (3 : Word).toNat = 3 := rfl
        apply BitVec.eq_of_toNat_eq
        simp only [hword, BitVec.toNat_sub, BitVec.toNat_ofNat, hthree]
        omega
  · have hcommand : s.command ≠ some .jedecId := by
      intro heq
      simp only [Aligned, heq] at hs
      exact hcmd hs.1
    rw [cmdLen_other hcmd]
    exact ⟨hs, fun heq ↦ absurd heq hcommand⟩

theorem parse_of_aligned {s : Session} (hs : Aligned s) (h : Clean s .parse) :
    ∃ f v, cmdParse s.flash = .ok (f, v) ∧ Aligned { s with flash := f, parses := s.parses + 1 } ∧
      (s.command = some .jedecId → Identifies s v .parse) := by
  obtain ⟨f, command, parses⟩ := s
  cases command with
  | none =>
    have hcmd : f.cmd = 0 := hs
    exact ⟨_, _, cmdParse_unknown (by rw [hcmd]; decide), rfl, by simp⟩
  | some c =>
    cases c with
    | read addr length =>
      obtain ⟨hcmd, hfits⟩ := hs
      dsimp only at hcmd hfits
      by_cases hlen : f.rxLen = 0
      · exact ⟨f, 0, cmdParse_read_zero hcmd hlen, ⟨hcmd, hfits⟩, by simp⟩
      · have hpos : f.rxLen.toNat ≠ 0 := fun heq ↦ hlen (BitVec.eq_of_toNat_eq heq)
        have hlt : f.wordRx.toNat < f.chipLen.toNat := by omega
        refine ⟨_, _, cmdParse_read hcmd hlen (Vector.getElem?_eq_getElem hlt), ⟨hcmd, ?_⟩, by simp⟩
        have hchip := f.chipLen.isLt
        have hone : (1 : Word).toNat = 1 := rfl
        simp only [BitVec.toNat_add, BitVec.toNat_sub, hone]
        omega
    | rdsr => exact ⟨f, 0, cmdParse_rdsr hs, hs, by simp⟩
    | reset =>
      have hcmd : f.cmd = 0 := hs
      exact ⟨_, _, cmdParse_unknown (by rw [hcmd]; decide), rfl, by simp⟩
    | jedecId =>
      obtain ⟨hcmd, hword, -⟩ := hs
      have hlt : parses < 3 := h rfl
      dsimp only at hcmd hword
      have hcursor : f.wordRx.toNat = parses := by
        rw [hword, BitVec.toNat_ofNat]
        omega
      have hid : f.ident[f.wordRx.toNat]? = some (f.ident[parses]) := by
        rw [hcursor]
        exact Vector.getElem?_eq_getElem hlt
      refine ⟨_, _, cmdParse_jedecId hcmd hid, ⟨hcmd, ?_, hlt⟩, fun _ id hid' ↦ ?_⟩
      · dsimp only
        rw [hword, BitVec.ofNat_add]
        rfl
      · rw [← hcursor] at hid'
        cases hid.symm.trans hid'
        rfl
    | unknown c => exact ⟨_, _, cmdParse_unknown hs, by simp [Aligned], by simp⟩

theorem aligned_step {s t : Session} {op : Op} {v : Word} (hs : Aligned s) (hop : Clean s op)
    (h : step s op = .ok (t, v)) : Aligned t := by
  cases op with
  | issue c =>
    cases h
    exact aligned_issue hop
  | len =>
    cases h
    exact (aligned_len hs).1
  | parse =>
    obtain ⟨f, u, hparse, ht, -⟩ := parse_of_aligned hs hop
    simp only [step, hparse] at h
    cases h
    exact ht

theorem answers_of_aligned {s : Session} {op : Op} (hs : Aligned s) (hop : Clean s op) : Answers s op := by
  cases op with
  | issue c => exact ⟨_, _, rfl, fun _ ↦ trivial⟩
  | len => exact ⟨_, _, rfl, (aligned_len hs).2⟩
  | parse =>
    obtain ⟨f, v, hparse, -, hid⟩ := parse_of_aligned hs hop
    refine ⟨{ s with flash := f, parses := s.parses + 1 }, v, ?_, hid⟩
    simp only [step, hparse]
    rfl

/-- From power-on, a run of commands whose identifications and reads are clean stays in
bounds and identifies the chip. -/
theorem commands_answer {f : Flash} (hf : f.cmd = 0) (ops : List Op) (h : Attempts step Clean ⟨f, none, 0⟩ ops) :
    Attempts step Answers ⟨f, none, 0⟩ ops := by
  have haligned : Throughout step Aligned ⟨f, none, 0⟩ ops :=
    throughout_of_attempts hf (fun _ _ _ _ _ hs hop ht ↦ aligned_step hs hop ht) h
  exact attempts_mono haligned (fun _ _ _ hs hop ↦ answers_of_aligned hs hop) h

def sampleFlash : Flash where
  chipLen := 4
  storage := #v[0x10, 0x11, 0x12, 0x13]
  ident := #v[0x1f, 0x45, 0x02]

theorem commands_answer_reset : Attempts step Answers ⟨sampleFlash, none, 0⟩
    [.issue (.read 1 2), .len, .parse, .parse, .parse, .issue .reset, .parse,
      .issue .jedecId, .len, .parse, .parse, .parse, .len] := by
  refine commands_answer rfl _ ?_
  decide +kernel

/-- The cursor of the `READ` is still there when the identification is asked for. -/
theorem commands_answer_fails :
    ¬ Attempts step Answers ⟨sampleFlash, none, 0⟩ [.issue (.read 0 1), .parse, .issue .jedecId, .parse] := by
  intro h
  obtain ⟨s, hr, hs⟩ : ∃ s, Run step ⟨sampleFlash, none, 0⟩ [.issue (.read 0 1), .parse, .issue .jedecId] s ∧
      (s.command = some .jedecId ∧ s.flash.ident[s.parses]? = some 0x1f ∧
        ((step s .parse).toOption.map Prod.snd) = some 0x45) := by
    refine exists_run_of_exec ?_
    decide +kernel
  obtain ⟨hcommand, hid, hvalue⟩ := hs
  obtain ⟨t, v, hstep, hanswer⟩ := h _ .parse s (List.prefix_refl _) hr
  have hv := hanswer hcommand 0x1f hid
  rw [hstep] at hvalue
  cases hv.symm.trans (Option.some.inj hvalue)

end Runs

end IDeviceEmulator.Nor
