import IDeviceEmulator.Cdma.Engine

namespace IDeviceEmulator.Sha1

open Memory Cdma

abbrev Digest := Vector Byte 20

/-- `sha1_status_s`. -/
structure Status where
  config : Word := 0
  reset : Word := 0
  hresult : Word := 0
  insize : Word := 0
  unkstat : Word := 0
  hashout : Digest := Vector.replicate 20 0
deriving DecidableEq

def shaConfig : Nat := 0x0

def shaReset : Nat := 0x4

def shaUnkstat : Nat := 0x7c

def shaHresult : Nat := 0x84

def shaInsize : Nat := 0x8c

/-- What the engine is built with: the hash function, and whether `qemu_mallocz` takes a size of
zero. -/
structure Build where
  sha1 : List Byte → Digest
  allowZeroMalloc : Bool

inductive Fault
  | zeroMalloc
  /-- A read past the end of `hashout`. -/
  | overread
deriving DecidableEq

/-- Four bytes from a place in the digest, the first one lowest. -/
def wordAt (hashout : Digest) (i : Nat) : Word :=
  hashout.toList.getD (i + 3) 0 ++ hashout.toList.getD (i + 2) 0 ++ hashout.toList.getD (i + 1) 0 ++
    hashout.toList.getD i 0

/-- `sha1_read`. -/
def read (s : Status) (offset : Nat) : Except Fault Word :=
  if offset = shaConfig then .ok s.config
  else if offset = shaReset then .ok 0
  else if offset = shaHresult then .ok s.hresult
  else if offset = shaInsize then .ok s.insize
  else if 0x20 ≤ offset ∧ offset ≤ 0x34 then
    if offset - 0x20 + 4 ≤ 20 then .ok (wordAt s.hashout (offset - 0x20)) else .error .overread
  else .ok 0

section Writes

variable (b : Build) (mem : Mem 32) (s : Status) (value : Word)

/-- The size is a register of the guest, and grows with every hash. The buffer is cleared, and a
negative length reads nothing into it. -/
def hash : Except Fault Status :=
  if s.hresult = 0 ∨ s.insize = 0 then .ok s
  else
    let s := { s with insize := s.insize + 0x20 }
    if s.insize = 0 ∧ b.allowZeroMalloc = false then .error .zeroMalloc
    else .ok { s with hashout := b.sha1 (physRead mem s.hresult s.insize) }

def writeConfig : Except Fault Status :=
  if value &&& 0x2 ≠ 0 ∧ s.config &&& 0x8 ≠ 0 then hash b mem s else .ok { s with config := value }

/-- `sha1_write`. -/
def write (offset : Nat) : Except Fault Status :=
  if offset = shaConfig then writeConfig b mem s value
  else if offset = shaReset then .ok (if value &&& 1 ≠ 0 then {} else s)
  else if offset = shaHresult then .ok { s with hresult := value }
  else if offset = shaInsize then .ok { s with insize := value }
  else if offset = shaUnkstat then .ok { s with unkstat := value }
  else .ok s

end Writes

/-- Writes of the configuration register, one after the other. -/
def triggers (b : Build) (mem : Mem 32) (s : Status) (values : List Word) : Except Fault Status :=
  values.foldlM (fun s value ↦ write b mem s value shaConfig) s

/-- Every write hashes: it has the bit of a trigger, and the engine is enabled. -/
structure Triggers (s : Status) (values : List Word) : Prop where
  enabled : s.config &&& 0x8 ≠ 0
  all : ∀ value ∈ values, value &&& 0x2 ≠ 0

section Growth

variable {b : Build} {mem : Mem 32} {s : Status} {values : List Word}

theorem Triggers.tail {value : Word} (h : Triggers s (value :: values)) {t : Status} (hconfig : t.config = s.config) :
    Triggers t values :=
  ⟨hconfig ▸ h.enabled, fun value hvalue ↦ h.all value (List.mem_cons_of_mem _ hvalue)⟩

theorem triggers_cons {value : Word} (h : Triggers s (value :: values)) :
    triggers b mem s (value :: values) = hash b mem s >>= fun t ↦ triggers b mem t values := by
  have hwrite : write b mem s value shaConfig = hash b mem s := by
    rw [write, if_pos rfl, writeConfig, if_pos ⟨h.all value List.mem_cons_self, h.enabled⟩]
  rw [triggers, List.foldlM_cons, hwrite]
  rfl

theorem triggers_single {value : Word} (h : Triggers s [value]) : triggers b mem s [value] = hash b mem s := by
  rw [triggers_cons h]
  cases hash b mem s <;> rfl

theorem hash_idle (h : s.hresult = 0 ∨ s.insize = 0) : hash b mem s = .ok s := if_pos h

theorem triggers_idle (h : s.hresult = 0 ∨ s.insize = 0) (htriggers : Triggers s values) :
    triggers b mem s values = .ok s := by
  induction values with
  | nil => rfl
  | cons value values ih =>
    rw [triggers_cons htriggers, hash_idle h]
    exact ih (htriggers.tail rfl)

theorem hash_active (hresult : s.hresult ≠ 0) (hinsize : s.insize ≠ 0) :
    hash b mem s =
      if s.insize + 0x20 = 0 ∧ b.allowZeroMalloc = false then .error .zeroMalloc
      else .ok { s with
        insize := s.insize + 0x20
        hashout := b.sha1 (physRead mem s.hresult (s.insize + 0x20)) } := by
  rw [hash, if_neg (not_or.mpr ⟨hresult, hinsize⟩)]

theorem hash_grown (hresult : s.hresult ≠ 0) (hinsize : s.insize ≠ 0) (hgrown : s.insize + 0x20 ≠ 0) :
    hash b mem s =
      .ok { s with
        insize := s.insize + 0x20
        hashout := b.sha1 (physRead mem s.hresult (s.insize + 0x20)) } := by
  rw [hash_active hresult hinsize]
  exact if_neg fun hzero ↦ hgrown hzero.1

theorem size_succ (insize : Word) (k : Nat) :
    insize + 0x20 + 0x20 * BitVec.ofNat 32 k = insize + 0x20 * BitVec.ofNat 32 (k + 1) := by
  rw [BitVec.ofNat_add, BitVec.mul_add, BitVec.add_assoc, BitVec.add_comm (0x20 * BitVec.ofNat 32 k)]
  rfl

/-- Every trigger hashes 32 bytes more than the one before, until the size wraps to zero. -/
theorem triggers_grow (hresult : s.hresult ≠ 0) {value : Word} (htriggers : Triggers s (value :: values))
    (hsizes : ∀ k ≤ values.length + 1, s.insize + 0x20 * BitVec.ofNat 32 k ≠ 0) :
    triggers b mem s (value :: values) =
      .ok { s with
        insize := s.insize + 0x20 * BitVec.ofNat 32 (values.length + 1)
        hashout := b.sha1 (physRead mem s.hresult (s.insize + 0x20 * BitVec.ofNat 32 (values.length + 1))) } := by
  induction values generalizing s value with
  | nil =>
    have hinsize : s.insize ≠ 0 := by simpa using hsizes 0 (by decide)
    have hgrown : s.insize + 0x20 ≠ 0 := by simpa using hsizes 1 (by decide)
    rw [triggers_cons htriggers, hash_grown hresult hinsize hgrown]
    rfl
  | cons next values ih =>
    have hinsize : s.insize ≠ 0 := by simpa using hsizes 0 (Nat.zero_le _)
    have hgrown : s.insize + 0x20 ≠ 0 := by simpa using hsizes 1 (by rw [List.length_cons]; omega)
    rw [triggers_cons htriggers, hash_grown hresult hinsize hgrown]
    refine (ih (s := { s with
      insize := s.insize + 0x20, hashout := b.sha1 (physRead mem s.hresult (s.insize + 0x20)) }) hresult
      (htriggers.tail rfl) fun k hk ↦ ?_).trans ?_
    · rw [size_succ]
      exact hsizes (k + 1) (by rw [List.length_cons]; omega)
    · rw [size_succ]
      rfl

end Growth

/-- Bytes of the guest memory. -/
def region (mem : Mem 32) (addr : Word) (len : Nat) : List Byte :=
  (List.range len).map fun i ↦ mem (addr + BitVec.ofNat 32 i)

/-- However often the hash is triggered, the guest reads the hash of one region of its memory. -/
def Repeatable (allowZeroMalloc : Bool) (hresult insize : Word) : Prop :=
  ∃ addr len, ∀ (sha1 : List Byte → Digest) (mem : Mem 32) (s : Status), s.hresult = hresult → s.insize = insize →
    ∀ values, values ≠ [] → Triggers s values → ∃ t, triggers ⟨sha1, allowZeroMalloc⟩ mem s values = .ok t ∧
      ∀ i < 5, read t (0x20 + 4 * i) = .ok (wordAt (sha1 (region mem addr len)) (4 * i))

section Repetition

variable {allowZeroMalloc : Bool} {hresult insize : Word}

theorem length_physRead (mem : Mem 32) (addr len : Word) : (physRead mem addr len).length = len.toNat := by
  unfold physRead
  split_ifs
  · exact List.length_replicate
  · rw [List.length_map, List.length_range]

theorem read_digest (s : Status) {i : Nat} (hi : i < 5) : read s (0x20 + 4 * i) = .ok (wordAt s.hashout (4 * i)) := by
  have hrange : 0x20 ≤ 0x20 + 4 * i ∧ 0x20 + 4 * i ≤ 0x34 := by omega
  have hinside : 0x20 + 4 * i - 0x20 + 4 ≤ 20 := by omega
  rw [read, if_neg (by rw [shaConfig]; omega), if_neg (by rw [shaReset]; omega), if_neg (by rw [shaHresult]; omega),
    if_neg (by rw [shaInsize]; omega), if_pos hrange, if_pos hinside, Nat.add_sub_cancel_left]

/-- A size that wraps to zero is hashed as nothing, and then not hashed again. -/
theorem repeatable_of_wraps (haddress : hresult ≠ 0) : Repeatable true hresult 0xffffffe0 := by
  refine ⟨0, 0, fun sha1 mem s hs hsize values hne htriggers ↦ ?_⟩
  cases values with
  | nil => exact absurd rfl hne
  | cons value values =>
    have hinsize : s.insize ≠ 0 := by
      rw [hsize]
      decide
    have hgrown : s.insize + 0x20 = 0 := by
      rw [hsize]
      decide
    have hhash : hash ⟨sha1, true⟩ mem s = .ok { s with insize := 0, hashout := sha1 [] } := by
      rw [hash_active (hs ▸ haddress) hinsize, hgrown, if_neg fun hall ↦ Bool.noConfusion hall.2]
      rfl
    refine ⟨{ s with insize := 0, hashout := sha1 [] }, ?_, fun i hi ↦ read_digest _ hi⟩
    rw [triggers_cons htriggers, hhash]
    exact triggers_idle (.inr rfl) (htriggers.tail rfl)

theorem hash_ok {b : Build} {mem : Mem 32} {s t : Status} (haddress : s.hresult ≠ 0) (hinsize : s.insize ≠ 0)
    (h : hash b mem s = .ok t) : t = { s with
      insize := s.insize + 0x20, hashout := b.sha1 (physRead mem s.hresult (s.insize + 0x20)) } := by
  rw [hash_active haddress hinsize] at h
  split_ifs at h
  exact (Except.ok.inj h).symm

theorem triggers_replicate {s : Status} (h : s.config = 8) (n : Nat) : Triggers s (List.replicate n 2) := by
  refine ⟨?_, fun value hvalue ↦ ?_⟩
  · rw [h]
    decide
  · rw [List.eq_of_mem_replicate hvalue]
    decide

/-- What the guest reads after two hashes that the hash function tells apart is not the same. -/
theorem wordAt_replicate_ne : wordAt (Vector.replicate 20 0) (4 * 0) ≠ wordAt (Vector.replicate 20 1) (4 * 0) := by
  decide

/-- A trigger that returns early leaves the digest of an earlier run. -/
theorem not_repeatable_of_idle (h : hresult = 0 ∨ insize = 0) : ¬Repeatable allowZeroMalloc hresult insize := by
  rintro ⟨addr, len, hall⟩
  have htriggers : Triggers { config := 8, hresult, insize, hashout := Vector.replicate 20 1 } (List.replicate 1 2) :=
    triggers_replicate rfl 1
  obtain ⟨t, ht, hread⟩ := hall (fun _ ↦ Vector.replicate 20 0) (fun _ ↦ 0) _ rfl rfl _ (by simp) htriggers
  rw [triggers_idle h htriggers] at ht
  have hword := hread 0 (by decide)
  rw [← Except.ok.inj ht, read_digest _ (by decide)] at hword
  exact wordAt_replicate_ne (Except.ok.inj hword).symm

/-- The first and the second trigger hash regions of different sizes. -/
theorem not_repeatable_of_grows (haddress : hresult ≠ 0) (hinsize : insize ≠ 0) (hgrown : insize + 0x20 ≠ 0) :
    ¬Repeatable allowZeroMalloc hresult insize := by
  rintro ⟨addr, len, hall⟩
  let sha1 (message : List Byte) : Digest :=
    if message.length = (insize + 0x20).toNat then Vector.replicate 20 0 else Vector.replicate 20 1
  let s₀ : Status := { config := 8, hresult, insize }
  let s₁ : Status := { s₀ with
    insize := insize + 0x20, hashout := sha1 (physRead (fun _ ↦ 0) hresult (insize + 0x20)) }
  have hfirst : hash ⟨sha1, allowZeroMalloc⟩ (fun _ ↦ 0) s₀ = .ok s₁ := hash_grown haddress hinsize hgrown
  have hone : Triggers s₀ (List.replicate 1 2) := triggers_replicate rfl 1
  have htwo : Triggers s₀ (List.replicate 2 2) := triggers_replicate rfl 2
  obtain ⟨t, ht, hread⟩ := hall sha1 (fun _ ↦ 0) s₀ rfl rfl _ (by simp) hone
  obtain ⟨u, hu, hread'⟩ := hall sha1 (fun _ ↦ 0) s₀ rfl rfl _ (by simp) htwo
  have hword := hread 0 (by decide)
  have hword' := hread' 0 (by decide)
  rw [read_digest _ (by decide)] at hword hword'
  have hdigest : t.hashout = Vector.replicate 20 0 := by
    rw [List.replicate_one, triggers_single hone, hfirst] at ht
    rw [← Except.ok.inj ht]
    exact if_pos (length_physRead _ _ _)
  have hdigest' : u.hashout = Vector.replicate 20 1 := by
    rw [List.replicate_succ, triggers_cons htwo, hfirst] at hu
    have hagain : hash ⟨sha1, allowZeroMalloc⟩ (fun _ ↦ 0) s₁ = .ok u :=
      (triggers_single (htwo.tail (t := s₁) rfl)).symm.trans hu
    rw [hash_ok haddress hgrown hagain]
    refine if_neg fun hlength ↦ ?_
    rw [length_physRead] at hlength
    have hne : insize + 0x20 + 0x20 ≠ insize + 0x20 := by bv_omega
    exact hne (BitVec.eq_of_toNat_eq hlength)
  rw [hdigest] at hword
  rw [hdigest', ← Except.ok.inj hword] at hword'
  exact wordAt_replicate_ne (Except.ok.inj hword').symm

theorem hash_abort {b : Build} {mem : Mem 32} {s : Status} (haddress : s.hresult ≠ 0) (hinsize : s.insize = 0xffffffe0)
    (hbuild : b.allowZeroMalloc = false) : hash b mem s = .error .zeroMalloc := by
  have hne : s.insize ≠ 0 := by
    rw [hinsize]
    decide
  have hgrown : s.insize + 0x20 = 0 := by
    rw [hinsize]
    decide
  rw [hash_active haddress hne]
  exact if_pos ⟨hgrown, hbuild⟩

theorem not_repeatable_of_abort (haddress : hresult ≠ 0) : ¬Repeatable false hresult 0xffffffe0 := by
  rintro ⟨addr, len, hall⟩
  have hone : Triggers { config := 8, hresult, insize := 0xffffffe0 } (List.replicate 1 2) := triggers_replicate rfl 1
  obtain ⟨t, ht, -⟩ := hall (fun _ ↦ Vector.replicate 20 0) (fun _ ↦ 0) _ rfl rfl _ (by simp) hone
  rw [List.replicate_one, triggers_single hone, hash_abort haddress rfl rfl] at ht
  cases ht

/-- The engine meets its purpose only for the size that its first hash wraps to zero. -/
theorem repeatable_iff (allowZeroMalloc : Bool) (hresult insize : Word) :
    Repeatable allowZeroMalloc hresult insize ↔
      hresult ≠ 0 ∧ insize = 0xffffffe0 ∧ allowZeroMalloc = true := by
  constructor
  · intro h
    have haddress : hresult ≠ 0 := fun hzero ↦ not_repeatable_of_idle (.inl hzero) h
    have hinsize : insize ≠ 0 := fun hzero ↦ not_repeatable_of_idle (.inr hzero) h
    have hwraps : insize = 0xffffffe0 := by
      by_contra hne
      exact not_repeatable_of_grows haddress hinsize (fun hgrown ↦ hne (by bv_omega)) h
    subst hwraps
    cases allowZeroMalloc with
    | false => exact absurd h (not_repeatable_of_abort haddress)
    | true => exact ⟨haddress, rfl, rfl⟩
  · rintro ⟨haddress, rfl, rfl⟩
    exact repeatable_of_wraps haddress

end Repetition

/-- The hash function on the two messages of the run below. -/
def sha1OfZeros (message : List Byte) : Digest :=
  if message = List.replicate 64 0 then
    #v[0xc8, 0xd7, 0xd0, 0xef, 0x0e, 0xed, 0xfa, 0x82, 0xd2, 0xea, 0x1a, 0xa5, 0x92, 0x84, 0x5b, 0x9a, 0x6d, 0x4b, 0x02,
      0xb7]
  else if message = List.replicate 96 0 then
    #v[0xc4, 0x9a, 0x97, 0x85, 0xb2, 0x24, 0x3f, 0x2f, 0x08, 0x0d, 0xaa, 0xd1, 0x74, 0x7f, 0x11, 0x9a, 0xcc, 0xec, 0xcf,
      0xa5]
  else Vector.replicate 20 0

/-- A size of 32 over cleared memory: 64 bytes are hashed, and 96 the next time. -/
theorem repeatable_fails :
    ¬Repeatable false 0x8000000 0x20 ∧
      (triggers ⟨sha1OfZeros, false⟩ (fun _ ↦ 0) { config := 8, hresult := 0x8000000, insize := 0x20 } [2]).bind
        (read · 0x20) = .ok 0xefd0d7c8 ∧
      (triggers ⟨sha1OfZeros, false⟩ (fun _ ↦ 0) { config := 8, hresult := 0x8000000, insize := 0x20 } [2, 2]).bind
        (read · 0x20) = .ok 0x85979ac4 :=
  ⟨not_repeatable_of_grows (by decide) (by decide) (by decide), by decide +kernel, by decide +kernel⟩

end IDeviceEmulator.Sha1
