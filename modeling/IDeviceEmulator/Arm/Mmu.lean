import IDeviceEmulator.Arm.Cpu

namespace IDeviceEmulator.Arm

section Protection

abbrev Prot := BitVec 32

def pageRead : Prot := 1
def pageWrite : Prot := 2
def pageExec : Prot := 4

inductive Access
  | read
  | write
  | execute
deriving DecidableEq

def Access.bit : Access → Prot
  | read => pageRead
  | write => pageWrite
  | execute => pageExec

/-- A successful walk. -/
structure Mapping where
  physAddr : Word
  prot : Prot
  pageSize : Word
deriving DecidableEq

def Mapping.Grants (r : Mapping) (t : Access) : Prop := r.prot &&& t.bit ≠ 0#32

instance Mapping.Grants.decidable (r : Mapping) (t : Access) : Decidable (r.Grants t) :=
  inferInstanceAs (Decidable (_ ≠ _))

end Protection

section Walks

variable (s : Cpu)

/-- The two bits of the access permission and, from version 6 on, `APX` above them. -/
abbrev Ap := BitVec 3

/-- The cases of `check_ap`, with the `S` and `R` bits of the control register. -/
def clientProt (sr : Fin 4) (v7 : Bool) (ap : Fin 8) (t : Access) (isUser : Bool) : Prot :=
  let protRo : Prot := if t = .write then 0 else pageRead
  match ap with
  | 0 =>
    if t = .write then 0
    else match sr with
      | 1 => if isUser then 0 else pageRead
      | 2 => pageRead
      | _ => 0
  | 1 => if isUser then 0 else pageRead ||| pageWrite
  | 2 => if isUser then protRo else pageRead ||| pageWrite
  | 3 => pageRead ||| pageWrite
  | 4 => 0
  | 5 => if isUser then 0 else protRo
  | 6 => protRo
  | 7 => if v7 = false then 0 else protRo

def checkAp (ap : Ap) (domain : Word) (t : Access) (isUser : Bool) : Prot :=
  if domain = 3 then pageRead ||| pageWrite
  else clientProt ((s.cp15.c1Sys >>> 8).setWidth 2).toFin (s.feature .v7) ap.toFin t isUser

def getLevel1TableAddress (address : Word) : Word :=
  let table := if address &&& s.cp15.c2Mask ≠ 0 then s.cp15.c2Base1 &&& 0xffffc000#32
    else s.cp15.c2Base0 &&& s.cp15.c2BaseMask
  table ||| ((address >>> 18) &&& 0x3ffc#32)

/-- What the tables say of an address before any permission is looked at. -/
structure Leaf where
  physAddr : Word
  pageSize : Word
  ap : Ap
  xn : Bool
  domain : Word
  code : Word

/-- The value that a failed walk returns. -/
def faultCode (code domain : Word) : Word := code ||| (domain <<< 4)

variable (ldlPhys : Word → Word)

/-- The second level of `get_phys_addr_v5`. -/
def pageV5 (address desc domain : Word) : Except Word Leaf :=
  let type := desc &&& 3#32
  let table := if type = 1 then (desc &&& 0xfffffc00#32) ||| ((address >>> 10) &&& 0x3fc#32)
    else (desc &&& 0xfffff000#32) ||| ((address >>> 8) &&& 0xffc#32)
  let desc := ldlPhys table
  let subpage : Ap := ((desc >>> (4#32 + ((address >>> 13) &&& 6#32))) &&& 3#32).setWidth 3
  let whole : Ap := ((desc >>> 4) &&& 3#32).setWidth 3
  match (desc.setWidth 2).toFin with
  | 0 => .error (faultCode 7 domain)
  | 1 => .ok ⟨(desc &&& 0xffff0000#32) ||| (address &&& 0xffff#32), 0x10000, subpage, false, domain, 15⟩
  | 2 => .ok ⟨(desc &&& 0xfffff000#32) ||| (address &&& 0xfff#32), 0x1000, subpage, false, domain, 15⟩
  | 3 =>
    if type = 1 then
      if s.feature .xscale then
        .ok ⟨(desc &&& 0xfffff000#32) ||| (address &&& 0xfff#32), 0x400, whole, false, domain, 15⟩
      else .error (faultCode 7 domain)
    else .ok ⟨(desc &&& 0xfffffc00#32) ||| (address &&& 0x3ff#32), 0x400, whole, false, domain, 15⟩

/-- `get_phys_addr_v5` up to the check of the permissions. -/
def lookupV5 (address : Word) : Except Word Leaf :=
  let desc := ldlPhys (getLevel1TableAddress s address)
  let type := desc &&& 3#32
  let domain := (s.cp15.c3 >>> ((desc >>> 4) &&& 0x1e#32)) &&& 3#32
  if type = 0 then .error (faultCode 5 domain)
  else if domain = 0 ∨ domain = 2 then .error (faultCode (if type = 2 then 9 else 11) domain)
  else if type = 2 then
    .ok ⟨(desc &&& 0xfff00000#32) ||| (address &&& 0xfffff#32), 0x100000, ((desc >>> 10) &&& 3#32).setWidth 3, false,
      domain, 13⟩
  else pageV5 s ldlPhys address desc domain

def getPhysAddrV5 (address : Word) (t : Access) (isUser : Bool) : Except Word Mapping := do
  let leaf ← lookupV5 s ldlPhys address
  let prot := checkAp s leaf.ap leaf.domain t isUser
  if prot = 0#32 then .error (faultCode leaf.code leaf.domain)
  else return ⟨leaf.physAddr, prot ||| pageExec, leaf.pageSize⟩

/-- The second level of `get_phys_addr_v6`. -/
def pageV6 (address desc domain : Word) : Except Word Leaf :=
  let table := (desc &&& 0xfffffc00#32) ||| ((address >>> 10) &&& 0x3fc#32)
  let desc := ldlPhys table
  let ap : Ap := (((desc >>> 4) &&& 3#32) ||| ((desc >>> 7) &&& 4#32)).setWidth 3
  match (desc.setWidth 2).toFin with
  | 0 => .error (faultCode 7 domain)
  | 1 => .ok ⟨(desc &&& 0xffff0000#32) ||| (address &&& 0xffff#32), 0x10000, ap, desc.getLsbD 15, domain, 15⟩
  | 2 | 3 => .ok ⟨(desc &&& 0xfffff000#32) ||| (address &&& 0xfff#32), 0x1000, ap, desc.getLsbD 0, domain, 15⟩

/-- `get_phys_addr_v6` up to the check of the permissions. -/
def lookupV6 (address : Word) : Except Word Leaf :=
  let desc := ldlPhys (getLevel1TableAddress s address)
  let type := desc &&& 3#32
  if type = 0 then .error (faultCode 5 0)
  else
    let field := if type = 2 ∧ desc.getLsbD 18 then 0#32 else (desc >>> 4) &&& 0x1e#32
    let domain := (s.cp15.c3 >>> field) &&& 3#32
    if domain = 0 ∨ domain = 2 then .error (faultCode (if type = 2 then 9 else 11) domain)
    else if type = 2 then
      let ap : Ap := (((desc >>> 10) &&& 3#32) ||| ((desc >>> 13) &&& 4#32)).setWidth 3
      if desc.getLsbD 18 then
        .ok ⟨(desc &&& 0xff000000#32) ||| (address &&& 0xffffff#32), 0x1000000, ap, desc.getLsbD 4, domain, 13⟩
      else .ok ⟨(desc &&& 0xfff00000#32) ||| (address &&& 0xfffff#32), 0x100000, ap, desc.getLsbD 4, domain, 13⟩
    else pageV6 ldlPhys address desc domain

def getPhysAddrV6 (address : Word) (t : Access) (isUser : Bool) : Except Word Mapping := do
  let leaf ← lookupV6 s ldlPhys address
  if leaf.domain = 3 then return ⟨leaf.physAddr, pageRead ||| pageWrite ||| pageExec, leaf.pageSize⟩
  else if leaf.xn ∧ t = .execute then .error (faultCode leaf.code leaf.domain)
  else if s.cp15.c1Sys.getLsbD 29 ∧ leaf.ap.getLsbD 0 = false then
    .error (faultCode (if leaf.code = 15 then 6 else 3) leaf.domain)
  else
    let prot := checkAp s leaf.ap leaf.domain t isUser
    if prot = 0#32 then .error (faultCode leaf.code leaf.domain)
    else return ⟨leaf.physAddr, if leaf.xn then prot else prot ||| pageExec, leaf.pageSize⟩

/-- `TARGET_PAGE_SIZE`. -/
def targetPageSize : Word := 0x400

/-- The regions are tried from the last one down. -/
def mpuRegion (address : Word) : Option (Fin 8) :=
  (List.finRange 8).reverse.find? fun n ↦
    let base := s.cp15.c6Region n
    let mask := ((1#32 <<< ((base >>> 1) &&& 0x1f#32)) <<< 1) - 1#32
    base.getLsbD 0 && (base ^^^ address) &&& ~~~mask == 0#32

def getPhysAddrMpu (address : Word) (t : Access) (isUser : Bool) : Except Word Mapping :=
  match mpuRegion s address with
  | none => .error 2
  | some n =>
    let mask := if t = .execute then s.cp15.c5Insn else s.cp15.c5Data
    let mapped (prot : Prot) : Except Word Mapping := .ok ⟨address, prot ||| pageExec, targetPageSize⟩
    match ((mask >>> (n.val * 4)).setWidth 4).toFin with
    | 1 => if isUser then .error 1 else mapped (pageRead ||| pageWrite)
    | 2 => mapped (if isUser then pageRead else pageRead ||| pageWrite)
    | 3 => mapped (pageRead ||| pageWrite)
    | 5 => if isUser then .error 1 else mapped pageRead
    | 6 => mapped pageRead
    | _ => .error 1

def getPhysAddr (address : Word) (t : Access) (isUser : Bool) : Except Word Mapping :=
  let address := if address < 0x02000000 then address + s.cp15.c13Fcse else address
  if s.cp15.c1Sys.getLsbD 0 = false then .ok ⟨address, pageRead ||| pageWrite ||| pageExec, targetPageSize⟩
  else if s.feature .mpu then getPhysAddrMpu s address t isUser
  else if s.cp15.c1Sys.getLsbD 23 then getPhysAddrV6 s ldlPhys address t isUser
  else getPhysAddrV5 s ldlPhys address t isUser

end Walks

section Coherence

/-- The walks of one address by every access and at both privilege levels. -/
structure CoherentWalk (walk : Access → Bool → Except Word Mapping) : Prop where
  granted : ∀ t isUser r, walk t isUser = .ok r → r.Grants t
  agree : ∀ t isUser r, walk t isUser = .ok r → ∀ t', (∃ r', walk t' isUser = .ok r') ↔ r.Grants t'
  same : ∀ t isUser r t' r', walk t isUser = .ok r → walk t' isUser = .ok r' → r'.physAddr = r.physAddr
  privileged : ∀ t r, walk t true = .ok r → ∃ r', walk t false = .ok r' ∧ r'.physAddr = r.physAddr

/-- Each privilege level has a protection of its own, which decides every access. -/
def Decides (walk : Access → Bool → Except Word Mapping) (physAddr pageSize : Word) (prot : Bool → Prot) : Prop :=
  ∀ t isUser r, walk t isUser = .ok r ↔ prot isUser &&& t.bit ≠ 0#32 ∧ r = ⟨physAddr, prot isUser, pageSize⟩

variable {walk : Access → Bool → Except Word Mapping} {physAddr pageSize : Word} {prot : Bool → Prot}

theorem Decides.coherent (h : Decides walk physAddr pageSize prot) (huser : prot true &&& prot false = prot true) :
    CoherentWalk walk where
  granted t isUser r hr := by
    obtain ⟨hbit, rfl⟩ := (h t isUser r).mp hr
    exact hbit
  agree t isUser r hr t' := by
    obtain ⟨-, rfl⟩ := (h t isUser r).mp hr
    constructor
    · rintro ⟨r', hr'⟩
      exact ((h t' isUser r').mp hr').1
    · intro hbit
      exact ⟨_, (h t' isUser _).mpr ⟨hbit, rfl⟩⟩
  same t isUser r t' r' hr hr' := by
    rw [((h t isUser r).mp hr).2, ((h t' isUser r').mp hr').2]
  privileged t r hr := by
    obtain ⟨hbit, rfl⟩ := (h t true r).mp hr
    refine ⟨_, (h t false _).mpr ⟨fun hzero ↦ hbit ?_, rfl⟩, rfl⟩
    rw [← huser, BitVec.and_assoc, hzero, BitVec.and_zero]

theorem decides_of_error (herror : ∀ t isUser, ∃ code, walk t isUser = .error code) :
    Decides walk 0 0 fun _ ↦ 0#32 := by
  intro t isUser r
  obtain ⟨code, hcode⟩ := herror t isUser
  simp [hcode]

end Coherence

section Permissions

variable (s : Cpu) (ap : Ap) (domain : Word) (isUser : Bool)

theorem clientProt_read_cases : ∀ sr v7 ap isUser, clientProt sr v7 ap .read isUser = 0#32 ∨
    clientProt sr v7 ap .read isUser = pageRead ∨ clientProt sr v7 ap .read isUser = pageRead ||| pageWrite := by
  decide

theorem clientProt_write : ∀ sr v7 ap isUser, clientProt sr v7 ap .write isUser =
    if clientProt sr v7 ap .read isUser &&& pageWrite = 0#32 then 0#32 else clientProt sr v7 ap .read isUser := by
  decide

theorem clientProt_user : ∀ sr v7 ap, clientProt sr v7 ap .read true &&& clientProt sr v7 ap .read false =
    clientProt sr v7 ap .read true := by
  decide

theorem checkAp_read_cases : checkAp s ap domain .read isUser = 0#32 ∨
    checkAp s ap domain .read isUser = pageRead ∨ checkAp s ap domain .read isUser = pageRead ||| pageWrite := by
  unfold checkAp
  split_ifs
  · exact .inr (.inr rfl)
  · exact clientProt_read_cases _ _ _ _

/-- A write is allowed exactly where a read reports the page as writable. -/
theorem checkAp_write : checkAp s ap domain .write isUser =
    if checkAp s ap domain .read isUser &&& pageWrite = 0#32 then 0#32 else checkAp s ap domain .read isUser := by
  by_cases h : domain = 3
  · simp only [checkAp, if_pos h]
    decide
  · simp only [checkAp, if_neg h]
    exact clientProt_write _ _ _ _

theorem checkAp_user : checkAp s ap domain .read true &&& checkAp s ap domain .read false =
    checkAp s ap domain .read true := by
  unfold checkAp
  split_ifs
  · decide
  · exact clientProt_user _ _ _

/-- The protection of a page whose permissions let a read report `p`. -/
def granted (xn : Bool) (p : Prot) : Prot := if p = 0 then 0 else if xn then p else p ||| pageExec

theorem checkAp_execute : checkAp s ap domain .execute isUser = checkAp s ap domain .read isUser := rfl

/-- One protection says of every access whether it is allowed and what its walk reports. -/
theorem checkAp_granted (xn : Bool) (t : Access) :
    (granted xn (checkAp s ap domain .read isUser) &&& t.bit ≠ 0#32 ↔
      ¬ (xn = true ∧ t = .execute) ∧ checkAp s ap domain t isUser ≠ 0#32) ∧
    (checkAp s ap domain t isUser ≠ 0#32 → (if xn then checkAp s ap domain t isUser
      else checkAp s ap domain t isUser ||| pageExec) = granted xn (checkAp s ap domain .read isUser)) := by
  have hcases := checkAp_read_cases s ap domain isUser
  have hwrite := checkAp_write s ap domain isUser
  have hexecute := checkAp_execute s ap domain isUser
  rcases hcases with h | h | h
  all_goals
    rw [h] at hwrite hexecute
    cases t with
    | read =>
      rw [h]
      cases xn <;> decide
    | write =>
      rw [h, hwrite]
      cases xn <;> decide
    | execute =>
      rw [h, hexecute]
      cases xn <;> decide

theorem granted_user (xn : Bool) : granted xn (checkAp s ap domain .read true) &&&
    granted xn (checkAp s ap domain .read false) = granted xn (checkAp s ap domain .read true) := by
  have huser := checkAp_user s ap domain
  rcases checkAp_read_cases s ap domain true with h | h | h
  all_goals
    rcases checkAp_read_cases s ap domain false with h' | h' | h'
    all_goals
      rw [h, h'] at huser ⊢
      revert huser
      cases xn <;> decide

end Permissions

section Walks

variable (s : Cpu) (ldlPhys : Word → Word) (address : Word)

/-- A walk that ends with the check of its permissions. -/
theorem coherent_of_checkAp {walk : Access → Bool → Except Word Mapping} (leaf : Leaf) (xn : Bool)
    (hwalk : ∀ t isUser r, walk t isUser = .ok r ↔
      (¬ (xn = true ∧ t = .execute) ∧ checkAp s leaf.ap leaf.domain t isUser ≠ 0#32) ∧
        r = ⟨leaf.physAddr, if xn then checkAp s leaf.ap leaf.domain t isUser
          else checkAp s leaf.ap leaf.domain t isUser ||| pageExec, leaf.pageSize⟩) :
    CoherentWalk walk := by
  have hdecides : Decides walk leaf.physAddr leaf.pageSize fun isUser ↦
      granted xn (checkAp s leaf.ap leaf.domain .read isUser) := by
    intro t isUser r
    obtain ⟨hiff, heq⟩ := checkAp_granted s leaf.ap leaf.domain isUser xn t
    rw [hwalk, hiff]
    refine and_congr_right fun h ↦ ?_
    rw [heq h.2]
  exact hdecides.coherent (granted_user s leaf.ap leaf.domain xn)

theorem coherent_getPhysAddrV5 : CoherentWalk (getPhysAddrV5 s ldlPhys address) := by
  cases hleaf : lookupV5 s ldlPhys address with
  | error code =>
    refine (decides_of_error fun t isUser ↦ ⟨code, ?_⟩).coherent rfl
    rw [getPhysAddrV5, hleaf]
    rfl
  | ok leaf =>
    refine coherent_of_checkAp s leaf false fun t isUser r ↦ ?_
    simp only [getPhysAddrV5, hleaf, bind, Except.bind]
    by_cases h : checkAp s leaf.ap leaf.domain t isUser = 0#32
    · rw [if_pos h]
      simp [h]
    · rw [if_neg h]
      simp only [pure, Except.pure, Except.ok.injEq]
      exact ⟨fun hr ↦ ⟨⟨by simp, h⟩, hr.symm⟩, fun hr ↦ hr.2.symm⟩

theorem coherent_getPhysAddrV6 : CoherentWalk (getPhysAddrV6 s ldlPhys address) := by
  cases hleaf : lookupV6 s ldlPhys address with
  | error code =>
    refine (decides_of_error fun t isUser ↦ ⟨code, ?_⟩).coherent rfl
    rw [getPhysAddrV6, hleaf]
    rfl
  | ok leaf =>
    by_cases hdomain : leaf.domain = 3
    · have hdecides : Decides (getPhysAddrV6 s ldlPhys address) leaf.physAddr leaf.pageSize fun _ ↦
          pageRead ||| pageWrite ||| pageExec := by
        intro t isUser r
        have hbit : (pageRead ||| pageWrite ||| pageExec) &&& t.bit ≠ 0#32 := by cases t <;> decide
        simp [getPhysAddrV6, hleaf, bind, Except.bind, hdomain, pure, Except.pure, hbit, eq_comm]
      exact hdecides.coherent rfl
    · by_cases haccess : s.cp15.c1Sys.getLsbD 29 = true ∧ leaf.ap.getLsbD 0 = false
      · refine (decides_of_error fun t isUser ↦ ?_).coherent rfl
        simp only [getPhysAddrV6, hleaf, bind, Except.bind, if_neg hdomain, if_pos haccess]
        split_ifs <;> exact ⟨_, rfl⟩
      · refine coherent_of_checkAp s leaf leaf.xn fun t isUser r ↦ ?_
        simp only [getPhysAddrV6, hleaf, bind, Except.bind, if_neg hdomain, if_neg haccess]
        by_cases hxn : leaf.xn = true ∧ t = .execute
        · rw [if_pos hxn]
          simp [hxn]
        · rw [if_neg hxn]
          by_cases h : checkAp s leaf.ap leaf.domain t isUser = 0#32
          · rw [if_pos h]
            simp [h]
          · rw [if_neg h]
            simp only [pure, Except.pure, Except.ok.injEq]
            exact ⟨fun hr ↦ ⟨⟨hxn, h⟩, hr.symm⟩, fun hr ↦ hr.2.symm⟩

/-- With the MMU on, an access never depends on which access filled the TLB. -/
theorem walks_coherent (hmmu : s.cp15.c1Sys.getLsbD 0 = true) (hmpu : s.feature .mpu = false) :
    CoherentWalk (getPhysAddr s ldlPhys address) ∧ CoherentWalk (getPhysAddrV5 s ldlPhys address) ∧
      CoherentWalk (getPhysAddrV6 s ldlPhys address) := by
  refine ⟨?_, coherent_getPhysAddrV5 s ldlPhys address, coherent_getPhysAddrV6 s ldlPhys address⟩
  have hmmu' : ¬ s.cp15.c1Sys.getLsbD 0 = false := by simp [hmmu]
  have hmpu' : ¬ s.feature .mpu = true := by simp [hmpu]
  by_cases hv6 : s.cp15.c1Sys.getLsbD 23 = true
  · have heq : getPhysAddr s ldlPhys address = getPhysAddrV6 s ldlPhys
        (if address < 0x02000000 then address + s.cp15.c13Fcse else address) := by
      funext t isUser
      simp only [getPhysAddr, if_neg hmmu', if_neg hmpu', if_pos hv6]
    rw [heq]
    exact coherent_getPhysAddrV6 s ldlPhys _
  · have heq : getPhysAddr s ldlPhys address = getPhysAddrV5 s ldlPhys
        (if address < 0x02000000 then address + s.cp15.c13Fcse else address) := by
      funext t isUser
      simp only [getPhysAddr, if_neg hmmu', if_neg hmpu', if_neg hv6]
    rw [heq]
    exact coherent_getPhysAddrV5 s ldlPhys _

/-- A section that is read-only for user mode and not executable. -/
def mappedCpu : Cpu :=
  { cp15 := { c1Sys := 0x800001, c2BaseMask := 0xffffc000, c3 := 0x55555555 } }

def sectionTable (_ : Word) : Word := 0x80000812

theorem walks_coherent_section : getPhysAddr mappedCpu sectionTable 0x123456 .read true =
      .ok ⟨0x80023456, pageRead, 0x100000⟩ ∧ CoherentWalk (getPhysAddr mappedCpu sectionTable 0x123456) ∧
        CoherentWalk (getPhysAddrV5 mappedCpu sectionTable 0x123456) ∧
          CoherentWalk (getPhysAddrV6 mappedCpu sectionTable 0x123456) :=
  ⟨by decide, walks_coherent mappedCpu sectionTable 0x123456 (by decide) (by decide)⟩

end Walks

end IDeviceEmulator.Arm
