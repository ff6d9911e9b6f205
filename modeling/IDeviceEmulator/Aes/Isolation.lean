import IDeviceEmulator.Aes.Programming

namespace IDeviceEmulator.Aes

open Memory Cdma Cbc

section Words

theorem joined_bytes (x : Word) :
    (x.extractLsb' 24 8 ++ x.extractLsb' 16 8) ++ (x.extractLsb' 8 8 ++ x.extractLsb' 0 8) = x := by
  have hhigh : (16 + 8 : Nat) = 24 := rfl
  have hlow : (0 + 8 : Nat) = 8 := rfl
  have hall : (0 + 16 : Nat) = 16 := rfl
  rw [BitVec.extractLsb'_append_extractLsb'_eq_extractLsb' hhigh.symm,
    BitVec.extractLsb'_append_extractLsb'_eq_extractLsb' hlow.symm,
    BitVec.extractLsb'_append_extractLsb'_eq_extractLsb' hall.symm]
  exact BitVec.extractLsb'_eq_self

theorem wordBytes_injective : Function.Injective wordBytes := by
  intro x y h
  simp only [wordBytes, List.cons.injEq, and_true] at h
  obtain ⟨h₀, h₁, h₂, h₃⟩ := h
  rw [← joined_bytes x, ← joined_bytes y, h₀, h₁, h₂, h₃]

theorem words_injective {n : Nat} {xs ys : Vector Word n}
    (h : xs.toList.flatMap wordBytes = ys.toList.flatMap wordBytes) : xs = ys := by
  have hlength : xs.toList.length = ys.toList.length := by rw [Vector.length_toList, Vector.length_toList]
  exact Vector.toList_inj.mp (flatMap_injective (fun _ _ ↦ rfl) wordBytes_injective hlength h)

theorem get_ofFn {n : Nat} (f : Fin n → Word) (i : Fin n) : (Vector.ofFn f).get i = f i := Vector.getElem_ofFn i.isLt

theorem ivOf_injective {xs ys : Vector Word 4} (h : ivOf xs = ivOf ys) : xs = ys := by
  have hlength (v : Vector Word 4) : (v.toList.flatMap wordBytes).length = 16 := by
    simp [List.length_flatMap, wordBytes]
  refine words_injective (getD_ext (hlength xs) (hlength ys) fun i hi ↦ ?_)
  have hbyte := congrArg (fun b : Block ↦ b[i]) h
  simpa only [ivOf, block, Vector.getElem_ofFn] using hbyte

end Words

/-- What the guest programs for an operation with a custom key. -/
structure Programming where
  key : Vector Word 8
  iv : Vector Word 4
  keylen : Word
  operation : Word
  insize : Word
  inaddr : Word
  outaddr : Word

namespace Programming

def keyBytes (p : Programming) : List Byte := p.key.toList.flatMap wordBytes

def ivBytes (p : Programming) : List Byte := p.iv.toList.flatMap wordBytes

def source (p : Programming) (mem : Mem 32) : List Byte :=
  (List.range p.insize.toNat).map fun i ↦ mem (p.inaddr - 0x80000000 + BitVec.ofNat 32 i)

def output (p : Programming) (mem : Mem 32) : List Byte :=
  (List.range p.insize.toNat).map fun i ↦ mem (p.outaddr - 0x80000000 + BitVec.ofNat 32 i)

/-- AES-CBC in the programmed direction. -/
def cbc (p : Programming) (c : Cipher) (input : List Byte) : List Byte :=
  if p.operation ≠ 0 then join (encrypt (c p.keyBytes) (ivOf p.iv) (blocksOf input))
  else join (decrypt (c p.keyBytes).symm (ivOf p.iv) (blocksOf input))

end Programming

/-- The writes since the last `AES_GO` program the operation. A key or vector word that none of them
writes is zero. -/
structure Programs (events : List Event) (p : Programming) : Prop where
  key : ∀ i, (written (.key i) (sinceGo events)).getLast?.getD 0 = p.key.get i
  iv : ∀ i, (written (.iv i) (sinceGo events)).getLast?.getD 0 = p.iv.get i
  keylen : [p.keylen, p.operation] <+: written .keylen (sinceGo events)
  type : (written .type (sinceGo events)).getLast? = some aesCustom
  insize : (written .insize (sinceGo events)).getLast? = some p.insize
  inaddr : (written .inaddr (sinceGo events)).getLast? = some p.inaddr
  outaddr : (written .outaddr (sinceGo events)).getLast? = some p.outaddr
  size : p.insize.toNat ≤ 0x1000
  blocks : 16 ∣ p.insize.toNat

/-- After the events, a write to `AES_GO` replaces the target by AES-CBC of the source. -/
structure Delivers (host : Routines) (c : Cipher) (mem : Mem 32) (events : List Event) (p : Programming)
    (w v : System) : Prop where
  before : run host (aesInit mem) events = .ok w
  after : ∀ value, aesWrite host w 0x4 value = .ok v
  output : v.mem = put w.mem (p.outaddr - 0x80000000) p.insize.toNat fun i ↦ (p.cbc c (p.source w.mem)).getD i 0

/-- Whatever came before, the operation depends on nothing but its own programming and source. -/
def Isolated (mem : Mem 32) (events₁ events₂ : List Event) (p : Programming) : Prop :=
  ∀ host c, Implements host c → ∃ w₁ v₁ w₂ v₂,
    Delivers host c mem events₁ p w₁ v₁ ∧ Delivers host c mem events₂ p w₂ v₂ ∧
      (p.source w₁.mem = p.source w₂.mem → p.output v₁.mem = p.output v₂.mem)

/-- The engine decrypts, and nothing else has gathered in its registers. -/
structure Decrypts (events : List Event) (p : Programming) : Prop where
  direction : p.operation = 0
  operation : selected (written .keylen (sinceClear events)) = 0
  key : ∀ i, gathered (.key i) (sinceClear events) = p.key.get i
  iv : ∀ i, gathered (.iv i) (sinceClear events) = p.iv.get i

def Clean (events : List Event) (p : Programming) : Prop := Fits events ∧ (p.insize = 0 ∨ Decrypts events p)

/-- The programming with the key, the vector and the operation that the registers hold. -/
def inForce (events : List Event) (p : Programming) : Programming :=
  { p with
    key := Vector.ofFn fun i ↦ gathered (.key i) (sinceClear events)
    iv := Vector.ofFn fun i ↦ gathered (.iv i) (sinceClear events)
    operation := selected (written .keylen (sinceClear events)) }

section Operation

variable {events : List Event} {p : Programming} {mem : Mem 32} {w : System}

theorem length_source (p : Programming) (mem : Mem 32) : (p.source mem).length = p.insize.toNat := by
  simp [Programming.source]

theorem length_cbc (p : Programming) (c : Cipher) {input : List Byte} (h : 16 ∣ input.length) :
    (p.cbc c input).length = input.length := by
  unfold Programming.cbc
  split_ifs
  · exact length_join_encrypt _ _ h
  · exact length_join_decrypt _ _ h

theorem Programs.source_dvd (h : Programs events p) (mem : Mem 32) : 16 ∣ (p.source mem).length := by
  rw [length_source]
  exact h.blocks

theorem Programs.keylen_length (h : Programs events p) : 2 ≤ (written .keylen (sinceClear events)).length := by
  have hrecent : written .keylen (sinceGo events) <:+ written .keylen (sinceClear events) :=
    (sinceGo_suffix events).filterMap _
  exact h.keylen.length_le.trans hrecent.length_le

/-- The state in which the operation starts. -/
theorem Programs.regs (h : Programs events p) {host : Routines} (hrun : run host (aesInit mem) events = .ok w) :
    w.regs.keytype = aesCustom ∧ w.regs.insize = p.insize ∧ w.regs.inaddr = p.inaddr ∧ w.regs.outaddr = p.outaddr ∧
      w.regs.custkey = (inForce events p).key ∧ w.regs.ivec = (inForce events p).iv ∧
      w.regs.operation = (inForce events p).operation := by
  have htracks := tracks_session events
  rw [run_regs host hrun]
  refine ⟨?_, ?_, ?_, ?_, ?_, ?_, htracks.operation h.keylen_length⟩
  · exact setting_eq events (by decide : Reg.type ∈ settings) h.type
  · exact setting_eq events (by decide : Reg.insize ∈ settings) h.insize
  · exact setting_eq events (by decide : Reg.inaddr ∈ settings) h.inaddr
  · exact setting_eq events (by decide : Reg.outaddr ∈ settings) h.outaddr
  · ext1 i hi
    rw [inForce, Vector.getElem_ofFn]
    exact htracks.key ⟨i, hi⟩
  · ext1 i hi
    rw [inForce, Vector.getElem_ofFn]
    exact htracks.iv ⟨i, hi⟩

theorem msb_of_le {x : Word} (h : x.toNat ≤ 0x1000) : x.msb = false := by
  rw [BitVec.msb_eq_decide]
  simp
  omega

/-- What the operation writes. -/
theorem Programs.go (h : Programs events p) {host : Routines} (hrun : run host (aesInit mem) events = .ok w) :
    ∃ v, (∀ value, aesWrite host w 0x4 value = .ok v) ∧
      v.mem = put w.mem (p.outaddr - 0x80000000) p.insize.toNat fun i ↦
        (host.cbcEncrypt (p.source w.mem) (host.setDecryptKey (inForce events p).keyBytes 256 w.decryptKey)
          (inForce events p).ivBytes (inForce events p).operation).1.getD i 0 := by
  obtain ⟨htype, hinsize, hinaddr, houtaddr, hkey, hiv, hoperation⟩ := h.regs hrun
  have hsize := h.size
  have hfits : ¬ w.regs.Overflows := by
    rw [Registers.Overflows, hinsize]
    omega
  have hgo : Aes.go host w = .ok (crypt host w) := by
    rw [go_of_not_overflows host hfits, htype]
    rfl
  have hschedule : schedule host w = host.setDecryptKey (inForce events p).keyBytes 256 w.decryptKey := by
    rw [schedule, htype, hkey]
    rfl
  refine ⟨crypt host w, fun value ↦ (aesWrite_go host w rfl value).trans hgo, ?_⟩
  unfold crypt
  simp only [hschedule, hinsize, hinaddr, houtaddr, hiv, hoperation, physRead, physWrite, msb_of_le hsize]
  rfl

theorem crypted {host : Routines} {c : Cipher} (himpl : Implements host c) (q : Programming) (hop : q.operation = 0)
    (old : KeySchedule) {input : List Byte} (hdvd : 16 ∣ input.length) :
    (host.cbcEncrypt input (host.setDecryptKey q.keyBytes 256 old) q.ivBytes q.operation).1 = q.cbc c input := by
  have hlength : q.keyBytes.length = 32 := length_keyWords q.key
  have htake : q.keyBytes.take 32 = q.keyBytes := List.take_of_length_le hlength.le
  have hcrypt := himpl q.keyBytes 256 old input q.ivBytes (by decide) hlength.ge hdvd
  change _ = join (decrypt (c (q.keyBytes.take 32)).symm _ _) at hcrypt
  rw [htake] at hcrypt
  rw [Programming.cbc, if_neg (not_not.mpr hop), hop]
  exact hcrypt

theorem Decrypts.inForce (h : Decrypts events p) : inForce events p = p := by
  obtain ⟨hdirection, hoperation, hkey, hiv⟩ := h
  have hkeys : Vector.ofFn (fun i : Fin 8 ↦ gathered (.key i) (sinceClear events)) = p.key := by
    ext1 i hi
    rw [Vector.getElem_ofFn]
    exact hkey ⟨i, hi⟩
  have hivs : Vector.ofFn (fun i : Fin 4 ↦ gathered (.iv i) (sinceClear events)) = p.iv := by
    ext1 i hi
    rw [Vector.getElem_ofFn]
    exact hiv ⟨i, hi⟩
  rw [Aes.inForce, hkeys, hivs, hoperation, ← hdirection]

/-- The operation delivers under every implementation of the routines. -/
def AlwaysDelivers (mem : Mem 32) (events : List Event) (p : Programming) : Prop :=
  ∀ host c, Implements host c → ∃ w v, Delivers host c mem events p w v

theorem Clean.alwaysDelivers (hclean : Clean events p) (h : Programs events p) (mem : Mem 32) :
    AlwaysDelivers mem events p := by
  intro host c himpl
  obtain ⟨hfits, hcrypt⟩ := hclean
  obtain ⟨w, hrun⟩ := (run_ok_iff host mem events).mpr hfits
  obtain ⟨v, hgo, hmem⟩ := h.go hrun
  refine ⟨w, v, hrun, hgo, ?_⟩
  rcases hcrypt with hempty | hok
  · refine hmem.trans (put_congr _ fun i hi ↦ ?_)
    rw [hempty] at hi
    exact absurd hi (Nat.not_lt_zero i)
  · have hop : p.operation = 0 := hok.direction
    rw [hok.inForce, crypted himpl p hop _ (h.source_dvd w.mem)] at hmem
    exact hmem

/-- What a delivery leaves at the target. -/
theorem Delivers.output_eq {host : Routines} {c : Cipher} {v : System} (hd : Delivers host c mem events p w v)
    (h : Programs events p) : p.output v.mem = p.cbc c (p.source w.mem) := by
  have hdvd := h.source_dvd w.mem
  have hsize := h.size
  have hlength : (p.cbc c (p.source w.mem)).length = p.insize.toNat := by
    rw [length_cbc p c hdvd, length_source]
  refine getD_ext (by simp [Programming.output]) hlength fun i hi ↦ ?_
  rw [Programming.output, hd.output]
  simp only [List.getD_eq_getElem?_getD, List.getElem?_map, List.getElem?_range hi, Option.map_some, Option.getD_some]
  rw [put_of_covers _ (covers_add _ hi (by omega)), offset_add _ (by omega)]

/-- AES routines over a given cipher, with a given answer when they are asked to encrypt under a
decryption schedule. -/
def routines (c : Cipher) (odd : List Byte → List Byte) : Routines where
  fifo _ d := (0, d)
  setDecryptKey key bits _ := key.take (bits.toNat / 8)
  cbcEncrypt input key iv operation :=
    (if operation = 0 then join (decrypt (c key).symm (block 16 0 iv) (blocksOf input)) else odd input, iv)
  heap _ := 0

theorem implements_routines (c : Cipher) (odd : List Byte → List Byte) : Implements (routines c odd) c :=
  fun _ _ _ _ _ _ _ _ ↦ rfl

/-- The bytes that the routines return are those of a delivery. -/
theorem Delivers.crypted {host : Routines} {c : Cipher} {v : System} (hd : Delivers host c mem events p w v)
    (h : Programs events p) {bytes : List Byte} (hlength : bytes.length = p.insize.toNat)
    (hbytes : (host.cbcEncrypt (p.source w.mem) (host.setDecryptKey (Aes.inForce events p).keyBytes 256 w.decryptKey)
      (Aes.inForce events p).ivBytes (Aes.inForce events p).operation).1 = bytes) :
    bytes = p.cbc c (p.source w.mem) := by
  obtain ⟨v', hgo, hmem⟩ := h.go hd.before
  have hsame := (hd.after 0).symm.trans (hgo 0)
  cases hsame
  have hsize := h.size
  rw [hbytes] at hmem
  have hputs := hmem.symm.trans hd.output
  refine getD_ext hlength ?_ fun i hi ↦ put_injective _ (by omega) hputs hi
  rw [length_cbc p c (h.source_dvd w.mem), length_source]

theorem AlwaysDelivers.operation (hall : AlwaysDelivers mem events p) (h : Programs events p) (hne : p.insize ≠ 0) :
    (inForce events p).operation = 0 := by
  by_contra hop
  let c : Cipher := fun _ ↦ Equiv.refl _
  let odd (input : List Byte) : List Byte := (p.cbc c input).map (· + 1)
  obtain ⟨w, v, hd⟩ := hall (routines c odd) c (implements_routines c odd)
  have hlength : (p.cbc c (p.source w.mem)).length = p.insize.toNat := by
    rw [length_cbc p c (h.source_dvd w.mem), length_source]
  have hodd : (odd (p.source w.mem)).length = p.insize.toNat := by rw [List.length_map, hlength]
  have hbytes := hd.crypted h hodd (if_neg hop)
  have hpos : 0 < (p.cbc c (p.source w.mem)).length := by
    rw [hlength]
    exact Nat.pos_of_ne_zero fun hzero ↦ hne (BitVec.eq_of_toNat_eq hzero)
  obtain ⟨b, bs, hcons⟩ := List.exists_cons_of_length_pos hpos
  have hhead : b + 1 = b := by
    simp only [odd, hcons, List.map_cons] at hbytes
    exact (List.cons.inj hbytes).1
  bv_omega

/-- The first block, which the engine decrypts with the key and the vector in force. -/
theorem AlwaysDelivers.head (hall : AlwaysDelivers mem events p) (h : Programs events p) (hne : p.insize ≠ 0)
    (c : Cipher) :
    ∃ x, (c (inForce events p).keyBytes).symm x ^^^ ivOf (inForce events p).iv =
      if p.operation ≠ 0 then c p.keyBytes (x ^^^ ivOf p.iv) else (c p.keyBytes).symm x ^^^ ivOf p.iv := by
  have hop := hall.operation h hne
  obtain ⟨w, v, hd⟩ := hall (routines c id) c (implements_routines c id)
  have hdvd := h.source_dvd w.mem
  have hlength : ((inForce events p).cbc c (p.source w.mem)).length = p.insize.toNat := by
    rw [length_cbc _ c hdvd, length_source]
  have hbytes := hd.crypted h hlength (crypted (implements_routines c id) _ hop _ hdvd)
  have hzero : (p.source w.mem).length ≠ 0 := by
    rw [length_source]
    exact fun hzero ↦ hne (BitVec.eq_of_toNat_eq hzero)
  obtain ⟨x, rest, hblocks⟩ := blocksOf_cons hdvd hzero
  refine ⟨x, ?_⟩
  rw [Programming.cbc, if_neg (not_not.mpr hop), Programming.cbc, hblocks] at hbytes
  split_ifs at hbytes ⊢
  · exact decrypt_encrypt_head hbytes
  · exact decrypt_head hbytes

theorem AlwaysDelivers.decrypts (hall : AlwaysDelivers mem events p) (h : Programs events p) (hne : p.insize ≠ 0) :
    Decrypts events p := by
  have hhead := hall.head h hne
  have hiv : ivOf (inForce events p).iv = ivOf p.iv := by
    obtain ⟨x, hx⟩ := hhead fun _ ↦ Equiv.refl _
    simp only [Equiv.refl_symm, Equiv.refl_apply, ite_self] at hx
    exact xor_left_cancel hx
  have hdirection : p.operation = 0 := by
    by_contra hencrypts
    obtain ⟨σ, hσ⟩ := exists_perm_ne (by decide) (by decide) (ivOf p.iv)
    obtain ⟨x, hx⟩ := hhead fun _ ↦ σ
    rw [if_pos hencrypts, hiv] at hx
    exact hσ x hx.symm
  have hkey : (inForce events p).keyBytes = p.keyBytes := by
    by_contra hkey
    obtain ⟨x, hx⟩ := hhead (Function.update (fun _ ↦ Equiv.refl _) (inForce events p).keyBytes (bump 8 16))
    rw [if_neg (not_not.mpr hdirection), Function.update_self, Function.update_of_ne (Ne.symm hkey), hiv] at hx
    exact bump_symm_ne (by decide) (by decide) x (xor_right_cancel hx)
  refine ⟨hdirection, hall.operation h hne, fun i ↦ ?_, fun i ↦ ?_⟩
  · rw [← words_injective hkey, inForce, get_ofFn]
  · rw [← ivOf_injective hiv, inForce, get_ofFn]

theorem AlwaysDelivers.clean (hall : AlwaysDelivers mem events p) (h : Programs events p) : Clean events p := by
  let c : Cipher := fun _ ↦ Equiv.refl _
  obtain ⟨w, v, hd⟩ := hall (routines c id) c (implements_routines c id)
  refine ⟨(run_ok_iff _ mem events).mp ⟨w, hd.before⟩, ?_⟩
  by_cases hempty : p.insize = 0
  · exact .inl hempty
  · exact .inr (hall.decrypts h hempty)

theorem isolated_iff_delivers {events₁ events₂ : List Event} (h₁ : Programs events₁ p) (h₂ : Programs events₂ p) :
    Isolated mem events₁ events₂ p ↔ AlwaysDelivers mem events₁ p ∧ AlwaysDelivers mem events₂ p := by
  constructor
  · intro hisolated
    refine ⟨fun host c himpl ↦ ?_, fun host c himpl ↦ ?_⟩
    · obtain ⟨w₁, v₁, w₂, v₂, hd₁, hd₂, -⟩ := hisolated host c himpl
      exact ⟨w₁, v₁, hd₁⟩
    · obtain ⟨w₁, v₁, w₂, v₂, hd₁, hd₂, -⟩ := hisolated host c himpl
      exact ⟨w₂, v₂, hd₂⟩
  · rintro ⟨hall₁, hall₂⟩ host c himpl
    obtain ⟨w₁, v₁, hd₁⟩ := hall₁ host c himpl
    obtain ⟨w₂, v₂, hd₂⟩ := hall₂ host c himpl
    refine ⟨w₁, v₁, w₂, v₂, hd₁, hd₂, fun hsource ↦ ?_⟩
    rw [hd₁.output_eq h₁, hd₂.output_eq h₂, hsource]

theorem isolated_iff {events₁ events₂ : List Event} (h₁ : Programs events₁ p) (h₂ : Programs events₂ p) :
    Isolated mem events₁ events₂ p ↔ Clean events₁ p ∧ Clean events₂ p := by
  rw [isolated_iff_delivers h₁ h₂]
  constructor
  · rintro ⟨hall₁, hall₂⟩
    exact ⟨hall₁.clean h₁, hall₂.clean h₂⟩
  · rintro ⟨hclean₁, hclean₂⟩
    exact ⟨hclean₁.alwaysDelivers h₁ mem, hclean₂.alwaysDelivers h₂ mem⟩

end Operation

/-- The writes of a decryption of one block under a key whose first word is 2. -/
def blockWrites : List Event :=
  [.write 0x6c 0, .write 0x20 0x80001000, .write 0x28 0x80002000, .write 0x18 16, .write 0x14 0, .write 0x14 0,
    .write 0x4c 2]

def blockProgramming : Programming :=
  ⟨#v[2, 0, 0, 0, 0, 0, 0, 0], Vector.replicate 4 0, 0, 0, 16, 0x80001000, 0x80002000⟩

/-- An operation under a key whose first word is 1. -/
def operationWith (type : Word) : List Event := [.write 0x6c type, .write 0x4c 1, .write 0x4 1]

theorem sinceGo_operationWith (type : Word) : sinceGo (operationWith type ++ blockWrites) = blockWrites := rfl

theorem programs_of_sinceGo {events : List Event} (h : sinceGo events = blockWrites) :
    Programs events blockProgramming := by
  refine ⟨fun i ↦ ?_, fun i ↦ ?_, ?_, ?_, ?_, ?_, ?_, by decide, by decide⟩
  · rw [h]
    fin_cases i <;> rfl
  · rw [h]
    fin_cases i <;> rfl
  all_goals
    rw [h]
    decide

theorem isolated_after_operation :
    Isolated (fun _ ↦ 0) (operationWith aesCustom ++ blockWrites) blockWrites blockProgramming := by
  let host := routines (fun _ ↦ Equiv.refl _) id
  have hfits {events : List Event} {w : System} (h : run host (aesInit fun _ ↦ 0) events = .ok w) : Fits events :=
    (run_ok_iff host _ events).mp ⟨w, h⟩
  refine (isolated_iff (programs_of_sinceGo (sinceGo_operationWith _)) (programs_of_sinceGo rfl)).mpr ⟨?_, ?_⟩
  · refine ⟨hfits rfl, .inr ⟨rfl, rfl, fun i ↦ ?_, fun i ↦ ?_⟩⟩
    · fin_cases i <;> rfl
    · fin_cases i <;> rfl
  · refine ⟨hfits rfl, .inr ⟨rfl, rfl, fun i ↦ ?_, fun i ↦ ?_⟩⟩
    · fin_cases i <;> rfl
    · fin_cases i <;> rfl

theorem isolated_fails :
    Programs (operationWith aesGid ++ blockWrites) blockProgramming ∧ Programs blockWrites blockProgramming ∧
      ¬ Isolated (fun _ ↦ 0) (operationWith aesGid ++ blockWrites) blockWrites blockProgramming := by
  have h₁ := programs_of_sinceGo (sinceGo_operationWith aesGid)
  have h₂ : Programs blockWrites blockProgramming := programs_of_sinceGo rfl
  refine ⟨h₁, h₂, fun hisolated ↦ ?_⟩
  have hdecrypts := ((isolated_iff_delivers h₁ h₂).mp hisolated).1.decrypts h₁ (by decide)
  exact absurd (hdecrypts.key 0) (by decide)

end IDeviceEmulator.Aes
