import IDeviceEmulator.Arm.Cpsr
import IDeviceEmulator.Library.Scaling
import IDeviceEmulator.Library.Words

namespace IDeviceEmulator.Arm.Flags

open Masks Scaling Words

section Helpers

variable (s : Cpu) (a b x i : Word)

def addCc : Word × Cpu :=
  let result := a + b
  (result, { s with
    nf := result
    zf := result
    cf := if result < a then 1 else 0
    vf := (a ^^^ b ^^^ -1) &&& (a ^^^ result) })

def adcCc : Word × Cpu :=
  let result := if s.cf = 0 then a + b else a + b + 1
  (result, { s with
    cf := if s.cf = 0 then if result < a then 1 else 0 else if result ≤ a then 1 else 0
    vf := (a ^^^ b ^^^ -1) &&& (a ^^^ result)
    nf := result
    zf := result })

def subCc : Word × Cpu :=
  let result := a - b
  (result, { s with
    nf := result
    zf := result
    cf := if b ≤ a then 1 else 0
    vf := (a ^^^ b) &&& (a ^^^ result) })

def sbcCc : Word × Cpu :=
  let result := if s.cf = 0 then a - b - 1 else a - b
  (result, { s with
    cf := if s.cf = 0 then if b < a then 1 else 0 else if b ≤ a then 1 else 0
    vf := (a ^^^ b) &&& (a ^^^ result)
    nf := result
    zf := result })

/-- The shift byte. -/
def amount : Nat := (i &&& 0xff#32).toNat

def shlCc : Word × Cpu :=
  let shift := amount i
  if 32 ≤ shift then (0, { s with cf := if shift = 32 then x &&& 1 else 0 })
  else if shift ≠ 0 then (x <<< shift, { s with cf := (x >>> (32 - shift)) &&& 1 })
  else (x, s)

def shrCc : Word × Cpu :=
  let shift := amount i
  if 32 ≤ shift then (0, { s with cf := if shift = 32 then (x >>> 31) &&& 1 else 0 })
  else if shift ≠ 0 then (x >>> shift, { s with cf := (x >>> (shift - 1)) &&& 1 })
  else (x, s)

def sarCc : Word × Cpu :=
  let shift := amount i
  if 32 ≤ shift then (x.sshiftRight 31, { s with cf := (x >>> 31) &&& 1 })
  else if shift ≠ 0 then (x.sshiftRight shift, { s with cf := (x >>> (shift - 1)) &&& 1 })
  else (x, s)

def rorCc : Word × Cpu :=
  let shift1 := amount i
  let shift := shift1 &&& 0x1f
  if shift = 0 then (x, { s with cf := if shift1 ≠ 0 then (x >>> 31) &&& 1 else s.cf })
  else ((x >>> shift) ||| (x <<< (32 - shift)), { s with cf := (x >>> (shift - 1)) &&& 1 })

end Helpers

section Architecture

/-- What an addition with carry gives. -/
structure Sum where
  result : Word
  carry : Bool
  overflow : Bool
deriving DecidableEq

/-- `AddWithCarry`, with the carry and the overflow as differences from the exact sums. -/
def addWithCarry (x y : Word) (carryIn : Bool) : Sum :=
  let unsignedSum : Nat := x.toNat + y.toNat + carryIn.toNat
  let signedSum : Int := x.toInt + y.toInt + carryIn.toNat
  let result := BitVec.ofNat 32 unsignedSum
  { result
    carry := decide (result.toNat ≠ unsignedSum)
    overflow := decide (result.toInt ≠ signedSum) }

def cpsrC : Word := 0x20000000

/-- The condition flags in their places. -/
def nzcv (n z c v : Bool) : Word :=
  (if n then 0x80000000 else 0) ||| (if z then cpsrZ else 0) ||| (if c then cpsrC else 0) ||| (if v then 0x10000000 else 0)

inductive Arith
  | add
  | adc
  | sub
  | sbc
deriving DecidableEq

def Arith.helper : Arith → Cpu → Word → Word → Word × Cpu
  | add => addCc
  | adc => adcCc
  | sub => subCc
  | sbc => sbcCc

/-- What the instruction adds, where the status register gives the carry. -/
def Arith.sum (op : Arith) (psr a b : Word) : Sum :=
  match op with
  | add => addWithCarry a b false
  | adc => addWithCarry a b (psr.getLsbD 29)
  | sub => addWithCarry a (~~~b) true
  | sbc => addWithCarry a (~~~b) (psr.getLsbD 29)

inductive Shift
  | shl
  | shr
  | sar
  | ror
deriving DecidableEq

def Shift.helper : Shift → Cpu → Word → Word → Word × Cpu
  | shl => shlCc
  | shr => shrCc
  | sar => sarCc
  | ror => rorCc

def Shift.result (op : Shift) (x : Word) (n : Nat) : Word :=
  match op with
  | shl => BitVec.ofNat 32 (x.toNat * 2 ^ n)
  | shr => BitVec.ofNat 32 (x.toNat / 2 ^ n)
  | sar => BitVec.ofInt 32 (x.toInt / 2 ^ n)
  | ror => x.rotateRight n

/-- The last bit that a shift by a positive amount moves out. -/
def Shift.lastOut (op : Shift) (x : Word) (n : Nat) : Bool :=
  match op with
  | shl => (x.toNat * 2 ^ n).testBit 32
  | shr => x.toNat.testBit (n - 1)
  | sar => decide (x.toInt / 2 ^ (n - 1) % 2 = 1)
  | ror => x.getLsbD ((n - 1) % 32)

end Architecture

section Register

variable {s : Cpu}

/-- The status register without its condition flags. -/
def rest (s : Cpu) : Word :=
  s.uncachedCpsr ||| (s.qf <<< 27) ||| (s.thumb <<< 5) ||| ((s.condexecBits &&& 3#32) <<< 25) |||
    ((s.condexecBits &&& 0xfc#32) <<< 8) ||| (s.ge <<< 16)

theorem cpsrRead_eq (h : Represented s) :
    cpsrRead s = rest s ||| nzcv s.nf.msb (decide (s.zf = 0)) (decide (s.cf = 1)) s.vf.msb := by
  have hnf : s.nf &&& 0x80000000#32 = if s.nf.msb then 0x80000000#32 else 0 := BitVec.and_twoPow s.nf 31
  have hvf : (s.vf &&& 0x80000000#32) >>> 3 = if s.vf.msb then 0x10000000#32 else 0 := by
    have htop : s.vf &&& 0x80000000#32 = if s.vf.msb then 0x80000000#32 else 0 := BitVec.and_twoPow s.vf 31
    rw [htop]
    cases s.vf.msb <;> rfl
  have hzf : (if s.zf = 0 then (1 : Word) else 0) <<< 30 = if decide (s.zf = 0) then cpsrZ else 0 := by
    by_cases hz : s.zf = 0
    · simp only [hz, decide_true, if_true]
      rfl
    · simp only [hz, decide_false, if_false, Bool.false_eq_true]
      rfl
  have hcf : s.cf <<< 29 = if decide (s.cf = 1) then cpsrC else 0 := by
    rcases h.cf with hc | hc <;> rw [hc] <;> decide
  have hac (u n z c v q t j k g : Word) : u ||| n ||| z ||| c ||| v ||| q ||| t ||| j ||| k ||| g =
      (u ||| q ||| t ||| j ||| k ||| g) ||| (n ||| z ||| c ||| v) := by ac_rfl
  unfold cpsrRead rest nzcv
  dsimp only
  rw [hnf, hvf, hzf, hcf]
  exact hac _ _ _ _ _ _ _ _ _ _

/-- The other fields stay out of the condition flags. -/
theorem rest_and (h : Represented s) : rest s &&& cpsrNzcv = 0#32 := by
  have huncached : s.uncachedCpsr &&& cpsrNzcv = 0#32 := by
    have hmask : cachedCpsrBits &&& cpsrNzcv = cpsrNzcv := by decide
    rw [← hmask, ← BitVec.and_assoc, h.uncached, BitVec.zero_and]
  have hqf : (s.qf <<< 27) &&& cpsrNzcv = 0#32 := by rcases h.qf with hq | hq <;> rw [hq] <;> decide
  have hthumb : (s.thumb <<< 5) &&& cpsrNzcv = 0#32 := by rcases h.thumb with ht | ht <;> rw [ht] <;> decide
  have hit01 : ((s.condexecBits &&& 3#32) <<< 25) &&& cpsrNzcv = 0#32 := by
    rw [BitVec.shiftLeft_and_distrib, BitVec.and_assoc]
    exact BitVec.and_zero
  have hit27 : ((s.condexecBits &&& 0xfc#32) <<< 8) &&& cpsrNzcv = 0#32 := by
    rw [BitVec.shiftLeft_and_distrib, BitVec.and_assoc]
    exact BitVec.and_zero
  have hge : (s.ge <<< 16) &&& cpsrNzcv = 0#32 := by
    have hlow : s.ge &&& 0xf#32 = s.ge := by
      apply BitVec.eq_of_toNat_eq
      have hlt : s.ge.toNat < 2 ^ 4 := h.ge
      rw [BitVec.toNat_and]
      exact (Nat.and_two_pow_sub_one_eq_mod s.ge.toNat 4).trans (Nat.mod_eq_of_lt hlt)
    rw [← hlow, BitVec.shiftLeft_and_distrib, BitVec.and_assoc]
    exact BitVec.and_zero
  unfold rest
  simp only [BitVec.and_or_distrib_right, huncached, hqf, hthumb, hit01, hit27, hge, BitVec.or_zero]

theorem nzcv_and (n z c v : Bool) : nzcv n z c v &&& cpsrNzcv = nzcv n z c v := by
  revert n z c v
  decide

theorem cpsrRead_and (h : Represented s) : cpsrRead s &&& ~~~cpsrNzcv = rest s := by
  have hsplit (x : Word) : x &&& ~~~cpsrNzcv ||| x &&& cpsrNzcv = x := by
    rw [← BitVec.and_or_distrib_left]
    exact BitVec.and_allOnes
  have hnone : nzcv s.nf.msb (decide (s.zf = 0)) (decide (s.cf = 1)) s.vf.msb &&& ~~~cpsrNzcv = 0#32 := by
    rw [← nzcv_and, BitVec.and_assoc]
    exact BitVec.and_zero
  have hrest := hsplit (rest s)
  rw [rest_and h, BitVec.or_zero] at hrest
  rw [cpsrRead_eq h, BitVec.and_or_distrib_right, hnone, BitVec.or_zero, hrest]

/-- A helper that changes only the condition flags. -/
theorem cpsrRead_changed (h : Represented s) {n z c v : Word} (hc : c = 0 ∨ c = 1) :
    Represented { s with nf := n, zf := z, cf := c, vf := v } ∧
      cpsrRead { s with nf := n, zf := z, cf := c, vf := v } =
        (cpsrRead s &&& ~~~cpsrNzcv) ||| nzcv n.msb (decide (z = 0)) (decide (c = 1)) v.msb := by
  have hnew : Represented { s with nf := n, zf := z, cf := c, vf := v } :=
    ⟨h.uncached, hc, h.qf, h.thumb, h.ge, h.condexecBits⟩
  refine ⟨hnew, ?_⟩
  rw [cpsrRead_eq hnew, cpsrRead_and h]
  rfl

/-- The carry that the status register shows. -/
theorem carry_eq (h : Represented s) : (cpsrRead s).getLsbD 29 = decide (s.cf = 1) := by
  have hrest : (rest s).getLsbD 29 = false := by
    have hbit := bit_of_and (i := 29) (rest_and h)
    have hmask : cpsrNzcv.getLsbD 29 = true := by decide
    rwa [hmask, Bool.and_true, BitVec.getLsbD_zero] at hbit
  have hflag (n z c v : Bool) : (nzcv n z c v).getLsbD 29 = c := by
    revert n z c v
    decide
  rw [cpsrRead_eq h, BitVec.getLsbD_or, hrest, hflag, Bool.false_or]

end Register

section Sums

variable (x y : Word)

/-- The carry in as a word. -/
def carryWord (c : Bool) : Word := if c then 1 else 0

theorem toNat_carryWord (c : Bool) : (carryWord c).toNat = c.toNat := by cases c <;> rfl

theorem sum_result (c : Bool) : (addWithCarry x y c).result = x + y + carryWord c := by
  apply BitVec.eq_of_toNat_eq
  simp only [addWithCarry, BitVec.toNat_ofNat, BitVec.toNat_add, toNat_carryWord]
  omega

/-- The carry out, from a comparison of the result with an operand. -/
theorem sum_carry (c : Bool) :
    (addWithCarry x y c).carry =
      if c then decide (x + y + carryWord c ≤ x) else decide (x + y + carryWord c < x) := by
  have hx := x.isLt
  have hy := y.isLt
  rw [← sum_result]
  cases c <;> simp only [addWithCarry, Bool.toNat_false, Bool.toNat_true, Bool.false_eq_true, if_false, if_true,
    decide_eq_decide, BitVec.lt_def, BitVec.le_def, BitVec.toNat_ofNat] <;> omega

/-- The overflow, from the signs of the operands and of the result. -/
theorem sum_overflow (c : Bool) :
    (addWithCarry x y c).overflow = ((x ^^^ y ^^^ -1) &&& (x ^^^ (x + y + carryWord c))).msb := by
  have hones : (-1 : Word).msb = true := by decide
  have hx := x.isLt
  have hy := y.isLt
  have hc : c.toNat ≤ 1 := Bool.toNat_le c
  have hsigns (p q r : Bool) : ((p ^^ q ^^ true) && (p ^^ r)) = decide (p = q ∧ r ≠ p) := by
    revert p q r
    decide
  rw [BitVec.msb_and, BitVec.msb_xor, BitVec.msb_xor, BitVec.msb_xor, hones, hsigns, ← sum_result]
  simp only [addWithCarry, BitVec.msb_eq_decide, BitVec.toInt_eq_toNat_cond, BitVec.toNat_ofNat, decide_eq_decide, ne_eq]
  omega

theorem sub_eq_sum : x - y = x + ~~~y + carryWord true := by
  apply BitVec.eq_of_toNat_eq
  have hy := y.isLt
  simp only [BitVec.toNat_sub, BitVec.toNat_add, BitVec.toNat_not, toNat_carryWord, Bool.toNat_true]
  omega

theorem sub_one_eq_sum : x - y - 1 = x + ~~~y + carryWord false := by
  have hcancel : x + ~~~y + 1 - 1 = x + ~~~y := BitVec.add_sub_cancel _ _
  calc
    x - y - 1 = x + ~~~y + 1 - 1 := congrArg (· - 1) (sub_eq_sum x y)
    _ = x + ~~~y := hcancel
    _ = x + ~~~y + carryWord false := (BitVec.add_zero _).symm

/-- No borrow is a carry. -/
theorem not_borrow : decide (y ≤ x) = (addWithCarry x (~~~y) true).carry := by
  have hx := x.isLt
  have hy := y.isLt
  simp only [addWithCarry, Bool.toNat_true, decide_eq_decide, BitVec.le_def, BitVec.toNat_ofNat, BitVec.toNat_not]
  omega

theorem not_borrow_one : decide (y < x) = (addWithCarry x (~~~y) false).carry := by
  have hx := x.isLt
  have hy := y.isLt
  simp only [addWithCarry, Bool.toNat_false, decide_eq_decide, BitVec.lt_def, BitVec.toNat_ofNat, BitVec.toNat_not]
  omega

theorem xor_not_xor : x ^^^ ~~~y ^^^ -1 = x ^^^ y := by
  have hones : (-1 : Word) = BitVec.allOnes 32 := by decide
  rw [hones, BitVec.xor_assoc, BitVec.xor_allOnes, BitVec.not_not]

end Sums

section Arithmetic

variable {s : Cpu}

/-- The condition flags after a sum. -/
def Sum.flags (sum : Sum) : Word := nzcv sum.result.msb (decide (sum.result = 0)) sum.carry sum.overflow

/-- A helper that stores a sum, its carry as a number and its overflow as a sign. -/
theorem stored_sum (h : Represented s) (sum : Sum) {r c v : Word} (hr : r = sum.result)
    (hc : c = if sum.carry then 1 else 0) (hv : v.msb = sum.overflow) :
    Represented { s with nf := r, zf := r, cf := c, vf := v } ∧
      cpsrRead { s with nf := r, zf := r, cf := c, vf := v } = (cpsrRead s &&& ~~~cpsrNzcv) ||| sum.flags := by
  have hcases : c = 0 ∨ c = 1 := by
    rw [hc]
    cases sum.carry <;> decide
  have hcarry : decide (c = 1) = sum.carry := by
    rw [hc]
    cases sum.carry <;> decide
  obtain ⟨hnew, hread⟩ := cpsrRead_changed h (n := r) (z := r) (v := v) hcases
  refine ⟨hnew, hread.trans ?_⟩
  rw [hcarry, hv, hr]
  rfl

theorem ite_decide (p : Prop) [Decidable p] : (if p then (1 : Word) else 0) = if decide p = true then 1 else 0 :=
  if_congr decide_eq_true_iff.symm rfl rfl

/-- What an arithmetic helper does to the CPU. -/
def Arith.Correct (op : Arith) (s : Cpu) (a b : Word) : Prop :=
  (op.helper s a b).1 = (op.sum (cpsrRead s) a b).result ∧ Represented (op.helper s a b).2 ∧
    cpsrRead (op.helper s a b).2 = (cpsrRead s &&& ~~~cpsrNzcv) ||| (op.sum (cpsrRead s) a b).flags

theorem add_correct (h : Represented s) (a b : Word) : Arith.add.Correct s a b := by
  have hr : a + b = (addWithCarry a b false).result := by
    rw [sum_result]
    exact (BitVec.add_zero _).symm
  refine ⟨hr, stored_sum h (addWithCarry a b false) hr ?_ ?_⟩
  · rw [sum_carry, ← sum_result, ← hr, ite_decide]
    rfl
  · rw [sum_overflow, ← sum_result, ← hr]

theorem sub_correct (h : Represented s) (a b : Word) : Arith.sub.Correct s a b := by
  have hr : a - b = (addWithCarry a (~~~b) true).result := by rw [sum_result, sub_eq_sum]
  refine ⟨hr, stored_sum h (addWithCarry a (~~~b) true) hr ?_ ?_⟩
  · rw [ite_decide, not_borrow]
  · rw [sum_overflow, ← sum_result, ← hr, xor_not_xor]

theorem adc_correct (h : Represented s) (a b : Word) : Arith.adc.Correct s a b := by
  have hsum : Arith.adc.sum (cpsrRead s) a b = addWithCarry a b (decide (s.cf = 1)) := by
    rw [Arith.sum, carry_eq h]
  have hr : (if s.cf = 0 then a + b else a + b + 1) = (addWithCarry a b (decide (s.cf = 1))).result := by
    rw [sum_result]
    rcases h.cf with hc | hc <;> rw [hc]
    · exact (BitVec.add_zero _).symm
    · rfl
  rw [Arith.Correct, hsum]
  refine ⟨hr, stored_sum h (addWithCarry a b (decide (s.cf = 1))) hr ?_ ?_⟩
  · rw [sum_carry, ← sum_result, hr]
    rcases h.cf with hc | hc <;> rw [hc]
    · exact ite_decide _
    · exact ite_decide _
  · rw [sum_overflow, ← sum_result, hr]

theorem sbc_correct (h : Represented s) (a b : Word) : Arith.sbc.Correct s a b := by
  have hsum : Arith.sbc.sum (cpsrRead s) a b = addWithCarry a (~~~b) (decide (s.cf = 1)) := by
    rw [Arith.sum, carry_eq h]
  have hr : (if s.cf = 0 then a - b - 1 else a - b) = (addWithCarry a (~~~b) (decide (s.cf = 1))).result := by
    rw [sum_result]
    rcases h.cf with hc | hc <;> rw [hc]
    · exact sub_one_eq_sum a b
    · exact sub_eq_sum a b
  rw [Arith.Correct, hsum]
  refine ⟨hr, stored_sum h (addWithCarry a (~~~b) (decide (s.cf = 1))) hr ?_ ?_⟩
  · rcases h.cf with hc | hc <;> rw [hc]
    · exact (ite_decide _).trans (by rw [not_borrow_one]; rfl)
    · exact (ite_decide _).trans (by rw [not_borrow]; rfl)
  · rw [sum_overflow, ← sum_result, hr, xor_not_xor]

end Arithmetic

section Shifts

variable {s : Cpu} (x : Word) {n : Nat}

/-- The bit that a shift stores as the carry. -/
theorem bit_eq (k : Nat) : (x >>> k) &&& 1 = if x.getLsbD k then (1 : Word) else 0 := by
  have hone : (1 : Word) = BitVec.twoPow 32 0 := by decide
  rw [hone, BitVec.and_twoPow, BitVec.getLsbD_ushiftRight, Nat.add_zero]
  rfl

theorem shl_result (n : Nat) : x <<< n = Shift.shl.result x n := by
  apply BitVec.eq_of_toNat_eq
  rw [Shift.result, BitVec.toNat_shiftLeft, BitVec.toNat_ofNat, Nat.shiftLeft_eq]

theorem shr_result (n : Nat) : x >>> n = Shift.shr.result x n := by
  apply BitVec.eq_of_toNat_eq
  have hle := Nat.div_le_self x.toNat (2 ^ n)
  rw [Shift.result, BitVec.toNat_ushiftRight, BitVec.toNat_ofNat, Nat.shiftRight_eq_div_pow,
    Nat.mod_eq_of_lt (Nat.lt_of_le_of_lt hle x.isLt)]

theorem sar_result (n : Nat) : x.sshiftRight n = Shift.sar.result x n := by
  have hshift := sshiftRight_ofInt (by decide : 0 < 32) x.le_toInt x.toInt_lt n
  rwa [BitVec.ofInt_toInt] at hshift

/-- Beyond the width only copies of the sign come in. -/
theorem sar_result_far (h : 31 ≤ n) : x.sshiftRight 31 = Shift.sar.result x n := by
  rw [sar_result, Shift.result, Shift.result, ediv_two_pow_of_signed x.le_toInt x.toInt_lt (Nat.le_refl 31),
    ediv_two_pow_of_signed x.le_toInt x.toInt_lt h]

theorem shl_lastOut (n : Nat) : Shift.shl.lastOut x n = (decide (n ≤ 32) && x.getLsbD (32 - n)) :=
  Nat.testBit_mul_two_pow x.toNat 32 n

theorem sar_lastOut (n : Nat) : Shift.sar.lastOut x n = if n - 1 < 32 then x.getLsbD (n - 1) else x.msb := by
  have hbit : (x.sshiftRight (n - 1)).getLsbD 0 = Shift.sar.lastOut x n := by
    rw [sar_result, BitVec.getLsbD, Shift.result, BitVec.toNat_ofInt, Nat.testBit_zero, Shift.lastOut]
    generalize x.toInt / 2 ^ (n - 1) = z
    rw [decide_eq_decide]
    omega
  rw [← hbit, BitVec.getLsbD_sshiftRight]
  simp

theorem msb_eq_bit : x.msb = x.getLsbD 31 := BitVec.msb_eq_getLsbD_last x

variable {x}

/-- A helper that changes only the carry. -/
theorem stored_carry (h : Represented s) (bit : Bool) {c : Word} (hc : c = if bit then 1 else 0) :
    Represented { s with cf := c } ∧
      cpsrRead { s with cf := c } = (cpsrRead s &&& ~~~cpsrC) ||| if bit then cpsrC else 0 := by
  have hcases : c = 0 ∨ c = 1 := by
    rw [hc]
    cases bit <;> decide
  have hcarry : decide (c = 1) = bit := by
    rw [hc]
    cases bit <;> decide
  have hnew : Represented { s with cf := c } := ⟨h.uncached, hcases, h.qf, h.thumb, h.ge, h.condexecBits⟩
  have hflags (n z k v b : Bool) : nzcv n z b v = (nzcv n z k v &&& ~~~cpsrC) ||| if b then cpsrC else 0 := by
    revert n z k v b
    decide
  have hrest : rest s &&& ~~~cpsrC = rest s := by
    have hmask : ~~~cpsrNzcv &&& ~~~cpsrC = ~~~cpsrNzcv := by decide
    rw [← cpsrRead_and h, BitVec.and_assoc, hmask]
  refine ⟨hnew, ?_⟩
  rw [cpsrRead_eq hnew, cpsrRead_eq h, BitVec.and_or_distrib_right, hrest, hcarry, BitVec.or_assoc, ← hflags]
  rfl

/-- What a shift helper does to the CPU. -/
def Shift.Correct (op : Shift) (s : Cpu) (x i : Word) : Prop :=
  (op.helper s x i).1 = op.result x (amount i) ∧ Represented (op.helper s x i).2 ∧
    cpsrRead (op.helper s x i).2 =
      if amount i = 0 then cpsrRead s
      else (cpsrRead s &&& ~~~cpsrC) ||| if op.lastOut x (amount i) then cpsrC else 0

/-- From what a helper returns for an amount that is not zero. -/
theorem Shift.correct_of_carry {op : Shift} (h : Represented s) {i c : Word} (hn : amount i ≠ 0)
    (hhelper : op.helper s x i = (op.result x (amount i), { s with cf := c }))
    (hc : c = if op.lastOut x (amount i) then 1 else 0) : op.Correct s x i := by
  obtain ⟨hnew, hread⟩ := stored_carry h _ hc
  rw [Shift.Correct, hhelper, if_neg hn]
  exact ⟨rfl, hnew, hread⟩

theorem Shift.correct_of_zero {op : Shift} (h : Represented s) {i : Word} (hn : amount i = 0)
    (hhelper : op.helper s x i = (op.result x (amount i), s)) : op.Correct s x i := by
  rw [Shift.Correct, hhelper, if_pos hn]
  exact ⟨rfl, h, rfl⟩

theorem shl_correct (h : Represented s) (x i : Word) : Shift.shl.Correct s x i := by
  by_cases hn : amount i = 0
  · refine Shift.correct_of_zero h hn ?_
    rw [← shl_result, hn, BitVec.shiftLeft_zero, Shift.helper, shlCc, hn]
    rfl
  refine Shift.correct_of_carry h hn (c := if amount i ≤ 32 then (x >>> (32 - amount i)) &&& 1 else 0) ?_ ?_
  · rw [Shift.helper, shlCc]
    by_cases hfar : 32 ≤ amount i
    · have hresult : x <<< amount i = 0 := BitVec.shiftLeft_eq_zero hfar
      rw [if_pos hfar, ← shl_result, hresult]
      by_cases heq : amount i = 32
      · rw [heq]
        rfl
      · rw [if_neg heq, if_neg (by omega)]
    · rw [if_neg hfar, if_pos hn, shl_result, if_pos (by omega)]
  · rw [shl_lastOut, bit_eq]
    by_cases hle : amount i ≤ 32
    · rw [if_pos hle, decide_eq_true hle, Bool.true_and]
    · rw [if_neg hle, decide_eq_false hle, Bool.false_and]
      rfl

theorem shr_correct (h : Represented s) (x i : Word) : Shift.shr.Correct s x i := by
  by_cases hn : amount i = 0
  · refine Shift.correct_of_zero h hn ?_
    rw [← shr_result, hn, BitVec.ushiftRight_zero, Shift.helper, shrCc, hn]
    rfl
  refine Shift.correct_of_carry h hn (c := (x >>> (amount i - 1)) &&& 1) ?_ (bit_eq x _)
  rw [Shift.helper, shrCc]
  by_cases hfar : 32 ≤ amount i
  · have hresult : x >>> amount i = 0 := BitVec.ushiftRight_eq_zero hfar
    rw [if_pos hfar, ← shr_result, hresult]
    by_cases heq : amount i = 32
    · rw [heq]
      rfl
    · have hout : x >>> (amount i - 1) = 0 := BitVec.ushiftRight_eq_zero (by omega)
      rw [if_neg heq, hout]
      rfl
  · rw [if_neg hfar, if_pos hn, shr_result]

theorem sar_correct (h : Represented s) (x i : Word) : Shift.sar.Correct s x i := by
  by_cases hn : amount i = 0
  · refine Shift.correct_of_zero h hn ?_
    rw [← sar_result, hn, BitVec.sshiftRight_zero, Shift.helper, sarCc, hn]
    rfl
  refine Shift.correct_of_carry h hn
    (c := if amount i - 1 < 32 then (x >>> (amount i - 1)) &&& 1 else (x >>> 31) &&& 1) ?_ ?_
  · rw [Shift.helper, sarCc]
    by_cases hfar : 32 ≤ amount i
    · rw [if_pos hfar, sar_result_far x (show 31 ≤ amount i by omega)]
      by_cases heq : amount i = 32
      · rw [heq]
        rfl
      · rw [if_neg (by omega)]
    · rw [if_neg hfar, if_pos hn, sar_result, if_pos (by omega)]
  · rw [sar_lastOut, bit_eq, bit_eq, ← msb_eq_bit]
    split_ifs <;> rfl

theorem ror_correct (h : Represented s) (x i : Word) : Shift.ror.Correct s x i := by
  have hmod : amount i &&& 0x1f = amount i % 32 := Nat.and_two_pow_sub_one_eq_mod (amount i) 5
  have hrotate : Shift.ror.result x (amount i) = (x >>> (amount i % 32)) ||| (x <<< (32 - amount i % 32)) :=
    BitVec.rotateRight_def
  have hwhole : amount i % 32 = 0 → Shift.ror.result x (amount i) = x := by
    intro hzero
    rw [hrotate, hzero, BitVec.ushiftRight_zero, BitVec.shiftLeft_eq_zero (Nat.le_refl 32)]
    exact BitVec.or_zero
  by_cases hn : amount i = 0
  · refine Shift.correct_of_zero h hn ?_
    rw [hwhole (by omega), Shift.helper, rorCc, hmod, hn]
    rfl
  refine Shift.correct_of_carry h hn (c := (x >>> ((amount i - 1) % 32)) &&& 1) ?_ (bit_eq x _)
  rw [Shift.helper, rorCc]
  rw [hmod]
  by_cases hzero : amount i % 32 = 0
  · rw [if_pos hzero, hwhole hzero, if_pos hn, show (amount i - 1) % 32 = 31 by omega]
  · rw [if_neg hzero, hrotate, show amount i % 32 - 1 = (amount i - 1) % 32 by omega]

end Shifts

section Correctness

/-- The helpers return and set what the architecture says, and keep the fields in the form that this relies on. -/
theorem flags_architectural {s : Cpu} (h : Represented s) :
    (∀ (op : Arith) (a b : Word), op.Correct s a b) ∧ ∀ (op : Shift) (x i : Word), op.Correct s x i := by
  refine ⟨fun op a b ↦ ?_, fun op x i ↦ ?_⟩
  · cases op with
    | add => exact add_correct h a b
    | adc => exact adc_correct h a b
    | sub => exact sub_correct h a b
    | sbc => exact sbc_correct h a b
  · cases op with
    | shl => exact shl_correct h x i
    | shr => exact shr_correct h x i
    | sar => exact sar_correct h x i
    | ror => exact ror_correct h x i

theorem flags_architectural_reset :
    Represented {} ∧ Arith.sbc.Correct {} 5 5 ∧ Shift.sar.Correct {} 0x80000000 40 :=
  have h : Represented {} := ⟨by decide, by decide, by decide, by decide, by decide, by decide⟩
  ⟨h, (flags_architectural h).1 .sbc 5 5, (flags_architectural h).2 .sar 0x80000000 40⟩

end Correctness

end IDeviceEmulator.Arm.Flags
