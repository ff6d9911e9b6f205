import IDeviceEmulator.Arm.Cpu
import IDeviceEmulator.Library.Lanes
import IDeviceEmulator.Library.Words

namespace IDeviceEmulator.Arm.Parallel

open Lanes Words

section Saturation

variable {w : Nat} (a b : BitVec w)

/-- `add16_sat` and `add8_sat`. -/
def addSat : BitVec w :=
  let res := a + b
  if (res ^^^ a).msb ∧ ¬ (a ^^^ b).msb then if a.msb then BitVec.intMin w else BitVec.intMax w else res

/-- `sub16_sat` and `sub8_sat`. -/
def subSat : BitVec w :=
  let res := a - b
  if (res ^^^ a).msb ∧ (a ^^^ b).msb then if a.msb then BitVec.intMin w else BitVec.intMax w else res

/-- `add16_usat` and `add8_usat`. -/
def addUsat : BitVec w :=
  let res := a + b
  if res < a then BitVec.allOnes w else res

/-- `sub16_usat` and `sub8_usat`. -/
def subUsat : BitVec w := if b < a then a - b else 0

end Saturation

section Macros

/-- The value that a macro hands to `RESULT` and whether it sets the `GE` bits of its lane. -/
abbrev Outcome := Word × Bool

inductive Op
  | add
  | sub
deriving DecidableEq

def Op.apply {α : Type} [Add α] [Sub α] : Op → α → α → α
  | add, a, b => a + b
  | sub, a, b => a - b

/-- The prefixes that the template is instantiated with. -/
inductive Family
  | q
  | uq
  | s
  | u
  | sh
  | uh
deriving DecidableEq

/-- A macro that calls a function on lanes. -/
def call (w : Nat) (f : BitVec w → BitVec w → BitVec w) (a b : Word) : Outcome :=
  ((f (a.setWidth w) (b.setWidth w)).setWidth 32, false)

/-- `SARITH16` and `SARITH8`. -/
def sarith (w : Nat) (op : Op) (a b : Word) : Outcome :=
  let sum : Word := op.apply ((a.setWidth w).signExtend 32) ((b.setWidth w).signExtend 32)
  (sum, decide (0 ≤ sum.toInt))

/-- `ADD16` and `ADD8` of the unsigned modulo arithmetic. -/
def uadd (w : Nat) (a b : Word) : Outcome :=
  let sum : Word := (a.setWidth w).setWidth 32 + (b.setWidth w).setWidth 32
  (sum, decide (sum >>> w = 1))

/-- `SUB16` and `SUB8` of the unsigned modulo arithmetic. -/
def usub (w : Nat) (a b : Word) : Outcome :=
  let sum : Word := (a.setWidth w).setWidth 32 - (b.setWidth w).setWidth 32
  (sum, decide (sum >>> w = 0))

/-- The macros of the halved signed arithmetic. -/
def shalf (w : Nat) (op : Op) (a b : Word) : Outcome :=
  let sum : Word := op.apply ((a.setWidth w).signExtend 32) ((b.setWidth w).signExtend 32)
  (sum.sshiftRight 1, false)

/-- The macros of the halved unsigned arithmetic. -/
def uhalf (w : Nat) (op : Op) (a b : Word) : Outcome :=
  let sum : Word := op.apply ((a.setWidth w).setWidth 32) ((b.setWidth w).setWidth 32)
  (sum >>> 1, false)

/-- `ADD16`, `SUB16`, `ADD8` and `SUB8` of an instance. -/
def Family.arith (w : Nat) : Family → Op → Word → Word → Outcome
  | q, .add => call w addSat
  | q, .sub => call w subSat
  | uq, .add => call w addUsat
  | uq, .sub => call w subUsat
  | s, op => sarith w op
  | u, .add => uadd w
  | u, .sub => usub w
  | sh, op => shalf w op
  | uh, op => uhalf w op

end Macros

section Template

/-- `res` and `ge`, which stays 0 in the instances without `ARITH_GE`. -/
abbrev Acc := Word × Word

def geBits (w n : Nat) : Word := if w = 16 then 3#32 <<< (n * 2) else 1#32 <<< n

/-- One macro of the template. -/
def step (w : Nat) (f : Family) (op : Op) (a b : Word) (n : Nat) (acc : Acc) : Acc :=
  let val := f.arith w op a b
  (acc.1 ||| ((val.1.setWidth w).setWidth 32 <<< (w * n)), acc.2 ||| if val.2 then geBits w n else 0)

variable (f : Family) (a b : Word)

def arith16 (op : Op) : Acc := step 16 f op (a >>> 16) (b >>> 16) 1 (step 16 f op a b 0 (0, 0))

def arith8 (op : Op) : Acc :=
  step 8 f op (a >>> 24) (b >>> 24) 3 (step 8 f op (a >>> 16) (b >>> 16) 2
    (step 8 f op (a >>> 8) (b >>> 8) 1 (step 8 f op a b 0 (0, 0))))

def add16 : Acc := arith16 f a b .add
def add8 : Acc := arith8 f a b .add
def sub16 : Acc := arith16 f a b .sub
def sub8 : Acc := arith8 f a b .sub
def subaddx : Acc := step 16 f .sub (a >>> 16) b 1 (step 16 f .add a (b >>> 16) 0 (0, 0))
def addsubx : Acc := step 16 f .add (a >>> 16) b 1 (step 16 f .sub a (b >>> 16) 0 (0, 0))

end Template

section Exact

/-- How a family reads a lane. -/
def Family.value {w : Nat} (f : Family) (x : BitVec w) : Int :=
  match f with
  | q | s | sh => x.toInt
  | uq | u | uh => x.toNat

/-- What a family makes of an exact sum or difference. -/
def Family.finish (f : Family) (w : Nat) (z : Int) : BitVec w :=
  match f with
  | q => clampSigned w z
  | uq => clampUnsigned w z
  | s | u => BitVec.ofInt w z
  | sh | uh => BitVec.ofInt w (z / 2)

/-- When the `GE` bits of a lane are set. -/
def Family.setsGe (f : Family) (w : Nat) (op : Op) (z : Int) : Prop :=
  match f, op with
  | s, _ => 0 ≤ z
  | u, .add => 2 ^ w ≤ z
  | u, .sub => 0 ≤ z
  | _, _ => False

/-- The exact result of a lane. -/
def Family.exact {w : Nat} (f : Family) (op : Op) (x y : BitVec w) : Int := op.apply (f.value x) (f.value y)

variable {w : Nat} (a b : Word)

theorem addSat_eq (hw : 0 < w) (x y : BitVec w) : addSat x y = clampSigned w (x.toInt + y.toInt) := by
  have hxl := x.le_toInt
  have hyl := y.le_toInt
  have hxh := x.toInt_lt
  have hyh := y.toInt_lt
  have hover : ((x + y ^^^ x).msb = true ∧ ¬ (x ^^^ y).msb = true) ↔
      2 ^ (w - 1) ≤ x.toInt + y.toInt ∨ x.toInt + y.toInt < -2 ^ (w - 1) := by
    have h := BitVec.saddOverflow_eq x y
    rw [BitVec.saddOverflow, Bool.eq_iff_iff] at h
    simp only [Bool.or_eq_true, decide_eq_true_eq, ge_iff_le] at h
    rw [h, BitVec.msb_xor, BitVec.msb_xor]
    cases x.msb <;> cases y.msb <;> cases (x + y).msb <;> simp
  unfold addSat
  dsimp only
  by_cases hcond : 2 ^ (w - 1) ≤ x.toInt + y.toInt ∨ x.toInt + y.toInt < -2 ^ (w - 1)
  · rw [if_pos (hover.mpr hcond)]
    cases hmsb : x.msb with
    | true =>
      have hneg : x.toInt < 0 := BitVec.toInt_neg_of_msb_true hmsb
      rw [if_pos rfl, clampSigned_of_lt hw (by omega)]
    | false =>
      have hpos : 0 ≤ x.toInt := BitVec.toInt_nonneg_of_msb_false hmsb
      rw [if_neg (by decide), clampSigned_of_ge (by omega)]
  · rw [if_neg (mt hover.mp hcond), clampSigned_of_mem (by omega) (by omega), BitVec.ofInt_add, BitVec.ofInt_toInt,
      BitVec.ofInt_toInt]

theorem subSat_eq (hw : 0 < w) (x y : BitVec w) : subSat x y = clampSigned w (x.toInt - y.toInt) := by
  have hxl := x.le_toInt
  have hyl := y.le_toInt
  have hxh := x.toInt_lt
  have hyh := y.toInt_lt
  have hover : ((x - y ^^^ x).msb = true ∧ (x ^^^ y).msb = true) ↔
      2 ^ (w - 1) ≤ x.toInt - y.toInt ∨ x.toInt - y.toInt < -2 ^ (w - 1) := by
    have h := BitVec.ssubOverflow_eq x y
    rw [BitVec.ssubOverflow, Bool.eq_iff_iff] at h
    simp only [Bool.or_eq_true, decide_eq_true_eq, ge_iff_le] at h
    rw [h, BitVec.msb_xor, BitVec.msb_xor]
    cases x.msb <;> cases y.msb <;> cases (x - y).msb <;> simp
  unfold subSat
  dsimp only
  by_cases hcond : 2 ^ (w - 1) ≤ x.toInt - y.toInt ∨ x.toInt - y.toInt < -2 ^ (w - 1)
  · rw [if_pos (hover.mpr hcond)]
    cases hmsb : x.msb with
    | true =>
      have hneg : x.toInt < 0 := BitVec.toInt_neg_of_msb_true hmsb
      rw [if_pos rfl, clampSigned_of_lt hw (by omega)]
    | false =>
      have hpos : 0 ≤ x.toInt := BitVec.toInt_nonneg_of_msb_false hmsb
      rw [if_neg (by decide), clampSigned_of_ge (by omega)]
  · rw [if_neg (mt hover.mp hcond), clampSigned_of_mem (by omega) (by omega), ofInt_sub, BitVec.ofInt_toInt,
      BitVec.ofInt_toInt]

theorem natCast_two_pow_lt (x : BitVec w) : (x.toNat : Int) < 2 ^ w := by exact_mod_cast x.isLt

theorem addUsat_eq (x y : BitVec w) : addUsat x y = clampUnsigned w ((x.toNat : Int) + y.toNat) := by
  have hx := natCast_two_pow_lt x
  have hy := natCast_two_pow_lt y
  have hwrap : x + y < x ↔ (2 : Int) ^ w ≤ (x.toNat : Int) + y.toNat := by
    have hcast : ((2 ^ w : Nat) : Int) = 2 ^ w := by norm_cast
    rw [BitVec.lt_def, BitVec.toNat_add, ← hcast]
    rw [← hcast] at hx hy
    by_cases hlt : x.toNat + y.toNat < 2 ^ w
    · rw [Nat.mod_eq_of_lt hlt]
      omega
    · rw [Nat.mod_eq_sub_mod (by omega), Nat.mod_eq_of_lt (by omega)]
      omega
  unfold addUsat
  dsimp only
  by_cases hcond : (2 : Int) ^ w ≤ (x.toNat : Int) + y.toNat
  · rw [if_pos (hwrap.mpr hcond), clampUnsigned_of_ge hcond]
  · rw [if_neg (mt hwrap.mp hcond), clampUnsigned_of_mem (by omega) (by omega), BitVec.ofInt_add, ofInt_toNat,
      ofInt_toNat]

theorem subUsat_eq (x y : BitVec w) : subUsat x y = clampUnsigned w ((x.toNat : Int) - y.toNat) := by
  have hx := natCast_two_pow_lt x
  have hlt : y < x ↔ y.toNat < x.toNat := BitVec.lt_def
  unfold subUsat
  rw [if_congr hlt rfl rfl]
  by_cases hcond : y.toNat < x.toNat
  · rw [if_pos hcond, clampUnsigned_of_mem (by omega) (by omega), ofInt_sub, ofInt_toNat, ofInt_toNat]
  · rw [if_neg hcond]
    by_cases heq : y.toNat = x.toNat
    · rw [clampUnsigned_of_mem (by omega) (by omega), heq, Int.sub_self]
      rfl
    · rw [clampUnsigned_of_neg (by omega)]
      rfl

theorem Op.apply_ofInt (op : Op) (x y : Int) :
    op.apply (BitVec.ofInt w x) (BitVec.ofInt w y) = BitVec.ofInt w (op.apply x y) := by
  cases op with
  | add => exact (BitVec.ofInt_add x y).symm
  | sub => exact (ofInt_sub x y).symm

/-- The lanes of the source. -/
def LaneWidth (w : Nat) : Prop := w = 8 ∨ w = 16

theorem sum_signed (op : Op) (x y : BitVec w) :
    op.apply (x.signExtend 32) (y.signExtend 32) = BitVec.ofInt 32 (op.apply x.toInt y.toInt) :=
  op.apply_ofInt _ _

theorem sum_unsigned (op : Op) (x y : BitVec w) :
    op.apply (x.setWidth 32) (y.setWidth 32) = BitVec.ofInt 32 (op.apply (x.toNat : Int) y.toNat) := by
  rw [setWidth_eq_ofInt, setWidth_eq_ofInt, op.apply_ofInt]

theorem setWidth_call (hw : w ≤ 32) (x : BitVec w) : (x.setWidth 32).setWidth w = x := by
  rw [BitVec.setWidth_setWidth_of_le _ hw, BitVec.setWidth_eq]

theorem signed_range (hw : LaneWidth w) (op : Op) (x y : BitVec w) :
    -2 ^ 31 ≤ op.apply x.toInt y.toInt ∧ op.apply x.toInt y.toInt < 2 ^ 31 := by
  have hxl := x.le_toInt
  have hyl := y.le_toInt
  have hxh := x.toInt_lt
  have hyh := y.toInt_lt
  rcases hw with rfl | rfl <;> cases op <;> simp only [Op.apply] <;> omega

theorem arith_lane (hw : LaneWidth w) (f : Family) (op : Op) :
    (f.arith w op a b).1.setWidth w = f.finish w (f.exact op (a.setWidth w) (b.setWidth w)) := by
  have hpos : 0 < w := by rcases hw with rfl | rfl <;> decide
  have hle : w ≤ 16 := by rcases hw with rfl | rfl <;> decide
  generalize hx : a.setWidth w = x
  generalize hy : b.setWidth w = y
  obtain ⟨hlow, hhigh⟩ := signed_range hw op x y
  cases f with
  | q =>
    cases op with
    | add =>
      refine (setWidth_call (by omega) _).trans ?_
      rw [hx, hy, addSat_eq hpos]
      rfl
    | sub =>
      refine (setWidth_call (by omega) _).trans ?_
      rw [hx, hy, subSat_eq hpos]
      rfl
  | uq =>
    cases op with
    | add =>
      refine (setWidth_call (by omega) _).trans ?_
      rw [hx, hy, addUsat_eq]
      rfl
    | sub =>
      refine (setWidth_call (by omega) _).trans ?_
      rw [hx, hy, subUsat_eq]
      rfl
  | s =>
    simp only [Family.arith, sarith, hx, hy, sum_signed]
    exact setWidth_ofInt (by omega) _
  | u =>
    have hsum := sum_unsigned op x y
    cases op with
    | add =>
      simp only [Op.apply] at hsum
      simp only [Family.arith, uadd, hx, hy, hsum]
      exact setWidth_ofInt (by omega) _
    | sub =>
      simp only [Op.apply] at hsum
      simp only [Family.arith, usub, hx, hy, hsum]
      exact setWidth_ofInt (by omega) _
  | sh =>
    simp only [Family.arith, shalf, hx, hy, sum_signed]
    rw [sshiftRight_ofInt (by decide) hlow hhigh, setWidth_ofInt (by omega)]
    rfl
  | uh =>
    simp only [Family.arith, uhalf, hx, hy, sum_unsigned]
    rw [setWidth_ushiftRight_ofInt (by omega)]
    rfl

theorem arith_ge (hw : LaneWidth w) (f : Family) (op : Op) :
    (f.arith w op a b).2 = true ↔ f.setsGe w op (f.exact op (a.setWidth w) (b.setWidth w)) := by
  generalize hx : a.setWidth w = x
  generalize hy : b.setWidth w = y
  cases f with
  | q => cases op <;> exact ⟨nofun, nofun⟩
  | uq => cases op <;> exact ⟨nofun, nofun⟩
  | s =>
    obtain ⟨hlow, hhigh⟩ := signed_range hw op x y
    simp only [Family.arith, sarith, hx, hy, sum_signed, BitVec.toInt_ofInt_eq_self (by decide : 0 < 32) hlow hhigh]
    exact decide_eq_true_iff
  | u =>
    have hsum := sum_unsigned op x y
    have hxl := x.isLt
    have hyl := y.isLt
    cases op with
    | add =>
      simp only [Op.apply] at hsum
      simp only [Family.arith, uadd, hx, hy, hsum, decide_eq_true_iff]
      rw [← BitVec.toNat_inj, BitVec.toNat_ushiftRight, BitVec.toNat_ofInt, Nat.shiftRight_eq_div_pow]
      simp only [Family.setsGe, Family.exact, Family.value, Op.apply]
      rcases hw with rfl | rfl
      · change _ = 1 ↔ _
        omega
      · change _ = 1 ↔ _
        omega
    | sub =>
      simp only [Op.apply] at hsum
      simp only [Family.arith, usub, hx, hy, hsum, decide_eq_true_iff]
      rw [← BitVec.toNat_inj, BitVec.toNat_ushiftRight, BitVec.toNat_ofInt, Nat.shiftRight_eq_div_pow]
      simp only [Family.setsGe, Family.exact, Family.value, Op.apply]
      rcases hw with rfl | rfl
      · change _ = 0 ↔ _
        omega
      · change _ = 0 ↔ _
        omega
  | sh => exact ⟨nofun, nofun⟩
  | uh => exact ⟨nofun, nofun⟩

end Exact

section Lanewise

inductive Form
  | add16
  | add8
  | sub16
  | sub8
  | subaddx
  | addsubx
deriving DecidableEq

def Form.helper : Form → Family → Word → Word → Acc
  | add16 => Parallel.add16
  | add8 => Parallel.add8
  | sub16 => Parallel.sub16
  | sub8 => Parallel.sub8
  | subaddx => Parallel.subaddx
  | addsubx => Parallel.addsubx

def Form.width : Form → Nat
  | add8 | sub8 => 8
  | add16 | sub16 | subaddx | addsubx => 16

/-- The operation of a lane. -/
def Form.op : Form → Nat → Op
  | add16, _ | add8, _ => .add
  | sub16, _ | sub8, _ => .sub
  | subaddx, k => if k = 0 then .add else .sub
  | addsubx, k => if k = 0 then .sub else .add

/-- The lane of the second operand that a lane of the first one meets. -/
def Form.partner : Form → Nat → Nat
  | add16, k | add8, k | sub16, k | sub8, k => k
  | subaddx, k | addsubx, k => 1 - k

instance (f : Family) (w : Nat) (op : Op) (z : Int) : Decidable (f.setsGe w op z) :=
  match f, op with
  | .s, .add | .s, .sub => inferInstanceAs (Decidable (0 ≤ z))
  | .u, .add => inferInstanceAs (Decidable (2 ^ w ≤ z))
  | .u, .sub => inferInstanceAs (Decidable (0 ≤ z))
  | .q, _ | .uq, _ | .sh, _ | .uh, _ => inferInstanceAs (Decidable False)

/-- The exact result of a lane of a form. -/
def Form.exact (form : Form) (f : Family) (a b : Word) (k : Nat) : Int :=
  f.exact (form.op k) (lane form.width k a) (lane form.width (form.partner k) b)

variable {w k : Nat}

theorem geBits_eq (hw : LaneWidth w) (n : Nat) : geBits w n = field 32 (w / 8) n := by
  rcases hw with rfl | rfl
  · change 1#32 <<< n = 1#32 <<< (1 * n)
    rw [Nat.one_mul]
  · change 3#32 <<< (n * 2) = 3#32 <<< (2 * n)
    rw [Nat.mul_comm]

/-- The lanes of `res` and the fields of `ge`, from the outcomes of the macros. -/
theorem lane_outcomes (hw : LaneWidth w) {vals : List Outcome} {v : Outcome} (hn : w * k + w ≤ 32)
    (hk : vals[k]? = some v) :
    lane w k (orFrom (fun j (v : Outcome) ↦ (v.1.setWidth w).setWidth 32 <<< (w * j)) 0#32 0 vals) = v.1.setWidth w ∧
      lane (w / 8) k (orFrom (fun j (v : Outcome) ↦ if v.2 then geBits w j else 0) 0#32 0 vals) =
        if v.2 then BitVec.allOnes (w / 8) else 0#(w / 8) := by
  have hge : Fills (w := w / 8) (fun j (v : Outcome) ↦ if v.2 then geBits w j else 0)
      (fun _ v ↦ if v.2 then BitVec.allOnes (w / 8) else 0#(w / 8)) := by
    intro i j v hn
    dsimp only
    rw [geBits_eq hw]
    exact fills_if i j v.2 hn
  have hres : Fills (fun j (v : Outcome) ↦ (v.1.setWidth w).setWidth 32 <<< (w * j)) (fun _ v ↦ v.1.setWidth w) :=
    fun i j v hn ↦ fills_shiftLeft i j (v.1.setWidth w) hn
  have hfield : w / 8 * k + w / 8 ≤ 32 := by rcases hw with rfl | rfl <;> omega
  constructor
  · rw [lane_orFrom hres hn, lane_zero, if_pos (Nat.zero_le k), Nat.sub_zero, hk, BitVec.zero_or]
    rfl
  · rw [lane_orFrom hge hfield, lane_zero, if_pos (Nat.zero_le k), Nat.sub_zero, hk, BitVec.zero_or]
    rfl

/-- The outcome of a lane of a form. -/
def Form.outcome (form : Form) (f : Family) (a b : Word) (k : Nat) : Outcome :=
  f.arith form.width (form.op k) (a >>> (form.width * k)) (b >>> (form.width * form.partner k))

theorem Form.helper_eq (form : Form) (f : Family) (a b : Word) :
    form.helper f a b =
      (orFrom (fun j (v : Outcome) ↦ (v.1.setWidth form.width).setWidth 32 <<< (form.width * j)) 0 0
        ((List.range (32 / form.width)).map (form.outcome f a b)),
      orFrom (fun j (v : Outcome) ↦ if v.2 then geBits form.width j else 0) 0 0
        ((List.range (32 / form.width)).map (form.outcome f a b))) := by
  cases form <;> rfl

/-- Every lane holds the exact sum or difference, and the `GE` bits of a lane are all ones or all zeros. -/
theorem parallel_lanewise (f : Family) (form : Form) (a b : Word) (k : Fin (32 / form.width)) :
    lane form.width k (form.helper f a b).1 = f.finish form.width (form.exact f a b k) ∧
      lane (form.width / 8) k (form.helper f a b).2 =
        if f.setsGe form.width (form.op k) (form.exact f a b k) then BitVec.allOnes _ else 0 := by
  have hw : LaneWidth form.width := by cases form <;> first | exact .inl rfl | exact .inr rfl
  have hn : form.width * k + form.width ≤ 32 := by
    have hmul := Nat.mul_le_mul_left form.width k.isLt
    have hdiv := Nat.mul_div_le 32 form.width
    rw [Nat.mul_succ] at hmul
    omega
  have hk : ((List.range (32 / form.width)).map (form.outcome f a b))[(k : Nat)]? = some (form.outcome f a b k) := by
    rw [List.getElem?_map, List.getElem?_range k.isLt]
    rfl
  obtain ⟨hres, hge⟩ := lane_outcomes hw hn hk
  rw [form.helper_eq]
  refine ⟨hres.trans ?_, hge.trans ?_⟩
  · rw [Form.outcome, arith_lane _ _ hw, setWidth_ushiftRight, setWidth_ushiftRight]
    rfl
  · refine if_congr ?_ rfl rfl
    rw [Form.outcome, arith_ge _ _ hw, setWidth_ushiftRight, setWidth_ushiftRight]
    rfl

end Lanewise

end IDeviceEmulator.Arm.Parallel
