import IDeviceEmulator.Arm.Fpscr
import IDeviceEmulator.Library.Lanes
import IDeviceEmulator.Library.Scaling
import IDeviceEmulator.Library.Words

namespace IDeviceEmulator.Arm.Shifts

open Fpscr Lanes Scaling Words

section Macros

variable {w : Nat}

/-- `int8_t tmp` of the macros and `int8_t shift` of the functions. -/
def amount (src2 : BitVec w) : Int := (src2.setWidth 8).toInt

/-- The saturated value of the macros. -/
def topBitLimit (src1 : BitVec w) : BitVec w :=
  let dest := (1#32 <<< (w - 1)).setWidth w
  if 0 < src1.toInt then dest - 1 else dest

/-- The saturated value of the functions, with `SIGNBIT` or `SIGNBIT64`. -/
def signBitLimit (src1 : BitVec w) : BitVec w := src1.sshiftRight (w - 1) ^^^ ~~~BitVec.intMin w

/-- An unsigned rounding shift to the right in `p` bits. -/
def roundU (p : Nat) (src1 : BitVec w) (tmp : Int) : BitVec w :=
  ((src1.setWidth p + (1#32 <<< (-1 - tmp).toNat).signExtend p) >>> (-tmp).toNat).setWidth w

/-- A signed rounding shift to the right in `p` bits. -/
def roundS (p : Nat) (src1 : BitVec w) (tmp : Int) : BitVec w :=
  ((src1.signExtend p + (1#32 <<< (-1 - tmp).toNat).signExtend p).sshiftRight (-tmp).toNat).setWidth w

/-- The rounding of `neon_rshl_u64` and `neon_qrshl_u64`. -/
def roundU64 (val : BitVec 64) (shift : Int) : BitVec 64 :=
  let val := val >>> (-shift - 1).toNat
  if val = BitVec.allOnes 64 then 0x8000000000000000 else (val + 1) >>> 1

/-- The rounding of `neon_rshl_s64` and `neon_qrshl_s64`. -/
def roundS64 (val : BitVec 64) (shift : Int) : BitVec 64 :=
  let val := val.sshiftRight (-shift - 1).toNat
  if val = BitVec.intMax 64 then 0x4000000000000000 else (val + 1).sshiftRight 1

/-- A saturating shift to the left by the width of the element or more. -/
def farLeft (limit src1 : BitVec w) : Saturated w := if src1 ≠ 0 then (limit, true) else (0, false)

def nearLeftU (p : Nat) (src1 : BitVec w) (tmp : Int) : Saturated w :=
  let dest := (src1.setWidth p <<< tmp.toNat).setWidth w
  if dest.setWidth p >>> tmp.toNat ≠ src1.setWidth p then (BitVec.allOnes w, true) else (dest, false)

def nearLeftS (p : Nat) (limit src1 : BitVec w) (tmp : Int) : Saturated w :=
  let dest := (src1.signExtend p <<< tmp.toNat).setWidth w
  if (dest.signExtend p).sshiftRight tmp.toNat ≠ src1.signExtend p then (limit, true) else (dest, false)

variable (p : Nat) (limit : BitVec w → BitVec w) (round : BitVec w → Int → BitVec w) (src1 src2 : BitVec w)

/-- `NEON_FN` of `shl_u8`, `shl_u16` and `shl_u32`, and `neon_shl_u64`, with the element promoted to `p` bits. -/
def shlU : Saturated w :=
  let tmp := amount src2
  if w ≤ tmp ∨ tmp ≤ -w then (0, false)
  else if tmp < 0 then ((src1.setWidth p >>> (-tmp).toNat).setWidth w, false)
  else ((src1.setWidth p <<< tmp.toNat).setWidth w, false)

/-- `NEON_FN` of `shl_s8`, `shl_s16` and `shl_s32`, and `neon_shl_s64`. -/
def shlS : Saturated w :=
  let tmp := amount src2
  if w ≤ tmp then (0, false)
  else if tmp ≤ -w then (((src1.signExtend p).sshiftRight (w - 1)).setWidth w, false)
  else if tmp < 0 then (((src1.signExtend p).sshiftRight (-tmp).toNat).setWidth w, false)
  else ((src1.signExtend p <<< tmp.toNat).setWidth w, false)

/-- `NEON_FN` of `rshl_s8` and `rshl_s16`, `neon_rshl_s32` and `neon_rshl_s64`. -/
def rshlS : Saturated w :=
  let tmp := amount src2
  if w ≤ tmp ∨ tmp ≤ -w then (0, false)
  else if tmp < 0 then (round src1 tmp, false)
  else ((src1.signExtend p <<< tmp.toNat).setWidth w, false)

/-- `NEON_FN` of `rshl_u8` and `rshl_u16`, `neon_rshl_u32` and `neon_rshl_u64`. -/
def rshlU : Saturated w :=
  let tmp := amount src2
  if w ≤ tmp ∨ tmp < -w then (0, false)
  else if tmp = -w then ((src1.setWidth p >>> (-tmp - 1).toNat).setWidth w, false)
  else if tmp < 0 then (round src1 tmp, false)
  else ((src1.setWidth p <<< tmp.toNat).setWidth w, false)

/-- `NEON_FN` of `qshl_u8`, `qshl_u16` and `qshl_u32`, and `neon_qshl_u64`. -/
def qshlU : Saturated w :=
  let tmp := amount src2
  if w ≤ tmp then farLeft (BitVec.allOnes w) src1
  else if tmp ≤ -w then (0, false)
  else if tmp < 0 then ((src1.setWidth p >>> (-tmp).toNat).setWidth w, false)
  else nearLeftU p src1 tmp

/-- `NEON_FN` of `qshl_s8`, `qshl_s16` and `qshl_s32`, and `neon_qshl_s64`. -/
def qshlS : Saturated w :=
  let tmp := amount src2
  if w ≤ tmp then farLeft (limit src1) src1
  else if tmp ≤ -w then (((src1.signExtend p).sshiftRight (p - 1)).setWidth w, false)
  else if tmp < 0 then (((src1.signExtend p).sshiftRight (-tmp).toNat).setWidth w, false)
  else nearLeftS p (limit src1) src1 tmp

/-- `NEON_FN` of `qshlu_s8` and `qshlu_s16`, `neon_qshlu_s32` and `neon_qshlu_s64`. -/
def qshluS : Saturated w := if src1.msb then (0, true) else qshlU p src1 src2

/-- `NEON_FN` of `qrshl_u8` and `qrshl_u16`, `neon_qrshl_u32` and `neon_qrshl_u64`. -/
def qrshlU : Saturated w :=
  let tmp := amount src2
  if w ≤ tmp then farLeft (BitVec.allOnes w) src1
  else if tmp < -w then (0, false)
  else if tmp = -w then ((src1.setWidth p >>> (w - 1)).setWidth w, false)
  else if tmp < 0 then (round src1 tmp, false)
  else nearLeftU p src1 tmp

/-- `NEON_FN` of `qrshl_s8` and `qrshl_s16`, `neon_qrshl_s32` and `neon_qrshl_s64`. -/
def qrshlS : Saturated w :=
  let tmp := amount src2
  if w ≤ tmp then farLeft (limit src1) src1
  else if tmp ≤ -w then (0, false)
  else if tmp < 0 then (round src1 tmp, false)
  else nearLeftS p (limit src1) src1 tmp

end Macros

section Helpers

def neonShlU8 : Word → Word → Saturated 32 := vop8 (shlU 32)
def neonShlU16 : Word → Word → Saturated 32 := vop16 (shlU 32)
def neonShlU32 : Word → Word → Saturated 32 := shlU 32
def neonShlU64 : BitVec 64 → BitVec 64 → Saturated 64 := shlU 64
def neonShlS8 : Word → Word → Saturated 32 := vop8 (shlS 32)
def neonShlS16 : Word → Word → Saturated 32 := vop16 (shlS 32)
def neonShlS32 : Word → Word → Saturated 32 := shlS 32
def neonShlS64 : BitVec 64 → BitVec 64 → Saturated 64 := shlS 64
def neonRshlS8 : Word → Word → Saturated 32 := vop8 (rshlS 32 (roundS 32))
def neonRshlS16 : Word → Word → Saturated 32 := vop16 (rshlS 32 (roundS 32))
def neonRshlS32 : Word → Word → Saturated 32 := rshlS 32 (roundS 64)
def neonRshlS64 : BitVec 64 → BitVec 64 → Saturated 64 := rshlS 64 roundS64
def neonRshlU8 : Word → Word → Saturated 32 := vop8 (rshlU 32 (roundU 32))
def neonRshlU16 : Word → Word → Saturated 32 := vop16 (rshlU 32 (roundU 32))
def neonRshlU32 : Word → Word → Saturated 32 := rshlU 32 (roundU 64)
def neonRshlU64 : BitVec 64 → BitVec 64 → Saturated 64 := rshlU 64 roundU64
def neonQshlU8 : Word → Word → Saturated 32 := vop8 (qshlU 32)
def neonQshlU16 : Word → Word → Saturated 32 := vop16 (qshlU 32)
def neonQshlU32 : Word → Word → Saturated 32 := qshlU 32
def neonQshlU64 : BitVec 64 → BitVec 64 → Saturated 64 := qshlU 64
def neonQshlS8 : Word → Word → Saturated 32 := vop8 (qshlS 32 topBitLimit)
def neonQshlS16 : Word → Word → Saturated 32 := vop16 (qshlS 32 topBitLimit)
def neonQshlS32 : Word → Word → Saturated 32 := qshlS 32 topBitLimit
def neonQshlS64 : BitVec 64 → BitVec 64 → Saturated 64 := qshlS 64 signBitLimit
def neonQshluS8 : Word → Word → Saturated 32 := vop8 (qshluS 32)
def neonQshluS16 : Word → Word → Saturated 32 := vop16 (qshluS 32)
def neonQshluS32 : Word → Word → Saturated 32 := qshluS 32
def neonQshluS64 : BitVec 64 → BitVec 64 → Saturated 64 := qshluS 64
def neonQrshlU8 : Word → Word → Saturated 32 := vop8 (qrshlU 32 (roundU 32))
def neonQrshlU16 : Word → Word → Saturated 32 := vop16 (qrshlU 32 (roundU 32))
def neonQrshlU32 : Word → Word → Saturated 32 := qrshlU 32 (roundU 64)
def neonQrshlU64 : BitVec 64 → BitVec 64 → Saturated 64 := qrshlU 64 roundU64
def neonQrshlS8 : Word → Word → Saturated 32 := vop8 (qrshlS 32 topBitLimit (roundS 32))
def neonQrshlS16 : Word → Word → Saturated 32 := vop16 (qrshlS 32 topBitLimit (roundS 32))
def neonQrshlS32 : Word → Word → Saturated 32 := qrshlS 32 signBitLimit (roundS 64)
def neonQrshlS64 : BitVec 64 → BitVec 64 → Saturated 64 := qrshlS 64 signBitLimit roundS64

/-- The helpers of one kind, for the four sizes of elements. -/
inductive Family
  | shlU
  | shlS
  | rshlU
  | rshlS
  | qshlU
  | qshlS
  | qshluS
  | qrshlU
  | qrshlS
deriving DecidableEq

inductive Width
  | w8
  | w16
  | w32
  | w64
deriving DecidableEq

def Width.bits : Width → Nat
  | w8 => 8
  | w16 => 16
  | w32 => 32
  | w64 => 64

/-- The operands of the helpers. -/
def Width.operand : Width → Nat
  | w8 | w16 | w32 => 32
  | w64 => 64

def Width.lanes : Width → Nat
  | w8 => 4
  | w16 => 2
  | w32 | w64 => 1

def Family.helper : Family → (v : Width) → BitVec v.operand → BitVec v.operand → Saturated v.operand
  | shlU, .w8 => neonShlU8
  | shlU, .w16 => neonShlU16
  | shlU, .w32 => neonShlU32
  | shlU, .w64 => neonShlU64
  | shlS, .w8 => neonShlS8
  | shlS, .w16 => neonShlS16
  | shlS, .w32 => neonShlS32
  | shlS, .w64 => neonShlS64
  | rshlU, .w8 => neonRshlU8
  | rshlU, .w16 => neonRshlU16
  | rshlU, .w32 => neonRshlU32
  | rshlU, .w64 => neonRshlU64
  | rshlS, .w8 => neonRshlS8
  | rshlS, .w16 => neonRshlS16
  | rshlS, .w32 => neonRshlS32
  | rshlS, .w64 => neonRshlS64
  | qshlU, .w8 => neonQshlU8
  | qshlU, .w16 => neonQshlU16
  | qshlU, .w32 => neonQshlU32
  | qshlU, .w64 => neonQshlU64
  | qshlS, .w8 => neonQshlS8
  | qshlS, .w16 => neonQshlS16
  | qshlS, .w32 => neonQshlS32
  | qshlS, .w64 => neonQshlS64
  | qshluS, .w8 => neonQshluS8
  | qshluS, .w16 => neonQshluS16
  | qshluS, .w32 => neonQshluS32
  | qshluS, .w64 => neonQshluS64
  | qrshlU, .w8 => neonQrshlU8
  | qrshlU, .w16 => neonQrshlU16
  | qrshlU, .w32 => neonQrshlU32
  | qrshlU, .w64 => neonQrshlU64
  | qrshlS, .w8 => neonQrshlS8
  | qrshlS, .w16 => neonQrshlS16
  | qrshlS, .w32 => neonQrshlS32
  | qrshlS, .w64 => neonQrshlS64

/-- A helper with its effect on the registers. -/
def Family.execute (f : Family) (v : Width) (a b : BitVec v.operand) (s : Vfp) : BitVec v.operand × Vfp :=
  let res := f.helper v a b
  (res.1, if res.2 then setQc s else s)

end Helpers

section Exact

variable {w : Nat}

/-- How a family reads an element. -/
def Family.value (f : Family) (x : BitVec w) : Int :=
  match f with
  | shlU | rshlU | qshlU | qrshlU => x.toNat
  | shlS | rshlS | qshlS | qshluS | qrshlS => x.toInt

def Family.rounds : Family → Bool
  | rshlU | rshlS | qrshlU | qrshlS => true
  | shlU | shlS | qshlU | qshlS | qshluS => false

/-- The exact result. -/
def Family.exact (f : Family) (x : BitVec w) (s : Int) : Int :=
  if 0 ≤ s then f.value x * 2 ^ s.toNat
  else if f.rounds then rounded (f.value x) s
  else scaled (f.value x) s

/-- What becomes of an exact result. -/
def Family.finish (f : Family) (w : Nat) (z : Int) : BitVec w :=
  match f with
  | shlU | shlS | rshlU | rshlS => BitVec.ofInt w z
  | qshlU | qshluS | qrshlU => clampUnsigned w z
  | qshlS | qrshlS => clampSigned w z

/-- An exact result outside of the destination of a saturating helper. -/
def Family.Clamped (f : Family) (w : Nat) (z : Int) : Prop :=
  match f with
  | shlU | shlS | rshlU | rshlS => False
  | qshlU | qshluS | qrshlU => z < 0 ∨ 2 ^ w ≤ z
  | qshlS | qrshlS => z < -2 ^ (w - 1) ∨ 2 ^ (w - 1) ≤ z

instance (f : Family) (w : Nat) (z : Int) : Decidable (f.Clamped w z) :=
  match f with
  | .shlU | .shlS | .rshlU | .rshlS => inferInstanceAs (Decidable False)
  | .qshlU | .qshluS | .qrshlU => inferInstanceAs (Decidable (z < 0 ∨ 2 ^ w ≤ z))
  | .qshlS | .qrshlS => inferInstanceAs (Decidable (z < -2 ^ (w - 1) ∨ 2 ^ (w - 1) ≤ z))

/-- The law of a family for one element. -/
def Family.law (f : Family) (x y : BitVec w) : Saturated w :=
  let z := f.exact x (amount y)
  (f.finish w z, decide (f.Clamped w z))

theorem Family.exact_left (f : Family) (x : BitVec w) (k : Nat) : f.exact x k = f.value x * 2 ^ k := by
  rw [Family.exact, if_pos (Int.natCast_nonneg k), Int.toNat_natCast]

theorem Family.exact_right (f : Family) (x : BitVec w) (k : Nat) :
    f.exact x (-(k + 1)) = if f.rounds then rounded (f.value x) (-(k + 1)) else f.value x / 2 ^ (k + 1) := by
  have hscaled : scaled (f.value x) (-(k + 1)) = f.value x / 2 ^ (k + 1) := scaled_neg (f.value x) (k + 1)
  rw [Family.exact, if_neg (by omega), hscaled]

/-- The law where nothing is clamped. -/
theorem Family.law_of_not_clamped (f : Family) {x y : BitVec w} {z : Int} (hz : f.exact x (amount y) = z)
    (h : ¬ f.Clamped w z) : f.law x y = (BitVec.ofInt w z, false) := by
  have hfinish : f.finish w z = BitVec.ofInt w z := by
    cases f with
    | shlU | shlS | rshlU | rshlS => rfl
    | qshlU | qshluS | qrshlU =>
      simp only [Family.Clamped, not_or, not_lt, not_le] at h
      exact clampUnsigned_of_mem h.1 h.2
    | qshlS | qrshlS =>
      simp only [Family.Clamped, not_or, not_lt, not_le] at h
      exact clampSigned_of_mem h.1 h.2
  rw [Family.law, hz, hfinish, decide_eq_false h]

end Exact

section Words

variable {w p k : Nat} (x : BitVec w)

theorem left_unsigned (hp : w ≤ p) : (x.setWidth p <<< k).setWidth w = BitVec.ofInt w (x.toNat * 2 ^ k) := by
  rw [setWidth_eq_ofInt x, shiftLeft_ofInt, setWidth_ofInt hp]

theorem left_signed (hp : w ≤ p) : (x.signExtend p <<< k).setWidth w = BitVec.ofInt w (x.toInt * 2 ^ k) := by
  rw [BitVec.signExtend, shiftLeft_ofInt, setWidth_ofInt hp]

theorem toNat_cast_lt : (x.toNat : Int) < 2 ^ w := by exact_mod_cast x.isLt

theorem right_unsigned (hp : w ≤ p) : (x.setWidth p >>> k).setWidth w = BitVec.ofInt w (x.toNat / 2 ^ k) := by
  have hlt := Int.lt_of_lt_of_le (toNat_cast_lt x) (two_pow_le_two_pow hp)
  rw [setWidth_eq_ofInt x, ushiftRight_ofInt (Int.natCast_nonneg _) hlt, setWidth_ofInt hp]

theorem toInt_range {n : Nat} (hn : w - 1 ≤ n) : -2 ^ n ≤ x.toInt ∧ x.toInt < 2 ^ n := by
  have hpow := two_pow_le_two_pow hn
  have hlow := x.le_toInt
  have hhigh := x.toInt_lt
  omega

theorem right_signed (hw : 0 < w) (hp : w ≤ p) :
    ((x.signExtend p).sshiftRight k).setWidth w = BitVec.ofInt w (x.toInt / 2 ^ k) := by
  obtain ⟨hlow, hhigh⟩ := toInt_range x (show w - 1 ≤ p - 1 by omega)
  rw [BitVec.signExtend, sshiftRight_ofInt (by omega) hlow hhigh, setWidth_ofInt hp]

/-- Nothing is left of a word that is shifted out. -/
theorem ofInt_mul_two_pow_of_le (h : w ≤ k) (z : Int) : BitVec.ofInt w (z * 2 ^ k) = 0#w := by
  have hdvd : (2 ^ w : Int) ∣ z * 2 ^ k := Dvd.dvd.mul_left (pow_dvd_pow 2 h) z
  rw [← Int.zero_add (z * 2 ^ k), ofInt_add_of_dvd hdvd]
  rfl

/-- A left shift can be undone exactly when nothing is lost. -/
theorem shifted_back_unsigned (hp : w ≤ p) :
    ((x.setWidth p <<< k).setWidth w).setWidth p >>> k = x.setWidth p ↔ (x.toNat : Int) * 2 ^ k < 2 ^ w := by
  have hcast : (x.toNat : Int) * 2 ^ k < 2 ^ w ↔ x.toNat * 2 ^ k < 2 ^ w := by exact_mod_cast Iff.rfl
  have hx : x.toNat < 2 ^ p := Nat.lt_of_lt_of_le x.isLt (Nat.pow_le_pow_right (by decide) hp)
  have hdest : ((x.setWidth p <<< k).setWidth w).toNat = x.toNat * 2 ^ k % 2 ^ w := by
    rw [left_unsigned x hp, show (x.toNat : Int) * 2 ^ k = ((x.toNat * 2 ^ k : Nat) : Int) by norm_cast,
      BitVec.ofInt_natCast, BitVec.toNat_ofNat]
  have hmod : x.toNat * 2 ^ k % 2 ^ w < 2 ^ p :=
    Nat.lt_of_lt_of_le (Nat.mod_lt _ (Nat.two_pow_pos w)) (Nat.pow_le_pow_right (by decide) hp)
  rw [hcast, ← BitVec.toNat_inj, BitVec.toNat_ushiftRight, BitVec.toNat_setWidth, hdest, BitVec.toNat_setWidth,
    Nat.mod_eq_of_lt hx, Nat.mod_eq_of_lt hmod, Nat.shiftRight_eq_div_pow]
  constructor
  · intro heq
    have hle := Nat.div_mul_le_self (x.toNat * 2 ^ k % 2 ^ w) (2 ^ k)
    rw [heq] at hle
    exact Nat.lt_of_le_of_lt hle (Nat.mod_lt _ (Nat.two_pow_pos w))
  · intro hlt
    rw [Nat.mod_eq_of_lt hlt, Nat.mul_div_cancel _ (Nat.two_pow_pos k)]

theorem shifted_back_signed (hw : 0 < w) (hp : w ≤ p) (hk : k ≤ w) :
    (((x.signExtend p <<< k).setWidth w).signExtend p).sshiftRight k = x.signExtend p ↔
      -2 ^ (w - 1) ≤ x.toInt * 2 ^ k ∧ x.toInt * 2 ^ k < 2 ^ (w - 1) := by
  have hpos := (two_pow_pos k).ne'
  rw [← BitVec.toInt_inj, BitVec.toInt_sshiftRight, BitVec.toInt_signExtend_of_le hp, BitVec.toInt_signExtend_of_le hp,
    left_signed x hp, Int.shiftRight_eq_div_pow]
  push_cast
  constructor
  · intro heq
    have hlow := (BitVec.ofInt w (x.toInt * 2 ^ k)).le_toInt
    have hhigh := (BitVec.ofInt w (x.toInt * 2 ^ k)).toInt_lt
    have hdvd : (2 ^ k : Int) ∣ (BitVec.ofInt w (x.toInt * 2 ^ k)).toInt := by
      have hsub : (2 ^ k : Int) ∣ (x.toInt * 2 ^ k).bmod (2 ^ w) - x.toInt * 2 ^ k := by
        refine dvd_trans (pow_dvd_pow 2 hk) ?_
        exact_mod_cast Int.dvd_bmod_sub_self
      rw [BitVec.toInt_ofInt]
      exact (dvd_sub_left (Dvd.intro_left _ rfl)).mp hsub
    have hexact : (BitVec.ofInt w (x.toInt * 2 ^ k)).toInt = x.toInt * 2 ^ k := by
      conv_rhs => rw [← heq]
      exact (Int.ediv_mul_cancel hdvd).symm
    rw [hexact] at hlow hhigh
    exact ⟨hlow, hhigh⟩
  · rintro ⟨hlow, hhigh⟩
    rw [BitVec.toInt_ofInt_eq_self hw hlow hhigh, Int.mul_ediv_cancel _ hpos]

/-- The two ways to build the saturated values. -/
def Limits (limit : BitVec w → BitVec w) : Prop :=
  ∀ x, x ≠ 0 → limit x = if x.toInt < 0 then BitVec.intMin w else BitVec.intMax w

theorem topBitLimit_limits (hw : w ≤ 32) : Limits (w := w) topBitLimit := by
  have htop : (1#32 <<< (w - 1)).setWidth w = BitVec.intMin w := by
    have hleft := shiftLeft_ofInt (w := 32) 1 (w - 1)
    have hright := shiftLeft_ofInt (w := w) 1 (w - 1)
    change (BitVec.ofInt 32 1 <<< (w - 1)).setWidth w = _
    rw [hleft, setWidth_ofInt hw, ← hright]
    rfl
  intro x hx
  have hne : x.toInt ≠ 0 := fun h ↦ hx (BitVec.toInt_inj.mp (h.trans BitVec.toInt_zero.symm))
  unfold topBitLimit
  dsimp only
  rw [htop]
  by_cases hneg : x.toInt < 0
  · rw [if_neg (by omega), if_pos hneg]
  · rw [if_pos (by omega), if_neg hneg]
    rfl

theorem signBitLimit_limits (hw : 0 < w) : Limits (w := w) signBitLimit := by
  intro x _
  have hshift : x.sshiftRight (w - 1) = if x.toInt < 0 then BitVec.allOnes w else 0#w := by
    have hsign := ediv_two_pow_of_signed x.le_toInt x.toInt_lt (Nat.le_refl (w - 1))
    have hofInt := sshiftRight_ofInt hw x.le_toInt x.toInt_lt (w - 1)
    rw [BitVec.ofInt_toInt, hsign] at hofInt
    rw [hofInt]
    split_ifs
    · exact BitVec.ofInt_neg.trans BitVec.neg_one_eq_allOnes
    · rfl
  have hnot : ~~~BitVec.intMin w = BitVec.intMax w := by
    have hneg := BitVec.neg_eq_not_add (BitVec.intMin w)
    rw [BitVec.neg_intMin] at hneg
    exact (BitVec.eq_sub_iff_add_eq.mpr hneg.symm)
  unfold signBitLimit
  rw [hshift]
  split_ifs
  · rw [BitVec.allOnes_xor, BitVec.not_not]
  · rw [BitVec.zero_xor, hnot]

end Words

section Saturating

variable {w p k : Nat} {x y : BitVec w} {z : Int} {f : Family}

theorem law_over_unsigned (hf : f = .qshlU ∨ f = .qrshlU) (hz : f.exact x (amount y) = z) (h : 2 ^ w ≤ z) :
    f.law x y = (BitVec.allOnes w, true) := by
  rw [Family.law, hz]
  rcases hf with rfl | rfl <;>
    exact congrArg₂ Prod.mk (clampUnsigned_of_ge h) (decide_eq_true (.inr h : z < 0 ∨ 2 ^ w ≤ z))

theorem law_over_signed (hf : f = .qshlS ∨ f = .qrshlS) (hz : f.exact x (amount y) = z) (h : 2 ^ (w - 1) ≤ z) :
    f.law x y = (BitVec.intMax w, true) := by
  rw [Family.law, hz]
  rcases hf with rfl | rfl <;>
    exact congrArg₂ Prod.mk (clampSigned_of_ge h)
      (decide_eq_true (.inr h : z < -2 ^ (w - 1) ∨ 2 ^ (w - 1) ≤ z))

theorem law_under_signed (hw : 0 < w) (hf : f = .qshlS ∨ f = .qrshlS) (hz : f.exact x (amount y) = z)
    (h : z < -2 ^ (w - 1)) : f.law x y = (BitVec.intMin w, true) := by
  rw [Family.law, hz]
  rcases hf with rfl | rfl <;>
    exact congrArg₂ Prod.mk (clampSigned_of_lt hw h)
      (decide_eq_true (.inl h : z < -2 ^ (w - 1) ∨ 2 ^ (w - 1) ≤ z))

theorem left_unsigned_of_saturating (hf : f = .qshlU ∨ f = .qrshlU) (hy : amount y = k) :
    f.exact x (amount y) = x.toNat * 2 ^ k := by
  rw [hy, f.exact_left]
  rcases hf with rfl | rfl <;> rfl

theorem left_signed_of_saturating (hf : f = .qshlS ∨ f = .qrshlS) (hy : amount y = k) :
    f.exact x (amount y) = x.toInt * 2 ^ k := by
  rw [hy, f.exact_left]
  rcases hf with rfl | rfl <;> rfl

theorem law_within_unsigned (hf : f = .qshlU ∨ f = .qrshlU) (hz : f.exact x (amount y) = z) (hlow : 0 ≤ z)
    (hhigh : z < 2 ^ w) : f.law x y = (BitVec.ofInt w z, false) := by
  refine f.law_of_not_clamped hz ?_
  rcases hf with rfl | rfl <;> simp only [Family.Clamped, not_or, not_lt, not_le] <;> exact ⟨hlow, hhigh⟩

theorem law_within_signed (hf : f = .qshlS ∨ f = .qrshlS) (hz : f.exact x (amount y) = z) (hlow : -2 ^ (w - 1) ≤ z)
    (hhigh : z < 2 ^ (w - 1)) : f.law x y = (BitVec.ofInt w z, false) := by
  refine f.law_of_not_clamped hz ?_
  rcases hf with rfl | rfl <;> simp only [Family.Clamped, not_or, not_lt, not_le] <;> exact ⟨hlow, hhigh⟩

theorem nearLeftU_eq (hf : f = .qshlU ∨ f = .qrshlU) (hp : w ≤ p) (hy : amount y = k) :
    nearLeftU p x k = f.law x y := by
  have hz := left_unsigned_of_saturating (x := x) hf hy
  have hback := shifted_back_unsigned (k := k) x hp
  have hnonneg : 0 ≤ (x.toNat : Int) * 2 ^ k := Int.mul_nonneg (Int.natCast_nonneg _) (two_pow_pos k).le
  simp only [nearLeftU, Int.toNat_natCast]
  by_cases hlt : (x.toNat : Int) * 2 ^ k < 2 ^ w
  · rw [if_neg (not_not.mpr (hback.mpr hlt)), left_unsigned x hp, law_within_unsigned hf hz hnonneg hlt]
  · rw [if_pos (mt hback.mp hlt), law_over_unsigned hf hz (Int.not_lt.mp hlt)]

theorem farLeftU_eq (hf : f = .qshlU ∨ f = .qrshlU) (hk : w ≤ k) (hy : amount y = k) :
    farLeft (BitVec.allOnes w) x = f.law x y := by
  have hz := left_unsigned_of_saturating (x := x) hf hy
  unfold farLeft
  by_cases hx : x = 0
  · subst hx
    have hzero : ((0 : BitVec w).toNat : Int) * 2 ^ k = 0 := by
      rw [show (0 : BitVec w).toNat = 0 from BitVec.toNat_zero, Nat.cast_zero, Int.zero_mul]
    rw [hzero] at hz
    rw [if_neg (not_not.mpr rfl), law_within_unsigned hf hz (Int.le_refl 0) (two_pow_pos w)]
    rfl
  · have hpos : 1 ≤ (x.toNat : Int) := by
      have hne : x.toNat ≠ 0 := fun h ↦ hx (BitVec.toNat_inj.mp (h.trans BitVec.toNat_zero.symm))
      omega
    have hover : (2 : Int) ^ w ≤ x.toNat * 2 ^ k :=
      Int.le_trans (two_pow_le_two_pow hk) (le_mul_of_one_le_left (two_pow_pos k).le hpos)
    rw [if_pos hx, law_over_unsigned hf hz hover]

theorem limit_eq_law {limit : BitVec w → BitVec w} (hlimit : Limits limit) (hw : 0 < w)
    (hf : f = .qshlS ∨ f = .qrshlS) (hy : amount y = k)
    (hout : ¬ (-2 ^ (w - 1) ≤ x.toInt * 2 ^ k ∧ x.toInt * 2 ^ k < 2 ^ (w - 1))) : (limit x, true) = f.law x y := by
  have hz := left_signed_of_saturating (x := x) hf hy
  have hpow := two_pow_pos k
  have hwidth := two_pow_pos (w - 1)
  have hx : x ≠ 0 := by
    rintro rfl
    have hzero : (0 : BitVec w).toInt = 0 := BitVec.toInt_zero
    rw [hzero, Int.zero_mul] at hout
    omega
  rw [hlimit x hx]
  split_ifs with hneg
  · have hle : x.toInt * 2 ^ k < 0 := Int.mul_neg_of_neg_of_pos hneg hpow
    rw [law_under_signed hw hf hz (by omega)]
  · have hge : 0 ≤ x.toInt * 2 ^ k := Int.mul_nonneg (by omega) hpow.le
    rw [law_over_signed hf hz (by omega)]

theorem nearLeftS_eq {limit : BitVec w → BitVec w} (hlimit : Limits limit) (hw : 0 < w)
    (hf : f = .qshlS ∨ f = .qrshlS) (hp : w ≤ p) (hk : k ≤ w) (hy : amount y = k) :
    nearLeftS p (limit x) x k = f.law x y := by
  have hback := shifted_back_signed x hw hp hk
  simp only [nearLeftS, Int.toNat_natCast]
  by_cases hin : -2 ^ (w - 1) ≤ x.toInt * 2 ^ k ∧ x.toInt * 2 ^ k < 2 ^ (w - 1)
  · rw [if_neg (not_not.mpr (hback.mpr hin)), left_signed x hp,
      law_within_signed hf (left_signed_of_saturating hf hy) hin.1 hin.2]
  · rw [if_pos (mt hback.mp hin), limit_eq_law hlimit hw hf hy hin]

theorem farLeftS_eq {limit : BitVec w → BitVec w} (hlimit : Limits limit) (hw : 0 < w)
    (hf : f = .qshlS ∨ f = .qrshlS) (hk : w ≤ k) (hy : amount y = k) : farLeft (limit x) x = f.law x y := by
  unfold farLeft
  by_cases hx : x = 0
  · have hz := left_signed_of_saturating (x := x) hf hy
    have hzero : x.toInt * 2 ^ k = 0 := by
      rw [hx, show (0 : BitVec w).toInt = 0 from BitVec.toInt_zero, Int.zero_mul]
    have hpow := two_pow_pos (w - 1)
    rw [hzero] at hz
    rw [if_neg (not_not.mpr hx), law_within_signed hf hz (by omega) (by omega)]
    rfl
  · have hne : x.toInt ≠ 0 := fun h ↦ hx (BitVec.toInt_inj.mp (h.trans BitVec.toInt_zero.symm))
    have hpow := two_pow_le_two_pow (show w - 1 ≤ k by omega)
    have hpos := two_pow_pos (w - 1)
    rw [if_pos hx, limit_eq_law hlimit hw hf hy]
    rintro ⟨hlow, hhigh⟩
    rcases Int.lt_or_gt_of_ne hne with hneg | hgt
    · have hstrict : (2 : Int) ^ (w - 1) < 2 ^ k := pow_lt_pow_right₀ (by decide) (by omega)
      have hle : x.toInt * 2 ^ k ≤ -1 * 2 ^ k := Int.mul_le_mul_of_nonneg_right (by omega) (two_pow_pos k).le
      omega
    · have hle : 1 * 2 ^ k ≤ x.toInt * 2 ^ k := Int.mul_le_mul_of_nonneg_right (by omega) (two_pow_pos k).le
      omega

end Saturating

section Rounding

variable {w p k : Nat}

/-- A rounding shift to the right by less than the width. -/
def RoundsUnsigned (round : BitVec w → Int → BitVec w) : Prop :=
  ∀ x k, k + 1 < w → round x (-(k + 1)) = BitVec.ofInt w (rounded x.toNat (-(k + 1)))

def RoundsSigned (round : BitVec w → Int → BitVec w) : Prop :=
  ∀ x k, k + 1 < w → round x (-(k + 1)) = BitVec.ofInt w (rounded x.toInt (-(k + 1)))

theorem rounding_constant (hk : k < 31) : (1#32 <<< k).signExtend p = BitVec.ofInt p (2 ^ k) := by
  have hpow := two_pow_le_two_pow (show k ≤ 30 by omega)
  have hpos := two_pow_pos k
  have hshift : (1#32 <<< k : Word) = BitVec.ofInt 32 (2 ^ k) := by
    have hleft := shiftLeft_ofInt (w := 32) 1 k
    rwa [Int.one_mul] at hleft
  rw [hshift, BitVec.signExtend, BitVec.toInt_ofInt_eq_self (by decide) (by omega) (by omega)]

theorem roundU_rounds (hw : w ≤ 32) (hp : w < p) : RoundsUnsigned (w := w) (roundU p) := by
  intro x k hk
  have hx := toNat_cast_lt x
  have hsum := two_pow_le_two_pow (show w + 1 ≤ p by omega)
  have hconstant := two_pow_le_two_pow (show k ≤ w by omega)
  have hpos := two_pow_pos k
  rw [pow_succ] at hsum
  have hamount : (-1 - (-((k : Int) + 1))).toNat = k := by omega
  have hshift : (-(-((k : Int) + 1))).toNat = k + 1 := by omega
  rw [roundU, hamount, hshift, rounding_constant (by omega), setWidth_eq_ofInt x, ← BitVec.ofInt_add,
    ushiftRight_ofInt (by omega) (by omega), setWidth_ofInt (by omega), rounded_neg_succ]

theorem roundS_rounds (hw : w ≤ 32) (hp : w < p) : RoundsSigned (w := w) (roundS p) := by
  intro x k hk
  have hlow := x.le_toInt
  have hhigh := x.toInt_lt
  have hsum := two_pow_le_two_pow (show w - 1 + 1 ≤ p - 1 by omega)
  have hconstant := two_pow_le_two_pow (show k ≤ w - 1 by omega)
  have hpos := two_pow_pos k
  rw [pow_succ] at hsum
  have hamount : (-1 - (-((k : Int) + 1))).toNat = k := by omega
  have hshift : (-(-((k : Int) + 1))).toNat = k + 1 := by omega
  rw [roundS, hamount, hshift, rounding_constant (by omega), BitVec.signExtend, ← BitVec.ofInt_add,
    sshiftRight_ofInt (by omega) (by omega) (by omega), setWidth_ofInt (by omega), rounded_neg_succ]

/-- The one value whose increment overflows is rounded to a constant. -/
theorem roundU64_rounds : RoundsUnsigned roundU64 := by
  intro x k _
  have hx := toNat_cast_lt x
  have hlow : 0 ≤ (x.toNat : Int) / 2 ^ k := Int.ediv_nonneg (Int.natCast_nonneg _) (two_pow_pos k).le
  have hle : (x.toNat : Int) / 2 ^ k ≤ x.toNat := Int.ediv_le_self _ (Int.natCast_nonneg _)
  have hamount : (-(-((k : Int) + 1)) - 1).toNat = k := by omega
  have hval : x >>> k = BitVec.ofInt 64 ((x.toNat : Int) / 2 ^ k) := by
    conv_lhs => rw [← ofInt_toNat x]
    exact ushiftRight_ofInt (Int.natCast_nonneg _) hx k
  rw [rounded_neg_succ, add_two_pow_ediv, roundU64, hamount, hval]
  generalize (x.toNat : Int) / 2 ^ k = q at hlow hle
  by_cases hmax : q = 2 ^ 64 - 1
  · subst hmax
    rfl
  · have hne : BitVec.ofInt 64 q ≠ BitVec.allOnes 64 := by
      intro h
      have hnat := congrArg BitVec.toNat h
      rw [BitVec.toNat_ofInt, BitVec.toNat_allOnes] at hnat
      omega
    have hone : BitVec.ofInt 64 q + 1 = BitVec.ofInt 64 (q + 1) := (BitVec.ofInt_add q 1).symm
    rw [if_neg hne, hone, ushiftRight_ofInt (by omega) (by omega), Int.pow_one]

theorem roundS64_rounds : RoundsSigned roundS64 := by
  intro x k _
  have hlow := x.le_toInt
  have hhigh := x.toInt_lt
  have hqlow : -2 ^ 63 ≤ x.toInt / 2 ^ k := by
    rw [Int.le_ediv_iff_mul_le (two_pow_pos k)]
    have hpow := two_pow_pos k
    omega
  have hqhigh : x.toInt / 2 ^ k < 2 ^ 63 := by
    rw [Int.ediv_lt_iff_lt_mul (two_pow_pos k)]
    have hpow := two_pow_pos k
    omega
  have hamount : (-(-((k : Int) + 1)) - 1).toNat = k := by omega
  have hval : x.sshiftRight k = BitVec.ofInt 64 (x.toInt / 2 ^ k) := by
    conv_lhs => rw [← BitVec.ofInt_toInt (x := x)]
    exact sshiftRight_ofInt (by decide) hlow hhigh k
  rw [rounded_neg_succ, add_two_pow_ediv, roundS64, hamount, hval]
  generalize x.toInt / 2 ^ k = q at hqlow hqhigh
  by_cases hmax : q = 2 ^ 63 - 1
  · subst hmax
    rfl
  · have hne : BitVec.ofInt 64 q ≠ BitVec.intMax 64 := by
      intro h
      have hint := congrArg BitVec.toInt h
      rw [BitVec.toInt_ofInt_eq_self (by decide) hqlow hqhigh, BitVec.toInt_intMax] at hint
      omega
    have hone : BitVec.ofInt 64 q + 1 = BitVec.ofInt 64 (q + 1) := (BitVec.ofInt_add q 1).symm
    rw [if_neg hne, hone, sshiftRight_ofInt (by decide) (by omega) (by omega), Int.pow_one]

end Rounding

section Elements

variable {w p : Nat} (x y : BitVec w)

/-- The amount, by its sign. -/
theorem amount_cases : (∃ k : Nat, amount y = k) ∨ ∃ k : Nat, amount y = -(k + 1) := by
  rcases Int.lt_or_le (amount y) 0 with hneg | hnonneg
  · exact .inr ⟨(-amount y - 1).toNat, by omega⟩
  · exact .inl ⟨(amount y).toNat, by omega⟩

theorem shlU_eq (hp : w ≤ p) : shlU p x y = Family.shlU.law x y := by
  unfold shlU
  dsimp only
  rcases amount_cases y with ⟨k, hy⟩ | ⟨k, hy⟩
  · have hz : Family.shlU.exact x (amount y) = x.toNat * 2 ^ k := by
      rw [hy, Family.exact_left]
      rfl
    rw [Family.law_of_not_clamped _ hz id, hy]
    by_cases hk : w ≤ k
    · rw [if_pos (by omega), ofInt_mul_two_pow_of_le hk]
      rfl
    · rw [if_neg (by omega), if_neg (by omega), Int.toNat_natCast, left_unsigned x hp]
  · have hz : Family.shlU.exact x (amount y) = x.toNat / 2 ^ (k + 1) := by
      rw [hy, Family.exact_right]
      rfl
    have hshift : (-(-((k : Int) + 1))).toNat = k + 1 := by omega
    rw [Family.law_of_not_clamped _ hz id, hy]
    by_cases hk : w ≤ k + 1
    · rw [if_pos (by omega), ediv_two_pow_of_lt (Int.natCast_nonneg _) (toNat_cast_lt x) hk]
      rfl
    · rw [if_neg (by omega), if_pos (by omega), hshift, right_unsigned x hp]

theorem shlS_eq (hw : 0 < w) (hp : w ≤ p) : shlS p x y = Family.shlS.law x y := by
  unfold shlS
  dsimp only
  rcases amount_cases y with ⟨k, hy⟩ | ⟨k, hy⟩
  · have hz : Family.shlS.exact x (amount y) = x.toInt * 2 ^ k := by
      rw [hy, Family.exact_left]
      rfl
    rw [Family.law_of_not_clamped _ hz id, hy]
    by_cases hk : w ≤ k
    · rw [if_pos (by omega), ofInt_mul_two_pow_of_le hk]
      rfl
    · rw [if_neg (by omega), if_neg (by omega), if_neg (by omega), Int.toNat_natCast, left_signed x hp]
  · have hz : Family.shlS.exact x (amount y) = x.toInt / 2 ^ (k + 1) := by
      rw [hy, Family.exact_right]
      rfl
    have hshift : (-(-((k : Int) + 1))).toNat = k + 1 := by omega
    have hlow := x.le_toInt
    have hhigh := x.toInt_lt
    rw [Family.law_of_not_clamped _ hz id, hy, if_neg (by omega)]
    by_cases hk : w ≤ k + 1
    · rw [if_pos (by omega), right_signed x hw hp, ediv_two_pow_of_signed hlow hhigh (Nat.le_refl _),
        ediv_two_pow_of_signed hlow hhigh (show w - 1 ≤ k + 1 by omega)]
    · rw [if_neg (by omega), if_pos (by omega), hshift, right_signed x hw hp]

theorem rshlU_eq {round : BitVec w → Int → BitVec w} (hround : RoundsUnsigned round) (hw : 0 < w) (hp : w ≤ p) :
    rshlU p round x y = Family.rshlU.law x y := by
  unfold rshlU
  dsimp only
  have hx := toNat_cast_lt x
  have hx' : (0 : Int) ≤ x.toNat := Int.natCast_nonneg _
  rcases amount_cases y with ⟨k, hy⟩ | ⟨k, hy⟩
  · have hz : Family.rshlU.exact x (amount y) = x.toNat * 2 ^ k := by
      rw [hy, Family.exact_left]
      rfl
    rw [Family.law_of_not_clamped _ hz id, hy]
    by_cases hk : w ≤ k
    · rw [if_pos (by omega), ofInt_mul_two_pow_of_le hk]
      rfl
    · rw [if_neg (by omega), if_neg (by omega), if_neg (by omega), Int.toNat_natCast, left_unsigned x hp]
  · have hz : Family.rshlU.exact x (amount y) = rounded x.toNat (-(k + 1)) := by
      rw [hy, Family.exact_right]
      rfl
    rw [Family.law_of_not_clamped _ hz id, hy]
    rcases Nat.lt_trichotomy (k + 1) w with hk | hk | hk
    · rw [if_neg (by omega), if_neg (by omega), if_pos (by omega), hround x k hk]
    · subst hk
      have hshift : (-(-((k : Int) + 1)) - 1).toNat = k := by omega
      rw [if_neg (by omega), if_pos (by omega), hshift, right_unsigned x hp, rounded_top_bit hx' hx]
    · rw [if_pos (by omega), rounded_eq_zero (by omega) hx (by omega)]
      rfl

theorem rshlS_eq {round : BitVec w → Int → BitVec w} (hround : RoundsSigned round) (hp : w ≤ p) :
    rshlS p round x y = Family.rshlS.law x y := by
  unfold rshlS
  dsimp only
  rcases amount_cases y with ⟨k, hy⟩ | ⟨k, hy⟩
  · have hz : Family.rshlS.exact x (amount y) = x.toInt * 2 ^ k := by
      rw [hy, Family.exact_left]
      rfl
    rw [Family.law_of_not_clamped _ hz id, hy]
    by_cases hk : w ≤ k
    · rw [if_pos (by omega), ofInt_mul_two_pow_of_le hk]
      rfl
    · rw [if_neg (by omega), if_neg (by omega), Int.toNat_natCast, left_signed x hp]
  · have hz : Family.rshlS.exact x (amount y) = rounded x.toInt (-(k + 1)) := by
      rw [hy, Family.exact_right]
      rfl
    rw [Family.law_of_not_clamped _ hz id, hy]
    by_cases hk : k + 1 < w
    · rw [if_neg (by omega), if_pos (by omega), hround x k hk]
    · rw [if_pos (by omega), rounded_eq_zero x.le_toInt x.toInt_lt (by omega)]
      rfl

theorem qshlU_eq (hp : w ≤ p) : qshlU p x y = Family.qshlU.law x y := by
  unfold qshlU
  dsimp only
  rcases amount_cases y with ⟨k, hy⟩ | ⟨k, hy⟩
  · by_cases hk : w ≤ k
    · rw [← farLeftU_eq (.inl rfl) hk hy, hy, if_pos (by omega)]
    · rw [← nearLeftU_eq (.inl rfl) hp hy, hy, if_neg (by omega), if_neg (by omega), if_neg (by omega)]
  · have hz : Family.qshlU.exact x (amount y) = x.toNat / 2 ^ (k + 1) := by
      rw [hy, Family.exact_right]
      rfl
    have hx := toNat_cast_lt x
    have hx' : (0 : Int) ≤ x.toNat := Int.natCast_nonneg _
    have hshift : (-(-((k : Int) + 1))).toNat = k + 1 := by omega
    rw [law_within_unsigned (.inl rfl) hz (Int.ediv_nonneg hx' (two_pow_pos (k + 1)).le)
      (ediv_range (by omega) hx (k + 1)).2, hy, if_neg (by omega)]
    by_cases hk : w ≤ k + 1
    · rw [if_pos (by omega), ediv_two_pow_of_lt hx' hx hk]
      rfl
    · rw [if_neg (by omega), if_pos (by omega), hshift, right_unsigned x hp]

theorem qshlS_eq {limit : BitVec w → BitVec w} (hlimit : Limits limit) (hw : 0 < w) (hp : w ≤ p) :
    qshlS p limit x y = Family.qshlS.law x y := by
  unfold qshlS
  dsimp only
  have hlow := x.le_toInt
  have hhigh := x.toInt_lt
  rcases amount_cases y with ⟨k, hy⟩ | ⟨k, hy⟩
  · by_cases hk : w ≤ k
    · rw [← farLeftS_eq hlimit hw (.inl rfl) hk hy, hy, if_pos (by omega)]
    · rw [← nearLeftS_eq hlimit hw (.inl rfl) hp (by omega) hy, hy, if_neg (by omega), if_neg (by omega),
        if_neg (by omega)]
  · have hz : Family.qshlS.exact x (amount y) = x.toInt / 2 ^ (k + 1) := by
      rw [hy, Family.exact_right]
      rfl
    have hshift : (-(-((k : Int) + 1))).toNat = k + 1 := by omega
    obtain ⟨hqlow, hqhigh⟩ := ediv_range hlow hhigh (k + 1)
    rw [law_within_signed (.inl rfl) hz hqlow hqhigh, hy, if_neg (by omega)]
    by_cases hk : w ≤ k + 1
    · rw [if_pos (by omega), right_signed x hw hp, ediv_two_pow_of_signed hlow hhigh (show w - 1 ≤ p - 1 by omega),
        ediv_two_pow_of_signed hlow hhigh (show w - 1 ≤ k + 1 by omega)]
    · rw [if_neg (by omega), if_pos (by omega), hshift, right_signed x hw hp]

/-- A negative element is below the destination, whatever the amount; another one is shifted without its sign. -/
theorem qshluS_eq (hp : w ≤ p) : qshluS p x y = Family.qshluS.law x y := by
  unfold qshluS
  cases hmsb : x.msb with
  | true =>
    have hneg : x.toInt < 0 := BitVec.toInt_neg_of_msb_true hmsb
    have hz : Family.qshluS.exact x (amount y) < 0 := by
      rcases amount_cases y with ⟨k, hy⟩ | ⟨k, hy⟩
      · rw [hy, Family.exact_left]
        exact Int.mul_neg_of_neg_of_pos hneg (two_pow_pos k)
      · rw [hy, Family.exact_right]
        exact Int.ediv_neg_of_neg_of_pos hneg (two_pow_pos (k + 1))
    rw [if_pos rfl, Family.law]
    exact (congrArg₂ Prod.mk (clampUnsigned_of_neg hz) (decide_eq_true (.inl hz))).symm
  | false =>
    have hvalue : Family.qshluS.value x = Family.qshlU.value x := BitVec.toInt_eq_toNat_of_msb hmsb
    have hexact : Family.qshluS.exact x (amount y) = Family.qshlU.exact x (amount y) := by
      rw [Family.exact, Family.exact, hvalue]
      rfl
    rw [if_neg (by decide), qshlU_eq x y hp, Family.law, Family.law, hexact]
    rfl

theorem qrshlU_eq {round : BitVec w → Int → BitVec w} (hround : RoundsUnsigned round) (hw : 0 < w) (hp : w ≤ p) :
    qrshlU p round x y = Family.qrshlU.law x y := by
  unfold qrshlU
  dsimp only
  have hx := toNat_cast_lt x
  have hx' : (0 : Int) ≤ x.toNat := Int.natCast_nonneg _
  rcases amount_cases y with ⟨k, hy⟩ | ⟨k, hy⟩
  · by_cases hk : w ≤ k
    · rw [← farLeftU_eq (.inr rfl) hk hy, hy, if_pos (by omega)]
    · rw [← nearLeftU_eq (.inr rfl) hp hy, hy, if_neg (by omega), if_neg (by omega), if_neg (by omega),
        if_neg (by omega)]
  · have hz : Family.qrshlU.exact x (amount y) = rounded x.toNat (-(k + 1)) := by
      rw [hy, Family.exact_right]
      rfl
    rw [law_within_unsigned (.inr rfl) hz (rounded_nonneg hx' k) (rounded_range (by omega) hx k).2, hy,
      if_neg (by omega)]
    rcases Nat.lt_trichotomy (k + 1) w with hk | hk | hk
    · rw [if_neg (by omega), if_neg (by omega), if_pos (by omega), hround x k hk]
    · subst hk
      rw [if_neg (by omega), if_pos (by omega), right_unsigned x hp, Nat.add_sub_cancel, rounded_top_bit hx' hx]
    · rw [if_pos (by omega), rounded_eq_zero (by omega) hx (by omega)]
      rfl

theorem qrshlS_eq {limit : BitVec w → BitVec w} {round : BitVec w → Int → BitVec w} (hlimit : Limits limit)
    (hround : RoundsSigned round) (hw : 0 < w) (hp : w ≤ p) : qrshlS p limit round x y = Family.qrshlS.law x y := by
  unfold qrshlS
  dsimp only
  have hlow := x.le_toInt
  have hhigh := x.toInt_lt
  rcases amount_cases y with ⟨k, hy⟩ | ⟨k, hy⟩
  · by_cases hk : w ≤ k
    · rw [← farLeftS_eq hlimit hw (.inr rfl) hk hy, hy, if_pos (by omega)]
    · rw [← nearLeftS_eq hlimit hw (.inr rfl) hp (by omega) hy, hy, if_neg (by omega), if_neg (by omega),
        if_neg (by omega)]
  · have hz : Family.qrshlS.exact x (amount y) = rounded x.toInt (-(k + 1)) := by
      rw [hy, Family.exact_right]
      rfl
    obtain ⟨hqlow, hqhigh⟩ := rounded_range hlow hhigh k
    rw [law_within_signed (.inr rfl) hz hqlow hqhigh, hy, if_neg (by omega)]
    by_cases hk : k + 1 < w
    · rw [if_neg (by omega), if_pos (by omega), hround x k hk]
    · rw [if_pos (by omega), rounded_eq_zero hlow hhigh (by omega)]
      rfl

end Elements

section Lanewise

/-- What a helper has to do with every lane, and with the flag. -/
def Lanewise {n w : Nat} (m : Nat) (res : Saturated n) (a b : BitVec n) (law : BitVec w → BitVec w → Saturated w) :
    Prop :=
  (∀ k : Fin m, lane w k res.1 = (law (lane w k a) (lane w k b)).1) ∧
    (res.2 = true ↔ ∃ k : Fin m, (law (lane w k a) (lane w k b)).2 = true)

theorem vop8_lanewise (law : BitVec 8 → BitVec 8 → Saturated 8) (a b : Word) :
    Lanewise 4 (vop8 law a b) a b law := by
  let part (i : Nat) := law (lane 8 i a) (lane 8 i b)
  refine ⟨fun k ↦ ?_, ?_⟩
  · match k with
    | 0 => exact lane_append_zero ((part 3).1 ++ (part 2).1 ++ (part 1).1) (part 0).1
    | 1 =>
      exact (lane_append_succ 0 ((part 3).1 ++ (part 2).1 ++ (part 1).1) (part 0).1).trans
        (lane_append_zero _ _)
    | 2 =>
      exact (lane_append_succ 1 ((part 3).1 ++ (part 2).1 ++ (part 1).1) (part 0).1).trans
        ((lane_append_succ 0 _ _).trans (lane_append_zero _ _))
    | 3 =>
      exact (lane_append_succ 2 ((part 3).1 ++ (part 2).1 ++ (part 1).1) (part 0).1).trans
        ((lane_append_succ 1 _ _).trans ((lane_append_succ 0 _ _).trans (lane_self _)))
  · simp [vop8, lane, Fin.exists_fin_succ, or_assoc]

theorem vop16_lanewise (law : BitVec 16 → BitVec 16 → Saturated 16) (a b : Word) :
    Lanewise 2 (vop16 law a b) a b law := by
  let part (i : Nat) := law (lane 16 i a) (lane 16 i b)
  refine ⟨fun k ↦ ?_, ?_⟩
  · match k with
    | 0 => exact lane_append_zero (part 1).1 (part 0).1
    | 1 => exact (lane_append_succ 0 (part 1).1 (part 0).1).trans (lane_self _)
  · simp [vop16, lane, Fin.exists_fin_succ]

theorem element_lanewise {w : Nat} (law : BitVec w → BitVec w → Saturated w) (a b : BitVec w) :
    Lanewise 1 (law a b) a b law := by
  refine ⟨fun k ↦ ?_, ?_⟩
  · rw [Fin.val_eq_zero k, lane_self, lane_self, lane_self]
  · constructor
    · intro h
      refine ⟨0, ?_⟩
      rwa [Fin.val_zero, lane_self, lane_self]
    · rintro ⟨k, h⟩
      rwa [Fin.val_eq_zero k, lane_self, lane_self] at h

theorem Family.helper_w8 (f : Family) : f.helper .w8 = vop8 f.law := by
  cases f with
  | shlU => exact congrArg vop8 (funext₂ fun x y ↦ shlU_eq x y (by decide))
  | shlS => exact congrArg vop8 (funext₂ fun x y ↦ shlS_eq x y (by decide) (by decide))
  | rshlU =>
    exact congrArg vop8 (funext₂ fun x y ↦
      rshlU_eq x y (roundU_rounds (by decide) (by decide)) (by decide) (by decide))
  | rshlS => exact congrArg vop8 (funext₂ fun x y ↦ rshlS_eq x y (roundS_rounds (by decide) (by decide)) (by decide))
  | qshlU => exact congrArg vop8 (funext₂ fun x y ↦ qshlU_eq x y (by decide))
  | qshlS =>
    exact congrArg vop8 (funext₂ fun x y ↦
      qshlS_eq x y (topBitLimit_limits (by decide)) (by decide) (by decide))
  | qshluS => exact congrArg vop8 (funext₂ fun x y ↦ qshluS_eq x y (by decide))
  | qrshlU =>
    exact congrArg vop8 (funext₂ fun x y ↦
      qrshlU_eq x y (roundU_rounds (by decide) (by decide)) (by decide) (by decide))
  | qrshlS =>
    exact congrArg vop8 (funext₂ fun x y ↦
      qrshlS_eq x y (topBitLimit_limits (by decide)) (roundS_rounds (by decide) (by decide)) (by decide) (by decide))

theorem Family.helper_w16 (f : Family) : f.helper .w16 = vop16 f.law := by
  cases f with
  | shlU => exact congrArg vop16 (funext₂ fun x y ↦ shlU_eq x y (by decide))
  | shlS => exact congrArg vop16 (funext₂ fun x y ↦ shlS_eq x y (by decide) (by decide))
  | rshlU =>
    exact congrArg vop16 (funext₂ fun x y ↦
      rshlU_eq x y (roundU_rounds (by decide) (by decide)) (by decide) (by decide))
  | rshlS => exact congrArg vop16 (funext₂ fun x y ↦ rshlS_eq x y (roundS_rounds (by decide) (by decide)) (by decide))
  | qshlU => exact congrArg vop16 (funext₂ fun x y ↦ qshlU_eq x y (by decide))
  | qshlS =>
    exact congrArg vop16 (funext₂ fun x y ↦
      qshlS_eq x y (topBitLimit_limits (by decide)) (by decide) (by decide))
  | qshluS => exact congrArg vop16 (funext₂ fun x y ↦ qshluS_eq x y (by decide))
  | qrshlU =>
    exact congrArg vop16 (funext₂ fun x y ↦
      qrshlU_eq x y (roundU_rounds (by decide) (by decide)) (by decide) (by decide))
  | qrshlS =>
    exact congrArg vop16 (funext₂ fun x y ↦
      qrshlS_eq x y (topBitLimit_limits (by decide)) (roundS_rounds (by decide) (by decide)) (by decide) (by decide))

theorem Family.helper_w32 (f : Family) : f.helper .w32 = (f.law : Word → Word → Saturated 32) := by
  cases f with
  | shlU => exact funext₂ fun x y ↦ shlU_eq x y (by decide)
  | shlS => exact funext₂ fun x y ↦ shlS_eq x y (by decide) (by decide)
  | rshlU => exact funext₂ fun x y ↦ rshlU_eq x y (roundU_rounds (by decide) (by decide)) (by decide) (by decide)
  | rshlS => exact funext₂ fun x y ↦ rshlS_eq x y (roundS_rounds (by decide) (by decide)) (by decide)
  | qshlU => exact funext₂ fun x y ↦ qshlU_eq x y (by decide)
  | qshlS => exact funext₂ fun x y ↦ qshlS_eq x y (topBitLimit_limits (by decide)) (by decide) (by decide)
  | qshluS => exact funext₂ fun x y ↦ qshluS_eq x y (by decide)
  | qrshlU => exact funext₂ fun x y ↦ qrshlU_eq x y (roundU_rounds (by decide) (by decide)) (by decide) (by decide)
  | qrshlS =>
    exact funext₂ fun x y ↦
      qrshlS_eq x y (signBitLimit_limits (by decide)) (roundS_rounds (by decide) (by decide)) (by decide) (by decide)

theorem Family.helper_w64 (f : Family) : f.helper .w64 = (f.law : BitVec 64 → BitVec 64 → Saturated 64) := by
  cases f with
  | shlU => exact funext₂ fun x y ↦ shlU_eq x y (by decide)
  | shlS => exact funext₂ fun x y ↦ shlS_eq x y (by decide) (by decide)
  | rshlU => exact funext₂ fun x y ↦ rshlU_eq x y roundU64_rounds (by decide) (by decide)
  | rshlS => exact funext₂ fun x y ↦ rshlS_eq x y roundS64_rounds (by decide)
  | qshlU => exact funext₂ fun x y ↦ qshlU_eq x y (by decide)
  | qshlS => exact funext₂ fun x y ↦ qshlS_eq x y (signBitLimit_limits (by decide)) (by decide) (by decide)
  | qshluS => exact funext₂ fun x y ↦ qshluS_eq x y (by decide)
  | qrshlU => exact funext₂ fun x y ↦ qrshlU_eq x y roundU64_rounds (by decide) (by decide)
  | qrshlS =>
    exact funext₂ fun x y ↦
      qrshlS_eq x y (signBitLimit_limits (by decide)) roundS64_rounds (by decide) (by decide)

theorem Family.helper_lanewise (f : Family) (v : Width) (a b : BitVec v.operand) :
    Lanewise (w := v.bits) v.lanes (f.helper v a b) a b f.law := by
  cases v with
  | w8 =>
    rw [f.helper_w8]
    exact vop8_lanewise f.law a b
  | w16 =>
    rw [f.helper_w16]
    exact vop16_lanewise f.law a b
  | w32 =>
    rw [f.helper_w32]
    exact element_lanewise f.law a b
  | w64 =>
    rw [f.helper_w64]
    exact element_lanewise f.law a b

/-- The exact result of a lane. -/
def Family.laneExact (f : Family) (v : Width) (a b : BitVec v.operand) (k : Fin v.lanes) : Int :=
  f.exact (lane v.bits k a) (amount (lane v.bits k b))

/-- Every lane holds what becomes of its exact result, and `QC` is set when one of them was clamped. -/
theorem shifts_exact (f : Family) (v : Width) (a b : BitVec v.operand) (s : Vfp) :
    (∀ k : Fin v.lanes, lane v.bits k (f.execute v a b s).1 = f.finish v.bits (f.laneExact v a b k)) ∧
      (((f.execute v a b s).2.xregs armVfpFpscr).getLsbD 27 = true ↔
        (s.xregs armVfpFpscr).getLsbD 27 = true ∨ ∃ k : Fin v.lanes, f.Clamped v.bits (f.laneExact v a b k)) := by
  obtain ⟨hlane, hflag⟩ := f.helper_lanewise v a b
  refine ⟨hlane, ?_⟩
  have hclamped : (f.helper v a b).2 = true ↔ ∃ k : Fin v.lanes, f.Clamped v.bits (f.laneExact v a b k) :=
    hflag.trans (exists_congr fun k ↦ decide_eq_true_iff)
  rw [← hclamped]
  cases hres : (f.helper v a b).2 with
  | true =>
    have hset : (f.execute v a b s).2 = setQc s := by rw [Family.execute, hres, if_pos rfl]
    rw [hset, xregs_setQc]
    exact iff_of_true rfl (.inr rfl)
  | false =>
    have hkept : (f.execute v a b s).2 = s := by rw [Family.execute, hres, if_neg (by decide)]
    rw [hkept]
    exact (or_iff_left (by decide)).symm

end Lanewise

end IDeviceEmulator.Arm.Shifts
