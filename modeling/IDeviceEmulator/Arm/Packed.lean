import IDeviceEmulator.Arm.Cpu
import IDeviceEmulator.Library.Lanes
import IDeviceEmulator.Library.Masks
import IDeviceEmulator.Library.Words

namespace IDeviceEmulator.Arm.Neon

open Lanes Masks Words

abbrev DoubleWord := BitVec 64

section Helpers

/-- The addition of `neon_add_u8`, `neon_add_u16`, `neon_addl_u16` and `neon_addl_u32`, with their masks. -/
def addMasked {n : Nat} (m a b : BitVec n) : BitVec n :=
  let mask := (a ^^^ b) &&& m
  let a := a &&& ~~~m
  let b := b &&& ~~~m
  (a + b) ^^^ mask

/-- The subtraction of `neon_subl_u16` and `neon_subl_u32`, with their masks. -/
def subMasked {n : Nat} (m a b : BitVec n) : BitVec n :=
  let mask := (a ^^^ ~~~b) &&& m
  let a := a ||| m
  let b := b &&& ~~~m
  (a - b) ^^^ mask

def neonAddU8 : Word → Word → Word := addMasked 0x80808080
def neonAddU16 : Word → Word → Word := addMasked 0x80008000
def neonAddlU16 : DoubleWord → DoubleWord → DoubleWord := addMasked 0x8000800080008000
def neonAddlU32 : DoubleWord → DoubleWord → DoubleWord := addMasked 0x8000000080000000
def neonSublU16 : DoubleWord → DoubleWord → DoubleWord := subMasked 0x8000800080008000
def neonSublU32 : DoubleWord → DoubleWord → DoubleWord := subMasked 0x8000000080000000

def neonPaddlU16 (a b : DoubleWord) : DoubleWord :=
  let tmp := a &&& 0x0000ffff0000ffff#64
  let tmp := tmp + ((a >>> 16) &&& 0x0000ffff0000ffff#64)
  let tmp2 := b &&& 0xffff0000ffff0000#64
  let tmp2 := tmp2 + ((b <<< 16) &&& 0xffff0000ffff0000#64)
  (tmp &&& 0xffff#64) ||| ((tmp >>> 16) &&& 0xffff0000#64) ||| ((tmp2 <<< 16) &&& 0xffff00000000#64) |||
    (tmp2 &&& 0xffff000000000000#64)

def neonNarrowHighU8 (x : DoubleWord) : Word :=
  (((x >>> 8) &&& 0xff#64) ||| ((x >>> 16) &&& 0xff00#64) ||| ((x >>> 24) &&& 0xff0000#64) |||
    ((x >>> 32) &&& 0xff000000#64)).setWidth 32

def neonNarrowHighU16 (x : DoubleWord) : Word :=
  (((x >>> 16) &&& 0xffff#64) ||| ((x >>> 32) &&& 0xffff0000#64)).setWidth 32

def neonNarrowRoundHighU8 (x : DoubleWord) : Word :=
  neonNarrowHighU8 ((x &&& 0xff80ff80ff80ff80#64) + 0x0080008000800080#64)

def neonNarrowRoundHighU16 (x : DoubleWord) : Word :=
  neonNarrowHighU16 ((x &&& 0xffff8000ffff8000#64) + 0x0000800000008000#64)

def neonCntU8 (x : Word) : Word :=
  let x := (x &&& 0x55555555#32) + ((x >>> 1) &&& 0x55555555#32)
  let x := (x &&& 0x33333333#32) + ((x >>> 2) &&& 0x33333333#32)
  (x &&& 0x0f0f0f0f#32) + ((x >>> 4) &&& 0x0f0f0f0f#32)

/-- The lanes of a mask whose bits of the first operand are set. -/
def mulMask (op1 : Word) : Word :=
  (if op1 &&& 1#32 ≠ 0 then 0xff#32 else 0#32) ||| (if op1 &&& (1#32 <<< 8) ≠ 0 then 0xff#32 <<< 8 else 0#32) |||
    (if op1 &&& (1#32 <<< 16) ≠ 0 then 0xff#32 <<< 16 else 0#32) |||
      (if op1 &&& (1#32 <<< 24) ≠ 0 then 0xff#32 <<< 24 else 0#32)

def mullMask (op1 : Word) : DoubleWord :=
  (if op1 &&& 1#32 ≠ 0 then 0xffff#64 else 0#64) ||| (if op1 &&& (1#32 <<< 8) ≠ 0 then 0xffff#64 <<< 16 else 0#64) |||
    (if op1 &&& (1#32 <<< 16) ≠ 0 then 0xffff#64 <<< 32 else 0#64) |||
      (if op1 &&& (1#32 <<< 24) ≠ 0 then 0xffff#64 <<< 48 else 0#64)

/-- The first operand of the next pass. -/
def nextBits (op1 : Word) : Word := (op1 >>> 1) &&& 0x7f7f7f7f#32

theorem nextBits_lt {op1 : Word} (h : op1 ≠ 0#32) : (nextBits op1).toNat < op1.toNat := by
  have hpos : 0 < op1.toNat := by
    refine Nat.pos_of_ne_zero fun hzero ↦ h ?_
    exact BitVec.eq_of_toNat_eq hzero
  rw [nextBits, BitVec.toNat_and, BitVec.toNat_ushiftRight, Nat.shiftRight_one]
  exact Nat.lt_of_le_of_lt Nat.and_le_left (Nat.div_lt_self hpos (by decide))

/-- The loop of `neon_mul_p8`. -/
def mulLoop (op1 op2 result : Word) : Word :=
  if op1 = 0#32 then result
  else mulLoop (nextBits op1) ((op2 <<< 1) &&& 0xfefefefe#32) (result ^^^ (op2 &&& mulMask op1))
termination_by op1.toNat
decreasing_by exact nextBits_lt ‹_›

def neonMulP8 (op1 op2 : Word) : Word := mulLoop op1 op2 0

/-- The loop of `neon_mull_p8`. -/
def mullLoop (op1 : Word) (op2ex result : DoubleWord) : DoubleWord :=
  if op1 = 0#32 then result
  else mullLoop (nextBits op1) (op2ex <<< 1) (result ^^^ (op2ex &&& mullMask op1))
termination_by op1.toNat
decreasing_by exact nextBits_lt ‹_›

def neonMullP8 (op1 op2 : Word) : DoubleWord :=
  let op2ex := op2.setWidth 64
  let op2ex := (op2ex &&& 0xff#64) ||| ((op2ex &&& 0xff00#64) <<< 8) ||| ((op2ex &&& 0xff0000#64) <<< 16) |||
    ((op2ex &&& 0xff000000#64) <<< 24)
  mullLoop op1 op2ex 0

def neonHaddS32 (src1 src2 : Word) : Word :=
  let dest := src1.sshiftRight 1 + src2.sshiftRight 1
  if src1 &&& src2 &&& 1#32 ≠ 0 then dest + 1 else dest

def neonHaddU32 (src1 src2 : Word) : Word :=
  let dest := (src1 >>> 1) + (src2 >>> 1)
  if src1 &&& src2 &&& 1#32 ≠ 0 then dest + 1 else dest

def neonRhaddS32 (src1 src2 : Word) : Word :=
  let dest := src1.sshiftRight 1 + src2.sshiftRight 1
  if (src1 ||| src2) &&& 1#32 ≠ 0 then dest + 1 else dest

def neonRhaddU32 (src1 src2 : Word) : Word :=
  let dest := (src1 >>> 1) + (src2 >>> 1)
  if (src1 ||| src2) &&& 1#32 ≠ 0 then dest + 1 else dest

def neonHsubS32 (src1 src2 : Word) : Word :=
  let dest := src1.sshiftRight 1 - src2.sshiftRight 1
  if ~~~src1 &&& src2 &&& 1#32 ≠ 0 then dest - 1 else dest

def neonHsubU32 (src1 src2 : Word) : Word :=
  let dest := (src1 >>> 1) - (src2 >>> 1)
  if ~~~src1 &&& src2 &&& 1#32 ≠ 0 then dest - 1 else dest

end Helpers

section Sums

variable {n : Nat} {k : Nat}

theorem topBits_of_forall {w : Nat} {m : BitVec n} (hw : 0 < w) (h : ∀ k : Fin (n / w), lane w k.val m = BitVec.intMin w) :
    TopBits w m := by
  intro k hk
  refine h ⟨k, ?_⟩
  rw [Nat.lt_iff_add_one_le, Nat.le_div_iff_mul_le hw, Nat.add_mul, Nat.mul_comm k w]
  omega

theorem topBits_u8 : TopBits 8 (0x80808080#32) := topBits_of_forall (by decide) (by decide)

theorem topBits_u16 : TopBits 16 (0x80008000#32) := topBits_of_forall (by decide) (by decide)

theorem topBits_l16 : TopBits 16 (0x8000800080008000#64) := topBits_of_forall (by decide) (by decide)

theorem topBits_l32 : TopBits 32 (0x8000000080000000#64) := topBits_of_forall (by decide) (by decide)

theorem neonAddU8_lane (a b : Word) (hk : k < 4) : lane 8 k (neonAddU8 a b) = lane 8 k a + lane 8 k b :=
  lane_masked_add (by decide) topBits_u8 (by omega)

theorem neonAddU16_lane (a b : Word) (hk : k < 2) : lane 16 k (neonAddU16 a b) = lane 16 k a + lane 16 k b :=
  lane_masked_add (by decide) topBits_u16 (by omega)

theorem neonAddlU16_lane (a b : DoubleWord) (hk : k < 4) : lane 16 k (neonAddlU16 a b) = lane 16 k a + lane 16 k b :=
  lane_masked_add (by decide) topBits_l16 (by omega)

theorem neonAddlU32_lane (a b : DoubleWord) (hk : k < 2) : lane 32 k (neonAddlU32 a b) = lane 32 k a + lane 32 k b :=
  lane_masked_add (by decide) topBits_l32 (by omega)

theorem neonSublU16_lane (a b : DoubleWord) (hk : k < 4) : lane 16 k (neonSublU16 a b) = lane 16 k a - lane 16 k b :=
  lane_masked_sub (by decide) topBits_l16 (by omega)

theorem neonSublU32_lane (a b : DoubleWord) (hk : k < 2) : lane 32 k (neonSublU32 a b) = lane 32 k a - lane 32 k b :=
  lane_masked_sub (by decide) topBits_l32 (by omega)

end Sums

section Pairs

variable (a b : DoubleWord)

theorem lane16_ushiftRight (x : DoubleWord) (k : Nat) : lane 16 k (x >>> 16) = lane 16 (1 + k) x := lane_ushiftRight 1

theorem lane16_shiftLeft (x : DoubleWord) {k : Nat} (hk : k < 3) : lane 16 (k + 1) (x <<< 16) = lane 16 k x := by
  have h := lane_shiftLeft (w := 16) (x := x) (k := k + 1) (j := 1) (by omega)
  rwa [if_pos (Nat.le_add_left 1 k), Nat.add_sub_cancel] at h

/-- The sums of the first operand lie in the even lanes. -/
theorem paddl_even {k : Nat} (hk : k < 2) :
    lane 16 (2 * k) ((a &&& 0x0000ffff0000ffff#64) + ((a >>> 16) &&& 0x0000ffff0000ffff#64)) =
      lane 16 (2 * k) a + lane 16 (2 * k + 1) a := by
  have hmask : ∀ k : Fin 2, lane 16 (2 * k.val) (0x0000ffff0000ffff#64) = BitVec.allOnes 16 := by decide
  have hpart (x : DoubleWord) : lane 16 (2 * k) (x &&& 0x0000ffff0000ffff#64) = lane 16 (2 * k) x := by
    rw [lane_and, hmask ⟨k, hk⟩, BitVec.and_allOnes]
  have hadd : lane 16 (2 * k) ((a &&& 0x0000ffff0000ffff#64) + ((a >>> 16) &&& 0x0000ffff0000ffff#64)) =
      lane 16 (2 * k) (a &&& 0x0000ffff0000ffff#64) + lane 16 (2 * k) ((a >>> 16) &&& 0x0000ffff0000ffff#64) := by
    have hcases : k = 0 ∨ k = 1 := by omega
    rcases hcases with rfl | rfl
    · exact lane_add_first (by decide)
    · refine lane_add_of_below (k := 1) (by decide) ?_
      have hzero (x : DoubleWord) : lane 16 1 (x &&& 0x0000ffff0000ffff#64) = 0#16 := by
        rw [lane_and]
        exact BitVec.and_zero
      rw [hzero, hzero]
      decide
  rw [hadd, hpart, hpart, lane16_ushiftRight, Nat.add_comm 1]

/-- The sums of the second operand lie in the odd lanes. -/
theorem paddl_odd {k : Nat} (hk : k < 2) :
    lane 16 (2 * k + 1) ((b &&& 0xffff0000ffff0000#64) + ((b <<< 16) &&& 0xffff0000ffff0000#64)) =
      lane 16 (2 * k + 1) b + lane 16 (2 * k) b := by
  have hmask : ∀ k : Fin 2, lane 16 (2 * k.val + 1) (0xffff0000ffff0000#64) = BitVec.allOnes 16 ∧
      lane 16 (2 * k.val) (0xffff0000ffff0000#64) = 0#16 := by decide
  obtain ⟨hodd, heven⟩ := hmask ⟨k, hk⟩
  have hpart (x : DoubleWord) : lane 16 (2 * k + 1) (x &&& 0xffff0000ffff0000#64) = lane 16 (2 * k + 1) x := by
    rw [lane_and, hodd, BitVec.and_allOnes]
  have hzero (x : DoubleWord) : lane 16 (2 * k) (x &&& 0xffff0000ffff0000#64) = 0#16 := by
    rw [lane_and, heven, BitVec.and_zero]
  rw [lane_add_of_below (by omega) (by rw [hzero, hzero]; decide), hpart, hpart, lane16_shiftLeft b (by omega)]

/-- The lane of the pairwise sum that belongs to the lanes `2 * k` and `2 * k + 1` of both operands. -/
theorem neonPaddlU16_lane {k : Nat} (hk : k < 2) :
    lane 16 k (neonPaddlU16 a b) = lane 16 (2 * k) a + lane 16 (2 * k + 1) a ∧
      lane 16 (2 + k) (neonPaddlU16 a b) = lane 16 (2 * k) b + lane 16 (2 * k + 1) b := by
  have ha := paddl_even a hk
  have hb := paddl_odd b hk
  rw [BitVec.add_comm (lane 16 (2 * k + 1) b)] at hb
  rw [← ha, ← hb]
  unfold neonPaddlU16
  dsimp only
  generalize (a &&& 0x0000ffff0000ffff#64) + ((a >>> 16) &&& 0x0000ffff0000ffff#64) = tmp
  generalize (b &&& 0xffff0000ffff0000#64) + ((b <<< 16) &&& 0xffff0000ffff0000#64) = tmp2
  have hresult {j : Nat} {x : DoubleWord} (hj : j < 4) (hx : [tmp, tmp >>> 16, tmp2 <<< 16, tmp2][j]? = some x) :
      lane 16 j (assemble (fun j x ↦ x &&& field 64 16 j) tmp [tmp >>> 16, tmp2 <<< 16, tmp2]) = lane 16 j x :=
    lane_assemble fills_field (by omega) hx
  have hcases : k = 0 ∨ k = 1 := by omega
  rcases hcases with rfl | rfl
  · exact ⟨hresult (j := 0) (by decide) rfl,
      (hresult (j := 2) (by decide) rfl).trans (lane16_shiftLeft tmp2 (k := 1) (by decide))⟩
  · exact ⟨(hresult (j := 1) (by decide) rfl).trans (lane16_ushiftRight tmp 1), hresult (j := 3) (by decide) rfl⟩

end Pairs

section Narrowing

variable (x : DoubleWord)

theorem neonNarrowHighU8_lane {k : Nat} (hk : k < 4) : lane 8 k (neonNarrowHighU8 x) = lane 8 (2 * k + 1) x := by
  have hresult {y : DoubleWord} (hy : [x >>> 8, x >>> 16, x >>> 24, x >>> 32][k]? = some y) :
      lane 8 k (neonNarrowHighU8 x) = lane 8 k y := by
    have hfields : lane 8 k (assemble (fun j (z : DoubleWord) ↦ z &&& field 64 8 j) (x >>> 8)
        [x >>> 16, x >>> 24, x >>> 32]) = lane 8 k y := lane_assemble fills_field (by omega) hy
    exact (lane_setWidth (by omega)).trans hfields
  have hcases : k = 0 ∨ k = 1 ∨ k = 2 ∨ k = 3 := by omega
  rcases hcases with rfl | rfl | rfl | rfl
  · exact (hresult rfl).trans (lane_ushiftRight 1)
  · exact (hresult rfl).trans (lane_ushiftRight 2)
  · exact (hresult rfl).trans (lane_ushiftRight 3)
  · exact (hresult rfl).trans (lane_ushiftRight 4)

theorem neonNarrowHighU16_lane {k : Nat} (hk : k < 2) : lane 16 k (neonNarrowHighU16 x) = lane 16 (2 * k + 1) x := by
  have hresult {y : DoubleWord} (hy : [x >>> 16, x >>> 32][k]? = some y) :
      lane 16 k (neonNarrowHighU16 x) = lane 16 k y := by
    have hfields : lane 16 k (assemble (fun j (z : DoubleWord) ↦ z &&& field 64 16 j) (x >>> 16) [x >>> 32]) =
        lane 16 k y := lane_assemble fills_field (by omega) hy
    exact (lane_setWidth (by omega)).trans hfields
  have hcases : k = 0 ∨ k = 1 := by omega
  rcases hcases with rfl | rfl
  · exact (hresult rfl).trans (lane_ushiftRight 1)
  · exact (hresult rfl).trans (lane_ushiftRight 2)

theorem neonNarrowRoundHighU8_lane {k : Nat} (hk : k < 4) :
    (lane 8 k (neonNarrowRoundHighU8 x)).toNat = ((lane 16 k x).toNat + 2 ^ 7) / 2 ^ 8 % 2 ^ 8 := by
  have hmask : ∀ k : Fin 4, lane 16 k.val (0xff80ff80ff80ff80#64) = high 16 7 ∧
      (lane 16 k.val (0x0080008000800080#64)).toNat = 2 ^ 7 := by decide
  obtain ⟨hkept, hround⟩ := hmask ⟨k, hk⟩
  obtain ⟨c, hc, hsum⟩ := toNat_lane_add_carry (w := 16) (k := k) (x := x &&& 0xff80ff80ff80ff80#64)
    (y := 0x0080008000800080#64) (by omega)
  rw [lane_and, hkept, toNat_and_high, hround] at hsum
  have hhalf := lane_lane (w := 8) (m := 2) (k := k) (i := 1)
    (x := (x &&& 0xff80ff80ff80ff80#64) + 0x0080008000800080#64) (by decide)
  rw [neonNarrowRoundHighU8, neonNarrowHighU8_lane _ hk, ← hhalf, toNat_lane, hsum]
  omega

theorem neonNarrowRoundHighU16_lane {k : Nat} (hk : k < 2) :
    (lane 16 k (neonNarrowRoundHighU16 x)).toNat = ((lane 32 k x).toNat + 2 ^ 15) / 2 ^ 16 % 2 ^ 16 := by
  have hmask : ∀ k : Fin 2, lane 32 k.val (0xffff8000ffff8000#64) = high 32 15 ∧
      (lane 32 k.val (0x0000800000008000#64)).toNat = 2 ^ 15 := by decide
  obtain ⟨hkept, hround⟩ := hmask ⟨k, hk⟩
  obtain ⟨c, hc, hsum⟩ := toNat_lane_add_carry (w := 32) (k := k) (x := x &&& 0xffff8000ffff8000#64)
    (y := 0x0000800000008000#64) (by omega)
  rw [lane_and, hkept, toNat_and_high, hround] at hsum
  have hhalf := lane_lane (w := 16) (m := 2) (k := k) (i := 1)
    (x := (x &&& 0xffff8000ffff8000#64) + 0x0000800000008000#64) (by decide)
  rw [neonNarrowRoundHighU16, neonNarrowHighU16_lane _ hk, ← hhalf, toNat_lane, hsum]
  omega

end Narrowing

section Counting

theorem cnt_byte : ∀ v : BitVec 8,
    (let v := (v &&& 0x55#8) + ((v >>> 1) &&& 0x55#8)
    let v := (v &&& 0x33#8) + ((v >>> 2) &&& 0x33#8)
    (v &&& 0x0f#8) + ((v >>> 4) &&& 0x0f#8)) = v.cpop := by
  decide

/-- One of the three steps, in a lane of eight bits. -/
theorem cnt_step {k j : Nat} {m : Word} {q : BitVec 8} (x : Word) (hk : k < 4)
    (hm : ∀ k : Fin 4, lane 8 k.val m = q) (hroom : q.toNat < 128) (hq : ∀ i < 8, 8 ≤ j + i → q.getLsbD i = false) :
    lane 8 k ((x &&& m) + ((x >>> j) &&& m)) = (lane 8 k x &&& q) + ((lane 8 k x >>> j) &&& q) := by
  have hlanes : ∀ k, 8 * k + 8 ≤ 32 → 2 * (lane 8 k m).toNat + 2 ≤ 2 ^ 8 := by
    intro k hk
    rw [hm ⟨k, by omega⟩]
    omega
  rw [lane_add_and hlanes (by omega), lane_and, lane_and, hm ⟨k, hk⟩, lane_ushiftRight_and hq]

theorem neonCntU8_lane (x : Word) {k : Nat} (hk : k < 4) : lane 8 k (neonCntU8 x) = (lane 8 k x).cpop := by
  rw [← cnt_byte]
  unfold neonCntU8
  dsimp only
  rw [cnt_step (q := 0x0f#8) _ hk (by decide) (by decide) (by decide),
    cnt_step (q := 0x33#8) _ hk (by decide) (by decide) (by decide),
    cnt_step (q := 0x55#8) _ hk (by decide) (by decide) (by decide)]

end Counting

section Polynomials

variable {k : Nat}

theorem and_bit_ne_zero (op1 : Word) {i : Nat} (hi : i < 32) : op1 &&& (1#32 <<< i) ≠ 0 ↔ op1.getLsbD i = true := by
  rw [← BitVec.twoPow_eq]
  exact and_twoPow_ne_zero_iff hi

/-- The bits that the masks are chosen by. -/
theorem bits_eq (op1 : Word) (hk : k < 4) :
    [op1.getLsbD 0, op1.getLsbD 8, op1.getLsbD 16, op1.getLsbD 24][k]? = some ((lane 8 k op1).getLsbD 0) := by
  have hcases : k = 0 ∨ k = 1 ∨ k = 2 ∨ k = 3 := by omega
  rcases hcases with rfl | rfl | rfl | rfl <;> rw [getLsbD_lane] <;> rfl

/-- The mask has the lanes whose lowest bit is set. -/
theorem lane_mulMask (op1 : Word) (hk : k < 4) :
    lane 8 k (mulMask op1) = if (lane 8 k op1).getLsbD 0 then BitVec.allOnes 8 else 0#8 := by
  have hmask : mulMask op1 = assemble (fun j (b : Bool) ↦ if b then field 32 8 j else 0#32) (op1.getLsbD 0)
      [op1.getLsbD 8, op1.getLsbD 16, op1.getLsbD 24] := by
    have hfirst : op1 &&& 1#32 ≠ 0 ↔ op1.getLsbD 0 = true := and_bit_ne_zero op1 (i := 0) (by decide)
    unfold mulMask
    rw [if_congr hfirst rfl rfl, if_congr (and_bit_ne_zero op1 (i := 8) (by decide)) rfl rfl,
      if_congr (and_bit_ne_zero op1 (i := 16) (by decide)) rfl rfl,
      if_congr (and_bit_ne_zero op1 (i := 24) (by decide)) rfl rfl]
    rfl
  rw [hmask, lane_assemble fills_if (by omega) (bits_eq op1 hk)]

theorem lane_mullMask (op1 : Word) (hk : k < 4) :
    lane 16 k (mullMask op1) = if (lane 8 k op1).getLsbD 0 then BitVec.allOnes 16 else 0#16 := by
  have hmask : mullMask op1 = assemble (fun j (b : Bool) ↦ if b then field 64 16 j else 0#64) (op1.getLsbD 0)
      [op1.getLsbD 8, op1.getLsbD 16, op1.getLsbD 24] := by
    have hfirst : op1 &&& 1#32 ≠ 0 ↔ op1.getLsbD 0 = true := and_bit_ne_zero op1 (i := 0) (by decide)
    unfold mullMask
    rw [if_congr hfirst rfl rfl, if_congr (and_bit_ne_zero op1 (i := 8) (by decide)) rfl rfl,
      if_congr (and_bit_ne_zero op1 (i := 16) (by decide)) rfl rfl,
      if_congr (and_bit_ne_zero op1 (i := 24) (by decide)) rfl rfl]
    rfl
  rw [hmask, lane_assemble fills_if (by omega) (bits_eq op1 hk)]

theorem lane_nextBits (op1 : Word) (hk : k < 4) : lane 8 k (nextBits op1) = lane 8 k op1 >>> 1 := by
  have hmask : ∀ k : Fin 4, lane 8 k.val (0x7f7f7f7f#32) = 0x7f#8 := by decide
  have htop : ∀ v : BitVec 8, (v >>> 1) &&& 0x7f#8 = v >>> 1 := by decide
  rw [nextBits, lane_and, hmask ⟨k, hk⟩, lane_ushiftRight_and (by decide), htop]

theorem lane_doubled (op2 : Word) (hk : k < 4) : lane 8 k ((op2 <<< 1) &&& 0xfefefefe#32) = lane 8 k op2 <<< 1 := by
  have hmask : ∀ k : Fin 4, lane 8 k.val (0xfefefefe#32) = 0xfe#8 := by decide
  have hlow : ∀ v : BitVec 8, (v <<< 1) &&& 0xfe#8 = v <<< 1 := by decide
  rw [lane_and, hmask ⟨k, hk⟩, lane_shiftLeft_and (by omega) (by decide), hlow]

/-- What the loop still adds to a lane. -/
theorem lane_mulLoop (op1 op2 result : Word) (hk : k < 4) :
    lane 8 k (mulLoop op1 op2 result) = lane 8 k result ^^^ clmul (lane 8 k op1) (lane 8 k op2) := by
  induction op1, op2, result using mulLoop.induct with
  | case1 op2 result =>
    rw [mulLoop, if_pos rfl, lane_zero, zero_clmul, BitVec.xor_zero]
  | case2 op1 op2 result h ih =>
    rw [mulLoop, if_neg h, ih, lane_xor, lane_and, lane_mulMask op1 hk, lane_nextBits op1 hk, lane_doubled op2 hk,
      clmul_step (lane 8 k op1), BitVec.xor_assoc]
    congr 2
    split_ifs
    · exact BitVec.and_allOnes
    · exact BitVec.and_zero

theorem neonMulP8_lane (op1 op2 : Word) (hk : k < 4) :
    lane 8 k (neonMulP8 op1 op2) = clmul (lane 8 k op1) (lane 8 k op2) := by
  rw [neonMulP8, lane_mulLoop op1 op2 0 hk]
  exact (congrArg (· ^^^ _) (lane_zero k)).trans BitVec.zero_xor

/-- The bytes of the second operand, spread out. -/
def spread (op2 : Word) : DoubleWord :=
  let op2ex := op2.setWidth 64
  (op2ex &&& 0xff#64) ||| ((op2ex &&& 0xff00#64) <<< 8) ||| ((op2ex &&& 0xff0000#64) <<< 16) |||
    ((op2ex &&& 0xff000000#64) <<< 24)

theorem fills_spread : Fills (n := 64) (w := 16)
    (fun j (x : DoubleWord) ↦ if j = 0 then x &&& field 64 8 0 else (x &&& field 64 8 j) <<< (8 * j))
    (fun k x ↦ (lane 8 k x).setWidth 16) := by
  intro j k x hn
  have hput : (if j = 0 then x &&& field 64 8 0 else (x &&& field 64 8 j) <<< (8 * j)) =
      (x &&& field 64 8 j) <<< (8 * j) := by
    split_ifs with hj
    · rw [hj]
      exact (BitVec.shiftLeft_zero _).symm
    · rfl
  dsimp only
  rw [hput]
  apply BitVec.eq_of_getLsbD_eq
  intro i hi
  have hin : 16 * k + i < 64 := by omega
  rw [getLsbD_lane, BitVec.getLsbD_shiftLeft, BitVec.getLsbD_and, getLsbD_field]
  by_cases hkj : k = j
  · subst hkj
    have hge : ¬ 16 * k + i < 8 * k := by omega
    have hle : 8 * k ≤ 16 * k + i - 8 * k := by omega
    have hlt : 16 * k + i - 8 * k < 64 := by omega
    have hbyte : 16 * k + i - 8 * k < 8 * k + 8 ↔ i < 8 := by omega
    rw [if_pos rfl, BitVec.getLsbD_setWidth, getLsbD_lane]
    simp only [hi, hin, hge, hle, hlt, hbyte, decide_true, decide_false, Bool.not_false, Bool.true_and]
    rw [show 16 * k + i - 8 * k = 8 * k + i by omega, Bool.and_comm]
  · rw [if_neg hkj, BitVec.getLsbD_zero]
    by_cases hlow : 8 * j ≤ 16 * k + i - 8 * j
    · have hhigh : ¬ 16 * k + i - 8 * j < 8 * j + 8 := by omega
      simp only [hhigh, decide_false, Bool.and_false]
    · simp only [hlow, decide_false, Bool.and_false, Bool.false_and]

theorem lane_spread (op2 : Word) (hk : k < 4) : lane 16 k (spread op2) = (lane 8 k op2).setWidth 16 := by
  have hget : [op2.setWidth 64, op2.setWidth 64, op2.setWidth 64, op2.setWidth 64][k]? = some (op2.setWidth 64) := by
    have hcases : k = 0 ∨ k = 1 ∨ k = 2 ∨ k = 3 := by omega
    rcases hcases with rfl | rfl | rfl | rfl <;> rfl
  have hlane := lane_assemble fills_spread (by omega) hget
  rw [lane_setWidth (by omega)] at hlane
  exact hlane

/-- Before the pass `j`, the lanes have `8 - j` bits of the first operand left and room for as many shifts. -/
structure MullInv (j : Nat) (op1 : Word) (op2ex : DoubleWord) : Prop where
  le : j ≤ 8
  bits : ∀ k < 4, (lane 8 k op1).toNat < 2 ^ (8 - j)
  room : ∀ k < 4, (lane 16 k op2ex).toNat < 2 ^ (8 + j)

theorem MullInv.lt {j : Nat} {op1 : Word} {op2ex : DoubleWord} (h : MullInv j op1 op2ex) (hne : op1 ≠ 0#32) : j < 8 := by
  refine Nat.lt_of_le_of_ne h.le fun hj ↦ hne ?_
  refine eq_of_lanes (w := 8) (m := 4) (by decide) fun k hk ↦ ?_
  have hlane := h.bits k hk
  rw [hj, Nat.sub_self, Nat.pow_zero, Nat.lt_one_iff] at hlane
  rw [lane_zero]
  exact BitVec.eq_of_toNat_eq hlane

theorem MullInv.double {j : Nat} {op1 : Word} {op2ex : DoubleWord} (h : MullInv j op1 op2ex) (hj : j < 8) (hk : k < 4) :
    lane 16 k (op2ex <<< 1) = lane 16 k op2ex <<< 1 := by
  refine lane_double (by omega) fun i hi ↦ ?_
  have hroom := h.room i (by omega)
  have hle : 2 ^ (8 + j) ≤ 2 ^ 15 := Nat.pow_le_pow_right (by decide) (by omega)
  omega

theorem MullInv.next {j : Nat} {op1 : Word} {op2ex : DoubleWord} (h : MullInv j op1 op2ex) (hj : j < 8) :
    MullInv (j + 1) (nextBits op1) (op2ex <<< 1) where
  le := hj
  bits k hk := by
    have hbits := h.bits k hk
    rw [show 8 - j = 8 - (j + 1) + 1 by omega, Nat.pow_succ] at hbits
    rw [lane_nextBits op1 hk, BitVec.toNat_ushiftRight, Nat.shiftRight_one]
    omega
  room k hk := by
    have hroom := h.room k hk
    rw [h.double hj hk, BitVec.toNat_shiftLeft, Nat.shiftLeft_eq, Nat.pow_one, ← Nat.add_assoc, Nat.pow_succ]
    exact Nat.lt_of_le_of_lt (Nat.mod_le _ _) (by omega)

theorem lane_mullLoop {j : Nat} {op1 : Word} {op2ex : DoubleWord} (hinv : MullInv j op1 op2ex) (result : DoubleWord)
    (hk : k < 4) : lane 16 k (mullLoop op1 op2ex result) =
      lane 16 k result ^^^ clmul ((lane 8 k op1).setWidth 16) (lane 16 k op2ex) := by
  have hshift : ∀ v : BitVec 8, (v >>> 1).setWidth 16 = v.setWidth 16 >>> 1 := by decide
  have hbit : ∀ v : BitVec 8, (v.setWidth 16).getLsbD 0 = v.getLsbD 0 := by decide
  induction op1, op2ex, result using mullLoop.induct generalizing j with
  | case1 op2ex result =>
    rw [mullLoop, if_pos rfl, lane_zero]
    exact ((congrArg _ (zero_clmul _)).trans BitVec.xor_zero).symm
  | case2 op1 op2ex result h ih =>
    have hj := hinv.lt h
    rw [mullLoop, if_neg h, ih (hinv.next hj), lane_xor, lane_and, lane_mullMask op1 hk, lane_nextBits op1 hk,
      hinv.double hj hk, hshift, clmul_step ((lane 8 k op1).setWidth 16), hbit, BitVec.xor_assoc]
    congr 2
    split_ifs
    · exact BitVec.and_allOnes
    · exact BitVec.and_zero

theorem neonMullP8_lane (op1 op2 : Word) (hk : k < 4) :
    lane 16 k (neonMullP8 op1 op2) = clmul ((lane 8 k op1).setWidth 16) ((lane 8 k op2).setWidth 16) := by
  have hinv : MullInv 0 op1 (spread op2) := by
    refine ⟨by decide, fun k _ ↦ (lane 8 k op1).isLt, fun k hk ↦ ?_⟩
    rw [lane_spread op2 hk, BitVec.toNat_setWidth_of_le (by decide)]
    exact (lane 8 k op2).isLt
  rw [← lane_spread op2 hk]
  refine (lane_mullLoop hinv 0 hk).trans ?_
  exact (congrArg (· ^^^ _) (lane_zero k)).trans BitVec.zero_xor

end Polynomials

section Halves

variable (a b : Word)

theorem sshiftRight_one : a.sshiftRight 1 = BitVec.ofInt 32 (a.toInt / 2) := by
  apply BitVec.eq_of_toInt_eq
  have hlow := BitVec.le_toInt a
  have hhigh := BitVec.toInt_lt (x := a)
  rw [BitVec.toInt_sshiftRight, Int.shiftRight_eq_div_pow, BitVec.toInt_ofInt_eq_self (by decide) (by omega) (by omega)]
  rfl

theorem ushiftRight_one : a >>> 1 = BitVec.ofInt 32 ((a.toNat : Int) / 2) := by
  apply BitVec.eq_of_toNat_eq
  have hlt := a.isLt
  rw [BitVec.toNat_ushiftRight, Nat.shiftRight_one, BitVec.toNat_ofInt]
  omega

theorem odd_toNat : a.getLsbD 0 = true ↔ (a.toNat : Int) % 2 = 1 := by
  rw [BitVec.getLsbD, Nat.testBit_zero, decide_eq_true_iff]
  omega

theorem odd_toInt : a.getLsbD 0 = true ↔ a.toInt % 2 = 1 := by
  rw [odd_toNat, BitVec.toInt_eq_toNat_cond]
  split_ifs <;> omega

theorem and_one_ne_zero : a &&& 1#32 ≠ 0 ↔ a.getLsbD 0 = true := and_bit_ne_zero a (i := 0) (by decide)

theorem ite_add_one (p : Prop) [Decidable p] (x y : Int) : (if p then BitVec.ofInt 32 x + BitVec.ofInt 32 y + 1
    else BitVec.ofInt 32 x + BitVec.ofInt 32 y) = BitVec.ofInt 32 (x + y + if p then 1 else 0) := by
  split_ifs
  · rw [BitVec.ofInt_add, BitVec.ofInt_add]
    rfl
  · rw [Int.add_zero, BitVec.ofInt_add]

theorem ite_sub_one (p : Prop) [Decidable p] (x y : Int) : (if p then BitVec.ofInt 32 x - BitVec.ofInt 32 y - 1
    else BitVec.ofInt 32 x - BitVec.ofInt 32 y) = BitVec.ofInt 32 (x - y - if p then 1 else 0) := by
  split_ifs
  · rw [ofInt_sub, ofInt_sub]
    rfl
  · rw [Int.sub_zero, ofInt_sub]

/-- The carry of the lowest bits, with either reading of the operands. -/
theorem half_sum {A B : Int} (ha : a.getLsbD 0 = true ↔ A % 2 = 1) (hb : b.getLsbD 0 = true ↔ B % 2 = 1) :
    (A / 2 + B / 2 + if a &&& b &&& 1#32 ≠ 0 then 1 else 0) = (A + B) / 2 ∧
    (A / 2 + B / 2 + if (a ||| b) &&& 1#32 ≠ 0 then 1 else 0) = (A + B + 1) / 2 ∧
    (A / 2 - B / 2 - if ~~~a &&& b &&& 1#32 ≠ 0 then 1 else 0) = (A - B) / 2 := by
  have hand : a &&& b &&& 1#32 ≠ 0 ↔ A % 2 = 1 ∧ B % 2 = 1 := by
    rw [and_one_ne_zero, BitVec.getLsbD_and, Bool.and_eq_true, ha, hb]
  have hor : (a ||| b) &&& 1#32 ≠ 0 ↔ A % 2 = 1 ∨ B % 2 = 1 := by
    rw [and_one_ne_zero, BitVec.getLsbD_or, Bool.or_eq_true, ha, hb]
  have hborrow : ~~~a &&& b &&& 1#32 ≠ 0 ↔ ¬ A % 2 = 1 ∧ B % 2 = 1 := by
    rw [and_one_ne_zero, BitVec.getLsbD_and, Bool.and_eq_true, BitVec.getLsbD_not, hb, ← ha]
    simp
  rw [if_congr hand rfl rfl, if_congr hor rfl rfl, if_congr hborrow rfl rfl]
  refine ⟨?_, ?_, ?_⟩ <;> split_ifs <;> omega

theorem toInt_ofInt_half {z : Int} (hlow : -2 ^ 31 ≤ z) (hhigh : z < 2 ^ 31) : (BitVec.ofInt 32 z).toInt = z :=
  BitVec.toInt_ofInt_eq_self (by decide) hlow hhigh

theorem neonHaddS32_toInt : (neonHaddS32 a b).toInt = (a.toInt + b.toInt) / 2 := by
  have heq : neonHaddS32 a b = BitVec.ofInt 32 ((a.toInt + b.toInt) / 2) := by
    unfold neonHaddS32
    rw [sshiftRight_one, sshiftRight_one, ← (half_sum a b (odd_toInt a) (odd_toInt b)).1]
    exact ite_add_one _ _ _
  have ha := a.le_toInt
  have hb := b.le_toInt
  have ha' := a.toInt_lt
  have hb' := b.toInt_lt
  rw [heq, toInt_ofInt_half (by omega) (by omega)]

theorem neonHaddU32_toNat : (neonHaddU32 a b).toNat = (a.toNat + b.toNat) / 2 := by
  have heq : neonHaddU32 a b = BitVec.ofInt 32 (((a.toNat : Int) + b.toNat) / 2) := by
    unfold neonHaddU32
    rw [ushiftRight_one, ushiftRight_one, ← (half_sum a b (odd_toNat a) (odd_toNat b)).1]
    exact ite_add_one _ _ _
  have ha := a.isLt
  have hb := b.isLt
  rw [heq, BitVec.toNat_ofInt]
  omega

theorem neonRhaddS32_toInt : (neonRhaddS32 a b).toInt = (a.toInt + b.toInt + 1) / 2 := by
  have heq : neonRhaddS32 a b = BitVec.ofInt 32 ((a.toInt + b.toInt + 1) / 2) := by
    unfold neonRhaddS32
    rw [sshiftRight_one, sshiftRight_one, ← (half_sum a b (odd_toInt a) (odd_toInt b)).2.1]
    exact ite_add_one _ _ _
  have ha := a.le_toInt
  have hb := b.le_toInt
  have ha' := a.toInt_lt
  have hb' := b.toInt_lt
  rw [heq, toInt_ofInt_half (by omega) (by omega)]

theorem neonRhaddU32_toNat : (neonRhaddU32 a b).toNat = (a.toNat + b.toNat + 1) / 2 := by
  have heq : neonRhaddU32 a b = BitVec.ofInt 32 (((a.toNat : Int) + b.toNat + 1) / 2) := by
    unfold neonRhaddU32
    rw [ushiftRight_one, ushiftRight_one, ← (half_sum a b (odd_toNat a) (odd_toNat b)).2.1]
    exact ite_add_one _ _ _
  have ha := a.isLt
  have hb := b.isLt
  rw [heq, BitVec.toNat_ofInt]
  omega

theorem neonHsubS32_toInt : (neonHsubS32 a b).toInt = (a.toInt - b.toInt) / 2 := by
  have heq : neonHsubS32 a b = BitVec.ofInt 32 ((a.toInt - b.toInt) / 2) := by
    unfold neonHsubS32
    rw [sshiftRight_one, sshiftRight_one, ← (half_sum a b (odd_toInt a) (odd_toInt b)).2.2]
    exact ite_sub_one _ _ _
  have ha := a.le_toInt
  have hb := b.le_toInt
  have ha' := a.toInt_lt
  have hb' := b.toInt_lt
  rw [heq, toInt_ofInt_half (by omega) (by omega)]

/-- Half of a negative difference wraps around. -/
theorem neonHsubU32_eq : neonHsubU32 a b = BitVec.ofInt 32 (((a.toNat : Int) - b.toNat) / 2) := by
  unfold neonHsubU32
  rw [ushiftRight_one, ushiftRight_one, ← (half_sum a b (odd_toNat a) (odd_toNat b)).2.2]
  exact ite_sub_one _ _ _

end Halves

section Lanewise

/-- The results of the helpers that keep their lanes in one word. -/
structure SumsLanewise : Prop where
  addU8 : ∀ a b : Word, ∀ k < 4, lane 8 k (neonAddU8 a b) = lane 8 k a + lane 8 k b
  addU16 : ∀ a b : Word, ∀ k < 2, lane 16 k (neonAddU16 a b) = lane 16 k a + lane 16 k b
  addlU16 : ∀ a b : DoubleWord, ∀ k < 4, lane 16 k (neonAddlU16 a b) = lane 16 k a + lane 16 k b
  addlU32 : ∀ a b : DoubleWord, ∀ k < 2, lane 32 k (neonAddlU32 a b) = lane 32 k a + lane 32 k b
  sublU16 : ∀ a b : DoubleWord, ∀ k < 4, lane 16 k (neonSublU16 a b) = lane 16 k a - lane 16 k b
  sublU32 : ∀ a b : DoubleWord, ∀ k < 2, lane 32 k (neonSublU32 a b) = lane 32 k a - lane 32 k b
  paddlU16 : ∀ a b : DoubleWord, ∀ k < 2,
    lane 16 k (neonPaddlU16 a b) = lane 16 (2 * k) a + lane 16 (2 * k + 1) a ∧
      lane 16 (2 + k) (neonPaddlU16 a b) = lane 16 (2 * k) b + lane 16 (2 * k + 1) b

structure BytesLanewise : Prop where
  narrowRoundHighU8 : ∀ x : DoubleWord, ∀ k < 4,
    (lane 8 k (neonNarrowRoundHighU8 x)).toNat = ((lane 16 k x).toNat + 2 ^ 7) / 2 ^ 8 % 2 ^ 8
  narrowRoundHighU16 : ∀ x : DoubleWord, ∀ k < 2,
    (lane 16 k (neonNarrowRoundHighU16 x)).toNat = ((lane 32 k x).toNat + 2 ^ 15) / 2 ^ 16 % 2 ^ 16
  cntU8 : ∀ x : Word, ∀ k < 4, lane 8 k (neonCntU8 x) = (lane 8 k x).cpop
  mulP8 : ∀ a b : Word, ∀ k < 4, lane 8 k (neonMulP8 a b) = clmul (lane 8 k a) (lane 8 k b)
  mullP8 : ∀ a b : Word, ∀ k < 4,
    lane 16 k (neonMullP8 a b) = clmul ((lane 8 k a).setWidth 16) ((lane 8 k b).setWidth 16)

structure HalvesExact : Prop where
  haddS32 : ∀ a b : Word, (neonHaddS32 a b).toInt = (a.toInt + b.toInt) / 2
  haddU32 : ∀ a b : Word, (neonHaddU32 a b).toNat = (a.toNat + b.toNat) / 2
  rhaddS32 : ∀ a b : Word, (neonRhaddS32 a b).toInt = (a.toInt + b.toInt + 1) / 2
  rhaddU32 : ∀ a b : Word, (neonRhaddU32 a b).toNat = (a.toNat + b.toNat + 1) / 2
  hsubS32 : ∀ a b : Word, (neonHsubS32 a b).toInt = (a.toInt - b.toInt) / 2
  hsubU32 : ∀ a b : Word, neonHsubU32 a b = BitVec.ofInt 32 (((a.toNat : Int) - b.toNat) / 2)

/-- No carry, borrow or shifted bit of one lane reaches a result bit of another. -/
theorem packed_lanewise : SumsLanewise ∧ BytesLanewise ∧ HalvesExact :=
  ⟨⟨fun a b _ ↦ neonAddU8_lane a b, fun a b _ ↦ neonAddU16_lane a b, fun a b _ ↦ neonAddlU16_lane a b,
      fun a b _ ↦ neonAddlU32_lane a b, fun a b _ ↦ neonSublU16_lane a b, fun a b _ ↦ neonSublU32_lane a b,
      fun a b _ ↦ neonPaddlU16_lane a b⟩,
    ⟨fun x _ ↦ neonNarrowRoundHighU8_lane x, fun x _ ↦ neonNarrowRoundHighU16_lane x, fun x _ ↦ neonCntU8_lane x,
      fun a b _ ↦ neonMulP8_lane a b, fun a b _ ↦ neonMullP8_lane a b⟩,
    ⟨neonHaddS32_toInt, neonHaddU32_toNat, neonRhaddS32_toInt, neonRhaddU32_toNat, neonHsubS32_toInt, neonHsubU32_eq⟩⟩

end Lanewise

end IDeviceEmulator.Arm.Neon
