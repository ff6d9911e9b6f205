import Mathlib.Algebra.GroupWithZero.Nat
import Mathlib.Tactic.Common
import Mathlib.Tactic.Ring

namespace Lanes

variable {n w : Nat}

/-- The part `k` of a word that is made of parts of `w` bits, from the least significant one up. -/
def lane (w k : Nat) (x : BitVec n) : BitVec w := x.extractLsb' (w * k) w

section Bits

variable (x y : BitVec n) (k : Nat)

theorem getLsbD_lane (i : Nat) : (lane w k x).getLsbD i = (decide (i < w) && x.getLsbD (w * k + i)) :=
  BitVec.getLsbD_extractLsb' _ _ _ _

theorem toNat_lane : (lane w k x).toNat = x.toNat / 2 ^ (w * k) % 2 ^ w := by
  rw [lane, BitVec.extractLsb'_toNat, Nat.shiftRight_eq_div_pow]

theorem lane_and : lane w k (x &&& y) = lane w k x &&& lane w k y := BitVec.extractLsb'_and

theorem lane_or : lane w k (x ||| y) = lane w k x ||| lane w k y := BitVec.extractLsb'_or

theorem lane_xor : lane w k (x ^^^ y) = lane w k x ^^^ lane w k y := BitVec.extractLsb'_xor

theorem lane_zero : lane w k (0#n) = 0#w := BitVec.extractLsb'_zero

variable {x y} {k}

theorem lane_not (h : w * k + w ≤ n) : lane w k (~~~x) = ~~~lane w k x := by
  apply BitVec.eq_of_getLsbD_eq
  intro i hi
  have hin : w * k + i < n := by omega
  simp only [getLsbD_lane, BitVec.getLsbD_not, hi, hin, decide_true, Bool.true_and]

/-- Words are equal when their lanes are. -/
theorem eq_of_lanes {m : Nat} (hn : n ≤ w * m) (h : ∀ k < m, lane w k x = lane w k y) : x = y := by
  apply BitVec.eq_of_getLsbD_eq
  intro i hi
  have hw : 0 < w := Nat.pos_of_ne_zero (by rintro rfl; omega)
  have hk : i / w < m := by
    rw [Nat.div_lt_iff_lt_mul hw, Nat.mul_comm]
    omega
  have hbit := congrArg (BitVec.getLsbD · (i % w)) (h _ hk)
  simpa only [getLsbD_lane, Nat.mod_lt i hw, decide_true, Bool.true_and, Nat.div_add_mod] using hbit

theorem lane_ushiftRight (j : Nat) : lane w k (x >>> (w * j)) = lane w (j + k) x := by
  apply BitVec.eq_of_getLsbD_eq
  intro i hi
  rw [getLsbD_lane, getLsbD_lane, BitVec.getLsbD_ushiftRight, Nat.mul_add, Nat.add_assoc]

theorem lane_shiftLeft {j : Nat} (hn : w * k + w ≤ n) :
    lane w k (x <<< (w * j)) = if j ≤ k then lane w (k - j) x else 0#w := by
  apply BitVec.eq_of_getLsbD_eq
  intro i hi
  have hin : w * k + i < n := by omega
  rw [getLsbD_lane, BitVec.getLsbD_shiftLeft]
  simp only [hi, hin, decide_true, Bool.true_and]
  by_cases hjk : j ≤ k
  · obtain ⟨d, rfl⟩ := Nat.exists_eq_add_of_le hjk
    have hge : ¬ w * (j + d) + i < w * j := by
      rw [Nat.mul_add]
      omega
    have hsub : w * (j + d) + i - w * j = w * d + i := by
      rw [Nat.mul_add]
      omega
    rw [if_pos hjk, getLsbD_lane, Nat.add_sub_cancel_left, hsub]
    simp only [hge, hi, decide_false, decide_true, Bool.not_false, Bool.true_and]
  · have hlt : w * k + i < w * j := by
      have hle : w * (k + 1) ≤ w * j := Nat.mul_le_mul_left w (by omega)
      rw [Nat.mul_add] at hle
      omega
    rw [if_neg hjk]
    simp only [hlt, decide_true, Bool.not_true, Bool.false_and, BitVec.getLsbD_zero]

/-- The lanes of a lane. -/
theorem lane_lane {m i : Nat} (hi : i < m) : lane w i (lane (w * m) k x) = lane w (m * k + i) x := by
  apply BitVec.eq_of_getLsbD_eq
  intro j hj
  have hlt : w * i + j < w * m := by
    have hle : w * (i + 1) ≤ w * m := Nat.mul_le_mul_left w hi
    rw [Nat.mul_add] at hle
    omega
  rw [getLsbD_lane, getLsbD_lane, getLsbD_lane, decide_eq_true hlt, Bool.true_and, Nat.mul_add, Nat.mul_assoc,
    Nat.add_assoc]

/-- A shift inside every lane, where the bits of the next lane are masked off. -/
theorem lane_ushiftRight_and {j : Nat} {q : BitVec w} (hq : ∀ i < w, w ≤ j + i → q.getLsbD i = false) :
    lane w k (x >>> j) &&& q = (lane w k x >>> j) &&& q := by
  apply BitVec.eq_of_getLsbD_eq
  intro i hi
  rw [BitVec.getLsbD_and, BitVec.getLsbD_and, getLsbD_lane, BitVec.getLsbD_ushiftRight, BitVec.getLsbD_ushiftRight,
    getLsbD_lane]
  by_cases hin : j + i < w
  · rw [show w * k + (j + i) = j + (w * k + i) by omega]
    simp only [hi, hin, decide_true, Bool.true_and]
  · rw [hq i hi (Nat.le_of_not_lt hin), Bool.and_false, Bool.and_false]

theorem lane_shiftLeft_and {j : Nat} {q : BitVec w} (hn : w * k + w ≤ n) (hq : ∀ i < j, q.getLsbD i = false) :
    lane w k (x <<< j) &&& q = (lane w k x <<< j) &&& q := by
  apply BitVec.eq_of_getLsbD_eq
  intro i hi
  have hin : w * k + i < n := by omega
  rw [BitVec.getLsbD_and, BitVec.getLsbD_and, getLsbD_lane, BitVec.getLsbD_shiftLeft, BitVec.getLsbD_shiftLeft,
    getLsbD_lane]
  by_cases hj : i < j
  · rw [hq i hj, Bool.and_false, Bool.and_false]
  · have hsub : w * k + i - j = w * k + (i - j) := by omega
    have hge : ¬ w * k + i < j := by omega
    have hlt : i - j < w := by omega
    simp only [hi, hin, hj, hge, hlt, hsub, decide_true, decide_false, Bool.not_false, Bool.true_and]

theorem lane_setWidth {m : Nat} (h : w * k + w ≤ m) : lane w k (x.setWidth m) = lane w k x :=
  BitVec.extractLsb'_setWidth_of_le h

theorem setWidth_ushiftRight (j : Nat) : (x >>> (w * j)).setWidth w = lane w j x :=
  BitVec.setWidth_ushiftRight_eq_extractLsb

theorem setWidth_eq_lane (x : BitVec n) : x.setWidth w = lane w 0 x := by
  have hshift := setWidth_ushiftRight (w := w) (x := x) 0
  rwa [Nat.mul_zero, BitVec.ushiftRight_zero] at hshift

theorem lane_self (x : BitVec w) : lane w 0 x = x := by
  rw [← setWidth_eq_lane, BitVec.setWidth_eq]

theorem lane_setWidth_self (h : w ≤ n) (x : BitVec w) (i : Nat) :
    lane w i (x.setWidth n) = if i = 0 then x else 0#w := by
  apply BitVec.eq_of_getLsbD_eq
  intro b hb
  rw [getLsbD_lane, BitVec.getLsbD_setWidth]
  by_cases hi : i = 0
  · have hbn : b < n := by omega
    subst hi
    simp only [hb, hbn, Nat.mul_zero, Nat.zero_add, decide_true, Bool.true_and, if_true]
  · have hge : w ≤ w * i + b := by
      have hle : w * 1 ≤ w * i := Nat.mul_le_mul_left w (by omega)
      omega
    rw [if_neg hi, BitVec.getLsbD_of_ge x _ hge, Bool.and_false, Bool.and_false, BitVec.getLsbD_zero]

theorem lane_append_zero {m : Nat} (x : BitVec m) (y : BitVec w) : lane w 0 (x ++ y) = y := by
  apply BitVec.eq_of_getLsbD_eq
  intro i hi
  rw [getLsbD_lane, BitVec.getLsbD_append, Nat.mul_zero, Nat.zero_add, if_pos hi, decide_eq_true hi, Bool.true_and]

theorem lane_append_succ {m : Nat} (k : Nat) (x : BitVec m) (y : BitVec w) :
    lane w (k + 1) (x ++ y) = lane w k x := by
  apply BitVec.eq_of_getLsbD_eq
  intro i hi
  rw [getLsbD_lane, getLsbD_lane, BitVec.getLsbD_append, Nat.mul_succ, if_neg (by omega),
    show w * k + w + i - w = w * k + i by omega]

/-- The mask of one lane. -/
def field (n w j : Nat) : BitVec n := (BitVec.allOnes w).setWidth n <<< (w * j)

theorem getLsbD_field (n w j i : Nat) :
    (field n w j).getLsbD i = (decide (i < n) && decide (w * j ≤ i) && decide (i < w * j + w)) := by
  rw [field, BitVec.getLsbD_shiftLeft, BitVec.getLsbD_setWidth, BitVec.getLsbD_allOnes]
  by_cases hi : i < n
  · by_cases hj : w * j ≤ i
    · have hsub : i - w * j < n := by omega
      have hlt : i - w * j < w ↔ i < w * j + w := by omega
      simp only [hi, hj, hsub, hlt, Nat.not_lt.mpr hj, decide_true, decide_false, Bool.not_false, Bool.true_and]
    · simp only [hj, Nat.lt_of_not_le hj, decide_true, decide_false, Bool.not_true, Bool.and_false, Bool.false_and]
  · simp only [hi, decide_false, Bool.false_and]

theorem lane_field {j : Nat} (hn : w * k + w ≤ n) :
    lane w k (field n w j) = if k = j then BitVec.allOnes w else 0#w := by
  apply BitVec.eq_of_getLsbD_eq
  intro i hi
  have hin : w * k + i < n := by omega
  rw [getLsbD_lane, getLsbD_field]
  simp only [hi, hin, decide_true, Bool.true_and]
  rcases Nat.lt_trichotomy k j with hkj | rfl | hkj
  · have hlt : ¬ w * j ≤ w * k + i := by
      have hle : w * (k + 1) ≤ w * j := Nat.mul_le_mul_left w hkj
      rw [Nat.mul_add] at hle
      omega
    rw [if_neg (Nat.ne_of_lt hkj)]
    simp only [hlt, decide_false, Bool.false_and, BitVec.getLsbD_zero]
  · rw [if_pos rfl, BitVec.getLsbD_allOnes]
    simp only [hi, Nat.le_add_right, Nat.add_lt_add_iff_left, decide_true, Bool.true_and]
  · have hge : ¬ w * k + i < w * j + w := by
      have hle : w * (j + 1) ≤ w * k := Nat.mul_le_mul_left w hkj
      rw [Nat.mul_add] at hle
      omega
    rw [if_neg (Nat.ne_of_gt hkj)]
    simp only [hge, decide_false, Bool.and_false, BitVec.getLsbD_zero]

end Bits

section Assembly

variable {α : Type} {put : Nat → α → BitVec n} {get : Nat → α → BitVec w}

/-- A word with more parts put into it, from the position `j` on. -/
def orFrom (put : Nat → α → BitVec n) (acc : BitVec n) (j : Nat) : List α → BitVec n
  | [] => acc
  | x :: xs => orFrom put (acc ||| put j x) (j + 1) xs

/-- A word that is put together from its parts. -/
def assemble (put : Nat → α → BitVec n) (x : α) (xs : List α) : BitVec n := orFrom put (put 0 x) 1 xs

/-- What is put at a position fills the lane there and no other. -/
def Fills (put : Nat → α → BitVec n) (get : Nat → α → BitVec w) : Prop :=
  ∀ j k x, w * k + w ≤ n → lane w k (put j x) = if k = j then get k x else 0#w

theorem lane_orFrom (h : Fills put get) {k : Nat} (hn : w * k + w ≤ n) (acc : BitVec n) (j : Nat) (xs : List α) :
    lane w k (orFrom put acc j xs) =
      lane w k acc ||| (if j ≤ k then (xs[k - j]?.map (get k)).getD 0#w else 0#w) := by
  induction xs generalizing acc j with
  | nil =>
    rw [orFrom]
    simp
  | cons x xs ih =>
    rw [orFrom, ih, lane_or, h j k x hn, BitVec.or_assoc]
    congr 1
    rcases Nat.lt_trichotomy k j with hkj | rfl | hkj
    · rw [if_neg (by omega), if_neg (by omega), if_neg (by omega), BitVec.or_zero]
    · rw [if_pos rfl, if_neg (by omega), if_pos (Nat.le_refl k), Nat.sub_self, List.getElem?_cons_zero,
        BitVec.or_zero]
      rfl
    · rw [if_neg (by omega), if_pos (by omega), if_pos (by omega), BitVec.zero_or,
        show k - j = k - (j + 1) + 1 by omega, List.getElem?_cons_succ]

theorem lane_assemble (h : Fills put get) {x y : α} {xs : List α} {k : Nat} (hn : w * k + w ≤ n)
    (hk : (x :: xs)[k]? = some y) : lane w k (assemble put x xs) = get k y := by
  rw [assemble, lane_orFrom h hn, h 0 k x hn]
  cases k with
  | zero =>
    cases hk
    rw [if_pos rfl, if_neg (by decide), BitVec.or_zero]
  | succ k =>
    rw [List.getElem?_cons_succ] at hk
    rw [if_neg (by omega), if_pos (by omega), BitVec.zero_or, Nat.add_sub_cancel, hk]
    rfl

theorem fills_field : Fills (fun j (x : BitVec n) ↦ x &&& field n w j) (lane w) := by
  intro j k x hn
  rw [lane_and, lane_field hn]
  split_ifs
  · exact BitVec.and_allOnes
  · exact BitVec.and_zero

theorem fills_shiftLeft : Fills (fun j (x : BitVec w) ↦ x.setWidth n <<< (w * j)) (fun _ x ↦ x) := by
  intro j k x hn
  have hw : w ≤ n := by omega
  rw [lane_shiftLeft hn, lane_setWidth_self hw]
  by_cases hkj : k = j
  · subst hkj
    rw [if_pos (Nat.le_refl k), if_pos (Nat.sub_self k), if_pos rfl]
  · rw [if_neg hkj]
    split_ifs with hle hsub
    · omega
    · rfl
    · rfl

theorem fills_if : Fills (w := w) (fun j (b : Bool) ↦ if b then field n w j else 0#n)
    (fun _ b ↦ if b then BitVec.allOnes w else 0#w) := by
  intro j k b hn
  cases b with
  | true => exact lane_field hn
  | false => exact (lane_zero k).trans (ite_self _).symm

end Assembly

section Carries

variable {x y : BitVec n} {k : Nat}

/-- A sum has the sums of the lanes up to the carry from below. -/
theorem lane_add_carry (hn : w * k + w ≤ n) :
    lane w k (x + y) = lane w k x + lane w k y +
      BitVec.ofNat w ((x.toNat % 2 ^ (w * k) + y.toNat % 2 ^ (w * k)) / 2 ^ (w * k)) := by
  have hmod (a : Nat) : a % 2 ^ n / 2 ^ (w * k) % 2 ^ w = a / 2 ^ (w * k) % 2 ^ w := by
    obtain ⟨d, rfl⟩ := Nat.exists_eq_add_of_le hn
    rw [show w * k + w + d = w * k + (w + d) by omega, Nat.pow_add, Nat.mod_mul_right_div_self,
      Nat.pow_add, Nat.mod_mul_right_mod]
  have hsum : (x.toNat + y.toNat) / 2 ^ (w * k) = x.toNat / 2 ^ (w * k) + y.toNat / 2 ^ (w * k) +
      (x.toNat % 2 ^ (w * k) + y.toNat % 2 ^ (w * k)) / 2 ^ (w * k) := by
    have hpos := Nat.two_pow_pos (w * k)
    have hx := Nat.div_add_mod x.toNat (2 ^ (w * k))
    have hy := Nat.div_add_mod y.toNat (2 ^ (w * k))
    conv_lhs => rw [← hx, ← hy]
    rw [show ∀ a b c d m : Nat, m * a + b + (m * c + d) = b + d + m * (a + c) by intros; ring,
      Nat.add_mul_div_left _ _ hpos, Nat.add_comm]
  apply BitVec.eq_of_toNat_eq
  rw [toNat_lane, BitVec.toNat_add, hmod, hsum, BitVec.toNat_add, BitVec.toNat_add, toNat_lane, toNat_lane,
    BitVec.toNat_ofNat]
  simp only [Nat.add_mod, Nat.mod_mod]

theorem toNat_lane_add_carry (hn : w * k + w ≤ n) : ∃ c ≤ 1,
    (lane w k (x + y)).toNat = ((lane w k x).toNat + (lane w k y).toNat + c) % 2 ^ w := by
  refine ⟨(x.toNat % 2 ^ (w * k) + y.toNat % 2 ^ (w * k)) / 2 ^ (w * k), ?_, ?_⟩
  · have hx := Nat.mod_lt x.toNat (Nat.two_pow_pos (w * k))
    have hy := Nat.mod_lt y.toNat (Nat.two_pow_pos (w * k))
    rw [← Nat.lt_add_one_iff, Nat.div_lt_iff_lt_mul (Nat.two_pow_pos _)]
    omega
  · rw [lane_add_carry hn, BitVec.toNat_add, BitVec.toNat_add, BitVec.toNat_ofNat, ← Nat.add_mod]

theorem lane_add (hn : w * k + w ≤ n) (h : x.toNat % 2 ^ (w * k) + y.toNat % 2 ^ (w * k) < 2 ^ (w * k)) :
    lane w k (x + y) = lane w k x + lane w k y := by
  rw [lane_add_carry hn, Nat.div_eq_of_lt h]
  exact BitVec.add_zero _

theorem lane_sub (hn : w * k + w ≤ n) (h : y.toNat % 2 ^ (w * k) ≤ x.toNat % 2 ^ (w * k)) :
    lane w k (x - y) = lane w k x - lane w k y := by
  have hadd : lane w k x = lane w k (x - y) + lane w k y := by
    conv_lhs => rw [← BitVec.sub_add_cancel x y]
    refine lane_add hn ?_
    have hwidth : 2 ^ (w * k) ∣ 2 ^ n := Nat.pow_dvd_pow 2 (by omega)
    have hcancel : ((x - y).toNat + y.toNat) % 2 ^ n = x.toNat := by
      rw [← BitVec.toNat_add, BitVec.sub_add_cancel]
    have hmod : ((x - y).toNat % 2 ^ (w * k) + y.toNat % 2 ^ (w * k)) % 2 ^ (w * k) = x.toNat % 2 ^ (w * k) := by
      rw [← Nat.add_mod, ← Nat.mod_mod_of_dvd _ hwidth, hcancel]
    have hlt := Nat.mod_lt (x - y).toNat (Nat.two_pow_pos (w * k))
    have hlt' := Nat.mod_lt y.toNat (Nat.two_pow_pos (w * k))
    by_contra hge
    have hwrap : ((x - y).toNat % 2 ^ (w * k) + y.toNat % 2 ^ (w * k)) % 2 ^ (w * k) =
        (x - y).toNat % 2 ^ (w * k) + y.toNat % 2 ^ (w * k) - 2 ^ (w * k) := by
      rw [Nat.mod_eq_sub_mod (by omega), Nat.mod_eq_of_lt (by omega)]
    omega
  rw [hadd, BitVec.add_sub_cancel]

/-- The lanes below an end, with the top one taken apart. -/
theorem mod_lane (x : BitVec n) (k : Nat) :
    x.toNat % 2 ^ (w * (k + 1)) = (lane w k x).toNat * 2 ^ (w * k) + x.toNat % 2 ^ (w * k) := by
  rw [toNat_lane, Nat.mul_add, Nat.mul_one, Nat.pow_add, Nat.mod_mul]
  ring

/-- No carry leaves a lane whose sum has room for one more. -/
theorem lane_add_of_below (hn : w * (k + 1) + w ≤ n) (h : (lane w k x).toNat + (lane w k y).toNat + 2 ≤ 2 ^ w) :
    lane w (k + 1) (x + y) = lane w (k + 1) x + lane w (k + 1) y := by
  refine lane_add hn ?_
  have hx := Nat.mod_lt x.toNat (Nat.two_pow_pos (w * k))
  have hy := Nat.mod_lt y.toNat (Nat.two_pow_pos (w * k))
  have hroom : ((lane w k x).toNat + (lane w k y).toNat + 2) * 2 ^ (w * k) ≤ 2 ^ (w * (k + 1)) := by
    rw [Nat.mul_add w, Nat.mul_one, Nat.add_comm (w * k) w, Nat.pow_add]
    exact Nat.mul_le_mul_right _ h
  rw [Nat.add_mul, Nat.add_mul] at hroom
  rw [mod_lane, mod_lane]
  omega

theorem lane_add_first (hn : w ≤ n) : lane w 0 (x + y) = lane w 0 x + lane w 0 y :=
  lane_add (by omega) (by simp only [Nat.mul_zero, Nat.pow_zero, Nat.mod_one]; decide)

theorem shiftLeft_one (x : BitVec n) : x <<< 1 = x + x := by
  apply BitVec.eq_of_toNat_eq
  rw [BitVec.toNat_shiftLeft, BitVec.toNat_add, Nat.shiftLeft_eq, Nat.pow_one, Nat.mul_two]

/-- A doubled word has doubled lanes where no lane below overflows. -/
theorem lane_double (hn : w * k + w ≤ n) (h : ∀ j < k, 2 * (lane w j x).toNat + 2 ≤ 2 ^ w) :
    lane w k (x <<< 1) = lane w k x <<< 1 := by
  rw [shiftLeft_one, shiftLeft_one]
  cases k with
  | zero => exact lane_add_first (by omega)
  | succ k =>
    have hroom := h k (Nat.lt_succ_self k)
    exact lane_add_of_below hn (by omega)

/-- No lane of two masked words overflows where the lanes of the mask leave room. -/
theorem lane_add_and {m x' y' : BitVec n} (hm : ∀ k, w * k + w ≤ n → 2 * (lane w k m).toNat + 2 ≤ 2 ^ w)
    (hn : w * k + w ≤ n) :
    lane w k ((x' &&& m) + (y' &&& m)) = lane w k (x' &&& m) + lane w k (y' &&& m) := by
  cases k with
  | zero => exact lane_add_first (by omega)
  | succ k =>
    have hbelow : w * k + w ≤ n := by
      rw [Nat.mul_add] at hn
      omega
    have hle (z : BitVec n) : (lane w k (z &&& m)).toNat ≤ (lane w k m).toNat := by
      rw [lane_and, BitVec.toNat_and]
      exact Nat.and_le_right
    have hx := hle x'
    have hy := hle y'
    have hroom := hm k hbelow
    exact lane_add_of_below hn (by omega)

end Carries

section Masked

open BitVec

variable (x y : BitVec w)

theorem and_intMin : x &&& intMin w = if x.msb then intMin w else 0#w := by
  rw [intMin, and_twoPow, ← msb_eq_getLsbD_last]

theorem intMin_add_intMin (w : Nat) : intMin w + intMin w = 0#w := by
  have hneg : intMin w + -intMin w = 0#w := BitVec.add_right_neg _
  rwa [neg_intMin] at hneg

/-- A word in two parts. -/
theorem and_not_add_and (m : BitVec w) : (x &&& ~~~m) + (x &&& m) = x := by
  have hdisjoint : (x &&& ~~~m) &&& (x &&& m) = 0#w := by
    apply eq_of_getLsbD_eq
    intro i hi
    simp only [getLsbD_and, getLsbD_not, hi, decide_true, Bool.true_and, getLsbD_zero]
    cases x.getLsbD i <;> cases m.getLsbD i <;> rfl
  rw [add_eq_or_of_and_eq_zero _ _ hdisjoint]
  apply eq_of_getLsbD_eq
  intro i hi
  simp only [getLsbD_or, getLsbD_and, getLsbD_not, hi, decide_true, Bool.true_and]
  cases x.getLsbD i <;> cases m.getLsbD i <;> rfl

theorem xor_intMin : x ^^^ intMin w = x + intMin w := by
  have hsplit := and_not_add_and x (intMin w)
  have hand := and_intMin x
  cases hmsb : x.msb with
  | false =>
    rw [hmsb] at hand
    rw [add_eq_or_of_and_eq_zero _ _ hand]
    apply eq_of_getLsbD_eq
    intro i hi
    have hbit := congrArg (getLsbD · i) hand
    simp only [getLsbD_and, Bool.false_eq_true, if_false, getLsbD_zero] at hbit
    rw [getLsbD_xor, getLsbD_or]
    revert hbit
    cases x.getLsbD i <;> cases (intMin w).getLsbD i <;> decide
  | true =>
    rw [hmsb, if_pos rfl] at hand
    have hxor : x ^^^ intMin w = x &&& ~~~intMin w := by
      apply eq_of_getLsbD_eq
      intro i hi
      have hbit := congrArg (getLsbD · i) hand
      simp only [getLsbD_and] at hbit
      simp only [getLsbD_xor, getLsbD_and, getLsbD_not, hi, decide_true, Bool.true_and]
      revert hbit
      cases x.getLsbD i <;> cases (intMin w).getLsbD i <;> decide
    rw [hand] at hsplit
    have hdouble := intMin_add_intMin w
    rw [hxor]
    grind

/-- An addition without the top bits, which are added without a carry. -/
theorem masked_add : ((x &&& ~~~intMin w) + (y &&& ~~~intMin w)) ^^^ ((x ^^^ y) &&& intMin w) = x + y := by
  have hx := and_not_add_and x (intMin w)
  have hy := and_not_add_and y (intMin w)
  have hdouble := intMin_add_intMin w
  have hxor := xor_intMin ((x &&& ~~~intMin w) + (y &&& ~~~intMin w))
  rw [and_intMin] at hx hy
  rw [and_intMin, msb_xor]
  cases hxm : x.msb <;> cases hym : y.msb <;> simp only [hxm, hym, Bool.xor_self, Bool.false_xor, Bool.true_xor,
    Bool.not_false, Bool.false_eq_true, if_false, if_true, xor_zero] at hx hy ⊢ <;> grind

theorem or_eq_add (m : BitVec w) : x ||| m = (x &&& ~~~m) + m := by
  have hdisjoint : (x &&& ~~~m) &&& m = 0#w := by
    apply eq_of_getLsbD_eq
    intro i hi
    simp only [getLsbD_and, getLsbD_not, hi, decide_true, Bool.true_and, getLsbD_zero]
    cases x.getLsbD i <;> cases m.getLsbD i <;> rfl
  rw [add_eq_or_of_and_eq_zero _ _ hdisjoint]
  apply eq_of_getLsbD_eq
  intro i hi
  simp only [getLsbD_or, getLsbD_and, getLsbD_not, hi, decide_true, Bool.true_and]
  cases x.getLsbD i <;> cases m.getLsbD i <;> rfl

/-- A subtraction with a borrow that the top bit always has to give. -/
theorem masked_sub : ((x ||| intMin w) - (y &&& ~~~intMin w)) ^^^ ((x ^^^ ~~~y) &&& intMin w) = x - y := by
  rcases Nat.eq_zero_or_pos w with rfl | hw
  · exact Subsingleton.elim _ _
  have hx := and_not_add_and x (intMin w)
  have hy := and_not_add_and y (intMin w)
  have hdouble := intMin_add_intMin w
  have hxor := xor_intMin ((x ||| intMin w) - (y &&& ~~~intMin w))
  rw [or_eq_add] at hxor ⊢
  rw [and_intMin] at hx hy
  rw [and_intMin, msb_xor, msb_not, decide_eq_true hw, Bool.true_and]
  cases hxm : x.msb <;> cases hym : y.msb <;> simp only [hxm, hym, Bool.xor_self, Bool.false_xor, Bool.true_xor,
    Bool.not_true, Bool.not_false, Bool.false_eq_true, if_false, if_true, xor_zero] at hx hy ⊢ <;> grind

variable {x y : BitVec n} {m : BitVec n} {k : Nat}

/-- The top bit of every lane. -/
def TopBits (w : Nat) (m : BitVec n) : Prop := ∀ k, w * k + w ≤ n → lane w k m = intMin w

theorem lane_and_not_top (hm : TopBits w m) (hn : w * k + w ≤ n) :
    lane w k (x &&& ~~~m) = lane w k x &&& ~~~intMin w := by
  rw [lane_and, lane_not hn, hm k hn]

theorem and_not_intMin_lt (hw : 0 < w) (x : BitVec w) : (x &&& ~~~intMin w).toNat < 2 ^ (w - 1) := by
  apply toNat_lt_of_msb_false
  rw [msb_and, msb_not, msb_intMin]
  simp [hw]

/-- Addition in every lane, with the top bits masked off. -/
theorem lane_masked_add (hw : 0 < w) (hm : TopBits w m) (hn : w * k + w ≤ n) :
    lane w k (((x &&& ~~~m) + (y &&& ~~~m)) ^^^ ((x ^^^ y) &&& m)) = lane w k x + lane w k y := by
  have hsum : lane w k ((x &&& ~~~m) + (y &&& ~~~m)) = lane w k (x &&& ~~~m) + lane w k (y &&& ~~~m) := by
    cases k with
    | zero => exact lane_add_first (by omega)
    | succ k =>
      have hbelow : w * k + w ≤ n := by
        rw [Nat.mul_add] at hn
        omega
      have hx := and_not_intMin_lt hw (lane w k x)
      have hy := and_not_intMin_lt hw (lane w k y)
      refine lane_add_of_below hn ?_
      rw [lane_and_not_top hm hbelow, lane_and_not_top hm hbelow, ← Nat.two_pow_pred_add_two_pow_pred hw]
      omega
  rw [lane_xor, hsum, lane_and_not_top hm hn, lane_and_not_top hm hn, lane_and, lane_xor, hm k hn, masked_add]

/-- Subtraction in every lane, with the top bits set to give a borrow. -/
theorem lane_masked_sub (hw : 0 < w) (hm : TopBits w m) (hn : w * k + w ≤ n) :
    lane w k (((x ||| m) - (y &&& ~~~m)) ^^^ ((x ^^^ ~~~y) &&& m)) = lane w k x - lane w k y := by
  have hsum : lane w k ((x ||| m) - (y &&& ~~~m)) = lane w k (x ||| m) - lane w k (y &&& ~~~m) := by
    refine lane_sub hn ?_
    cases k with
    | zero => simp only [Nat.mul_zero, Nat.pow_zero, Nat.mod_one, Nat.le_refl]
    | succ k =>
      have hbelow : w * k + w ≤ n := by
        rw [Nat.mul_add] at hn
        omega
      have hx : 2 ^ (w - 1) ≤ (lane w k (x ||| m)).toNat := by
        apply BitVec.le_toNat_of_msb_true
        rw [lane_or, hm k hbelow, msb_or, msb_intMin, decide_eq_true hw, Bool.or_true]
      have hy := and_not_intMin_lt hw (lane w k y)
      rw [← lane_and_not_top hm hbelow] at hy
      have hylow := Nat.mod_lt (y &&& ~~~m).toNat (Nat.two_pow_pos (w * k))
      have hmul : (lane w k (y &&& ~~~m)).toNat * 2 ^ (w * k) + 2 ^ (w * k) ≤
          (lane w k (x ||| m)).toNat * 2 ^ (w * k) := by
        rw [← Nat.succ_mul]
        exact Nat.mul_le_mul_right _ (Nat.lt_of_lt_of_le hy hx)
      rw [mod_lane, mod_lane]
      omega
  rw [lane_xor, hsum, lane_or, lane_and_not_top hm hn, lane_and, lane_xor, lane_not hn, hm k hn, masked_sub]

end Masked

section Clmul

variable {x y : BitVec w}

/-- The partial products of the lowest bits, added without carries. -/
def partialProducts (x y : BitVec w) (n : Nat) : BitVec w :=
  (List.range n).foldr (fun i r ↦ (if x.getLsbD i then y <<< i else 0#w) ^^^ r) 0#w

/-- The carry-less product, modulo the width. -/
def clmul (x y : BitVec w) : BitVec w := partialProducts x y w

theorem partialProducts_succ (x y : BitVec w) (n : Nat) :
    partialProducts x y (n + 1) =
      (if x.getLsbD 0 then y else 0#w) ^^^ partialProducts (x >>> 1) (y <<< 1) n := by
  have hterm : (fun (i : Nat) (r : BitVec w) ↦ (if x.getLsbD i then y <<< i else 0#w) ^^^ r) ∘ Nat.succ =
      fun i r ↦ (if (x >>> 1).getLsbD i then y <<< 1 <<< i else 0#w) ^^^ r := by
    funext i r
    simp only [Function.comp_apply, BitVec.getLsbD_ushiftRight, Nat.succ_eq_add_one, Nat.add_comm i 1,
      BitVec.shiftLeft_add]
  rw [partialProducts, List.range_succ_eq_map, List.foldr_cons, List.foldr_map]
  rw [BitVec.shiftLeft_zero]
  congr 1
  exact congrArg (fun f ↦ List.foldr f 0#w (List.range n)) hterm

theorem partialProducts_width (x y : BitVec w) : partialProducts x y (w + 1) = clmul x y := by
  rw [partialProducts, List.range_succ, List.foldr_append, List.foldr_cons, List.foldr_nil,
    BitVec.getLsbD_of_ge x w (Nat.le_refl w)]
  simp only [Bool.false_eq_true, if_false, BitVec.xor_zero]
  rfl

/-- One bit of the first factor at a time. -/
theorem clmul_step (x y : BitVec w) :
    clmul x y = (if x.getLsbD 0 then y else 0#w) ^^^ clmul (x >>> 1) (y <<< 1) := by
  rw [← partialProducts_width, partialProducts_succ]
  rfl

theorem zero_clmul (y : BitVec w) : clmul 0#w y = 0#w := by
  unfold clmul partialProducts
  generalize List.range w = l
  induction l with
  | nil => rfl
  | cons i l ih =>
    rw [List.foldr_cons, ih, BitVec.getLsbD_zero]
    simp

end Clmul

end Lanes
