import Mathlib.Algebra.Order.Group.Unbundled.Int
import Mathlib.Tactic.Linarith
import Mathlib.Tactic.Ring

namespace IDeviceEmulator.Skin

inductive MouseFault
  /-- The product of an `int` and 0x7FFF does not fit an `int`. -/
  | overflow
  | divisionByZero
deriving DecidableEq

/-- `EmulatedScreen`. Its surface has the same width and height, two or four bytes for each
pixel, and a size in bytes that is an `int`. -/
structure Screen where
  posx : Int
  posy : Int
  width : Nat
  height : Nat
  size : 2 * width * height < 2 ^ 31

def scale (d : Int) (n : Nat) : Except MouseFault Int :=
  if d * 0x7fff < -2 ^ 31 ∨ 2 ^ 31 ≤ d * 0x7fff then .error .overflow
  else if n = 0 then .error .divisionByZero
  else .ok ((d * 0x7fff).tdiv n)

/-- The coordinates that `skin_mouse_event` puts to the guest. -/
def mouseEvent (es : Screen) (rotation : Bool) (mx my : Int) : Except MouseFault (Option (Int × Int)) := do
  let x ← scale (mx - es.posx) es.width
  let y ← scale (my - es.posy) es.height
  if rotation = false then
    if mx > es.posx ∧ mx < es.posx + es.width ∧ my > es.posy ∧ my < es.posy + es.height then
      let x ← scale (mx - es.posx) es.width
      let y ← scale (my - es.posy) es.height
      return some (x, y)
    else return none
  else if mx > es.posx ∧ mx < es.posx + es.height ∧ my > es.posy ∧ my < es.posy + es.width then
    return some (y, -x)
  else return none

/-- The host pixel that shows a guest pixel. Without rotation the guest draws into the host
surface at the position of the screen, and with it `skin_rotate_buffer` copies the pixel. -/
def shownAt (es : Screen) (rotation : Bool) (gx gy : Nat) : Int × Int :=
  if rotation = false then (es.posx + gx, es.posy + gy) else (es.posx + es.height - gy, es.posy + gx)

/-- The guest pixel that an absolute coordinate stands for. -/
def scaledBack (v : Int) (n : Nat) : Int := v * n / 0x7fff

/-- The rotated screen is as wide as the guest's is high. -/
def shownWidth (es : Screen) (rotation : Bool) : Nat := if rotation = false then es.width else es.height

def shownHeight (es : Screen) (rotation : Bool) : Nat := if rotation = false then es.height else es.width

def StrictlyInside (es : Screen) (rotation : Bool) (mx my : Int) : Prop :=
  es.posx < mx ∧ mx < es.posx + shownWidth es rotation ∧ es.posy < my ∧ my < es.posy + shownHeight es rotation

instance (es : Screen) (rotation : Bool) (mx my : Int) : Decidable (StrictlyInside es rotation mx my) :=
  inferInstanceAs (Decidable (_ ∧ _ ∧ _ ∧ _))

def InRange (v : Int) : Prop := 0 ≤ v ∧ v ≤ 0x7fff

def WithinOne (v : Int) (g : Nat) : Prop := v ≤ g + 1 ∧ g ≤ v + 1

/-- The guest gets coordinates in range that name the pixel shown under the mouse. -/
def Inverts (es : Screen) (rotation : Bool) (mx my : Int) : Prop :=
  ∃ x y, mouseEvent es rotation mx my = .ok (some (x, y)) ∧ InRange x ∧ InRange y ∧
    ∃ gx gy, gx < es.width ∧ gy < es.height ∧ shownAt es rotation gx gy = (mx, my) ∧
      WithinOne (scaledBack x es.width) gx ∧ WithinOne (scaledBack y es.height) gy

/-- The product does not overflow, and scaling loses at most a pixel. -/
def Fine (d : Int) (n : Nat) : Prop := d * 0x7fff < 2 ^ 31 ∧ d * 0x7fff % n ≤ 0x7fff

instance (d : Int) (n : Nat) : Decidable (Fine d n) := inferInstanceAs (Decidable (_ ∧ _))

section Scale

variable {d n : Nat}

theorem scale_eq (hn : 0 < n) (hfits : d * 0x7fff < 2 ^ 31) : scale d n = .ok ((d * 0x7fff / n : Nat) : Int) := by
  have hfits' : ¬ ((d : Int) * 0x7fff < -2 ^ 31 ∨ 2 ^ 31 ≤ (d : Int) * 0x7fff) := by omega
  rw [scale, if_neg hfits', if_neg hn.ne']
  rfl

theorem scale_overflow (hfits : ¬ d * 0x7fff < 2 ^ 31) : scale d n = .error .overflow := by
  have hover : (d : Int) * 0x7fff < -2 ^ 31 ∨ 2 ^ 31 ≤ (d : Int) * 0x7fff := by omega
  rw [scale, if_pos hover]

theorem inRange_scale (hd : d < n) : InRange ((d * 0x7fff / n : Nat) : Int) := by
  have hle : d * 0x7fff / n ≤ 0x7fff := by
    refine Nat.div_le_of_le_mul ?_
    exact Nat.mul_le_mul_right 0x7fff hd.le
  exact ⟨Int.natCast_nonneg _, by omega⟩

/-- Scaling to the guest's coordinates and back drops the remainder of the division. -/
theorem withinOne_scale_iff :
    WithinOne (scaledBack ((d * 0x7fff / n : Nat) : Int) n) d ↔ d * 0x7fff % n ≤ 0x7fff := by
  have hdiv := Nat.div_add_mod' (d * 0x7fff) n
  have hback : scaledBack ((d * 0x7fff / n : Nat) : Int) n = ((d * 0x7fff / n * n / 0x7fff : Nat) : Int) := by
    rw [scaledBack]
    push_cast
    rfl
  rw [hback, WithinOne]
  generalize d * 0x7fff / n * n = p at hdiv
  omega

end Scale

section Mapping

variable {es : Screen} {d e : Nat}

/-- The event at an offset inside the screen, in both states of the rotation. -/
theorem mouseEvent_eq (rotation : Bool) (hd : d < shownWidth es rotation) (he : e < shownHeight es rotation)
    (hd0 : 0 < d) (he0 : 0 < e) :
    mouseEvent es rotation (es.posx + d) (es.posy + e) = do
      let x ← scale d es.width
      let y ← scale e es.height
      return some (if rotation = false then (x, y) else (y, -x)) := by
  unfold mouseEvent
  rw [add_sub_cancel_left, add_sub_cancel_left]
  generalize hx : scale d es.width = x
  generalize hy : scale e es.height = y
  cases rotation with
  | false =>
    have hin : es.posx + d > es.posx ∧ es.posx + d < es.posx + es.width ∧ es.posy + e > es.posy ∧
        es.posy + e < es.posy + es.height := by
      simp only [shownWidth, shownHeight, if_true] at hd he
      omega
    simp only [if_true, if_pos hin]
    cases x with
    | error => simp only [bind, Except.bind]
    | ok x =>
      cases y with
      | error => simp only [bind, Except.bind]
      | ok y => simp only [bind, Except.bind]
  | true =>
    have hin : es.posx + d > es.posx ∧ es.posx + d < es.posx + es.height ∧ es.posy + e > es.posy ∧
        es.posy + e < es.posy + es.width := by
      simp only [shownWidth, shownHeight, Bool.true_eq_false, if_false] at hd he
      omega
    simp only [Bool.true_eq_false, if_false, if_pos hin]

theorem fine_iff {n : Nat} : Fine d n ↔ d * 0x7fff < 2 ^ 31 ∧ d * 0x7fff % n ≤ 0x7fff := by
  unfold Fine
  norm_cast

/-- Both coordinates are scaled without overflow, or there is no event. -/
theorem ok_of_scale {m n : Nat} (hm : 0 < m) (hn : 0 < n) {f : Int → Int → Int × Int} {v : Int × Int}
    (h : (do
      let x ← scale d m
      let y ← scale e n
      return some (f x y)) = Except.ok (some v)) :
    d * 0x7fff < 2 ^ 31 ∧ e * 0x7fff < 2 ^ 31 ∧
      v = f ((d * 0x7fff / m : Nat) : Int) ((e * 0x7fff / n : Nat) : Int) := by
  by_cases hfits : d * 0x7fff < 2 ^ 31
  · rw [scale_eq hm hfits] at h
    by_cases hfits' : e * 0x7fff < 2 ^ 31
    · rw [scale_eq hn hfits'] at h
      cases h
      exact ⟨hfits, hfits', rfl⟩
    · rw [scale_overflow hfits'] at h
      cases h
  · rw [scale_overflow hfits] at h
    cases h

theorem inverts_upright_iff (hd : d < es.width) (he : e < es.height) (hd0 : 0 < d) (he0 : 0 < e) :
    Inverts es false (es.posx + d) (es.posy + e) ↔ Fine d es.width ∧ Fine e es.height := by
  rw [Inverts, mouseEvent_eq false hd he hd0 he0, fine_iff, fine_iff]
  constructor
  · rintro ⟨x, y, hevent, -, -, gx, gy, -, -, hshown, hx, hy⟩
    obtain ⟨hfits, hfits', hv⟩ := ok_of_scale (f := fun x y ↦ (x, y)) (by omega) (by omega) hevent
    cases hv
    have hgx : gx = d := by
      have := congrArg Prod.fst hshown
      simpa [shownAt] using this
    have hgy : gy = e := by
      have := congrArg Prod.snd hshown
      simpa [shownAt] using this
    subst hgx hgy
    exact ⟨⟨hfits, withinOne_scale_iff.mp hx⟩, ⟨hfits', withinOne_scale_iff.mp hy⟩⟩
  · rintro ⟨⟨hfits, hx⟩, ⟨hfits', hy⟩⟩
    refine ⟨_, _, ?_, inRange_scale hd, inRange_scale he, d, e, hd, he, rfl, ?_, ?_⟩
    · rw [scale_eq (by omega) hfits, scale_eq (by omega) hfits']
      rfl
    · exact withinOne_scale_iff.mpr hx
    · exact withinOne_scale_iff.mpr hy

/-- The arithmetic of a rotated screen. The second coordinate is never positive, so it names the
first rows only, and then the screen is too wide for the first one. -/
theorem rotated_absurd {w h : Nat} (hsize : 2 * w * h < 2 ^ 31) (hd0 : 0 < d) (hlast : h = d + 1)
    (hzero : d * 0x7fff < w) (he0 : 0 < e) (hrange : e * 0x7fff / h ≤ 0x7fff)
    (hback : e * 0x7fff / h * w / 0x7fff ≤ e + 1) : False := by
  have hsmall : h ≤ 181 := by
    by_contra hlarge
    have hw : 181 * 0x7fff ≤ w := by omega
    have hwh : 181 * 0x7fff * 182 ≤ w * h := Nat.mul_le_mul hw (by omega)
    rw [Nat.mul_assoc] at hsize
    omega
  have hx : 181 ≤ e * 0x7fff / h := by
    refine (Nat.le_div_iff_mul_le (by omega)).mpr ?_
    have hmul : 181 * h ≤ 181 * 181 := Nat.mul_le_mul_left 181 hsmall
    omega
  have he : e ≤ h := by
    have hlt : e * 0x7fff < (0x7fff + 1) * h := (Nat.div_lt_iff_lt_mul (by omega)).mp (by omega)
    omega
  have hproduct : 181 * (d * 0x7fff) ≤ e * 0x7fff / h * w := Nat.mul_le_mul hx hzero.le
  have hquotient : 181 * d ≤ e * 0x7fff / h * w / 0x7fff := by
    refine (Nat.le_div_iff_mul_le (by decide)).mpr ?_
    rw [Nat.mul_assoc]
    exact hproduct
  omega

theorem not_inverts_rotated (hd : d < es.height) (he : e < es.width) (hd0 : 0 < d) (he0 : 0 < e) :
    ¬ Inverts es true (es.posx + d) (es.posy + e) := by
  rw [Inverts, mouseEvent_eq true hd he hd0 he0]
  rintro ⟨x, y, hevent, hx, hy, gx, gy, -, -, hshown, hgx, hgy⟩
  obtain ⟨-, -, hv⟩ := ok_of_scale (f := fun x y ↦ (y, -x)) (by omega) (by omega) hevent
  cases hv
  have hzero : d * 0x7fff / es.width = 0 := by
    have hneg : (0 : Int) ≤ -((d * 0x7fff / es.width : Nat) : Int) := hy.1
    exact Nat.le_zero.mp (by exact_mod_cast nonpos_of_neg_nonneg hneg)
  have hrow : es.posx + es.height - gy = es.posx + d := congrArg Prod.fst hshown
  have hcolumn : es.posy + gx = es.posy + e := congrArg Prod.snd hshown
  have hback : scaledBack (-((d * 0x7fff / es.width : Nat) : Int)) es.height = 0 := by
    rw [hzero, scaledBack]
    simp
  rw [hback] at hgy
  have hlast := hgy.2
  refine rotated_absurd es.size hd0 (by omega) ?_ he0 ?_ ?_
  · exact (Nat.div_eq_zero_iff_lt (by omega)).mp hzero
  · have := hx.2
    omega
  · have hle := hgx.1
    rw [scaledBack] at hle
    norm_cast at hle
    omega

/-- The mouse names the pixel under it exactly if the screen is not rotated and the scaling
neither overflows nor skips pixels. -/
theorem inverts_iff {rotation : Bool} {mx my : Int} (h : StrictlyInside es rotation mx my) :
    Inverts es rotation mx my ↔
      rotation = false ∧ Fine (mx - es.posx) es.width ∧ Fine (my - es.posy) es.height := by
  obtain ⟨hleft, hright, htop, hbottom⟩ := h
  obtain ⟨d, hd⟩ := Int.eq_ofNat_of_zero_le (show 0 ≤ mx - es.posx by omega)
  obtain ⟨e, he⟩ := Int.eq_ofNat_of_zero_le (show 0 ≤ my - es.posy by omega)
  obtain rfl : mx = es.posx + d := by omega
  obtain rfl : my = es.posy + e := by omega
  rw [hd, he]
  cases rotation with
  | false =>
    have hwidth : shownWidth es false = es.width := rfl
    have hheight : shownHeight es false = es.height := rfl
    rw [inverts_upright_iff (by omega) (by omega) (by omega) (by omega)]
    exact (and_iff_right rfl).symm
  | true =>
    have hwidth : shownWidth es true = es.height := rfl
    have hheight : shownHeight es true = es.width := rfl
    exact iff_of_false (not_inverts_rotated (by omega) (by omega) (by omega) (by omega)) nofun

end Mapping

def phoneScreen : Screen := ⟨10, 20, 320, 480, by decide⟩

theorem inverts_upright : Inverts phoneScreen false 110 120 :=
  (inverts_iff (by decide)).mpr ⟨rfl, by decide, by decide⟩

/-- On a rotated screen the guest gets a negative coordinate. -/
theorem inverts_fails :
    StrictlyInside phoneScreen true 110 120 ∧
      mouseEvent phoneScreen true 110 120 = .ok (some (6826, -10239)) ∧
      ¬ Inverts phoneScreen true 110 120 := by
  refine ⟨by decide, rfl, ?_⟩
  rintro ⟨x, y, hevent, -, hy, -⟩
  cases hevent
  exact absurd hy.1 (by decide)

end IDeviceEmulator.Skin
