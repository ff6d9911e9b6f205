import Mathlib.Data.Set.Basic
import IDeviceEmulator.Skin.Image

namespace IDeviceEmulator.Skin

def SkinArea.pixels (area : SkinArea) : Set (Int × Int) := {p | area.Contains p}

/-- The pixels of an area are those between the larger of two left and upper edges and the
smaller of two right and lower ones. -/
theorem contains_inter {clip image area : SkinArea} (hx : clip.x = max image.x area.x)
    (hy : clip.y = max image.y area.y) (hright : clip.right = min image.right area.right)
    (hbottom : clip.bottom = min image.bottom area.bottom) (p : Int × Int) :
    clip.Contains p ↔ image.Contains p ∧ area.Contains p := by
  rw [SkinArea.Contains, hx, hy, hright, hbottom, SkinArea.Contains, SkinArea.Contains]
  omega

theorem pixels_cliparea (image : SkinImage) (area : SkinArea) :
    (cliparea image area).pixels = image.rect.pixels ∩ area.pixels := by
  ext p
  exact contains_inter (cliparea_x image area) (cliparea_y image area) (cliparea_right image area)
    (cliparea_bottom image area) p

theorem overlaps_iff (image : SkinImage) (area : SkinArea) :
    overlaps image area = true ↔ area.x ≤ image.rect.right ∧ area.y ≤ image.rect.bottom ∧
      image.rect.x ≤ area.right ∧ image.rect.y ≤ area.bottom := by
  unfold overlaps
  split_ifs <;> simp <;> omega

theorem overlaps_of_mem {image : SkinImage} {area : SkinArea} {p : Int × Int} (himage : p ∈ image.rect.pixels)
    (harea : p ∈ area.pixels) : overlaps image area = true := by
  obtain ⟨hleft, hright, htop, hbottom⟩ := himage
  obtain ⟨hleft', hright', htop', hbottom'⟩ := harea
  exact (overlaps_iff image area).mpr
    ⟨hleft'.trans hright.le, htop'.trans hbottom.le, hleft.trans hright'.le, htop.trans hbottom'.le⟩

section Sizes

variable {image : SkinImage} {area : SkinArea}

theorem cliparea_width_nonneg (hwidth : 0 ≤ area.width) (h : overlaps image area = true) :
    0 ≤ (cliparea image area).width := by
  have himage : 0 ≤ image.rect.width := Int.natCast_nonneg _
  have hx := cliparea_x image area
  have hright := cliparea_right image area
  obtain ⟨hleft, -, hleft', -⟩ := (overlaps_iff image area).mp h
  simp only [SkinArea.right] at *
  omega

theorem cliparea_height_nonneg (hheight : 0 ≤ area.height) (h : overlaps image area = true) :
    0 ≤ (cliparea image area).height := by
  have himage : 0 ≤ image.rect.height := Int.natCast_nonneg _
  have hy := cliparea_y image area
  have hbottom := cliparea_bottom image area
  obtain ⟨-, htop, -, htop'⟩ := (overlaps_iff image area).mp h
  simp only [SkinArea.bottom] at *
  omega

end Sizes

section Sums

variable {image : SkinImage} {area : SkinArea}

/-- A sum as an `int`. -/
def wrap (n : Int) : Int := n.bmod (2 ^ 32)

/-- The edges of an area are `int`s. -/
structure SkinArea.Fits (area : SkinArea) : Prop where
  left : -2 ^ 31 ≤ area.x
  right : area.right < 2 ^ 31
  top : -2 ^ 31 ≤ area.y
  bottom : area.bottom < 2 ^ 31

/-- `skin_overlaps` with sums that wrap around. -/
def overlapsInt (image : SkinImage) (area : SkinArea) : Bool :=
  if image.rect.right < area.x then false
  else if image.rect.bottom < area.y then false
  else if wrap (area.x + area.width) < image.rect.x then false
  else if wrap (area.y + area.height) < image.rect.y then false
  else true

/-- `skin_cliparea` with sums that wrap around. -/
def clipareaInt (image : SkinImage) (area : SkinArea) : SkinArea :=
  let imagex := image.rect.right
  let imagey := image.rect.bottom
  let areax := wrap (area.x + area.width)
  let areay := wrap (area.y + area.height)
  let clip := area
  let clip :=
    if image.rect.x > area.x then
      { clip with x := image.rect.x, width := wrap (clip.width - wrap (image.rect.x - area.x)) }
    else clip
  let clip :=
    if image.rect.y > area.y then
      { clip with y := image.rect.y, height := wrap (clip.height - wrap (image.rect.y - area.y)) }
    else clip
  let clip := if areax > imagex then { clip with width := wrap (imagex - clip.x) } else clip
  if areay > imagey then { clip with height := wrap (imagey - clip.y) } else clip

theorem wrap_eq {n : Int} (hlow : -2 ^ 31 ≤ n) (hhigh : n < 2 ^ 31) : wrap n = n :=
  Int.bmod_eq_of_le (by omega) (by omega)

theorem wrap_sub_wrap (n m : Int) : wrap (n - wrap m) = wrap (n - m) := Int.sub_bmod_bmod

theorem overlapsInt_eq (h : area.Fits) (hwidth : 0 ≤ area.width) (hheight : 0 ≤ area.height) :
    overlapsInt image area = overlaps image area := by
  obtain ⟨hleft, hright, htop, hbottom⟩ := h
  rw [SkinArea.right] at hright
  rw [SkinArea.bottom] at hbottom
  rw [overlapsInt, wrap_eq (by omega) hright, wrap_eq (by omega) hbottom]
  rfl

theorem rect_bounds (image : SkinImage) :
    (0 ≤ image.rect.x ∧ image.rect.x ≤ image.rect.right ∧ image.rect.right < 2 ^ 17) ∧
      0 ≤ image.rect.y ∧ image.rect.y ≤ image.rect.bottom ∧ image.rect.bottom < 2 ^ 17 := by
  have hx := image.posx.isLt
  have hy := image.posy.isLt
  have hwidth := image.width.isLt
  have hheight := image.height.isLt
  dsimp only [SkinImage.rect, SkinArea.right, SkinArea.bottom]
  omega

theorem clipareaInt_eq (h : area.Fits) (hwidth : 0 ≤ area.width) (hheight : 0 ≤ area.height)
    (hoverlaps : overlaps image area = true) : clipareaInt image area = cliparea image area := by
  obtain ⟨hleft, hright, htop, hbottom⟩ := h
  obtain ⟨hcolumns, hlines⟩ := rect_bounds image
  obtain ⟨-, -, hcolumn, hline⟩ := (overlaps_iff image area).mp hoverlaps
  have hareax : area.x + area.width = area.right := rfl
  have hareay : area.y + area.height = area.bottom := rfl
  unfold clipareaInt cliparea
  rw [hareax, hareay, wrap_eq (by omega) hright, wrap_eq (by omega) hbottom]
  simp only [wrap_sub_wrap]
  split_ifs <;> simp (disch := omega) only [wrap_eq]

end Sums

/-- The clip of an area that overlaps an image is the rectangle of the pixels they share, and
they overlap if they share any. The sums of the code do not wrap around if the edges of the area
are `int`s. -/
theorem clips_to_intersection (image : SkinImage) (area : SkinArea) (hwidth : 0 ≤ area.width)
    (hheight : 0 ≤ area.height) :
    (overlaps image area = true → 0 ≤ (cliparea image area).width ∧ 0 ≤ (cliparea image area).height ∧
      (cliparea image area).pixels = image.rect.pixels ∩ area.pixels) ∧
    ((image.rect.pixels ∩ area.pixels).Nonempty → overlaps image area = true) ∧
    (area.Fits → overlapsInt image area = overlaps image area ∧
      (overlaps image area = true → clipareaInt image area = cliparea image area)) := by
  refine ⟨fun h ↦ ?_, fun hshared ↦ ?_, fun hfits ↦ ?_⟩
  · exact ⟨cliparea_width_nonneg hwidth h, cliparea_height_nonneg hheight h, pixels_cliparea image area⟩
  · obtain ⟨p, himage, harea⟩ := hshared
    exact overlaps_of_mem himage harea
  · exact ⟨overlapsInt_eq hfits hwidth hheight, fun h ↦ clipareaInt_eq hfits hwidth hheight h⟩

/-- An area that sticks out of an image on the left and at the bottom. -/
theorem clips_corner :
    clipareaInt ⟨10, 10, 20, 20⟩ ⟨-5, 25, 30, 40⟩ = ⟨10, 25, 15, 5⟩ ∧
      (SkinArea.mk 10 25 15 5).pixels =
        (SkinImage.mk 10 10 20 20).rect.pixels ∩ (SkinArea.mk (-5) 25 30 40).pixels := by
  have hclip : cliparea ⟨10, 10, 20, 20⟩ ⟨-5, 25, 30, 40⟩ = ⟨10, 25, 15, 5⟩ := by decide
  have hoverlaps : overlaps ⟨10, 10, 20, 20⟩ ⟨-5, 25, 30, 40⟩ = true := by decide
  obtain ⟨hall, -, hsums⟩ :=
    clips_to_intersection ⟨10, 10, 20, 20⟩ ⟨-5, 25, 30, 40⟩ (by decide) (by decide)
  obtain ⟨-, -, hpixels⟩ := hall hoverlaps
  rw [hclip] at hpixels
  exact ⟨((hsums ⟨by decide, by decide, by decide, by decide⟩).2 hoverlaps).trans hclip, hpixels⟩

end IDeviceEmulator.Skin
