import Mathlib.Algebra.GroupWithZero.Nat
import Mathlib.Algebra.Group.Int.Defs
import Mathlib.Order.Lattice
import Mathlib.Tactic.Common

namespace IDeviceEmulator.Skin

abbrev Half := BitVec 16

/-- The place of a `SkinImage` on the display. -/
structure SkinImage where
  posx : Half
  posy : Half
  width : Half
  height : Half
deriving DecidableEq

structure SkinArea where
  x : Int
  y : Int
  width : Int
  height : Int
deriving DecidableEq

/-- The size and the depth of the surface of a `DisplayState`. -/
structure Surface where
  width : Nat
  height : Nat
  bytesPerPixel : Nat

/-- A rectangle of pixels that are written line by line. -/
structure Block where
  x : Int
  y : Int
  columns : Nat
  lines : Nat

def SkinImage.rect (image : SkinImage) : SkinArea :=
  ⟨image.posx.toNat, image.posy.toNat, image.width.toNat, image.height.toNat⟩

def Surface.area (ds : Surface) : SkinArea := ⟨0, 0, ds.width, ds.height⟩

def SkinArea.right (area : SkinArea) : Int := area.x + area.width

def SkinArea.bottom (area : SkinArea) : Int := area.y + area.height

def SkinArea.Contains (area : SkinArea) (p : Int × Int) : Prop :=
  area.x ≤ p.1 ∧ p.1 < area.right ∧ area.y ≤ p.2 ∧ p.2 < area.bottom

def Block.pixels (b : Block) : List (Int × Int) :=
  (List.range b.lines).flatMap fun line : Nat ↦ (List.range b.columns).map fun px : Nat ↦ (b.x + px, b.y + line)

def overlaps (image : SkinImage) (area : SkinArea) : Bool :=
  if image.rect.right < area.x then false
  else if image.rect.bottom < area.y then false
  else if area.right < image.rect.x then false
  else if area.bottom < image.rect.y then false
  else true

def cliparea (image : SkinImage) (area : SkinArea) : SkinArea :=
  let imagex := image.rect.right
  let imagey := image.rect.bottom
  let areax := area.right
  let areay := area.bottom
  let clip := area
  let clip :=
    if image.rect.x > area.x then
      { clip with x := image.rect.x, width := clip.width - (image.rect.x - area.x) }
    else clip
  let clip :=
    if image.rect.y > area.y then
      { clip with y := image.rect.y, height := clip.height - (image.rect.y - area.y) }
    else clip
  let clip := if areax > imagex then { clip with width := imagex - clip.x } else clip
  if areay > imagey then { clip with height := imagey - clip.y } else clip

/-- The counter of the lines is compared as an `int`, and that of the columns as a `uint32_t`. -/
def SkinArea.block (clip : SkinArea) : Block :=
  ⟨clip.x, clip.y, (BitVec.ofInt 32 clip.width).toNat, clip.height.toNat⟩

/-- `skin_draw_image_from_a24_to_`, without the colours. -/
def drawImageFromA24To (ds : Surface) (clip : SkinArea) : List (Int × Int) :=
  if (ds.width : Int) ≥ clip.right ∧ (ds.height : Int) ≥ clip.bottom then clip.block.pixels else []

/-- The pixels that `skin_draw_image` writes. -/
def drawImage (ds : Surface) (image : SkinImage) (area : SkinArea) : List (Int × Int) :=
  let clip := cliparea image area
  match ds.bytesPerPixel with
  | 2 => drawImageFromA24To ds clip
  | 4 => drawImageFromA24To ds clip
  | _ => []

/-- The pixel is on the surface, in the area and in the image. -/
structure Inside (ds : Surface) (image : SkinImage) (area : SkinArea) (p : Int × Int) : Prop where
  surface : ds.area.Contains p
  area : area.Contains p
  image : image.rect.Contains p

/-- The image and the area stand side by side with a gap, share lines, and the bounds of what
they would share fit the surface. -/
structure Apart (ds : Surface) (image : SkinImage) (area : SkinArea) : Prop where
  gap : min image.rect.right area.right < max image.rect.x area.x
  shared : max image.rect.y area.y < min image.rect.bottom area.bottom
  fitsWidth : min image.rect.right area.right ≤ ds.width
  fitsHeight : min image.rect.bottom area.bottom ≤ ds.height
  depth : ds.bytesPerPixel = 2 ∨ ds.bytesPerPixel = 4

section Clip

variable (image : SkinImage) (area : SkinArea)

theorem cliparea_x : (cliparea image area).x = max image.rect.x area.x := by
  unfold cliparea
  split_ifs <;> grind

theorem cliparea_y : (cliparea image area).y = max image.rect.y area.y := by
  unfold cliparea
  split_ifs <;> grind

theorem cliparea_right : (cliparea image area).right = min image.rect.right area.right := by
  unfold cliparea
  split_ifs <;> grind [SkinArea.right]

theorem cliparea_bottom : (cliparea image area).bottom = min image.rect.bottom area.bottom := by
  unfold cliparea
  split_ifs <;> grind [SkinArea.bottom]

end Clip

theorem mem_pixels {b : Block} {p : Int × Int} :
    p ∈ b.pixels ↔ ∃ line < b.lines, ∃ px < b.columns, p = (b.x + (px : Int), b.y + (line : Int)) := by
  unfold Block.pixels
  constructor
  · intro h
    obtain ⟨line, hline, hp⟩ := List.mem_flatMap.mp h
    obtain ⟨px, hpx, rfl⟩ := List.mem_map.mp hp
    exact ⟨line, List.mem_range.mp hline, px, List.mem_range.mp hpx, rfl⟩
  · rintro ⟨line, hline, px, hpx, rfl⟩
    refine List.mem_flatMap.mpr ⟨line, List.mem_range.mpr hline, ?_⟩
    exact List.mem_map.mpr ⟨px, List.mem_range.mpr hpx, rfl⟩

section Draw

variable {ds : Surface} {image : SkinImage} {area : SkinArea}

theorem mem_drawImage {p : Int × Int} :
    p ∈ drawImage ds image area ↔
      (ds.bytesPerPixel = 2 ∨ ds.bytesPerPixel = 4) ∧
        (cliparea image area).right ≤ ds.width ∧ (cliparea image area).bottom ≤ ds.height ∧
        p ∈ (cliparea image area).block.pixels := by
  have hfrom : p ∈ drawImageFromA24To ds (cliparea image area) ↔
      (cliparea image area).right ≤ ds.width ∧ (cliparea image area).bottom ≤ ds.height ∧
        p ∈ (cliparea image area).block.pixels := by
    unfold drawImageFromA24To
    split_ifs with hfits
    · exact ⟨fun hp ↦ ⟨hfits.1, hfits.2, hp⟩, fun hp ↦ hp.2.2⟩
    · exact iff_of_false (List.not_mem_nil) fun hp ↦ hfits ⟨hp.1, hp.2.1⟩
  unfold drawImage
  dsimp only
  split
  · next hdepth => exact hfrom.trans (and_iff_right (.inl hdepth)).symm
  · next hdepth => exact hfrom.trans (and_iff_right (.inr hdepth)).symm
  · next htwo hfour => exact iff_of_false (List.not_mem_nil) fun hp ↦ hp.1.elim htwo hfour

/-- Without a gap the columns that are written are those of the clip. -/
theorem inside_of_no_gap (h : max image.rect.x area.x ≤ min image.rect.right area.right) {p : Int × Int}
    (hp : p ∈ drawImage ds image area) : Inside ds image area p := by
  obtain ⟨-, hwidth, hheight, hblock⟩ := mem_drawImage.mp hp
  obtain ⟨line, hline, px, hpx, rfl⟩ := mem_pixels.mp hblock
  dsimp only [SkinArea.block] at hline hpx ⊢
  have hx := cliparea_x image area
  have hy := cliparea_y image area
  have hright := cliparea_right image area
  have hbottom := cliparea_bottom image area
  have himagex : 0 ≤ image.rect.x := Int.natCast_nonneg _
  have himagey : 0 ≤ image.rect.y := Int.natCast_nonneg _
  rw [BitVec.toNat_ofInt] at hpx
  rw [SkinArea.right] at hright hwidth
  rw [SkinArea.bottom] at hbottom hheight
  have hcolumn : (cliparea image area).x + px < (cliparea image area).x + (cliparea image area).width := by omega
  have hrow : (cliparea image area).y + line < (cliparea image area).y + (cliparea image area).height := by omega
  refine ⟨⟨?_, ?_, ?_, ?_⟩, ⟨?_, ?_, ?_, ?_⟩, ⟨?_, ?_, ?_, ?_⟩⟩ <;>
    simp only [Surface.area, SkinArea.right, SkinArea.bottom] at * <;> omega

/-- An image is drawn inside its bounds exactly if it does not lie apart from the area. -/
theorem drawImage_inside_iff (hsmall : -2 ^ 32 < (cliparea image area).width) :
    (∀ p ∈ drawImage ds image area, Inside ds image area p) ↔ ¬ Apart ds image area := by
  have hx := cliparea_x image area
  have hy := cliparea_y image area
  have hright := cliparea_right image area
  have hbottom := cliparea_bottom image area
  constructor
  · intro hinside hapart
    have hgap := hapart.gap
    have hshared := hapart.shared
    have hpixel : ((cliparea image area).x, (cliparea image area).y) ∈ (cliparea image area).block.pixels := by
      refine mem_pixels.mpr ⟨0, ?_, 0, ?_, by simp [SkinArea.block]⟩
      · rw [SkinArea.bottom] at hbottom
        dsimp only [SkinArea.block]
        omega
      · rw [SkinArea.right] at hright
        dsimp only [SkinArea.block]
        rw [BitVec.toNat_ofInt]
        omega
    have hwidth := hright ▸ hapart.fitsWidth
    have hheight := hbottom ▸ hapart.fitsHeight
    have hp := hinside _ (mem_drawImage.mpr ⟨hapart.depth, hwidth, hheight, hpixel⟩)
    have himage := hp.image.2.1
    have harea := hp.area.2.1
    dsimp only at himage harea
    omega
  · intro hapart p hp
    obtain ⟨hdepth, hwidth, hheight, hblock⟩ := mem_drawImage.mp hp
    obtain ⟨line, hline, -⟩ := mem_pixels.mp hblock
    dsimp only [SkinArea.block] at hline
    refine inside_of_no_gap ?_ hp
    by_contra hgap
    refine hapart ⟨by omega, ?_, hright ▸ hwidth, hbottom ▸ hheight, hdepth⟩
    rw [SkinArea.bottom] at hbottom
    omega

end Draw

end IDeviceEmulator.Skin
