import IDeviceEmulator.Skin.Draw

namespace IDeviceEmulator.Skin

/-- A pixel of the emulated screen, and the pixel of the display that it is copied to. -/
structure Copy where
  source : Int × Int
  dest : Int × Int

section Rotation

variable (es : EmulatedScreen)

/-- The copy that a pass of the inner loop makes. Pixels are given by their column and row. -/
def rotatePixel (x y px py : Nat) : Copy where
  source := (x + px, y + py)
  dest := (es.posx + es.height - (y + py), es.posy + x + px)

/-- `skin_rotate_buffer`, for both sizes of a pixel. -/
def rotateBuffer (x y w h : Nat) : List Copy :=
  (List.range h).flatMap fun py ↦ (List.range w).map fun px ↦ rotatePixel es x y px py

/-- The rectangle of the display that the emulated screen takes up when it is turned. -/
def EmulatedScreen.turned : SkinArea := ⟨es.posx, es.posy, es.height, es.width⟩

end Rotation

/-- The rectangle that `skin_update` passes to `dpy_update`. -/
def updateArea (skin : SkinScreen) (x y w h : Nat) : SkinArea :=
  if skin.rotation = false then
    if (skin.ds.width : Int) ≥ w + (x + skin.es.posx) ∧ (skin.ds.height : Int) ≥ h + (y + skin.es.posy) then
      ⟨x + skin.es.posx, y + skin.es.posy, w, h⟩
    else ⟨x, y, w, h⟩
  else ⟨skin.es.posx + skin.es.height - (y + h - 1), skin.es.posy + x, h, w⟩

section Copies

variable {es : EmulatedScreen} {x y w h : Nat}

theorem mem_rotateBuffer {c : Copy} :
    c ∈ rotateBuffer es x y w h ↔ ∃ py < h, ∃ px < w, c = rotatePixel es x y px py := by
  constructor
  · intro hc
    obtain ⟨py, hpy, hrow⟩ := List.mem_flatMap.mp hc
    obtain ⟨px, hpx, rfl⟩ := List.mem_map.mp hrow
    exact ⟨py, List.mem_range.mp hpy, px, List.mem_range.mp hpx, rfl⟩
  · rintro ⟨py, hpy, px, hpx, rfl⟩
    refine List.mem_flatMap.mpr ⟨py, List.mem_range.mpr hpy, ?_⟩
    exact List.mem_map.mpr ⟨px, List.mem_range.mpr hpx, rfl⟩

theorem source_of_dest {c c' : Copy} (hc : c ∈ rotateBuffer es x y w h) (hc' : c' ∈ rotateBuffer es x y w h)
    (heq : c.dest = c'.dest) : c.source = c'.source := by
  obtain ⟨py, -, px, -, rfl⟩ := mem_rotateBuffer.mp hc
  obtain ⟨py', -, px', -, rfl⟩ := mem_rotateBuffer.mp hc'
  obtain ⟨hcolumn, hrow⟩ := Prod.mk.inj heq
  exact Prod.ext (by dsimp only [rotatePixel]; omega) (by dsimp only [rotatePixel]; omega)

/-- The pixels that are written fill the rectangle that is passed on, also at its edges. -/
theorem exists_dest_iff {skin : SkinScreen} (hrotation : skin.rotation = true) (p : Int × Int) :
    (∃ c ∈ rotateBuffer skin.es x y w h, c.dest = p) ↔ (updateArea skin x y w h).Contains p := by
  rw [updateArea, if_neg (by rw [hrotation]; decide)]
  simp only [SkinArea.Contains, SkinArea.right, SkinArea.bottom]
  constructor
  · rintro ⟨c, hc, rfl⟩
    obtain ⟨py, hpy, px, hpx, rfl⟩ := mem_rotateBuffer.mp hc
    dsimp only [rotatePixel]
    omega
  · rintro ⟨hleft, hright, htop, hbottom⟩
    refine ⟨rotatePixel skin.es x y (p.2 - skin.es.posy - x).toNat
      (skin.es.posx + skin.es.height - y - p.1).toNat, mem_rotateBuffer.mpr ?_, ?_⟩
    · exact ⟨_, by omega, _, by omega, rfl⟩
    · exact Prod.ext (by dsimp only [rotatePixel]; omega) (by dsimp only [rotatePixel]; omega)

end Copies

/-- An update of a turned screen is copied pixel by pixel into the rectangle of the screen, and
passed on as a whole. -/
structure Turns (skin : SkinScreen) (x y w h : Nat) : Prop where
  distinct : ∀ c ∈ rotateBuffer skin.es x y w h, ∀ c' ∈ rotateBuffer skin.es x y w h,
    c.source ≠ c'.source → c.dest ≠ c'.dest
  inside : ∀ c ∈ rotateBuffer skin.es x y w h, skin.es.turned.Contains c.dest
  updated : ∀ p, (updateArea skin x y w h).Contains p ↔ ∃ c ∈ rotateBuffer skin.es x y w h, c.dest = p

/-- The first row of the screen is copied to the column after the last one of its rectangle. -/
theorem turns_iff {skin : SkinScreen} {x y w h : Nat} (hrotation : skin.rotation = true)
    (hwidth : (x + w : Nat) ≤ skin.es.width) (hheight : (y + h : Nat) ≤ skin.es.height) :
    Turns skin x y w h ↔ (0 < y ∨ w = 0 ∨ h = 0) := by
  constructor
  · intro hturns
    by_contra hfirst
    have hcopy : rotatePixel skin.es x y 0 0 ∈ rotateBuffer skin.es x y w h :=
      mem_rotateBuffer.mpr ⟨0, by omega, 0, by omega, rfl⟩
    have hright := (hturns.inside _ hcopy).2.1
    dsimp only [rotatePixel, EmulatedScreen.turned, SkinArea.right] at hright
    omega
  · intro hrows
    refine ⟨fun c hc c' hc' hne heq ↦ hne (source_of_dest hc hc' heq), fun c hc ↦ ?_,
      fun p ↦ (exists_dest_iff hrotation p).symm⟩
    obtain ⟨py, hpy, px, hpx, rfl⟩ := mem_rotateBuffer.mp hc
    simp only [SkinArea.Contains, rotatePixel, EmulatedScreen.turned, SkinArea.right, SkinArea.bottom]
    omega

/-- A screen of 480 columns and 320 rows, turned to the upper left corner of the display. -/
def turnedSkin : SkinScreen where
  ds := ⟨320, 480, 4⟩
  es := ⟨0, 0, 480, 320⟩
  rotation := true

theorem turns_second_row : Turns turnedSkin 0 1 480 319 :=
  (turns_iff rfl (by decide) (by decide)).mpr (.inl (by decide))

/-- The upper left pixel of the screen is copied to column 320 of the 320 columns. -/
theorem turns_fails : ¬Turns turnedSkin 0 0 1 1 := by
  intro h
  have hright := (h.inside ⟨(0, 0), (320, 0)⟩ (mem_rotateBuffer.mpr ⟨0, by decide, 0, by decide, rfl⟩)).2.1
  exact absurd hright (by decide)

end IDeviceEmulator.Skin
