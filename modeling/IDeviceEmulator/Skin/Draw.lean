import IDeviceEmulator.Skin.Image

namespace IDeviceEmulator.Skin

inductive ButtonState
  | idle
  | highlighted
  | active
  | activeHighlighted
  | forceredraw
deriving DecidableEq

/-- The state and the place of a `SkinKey`. -/
structure SkinKey where
  state : ButtonState := .idle
  posx : Half
  posy : Half
  width : Half
  height : Half

def SkinKey.rect (key : SkinKey) : SkinArea :=
  ⟨key.posx.toNat, key.posy.toNat, key.width.toNat, key.height.toNat⟩

structure SkinButton where
  image : SkinImage
  key : SkinKey

structure EmulatedScreen where
  posx : Int
  posy : Int
  width : Int
  height : Int

/-- `SkinKeyboard`, with its button as an index. -/
structure SkinKeyboard where
  image : Option SkinImage := none
  animated : Bool := false
  keys : List SkinKey := []
  button : Option Nat := none

/-- `SkinScreen` and the static variables of the animation of the keyboard. -/
structure SkinScreen where
  ds : Surface
  es : EmulatedScreen
  background : Option SkinImage := none
  keyboard : SkinKeyboard := {}
  buttons : List SkinButton := []
  tooltip : Option SkinImage := none
  rotation : Bool := false
  firstKeyboardCheck : Bool := true
  noKeyboardAnim : Bool := false
  keyboardAnimationPhase : Nat := 0

def animNotUsed : Nat := 13

/-- A call of `skin_draw_image`, and whether the caller has tested that the image and the area
overlap. -/
structure Call where
  image : SkinImage
  area : SkinArea
  tested : Bool := false

section Callers

variable (skin : SkinScreen)

/-- An image in its own rectangle, with the background under it. -/
def drawOnBackground (image : SkinImage) : List Call :=
  skin.background.toList.map (fun background ↦ ⟨background, image.rect, false⟩) ++ [⟨image, image.rect, false⟩]

def drawButton (button : SkinButton) (state : ButtonState) : List Call :=
  if state = button.key.state then [] else drawOnBackground skin button.image

def drawAnimatedKeyboard (image : SkinImage) : List Call := drawOnBackground skin image

def highlightKey (key : SkinKey) (state : ButtonState) : List Call :=
  if state = key.state then []
  else if state ≠ .idle then []
  else skin.keyboard.image.toList.map fun image ↦ ⟨image, key.rect, false⟩

def drawTooltip (clip : SkinArea) : List Call :=
  match skin.tooltip with
  | some image => if overlaps image clip then [⟨image, clip, true⟩] else []
  | none => []

/-- The phases that resize the console draw nothing here: the resize redraws the whole skin. -/
def animateKeyboard (state : ButtonState) (phase : Nat) : List Call :=
  match skin.keyboard.image with
  | none => []
  | some image =>
    match state with
    | .active | .activeHighlighted =>
      if phase = animNotUsed then [⟨image, image.rect, false⟩]
      else if 2 < phase ∧ phase ≤ 7 then drawAnimatedKeyboard skin image
      else []
    | .idle | .highlighted => if 2 < phase ∧ phase < 7 then drawAnimatedKeyboard skin image else []
    | .forceredraw => []

/-- `skin_update_keyboard`, for the state of the button of the keyboard. -/
def updateKeyboard (state : Option ButtonState) : List Call :=
  let phase :=
    if !skin.keyboard.animated || skin.noKeyboardAnim then animNotUsed else skin.keyboardAnimationPhase
  match state with
  | none => []
  | some state => if phase ≤ 7 ∨ phase = animNotUsed then animateKeyboard skin state phase else []

def SkinScreen.keyboardState : Option ButtonState :=
  skin.keyboard.button.bind fun i ↦ skin.buttons[i]?.map fun button ↦ button.key.state

/-- A pass of the loop over the buttons. A switch takes the state that `skin_button_checkswitch`
finds, and the first check of the button of the keyboard draws the keyboard. -/
def drawSkinButton (checkswitch : SkinKey → ButtonState) (area : SkinArea) (i : Nat) (button : SkinButton) :
    List Call :=
  if overlaps button.image area then
    let keyboard :=
      if skin.keyboard.button = some i ∧ skin.firstKeyboardCheck then
        updateKeyboard { skin with noKeyboardAnim := true } (some (checkswitch button.key))
      else []
    keyboard ++ drawButton skin { button with key.state := checkswitch button.key } .forceredraw
  else []

def drawSkin (checkswitch : SkinKey → ButtonState) (area : SkinArea) : List Call :=
  let background :=
    match skin.background with
    | some image => if overlaps image area then [⟨image, area, true⟩] else []
    | none => []
  let keyboard :=
    if skin.keyboard.image.isSome ∧ skin.keyboard.keys ≠ [] ∧ skin.firstKeyboardCheck = false then
      updateKeyboard skin skin.keyboardState
    else []
  let buttons := skin.buttons.zipIdx.flatMap fun b ↦ drawSkinButton skin checkswitch area b.2 b.1
  background ++ keyboard ++ buttons

/-- The tooltip over an update of the emulated screen. -/
def drawUpdate (x y w h : Nat) : List Call :=
  let es := skin.es
  let clip : SkinArea :=
    if skin.rotation = false then
      if (skin.ds.width : Int) ≥ w + (x + es.posx) ∧ (skin.ds.height : Int) ≥ h + (y + es.posy) then
        ⟨x + es.posx, y + es.posy, w, h⟩
      else ⟨x, y, w, h⟩
    else ⟨es.posx + es.height - (y + h - 1), es.posy + x, h, w⟩
  match skin.tooltip with
  | some image => if overlaps image clip then drawTooltip skin (cliparea image clip) else []
  | none => []

end Callers

/-- What makes the skin draw images: a new host surface, the end of a tooltip, the mouse and the
keys over buttons and keys, the animation of the keyboard, a new tooltip or zoom level, and an
update of the emulated screen. -/
inductive Entry
  | hostResize (checkswitch : SkinKey → ButtonState)
  | clearTooltip (checkswitch : SkinKey → ButtonState)
  | button (button : SkinButton) (state : ButtonState)
  | highlightKey (key : SkinKey) (state : ButtonState)
  | updateKeyboard
  | fullKeyboard
  | showTooltip (image : SkinImage)
  | update (x y w h : Nat)

def calls (skin : SkinScreen) : Entry → List Call
  | .hostResize checkswitch => drawSkin skin checkswitch skin.ds.area
  | .clearTooltip checkswitch =>
    skin.tooltip.toList.flatMap fun image ↦ drawSkin { skin with tooltip := none } checkswitch image.rect
  | .button button state => drawButton skin button state
  | .highlightKey key state => highlightKey skin key state
  | .updateKeyboard => updateKeyboard skin skin.keyboardState
  | .fullKeyboard => skin.keyboard.image.toList.map fun image ↦ ⟨image, image.rect, false⟩
  | .showTooltip image => drawTooltip { skin with tooltip := some image } image.rect
  | .update x y w h => drawUpdate skin x y w h

/-- Every pixel that the calls write is inside the surface, the area and the image. -/
def AllInside (skin : SkinScreen) (entry : Entry) : Prop :=
  ∀ c ∈ calls skin entry, ∀ p ∈ drawImage skin.ds c.image c.area, Inside skin.ds c.image c.area p

/-- What is known of the area of a call. Without a test it is the rectangle of an image or a key. -/
def Call.Proper (c : Call) : Prop :=
  if c.tested then 0 ≤ c.area.width ∧ overlaps c.image c.area = true
  else c.area.x < 2 ^ 16 ∧ 0 ≤ c.area.right

section Proper

variable {skin : SkinScreen} {c : Call}

theorem proper_of_image (image : SkinImage) (own : SkinImage) : Call.Proper ⟨image, own.rect, false⟩ := by
  have hx := own.posx.isLt
  refine (if_neg Bool.false_ne_true).mpr ⟨?_, ?_⟩
  · dsimp only [SkinImage.rect]
    omega
  · dsimp only [SkinImage.rect, SkinArea.right]
    omega

theorem proper_of_key (image : SkinImage) (key : SkinKey) : Call.Proper ⟨image, key.rect, false⟩ :=
  proper_of_image image ⟨key.posx, key.posy, key.width, key.height⟩

theorem proper_of_overlaps {image : SkinImage} {area : SkinArea} (hwidth : 0 ≤ area.width)
    (h : overlaps image area = true) : Call.Proper ⟨image, area, true⟩ :=
  (if_pos rfl).mpr ⟨hwidth, h⟩

/-- An image drawn in its own rectangle. -/
theorem proper_own {image : SkinImage} (hc : c ∈ [Call.mk image image.rect false]) : c.Proper := by
  rw [List.mem_singleton.mp hc]
  exact proper_of_image image image

theorem proper_drawOnBackground (image : SkinImage) (hc : c ∈ drawOnBackground skin image) : c.Proper := by
  rcases List.mem_append.mp hc with hbackground | hown
  · obtain ⟨background, -, rfl⟩ := List.mem_map.mp hbackground
    exact proper_of_image background image
  · exact proper_own hown

theorem proper_drawButton {button : SkinButton} {state : ButtonState} (hc : c ∈ drawButton skin button state) :
    c.Proper := by
  unfold drawButton at hc
  split_ifs at hc
  · contradiction
  · exact proper_drawOnBackground _ hc

theorem proper_highlightKey {key : SkinKey} {state : ButtonState} (hc : c ∈ highlightKey skin key state) :
    c.Proper := by
  unfold highlightKey at hc
  split_ifs at hc
  · contradiction
  · contradiction
  · obtain ⟨image, -, rfl⟩ := List.mem_map.mp hc
    exact proper_of_key image key

theorem proper_drawTooltip {clip : SkinArea} (hwidth : 0 ≤ clip.width) (hc : c ∈ drawTooltip skin clip) :
    c.Proper := by
  unfold drawTooltip at hc
  split at hc
  · split_ifs at hc with hover
    · cases List.mem_singleton.mp hc
      exact proper_of_overlaps hwidth hover
    · contradiction
  · contradiction

theorem proper_animateKeyboard {state : ButtonState} {phase : Nat} (hc : c ∈ animateKeyboard skin state phase) :
    c.Proper := by
  unfold animateKeyboard at hc
  split at hc
  · contradiction
  · next image _ =>
    split at hc
    · split_ifs at hc
      · exact proper_own hc
      · exact proper_drawOnBackground image hc
      · contradiction
    · split_ifs at hc
      · exact proper_own hc
      · exact proper_drawOnBackground image hc
      · contradiction
    · split_ifs at hc
      · exact proper_drawOnBackground image hc
      · contradiction
    · split_ifs at hc
      · exact proper_drawOnBackground image hc
      · contradiction
    · contradiction

theorem proper_updateKeyboard {state : Option ButtonState} (hc : c ∈ updateKeyboard skin state) : c.Proper := by
  unfold updateKeyboard at hc
  dsimp only at hc
  split at hc
  · contradiction
  · split_ifs at hc
    · exact proper_animateKeyboard hc
    · contradiction
    · exact proper_animateKeyboard hc
    · contradiction

theorem proper_drawSkinButton {checkswitch : SkinKey → ButtonState} {area : SkinArea} {i : Nat}
    {button : SkinButton} (hc : c ∈ drawSkinButton skin checkswitch area i button) : c.Proper := by
  unfold drawSkinButton at hc
  split_ifs at hc
  · rcases List.mem_append.mp hc with hkeyboard | hbutton
    · exact proper_updateKeyboard hkeyboard
    · exact proper_drawButton hbutton
  · exact proper_drawButton hc
  · contradiction

theorem proper_drawSkin {checkswitch : SkinKey → ButtonState} {area : SkinArea} (hwidth : 0 ≤ area.width)
    (hc : c ∈ drawSkin skin checkswitch area) : c.Proper := by
  unfold drawSkin at hc
  dsimp only at hc
  rcases List.mem_append.mp hc with hbelow | hbuttons
  · rcases List.mem_append.mp hbelow with hbackground | hkeyboard
    · split at hbackground
      · split_ifs at hbackground with hover
        · cases List.mem_singleton.mp hbackground
          exact proper_of_overlaps hwidth hover
        · contradiction
      · contradiction
    · split_ifs at hkeyboard
      · exact proper_updateKeyboard hkeyboard
      · contradiction
  · obtain ⟨b, -, hb⟩ := List.mem_flatMap.mp hbuttons
    exact proper_drawSkinButton hb

theorem no_gap_of_overlaps {image : SkinImage} {area : SkinArea} (hwidth : 0 ≤ area.width)
    (h : overlaps image area = true) : max image.rect.x area.x ≤ min image.rect.right area.right := by
  have himage : 0 ≤ image.rect.width := Int.natCast_nonneg _
  unfold overlaps at h
  split_ifs at h
  simp only [SkinArea.right] at *
  omega

theorem proper_drawUpdate {x y w h : Nat} (hc : c ∈ drawUpdate skin x y w h) : c.Proper := by
  unfold drawUpdate at hc
  dsimp only at hc
  split at hc
  · next image _ =>
    split_ifs at hc with hrotation hfits hover hover hover
    all_goals first | contradiction | skip
    all_goals
      refine proper_drawTooltip ?_ hc
      have hgap := no_gap_of_overlaps (by simp) hover
      rw [← cliparea_x, ← cliparea_right, SkinArea.right] at hgap
      omega
  · contradiction

theorem proper_calls {entry : Entry} (hc : c ∈ calls skin entry) : c.Proper := by
  cases entry with
  | hostResize checkswitch => exact proper_drawSkin (Int.natCast_nonneg _) hc
  | clearTooltip checkswitch =>
    obtain ⟨image, -, hdraw⟩ := List.mem_flatMap.mp hc
    exact proper_drawSkin (Int.natCast_nonneg _) hdraw
  | button button state => exact proper_drawButton hc
  | highlightKey key state => exact proper_highlightKey hc
  | updateKeyboard => exact proper_updateKeyboard hc
  | fullKeyboard =>
    obtain ⟨image, -, rfl⟩ := List.mem_map.mp hc
    exact proper_of_image image image
  | showTooltip image =>
    have hwidth : 0 ≤ image.rect.width := Int.natCast_nonneg _
    change c ∈ drawTooltip { skin with tooltip := some image } image.rect at hc
    exact proper_drawTooltip hwidth hc
  | update x y w h => exact proper_drawUpdate hc

/-- A proper call stays inside exactly if it was tested or its image does not lie apart. -/
theorem inside_call_iff (hc : c.Proper) (ds : Surface) :
    (∀ p ∈ drawImage ds c.image c.area, Inside ds c.image c.area p) ↔
      (c.tested = false → ¬ Apart ds c.image c.area) := by
  unfold Call.Proper at hc
  cases htested : c.tested with
  | true =>
    rw [if_pos htested] at hc
    exact iff_of_true (fun p hp ↦ inside_of_no_gap (no_gap_of_overlaps hc.1 hc.2) hp) nofun
  | false =>
    rw [if_neg (by rw [htested]; decide)] at hc
    have hx := cliparea_x c.image c.area
    have hright := cliparea_right c.image c.area
    have hposx := c.image.posx.isLt
    have hleft : c.image.rect.x = c.image.posx.toNat := rfl
    have hend : 0 ≤ c.image.rect.right := by
      dsimp only [SkinImage.rect, SkinArea.right]
      omega
    rw [SkinArea.right] at hright
    rw [drawImage_inside_iff (by omega)]
    exact ⟨fun hapart _ ↦ hapart, fun hapart ↦ hapart rfl⟩

end Proper

/-- The skin draws inside its bounds exactly if no image that is drawn without a test of overlap
lies apart from its area: a background beside a button or a keyboard, or a keyboard beside a
key. -/
theorem allInside_iff (skin : SkinScreen) (entry : Entry) :
    AllInside skin entry ↔
      ∀ c ∈ calls skin entry, c.tested = false → ¬ Apart skin.ds c.image c.area :=
  forall₂_congr fun _ hc ↦ inside_call_iff (proper_calls hc) skin.ds

/-- A background of 100 columns, and a button to the right of it. -/
def wideSkin : SkinScreen where
  ds := ⟨320, 240, 4⟩
  es := ⟨0, 0, 0, 0⟩
  background := some ⟨0, 0, 100, 200⟩
  buttons := [⟨⟨150, 10, 20, 20⟩, { posx := 150, posy := 10, width := 20, height := 20 }⟩]

/-- The background is drawn from column 150 on, although it ends at column 100. -/
theorem allInside_fails : ¬ AllInside wideSkin (.hostResize SkinKey.state) := by
  intro h
  have hp : ((150 : Int), (10 : Int)) ∈ drawImage wideSkin.ds ⟨0, 0, 100, 200⟩ ⟨150, 10, 20, 20⟩ := by
    refine mem_drawImage.mpr ⟨.inr rfl, by decide, by decide, mem_pixels.mpr ⟨0, by decide, 0, ?_, by decide⟩⟩
    decide
  have hinside := h ⟨⟨0, 0, 100, 200⟩, ⟨150, 10, 20, 20⟩, false⟩ ?_ _ hp
  · exact absurd hinside.image.2.1 (by decide)
  · simp [calls, drawSkin, drawSkinButton, drawButton, drawOnBackground, wideSkin, overlaps, SkinImage.rect,
      Surface.area, SkinArea.right, SkinArea.bottom]

end IDeviceEmulator.Skin
