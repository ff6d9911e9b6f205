import IDeviceEmulator.Library.Masks
import IDeviceEmulator.Skin.Draw

namespace IDeviceEmulator.Skin.Button

abbrev Code := BitVec 8

/-- `SkinKeyEvent`. -/
structure KeyEvent where
  mouseover : Bool := false
  mousedown : Bool := false
  keydown : Bool := false
deriving DecidableEq

inductive DefaultState
  | undefined
  | off
  | on
deriving DecidableEq

/-- `SkinKey` without its place. Memory that is cleared has the default state off. -/
structure Key where
  keycode : Code
  event : KeyEvent := {}
  isswitch : Bool := false
  defaultstate : DefaultState := .off
  state : ButtonState := .idle
deriving DecidableEq

/-- What a handler leaves behind: the key, the codes for `kbd_put_keycode`, and the state that it
returns. -/
structure Handled where
  key : Key
  codes : List Code
  state : ButtonState

def putPress (keycode : Code) : List Code :=
  if keycode &&& 0x80 ≠ 0 then [0xe0, keycode &&& 0x7f] else [keycode]

def putRelease (keycode : Code) : List Code :=
  if keycode &&& 0x80 ≠ 0 then [0xe0, keycode] else [keycode ||| 0x80]

/-- `skin_button_handle_mouse`. -/
def handleMouse (button : Key) (mousebtn : Bool) : Handled :=
  let button := { button with event.mouseover := true }
  if button.isswitch then
    let triggers := !mousebtn && button.event.mousedown
    let newstate := button.state
    let newstate :=
      if triggers then
        if newstate = .highlighted then .activeHighlighted else .highlighted
      else newstate
    let codes := if triggers then putRelease button.keycode else []
    let newstate := if newstate = .idle then .highlighted else newstate
    let newstate := if newstate = .active then .activeHighlighted else newstate
    ⟨{ button with event.mousedown := mousebtn }, codes, newstate⟩
  else
    let pressed := if mousebtn && !button.event.mousedown then putPress button.keycode else []
    let released := if !mousebtn && button.event.mousedown then putRelease button.keycode else []
    ⟨{ button with event.mousedown := mousebtn }, pressed ++ released, .highlighted⟩

/-- `skin_button_handle_mouseleave`. -/
def handleMouseleave (button : Key) : Handled :=
  let left := { button with event.mousedown := false, event.mouseover := false }
  if button.isswitch then
    let newstate := if button.event.keydown then .highlighted else .idle
    let newstate :=
      if button.state = .active ∨ button.state = .activeHighlighted then
        if button.event.keydown then .activeHighlighted else .active
      else newstate
    ⟨left, [], newstate⟩
  else
    let codes := if button.event.mousedown then putRelease button.keycode else []
    ⟨left, codes, if button.event.keydown then .highlighted else .idle⟩

/-- `skin_button_handle_key`. -/
def handleKey (button : Key) (keypressed : Bool) : Handled :=
  let hover := button.event.mouseover
  let newstate :=
    if keypressed then
      match button.state with
      | .idle => .highlighted
      | .active => .activeHighlighted
      | state => state
    else
      match button.state with
      | .highlighted => if hover then .highlighted else .idle
      | .activeHighlighted => if hover then .activeHighlighted else .active
      | state => state
  let newstate :=
    if !keypressed && button.isswitch then
      match newstate with
      | .idle | .highlighted => if hover then .activeHighlighted else .active
      | .active | .activeHighlighted => if hover then .highlighted else .idle
      | state => state
    else newstate
  ⟨{ button with event.keydown := keypressed }, [], newstate⟩

/-- The end of `skin_load_configuration`: the button that the skin names for the keyboard becomes active, whether it
is a switch or not. -/
def loadConfiguration (button : Key) (keyboardButton : Bool) : Key :=
  if keyboardButton then { button with state := .active } else button

/-- The callers pass the state on to `skin_draw_button` or `skin_highlight_key`, which store it. -/
def Handled.stored (h : Handled) : Key := { h.key with state := h.state }

inductive Event
  | mouse (mousebtn : Bool)
  | mouseleave
  | key (keypressed : Bool)

def handle (button : Key) : Event → Handled
  | .mouse mousebtn => handleMouse button mousebtn
  | .mouseleave => handleMouseleave button
  | .key keypressed => handleKey button keypressed

/-- A key with the codes that were put, the state that was last returned, and what the events say
of the mouse and of the key on the keyboard. -/
structure Session where
  key : Key
  codes : List Code := []
  returned : ButtonState := .idle
  hover : Bool := false
  held : Bool := false

def Event.hover (hover : Bool) : Event → Bool
  | .mouse _ => true
  | .mouseleave => false
  | .key _ => hover

def Event.held (held : Bool) : Event → Bool
  | .key keypressed => keypressed
  | _ => held

def step (s : Session) (event : Event) : Session :=
  let handled := handle s.key event
  { key := handled.stored
    codes := s.codes ++ handled.codes
    returned := handled.state
    hover := event.hover s.hover
    held := event.held s.held }

/-- A key that has just been loaded. -/
def start (keycode : Code) (keyboardButton : Bool) : Session :=
  { key := loadConfiguration { keycode } keyboardButton }

section Codes

/-- A scan code sequence: the prefix of the extended keys, and the code with the release in its
highest bit. -/
def sequence (keycode : Code) (released : Bool) : List Code :=
  (if keycode.msb then [0xe0] else []) ++ [if released then keycode ||| 0x80 else keycode &&& 0x7f]

/-- Sequences of one key, a press first and then in turns. -/
def alternating (keycode : Code) : Nat → List Code
  | 0 => []
  | n + 1 => alternating keycode n ++ sequence keycode (n % 2 = 1)

variable (keycode : Code)

theorem extended_iff : keycode &&& 0x80 ≠ 0 ↔ keycode.msb = true := by
  rw [BitVec.msb_eq_getLsbD_last]
  exact Masks.and_twoPow_ne_zero_iff (show 7 < 8 by decide)

theorem or_highest (h : keycode.msb = true) : keycode ||| 0x80 = keycode := by
  apply BitVec.eq_of_getLsbD_eq
  intro i hi
  rw [BitVec.getLsbD_or]
  by_cases hlast : i = 7
  · subst hlast
    rw [BitVec.msb_eq_getLsbD_last] at h
    rw [h]
    rfl
  · rw [show (0x80 : Code) = BitVec.twoPow 8 7 by rfl, BitVec.getLsbD_twoPow]
    simp [Ne.symm hlast]

theorem and_lower (h : keycode.msb = false) : keycode &&& 0x7f = keycode := by
  have hlt := BitVec.msb_eq_false_iff_two_mul_lt.mp h
  apply BitVec.eq_of_toNat_eq
  rw [BitVec.toNat_and]
  change keycode.toNat &&& (2 ^ 7 - 1) = _
  rw [Nat.and_two_pow_sub_one_eq_mod]
  omega

theorem putPress_eq : putPress keycode = sequence keycode false := by
  unfold putPress sequence
  rw [if_congr (extended_iff keycode) rfl rfl]
  cases h : keycode.msb with
  | true => rfl
  | false => exact congrArg List.singleton (and_lower keycode h).symm

theorem putRelease_eq : putRelease keycode = sequence keycode true := by
  unfold putRelease sequence
  rw [if_congr (extended_iff keycode) rfl rfl]
  cases h : keycode.msb with
  | true => exact congrArg (fun code ↦ [0xe0, code]) (or_highest keycode h).symm
  | false => rfl

end Codes

section Handlers

variable {button : Key}

/-- A change of the mouse button is put as a sequence. -/
theorem handleMouse_eq (h : button.isswitch = false) (mousebtn : Bool) : handleMouse button mousebtn =
    ⟨{ button with event.mouseover := true, event.mousedown := mousebtn },
      if mousebtn = button.event.mousedown then [] else sequence button.keycode !mousebtn, .highlighted⟩ := by
  unfold handleMouse
  dsimp only
  rw [if_neg (by rw [h]; decide), putPress_eq, putRelease_eq]
  cases mousebtn <;> cases button.event.mousedown <;> simp

theorem handleMouseleave_eq (h : button.isswitch = false) : handleMouseleave button =
    ⟨{ button with event.mousedown := false, event.mouseover := false },
      if false = button.event.mousedown then [] else sequence button.keycode true,
      if button.event.keydown then .highlighted else .idle⟩ := by
  unfold handleMouseleave
  dsimp only
  rw [if_neg (by rw [h]; decide), putRelease_eq]
  cases button.event.mousedown <;> rfl

/-- The keyboard puts nothing. -/
theorem handleKey_key (button : Key) (keypressed : Bool) :
    (handleKey button keypressed).key = { button with event.keydown := keypressed } ∧
      (handleKey button keypressed).codes = [] :=
  ⟨rfl, rfl⟩

end Handlers

/-- A key that is no switch has put as many presses as releases, or one more while the mouse button
is down, and knows whether the mouse or its key on the keyboard is on it. -/
structure Sound (keycode : Code) (s : Session) (n : Nat) : Prop where
  code : s.key.keycode = keycode
  isswitch : s.key.isswitch = false
  codes : s.codes = alternating keycode n
  mousedown : s.key.event.mousedown = decide (n % 2 = 1)
  mouseover : s.key.event.mouseover = s.hover
  keydown : s.key.event.keydown = s.held
  outside : s.hover = false → n % 2 = 0

/-- The key has one of the two states of a key that is no switch. -/
structure Plain (s : Session) : Prop where
  stored : s.key.state = s.returned
  returned : s.returned = if s.hover || s.held then .highlighted else .idle

/-- The key is active, and neither the mouse nor a press has come to it. -/
structure Untouched (s : Session) : Prop where
  state : s.key.state = .active
  returned : s.returned ≠ .highlighted
  hover : s.hover = false
  held : s.held = false

section Steps

variable {keycode : Code} {s : Session} {n : Nat}

/-- A sequence is put when the mouse button changes, and then its turn has come. -/
theorem alternating_next (hcodes : s.codes = alternating keycode n) (mousebtn : Bool) :
    ∃ m, s.codes ++ (if mousebtn = decide (n % 2 = 1) then [] else sequence keycode !mousebtn) = alternating keycode m ∧
      mousebtn = decide (m % 2 = 1) := by
  by_cases hsame : mousebtn = decide (n % 2 = 1)
  · exact ⟨n, by rw [if_pos hsame, List.append_nil, hcodes], hsame⟩
  · have hother : (!mousebtn) = decide (n % 2 = 1) := by
      cases mousebtn <;> simp_all
    refine ⟨n + 1, by rw [if_neg hsame, hcodes, hother, alternating], ?_⟩
    rw [← Bool.not_not mousebtn, hother, ← decide_not, decide_eq_decide]
    omega

theorem sound_mouse (h : Sound keycode s n) (mousebtn : Bool) :
    (∃ m, Sound keycode (step s (.mouse mousebtn)) m) ∧ Plain (step s (.mouse mousebtn)) := by
  obtain ⟨m, hcodes, hparity⟩ := alternating_next h.codes mousebtn
  rw [← h.mousedown, ← h.code] at hcodes
  rw [step, handle, handleMouse_eq h.isswitch]
  refine ⟨⟨m, h.code, h.isswitch, h.code ▸ hcodes, hparity, rfl, h.keydown, fun haway ↦ ?_⟩, rfl, rfl⟩
  exact Bool.noConfusion haway

theorem sound_mouseleave (h : Sound keycode s n) :
    (∃ m, Sound keycode (step s .mouseleave) m) ∧ Plain (step s .mouseleave) := by
  obtain ⟨m, hcodes, hparity⟩ := alternating_next h.codes false
  rw [← h.mousedown, ← h.code] at hcodes
  rw [step, handle, handleMouseleave_eq h.isswitch, h.keydown]
  refine ⟨⟨m, h.code, h.isswitch, h.code ▸ hcodes, hparity, rfl, h.keydown, fun _ ↦ ?_⟩, rfl, rfl⟩
  simpa using hparity

theorem sound_key (h : Sound keycode s n) (keypressed : Bool) : Sound keycode (step s (.key keypressed)) n := by
  obtain ⟨hkey, hcodes⟩ := handleKey_key s.key keypressed
  refine ⟨h.code, h.isswitch, ?_, h.mousedown, h.mouseover, rfl, h.outside⟩
  change s.codes ++ (handleKey s.key keypressed).codes = _
  rw [hcodes, List.append_nil, h.codes]

theorem sound_step (h : Sound keycode s n) (event : Event) : ∃ m, Sound keycode (step s event) m := by
  cases event with
  | mouse mousebtn => exact (sound_mouse h mousebtn).1
  | mouseleave => exact (sound_mouseleave h).1
  | key keypressed => exact ⟨n, sound_key h keypressed⟩

theorem sound_start (keycode : Code) (keyboardButton : Bool) : Sound keycode (start keycode keyboardButton) 0 := by
  cases keyboardButton <;> exact ⟨rfl, rfl, rfl, rfl, rfl, rfl, fun _ ↦ rfl⟩

theorem sound_run (h : Sound keycode s n) (events : List Event) : ∃ m, Sound keycode (events.foldl step s) m := by
  induction events generalizing s n with
  | nil => exact ⟨n, h⟩
  | cons event events ih =>
    obtain ⟨m, hm⟩ := sound_step h event
    exact ih hm

end Steps

section Loaded

variable {keycode : Code} {s : Session} {n : Nat}

/-- The state that was last returned is that of the mouse and the keyboard. -/
def Shows (s : Session) : Prop := s.returned = .highlighted ↔ s.hover = true ∨ s.held = true

end Loaded

/-- The mouse is dragged off a key of the extended block. -/
example : ([.mouse true, .key true, .mouseleave, .key false].foldl step (start 0xc8 false)).codes =
    [0xe0, 0x48, 0xe0, 0xc8] := by
  decide

end IDeviceEmulator.Skin.Button
