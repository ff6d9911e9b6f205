import Mathlib.Algebra.GroupWithZero.Nat
import Mathlib.Algebra.Group.Int.Defs
import IDeviceEmulator.Library.Machine
import IDeviceEmulator.Library.Text
import Mathlib.Logic.Function.Iterate

namespace IDeviceEmulator.Skin.Zoom

open Machine Text

def zoomStep : Int := 10

def zoomMinFactor : Int := 50

def zoomMaxFactor : Int := 130

/-- `RCT_BUFSIZE`. -/
abbrev bufSize : Nat := 256

inductive Fault
  /-- A string of the request does not end within its buffer. -/
  | unterminated
  /-- The reply is longer than its buffer. -/
  | overflow
deriving DecidableEq

/-- A layout of the skin, by the keycodes of its buttons. -/
structure Layout where
  buttons : List Byte
deriving DecidableEq

structure Config where
  landscape : Option Layout
  portrait : Option Layout

/-- The skin, with the keycodes that were put for the guest. -/
structure State where
  zoomFactor : Int := 100
  rotation : Bool := false
  rotationReq : Bool := false
  buttons : List Byte := []
  keycodes : List Byte := []
deriving DecidableEq

/-- The value of an `int` that an expression is stored in. -/
def toInt (x : Int) : Int := x.bmod (2 ^ 32)

section Strings

def isSpace (b : Byte) : Bool := b = byte ' ' ∨ 9 ≤ b.toNat ∧ b.toNat ≤ 13

def isDigit (b : Byte) : Bool := 48 ≤ b.toNat ∧ b.toNat ≤ 57

/-- A `long` is as near to the number as it can be. -/
def clampLong (x : Int) : Int := max (-2 ^ 63) (min x (2 ^ 63 - 1))

/-- `strtol` in base ten, with the rest of the text at `endp`. Text without a number is left as
it is. -/
def strtol (text : List Byte) : Except Fault (Int × List Byte) :=
  let body := text.dropWhile isSpace
  let negative := body.head? = some (byte '-')
  let number := if negative ∨ body.head? = some (byte '+') then body.drop 1 else body
  let row := number.takeWhile isDigit
  let endp := number.dropWhile isDigit
  if endp = [] then .error .unterminated
  else if row = [] then .ok (0, text)
  else .ok (clampLong (if negative then -(value row : Int) else value row), endp)

/-- The string that starts here. -/
def cstring (text : List Byte) : Except Fault (List Byte) :=
  if text.all (· ≠ 0) then .error .unterminated else .ok (text.takeWhile (· ≠ 0))

/-- `strncmp` with the length of a literal. -/
def startsWith (text : List Byte) (literal : String) : Bool := text.take literal.length = ascii literal

def sprintf (text : List Byte) : Except Fault (List Byte) :=
  if text.length < bufSize then .ok text else .error .overflow

end Strings

section Rotation

variable (config : Config)

def activateLayout (s : State) (rotation : Bool) : State :=
  match config.landscape.or config.portrait with
  | none => s
  | some layout =>
    match rotation, config.portrait with
    | true, some portrait => { s with rotation := false, rotationReq := false, buttons := portrait.buttons }
    | _, _ => { s with rotation := true, rotationReq := true, buttons := layout.buttons }

/-- The keys that move the axes of the guest with the screen. -/
def axisKeycodes (rotation : Bool) : List Byte :=
  if rotation then [0x4f, 0x4c, 0x4f ||| 0x80, 0x4c ||| 0x80] else [0x50, 0x4b, 0x50 ||| 0x80, 0x4b ||| 0x80]

def handleRotation (s : State) : State :=
  if s.rotation ≠ s.rotationReq then
    let s := activateLayout config { s with rotation := s.rotationReq } s.rotationReq
    { s with keycodes := s.keycodes ++ axisKeycodes s.rotation }
  else s

/-- The skin once its configuration was loaded. -/
def loadConfiguration (portrait : Bool) : State :=
  activateLayout config { rotation := portrait, rotationReq := portrait } portrait

end Rotation

section Requests

variable (config : Config) (s : State)

def unidentified : List Byte := ascii "ERROR:unidentified request"

def onOff (b : Bool) : List Byte := if b then ascii "on" else ascii "off"

/-- The end of `setzoom`, once the argument was read up to `endp`. -/
def applyZoom (newzoom : Int) (endp argument : List Byte) : Except Fault (State × List Byte) :=
  if endp.head? ≠ some 0 then do
    let text ← cstring argument
    let rep ← sprintf (ascii "ERROR:invalid setzoom argument:" ++ text)
    return (s, rep)
  else if newzoom < zoomMinFactor ∨ newzoom > zoomMaxFactor then
    .ok (s, ascii "ERROR:new zoom factor out of range:" ++ decimal newzoom)
  else
    let s := { s with zoomFactor := newzoom }
    .ok (s, ascii "OK:" ++ decimal s.zoomFactor)

def setzoom (req : Vector Byte bufSize) : Except Fault (State × List Byte) :=
  if req[7] = byte '\n' then .ok (s, ascii "ERROR:missing setzoom argument")
  else if req[7] = byte '=' then do
    let (n, endp) ← strtol (req.toList.drop 8)
    let newzoom := toInt n
    applyZoom s newzoom endp (req.toList.drop 8)
  else if (req[7] = byte '+' ∨ req[7] = byte '-') ∧ req[8] = byte '=' then do
    let (n, endp) ← strtol (req.toList.drop 9)
    let arg := toInt n
    let arg := if endp.head? = some 0 ∧ req[7] = byte '-' then toInt (-arg) else arg
    let newzoom := toInt (s.zoomFactor + arg)
    applyZoom s newzoom endp (req.toList.drop 9)
  else .ok (s, unidentified)

def setrotation (req : Vector Byte bufSize) : State × List Byte :=
  if req[11] = byte '\n' then
    let s := { s with rotationReq := !s.rotation }
    let s := handleRotation config s
    (s, ascii "OK:" ++ onOff s.rotation)
  else if startsWith (req.toList.drop 11) "=on" then
    (handleRotation config { s with rotationReq := true }, ascii "OK:on")
  else if startsWith (req.toList.drop 11) "=off" then
    (handleRotation config { s with rotationReq := false }, ascii "OK:off")
  else if req[11] = byte '=' then (s, ascii "ERROR:invalid setrotation argument\n")
  else (s, unidentified)

/-- `skin_rct_serve` for a buffer that holds what was received and, after it, what the stack
had there before. -/
def rctServe (req : Vector Byte bufSize) : Except Fault (State × List Byte) :=
  if startsWith req.toList "getzoom" then .ok (s, ascii "OK:" ++ decimal s.zoomFactor)
  else if startsWith req.toList "getrotation" then .ok (s, ascii "OK:" ++ onOff s.rotation)
  else if startsWith req.toList "setzoom" then setzoom s req
  else if startsWith req.toList "setrotation" then .ok (setrotation config s req)
  else .ok (s, unidentified)

end Requests

section Keys

variable (config : Config) (s : State)

def zoomIn (zoom : Int) : Int := if zoom < zoomMaxFactor then zoom + zoomStep else zoom

def zoomOut (zoom : Int) : Int := if zoom > zoomMinFactor then zoom - zoomStep else zoom

/-- What a button with a keycode does when its key is released. -/
def releaseButton (button : Byte) : State :=
  let s := if button = 67 then { s with rotationReq := !s.rotationReq } else s
  let s := if button = 87 then { s with zoomFactor := zoomIn s.zoomFactor } else s
  if button = 88 then { s with zoomFactor := zoomOut s.zoomFactor } else s

/-- `skin_key_handler` for the keycodes of the buttons of the skin. During a mouse event the
rotation is left to its end. -/
def keyHandler (keycode : Byte) (mouseEvent : Bool) : State :=
  let keyvalue := keycode &&& 0x7f
  let released := keycode &&& 0x80 ≠ 0
  let s := s.buttons.foldl (fun s b ↦ if b &&& 0x7f = keyvalue ∧ released then releaseButton s b else s) s
  if mouseEvent then s else handleRotation config s

end Keys

inductive Op
  | request (req : Vector Byte bufSize)
  | key (keycode : Byte) (mouseEvent : Bool)
  | mouseEventEnd

/-- The replies that were sent, each with the zoom factor in force when it was sent. -/
structure Session where
  state : State := {}
  replies : List (List Byte × Int) := []

def step (config : Config) (s : Session) : Op → Except Fault (Session × Unit)
  | .request req =>
    (rctServe config s.state req).map fun r ↦ (⟨r.1, s.replies ++ [(r.2, r.1.zoomFactor)]⟩, ())
  | .key keycode mouseEvent => .ok ({ s with state := keyHandler config s.state keycode mouseEvent }, ())
  | .mouseEventEnd => .ok ({ s with state := handleRotation config s.state }, ())

def InRange (zoom : Int) : Prop := zoomMinFactor ≤ zoom ∧ zoom ≤ zoomMaxFactor

instance (zoom : Int) : Decidable (InRange zoom) := inferInstanceAs (Decidable (_ ∧ _))

/-- A reply of a number reports a given zoom factor. -/
def Reports (text : List Byte) (zoom : Int) : Prop := ∀ n, text = ascii "OK:" ++ decimal n → n = zoom

structure Zoomed (s : Session) : Prop where
  range : InRange s.state.zoomFactor
  replies : ∀ r ∈ s.replies, Reports r.1 r.2

/-- The release of a zoom key does not step over the end of the range: the factor is a multiple
of the step, or far enough from the end for all the buttons of the key. -/
def Lands (s : Session) : Op → Prop
  | .key keycode _ =>
    keycode &&& 0x80 ≠ 0 →
      (keycode &&& 0x7f = 87 →
        s.state.zoomFactor % 10 = 0 ∨ s.state.zoomFactor + 10 * s.state.buttons.count 87 ≤ 130) ∧
      (keycode &&& 0x7f = 88 →
        s.state.zoomFactor % 10 = 0 ∨ 50 ≤ s.state.zoomFactor - 10 * s.state.buttons.count 88)
  | _ => True

section Rotation

variable (config : Config)

theorem zoom_activateLayout (s : State) (rotation : Bool) :
    (activateLayout config s rotation).zoomFactor = s.zoomFactor := by
  unfold activateLayout
  split
  · rfl
  · split <;> rfl

theorem zoom_handleRotation (s : State) : (handleRotation config s).zoomFactor = s.zoomFactor := by
  unfold handleRotation
  split_ifs
  · exact zoom_activateLayout config _ _
  · rfl

end Rotation

section Replies

variable {config : Config} {s t : State} {text : List Byte} {zoom : Int}

theorem reports_number (zoom : Int) : Reports (ascii "OK:" ++ decimal zoom) zoom := by
  intro n h
  exact decimal_injective (List.append_cancel_left h).symm

theorem reports_error (h : text.head? = some (byte 'E')) : Reports text zoom := by
  intro n htext
  rw [htext] at h
  exact absurd h (show some (byte 'O') ≠ some (byte 'E') by decide)

theorem reports_onOff (b : Bool) : Reports (ascii "OK:" ++ onOff b) zoom := by
  intro n htext
  have hdecimal : decimal n = onOff b := (List.append_cancel_left htext).symm
  obtain ⟨rest, hrest⟩ : ∃ rest, onOff b = byte 'o' :: rest := by
    cases b
    · exact ⟨_, rfl⟩
    · exact ⟨_, rfl⟩
  rcases head_decimal (hdecimal.trans hrest) with hsign | hdigit
  · exact absurd hsign (by decide)
  · exact absurd hdigit.2 (by decide)

theorem applyZoom_spec {newzoom : Int} {endp argument : List Byte} (hs : InRange s.zoomFactor)
    (h : applyZoom s newzoom endp argument = .ok (t, text)) : InRange t.zoomFactor ∧ Reports text t.zoomFactor := by
  unfold applyZoom at h
  split_ifs at h with hend hrange
  · obtain ⟨argtext, -, h⟩ := ok_of_bind h
    obtain ⟨rep, hrep, h⟩ := ok_of_bind h
    cases h
    unfold sprintf at hrep
    split_ifs at hrep
    cases hrep
    exact ⟨hs, reports_error rfl⟩
  · cases h
    exact ⟨hs, reports_error rfl⟩
  · cases h
    refine ⟨⟨?_, ?_⟩, reports_number newzoom⟩
    · exact Int.not_lt.mp fun hlow ↦ hrange (.inl hlow)
    · exact Int.not_lt.mp fun hhigh ↦ hrange (.inr hhigh)

theorem setzoom_spec {req : Vector Byte bufSize} (hs : InRange s.zoomFactor)
    (h : setzoom s req = .ok (t, text)) : InRange t.zoomFactor ∧ Reports text t.zoomFactor := by
  unfold setzoom at h
  split_ifs at h
  · cases h
    exact ⟨hs, reports_error rfl⟩
  · obtain ⟨r, -, h⟩ := ok_of_bind h
    exact applyZoom_spec hs h
  · obtain ⟨r, -, h⟩ := ok_of_bind h
    exact applyZoom_spec hs h
  · cases h
    exact ⟨hs, reports_error rfl⟩

theorem setrotation_spec (config : Config) (s : State) (req : Vector Byte bufSize) (zoom : Int) :
    (setrotation config s req).1.zoomFactor = s.zoomFactor ∧ Reports (setrotation config s req).2 zoom := by
  unfold setrotation
  split_ifs
  · exact ⟨zoom_handleRotation config _, reports_onOff _⟩
  · exact ⟨zoom_handleRotation config _, reports_onOff true⟩
  · exact ⟨zoom_handleRotation config _, reports_onOff false⟩
  · exact ⟨rfl, reports_error rfl⟩
  · exact ⟨rfl, reports_error rfl⟩

/-- A request leaves the factor in its range, and a number in the reply is the factor. -/
theorem rctServe_spec {req : Vector Byte bufSize} (hs : InRange s.zoomFactor)
    (h : rctServe config s req = .ok (t, text)) : InRange t.zoomFactor ∧ Reports text t.zoomFactor := by
  unfold rctServe at h
  split_ifs at h
  · cases h
    exact ⟨hs, reports_number _⟩
  · cases h
    exact ⟨hs, reports_onOff _⟩
  · exact setzoom_spec hs h
  · have hr : setrotation config s req = (t, text) := Except.ok.inj h
    obtain ⟨hzoom, hreports⟩ := setrotation_spec config s req t.zoomFactor
    rw [hr] at hzoom hreports
    exact ⟨hzoom ▸ hs, hreports⟩
  · cases h
    exact ⟨hs, reports_error rfl⟩

/-- A buffer that a request was received into, with zeros after it. -/
def buffer (text : String) : Vector Byte bufSize := Vector.ofFn fun i ↦ (ascii text).getD i 0

end Replies

section Keys

theorem le_iterate_zoomIn (k : Nat) (zoom : Int) : zoom ≤ zoomIn^[k] zoom := by
  induction k generalizing zoom with
  | zero => exact Int.le_refl zoom
  | succ k ih =>
    have hstep : zoom ≤ zoomIn zoom := by
      unfold zoomIn zoomStep
      split_ifs <;> omega
    exact Int.le_trans hstep (ih (zoomIn zoom))

/-- Repeated steps end in the range exactly if they reach its end or do not come to it. -/
theorem iterate_zoomIn_le_iff (k : Nat) {zoom : Int} (h : zoom ≤ zoomMaxFactor) :
    zoomIn^[k] zoom ≤ zoomMaxFactor ↔ zoom % 10 = 0 ∨ zoom + 10 * k ≤ 130 := by
  have hmax : zoomMaxFactor = 130 := rfl
  induction k generalizing zoom with
  | zero => exact iff_of_true h (.inr (by omega))
  | succ k ih =>
    rw [Function.iterate_succ_apply]
    by_cases hlt : zoom < zoomMaxFactor
    · have hnext : zoomIn zoom = zoom + 10 := if_pos hlt
      rw [hnext]
      by_cases hover : zoom + 10 ≤ zoomMaxFactor
      · refine (ih hover).trans ?_
        omega
      · have hle := le_iterate_zoomIn k (zoom + 10)
        exact iff_of_false (by omega) (by omega)
    · have hlast : zoom = 130 := by omega
      have hnext : zoomIn zoom = zoom := if_neg hlt
      rw [hnext]
      refine (ih h).trans ?_
      omega

/-- Zooming out is zooming in, seen from the other end of the range. -/
theorem mirror_iterate_zoomOut (k : Nat) (zoom : Int) : 180 - zoomOut^[k] zoom = zoomIn^[k] (180 - zoom) := by
  have hmirror : Function.Semiconj (fun z : Int ↦ 180 - z) zoomOut zoomIn := by
    intro z
    change 180 - zoomOut z = zoomIn (180 - z)
    unfold zoomOut zoomIn zoomMinFactor zoomMaxFactor zoomStep
    split_ifs <;> omega
  exact hmirror.iterate_right k zoom

theorem inRange_iterate_zoomIn_iff (k : Nat) {zoom : Int} (h : InRange zoom) :
    InRange (zoomIn^[k] zoom) ↔ zoom % 10 = 0 ∨ zoom + 10 * k ≤ 130 := by
  rw [← iterate_zoomIn_le_iff k h.2]
  exact and_iff_right (Int.le_trans h.1 (le_iterate_zoomIn k zoom))

theorem inRange_iterate_zoomOut_iff (k : Nat) {zoom : Int} (h : InRange zoom) :
    InRange (zoomOut^[k] zoom) ↔ zoom % 10 = 0 ∨ 50 ≤ zoom - 10 * k := by
  have hin : InRange (180 - zoom) := by
    unfold InRange zoomMinFactor zoomMaxFactor at h ⊢
    omega
  have hmirror := mirror_iterate_zoomOut k zoom
  have hiff := inRange_iterate_zoomIn_iff k hin
  rw [← hmirror] at hiff
  unfold InRange zoomMinFactor zoomMaxFactor at hiff ⊢
  omega

theorem zoom_releaseButton (s : State) (b : Byte) : (releaseButton s b).zoomFactor =
    if b = 87 then zoomIn s.zoomFactor else if b = 88 then zoomOut s.zoomFactor else s.zoomFactor := by
  unfold releaseButton
  by_cases hin : b = 87
  · subst hin
    rfl
  · by_cases hout : b = 88
    · subst hout
      rfl
    · simp only [hin, hout, if_false]
      split_ifs <;> rfl

/-- The buttons that a key does not stand for leave the factor as it is. -/
theorem zoom_foldl {value : Byte} {act : Int → Int} {f : State → Byte → State}
    (hact : ∀ s, (f s value).zoomFactor = act s.zoomFactor)
    (hrest : ∀ s b, b ≠ value → (f s b).zoomFactor = s.zoomFactor) (buttons : List Byte) (s : State) :
    (buttons.foldl f s).zoomFactor = act^[buttons.count value] s.zoomFactor := by
  induction buttons generalizing s with
  | nil => rfl
  | cons b buttons ih =>
    rw [List.foldl_cons, ih]
    by_cases hb : b = value
    · subst hb
      rw [hact, List.count_cons_self, Function.iterate_succ_apply]
    · rw [hrest s b hb, List.count_cons_of_ne hb]

/-- Only the buttons with exactly the code of a zoom key change the factor. -/
theorem zoom_releaseButton_of_ne (s : State) {b : Byte} (hin : b ≠ 87) (hout : b ≠ 88) :
    (releaseButton s b).zoomFactor = s.zoomFactor := by
  rw [zoom_releaseButton, if_neg hin, if_neg hout]

section Handler

variable (config : Config) (s : State) {keycode : Byte} (mouseEvent : Bool)

theorem zoom_keyHandler_eq (keycode : Byte) : (keyHandler config s keycode mouseEvent).zoomFactor =
    (s.buttons.foldl (fun s b ↦ if b &&& 0x7f = keycode &&& 0x7f ∧ keycode &&& 0x80 ≠ 0 then releaseButton s b else s)
      s).zoomFactor := by
  unfold keyHandler
  dsimp only
  split_ifs
  · rfl
  · exact zoom_handleRotation config _

theorem zoom_keyHandler_in (hreleased : keycode &&& 0x80 ≠ 0) (hkey : keycode &&& 0x7f = 87) :
    (keyHandler config s keycode mouseEvent).zoomFactor = zoomIn^[s.buttons.count 87] s.zoomFactor := by
  rw [zoom_keyHandler_eq]
  refine zoom_foldl (fun s ↦ ?_) (fun s b hb ↦ ?_) s.buttons s
  · rw [if_pos ⟨hkey.symm, hreleased⟩, zoom_releaseButton, if_pos rfl]
  · split_ifs with hmatch
    · refine zoom_releaseButton_of_ne s hb fun hout ↦ ?_
      rw [hout, hkey] at hmatch
      exact absurd hmatch.1 (by decide)
    · rfl

theorem zoom_keyHandler_out (hreleased : keycode &&& 0x80 ≠ 0) (hkey : keycode &&& 0x7f = 88) :
    (keyHandler config s keycode mouseEvent).zoomFactor = zoomOut^[s.buttons.count 88] s.zoomFactor := by
  rw [zoom_keyHandler_eq]
  refine zoom_foldl (fun s ↦ ?_) (fun s b hb ↦ ?_) s.buttons s
  · rw [if_pos ⟨hkey.symm, hreleased⟩, zoom_releaseButton, if_neg (by decide), if_pos rfl]
  · split_ifs with hmatch
    · refine zoom_releaseButton_of_ne s (fun hin ↦ ?_) hb
      rw [hin, hkey] at hmatch
      exact absurd hmatch.1 (by decide)
    · rfl

theorem zoom_keyHandler_other
    (hother : keycode &&& 0x80 ≠ 0 → keycode &&& 0x7f ≠ 87 ∧ keycode &&& 0x7f ≠ 88) :
    (keyHandler config s keycode mouseEvent).zoomFactor = s.zoomFactor := by
  have hkeep (s : State) (b : Byte) :
      (if b &&& 0x7f = keycode &&& 0x7f ∧ keycode &&& 0x80 ≠ 0 then releaseButton s b else s).zoomFactor =
        s.zoomFactor := by
    split_ifs with hmatch
    · obtain ⟨hin, hout⟩ := hother hmatch.2
      refine zoom_releaseButton_of_ne s (fun hb ↦ ?_) (fun hb ↦ ?_)
      · rw [hb] at hmatch
        exact hin hmatch.1.symm
      · rw [hb] at hmatch
        exact hout hmatch.1.symm
    · rfl
  rw [zoom_keyHandler_eq]
  exact List.foldlRecOn (motive := fun t ↦ t.zoomFactor = s.zoomFactor) s.buttons _ rfl
    fun t ht b _ ↦ (hkeep t b).trans ht

end Handler

end Keys

section Runs

variable {config : Config}

theorem inRange_key_iff {s : Session} (h : InRange s.state.zoomFactor) (keycode : Byte) (mouseEvent : Bool) :
    InRange (keyHandler config s.state keycode mouseEvent).zoomFactor ↔ Lands s (.key keycode mouseEvent) := by
  by_cases hreleased : keycode &&& 0x80 ≠ 0
  · by_cases hin : keycode &&& 0x7f = 87
    · have hout : keycode &&& 0x7f ≠ 88 := by
        rw [hin]
        decide
      rw [zoom_keyHandler_in _ _ _ hreleased hin, inRange_iterate_zoomIn_iff _ h]
      exact ⟨fun hlands _ ↦ ⟨fun _ ↦ hlands, fun hkey ↦ absurd hkey hout⟩, fun hlands ↦ (hlands hreleased).1 hin⟩
    · by_cases hout : keycode &&& 0x7f = 88
      · rw [zoom_keyHandler_out _ _ _ hreleased hout, inRange_iterate_zoomOut_iff _ h]
        exact ⟨fun hlands _ ↦ ⟨fun hkey ↦ absurd hkey hin, fun _ ↦ hlands⟩, fun hlands ↦ (hlands hreleased).2 hout⟩
      · rw [zoom_keyHandler_other _ _ _ fun _ ↦ ⟨hin, hout⟩]
        exact iff_of_true h fun _ ↦ ⟨fun hkey ↦ absurd hkey hin, fun hkey ↦ absurd hkey hout⟩
  · rw [zoom_keyHandler_other _ _ _ fun hkey ↦ absurd hkey hreleased]
    exact iff_of_true h fun hkey ↦ absurd hkey hreleased

theorem zoomed_step_iff {s t : Session} {op : Op} {o : Unit} (h : Zoomed s) (hs : step config s op = .ok (t, o)) :
    Zoomed t ↔ Lands s op := by
  cases op with
  | request req =>
    obtain ⟨r, hserve, ht⟩ := ok_of_map hs
    cases ht
    obtain ⟨hrange, hreports⟩ := rctServe_spec h.range hserve
    refine iff_of_true ⟨hrange, fun reply hreply ↦ ?_⟩ trivial
    rcases List.mem_append.mp hreply with hold | hnew
    · exact h.replies reply hold
    · cases List.mem_singleton.mp hnew
      exact hreports
  | key keycode mouseEvent =>
    cases hs
    rw [← inRange_key_iff h.range keycode mouseEvent]
    exact ⟨fun ht ↦ ht.range, fun hrange ↦ ⟨hrange, h.replies⟩⟩
  | mouseEventEnd =>
    cases hs
    refine iff_of_true ⟨?_, h.replies⟩ trivial
    rw [zoom_handleRotation]
    exact h.range

/-- The factor stays in its range exactly if no zoom key is released close to an end of the
range at a factor that is not a multiple of the step. -/
theorem zoomed_throughout_iff (config : Config) (rotation : Bool) (buttons : List Byte) (ops : List Op) :
    Throughout (step config) Zoomed { state := { rotation, rotationReq := rotation, buttons } } ops ↔
      Attempts (step config) Lands { state := { rotation, rotationReq := rotation, buttons } } ops := by
  have hstart : Zoomed { state := { rotation, rotationReq := rotation, buttons } } :=
    ⟨show InRange 100 by decide, nofun⟩
  refine throughout_iff_attempts hstart (fun s op t o _ hs ht ↦ zoomed_step_iff hs ht) ?_
  intro s op hdone
  cases op with
  | request req => trivial
  | key keycode mouseEvent => exact hdone _ _ rfl
  | mouseEventEnd => trivial

def zoomButtons : Config := ⟨some ⟨[87, 88]⟩, none⟩

/-- From 125 the key for zooming in leads to 135. -/
theorem zoomed_throughout_fails : ∃ t, Run (step zoomButtons) { state := loadConfiguration zoomButtons false }
    [.request (buffer "setzoom=125"), .key 0xd7 false] t ∧ ¬ Zoomed t := by
  obtain ⟨t, hr, hzoom⟩ : ∃ t, Run (step zoomButtons) { state := loadConfiguration zoomButtons false }
      [.request (buffer "setzoom=125"), .key 0xd7 false] t ∧ t.state.zoomFactor = 135 := by
    refine exists_run_of_exec ?_
    decide +kernel
  refine ⟨t, hr, fun h ↦ ?_⟩
  have hrange := h.range
  rw [hzoom] at hrange
  exact absurd hrange (by decide)

end Runs

end IDeviceEmulator.Skin.Zoom
