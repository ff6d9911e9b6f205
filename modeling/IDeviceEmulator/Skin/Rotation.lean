import IDeviceEmulator.Skin.Zoom

namespace IDeviceEmulator.Skin.Rotation

open Machine Text Zoom

/-- The value that a request sets the rotation to. -/
def requested (req : Vector Byte bufSize) : Option Bool :=
  if startsWith req.toList "setrotation=on" then some true
  else if startsWith req.toList "setrotation=off" then some false
  else none

/-- The skin, with the request that was answered last if it set the rotation. -/
structure Session where
  state : State
  answered : Option (Bool × Vector Byte bufSize) := none

def step (config : Config) (x : Session) (req : Vector Byte bufSize) : Except Fault (Session × List Byte) :=
  (rctServe config x.state req).map fun r ↦ (⟨r.1, (requested req).map (·, req)⟩, r.2)

/-- After a rotation was set it is reported as set, and setting it again changes nothing. -/
def Settled (config : Config) (x : Session) : Prop :=
  ∀ v req, x.answered = some (v, req) →
    (∀ get : Vector Byte bufSize, startsWith get.toList "getrotation" = true →
      rctServe config x.state get = .ok (x.state, ascii "OK:" ++ onOff v)) ∧
    rctServe config x.state req = .ok (x.state, ascii "OK:" ++ onOff v)

/-- A request only sets the rotation that is in force. -/
def Confirms (x : Session) (req : Vector Byte bufSize) : Prop := ∀ v, requested req = some v → x.state.rotation = v

section Texts

theorem startsWith_of_startsWith {text : List Byte} {long short : String} (hlen : short.length ≤ long.length)
    (h : startsWith text long = true) :
    startsWith text short = decide ((ascii long).take short.length = ascii short) := by
  have hlong : text.take long.length = ascii long := of_decide_eq_true h
  have htake : text.take short.length = (ascii long).take short.length := by
    rw [← hlong, List.take_take, Nat.min_eq_left hlen]
  unfold startsWith
  rw [htake]

theorem startsWith_drop {text : List Byte} {long short : String} {n : Nat} (hlen : n + short.length = long.length)
    (h : startsWith text long = true) (hdrop : (ascii long).drop n = ascii short) :
    startsWith (text.drop n) short = true := by
  have hlong : text.take long.length = ascii long := of_decide_eq_true h
  refine decide_eq_true ?_
  rw [← hdrop, ← hlong, List.drop_take, ← hlen, Nat.add_sub_cancel_left]

theorem getElem_of_startsWith {req : Vector Byte bufSize} {literal : String} {n : Nat} (hn : n < bufSize)
    (hlen : n < literal.length) (h : startsWith req.toList literal = true) :
    some (req.get ⟨n, hn⟩) = (ascii literal)[n]? := by
  have hlong : req.toList.take literal.length = ascii literal := of_decide_eq_true h
  rw [← hlong, List.getElem?_take_of_lt hlen]
  simp [Vector.get]

/-- A text that starts with `setrotation` and an argument comes to its handler. -/
theorem rctServe_argument (config : Config) (s : State) {req : Vector Byte bufSize} {literal : String}
    (h : startsWith req.toList literal = true) (hlen : 11 < literal.length)
    (hhead : (ascii literal).take 12 = ascii "setrotation=") :
    rctServe config s req = .ok (setrotation config s req) ∧ req[11] = byte '=' := by
  have hliteral : startsWith req.toList "setrotation=" = true := by
    have hstart : startsWith req.toList "setrotation=" = decide ((ascii literal).take 12 = ascii "setrotation=") :=
      startsWith_of_startsWith hlen h
    rw [hstart]
    exact decide_eq_true hhead
  have hgetzoom : startsWith req.toList "getzoom" = false := startsWith_of_startsWith (by decide) hliteral
  have hgetrotation : startsWith req.toList "getrotation" = false := startsWith_of_startsWith (by decide) hliteral
  have hsetzoom : startsWith req.toList "setzoom" = false := startsWith_of_startsWith (by decide) hliteral
  have hsetrotation : startsWith req.toList "setrotation" = true := startsWith_of_startsWith (by decide) hliteral
  refine ⟨?_, ?_⟩
  · simp only [rctServe, hgetzoom, hgetrotation, hsetzoom, hsetrotation, Bool.false_eq_true, if_false, if_true]
  · exact Option.some.inj (getElem_of_startsWith (n := 11) (by decide) (by decide) hliteral)

/-- A request that sets the rotation is answered with the value it sets. -/
theorem rctServe_requested (config : Config) (s : State) {req : Vector Byte bufSize} {v : Bool}
    (h : requested req = some v) : rctServe config s req =
      .ok (handleRotation config { s with rotationReq := v }, ascii "OK:" ++ onOff v) := by
  have hend : byte '=' ≠ byte '\n' := by decide
  unfold requested at h
  split_ifs at h with hon hoff
  · cases h
    obtain ⟨hserve, hbyte⟩ := rctServe_argument config s hon (by decide) (by decide)
    have harg : startsWith (req.toList.drop 11) "=on" = true := startsWith_drop rfl hon rfl
    rw [hserve, setrotation, hbyte, if_neg hend, if_pos harg]
    rfl
  · cases h
    obtain ⟨hserve, hbyte⟩ := rctServe_argument config s hoff (by decide) (by decide)
    have harg : startsWith (req.toList.drop 11) "=off" = true := startsWith_drop rfl hoff rfl
    have hnot : ¬ startsWith (req.toList.drop 11) "=on" = true := by
      rw [startsWith_of_startsWith (by decide) harg]
      decide
    rw [hserve, setrotation, hbyte, if_neg hend, if_neg hnot, if_pos harg]
    rfl

theorem rctServe_getrotation (config : Config) (s : State) {get : Vector Byte bufSize}
    (h : startsWith get.toList "getrotation" = true) :
    rctServe config s get = .ok (s, ascii "OK:" ++ onOff s.rotation) := by
  have hgetzoom : startsWith get.toList "getzoom" = false := startsWith_of_startsWith (by decide) h
  simp only [rctServe, hgetzoom, h, Bool.false_eq_true, if_false, if_true]

end Texts

section Runs

variable {landscape portrait : Layout}

def bothLayouts (landscape portrait : Layout) : Config := ⟨some landscape, some portrait⟩

theorem handleRotation_of_eq (config : Config) {s : State} (h : s.rotation = s.rotationReq) :
    handleRotation config s = s := by
  unfold handleRotation
  rw [if_neg (not_not.mpr h)]

theorem rotation_activateLayout (landscape portrait : Layout) (s : State) (v : Bool) :
    (activateLayout (bothLayouts landscape portrait) s v).rotation = !v ∧
      (activateLayout (bothLayouts landscape portrait) s v).rotationReq = !v := by
  cases v <;> exact ⟨rfl, rfl⟩

/-- With both layouts a rotation is taken back by the layout that it activates. -/
theorem rotation_handleRotation {s : State} {v : Bool} (h : s.rotation ≠ v) :
    (handleRotation (bothLayouts landscape portrait) { s with rotationReq := v }).rotation = !v := by
  unfold handleRotation
  rw [if_pos h]
  exact (rotation_activateLayout landscape portrait _ v).1

/-- No rotation is outstanding. -/
def Aligned (s : State) : Prop := s.rotation = s.rotationReq

theorem aligned_handleRotation (s : State) : Aligned (handleRotation (bothLayouts landscape portrait) s) := by
  unfold handleRotation
  split_ifs with h
  · obtain ⟨hrotation, hreq⟩ := rotation_activateLayout landscape portrait
      { s with rotation := s.rotationReq } s.rotationReq
    exact hrotation.trans hreq.symm
  · exact not_not.mp h

theorem aligned_applyZoom {s t : State} {newzoom : Int} {endp argument text : List Byte} (hs : Aligned s)
    (h : applyZoom s newzoom endp argument = .ok (t, text)) : Aligned t := by
  unfold applyZoom at h
  split_ifs at h
  · obtain ⟨argtext, -, h⟩ := ok_of_bind h
    obtain ⟨rep, -, h⟩ := ok_of_bind h
    cases h
    exact hs
  · cases h
    exact hs
  · cases h
    exact hs

theorem aligned_setzoom {s t : State} {req : Vector Byte bufSize} {text : List Byte} (hs : Aligned s)
    (h : setzoom s req = .ok (t, text)) : Aligned t := by
  unfold setzoom at h
  split_ifs at h
  · cases h
    exact hs
  · obtain ⟨r, -, h⟩ := ok_of_bind h
    exact aligned_applyZoom hs h
  · obtain ⟨r, -, h⟩ := ok_of_bind h
    exact aligned_applyZoom hs h
  · cases h
    exact hs

theorem aligned_setrotation {s : State} (req : Vector Byte bufSize) (hs : Aligned s) :
    Aligned (setrotation (bothLayouts landscape portrait) s req).1 := by
  unfold setrotation
  split_ifs
  · exact aligned_handleRotation _
  · exact aligned_handleRotation _
  · exact aligned_handleRotation _
  · exact hs
  · exact hs

theorem aligned_rctServe {s t : State} {req : Vector Byte bufSize} {text : List Byte} (hs : Aligned s)
    (h : rctServe (bothLayouts landscape portrait) s req = .ok (t, text)) : Aligned t := by
  unfold rctServe at h
  split_ifs at h
  · cases h
    exact hs
  · cases h
    exact hs
  · exact aligned_setzoom hs h
  · have hr : setrotation (bothLayouts landscape portrait) s req = (t, text) := Except.ok.inj h
    have hkeep : Aligned (setrotation (bothLayouts landscape portrait) s req).1 := aligned_setrotation req hs
    rw [hr] at hkeep
    exact hkeep
  · cases h
    exact hs

theorem aligned_step {x y : Session} {req : Vector Byte bufSize} {text : List Byte} (hx : Aligned x.state)
    (h : step (bothLayouts landscape portrait) x req = .ok (y, text)) : Aligned y.state := by
  obtain ⟨r, hserve, hy⟩ := ok_of_map h
  cases hy
  exact aligned_rctServe hx hserve

theorem step_requested (config : Config) (x : Session) {req : Vector Byte bufSize} {v : Bool}
    (h : requested req = some v) : step config x req =
      .ok (⟨handleRotation config { x.state with rotationReq := v }, some (v, req)⟩, ascii "OK:" ++ onOff v) := by
  rw [step, rctServe_requested config x.state h, h]
  rfl

/-- The rotation is as it was set exactly if it was so before. -/
theorem settled_requested_iff {s : State} (hs : Aligned s) {req : Vector Byte bufSize} {v : Bool}
    (hreq : requested req = some v) :
    Settled (bothLayouts landscape portrait)
      ⟨handleRotation (bothLayouts landscape portrait) { s with rotationReq := v }, some (v, req)⟩ ↔
        s.rotation = v := by
  constructor
  · intro h
    by_contra hne
    have hstart : startsWith (buffer "getrotation").toList "getrotation" = true := by decide +kernel
    have hget := (h v req rfl).1 (buffer "getrotation") hstart
    rw [rctServe_getrotation _ _ hstart, rotation_handleRotation hne] at hget
    have htext : ascii "OK:" ++ onOff (!v) = ascii "OK:" ++ onOff v := congrArg Prod.snd (Except.ok.inj hget)
    cases v <;> exact absurd (List.append_cancel_left htext) (by decide)
  · intro hv
    have hkeep : handleRotation (bothLayouts landscape portrait) { s with rotationReq := v } = s := by
      rw [← hv]
      have heq : ({ s with rotationReq := s.rotation } : State) = s := by
        cases s
        cases hs
        rfl
      rw [heq, handleRotation_of_eq _ hs]
    rw [hkeep]
    rintro w req' ⟨⟩
    refine ⟨fun get hget ↦ ?_, ?_⟩
    · rw [rctServe_getrotation _ _ hget, hv]
    · rw [rctServe_requested _ _ hreq, hkeep]

theorem settled_step_iff {x y : Session} {req : Vector Byte bufSize} {text : List Byte} (hx : Aligned x.state)
    (h : step (bothLayouts landscape portrait) x req = .ok (y, text)) :
    Settled (bothLayouts landscape portrait) y ↔ Confirms x req := by
  obtain ⟨r, hserve, hy⟩ := ok_of_map h
  cases hy
  cases hreq : requested req with
  | none =>
    refine iff_of_true ?_ ?_
    · intro v req' hanswered
      simp at hanswered
    · intro v hv
      rw [hreq] at hv
      cases hv
  | some v =>
    have hconfirms : Confirms x req ↔ x.state.rotation = v := by
      refine ⟨fun hc ↦ hc v hreq, fun hv w hw ↦ ?_⟩
      rw [hreq] at hw
      cases hw
      exact hv
    rw [rctServe_requested _ _ hreq] at hserve
    cases hserve
    rw [hconfirms]
    exact settled_requested_iff hx hreq

def start (config : Config) (portrait : Bool) : Session := { state := loadConfiguration config portrait }

theorem aligned_start (upright : Bool) : Aligned (start (bothLayouts landscape portrait) upright).state := by
  obtain ⟨hrotation, hreq⟩ := rotation_activateLayout landscape portrait
    { rotation := upright, rotationReq := upright } upright
  exact hrotation.trans hreq.symm

/-- A rotation that was set is in force, and setting it again changes nothing, exactly in the runs
that only set the rotation already in force. -/
theorem settled_throughout_iff (landscape portrait : Layout) (upright : Bool) (reqs : List (Vector Byte bufSize)) :
    Throughout (step (bothLayouts landscape portrait)) (Settled (bothLayouts landscape portrait))
        (start (bothLayouts landscape portrait) upright) reqs ↔
      Attempts (step (bothLayouts landscape portrait)) Confirms
        (start (bothLayouts landscape portrait) upright) reqs := by
  rw [← throughout_and_iff (I := fun x ↦ Aligned x.state) (aligned_start upright)
    fun x req y text hx h ↦ aligned_step hx h]
  refine throughout_iff_attempts ⟨aligned_start upright, nofun⟩ ?_ ?_
  · rintro x req y text - ⟨hx, -⟩ h
    rw [← settled_step_iff hx h]
    exact and_iff_right (aligned_step hx h)
  · intro x req hdone v hv
    exact hdone _ _ (step_requested _ x hv) v hv

/-- A skin that was loaded in portrait answers the request with `OK:on` and stays as it was. -/
theorem settled_throughout_fails : ∃ t,
    Run (step (bothLayouts ⟨[67]⟩ ⟨[67]⟩)) (start (bothLayouts ⟨[67]⟩ ⟨[67]⟩) true) [buffer "setrotation=on"] t ∧
      ¬ Settled (bothLayouts ⟨[67]⟩ ⟨[67]⟩) t := by
  have hreq : requested (buffer "setrotation=on") = some true := by decide +kernel
  refine ⟨_, .one (step_requested _ _ hreq), fun h ↦ ?_⟩
  have hrotation := (settled_requested_iff (aligned_start true) hreq).mp h
  exact absurd hrotation (by decide)

end Runs

end IDeviceEmulator.Skin.Rotation
