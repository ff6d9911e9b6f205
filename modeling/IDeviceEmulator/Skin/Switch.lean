import IDeviceEmulator.Skin.Button

namespace IDeviceEmulator.Skin.Button

/-- What a callback returns. Any other number is none of the three states. -/
inductive HwState
  | unknown
  | inactive
  | active
  | other (value : Int)
deriving DecidableEq

section Chain

variable {ι : Type}

/-- `SkinButtonStateCallback`. -/
structure Node (ι : Type) where
  callback : ι
  next : Option Nat := none

/-- The nodes in the order of their allocation, and `switchcb`. -/
structure Chain (ι : Type) where
  nodes : List (Node ι) := []
  switchcb : Option Nat := none

/-- `qemu_skin_add_switchstate_callback`. The search for the end of the chain leaves nothing to link
a new node to. -/
def Chain.add (c : Chain ι) (callback : ι) : Chain ι :=
  match c.switchcb with
  | none => { nodes := c.nodes ++ [⟨callback, none⟩], switchcb := some c.nodes.length }
  | some _ => { c with nodes := c.nodes ++ [⟨callback, none⟩] }

/-- The callbacks that the links lead to. -/
def follow (nodes : List (Node ι)) : Nat → Option Nat → List ι
  | 0, _ => []
  | _ + 1, none => []
  | n + 1, some i =>
    match nodes[i]? with
    | none => []
    | some node => node.callback :: follow nodes n node.next

def Chain.linked (c : Chain ι) : List ι := follow c.nodes c.nodes.length c.switchcb

def register (callbacks : List ι) : Chain ι := callbacks.foldl Chain.add {}

end Chain

/-- What is behind the skin: the callbacks, and the guest keyboard, which may change what they answer. -/
structure Hardware (ι σ : Type) where
  call : ι → σ → Code → σ × HwState
  putKeycode : σ → Code → σ

/-- The callbacks that were consulted, and the state and the hardware after them. -/
structure Lookup (ι σ : Type) where
  consulted : List ι
  hwstate : HwState
  hw : σ

section Checkswitch

variable {ι σ : Type} (d : Hardware ι σ) (keycode : Code)

/-- The callbacks in their order until one answers. -/
def consult : List ι → σ → Lookup ι σ
  | [], hw => ⟨[], .unknown, hw⟩
  | cb :: rest, hw =>
    let (hw, state) := d.call cb hw keycode
    if state = .unknown then
      let found := consult rest hw
      { found with consulted := cb :: found.consulted }
    else ⟨[cb], state, hw⟩

/-- The loop of `skin_button_checkswitch`, and the pointer that it ends with. -/
def search : List ι → HwState → σ → Lookup ι σ × List ι
  | [], hwstate, hw => (⟨[], hwstate, hw⟩, [])
  | cb :: next, hwstate, hw =>
    if hwstate = .unknown then
      let (hw, hwstate) := d.call cb hw keycode
      match next with
      | [] => (⟨[cb], hwstate, hw⟩, [cb])
      | _ :: _ =>
        let (found, cb') := search next hwstate hw
        ({ found with consulted := cb :: found.consulted }, cb')
    else (⟨[], hwstate, hw⟩, cb :: next)

/-- The state of a switch follows the hardware. -/
def shown (hwstate : HwState) (state : ButtonState) : ButtonState :=
  match hwstate with
  | .inactive => if state = .active then .idle else if state = .activeHighlighted then .highlighted else state
  | .active => if state = .idle then .active else if state = .highlighted then .activeHighlighted else state
  | _ => state

/-- A check of a switch: the key, the outcome of the search, the codes that were put, and the
hardware with the state that it was last found in. -/
structure Check (ι σ : Type) where
  key : Key
  lookup : Lookup ι σ
  codes : List Code
  hw : σ
  hwstate : HwState

/-- The hardware is told to change, and asked again. The pointer is not null, as a callback has
answered. -/
def askAgain (cb : List ι) (c : Check ι σ) : Check ι σ :=
  let code := c.key.keycode ||| 0x80
  let hw := d.putKeycode c.hw code
  let (hw, hwstate) := (cb.head?.map fun cb ↦ d.call cb hw c.key.keycode).getD (hw, c.hwstate)
  { c with key.defaultstate := .undefined, codes := c.codes ++ [code], hw, hwstate }

/-- What follows the search. A default state overrides the hardware, which has to change. -/
def settle (cb : List ι) (button : Key) (lookup : Lookup ι σ) : Check ι σ :=
  let c := ⟨button, lookup, [], lookup.hw, lookup.hwstate⟩
  let c := if c.key.defaultstate = .on ∧ c.hwstate = .inactive then askAgain d cb c else c
  let c := if c.key.defaultstate = .off ∧ c.hwstate = .active then askAgain d cb c else c
  let c := { c with key.state := shown c.hwstate c.key.state }
  if c.hwstate = .unknown ∧ c.key.defaultstate = .off then { c with key.state := .idle } else c

/-- `skin_button_checkswitch`. -/
def checkswitch (chain : Chain ι) (button : Key) (hw : σ) : Check ι σ :=
  if button.isswitch then
    let (lookup, cb) := search d button.keycode chain.linked .unknown hw
    settle d cb button lookup
  else ⟨button, ⟨[], .unknown, hw⟩, [], hw, .unknown⟩

end Checkswitch

section Register

variable {ι : Type}

/-- The first callback stays the only one that a link leads to. -/
structure Lost (c : Chain ι) : Prop where
  unlinked : ∀ node ∈ c.nodes, node.next = none
  first : c.switchcb = if c.nodes = [] then none else some 0

theorem lost_empty : Lost ({} : Chain ι) := by
  refine ⟨fun node hnode ↦ ?_, rfl⟩
  cases hnode

theorem lost_add {c : Chain ι} (h : Lost c) (callback : ι) : Lost (c.add callback) := by
  have hunlinked (node : Node ι) (hnode : node ∈ c.nodes ++ [⟨callback, none⟩]) : node.next = none := by
    rcases List.mem_append.mp hnode with hold | hnew
    · exact h.unlinked node hold
    · rw [List.mem_singleton.mp hnew]
  have hfirst := h.first
  rw [Chain.add]
  split
  · next hnone =>
    have hnil : c.nodes = [] := by
      by_contra hne
      rw [hnone, if_neg hne] at hfirst
      cases hfirst
    exact ⟨hunlinked, by simp [hnil]⟩
  · next i hsome =>
    have hne : c.nodes ≠ [] := by
      intro hnil
      rw [hsome, if_pos hnil] at hfirst
      cases hfirst
    rw [if_neg hne] at hfirst
    exact ⟨hunlinked, by simp [hfirst]⟩

theorem follow_none (nodes : List (Node ι)) (n : Nat) : follow nodes n none = [] := by
  cases n <;> rfl

theorem linked_of_lost {c : Chain ι} (h : Lost c) : c.linked = (c.nodes.map Node.callback).take 1 := by
  rw [Chain.linked, h.first]
  cases hnodes : c.nodes with
  | nil => rfl
  | cons node rest =>
    have hnext : node.next = none := h.unlinked node (by rw [hnodes]; exact List.mem_cons_self)
    rw [if_neg (List.cons_ne_nil node rest)]
    change node.callback :: follow (node :: rest) rest.length node.next = [node.callback]
    rw [hnext, follow_none]

theorem register_spec {c : Chain ι} (h : Lost c) (callbacks : List ι) :
    Lost (callbacks.foldl Chain.add c) ∧
      (callbacks.foldl Chain.add c).nodes.map Node.callback = c.nodes.map Node.callback ++ callbacks := by
  induction callbacks generalizing c with
  | nil => exact ⟨h, (List.append_nil _).symm⟩
  | cons callback callbacks ih =>
    obtain ⟨hlost, hnodes⟩ := ih (lost_add h callback)
    have hadd : (c.add callback).nodes = c.nodes ++ [⟨callback, none⟩] := by
      rw [Chain.add]
      split <;> rfl
    refine ⟨hlost, ?_⟩
    rw [List.foldl_cons, hnodes, hadd, List.map_append, List.append_assoc]
    rfl

/-- Every callback has a node, and only that of the first can be reached. -/
theorem linked_register (callbacks : List ι) : (register callbacks).linked = callbacks.take 1 := by
  obtain ⟨hlost, hnodes⟩ := register_spec lost_empty callbacks
  rw [register, linked_of_lost hlost, hnodes]
  rfl

end Register

section Search

variable {ι σ : Type} {d : Hardware ι σ} {keycode : Code}

theorem search_of_answer {hwstate : HwState} (h : hwstate ≠ .unknown) (chain : List ι) (hw : σ) :
    (search d keycode chain hwstate hw).1 = ⟨[], hwstate, hw⟩ := by
  cases chain with
  | nil => rfl
  | cons cb next => rw [search, if_neg h]

/-- On the callbacks of the chain the loop does what it should. -/
theorem search_eq_consult (chain : List ι) (hw : σ) :
    (search d keycode chain .unknown hw).1 = consult d keycode chain hw := by
  induction chain generalizing hw with
  | nil => rfl
  | cons cb next ih =>
    rw [search, if_pos rfl, consult]
    cases next with
    | nil =>
      dsimp only
      split_ifs with hunknown
      · rw [consult, hunknown]
      · rfl
    | cons cb' rest =>
      dsimp only
      split_ifs with hunknown
      · rw [hunknown, ih]
      · rw [search_of_answer hunknown]

theorem consulted_ne_nil (cb : ι) (rest : List ι) (hw : σ) : (consult d keycode (cb :: rest) hw).consulted ≠ [] := by
  rw [consult]
  dsimp only
  split_ifs <;> exact List.cons_ne_nil _ _

/-- Callbacks after the first one matter exactly if it does not answer. -/
theorem consult_take_iff (callbacks : List ι) (hw : σ) :
    consult d keycode (callbacks.take 1) hw = consult d keycode callbacks hw ↔
      ∀ cb next rest, callbacks = cb :: next :: rest → (d.call cb hw keycode).2 ≠ .unknown := by
  cases callbacks with
  | nil => exact iff_of_true rfl (by rintro cb next rest ⟨⟩)
  | cons cb rest =>
    cases rest with
    | nil => exact iff_of_true rfl (by rintro cb next rest ⟨⟩)
    | cons next rest =>
      rw [List.take_succ_cons, List.take_zero, consult, consult]
      dsimp only
      by_cases hunknown : (d.call cb hw keycode).2 = .unknown
      · rw [if_pos hunknown, if_pos hunknown]
        refine iff_of_false (fun h ↦ ?_) fun h ↦ h cb next rest rfl hunknown
        have hconsulted := congrArg Lookup.consulted h
        exact consulted_ne_nil next rest _ (List.cons.inj hconsulted).2.symm
      · rw [if_neg hunknown, if_neg hunknown]
        refine iff_of_true rfl fun cb' next' rest' h ↦ ?_
        rw [← (List.cons.inj h).1]
        exact hunknown

end Search

section Check

variable {ι σ : Type} (d : Hardware ι σ)

theorem lookup_settle (cb : List ι) (button : Key) (found : Lookup ι σ) : (settle d cb button found).lookup = found := by
  unfold settle
  dsimp only
  split_ifs <;> rfl

theorem lookup_checkswitch {button : Key} (hswitch : button.isswitch = true) (chain : Chain ι) (hw : σ) :
    (checkswitch d chain button hw).lookup = consult d button.keycode chain.linked hw := by
  rw [← search_eq_consult, checkswitch, if_pos hswitch]
  exact lookup_settle d _ button _

/-- The hardware is not in the default state of the switch. -/
def Overridden (button : Key) (hwstate : HwState) : Prop :=
  button.defaultstate = .on ∧ hwstate = .inactive ∨ button.defaultstate = .off ∧ hwstate = .active

/-- Nothing is known of a switch that is off by default. -/
def Unanswered (button : Key) (hwstate : HwState) : Prop := hwstate = .unknown ∧ button.defaultstate = .off

theorem state_settle (cb : List ι) {button : Key} {found : Lookup ι σ} (h : ¬Overridden button found.hwstate)
    (hanswered : ¬Unanswered button found.hwstate) :
    (settle d cb button found).key.state = shown found.hwstate button.state := by
  obtain ⟨hon, hoff⟩ := not_or.mp h
  have hknown : ¬(found.hwstate = .unknown ∧ button.defaultstate = .off) := hanswered
  unfold settle
  dsimp only
  rw [if_neg hon, if_neg hoff]
  dsimp only
  rw [if_neg hknown]

theorem state_settle_unanswered (cb : List ι) {button : Key} {found : Lookup ι σ}
    (h : Unanswered button found.hwstate) : (settle d cb button found).key.state = .idle := by
  simp [settle, h.1, h.2]

theorem settle_overridden {cb : ι} {button : Key} {found : Lookup ι σ} (h : Overridden button found.hwstate) :
    (settle d [cb] button found).codes = [button.keycode ||| 0x80] ∧
      (settle d [cb] button found).key.state =
        shown (d.call cb (d.putKeycode found.hw (button.keycode ||| 0x80)) button.keycode).2 button.state := by
  rcases h with ⟨hon, hinactive⟩ | ⟨hoff, hactive⟩
  · simp [settle, askAgain, hon, hinactive]
  · simp [settle, askAgain, hoff, hactive]

/-- Of the callbacks that are linked the loop ends on the one that it has asked last. -/
theorem search_take_one (callbacks : List ι) (keycode : Code) (hw : σ) :
    search d keycode (callbacks.take 1) .unknown hw =
      (consult d keycode (callbacks.take 1) hw,
        (consult d keycode (callbacks.take 1) hw).consulted.getLast?.toList) := by
  cases callbacks with
  | nil => rfl
  | cons cb rest =>
    rw [List.take_succ_cons, List.take_zero, search, if_pos rfl, consult]
    dsimp only
    split_ifs with hunknown
    · rw [hunknown]
      rfl
    · rfl

/-- A check asks whom it should and uses the state that was found. Where that is not the default state of the switch,
the hardware is told to change, and the callback that has answered is asked again. -/
structure Uses (button : Key) (found : Lookup ι σ) (c : Check ι σ) : Prop where
  lookup : c.lookup = found
  state : ¬Overridden button found.hwstate → ¬Unanswered button found.hwstate →
    c.key.state = shown found.hwstate button.state
  unanswered : Unanswered button found.hwstate → c.key.state = .idle
  overridden : ∀ cb ∈ found.consulted.getLast?, Overridden button found.hwstate →
    c.codes = [button.keycode ||| 0x80] ∧
      c.key.state = shown (d.call cb (d.putKeycode found.hw (button.keycode ||| 0x80)) button.keycode).2 button.state

theorem uses_settle (button : Key) (found : Lookup ι σ) :
    Uses d button found (settle d found.consulted.getLast?.toList button found) := by
  refine ⟨lookup_settle d _ button found, state_settle d _, state_settle_unanswered d _, fun cb hcb h ↦ ?_⟩
  rw [Option.mem_def.mp hcb]
  exact settle_overridden d h

/-- The registered callbacks are consulted in their order until one answers, and its state is used. -/
def Consults (callbacks : List ι) (button : Key) (hw : σ) : Prop :=
  Uses d button (consult d button.keycode callbacks hw) (checkswitch d (register callbacks) button hw)

/-- A second callback is lost, which shows exactly if the first one does not answer. -/
theorem consults_iff (callbacks : List ι) {button : Key} (hswitch : button.isswitch = true) (hw : σ) :
    Consults d callbacks button hw ↔
      ∀ cb next rest, callbacks = cb :: next :: rest → (d.call cb hw button.keycode).2 ≠ .unknown := by
  rw [← consult_take_iff]
  have hlookup := lookup_checkswitch d hswitch (register callbacks) hw
  rw [linked_register] at hlookup
  refine ⟨fun h ↦ hlookup.symm.trans h.lookup, fun hsame ↦ ?_⟩
  have hsettle : checkswitch d (register callbacks) button hw =
      settle d (consult d button.keycode callbacks hw).consulted.getLast?.toList button
        (consult d button.keycode callbacks hw) := by
    rw [checkswitch, if_pos hswitch, linked_register, search_take_one, hsame]
  rw [Consults, hsettle]
  exact uses_settle d button _

end Check

/-- Hardware whose callbacks are the states that they answer. -/
def answers : Hardware HwState Unit := ⟨fun cb _ _ ↦ ((), cb), fun _ _ ↦ ()⟩

theorem consults_first : Consults answers [.active, .inactive] { keycode := 59, isswitch := true } () :=
  (consults_iff answers [.active, .inactive] rfl ()).mpr (by rintro cb next rest ⟨⟩; decide)

/-- The second callback answers that the switch is active, and is not asked. -/
theorem consults_fails :
    (checkswitch answers (register [.unknown, .active]) { keycode := 59, isswitch := true, defaultstate := .undefined }
      ()).key.state = .idle ∧
    ¬Consults answers [.unknown, .active] { keycode := 59, isswitch := true, defaultstate := .undefined } () := by
  refine ⟨by decide, fun h ↦ ?_⟩
  have hconsulted := congrArg Lookup.consulted h.lookup
  exact absurd hconsulted (by decide)

end IDeviceEmulator.Skin.Button
