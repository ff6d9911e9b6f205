import IDeviceEmulator.Library.Machine
import IDeviceEmulator.Opts.Parse

namespace IDeviceEmulator.Opts

open Machine

section Calls

/-- Of several options with a name the last is found. -/
def qemuOptFind (opts : QemuOpts) (name : Text) : Option QemuOpt := opts.head.reverse.find? (·.name = name)

def qemuOptGet (opts : QemuOpts) (name : Text) : Option Text := (qemuOptFind opts name).map QemuOpt.str

def QemuOptsList.insertTail (list : QemuOptsList) (opts : QemuOpts) : QemuOptsList :=
  { list with head := list.head ++ [opts] }

def QemuOpts.insertTail (opts : QemuOpts) (opt : QemuOpt) : QemuOpts := { opts with head := opts.head ++ [opt] }

def qemuOptDel (opts : QemuOpts) (i : Nat) : QemuOpts := { opts with head := opts.head.eraseIdx i }

/-- `qemu_opt_set` on the options of a member: an option is inserted before its value is parsed, and deleted where that
fails. -/
def optSet (list : QemuOptsList) (opts : QemuOpts) (name value : Text) : QemuOpts × Option Failure :=
  match list.desc.find? (·.name = name) with
  | none =>
    if list.desc = [] then (opts.insertTail ⟨name, value⟩, none) else (opts, some (.invalidParameter name))
  | some desc =>
    let set := opts.insertTail ⟨name, value⟩
    if desc.accepts value then (set, none) else (qemuOptDel set opts.head.length, some (.invalidValue name value))

/-- A member is changed where it stands. -/
def QemuOptsList.setMember (list : QemuOptsList) (i : Nat) (opts : QemuOpts) : QemuOptsList :=
  { list with head := list.head.set i opts }

/-- What `qemu_opts_create` leaves of the list, and the error that it reports. -/
def created (list : QemuOptsList) (id : Option Text) (failIfExists : Bool) : QemuOptsList × Option Failure :=
  match qemuOptsCreate list id failIfExists with
  | .error failure => (list, some failure)
  | .ok opts => if (id.bind (qemuOptsFind list)).isSome then (list, none) else (list.insertTail opts, none)

/-- Where the option is refused, the new member stays in the list. -/
def qemuOptsSet (list : QemuOptsList) (id : Option Text) (name value : Text) : QemuOptsList × Option Failure :=
  match qemuOptsCreate list id true with
  | .error failure => (list, some failure)
  | .ok opts =>
    let (opts, failure) := optSet list opts name value
    (list.insertTail opts, failure)

/-- An option of a parameter string is set, unless it is the id. -/
def stored (list : QemuOptsList) (opts : QemuOpts) (option value : Text) : QemuOpts × Option Failure :=
  if option ≠ idName then optSet list opts option value else (opts, none)

/-- `qemu_opts_do_parse` with the options that it has stored before it fails. -/
def parsed (list : QemuOptsList) (opts : QemuOpts) (p : Text) (firstname : Option Text) : QemuOpts × Option Failure :=
  if p = [] then (opts, none)
  else
    match _ : nextOption firstname p with
    | none => (opts, none)
    | some (option, value, rest) =>
      match stored list opts option value with
      | (opts, some failure) => (opts, some failure)
      | (opts, none) =>
        match _ : rest with
        | [] => (opts, none)
        | c :: rest => if c = comma then parsed list opts rest none else (opts, none)
termination_by p.length
decreasing_by
  subst_vars
  have hle := length_nextOption_le ‹_›
  exact hle

def qemuOptsDel (list : QemuOptsList) (i : Nat) : QemuOptsList := { list with head := list.head.eraseIdx i }

def qemuOptsReset (list : QemuOptsList) : QemuOptsList := list.head.foldl (fun list _ ↦ qemuOptsDel list 0) list

/-- `qemu_opts_parse` on the list: the new member is the last one, and it is deleted where one of its options is
refused. -/
def parsedNew (list : QemuOptsList) (params : Text) (permitAbbrev : Bool) : QemuOptsList × Option Failure :=
  match qemuOptsCreate list (findId params) true with
  | .error failure => (list, some failure)
  | .ok opts =>
    match parsed list opts params (if permitAbbrev then list.impliedOptName else none) with
    | (opts, none) => (list.insertTail opts, none)
    | (opts, some failure) => (qemuOptsDel (list.insertTail opts) list.head.length, some failure)

/-- A call on a list. Its callers hold pointers to members, here the places of these. -/
inductive Call
  | create (id : Option Text) (failIfExists : Bool)
  | optSet (i : Nat) (name value : Text)
  | optsSet (id : Option Text) (name value : Text)
  | parse (params : Text) (permitAbbrev : Bool)
  | doParse (i : Nat) (params : Text) (firstname : Option Text)
  | del (i : Nat)
  | reset

/-- An assertion fails, or the caller has no member. -/
inductive Stop
  | assertion
  | noMember

def step (list : QemuOptsList) : Call → Except Stop (QemuOptsList × Option Failure)
  | .create id failIfExists => .ok (created list id failIfExists)
  | .optSet i name value =>
    match list.head[i]? with
    | none => .error .noMember
    | some opts =>
      let (opts, failure) := optSet list opts name value
      .ok (list.setMember i opts, failure)
  | .optsSet id name value => .ok (qemuOptsSet list id name value)
  | .parse params permitAbbrev =>
    if permitAbbrev ∧ list.impliedOptName = none then .error .assertion else .ok (parsedNew list params permitAbbrev)
  | .doParse i params firstname =>
    match list.head[i]? with
    | none => .error .noMember
    | some opts =>
      let (opts, failure) := parsed list opts params firstname
      .ok (list.setMember i opts, failure)
  | .del i => if i < list.head.length then .ok (qemuOptsDel list i, none) else .error .noMember
  | .reset => .ok (qemuOptsReset list, none)

end Calls

section Extension

variable {list : QemuOptsList} {desc : List QemuOptDesc} {opts opts' opts'' : QemuOpts}

/-- There are no descriptions, or the first one of the name accepts the value. -/
def Accepts (desc : List QemuOptDesc) (name value : Text) : Prop :=
  match desc.find? (·.name = name) with
  | none => desc = []
  | some desc => desc.accepts value = true

/-- Accepted options are added. -/
def Extends (desc : List QemuOptDesc) (opts opts' : QemuOpts) : Prop :=
  ∃ added, opts' = { opts with head := opts.head ++ added } ∧ ∀ opt ∈ added, Accepts desc opt.name opt.str

theorem Extends.refl (desc : List QemuOptDesc) (opts : QemuOpts) : Extends desc opts opts :=
  ⟨[], by rw [List.append_nil], fun _ hopt ↦ absurd hopt List.not_mem_nil⟩

theorem Extends.trans (h : Extends desc opts opts') (h' : Extends desc opts' opts'') : Extends desc opts opts'' := by
  obtain ⟨added, rfl, hadded⟩ := h
  obtain ⟨added', rfl, hadded'⟩ := h'
  refine ⟨added ++ added', by rw [List.append_assoc], fun opt hopt ↦ ?_⟩
  rcases List.mem_append.mp hopt with hopt | hopt
  · exact hadded opt hopt
  · exact hadded' opt hopt

theorem Extends.id_eq (h : Extends desc opts opts') : opts'.id = opts.id := by
  obtain ⟨_, rfl, _⟩ := h
  rfl

theorem qemuOptDel_insertTail (opts : QemuOpts) (opt : QemuOpt) :
    qemuOptDel (opts.insertTail opt) opts.head.length = opts := by
  unfold qemuOptDel QemuOpts.insertTail
  rw [List.eraseIdx_append_of_length_le le_rfl, Nat.sub_self]
  simp

/-- An option is added, or the member is as it was. -/
theorem optSet_cases (list : QemuOptsList) (opts : QemuOpts) (name value : Text) :
    Accepts list.desc name value ∧ optSet list opts name value = (opts.insertTail ⟨name, value⟩, none) ∨
      ¬ Accepts list.desc name value ∧ ∃ failure, optSet list opts name value = (opts, some failure) := by
  unfold optSet Accepts
  cases list.desc.find? (·.name = name) with
  | none =>
    by_cases hany : list.desc = []
    · exact .inl ⟨hany, if_pos hany⟩
    · exact .inr ⟨hany, _, if_neg hany⟩
  | some desc =>
    by_cases hvalue : desc.accepts value = true
    · exact .inl ⟨hvalue, if_pos hvalue⟩
    · refine .inr ⟨hvalue, .invalidValue name value, (if_neg hvalue).trans ?_⟩
      rw [qemuOptDel_insertTail]

/-- The option that is inserted and deleted is the one that is not inserted. -/
theorem optSet_eq (list : QemuOptsList) (opts : QemuOpts) (name value : Text) :
    optSet list opts name value =
      match qemuOptSet list opts name value with
      | .error failure => (opts, some failure)
      | .ok opts => (opts, none) := by
  unfold optSet qemuOptSet
  cases list.desc.find? (·.name = name) with
  | none =>
    dsimp only
    split_ifs
    · rfl
    · rfl
  | some desc =>
    dsimp only
    split_ifs
    · rfl
    · rw [qemuOptDel_insertTail]

theorem extends_insertTail (opts : QemuOpts) {name value : Text} (h : Accepts desc name value) :
    Extends desc opts (opts.insertTail ⟨name, value⟩) :=
  ⟨[⟨name, value⟩], rfl, fun _ hopt ↦ List.mem_singleton.mp hopt ▸ h⟩

theorem optSet_extends (list : QemuOptsList) (opts : QemuOpts) (name value : Text) :
    Extends list.desc opts (optSet list opts name value).1 := by
  rcases optSet_cases list opts name value with ⟨haccepts, hset⟩ | ⟨-, failure, hset⟩
  · rw [hset]
    exact extends_insertTail opts haccepts
  · rw [hset]
    exact .refl list.desc opts

/-- The options that a parameter string sets, in order. -/
def options (firstname : Option Text) (p : Text) : List QemuOpt :=
  if p = [] then []
  else
    match _ : nextOption firstname p with
    | none => []
    | some (option, value, rest) =>
      let others :=
        match _ : rest with
        | [] => []
        | c :: rest => if c = comma then options none rest else []
      if option ≠ idName then ⟨option, value⟩ :: others else others
termination_by p.length
decreasing_by
  subst_vars
  have hle := length_nextOption_le ‹_›
  exact hle

/-- The options of a string up to the first that is refused are added. -/
def CutOff (desc : List QemuOptDesc) (asked : List QemuOpt) (opts opts' : QemuOpts) : Prop :=
  ∃ before opt after, asked = before ++ opt :: after ∧ (∀ o ∈ before, Accepts desc o.name o.str) ∧
    ¬ Accepts desc opt.name opt.str ∧ opts' = { opts with head := opts.head ++ before }

theorem CutOff.extends {asked : List QemuOpt} (h : CutOff desc asked opts opts') : Extends desc opts opts' := by
  obtain ⟨before, _, _, -, hbefore, -, rfl⟩ := h
  exact ⟨before, rfl, hbefore⟩

/-- All options that are asked for are added, or those up to the first that is refused. -/
def Parsed (desc : List QemuOptDesc) (asked : List QemuOpt) (opts : QemuOpts) : QemuOpts × Option Failure → Prop
  | (opts', none) =>
    (∀ opt ∈ asked, Accepts desc opt.name opt.str) ∧ opts' = { opts with head := opts.head ++ asked }
  | (opts', some _) => CutOff desc asked opts opts'

theorem Parsed.nil (desc : List QemuOptDesc) (opts : QemuOpts) : Parsed desc [] opts (opts, none) :=
  ⟨fun _ hopt ↦ absurd hopt List.not_mem_nil, by rw [List.append_nil]⟩

theorem Parsed.cons {opt : QemuOpt} {asked : List QemuOpt} {out : QemuOpts × Option Failure}
    (hopt : Accepts desc opt.name opt.str) (h : Parsed desc asked (opts.insertTail opt) out) :
    Parsed desc (opt :: asked) opts out := by
  obtain ⟨opts', _ | failure⟩ := out
  · obtain ⟨hasked, rfl⟩ := h
    exact ⟨List.forall_mem_cons.mpr ⟨hopt, hasked⟩, by simp [QemuOpts.insertTail]⟩
  · obtain ⟨before, refused, after, rfl, hbefore, hrefused, rfl⟩ := h
    exact ⟨opt :: before, refused, after, rfl, List.forall_mem_cons.mpr ⟨hopt, hbefore⟩, hrefused,
      by simp [QemuOpts.insertTail]⟩

theorem parsed_next {p rest option value : Text} {firstname : Option Text} (hp : p ≠ [])
    (hnext : nextOption firstname p = some (option, value, rest)) :
    parsed list opts p firstname =
      match stored list opts option value with
      | (opts, some failure) => (opts, some failure)
      | (opts, none) =>
        match rest with
        | [] => (opts, none)
        | c :: rest => if c = comma then parsed list opts rest none else (opts, none) := by
  rw [parsed, if_neg hp]
  split
  · next hnone => cases hnext.symm.trans hnone
  · next hsome =>
    cases hnext.symm.trans hsome
    obtain ⟨opts', _ | failure⟩ := stored list opts option value
    · cases rest <;> rfl
    · rfl

theorem options_next {p rest option value : Text} {firstname : Option Text} (hp : p ≠ [])
    (hnext : nextOption firstname p = some (option, value, rest)) :
    options firstname p =
      (if option ≠ idName then [⟨option, value⟩] else []) ++
        match rest with
        | [] => []
        | c :: rest => if c = comma then options none rest else [] := by
  rw [options, if_neg hp]
  split
  · next hnone => cases hnext.symm.trans hnone
  · next hsome =>
    cases hnext.symm.trans hsome
    split_ifs
    · cases rest <;> rfl
    · cases rest <;> rfl

/-- What is stored of one option, and what comes of the rest of the string. -/
theorem Parsed.of_stored {option value : Text} {asked : List QemuOpt} {out : QemuOpts × Option Failure}
    (hstored : stored list opts option value = (opts', none)) (h : Parsed list.desc asked opts' out) :
    Parsed list.desc ((if option ≠ idName then [⟨option, value⟩] else []) ++ asked) opts out := by
  unfold stored at hstored
  split_ifs at hstored ⊢ with hid
  · rcases optSet_cases list opts option value with ⟨haccepts, hset⟩ | ⟨-, failure, hset⟩
    · cases hset.symm.trans hstored
      exact .cons haccepts h
    · cases hset.symm.trans hstored
  · cases hstored
    exact h

theorem Parsed.of_refused {option value : Text} {failure : Failure} (asked : List QemuOpt)
    (hstored : stored list opts option value = (opts', some failure)) :
    Parsed list.desc ((if option ≠ idName then [⟨option, value⟩] else []) ++ asked) opts (opts', some failure) := by
  unfold stored at hstored
  split_ifs at hstored ⊢ with hid
  · rcases optSet_cases list opts option value with ⟨-, hset⟩ | ⟨hrefused, _, hset⟩
    · cases hset.symm.trans hstored
    · cases hset.symm.trans hstored
      exact ⟨[], ⟨option, value⟩, asked, rfl, fun _ hopt ↦ absurd hopt List.not_mem_nil, hrefused,
        by rw [List.append_nil]⟩
  · cases hstored

/-- What a string leaves in a member: the options that it sets, up to the first that is refused. -/
theorem parsed_parsed (list : QemuOptsList) (opts : QemuOpts) (p : Text) (firstname : Option Text) :
    Parsed list.desc (options firstname p) opts (parsed list opts p firstname) := by
  fun_induction parsed list opts p firstname with
  | case1 opts firstname =>
    rw [options, if_pos rfl]
    exact .nil list.desc opts
  | case2 opts p firstname hp hnext =>
    rw [options, if_neg hp]
    split
    · exact .nil list.desc opts
    · next hsome => cases hnext.symm.trans hsome
  | case3 opts p firstname hp option value rest hnext opts' failure hstored =>
    rw [options_next hp hnext]
    exact .of_refused _ hstored
  | case4 opts p firstname hp option value opts' hstored hnext =>
    rw [options_next hp hnext]
    exact .of_stored hstored (.nil list.desc opts')
  | case5 opts p firstname hp option value opts' hstored rest hnext _ ih =>
    rw [options_next hp hnext]
    refine .of_stored hstored ?_
    dsimp only
    rwa [if_pos rfl]
  | case6 opts p firstname hp option value opts' hstored c rest hnext hc =>
    rw [options_next hp hnext]
    refine .of_stored hstored ?_
    dsimp only
    rw [if_neg hc]
    exact .nil list.desc opts'

theorem Parsed.extends {asked : List QemuOpt} {out : QemuOpts × Option Failure} (h : Parsed desc asked opts out) :
    Extends desc opts out.1 := by
  obtain ⟨opts', _ | failure⟩ := out
  · exact ⟨asked, h.2, h.1⟩
  · exact CutOff.extends h

theorem qemuOptsDoParse_next {p rest option value : Text} {firstname : Option Text} (hp : p ≠ [])
    (hnext : nextOption firstname p = some (option, value, rest)) :
    qemuOptsDoParse list opts p firstname =
      match opts.store list option value with
      | .error failure => .error failure
      | .ok opts =>
        match rest with
        | [] => .ok opts
        | c :: rest => if c = comma then qemuOptsDoParse list opts rest none else .ok opts := by
  rw [qemuOptsDoParse, if_neg hp]
  split
  · next hnone => cases hnext.symm.trans hnone
  · next hsome =>
    cases hnext.symm.trans hsome
    cases opts.store list option value with
    | error failure => rfl
    | ok opts => cases rest <;> rfl

theorem store_eq (list : QemuOptsList) (opts : QemuOpts) (option value : Text) :
    opts.store list option value =
      match stored list opts option value with
      | (opts, none) => .ok opts
      | (_, some failure) => .error failure := by
  unfold QemuOpts.store stored
  split_ifs
  · rw [optSet_eq]
    cases qemuOptSet list opts option value with
    | error failure => rfl
    | ok opts => rfl
  · rfl

/-- Both readings of a parameter string store the same options. -/
theorem qemuOptsDoParse_eq (list : QemuOptsList) (opts : QemuOpts) (p : Text) (firstname : Option Text) :
    qemuOptsDoParse list opts p firstname =
      match parsed list opts p firstname with
      | (opts, none) => .ok opts
      | (_, some failure) => .error failure := by
  fun_induction parsed list opts p firstname with
  | case1 opts firstname => rw [qemuOptsDoParse, if_pos rfl]
  | case2 opts p firstname hp hnext =>
    rw [qemuOptsDoParse, if_neg hp]
    split
    · rfl
    · next hsome => cases hnext.symm.trans hsome
  | case3 opts p firstname hp option value rest hnext opts' failure hstored =>
    rw [qemuOptsDoParse_next hp hnext, store_eq, hstored]
  | case4 opts p firstname hp option value opts' hstored hnext =>
    rw [qemuOptsDoParse_next hp hnext, store_eq, hstored]
  | case5 opts p firstname hp option value opts' hstored rest hnext _ ih =>
    rw [qemuOptsDoParse_next hp hnext, store_eq, hstored]
    exact (if_pos rfl).trans ih
  | case6 opts p firstname hp option value opts' hstored c rest hnext hc =>
    rw [qemuOptsDoParse_next hp hnext, store_eq, hstored]
    exact if_neg hc

end Extension

section Step

variable {list t : QemuOptsList} {call : Call} {failure : Option Failure}

/-- No member has the id, and it is an identifier. -/
def Fresh (list : QemuOptsList) (id : Option Text) : Prop :=
  ∀ i, id = some i → idWellformed i = true ∧ qemuOptsFind list i = none

/-- The calls that leave the list as they found it where they fail: all but the parsing of a string for a member that
exists, and the setting of an option of a member that has just been made. -/
def Call.Undone (list : QemuOptsList) : Call → Prop
  | .doParse _ _ _ => False
  | .optsSet id _ _ => ¬ Fresh list id
  | _ => True

/-- What a call makes of a list, and the error that it reports. -/
inductive Effect (list : QemuOptsList) : Call → QemuOptsList → Option Failure → Prop
  | found (id : Option Text) : Effect list (.create id false) list none
  | refused {call : Call} (failure : Failure) : call.Undone list → Effect list call list (some failure)
  | inserted {call : Call} {id : Option Text} {opts : QemuOpts} :
      Fresh list id → Extends list.desc ⟨id, []⟩ opts → Effect list call (list.insertTail opts) none
  | withoutOption {id : Option Text} {name value : Text} (failure : Failure) :
      Fresh list id → ¬ Accepts list.desc name value →
        Effect list (.optsSet id name value) (list.insertTail ⟨id, []⟩) (some failure)
  | extended {call : Call} {i : Nat} {opts opts' : QemuOpts} :
      list.head[i]? = some opts → Extends list.desc opts opts' → Effect list call (list.setMember i opts') none
  | cutOff {i : Nat} {opts opts' : QemuOpts} {params : Text} {firstname : Option Text} (failure : Failure) :
      list.head[i]? = some opts → CutOff list.desc (options firstname params) opts opts' →
        Effect list (.doParse i params firstname) (list.setMember i opts') (some failure)
  | deleted (i : Nat) : Effect list (.del i) (qemuOptsDel list i) none
  | reset : Effect list .reset { list with head := [] } none

theorem qemuOptsCreate_cases {id : Option Text} {failIfExists : Bool} {opts : QemuOpts}
    (h : qemuOptsCreate list id failIfExists = .ok opts) :
    failIfExists = false ∧ id.bind (qemuOptsFind list) = some opts ∨ Fresh list id ∧ opts = ⟨id, []⟩ := by
  cases id with
  | none =>
    cases h
    exact .inr ⟨fun i hi ↦ absurd hi.symm (Option.some_ne_none i), rfl⟩
  | some id =>
    simp only [qemuOptsCreate] at h
    split at h
    · cases h
    · next hwellformed =>
      have hid : idWellformed id = true := by simpa using hwellformed
      split at h
      · next found hfind =>
        split at h
        · cases h
        · next hfail =>
          cases h
          exact .inl ⟨by simpa using hfail, hfind⟩
      · next hfind =>
        cases h
        refine .inr ⟨fun i hi ↦ ?_, rfl⟩
        cases hi
        exact ⟨hid, hfind⟩

theorem Fresh.bind_eq {id : Option Text} (h : Fresh list id) : id.bind (qemuOptsFind list) = none := by
  cases id with
  | none => rfl
  | some id => exact (h id rfl).2

theorem Fresh.create {id : Option Text} (h : Fresh list id) (failIfExists : Bool) :
    qemuOptsCreate list id failIfExists = .ok ⟨id, []⟩ := by
  cases id with
  | none => rfl
  | some id =>
    obtain ⟨hwellformed, hnone⟩ := h id rfl
    simp [qemuOptsCreate, hwellformed, hnone]

theorem created_effect (list : QemuOptsList) (id : Option Text) (failIfExists : Bool) :
    Effect list (.create id failIfExists) (created list id failIfExists).1 (created list id failIfExists).2 := by
  unfold created
  cases hcreate : qemuOptsCreate list id failIfExists with
  | error failure => exact .refused failure trivial
  | ok opts =>
    rcases qemuOptsCreate_cases hcreate with ⟨rfl, hfound⟩ | ⟨hfresh, rfl⟩
    · simp only [hfound, Option.isSome_some, if_true]
      exact .found id
    · simp only [hfresh.bind_eq, Option.isSome_none, Bool.false_eq_true, if_false]
      exact .inserted hfresh (.refl list.desc _)

theorem qemuOptsSet_effect (list : QemuOptsList) (id : Option Text) (name value : Text) :
    Effect list (.optsSet id name value) (qemuOptsSet list id name value).1 (qemuOptsSet list id name value).2 := by
  unfold qemuOptsSet
  cases hcreate : qemuOptsCreate list id true with
  | error failure =>
    refine .refused failure fun hfresh ↦ ?_
    cases hcreate.symm.trans (hfresh.create true)
  | ok opts =>
    rcases qemuOptsCreate_cases hcreate with ⟨hfalse, -⟩ | ⟨hfresh, rfl⟩
    · cases hfalse
    · dsimp only
      rcases optSet_cases list ⟨id, []⟩ name value with ⟨haccepts, hset⟩ | ⟨hrefused, failure, hset⟩
      · rw [hset]
        exact .inserted hfresh (extends_insertTail _ haccepts)
      · rw [hset]
        exact .withoutOption failure hfresh hrefused

theorem qemuOptsDel_insertTail (list : QemuOptsList) (opts : QemuOpts) :
    qemuOptsDel (list.insertTail opts) list.head.length = list := by
  unfold qemuOptsDel QemuOptsList.insertTail
  rw [List.eraseIdx_append_of_length_le le_rfl, Nat.sub_self]
  simp

theorem parsedNew_effect (list : QemuOptsList) (params : Text) (permitAbbrev : Bool) :
    Effect list (.parse params permitAbbrev) (parsedNew list params permitAbbrev).1
      (parsedNew list params permitAbbrev).2 := by
  unfold parsedNew
  cases hcreate : qemuOptsCreate list (findId params) true with
  | error failure => exact .refused failure trivial
  | ok opts =>
    rcases qemuOptsCreate_cases hcreate with ⟨hfalse, -⟩ | ⟨hfresh, rfl⟩
    · cases hfalse
    · have hparse := parsed_parsed list ⟨findId params, []⟩ params
        (if permitAbbrev = true then list.impliedOptName else none)
      dsimp only
      rcases hparsed : parsed list ⟨findId params, []⟩ params
        (if permitAbbrev = true then list.impliedOptName else none) with ⟨opts, _ | failure⟩
      · rw [hparsed] at hparse
        exact .inserted hfresh hparse.extends
      · dsimp only
        rw [qemuOptsDel_insertTail]
        exact .refused failure trivial

/-- The list that is made and deleted from is the one that is only returned. -/
theorem qemuOptsParse_eq (list : QemuOptsList) (params : Text) (permitAbbrev : Bool) :
    (qemuOptsParse list params permitAbbrev).map Prod.fst =
      if permitAbbrev = true ∧ list.impliedOptName = none then .error .assertion
      else
        match parsedNew list params permitAbbrev with
        | (t, none) => .ok t
        | (_, some failure) => .error failure := by
  rw [qemuOptsParse, parsedNew]
  split
  · rfl
  · cases qemuOptsCreate list (findId params) true with
    | error failure => rfl
    | ok opts =>
      change Except.map Prod.fst (qemuOptsDoParse list opts params _ >>= _) = _
      rw [qemuOptsDoParse_eq]
      dsimp only
      rcases parsed list opts params (if permitAbbrev = true then list.impliedOptName else none) with
        ⟨opts, _ | failure⟩
      · rfl
      · rfl

theorem qemuOptsReset_eq (list : QemuOptsList) : qemuOptsReset list = { list with head := [] } := by
  have hall : ∀ (members head : List QemuOpts), members.length = head.length →
      members.foldl (fun list _ ↦ qemuOptsDel list 0) { list with head := head } = { list with head := [] } := by
    intro members
    induction members with
    | nil =>
      intro head hlength
      rw [List.length_eq_zero_iff.mp hlength.symm]
      rfl
    | cons _ members ih =>
      intro head hlength
      cases head with
      | nil => cases hlength
      | cons _ head => exact ih head (Nat.succ.inj hlength)
  exact hall list.head list.head rfl

theorem setMember_self {i : Nat} {opts : QemuOpts} (h : list.head[i]? = some opts) : list.setMember i opts = list := by
  obtain ⟨hlt, rfl⟩ := List.getElem?_eq_some_iff.mp h
  rw [QemuOptsList.setMember, List.set_getElem_self]

theorem step_effect (h : step list call = .ok (t, failure)) : Effect list call t failure := by
  cases call with
  | create id failIfExists =>
    have heq : created list id failIfExists = (t, failure) := Except.ok.inj h
    have heffect := created_effect list id failIfExists
    rwa [heq] at heffect
  | optSet i name value =>
    simp only [step] at h
    split at h
    · cases h
    · next opts hopts =>
      rcases optSet_cases list opts name value with ⟨haccepts, hset⟩ | ⟨-, failed, hset⟩
      · rw [hset] at h
        cases h
        exact .extended hopts (extends_insertTail opts haccepts)
      · rw [hset] at h
        cases h
        rw [setMember_self hopts]
        exact .refused failed trivial
  | optsSet id name value =>
    have heq : qemuOptsSet list id name value = (t, failure) := Except.ok.inj h
    have heffect := qemuOptsSet_effect list id name value
    rwa [heq] at heffect
  | parse params permitAbbrev =>
    simp only [step] at h
    split_ifs at h
    have heffect := parsedNew_effect list params permitAbbrev
    rwa [Except.ok.inj h] at heffect
  | doParse i params firstname =>
    simp only [step] at h
    split at h
    · cases h
    · next opts hopts =>
      have hparse := parsed_parsed list opts params firstname
      rcases hparsed : parsed list opts params firstname with ⟨opts', _ | failure⟩
      · rw [hparsed] at h hparse
        cases h
        exact .extended hopts hparse.extends
      · rw [hparsed] at h hparse
        cases h
        exact .cutOff failure hopts hparse
  | del i =>
    simp only [step] at h
    split_ifs at h
    cases h
    exact .deleted i
  | reset =>
    cases h
    rw [qemuOptsReset_eq]
    exact .reset

/-- What a call that fails leaves: a new member without options where an option of a new member is refused, the options
in front of the refused one where a string is parsed for a member, and otherwise the list that it found. -/
def LeftBehind (list : QemuOptsList) (t : QemuOptsList) : Call → Prop
  | .optsSet id name value =>
    ¬ Fresh list id ∧ t = list ∨ Fresh list id ∧ ¬ Accepts list.desc name value ∧ t = list.insertTail ⟨id, []⟩
  | .doParse i params firstname =>
    ∃ opts before opt after, list.head[i]? = some opts ∧ options firstname params = before ++ opt :: after ∧
      (∀ o ∈ before, Accepts list.desc o.name o.str) ∧ ¬ Accepts list.desc opt.name opt.str ∧
      t = list.setMember i { opts with head := opts.head ++ before }
  | _ => t = list

theorem failed_leftBehind {failed : Failure} (h : step list call = .ok (t, some failed)) : LeftBehind list t call := by
  cases step_effect h with
  | refused _ hcall =>
    cases call with
    | optsSet => exact .inl ⟨hcall, rfl⟩
    | doParse => cases hcall
    | create | optSet | parse | del | reset => rfl
  | withoutOption _ hfresh hrefused => exact .inr ⟨hfresh, hrefused, rfl⟩
  | cutOff _ hopts hcut =>
    obtain ⟨before, opt, after, hoptions, hbefore, hrefused, rfl⟩ := hcut
    exact ⟨_, before, opt, after, hopts, hoptions, hbefore, hrefused, rfl⟩

/-- A list that describes one option, `s`, and accepts `x` for it. -/
def describedList : QemuOptsList := ⟨[], none, [⟨[115], fun value ↦ value == [120]⟩], []⟩

/-- `s=x,s=y` -/
def halfAccepted : Text := [115, 61, 120, 44, 115, 61, 121]

theorem failed_leftBehind_describedList :
    LeftBehind describedList (describedList.insertTail ⟨some [98], []⟩) (.optsSet (some [98]) [116] [120]) ∧
      LeftBehind (describedList.insertTail ⟨some [98], []⟩) (describedList.insertTail ⟨some [98], [⟨[115], [120]⟩]⟩)
        (.doParse 0 halfAccepted none) := by
  have hset : step describedList (.optsSet (some [98]) [116] [120]) =
      .ok (describedList.insertTail ⟨some [98], []⟩, some (.invalidParameter [116])) := rfl
  have hparsed : parsed (describedList.insertTail ⟨some [98], []⟩) ⟨some [98], []⟩ halfAccepted none =
      (⟨some [98], [⟨[115], [120]⟩]⟩, some (.invalidValue [115] [121])) := by
    rw [parsed_next (by decide) (rfl : nextOption none halfAccepted = some ([115], [120], [44, 115, 61, 121]))]
    change parsed _ ⟨some [98], [⟨[115], [120]⟩]⟩ [115, 61, 121] none = _
    rw [parsed_next (by decide) (rfl : nextOption none [115, 61, 121] = some ([115], [121], []))]
    rfl
  have hparse : step (describedList.insertTail ⟨some [98], []⟩) (.doParse 0 halfAccepted none) =
      .ok (describedList.insertTail ⟨some [98], [⟨[115], [120]⟩]⟩, some (.invalidValue [115] [121])) := by
    change Except.ok (_, _) = _
    rw [hparsed]
    rfl
  exact ⟨failed_leftBehind hset, failed_leftBehind hparse⟩

end Step

section Runs

variable {list t : QemuOptsList} {desc : List QemuOptDesc} {head : List QemuOpts}

/-- The ids of the members that have one. -/
def ids (head : List QemuOpts) : List Text := (head.map QemuOpts.id).reduceOption

/-- Each id is an identifier and belongs to one member, and each option is accepted. -/
structure Registered (desc : List QemuOptDesc) (head : List QemuOpts) : Prop where
  wellformed : ∀ id ∈ ids head, idWellformed id = true
  nodup : (ids head).Nodup
  accepted : ∀ opts ∈ head, ∀ opt ∈ opts.head, Accepts desc opt.name opt.str

theorem mem_ids {id : Text} : id ∈ ids head ↔ ∃ opts ∈ head, opts.id = some id := by
  rw [ids, List.reduceOption_mem_iff, List.mem_map]

theorem ids_append (head : List QemuOpts) (opts : QemuOpts) : ids (head ++ [opts]) = ids head ++ opts.id.toList := by
  rw [ids, List.map_append, List.reduceOption_append]
  cases h : opts.id with
  | none => simp [ids, h]
  | some id => simp [ids, h]

theorem ids_cons (opts : QemuOpts) (head : List QemuOpts) : ids (opts :: head) = opts.id.toList ++ ids head := by
  rw [ids, List.map_cons]
  cases opts.id with
  | none => exact List.reduceOption_cons_of_none _
  | some id => exact List.reduceOption_cons_of_some id _

theorem ids_set {i : Nat} {opts opts' : QemuOpts} (hi : head[i]? = some opts) (hid : opts'.id = opts.id) :
    ids (head.set i opts') = ids head := by
  have hmap : (head.set i opts').map QemuOpts.id = head.map QemuOpts.id := by
    obtain ⟨hlt, rfl⟩ := List.getElem?_eq_some_iff.mp hi
    rw [List.map_set, hid, ← List.getElem_map QemuOpts.id, List.set_getElem_self]
    rwa [List.length_map]
  rw [ids, hmap, ids]

theorem Registered.sublist (h : Registered desc head) {head' : List QemuOpts} (hsub : head'.Sublist head) :
    Registered desc head' := by
  have hids : (ids head').Sublist (ids head) := (hsub.map QemuOpts.id).filterMap id
  exact ⟨fun i hi ↦ h.wellformed i (hids.subset hi), h.nodup.sublist hids,
    fun opts hopts ↦ h.accepted opts (hsub.subset hopts)⟩

theorem Extends.accepted {opts opts' : QemuOpts} (h : Extends desc opts opts')
    (ha : ∀ opt ∈ opts.head, Accepts desc opt.name opt.str) : ∀ opt ∈ opts'.head, Accepts desc opt.name opt.str := by
  obtain ⟨added, rfl, hadded⟩ := h
  intro opt hopt
  rcases List.mem_append.mp hopt with hopt | hopt
  · exact ha opt hopt
  · exact hadded opt hopt

theorem Registered.insert (h : Registered list.desc list.head) {id : Option Text} {opts : QemuOpts}
    (hfresh : Fresh list id) (hextends : Extends list.desc ⟨id, []⟩ opts) :
    Registered list.desc (list.head ++ [opts]) := by
  have hid : opts.id = id := hextends.id_eq
  refine ⟨fun i hi ↦ ?_, ?_, fun opts' hopts' ↦ ?_⟩
  · rw [ids_append, List.mem_append, Option.mem_toList, hid] at hi
    rcases hi with hi | hi
    · exact h.wellformed i hi
    · exact (hfresh i hi).1
  · rw [ids_append, List.nodup_append]
    refine ⟨h.nodup, ?_, ?_⟩
    · cases opts.id with
      | none => exact List.nodup_nil
      | some id => exact List.pairwise_singleton _ id
    · rintro i hi i' hi' rfl
      rw [Option.mem_toList, hid] at hi'
      obtain ⟨opts', hopts', hid'⟩ := mem_ids.mp hi
      have hnone := List.find?_eq_none.mp (hfresh i hi').2 opts' hopts'
      simp [hid'] at hnone
  · rcases List.mem_append.mp hopts' with hopts' | hopts'
    · exact h.accepted opts' hopts'
    · rw [List.mem_singleton.mp hopts']
      exact hextends.accepted fun opt hopt ↦ absurd hopt List.not_mem_nil

theorem Registered.extend (h : Registered desc head) {i : Nat} {opts opts' : QemuOpts} (hi : head[i]? = some opts)
    (hextends : Extends desc opts opts') : Registered desc (head.set i opts') := by
  have hids := ids_set hi hextends.id_eq
  refine ⟨hids ▸ h.wellformed, hids ▸ h.nodup, fun o ho ↦ ?_⟩
  rcases List.mem_or_eq_of_mem_set ho with ho | rfl
  · exact h.accepted o ho
  · exact hextends.accepted (h.accepted opts (List.mem_of_getElem? hi))

theorem Effect.registered {call : Call} {failure : Option Failure} (h : Effect list call t failure)
    (hr : Registered list.desc list.head) : Registered list.desc t.head := by
  cases h with
  | found | refused => exact hr
  | inserted hfresh hextends => exact hr.insert hfresh hextends
  | withoutOption _ hfresh => exact hr.insert hfresh (.refl list.desc _)
  | extended hi hextends => exact hr.extend hi hextends
  | cutOff _ hi hcut => exact hr.extend hi hcut.extends
  | deleted i => exact hr.sublist (List.eraseIdx_sublist _ i)
  | reset => exact hr.sublist (List.nil_sublist _)

theorem Effect.desc_eq {call : Call} {failure : Option Failure} (h : Effect list call t failure) :
    t.desc = list.desc := by
  cases h <;> rfl

theorem registered_nil (desc : List QemuOptDesc) : Registered desc [] :=
  ⟨fun _ hid ↦ absurd hid List.not_mem_nil, List.nodup_nil, fun _ hopts ↦ absurd hopts List.not_mem_nil⟩

/-- A member that has an id is the one that is found by it. -/
theorem find_of_nodup (h : (ids head).Nodup) {opts : QemuOpts} {id : Text} (hopts : opts ∈ head)
    (hid : opts.id = some id) : head.find? (·.id = some id) = some opts := by
  induction head with
  | nil => cases hopts
  | cons first head ih =>
    rw [ids_cons, List.nodup_append] at h
    obtain ⟨-, hnodup, hapart⟩ := h
    by_cases hfirst : first.id = some id
    · rw [List.find?_cons_of_pos (by simpa using hfirst)]
      rcases List.mem_cons.mp hopts with rfl | hopts
      · rfl
      · exact absurd rfl (hapart id (Option.mem_toList.mpr hfirst) id (mem_ids.mpr ⟨opts, hopts, hid⟩))
    · rw [List.find?_cons_of_neg (by simpa using hfirst)]
      rcases List.mem_cons.mp hopts with rfl | hopts
      · exact absurd hid hfirst
      · exact ih hnodup hopts

theorem qemuOptGet_eq_some {opts : QemuOpts} {name value : Text} (h : qemuOptGet opts name = some value) :
    ⟨name, value⟩ ∈ opts.head := by
  obtain ⟨opt, hfind, rfl⟩ := Option.map_eq_some_iff.mp h
  have hname := List.find?_some hfind
  have hmem := List.mem_reverse.mp (List.mem_of_find?_eq_some hfind)
  rw [decide_eq_true_eq] at hname
  rwa [← hname]

theorem run_keeps {calls : List Call} (h : Run step list calls t) (hr : Registered list.desc list.head) :
    t.desc = list.desc ∧ Registered list.desc t.head := by
  refine h.invariant (P := fun u ↦ u.desc = list.desc ∧ Registered list.desc u.head) ⟨rfl, hr⟩ ?_
  rintro u call v failure - ⟨hdesc, hu⟩ hstep
  have heffect := step_effect hstep
  refine ⟨heffect.desc_eq.trans hdesc, ?_⟩
  rw [← hdesc] at hu ⊢
  exact heffect.registered hu

/-- However a list that was empty has been used, a member that has an id is found by it, the id is an identifier, and
what is read from a member is accepted by the descriptions of the list. -/
theorem run_registered {calls : List Call} (hempty : list.head = []) (h : Run step list calls t) :
    ∀ opts ∈ t.head,
      (∀ id, opts.id = some id → idWellformed id = true ∧ qemuOptsFind t id = some opts) ∧
        ∀ name value, qemuOptGet opts name = some value → Accepts list.desc name value := by
  obtain ⟨-, hr⟩ := run_keeps h (hempty ▸ registered_nil list.desc)
  intro opts hopts
  refine ⟨fun id hid ↦ ⟨hr.wellformed id (mem_ids.mpr ⟨opts, hopts, hid⟩), find_of_nodup hr.nodup hopts hid⟩,
    fun name value hget ↦ ?_⟩
  exact hr.accepted opts hopts _ (qemuOptGet_eq_some hget)

theorem run_registered_describedList :
    qemuOptsFind (describedList.insertTail ⟨some [98], [⟨[115], [120]⟩]⟩) [98] = some ⟨some [98], [⟨[115], [120]⟩]⟩ ∧
      Accepts describedList.desc [115] [120] := by
  have hrun : Run step describedList
      [.create (some [97]) true, .optSet 0 [115] [121], .optsSet (some [98]) [115] [120], .del 0]
      (describedList.insertTail ⟨some [98], [⟨[115], [120]⟩]⟩) :=
    .cons rfl (.cons rfl (.cons rfl (.cons rfl (.nil _))))
  obtain ⟨hfind, haccepts⟩ := run_registered rfl hrun _ (List.mem_singleton_self _)
  exact ⟨(hfind [98] rfl).2, haccepts [115] [120] (by decide)⟩

end Runs

end IDeviceEmulator.Opts
