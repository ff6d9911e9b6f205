import Mathlib.Data.List.Basic
import Mathlib.Data.List.TakeWhile
import Mathlib.Tactic.Common

namespace IDeviceEmulator.Opts

/-- A C string, without the zero at its end. A pointer into it is the rest of the string. -/
abbrev Text := List UInt8

def comma : UInt8 := 44

def equals : UInt8 := 61

/-- `id` -/
def idName : Text := [105, 100]

/-- A character that is copied if there is room for it and the zero. -/
def copy (bufSize : Nat) (buf : Text) (c : UInt8) : Text := if buf.length + 1 < bufSize then buf ++ [c] else buf

def getOptName (bufSize : Nat) (delim : UInt8) (buf : Text) : Text → Text × Text
  | [] => (buf, [])
  | c :: p => if c = delim then (buf, c :: p) else getOptName bufSize delim (copy bufSize buf c) p

def getOptValue (bufSize : Nat) (buf : Text) : Text → Text × Text
  | [] => (buf, [])
  | [c] => if c = comma then (buf, [c]) else (copy bufSize buf c, [])
  | c :: c' :: p =>
    if c = comma then
      if c' ≠ comma then (buf, c :: c' :: p) else getOptValue bufSize (copy bufSize buf c') p
    else getOptValue bufSize (copy bufSize buf c) (c' :: p)

def strchr (p : Text) (c : UInt8) : Option Nat := p.findIdx? (· = c)

def strstr (p needle : Text) : Option Text :=
  if needle.isPrefixOf p then some p
  else
    match p with
    | [] => none
    | _ :: p => strstr p needle

/-- An option with what `qemu_opt_parse` accepts for its type. -/
structure QemuOptDesc where
  name : Text
  accepts : Text → Bool

structure QemuOpt where
  name : Text
  str : Text

structure QemuOpts where
  id : Option Text
  head : List QemuOpt

structure QemuOptsList where
  name : Text
  impliedOptName : Option Text
  desc : List QemuOptDesc
  head : List QemuOpts

inductive Failure
  | assertion
  | invalidParameter (name : Text)
  | invalidParameterValue (name expected : String)
  | duplicateId (id list : Text)
  | invalidValue (name value : Text)

def qemuOptSet (list : QemuOptsList) (opts : QemuOpts) (name value : Text) : Except Failure QemuOpts :=
  let set := { opts with head := opts.head ++ [⟨name, value⟩] }
  match list.desc.find? (·.name = name) with
  -- An empty list allows any option.
  | none => if list.desc = [] then .ok set else .error (.invalidParameter name)
  | some desc => if desc.accepts value then .ok set else .error (.invalidValue name value)

def qemuOptsFind (list : QemuOptsList) (id : Text) : Option QemuOpts := list.head.find? (·.id = some id)

def isalpha (c : UInt8) : Bool := 65 ≤ c ∧ c ≤ 90 ∨ 97 ≤ c ∧ c ≤ 122

def isalnum (c : UInt8) : Bool := isalpha c ∨ 48 ≤ c ∧ c ≤ 57

def idWellformed : Text → Bool
  | [] => false
  | c :: id => isalpha c && id.all fun c ↦ isalnum c || c == 45 || c == 46 || c == 95

def qemuOptsCreate (list : QemuOptsList) (id : Option Text) (failIfExists : Bool) : Except Failure QemuOpts :=
  match id with
  | none => .ok ⟨none, []⟩
  | some id =>
    if !idWellformed id then .error (.invalidParameterValue "id" "an identifier")
    else
      match qemuOptsFind list id with
      | some opts => if failIfExists then .error (.duplicateId id list.name) else .ok opts
      | none => .ok ⟨some id, []⟩

/-- The name and the value of the option at the beginning of a string that is not empty, and
the rest of the string. -/
def nextOption (firstname : Option Text) (p : Text) : Option (Text × Text × Text) :=
  let pe := strchr p equals
  let pc := strchr p comma
  if pe = none ∨ (∃ i ∈ pc, ∃ j ∈ pe, i < j) then
    match firstname with
    | some firstname =>
      let (value, p) := getOptValue 1024 [] p
      some (firstname.take 127, value, p)
    | none =>
      let (option, p) := getOptName 128 comma [] p
      -- `no` at the beginning, and the values `off` and `on`
      if option.take 2 = [110, 111] then some (option.drop 2, [111, 102, 102], p) else some (option, [111, 110], p)
  else
    match getOptName 128 equals [] p with
    | (_, []) => none
    | (option, _ :: p) =>
      let (value, p) := getOptValue 1024 [] p
      some (option, value, p)

theorem length_getOptName_le (bufSize : Nat) (delim : UInt8) (buf p : Text) :
    (getOptName bufSize delim buf p).2.length ≤ p.length := by
  induction p generalizing buf with
  | nil => exact Nat.le_refl _
  | cons c p ih =>
    rw [getOptName]
    split
    · exact Nat.le_refl _
    · exact (ih _).trans (Nat.le_succ _)

theorem length_getOptValue_le (bufSize : Nat) (buf p : Text) : (getOptValue bufSize buf p).2.length ≤ p.length := by
  induction buf, p using getOptValue.induct bufSize with
  | case1 buf => exact Nat.le_refl _
  | case2 buf => exact Nat.le_refl _
  | case3 buf c hc =>
    rw [getOptValue, if_neg hc]
    exact Nat.zero_le _
  | case4 buf c' p hc' =>
    rw [getOptValue, if_pos rfl, if_pos hc']
  | case5 buf c' p hc' ih =>
    rw [getOptValue, if_pos rfl, if_neg hc']
    exact ih.trans (Nat.le_add_right _ 2)
  | case6 buf c c' p hc ih =>
    rw [getOptValue, if_neg hc]
    exact ih.trans (Nat.le_succ _)

theorem length_nextOption_le {firstname : Option Text} {p option value rest : Text}
    (h : nextOption firstname p = some (option, value, rest)) : rest.length ≤ p.length := by
  unfold nextOption at h
  dsimp only at h
  split at h
  · split at h
    · cases h
      exact length_getOptValue_le _ _ _
    · split at h
      · cases h
        exact length_getOptName_le _ _ _ _
      · cases h
        exact length_getOptName_le _ _ _ _
  · split at h
    · cases h
    · next name c p' hname =>
      cases h
      have hle := length_getOptName_le 128 equals [] p
      rw [hname] at hle
      exact (length_getOptValue_le _ _ _).trans ((Nat.le_succ _).trans hle)

/-- An option is stored, unless it is the id. -/
def QemuOpts.store (list : QemuOptsList) (opts : QemuOpts) (option value : Text) : Except Failure QemuOpts :=
  if option ≠ idName then qemuOptSet list opts option value else .ok opts

def qemuOptsDoParse (list : QemuOptsList) (opts : QemuOpts) (p : Text) (firstname : Option Text) :
    Except Failure QemuOpts :=
  if p = [] then .ok opts
  else
    match _ : nextOption firstname p with
    | none => .ok opts
    | some (option, value, rest) =>
      match opts.store list option value with
      | .error failure => .error failure
      | .ok opts =>
        match _ : rest with
        | [] => .ok opts
        -- Only the first option has an implied name.
        | c :: rest => if c = comma then qemuOptsDoParse list opts rest none else .ok opts
termination_by p.length
decreasing_by
  subst_vars
  have hle := length_nextOption_le ‹_›
  exact hle

/-- The value of the id in a parameter string. -/
def findId (params : Text) : Option Text :=
  if idName ++ [equals] = params.take 3 then some (getOptValue 1024 [] (params.drop 3)).1
  else (strstr params (comma :: idName ++ [equals])).map fun p ↦ (getOptValue 1024 [] (p.drop 4)).1

/-- The options that are made and the list with them. No function that is called here looks at
the new member before the list is returned. -/
def qemuOptsParse (list : QemuOptsList) (params : Text) (permitAbbrev : Bool) :
    Except Failure (QemuOptsList × QemuOpts) :=
  if permitAbbrev ∧ list.impliedOptName = none then .error .assertion
  else do
    let firstname := if permitAbbrev then list.impliedOptName else none
    let opts ← qemuOptsCreate list (findId params) true
    let opts ← qemuOptsDoParse list opts params firstname
    return ({ list with head := list.head ++ [opts] }, opts)

end IDeviceEmulator.Opts
