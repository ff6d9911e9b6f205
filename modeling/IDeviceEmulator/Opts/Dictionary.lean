import IDeviceEmulator.Library.Text
import IDeviceEmulator.Qobject.Object
import IDeviceEmulator.Opts.Registry

namespace IDeviceEmulator.Opts

open Qobject Qobject.Qdict

/-- The key of an id. -/
def idKey : Key := ⟨idName, by decide⟩

/-- `on` or `off` -/
def onOff (value : Bool) : Text := if value then [111, 110] else [111, 102, 102]

section Conversion

variable {δ : Type} (printed : δ → Text)

/-- The value of an object as the text of an option. `printed` is the conversion `%.17g`. -/
def valueText : QObject δ → Option Text
  | .qstring string => some (cString string).val
  | .qint value => some ((Text.decimal value.toInt).map UInt8.ofBitVec)
  | .qfloat value => some (printed value)
  | .qbool value => some (onOff value)
  | .qlist _ => none
  | .qdict _ => none

/-- What `qemu_opt_set` returns is not looked at. -/
def qemuOptsFromQdict1 (list : QemuOptsList) (opts : QemuOpts) (key : Key) (obj : QObject δ) : QemuOpts :=
  if key.val = idName then opts
  else
    match valueText printed obj with
    | none => opts
    | some value => (optSet list opts key.val value).1

def qdictGetTryStr (qdict : QDict (QObject δ)) (key : Key) : Except Fault (Option Text) :=
  (qdict.qdictGet key).map fun obj ↦
    match obj with
    | some (.qstring string) => some (cString string).val
    | _ => none

def qemuOptsFromQdict (list : QemuOptsList) (qdict : QDict (QObject δ)) :
    Except Fault (Except Failure (QemuOptsList × QemuOpts)) :=
  (qdictGetTryStr qdict idKey).map fun id ↦
    (qemuOptsCreate list id true).map fun opts ↦
      let opts := qdict.qdictIter (qemuOptsFromQdict1 printed list) opts
      (list.insertTail opts, opts)

end Conversion

section Reading

variable {head : List QemuOpt} {name value : Text}

end Reading

section Texts

theorem cString_of_notMem {text : Text} (h : 0 ∉ text) : (cString text).val = text := by
  change text.takeWhile (· ≠ 0) = text
  rw [List.takeWhile_eq_self_iff]
  intro c hc
  exact decide_eq_true fun hz ↦ h (hz ▸ hc)

end Texts

section Objects

variable {δ : Type} {printed : δ → Text} {list t : QemuOptsList} {opts opts' : QemuOpts}

theorem qemuOptsFromQdict1_extends (key : Key) (obj : QObject δ) :
    Extends list.desc opts (qemuOptsFromQdict1 printed list opts key obj) := by
  unfold qemuOptsFromQdict1
  split_ifs with hid
  · exact .refl list.desc opts
  · cases valueText printed obj with
    | none => exact .refl list.desc opts
    | some value => exact optSet_extends list opts key.val value

theorem foldl_extends (entries : List (Entry (QObject δ))) (opts : QemuOpts) :
    Extends list.desc opts
      (entries.foldl (fun opts entry ↦ qemuOptsFromQdict1 printed list opts entry.1 entry.2) opts) := by
  induction entries generalizing opts with
  | nil => exact .refl list.desc opts
  | cons entry entries ih => exact (qemuOptsFromQdict1_extends entry.1 entry.2).trans (ih _)

/-- Whatever objects a dictionary holds, the list that gets a member from it is as good as before. -/
theorem qemuOptsFromQdict_registered {qdict : QDict (QObject δ)} (hr : Registered list.desc list.head)
    (h : qemuOptsFromQdict printed list qdict = .ok (.ok (t, opts))) :
    t = list.insertTail opts ∧ Registered list.desc t.head := by
  obtain ⟨id, -, hfrom⟩ := Machine.ok_of_map h
  obtain ⟨new, hcreate, heq⟩ := Machine.ok_of_map hfrom.symm
  cases heq
  rcases qemuOptsCreate_cases hcreate with ⟨hfalse, -⟩ | ⟨hfresh, rfl⟩
  · cases hfalse
  · refine ⟨rfl, hr.insert hfresh ?_⟩
    rw [QDict.qdictIter_eq]
    exact foldl_extends qdict.entries _

/-- A list that describes `s` and `n`. -/
def twoDescriptions : QemuOptsList :=
  ⟨[], none, [⟨[115], fun value ↦ value == [120] || value == [121]⟩, ⟨[110], fun _ ↦ true⟩], []⟩

/-- An id, a string, a number, a value that the list refuses, and an object that is no option. -/
def mixed : Except Fault (QDict (QObject Unit)) :=
  [(idKey, .qstring [98]), (cString [115], .qstring [120]), (cString [110], .qint 7), (cString [116], .qbool true),
    (cString [108], .qlist [])].foldlM (fun qdict entry ↦ qdict.qdictPutObj entry.1 entry.2) (qdictNew (QObject Unit))

/-- The id and the options of a new member. -/
def newMember : Except Fault (Except Failure (QemuOptsList × QemuOpts)) → Option (Option Text × List (Text × Text))
  | .ok (.ok (_, opts)) => some (opts.id, opts.head.map fun opt ↦ (opt.name, opt.str))
  | _ => none

theorem qemuOptsFromQdict_registered_mixed : ∃ d t opts, mixed = .ok d ∧
    newMember (qemuOptsFromQdict (fun _ ↦ []) twoDescriptions d) =
      some (some [98], [([110], [55]), ([115], [120])]) ∧
    t = twoDescriptions.insertTail opts ∧ Registered twoDescriptions.desc t.head := by
  have hmember : newMember (mixed.bind (qemuOptsFromQdict (fun _ ↦ []) twoDescriptions)) =
      some (some [98], [([110], [55]), ([115], [120])]) := by decide +kernel
  cases hmixed : mixed with
  | error fault =>
    rw [hmixed] at hmember
    cases hmember
  | ok d =>
    rw [hmixed] at hmember
    change newMember (qemuOptsFromQdict (fun _ ↦ []) twoDescriptions d) = _ at hmember
    rcases hfrom : qemuOptsFromQdict (fun _ ↦ []) twoDescriptions d with fault | failure | ⟨t, opts⟩
    · rw [hfrom] at hmember
      cases hmember
    · rw [hfrom] at hmember
      cases hmember
    · rw [hfrom] at hmember
      exact ⟨d, t, opts, rfl, hfrom ▸ hmember,
        qemuOptsFromQdict_registered (registered_nil twoDescriptions.desc) hfrom⟩

end Objects

section RoundTrip

variable {δ : Type} {printed : δ → Text} {list : QemuOptsList} {opts : QemuOpts}

/-- An option that the C strings of a list can hold. -/
structure Plain (list : QemuOptsList) (opt : QemuOpt) : Prop where
  zero_notMem_name : 0 ∉ opt.name
  zero_notMem_str : 0 ∉ opt.str
  name_ne : opt.name ≠ idName
  length_lt : opt.name.length < 2 ^ 32
  accepts : Accepts list.desc opt.name opt.str

end RoundTrip

end IDeviceEmulator.Opts
