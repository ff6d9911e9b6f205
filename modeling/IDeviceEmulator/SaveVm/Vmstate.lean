import IDeviceEmulator.Library.Bytes

namespace IDeviceEmulator.SaveVm.Vmstate

open Bytes

def einval : Int := 22

def enoent : Int := 2

def qemuVmSubsection : Byte := 5

/-- The bytes of a machine, and where its pointers lead. No field describes a pointer itself. -/
structure Device where
  bytes : Int → Byte
  pointers : Int → Int

/-- The flags that the two interpreters test. `VMS_STRUCT` is a constructor of the fields. -/
structure Flags where
  pointer : Bool
  array : Bool
  arrayOfPointer : Bool
  varrayInt32 : Bool
  varrayUint32 : Bool
  varrayUint16 : Bool
  varrayUint8 : Bool
  vbuffer : Bool
  multiply : Bool

/-- `size` is the size of the field as an `int`. -/
structure VMStateField where
  offset : Int
  size : Int
  start : Int
  num : Int
  numOffset : Int
  sizeOffset : Int
  flags : Flags
  versionId : Int
  fieldExists : Option (Device → Int → Int → Bool)

/-- A codec works on the bytes of an element: `put` on what they hold, `get` on what they held
and on the input, of which it leaves a rest. -/
structure VMStateInfo where
  get : Int → List Byte → List Byte → Int × List Byte × List Byte
  put : Int → List Byte → List Byte

structure Versions where
  versionId : Int
  minimumVersionId : Int
  minimumVersionIdOld : Int

-- The code asserts that a subsection has no subsections of its own.
mutual
inductive VMStateDescription
  | mk (versions : Versions) (fields : VMStateFields) (subsections : VMStateSubsections)

inductive VMStateFields
  | nil
  | leaf (field : VMStateField) (info : VMStateInfo) (rest : VMStateFields)
  | struct (field : VMStateField) (vmsd : VMStateDescription) (rest : VMStateFields)

inductive VMStateSubsections
  | nil
  | cons (needed : Device → Int → Bool) (name : List Byte) (versions : Versions) (fields : VMStateFields)
      (rest : VMStateSubsections)
end

def VMStateDescription.versionId : VMStateDescription → Int
  | .mk versions _ _ => versions.versionId

/-- The input that is left, and the bytes of the machine that is loaded. -/
structure Load where
  input : List Byte
  bytes : Int → Byte

inductive Trap
  | loadStateOld
  | indeterminate
  | turns

def readBytes (bytes : Int → Byte) (addr : Int) (n : Nat) : List Byte :=
  (List.range n).map fun (k : Nat) ↦ bytes (addr + k)

def writeBytes (bytes : Int → Byte) (addr : Int) (new : List Byte) : Int → Byte :=
  fun b ↦ if addr ≤ b ∧ b < addr + new.length then new.getD (b - addr).toNat 0 else bytes b

def readLe (bytes : Int → Byte) (addr : Int) : Nat → Nat
  | 0 => 0
  | n + 1 => (bytes addr).toNat + 256 * readLe bytes (addr + 1) n

def readInt32 (bytes : Int → Byte) (addr : Int) : Int := Int.bmod (readLe bytes addr 4) (2 ^ 32)

namespace VMStateField

variable (f : VMStateField)

def elemSize (bytes : Int → Byte) (o : Int) : Int :=
  if f.flags.vbuffer then
    let size := readInt32 bytes (o + f.sizeOffset)
    if f.flags.multiply then Int.bmod (size * f.size) (2 ^ 32) else size
  else f.size

def loadCount (bytes : Int → Byte) (o : Int) : Int :=
  if f.flags.array then f.num
  else if f.flags.varrayInt32 then readInt32 bytes (o + f.numOffset)
  else if f.flags.varrayUint32 then readInt32 bytes (o + f.numOffset)
  else if f.flags.varrayUint16 then readLe bytes (o + f.numOffset) 2
  else if f.flags.varrayUint8 then readLe bytes (o + f.numOffset) 1
  else 1

/-- Without the branch for `VMS_VARRAY_UINT32`. -/
def saveCount (bytes : Int → Byte) (o : Int) : Int :=
  if f.flags.array then f.num
  else if f.flags.varrayInt32 then readInt32 bytes (o + f.numOffset)
  else if f.flags.varrayUint16 then readLe bytes (o + f.numOffset) 2
  else if f.flags.varrayUint8 then readLe bytes (o + f.numOffset) 1
  else 1

def baseAddr (pointers : Int → Int) (o : Int) : Int :=
  if f.flags.pointer then pointers (o + f.offset) + f.start else o + f.offset

def elemAddr (pointers : Int → Int) (o size : Int) (i : Nat) : Int :=
  let addr := f.baseAddr pointers o + size * i
  if f.flags.arrayOfPointer then pointers addr else addr

def presentOnLoad (d : Device) (o versionId : Int) : Bool :=
  match f.fieldExists with
  | some exists_ => exists_ d o versionId
  | none => f.versionId ≤ versionId

def presentOnSave (d : Device) (o versionId : Int) : Bool :=
  match f.fieldExists with
  | some exists_ => exists_ d o versionId
  | none => true

/-- The elements of a field that are stored, from number `i` on. -/
def saveElems (put : Int → List Byte) (pointers : Int → Int) (o size : Int) (i n : Nat) : List Byte :=
  (List.range' i n).flatMap fun i ↦ put (f.elemAddr pointers o size i)

def loadElems (get : Int → Load → Except Trap (Int × Load)) (pointers : Int → Int) (o size : Int) :
    Nat → Nat → Load → Except Trap (Int × Load)
  | _, 0, s => .ok (0, s)
  | i, n + 1, s => do
    let (ret, s) ← get (f.elemAddr pointers o size i) s
    if ret < 0 then .ok (ret, s) else loadElems get pointers o size (i + 1) n s

end VMStateField

def VMStateInfo.save (info : VMStateInfo) (bytes : Int → Byte) (size addr : Int) : List Byte :=
  info.put size (readBytes bytes addr size.toNat)

def VMStateInfo.load (info : VMStateInfo) (size addr : Int) (s : Load) : Int × Load :=
  let (ret, new, input) := info.get size (readBytes s.bytes addr size.toNat) s.input
  (ret, ⟨input, writeBytes s.bytes addr new⟩)

def putHeader (name : List Byte) (versionId : Int) : List Byte :=
  let len := BitVec.ofNat 8 name.length
  [qemuVmSubsection, len] ++ name.take len.toNat ++ putWord 4 (BitVec.ofInt 32 versionId)

section Save

variable (d : Device)

mutual
def saveState : VMStateDescription → Int → List Byte
  | .mk versions fields subsections, o => saveFields versions.versionId fields o ++ saveSubsections subsections o

def saveFields (versionId : Int) : VMStateFields → Int → List Byte
  | .nil, _ => []
  | .leaf field info rest, o =>
    (if field.presentOnSave d o versionId then
      let size := field.elemSize d.bytes o
      field.saveElems (info.save d.bytes size) d.pointers o size 0 (field.saveCount d.bytes o).toNat
    else []) ++ saveFields versionId rest o
  | .struct field vmsd rest, o =>
    (if field.presentOnSave d o versionId then
      field.saveElems (saveState vmsd) d.pointers o (field.elemSize d.bytes o) 0 (field.saveCount d.bytes o).toNat
    else []) ++ saveFields versionId rest o

def saveSubsections : VMStateSubsections → Int → List Byte
  | .nil, _ => []
  | .cons needed name versions fields rest, o =>
    (if needed d o then putHeader name versions.versionId ++ saveFields versions.versionId fields o else []) ++
      saveSubsections rest o
end

end Save

/-- The version of the input against those of the description. Versions below the minimum are
for `load_state_old`. -/
def checkVersions (versions : Versions) (versionId : Int) (load : Except Trap (Int × Load)) (s : Load) :
    Except Trap (Int × Load) :=
  if versionId > versions.versionId then .ok (-einval, s)
  else if versionId < versions.minimumVersionIdOld then .ok (-einval, s)
  else if versionId < versions.minimumVersionId then .error .loadStateOld
  else load

/-- The loop of `vmstate_subsection_load`. Each turn takes a byte from the input. -/
def subsectionTurns (named : List Byte → Int → Load → Except Trap (Int × Load)) :
    Nat → Load → Except Trap (Int × Load)
  | 0, _ => .error .turns
  | n + 1, s =>
    if s.input.headD 0 = qemuVmSubsection then do
      let (len, input) := getByte s.input.tail
      if input.length < len.toNat then .error .indeterminate
      else
        let idstr := input.take len.toNat
        let (word, input) := getBe 4 (input.drop len.toNat)
        let (ret, s) ← named (idstr.takeWhile (· ≠ 0)) (word % 256 : Nat) { s with input }
        if ret ≠ 0 then .ok (ret, s) else subsectionTurns named n s
    else .ok (0, s)

def subsectionLoad (named : List Byte → Int → Load → Except Trap (Int × Load)) (subsections : VMStateSubsections)
    (s : Load) : Except Trap (Int × Load) :=
  match subsections with
  | .nil => .ok (0, s)
  | .cons .. => subsectionTurns named (s.input.length + 1) s

section Load

variable (pointers : Int → Int)

mutual
def loadState : VMStateDescription → Int → Int → Load → Except Trap (Int × Load)
  | .mk versions fields subsections, o, versionId, s =>
    checkVersions versions versionId (do
      let (ret, s) ← loadFields fields o versionId s
      if ret < 0 then .ok (ret, s) else subsectionLoad (loadNamed subsections o) subsections s) s

def loadFields : VMStateFields → Int → Int → Load → Except Trap (Int × Load)
  | .nil, _, _, s => .ok (0, s)
  | .leaf field info rest, o, versionId, s => do
    let (ret, s) ← if field.presentOnLoad ⟨s.bytes, pointers⟩ o versionId then
        let size := field.elemSize s.bytes o
        field.loadElems (fun addr s ↦ .ok (info.load size addr s)) pointers o size 0 (field.loadCount s.bytes o).toNat s
      else .ok (0, s)
    if ret < 0 then .ok (ret, s) else loadFields rest o versionId s
  | .struct field vmsd rest, o, versionId, s => do
    let (ret, s) ← if field.presentOnLoad ⟨s.bytes, pointers⟩ o versionId then
        field.loadElems (fun addr ↦ loadState vmsd addr vmsd.versionId) pointers o (field.elemSize s.bytes o) 0
          (field.loadCount s.bytes o).toNat s
      else .ok (0, s)
    if ret < 0 then .ok (ret, s) else loadFields rest o versionId s

/-- The first subsection of that name, loaded. -/
def loadNamed : VMStateSubsections → Int → List Byte → Int → Load → Except Trap (Int × Load)
  | .nil, _, _, _, s => .ok (-enoent, s)
  | .cons _ name versions fields rest, o, idstr, versionId, s =>
    if idstr = name then checkVersions versions versionId (loadFields fields o versionId s) s
    else loadNamed rest o idstr versionId s
end

end Load

section Places

variable (src : Device) (pointers : Int → Int)

/-- The places of the elements of a field in the machine that is saved and in the one that is
loaded. -/
def VMStateField.elemPlaces (f : VMStateField) (places : Int → Int → List (Int × Int)) (pointers pointers' : Int → Int)
    (o o' size : Int) (i n : Nat) : List (Int × Int) :=
  (List.range' i n).flatMap fun i ↦ places (f.elemAddr pointers o size i) (f.elemAddr pointers' o' size i)

def bytePlaces (size : Int) (addr addr' : Int) : List (Int × Int) :=
  (List.range size.toNat).map fun (k : Nat) ↦ (addr + k, addr' + k)

-- Each byte that is described, with the byte that it is restored to.
mutual
def statePlaces : VMStateDescription → Int → Int → List (Int × Int)
  | .mk versions fields subsections, o, o' =>
    fieldsPlaces versions.versionId fields o o' ++ subsectionsPlaces subsections o o'

def fieldsPlaces (versionId : Int) : VMStateFields → Int → Int → List (Int × Int)
  | .nil, _, _ => []
  | .leaf field _ rest, o, o' =>
    (if field.presentOnSave src o versionId then
      field.elemPlaces (bytePlaces (field.elemSize src.bytes o)) src.pointers pointers o o' (field.elemSize src.bytes o)
        0 (field.loadCount src.bytes o).toNat
    else []) ++ fieldsPlaces versionId rest o o'
  | .struct field vmsd rest, o, o' =>
    (if field.presentOnSave src o versionId then
      field.elemPlaces (statePlaces vmsd) src.pointers pointers o o' (field.elemSize src.bytes o) 0
        (field.loadCount src.bytes o).toNat
    else []) ++ fieldsPlaces versionId rest o o'

def subsectionsPlaces : VMStateSubsections → Int → Int → List (Int × Int)
  | .nil, _, _ => []
  | .cons needed _ versions fields rest, o, o' =>
    (if needed src o then fieldsPlaces versions.versionId fields o o' else []) ++ subsectionsPlaces rest o o'
end

end Places

/-- Loading what was saved, and what follows it, restores every byte that is described and
takes what was saved. -/
def RoundTrips (vmsd : VMStateDescription) (src dst : Device) (o o' : Int) (rest : List Byte) : Prop :=
  ∃ bytes, loadState dst.pointers vmsd o' vmsd.versionId ⟨saveState src vmsd o ++ rest, dst.bytes⟩ =
      .ok (0, ⟨rest, bytes⟩) ∧
    ∀ p ∈ statePlaces src dst.pointers vmsd o o', bytes p.2 = src.bytes p.1

/-- The codec reads back the bytes of an element that it wrote, and no others. -/
def VMStateInfo.Undoes (info : VMStateInfo) (size : Int) : Prop :=
  ∀ bytes old rest, bytes.length = size.toNat → old.length = size.toNat →
    ∃ ret, 0 ≤ ret ∧ info.get size old (info.put size bytes ++ rest) = (ret, bytes, rest)

namespace VMStateField

variable (f : VMStateField)

def countWidth : Option Nat :=
  if f.flags.array then none
  else if f.flags.varrayInt32 then some 4
  else if f.flags.varrayUint32 then some 4
  else if f.flags.varrayUint16 then some 2
  else if f.flags.varrayUint8 then some 1
  else none

/-- One element, which is in the structure itself. -/
def Single : Prop := f.flags = ⟨false, false, false, false, false, false, false, false, false⟩

/-- The fields that hold the size and the count of this one are listed before it. -/
def Listed (earlier : List VMStateField) : Prop :=
  (f.flags.vbuffer → ∃ g ∈ earlier, g.Single ∧ g.offset = f.sizeOffset ∧ g.size = 4) ∧
    ∀ w ∈ f.countWidth, ∃ g ∈ earlier, g.Single ∧ g.offset = f.numOffset ∧ g.size = w

end VMStateField

def VMStateFields.Within (versionId : Int) : VMStateFields → Prop
  | .nil => True
  | .leaf field _ rest => field.versionId ≤ versionId ∧ rest.Within versionId
  | .struct field _ rest => field.versionId ≤ versionId ∧ rest.Within versionId

/-- The fields that are not structures, with those before them. -/
def VMStateFields.leaves : VMStateFields → List VMStateField → List VMStateField
  | .nil, earlier => earlier
  | .leaf field _ rest, earlier => rest.leaves (field :: earlier)
  | .struct _ _ rest, earlier => rest.leaves earlier

def Versions.Admits (versions : Versions) (versionId : Int) : Prop :=
  versionId ≤ versions.versionId ∧ versions.minimumVersionIdOld ≤ versionId ∧ versions.minimumVersionId ≤ versionId

instance (versions : Versions) (versionId : Int) : Decidable (versions.Admits versionId) :=
  inferInstanceAs (Decidable (_ ∧ _ ∧ _))

mutual
def WellFormed : VMStateDescription → Prop
  | .mk versions fields subsections =>
    versions.Admits versions.versionId ∧ fields.Within versions.versionId ∧ FieldsWellFormed [] fields ∧
      SubsectionsWellFormed (fields.leaves []) subsections

def FieldsWellFormed : List VMStateField → VMStateFields → Prop
  | _, .nil => True
  | earlier, .leaf field info rest =>
    field.fieldExists = none ∧ field.Listed earlier ∧
      (∀ size, field.flags.vbuffer = true ∨ size = field.size → info.Undoes size) ∧
      FieldsWellFormed (field :: earlier) rest
  | earlier, .struct field vmsd rest =>
    field.fieldExists = none ∧ field.Listed earlier ∧ WellFormed vmsd ∧ FieldsWellFormed earlier rest

def SubsectionsWellFormed (earlier : List VMStateField) : VMStateSubsections → Prop
  | .nil => True
  | .cons _ name versions fields rest =>
    0 ∉ name ∧ versions.Admits versions.versionId ∧ fields.Within versions.versionId ∧
      FieldsWellFormed earlier fields ∧ SubsectionsWellFormed earlier rest
end

section Delimited

variable (src : Device)

-- The number of elements that is stored is the number that is loaded. What follows the state
-- of a description with subsections does not begin like a subsection. A subsection that is
-- needed is the first of its name, which has at most 255 bytes, and all its fields are loaded
-- at its version modulo 256.
mutual
def Delimited : VMStateDescription → Int → List Byte → Prop
  | .mk versions fields subsections, o, next =>
    FieldsDelimited versions.versionId fields o (saveSubsections src subsections o ++ next) ∧
      SubsectionsDelimited [] subsections o next ∧
      (subsections = .nil ∨ next.headD 0 ≠ qemuVmSubsection)

def FieldsDelimited (versionId : Int) : VMStateFields → Int → List Byte → Prop
  | .nil, _, _ => True
  | .leaf field _ rest, o, next =>
    field.saveCount src.bytes o = field.loadCount src.bytes o ∧ FieldsDelimited versionId rest o next
  | .struct field vmsd rest, o, next =>
    field.saveCount src.bytes o = field.loadCount src.bytes o ∧
      (∀ i n, i + n + 1 = (field.loadCount src.bytes o).toNat →
        Delimited vmsd (field.elemAddr src.pointers o (field.elemSize src.bytes o) i)
          (field.saveElems (saveState src vmsd) src.pointers o (field.elemSize src.bytes o) (i + 1) n ++
            (saveFields src versionId rest o ++ next))) ∧
      FieldsDelimited versionId rest o next

def SubsectionsDelimited : List (List Byte) → VMStateSubsections → Int → List Byte → Prop
  | _, .nil, _, _ => True
  | names, .cons needed name versions fields rest, o, next =>
    (needed src o → name.length ≤ 255 ∧ name ∉ names ∧ versions.Admits (versions.versionId % 256) ∧
      fields.Within (versions.versionId % 256) ∧
      FieldsDelimited versions.versionId fields o (saveSubsections src rest o ++ next)) ∧
    SubsectionsDelimited (name :: names) rest o next
end

end Delimited

end IDeviceEmulator.SaveVm.Vmstate
