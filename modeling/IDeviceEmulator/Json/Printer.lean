import IDeviceEmulator.Library.Text
import IDeviceEmulator.Json.Parser
import IDeviceEmulator.Json.Streamer

namespace IDeviceEmulator.Json

open Qobject
open Qobject.Qdict (Key)

variable {δ : Type}

section FromJson

def parseJson (strtod : List UInt8 → δ) (result : Option (QObject δ)) :
    List (List Token) → Except Fault (Option (QObject δ))
  | [] => .ok result
  | tokens :: rest => do
    let result ← jsonParserParse strtod tokens
    parseJson strtod result rest

def qobjectFromJson (strtod : List UInt8 → δ) (string : List UInt8) : Except Fault (Option (QObject δ)) :=
  let fed := jsonMessageParserFeed jsonMessageParserInit (cString string).val
  let flushed := jsonMessageParserFlush fed.parser
  parseJson strtod none (fed.emitted ++ flushed.emitted)

end FromJson

-- `length` is an `int` until it is stored in a `size_t`: an allocation of a negative number of
-- bytes aborts.
def qstringFromSubstr (str : List UInt8) (first last : Int32) : Option (List UInt8) :=
  let length := last - first + 1
  if length < 0 then none else some ((str.drop first.toInt.toNat).take length.toInt.toNat)

def qstringFromStr (str : Key) : Option (List UInt8) :=
  qstringFromSubstr str.val 0 (Int32.ofInt (str.val.length - 1))

section Strings

def hexDigit (n : UInt16) : UInt8 := if n < 10 then n.toUInt8 + 48 else n.toUInt8 + 55

/-- What the format `\u%04X` prints. -/
def unicodeEscape (wchar : UInt16) : List UInt8 :=
  [92, 117, hexDigit (wchar >>> 12 &&& 15), hexDigit (wchar >>> 8 &&& 15), hexDigit (wchar >>> 4 &&& 15),
    hexDigit (wchar &&& 15)]

-- The characters are signed: one from 0x80 on prints as more digits than the buffer holds.
def escapeByte (ch : UInt8) : List UInt8 :=
  if ch = '\"'.toUInt8 then ascii "\\\""
  else if ch = '\\'.toUInt8 then ascii "\\\\"
  else if ch = 8 then ascii "\\b"
  else if ch = 12 then ascii "\\f"
  else if ch = 10 then ascii "\\n"
  else if ch = 13 then ascii "\\r"
  else if ch = 9 then ascii "\\t"
  else if 0x80 ≤ ch then unicodeEscape 0xFFFF
  else if ch ≤ 0x1F then unicodeEscape ch.toUInt16
  else [ch]

/-- What is printed for the character at the pointer, and by how much more the pointer moves. -/
def escapeAt (ch : UInt8) (ptr : List UInt8) : List UInt8 × Nat :=
  let ch₁ := ptr.headD 0
  let ch₂ := ptr.tail.headD 0
  if ch &&& 0xE0 = 0xE0 ∧ ch₁ &&& 0x80 ≠ 0 ∧ ch₂ &&& 0x80 ≠ 0 then
    (unicodeEscape ((ch &&& 0x0F).toUInt16 <<< 12 ||| (ch₁ &&& 0x3F).toUInt16 <<< 6 ||| (ch₂ &&& 0x3F).toUInt16), 2)
  else if ch &&& 0xE0 = 0xC0 ∧ ch₁ &&& 0x80 ≠ 0 then
    (unicodeEscape ((ch &&& 0x1F).toUInt16 <<< 6 ||| (ch₁ &&& 0x3F).toUInt16), 1)
  else (escapeByte ch, 0)

def escapeFrom : Nat → List UInt8 → List UInt8
  | _, [] => []
  | 0, ch :: ptr => (escapeAt ch ptr).1 ++ escapeFrom (escapeAt ch ptr).2 ptr
  | skip + 1, _ :: ptr => escapeFrom skip ptr

def toJsonString (string : List UInt8) : List UInt8 := 34 :: escapeFrom 0 (cString string).val ++ [34]

def toJsonInt (value : Int64) : List UInt8 := (Text.decimal value.toInt).map UInt8.ofBitVec

def toJsonBool (value : Bool) : List UInt8 := ascii (if value then "true" else "false")

-- `text` is what the format `%f` prints.
def toJsonFloat (text : List UInt8) : List UInt8 :=
  let text := (text.reverse.dropWhile (· = '0'.toUInt8)).reverse
  if text.getLast? = some '.'.toUInt8 then text.dropLast else text

end Strings

def line (indent : Int32) : List UInt8 := 10 :: List.replicate (4 * indent.toInt.toNat) 32

def separator (pretty : Bool) (indent count : Int32) : List UInt8 :=
  (if count = 0 then [] else ascii ", ") ++ if pretty then line indent else []

mutual

-- There is no text where the source aborts. `indent` is that of the container around the object.
def toJson (format : δ → List UInt8) (pretty : Bool) (indent : Int32) : QObject δ → Option (List UInt8)
  | .qint value => some (toJsonInt value)
  | .qstring string => some (toJsonString string)
  | .qbool value => some (toJsonBool value)
  | .qfloat value => some (toJsonFloat (format value))
  | .qdict entries => do
    let body ← toJsonDict format pretty (indent + 1) 0 entries
    some ([123] ++ body ++ (if pretty then line indent else []) ++ [125])
  | .qlist head => do
    let body ← toJsonList format pretty (indent + 1) 0 head
    some ([91] ++ body ++ (if pretty then line indent else []) ++ [93])

def toJsonDict (format : δ → List UInt8) (pretty : Bool) (indent count : Int32) :
    List (Key × QObject δ) → Option (List UInt8)
  | [] => some []
  | (key, obj) :: rest => do
    let qkey ← qstringFromStr key
    let value ← toJson format pretty indent obj
    let rest ← toJsonDict format pretty indent (count + 1) rest
    some (separator pretty indent count ++ toJsonString qkey ++ ascii ": " ++ value ++ rest)

def toJsonList (format : δ → List UInt8) (pretty : Bool) (indent count : Int32) :
    List (QObject δ) → Option (List UInt8)
  | [] => some []
  | obj :: rest => do
    let value ← toJson format pretty indent obj
    let rest ← toJsonList format pretty indent (count + 1) rest
    some (separator pretty indent count ++ value ++ rest)

end

def qobjectToJson (format : δ → List UInt8) (obj : QObject δ) : Option (List UInt8) := toJson format false 0 obj

def qobjectToJsonPretty (format : δ → List UInt8) (obj : QObject δ) : Option (List UInt8) := toJson format true 0 obj

end IDeviceEmulator.Json
