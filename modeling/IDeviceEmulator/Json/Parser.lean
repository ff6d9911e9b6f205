import IDeviceEmulator.Library.Backtrack
import IDeviceEmulator.Json.Lexer
import IDeviceEmulator.Qobject.Object

namespace IDeviceEmulator.Json

open Backtrack Qobject
open Qobject.Qdict (Key)

inductive Fault
  -- A token is inspected that is not there.
  | missingToken
  -- The key of a pair is put in a bucket that is never found.
  | endless
  -- The bound on the depth of the model is reached.
  | outOfFuel
  deriving DecidableEq, Repr

def ascii (s : String) : List UInt8 := s.toList.map Char.toUInt8

section Strings

def wcharToUtf8 (wchar : UInt16) : List UInt8 :=
  if wchar ≤ 0x007F then [wchar.toUInt8 &&& 0x7F]
  else if wchar ≤ 0x07FF then
    [((wchar >>> 6).toUInt8 &&& 0x1F) ||| 0xC0, (wchar.toUInt8 &&& 0x3F) ||| 0x80]
  else
    [((wchar >>> 12).toUInt8 &&& 0x0F) ||| 0xE0, ((wchar >>> 6).toUInt8 &&& 0x3F) ||| 0x80,
      (wchar.toUInt8 &&& 0x3F) ||| 0x80]

def isDigit (ch : UInt8) : Bool := '0'.toUInt8 ≤ ch ∧ ch ≤ '9'.toUInt8

def isxdigit (ch : UInt8) : Bool :=
  isDigit ch ∨ 'a'.toUInt8 ≤ ch ∧ ch ≤ 'f'.toUInt8 ∨ 'A'.toUInt8 ≤ ch ∧ ch ≤ 'F'.toUInt8

-- For a hexadecimal digit.
def hex2decimal (ch : UInt8) : UInt16 :=
  if isDigit ch then (ch - '0'.toUInt8).toUInt16
  else if 'a'.toUInt8 ≤ ch ∧ ch ≤ 'f'.toUInt8 then 10 + (ch - 'a'.toUInt8).toUInt16
  else 10 + (ch - 'A'.toUInt8).toUInt16

/-- The character of four hexadecimal digits. -/
def unicodeChar : Nat → UInt16 → List UInt8 → Option UInt16
  | _, wchar, [] => some wchar
  | shift, wchar, ch :: rest =>
    if isxdigit ch then unicodeChar (shift - 4) (wchar ||| (hex2decimal ch <<< UInt16.ofNat shift)) rest
    else none

def escaped (ch : UInt8) : Option UInt8 :=
  if ch = '\"'.toUInt8 then some '\"'.toUInt8
  else if ch = '\''.toUInt8 then some '\''.toUInt8
  else if ch = '\\'.toUInt8 then some '\\'.toUInt8
  else if ch = '/'.toUInt8 then some '/'.toUInt8
  else if ch = 'b'.toUInt8 then some 8
  else if ch = 'f'.toUInt8 then some 12
  else if ch = 'n'.toUInt8 then some 10
  else if ch = 'r'.toUInt8 then some 13
  else if ch = 't'.toUInt8 then some 9
  else none

-- The loop over the characters behind the quote, with the string that it has made so far.
def unescape (quote : UInt8) : List UInt8 → List UInt8 → Option (List UInt8)
  | str, [] => some str
  | str, ch :: ptr =>
    if ch = quote then some str
    else if ch = '\\'.toUInt8 then
      match ptr with
      | [] => none
      | ch :: ptr =>
        match escaped ch with
        | some c => unescape quote (str ++ [c]) ptr
        | none =>
          if ch = 'u'.toUInt8 then
            match ptr with
            | c₀ :: c₁ :: c₂ :: c₃ :: ptr =>
              match unicodeChar 12 0 [c₀, c₁, c₂, c₃] with
              | some wchar => unescape quote (str ++ (cString (wcharToUtf8 wchar)).val) ptr
              | none => none
            | _ => none
          else none
    else unescape quote (str ++ [ch]) ptr

-- The lexer emits a string from its quote on, so there is a first character.
def qstringFromEscapedStr (token : List UInt8) : Option (List UInt8) :=
  match token with
  | [] => none
  | ch :: ptr => unescape (if ch = '\"'.toUInt8 then '\"'.toUInt8 else '\''.toUInt8) [] ptr

def isspace (ch : UInt8) : Bool := ch = 32 ∨ 9 ≤ ch ∧ ch ≤ 13

/-- The number of the digits at the start of a text. -/
def digitsValue (text : List UInt8) : Nat :=
  (text.takeWhile isDigit).foldl (fun n ch ↦ 10 * n + (ch.toNat - 48)) 0

-- `strtoll` with base 10 stops at the limits of its type.
def strtoll (text : List UInt8) : Int64 :=
  match text.dropWhile isspace with
  | [] => 0
  | ch :: rest =>
    if ch = '-'.toUInt8 then Int64.ofInt (-min (digitsValue rest) (2 ^ 63 : Nat))
    else if ch = '+'.toUInt8 then Int64.ofInt (min (digitsValue rest) (2 ^ 63 - 1 : Nat))
    else Int64.ofInt (min (digitsValue (ch :: rest)) (2 ^ 63 - 1 : Nat))

end Strings

abbrev Parser := Search Fault (List Token)

def qlistPop : Parser (Option Token) := fun tokens ↦ pure (tokens.head?, tokens.tail)

def qlistPeek : Parser (Option Token) := fun tokens ↦ pure (tokens.head?, tokens)

def tokenGetType : Option Token → Parser TokenType
  | some token => pure token.type
  | none => .fault .missingToken

def tokenGetValue : Option Token → Parser (List UInt8)
  | some token => pure (cString token.token).val
  | none => .fault .missingToken

def tokenIsOperator (token : Option Token) (op : Char) : Parser Bool := do
  let type ← tokenGetType token
  if type = .operator then
    let val ← tokenGetValue token
    return val = [op.toUInt8]
  else return false

def tokenIsKeyword (token : Option Token) (value : String) : Parser Bool := do
  let type ← tokenGetType token
  if type = .keyword then
    let val ← tokenGetValue token
    return val = ascii value
  else return false

variable {δ : Type}

def put (dict : List (Key × QObject δ)) (key : Key) (value : QObject δ) : Parser (List (Key × QObject δ)) :=
  match qdictPutObj dict key value with
  | .ok dict => pure dict
  | .error _ => .fault .endless

section Rules

-- How a value inside is parsed, and a bound on the turns of the loops.
variable (parseValue : Parser (QObject δ)) (fuel : Nat)

def parsePair (dict : List (Key × QObject δ)) : Parser (List (Key × QObject δ)) := do
  match ← parseValue with
  | .qstring key =>
    let token ← qlistPop
    if ← tokenIsOperator token ':' then
      let value ← parseValue
      put dict (cString key) value
    else failure
  | _ => failure

def parsePairs (dict : List (Key × QObject δ)) (token : Option Token) : Nat → Parser (List (Key × QObject δ))
  | 0 => .fault .outOfFuel
  | fuel + 1 => do
    if ← tokenIsOperator token '\x7d' then return dict
    else if ← tokenIsOperator token ',' then
      let dict ← parsePair parseValue dict
      let token ← qlistPop
      parsePairs dict token fuel
    else failure

def parseObject : Parser (QObject δ) := do
  let token ← qlistPop
  if ← tokenIsOperator token '\x7b' then
    let peek ← qlistPeek
    if ← tokenIsOperator peek '\x7d' then
      let _ ← qlistPop
      return .qdict []
    else
      let dict ← parsePair parseValue []
      let token ← qlistPop
      let dict ← parsePairs parseValue dict token fuel
      return .qdict dict
  else failure

def parseItems (list : List (QObject δ)) (token : Option Token) : Nat → Parser (List (QObject δ))
  | 0 => .fault .outOfFuel
  | fuel + 1 => do
    if ← tokenIsOperator token ']' then return list
    else if ← tokenIsOperator token ',' then
      let obj ← parseValue
      let token ← qlistPop
      parseItems (list ++ [obj]) token fuel
    else failure

def parseArray : Parser (QObject δ) := do
  let token ← qlistPop
  if ← tokenIsOperator token '[' then
    let peek ← qlistPeek
    if ← tokenIsOperator peek ']' then
      let _ ← qlistPop
      return .qlist []
    else
      let obj ← parseValue
      let token ← qlistPop
      let list ← parseItems parseValue [obj] token fuel
      return .qlist list
  else failure

end Rules

def parseKeyword : Parser (QObject δ) := do
  let token ← qlistPop
  let type ← tokenGetType token
  if type = .keyword then
    if ← tokenIsKeyword token "true" then return .qbool true
    else if ← tokenIsKeyword token "false" then return .qbool false
    else failure
  else failure

-- There is no list of arguments.
def parseEscape : Parser (QObject δ) := failure

def parseLiteral (strtod : List UInt8 → δ) : Parser (QObject δ) := do
  let token ← qlistPop
  match ← tokenGetType token with
  | .string =>
    let val ← tokenGetValue token
    match qstringFromEscapedStr val with
    | some str => return .qstring str
    | none => failure
  | .integer =>
    let val ← tokenGetValue token
    return .qint (strtoll val)
  | .float =>
    let val ← tokenGetValue token
    return .qfloat (strtod val)
  | _ => failure

def parseValue (strtod : List UInt8 → δ) : Nat → Parser (QObject δ)
  | 0 => .fault .outOfFuel
  | fuel + 1 =>
    parseObject (parseValue strtod fuel) fuel <|> parseArray (parseValue strtod fuel) fuel <|>
      parseEscape <|> parseKeyword <|> parseLiteral strtod

/-- The value, or nothing where the source returns NULL. -/
def jsonParserParse (strtod : List UInt8 → δ) (tokens : List Token) : Except Fault (Option (QObject δ)) :=
  ((parseValue strtod (tokens.length + 1)).result tokens).map fun r ↦ r.map Prod.fst

end IDeviceEmulator.Json
