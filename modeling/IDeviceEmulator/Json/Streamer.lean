import Mathlib.Algebra.Group.Int.Defs
import IDeviceEmulator.Json.Lexer

namespace IDeviceEmulator.Json

structure JSONMessageParser where
  lexer : JSONLexer
  braceCount : Int32
  bracketCount : Int32
  tokens : List Token

def jsonMessageParserInit : JSONMessageParser := ⟨jsonLexerInit, 0, 0, []⟩

def count (opening closing : Char) (n : Int32) (token : Token) : Int32 :=
  if token.type = .operator then
    if token.token.head? = some opening.toUInt8 then n + 1
    else if token.token.head? = some closing.toUInt8 then n - 1
    else n
  else n

def countBrace : Int32 → Token → Int32 := count '\x7b' '\x7d'

def countBracket : Int32 → Token → Int32 := count '[' ']'

/-- The parser after a token, and the token lists that it has emitted. -/
def jsonMessageProcessToken (parser : JSONMessageParser) (token : Token) :
    JSONMessageParser × List (List Token) :=
  let braceCount := countBrace parser.braceCount token
  let bracketCount := countBracket parser.bracketCount token
  let tokens := parser.tokens ++ [token]
  if braceCount = 0 ∧ bracketCount = 0 then (⟨parser.lexer, braceCount, bracketCount, []⟩, [tokens])
  else (⟨parser.lexer, braceCount, bracketCount, tokens⟩, [])

def processTokens (parser : JSONMessageParser) : List Token → JSONMessageParser × List (List Token)
  | [] => (parser, [])
  | token :: rest =>
    let first := jsonMessageProcessToken parser token
    let last := processTokens first.1 rest
    (last.1, first.2 ++ last.2)

/-- What a call returns, with the token lists that are emitted meanwhile. -/
structure Returned where
  parser : JSONMessageParser
  emitted : List (List Token)
  failed : Bool

def JSONMessageParser.receive (parser : JSONMessageParser) (fed : Fed) : Returned :=
  let x := processTokens { parser with lexer := fed.lexer } fed.tokens
  ⟨x.1, x.2, fed.failed⟩

def jsonMessageParserFeed (parser : JSONMessageParser) (buffer : List UInt8) : Returned :=
  parser.receive (jsonLexerFeed parser.lexer buffer)

def jsonMessageParserFlush (parser : JSONMessageParser) : Returned :=
  parser.receive (jsonLexerFlush parser.lexer)

theorem ofInt_ne_zero {z : Int} (hlow : 0 < z) (hhigh : z < 2 ^ 32) : Int32.ofInt z ≠ 0 := by
  intro h
  have hz := congrArg Int32.toInt h
  rw [Int32.toInt_ofInt, Int32.toInt_zero, Int.bmod] at hz
  simp only [Int32.size] at hz
  omega

end IDeviceEmulator.Json
