import IDeviceEmulator.Library.Loop

namespace IDeviceEmulator.Json

open Loop

inductive TokenType
  | operator
  | integer
  | float
  | keyword
  | string
  | escape
  deriving DecidableEq, Repr

structure Token where
  type : TokenType
  token : List UInt8
  deriving DecidableEq, Repr

inductive State
  | inDqUcode3
  | inDqUcode2
  | inDqUcode1
  | inDqUcode0
  | inDqStringEscape
  | inDqString
  | inSqUcode3
  | inSqUcode2
  | inSqUcode1
  | inSqUcode0
  | inSqStringEscape
  | inSqString
  | inZero
  | inDigits
  | inDigit
  | inExpE
  | inMantissa
  | inMantissaDigits
  | inNonzeroNumber
  | inNegNonzeroNumber
  | inKeyword
  | inEscape
  | inEscapeL
  | inEscapeLl
  | inEscapeI
  | inEscapeI6
  | inEscapeI64
  | inWhitespace
  | inStart
  deriving DecidableEq, Repr

/-- A cell of the lexer's table. -/
inductive Cell
  | error
  | state (s : State)
  | token (type : TokenType)
  | skip
  deriving DecidableEq, Repr

/-- `[first ... last] = cell` in the initialiser of a row. -/
structure Range where
  first : UInt8
  last : UInt8
  cell : Cell

def range (first last : Char) (cell : Cell) : Range := ⟨first.toUInt8, last.toUInt8, cell⟩

def single (c : Char) (cell : Cell) : Range := range c c cell

def terminal (cell : Cell) : Range := ⟨0, 0x7F, cell⟩

def hexDigits (next : State) : List Range :=
  [range '0' '9' (.state next), range 'a' 'f' (.state next), range 'A' 'F' (.state next)]

def whitespace (next : State) : List Range :=
  [single ' ' (.state next), single '\t' (.state next), single '\r' (.state next), single '\n' (.state next)]

def row : State → List Range
  | .inDqUcode3 => hexDigits .inDqString
  | .inDqUcode2 => hexDigits .inDqUcode3
  | .inDqUcode1 => hexDigits .inDqUcode2
  | .inDqUcode0 => hexDigits .inDqUcode1
  | .inDqStringEscape =>
    [single 'b' (.state .inDqString), single 'f' (.state .inDqString), single 'n' (.state .inDqString),
      single 'r' (.state .inDqString), single 't' (.state .inDqString), single '/' (.state .inDqString),
      single '\\' (.state .inDqString), single '\'' (.state .inDqString), single '\"' (.state .inDqString),
      single 'u' (.state .inDqUcode0)]
  | .inDqString =>
    [⟨1, 0xFF, .state .inDqString⟩, single '\\' (.state .inDqStringEscape), single '\"' (.token .string)]
  | .inSqUcode3 => hexDigits .inSqString
  | .inSqUcode2 => hexDigits .inSqUcode3
  | .inSqUcode1 => hexDigits .inSqUcode2
  | .inSqUcode0 => hexDigits .inSqUcode1
  -- Two of the escapes go on in a string with double quotes.
  | .inSqStringEscape =>
    [single 'b' (.state .inSqString), single 'f' (.state .inSqString), single 'n' (.state .inSqString),
      single 'r' (.state .inSqString), single 't' (.state .inSqString), single '/' (.state .inDqString),
      single '\\' (.state .inDqString), single '\'' (.state .inSqString), single '\"' (.state .inSqString),
      single 'u' (.state .inSqUcode0)]
  | .inSqString =>
    [⟨1, 0xFF, .state .inSqString⟩, single '\\' (.state .inSqStringEscape), single '\'' (.token .string)]
  | .inZero => [terminal (.token .integer), range '0' '9' .error, single '.' (.state .inMantissa)]
  | .inDigits => [terminal (.token .float), range '0' '9' (.state .inDigits)]
  | .inDigit => [range '0' '9' (.state .inDigits)]
  | .inExpE =>
    [single '-' (.state .inDigit), single '+' (.state .inDigit), range '0' '9' (.state .inDigits)]
  | .inMantissaDigits =>
    [terminal (.token .float), range '0' '9' (.state .inMantissaDigits), single 'e' (.state .inExpE),
      single 'E' (.state .inExpE)]
  | .inMantissa => [range '0' '9' (.state .inMantissaDigits)]
  | .inNonzeroNumber =>
    [terminal (.token .integer), range '0' '9' (.state .inNonzeroNumber), single 'e' (.state .inExpE),
      single 'E' (.state .inExpE), single '.' (.state .inMantissa)]
  | .inNegNonzeroNumber => [single '0' (.state .inZero), range '1' '9' (.state .inNonzeroNumber)]
  | .inKeyword => [terminal (.token .keyword), range 'a' 'z' (.state .inKeyword)]
  | .inWhitespace => terminal .skip :: whitespace .inWhitespace
  | .inEscapeLl => [single 'd' (.token .escape)]
  | .inEscapeL => [single 'd' (.token .escape), single 'l' (.state .inEscapeLl)]
  | .inEscapeI64 => [single 'd' (.token .escape)]
  | .inEscapeI6 => [single '4' (.state .inEscapeI64)]
  | .inEscapeI => [single '6' (.state .inEscapeI6)]
  | .inEscape =>
    [single 'd' (.token .escape), single 'i' (.token .escape), single 'p' (.token .escape),
      single 's' (.token .escape), single 'f' (.token .escape), single 'l' (.state .inEscapeL),
      single 'I' (.state .inEscapeI)]
  | .inStart =>
    [single '\"' (.state .inDqString), single '\'' (.state .inSqString), single '0' (.state .inZero),
      range '1' '9' (.state .inNonzeroNumber), single '-' (.state .inNegNonzeroNumber),
      single '\x7b' (.token .operator), single '\x7d' (.token .operator), single '[' (.token .operator),
      single ']' (.token .operator), single ',' (.token .operator), single ':' (.token .operator),
      range 'a' 'z' (.state .inKeyword), single '%' (.state .inEscape)] ++ whitespace .inWhitespace

-- A later initialiser of a cell replaces an earlier one.
def jsonLexer (s : State) (ch : UInt8) : Cell :=
  match (row s).reverse.find? fun r ↦ r.first ≤ ch ∧ ch ≤ r.last with
  | some r => r.cell
  | none => .error

def terminalNeededLookahead (s : State) (next : Cell) : Bool := jsonLexer s 0 = next

structure JSONLexer where
  state : State
  token : List UInt8
  deriving DecidableEq, Repr

def jsonLexerInit : JSONLexer := ⟨.inStart, []⟩

/-- What feeding the lexer leads to: the lexer that is left, the tokens emitted on the way,
and whether a character was refused. -/
structure Fed where
  lexer : JSONLexer
  tokens : List Token
  failed : Bool
  deriving DecidableEq, Repr

-- One turn of the loop over a character, with the tokens that it has emitted so far.
def turn (ch : UInt8) (x : JSONLexer × List Token) : (JSONLexer × List Token) ⊕ Fed :=
  let next := jsonLexer x.1.state ch
  let consumed := !terminalNeededLookahead x.1.state next
  let token := if consumed then x.1.token ++ [ch] else x.1.token
  let goOn (lexer : JSONLexer) (tokens : List Token) : (JSONLexer × List Token) ⊕ Fed :=
    if consumed then .inr ⟨lexer, tokens, false⟩ else .inl (lexer, tokens)
  match next with
  | .token type => goOn ⟨.inStart, []⟩ (x.2 ++ [⟨type, token⟩])
  | .skip => goOn ⟨.inStart, []⟩ x.2
  | .error => .inr ⟨⟨x.1.state, token⟩, x.2, true⟩
  | .state s => goOn ⟨s, token⟩ x.2

theorem jsonLexer_zero (s t : State) : jsonLexer s 0 ≠ .state t := by
  intro h
  cases s <;> exact absurd h.symm (nofun)

-- A character that is looked at again is looked at from the start, where it is consumed or refused.
theorem turn_cases (ch : UInt8) (lexer : JSONLexer) (tokens : List Token) :
    (∃ fed, turn ch (lexer, tokens) = .inr fed) ∨
      lexer.state ≠ .inStart ∧ ∃ tokens', turn ch (lexer, tokens) = .inl (jsonLexerInit, tokens') := by
  by_cases hc : jsonLexer lexer.state ch = jsonLexer lexer.state 0
  · cases hnext : jsonLexer lexer.state 0 with
    | error =>
      left
      simp [turn, terminalNeededLookahead, hc, hnext]
    | state s => exact absurd hnext (jsonLexer_zero lexer.state s)
    | token type =>
      right
      refine ⟨?_, tokens ++ [⟨type, lexer.token⟩], ?_⟩
      · intro hs
        rw [hs] at hnext
        cases hnext
      · simp [turn, terminalNeededLookahead, hc, hnext, jsonLexerInit]
    | skip =>
      right
      refine ⟨?_, tokens, ?_⟩
      · intro hs
        rw [hs] at hnext
        cases hnext
      · simp [turn, terminalNeededLookahead, hc, hnext, jsonLexerInit]
  · left
    have hconsumed : terminalNeededLookahead lexer.state (jsonLexer lexer.state ch) = false :=
      decide_eq_false (Ne.symm hc)
    cases hnext : jsonLexer lexer.state ch <;> simp [turn, hnext ▸ hconsumed, hnext]

theorem run_turn_isSome (ch : UInt8) (lexer : JSONLexer) : (run (turn ch) 2 (lexer, [])).isSome := by
  rcases turn_cases ch lexer [] with ⟨fed, h⟩ | ⟨-, tokens, h⟩
  · rw [run_inr h]
    rfl
  · rw [run_inl h]
    rcases turn_cases ch jsonLexerInit tokens with ⟨fed, h'⟩ | ⟨hne, -⟩
    · rw [run_inr h']
      rfl
    · exact absurd rfl hne

def jsonLexerFeedChar (lexer : JSONLexer) (ch : UInt8) : Fed :=
  (run (turn ch) 2 (lexer, [])).get (run_turn_isSome ch lexer)

def jsonLexerFeed (lexer : JSONLexer) : List UInt8 → Fed
  | [] => ⟨lexer, [], false⟩
  | ch :: buffer =>
    let fed := jsonLexerFeedChar lexer ch
    if fed.failed then fed
    else
      let rest := jsonLexerFeed fed.lexer buffer
      ⟨rest.lexer, fed.tokens ++ rest.tokens, rest.failed⟩

def jsonLexerFlush (lexer : JSONLexer) : Fed :=
  if lexer.state = .inStart then ⟨lexer, [], false⟩ else jsonLexerFeedChar lexer 0

end IDeviceEmulator.Json
