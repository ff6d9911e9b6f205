import IDeviceEmulator.Json.Sizes

namespace IDeviceEmulator.Json

open Qobject
open Qobject.Qdict (Key)

variable {δ : Type}

section Emission

variable {b k : Int} {l m : List Token} {lexer : JSONLexer}

theorem flatten_processTokens (parser : JSONMessageParser) (l : List Token) :
    (processTokens parser l).2.flatten ++ (processTokens parser l).1.tokens = parser.tokens ++ l := by
  induction l generalizing parser with
  | nil => simp [processTokens]
  | cons t l ih =>
    have hrest := ih (jsonMessageProcessToken parser t).1
    rw [processTokens, List.flatten_append, List.append_assoc, hrest, ← List.append_assoc]
    have hfirst : (jsonMessageProcessToken parser t).2.flatten ++ (jsonMessageProcessToken parser t).1.tokens =
        parser.tokens ++ [t] := by
      unfold jsonMessageProcessToken
      dsimp only
      split_ifs <;> simp
    rw [hfirst, List.append_assoc]
    rfl

theorem emitted_ne_nil (parser : JSONMessageParser) (l : List Token) : ∀ L ∈ (processTokens parser l).2, L ≠ [] := by
  induction l generalizing parser with
  | nil => exact nofun
  | cons t l ih =>
    intro L hL
    rcases List.mem_append.mp hL with hL | hL
    · unfold jsonMessageProcessToken at hL
      dsimp only at hL
      split_ifs at hL
      · rw [List.mem_singleton.mp hL]
        exact List.append_ne_nil_of_right_ne_nil _ (List.cons_ne_nil t [])
      · cases hL
    · exact ih _ L hL

/-- After none of the tokens are both counters back at zero. -/
def Hushed (b k : Int) : List Token → Prop
  | [] => True
  | t :: l => ¬ (2 ^ 32 ∣ b + weight '\x7b' '\x7d' t ∧ 2 ^ 32 ∣ k + weight '[' ']' t) ∧
      Hushed (b + weight '\x7b' '\x7d' t) (k + weight '[' ']' t) l

theorem hushed_of_emitted {tokens : List Token}
    (h : (processTokens ⟨lexer, Int32.ofInt b, Int32.ofInt k, tokens⟩ l).2 = []) : Hushed b k l := by
  induction l generalizing b k tokens with
  | nil => trivial
  | cons t l ih =>
    obtain ⟨hfirst, hrest⟩ := List.append_eq_nil_iff.mp h
    have hbrace : countBrace (Int32.ofInt b) t = Int32.ofInt (b + weight '\x7b' '\x7d' t) := count_ofInt b t
    have hbracket : countBracket (Int32.ofInt k) t = Int32.ofInt (k + weight '[' ']' t) := count_ofInt k t
    simp only [jsonMessageProcessToken, hbrace, hbracket, ofInt_eq_zero_iff] at hfirst hrest
    split_ifs at hfirst hrest with hzero
    exact ⟨hzero, ih hrest⟩

theorem hushed_append : Hushed b k (l ++ m) ↔ Hushed b k l ∧ Hushed (b + braces l) (k + brackets l) m := by
  induction l generalizing b k with
  | nil => simp [Hushed, braces, brackets, nesting]
  | cons t l ih =>
    rw [List.cons_append, Hushed, Hushed, ih, braces, brackets, nesting_cons, nesting_cons, and_assoc]
    simp only [← Int.add_assoc]

theorem braces_append (l m : List Token) : braces (l ++ m) = braces l + braces m := by
  simp [braces, nesting]

theorem brackets_append (l m : List Token) : brackets (l ++ m) = brackets l + brackets m := by
  simp [brackets, nesting]

/-- As many containers are closed as are opened. -/
def Level (l : List Token) : Prop := braces l = 0 ∧ brackets l = 0

instance (l : List Token) : Decidable (Level l) := inferInstanceAs (Decidable (_ ∧ _))

theorem level_nil : Level [] := ⟨rfl, rfl⟩

theorem Level.append (h : Level l) (h' : Level m) : Level (l ++ m) := by
  rw [Level, braces_append, brackets_append, h.1, h.2, h'.1, h'.2]
  exact ⟨rfl, rfl⟩

theorem level_token {t : Token} (hbrace : weight '\x7b' '\x7d' t = 0) (hbracket : weight '[' ']' t = 0) :
    Level [t] := by
  simp [Level, braces, brackets, nesting, hbrace, hbracket]

theorem Level.hushed (h : Level l) : Hushed b k (l ++ m) ↔ Hushed b k l ∧ Hushed b k m := by
  rw [hushed_append, h.1, h.2, Int.add_zero, Int.add_zero]

section Loop

variable {α : Type} {tokens : α → List Token} {joined : Bool → List α → List Token}

theorem level_comma (first : Bool) : Level (comma first) := by
  cases first
  · exact level_token rfl rfl
  · exact level_nil

theorem level_joined (hnone : ∀ first, joined first [] = [])
    (hsome : ∀ first x l, joined first (x :: l) = comma first ++ tokens x ++ joined false l) {items : List α}
    (h : ∀ x ∈ items, Level (tokens x)) (first : Bool) : Level (joined first items) := by
  induction items generalizing first with
  | nil =>
    rw [hnone]
    exact level_nil
  | cons x items ih =>
    rw [hsome]
    have hrest := ih (fun y hy ↦ h y (List.mem_cons_of_mem x hy)) false
    exact ((level_comma first).append (h x List.mem_cons_self)).append hrest

theorem hushed_items
    (hsome : ∀ first x l, joined first (x :: l) = comma first ++ tokens x ++ joined false l) {items : List α}
    (h : ∀ x ∈ items, Level (tokens x)) {first : Bool} (hhushed : Hushed b k (joined first items)) :
    ∀ x ∈ items, Hushed b k (tokens x) := by
  induction items generalizing first with
  | nil => exact nofun
  | cons x items ih =>
    have hx := h x List.mem_cons_self
    rw [hsome, ((level_comma first).append hx).hushed, (level_comma first).hushed] at hhushed
    intro y hy
    rcases List.mem_cons.mp hy with rfl | hy
    · exact hhushed.1.2
    · exact ih (fun z hz ↦ h z (List.mem_cons_of_mem x hz)) hhushed.2 y hy

end Loop

theorem Level.enclose {s t : Token} (h : Level m) (hbrace : braces [s] + braces [t] = 0)
    (hbracket : brackets [s] + brackets [t] = 0) : Level (s :: m ++ [t]) := by
  have hsplit : s :: m ++ [t] = [s] ++ m ++ [t] := rfl
  rw [Level, hsplit, braces_append, braces_append, brackets_append, brackets_append, h.1, h.2]
  exact ⟨by omega, by omega⟩

theorem level_scalar {t : Token} (ht : t.type ≠ .operator) : Level [t] :=
  level_token (weight_of_ne ht _ _) (weight_of_ne ht _ _)

theorem Level.pair {x : Key × QObject δ} (h : Level (tokensOf x.2)) : Level (pairTokens x) := by
  have hkey : Level [stringToken x.1.val] := level_scalar nofun
  have hcolon : Level [operator 58] := level_token rfl rfl
  exact (hkey.append hcolon).append h

theorem level_tokensOf (o : QObject δ) : Level (tokensOf o) := by
  induction o using QObject.induct with
  | qint v => exact level_scalar nofun
  | qbool b => exact level_scalar nofun
  | qstring s => exact level_scalar nofun
  | qfloat x => exact level_nil
  | qlist l ih =>
    have hitems : Level (itemTokens true l) := level_joined (fun _ ↦ by rw [itemTokens]) itemTokens_cons ih true
    exact hitems.enclose rfl rfl
  | qdict e ih =>
    have hentries : Level (entryTokens true e) :=
      level_joined (fun _ ↦ by rw [entryTokens]) entryTokens_cons (fun x hx ↦ (ih x hx).pair) true
    exact hentries.enclose rfl rfl

theorem apart_cast {dicts lists : Nat} (h : ¬ ((2 ^ 32 : Int) ∣ dicts ∧ (2 ^ 32 : Int) ∣ lists)) :
    ¬ (2 ^ 32 ∣ dicts ∧ 2 ^ 32 ∣ lists) := by
  intro hdvd
  exact h ⟨Int.natCast_dvd_natCast.mpr hdvd.1, Int.natCast_dvd_natCast.mpr hdvd.2⟩

theorem apart_of_hushed_list {l : List (QObject δ)} {dicts lists : Nat}
    (h : Hushed dicts lists (operator 91 :: itemTokens true l))
    (hitems : ∀ x ∈ l, Hushed dicts (lists + 1 : Nat) (tokensOf x) → Apart dicts (lists + 1) x) :
    Apart dicts lists (.qlist l) := by
  have hbrace : (dicts : Int) + weight '\x7b' '\x7d' (operator 91) = dicts := Int.add_zero _
  have hbracket : (lists : Int) + weight '[' ']' (operator 91) = (lists + 1 : Nat) := rfl
  rw [Hushed, hbrace, hbracket] at h
  refine ⟨apart_cast h.1, apartItems_iff.mpr fun x hx ↦ hitems x hx ?_⟩
  exact hushed_items itemTokens_cons (fun y _ ↦ level_tokensOf y) h.2 x hx

theorem apart_of_hushed_dict {e : List (Key × QObject δ)} {dicts lists : Nat}
    (h : Hushed dicts lists (operator 123 :: entryTokens true e))
    (hitems : ∀ x ∈ e, Hushed (dicts + 1 : Nat) lists (tokensOf x.2) → Apart (dicts + 1) lists x.2) :
    Apart dicts lists (.qdict e) := by
  have hbrace : (dicts : Int) + weight '\x7b' '\x7d' (operator 123) = (dicts + 1 : Nat) := rfl
  have hbracket : (lists : Int) + weight '[' ']' (operator 123) = lists := Int.add_zero _
  rw [Hushed, hbrace, hbracket] at h
  refine ⟨apart_cast h.1, apartEntries_iff.mpr fun x hx ↦ hitems x hx ?_⟩
  have hpair := hushed_items entryTokens_cons (fun y _ ↦ (level_tokensOf y.2).pair) h.2 x hx
  have hkey : Level [stringToken x.1.val] := level_scalar nofun
  have hcolon : Level [operator 58] := level_token rfl rfl
  exact ((hkey.append hcolon).hushed.mp hpair).2

theorem apart_of_hushed {o : QObject δ} {dicts lists : Nat} (h : Hushed dicts lists (tokensOf o)) :
    Apart dicts lists o := by
  induction o using QObject.induct generalizing dicts lists with
  | qint v => trivial
  | qbool b => trivial
  | qstring s => trivial
  | qfloat x => trivial
  | qlist l ih => exact apart_of_hushed_list (hushed_append.mp h).1 fun x hx ↦ ih x hx
  | qdict e ih => exact apart_of_hushed_dict (hushed_append.mp h).1 fun x hx ↦ ih x hx

/-- The whole text of a tree comes out as one list only if it comes out with its last token. -/
theorem apart_of_emitted {o : QObject δ} {t : Token} (htokens : tokensOf o = l ++ [t])
    (h : (processTokens jsonMessageParserInit l).2 = []) : Apart 0 0 o := by
  have hhushed : Hushed 0 0 l := hushed_of_emitted h
  cases o with
  | qint v => trivial
  | qbool b => trivial
  | qstring s => trivial
  | qfloat x => trivial
  | qlist items =>
    obtain ⟨rfl, -⟩ := List.append_inj' htokens rfl
    exact apart_of_hushed_list hhushed fun x hx ↦ apart_of_hushed
  | qdict e =>
    obtain ⟨rfl, -⟩ := List.append_inj' htokens rfl
    exact apart_of_hushed_dict hhushed fun x hx ↦ apart_of_hushed

theorem length_of_emitted {L : List Token} (h : L ∈ (processTokens jsonMessageParserInit l).2) :
    L.length ≤ l.length := by
  have hflatten := congrArg List.length (flatten_processTokens jsonMessageParserInit l)
  rw [List.length_append] at hflatten
  change _ = l.length at hflatten
  have hle := (List.sublist_flatten_of_mem h).length_le
  omega

theorem emitted_of_last {t : Token} {L : List Token}
    (hlast : (processTokens jsonMessageParserInit (l ++ [t])).2.getLast? = some L) (hlength : l.length < L.length) :
    (processTokens jsonMessageParserInit l).2 = [] := by
  have hshorter := fun L ↦ length_of_emitted (l := l) (L := L)
  have hflatten := flatten_processTokens jsonMessageParserInit l
  have hne := emitted_ne_nil jsonMessageParserInit l
  rw [processTokens_append] at hlast
  generalize (processTokens jsonMessageParserInit l).1 = parser at hflatten hlast
  generalize (processTokens jsonMessageParserInit l).2 = emitted at hshorter hflatten hne hlast ⊢
  have hsize : emitted.flatten.length + parser.tokens.length = l.length := by
    rw [← List.length_append, hflatten]
    rfl
  dsimp only [processTokens, jsonMessageProcessToken] at hlast
  split_ifs at hlast
  · have hL : L = parser.tokens ++ [t] := by simpa using hlast.symm
    rw [hL, List.length_append, List.length_singleton] at hlength
    have hnil : emitted.flatten = [] := List.eq_nil_of_length_eq_zero (by omega)
    by_contra hsome
    obtain ⟨x, rest, rfl⟩ := List.exists_cons_of_ne_nil hsome
    exact hne x List.mem_cons_self (List.append_eq_nil_iff.mp hnil).1
  · have hmem : L ∈ emitted := List.mem_of_getLast? (by simpa using hlast)
    exact absurd (hshorter L hmem) (Nat.not_le.mpr hlength)

end Emission

section Lexing

variable {text text' : List UInt8} {n m : Nat} {closed : Bool} {tokens : List Token} {ch : UInt8}

/-- The number of tokens that are still in the lexer. -/
def held (x : JSONLexer) : Nat := (jsonLexerFlush x).tokens.length

theorem held_between {x : JSONLexer} (h : Between x) : held x = (pending x).length :=
  congrArg List.length (flush_between h)

/-- From between two tokens the text leads to at most so many tokens, wherever it stands. -/
def Bounded (text : List UInt8) (n : Nat) : Prop :=
  ∀ x, Between x → (jsonLexerFeed x text).tokens.length + held (jsonLexerFeed x text).lexer ≤ held x + n ∧
    ((jsonLexerFeed x text).failed = false → Between (jsonLexerFeed x text).lexer)

theorem Bounded.append (h : Bounded text n) (h' : Bounded text' m) : Bounded (text ++ text') (n + m) := by
  intro x hx
  obtain ⟨hle, hbetween⟩ := h x hx
  rw [jsonLexerFeed_append]
  split_ifs with hfailed
  · exact ⟨by omega, fun hok ↦ absurd hok (by simp [hfailed])⟩
  · obtain ⟨hle', hbetween'⟩ := h' _ (hbetween (Bool.not_eq_true _ ▸ hfailed))
    refine ⟨?_, hbetween'⟩
    dsimp only
    rw [List.length_append]
    omega

theorem bounded_of_lexes {x y : JSONLexer} (h : Lexes x text y tokens) (hy : Between y)
    (hle : tokens.length + (pending y).length ≤ held x + n) :
    (jsonLexerFeed x text).tokens.length + held (jsonLexerFeed x text).lexer ≤ held x + n ∧
      ((jsonLexerFeed x text).failed = false → Between (jsonLexerFeed x text).lexer) := by
  rw [h.feed]
  refine ⟨?_, fun _ ↦ hy⟩
  rwa [held_between hy]

theorem bounded_from (h : Piece closed text tokens) {x : JSONLexer} (hx : Between x)
    (hdelimited : pending x ≠ [] → Delimited text) :
    (jsonLexerFeed x text).tokens.length + held (jsonLexerFeed x text).lexer ≤ held x + tokens.length ∧
      ((jsonLexerFeed x text).failed = false → Between (jsonLexerFeed x text).lexer) := by
  obtain ⟨y, k, hlexes, hy, htokens, -⟩ := h x hx hdelimited
  refine bounded_of_lexes hlexes hy ?_
  rw [← List.length_append, htokens, List.length_append, held_between hx]

theorem bounded_of_piece (h : Piece closed text tokens) (hdelimited : Delimited text) :
    Bounded text tokens.length :=
  fun _ hx ↦ bounded_from h hx fun _ ↦ hdelimited

theorem bounded_nil : Bounded [] 0 := bounded_of_piece piece_nil nofun

-- In front of a token that has not ended the first character ends it, or is refused, or goes
-- on with it to the end of the text.
theorem bounded_of_first (h : Piece closed (ch :: text) tokens)
    (hcell : ∀ s type, jsonLexer s 0 = .token type → jsonLexer s ch = .token type ∨ jsonLexer s ch = .error ∨
      ∀ c ∈ ch :: text, jsonLexer s c = .state s) : Bounded (ch :: text) tokens.length := by
  intro x hx
  by_cases hpending : pending x = []
  · exact bounded_from h hx fun hne ↦ absurd hpending hne
  obtain ⟨s, token⟩ := x
  have hs : jsonLexer s 0 ≠ .error := by
    rcases hx with hx | hs
    · rw [hx] at hpending
      exact absurd pending_init hpending
    · exact hs
  rcases skip_or_token hs with hs' | ⟨type, hs'⟩
  · rw [hs'] at hpending
    exact absurd pending_whitespace hpending
  rcases hcell s type hs' with hnext | hnext | hnext
  · obtain ⟨hle, hbetween⟩ := bounded_from h (.inl rfl) fun hne ↦ absurd pending_init hne
    have hfeed : jsonLexerFeed ⟨s, token⟩ (ch :: text) = ⟨(jsonLexerFeed jsonLexerInit (ch :: text)).lexer,
        ⟨type, token⟩ :: (jsonLexerFeed jsonLexerInit (ch :: text)).tokens,
        (jsonLexerFeed jsonLexerInit (ch :: text)).failed⟩ := by
      rw [jsonLexerFeed, jsonLexerFeed, feedChar_lookahead hnext hs' token]
      dsimp only
      split_ifs <;> rfl
    have hinit : held jsonLexerInit = 0 := rfl
    rw [hfeed, held_between hx, pending_of_token hs']
    refine ⟨?_, hbetween⟩
    dsimp only
    rw [List.length_cons, List.length_singleton]
    omega
  · have hturn : turn ch (⟨s, token⟩, []) = .inr ⟨⟨s, token ++ [ch]⟩, [], true⟩ := by
      simp [turn, terminalNeededLookahead, hnext, hs']
    have hchar : jsonLexerFeedChar ⟨s, token⟩ ch = ⟨⟨s, token ++ [ch]⟩, [], true⟩ :=
      Option.get_of_eq_some _ (Loop.run_inr hturn)
    have hfeed : jsonLexerFeed ⟨s, token⟩ (ch :: text) = ⟨⟨s, token ++ [ch]⟩, [], true⟩ := by
      rw [jsonLexerFeed, hchar]
      rfl
    rw [hfeed, held_between hx, held_between (.inr hs), pending_of_token hs', pending_of_token hs']
    refine ⟨by simp, fun hfailed ↦ ?_⟩
    cases hfailed
  · refine bounded_of_lexes (lexes_loop hnext token) (.inr hs) ?_
    rw [held_between hx, pending_of_token hs', pending_of_token hs']
    simp

theorem jsonLexer_ends : ∀ ch ∈ ([34, 45, 91, 123] : List UInt8), ∀ s type, jsonLexer s 0 = .token type →
    jsonLexer s ch = .token type := by
  intro ch hch s
  have hall : ∀ ch ∈ ([34, 45, 91, 123] : List UInt8), jsonLexer s 0 = .error ∨ s = .inWhitespace ∨
      jsonLexer s ch = jsonLexer s 0 := by
    apply forall_mem_of_all
    cases s <;> decide
  intro type hs
  rcases hall ch hch with herror | hwhite | hsame
  · rw [herror] at hs
    cases hs
  · rw [hwhite] at hs
    cases hs
  · rw [hsame, hs]

theorem bounded_of_ends (h : Piece closed (ch :: text) tokens) (hch : ch ∈ ([34, 45, 91, 123] : List UInt8)) :
    Bounded (ch :: text) tokens.length :=
  bounded_of_first h fun s type hs ↦ .inl (jsonLexer_ends ch hch s type hs)

theorem jsonLexer_digit (hch : 48 ≤ ch ∧ ch ≤ 57) : jsonLexer .inZero ch = .error ∧
    jsonLexer .inNonzeroNumber ch = .state .inNonzeroNumber ∧ jsonLexer .inDigits ch = .state .inDigits ∧
    jsonLexer .inMantissaDigits ch = .state .inMantissaDigits ∧ jsonLexer .inKeyword ch = .token .keyword := by
  have hall : ∀ ch ∈ ([48, 49, 50, 51, 52, 53, 54, 55, 56, 57] : List UInt8), jsonLexer .inZero ch = .error ∧
      jsonLexer .inNonzeroNumber ch = .state .inNonzeroNumber ∧ jsonLexer .inDigits ch = .state .inDigits ∧
      jsonLexer .inMantissaDigits ch = .state .inMantissaDigits ∧ jsonLexer .inKeyword ch = .token .keyword :=
    forall_mem_of_all (by decide)
  apply hall
  simp only [List.mem_cons, List.not_mem_nil, or_false]
  grind

/-- The states in which a token that may go on has been read. -/
theorem state_of_token {s : State} {type : TokenType} (hs : jsonLexer s 0 = .token type) :
    s = .inZero ∧ type = .integer ∨ s = .inNonzeroNumber ∧ type = .integer ∨ s = .inDigits ∧ type = .float ∨
      s = .inMantissaDigits ∧ type = .float ∨ s = .inKeyword ∧ type = .keyword := by
  cases s <;> first | (cases hs; decide) | exact absurd hs.symm nofun

theorem bounded_digits (h : Piece closed (ch :: text) tokens) (hdigits : ∀ c ∈ ch :: text, 48 ≤ c ∧ c ≤ 57) :
    Bounded (ch :: text) tokens.length := by
  refine bounded_of_first h fun s type hs ↦ ?_
  obtain ⟨hzero, -, -, -, hkeyword⟩ := jsonLexer_digit (hdigits ch List.mem_cons_self)
  rcases state_of_token hs with ⟨rfl, rfl⟩ | ⟨rfl, rfl⟩ | ⟨rfl, rfl⟩ | ⟨rfl, rfl⟩ | ⟨rfl, rfl⟩
  · exact .inr (.inl hzero)
  · exact .inr (.inr fun c hc ↦ (jsonLexer_digit (hdigits c hc)).2.1)
  · exact .inr (.inr fun c hc ↦ (jsonLexer_digit (hdigits c hc)).2.2.1)
  · exact .inr (.inr fun c hc ↦ (jsonLexer_digit (hdigits c hc)).2.2.2.1)
  · exact .inl hkeyword

theorem bounded_toJsonInt (v : Int64) : Bounded (toJsonInt v) 1 := by
  have hpiece := piece_toJsonInt v
  rcases lt_or_ge v.toInt 0 with h | h
  · rw [toJsonInt_of_neg h] at hpiece ⊢
    exact bounded_of_ends hpiece (by decide)
  · rw [toJsonInt_of_nonneg h] at hpiece ⊢
    have hdigits : printed v.toInt.toNat ≠ [] := by simp [printed, Text.digits, Nat.toDigits_ne_nil]
    obtain ⟨ch, rest, heq⟩ := List.exists_cons_of_ne_nil hdigits
    have hmem : ∀ c ∈ ch :: rest, 48 ≤ c ∧ c ≤ 57 := fun c hc ↦ mem_printed (heq ▸ hc)
    rw [heq] at hpiece ⊢
    exact bounded_digits hpiece hmem

theorem bounded_toJsonBool (b : Bool) : Bounded (toJsonBool b) 1 := by
  have hpiece := piece_toJsonBool b
  have hletters : ∀ c ∈ toJsonBool b, 97 ≤ c ∧ c ≤ 122 := by
    cases b <;> exact forall_mem_of_all (by decide)
  have hfirst : ∃ ch rest, toJsonBool b = ch :: rest ∧ jsonLexer .inZero ch = .token .integer ∧
      jsonLexer .inNonzeroNumber ch = .token .integer ∧ jsonLexer .inDigits ch = .token .float ∧
      jsonLexer .inMantissaDigits ch = .token .float := by
    cases b <;> exact ⟨_, _, rfl, by decide⟩
  obtain ⟨ch, rest, heq, hzero, hnonzero, hdigits, hmantissa⟩ := hfirst
  rw [heq] at hpiece hletters ⊢
  refine bounded_of_first hpiece fun s type hs ↦ ?_
  rcases state_of_token hs with ⟨rfl, rfl⟩ | ⟨rfl, rfl⟩ | ⟨rfl, rfl⟩ | ⟨rfl, rfl⟩ | ⟨rfl, rfl⟩
  · exact .inl hzero
  · exact .inl hnonzero
  · exact .inl hdigits
  · exact .inl hmantissa
  · exact .inr (.inr fun c hc ↦ (jsonLexer_keyword c (hletters c hc).1 (hletters c hc).2).2)

theorem bounded_toJsonString {string : List UInt8} (h : Utf8 string) : Bounded (toJsonString string) 1 :=
  bounded_of_ends (piece_toJsonString h) (by decide)

theorem bounded_newline (pretty : Bool) (indent : Int32) : Bounded (if pretty then line indent else []) 0 := by
  cases pretty
  · exact bounded_nil
  · refine bounded_of_piece (prints_line indent).piece ?_
    intro ch hch
    cases hch
    rfl

theorem bounded_separator (pretty : Bool) (indent count : Int32) :
    Bounded (separator pretty indent count) (if count = 0 then 0 else 1) := by
  unfold separator
  by_cases hcount : count = 0
  · rw [if_pos hcount, if_pos hcount, List.nil_append]
    exact bounded_newline pretty indent
  · rw [if_neg hcount, if_neg hcount]
    have hcomma : Prints true [44] [operator 44] := prints_operator (by decide)
    have hsep := (hcomma.append prints_space (.inl rfl)).piece
    refine (bounded_of_piece hsep ?_).append (bounded_newline pretty indent)
    intro ch hch
    cases hch
    rfl

end Lexing

section Loops

/-- A text without a terminator inside, that leads to at most the tokens meant, and to fewer of
them unless something holds. -/
def Short (text : List UInt8) (size : Nat) (fits : Prop) : Prop :=
  0 ∉ text ∧ ∃ n, Bounded text n ∧ n ≤ size ∧ (n = size → fits)

theorem Bounded.short {text : List UInt8} {n : Nat} {fits : Prop} (h : Bounded text n) (hzero : 0 ∉ text)
    (hfits : fits) : Short text n fits :=
  ⟨hzero, n, h, Nat.le_refl n, fun _ ↦ hfits⟩

theorem Short.append {text text' : List UInt8} {size size' : Nat} {fits fits' : Prop} (h : Short text size fits)
    (h' : Short text' size' fits') : Short (text ++ text') (size + size') (fits ∧ fits') := by
  obtain ⟨hzero, n, hbounded, hle, hfits⟩ := h
  obtain ⟨hzero', n', hbounded', hle', hfits'⟩ := h'
  refine ⟨by simp [hzero, hzero'], n + n', hbounded.append hbounded', by omega, fun heq ↦ ?_⟩
  exact ⟨hfits (by omega), hfits' (by omega)⟩

theorem Short.weaken {text : List UInt8} {size : Nat} {fits fits' : Prop} (h : Short text size fits)
    (hfits : fits → fits') : Short text size fits' := by
  obtain ⟨hzero, n, hbounded, hle, heq⟩ := h
  exact ⟨hzero, n, hbounded, hle, fun hn ↦ hfits (heq hn)⟩

theorem notMem_newline (pretty : Bool) (indent : Int32) : 0 ∉ if pretty then line indent else [] := by
  cases pretty
  · exact List.not_mem_nil
  · exact (prints_line indent).noZero

theorem notMem_separator (pretty : Bool) (indent count : Int32) : 0 ∉ separator pretty indent count := by
  unfold separator
  rw [List.mem_append, not_or]
  refine ⟨?_, notMem_newline pretty indent⟩
  split_ifs
  · exact List.not_mem_nil
  · decide

theorem ofInt_natCast_eq_zero {i : Nat} : Int32.ofInt i = 0 ↔ 2 ^ 32 ∣ i := by
  rw [ofInt_eq_zero_iff]
  exact Int.natCast_dvd_natCast

theorem short_separator (pretty : Bool) (indent : Int32) (i : Nat) :
    Short (separator pretty indent (Int32.ofInt i)) 1 (¬ 2 ^ 32 ∣ i) := by
  refine ⟨notMem_separator pretty indent _, _, bounded_separator pretty indent (Int32.ofInt i), ?_, ?_⟩
  · split_ifs
    · exact Nat.zero_le 1
    · exact Nat.le_refl 1
  · split_ifs with hzero
    · exact nofun
    · exact fun _ hdvd ↦ hzero (ofInt_natCast_eq_zero.mpr hdvd)

variable {α : Type} {item : α → Option (List UInt8)} {tokens : α → List Token} {pretty : Bool} {indent : Int32}
  {loop : Int32 → List α → Option (List UInt8)} {joined : Bool → List α → List Token} {fits : α → Prop}

theorem short_loop (hnil : ∀ count, loop count [] = some [])
    (hcons : ∀ count x l, loop count (x :: l) = (item x).bind fun v ↦ (loop (count + 1) l).map fun r ↦
      separator pretty indent count ++ v ++ r)
    (hnone : ∀ first, joined first [] = [])
    (hsome : ∀ first x l, joined first (x :: l) = comma first ++ tokens x ++ joined false l) {l : List α}
    (hitems : ∀ x ∈ l, ∀ v, item x = some v → Short v (tokens x).length (fits x)) {i : Nat} {text : List UInt8}
    (h : loop (Int32.ofInt i) l = some text) :
    Short text (joined false l).length ((∀ x ∈ l, fits x) ∧ (i ≤ 2 ^ 32 → i + l.length ≤ 2 ^ 32)) := by
  induction l generalizing i text with
  | nil =>
    rw [hnil] at h
    cases h
    rw [hnone]
    exact bounded_nil.short List.not_mem_nil ⟨nofun, id⟩
  | cons x l ih =>
    rw [hcons] at h
    obtain ⟨v, hv, h⟩ := Option.bind_eq_some_iff.mp h
    obtain ⟨r, hr, rfl⟩ := Option.map_eq_some_iff.mp h
    have hsucc : Int32.ofInt i + 1 = Int32.ofInt (i + 1 : Nat) := (Int32.ofInt_add i 1).symm
    rw [hsucc] at hr
    have hrest := ih (fun y hy ↦ hitems y (List.mem_cons_of_mem x hy)) hr
    have hall := ((short_separator pretty indent i).append (hitems x List.mem_cons_self v hv)).append hrest
    rw [hsome, List.length_append, List.length_append]
    refine hall.weaken fun hfits ↦ ⟨?_, ?_⟩
    · exact List.forall_mem_cons.mpr ⟨hfits.1.2, hfits.2.1⟩
    · intro hi
      have hne : i ≠ 2 ^ 32 := fun heq ↦ hfits.1.1 ⟨1, heq⟩
      have hlength := hfits.2.2 (by omega)
      rw [List.length_cons]
      omega

theorem short_container (hnil : ∀ count, loop count [] = some [])
    (hcons : ∀ count x l, loop count (x :: l) = (item x).bind fun v ↦ (loop (count + 1) l).map fun r ↦
      separator pretty indent count ++ v ++ r)
    (hnone : ∀ first, joined first [] = [])
    (hsome : ∀ first x l, joined first (x :: l) = comma first ++ tokens x ++ joined false l) {l : List α}
    (hitems : ∀ x ∈ l, ∀ v, item x = some v → Short v (tokens x).length (fits x))
    {opening closing : UInt8} (hopening : opening ∈ ([123, 91] : List UInt8))
    (hclosing : closing ∈ ([125, 93] : List UInt8)) (outer : Int32) {body : List UInt8} (h : loop 0 l = some body) :
    Short ([opening] ++ body ++ (if pretty then line outer else []) ++ [closing])
      (operator opening :: joined true l ++ [operator closing]).length
      ((∀ x ∈ l, fits x) ∧ l.length ≤ 2 ^ 32) := by
  have hends : ∀ ch ∈ ([123, 91] : List UInt8), ch ∈ ([123, 125, 91, 93, 44, 58] : List UInt8) ∧
      ch ∈ ([34, 45, 91, 123] : List UInt8) := forall_mem_of_all (by decide)
  have hdelimiter : ∀ ch ∈ ([125, 93] : List UInt8), ch ∈ ([123, 125, 91, 93, 44, 58] : List UInt8) ∧ isDelimiter ch :=
    forall_mem_of_all (by decide)
  have hopen : Bounded [opening] 1 :=
    bounded_of_ends (piece_operator (hends opening hopening).1) (hends opening hopening).2
  have hclose : Bounded [closing] 1 := by
    refine bounded_of_piece (piece_operator (hdelimiter closing hclosing).1) ?_
    intro ch hch
    cases hch
    exact (hdelimiter closing hclosing).2
  have hbody : Short body (joined true l).length ((∀ x ∈ l, fits x) ∧ l.length ≤ 2 ^ 32) := by
    cases l with
    | nil =>
      rw [hnil] at h
      cases h
      rw [hnone]
      exact bounded_nil.short List.not_mem_nil ⟨nofun, Nat.zero_le _⟩
    | cons x l =>
      rw [hcons] at h
      obtain ⟨v, hv, h⟩ := Option.bind_eq_some_iff.mp h
      obtain ⟨r, hr, rfl⟩ := Option.map_eq_some_iff.mp h
      have hone : (0 : Int32) + 1 = Int32.ofInt (1 : Nat) := rfl
      rw [hone] at hr
      have hrest := short_loop hnil hcons hnone hsome (fun y hy ↦ hitems y (List.mem_cons_of_mem x hy)) hr
      have hfirst := (bounded_separator pretty indent 0).short (notMem_separator pretty indent 0) trivial
      have hall := (hfirst.append (hitems x List.mem_cons_self v hv)).append hrest
      rw [hsome, List.length_append, List.length_append]
      refine hall.weaken fun hfits ↦ ⟨?_, ?_⟩
      · exact List.forall_mem_cons.mpr ⟨hfits.1.2, hfits.2.1⟩
      · have hlength := hfits.2.2 (Nat.one_le_two_pow)
        rw [List.length_cons]
        omega
  have hnewline := (bounded_newline pretty outer).short (notMem_newline pretty outer) trivial
  have hall := (((hopen.short (prints_operator (hends opening hopening).1).noZero trivial).append hbody).append
    hnewline).append (hclose.short (prints_operator (hdelimiter closing hclosing).1).noZero trivial)
  have hlength : (operator opening :: joined true l ++ [operator closing]).length =
      1 + (joined true l).length + 0 + 1 := by
    simp [Nat.add_comm]
  rw [hlength]
  exact hall.weaken fun hfits ↦ hfits.1.1.2

end Loops

section Exact

variable (format : δ → List UInt8)

theorem short_of_qstringFromStr {key : Key} {string : List UInt8} (h : qstringFromStr key = some string)
    (hlength : key.val.length < 2 ^ 32) : key.val.length < 2 ^ 31 := by
  by_contra hlong
  have hneg : Int32.ofInt key.val.length < 0 := by
    rw [Int32.lt_iff_toInt_lt, Int32.toInt_ofInt, Int32.toInt_zero, Int.bmod]
    have hsize : Int32.size = 2 ^ 32 := rfl
    rw [hsize]
    omega
  unfold qstringFromStr qstringFromSubstr at h
  rw [length_of_last] at h
  dsimp only at h
  rw [if_pos hneg] at h
  cases h

theorem short_pair {x : Key × QObject δ} {pretty : Bool} {indent : Int32} {fits : Prop}
    (hkey : Utf8 x.1.val ∧ x.1.val.length < 2 ^ 32)
    (hvalue : ∀ text, toJson format pretty indent x.2 = some text → Short text (tokensOf x.2).length fits)
    {v : List UInt8} (h : toJsonPair format pretty indent x = some v) :
    Short v (pairTokens x).length (x.1.val.length < 2 ^ 31 ∧ fits) := by
  unfold toJsonPair at h
  obtain ⟨qkey, hqkey, h⟩ := Option.bind_eq_some_iff.mp h
  obtain ⟨text, htext, rfl⟩ := Option.map_eq_some_iff.mp h
  have hshort := short_of_qstringFromStr hqkey hkey.2
  rw [qstringFromStr_short hshort] at hqkey
  cases hqkey
  have hoperator : Prints true [58] [operator 58] := prints_operator (by decide)
  have hcolon : Bounded (ascii ": ") 1 := by
    refine bounded_of_piece (hoperator.append prints_space (.inl rfl)).piece ?_
    intro ch hch
    cases hch
    rfl
  have hstring := (bounded_toJsonString hkey.1).short (prints_toJsonString hkey.1).noZero hshort
  have hall := (hstring.append (hcolon.short (by decide) trivial)).append (hvalue text htext)
  have hlength : (pairTokens x).length = 1 + 1 + (tokensOf x.2).length := by
    rw [pairTokens, List.length_cons, List.length_cons]
    omega
  rw [hlength]
  exact hall.weaken fun hfits ↦ ⟨hfits.1.1, hfits.2⟩

/-- However large a tree is, its text leads to at most its tokens, and to fewer of them if a
container has too many entries. -/
theorem short_toJson {o : QObject δ} (hplain : Plain o) {pretty : Bool} {indent : Int32} {text : List UInt8}
    (h : toJson format pretty indent o = some text) : Short text (tokensOf o).length (Sized o) := by
  induction o using QObject.induct generalizing indent text with
  | qint v =>
    cases h
    exact (bounded_toJsonInt v).short (notMem_toJsonInt v) trivial
  | qbool b =>
    cases h
    exact (bounded_toJsonBool b).short (prints_toJsonBool b).noZero trivial
  | qstring s =>
    cases h
    exact (bounded_toJsonString hplain).short (prints_toJsonString hplain).noZero trivial
  | qfloat x => exact hplain.elim
  | qlist l ih =>
    rw [toJson] at h
    obtain ⟨body, hbody, h⟩ := Option.bind_eq_some_iff.mp h
    cases h
    have hall := short_container (fun _ ↦ by rw [toJsonList]) (toJsonList_cons format pretty (indent + 1))
      (fun _ ↦ by rw [itemTokens]) itemTokens_cons (fun x hx v hv ↦ ih x hx (plainItems_iff.mp hplain x hx) hv)
      (by decide : (91 : UInt8) ∈ [123, 91]) (by decide : (93 : UInt8) ∈ [125, 93]) indent hbody
    exact hall.weaken fun hfits ↦ ⟨hfits.2, sizedItems_iff.mpr hfits.1⟩
  | qdict e ih =>
    rw [toJson] at h
    obtain ⟨body, hbody, h⟩ := Option.bind_eq_some_iff.mp h
    cases h
    have hentries := plainEntries_iff.mp hplain.2
    have hall := short_container (fun _ ↦ by rw [toJsonDict]) (toJsonDict_cons format pretty (indent + 1))
      (fun _ ↦ by rw [entryTokens]) entryTokens_cons
      (fun x hx v hv ↦ short_pair format (hentries x hx).1 (fun text htext ↦ ih x hx (hentries x hx).2 htext) hv)
      (by decide : (123 : UInt8) ∈ [123, 91]) (by decide : (125 : UInt8) ∈ [125, 93]) indent hbody
    exact hall.weaken fun hfits ↦ ⟨hfits.2, sizedEntries_iff.mpr hfits.1⟩

theorem parseJson_last {strtod : List UInt8 → δ} {result : Option (QObject δ)} {lists : List (List Token)}
    {o : QObject δ} (h : parseJson strtod result lists = .ok (some o)) :
    lists = [] ∧ result = some o ∨ ∃ L, lists.getLast? = some L ∧ jsonParserParse strtod L = .ok (some o) := by
  induction lists generalizing result with
  | nil => exact .inl ⟨rfl, Except.ok.inj h⟩
  | cons tokens lists ih =>
    rw [parseJson] at h
    cases hparse : jsonParserParse strtod tokens with
    | error e =>
      rw [hparse] at h
      cases h
    | ok r =>
      rw [hparse] at h
      rcases ih h with ⟨rfl, rfl⟩ | ⟨L, hlast, hL⟩
      · exact .inr ⟨tokens, rfl, hparse⟩
      · exact .inr ⟨L, by rw [List.getLast?_cons, hlast]; rfl, hL⟩

variable (strtod : List UInt8 → δ)

-- What is read back takes as many tokens as were meant, so the text has led to all of them,
-- and they came out together.
theorem fits_of_roundTrips {o : QObject δ} (hplain : Plain o) {pretty : Bool}
    (h : RoundTrips strtod (toJson format pretty 0) o) : Fits o := by
  obtain ⟨text, o', htext, hread, hsame⟩ := h
  obtain ⟨hzero, n, hbounded, hle, hsized⟩ := short_toJson format hplain htext
  obtain ⟨hcount, -⟩ := hbounded jsonLexerInit (.inl rfl)
  have hinit : held jsonLexerInit = 0 := rfl
  rw [qobjectFromJson, cString_of_notMem hzero] at hread
  rcases parseJson_last hread with ⟨-, hnone⟩ | ⟨L, hlast, hL⟩
  · cases hnone
  have hlength := length_of_parsed hL
  rw [length_of_same hplain hsame] at hlength
  have hheard := length_of_emitted (emitted_of_feed text ▸ List.mem_of_getLast? hlast)
  rw [List.length_append] at hheard
  change _ ≤ _ + held _ at hheard
  have hfits : Sized o := hsized (by omega)
  obtain ⟨text', htext', hprints⟩ := prints_toJson hplain hfits format pretty 0
  rw [htext] at htext'
  cases htext'
  rw [emitted_of_piece hprints.piece] at hlast
  obtain ⟨l, t, htokens⟩ := List.eq_nil_or_concat'  (tokensOf o) |>.resolve_left (tokensOf_ne_nil hplain)
  rw [htokens] at hlast hlength
  rw [List.length_append, List.length_singleton] at hlength
  exact ⟨hfits, apart_of_emitted htokens (emitted_of_last hlast hlength)⟩

theorem roundTrips_iff {o : QObject δ} (hplain : Plain o) (pretty : Bool) :
    RoundTrips strtod (toJson format pretty 0) o ↔ Fits o :=
  ⟨fits_of_roundTrips format strtod hplain, fun hfits ↦ roundTrips_of_fits strtod format hplain hfits pretty⟩

/-- The text of a tree, short or pretty, is read back as an equal tree exactly if no container has
more entries than its counter counts, every key has fewer than `2 ^ 31` bytes, and the two counters of
the streamer are never both back at zero inside the tree. -/
theorem json_roundTrips_iff {o : QObject δ} (hplain : Plain o) :
    (RoundTrips strtod (qobjectToJson format) o ↔ Fits o) ∧
      (RoundTrips strtod (qobjectToJsonPretty format) o ↔ Fits o) :=
  ⟨roundTrips_iff format strtod hplain false, roundTrips_iff format strtod hplain true⟩

end Exact

section Runs

def keyA : Key := ⟨[97], by decide⟩

def smallTree : QObject Unit := .qdict [(keyA, .qlist [.qint 5, .qstring [0xC3, 0xA9], .qbool true])]

theorem utf8_char {c : Char} (h : 0 < c.toNat ∧ c.toNat ≤ 0xFFFF) : Utf8 (String.utf8EncodeChar c) := by
  refine ⟨[c], ?_, (List.append_nil _).symm⟩
  intro d hd
  rwa [List.mem_singleton.mp hd]

theorem plain_smallTree : Plain smallTree := by
  have ha : Utf8 keyA.val := utf8_char (c := 'a') (by decide)
  have he : Utf8 [0xC3, 0xA9] := utf8_char (c := Char.ofNat 0xE9) (by decide)
  exact ⟨List.nodup_singleton _, ⟨ha, by decide⟩, ⟨trivial, he, trivial, trivial⟩, trivial⟩

theorem fits_smallTree : Fits smallTree := by
  refine ⟨⟨by decide, by decide, ⟨by decide, trivial, trivial, trivial, trivial⟩, trivial⟩, ?_⟩
  exact ⟨by decide, ⟨by decide, trivial, trivial, trivial, trivial⟩, trivial⟩

theorem json_roundTrips_iff_small :
    RoundTrips (fun _ ↦ ()) (qobjectToJson fun _ ↦ []) smallTree ∧
      RoundTrips (fun _ ↦ ()) (qobjectToJsonPretty fun _ ↦ []) smallTree := by
  obtain ⟨hcompact, hpretty⟩ := json_roundTrips_iff (fun _ ↦ []) (fun _ ↦ ()) plain_smallTree
  exact ⟨hcompact.mpr fits_smallTree, hpretty.mpr fits_smallTree⟩

def longKey : Key := ⟨List.replicate (2 ^ 31) 97, fun h ↦ absurd (List.eq_of_mem_replicate h) (by decide)⟩

theorem utf8_replicate (n : Nat) : Utf8 (List.replicate n 97) := by
  refine ⟨List.replicate n 'a', ?_, ?_⟩
  · intro c hc
    rw [List.eq_of_mem_replicate hc]
    decide
  · have hone : String.utf8EncodeChar 'a' = [97] := by decide
    rw [List.flatMap_replicate, hone]
    simp

/-- The key of a dictionary has `2 ^ 31` bytes. -/
theorem json_roundTrips_fails :
    ¬ ∀ o : QObject Unit, Plain o →
      RoundTrips (fun _ ↦ ()) (qobjectToJson fun _ ↦ []) o ∧
        RoundTrips (fun _ ↦ ()) (qobjectToJsonPretty fun _ ↦ []) o := by
  intro h
  have hlength : longKey.val.length = 2 ^ 31 := List.length_replicate
  have hplain : Plain (.qdict [(longKey, .qbool true)] : QObject Unit) := by
    refine ⟨List.nodup_singleton _, ⟨utf8_replicate _, ?_⟩, trivial, trivial⟩
    rw [hlength]
    decide
  have hroundTrip : RoundTrips (fun _ ↦ ()) (toJson (fun _ ↦ []) false 0) _ := (h _ hplain).1
  have hfits := fits_of_roundTrips (fun _ ↦ []) (fun _ ↦ ()) hplain hroundTrip
  have hshort : longKey.val.length < 2 ^ 31 := hfits.1.2.1
  exact absurd hlength hshort.ne

end Runs

end IDeviceEmulator.Json
