import IDeviceEmulator.Json.Lexer

namespace IDeviceEmulator.Json

open Loop

variable {s t : State} {ch : UInt8} {token : List UInt8} {type : TokenType}

theorem feedChar_state (h : jsonLexer s ch = .state t) (token : List UInt8) :
    jsonLexerFeedChar ⟨s, token⟩ ch = ⟨⟨t, token ++ [ch]⟩, [], false⟩ := by
  have hturn : turn ch (⟨s, token⟩, []) = .inr ⟨⟨t, token ++ [ch]⟩, [], false⟩ := by
    simp [turn, terminalNeededLookahead, h, jsonLexer_zero]
  exact Option.get_of_eq_some _ (run_inr hturn)

theorem feedChar_token (h : jsonLexer s ch = .token type) (hzero : jsonLexer s 0 = .error) (token : List UInt8) :
    jsonLexerFeedChar ⟨s, token⟩ ch = ⟨jsonLexerInit, [⟨type, token ++ [ch]⟩], false⟩ := by
  have hturn : turn ch (⟨s, token⟩, []) = .inr ⟨jsonLexerInit, [⟨type, token ++ [ch]⟩], false⟩ := by
    simp [turn, terminalNeededLookahead, h, hzero, jsonLexerInit]
  exact Option.get_of_eq_some _ (run_inr hturn)

-- What has been emitted before a turn is only carried along.
theorem turn_of_inr {lexer : JSONLexer} {fed : Fed} (h : turn ch (lexer, []) = .inr fed) (tokens : List Token) :
    turn ch (lexer, tokens) = .inr ⟨fed.lexer, tokens ++ fed.tokens, fed.failed⟩ := by
  unfold turn at h ⊢
  cases hnext : jsonLexer lexer.state ch <;> simp only [hnext] at h ⊢
  · cases h
    simp
  all_goals
    split_ifs at h ⊢
    cases h
    simp

theorem turn_init (ch : UInt8) (tokens : List Token) :
    turn ch (jsonLexerInit, tokens) =
      .inr ⟨(jsonLexerFeedChar jsonLexerInit ch).lexer, tokens ++ (jsonLexerFeedChar jsonLexerInit ch).tokens,
        (jsonLexerFeedChar jsonLexerInit ch).failed⟩ := by
  rcases turn_cases ch jsonLexerInit [] with ⟨fed, h⟩ | ⟨hne, -⟩
  · have hfed : jsonLexerFeedChar jsonLexerInit ch = fed := Option.get_of_eq_some _ (run_inr h)
    rw [hfed]
    exact turn_of_inr h tokens
  · exact absurd rfl hne

theorem feedChar_lookahead (h : jsonLexer s ch = .token type) (hzero : jsonLexer s 0 = .token type)
    (token : List UInt8) :
    jsonLexerFeedChar ⟨s, token⟩ ch =
      ⟨(jsonLexerFeedChar jsonLexerInit ch).lexer, ⟨type, token⟩ :: (jsonLexerFeedChar jsonLexerInit ch).tokens,
        (jsonLexerFeedChar jsonLexerInit ch).failed⟩ := by
  have hturn : turn ch (⟨s, token⟩, []) = .inl (jsonLexerInit, [⟨type, token⟩]) := by
    simp [turn, terminalNeededLookahead, h, hzero, jsonLexerInit]
  exact Option.get_of_eq_some _ ((run_inl hturn).trans (run_inr (turn_init ch _)))

theorem feedChar_skip (h : jsonLexer s ch = .skip) (hzero : jsonLexer s 0 = .skip) (token : List UInt8) :
    jsonLexerFeedChar ⟨s, token⟩ ch = jsonLexerFeedChar jsonLexerInit ch := by
  have hturn : turn ch (⟨s, token⟩, []) = .inl (jsonLexerInit, []) := by
    simp [turn, terminalNeededLookahead, h, hzero, jsonLexerInit]
  exact Option.get_of_eq_some _ ((run_inl hturn).trans (run_inr (turn_init ch _)))

theorem jsonLexerFeed_append (x : JSONLexer) (text text' : List UInt8) :
    jsonLexerFeed x (text ++ text') =
      if (jsonLexerFeed x text).failed then jsonLexerFeed x text
      else ⟨(jsonLexerFeed (jsonLexerFeed x text).lexer text').lexer,
        (jsonLexerFeed x text).tokens ++ (jsonLexerFeed (jsonLexerFeed x text).lexer text').tokens,
        (jsonLexerFeed (jsonLexerFeed x text).lexer text').failed⟩ := by
  induction text generalizing x with
  | nil => simp [jsonLexerFeed]
  | cons ch text ih =>
    rw [List.cons_append, jsonLexerFeed, jsonLexerFeed]
    dsimp only
    rw [ih]
    by_cases hfailed : (jsonLexerFeedChar x ch).failed
    · rw [if_pos hfailed, if_pos hfailed, if_pos hfailed]
    · rw [if_neg hfailed, if_neg hfailed]
      by_cases hrest : (jsonLexerFeed (jsonLexerFeedChar x ch).lexer text).failed
      · rw [if_pos hrest, if_pos hrest]
      · rw [if_neg hrest, if_neg hrest, List.append_assoc]

/-- The lexer takes the text without an error. -/
inductive Lexes : JSONLexer → List UInt8 → JSONLexer → List Token → Prop
  | nil (x : JSONLexer) : Lexes x [] x []
  | cons {x y z : JSONLexer} {ch : UInt8} {text : List UInt8} {k m : List Token} :
      jsonLexerFeedChar x ch = ⟨y, k, false⟩ → Lexes y text z m → Lexes x (ch :: text) z (k ++ m)

section Lexes

variable {x y z : JSONLexer} {k m : List Token} {text text' : List UInt8}

theorem Lexes.feed (h : Lexes x text y k) : jsonLexerFeed x text = ⟨y, k, false⟩ := by
  induction h with
  | nil x => rfl
  | cons hchar _ ih => simp [jsonLexerFeed, hchar, ih]

theorem Lexes.append (h : Lexes x text y k) (h' : Lexes y text' z m) : Lexes x (text ++ text') z (k ++ m) := by
  induction h with
  | nil x => exact h'
  | cons hchar _ ih =>
    rw [List.append_assoc, List.cons_append]
    exact .cons hchar (ih h')

theorem Lexes.feed_append (h : Lexes x text y k) (text' : List UInt8) :
    jsonLexerFeed x (text ++ text') =
      ⟨(jsonLexerFeed y text').lexer, k ++ (jsonLexerFeed y text').tokens, (jsonLexerFeed y text').failed⟩ := by
  rw [jsonLexerFeed_append, h.feed]
  rfl

theorem Lexes.one (h : jsonLexerFeedChar x ch = ⟨y, k, false⟩) : Lexes x [ch] y k := by
  simpa using Lexes.cons h (.nil y)

end Lexes

/-- The token that the lexer has read if no character of it follows. -/
def pending (x : JSONLexer) : List Token :=
  match jsonLexer x.state 0 with
  | .token type => [⟨type, x.token⟩]
  | _ => []

/-- The lexer is not inside a token that needs more characters. -/
def Between (x : JSONLexer) : Prop := x = jsonLexerInit ∨ jsonLexer x.state 0 ≠ .error

def isBlank (ch : UInt8) : Bool := ch ∈ [32, 9, 13, 10]

/-- The characters that end a number or a keyword wherever it stands. -/
def isDelimiter (ch : UInt8) : Bool := ch ∈ [32, 10, 44, 58, 93, 125]

def Delimited (text : List UInt8) : Prop := ∀ ch ∈ text.head?, isDelimiter ch

section Table

theorem forall_byte {p : UInt8 → Prop} (h : ∀ n : Fin 256, p (UInt8.ofNat n)) (ch : UInt8) : p ch := by
  have hch := h ⟨ch.toNat, ch.toNat_lt⟩
  rwa [UInt8.ofNat_toNat] at hch

theorem forall_mem_of_all {l : List UInt8} {p : UInt8 → Prop} [DecidablePred p] (h : l.all fun ch ↦ p ch) :
    ∀ ch ∈ l, p ch :=
  fun ch hch ↦ of_decide_eq_true (List.all_eq_true.mp h ch hch)

theorem not_isBlank (hlow : 33 ≤ ch) (hhigh : ch ≤ 126) : isBlank ch = false ∧ ch < 0x80 := by
  refine ⟨decide_eq_false fun hblank ↦ ?_, by grind⟩
  simp only [List.mem_cons, List.not_mem_nil, or_false] at hblank
  rcases hblank with rfl | rfl | rfl | rfl <;> exact absurd hlow (by decide)

theorem jsonLexer_delimiter (hs : jsonLexer s 0 ≠ .error) (hblank : s ≠ .inWhitespace) (hch : isDelimiter ch) :
    jsonLexer s ch = jsonLexer s 0 := by
  have hall : ∀ ch ∈ [32, 10, 44, 58, 93, 125], jsonLexer s ch = jsonLexer s 0 := by
    apply forall_mem_of_all
    cases s <;> first | exact absurd rfl hs | exact absurd rfl hblank | decide
  exact hall ch (of_decide_eq_true hch)

def isHex (ch : UInt8) : Bool := 48 ≤ ch ∧ ch ≤ 57 ∨ 97 ≤ ch ∧ ch ≤ 102 ∨ 65 ≤ ch ∧ ch ≤ 70

-- One pass over the characters for all the rows that a printed text goes through.
theorem jsonLexer_rows : ∀ ch : UInt8,
    (isBlank ch = false → ch < 0x80 → jsonLexer .inWhitespace ch = .skip) ∧
    (isBlank ch → jsonLexer .inStart ch = .state .inWhitespace ∧
      jsonLexer .inWhitespace ch = .state .inWhitespace) ∧
    (ch ≠ 0 → ch ≠ 34 → ch ≠ 92 → jsonLexer .inDqString ch = .state .inDqString) ∧
    (48 ≤ ch → ch ≤ 57 → jsonLexer .inNonzeroNumber ch = .state .inNonzeroNumber) ∧
    (49 ≤ ch → ch ≤ 57 → jsonLexer .inStart ch = .state .inNonzeroNumber ∧
      jsonLexer .inNegNonzeroNumber ch = .state .inNonzeroNumber) ∧
    (97 ≤ ch → ch ≤ 122 → jsonLexer .inStart ch = .state .inKeyword ∧
      jsonLexer .inKeyword ch = .state .inKeyword) ∧
    (isHex ch → jsonLexer .inDqUcode0 ch = .state .inDqUcode1 ∧ jsonLexer .inDqUcode1 ch = .state .inDqUcode2 ∧
      jsonLexer .inDqUcode2 ch = .state .inDqUcode3 ∧ jsonLexer .inDqUcode3 ch = .state .inDqString) :=
  forall_byte (by decide +kernel)

theorem jsonLexer_whitespace (ch : UInt8) :
    isBlank ch = false → ch < 0x80 → jsonLexer .inWhitespace ch = .skip :=
  (jsonLexer_rows ch).1

theorem jsonLexer_blank (ch : UInt8) : isBlank ch → jsonLexer .inStart ch = .state .inWhitespace ∧
    jsonLexer .inWhitespace ch = .state .inWhitespace :=
  (jsonLexer_rows ch).2.1

theorem jsonLexer_string (ch : UInt8) : ch ≠ 0 → ch ≠ 34 → ch ≠ 92 →
    jsonLexer .inDqString ch = .state .inDqString :=
  (jsonLexer_rows ch).2.2.1

theorem jsonLexer_number (ch : UInt8) : 48 ≤ ch → ch ≤ 57 →
    jsonLexer .inNonzeroNumber ch = .state .inNonzeroNumber :=
  (jsonLexer_rows ch).2.2.2.1

theorem jsonLexer_leading (ch : UInt8) : 49 ≤ ch → ch ≤ 57 →
    jsonLexer .inStart ch = .state .inNonzeroNumber ∧ jsonLexer .inNegNonzeroNumber ch = .state .inNonzeroNumber :=
  (jsonLexer_rows ch).2.2.2.2.1

theorem jsonLexer_keyword (ch : UInt8) : 97 ≤ ch → ch ≤ 122 →
    jsonLexer .inStart ch = .state .inKeyword ∧ jsonLexer .inKeyword ch = .state .inKeyword :=
  (jsonLexer_rows ch).2.2.2.2.2.1

theorem jsonLexer_hex (ch : UInt8) : isHex ch → jsonLexer .inDqUcode0 ch = .state .inDqUcode1 ∧
    jsonLexer .inDqUcode1 ch = .state .inDqUcode2 ∧ jsonLexer .inDqUcode2 ch = .state .inDqUcode3 ∧
    jsonLexer .inDqUcode3 ch = .state .inDqString :=
  (jsonLexer_rows ch).2.2.2.2.2.2

theorem jsonLexer_escape : ∀ ch ∈ ([98, 102, 110, 114, 116, 47, 92, 39, 34] : List UInt8),
    jsonLexer .inDqStringEscape ch = .state .inDqString :=
  forall_mem_of_all (by decide)

theorem jsonLexer_operator : ∀ ch ∈ ([123, 125, 91, 93, 44, 58] : List UInt8),
    jsonLexer .inStart ch = .token .operator ∧ isBlank ch = false ∧ ch < 0x80 :=
  forall_mem_of_all (by decide)

end Table

theorem skip_or_token (hs : jsonLexer s 0 ≠ .error) : s = .inWhitespace ∨ ∃ type, jsonLexer s 0 = .token type := by
  cases s <;> first | exact absurd rfl hs | exact .inl rfl | exact .inr ⟨_, rfl⟩

section Pieces

variable {x y : JSONLexer} {k m : List Token} {text text' : List UInt8} {closed closed' : Bool}

theorem pending_init : pending jsonLexerInit = [] := rfl

theorem pending_whitespace : pending ⟨.inWhitespace, token⟩ = [] := rfl

theorem pending_of_token (h : jsonLexer s 0 = .token type) : pending ⟨s, token⟩ = [⟨type, token⟩] := by
  simp [pending, h]

-- Between two tokens a character is taken as at the start, after the token that it ends.
theorem feedChar_between (hx : Between x) (hpending : pending x ≠ [] → isDelimiter ch)
    (hblank : isBlank ch = false) (hascii : ch < 0x80) :
    jsonLexerFeedChar x ch = ⟨(jsonLexerFeedChar jsonLexerInit ch).lexer,
      pending x ++ (jsonLexerFeedChar jsonLexerInit ch).tokens, (jsonLexerFeedChar jsonLexerInit ch).failed⟩ := by
  obtain ⟨s, token⟩ := x
  rcases hx with hx | hs
  · rw [hx, pending_init]
    rfl
  · rcases skip_or_token hs with hs | ⟨type, hs⟩
    · change s = _ at hs
      subst hs
      exact feedChar_skip (jsonLexer_whitespace ch hblank hascii) rfl token
    · change jsonLexer s 0 = _ at hs
      have hdelimiter := hpending (by simp [pending_of_token hs])
      have hcell : jsonLexer s ch = .token type := by
        rw [jsonLexer_delimiter (by simp [hs]) _ hdelimiter, hs]
        intro hw
        rw [hw] at hs
        cases hs
      rw [feedChar_lookahead hcell hs, pending_of_token hs]
      rfl

theorem feedChar_blank (hx : Between x) (hpending : pending x ≠ [] → isDelimiter ch) (hblank : isBlank ch) :
    ∃ token, jsonLexerFeedChar x ch = ⟨⟨.inWhitespace, token⟩, pending x, false⟩ := by
  obtain ⟨s, token⟩ := x
  obtain ⟨hstart, hwhite⟩ := jsonLexer_blank ch hblank
  rcases hx with hx | hs
  · rw [hx]
    exact ⟨_, feedChar_state hstart []⟩
  · rcases skip_or_token hs with hs | ⟨type, hs⟩
    · change s = _ at hs
      subst hs
      exact ⟨_, feedChar_state hwhite token⟩
    · change jsonLexer s 0 = _ at hs
      have hdelimiter := hpending (by simp [pending_of_token hs])
      have hcell : jsonLexer s ch = .token type := by
        rw [jsonLexer_delimiter (by simp [hs]) _ hdelimiter, hs]
        intro hw
        rw [hw] at hs
        cases hs
      have hfirst : jsonLexerFeedChar jsonLexerInit ch = ⟨⟨.inWhitespace, [ch]⟩, [], false⟩ := feedChar_state hstart []
      rw [feedChar_lookahead hcell hs, pending_of_token hs, hfirst]
      exact ⟨_, rfl⟩

/-- Between two tokens the text is taken as these tokens. If it is closed then none of them
needs a character behind it. -/
def Piece (closed : Bool) (text : List UInt8) (tokens : List Token) : Prop :=
  ∀ x, Between x → (pending x ≠ [] → Delimited text) → ∃ y k, Lexes x text y k ∧ Between y ∧
    k ++ pending y = pending x ++ tokens ∧ (closed → pending y = [])

theorem piece_nil : Piece false [] [] :=
  fun x hx _ ↦ ⟨x, [], .nil x, hx, by simp, nofun⟩

theorem Piece.append (h : Piece closed text k) (h' : Piece closed' text' m) (hopen : closed ∨ Delimited text') :
    Piece closed' (text ++ text') (k ++ m) := by
  intro x hx hdelimited
  have hfirst (hpending : pending x ≠ []) : Delimited text := by
    intro ch hch
    exact hdelimited hpending ch (by simp [Option.mem_def.mp hch])
  obtain ⟨y, l, hlexes, hy, htokens, hclosed⟩ := h x hx hfirst
  have hsecond (hpending : pending y ≠ []) : Delimited text' := by
    rcases hopen with hopen | hopen
    · exact absurd (hclosed hopen) hpending
    · exact hopen
  obtain ⟨z, l', hlexes', hz, htokens', hclosed'⟩ := h' y hy hsecond
  refine ⟨z, l ++ l', hlexes.append hlexes', hz, ?_, hclosed'⟩
  rw [List.append_assoc, htokens', ← List.append_assoc, htokens, List.append_assoc]

theorem piece_blank (hblank : isBlank ch) : Piece true [ch] [] := by
  intro x hx hdelimited
  obtain ⟨token, hchar⟩ := feedChar_blank hx (fun h ↦ hdelimited h ch rfl) hblank
  have hwhite : jsonLexer .inWhitespace 0 ≠ .error := by decide
  exact ⟨_, _, .one hchar, .inr hwhite, rfl, fun _ ↦ rfl⟩

theorem piece_of_lexes (hblank : isBlank ch = false) (hascii : ch < 0x80) (h : Lexes jsonLexerInit (ch :: text) y k)
    (hy : Between y) (hclosed : closed → pending y = []) : Piece closed (ch :: text) (k ++ pending y) := by
  intro x hx hdelimited
  cases h with
  | @cons _ _ _ _ _ k m hchar hrest =>
    have hfirst := feedChar_between hx (fun h ↦ hdelimited h ch rfl) hblank hascii
    rw [hchar] at hfirst
    refine ⟨y, _, .cons hfirst hrest, hy, ?_, hclosed⟩
    simp only [List.append_assoc]

theorem lexes_loop (h : ∀ ch ∈ text, jsonLexer s ch = .state s) (token : List UInt8) :
    Lexes ⟨s, token⟩ text ⟨s, token ++ text⟩ [] := by
  induction text generalizing token with
  | nil =>
    rw [List.append_nil]
    exact .nil _
  | cons ch text ih =>
    have hrest := ih (fun c hc ↦ h c (List.mem_cons_of_mem ch hc)) (token ++ [ch])
    rw [List.append_assoc] at hrest
    exact .cons (feedChar_state (h ch List.mem_cons_self) token) hrest

theorem piece_operator (h : ch ∈ ([123, 125, 91, 93, 44, 58] : List UInt8)) :
    Piece true [ch] [⟨.operator, [ch]⟩] := by
  obtain ⟨hcell, hblank, hascii⟩ := jsonLexer_operator ch h
  have hstart : jsonLexer .inStart 0 = .error := by decide
  exact piece_of_lexes hblank hascii (.one (feedChar_token hcell hstart [])) (.inl rfl) fun _ ↦ rfl

theorem piece_keyword (hch : 97 ≤ ch ∧ ch ≤ 122) (h : ∀ c ∈ text, 97 ≤ c ∧ c ≤ 122) :
    Piece false (ch :: text) [⟨.keyword, ch :: text⟩] := by
  have hblank := not_isBlank (UInt8.le_trans (by decide) hch.1) (UInt8.le_trans hch.2 (by decide))
  have hloop := lexes_loop (s := .inKeyword) (fun c hc ↦ (jsonLexer_keyword c (h c hc).1 (h c hc).2).2) [ch]
  have hlexes := Lexes.cons (feedChar_state (jsonLexer_keyword ch hch.1 hch.2).1 []) hloop
  have hend : jsonLexer .inKeyword 0 ≠ .error := by decide
  exact piece_of_lexes hblank.1 hblank.2 hlexes (.inr hend) nofun

theorem piece_nonzero (hch : 49 ≤ ch ∧ ch ≤ 57) (h : ∀ c ∈ text, 48 ≤ c ∧ c ≤ 57) :
    Piece false (ch :: text) [⟨.integer, ch :: text⟩] := by
  have hblank := not_isBlank (UInt8.le_trans (by decide) hch.1) (UInt8.le_trans hch.2 (by decide))
  have hloop := lexes_loop (s := .inNonzeroNumber) (fun c hc ↦ jsonLexer_number c (h c hc).1 (h c hc).2) [ch]
  have hlexes := Lexes.cons (feedChar_state (jsonLexer_leading ch hch.1 hch.2).1 []) hloop
  have hend : jsonLexer .inNonzeroNumber 0 ≠ .error := by decide
  exact piece_of_lexes hblank.1 hblank.2 hlexes (.inr hend) nofun

theorem piece_negative (hch : 49 ≤ ch ∧ ch ≤ 57) (h : ∀ c ∈ text, 48 ≤ c ∧ c ≤ 57) :
    Piece false (45 :: ch :: text) [⟨.integer, 45 :: ch :: text⟩] := by
  have hminus : jsonLexer .inStart 45 = .state .inNegNonzeroNumber := by decide
  have hloop := lexes_loop (s := .inNonzeroNumber) (fun c hc ↦ jsonLexer_number c (h c hc).1 (h c hc).2) [45, ch]
  have hlexes := Lexes.cons (feedChar_state hminus [])
    (.cons (feedChar_state (jsonLexer_leading ch hch.1 hch.2).2 [45]) hloop)
  have hend : jsonLexer .inNonzeroNumber 0 ≠ .error := by decide
  exact piece_of_lexes (by decide) (by decide) hlexes (.inr hend) nofun

theorem piece_zero : Piece false [48] [⟨.integer, [48]⟩] := by
  have hzero : jsonLexer .inStart 48 = .state .inZero := by decide
  exact piece_of_lexes (by decide) (by decide) (.one (feedChar_state hzero [])) (.inr (by decide)) nofun

/-- The text goes on in a string. -/
def InString (text : List UInt8) : Prop := ∀ token, Lexes ⟨.inDqString, token⟩ text ⟨.inDqString, token ++ text⟩ []

theorem inString_nil : InString [] := by
  intro token
  rw [List.append_nil]
  exact .nil _

theorem InString.append (h : InString text) (h' : InString text') : InString (text ++ text') := by
  intro token
  rw [← List.append_assoc]
  exact (h token).append (h' (token ++ text))

theorem inString_char (hzero : ch ≠ 0) (hquote : ch ≠ 34) (hbackslash : ch ≠ 92) : InString [ch] :=
  fun token ↦ .one (feedChar_state (jsonLexer_string ch hzero hquote hbackslash) token)

theorem inString_escape (h : ch ∈ ([98, 102, 110, 114, 116, 47, 92, 39, 34] : List UInt8)) : InString [92, ch] := by
  intro token
  have hbackslash : jsonLexer .inDqString 92 = .state .inDqStringEscape := by decide
  have hlexes := Lexes.cons (feedChar_state hbackslash token)
    (.one (feedChar_state (jsonLexer_escape ch h) (token ++ [92])))
  simpa using hlexes

theorem inString_unicode {a b c d : UInt8} (ha : isHex a) (hb : isHex b) (hc : isHex c) (hd : isHex d) :
    InString [92, 117, a, b, c, d] := by
  intro token
  have hbackslash : jsonLexer .inDqString 92 = .state .inDqStringEscape := by decide
  have hunicode : jsonLexer .inDqStringEscape 117 = .state .inDqUcode0 := by decide
  have hlexes := Lexes.cons (feedChar_state hbackslash token) <|
    .cons (feedChar_state hunicode _) <| .cons (feedChar_state (jsonLexer_hex a ha).1 _) <|
    .cons (feedChar_state (jsonLexer_hex b hb).2.1 _) <| .cons (feedChar_state (jsonLexer_hex c hc).2.2.1 _) <|
    .one (feedChar_state (jsonLexer_hex d hd).2.2.2 _)
  simpa using hlexes

theorem piece_string (h : InString text) : Piece true (34 :: text ++ [34]) [⟨.string, 34 :: text ++ [34]⟩] := by
  have hopen : jsonLexer .inStart 34 = .state .inDqString := by decide
  have hclose : jsonLexer .inDqString 34 = .token .string := by decide
  have hbody := (h [34]).append (.one (feedChar_token hclose (by decide) ([34] ++ text)))
  have hlexes := Lexes.cons (feedChar_state hopen []) hbody
  have hpiece := piece_of_lexes (by decide) (by decide) hlexes (.inl rfl) fun _ : true ↦ pending_init
  simpa [pending_init] using hpiece

end Pieces

end IDeviceEmulator.Json
