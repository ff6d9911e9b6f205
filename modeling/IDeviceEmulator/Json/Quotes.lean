import IDeviceEmulator.Json.Strings

namespace IDeviceEmulator.Json.Quotes

open Qobject

inductive Quote
  | double
  | single
  deriving DecidableEq, Repr

def Quote.char : Quote → UInt8
  | .double => 34
  | .single => 39

/-- The lexer's state inside a string. -/
def Quote.inside : Quote → State
  | .double => .inDqString
  | .single => .inSqString

def simpleEscapes : List UInt8 := [98, 102, 110, 114, 116, 47, 92, 39, 34]

/-- A string character or an escape of the grammar in the lexer's header. -/
inductive Item
  | plain (ch : UInt8) (h : ch ≠ 0 ∧ ch ≠ 92)
  | escape (ch : UInt8) (h : ch ∈ simpleEscapes)
  | unicode (a b c d : UInt8) (h : (isHex a ∧ isHex b) ∧ isHex c ∧ isHex d)

-- The quote itself ends the string.
def Item.Fits (quote : Quote) : Item → Prop
  | .plain ch _ => ch ≠ quote.char
  | _ => True

section Meaning

def hexValue (ch : UInt8) : Nat :=
  if ch ≤ 57 then ch.toNat - 48 else if ch ≤ 70 then ch.toNat - 55 else ch.toNat - 87

/-- A character up to U+FFFF in UTF-8. -/
def utf8 (code : Nat) : List UInt8 :=
  if code < 0x80 then [UInt8.ofNat code]
  else if code < 0x800 then [UInt8.ofNat (0xC0 + code / 64), UInt8.ofNat (0x80 + code % 64)]
  else [UInt8.ofNat (0xE0 + code / 4096), UInt8.ofNat (0x80 + code / 64 % 64), UInt8.ofNat (0x80 + code % 64)]

/-- The characters that the letters stand for. The other simple escapes stand for themselves. -/
def controls : List (UInt8 × UInt8) := [(98, 8), (102, 12), (110, 10), (114, 13), (116, 9)]

def Item.text : Item → List UInt8
  | .plain ch _ => [ch]
  | .escape ch _ => [92, ch]
  | .unicode a b c d _ => [92, 117, a, b, c, d]

def codeOf (a b c d : UInt8) : Nat := hexValue a * 4096 + hexValue b * 256 + hexValue c * 16 + hexValue d

def Item.decoded : Item → List UInt8
  | .plain ch _ => [ch]
  | .escape ch _ => [(controls.lookup ch).getD ch]
  | .unicode a b c d _ => utf8 (codeOf a b c d)

def text (items : List Item) : List UInt8 := items.flatMap Item.text

def quoted (quote : Quote) (items : List Item) : List UInt8 := quote.char :: text items ++ [quote.char]

/-- One token covers the text between quotes, and it decodes to the characters that it stands for. -/
structure Exact (quote : Quote) (items : List Item) : Prop where
  lexed : jsonLexerFeed jsonLexerInit (quoted quote items) = ⟨jsonLexerInit, [⟨.string, quoted quote items⟩], false⟩
  decoded : qstringFromEscapedStr (cString (quoted quote items)).val = some (items.flatMap Item.decoded)

end Meaning

variable {quote : Quote} {items : List Item}

section Lexing

def Quote.escape : Quote → State
  | .double => .inDqStringEscape
  | .single => .inSqStringEscape

/-- The text goes on in the string. -/
def Goes (quote : Quote) (text : List UInt8) : Prop :=
  ∀ token, Lexes ⟨quote.inside, token⟩ text ⟨quote.inside, token ++ text⟩ []

theorem jsonLexer_single : ∀ ch : UInt8,
    (ch ≠ 0 → ch ≠ 39 → ch ≠ 92 → jsonLexer .inSqString ch = .state .inSqString) ∧
    (isHex ch → jsonLexer .inSqUcode0 ch = .state .inSqUcode1 ∧ jsonLexer .inSqUcode1 ch = .state .inSqUcode2 ∧
      jsonLexer .inSqUcode2 ch = .state .inSqUcode3 ∧ jsonLexer .inSqUcode3 ch = .state .inSqString) :=
  forall_byte (by decide +kernel)

theorem jsonLexer_singleEscape : ∀ ch ∈ simpleEscapes,
    jsonLexer .inSqStringEscape ch = .state (if ch = 47 ∨ ch = 92 then .inDqString else .inSqString) :=
  forall_mem_of_all (by decide)

theorem jsonLexer_quote (quote : Quote) : jsonLexer .inStart quote.char = .state quote.inside ∧
    jsonLexer quote.inside quote.char = .token .string ∧ jsonLexer quote.inside 0 = .error ∧
    jsonLexer quote.inside 92 = .state quote.escape := by
  cases quote <;> decide

theorem goes_plain {ch : UInt8} (h : ch ≠ 0 ∧ ch ≠ quote.char ∧ ch ≠ 92) : Goes quote [ch] := by
  cases quote with
  | double => exact inString_char h.1 h.2.1 h.2.2
  | single => exact fun token ↦ .one (feedChar_state ((jsonLexer_single ch).1 h.1 h.2.1 h.2.2) token)

theorem goes_escape {ch : UInt8} (h : ch ∈ simpleEscapes) (hslash : quote = .single → ¬ (ch = 47 ∨ ch = 92)) :
    Goes quote [92, ch] := by
  cases quote with
  | double => exact inString_escape h
  | single =>
    intro token
    have hrow := jsonLexer_singleEscape ch h
    rw [if_neg (hslash rfl)] at hrow
    have hlexes := Lexes.cons (feedChar_state (jsonLexer_quote .single).2.2.2 token)
      (.one (feedChar_state hrow (token ++ [92])))
    simpa [Quote.inside] using hlexes

theorem goes_unicode {a b c d : UInt8} (h : (isHex a ∧ isHex b) ∧ isHex c ∧ isHex d) :
    Goes quote [92, 117, a, b, c, d] := by
  obtain ⟨⟨ha, hb⟩, hc, hd⟩ := h
  cases quote with
  | double => exact inString_unicode ha hb hc hd
  | single =>
    intro token
    have hunicode : jsonLexer .inSqStringEscape 117 = .state .inSqUcode0 := by decide
    have hlexes := Lexes.cons (feedChar_state (jsonLexer_quote .single).2.2.2 token) <|
      .cons (feedChar_state hunicode _) <| .cons (feedChar_state ((jsonLexer_single a).2 ha).1 _) <|
      .cons (feedChar_state ((jsonLexer_single b).2 hb).2.1 _) <|
      .cons (feedChar_state ((jsonLexer_single c).2 hc).2.2.1 _) <|
      .one (feedChar_state ((jsonLexer_single d).2 hd).2.2.2 _)
    simpa [Quote.inside] using hlexes

def Item.slash : Item → Bool
  | .escape ch _ => ch = 47 ∨ ch = 92
  | _ => false

theorem goes_item {item : Item} (hfits : item.Fits quote) (h : quote = .single → item.slash = false) :
    Goes quote item.text := by
  cases item with
  | plain ch hch => exact goes_plain ⟨hch.1, hfits, hch.2⟩
  | escape ch hch => exact goes_escape hch fun hsingle ↦ of_decide_eq_false (h hsingle)
  | unicode a b c d hhex => exact goes_unicode hhex

theorem goes_text (hfits : ∀ item ∈ items, item.Fits quote)
    (h : quote = .single → ∀ item ∈ items, item.slash = false) : Goes quote (text items) := by
  induction items with
  | nil =>
    intro token
    rw [text, List.flatMap_nil, List.append_nil]
    exact .nil _
  | cons item items ih =>
    intro token
    have hitem := goes_item (hfits item List.mem_cons_self) fun hsingle ↦ h hsingle item List.mem_cons_self
    have hrest := ih (fun x hx ↦ hfits x (List.mem_cons_of_mem item hx)) fun hsingle x hx ↦
      h hsingle x (List.mem_cons_of_mem item hx)
    have hlexes := (hitem token).append (hrest (token ++ item.text))
    rwa [List.append_assoc] at hlexes

theorem lexed_of_goes (h : Goes quote (text items)) :
    jsonLexerFeed jsonLexerInit (quoted quote items) = ⟨jsonLexerInit, [⟨.string, quoted quote items⟩], false⟩ := by
  obtain ⟨hopen, hclose, hzero, -⟩ := jsonLexer_quote quote
  have hbody := (h [quote.char]).append (.one (feedChar_token hclose hzero _))
  exact (Lexes.cons (feedChar_state hopen []) hbody).feed

-- Behind a slash a string in single quotes goes on in the rows of the double quotes, which it leaves
-- only with a token that ends too early.
theorem short_after_slash (items : List Item) (token : List UInt8) :
    ∀ t ∈ (jsonLexerFeed ⟨.inDqString, token⟩ (text items ++ [39])).tokens.head?,
      t.token.length ≤ token.length + (text items).length := by
  induction items generalizing token with
  | nil =>
    have hrow : jsonLexer .inDqString 39 = .state .inDqString := by decide
    rw [text, List.flatMap_nil, List.nil_append, (Lexes.one (feedChar_state hrow token)).feed]
    nofun
  | cons item items ih =>
    have hgoes (hitem : Goes .double item.text) :
        ∀ t ∈ (jsonLexerFeed ⟨.inDqString, token⟩ (text (item :: items) ++ [39])).tokens.head?,
          t.token.length ≤ token.length + (text (item :: items)).length := by
      have hlexes : Lexes ⟨.inDqString, token⟩ item.text ⟨.inDqString, token ++ item.text⟩ [] := hitem token
      have hrest := ih (token ++ item.text)
      rw [text, List.flatMap_cons, ← text, List.append_assoc, hlexes.feed_append]
      rw [List.length_append] at hrest ⊢
      rwa [← Nat.add_assoc]
    cases item with
    | plain ch h =>
      by_cases hquote : ch = 34
      · subst hquote
        have hclose : jsonLexer .inDqString 34 = .token .string := by decide
        have hlexes := Lexes.one (feedChar_token hclose (by decide) token)
        rw [text, List.flatMap_cons, ← text, List.append_assoc, Item.text, hlexes.feed_append]
        intro t ht
        cases ht
        rw [List.length_append, List.length_append]
        exact Nat.add_le_add_left (Nat.le_add_right _ _) _
      · exact hgoes (goes_plain ⟨h.1, hquote, h.2⟩)
    | escape ch h => exact hgoes (goes_escape h nofun)
    | unicode a b c d h => exact hgoes (goes_unicode h)

theorem not_lexed_of_slash (hfits : ∀ item ∈ items, item.Fits .single) (h : ∃ item ∈ items, item.slash) :
    jsonLexerFeed jsonLexerInit (quoted .single items) ≠ ⟨jsonLexerInit, [⟨.string, quoted .single items⟩], false⟩ := by
  obtain ⟨slash, hfind⟩ := Option.isSome_iff_exists.mp (List.find?_isSome.mpr h)
  obtain ⟨hslash, before, behind, hitems, hbefore⟩ := List.find?_eq_some_iff_append.mp hfind
  have hopen : Lexes jsonLexerInit [39] ⟨.inSqString, [39]⟩ [] :=
    .one (feedChar_state (jsonLexer_quote .single).1 [])
  have hgoes : Goes .single (text before) := by
    refine goes_text (fun item hmem ↦ hfits item ?_) fun _ item hmem ↦ by simpa using hbefore item hmem
    rw [hitems]
    exact List.mem_append_left _ hmem
  have hswitch (token : List UInt8) : Lexes ⟨.inSqString, token⟩ slash.text ⟨.inDqString, token ++ slash.text⟩ [] := by
    cases slash with
    | escape ch hch =>
      have hrow := jsonLexer_singleEscape ch hch
      rw [if_pos (of_decide_eq_true hslash)] at hrow
      have hlexes := Lexes.cons (feedChar_state (jsonLexer_quote .single).2.2.2 token)
        (.one (feedChar_state hrow (token ++ [92])))
      simpa [Item.text, Quote.inside] using hlexes
    | plain ch hch => cases hslash
    | unicode a b c d hhex => cases hslash
  have hlexes := (hopen.append (hgoes [39])).append (hswitch ([39] ++ text before))
  have hquoted : quoted .single items = [39] ++ text before ++ slash.text ++ (text behind ++ [39]) := by
    simp [quoted, text, hitems, Quote.char]
  intro heq
  rw [hquoted, hlexes.feed_append] at heq
  have htokens := (Fed.mk.inj heq).2.1
  simp only [List.nil_append] at htokens
  have hshort := short_after_slash behind ([39] ++ text before ++ slash.text)
  rw [htokens] at hshort
  have hle := hshort _ rfl
  simp only [List.length_append, List.length_singleton] at hle
  omega

end Lexing
section Decoding

theorem hexValue_spec : ∀ ch : UInt8, isHex ch → isxdigit ch ∧ hex2decimal ch = UInt16.ofNat (hexValue ch) ∧
    hexValue ch < 16 ∧ ch ≠ 0 :=
  forall_byte (by decide +kernel)

theorem codeOf_lt {a b c d : UInt8} (h : (isHex a ∧ isHex b) ∧ isHex c ∧ isHex d) : codeOf a b c d < 2 ^ 16 := by
  have ha := (hexValue_spec a h.1.1).2.2.1
  have hb := (hexValue_spec b h.1.2).2.2.1
  have hc := (hexValue_spec c h.2.1).2.2.1
  have hd := (hexValue_spec d h.2.2).2.2.1
  unfold codeOf
  omega

theorem nibble_ofNat {n k : Nat} (shift : UInt16) (hshift : shift.toNat < 16) (hn : n < 2 ^ 16)
    (hk : n / 2 ^ shift.toNat % 16 = k) : UInt16.ofNat k = UInt16.ofNat n >>> shift &&& 15 := by
  rw [← UInt16.toNat_inj, UInt16.toNat_and, UInt16.toNat_shiftRight, UInt16.toNat_ofNat', UInt16.toNat_ofNat',
    Nat.mod_eq_of_lt hshift, Nat.mod_eq_of_lt hn, Nat.shiftRight_eq_div_pow, ← hk]
  have hmask : n / 2 ^ shift.toNat &&& 15 = n / 2 ^ shift.toNat % 16 := Nat.and_two_pow_sub_one_eq_mod _ 4
  exact (Nat.mod_eq_of_lt (by omega)).trans hmask.symm

theorem unicodeChar_codeOf {a b c d : UInt8} (h : (isHex a ∧ isHex b) ∧ isHex c ∧ isHex d) :
    unicodeChar 12 0 [a, b, c, d] = some (UInt16.ofNat (codeOf a b c d)) := by
  obtain ⟨ha, ha', haLt, -⟩ := hexValue_spec a h.1.1
  obtain ⟨hb, hb', hbLt, -⟩ := hexValue_spec b h.1.2
  obtain ⟨hc, hc', hcLt, -⟩ := hexValue_spec c h.2.1
  obtain ⟨hd, hd', hdLt, -⟩ := hexValue_spec d h.2.2
  have hlt := codeOf_lt h
  have hdigits : codeOf a b c d / 4096 % 16 = hexValue a ∧ codeOf a b c d / 256 % 16 = hexValue b ∧
      codeOf a b c d / 16 % 16 = hexValue c ∧ codeOf a b c d / 1 % 16 = hexValue d := by
    unfold codeOf
    omega
  have hlast := nibble_ofNat 0 (by decide) hlt hdigits.2.2.2
  rw [UInt16.shiftRight_zero] at hlast
  simp only [unicodeChar, ha, hb, hc, hd, ha', hb', hc', hd', nibble_ofNat 12 (by decide) hlt hdigits.1,
    nibble_ofNat 8 (by decide) hlt hdigits.2.1, nibble_ofNat 4 (by decide) hlt hdigits.2.2.1, hlast, if_true]
  exact congrArg some (nibbles _)

theorem masks_toNat : ∀ x : UInt8, x &&& 0x7F = UInt8.ofNat (x.toNat % 128) ∧
    x &&& 0x1F ||| 0xC0 = UInt8.ofNat (0xC0 + x.toNat % 32) ∧ x &&& 0x0F ||| 0xE0 = UInt8.ofNat (0xE0 + x.toNat % 16) ∧
    x &&& 0x3F ||| 0x80 = UInt8.ofNat (0x80 + x.toNat % 64) :=
  forall_byte (by decide +kernel)

theorem wcharToUtf8_ofNat {code : Nat} (h : code < 2 ^ 16) : wcharToUtf8 (UInt16.ofNat code) = utf8 code := by
  have hcode : (UInt16.ofNat code).toNat = code := by rw [UInt16.toNat_ofNat', Nat.mod_eq_of_lt h]
  have hsix : (UInt16.ofNat code >>> 6).toUInt8.toNat = code / 64 % 256 := by
    rw [UInt16.toNat_toUInt8, UInt16.toNat_shiftRight, hcode, Nat.shiftRight_eq_div_pow]
    rfl
  have htwelve : (UInt16.ofNat code >>> 12).toUInt8.toNat = code / 4096 % 256 := by
    rw [UInt16.toNat_toUInt8, UInt16.toNat_shiftRight, hcode, Nat.shiftRight_eq_div_pow]
    rfl
  have hzero : (UInt16.ofNat code).toUInt8.toNat = code % 256 := by rw [UInt16.toNat_toUInt8, hcode]
  unfold wcharToUtf8 utf8
  simp only [UInt16.le_iff_toNat_le, hcode, (masks_toNat _).1, (masks_toNat _).2.1, (masks_toNat _).2.2.1,
    (masks_toNat _).2.2.2, hsix, htwelve, hzero, UInt16.reduceToNat]
  have hlow : code % 256 % 64 = code % 64 := by omega
  have hmiddle : code / 64 % 256 % 64 = code / 64 % 64 := by omega
  have hhigh : code / 4096 % 256 % 16 = code / 4096 := by omega
  rw [hlow, hmiddle, hhigh]
  by_cases hone : code < 0x80
  · have hbyte : code % 256 % 128 = code := by omega
    rw [if_pos (Nat.le_of_lt_succ hone), if_pos hone, hbyte]
  · rw [if_neg (fun hle ↦ hone (Nat.lt_succ_of_le hle)), if_neg hone]
    by_cases htwo : code < 0x800
    · have hlead : code / 64 % 256 % 32 = code / 64 := by omega
      rw [if_pos (Nat.le_of_lt_succ htwo), if_pos htwo, hlead]
    · rw [if_neg (fun hle ↦ htwo (Nat.lt_succ_of_le hle)), if_neg htwo]

theorem utf8_noZero {code : Nat} (hpos : 0 < code) (h : code < 2 ^ 16) : 0 ∉ utf8 code := by
  have hbyte (n : Nat) (hn : n < 256) (hne : 0 < n) : 0 ≠ UInt8.ofNat n := by
    rw [ne_eq, ← UInt8.toNat_inj, UInt8.toNat_ofNat', Nat.mod_eq_of_lt hn]
    exact hne.ne
  unfold utf8
  split_ifs with hone htwo
  · rw [List.mem_singleton]
    exact hbyte _ (by omega) hpos
  · simp only [List.mem_cons, List.not_mem_nil, or_false, not_or]
    exact ⟨hbyte _ (by omega) (by omega), hbyte _ (by omega) (by omega)⟩
  · simp only [List.mem_cons, List.not_mem_nil, or_false, not_or]
    exact ⟨hbyte _ (by omega) (by omega), hbyte _ (by omega) (by omega), hbyte _ (by omega) (by omega)⟩

theorem escaped_spec : ∀ ch ∈ simpleEscapes, escaped ch = some ((controls.lookup ch).getD ch) ∧
    (controls.lookup ch).getD ch ≠ 0 ∧ ch ≠ 0 :=
  forall_mem_of_all (by decide)

/-- What the string keeps of the bytes: they are appended as a C string. -/
def Item.kept (item : Item) : List UInt8 := (cString item.decoded).val

def Item.nul : Item → Bool
  | .unicode a b c d _ => codeOf a b c d = 0
  | _ => false

theorem kept_eq {item : Item} (h : item.nul = false) : item.kept = item.decoded := by
  apply cString_of_notMem
  cases item with
  | plain ch hch => simpa [Item.decoded] using hch.1.symm
  | escape ch hch => simpa [Item.decoded] using (escaped_spec ch hch).2.1.symm
  | unicode a b c d hhex => exact utf8_noZero (Nat.pos_of_ne_zero (of_decide_eq_false h)) (codeOf_lt hhex)

theorem zero_mem_of_nul {item : Item} (h : item.nul) : 0 ∈ item.decoded := by
  cases item with
  | unicode a b c d hhex =>
    rw [Item.decoded, of_decide_eq_true h]
    exact List.mem_cons_self
  | plain ch hch => cases h
  | escape ch hch => cases h

theorem quote_ne_backslash (quote : Quote) : 92 ≠ quote.char := by
  cases quote <;> decide

theorem unescape_item {item : Item} (hfits : item.Fits quote) (str ptr : List UInt8) :
    unescape quote.char str (item.text ++ ptr) = unescape quote.char (str ++ item.kept) ptr := by
  cases item with
  | plain ch hch =>
    rw [kept_eq rfl]
    exact unescape_char hfits hch.2
  | escape ch hch =>
    rw [kept_eq rfl]
    exact unescape_escaped (quote_ne_backslash quote) (escaped_spec ch hch).1
  | unicode a b c d hhex =>
    rw [Item.kept, Item.decoded, ← wcharToUtf8_ofNat (codeOf_lt hhex)]
    exact unescape_unicode (quote_ne_backslash quote) (unicodeChar_codeOf hhex)

theorem unescape_text (hfits : ∀ item ∈ items, item.Fits quote) (str ptr : List UInt8) :
    unescape quote.char str (text items ++ ptr) = unescape quote.char (str ++ items.flatMap Item.kept) ptr := by
  induction items generalizing str with
  | nil => simp [text]
  | cons item items ih =>
    rw [text, List.flatMap_cons, ← text, List.append_assoc, unescape_item (hfits item List.mem_cons_self),
      ih fun x hx ↦ hfits x (List.mem_cons_of_mem item hx), List.flatMap_cons, List.append_assoc]

theorem item_noZero (item : Item) : 0 ∉ item.text := by
  cases item with
  | plain ch hch => simpa [Item.text] using hch.1.symm
  | escape ch hch => simpa [Item.text] using (escaped_spec ch hch).2.2.symm
  | unicode a b c d hhex =>
    have ha := (hexValue_spec a hhex.1.1).2.2.2
    have hb := (hexValue_spec b hhex.1.2).2.2.2
    have hc := (hexValue_spec c hhex.2.1).2.2.2
    have hd := (hexValue_spec d hhex.2.2).2.2.2
    simp [Item.text, ha.symm, hb.symm, hc.symm, hd.symm]

theorem cString_quoted (quote : Quote) (items : List Item) :
    (cString (quoted quote items)).val = quoted quote items := by
  have hquote : 0 ≠ quote.char := by cases quote <;> decide
  apply cString_of_notMem
  simp [quoted, text, hquote, item_noZero]

theorem qstring_quoted (hfits : ∀ item ∈ items, item.Fits quote) :
    qstringFromEscapedStr (cString (quoted quote items)).val = some (items.flatMap Item.kept) := by
  have hchar : (if quote.char = 34 then 34 else 39) = quote.char := by cases quote <;> rfl
  have hunescape := unescape_text hfits [] [quote.char]
  rw [List.nil_append, unescape_quote] at hunescape
  rw [cString_quoted, quoted, List.cons_append, qstringFromEscapedStr]
  change unescape (if quote.char = 34 then 34 else 39) [] _ = _
  rw [hchar]
  exact hunescape

theorem decoded_iff (items : List Item) :
    items.flatMap Item.kept = items.flatMap Item.decoded ↔ ∀ item ∈ items, item.nul = false := by
  constructor
  · intro heq item hmem
    by_contra hnul
    have hzero : 0 ∈ items.flatMap Item.decoded :=
      List.mem_flatMap.mpr ⟨item, hmem, zero_mem_of_nul (Bool.not_eq_false _ ▸ hnul)⟩
    rw [← heq] at hzero
    obtain ⟨x, -, hx⟩ := List.mem_flatMap.mp hzero
    exact (cString x.decoded).property hx
  · intro h
    exact List.flatMap_congr fun item hmem ↦ kept_eq (h item hmem)

end Decoding
section Exact

-- The token is lost behind a slash in single quotes, and a U+0000 is lost in either.
theorem string_exact_iff (quote : Quote) (items : List Item) (hfits : ∀ item ∈ items, item.Fits quote) :
    Exact quote items ↔
      (quote = .single → ∀ item ∈ items, item.slash = false) ∧ ∀ item ∈ items, item.nul = false := by
  constructor
  · intro h
    refine ⟨?_, (decoded_iff items).mp (Option.some.inj ((qstring_quoted hfits).symm.trans h.decoded))⟩
    rintro rfl
    by_contra hslash
    push Not at hslash
    exact not_lexed_of_slash hfits (by simpa using hslash) h.lexed
  · rintro ⟨hslash, hnul⟩
    refine ⟨lexed_of_goes (goes_text hfits hslash), ?_⟩
    rw [qstring_quoted hfits, (decoded_iff items).mpr hnul]

theorem string_exact_iff_tab : Exact .single [.plain 34 (by decide), .escape 116 (by decide)] :=
  (string_exact_iff .single [.plain 34 (by decide), .escape 116 (by decide)] (by simp [Item.Fits, Quote.char])).mpr
    (by decide)

theorem not_exact : ¬ ∀ (quote : Quote) (items : List Item), (∀ item ∈ items, item.Fits quote) →
    Exact quote items := by
  intro h
  have hslash := (h .single [.escape 47 (by decide)] (by simp [Item.Fits])).lexed
  exact absurd hslash (by decide)

end Exact

end IDeviceEmulator.Json.Quotes
