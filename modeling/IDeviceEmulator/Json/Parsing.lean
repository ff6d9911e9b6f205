import IDeviceEmulator.Json.Parser

namespace IDeviceEmulator.Json

open Backtrack Qobject

/-- The token is this operator. -/
def Token.IsOperator (token : Token) (op : Char) : Prop :=
  token.type = .operator ∧ (cString token.token).val = [op.toUInt8]

instance (token : Token) (op : Char) : Decidable (token.IsOperator op) :=
  inferInstanceAs (Decidable (_ ∧ _))

theorem cString_of_notMem {buffer : List UInt8} (h : 0 ∉ buffer) : (cString buffer).val = buffer := by
  rw [cString, List.takeWhile_eq_self_iff]
  intro ch hch
  exact decide_eq_true fun hzero ↦ h (hzero ▸ hch)

section Strings

variable {quote ch c : UInt8} {str ptr : List UInt8}

theorem unescape_char (hquote : ch ≠ quote) (hbackslash : ch ≠ '\\'.toUInt8) :
    unescape quote str (ch :: ptr) = unescape quote (str ++ [ch]) ptr := by
  rw [unescape.eq_def]
  simp only [if_neg hquote, if_neg hbackslash]

theorem unescape_escaped (hquote : 92 ≠ quote) (h : escaped ch = some c) :
    unescape quote str ([92, ch] ++ ptr) = unescape quote (str ++ [c]) ptr := by
  rw [List.cons_append, List.cons_append, List.nil_append, unescape.eq_def]
  simp only [if_neg hquote, if_pos (show (92 : UInt8) = '\\'.toUInt8 by decide), h]

theorem unescape_unicode {a b c d : UInt8} {wchar : UInt16} (hquote : 92 ≠ quote)
    (h : unicodeChar 12 0 [a, b, c, d] = some wchar) :
    unescape quote str ([92, 117, a, b, c, d] ++ ptr) =
      unescape quote (str ++ (cString (wcharToUtf8 wchar)).val) ptr := by
  have hescaped : escaped 117 = none := by decide
  simp only [List.cons_append, List.nil_append]
  rw [unescape.eq_def]
  simp only [if_neg hquote, if_pos (show (92 : UInt8) = '\\'.toUInt8 by decide), hescaped,
    if_pos (show (117 : UInt8) = 'u'.toUInt8 by decide), h]

theorem unescape_quote : unescape quote str (quote :: ptr) = some str := by
  rw [unescape.eq_def]
  simp only [if_true]

end Strings

section Tokens

variable {t : Token} {l : List Token} {α : Type}

theorem result_pop (f : Option Token → Parser α) (t : Token) (l : List Token) :
    (qlistPop >>= f).result (t :: l) = (f (some t)).result l := rfl

theorem result_peek (f : Option Token → Parser α) (t : Token) (l : List Token) :
    (qlistPeek >>= f).result (t :: l) = (f (some t)).result (t :: l) := rfl

theorem tokenIsOperator_some (t : Token) (op : Char) :
    tokenIsOperator (some t) op = pure (decide (t.IsOperator op)) := by
  unfold tokenIsOperator tokenGetType tokenGetValue Token.IsOperator
  simp only [pure_bind]
  split_ifs with h
  · simp [h]
  · simp [h]

end Tokens

section Values

variable {δ : Type} {t : Token} {l : List Token} {strtod : List UInt8 → δ} {fuel : Nat}

theorem parseObject_none (h : ¬ t.IsOperator '\x7b') (value : Parser (QObject δ)) (fuel : Nat) (l : List Token) :
    (parseObject value fuel).result (t :: l) = .ok none := by
  rw [parseObject, result_pop, tokenIsOperator_some, pure_bind, if_neg (by simp [h])]
  rfl

theorem parseArray_none (h : ¬ t.IsOperator '[') (value : Parser (QObject δ)) (fuel : Nat) (l : List Token) :
    (parseArray value fuel).result (t :: l) = .ok none := by
  rw [parseArray, result_pop, tokenIsOperator_some, pure_bind, if_neg (by simp [h])]
  rfl

theorem parseValue_scalar (h : t.type ≠ .operator) (strtod : List UInt8 → δ) (fuel : Nat) (l : List Token) :
    (parseValue strtod (fuel + 1)).result (t :: l) = (parseKeyword <|> parseLiteral strtod).result (t :: l) := by
  have hop (op : Char) : ¬ t.IsOperator op := fun hop ↦ h hop.1
  rw [parseValue, result_orElse_none (parseObject_none (hop _) _ _ l),
    result_orElse_none (parseArray_none (hop _) _ _ l)]
  rfl

theorem parseKeyword_none (h : t.type ≠ .keyword) (l : List Token) :
    (parseKeyword : Parser (QObject δ)).result (t :: l) = .ok none := by
  rw [parseKeyword, result_pop]
  unfold tokenGetType
  rw [pure_bind, if_neg h]
  rfl

theorem parseValue_literal (h : t.type ≠ .operator) (h' : t.type ≠ .keyword) (strtod : List UInt8 → δ) (fuel : Nat)
    (l : List Token) :
    (parseValue strtod (fuel + 1)).result (t :: l) = (parseLiteral strtod).result (t :: l) :=
  (parseValue_scalar h strtod fuel l).trans (result_orElse_none (parseKeyword_none h' l))

theorem parseValue_string {str : List UInt8} (htype : t.type = .string)
    (hstr : qstringFromEscapedStr (cString t.token).val = some str) (strtod : List UInt8 → δ) (fuel : Nat)
    (l : List Token) :
    (parseValue strtod (fuel + 1)).result (t :: l) = .ok (some (.qstring str, l)) := by
  rw [parseValue_literal (by simp [htype]) (by simp [htype]), parseLiteral, result_pop]
  unfold tokenGetType tokenGetValue
  simp only [pure_bind, htype, hstr]
  rfl

theorem parseValue_integer (htype : t.type = .integer) (strtod : List UInt8 → δ) (fuel : Nat) (l : List Token) :
    (parseValue strtod (fuel + 1)).result (t :: l) =
      .ok (some (.qint (strtoll (cString t.token).val), l)) := by
  rw [parseValue_literal (by simp [htype]) (by simp [htype]), parseLiteral, result_pop]
  unfold tokenGetType tokenGetValue
  simp only [pure_bind, htype]
  rfl

theorem parseValue_keyword {b : Bool} (htype : t.type = .keyword)
    (hval : (cString t.token).val = ascii (if b then "true" else "false")) (strtod : List UInt8 → δ) (fuel : Nat)
    (l : List Token) :
    (parseValue strtod (fuel + 1)).result (t :: l) = .ok (some (.qbool b, l)) := by
  have hkeyword : (parseKeyword : Parser (QObject δ)).result (t :: l) = .ok (some (.qbool b, l)) := by
    rw [parseKeyword, result_pop]
    simp only [tokenIsKeyword, tokenGetType, tokenGetValue, pure_bind, htype, if_true, hval]
    cases b
    · rw [if_neg (by decide), if_pos (by decide)]
      rfl
    · rw [if_pos (by decide)]
      rfl
  rw [parseValue_scalar (by simp [htype]), result_orElse_some hkeyword]

end Values

end IDeviceEmulator.Json
