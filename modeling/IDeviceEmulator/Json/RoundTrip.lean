import IDeviceEmulator.Json.Safety
import IDeviceEmulator.Json.Trees

namespace IDeviceEmulator.Json

open Backtrack Qobject
open Qobject.Qdict (Key Fault bucketOf bucketOf_ok_iff)

variable {δ : Type}

section Streamer

variable {b k b' k' b'' k'' : Int} {l m : List Token} {t : Token}

theorem processTokens_append (parser : JSONMessageParser) (l m : List Token) :
    processTokens parser (l ++ m) = ((processTokens (processTokens parser l).1 m).1,
      (processTokens parser l).2 ++ (processTokens (processTokens parser l).1 m).2) := by
  induction l generalizing parser with
  | nil => rfl
  | cons t l ih => simp [processTokens, ih]

theorem ofInt_eq_zero_iff {z : Int} : Int32.ofInt z = 0 ↔ 2 ^ 32 ∣ z := by
  rw [← Int32.toInt_inj, Int32.toInt_ofInt, Int32.toInt_zero, ← Int.dvd_iff_bmod_eq_zero]
  rfl

/-- No token list is emitted, and the counters go from the first two numbers to the others. -/
def Quiet (b k b' k' : Int) (l : List Token) : Prop :=
  ∀ lexer tokens, processTokens ⟨lexer, Int32.ofInt b, Int32.ofInt k, tokens⟩ l =
    (⟨lexer, Int32.ofInt b', Int32.ofInt k', tokens ++ l⟩, [])

theorem quiet_nil : Quiet b k b k [] := by
  intro lexer tokens
  rw [List.append_nil]
  rfl

theorem Quiet.append (h : Quiet b k b' k' l) (h' : Quiet b' k' b'' k'' m) : Quiet b k b'' k'' (l ++ m) := by
  intro lexer tokens
  rw [processTokens_append, h, h', List.append_assoc]
  rfl

theorem quiet_token (hb : b + weight '\x7b' '\x7d' t = b') (hk : k + weight '[' ']' t = k')
    (hopen : ¬ (2 ^ 32 ∣ b' ∧ 2 ^ 32 ∣ k')) : Quiet b k b' k' [t] := by
  intro lexer tokens
  have hbrace : countBrace (Int32.ofInt b) t = Int32.ofInt b' := hb ▸ count_ofInt b t
  have hbracket : countBracket (Int32.ofInt k) t = Int32.ofInt k' := hk ▸ count_ofInt k t
  have hne : ¬ (Int32.ofInt b' = 0 ∧ Int32.ofInt k' = 0) := by rwa [ofInt_eq_zero_iff, ofInt_eq_zero_iff]
  simp only [processTokens, jsonMessageProcessToken, hbrace, hbracket, if_neg hne, List.append_nil]

theorem emits_token (hb : b + weight '\x7b' '\x7d' t = 0) (hk : k + weight '[' ']' t = 0) (lexer : JSONLexer)
    (tokens : List Token) :
    processTokens ⟨lexer, Int32.ofInt b, Int32.ofInt k, tokens⟩ [t] = (⟨lexer, 0, 0, []⟩, [tokens ++ [t]]) := by
  have hbrace : countBrace (Int32.ofInt b) t = 0 := (count_ofInt b t).trans (hb ▸ rfl)
  have hbracket : countBracket (Int32.ofInt k) t = 0 := (count_ofInt k t).trans (hk ▸ rfl)
  simp [processTokens, jsonMessageProcessToken, hbrace, hbracket]

-- Between the brackets of a container the counters do not change from entry to entry.
theorem quiet_loop {α : Type} {tokens : α → List Token} {joined : Bool → List α → List Token}
    (hnone : ∀ first, joined first [] = [])
    (hsome : ∀ first x l, joined first (x :: l) = comma first ++ tokens x ++ joined false l)
    (hopen : ¬ (2 ^ 32 ∣ b ∧ 2 ^ 32 ∣ k)) {l : List α} (h : ∀ x ∈ l, Quiet b k b k (tokens x)) (first : Bool) :
    Quiet b k b k (joined first l) := by
  induction l generalizing first with
  | nil =>
    rw [hnone]
    exact quiet_nil
  | cons x l ih =>
    have hcomma : Quiet b k b k (comma first) := by
      cases first
      · exact quiet_token (Int.add_zero b) (Int.add_zero k) hopen
      · exact quiet_nil
    rw [hsome]
    exact (hcomma.append (h x List.mem_cons_self)).append (ih (fun y hy ↦ h y (List.mem_cons_of_mem x hy)) false)

end Streamer

section Emission

/-- A token that opens or closes nothing. -/
theorem quiet_scalar {b k : Int} {t : Token} (ht : t.type ≠ .operator) (hopen : ¬ (2 ^ 32 ∣ b ∧ 2 ^ 32 ∣ k)) :
    Quiet b k b k [t] := by
  refine quiet_token ?_ ?_ hopen
  · rw [weight_of_ne ht, Int.add_zero]
  · rw [weight_of_ne ht, Int.add_zero]

theorem dvd_cast {m n : Nat} (h : ¬ (2 ^ 32 ∣ m ∧ 2 ^ 32 ∣ n)) : ¬ ((2 ^ 32 : Int) ∣ m ∧ (2 ^ 32 : Int) ∣ n) := by
  intro hdvd
  exact h ⟨Int.natCast_dvd_natCast.mp hdvd.1, Int.natCast_dvd_natCast.mp hdvd.2⟩

theorem quiet_list {l : List (QObject δ)} {dicts lists : Nat} (hopen : ¬ (2 ^ 32 ∣ dicts ∧ 2 ^ 32 ∣ lists + 1))
    (h : ∀ x ∈ l, Quiet dicts (lists + 1 : Nat) dicts (lists + 1 : Nat) (tokensOf x)) :
    Quiet dicts lists dicts (lists + 1 : Nat) (operator 91 :: itemTokens true l) := by
  have hfirst : Quiet dicts lists dicts (lists + 1 : Nat) [operator 91] :=
    quiet_token (Int.add_zero _) rfl (dvd_cast hopen)
  exact hfirst.append (quiet_loop (fun _ ↦ by rw [itemTokens]) itemTokens_cons (dvd_cast hopen) h true)

theorem quiet_dict {e : List (Key × QObject δ)} {dicts lists : Nat} (hopen : ¬ (2 ^ 32 ∣ dicts + 1 ∧ 2 ^ 32 ∣ lists))
    (h : ∀ x ∈ e, Quiet (dicts + 1 : Nat) lists (dicts + 1 : Nat) lists (tokensOf x.2)) :
    Quiet dicts lists (dicts + 1 : Nat) lists (operator 123 :: entryTokens true e) := by
  have hfirst : Quiet dicts lists (dicts + 1 : Nat) lists [operator 123] :=
    quiet_token rfl (Int.add_zero _) (dvd_cast hopen)
  have hpair : ∀ x ∈ e, Quiet (dicts + 1 : Nat) lists (dicts + 1 : Nat) lists (pairTokens x) := by
    intro x hx
    have hkey : Quiet (dicts + 1 : Nat) lists (dicts + 1 : Nat) lists [stringToken x.1.val] :=
      quiet_scalar nofun (dvd_cast hopen)
    have hcolon : Quiet (dicts + 1 : Nat) lists (dicts + 1 : Nat) lists [operator 58] :=
      quiet_token (Int.add_zero _) (Int.add_zero _) (dvd_cast hopen)
    exact (hkey.append hcolon).append (h x hx)
  exact hfirst.append (quiet_loop (fun _ ↦ by rw [entryTokens]) entryTokens_cons (dvd_cast hopen) hpair true)

theorem quiet_tokensOf {o : QObject δ} {dicts lists : Nat} (hapart : Apart dicts lists o)
    (hopen : ¬ (2 ^ 32 ∣ dicts ∧ 2 ^ 32 ∣ lists)) : Quiet dicts lists dicts lists (tokensOf o) := by
  induction o using QObject.induct generalizing dicts lists with
  | qint v => exact quiet_scalar nofun (dvd_cast hopen)
  | qbool b => exact quiet_scalar nofun (dvd_cast hopen)
  | qstring s => exact quiet_scalar nofun (dvd_cast hopen)
  | qfloat x => exact quiet_nil
  | qlist l ih =>
    have hitems := quiet_list hapart.1 fun x hx ↦ ih x hx (apartItems_iff.mp hapart.2 x hx) hapart.1
    have hclose : ((lists + 1 : Nat) : Int) + weight '[' ']' (operator 93) = lists := by
      change ((lists + 1 : Nat) : Int) + -1 = lists
      omega
    exact hitems.append (quiet_token (Int.add_zero _) hclose (dvd_cast hopen))
  | qdict e ih =>
    have hitems := quiet_dict hapart.1 fun x hx ↦ ih x hx (apartEntries_iff.mp hapart.2 x hx) hapart.1
    have hclose : ((dicts + 1 : Nat) : Int) + weight '\x7b' '\x7d' (operator 125) = dicts := by
      change ((dicts + 1 : Nat) : Int) + -1 = dicts
      omega
    exact hitems.append (quiet_token hclose (Int.add_zero _) (dvd_cast hopen))

theorem Quiet.emits {b k : Int} {l : List Token} {t : Token} (h : Quiet 0 0 b k l)
    (hb : b + weight '\x7b' '\x7d' t = 0) (hk : k + weight '[' ']' t = 0) (lexer : JSONLexer) :
    processTokens ⟨lexer, 0, 0, []⟩ (l ++ [t]) = (⟨lexer, 0, 0, []⟩, [l ++ [t]]) := by
  have hquiet : processTokens ⟨lexer, 0, 0, []⟩ l = (⟨lexer, Int32.ofInt b, Int32.ofInt k, [] ++ l⟩, []) := h lexer []
  rw [processTokens_append, hquiet, List.nil_append, emits_token hb hk]
  rfl

/-- The tokens of a tree that fits are emitted together. -/
theorem emits_tokensOf {o : QObject δ} (hplain : Plain o) (hapart : Apart 0 0 o) (lexer : JSONLexer) :
    processTokens ⟨lexer, 0, 0, []⟩ (tokensOf o) = (⟨lexer, 0, 0, []⟩, [tokensOf o]) := by
  have hscalar (t : Token) (ht : t.type ≠ .operator) :
      processTokens ⟨lexer, 0, 0, []⟩ [t] = (⟨lexer, 0, 0, []⟩, [[t]]) :=
    quiet_nil.emits (by rw [weight_of_ne ht]; rfl) (by rw [weight_of_ne ht]; rfl) lexer
  cases o with
  | qint v => exact hscalar _ nofun
  | qbool b => exact hscalar _ nofun
  | qstring s => exact hscalar _ nofun
  | qfloat x => exact hplain.elim
  | qlist l =>
    have hitems := quiet_list hapart.1 fun x hx ↦ quiet_tokensOf (apartItems_iff.mp hapart.2 x hx) hapart.1
    exact hitems.emits rfl rfl lexer
  | qdict e =>
    have hitems := quiet_dict hapart.1 fun x hx ↦ quiet_tokensOf (apartEntries_iff.mp hapart.2 x hx) hapart.1
    exact hitems.emits rfl rfl lexer

end Emission

section Parsing

variable {strtod : List UInt8 → δ}

theorem insertEntry_perm {ν : Type} (bucket : Qdict.Bucket) (entry : Key × ν) (l : List (Key × ν)) :
    (insertEntry bucket entry l).Perm (entry :: l) := by
  induction l with
  | nil => exact .refl _
  | cons e l ih =>
    unfold insertEntry
    split
    · split_ifs
      · exact .refl _
      · exact (ih.cons e).trans (.swap _ _ _)
    · exact .refl _

theorem put_fresh {dict : List (Key × QObject δ)} {key : Key} (hkey : key.val.length < 2 ^ 32)
    (hfresh : key ∉ dict.map Prod.fst) (obj : QObject δ) (l : List Token) :
    ∃ dict', (put dict key obj).result l = .ok (some (dict', l)) ∧ dict'.Perm ((key, obj) :: dict) := by
  obtain ⟨bucket, hbucket⟩ := bucketOf_ok_iff.mpr hkey
  refine ⟨insertEntry bucket (key, obj) dict, ?_, insertEntry_perm bucket (key, obj) dict⟩
  rw [put, qdictPutObj, hbucket]
  simp only [Except.map, if_neg hfresh]
  rfl

/-- The tokens in front of the others are parsed as an object that is equal to this one. -/
def ParsesAs (value : Parser (QObject δ)) (tokens : List Token) (o : QObject δ) : Prop :=
  ∀ rest, ∃ o', Same o o' ∧ value.result (tokens ++ rest) = .ok (some (o', rest))

theorem tokensOf_head {o : QObject δ} (h : Plain o) :
    ∃ t r, tokensOf o = t :: r ∧ ¬ t.IsOperator ']' ∧ ¬ t.IsOperator '\x7d' := by
  have hscalar (t : Token) (ht : t.type ≠ .operator) :
      ∃ t' r, [t] = t' :: r ∧ ¬ t'.IsOperator ']' ∧ ¬ t'.IsOperator '\x7d' :=
    ⟨t, [], rfl, fun hop ↦ ht hop.1, fun hop ↦ ht hop.1⟩
  cases o with
  | qint v => exact hscalar _ nofun
  | qbool b => exact hscalar _ nofun
  | qstring s => exact hscalar _ nofun
  | qfloat x => exact h.elim
  | qlist l => exact ⟨_, _, rfl, by decide, by decide⟩
  | qdict e => exact ⟨_, _, rfl, by decide, by decide⟩

variable {value : Parser (QObject δ)} {fuel : Nat}

theorem parseItems_result {l : List (QObject δ)} (h : ∀ x ∈ l, ParsesAs value (tokensOf x) x)
    (list : List (QObject δ)) (hfuel : l.length < fuel) (rest : List Token) :
    ∃ t r l', itemTokens false l ++ operator 93 :: rest = t :: r ∧ SameItems l l' ∧
      (parseItems value list (some t) fuel).result r = .ok (some (list ++ l', rest)) := by
  induction l generalizing list fuel with
  | nil =>
    obtain ⟨n, rfl⟩ := Nat.exists_eq_succ_of_ne_zero (Nat.ne_of_gt hfuel)
    refine ⟨operator 93, rest, [], rfl, rfl, ?_⟩
    rw [parseItems, tokenIsOperator_some, pure_bind, if_pos (by decide), List.append_nil]
    rfl
  | cons x l ih =>
    obtain ⟨n, rfl⟩ := Nat.exists_eq_succ_of_ne_zero (Nat.ne_of_gt (Nat.lt_of_le_of_lt (Nat.zero_le _) hfuel))
    obtain ⟨x', hx', hvalue⟩ := h x List.mem_cons_self (itemTokens false l ++ operator 93 :: rest)
    obtain ⟨t, r, l', htokens, hsame, hresult⟩ := ih (fun y hy ↦ h y (List.mem_cons_of_mem x hy)) (list ++ [x'])
      (Nat.lt_of_succ_lt_succ hfuel)
    refine ⟨operator 44, tokensOf x ++ (itemTokens false l ++ operator 93 :: rest), x' :: l', ?_, ?_, ?_⟩
    · simp [itemTokens, comma]
    · exact ⟨x', l', rfl, hx', hsame⟩
    · rw [parseItems, tokenIsOperator_some, pure_bind, if_neg (by decide), tokenIsOperator_some, pure_bind,
        if_pos (by decide), result_bind_some hvalue, htokens, result_pop, hresult, List.append_assoc]
      rfl

theorem parseArray_result {l : List (QObject δ)} (h : ∀ x ∈ l, ParsesAs value (tokensOf x) x)
    (hplain : ∀ x ∈ l, Plain x)
    (hfuel : l.length ≤ fuel) : ParsesAs (parseArray value fuel) (tokensOf (.qlist l)) (.qlist l) := by
  intro rest
  have htokens : tokensOf (.qlist l) ++ rest = operator 91 :: (itemTokens true l ++ operator 93 :: rest) := by
    simp [tokensOf]
  rw [htokens, parseArray, result_pop, tokenIsOperator_some, pure_bind, if_pos (by decide)]
  cases l with
  | nil => exact ⟨.qlist [], ⟨[], rfl, rfl⟩, rfl⟩
  | cons x l =>
    obtain ⟨t, r, hx, hne, -⟩ := tokensOf_head (hplain x List.mem_cons_self)
    obtain ⟨x', hx', hvalue⟩ := h x List.mem_cons_self (itemTokens false l ++ operator 93 :: rest)
    obtain ⟨t', r', l', htokens, hsame, hresult⟩ :=
      parseItems_result (fun y hy ↦ h y (List.mem_cons_of_mem x hy)) [x'] hfuel rest
    have hfirst : itemTokens true (x :: l) ++ operator 93 :: rest =
        t :: (r ++ (itemTokens false l ++ operator 93 :: rest)) := by
      simp [itemTokens, comma, hx]
    rw [hx] at hvalue
    refine ⟨.qlist (x' :: l'), ⟨x' :: l', rfl, x', l', rfl, hx', hsame⟩, ?_⟩
    rw [hfirst, result_peek, tokenIsOperator_some, pure_bind, if_neg (by simp [hne]), ← List.cons_append,
      result_bind_some hvalue, htokens, result_pop, result_bind_some hresult]
    rfl

theorem parse_stringToken {s : List UInt8} (h : Utf8 s) (strtod : List UInt8 → δ) (fuel : Nat) (rest : List Token) :
    (parseValue strtod (fuel + 1)).result (stringToken s :: rest) = .ok (some (.qstring s, rest)) := by
  refine parseValue_string rfl ?_ strtod fuel rest
  have htext : (cString (stringToken s).token).val = 34 :: (escapeFrom 0 s ++ [34]) := by
    rw [stringToken, cString_of_notMem (prints_toJsonString h).noZero, toJsonString, cString_of_notMem h.noZero]
    rfl
  rw [htext, qstringFromEscapedStr, if_pos (by decide)]
  change unescape 34 [] _ = _
  rw [(escapes_escapeFrom h).unescape_eq, unescape_quote]
  rfl

/-- The token of a key is parsed as the key. -/
def ParsesKeys (value : Parser (QObject δ)) (e : List (Key × QObject δ)) : Prop :=
  ∀ x ∈ e, ∀ rest, value.result (stringToken x.1.val :: rest) = .ok (some (.qstring x.1.val, rest))

theorem parsePair_result {x : Key × QObject δ} (hvalue : ParsesAs value (tokensOf x.2) x.2)
    (hkey : ∀ rest, value.result (stringToken x.1.val :: rest) = .ok (some (.qstring x.1.val, rest)))
    (hshort : x.1.val.length < 2 ^ 32) {dict : List (Key × QObject δ)} (hfresh : x.1 ∉ dict.map Prod.fst)
    (rest : List Token) :
    ∃ x' dict', Same x.2 x' ∧ dict'.Perm ((x.1, x') :: dict) ∧
      (parsePair value dict).result (pairTokens x ++ rest) = .ok (some (dict', rest)) := by
  obtain ⟨x', hx', hresult⟩ := hvalue rest
  obtain ⟨dict', hput, hperm⟩ := put_fresh hshort hfresh x' rest
  have hkeyval : cString x.1.val = x.1 := Subtype.ext (cString_of_notMem x.1.property)
  refine ⟨x', dict', hx', hperm, ?_⟩
  rw [pairTokens, List.cons_append, List.cons_append, parsePair, result_bind_some (hkey _)]
  dsimp only
  rw [result_pop, tokenIsOperator_some, pure_bind, if_pos (by decide), result_bind_some hresult, hkeyval, hput]

theorem not_mem_of_nodup {x : Key × QObject δ} {e dict : List (Key × QObject δ)}
    (h : ((x :: e).map Prod.fst ++ dict.map Prod.fst).Nodup) : x.1 ∉ dict.map Prod.fst := by
  intro hx
  exact (List.nodup_cons.mp h).1 (List.mem_append_right _ hx)

theorem nodup_of_perm {x : Key × QObject δ} {x' : QObject δ} {e dict dict' : List (Key × QObject δ)}
    (h : ((x :: e).map Prod.fst ++ dict.map Prod.fst).Nodup) (hperm : dict'.Perm ((x.1, x') :: dict)) :
    (e.map Prod.fst ++ dict'.map Prod.fst).Nodup := by
  have hkeys : (e.map Prod.fst ++ dict'.map Prod.fst).Perm ((x :: e).map Prod.fst ++ dict.map Prod.fst) :=
    ((hperm.map Prod.fst).append_left _).trans List.perm_middle
  exact hkeys.nodup_iff.mpr h

theorem parsePairs_result {e : List (Key × QObject δ)} (h : ∀ x ∈ e, ParsesAs value (tokensOf x.2) x.2)
    (hkeys : ParsesKeys value e) (hshort : ∀ x ∈ e, x.1.val.length < 2 ^ 32) {dict : List (Key × QObject δ)}
    (hfresh : (e.map Prod.fst ++ dict.map Prod.fst).Nodup) (hfuel : e.length < fuel) (rest : List Token) :
    ∃ t r e' dict', entryTokens false e ++ operator 125 :: rest = t :: r ∧ SamePairs e e' ∧
      dict'.Perm (e' ++ dict) ∧ (parsePairs value dict (some t) fuel).result r = .ok (some (dict', rest)) := by
  induction e generalizing dict fuel with
  | nil =>
    obtain ⟨n, rfl⟩ := Nat.exists_eq_succ_of_ne_zero (Nat.ne_of_gt hfuel)
    refine ⟨operator 125, rest, [], dict, rfl, .nil, .refl _, ?_⟩
    rw [parsePairs, tokenIsOperator_some, pure_bind, if_pos (by decide)]
    rfl
  | cons x e ih =>
    obtain ⟨n, rfl⟩ := Nat.exists_eq_succ_of_ne_zero (Nat.ne_of_gt (Nat.lt_of_le_of_lt (Nat.zero_le _) hfuel))
    obtain ⟨x', dict₁, hx', hperm, hpair⟩ := parsePair_result (h x List.mem_cons_self) (hkeys x List.mem_cons_self)
      (hshort x List.mem_cons_self) (not_mem_of_nodup hfresh) (entryTokens false e ++ operator 125 :: rest)
    obtain ⟨t, r, e', dict', htokens, hsame, hperm', hresult⟩ := ih (fun y hy ↦ h y (List.mem_cons_of_mem x hy))
      (fun y hy ↦ hkeys y (List.mem_cons_of_mem x hy)) (fun y hy ↦ hshort y (List.mem_cons_of_mem x hy))
      (nodup_of_perm hfresh hperm) (Nat.lt_of_succ_lt_succ hfuel)
    refine ⟨operator 44, pairTokens x ++ (entryTokens false e ++ operator 125 :: rest), (x.1, x') :: e', dict', ?_,
      .cons ⟨rfl, hx'⟩ hsame, ?_, ?_⟩
    · rw [entryTokens_cons]
      simp [comma]
    · refine hperm'.trans ((hperm.append_left e').trans ?_)
      exact List.perm_middle
    · rw [parsePairs, tokenIsOperator_some, pure_bind, if_neg (by decide), tokenIsOperator_some, pure_bind,
        if_pos (by decide), result_bind_some hpair, htokens, result_pop, hresult]

theorem parseObject_result {e : List (Key × QObject δ)} (h : ∀ x ∈ e, ParsesAs value (tokensOf x.2) x.2)
    (hkeys : ParsesKeys value e) (hshort : ∀ x ∈ e, x.1.val.length < 2 ^ 32) (hnodup : (e.map Prod.fst).Nodup)
    (hfuel : e.length ≤ fuel) : ParsesAs (parseObject value fuel) (tokensOf (.qdict e)) (.qdict e) := by
  intro rest
  have htokens : tokensOf (.qdict e) ++ rest = operator 123 :: (entryTokens true e ++ operator 125 :: rest) := by
    simp [tokensOf]
  rw [htokens, parseObject, result_pop, tokenIsOperator_some, pure_bind, if_pos (by decide)]
  cases e with
  | nil => exact ⟨.qdict [], same_of_pairs .nil (.refl _), rfl⟩
  | cons x e =>
    have hempty : x.1 ∉ ([] : List (Key × QObject δ)).map Prod.fst := List.not_mem_nil
    obtain ⟨x', dict₁, hx', hperm, hpair⟩ := parsePair_result (h x List.mem_cons_self) (hkeys x List.mem_cons_self)
      (hshort x List.mem_cons_self) hempty (entryTokens false e ++ operator 125 :: rest)
    have hfresh : ((x :: e).map Prod.fst ++ ([] : List (Key × QObject δ)).map Prod.fst).Nodup := by simpa using hnodup
    obtain ⟨t, r, e', dict', htokens, hsame, hperm', hresult⟩ :=
      parsePairs_result (fun y hy ↦ h y (List.mem_cons_of_mem x hy)) (fun y hy ↦ hkeys y (List.mem_cons_of_mem x hy))
        (fun y hy ↦ hshort y (List.mem_cons_of_mem x hy)) (nodup_of_perm hfresh hperm) hfuel rest
    have hfirst : entryTokens true (x :: e) ++ operator 125 :: rest =
        pairTokens x ++ (entryTokens false e ++ operator 125 :: rest) := by
      rw [entryTokens_cons]
      simp [comma]
    have hstring : ¬ (stringToken x.1.val).IsOperator '\x7d' := fun h ↦ absurd h.1 (by simp [stringToken])
    have hpairs : SamePairs (x :: e) ((x.1, x') :: e') := .cons ⟨rfl, hx'⟩ hsame
    have hdict : dict'.Perm ((x.1, x') :: e') := by
      have hmiddle := hperm'.trans ((hperm.append_left e').trans List.perm_middle)
      rwa [List.append_nil] at hmiddle
    refine ⟨.qdict dict', same_of_pairs hpairs hdict, ?_⟩
    · rw [pairTokens, List.cons_append] at hfirst hpair
      rw [hfirst, result_peek, tokenIsOperator_some, pure_bind, if_neg (by simp [hstring]), result_bind_some hpair,
        htokens, result_pop, result_bind_some hresult]
      rfl

theorem tokensOf_ne_nil {o : QObject δ} (h : Plain o) : tokensOf o ≠ [] := by
  obtain ⟨t, r, htokens, -⟩ := tokensOf_head h
  rw [htokens]
  exact List.cons_ne_nil t r

theorem length_joined {α : Type} {tokens : α → List Token} {joined : Bool → List α → List Token}
    (hsome : ∀ first x l, joined first (x :: l) = comma first ++ tokens x ++ joined false l) {l : List α}
    (hne : ∀ x ∈ l, tokens x ≠ []) (first : Bool) :
    l.length ≤ (joined first l).length ∧ ∀ x ∈ l, (tokens x).length ≤ (joined first l).length := by
  induction l generalizing first with
  | nil => exact ⟨Nat.zero_le _, nofun⟩
  | cons x l ih =>
    obtain ⟨hlength, hmem⟩ := ih (fun y hy ↦ hne y (List.mem_cons_of_mem x hy)) false
    have hpos := List.length_pos_of_ne_nil (hne x List.mem_cons_self)
    rw [hsome, List.length_append, List.length_append, List.length_cons]
    refine ⟨by omega, ?_⟩
    intro y hy
    rcases List.mem_cons.mp hy with rfl | hy
    · omega
    · have hle := hmem y hy
      omega

/-- The tokens of a tree are parsed as the tree. -/
theorem parseValue_tokensOf {o : QObject δ} (h : Plain o) (strtod : List UInt8 → δ) {fuel : Nat}
    (hfuel : (tokensOf o).length ≤ fuel) : ParsesAs (parseValue strtod fuel) (tokensOf o) o := by
  induction o using QObject.induct generalizing fuel with
  | qint v =>
    obtain ⟨n, rfl⟩ := Nat.exists_eq_succ_of_ne_zero (Nat.ne_of_gt hfuel)
    intro rest
    refine ⟨.qint v, rfl, ?_⟩
    have hval : strtoll (cString (toJsonInt v)).val = v := by
      rw [cString_of_notMem (notMem_toJsonInt v), strtoll_toJsonInt]
    exact (parseValue_integer rfl strtod n rest).trans (by rw [hval])
  | qbool b =>
    obtain ⟨n, rfl⟩ := Nat.exists_eq_succ_of_ne_zero (Nat.ne_of_gt hfuel)
    intro rest
    refine ⟨.qbool b, rfl, parseValue_keyword rfl ?_ strtod n rest⟩
    exact cString_of_notMem (prints_toJsonBool b).noZero
  | qstring s =>
    obtain ⟨n, rfl⟩ := Nat.exists_eq_succ_of_ne_zero (Nat.ne_of_gt hfuel)
    intro rest
    exact ⟨.qstring s, rfl, parse_stringToken h strtod n rest⟩
  | qfloat x => exact h.elim
  | qlist l ih =>
    have hplain := plainItems_iff.mp h
    obtain ⟨hcount, hitem⟩ : l.length ≤ (itemTokens true l).length ∧
        ∀ x ∈ l, (tokensOf x).length ≤ (itemTokens true l).length :=
      length_joined itemTokens_cons (fun x hx ↦ tokensOf_ne_nil (hplain x hx)) true
    rw [tokensOf, List.length_append, List.length_cons] at hfuel
    obtain ⟨n, rfl⟩ : ∃ n, fuel = n + 1 := ⟨fuel - 1, by omega⟩
    have hn : (itemTokens true l).length ≤ n := by omega
    intro rest
    obtain ⟨o', hsame, hresult⟩ := parseArray_result
      (fun x hx ↦ ih x hx (hplain x hx) ((hitem x hx).trans hn)) hplain (hcount.trans hn) rest
    refine ⟨o', hsame, ?_⟩
    rw [tokensOf, List.append_assoc, List.cons_append] at hresult ⊢
    rw [parseValue, result_orElse_none (parseObject_none (by decide) _ _ _)]
    exact result_orElse_some hresult
  | qdict e ih =>
    have hplain := plainEntries_iff.mp h.2
    obtain ⟨hcount, hpair⟩ : e.length ≤ (entryTokens true e).length ∧
        ∀ x ∈ e, (pairTokens x).length ≤ (entryTokens true e).length :=
      length_joined entryTokens_cons (fun x _ ↦ List.cons_ne_nil _ _) true
    rw [tokensOf, List.length_append, List.length_cons] at hfuel
    obtain ⟨n, rfl⟩ : ∃ n, fuel = n + 2 := ⟨fuel - 2, by rw [List.length_singleton] at hfuel; omega⟩
    have hn : (entryTokens true e).length ≤ n := by
      rw [List.length_singleton] at hfuel
      omega
    have hvalue (x : Key × QObject δ) (hx : x ∈ e) : ParsesAs (parseValue strtod (n + 1)) (tokensOf x.2) x.2 := by
      have hlength := (hpair x hx).trans hn
      rw [pairTokens, List.length_cons, List.length_cons] at hlength
      exact ih x hx (hplain x hx).2 (by omega)
    intro rest
    obtain ⟨o', hsame, hresult⟩ := parseObject_result hvalue (fun x hx ↦ parse_stringToken (hplain x hx).1.1 strtod n)
      (fun x hx ↦ (hplain x hx).1.2) h.1 (hcount.trans (hn.trans (Nat.le_succ n))) rest
    exact ⟨o', hsame, result_orElse_some hresult⟩

end Parsing

section Text

-- The streamer does not look at the lexer.
theorem processTokens_lexer (parser : JSONMessageParser) (lexer : JSONLexer) (tokens : List Token) :
    processTokens { parser with lexer := lexer } tokens =
      ({ (processTokens parser tokens).1 with lexer := lexer }, (processTokens parser tokens).2) := by
  induction tokens generalizing parser with
  | nil => rfl
  | cons t tokens ih =>
    have hfirst : jsonMessageProcessToken { parser with lexer := lexer } t =
        ({ (jsonMessageProcessToken parser t).1 with lexer := lexer }, (jsonMessageProcessToken parser t).2) := by
      unfold jsonMessageProcessToken
      dsimp only
      split_ifs <;> rfl
    simp [processTokens, hfirst, ih]

theorem flush_between {x : JSONLexer} (h : Between x) : (jsonLexerFlush x).tokens = pending x := by
  obtain ⟨s, token⟩ := x
  unfold jsonLexerFlush
  split_ifs with hs
  · change s = .inStart at hs
    subst hs
    rfl
  · have hzero : (jsonLexerFeedChar jsonLexerInit 0).tokens = [] := by decide
    rcases h with h | h
    · cases h
      exact absurd rfl hs
    · rcases skip_or_token h with hw | ⟨type, htype⟩
      · change s = .inWhitespace at hw
        subst hw
        have hcell : jsonLexer .inWhitespace 0 = .skip := by decide
        rw [feedChar_skip hcell hcell, hzero]
        rfl
      · change jsonLexer s 0 = .token type at htype
        rw [feedChar_lookahead htype htype, hzero, pending_of_token htype]

/-- All token lists that a text leads to, fed and flushed. -/
theorem emitted_of_feed (text : List UInt8) :
    (jsonMessageParserFeed jsonMessageParserInit text).emitted ++
      (jsonMessageParserFlush (jsonMessageParserFeed jsonMessageParserInit text).parser).emitted =
      (processTokens jsonMessageParserInit ((jsonLexerFeed jsonLexerInit text).tokens ++
        (jsonLexerFlush (jsonLexerFeed jsonLexerInit text).lexer).tokens)).2 := by
  generalize hfed : jsonLexerFeed jsonLexerInit text = fed
  have hfeed : jsonMessageParserFeed jsonMessageParserInit text =
      ⟨{ (processTokens jsonMessageParserInit fed.tokens).1 with lexer := fed.lexer },
        (processTokens jsonMessageParserInit fed.tokens).2, fed.failed⟩ := by
    have hlexer := processTokens_lexer jsonMessageParserInit fed.lexer fed.tokens
    rw [jsonMessageParserFeed, show jsonLexerFeed jsonMessageParserInit.lexer text = fed from hfed,
      JSONMessageParser.receive]
    dsimp only
    rw [hlexer]
  have hflush : (jsonMessageParserFlush
      { (processTokens jsonMessageParserInit fed.tokens).1 with lexer := fed.lexer }).emitted =
      (processTokens (processTokens jsonMessageParserInit fed.tokens).1 (jsonLexerFlush fed.lexer).tokens).2 := by
    have hlexer := processTokens_lexer (processTokens jsonMessageParserInit fed.tokens).1
      (jsonLexerFlush fed.lexer).lexer (jsonLexerFlush fed.lexer).tokens
    have hemitted := congrArg Prod.snd hlexer
    exact hemitted
  rw [hfeed, hflush, processTokens_append]

theorem emitted_of_piece {text : List UInt8} {tokens : List Token} (h : Piece false text tokens) :
    (jsonMessageParserFeed jsonMessageParserInit text).emitted ++
      (jsonMessageParserFlush (jsonMessageParserFeed jsonMessageParserInit text).parser).emitted =
      (processTokens jsonMessageParserInit tokens).2 := by
  obtain ⟨y, k, hlexes, hy, htokens, -⟩ := h jsonLexerInit (.inl rfl) (fun hne ↦ absurd rfl hne)
  rw [pending_init, List.nil_append] at htokens
  rw [emitted_of_feed, hlexes.feed]
  dsimp only
  rw [flush_between hy, htokens]

theorem qobjectFromJson_of_piece {text : List UInt8} {tokens : List Token} (h : Prints false text tokens)
    (strtod : List UInt8 → δ) :
    qobjectFromJson strtod text = parseJson strtod none (processTokens jsonMessageParserInit tokens).2 := by
  rw [← emitted_of_piece h.piece, qobjectFromJson, cString_of_notMem h.noZero]

end Text

section RoundTrips

variable (strtod : List UInt8 → δ) (format : δ → List UInt8)

/-- What is printed is read back as an object that is equal. -/
def RoundTrips (print : QObject δ → Option (List UInt8)) (o : QObject δ) : Prop :=
  ∃ text o', print o = some text ∧ qobjectFromJson strtod text = .ok (some o') ∧ Same o o'

theorem roundTrips_of_fits {o : QObject δ} (hplain : Plain o) (hfits : Fits o) (pretty : Bool) :
    RoundTrips strtod (toJson format pretty 0) o := by
  obtain ⟨text, htext, hprints⟩ := prints_toJson hplain hfits.1 format pretty 0
  obtain ⟨o', hsame, hresult⟩ :=
    parseValue_tokensOf hplain strtod (Nat.le_succ (tokensOf o).length) []
  have hemitted : (processTokens jsonMessageParserInit (tokensOf o)).2 = [tokensOf o] :=
    congrArg Prod.snd (emits_tokensOf hplain hfits.2 jsonLexerInit)
  have hparse : jsonParserParse strtod (tokensOf o) = .ok (some o') := by
    rw [List.append_nil] at hresult
    rw [jsonParserParse, hresult]
    rfl
  refine ⟨text, o', htext, ?_, hsame⟩
  rw [qobjectFromJson_of_piece hprints, hemitted, parseJson, hparse]
  rfl

end RoundTrips

end IDeviceEmulator.Json
