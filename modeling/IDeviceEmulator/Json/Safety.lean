import Mathlib.Algebra.Ring.Int.Defs
import IDeviceEmulator.Json.Lexing
import IDeviceEmulator.Json.Parsing
import IDeviceEmulator.Json.Streamer

namespace IDeviceEmulator.Json

open Backtrack Qobject
open Qobject.Qdict (Key bucketOf bucketOf_ok_iff)

inductive Call
  | feed (buffer : List UInt8)
  | flush

def JSONMessageParser.call (parser : JSONMessageParser) : Call → Returned
  | .feed buffer => jsonMessageParserFeed parser buffer
  | .flush => jsonMessageParserFlush parser

/-- The token lists that a sequence of calls emits. -/
def emissions (parser : JSONMessageParser) : List Call → List (List Token)
  | [] => []
  | c :: calls => (parser.call c).emitted ++ emissions (parser.call c).parser calls

/-- What a token adds to the exact number of containers that are open. -/
def weight (opening closing : Char) (token : Token) : Int :=
  if token.type = .operator then
    if token.token.head? = some opening.toUInt8 then 1
    else if token.token.head? = some closing.toUInt8 then -1
    else 0
  else 0

def nesting (opening closing : Char) (tokens : List Token) : Int :=
  (tokens.map (weight opening closing)).sum

def braces : List Token → Int := nesting '\x7b' '\x7d'

def brackets : List Token → Int := nesting '[' ']'

/-- The two counters stay in the range of their type. -/
def Counted (tokens : List Token) : Prop :=
  ∀ part, part <+: tokens → (-2 ^ 31 ≤ braces part ∧ braces part < 2 ^ 31) ∧
    -2 ^ 31 ≤ brackets part ∧ brackets part < 2 ^ 31

inductive Container
  | object
  | array
deriving DecidableEq

/-- The containers that are open behind a token, the innermost first. -/
def enclose (opened : List Container) (token : Token) : List Container :=
  if token.IsOperator '\x7b' then .object :: opened
  else if token.IsOperator '[' then .array :: opened
  else if token.IsOperator '\x7d' ∨ token.IsOperator ']' then opened.tail
  else opened

/-- A string in front of a colon is, in an object, a key that can be put into a dictionary. -/
def ShortKeys (opened : List Container) (tokens : List Token) : Prop :=
  ∀ before key colon after, before ++ key :: colon :: after = tokens →
    (before.foldl enclose opened).head? = some .object → key.type = .string → colon.IsOperator ':' →
      ∀ str, qstringFromEscapedStr (cString key.token).val = some str → (cString str).val.length < 2 ^ 32

section Counters

variable {opening closing : Char}

theorem nesting_snoc (l : List Token) (t : Token) :
    nesting opening closing (l ++ [t]) = nesting opening closing l + weight opening closing t := by
  simp [nesting]

theorem nesting_cons (t : Token) (l : List Token) :
    nesting opening closing (t :: l) = weight opening closing t + nesting opening closing l := by
  simp [nesting]

theorem count_ofInt (z : Int) (t : Token) :
    count opening closing (Int32.ofInt z) t = Int32.ofInt (z + weight opening closing t) := by
  unfold count weight
  split_ifs
  · rw [Int32.ofInt_add]
    rfl
  · rw [Int32.sub_eq_add_neg, Int32.ofInt_add]
    rfl
  · rw [Int.add_zero]
  · rw [Int.add_zero]

theorem eq_zero_of_ofInt {z : Int} (h : Int32.ofInt z = 0) (hlow : -2 ^ 31 ≤ z) (hhigh : z < 2 ^ 31) : z = 0 := by
  have hz := congrArg Int32.toInt h
  rwa [Int32.toInt_ofInt_of_le hlow hhigh] at hz

end Counters

/-- The counters are those of the tokens that wait. -/
structure JSONMessageParser.Counts (parser : JSONMessageParser) : Prop where
  brace : parser.braceCount = Int32.ofInt (braces parser.tokens)
  bracket : parser.bracketCount = Int32.ofInt (brackets parser.tokens)

/-- What is emitted is not empty, and the counters are back at zero. -/
structure Emitted (tokens : List Token) : Prop where
  ne_nil : tokens ≠ []
  brace : Int32.ofInt (braces tokens) = 0
  bracket : Int32.ofInt (brackets tokens) = 0

theorem counts_init : jsonMessageParserInit.Counts := ⟨rfl, rfl⟩

theorem JSONMessageParser.Counts.processToken {parser : JSONMessageParser} (h : parser.Counts) (token : Token) :
    (jsonMessageProcessToken parser token).1.Counts ∧
      ∀ l ∈ (jsonMessageProcessToken parser token).2, Emitted l := by
  have hbrace : countBrace parser.braceCount token = Int32.ofInt (braces (parser.tokens ++ [token])) := by
    rw [h.brace, braces, nesting_snoc]
    exact count_ofInt _ token
  have hbracket : countBracket parser.bracketCount token = Int32.ofInt (brackets (parser.tokens ++ [token])) := by
    rw [h.bracket, brackets, nesting_snoc]
    exact count_ofInt _ token
  unfold jsonMessageProcessToken
  dsimp only
  split_ifs with hzero
  · refine ⟨⟨hzero.1, hzero.2⟩, ?_⟩
    intro l hl
    obtain rfl := List.mem_singleton.mp hl
    exact ⟨by simp, hbrace ▸ hzero.1, hbracket ▸ hzero.2⟩
  · exact ⟨⟨hbrace, hbracket⟩, nofun⟩

theorem JSONMessageParser.Counts.processTokens {parser : JSONMessageParser} (h : parser.Counts)
    (tokens : List Token) :
    (processTokens parser tokens).1.Counts ∧ ∀ l ∈ (processTokens parser tokens).2, Emitted l := by
  induction tokens generalizing parser with
  | nil => exact ⟨h, nofun⟩
  | cons token tokens ih =>
    obtain ⟨hcounts, hfirst⟩ := h.processToken token
    obtain ⟨hlast, hrest⟩ := ih hcounts
    refine ⟨hlast, ?_⟩
    intro l hl
    rcases List.mem_append.mp hl with hl | hl
    · exact hfirst l hl
    · exact hrest l hl

theorem JSONMessageParser.Counts.call {parser : JSONMessageParser} (h : parser.Counts) (c : Call) :
    (parser.call c).parser.Counts ∧ ∀ l ∈ (parser.call c).emitted, Emitted l := by
  have hcounts (lexer : JSONLexer) : { parser with lexer := lexer }.Counts := ⟨h.brace, h.bracket⟩
  have hreceive (fed : Fed) := (hcounts fed.lexer).processTokens fed.tokens
  cases c with
  | feed buffer => exact hreceive (jsonLexerFeed parser.lexer buffer)
  | flush => exact hreceive (jsonLexerFlush parser.lexer)

theorem JSONMessageParser.Counts.emissions {parser : JSONMessageParser} (h : parser.Counts) (calls : List Call) :
    ∀ l ∈ emissions parser calls, Emitted l := by
  induction calls generalizing parser with
  | nil => exact nofun
  | cons c calls ih =>
    obtain ⟨hcounts, hfirst⟩ := h.call c
    intro l hl
    rcases List.mem_append.mp hl with hl | hl
    · exact hfirst l hl
    · exact ih hcounts l hl

section Tokens

variable {t : Token} {l : List Token} {op : Char} {b k : Int} {opens opens' : List Container → List Container} {α : Type}

theorem Token.IsOperator.head (h : t.IsOperator op) : t.token.head? = some op.toUInt8 := by
  have hval : t.token.takeWhile (· ≠ 0) = [op.toUInt8] := h.2
  cases htoken : t.token with
  | nil =>
    rw [htoken] at hval
    cases hval
  | cons ch rest =>
    rw [htoken, List.takeWhile_cons] at hval
    split_ifs at hval
    exact congrArg some (List.cons.inj hval).1

theorem Token.IsOperator.weight (h : t.IsOperator op) (opening closing : Char) :
    weight opening closing t =
      if op.toUInt8 = opening.toUInt8 then 1 else if op.toUInt8 = closing.toUInt8 then -1 else 0 := by
  simp only [Json.weight, h.1, h.head, if_true, Option.some.injEq]

theorem weight_of_ne (h : t.type ≠ .operator) (opening closing : Char) : weight opening closing t = 0 :=
  if_neg h

theorem Token.IsOperator.isOperator_iff (h : t.IsOperator op) (op' : Char) :
    t.IsOperator op' ↔ op.toUInt8 = op'.toUInt8 := by
  refine ⟨fun h' ↦ ?_, fun heq ↦ ⟨h.1, heq ▸ h.2⟩⟩
  exact (List.cons.inj (h.2.symm.trans h'.2)).1

theorem Token.IsOperator.enclose (h : t.IsOperator op) (opened : List Container) :
    enclose opened t =
      if op.toUInt8 = '\x7b'.toUInt8 then .object :: opened
      else if op.toUInt8 = '['.toUInt8 then .array :: opened
      else if op.toUInt8 = '\x7d'.toUInt8 ∨ op.toUInt8 = ']'.toUInt8 then opened.tail
      else opened := by
  simp only [Json.enclose, h.isOperator_iff]

theorem enclose_of_ne (h : t.type ≠ .operator) (opened : List Container) : enclose opened t = opened := by
  simp [enclose, Token.IsOperator, h]

/-- What remains of the tokens, and by how much its nesting and its containers differ. -/
structure Ate (brace bracket : Int) (opens : List Container → List Container) (tokens rest : List Token) : Prop where
  eaten : ∃ part, part ++ rest = tokens ∧ ∀ opened, part.foldl enclose opened = opens opened
  shorter : rest.length < tokens.length
  braces_eq : braces rest = braces tokens + brace
  brackets_eq : brackets rest = brackets tokens + bracket

theorem ate_token (hbrace : weight '\x7b' '\x7d' t = b) (hbracket : weight '[' ']' t = k)
    (hopens : ∀ opened, enclose opened t = opens opened) (l : List Token) : Ate (-b) (-k) opens (t :: l) l := by
  refine ⟨⟨[t], rfl, hopens⟩, Nat.lt_succ_self _, ?_, ?_⟩
  · rw [braces, nesting_cons, hbrace]
    omega
  · rw [brackets, nesting_cons, hbracket]
    omega

theorem Ate.trans {b k b' k' : Int} {l m r : List Token} (h : Ate b k opens l m) (h' : Ate b' k' opens' m r) :
    Ate (b + b') (k + k') (opens' ∘ opens) l r := by
  refine ⟨?_, h'.shorter.trans h.shorter, ?_, ?_⟩
  · obtain ⟨part, rfl, hpart⟩ := h.eaten
    obtain ⟨part', rfl, hpart'⟩ := h'.eaten
    refine ⟨part ++ part', List.append_assoc part part' r, fun opened ↦ ?_⟩
    rw [List.foldl_append, hpart, hpart', Function.comp_apply]
  · rw [h'.braces_eq, h.braces_eq, Int.add_assoc]
  · rw [h'.brackets_eq, h.brackets_eq, Int.add_assoc]

theorem ShortKeys.ate {opened : List Container} {r : List Token} (h : ShortKeys opened l) (hr : Ate b k opens l r) :
    ShortKeys (opens opened) r := by
  obtain ⟨part, rfl, hpart⟩ := hr.eaten
  rintro before key colon after rfl hobject
  refine h (part ++ before) key colon after (List.append_assoc part before _) ?_
  rwa [List.foldl_append, hpart]

/-- A container is open, which the tokens close. -/
structure Open (tokens : List Token) : Prop where
  brace : braces tokens ≤ 0
  bracket : brackets tokens ≤ 0
  nested : braces tokens + brackets tokens < 0

theorem Open.exists_cons (h : Open l) : ∃ t r, l = t :: r := by
  cases l with
  | nil => exact absurd h.nested (by decide)
  | cons t r => exact ⟨t, r, rfl⟩

theorem Open.ate {r : List Token} (h : Open l) (hr : Ate 0 0 id l r) : Open r := by
  obtain ⟨hbrace, hbracket, hnested⟩ := h
  have hb := hr.braces_eq
  have hk := hr.brackets_eq
  exact ⟨by omega, by omega, by omega⟩

end Tokens

/-- A value is parsed, and a string is a single token. -/
structure Value {δ : Type} (tokens : List Token) (obj : QObject δ) (rest : List Token) : Prop where
  ate : Ate 0 0 id tokens rest
  string : ∀ str, obj = .qstring str → ∃ t, tokens = t :: rest ∧ t.type = .string ∧
    qstringFromEscapedStr (cString t.token).val = some str

section Rules

variable {δ : Type} {value : Parser (QObject δ)} {size : Nat} {opened : List Container}

/-- Values of at most this many tokens are parsed without a fault. -/
def Handles (value : Parser (QObject δ)) (size : Nat) : Prop :=
  ∀ l opened, l.length ≤ size → l ≠ [] → braces l ≤ 0 → brackets l ≤ 0 → ShortKeys opened l →
    Safe value l (Value l)

theorem Handles.open {l : List Token} (h : Handles value size) (hopen : Open l) (hl : l.length ≤ size)
    (hkeys : ShortKeys opened l) : Safe value l (Value l) := by
  obtain ⟨t, r, rfl⟩ := hopen.exists_cons
  exact h _ opened hl (List.cons_ne_nil t r) hopen.brace hopen.bracket hkeys

theorem safe_put {l : List Token} {key : Key} (hkey : key.val.length < 2 ^ 32) (dict : List (Key × QObject δ))
    (obj : QObject δ) (rest : List Token) (hrest : Ate 0 0 id l rest) :
    Safe (put dict key obj) rest fun _ ↦ Ate 0 0 id l := by
  obtain ⟨bucket, hbucket⟩ := bucketOf_ok_iff.mpr hkey
  have hput : ∃ d, qdictPutObj dict key obj = .ok d := ⟨_, by rw [qdictPutObj, hbucket]; rfl⟩
  obtain ⟨d, hput⟩ := hput
  rw [put, hput]
  exact safe_pure hrest

theorem safe_parsePair {l : List Token} (h : Handles value size) (hopen : Open l) (hl : l.length ≤ size)
    (hkeys : ShortKeys (.object :: opened) l) (dict : List (Key × QObject δ)) :
    Safe (parsePair value dict) l fun _ ↦ Ate 0 0 id l := by
  refine (h.open hopen hl hkeys).bind fun key r hkey ↦ ?_
  cases key with
  | qstring str =>
    obtain ⟨t, rfl, hstring, hstr⟩ := hkey.string str rfl
    have hopen' := hopen.ate hkey.ate
    obtain ⟨colon, r, rfl⟩ := hopen'.exists_cons
    unfold Safe
    rw [result_pop, tokenIsOperator_some, pure_bind]
    refine safe_ite (fun hcolon ↦ ?_) fun _ ↦ safe_failure
    have hcolon := of_decide_eq_true hcolon
    have hr : Ate 0 0 id (colon :: r) r := ate_token (hcolon.weight _ _) (hcolon.weight _ _) hcolon.enclose r
    have hvalue := h.open (hopen'.ate hr) (by have := hr.shorter; have := hkey.ate.shorter; omega)
      ((hkeys.ate hkey.ate).ate hr)
    refine hvalue.bind fun obj rest hobj ↦ ?_
    have hshort := hkeys [] t colon r rfl rfl hstring hcolon str hstr
    exact safe_put hshort dict obj rest ((hkey.ate.trans hr).trans hobj.ate)
  | _ => exact safe_failure

-- The loops over the pairs of an object and the items of an array differ in what they do
-- between the separators.
theorem safe_loop {β : Type} {b k : Int} {loop : β → Option Token → Nat → Parser β} (c : Container) (close : Char)
    (item : β → Parser β)
    (hloop : ∀ x t n, loop x (some t) (n + 1) = if t.IsOperator close then pure x
      else if t.IsOperator ',' then item x >>= fun y ↦ qlistPop >>= fun token ↦ loop y token n else failure)
    (hclose : ∀ t, t.IsOperator close → weight '\x7b' '\x7d' t = -b ∧ weight '[' ']' t = -k ∧
      ∀ opened, enclose opened t = opened.tail)
    (hitem : ∀ l x, Open l → l.length ≤ size → ShortKeys (c :: opened) l → Safe (item x) l fun _ ↦ Ate 0 0 id l)
    {t : Token} {l : List Token} (x : β) {n : Nat} (hopen : Open (t :: l)) (hn : l.length < n)
    (hl : l.length ≤ size) (hkeys : ShortKeys (c :: opened) (t :: l)) :
    Safe (loop x (some t) n) l fun _ ↦ Ate b k List.tail (t :: l) := by
  induction n generalizing x t l with
  | zero => exact absurd hn (Nat.not_lt_zero _)
  | succ n ih =>
    rw [hloop]
    refine safe_ite (fun ht ↦ safe_pure ?_) fun _ ↦ safe_ite (fun ht ↦ ?_) fun _ ↦ safe_failure
    · obtain ⟨hbrace, hbracket, hcontainer⟩ := hclose t ht
      simpa using ate_token hbrace hbracket hcontainer l
    · have htail : Ate 0 0 id (t :: l) l := ate_token (ht.weight _ _) (ht.weight _ _) ht.enclose l
      refine (hitem l x (hopen.ate htail) hl (hkeys.ate htail)).bind fun y r hr ↦ ?_
      have hopen' := (hopen.ate htail).ate hr
      obtain ⟨t', r, rfl⟩ := hopen'.exists_cons
      have hshorter : (t' :: r).length < l.length := hr.shorter
      have hkeys' := (hkeys.ate htail).ate hr
      rw [List.length_cons] at hshorter
      obtain ⟨o, ho, hrest⟩ := ih y hopen' (by omega) (by omega) hkeys'
      refine ⟨o, ho, fun a rest ha ↦ ?_⟩
      simpa using (htail.trans hr).trans (hrest a rest ha)

theorem safe_parsePairs (h : Handles value size) {t : Token} {l : List Token} (dict : List (Key × QObject δ))
    {n : Nat} (hopen : Open (t :: l)) (hn : l.length < n) (hl : l.length ≤ size)
    (hkeys : ShortKeys (.object :: opened) (t :: l)) :
    Safe (parsePairs value dict (some t) n) l fun _ ↦ Ate 1 0 List.tail (t :: l) := by
  refine safe_loop .object '\x7d' (parsePair value) ?_ ?_ ?_ dict hopen hn hl hkeys
  · intro x t n
    simp only [parsePairs, tokenIsOperator_some, pure_bind, decide_eq_true_eq]
  · intro t ht
    exact ⟨ht.weight _ _, ht.weight _ _, ht.enclose⟩
  · intro l x hopen hl hkeys
    exact safe_parsePair h hopen hl hkeys x

theorem safe_parseItems (h : Handles value size) {t : Token} {l : List Token} (list : List (QObject δ))
    {n : Nat} (hopen : Open (t :: l)) (hn : l.length < n) (hl : l.length ≤ size)
    (hkeys : ShortKeys (.array :: opened) (t :: l)) :
    Safe (parseItems value list (some t) n) l fun _ ↦ Ate 0 1 List.tail (t :: l) := by
  refine safe_loop .array ']' (fun list ↦ value >>= fun obj ↦ pure (list ++ [obj])) ?_ ?_ ?_ list hopen hn hl hkeys
  · intro x t n
    simp only [parseItems, tokenIsOperator_some, pure_bind, bind_assoc, decide_eq_true_eq]
  · intro t ht
    exact ⟨ht.weight _ _, ht.weight _ _, ht.enclose⟩
  · intro l x hopen hl hkeys
    exact (h.open hopen hl hkeys).bind fun obj r hr ↦ safe_pure hr.ate

theorem Ate.gives {l r : List Token} {obj : QObject δ} (h : Ate 0 0 id l r) (hobj : ∀ str, obj ≠ .qstring str) :
    Value l obj r :=
  ⟨h, fun str hstr ↦ absurd hstr (hobj str)⟩

-- An object and an array differ in their operators and in what stands between them.
theorem safe_enclosed {α β : Type} {b k : Int} {parse : Parser (QObject δ)} (c : Container) (enter close : Char)
    (empty : QObject δ) (first : Parser α) (loop : α → Option Token → Parser β) (wrap : β → QObject δ)
    (hparse : parse = do
      let token ← qlistPop
      if ← tokenIsOperator token enter then
        let peek ← qlistPeek
        if ← tokenIsOperator peek close then
          let _ ← qlistPop
          return empty
        else
          let x ← first
          let token ← qlistPop
          let y ← loop x token
          return wrap y
      else failure)
    (henter : ∀ t, t.IsOperator enter → weight '\x7b' '\x7d' t = b ∧ weight '[' ']' t = k ∧
      ∀ opened, enclose opened t = c :: opened)
    (hclose : ∀ t, t.IsOperator close → weight '\x7b' '\x7d' t = -b ∧ weight '[' ']' t = -k ∧
      ∀ opened, enclose opened t = opened.tail)
    (hnonneg : 0 ≤ b ∧ 0 ≤ k) (hpos : 0 < b + k)
    (hempty : ∀ str, empty ≠ .qstring str) (hwrap : ∀ y str, wrap y ≠ .qstring str)
    (hfirst : ∀ l, Open l → l.length ≤ size → ShortKeys (c :: opened) l → Safe first l fun _ ↦ Ate 0 0 id l)
    (hloop : ∀ x t l, Open (t :: l) → l.length ≤ size → ShortKeys (c :: opened) (t :: l) →
      Safe (loop x (some t)) l fun _ ↦ Ate b k List.tail (t :: l))
    {l : List Token} (hne : l ≠ []) (hl : l.length ≤ size + 1) (hbrace : braces l ≤ 0) (hbracket : brackets l ≤ 0)
    (hkeys : ShortKeys opened l) : Safe parse l (Value l) := by
  obtain ⟨t, l, rfl⟩ := List.exists_cons_of_ne_nil hne
  unfold Safe
  rw [hparse, result_pop, tokenIsOperator_some, pure_bind]
  refine safe_ite (fun ht ↦ ?_) fun _ ↦ safe_failure
  obtain ⟨htbrace, htbracket, hcontainer⟩ := henter t (of_decide_eq_true ht)
  have htail := ate_token htbrace htbracket hcontainer l
  have hopen : Open l := by
    have hb := htail.braces_eq
    have hk := htail.brackets_eq
    exact ⟨by omega, by omega, by omega⟩
  have hkeys := hkeys.ate htail
  have hl : l.length ≤ size := Nat.le_of_succ_le_succ hl
  obtain ⟨t', l', rfl⟩ := hopen.exists_cons
  unfold Safe
  rw [result_peek, tokenIsOperator_some, pure_bind]
  refine safe_ite (fun ht' ↦ ?_) fun _ ↦ ?_
  · obtain ⟨hbrace', hbracket', hcontainer'⟩ := hclose t' (of_decide_eq_true ht')
    have hall := htail.trans (ate_token hbrace' hbracket' hcontainer' l')
    rw [neg_neg, neg_neg, neg_add_cancel, neg_add_cancel] at hall
    unfold Safe
    rw [result_pop]
    exact safe_pure (hall.gives hempty)
  · refine (hfirst _ hopen hl hkeys).bind fun x r hr ↦ ?_
    have hopen' := hopen.ate hr
    have hshorter := hr.shorter
    have hkeys' := hkeys.ate hr
    obtain ⟨t'', r, rfl⟩ := hopen'.exists_cons
    unfold Safe
    rw [result_pop]
    rw [List.length_cons] at hshorter
    refine (hloop x t'' r hopen' (by omega) hkeys').bind fun y rest hrest ↦ safe_pure ?_
    have hall := (htail.trans hr).trans hrest
    rw [add_zero, add_zero, neg_add_cancel, neg_add_cancel] at hall
    exact hall.gives (hwrap y)

theorem safe_parseObject (h : Handles value size) {l : List Token} (hne : l ≠ []) (hl : l.length ≤ size + 1)
    (hbrace : braces l ≤ 0) (hbracket : brackets l ≤ 0) (hkeys : ShortKeys opened l) :
    Safe (parseObject value (size + 1)) l (Value l) := by
  refine safe_enclosed .object '\x7b' '\x7d' (.qdict []) (parsePair value [])
    (fun dict token ↦ parsePairs value dict token (size + 1)) .qdict rfl ?_ ?_ (And.intro Int.one_nonneg le_rfl)
    Int.one_pos (fun _ heq ↦ by cases heq) (fun _ _ heq ↦ by cases heq) ?_ ?_ hne hl hbrace hbracket hkeys
  · intro t ht
    exact ⟨ht.weight _ _, ht.weight _ _, ht.enclose⟩
  · intro t ht
    exact ⟨ht.weight _ _, ht.weight _ _, ht.enclose⟩
  · intro l hopen hl hkeys
    exact safe_parsePair h hopen hl hkeys []
  · intro dict t l hopen hl hkeys
    exact safe_parsePairs h dict hopen (Nat.lt_succ_of_le hl) hl hkeys

theorem safe_parseArray (h : Handles value size) {l : List Token} (hne : l ≠ []) (hl : l.length ≤ size + 1)
    (hbrace : braces l ≤ 0) (hbracket : brackets l ≤ 0) (hkeys : ShortKeys opened l) :
    Safe (parseArray value (size + 1)) l (Value l) := by
  refine safe_enclosed .array '[' ']' (.qlist []) value
    (fun obj token ↦ parseItems value [obj] token (size + 1)) .qlist rfl ?_ ?_ (And.intro le_rfl Int.one_nonneg)
    Int.one_pos (fun _ heq ↦ by cases heq) (fun _ _ heq ↦ by cases heq) ?_ ?_ hne hl hbrace hbracket hkeys
  · intro t ht
    exact ⟨ht.weight _ _, ht.weight _ _, ht.enclose⟩
  · intro t ht
    exact ⟨ht.weight _ _, ht.weight _ _, ht.enclose⟩
  · intro l hopen hl hkeys
    exact (h.open hopen hl hkeys).weaken fun obj r hr ↦ hr.ate
  · intro obj t l hopen hl hkeys
    exact safe_parseItems h [obj] hopen (Nat.lt_succ_of_le hl) hl hkeys

theorem safe_parseKeyword {l : List Token} (hne : l ≠ []) : Safe (parseKeyword : Parser (QObject δ)) l (Value l) := by
  obtain ⟨t, l, rfl⟩ := List.exists_cons_of_ne_nil hne
  unfold Safe parseKeyword
  rw [result_pop]
  unfold tokenGetType
  rw [pure_bind]
  refine safe_ite (fun ht ↦ ?_) fun _ ↦ safe_failure
  have hne : t.type ≠ .operator := by simp [ht]
  have htail : Ate 0 0 id (t :: l) l := ate_token (weight_of_ne hne _ _) (weight_of_ne hne _ _) (enclose_of_ne hne) l
  simp only [tokenIsKeyword, tokenGetType, tokenGetValue, pure_bind, ht, if_true]
  have hvalue (b : Bool) : Value (t :: l) (.qbool b : QObject δ) l := by
    apply htail.gives
    intro str hstr
    cases hstr
  refine safe_ite (fun _ ↦ safe_pure (hvalue true)) fun _ ↦ ?_
  exact safe_ite (fun _ ↦ safe_pure (hvalue false)) fun _ ↦ safe_failure

theorem safe_parseLiteral (strtod : List UInt8 → δ) {l : List Token} (hne : l ≠ []) :
    Safe (parseLiteral strtod) l (Value l) := by
  obtain ⟨t, l, rfl⟩ := List.exists_cons_of_ne_nil hne
  unfold Safe parseLiteral
  rw [result_pop]
  unfold tokenGetType tokenGetValue
  simp only [pure_bind]
  have htail (h : t.type ≠ .operator) : Ate 0 0 id (t :: l) l :=
    ate_token (weight_of_ne h _ _) (weight_of_ne h _ _) (enclose_of_ne h) l
  cases ht : t.type with
  | string =>
    have htail := htail (by simp [ht])
    cases hstr : qstringFromEscapedStr (cString t.token).val with
    | none => exact safe_failure
    | some str =>
      refine safe_pure ⟨htail, ?_⟩
      intro str' hstr'
      cases hstr'
      exact ⟨t, rfl, ht, hstr⟩
  | integer => exact safe_pure ((htail (by simp [ht])).gives nofun)
  | float => exact safe_pure ((htail (by simp [ht])).gives nofun)
  | operator => exact safe_failure
  | keyword => exact safe_failure
  | escape => exact safe_failure

theorem handles_parseValue (strtod : List UInt8 → δ) (size : Nat) : Handles (parseValue strtod (size + 1)) size := by
  induction size with
  | zero =>
    intro l opened hl hne
    exact absurd (List.eq_nil_of_length_eq_zero (Nat.le_zero.mp hl)) hne
  | succ size ih =>
    intro l opened hl hne hbrace hbracket hkeys
    refine (safe_parseObject ih hne hl hbrace hbracket hkeys).orElse ?_
    refine (safe_parseArray ih hne hl hbrace hbracket hkeys).orElse ?_
    exact safe_failure.orElse ((safe_parseKeyword hne).orElse (safe_parseLiteral strtod hne))

end Rules

section Sizes

theorem weight_bounds (opening closing : Char) (t : Token) :
    -1 ≤ weight opening closing t ∧ weight opening closing t ≤ 1 := by
  unfold weight
  split_ifs <;> omega

theorem nesting_bounds (opening closing : Char) (l : List Token) :
    -l.length ≤ nesting opening closing l ∧ nesting opening closing l ≤ l.length := by
  induction l with
  | nil => exact ⟨Int.le_refl _, Int.le_refl _⟩
  | cons t l ih =>
    have ht := weight_bounds opening closing t
    rw [nesting_cons, List.length_cons]
    omega

theorem counted_of_length {l : List Token} (h : l.length < 2 ^ 31) : Counted l := by
  intro part hpart
  have hlength := hpart.length_le
  have hbrace := nesting_bounds '\x7b' '\x7d' part
  have hbracket := nesting_bounds '[' ']' part
  unfold braces brackets
  omega

theorem length_cString_le (buffer : List UInt8) : (cString buffer).val.length ≤ buffer.length :=
  (List.takeWhile_prefix _).length_le

theorem length_wcharToUtf8 (wchar : UInt16) : (wcharToUtf8 wchar).length ≤ 3 := by
  unfold wcharToUtf8
  split_ifs <;> simp

theorem length_unescape {quote : UInt8} {str ptr out : List UInt8} (h : unescape quote str ptr = some out) :
    out.length ≤ str.length + ptr.length := by
  fun_induction unescape quote str ptr with
  | case1 str =>
    cases h
    exact Nat.le_add_right _ _
  | case2 str ptr =>
    cases h
    exact Nat.le_add_right _ _
  | case4 str ch ptr c _ _ ih =>
    have hout := ih h
    simp only [List.length_append, List.length_cons, List.length_nil] at hout ⊢
    omega
  | case5 str c₀ c₁ c₂ c₃ ptr wchar _ _ _ ih =>
    have hout := ih h
    have hutf8 := (length_cString_le (wcharToUtf8 wchar)).trans (length_wcharToUtf8 wchar)
    simp only [List.length_append, List.length_cons] at hout ⊢
    omega
  | case9 str ch ptr _ _ ih =>
    have hout := ih h
    simp only [List.length_append, List.length_cons, List.length_nil] at hout ⊢
    omega
  | _ => cases h

theorem length_qstringFromEscapedStr {token str : List UInt8} (h : qstringFromEscapedStr token = some str) :
    str.length ≤ token.length := by
  cases token with
  | nil => cases h
  | cons ch ptr =>
    have hlength := length_unescape h
    simp only [List.length_nil, List.length_cons] at hlength ⊢
    omega

theorem shortKeys_of_length {l : List Token} (h : ∀ t ∈ l, t.token.length < 2 ^ 32) (opened : List Container) :
    ShortKeys opened l := by
  rintro before key colon after rfl - - - str hstr
  have hkey := h key (List.mem_append_right before List.mem_cons_self)
  have hstr' := length_cString_le str
  have hunescaped := length_qstringFromEscapedStr hstr
  have htoken := length_cString_le key.token
  omega

end Sizes

variable {δ : Type}

theorem Emitted.returns {tokens : List Token} (h : Emitted tokens) (hcounted : Counted tokens)
    (hkeys : ShortKeys [] tokens) (strtod : List UInt8 → δ) : ∃ result, jsonParserParse strtod tokens = .ok result := by
  obtain ⟨⟨hlow, hhigh⟩, hlow', hhigh'⟩ := hcounted tokens List.prefix_rfl
  have hbrace := eq_zero_of_ofInt h.brace hlow hhigh
  have hbracket := eq_zero_of_ofInt h.bracket hlow' hhigh'
  obtain ⟨r, hr, -⟩ :=
    handles_parseValue strtod tokens.length tokens [] (Nat.le_refl _) h.ne_nil hbrace.le hbracket.le hkeys
  exact ⟨r.map Prod.fst, by rw [jsonParserParse, hr]; rfl⟩

/-- Whatever is fed in whatever chunks, a token list that is emitted is not empty, and unless a
counter overflows or a key is too long the parser returns on it. -/
theorem parser_returns (strtod : List UInt8 → δ) (calls : List Call) :
    ∀ tokens ∈ emissions jsonMessageParserInit calls, tokens ≠ [] ∧
      (Counted tokens ∧ ShortKeys [] tokens → ∃ result, jsonParserParse strtod tokens = .ok result) := by
  intro tokens htokens
  have hemitted := counts_init.emissions calls tokens htokens
  exact ⟨hemitted.ne_nil, fun h ↦ hemitted.returns h.1 h.2 strtod⟩

/-- A stream of fewer than `2 ^ 31` tokens, none of `2 ^ 32` characters, meets both conditions. -/
theorem Emitted.returns_of_length {tokens : List Token} (h : Emitted tokens) (hlength : tokens.length < 2 ^ 31)
    (htokens : ∀ t ∈ tokens, t.token.length < 2 ^ 32) (strtod : List UInt8 → δ) :
    ∃ result, jsonParserParse strtod tokens = .ok result :=
  h.returns (counted_of_length hlength) (shortKeys_of_length htokens []) strtod

def misnested : List Token := [⟨.operator, [93]⟩, ⟨.operator, [123]⟩, ⟨.operator, [91]⟩, ⟨.operator, [125]⟩]

theorem parser_returns_misnested :
    misnested ∈ emissions jsonMessageParserInit [.feed (ascii "]"), .feed (ascii "\x7b[\x7d"), .flush] ∧
      misnested ≠ [] ∧
      ∃ result, jsonParserParse (fun _ ↦ ()) misnested = .ok result := by
  have hemitted :
      misnested ∈ emissions jsonMessageParserInit [.feed (ascii "]"), .feed (ascii "\x7b[\x7d"), .flush] := by
    decide
  obtain ⟨hne, hreturns⟩ := parser_returns (fun _ ↦ ()) _ misnested hemitted
  refine ⟨hemitted, hne, hreturns ⟨counted_of_length (by decide), shortKeys_of_length ?_ []⟩⟩
  decide

/-- An object with a key of this length. -/
def keyed (n : Nat) : List UInt8 := [123] ++ (34 :: List.replicate n 97 ++ [34]) ++ [58] ++ [48] ++ [125]

def keyToken (n : Nat) : Token := ⟨.string, 34 :: List.replicate n 97 ++ [34]⟩

def keyedTokens (n : Nat) : List Token :=
  [⟨.operator, [123]⟩, keyToken n, ⟨.operator, [58]⟩, ⟨.integer, [48]⟩, ⟨.operator, [125]⟩]

theorem piece_keyed (n : Nat) : Piece true (keyed n) (keyedTokens n) := by
  have hkey : InString (List.replicate n 97) := by
    induction n with
    | zero => exact inString_nil
    | succ n ih => exact (inString_char (by decide) (by decide) (by decide)).append ih
  have hbrace : Piece true [123] [⟨.operator, [123]⟩] := piece_operator (by decide)
  have hcolon : Piece true [58] [⟨.operator, [58]⟩] := piece_operator (by decide)
  have hopen := hbrace.append (piece_string hkey) (.inl rfl)
  have hcolon := hopen.append hcolon (.inl rfl)
  have hzero := hcolon.append piece_zero (.inl rfl)
  refine hzero.append (piece_operator (by decide)) (.inr ?_)
  intro ch hch
  cases hch
  rfl

theorem emissions_keyed (n : Nat) : emissions jsonMessageParserInit [.feed (keyed n)] = [keyedTokens n] := by
  obtain ⟨y, k, hlexes, -, hk, hclosed⟩ := piece_keyed n jsonLexerInit (.inl rfl) (fun h ↦ absurd rfl h)
  rw [hclosed rfl, List.append_nil] at hk
  obtain rfl : k = keyedTokens n := hk
  change (processTokens ⟨(jsonLexerFeed jsonLexerInit (keyed n)).lexer, 0, 0, []⟩
    (jsonLexerFeed jsonLexerInit (keyed n)).tokens).2 ++ [] = _
  rw [hlexes.feed]
  have hchars : ('\x7b'.toUInt8 = 123 ∧ '\x7d'.toUInt8 = 125) ∧ '['.toUInt8 = 91 ∧ ']'.toUInt8 = 93 := by decide
  simp [processTokens, jsonMessageProcessToken, countBrace, countBracket, count, keyedTokens, keyToken, hchars]

theorem unescape_replicate (n : Nat) (str : List UInt8) :
    unescape 34 str (List.replicate n 97 ++ [34]) = some (str ++ List.replicate n 97) := by
  induction n generalizing str with
  | zero => simp [unescape]
  | succ n ih =>
    have hquote : (97 : UInt8) ≠ 34 := by decide
    have hbackslash : (97 : UInt8) ≠ '\\'.toUInt8 := by decide
    rw [List.replicate_succ, List.cons_append, unescape_char hquote hbackslash, ih, List.append_assoc]
    rfl

theorem parse_keyToken (strtod : List UInt8 → δ) (fuel n : Nat) (l : List Token) :
    (parseValue strtod (fuel + 1)).result (keyToken n :: l) = .ok (some (.qstring (List.replicate n 97), l)) := by
  refine parseValue_string rfl ?_ strtod fuel l
  rw [cString_of_notMem (by simp [keyToken, List.mem_replicate])]
  exact unescape_replicate n []

theorem parse_keyed {n : Nat} (h : 2 ^ 32 ≤ n) (strtod : List UInt8 → δ) :
    jsonParserParse strtod (keyedTokens n) = .error .endless := by
  have hput (obj : QObject δ) (l : List Token) :
      (put [] (cString (List.replicate n 97)) obj).result l = .error .endless := by
    have hkey : (cString (List.replicate n 97)).val = List.replicate n 97 :=
      cString_of_notMem (by simp [List.mem_replicate])
    have hbucket : ¬ ∃ bucket, bucketOf (cString (List.replicate n 97)) = .ok bucket := by
      rw [bucketOf_ok_iff, hkey, List.length_replicate]
      omega
    unfold put qdictPutObj
    cases hb : bucketOf (cString (List.replicate n 97)) with
    | error e => rfl
    | ok b => exact absurd ⟨b, hb⟩ hbucket
  have hpair : (parsePair (parseValue strtod 5) []).result (keyedTokens n).tail = .error .endless := by
    refine (result_bind_some (parse_keyToken strtod 4 n _)).trans ?_
    dsimp only
    rw [result_pop, tokenIsOperator_some, pure_bind, if_pos (by decide)]
    refine (result_bind_some (parseValue_integer rfl strtod 4 _)).trans ?_
    exact hput _ _
  have hobject : (parseObject (parseValue strtod 5) 5).result (keyedTokens n) = .error .endless := by
    rw [keyedTokens, parseObject, result_pop, tokenIsOperator_some, pure_bind, if_pos (by decide), result_peek,
      tokenIsOperator_some, pure_bind, if_neg (by simp [Token.IsOperator, keyToken])]
    exact result_bind_error hpair
  have hvalue : (parseValue strtod 6).result (keyedTokens n) = .error .endless := result_orElse_error hobject
  change ((parseValue strtod 6).result (keyedTokens n)).map _ = _
  rw [hvalue]
  rfl

theorem parser_returns_fails : ¬ ∀ calls : List Call, ∀ tokens ∈ emissions jsonMessageParserInit calls,
    tokens ≠ [] ∧ ∃ result, jsonParserParse (fun _ ↦ ()) tokens = .ok result := by
  intro h
  have hemitted : keyedTokens (2 ^ 32) ∈ emissions jsonMessageParserInit [.feed (keyed (2 ^ 32))] := by
    rw [emissions_keyed]
    exact List.mem_singleton_self _
  obtain ⟨-, result, hresult⟩ := h _ _ hemitted
  rw [parse_keyed (Nat.le_refl _)] at hresult
  cases hresult

section Wrapped

def opening : Token := ⟨.operator, [91]⟩

theorem parse_unclosed (strtod : List UInt8 → δ) (n : Nat) :
    (parseValue strtod (n + 2)).result (List.replicate (n + 1) opening) = .error .missingToken := by
  have hbrace : ¬ opening.IsOperator '\x7b' := by decide
  have hbracket : opening.IsOperator '[' := by decide
  induction n with
  | zero => rfl
  | succ n ih =>
    rw [parseValue, List.replicate_succ, result_orElse_none (parseObject_none hbrace _ _ _)]
    apply result_orElse_error
    rw [parseArray, result_pop, tokenIsOperator_some, pure_bind, if_pos (by simp [hbracket]), List.replicate_succ,
      result_peek, tokenIsOperator_some, pure_bind, if_neg (by decide)]
    exact result_bind_error ih

theorem lexes_opening (n : Nat) :
    Lexes jsonLexerInit (List.replicate n 91) jsonLexerInit (List.replicate n opening) := by
  induction n with
  | zero => exact .nil _
  | succ n ih =>
    have hcell : jsonLexer .inStart 91 = .token .operator := by decide
    exact .cons (feedChar_token hcell (by decide) []) ih

-- The counter of the brackets comes back to zero at the last of the tokens.
theorem processTokens_opening (lexer : JSONLexer) {wrap : Nat} (hzero : Int32.ofInt wrap = 0)
    (hne : ∀ m : Nat, 0 < m → m < wrap → Int32.ofInt m ≠ 0) {k n : Nat} (h : k + (n + 1) = wrap) :
    (processTokens ⟨lexer, 0, Int32.ofInt k, List.replicate k opening⟩ (List.replicate (n + 1) opening)).2 =
      [List.replicate wrap opening] := by
  have hbrace : countBrace 0 opening = 0 := by decide
  induction n generalizing k with
  | zero =>
    have hbracket : countBracket (Int32.ofInt k) opening = 0 := by
      rw [← hzero, ← h]
      exact count_ofInt k opening
    have htokens : List.replicate k opening ++ [opening] = List.replicate wrap opening := by
      rw [← h, List.replicate_succ']
    rw [List.replicate_one, processTokens, jsonMessageProcessToken]
    simp only [hbrace, hbracket, htokens, and_self, if_true, processTokens, List.append_nil]
  | succ n ih =>
    have hbracket : countBracket (Int32.ofInt k) opening = Int32.ofInt (k + 1 : Nat) := count_ofInt k opening
    have hne' := hne (k + 1) (Nat.succ_pos k) (by omega)
    rw [List.replicate_succ, processTokens, jsonMessageProcessToken]
    simp only [hbrace, hbracket, hne', and_false, if_false, ← List.replicate_succ', List.nil_append]
    exact ih (by omega)

theorem parser_faults_wrapped (strtod : List UInt8 → δ) :
    ∃ tokens ∈ emissions jsonMessageParserInit [.feed (List.replicate (2 ^ 32) 91)],
      jsonParserParse strtod tokens = .error .missingToken := by
  obtain ⟨n, hn⟩ : ∃ n, n + 1 = 2 ^ 32 := ⟨2 ^ 32 - 1, rfl⟩
  rw [← hn]
  have hzero : Int32.ofInt (n + 1 : Nat) = 0 := by
    rw [hn]
    rfl
  have hne (m : Nat) (hpos : 0 < m) (hm : m < n + 1) : Int32.ofInt m ≠ 0 := ofInt_ne_zero (by omega) (by omega)
  refine ⟨List.replicate (n + 1) opening, ?_, ?_⟩
  · change _ ∈ (processTokens ⟨(jsonLexerFeed jsonLexerInit (List.replicate (n + 1) 91)).lexer, 0, 0, []⟩
      (jsonLexerFeed jsonLexerInit (List.replicate (n + 1) 91)).tokens).2 ++ []
    rw [(lexes_opening (n + 1)).feed, List.append_nil]
    have hprocess : (processTokens ⟨jsonLexerInit, 0, 0, []⟩ (List.replicate (n + 1) opening)).2 =
        [List.replicate (n + 1) opening] :=
      processTokens_opening jsonLexerInit hzero hne (Nat.zero_add (n + 1))
    rw [hprocess]
    exact List.mem_singleton_self _
  · rw [jsonParserParse, List.length_replicate, parse_unclosed]
    rfl

end Wrapped

end IDeviceEmulator.Json
