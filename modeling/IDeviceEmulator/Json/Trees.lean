import IDeviceEmulator.Json.Numbers
import IDeviceEmulator.Json.Strings

namespace IDeviceEmulator.Json

open Qobject
open Qobject.Qdict (Key)

variable {δ : Type}

mutual

/-- A tree of integers, booleans, strings of UTF-8, lists and dictionaries with such strings as
keys. The keys of a dictionary are distinct and can be hashed. -/
def Plain : QObject δ → Prop
  | .qint _ => True
  | .qbool _ => True
  | .qstring s => Utf8 s
  | .qfloat _ => False
  | .qlist l => PlainItems l
  | .qdict e => (e.map Prod.fst).Nodup ∧ PlainEntries e

def PlainItems : List (QObject δ) → Prop
  | [] => True
  | x :: l => Plain x ∧ PlainItems l

def PlainEntries : List (Key × QObject δ) → Prop
  | [] => True
  | (key, x) :: e => (Utf8 key.val ∧ key.val.length < 2 ^ 32) ∧ Plain x ∧ PlainEntries e

end

mutual

/-- No container has more entries than the counter of its separators can count, and every key
is short enough for the length of a string. -/
def Sized : QObject δ → Prop
  | .qlist l => l.length ≤ 2 ^ 32 ∧ SizedItems l
  | .qdict e => e.length ≤ 2 ^ 32 ∧ SizedEntries e
  | _ => True

def SizedItems : List (QObject δ) → Prop
  | [] => True
  | x :: l => Sized x ∧ SizedItems l

def SizedEntries : List (Key × QObject δ) → Prop
  | [] => True
  | (key, x) :: e => key.val.length < 2 ^ 31 ∧ Sized x ∧ SizedEntries e

end

mutual

/-- Inside so many dictionaries and lists: in no container are both counters of the streamer
back at zero. -/
def Apart (dicts lists : Nat) : QObject δ → Prop
  | .qlist l => ¬ (2 ^ 32 ∣ dicts ∧ 2 ^ 32 ∣ lists + 1) ∧ ApartItems dicts (lists + 1) l
  | .qdict e => ¬ (2 ^ 32 ∣ dicts + 1 ∧ 2 ^ 32 ∣ lists) ∧ ApartEntries (dicts + 1) lists e
  | _ => True

def ApartItems (dicts lists : Nat) : List (QObject δ) → Prop
  | [] => True
  | x :: l => Apart dicts lists x ∧ ApartItems dicts lists l

def ApartEntries (dicts lists : Nat) : List (Key × QObject δ) → Prop
  | [] => True
  | (_, x) :: e => Apart dicts lists x ∧ ApartEntries dicts lists e

end

def Fits (o : QObject δ) : Prop := Sized o ∧ Apart 0 0 o

theorem plainItems_iff {l : List (QObject δ)} : PlainItems l ↔ ∀ x ∈ l, Plain x := by
  induction l with
  | nil => simp [PlainItems]
  | cons x l ih => rw [PlainItems, ih, List.forall_mem_cons]

theorem plainEntries_iff {e : List (Key × QObject δ)} :
    PlainEntries e ↔ ∀ x ∈ e, (Utf8 x.1.val ∧ x.1.val.length < 2 ^ 32) ∧ Plain x.2 := by
  induction e with
  | nil => simp [PlainEntries]
  | cons x e ih =>
    rw [List.forall_mem_cons, ← ih]
    exact and_assoc.symm

theorem sizedItems_iff {l : List (QObject δ)} : SizedItems l ↔ ∀ x ∈ l, Sized x := by
  induction l with
  | nil => simp [SizedItems]
  | cons x l ih => rw [SizedItems, ih, List.forall_mem_cons]

theorem sizedEntries_iff {e : List (Key × QObject δ)} :
    SizedEntries e ↔ ∀ x ∈ e, x.1.val.length < 2 ^ 31 ∧ Sized x.2 := by
  induction e with
  | nil => simp [SizedEntries]
  | cons x e ih =>
    rw [List.forall_mem_cons, ← ih]
    exact and_assoc.symm

theorem apartItems_iff {dicts lists : Nat} {l : List (QObject δ)} :
    ApartItems dicts lists l ↔ ∀ x ∈ l, Apart dicts lists x := by
  induction l with
  | nil => simp [ApartItems]
  | cons x l ih => rw [ApartItems, ih, List.forall_mem_cons]

theorem apartEntries_iff {dicts lists : Nat} {e : List (Key × QObject δ)} :
    ApartEntries dicts lists e ↔ ∀ x ∈ e, Apart dicts lists x.2 := by
  induction e with
  | nil => simp [ApartEntries]
  | cons x e ih =>
    rw [List.forall_mem_cons, ← ih]
    rfl

def operator (ch : UInt8) : Token := ⟨.operator, [ch]⟩

def stringToken (string : List UInt8) : Token := ⟨.string, toJsonString string⟩

/-- The separator in front of an entry. -/
def comma (first : Bool) : List Token := if first then [] else [operator 44]

mutual

/-- The tokens of the text of an object. -/
def tokensOf : QObject δ → List Token
  | .qint v => [⟨.integer, toJsonInt v⟩]
  | .qbool b => [⟨.keyword, toJsonBool b⟩]
  | .qstring s => [stringToken s]
  | .qfloat _ => []
  | .qlist l => operator 91 :: itemTokens true l ++ [operator 93]
  | .qdict e => operator 123 :: entryTokens true e ++ [operator 125]

def itemTokens (first : Bool) : List (QObject δ) → List Token
  | [] => []
  | x :: l => comma first ++ tokensOf x ++ itemTokens false l

def entryTokens (first : Bool) : List (Key × QObject δ) → List Token
  | [] => []
  | (key, x) :: e => comma first ++ stringToken key.val :: operator 58 :: tokensOf x ++ entryTokens false e

end

section Keys

theorem length_of_last (n : Nat) : Int32.ofInt (n - 1) - 0 + 1 = Int32.ofInt n := by
  have hone : (1 : Int32) = Int32.ofInt 1 := rfl
  rw [Int32.sub_zero, hone, ← Int32.ofInt_add, Int.sub_add_cancel]

theorem qstringFromStr_short {key : Key} (h : key.val.length < 2 ^ 31) : qstringFromStr key = some key.val := by
  have htoInt : (Int32.ofInt key.val.length).toInt = key.val.length :=
    Int32.toInt_ofInt_of_le (by omega) (by omega)
  unfold qstringFromStr qstringFromSubstr
  rw [length_of_last]
  dsimp only
  rw [if_neg, htoInt]
  · simp
  · rw [Int32.lt_iff_toInt_lt, htoInt]
    simp

end Keys

section Texts

theorem piece_toJsonString {string : List UInt8} (h : Utf8 string) :
    Piece true (toJsonString string) [stringToken string] := by
  unfold stringToken toJsonString
  rw [cString_of_notMem h.noZero]
  exact piece_string (escapes_escapeFrom h).inString

theorem piece_toJsonBool (b : Bool) : Piece false (toJsonBool b) [⟨.keyword, toJsonBool b⟩] := by
  cases b
  · exact piece_keyword (by decide) (forall_mem_of_all (by decide))
  · exact piece_keyword (by decide) (forall_mem_of_all (by decide))

theorem Piece.blanks {text : List UInt8} {k : List Token} {ch : UInt8} (h : Piece true text k) (hblank : isBlank ch)
    (n : Nat) : Piece true (text ++ List.replicate n ch) k := by
  induction n with
  | zero => simpa using h
  | succ n ih =>
    rw [List.replicate_succ', ← List.append_assoc]
    simpa using ih.append (piece_blank hblank) (.inl rfl)

/-- A text without a terminator inside, that is taken as these tokens. -/
structure Prints (closed : Bool) (text : List UInt8) (tokens : List Token) : Prop where
  piece : Piece closed text tokens
  noZero : 0 ∉ text

variable {closed closed' : Bool} {text text' : List UInt8} {k m : List Token}

theorem Prints.append (h : Prints closed text k) (h' : Prints closed' text' m) (hopen : closed ∨ Delimited text') :
    Prints closed' (text ++ text') (k ++ m) := by
  refine ⟨h.piece.append h'.piece hopen, ?_⟩
  rw [List.mem_append, not_or]
  exact ⟨h.noZero, h'.noZero⟩

theorem prints_operator {ch : UInt8} (h : ch ∈ ([123, 125, 91, 93, 44, 58] : List UInt8)) :
    Prints true [ch] [operator ch] := by
  have hzero : ∀ ch ∈ ([123, 125, 91, 93, 44, 58] : List UInt8), 0 ∉ [ch] :=
    forall_mem_of_all (by decide)
  exact ⟨piece_operator h, hzero ch h⟩

theorem prints_line (indent : Int32) : Prints true (line indent) [] := by
  have hline : Piece true [10] [] := piece_blank (by decide)
  refine ⟨hline.blanks (by decide) _, ?_⟩
  simp [line, List.mem_replicate]

theorem prints_space : Prints true [32] [] := ⟨piece_blank (by decide), by decide⟩

theorem prints_toJsonString {string : List UInt8} (h : Utf8 string) :
    Prints true (toJsonString string) [stringToken string] := by
  refine ⟨piece_toJsonString h, ?_⟩
  have hzero := (escapes_escapeFrom h).noZero
  simp [toJsonString, cString_of_notMem h.noZero, hzero]

theorem prints_toJsonBool (b : Bool) : Prints false (toJsonBool b) [⟨.keyword, toJsonBool b⟩] := by
  cases b
  · exact ⟨piece_toJsonBool false, by decide⟩
  · exact ⟨piece_toJsonBool true, by decide⟩

theorem Prints.weaken (h : Prints true text k) : Prints false text k := by
  refine ⟨fun x hx hdelimited ↦ ?_, h.noZero⟩
  obtain ⟨y, l, hlexes, hy, htokens, -⟩ := h.piece x hx hdelimited
  exact ⟨y, l, hlexes, hy, htokens, nofun⟩

theorem Prints.newline (h : Prints true text k) (pretty : Bool) (indent : Int32) :
    Prints true (text ++ if pretty then line indent else []) k := by
  cases pretty
  · simpa using h
  · simpa using h.append (prints_line indent) (.inl rfl)

theorem Prints.close (h : Prints false text k) (pretty : Bool) (indent : Int32) {ch : UInt8}
    (hch : ch ∈ ([125, 93] : List UInt8)) :
    Prints true (text ++ (if pretty then line indent else []) ++ [ch]) (k ++ [operator ch]) := by
  have hdelimiter : ∀ ch ∈ ([125, 93] : List UInt8), isDelimiter ch ∧ ch ∈ ([123, 125, 91, 93, 44, 58] : List UInt8) :=
    forall_mem_of_all (by decide)
  have hend := prints_operator (hdelimiter ch hch).2
  cases pretty
  · simp only [Bool.false_eq_true, if_false, List.append_nil]
    refine h.append hend (.inr ?_)
    intro c hc
    cases hc
    exact (hdelimiter ch hch).1
  · simp only [if_true]
    rw [List.append_assoc]
    refine h.append ((prints_line indent).append hend (.inl rfl)) (.inr ?_)
    intro c hc
    cases hc
    rfl

theorem prints_separator {count : Int32} (hcount : count ≠ 0) (pretty : Bool) (indent : Int32) :
    Prints true (separator pretty indent count) [operator 44] ∧
      ∃ rest, separator pretty indent count = 44 :: rest := by
  have hcomma : Prints true [44] [operator 44] := prints_operator (by decide)
  have hsep : Prints true (ascii ", ") [operator 44] := hcomma.append prints_space (.inl rfl)
  unfold separator
  rw [if_neg hcount]
  exact ⟨hsep.newline pretty indent, _, rfl⟩

end Texts

section Loops

variable {α : Type} {item : α → Option (List UInt8)} {tokens : α → List Token} {pretty : Bool} {indent : Int32}
  {loop : Int32 → List α → Option (List UInt8)} {joined : Bool → List α → List Token}

-- The list and the dictionary are printed by the same loop.
theorem prints_loop (hnil : ∀ count, loop count [] = some [])
    (hcons : ∀ count x l, loop count (x :: l) = (item x).bind fun v ↦ (loop (count + 1) l).map fun r ↦
      separator pretty indent count ++ v ++ r)
    (hnone : ∀ first, joined first [] = [])
    (hsome : ∀ first x l, joined first (x :: l) = comma first ++ tokens x ++ joined false l) {l : List α}
    (hitems : ∀ x ∈ l, ∃ v, item x = some v ∧ Prints false v (tokens x)) {i : Nat} (hi : 0 < i)
    (hlength : i + l.length ≤ 2 ^ 32) :
    ∃ r, loop (Int32.ofInt i) l = some r ∧ Prints false r (joined false l) ∧ Delimited r := by
  induction l generalizing i with
  | nil =>
    refine ⟨[], hnil _, ?_, nofun⟩
    rw [hnone]
    exact ⟨piece_nil, List.not_mem_nil⟩
  | cons x l ih =>
    rw [List.length_cons] at hlength
    obtain ⟨v, hv, hprints⟩ := hitems x List.mem_cons_self
    obtain ⟨r, hr, hrest, hdelimited⟩ :=
      ih (fun y hy ↦ hitems y (List.mem_cons_of_mem x hy)) (Nat.succ_pos i) (by omega)
    have hcount : Int32.ofInt i ≠ 0 := ofInt_ne_zero (by omega) (by omega)
    have hsucc : Int32.ofInt i + 1 = Int32.ofInt (i + 1 : Nat) := (Int32.ofInt_add i 1).symm
    obtain ⟨hseparator, rest, hcomma⟩ := prints_separator hcount pretty indent
    refine ⟨separator pretty indent (Int32.ofInt i) ++ v ++ r, ?_, ?_, ?_⟩
    · rw [hcons, hv, hsucc, hr]
      rfl
    · rw [hsome]
      exact (hseparator.append hprints (.inl rfl)).append hrest (.inr hdelimited)
    · rw [hcomma]
      intro ch hch
      cases hch
      rfl

theorem prints_container (hnil : ∀ count, loop count [] = some [])
    (hcons : ∀ count x l, loop count (x :: l) = (item x).bind fun v ↦ (loop (count + 1) l).map fun r ↦
      separator pretty indent count ++ v ++ r)
    (hnone : ∀ first, joined first [] = [])
    (hsome : ∀ first x l, joined first (x :: l) = comma first ++ tokens x ++ joined false l) {l : List α}
    (hitems : ∀ x ∈ l, ∃ v, item x = some v ∧ Prints false v (tokens x)) (hlength : l.length ≤ 2 ^ 32)
    {opening closing : UInt8} (hopening : opening ∈ ([123, 91] : List UInt8))
    (hclosing : closing ∈ ([125, 93] : List UInt8)) (outer : Int32) :
    ∃ body, loop 0 l = some body ∧
      Prints false ([opening] ++ body ++ (if pretty then line outer else []) ++ [closing])
        (operator opening :: joined true l ++ [operator closing]) := by
  have hoperator : ∀ ch ∈ ([123, 91] : List UInt8), ch ∈ ([123, 125, 91, 93, 44, 58] : List UInt8) :=
    forall_mem_of_all (by decide)
  have hopen := prints_operator (hoperator opening hopening)
  cases l with
  | nil =>
    refine ⟨[], hnil 0, ?_⟩
    rw [hnone, List.append_nil]
    exact (hopen.weaken.close pretty outer hclosing).weaken
  | cons x l =>
    obtain ⟨v, hv, hprints⟩ := hitems x List.mem_cons_self
    obtain ⟨r, hr, hrest, hdelimited⟩ := prints_loop hnil hcons hnone hsome
      (fun y hy ↦ hitems y (List.mem_cons_of_mem x hy)) Nat.one_pos (by simpa [Nat.add_comm] using hlength)
    have hfirst : Prints true ([opening] ++ separator pretty indent 0) [operator opening] := by
      simpa [separator] using hopen.newline pretty indent
    refine ⟨separator pretty indent 0 ++ v ++ r, ?_, ?_⟩
    · rw [hcons, hv]
      change (loop (Int32.ofInt (1 : Nat)) l).map _ = _
      rw [hr]
      rfl
    · have hbody := (hfirst.append hprints (.inl rfl)).append hrest (.inr hdelimited)
      rw [hsome]
      simpa [comma, List.append_assoc] using (hbody.close pretty outer hclosing).weaken

end Loops

section Containers

variable (format : δ → List UInt8) (pretty : Bool) (indent count : Int32)

theorem toJsonList_cons (x : QObject δ) (l : List (QObject δ)) :
    toJsonList format pretty indent count (x :: l) = (toJson format pretty indent x).bind fun v ↦
      (toJsonList format pretty indent (count + 1) l).map fun r ↦ separator pretty indent count ++ v ++ r := by
  rw [toJsonList]
  cases toJson format pretty indent x with
  | none => rfl
  | some v => cases toJsonList format pretty indent (count + 1) l <;> rfl

/-- A pair of a dictionary, without the separator. -/
def toJsonPair (x : Key × QObject δ) : Option (List UInt8) :=
  (qstringFromStr x.1).bind fun qkey ↦ (toJson format pretty indent x.2).map fun v ↦
    toJsonString qkey ++ ascii ": " ++ v

theorem toJsonDict_cons (x : Key × QObject δ) (e : List (Key × QObject δ)) :
    toJsonDict format pretty indent count (x :: e) = (toJsonPair format pretty indent x).bind fun v ↦
      (toJsonDict format pretty indent (count + 1) e).map fun r ↦ separator pretty indent count ++ v ++ r := by
  obtain ⟨key, x⟩ := x
  rw [toJsonDict, toJsonPair]
  cases qstringFromStr key with
  | none => rfl
  | some qkey =>
    cases toJson format pretty indent x with
    | none => rfl
    | some v =>
      cases toJsonDict format pretty indent (count + 1) e with
      | none => rfl
      | some r => simp

def pairTokens (x : Key × QObject δ) : List Token := stringToken x.1.val :: operator 58 :: tokensOf x.2

theorem itemTokens_cons (first : Bool) (x : QObject δ) (l : List (QObject δ)) :
    itemTokens first (x :: l) = comma first ++ tokensOf x ++ itemTokens false l := rfl

theorem entryTokens_cons (first : Bool) (x : Key × QObject δ) (e : List (Key × QObject δ)) :
    entryTokens first (x :: e) = comma first ++ pairTokens x ++ entryTokens false e := rfl

theorem prints_pair {x : Key × QObject δ} (hutf8 : Utf8 x.1.val) (hshort : x.1.val.length < 2 ^ 31) {text : List UInt8}
    (htext : toJson format pretty indent x.2 = some text) (h : Prints false text (tokensOf x.2)) :
    ∃ v, toJsonPair format pretty indent x = some v ∧ Prints false v (pairTokens x) := by
  have hoperator : Prints true [58] [operator 58] := prints_operator (by decide)
  have hcolon : Prints true (ascii ": ") [operator 58] := hoperator.append prints_space (.inl rfl)
  refine ⟨toJsonString x.1.val ++ ascii ": " ++ text, ?_, ?_⟩
  · rw [toJsonPair, qstringFromStr_short hshort, htext]
    rfl
  · exact ((prints_toJsonString hutf8).append hcolon (.inl rfl)).append h (.inl rfl)

end Containers

/-- A tree that is not too large is printed as its tokens. -/
theorem prints_toJson {o : QObject δ} (hplain : Plain o) (hsized : Sized o)
    (format : δ → List UInt8) (pretty : Bool) (indent : Int32) :
    ∃ text, toJson format pretty indent o = some text ∧ Prints false text (tokensOf o) := by
  induction o using QObject.induct generalizing indent with
  | qint v => exact ⟨_, rfl, piece_toJsonInt v, notMem_toJsonInt v⟩
  | qbool b => exact ⟨_, rfl, prints_toJsonBool b⟩
  | qstring s => exact ⟨_, rfl, (prints_toJsonString hplain).weaken⟩
  | qfloat x => exact hplain.elim
  | qlist l ih =>
    have hitems : ∀ x ∈ l, ∃ v, toJson format pretty (indent + 1) x = some v ∧ Prints false v (tokensOf x) :=
      fun x hx ↦ ih x hx (plainItems_iff.mp hplain x hx) (sizedItems_iff.mp hsized.2 x hx) (indent + 1)
    obtain ⟨body, hbody, hprints⟩ := prints_container (fun _ ↦ by rw [toJsonList])
      (toJsonList_cons format pretty (indent + 1)) (fun _ ↦ by rw [itemTokens]) itemTokens_cons hitems hsized.1
      (by decide : (91 : UInt8) ∈ [123, 91]) (by decide : (93 : UInt8) ∈ [125, 93]) indent
    exact ⟨_, by rw [toJson, hbody]; rfl, hprints⟩
  | qdict e ih =>
    have hitems : ∀ x ∈ e, ∃ v, toJsonPair format pretty (indent + 1) x = some v ∧ Prints false v (pairTokens x) := by
      intro x hx
      obtain ⟨⟨hutf8, -⟩, hx'⟩ := plainEntries_iff.mp hplain.2 x hx
      obtain ⟨hshort, hsized'⟩ := sizedEntries_iff.mp hsized.2 x hx
      obtain ⟨text, htext, h⟩ := ih x hx hx' hsized' (indent + 1)
      exact prints_pair format pretty (indent + 1) hutf8 hshort htext h
    obtain ⟨body, hbody, hprints⟩ := prints_container (fun _ ↦ by rw [toJsonDict])
      (toJsonDict_cons format pretty (indent + 1)) (fun _ ↦ by rw [entryTokens]) entryTokens_cons hitems hsized.1
      (by decide : (123 : UInt8) ∈ [123, 91]) (by decide : (125 : UInt8) ∈ [125, 93]) indent
    exact ⟨_, by rw [toJson, hbody]; rfl, hprints⟩

end IDeviceEmulator.Json
