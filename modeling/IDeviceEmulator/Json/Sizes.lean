import IDeviceEmulator.Json.RoundTrip

namespace IDeviceEmulator.Json

open Backtrack Qobject
open Qobject.Qdict (Key bucketOf)

variable {δ : Type}

section Lengths

def itemCost (l : List (QObject δ)) : Nat := (l.map fun x ↦ (tokensOf x).length + 1).sum

theorem length_itemTokens (l : List (QObject δ)) :
    (itemTokens false l).length = itemCost l ∧ (itemTokens true l).length = itemCost l - 1 := by
  induction l with
  | nil => simp [itemTokens, itemCost]
  | cons x l ih =>
    obtain ⟨hlength, -⟩ := ih
    simp only [itemTokens, comma, Bool.false_eq_true, if_false, if_true, List.length_append, List.length_cons,
      List.length_nil, hlength, itemCost, List.map_cons, List.sum_cons]
    omega

def entryCost (e : List (Key × QObject δ)) : Nat := (e.map fun x ↦ (tokensOf x.2).length + 3).sum

theorem length_entryTokens (e : List (Key × QObject δ)) :
    (entryTokens false e).length = entryCost e ∧ (entryTokens true e).length = entryCost e - 1 := by
  induction e with
  | nil => simp [entryTokens, entryCost]
  | cons x e ih =>
    obtain ⟨hlength, -⟩ := ih
    simp only [entryTokens_cons, pairTokens, comma, Bool.false_eq_true, if_false, if_true, List.length_append,
      List.length_cons, List.length_nil, hlength, entryCost, List.map_cons, List.sum_cons]
    omega

theorem entryCost_perm {e e' : List (Key × QObject δ)} (h : e.Perm e') : entryCost e = entryCost e' :=
  (h.map _).sum_eq

-- Equal objects have texts of as many tokens.
theorem length_of_same {o o' : QObject δ} (hplain : Plain o) (h : Same o o') :
    (tokensOf o').length = (tokensOf o).length := by
  induction o using QObject.induct generalizing o' with
  | qint v => rw [show o' = _ from h]
  | qbool b => rw [show o' = _ from h]
  | qstring s => rw [show o' = _ from h]
  | qfloat x => rw [show o' = _ from h]
  | qlist l ih =>
    obtain ⟨l', rfl, hsame⟩ := h
    replace hplain := plainItems_iff.mp hplain
    have hcost : itemCost l' = itemCost l := by
      induction l generalizing l' with
      | nil => rw [show l' = [] from hsame]
      | cons x l ihl =>
        obtain ⟨x', r, rfl, hx, hr⟩ := hsame
        have hrest := ihl (fun y hy ↦ ih y (List.mem_cons_of_mem x hy)) r hr
          fun y hy ↦ hplain y (List.mem_cons_of_mem x hy)
        simp only [itemCost, List.map_cons, List.sum_cons] at hrest ⊢
        rw [ih x List.mem_cons_self (hplain x List.mem_cons_self) hx, hrest]
    simp only [tokensOf, List.length_append, List.length_cons, List.length_nil, (length_itemTokens _).2, hcost]
  | qdict e ih =>
    obtain ⟨e', rfl, hkeys, hsame⟩ := h
    have hentries := plainEntries_iff.mp hplain.2
    obtain ⟨l, hpairs, hperm⟩ := pairs_of_sameEntries hsame hkeys hplain.1
    have hcost : entryCost l = entryCost e := by
      clear hperm hkeys hsame hplain
      induction hpairs with
      | nil => rfl
      | @cons x y e l hxy _ ihl =>
        have hx := ih x List.mem_cons_self (hentries x List.mem_cons_self).2 hxy.2
        have hrest :=
          ihl (fun z hz ↦ ih z (List.mem_cons_of_mem x hz)) fun z hz ↦ hentries z (List.mem_cons_of_mem x hz)
        simp only [entryCost, List.map_cons, List.sum_cons] at hrest ⊢
        rw [hx, hrest]
    simp only [tokensOf, List.length_append, List.length_cons, List.length_nil, (length_entryTokens _).2,
      entryCost_perm hperm, hcost]

end Lengths

section Consumption

variable {strtod : List UInt8 → δ} {value : Parser (QObject δ)} {α β : Type} {l : List Token}
  {Q : α → List Token → Prop}

theorem gives_pop {f : Option Token → Parser α} (hnone : Gives (f none) [] Q)
    (hsome : ∀ t r, l = t :: r → Gives (f (some t)) r Q) : Gives (qlistPop >>= f) l Q := by
  cases l with
  | nil => exact hnone
  | cons t r => exact hsome t r rfl

theorem gives_peek {f : Option Token → Parser α} (hnone : Gives (f none) [] Q)
    (hsome : ∀ t r, l = t :: r → Gives (f (some t)) l Q) : Gives (qlistPeek >>= f) l Q := by
  cases l with
  | nil => exact hnone
  | cons t r => exact hsome t r rfl

/-- What is parsed has no more tokens than were taken for it. -/
def Consumes (value : Parser (QObject δ)) : Prop :=
  ∀ l, Gives value l fun o r ↦ (tokensOf o).length + r.length ≤ l.length

theorem gives_operator_none {f : Bool → Parser α} (op : Char) : Gives (tokenIsOperator none op >>= f) l Q := by
  unfold tokenIsOperator tokenGetType
  simp only [bind_assoc]
  intro a t h
  rw [result_bind_error (result_fault _ _)] at h
  cases h

theorem entryCost_replaceEntry (key : Key) (o : QObject δ) (dict : List (Key × QObject δ)) :
    entryCost (replaceEntry key o dict) ≤ entryCost dict + ((tokensOf o).length + 3) := by
  induction dict with
  | nil => exact Nat.zero_le _
  | cons entry dict ih =>
    rw [replaceEntry]
    split_ifs
    · simp only [entryCost, List.map_cons, List.sum_cons]
      omega
    · simp only [entryCost, List.map_cons, List.sum_cons] at ih ⊢
      omega

theorem entryCost_pos {dict : List (Key × QObject δ)} (h : dict ≠ []) : 0 < entryCost dict := by
  obtain ⟨x, e, rfl⟩ := List.exists_cons_of_ne_nil h
  simp only [entryCost, List.map_cons, List.sum_cons]
  omega

theorem replaceEntry_ne_nil {key : Key} {o : QObject δ} {dict : List (Key × QObject δ)} (h : dict ≠ []) :
    replaceEntry key o dict ≠ [] := by
  obtain ⟨x, e, rfl⟩ := List.exists_cons_of_ne_nil h
  rw [replaceEntry]
  split_ifs
  · exact List.cons_ne_nil _ _
  · exact List.cons_ne_nil _ _

theorem gives_put (dict : List (Key × QObject δ)) (key : Key) (o : QObject δ) (l : List Token) :
    Gives (put dict key o) l fun dict' r ↦
      r = l ∧ 0 < entryCost dict' ∧ entryCost dict' ≤ entryCost dict + ((tokensOf o).length + 3) := by
  unfold put
  cases hput : qdictPutObj dict key o with
  | error e => exact gives_fault
  | ok dict' =>
    refine gives_pure ⟨rfl, ?_⟩
    unfold qdictPutObj at hput
    cases hbucket : bucketOf key with
    | error e =>
      rw [hbucket] at hput
      cases hput
    | ok bucket =>
      rw [hbucket] at hput
      cases hput
      dsimp only
      split_ifs with hmem
      · have hne : dict ≠ [] := by
          intro hnil
          rw [hnil] at hmem
          cases hmem
        exact ⟨entryCost_pos (replaceEntry_ne_nil hne), entryCost_replaceEntry key o dict⟩
      · have hperm := entryCost_perm (insertEntry_perm bucket (key, o) dict)
        rw [hperm]
        simp only [entryCost, List.map_cons, List.sum_cons]
        omega

theorem gives_parsePair (h : Consumes value) (dict : List (Key × QObject δ)) (l : List Token) :
    Gives (parsePair value dict) l fun dict' r ↦
      0 < entryCost dict' ∧ entryCost dict' + r.length ≤ entryCost dict + l.length + 1 := by
  refine (h l).bind fun key r hkey ↦ ?_
  cases key with
  | qstring str =>
    refine gives_pop (gives_operator_none ':') fun t r' hr ↦ ?_
    rw [tokenIsOperator_some, pure_bind]
    refine gives_ite (fun _ ↦ (h r').bind fun o rest ho ↦ ?_) fun _ ↦ gives_failure
    intro dict' rest' hput
    obtain ⟨rfl, hpos, hcost⟩ := gives_put dict (cString str) o rest dict' rest' hput
    refine ⟨hpos, ?_⟩
    have hstring : (tokensOf (.qstring str : QObject δ)).length = 1 := by simp [tokensOf]
    rw [hstring, hr, List.length_cons] at hkey
    omega
  | _ => exact gives_failure

-- The separator in front of an entry pays for the token that is popped behind it.
theorem gives_loop {loop : β → Option Token → Nat → Parser β} (close : Char) (item : β → Parser β) (size : β → Nat)
    (hzero : ∀ x t l Q, Gives (loop x t 0) l Q) (hnone : ∀ x n l Q, Gives (loop x none n) l Q)
    (hloop : ∀ x t n, loop x (some t) (n + 1) = if t.IsOperator close then pure x
      else if t.IsOperator ',' then item x >>= fun y ↦ qlistPop >>= fun token ↦ loop y token n else failure)
    (hitem : ∀ x l, Gives (item x) l fun y r ↦ 0 < size y ∧ size y + r.length ≤ size x + l.length + 1)
    {x : β} (hx : 0 < size x) (t : Token) (l : List Token) (n : Nat) :
    Gives (loop x (some t) n) l fun y r ↦ 0 < size y ∧ size y + r.length ≤ size x + l.length := by
  induction n generalizing x t l with
  | zero => exact hzero x (some t) l _
  | succ n ih =>
    rw [hloop]
    refine gives_ite (fun _ ↦ gives_pure ⟨hx, Nat.le_refl _⟩) fun _ ↦ gives_ite (fun _ ↦ ?_) fun _ ↦ gives_failure
    refine (hitem x l).bind fun y r hy ↦ gives_pop (hnone y n [] _) fun t' r' hr ↦ ?_
    intro z rest hz
    obtain ⟨hpos, hle⟩ := ih hy.1 t' r' z rest hz
    have hcost := hy.2
    rw [hr, List.length_cons] at hcost
    exact ⟨hpos, by omega⟩

theorem gives_parsePairs_none (value : Parser (QObject δ)) (dict : List (Key × QObject δ)) (n : Nat) (l : List Token)
    (Q : List (Key × QObject δ) → List Token → Prop) : Gives (parsePairs value dict none n) l Q := by
  cases n with
  | zero =>
    rw [parsePairs]
    exact gives_fault
  | succ n =>
    rw [parsePairs]
    exact gives_operator_none '\x7d'

theorem gives_parsePairs (h : Consumes value) {dict : List (Key × QObject δ)} (hpos : 0 < entryCost dict) (t : Token)
    (l : List Token) (n : Nat) :
    Gives (parsePairs value dict (some t) n) l fun dict' r ↦
      0 < entryCost dict' ∧ entryCost dict' + r.length ≤ entryCost dict + l.length := by
  refine gives_loop '\x7d' (parsePair value) entryCost ?_ (gives_parsePairs_none value) ?_
    (gives_parsePair h) hpos t l n
  · intro x t l Q
    rw [parsePairs]
    exact gives_fault
  · intro x t n
    simp only [parsePairs, tokenIsOperator_some, pure_bind, decide_eq_true_eq]

theorem gives_parseItems_none (value : Parser (QObject δ)) (list : List (QObject δ)) (n : Nat) (l : List Token)
    (Q : List (QObject δ) → List Token → Prop) : Gives (parseItems value list none n) l Q := by
  cases n with
  | zero =>
    rw [parseItems]
    exact gives_fault
  | succ n =>
    rw [parseItems]
    exact gives_operator_none ']'

theorem gives_parseItems (h : Consumes value) {list : List (QObject δ)} (hpos : 0 < itemCost list) (t : Token)
    (l : List Token) (n : Nat) :
    Gives (parseItems value list (some t) n) l fun list' r ↦
      0 < itemCost list' ∧ itemCost list' + r.length ≤ itemCost list + l.length := by
  refine gives_loop ']' (fun list ↦ value >>= fun o ↦ pure (list ++ [o])) itemCost ?_ (gives_parseItems_none value)
    ?_ ?_ hpos t l n
  · intro x t l Q
    rw [parseItems]
    exact gives_fault
  · intro x t n
    simp only [parseItems, tokenIsOperator_some, pure_bind, bind_assoc, decide_eq_true_eq]
  · intro x l
    refine (h l).bind fun o r ho ↦ gives_pure ?_
    simp only [itemCost, List.map_append, List.sum_append, List.map_cons, List.sum_cons, List.map_nil, List.sum_nil]
    omega

theorem length_qdict (e : List (Key × QObject δ)) : (tokensOf (.qdict e)).length = entryCost e - 1 + 2 := by
  simp [tokensOf, (length_entryTokens e).2]

theorem length_qlist (l : List (QObject δ)) : (tokensOf (.qlist l)).length = itemCost l - 1 + 2 := by
  simp [tokensOf, (length_itemTokens l).2]

theorem consumes_parseObject (h : Consumes value) (fuel : Nat) : Consumes (parseObject value fuel) := by
  intro l
  refine gives_pop (gives_operator_none '\x7b') fun t r hl ↦ ?_
  rw [tokenIsOperator_some, pure_bind]
  refine gives_ite (fun _ ↦ gives_peek (gives_operator_none '\x7d') fun t' r' hr ↦ ?_) fun _ ↦ gives_failure
  rw [tokenIsOperator_some, pure_bind]
  have hlength : l.length = r'.length + 2 := by simp [hl, hr]
  refine gives_ite (fun _ ↦ ?_) fun _ ↦ ?_
  · rw [hr]
    refine gives_pure ?_
    rw [length_qdict]
    exact (Nat.add_comm _ _).trans_le hlength.ge
  · refine (gives_parsePair h [] r).bind fun dict r₁ hdict ↦ ?_
    refine gives_pop ?_ fun t'' r₂ hr₁ ↦ ?_
    · exact (gives_parsePairs_none value dict fuel [] fun _ _ ↦ False).bind fun _ _ hfalse ↦ hfalse.elim
    · refine (gives_parsePairs h hdict.1 t'' r₂ fuel).bind fun dict' r₃ hdict' ↦ gives_pure ?_
      obtain ⟨-, hcost⟩ := hdict
      obtain ⟨hpos, hcost'⟩ := hdict'
      rw [length_qdict]
      rw [hr₁, hr, List.length_cons, List.length_cons] at hcost
      change _ ≤ 0 + _ + 1 at hcost
      omega

theorem consumes_parseArray (h : Consumes value) (fuel : Nat) : Consumes (parseArray value fuel) := by
  intro l
  refine gives_pop (gives_operator_none '[') fun t r hl ↦ ?_
  rw [tokenIsOperator_some, pure_bind]
  refine gives_ite (fun _ ↦ gives_peek (gives_operator_none ']') fun t' r' hr ↦ ?_) fun _ ↦ gives_failure
  rw [tokenIsOperator_some, pure_bind]
  have hlength : l.length = r'.length + 2 := by simp [hl, hr]
  refine gives_ite (fun _ ↦ ?_) fun _ ↦ ?_
  · rw [hr]
    refine gives_pure ?_
    rw [length_qlist]
    exact (Nat.add_comm _ _).trans_le hlength.ge
  · refine (h r).bind fun o r₁ ho ↦ ?_
    refine gives_pop ?_ fun t'' r₂ hr₁ ↦ ?_
    · exact (gives_parseItems_none value [o] fuel [] fun _ _ ↦ False).bind fun _ _ hfalse ↦ hfalse.elim
    · have hone : itemCost [o] = (tokensOf o).length + 1 := rfl
      refine (gives_parseItems h (hone ▸ Nat.succ_pos _) t'' r₂ fuel).bind fun list r₃ hlist ↦ gives_pure ?_
      obtain ⟨hpos, hcost⟩ := hlist
      rw [length_qlist]
      rw [hr₁, hr, List.length_cons, List.length_cons] at ho
      omega

theorem consumes_parseKeyword : Consumes (parseKeyword : Parser (QObject δ)) := by
  intro l
  refine gives_pop ?_ fun t r hl ↦ ?_
  · intro a s h
    cases h
  · have hlength : 1 + r.length ≤ l.length := by simp [hl, Nat.add_comm]
    simp only [tokenIsKeyword, tokenGetType, tokenGetValue, pure_bind]
    refine gives_ite (fun ht ↦ ?_) fun _ ↦ gives_failure
    rw [if_pos ht, pure_bind]
    refine gives_ite (fun _ ↦ gives_pure hlength) fun _ ↦ ?_
    rw [if_pos ht, pure_bind]
    exact gives_ite (fun _ ↦ gives_pure hlength) fun _ ↦ gives_failure

theorem consumes_parseLiteral (strtod : List UInt8 → δ) : Consumes (parseLiteral strtod) := by
  intro l
  refine gives_pop ?_ fun t r hl ↦ ?_
  · intro a s h
    cases h
  · have hlength : 1 + r.length ≤ l.length := by simp [hl, Nat.add_comm]
    unfold tokenGetType tokenGetValue
    simp only [pure_bind]
    cases t.type with
    | string =>
      cases qstringFromEscapedStr (cString t.token).val with
      | none => exact gives_failure
      | some str => exact gives_pure hlength
    | integer => exact gives_pure hlength
    | float => exact gives_pure ((Nat.add_le_add_right (Nat.zero_le 1) _).trans hlength)
    | operator => exact gives_failure
    | keyword => exact gives_failure
    | escape => exact gives_failure

theorem consumes_parseValue (strtod : List UInt8 → δ) (fuel : Nat) : Consumes (parseValue strtod fuel) := by
  induction fuel with
  | zero =>
    intro l
    exact gives_fault
  | succ fuel ih =>
    intro l
    refine (consumes_parseObject ih fuel l).orElse ((consumes_parseArray ih fuel l).orElse ?_)
    exact gives_failure.orElse ((consumes_parseKeyword l).orElse (consumes_parseLiteral strtod l))

theorem length_of_parsed {tokens : List Token} {o : QObject δ} (h : jsonParserParse strtod tokens = .ok (some o)) :
    (tokensOf o).length ≤ tokens.length := by
  unfold jsonParserParse at h
  cases hresult : (parseValue strtod (tokens.length + 1)).result tokens with
  | error e =>
    rw [hresult] at h
    cases h
  | ok r =>
    cases r with
    | none =>
      rw [hresult] at h
      cases h
    | some p =>
      rw [hresult] at h
      cases h
      exact (Nat.le_add_right _ _).trans (consumes_parseValue strtod _ tokens p.1 p.2 hresult)

end Consumption

end IDeviceEmulator.Json
