import IDeviceEmulator.Opts.Parse
import Mathlib.Data.List.Intervals

namespace IDeviceEmulator.Opts

/-- An option as a user means it: two C strings that the buffers of the parser hold. -/
structure Pair where
  name : Text
  value : Text
  zero_notMem : 0 ∉ name ++ value
  comma_notMem : comma ∉ name
  equals_notMem : equals ∉ name
  length_name : name.length < 128
  length_value : value.length < 1024

/-- A value with each comma doubled. -/
def doubled (value : Text) : Text := value.flatMap fun c ↦ if c = comma then [comma, comma] else [c]

def Pair.written (p : Pair) : Text := p.name ++ equals :: doubled p.value

def written (pairs : List Pair) : Text := [comma].intercalate (pairs.map Pair.written)

def idValue (pairs : List Pair) : Option Text := (pairs.find? (·.name = idName)).map Pair.value

/-- The other pairs as options. -/
def others (pairs : List Pair) : List QemuOpt := (pairs.filter (·.name ≠ idName)).map fun p ↦ ⟨p.name, p.value⟩

/-- `id=` -/
def idEquals : Text := idName ++ [equals]

/-- The text behind the first `,id=` of a value. -/
def afterId : Text → Option Text
  | [] => none
  | c :: p => if c = comma ∧ idEquals <+: p then some (p.drop 3) else afterId p

/-- The pairs before the id, or all of them if there is none. -/
def beforeId (pairs : List Pair) : List Pair := pairs.takeWhile (·.name ≠ idName)

/-- The written pairs are read back. -/
def Decodes (list : QemuOptsList) (pairs : List Pair) : Prop :=
  qemuOptsParse list (written pairs) false =
    .ok ({ list with head := list.head ++ [⟨idValue pairs, others pairs⟩] }, ⟨idValue pairs, others pairs⟩)

/-- What follows a pair. -/
def joined (pairs : List Pair) : Text := pairs.flatMap fun p ↦ comma :: p.written

theorem written_cons (p : Pair) (pairs : List Pair) : written (p :: pairs) = p.written ++ joined pairs := by
  induction pairs generalizing p with
  | nil => simp [written, joined, List.intercalate]
  | cons q pairs ih =>
    have hnext := ih q
    unfold written at hnext ⊢
    rw [List.map_cons, List.map_cons, List.intercalate_cons_cons, ← List.map_cons, hnext]
    simp [joined]

section Values

variable {buf v rest : Text}

/-- What a value ends at: the end of the string, or a comma that is not doubled. -/
def Ends (rest : Text) : Prop := rest = [] ∨ ∃ c p, c ≠ comma ∧ rest = comma :: c :: p

theorem written_ne_comma (p : Pair) (rest : Text) : ∃ c text, c ≠ comma ∧ p.written ++ rest = c :: text := by
  cases hname : p.name with
  | nil => exact ⟨equals, doubled p.value ++ rest, by decide, by simp [Pair.written, hname]⟩
  | cons c name =>
    refine ⟨c, name ++ equals :: doubled p.value ++ rest, ?_, by simp [Pair.written, hname]⟩
    rintro rfl
    exact p.comma_notMem (hname ▸ List.mem_cons_self)

theorem ends_joined (pairs : List Pair) : Ends (joined pairs) := by
  cases pairs with
  | nil => exact .inl rfl
  | cons p pairs =>
    obtain ⟨c, text, hc, htext⟩ := written_ne_comma p (joined pairs)
    exact .inr ⟨c, text, hc, congrArg (comma :: ·) htext⟩

theorem copy_of_lt {bufSize : Nat} (c : UInt8) (h : buf.length + 1 < bufSize) : copy bufSize buf c = buf ++ [c] :=
  if_pos h

theorem getOptValue_cons {bufSize : Nat} {c : UInt8} (hc : c ≠ comma) (p : Text) :
    getOptValue bufSize buf (c :: p) = getOptValue bufSize (copy bufSize buf c) p := by
  cases p with
  | nil => simp only [getOptValue, if_neg hc]
  | cons c' p => rw [getOptValue, if_neg hc]

theorem doubled_cons_of_ne {c : UInt8} (hc : c ≠ comma) (v : Text) : doubled (c :: v) = c :: doubled v := by
  rw [doubled, List.flatMap_cons, if_neg hc]
  rfl

theorem doubled_comma (v : Text) : doubled (comma :: v) = comma :: comma :: doubled v := by
  rw [doubled, List.flatMap_cons, if_pos rfl]
  rfl

theorem getOptValue_doubled (hrest : Ends rest) (hlt : (buf ++ v).length < 1024) :
    getOptValue 1024 buf (doubled v ++ rest) = (buf ++ v, rest) := by
  induction v generalizing buf with
  | nil =>
    rw [List.append_nil]
    rcases hrest with rfl | ⟨c, p, hc, rfl⟩
    · rfl
    · change getOptValue 1024 buf (comma :: c :: p) = _
      rw [getOptValue, if_pos rfl, if_pos hc]
  | cons c v ih =>
    have happend : buf ++ c :: v = buf ++ [c] ++ v := by simp
    rw [happend] at hlt ⊢
    have hroom : buf.length + 1 < 1024 := by
      simp only [List.length_append, List.length_singleton] at hlt
      omega
    by_cases hc : c = comma
    · subst hc
      rw [doubled_comma, List.cons_append, List.cons_append, getOptValue, if_pos rfl, if_neg (not_not.mpr rfl),
        copy_of_lt _ hroom]
      exact ih hlt
    · rw [doubled_cons_of_ne hc, List.cons_append, getOptValue_cons hc, copy_of_lt _ hroom]
      exact ih hlt

theorem getOptName_append {bufSize : Nat} {delim : UInt8} {name : Text} (hname : delim ∉ name)
    (hlt : (buf ++ name).length < bufSize) (rest : Text) :
    getOptName bufSize delim buf (name ++ delim :: rest) = (buf ++ name, delim :: rest) := by
  induction name generalizing buf with
  | nil =>
    rw [List.nil_append, getOptName, if_pos rfl, List.append_nil]
  | cons c name ih =>
    obtain ⟨hc, hnotMem⟩ := List.ne_and_not_mem_of_not_mem_cons hname
    have happend : buf ++ c :: name = buf ++ [c] ++ name := by simp
    rw [happend] at hlt ⊢
    have hroom : buf.length + 1 < bufSize := by
      simp only [List.length_append, List.length_singleton] at hlt
      omega
    rw [List.cons_append, getOptName, if_neg (Ne.symm hc), copy_of_lt _ hroom]
    exact ih hnotMem hlt

end Values

theorem strchr_append {name : Text} {c : UInt8} (h : c ∉ name) (rest : Text) :
    strchr (name ++ rest) c = (strchr rest c).map (· + name.length) := by
  have hnone : name.findIdx? (· = c) = none := by
    rw [List.findIdx?_eq_none_iff]
    intro x hx
    exact decide_eq_false fun heq ↦ h (heq ▸ hx)
  rw [strchr, List.findIdx?_append, hnone, Option.none_or]
  rfl

theorem nextOption_written (firstname : Option Text) (p : Pair) {rest : Text} (hrest : Ends rest) :
    nextOption firstname (p.written ++ rest) = some (p.name, p.value, rest) := by
  have htext : p.written ++ rest = p.name ++ equals :: (doubled p.value ++ rest) := by simp [Pair.written]
  have hname := @getOptName_append [] 128 equals p.name p.equals_notMem p.length_name (doubled p.value ++ rest)
  have hvalue := @getOptValue_doubled [] p.value rest hrest p.length_value
  have hpe : strchr (p.written ++ rest) equals = some p.name.length := by
    rw [htext, strchr_append p.equals_notMem, strchr, List.findIdx?_cons, if_pos (decide_eq_true rfl)]
    exact congrArg some (Nat.zero_add _)
  have hpc : ∀ i ∈ strchr (p.written ++ rest) comma, ¬ i < p.name.length := by
    intro i hi
    rw [htext, strchr_append p.comma_notMem] at hi
    obtain ⟨k, -, rfl⟩ := Option.map_eq_some_iff.mp hi
    exact Nat.not_lt.mpr (Nat.le_add_left _ k)
  have hbranch : ¬ (strchr (p.written ++ rest) equals = none ∨
      ∃ i ∈ strchr (p.written ++ rest) comma, ∃ j ∈ strchr (p.written ++ rest) equals, i < j) := by
    rintro (hnone | ⟨i, hi, j, hj, hlt⟩)
    · rw [hpe] at hnone
      cases hnone
    · rw [hpe] at hj
      cases hj
      exact hpc i hi hlt
  unfold nextOption
  dsimp only
  rw [if_neg hbranch, htext, hname]
  simp only [List.nil_append]
  rw [hvalue]
  rfl

section Options

variable {list : QemuOptsList}

theorem store_pair (hany : list.desc = []) (opts : QemuOpts) (p : Pair) :
    opts.store list p.name p.value = .ok { opts with head := opts.head ++ others [p] } := by
  unfold QemuOpts.store others
  by_cases hid : p.name = idName
  · rw [if_neg (not_not.mpr hid)]
    simp [hid]
  · rw [if_pos hid]
    simp [qemuOptSet, hany, hid]

theorem others_cons (p : Pair) (pairs : List Pair) : others (p :: pairs) = others [p] ++ others pairs := by
  simp only [others, ← List.map_append, ← List.filter_append, List.singleton_append]

theorem qemuOptsDoParse_written (hany : list.desc = []) (pairs : List Pair) (opts : QemuOpts)
    (firstname : Option Text) :
    qemuOptsDoParse list opts (written pairs) firstname = .ok { opts with head := opts.head ++ others pairs } := by
  induction pairs generalizing opts firstname with
  | nil =>
    rw [qemuOptsDoParse]
    simp [written, others]
  | cons p pairs ih =>
    have hnext := nextOption_written firstname p (ends_joined pairs)
    have hne : written (p :: pairs) ≠ [] := by
      obtain ⟨c, text, -, htext⟩ := written_ne_comma p (joined pairs)
      rw [written_cons, htext]
      exact List.cons_ne_nil c text
    rw [← written_cons] at hnext
    cases pairs with
    | nil =>
      rw [qemuOptsDoParse, if_neg hne]
      split
      · next hnone => cases hnext.symm.trans hnone
      · next option value rest hsome =>
        cases hnext.symm.trans hsome
        rw [store_pair hany]
        rfl
    | cons q pairs =>
      have hjoined : joined (q :: pairs) = comma :: written (q :: pairs) := by
        rw [written_cons]
        rfl
      have hrest := ih { opts with head := opts.head ++ others [p] } none
      rw [hjoined] at hnext
      rw [qemuOptsDoParse, if_neg hne]
      split
      · next hnone => cases hnext.symm.trans hnone
      · next option value rest hsome =>
        cases hnext.symm.trans hsome
        rw [store_pair hany, others_cons p (q :: pairs), ← List.append_assoc]
        exact (if_pos rfl).trans hrest

end Options

section Id

variable {v rest : Text}

theorem comma_notMem_idEquals : comma ∉ idEquals := by decide

theorem doubled_of_notMem {text : Text} (h : comma ∉ text) : doubled text = text := by
  induction text with
  | nil => rfl
  | cons c text ih =>
    obtain ⟨hc, hnotMem⟩ := List.ne_and_not_mem_of_not_mem_cons h
    rw [doubled_cons_of_ne (Ne.symm hc), ih hnotMem]

theorem doubled_append (v v' : Text) : doubled (v ++ v') = doubled v ++ doubled v' := List.flatMap_append

/-- A text without commas begins a value just when it begins what is written for it. -/
theorem prefix_doubled_iff {text : Text} (htext : comma ∉ text) (hrest : Ends rest) :
    text <+: doubled v ++ rest ↔ text <+: v := by
  induction text generalizing v with
  | nil => exact iff_of_true List.nil_prefix List.nil_prefix
  | cons a text ih =>
    obtain ⟨ha, hnotMem⟩ := List.ne_and_not_mem_of_not_mem_cons htext
    cases v with
    | nil =>
      refine iff_of_false ?_ (by simp)
      rcases hrest with rfl | ⟨c, p, hc, rfl⟩
      · simp [doubled]
      · simp only [doubled, List.flatMap_nil, List.nil_append, List.cons_prefix_cons]
        exact fun h ↦ ha h.1.symm
    | cons c v =>
      by_cases hc : c = comma
      · subst hc
        rw [doubled_comma, List.cons_append, List.cons_prefix_cons, List.cons_prefix_cons]
        exact iff_of_false (fun h ↦ ha h.1.symm) (fun h ↦ ha h.1.symm)
      · rw [doubled_cons_of_ne hc, List.cons_append, List.cons_prefix_cons, List.cons_prefix_cons, ih hnotMem]

theorem strstr_of_prefix {text needle : Text} (h : needle <+: text) : strstr text needle = some text := by
  rw [strstr.eq_def, if_pos (List.isPrefixOf_iff_prefix.mpr h)]

theorem strstr_cons {c : UInt8} {text needle : Text} (h : ¬ needle <+: c :: text) :
    strstr (c :: text) needle = strstr text needle := by
  rw [strstr, if_neg fun hp ↦ h (List.isPrefixOf_iff_prefix.mp hp)]

theorem strstr_cons_of_ne {c : UInt8} (hc : c ≠ comma) (text : Text) :
    strstr (c :: text) (comma :: idEquals) = strstr text (comma :: idEquals) :=
  strstr_cons fun h ↦ hc (List.cons_prefix_cons.mp h).1.symm

theorem strstr_append {text : Text} (h : comma ∉ text) (rest : Text) :
    strstr (text ++ rest) (comma :: idEquals) = strstr rest (comma :: idEquals) := by
  induction text with
  | nil => rfl
  | cons c text ih =>
    obtain ⟨hc, hnotMem⟩ := List.ne_and_not_mem_of_not_mem_cons h
    rw [List.cons_append, strstr_cons_of_ne (Ne.symm hc), ih hnotMem]

/-- The text that is found in a value, although each of its commas is doubled, or else behind the
value. -/
theorem strstr_doubled (hrest : Ends rest) (v : Text) :
    strstr (doubled v ++ rest) (comma :: idEquals) =
      ((afterId v).map fun text ↦ comma :: idEquals ++ (doubled text ++ rest)).or
        (strstr rest (comma :: idEquals)) := by
  induction v with
  | nil => rfl
  | cons c v ih =>
    by_cases hc : c = comma
    · subst hc
      have hsecond : ¬ comma :: idEquals <+: comma :: comma :: (doubled v ++ rest) := by
        rw [List.cons_prefix_cons, idEquals, idName, List.cons_append, List.cons_prefix_cons]
        exact fun h ↦ absurd h.2.1 (by decide)
      rw [doubled_comma, List.cons_append, List.cons_append, strstr_cons hsecond, afterId]
      by_cases hfound : idEquals <+: v
      · obtain ⟨text, rfl⟩ := hfound
        have hdrop : (idEquals ++ text).drop 3 = text := List.drop_left' rfl
        rw [if_pos ⟨rfl, List.prefix_append _ _⟩, hdrop, doubled_append, doubled_of_notMem comma_notMem_idEquals,
          List.append_assoc]
        exact strstr_of_prefix (List.cons_prefix_cons.mpr ⟨rfl, List.prefix_append _ _⟩)
      · have hfirst : ¬ comma :: idEquals <+: comma :: (doubled v ++ rest) := fun h ↦
          hfound ((prefix_doubled_iff comma_notMem_idEquals hrest).mp (List.cons_prefix_cons.mp h).2)
        rw [if_neg fun h ↦ hfound h.2, strstr_cons hfirst, ih]
    · rw [doubled_cons_of_ne hc, List.cons_append, strstr_cons_of_ne hc, ih, afterId, if_neg fun h ↦ hc h.1]

theorem length_afterId_le {text : Text} (h : afterId v = some text) : text.length ≤ v.length := by
  induction v with
  | nil => cases h
  | cons c v ih =>
    rw [afterId] at h
    split at h
    · cases h
      rw [List.length_drop, List.length_cons]
      omega
    · exact (ih h).trans (Nat.le_succ _)

/-- The value that is read behind `,id=`. -/
def readId (p : Text) : Text := (getOptValue 1024 [] (p.drop 4)).1

theorem readId_append (hrest : Ends rest) (hv : v.length < 1024) :
    readId (comma :: idEquals ++ (doubled v ++ rest)) = v := by
  have hdrop : (comma :: idEquals ++ (doubled v ++ rest)).drop 4 = doubled v ++ rest := List.drop_left' rfl
  have hvalue := @getOptValue_doubled [] v rest hrest hv
  rw [readId, hdrop, hvalue]
  rfl

theorem idEquals_prefix_iff (p : Pair) (rest : Text) : idEquals <+: p.written ++ rest ↔ p.name = idName := by
  constructor
  · rintro ⟨text, htext⟩
    have happend : p.name ++ equals :: (doubled p.value ++ rest) = idName ++ equals :: text := by
      rw [idEquals, Pair.written] at htext
      simpa using htext.symm
    have hname := @getOptName_append [] 128 equals p.name p.equals_notMem p.length_name (doubled p.value ++ rest)
    have hid := @getOptName_append [] 128 equals idName (by decide) (by decide) text
    rw [happend] at hname
    exact congrArg Prod.fst (hname.symm.trans hid)
  · intro hname
    refine ⟨doubled p.value ++ rest, ?_⟩
    rw [Pair.written, hname, idEquals]
    simp

/-- The value of the id, or what a value before it is taken for. -/
def scan : List Pair → Option Text
  | [] => none
  | p :: pairs => if p.name = idName then some p.value else (afterId p.value).or (scan pairs)

theorem strstr_written (p : Pair) (hrest : Ends rest) :
    (strstr (p.written ++ rest) (comma :: idEquals)).map readId =
      (afterId p.value).or ((strstr rest (comma :: idEquals)).map readId) := by
  have hname : comma ∉ p.name ++ [equals] := by
    rw [List.mem_append, not_or]
    exact ⟨p.comma_notMem, by decide⟩
  have htext : p.written ++ rest = p.name ++ [equals] ++ (doubled p.value ++ rest) := by simp [Pair.written]
  rw [htext, strstr_append hname, strstr_doubled hrest, Option.map_or]
  cases hfound : afterId p.value with
  | none => rfl
  | some text =>
    have hlt := (length_afterId_le hfound).trans_lt p.length_value
    exact congrArg some (readId_append hrest hlt)

theorem strstr_joined (pairs : List Pair) : (strstr (joined pairs) (comma :: idEquals)).map readId = scan pairs := by
  induction pairs with
  | nil => rfl
  | cons p pairs ih =>
    have hjoined : joined (p :: pairs) = comma :: (p.written ++ joined pairs) := rfl
    rw [hjoined, scan]
    by_cases hname : p.name = idName
    · have hprefix : comma :: idEquals <+: comma :: (p.written ++ joined pairs) :=
        List.cons_prefix_cons.mpr ⟨rfl, (idEquals_prefix_iff p (joined pairs)).mpr hname⟩
      have htext : comma :: (p.written ++ joined pairs) =
          comma :: idEquals ++ (doubled p.value ++ joined pairs) := by
        simp [Pair.written, hname, idEquals]
      rw [if_pos hname, strstr_of_prefix hprefix, htext]
      exact congrArg some (readId_append (ends_joined pairs) p.length_value)
    · have hfirst : ¬ comma :: idEquals <+: comma :: (p.written ++ joined pairs) := fun h ↦
        hname ((idEquals_prefix_iff p (joined pairs)).mp (List.cons_prefix_cons.mp h).2)
      rw [if_neg hname, strstr_cons hfirst, strstr_written p (ends_joined pairs), ih]

theorem findId_written (pairs : List Pair) : findId (written pairs) = scan pairs := by
  cases pairs with
  | nil => rfl
  | cons p pairs =>
    have htake : idName ++ [equals] = (written (p :: pairs)).take 3 ↔ p.name = idName := by
      rw [written_cons, ← idEquals_prefix_iff p (joined pairs)]
      exact List.prefix_iff_eq_take.symm
    have hsearch := strstr_written p (ends_joined pairs)
    rw [strstr_joined, ← written_cons] at hsearch
    unfold findId scan
    simp only [htake]
    split
    · have htext : (written (p :: pairs)).drop 3 = doubled p.value ++ joined pairs := by
        rw [written_cons, Pair.written, ‹p.name = idName›]
        rfl
      have hvalue := @getOptValue_doubled [] p.value _ (ends_joined pairs) p.length_value
      rw [htext, hvalue]
      rfl
    · exact hsearch

/-- What stands before the id counts first. -/
theorem scan_eq (pairs : List Pair) :
    scan pairs = ((beforeId pairs).findSome? (afterId ·.value)).or (idValue pairs) := by
  induction pairs with
  | nil => rfl
  | cons p pairs ih =>
    unfold beforeId idValue at ih ⊢
    rw [scan]
    by_cases hname : p.name = idName
    · simp [hname]
    · have hbefore : (p :: pairs).takeWhile (·.name ≠ idName) = p :: pairs.takeWhile (·.name ≠ idName) :=
        List.takeWhile_cons_of_pos (decide_eq_true hname)
      rw [if_neg hname, ih, hbefore, List.findSome?_cons, List.find?_cons_of_neg (by simpa using hname)]
      cases afterId p.value <;> rfl

theorem scan_eq_idValue_iff (pairs : List Pair) :
    scan pairs = idValue pairs ↔
      ∀ text, (beforeId pairs).findSome? (afterId ·.value) = some text → idValue pairs = some text := by
  rw [scan_eq]
  cases (beforeId pairs).findSome? (afterId ·.value) with
  | none => exact iff_of_true rfl (fun _ h ↦ by cases h)
  | some text =>
    rw [Option.some_or]
    constructor
    · intro h text' htext
      exact h.symm.trans htext
    · intro h
      exact (h text rfl).symm

end Id

section Create

variable {list : QemuOptsList} {id : Option Text} {opts : QemuOpts}

theorem qemuOptsCreate_ok (h : qemuOptsCreate list id true = .ok opts) : opts = ⟨id, []⟩ := by
  cases id with
  | none =>
    cases h
    rfl
  | some id =>
    simp only [qemuOptsCreate] at h
    split at h
    · cases h
    · split at h
      · cases h
      · cases h
        rfl

theorem qemuOptsCreate_new {failIfExists : Bool}
    (h : ∀ id', id = some id' → idWellformed id' ∧ ∀ opts ∈ list.head, opts.id ≠ some id') :
    qemuOptsCreate list id failIfExists = .ok ⟨id, []⟩ := by
  cases id with
  | none => rfl
  | some id =>
    obtain ⟨hwellformed, hunused⟩ := h id rfl
    have hfind : qemuOptsFind list id = none := by
      rw [qemuOptsFind, List.find?_eq_none]
      intro opts hopts
      simpa using hunused opts hopts
    simp [qemuOptsCreate, hwellformed, hfind]

end Create

/-- Written pairs are read back if and only if the first value before the id that has the text
`,id=`, if there is one, has the value of the id behind it. -/
theorem decodes_iff (list : QemuOptsList) (hany : list.desc = []) (pairs : List Pair)
    (hid : ∀ id, idValue pairs = some id → idWellformed id ∧ ∀ opts ∈ list.head, opts.id ≠ some id) :
    Decodes list pairs ↔
      ∀ text, (beforeId pairs).findSome? (afterId ·.value) = some text → idValue pairs = some text := by
  rw [← scan_eq_idValue_iff, ← findId_written]
  constructor
  · intro h
    unfold Decodes qemuOptsParse at h
    cases hcreate : qemuOptsCreate list (findId (written pairs)) true with
    | error failure =>
      rw [hcreate] at h
      cases h
    | ok opts =>
      obtain rfl := qemuOptsCreate_ok hcreate
      simp only [Bool.false_eq_true, false_and, if_false, hcreate, bind, Except.bind, qemuOptsDoParse_written hany] at h
      exact congrArg QemuOpts.id (congrArg Prod.snd (Except.ok.inj h))
  · intro h
    have hcreate : qemuOptsCreate list (findId (written pairs)) true = .ok ⟨idValue pairs, []⟩ := by
      rw [h]
      exact qemuOptsCreate_new hid
    unfold Decodes qemuOptsParse
    simp only [Bool.false_eq_true, false_and, if_false, hcreate, bind, Except.bind, qemuOptsDoParse_written hany]
    rfl

/-- `file` with a comma in its value, behind an id -/
def fileOptions : List Pair :=
  [⟨idName, [100, 48], by decide, by decide, by decide, by decide, by decide⟩,
    ⟨[102, 105, 108, 101], [97, 44, 98], by decide, by decide, by decide, by decide, by decide⟩]

theorem decodes_iff_file : Decodes ⟨[], none, [], []⟩ fileOptions ↔
    ∀ text, (beforeId fileOptions).findSome? (afterId ·.value) = some text → idValue fileOptions = some text :=
  decodes_iff _ rfl _ fun id hid ↦ by
    cases hid
    exact ⟨by decide, fun _ h ↦ by cases h⟩

/-- An option with the value `x,id=foo` and no id. -/
def misleading : List Pair :=
  [⟨[97], [120, 44, 105, 100, 61, 102, 111, 111], by decide, by decide, by decide, by decide, by decide⟩]

/-- The options get the id `foo`. -/
theorem not_decodes : idValue misleading = none ∧ ¬ Decodes ⟨[], none, [], []⟩ misleading := by
  refine ⟨rfl, fun h ↦ ?_⟩
  have hcreate : qemuOptsCreate ⟨[], none, [], []⟩ (findId (written misleading)) true =
      .ok ⟨some [102, 111, 111], []⟩ := by rfl
  unfold Decodes qemuOptsParse at h
  simp only [Bool.false_eq_true, false_and, if_false, hcreate, bind, Except.bind, qemuOptsDoParse_written] at h
  have hsome := congrArg QemuOpts.id (congrArg Prod.snd (Except.ok.inj h))
  cases hsome

end IDeviceEmulator.Opts
