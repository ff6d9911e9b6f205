import Mathlib.Data.List.TakeWhile
import IDeviceEmulator.Qobject.Qdict

namespace IDeviceEmulator.Qobject

open Qdict

section Entries

variable {ν : Type}

/-- Put a new entry at the head of its bucket, the buckets standing one after another. -/
def insertEntry (bucket : Bucket) (entry : Key × ν) : List (Key × ν) → List (Key × ν)
  | [] => [entry]
  | other :: rest =>
    match bucketOf other.1 with
    | .ok b => if bucket ≤ b then entry :: other :: rest else other :: insertEntry bucket entry rest
    | .error _ => entry :: other :: rest

def replaceEntry (key : Key) (value : ν) : List (Key × ν) → List (Key × ν)
  | [] => []
  | entry :: rest =>
    if key = entry.1 then (key, value) :: rest else entry :: replaceEntry key value rest

/-- `qdict_put_obj` on the entries of a dictionary, in the order in which they are visited. -/
def qdictPutObj (entries : List (Key × ν)) (key : Key) (value : ν) : Except Fault (List (Key × ν)) :=
  (bucketOf key).map fun bucket ↦
    if key ∈ entries.map Prod.fst then replaceEntry key value entries
    else insertEntry bucket (key, value) entries

/-- Entries as pairs. -/
def pairs (l : List (Entry ν)) : List (Key × ν) := l.map fun entry ↦ (entry.1, entry.2)

variable {l r : List (Key × ν)} {key : Key} {value : ν} {bucket : Bucket} {entry : Key × ν}

theorem insertEntry_append (h : ∀ e ∈ l, ∃ b, bucketOf e.1 = .ok b ∧ b < bucket) :
    insertEntry bucket entry (l ++ r) = l ++ insertEntry bucket entry r := by
  induction l with
  | nil => rfl
  | cons e l ih =>
    obtain ⟨b, hb, hlt⟩ := h e List.mem_cons_self
    rw [List.cons_append, insertEntry, hb]
    dsimp only
    rw [if_neg (not_le.mpr hlt), ih fun x hx ↦ h x (List.mem_cons_of_mem e hx), List.cons_append]

theorem insertEntry_before (h : ∀ e ∈ l, ∃ b, bucketOf e.1 = .ok b ∧ bucket ≤ b) :
    insertEntry bucket entry l = entry :: l := by
  cases l with
  | nil => rfl
  | cons e l =>
    obtain ⟨b, hb, hle⟩ := h e List.mem_cons_self
    rw [insertEntry, hb]
    exact if_pos hle

theorem replaceEntry_append (h : key ∉ l.map Prod.fst) :
    replaceEntry key value (l ++ r) = l ++ replaceEntry key value r := by
  induction l with
  | nil => rfl
  | cons e l ih =>
    rw [List.map_cons, List.mem_cons, not_or] at h
    rw [List.cons_append, replaceEntry, if_neg h.1, ih h.2, List.cons_append]

theorem replaceEntry_of_mem (h : key ∈ l.map Prod.fst) :
    replaceEntry key value (l ++ r) = replaceEntry key value l ++ r := by
  induction l with
  | nil => cases h
  | cons e l ih =>
    rw [List.cons_append, replaceEntry, replaceEntry]
    split_ifs with he
    · rfl
    · rw [List.map_cons, List.mem_cons] at h
      rw [ih (h.resolve_left he), List.cons_append]

theorem pairs_kreplace (l : List (Entry ν)) (key : Key) (value : ν) :
    pairs (l.kreplace key value) = replaceEntry key value (pairs l) := by
  induction l with
  | nil => rfl
  | cons e l ih =>
    change _ = replaceEntry key value ((e.1, e.2) :: pairs l)
    by_cases he : key = e.1
    · obtain ⟨k, w⟩ := e
      cases he
      rw [kreplace_cons_self, replaceEntry, if_pos rfl]
      rfl
    · rw [kreplace_cons_ne he, replaceEntry, if_neg he, ← ih]
      rfl

theorem fst_pairs (l : List (Entry ν)) : (pairs l).map Prod.fst = l.keys := by
  rw [pairs, List.map_map]
  rfl

/-- The entries of the buckets in front of one. -/
def entriesBefore (d : QDict ν) (bucket : Bucket) : List (Entry ν) :=
  ((List.finRange bucketMax).take bucket).flatMap d.table

theorem lt_of_mem_take {b : Bucket} (h : b ∈ (List.finRange bucketMax).take bucket) : b < bucket := by
  obtain ⟨i, hi, rfl⟩ := List.mem_take_iff_getElem.mp h
  rw [List.getElem_finRange]
  exact (Nat.lt_min.mp hi).1

theorem lt_of_mem_drop {b : Bucket} (h : b ∈ (List.finRange bucketMax).drop (bucket + 1)) : bucket < b := by
  obtain ⟨i, hi, rfl⟩ := List.mem_drop_iff_getElem.mp h
  rw [List.getElem_finRange]
  exact Nat.lt_of_lt_of_le (Nat.lt_succ_self bucket) (Nat.le_add_right _ _)

theorem entries_eq (d : QDict ν) (bucket : Bucket) :
    d.entries = entriesBefore d bucket ++ (d.table bucket ++ d.entriesFrom (bucket + 1)) := by
  rw [← QDict.entriesFrom_of_lt d bucket.isLt, QDict.entries, QDict.entriesFrom, QDict.entriesFrom, entriesBefore,
    ← List.flatMap_append, List.take_append_drop, List.drop_zero]

theorem entries_store (d : QDict ν) (size : Nat) (bucket : Bucket) (l : List (Entry ν)) :
    (d.store size bucket l).entries = entriesBefore d bucket ++ (l ++ d.entriesFrom (bucket + 1)) := by
  have hbefore : entriesBefore (d.store size bucket l) bucket = entriesBefore d bucket :=
    List.flatMap_congr fun b hb ↦ d.store_table_of_ne _ (ne_of_lt (lt_of_mem_take hb)) l
  have hbehind : (d.store size bucket l).entriesFrom (bucket + 1) = d.entriesFrom (bucket + 1) :=
    List.flatMap_congr fun b hb ↦ d.store_table_of_ne _ (ne_of_gt (lt_of_mem_drop hb)) l
  rw [entries_eq _ bucket, QDict.store_table_self, hbefore, hbehind]

section Holds

variable {d : QDict ν} {m : Map ν}

theorem placed_before (h : d.Holds m) {e : Key × ν} (he : e ∈ pairs (entriesBefore d bucket)) :
    ∃ b, bucketOf e.1 = .ok b ∧ b < bucket := by
  obtain ⟨x, hx, rfl⟩ := List.mem_map.mp he
  obtain ⟨b, hb, hx⟩ := List.mem_flatMap.mp hx
  exact ⟨b, h.placed b x.1 (List.mem_keys_of_mem hx), lt_of_mem_take hb⟩

theorem placed_behind (h : d.Holds m) {e : Key × ν} (he : e ∈ pairs (d.entriesFrom (bucket + 1))) :
    ∃ b, bucketOf e.1 = .ok b ∧ bucket < b := by
  obtain ⟨x, hx, rfl⟩ := List.mem_map.mp he
  obtain ⟨b, hb, hx⟩ := List.mem_flatMap.mp hx
  exact ⟨b, h.placed b x.1 (List.mem_keys_of_mem hx), lt_of_mem_drop hb⟩

theorem placed_here (h : d.Holds m) {e : Key × ν} (he : e ∈ pairs (d.table bucket)) : bucketOf e.1 = .ok bucket := by
  obtain ⟨x, hx, rfl⟩ := List.mem_map.mp he
  exact h.placed bucket x.1 (List.mem_keys_of_mem hx)

/-- What is done to the entries is what is done to the dictionary. -/
theorem pairs_qdictPutObj (h : d.Holds m) (key : Key) (value : ν) :
    (d.qdictPutObj key value).map (fun d ↦ pairs d.entries) = qdictPutObj (pairs d.entries) key value := by
  unfold QDict.qdictPutObj qdictPutObj
  cases hbucket : bucketOf key with
  | error e => rfl
  | ok bucket =>
    have hentries (l : List (Entry ν)) : pairs (entriesBefore d bucket ++ (l ++ d.entriesFrom (bucket + 1))) =
        pairs (entriesBefore d bucket) ++ (pairs l ++ pairs (d.entriesFrom (bucket + 1))) := by
      simp [pairs]
    -- The key can only be in its own bucket.
    have hbefore : key ∉ (pairs (entriesBefore d bucket)).map Prod.fst := by
      intro hkey
      obtain ⟨e, he, rfl⟩ := List.mem_map.mp hkey
      obtain ⟨b, hb, hlt⟩ := placed_before h he
      exact hlt.ne (Except.ok.inj (hb.symm.trans hbucket))
    have hbehind : key ∉ (pairs (d.entriesFrom (bucket + 1))).map Prod.fst := by
      intro hkey
      obtain ⟨e, he, rfl⟩ := List.mem_map.mp hkey
      obtain ⟨b, hb, hlt⟩ := placed_behind h he
      exact hlt.ne' (Except.ok.inj (hb.symm.trans hbucket))
    have hmem : key ∈ (pairs d.entries).map Prod.fst ↔ key ∈ (d.table bucket).keys := by
      rw [entries_eq d bucket, hentries, List.map_append, List.map_append, List.mem_append, List.mem_append,
        ← fst_pairs (d.table bucket)]
      simp only [hbefore, hbehind, false_or, or_false]
    simp only [Except.map, QDict.qdictFind_eq, Except.ok.injEq]
    by_cases hkey : key ∈ (d.table bucket).keys
    · obtain ⟨w, hw⟩ := Option.isSome_iff_exists.mp (List.dlookup_isSome.mpr hkey)
      rw [if_pos (hmem.mpr hkey), hw, Option.map_some]
      dsimp only
      rw [entries_store, hentries, entries_eq d bucket, hentries, replaceEntry_append hbefore,
        replaceEntry_of_mem (by rwa [fst_pairs]), pairs_kreplace]
    · rw [if_neg (mt hmem.mp hkey), List.dlookup_eq_none.mpr hkey, Option.map_none]
      dsimp only
      rw [entries_store, hentries, entries_eq d bucket, hentries,
        insertEntry_append fun e he ↦ placed_before h he, insertEntry_before]
      · rfl
      intro e he
      rcases List.mem_append.mp he with he | he
      · exact ⟨bucket, placed_here h he, le_refl bucket⟩
      · obtain ⟨b, hb, hlt⟩ := placed_behind h he
        exact ⟨b, hb, le_of_lt hlt⟩

end Holds

end Entries

/-- An object, where `δ` are the floating point numbers. A dictionary has its entries in the
order in which they are visited. -/
inductive QObject (δ : Type)
  | qint (value : Int64)
  | qbool (value : Bool)
  | qstring (string : List UInt8)
  | qfloat (value : δ)
  | qlist (head : List (QObject δ))
  | qdict (entries : List (Key × QObject δ))

section Trees

variable {δ : Type}

mutual

/-- Objects that are equal if dictionaries are compared as maps. -/
def Same : QObject δ → QObject δ → Prop
  | .qlist l, o => ∃ l', o = .qlist l' ∧ SameItems l l'
  | .qdict e, o => ∃ e', o = .qdict e' ∧ (e'.map Prod.fst).Perm (e.map Prod.fst) ∧ SameEntries e e'
  | .qint v, o => o = .qint v
  | .qbool b, o => o = .qbool b
  | .qstring s, o => o = .qstring s
  | .qfloat x, o => o = .qfloat x

def SameItems : List (QObject δ) → List (QObject δ) → Prop
  | [], l' => l' = []
  | x :: l, l' => ∃ x' r, l' = x' :: r ∧ Same x x' ∧ SameItems l r

def SameEntries : List (Key × QObject δ) → List (Key × QObject δ) → Prop
  | [], _ => True
  | (key, v) :: rest, e' => (∃ v', (key, v') ∈ e' ∧ Same v v') ∧ SameEntries rest e'

end

/-- Induction over a tree: a list and a dictionary follow from what is in them. -/
theorem QObject.induct {motive : QObject δ → Prop} (qint : ∀ v, motive (.qint v)) (qbool : ∀ b, motive (.qbool b))
    (qstring : ∀ s, motive (.qstring s)) (qfloat : ∀ x, motive (.qfloat x))
    (qlist : ∀ l : List (QObject δ), (∀ x ∈ l, motive x) → motive (.qlist l))
    (qdict : ∀ e : List (Key × QObject δ), (∀ x ∈ e, motive x.2) → motive (.qdict e)) (o : QObject δ) : motive o := by
  cases o with
  | qint v => exact qint v
  | qbool b => exact qbool b
  | qstring s => exact qstring s
  | qfloat x => exact qfloat x
  | qlist l => exact qlist l fun x hx ↦ QObject.induct qint qbool qstring qfloat qlist qdict x
  | qdict e => exact qdict e fun x hx ↦ QObject.induct qint qbool qstring qfloat qlist qdict x.2
termination_by sizeOf o
decreasing_by
  · have hsize := List.sizeOf_lt_of_mem hx
    rw [QObject.qlist.sizeOf_spec]
    omega
  · have hsize := List.sizeOf_lt_of_mem hx
    have hpair : sizeOf x = 1 + sizeOf x.1 + sizeOf x.2 := by
      cases x
      rfl
    rw [QObject.qdict.sizeOf_spec]
    omega

/-- Entry by entry the same keys with the same objects. -/
def SamePairs : List (Key × QObject δ) → List (Key × QObject δ) → Prop :=
  List.Forall₂ fun x y ↦ x.1 = y.1 ∧ Same x.2 y.2

theorem SamePairs.keys {e e' : List (Key × QObject δ)} (h : SamePairs e e') :
    e'.map Prod.fst = e.map Prod.fst := by
  induction h with
  | nil => rfl
  | cons hxy _ ih => rw [List.map_cons, List.map_cons, hxy.1, ih]

theorem sameEntries_of_pairs {e e' d : List (Key × QObject δ)} (h : SamePairs e e') (hd : ∀ x ∈ e', x ∈ d) :
    SameEntries e d := by
  induction h with
  | nil => trivial
  | @cons x y _ _ hxy _ ih =>
    obtain ⟨hkey, hsame⟩ := hxy
    refine ⟨⟨y.2, ?_, hsame⟩, ih fun z hz ↦ hd z (List.mem_cons_of_mem y hz)⟩
    rw [hkey]
    exact hd y List.mem_cons_self

theorem same_of_pairs {e e' d : List (Key × QObject δ)} (h : SamePairs e e') (hd : d.Perm e') :
    Same (.qdict e) (.qdict d) := by
  refine ⟨d, rfl, ?_, sameEntries_of_pairs h fun x hx ↦ hd.mem_iff.mpr hx⟩
  rw [← h.keys]
  exact hd.map Prod.fst

-- An entry with another key does not matter.
theorem SameEntries.erase {e e' r : List (Key × QObject δ)} (h : SameEntries e e') {x : Key × QObject δ}
    (hperm : e'.Perm (x :: r)) (hfresh : ∀ y ∈ e, y.1 ≠ x.1) : SameEntries e r := by
  induction e with
  | nil => trivial
  | cons y e ih =>
    obtain ⟨⟨v', hmem, hsame⟩, hrest⟩ := h
    refine ⟨⟨v', ?_, hsame⟩, ih hrest fun z hz ↦ hfresh z (List.mem_cons_of_mem y hz)⟩
    rcases List.mem_cons.mp (hperm.mem_iff.mp hmem) with heq | hr
    · exact absurd (congrArg Prod.fst heq) (hfresh y List.mem_cons_self)
    · exact hr

theorem pairs_of_sameEntries {e e' : List (Key × QObject δ)} (h : SameEntries e e')
    (hkeys : (e'.map Prod.fst).Perm (e.map Prod.fst)) (hnodup : (e.map Prod.fst).Nodup) :
    ∃ l, SamePairs e l ∧ e'.Perm l := by
  induction e generalizing e' with
  | nil =>
    have hnil : e' = [] := List.map_eq_nil_iff.mp hkeys.eq_nil
    exact ⟨[], .nil, by rw [hnil]⟩
  | cons x e ih =>
    obtain ⟨⟨v', hmem, hsame⟩, hrest⟩ := h
    obtain ⟨r, hr⟩ : ∃ r, e'.Perm ((x.1, v') :: r) := by
      obtain ⟨l₁, l₂, rfl⟩ := List.append_of_mem hmem
      exact ⟨l₁ ++ l₂, List.perm_middle⟩
    have hr' : (r.map Prod.fst).Perm (e.map Prod.fst) := ((hr.map Prod.fst).symm.trans hkeys).cons_inv
    have hfresh : ∀ y ∈ e, y.1 ≠ x.1 := by
      intro y hy heq
      exact (List.nodup_cons.mp hnodup).1 (heq ▸ List.mem_map_of_mem hy)
    have hrest' : SameEntries e r := hrest.erase hr hfresh
    obtain ⟨l, hpairs, hperm⟩ := ih hrest' hr' (List.nodup_cons.mp hnodup).2
    exact ⟨(x.1, v') :: l, .cons ⟨rfl, hsame⟩ hpairs, hr.trans (hperm.cons _)⟩

end Trees

/-- The C string in a buffer. -/
def cString (buffer : List UInt8) : Key :=
  ⟨buffer.takeWhile (· ≠ 0), fun h ↦ by simpa using List.mem_takeWhile_imp h⟩

end IDeviceEmulator.Qobject
