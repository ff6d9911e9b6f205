import Mathlib.Algebra.GroupWithZero.Nat
import Mathlib.Data.Finmap
import Mathlib.Data.List.FinRange
import IDeviceEmulator.Library.Machine

namespace IDeviceEmulator.Qobject.Qdict

open Machine

/-- A C string, without its terminator. -/
abbrev Key := { name : List UInt8 // 0 ∉ name }

inductive Fault
  | endless

def hashLoop : List UInt8 → UInt32 → UInt32 → UInt32
  | [], _, value => value
  | b :: rest, i, value => hashLoop rest (i + 1) (value + (b.toUInt32 <<< (i * 5 % 24)))

-- The index of the loop has 32 bits: on a longer name it comes back to the first byte
-- without having met the terminator.
def tdbHash (name : Key) : Except Fault UInt32 :=
  if name.val.length < 2 ^ 32 then
    .ok (1103515243 * hashLoop name.val 0 (0x238F13AF * UInt32.ofNat name.val.length) + 12345)
  else .error .endless

def bucketMax : Nat := 512

instance : NeZero bucketMax := ⟨Nat.succ_ne_zero 511⟩

abbrev Bucket := Fin bucketMax

def bucketOf (key : Key) : Except Fault Bucket :=
  (tdbHash key).map fun h ↦ Fin.ofNat bucketMax h.toNat

variable {ν : Type}

/-- A key with the object that is stored for it. -/
abbrev Entry (ν : Type) := Σ _ : Key, ν

structure QDict (ν : Type) where
  size : Nat
  table : Bucket → List (Entry ν)

def qdictNew (ν : Type) : QDict ν := ⟨0, fun _ ↦ []⟩

namespace QDict

def qdictFind (d : QDict ν) (key : Key) (bucket : Bucket) : Option (Entry ν) :=
  (d.table bucket).find? fun entry ↦ key = entry.1

def store (d : QDict ν) (size : Nat) (bucket : Bucket) (entries : List (Entry ν)) : QDict ν :=
  ⟨size, Function.update d.table bucket entries⟩

@[simp] theorem store_table_self (d : QDict ν) (size : Nat) (b : Bucket) (l : List (Entry ν)) :
    (d.store size b l).table b = l :=
  Function.update_self ..

theorem store_table_of_ne (d : QDict ν) (size : Nat) {b c : Bucket} (h : c ≠ b) (l : List (Entry ν)) :
    (d.store size b l).table c = d.table c :=
  Function.update_of_ne h ..

def qdictPutObj (d : QDict ν) (key : Key) (value : ν) : Except Fault (QDict ν) :=
  (bucketOf key).map fun bucket ↦
    match d.qdictFind key bucket with
    | some _ => d.store d.size bucket ((d.table bucket).kreplace key value)
    | none => d.store (d.size + 1) bucket (⟨key, value⟩ :: d.table bucket)

def qdictGet (d : QDict ν) (key : Key) : Except Fault (Option ν) :=
  (bucketOf key).map fun bucket ↦ (d.qdictFind key bucket).map Sigma.snd

def qdictHaskey (d : QDict ν) (key : Key) : Except Fault Bool :=
  (bucketOf key).map fun bucket ↦ (d.qdictFind key bucket).isSome

def qdictDel (d : QDict ν) (key : Key) : Except Fault (QDict ν) :=
  (bucketOf key).map fun bucket ↦
    match d.qdictFind key bucket with
    | some _ => d.store (d.size - 1) bucket ((d.table bucket).kerase key)
    | none => d

def qdictIter {σ : Type*} (d : QDict ν) (iter : σ → Key → ν → σ) (arg : σ) : σ :=
  (List.finRange bucketMax).foldl
    (fun o i ↦ (d.table i).foldl (fun o entry ↦ iter o entry.1 entry.2) o) arg

/-- A pointer to an entry: the entry, and those linked behind it in its bucket. -/
structure Cursor (ν : Type) where
  entry : Entry ν
  next : List (Entry ν)

def Cursor.ofList : List (Entry ν) → Option (Cursor ν)
  | [] => none
  | entry :: next => some ⟨entry, next⟩

def qdictNextEntry (d : QDict ν) (firstBucket : Nat) : Option (Cursor ν) :=
  if h : firstBucket < bucketMax then
    match Cursor.ofList (d.table ⟨firstBucket, h⟩) with
    | some c => some c
    | none => d.qdictNextEntry (firstBucket + 1)
  else none
termination_by bucketMax - firstBucket

def qdictFirst (d : QDict ν) : Option (Cursor ν) := d.qdictNextEntry 0

def qdictNext (d : QDict ν) (c : Cursor ν) : Except Fault (Option (Cursor ν)) :=
  match Cursor.ofList c.next with
  | some ret => .ok (some ret)
  | none => (bucketOf c.entry.1).map fun bucket ↦ d.qdictNextEntry (bucket + 1)

/-- The loop over `qdict_first` and `qdict_next` ends, having visited these entries. -/
inductive Walks (d : QDict ν) : Option (Cursor ν) → List (Entry ν) → Prop
  | done : Walks d none []
  | visit {c : Cursor ν} {next : Option (Cursor ν)} {entries : List (Entry ν)} :
      d.qdictNext c = .ok next → Walks d next entries → Walks d (some c) (c.entry :: entries)

end QDict

abbrev Map (ν : Type) := Finmap fun _ : Key ↦ ν

theorem bucketOf_ok_iff {key : Key} : (∃ bucket, bucketOf key = .ok bucket) ↔ key.val.length < 2 ^ 32 := by
  unfold bucketOf tdbHash
  split
  · simp_all [Except.map]
  · simp_all [Except.map]

section Buckets

variable {l : List (Entry ν)} {k j : Key} {v : ν}

theorem kreplace_cons_self (k : Key) (v w : ν) (l : List (Entry ν)) :
    List.kreplace k v (⟨k, w⟩ :: l) = ⟨k, v⟩ :: l := by
  simp [List.kreplace, List.lookmap, List.lookmap.go]

theorem kreplace_cons_ne {e : Entry ν} (h : k ≠ e.1) (v : ν) (l : List (Entry ν)) :
    List.kreplace k v (e :: l) = e :: List.kreplace k v l := by
  rw [List.kreplace, List.lookmap_cons_none]
  simp [h]

theorem dlookup_kreplace (h : k ∈ l.keys) (v : ν) : (l.kreplace k v).dlookup k = some v := by
  induction l with
  | nil => simp at h
  | cons e l ih =>
    by_cases he : k = e.1
    · obtain ⟨k', w⟩ := e
      cases he
      rw [kreplace_cons_self, List.dlookup_cons_eq]
    · rw [kreplace_cons_ne he, List.dlookup_cons_ne _ _ he]
      apply ih
      simpa [he] using h

theorem dlookup_kreplace_of_ne (h : j ≠ k) (v : ν) (l : List (Entry ν)) :
    (l.kreplace k v).dlookup j = l.dlookup j := by
  induction l with
  | nil => rfl
  | cons e l ih =>
    by_cases he : k = e.1
    · obtain ⟨k', w⟩ := e
      change k = k' at he
      subst he
      rw [kreplace_cons_self, List.dlookup_cons_ne _ _ h, List.dlookup_cons_ne _ _ h]
    · rw [kreplace_cons_ne he]
      by_cases hj : j = e.1
      · obtain ⟨k', w⟩ := e
        cases hj
        rw [List.dlookup_cons_eq, List.dlookup_cons_eq]
      · rw [List.dlookup_cons_ne _ _ hj, List.dlookup_cons_ne _ _ hj, ih]

end Buckets

namespace QDict

variable {d : QDict ν} {m : Map ν} {k : Key} {b : Bucket}

/-- Each entry is in the bucket of its key, at most one entry has a key, and the entries
are those of the map. -/
structure Holds (d : QDict ν) (m : Map ν) : Prop where
  placed : ∀ b, ∀ k ∈ (d.table b).keys, bucketOf k = .ok b
  nodupKeys : ∀ b, (d.table b).NodupKeys
  lookup : ∀ k b, bucketOf k = .ok b → (d.table b).dlookup k = m.lookup k
  hashes : ∀ k ∈ m, ∃ b, bucketOf k = .ok b
  size : d.size = m.keys.card

theorem holds_qdictNew : (qdictNew ν).Holds ∅ := by
  refine ⟨?_, ?_, ?_, ?_, rfl⟩
  · intro b k hk
    simp [qdictNew] at hk
  · intro b
    exact List.nodupKeys_nil
  · intro k b _
    rfl
  · intro k hk
    exact absurd hk Finmap.notMem_empty

theorem qdictFind_eq (d : QDict ν) (k : Key) (b : Bucket) :
    d.qdictFind k b = ((d.table b).dlookup k).map (Sigma.mk k) :=
  (List.map_dlookup_eq_find k (d.table b)).symm

theorem Holds.qdictFind (h : d.Holds m) (hb : bucketOf k = .ok b) :
    d.qdictFind k b = (m.lookup k).map (Sigma.mk k) := by
  rw [qdictFind_eq, h.lookup k b hb]

-- One bucket changes, and only what it says of one key.
theorem Holds.update (h : d.Holds m) (hb : bucketOf k = .ok b) {l : List (Entry ν)} {m' : Map ν} {size : Nat}
    (hkeys : ∀ j ∈ l.keys, j = k ∨ j ∈ (d.table b).keys) (hnodup : l.NodupKeys)
    (hself : l.dlookup k = m'.lookup k) (hother : ∀ j ≠ k, l.dlookup j = (d.table b).dlookup j)
    (hmap : ∀ j ≠ k, m'.lookup j = m.lookup j) (hsize : size = m'.keys.card) :
    (d.store size b l).Holds m' := by
  refine ⟨?_, ?_, ?_, ?_, hsize⟩
  · intro c j hj
    by_cases hc : c = b
    · subst hc
      rw [store_table_self] at hj
      rcases hkeys j hj with rfl | hj
      · exact hb
      · exact h.placed c j hj
    · rw [store_table_of_ne _ _ hc] at hj
      exact h.placed c j hj
  · intro c
    by_cases hc : c = b
    · subst hc
      rw [store_table_self]
      exact hnodup
    · rw [store_table_of_ne _ _ hc]
      exact h.nodupKeys c
  · intro j c hj
    by_cases hjk : j = k
    · subst hjk
      cases hb.symm.trans hj
      rw [store_table_self, hself]
    · rw [hmap j hjk, ← h.lookup j c hj]
      by_cases hc : c = b
      · subst hc
        rw [store_table_self, hother j hjk]
      · rw [store_table_of_ne _ _ hc]
  · intro j hj
    by_cases hjk : j = k
    · subst hjk
      exact ⟨b, hb⟩
    · apply h.hashes j
      rw [← Finmap.lookup_isSome, hmap j hjk] at hj
      exact Finmap.lookup_isSome.mp hj

theorem keys_insert (m : Map ν) (k : Key) (v : ν) : (m.insert k v).keys = Insert.insert k m.keys := by
  ext j
  rw [Finmap.mem_keys, Finmap.mem_insert, Finset.mem_insert, Finmap.mem_keys]

theorem Holds.mem_keys_iff (h : d.Holds m) (hb : bucketOf k = .ok b) : k ∈ (d.table b).keys ↔ k ∈ m := by
  rw [← List.dlookup_isSome, h.lookup k b hb, Finmap.lookup_isSome]

theorem Holds.qdictPutObj (h : d.Holds m) (hb : bucketOf k = .ok b) (v : ν) :
    ∃ d', d.qdictPutObj k v = .ok d' ∧ d'.Holds (m.insert k v) := by
  have hmap : ∀ j ≠ k, (m.insert k v).lookup j = m.lookup j := fun j hj ↦ Finmap.lookup_insert_of_ne m hj
  by_cases hk : k ∈ m
  · obtain ⟨w, hw⟩ := Finmap.mem_iff.mp hk
    refine ⟨d.store d.size b ((d.table b).kreplace k v), ?_, ?_⟩
    · simp [QDict.qdictPutObj, hb, Except.map, h.qdictFind hb, hw]
    apply h.update hb _ _ _ _ hmap
    · rw [keys_insert, Finset.insert_eq_of_mem (Finmap.mem_keys.mpr hk)]
      exact h.size
    · intro j hj
      rw [List.keys_kreplace] at hj
      exact .inr hj
    · exact (List.kreplace_nodupKeys k v).mpr (h.nodupKeys b)
    · rw [dlookup_kreplace ((h.mem_keys_iff hb).mpr hk), Finmap.lookup_insert]
    · intro j hj
      exact dlookup_kreplace_of_ne hj v _
  · have hnone : m.lookup k = none := Finmap.lookup_eq_none.mpr hk
    refine ⟨d.store (d.size + 1) b (⟨k, v⟩ :: d.table b), ?_, ?_⟩
    · simp [QDict.qdictPutObj, hb, Except.map, h.qdictFind hb, hnone]
    apply h.update hb _ _ _ _ hmap
    · rw [keys_insert, Finset.card_insert_of_notMem (mt Finmap.mem_keys.mp hk), h.size]
    · intro j hj
      exact List.mem_cons.mp hj
    · exact List.nodupKeys_cons.mpr ⟨mt (h.mem_keys_iff hb).mp hk, h.nodupKeys b⟩
    · rw [List.dlookup_cons_eq, Finmap.lookup_insert]
    · intro j hj
      exact List.dlookup_cons_ne _ _ hj

theorem Holds.qdictDel (h : d.Holds m) (hb : bucketOf k = .ok b) :
    ∃ d', d.qdictDel k = .ok d' ∧ d'.Holds (m.erase k) := by
  by_cases hk : k ∈ m
  · obtain ⟨w, hw⟩ := Finmap.mem_iff.mp hk
    refine ⟨d.store (d.size - 1) b ((d.table b).kerase k), ?_, ?_⟩
    · simp [QDict.qdictDel, hb, Except.map, h.qdictFind hb, hw]
    apply h.update hb
    · intro j hj
      exact .inr (List.kerase_keys_subset k _ hj)
    · exact (h.nodupKeys b).kerase k
    · rw [List.dlookup_kerase k (h.nodupKeys b), Finmap.lookup_erase]
    · intro j hj
      exact List.dlookup_kerase_ne hj
    · intro j hj
      exact Finmap.lookup_erase_ne hj
    · rw [Finmap.keys_erase, Finset.card_erase_of_mem (Finmap.mem_keys.mpr hk), h.size]
  · have hnone : m.lookup k = none := Finmap.lookup_eq_none.mpr hk
    refine ⟨d, by simp [QDict.qdictDel, hb, Except.map, h.qdictFind hb, hnone], ?_⟩
    have herase : m.erase k = m := by
      apply Finmap.ext_lookup
      intro j
      by_cases hj : j = k
      · rw [hj, Finmap.lookup_erase, hnone]
      · exact Finmap.lookup_erase_ne hj
    rw [herase]
    exact h

theorem Holds.qdictGet (h : d.Holds m) (hb : bucketOf k = .ok b) : d.qdictGet k = .ok (m.lookup k) := by
  simp [QDict.qdictGet, hb, Except.map, h.qdictFind hb, Function.comp_def]

theorem Holds.qdictHaskey (h : d.Holds m) (hb : bucketOf k = .ok b) :
    d.qdictHaskey k = .ok (decide (k ∈ m)) := by
  simp [QDict.qdictHaskey, hb, Except.map, h.qdictFind hb, ← Finmap.lookup_isSome]

/-- All entries, bucket after bucket, from one bucket on. -/
def entriesFrom (d : QDict ν) (bucket : Nat) : List (Entry ν) :=
  ((List.finRange bucketMax).drop bucket).flatMap d.table

def entries (d : QDict ν) : List (Entry ν) := d.entriesFrom 0

theorem qdictIter_eq {σ : Type*} (d : QDict ν) (iter : σ → Key → ν → σ) (arg : σ) :
    d.qdictIter iter arg = d.entries.foldl (fun o entry ↦ iter o entry.1 entry.2) arg := by
  rw [qdictIter, entries, entriesFrom, List.drop_zero, List.foldl_flatMap]

theorem entriesFrom_of_lt (d : QDict ν) {i : Nat} (h : i < bucketMax) :
    d.entriesFrom i = d.table ⟨i, h⟩ ++ d.entriesFrom (i + 1) := by
  have hlength : i < (List.finRange bucketMax).length := by simpa using h
  rw [entriesFrom, List.drop_eq_getElem_cons hlength, List.flatMap_cons, List.getElem_finRange]
  rfl

theorem entriesFrom_of_le (d : QDict ν) {i : Nat} (h : bucketMax ≤ i) : d.entriesFrom i = [] := by
  rw [entriesFrom, List.drop_eq_nil_of_le (by simpa using h), List.flatMap_nil]

-- The walk goes on from the bucket of the entry's key, which is where the entry is.
theorem Holds.walks (h : d.Holds m) (i : Nat) : d.Walks (d.qdictNextEntry i) (d.entriesFrom i) := by
  by_cases hi : i < bucketMax
  · have hrest := h.walks (i + 1)
    -- From any entry of the bucket on, the walk visits the rest of it and then the next ones.
    have hbucket : ∀ l, (∀ e ∈ l, e ∈ d.table ⟨i, hi⟩) → l ≠ [] →
        d.Walks (Cursor.ofList l) (l ++ d.entriesFrom (i + 1)) := by
      intro l
      induction l with
      | nil =>
        intro _ hne
        exact absurd rfl hne
      | cons e l ih =>
        intro hmem _
        have hplaced := h.placed ⟨i, hi⟩ e.1 (List.mem_keys_of_mem (hmem e List.mem_cons_self))
        cases l with
        | nil =>
          rw [List.singleton_append]
          refine .visit ?_ hrest
          simp [qdictNext, Cursor.ofList, hplaced, Except.map]
        | cons e' l =>
          have hnext : d.qdictNext ⟨e, e' :: l⟩ = .ok (Cursor.ofList (e' :: l)) := rfl
          rw [List.cons_append]
          refine .visit hnext (ih ?_ (List.cons_ne_nil _ _))
          exact fun x hx ↦ hmem x (List.mem_cons_of_mem e hx)
    rw [d.entriesFrom_of_lt hi, qdictNextEntry, dif_pos hi]
    cases htable : d.table ⟨i, hi⟩ with
    | nil => simpa [Cursor.ofList] using hrest
    | cons e l =>
      have hwalk := hbucket (e :: l) (by simp [htable]) (List.cons_ne_nil _ _)
      exact hwalk
  · rw [qdictNextEntry, dif_neg hi, d.entriesFrom_of_le (Nat.le_of_not_lt hi)]
    exact .done
termination_by bucketMax - i

theorem Holds.nodupKeys_entries (h : d.Holds m) : d.entries.NodupKeys := by
  rw [entries, entriesFrom, List.drop_zero, List.flatMap, List.nodupKeys_flatten]
  constructor
  · intro l hl
    obtain ⟨b, -, rfl⟩ := List.mem_map.mp hl
    exact h.nodupKeys b
  · rw [List.map_map, List.pairwise_map]
    have hnodup : (List.finRange bucketMax).Pairwise (· ≠ ·) := List.nodup_finRange bucketMax
    refine hnodup.imp ?_
    intro b c hne k hb hc
    have heq := (h.placed b k hb).symm.trans (h.placed c k hc)
    exact hne (Except.ok.inj heq)

theorem Holds.mem_entries_iff (h : d.Holds m) {v : ν} : ⟨k, v⟩ ∈ d.entries ↔ m.lookup k = some v := by
  have hmem : ⟨k, v⟩ ∈ d.entries ↔ ∃ b, ⟨k, v⟩ ∈ d.table b := by
    simp only [entries, entriesFrom, List.drop_zero, List.mem_flatMap, List.mem_finRange, true_and]
  rw [hmem]
  constructor
  · intro ⟨b, hb⟩
    rw [← h.lookup k b (h.placed b k (List.mem_keys_of_mem hb))]
    exact List.mem_dlookup (h.nodupKeys b) hb
  · intro hv
    obtain ⟨b, hb⟩ := h.hashes k (Finmap.mem_of_lookup_eq_some hv)
    rw [← h.lookup k b hb] at hv
    exact ⟨b, List.of_mem_dlookup hv⟩

/-- Both ways to go over the dictionary visit every key of the map once, with its object, in
one order. -/
def Visits (d : QDict ν) (m : Map ν) : Prop :=
  ∃ entries : List (Entry ν), d.Walks d.qdictFirst entries ∧
    d.qdictIter (fun visited key value ↦ visited ++ [⟨key, value⟩]) [] = entries ∧
    entries.NodupKeys ∧ ∀ k v, ⟨k, v⟩ ∈ entries ↔ m.lookup k = some v

theorem Holds.visits (h : d.Holds m) : d.Visits m := by
  refine ⟨d.entries, h.walks 0, ?_, h.nodupKeys_entries, fun k v ↦ h.mem_entries_iff⟩
  rw [qdictIter_eq, ← List.flatMap_eq_foldl]
  exact List.flatMap_singleton' d.entries

end QDict

inductive Op (ν : Type)
  | put (key : Key) (value : ν)
  | del (key : Key)
  | get (key : Key)
  | haskey (key : Key)
  | size

inductive Answer (ν : Type)
  | nothing
  | object (value : Option ν)
  | present (b : Bool)
  | size (n : Nat)

def step (d : QDict ν) : Op ν → Except Fault (QDict ν × Answer ν)
  | .put key value => (d.qdictPutObj key value).map fun d ↦ (d, .nothing)
  | .del key => (d.qdictDel key).map fun d ↦ (d, .nothing)
  | .get key => (d.qdictGet key).map fun value ↦ (d, .object value)
  | .haskey key => (d.qdictHaskey key).map fun b ↦ (d, .present b)
  | .size => .ok (d, .size d.size)

/-- What the operation does to the finite map. -/
def update (m : Map ν) : Op ν → Map ν
  | .put key value => m.insert key value
  | .del key => m.erase key
  | _ => m

def answer (m : Map ν) : Op ν → Answer ν
  | .put _ _ => .nothing
  | .del _ => .nothing
  | .get key => .object (m.lookup key)
  | .haskey key => .present (decide (key ∈ m))
  | .size => .size m.keys.card

def answers (m : Map ν) : List (Op ν) → List (Answer ν)
  | [] => []
  | op :: ops => answer m op :: answers (update m op) ops

def Op.key? : Op ν → Option Key
  | .put key _ => some key
  | .del key => some key
  | .get key => some key
  | .haskey key => some key
  | .size => none

def Op.Short (op : Op ν) : Prop := ∀ key ∈ op.key?, key.val.length < 2 ^ 32

/-- Every operation returns, with the answer of the finite map, and the dictionary that is
left is visited as the map. -/
def IsFiniteMap (ops : List (Op ν)) : Prop :=
  ∃ d, exec step (qdictNew ν) ops = .ok (d, answers ∅ ops) ∧ d.Visits (ops.foldl update ∅)

theorem step_ok {d : QDict ν} {m : Map ν} (h : d.Holds m) {op : Op ν} (hop : op.Short) :
    ∃ d', step d op = .ok (d', answer m op) ∧ d'.Holds (update m op) := by
  cases op with
  | put k v =>
    obtain ⟨b, hb⟩ := bucketOf_ok_iff.mpr (hop k rfl)
    obtain ⟨d', hput, h'⟩ := h.qdictPutObj hb v
    exact ⟨d', by rw [step, hput]; rfl, h'⟩
  | del k =>
    obtain ⟨b, hb⟩ := bucketOf_ok_iff.mpr (hop k rfl)
    obtain ⟨d', hdel, h'⟩ := h.qdictDel hb
    exact ⟨d', by rw [step, hdel]; rfl, h'⟩
  | get k =>
    obtain ⟨b, hb⟩ := bucketOf_ok_iff.mpr (hop k rfl)
    exact ⟨d, by rw [step, h.qdictGet hb]; rfl, h⟩
  | haskey k =>
    obtain ⟨b, hb⟩ := bucketOf_ok_iff.mpr (hop k rfl)
    exact ⟨d, by rw [step, h.qdictHaskey hb]; rfl, h⟩
  | size => exact ⟨d, by rw [step, h.size]; rfl, h⟩

theorem bucketOf_of_map {α β : Type} {f : Bucket → α} {g : α → β} {key : Key} {y : β}
    (h : ((bucketOf key).map f).map g = .ok y) : ∃ bucket, bucketOf key = .ok bucket := by
  obtain ⟨x, hx, -⟩ := ok_of_map h
  obtain ⟨b, hb, -⟩ := ok_of_map hx
  exact ⟨b, hb⟩

theorem short_of_step {d d' : QDict ν} {op : Op ν} {a : Answer ν} (h : step d op = .ok (d', a)) : op.Short := by
  intro k hk
  apply bucketOf_ok_iff.mp
  cases op with
  | put key v =>
    cases hk
    exact bucketOf_of_map h
  | del key =>
    cases hk
    exact bucketOf_of_map h
  | get key =>
    cases hk
    exact bucketOf_of_map h
  | haskey key =>
    cases hk
    exact bucketOf_of_map h
  | size => cases hk

theorem exec_ok {d : QDict ν} {m : Map ν} (h : d.Holds m) {ops : List (Op ν)} (hops : ∀ op ∈ ops, op.Short) :
    ∃ d', exec step d ops = .ok (d', answers m ops) ∧ d'.Holds (ops.foldl update m) := by
  induction ops generalizing d m with
  | nil => exact ⟨d, rfl, h⟩
  | cons op ops ih =>
    obtain ⟨d₁, hstep, h₁⟩ := step_ok h (hops op List.mem_cons_self)
    obtain ⟨d₂, hexec, h₂⟩ := ih h₁ fun o ho ↦ hops o (List.mem_cons_of_mem op ho)
    exact ⟨d₂, exec_cons hstep hexec, h₂⟩

theorem short_of_exec {d d' : QDict ν} {ops : List (Op ν)} {as : List (Answer ν)}
    (h : exec step d ops = .ok (d', as)) : ∀ op ∈ ops, op.Short := by
  induction ops generalizing d as with
  | nil =>
    intro op hop
    cases hop
  | cons op ops ih =>
    obtain ⟨d₁, a, as', hstep, hexec, rfl⟩ := exec_cons_ok h
    intro o ho
    rcases List.mem_cons.mp ho with rfl | ho
    · exact short_of_step hstep
    · exact ih hexec o ho

/-- The dictionary is a finite map as long as every key is shorter than the index of the
hash function can count. -/
theorem isFiniteMap_iff (ops : List (Op ν)) : IsFiniteMap ops ↔ ∀ op ∈ ops, op.Short := by
  constructor
  · intro ⟨d, hexec, _⟩
    exact short_of_exec hexec
  · intro hops
    obtain ⟨d, hexec, h⟩ := exec_ok QDict.holds_qdictNew hops
    exact ⟨d, hexec, h.visits⟩

def longKey (n : Nat) : Key := ⟨List.replicate n 1, by simp [List.mem_replicate]⟩

theorem not_isFiniteMap_of_long {key : Key} (h : 2 ^ 32 ≤ key.val.length) (v : ν) :
    ¬ IsFiniteMap [.put key v] := by
  intro ⟨d, hexec, _⟩
  have hshort := short_of_exec hexec _ List.mem_cons_self key rfl
  omega

theorem isFiniteMap_fails : ¬ ∀ ops : List (Op Unit), IsFiniteMap ops := by
  intro h
  have hlength : ∀ n, n ≤ (longKey n).val.length := fun n ↦ List.length_replicate.ge
  exact not_isFiniteMap_of_long (hlength (2 ^ 32)) () (h _)

end IDeviceEmulator.Qobject.Qdict
