import Mathlib.Algebra.Group.Int.Defs
import IDeviceEmulator.Library.Text
import IDeviceEmulator.H2fmi.Fifo

namespace IDeviceEmulator.H2fmi

open Text

def isSpace (b : Byte) : Bool := b.toNat = 32 || (9 ≤ b.toNat && b.toNat ≤ 13)

def isDigit (b : Byte) : Bool := 48 ≤ b.toNat && b.toNat ≤ 57

/-- `atoi` is `strtol`, which stops at the limits of `long`, and a conversion to `int`. -/
def atoi (text : List Byte) : Word :=
  let text := text.dropWhile isSpace
  let negative := decide (text.head? = some 0x2d)
  let digits := if negative || decide (text.head? = some 0x2b) then text.tail else text
  let magnitude : Int := value (digits.takeWhile isDigit)
  BitVec.ofInt 32 (if negative then max (-magnitude) (-2 ^ 63) else min magnitude (2 ^ 63 - 1))

/-- A call of `bdrv_open`: the index in `ce`, and the path. -/
abbrev Call := Int × List Byte

/-- The bitmap of the chips, and the calls of `bdrv_open` so far, latest first. -/
structure Chips where
  bitmap : Word := 0
  calls : List Call := []

/-- A shift by a negative count is undefined; the count is taken modulo 32. -/
def ceBit (ce : Word) : Word := 1#32 <<< (ce.toNat % 32)

/-- What the last of some calls of `bdrv_open` returns. -/
abbrev Opens := List Call → Int

variable (opens : Opens)

/-- `h2fmi_add_chip`. -/
def addChip (c : Chips) (ce : Word) (file : List Byte) : Chips × Int :=
  if 16 < ce.toInt then (c, -22)
  else
    let bitmap := if c.bitmap &&& ceBit ce ≠ 0 then c.bitmap &&& ~~~ceBit ce else c.bitmap
    let calls := (ce.toInt, file) :: c.calls
    if opens calls ≠ 0 then (⟨bitmap, calls⟩, opens calls) else (⟨bitmap ||| ceBit ce, calls⟩, 0)

/-- The loop of `h2fmi_setup_chips`, with the bytes between `last` and `ptr`, and what is done
after it. -/
def setupLoop : List Byte → List Byte → Word → Bool → Chips → Chips × Int
  | [], last, ce, _, c => if last ≠ [] then addChip opens c ce last else (c, 0)
  | b :: str, last, ce, hasce, c =>
    if hasce = false ∧ b = 0x2c then setupLoop str [] (atoi last) true c
    else if b = 0x3b then
      let (c, ret) := addChip opens c ce last
      if ret ≠ 0 then (c, ret) else setupLoop str [] (ce + 1) false c
    else setupLoop str (last ++ [b]) ce hasce c

def setupChips (paths : List Byte) : Chips × Int := setupLoop opens paths [] 0 false {}

structure Entry where
  index : Option Word
  path : List Byte
deriving DecidableEq

/-- An entry has an index if there is a comma in it. -/
def entryOf (piece : List Byte) : Entry :=
  if 0x2c ∈ piece then ⟨some (atoi (piece.takeWhile (· ≠ 0x2c))), (piece.dropWhile (· ≠ 0x2c)).tail⟩
  else ⟨none, piece⟩

/-- The entries of some pieces. The last piece is no entry if it has no path. -/
def entriesOf (first : List Byte → Entry) : List (List Byte) → List Entry
  | [] => []
  | [piece] => if (first piece).path = [] then [] else [first piece]
  | piece :: next :: pieces => first piece :: entriesOf entryOf (next :: pieces)

/-- The entries of a path string. -/
def listed (paths : List Byte) : List Entry := entriesOf entryOf (paths.splitOn 0x3b)

/-- The calls that the entries ask for. An entry without an index has the one after the last. -/
def requested : Int → List Entry → List Call
  | _, [] => []
  | next, e :: es =>
    let index := match e.index with
      | some ce => ce.toInt
      | none => next
    (index, e.path) :: requested (index + 1) es

def Call.InRange (call : Call) : Prop := 0 ≤ call.1 ∧ call.1 ≤ 15

instance (call : Call) : Decidable call.InRange := inferInstanceAs (Decidable (_ ∧ _))

/-- How the calls go: those that were made, latest first, and whether all of them were made and
succeeded. A call that is out of range fails and is not made. -/
def performed (calls : List Call) : List Call → List Call × Bool
  | [] => (calls, true)
  | call :: rest =>
    if call.InRange then
      if opens (call :: calls) = 0 then performed (call :: calls) rest else (call :: calls, false)
    else (calls, false)

/-- The call that is not made because it is out of range. -/
def refused (calls : List Call) : List Call → Option Call
  | [] => none
  | call :: rest =>
    if call.InRange then
      if opens (call :: calls) = 0 then refused (call :: calls) rest else none
    else some call

/-- Whether the last call for an index succeeded. -/
def LastSucceeds (i : Int) : List Call → Prop
  | [] => False
  | call :: calls => if call.1 = i then opens (call :: calls) = 0 else LastSucceeds i calls

/-- The chips are opened as the entries of the path string ask for it. -/
structure SetUp (paths : List Byte) (r : Chips × Int) : Prop where
  calls : r.1.calls = (performed opens [] (requested 0 (listed paths))).1
  ret : r.2 = 0 ↔ (performed opens [] (requested 0 (listed paths))).2 = true
  inRange : ∀ call ∈ r.1.calls, call.InRange
  bitmap : ∀ i < 32, r.1.bitmap.getLsbD i = true ↔ LastSucceeds opens i r.1.calls

/-- The chips of a list of entries. -/
def runEntries : List Entry → Word → Chips → Chips × Int
  | [], _, c => (c, 0)
  | e :: es, ce, c =>
    let ce := e.index.getD ce
    let (c, ret) := addChip opens c ce e.path
    if ret ≠ 0 then (c, ret) else runEntries es (ce + 1) c

section Splitting

variable {opens}

theorem entriesOf_modifyHead (first : List Byte → Entry) (f : List Byte → List Byte) {pieces : List (List Byte)} :
    entriesOf first (pieces.modifyHead f) = entriesOf (fun piece ↦ first (f piece)) pieces := by
  cases pieces with
  | nil => rfl
  | cons piece pieces =>
    cases pieces with
    | nil => rfl
    | cons next pieces => rfl

theorem entriesOf_cons (first : List Byte → Entry) (piece : List Byte) {pieces : List (List Byte)}
    (h : pieces ≠ []) :
    entriesOf first (piece :: pieces) = first piece :: entriesOf entryOf pieces := by
  cases pieces with
  | nil => exact absurd rfl h
  | cons next pieces => rfl

/-- The index does not matter where the first entry has one. -/
theorem runEntries_indexed (first : List Byte → Entry) (pieces : List (List Byte)) (c : Chips)
    (h : ∀ piece, (first piece).index ≠ none) (ce ce' : Word) :
    runEntries opens (entriesOf first pieces) ce c = runEntries opens (entriesOf first pieces) ce' c := by
  have hsame : ∀ piece es, runEntries opens (first piece :: es) ce c = runEntries opens (first piece :: es) ce' c := by
    intro piece es
    obtain ⟨w, hw⟩ := Option.ne_none_iff_exists'.mp (h piece)
    simp only [runEntries, hw, Option.getD_some]
  cases pieces with
  | nil => rfl
  | cons piece pieces =>
    cases pieces with
    | nil =>
      unfold entriesOf
      split
      · rfl
      · exact hsame piece []
    | cons next pieces => exact hsame piece _

theorem entryOf_plain {piece : List Byte} (h : 0x2c ∉ piece) : entryOf piece = ⟨none, piece⟩ := if_neg h

theorem entryOf_comma {last piece : List Byte} (h : 0x2c ∉ last) :
    entryOf (last ++ 0x2c :: piece) = ⟨some (atoi last), piece⟩ := by
  have hall : ∀ b ∈ last, decide (b ≠ 0x2c) = true := by
    intro b hb
    apply decide_eq_true
    rintro rfl
    exact h hb
  have hmem : (0x2c : Byte) ∈ last ++ 0x2c :: piece := List.mem_append_right _ List.mem_cons_self
  rw [entryOf, if_pos hmem, List.takeWhile_append_of_pos hall, List.dropWhile_append_of_pos hall,
    List.takeWhile_cons_of_neg (by decide), List.dropWhile_cons_of_neg (by decide), List.append_nil]
  rfl

theorem runEntries_singleton (e : Entry) (ce : Word) (c : Chips) :
    runEntries opens [e] ce c = addChip opens c (e.index.getD ce) e.path := by
  unfold runEntries
  dsimp only
  by_cases hret : (addChip opens c (e.index.getD ce) e.path).2 = 0
  · rw [if_neg (not_not_intro hret), runEntries, ← hret]
  · rw [if_pos hret]

/-- The entry that the loop is in. -/
def current (last : List Byte) (ce : Word) (hasce : Bool) (piece : List Byte) : Entry :=
  if hasce then ⟨some ce, last ++ piece⟩ else entryOf (last ++ piece)

theorem current_nil {last : List Byte} {hasce : Bool} (ce : Word) (h : hasce = false → 0x2c ∉ last) :
    (current last ce hasce []).path = last ∧ (current last ce hasce []).index.getD ce = ce := by
  unfold current
  rw [List.append_nil]
  cases hasce with
  | false =>
    have hplain := entryOf_plain (h rfl)
    simp only [Bool.false_eq_true, if_false, hplain, Option.getD_none, and_self]
  | true => exact ⟨rfl, rfl⟩

/-- The loop goes through the entries that splitting at the semicolons gives. -/
theorem setupLoop_eq (str last : List Byte) (ce : Word) (hasce : Bool) (c : Chips) (h : hasce = false → 0x2c ∉ last) :
    setupLoop opens str last ce hasce c =
      runEntries opens (entriesOf (current last ce hasce) (str.splitOn 0x3b)) ce c := by
  induction str generalizing last ce hasce c with
  | nil =>
    obtain ⟨hpath, hindex⟩ := current_nil ce h
    rw [List.splitOn_nil, setupLoop, entriesOf, hpath]
    by_cases hlast : last = []
    · rw [if_pos hlast, if_neg (not_not_intro hlast)]
      rfl
    · rw [if_neg hlast, if_pos hlast, runEntries_singleton, hpath, hindex]
  | cons b str ih =>
    rw [List.splitOn_cons_eq_if_modifyHead, setupLoop]
    by_cases hcomma : hasce = false ∧ b = 0x2c
    · obtain ⟨rfl, rfl⟩ := hcomma
      have hsep : ¬ ((0x2c : Byte) == 0x3b) = true := by decide
      have hentry : (fun piece ↦ current last ce false (0x2c :: piece)) = current [] (atoi last) true := by
        funext piece
        exact entryOf_comma (h rfl)
      rw [if_pos ⟨rfl, rfl⟩, if_neg hsep, entriesOf_modifyHead, hentry, ih [] (atoi last) true c (fun h ↦ by cases h)]
      apply runEntries_indexed
      intro piece hnone
      cases hnone
    · rw [if_neg hcomma]
      by_cases hsemi : b = 0x3b
      · subst hsemi
        obtain ⟨hpath, hindex⟩ := current_nil ce h
        have hnext : current [] (ce + 1) false = entryOf := rfl
        rw [if_pos rfl, if_pos (by decide), entriesOf_cons _ _ (List.splitOn_ne_nil _ _), runEntries, hindex, hpath]
        dsimp only
        rw [ih [] (ce + 1) false _ (fun _ ↦ List.not_mem_nil), hnext]
      · have hsep : ¬ (b == 0x3b) = true := by simpa using hsemi
        have hentry : (fun piece ↦ current last ce hasce (b :: piece)) = current (last ++ [b]) ce hasce := by
          funext piece
          unfold current
          rw [List.append_assoc]
          rfl
        have hlast : hasce = false → 0x2c ∉ last ++ [b] := by
          intro hfalse hmem
          rcases List.mem_append.mp hmem with hmem | hmem
          · exact h hfalse hmem
          · exact hcomma ⟨hfalse, (List.mem_singleton.mp hmem).symm⟩
        rw [if_neg hsemi, if_neg hsep, entriesOf_modifyHead, hentry, ih (last ++ [b]) ce hasce c hlast]

end Splitting

section Tracking

variable {opens}

/-- The bitmap has the chips whose last call succeeded, and no call was out of range. -/
structure Tracks (opens : Opens) (c : Chips) : Prop where
  inRange : ∀ call ∈ c.calls, call.InRange
  bitmap : ∀ i < 32, c.bitmap.getLsbD i = true ↔ LastSucceeds opens i c.calls

theorem tracks_empty : Tracks opens {} where
  inRange call h := by cases h
  bitmap i _ := by
    constructor
    · intro h
      rw [show ({} : Chips).bitmap = 0#32 from rfl, BitVec.getLsbD_zero] at h
      cases h
    · intro h
      exact h.elim

theorem getLsbD_ceBit {ce : Word} (h : ce.toNat < 32) {i : Nat} (hi : i < 32) :
    (ceBit ce).getLsbD i = decide (i = ce.toNat) := by
  rw [ceBit, Nat.mod_eq_of_lt h]
  grind

theorem toInt_of_inRange {ce : Word} {file : List Byte} (h : Call.InRange (ce.toInt, file)) :
    ce.toInt = ce.toNat ∧ ce.toNat ≤ 15 := by
  obtain ⟨hlow, hhigh⟩ := h
  dsimp only at hlow hhigh
  rw [BitVec.toInt_eq_toNat_cond] at hlow hhigh ⊢
  omega

/-- The next index is one higher. -/
theorem toInt_succ {ce : Word} {file : List Byte} (h : Call.InRange (ce.toInt, file)) :
    (ce + 1).toInt = ce.toInt + 1 := by
  obtain ⟨heq, hle⟩ := toInt_of_inRange h
  have hsucc : (ce + 1).toNat = ce.toNat + 1 := by
    have hone : (1 : Word).toNat = 1 := rfl
    rw [BitVec.toNat_add, hone]
    exact Nat.mod_eq_of_lt (by omega)
  rw [BitVec.toInt_eq_toNat_cond, hsucc, heq]
  split
  · omega
  · omega

theorem addChip_wide (c : Chips) {ce : Word} (file : List Byte) (h : 16 < ce.toInt) :
    addChip opens c ce file = (c, -22) := if_pos h

theorem addChip_calls (opens : Opens) (c : Chips) {ce : Word} (file : List Byte) (h : ¬ 16 < ce.toInt) :
    (addChip opens c ce file).1.calls = (ce.toInt, file) :: c.calls ∧
      (addChip opens c ce file).2 = opens ((ce.toInt, file) :: c.calls) := by
  rw [addChip, if_neg h]
  dsimp only
  split
  · exact ⟨rfl, rfl⟩
  · rename_i hret
    exact ⟨rfl, (not_not.mp hret).symm⟩

/-- The bit of the chip is as the call of `bdrv_open` says, and the other bits stay. -/
theorem addChip_bitmap (c : Chips) {ce : Word} (file : List Byte) (h : Call.InRange (ce.toInt, file))
    {i : Nat} (hi : i < 32) :
    (addChip opens c ce file).1.bitmap.getLsbD i =
      if (i : Int) = ce.toInt then decide (opens ((ce.toInt, file) :: c.calls) = 0) else c.bitmap.getLsbD i := by
  obtain ⟨heq, hle⟩ := toInt_of_inRange h
  have hbit : (ceBit ce).getLsbD i = decide (i = ce.toNat) := getLsbD_ceBit (by omega) hi
  have hwide : ¬ 16 < ce.toInt := by omega
  have hclosed : (if c.bitmap &&& ceBit ce ≠ 0 then c.bitmap &&& ~~~ceBit ce else c.bitmap).getLsbD i =
      (c.bitmap.getLsbD i && !decide (i = ce.toNat)) := by
    split
    · rw [BitVec.getLsbD_and, BitVec.getLsbD_not, hbit, decide_eq_true hi, Bool.true_and]
    · rename_i hclear
      by_cases hsame : i = ce.toNat
      · have hzero : (c.bitmap &&& ceBit ce).getLsbD i = false := by
          rw [not_not.mp hclear]
          exact BitVec.getLsbD_zero
        rw [BitVec.getLsbD_and, hbit, decide_eq_true hsame, Bool.and_true] at hzero
        rw [hzero, Bool.false_and]
      · rw [decide_eq_false hsame, Bool.not_false, Bool.and_true]
  rw [addChip, if_neg hwide]
  dsimp only
  by_cases hret : opens ((ce.toInt, file) :: c.calls) = 0
  · rw [if_neg (not_not_intro hret), BitVec.getLsbD_or, hclosed, hbit, decide_eq_true hret]
    by_cases hsame : i = ce.toNat
    · rw [if_pos (by omega), decide_eq_true hsame, Bool.or_true]
    · rw [if_neg (by omega), decide_eq_false hsame, Bool.or_false, Bool.not_false, Bool.and_true]
  · rw [if_pos hret, hclosed, decide_eq_false hret]
    by_cases hsame : i = ce.toNat
    · rw [if_pos (by omega), decide_eq_true hsame, Bool.not_true, Bool.and_false]
    · rw [if_neg (by omega), decide_eq_false hsame, Bool.not_false, Bool.and_true]

theorem Tracks.addChip {c : Chips} (h : Tracks opens c) {ce : Word} {file : List Byte}
    (hrange : Call.InRange (ce.toInt, file)) : Tracks opens (addChip opens c ce file).1 := by
  have hwide : ¬ 16 < ce.toInt := by
    obtain ⟨hlow, hhigh⟩ := hrange
    dsimp only at hhigh
    omega
  obtain ⟨hcalls, hret⟩ := addChip_calls opens c file hwide
  constructor
  · intro call hcall
    rw [hcalls] at hcall
    rcases List.mem_cons.mp hcall with rfl | hcall
    · exact hrange
    · exact h.inRange call hcall
  · intro i hi
    rw [hcalls, addChip_bitmap c file hrange hi, LastSucceeds]
    dsimp only
    by_cases hsame : (i : Int) = ce.toInt
    · rw [if_pos hsame, if_pos hsame.symm, decide_eq_true_iff]
    · rw [if_neg hsame, if_neg (Ne.symm hsame)]
      exact h.bitmap i hi

/-- Calls are never taken back. -/
theorem mem_calls_addChip (opens : Opens) {c : Chips} {call : Call} (h : call ∈ c.calls) (ce : Word)
    (file : List Byte) :
    call ∈ (addChip opens c ce file).1.calls := by
  by_cases hwide : 16 < ce.toInt
  · rw [addChip_wide c file hwide]
    exact h
  · rw [(addChip_calls opens c file hwide).1]
    exact List.mem_cons_of_mem _ h

theorem mem_calls_runEntries {call : Call} (es : List Entry) (ce : Word) {c : Chips} (h : call ∈ c.calls) :
    call ∈ (runEntries opens es ce c).1.calls := by
  induction es generalizing ce c with
  | nil => exact h
  | cons e es ih =>
    have hadded := mem_calls_addChip opens h (e.index.getD ce) e.path
    rw [runEntries]
    dsimp only
    split
    · exact hadded
    · exact ih _ hadded

theorem requested_cons (ce : Word) (e : Entry) (es : List Entry) :
    requested ce.toInt (e :: es) =
      ((e.index.getD ce).toInt, e.path) :: requested ((e.index.getD ce).toInt + 1) es := by
  rw [requested]
  cases e.index with
  | none => rfl
  | some w => rfl

/-- The entries are gone through as asked, unless an entry that is reached has an index that is out
of range and passes the check. -/
theorem runEntries_performed (es : List Entry) (ce : Word) {c : Chips} (h : Tracks opens c)
    (hrefused : ∀ call, refused opens c.calls (requested ce.toInt es) = some call → 16 < call.1) :
    (runEntries opens es ce c).1.calls = (performed opens c.calls (requested ce.toInt es)).1 ∧
      ((runEntries opens es ce c).2 = 0 ↔ (performed opens c.calls (requested ce.toInt es)).2 = true) ∧
      Tracks opens (runEntries opens es ce c).1 := by
  induction es generalizing ce c with
  | nil =>
    refine ⟨rfl, ?_, h⟩
    constructor
    · intro _
      rfl
    · intro _
      rfl
  | cons e es ih =>
    rw [requested_cons] at hrefused ⊢
    rw [runEntries, performed]
    rw [refused] at hrefused
    dsimp only
    generalize hindex : e.index.getD ce = index at hrefused ⊢
    by_cases hrange : Call.InRange (index.toInt, e.path)
    · have hwide : ¬ 16 < index.toInt := by
        obtain ⟨hlow, hhigh⟩ := hrange
        dsimp only at hhigh
        omega
      obtain ⟨hcalls, hret⟩ := addChip_calls opens c e.path hwide
      have htracks := h.addChip hrange
      rw [if_pos hrange] at hrefused ⊢
      rw [hret]
      by_cases hopen : opens ((index.toInt, e.path) :: c.calls) = 0
      · rw [if_pos hopen, ← hcalls, ← toInt_succ hrange] at hrefused
        rw [if_neg (not_not_intro hopen), if_pos hopen, ← hcalls, ← toInt_succ hrange]
        exact ih (index + 1) htracks hrefused
      · rw [if_pos hopen, if_neg hopen]
        refine ⟨hcalls, ?_, htracks⟩
        constructor
        · intro hzero
          exact absurd hzero hopen
        · intro htrue
          cases htrue
    · rw [if_neg hrange] at hrefused ⊢
      have hwide : 16 < index.toInt := hrefused _ rfl
      have hfails : (-22 : Int) ≠ 0 := by decide
      rw [addChip_wide c e.path hwide, if_pos hfails]
      refine ⟨rfl, ?_, h⟩
      constructor
      · intro hzero
        cases hzero
      · intro htrue
        cases htrue

/-- An index that is out of range and passes the check is opened. -/
theorem runEntries_refused (es : List Entry) (ce : Word) (c : Chips) {call : Call}
    (hrefused : refused opens c.calls (requested ce.toInt es) = some call) (hle : call.1 ≤ 16) :
    ∃ call ∈ (runEntries opens es ce c).1.calls, ¬ call.InRange := by
  induction es generalizing ce c with
  | nil => cases hrefused
  | cons e es ih =>
    rw [requested_cons, refused] at hrefused
    rw [runEntries]
    dsimp only
    generalize hindex : e.index.getD ce = index at hrefused ⊢
    by_cases hrange : Call.InRange (index.toInt, e.path)
    · have hwide : ¬ 16 < index.toInt := by
        obtain ⟨hlow, hhigh⟩ := hrange
        dsimp only at hhigh
        omega
      obtain ⟨hcalls, hret⟩ := addChip_calls opens c e.path hwide
      rw [if_pos hrange] at hrefused
      by_cases hopen : opens ((index.toInt, e.path) :: c.calls) = 0
      · rw [if_pos hopen, ← hcalls, ← toInt_succ hrange] at hrefused
        rw [hret, if_neg (not_not_intro hopen)]
        exact ih (index + 1) _ hrefused
      · rw [if_neg hopen] at hrefused
        cases hrefused
    · rw [if_neg hrange] at hrefused
      obtain rfl : (index.toInt, e.path) = call := Option.some.inj hrefused
      have hcalls := (addChip_calls opens c e.path (Int.not_lt.mpr hle)).1
      have hopened : (index.toInt, e.path) ∈ (addChip opens c index e.path).1.calls := by
        rw [hcalls]
        exact List.mem_cons_self
      refine ⟨(index.toInt, e.path), ?_, hrange⟩
      split
      · exact hopened
      · exact mem_calls_runEntries es _ hopened

end Tracking

theorem setupChips_eq (paths : List Byte) : setupChips opens paths = runEntries opens (listed paths) 0 {} :=
  setupLoop_eq paths [] 0 false {} (fun _ ↦ List.not_mem_nil)

/-- The chips are opened as asked if and only if no entry that is reached has an index that is out
of range and passes the check of `h2fmi_add_chip`. -/
theorem setUp_iff (paths : List Byte) :
    SetUp opens paths (setupChips opens paths) ↔
      ∀ call, refused opens [] (requested 0 (listed paths)) = some call → 16 < call.1 := by
  rw [setupChips_eq]
  constructor
  · intro hsetUp call hrefused
    by_contra hle
    obtain ⟨call, hcall, hout⟩ := runEntries_refused (listed paths) 0 {} hrefused (Int.not_lt.mp hle)
    exact hout (hsetUp.inRange call hcall)
  · intro hrefused
    obtain ⟨hcalls, hret, htracks⟩ := runEntries_performed (listed paths) 0 tracks_empty hrefused
    exact ⟨hcalls, hret, htracks.inRange, htracks.bitmap⟩

/-- The sixteenth chip passes the check and is opened. -/
theorem setUp_fails : ¬ ∀ opens paths, SetUp opens paths (setupChips opens paths) := by
  intro h
  have hsetUp := h (fun _ ↦ 0) [0x31, 0x36, 0x2c, 0x61]
  have hopened : (16, [0x61]) ∈ (setupChips (fun _ ↦ 0) [0x31, 0x36, 0x2c, 0x61]).1.calls := by decide +kernel
  exact absurd (hsetUp.inRange _ hopened) (by decide)

end IDeviceEmulator.H2fmi
