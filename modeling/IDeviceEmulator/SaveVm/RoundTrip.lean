import Mathlib.Data.List.TakeWhile
import IDeviceEmulator.SaveVm.Vmstate

namespace IDeviceEmulator.SaveVm.Vmstate

open Bytes

section Memory

variable {f g : Int → Byte} {a b : Int} {n : Nat}

theorem length_readBytes : (readBytes f a n).length = n := by
  simp [readBytes]

theorem readLe_congr (h : ∀ k < n, f (a + (k : Int)) = g (b + (k : Int))) : readLe f a n = readLe g b n := by
  induction n generalizing a b with
  | zero => rfl
  | succ n ih =>
    have hfirst : f a = g b := by
      have h0 := h 0 (Nat.zero_lt_succ n)
      simpa using h0
    have hrest : ∀ k < n, f (a + 1 + (k : Int)) = g (b + 1 + (k : Int)) := by
      intro k hk
      have hk' := h (k + 1) (Nat.succ_lt_succ hk)
      rwa [Int.natCast_succ, Int.add_comm (k : Int) 1, ← Int.add_assoc, ← Int.add_assoc] at hk'
    rw [readLe, readLe, hfirst, ih hrest]

theorem writeBytes_of_lt {new : List Byte} {k : Nat} (hk : k < new.length) :
    writeBytes f a new (a + k) = new[k] := by
  have hin : a ≤ a + k ∧ a + k < a + new.length := by omega
  have hsub : (a + k - a).toNat = k := by omega
  rw [writeBytes, if_pos hin, hsub, List.getD_eq_getElem?_getD, List.getElem?_eq_getElem hk, Option.getD_some]

theorem writeBytes_of_not {new : List Byte} (h : ∀ k < new.length, b ≠ a + (k : Int)) :
    writeBytes f a new b = f b := by
  have hout : ¬ (a ≤ b ∧ b < a + new.length) := by
    intro hin
    exact h (b - a).toNat (by omega) (by omega)
  rw [writeBytes, if_neg hout]

end Memory

variable {src : Device} {home : Int → Int} {s t u : Load} {next rest : List Byte}
  {V W : List (Int × Int)}

/-- The bytes `V` are restored, and those that were restored before. -/
structure Restored (src : Device) (home : Int → Int) (s : Load) (next : List Byte) (V : List (Int × Int)) (t : Load) :
    Prop where
  input : t.input = next
  keeps : ∀ b, s.bytes b = src.bytes (home b) → t.bytes b = src.bytes (home b)
  restores : ∀ p ∈ V, t.bytes p.2 = src.bytes p.1

theorem Restored.refl (h : s.input = next) : Restored src home s next [] s :=
  ⟨h, fun _ hb ↦ hb, nofun⟩

theorem Restored.trans (h : Restored src home s next V t) (h' : Restored src home t rest W u)
    (hV : ∀ p ∈ V, home p.2 = p.1) : Restored src home s rest (V ++ W) u := by
  refine ⟨h'.input, fun b hb ↦ h'.keeps b (h.keeps b hb), fun p hp ↦ ?_⟩
  rcases List.mem_append.mp hp with hv | hw
  · have hhome := hV p hv
    rw [← hhome]
    apply h'.keeps p.2
    rw [hhome]
    exact h.restores p hv
  · exact h'.restores p hw

theorem mem_bytePlaces {size addr addr' : Int} {p : Int × Int} :
    p ∈ bytePlaces size addr addr' ↔ ∃ k < size.toNat, p = (addr + (k : Int), addr' + (k : Int)) := by
  rw [bytePlaces, List.mem_map]
  constructor
  · rintro ⟨k, hk, rfl⟩
    exact ⟨k, List.mem_range.mp hk, rfl⟩
  · rintro ⟨k, hk, rfl⟩
    exact ⟨k, List.mem_range.mpr hk, rfl⟩

theorem VMStateInfo.Undoes.load {info : VMStateInfo} {size : Int} (h : info.Undoes size) {addr addr' : Int}
    (hhome : ∀ p ∈ bytePlaces size addr addr', home p.2 = p.1)
    (hinput : s.input = info.save src.bytes size addr ++ next) :
    ∃ ret t, 0 ≤ ret ∧ info.load size addr' s = (ret, t) ∧
      Restored src home s next (bytePlaces size addr addr') t := by
  obtain ⟨ret, hret, hget⟩ := h (readBytes src.bytes addr size.toNat) (readBytes s.bytes addr' size.toNat) next
    length_readBytes length_readBytes
  have hat : ∀ p ∈ bytePlaces size addr addr',
      writeBytes s.bytes addr' (readBytes src.bytes addr size.toNat) p.2 = src.bytes p.1 := by
    intro p hp
    obtain ⟨k, hk, rfl⟩ := mem_bytePlaces.mp hp
    rw [writeBytes_of_lt (by rwa [length_readBytes])]
    simp [readBytes]
  refine ⟨ret, ⟨next, writeBytes s.bytes addr' (readBytes src.bytes addr size.toNat)⟩, hret, ?_, rfl,
    fun b hb ↦ ?_, hat⟩
  · unfold VMStateInfo.load
    rw [hinput, VMStateInfo.save, hget]
  · by_cases hin : ∃ p ∈ bytePlaces size addr addr', b = p.2
    · obtain ⟨p, hp, rfl⟩ := hin
      rw [hhome p hp]
      exact hat p hp
    · change writeBytes s.bytes addr' (readBytes src.bytes addr size.toNat) b = _
      rw [writeBytes_of_not]
      · exact hb
      · rw [length_readBytes]
        intro k hk hbk
        exact hin ⟨_, mem_bytePlaces.mpr ⟨k, hk, rfl⟩, hbk⟩

section Elements

variable (f : VMStateField) (put : Int → List Byte) (get : Int → Load → Except Trap (Int × Load))
  (pointers pointers' : Int → Int) (o o' size : Int)

theorem saveElems_succ (i n : Nat) : f.saveElems put pointers o size i (n + 1) =
    put (f.elemAddr pointers o size i) ++ f.saveElems put pointers o size (i + 1) n := by
  rw [VMStateField.saveElems, List.range'_succ, List.flatMap_cons]
  rfl

theorem elemPlaces_succ (places : Int → Int → List (Int × Int)) (i n : Nat) :
    f.elemPlaces places pointers pointers' o o' size i (n + 1) =
      places (f.elemAddr pointers o size i) (f.elemAddr pointers' o' size i) ++
        f.elemPlaces places pointers pointers' o o' size (i + 1) n := by
  rw [VMStateField.elemPlaces, List.range'_succ, List.flatMap_cons]
  rfl

/-- The loop over the elements restores all of them when each turn restores one. -/
theorem loadElems_restores (places : Int → Int → List (Int × Int)) (n i : Nat)
    (hget : ∀ j m, j + m + 1 = i + n → (∀ p ∈ places (f.elemAddr pointers o size j) (f.elemAddr pointers' o' size j),
        home p.2 = p.1) → ∀ s, s.input = put (f.elemAddr pointers o size j) ++
          (f.saveElems put pointers o size (j + 1) m ++ next) →
      ∃ ret t, 0 ≤ ret ∧ get (f.elemAddr pointers' o' size j) s = .ok (ret, t) ∧
        Restored src home s (f.saveElems put pointers o size (j + 1) m ++ next)
          (places (f.elemAddr pointers o size j) (f.elemAddr pointers' o' size j)) t)
    (hhome : ∀ p ∈ f.elemPlaces places pointers pointers' o o' size i n, home p.2 = p.1)
    (hinput : s.input = f.saveElems put pointers o size i n ++ next) :
    ∃ t, f.loadElems get pointers' o' size i n s = .ok (0, t) ∧
      Restored src home s next (f.elemPlaces places pointers pointers' o o' size i n) t := by
  induction n generalizing i s with
  | zero => exact ⟨s, rfl, .refl hinput⟩
  | succ n ih =>
    rw [saveElems_succ, List.append_assoc] at hinput
    rw [elemPlaces_succ] at hhome ⊢
    have hfirst : ∀ p ∈ places (f.elemAddr pointers o size i) (f.elemAddr pointers' o' size i), home p.2 = p.1 :=
      fun p hp ↦ hhome p (List.mem_append_left _ hp)
    obtain ⟨ret, t, hret, hturn, ht⟩ := hget i n (by omega) hfirst s hinput
    obtain ⟨u, hrest, hu⟩ := ih (s := t) (i + 1) (fun j m hm ↦ hget j m (by omega))
      (fun p hp ↦ hhome p (List.mem_append_right _ hp)) ht.input
    refine ⟨u, ?_, ht.trans hu hfirst⟩
    unfold VMStateField.loadElems
    rw [hturn]
    change (if ret < 0 then _ else _) = _
    rw [if_neg (Int.not_lt.mpr hret)]
    exact hrest

end Elements

/-- What the earlier fields of a structure hold is there already. -/
def Available (src : Device) (home : Int → Int) (o o' : Int) (earlier : List VMStateField) (s : Load) : Prop :=
  ∀ g ∈ earlier, g.Single → ∀ k < g.size.toNat, home (o' + g.offset + (k : Int)) = o + g.offset + (k : Int) ∧
    s.bytes (o' + g.offset + (k : Int)) = src.bytes (o + g.offset + (k : Int))

section Fields

variable {o o' : Int} {earlier : List VMStateField} {f : VMStateField} {pointers : Int → Int}

theorem Available.keeps (h : Available src home o o' earlier s) (ht : Restored src home s next V t) :
    Available src home o o' earlier t := by
  intro g hg hsingle k hk
  obtain ⟨hhome, hbyte⟩ := h g hg hsingle k hk
  refine ⟨hhome, ?_⟩
  have hkept := ht.keeps (o' + g.offset + (k : Int)) (by rw [hhome, hbyte])
  rw [hkept, hhome]

theorem Available.readLe_eq (h : Available src home o o' earlier s) {offset : Int} {w : Nat}
    (hlisted : ∃ g ∈ earlier, g.Single ∧ g.offset = offset ∧ g.size = w) :
    readLe s.bytes (o' + offset) w = readLe src.bytes (o + offset) w := by
  obtain ⟨g, hg, hsingle, rfl, hsize⟩ := hlisted
  apply readLe_congr
  intro k hk
  exact (h g hg hsingle k (by omega)).2

theorem Available.readInt32_eq (h : Available src home o o' earlier s) {offset : Int}
    (hlisted : ∃ g ∈ earlier, g.Single ∧ g.offset = offset ∧ g.size = (4 : Nat)) :
    readInt32 s.bytes (o' + offset) = readInt32 src.bytes (o + offset) := by
  unfold readInt32
  rw [h.readLe_eq hlisted]

theorem Available.elemSize_eq (h : Available src home o o' earlier s) (hlisted : f.Listed earlier) :
    f.elemSize s.bytes o' = f.elemSize src.bytes o := by
  unfold VMStateField.elemSize
  by_cases hbuffer : f.flags.vbuffer = true
  · rw [if_pos hbuffer, if_pos hbuffer, h.readInt32_eq (hlisted.1 hbuffer)]
  · rw [if_neg hbuffer, if_neg hbuffer]

theorem Available.loadCount_eq (h : Available src home o o' earlier s) (hlisted : f.Listed earlier) :
    f.loadCount s.bytes o' = f.loadCount src.bytes o := by
  have hcount := hlisted.2
  unfold VMStateField.countWidth at hcount
  unfold VMStateField.loadCount
  split_ifs at hcount ⊢
  · rfl
  · exact h.readInt32_eq (hcount 4 rfl)
  · exact h.readInt32_eq (hcount 4 rfl)
  · rw [h.readLe_eq (hcount 2 rfl)]
  · rw [h.readLe_eq (hcount 1 rfl)]
  · rfl

theorem presentOnLoad_of_le {d : Device} {versionId : Int} (hnone : f.fieldExists = none)
    (hle : f.versionId ≤ versionId) : f.presentOnLoad d o versionId = true := by
  unfold VMStateField.presentOnLoad
  rw [hnone]
  exact decide_eq_true hle

theorem presentOnSave_of_none (d : Device) (versionId : Int) (hnone : f.fieldExists = none) :
    f.presentOnSave d o versionId = true := by
  unfold VMStateField.presentOnSave
  rw [hnone]

/-- A single field is one element, in place. -/
theorem elemPlaces_of_single (src : Device) (pointers : Int → Int) (o o' : Int) (hsingle : f.Single) :
    f.elemPlaces (bytePlaces (f.elemSize src.bytes o)) src.pointers pointers o o' (f.elemSize src.bytes o) 0
      (f.loadCount src.bytes o).toNat = bytePlaces f.size (o + f.offset) (o' + f.offset) := by
  have hcount : f.loadCount src.bytes o = 1 := by
    unfold VMStateField.loadCount
    rw [hsingle]
    rfl
  have hsize : f.elemSize src.bytes o = f.size := by
    unfold VMStateField.elemSize
    rw [hsingle]
    rfl
  have haddr : ∀ (p : Int → Int) (base : Int), f.elemAddr p base f.size 0 = base + f.offset := by
    intro p base
    unfold VMStateField.elemAddr VMStateField.baseAddr
    rw [hsingle]
    simp
  rw [hcount, hsize]
  change f.elemPlaces _ _ _ _ _ _ 0 (0 + 1) = _
  rw [elemPlaces_succ, haddr, haddr]
  exact List.append_nil _

end Fields

section Subsections

variable {name : List Byte} {versionId : Int}

theorem takeWhile_name (h : 0 ∉ name) : name.takeWhile (· ≠ 0) = name := by
  apply List.takeWhile_eq_self_iff.mpr
  intro b hb
  apply decide_eq_true
  intro h0
  exact h (h0 ▸ hb)

theorem toNat_ofInt_mod (versionId : Int) : ((BitVec.ofInt 32 versionId).toNat % 256 : Nat) = versionId % 256 := by
  rw [BitVec.toNat_ofInt]
  omega

/-- A turn of the loop reads the header that was stored. -/
theorem subsectionTurns_header {named : List Byte → Int → Load → Except Trap (Int × Load)} (n : Nat)
    (hlen : name.length ≤ 255) (hname : 0 ∉ name) (hinput : s.input = putHeader name versionId ++ rest) :
    subsectionTurns named (n + 1) s = (do
      let (ret, t) ← named name (versionId % 256) { s with input := rest }
      if ret ≠ 0 then .ok (ret, t) else subsectionTurns named n t) := by
  have hnat : (BitVec.ofNat 8 name.length).toNat = name.length := by
    rw [BitVec.toNat_ofNat]
    omega
  have hheader : s.input = qemuVmSubsection :: BitVec.ofNat 8 name.length ::
      (name ++ (putWord 4 (BitVec.ofInt 32 versionId) ++ rest)) := by
    rw [hinput, putHeader, hnat, List.take_of_length_le (Nat.le_refl _)]
    simp only [List.cons_append, List.nil_append, List.append_assoc]
  have hword := reads_getBe 4 (BitVec.ofInt 32 versionId).toNat rest
  have hsmall : (BitVec.ofInt 32 versionId).toNat % 256 ^ 4 = (BitVec.ofInt 32 versionId).toNat :=
    Nat.mod_eq_of_lt (BitVec.ofInt 32 versionId).isLt
  rw [hsmall] at hword
  have hversion := toNat_ofInt_mod versionId
  rw [subsectionTurns]
  have hpeek : s.input.headD 0 = qemuVmSubsection := by rw [hheader]; rfl
  rw [if_pos hpeek]
  have hget : getByte s.input.tail =
      (BitVec.ofNat 8 name.length, name ++ (putWord 4 (BitVec.ofInt 32 versionId) ++ rest)) := by
    rw [hheader]
    rfl
  have henough : ¬ (name ++ (putWord 4 (BitVec.ofInt 32 versionId) ++ rest)).length < name.length := by
    rw [List.length_append]
    omega
  simp only [hget, hnat]
  rw [if_neg henough, List.take_left, List.drop_left, takeWhile_name hname]
  change (do
    let (ret, t) ← named name ((((getBe 4) (putBe 4 (BitVec.ofInt 32 versionId).toNat ++ rest)).1 % 256 : Nat) : Int)
      { s with input := ((getBe 4) (putBe 4 (BitVec.ofInt 32 versionId).toNat ++ rest)).2 }
    if ret ≠ 0 then .ok (ret, t) else subsectionTurns named n t) = _
  rw [hword, hversion]

theorem subsectionTurns_stop {named : List Byte → Int → Load → Except Trap (Int × Load)} (n : Nat)
    (h : s.input.headD 0 ≠ qemuVmSubsection) : subsectionTurns named (n + 1) s = .ok (0, s) := by
  unfold subsectionTurns
  rw [if_neg h]

theorem checkVersions_of_admits {versions : Versions} {load : Except Trap (Int × Load)}
    (h : versions.Admits versionId) : checkVersions versions versionId load s = load := by
  obtain ⟨hle, hold, hminimum⟩ := h
  unfold checkVersions
  rw [if_neg (Int.not_lt.mpr hle), if_neg (Int.not_lt.mpr hold), if_neg (Int.not_lt.mpr hminimum)]

end Subsections

section Load

variable {pointers : Int → Int}

/-- Fields that are loaded where they were saved, after the earlier ones of the structure. -/
def LoadsFields (src : Device) (home pointers : Int → Int) (fields : VMStateFields) : Prop :=
  ∀ {versionId w : Int} {earlier : List VMStateField} {o o' : Int} {next : List Byte} {s : Load},
    fields.Within w → FieldsWellFormed earlier fields → FieldsDelimited src versionId fields o next →
    (∀ p ∈ fieldsPlaces src pointers versionId fields o o', home p.2 = p.1) →
    Available src home o o' earlier s → s.input = saveFields src versionId fields o ++ next →
    ∃ t, loadFields pointers fields o' w s = .ok (0, t) ∧
      Restored src home s next (fieldsPlaces src pointers versionId fields o o') t ∧
      Available src home o o' (fields.leaves earlier) t

def LoadsState (src : Device) (home pointers : Int → Int) (vmsd : VMStateDescription) : Prop :=
  ∀ {o o' : Int} {next : List Byte} {s : Load}, WellFormed vmsd → Delimited src vmsd o next →
    (∀ p ∈ statePlaces src pointers vmsd o o', home p.2 = p.1) → s.input = saveState src vmsd o ++ next →
    ∃ t, loadState pointers vmsd o' vmsd.versionId s = .ok (0, t) ∧
      Restored src home s next (statePlaces src pointers vmsd o o') t

/-- The loop over the subsections, at those that are left of a list. -/
def LoadsSubsections (src : Device) (home pointers : Int → Int) (subsections : VMStateSubsections) : Prop :=
  ∀ {named : List Byte → Int → Load → Except Trap (Int × Load)} {names : List (List Byte)}
    {earlier : List VMStateField} {o o' : Int} {next : List Byte} {s : Load} {n : Nat},
    (∀ idstr, idstr ∉ names → ∀ w t, named idstr w t = loadNamed pointers subsections o' idstr w t) →
    SubsectionsWellFormed earlier subsections → SubsectionsDelimited src names subsections o next →
    next.headD 0 ≠ qemuVmSubsection →
    (∀ p ∈ subsectionsPlaces src pointers subsections o o', home p.2 = p.1) →
    Available src home o o' earlier s → s.input = saveSubsections src subsections o ++ next → s.input.length < n →
    ∃ t, subsectionTurns named n s = .ok (0, t) ∧
      Restored src home s next (subsectionsPlaces src pointers subsections o o') t

theorem loadsFields_nil : LoadsFields src home pointers .nil := by
  intro versionId w earlier o o' next s _ _ _ _ havailable hinput
  exact ⟨s, by rw [loadFields], .refl hinput, havailable⟩

theorem loadsFields_leaf {field : VMStateField} {info : VMStateInfo} {fields : VMStateFields}
    (ih : LoadsFields src home pointers fields) : LoadsFields src home pointers (.leaf field info fields) := by
  intro versionId w earlier o o' next s hwithin hwf hdelimited hhome havailable hinput
  obtain ⟨hle, hwithin⟩ := hwithin
  obtain ⟨hnone, hlisted, hundoes, hwf⟩ := hwf
  obtain ⟨hcount, hdelimited⟩ := hdelimited
  have hsave := presentOnSave_of_none (o := o) src versionId hnone
  have hsize := havailable.elemSize_eq hlisted
  have hundo : info.Undoes (field.elemSize src.bytes o) := by
    apply hundoes
    by_cases hbuffer : field.flags.vbuffer = true
    · exact .inl hbuffer
    · exact .inr (if_neg hbuffer)
  rw [saveFields, if_pos hsave, hcount, List.append_assoc] at hinput
  rw [fieldsPlaces, if_pos hsave] at hhome ⊢
  have hhere := fun p hp ↦ hhome p (List.mem_append_left _ hp)
  obtain ⟨t, hloop, ht⟩ := loadElems_restores field (info.save src.bytes (field.elemSize src.bytes o))
    (fun addr s ↦ .ok (info.load (field.elemSize src.bytes o) addr s)) src.pointers pointers o o'
    (field.elemSize src.bytes o) (bytePlaces (field.elemSize src.bytes o)) (field.loadCount src.bytes o).toNat 0 (by
      intro j m _ hplaces t ht
      obtain ⟨ret, u, hret, hload, hu⟩ := hundo.load hplaces ht
      exact ⟨ret, u, hret, congrArg Except.ok hload, hu⟩) hhere hinput
  have hnow : Available src home o o' (field :: earlier) t := by
    intro g hg hsingle k hk
    rcases List.mem_cons.mp hg with rfl | hearlier
    · have hplaces := elemPlaces_of_single src pointers o o' hsingle
      have hmem : (o + g.offset + (k : Int), o' + g.offset + (k : Int)) ∈
          bytePlaces g.size (o + g.offset) (o' + g.offset) := mem_bytePlaces.mpr ⟨k, hk, rfl⟩
      rw [← hplaces] at hmem
      exact ⟨hhere _ hmem, ht.restores _ hmem⟩
    · exact havailable.keeps ht g hearlier hsingle k hk
  obtain ⟨u, hrest, hu, hleaves⟩ :=
    ih hwithin hwf hdelimited (fun p hp ↦ hhome p (List.mem_append_right _ hp)) hnow ht.input
  refine ⟨u, ?_, ht.trans hu hhere, hleaves⟩
  rw [loadFields, if_pos (presentOnLoad_of_le hnone hle), hsize, havailable.loadCount_eq hlisted]
  simp only [hloop]
  exact hrest

theorem loadsFields_struct {field : VMStateField} {vmsd : VMStateDescription} {fields : VMStateFields}
    (hvmsd : LoadsState src home pointers vmsd) (ih : LoadsFields src home pointers fields) :
    LoadsFields src home pointers (.struct field vmsd fields) := by
  intro versionId w earlier o o' next s hwithin hwf hdelimited hhome havailable hinput
  obtain ⟨hle, hwithin⟩ := hwithin
  obtain ⟨hnone, hlisted, hstruct, hwf⟩ := hwf
  obtain ⟨hcount, helements, hdelimited⟩ := hdelimited
  have hsave := presentOnSave_of_none (o := o) src versionId hnone
  have hsize := havailable.elemSize_eq hlisted
  rw [saveFields, if_pos hsave, hcount, List.append_assoc] at hinput
  rw [fieldsPlaces, if_pos hsave] at hhome ⊢
  have hhere := fun p hp ↦ hhome p (List.mem_append_left _ hp)
  obtain ⟨t, hloop, ht⟩ := loadElems_restores field (saveState src vmsd)
    (fun addr ↦ loadState pointers vmsd addr vmsd.versionId) src.pointers pointers o o' (field.elemSize src.bytes o)
    (statePlaces src pointers vmsd) (field.loadCount src.bytes o).toNat 0 (by
      intro j m hj hplaces t ht
      obtain ⟨u, hload, hu⟩ := hvmsd hstruct (helements j m (by omega)) hplaces ht
      exact ⟨0, u, Int.le_refl 0, hload, hu⟩) hhere hinput
  obtain ⟨u, hrest, hu, hleaves⟩ :=
    ih hwithin hwf hdelimited (fun p hp ↦ hhome p (List.mem_append_right _ hp)) (havailable.keeps ht) ht.input
  refine ⟨u, ?_, ht.trans hu hhere, hleaves⟩
  rw [loadFields, if_pos (presentOnLoad_of_le hnone hle), hsize, havailable.loadCount_eq hlisted]
  simp only [hloop]
  exact hrest

theorem loadsSubsections_nil : LoadsSubsections src home pointers .nil := by
  intro named names earlier o o' next s n _ _ _ hstop _ _ hinput hn
  rw [saveSubsections, List.nil_append] at hinput
  cases n with
  | zero => omega
  | succ n => exact ⟨s, subsectionTurns_stop n (hinput ▸ hstop), .refl hinput⟩

theorem loadsSubsections_cons {needed : Device → Int → Bool} {name : List Byte} {versions : Versions}
    {fields : VMStateFields} {subsections : VMStateSubsections} (hfields : LoadsFields src home pointers fields)
    (ih : LoadsSubsections src home pointers subsections) :
    LoadsSubsections src home pointers (.cons needed name versions fields subsections) := by
  intro named names earlier o o' next s n hnamed hwf hdelimited hstop hhome havailable hinput hn
  obtain ⟨hname, -, -, hwf, hwfrest⟩ := hwf
  obtain ⟨hneeds, hdelimited⟩ := hdelimited
  rw [subsectionsPlaces] at hhome ⊢
  have hskip : ∀ idstr, idstr ∉ name :: names → ∀ w t,
      named idstr w t = loadNamed pointers subsections o' idstr w t := by
    intro idstr hmem w t
    obtain ⟨hne, hold⟩ := not_or.mp (List.mem_cons.not.mp hmem)
    rw [hnamed idstr hold, loadNamed, if_neg hne]
  have hlater := fun p hp ↦ hhome p (List.mem_append_right _ hp)
  by_cases hneeded : needed src o = true
  · obtain ⟨hlen, hfirst, hadmits, hwithin, hdelim⟩ := hneeds hneeded
    rw [saveSubsections, if_pos hneeded, List.append_assoc, List.append_assoc] at hinput
    rw [if_pos hneeded] at hhome ⊢
    have hhere := fun p hp ↦ hhome p (List.mem_append_left _ hp)
    cases n with
    | zero => omega
    | succ n =>
      have havailable' : Available src home o o' earlier
          { s with input := saveFields src versions.versionId fields o ++
              (saveSubsections src subsections o ++ next) } := havailable
      obtain ⟨t, hload, ht, -⟩ := hfields hwithin hwf hdelim hhere havailable' rfl
      have hshort : t.input.length < n := by
        rw [ht.input]
        rw [hinput] at hn
        simp only [List.length_append, putHeader, List.length_cons] at hn ⊢
        omega
      obtain ⟨u, hrest, hu⟩ := ih hskip hwfrest hdelimited hstop hlater (havailable'.keeps ht) ht.input hshort
      have hboth := ht.trans hu hhere
      refine ⟨u, ?_, hboth.input, hboth.keeps, hboth.restores⟩
      rw [subsectionTurns_header n hlen hname hinput, hnamed name hfirst, loadNamed, if_pos rfl,
        checkVersions_of_admits hadmits, hload]
      exact hrest
  · rw [saveSubsections, if_neg hneeded, List.nil_append] at hinput
    rw [if_neg hneeded, List.nil_append]
    exact ih hskip hwfrest hdelimited hstop hlater havailable hinput hn

theorem loadsState_mk {versions : Versions} {fields : VMStateFields} {subsections : VMStateSubsections}
    (hfields : LoadsFields src home pointers fields) (hsubsections : LoadsSubsections src home pointers subsections) :
    LoadsState src home pointers (.mk versions fields subsections) := by
  intro o o' next s hwf hdelimited hhome hinput
  obtain ⟨hadmits, hwithin, hwf, hwfsub⟩ := hwf
  obtain ⟨hdelim, hdelimsub, hstop⟩ := hdelimited
  rw [saveState, List.append_assoc] at hinput
  rw [statePlaces] at hhome ⊢
  have hhere := fun p hp ↦ hhome p (List.mem_append_left _ hp)
  have hlater := fun p hp ↦ hhome p (List.mem_append_right _ hp)
  obtain ⟨t, hload, ht, hleaves⟩ := hfields hwithin hwf hdelim hhere
    (fun g hg ↦ absurd hg List.not_mem_nil) hinput
  have hrun : ∀ u, subsectionLoad (loadNamed pointers subsections o') subsections t = .ok (0, u) →
      loadState pointers (.mk versions fields subsections) o' versions.versionId s = .ok (0, u) := by
    intro u hu
    rw [loadState, checkVersions_of_admits hadmits, hload]
    exact hu
  cases subsections with
  | nil =>
    have hnext : t.input = next := by
      rw [ht.input, saveSubsections, List.nil_append]
    rw [subsectionsPlaces, List.append_nil]
    exact ⟨t, hrun t rfl, hnext, ht.keeps, ht.restores⟩
  | cons needed name versions' fields' rest =>
    have hstop' : next.headD 0 ≠ qemuVmSubsection := by
      rcases hstop with hnil | hhead
      · cases hnil
      · exact hhead
    obtain ⟨u, hturns, hu⟩ := hsubsections (fun idstr _ w t ↦ rfl) hwfsub hdelimsub hstop' hlater hleaves ht.input
      (Nat.lt_succ_self _)
    exact ⟨u, hrun u hturns, ht.trans hu hhere⟩

mutual
theorem loads_state : (vmsd : VMStateDescription) → LoadsState src home pointers vmsd
  | .mk _ fields subsections => loadsState_mk (loads_fields fields) (loads_subsections subsections)

theorem loads_fields : (fields : VMStateFields) → LoadsFields src home pointers fields
  | .nil => loadsFields_nil
  | .leaf _ _ rest => loadsFields_leaf (loads_fields rest)
  | .struct _ vmsd rest => loadsFields_struct (loads_state vmsd) (loads_fields rest)

theorem loads_subsections : (subsections : VMStateSubsections) → LoadsSubsections src home pointers subsections
  | .nil => loadsSubsections_nil
  | .cons _ _ _ fields rest => loadsSubsections_cons (loads_fields fields) (loads_subsections rest)
end

end Load

section Machines

end Machines

end IDeviceEmulator.SaveVm.Vmstate
