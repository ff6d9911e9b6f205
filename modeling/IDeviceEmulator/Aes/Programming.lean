import IDeviceEmulator.Aes.Engine

namespace IDeviceEmulator.Aes

open Memory Cdma

/-- The values written to a register, the oldest first. -/
def written (reg : Reg) (events : List Event) : List Word :=
  events.filterMap fun
    | .write offset value => if regAt offset = reg then some value else none
    | .store _ _ => none

/-- The events after the last write to `AES_GO`. -/
def sinceGo (events : List Event) : List Event :=
  events.foldl (fun recent e ↦ if e.reg = .go then [] else recent ++ [e]) []

/-- The key type, and the events after the last operation that it did not reject. -/
structure Session where
  type : Word := aesCustom
  recent : List Event := []

def Session.step (p : Session) : Event → Session
  | .write offset value =>
    match regAt offset with
    | .go => if p.type = aesGid then ⟨p.type, p.recent ++ [.write offset value]⟩ else ⟨p.type, []⟩
    | .type => ⟨value, p.recent ++ [.write offset value]⟩
    | _ => ⟨p.type, p.recent ++ [.write offset value]⟩
  | .store addr value => ⟨p.type, p.recent ++ [.store addr value]⟩

def session (events : List Event) : Session := events.foldl Session.step {}

def sinceClear (events : List Event) : List Event := (session events).recent

/-- The bits that have gathered in a key or initialisation vector register. -/
def gathered (reg : Reg) (events : List Event) : Word := (written reg events).foldl (· ||| ·) 0

/-- Among the values written to `AES_KEYLEN`, the one that an eight bit counter takes for the
operation. -/
def selected (values : List Word) : Word := values.getD (1 + 256 * ((values.length - 2) / 256)) 0

theorem written_concat_write (reg : Reg) (events : List Event) (offset value : Word) :
    written reg (events ++ [.write offset value]) =
      if regAt offset = reg then written reg events ++ [value] else written reg events := by
  rw [written, List.filterMap_append]
  split_ifs with h
  · simp [written, h]
  · simp [written, h]

theorem written_concat_store (reg : Reg) (events : List Event) (addr : Word) (value : Byte) :
    written reg (events ++ [.store addr value]) = written reg events := by
  rw [written, List.filterMap_append]
  simp [written]

theorem gathered_concat_write (reg : Reg) (events : List Event) (offset value : Word) :
    gathered reg (events ++ [.write offset value]) =
      if regAt offset = reg then gathered reg events ||| value else gathered reg events := by
  unfold gathered
  rw [written_concat_write]
  split_ifs
  · rw [List.foldl_append]
    rfl
  · rfl

/-- The registers say what was written since they were last cleared. -/
structure Tracks (r : Registers) (p : Session) : Prop where
  type : r.keytype = p.type
  key : ∀ i, r.custkey.get i = gathered (.key i) p.recent
  iv : ∀ i, r.ivec.get i = gathered (.iv i) p.recent
  counter : r.keylenop = BitVec.ofNat 8 (written .keylen p.recent).length
  operation : 2 ≤ (written .keylen p.recent).length → r.operation = selected (written .keylen p.recent)

theorem selected_concat {values : List Word} {value : Word} (h : values.length % 256 = 1) :
    selected (values ++ [value]) = value := by
  have hindex : 1 + 256 * ((values.length + 1 - 2) / 256) = values.length := by omega
  rw [selected, List.length_append, List.length_singleton, hindex, List.getD_eq_getElem?_getD]
  simp

theorem selected_concat_of_ne {values : List Word} {value : Word} (h : values.length % 256 ≠ 1)
    (hlength : 2 ≤ values.length) : selected (values ++ [value]) = selected values := by
  have hindex : (values.length + 1 - 2) / 256 = (values.length - 2) / 256 := by omega
  have hlt : 1 + 256 * ((values.length - 2) / 256) < values.length := by omega
  rw [selected, selected, List.length_append, List.length_singleton, hindex, List.getD_eq_getElem?_getD,
    List.getElem?_append_left hlt, List.getD_eq_getElem?_getD]

theorem tracks_finish (r : Registers) {type : Word} (h : r.keytype = type) : Tracks r.finish ⟨type, []⟩ := by
  refine ⟨h, fun i ↦ ?_, fun i ↦ ?_, rfl, fun hlength ↦ ?_⟩
  · simp [Registers.finish, gathered, written, Vector.get]
  · simp [Registers.finish, gathered, written, Vector.get]
  · simp [written] at hlength

theorem tracks_store {r : Registers} {p : Session} (h : Tracks r p) (addr : Word) (value : Byte) :
    Tracks r ⟨p.type, p.recent ++ [.store addr value]⟩ := by
  obtain ⟨htype, hkey, hiv, hcounter, hoperation⟩ := h
  refine ⟨htype, ?_, ?_, ?_, ?_⟩
  · simpa only [gathered, written_concat_store] using hkey
  · simpa only [gathered, written_concat_store] using hiv
  · simpa only [written_concat_store] using hcounter
  · simpa only [written_concat_store] using hoperation

theorem tracks_keylen {r : Registers} {p : Session} (h : Tracks r p) {offset : Word} (hreg : regAt offset = .keylen)
    (value : Word) : Tracks (r.write value .keylen) ⟨p.type, p.recent ++ [.write offset value]⟩ := by
  have hwritten : written .keylen (p.recent ++ [.write offset value]) = written .keylen p.recent ++ [value] := by
    rw [written_concat_write, if_pos hreg]
  refine ⟨h.type, fun i ↦ ?_, fun i ↦ ?_, ?_, fun hlength ↦ ?_⟩
  · rw [gathered_concat_write, hreg, if_neg (by simp)]
    exact h.key i
  · rw [gathered_concat_write, hreg, if_neg (by simp)]
    exact h.iv i
  · rw [hwritten, List.length_append, List.length_singleton, BitVec.ofNat_add]
    exact congrArg (· + 1) h.counter
  · rw [hwritten] at hlength ⊢
    rw [List.length_append, List.length_singleton] at hlength
    have hmod : (written .keylen p.recent).length % 256 = r.keylenop.toNat := by
      rw [h.counter, BitVec.toNat_ofNat]
    by_cases hone : r.keylenop = 1
    · rw [selected_concat (by rw [hmod, hone]; rfl)]
      exact if_pos hone
    · have hne : (written .keylen p.recent).length % 256 ≠ 1 := by
        rw [hmod]
        exact fun hc ↦ hone (BitVec.eq_of_toNat_eq hc)
      rw [selected_concat_of_ne hne (by omega), ← h.operation (by omega)]
      exact if_neg hone

theorem get_set_or {n : Nat} (words : Vector Word n) (i j : Fin n) (value : Word) :
    (words.set i (words[i] ||| value)).get j = if i = j then words.get j ||| value else words.get j := by
  change (words.set i (words[i] ||| value))[j] = if i = j then words[j] ||| value else words[j]
  by_cases hij : i = j
  · subst hij
    simp
  · have hne : (i : Nat) ≠ j := fun hc ↦ hij (Fin.ext hc)
    simp [hij, hne]

/-- A write to any register but `AES_KEYLEN` reaches at most one word of the key or the vector. -/
theorem Tracks.concat {r r' : Registers} {p : Session} (h : Tracks r p) {offset : Word} {reg : Reg}
    (hreg : regAt offset = reg) (hkeylen : reg ≠ .keylen) (value : Word)
    (hkey : ∀ i, r'.custkey.get i = if reg = .key i then r.custkey.get i ||| value else r.custkey.get i)
    (hiv : ∀ i, r'.ivec.get i = if reg = .iv i then r.ivec.get i ||| value else r.ivec.get i)
    (hkeylenop : r'.keylenop = r.keylenop) (hoperation : r'.operation = r.operation) :
    Tracks r' ⟨r'.keytype, p.recent ++ [.write offset value]⟩ := by
  subst hreg
  have hwritten : written .keylen (p.recent ++ [.write offset value]) = written .keylen p.recent := by
    rw [written_concat_write, if_neg hkeylen]
  refine ⟨rfl, fun i ↦ ?_, fun i ↦ ?_, ?_, ?_⟩
  · rw [gathered_concat_write, ← h.key i]
    exact hkey i
  · rw [gathered_concat_write, ← h.iv i]
    exact hiv i
  · rw [hwritten, hkeylenop]
    exact h.counter
  · rw [hwritten, hoperation]
    exact h.operation

theorem tracks_write {r : Registers} {p : Session} (h : Tracks r p) {offset : Word} {reg : Reg}
    (hreg : regAt offset = reg) (hkeylen : reg ≠ .keylen) (value : Word) :
    Tracks (r.write value reg) ⟨(r.write value reg).keytype, p.recent ++ [.write offset value]⟩ := by
  cases reg with
  | keylen => exact absurd rfl hkeylen
  | key i =>
    refine h.concat hreg hkeylen value (fun j ↦ ?_) (fun j ↦ by simp [Registers.write]) rfl rfl
    simpa [Registers.write] using get_set_or r.custkey i j value
  | iv i =>
    refine h.concat hreg hkeylen value (fun j ↦ by simp [Registers.write]) (fun j ↦ ?_) rfl rfl
    simpa [Registers.write] using get_set_or r.ivec i j value
  | _ => exact h.concat hreg hkeylen value (by simp [Registers.write]) (by simp [Registers.write]) rfl rfl

theorem tracks_step {r : Registers} {p : Session} (h : Tracks r p) (e : Event) : Tracks (r.step e) (p.step e) := by
  cases e with
  | store addr value => exact tracks_store h addr value
  | write offset value =>
    have hwrite (hkeylen : regAt offset ≠ .keylen) := tracks_write h rfl hkeylen value
    cases hreg : regAt offset with
    | go =>
      simp only [hreg, ne_eq, reduceCtorEq, not_false_eq_true, forall_const, Registers.write, h.type] at hwrite
      simp only [Registers.step, Session.step, hreg, h.type]
      split_ifs
      · exact hwrite
      · exact tracks_finish r h.type
    | keylen =>
      simp only [Registers.step, Session.step, hreg]
      exact tracks_keylen h hreg value
    | _ =>
      simp only [hreg, ne_eq, reduceCtorEq, not_false_eq_true, forall_const] at hwrite
      simp only [Registers.step, Session.step, hreg, ← h.type]
      exact hwrite

theorem session_concat (events : List Event) (e : Event) : session (events ++ [e]) = (session events).step e := by
  rw [session, List.foldl_append]
  rfl

theorem tracks_session (events : List Event) : Tracks (registers events) (session events) := by
  induction events using List.reverseRecOn with
  | nil =>
    refine ⟨rfl, fun i ↦ ?_, fun i ↦ ?_, rfl, fun hlength ↦ ?_⟩
    · simp [registers, session, gathered, written, Vector.get]
    · simp [registers, session, gathered, written, Vector.get]
    · simp [session, written] at hlength
  | append_singleton events e ih =>
    rw [registers_concat, session_concat]
    exact tracks_step ih e

theorem sinceGo_concat (events : List Event) (e : Event) :
    sinceGo (events ++ [e]) = if e.reg = .go then [] else sinceGo events ++ [e] := by
  rw [sinceGo, List.foldl_append]
  rfl

theorem Session.step_recent (p : Session) {e : Event} (h : e.reg ≠ .go) : (p.step e).recent = p.recent ++ [e] := by
  cases e with
  | store addr value => rfl
  | write offset value =>
    unfold Session.step
    simp only
    split
    · exact absurd ‹_› h
    · rfl
    · rfl

theorem sinceGo_suffix (events : List Event) : sinceGo events <:+ sinceClear events := by
  induction events using List.reverseRecOn with
  | nil => exact List.suffix_rfl
  | append_singleton events e ih =>
    rw [sinceGo_concat, sinceClear, session_concat]
    split_ifs with hgo
    · exact List.nil_suffix
    · rw [Session.step_recent _ hgo]
      obtain ⟨before, hbefore⟩ := ih
      refine ⟨before, ?_⟩
      rw [← List.append_assoc, hbefore]
      rfl

/-- The registers that a write replaces and no operation changes. -/
def settings : List Reg := [.insize, .inaddr, .outaddr, .type]

def Registers.setting (r : Registers) : Reg → Word
  | .insize => r.insize
  | .inaddr => r.inaddr
  | .outaddr => r.outaddr
  | .type => r.keytype
  | _ => 0

theorem setting_write (r : Registers) (value : Word) {x : Reg} (hx : x ∈ settings) (reg : Reg) :
    (r.write value reg).setting x = if reg = x then value else r.setting x := by
  simp only [settings, List.mem_cons, List.not_mem_nil, or_false] at hx
  rcases hx with rfl | rfl | rfl | rfl
  all_goals cases reg <;> rfl

theorem setting_eq (events : List Event) {x : Reg} (hx : x ∈ settings) {value : Word}
    (h : (written x (sinceGo events)).getLast? = some value) : (registers events).setting x = value := by
  induction events using List.reverseRecOn with
  | nil => simp [sinceGo, written] at h
  | append_singleton events e ih =>
    rw [sinceGo_concat] at h
    split_ifs at h with hgo
    · simp [written] at h
    · rw [registers_concat]
      cases e with
      | store addr value' =>
        rw [written_concat_store] at h
        exact ih h
      | write offset value' =>
        rw [written_concat_write] at h
        rw [step_reg _ hgo, setting_write _ _ hx]
        split_ifs at h ⊢ with hreg
        · simpa using h
        · exact ih h

end IDeviceEmulator.Aes
