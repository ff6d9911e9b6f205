import Mathlib.Tactic.IntervalCases
import IDeviceEmulator.Json.Lexing
import IDeviceEmulator.Json.Parsing
import IDeviceEmulator.Json.Printer

namespace IDeviceEmulator.Json

open Qobject

/-- A string of characters up to U+FFFF, without U+0000, in UTF-8. -/
def Utf8 (string : List UInt8) : Prop :=
  ∃ chars : List Char, (∀ c ∈ chars, 0 < c.toNat ∧ c.toNat ≤ 0xFFFF) ∧ string = chars.flatMap String.utf8EncodeChar

section Hex

theorem nibbles (w : UInt16) :
    (((0 : UInt16) ||| (w >>> 12 &&& 15) <<< 12 ||| (w >>> 8 &&& 15) <<< 8) ||| (w >>> 4 &&& 15) <<< 4) |||
      (w &&& 15) <<< 0 = w := by
  rw [← UInt16.toBitVec_inj]
  simp only [UInt16.toBitVec_or, UInt16.toBitVec_and, UInt16.toBitVec_shiftLeft, UInt16.toBitVec_shiftRight]
  apply BitVec.eq_of_getLsbD_eq
  intro i hi
  simp
  interval_cases i <;> simp

theorem hexDigit_spec (w : UInt16) : isxdigit (hexDigit (w &&& 15)) ∧ hex2decimal (hexDigit (w &&& 15)) = w &&& 15 ∧
    isHex (hexDigit (w &&& 15)) ∧ hexDigit (w &&& 15) ≠ 0 := by
  have hall : ∀ n : Fin 16, isxdigit (hexDigit (UInt16.ofNat n)) ∧
      hex2decimal (hexDigit (UInt16.ofNat n)) = UInt16.ofNat n ∧ isHex (hexDigit (UInt16.ofNat n)) ∧
      hexDigit (UInt16.ofNat n) ≠ 0 := by
    decide
  have hlt : (w &&& 15).toNat < 16 := by
    rw [UInt16.toNat_and]
    exact Nat.lt_succ_of_le Nat.and_le_right
  have hn := hall ⟨(w &&& 15).toNat, hlt⟩
  rwa [UInt16.ofNat_toNat] at hn

theorem unicodeChar_unicodeEscape (w : UInt16) :
    unicodeChar 12 0 ((unicodeEscape w).drop 2) = some w := by
  obtain ⟨h₃, h₃', -⟩ := hexDigit_spec (w >>> 12)
  obtain ⟨h₂, h₂', -⟩ := hexDigit_spec (w >>> 8)
  obtain ⟨h₁, h₁', -⟩ := hexDigit_spec (w >>> 4)
  obtain ⟨h₀, h₀', -⟩ := hexDigit_spec w
  simp only [unicodeEscape, List.drop_succ_cons, List.drop_zero, unicodeChar, h₃, h₂, h₁, h₀, h₃', h₂', h₁',
    h₀', if_true]
  exact congrArg some (nibbles w)

end Hex

/-- The text is that of these bytes in a string. -/
structure Escapes (text bytes : List UInt8) : Prop where
  inString : InString text
  noZero : 0 ∉ text
  unescape_eq : ∀ str ptr, unescape 34 str (text ++ ptr) = unescape 34 (str ++ bytes) ptr

theorem escapes_nil : Escapes [] [] := by
  refine ⟨inString_nil, List.not_mem_nil, ?_⟩
  intro str ptr
  rw [List.append_nil, List.nil_append]

theorem Escapes.append {t t' b b' : List UInt8} (h : Escapes t b) (h' : Escapes t' b') :
    Escapes (t ++ t') (b ++ b') := by
  refine ⟨h.inString.append h'.inString, ?_, ?_⟩
  · rw [List.mem_append, not_or]
    exact ⟨h.noZero, h'.noZero⟩
  · intro str ptr
    rw [List.append_assoc, h.unescape_eq, h'.unescape_eq, List.append_assoc]

theorem escapes_unicode {w : UInt16} {bytes : List UInt8} (h : wcharToUtf8 w = bytes) (hzero : 0 ∉ bytes) :
    Escapes (unicodeEscape w) bytes := by
  have hdigit (w : UInt16) : 0 ≠ hexDigit (w &&& 15) := (hexDigit_spec w).2.2.2.symm
  refine ⟨?_, by simp [unicodeEscape, hdigit], ?_⟩
  · exact inString_unicode (hexDigit_spec _).2.2.1 (hexDigit_spec _).2.2.1 (hexDigit_spec _).2.2.1
      (hexDigit_spec _).2.2.1
  · intro str ptr
    have hchar := unicodeChar_unicodeEscape w
    have hval : (cString (wcharToUtf8 w)).val = bytes := by rw [h, cString_of_notMem hzero]
    rw [← hval]
    exact unescape_unicode (by decide) hchar

theorem escapes_escaped {ch c : UInt8} (hch : ch ∈ ([98, 102, 110, 114, 116, 47, 92, 39, 34] : List UInt8))
    (h : escaped ch = some c) : Escapes [92, ch] [c] := by
  have hzero : ∀ ch ∈ ([98, 102, 110, 114, 116, 47, 92, 39, 34] : List UInt8), 0 ∉ [92, ch] :=
    forall_mem_of_all (by decide)
  exact ⟨inString_escape hch, hzero ch hch, fun str ptr ↦ unescape_escaped (by decide) h⟩

theorem escapes_char {ch : UInt8} (hzero : ch ≠ 0) (hquote : ch ≠ 34) (hbackslash : ch ≠ 92) : Escapes [ch] [ch] :=
  ⟨inString_char hzero hquote hbackslash, by simp [hzero.symm], fun _ _ ↦ unescape_char hquote hbackslash⟩

-- The masks that the encoder and the printer use, in one pass over the bytes.
theorem byte_masks : ∀ x : UInt8,
    (x < 0x80 → x &&& 0x7F = x ∧ x &&& 0xE0 ≠ 0xE0 ∧ x &&& 0xE0 ≠ 0xC0) ∧
    ((x &&& 0x1F ||| 0xC0) &&& 0xE0 = 0xC0 ∧ x &&& 0x1F ||| 0xC0 ≠ 0) ∧
    ((x &&& 0x0F ||| 0xE0) &&& 0xE0 = 0xE0 ∧ x &&& 0x0F ||| 0xE0 ≠ 0) ∧
    (x &&& 0x3F ||| 0x80) &&& 0x80 ≠ 0 ∧ x &&& 0x3F ||| 0x80 ≠ 0 :=
  forall_byte (by decide +kernel)

theorem low_byte (x : UInt8) : x < 0x80 → x &&& 0x7F = x ∧ x &&& 0xE0 ≠ 0xE0 ∧ x &&& 0xE0 ≠ 0xC0 :=
  (byte_masks x).1

theorem lead_two (x : UInt8) : (x &&& 0x1F ||| 0xC0) &&& 0xE0 = 0xC0 ∧ x &&& 0x1F ||| 0xC0 ≠ 0 :=
  (byte_masks x).2.1

theorem lead_three (x : UInt8) : (x &&& 0x0F ||| 0xE0) &&& 0xE0 = 0xE0 ∧ x &&& 0x0F ||| 0xE0 ≠ 0 :=
  (byte_masks x).2.2.1

theorem tail_byte (x : UInt8) : (x &&& 0x3F ||| 0x80) &&& 0x80 ≠ 0 ∧ x &&& 0x3F ||| 0x80 ≠ 0 :=
  (byte_masks x).2.2.2

theorem wcharToUtf8_byte (ch : UInt8) (hascii : ch < 0x80) : wcharToUtf8 ch.toUInt16 = [ch] := by
  have hle : ch.toUInt16 ≤ 0x7F := by
    rw [UInt16.le_iff_toNat_le, UInt8.toNat_toUInt16]
    exact Nat.le_of_lt_succ (UInt8.lt_iff_toNat_lt.mp hascii)
  rw [wcharToUtf8, if_pos hle, UInt8.toUInt8_toUInt16, (low_byte ch hascii).1]

theorem escapes_byte {ch : UInt8} (hzero : ch ≠ 0) (hascii : ch < 0x80) : Escapes (escapeByte ch) [ch] := by
  unfold escapeByte
  split_ifs with h₁ h₂ h₃ h₄ h₅ h₆ h₇ h₈ h₉
  · rw [h₁]
    exact escapes_escaped (by decide) rfl
  · rw [h₂]
    exact escapes_escaped (by decide) rfl
  · rw [h₃]
    exact escapes_escaped (by decide) rfl
  · rw [h₄]
    exact escapes_escaped (by decide) rfl
  · rw [h₅]
    exact escapes_escaped (by decide) rfl
  · rw [h₆]
    exact escapes_escaped (by decide) rfl
  · rw [h₇]
    exact escapes_escaped (by decide) rfl
  · exact absurd hascii (UInt8.not_lt.mpr h₈)
  · exact escapes_unicode (wcharToUtf8_byte ch hascii) (by simp [hzero.symm])
  · exact escapes_char hzero h₁ h₂

section Characters

variable {v : UInt32}

theorem getElem_of_le {n : Nat} (h : v.toNat < 2 ^ n) (i : Nat) (hi : i < 32) (hn : n ≤ i) : v.toBitVec[i] = false := by
  rw [← BitVec.getLsbD_eq_getElem, BitVec.getLsbD]
  exact Nat.testBit_lt_two_pow (Nat.lt_of_lt_of_le h (Nat.pow_le_pow_right (by decide) hn))

theorem two_bytes (h : v.toNat < 2 ^ 11) :
    (((v >>> 6).toUInt8 &&& 0x1F ||| 0xC0) &&& 0x1F).toUInt16 <<< 6 |||
      ((v.toUInt8 &&& 0x3F ||| 0x80) &&& 0x3F).toUInt16 = v.toUInt16 := by
  rw [← UInt16.toBitVec_inj]
  apply BitVec.eq_of_getLsbD_eq
  intro i hi
  have hhigh := getElem_of_le h
  simp only [UInt16.toBitVec_or, UInt16.toBitVec_shiftLeft, UInt8.toBitVec_toUInt16, UInt8.toBitVec_and,
    UInt8.toBitVec_or, UInt32.toBitVec_toUInt8, UInt32.toBitVec_shiftRight, UInt32.toBitVec_toUInt16]
  interval_cases i <;> simp [hhigh, -BitVec.setWidth_setWidth]

theorem three_bytes (v : UInt32) :
    (((v >>> 12).toUInt8 &&& 0x0F ||| 0xE0) &&& 0x0F).toUInt16 <<< 12 |||
      (((v >>> 6).toUInt8 &&& 0x3F ||| 0x80) &&& 0x3F).toUInt16 <<< 6 |||
      ((v.toUInt8 &&& 0x3F ||| 0x80) &&& 0x3F).toUInt16 = v.toUInt16 := by
  rw [← UInt16.toBitVec_inj]
  apply BitVec.eq_of_getLsbD_eq
  intro i hi
  simp only [UInt16.toBitVec_or, UInt16.toBitVec_shiftLeft, UInt8.toBitVec_toUInt16, UInt8.toBitVec_and,
    UInt8.toBitVec_or, UInt32.toBitVec_toUInt8, UInt32.toBitVec_shiftRight, UInt32.toBitVec_toUInt16]
  interval_cases i <;> simp [-BitVec.setWidth_setWidth]

theorem high_bits (v : UInt32) : (v.toUInt16 >>> 12).toUInt8 &&& (0x0F : UInt8) = (v >>> 12).toUInt8 &&& 0x0F := by
  rw [← UInt8.toBitVec_inj]
  apply BitVec.eq_of_getLsbD_eq
  intro i hi
  simp only [UInt8.toBitVec_and, UInt16.toBitVec_toUInt8, UInt16.toBitVec_shiftRight, UInt32.toBitVec_toUInt16,
    UInt32.toBitVec_toUInt8, UInt32.toBitVec_shiftRight]
  interval_cases i <;> simp [-BitVec.setWidth_setWidth]

theorem middle_bits (v : UInt32) : (v.toUInt16 >>> 6).toUInt8 = (v >>> 6).toUInt8 := by
  rw [← UInt8.toBitVec_inj]
  apply BitVec.eq_of_getLsbD_eq
  intro i hi
  simp only [UInt16.toBitVec_toUInt8, UInt16.toBitVec_shiftRight, UInt32.toBitVec_toUInt16, UInt32.toBitVec_toUInt8,
    UInt32.toBitVec_shiftRight]
  interval_cases i <;> simp [-BitVec.setWidth_setWidth]

theorem toUInt16_le_iff (h : v.toNat ≤ 0xFFFF) {n : UInt16} : v.toUInt16 ≤ n ↔ v.toNat ≤ n.toNat := by
  rw [UInt16.le_iff_toNat_le, UInt32.toNat_toUInt16, Nat.mod_eq_of_lt (by omega)]

theorem wcharToUtf8_utf8EncodeChar {c : Char} (h : c.toNat ≤ 0xFFFF) :
    wcharToUtf8 c.val.toUInt16 = String.utf8EncodeChar c := by
  have hone : c.val.toNat ≤ 0x7F → c.val.toUInt8 &&& 0x7F = c.val.toUInt8 := by
    intro hle
    refine (low_byte _ ?_).1
    rw [UInt8.lt_iff_toNat_lt, UInt32.toNat_toUInt8]
    exact Nat.lt_succ_of_le ((Nat.mod_le _ _).trans hle)
  rw [String.utf8EncodeChar_eq_utf8EncodeCharFast]
  unfold wcharToUtf8 String.utf8EncodeCharFast
  have hv : c.val.toNat ≤ 0xFFFF := h
  simp only [toUInt16_le_iff hv, UInt32.le_iff_toNat_le, UInt32.toUInt8_toUInt16, middle_bits, high_bits,
    UInt16.reduceToNat, UInt32.reduceToNat]
  split_ifs with h₁
  · rw [hone h₁]
  · rfl
  · rfl

theorem escapeFrom_byte {ch : UInt8} (hascii : ch < 0x80) (rest : List UInt8) :
    escapeFrom 0 (ch :: rest) = escapeByte ch ++ escapeFrom 0 rest := by
  obtain ⟨-, hthree, htwo⟩ := low_byte ch hascii
  rw [escapeFrom, escapeAt, if_neg fun h ↦ hthree h.1, if_neg fun h ↦ htwo h.1]

theorem escapeFrom_two (h : v.toNat < 2 ^ 11) (rest : List UInt8) :
    escapeFrom 0 (((v >>> 6).toUInt8 &&& 0x1F ||| 0xC0) :: (v.toUInt8 &&& 0x3F ||| 0x80) :: rest) =
      unicodeEscape v.toUInt16 ++ escapeFrom 0 rest := by
  have hlead := (lead_two (v >>> 6).toUInt8).1
  have hnot : ((v >>> 6).toUInt8 &&& 0x1F ||| 0xC0) &&& 0xE0 ≠ 0xE0 := by
    rw [hlead]
    decide
  rw [escapeFrom, escapeAt, if_neg fun h ↦ hnot h.1, if_pos ⟨hlead, (tail_byte _).1⟩, ← two_bytes h]
  rfl

theorem escapeFrom_three (v : UInt32) (rest : List UInt8) :
    escapeFrom 0 (((v >>> 12).toUInt8 &&& 0x0F ||| 0xE0) :: ((v >>> 6).toUInt8 &&& 0x3F ||| 0x80) ::
      (v.toUInt8 &&& 0x3F ||| 0x80) :: rest) = unicodeEscape v.toUInt16 ++ escapeFrom 0 rest := by
  rw [escapeFrom, escapeAt, if_pos ⟨(lead_three _).1, (tail_byte _).1, (tail_byte _).1⟩, ← three_bytes v]
  rfl

theorem notMem_utf8EncodeChar {c : Char} (hzero : 0 < c.toNat) (h : c.toNat ≤ 0xFFFF) :
    0 ∉ String.utf8EncodeChar c := by
  have hv : c.val.toNat ≤ 0xFFFF := h
  have hpos : 0 < c.val.toNat := hzero
  rw [String.utf8EncodeChar_eq_utf8EncodeCharFast]
  unfold String.utf8EncodeCharFast
  simp only [UInt32.le_iff_toNat_le, UInt32.reduceToNat]
  split_ifs with h₁ h₂
  · rw [List.mem_singleton, ← UInt8.toNat_inj, UInt32.toNat_toUInt8, Nat.mod_eq_of_lt (by omega)]
    exact hpos.ne
  · simp [(lead_two _).2.symm, (tail_byte _).2.symm]
  · simp [(lead_three _).2.symm, (tail_byte _).2.symm]

theorem escapeFrom_char {c : Char} (hzero : 0 < c.toNat) (h : c.toNat ≤ 0xFFFF) (rest : List UInt8) :
    ∃ text, Escapes text (String.utf8EncodeChar c) ∧
      escapeFrom 0 (String.utf8EncodeChar c ++ rest) = text ++ escapeFrom 0 rest := by
  have hv : c.val.toNat ≤ 0xFFFF := h
  have hescapes := escapes_unicode (wcharToUtf8_utf8EncodeChar h) (notMem_utf8EncodeChar hzero h)
  rw [String.utf8EncodeChar_eq_utf8EncodeCharFast] at hescapes ⊢
  unfold String.utf8EncodeCharFast at hescapes ⊢
  simp only [UInt32.le_iff_toNat_le, UInt32.reduceToNat] at hescapes ⊢
  split_ifs at hescapes ⊢ with h₁ h₂
  · have hne : c.val.toUInt8 ≠ 0 := by
      rw [ne_eq, ← UInt8.toNat_inj, UInt32.toNat_toUInt8, Nat.mod_eq_of_lt (by omega)]
      exact hzero.ne'
    have hascii : c.val.toUInt8 < 0x80 := by
      rw [UInt8.lt_iff_toNat_lt, UInt32.toNat_toUInt8, Nat.mod_eq_of_lt (by omega)]
      exact Nat.lt_succ_of_le h₁
    exact ⟨_, escapes_byte hne hascii, escapeFrom_byte hascii rest⟩
  · exact ⟨_, hescapes, escapeFrom_two (Nat.lt_succ_of_le h₂) rest⟩
  · exact ⟨_, hescapes, escapeFrom_three _ rest⟩

theorem escapes_escapeFrom {string : List UInt8} (h : Utf8 string) : Escapes (escapeFrom 0 string) string := by
  obtain ⟨chars, hchars, rfl⟩ := h
  induction chars with
  | nil => exact escapes_nil
  | cons c chars ih =>
    obtain ⟨hzero, hle⟩ := hchars c List.mem_cons_self
    rw [List.flatMap_cons]
    obtain ⟨text, htext, heq⟩ := escapeFrom_char hzero hle (chars.flatMap String.utf8EncodeChar)
    rw [heq]
    exact htext.append (ih fun x hx ↦ hchars x (List.mem_cons_of_mem c hx))

theorem Utf8.noZero {string : List UInt8} (h : Utf8 string) : 0 ∉ string := by
  obtain ⟨chars, hchars, rfl⟩ := h
  intro hmem
  obtain ⟨c, hc, hzero⟩ := List.mem_flatMap.mp hmem
  exact notMem_utf8EncodeChar (hchars c hc).1 (hchars c hc).2 hzero

end Characters

end IDeviceEmulator.Json
