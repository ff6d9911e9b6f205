import IDeviceEmulator.Json.Lexing
import IDeviceEmulator.Json.Parsing
import IDeviceEmulator.Json.Printer

namespace IDeviceEmulator.Json

open Text (digits value)

def printed (n : Nat) : List UInt8 := (digits n).map UInt8.ofBitVec

theorem toJsonInt_of_nonneg {v : Int64} (h : 0 ≤ v.toInt) : toJsonInt v = printed v.toInt.toNat := by
  unfold toJsonInt
  cases hv : v.toInt with
  | ofNat n => rfl
  | negSucc n =>
    rw [hv] at h
    exact absurd h (Int.negSucc_not_nonneg n).mp

theorem toJsonInt_of_neg {v : Int64} (h : v.toInt < 0) : toJsonInt v = 45 :: printed (-v.toInt).toNat := by
  unfold toJsonInt
  cases hv : v.toInt with
  | ofNat n =>
    rw [hv] at h
    exact absurd h (Int.not_lt.mpr (Int.natCast_nonneg n))
  | negSucc n => rfl

theorem mem_printed {n : Nat} {ch : UInt8} (h : ch ∈ printed n) : 48 ≤ ch ∧ ch ≤ 57 := by
  obtain ⟨b, hb, rfl⟩ := List.mem_map.mp h
  exact Text.mem_digits hb

theorem printed_zero : printed 0 = [48] := by decide

theorem printed_leading {n : Nat} (h : 0 < n) :
    ∃ ch rest, printed n = ch :: rest ∧ (49 ≤ ch ∧ ch ≤ 57) ∧ ∀ c ∈ rest, 48 ≤ c ∧ c ≤ 57 := by
  obtain ⟨b, rest, heq, hb⟩ := Text.digits_leading h
  have hprinted : printed n = UInt8.ofBitVec b :: rest.map UInt8.ofBitVec := by
    rw [printed, heq]
    rfl
  refine ⟨_, _, hprinted, hb, fun c hc ↦ mem_printed (n := n) ?_⟩
  rw [hprinted]
  exact List.mem_cons_of_mem _ hc

theorem piece_toJsonInt (v : Int64) : Piece false (toJsonInt v) [⟨.integer, toJsonInt v⟩] := by
  rcases lt_or_ge v.toInt 0 with h | h
  · rw [toJsonInt_of_neg h]
    obtain ⟨ch, rest, heq, hch, hrest⟩ := printed_leading (n := (-v.toInt).toNat) (by omega)
    rw [heq]
    exact piece_negative hch hrest
  · rw [toJsonInt_of_nonneg h]
    rcases Nat.eq_zero_or_pos v.toInt.toNat with hzero | hpos
    · rw [hzero, printed_zero]
      exact piece_zero
    · obtain ⟨ch, rest, heq, hch, hrest⟩ := printed_leading hpos
      rw [heq]
      exact piece_nonzero hch hrest

theorem isDigit_printed {n : Nat} {ch : UInt8} (h : ch ∈ printed n) : isDigit ch :=
  decide_eq_true (mem_printed h)

theorem digitsValue_printed (n : Nat) : digitsValue (printed n) = n := by
  have hall : (printed n).takeWhile isDigit = printed n :=
    List.takeWhile_eq_self_iff.mpr fun ch hch ↦ isDigit_printed hch
  rw [digitsValue, hall, printed, List.foldl_map]
  exact Text.value_digits n

theorem digit_cases (ch : UInt8) (h : 48 ≤ ch ∧ ch ≤ 57) :
    isspace ch = false ∧ ch ≠ '-'.toUInt8 ∧ ch ≠ '+'.toUInt8 := by
  have hminus : '-'.toUInt8 = 45 := rfl
  have hplus : '+'.toUInt8 = 43 := rfl
  rw [hminus, hplus]
  simp only [isspace]
  grind

theorem strtoll_toJsonInt (v : Int64) : strtoll (toJsonInt v) = v := by
  have hlow := v.le_toInt
  have hhigh := v.toInt_lt
  rcases lt_or_ge v.toInt 0 with h | h
  · rw [toJsonInt_of_neg h, strtoll, List.dropWhile_cons_of_neg (by decide)]
    dsimp only
    have hmin : -((min (-v.toInt).toNat (2 ^ 63) : Nat) : Int) = v.toInt := by omega
    rw [if_pos (by decide), digitsValue_printed, hmin, Int64.ofInt_toInt]
  · have hmin : min (v.toInt.toNat : Int) ((2 ^ 63 - 1 : Nat) : Int) = v.toInt := by omega
    have hdigits : printed v.toInt.toNat ≠ [] := by
      simp [printed, digits, Nat.toDigits_ne_nil]
    obtain ⟨ch, rest, heq⟩ := List.exists_cons_of_ne_nil hdigits
    have hch : ch ∈ printed v.toInt.toNat := heq ▸ List.mem_cons_self
    obtain ⟨hspace, hminus, hplus⟩ := digit_cases ch (mem_printed hch)
    rw [toJsonInt_of_nonneg h, strtoll, heq, List.dropWhile_cons_of_neg (by simp [hspace])]
    dsimp only
    rw [if_neg hminus, if_neg hplus, ← heq, digitsValue_printed, hmin, Int64.ofInt_toInt]

theorem notMem_toJsonInt (v : Int64) : 0 ∉ toJsonInt v := by
  have hprinted (n : Nat) : 0 ∉ printed n := fun h ↦ absurd (mem_printed h).1 (by decide)
  rcases lt_or_ge v.toInt 0 with h | h
  · rw [toJsonInt_of_neg h]
    simp [hprinted]
  · rw [toJsonInt_of_nonneg h]
    exact hprinted _

end IDeviceEmulator.Json
