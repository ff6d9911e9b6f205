import Mathlib.Data.List.Basic
import Mathlib.Tactic.Common

namespace Text

abbrev Byte := BitVec 8

def byte (c : Char) : Byte := BitVec.ofNat 8 c.toNat

def ascii (s : String) : List Byte := s.toList.map byte

def digits (n : Nat) : List Byte := (Nat.toDigits 10 n).map byte

/-- What the format `%d` prints. -/
def decimal : Int → List Byte
  | .ofNat n => digits n
  | .negSucc n => byte '-' :: digits (n + 1)

/-- The number that a row of digits denotes. -/
def value (text : List Byte) : Nat := text.foldl (fun v b ↦ 10 * v + (b.toNat - 48)) 0

theorem toNat_byte_of_isDigit {c : Char} (h : c.isDigit = true) :
    (byte c).toNat = c.toNat ∧ 48 ≤ c.toNat ∧ c.toNat ≤ 57 := by
  obtain ⟨hlow, hhigh⟩ : 48 ≤ c.toNat ∧ c.toNat ≤ 57 := by
    simpa [Char.isDigit, UInt32.le_iff_toNat_le] using h
  refine ⟨?_, hlow, hhigh⟩
  rw [byte, BitVec.toNat_ofNat, Nat.mod_eq_of_lt (by omega)]

theorem value_digits (n : Nat) : value (digits n) = n := by
  have hvalue : value (digits n) = Nat.ofDigitChars 10 (Nat.toDigits 10 n) 0 := by
    rw [value, digits, List.foldl_map, Nat.ofDigitChars_eq_foldl]
    refine List.foldl_ext _ _ _ fun v c hc ↦ ?_
    rw [(toNat_byte_of_isDigit (Nat.isDigit_of_mem_toDigits (by decide) (by decide) hc)).1]
    rfl
  rw [hvalue, Nat.ofDigitChars_ten_toDigits]

theorem digits_injective {m n : Nat} (h : digits m = digits n) : m = n := by
  rw [← value_digits m, h, value_digits]

theorem mem_digits {n : Nat} {b : Byte} (h : b ∈ digits n) : 48 ≤ b.toNat ∧ b.toNat ≤ 57 := by
  obtain ⟨c, hc, rfl⟩ := List.mem_map.mp h
  obtain ⟨heq, hrange⟩ := toNat_byte_of_isDigit (Nat.isDigit_of_mem_toDigits (by decide) (by decide) hc)
  rw [heq]
  exact hrange

/-- A positive number is printed without leading zeros. -/
theorem digits_leading {n : Nat} (h : 0 < n) : ∃ b rest, digits n = b :: rest ∧ 49 ≤ b.toNat ∧ b.toNat ≤ 57 := by
  induction n using Nat.strongRecOn with
  | ind n ih =>
    by_cases hn : n < 10
    · have hdigit : ∀ n : Fin 10, 0 < n.val →
          49 ≤ (byte (Nat.digitChar n)).toNat ∧ (byte (Nat.digitChar n)).toNat ≤ 57 := by
        decide
      refine ⟨byte n.digitChar, [], ?_, hdigit ⟨n, hn⟩ h⟩
      rw [digits, Nat.toDigits_of_lt_base hn]
      rfl
    · obtain ⟨b, rest, heq, hb⟩ := ih (n / 10) (by omega) (by omega)
      refine ⟨b, rest ++ [byte (n % 10).digitChar], ?_, hb⟩
      rw [digits, Nat.toDigits_of_base_le (by decide) (by omega), List.map_append]
      change digits (n / 10) ++ _ = _
      rw [heq]
      rfl

theorem head_digits {n : Nat} {b : Byte} {rest : List Byte} (h : digits n = b :: rest) :
    48 ≤ b.toNat ∧ b.toNat ≤ 57 :=
  mem_digits (h ▸ List.mem_cons_self)

/-- A printed number starts with a digit or a sign. -/
theorem head_decimal {z : Int} {b : Byte} {rest : List Byte} (h : decimal z = b :: rest) :
    b = byte '-' ∨ 48 ≤ b.toNat ∧ b.toNat ≤ 57 := by
  cases z with
  | ofNat n => exact .inr (head_digits h)
  | negSucc n => exact .inl (List.cons.inj h).1.symm

theorem decimal_injective {y z : Int} (h : decimal y = decimal z) : y = z := by
  have hsign (m n : Nat) : digits m ≠ byte '-' :: digits n := by
    intro hmn
    exact absurd (head_digits hmn).1 (by decide)
  cases y with
  | ofNat m =>
    cases z with
    | ofNat n => exact congrArg Int.ofNat (digits_injective h)
    | negSucc n => exact absurd h (hsign m (n + 1))
  | negSucc m =>
    cases z with
    | ofNat n => exact absurd h.symm (hsign n (m + 1))
    | negSucc n => exact congrArg Int.negSucc (Nat.succ.inj (digits_injective (List.cons.inj h).2))

end Text
