import Mathlib.Algebra.Group.Nat.Defs
import Mathlib.Data.List.Induction
import Mathlib.Tactic.Common

/-!
# Numerals

The number that a text of decimal or hexadecimal digits denotes (`value`), and the text of a number
(`Nat.toDigits`), which denotes the number again (`value_toDigits`).
-/

namespace Numeral

variable {b n : Nat} {c : Char} {text : List Char}

/-- The value of a decimal or hexadecimal digit. -/
def digit (c : Char) : Nat :=
  if c.isDigit then c.toNat - 48
  else if 97 ≤ c.toNat then c.toNat - 87
  else c.toNat - 55

def value (b : Nat) (text : List Char) : Nat := text.foldl (fun n c => b * n + digit c) 0

/-! ## Digits -/

theorem isDigit_iff : c.isDigit = true ↔ 48 ≤ c.toNat ∧ c.toNat ≤ 57 := by
  simp only [Char.isDigit, ge_iff_le, Bool.and_eq_true, decide_eq_true_eq, UInt32.le_iff_toNat_le]
  rfl

theorem isHexDigit_iff : c.isHexDigit = true ↔ (48 ≤ c.toNat ∧ c.toNat ≤ 57) ∨
    (97 ≤ c.toNat ∧ c.toNat ≤ 102) ∨ (65 ≤ c.toNat ∧ c.toNat ≤ 70) := by
  simp only [Char.isHexDigit, Bool.or_eq_true, isDigit_iff, ge_iff_le, Bool.and_eq_true,
    decide_eq_true_eq, UInt32.le_iff_toNat_le, or_assoc]
  rfl

theorem digit_lt_sixteen (h : c.isHexDigit = true) : digit c < 16 := by
  have := isHexDigit_iff.1 h
  unfold digit
  split
  · rename_i hd
    have := isDigit_iff.1 hd
    omega
  · rename_i hd
    have : ¬ (48 ≤ c.toNat ∧ c.toNat ≤ 57) := fun hc => hd (isDigit_iff.2 hc)
    split <;> omega

theorem digit_digitChar (h : n < 16) : digit n.digitChar = n :=
  (by decide : ∀ n < 16, digit (Nat.digitChar n) = n) n h

theorem isHexDigit_digitChar (h : n < 16) : n.digitChar.isHexDigit = true :=
  (by decide : ∀ n < 16, (Nat.digitChar n).isHexDigit = true) n h

/-! ## Values -/

theorem value_append_singleton (b : Nat) (text : List Char) (c : Char) :
    value b (text ++ [c]) = b * value b text + digit c := by
  rw [value, List.foldl_append]
  rfl

/-- A numeral of `k` digits is below the `k`-th power of its base. -/
theorem value_lt (h : ∀ c ∈ text, digit c < b) : value b text < b ^ text.length := by
  induction text using List.reverseRecOn with
  | nil => exact Nat.one_pos
  | append_singleton text c ih =>
    have htext := ih fun d hd => h d (List.mem_append_left _ hd)
    have hc : digit c < b := h c (List.mem_append_right _ (List.mem_singleton_self c))
    rw [value_append_singleton, List.length_append, List.length_singleton, Nat.pow_succ]
    calc b * value b text + digit c < b * value b text + b := Nat.add_lt_add_left hc _
      _ = b * (value b text + 1) := by rw [Nat.mul_add, Nat.mul_one]
      _ ≤ b * b ^ text.length := Nat.mul_le_mul_left b htext
      _ = b ^ text.length * b := Nat.mul_comm _ _

/-- The text of a number denotes it. -/
theorem value_toDigits (hb : 1 < b) (hb' : b ≤ 16) (n : Nat) : value b (Nat.toDigits b n) = n := by
  induction n using Nat.strongRecOn with
  | ind n ih =>
    by_cases h : n < b
    · rw [Nat.toDigits_of_lt_base h]
      show b * 0 + digit n.digitChar = n
      rw [Nat.mul_zero, Nat.zero_add, digit_digitChar (by omega)]
    · have hmod : n % b < b := Nat.mod_lt n (by omega)
      rw [Nat.toDigits_of_base_le hb (Nat.le_of_not_lt h), value_append_singleton,
        ih (n / b) (Nat.div_lt_self (by omega) hb), digit_digitChar (by omega)]
      exact Nat.div_add_mod n b

theorem isHexDigit_of_mem_toDigits (hb : 1 < b) (hb' : b ≤ 16) (n : Nat) :
    ∀ c ∈ Nat.toDigits b n, c.isHexDigit = true := by
  induction n using Nat.strongRecOn with
  | ind n ih =>
    by_cases h : n < b
    · rw [Nat.toDigits_of_lt_base h]
      intro c hc
      rw [List.mem_singleton.1 hc]
      exact isHexDigit_digitChar (by omega)
    · have hmod : n % b < b := Nat.mod_lt n (by omega)
      rw [Nat.toDigits_of_base_le hb (Nat.le_of_not_lt h)]
      intro c hc
      rcases List.mem_append.1 hc with hc | hc
      · exact ih (n / b) (Nat.div_lt_self (by omega) hb) c hc
      · rw [List.mem_singleton.1 hc]
        exact isHexDigit_digitChar (by omega)

end Numeral
