import ApiSchema.Number.Digits
import Mathlib.Algebra.Group.Nat.Defs
import Mathlib.Data.List.Basic
import Mathlib.Data.List.Induction

/-! Numbers are the numbers that their digits stand for. -/

namespace ApiSchema

theorem is_digit_zero : isDigit '0' = true := by decide

theorem digits_value_eq (digits : List Char) :
    digitsValue digits = Nat.ofDigitChars 10 digits 0 := by
  rw [Nat.ofDigitChars_eq_foldl]
  rfl

theorem digits_of_eq (n : Nat) : digitsOf n = Nat.toDigits 10 n := Nat.toList_repr

@[simp] theorem digits_value_of (n : Nat) : digitsValue (digitsOf n) = n := by
  rw [digits_value_eq, digits_of_eq]
  exact Nat.ofDigitChars_ten_toDigits

theorem is_digit_of_mem {n : Nat} {c : Char} (member : c ∈ digitsOf n) : isDigit c = true := by
  rw [digits_of_eq] at member
  exact Nat.isDigit_of_mem_toDigits (by decide) (by decide) member

theorem digits_of_all (n : Nat) : (digitsOf n).all isDigit = true :=
  List.all_eq_true.mpr fun _ => is_digit_of_mem

theorem digits_of_ne_nil (n : Nat) : digitsOf n ≠ [] := by
  rw [digits_of_eq]
  exact Nat.toDigits_ne_nil

theorem digits_of_zero : digitsOf 0 = ['0'] := rfl

theorem digits_of_length_pos (n : Nat) : 0 < (digitsOf n).length :=
  List.length_pos_iff.mpr (digits_of_ne_nil n)

theorem digits_of_length_le {n width : Nat} (positive : 0 < width) (small : n < 10 ^ width) :
    (digitsOf n).length ≤ width := by
  rw [digits_of_eq]
  exact (Nat.length_toDigits_le_iff (by decide) positive).mpr small

theorem power_le_of_digits {n : Nat} (positive : 0 < n) : 10 ^ ((digitsOf n).length - 1) ≤ n := by
  by_contra small
  rcases Nat.eq_zero_or_pos ((digitsOf n).length - 1) with single | several
  · rw [single] at small
    omega
  · have short := digits_of_length_le several (Nat.lt_of_not_le small)
    omega

theorem digits_of_head {n : Nat} (positive : 0 < n) {c : Char} {rest : List Char}
    (written : digitsOf n = c :: rest) : c ≠ '0' := by
  induction n using Nat.strongRecOn generalizing c rest with
  | ind n ih =>
    rw [digits_of_eq] at written
    by_cases small : n < 10
    · rw [Nat.toDigits_of_lt_base small] at written
      cases written
      have digits : ∀ d : Fin 10, 0 < d.val → Nat.digitChar d.val ≠ '0' := by decide
      exact digits ⟨n, small⟩ positive
    · rw [Nat.toDigits_of_base_le (by decide) (by omega)] at written
      cases front : Nat.toDigits 10 (n / 10) with
      | nil => exact absurd front Nat.toDigits_ne_nil
      | cons d others =>
        rw [front] at written
        cases written
        exact ih (n / 10) (by omega) (by omega) ((digits_of_eq _).trans front)

theorem digits_value_append_zeros (n : Nat) (digits : List Char) :
    digitsValue (List.replicate n '0' ++ digits) = digitsValue digits := by
  rw [digits_value_eq, digits_value_eq, Nat.ofDigitChars_append, Nat.ofDigitChars_replicate_zero,
    Nat.mul_zero]

theorem digits_value_append_nulls (digits : List Char) (n : Nat) :
    digitsValue (digits ++ List.replicate n '0') = digitsValue digits * 10 ^ n := by
  rw [digits_value_eq, digits_value_eq, Nat.ofDigitChars_append, Nat.ofDigitChars_replicate_zero,
    Nat.mul_comm]

theorem is_digit_least {c : Char} (digit : isDigit c = true) : 48 ≤ c.toNat := by
  simp only [isDigit, Bool.and_eq_true, decide_eq_true_eq, Char.le_def] at digit
  exact digit.1

theorem digit_value_le {c : Char} (digit : isDigit c = true) : digitValue c ≤ 9 := by
  simp only [isDigit, Bool.and_eq_true, decide_eq_true_eq, Char.le_def] at digit
  have most : c.toNat ≤ 57 := digit.2
  have zero : '0'.toNat = 48 := rfl
  unfold digitValue
  omega

theorem digits_value_concat (digits : List Char) (c : Char) :
    digitsValue (digits ++ [c]) = 10 * digitsValue digits + digitValue c := by
  simp [digitsValue]

theorem digits_value_lt {digits : List Char} (all : digits.all isDigit = true) :
    digitsValue digits < 10 ^ digits.length := by
  induction digits using List.reverseRecOn with
  | nil => decide
  | append_singleton digits c ih =>
    simp only [List.all_append, List.all_cons, List.all_nil, Bool.and_true, Bool.and_eq_true] at all
    have before := ih all.1
    have own := digit_value_le all.2
    rw [digits_value_concat, List.length_append, List.length_singleton, Nat.pow_succ]
    omega

theorem digit_value_injective {c d : Char} (digit : isDigit c = true) (digit' : isDigit d = true)
    (same : digitValue c = digitValue d) : c = d := by
  have least := is_digit_least digit
  have least' := is_digit_least digit'
  have zero : '0'.toNat = 48 := rfl
  unfold digitValue at same
  exact Char.toNat_inj.mp (by omega)

theorem digits_value_injective {digits others : List Char} (all : digits.all isDigit = true)
    (all' : others.all isDigit = true) (long : digits.length = others.length)
    (same : digitsValue digits = digitsValue others) : digits = others := by
  induction digits using List.reverseRecOn generalizing others with
  | nil => exact (List.length_eq_zero_iff.mp long.symm).symm
  | append_singleton digits c ih =>
    obtain rfl | ⟨others, d, rfl⟩ := List.eq_nil_or_concat' others
    · simp at long
    · simp only [List.all_append, List.all_cons, List.all_nil, Bool.and_true, Bool.and_eq_true]
        at all all'
      rw [digits_value_concat, digits_value_concat] at same
      have own := digit_value_le all.2
      have own' := digit_value_le all'.2
      have front : digits = others := ih all.1 all'.1 (by simpa using long) (by omega)
      have last : c = d := digit_value_injective all.2 all'.2 (by omega)
      rw [front, last]

theorem padded_digits_all (width n : Nat) : (paddedDigits width n).all isDigit = true := by
  rw [paddedDigits, List.all_append, digits_of_all, Bool.and_true]
  exact List.all_replicate.trans (by simp [is_digit_zero])

@[simp] theorem padded_digits_value (width n : Nat) : digitsValue (paddedDigits width n) = n := by
  rw [paddedDigits, digits_value_append_zeros, digits_value_of]

theorem padded_digits_length {n : Nat} (width : Nat) (positive : 0 < width)
    (small : n < 10 ^ width) : (paddedDigits width n).length = width := by
  have short := digits_of_length_le positive small
  rw [paddedDigits, List.length_append, List.length_replicate]
  omega

theorem padded_digits_ne_nil (width n : Nat) : paddedDigits width n ≠ [] := by
  simp [paddedDigits, digits_of_ne_nil]

theorem padded_of_digits {digits : List Char} {width : Nat} (long : digits.length = width)
    (positive : 0 < width) (all : digits.all isDigit = true) :
    paddedDigits width (digitsValue digits) = digits := by
  have small : digitsValue digits < 10 ^ width := long ▸ digits_value_lt all
  exact digits_value_injective (padded_digits_all ..) all
    ((padded_digits_length width positive small).trans long.symm) (padded_digits_value ..)

end ApiSchema
