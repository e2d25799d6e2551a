import ApiSchema.Proofs.Number.Digits
import ApiSchema.Proofs.Number.Interval

/-! The text of a floating-point number is a numeral with a fraction or an exponent, which stands for
the shortest decimal of the number. -/

namespace ApiSchema

/-- Digits of a whole number: zero alone, or digits that do not start with zero. -/
structure Whole (digits : List Char) : Prop where
  present : digits ≠ []
  all : digits.all isDigit = true
  front : digits = ['0'] ∨ digits.head? ≠ some '0'

def signedDigits (negative : Bool) (digits : List Char) : Int :=
  if negative then -(digitsValue digits : Int) else digitsValue digits

/-- Numerals with a fraction or an exponent, and the coefficient and the power of ten that they stand
for. -/
inductive Scaled : List Char → Nat → Int → Prop where
  | point {whole fraction} (front : Whole whole) (present : fraction ≠ [])
    (all : fraction.all isDigit = true) :
    Scaled (whole ++ '.' :: fraction) (digitsValue (whole ++ fraction)) (-(fraction.length : Int))
  | exponent {whole digits} (front : Whole whole) (negative : Bool) (present : digits ≠ [])
    (all : digits.all isDigit = true) :
    Scaled (whole ++ 'e' :: (if negative then '-' else '+') :: digits) (digitsValue whole)
      (signedDigits negative digits)
  | both {whole fraction digits} (front : Whole whole) (present : fraction ≠ [])
    (all : fraction.all isDigit = true) (negative : Bool) (present' : digits ≠ [])
    (all' : digits.all isDigit = true) :
    Scaled (whole ++ '.' :: fraction ++ 'e' :: (if negative then '-' else '+') :: digits)
      (digitsValue (whole ++ fraction)) (signedDigits negative digits - fraction.length)

theorem all_digits_replicate (n : Nat) : (List.replicate n '0').all isDigit = true :=
  List.all_replicate.trans (by simp [is_digit_zero])

theorem head_digits_of {n : Nat} (positive : 0 < n) : (digitsOf n).head? ≠ some '0' := by
  cases written : digitsOf n with
  | nil => nofun
  | cons c rest =>
    intro zero
    exact digits_of_head positive written (Option.some.inj zero)

theorem whole_digits_of (n : Nat) : Whole (digitsOf n) where
  present := digits_of_ne_nil n
  all := digits_of_all n
  front := by
    rcases Nat.eq_zero_or_pos n with rfl | positive
    · exact .inl digits_of_zero
    · exact .inr (head_digits_of positive)

theorem whole_zero : Whole ['0'] := whole_digits_of 0

theorem whole_append {digits more : List Char} (whole : Whole digits)
    (positive : digits.head? ≠ some '0') (all : more.all isDigit = true) : Whole (digits ++ more) where
  present := List.append_ne_nil_of_left_ne_nil whole.present more
  all := by rw [List.all_append, whole.all, all]; rfl
  front := by
    right
    rw [List.head?_append_of_ne_nil _ whole.present]
    exact positive

theorem Whole.first {digits : List Char} (whole : Whole digits) :
    ∃ c rest, digits = c :: rest ∧ isDigit c = true := by
  have all := whole.all
  cases digits with
  | nil => exact absurd rfl whole.present
  | cons c rest =>
    rw [List.all_cons, Bool.and_eq_true] at all
    exact ⟨c, rest, rfl, all.1⟩

theorem Scaled.first {body : List Char} {c : Nat} {k : Int} (scaled : Scaled body c k) :
    ∃ d rest, body = d :: rest ∧ isDigit d = true := by
  cases scaled with
  | point front | exponent front | both front =>
    obtain ⟨d, rest, rfl, digit⟩ := front.first
    exact ⟨d, _, rfl, digit⟩

namespace Shortest

variable {digits : Nat} {exponent : Int}

theorem scientific_scaled (positive : 0 < digits) (negative : Bool) (places : List Char)
    (present : places ≠ []) (all : places.all isDigit = true)
    (power : signedDigits negative places = (digitsOf digits).length + exponent - 1) :
    Scaled ((match digitsOf digits with
      | [] => []
      | [c] => [c]
      | c :: rest => c :: '.' :: rest) ++ 'e' :: (if negative then '-' else '+') :: places)
      digits exponent := by
  have whole := whole_digits_of digits
  have value := digits_value_of digits
  have front := head_digits_of positive
  match digitsOf digits, whole, value, front, power with
  | [], whole, _, _, _ => exact absurd rfl whole.present
  | [c], whole, value, _, power =>
    have same : signedDigits negative places = exponent := by
      rw [power, List.length_singleton]
      omega
    rw [← value, ← same]
    exact .exponent whole negative present all
  | c :: d :: rest, whole, value, front, power =>
    have digit := whole.all
    rw [List.all_cons, Bool.and_eq_true] at digit
    have first : Whole [c] := ⟨nofun, by simp [digit.1], .inr front⟩
    have some : d :: rest ≠ [] := nofun
    have same : signedDigits negative places - (d :: rest).length = exponent := by
      rw [power, List.length_cons]
      omega
    rw [← value, ← same]
    exact .both first some digit.2 negative present all

/-- Digits are laid out as a numeral of the same value, and of the same exponent unless a zero is
written behind the point. -/
theorem layout_scaled (positive : 0 < digits) :
    ∃ (c : Nat) (k : Int), Scaled (Layout.standard.text digits exponent).toList c k ∧
      (c : ℚ) * 10 ^ k = digits * 10 ^ exponent ∧ (exponent ≤ k ∨ k = -1) := by
  have whole := whole_digits_of digits
  have value := digits_value_of digits
  have front := head_digits_of positive
  have count := digits_of_length_pos digits
  have lowest : Layout.standard.positionalFrom = -4 := rfl
  have highest : Layout.standard.positionalBelow = 16 := rfl
  simp only [Layout.text, lowest, highest]
  by_cases positional : -4 ≤ ((digitsOf digits).length : Int) + exponent - 1 ∧
      ((digitsOf digits).length : Int) + exponent - 1 < 16
  · rw [if_pos positional]
    by_cases above : 0 ≤ exponent
    · have tail : Layout.standard.fraction.toList = ['.', '0'] := rfl
      rw [if_pos above, String.toList_append, String.toList_ofList, tail]
      obtain ⟨n, rfl⟩ := Int.eq_ofNat_of_zero_le above
      have zero : ['0'] ≠ [] := nofun
      refine ⟨_, _, .point (whole_append whole front (all_digits_replicate _)) zero (by decide), ?_,
        .inr rfl⟩
      rw [List.append_assoc, show ['0'] = List.replicate 1 '0' from rfl, List.replicate_append_replicate,
        digits_value_append_nulls, value, Int.toNat_natCast, zpow_natCast, List.length_replicate,
        pow_succ]
      push_cast
      rw [zpow_neg, zpow_one]
      field_simp
    · rw [if_neg above]
      by_cases inside : 0 ≤ ((digitsOf digits).length : Int) + exponent - 1
      · rw [if_pos inside, String.toList_ofList]
        generalize places : (((digitsOf digits).length : Int) + exponent - 1 + 1).toNat = split
        have all := List.all_eq_true.mp whole.all
        have before : Whole ((digitsOf digits).take split) := by
          refine ⟨?_, List.all_eq_true.mpr fun c member => all c (List.mem_of_mem_take member), .inr ?_⟩
          · apply List.ne_nil_of_length_pos
            rw [List.length_take]
            omega
          · rw [List.head?_take, if_neg (by omega)]
            exact front
        have behind : (digitsOf digits).drop split ≠ [] := by
          apply List.ne_nil_of_length_pos
          rw [List.length_drop]
          omega
        have scaled := Scaled.point before behind
          (List.all_eq_true.mpr fun c member => all c (List.mem_of_mem_drop member))
        have same : -(((digitsOf digits).drop split).length : Int) = exponent := by
          rw [List.length_drop]
          omega
        rw [List.take_append_drop, value, same] at scaled
        exact ⟨_, _, scaled, rfl, .inl (Int.le_refl _)⟩
      · simp only [if_neg inside, String.toList_append, String.toList_ofList]
        generalize places : (-(((digitsOf digits).length : Int) + exponent - 1) - 1).toNat = zeros
        have all : (List.replicate zeros '0' ++ digitsOf digits).all isDigit = true := by
          rw [List.all_append, all_digits_replicate, whole.all]
          rfl
        have present : List.replicate zeros '0' ++ digitsOf digits ≠ [] := by simp [whole.present]
        have scaled := Scaled.point whole_zero present all
        have same : -((List.replicate zeros '0' ++ digitsOf digits).length : Int) = exponent := by
          rw [List.length_append, List.length_replicate]
          omega
        rw [← List.append_assoc, show ['0'] = List.replicate 1 '0' from rfl,
          List.replicate_append_replicate, digits_value_append_zeros, value, same] at scaled
        exact ⟨_, _, scaled, rfl, .inl (Int.le_refl _)⟩
  · rw [if_neg positional]
    simp only [String.toList_append, String.toList_ofList, padded, List.append_assoc]
    have places := @scientific_scaled digits exponent positive
      (decide (((digitsOf digits).length : Int) + exponent - 1 < 0))
      (paddedDigits Layout.standard.exponentWidth
        (((digitsOf digits).length : Int) + exponent - 1).natAbs) (padded_digits_ne_nil _ _)
      (padded_digits_all _ _) (by
        rw [signedDigits, padded_digits_value]
        split
        · next small =>
          rw [decide_eq_true_eq] at small
          omega
        · next large =>
          rw [decide_eq_true_eq] at large
          omega)
    refine ⟨digits, exponent, ?_, rfl, .inl (Int.le_refl _)⟩
    by_cases small : ((digitsOf digits).length : Int) + exponent - 1 < 0
    · rw [decide_eq_true small] at places
      rw [if_pos small]
      exact places
    · rw [decide_eq_false small] at places
      rw [if_neg small]
      exact places

theorem layout_first (digits : Nat) (exponent : Int) :
    ∃ c rest, (Layout.standard.text digits exponent).toList = c :: rest ∧ isDigit c = true := by
  have all := digits_of_all digits
  obtain ⟨c, rest, same⟩ := List.exists_cons_of_ne_nil (digits_of_ne_nil digits)
  have digit : isDigit c = true := by
    rw [same, List.all_cons, Bool.and_eq_true] at all
    exact all.1
  unfold Layout.text
  simp only [same]
  split
  · split
    · simp [String.toList_append, digit]
    · split
      · obtain ⟨n, split⟩ : ∃ n, (((c :: rest).length : Int) + exponent - 1 + 1).toNat = n + 1 :=
          ⟨(((c :: rest).length : Int) + exponent - 1).toNat, by omega⟩
        rw [split]
        simp [digit]
      · exact ⟨'0', _, by simp [String.toList_append]; rfl, rfl⟩
  · cases rest <;> simp [String.toList_append, digit]

end Shortest

namespace Binary64

theorem text_scaled {negative : Bool} {mantissa : Nat} {exponent : Int}
    (canonical : (finite negative mantissa exponent).IsCanonical) :
    ∃ body c k, (finite negative mantissa exponent).text.toList =
      (if negative then ['-'] else []) ++ body ∧ Scaled body c k ∧
        ofDecimal negative c k = finite negative mantissa exponent := by
  have sign : (if negative then "-" else "").toList = if negative then ['-'] else [] := by
    cases negative <;> rfl
  simp only [text]
  split
  · next none =>
    subst none
    rw [String.toList_append, sign]
    have zero : ['0'] ≠ [] := nofun
    refine ⟨_, _, _, rfl, .point whole_zero zero (by decide), ?_⟩
    rw [canonical.2.2.2 (by decide)]
    rfl
  · next positive =>
    have some : 0 < mantissa := Nat.pos_of_ne_zero positive
    obtain ⟨nearest, least⟩ := Shortest.decimal_nearest some negative canonical
    have present : 0 < (Shortest.decimal mantissa exponent).1 := by
      rcases Nat.eq_zero_or_pos (Shortest.decimal mantissa exponent).1 with zero | more
      · have low := nearest.low
        have some' : (1 : ℚ) ≤ mantissa := by exact_mod_cast some
        have depth := depth_le mantissa exponent
        have above := mul_pos (show (0 : ℚ) < mantissa - Binary64.depth mantissa exponent by linarith)
          (two_zpow_pos exponent)
        rw [zero, Nat.cast_zero, zero_mul] at low
        linarith
      · exact more
    obtain ⟨c, k, scaled, value, places⟩ :=
      @Shortest.layout_scaled _ (Shortest.decimal mantissa exponent).2 present
    rw [String.toList_append, sign]
    refine ⟨_, c, k, rfl, scaled, of_decimal_nearest some canonical (value ▸ nearest) (by omega)⟩

end Binary64

end ApiSchema
