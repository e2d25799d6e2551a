import ApiSchema.Number.Binary64
import Mathlib.Algebra.Order.Field.Power
import Mathlib.Algebra.Order.Field.Rat
import Mathlib.Data.Nat.Cast.Order.Field
import Mathlib.Tactic.FieldSimp
import Mathlib.Tactic.Linarith
import Mathlib.Tactic.NormNum
import Mathlib.Tactic.Positivity
import Mathlib.Tactic.Ring

/-! A quotient is rounded to the number in whose interval it lies. -/

namespace ApiSchema

theorem power_cast (base n : Nat) : ((power base n : Nat) : ℚ) = (base : ℚ) ^ n := by
  exact Nat.cast_pow base n

theorem zpow_of_neg {e : Int} (negative : e < 0) (b : ℚ) : b ^ e = (b ^ e.natAbs)⁻¹ := by
  conv_lhs => rw [show e = -(e.natAbs : Int) by omega]
  rw [zpow_neg, zpow_natCast]

theorem zpow_of_nonneg {e : Int} (positive : ¬ e < 0) (b : ℚ) : b ^ e = b ^ e.natAbs := by
  conv_lhs => rw [show e = (e.natAbs : Int) by omega]
  rw [zpow_natCast]

namespace Binary64

/-- Every number has one form only. -/
def IsCanonical : Binary64 → Prop
  | .finite _ mantissa exponent => mantissa < 2 ^ 53 ∧ leastExponent ≤ exponent ∧
      exponent ≤ greatestExponent ∧ (mantissa < 2 ^ 52 → exponent = leastExponent)
  | _ => True

theorem quotient_value (mantissa : Nat) (exponent : Int) :
    ((quotient mantissa exponent).1 : ℚ) / (quotient mantissa exponent).2 =
      mantissa * 2 ^ exponent := by
  unfold quotient
  split
  · next negative => rw [power_cast, zpow_of_neg negative, div_eq_mul_inv]; rfl
  · next positive => rw [zpow_of_nonneg positive]; push_cast [power_cast]; ring

theorem quotient_denominator_pos (mantissa : Nat) (exponent : Int) :
    0 < (quotient mantissa exponent).2 := by
  unfold quotient
  split
  · exact Nat.pow_pos (by decide)
  · exact Nat.one_pos

section Scaled

variable {num den : Nat}

theorem scaled_value (num : Nat) {den : Nat} (positive : 0 < den) (exponent : Int) :
    ((scaled num den exponent).1 : ℚ) / (scaled num den exponent).2 =
      (num : ℚ) / den / 2 ^ exponent := by
  have some : (den : ℚ) ≠ 0 := by exact_mod_cast positive.ne'
  unfold scaled
  split
  · next negative =>
    rw [zpow_of_neg negative]
    push_cast [power_cast]
    field_simp
  · next above =>
    rw [zpow_of_nonneg above]
    push_cast [power_cast]
    field_simp

theorem scaled_denominator_pos (num : Nat) {den : Nat} (positive : 0 < den) (exponent : Int) :
    0 < (scaled num den exponent).2 := by
  unfold scaled
  split
  · exact positive
  · exact Nat.mul_pos positive (Nat.pow_pos (by decide))

theorem quotient_between (some : 0 < num) (positive : 0 < den) :
    (2 : ℚ) ^ ((num.log2 : Int) - den.log2 - 1) < num / den ∧
      (num : ℚ) / den < 2 ^ ((num.log2 : Int) - den.log2 + 1) := by
  have under : ((2 ^ num.log2 : Nat) : ℚ) ≤ num := by exact_mod_cast Nat.log2_self_le some.ne'
  have beyond : (num : ℚ) < (2 ^ (num.log2 + 1) : Nat) := by exact_mod_cast Nat.lt_log2_self
  have under' : ((2 ^ den.log2 : Nat) : ℚ) ≤ den := by exact_mod_cast Nat.log2_self_le positive.ne'
  have beyond' : (den : ℚ) < (2 ^ (den.log2 + 1) : Nat) := by exact_mod_cast Nat.lt_log2_self
  push_cast at under beyond under' beyond'
  have den_pos : (0 : ℚ) < den := by exact_mod_cast positive
  have num_pos : (0 : ℚ) < num := by exact_mod_cast some
  have low : (2 : ℚ) ^ ((num.log2 : Int) - den.log2 - 1) = 2 ^ num.log2 / 2 ^ (den.log2 + 1) := by
    rw [show (num.log2 : Int) - den.log2 - 1 = (num.log2 : Int) - ((den.log2 + 1 : Nat) : Int) by
      push_cast; ring, zpow_sub₀ two_ne_zero, zpow_natCast, zpow_natCast]
  have high : (2 : ℚ) ^ ((num.log2 : Int) - den.log2 + 1) = 2 ^ (num.log2 + 1) / 2 ^ den.log2 := by
    rw [show (num.log2 : Int) - den.log2 + 1 = ((num.log2 + 1 : Nat) : Int) - (den.log2 : Int) by
      push_cast; ring, zpow_sub₀ two_ne_zero, zpow_natCast, zpow_natCast]
  rw [low, high]
  constructor
  · calc (2 : ℚ) ^ num.log2 / 2 ^ (den.log2 + 1) ≤ num / 2 ^ (den.log2 + 1) := by gcongr
      _ < num / den := by gcongr
  · calc (num : ℚ) / den ≤ num / 2 ^ den.log2 := by gcongr
      _ < 2 ^ (num.log2 + 1) / 2 ^ den.log2 := by gcongr

theorem le_div_cast {n d k : Nat} (positive : 0 < d) : k ≤ n / d ↔ (k : ℚ) ≤ (n : ℚ) / d := by
  have some : (0 : ℚ) < d := by exact_mod_cast positive
  rw [Nat.le_div_iff_mul_le positive, le_div_iff₀ some]
  exact_mod_cast Iff.rfl

theorem fitting_exponent (some : 0 < num) (positive : 0 < den) :
    (2 : ℚ) ^ 52 ≤ (num : ℚ) / den / 2 ^ fittingExponent num den ∧
      (num : ℚ) / den / 2 ^ fittingExponent num den < 2 ^ 53 := by
  obtain ⟨low, high⟩ := quotient_between some positive
  have value := scaled_value num positive ((num.log2 : Int) - den.log2 - 52)
  have proper := scaled_denominator_pos num positive ((num.log2 : Int) - den.log2 - 52)
  unfold fittingExponent
  generalize guess : (num.log2 : Int) - den.log2 - 52 = g at value proper
  generalize (num : ℚ) / den = x at low high value
  have at_least : (2 : ℚ) ^ 51 < x / 2 ^ g := by
    rw [lt_div_iff₀ (by positivity), ← zpow_natCast, ← zpow_add₀ two_ne_zero,
      show ((51 : Nat) : Int) + g = (num.log2 : Int) - den.log2 - 1 by omega]
    exact low
  have at_most : x / 2 ^ g < (2 : ℚ) ^ 53 := by
    rw [div_lt_iff₀ (by positivity), ← zpow_natCast, ← zpow_add₀ two_ne_zero,
      show ((53 : Nat) : Int) + g = (num.log2 : Int) - den.log2 + 1 by omega]
    exact high
  rw [← value] at at_least at_most
  dsimp only
  split
  · next small =>
    have below : ¬ ((power 2 52 : Nat) : ℚ) ≤ x / 2 ^ g := by
      rw [← value, ← le_div_cast proper]
      omega
    rw [power_cast, not_le] at below
    rw [value] at at_least
    push_cast at below
    rw [zpow_sub_one₀ two_ne_zero, div_mul_eq_div_div, div_inv_eq_mul]
    exact ⟨by linarith, by linarith⟩
  · next large =>
    have reached : ((power 2 52 : Nat) : ℚ) ≤ x / 2 ^ g := by
      rw [← value, ← le_div_cast proper]
      omega
    rw [if_neg]
    · rw [value] at at_most
      rw [power_cast] at reached
      exact ⟨reached, at_most⟩
    · intro beyond
      rw [le_div_cast proper, power_cast] at beyond
      exact absurd at_most (not_lt.mpr beyond)

end Scaled

theorem round_div_eq {n d k : Nat} (positive : 0 < d) (low : (k : ℚ) - 1 / 2 ≤ (n : ℚ) / d)
    (high : (n : ℚ) / d ≤ k + 1 / 2)
    (inside : k % 2 = 0 ∨ (k : ℚ) - 1 / 2 < (n : ℚ) / d ∧ (n : ℚ) / d < k + 1 / 2) :
    roundDiv n d = k := by
  have some : (0 : ℚ) < d := by exact_mod_cast positive
  have low' : (2 * k : ℚ) * d ≤ 2 * n + d := by
    rw [le_div_iff₀ some] at low
    linarith
  have high' : (2 : ℚ) * n ≤ 2 * k * d + d := by
    rw [div_le_iff₀ some] at high
    linarith
  have inside' : k % 2 = 0 ∨ (2 * k : ℚ) * d < 2 * n + d ∧ (2 : ℚ) * n < 2 * k * d + d := by
    rw [lt_div_iff₀ some, div_lt_iff₀ some] at inside
    refine inside.imp id fun ⟨less, more⟩ => ⟨by linarith, by linarith⟩
  norm_cast at low' high' inside'
  have split := Nat.div_add_mod n d
  have rest := Nat.mod_lt n positive
  have whole : n / d = k ∨ n / d + 1 = k := by
    have above : n / d ≤ k := by
      by_contra more
      have steps : d * (k + 1) ≤ d * (n / d) := Nat.mul_le_mul_left d (by omega)
      rw [Nat.mul_add] at steps
      have same : 2 * k * d = 2 * (d * k) := by ring
      omega
    have below : k ≤ n / d + 1 := by
      by_contra more
      have steps : d * (n / d + 2) ≤ d * k := Nat.mul_le_mul_left d (by omega)
      rw [Nat.mul_add] at steps
      have same : 2 * k * d = 2 * (d * k) := by ring
      omega
    omega
  unfold roundDiv
  dsimp only
  rcases whole with same | same
  · have product : 2 * k * d = 2 * (d * (n / d)) := by rw [same]; ring
    split
    · exact same
    · split <;> omega
  · have product : 2 * k * d = 2 * (d * (n / d)) + 2 * d := by rw [← same]; ring
    split
    · omega
    · split <;> omega

theorem round_div_le {n d k : Nat} (positive : 0 < d) (most : (n : ℚ) / d ≤ k) :
    roundDiv n d ≤ k := by
  have some : (0 : ℚ) < d := by exact_mod_cast positive
  rw [div_le_iff₀ some] at most
  norm_cast at most
  have split := Nat.div_add_mod n d
  have short : n / d ≤ k := Nat.div_le_of_le_mul (by rwa [Nat.mul_comm])
  rcases Nat.lt_or_eq_of_le short with less | same
  · unfold roundDiv
    dsimp only
    split
    · omega
    · split <;> omega
  · rw [same, Nat.mul_comm d k] at split
    have rest : n % d = 0 := by omega
    unfold roundDiv
    simp only [rest, same]
    rw [if_pos (by omega)]

theorem le_round_div {n d k : Nat} (positive : 0 < d) (least : (k : ℚ) ≤ (n : ℚ) / d) :
    k ≤ roundDiv n d := by
  have whole : k ≤ n / d := (le_div_cast positive).mpr least
  unfold roundDiv
  dsimp only
  split
  · exact whole
  · split <;> omega

/-- How far below a mantissa a quotient may be to round to it, in units of its exponent. Below a
power of two the numbers are twice as dense. -/
def depth (mantissa : Nat) (exponent : Int) : ℚ :=
  if mantissa = 2 ^ 52 ∧ leastExponent < exponent then 1 / 4 else 1 / 2

/-- A number is the nearest one to a quotient, or one of two with the even mantissa. -/
structure Nearest (mantissa : Nat) (exponent : Int) (x : ℚ) : Prop where
  low : (mantissa - depth mantissa exponent) * 2 ^ exponent ≤ x
  high : x ≤ (mantissa + 1 / 2) * 2 ^ exponent
  inside : mantissa % 2 = 0 ∨
    (mantissa - depth mantissa exponent) * 2 ^ exponent < x ∧ x < (mantissa + 1 / 2) * 2 ^ exponent

theorem depth_le (mantissa : Nat) (exponent : Int) : depth mantissa exponent ≤ 1 / 2 := by
  unfold depth
  split <;> norm_num

/-- The mantissa and the exponent that a quotient is rounded to, before a mantissa of 54 bits is
brought to 53. -/
def rounding (num den : Nat) : Nat × Int :=
  let exponent := max (fittingExponent num den) leastExponent
  let (n, d) := scaled num den exponent
  (roundDiv n d, exponent)

theorem of_quotient_rounding (negative : Bool) {num : Nat} (some : 0 < num) (den : Nat) :
    ofQuotient negative num den =
      let (mantissa, exponent) := if (rounding num den).1 = 2 ^ 53 then (2 ^ 52, (rounding num den).2 + 1)
        else rounding num den
      if greatestExponent < exponent then .infinity negative
      else .finite negative mantissa exponent := by
  rw [ofQuotient, if_neg some.ne']
  rfl

section Quotients

variable {num den mantissa : Nat} {exponent : Int}

theorem two_zpow_pos (exponent : Int) : (0 : ℚ) < 2 ^ exponent := by positivity

theorem fitting_le (some : 0 < num) (positive : 0 < den)
    (less : (num : ℚ) / den < 2 ^ 53 * 2 ^ exponent) : fittingExponent num den ≤ exponent := by
  have fits := (fitting_exponent some positive).1
  rw [le_div_iff₀ (two_zpow_pos _), ← zpow_natCast, ← zpow_add₀ two_ne_zero] at fits
  rw [← zpow_natCast, ← zpow_add₀ two_ne_zero] at less
  have order := (zpow_lt_zpow_iff_right₀ (one_lt_two : (1 : ℚ) < 2)).mp (lt_of_le_of_lt fits less)
  omega

theorem le_fitting (some : 0 < num) (positive : 0 < den)
    (more : (2 : ℚ) ^ 52 * 2 ^ exponent ≤ (num : ℚ) / den) :
    exponent ≤ fittingExponent num den := by
  have fits := (fitting_exponent some positive).2
  rw [div_lt_iff₀ (two_zpow_pos _), ← zpow_natCast, ← zpow_add₀ two_ne_zero] at fits
  rw [← zpow_natCast, ← zpow_add₀ two_ne_zero] at more
  have order := (zpow_lt_zpow_iff_right₀ (one_lt_two : (1 : ℚ) < 2)).mp (lt_of_le_of_lt more fits)
  omega

theorem rounding_eq (positive : 0 < den)
    (fits : max (fittingExponent num den) leastExponent = exponent)
    (low : ((mantissa : ℚ) - 1 / 2) * 2 ^ exponent ≤ (num : ℚ) / den)
    (high : (num : ℚ) / den ≤ (mantissa + 1 / 2) * 2 ^ exponent)
    (inside : mantissa % 2 = 0 ∨ ((mantissa : ℚ) - 1 / 2) * 2 ^ exponent < (num : ℚ) / den ∧
      (num : ℚ) / den < (mantissa + 1 / 2) * 2 ^ exponent) :
    rounding num den = (mantissa, exponent) := by
  have value := scaled_value num positive exponent
  have proper := scaled_denominator_pos num positive exponent
  unfold rounding
  rw [fits]
  dsimp only
  rw [round_div_eq (k := mantissa) proper]
  · rw [value, le_div_iff₀ (two_zpow_pos _)]
    exact low
  · rw [value, div_le_iff₀ (two_zpow_pos _)]
    exact high
  · rw [value, lt_div_iff₀ (two_zpow_pos _), div_lt_iff₀ (two_zpow_pos _)]
    exact inside

theorem of_quotient_nearest (negative : Bool) (positive : 0 < den) (some : 0 < mantissa)
    (canonical : (finite negative mantissa exponent).IsCanonical)
    (nearest : Nearest mantissa exponent ((num : ℚ) / den)) :
    ofQuotient negative num den = finite negative mantissa exponent := by
  obtain ⟨small, least, greatest, full⟩ := canonical
  obtain ⟨low, high, inside⟩ := nearest
  have unit := two_zpow_pos exponent
  have some' : (1 : ℚ) ≤ mantissa := by exact_mod_cast some
  have small' : (mantissa : ℚ) ≤ 2 ^ 53 - 1 := by
    have bound : mantissa + 1 ≤ 2 ^ 53 := small
    have cast : ((mantissa + 1 : Nat) : ℚ) ≤ (2 ^ 53 : Nat) := by exact_mod_cast bound
    push_cast at cast
    linarith
  have num_pos : 0 < num := by
    have depth := depth_le mantissa exponent
    have low' : (0 : ℚ) < (num : ℚ) / den :=
      lt_of_lt_of_le (mul_pos (by linarith) unit) low
    rcases Nat.eq_zero_or_pos num with rfl | more
    · simp at low'
    · exact more
  have under : fittingExponent num den ≤ exponent := by
    apply fitting_le num_pos positive
    exact lt_of_le_of_lt high (mul_lt_mul_of_pos_right (by linarith) unit)
  rw [of_quotient_rounding negative num_pos]
  unfold depth at low inside
  split at low
  · next edge =>
    obtain ⟨rfl, above⟩ := edge
    rw [if_pos ⟨rfl, above⟩] at inside
    push_cast at low high
    by_cases reached : (2 : ℚ) ^ 52 * 2 ^ exponent ≤ (num : ℚ) / den
    · have same := le_fitting num_pos positive reached
      have rounded : rounding num den = (2 ^ 52, exponent) := by
        apply rounding_eq positive (by omega)
        · push_cast
          linarith
        · push_cast
          exact high
        · exact .inl rfl
      rw [rounded]
      rw [if_neg (show ¬ (2 : Nat) ^ 52 = 2 ^ 53 by decide)]
      exact if_neg (by omega)
    · rw [not_le] at reached
      have half : (2 : ℚ) ^ exponent = 2 * 2 ^ (exponent - 1) := by
        rw [zpow_sub_one₀ two_ne_zero]
        ring
      have unit' := two_zpow_pos (exponent - 1)
      rw [half] at reached low high
      have upper : fittingExponent num den ≤ exponent - 1 := by
        apply fitting_le num_pos positive
        linarith
      have lower : exponent - 1 ≤ fittingExponent num den := by
        apply le_fitting num_pos positive
        linarith
      have rounded : rounding num den = (2 ^ 53, exponent - 1) := by
        apply rounding_eq positive (by omega)
        · push_cast
          linarith
        · push_cast
          linarith
        · exact .inl rfl
      rw [rounded, if_pos rfl]
      dsimp only
      rw [if_neg (by omega), Int.sub_add_cancel]
  · next usual =>
    rw [if_neg usual] at inside
    have fits : max (fittingExponent num den) leastExponent = exponent := by
      rcases Int.lt_or_eq_of_le least with above | lowest
      · have large : ¬ mantissa < 2 ^ 52 := fun less => by
          have lowest := full less
          omega
        have larger : 2 ^ 52 + 1 ≤ mantissa := by
          have other : mantissa ≠ 2 ^ 52 := fun same => usual ⟨same, above⟩
          omega
        have larger' : (2 : ℚ) ^ 52 + 1 ≤ mantissa := by exact_mod_cast larger
        have same : exponent ≤ fittingExponent num den := le_fitting num_pos positive
          (le_trans (mul_le_mul_of_nonneg_right (by linarith) unit.le) low)
        omega
      · omega
    rw [rounding_eq positive fits low high inside, if_neg (by dsimp only; omega)]
    exact if_neg (by omega)

theorem of_quotient_canonical (negative : Bool) (num : Nat) (positive : 0 < den) :
    (ofQuotient negative num den).IsCanonical := by
  rcases Nat.eq_zero_or_pos num with rfl | num_pos
  · exact ⟨by decide, by decide, by decide, fun _ => rfl⟩
  rw [of_quotient_rounding negative num_pos]
  have fits := fitting_exponent num_pos positive
  generalize found : rounding num den = r
  obtain ⟨mantissa, exponent⟩ := r
  unfold rounding at found
  generalize max_eq : max (fittingExponent num den) leastExponent = e at found
  have value := scaled_value num positive e
  have proper := scaled_denominator_pos num positive e
  simp only [Prod.mk.injEq] at found
  obtain ⟨rounded, rfl⟩ := found
  have above : fittingExponent num den ≤ e := by omega
  have most : mantissa ≤ 2 ^ 53 := by
    rw [← rounded]
    apply round_div_le proper
    rw [value]
    have order : (2 : ℚ) ^ fittingExponent num den ≤ 2 ^ e :=
      zpow_le_zpow_right₀ one_le_two above
    have quotient : (0 : ℚ) ≤ (num : ℚ) / den := by positivity
    calc (num : ℚ) / den / 2 ^ e ≤ (num : ℚ) / den / 2 ^ fittingExponent num den := by
          exact div_le_div_of_nonneg_left quotient (two_zpow_pos _) order
      _ ≤ (2 ^ 53 : Nat) := by
          push_cast
          exact fits.2.le
  have full : mantissa < 2 ^ 52 → e = leastExponent := by
    intro short
    by_contra other
    have same : fittingExponent num den = e := by omega
    have reached : 2 ^ 52 ≤ mantissa := by
      rw [← rounded]
      apply le_round_div proper
      rw [value, ← same]
      push_cast
      exact fits.1
    omega
  have least : leastExponent ≤ e := by omega
  dsimp only
  split
  · split
    · trivial
    · next within =>
      exact ⟨(by decide : 2 ^ 52 < 2 ^ 53), (by omega : leastExponent ≤ e + 1), not_lt.mp within,
        fun short => absurd short (Nat.lt_irrefl _)⟩
  · split
    · trivial
    · exact ⟨by omega, least, by omega, full⟩

end Quotients

end Binary64

end ApiSchema
