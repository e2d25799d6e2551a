import ApiSchema.Number.Shortest
import ApiSchema.Proofs.Number.Digits
import ApiSchema.Proofs.Number.Rounding

/-! The shortest decimal of a number lies in the interval that is rounded to the number. A grid of
seventeen digits always has a point in it. -/

namespace ApiSchema.Shortest

open Binary64

theorem ten_zpow_pos (exponent : Int) : (0 : ℚ) < 10 ^ exponent := by positivity

theorem two_zpow_le_ten {a b : Int} (high : 30103 * a ≤ 100000 * b)
    (low : 30102 * a ≤ 100000 * b) : (2 : ℚ) ^ a ≤ 10 ^ b := by
  have upper : (2 : Nat) ^ 100000 ≤ 10 ^ 30103 := by decide +kernel
  have lower : (10 : Nat) ^ 30102 ≤ 2 ^ 100000 := by decide +kernel
  have upper' : ((2 : ℚ) ^ 100000) ≤ 10 ^ 30103 := by exact_mod_cast upper
  have lower' : ((10 : ℚ) ^ 30102) ≤ 2 ^ 100000 := by exact_mod_cast lower
  have powers : ((2 : ℚ) ^ a) ^ 100000 ≤ (10 ^ b) ^ 100000 := by
    rcases le_or_gt 0 a with positive | negative
    · obtain ⟨n, rfl⟩ := Int.eq_ofNat_of_zero_le positive
      calc ((2 : ℚ) ^ (n : Int)) ^ 100000 = (2 ^ 100000) ^ n := by
            rw [zpow_natCast, ← pow_mul, ← pow_mul, Nat.mul_comm]
        _ ≤ (10 ^ 30103) ^ n := pow_le_pow_left₀ (by positivity) upper' n
        _ = 10 ^ (30103 * n : Int) := by rw [← pow_mul, ← zpow_natCast]; push_cast; rfl
        _ ≤ 10 ^ (b * 100000) := zpow_le_zpow_right₀ (by norm_num) (by omega)
        _ = (10 ^ b) ^ 100000 := by rw [zpow_mul]; exact_mod_cast rfl
    · obtain ⟨n, same⟩ := Int.eq_ofNat_of_zero_le (show 0 ≤ -a by omega)
      obtain rfl : a = -(n : Int) := by omega
      have inverse : ((2 ^ 100000 : ℚ)⁻¹) ≤ (10 ^ 30102)⁻¹ := inv_anti₀ (by positivity) lower'
      calc ((2 : ℚ) ^ (-(n : Int))) ^ 100000 = ((2 ^ 100000)⁻¹) ^ n := by
            rw [zpow_neg, zpow_natCast, inv_pow, inv_pow, ← pow_mul, ← pow_mul, Nat.mul_comm]
        _ ≤ ((10 ^ 30102)⁻¹) ^ n := pow_le_pow_left₀ (by positivity) inverse n
        _ = 10 ^ (-(30102 * n) : Int) := by
            rw [inv_pow, ← pow_mul, zpow_neg, ← zpow_natCast]
            push_cast
            rfl
        _ ≤ 10 ^ (b * 100000) := zpow_le_zpow_right₀ (by norm_num) (by omega)
        _ = (10 ^ b) ^ 100000 := by rw [zpow_mul]; exact_mod_cast rfl
  exact le_of_pow_le_pow_left₀ (by decide) (by positivity) powers

theorem ten_zpow_le_two {a b : Int} (high : 100000 * b ≤ 30103 * a)
    (low : 100000 * b ≤ 30102 * a) : (10 : ℚ) ^ b ≤ 2 ^ a := by
  have opposite : (2 : ℚ) ^ (-a) ≤ 10 ^ (-b) := two_zpow_le_ten (by omega) (by omega)
  rw [zpow_neg, zpow_neg] at opposite
  exact (inv_le_inv₀ (two_zpow_pos a) (ten_zpow_pos b)).mp opposite

namespace Interval

/-- An interval is that of a number. -/
structure Belongs (i : Interval) (mantissa : Nat) (exponent : Int) : Prop where
  low : (i.low : ℚ) / i.denominator = (mantissa - depth mantissa exponent) * 2 ^ exponent
  value : (i.value : ℚ) / i.denominator = mantissa * 2 ^ exponent
  high : (i.high : ℚ) / i.denominator = (mantissa + 1 / 2) * 2 ^ exponent
  closed : i.closed = true ↔ mantissa % 2 = 0
  proper : 0 < i.denominator

theorem of_finite_belongs {mantissa : Nat} (some : 0 < mantissa) (exponent : Int) :
    (ofFinite mantissa exponent).Belongs mantissa exponent := by
  have value := quotient_value 1 (exponent - 2)
  have quarter : (2 : ℚ) ^ exponent = 4 * 2 ^ (exponent - 2) := by
    rw [zpow_sub₀ two_ne_zero]
    norm_num
    ring
  rw [Nat.cast_one, one_mul] at value
  constructor
  · simp only [ofFinite]
    rw [depth, quarter, Nat.cast_mul, mul_div_assoc, value, show power 2 52 = 2 ^ 52 from rfl]
    split
    · rw [Nat.cast_sub (by omega)]
      push_cast
      ring
    · rw [Nat.cast_sub (by omega)]
      push_cast
      ring
  · simp only [ofFinite]
    rw [quarter, Nat.cast_mul, mul_div_assoc, value]
    push_cast
    ring
  · simp only [ofFinite]
    rw [quarter, Nat.cast_mul, mul_div_assoc, value]
    push_cast
    ring
  · simp only [ofFinite, beq_iff_eq]
  · exact quotient_denominator_pos 1 (exponent - 2)

variable {i : Interval} {mantissa : Nat} {exponent : Int}

theorem contains_iff (belongs : i.Belongs mantissa exponent) (digits : Nat) (e : Int) :
    i.contains digits e = true ↔ Nearest mantissa exponent (digits * 10 ^ e) := by
  have proper : (0 : ℚ) < i.denominator := by exact_mod_cast belongs.proper
  have scaled : ∃ x scale : Nat, (0 : ℚ) < scale ∧
      (x : ℚ) = digits * 10 ^ e * i.denominator * scale ∧
      i.contains digits e = if i.closed then i.low * scale ≤ x && x ≤ i.high * scale
        else i.low * scale < x && x < i.high * scale := by
    unfold contains
    by_cases negative : e < 0
    · refine ⟨digits * i.denominator, power 10 e.natAbs, ?_, ?_, by rw [if_pos negative]⟩
      · rw [power_cast]; positivity
      · rw [zpow_of_neg negative, power_cast]
        push_cast
        field_simp
    · refine ⟨digits * power 10 e.natAbs * i.denominator, 1, by norm_num, ?_, by rw [if_neg negative]⟩
      rw [zpow_of_nonneg negative]
      push_cast [power_cast]
      ring
  obtain ⟨x, scale, positive, value, same⟩ := scaled
  have below : i.low * scale ≤ x ↔
      (mantissa - depth mantissa exponent) * 2 ^ exponent ≤ digits * 10 ^ e := by
    rw [← belongs.low, div_le_iff₀ proper, ← mul_le_mul_iff_left₀ positive, ← value]
    exact_mod_cast Iff.rfl
  have above : x ≤ i.high * scale ↔ digits * 10 ^ e ≤ ((mantissa : ℚ) + 1 / 2) * 2 ^ exponent := by
    rw [← belongs.high, le_div_iff₀ proper, ← mul_le_mul_iff_left₀ positive, ← value]
    exact_mod_cast Iff.rfl
  have below' : i.low * scale < x ↔
      (mantissa - depth mantissa exponent) * 2 ^ exponent < digits * 10 ^ e := by
    rw [← belongs.low, div_lt_iff₀ proper, ← mul_lt_mul_iff_left₀ positive, ← value]
    exact_mod_cast Iff.rfl
  have above' : x < i.high * scale ↔ digits * 10 ^ e < ((mantissa : ℚ) + 1 / 2) * 2 ^ exponent := by
    rw [← belongs.high, lt_div_iff₀ proper, ← mul_lt_mul_iff_left₀ positive, ← value]
    exact_mod_cast Iff.rfl
  rw [same]
  constructor
  · intro inside
    cases closed : i.closed with
    | true =>
      simp only [closed, if_true, Bool.and_eq_true, decide_eq_true_eq, below, above] at inside
      exact ⟨inside.1, inside.2, .inl (belongs.closed.mp closed)⟩
    | false =>
      simp only [closed, Bool.false_eq_true, if_false, Bool.and_eq_true, decide_eq_true_eq, below',
        above'] at inside
      exact ⟨inside.1.le, inside.2.le, .inr inside⟩
  · rintro ⟨low, high, inside⟩
    cases closed : i.closed with
    | true => simp [below.mpr low, above.mpr high]
    | false =>
      rcases inside with even | ⟨low', high'⟩
      · rw [belongs.closed.mpr even] at closed
        cases closed
      · simp [below'.mpr low', above'.mpr high']

theorem under_spec (belongs : i.Belongs mantissa exponent) (e : Int) :
    ((i.under e).1 : ℚ) * 10 ^ e ≤ mantissa * 2 ^ exponent ∧
      ((i.under e).2 = true → ((i.under e).1 + 1 / 2 : ℚ) * 10 ^ e ≤ mantissa * 2 ^ exponent) ∧
      ((i.under e).2 = false → mantissa * 2 ^ exponent ≤ ((i.under e).1 + 1 / 2 : ℚ) * 10 ^ e) ∧
      mantissa * 2 ^ exponent < ((i.under e).1 + 1 : ℚ) * 10 ^ e := by
  have proper : (0 : ℚ) < i.denominator := by exact_mod_cast belongs.proper
  have unit := ten_zpow_pos e
  have scaled : ∃ n d : Nat, 0 < d ∧ (n : ℚ) / d = mantissa * 2 ^ exponent / 10 ^ e ∧
      i.under e = (n / d, d < 2 * (n % d) || (d == 2 * (n % d) && n / d % 2 == 1)) := by
    rw [← belongs.value]
    unfold under
    by_cases negative : e < 0
    · refine ⟨i.value * power 10 e.natAbs, i.denominator, belongs.proper, ?_,
        by rw [if_pos negative]⟩
      rw [zpow_of_neg negative]
      push_cast [power_cast]
      field_simp
    · refine ⟨i.value, i.denominator * power 10 e.natAbs,
        Nat.mul_pos belongs.proper (Nat.pow_pos (by decide)), ?_, by rw [if_neg negative]⟩
      rw [zpow_of_nonneg negative]
      push_cast [power_cast]
      field_simp
  obtain ⟨n, d, positive, value, same⟩ := scaled
  have positive' : (0 : ℚ) < d := by exact_mod_cast positive
  have split : (n : ℚ) = d * (n / d : Nat) + (n % d : Nat) := by
    exact_mod_cast (Nat.div_add_mod n d).symm
  have rest : ((n % d : Nat) : ℚ) < d := by exact_mod_cast Nat.mod_lt n positive
  have nonneg : (0 : ℚ) ≤ (n % d : Nat) := Nat.cast_nonneg _
  rw [same]
  dsimp only
  rw [← le_div_iff₀ unit, ← le_div_iff₀ unit, ← div_le_iff₀ unit, ← div_lt_iff₀ unit, ← value,
    le_div_iff₀ positive', le_div_iff₀ positive', div_le_iff₀ positive', div_lt_iff₀ positive']
  refine ⟨by linarith, fun up => ?_, fun down => ?_, by linarith⟩
  · have half : d ≤ 2 * (n % d) := by
      simp only [Bool.or_eq_true, decide_eq_true_eq, Bool.and_eq_true, beq_iff_eq] at up
      omega
    have half' : (d : ℚ) ≤ 2 * (n % d : Nat) := by exact_mod_cast half
    linarith
  · have half : 2 * (n % d) ≤ d := by
      simp only [Bool.or_eq_false_iff, decide_eq_false_iff_not, not_lt] at down
      exact down.1
    have half' : (2 * (n % d : Nat) : ℚ) ≤ d := by exact_mod_cast half
    linarith

theorem value_between (some : 0 < mantissa) (negative : Bool)
    (canonical : (Binary64.finite negative mantissa exponent).IsCanonical) :
    (2 : ℚ) ^ leastExponent ≤ mantissa * 2 ^ exponent ∧
      mantissa * 2 ^ exponent < (2 : ℚ) ^ (1024 : Int) := by
  obtain ⟨small, least, greatest, _⟩ := canonical
  have some' : (1 : ℚ) ≤ mantissa := by exact_mod_cast some
  have small' : (mantissa : ℚ) < 2 ^ (53 : Int) := by exact_mod_cast small
  constructor
  · calc (2 : ℚ) ^ leastExponent ≤ 2 ^ exponent := zpow_le_zpow_right₀ one_le_two least
      _ ≤ mantissa * 2 ^ exponent := le_mul_of_one_le_left (two_zpow_pos _).le some'
  · calc mantissa * 2 ^ exponent < (2 : ℚ) ^ (53 : Int) * 2 ^ exponent :=
          mul_lt_mul_of_pos_right small' (two_zpow_pos _)
      _ = 2 ^ (53 + exponent) := (zpow_add₀ two_ne_zero _ _).symm
      _ ≤ 2 ^ (1024 : Int) := by
          apply zpow_le_zpow_right₀ one_le_two
          have bound : greatestExponent = 971 := rfl
          omega

/-- The guess of a magnitude is off by less than two. -/
theorem guess_spec {v : ℚ} {size : Int} (above : (2 : ℚ) ^ (size - 1) < v)
    (below : v < 2 ^ (size + 1)) (least : -2000 < size) (greatest : size < 2000) :
    (10 : ℚ) ^ (size * 30103 / 100000 - 2) ≤ v ∧ v < 10 ^ (size * 30103 / 100000 + 2) := by
  constructor
  · exact le_trans (ten_zpow_le_two (by omega) (by omega)) above.le
  · exact lt_of_lt_of_le below (two_zpow_le_ten (by omega) (by omega))

theorem reaches_iff (belongs : i.Belongs mantissa exponent) (k : Int) :
    (if k < 0 then decide (i.denominator ≤ i.value * power 10 k.natAbs)
      else decide (i.denominator * power 10 k.natAbs ≤ i.value)) = true ↔
        (10 : ℚ) ^ k ≤ mantissa * 2 ^ exponent := by
  have proper : (0 : ℚ) < i.denominator := by exact_mod_cast belongs.proper
  rw [← belongs.value, le_div_iff₀ proper]
  split
  · next negative =>
    have cast : ((10 : ℚ) ^ k.natAbs * i.value) = ((i.value * power 10 k.natAbs : Nat) : ℚ) := by
      push_cast [power_cast]
      ring
    rw [decide_eq_true_eq, zpow_of_neg negative, inv_mul_le_iff₀ (by positivity), cast]
    exact_mod_cast Iff.rfl
  · next nonneg =>
    have cast : ((10 : ℚ) ^ k.natAbs * i.denominator) =
        ((i.denominator * power 10 k.natAbs : Nat) : ℚ) := by
      push_cast [power_cast]
      ring
    rw [decide_eq_true_eq, zpow_of_nonneg nonneg, cast]
    exact_mod_cast Iff.rfl

theorem magnitude_spec (belongs : i.Belongs mantissa exponent) (some : 0 < mantissa) (negative : Bool)
    (canonical : (Binary64.finite negative mantissa exponent).IsCanonical) :
    (10 : ℚ) ^ (i.magnitude - 1) ≤ mantissa * 2 ^ exponent ∧
      mantissa * 2 ^ exponent < (10 : ℚ) ^ i.magnitude := by
  obtain ⟨least, greatest⟩ := value_between some negative canonical
  have positive : (0 : ℚ) < mantissa * 2 ^ exponent := lt_of_lt_of_le (two_zpow_pos _) least
  have value_pos : 0 < i.value := by
    rcases Nat.eq_zero_or_pos i.value with none | more
    · rw [← belongs.value, none] at positive
      simp at positive
    · exact more
  obtain ⟨above, below⟩ := quotient_between value_pos belongs.proper
  rw [belongs.value] at above below
  have order := (zpow_lt_zpow_iff_right₀ (one_lt_two : (1 : ℚ) < 2)).mp (above.trans greatest)
  have order' := (zpow_lt_zpow_iff_right₀ (one_lt_two : (1 : ℚ) < 2)).mp (lt_of_le_of_lt least below)
  have lowest : leastExponent = -1074 := rfl
  obtain ⟨under, beyond⟩ := guess_spec above below (by omega) (by omega)
  unfold magnitude
  simp only [reaches_iff belongs]
  generalize ((i.value.log2 : Int) - i.denominator.log2) * 30103 / 100000 = g at under beyond
  generalize (mantissa : ℚ) * 2 ^ exponent = v at under beyond
  split
  · next reached =>
    rw [show g + 2 - 1 = g + 1 by omega]
    exact ⟨reached, beyond⟩
  · next short =>
    split
    · next reached =>
      rw [Int.add_sub_cancel]
      exact ⟨reached, not_le.mp short⟩
    · next short =>
      split
      · next reached => exact ⟨reached, not_le.mp short⟩
      · next short =>
        rw [show g - 1 - 1 = g - 2 by omega]
        exact ⟨under, not_le.mp short⟩

/-- On the grid of seventeen digits the nearest point is in the interval. -/
theorem finest_contains (belongs : i.Belongs mantissa exponent) (some : 0 < mantissa)
    (negative : Bool) (canonical : (Binary64.finite negative mantissa exponent).IsCanonical)
    {near : Nat} (close : |(near : ℚ) * 10 ^ (i.magnitude - 17) - mantissa * 2 ^ exponent| ≤
      1 / 2 * 10 ^ (i.magnitude - 17)) : i.contains near (i.magnitude - 17) = true := by
  rw [contains_iff belongs]
  obtain ⟨large, _⟩ := magnitude_spec belongs some negative canonical
  have unit := two_zpow_pos exponent
  have grid := ten_zpow_pos (i.magnitude - 17)
  have tens : (10 : ℚ) ^ (i.magnitude - 1) = 10 ^ 16 * 10 ^ (i.magnitude - 17) := by
    rw [← zpow_natCast, ← zpow_add₀ (by norm_num)]
    congr 1
    push_cast
    ring
  rw [tens] at large
  rw [abs_le] at close
  obtain ⟨low, high⟩ := close
  have some' : (1 : ℚ) ≤ mantissa := by exact_mod_cast some
  have small : (mantissa : ℚ) ≤ 2 ^ 53 := by exact_mod_cast canonical.1.le
  -- Half of the distance between two points is less than the depth of the interval.
  have fine : 1 / 2 * (10 : ℚ) ^ (i.magnitude - 17) < depth mantissa exponent * 2 ^ exponent := by
    unfold depth
    split
    · next edge =>
      have same : (mantissa : ℚ) = 2 ^ 52 := by exact_mod_cast edge.1
      rw [same] at large
      linarith
    · have most : (mantissa : ℚ) * 2 ^ exponent ≤ 2 ^ 53 * 2 ^ exponent :=
        mul_le_mul_of_nonneg_right small unit.le
      linarith
  have depth := mul_le_mul_of_nonneg_right (depth_le mantissa exponent) unit.le
  refine ⟨by linarith, by linarith, .inr ⟨by linarith, by linarith⟩⟩

/-- A search over grids ends with a point in the interval, on a grid of seventeen digits at most. -/
theorem search_contains (belongs : i.Belongs mantissa exponent) (some : 0 < mantissa)
    (negative : Bool) (canonical : (Binary64.finite negative mantissa exponent).IsCanonical)
    (more : Nat) : ∀ count : Nat, count + more = 17 →
      i.contains (i.search i.magnitude count (more + 1)).1 (i.search i.magnitude count (more + 1)).2 =
        true ∧ i.magnitude - 17 ≤ (i.search i.magnitude count (more + 1)).2 := by
  induction more with
  | zero =>
    intro count finest
    obtain ⟨under, up, down, beyond⟩ := under_spec belongs (i.magnitude - 17)
    have same : ((count : Nat) : Int) = 17 := by omega
    have grid := ten_zpow_pos (i.magnitude - 17)
    unfold search
    simp only [same]
    cases upper : (i.under (i.magnitude - 17)).2 with
    | true =>
      have near := up upper
      have inside : i.contains ((i.under (i.magnitude - 17)).1 + 1) (i.magnitude - 17) = true := by
        apply finest_contains belongs some negative canonical
        push_cast
        rw [abs_le]
        exact ⟨by linarith, by linarith⟩
      simp [inside]
    | false =>
      have near := down upper
      have inside : i.contains (i.under (i.magnitude - 17)).1 (i.magnitude - 17) = true := by
        apply finest_contains belongs some negative canonical
        rw [abs_le]
        exact ⟨by linarith, by linarith⟩
      simp [inside]
  | succ more ih =>
    intro count coarse
    obtain ⟨near, far, step⟩ : ∃ near far, i.search i.magnitude count (more + 1 + 1) =
        if i.contains near (i.magnitude - count) then (near, i.magnitude - count)
        else if i.contains far (i.magnitude - count) then (far, i.magnitude - count)
        else i.search i.magnitude (count + 1) (more + 1) := ⟨_, _, rfl⟩
    rw [step]
    split
    · next inside => exact ⟨inside, by dsimp only; omega⟩
    · split
      · next inside => exact ⟨inside, by dsimp only; omega⟩
      · exact ih (count + 1) (by omega)

end Interval

theorem drop_zeros_spec (fuel : Nat) : ∀ (n : Nat) (e : Int),
    ((dropZeros fuel n e).1 : ℚ) * 10 ^ (dropZeros fuel n e).2 = n * 10 ^ e ∧
      e ≤ (dropZeros fuel n e).2 := by
  induction fuel with
  | zero => exact fun n e => ⟨rfl, Int.le_refl e⟩
  | succ fuel ih =>
    intro n e
    rw [dropZeros]
    split
    · next ends =>
      obtain ⟨value, more⟩ := ih (n / 10) (e + 1)
      have tens : ((n / 10 : Nat) : ℚ) * 10 = n := by
        exact_mod_cast Nat.div_mul_cancel (Nat.dvd_of_mod_eq_zero ends.1)
      refine ⟨?_, by omega⟩
      rw [value, zpow_add_one₀ (by norm_num), ← tens]
      ring
    · exact ⟨rfl, Int.le_refl e⟩

theorem decimal_nearest {mantissa : Nat} {exponent : Int} (some : 0 < mantissa) (negative : Bool)
    (canonical : (Binary64.finite negative mantissa exponent).IsCanonical) :
    Nearest mantissa exponent ((decimal mantissa exponent).1 * 10 ^ (decimal mantissa exponent).2) ∧
      -350 ≤ (decimal mantissa exponent).2 := by
  have belongs := Interval.of_finite_belongs some exponent
  unfold decimal
  generalize Interval.ofFinite mantissa exponent = i at belongs
  obtain ⟨inside, fine⟩ : i.contains (i.search i.magnitude 1 17).1 (i.search i.magnitude 1 17).2 = true ∧
      i.magnitude - 17 ≤ (i.search i.magnitude 1 17).2 :=
    Interval.search_contains belongs some negative canonical 16 1 rfl
  obtain ⟨value, more⟩ := drop_zeros_spec 18 (i.search i.magnitude 1 17).1 (i.search i.magnitude 1 17).2
  rw [Interval.contains_iff belongs] at inside
  dsimp only
  rw [value]
  refine ⟨inside, ?_⟩
  obtain ⟨_, above⟩ := Interval.magnitude_spec belongs some negative canonical
  obtain ⟨least, _⟩ := Interval.value_between some negative canonical
  have tens : (10 : ℚ) ^ (-324 : Int) ≤ 2 ^ leastExponent :=
    ten_zpow_le_two (by decide) (by decide)
  have order := (zpow_lt_zpow_iff_right₀ (by norm_num : (1 : ℚ) < 10)).mp
    (lt_of_le_of_lt (tens.trans least) above)
  omega

end ApiSchema.Shortest

namespace ApiSchema.Binary64

theorem size_between {c : Nat} {k : Int} (some : 0 < c) (small : (c : ℚ) * 10 ^ k ≤ 2 ^ (1024 : Int))
    (least : -400 ≤ k) :
    -400 ≤ ((digitsOf c).length : Int) + k ∧ ((digitsOf c).length : Int) + k ≤ 400 := by
  have present := digits_of_length_pos c
  have under : (10 : ℚ) ^ (((digitsOf c).length : Int) - 1) ≤ c := by
    rw [← Nat.cast_one, ← Nat.cast_sub present, zpow_natCast]
    exact_mod_cast power_le_of_digits some
  have product : (10 : ℚ) ^ (((digitsOf c).length : Int) - 1 + k) ≤ 10 ^ (309 : Int) := by
    rw [zpow_add₀ (by norm_num)]
    have tens := Shortest.ten_zpow_pos k
    exact (mul_le_mul_of_nonneg_right under tens.le).trans
      (small.trans (Shortest.two_zpow_le_ten (by decide) (by decide)))
  have short := (zpow_le_zpow_iff_right₀ (by norm_num : (1 : ℚ) < 10)).mp product
  omega

theorem of_decimal_nearest {mantissa c : Nat} {exponent k : Int} {negative : Bool}
    (some : 0 < mantissa) (canonical : (finite negative mantissa exponent).IsCanonical)
    (nearest : Nearest mantissa exponent ((c : ℚ) * 10 ^ k)) (least : -400 ≤ k) :
    ofDecimal negative c k = finite negative mantissa exponent := by
  have unit := two_zpow_pos exponent
  have some' : (1 : ℚ) ≤ mantissa := by exact_mod_cast some
  have depth := depth_le mantissa exponent
  have positive : 0 < c := by
    rcases Nat.eq_zero_or_pos c with none | positive
    · have low := nearest.low
      rw [none, Nat.cast_zero, zero_mul] at low
      have more := mul_pos (show (0 : ℚ) < mantissa - Binary64.depth mantissa exponent by linarith) unit
      linarith
    · exact positive
  have small : (c : ℚ) * 10 ^ k ≤ 2 ^ (1024 : Int) := by
    have bound : (mantissa : ℚ) + 1 / 2 ≤ 2 ^ (53 : Int) := by
      have less : mantissa + 1 ≤ 2 ^ 53 := canonical.1
      have less' : ((mantissa + 1 : Nat) : ℚ) ≤ (2 ^ 53 : Nat) := by exact_mod_cast less
      push_cast at less'
      have same : (2 : ℚ) ^ (53 : Int) = 2 ^ 53 := by norm_cast
      linarith
    have greatest : exponent ≤ 971 := canonical.2.2.1
    calc (c : ℚ) * 10 ^ k ≤ (mantissa + 1 / 2) * 2 ^ exponent := nearest.high
      _ ≤ 2 ^ (53 : Int) * 2 ^ exponent := mul_le_mul_of_nonneg_right bound unit.le
      _ = 2 ^ (53 + exponent) := (zpow_add₀ two_ne_zero _ _).symm
      _ ≤ 2 ^ (1024 : Int) := zpow_le_zpow_right₀ one_le_two (by omega)
  obtain ⟨low, high⟩ := size_between positive small least
  unfold ofDecimal
  dsimp only
  rw [if_neg positive.ne', if_neg (by omega), if_neg (by omega)]
  split
  · next below =>
    have proper : 0 < power 10 k.natAbs := Nat.pow_pos (by decide)
    apply of_quotient_nearest negative proper some canonical
    rw [power_cast, div_eq_mul_inv]
    rw [zpow_of_neg below] at nearest
    exact_mod_cast nearest
  · next above =>
    apply of_quotient_nearest negative Nat.one_pos some canonical
    rw [Nat.cast_mul, power_cast, Nat.cast_one, div_one]
    rw [zpow_of_nonneg above] at nearest
    exact_mod_cast nearest

theorem of_decimal_canonical (negative : Bool) (c : Nat) (k : Int) :
    (ofDecimal negative c k).IsCanonical := by
  have none : (zero negative).IsCanonical := ⟨by decide, by decide, by decide, fun _ => rfl⟩
  unfold ofDecimal
  dsimp only
  split
  · exact none
  · split
    · trivial
    · split
      · exact none
      · split
        · exact of_quotient_canonical negative c (Nat.pow_pos (by decide))
        · exact of_quotient_canonical negative _ Nat.one_pos

end ApiSchema.Binary64
