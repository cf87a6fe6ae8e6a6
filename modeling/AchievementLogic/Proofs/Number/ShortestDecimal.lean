import AchievementLogic.Proofs.Number.NearestDouble

/-!
# The shortest decimal is read back

The search for digits stops at a number in the interval of the double, on a grid that is coarse
enough, and it does stop: after as many digits as are tried the steps of the grid are smaller than the
upper half of the interval.
-/

namespace AchievementLogic.Decimal

open Binary64 (Magnitude)

/-! ## Grids -/

/-- A step of the grid, in quarters of the last place. -/
theorem Grid.step_between (binary decimal : ℤ) :
    ((Grid.between binary decimal).denominator : ℚ) / (Grid.between binary decimal).numerator =
      10 ^ decimal / 2 ^ (binary - 2) := by
  have hten := zpow_eq_pow_div_pow (by norm_num : (10 : ℚ) ≠ 0) decimal
  have htwo := zpow_eq_pow_div_pow (two_ne_zero (α := ℚ)) (binary - 2)
  rw [neg_sub] at htwo
  simp only [Grid.between, Nat.pow_eq]
  push_cast
  rw [hten, htwo]
  field_simp

theorem Grid.between_pos (binary decimal : ℤ) :
    0 < (Grid.between binary decimal).numerator ∧ 0 < (Grid.between binary decimal).denominator := by
  simp only [Grid.between, Nat.pow_eq]
  constructor <;> positivity

namespace Interval

variable {interval : Interval} {grid : Grid}

theorem holds_iff_covers (hpositive : 0 < grid.numerator) (candidate : ℕ) :
    interval.holds grid candidate = true ↔
      interval.Covers (candidate * (grid.denominator / grid.numerator)) := by
  have hcast : (0 : ℚ) < grid.numerator := Nat.cast_pos.mpr hpositive
  rw [holds, Covers]
  split
  · simp only [Bool.and_eq_true, decide_eq_true_eq, ← mul_div_assoc, le_div_iff₀ hcast,
      div_le_iff₀ hcast]
    exact_mod_cast Iff.rfl
  · simp only [Bool.and_eq_true, decide_eq_true_eq, ← mul_div_assoc, lt_div_iff₀ hcast,
      div_lt_iff₀ hcast]
    exact_mod_cast Iff.rfl

/-- What is found lies in the interval. -/
theorem holds_of_nearest? {found : ℕ} (hfound : interval.nearest? grid = some found) :
    interval.holds grid found = true := by
  simp only [nearest?] at hfound
  split at hfound
  case h_1 hbelow habove =>
    rw [Bool.and_eq_true] at hbelow
    obtain rfl := Option.some.inj hfound
    split
    · exact habove
    · exact hbelow.1
  case h_2 hbelow _ =>
    rw [Bool.and_eq_true] at hbelow
    obtain rfl := Option.some.inj hfound
    exact hbelow.1
  case h_3 habove =>
    obtain rfl := Option.some.inj hfound
    exact habove
  case h_4 => cases hfound

/-- On a grid with steps that are smaller than the upper half of the interval, the number above the
value lies in it. -/
theorem isSome_nearest? (hlow : interval.low ≤ interval.value)
    (hhigh : interval.high = interval.value + 2) (hpositive : 0 < grid.denominator)
    (hfine : grid.denominator < 2 * grid.numerator) : (interval.nearest? grid).isSome = true := by
  have hholds : interval.holds grid (interval.value * grid.numerator / grid.denominator + 1) =
      true := by
    have hnumerator : 0 < grid.numerator := by omega
    have hsplit := Nat.div_add_mod' (interval.value * grid.numerator) grid.denominator
    have hless := Nat.mod_lt (interval.value * grid.numerator) hpositive
    have hlowScaled := Nat.mul_le_mul_right grid.numerator hlow
    rw [holds, hhigh, Nat.add_mul interval.value, Nat.add_one_mul]
    generalize interval.value * grid.numerator / grid.denominator * grid.denominator = scaled
      at hsplit
    split
    · simp only [Bool.and_eq_true, decide_eq_true_eq]
      omega
    · simp only [Bool.and_eq_true, decide_eq_true_eq]
      omega
  simp only [nearest?, hholds]
  split <;> simp_all

theorem ofMagnitude_low_le (magnitude : Magnitude) :
    (ofMagnitude magnitude).low ≤ (ofMagnitude magnitude).value := Nat.sub_le _ _

end Interval

/-! ## The first digit -/

/-- With an approximation of the logarithm of 2 a power of ten is bounded by a power of two. -/
theorem ten_zpow_le_two_zpow {small large : ℕ} (hlarge : 0 < large)
    (hlow : 2 ^ large ≤ 10 ^ small) (hhigh : 10 ^ small ≤ 2 ^ (large + 1)) {bits estimate : ℤ}
    (hbits : bits ≤ large) (hestimate : estimate * large ≤ bits * small) :
    (10 : ℚ) ^ estimate ≤ 2 ^ (bits + 1) := by
  have hpower : ((10 : ℚ) ^ small) ^ bits ≤ 2 ^ ((bits + 1) * large) := by
    rcases Int.le_total 0 bits with hpositive | hnegative
    · obtain ⟨count, rfl⟩ := Int.eq_ofNat_of_zero_le hpositive
      have hcast : (10 : ℚ) ^ small ≤ 2 ^ (large + 1) := by exact_mod_cast hhigh
      calc ((10 : ℚ) ^ small) ^ (count : ℤ) = (10 ^ small) ^ count := zpow_natCast _ _
        _ ≤ (2 ^ (large + 1)) ^ count := by gcongr
        _ = 2 ^ (((large + 1) * count : ℕ) : ℤ) := by rw [zpow_natCast, pow_mul]
        _ ≤ 2 ^ (((count : ℤ) + 1) * large) := by
            apply zpow_le_zpow_right₀ one_le_two
            push_cast
            linarith
    · obtain ⟨count, hcount⟩ := Int.eq_ofNat_of_zero_le (Int.neg_nonneg_of_nonpos hnegative)
      obtain rfl : bits = -(count : ℤ) := by omega
      have hcast : (2 : ℚ) ^ large ≤ 10 ^ small := by exact_mod_cast hlow
      calc ((10 : ℚ) ^ small) ^ (-(count : ℤ)) = ((10 ^ small) ^ count)⁻¹ := by
            rw [zpow_neg, zpow_natCast]
        _ ≤ ((2 ^ large) ^ count)⁻¹ := by gcongr
        _ = 2 ^ (-((large * count : ℕ) : ℤ)) := by rw [zpow_neg, zpow_natCast, pow_mul]
        _ ≤ 2 ^ ((-(count : ℤ) + 1) * large) := by
            apply zpow_le_zpow_right₀ one_le_two
            push_cast
            linarith
  have hten : (0 : ℚ) ≤ 10 ^ estimate := zpow_nonneg (by norm_num) estimate
  rw [← pow_le_pow_iff_left₀ hten (two_zpow_pos _).le hlarge.ne']
  calc ((10 : ℚ) ^ estimate) ^ large = 10 ^ (estimate * large) := by
        rw [zpow_mul, zpow_natCast]
    _ ≤ 10 ^ (bits * small) := zpow_le_zpow_right₀ (by norm_num) hestimate
    _ = (10 ^ small) ^ bits := by rw [mul_comm, zpow_mul, zpow_natCast]
    _ ≤ 2 ^ ((bits + 1) * large) := hpower
    _ = (2 ^ (bits + 1)) ^ large := by rw [zpow_mul, zpow_natCast]

/-- A power of ten is compared with a double on whole numbers. -/
theorem ten_zpow_le_iff (magnitude : Magnitude) (decimal : ℤ) :
    Nat.pow 2 decimal.toNat * Nat.pow 5 decimal.toNat * Nat.pow 2 (-magnitude.exponent).toNat ≤
        magnitude.mantissa * Nat.pow 2 magnitude.exponent.toNat * Nat.pow 10 (-decimal).toNat ↔
      (10 : ℚ) ^ decimal ≤ magnitude.mantissa * 2 ^ magnitude.exponent := by
  have hten := zpow_eq_pow_div_pow (by norm_num : (10 : ℚ) ≠ 0) decimal
  have htwo := zpow_eq_pow_div_pow (two_ne_zero (α := ℚ)) magnitude.exponent
  have hpositiveTen : (0 : ℚ) < 10 ^ (-decimal).toNat := by positivity
  have hpositiveTwo : (0 : ℚ) < 2 ^ (-magnitude.exponent).toNat := by positivity
  simp only [Nat.pow_eq]
  rw [hten, htwo, div_le_iff₀ hpositiveTen, ← mul_div_assoc, div_mul_eq_mul_div,
    le_div_iff₀ hpositiveTwo, ← Nat.mul_pow]
  exact_mod_cast Iff.rfl

/-- A double is at least as large as the power of ten of its first digit. -/
theorem ten_zpow_leadingExponent_le {magnitude : Magnitude} (hdouble : magnitude.IsDouble)
    (hpositive : 0 < magnitude.mantissa) :
    (10 : ℚ) ^ leadingExponent magnitude ≤ magnitude.mantissa * 2 ^ magnitude.exponent := by
  have hlog := Nat.log2_self_le hpositive.ne'
  have hbits : (magnitude.mantissa.log2 : ℤ) + magnitude.exponent ≤ 100000 := by
    have hdigits : magnitude.mantissa.log2 < 53 := (Nat.log2_lt hpositive.ne').mpr hdouble.mantissa_lt
    have hhighest := hdouble.highest
    omega
  have hleast : (2 : ℚ) ^ ((magnitude.mantissa.log2 : ℤ) + magnitude.exponent) ≤
      magnitude.mantissa * 2 ^ magnitude.exponent := by
    rw [zpow_add₀ two_ne_zero, zpow_natCast]
    gcongr
    exact_mod_cast hlog
  simp only [leadingExponent, decide_eq_true_eq, ten_zpow_le_iff]
  generalize (magnitude.mantissa.log2 : ℤ) + magnitude.exponent = bits at hbits hleast
  split_ifs with hnext hthis
  · exact hnext
  · exact hthis
  · have hestimate : (bits * 30103).fdiv 100000 * 100000 ≤ bits * 30103 := by
      rw [Int.fdiv_eq_ediv_of_nonneg _ (by norm_num)]
      omega
    generalize (bits * 30103).fdiv 100000 = estimate at hestimate
    have hten : (10 : ℚ) ^ estimate ≤ 2 ^ (bits + 1) :=
      ten_zpow_le_two_zpow (by norm_num : 0 < 100000) (by decide +kernel : 2 ^ 100000 ≤ 10 ^ 30103)
        (by decide +kernel) hbits hestimate
    calc (10 : ℚ) ^ (estimate - 1) = 10 ^ estimate / 10 := zpow_sub_one₀ (by norm_num) _
      _ ≤ 2 ^ (bits + 1) / 10 := by gcongr
      _ = 2 ^ bits * 2 / 10 := by rw [zpow_add_one₀ two_ne_zero]
      _ ≤ 2 ^ bits := by linarith [two_zpow_pos bits]
      _ ≤ magnitude.mantissa * 2 ^ magnitude.exponent := hleast

/-! ## The search -/

/-- The digits that the search ends with were found on their grid, if some can be found on the last
one. -/
theorem nearest?_shortestFrom (magnitude : Magnitude) (interval : Interval) (rounds : ℕ)
    (exponent : ℤ)
    (hlast : (interval.nearest? (Grid.between magnitude.exponent (exponent - rounds))).isSome) :
    interval.nearest? (Grid.between magnitude.exponent
      (shortestFrom magnitude interval (rounds + 1) exponent).exponent) =
        some (shortestFrom magnitude interval (rounds + 1) exponent).digits := by
  induction rounds generalizing exponent with
  | zero =>
      rw [shortestFrom]
      split
      case h_1 digits hfound => exact hfound
      case h_2 hnone =>
        rw [Nat.cast_zero, sub_zero, hnone] at hlast
        cases hlast
  | succ rounds ih =>
      rw [shortestFrom]
      split
      case h_1 digits hfound => exact hfound
      case h_2 hnone =>
        apply ih
        rwa [show exponent - 1 - rounds = exponent - ((rounds + 1 : ℕ) : ℤ) by push_cast; ring]

/-- After eighteen digits the steps of the grid are small. -/
theorem between_fine {magnitude : Magnitude} (hdouble : magnitude.IsDouble)
    (hpositive : 0 < magnitude.mantissa) :
    (Grid.between magnitude.exponent (leadingExponent magnitude - 18)).denominator <
      2 * (Grid.between magnitude.exponent (leadingExponent magnitude - 18)).numerator := by
  have hlead := ten_zpow_leadingExponent_le hdouble hpositive
  have hnumerator : (0 : ℚ) < (Grid.between magnitude.exponent
      (leadingExponent magnitude - 18)).numerator := Nat.cast_pos.mpr (Grid.between_pos _ _).1
  have hstep : (10 : ℚ) ^ (leadingExponent magnitude - 18) / 2 ^ (magnitude.exponent - 2) < 2 := by
    have hmantissa : (magnitude.mantissa : ℚ) < 2 ^ 53 := by exact_mod_cast hdouble.mantissa_lt
    have hunit := two_zpow_pos magnitude.exponent
    rw [zpow_sub₀ (by norm_num : (10 : ℚ) ≠ 0), zpow_sub₀ two_ne_zero, zpow_ofNat, zpow_ofNat,
      div_lt_iff₀ (by positivity), div_lt_iff₀ (by norm_num)]
    calc (10 : ℚ) ^ leadingExponent magnitude
        ≤ magnitude.mantissa * 2 ^ magnitude.exponent := hlead
      _ < 2 ^ 53 * 2 ^ magnitude.exponent := by gcongr
      _ ≤ 2 * (2 ^ magnitude.exponent / 2 ^ 2) * 10 ^ 18 := by linarith
  rw [← Grid.step_between, div_lt_iff₀ hnumerator] at hstep
  exact_mod_cast hstep

/-- The shortest decimal of a double lies in its interval. -/
theorem covers_shortest {magnitude : Magnitude} (hdouble : magnitude.IsDouble)
    (hpositive : 0 < magnitude.mantissa) :
    (Interval.ofMagnitude magnitude).Covers
      ((shortest magnitude).digits * 10 ^ (shortest magnitude).exponent /
        2 ^ (magnitude.exponent - 2)) := by
  have hlast : ((Interval.ofMagnitude magnitude).nearest? (Grid.between magnitude.exponent
      (leadingExponent magnitude + 1 - (19 : ℕ)))).isSome = true := by
    rw [show leadingExponent magnitude + 1 - (19 : ℕ) = leadingExponent magnitude - 18 by
      push_cast; ring]
    exact Interval.isSome_nearest? (Interval.ofMagnitude_low_le magnitude) rfl
      (Grid.between_pos _ _).2 (between_fine hdouble hpositive)
  have hfound := nearest?_shortestFrom magnitude (Interval.ofMagnitude magnitude) 19
    (leadingExponent magnitude + 1) hlast
  have hholds := Interval.holds_of_nearest? hfound
  rw [Interval.holds_iff_covers (Grid.between_pos _ _).1, Grid.step_between, ← mul_div_assoc]
    at hholds
  exact hholds

/-- The interval of a double that is not zero contains no zero. -/
theorem pos_of_covers {magnitude : Magnitude} (hpositive : 0 < magnitude.mantissa) {units : ℚ}
    (hcovers : (Interval.ofMagnitude magnitude).Covers units) : 0 < units := by
  have hlow := (Binary64.low_ofMagnitude magnitude.mantissa magnitude.exponent).1
  have hleast : (1 : ℚ) ≤ magnitude.mantissa := by exact_mod_cast hpositive
  rw [Interval.Covers] at hcovers
  split at hcovers
  · linarith [hcovers.1]
  · linarith [hcovers.1]

end AchievementLogic.Decimal
