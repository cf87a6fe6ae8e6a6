import AchievementLogic.Number.Shortest
import Mathlib.Algebra.Order.Field.Power
import Mathlib.Data.Rat.Cast.Order
import Mathlib.Tactic.FieldSimp
import Mathlib.Tactic.IntervalCases
import Mathlib.Tactic.Linarith
import Mathlib.Tactic.NormNum
import Mathlib.Tactic.Positivity
import Mathlib.Tactic.Ring

/-!
# The nearest double

A quotient of whole numbers is read as the double in whose interval it lies.  The interval reaches
to the middle between the double and its neighbours, and the last place of a quotient in it is that
of the double, or the one below if the double is a power of two and the quotient is smaller: rounding
then carries into the exponent, which gives the bits of the double again.
-/

namespace AchievementLogic

/-- A power with a whole exponent as a quotient of powers, one of which is 1. -/
theorem zpow_eq_pow_div_pow {base : ℚ} (hbase : base ≠ 0) (exponent : ℤ) :
    base ^ exponent = base ^ exponent.toNat / base ^ (-exponent).toNat := by
  have hsplit : exponent = (exponent.toNat : ℤ) - ((-exponent).toNat : ℤ) := by omega
  conv_lhs => rw [hsplit, zpow_sub₀ hbase, zpow_natCast, zpow_natCast]

theorem two_zpow_pos (exponent : ℤ) : (0 : ℚ) < 2 ^ exponent := zpow_pos (by norm_num) exponent

theorem two_zpow_lt_iff {left right : ℤ} : (2 : ℚ) ^ left < 2 ^ right ↔ left < right :=
  zpow_lt_zpow_iff_right₀ (by norm_num)

namespace Binary64

/-! ## Dividing -/

/-- A whole number that is at most a half away from a quotient is what the quotient is rounded to; a
number that is exactly a half away has to be even. -/
theorem divideToEven_of_close {numerator denominator nearest : ℕ} (hpositive : 0 < denominator)
    (hlow : 2 * (nearest * denominator) ≤ 2 * numerator + denominator)
    (hhigh : 2 * numerator ≤ 2 * (nearest * denominator) + denominator)
    (htie : nearest % 2 = 1 → 2 * (nearest * denominator) < 2 * numerator + denominator ∧
      2 * numerator < 2 * (nearest * denominator) + denominator) :
    divideToEven numerator denominator = nearest := by
  have hsplit := Nat.div_add_mod' numerator denominator
  have hless := Nat.mod_lt numerator hpositive
  rw [divideToEven]
  generalize numerator / denominator = quotient at hsplit
  generalize numerator % denominator = remainder at hsplit hless
  have hclose : nearest = quotient ∨ nearest = quotient + 1 := by
    have hle : quotient ≤ nearest := by
      by_contra hlarger
      have hmul := Nat.mul_le_mul_right denominator (Nat.succ_le_of_lt (Nat.not_le.mp hlarger))
      rw [Nat.succ_mul] at hmul
      omega
    have hge : nearest ≤ quotient + 1 := by
      by_contra hsmaller
      have hmul := Nat.mul_le_mul_right denominator (Nat.succ_le_of_lt (Nat.not_le.mp hsmaller))
      rw [Nat.succ_mul, Nat.succ_mul] at hmul
      omega
    omega
  rcases hclose with rfl | rfl
  · split_ifs <;> omega
  · rw [Nat.add_one_mul quotient] at hlow hhigh htie
    split_ifs <;> omega

/-- The number is at most a half away from the quotient, and less than that if it is odd. -/
structure IsNearest (nearest : ℕ) (quotient : ℚ) : Prop where
  low : (nearest : ℚ) - 1 / 2 ≤ quotient
  high : quotient ≤ nearest + 1 / 2
  tie : nearest % 2 = 1 → (nearest : ℚ) - 1 / 2 < quotient ∧ quotient < nearest + 1 / 2

/-- Rounding to even finds the nearest whole number: no other one is at most a half away, and on a
tie no other one is even. -/
theorem IsNearest.divideToEven_eq {numerator denominator nearest : ℕ} (hpositive : 0 < denominator)
    (hnearest : IsNearest nearest (numerator / denominator)) :
    divideToEven numerator denominator = nearest := by
  have hcast : (0 : ℚ) < denominator := Nat.cast_pos.mpr hpositive
  have hlow : 2 * (nearest * denominator) ≤ 2 * numerator + denominator := by
    have hle := (le_div_iff₀ hcast).mp hnearest.low
    have hnat : (2 * (nearest * denominator) : ℚ) ≤ 2 * numerator + denominator := by linarith
    exact_mod_cast hnat
  have hhigh : 2 * numerator ≤ 2 * (nearest * denominator) + denominator := by
    have hle := (div_le_iff₀ hcast).mp hnearest.high
    have hnat : (2 * numerator : ℚ) ≤ 2 * (nearest * denominator) + denominator := by linarith
    exact_mod_cast hnat
  refine divideToEven_of_close hpositive hlow hhigh fun hodd => ?_
  obtain ⟨hbelow, habove⟩ := hnearest.tie hodd
  have hlt := (lt_div_iff₀ hcast).mp hbelow
  have hgt := (div_lt_iff₀ hcast).mp habove
  have hnatBelow : (2 * (nearest * denominator) : ℚ) < 2 * numerator + denominator := by linarith
  have hnatAbove : (2 * numerator : ℚ) < 2 * (nearest * denominator) + denominator := by linarith
  exact ⟨by exact_mod_cast hnatBelow, by exact_mod_cast hnatAbove⟩

/-- Rounding at a place is dividing by its power of two. -/
theorem IsNearest.mantissa_eq {numerator denominator nearest : ℕ} {place : ℤ}
    (hpositive : 0 < denominator)
    (hnearest : IsNearest nearest (numerator / denominator / 2 ^ place)) :
    (if 0 ≤ place then divideToEven numerator (denominator * Nat.pow 2 place.toNat)
      else divideToEven (numerator * Nat.pow 2 (-place).toNat) denominator) = nearest := by
  have hpower := zpow_eq_pow_div_pow (two_ne_zero (α := ℚ)) place
  split
  case isTrue hwhole =>
    apply IsNearest.divideToEven_eq (Nat.mul_pos hpositive (Nat.two_pow_pos _))
    have hzero : (-place).toNat = 0 := by omega
    rw [hzero, pow_zero, div_one] at hpower
    rwa [hpower, div_div, ← Nat.cast_ofNat, ← Nat.cast_pow, ← Nat.cast_mul] at hnearest
  case isFalse hfraction =>
    apply IsNearest.divideToEven_eq hpositive
    have hzero : place.toNat = 0 := by omega
    rw [hzero, pow_zero] at hpower
    rwa [hpower, div_div_eq_mul_div, div_one, div_mul_eq_mul_div, ← Nat.cast_ofNat,
      ← Nat.cast_pow, ← Nat.cast_mul] at hnearest

/-! ## The last place -/

/-- How many binary digits a quotient has before its point, or how many zeros after it, is known from
the digits of its parts up to one. -/
theorem quotient_bounds {numerator denominator : ℕ} (hnumerator : 0 < numerator)
    (hdenominator : 0 < denominator) :
    let estimate : ℤ := (numerator.log2 : ℤ) - denominator.log2
    (2 : ℚ) ^ (estimate - 1) ≤ numerator / denominator ∧
      (numerator : ℚ) / denominator < 2 ^ (estimate + 1) := by
  intro estimate
  have hbounds {number : ℕ} (hpositive : 0 < number) :
      (2 : ℚ) ^ (number.log2 : ℤ) ≤ number ∧ (number : ℚ) < 2 ^ ((number.log2 : ℤ) + 1) := by
    have hle := Nat.log2_self_le hpositive.ne'
    have hlt := Nat.lt_log2_self (n := number)
    constructor
    · rw [zpow_natCast]
      exact_mod_cast hle
    · rw [← Nat.cast_succ, zpow_natCast]
      exact_mod_cast hlt
  obtain ⟨hnumeratorLow, hnumeratorHigh⟩ := hbounds hnumerator
  obtain ⟨hdenominatorLow, hdenominatorHigh⟩ := hbounds hdenominator
  have hcast : (0 : ℚ) < denominator := Nat.cast_pos.mpr hdenominator
  constructor
  · rw [le_div_iff₀ hcast]
    calc (2 : ℚ) ^ (estimate - 1) * denominator
        ≤ 2 ^ (estimate - 1) * 2 ^ ((denominator.log2 : ℤ) + 1) :=
          mul_le_mul_of_nonneg_left hdenominatorHigh.le (two_zpow_pos _).le
      _ = 2 ^ (numerator.log2 : ℤ) := by
          rw [← zpow_add₀ two_ne_zero]
          congr 1
          omega
      _ ≤ numerator := hnumeratorLow
  · rw [div_lt_iff₀ hcast]
    calc (numerator : ℚ) < 2 ^ ((numerator.log2 : ℤ) + 1) := hnumeratorHigh
      _ = 2 ^ (estimate + 1) * 2 ^ (denominator.log2 : ℤ) := by
          rw [← zpow_add₀ two_ne_zero]
          congr 1
          omega
      _ ≤ 2 ^ (estimate + 1) * denominator :=
          mul_le_mul_of_nonneg_left hdenominatorLow (two_zpow_pos _).le

/-- The place at which a quotient has 53 binary digits, or the lowest one. -/
structure IsLastPlace (place : ℤ) (quotient : ℚ) : Prop where
  lowest : -1074 ≤ place
  high : quotient < 2 ^ (place + 53)
  low : place = -1074 ∨ 2 ^ (place + 52) ≤ quotient

/-- A quotient has one last place only. -/
theorem IsLastPlace.unique {left right : ℤ} {quotient : ℚ} (hleft : IsLastPlace left quotient)
    (hright : IsLastPlace right quotient) : left = right := by
  have hle {low high : ℤ} (hlow : IsLastPlace low quotient) (hhigh : IsLastPlace high quotient) :
      high ≤ low := by
    rcases hhigh.low with hlowest | hreached
    · have hleast := hlow.lowest
      omega
    · have hless := two_zpow_lt_iff.mp (hreached.trans_lt hlow.high)
      omega
  exact le_antisymm (hle hright hleft) (hle hleft hright)

/-- A place with 53 digits, or with fewer if it is too low. -/
theorem IsLastPlace.max {place : ℤ} {quotient : ℚ} (hlow : (2 : ℚ) ^ (place + 52) ≤ quotient)
    (hhigh : quotient < 2 ^ (place + 53)) : IsLastPlace (max (-1074) place) quotient where
  lowest := le_max_left _ _
  high := hhigh.trans_le (zpow_le_zpow_right₀ one_le_two (by omega))
  low := by
    rcases le_total place (-1074) with hlowest | hhigher
    · exact .inl (max_eq_left hlowest)
    · rw [max_eq_right hhigher]
      exact .inr hlow

/-- A quotient is compared with a power of two on whole numbers. -/
theorem two_zpow_le_div_iff (numerator : ℕ) {denominator : ℕ} (hdenominator : 0 < denominator)
    (exponent : ℤ) :
    (if 0 ≤ exponent then denominator * Nat.pow 2 exponent.toNat ≤ numerator
      else denominator ≤ numerator * Nat.pow 2 (-exponent).toNat) ↔
      (2 : ℚ) ^ exponent ≤ numerator / denominator := by
  have hcast : (0 : ℚ) < denominator := Nat.cast_pos.mpr hdenominator
  have hpower := zpow_eq_pow_div_pow (two_ne_zero (α := ℚ)) exponent
  rw [le_div_iff₀ hcast, hpower]
  split
  case isTrue hwhole =>
    have hzero : (-exponent).toNat = 0 := by omega
    rw [hzero, pow_zero, div_one, mul_comm]
    exact_mod_cast Iff.rfl
  case isFalse hfraction =>
    have hzero : exponent.toNat = 0 := by omega
    have hpositive : (0 : ℚ) < 2 ^ (-exponent).toNat := by positivity
    rw [hzero, pow_zero, one_div_mul_eq_div, div_le_iff₀ hpositive]
    exact_mod_cast Iff.rfl

/-- Comparing the lengths of numerator and denominator gives the last place up to one, and the
comparison with 53 digits decides which one it is. -/
theorem isLastPlace_lastPlace {numerator denominator : ℕ} (hnumerator : 0 < numerator)
    (hdenominator : 0 < denominator) :
    IsLastPlace (lastPlace numerator denominator) (numerator / denominator) := by
  obtain ⟨hlow, hhigh⟩ := quotient_bounds hnumerator hdenominator
  rw [lastPlace]
  generalize (numerator.log2 : ℤ) - denominator.log2 = estimate at hlow hhigh
  have hreached := two_zpow_le_div_iff numerator hdenominator estimate
  by_cases hlarge : (2 : ℚ) ^ estimate ≤ numerator / denominator
  · rw [if_pos (hreached.mpr hlarge)]
    refine .max ?_ ?_
    · rwa [sub_add_cancel]
    · rwa [show estimate - 52 + 53 = estimate + 1 by ring]
  · rw [if_neg (hreached.not.mpr hlarge)]
    refine .max ?_ ?_
    · rwa [show estimate - 53 + 52 = estimate - 1 by ring]
    · rw [sub_add_cancel]
      exact not_le.mp hlarge

/-! ## The bits of a double -/

/-- A mantissa and an exponent as finite doubles have them: 53 binary digits, or fewer at the lowest
exponent. -/
structure Magnitude.IsDouble (magnitude : Magnitude) : Prop where
  mantissa_lt : magnitude.mantissa < 2 ^ 53
  lowest : -1074 ≤ magnitude.exponent
  highest : magnitude.exponent ≤ 971
  leading : magnitude.exponent = -1074 ∨ 2 ^ 52 ≤ magnitude.mantissa

/-- The bits of a double without its sign. -/
def Magnitude.bits (magnitude : Magnitude) : ℕ :=
  (magnitude.exponent + 1074).toNat * 2 ^ 52 + magnitude.mantissa

theorem Magnitude.IsDouble.bits_lt {magnitude : Magnitude} (hdouble : magnitude.IsDouble) :
    magnitude.bits < infinityBits := by
  have hhighest := hdouble.highest
  have hmantissa := hdouble.mantissa_lt
  rw [bits, infinityBits, Nat.pow_eq]
  omega

theorem isDouble_magnitude {bits : UInt64} (hfinite : exponentField bits ≠ 2047) :
    (magnitude bits).IsDouble := by
  have hfield : exponentField bits < 2048 := Nat.mod_lt _ (Nat.two_pow_pos 11)
  have hfraction : fractionField bits < 2 ^ 52 := Nat.mod_lt _ (Nat.two_pow_pos 52)
  rw [magnitude, Nat.pow_eq]
  split
  · exact ⟨by simp only; omega, le_rfl, by norm_num, .inl rfl⟩
  · exact ⟨by simp only; omega, by simp only; omega, by simp only; omega, .inr (by simp only; omega)⟩

/-- The bits of a double are those of its magnitude with its sign in front of them. -/
theorem bits_magnitude (bits : UInt64) :
    (magnitude bits).bits + (if signBit bits then Nat.pow 2 63 else 0) = bits.toNat := by
  have hlt := bits.toNat_lt
  rw [magnitude, signBit, exponentField, fractionField]
  simp only [Nat.pow_eq]
  generalize bits.toNat = number at hlt
  have hsign : (if (number / 2 ^ 63 == 1) = true then 2 ^ 63 else 0) = number / 2 ^ 63 * 2 ^ 63 := by
    have hbit : number / 2 ^ 63 < 2 := by omega
    interval_cases number / 2 ^ 63 <;> rfl
  rw [hsign]
  split
  case isTrue hzero =>
    simp only [Magnitude.bits]
    omega
  case isFalse hnormal =>
    simp only [Magnitude.bits]
    omega

end Binary64

/-! ## The interval of a double -/

/-- So many units lie in the interval. -/
def Decimal.Interval.Covers (interval : Decimal.Interval) (units : ℚ) : Prop :=
  if interval.closed then interval.low ≤ units ∧ units ≤ interval.high
  else interval.low < units ∧ units < interval.high

namespace Binary64

open Decimal (Interval)

variable {mantissa : ℕ} {exponent : ℤ}

/-- The lower end of the interval is half a place below the double, or a quarter of one at a power of
two. -/
theorem low_ofMagnitude (mantissa : ℕ) (exponent : ℤ) :
    4 * (mantissa : ℚ) - 2 ≤ (Interval.ofMagnitude ⟨mantissa, exponent⟩).low ∧
      (mantissa = 2 ^ 52 → -1074 < exponent →
        4 * (mantissa : ℚ) - 1 ≤ (Interval.ofMagnitude ⟨mantissa, exponent⟩).low) := by
  have hhalf : 4 * mantissa ≤ (Interval.ofMagnitude ⟨mantissa, exponent⟩).low + 2 := by
    simp only [Interval.ofMagnitude]
    split <;> omega
  constructor
  · have hcast : (4 * mantissa : ℚ) ≤ (Interval.ofMagnitude ⟨mantissa, exponent⟩).low + 2 := by
      exact_mod_cast hhalf
    linarith
  · intro hpower hhigher
    have hquarter : 4 * mantissa = (Interval.ofMagnitude ⟨mantissa, exponent⟩).low + 1 := by
      simp only [Interval.ofMagnitude, Nat.pow_eq, if_pos (And.intro hpower hhigher)]
      omega
    have hcast : (4 * mantissa : ℚ) = (Interval.ofMagnitude ⟨mantissa, exponent⟩).low + 1 := by
      exact_mod_cast hquarter
    linarith

/-- In the interval of a double the mantissa is the nearest whole number of places. -/
theorem isNearest_of_covers {places : ℚ}
    (hcovers : (Interval.ofMagnitude ⟨mantissa, exponent⟩).Covers (4 * places)) :
    IsNearest mantissa places ∧
      (mantissa = 2 ^ 52 → -1074 < exponent → (mantissa : ℚ) - 1 / 4 ≤ places) := by
  obtain ⟨hhalf, hquarter⟩ := low_ofMagnitude mantissa exponent
  have hhigh : ((Interval.ofMagnitude ⟨mantissa, exponent⟩).high : ℚ) = 4 * mantissa + 2 := by
    simp [Interval.ofMagnitude]
  have hclosed :
      (Interval.ofMagnitude ⟨mantissa, exponent⟩).closed = true ↔ mantissa % 2 = 0 := by
    simp [Interval.ofMagnitude]
  rw [Interval.Covers] at hcovers
  split at hcovers
  case isTrue heven =>
    rw [hclosed] at heven
    obtain ⟨hlow, hup⟩ := hcovers
    refine ⟨⟨by linarith, by linarith, fun hodd => by omega⟩, fun hpower hhigher => ?_⟩
    linarith [hquarter hpower hhigher]
  case isFalse hodd =>
    obtain ⟨hlow, hup⟩ := hcovers
    refine ⟨⟨by linarith, by linarith, fun _ => ⟨by linarith, by linarith⟩⟩,
      fun hpower hhigher => ?_⟩
    linarith [hquarter hpower hhigher]

/-- A quotient has its last place where the double has it in whose interval it lies, if it is not
below a power of two. -/
theorem isLastPlace_of_covers {quotient : ℚ} (hdouble : Magnitude.IsDouble ⟨mantissa, exponent⟩)
    (hreached : exponent = -1074 ∨ (2 : ℚ) ^ (exponent + 52) ≤ quotient)
    (hnearest : IsNearest mantissa (quotient / 2 ^ exponent)) : IsLastPlace exponent quotient where
  lowest := hdouble.lowest
  high := by
    have hmost : (mantissa : ℚ) + 1 ≤ 2 ^ 53 := by exact_mod_cast hdouble.mantissa_lt
    rw [zpow_add₀ two_ne_zero, zpow_ofNat, mul_comm, ← div_lt_iff₀ (two_zpow_pos exponent)]
    linarith [hnearest.high]
  low := hreached

/-- Below a power of two a quotient has a place more than the double, and is rounded up. -/
theorem isNearest_below_power {quotient : ℚ} (hdouble : Magnitude.IsDouble ⟨mantissa, exponent⟩)
    (hlowest : exponent ≠ -1074) (hless : quotient < (2 : ℚ) ^ (exponent + 52))
    (hcovers : (Interval.ofMagnitude ⟨mantissa, exponent⟩).Covers (4 * (quotient / 2 ^ exponent))) :
    mantissa = 2 ^ 52 ∧ IsLastPlace (exponent - 1) quotient ∧
      IsNearest (2 ^ 53) (quotient / 2 ^ (exponent - 1)) := by
  obtain ⟨hnearest, hquarter⟩ := isNearest_of_covers hcovers
  have hunit := two_zpow_pos exponent
  have hleast : 2 ^ 52 ≤ mantissa := hdouble.leading.resolve_left hlowest
  have hhigher : -1074 < exponent := lt_of_le_of_ne hdouble.lowest hlowest.symm
  have hbelow : quotient / 2 ^ exponent < 2 ^ 52 := by
    rwa [div_lt_iff₀ hunit, mul_comm, ← zpow_ofNat, ← zpow_add₀ two_ne_zero]
  have hpower : mantissa = 2 ^ 52 := by
    have hcast : (mantissa : ℚ) < 2 ^ 52 + 1 := by linarith [hnearest.low]
    have hnat : mantissa < 2 ^ 52 + 1 := by exact_mod_cast hcast
    omega
  have hlow : (2 : ℚ) ^ 52 - 1 / 4 ≤ quotient / 2 ^ exponent := by
    have hplaces := hquarter hpower hhigher
    rw [hpower] at hplaces
    exact_mod_cast hplaces
  have htwice : quotient / 2 ^ (exponent - 1) = 2 * (quotient / 2 ^ exponent) := by
    rw [zpow_sub_one₀ two_ne_zero]
    field_simp
  refine ⟨hpower, ⟨by omega, ?_, .inr ?_⟩, ?_⟩
  · rwa [show exponent - 1 + 53 = exponent + 52 by ring]
  · rw [show exponent - 1 + 52 = exponent + 51 by ring, zpow_add₀ two_ne_zero, zpow_ofNat, mul_comm,
      ← le_div_iff₀ hunit]
    linarith
  · rw [htwice]
    exact ⟨by push_cast; linarith, by push_cast; linarith, fun hodd => by norm_num at hodd⟩

/-- A quotient in the interval of a double is rounded to that double. -/
theorem nearestBits_of_covers {numerator denominator : ℕ}
    (hdouble : Magnitude.IsDouble ⟨mantissa, exponent⟩) (hnumerator : 0 < numerator)
    (hdenominator : 0 < denominator)
    (hcovers : (Interval.ofMagnitude ⟨mantissa, exponent⟩).Covers
      (numerator / denominator / 2 ^ (exponent - 2))) :
    nearestBits numerator denominator = Magnitude.bits ⟨mantissa, exponent⟩ := by
  have hplace := isLastPlace_lastPlace hnumerator hdenominator
  have hrounded {place : ℤ} {rounded : ℕ}
      (hlast : IsLastPlace place ((numerator : ℚ) / denominator))
      (hnearest : IsNearest rounded ((numerator : ℚ) / denominator / 2 ^ place))
      (hsame : (place + 1074).toNat * 2 ^ 52 + rounded = Magnitude.bits ⟨mantissa, exponent⟩) :
      nearestBits numerator denominator = Magnitude.bits ⟨mantissa, exponent⟩ := by
    have hfound := hnearest.mantissa_eq hdenominator
    rw [nearestBits, if_neg hnumerator.ne']
    simp only [hplace.unique hlast, hfound]
    rw [Nat.pow_eq, hsame, Nat.min_eq_right hdouble.bits_lt.le]
  have hquarters : (numerator : ℚ) / denominator / 2 ^ (exponent - 2) =
      4 * (numerator / denominator / 2 ^ exponent) := by
    rw [zpow_sub₀ two_ne_zero]
    field_simp
    norm_num
  rw [hquarters] at hcovers
  by_cases hreached : exponent = -1074 ∨ (2 : ℚ) ^ (exponent + 52) ≤ numerator / denominator
  · have hnearest := (isNearest_of_covers hcovers).1
    exact hrounded (isLastPlace_of_covers hdouble hreached hnearest) hnearest rfl
  · obtain ⟨hlowest, hless⟩ := not_or.mp hreached
    obtain ⟨rfl, hlast, hnearest⟩ :=
      isNearest_below_power hdouble hlowest (not_le.mp hless) hcovers
    have hhigher := hdouble.lowest
    refine hrounded hlast hnearest ?_
    simp only [Magnitude.bits] at hhigher ⊢
    omega

end Binary64

end AchievementLogic
