import AchievementLogic.Number.Binary64
import Mathlib

/-!
# Words as doubles

A word is a double exactly: its binary digits are shifted to the front of a mantissa, and nothing is
lost.  Multiplying it by one and adding it to zero give it back without rounding, and so does
truncating it.
-/

namespace AchievementLogic.Binary64

open Float.Model (UnpackedFloat)
open Float.Model.UnpackedFloat (Sign)

/-! ## Full mantissas -/

/-- A mantissa of 53 binary digits, with an exponent that doubles have. -/
structure IsNormal (mantissa : ℕ) (exponent : ℤ) : Prop where
  digits : mantissa.log2 = 52
  lowest : -1074 ≤ exponent
  highest : exponent ≤ 971

namespace IsNormal

variable {mantissa : ℕ} {exponent : ℤ}

theorem pos (hnormal : IsNormal mantissa exponent) : 0 < mantissa := by
  by_contra hzero
  have hdigits := hnormal.digits
  rw [Nat.eq_zero_of_not_pos hzero] at hdigits
  cases hdigits

theorem bounds (hnormal : IsNormal mantissa exponent) :
    2 ^ 52 ≤ mantissa ∧ mantissa < 2 ^ 53 :=
  (Nat.log2_eq_iff hnormal.pos.ne').mp hnormal.digits

/-- The first digit of a full mantissa has no place among the bits. -/
theorem pack_eq (hnormal : IsNormal mantissa exponent) (sign : Sign) :
    UnpackedFloat.pack .binary64 (.finite sign mantissa exponent hnormal.pos) =
      UnpackedFloat.packComponents .binary64 sign (BitVec.ofNat 11 (exponent + 1075).toNat)
        (BitVec.ofNat 52 mantissa) := by
  have hlowest := hnormal.lowest
  have hhighest := hnormal.highest
  have hbiased : (exponent + (1023 : ℕ) + (52 : ℕ)).toNat = (exponent + 1075).toNat := by
    congr 1
    omega
  have hfinite : ¬ 2 ^ 11 ≤ (exponent + (1023 : ℕ) + (52 : ℕ)).toNat + 1 := by omega
  have hdigits : mantissa.log2 + 1 = 53 := by rw [hnormal.digits]
  rw [UnpackedFloat.pack]
  exact (if_neg hfinite).trans ((if_pos hdigits).trans (by rw [← hbiased]; rfl))

/-- What is packed is found again. -/
theorem unpack_pack (hnormal : IsNormal mantissa exponent) (sign : Sign) :
    UnpackedFloat.unpack .binary64
        (UnpackedFloat.pack .binary64 (.finite sign mantissa exponent hnormal.pos)) =
      .finite sign mantissa exponent hnormal.pos := by
  obtain ⟨hlow, hhigh⟩ := hnormal.bounds
  have hlowest := hnormal.lowest
  have hhighest := hnormal.highest
  have hexponent : (BitVec.ofNat 11 (exponent + 1075).toNat).toNat = (exponent + 1075).toNat := by
    rw [BitVec.toNat_ofNat, Nat.mod_eq_of_lt (by omega)]
  have hmantissa : (1#1 ++ BitVec.ofNat 52 mantissa).toNat = mantissa := by
    rw [BitVec.toNat_append, ← Nat.shiftLeft_add_eq_or_of_lt (BitVec.isLt _), BitVec.toNat_ofNat]
    simp only [BitVec.toNat_ofNat, Nat.shiftLeft_eq]
    omega
  have hones : BitVec.ofNat 11 (exponent + 1075).toNat ≠ -1#11 := by
    have hnumber : (-1#11).toNat = 2047 := rfl
    rw [ne_eq, ← BitVec.toNat_inj, hexponent, hnumber]
    omega
  have hzeros : BitVec.ofNat 11 (exponent + 1075).toNat ≠ 0#11 := by
    rw [ne_eq, ← BitVec.toNat_inj, hexponent, BitVec.toNat_zero]
    omega
  rw [hnormal.pack_eq, UnpackedFloat.unpack]
  simp only [UnpackedFloat.unpackMantissa_packComponents,
    UnpackedFloat.unpackExponent_packComponents, UnpackedFloat.unpackSign_packComponents,
    Sign.ofBitVec_toBitVec]
  refine (if_neg hones).trans ((if_neg hzeros).trans ?_)
  have hplace : ((exponent + 1075).toNat : ℤ) - ((1023 : ℕ) + (52 : ℕ)) = exponent := by omega
  -- the mantissa carries a proof that it is positive, so it is not rewritten
  simp only [hexponent]
  congr 1

end IsNormal

/-! ## Rounding what need not be rounded -/

theorem targetExponent_eq (total : ℤ) :
    Float.Model.Format.binary64.targetExponent total = max (total - 53) (-1074) := rfl

/-- Zeros at the end are shifted out without a trace. -/
theorem shiftRight_mul_two_pow (mantissa count : ℕ) :
    UnpackedFloat.ExtendedMantissa.mk (mantissa * 2 ^ count) false false >>> count =
      ⟨mantissa, false, false⟩ := by
  induction count generalizing mantissa with
  | zero => simp [HShiftRight.hShiftRight, Nat.repeat]
  | succ count ih =>
      have hinner := ih (mantissa * 2)
      rw [mul_assoc, ← pow_succ'] at hinner
      change UnpackedFloat.ExtendedMantissa.shiftRightOne
        (UnpackedFloat.ExtendedMantissa.mk (mantissa * 2 ^ (count + 1)) false false >>> count) = _
      rw [hinner]
      simp [UnpackedFloat.ExtendedMantissa.shiftRightOne]

theorem log2_mul_two_pow {number : ℕ} (hpos : 0 < number) (count : ℕ) :
    (number * 2 ^ count).log2 = number.log2 + count := by
  induction count with
  | zero => simp
  | succ count ih =>
      rw [pow_succ', mul_left_comm, Nat.log2_two_mul (by positivity), ih, Nat.add_assoc]

namespace IsNormal

variable {mantissa : ℕ} {exponent : ℤ}

/-- A full mantissa with zeros behind it is rounded to itself. -/
theorem roundWithAccuracy_eq (hnormal : IsNormal mantissa exponent) (sign : Sign) (count : ℕ) :
    UnpackedFloat.roundWithAccuracy .binary64 sign (mantissa * 2 ^ count) (exponent - count)
      .exact = .finite sign mantissa exponent hnormal.pos := by
  have hlowest := hnormal.lowest
  have hshifted (count : ℕ) : UnpackedFloat.shiftToTargetExponent .binary64 (mantissa * 2 ^ count)
      (exponent - count) .exact = (⟨mantissa, false, false⟩, exponent) := by
    have htarget : Float.Model.Format.binary64.targetExponent
        (Float.Model.totalExponent (mantissa * 2 ^ count) (exponent - count)) = exponent := by
      rw [targetExponent_eq, Float.Model.totalExponent, log2_mul_two_pow hnormal.pos, hnormal.digits]
      omega
    have hcount : (exponent - (exponent - count)).toNat = count := by omega
    simp only [UnpackedFloat.shiftToTargetExponent, UnpackedFloat.shiftToExponent, htarget, hcount]
    rw [Prod.mk.injEq]
    exact ⟨shiftRight_mul_two_pow mantissa count, by omega⟩
  have hagain := hshifted 0
  rw [pow_zero, mul_one, Nat.cast_zero, sub_zero] at hagain
  simp only [UnpackedFloat.roundWithAccuracy, hshifted count]
  have hrounded : UnpackedFloat.ExtendedMantissa.roundedMantissa ⟨mantissa, false, false⟩ =
      mantissa := rfl
  simp only [hrounded, hagain]
  exact dif_neg hnormal.pos.ne'

end IsNormal

/-! ## Doubles taken apart -/

/-- Sign, mantissa and exponent of a double, or what it is instead of a number. -/
def parts (number : Float) : UnpackedFloat := number.toModel.unpack

theorem parts_injective : Function.Injective parts := by
  intro left right hsame
  obtain ⟨⟨leftBits, leftValid⟩⟩ := left
  obtain ⟨⟨rightBits, rightValid⟩⟩ := right
  have hbits := (UnpackedFloat.unpack_inj_of_valid leftValid rightValid).mp hsame
  obtain rfl := UInt64.toBitVec_inj.mp hbits
  rfl

theorem parts_one : parts 1.0 = .finite .positive (2 ^ 52) (-52) (by decide) := by
  with_unfolding_all rfl

theorem parts_zero : parts 0.0 = .zero .positive := by with_unfolding_all rfl

theorem parts_mul (left right : Float) :
    parts (left * right) = UnpackedFloat.unpack .binary64
      (UnpackedFloat.pack .binary64 (UnpackedFloat.mul .binary64 (parts left) (parts right))) := rfl

theorem parts_add (left right : Float) :
    parts (left + right) = UnpackedFloat.unpack .binary64
      (UnpackedFloat.pack .binary64 (UnpackedFloat.add .binary64 (parts left) (parts right))) := rfl

theorem lt_iff_parts (left right : Float) :
    left < right ↔ UnpackedFloat.lt (parts left) (parts right) = true :=
  decide_eq_true_iff

/-! ## Words -/

/-- The digits of a word, moved to the front of a mantissa. -/
theorem isNormal_of_word {number : ℕ} (hpos : 0 < number) (hword : number < 2 ^ 32) :
    IsNormal (number * 2 ^ (52 - number.log2)) ((number.log2 : ℤ) - 52) := by
  have hlog : number.log2 < 32 := (Nat.log2_lt hpos.ne').mpr hword
  refine ⟨?_, by omega, by omega⟩
  rw [log2_mul_two_pow hpos]
  omega

/-- As a double a word has its own digits, moved up until there are 53 of them. -/
theorem parts_toFloat {word : UInt32} (hpos : 0 < word.toNat) :
    parts word.toFloat = .finite .positive (word.toNat * 2 ^ (52 - word.toNat.log2))
      ((word.toNat.log2 : ℤ) - 52) (isNormal_of_word hpos word.toNat_lt).pos := by
  have hnormal := isNormal_of_word hpos word.toNat_lt
  have hlog : word.toNat.log2 < 32 := (Nat.log2_lt hpos.ne').mpr word.toNat_lt
  have hround : UnpackedFloat.round .binary64 .positive word.toNat 0 =
      .finite .positive (word.toNat * 2 ^ (52 - word.toNat.log2)) ((word.toNat.log2 : ℤ) - 52)
        hnormal.pos := by
    have htarget : Float.Model.Format.binary64.targetExponent
        (Float.Model.totalExponent word.toNat 0) = (word.toNat.log2 : ℤ) - 52 := by
      rw [targetExponent_eq, Float.Model.totalExponent]
      omega
    have hcount : (0 - ((word.toNat.log2 : ℤ) - 52)).toNat = 52 - word.toNat.log2 := by omega
    have hplace : (0 : ℤ) - (52 - word.toNat.log2 : ℕ) = (word.toNat.log2 : ℤ) - 52 := by omega
    have hexact := hnormal.roundWithAccuracy_eq .positive 0
    rw [pow_zero, mul_one, Nat.cast_zero, sub_zero] at hexact
    simp only [UnpackedFloat.round, htarget, UnpackedFloat.decreaseExponent, hcount, hplace,
      Nat.shiftLeft_eq]
    exact hexact
  have hmodel : parts word.toFloat = UnpackedFloat.unpack .binary64 (UnpackedFloat.pack .binary64
      (UnpackedFloat.normalize .binary64 (word.toNat : ℤ) 0 .positive)) := rfl
  have hgt : compare (word.toNat : ℤ) 0 = .gt := Int.compare_eq_gt.mpr (by omega)
  rw [hmodel, UnpackedFloat.normalize, hgt, Int.toNat_natCast]
  simp only [hround]
  exact hnormal.unpack_pack .positive

theorem parts_toFloat_zero : parts (0 : UInt32).toFloat = .zero .positive := by
  with_unfolding_all rfl

/-- A factor of one shifts the mantissa, and rounding shifts it back. -/
theorem toFloat_mul_one (word : UInt32) : word.toFloat * 1.0 = word.toFloat := by
  apply parts_injective
  rw [parts_mul, parts_one]
  obtain hzero | hpos := Nat.eq_zero_or_pos word.toNat
  · obtain rfl : word = 0 := UInt32.toNat_inj.mp hzero
    rw [parts_toFloat_zero]
    with_unfolding_all rfl
  · have hnormal := isNormal_of_word hpos word.toNat_lt
    rw [parts_toFloat hpos]
    exact (congrArg (fun product => UnpackedFloat.unpack .binary64
      (UnpackedFloat.pack .binary64 product)) (hnormal.roundWithAccuracy_eq .positive 52)).trans
        (hnormal.unpack_pack .positive)

theorem zero_add_toFloat (word : UInt32) : 0.0 + word.toFloat = word.toFloat := by
  apply parts_injective
  rw [parts_add, parts_zero]
  obtain hzero | hpos := Nat.eq_zero_or_pos word.toNat
  · obtain rfl : word = 0 := UInt32.toNat_inj.mp hzero
    rw [parts_toFloat_zero]
    with_unfolding_all rfl
  · rw [parts_toFloat hpos]
    exact (isNormal_of_word hpos word.toNat_lt).unpack_pack .positive

theorem not_toFloat_lt_zero (word : UInt32) : ¬ word.toFloat < 0 := by
  have hzeros : parts 0 = .zero .positive := parts_zero
  rw [lt_iff_parts, hzeros]
  obtain hzero | hpos := Nat.eq_zero_or_pos word.toNat
  · obtain rfl : word = 0 := UInt32.toNat_inj.mp hzero
    rw [parts_toFloat_zero]
    decide
  · rw [parts_toFloat hpos]
    exact Bool.false_ne_true

/-- Truncating shifts the zeros out again that were put behind a word. -/
theorem roundToInt_word {number : ℕ} (hword : number.log2 ≤ 52) :
    UnpackedFloat.roundToInt .positive (number * 2 ^ (52 - number.log2))
      ((number.log2 : ℤ) - 52) = number := by
  have hcount : ((number.log2 : ℤ) - 52).toNat = 0 := by omega
  have hplaces : (0 - ((number.log2 : ℤ) - 52)).toNat = 52 - number.log2 := by omega
  have hshifted := shiftRight_mul_two_pow number (52 - number.log2)
  simp only [UnpackedFloat.roundToInt, UnpackedFloat.decreaseExponent, sub_zero, hcount,
    Nat.shiftLeft_zero, Nat.cast_zero, UnpackedFloat.shiftToExponent, hplaces,
    UnpackedFloat.ExtendedMantissa.ofMantissaAndAccuracy, hshifted]
  rfl

/-- Every word is exact as a double. -/
theorem toUInt64_toFloat (word : UInt32) : word.toFloat.toUInt64 = word.toUInt64 := by
  have hmodel : word.toFloat.toUInt64 = UnpackedFloat.toUInt64 (parts word.toFloat) := rfl
  rw [hmodel]
  obtain hzero | hpos := Nat.eq_zero_or_pos word.toNat
  · obtain rfl : word = 0 := UInt32.toNat_inj.mp hzero
    rw [parts_toFloat_zero]
    rfl
  · have hlog : word.toNat.log2 < 32 := (Nat.log2_lt hpos.ne').mpr word.toNat_lt
    have hlt := word.toNat_lt
    have hround := roundToInt_word (show word.toNat.log2 ≤ 52 by omega)
    rw [parts_toFloat hpos, UnpackedFloat.toUInt64, UnpackedFloat.toInt, hround, Int.toNat_natCast,
      UInt64.ofNatClamp, dif_pos (by simp only [UInt64.size]; omega)]
    apply UInt64.toNat_inj.mp
    rw [UInt64.toNat_ofNatLT, UInt32.toNat_toUInt64]

/-- A word that was taken as a double is truncated to itself. -/
theorem toWord_toFloat (word : UInt32) : toWord word.toFloat = word := by
  have hlt := word.toNat_lt
  have hmin : min word.toUInt64 0x7FFFFFFFFFFFFFFF = word.toUInt64 := by
    apply if_pos
    rw [UInt64.le_iff_toNat_le, UInt32.toNat_toUInt64]
    have hlargest : (0x7FFFFFFFFFFFFFFF : UInt64).toNat = 0x7FFFFFFFFFFFFFFF := rfl
    omega
  rw [toWord, if_neg (not_toFloat_lt_zero word), toUInt64_toFloat, hmin, UInt32.toUInt32_toUInt64]

end AchievementLogic.Binary64
