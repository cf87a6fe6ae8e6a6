import AchievementLogic.Proofs.Number.ShortestDecimal
import AchievementLogic.Proofs.Text.Fractions
import Mathlib

/-!
# Reading doubles that were written

The text of a finite double is a decimal fraction.  Positional notation writes the shortest decimal
without a change of its value, so what is read again lies in the interval of the double, and reading
rounds it to that double.
-/

namespace AchievementLogic

open Text

/-! ## Positional notation -/

namespace Decimal

/-- Digits without the zeros at their end. -/
theorem exists_dropZeros {digits : List ℕ} (hdigits : ∀ digit ∈ digits, digit < 10) :
    ∃ kept count, digits = kept ++ List.replicate count 0 ∧
      ((digits.map Nat.digitChar).reverse.dropWhile (· == '0')).reverse =
        kept.map Nat.digitChar := by
  let isZero (digit : ℕ) : Bool := Nat.digitChar digit == '0'
  have hzeros : digits.reverse.takeWhile isZero =
      List.replicate (digits.reverse.takeWhile isZero).length 0 := by
    apply List.eq_replicate_of_mem
    intro digit hmem
    have hlt := hdigits digit (List.mem_reverse.mp (List.takeWhile_sublist _ |>.subset hmem))
    have hshown := List.mem_takeWhile_imp hmem
    simp only [isZero, beq_iff_eq] at hshown
    interval_cases digit <;> first | rfl | cases hshown
  refine ⟨(digits.reverse.dropWhile isZero).reverse,
    (digits.reverse.takeWhile isZero).length, ?_, ?_⟩
  · rw [← List.reverse_inj, List.reverse_append, List.reverse_replicate, List.reverse_reverse,
      ← hzeros, List.takeWhile_append_dropWhile]
  · rw [← List.map_reverse, List.dropWhile_map, ← List.map_reverse]
    rfl

/-- Digits are written as their letters. -/
theorem toList_toString (number : ℕ) :
    ∃ digits, (toString number).toList = digits.map Nat.digitChar ∧ digits ≠ [] ∧
      (∀ digit ∈ digits, digit < 10) ∧ numberOf 10 digits = number := by
  obtain ⟨digits, htext, hne, hlt, hnumber⟩ := exists_toDigits (by decide : 1 < 10) number
  refine ⟨digits, ?_, hne, hlt, hnumber⟩
  rw [Nat.toString_eq_ofList_toDigits, String.toList_ofList, htext]

theorem toList_pushn (text : String) (letter : Char) (count : ℕ) :
    (text.pushn letter count).toList = text.toList ++ List.replicate count letter := by
  rw [String.pushn_eq_repeat_push]
  induction count with
  | zero => simp [Nat.repeat]
  | succ count ih =>
      rw [Nat.repeat, String.toList_push, ih, List.replicate_succ', List.append_assoc]

theorem bytesOf_of_toList {text : String} {digits : List ℕ}
    (htext : text.toList = digits.map Nat.digitChar) (hdigits : ∀ digit ∈ digits, digit < 10) :
    bytesOf text = digits.map digitByte := by
  rw [← String.ofList_toList (s := text), htext]
  exact bytesOf_digitChars fun digit hmem => by have := hdigits digit hmem; omega

theorem lt_ten_of_mem_replicate_zero {count digit : ℕ} (hmem : digit ∈ List.replicate count 0) :
    digit < 10 := by
  rw [List.eq_of_mem_replicate hmem]
  decide

/-- A whole number is written without a point. -/
theorem exists_positional_of_nonneg {number : ℕ} (count : ℕ) (negative : Bool) :
    ∃ fraction : Fraction, fraction.negative = negative ∧
      bytesOf (Digits.positional ⟨number, count⟩) =
        fraction.whole.map digitByte ++ fraction.placeBytes ∧
      (numberOf 10 (fraction.whole ++ fraction.places) : ℚ) / 10 ^ fraction.places.length =
        number * 10 ^ count := by
  obtain ⟨digits, htext, hne, hlt, rfl⟩ := toList_toString number
  have hall : ∀ digit ∈ digits ++ List.replicate count 0, digit < 10 :=
    List.forall_mem_append.mpr ⟨hlt, fun _ => lt_ten_of_mem_replicate_zero⟩
  refine ⟨⟨negative, digits ++ List.replicate count 0, [], by simp [hne], by simpa using hall⟩,
    rfl, ?_, ?_⟩
  · have hletters : (Digits.positional ⟨numberOf 10 digits, count⟩).toList =
        (digits ++ List.replicate count 0).map Nat.digitChar := by
      simp only [Digits.positional, Int.natCast_nonneg, if_true, Int.toNat_natCast, toList_pushn,
        htext, List.map_append, List.map_replicate]
      rfl
    simp [bytesOf_of_toList hletters hall, Fraction.placeBytes]
  · simp [numberOf_append_replicate_zero]

/-- A number with fewer digits than places gets zeros in front. -/
theorem exists_padded (number places : ℕ) :
    ∃ padded : List ℕ,
      (if (toString number).length ≤ places then
          String.ofList (List.replicate (places + 1 - (toString number).length) '0') ++
            toString number
        else toString number).toList = padded.map Nat.digitChar ∧
      places < padded.length ∧ (∀ digit ∈ padded, digit < 10) ∧ numberOf 10 padded = number := by
  obtain ⟨digits, htext, -, hlt, rfl⟩ := toList_toString number
  have hlength : (toString (numberOf 10 digits)).length = digits.length := by
    rw [← String.length_toList, htext, List.length_map]
  refine ⟨List.replicate (places + 1 - digits.length) 0 ++ digits, ?_, ?_, ?_,
    numberOf_replicate_zero_append _ _ _⟩
  · rw [hlength]
    split
    case isTrue =>
      rw [String.toList_append, String.toList_ofList, htext, List.map_append, List.map_replicate]
      rfl
    case isFalse hmany =>
      rw [htext, show places + 1 - digits.length = 0 by omega, List.replicate_zero,
        List.nil_append]
  · rw [List.length_append, List.length_replicate]
    omega
  · exact List.forall_mem_append.mpr ⟨fun _ => lt_ten_of_mem_replicate_zero, hlt⟩

/-- Digits in front of the point and behind it, and the zeros at the end, which are left out. -/
theorem exists_split {padded : List ℕ} (hdigits : ∀ digit ∈ padded, digit < 10) {places : ℕ}
    (hlong : places < padded.length) :
    ∃ whole kept zeros, padded = (whole ++ kept) ++ List.replicate zeros 0 ∧ whole ≠ [] ∧
      kept.length + zeros = places ∧
      (padded.map Nat.digitChar).take (padded.length - places) = whole.map Nat.digitChar ∧
      (((padded.map Nat.digitChar).drop (padded.length - places)).reverse.dropWhile
        (· == '0')).reverse = kept.map Nat.digitChar := by
  have hbehind : ∀ digit ∈ padded.drop (padded.length - places), digit < 10 :=
    fun digit hmem => hdigits digit (List.mem_of_mem_drop hmem)
  obtain ⟨kept, zeros, hplaces, hkept⟩ := exists_dropZeros hbehind
  refine ⟨padded.take (padded.length - places), kept, zeros, ?_, ?_, ?_, ?_, ?_⟩
  · rw [List.append_assoc, ← hplaces, List.take_append_drop]
  · rw [← List.length_pos_iff, List.length_take]
    omega
  · have hdropped := congrArg List.length hplaces
    rw [List.length_drop, List.length_append, List.length_replicate] at hdropped
    omega
  · rw [List.map_take]
  · rw [← List.map_drop, hkept]

/-- Below one and between whole numbers the point stands in front of the places, and the zeros at
their end are left out. -/
theorem exists_positional_of_neg {number : ℕ} (count : ℕ) (negative : Bool) :
    ∃ fraction : Fraction, fraction.negative = negative ∧
      bytesOf (Digits.positional ⟨number, Int.negSucc count⟩) =
        fraction.whole.map digitByte ++ fraction.placeBytes ∧
      (numberOf 10 (fraction.whole ++ fraction.places) : ℚ) / 10 ^ fraction.places.length =
        number / 10 ^ (count + 1) := by
  obtain ⟨padded, hletters, hlong, hdigits, hnumber⟩ := exists_padded number (count + 1)
  obtain ⟨whole, kept, zeros, hsplit, hne, hcount, hwhole, hkept⟩ := exists_split hdigits hlong
  have hshown : ∀ digit ∈ whole ++ kept, digit < 10 := fun digit hmem =>
    hdigits digit (by rw [hsplit]; exact List.mem_append_left _ hmem)
  refine ⟨⟨negative, whole, kept, hne, hshown⟩, rfl, ?_, ?_⟩
  · have htext : Digits.positional ⟨number, Int.negSucc count⟩ =
        if kept.isEmpty then String.ofList (whole.map Nat.digitChar)
        else String.ofList (whole.map Nat.digitChar) ++ "." ++
          String.ofList (kept.map Nat.digitChar) := by
      have hplaces : (-(Int.negSucc count)).toNat = count + 1 := rfl
      rw [Digits.positional, if_neg (Int.not_le.mpr (Int.negSucc_lt_zero count))]
      simp only [hplaces]
      generalize (if (toString number).length ≤ count + 1 then _ else _) = text at hletters
      have hlength : text.length = padded.length := by
        rw [← String.length_toList, hletters, List.length_map]
      rw [hlength, hletters, hwhole, hkept, List.isEmpty_map]
    obtain ⟨hwholeDigits, hkeptDigits⟩ := List.forall_mem_append.mp hshown
    have hwholeBytes : bytesOf (String.ofList (whole.map Nat.digitChar)) = whole.map digitByte :=
      bytesOf_of_toList String.toList_ofList hwholeDigits
    have hkeptBytes : bytesOf (String.ofList (kept.map Nat.digitChar)) = kept.map digitByte :=
      bytesOf_of_toList String.toList_ofList hkeptDigits
    rw [htext, Fraction.placeBytes]
    cases kept with
    | nil => simp [hwholeBytes]
    | cons first others =>
        simp only [List.isEmpty_cons, Bool.false_eq_true, if_false, bytesOf_append, hwholeBytes,
          hkeptBytes, List.append_assoc]
        rfl
  · rw [← hnumber, hsplit, numberOf_append_replicate_zero, ← hcount, pow_add]
    push_cast
    field_simp

/-- Positional notation has the value of the decimal. -/
theorem Digits.exists_positional (decimal : Digits) (negative : Bool) :
    ∃ fraction : Fraction, fraction.negative = negative ∧
      bytesOf decimal.positional = fraction.whole.map digitByte ++ fraction.placeBytes ∧
      (numberOf 10 (fraction.whole ++ fraction.places) : ℚ) / 10 ^ fraction.places.length =
        decimal.digits * 10 ^ decimal.exponent := by
  obtain ⟨number, exponent⟩ := decimal
  cases exponent with
  | ofNat count =>
      obtain ⟨fraction, hnegative, hbytes, hvalue⟩ := exists_positional_of_nonneg count negative
      refine ⟨fraction, hnegative, hbytes, ?_⟩
      rw [hvalue]
      exact congrArg _ (zpow_natCast _ _).symm
  | negSucc count =>
      obtain ⟨fraction, hnegative, hbytes, hvalue⟩ := exists_positional_of_neg count negative
      refine ⟨fraction, hnegative, hbytes, ?_⟩
      rw [hvalue, zpow_negSucc, div_eq_mul_inv]

end Decimal

/-! ## Doubles -/

namespace Binary64

/-- The exponents of finite doubles are not all ones. -/
theorem exponentField_of_isFinite {number : Float} (hfinite : number.isFinite = true) :
    exponentField number.toBits ≠ 2047 := by
  intro hfield
  have hones : @Float.Model.UnpackedFloat.unpackExponent Float.Model.Format.binary64
      number.toModel.toBits.toBitVec = -1#11 := by
    apply BitVec.eq_of_toNat_eq
    have hexponent : (@Float.Model.UnpackedFloat.unpackExponent Float.Model.Format.binary64
        number.toModel.toBits.toBitVec).toNat = exponentField number.toBits := by
      simp [Float.Model.UnpackedFloat.unpackExponent, exponentField, Nat.shiftRight_eq_div_pow,
        Float.toBits]
    rw [hexponent, hfield]
    rfl
  have hinfinite : number.isFinite = false := by
    simp only [Float.isFinite, Float.Model.isFinite, Float.Model.unpack,
      Float.Model.UnpackedFloat.unpack]
    rw [if_pos hones]
    split <;> rfl
  rw [hfinite] at hinfinite
  cases hinfinite

/-- A quotient with the bits of a double is read as that double. -/
theorem ofRatio_of_nearestBits {number : Float} {numerator denominator : ℕ}
    (hnearest : nearestBits numerator denominator = (magnitude number.toBits).bits) :
    ofRatio (signBit number.toBits) numerator denominator = number := by
  simp only [ofRatio, hnearest, bits_magnitude, UInt64.ofNat_toNat, Float.ofBits_toBits]

end Binary64

namespace Decimal

open Binary64 (magnitude signBit)

theorem bytesOf_sign (fraction : Fraction) :
    bytesOf (if fraction.negative then "-" else "") = fraction.signBytes := by
  rw [Fraction.signBytes]
  cases fraction.negative <;> rfl

/-- A fraction with the value of the shortest decimal stands for the double. -/
theorem number_eq_of_value {number : Float} (hfinite : number.isFinite = true)
    (hpositive : 0 < (magnitude number.toBits).mantissa) {fraction : Fraction}
    (hnegative : fraction.negative = signBit number.toBits)
    (hvalue : (numberOf 10 (fraction.whole ++ fraction.places) : ℚ) / 10 ^ fraction.places.length =
      (shortest (magnitude number.toBits)).digits *
        10 ^ (shortest (magnitude number.toBits)).exponent) : fraction.number = number := by
  have hdouble := Binary64.isDouble_magnitude (Binary64.exponentField_of_isFinite hfinite)
  have hcovers := covers_shortest hdouble hpositive
  rw [← hvalue] at hcovers
  have hunits := pos_of_covers hpositive hcovers
  have hnumerator : 0 < numberOf 10 (fraction.whole ++ fraction.places) := by
    by_contra hzero
    rw [Nat.eq_zero_of_not_pos hzero, Nat.cast_zero, zero_div, zero_div] at hunits
    exact lt_irrefl _ hunits
  rw [Fraction.number, hnegative]
  apply Binary64.ofRatio_of_nearestBits
  apply Binary64.nearestBits_of_covers hdouble hnumerator (by positivity)
  exact_mod_cast hcovers

/-- Zero has no mantissa and the lowest exponent, so all bits of it are zeros. -/
theorem bits_of_mantissa_eq_zero {number : Float} (hfinite : number.isFinite = true)
    (hzero : (magnitude number.toBits).mantissa = 0) : (magnitude number.toBits).bits = 0 := by
  have hdouble := Binary64.isDouble_magnitude (Binary64.exponentField_of_isFinite hfinite)
  have hlowest := hdouble.leading
  rw [Binary64.Magnitude.bits, hzero]
  omega

/-- The text of a finite double is a fraction that stands for the same double. -/
theorem exists_fraction_text {number : Float} (hfinite : number.isFinite = true) :
    ∃ fraction : Fraction, bytesOf (text number) = fraction.bytes ∧ fraction.number = number := by
  have hexponent := Binary64.exponentField_of_isFinite hfinite
  simp only [text, if_neg hexponent]
  split
  case isTrue hzero =>
    refine ⟨⟨signBit number.toBits, [0], [], by simp, by simp⟩, ?_, ?_⟩
    · rw [bytesOf_append, Fraction.bytes, ← bytesOf_sign]
      rfl
    · exact Binary64.ofRatio_of_nearestBits (bits_of_mantissa_eq_zero hfinite hzero).symm
  case isFalse hsome =>
    obtain ⟨fraction, hnegative, hbytes, hvalue⟩ :=
      (shortest (magnitude number.toBits)).exists_positional (signBit number.toBits)
    refine ⟨fraction, ?_, number_eq_of_value hfinite (Nat.pos_of_ne_zero hsome) hnegative hvalue⟩
    rw [bytesOf_append, hbytes, Fraction.bytes, ← bytesOf_sign, hnegative]

end Decimal

end AchievementLogic
