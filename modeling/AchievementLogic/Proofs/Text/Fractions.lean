import AchievementLogic.Proofs.Text.InPlace

/-!
# Decimal fractions

A decimal fraction is read as far as its digits go.  A point belongs to it only if digits follow, so a
fraction without a point is read in full only where no point with a digit comes next.
-/

namespace AchievementLogic.Text

/-- A decimal fraction as it is written: a minus sign if it is negative, digits, and a point if there
are digits after it. -/
structure Fraction where
  negative : Bool
  whole : List ℕ
  places : List ℕ
  whole_ne_nil : whole ≠ []
  digits_lt : ∀ digit ∈ whole ++ places, digit < 10

namespace Fraction

def signBytes (fraction : Fraction) : List UInt8 := if fraction.negative then ['-'.toUInt8] else []

def placeBytes (fraction : Fraction) : List UInt8 :=
  if fraction.places = [] then [] else '.'.toUInt8 :: fraction.places.map digitByte

def bytes (fraction : Fraction) : List UInt8 :=
  fraction.signBytes ++ (fraction.whole.map digitByte ++ fraction.placeBytes)

def number (fraction : Fraction) : Float :=
  Binary64.ofRatio fraction.negative (numberOf 10 (fraction.whole ++ fraction.places))
    (10 ^ fraction.places.length)

/-- What follows has no more digits for the fraction. -/
structure EndsBefore (fraction : Fraction) (rest : List UInt8) : Prop where
  digits : EndsDigits 10 rest
  point : fraction.places = [] → ∀ byte ∈ rest.head?, Char.ofUInt8 byte = '.' →
    EndsDigits 10 rest.tail

variable {fraction : Fraction} {rest : List UInt8}

theorem digits_whole (fraction : Fraction) : ∀ digit ∈ fraction.whole, digit < 10 :=
  fun digit hmem => fraction.digits_lt digit (List.mem_append_left _ hmem)

theorem digits_places (fraction : Fraction) : ∀ digit ∈ fraction.places, digit < 10 :=
  fun digit hmem => fraction.digits_lt digit (List.mem_append_right _ hmem)

/-- The first byte after the sign is a digit. -/
theorem exists_whole_eq_cons (fraction : Fraction) :
    ∃ first others, fraction.whole = first :: others ∧ first < 10 := by
  obtain ⟨first, others, hwhole⟩ := List.exists_cons_of_ne_nil fraction.whole_ne_nil
  exact ⟨first, others, hwhole, fraction.digits_whole first (by simp [hwhole])⟩

theorem digitChar_ne_sign {digit : ℕ} (hdigit : digit < 10) :
    Nat.digitChar digit ≠ '-' ∧ Nat.digitChar digit ≠ '+' ∧ Nat.digitChar digit ≠ '.' := by
  interval_cases digit <;> decide

theorem ofUInt8_digitByte_ne {digit : ℕ} (hdigit : digit < 10) :
    Char.ofUInt8 (digitByte digit) ≠ '-' ∧ Char.ofUInt8 (digitByte digit) ≠ '+' ∧
      Char.ofUInt8 (digitByte digit) ≠ '.' := by
  rw [ofUInt8_digitByte (by omega)]
  exact digitChar_ne_sign hdigit

/-- A fraction is made of digits, of a minus sign in front and of a point between digits. -/
theorem mem_bytes {fraction : Fraction} {byte : UInt8} (hmem : byte ∈ fraction.bytes) :
    byte = '-'.toUInt8 ∨ (∃ digit < 10, byte = digitByte digit) ∨
      (byte = '.'.toUInt8 ∧ fraction.places ≠ []) := by
  have hdigits {digits : List ℕ} (hlt : ∀ digit ∈ digits, digit < 10)
      (hdigit : byte ∈ digits.map digitByte) : ∃ digit < 10, byte = digitByte digit := by
    obtain ⟨digit, hin, rfl⟩ := List.mem_map.mp hdigit
    exact ⟨digit, hlt digit hin, rfl⟩
  rw [bytes, List.mem_append, List.mem_append] at hmem
  rcases hmem with hsign | hwhole | hplace
  · rw [signBytes] at hsign
    split at hsign
    · exact .inl (List.mem_singleton.mp hsign)
    · cases hsign
  · exact .inr (.inl (hdigits fraction.digits_whole hwhole))
  · rw [placeBytes] at hplace
    split at hplace
    · cases hplace
    · rcases List.mem_cons.mp hplace with hpoint | hdigit
      · exact .inr (.inr ⟨hpoint, ‹_›⟩)
      · exact .inr (.inl (hdigits fraction.digits_places hdigit))

/-- A fraction has a point exactly if digits follow it. -/
theorem point_mem_bytes_iff {fraction : Fraction} :
    '.'.toUInt8 ∈ fraction.bytes ↔ fraction.places ≠ [] := by
  constructor
  · intro hmem
    rcases mem_bytes hmem with hsign | ⟨digit, hdigit, hbyte⟩ | ⟨-, hplaces⟩
    · exact absurd hsign (by decide)
    · exact absurd (congrArg Char.ofUInt8 hbyte).symm (ofUInt8_digitByte_ne hdigit).2.2
    · exact hplaces
  · intro hplaces
    simp [bytes, placeBytes, hplaces]

/-- A fraction begins with its sign or with a digit. -/
theorem exists_bytes_eq_cons (fraction : Fraction) :
    ∃ first others, fraction.bytes = first :: others ∧
      (first = '-'.toUInt8 ∨ ∃ digit < 10, first = digitByte digit) := by
  obtain ⟨first, others, hwhole, hfirst⟩ := fraction.exists_whole_eq_cons
  rw [bytes, signBytes, hwhole]
  cases fraction.negative with
  | true => exact ⟨_, _, rfl, .inl rfl⟩
  | false => exact ⟨_, _, rfl, .inr ⟨first, hfirst, rfl⟩⟩

def withPlaces (fraction : Fraction) (places : List ℕ) (hplaces : ∀ digit ∈ places, digit < 10) :
    Fraction :=
  { fraction with
    places
    digits_lt := List.forall_mem_append.mpr ⟨fraction.digits_whole, hplaces⟩ }

/-- A point and digits after a fraction without a point are taken into it. -/
theorem bytes_withPlaces (hwhole : fraction.places = []) {places : List ℕ}
    (hplaces : ∀ digit ∈ places, digit < 10) (hsome : places ≠ []) :
    (fraction.withPlaces places hplaces).bytes =
      fraction.bytes ++ '.'.toUInt8 :: places.map digitByte := by
  have hnone : fraction.placeBytes = [] := by rw [placeBytes, if_pos hwhole]
  have hpoint : (fraction.withPlaces places hplaces).placeBytes =
      '.'.toUInt8 :: places.map digitByte := by
    rw [placeBytes, withPlaces, if_neg hsome]
  rw [bytes, hpoint, bytes, hnone, List.append_nil, List.append_assoc]
  rfl

/-- A minus sign comes first if the fraction is negative, and no other sign does. -/
theorem afterSign_append (fraction : Fraction) (rest : List UInt8) (position : ℕ) :
    (Scan.peek ⟨fraction.bytes ++ rest, position⟩ = some '-' ↔ fraction.negative = true) ∧
      Scan.afterSign ⟨fraction.bytes ++ rest, position⟩ =
        ⟨fraction.whole.map digitByte ++ (fraction.placeBytes ++ rest),
          position + fraction.signBytes.length⟩ := by
  obtain ⟨first, others, hwhole, hfirst⟩ := fraction.exists_whole_eq_cons
  obtain ⟨hminus, hplus, -⟩ := digitChar_ne_sign hfirst
  have hshown := ofUInt8_digitByte (by omega : first < 16)
  have hmark : Char.ofUInt8 '-'.toUInt8 = '-' := rfl
  rw [bytes, signBytes, hwhole]
  cases fraction.negative with
  | true => simp [Scan.afterSign, hmark, List.append_assoc]
  | false => simp [Scan.afterSign, hshown, hminus, hplus, List.append_assoc]

theorem EndsBefore.endsWhole (hrest : fraction.EndsBefore rest) :
    EndsDigits 10 (fraction.placeBytes ++ rest) := by
  rw [placeBytes]
  split
  · exact hrest.digits
  · intro byte hmem
    obtain rfl : '.'.toUInt8 = byte := by simpa using hmem
    rfl

/-- The digits after the point are found in front of what follows. -/
theorem EndsBefore.fraction_eq (hrest : fraction.EndsBefore rest) (position : ℕ) :
    Scan.fraction ⟨fraction.placeBytes ++ rest, position⟩ = fraction.places := by
  rw [placeBytes]
  split
  case isTrue hnone =>
    rw [hnone, List.nil_append, Scan.fraction]
    split
    case isTrue hpoint =>
      cases rest with
      | nil => cases hpoint
      | cons byte others =>
          have hends := hrest.point hnone byte (by simp) (Option.some.inj hpoint)
          have hempty : AreDigits 10 [] [] := rfl
          exact leadingDigits_append hempty hends
    case isFalse => rfl
  case isFalse =>
    have hpoint : Scan.peek ⟨'.'.toUInt8 :: fraction.places.map digitByte ++ rest, position⟩ =
        some '.' := rfl
    rw [Scan.fraction, if_pos hpoint]
    exact leadingDigits_append (areDigits_map_digitByte (by decide) fraction.digits_places)
      hrest.digits

/-- A fraction is read in full in front of what has no more digits for it. -/
theorem EndsBefore.readFloat_append (hrest : fraction.EndsBefore rest) (position : ℕ) :
    Scan.readFloat ⟨fraction.bytes ++ rest, position⟩ =
      some (fraction.number, ⟨rest, position + fraction.bytes.length⟩) := by
  obtain ⟨hminus, hsign⟩ := fraction.afterSign_append rest position
  have hdigits : AreDigits 10 (fraction.whole.map digitByte) fraction.whole :=
    areDigits_map_digitByte (by decide) fraction.digits_whole
  have hwhole : Scan.digitRun (Scan.afterSign ⟨fraction.bytes ++ rest, position⟩) 10 =
      fraction.whole := by
    rw [hsign]
    exact leadingDigits_append hdigits hrest.endsWhole
  have hafter : Scan.afterWhole ⟨fraction.bytes ++ rest, position⟩ =
      ⟨fraction.placeBytes ++ rest,
        position + fraction.signBytes.length + fraction.whole.length⟩ := by
    rw [Scan.afterWhole, hwhole, hsign]
    have hskip := Scan.skip_append (fraction.whole.map digitByte) (fraction.placeBytes ++ rest)
      (position + fraction.signBytes.length)
    rwa [List.length_map] at hskip
  have hnegative : decide (Scan.peek ⟨fraction.bytes ++ rest, position⟩ = some '-') =
      fraction.negative := by
    rw [Bool.eq_iff_iff, decide_eq_true_eq, hminus]
  have hlength : fraction.bytes.length =
      fraction.signBytes.length + (fraction.whole.length + fraction.placeBytes.length) := by
    rw [bytes, List.length_append, List.length_append, List.length_map]
  rw [Scan.readFloat_eq, hafter, hrest.fraction_eq, hwhole, hnegative, hlength, ← Nat.add_assoc,
    ← Nat.add_assoc, number]
  by_cases hplaces : fraction.places = []
  · rw [if_pos (List.isEmpty_iff.mpr hplaces), if_neg (by simpa using fraction.whole_ne_nil),
      placeBytes, if_pos hplaces, hplaces, List.append_nil]
    rfl
  · have hpoint : fraction.placeBytes.length = fraction.places.length + 1 := by
      rw [placeBytes, if_neg hplaces, List.length_cons, List.length_map]
    rw [if_neg (by simpa using hplaces), ← hpoint, Scan.skip_append]
    rfl

end Fraction

end AchievementLogic.Text
