import AchievementLogic.Proofs.Text.Numerals
import AchievementLogic.Text.Fields
import Mathlib.Data.List.TakeWhile

/-!
# Numbers that are a whole field

A field is a number only as a whole, blanks at its ends apart.  A number that was written for a word
or for a signed number of 64 bits has no blanks, is read in full and fits where it came from.
-/

namespace AchievementLogic.Text

/-! ## The letters of a number -/

def IsNumeralLetter (letter : Char) : Prop := letter = '-' ∨ letter.isDigit = true

instance (letter : Char) : Decidable (IsNumeralLetter letter) := inferInstanceAs (Decidable (_ ∨ _))

theorem isDigit_of_mem_toString {number : ℕ} {letter : Char}
    (hmem : letter ∈ (toString number).toList) : letter.isDigit = true := by
  rw [Nat.toString_eq_repr, Nat.toList_repr] at hmem
  exact Nat.isDigit_of_mem_toDigits (by decide) (by decide) hmem

theorem isNumeralLetter_of_mem_toString_int {number : ℤ} {letter : Char}
    (hmem : letter ∈ (toString number).toList) : IsNumeralLetter letter := by
  cases number with
  | ofNat size => exact .inr (isDigit_of_mem_toString hmem)
  | negSucc size =>
      have htext : toString (Int.negSucc size) = "-" ++ toString (size + 1) := rfl
      rw [htext, String.toList_append] at hmem
      rcases List.mem_append.mp hmem with hsign | hdigits
      · exact .inl (List.mem_singleton.mp hsign)
      · exact .inr (isDigit_of_mem_toString hdigits)

theorem IsNumeralLetter.ne {letter other : Char} (hletter : IsNumeralLetter letter)
    (hother : ¬IsNumeralLetter other) : letter ≠ other := by
  rintro rfl
  exact hother hletter

theorem isAlphanum_iff_toNat {letter : Char} : letter.isAlphanum = true ↔
    (65 ≤ letter.toNat ∧ letter.toNat ≤ 90) ∨ (97 ≤ letter.toNat ∧ letter.toNat ≤ 122) ∨
      (48 ≤ letter.toNat ∧ letter.toNat ≤ 57) := by
  delta Char.isAlphanum Char.isAlpha Char.isUpper Char.isLower Char.isDigit
  simp only [Bool.or_eq_true, Bool.and_eq_true, decide_eq_true_eq, ge_iff_le,
    UInt32.le_iff_toNat_le, or_assoc]
  rfl

theorem isBlank_of_isAlphanum {letter : Char} (hletter : letter.isAlphanum = true) :
    isBlank letter = false := by
  have hranges := isAlphanum_iff_toNat.mp hletter
  simp only [isBlank, blankRanges, List.any_cons, List.any_nil, Bool.or_eq_false_iff,
    Bool.and_eq_false_iff, decide_eq_false_iff_not, and_true]
  omega

theorem IsNumeralLetter.isBlank {letter : Char} (hletter : IsNumeralLetter letter) :
    isBlank letter = false := by
  rcases hletter with rfl | hdigit
  · rfl
  · apply isBlank_of_isAlphanum
    rw [Char.isAlphanum, hdigit, Bool.or_true]

/-- A digit of any base is a letter or a decimal digit. -/
theorem isAlphanum_of_isSome_digitValue? {base : ℕ} {letter : Char}
    (hdigit : (digitValue? base letter).isSome = true) : letter.isAlphanum = true := by
  rw [isAlphanum_iff_toNat]
  by_contra hletter
  have hranges : ¬('0' ≤ letter ∧ letter ≤ '9') ∧ ¬('a' ≤ letter ∧ letter ≤ 'f') ∧
      ¬('A' ≤ letter ∧ letter ≤ 'F') := by
    simp only [Char.le_def, UInt32.le_iff_toNat_le]
    change ¬(48 ≤ letter.toNat ∧ letter.toNat ≤ 57) ∧ ¬(97 ≤ letter.toNat ∧ letter.toNat ≤ 102) ∧
      ¬(65 ≤ letter.toNat ∧ letter.toNat ≤ 70)
    omega
  simp [digitValue?, hranges] at hdigit

/-! ## Trimming -/

theorem dropWhile_eq_self_of_head {drops : Char → Bool} {letters : List Char}
    (hhead : ∀ letter ∈ letters.head?, drops letter = false) : letters.dropWhile drops = letters := by
  cases letters with
  | nil => rfl
  | cons letter others => rw [List.dropWhile_cons, hhead letter rfl, if_neg Bool.false_ne_true]

theorem dropEnd_eq_self_of_last {drops : Char → Bool} {letters : List Char}
    (hlast : ∀ letter ∈ letters.getLast?, drops letter = false) : dropEnd drops letters = letters := by
  rw [← List.head?_reverse] at hlast
  rw [dropEnd, dropWhile_eq_self_of_head hlast, List.reverse_reverse]

/-- Without blanks at its ends a text is as it was. -/
theorem trim_eq_self_of_ends {text : String}
    (hhead : ∀ letter ∈ text.toList.head?, isBlank letter = false)
    (hlast : ∀ letter ∈ text.toList.getLast?, isBlank letter = false) : trim text = text := by
  rw [trim, dropWhile_eq_self_of_head hhead, dropEnd_eq_self_of_last hlast, String.ofList_toList]

theorem trim_eq_self {text : String} (hkept : ∀ letter ∈ text.toList, isBlank letter = false) :
    trim text = text :=
  trim_eq_self_of_ends (fun letter hmem => hkept letter (List.mem_of_mem_head? hmem))
    fun letter hmem => hkept letter (List.mem_of_mem_getLast? hmem)

/-! ## Reading -/

/-- Digits of a base, of either case and with any zeros in front, that write a number. -/
def IsNumeral (base : ℕ) (letters : List Char) (number : ℕ) : Prop :=
  letters ≠ [] ∧ ∃ digits, letters.map (digitValue? base) = digits.map some ∧
    numberOf base digits = number

theorem IsNumeral.isSome_digitValue? {base number : ℕ} {letters : List Char}
    (hnumeral : IsNumeral base letters number) :
    ∀ letter ∈ letters, (digitValue? base letter).isSome = true := by
  obtain ⟨-, digits, hdigits, -⟩ := hnumeral
  intro letter hmem
  have himage : digitValue? base letter ∈ digits.map some := hdigits ▸ List.mem_map_of_mem hmem
  obtain ⟨digit, -, hdigit⟩ := List.mem_map.mp himage
  exact Option.isSome_of_eq_some hdigit.symm

theorem IsNumeral.isAlphanum {base number : ℕ} {letters : List Char}
    (hnumeral : IsNumeral base letters number) : ∀ letter ∈ letters, letter.isAlphanum = true :=
  fun letter hmem => isAlphanum_of_isSome_digitValue? (hnumeral.isSome_digitValue? letter hmem)

/-- A numeral is read as the number that it writes, whatever zeros stand in front. -/
theorem natOfDigits?_of_isNumeral {base number : ℕ} {letters : List Char}
    (hnumeral : IsNumeral base letters number) : natOfDigits? base letters = some number := by
  obtain ⟨hsome, digits, hdigits, hnumber⟩ := hnumeral
  have hfold (value : ℕ) : letters.foldlM
      (fun value digit => (digitValue? base digit).map (value * base + ·)) value =
        some (digits.foldl (fun value digit => value * base + digit) value) := by
    clear hsome hnumber
    induction letters generalizing digits value with
    | nil =>
        obtain rfl := List.map_eq_nil_iff.mp hdigits.symm
        rfl
    | cons head tail ih =>
        obtain ⟨digit, others, rfl, hhead, htail⟩ := List.map_eq_cons_iff.mp hdigits.symm
        rw [List.foldlM_cons, ← hhead, List.foldl_cons]
        exact ih others htail.symm _
  rw [natOfDigits?, if_neg (by simpa using hsome), hfold, ← hnumber, numberOf]

theorem isNumeral_map_digitChar {base : ℕ} (hbase : base ≤ 16) {digits : List ℕ}
    (hsome : digits ≠ []) (hdigits : ∀ digit ∈ digits, digit < base) :
    IsNumeral base (digits.map Nat.digitChar) (numberOf base digits) := by
  refine ⟨by simpa using hsome, digits, ?_, rfl⟩
  rw [List.map_map]
  exact List.map_congr_left fun digit hmem => digitValue?_digitChar hbase (hdigits digit hmem)

theorem isNumeral_toDigits {base : ℕ} (hlow : 1 < base) (hhigh : base ≤ 16) (number : ℕ) :
    IsNumeral base (Nat.toDigits base number) number := by
  obtain ⟨digits, hletters, hsome, hlt, hnumber⟩ := exists_toDigits hlow number
  rw [hletters, ← hnumber]
  exact isNumeral_map_digitChar hhigh hsome hlt

theorem isNumeral_toString (number : ℕ) : IsNumeral 10 (toString number).toList number := by
  rw [Nat.toString_eq_repr, Nat.toList_repr]
  exact isNumeral_toDigits (by decide) (by decide) number

theorem natOfDigits?_toString (number : ℕ) :
    natOfDigits? 10 (toString number).toList = some number :=
  natOfDigits?_of_isNumeral (isNumeral_toString number)

/-- Without a plus sign there are only digits to read. -/
theorem natOf?_of_notMem {base : ℕ} {letters : List Char} (hplus : '+' ∉ letters) :
    natOf? base letters = natOfDigits? base letters := by
  unfold natOf?
  split
  case h_1 digits => exact absurd List.mem_cons_self hplus
  case h_2 => rfl

theorem intOf?_of_notMem {letters : List Char} {size : ℕ} (hminus : '-' ∉ letters)
    (hread : natOf? 10 letters = some size) : intOf? letters = some (size : ℤ) := by
  unfold intOf?
  split
  case h_1 digits => exact absurd List.mem_cons_self hminus
  case h_2 => rw [hread]; rfl

theorem notMem_of_isDigit {letters : List Char} {letter : Char}
    (hdigits : ∀ digit ∈ letters, digit.isDigit = true) (hletter : letter.isDigit = false) :
    letter ∉ letters := by
  intro hmem
  rw [hdigits letter hmem] at hletter
  cases hletter

theorem natOf?_toString (number : ℕ) : natOf? 10 (toString number).toList = some number := by
  rw [natOf?_of_notMem (notMem_of_isDigit (fun _ => isDigit_of_mem_toString) rfl),
    natOfDigits?_toString]

/-- A whole number comes back from its decimal text. -/
theorem intOf?_toString (number : ℤ) : intOf? (toString number).toList = some number := by
  cases number with
  | ofNat size =>
      have htext : toString (Int.ofNat size) = toString size := rfl
      rw [htext]
      exact intOf?_of_notMem (notMem_of_isDigit (fun _ => isDigit_of_mem_toString) rfl)
        (natOf?_toString size)
  | negSucc size =>
      have htext : (toString (Int.negSucc size)).toList = '-' :: (toString (size + 1)).toList := by
        have hsigned : toString (Int.negSucc size) = "-" ++ toString (size + 1) := rfl
        rw [hsigned, String.toList_append]
        rfl
      rw [htext, intOf?, natOfDigits?_toString]
      rfl

theorem word?_toNat (value : UInt32) : Width.word? value.toNat = some value := by
  have hbound : ((value.toNat : ℤ) < 0x100000000) := Int.ofNat_lt.mpr value.toNat_lt
  rw [Width.word?, if_pos]
  · rw [Int.toNat_natCast, UInt32.ofNat_toNat]
  · simp [hbound]

/-- A word that was written is read again. -/
theorem wordOf?_trim_toString (value : UInt32) :
    wordOf? 10 (trim (toString value.toNat)) = some value := by
  have hkept : ∀ letter ∈ (toString value.toNat).toList, isBlank letter = false :=
    fun letter hmem => IsNumeralLetter.isBlank (.inr (isDigit_of_mem_toString hmem))
  rw [trim_eq_self hkept, wordOf?, natOf?_toString, Option.bind_some, word?_toNat]

/-- A signed number that was written is read again. -/
theorem int64Of?_trim_toString (value : Int64) :
    int64Of? (trim (toString value.toInt)) = some value := by
  have hkept : ∀ letter ∈ (toString value.toInt).toList, isBlank letter = false :=
    fun letter hmem => (isNumeralLetter_of_mem_toString_int hmem).isBlank
  have hlow := value.le_toInt
  have hhigh := value.toInt_lt
  rw [trim_eq_self hkept, int64Of?, intOf?_toString, Option.bind_some, Width.int64?, if_pos]
  · rw [Int64.ofInt_toInt]
  · rw [Bool.and_eq_true, decide_eq_true_eq, decide_eq_true_eq]
    omega

end AchievementLogic.Text
