import AchievementLogic.Proofs.Text.WholeNumbers
import AchievementLogic.Score.Format

/-!
# Numbers of a width

A number is filled up with zeros to a width.  Zeros in front do not count, so that it reads as the
number it was, whatever the width: different numbers have different texts, also where they are
longer than the width.  The sign of a negative number stands before the zeros.
-/

namespace AchievementLogic.Format

open Text

theorem toList_padded (width number : ℕ) :
    (padded width number).toList =
      List.replicate (width - (toString number).length) '0' ++ (toString number).toList := by
  rw [padded, String.toList_append, String.toList_ofList]

theorem isDigit_of_mem_padded {width number : ℕ} {letter : Char}
    (hmem : letter ∈ (padded width number).toList) : letter.isDigit = true := by
  rw [toList_padded] at hmem
  rcases List.mem_append.mp hmem with hzero | hdigit
  · rw [List.eq_of_mem_replicate hzero]
    rfl
  · exact isDigit_of_mem_toString hdigit

theorem notMem_padded {letter : Char} (hletter : letter.isDigit = false) (width number : ℕ) :
    letter ∉ (padded width number).toList :=
  notMem_of_isDigit (fun _ => isDigit_of_mem_padded) hletter

theorem length_padded (width number : ℕ) :
    (padded width number).length = max width (toString number).length := by
  rw [← String.length_toList, toList_padded, List.length_append, List.length_replicate,
    String.length_toList]
  omega

/-- Zeros in front change nothing of the number that digits write. -/
theorem isNumeral_padded (width number : ℕ) :
    IsNumeral 10 (padded width number).toList number := by
  obtain ⟨digits, hletters, hsome, hlt, hnumber⟩ := exists_toDigits (by decide : 1 < 10) number
  have hfilled : (padded width number).toList =
      (List.replicate (width - (toString number).length) 0 ++ digits).map Nat.digitChar := by
    rw [toList_padded, List.map_append, List.map_replicate, Nat.toString_eq_repr, Nat.toList_repr,
      hletters]
    rfl
  have hzeros : ∀ digit ∈ List.replicate (width - (toString number).length) 0, digit < 10 := by
    intro digit hmem
    rw [List.eq_of_mem_replicate hmem]
    decide
  have hnumeral := isNumeral_map_digitChar (by decide : 10 ≤ 16)
    (List.append_ne_nil_of_right_ne_nil _ hsome) (List.forall_mem_append.mpr ⟨hzeros, hlt⟩)
  rwa [numberOf_replicate_zero_append, hnumber, ← hfilled] at hnumeral

/-- A number that was filled up reads as itself. -/
theorem natOfDigits?_padded (width number : ℕ) :
    natOfDigits? 10 (padded width number).toList = some number :=
  natOfDigits?_of_isNumeral (isNumeral_padded width number)

/-- Digits that write a number, with zeros in front where it has fewer of them than the width. -/
structure Fills (width number : ℕ) (text : String) : Prop where
  isNumeral : IsNumeral 10 text.toList number
  length_eq : text.length = max width (toString number).length

theorem fills_padded (width number : ℕ) : Fills width number (padded width number) :=
  ⟨isNumeral_padded width number, length_padded width number⟩

/-- Below a power of ten there are no more digits than the width. -/
theorem Fills.length_of_lt {width number : ℕ} {text : String} (hfills : Fills width number text)
    (hwidth : 0 < width) (hlt : number < 10 ^ width) : text.length = width := by
  rw [hfills.length_eq, Nat.toString_eq_repr]
  exact Nat.max_eq_left ((Nat.length_repr_le_iff hwidth).mpr hlt)

theorem padded_injective (width : ℕ) : Function.Injective (padded width) := by
  intro left right hsame
  have hread := congrArg (fun text => natOfDigits? 10 text.toList) hsame
  simpa only [natOfDigits?_padded, Option.some.injEq] using hread

/-! ## Signed numbers -/

theorem toList_paddedSigned_of_neg (width : ℕ) {number : ℤ} (hnegative : number < 0) :
    (paddedSigned width number).toList =
      '-' :: (padded (width - 1) number.natAbs).toList := by
  rw [paddedSigned, if_pos hnegative, String.toList_append]
  rfl

/-- A signed number that was filled up reads as itself. -/
theorem intOf?_paddedSigned (width : ℕ) (number : ℤ) :
    intOf? (paddedSigned width number).toList = some number := by
  by_cases hnegative : number < 0
  · have hsize : -(number.natAbs : ℤ) = number := by omega
    rw [toList_paddedSigned_of_neg width hnegative, intOf?, natOfDigits?_padded]
    exact congrArg some hsize
  · have hsize : (number.natAbs : ℤ) = number := by omega
    have hread : natOf? 10 (padded width number.natAbs).toList = some number.natAbs := by
      rw [natOf?_of_notMem (notMem_padded rfl width _), natOfDigits?_padded]
    rw [paddedSigned, if_neg hnegative, intOf?_of_notMem (notMem_padded rfl width _) hread, hsize]

theorem paddedSigned_injective (width : ℕ) : Function.Injective (paddedSigned width) := by
  intro left right hsame
  have hread := congrArg (fun text => intOf? text.toList) hsame
  simpa only [intOf?_paddedSigned, Option.some.injEq] using hread

end AchievementLogic.Format
