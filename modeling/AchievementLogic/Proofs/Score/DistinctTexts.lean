import AchievementLogic.Proofs.Score.Times

/-!
# Different values look different

A text gives back the numbers that were put in it: the parts of a time end at marks that are no
digits, and a number reads as itself.  Frames alone can look the same, and only where more than a
hundred of them pass in a second, as a text shows no less than a hundredth.
-/

namespace AchievementLogic.Format

open Text

/-! ## Signed numbers -/

theorem signed_injective : Function.Injective signed := by
  intro left right hsame
  have hsigned : left.toInt32 = right.toInt32 := Int32.toInt_inj.mp hsame
  have hword := congrArg Int32.toUInt32 hsigned
  simpa using hword

theorem toString_int_injective : Function.Injective (toString : ℤ → String) := by
  intro left right hsame
  have hread := congrArg (fun text => intOf? text.toList) hsame
  simpa only [intOf?_toString, Option.some.injEq] using hread

/-! ## Times -/

theorem toList_minutesSeconds (total : ℕ) :
    (minutesSeconds total).toList =
      (padded 2 (total / 60)).toList ++ ':' :: (padded 2 (total % 60)).toList := by
  simp [minutesSeconds]

theorem toList_timeText (total : ℕ) :
    (timeText total).toList =
      (minutesSeconds (total / 100)).toList ++ '.' :: (padded 2 (total % 100)).toList := by
  simp [timeText, withHundredths]

theorem notMem_minutesSeconds (total : ℕ) : '.' ∉ (minutesSeconds total).toList := by
  rw [toList_minutesSeconds, List.mem_append, List.mem_cons, not_or, not_or]
  exact ⟨notMem_padded rfl 2 _, by decide, notMem_padded rfl 2 _⟩

theorem minutesSeconds_injective : Function.Injective minutesSeconds := by
  intro left right hsame
  have hletters := congrArg String.toList hsame
  rw [toList_minutesSeconds, toList_minutesSeconds, List.append_cons_inj_of_notMem
    (notMem_padded rfl 2 _) (notMem_padded rfl 2 _), String.toList_inj, String.toList_inj] at hletters
  obtain ⟨hminutes, -, hseconds⟩ := hletters
  have hquotient := padded_injective 2 hminutes
  have hremainder := padded_injective 2 hseconds
  omega

theorem timeText_injective : Function.Injective timeText := by
  intro left right hsame
  have hletters := congrArg String.toList hsame
  rw [toList_timeText, toList_timeText, List.append_cons_inj_of_notMem
    (notMem_minutesSeconds _) (notMem_padded rfl 2 _), String.toList_inj,
    String.toList_inj] at hletters
  obtain ⟨hseconds, -, hrest⟩ := hletters
  have hquotient := minutesSeconds_injective hseconds
  have hremainder := padded_injective 2 hrest
  omega

/-! ## Frames -/

/-- As long as a frame lasts a hundredth of a second, one more frame makes one more hundredth. -/
theorem hundredthsOfFrames_lt {rate : UInt32} (hrate : rate ≤ 100) {left right : UInt32}
    (hlt : left.toNat < right.toNat) :
    hundredthsOfFrames left rate < hundredthsOfFrames right rate := by
  have hdivisor : 0 < max rate.toNat 1 := by omega
  have hhundred : max rate.toNat 1 ≤ 100 := by
    have hbound : rate.toNat ≤ 100 := UInt32.le_iff_toNat_le.mp hrate
    omega
  have hframe : 100 * left.toNat + max rate.toNat 1 ≤ 100 * right.toNat := by omega
  calc hundredthsOfFrames left rate
      < 100 * left.toNat / max rate.toNat 1 + 1 := Nat.lt_succ_self _
    _ = (100 * left.toNat + max rate.toNat 1) / max rate.toNat 1 :=
        (Nat.add_div_right _ hdivisor).symm
    _ ≤ hundredthsOfFrames right rate := Nat.div_le_div_right hframe

theorem hundredthsOfFrames_injective {rate : UInt32} (hrate : rate ≤ 100) :
    Function.Injective (hundredthsOfFrames · rate) := by
  intro left right hsame
  rcases Nat.lt_trichotomy left.toNat right.toNat with hlt | heq | hgt
  · exact absurd hsame (hundredthsOfFrames_lt hrate hlt).ne
  · exact UInt32.toNat_inj.mp heq
  · exact absurd hsame (hundredthsOfFrames_lt hrate hgt).ne'

/-- Faster frames than that make no hundredth each: the first one looks like none. -/
theorem hundredthsOfFrames_one {rate : UInt32} (hrate : 100 < rate) :
    hundredthsOfFrames 1 rate = hundredthsOfFrames 0 rate := by
  have hbound : 100 < rate.toNat := UInt32.lt_iff_toNat_lt.mp hrate
  have hone : (1 : UInt32).toNat = 1 := rfl
  have hzero : (0 : UInt32).toNat = 0 := rfl
  rw [hundredthsOfFrames, hundredthsOfFrames, hone, hzero, Nat.mul_zero, Nat.zero_div,
    Nat.div_eq_of_lt (by omega)]

/-- Hundredths of a second tell all numbers of frames apart as long as no more than a hundred frames
pass in one second. -/
theorem injective_frames_iff (rate : UInt32) :
    Function.Injective (frames.textAtRate · rate) ↔ rate ≤ 100 := by
  have htext : (frames.textAtRate · rate) = timeText ∘ (hundredthsOfFrames · rate) := by
    funext word
    exact textAtRate_frames word rate
  rw [htext]
  constructor
  · intro hinjective
    by_contra hrate
    have hsame := congrArg timeText (hundredthsOfFrames_one (UInt32.not_le.mp hrate))
    cases hinjective hsame
  · intro hrate
    exact timeText_injective.comp (hundredthsOfFrames_injective hrate)

/-! ## All formats -/

/-- All formats but that of frames tell every two values apart, at any rate. -/
theorem injective_of_ne_frames {format : Format} (hformat : format ≠ frames) (rate : UInt32) :
    Function.Injective (format.textAtRate · rate) := by
  cases format with
  | value => exact toString_int_injective.comp signed_injective
  | points =>
      intro left right hsame
      exact signed_injective (paddedSigned_injective 6 (String.append_left_inj " Points" |>.mp hsame))
  | frames => exact absurd rfl hformat
  | seconds =>
      intro left right hsame
      exact UInt32.toNat_inj.mp (minutesSeconds_injective hsame)
  | hundredths =>
      intro left right hsame
      exact UInt32.toNat_inj.mp (timeText_injective hsame)
  | sixDigits => exact (paddedSigned_injective 6).comp signed_injective

/-- Different values have different texts, in every format and at every rate; for frames this holds
exactly if no more than a hundred of them pass in a second. -/
theorem injective_textAtRate_iff (format : Format) (rate : UInt32) :
    Function.Injective (format.textAtRate · rate) ↔ (format = frames → rate ≤ 100) := by
  constructor
  · rintro hinjective rfl
    exact (injective_frames_iff rate).mp hinjective
  · intro hrate
    by_cases hformat : format = frames
    · subst hformat
      exact (injective_frames_iff rate).mpr (hrate rfl)
    · exact injective_of_ne_frames hformat rate

end AchievementLogic.Format
