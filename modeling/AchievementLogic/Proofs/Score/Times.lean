import AchievementLogic.Proofs.Score.PaddedNumbers
import Mathlib.Tactic.Ring

/-!
# Times

Frames are shown as the time that they last, in whole hundredths of a second.  The code splits off
the whole seconds first, so that its products fit the words it computes with; what it shows is the
exact quotient, as the format of hundredths shows that.
-/

namespace AchievementLogic.Format

open Text

/-! ## The exact time of frames -/

/-- The whole hundredths of a second that frames last, one frame at least passing in a second. -/
def hundredthsOfFrames (word framesPerSecond : UInt32) : ℕ :=
  100 * word.toNat / max framesPerSecond.toNat 1

/-- A number of hundredths as minutes, seconds and hundredths. -/
def timeText (total : ℕ) : String := withHundredths (total / 100) (total % 100)

theorem toNat_max_one (framesPerSecond : UInt32) :
    (max framesPerSecond 1).toNat = max framesPerSecond.toNat 1 := by
  have hone : (1 : UInt32).toNat = 1 := rfl
  change (if framesPerSecond ≤ 1 then 1 else framesPerSecond).toNat = _
  simp only [max_def, UInt32.le_iff_toNat_le, hone]
  split <;> rfl

/-- Whole units first and the rest after them give the exact quotient. -/
theorem mul_div_eq_split {rate : ℕ} (hrate : 0 < rate) (scale number : ℕ) :
    scale * number / rate = scale * (number / rate) + number % rate * scale / rate := by
  calc scale * number / rate
      = scale * (rate * (number / rate) + number % rate) / rate := by rw [Nat.div_add_mod]
    _ = (rate * (scale * (number / rate)) + number % rate * scale) / rate := by
        congr 1
        ring
    _ = scale * (number / rate) + number % rate * scale / rate := Nat.mul_add_div hrate _ _

theorem mod_mul_div_lt {rate scale : ℕ} (hrate : 0 < rate) (hscale : 0 < scale) (number : ℕ) :
    number % rate * scale / rate < scale := by
  rw [Nat.div_lt_iff_lt_mul hrate, Nat.mul_comm scale rate]
  exact Nat.mul_lt_mul_of_pos_right (Nat.mod_lt number hrate) hscale

/-- The whole seconds and the hundredths of the frames that are left over can be computed one by
one. -/
theorem hundredthsOfFrames_div_mod (word framesPerSecond : UInt32) :
    hundredthsOfFrames word framesPerSecond / 100 = word.toNat / max framesPerSecond.toNat 1 ∧
      hundredthsOfFrames word framesPerSecond % 100 =
        word.toNat % max framesPerSecond.toNat 1 * 100 / max framesPerSecond.toNat 1 := by
  have hrate : 0 < max framesPerSecond.toNat 1 := by omega
  have hsplit := mul_div_eq_split hrate 100 word.toNat
  have hrest := mod_mul_div_lt hrate (by decide : 0 < 100) word.toNat
  rw [hundredthsOfFrames, hsplit]
  constructor
  · rw [Nat.mul_add_div (by decide), Nat.div_eq_of_lt hrest, Nat.add_zero]
  · rw [Nat.mul_add_mod, Nat.mod_eq_of_lt hrest]

/-! ## The steps that show frames -/

def quotient? {Word : Type} [Div Word] [OfNat Word 0] [DecidableEq Word] (left right : Word) :
    Option Word :=
  if right = 0 then none else some (left / right)

def remainder? (left right : UInt32) : Option UInt32 :=
  if right = 0 then none else some (left % right)

def product? (left right : UInt64) : Option UInt64 :=
  if left.toNat * right.toNat < 2 ^ 64 then some (left * right) else none

/-- A number of 64 bits that fits in a word. -/
def narrowed? (wide : UInt64) : Option UInt32 :=
  if wide.toNat < 2 ^ 32 then some wide.toUInt32 else none

/-- The text of a number of frames, by steps that stop where one divides by zero or has a result
that does not fit. -/
def framesText? (word framesPerSecond : UInt32) : Option String := do
  let rate := max framesPerSecond 1
  let seconds ← quotient? word rate
  let frames ← remainder? word rate
  let scaled ← product? frames.toUInt64 100
  let hundredths ← narrowed? (← quotient? scaled rate.toUInt64)
  let minutes ← quotient? seconds 60
  let rest ← remainder? seconds 60
  return padded 2 minutes.toNat ++ ":" ++ padded 2 rest.toNat ++ "." ++ padded 2 hundredths.toNat

theorem toNat_scaled (word rate : UInt32) :
    ((word % rate).toUInt64 * 100).toNat = word.toNat % rate.toNat * 100 := by
  have hlt := (word % rate).toNat_lt
  have hmod : (word % rate).toNat = word.toNat % rate.toNat := UInt32.toNat_mod word rate
  have hhundred : (100 : UInt64).toNat = 100 := rfl
  rw [UInt64.toNat_mul, UInt32.toNat_toUInt64, hhundred, Nat.mod_eq_of_lt (by omega), hmod]

theorem toNat_scaled_div (word rate : UInt32) :
    ((word % rate).toUInt64 * 100 / rate.toUInt64).toNat =
      word.toNat % rate.toNat * 100 / rate.toNat := by
  rw [UInt64.toNat_div, toNat_scaled, UInt32.toNat_toUInt64]

theorem textAtRate_frames (word framesPerSecond : UInt32) :
    frames.textAtRate word framesPerSecond =
      timeText (hundredthsOfFrames word framesPerSecond) := by
  obtain ⟨hseconds, hrest⟩ := hundredthsOfFrames_div_mod word framesPerSecond
  rw [timeText, hseconds, hrest, textAtRate]
  simp only [toNat_scaled_div, UInt32.toNat_div, toNat_max_one]

theorem max_one_ne_zero (framesPerSecond : UInt32) : max framesPerSecond 1 ≠ 0 := by
  intro hzero
  have hnumber := toNat_max_one framesPerSecond
  rw [hzero, UInt32.toNat_zero] at hnumber
  omega

theorem toUInt64_ne_zero {word : UInt32} (hword : word ≠ 0) : word.toUInt64 ≠ 0 := by
  intro hzero
  apply hword
  rw [← UInt32.toNat_inj, ← UInt32.toNat_toUInt64, hzero]
  rfl

/-- No step that shows frames divides by zero or has a result that does not fit. -/
theorem framesText?_eq (word framesPerSecond : UInt32) :
    framesText? word framesPerSecond = some (frames.textAtRate word framesPerSecond) := by
  have hrate := max_one_ne_zero framesPerSecond
  have hwide := toUInt64_ne_zero hrate
  -- The rest of a word is a word, so that a hundred of it are far from 64 bits; divided by the rate
  -- again they are less than a hundred.
  have hproduct : (word % max framesPerSecond 1).toUInt64.toNat * (100 : UInt64).toNat < 2 ^ 64 := by
    have hlt := (word % max framesPerSecond 1).toNat_lt
    have hhundred : (100 : UInt64).toNat = 100 := rfl
    rw [UInt32.toNat_toUInt64, hhundred]
    omega
  have hnarrow : ((word % max framesPerSecond 1).toUInt64 * 100 /
      (max framesPerSecond 1).toUInt64).toNat < 100 := by
    have hpositive : 0 < (max framesPerSecond 1).toNat := by
      rw [toNat_max_one]
      omega
    rw [toNat_scaled_div]
    exact mod_mul_div_lt hpositive (by decide) _
  have hsixty : (60 : UInt32) ≠ 0 := by decide
  have hfits := Nat.lt_trans hnarrow (by decide : 100 < 2 ^ 32)
  simp only [framesText?, quotient?, remainder?, product?, narrowed?, if_neg hrate, if_neg hwide,
    if_neg hsixty, if_pos hproduct, if_pos hfits, Option.bind_eq_bind, Option.bind_some,
    UInt64.toNat_toUInt32, Nat.mod_eq_of_lt hfits]
  rfl

/-! ## The time formats -/

theorem minutesSeconds_div (total : ℕ) :
    minutesSeconds (total / 100) = padded 2 (total / 6000) ++ ":" ++ padded 2 (total / 100 % 60) := by
  rw [minutesSeconds, Nat.div_div_eq_div_mul]

/-- A text of a number of hundredths of a second: a clock of minutes, at least two digits of them,
and seconds, two digits, and after it the hundredths, two digits as well. -/
def ShowsTime (total : ℕ) (clock text : String) : Prop :=
  ∃ minutes seconds rest, clock = minutes ++ ":" ++ seconds ∧ text = clock ++ "." ++ rest ∧
    Fills 2 (total / 6000) minutes ∧ Fills 2 (total / 100 % 60) seconds ∧ seconds.length = 2 ∧
    Fills 2 (total % 100) rest ∧ rest.length = 2

theorem showsTime_timeText (total : ℕ) :
    ShowsTime total (minutesSeconds (total / 100)) (timeText total) := by
  have hseconds := fills_padded 2 (total / 100 % 60)
  have hrest := fills_padded 2 (total % 100)
  exact ⟨_, _, _, minutesSeconds_div total, rfl, fills_padded 2 (total / 6000), hseconds,
    hseconds.length_of_lt (by decide) (by omega), hrest, hrest.length_of_lt (by decide) (by omega)⟩

/-- Whole seconds are no more than the frames, so that they fit in a word. -/
theorem hundredthsOfFrames_div_lt (word framesPerSecond : UInt32) :
    hundredthsOfFrames word framesPerSecond / 100 < 2 ^ 32 := by
  rw [(hundredthsOfFrames_div_mod word framesPerSecond).1]
  exact Nat.lt_of_le_of_lt (Nat.div_le_self _ _) word.toNat_lt

/-- Frames are shown as the exact time that they last, rounded down to hundredths.  The clock of it
is what the format of seconds shows, the whole what the format of hundredths shows as far as the
hundredths fit in a word; and no step on the way divides by zero or has a result that does not
fit. -/
theorem textAtRate_frames_exact (word framesPerSecond otherRate : UInt32) :
    framesText? word framesPerSecond = some (frames.textAtRate word framesPerSecond) ∧
    hundredthsOfFrames word framesPerSecond / 100 < 2 ^ 32 ∧
    ShowsTime (hundredthsOfFrames word framesPerSecond)
      (seconds.textAtRate (UInt32.ofNat (hundredthsOfFrames word framesPerSecond / 100)) otherRate)
      (frames.textAtRate word framesPerSecond) ∧
    (hundredthsOfFrames word framesPerSecond < 2 ^ 32 →
      frames.textAtRate word framesPerSecond =
        hundredths.textAtRate (UInt32.ofNat (hundredthsOfFrames word framesPerSecond))
          otherRate) := by
  have hclock := hundredthsOfFrames_div_lt word framesPerSecond
  refine ⟨framesText?_eq word framesPerSecond, hclock, ?_, fun htotal => ?_⟩
  · rw [textAtRate_frames, textAtRate, UInt32.toNat_ofNat_of_lt' hclock]
    exact showsTime_timeText _
  · rw [textAtRate_frames, textAtRate, UInt32.toNat_ofNat_of_lt' htotal, timeText]

/-- The largest value, at the lowest rate at which its hundredths fit in a word. -/
theorem textAtRate_frames_exact_longest :
    hundredthsOfFrames 0xffffffff 100 < 2 ^ 32 ∧
      frames.textAtRate 0xffffffff 100 = hundredths.textAtRate 0xffffffff 60 ∧
      frames.textAtRate 0xffffffff 100 = "715827:52.95" := by
  obtain ⟨-, -, -, hwhole⟩ := textAtRate_frames_exact 0xffffffff 100 60
  exact ⟨by decide, hwhole (by decide), by decide +kernel⟩

end AchievementLogic.Format
