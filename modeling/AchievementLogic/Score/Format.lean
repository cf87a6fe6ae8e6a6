import AchievementLogic.Text.Fields

/-!
# How values are shown

A value is a 32-bit word.  Scores show it as a signed number, times as minutes and seconds; a
number of frames becomes a time by the frame rate.
-/

namespace AchievementLogic

inductive Format
  /-- A signed number. -/
  | value
  /-- A signed number of six digits, in points. -/
  | points
  /-- Frames, shown as minutes, seconds and hundredths. -/
  | frames
  /-- Seconds, shown as minutes and seconds. -/
  | seconds
  /-- Hundredths of a second, shown as minutes, seconds and hundredths. -/
  | hundredths
  /-- A signed number of six digits. -/
  | sixDigits
deriving DecidableEq, Repr, Inhabited

namespace Format

/-- The format of a name; a name that means nothing stands for plain values. -/
def ofName (name : String) : Format :=
  match Text.trim name with
  | "SECS" | "TIMESECS" => seconds
  | "FRAMES" | "TIME" => frames
  | "POINTS" | "SCORE" => points
  | "MILLISECS" => hundredths
  | "OTHER" => sixDigits
  | _ => value

def name : Format → String
  | value => "VALUE"
  | points => "POINTS"
  | frames => "FRAMES"
  | seconds => "SECS"
  | hundredths => "MILLISECS"
  | sixDigits => "OTHER"

theorem ofName_name (format : Format) : ofName format.name = format := by
  cases format <;> decide +kernel

def padded (width number : Nat) : String :=
  let digits := toString number
  String.ofList (List.replicate (width - digits.length) '0') ++ digits

/-- A signed number with zeros after its sign up to a width, which the sign counts for. -/
def paddedSigned (width : Nat) (number : Int) : String :=
  if number < 0 then "-" ++ padded (width - 1) number.natAbs else padded width number.natAbs

def signed (word : UInt32) : Int := word.toInt32.toInt

def minutesSeconds (seconds : Nat) : String := padded 2 (seconds / 60) ++ ":" ++ padded 2 (seconds % 60)

def withHundredths (seconds hundredths : Nat) : String :=
  minutesSeconds seconds ++ "." ++ padded 2 hundredths

/-- The text of a value, frames passing at a rate of at least one per second. -/
def textAtRate (format : Format) (word framesPerSecond : UInt32) : String :=
  match format with
  | value => toString (signed word)
  | points => paddedSigned 6 (signed word) ++ " Points"
  | sixDigits => paddedSigned 6 (signed word)
  | seconds => minutesSeconds word.toNat
  | hundredths => withHundredths (word.toNat / 100) (word.toNat % 100)
  | frames =>
    let rate := max framesPerSecond 1
    let rest := (word % rate).toUInt64 * 100 / rate.toUInt64
    withHundredths (word / rate).toNat rest.toNat

/-- The text of a value at sixty frames per second. -/
def text (format : Format) (word : UInt32) : String := format.textAtRate word 60

end Format

end AchievementLogic
