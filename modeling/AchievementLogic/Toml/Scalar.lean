import AchievementLogic.Number.Binary64
import AchievementLogic.Text.Grammar
import AchievementLogic.Text.Scan
import AchievementLogic.Toml.Value

/-!
# Numbers and dates in TOML

A number, a date or a truth value is a run of characters without blanks and brackets.  Digits may be
parted by single underscores.
-/

namespace AchievementLogic.Toml

/-- The values of digits of a base, which single underscores may part. -/
def digitsOf? (base : Nat) : List Char → Option (List Nat)
  | [] => none
  | [digit] => (Text.digitValue? base digit).map ([·])
  | digit :: '_' :: rest => do
    let first ← Text.digitValue? base digit
    let others ← digitsOf? base rest
    return first :: others
  | digit :: rest => do
    let first ← Text.digitValue? base digit
    let others ← digitsOf? base rest
    return first :: others

def valueOfDigits (base : Nat) (digits : List Nat) : Nat :=
  digits.foldl (fun value digit => value * base + digit) 0

/-- A text without its sign, and whether that is a minus. -/
def splitSign : List Char → Bool × List Char
  | '-' :: rest => (true, rest)
  | '+' :: rest => (false, rest)
  | rest => (false, rest)

/-- A decimal number without a leading zero. -/
def wholeOf? (letters : List Char) : Option Nat := do
  let digits ← digitsOf? 10 letters
  guard (digits.length = 1 || letters.head? ≠ some '0')
  return valueOfDigits 10 digits

/-- A whole number, decimal with an optional sign or of another base without. -/
def integerOf? (letters : List Char) : Option Int := do
  let number : Int ← match letters with
    | '0' :: 'x' :: digits => (digitsOf? 16 digits).map fun digits => valueOfDigits 16 digits
    | '0' :: 'o' :: digits => (digitsOf? 8 digits).map fun digits => valueOfDigits 8 digits
    | '0' :: 'b' :: digits => (digitsOf? 2 digits).map fun digits => valueOfDigits 2 digits
    | _ =>
      let (negative, digits) := splitSign letters
      (wholeOf? digits).map fun size => if negative then -size else size
  guard (-0x8000000000000000 ≤ number && number < 0x8000000000000000)
  return number

/-- Whether the number of some decimal digits, scaled by a power of ten, rounds to infinity. -/
def overflows (digits : Nat) (exponent : Int) : Bool :=
  let size : Int := (Nat.toDigits 10 digits).length + exponent
  if digits = 0 || size < 300 then false
  else if 320 < size then true
  else Binary64.nearestBits (digits * Nat.pow 10 exponent.toNat) (Nat.pow 10 (-exponent).toNat) =
    Binary64.infinityBits

/-- Whether a text is a number with a fraction or an exponent, or one that is not finite.  A number
above the doubles is none. -/
def isFloat (letters : List Char) : Bool :=
  let (negative, unsigned) := splitSign letters
  if unsigned = "inf".toList || unsigned = "nan".toList then true
  else
    let whole := unsigned.takeWhile fun letter => letter.isDigit || letter = '_'
    let afterWhole := unsigned.drop whole.length
    let fraction := match afterWhole with
      | '.' :: rest => rest.takeWhile fun letter => letter.isDigit || letter = '_'
      | _ => []
    let hasFraction := afterWhole.head? = some '.'
    let exponent := if hasFraction then afterWhole.drop (fraction.length + 1) else afterWhole
    let fractionDigits? := if hasFraction then digitsOf? 10 fraction else some []
    let exponent? : Option Int := match exponent with
      | [] => if hasFraction then some 0 else none
      | mark :: rest =>
        let (below, digits) := splitSign rest
        if mark = 'e' || mark = 'E' then
          (digitsOf? 10 digits).map fun digits =>
            if below then -(valueOfDigits 10 digits : Int) else valueOfDigits 10 digits
        else none
    match wholeOf? whole, fractionDigits?, exponent? with
    | some whole, some fraction, some exponent =>
      let digits := whole * Nat.pow 10 fraction.length + valueOfDigits 10 fraction
      negative || !overflows digits (exponent - fraction.length)
    | _, _, _ => false

/-- The number that exactly `count` digits write, and what follows them. -/
def fixedDigits? (count : Nat) (letters : List Char) : Option (Nat × List Char) :=
  let digits := letters.take count
  if digits.length = count && digits.all Char.isDigit then
    some (valueOfDigits 10 (digits.map fun digit => digit.toNat - '0'.toNat), letters.drop count)
  else none

def daysIn (year month : Nat) : Nat :=
  let leap := year % 4 = 0 && (year % 100 ≠ 0 || year % 400 = 0)
  if month = 2 then (if leap then 29 else 28)
  else if month = 4 || month = 6 || month = 9 || month = 11 then 30 else 31

/-- What follows a day of a year, if one comes first. -/
def afterDay? (letters : List Char) : Option (List Char) := do
  let (year, rest) ← fixedDigits? 4 letters
  guard (rest.head? = some '-')
  let (month, rest) ← fixedDigits? 2 (rest.drop 1)
  guard (1 ≤ month && month ≤ 12 && rest.head? = some '-')
  let (day, rest) ← fixedDigits? 2 (rest.drop 1)
  guard (1 ≤ day && day ≤ daysIn year month)
  return rest

/-- What follows a time of day, if one comes first. -/
def afterTime? (letters : List Char) : Option (List Char) := do
  let (hour, rest) ← fixedDigits? 2 letters
  guard (hour ≤ 23 && rest.head? = some ':')
  let (minute, rest) ← fixedDigits? 2 (rest.drop 1)
  guard (minute ≤ 59 && rest.head? = some ':')
  let (second, rest) ← fixedDigits? 2 (rest.drop 1)
  guard (second ≤ 60)
  match rest with
  | '.' :: fraction =>
    guard ((fraction.head?.map Char.isDigit).getD false)
    return fraction.dropWhile Char.isDigit
  | _ => return rest

/-- Whether a text is a distance from universal time, or nothing. -/
def isOffset (letters : List Char) : Bool :=
  match letters with
  | [] | ['Z'] | ['z'] => true
  | sign :: rest =>
    (sign = '+' || sign = '-') && (do
      let (hour, rest) ← fixedDigits? 2 rest
      guard (hour ≤ 23 && rest.head? = some ':')
      let (minute, rest) ← fixedDigits? 2 (rest.drop 1)
      guard (minute ≤ 59 && rest.isEmpty) : Option Unit).isSome

def isOffsetTime (letters : List Char) : Bool := ((afterTime? letters).map isOffset).getD false

def isDay (letters : List Char) : Bool := afterDay? letters = some []

def isDate (letters : List Char) : Bool :=
  match afterDay? letters with
  | some [] => true
  | some (mark :: rest) => (mark = 'T' || mark = 't') && isOffsetTime rest
  | none => afterTime? letters = some []

/-- Characters of numbers, dates and truth values. -/
def isScalarLetter (letter : Char) : Bool :=
  letter.isAlphanum || letter = '_' || letter = '+' || letter = '-' || letter = '.' || letter = ':'

/-- A time after the blank that may stand between a day and its time. -/
def timeAfterBlank : Grammar Unit := do
  Grammar.expect ' '
  let letters ← Grammar.spanOfSome isScalarLetter
  if isOffsetTime letters then return () else failure

def scalar : Grammar Value := do
  let letters ← Grammar.spanOfSome isScalarLetter
  if letters = "true".toList then return .boolean true
  else if letters = "false".toList then return .boolean false
  else if isDate letters then
    if isDay letters then let _ ← Grammar.option timeAfterBlank
    return .date
  else match integerOf? letters with
    | some number => return .integer number
    | none => if isFloat letters then return .float else failure

end AchievementLogic.Toml
