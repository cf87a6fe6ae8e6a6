import AchievementLogic.Number.Binary64

/-!
# The shortest decimal that reads back

A finite double is written with the fewest significant digits that no other double is nearer to,
and among those with the digits nearest to its exact value.  The digits are found by exact
arithmetic on whole numbers: for one digit, two digits and so on, the two neighbours of the value
on that decimal grid are tried against the interval of numbers that round to the double.
-/

namespace AchievementLogic.Decimal

open Binary64 (Magnitude)

/-- The decimal number `digits * 10 ^ exponent`. -/
structure Digits where
  digits : Nat
  exponent : Int
deriving DecidableEq, Repr

/-- The numbers that round to one double, as multiples of one common unit.  `value` is the double
itself; the ends belong to the interval if `closed`. -/
structure Interval where
  low : Nat
  value : Nat
  high : Nat
  closed : Bool
deriving DecidableEq, Repr

/-- The interval of a double, in quarters of its last place.  Below a power of two the doubles lie
twice as close, so the lower half is half as wide there. -/
def Interval.ofMagnitude (magnitude : Magnitude) : Interval :=
  let value := 4 * magnitude.mantissa
  let atPower := magnitude.mantissa = Nat.pow 2 52 ∧ -1074 < magnitude.exponent
  { low := value - if atPower then 1 else 2
    value
    high := value + 2
    closed := magnitude.mantissa % 2 = 0 }

/-- Rescales an interval, so that whole numbers count units of `10 ^ exponent` in parts of
`denominator`: the interval of `numerator / denominator` multiples. -/
structure Grid where
  numerator : Nat
  denominator : Nat
deriving DecidableEq, Repr

/-- How many units of `10 ^ decimal` a quarter of `2 ^ binary` is. -/
def Grid.between (binary decimal : Int) : Grid :=
  { numerator := Nat.pow 2 (binary - 2).toNat * Nat.pow 10 (-decimal).toNat
    denominator := Nat.pow 2 (2 - binary).toNat * Nat.pow 10 decimal.toNat }

/-- Whether a number of grid units lies in the interval. -/
def Interval.holds (interval : Interval) (grid : Grid) (candidate : Nat) : Bool :=
  let scaled := candidate * grid.denominator
  let low := interval.low * grid.numerator
  let high := interval.high * grid.numerator
  if interval.closed then low ≤ scaled && scaled ≤ high else low < scaled && scaled < high

/-- The number of grid units in the interval that lies nearest to its value, a tie upwards. -/
def Interval.nearest? (interval : Interval) (grid : Grid) : Option Nat :=
  let exact := interval.value * grid.numerator
  let below := exact / grid.denominator
  let above := below + 1
  let aboveIsNearer := above * grid.denominator - exact ≤ exact - below * grid.denominator
  match interval.holds grid below && below != 0, interval.holds grid above with
  | true, true => some (if aboveIsNearer then above else below)
  | true, false => some below
  | false, true => some above
  | false, false => none

/-- The exponent of the first significant digit of `mantissa * 2 ^ exponent`. -/
def leadingExponent (magnitude : Magnitude) : Int :=
  let bits : Int := magnitude.mantissa.log2 + magnitude.exponent
  -- A power of ten is at least the power of two below it, so this estimate is at most one too low.
  let estimate := (bits * 30103).fdiv 100000
  let reaches (decimal : Int) : Bool :=
    Nat.pow 2 decimal.toNat * Nat.pow 5 decimal.toNat * Nat.pow 2 (-magnitude.exponent).toNat ≤
      magnitude.mantissa * Nat.pow 2 magnitude.exponent.toNat * Nat.pow 10 (-decimal).toNat
  if reaches (estimate + 1) then estimate + 1
  else if reaches estimate then estimate else estimate - 1

/-- Tries grids of ever more digits, at most `rounds` of them. -/
def shortestFrom (magnitude : Magnitude) (interval : Interval) : Nat → Int → Digits
  | 0, exponent => ⟨0, exponent⟩
  | rounds + 1, exponent =>
    match interval.nearest? (Grid.between magnitude.exponent exponent) with
    | some digits => ⟨digits, exponent⟩
    | none => shortestFrom magnitude interval rounds (exponent - 1)

/-- The shortest decimal of a positive finite double.  Seventeen digits always suffice. -/
def shortest (magnitude : Magnitude) : Digits :=
  shortestFrom magnitude (Interval.ofMagnitude magnitude) 20 (leadingExponent magnitude + 1)

/-- Positional notation: all digits before the point, a point only if digits follow it. -/
def Digits.positional (decimal : Digits) : String :=
  let digits := toString decimal.digits
  if 0 ≤ decimal.exponent then digits.pushn '0' decimal.exponent.toNat
  else
    let places := (-decimal.exponent).toNat
    let padded := if digits.length ≤ places then
      String.ofList (List.replicate (places + 1 - digits.length) '0') ++ digits else digits
    let split := padded.length - places
    let whole := String.ofList (padded.toList.take split)
    let fraction := (padded.toList.drop split).reverse.dropWhile (· == '0') |>.reverse
    if fraction.isEmpty then whole else whole ++ "." ++ String.ofList fraction

/-- The text of a double: the shortest decimal that reads back, in positional notation, whatever
its size.  A whole number has no point. -/
def text (value : Float) : String :=
  let bits := value.toBits
  let sign := if Binary64.signBit bits then "-" else ""
  if Binary64.exponentField bits = 2047 then
    if Binary64.fractionField bits = 0 then sign ++ "inf" else "NaN"
  else
    let magnitude := Binary64.magnitude bits
    if magnitude.mantissa = 0 then sign ++ "0" else sign ++ (shortest magnitude).positional

end AchievementLogic.Decimal
