/-!
# Doubles as exact dyadic numbers

A finite double is a whole number times a power of two.  This module takes doubles apart into that
form, builds the double nearest to a quotient of whole numbers, and turns doubles into 32-bit words.
Everything is stated on the bits of a double, so that no step depends on how a machine adds or
divides.
-/

namespace AchievementLogic.Binary64

/-- The non-negative number `mantissa * 2 ^ exponent`. -/
structure Magnitude where
  mantissa : Nat
  exponent : Int
deriving DecidableEq, Repr

/-- The exponent field of a double, from 0 for the subnormal numbers to 2047 for the values that
are not finite. -/
def exponentField (bits : UInt64) : Nat := (bits.toNat / Nat.pow 2 52) % Nat.pow 2 11

def fractionField (bits : UInt64) : Nat := bits.toNat % Nat.pow 2 52

def signBit (bits : UInt64) : Bool := bits.toNat / Nat.pow 2 63 == 1

def magnitude (bits : UInt64) : Magnitude :=
  if exponentField bits = 0 then ⟨fractionField bits, -1074⟩
  else ⟨Nat.pow 2 52 + fractionField bits, (exponentField bits : Int) - 1075⟩

/-- The bits of positive infinity, which also bound the bits of the finite positive doubles. -/
def infinityBits : Nat := 2047 * Nat.pow 2 52

/-- The quotient of two whole numbers rounded to the nearest whole number, a tie to the even one. -/
def divideToEven (numerator denominator : Nat) : Nat :=
  let quotient := numerator / denominator
  let remainder := numerator % denominator
  if 2 * remainder < denominator then quotient
  else if denominator < 2 * remainder then quotient + 1
  else if quotient % 2 = 0 then quotient else quotient + 1

/-- The exponent of the last place of the double nearest to `numerator / denominator`: the quotient
by that power of two has 53 binary digits, fewer only where the doubles run out of exponents. -/
def lastPlace (numerator denominator : Nat) : Int :=
  let estimate : Int := (numerator.log2 : Int) - denominator.log2
  let reached := if 0 ≤ estimate then denominator * Nat.pow 2 estimate.toNat ≤ numerator
    else denominator ≤ numerator * Nat.pow 2 (-estimate).toNat
  max (-1074) (if reached then estimate - 52 else estimate - 53)

/-- The bits of the non-negative double nearest to `numerator / denominator`.

Counting last places from the smallest double gives the bits directly: a mantissa that rounds up to
`2 ^ 53` carries into the exponent field, and whatever passes the largest finite double is infinite. -/
def nearestBits (numerator denominator : Nat) : Nat :=
  if numerator = 0 then 0
  else
    let place := lastPlace numerator denominator
    let mantissa :=
      if 0 ≤ place then divideToEven numerator (denominator * Nat.pow 2 place.toNat)
      else divideToEven (numerator * Nat.pow 2 (-place).toNat) denominator
    min infinityBits ((place + 1074).toNat * Nat.pow 2 52 + mantissa)

/-- The double nearest to `numerator / denominator`, below zero if `negative`. -/
def ofRatio (negative : Bool) (numerator denominator : Nat) : Float :=
  let sign := if negative then Nat.pow 2 63 else 0
  Float.ofBits (UInt64.ofNat (nearestBits numerator denominator + sign))

/-- Truncates toward zero into a signed 64-bit number, clamping at its ends, and keeps the low
32 bits.  What is no number becomes zero. -/
def toWord (value : Float) : UInt32 :=
  if value < 0 then (0 - min (-value).toUInt64 0x8000000000000000).toUInt32
  else (min value.toUInt64 0x7FFFFFFFFFFFFFFF).toUInt32

/-- The larger of two doubles; one that is no number gives way to the other. -/
def larger (left right : Float) : Float :=
  if left.isNaN then right
  else if right.isNaN then left
  else if left < right then right else left

def ofSingleBits (bits : UInt32) : Float :=
  let negative := bits.toNat / Nat.pow 2 31 == 1
  let exponent := (bits.toNat / Nat.pow 2 23) % Nat.pow 2 8
  let fraction := bits.toNat % Nat.pow 2 23
  let sign := if negative then Nat.pow 2 63 else 0
  if exponent = 255 then
    Float.ofBits (UInt64.ofNat (sign + infinityBits + fraction * Nat.pow 2 29))
  else if exponent = 0 then
    ofRatio negative fraction (Nat.pow 2 149)
  else
    Float.ofBits <| UInt64.ofNat <|
      sign + (exponent + 896) * Nat.pow 2 52 + fraction * Nat.pow 2 29

end AchievementLogic.Binary64
