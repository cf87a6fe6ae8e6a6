import AchievementLogic.Number.Binary64

/-!
# Values of operands, and comparing them

An operand has a 32-bit word or a double as its value.  Two words are added, subtracted and
compared as unsigned words, wrapping around; as soon as one side is a double, both are taken as
doubles.
-/

namespace AchievementLogic

inductive Value
  | word (word : UInt32)
  | float (number : Float)

instance : Inhabited Value := ⟨.word 0⟩

namespace Value

def toFloat : Value → Float
  | word value => value.toFloat
  | float number => number

/-- The value as a word; a double is truncated and wraps around. -/
def toWord : Value → UInt32
  | word value => value
  | float number => Binary64.toWord number

def add : Value → Value → Value
  | word left, word right => word (left + right)
  | left, right => float (left.toFloat + right.toFloat)

def sub : Value → Value → Value
  | word left, word right => word (left - right)
  | left, right => float (left.toFloat - right.toFloat)

instance : Add Value := ⟨add⟩
instance : Sub Value := ⟨sub⟩

end Value

inductive Comparison
  | equal
  | notEqual
  | less
  | lessOrEqual
  | greater
  | greaterOrEqual
deriving DecidableEq, Repr

namespace Comparison

def mark : Comparison → String
  | equal => "="
  | notEqual => "!="
  | less => "<"
  | lessOrEqual => "<="
  | greater => ">"
  | greaterOrEqual => ">="

/-- The comparison that two characters begin with, and how many of them it takes.  Equality may be
written with one sign or two. -/
def ofMarks? : Option Char → Option Char → Option (Comparison × Nat)
  | some '=', some '=' => some (equal, 2)
  | some '=', _ => some (equal, 1)
  | some '!', some '=' => some (notEqual, 2)
  | some '<', some '=' => some (lessOrEqual, 2)
  | some '<', _ => some (less, 1)
  | some '>', some '=' => some (greaterOrEqual, 2)
  | some '>', _ => some (greater, 1)
  | _, _ => none

def holdsOnWords (comparison : Comparison) (left right : UInt32) : Bool :=
  match comparison with
  | equal => left == right
  | notEqual => left != right
  | less => left < right
  | lessOrEqual => left ≤ right
  | greater => left > right
  | greaterOrEqual => left ≥ right

/-- A comparison with something that is no number fails, save for inequality. -/
def holdsOnFloats (comparison : Comparison) (left right : Float) : Bool :=
  match comparison with
  | equal => left == right
  | notEqual => left != right
  | less => left < right
  | lessOrEqual => left ≤ right
  | greater => left > right
  | greaterOrEqual => left ≥ right

def holds (comparison : Comparison) : Value → Value → Bool
  | .word left, .word right => comparison.holdsOnWords left right
  | left, right => comparison.holdsOnFloats left.toFloat right.toFloat

end Comparison

end AchievementLogic
