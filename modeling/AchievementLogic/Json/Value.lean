import AchievementLogic.Text.Fields

/-!
# JSON values

A value keeps what a reader may ask for.  Strings are kept as texts, or as nothing where an escape
names half of a character only: such a string may stand in a document as long as nobody reads it.
Of a number it is kept whether it is written as a whole number.
-/

namespace AchievementLogic.Json

structure Numeral where
  negative : Bool
  whole : Nat
  /-- Whether there is neither a fraction nor an exponent. -/
  integral : Bool
deriving DecidableEq, Repr

/-- The whole number that a numeral writes.  A negative zero is none. -/
def Numeral.toInt? (numeral : Numeral) : Option Int :=
  if !numeral.integral || (numeral.negative && numeral.whole = 0) then none
  else some (if numeral.negative then -numeral.whole else numeral.whole)

inductive Value
  | null
  | bool (value : Bool)
  | number (numeral : Numeral)
  | string (text? : Option String)
  | array (items : List Value)
  /-- Keys and values in the order in which they are written. -/
  | object (members : List (Option String × Value))

namespace Value

def toInt? : Value → Option Int
  | number numeral => numeral.toInt?
  | _ => none

def toWord? (value : Value) : Option UInt32 := value.toInt?.bind Width.word?

def toInt64? (value : Value) : Option Int64 := value.toInt?.bind Width.int64?

def toText? : Value → Option String
  | string text? => text?
  | _ => none

def toList? : Value → Option (List Value)
  | array items => some items
  | _ => none

/-- The values of the fields of a record, in the order of their names.  A record is written as an
object, in which each of its names comes at most once and other names mean nothing, or as an array
of its fields, of which the last ones may be missing. -/
def fields? (names : List String) : Value → Option (List (Option Value))
  | object members => do
    let keys ← members.mapM (·.1)
    let values := members.map (·.2)
    names.mapM fun name =>
      match (keys.zip values).filter (·.1 == name) with
      | [] => some none
      | [(_, value)] => some (some value)
      | _ => none
  | array items =>
    if items.length ≤ names.length then
      some (items.map some ++ List.replicate (names.length - items.length) none)
    else none
  | _ => none

end Value

end AchievementLogic.Json
