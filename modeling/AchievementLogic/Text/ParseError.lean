/-!
# What can be wrong with a definition

A parse error is a cause and, where one is known, the byte at which it was noticed.  Its text is
made in one place, from the kind of the cause, the position and the cause's own words.
-/

namespace AchievementLogic

/-- The part of a definition that a cause lies in. -/
inductive ParseError.Kind
  | operand
  | comparison
  | hitCount
  | role
  | value
  | leaderboard
  | unexpected
deriving DecidableEq, Repr

inductive ParseError.Cause
  | noOperand
  | noNumber
  | noHexNumber
  | noFloatNumber
  | noFloatSize
  | noHexMark
  | noAddress
  | noComparison
  | noHitCount
  | openHitCount (close : Char)
  | unknownRole (letter : Char)
  | unsupportedOperand
  | noSecondAddress
  | noMultiplier
  | unknownSection (tag : String) (offset : Nat)
  | missingSection (tag : String)
  | unexpectedCharacter (found : Char)
deriving DecidableEq, Repr

structure ParseError where
  cause : ParseError.Cause
  position? : Option Nat
deriving DecidableEq, Repr

namespace ParseError

/-- The words that introduce an error of a kind. -/
def Kind.label : Kind → String
  | operand => "Invalid operand"
  | comparison => "Invalid comparison"
  | hitCount => "Invalid hit count"
  | role => "Invalid condition type"
  | value => "Invalid value"
  | leaderboard => "Invalid leaderboard"
  | unexpected => "Unexpected input"

def Cause.kind : Cause → Kind
  | noOperand | noNumber | noHexNumber | noFloatNumber | noFloatSize | noHexMark | noAddress =>
    .operand
  | noComparison => .comparison
  | noHitCount | openHitCount _ => .hitCount
  | unknownRole _ => .role
  | unsupportedOperand | noSecondAddress | noMultiplier => .value
  | unknownSection .. | missingSection _ => .leaderboard
  | unexpectedCharacter _ => .unexpected

def Cause.detail : Cause → String
  | noOperand => "expected operand"
  | noNumber => "expected value"
  | noHexNumber => "expected hex value"
  | noFloatNumber => "expected float value"
  | noFloatSize => "expected float size"
  | noHexMark => "expected '0x'"
  | noAddress => "expected address"
  | noComparison => "expected comparison"
  | noHitCount => "expected hit count"
  | openHitCount close => s!"expected '{close}' after hit count"
  | unknownRole letter => s!"unknown condition type '{letter}'"
  | unsupportedOperand => "unsupported clause operand"
  | noSecondAddress => "expected second address"
  | noMultiplier => "expected multiplier"
  | unknownSection tag offset => s!"unknown section '{tag}' at offset {offset}"
  | missingSection tag => s!"missing {tag} section"
  | unexpectedCharacter found => s!"unexpected character '{found}'"

def kind (error : ParseError) : Kind := error.cause.kind

def message (error : ParseError) : String :=
  match error.position? with
  | some position => s!"{error.kind.label} at offset {position}: {error.cause.detail}"
  | none => s!"{error.kind.label}: {error.cause.detail}"

end ParseError

end AchievementLogic
