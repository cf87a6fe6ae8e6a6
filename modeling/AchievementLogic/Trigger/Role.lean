/-!
# Roles of conditions

The role of a condition says what its truth or its value is for.  Checks and guards end a chain of
conditions; the other roles prepare the condition that follows them.
-/

namespace AchievementLogic

/-- Conditions whose truth a group joins together. -/
inductive Check
  | standard
  /-- Left out when the group is asked whether it is primed. -/
  | trigger
  | measured
  | measuredPercent
  /-- Empties the measured progress while it is false. -/
  | measuredIf
deriving DecidableEq, Repr

/-- Conditions that only change the operands of the next condition. -/
inductive Modifier
  | addSource
  | subSource
  | addAddress
deriving DecidableEq, Repr

/-- Conditions whose hits count with, or against, those of the end of the chain. -/
inductive Tally
  | addHits
  | subHits
deriving DecidableEq, Repr

/-- Conditions whose truth is joined with that of the next condition. -/
inductive Combiner
  | andNext
  | orNext
deriving DecidableEq, Repr

/-- Conditions that steer their group and are no part of its truth. -/
inductive Guard
  | pauseIf
  | resetIf
deriving DecidableEq, Repr

inductive Role
  | check (kind : Check)
  | modifier (kind : Modifier)
  | tally (kind : Tally)
  | combiner (kind : Combiner)
  /-- Clears the hits of the next condition. -/
  | resetNextIf
  | guard (kind : Guard)
deriving DecidableEq, Repr

namespace Role

instance : Inhabited Role := ⟨check .standard⟩

/-- The role named by the letter before a colon, in either case. -/
def ofLetter? (letter : Char) : Option Role :=
  match letter.toUpper with
  | 'P' => some (guard .pauseIf)
  | 'R' => some (guard .resetIf)
  | 'A' => some (modifier .addSource)
  | 'B' => some (modifier .subSource)
  | 'I' => some (modifier .addAddress)
  | 'C' => some (tally .addHits)
  | 'D' => some (tally .subHits)
  | 'N' => some (combiner .andNext)
  | 'O' => some (combiner .orNext)
  | 'Z' => some resetNextIf
  | 'T' => some (check .trigger)
  | 'M' => some (check .measured)
  | 'G' => some (check .measuredPercent)
  | 'Q' => some (check .measuredIf)
  | _ => none

/-- What is written before a condition of this role: a letter and a colon, or nothing. -/
def mark : Role → String
  | check .standard => ""
  | check .trigger => "T:"
  | check .measured => "M:"
  | check .measuredPercent => "G:"
  | check .measuredIf => "Q:"
  | modifier .addSource => "A:"
  | modifier .subSource => "B:"
  | modifier .addAddress => "I:"
  | tally .addHits => "C:"
  | tally .subHits => "D:"
  | combiner .andNext => "N:"
  | combiner .orNext => "O:"
  | resetNextIf => "Z:"
  | guard .pauseIf => "P:"
  | guard .resetIf => "R:"

/-- Modifiers may be written without a comparison. -/
def isModifier : Role → Bool
  | modifier _ => true
  | _ => false

def isTerminal : Role → Bool
  | check _ | guard _ => true
  | _ => false

def isMeasured : Role → Bool
  | check .measured | check .measuredPercent => true
  | _ => false

end Role

end AchievementLogic
