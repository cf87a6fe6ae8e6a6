import AchievementLogic.Leaderboard.Definition

/-!
# Leaderboards

A leaderboard waits for its start trigger, runs an attempt until it is cancelled or submitted, and
then stays disarmed until the start trigger has been false once.  All three triggers are tested on
every frame, whatever the phase.

What was submitted is ranked.  A ranking holds at most one row for each rank, the first that was
submitted.
-/

namespace AchievementLogic

namespace Leaderboard

/-! ## Rankings -/

structure Rank where
  rank : UInt32
  user : String
  score : Int
  /-- When it was achieved, in seconds. -/
  achieved : Int
deriving DecidableEq, Repr

abbrev Ranking := List Rank

namespace Ranking

/-- Adds a row, unless its rank is taken. -/
def submit (ranking : Ranking) (row : Rank) : Ranking :=
  if ranking.any (·.rank == row.rank) then ranking else ranking ++ [row]

def sort (ranking : Ranking) : Ranking := ranking.mergeSort fun left right => left.rank ≤ right.rank

end Ranking

/-! ## Phases -/

inductive Phase
  | waiting
  | active
  /-- An attempt ended; waits for the start trigger to become false. -/
  | disarmed
  /-- There is no valid definition. -/
  | invalid
deriving DecidableEq, Repr

/-- What an attempt came to on a frame, a submission with its value. -/
inductive Change
  | started
  | canceled
  | submitted (value : UInt32)
deriving DecidableEq, Repr

/-- What ended or began on a frame, before its value is known. -/
inductive Step
  | start
  | cancel
  | submit
deriving DecidableEq, Repr

/-- How a phase goes on by the truth of the three triggers. -/
def Phase.next (phase : Phase) (start cancel submit : Bool) : Phase × Option Step :=
  match phase with
  | waiting =>
    if start && !cancel then
      if submit then (disarmed, some .submit) else (active, some .start)
    else (waiting, none)
  | active =>
    if cancel then (disarmed, some .cancel)
    else if submit then (disarmed, some .submit)
    else (active, none)
  | disarmed => if start then (disarmed, none) else (waiting, none)
  | invalid => (invalid, none)

end Leaderboard

/-! ## Leaderboards -/

structure Leaderboard where
  id : UInt32
  title : String
  description : String
  format : Format
  definition? : Option Leaderboard.Definition
  phase : Leaderboard.Phase
  ranking : Leaderboard.Ranking := []

namespace Leaderboard

/-- A leaderboard by the text of its definition.  What the definition says of format, title and
description counts; a definition that cannot be read leaves the leaderboard invalid. -/
def ofText (id : UInt32) (text : String) (format : Format) : Leaderboard :=
  match Definition.ofText text with
  | .ok definition =>
    { id
      title := definition.title?.getD ""
      description := definition.description?.getD ""
      format := definition.format?.getD format
      definition? := some definition
      phase := .waiting }
  | .error _ => { id, title := "", description := "", format, definition? := none, phase := .invalid }

def withTitle (leaderboard : Leaderboard) (title description : String) : Leaderboard :=
  { leaderboard with title, description }

def isActive (leaderboard : Leaderboard) : Bool := leaderboard.phase = .active

def isValid (leaderboard : Leaderboard) : Bool := leaderboard.definition?.isSome

def test (leaderboard : Leaderboard) (frame : Frame) : Option Change × Leaderboard :=
  match leaderboard.definition? with
  | none => (none, leaderboard)
  | some definition =>
    let (start, startAfter) := definition.start.test frame
    let (cancel, cancelAfter) := definition.cancel.test frame
    let (submit, submitAfter) := definition.submit.test frame
    let (phase, step?) := leaderboard.phase.next start.result cancel.result submit.result
    let change? := step?.map fun
      | .start => Change.started
      | .cancel => Change.canceled
      | .submit => Change.submitted (definition.value.value frame)
    (change?,
      { leaderboard with
        definition? := some { definition with
          start := startAfter, cancel := cancelAfter, submit := submitAfter }
        phase })

/-- Clears all hits and waits again. -/
def reset (leaderboard : Leaderboard) : Leaderboard :=
  match leaderboard.definition? with
  | none => leaderboard
  | some definition =>
    { leaderboard with
      definition? := some { definition with
        start := definition.start.reset
        cancel := definition.cancel.reset
        submit := definition.submit.reset }
      phase := .waiting }

/-- The value to show during an attempt: that of the progress formula, if there is one. -/
def currentValue (leaderboard : Leaderboard) (frame : Frame) : UInt32 :=
  match leaderboard.definition? with
  | none => 0
  | some definition => (definition.progress?.getD definition.value).value frame

def submissionValue (leaderboard : Leaderboard) (frame : Frame) : UInt32 :=
  match leaderboard.definition? with
  | none => 0
  | some definition => definition.value.value frame

def submitRank (leaderboard : Leaderboard) (row : Rank) : Leaderboard :=
  { leaderboard with ranking := Ranking.submit leaderboard.ranking row }

def sortRanking (leaderboard : Leaderboard) : Leaderboard :=
  { leaderboard with ranking := Ranking.sort leaderboard.ranking }

def clearRanking (leaderboard : Leaderboard) : Leaderboard := { leaderboard with ranking := [] }

end Leaderboard

end AchievementLogic
