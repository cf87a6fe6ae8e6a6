import AchievementLogic.Text.ParseError
import AchievementLogic.Text.Scan

/-!
# Readers of definitions

A reader takes a value from a place in a text and moves the place forward; it fails with a parse
error, and then also leaves the place where it stopped.  Every reader of a definition language is
built from the few below.
-/

namespace AchievementLogic

open Text (Scan)

abbrev Reader := EStateM ParseError Scan

namespace Reader

/-- What the scan shows, without moving. -/
def look (view : Scan → α) : Reader α := do
  return view (← get)

def peek : Reader (Option Char) := look Scan.peek

def position : Reader Nat := look Scan.position

def skip (count : Nat) : Reader Unit := modify (·.skip count)

/-- Fails at a place that need not be the current one. -/
def fail (cause : ParseError.Cause) (position : Nat) : Reader α :=
  throw ⟨cause, some position⟩

/-- Moves to where `step` leads, if it leads anywhere, and says whether it did. -/
def accepts (step : Scan → Option Scan) : Reader Bool := do
  match step (← get) with
  | some after => set after; return true
  | none => return false

def accept (expected : Char) : Reader Bool := accepts (·.accept? expected)

/-- Reads with `read`; where it finds nothing, fails with `cause` at `position`. -/
def require (read : Scan → Option (α × Scan)) (cause : ParseError.Cause) (position : Nat) :
    Reader α := do
  match read (← get) with
  | some (value, after) => set after; return value
  | none => fail cause position

/-- Items with one separator between two of them, `rounds` further ones at the most. -/
def separatedFrom (item : Reader α) (separator : Char) : Nat → Reader (List α)
  | 0 => return [← item]
  | rounds + 1 => do
    let first ← item
    if ← accept separator then
      return first :: (← separatedFrom item separator rounds)
    else
      return [first]

/-- One or more items with one separator between two of them.  Every further item follows a
separator, so that there are no more of them than unread bytes. -/
def separated (item : Reader α) (separator : Char) : Reader (List α) := do
  separatedFrom item separator (← get).remaining.length

def finish : Reader Unit := do
  match ← peek with
  | none => return ()
  | some found => fail (.unexpectedCharacter found) (← position)

def readAll (reader : Reader α) (text : String) : Except ParseError α :=
  match (do let value ← reader; finish; return value : Reader α).run (Scan.ofString text) with
  | .ok value _ => .ok value
  | .error error _ => .error error

end Reader

end AchievementLogic
