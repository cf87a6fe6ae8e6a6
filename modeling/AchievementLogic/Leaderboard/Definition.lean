import AchievementLogic.Score.Formula
import AchievementLogic.Trigger.Text

/-!
# Leaderboard definitions

A definition is a list of sections, each introduced by a tag of four characters and separated from
the next by `::`.  The triggers that start, cancel and submit an attempt and the formula of its value
have to be there; the formula of its progress, a format, a title and a description may be.  A section
that comes twice counts the second time.
-/

namespace AchievementLogic

open Text (Scan)

namespace Leaderboard

structure Definition where
  start : Trigger
  cancel : Trigger
  submit : Trigger
  value : Formula
  progress? : Option Formula := none
  format? : Option Format := none
  title? : Option String := none
  description? : Option String := none

/-- The sections found so far. -/
structure Sections where
  start? : Option Trigger := none
  cancel? : Option Trigger := none
  submit? : Option Trigger := none
  value? : Option Formula := none
  progress? : Option Formula := none
  format? : Option Format := none
  title? : Option String := none
  description? : Option String := none

namespace Sections

/-- Fails unless a section ends here: at the end of the text or before `::`. -/
def expectEnd : Reader Unit := do
  let scan ← get
  if scan.startsWith "::" then return ()
  else Reader.finish

/-- Reads a section's body and then expects its end. -/
def body (reader : Reader α) : Reader α := do
  let value ← reader
  expectEnd
  return value

/-- The bytes before the next two colons, or all of them. -/
def bytesBeforeColons : List UInt8 → List UInt8
  | [] => []
  | head :: tail =>
    if head = 58 && tail.head? = some 58 then [] else head :: bytesBeforeColons tail

/-- Reads free text up to the end of its section. -/
def readText : Reader String := do
  let letters := bytesBeforeColons (← get).remaining
  Reader.skip letters.length
  return (Text.ofBytes? letters).getD ""

/-- The tag that introduces a section: four bytes, or all the text where those are no text. -/
def tagAt (scan : Scan) : String :=
  if 4 ≤ scan.remaining.length then (Text.ofBytes? (scan.remaining.take 4)).getD scan.rest
  else scan.rest

def readOne (sections : Sections) : Reader Sections := do
  let scan ← get
  let tag := tagAt scan
  Reader.skip 4
  match tag.toUpper with
  | "STA:" => return { sections with start? := some (← body Trigger.read) }
  | "CAN:" => return { sections with cancel? := some (← body Trigger.read) }
  | "SUB:" => return { sections with submit? := some (← body Trigger.read) }
  | "VAL:" => return { sections with value? := some (← body Formula.read) }
  | "PRO:" => return { sections with progress? := some (← body Formula.read) }
  | "FOR:" => return { sections with format? := some (Format.ofName (← readText)) }
  | "TTL:" => return { sections with title? := some (← readText) }
  | "DES:" => return { sections with description? := some (← readText) }
  | _ => throw ⟨.unknownSection tag scan.position, none⟩

/-- Reads sections up to the end of the text, `rounds` at the most. -/
def readFrom (sections : Sections) : Nat → Reader Sections
  | 0 => return sections
  | rounds + 1 => do
    let sections ← sections.readOne
    Reader.skip 2
    if (← get).atEnd then return sections
    else sections.readFrom rounds

/-- Takes a section that has to be there. -/
def need (section? : Option α) (tag : String) : Except ParseError α :=
  match section? with
  | some found => .ok found
  | none => .error ⟨.missingSection tag, none⟩

def toDefinition (sections : Sections) : Except ParseError Definition := do
  let start ← need sections.start? "STA"
  let cancel ← need sections.cancel? "CAN"
  let submit ← need sections.submit? "SUB"
  let value ← need sections.value? "VAL"
  return { start, cancel, submit, value
           progress? := sections.progress?, format? := sections.format?
           title? := sections.title?, description? := sections.description? }

end Sections

namespace Definition

/-- The definition that a text writes.  Line ends after it do not count.  Every section takes its
tag from the text, so that there are no more of them than bytes. -/
def ofText (text : String) : Except ParseError Definition :=
  let scan := Scan.ofString (Text.trimLineEnd text)
  match ((({} : Sections).readFrom (scan.remaining.length + 1)).run scan) with
  | .ok sections _ => sections.toDefinition
  | .error error _ => .error error

def text (definition : Definition) : String :=
  "STA:" ++ definition.start.text ++ "::CAN:" ++ definition.cancel.text ++
    "::SUB:" ++ definition.submit.text ++
    ((definition.progress?.map fun formula => "::PRO:" ++ formula.text).getD "") ++
    "::VAL:" ++ definition.value.text ++
    ((definition.format?.map fun format => "::FOR:" ++ format.name).getD "") ++
    ((definition.title?.map fun title => "::TTL:" ++ title).getD "") ++
    ((definition.description?.map fun description => "::DES:" ++ description).getD "")

end Definition

end Leaderboard

end AchievementLogic
