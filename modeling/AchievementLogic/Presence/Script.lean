import AchievementLogic.Presence.Display
import AchievementLogic.Trigger.Text

/-!
# Rich presence scripts

A script describes what a player is doing.  Its sections are lookup tables, formats and the display,
which holds any number of lines with a condition and then one without.  Lines outside of a section
mean nothing.  A script is read line by line, by a machine that knows which section it is in.

In a script `//` begins a comment, and a backslash takes the next character for itself.  Comments
are found among the bytes of a line: the marks are ASCII, so that no byte of a longer character is
one of them.
-/

namespace AchievementLogic.Presence

/-! ## Comments -/

/-- Where a comment begins among the bytes of a line, if there is one.  The byte after a backslash
begins none. -/
def commentStart? : List UInt8 → Option Nat
  | first :: second :: others =>
    if first = 92 then (commentStart? others).map (· + 2)
    else if first = 47 && second = 47 then some 0
    else (commentStart? (second :: others)).map (· + 1)
  | _ => none

/-- A line without its comment and the blanks before that.  Without a comment nothing is cut. -/
def stripComment (line : String) : String :=
  let bytes := Text.bytesOf line
  match commentStart? bytes with
  | some start => Text.trimEnd ((Text.ofBytes? (bytes.take start)).getD "")
  | none => line

/-! ## Scripts -/

/-- A display line that is shown while its trigger is true; never where that could not be read. -/
structure ConditionalDisplay where
  trigger? : Option Trigger
  display : Display

/-- What has been read of a script. -/
structure Script where
  /-- The lookup tables by name, later ones first. -/
  lookups : List (String × Lookup) := []
  formats : List (String × Format) := []
  conditional : List ConditionalDisplay := []
  default? : Option Display := none

/-- The section that the next line belongs to. -/
inductive Section
  | outside
  | lookup (table : Lookup)
  /-- After the head of a format, whose next line may give its kind. -/
  | format (name : String)
  | display

namespace Script

/-- Whether there is a line to show when no condition holds. -/
def enabled (script : Script) : Bool := script.default?.isSome

def lookup? (script : Script) (name : String) : Option Lookup := script.lookups.lookup name

def format? (script : Script) (name : String) : Option Format := script.formats.lookup name

def addLookup (script : Script) (table : Lookup) : Script :=
  { script with lookups := (table.name, table) :: script.lookups }

def after? (opening line : String) : Option String :=
  if opening.toList.isPrefixOf line.toList then
    some (String.ofList (line.toList.drop opening.length))
  else none

/-- A line outside of all sections: the head of one, or nothing. -/
def readHead (script : Script) (line : String) : Script × Section :=
  match after? "Lookup:" line, after? "Format:" line, after? "Display:" line with
  | some name, _, _ => (script, .lookup { name := Text.trim name })
  | none, some name, _ => (script, .format (Text.trim name))
  | none, none, some _ => (script, .display)
  | none, none, none => (script, .outside)

/-- The condition and the text of a line `?condition?text`. -/
def conditionOf? (line : String) : Option (String × String) :=
  match line.toList with
  | '?' :: letters =>
    (splitOnce? '?' letters).map fun (condition, text) =>
      (String.ofList condition, String.ofList text)
  | _ => none

/-- A line of the display section.  The first one without a condition ends it. -/
def readDisplay (script : Script) (line : String) : Script × Section :=
  if line.isEmpty then (script, .display)
  else match conditionOf? line with
    | some (condition, text) =>
      let line : ConditionalDisplay :=
        ⟨(Trigger.read.readAll condition).toOption, Display.ofLine text⟩
      ({ script with conditional := script.conditional ++ [line] }, .display)
    | none => ({ script with default? := some (Display.ofLine line) }, .outside)

def readLine (state : Script × Section) (line : String) : Script × Section :=
  match state with
  | (script, .outside) => script.readHead line
  | (script, .lookup table) =>
    if line.isEmpty then (script.addLookup table, .outside)
    else (script, .lookup (table.addLine line))
  | (script, .format name) =>
    match after? "FormatType=" line with
    | some kind => ({ script with formats := (name, Format.ofName kind) :: script.formats }, .outside)
    | none => script.readHead line
  | (script, .display) => script.readDisplay line

def finish : Script × Section → Script
  | (script, .lookup table) => script.addLookup table
  | (script, _) => script

def splitLines : List Char → List (List Char)
  | [] => [[]]
  | letter :: others =>
    if letter = '\n' then [] :: splitLines others
    else match splitLines others with
      | first :: lines => (letter :: first) :: lines
      | [] => [[letter]]

/-- A line as a script sees it: without a carriage return at its end and without its comment. -/
def cleanLine (letters : List Char) : String :=
  let ended := if letters.getLast? = some '\r' then letters.dropLast else letters
  stripComment (String.ofList ended)

def ofText (text : String) : Script :=
  finish <| ((splitLines text.toList).map cleanLine).foldl readLine ({}, .outside)

/-- Tests every conditional line on a new frame: the first display whose trigger is true, and the
lines after the frame. -/
def testLines (frame : Frame) : List ConditionalDisplay → Option Display × List ConditionalDisplay
  | [] => (none, [])
  | line :: others =>
    let (later?, othersAfter) := testLines frame others
    match line.trigger? with
    | none => (later?, line :: othersAfter)
    | some trigger =>
      let (outcome, after) := trigger.test frame
      (if outcome.result then some line.display else later?,
        { line with trigger? := some after } :: othersAfter)

/-- The text to show on a new frame.  All conditions are tested, whichever line is shown; a script
without a default line shows nothing and tests nothing. -/
def render (script : Script) (frame : Frame) : String × Script :=
  match script.default? with
  | none => ("", script)
  | some default =>
    let (chosen?, conditional) := testLines frame script.conditional
    ((chosen?.getD default).render frame script.lookups script.formats, { script with conditional })

end Script

end AchievementLogic.Presence
