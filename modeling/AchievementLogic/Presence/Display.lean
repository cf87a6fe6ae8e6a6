import AchievementLogic.Score.Formula
import AchievementLogic.Text.Fields

/-!
# Display lines and lookup tables

A lookup table gives texts to values, and perhaps one text to all other values.  In its texts a
backslash takes the next character for itself.

A display line is text with tags in it.  A tag `@Name(formula)` shows the value of its formula by
the lookup table of that name, or else in the format of that name.
-/

namespace AchievementLogic.Presence

/-! ## Lookup tables -/

/-- The text before the first `mark` and the text after it. -/
def splitOnce? (mark : Char) : List Char → Option (List Char × List Char)
  | [] => none
  | letter :: others =>
    if letter = mark then some ([], others)
    else (splitOnce? mark others).map fun (before, after) => (letter :: before, after)

/-- Takes every character after a backslash for itself.  A backslash at the end is dropped. -/
def unescape : List Char → List Char
  | '\\' :: escaped :: others => escaped :: unescape others
  | ['\\'] => []
  | letter :: others => letter :: unescape others
  | [] => []

structure Lookup where
  name : String
  /-- At most one text for each value. -/
  entries : List (UInt32 × String) := []
  default? : Option String := none
deriving DecidableEq, Repr

namespace Lookup

def insert (lookup : Lookup) (value : UInt32) (text : String) : Lookup :=
  { lookup with entries := (value, text) :: lookup.entries.filter fun entry => entry.1 != value }

def setDefault (lookup : Lookup) (text : String) : Lookup := { lookup with default? := some text }

/-- The text of a value, else that of all others, else nothing. -/
def get (lookup : Lookup) (value : UInt32) : String :=
  ((lookup.entries.lookup value).or lookup.default?).getD ""

def size (lookup : Lookup) : Nat := lookup.entries.length

def isEmpty (lookup : Lookup) : Bool := lookup.entries.isEmpty && lookup.default?.isNone

/-- The value that a key writes: decimal, or hexadecimal after `0x`. -/
def keyOf? (key : String) : Option UInt32 :=
  match key.toList with
  | '0' :: 'x' :: digits | '0' :: 'X' :: digits => Text.wordOf? 16 (String.ofList digits)
  | _ => Text.wordOf? 10 key

/-- Takes in a line `key=text`; the key `*` stands for all other values.  A line without a key that
can be read changes nothing. -/
def addLine (lookup : Lookup) (line : String) : Lookup :=
  match splitOnce? '=' line.toList with
  | none => lookup
  | some (before, after) =>
    let key := Text.trim (String.ofList before)
    let text := String.ofList (unescape after)
    if key = "*" then lookup.setDefault text
    else match keyOf? key with
      | some value => lookup.insert value text
      | none => lookup

end Lookup

/-! ## Display lines -/

inductive Segment
  | text (text : String)
  /-- A tag; without a formula where that could not be read. -/
  | tag (name : String) (formula? : Option Formula)

/-- What is being read of a display line, with the characters read so far in reverse. -/
inductive Reading
  | text (letters : List Char)
  | name (letters : List Char)
  | formula (name : String) (letters : List Char)

namespace Reading

def textOf (letters : List Char) : String := String.ofList letters.reverse

/-- The segment that was being read, if there is anything in it. -/
def close : Reading → List Segment
  | text [] => []
  | text letters => [.text (textOf letters)]
  | name letters => [.tag (textOf letters) none]
  | formula tag letters => [.tag tag (Formula.read.readAll (textOf letters)).toOption]

end Reading

def segmentsFrom : Reading → List Char → List Segment
  | reading, [] => reading.close
  | .text letters, '\\' :: rest =>
    match rest with
    | escaped :: others => segmentsFrom (.text (escaped :: letters)) others
    | [] => (Reading.text letters).close
  | .text letters, '@' :: rest => (Reading.text letters).close ++ segmentsFrom (.name []) rest
  | .text letters, letter :: rest => segmentsFrom (.text (letter :: letters)) rest
  | .name letters, letter :: rest =>
    if letter = '(' then segmentsFrom (.formula (Reading.textOf letters) []) rest
    else segmentsFrom (.name (letter :: letters)) rest
  | .formula tag letters, letter :: rest =>
    if letter = ')' then (Reading.formula tag letters).close ++ segmentsFrom (.text []) rest
    else segmentsFrom (.formula tag (letter :: letters)) rest

structure Display where
  segments : List Segment

namespace Display

def ofLine (line : String) : Display := ⟨segmentsFrom (.text []) line.toList⟩

/-- The text of a display line on a frame, given what its names stand for. -/
def render (display : Display) (frame : Frame) (lookups : List (String × Lookup))
    (formats : List (String × Format)) : String :=
  String.join <| display.segments.map fun
    | .text text => text
    | .tag _ none => ""
    | .tag name (some formula) =>
      match lookups.lookup name, formats.lookup name with
      | some lookup, _ => lookup.get (formula.value frame)
      | none, some format => format.textAtRate (formula.value frame) frame.framesPerSecond
      | none, none => ""

end Display

end AchievementLogic.Presence
