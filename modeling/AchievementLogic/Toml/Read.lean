import AchievementLogic.Toml.Quoted
import AchievementLogic.Toml.Scalar

/-!
# Reading TOML

A document is read line by line: a line holds a header, or a key and its value, or only blanks and
a comment.  Arrays may run over lines, tables between braces may not.
-/

namespace AchievementLogic.Toml

/-- How deep arrays, tables between braces and dotted keys may be, and one more. -/
def depthLimit : Nat := 80

namespace Read

open Grammar

def blanks : Grammar Unit := do
  let _ ← span fun letter => letter = ' ' || letter = '\t'

def comment : Grammar Unit := do
  if ← accept (· = '#') then
    let _ ← span isPlain

def newline : Grammar Bool := do
  match afterNewline? (← get) with
  | some after => set after; return true
  | none => return false

/-- The end of a line: blanks, a comment, and a line end or the end of the document. -/
def lineEnd : Grammar Unit := do
  blanks
  comment
  if ← atEnd then return ()
  else if ← newline then return ()
  else failure

def emptyLines : Nat → Grammar Unit
  | 0 => blanks
  | rounds + 1 => do
    blanks
    comment
    if ← newline then emptyLines rounds

/-- Blanks, comments and line ends, as many as there are. -/
def filler : Grammar Unit := do
  emptyLines (← get).length

def isBareLetter (letter : Char) : Bool := letter.isAlphanum || letter = '-' || letter = '_'

def simpleKey : Grammar String := do
  match ← peek with
  | some '"' | some '\'' => shortString
  | _ => return String.ofList (← spanOfSome isBareLetter)

/-- Keys with points between them, `rounds` further ones at the most. -/
def dottedKeys : Nat → Grammar (List String)
  | 0 => failure
  | rounds + 1 => do
    blanks
    let first ← simpleKey
    blanks
    if ← accept (· = '.') then return first :: (← dottedKeys rounds)
    else return [first]

/-- A dotted key: the keys of the tables it passes through, and its own. -/
def key : Grammar (List String × String) := do
  let keys ← dottedKeys depthLimit
  match keys.getLast? with
  | some last => if keys.length < depthLimit then return (keys.dropLast, last) else failure
  | none => failure

mutual

/-- A value inside of `depth` brackets or braces, for which `rounds` nested readings suffice. -/
def value (depth : Nat) : Nat → Grammar Value
  | 0 => failure
  | rounds + 1 => do
    match ← peek with
    | some '"' | some '\'' => return .string (← string)
    | some '[' =>
      if depth + 1 < depthLimit then
        let _ ← next
        return .array (← items (depth + 1) rounds)
      else failure
    | some '\x7b' =>
      if depth + 1 < depthLimit then
        let _ ← next
        blanks
        let pairs ← if ← accept (· = '\x7d') then pure [] else pairs (depth + 1) rounds
        match Entries.ofPairs? pairs with
        | some entries => return .table .inline entries
        | none => failure
      else failure
    | _ => scalar

/-- The items of an array, and the bracket that closes it.  A comma may follow the last one. -/
def items (depth : Nat) : Nat → Grammar (List Value)
  | 0 => failure
  | rounds + 1 => do
    filler
    if ← accept (· = ']') then return []
    else
      let first ← value depth rounds
      filler
      if ← accept (· = ',') then return first :: (← items depth rounds)
      else
        expect ']'
        return [first]

/-- The entries of a table between braces, and the brace that closes it. -/
def pairs (depth : Nat) : Nat → Grammar (List ((List String × String) × Value))
  | 0 => failure
  | rounds + 1 => do
    let place ← key
    expect '='
    blanks
    let first ← value depth rounds
    blanks
    if ← accept (· = ',') then return (place, first) :: (← pairs depth rounds)
    else
      expect '\x7d'
      return [(place, first)]

end

/-- A header: a key in brackets, in double ones if it is repeated. -/
def header : Grammar (Bool × List String × String) := do
  expect '['
  let repeated ← accept (· = '[')
  let place ← key
  expect ']'
  if repeated then expect ']'
  lineEnd
  return (repeated, place)

/-- The document so far: the tables that are finished, and the one that entries are added to. -/
structure State where
  finished : Entries := []
  /-- The header of the current table; none for the document itself. -/
  header? : Option (Bool × List String × String) := none
  current : Entries := []

/-- The document with the current table put in its place. -/
def State.finish? (state : State) : Option Entries :=
  match state.header? with
  | none => some state.current
  | some (false, path, key) => state.finished.putTable? path key state.current
  | some (true, path, key) => state.finished.pushTable? path key state.current

/-- The document after a further header. -/
def State.open? (state : State) (header : Bool × List String × String) : Option State := do
  let finished ← state.finish?
  let (repeated, path, key) := header
  let current := if repeated then [] else (finished.implied? (path ++ [key])).getD []
  return { finished, header? := some header, current }

def line (state : State) : Grammar State := do
  blanks
  match ← peek with
  | some '[' =>
    match state.open? (← header) with
    | some state => return state
    | none => failure
  | none | some '#' | some '\n' | some '\r' => do
    lineEnd
    return state
  | _ =>
    let (path, key) ← key
    expect '='
    blanks
    let added ← value 0 (2 * (← get).length + 1)
    lineEnd
    match state.current.insert? path key added with
    | some current => return { state with current }
    | none => failure

def lines (state : State) : Nat → Grammar State
  | 0 => return state
  | rounds + 1 => do
    if ← atEnd then return state
    else lines (← line state) rounds

end Read

/-- The table that a text writes.  A byte order mark before it does not count.  Every line takes a
character, so that there are no more of them than characters. -/
def ofText? (text : String) : Option Value := do
  let letters := if text.toList.head? = some '\ufeff' then text.toList.drop 1 else text.toList
  let (state, rest) ← (Read.lines {} letters.length).run letters
  guard rest.isEmpty
  return .table .headed (← state.finish?)

end AchievementLogic.Toml
