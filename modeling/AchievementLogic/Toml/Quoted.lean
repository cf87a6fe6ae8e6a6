import AchievementLogic.Json.Read
import AchievementLogic.Text.Grammar

/-!
# Strings in TOML

A string stands between double quotes, with escapes, or between single quotes, as it is.  Three
quotes on either side let it run over several lines.
-/

namespace AchievementLogic.Toml

/-- Characters that a string or a comment may hold: no control character but the tabulator. -/
def isPlain (letter : Char) : Bool :=
  letter = '\t' || (' ' ≤ letter && letter ≠ '\x7f')

/-- A line end, and what follows it. -/
def afterNewline? : List Char → Option (List Char)
  | '\n' :: rest => some rest
  | '\r' :: '\n' :: rest => some rest
  | _ => none

/-- The character that an escape of one letter stands for. -/
def escapeOf? (letter : Char) : Option Char :=
  if letter = '/' then none else Json.escapeOf? letter

def charOf? (digits : List Char) (length : Nat) : Option Char := do
  guard (digits.length = length)
  let number ← Json.hexNumber? digits
  guard (number < 0xD800 || (0xDFFF < number && number < 0x110000))
  return Char.ofNat number

/-- The character of an escape after its backslash, and what follows it. -/
def escapeAt? : List Char → Option (Char × List Char)
  | 'u' :: rest => (charOf? (rest.take 4) 4).map (·, rest.drop 4)
  | 'U' :: rest => (charOf? (rest.take 8) 8).map (·, rest.drop 8)
  | letter :: rest => (escapeOf? letter).map (·, rest)
  | [] => none

/-- What follows a line end after a backslash, and all blanks and line ends after it. -/
def afterFoldedLines? (letters : List Char) : Option (List Char) :=
  let isSpace (letter : Char) : Bool := letter = ' ' || letter = '\t'
  let rec blanks : List Char → List Char
    | '\r' :: '\n' :: rest => blanks rest
    | letter :: rest =>
      if isSpace letter || letter = '\n' then blanks rest else letter :: rest
    | [] => []
  (afterNewline? (letters.dropWhile isSpace)).map blanks

/-- How a string is written. -/
structure Quoting where
  quote : Char
  escapes : Bool
  lines : Bool
deriving DecidableEq, Repr

/-- How many of the next quotes belong to a string over several lines that they end: those beyond
three, of which there may be two. -/
def quotesBeforeEnd? (quote : Char) (letters : List Char) : Option Nat :=
  let count := (letters.takeWhile (· = quote)).length
  if 3 ≤ count then some (min (count - 3) 2) else none

/-- The characters of a string after its opening quotes, and what follows the closing ones. -/
def contentsOf? (quoting : Quoting) : Nat → List Char → Option (List Char × List Char)
  | 0, _ => none
  | _ + 1, [] => none
  | rounds + 1, letter :: rest =>
    let continueWith (letter : Char) (rest : List Char) : Option (List Char × List Char) :=
      (contentsOf? quoting rounds rest).map fun (letters, after) => (letter :: letters, after)
    if letter = quoting.quote then
      if quoting.lines then
        match quotesBeforeEnd? quoting.quote (letter :: rest) with
        | some more => some (List.replicate more letter, (letter :: rest).drop (more + 3))
        | none => continueWith letter rest
      else some ([], rest)
    else if quoting.escapes && letter = '\\' then
      match if quoting.lines then afterFoldedLines? rest else none with
      | some after => contentsOf? quoting rounds after
      | none => (escapeAt? rest).bind fun (escaped, after) => continueWith escaped after
    else if isPlain letter then continueWith letter rest
    else match if quoting.lines then afterNewline? (letter :: rest) else none with
      | some after => continueWith '\n' after
      | none => none

/-- The rest of a string, after its opening quotes.  Every round takes a character, so that there
are no more of them than characters. -/
def contents (quoting : Quoting) : Grammar String := do
  let letters ← get
  match contentsOf? quoting (letters.length + 1) letters with
  | some (letters, after) => set after; return String.ofList letters
  | none => failure

def shortString : Grammar String := do
  let quote ← Grammar.next
  if quote = '"' || quote = '\'' then contents ⟨quote, quote = '"', false⟩ else failure

/-- A string over several lines.  A line end right after the opening quotes does not belong to it. -/
def longString : Grammar String := do
  let quote ← Grammar.next
  if quote = '"' || quote = '\'' then
    Grammar.expect quote
    Grammar.expect quote
    modify fun letters => (afterNewline? letters).getD letters
    contents ⟨quote, quote = '"', true⟩
  else failure

def string : Grammar String := longString <|> shortString

end AchievementLogic.Toml
