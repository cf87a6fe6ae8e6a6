import AchievementLogic.Json.Value
import AchievementLogic.Text.Grammar
import AchievementLogic.Text.Scan

/-!
# Reading JSON

A text is one value with blanks around it.
-/

namespace AchievementLogic.Json

/-- A part of a quoted string: a character, or the number of an escape. -/
inductive Piece
  | letter (letter : Char)
  | unit (number : Nat)
deriving DecidableEq, Repr

/-- The character that a letter after a backslash stands for. -/
def escapeOf? : Char → Option Char
  | '"' => some '"'
  | '\\' => some '\\'
  | '/' => some '/'
  | 'b' => some '\x08'
  | 'f' => some '\x0c'
  | 'n' => some '\n'
  | 'r' => some '\r'
  | 't' => some '\t'
  | _ => none

def hexNumber? (digits : List Char) : Option Nat :=
  digits.foldlM (fun value digit => (Text.digitValue? 16 digit).map (value * 16 + ·)) 0

/-- The pieces of a string after its opening quote, and what follows its closing one.  Control
characters have to be escaped. -/
def piecesOf? : List Char → Option (List Piece × List Char)
  | [] => none
  | '"' :: rest => some ([], rest)
  | '\\' :: 'u' :: first :: second :: third :: fourth :: rest => do
    let number ← hexNumber? [first, second, third, fourth]
    let (pieces, after) ← piecesOf? rest
    return (.unit number :: pieces, after)
  | '\\' :: letter :: rest => do
    let escaped ← escapeOf? letter
    let (pieces, after) ← piecesOf? rest
    return (.letter escaped :: pieces, after)
  | letter :: rest => do
    guard (' ' ≤ letter && letter ≠ '\\')
    let (pieces, after) ← piecesOf? rest
    return (.letter letter :: pieces, after)

def isHighHalf (number : Nat) : Bool := 0xD800 ≤ number && number < 0xDC00

def isLowHalf (number : Nat) : Bool := 0xDC00 ≤ number && number < 0xE000

/-- The characters of a string.  Two escapes may name the halves of one character; one half alone
is none. -/
def lettersOf? : List Piece → Option (List Char)
  | [] => some []
  | .letter letter :: rest => (lettersOf? rest).map (letter :: ·)
  | [.unit number] =>
    if isHighHalf number || isLowHalf number then none else some [Char.ofNat number]
  | .unit number :: .unit second :: rest =>
    if isHighHalf number then
      if isLowHalf second then
        (lettersOf? rest).map
          (Char.ofNat (0x10000 + (number - 0xD800) * 0x400 + (second - 0xDC00)) :: ·)
      else none
    else if isLowHalf number then none
    else (lettersOf? (.unit second :: rest)).map (Char.ofNat number :: ·)
  | .unit number :: .letter letter :: rest =>
    if isHighHalf number || isLowHalf number then none
    else (lettersOf? rest).map fun letters => Char.ofNat number :: letter :: letters

namespace Read

open Grammar

def blanks : Grammar Unit := do
  let _ ← span fun letter => letter = ' ' || letter = '\n' || letter = '\r' || letter = '\t'

def string : Grammar (Option String) := do
  match piecesOf? (← get) with
  | some (pieces, after) =>
    set after
    return (lettersOf? pieces).map String.ofList
  | none => failure

/-- A number: a whole part without leading zeros, perhaps a fraction and perhaps an exponent. -/
def numeral : Grammar Numeral := do
  let negative ← accept (· = '-')
  let whole ← spanOfSome Char.isDigit
  if 1 < whole.length && whole.head? = some '0' then failure
  let hasFraction ← accept (· = '.')
  if hasFraction then let _ ← spanOfSome Char.isDigit
  let hasExponent ← accept fun letter => letter = 'e' || letter = 'E'
  if hasExponent then
    let _ ← accept fun letter => letter = '+' || letter = '-'
    let _ ← spanOfSome Char.isDigit
  return { negative
           whole := whole.foldl (fun value digit => value * 10 + (digit.toNat - '0'.toNat)) 0
           integral := !hasFraction && !hasExponent }

mutual

/-- A value with blanks around it, for which `rounds` nested readings suffice. -/
def value : Nat → Grammar Value
  | 0 => failure
  | rounds + 1 => do
    blanks
    let found ← match ← peek with
      | some 'n' => do word "null"; pure .null
      | some 't' => do word "true"; pure (.bool true)
      | some 'f' => do word "false"; pure (.bool false)
      | some '"' => do
        let _ ← next
        pure (.string (← string))
      | some '[' => do
        let _ ← next
        blanks
        if ← accept (· = ']') then pure (.array []) else pure (.array (← items rounds))
      | some '\x7b' => do
        let _ ← next
        blanks
        if ← accept (· = '\x7d') then pure (.object []) else pure (.object (← members rounds))
      | _ => do pure (.number (← numeral))
    blanks
    return found

/-- The items of an array, and the bracket that closes it. -/
def items : Nat → Grammar (List Value)
  | 0 => failure
  | rounds + 1 => do
    let first ← value rounds
    if ← accept (· = ',') then return first :: (← items rounds)
    else
      expect ']'
      return [first]

def members : Nat → Grammar (List (Option String × Value))
  | 0 => failure
  | rounds + 1 => do
    blanks
    expect '"'
    let key ← string
    blanks
    expect ':'
    let first ← value rounds
    if ← accept (· = ',') then return (key, first) :: (← members rounds)
    else
      expect '\x7d'
      return [(key, first)]

end

end Read

/-- The value that a text writes.  Every nested reading begins with a character of its own, twice
over at most, so that the length of the text bounds their number. -/
def ofText? (text : String) : Option Value := (Read.value (2 * text.length + 1)).readAll? text

end AchievementLogic.Json
