import AchievementLogic.Number.Binary64

/-!
# Reading a text byte by byte

Definitions are read one byte at a time.  A byte shows as the character of the same number, which
is the byte's own letter wherever the text is ASCII.  A `Scan` is a place in a text; its operations
look ahead, step over what they recognise, and read the three kinds of numbers that definitions
hold.
-/

namespace AchievementLogic.Text

/-- The bytes of a text in UTF-8. -/
def bytesOf (text : String) : List UInt8 := text.toByteArray.data.toList

def ofBytes? (bytes : List UInt8) : Option String := String.fromUTF8? ⟨bytes.toArray⟩

/-- The value of a digit of a base up to sixteen, with letters of either case. -/
def digitValue? (base : Nat) (digit : Char) : Option Nat :=
  let value? :=
    if '0' ≤ digit && digit ≤ '9' then some (digit.toNat - '0'.toNat)
    else if 'a' ≤ digit && digit ≤ 'f' then some (digit.toNat - 'a'.toNat + 10)
    else if 'A' ≤ digit && digit ≤ 'F' then some (digit.toNat - 'A'.toNat + 10)
    else none
  value?.filter (· < base)

/-- The values of the digits of a base that bytes begin with. -/
def leadingDigits (base : Nat) : List UInt8 → List Nat
  | [] => []
  | byte :: others =>
    match digitValue? base (Char.ofUInt8 byte) with
    | some digit => digit :: leadingDigits base others
    | none => []

/-- A place in a text: the bytes not read yet, and how many were read before them. -/
structure Scan where
  remaining : List UInt8
  position : Nat
deriving DecidableEq, Repr

namespace Scan

def ofString (text : String) : Scan := ⟨bytesOf text, 0⟩

def atEnd (scan : Scan) : Bool := scan.remaining.isEmpty

def peekAt (scan : Scan) (offset : Nat) : Option Char :=
  scan.remaining[offset]?.map Char.ofUInt8

def peek (scan : Scan) : Option Char := scan.peekAt 0

def skip (scan : Scan) (count : Nat) : Scan :=
  ⟨scan.remaining.drop count, scan.position + (scan.remaining.take count).length⟩

/-- The unread text.  Inside a character of several bytes there is none. -/
def rest (scan : Scan) : String := (ofBytes? scan.remaining).getD ""

def startsWith (scan : Scan) (opening : String) : Bool := opening.toList.isPrefixOf scan.rest.toList

def next? (scan : Scan) : Option (Char × Scan) := scan.peek.map (·, scan.skip 1)

def accept? (scan : Scan) (expected : Char) : Option Scan :=
  if scan.peek = some expected then some (scan.skip 1) else none

def hasHexMarkAt (scan : Scan) (offset : Nat) : Bool :=
  scan.peekAt offset = some '0' &&
    (scan.peekAt (offset + 1) = some 'x' || scan.peekAt (offset + 1) = some 'X')

def acceptHexMark? (scan : Scan) : Option Scan :=
  if scan.hasHexMarkAt 0 then some (scan.skip 2) else none

def digitRun (scan : Scan) (base : Nat) : List Nat := leadingDigits base scan.remaining

/-- The number that digits write, held at one above the largest word once it gets there. -/
def heldValue (base : Nat) (digits : List Nat) : Nat :=
  digits.foldl (fun value digit => min (value * base + digit) (Nat.pow 2 32)) 0

/-- Reads as many digits as there are into a word, the largest one if the number does not fit. -/
def readDigits (scan : Scan) (base : Nat) : Option (UInt32 × Scan) :=
  match scan.digitRun base with
  | [] => none
  | digits =>
    some (UInt32.ofNat (min (heldValue base digits) (Nat.pow 2 32 - 1)), scan.skip digits.length)

def readUnsigned (scan : Scan) : Option (UInt32 × Scan) := scan.readDigits 10

def readHex (scan : Scan) : Option (UInt32 × Scan) := scan.readDigits 16

/-- Reads a decimal number with an optional sign.  A negative number becomes its two's complement;
below the least signed word it stays there. -/
def readSigned (scan : Scan) : Option (UInt32 × Scan) :=
  match scan.peek with
  | some '-' => (scan.skip 1).readUnsigned.map fun (size, after) => (0 - min size 0x80000000, after)
  | some '+' => (scan.skip 1).readUnsigned
  | _ => scan.readUnsigned

/-- The whole number that decimal digits write. -/
def decimalValue (digits : List Nat) : Nat := digits.foldl (fun value digit => value * 10 + digit) 0

/-- Reads a decimal fraction: an optional sign, digits, and a point with digits after it, either
run of digits alone being enough.  A point without digits after it is left unread. -/
def readFloat (scan : Scan) : Option (Float × Scan) :=
  let negative := scan.peek = some '-'
  let unsigned := if negative || scan.peek = some '+' then scan.skip 1 else scan
  let whole := unsigned.digitRun 10
  let afterWhole := unsigned.skip whole.length
  let fraction := if afterWhole.peek = some '.' then (afterWhole.skip 1).digitRun 10 else []
  if fraction.isEmpty then
    if whole.isEmpty then none
    else some (Binary64.ofRatio negative (decimalValue whole) 1, afterWhole)
  else
    some (Binary64.ofRatio negative (decimalValue (whole ++ fraction)) (Nat.pow 10 fraction.length),
      afterWhole.skip (fraction.length + 1))

end Scan

end AchievementLogic.Text
