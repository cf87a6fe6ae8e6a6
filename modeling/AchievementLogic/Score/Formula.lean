import AchievementLogic.Score.Format
import AchievementLogic.Trigger.OperandText

/-!
# Value formulas

A formula computes a word from memory.  Its clauses are evaluated from left to right as doubles;
each is added to the total or takes its place where it is larger, and the total is truncated at the
end.

In the text of a formula clauses are joined by `_` for addition and `$` for the maximum.  A clause is
an address or a number, after `B` if its byte holds decimal digits and after `V` if the address itself
is meant; a factor follows a `*`, with `~` before it if its bit is to be turned over.
-/

namespace AchievementLogic

open Text (Scan)

inductive Joining
  | first
  | addition
  | maximum
deriving DecidableEq, Repr

inductive Factor
  | number (value : Float)
  | memory (address : UInt32) (size : ReadSize)

structure Clause where
  joining : Joining
  /-- An address, or the number itself in a literal clause. -/
  address : UInt32
  size : ReadSize
  literal : Bool := false
  /-- Whether the low byte is understood as two decimal digits. -/
  bcd : Bool := false
  factor : Factor := .number 1.0
  /-- Whether a single bit as the factor is turned over. -/
  invertBit : Bool := false

structure Formula where
  clauses : List Clause

def Factor.memory? : Factor → Option (UInt32 × ReadSize)
  | memory address size => some (address, size)
  | number _ => none

/-- The number to multiply by.  A factor in memory has none of its own. -/
def Factor.modifier : Factor → Float
  | memory .. => 1.0
  | number value => value

namespace Clause

/-- The number before multiplication. -/
def base (clause : Clause) (frame : Frame) : UInt32 :=
  if clause.literal then clause.address
  else
    let raw := clause.size.read frame clause.address
    if clause.bcd then (raw / 16 % 16) * 10 + raw % 16 else raw

def value (clause : Clause) (frame : Frame) : Float :=
  let base := clause.base frame
  match clause.factor with
  | .memory address size =>
    let raw := size.read frame address
    let second := if clause.invertBit && size.isBit then raw ^^^ 1 else raw
    base.toFloat * second.toFloat
  | .number modifier => base.toFloat * modifier

end Clause

def Joining.join (joining : Joining) (total next : Float) : Float :=
  match joining with
  | maximum => Binary64.larger total next
  | first | addition => total + next

def Formula.value (formula : Formula) (frame : Frame) : UInt32 :=
  Binary64.toWord <|
    formula.clauses.foldl (fun total clause => clause.joining.join total (clause.value frame)) 0.0

/-! ## Reading and writing formulas -/

namespace Clause

/-- Reads a factor after its `*`: an address, or a decimal fraction. -/
def readFactor : Reader Factor := do
  let scan ← get
  if scan.hasHexMarkAt 0 then
    match ← Operand.read with
    | .memory { access := .address, size, address, .. } => return .memory address size
    | _ => Reader.fail .noSecondAddress scan.position
  else
    return .number (← Reader.require Scan.readFloat .noMultiplier scan.position)

def read (joining : Joining) : Reader Clause := do
  let start ← Reader.position
  let letter ← Reader.peek
  let bcd := letter = some 'B' || letter = some 'b'
  let marked := letter = some 'V' || letter = some 'v'
  if bcd || marked then Reader.skip 1
  let (address, size, literal) ← match ← Operand.read with
    | .memory { access := .address, size, address, .. } => pure (address, size, marked)
    | .word value => pure (value, ReadSize.byte, true)
    | _ => Reader.fail .unsupportedOperand start
  if ← Reader.accept '*' then
    let invertBit ← Reader.accept '~'
    return { joining, address, size, literal, bcd, invertBit, factor := ← readFactor }
  else
    return { joining, address, size, literal, bcd }

def factorText (clause : Clause) : String :=
  match clause.factor with
  | .memory address size =>
    (if clause.invertBit then "*~" else "*") ++ Operand.addressText size address
  | .number value => if value == 1.0 then "" else "*" ++ Decimal.text value

def text (clause : Clause) : String :=
  let base :=
    if clause.literal then "V" ++ toString (Format.signed clause.address)
    else (if clause.bcd then "B" else "") ++ Operand.addressText clause.size clause.address
  base ++ clause.factorText

end Clause

namespace Joining

def mark : Joining → String
  | first => ""
  | addition => "_"
  | maximum => "$"

/-- Reads the mark before a further clause, if one comes next. -/
def read? : Reader (Option Joining) := do
  if ← Reader.accept '_' then return some addition
  else if ← Reader.accept '$' then return some maximum
  else return none

end Joining

namespace Formula

/-- Reads clauses, `rounds` further ones at the most. -/
def readFrom (joining : Joining) : Nat → Reader (List Clause)
  | 0 => return [← Clause.read joining]
  | rounds + 1 => do
    let first ← Clause.read joining
    match ← Joining.read? with
    | some next => return first :: (← readFrom next rounds)
    | none => return [first]

/-- Characters before a formula that mean nothing. -/
def isFiller (letter : Char) : Bool := letter = ' ' || letter = '_' || letter = '|' || letter = '$'

/-- Reads a formula.  Every further clause follows a mark, so that there are no more of them than
unread bytes. -/
def read : Reader Formula := do
  modify fun scan =>
    scan.skip (scan.remaining.takeWhile fun byte => isFiller (Char.ofUInt8 byte)).length
  return ⟨← readFrom .first (← get).remaining.length⟩

def text (formula : Formula) : String :=
  String.join (formula.clauses.map fun clause => clause.joining.mark ++ clause.text)

end Formula

end AchievementLogic
