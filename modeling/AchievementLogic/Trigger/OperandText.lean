import AchievementLogic.Number.Shortest
import AchievementLogic.Text.Reader
import AchievementLogic.Trigger.Operand

/-!
# The text of operands

A memory operand is written as the mark of its access, the mark of its size and its address in
hexadecimal; a constant is a decimal number, signed or not, a hexadecimal number after `h`, or a
decimal fraction after `f`.  Reading accepts more spellings than are written: letters of either
case, a repeated `0x`, and an address without a size, which is read as two bytes.
-/

namespace AchievementLogic.Operand

open Text (Scan)

/-- An address after the mark of its size: four hexadecimal digits, six from `10000` on. -/
def addressText (size : ReadSize) (address : UInt32) : String :=
  let digits := Nat.toDigits 16 address.toNat
  let width := if address < 0x10000 then 4 else 6
  size.mark ++ String.ofList (List.replicate (width - digits.length) '0' ++ digits)

def text : Operand → String
  | memory inner => inner.access.mark ++ addressText inner.size inner.address
  | word value => toString value.toNat
  | float number => "f" ++ Decimal.text number

def isFloatLetter (letter? : Option Char) : Bool := letter? = some 'f' || letter? = some 'F'

/-- Reads an address, which may have a `0x` of its own. -/
def readAddress (start : Nat) : Reader UInt32 := do
  let _ ← Reader.accepts Scan.acceptHexMark?
  Reader.require Scan.readHex .noAddress start

/-- Reads the size letter and the address of a float in memory, after `f`. -/
def readFloatMemory (access : Access) (start : Nat) : Reader Operand := do
  match (← Reader.peek).bind ReadSize.ofFloatLetter? with
  | some size =>
    Reader.skip 1
    return memory { access, size, address := ← readAddress start }
  | none => Reader.fail .noFloatSize start

/-- Reads what stands after the mark of an access: `0x`, a size letter and an address, or a float
in memory.  Without a size letter two bytes are read. -/
def readMemory (access : Access) : Reader Operand := do
  let start ← Reader.position
  if isFloatLetter (← Reader.peek) then
    Reader.skip 1
    readFloatMemory access start
  else if ← Reader.accepts Scan.acceptHexMark? then
    match (← Reader.peek).bind ReadSize.ofLetter? with
    | some size =>
      Reader.skip 1
      return memory { access, size, address := ← readAddress start }
    | none =>
      return memory { access, size := .word .two .little, address := ← readAddress start }
  else
    Reader.fail .noHexMark start

/-- Reads one operand, chosen by its first character. -/
def read : Reader Operand := do
  let scan ← get
  let start := scan.position
  match scan.peek with
  | some 'd' | some 'D' =>
    if scan.hasHexMarkAt 1 || isFloatLetter (scan.peekAt 1) then
      Reader.skip 1
      readMemory .delta
    else
      Reader.fail .noOperand start
  | some 'p' | some 'P' =>
    Reader.skip 1
    readMemory .prior
  | some 'b' | some 'B' =>
    Reader.skip 1
    readMemory .bcd
  | some '~' =>
    Reader.skip 1
    readMemory .inverted
  | some 'f' | some 'F' =>
    Reader.skip 1
    if ((scan.peekAt 1).bind ReadSize.ofFloatLetter?).isSome then
      readFloatMemory .address start
    else
      return float (← Reader.require Scan.readFloat .noFloatNumber start)
  | some 'h' | some 'H' =>
    Reader.skip 1
    let _ ← Reader.accepts Scan.acceptHexMark?
    return word (← Reader.require Scan.readHex .noHexNumber start)
  | some '-' | some '+' =>
    return word (← Reader.require Scan.readSigned .noNumber start)
  | some letter =>
    if scan.hasHexMarkAt 0 then
      readMemory .address
    else if letter.isDigit then
      return word (← Reader.require Scan.readUnsigned .noNumber start)
    else
      Reader.fail .noOperand start
  | none => Reader.fail .noOperand start

end AchievementLogic.Operand
