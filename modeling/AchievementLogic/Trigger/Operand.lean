import AchievementLogic.Memory.ReadSize
import AchievementLogic.Trigger.Value

/-!
# Operands

An operand is a place in memory or a constant.  A memory operand remembers what it read: on every
frame its history moves once, and its value is a view of that history, so that looking at it
changes nothing.
-/

namespace AchievementLogic

/-- Which remembered reading a memory operand shows, and how. -/
inductive Access
  | address
  /-- The reading of the frame before. -/
  | delta
  /-- The last reading that differed from the current one. -/
  | prior
  /-- The current reading as decimal digits, four bits each. -/
  | bcd
  /-- The current reading with every bit of its size turned over. -/
  | inverted
deriving DecidableEq, Repr

def Access.mark : Access → String
  | address => ""
  | delta => "d"
  | prior => "p"
  | bcd => "b"
  | inverted => "~"

/-- The raw readings of a memory operand. -/
structure History where
  current : UInt32 := 0
  previous : UInt32 := 0
  prior : UInt32 := 0
deriving DecidableEq, Repr

/-- Takes in the reading of a new frame. -/
def History.push (history : History) (raw : UInt32) : History :=
  { current := raw
    previous := history.current
    prior := if raw = history.current then history.prior else history.current }

structure MemoryOperand where
  access : Access
  size : ReadSize
  address : UInt32
  history : History := {}
deriving DecidableEq, Repr

/-- The number whose decimal digits are the lowest `digits` groups of four bits. -/
def decodeBcd : Nat → UInt32 → UInt32
  | 0, _ => 0
  | digits + 1, raw => raw % 16 + 10 * decodeBcd digits (raw / 16)

namespace MemoryOperand

def decode (operand : MemoryOperand) (raw : UInt32) : Value :=
  if operand.size.isFloat then .float (operand.size.toFloat raw) else .word raw

/-- The value as of the last frame.  Digits and inverted bits are understood of whole numbers only;
a float is then shown as it is. -/
def value (operand : MemoryOperand) : Value :=
  let current := operand.history.current
  match operand.access with
  | .address => operand.decode current
  | .delta => operand.decode operand.history.previous
  | .prior => operand.decode operand.history.prior
  | .bcd =>
    if operand.size.isFloat then operand.decode current
    else .word (decodeBcd (operand.size.byteCount * 2) current)
  | .inverted =>
    if operand.size.isFloat then operand.decode current
    else .word (operand.size.maxValue - min current operand.size.maxValue)

/-- Reads memory for a new frame, `offset` bytes after the operand's own address. -/
def advance (operand : MemoryOperand) (frame : Frame) (offset : UInt32) : MemoryOperand :=
  { operand with history := operand.history.push (operand.size.read frame (operand.address + offset)) }

end MemoryOperand

inductive Operand
  | memory (operand : MemoryOperand)
  | word (word : UInt32)
  | float (number : Float)

namespace Operand

instance : Inhabited Operand := ⟨word 0⟩

def advance (operand : Operand) (frame : Frame) (offset : UInt32) : Operand :=
  match operand with
  | memory inner => memory (inner.advance frame offset)
  | constant => constant

def value : Operand → Value
  | memory inner => inner.value
  | word value => .word value
  | float number => .float number

def isMemory : Operand → Bool
  | memory _ => true
  | _ => false

def size? : Operand → Option ReadSize
  | memory inner => some inner.size
  | _ => none

/-- The raw current and previous readings, as progress keeps them.  A constant stands for both; of a
double the lower half of its bits is kept. -/
def savedReadings : Operand → UInt32 × UInt32
  | memory inner => (inner.history.current, inner.history.previous)
  | word value => (value, value)
  | float number => (number.toBits.toUInt32, number.toBits.toUInt32)

/-- Takes readings back from saved progress.  The reading before is also the last different one. -/
def restoreReadings (operand : Operand) (current previous : UInt32) : Operand :=
  match operand with
  | memory inner => memory { inner with history := ⟨current, previous, previous⟩ }
  | constant => constant

end Operand

end AchievementLogic
