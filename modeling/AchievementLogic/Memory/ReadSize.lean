import AchievementLogic.Memory.Frame
import AchievementLogic.Number.Binary64

/-!
# How much of memory is read, and how it is understood

A read takes one bit, half a byte, a count of bits, or up to four bytes in either order.  Three
encodings of floating-point numbers are read as their 32-bit pattern and decoded afterwards.
-/

namespace AchievementLogic

inductive ByteOrder
  | little
  | big
deriving DecidableEq, Repr

inductive WordWidth
  | two
  | three
  | four
deriving DecidableEq, Repr

def WordWidth.bytes : WordWidth → Nat
  | two => 2
  | three => 3
  | four => 4

inductive FloatEncoding
  /-- A single-precision number. -/
  | single
  /-- The upper half of a double. -/
  | upperDouble
  /-- An exponent byte, a sign bit and 23 bits of mantissa. -/
  | microsoft
deriving DecidableEq, Repr

inductive ReadSize
  | bit (index : Fin 8)
  | lowNibble
  | highNibble
  | bitCount
  | byte
  | word (width : WordWidth) (order : ByteOrder)
  | float (encoding : FloatEncoding) (order : ByteOrder)
deriving DecidableEq, Repr

/-- The number that the three fields of the exponent-first encoding stand for.  Its range lies well
inside that of the doubles, so the fields move over as they are. -/
def FloatEncoding.decodeMicrosoft (raw : UInt32) : Float :=
  let exponent := raw.toNat / Nat.pow 2 24
  let sign := (raw.toNat / Nat.pow 2 23) % 2
  let fraction := raw.toNat % Nat.pow 2 23
  if exponent = 0 then 0.0
  else
    Float.ofBits <| UInt64.ofNat <|
      sign * Nat.pow 2 63 + (exponent + 894) * Nat.pow 2 52 + fraction * Nat.pow 2 29

def FloatEncoding.decode : FloatEncoding → UInt32 → Float
  | single, raw => Binary64.ofSingleBits raw
  | upperDouble, raw => Float.ofBits (raw.toUInt64 <<< 32)
  | microsoft, raw => decodeMicrosoft raw

namespace ReadSize

/-- The size named by the letter after `0x`, in either case. -/
def ofLetter? (letter : Char) : Option ReadSize :=
  match letter.toUpper with
  | 'M' => some (bit 0)
  | 'N' => some (bit 1)
  | 'O' => some (bit 2)
  | 'P' => some (bit 3)
  | 'Q' => some (bit 4)
  | 'R' => some (bit 5)
  | 'S' => some (bit 6)
  | 'T' => some (bit 7)
  | 'L' => some lowNibble
  | 'U' => some highNibble
  | 'H' => some byte
  | 'W' => some (word .three .little)
  | 'X' => some (word .four .little)
  | 'I' => some (word .two .big)
  | 'J' => some (word .three .big)
  | 'G' => some (word .four .big)
  | 'K' => some bitCount
  | ' ' => some (word .two .little)
  | _ => none

/-- The size named by the letter after `f`, in either case. -/
def ofFloatLetter? (letter : Char) : Option ReadSize :=
  match letter.toUpper with
  | 'F' => some (float .single .little)
  | 'B' => some (float .single .big)
  | 'H' => some (float .upperDouble .little)
  | 'I' => some (float .upperDouble .big)
  | 'M' => some (float .microsoft .big)
  | 'L' => some (float .microsoft .little)
  | _ => none

/-- What is written before an address that is read with this size. -/
def mark : ReadSize → String
  | bit 0 => "0xM"
  | bit 1 => "0xN"
  | bit 2 => "0xO"
  | bit 3 => "0xP"
  | bit 4 => "0xQ"
  | bit 5 => "0xR"
  | bit 6 => "0xS"
  | bit 7 => "0xT"
  | lowNibble => "0xL"
  | highNibble => "0xU"
  | bitCount => "0xK"
  | byte => "0xH"
  | word .two .little => "0x "
  | word .three .little => "0xW"
  | word .four .little => "0xX"
  | word .two .big => "0xI"
  | word .three .big => "0xJ"
  | word .four .big => "0xG"
  | float .single .little => "fF"
  | float .single .big => "fB"
  | float .upperDouble .little => "fH"
  | float .upperDouble .big => "fI"
  | float .microsoft .big => "fM"
  | float .microsoft .little => "fL"

def byteCount : ReadSize → Nat
  | word width _ => width.bytes
  | float .. => 4
  | _ => 1

def isFloat : ReadSize → Bool
  | float .. => true
  | _ => false

def isBit : ReadSize → Bool
  | bit _ => true
  | _ => false

def maxValue : ReadSize → UInt32
  | bit _ => 1
  | lowNibble | highNibble => 0xF
  | bitCount => 8
  | byte => 0xFF
  | word .two _ => 0xFFFF
  | word .three _ => 0xFFFFFF
  | word .four _ | float .. => 0xFFFFFFFF

def bitOf (byte : UInt8) (index : Nat) : Nat := (byte.toNat / Nat.pow 2 index) % 2

/-- The raw value in the bytes that a read takes. -/
def assemble (size : ReadSize) (bytes : List UInt8) : UInt32 :=
  let first := bytes.headD 0
  match size with
  | bit index => UInt32.ofNat (bitOf first index)
  | lowNibble => UInt32.ofNat (first.toNat % 16)
  | highNibble => UInt32.ofNat (first.toNat / 16)
  | bitCount => UInt32.ofNat ((List.range 8).countP fun index => bitOf first index == 1)
  | byte => first.toUInt32
  | word _ .little | float _ .little => UInt32.ofNat (littleEndian bytes)
  | word _ .big | float _ .big => UInt32.ofNat (littleEndian bytes.reverse)

/-- The raw value at an address.  A float is read as its bit pattern. -/
def read (size : ReadSize) (frame : Frame) (address : UInt32) : UInt32 :=
  size.assemble (frame.readBytes address size.byteCount)

def toFloat (size : ReadSize) (raw : UInt32) : Float :=
  match size with
  | float encoding _ => encoding.decode raw
  | _ => raw.toFloat

end ReadSize

end AchievementLogic
