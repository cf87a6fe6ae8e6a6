/-!
# Sources of bytes

Memory is reached through a source that answers a request for some bytes at an address, or does
not.  Single bytes and little-endian words are read through the same request, and a source that
answers with too few bytes has not answered them.  Reading the bytes of a written number gives the
number back, up to their range.
-/

namespace AchievementLogic

/-- The number whose base-256 digits are `bytes`, lowest first. -/
def littleEndian (bytes : List UInt8) : Nat :=
  bytes.foldr (fun byte higher => byte.toNat + 256 * higher) 0

/-- The lowest `count` base-256 digits of a number, lowest first. -/
def littleEndianBytes : Nat → Nat → List UInt8
  | 0, _ => []
  | count + 1, value => UInt8.ofNat value :: littleEndianBytes count (value / 256)

theorem length_littleEndianBytes (count value : Nat) :
    (littleEndianBytes count value).length = count := by
  induction count generalizing value with
  | zero => rfl
  | succ count ih => simp [littleEndianBytes, ih]

/-- Writing a number as bytes keeps it up to the range of the bytes. -/
theorem littleEndian_littleEndianBytes (count value : Nat) :
    littleEndian (littleEndianBytes count value) = value % Nat.pow 256 count := by
  induction count generalizing value with
  | zero => simp [littleEndianBytes, littleEndian, Nat.mod_one]
  | succ count ih =>
    have hstep : littleEndian (littleEndianBytes (count + 1) value) =
        value % 256 + 256 * littleEndian (littleEndianBytes count (value / 256)) := by
      simp [littleEndianBytes, littleEndian]
    have hpower : Nat.pow 256 (count + 1) = 256 * Nat.pow 256 count := Nat.pow_succ'
    rw [hstep, ih, hpower, Nat.mod_mul]

structure ByteSource where
  /-- The bytes at an address, given how many are wanted. -/
  read? : Nat → Nat → Option (List UInt8)

namespace ByteSource

def readByte? (source : ByteSource) (address : Nat) : Option UInt8 :=
  (source.read? address 1).bind List.head?

def readLittleEndian? (source : ByteSource) (count address : Nat) : Option Nat :=
  (source.read? address count).bind fun bytes =>
    if count ≤ bytes.length then some (littleEndian (bytes.take count)) else none

def readWord16? (source : ByteSource) (address : Nat) : Option UInt16 :=
  (source.readLittleEndian? 2 address).map UInt16.ofNat

def readWord32? (source : ByteSource) (address : Nat) : Option UInt32 :=
  (source.readLittleEndian? 4 address).map UInt32.ofNat

/-- The same source with every answer cut after `longest` bytes. -/
def limited (source : ByteSource) (longest : Nat) : ByteSource :=
  ⟨fun address count => (source.read? address count).map (·.take longest)⟩

end ByteSource

end AchievementLogic
