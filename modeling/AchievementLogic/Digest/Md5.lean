import AchievementLogic.Memory.ByteSource
import AchievementLogic.Text.Scan

/-!
# The MD5 digest

The digest of a message of bytes: four words, mixed in 64 rounds with every block of 64 bytes of the
padded message, and written as 32 hexadecimal digits.
-/

namespace AchievementLogic.Md5

structure State where
  a : UInt32
  b : UInt32
  c : UInt32
  d : UInt32
deriving DecidableEq, Repr

def State.start : State := ⟨0x67452301, 0xefcdab89, 0x98badcfe, 0x10325476⟩

/-- The first 32 bits after the point of the sines of 1 to 64, signs aside. -/
def sines : List UInt32 :=
  [
    0xd76aa478, 0xe8c7b756, 0x242070db, 0xc1bdceee,
    0xf57c0faf, 0x4787c62a, 0xa8304613, 0xfd469501,
    0x698098d8, 0x8b44f7af, 0xffff5bb1, 0x895cd7be,
    0x6b901122, 0xfd987193, 0xa679438e, 0x49b40821,
    0xf61e2562, 0xc040b340, 0x265e5a51, 0xe9b6c7aa,
    0xd62f105d, 0x02441453, 0xd8a1e681, 0xe7d3fbc8,
    0x21e1cde6, 0xc33707d6, 0xf4d50d87, 0x455a14ed,
    0xa9e3e905, 0xfcefa3f8, 0x676f02d9, 0x8d2a4c8a,
    0xfffa3942, 0x8771f681, 0x6d9d6122, 0xfde5380c,
    0xa4beea44, 0x4bdecfa9, 0xf6bb4b60, 0xbebfbc70,
    0x289b7ec6, 0xeaa127fa, 0xd4ef3085, 0x04881d05,
    0xd9d4d039, 0xe6db99e5, 0x1fa27cf8, 0xc4ac5665,
    0xf4292244, 0x432aff97, 0xab9423a7, 0xfc93a039,
    0x655b59c3, 0x8f0ccc92, 0xffeff47d, 0x85845dd1,
    0x6fa87e4f, 0xfe2ce6e0, 0xa3014314, 0x4e0811a1,
    0xf7537e82, 0xbd3af235, 0x2ad7d2bb, 0xeb86d391]

/-- By how many places the rounds rotate: four numbers for each quarter, over and over. -/
def rotations : List UInt32 :=
  [[7, 12, 17, 22], [5, 9, 14, 20], [4, 11, 16, 23], [6, 10, 15, 21]].flatMap fun four =>
    four ++ four ++ four ++ four

/-- One round: the three words that are mixed, and the word of the block that is added. -/
def mixed (round : Nat) (state : State) : UInt32 × Nat :=
  let { b, c, d, .. } := state
  match round / 16 with
  | 0 => ((b &&& c) ||| (~~~b &&& d), round % 16)
  | 1 => ((d &&& b) ||| (~~~d &&& c), (5 * round + 1) % 16)
  | 2 => (b ^^^ c ^^^ d, (3 * round + 5) % 16)
  | _ => (c ^^^ (b ||| ~~~d), (7 * round) % 16)

def rotateLeft (word places : UInt32) : UInt32 := (word <<< places) ||| (word >>> (32 - places))

def step (block : List UInt32) (state : State) (round : Nat × UInt32 × UInt32) : State :=
  let (number, sine, rotation) := round
  let (mix, index) := mixed number state
  let sum := state.a + mix + sine + block.getD index 0
  { a := state.d, b := state.b + rotateLeft sum rotation, c := state.b, d := state.c }

def rounds : List (Nat × UInt32 × UInt32) := (List.range 64).zip (sines.zip rotations)

/-- Mixes one block of sixteen words into the state. -/
def compress (state : State) (block : List UInt32) : State :=
  let last := rounds.foldl (step block) state
  { a := state.a + last.a, b := state.b + last.b, c := state.c + last.c, d := state.d + last.d }

/-- The message, a single bit, zeros up to eight bytes before the end of a block, and the length of
the message in bits. -/
def pad (message : List UInt8) : List UInt8 :=
  let zeros := (119 - message.length % 64) % 64
  message ++ 0x80 :: List.replicate zeros 0 ++ littleEndianBytes 8 (8 * message.length)

/-- The words of `count` groups of four bytes. -/
def words : Nat → List UInt8 → List UInt32
  | 0, _ => []
  | count + 1, bytes => UInt32.ofNat (littleEndian (bytes.take 4)) :: words count (bytes.drop 4)

def absorb (state : State) : Nat → List UInt8 → State
  | 0, _ => state
  | count + 1, bytes => absorb (compress state (words 16 (bytes.take 64))) count (bytes.drop 64)

/-- The sixteen bytes of the digest. -/
def digest (message : List UInt8) : List UInt8 :=
  let padded := pad message
  let state := absorb .start (padded.length / 64) padded
  [state.a, state.b, state.c, state.d].flatMap fun word => littleEndianBytes 4 word.toNat

def hexDigest (text : String) : String :=
  String.ofList <| (digest (Text.bytesOf text)).flatMap fun byte =>
    [Nat.digitChar (byte.toNat / 16), Nat.digitChar (byte.toNat % 16)]

end AchievementLogic.Md5
