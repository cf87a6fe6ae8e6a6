import AchievementLogic.Memory.ByteSource

/-!
# Memory images

An image holds memory as blocks of consecutive bytes, in the order in which they were added.  Blocks
may overlap and are never joined: a byte is read from the first block that has it, and a range of
bytes from the first block that has all of it.
-/

namespace AchievementLogic

structure Block where
  start : Nat
  bytes : List UInt8
deriving DecidableEq, Repr

namespace Block

/-- The address after the last byte. -/
def stop (block : Block) : Nat := block.start + block.bytes.length

def holds (block : Block) (address : Nat) : Bool := block.start ≤ address && address < block.stop

/-- The bytes of a range that starts and ends in the block. -/
def slice? (block : Block) (address count : Nat) : Option (List UInt8) :=
  let offset := address - block.start
  if block.holds address && offset + count ≤ block.bytes.length then
    some ((block.bytes.drop offset).take count)
  else none

def patch (block : Block) (address : Nat) (value : UInt8) : Block :=
  { block with bytes := block.bytes.set (address - block.start) value }

def push (block : Block) (value : UInt8) : Block :=
  { block with bytes := block.bytes ++ [value] }

end Block

/-- Changes the first member that `picks` selects; none if there is no such member. -/
def updateFirst? (picks : α → Bool) (update : α → α) : List α → Option (List α)
  | [] => none
  | head :: tail =>
    if picks head then some (update head :: tail)
    else (updateFirst? picks update tail).map (head :: ·)

/-- Memory as blocks, with what a reader of it may ask besides: where it begins, how large it is,
and whether it can be read at all. -/
structure Image where
  blocks : List Block := []
  base : Nat := 0
  size : Nat := 0
  valid : Bool := true
deriving DecidableEq, Repr

namespace Image

def read? (image : Image) (address count : Nat) : Option (List UInt8) :=
  if image.valid then image.blocks.findSome? (·.slice? address count) else none

def source (image : Image) : ByteSource := ⟨image.read?⟩

/-- Adds a block, in place of the first one with the same start. -/
def writeBlock (image : Image) (start : Nat) (bytes : List UInt8) : Image :=
  { image with
    blocks := (updateFirst? (·.start == start) (fun block => { block with bytes }) image.blocks).getD
      (image.blocks ++ [⟨start, bytes⟩]) }

/-- Writes a byte into the first block that has its address, else at the end of the first block
that stops there, else as a block of its own. -/
def writeByte (image : Image) (address : Nat) (value : UInt8) : Image :=
  let patched? := updateFirst? (·.holds address) (·.patch address value) image.blocks
  let extended? := updateFirst? (·.stop == address) (·.push value) image.blocks
  { image with blocks := (patched?.or extended?).getD (image.blocks ++ [⟨address, [value]⟩]) }

def writeBytes (image : Image) (address : Nat) : List UInt8 → Image
  | [] => image
  | value :: values => (image.writeByte address value).writeBytes (address + 1) values

def writeWord16 (image : Image) (address : Nat) (value : UInt16) : Image :=
  image.writeBytes address (littleEndianBytes 2 value.toNat)

def writeWord32 (image : Image) (address : Nat) (value : UInt32) : Image :=
  image.writeBytes address (littleEndianBytes 4 value.toNat)

def ofBytes (bytes : List UInt8) : Image :=
  { (({} : Image).writeBlock 0 bytes) with size := bytes.length }

end Image

end AchievementLogic
