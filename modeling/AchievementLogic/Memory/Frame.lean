import AchievementLogic.Memory.ByteSource

/-!
# What one frame's evaluation can see

A frame gives access to memory by the addresses of the game's machine.  Regions map those addresses
onto the addresses of the byte source; without regions they are the same.  A byte that is mapped
nowhere or cannot be read counts as zero, so reading never fails.
-/

namespace AchievementLogic

/-- Consecutive machine addresses, both ends included, and the source address of the first. -/
structure Region where
  first : UInt32
  last : UInt32
  realAddress : Nat
deriving DecidableEq, Repr

namespace Region

def contains (region : Region) (address : UInt32) : Bool :=
  region.first ≤ address && address ≤ region.last

def locate? (region : Region) (address : UInt32) : Option Nat :=
  if region.contains address then
    some (region.realAddress + (address.toNat - region.first.toNat))
  else none

end Region

structure Frame where
  source : ByteSource
  regions : List Region := []
  framesPerSecond : UInt32 := 60

namespace Frame

/-- The same frame at another rate.  No rate is below one frame per second. -/
def withRate (frame : Frame) (framesPerSecond : UInt32) : Frame :=
  { frame with framesPerSecond := max framesPerSecond 1 }

/-- Where the source has a machine address: in the first region that contains it. -/
def locate? (frame : Frame) (address : UInt32) : Option Nat :=
  if frame.regions.isEmpty then some address.toNat
  else frame.regions.findSome? (·.locate? address)

def readByte (frame : Frame) (address : UInt32) : UInt8 :=
  ((frame.locate? address).bind frame.source.readByte?).getD 0

/-- Consecutive bytes, each read on its own.  Addresses wrap around. -/
def readBytes (frame : Frame) (address : UInt32) (count : Nat) : List UInt8 :=
  (List.range count).map fun offset => frame.readByte (address + UInt32.ofNat offset)

end Frame

end AchievementLogic
