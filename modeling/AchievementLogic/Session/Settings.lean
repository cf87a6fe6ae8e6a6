import AchievementLogic.Memory.Frame
import AchievementLogic.Text.Fields
import AchievementLogic.Toml.Read

/-!
# Settings

How a session sees the machine's memory, at what rate frames pass, and what it reports.  Settings are
written as a TOML document: every setting may be left out, and what is no setting means nothing.
-/

namespace AchievementLogic

open RecordField (orDefault)

structure Settings where
  framesPerSecond : UInt32 := 60
  regions : List Region := []
  /-- Whether an achievement that loses progress to a reset is reported. -/
  pauseOnReset : Bool := false
  /-- Passed on with every achievement that triggers. -/
  hardcore : Bool := false
deriving DecidableEq, Repr, Inhabited

def Settings.frame (settings : Settings) (source : ByteSource) : Frame :=
  ({ source, regions := settings.regions } : Frame).withRate settings.framesPerSecond

/-! ## Settings as a document -/

def Region.ofToml? (value : Toml.Value) : Option Region := do
  match ← value.fields? ["start", "end", "real_address"] with
  | [some first, some last, some realAddress] =>
    let realAddress ← realAddress.toInt?
    guard (0 ≤ realAddress)
    return {
      first := ← first.toWord?
      last := ← last.toWord?
      realAddress := realAddress.toNat }
  | _ => none

namespace Settings

/-- The regions of a memory layout, none if it lists none. -/
def regionsOf? (layout : Toml.Value) : Option (List Region) := do
  match ← layout.fields? ["regions"] with
  | [some regions] => (← regions.toList?).mapM Region.ofToml?
  | _ => return []

def ofToml? (value : Toml.Value) : Option Settings := do
  let fields ← value.fields? ["frames_per_second", "memory", "pause_on_reset", "hardcore"]
  match fields with
  | [framesPerSecond, memory, pauseOnReset, hardcore] =>
    return {
      framesPerSecond := ← orDefault Toml.Value.toWord? 60 framesPerSecond
      regions := ← orDefault regionsOf? [] memory
      pauseOnReset := ← orDefault Toml.Value.toBool? false pauseOnReset
      hardcore := ← orDefault Toml.Value.toBool? false hardcore }
  | _ => none

/-- The settings that a text writes, if it writes any. -/
def ofText? (text : String) : Option Settings := (Toml.ofText? text).bind ofToml?

end Settings

end AchievementLogic
