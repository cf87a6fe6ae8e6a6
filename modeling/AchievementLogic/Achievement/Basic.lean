import AchievementLogic.Trigger.Text

/-!
# Achievements

An achievement is a trigger with what a game says about it.  Testing it moves the trigger to a new
frame; whether a true result unlocks anything is decided elsewhere.
-/

namespace AchievementLogic

structure Achievement where
  id : UInt32 := 0
  title : String := ""
  description : String := ""
  progress : String := ""
  progressMax : String := ""
  progressFormat : String := ""
  author : String := ""
  points : UInt32 := 0
  /-- When it was made and last changed, in seconds. -/
  created : Int64 := 0
  modified : Int64 := 0
  upvotes : UInt32 := 0
  downvotes : UInt32 := 0
  badge : String := ""
  trigger : Trigger := default
  active : Bool := false
  lastOutcome : Outcome := {}
deriving Inhabited

namespace Achievement

/-- An active achievement by the text of its trigger.  A text that cannot be read gives a trigger
without conditions, which is never true. -/
def ofText (id : UInt32) (text : String) : Achievement :=
  { id
    trigger := match Trigger.read.readAll text with
      | .ok trigger => trigger
      | .error _ => default
    active := true }

def definition (achievement : Achievement) : String := achievement.trigger.text

/-- Evaluates a new frame: whether the conditions hold, and the achievement after it. -/
def test (achievement : Achievement) (frame : Frame) : Bool × Achievement :=
  let (outcome, trigger) := achievement.trigger.test frame
  (outcome.result, { achievement with trigger, lastOutcome := outcome })

def reset (achievement : Achievement) : Achievement :=
  { achievement with trigger := achievement.trigger.reset }

def primed (achievement : Achievement) : Bool := achievement.trigger.primed

def measured? (achievement : Achievement) : Option Measured := achievement.trigger.measured?

def hasProgress (achievement : Achievement) : Bool := achievement.trigger.hasHits

/-- The name of a badge, without the ending of its locked variant. -/
def unlockedBadge (badge : String) : String :=
  let letters := badge.toList
  let ending := "_lock".toList
  if ending.isSuffixOf letters then String.ofList (letters.take (letters.length - ending.length))
  else badge

end Achievement

end AchievementLogic
