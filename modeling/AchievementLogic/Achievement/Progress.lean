import AchievementLogic.Achievement.Basic
import AchievementLogic.Digest.Md5

/-!
# Saved progress

Progress is saved as one text: for every group the number of the achievement, the number of
conditions and five fields for each, and then two digests, of the groups together with the user and
of the trigger.  Every field ends in a colon.  The texts of several achievements stand one after the
other, so restoring takes one of them from the front and returns what follows it.
-/

namespace AchievementLogic.Achievement

open Text (Scan)

/-- What is saved of a condition: its hits, and the current and previous reading of both operands. -/
structure SavedCondition where
  hits : UInt32
  source : UInt32 × UInt32
  target : UInt32 × UInt32
deriving DecidableEq, Repr

namespace SavedCondition

def ofCondition (condition : Condition) : SavedCondition :=
  ⟨condition.hits, condition.source.savedReadings, condition.target.savedReadings⟩

/-- The condition with what was saved of it. -/
def restore (saved : SavedCondition) (condition : Condition) : Condition :=
  { condition with
    hits := saved.hits
    source := condition.source.restoreReadings saved.source.1 saved.source.2
    target := condition.target.restoreReadings saved.target.1 saved.target.2 }

end SavedCondition

/-! ## Writing -/

def fieldText (value : Nat) : String := toString value ++ ":"

def SavedCondition.text (saved : SavedCondition) : String :=
  String.join <|
    [saved.hits, saved.source.1, saved.source.2, saved.target.1, saved.target.2].map
      fun value => fieldText value.toNat

def groupText (id : UInt32) (conditions : List SavedCondition) : String :=
  fieldText id.toNat ++ fieldText conditions.length ++ String.join (conditions.map SavedCondition.text)

def savedGroups (achievement : Achievement) : List (List SavedCondition) :=
  achievement.trigger.groups.map fun group => group.conditions.map SavedCondition.ofCondition

/-- The digest that ties the text of groups to a user and an achievement. -/
def userDigest (user groups : String) (id : UInt32) : String :=
  Md5.hexDigest (user ++ groups ++ user ++ toString id.toNat)

def definitionDigest (achievement : Achievement) : String := Md5.hexDigest achievement.definition

/-- The progress of an achievement as a text. -/
def saveProgress (achievement : Achievement) (user : String) : String :=
  let groups := String.join (achievement.savedGroups.map (groupText achievement.id))
  groups ++ userDigest user groups achievement.id ++ ":" ++ achievement.definitionDigest ++ ":"

/-! ## Reading -/

/-- Reads a number with its colon. -/
def readField (scan : Scan) : Option (UInt32 × Scan) := do
  let (value, after) ← scan.readUnsigned
  let after ← after.accept? ':'
  return (value, after)

def readCondition (scan : Scan) : Option (SavedCondition × Scan) := do
  let (hits, scan) ← readField scan
  let (source, scan) ← readField scan
  let (sourceBefore, scan) ← readField scan
  let (target, scan) ← readField scan
  let (targetBefore, scan) ← readField scan
  return (⟨hits, (source, sourceBefore), (target, targetBefore)⟩, scan)

def readConditions : Nat → Scan → Option (List SavedCondition × Scan)
  | 0, scan => some ([], scan)
  | count + 1, scan => do
    let (first, scan) ← readCondition scan
    let (others, scan) ← readConditions count scan
    return (first :: others, scan)

/-- The number of conditions that a group of this achievement announces here, if one stands here. -/
def readHeader (id : UInt32) (scan : Scan) : Option (UInt32 × Scan) := do
  let (found, scan) ← readField scan
  guard (found = id)
  readField scan

/-- Reads the groups of an achievement, `rounds` at the most; none if one breaks off. -/
def readGroups (id : UInt32) : Nat → Scan → Option (List (List SavedCondition) × Scan)
  | 0, scan => some ([], scan)
  | rounds + 1, scan =>
    match readHeader id scan with
    | none => some ([], scan)
    | some (count, after) => do
      let (first, scan) ← readConditions count.toNat after
      let (others, scan) ← readGroups id rounds scan
      return (first :: others, scan)

def readDigest (scan : Scan) : Option (String × Scan) :=
  let letters := scan.remaining.takeWhile (· != 58)
  if letters.length < scan.remaining.length then
    some ((Text.ofBytes? letters).getD "", scan.skip (letters.length + 1))
  else none

/-- The progress of one achievement, as it was read from the front of a text. -/
structure SavedProgress where
  groups : List (List SavedCondition)
  /-- The text that the groups were read from. -/
  groupsText : String
  userDigest : String
  definitionDigest : String
  /-- The text after it. -/
  rest : String

/-- Reads the progress of an achievement from the front of a text, if that is whole.  A group takes
some bytes, so that there are no more of them than bytes. -/
def SavedProgress.read? (id : UInt32) (input : String) : Option SavedProgress := do
  let scan := Scan.ofString input
  let (groups, afterGroups) ← readGroups id scan.remaining.length scan
  guard !groups.isEmpty
  let (userDigest, afterUser) ← readDigest afterGroups
  let (definitionDigest, after) ← readDigest afterUser
  return {
    groups
    groupsText := (Text.ofBytes? (scan.remaining.take afterGroups.position)).getD ""
    userDigest
    definitionDigest
    rest := after.rest }

/-! ## Restoring -/

/-- Whether saved groups have the numbers of conditions that a trigger has. -/
def sameShape (groups : List (List SavedCondition)) (trigger : Trigger) : Bool :=
  groups.map List.length == trigger.groups.map Group.size

/-- Whether progress was saved for this user and this achievement. -/
def accepts (achievement : Achievement) (user : String) (saved : SavedProgress) : Bool :=
  saved.userDigest == Achievement.userDigest user saved.groupsText achievement.id &&
    saved.definitionDigest == achievement.definitionDigest &&
    sameShape saved.groups achievement.trigger

def restoreGroup (saved : List SavedCondition) (group : Group) : Group :=
  ⟨List.zipWith SavedCondition.restore saved group.conditions⟩

/-- Puts saved groups into a trigger of the same shape. -/
def restoreTrigger (groups : List (List SavedCondition)) (trigger : Trigger) : Trigger :=
  match groups with
  | [] => trigger
  | core :: alternates =>
    { trigger with
      core := restoreGroup core trigger.core
      alternates := List.zipWith restoreGroup alternates trigger.alternates }

/-- Restores progress from the front of a text and returns what follows it.  Progress that was not
saved for this user and this trigger clears all hits; a text that does not begin with whole progress
of this achievement is returned as it is. -/
def restoreProgress (achievement : Achievement) (input user : String) : String × Achievement :=
  match SavedProgress.read? achievement.id input with
  | none => (input, achievement)
  | some saved =>
    if achievement.accepts user saved then
      (saved.rest, { achievement with trigger := restoreTrigger saved.groups achievement.trigger })
    else (saved.rest, achievement.reset)

end AchievementLogic.Achievement
