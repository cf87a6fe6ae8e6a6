import AchievementLogic.Achievement.Basic
import AchievementLogic.Json.Read
import AchievementLogic.Leaderboard.Basic
import AchievementLogic.Text.Fields

/-!
# Game documents

A game's achievements, leaderboards and rich presence script come as one JSON document.  Numbers of
records and points may be written as strings; most fields may be left out.
-/

namespace AchievementLogic.Game

structure AchievementEntry where
  id : UInt32
  title : String
  description : String
  points : UInt32
  author : String
  badgeName : String
  definition : String
  /-- 3 marks an official achievement. -/
  flags : UInt32
  created : Int64
  modified : Int64
deriving DecidableEq

structure LeaderboardEntry where
  id : UInt32
  title : String
  description : String
  definition : String
  format : String
deriving DecidableEq

structure Document where
  id : UInt32
  title : String
  consoleId : UInt32
  presence? : Option String
  achievements : List AchievementEntry
  leaderboards : List LeaderboardEntry
deriving DecidableEq

/-! ## Reading -/

open RecordField (orDefault required)

/-- A word, or a string that writes one. -/
def looseWordOf? (value : Json.Value) : Option UInt32 :=
  match value with
  | .string text? => text?.bind fun text => Text.wordOf? 10 (Text.trim text)
  | _ => value.toWord?

def optionalTextOf? (value : Json.Value) : Option (Option String) :=
  match value with
  | .null => some none
  | _ => value.toText?.map some

def listOf? (read? : Json.Value → Option α) (value : Json.Value) : Option (List α) :=
  value.toList?.bind (·.mapM read?)

def AchievementEntry.ofJson? (value : Json.Value) : Option AchievementEntry := do
  let fields ← value.fields?
    ["ID", "Title", "Description", "Points", "Author", "BadgeName", "MemAddr", "Flags", "Created",
      "Modified"]
  match fields with
  | [id, title, description, points, author, badgeName, definition, flags, created, modified] =>
    return {
      id := ← required looseWordOf? id
      title := ← orDefault Json.Value.toText? "" title
      description := ← orDefault Json.Value.toText? "" description
      points := ← orDefault looseWordOf? 0 points
      author := ← orDefault Json.Value.toText? "" author
      badgeName := ← orDefault Json.Value.toText? "" badgeName
      definition := ← required Json.Value.toText? definition
      flags := ← orDefault Json.Value.toWord? 3 flags
      created := ← orDefault Json.Value.toInt64? 0 created
      modified := ← orDefault Json.Value.toInt64? 0 modified }
  | _ => none

def LeaderboardEntry.ofJson? (value : Json.Value) : Option LeaderboardEntry := do
  let fields ← value.fields? ["ID", "Title", "Description", "Mem", "Format"]
  match fields with
  | [id, title, description, definition, format] =>
    return {
      id := ← required looseWordOf? id
      title := ← orDefault Json.Value.toText? "" title
      description := ← orDefault Json.Value.toText? "" description
      definition := ← required Json.Value.toText? definition
      format := ← orDefault Json.Value.toText? "VALUE" format }
  | _ => none

namespace Document

def ofJson? (value : Json.Value) : Option Document := do
  let fields ← value.fields?
    ["ID", "Title", "ConsoleID", "RichPresencePatch", "Achievements", "Leaderboards"]
  match fields with
  | [id, title, consoleId, presence, achievements, leaderboards] =>
    return {
      id := ← orDefault looseWordOf? 0 id
      title := ← orDefault Json.Value.toText? "" title
      consoleId := ← orDefault Json.Value.toWord? 0 consoleId
      presence? := ← orDefault optionalTextOf? none presence
      achievements := ← orDefault (listOf? AchievementEntry.ofJson?) [] achievements
      leaderboards := ← orDefault (listOf? LeaderboardEntry.ofJson?) [] leaderboards }
  | _ => none

def ofText? (text : String) : Option Document := (Json.ofText? text).bind ofJson?

/-- The rich presence script, if there is more to it than blanks. -/
def script? (document : Document) : Option String :=
  document.presence?.filter fun text => !(Text.trim text).isEmpty

end Document

/-! ## What the records describe -/

def AchievementEntry.isOfficial (entry : AchievementEntry) : Bool := entry.flags = 3

/-- The achievement that a record describes.  It is active if it is official. -/
def AchievementEntry.toAchievement (entry : AchievementEntry) : Achievement :=
  { Achievement.ofText entry.id entry.definition with
    title := entry.title
    description := entry.description
    points := entry.points
    author := entry.author
    badge := Achievement.unlockedBadge entry.badgeName
    created := entry.created
    modified := entry.modified
    active := entry.isOfficial }

/-- The leaderboard that a record describes.  Its title and description are those of the record,
whatever the definition says. -/
def LeaderboardEntry.toLeaderboard (entry : LeaderboardEntry) : Leaderboard :=
  (Leaderboard.ofText entry.id entry.definition (Format.ofName entry.format)).withTitle
    entry.title entry.description

end AchievementLogic.Game
