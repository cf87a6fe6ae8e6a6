import AchievementLogic.Game.Document
import AchievementLogic.Session.Basic

/-!
# Loading games and settings

A session takes everything that a game document describes in place of what it held.  Files hold
texts; one that is missing or that is no text cannot be read.
-/

namespace AchievementLogic

inductive LoadError
  | unreadable
  | invalidSettings
  | invalidGame
deriving DecidableEq, Repr

/-- The text of a file, given its bytes if there is such a file. -/
def fileText (bytes? : Option (List UInt8)) : Except LoadError String :=
  match bytes?.bind Text.ofBytes? with
  | some text => .ok text
  | none => .error .unreadable

def Settings.ofText (text : String) : Except LoadError Settings :=
  match Settings.ofText? text with
  | some settings => .ok settings
  | none => .error .invalidSettings

def Settings.ofFile (bytes? : Option (List UInt8)) : Except LoadError Settings := do
  Settings.ofText (← fileText bytes?)

namespace Game.Document

def ofText (text : String) : Except LoadError Document :=
  match ofText? text with
  | some document => .ok document
  | none => .error .invalidGame

def ofFile (bytes? : Option (List UInt8)) : Except LoadError Document := do
  ofText (← fileText bytes?)

end Game.Document

namespace Session

/-- The session with everything that a game document describes, before its first frame. -/
def loadGame (session : Session) (document : Game.Document) : Session :=
  { session with
    title := document.title
    achievements := document.achievements.map (·.toAchievement)
    leaderboards := document.leaderboards.map (·.toLeaderboard)
    presence? := document.script?.map Presence.Script.ofText
    frames := 0 }

def start (settings : Settings) : Session := { settings }

end Session

end AchievementLogic
