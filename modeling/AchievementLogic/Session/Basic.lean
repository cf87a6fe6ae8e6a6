import AchievementLogic.Achievement.Progress
import AchievementLogic.Leaderboard.Basic
import AchievementLogic.Presence.Script
import AchievementLogic.Session.Settings

/-!
# Sessions

A session holds what is loaded for one game and tests it once per frame: every active achievement
and every leaderboard.  What changed is reported as events, achievements first, each in the order in
which it was loaded.
-/

namespace AchievementLogic

/-! ## Events -/

inductive Event
  /-- The conditions held; the achievement is no longer active. -/
  | achievementTriggered (id : UInt32) (hardcore : Bool)
  /-- Only chains that trigger are still missing. -/
  | achievementPrimed (id : UInt32)
  | achievementUnprimed (id : UInt32)
  /-- A reset took progress away. -/
  | achievementReset (id : UInt32)
  | leaderboardStarted (id : UInt32)
  | leaderboardCanceled (id : UInt32)
  /-- A value was submitted; with its text in the format of the leaderboard. -/
  | leaderboardSubmitted (id : UInt32) (score : UInt32) (text : String)
deriving DecidableEq, Repr

namespace Event

def id : Event → UInt32
  | achievementTriggered id _ | achievementPrimed id | achievementUnprimed id
  | achievementReset id | leaderboardStarted id | leaderboardCanceled id
  | leaderboardSubmitted id _ _ => id

def isLeaderboard : Event → Bool
  | leaderboardStarted _ | leaderboardCanceled _ | leaderboardSubmitted .. => true
  | _ => false

end Event

structure TimedEvent where
  event : Event
  frame : Nat
deriving DecidableEq, Repr

/-! ## Sessions -/

structure Session where
  settings : Settings := {}
  title : String := ""
  achievements : List Achievement := []
  leaderboards : List Leaderboard := []
  presence? : Option Presence.Script := none
  /-- The number of frames since the game was loaded. -/
  frames : Nat := 0

/-- A number that no achievement, or no leaderboard, has. -/
inductive SessionError
  | unknownAchievement (id : UInt32)
  | unknownLeaderboard (id : UInt32)
deriving DecidableEq, Repr

def SessionError.message : SessionError → String
  | unknownAchievement id => s!"unknown achievement: {id.toNat}"
  | unknownLeaderboard id => s!"unknown leaderboard: {id.toNat}"

/-- What one achievement reports of a frame, and the achievement after it.  An achievement that
triggers is no longer active and reports nothing else. -/
def Achievement.step (achievement : Achievement) (settings : Settings) (frame : Frame) :
    List Event × Achievement :=
  if achievement.active then
    let (held, after) := achievement.test frame
    let id := achievement.id
    if held then
      ([.achievementTriggered id settings.hardcore], { after with active := false })
    else
      let lost := settings.pauseOnReset && achievement.hasProgress && after.lastOutcome.wasReset
      let primed := match achievement.primed, after.primed with
        | false, true => [.achievementPrimed id]
        | true, false => [.achievementUnprimed id]
        | _, _ => []
      ((if lost then [.achievementReset id] else []) ++ primed, after)
  else ([], achievement)

/-- What one leaderboard reports of a frame, and the leaderboard after it. -/
def Leaderboard.step (leaderboard : Leaderboard) (frame : Frame) : List Event × Leaderboard :=
  let (change?, after) := leaderboard.test frame
  let id := leaderboard.id
  let events : List Event := match change? with
    | some .started => [.leaderboardStarted id]
    | some .canceled => [.leaderboardCanceled id]
    | some (.submitted score) =>
      [.leaderboardSubmitted id score (leaderboard.format.textAtRate score frame.framesPerSecond)]
    | none => []
  (events, after)

namespace Session

/-! ## What is loaded -/

def addAchievement (session : Session) (achievement : Achievement) : Session :=
  { session with achievements := session.achievements ++ [achievement] }

def addLeaderboard (session : Session) (leaderboard : Leaderboard) : Session :=
  { session with leaderboards := session.leaderboards ++ [leaderboard] }

def setPresence (session : Session) (text : String) : Session :=
  { session with presence? := some (Presence.Script.ofText text) }

def achievement (session : Session) (id : UInt32) : Except SessionError Achievement :=
  match session.achievements.find? (·.id == id) with
  | some found => .ok found
  | none => .error (.unknownAchievement id)

def leaderboard (session : Session) (id : UInt32) : Except SessionError Leaderboard :=
  match session.leaderboards.find? (·.id == id) with
  | some found => .ok found
  | none => .error (.unknownLeaderboard id)

def modifyAchievement (session : Session) (id : UInt32) (change : Achievement → Achievement) :
    Except SessionError Session :=
  match session.achievements.findIdx? (·.id == id) with
  | some place => .ok { session with achievements := session.achievements.modify place change }
  | none => .error (.unknownAchievement id)

def modifyLeaderboard (session : Session) (id : UInt32) (change : Leaderboard → Leaderboard) :
    Except SessionError Session :=
  match session.leaderboards.findIdx? (·.id == id) with
  | some place => .ok { session with leaderboards := session.leaderboards.modify place change }
  | none => .error (.unknownLeaderboard id)

/-- Makes an achievement active, without any hits. -/
def activate (session : Session) (id : UInt32) : Except SessionError Session :=
  session.modifyAchievement id fun achievement => { achievement.reset with active := true }

def deactivate (session : Session) (id : UInt32) : Except SessionError Session :=
  session.modifyAchievement id ({ · with active := false })

/-! ## Frames -/

/-- Tests everything on a new frame: what is reported, and the session after it. -/
def step (session : Session) (frame : Frame) : List Event × Session :=
  let achievements := session.achievements.map (·.step session.settings frame)
  let leaderboards := session.leaderboards.map (·.step frame)
  (achievements.flatMap (·.1) ++ leaderboards.flatMap (·.1),
    { session with
      achievements := achievements.map (·.2)
      leaderboards := leaderboards.map (·.2)
      frames := session.frames + 1 })

def timed (session : Session) (events : List Event) : List TimedEvent :=
  events.map fun event => ⟨event, session.frames⟩

/-- The rich presence text on a new frame, nothing without a script. -/
def presenceText (session : Session) (frame : Frame) : String × Session :=
  match session.presence? with
  | none => ("", session)
  | some script =>
    let (text, after) := script.render frame
    (text, { session with presence? := some after })

def reset (session : Session) : Session :=
  { session with
    achievements := session.achievements.map Achievement.reset
    leaderboards := session.leaderboards.map Leaderboard.reset }

/-! ## Progress -/

def saveProgress (session : Session) (user : String) : String :=
  String.join (session.achievements.map (·.saveProgress user))

/-- Lets every achievement in turn take its progress from the front of a text. -/
def restorePass (user : String) (text : String) : List Achievement → String × List Achievement
  | [] => (text, [])
  | head :: tail =>
    let (rest, first) := head.restoreProgress text user
    let (rest, others) := restorePass user rest tail
    (rest, first :: others)

/-- Repeats passes over the achievements as long as text is left and a pass took some. -/
def restoreAll (user : String) (text : String) (achievements : List Achievement) :
    String × List Achievement :=
  let pass := restorePass user text achievements
  if _shorter : pass.1.utf8ByteSize < text.utf8ByteSize then
    if pass.1.isEmpty then pass else restoreAll user pass.1 pass.2
  else pass
termination_by text.utf8ByteSize

/-- Restores saved progress.  Text that no achievement takes is left alone. -/
def loadProgress (session : Session) (text user : String) : Session :=
  { session with achievements := (restoreAll user text session.achievements).2 }

/-- The text that loading leaves alone. -/
def unmatchedProgress (session : Session) (text user : String) : String :=
  (restoreAll user text session.achievements).1

end Session

end AchievementLogic
