import AchievementLogic.Achievement.Basic
import AchievementLogic.Text.Fields

/-!
# Achievements as lines

An achievement is written on one line: its number, its trigger and twelve further fields, with a
colon between two of them.  Reading is lenient: a trigger that cannot be read is left empty, a field
that is missing is empty, and a number that is none is zero.
-/

namespace AchievementLogic.Achievement

open Text (Scan)

/-- Cuts a text at colons into fields, at most `count` of them; the last one keeps its colons. -/
def fieldsOf (count : Nat) (letters : List Char) : List String :=
  match count with
  | 0 | 1 => [String.ofList letters]
  | count + 1 =>
    let field := letters.takeWhile (· != ':')
    match letters.dropWhile (· != ':') with
    | [] => [String.ofList field]
    | _ :: others => String.ofList field :: fieldsOf count others

/-- The trigger of a line, and where reading stopped.  After a trigger the line or its field has to
end; a trigger that fails leaves the place of its error. -/
def readTrigger (scan : Scan) (line : String) : Trigger × Scan :=
  match Trigger.read.run scan with
  | .ok trigger after =>
    if after.atEnd || after.peek = some ':' then (trigger, after) else (default, after)
  | .error error _ => (default, (Scan.ofString line).skip (error.position?.getD scan.position))

/-- The achievement on a line.  Empty lines and those that begin with `/` or a backslash hold none. -/
def ofLine? (text : String) : Option Achievement :=
  let line := Text.trimLineEnd text
  if line.isEmpty || line.toList.head? = some '/' || line.toList.head? = some '\\' then none
  else
    let scan := Scan.ofString line
    let (id, afterId) := scan.readUnsigned.getD (0, scan)
    let (trigger, after) := readTrigger ((afterId.accept? ':').getD afterId) line
    let fields := fieldsOf 12 ((after.rest.toList.dropWhile (· != ':')).drop 1)
    let text (index : Nat) : String := fields.getD index ""
    let word (index : Nat) : UInt32 := (Text.wordOf? 10 (Text.trim (text index))).getD 0
    let time (index : Nat) : Int64 := (Text.int64Of? (Text.trim (text index))).getD 0
    some
      { id
        title := text 0
        description := text 1
        progress := text 2
        progressMax := text 3
        progressFormat := text 4
        author := text 5
        points := word 6
        created := time 7
        modified := time 8
        upvotes := word 9
        downvotes := word 10
        badge := unlockedBadge (text 11)
        trigger
        active := true }

def line (achievement : Achievement) : String :=
  let word (value : UInt32) : String := toString value.toNat
  let time (value : Int64) : String := toString value.toInt
  ":".intercalate
    [word achievement.id, achievement.definition, achievement.title, achievement.description,
      achievement.progress, achievement.progressMax, achievement.progressFormat,
      achievement.author, word achievement.points, time achievement.created,
      time achievement.modified, word achievement.upvotes, word achievement.downvotes,
      achievement.badge]

end AchievementLogic.Achievement
