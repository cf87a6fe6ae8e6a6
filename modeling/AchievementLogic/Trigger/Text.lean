import AchievementLogic.Trigger.Basic
import AchievementLogic.Trigger.OperandText

/-!
# The text of triggers

A condition is written as its role, its source, its comparison with the target and its hit target;
conditions of a group are joined by `_`, and groups by `S`.  The writer leaves out alternates
without conditions.
-/

namespace AchievementLogic

open Text (Scan)

namespace Comparison

/-- Reads a comparison, if one comes next. -/
def read? : Reader (Option Comparison) := do
  let scan ← get
  match ofMarks? scan.peek (scan.peekAt 1) with
  | some (comparison, length) => Reader.skip length; return some comparison
  | none => return none

end Comparison

namespace Role

/-- Reads the role of a condition: a letter and a colon.  Without a colon it is the standard one. -/
def read : Reader Role := do
  let scan ← get
  match scan.peek, scan.peekAt 1 with
  | some letter, some ':' =>
    match ofLetter? letter with
    | some role => Reader.skip 2; return role
    | none => Reader.fail (.unknownRole letter) scan.position
  | _, _ => return default

end Role

namespace Condition

/-- Reads a hit target, `(n)` or `.n.`, zero if there is none. -/
def readHits : Reader UInt32 := do
  let start ← Reader.position
  match ← Reader.peek with
  | some '(' => readUpTo start ')'
  | some '.' => readUpTo start '.'
  | _ => return 0
where
  readUpTo (start : Nat) (close : Char) : Reader UInt32 := do
    Reader.skip 1
    let hits ← Reader.require Scan.readUnsigned .noHitCount start
    if ← Reader.accept close then return hits
    else Reader.fail (.openHitCount close) (← Reader.position)

def read : Reader Condition := do
  let role ← Role.read
  let source ← Operand.read
  let place ← Reader.position
  match ← Comparison.read? with
  | some comparison =>
    let target ← Operand.read
    return { role, source, comparison? := some comparison, target, requiredHits := ← readHits }
  | none =>
    if role.isModifier then
      return { role, source, comparison? := none, target := default, requiredHits := ← readHits }
    else
      Reader.fail .noComparison place

def text (condition : Condition) : String :=
  let comparison := match condition.comparison? with
    | some comparison => comparison.mark ++ condition.target.text
    | none => ""
  let hits := if condition.hasTarget then s!".{condition.requiredHits.toNat}." else ""
  condition.role.mark ++ condition.source.text ++ comparison ++ hits

end Condition

namespace Group

/-- Reads conditions joined by `_`.  Before `S`, a colon or the end of the text there are none. -/
def read : Reader Group := do
  match ← Reader.peek with
  | none | some 'S' | some ':' => return ⟨[]⟩
  | _ => return ⟨← Reader.separated Condition.read '_'⟩

def text (group : Group) : String := "_".intercalate (group.conditions.map Condition.text)

end Group

namespace Trigger

/-- A trigger that no frame has been evaluated with. -/
def ofGroups : List Group → Trigger
  | [] => { core := ⟨[]⟩ }
  | core :: alternates => { core, alternates }

def read : Reader Trigger := do
  return ofGroups (← Reader.separated Group.read 'S')

def text (trigger : Trigger) : String :=
  let alternates := trigger.alternates.filter (!·.isEmpty)
  trigger.core.text ++ String.join (alternates.map fun group => "S" ++ group.text)

end Trigger

end AchievementLogic
