import AchievementLogic.Trigger.Operand
import AchievementLogic.Trigger.Role

/-!
# Conditions

A condition compares two operands and counts its hits: the frames on which the comparison held.  A
condition with a hit target is complete once the count gets there.
-/

namespace AchievementLogic

structure Condition where
  role : Role
  source : Operand
  /-- Only a modifier may be without one. -/
  comparison? : Option Comparison
  target : Operand
  /-- Zero if the condition asks for no number of hits. -/
  requiredHits : UInt32 := 0
  hits : UInt32 := 0

namespace Condition

instance : Inhabited Condition := ⟨⟨default, default, none, default, 0, 0⟩⟩

def withRequiredHits (condition : Condition) (requiredHits : UInt32) : Condition :=
  { condition with requiredHits }

/-- Sets the count, without regard to the target. -/
def withHits (condition : Condition) (hits : UInt32) : Condition := { condition with hits }

/-- Counts one hit.  The count stays at the largest word. -/
def countHit (condition : Condition) : Condition :=
  { condition with hits := if condition.hits = 0xFFFFFFFF then condition.hits else condition.hits + 1 }

def clearHits (condition : Condition) : Condition := condition.withHits 0

def hasTarget (condition : Condition) : Bool := condition.requiredHits != 0

def isComplete (condition : Condition) : Bool :=
  condition.hasTarget && condition.requiredHits ≤ condition.hits

def advance (condition : Condition) (frame : Frame) (offset : UInt32) : Condition :=
  { condition with
    source := condition.source.advance frame offset
    target := condition.target.advance frame offset }

/-- The value of the source together with what modifiers before it collected. -/
def sourceValue (condition : Condition) (accumulated : Value) : Value :=
  condition.source.value + accumulated

def compare (condition : Condition) (accumulated : Value) : Bool :=
  match condition.comparison? with
  | some comparison => comparison.holds (condition.sourceValue accumulated) condition.target.value
  | none => false

/-- Counts a hit if there was one and the target is not reached yet. -/
def countIf (condition : Condition) (held : Bool) : Condition :=
  if held && !condition.isComplete then condition.countHit else condition

/-- Evaluates the condition by itself on a new frame: whether it held, and the condition after it. -/
def test (condition : Condition) (frame : Frame) : Bool × Condition :=
  let advanced := condition.advance frame 0
  let held := advanced.compare default
  (held, advanced.countIf held)

end Condition

end AchievementLogic
