import AchievementLogic.Trigger.Group

/-!
# Triggers

A trigger is a core group of conditions and any number of alternate groups.  Every group is
evaluated on every frame.  Without alternates the core decides; with alternates any group decides
that has logic of its own and is not paused, the core being one of them.  A reset that any group
asks for clears the hits of all groups.
-/

namespace AchievementLogic

structure Trigger where
  core : Group
  alternates : List Group := []
  /-- Whether, on the last frame, only chains that trigger were missing. -/
  primed : Bool := false
  /-- The measured progress of the last frame. -/
  measured? : Option Measured := none
deriving Inhabited

/-- What a trigger reports of one frame. -/
structure Outcome where
  result : Bool := false
  /-- Whether any hits changed. -/
  dirty : Bool := false
  /-- Whether a reset cleared all hits. -/
  wasReset : Bool := false
deriving DecidableEq, Repr, Inhabited

namespace Trigger

/-- The core, then the alternates. -/
def groups (trigger : Trigger) : List Group := trigger.core :: trigger.alternates

def isEmpty (trigger : Trigger) : Bool := trigger.groups.all Group.isEmpty

def hasHits (trigger : Trigger) : Bool := trigger.groups.any Group.hasHits

def mapGroups (trigger : Trigger) (change : Group → Group) : Trigger :=
  { trigger with core := change trigger.core, alternates := trigger.alternates.map change }

def modifyGroup (trigger : Trigger) (index : Nat) (change : Group → Group) : Trigger :=
  match index with
  | 0 => { trigger with core := change trigger.core }
  | index + 1 => { trigger with alternates := trigger.alternates.modify index change }

def reset (trigger : Trigger) : Trigger :=
  { trigger.mapGroups Group.clearHits with primed := false }

def advance (trigger : Trigger) (frame : Frame) : Trigger :=
  trigger.mapGroups (·.advance frame)

/-- Progress counts where it is larger than what was found before. -/
def largerMeasured (found candidate : Option Measured) : Option Measured :=
  match found, candidate with
  | some first, some second => if first.value < second.value then some second else some first
  | found, candidate => found.or candidate

/-- Whether a group has a say in the truth of a trigger with alternates. -/
def contributes (outcome : GroupOutcome) : Bool := outcome.hasLogic && !outcome.paused

/-- Joins what holds of the groups: of the core if it is alone, else of any group with a say. -/
def joins (core : GroupOutcome) (alternates : List GroupOutcome) (holds : GroupOutcome → Bool) :
    Bool :=
  if alternates.isEmpty then holds core
  else (core :: alternates).any fun outcome => contributes outcome && holds outcome

/-- The largest progress that the groups measured, the first of those. -/
def measuredOf (core : GroupOutcome) (alternates : List GroupOutcome) : Option Measured :=
  alternates.foldl (fun found outcome => largerMeasured found outcome.measured?) core.measured?

/-- What the outcomes of the groups come to.  Without any condition nothing is true. -/
def gather (empty : Bool) (core : GroupOutcome) (alternates : List GroupOutcome) :
    Outcome × Trigger :=
  let outcomes := core :: alternates
  let resetRequested := outcomes.any (·.resetRequested)
  let counts := !empty && !resetRequested
  let result := counts && joins core alternates (·.result)
  let primed := counts && joins core alternates (·.primed)
  let evaluated : Trigger :=
    { core := core.group
      alternates := alternates.map (·.group)
      primed := primed && !result && outcomes.any (·.hasTrigger)
      measured? := measuredOf core alternates }
  ({ result
     dirty := outcomes.any (·.dirty) || resetRequested
     wasReset := resetRequested },
    if resetRequested then evaluated.mapGroups Group.clearHits else evaluated)

def evaluate (trigger : Trigger) : Outcome × Trigger :=
  gather trigger.isEmpty trigger.core.evaluate (trigger.alternates.map Group.evaluate)

def test (trigger : Trigger) (frame : Frame) : Outcome × Trigger :=
  (trigger.advance frame).evaluate

end Trigger

end AchievementLogic
