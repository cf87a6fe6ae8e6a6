import AchievementLogic.Trigger.Chain

/-!
# Groups of conditions

On every frame a group first reads memory for all its operands, then evaluates its chains.  Chains
that pause come first, and the first satisfied one ends the evaluation; chains that reset come
next; the truth of the group is that of all its logic chains together.
-/

namespace AchievementLogic

structure Group where
  conditions : List Condition
deriving Inhabited

structure GroupOutcome where
  group : Group
  /-- Whether all logic chains are satisfied; never while paused or resetting. -/
  result : Bool := false
  /-- The same without regard to chains that trigger. -/
  primed : Bool := false
  hasLogic : Bool := false
  hasTrigger : Bool := false
  paused : Bool := false
  resetRequested : Bool := false
  dirty : Bool := false
  measured? : Option Measured := none

namespace Group

def size (group : Group) : Nat := group.conditions.length

def isEmpty (group : Group) : Bool := group.conditions.isEmpty

def modify (group : Group) (index : Nat) (change : Condition → Condition) : Group :=
  ⟨group.conditions.modify index change⟩

def setHits (group : Group) (index : Nat) (hits : UInt32) : Group :=
  group.modify index (·.withHits hits)

def clearHits (group : Group) : Group := ⟨group.conditions.map Condition.clearHits⟩

def hasHits (group : Group) : Bool := group.conditions.any (·.hits != 0)

/-- Moves conditions to a new frame.  An address that is to be added shifts the next condition. -/
def advanceFrom (frame : Frame) (offset : UInt32) : List Condition → List Condition
  | [] => []
  | head :: tail =>
    let advanced := head.advance frame offset
    let next := if head.role = .modifier .addAddress then advanced.source.value.toWord else 0
    advanced :: advanceFrom frame next tail

def advance (group : Group) (frame : Frame) : Group := ⟨advanceFrom frame 0 group.conditions⟩

/-- Evaluates the chains that pause, up to the first satisfied one, and says whether one was. -/
def pausePass : List Chain → List ChainOutcome × Bool
  | [] => ([], false)
  | head :: tail =>
    if head.kind = .pause then
      let first := head.evaluate
      if first.satisfied then (first :: tail.map Chain.idle, true)
      else
        let (others, paused) := pausePass tail
        (first :: others, paused)
    else
      let (others, paused) := pausePass tail
      (head.idle :: others, paused)

/-- Evaluates the chains that the pauses left alone. -/
def mainPass (outcomes : List ChainOutcome) : List ChainOutcome :=
  outcomes.map fun outcome =>
    if outcome.chain.kind = .pause then outcome else outcome.chain.evaluate

/-- The measured progress of a group: what its last measured chain reports, emptied where a
condition on it fails. -/
def measuredOf (logic : List ChainOutcome) : Option Measured :=
  let last := logic.foldl (fun found outcome => outcome.measured?.or found) none
  let fails (outcome : ChainOutcome) : Bool :=
    outcome.chain.terminal.role == .check .measuredIf && !outcome.satisfied
  if logic.any fails then last.map ({ · with value := 0 }) else last

def evaluate (group : Group) : GroupOutcome :=
  let (chains, loose) := Chain.split group.conditions
  let rejoin (outcomes : List ChainOutcome) : Group := ⟨Chain.join (outcomes.map (·.chain)) loose⟩
  let (pauses, paused) := pausePass chains
  if paused then
    { group := rejoin pauses
      paused := true
      hasLogic := chains.any (·.kind == .logic)
      dirty := pauses.any (·.dirty) }
  else
    let outcomes := mainPass pauses
    let logic := outcomes.filter (·.chain.kind == .logic)
    let triggers (outcome : ChainOutcome) : Bool :=
      outcome.chain.terminal.role == .check .trigger
    let resetRequested := outcomes.any fun outcome =>
      outcome.chain.kind == .reset && outcome.satisfied
    { group := rejoin outcomes
      result := logic.all (·.satisfied) && !resetRequested
      primed := logic.all (fun outcome => triggers outcome || outcome.satisfied) && !resetRequested
      hasLogic := !logic.isEmpty
      hasTrigger := logic.any triggers
      resetRequested
      dirty := outcomes.any (·.dirty)
      measured? := measuredOf logic }

end Group

end AchievementLogic
