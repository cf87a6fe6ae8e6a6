import AchievementLogic.Trigger.Condition

/-!
# Chains of conditions

A group of conditions falls into chains: some links, which prepare what follows them, and the
terminal condition that ends the chain and decides what the chain is for.  Conditions after the
last terminal belong to no chain, and joining the parts gives the group back.  A chain is evaluated
from left to right, each link passing on what it collected.
-/

namespace AchievementLogic

/-- What a chain is for, as its terminal says. -/
inductive ChainKind
  | pause
  | reset
  | logic
deriving DecidableEq, Repr

/-- The kind of the chains that end in a condition of this role, if any do. -/
def ChainKind.ofRole? : Role → Option ChainKind
  | .guard .pauseIf => some pause
  | .guard .resetIf => some reset
  | .check _ => some logic
  | _ => none

structure Chain where
  links : List Condition
  kind : ChainKind
  terminal : Condition

/-- Progress toward a target, as measured conditions report it. -/
structure Measured where
  value : UInt32
  target : UInt32
deriving DecidableEq, Repr

namespace Chain

def conditions (chain : Chain) : List Condition := chain.links ++ [chain.terminal]

/-- Splits conditions into their chains and the conditions after the last terminal. -/
def split : List Condition → List Chain × List Condition
  | [] => ([], [])
  | head :: tail =>
    let (chains, loose) := split tail
    match ChainKind.ofRole? head.role, chains with
    | some kind, _ => (⟨[], kind, head⟩ :: chains, loose)
    | none, [] => ([], head :: loose)
    | none, chain :: others => ({ chain with links := head :: chain.links } :: others, loose)

/-- The conditions that were split, in order. -/
def join (chains : List Chain) (loose : List Condition) : List Condition :=
  chains.flatMap conditions ++ loose

/-- Splitting loses no condition and keeps their order. -/
theorem join_split (conditions : List Condition) :
    join (split conditions).1 (split conditions).2 = conditions := by
  induction conditions with
  | nil => rfl
  | cons head tail ih =>
    unfold split
    split
    split <;> simp_all [join, Chain.conditions]

end Chain

/-- What the conditions of a chain pass on to the next one. -/
structure Carry where
  /-- Collected for the source of the next condition. -/
  accumulated : Value := .word 0
  /-- Hits to count with those of the terminal. -/
  tally : Int := 0
  /-- The truth to join with that of the next condition. -/
  combined? : Option (Combiner × Bool) := none
  /-- Whether the next condition loses its hits. -/
  resetNext : Bool := false

def Combiner.join : Combiner → Bool → Bool → Bool
  | andNext, previous, held => previous && held
  | orNext, previous, held => previous || held

/-- A condition that was looked at in its chain. -/
structure Encounter where
  /-- The condition, without hits if they were to be cleared. -/
  condition : Condition
  /-- Whether it held, joined with what came before. -/
  held : Bool
  /-- The value that was compared. -/
  compared : Value
  /-- Whether hits changed. -/
  dirty : Bool

/-- Looks at a condition with what was passed on to it. -/
def Carry.meet (carry : Carry) (condition : Condition) : Encounter :=
  let own := condition.compare carry.accumulated
  { condition := if carry.resetNext then condition.clearHits else condition
    held := match carry.combined? with
      | some (combiner, previous) => combiner.join previous own
      | none => own
    compared := condition.sourceValue carry.accumulated
    dirty := carry.resetNext && condition.hits != 0 }

/-- The outcome of one link: the condition after it, what it passes on, and whether hits changed. -/
structure LinkOutcome where
  condition : Condition
  carry : Carry
  dirty : Bool

/-- Evaluates a link.  A modifier only collects; any other link counts a hit if it held, and its
truth is that of its hit target if it has one. -/
def Carry.link (carry : Carry) (condition : Condition) : LinkOutcome :=
  match condition.role with
  | .modifier .addSource =>
    ⟨condition, { carry with accumulated := condition.sourceValue carry.accumulated }, false⟩
  | .modifier .subSource =>
    ⟨condition, { carry with accumulated := carry.accumulated - condition.source.value }, false⟩
  | .modifier .addAddress => ⟨condition, carry, false⟩
  | role =>
    let encounter := carry.meet condition
    let counted := encounter.condition.countIf encounter.held
    let truth := if counted.hasTarget then counted.isComplete else encounter.held
    let passed : Carry := { tally := carry.tally }
    { condition := counted
      carry := match role with
        | .tally .addHits => { passed with tally := carry.tally + counted.hits.toNat }
        | .tally .subHits => { passed with tally := carry.tally - counted.hits.toNat }
        | .combiner combiner => { passed with combined? := some (combiner, truth) }
        | .resetNextIf => { passed with resetNext := truth }
        | _ => passed
      dirty := encounter.dirty || (encounter.held && !encounter.condition.isComplete) }

structure LinksOutcome where
  conditions : List Condition
  carry : Carry
  dirty : Bool

def Carry.links (carry : Carry) : List Condition → LinksOutcome
  | [] => ⟨[], carry, false⟩
  | head :: tail =>
    let first := carry.link head
    let others := first.carry.links tail
    ⟨first.condition :: others.conditions, others.carry, first.dirty || others.dirty⟩

structure TerminalOutcome where
  condition : Condition
  satisfied : Bool
  dirty : Bool

/-- Evaluates a terminal without a hit target: it counts every frame on which it holds.  A pause
only remembers whether it holds now. -/
def Encounter.endOpen (encounter : Encounter) : TerminalOutcome :=
  let condition := encounter.condition
  if condition.role = .guard .pauseIf then
    let hits : UInt32 := if encounter.held then 1 else 0
    ⟨condition.withHits hits, encounter.held, condition.hits != hits⟩
  else if encounter.held then ⟨condition.countHit, true, true⟩
  else ⟨condition, false, false⟩

/-- Evaluates a terminal with a hit target: its hits and the tally together have to reach it, and
it counts no further hit once they do. -/
def Encounter.endTargeted (encounter : Encounter) (tally : Int) : TerminalOutcome :=
  let condition := encounter.condition
  let required : Int := condition.requiredHits.toNat
  let counts := encounter.held && !condition.isComplete && condition.hits.toNat + tally < required
  let counted := if counts then condition.countHit else condition
  ⟨counted, required ≤ counted.hits.toNat + tally, counts⟩

/-- The progress that a measured terminal reports: its hits and the tally against its hit target,
or the compared values where it has none. -/
def Encounter.measured? (encounter : Encounter) (tally : Int) (after : Condition) :
    Option Measured :=
  if after.role.isMeasured then
    some <|
      if after.hasTarget then ⟨UInt32.ofNat (after.hits.toNat + tally).toNat, after.requiredHits⟩
      else ⟨encounter.compared.toWord, after.target.value.toWord⟩
  else none

structure ChainOutcome where
  chain : Chain
  satisfied : Bool
  measured? : Option Measured
  /-- Whether the chain changed any hits, or is a pause that holds. -/
  dirty : Bool

def Chain.evaluate (chain : Chain) : ChainOutcome :=
  let links := ({} : Carry).links chain.links
  let encounter := links.carry.meet chain.terminal
  let terminal := if encounter.condition.hasTarget then encounter.endTargeted links.carry.tally
    else encounter.endOpen
  { chain := { chain with links := links.conditions, terminal := terminal.condition }
    satisfied := terminal.satisfied
    measured? := encounter.measured? links.carry.tally terminal.condition
    dirty := links.dirty || encounter.dirty || terminal.dirty ||
      (chain.kind == .pause && encounter.held) }

/-- A chain that is not evaluated on a frame. -/
def Chain.idle (chain : Chain) : ChainOutcome := ⟨chain, false, none, false⟩

end AchievementLogic
