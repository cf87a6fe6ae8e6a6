import AchievementLogic.Proofs.Trigger.Evaluation

/-!
# What a frame makes of the chains of a group

Conditions fall into chains in one way only, and evaluation keeps to it: each chain of a group is
either evaluated as a whole or left idle, and the conditions after the last chain are not looked at.
Pauses are evaluated up to the first satisfied one; without a satisfied pause every chain is
evaluated, each for itself.
-/

namespace AchievementLogic

/-! ## Conditions and their chains -/

theorem Condition.role_clearHits (condition : Condition) :
    condition.clearHits.role = condition.role := rfl

theorem Condition.role_fresh (condition : Condition) : condition.fresh.role = condition.role := rfl

namespace Chain

theorem isSome_ofRole? (role : Role) : (ChainKind.ofRole? role).isSome = role.isTerminal := by
  cases role with
  | guard kind => cases kind <;> rfl
  | _ => rfl

theorem ofRole?_eq_none_iff (role : Role) :
    ChainKind.ofRole? role = none ↔ role.isTerminal = false := by
  rw [← isSome_ofRole?, Option.isSome_eq_false_iff, Option.isNone_iff_eq_none]

/-- A chain as conditions fall into it: its terminal ends a chain of this kind, and none of its links
ends a chain. -/
structure IsProper (chain : Chain) : Prop where
  links : ∀ condition ∈ chain.links, condition.role.isTerminal = false
  terminal : ChainKind.ofRole? chain.terminal.role = some chain.kind

theorem IsProper.isModifier_terminal {chain : Chain} (hproper : chain.IsProper) :
    chain.terminal.role.isModifier = false := by
  have hends := hproper.terminal
  cases hrole : chain.terminal.role with
  | modifier kind => rw [hrole] at hends; cases hends
  | _ => rfl

theorem split_of_loose {conditions : List Condition}
    (hnone : ∀ condition ∈ conditions, condition.role.isTerminal = false) :
    split conditions = ([], conditions) := by
  induction conditions with
  | nil => rfl
  | cons head tail ih =>
      obtain ⟨hhead, htail⟩ := List.forall_mem_cons.mp hnone
      simp only [split, ih htail, (ofRole?_eq_none_iff head.role).mpr hhead]

/-- A proper chain is split off whole from whatever follows it. -/
theorem IsProper.split_append {chain : Chain} (hproper : chain.IsProper)
    (rest : List Condition) :
    split (chain.conditions ++ rest) = (chain :: (split rest).1, (split rest).2) := by
  obtain ⟨links, kind, terminal⟩ := chain
  obtain ⟨hlinks, hterminal⟩ := hproper
  simp only at hlinks hterminal
  induction links with
  | nil => simp only [conditions, List.nil_append, List.cons_append, split, hterminal]
  | cons head tail ih =>
      obtain ⟨hhead, htail⟩ := List.forall_mem_cons.mp hlinks
      have hconditions : conditions ⟨head :: tail, kind, terminal⟩ ++ rest =
          head :: (conditions ⟨tail, kind, terminal⟩ ++ rest) := rfl
      simp only [hconditions, split, ih htail, (ofRole?_eq_none_iff head.role).mpr hhead]

theorem join_cons (head : Chain) (tail : List Chain) (loose : List Condition) :
    join (head :: tail) loose = head.conditions ++ join tail loose := by
  simp [join]

/-- Chains that are joined fall apart as they were. -/
theorem split_join {chains : List Chain} {loose : List Condition}
    (hproper : ∀ chain ∈ chains, chain.IsProper)
    (hloose : ∀ condition ∈ loose, condition.role.isTerminal = false) :
    split (join chains loose) = (chains, loose) := by
  induction chains with
  | nil => exact split_of_loose hloose
  | cons head tail ih =>
      obtain ⟨hhead, htail⟩ := List.forall_mem_cons.mp hproper
      rw [join_cons, hhead.split_append, ih htail]

/-- Splitting conditions gives proper chains and leaves no terminal over. -/
theorem isProper_split (conditions : List Condition) :
    (∀ chain ∈ (split conditions).1, chain.IsProper) ∧
      ∀ condition ∈ (split conditions).2, condition.role.isTerminal = false := by
  induction conditions with
  | nil => simp [split]
  | cons head tail ih =>
      obtain ⟨hchains, hloose⟩ := ih
      simp only [split]
      split
      case h_1 _ kind hkind =>
        have halone : IsProper ⟨[], kind, head⟩ := ⟨by simp, hkind⟩
        exact ⟨List.forall_mem_cons.mpr ⟨halone, hchains⟩, hloose⟩
      case h_2 hnone _ =>
        rw [ofRole?_eq_none_iff] at hnone
        exact ⟨by simp, List.forall_mem_cons.mpr ⟨hnone, hloose⟩⟩
      case h_3 first others hnone hsplit =>
        rw [ofRole?_eq_none_iff] at hnone
        rw [hsplit] at hchains
        obtain ⟨hfirst, hothers⟩ := List.forall_mem_cons.mp hchains
        have hlonger : IsProper { first with links := head :: first.links } :=
          ⟨List.forall_mem_cons.mpr ⟨hnone, hfirst.links⟩, hfirst.terminal⟩
        exact ⟨List.forall_mem_cons.mpr ⟨hlonger, hothers⟩, hloose⟩

theorem isProper_map {change : Condition → Condition}
    (hrole : ∀ condition, (change condition).role = condition.role) (chain : Chain) :
    (chain.map change).IsProper ↔ chain.IsProper := by
  constructor
  · rintro ⟨hlinks, hterminal⟩
    refine ⟨?_, by rwa [Chain.map, hrole] at hterminal⟩
    intro condition hmem
    rw [← hrole condition]
    exact hlinks _ (List.mem_map_of_mem hmem)
  · rintro ⟨hlinks, hterminal⟩
    refine ⟨List.forall_mem_map.mpr fun condition hmem => ?_, by rwa [Chain.map, hrole]⟩
    rw [hrole]
    exact hlinks condition hmem

/-- Whether conditions form chains is decided by their roles, and by nothing that a change leaves out
which keeps the roles. -/
theorem isProper_of_map_eq {change : Condition → Condition}
    (hrole : ∀ condition, (change condition).role = condition.role) {left right : List Chain}
    (hright : ∀ chain ∈ right, chain.IsProper)
    (hsame : left.map (Chain.map change) = right.map (Chain.map change)) :
    ∀ chain ∈ left, chain.IsProper := by
  intro chain hchain
  have hchanged : chain.map change ∈ right.map (Chain.map change) := by
    rw [← hsame]
    exact List.mem_map_of_mem hchain
  obtain ⟨other, hother, heq⟩ := List.mem_map.mp hchanged
  rw [← isProper_map hrole, ← heq, isProper_map hrole]
  exact hright other hother

end Chain

/-! ## Satisfied chains -/

theorem Condition.toNat_hits_countHit {condition : Condition}
    (hopen : condition.hits < condition.requiredHits) :
    condition.countHit.hits.toNat = condition.hits.toNat + 1 := by
  have hbound := condition.requiredHits.toNat_lt
  have hlt := UInt32.lt_iff_toNat_lt.mp hopen
  have hmore : condition.hits ≠ 0xFFFFFFFF := by
    intro hlast
    have hlargest : condition.hits.toNat = 4294967295 := by rw [hlast]; rfl
    omega
  simp only [countHit, if_neg hmore, UInt32.toNat_add, UInt32.toNat_one]
  omega

theorem Condition.isComplete_eq (condition : Condition) (htarget : condition.hasTarget = true) :
    condition.isComplete = decide (condition.requiredHits ≤ condition.hits) := by
  rw [isComplete, htarget, Bool.true_and]

namespace Encounter

theorem satisfied_endOpen (encounter : Encounter) :
    encounter.endOpen.satisfied = encounter.held := by
  unfold endOpen
  by_cases hpause : encounter.condition.role = .guard .pauseIf
  · simp only [hpause, if_true]
  · cases hheld : encounter.held <;> simp [hpause]

/-- The tally may make up for missing hits, and a hit counts as long as they are missing. -/
theorem satisfied_endTargeted (encounter : Encounter) (tally : Int)
    (htarget : encounter.condition.hasTarget = true) :
    (encounter.endTargeted tally).satisfied = true ↔
      (encounter.condition.requiredHits.toNat : Int) ≤
        encounter.condition.hits.toNat +
          (if encounter.held = true ∧ encounter.condition.hits < encounter.condition.requiredHits
            then 1 else 0) + tally := by
  have hcomplete := encounter.condition.isComplete_eq htarget
  by_cases hcan : encounter.held = true ∧
      encounter.condition.hits < encounter.condition.requiredHits
  · obtain ⟨hheld, hopen⟩ := hcan
    have hincomplete : encounter.condition.isComplete = false := by
      rw [hcomplete, decide_eq_false_iff_not]
      exact UInt32.not_le.mpr hopen
    have hcounted := Condition.toNat_hits_countHit hopen
    simp only [endTargeted, hheld, hincomplete, hopen, and_self, if_true, Bool.not_false,
      Bool.true_and, decide_eq_true_eq]
    split <;> omega
  · have hidle : (encounter.held && !encounter.condition.isComplete) = false := by
      rw [hcomplete]
      simpa using hcan
    simp only [endTargeted, hidle, hcan, if_false, Bool.false_and, Bool.false_eq_true,
      decide_eq_true_eq, Int.add_zero]

end Encounter

namespace Chain

/-- What the links pass on to the terminal. -/
def passed (chain : Chain) : Carry := (({} : Carry).links chain.links).carry

/-- Whether the terminal holds, joined with what its links found. -/
def holds (chain : Chain) : Bool := (chain.passed.meet chain.terminal).held

/-- The hits with which the terminal goes into the frame: none if a link clears them. -/
def hitsBefore (chain : Chain) : UInt32 :=
  if chain.passed.resetNext then 0 else chain.terminal.hits

/-- A chain without a hit target is satisfied where its terminal holds.  One with a hit target is
satisfied if its hits and the tally come to the target; the hit of this frame is included, and is
there if the terminal holds and its own hits have not reached the target before. -/
def Satisfied (chain : Chain) : Prop :=
  let target := chain.terminal.requiredHits
  let hit : Int := if chain.holds = true ∧ chain.hitsBefore < target then 1 else 0
  if target = 0 then chain.holds = true
  else (target.toNat : Int) ≤ chain.hitsBefore.toNat + hit + chain.passed.tally

/-- Evaluating a chain finds out whether it is satisfied, for terminals with a target and for those
without. -/
theorem satisfied_evaluate (chain : Chain) :
    chain.evaluate.satisfied = true ↔ chain.Satisfied := by
  have hsame := chain.passed.clearHits_meet chain.terminal
  have hrequired : (chain.passed.meet chain.terminal).condition.requiredHits =
      chain.terminal.requiredHits := Condition.requiredHits_eq_of_clearHits_eq hsame
  have hhits : (chain.passed.meet chain.terminal).condition.hits = chain.hitsBefore := by
    simp only [Carry.meet, hitsBefore]
    split <;> rfl
  have hevaluate : chain.evaluate.satisfied =
      (if (chain.passed.meet chain.terminal).condition.hasTarget then
        (chain.passed.meet chain.terminal).endTargeted chain.passed.tally
      else (chain.passed.meet chain.terminal).endOpen).satisfied := rfl
  have hholds : (chain.passed.meet chain.terminal).held = chain.holds := rfl
  rw [hevaluate, Satisfied]
  split
  case isTrue htarget =>
    have hsome : chain.terminal.requiredHits ≠ 0 := by
      rw [← hrequired]
      exact bne_iff_ne.mp htarget
    rw [Encounter.satisfied_endTargeted _ _ htarget, hrequired, hhits, hholds]
    simp only [hsome, if_false]
  case isFalse hnone =>
    have hzero : chain.terminal.requiredHits = 0 := by
      rw [← hrequired]
      simpa [Condition.hasTarget] using hnone
    rw [Encounter.satisfied_endOpen, hholds]
    simp only [hzero, if_true]

instance (chain : Chain) : Decidable chain.Satisfied := decidable_of_iff _ chain.satisfied_evaluate

end Chain

/-! ## Groups -/

/-- Whether the chain pauses its group. -/
def Chain.pausesGroup (chain : Chain) : Bool := chain.kind == .pause && chain.evaluate.satisfied

@[simp]
theorem Chain.kind_evaluate (chain : Chain) : chain.evaluate.chain.kind = chain.kind := rfl

theorem Chain.role_terminal_evaluate (chain : Chain) :
    chain.evaluate.chain.terminal.role = chain.terminal.role :=
  Condition.role_eq_of_clearHits_eq (congrArg Chain.terminal chain.clearHits_evaluate)

theorem Chain.pausesGroup_iff (chain : Chain) :
    chain.pausesGroup = true ↔ chain.kind = .pause ∧ chain.Satisfied := by
  rw [pausesGroup, Bool.and_eq_true, beq_iff_eq, satisfied_evaluate]

namespace Group

def chains (group : Group) : List Chain := (Chain.split group.conditions).1

def loose (group : Group) : List Condition := (Chain.split group.conditions).2

theorem join_chains (group : Group) : Chain.join group.chains group.loose = group.conditions :=
  Chain.join_split group.conditions

theorem isProper_chains (group : Group) : ∀ chain ∈ group.chains, chain.IsProper :=
  (Chain.isProper_split group.conditions).1

theorem isTerminal_loose (group : Group) :
    ∀ condition ∈ group.loose, condition.role.isTerminal = false :=
  (Chain.isProper_split group.conditions).2

theorem mem_conditions_of_mem_chains {group : Group} {chain : Chain} {condition : Condition}
    (hchain : chain ∈ group.chains) (hcondition : condition ∈ chain.conditions) :
    condition ∈ group.conditions := by
  rw [← group.join_chains]
  exact List.mem_append_left _ (List.mem_flatMap.mpr ⟨chain, hchain, hcondition⟩)

theorem pausePass_cons (head : Chain) (tail : List Chain) :
    pausePass (head :: tail) =
      ((if head.kind = .pause then head.evaluate else head.idle) ::
          (if head.pausesGroup then tail.map Chain.idle else (pausePass tail).1),
        head.pausesGroup || (pausePass tail).2) := by
  by_cases hpause : head.kind = .pause
  · cases hsatisfied : head.evaluate.satisfied <;>
      simp [pausePass, Chain.pausesGroup, hpause, hsatisfied]
  · simp [pausePass, Chain.pausesGroup, hpause]

theorem snd_pausePass (chains : List Chain) : (pausePass chains).2 = chains.any Chain.pausesGroup := by
  induction chains with
  | nil => rfl
  | cons head tail ih => rw [pausePass_cons, ih, List.any_cons]

/-- Pauses are evaluated until one of them is satisfied, and nothing else is. -/
theorem getElem?_pausePass (chains : List Chain) (place : Nat) :
    (pausePass chains).1[place]? = chains[place]?.map fun chain =>
      if chain.kind == .pause && !(chains.take place).any Chain.pausesGroup then chain.evaluate
      else chain.idle := by
  induction chains generalizing place with
  | nil => rfl
  | cons head tail ih =>
      rw [pausePass_cons]
      cases place with
      | zero => simp
      | succ place =>
          rw [List.getElem?_cons_succ, List.getElem?_cons_succ, List.take_succ_cons]
          by_cases hhead : head.pausesGroup = true
          · simp [hhead]
          · simp [hhead, ih]

theorem mem_pausePass {chains : List Chain} {outcome : ChainOutcome}
    (hmem : outcome ∈ (pausePass chains).1) :
    ∃ chain ∈ chains, (chain.kind = .pause ∧ outcome = chain.evaluate) ∨ outcome = chain.idle := by
  obtain ⟨place, hplace⟩ := List.mem_iff_getElem?.mp hmem
  rw [getElem?_pausePass] at hplace
  obtain ⟨chain, hchain, houtcome⟩ := Option.map_eq_some_iff.mp hplace
  refine ⟨chain, List.mem_of_getElem? hchain, ?_⟩
  split at houtcome
  case isTrue hevaluated =>
    rw [Bool.and_eq_true, beq_iff_eq] at hevaluated
    exact .inl ⟨hevaluated.1, houtcome.symm⟩
  case isFalse => exact .inr houtcome.symm

/-- Without a satisfied pause every chain is evaluated. -/
theorem mainPass_pausePass {chains : List Chain} (hnone : chains.any Chain.pausesGroup = false) :
    mainPass (pausePass chains).1 = chains.map Chain.evaluate := by
  induction chains with
  | nil => rfl
  | cons head tail ih =>
      obtain ⟨hhead, htail⟩ := Bool.or_eq_false_iff.mp (List.any_cons ▸ hnone)
      have hrest := ih htail
      rw [mainPass] at hrest
      rw [pausePass_cons, hhead, mainPass, List.map_cons, List.map_cons]
      by_cases hpause : head.kind = .pause
      · simp [hpause, hrest]
      · simp [hpause, hrest, Chain.idle]

/-- A paused group only says that it is paused and whether it has logic. -/
theorem evaluate_of_paused {group : Group} (hpaused : group.chains.any Chain.pausesGroup = true) :
    group.evaluate =
      { group := ⟨Chain.join ((pausePass group.chains).1.map (·.chain)) group.loose⟩
        paused := true
        hasLogic := group.chains.any (·.kind == .logic)
        dirty := (pausePass group.chains).1.any (·.dirty) } := by
  have hpass := snd_pausePass group.chains
  rw [hpaused] at hpass
  simp only [evaluate, chains, loose] at hpass ⊢
  rw [if_pos hpass]

/-- The outcome of a group that is not paused is that of all its chains. -/
theorem evaluate_of_not_paused {group : Group}
    (hrunning : group.chains.any Chain.pausesGroup = false) :
    group.evaluate =
      let outcomes := group.chains.map Chain.evaluate
      let logic := outcomes.filter (·.chain.kind == .logic)
      let triggers (outcome : ChainOutcome) : Bool :=
        outcome.chain.terminal.role == .check .trigger
      let resetRequested := outcomes.any fun outcome =>
        outcome.chain.kind == .reset && outcome.satisfied
      { group := ⟨Chain.join (outcomes.map (·.chain)) group.loose⟩
        result := logic.all (·.satisfied) && !resetRequested
        primed := logic.all (fun outcome => triggers outcome || outcome.satisfied) &&
          !resetRequested
        hasLogic := !logic.isEmpty
        hasTrigger := logic.any triggers
        resetRequested
        dirty := outcomes.any (·.dirty)
        measured? := measuredOf logic } := by
  have hpass := snd_pausePass group.chains
  rw [hrunning] at hpass
  have hmain := mainPass_pausePass hrunning
  simp only [evaluate, chains, loose] at hpass hmain ⊢
  rw [hmain, if_neg (by simp [hpass])]

theorem paused_evaluate (group : Group) :
    group.evaluate.paused = group.chains.any Chain.pausesGroup := by
  cases hpaused : group.chains.any Chain.pausesGroup with
  | true => rw [evaluate_of_paused hpaused]
  | false => rw [evaluate_of_not_paused hpaused]

/-- The chains after a frame are those before it, each of them evaluated or left idle. -/
theorem split_evaluate (group : Group) :
    Chain.split group.evaluate.group.conditions =
      (if group.chains.any Chain.pausesGroup then (pausePass group.chains).1.map (·.chain)
        else group.chains.map (·.evaluate.chain), group.loose) := by
  have hrejoin (after : List Chain) (hsame : after.map (Chain.map Condition.clearHits) =
      group.chains.map (Chain.map Condition.clearHits)) :
      Chain.split (Chain.join after group.loose) = (after, group.loose) :=
    Chain.split_join
      (Chain.isProper_of_map_eq Condition.role_clearHits group.isProper_chains hsame)
      group.isTerminal_loose
  cases hpaused : group.chains.any Chain.pausesGroup with
  | true =>
      rw [evaluate_of_paused hpaused, if_pos rfl]
      apply hrejoin
      rw [List.map_map]
      exact map_clearHits_pausePass group.chains
  | false =>
      rw [evaluate_of_not_paused hpaused, if_neg Bool.false_ne_true]
      simp only [List.map_map]
      apply hrejoin
      rw [List.map_map]
      apply List.map_congr_left
      intro chain _
      exact chain.clearHits_evaluate

theorem chains_evaluate (group : Group) :
    group.evaluate.group.chains =
      if group.chains.any Chain.pausesGroup then (pausePass group.chains).1.map (·.chain)
      else group.chains.map (·.evaluate.chain) := by
  rw [chains, split_evaluate]

theorem loose_evaluate (group : Group) : group.evaluate.group.loose = group.loose := by
  rw [loose, split_evaluate]

/-! ## Moving to a new frame -/

/-- What these conditions add to the addresses of the condition after them. -/
def shiftAfter (frame : Frame) (offset : UInt32) : List Condition → UInt32
  | [] => offset
  | head :: tail =>
    let advanced := head.advance frame offset
    let next := if head.role = .modifier .addAddress then advanced.source.value.toWord else 0
    shiftAfter frame next tail

theorem advanceFrom_append (frame : Frame) (offset : UInt32) (first later : List Condition) :
    advanceFrom frame offset (first ++ later) =
      advanceFrom frame offset first ++
        advanceFrom frame (shiftAfter frame offset first) later := by
  induction first generalizing offset with
  | nil => rfl
  | cons head tail ih =>
      rw [List.cons_append, advanceFrom, ih, advanceFrom, List.cons_append, shiftAfter]

theorem shiftAfter_append (frame : Frame) (offset : UInt32) (first later : List Condition) :
    shiftAfter frame offset (first ++ later) =
      shiftAfter frame (shiftAfter frame offset first) later := by
  induction first generalizing offset with
  | nil => rfl
  | cons head tail ih => exact ih _

/-- A condition that adds no address leaves the next one where it is. -/
theorem shiftAfter_concat (frame : Frame) (offset : UInt32) (first : List Condition)
    {last : Condition} (hlast : last.role ≠ .modifier .addAddress) :
    shiftAfter frame offset (first ++ [last]) = 0 := by
  induction first generalizing offset with
  | nil => simp only [List.nil_append, shiftAfter, if_neg hlast]
  | cons head tail ih => rw [List.cons_append, shiftAfter, ih]

/-- Conditions that add no address move each for itself. -/
theorem advanceFrom_eq_map (frame : Frame) {conditions : List Condition}
    (hnone : ∀ condition ∈ conditions, condition.role ≠ .modifier .addAddress) :
    advanceFrom frame 0 conditions = conditions.map (·.advance frame 0) := by
  induction conditions with
  | nil => rfl
  | cons head tail ih =>
      obtain ⟨hhead, htail⟩ := List.forall_mem_cons.mp hnone
      rw [advanceFrom, List.map_cons, if_neg hhead, ih htail]

theorem map_role_advanceFrom (frame : Frame) (offset : UInt32) (conditions : List Condition) :
    (advanceFrom frame offset conditions).map (·.role) = conditions.map (·.role) := by
  have hfresh := congrArg (List.map (·.role)) (map_fresh_advanceFrom frame offset conditions)
  simp only [List.map_map] at hfresh
  exact hfresh

end Group

namespace Chain

/-- Moves the conditions of a chain to a new frame.  No address is added to those of the first. -/
def advance (frame : Frame) (chain : Chain) : Chain :=
  { chain with
    links := Group.advanceFrom frame 0 chain.links
    terminal := chain.terminal.advance frame (Group.shiftAfter frame 0 chain.links) }

theorem map_fresh_advance (frame : Frame) (chain : Chain) :
    (chain.advance frame).map Condition.fresh = chain.map Condition.fresh := by
  simp only [Chain.map, advance, Group.map_fresh_advanceFrom, Condition.fresh_advance]

theorem conditions_advance (frame : Frame) (chain : Chain) :
    (chain.advance frame).conditions = Group.advanceFrom frame 0 chain.conditions := by
  rw [conditions, conditions, Group.advanceFrom_append]
  rfl

/-- Nothing is added to addresses across the end of a chain. -/
theorem IsProper.shiftAfter_conditions {chain : Chain} (hproper : chain.IsProper)
    (frame : Frame) : Group.shiftAfter frame 0 chain.conditions = 0 := by
  apply Group.shiftAfter_concat
  intro hrole
  have hterminal := hproper.terminal
  rw [hrole] at hterminal
  cases hterminal

theorem advanceFrom_join {chains : List Chain} (hproper : ∀ chain ∈ chains, chain.IsProper)
    (frame : Frame) (loose : List Condition) :
    Group.advanceFrom frame 0 (join chains loose) =
      join (chains.map (advance frame)) (Group.advanceFrom frame 0 loose) := by
  induction chains with
  | nil => rfl
  | cons head tail ih =>
      obtain ⟨hhead, htail⟩ := List.forall_mem_cons.mp hproper
      rw [join_cons, Group.advanceFrom_append, hhead.shiftAfter_conditions, ih htail,
        List.map_cons, join_cons, conditions_advance]

end Chain

namespace Group

/-- Chains move to a new frame each for itself, and so do the conditions after them. -/
theorem split_advance (group : Group) (frame : Frame) :
    Chain.split (group.advance frame).conditions =
      (group.chains.map (Chain.advance frame), advanceFrom frame 0 group.loose) := by
  have hproper : ∀ chain ∈ group.chains.map (Chain.advance frame), chain.IsProper := by
    apply Chain.isProper_of_map_eq Condition.role_fresh group.isProper_chains
    rw [List.map_map]
    exact List.map_congr_left fun chain _ => chain.map_fresh_advance frame
  have hloose : ∀ condition ∈ advanceFrom frame 0 group.loose,
      condition.role.isTerminal = false := by
    have hroles : ∀ role ∈ group.loose.map (·.role), role.isTerminal = false :=
      List.forall_mem_map.mpr group.isTerminal_loose
    rw [← map_role_advanceFrom frame 0] at hroles
    exact List.forall_mem_map.mp hroles
  rw [advance, ← group.join_chains, Chain.advanceFrom_join group.isProper_chains]
  exact Chain.split_join hproper hloose

theorem chains_advance (group : Group) (frame : Frame) :
    (group.advance frame).chains = group.chains.map (Chain.advance frame) := by
  rw [chains, split_advance]

theorem loose_advance (group : Group) (frame : Frame) :
    (group.advance frame).loose = advanceFrom frame 0 group.loose := by
  rw [loose, split_advance]

/-! ## Clearing hits -/

theorem chains_clearHits (group : Group) :
    group.clearHits.chains = group.chains.map (Chain.map Condition.clearHits) := by
  rw [chains, clearHits, Chain.split_map Condition.role_clearHits]
  rfl

theorem loose_clearHits (group : Group) :
    group.clearHits.loose = group.loose.map Condition.clearHits := by
  rw [loose, clearHits, Chain.split_map Condition.role_clearHits]
  rfl

end Group

end AchievementLogic
