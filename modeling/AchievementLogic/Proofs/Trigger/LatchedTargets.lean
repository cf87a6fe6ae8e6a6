import AchievementLogic.Proofs.Trigger.HitGrowth

/-!
# Targets that stay reached

A chain counts toward the target of its terminal the hits of the terminal and those of the links that
add theirs.  If no link clears hits or counts against the target, a frame takes nothing from that
count, whether the chain is evaluated on it or skipped.  So once the chain was satisfied it stays so
until a reset: no later frame has to make the terminal hold again.
-/

namespace AchievementLogic

namespace Chain

/-- The hits that count toward the target of the terminal. -/
def counted (chain : Chain) : Int :=
  chain.terminal.hits.toNat + (chain.links.map Condition.tallied).sum

/-- A chain with a target that no link of it works against. -/
structure Accumulates (chain : Chain) : Prop where
  links : ∀ link ∈ chain.links, link.role ≠ .resetNextIf ∧ link.role ≠ .tally .subHits
  target : chain.terminal.requiredHits ≠ 0

/-- The hits that were counted so far come to the target. -/
structure HasReached (chain : Chain) : Prop extends chain.Accumulates where
  reached : (chain.terminal.requiredHits.toNat : Int) ≤ chain.counted

end Chain

/-! ## What a frame adds -/

theorem Condition.tallied_le_tallied {condition after : Condition}
    (hrole : after.role = condition.role) (hsub : condition.role ≠ .tally .subHits)
    (hhits : condition.hits ≤ after.hits) : condition.tallied ≤ after.tallied := by
  rw [tallied, tallied, hrole]
  split
  case h_1 => exact Int.ofNat_le.mpr (UInt32.le_iff_toNat_le.mp hhits)
  case h_2 hcase => exact absurd hcase hsub
  case h_3 => exact le_rfl

/-- Where no link takes hits away, the links together tally no less after a frame than before. -/
theorem Carry.sum_tallied_le (carry : Carry) {conditions : List Condition}
    (hcarry : carry.resetNext = false)
    (hroles : ∀ link ∈ conditions, link.role ≠ .resetNextIf ∧ link.role ≠ .tally .subHits) :
    (conditions.map Condition.tallied).sum ≤
        ((carry.links conditions).conditions.map Condition.tallied).sum ∧
      (carry.links conditions).carry.resetNext = false := by
  induction conditions generalizing carry with
  | nil => exact ⟨le_rfl, hcarry⟩
  | cons head tail ih =>
      obtain ⟨⟨hresets, hsub⟩, htail⟩ := List.forall_mem_cons.mp hroles
      have hnext : (carry.link head).carry.resetNext = false := by
        apply Bool.eq_false_iff.mpr
        intro hclears
        rcases resetNext_link hclears with hrole | ⟨-, hbefore⟩
        · exact hresets hrole
        · rw [hcarry] at hbefore
          cases hbefore
      have hrole := Condition.role_eq_of_clearHits_eq (carry.clearHits_link head)
      have hhead : head.tallied ≤ (carry.link head).condition.tallied :=
        Condition.tallied_le_tallied hrole hsub (hits_le_link fun _ => hcarry)
      obtain ⟨hsum, hlast⟩ := ih (carry.link head).carry hnext htail
      refine ⟨?_, hlast⟩
      rw [links, List.map_cons, List.map_cons, List.sum_cons, List.sum_cons]
      exact add_le_add hhead hsum

namespace Chain

/-- A chain with a target is satisfied if its hits, those of this frame included, come to it. -/
theorem satisfied_iff_counted {chain : Chain} (htarget : chain.terminal.requiredHits ≠ 0) :
    chain.Satisfied ↔
      (chain.terminal.requiredHits.toNat : Int) ≤ chain.evaluate.chain.counted := by
  have hrequired := Condition.requiredHits_eq_of_clearHits_eq
    (chain.passed.clearHits_meet chain.terminal)
  have htargeted : (chain.passed.meet chain.terminal).condition.hasTarget = true := by
    rw [Condition.hasTarget, hrequired]
    exact bne_iff_ne.mpr htarget
  have htally := Carry.tally_links {} chain.links
  have hpassed : (({} : Carry).links chain.links).carry = chain.passed := rfl
  rw [hpassed, Int.zero_add] at htally
  rw [← satisfied_evaluate]
  simp only [evaluate, counted, hpassed, htargeted, if_true, Encounter.endTargeted,
    decide_eq_true_eq, hrequired, ← htally]

theorem Accumulates.counted_le_evaluate {chain : Chain} (haccumulates : chain.Accumulates) :
    chain.counted ≤ chain.evaluate.chain.counted := by
  obtain ⟨hsum, hkept⟩ := Carry.sum_tallied_le {} rfl haccumulates.links
  have hterminal := hits_le_evaluate hkept fun _ => haccumulates.target
  exact add_le_add (Int.ofNat_le.mpr (UInt32.le_iff_toNat_le.mp hterminal)) hsum

/-- Whether a chain accumulates is said by its roles and its target. -/
theorem accumulates_map (change : Condition → Condition)
    (hrole : ∀ condition, (change condition).role = condition.role)
    (hrequired : ∀ condition, (change condition).requiredHits = condition.requiredHits)
    (chain : Chain) : (chain.map change).Accumulates ↔ chain.Accumulates := by
  constructor
  · rintro ⟨hlinks, htarget⟩
    refine ⟨fun link hmem => ?_, by rwa [Chain.map, hrequired] at htarget⟩
    rw [← hrole]
    exact hlinks _ (List.mem_map_of_mem hmem)
  · rintro ⟨hlinks, htarget⟩
    refine ⟨List.forall_mem_map.mpr fun link hmem => ?_, by rwa [Chain.map, hrequired]⟩
    rw [hrole]
    exact hlinks link hmem

theorem Accumulates.evaluate {chain : Chain} (haccumulates : chain.Accumulates) :
    chain.evaluate.chain.Accumulates := by
  have hmap (chain : Chain) :
      (chain.map Condition.clearHits).Accumulates ↔ chain.Accumulates :=
    accumulates_map Condition.clearHits (fun _ => rfl) (fun _ => rfl) chain
  rwa [← hmap, clearHits_evaluate, hmap]

theorem requiredHits_evaluate (chain : Chain) :
    chain.evaluate.chain.terminal.requiredHits = chain.terminal.requiredHits := by
  have hsame := congrArg Chain.terminal chain.clearHits_evaluate
  exact Condition.requiredHits_eq_of_clearHits_eq hsame

/-- On the frame on which it is satisfied the chain has counted enough. -/
theorem Accumulates.hasReached_evaluate {chain : Chain} (haccumulates : chain.Accumulates)
    (hsatisfied : chain.Satisfied) : chain.evaluate.chain.HasReached where
  toAccumulates := haccumulates.evaluate
  reached := by
    rw [requiredHits_evaluate]
    exact (satisfied_iff_counted haccumulates.target).mp hsatisfied

/-- What was counted before is enough, whatever holds on this frame. -/
theorem HasReached.satisfied {chain : Chain} (hreached : chain.HasReached) : chain.Satisfied :=
  (satisfied_iff_counted hreached.target).mpr
    (hreached.reached.trans hreached.toAccumulates.counted_le_evaluate)

theorem HasReached.evaluate {chain : Chain} (hreached : chain.HasReached) :
    chain.evaluate.chain.HasReached :=
  hreached.toAccumulates.hasReached_evaluate hreached.satisfied

theorem map_bare_advance (frame : Frame) (chain : Chain) :
    (chain.advance frame).map Condition.bare = chain.map Condition.bare := by
  simp only [Chain.map, advance, Group.map_bare_advanceFrom]
  rfl

/-- Reading memory neither adds to what is counted nor takes from it. -/
theorem HasReached.advance {chain : Chain} (hreached : chain.HasReached) (frame : Frame) :
    (chain.advance frame).HasReached := by
  have hbare (chain : Chain) : (chain.map Condition.bare).HasReached ↔ chain.HasReached := by
    have hmap : (chain.map Condition.bare).Accumulates ↔ chain.Accumulates :=
      accumulates_map Condition.bare (fun _ => rfl) (fun _ => rfl) chain
    have hcounted : (chain.map Condition.bare).counted = chain.counted := by
      simp only [counted, Chain.map, List.map_map]
      rfl
    constructor
    · rintro ⟨haccumulates, hle⟩
      exact ⟨hmap.mp haccumulates, hcounted ▸ hle⟩
    · rintro ⟨haccumulates, hle⟩
      exact ⟨hmap.mpr haccumulates, hcounted.symm ▸ hle⟩
  rwa [← hbare, map_bare_advance, hbare]

end Chain

/-! ## Runs -/

namespace Trigger

def chainAt? (trigger : Trigger) (number place : ℕ) : Option Chain :=
  trigger.groups[number]?.bind (·.chains[place]?)

/-- The chain at this place, defined like the given one, has reached its target. -/
def HasReachedAt (trigger : Trigger) (number place : ℕ) (definition : Chain) : Prop :=
  ∃ chain, trigger.chainAt? number place = some chain ∧
    chain.map Condition.fresh = definition.map Condition.fresh ∧ chain.HasReached

variable {trigger : Trigger} {number place : ℕ} {definition : Chain}

theorem HasReachedAt.advance (hreached : trigger.HasReachedAt number place definition)
    (frame : Frame) : (trigger.advance frame).HasReachedAt number place definition := by
  obtain ⟨chain, hchain, hdefinition, hcounted⟩ := hreached
  refine ⟨chain.advance frame, ?_, by rw [Chain.map_fresh_advance, hdefinition],
    hcounted.advance frame⟩
  obtain ⟨group, hgroup, hplace⟩ := Option.bind_eq_some_iff.mp hchain
  rw [chainAt?, groups_advance, List.getElem?_map, hgroup, Option.map_some, Option.bind_some,
    Group.chains_advance, List.getElem?_map, hplace, Option.map_some]

/-- Without a reset of all groups a frame evaluates a chain where it is or skips it. -/
theorem chainAt?_evaluate (hkept : trigger.evaluate.1.wasReset = false) {group : Group}
    {chain : Chain} (hgroup : trigger.groups[number]? = some group)
    (hchain : group.chains[place]? = some chain) :
    trigger.evaluate.2.chainAt? number place =
      some (if group.skips place chain.kind then chain else chain.evaluate.chain) := by
  rw [chainAt?, groups_evaluate, List.getElem?_map, hgroup, Option.map_some, Option.bind_some,
    hkept, if_neg Bool.false_ne_true, Group.chains_evaluate_eq_mapIdx, List.getElem?_mapIdx, hchain,
    Option.map_some]

theorem HasReachedAt.evaluate (hreached : trigger.HasReachedAt number place definition)
    (hkept : trigger.evaluate.1.wasReset = false) :
    trigger.evaluate.2.HasReachedAt number place definition := by
  obtain ⟨chain, hchain, hdefinition, hcounted⟩ := hreached
  obtain ⟨group, hgroup, hplace⟩ := Option.bind_eq_some_iff.mp hchain
  refine ⟨_, chainAt?_evaluate hkept hgroup hplace, ?_⟩
  split
  · exact ⟨hdefinition, hcounted⟩
  · exact ⟨by rw [Chain.map_fresh_evaluate, hdefinition], hcounted.evaluate⟩

/-- A target that was reached stays reached as long as no frame of the run resets. -/
theorem HasReachedAt.after (hreached : trigger.HasReachedAt number place definition)
    {frames : List Frame}
    (hkept : ∀ outcome ∈ Run.answers test trigger frames, outcome.wasReset = false) :
    (trigger.after frames).HasReachedAt number place definition := by
  induction frames generalizing trigger with
  | nil => exact hreached
  | cons frame later ih =>
      obtain ⟨hnow, hlater⟩ := List.forall_mem_cons.mp hkept
      exact ih ((hreached.advance frame).evaluate hnow) hlater

/-- On a frame without a reset no condition loses hits, a pause without a hit target and the first
condition that is no modifier after a reset of the next condition apart.  So a chain with a hit target
in which no link clears hits or counts against it, satisfied on a frame on which it is evaluated, is
satisfied on every frame from then on, up to and including the first one that resets, and if it is a
pause its group is paused on all of them.  A reset from outside ends such a run of frames. -/
theorem hits_grow_and_targets_latch (trigger : Trigger) :
    (∀ frame : Frame, (trigger.test frame).1.wasReset = false →
      ∀ (number place : ℕ) (group : Group) (condition : Condition),
        trigger.groups[number]? = some group → group.conditions[place]? = some condition →
        ¬condition.MayLoseHits ((group.conditions.take place).map (·.role)) →
        ∃ later, (trigger.test frame).2.conditionAt? number place = some later ∧
          condition.hits ≤ later.hits) ∧
    (∀ (frame : Frame) (frames : List Frame) (last : Frame),
      (∀ outcome ∈ Run.answers test trigger (frame :: frames), outcome.wasReset = false) →
      ∀ (number place : ℕ) (group : Group) (chain : Chain),
        (trigger.advance frame).groups[number]? = some group →
        group.chains[place]? = some chain → group.skips place chain.kind = false →
        chain.Accumulates → chain.Satisfied →
        ∃ lastGroup lastChain,
          ((trigger.after (frame :: frames)).advance last).groups[number]? = some lastGroup ∧
          lastGroup.chains[place]? = some lastChain ∧
          lastChain.map Condition.fresh = chain.map Condition.fresh ∧ lastChain.Satisfied ∧
          (chain.kind = .pause → lastGroup.IsPaused)) := by
  constructor
  · intro frame hkept number place group condition hgroup hcondition hsafe
    exact hits_le_test hkept hgroup hcondition hsafe
  · intro frame frames last hkept number place group chain hgroup hchain hevaluated haccumulates
      hsatisfied
    obtain ⟨hnow, hlater⟩ := List.forall_mem_cons.mp hkept
    have hstart : (trigger.test frame).2.HasReachedAt number place chain := by
      have hafter := chainAt?_evaluate hnow hgroup hchain
      rw [hevaluated, if_neg Bool.false_ne_true] at hafter
      exact ⟨_, hafter, chain.map_fresh_evaluate, haccumulates.hasReached_evaluate hsatisfied⟩
    obtain ⟨lastChain, hlastChain, hsame, hreached⟩ := (hstart.after hlater).advance last
    obtain ⟨lastGroup, hlastGroup, hplace⟩ := Option.bind_eq_some_iff.mp hlastChain
    refine ⟨lastGroup, lastChain, hlastGroup, hplace, hsame, hreached.satisfied, fun hpause => ?_⟩
    have hkind : lastChain.kind = chain.kind := by
      have hkinds := congrArg Chain.kind hsame
      exact hkinds
    exact ⟨lastChain, List.mem_of_getElem? hplace, hkind.trans hpause, hreached.satisfied⟩

/-- A pause that reaches its target with the help of a link, after a chain that clears its own hits. -/
def chargedPause : Trigger :=
  { core := ⟨[
      onByte .resetNextIf 3 7 0,
      (onByte (.check .standard) 1 7 5).withHits 4,
      (onByte (.tally .addHits) 0 7 0).withHits 2,
      onByte (.guard .pauseIf) 1 7 4]⟩ }

def noSevens : Frame := { source := (Image.ofBytes [0, 0, 0, 0]).source }

theorem hits_grow_and_targets_latch_chargedPause :
    (∃ later, (chargedPause.test sevens).2.conditionAt? 0 2 = some later ∧ 2 ≤ later.hits) ∧
      ∃ lastGroup lastChain,
        ((chargedPause.after [sevens, noSevens]).advance noSevens).groups[0]? = some lastGroup ∧
        lastGroup.chains[1]? = some lastChain ∧ lastChain.Satisfied ∧ lastGroup.IsPaused := by
  obtain ⟨hgrow, hlatch⟩ := hits_grow_and_targets_latch chargedPause
  have hkept : ∀ outcome ∈ Run.answers test chargedPause [sevens, noSevens],
      outcome.wasReset = false := by decide +kernel
  have hgroup : (chargedPause.advance sevens).groups[0]? =
      some (chargedPause.core.advance sevens) := rfl
  have hchain : (chargedPause.core.advance sevens).chains[1]? = some
      { links := [((onByte (.tally .addHits) 0 7 0).withHits 2).advance sevens 0]
        kind := .pause
        terminal := (onByte (.guard .pauseIf) 1 7 4).advance sevens 0 } := rfl
  obtain ⟨lastGroup, lastChain, hlastGroup, hlastChain, -, hsatisfied, hpaused⟩ :=
    hlatch sevens [noSevens] noSevens hkept 0 1 _ _ hgroup hchain (by decide +kernel)
      ⟨by decide, by decide⟩ (by decide +kernel)
  exact ⟨hgrow sevens (by decide +kernel) 0 2 chargedPause.core _ rfl rfl (by decide),
    lastGroup, lastChain, hlastGroup, hlastChain, hsatisfied, hpaused rfl⟩

end Trigger

end AchievementLogic
