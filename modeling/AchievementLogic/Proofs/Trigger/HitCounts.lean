import AchievementLogic.Proofs.Trigger.Passes
import Mathlib.Algebra.Ring.Int.Defs

/-!
# How far hits are counted

A condition with a hit target stops counting there.  Modifiers are never compared, and conditions
that no terminal follows are never looked at, so that neither of them has any hits.  No frame and no
reset changes that: a link, a terminal, a chain, a group and a trigger keep it in turn.
-/

namespace AchievementLogic

/-! ## Conditions -/

/-- The hits do not pass the target, and a modifier has none. -/
structure Condition.InBounds (condition : Condition) : Prop where
  target : condition.requiredHits ≠ 0 → condition.hits ≤ condition.requiredHits
  modifier : condition.role.isModifier = true → condition.hits = 0

namespace Condition

variable {condition : Condition}

theorem inBounds_of_hits_eq_zero (hzero : condition.hits = 0) : condition.InBounds where
  target := by
    intro _
    rw [hzero]
    exact UInt32.zero_le
  modifier := fun _ => hzero

theorem clearHits_of_hits_eq_zero (hzero : condition.hits = 0) :
    condition.clearHits = condition := by
  rw [clearHits, withHits, ← hzero]

theorem inBounds_of_not_modifier (hrole : condition.role.isModifier = false)
    (htarget : condition.requiredHits ≠ 0 → condition.hits ≤ condition.requiredHits) :
    condition.InBounds where
  target := htarget
  modifier := by
    intro hmodifier
    rw [hrole] at hmodifier
    cases hmodifier

theorem hits_lt_of_not_complete (hsome : condition.requiredHits ≠ 0)
    (hopen : condition.isComplete = false) : condition.hits < condition.requiredHits := by
  have htarget : condition.hasTarget = true := bne_iff_ne.mpr hsome
  rw [isComplete, htarget, Bool.true_and, decide_eq_false_iff_not] at hopen
  exact UInt32.not_le.mp hopen

/-- One more hit is within the target if the target was not reached. -/
theorem inBounds_countHit (hrole : condition.role.isModifier = false)
    (hopen : condition.isComplete = false) : condition.countHit.InBounds := by
  have hcountedRole : condition.countHit.role.isModifier = false := hrole
  apply inBounds_of_not_modifier hcountedRole
  intro hsome
  have hlt : condition.hits < condition.requiredHits := hits_lt_of_not_complete hsome hopen
  have hnext : condition.hits + 1 ≤ condition.requiredHits := by
    have hbound := condition.requiredHits.toNat_lt
    rw [UInt32.lt_iff_toNat_lt] at hlt
    rw [UInt32.le_iff_toNat_le, UInt32.toNat_add, UInt32.toNat_one]
    omega
  change (if condition.hits = 0xFFFFFFFF then condition.hits else condition.hits + 1) ≤
    condition.requiredHits
  split
  · exact UInt32.le_of_lt hlt
  · exact hnext

theorem InBounds.countIf (hbounds : condition.InBounds)
    (hrole : condition.role.isModifier = false) (held : Bool) :
    (condition.countIf held).InBounds := by
  by_cases hcounts : (held && !condition.isComplete) = true
  · rw [Condition.countIf, if_pos hcounts]
    rw [Bool.and_eq_true, Bool.not_eq_true'] at hcounts
    exact inBounds_countHit hrole hcounts.2
  · rwa [Condition.countIf, if_neg hcounts]

end Condition

/-! ## Links and terminals -/

theorem Carry.inBounds_meet (carry : Carry) {condition : Condition}
    (hbounds : condition.InBounds) : (carry.meet condition).condition.InBounds := by
  unfold meet
  cases carry.resetNext with
  | true => exact Condition.inBounds_of_hits_eq_zero rfl
  | false => exact hbounds

theorem Carry.role_meet (carry : Carry) (condition : Condition) :
    (carry.meet condition).condition.role = condition.role :=
  Condition.role_eq_of_clearHits_eq (carry.clearHits_meet condition)

theorem Role.isModifier_eq_false {role : Role} (hsource : role ≠ .modifier .addSource)
    (hsub : role ≠ .modifier .subSource) (haddress : role ≠ .modifier .addAddress) :
    role.isModifier = false := by
  cases role with
  | modifier kind => cases kind <;> contradiction
  | _ => rfl

/-- A link leaves a modifier alone and counts at most one hit of any other condition. -/
theorem Carry.condition_link (carry : Carry) (condition : Condition) :
    (carry.link condition).condition =
      if condition.role.isModifier then condition
      else (carry.meet condition).condition.countIf (carry.meet condition).held := by
  unfold link
  split
  case h_1 hrole => simp [hrole, Role.isModifier]
  case h_2 hrole => simp [hrole, Role.isModifier]
  case h_3 hrole => simp [hrole, Role.isModifier]
  case h_4 role hsource hsub haddress =>
    have hnot := Role.isModifier_eq_false hsource hsub haddress
    simp [hnot]

/-- What the hits of a link add to the tally, or take from it. -/
def Condition.tallied (condition : Condition) : Int :=
  match condition.role with
  | .tally .addHits => condition.hits.toNat
  | .tally .subHits => -condition.hits.toNat
  | _ => 0

/-- What a link adds to the tally are the hits that it has once it was evaluated. -/
theorem Carry.tally_link (carry : Carry) (condition : Condition) :
    (carry.link condition).carry.tally =
      carry.tally + (carry.link condition).condition.tallied := by
  have hrole := Condition.role_eq_of_clearHits_eq (carry.clearHits_link condition)
  rw [Condition.tallied, hrole]
  unfold link
  split
  case h_4 =>
    cases condition.role with
    | tally kind =>
        cases kind with
        | addHits => rfl
        | subHits => exact Int.sub_eq_add_neg
    | _ => simp only [Int.add_zero]
  all_goals rename_i hmodifier; rw [hmodifier]; exact (Int.add_zero _).symm

/-- The tally is what the links come to after they have counted the hits of this frame. -/
theorem Carry.tally_links (carry : Carry) (conditions : List Condition) :
    (carry.links conditions).carry.tally =
      carry.tally + ((carry.links conditions).conditions.map Condition.tallied).sum := by
  induction conditions generalizing carry with
  | nil => exact (Int.add_zero _).symm
  | cons head tail ih =>
      rw [links, List.map_cons, List.sum_cons, ← Int.add_assoc, ← tally_link]
      exact ih (carry.link head).carry

theorem Carry.inBounds_link (carry : Carry) {condition : Condition}
    (hbounds : condition.InBounds) : (carry.link condition).condition.InBounds := by
  rw [condition_link]
  split
  case isTrue => exact hbounds
  case isFalse hrole =>
    apply (carry.inBounds_meet hbounds).countIf
    rw [role_meet]
    exact Bool.eq_false_iff.mpr hrole

theorem Carry.inBounds_links (carry : Carry) {conditions : List Condition}
    (hbounds : ∀ condition ∈ conditions, condition.InBounds) :
    ∀ condition ∈ (carry.links conditions).conditions, condition.InBounds := by
  induction conditions generalizing carry with
  | nil => exact hbounds
  | cons head tail ih =>
      obtain ⟨hhead, htail⟩ := List.forall_mem_cons.mp hbounds
      exact List.forall_mem_cons.mpr ⟨carry.inBounds_link hhead, ih (carry.link head).carry htail⟩

/-- Without a target there is no bound, and the hits of a pause are set at will. -/
theorem Encounter.inBounds_endOpen {encounter : Encounter}
    (hrole : encounter.condition.role.isModifier = false)
    (hnone : encounter.condition.hasTarget = false) : encounter.endOpen.condition.InBounds := by
  have hsame := encounter.clearHits_endOpen
  apply Condition.inBounds_of_not_modifier
  · rw [Condition.role_eq_of_clearHits_eq hsame, hrole]
  · intro hsome
    rw [Condition.requiredHits_eq_of_clearHits_eq hsame] at hsome
    exact absurd (bne_iff_ne.mpr hsome) (Bool.eq_false_iff.mp hnone)

/-- The tally can only keep a hit from being counted. -/
theorem Encounter.inBounds_endTargeted {encounter : Encounter} (tally : Int)
    (hbounds : encounter.condition.InBounds)
    (hrole : encounter.condition.role.isModifier = false) :
    (encounter.endTargeted tally).condition.InBounds := by
  unfold endTargeted
  simp only
  split
  case isTrue hcounts =>
    simp only [Bool.and_eq_true, Bool.not_eq_true'] at hcounts
    exact Condition.inBounds_countHit hrole hcounts.1.2
  case isFalse => exact hbounds

/-! ## Chains -/

structure Chain.InBounds (chain : Chain) : Prop where
  links : ∀ condition ∈ chain.links, condition.InBounds
  terminal : chain.terminal.InBounds
  compared : chain.terminal.role.isModifier = false

namespace Chain

theorem InBounds.conditions {chain : Chain} (hbounds : chain.InBounds) :
    ∀ condition ∈ chain.conditions, condition.InBounds := by
  rw [Chain.conditions, List.forall_mem_append, List.forall_mem_singleton]
  exact ⟨hbounds.links, hbounds.terminal⟩

/-- No chain counts past the targets of its conditions. -/
theorem InBounds.evaluate {chain : Chain} (hbounds : chain.InBounds) :
    chain.evaluate.chain.InBounds := by
  have hsame := congrArg Chain.terminal chain.clearHits_evaluate
  have hrole : chain.evaluate.chain.terminal.role = chain.terminal.role :=
    Condition.role_eq_of_clearHits_eq hsame
  have hcarried := (({} : Carry).links chain.links).carry.inBounds_meet hbounds.terminal
  have hcompared : ((({} : Carry).links chain.links).carry.meet
      chain.terminal).condition.role.isModifier = false := by
    rw [Carry.role_meet, hbounds.compared]
  refine ⟨({} : Carry).inBounds_links hbounds.links, ?_, by rw [hrole, hbounds.compared]⟩
  simp only [Chain.evaluate]
  split
  case isTrue => exact Encounter.inBounds_endTargeted _ hcarried hcompared
  case isFalse hnone =>
    exact Encounter.inBounds_endOpen hcompared (Bool.eq_false_iff.mpr hnone)

/-- Conditions from which on no terminal comes are after the last chain. -/
theorem mem_split_append {before after : List Condition}
    (hnone : ∀ condition ∈ after, condition.role.isTerminal = false) {condition : Condition}
    (hmem : condition ∈ after) : condition ∈ (split (before ++ after)).2 := by
  induction before with
  | nil => rwa [List.nil_append, split_of_loose hnone]
  | cons head tail ih =>
      rw [List.cons_append, split]
      simp only
      split
      · exact ih
      · exact List.mem_cons_of_mem head ih
      · exact ih

end Chain

/-! ## Groups -/

/-- No condition of the group is hit too often, and those after its last terminal not at all. -/
structure Group.HitsInBounds (group : Group) : Prop where
  conditions : ∀ condition ∈ group.conditions, condition.InBounds
  loose : ∀ before after : List Condition, group.conditions = before ++ after →
    (∀ condition ∈ after, condition.role.isTerminal = false) →
    ∀ condition ∈ after, condition.hits = 0

namespace Group

theorem hitsInBounds_iff (group : Group) :
    group.HitsInBounds ↔ (∀ condition ∈ group.conditions, condition.InBounds) ∧
      ∀ condition ∈ group.loose, condition.hits = 0 := by
  constructor
  · rintro ⟨hconditions, hloose⟩
    exact ⟨hconditions, hloose _ _ group.join_chains.symm group.isTerminal_loose⟩
  · rintro ⟨hconditions, hloose⟩
    refine ⟨hconditions, fun before after hsplit hnone condition hmem => ?_⟩
    apply hloose condition
    rw [loose, hsplit]
    exact Chain.mem_split_append hnone hmem

theorem hitsInBounds_of_hits_eq_zero {group : Group}
    (hzero : ∀ condition ∈ group.conditions, condition.hits = 0) : group.HitsInBounds where
  conditions := fun condition hmem => Condition.inBounds_of_hits_eq_zero (hzero condition hmem)
  loose := by
    intro before after hsplit _ condition hmem
    apply hzero condition
    rw [hsplit]
    exact List.mem_append_right before hmem

theorem hitsInBounds_clearHits (group : Group) : group.clearHits.HitsInBounds := by
  apply hitsInBounds_of_hits_eq_zero
  intro condition hmem
  obtain ⟨original, -, rfl⟩ := List.mem_map.mp hmem
  rfl

theorem HitsInBounds.chains {group : Group} (hbounds : group.HitsInBounds) :
    ∀ chain ∈ group.chains, chain.InBounds := by
  intro chain hchain
  exact {
    links := fun condition hlink => hbounds.conditions condition
      (mem_conditions_of_mem_chains hchain (List.mem_append_left _ hlink))
    terminal := hbounds.conditions _
      (mem_conditions_of_mem_chains hchain (by simp [Chain.conditions]))
    compared := (group.isProper_chains chain hchain).isModifier_terminal }

theorem inBounds_pausePass {chains : List Chain} (hbounds : ∀ chain ∈ chains, chain.InBounds) :
    ∀ outcome ∈ (pausePass chains).1, outcome.chain.InBounds := by
  intro outcome hmem
  obtain ⟨chain, hchain, ⟨-, rfl⟩ | rfl⟩ := mem_pausePass hmem
  · exact (hbounds chain hchain).evaluate
  · exact hbounds chain hchain

theorem HitsInBounds.evaluate {group : Group} (hbounds : group.HitsInBounds) :
    group.evaluate.group.HitsInBounds := by
  have hzero := (group.hitsInBounds_iff.mp hbounds).2
  have hchains : ∀ chain ∈ group.evaluate.group.chains, chain.InBounds := by
    rw [chains_evaluate]
    split
    · exact List.forall_mem_map.mpr (inBounds_pausePass hbounds.chains)
    · exact List.forall_mem_map.mpr fun chain hchain => (hbounds.chains chain hchain).evaluate
  rw [hitsInBounds_iff, loose_evaluate]
  refine ⟨?_, hzero⟩
  rw [← join_chains, loose_evaluate]
  intro condition hmem
  rcases List.mem_append.mp hmem with hchain | hloose
  · obtain ⟨chain, hchain, hcondition⟩ := List.mem_flatMap.mp hchain
    exact (hchains chain hchain).conditions condition hcondition
  · exact Condition.inBounds_of_hits_eq_zero (hzero condition hloose)

end Group

/-! ## Triggers -/

def Trigger.HitsInBounds (trigger : Trigger) : Prop :=
  ∀ group ∈ trigger.groups, group.HitsInBounds

/-- The condition as far as its hits are concerned. -/
def Condition.bare (condition : Condition) : Condition :=
  { condition with source := default, target := default }

namespace Group

/-- Which chain a condition belongs to does not depend on its operands. -/
theorem split_of_map_bare_eq {left right : Group}
    (hsame : right.conditions.map Condition.bare = left.conditions.map Condition.bare) :
    right.chains.map (Chain.map Condition.bare) = left.chains.map (Chain.map Condition.bare) ∧
      right.loose.map Condition.bare = left.loose.map Condition.bare := by
  have hrole (condition : Condition) : condition.bare.role = condition.role := rfl
  have hsplit := congrArg Chain.split hsame
  rw [Chain.split_map hrole, Chain.split_map hrole] at hsplit
  exact Prod.mk.inj hsplit

/-- Whether hits are within bounds can be told from roles, targets and hits alone. -/
theorem hitsInBounds_of_map_bare_eq {left right : Group} (hbounds : left.HitsInBounds)
    (hsame : right.conditions.map Condition.bare = left.conditions.map Condition.bare) :
    right.HitsInBounds := by
  obtain ⟨-, hloose⟩ := split_of_map_bare_eq hsame
  rw [hitsInBounds_iff] at hbounds ⊢
  obtain ⟨hconditions, hzero⟩ := hbounds
  have hbare : ∀ condition ∈ right.conditions.map Condition.bare, condition.InBounds := by
    rw [hsame]
    intro condition hmem
    obtain ⟨original, horiginal, rfl⟩ := List.mem_map.mp hmem
    exact ⟨(hconditions original horiginal).target, (hconditions original horiginal).modifier⟩
  have hbareZero : ∀ condition ∈ right.loose.map Condition.bare, condition.hits = 0 := by
    rw [hloose]
    exact List.forall_mem_map.mpr hzero
  constructor
  · intro condition hmem
    have hcondition := hbare condition.bare (List.mem_map_of_mem hmem)
    exact ⟨hcondition.target, hcondition.modifier⟩
  · exact List.forall_mem_map.mp hbareZero

theorem map_bare_advanceFrom (frame : Frame) (offset : UInt32) (conditions : List Condition) :
    (advanceFrom frame offset conditions).map Condition.bare = conditions.map Condition.bare := by
  induction conditions generalizing offset with
  | nil => rfl
  | cons head tail ih =>
      rw [advanceFrom, List.map_cons, ih, List.map_cons]
      rfl

theorem HitsInBounds.advance {group : Group} (hbounds : group.HitsInBounds) (frame : Frame) :
    (group.advance frame).HitsInBounds :=
  hitsInBounds_of_map_bare_eq hbounds (map_bare_advanceFrom frame 0 group.conditions)

end Group

namespace Trigger

theorem hitsInBounds_mapGroups {trigger : Trigger} {change : Group → Group}
    (hchange : ∀ group ∈ trigger.groups, (change group).HitsInBounds) :
    (trigger.mapGroups change).HitsInBounds := by
  have hgroups : (trigger.mapGroups change).groups = trigger.groups.map change := rfl
  rw [HitsInBounds, hgroups]
  exact List.forall_mem_map.mpr hchange

theorem hitsInBounds_reset (trigger : Trigger) : trigger.reset.HitsInBounds := by
  have hcleared : (trigger.mapGroups Group.clearHits).HitsInBounds :=
    hitsInBounds_mapGroups fun group _ => group.hitsInBounds_clearHits
  exact hcleared

theorem HitsInBounds.evaluate {trigger : Trigger} (hbounds : trigger.HitsInBounds) :
    trigger.evaluate.2.HitsInBounds := by
  have hevaluated : (trigger.mapGroups fun group => group.evaluate.group).HitsInBounds :=
    hitsInBounds_mapGroups fun group hmem => (hbounds group hmem).evaluate
  simp only [Trigger.evaluate, gather]
  split
  case isTrue => exact hitsInBounds_mapGroups fun group _ => group.hitsInBounds_clearHits
  case isFalse =>
    intro group hmem
    apply hevaluated group
    simpa [groups, mapGroups] using hmem

/-- A frame moves the operands of a trigger on and evaluates it. -/
theorem HitsInBounds.test {trigger : Trigger} (hbounds : trigger.HitsInBounds) (frame : Frame) :
    (trigger.test frame).2.HitsInBounds := by
  have hadvanced : (trigger.advance frame).HitsInBounds :=
    hitsInBounds_mapGroups fun group hmem => (hbounds group hmem).advance frame
  exact hadvanced.evaluate

end Trigger

end AchievementLogic
