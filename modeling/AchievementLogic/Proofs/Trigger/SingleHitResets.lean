import AchievementLogic.Proofs.Trigger.Guards
import AchievementLogic.Proofs.Trigger.Printing

/-!
# Resets on the first hit

A reset with a hit target of one fires on the first frame on which it holds, and so does a reset
without a hit target.  They take different branches of the evaluation and come to the same because
neither of them has any hits when a frame begins: on a frame on which it holds all hits are cleared,
and on any other frame it gets none.  A tally in its chain would count as hits of its own, so chains
with a tally are left out.
-/

namespace AchievementLogic

/-- Whether a condition of this role counts its hits with or against those of the end of its chain. -/
def Role.isTally : Role → Bool
  | tally _ => true
  | _ => false

/-! ## Links without a tally -/

theorem Condition.tallied_of_no_tally {condition : Condition}
    (hrole : condition.role.isTally = false) : condition.tallied = 0 := by
  rw [tallied]
  cases hcase : condition.role with
  | tally kind => rw [hcase] at hrole; cases hrole
  | _ => rfl

namespace Carry

theorem tally_links_of_no_tally (carry : Carry) {conditions : List Condition}
    (hroles : conditions.any (·.role.isTally) = false) :
    (carry.links conditions).carry.tally = carry.tally := by
  induction conditions generalizing carry with
  | nil => rfl
  | cons head tail ih =>
      obtain ⟨hhead, htail⟩ := Bool.or_eq_false_iff.mp (List.any_cons ▸ hroles)
      have hrole := Condition.role_eq_of_clearHits_eq (carry.clearHits_link head)
      have hnone : (carry.link head).condition.tallied = 0 := by
        rw [← hrole] at hhead
        exact Condition.tallied_of_no_tally hhead
      rw [links, ih _ htail, carry.tally_link, hnone, Int.add_zero]

end Carry

/-! ## The first hit -/

theorem Condition.countHit_of_hits_eq_zero {condition : Condition} (hzero : condition.hits = 0) :
    condition.countHit = condition.withHits 1 := by
  rw [countHit, hzero]
  rfl

/-- The first hit is counted by both branches, and it is all that is asked for. -/
theorem Encounter.end_of_first_hit {encounter : Encounter}
    (hrole : encounter.condition.role = .guard .resetIf)
    (htarget : encounter.condition.requiredHits ≤ 1) (hunhit : encounter.condition.hits = 0) :
    (if encounter.condition.hasTarget then encounter.endTargeted 0 else encounter.endOpen) =
      ⟨encounter.condition.withHits (if encounter.held then 1 else 0), encounter.held,
        encounter.held⟩ := by
  have hkept : encounter.condition.withHits 0 = encounter.condition :=
    Condition.clearHits_of_hits_eq_zero hunhit
  have hcounted := Condition.countHit_of_hits_eq_zero hunhit
  rcases encounter with ⟨condition, held, compared, dirty⟩
  simp only at hrole htarget hunhit hkept hcounted ⊢
  have hcases : condition.requiredHits = 0 ∨ condition.requiredHits = 1 := by
    rw [UInt32.le_iff_toNat_le, UInt32.toNat_one] at htarget
    rw [← UInt32.toNat_inj, ← UInt32.toNat_inj, UInt32.toNat_one, UInt32.toNat_zero]
    omega
  rcases hcases with hnone | hone
  · have hopen : condition.hasTarget = false := by rw [Condition.hasTarget, hnone]; rfl
    cases held <;> simp [endOpen, hopen, hrole, hcounted, hkept]
  · have hasked : condition.hasTarget = true := by rw [Condition.hasTarget, hone]; rfl
    have hincomplete : condition.isComplete = false := by
      rw [Condition.isComplete, hasked, hone, hunhit]
      rfl
    have hhits : (condition.withHits 1).hits = 1 := rfl
    cases held <;>
      simp [endTargeted, hasked, hincomplete, hone, hunhit, hcounted, hhits, hkept]

/-! ## Chains -/

namespace Chain

/-- Whether the chain resets with the first hit of its terminal, and has no hits but that to count. -/
def resetsAtOnce (chain : Chain) : Bool :=
  chain.terminal.role == .guard .resetIf && chain.terminal.requiredHits ≤ 1 &&
    !chain.links.any (·.role.isTally)

/-- The chain without the hit target of a reset on the first hit. -/
def withPlainReset (chain : Chain) : Chain :=
  if chain.resetsAtOnce then { chain with terminal := chain.terminal.withRequiredHits 0 } else chain

/-- If the chain resets at once, it has not been hit. -/
def Unhit (chain : Chain) : Prop := chain.resetsAtOnce = true → chain.terminal.hits = 0

theorem withPlainReset_of_resetsAtOnce {chain : Chain} (hreset : chain.resetsAtOnce = true) :
    chain.withPlainReset = { chain with terminal := chain.terminal.withRequiredHits 0 } := by
  rw [withPlainReset, if_pos hreset]

theorem kind_withPlainReset (chain : Chain) : chain.withPlainReset.kind = chain.kind := by
  rw [withPlainReset]
  split <;> rfl

theorem role_withPlainReset (chain : Chain) :
    chain.withPlainReset.terminal.role = chain.terminal.role := by
  rw [withPlainReset]
  split <;> rfl

theorem links_withPlainReset (chain : Chain) : chain.withPlainReset.links = chain.links := by
  rw [withPlainReset]
  split <;> rfl

theorem IsProper.withPlainReset {chain : Chain} (hproper : chain.IsProper) :
    chain.withPlainReset.IsProper where
  links := by
    rw [links_withPlainReset]
    exact hproper.links
  terminal := by
    rw [role_withPlainReset, kind_withPlainReset]
    exact hproper.terminal

/-- Whether a chain resets at once does not depend on its hits and readings. -/
theorem resetsAtOnce_of_map_fresh_eq {left right : Chain}
    (hsame : right.map Condition.fresh = left.map Condition.fresh) :
    right.resetsAtOnce = left.resetsAtOnce := by
  have hfresh (chain : Chain) : (chain.map Condition.fresh).resetsAtOnce = chain.resetsAtOnce := by
    simp only [resetsAtOnce, Chain.map, List.any_map]
    rfl
  rw [← hfresh right, hsame, hfresh left]

theorem role_of_resetsAtOnce {chain : Chain} (hreset : chain.resetsAtOnce = true) :
    chain.terminal.role = .guard .resetIf := by
  simp only [resetsAtOnce, Bool.and_eq_true, beq_iff_eq] at hreset
  exact hreset.1.1

/-- A reset at once that has not been hit holds, is hit and is satisfied all on the same frames,
whether it has a hit target or not. -/
theorem evaluate_of_resetsAtOnce {chain : Chain} (hproper : chain.IsProper)
    (hreset : chain.resetsAtOnce = true) (hunhit : chain.terminal.hits = 0) :
    chain.evaluate =
      let links := ({} : Carry).links chain.links
      { chain := { chain with
          links := links.conditions
          terminal := chain.terminal.withHits (if chain.holds then 1 else 0) }
        satisfied := chain.holds
        measured? := none
        dirty := links.dirty || chain.holds } := by
  have hrole := role_of_resetsAtOnce hreset
  simp only [resetsAtOnce, Bool.and_eq_true, decide_eq_true_eq, Bool.not_eq_true'] at hreset
  obtain ⟨⟨-, htarget⟩, hnoTally⟩ := hreset
  have htally : chain.passed.tally = 0 := Carry.tally_links_of_no_tally {} hnoTally
  have hmet : (chain.passed.meet chain.terminal).condition = chain.terminal := by
    rw [Carry.meet]
    split
    · exact Condition.clearHits_of_hits_eq_zero hunhit
    · rfl
  have hclean : (chain.passed.meet chain.terminal).dirty = false := by
    rw [Carry.meet, hunhit, bne_self_eq_false, Bool.and_false]
  have hkind : (chain.kind == .pause) = false := by
    have hends := hproper.terminal
    rw [hrole] at hends
    rw [← Option.some.inj hends]
    rfl
  have hend := Encounter.end_of_first_hit (by rw [hmet, hrole]) (by rw [hmet]; exact htarget)
    (by rw [hmet]; exact hunhit)
  rw [hmet] at hend
  have hunmeasured (hits : UInt32) :
      (chain.passed.meet chain.terminal).measured? 0 (chain.terminal.withHits hits) = none := by
    have hkept : (chain.terminal.withHits hits).role = .guard .resetIf := hrole
    rw [Encounter.measured?, hkept]
    rfl
  have hpassed : (({} : Carry).links chain.links).carry = chain.passed := rfl
  simp only [evaluate, hpassed, htally, hmet, hend, hclean, hkind, hunmeasured, Bool.false_and,
    Bool.or_false]
  rfl

theorem resetsAtOnce_withPlainReset (chain : Chain) :
    chain.withPlainReset.resetsAtOnce = chain.resetsAtOnce := by
  cases hreset : chain.resetsAtOnce with
  | false => rw [withPlainReset, hreset, if_neg Bool.false_ne_true, hreset]
  | true =>
      rw [resetsAtOnce, Bool.and_eq_true, Bool.and_eq_true] at hreset
      rw [withPlainReset, if_pos (by simp [resetsAtOnce, hreset]), resetsAtOnce, hreset.2]
      simpa [Condition.withRequiredHits] using hreset.1.1

/-- The hit target of a reset on the first hit makes no difference to its chain. -/
theorem evaluate_withPlainReset {chain : Chain} (hproper : chain.IsProper)
    (hunhit : chain.Unhit) :
    chain.withPlainReset.evaluate = chain.evaluate.mapChain withPlainReset := by
  have hafter := resetsAtOnce_of_map_fresh_eq chain.map_fresh_evaluate
  have hplain := chain.resetsAtOnce_withPlainReset
  cases hreset : chain.resetsAtOnce with
  | false =>
      rw [hreset] at hafter
      rw [withPlainReset, hreset, ChainOutcome.mapChain, withPlainReset, hafter]
      rfl
  | true =>
      rw [hreset] at hafter hplain
      have hzero : chain.withPlainReset.terminal.hits = 0 := by
        rw [withPlainReset_of_resetsAtOnce hreset]
        exact hunhit hreset
      rw [evaluate_of_resetsAtOnce hproper.withPlainReset hplain hzero, ChainOutcome.mapChain,
        withPlainReset_of_resetsAtOnce hafter, withPlainReset_of_resetsAtOnce hreset,
        evaluate_of_resetsAtOnce hproper hreset (hunhit hreset)]
      rfl

theorem resetsAtOnce_advance (chain : Chain) (frame : Frame) :
    (chain.advance frame).resetsAtOnce = chain.resetsAtOnce :=
  resetsAtOnce_of_map_fresh_eq (chain.map_fresh_advance frame)

theorem resetsAtOnce_clearHits (chain : Chain) :
    (chain.map Condition.clearHits).resetsAtOnce = chain.resetsAtOnce := by
  apply resetsAtOnce_of_map_fresh_eq
  simp only [Chain.map, List.map_map, Function.comp_def, Condition.fresh_clearHits]

theorem withPlainReset_comm {change : Chain → Chain} {chain : Chain}
    (hreset : (change chain).resetsAtOnce = chain.resetsAtOnce)
    (hplain : change { chain with terminal := chain.terminal.withRequiredHits 0 } =
      { change chain with terminal := (change chain).terminal.withRequiredHits 0 }) :
    change chain.withPlainReset = (change chain).withPlainReset := by
  rw [withPlainReset, withPlainReset, hreset, apply_ite change, hplain]

/-! ### What keeps a reset unhit -/

theorem Unhit.advance {chain : Chain} (hunhit : chain.Unhit) (frame : Frame) :
    (chain.advance frame).Unhit := by
  intro hreset
  rw [resetsAtOnce_advance] at hreset
  exact hunhit hreset

/-- A reset on the first hit that is not satisfied has not been hit, since that hit would satisfy
it. -/
theorem Unhit.evaluate {chain : Chain} (hproper : chain.IsProper) (hunhit : chain.Unhit)
    (hunsatisfied : chain.kind = .reset → chain.evaluate.satisfied = false) :
    chain.evaluate.chain.Unhit := by
  intro hafter
  have hreset : chain.resetsAtOnce = true := by
    rwa [← resetsAtOnce_of_map_fresh_eq chain.map_fresh_evaluate]
  have hkind : chain.kind = .reset := by
    have hends := hproper.terminal
    rw [role_of_resetsAtOnce hreset] at hends
    exact (Option.some.inj hends).symm
  have hevaluate := evaluate_of_resetsAtOnce hproper hreset (hunhit hreset)
  have hholds : chain.holds = false := by
    rw [← hunsatisfied hkind, hevaluate]
  rw [hevaluate, hholds]
  rfl

end Chain

/-! ## Groups -/

namespace Group

def withPlainResets (group : Group) : Group :=
  ⟨Chain.join (group.chains.map Chain.withPlainReset) group.loose⟩

/-- No reset on the first hit has been hit. -/
def Unhit (group : Group) : Prop := ∀ chain ∈ group.chains, chain.Unhit

variable {group : Group}

theorem isProper_chains_withPlainReset (group : Group) :
    ∀ chain ∈ group.chains.map Chain.withPlainReset, chain.IsProper :=
  List.forall_mem_map.mpr fun chain hchain => (group.isProper_chains chain hchain).withPlainReset

theorem split_withPlainResets (group : Group) :
    Chain.split group.withPlainResets.conditions =
      (group.chains.map Chain.withPlainReset, group.loose) :=
  Chain.split_join group.isProper_chains_withPlainReset group.isTerminal_loose

theorem chains_withPlainResets (group : Group) :
    group.withPlainResets.chains = group.chains.map Chain.withPlainReset := by
  rw [chains, split_withPlainResets]

theorem loose_withPlainResets (group : Group) : group.withPlainResets.loose = group.loose := by
  rw [loose, split_withPlainResets]

theorem Unhit.evaluate_withPlainResets (hunhit : group.Unhit) :
    group.withPlainResets.evaluate = group.evaluate.mapGroup withPlainResets := by
  have hevaluate := evaluate_of_chains group.chains_withPlainResets Chain.kind_withPlainReset
    Chain.role_withPlainReset fun chain hchain =>
      Chain.evaluate_withPlainReset (group.isProper_chains chain hchain) (hunhit chain hchain)
  rw [hevaluate, loose_withPlainResets, ← loose_evaluate]
  rfl

theorem hits_withPlainResets (group : Group) :
    group.withPlainResets.conditions.map (·.hits) = group.conditions.map (·.hits) := by
  have hchain (chain : Chain) :
      chain.withPlainReset.conditions.map (·.hits) = chain.conditions.map (·.hits) := by
    rw [Chain.withPlainReset]
    split
    · rw [Chain.conditions, Chain.conditions, List.map_append, List.map_append]
      rfl
    · rfl
  rw [withPlainResets, ← group.join_chains, Chain.join, Chain.join, List.map_append,
    List.map_append, List.map_flatMap, List.map_flatMap, List.flatMap_map]
  simp only [hchain]

theorem isEmpty_withPlainResets (group : Group) :
    group.withPlainResets.isEmpty = group.isEmpty := by
  have hhits (group : Group) : group.isEmpty = (group.conditions.map (·.hits)).isEmpty :=
    List.isEmpty_map.symm
  rw [hhits, hits_withPlainResets, ← hhits]

theorem clearHits_withPlainResets (group : Group) :
    group.withPlainResets.clearHits = group.clearHits.withPlainResets := by
  have hchain (chain : Chain) : chain.withPlainReset.map Condition.clearHits =
      (chain.map Condition.clearHits).withPlainReset :=
    Chain.withPlainReset_comm chain.resetsAtOnce_clearHits rfl
  rw [withPlainResets, withPlainResets, clearHits, ← Chain.join_map, List.map_map,
    chains_clearHits, loose_clearHits, List.map_map]
  congr 2
  exact List.map_congr_left fun chain _ => hchain chain

theorem advance_withPlainResets (group : Group) (frame : Frame) :
    group.withPlainResets.advance frame = (group.advance frame).withPlainResets := by
  have hchain (chain : Chain) :
      chain.withPlainReset.advance frame = (chain.advance frame).withPlainReset :=
    Chain.withPlainReset_comm (chain.resetsAtOnce_advance frame) rfl
  rw [withPlainResets, withPlainResets, advance,
    Chain.advanceFrom_join group.isProper_chains_withPlainReset, chains_advance, loose_advance,
    List.map_map, List.map_map]
  congr 2
  exact List.map_congr_left fun chain _ => hchain chain

/-! ### What keeps the resets of a group unhit -/

theorem unhit_of_hits_eq_zero (hzero : ∀ condition ∈ group.conditions, condition.hits = 0) :
    group.Unhit := by
  intro chain hchain _
  apply hzero chain.terminal
  exact mem_conditions_of_mem_chains hchain (by simp [Chain.conditions])

theorem unhit_clearHits (group : Group) : group.clearHits.Unhit := by
  apply unhit_of_hits_eq_zero
  rw [clearHits, List.forall_mem_map]
  exact fun _ _ => rfl

theorem Unhit.advance (hunhit : group.Unhit) (frame : Frame) : (group.advance frame).Unhit := by
  rw [Unhit, chains_advance, List.forall_mem_map]
  exact fun chain hchain => (hunhit chain hchain).advance frame

/-- On a frame on which the group does not ask for a reset, none of its resets is hit. -/
theorem Unhit.evaluate (hunhit : group.Unhit) (hkept : group.evaluate.resetRequested = false) :
    group.evaluate.group.Unhit := by
  rw [Unhit, chains_evaluate]
  split
  case isTrue =>
    rw [List.forall_mem_map]
    intro outcome hmem
    obtain ⟨chain, hchain, ⟨hpause, rfl⟩ | rfl⟩ := mem_pausePass hmem
    · apply (hunhit chain hchain).evaluate (group.isProper_chains chain hchain)
      rw [hpause]
      exact fun hreset => absurd hreset (by decide)
    · exact hunhit chain hchain
  case isFalse hrunning =>
    rw [List.forall_mem_map]
    intro chain hchain
    apply (hunhit chain hchain).evaluate (group.isProper_chains chain hchain)
    intro hreset
    by_contra hsatisfied
    rw [Bool.not_eq_false, Chain.satisfied_evaluate] at hsatisfied
    have hasked := group.resetRequested_evaluate_iff.mpr
      ⟨mt group.any_pausesGroup_iff.mpr hrunning, chain, hchain, hreset, hsatisfied⟩
    rw [hkept] at hasked
    cases hasked

end Group

/-! ## Triggers -/

namespace Trigger

def withPlainResets (trigger : Trigger) : Trigger := trigger.mapGroups Group.withPlainResets

def Unhit (trigger : Trigger) : Prop := ∀ group ∈ trigger.groups, group.Unhit

variable {trigger : Trigger}

theorem hits_withPlainResets (trigger : Trigger) :
    trigger.withPlainResets.hits = trigger.hits := by
  have hgroups : trigger.withPlainResets.groups = trigger.groups.map Group.withPlainResets := rfl
  rw [hits, hgroups, List.map_map, hits]
  exact List.map_congr_left fun group _ => group.hits_withPlainResets

theorem mapGroups_withPlainResets {change : Group → Group}
    (hchange : ∀ group, change group.withPlainResets = (change group).withPlainResets) :
    trigger.withPlainResets.mapGroups change = (trigger.mapGroups change).withPlainResets := by
  simp only [withPlainResets, mapGroups, List.map_map, Function.comp_def, hchange]

theorem advance_withPlainResets (trigger : Trigger) (frame : Frame) :
    trigger.withPlainResets.advance frame = (trigger.advance frame).withPlainResets :=
  mapGroups_withPlainResets fun group => group.advance_withPlainResets frame

theorem reset_withPlainResets (trigger : Trigger) :
    trigger.withPlainResets.reset = trigger.reset.withPlainResets := by
  rw [reset, mapGroups_withPlainResets Group.clearHits_withPlainResets]
  rfl

theorem Unhit.advance (hunhit : trigger.Unhit) (frame : Frame) :
    (trigger.advance frame).Unhit := by
  have hgroups : (trigger.advance frame).groups = trigger.groups.map (·.advance frame) := rfl
  rw [Unhit, hgroups, List.forall_mem_map]
  exact fun group hmem => (hunhit group hmem).advance frame

theorem unhit_reset (trigger : Trigger) : trigger.reset.Unhit := by
  have hgroups : trigger.reset.groups = trigger.groups.map Group.clearHits := rfl
  rw [Unhit, hgroups, List.forall_mem_map]
  exact fun group _ => group.unhit_clearHits

theorem Unhit.test (hunhit : trigger.Unhit) (frame : Frame) : (trigger.test frame).2.Unhit := by
  rw [Trigger.test, Unhit, groups_evaluate, List.forall_mem_map]
  intro group hmem
  split
  case isTrue => exact group.unhit_clearHits
  case isFalse hkept =>
    rw [wasReset_evaluate, Bool.not_eq_true, List.any_eq_false] at hkept
    exact (hunhit.advance frame group hmem).evaluate (Bool.eq_false_iff.mpr (hkept group hmem))

/-- A frame finds the same and leaves the same behind without the hit targets. -/
theorem Unhit.test_withPlainResets (hunhit : trigger.Unhit) (frame : Frame) :
    trigger.withPlainResets.test frame =
      ((trigger.test frame).1, (trigger.test frame).2.withPlainResets) := by
  rw [Trigger.test, advance_withPlainResets]
  exact evaluate_mapGroups (Group.isEmpty_withPlainResets _) Group.clearHits_withPlainResets
    fun group hmem => (hunhit.advance frame group hmem).evaluate_withPlainResets

theorem unhit_of_read {text : String} (hread : read.readAll text = .ok trigger) :
    trigger.Unhit := by
  intro group hgroup
  apply Group.unhit_of_hits_eq_zero
  intro condition hcondition
  rw [← ((ensures_read.readAll hread).conditions group hgroup condition hcondition).fresh]
  rfl

/-! ## Runs -/

inductive Action
  | test (frame : Frame)
  | reset

/-- What can be seen of a trigger after an action: what the frame reported if it was one, what the
trigger came to, and its hits. -/
structure Seen where
  outcome? : Option Outcome
  primed : Bool
  measured? : Option Measured
  hits : List (List UInt32)

def see (trigger : Trigger) (outcome? : Option Outcome) : Seen :=
  { outcome?, primed := trigger.primed, measured? := trigger.measured?, hits := trigger.hits }

def act (trigger : Trigger) : Action → Seen × Trigger
  | .test frame => ((trigger.test frame).2.see (trigger.test frame).1, (trigger.test frame).2)
  | .reset => (trigger.reset.see none, trigger.reset)

theorem see_withPlainResets (trigger : Trigger) (outcome? : Option Outcome) :
    trigger.withPlainResets.see outcome? = trigger.see outcome? := by
  rw [see, hits_withPlainResets, see]
  rfl

/-- Each action shows the same with and without those hit targets, and leaves no such reset with a
hit. -/
theorem Unhit.act (hunhit : trigger.Unhit) (action : Action) :
    trigger.withPlainResets.act action =
        ((trigger.act action).1, (trigger.act action).2.withPlainResets) ∧
      (trigger.act action).2.Unhit := by
  cases action with
  | test frame =>
      simp only [Trigger.act, hunhit.test_withPlainResets, see_withPlainResets, true_and]
      exact hunhit.test frame
  | reset =>
      simp only [Trigger.act, reset_withPlainResets, see_withPlainResets, true_and]
      exact trigger.unhit_reset

theorem Unhit.answers_withPlainResets (hunhit : trigger.Unhit) (actions : List Action) :
    Run.answers Trigger.act trigger.withPlainResets actions =
      Run.answers Trigger.act trigger actions := by
  induction actions generalizing trigger with
  | nil => rfl
  | cons action later ih =>
      obtain ⟨hact, hnext⟩ := hunhit.act action
      rw [Run.answers, hact, ih hnext, Run.answers]

/-- Two definitions that only differ in whether some of their resets ask for one hit or for none, in
chains without a tally, cannot be told apart by testing and resetting. -/
theorem answers_of_withPlainResets_eq {leftText rightText : String} {left right : Trigger}
    (hleft : read.readAll leftText = .ok left) (hright : read.readAll rightText = .ok right)
    (hsame : left.withPlainResets = right.withPlainResets) (actions : List Action) :
    Run.answers act left actions = Run.answers act right actions := by
  rw [← (unhit_of_read hleft).answers_withPlainResets, hsame,
    (unhit_of_read hright).answers_withPlainResets]

/-- A count in a group that pauses, with a reset on the first hit behind a combiner. -/
def countedOnce : Trigger :=
  { core := ⟨[
      onByte (.check .standard) 0 7 3,
      onByte (.guard .pauseIf) 1 6 0,
      onByte (.combiner .andNext) 2 7 0,
      onByte (.guard .resetIf) 3 5 1]⟩
    alternates := [⟨[onByte (.guard .resetIf) 3 4 0]⟩] }

/-- The same with the hit target at the other reset. -/
def countedElsewhere : Trigger :=
  { core := ⟨[
      onByte (.check .standard) 0 7 3,
      onByte (.guard .pauseIf) 1 6 0,
      onByte (.combiner .andNext) 2 7 0,
      onByte (.guard .resetIf) 3 5 0]⟩
    alternates := [⟨[onByte (.guard .resetIf) 3 4 1]⟩] }

/-- The reset of the core holds while it is paused and once more after that. -/
def resetPlay : List Action :=
  let frame (bytes : List UInt8) : Action := .test { source := (Image.ofBytes bytes).source }
  [frame [7, 7, 7, 7], frame [7, 6, 7, 5], frame [7, 7, 7, 5], frame [7, 7, 7, 7], .reset,
    frame [7, 6, 7, 4]]

theorem answers_of_withPlainResets_eq_countedOnce :
    read.readAll "0xH0000=7.3._P:0xH0001=6_N:0xH0002=7_R:0xH0003=5.1.SR:0xH0003=4" =
        .ok countedOnce ∧
      read.readAll "0xH0000=7.3._P:0xH0001=6_N:0xH0002=7_R:0xH0003=5SR:0xH0003=4.1." =
        .ok countedElsewhere ∧
      Run.answers act countedOnce resetPlay = Run.answers act countedElsewhere resetPlay ∧
      (Run.answers act countedOnce resetPlay).map (·.outcome?.map (·.wasReset)) =
        [some false, some false, some true, some false, none, some true] := by
  have honce : read.readAll
      "0xH0000=7.3._P:0xH0001=6_N:0xH0002=7_R:0xH0003=5.1.SR:0xH0003=4" = .ok countedOnce := rfl
  have helsewhere : read.readAll
      "0xH0000=7.3._P:0xH0001=6_N:0xH0002=7_R:0xH0003=5SR:0xH0003=4.1." = .ok countedElsewhere :=
    rfl
  exact ⟨honce, helsewhere, answers_of_withPlainResets_eq honce helsewhere rfl resetPlay,
    by decide +kernel⟩

end Trigger

end AchievementLogic
