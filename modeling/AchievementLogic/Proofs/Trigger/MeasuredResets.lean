import AchievementLogic.Proofs.Trigger.ChainOrder
import AchievementLogic.Proofs.Trigger.Interchange
import AchievementLogic.Proofs.Trigger.LatchedTargets

/-!
# Progress measured on a reset

A reset clears the hits of all groups, but not the progress that was measured on the same frame.  The
groups measure before any hits are cleared, so on a frame with a reset the progress is still that of
the hits which the frame took.
-/

namespace AchievementLogic

/-! ## What a group measures -/

namespace Chain

/-- The hits of the chain with those of this frame, against its target. -/
def progress (chain : Chain) : Measured :=
  ⟨UInt32.ofNat chain.evaluate.chain.counted.toNat, chain.terminal.requiredHits⟩

/-- With a target a measured chain measures its hits. -/
theorem measured?_evaluate_eq_progress {chain : Chain}
    (hmeasured : chain.terminal.role.isMeasured = true)
    (htarget : chain.terminal.requiredHits ≠ 0) :
    chain.evaluate.measured? = some chain.progress := by
  have hrequired := chain.requiredHits_evaluate
  have hrole := chain.role_terminal_evaluate
  have htally := Carry.tally_links {} chain.links
  have hpassed : (({} : Carry).links chain.links).carry = chain.passed := rfl
  rw [hpassed, Int.zero_add] at htally
  have hmeasure : chain.evaluate.measured? =
      (chain.passed.meet chain.terminal).measured? chain.passed.tally
        chain.evaluate.chain.terminal := rfl
  have htargeted : chain.evaluate.chain.terminal.hasTarget = true := by
    rw [Condition.hasTarget, hrequired]
    exact bne_iff_ne.mpr htarget
  rw [hmeasure, Encounter.measured?, hrole, if_pos hmeasured, if_pos htargeted, htally, hrequired]
  rfl

/-- A chain that is not measured reports no progress. -/
theorem measured?_evaluate_eq_none {chain : Chain}
    (hmeasured : chain.terminal.role.isMeasured = false) : chain.evaluate.measured? = none := by
  have hnone := chain.isSome_measured?_evaluate
  rwa [hmeasured, Option.isSome_eq_false_iff, Option.isNone_iff_eq_none] at hnone

/-- Measured chains are logic chains. -/
theorem IsProper.kind_of_isMeasured {chain : Chain} (hproper : chain.IsProper)
    (hmeasured : chain.terminal.role.isMeasured = true) : chain.kind = .logic := by
  have hends := hproper.terminal
  cases hrole : chain.terminal.role with
  | check kind =>
      rw [hrole] at hends
      exact (Option.some.inj hends).symm
  | _ =>
      rw [hrole] at hmeasured
      cases hmeasured

end Chain

namespace Group

/-- The last measured chain of the group, which is the one that counts. -/
def lastMeasured? (group : Group) : Option Chain :=
  (group.chains.filter (·.terminal.role.isMeasured)).getLast?

/-- A condition on measuring fails, which empties what the group measures. -/
def FailsMeasuring (group : Group) : Prop :=
  ∃ chain ∈ group.chains, chain.terminal.role = .check .measuredIf ∧ ¬chain.Satisfied

instance (group : Group) : Decidable group.IsPaused :=
  decidable_of_iff _ group.any_pausesGroup_iff

instance (group : Group) : Decidable group.FailsMeasuring :=
  inferInstanceAs (Decidable (∃ chain ∈ group.chains, _))

/-- The progress of a group whose measured chains have targets. -/
def progress? (group : Group) : Option Measured :=
  if group.IsPaused then none
  else
    let last := group.lastMeasured?.map Chain.progress
    if group.FailsMeasuring then last.map ({ · with value := 0 }) else last

/-- Every measured condition of the group has a hit target. -/
def MeasuresHits (group : Group) : Prop :=
  ∀ condition ∈ group.conditions, condition.role.isMeasured = true → condition.requiredHits ≠ 0

theorem MeasuresHits.advance {group : Group} (htargets : group.MeasuresHits) (frame : Frame) :
    (group.advance frame).MeasuresHits := by
  have hbare : (group.advance frame).conditions.map Condition.bare =
      group.conditions.map Condition.bare := map_bare_advanceFrom frame 0 group.conditions
  have hstates (group : Group) : group.MeasuresHits ↔
      ∀ condition ∈ group.conditions.map Condition.bare,
        condition.role.isMeasured = true → condition.requiredHits ≠ 0 := by
    rw [List.forall_mem_map]
    rfl
  rw [hstates] at htargets ⊢
  rwa [hbare]

theorem MeasuresHits.terminal {group : Group} (htargets : group.MeasuresHits) {chain : Chain}
    (hchain : chain ∈ group.chains) (hmeasured : chain.terminal.role.isMeasured = true) :
    chain.terminal.requiredHits ≠ 0 :=
  htargets chain.terminal
    (mem_conditions_of_mem_chains hchain (List.mem_append_right _ List.mem_cons_self)) hmeasured

/-- What the chains measured is the progress of those that measure. -/
theorem filterMap_measured? {group : Group} (htargets : group.MeasuresHits) :
    ((group.chains.map Chain.evaluate).filter (·.chain.kind == .logic)).filterMap (·.measured?) =
      (group.chains.filter (·.terminal.role.isMeasured)).map Chain.progress := by
  rw [List.filterMap_filter, List.filterMap_map, ← List.filterMap_eq_map, List.filterMap_filter]
  apply List.filterMap_congr
  intro chain hchain
  rw [Function.comp_apply, Chain.kind_evaluate]
  cases hmeasured : chain.terminal.role.isMeasured with
  | true =>
      rw [(group.isProper_chains chain hchain).kind_of_isMeasured hmeasured,
        chain.measured?_evaluate_eq_progress hmeasured (htargets.terminal hchain hmeasured)]
      rfl
  | false => simp [chain.measured?_evaluate_eq_none hmeasured]

/-- The condition that the evaluation looks for is one on measuring that fails. -/
theorem any_fails_iff (group : Group) :
    (((group.chains.map Chain.evaluate).filter (·.chain.kind == .logic)).any fun outcome =>
      outcome.chain.terminal.role == .check .measuredIf && !outcome.satisfied) = true ↔
      group.FailsMeasuring := by
  simp only [List.any_eq_true, List.mem_filter, List.mem_map, FailsMeasuring]
  constructor
  · rintro ⟨-, ⟨⟨chain, hchain, rfl⟩, -⟩, hfails⟩
    rw [chain.role_terminal_evaluate, Bool.and_eq_true, beq_iff_eq, Bool.not_eq_true',
      ← Bool.not_eq_true, chain.satisfied_evaluate] at hfails
    exact ⟨chain, hchain, hfails⟩
  · rintro ⟨chain, hchain, hrole, hfails⟩
    have hkind : chain.kind = .logic := by
      have hends := (group.isProper_chains chain hchain).terminal
      rw [hrole] at hends
      exact (Option.some.inj hends).symm
    refine ⟨chain.evaluate, ⟨⟨chain, hchain, rfl⟩, by simp [hkind]⟩, ?_⟩
    rw [chain.role_terminal_evaluate, hrole, Bool.and_eq_true, beq_iff_eq, Bool.not_eq_true',
      ← Bool.not_eq_true, chain.satisfied_evaluate]
    exact ⟨rfl, hfails⟩

/-- Where measured conditions have targets, a group measures the progress of the last of them. -/
theorem measured?_evaluate_eq_progress? {group : Group} (htargets : group.MeasuresHits) :
    group.evaluate.measured? = group.progress? := by
  rw [progress?]
  split
  case isTrue hpaused =>
    exact (silent_of_paused (group.any_pausesGroup_iff.mpr hpaused)).2.2.2.2.1
  case isFalse hrunning =>
    rw [← any_pausesGroup_iff, Bool.not_eq_true] at hrunning
    rw [evaluate_of_not_paused hrunning]
    simp only [measuredOf, foldl_measured, filterMap_measured? htargets, any_fails_iff,
      Option.or_none, List.getLast?_map, lastMeasured?]

theorem value_progress?_eq_zero_iff (group : Group) :
    (∀ measured ∈ group.progress?, measured.value = 0) ↔
      (¬group.IsPaused → ¬group.FailsMeasuring →
        ∀ chain ∈ group.lastMeasured?, chain.progress.value = 0) := by
  rw [progress?]
  split
  case isTrue hpaused => simp [hpaused]
  case isFalse hrunning =>
    split
    case isTrue hfails => simp [hfails]
    case isFalse hholds => simp [hrunning, hholds]

end Group

/-! ## What a trigger measures on a reset -/

namespace Trigger

/-- The larger of two values is zero just if both are. -/
theorem value_largerMeasured_eq_zero_iff (found candidate : Option Measured) :
    (∀ measured ∈ largerMeasured found candidate, measured.value = 0) ↔
      (∀ measured ∈ found, measured.value = 0) ∧ ∀ measured ∈ candidate, measured.value = 0 := by
  cases found with
  | none => simp [largerMeasured]
  | some first =>
      cases candidate with
      | none => simp [largerMeasured]
      | some second =>
          rw [largerMeasured]
          split
          case isTrue hlt =>
            have hpositive : second.value ≠ 0 :=
              (UInt32.ne_of_lt (UInt32.lt_of_le_of_lt UInt32.zero_le hlt)).symm
            simp [hpositive]
          case isFalse hnot =>
            have hle : second.value ≤ first.value := UInt32.not_lt.mp hnot
            simp only [Option.mem_some_iff, forall_eq']
            constructor
            · intro hzero
              exact ⟨hzero, UInt32.le_zero_iff.mp (hzero ▸ hle)⟩
            · exact fun hzeros => hzeros.1

/-- The largest progress is nothing if there is none in any group. -/
theorem value_foldl_largerMeasured_eq_zero_iff (found : Option Measured)
    (candidates : List (Option Measured)) :
    (∀ measured ∈ candidates.foldl largerMeasured found, measured.value = 0) ↔
      ∀ candidate ∈ found :: candidates, ∀ measured ∈ candidate, measured.value = 0 := by
  induction candidates generalizing found with
  | nil => simp
  | cons candidate others ih =>
      rw [List.foldl_cons, ih, List.forall_mem_cons, List.forall_mem_cons, List.forall_mem_cons,
        value_largerMeasured_eq_zero_iff, and_assoc]

/-- After a reset no condition is left with hits, but the progress is what the groups had counted on
that frame before the reset took it: the largest one of those that are not paused, each of which
measures its last measured chain, or nothing if a condition on measuring fails.  So a reset leaves no
progress if and only if there was none. -/
theorem measured?_test_of_wasReset {trigger : Trigger} {frame : Frame}
    (htargets : ∀ group ∈ trigger.groups, group.MeasuresHits)
    (hreset : (trigger.test frame).1.wasReset = true) :
    (∀ group ∈ (trigger.test frame).2.groups, ∀ condition ∈ group.conditions,
      condition.hits = 0) ∧
    (trigger.test frame).2.measured? =
      ((trigger.advance frame).groups.map Group.progress?).foldl largerMeasured none ∧
    ((∀ measured ∈ (trigger.test frame).2.measured?, measured.value = 0) ↔
      ∀ group ∈ (trigger.advance frame).groups, ¬group.IsPaused → ¬group.FailsMeasuring →
        ∀ chain ∈ group.lastMeasured?, chain.progress.value = 0) := by
  have hadvanced : ∀ group ∈ (trigger.advance frame).groups, group.MeasuresHits := by
    rw [groups_advance]
    exact List.forall_mem_map.mpr fun group hmem => (htargets group hmem).advance frame
  have hmeasured : (trigger.test frame).2.measured? =
      ((trigger.advance frame).groups.map Group.progress?).foldl largerMeasured none := by
    rw [test, measured?_evaluate]
    congr 1
    exact List.map_congr_left fun group hmem =>
      Group.measured?_evaluate_eq_progress? (hadvanced group hmem)
  refine ⟨hits_of_wasReset hreset, hmeasured, ?_⟩
  rw [hmeasured, value_foldl_largerMeasured_eq_zero_iff, List.forall_mem_cons, List.forall_mem_map]
  simp only [Group.value_progress?_eq_zero_iff, Option.not_mem_none, false_imp_iff, implies_true,
    true_and]

/-- A count with a reset in the same group, beside a paused group that has counted more. -/
def countWithReset : Trigger :=
  { core := ⟨[
      (onByte (.check .measured) 0 7 10).withHits 2,
      onByte (.guard .resetIf) 1 7 0]⟩
    alternates := [⟨[
      onByte (.guard .pauseIf) 2 7 0,
      (onByte (.check .measured) 3 7 10).withHits 8]⟩] }

theorem measured?_test_of_wasReset_countWithReset :
    (countWithReset.test sevens).1.wasReset = true ∧
      (∀ group ∈ (countWithReset.test sevens).2.groups, ∀ condition ∈ group.conditions,
        condition.hits = 0) ∧
      (countWithReset.test sevens).2.measured? = some ⟨3, 10⟩ := by
  have htargets : ∀ group ∈ countWithReset.groups, group.MeasuresHits := by
    unfold Group.MeasuresHits
    decide
  have hreset : (countWithReset.test sevens).1.wasReset = true := by decide +kernel
  obtain ⟨hhits, hmeasured, -⟩ := measured?_test_of_wasReset htargets hreset
  exact ⟨hreset, hhits, hmeasured.trans (by decide +kernel)⟩

/-- The progress of the frame with the reset is not empty. -/
theorem not_forall_measured?_test_of_wasReset :
    ¬∀ (trigger : Trigger) (frame : Frame), (∀ group ∈ trigger.groups, group.MeasuresHits) →
      (trigger.test frame).1.wasReset = true →
      ∀ measured ∈ (trigger.test frame).2.measured?, measured.value = 0 := by
  intro hall
  have htargets : ∀ group ∈ countWithReset.groups, group.MeasuresHits := by
    unfold Group.MeasuresHits
    decide
  have hzero : (3 : UInt32) = 0 :=
    hall countWithReset sevens htargets (by decide +kernel) ⟨3, 10⟩ (by decide +kernel)
  exact absurd hzero (by decide)

end Trigger

end AchievementLogic
