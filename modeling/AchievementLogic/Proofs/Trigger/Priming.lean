import AchievementLogic.Proofs.Trigger.EmptyAlternates
import AchievementLogic.Proofs.Trigger.Guards

/-!
# What primed means

A trigger is primed while chains that trigger are all that keeps it from being true.  They have to be
all that is missing in one and the same group: what another group lacks or has does not count, and
neither does a group that is paused.
-/

namespace AchievementLogic

namespace Group

/-- The group is not paused, and it lacks chains that trigger but no other chain of its logic. -/
structure LacksOnlyTriggers (group : Group) : Prop where
  running : ¬group.IsPaused
  others : ∀ chain ∈ group.chains, chain.kind = .logic →
    chain.terminal.role ≠ .check .trigger → chain.Satisfied
  missing : ∃ chain ∈ group.chains, chain.terminal.role = .check .trigger ∧ ¬chain.Satisfied

variable {group : Group}

/-- Chains that trigger are logic chains. -/
theorem kind_of_trigger {chain : Chain} (hchain : chain ∈ group.chains)
    (htrigger : chain.terminal.role = .check .trigger) : chain.kind = .logic := by
  have hproper := (group.isProper_chains chain hchain).terminal
  rw [htrigger] at hproper
  exact (Option.some.inj hproper).symm

/-! ## The truth of a group, chain by chain -/

theorem result_iff_satisfied (hreset : group.evaluate.resetRequested = false) :
    group.evaluate.result = true ↔
      ¬group.IsPaused ∧ ∀ chain ∈ group.chains, chain.kind = .logic → chain.Satisfied := by
  rw [← any_pausesGroup_iff]
  cases hpaused : group.chains.any Chain.pausesGroup with
  | true => simp [evaluate_of_paused hpaused]
  | false =>
      rw [evaluate_of_not_paused hpaused] at hreset ⊢
      simp only at hreset ⊢
      rw [hreset]
      simp [Chain.satisfied_evaluate, imp_iff_not_or]

theorem primed_iff_satisfied (hreset : group.evaluate.resetRequested = false) :
    group.evaluate.primed = true ↔
      ¬group.IsPaused ∧ ∀ chain ∈ group.chains, chain.kind = .logic →
        chain.terminal.role ≠ .check .trigger → chain.Satisfied := by
  rw [← any_pausesGroup_iff]
  cases hpaused : group.chains.any Chain.pausesGroup with
  | true => simp [evaluate_of_paused hpaused]
  | false =>
      rw [evaluate_of_not_paused hpaused] at hreset ⊢
      simp only at hreset ⊢
      rw [hreset]
      simp [Chain.satisfied_evaluate, Chain.role_terminal_evaluate, or_iff_not_imp_left]

theorem hasTrigger_of_mem (hrunning : ¬group.IsPaused) {chain : Chain}
    (hchain : chain ∈ group.chains) (htrigger : chain.terminal.role = .check .trigger) :
    group.evaluate.hasTrigger = true := by
  have hrole : chain.evaluate.chain.terminal.role = .check .trigger := by
    rw [chain.role_terminal_evaluate, htrigger]
  have hkind := kind_of_trigger hchain htrigger
  rw [← any_pausesGroup_iff, Bool.not_eq_true] at hrunning
  rw [evaluate_of_not_paused hrunning]
  simp only [List.any_eq_true, List.mem_filter, List.mem_map]
  exact ⟨chain.evaluate, ⟨⟨chain, hchain, rfl⟩, by simp [hkind]⟩, by simp [hrole]⟩

/-- What is missing from a group that is primed and not true are chains that trigger. -/
theorem lacksOnlyTriggers_iff (hreset : group.evaluate.resetRequested = false) :
    group.LacksOnlyTriggers ↔ group.evaluate.primed = true ∧ group.evaluate.result = false := by
  rw [primed_iff_satisfied hreset, ← Bool.not_eq_true, result_iff_satisfied hreset]
  constructor
  · rintro ⟨hrunning, hothers, chain, hchain, htrigger, hmissing⟩
    refine ⟨⟨hrunning, hothers⟩, fun hall => hmissing ?_⟩
    exact hall.2 chain hchain (kind_of_trigger hchain htrigger)
  · rintro ⟨⟨hrunning, hothers⟩, hlacks⟩
    simp only [hrunning, not_false_eq_true, true_and, not_forall] at hlacks
    obtain ⟨chain, hchain, hlogic, hmissing⟩ := hlacks
    refine ⟨hrunning, hothers, chain, hchain, ?_, hmissing⟩
    by_contra hother
    exact hmissing (hothers chain hchain hlogic hother)

end Group

namespace Trigger

variable {trigger : Trigger} {holds : GroupOutcome → Bool}

/-! ## Groups that decide -/

/-- One group with a say is enough, whether it is the core or an alternate. -/
theorem decides_of_contributes {group : Group} (hgroup : group ∈ trigger.groups)
    (hsay : contributes group.evaluate = true) (hholds : holds group.evaluate = true) :
    trigger.decides holds = true := by
  cases halternates : trigger.alternates with
  | nil =>
      obtain rfl : group = trigger.core := by simpa [groups, halternates] using hgroup
      have hsome : trigger.core.isEmpty = false := by
        rw [← Bool.not_eq_true]
        intro hempty
        rw [Group.eq_empty_of_isEmpty hempty] at hsay
        cases hsay
      simp [decides, halternates, hsome, hholds]
  | cons first others =>
      simp only [decides, halternates, List.isEmpty_cons, Bool.false_eq_true, if_false]
      exact List.any_eq_true.mpr ⟨group, hgroup, by rw [hsay, hholds, Bool.true_and]⟩

/-- What decides for a trigger holds of one of its groups, and nothing that fails to decide holds of
that group. -/
theorem exists_of_decides (hdecides : trigger.decides holds = true) :
    ∃ group ∈ trigger.groups, holds group.evaluate = true ∧
      ∀ other, trigger.decides other = false → other group.evaluate = false := by
  cases halternates : trigger.alternates with
  | nil =>
      simp only [decides, halternates, List.isEmpty_nil, if_true, Bool.and_eq_true] at hdecides ⊢
      obtain ⟨hsome, hholds⟩ := hdecides
      refine ⟨trigger.core, List.mem_cons_self, hholds, fun other hother => ?_⟩
      rwa [hsome, Bool.true_and] at hother
  | cons first others =>
      simp only [decides, halternates, List.isEmpty_cons, Bool.false_eq_true, if_false,
        List.any_eq_true, Bool.and_eq_true] at hdecides ⊢
      obtain ⟨group, hgroup, hsay, hholds⟩ := hdecides
      refine ⟨group, hgroup, hholds, fun other hother => ?_⟩
      have hnone := List.any_eq_false.mp hother group hgroup
      rwa [hsay, Bool.true_and, Bool.not_eq_true] at hnone

/-! ## Primed triggers -/

/-- A trigger is primed if and only if it is neither true nor reset and one of its groups that are not
paused lacks chains that trigger, at least one, and no other chain of its logic.  So it is never true
and primed at once. -/
theorem primed_iff_lacksOnlyTriggers (trigger : Trigger) :
    (trigger.evaluate.2.primed = true ↔
      trigger.evaluate.1.result = false ∧ trigger.evaluate.1.wasReset = false ∧
        ∃ group ∈ trigger.groups, group.LacksOnlyTriggers) ∧
    ¬(trigger.evaluate.1.result = true ∧ trigger.evaluate.2.primed = true) := by
  have hprimed := trigger.primed_evaluate
  constructor
  · constructor
    · intro hnow
      simp only [hnow, Bool.true_eq, Bool.and_eq_true, Bool.not_eq_true'] at hprimed
      obtain ⟨⟨⟨hkept, hdecides⟩, hresult⟩, -⟩ := hprimed
      refine ⟨hresult, hkept, ?_⟩
      rw [result_evaluate, hkept, Bool.not_false, Bool.true_and] at hresult
      rw [wasReset_evaluate] at hkept
      obtain ⟨group, hgroup, hholds, hfails⟩ := exists_of_decides hdecides
      have hreset := Bool.eq_false_iff.mpr (List.any_eq_false.mp hkept group hgroup)
      exact ⟨group, hgroup, (Group.lacksOnlyTriggers_iff hreset).mpr ⟨hholds, hfails _ hresult⟩⟩
    · rintro ⟨hresult, hkept, group, hgroup, hlacks⟩
      have hnone := hkept
      rw [wasReset_evaluate] at hnone
      have hreset := Bool.eq_false_iff.mpr (List.any_eq_false.mp hnone group hgroup)
      obtain ⟨chain, hchain, htrigger, -⟩ := hlacks.missing
      have hhas := Group.hasTrigger_of_mem hlacks.running hchain htrigger
      have hpaused : group.evaluate.paused = false := by
        rw [Group.paused_evaluate, ← Bool.not_eq_true, Group.any_pausesGroup_iff]
        exact hlacks.running
      have hsay : contributes group.evaluate = true := by
        rw [contributes, Group.hasLogic_of_hasTrigger hhas, hpaused]
        rfl
      have hdecides : trigger.decides (·.primed) = true :=
        decides_of_contributes hgroup hsay ((Group.lacksOnlyTriggers_iff hreset).mp hlacks).1
      have hany : (trigger.groups.any fun group => group.evaluate.hasTrigger) = true :=
        List.any_eq_true.mpr ⟨group, hgroup, hhas⟩
      rw [hprimed, hresult, hkept, hdecides, hany]
      rfl
  · rintro ⟨hresult, hnow⟩
    rw [hprimed, hresult, Bool.not_true, Bool.and_false, Bool.false_and] at hnow
    cases hnow

end Trigger

end AchievementLogic
