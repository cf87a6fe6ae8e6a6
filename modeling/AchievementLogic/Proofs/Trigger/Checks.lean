import AchievementLogic.Proofs.Trigger.ChainOrder
import AchievementLogic.Proofs.Trigger.Priming

/-!
# Groups of checks alone

A group without pauses and resets is true if all its chains are satisfied.  A trigger all of whose
groups are of that kind is true if one of them is, whether or not it has alternates, and no frame
resets it.
-/

namespace AchievementLogic

namespace Group

/-- The group has chains, and each of them is there to be checked. -/
structure OnlyChecks (group : Group) : Prop where
  nonempty : group.chains ≠ []
  logic : ∀ chain ∈ group.chains, chain.kind = .logic

namespace OnlyChecks

variable {group : Group}

theorem not_isPaused (hchecks : group.OnlyChecks) : ¬group.IsPaused := by
  rintro ⟨chain, hchain, hpause, -⟩
  rw [hchecks.logic chain hchain] at hpause
  cases hpause

theorem not_any_pausesGroup (hchecks : group.OnlyChecks) :
    group.chains.any Chain.pausesGroup = false := by
  rw [← Bool.not_eq_true, any_pausesGroup_iff]
  exact hchecks.not_isPaused

theorem resetRequested_evaluate (hchecks : group.OnlyChecks) :
    group.evaluate.resetRequested = false := by
  rw [← Bool.not_eq_true, resetRequested_evaluate_iff]
  rintro ⟨-, chain, hchain, hreset, -⟩
  rw [hchecks.logic chain hchain] at hreset
  cases hreset

theorem result_evaluate_iff (hchecks : group.OnlyChecks) :
    group.evaluate.result = true ↔ ∀ chain ∈ group.chains, chain.Satisfied := by
  rw [result_iff_satisfied hchecks.resetRequested_evaluate]
  constructor
  · rintro ⟨-, hall⟩ chain hchain
    exact hall chain hchain (hchecks.logic chain hchain)
  · intro hall
    exact ⟨hchecks.not_isPaused, fun chain hchain _ => hall chain hchain⟩

theorem contributes (hchecks : group.OnlyChecks) : Trigger.contributes group.evaluate = true := by
  obtain ⟨chain, hchain⟩ := List.exists_mem_of_ne_nil _ hchecks.nonempty
  have hlogic : group.evaluate.hasLogic = true := by
    rw [hasLogic_evaluate, ← Chain.any_logic_split]
    exact List.any_eq_true.mpr ⟨chain, hchain, by rw [hchecks.logic chain hchain]; rfl⟩
  rw [Trigger.contributes, hlogic, paused_evaluate, hchecks.not_any_pausesGroup]
  rfl

/-- What the chains of a group are for is not changed by a frame. -/
theorem of_kinds {other : Group} (hchecks : group.OnlyChecks) (hkinds : other.kinds = group.kinds) :
    other.OnlyChecks where
  nonempty := by
    intro hnone
    rw [kinds, hnone] at hkinds
    exact hchecks.nonempty (List.map_eq_nil_iff.mp hkinds.symm)
  logic := by
    have hall : ∀ kind ∈ other.kinds, kind = .logic := by
      rw [hkinds]
      exact List.forall_mem_map.mpr hchecks.logic
    exact List.forall_mem_map.mp hall

end OnlyChecks

/-! ## Standard conditions, each a chain of its own -/

end Group

/-- The chain that a condition makes up without any links. -/
def Chain.alone (condition : Condition) : Chain := ⟨[], .logic, condition⟩

theorem Chain.split_of_standard {conditions : List Condition}
    (hroles : ∀ condition ∈ conditions, condition.role = .check .standard) :
    split conditions = (conditions.map alone, []) := by
  induction conditions with
  | nil => rfl
  | cons head tail ih =>
      obtain ⟨hhead, htail⟩ := List.forall_mem_cons.mp hroles
      simp [split, ih htail, hhead, ChainKind.ofRole?, alone]

namespace Group

variable {conditions : List Condition}

theorem chains_of_standard
    (hroles : ∀ condition ∈ conditions, condition.role = .check .standard) :
    (⟨conditions⟩ : Group).chains = conditions.map Chain.alone :=
  congrArg Prod.fst (Chain.split_of_standard hroles)

theorem loose_of_standard
    (hroles : ∀ condition ∈ conditions, condition.role = .check .standard) :
    (⟨conditions⟩ : Group).loose = [] :=
  congrArg Prod.snd (Chain.split_of_standard hroles)

theorem onlyChecks_of_standard
    (hroles : ∀ condition ∈ conditions, condition.role = .check .standard)
    (hsome : conditions ≠ []) : (⟨conditions⟩ : Group).OnlyChecks where
  nonempty := by
    rw [chains_of_standard hroles]
    exact mt List.map_eq_nil_iff.mp hsome
  logic := by
    rw [chains_of_standard hroles, List.forall_mem_map]
    exact fun _ _ => rfl

end Group

/-! ## Triggers -/

namespace Trigger

variable {trigger : Trigger}

theorem not_wasReset_of_onlyChecks (hchecks : ∀ group ∈ trigger.groups, group.OnlyChecks) :
    trigger.evaluate.1.wasReset = false := by
  rw [wasReset_evaluate]
  apply List.any_eq_false.mpr
  intro group hgroup
  rw [(hchecks group hgroup).resetRequested_evaluate]
  exact Bool.false_ne_true

/-- A trigger that only checks is true where all checks of one of its groups are satisfied. -/
theorem result_iff_of_onlyChecks (hchecks : ∀ group ∈ trigger.groups, group.OnlyChecks) :
    trigger.evaluate.1.result = true ↔
      ∃ group ∈ trigger.groups, ∀ chain ∈ group.chains, chain.Satisfied := by
  rw [result_evaluate, not_wasReset_of_onlyChecks hchecks, Bool.not_false, Bool.true_and]
  constructor
  · intro hdecides
    obtain ⟨group, hgroup, hresult, -⟩ := exists_of_decides hdecides
    exact ⟨group, hgroup, (hchecks group hgroup).result_evaluate_iff.mp hresult⟩
  · rintro ⟨group, hgroup, hall⟩
    have hresult := (hchecks group hgroup).result_evaluate_iff.mpr hall
    exact decides_of_contributes hgroup (hchecks group hgroup).contributes hresult

end Trigger

end AchievementLogic
