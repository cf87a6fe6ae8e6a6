import AchievementLogic.Proofs.Trigger.Checks
import AchievementLogic.Proofs.Trigger.MeasuredResets

/-!
# Measured progress and the truth of its target

A measured chain with a hit target compares a total with it, the hits of its terminal and the tally
of its links, and reports the same total as its progress.  The comparison is made with the total
itself.  The progress is a word: a total below zero is reported as zero, and a total beyond the
largest word is reported without its carry.
-/

namespace AchievementLogic

theorem Chain.toNat_value_progress (chain : Chain) :
    (chain.progress.value.toNat : ℤ) = max chain.evaluate.chain.counted 0 % 2 ^ 32 := by
  have hvalue : chain.progress.value.toNat = chain.evaluate.chain.counted.toNat % 2 ^ 32 :=
    UInt32.toNat_ofNat'
  omega

namespace Group

variable {group : Group} {chain : Chain}

theorem onlyChecks_of_chains_eq (hchains : group.chains = [chain])
    (hmeasured : chain.terminal.role.isMeasured = true) : group.OnlyChecks := by
  have hproper := group.isProper_chains
  rw [hchains, List.forall_mem_singleton] at hproper
  constructor
  · simp [hchains]
  · simp [hchains, hproper.kind_of_isMeasured hmeasured]

/-- A group with one chain that measures reports what that chain reports. -/
theorem measured?_evaluate_of_chains_eq (hchains : group.chains = [chain])
    (hmeasured : chain.terminal.role.isMeasured = true) :
    group.evaluate.measured? = chain.evaluate.measured? := by
  have hchecks := onlyChecks_of_chains_eq hchains hmeasured
  have hkind : chain.kind = .logic := hchecks.logic chain (by simp [hchains])
  have hcounts : (chain.evaluate.chain.terminal.role == .check .measuredIf) = false := by
    rw [chain.role_terminal_evaluate, beq_eq_false_iff_ne]
    intro hrole
    rw [hrole] at hmeasured
    cases hmeasured
  rw [evaluate_of_not_paused hchecks.not_any_pausesGroup, hchains]
  simp [measuredOf, hkind, hcounts]

end Group

namespace Trigger

/-- A trigger of one chain that measures hits up to a target always reports progress toward that
target, and it is true if the total of the chain comes to the target.  The progress is that total as
a word.  So the progress comes to the target just where the trigger is true, unless the total is too
large for a word and what is left of it falls short of the target. -/
theorem measured?_evaluate_of_target {trigger : Trigger} {chain : Chain}
    (halone : trigger.alternates = []) (hchains : trigger.core.chains = [chain])
    (hmeasured : chain.terminal.role.isMeasured = true)
    (htarget : chain.terminal.requiredHits ≠ 0) :
    let total := chain.evaluate.chain.counted
    ∃ measured, trigger.evaluate.2.measured? = some measured ∧
      measured.target = chain.terminal.requiredHits ∧
      (measured.value.toNat : ℤ) = max total 0 % 2 ^ 32 ∧
      (trigger.evaluate.1.result = true ↔ (measured.target.toNat : ℤ) ≤ total) ∧
      ((measured.target ≤ measured.value ↔ trigger.evaluate.1.result = true) ↔
        total < 2 ^ 32 ∨ (measured.target.toNat : ℤ) ≤ total % 2 ^ 32) := by
  intro total
  have hgroups : trigger.groups = [trigger.core] := by rw [groups, halone]
  have hchecks : ∀ group ∈ trigger.groups, group.OnlyChecks := by
    rw [hgroups, List.forall_mem_singleton]
    exact Group.onlyChecks_of_chains_eq hchains hmeasured
  have hreported : trigger.evaluate.2.measured? = some chain.progress := by
    rw [measured?_evaluate, hgroups, List.map_singleton, List.foldl_cons, List.foldl_nil,
      Group.measured?_evaluate_of_chains_eq hchains hmeasured,
      chain.measured?_evaluate_eq_progress hmeasured htarget]
    rfl
  have hresult : trigger.evaluate.1.result = true ↔
      (chain.progress.target.toNat : ℤ) ≤ total := by
    rw [result_iff_of_onlyChecks hchecks, hgroups]
    simp only [List.mem_singleton, exists_eq_left, hchains, forall_eq]
    exact Chain.satisfied_iff_counted htarget
  have hvalue : (chain.progress.value.toNat : ℤ) = max total 0 % 2 ^ 32 :=
    chain.toNat_value_progress
  refine ⟨chain.progress, hreported, rfl, hvalue, hresult, ?_⟩
  have hpositive : 0 < chain.progress.target.toNat := by
    rw [Nat.pos_iff_ne_zero]
    exact fun hzero => htarget (UInt32.toNat_inj.mp hzero)
  have hbound := chain.progress.target.toNat_lt
  rw [hresult, UInt32.le_iff_toNat_le]
  omega

/-- A count with the hits of one link added, which are as many as can be counted, and those of another
one taken away. -/
def largeCount : Trigger :=
  { core := ⟨[
      (onByte (.tally .addHits) 0 7 0).withHits 0xFFFFFFFF,
      (onByte (.tally .subHits) 1 7 0).withHits 3,
      (onByte (.check .measuredPercent) 2 7 0xFFFFFFFD).withHits 1]⟩ }

theorem measured?_evaluate_of_target_largeCount :
    ∃ measured, (largeCount.test sevens).2.measured? = some measured ∧
      measured.target = 0xFFFFFFFD ∧ measured.value.toNat = 0xFFFFFFFD ∧
      (largeCount.test sevens).1.result = true := by
  have hchains : (largeCount.advance sevens).core.chains = [{
      links := Group.advanceFrom sevens 0 [
        (onByte (.tally .addHits) 0 7 0).withHits 0xFFFFFFFF,
        (onByte (.tally .subHits) 1 7 0).withHits 3]
      kind := .logic
      terminal := ((onByte (.check .measuredPercent) 2 7 0xFFFFFFFD).withHits 1).advance sevens 0 }] :=
    rfl
  obtain ⟨measured, hreported, htarget, hvalue, hresult, -⟩ :=
    measured?_evaluate_of_target rfl hchains rfl (by decide)
  refine ⟨measured, hreported, htarget, ?_, hresult.mpr ?_⟩
  · rw [← Int.natCast_inj, hvalue]
    decide +kernel
  · rw [htarget]
    decide +kernel

/-- A count whose total is one too large for a word. -/
def overflowingCount : Trigger :=
  { core := ⟨[
      (onByte (.tally .addHits) 0 7 0).withHits 0xFFFFFFFF,
      (onByte (.check .measured) 0 7 5).withHits 1]⟩ }

/-- The total comes to the target, but the progress has lost the carry. -/
theorem not_forall_target_le_value_iff_result :
    ¬∀ (trigger : Trigger) (chain : Chain), trigger.alternates = [] →
      trigger.core.chains = [chain] → chain.terminal.role.isMeasured = true →
      chain.terminal.requiredHits ≠ 0 →
      ∃ measured, trigger.evaluate.2.measured? = some measured ∧
        (measured.target ≤ measured.value ↔ trigger.evaluate.1.result = true) := by
  intro hall
  obtain ⟨measured, hreported, hagrees⟩ :=
    hall (overflowingCount.advance sevens)
      { links := Group.advanceFrom sevens 0 [(onByte (.tally .addHits) 0 7 0).withHits 0xFFFFFFFF]
        kind := .logic
        terminal := ((onByte (.check .measured) 0 7 5).withHits 1).advance sevens 0 }
      rfl rfl rfl (by decide)
  have hempty : (overflowingCount.advance sevens).evaluate.2.measured? = some ⟨0, 5⟩ := by
    decide +kernel
  have htrue : (overflowingCount.advance sevens).evaluate.1.result = true := by decide +kernel
  rw [hempty, Option.some.injEq] at hreported
  rw [← hreported, htrue] at hagrees
  exact absurd (hagrees.mpr rfl) (by decide)

end Trigger

end AchievementLogic
