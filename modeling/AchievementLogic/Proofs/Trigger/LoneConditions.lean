import AchievementLogic.Proofs.Trigger.Checks
import AchievementLogic.Proofs.Trigger.LatchedTargets

/-!
# Conditions that stand alone

A condition can be tested by itself, and it can be the only one of a trigger.  Both count its hits in
the same way, up to its target or to the largest word, so that after a run the hits are the number of
frames on which the comparison held, cut off there.  They differ in what they answer: by itself a
condition says whether it holds now, while a trigger remembers that the target was reached.
-/

namespace AchievementLogic

/-! ## Counting -/

namespace Condition

theorem fresh_test (condition : Condition) (frame : Frame) :
    (condition.test frame).2.fresh = condition.fresh := by
  rw [test, fresh_eq_of_clearHits_eq (clearHits_countIf _ _), fresh_advance]

theorem role_test (condition : Condition) (frame : Frame) :
    (condition.test frame).2.role = condition.role := by
  have hrole := congrArg role (condition.fresh_test frame)
  exact hrole

theorem requiredHits_test (condition : Condition) (frame : Frame) :
    (condition.test frame).2.requiredHits = condition.requiredHits := by
  have hrequired := congrArg requiredHits (condition.fresh_test frame)
  exact hrequired

/-- How many hits the condition counts at most. -/
def hitLimit (condition : Condition) : ℕ :=
  if condition.requiredHits = 0 then 4294967295 else condition.requiredHits.toNat

theorem hitLimit_test (condition : Condition) (frame : Frame) :
    (condition.test frame).2.hitLimit = condition.hitLimit := by
  rw [hitLimit, hitLimit, requiredHits_test]

theorem toNat_hits_countHit_eq_min (condition : Condition) :
    condition.countHit.hits.toNat = min (condition.hits.toNat + 1) 4294967295 := by
  have hbound := condition.hits.toNat_lt
  simp only [countHit]
  split
  case isTrue hlast =>
    have hlargest : condition.hits.toNat = 4294967295 := by rw [hlast]; rfl
    omega
  case isFalse hmore =>
    have hlt : condition.hits.toNat ≠ 4294967295 := fun hlast => hmore (UInt32.toNat_inj.mp hlast)
    rw [UInt32.toNat_add, UInt32.toNat_one]
    omega

theorem isComplete_iff (condition : Condition) :
    condition.isComplete = true ↔
      condition.requiredHits ≠ 0 ∧ condition.requiredHits ≤ condition.hits := by
  rw [isComplete, hasTarget, Bool.and_eq_true, bne_iff_ne, decide_eq_true_iff]

/-- A hit is counted unless there are as many as can be. -/
theorem toNat_hits_countIf {condition : Condition}
    (hwithin : condition.hits.toNat ≤ condition.hitLimit) (held : Bool) :
    (condition.countIf held).hits.toNat =
      min (condition.hits.toNat + held.toNat) condition.hitLimit := by
  have hbound := condition.requiredHits.toNat_lt
  have hcounted := condition.toNat_hits_countHit_eq_min
  cases held with
  | false => exact (Nat.min_eq_left hwithin).symm
  | true =>
      by_cases hcomplete : condition.isComplete = true
      · obtain ⟨htarget, hreached⟩ := condition.isComplete_iff.mp hcomplete
        rw [UInt32.le_iff_toNat_le] at hreached
        rw [hitLimit, if_neg htarget] at hwithin ⊢
        rw [countIf, hcomplete, Bool.not_true, Bool.and_false, if_neg Bool.false_ne_true,
          Bool.toNat_true]
        omega
      · rw [countIf, if_pos (by simpa using hcomplete), hcounted, Bool.toNat_true]
        rw [isComplete_iff, UInt32.le_iff_toNat_le, not_and, Nat.not_le] at hcomplete
        rw [hitLimit] at hwithin ⊢
        split
        case isTrue => rfl
        case isFalse htarget =>
          have hopen := hcomplete htarget
          omega

/-- After a run the hits are the number of frames on which the comparison held, up to the limit. -/
theorem toNat_hits_after {condition : Condition}
    (hwithin : condition.hits.toNat ≤ condition.hitLimit) (frames : List Frame) :
    (Run.after test condition frames).hits.toNat =
      min (condition.hits.toNat + (Run.answers test condition frames).count true)
        condition.hitLimit := by
  induction frames generalizing condition with
  | nil => exact (Nat.min_eq_left hwithin).symm
  | cons frame later ih =>
      have hadvanced : (condition.advance frame 0).hits.toNat ≤
          (condition.advance frame 0).hitLimit := hwithin
      have hnow : (condition.test frame).2.hits.toNat =
          min (condition.hits.toNat + (condition.test frame).1.toNat) condition.hitLimit :=
        toNat_hits_countIf hadvanced _
      have hlimit := condition.hitLimit_test frame
      have hnext : (condition.test frame).2.hits.toNat ≤ (condition.test frame).2.hitLimit := by
        rw [hnow, hlimit]
        exact Nat.min_le_right _ _
      have hcount : (Run.answers test condition (frame :: later)).count true =
          (condition.test frame).1.toNat +
            (Run.answers test (condition.test frame).2 later).count true := by
        rw [Run.answers, List.count_cons, Nat.add_comm]
        cases (condition.test frame).1 <;> rfl
      have hlater := ih hnext
      rw [hnow, hlimit] at hlater
      rw [hcount]
      change (Run.after test (condition.test frame).2 later).hits.toNat = _
      omega

end Condition

/-! ## A chain of one condition -/

namespace Chain

variable {condition : Condition}

/-- A condition that is a chain of its own counts where it holds, and is satisfied by that or, if it
has a target, by its count. -/
theorem evaluate_alone (hrole : condition.role = .check .standard) :
    (alone condition).evaluate.chain = alone (condition.countIf (condition.compare default)) ∧
      ((alone condition).evaluate.satisfied = true ↔
        if condition.requiredHits = 0 then condition.compare default = true
        else condition.requiredHits ≤ (condition.countIf (condition.compare default)).hits) := by
  have hmeet : ({} : Carry).meet condition =
      ⟨condition, condition.compare default, condition.sourceValue default, false⟩ := rfl
  by_cases hopen : condition.requiredHits = 0
  · have htarget : condition.hasTarget = false := by simp [Condition.hasTarget, hopen]
    have hcomplete : condition.isComplete = false := by simp [Condition.isComplete, htarget]
    have hstandard : condition.role ≠ .guard .pauseIf := by simp [hrole]
    cases hheld : condition.compare default <;>
      simp [alone, evaluate, Carry.links, hmeet, htarget, Encounter.endOpen, hstandard, hheld, hopen,
        Condition.countIf, hcomplete]
  · have htarget : condition.hasTarget = true := by simpa [Condition.hasTarget] using hopen
    -- without a tally the own hits say everything
    have hcounts : (condition.compare default && !condition.isComplete &&
        decide ((condition.hits.toNat : ℤ) + 0 < condition.requiredHits.toNat)) =
        (condition.compare default && !condition.isComplete) := by
      cases hcomplete : condition.isComplete with
      | true => simp
      | false =>
          have hlt := UInt32.lt_iff_toNat_lt.mp (Condition.hits_lt_of_not_complete hopen hcomplete)
          rw [decide_eq_true (by omega), Bool.and_true]
    have hcounted : (if (condition.compare default && !condition.isComplete) = true then
        condition.countHit else condition) = condition.countIf (condition.compare default) := rfl
    simp only [alone, evaluate, Carry.links, hmeet, htarget, Encounter.endTargeted, if_true, hcounts,
      hcounted, if_neg hopen, decide_eq_true_iff, true_and, UInt32.le_iff_toNat_le]
    omega

end Chain

/-! ## A trigger of one condition -/

namespace Trigger

variable {trigger : Trigger} {condition : Condition}

/-- A trigger of one condition goes through a frame as its condition does. -/
theorem test_of_groups_eq (hrole : condition.role = .check .standard)
    (hgroups : trigger.groups = [⟨[condition]⟩]) (frame : Frame) :
    (trigger.test frame).2.groups = [⟨[(condition.test frame).2]⟩] ∧
      ((trigger.test frame).1.result = true ↔
        if condition.requiredHits = 0 then (condition.test frame).1 = true
        else condition.requiredHits ≤ (condition.test frame).2.hits) := by
  have hadvanced : (trigger.advance frame).groups = [⟨[condition.advance frame 0]⟩] := by
    rw [groups_advance, hgroups]
    rfl
  have hmoved : (condition.advance frame 0).role = .check .standard := hrole
  have hstandard : ∀ moved ∈ [condition.advance frame 0], moved.role = .check .standard :=
    List.forall_mem_singleton.mpr hmoved
  have hchains := Group.chains_of_standard hstandard
  have hgroup := Group.onlyChecks_of_standard hstandard (List.cons_ne_nil _ _)
  have hchecks : ∀ group ∈ (trigger.advance frame).groups, group.OnlyChecks := by
    rw [hadvanced, List.forall_mem_singleton]
    exact hgroup
  obtain ⟨hafter, hsatisfied⟩ := Chain.evaluate_alone hmoved
  constructor
  · rw [test, groups_evaluate, hadvanced, not_wasReset_of_onlyChecks hchecks, List.map_singleton,
      Group.evaluate_of_not_paused hgroup.not_any_pausesGroup, Group.loose_of_standard hstandard,
      hchains]
    simp only [List.map_singleton, hafter]
    rfl
  · rw [test, result_iff_of_onlyChecks hchecks, hadvanced]
    simp only [List.mem_singleton, exists_eq_left, hchains, List.map_singleton, forall_eq]
    rw [← Chain.satisfied_evaluate, hsatisfied]
    rfl

theorem groups_after_of_groups_eq (hrole : condition.role = .check .standard)
    (hgroups : trigger.groups = [⟨[condition]⟩]) (frames : List Frame) :
    (trigger.after frames).groups = [⟨[Run.after Condition.test condition frames]⟩] := by
  induction frames generalizing trigger condition with
  | nil => exact hgroups
  | cons frame later ih =>
      have hnext : (condition.test frame).2.role = .check .standard := by
        rw [Condition.role_test, hrole]
      exact ih hnext (test_of_groups_eq hrole hgroups frame).1

/-- Tested by itself or as the only condition of a trigger, a condition comes out of every run with
the same hits: the number of frames on which its comparison held, up to its target, or up to the
largest word if it has none.  Without a target the trigger is true where the comparison holds; with
one it is true where the target is reached. -/
theorem test_alone (hrole : condition.role = .check .standard) (hhits : condition.hits = 0)
    (frames : List Frame) :
    let alone := Run.after Condition.test condition frames
    let trigger := ({ core := ⟨[condition]⟩ } : Trigger).after frames
    trigger.groups = [⟨[alone]⟩] ∧
      alone.hits.toNat =
        min ((Run.answers Condition.test condition frames).count true)
          (if condition.requiredHits = 0 then 4294967295 else condition.requiredHits.toNat) ∧
      ∀ frame, (trigger.test frame).1.result =
        if condition.requiredHits = 0 then (alone.test frame).1
        else decide (condition.requiredHits ≤ (alone.test frame).2.hits) := by
  intro alone trigger
  have hgroups : trigger.groups = [⟨[alone]⟩] := groups_after_of_groups_eq hrole rfl frames
  have hsame : alone.role = .check .standard ∧ alone.requiredHits = condition.requiredHits := by
    apply Run.after_of_keeps (fun state : Condition =>
      state.role = .check .standard ∧ state.requiredHits = condition.requiredHits)
    · rintro state frame - ⟨hstate, hrequired⟩
      exact ⟨by rw [Condition.role_test, hstate], by rw [Condition.requiredHits_test, hrequired]⟩
    · exact ⟨hrole, rfl⟩
  refine ⟨hgroups, ?_, fun frame => ?_⟩
  · have hwithin : condition.hits.toNat ≤ condition.hitLimit := by
      rw [hhits]
      exact Nat.zero_le _
    have hcount := Condition.toNat_hits_after hwithin frames
    rwa [hhits, UInt32.toNat_zero, Nat.zero_add] at hcount
  · have hresult := (test_of_groups_eq hsame.1 hgroups frame).2
    rw [hsame.2] at hresult
    rw [Bool.eq_iff_iff, hresult]
    split
    · rfl
    · rw [decide_eq_true_iff]

theorem test_alone_onByte :
    let alone := Run.after Condition.test (onByte (.check .standard) 0 7 2)
      [sevens, noSevens, sevens, sevens]
    let trigger := ({ core := ⟨[onByte (.check .standard) 0 7 2]⟩ } : Trigger).after
      [sevens, noSevens, sevens, sevens]
    trigger.groups = [⟨[alone]⟩] ∧ alone.hits.toNat = 2 ∧
      (trigger.test noSevens).1.result = true ∧ (alone.test noSevens).1 = false := by
  intro alone trigger
  have hrole : (onByte (.check .standard) 0 7 2).role = .check .standard := rfl
  obtain ⟨hgroups, hhits, hresult⟩ := test_alone hrole rfl [sevens, noSevens, sevens, sevens]
  refine ⟨hgroups, hhits.trans (by decide +kernel), ?_, by decide +kernel⟩
  rw [hresult noSevens]
  decide +kernel

end Trigger

end AchievementLogic
