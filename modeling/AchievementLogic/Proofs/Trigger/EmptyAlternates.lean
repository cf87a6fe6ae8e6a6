import AchievementLogic.Proofs.Trigger.Passes
import AchievementLogic.Proofs.Trigger.Printing

/-!
# What empty alternates change

An empty group has no say, no hits and nothing to reset, so leaving out empty alternates leaves all
groups, hits and resets as they are.  Yet their mere presence keeps the core from deciding alone: a
core without any condition to check has no say among alternates, while alone it is true on every
frame on which it neither pauses nor resets.
-/

namespace AchievementLogic

/-! ## Which groups have a say -/

def Role.isCheck : Role → Bool
  | .check _ => true
  | _ => false

/-- A chain is a logic chain if its terminal is a condition to check. -/
theorem Chain.any_logic_split (conditions : List Condition) :
    (split conditions).1.any (·.kind == .logic) = conditions.any (·.role.isCheck) := by
  induction conditions with
  | nil => rfl
  | cons head tail ih =>
      rw [List.any_cons, ← ih, split]
      generalize split tail = parts
      obtain ⟨chains, loose⟩ := parts
      cases hrole : head.role with
      | check kind => rfl
      | guard kind => cases kind <;> rfl
      | _ => cases chains <;> rfl

namespace Group

theorem eq_empty_of_isEmpty {group : Group} (hempty : group.isEmpty = true) : group = ⟨[]⟩ := by
  obtain ⟨conditions⟩ := group
  rw [isEmpty, List.isEmpty_iff] at hempty
  exact congrArg Group.mk hempty

theorem isEmpty_eq_of_fresh_eq {left right : Group} (hsame : left.fresh = right.fresh) :
    left.isEmpty = right.isEmpty := by
  rw [← left.isEmpty_fresh, hsame, right.isEmpty_fresh]

/-- Whether a group has logic is decided by the roles of its conditions. -/
theorem hasLogic_evaluate (group : Group) :
    group.evaluate.hasLogic = group.conditions.any (·.role.isCheck) := by
  rw [← Chain.any_logic_split]
  cases hpaused : group.chains.any Chain.pausesGroup with
  | true =>
      rw [evaluate_of_paused hpaused]
      rfl
  | false =>
      rw [evaluate_of_not_paused hpaused, Bool.eq_iff_iff]
      simp [chains]

theorem hasLogic_of_hasTrigger {group : Group} (htrigger : group.evaluate.hasTrigger = true) :
    group.evaluate.hasLogic = true := by
  cases hpaused : group.chains.any Chain.pausesGroup with
  | true =>
      rw [evaluate_of_paused hpaused] at htrigger
      cases htrigger
  | false =>
      rw [evaluate_of_not_paused hpaused] at htrigger ⊢
      obtain ⟨outcome, hmem, -⟩ := List.any_eq_true.mp htrigger
      simp [List.ne_nil_of_mem hmem]

/-- A paused group is neither true nor primed. -/
theorem result_of_paused {group : Group} (hpaused : group.evaluate.paused = true) :
    group.evaluate.result = false ∧ group.evaluate.primed = false := by
  rw [paused_evaluate] at hpaused
  rw [evaluate_of_paused hpaused]
  exact ⟨rfl, rfl⟩

end Group

namespace Trigger

/-- Whether no group has a say: all alternates are empty, and the core checks nothing. -/
def isMute (trigger : Trigger) : Bool :=
  !trigger.alternates.isEmpty && trigger.alternates.all Group.isEmpty &&
    !trigger.core.conditions.any (·.role.isCheck)

/-! ## One frame -/

/-- What an empty group does not show is shown by the other groups alone. -/
theorem any_filter_evaluate {observe : GroupOutcome → Bool}
    (hempty : observe (Group.evaluate ⟨[]⟩) = false) (groups : List Group) :
    ((groups.filter (!·.isEmpty)).map Group.evaluate).any observe =
      (groups.map Group.evaluate).any observe := by
  rw [List.any_map, List.any_map, List.any_filter]
  congr 1
  funext group
  cases hgroup : group.isEmpty with
  | false => rfl
  | true =>
      rw [Group.eq_empty_of_isEmpty hgroup]
      exact hempty.symm

theorem largerMeasured_none (found : Option Measured) : largerMeasured found none = found := by
  cases found <;> rfl

/-- Empty alternates measure nothing. -/
theorem measuredOf_filter (core : GroupOutcome) (groups : List Group) :
    measuredOf core ((groups.filter (!·.isEmpty)).map Group.evaluate) =
      measuredOf core (groups.map Group.evaluate) := by
  rw [measuredOf, measuredOf, List.foldl_map, List.foldl_map, List.foldl_filter]
  congr 1
  funext found group
  cases hgroup : group.isEmpty with
  | false => rfl
  | true =>
      rw [Group.eq_empty_of_isEmpty hgroup]
      exact (largerMeasured_none found).symm

theorem isEmpty_withoutEmpty (trigger : Trigger) :
    trigger.withoutEmpty.isEmpty = trigger.isEmpty := by
  have hall : (trigger.alternates.filter (!·.isEmpty)).all Group.isEmpty =
      trigger.alternates.all Group.isEmpty := by
    simp [List.all_filter]
  simp only [isEmpty, groups, withoutEmpty, List.all_cons, hall]

/-- Empty alternates take its say from a core that checks nothing, and change nothing else. -/
theorem joins_withoutEmpty (trigger : Trigger) {holds : GroupOutcome → Bool}
    (hpaused : trigger.core.evaluate.paused = true → holds trigger.core.evaluate = false) :
    joins trigger.core.evaluate (trigger.alternates.map Group.evaluate) holds =
      (!trigger.isMute &&
        joins trigger.core.evaluate (trigger.withoutEmpty.alternates.map Group.evaluate)
          holds) := by
  have hothers :
      ((trigger.alternates.filter (!·.isEmpty)).map Group.evaluate).any
          (fun outcome => contributes outcome && holds outcome) =
        (trigger.alternates.map Group.evaluate).any
          (fun outcome => contributes outcome && holds outcome) :=
    any_filter_evaluate rfl trigger.alternates
  by_cases hnone : trigger.alternates = []
  · simp [joins, withoutEmpty, isMute, hnone]
  · by_cases hkept : trigger.alternates.filter (!·.isEmpty) = []
    · have hall : trigger.alternates.all Group.isEmpty = true := by
        simpa [List.filter_eq_nil_iff] using hkept
      have hmute : trigger.isMute = !trigger.core.evaluate.hasLogic := by
        simp [isMute, hnone, hall, Group.hasLogic_evaluate]
      have halone : (contributes trigger.core.evaluate && holds trigger.core.evaluate) =
          (trigger.core.evaluate.hasLogic && holds trigger.core.evaluate) := by
        cases hpause : trigger.core.evaluate.paused with
        | false => simp [contributes, hpause]
        | true => simp [hpaused hpause]
      rw [hkept] at hothers
      simp [joins, withoutEmpty, hkept, hmute, hnone, ← hothers, halone]
    · have hmute : trigger.isMute = false := by
        have hall : trigger.alternates.all Group.isEmpty = false := by
          simpa [List.filter_eq_nil_iff] using hkept
        simp [isMute, hall]
      simp only [joins, withoutEmpty, hmute, List.isEmpty_map, List.any_cons, hothers]
      simp [hnone, hkept]

/-- No trigger condition is found where nothing has a say. -/
theorem any_hasTrigger_of_isMute {trigger : Trigger} (hmute : trigger.isMute = true) :
    (trigger.core.evaluate :: trigger.withoutEmpty.alternates.map Group.evaluate).any
      (·.hasTrigger) = false := by
  simp only [isMute, Bool.and_eq_true, Bool.not_eq_true'] at hmute
  obtain ⟨⟨-, hall⟩, hcheck⟩ := hmute
  have hkept : trigger.alternates.filter (!·.isEmpty) = [] := by
    simpa [List.filter_eq_nil_iff] using hall
  have hcore : trigger.core.evaluate.hasTrigger = false := by
    by_contra htrigger
    have hlogic := Group.hasLogic_of_hasTrigger (Bool.of_not_eq_false htrigger)
    rw [Group.hasLogic_evaluate, hcheck] at hlogic
    cases hlogic
  simp [withoutEmpty, hkept, hcore]

theorem withoutEmpty_mapGroups {trigger : Trigger} {change : Group → Group}
    (hchange : ∀ group, (change group).isEmpty = group.isEmpty) :
    (trigger.mapGroups change).withoutEmpty = trigger.withoutEmpty.mapGroups change := by
  simp [withoutEmpty, mapGroups, List.filter_map, Function.comp_def, hchange]

/-- Without its empty alternates a trigger evaluates to the same, except that it may be true where
before nothing had a say. -/
theorem evaluate_withoutEmpty (trigger : Trigger) :
    trigger.evaluate.1 =
        { trigger.withoutEmpty.evaluate.1 with
          result := !trigger.isMute && trigger.withoutEmpty.evaluate.1.result } ∧
      trigger.evaluate.2.withoutEmpty = trigger.withoutEmpty.evaluate.2 := by
  have hany (observe : GroupOutcome → Bool) (hempty : observe (Group.evaluate ⟨[]⟩) = false) :
      (trigger.core.evaluate :: trigger.alternates.map Group.evaluate).any observe =
        (trigger.core.evaluate :: trigger.withoutEmpty.alternates.map Group.evaluate).any
          observe := by
    rw [List.any_cons, List.any_cons, ← any_filter_evaluate hempty trigger.alternates]
    rfl
  have hreset := hany (·.resetRequested) rfl
  have hdirty := hany (·.dirty) rfl
  have htrigger := hany (·.hasTrigger) rfl
  have hresult := joins_withoutEmpty trigger fun hpaused => (Group.result_of_paused hpaused).1
  have hprimed := joins_withoutEmpty trigger fun hpaused => (Group.result_of_paused hpaused).2
  have hmeasured := measuredOf_filter trigger.core.evaluate trigger.alternates
  have hempty := isEmpty_withoutEmpty trigger
  have hgroups : (trigger.alternates.map Group.evaluate |>.map (·.group)).filter (!·.isEmpty) =
      (trigger.withoutEmpty.alternates.map Group.evaluate).map (·.group) := by
    have hkept (group : Group) : group.evaluate.group.isEmpty = group.isEmpty :=
      Group.isEmpty_eq_of_fresh_eq group.fresh_evaluate
    simp [withoutEmpty, List.filter_map, Function.comp_def, hkept]
  have hclear (group : Group) : group.clearHits.isEmpty = group.isEmpty :=
    Group.isEmpty_eq_of_fresh_eq group.fresh_clearHits
  have hcore : trigger.withoutEmpty.core = trigger.core := rfl
  constructor
  · simp only [evaluate, gather, hcore, hreset, hdirty, hresult, hempty, Bool.and_left_comm]
  · simp only [evaluate, gather, hcore, hreset, htrigger, hresult, hprimed, hempty]
    have hafter (counts primed result : Bool) :
        ((counts && (!trigger.isMute && primed)) && !(counts && (!trigger.isMute && result)) &&
            (trigger.core.evaluate :: trigger.withoutEmpty.alternates.map Group.evaluate).any
              (·.hasTrigger)) =
          ((counts && primed) && !(counts && result) &&
            (trigger.core.evaluate :: trigger.withoutEmpty.alternates.map Group.evaluate).any
              (·.hasTrigger)) := by
      cases hmute : trigger.isMute with
      | false => rfl
      | true => rw [any_hasTrigger_of_isMute hmute, Bool.and_false, Bool.and_false]
    rw [hafter]
    split
    · rw [withoutEmpty_mapGroups hclear]
      simp only [withoutEmpty, hgroups, ← hmeasured]
    · simp only [withoutEmpty, hgroups, ← hmeasured]

/-! ## Runs -/

theorem isMute_fresh (trigger : Trigger) : trigger.fresh.isMute = trigger.isMute := by
  have hcore : trigger.core.fresh.conditions.any (·.role.isCheck) =
      trigger.core.conditions.any (·.role.isCheck) := by
    simp [Group.fresh, Condition.fresh, Function.comp_def]
  simp only [isMute, fresh, hcore, List.isEmpty_map, List.all_map, Function.comp_def,
    Group.isEmpty_fresh]

/-- Whether a trigger is mute does not change. -/
theorem isMute_eq_of_fresh_eq {left right : Trigger} (hsame : left.fresh = right.fresh) :
    left.isMute = right.isMute := by
  rw [← left.isMute_fresh, hsame, right.isMute_fresh]

/-- All that empty alternates can do on a frame is to keep the trigger from being true. -/
theorem test_withoutEmpty (trigger : Trigger) (frame : Frame) :
    (trigger.test frame).1 =
        { (trigger.withoutEmpty.test frame).1 with
          result := !trigger.isMute && (trigger.withoutEmpty.test frame).1.result } ∧
      (trigger.test frame).2.withoutEmpty = (trigger.withoutEmpty.test frame).2 := by
  have hadvance : (trigger.advance frame).withoutEmpty = trigger.withoutEmpty.advance frame :=
    withoutEmpty_mapGroups fun group => Group.isEmpty_eq_of_fresh_eq (group.fresh_advance frame)
  have hmute : (trigger.advance frame).isMute = trigger.isMute :=
    isMute_eq_of_fresh_eq (trigger.fresh_advance frame)
  have hevaluate := evaluate_withoutEmpty (trigger.advance frame)
  rw [hadvance, hmute] at hevaluate
  exact hevaluate

def outcomes (trigger : Trigger) : List Frame → List Outcome
  | [] => []
  | frame :: later => (trigger.test frame).1 :: (trigger.test frame).2.outcomes later

theorem outcomes_withoutEmpty (trigger : Trigger) (frames : List Frame) :
    trigger.outcomes frames = (trigger.withoutEmpty.outcomes frames).map fun outcome =>
      { outcome with result := !trigger.isMute && outcome.result } := by
  induction frames generalizing trigger with
  | nil => rfl
  | cons frame later ih =>
      obtain ⟨houtcome, hafter⟩ := trigger.test_withoutEmpty frame
      have hmute : (trigger.test frame).2.isMute = trigger.isMute :=
        isMute_eq_of_fresh_eq (trigger.fresh_test frame)
      rw [outcomes, outcomes, List.map_cons, ← houtcome, ih, hmute, hafter]

/-- On a run empty alternates matter just if no group has a say and the trigger would be true
without them. -/
theorem outcomes_withoutEmpty_eq_iff (trigger : Trigger) (frames : List Frame) :
    trigger.outcomes frames = trigger.withoutEmpty.outcomes frames ↔
      trigger.isMute = false ∨
        ∀ outcome ∈ trigger.withoutEmpty.outcomes frames, outcome.result = false := by
  rw [outcomes_withoutEmpty]
  cases hmute : trigger.isMute with
  | false => simp
  | true =>
      constructor
      · intro hsame
        right
        intro outcome hmem
        rw [← hsame] at hmem
        obtain ⟨other, -, rfl⟩ := List.mem_map.mp hmem
        rfl
      · rintro (hnot | hnever)
        · cases hnot
        · have hkeeps : ∀ outcome ∈ trigger.withoutEmpty.outcomes frames,
              ({ outcome with result := !true && outcome.result } : Outcome) = id outcome := by
            rintro ⟨result, dirty, wasReset⟩ hmem
            obtain rfl : result = false := hnever _ hmem
            rfl
          rw [List.map_congr_left hkeeps, List.map_id]

/-- The text of a trigger is read as one that finds the same on every frame, except that it may be
true where the first one was mute: a trigger with empty alternates only, beside a core that checks
nothing, is never true, and without these alternates its core decides alone. -/
theorem outcomes_reread {text : String} {trigger : Trigger}
    (hread : Trigger.read.readAll text = .ok trigger)
    (hfloat : ∀ operand ∈ trigger.operands, operand.isFloatLiteral = false) :
    ∃ reread, Trigger.read.readAll trigger.text = .ok reread ∧ ∀ frames,
      (trigger.outcomes frames = (reread.outcomes frames).map fun outcome =>
        { outcome with result := !trigger.isMute && outcome.result }) ∧
      (trigger.outcomes frames = reread.outcomes frames ↔
        trigger.isMute = false ∨ ∀ outcome ∈ reread.outcomes frames, outcome.result = false) := by
  obtain ⟨hreread, -⟩ := readAll_text hread hfloat
  exact ⟨trigger.withoutEmpty, hreread, fun frames =>
    ⟨trigger.outcomes_withoutEmpty frames, trigger.outcomes_withoutEmpty_eq_iff frames⟩⟩

/-- A core that only resets, and an empty alternate. -/
def muteText : String := "R:0xH0000=1S"

def muteTrigger : Trigger :=
  { core := ⟨[
      { role := .guard .resetIf
        source := .memory { access := .address, size := .byte, address := 0 }
        comparison? := some .equal
        target := .word 1 }]⟩
    alternates := [⟨[]⟩] }

theorem outcomes_reread_muteTrigger :
    ∃ reread, Trigger.read.readAll muteTrigger.text = .ok reread ∧ ∀ frames,
      (muteTrigger.outcomes frames = (reread.outcomes frames).map fun outcome =>
        { outcome with result := !muteTrigger.isMute && outcome.result }) ∧
      (muteTrigger.outcomes frames = reread.outcomes frames ↔
        muteTrigger.isMute = false ∨
          ∀ outcome ∈ reread.outcomes frames, outcome.result = false) := by
  have hread : Trigger.read.readAll muteText = .ok muteTrigger := rfl
  have hfloat : ∀ operand ∈ muteTrigger.operands, operand.isFloatLiteral = false := by decide
  exact outcomes_reread hread hfloat

/-- Not every trigger finds the same on every frame as the one that its text is read as. -/
theorem not_forall_outcomes_reread :
    ¬ ∀ (text : String) (trigger reread : Trigger), Trigger.read.readAll text = .ok trigger →
      (∀ operand ∈ trigger.operands, operand.isFloatLiteral = false) →
      Trigger.read.readAll trigger.text = .ok reread →
      ∀ frames, reread.outcomes frames = trigger.outcomes frames := by
  intro hall
  have hsame := hall muteText muteTrigger muteTrigger.withoutEmpty rfl (by decide) rfl
    [{ source := ⟨fun _ _ => none⟩ }]
  have hdiffer : muteTrigger.withoutEmpty.outcomes [{ source := ⟨fun _ _ => none⟩ }] ≠
      muteTrigger.outcomes [{ source := ⟨fun _ _ => none⟩ }] := by decide +kernel
  exact hdiffer hsame

end Trigger

end AchievementLogic
