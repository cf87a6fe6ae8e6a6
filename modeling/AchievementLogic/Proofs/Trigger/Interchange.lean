import AchievementLogic.Proofs.Trigger.Guards
import Mathlib.Logic.Equiv.Basic

/-!
# Groups in another order

Among alternates the core is a group like the others.  What a trigger with alternates reports of a
frame depends on which groups it has and not on their order, and the groups keep their places from
frame to frame, so that two triggers with the same groups in different places go along with each
other on every run.  Only the target of the measured progress may differ, where groups measured the
same value.
-/

namespace AchievementLogic.Trigger

/-! ## The largest progress -/

/-- The largest value that any of these measured. -/
structure IsLargest (candidates : List (Option Measured)) (value : UInt32) : Prop where
  found : ∃ measured, some measured ∈ candidates ∧ measured.value = value
  bound : ∀ measured, some measured ∈ candidates → measured.value ≤ value

theorem isLargest_congr {left right : List (Option Measured)}
    (hsame : ∀ measured, some measured ∈ left ↔ some measured ∈ right) (value : UInt32) :
    IsLargest left value ↔ IsLargest right value := by
  constructor
  · rintro ⟨hfound, hbound⟩
    exact ⟨by simpa only [hsame] using hfound, by simpa only [hsame] using hbound⟩
  · rintro ⟨hfound, hbound⟩
    exact ⟨by simpa only [hsame] using hfound, by simpa only [hsame] using hbound⟩

/-- A value that another one reaches may be left out. -/
theorem isLargest_cons_of_le {first second : Measured} {candidates : List (Option Measured)}
    (hle : first.value ≤ second.value) (hmem : some second ∈ candidates) (value : UInt32) :
    IsLargest (some first :: candidates) value ↔ IsLargest candidates value := by
  constructor
  · rintro ⟨⟨measured, hmeasured, rfl⟩, hbound⟩
    refine ⟨?_, fun other hother => hbound other (List.mem_cons_of_mem _ hother)⟩
    rcases List.mem_cons.mp hmeasured with heq | hothers
    · obtain rfl : measured = first := Option.some.inj heq
      exact ⟨second, hmem, UInt32.le_antisymm (hbound second (List.mem_cons_of_mem _ hmem)) hle⟩
    · exact ⟨measured, hothers, rfl⟩
  · rintro ⟨⟨measured, hmeasured, hvalue⟩, hbound⟩
    refine ⟨⟨measured, List.mem_cons_of_mem _ hmeasured, hvalue⟩, fun other hother => ?_⟩
    rcases List.mem_cons.mp hother with heq | hothers
    · obtain rfl : other = first := Option.some.inj heq
      exact UInt32.le_trans hle (hbound second hmem)
    · exact hbound other hothers

/-- The larger of two measured values stands for both of them. -/
theorem isLargest_largerMeasured (found candidate : Option Measured)
    (others : List (Option Measured)) (value : UInt32) :
    IsLargest (largerMeasured found candidate :: others) value ↔
      IsLargest (found :: candidate :: others) value := by
  cases found with
  | none =>
      apply isLargest_congr
      simp [largerMeasured]
  | some first =>
      cases candidate with
      | none =>
          apply isLargest_congr
          simp [largerMeasured]
      | some second =>
          rw [largerMeasured]
          split
          case isTrue hlt =>
            exact (isLargest_cons_of_le (UInt32.le_of_lt hlt) List.mem_cons_self value).symm
          case isFalse hnot =>
            have hle : second.value ≤ first.value := UInt32.not_lt.mp hnot
            rw [← isLargest_cons_of_le hle List.mem_cons_self value]
            apply isLargest_congr
            simp [or_left_comm]

/-- Going through the groups finds the largest value that they measured. -/
theorem foldl_largerMeasured (found : Option Measured) (candidates : List (Option Measured))
    (value : UInt32) :
    (candidates.foldl largerMeasured found).map (·.value) = some value ↔
      IsLargest (found :: candidates) value := by
  induction candidates generalizing found with
  | nil =>
      cases found with
      | none =>
          have hnone : ¬IsLargest [none] value := by
            rintro ⟨⟨measured, hmem, -⟩, -⟩
            simp at hmem
          simpa using hnone
      | some measured =>
          constructor
          · intro hvalue
            obtain rfl := Option.some.inj hvalue
            exact ⟨⟨measured, List.mem_cons_self, rfl⟩, by simp⟩
          · rintro ⟨⟨other, hother, rfl⟩, -⟩
            obtain rfl : other = measured := by simpa using hother
            rfl
  | cons candidate others ih => rw [List.foldl_cons, ih, isLargest_largerMeasured]

/-- The value that a trigger measured is the largest one of its groups. -/
theorem measured?_evaluate_iff (trigger : Trigger) (value : UInt32) :
    trigger.evaluate.2.measured?.map (·.value) = some value ↔
      IsLargest (trigger.groups.map fun group => group.evaluate.measured?) value := by
  rw [measured?_evaluate, foldl_largerMeasured]
  apply isLargest_congr
  simp

/-! ## Groups in other places -/

/-- The right trigger has each group of the left one, in the place that the left place leads to. -/
def Rearranged (places : Equiv.Perm ℕ) (left right : Trigger) : Prop :=
  ∀ place, right.groups[places place]? = left.groups[place]?

namespace Rearranged

variable {places : Equiv.Perm ℕ} {left right : Trigger}

theorem mem_groups_iff (hrearranged : left.Rearranged places right) (group : Group) :
    group ∈ right.groups ↔ group ∈ left.groups := by
  simp only [List.mem_iff_getElem?]
  constructor
  · rintro ⟨place, hplace⟩
    refine ⟨places.symm place, ?_⟩
    rw [← hrearranged, places.apply_symm_apply, hplace]
  · rintro ⟨place, hplace⟩
    exact ⟨places place, by rw [hrearranged, hplace]⟩

theorem any_groups (hrearranged : left.Rearranged places right) (observe : Group → Bool) :
    right.groups.any observe = left.groups.any observe := by
  rw [Bool.eq_iff_iff, List.any_eq_true, List.any_eq_true]
  simp only [hrearranged.mem_groups_iff]

/-- Two groups stay two groups wherever they are. -/
theorem alternates_ne_nil (hrearranged : left.Rearranged places right)
    (halternates : left.alternates ≠ []) : right.alternates ≠ [] := by
  intro hnone
  have halone := right.alternates_eq_nil_iff.mp hnone
  have honly (place : ℕ) (hplace : place < left.groups.length) : places place = 0 := by
    have hfound := hrearranged place
    rw [List.getElem?_eq_getElem hplace] at hfound
    have hlt := (List.getElem?_eq_some_iff.mp hfound).1
    rwa [halone, Nat.lt_one_iff] at hlt
  have hmany : 1 < left.groups.length := by
    rw [groups, List.length_cons, Nat.lt_add_left_iff_pos]
    exact List.length_pos_iff.mpr halternates
  have hsame : places 0 = places 1 := by
    rw [honly 0 (Nat.zero_lt_of_lt hmany), honly 1 hmany]
  exact Nat.zero_ne_one (places.injective hsame)

/-- Groups that change by themselves keep their places. -/
theorem of_groups_map {leftAfter rightAfter : Trigger} (hrearranged : left.Rearranged places right)
    (change : Group → Group) (hleft : leftAfter.groups = left.groups.map change)
    (hright : rightAfter.groups = right.groups.map change) :
    leftAfter.Rearranged places rightAfter := by
  intro place
  rw [hleft, hright, List.getElem?_map, List.getElem?_map, hrearranged]

theorem advance (hrearranged : left.Rearranged places right) (frame : Frame) :
    (left.advance frame).Rearranged places (right.advance frame) :=
  hrearranged.of_groups_map (·.advance frame) rfl rfl

/-- Among alternates it does not matter which of the groups is the core. -/
theorem decides (hrearranged : left.Rearranged places right) (halternates : left.alternates ≠ [])
    (holds : GroupOutcome → Bool) : right.decides holds = left.decides holds := by
  have hright := hrearranged.alternates_ne_nil halternates
  rw [Trigger.decides, Trigger.decides, if_neg (by simpa using hright),
    if_neg (by simpa using halternates), hrearranged.any_groups]

theorem wasReset_evaluate (hrearranged : left.Rearranged places right) :
    right.evaluate.1.wasReset = left.evaluate.1.wasReset := by
  rw [Trigger.wasReset_evaluate, Trigger.wasReset_evaluate, hrearranged.any_groups]

theorem evaluate (hrearranged : left.Rearranged places right) :
    left.evaluate.2.Rearranged places right.evaluate.2 := by
  have hright := groups_evaluate right
  rw [hrearranged.wasReset_evaluate] at hright
  exact hrearranged.of_groups_map _ (groups_evaluate left) hright

theorem outcome_evaluate (hrearranged : left.Rearranged places right)
    (halternates : left.alternates ≠ []) : right.evaluate.1 = left.evaluate.1 := by
  have hreset := hrearranged.wasReset_evaluate
  have hresult : right.evaluate.1.result = left.evaluate.1.result := by
    rw [result_evaluate, result_evaluate, hreset, hrearranged.decides halternates]
  have hdirty : right.evaluate.1.dirty = left.evaluate.1.dirty := by
    rw [dirty_evaluate, dirty_evaluate, hreset, hrearranged.any_groups]
  calc right.evaluate.1
      = ⟨right.evaluate.1.result, right.evaluate.1.dirty, right.evaluate.1.wasReset⟩ := rfl
    _ = left.evaluate.1 := by rw [hresult, hdirty, hreset]

theorem primed_evaluate (hrearranged : left.Rearranged places right)
    (halternates : left.alternates ≠ []) : right.evaluate.2.primed = left.evaluate.2.primed := by
  rw [Trigger.primed_evaluate, Trigger.primed_evaluate, hrearranged.wasReset_evaluate,
    hrearranged.outcome_evaluate halternates, hrearranged.decides halternates,
    hrearranged.any_groups]

/-- The first of two groups that measured the same may be another one, but the value is the same. -/
theorem value_measured?_evaluate (hrearranged : left.Rearranged places right) :
    right.evaluate.2.measured?.map (·.value) = left.evaluate.2.measured?.map (·.value) := by
  apply Option.ext
  intro value
  rw [measured?_evaluate_iff, measured?_evaluate_iff]
  apply isLargest_congr
  intro measured
  simp only [List.mem_map, hrearranged.mem_groups_iff]

theorem after (hrearranged : left.Rearranged places right) (frames : List Frame) :
    (left.after frames).Rearranged places (right.after frames) := by
  induction frames generalizing left right with
  | nil => exact hrearranged
  | cons frame later ih => exact ih (hrearranged.advance frame).evaluate

end Rearranged

theorem length_groups_after (trigger : Trigger) (frames : List Frame) :
    (trigger.after frames).groups.length = trigger.groups.length := by
  rw [after]
  apply Run.after_of_keeps (fun state : Trigger => state.groups.length = trigger.groups.length)
  · intro state frame _ hsame
    rw [test, groups_evaluate, List.length_map, ← hsame]
    simp only [advance, mapGroups, groups, List.length_cons, List.length_map]
  · rfl

/-- Two triggers with the same groups in different places report the same of every frame of every
run, the targets of their progress aside, and their groups keep their places. -/
theorem test_rearranged {places : Equiv.Perm ℕ} {left right : Trigger}
    (halternates : left.alternates ≠ []) (hrearranged : left.Rearranged places right)
    (earlier : List Frame) (frame : Frame) :
    let leftFrame := (left.after earlier).test frame
    let rightFrame := (right.after earlier).test frame
    rightFrame.1 = leftFrame.1 ∧ rightFrame.2.primed = leftFrame.2.primed ∧
      rightFrame.2.measured?.map (·.value) = leftFrame.2.measured?.map (·.value) ∧
      leftFrame.2.Rearranged places rightFrame.2 := by
  have hadvanced := (hrearranged.after earlier).advance frame
  have hmany : ((left.after earlier).advance frame).alternates ≠ [] := by
    have hafter : (left.after earlier).alternates ≠ [] := by
      rwa [Ne, alternates_eq_nil_iff, length_groups_after, ← alternates_eq_nil_iff]
    exact mt List.map_eq_nil_iff.mp hafter
  exact ⟨hadvanced.outcome_evaluate hmany, hadvanced.primed_evaluate hmany,
    hadvanced.value_measured?_evaluate, hadvanced.evaluate⟩

/-- Two groups that measure the same hits on the way to different targets, and a pause. -/
def farFirst : Trigger :=
  { core := ⟨[(onByte (.check .measured) 0 7 9).withHits 2]⟩
    alternates := [
      ⟨[(onByte (.check .measured) 1 7 5).withHits 2]⟩,
      ⟨[onByte (.guard .pauseIf) 2 6 0, onByte (.check .trigger) 3 6 0]⟩] }

/-- The same groups, with the nearer target in the core. -/
def nearFirst : Trigger :=
  { core := ⟨[(onByte (.check .measured) 1 7 5).withHits 2]⟩
    alternates := [
      ⟨[(onByte (.check .measured) 0 7 9).withHits 2]⟩,
      ⟨[onByte (.guard .pauseIf) 2 6 0, onByte (.check .trigger) 3 6 0]⟩] }

theorem test_rearranged_nearFirst :
    farFirst.Rearranged (Equiv.swap 0 1) nearFirst ∧
      ((nearFirst.after [sevens]).test sevens).1 = ((farFirst.after [sevens]).test sevens).1 ∧
      ((nearFirst.after [sevens]).test sevens).2.primed =
        ((farFirst.after [sevens]).test sevens).2.primed ∧
      ((nearFirst.after [sevens]).test sevens).2.measured?.map (·.value) =
        ((farFirst.after [sevens]).test sevens).2.measured?.map (·.value) ∧
      ((farFirst.after [sevens]).test sevens).2.Rearranged (Equiv.swap 0 1)
        ((nearFirst.after [sevens]).test sevens).2 := by
  have hrearranged : farFirst.Rearranged (Equiv.swap 0 1) nearFirst := by
    rintro (_ | _ | place)
    · rw [Equiv.swap_apply_left]
      rfl
    · rw [Equiv.swap_apply_right]
      rfl
    · rw [Equiv.swap_apply_of_ne_of_ne (by omega) (by omega)]
      rfl
  exact ⟨hrearranged, test_rearranged (by decide) hrearranged [sevens] sevens⟩

end AchievementLogic.Trigger
