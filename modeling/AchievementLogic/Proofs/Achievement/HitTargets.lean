import AchievementLogic.Proofs.Achievement.Resuming
import AchievementLogic.Proofs.Achievement.RoundTrip
import AchievementLogic.Proofs.Trigger.HitCounts
import AchievementLogic.Proofs.Trigger.Printing

/-!
# Hits of an achievement

Whatever is done with an achievement, its hits stay within their targets.  That includes progress
that is read back: what a text gives away of the number of its groups is not decisive, since a text
that another number of groups is read from is turned down.
-/

namespace AchievementLogic

/-! ## What is read back -/

theorem Group.HitsInBounds.recalled {group : Group} (hbounds : group.HitsInBounds) :
    group.recalled.HitsInBounds := by
  apply hitsInBounds_of_map_bare_eq hbounds
  rw [Group.recalled, List.map_map]
  rfl

namespace Achievement

open Text

/-- The groups that were saved are read first, whatever follows them. -/
theorem savedGroups_read_first {saved : Achievement} {user suffix : String}
    {found : SavedProgress} (hcount : ∀ group ∈ saved.trigger.groups, group.size < 2 ^ 32)
    (hread : SavedProgress.read? saved.id (saved.saveProgress user ++ suffix) = some found) :
    saved.savedGroups <+: found.groups := by
  have hspells := spellsGroups_groupsText hcount
  have hbytes := saved.bytesOf_saveProgress_append user suffix
  have hle : saved.savedGroups.length ≤ (bytesOf (saved.saveProgress user ++ suffix)).length := by
    rw [hbytes, List.length_append]
    exact hspells.length_le.trans (Nat.le_add_right _ _)
  obtain ⟨rounds, hrounds⟩ := Nat.exists_eq_add_of_le hle
  obtain ⟨after, hgroups⟩ := readGroups_of_read? hread
  rw [hrounds, hbytes, readGroups_spelled hspells] at hgroups
  obtain ⟨⟨more, last⟩, -, hfound⟩ := Option.map_eq_some_iff.mp hgroups
  exact ⟨more, (Prod.mk.inj hfound).1⟩

/-- Nothing but the groups that were saved has the shape of the achievement. -/
theorem groups_eq_savedGroups {saved other : Achievement} {user suffix : String}
    {found : SavedProgress} (hsame : other.trigger.fresh = saved.trigger.fresh)
    (hcount : ∀ group ∈ saved.trigger.groups, group.size < 2 ^ 32)
    (hread : SavedProgress.read? saved.id (saved.saveProgress user ++ suffix) = some found)
    (hshape : sameShape found.groups other.trigger = true) :
    found.groups = saved.savedGroups := by
  have hlength : saved.savedGroups.length = found.groups.length := by
    calc saved.savedGroups.length
      _ = saved.trigger.groups.length := by rw [savedGroups, List.length_map]
      _ = other.trigger.groups.length := by
        simpa using congrArg List.length (sizes_congr hsame.symm)
      _ = found.groups.length := (length_of_sameShape hshape).symm
  exact ((savedGroups_read_first hcount hread).eq_of_length hlength).symm

/-- Saved progress is taken in full, or not at all. -/
theorem restoreProgress_saveProgress_cases {saved other : Achievement}
    (hid : other.id = saved.id) (hsame : other.trigger.fresh = saved.trigger.fresh)
    (writer reader suffix : String) :
    (other.restoreProgress (saved.saveProgress writer ++ suffix) reader).2 = other ∨
      (other.restoreProgress (saved.saveProgress writer ++ suffix) reader).2 = other.reset ∨
      (other.restoreProgress (saved.saveProgress writer ++ suffix) reader).2 =
        { other with trigger := restoreTrigger saved.savedGroups other.trigger } := by
  by_cases hsmall : ∀ group ∈ other.trigger.groups, group.size < 2 ^ 32
  · have hcount := size_lt_of_fresh_eq hsame hsmall
    rw [restoreProgress, hid]
    cases hread : SavedProgress.read? saved.id (saved.saveProgress writer ++ suffix) with
    | none => exact .inl rfl
    | some found =>
        simp only
        split
        case isFalse => exact .inr (.inl rfl)
        case isTrue haccepts =>
          have hshape : sameShape found.groups other.trigger = true := by
            rw [accepts, Bool.and_eq_true] at haccepts
            exact haccepts.2
          right
          right
          rw [groups_eq_savedGroups hsame hcount hread hshape]
  · push Not at hsmall
    obtain ⟨group, hgroup, hsize⟩ := hsmall
    rcases restoreProgress_of_large_group hgroup hsize _ reader with hkept | hreset
    · exact .inl hkept
    · exact .inr (.inl hreset)

/-! ## Runs -/

/-- What becomes of an achievement by testing, resetting and restoring what it saved in such a run,
perhaps for another user and in front of other text. -/
inductive Reached (start : Achievement) : Achievement → Prop
  | start : Reached start start
  | test {achievement : Achievement} (hbefore : Reached start achievement) (frame : Frame) :
      Reached start (achievement.test frame).2
  | reset {achievement : Achievement} (hbefore : Reached start achievement) :
      Reached start achievement.reset
  | restore {achievement saved : Achievement} (hbefore : Reached start achievement)
      (hsaved : Reached start saved) (writer reader suffix : String) :
      Reached start
        (achievement.restoreProgress (saved.saveProgress writer ++ suffix) reader).2

/-- All that is reached has the number and the conditions it began with. -/
theorem Reached.id_and_fresh {start achievement : Achievement}
    (hreached : Reached start achievement) :
    achievement.id = start.id ∧ achievement.trigger.fresh = start.trigger.fresh := by
  induction hreached with
  | start => exact ⟨rfl, rfl⟩
  | test hbefore frame ih => exact ⟨ih.1, (Trigger.fresh_test _ frame).trans ih.2⟩
  | reset hbefore ih => exact ⟨ih.1, (Trigger.fresh_reset _).trans ih.2⟩
  | @restore achievement saved hbefore hsaved writer reader suffix ih ihsaved =>
      have hid : achievement.id = saved.id := ih.1.trans ihsaved.1.symm
      have hsame : achievement.trigger.fresh = saved.trigger.fresh := ih.2.trans ihsaved.2.symm
      rcases restoreProgress_saveProgress_cases hid hsame writer reader suffix with
        hkept | hreset | hrestored
      · rw [hkept]
        exact ih
      · rw [hreset]
        exact ⟨ih.1, (Trigger.fresh_reset _).trans ih.2⟩
      · rw [hrestored]
        exact ⟨ih.1, (fresh_restoreTrigger hsame).trans ihsaved.2⟩

/-- Whatever is done with an achievement, its hits stay within their bounds: each step of the run is
one case. -/
theorem Reached.hitsInBounds {start achievement : Achievement}
    (hstart : start.trigger.HitsInBounds) (hreached : Reached start achievement) :
    achievement.trigger.HitsInBounds := by
  induction hreached with
  | start => exact hstart
  | test hbefore frame ih => exact ih.test frame
  | reset hbefore ih => exact Trigger.hitsInBounds_reset _
  | @restore achievement saved hbefore hsaved writer reader suffix ih ihsaved =>
      obtain ⟨hid, hsame⟩ := hbefore.id_and_fresh
      obtain ⟨hsavedId, hsavedSame⟩ := hsaved.id_and_fresh
      rcases restoreProgress_saveProgress_cases (hid.trans hsavedId.symm)
        (hsame.trans hsavedSame.symm) writer reader suffix with hkept | hreset | hrestored
      · rw [hkept]
        exact ih
      · rw [hreset]
        exact Trigger.hitsInBounds_reset _
      · rw [hrestored, Trigger.HitsInBounds,
          groups_restoreTrigger (hsame.trans hsavedSame.symm)]
        exact List.forall_mem_map.mpr fun group hmem => (ihsaved group hmem).recalled

/-- No condition that is read from a text begins with hits. -/
theorem hitsInBounds_ofText (id : UInt32) (text : String) :
    (ofText id text).trigger.HitsInBounds := by
  rw [ofText]
  simp only
  split
  case h_1 trigger hread =>
    have hisRead := Trigger.ensures_read.readAll hread
    intro group hgroup
    apply Group.hitsInBounds_of_hits_eq_zero
    intro condition hcondition
    rw [← (hisRead.conditions group hgroup condition hcondition).fresh]
    rfl
  case h_2 =>
    intro group hgroup
    rw [List.mem_singleton.mp hgroup]
    apply Group.hitsInBounds_of_hits_eq_zero
    intro condition hcondition
    cases hcondition

/-- However an achievement by a text is tested, reset and restored, no condition is hit more often
than it asks for, and modifiers and conditions after the last terminal of their group are not hit at
all. -/
theorem hitsInBounds_of_reached {id : UInt32} {text : String} {achievement : Achievement}
    (hreached : Reached (ofText id text) achievement) :
    ∀ group ∈ achievement.trigger.groups, group.HitsInBounds :=
  hreached.hitsInBounds (hitsInBounds_ofText id text)

/-- A sum that is asked for twice, and a condition after it that is never looked at. -/
def sumText : String := "A:0xH0000_0xH0001=2.2._C:0xH0002=1"

def sumPlay : List Action := List.replicate 3 (.test (filledFrame 1))

theorem hitsInBounds_of_reached_sumText :
    let restored := ((ofText 7 sumText).restoreProgress
      (((ofText 7 sumText).play sumPlay).saveProgress "user" ++ "") "user").2
    (∀ group ∈ restored.trigger.groups, group.HitsInBounds) ∧
      restored.trigger.hits = [[0, 2, 0]] := by
  have hsaved : Reached (ofText 7 sumText) ((ofText 7 sumText).play sumPlay) :=
    .test (.test (.test .start (filledFrame 1)) (filledFrame 1)) (filledFrame 1)
  constructor
  · exact hitsInBounds_of_reached (.restore .start hsaved "user" "user" "")
  · decide +kernel

end Achievement

end AchievementLogic
