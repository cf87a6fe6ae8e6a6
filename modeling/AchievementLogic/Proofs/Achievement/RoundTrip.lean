import AchievementLogic.Proofs.Achievement.Restoring

/-!
# The round trip of saved progress

Progress goes through its text without loss.  The number of groups is not written down: reading
goes on as long as the number of the achievement stands there again, so the digest that ends the
groups must not begin like a group.  A digest with a letter in it never does.
-/

namespace AchievementLogic.Achievement

/-- What one achievement saved is put into another one of the same number and the same conditions,
in front of any other text.  The count of a group's conditions is read into a word, so no group may
have more of them than a word counts; `restoreProgress_of_large_group` says that it has to be so. -/
theorem restoreProgress_saveProgress_append {saved other : Achievement} {user : String}
    (hid : other.id = saved.id) (hsame : other.trigger.fresh = saved.trigger.fresh)
    (hcount : ∀ group ∈ saved.trigger.groups, group.size < 2 ^ 32)
    (hletter : (userDigest user saved.groupsText saved.id).toList.all Char.isDigit = false)
    (suffix : String) :
    let restored := other.restoreProgress (saved.saveProgress user ++ suffix) user
    restored.1 = suffix ∧ restored.2.savedGroups = saved.savedGroups ∧
      restored.2.saveProgress user = saved.saveProgress user := by
  have hgroups := savedGroups_restoreTrigger hsame
  have hdefinition :
      definition { other with trigger := restoreTrigger saved.savedGroups other.trigger } =
        saved.definition :=
    definition_congr (fresh_restoreTrigger hsame)
  rw [restoreProgress_saved hid hsame hcount hletter]
  refine ⟨rfl, hgroups, ?_⟩
  apply saveProgress_congr _ hgroups hdefinition
  exact hid

/-- Progress of a measured condition past its target, with an empty alternate beside it. -/
def measuredPastTarget : Achievement :=
  { id := 7
    trigger :=
      { core := ⟨[{ role := .check .measured
                    source := .memory ⟨.delta, .byte, 0x12, ⟨5, 3, 1⟩⟩
                    comparison? := some .less
                    target := .word 9
                    requiredHits := 5
                    hits := 8 }]⟩
        alternates := [⟨[]⟩] } }

def unplayed : Achievement :=
  { measuredPastTarget with trigger := measuredPastTarget.trigger.fresh }

theorem restoreProgress_measuredPastTarget :
    let restored :=
      unplayed.restoreProgress (measuredPastTarget.saveProgress "user" ++ "7:0:") "user"
    restored.1 = "7:0:" ∧ restored.2.savedGroups = measuredPastTarget.savedGroups ∧
      restored.2.saveProgress "user" = measuredPastTarget.saveProgress "user" := by
  have hid : unplayed.id = measuredPastTarget.id := rfl
  have hsame : unplayed.trigger.fresh = measuredPastTarget.trigger.fresh := rfl
  have hcount : ∀ group ∈ measuredPastTarget.trigger.groups, group.size < 2 ^ 32 := by decide
  have hletter : (userDigest "user" measuredPastTarget.groupsText
      measuredPastTarget.id).toList.all Char.isDigit = false := by decide +kernel
  exact restoreProgress_saveProgress_append hid hsame hcount hletter "7:0:"

/-- The bound on the conditions of a group is needed: with a larger group no text at all is accepted
as progress, and restoring does nothing but clear the hits at the most. -/
theorem restoreProgress_of_large_group {achievement : Achievement} {group : Group}
    (hgroup : group ∈ achievement.trigger.groups) (hlarge : 2 ^ 32 ≤ group.size)
    (input user : String) :
    (achievement.restoreProgress input user).2 = achievement ∨
      (achievement.restoreProgress input user).2 = achievement.reset := by
  rw [restoreProgress]
  cases hread : SavedProgress.read? achievement.id input with
  | none => exact Or.inl rfl
  | some saved =>
      right
      have hshape : sameShape saved.groups achievement.trigger = false := by
        by_contra hsame
        have hsizes : saved.groups.map List.length = achievement.trigger.groups.map Group.size := by
          simpa [sameShape] using hsame
        have hmem : group.size ∈ saved.groups.map List.length := by
          rw [hsizes]
          exact List.mem_map_of_mem hgroup
        obtain ⟨conditions, hconditions, hsize⟩ := List.mem_map.mp hmem
        have hlt := length_lt_of_read? hread conditions hconditions
        omega
      simp [accepts, hshape]

end AchievementLogic.Achievement
