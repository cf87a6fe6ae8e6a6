import AchievementLogic.Proofs.Achievement.SavedText
import AchievementLogic.Proofs.Trigger.Printing

/-!
# Restoring what was saved

Two achievements have the same definition if they differ only in what their conditions remember.
Progress that one of them saved is accepted by the other, and puts its hits and its saved readings
there; the text after the progress is returned untouched.
-/

namespace AchievementLogic

namespace Achievement

open Text

/-! ## The saved text as a whole -/

def groupsText (achievement : Achievement) : String :=
  String.join (achievement.savedGroups.map (groupText achievement.id))

theorem saveProgress_eq (achievement : Achievement) (user : String) :
    achievement.saveProgress user =
      achievement.groupsText ++ userDigest user achievement.groupsText achievement.id ++ ":" ++
        achievement.definitionDigest ++ ":" := rfl

theorem bytesOf_saveProgress_append (achievement : Achievement) (user suffix : String) :
    bytesOf (achievement.saveProgress user ++ suffix) =
      bytesOf achievement.groupsText ++
        (bytesOf (userDigest user achievement.groupsText achievement.id) ++
          58 :: (bytesOf achievement.definitionDigest ++ 58 :: bytesOf suffix)) := by
  simp [saveProgress_eq, bytesOf_append, bytesOf_colon]

theorem length_savedGroups_lt {achievement : Achievement}
    (hcount : ∀ group ∈ achievement.trigger.groups, group.size < 2 ^ 32) :
    ∀ conditions ∈ achievement.savedGroups, conditions.length < 2 ^ 32 := by
  intro conditions hmem
  obtain ⟨group, hgroup, rfl⟩ := List.mem_map.mp hmem
  simpa [Group.size] using hcount group hgroup

theorem spellsGroups_groupsText {achievement : Achievement}
    (hcount : ∀ group ∈ achievement.trigger.groups, group.size < 2 ^ 32) :
    SpellsGroups achievement.id (bytesOf achievement.groupsText) achievement.savedGroups :=
  spellsGroups_text achievement.id (length_savedGroups_lt hcount)

theorem savedGroups_ne_nil (achievement : Achievement) : achievement.savedGroups ≠ [] := by
  simp [savedGroups, Trigger.groups]

/-- The parts of the saved text and what follows it. -/
def progressWith (achievement : Achievement) (user suffix : String) : SavedProgress :=
  { groups := achievement.savedGroups
    groupsText := achievement.groupsText
    userDigest := userDigest user achievement.groupsText achievement.id
    definitionDigest := achievement.definitionDigest
    rest := suffix }

/-- Progress is read back from the front of any text. -/
theorem read?_saveProgress {achievement : Achievement} {user : String}
    (hcount : ∀ group ∈ achievement.trigger.groups, group.size < 2 ^ 32)
    (hletter : (userDigest user achievement.groupsText achievement.id).toList.all Char.isDigit =
      false)
    (suffix : String) :
    SavedProgress.read? achievement.id (achievement.saveProgress user ++ suffix) =
      some (achievement.progressWith user suffix) := by
  rw [saveProgress_eq]
  exact read?_spelled (spellsGroups_groupsText hcount) achievement.savedGroups_ne_nil hletter
    achievement.definition suffix

end Achievement

/-! ## Conditions that were saved and restored -/

/-- A saved condition keeps its hits and two readings of each operand; the reading before becomes
the last different one. -/
def Operand.recalled (operand : Operand) : Operand :=
  operand.restoreReadings operand.savedReadings.1 operand.savedReadings.2

theorem Operand.savedReadings_recalled (operand : Operand) :
    operand.recalled.savedReadings = operand.savedReadings := by
  cases operand <;> rfl

theorem Operand.visible_recalled {operand : Operand} (hprior : operand.showsPrior = false) :
    operand.recalled.visible = operand.visible := by
  cases operand with
  | memory inner =>
      have haccess : inner.access ≠ .prior := by simpa [showsPrior] using hprior
      simp [recalled, restoreReadings, savedReadings, visible, MemoryOperand.visible, haccess]
  | word value => rfl
  | float number => rfl

theorem Operand.restoreReadings_congr {left right : Operand} (hsame : left.fresh = right.fresh)
    (current previous : UInt32) :
    left.restoreReadings current previous = right.restoreReadings current previous := by
  have hfresh (operand : Operand) :
      operand.fresh.restoreReadings current previous =
        operand.restoreReadings current previous := by
    cases operand <;> rfl
  rw [← hfresh left, hsame, hfresh right]

def Condition.recalled (condition : Condition) : Condition :=
  { condition with source := condition.source.recalled, target := condition.target.recalled }

@[simp]
theorem Condition.fresh_recalled (condition : Condition) :
    condition.recalled.fresh = condition.fresh := by
  simp [recalled, fresh, Operand.recalled]

def Group.recalled (group : Group) : Group := ⟨group.conditions.map Condition.recalled⟩

namespace Achievement

theorem SavedCondition.ofCondition_recalled (condition : Condition) :
    ofCondition condition.recalled = ofCondition condition := by
  simp [ofCondition, Condition.recalled, Operand.savedReadings_recalled]

theorem SavedCondition.restore_ofCondition {saved other : Condition}
    (hsame : other.fresh = saved.fresh) : (ofCondition saved).restore other = saved.recalled := by
  obtain ⟨role, source, comparison?, target, requiredHits, hits⟩ := saved
  obtain ⟨role₂, source₂, comparison₂?, target₂, requiredHits₂, hits₂⟩ := other
  simp only [Condition.fresh, Condition.mk.injEq] at hsame
  obtain ⟨rfl, hsource, rfl, htarget, rfl, -⟩ := hsame
  simp [restore, ofCondition, Condition.recalled, Operand.recalled,
    Operand.restoreReadings_congr hsource, Operand.restoreReadings_congr htarget]

/-- What was saved of a group makes any group of the same definition the saved one again, as far as
saving recalls it. -/
theorem restoreGroup_savedConditions {saved other : Group} (hsame : other.fresh = saved.fresh) :
    restoreGroup (saved.conditions.map SavedCondition.ofCondition) other = saved.recalled := by
  obtain ⟨conditions⟩ := saved
  obtain ⟨others⟩ := other
  replace hsame : others.map Condition.fresh = conditions.map Condition.fresh := by
    simpa [Group.fresh] using hsame
  simp only [restoreGroup, Group.recalled, Group.mk.injEq]
  induction conditions generalizing others with
  | nil => rfl
  | cons head tail ih =>
      cases others with
      | nil => simp at hsame
      | cons first rest =>
          obtain ⟨hfirst, hrest⟩ := List.cons.inj hsame
          simp [SavedCondition.restore_ofCondition hfirst, ih rest hrest]

/-- What one trigger saved makes another one of the same definition remember the same. -/
theorem groups_restoreTrigger {saved : Achievement} {other : Trigger}
    (hsame : other.fresh = saved.trigger.fresh) :
    (restoreTrigger saved.savedGroups other).groups =
      saved.trigger.groups.map Group.recalled := by
  have hcore : other.core.fresh = saved.trigger.core.fresh := congrArg Trigger.core hsame
  have halternates : other.alternates.map Group.fresh =
      saved.trigger.alternates.map Group.fresh := congrArg Trigger.alternates hsame
  simp only [savedGroups, Trigger.groups, List.map_cons, restoreTrigger,
    restoreGroup_savedConditions hcore, List.cons.injEq, true_and]
  generalize saved.trigger.alternates = alternates at halternates
  generalize other.alternates = others at halternates
  induction alternates generalizing others with
  | nil => rfl
  | cons head tail ih =>
      cases others with
      | nil => simp at halternates
      | cons first rest =>
          obtain ⟨hfirst, hrest⟩ := List.cons.inj halternates
          simp [restoreGroup_savedConditions hfirst, ih rest hrest]

theorem fresh_restoreTrigger {saved : Achievement} {other : Trigger}
    (hsame : other.fresh = saved.trigger.fresh) :
    (restoreTrigger saved.savedGroups other).fresh = saved.trigger.fresh := by
  have hrecalled (group : Group) : group.recalled.fresh = group.fresh := by
    simp [Group.recalled, Group.fresh]
  rw [Trigger.fresh_eq_iff, groups_restoreTrigger hsame, List.map_map]
  exact List.map_congr_left fun group _ => hrecalled group

theorem savedGroups_restoreTrigger {saved other : Achievement}
    (hsame : other.trigger.fresh = saved.trigger.fresh) :
    savedGroups { other with trigger := restoreTrigger saved.savedGroups other.trigger } =
      saved.savedGroups := by
  simp only [savedGroups]
  rw [← savedGroups, groups_restoreTrigger hsame, List.map_map]
  apply List.map_congr_left
  intro group _
  simp [Group.recalled, SavedCondition.ofCondition_recalled]

/-! ## Accepting saved progress -/

theorem definition_congr {left right : Achievement}
    (hsame : left.trigger.fresh = right.trigger.fresh) : left.definition = right.definition := by
  rw [definition, definition, ← Trigger.text_fresh, hsame, Trigger.text_fresh]

/-- Saved progress shows of an achievement its number, what it saves of its groups and its
definition. -/
theorem saveProgress_congr {left right : Achievement} (hid : left.id = right.id)
    (hgroups : left.savedGroups = right.savedGroups)
    (hdefinition : left.definition = right.definition) (user : String) :
    left.saveProgress user = right.saveProgress user := by
  simp only [saveProgress, definitionDigest, hid, hgroups, hdefinition]

theorem sizes_congr {left right : Trigger} (hsame : left.fresh = right.fresh) :
    left.groups.map Group.size = right.groups.map Group.size := by
  have hsizes (trigger : Trigger) :
      (trigger.groups.map Group.fresh).map Group.size = trigger.groups.map Group.size := by
    simp [Function.comp_def, Group.size_fresh]
  rw [← hsizes left, Trigger.fresh_eq_iff.mp hsame, hsizes right]

theorem size_lt_of_fresh_eq {left right : Trigger} (hsame : left.fresh = right.fresh)
    (hcount : ∀ group ∈ left.groups, group.size < 2 ^ 32) :
    ∀ group ∈ right.groups, group.size < 2 ^ 32 := by
  intro group hgroup
  have hmem : group.size ∈ left.groups.map Group.size := by
    rw [sizes_congr hsame]
    exact List.mem_map_of_mem hgroup
  obtain ⟨twin, htwin, hsize⟩ := List.mem_map.mp hmem
  rw [← hsize]
  exact hcount twin htwin

theorem length_of_sameShape {groups : List (List SavedCondition)} {trigger : Trigger}
    (hshape : sameShape groups trigger = true) : groups.length = trigger.groups.length := by
  have hsizes : groups.map List.length = trigger.groups.map Group.size := eq_of_beq hshape
  simpa using congrArg List.length hsizes

theorem accepts_progressWith {saved other : Achievement} (hid : other.id = saved.id)
    (hsame : other.trigger.fresh = saved.trigger.fresh) (user suffix : String) :
    other.accepts user (saved.progressWith user suffix) = true := by
  have hshape : sameShape saved.savedGroups other.trigger = true := by
    simp [sameShape, sizes_congr hsame, savedGroups, Group.size, Function.comp_def]
  have hdigest : saved.definitionDigest = other.definitionDigest := by
    rw [definitionDigest, definitionDigest, definition_congr hsame]
  simp [accepts, progressWith, hid, hshape, hdigest]

/-- Saved progress is taken from the front of a text by every achievement with the same number and
definition. -/
theorem restoreProgress_saved {saved other : Achievement} {user : String}
    (hid : other.id = saved.id) (hsame : other.trigger.fresh = saved.trigger.fresh)
    (hcount : ∀ group ∈ saved.trigger.groups, group.size < 2 ^ 32)
    (hletter : (userDigest user saved.groupsText saved.id).toList.all Char.isDigit = false)
    (suffix : String) :
    other.restoreProgress (saved.saveProgress user ++ suffix) user =
      (suffix, { other with trigger := restoreTrigger saved.savedGroups other.trigger }) := by
  rw [restoreProgress, hid, read?_saveProgress hcount hletter]
  simp only
  rw [if_pos (accepts_progressWith hid hsame user suffix)]
  rfl

end Achievement

end AchievementLogic
