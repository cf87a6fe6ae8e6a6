import AchievementLogic.Proofs.Achievement.RoundTrip
import Mathlib.Data.Set.Function

/-!
# Progress that is not accepted

The first digest of saved progress is that of one text, in which the name of the user stands before
and after the groups.  Nothing separates these parts, and still the text determines the user if the
groups are known, and the groups if the user is.  So as long as the digest tells the texts apart
that are digested, progress is turned down by every other user, and after any change of its groups.
-/

namespace AchievementLogic.Achievement

open Text

/-! ## What the digest of the user is taken of -/

def signedText (user groups : String) (id : UInt32) : String :=
  user ++ groups ++ user ++ toString id.toNat

theorem userDigest_eq_hexDigest (user groups : String) (id : UInt32) :
    userDigest user groups id = Md5.hexDigest (signedText user groups id) := rfl

/-- The name stands there twice, so that its length is known before it is. -/
theorem user_eq_of_signedText_eq {left right groups : String} {id : UInt32}
    (heq : signedText left groups id = signedText right groups id) : left = right := by
  have hletters : left.toList ++ (groups ++ left ++ toString id.toNat).toList =
      right.toList ++ (groups ++ right ++ toString id.toNat).toList := by
    simpa [signedText, String.append_assoc] using congrArg String.toList heq
  have hlength : left.toList.length = right.toList.length := by
    have hall := congrArg List.length hletters
    simp only [String.toList_append, List.length_append] at hall
    omega
  exact String.toList_inj.mp (List.append_inj_left hletters hlength)

theorem groups_eq_of_signedText_eq {user left right : String} {id : UInt32}
    (heq : signedText user left id = signedText user right id) : left = right := by
  have hletters : user.toList ++ (left.toList ++ (user ++ toString id.toNat).toList) =
      user.toList ++ (right.toList ++ (user ++ toString id.toNat).toList) := by
    simpa [signedText, String.append_assoc] using congrArg String.toList heq
  exact String.toList_inj.mp
    (List.append_cancel_right (List.append_cancel_left hletters))

/-! ## Refusing -/

/-- What the achievement does with a text in front of `suffix` that holds progress which is not its
own: the text is taken, all hits are cleared, and no operand forgets anything. -/
structure Refuses (achievement : Achievement) (progress user suffix : String) : Prop where
  rest : (achievement.restoreProgress (progress ++ suffix) user).1 = suffix
  cleared : (achievement.restoreProgress (progress ++ suffix) user).2.trigger.IsCleared
  operands : (achievement.restoreProgress (progress ++ suffix) user).2.trigger.operands =
    achievement.trigger.operands

/-- The achievement turns down whole progress with the digest of another text than its own. -/
theorem refuses_of_read? {achievement : Achievement} {progress user suffix : String}
    {id : UInt32} {found : SavedProgress} (hid : achievement.id = id)
    (hread : SavedProgress.read? id (progress ++ suffix) = some found)
    (hrest : found.rest = suffix)
    (hdigest : found.userDigest ≠ userDigest user found.groupsText id) :
    achievement.Refuses progress user suffix := by
  have haccepts : achievement.accepts user found = false := by
    simp [accepts, hid, hdigest]
  have hrestored : achievement.restoreProgress (progress ++ suffix) user =
      (suffix, achievement.reset) := by
    rw [restoreProgress, hid, hread]
    simp [haccepts, hrest]
  constructor
  · rw [hrestored]
  · rw [hrestored]
    exact achievement.trigger.isCleared_reset
  · rw [hrestored]
    exact achievement.trigger.operands_reset

/-- The progress that was saved for a user, with other groups and the digests of before. -/
def progressWithGroups (achievement : Achievement) (groups user : String) : String :=
  groups ++ userDigest user achievement.groupsText achievement.id ++ ":" ++
    achievement.definitionDigest ++ ":"

/-- Progress of one user is refused for another one, since the first digest gives the user away. -/
theorem refuses_of_other_user {saved other : Achievement} {owner user : String}
    (hid : other.id = saved.id)
    (hletter : (userDigest owner saved.groupsText saved.id).toList.all Char.isDigit = false)
    (hcount : ∀ group ∈ saved.trigger.groups, group.size < 2 ^ 32) (huser : user ≠ owner)
    (hdistinct : Set.InjOn Md5.hexDigest
      {signedText owner saved.groupsText saved.id, signedText user saved.groupsText saved.id})
    (suffix : String) : other.Refuses (saved.saveProgress owner) user suffix := by
  have hread := read?_saveProgress hcount hletter suffix
  apply refuses_of_read? hid hread rfl
  intro hdigest
  have hsame : userDigest owner saved.groupsText saved.id =
      userDigest user saved.groupsText saved.id := hdigest
  rw [userDigest_eq_hexDigest, userDigest_eq_hexDigest] at hsame
  have htexts := Set.injOn_pair.mp hdistinct hsame
  exact huser (user_eq_of_signedText_eq htexts).symm

/-- Progress with other groups and the digests of before is refused, since the first digest was made
from the groups. -/
theorem refuses_of_other_groups {saved other : Achievement} {owner text : String}
    {groups : List (List SavedCondition)} (hid : other.id = saved.id)
    (hletter : (userDigest owner saved.groupsText saved.id).toList.all Char.isDigit = false)
    (hspells : SpellsGroups saved.id (bytesOf text) groups) (hsome : groups ≠ [])
    (htext : text ≠ saved.groupsText)
    (hdistinct : Set.InjOn Md5.hexDigest
      {signedText owner saved.groupsText saved.id, signedText owner text saved.id})
    (suffix : String) : other.Refuses (saved.progressWithGroups text owner) owner suffix := by
  have hread := read?_spelled hspells hsome hletter saved.definition suffix
  apply refuses_of_read? hid hread rfl
  intro hdigest
  have hsame : userDigest owner saved.groupsText saved.id =
      userDigest owner text saved.id := hdigest
  rw [userDigest_eq_hexDigest, userDigest_eq_hexDigest] at hsame
  have htexts := Set.injOn_pair.mp hdistinct hsame
  exact htext (groups_eq_of_signedText_eq htexts).symm

/-- Saved progress, in front of any text, is turned down by every achievement of the same number
for another user, and for the same user if any other groups of that number stand in place of those
that were saved.  The digest has to tell apart the two texts that are compared.  How the groups that
were saved are counted matters only where they are read back: a group with more conditions than a
word counts is not. -/
theorem refuses_taken_over_or_edited {saved other : Achievement} {owner : String}
    (hid : other.id = saved.id)
    (hletter : (userDigest owner saved.groupsText saved.id).toList.all Char.isDigit = false)
    (suffix : String) :
    (∀ user, user ≠ owner → (∀ group ∈ saved.trigger.groups, group.size < 2 ^ 32) →
      Set.InjOn Md5.hexDigest
        {signedText owner saved.groupsText saved.id, signedText user saved.groupsText saved.id} →
      other.Refuses (saved.saveProgress owner) user suffix) ∧
    ∀ text groups, SpellsGroups saved.id (bytesOf text) groups → groups ≠ [] →
      text ≠ saved.groupsText →
      Set.InjOn Md5.hexDigest
        {signedText owner saved.groupsText saved.id, signedText owner text saved.id} →
      other.Refuses (saved.progressWithGroups text owner) owner suffix := by
  constructor
  · intro user huser hcount hdistinct
    exact refuses_of_other_user hid hletter hcount huser hdistinct suffix
  · intro text groups hspells hsome htext hdistinct
    exact refuses_of_other_groups hid hletter hspells hsome htext hdistinct suffix

/-- A single group, with a hit more than `measuredPastTarget` has. -/
def editedGroups : List (List SavedCondition) := [[⟨9, (5, 3), (9, 9)⟩]]

def editedText : String := String.join (editedGroups.map (groupText 7))

theorem refuses_measuredPastTarget :
    measuredPastTarget.hasProgress = true ∧
      measuredPastTarget.Refuses (measuredPastTarget.saveProgress "user") "other" "7:0:" ∧
      measuredPastTarget.Refuses (measuredPastTarget.progressWithGroups editedText "user") "user"
        "7:0:" := by
  have hletter : (userDigest "user" measuredPastTarget.groupsText
      measuredPastTarget.id).toList.all Char.isDigit = false := by decide +kernel
  have hcount : ∀ group ∈ measuredPastTarget.trigger.groups, group.size < 2 ^ 32 := by decide
  have hspells : SpellsGroups 7 (bytesOf editedText) editedGroups :=
    spellsGroups_text 7 (by decide)
  have huser : Md5.hexDigest (signedText "user" measuredPastTarget.groupsText 7) ≠
      Md5.hexDigest (signedText "other" measuredPastTarget.groupsText 7) := by decide +kernel
  have hedited : Md5.hexDigest (signedText "user" measuredPastTarget.groupsText 7) ≠
      Md5.hexDigest (signedText "user" editedText 7) := by decide +kernel
  have hid : measuredPastTarget.id = measuredPastTarget.id := rfl
  obtain ⟨hothers, hgroups⟩ := refuses_taken_over_or_edited hid hletter "7:0:"
  refine ⟨rfl, ?_, ?_⟩
  · apply hothers "other" (by decide) hcount
    exact Set.injOn_pair.mpr fun heq => absurd heq huser
  · apply hgroups editedText editedGroups hspells (by decide) (by decide +kernel)
    exact Set.injOn_pair.mpr fun heq => absurd heq hedited

end AchievementLogic.Achievement
