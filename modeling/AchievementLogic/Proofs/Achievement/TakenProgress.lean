import AchievementLogic.Proofs.Achievement.SavedText
import AchievementLogic.Proofs.Text.Delimiters
import AchievementLogic.Proofs.Trigger.Derivations
import Mathlib.Data.List.TakeWhile

/-!
# What restoring takes and what it leaves

The text is taken apart before anything is put into an achievement, and what was taken is put there
as a whole or not at all.  Whatever the text announces, the numbers that are taken stand at its
front, in order and each with its colon; what is given back is the text after the last colon.
-/

namespace AchievementLogic.Achievement

open Text

variable {scan after : Scan}

/-! ## Fields -/

/-- Between two places stand these numbers, each with its colon. -/
def TakesFields (scan after : Scan) (values : List UInt32) : Prop :=
  ∃ bytes, scan.remaining = bytes ++ after.remaining ∧ SpellsFields bytes values

theorem TakesFields.append {middle : Scan} {values others : List UInt32}
    (hfirst : TakesFields scan middle values) (hlater : TakesFields middle after others) :
    TakesFields scan after (values ++ others) := by
  obtain ⟨left, hleft, hvalues⟩ := hfirst
  obtain ⟨right, hright, hothers⟩ := hlater
  exact ⟨left ++ right, by rw [hleft, hright, List.append_assoc], hvalues.append hothers⟩

theorem takesFields_of_readField {value : UInt32} (hread : readField scan = some (value, after)) :
    TakesFields scan after [value] := by
  simp only [readField, Option.bind_eq_bind, Option.bind_eq_some_iff] at hread
  obtain ⟨⟨word, middle⟩, hword, last, hcolon, heq⟩ := hread
  obtain ⟨rfl, rfl⟩ : word = value ∧ last = after := by simpa using heq
  obtain ⟨bytes, hbytes, hspells⟩ := SpellsWord.exists_of_readDigits (by decide) hword
  refine ⟨bytes ++ [58], ?_, .cons hspells .nil⟩
  rw [hbytes, Scan.remaining_of_accept? hcolon, List.append_assoc]
  rfl

theorem takesFields_of_readCondition {saved : SavedCondition}
    (hread : readCondition scan = some (saved, after)) : TakesFields scan after saved.fields := by
  simp only [readCondition, Option.bind_eq_bind, Option.bind_eq_some_iff] at hread
  obtain ⟨⟨hits, afterHits⟩, hhits, ⟨source, afterSource⟩, hsource, ⟨sourceBefore, afterBefore⟩,
    hsourceBefore, ⟨target, afterTarget⟩, htarget, ⟨targetBefore, last⟩, htargetBefore, heq⟩ := hread
  obtain ⟨rfl, rfl⟩ : ⟨hits, (source, sourceBefore), (target, targetBefore)⟩ = saved ∧
      last = after := by simpa using heq
  have hsources := (takesFields_of_readField hsource).append (takesFields_of_readField hsourceBefore)
  have htargets := (takesFields_of_readField htarget).append (takesFields_of_readField htargetBefore)
  exact (takesFields_of_readField hhits).append (hsources.append htargets)

theorem takesFields_of_readConditions {count : ℕ} {conditions : List SavedCondition}
    (hread : readConditions count scan = some (conditions, after)) :
    TakesFields scan after (conditions.flatMap SavedCondition.fields) := by
  induction count generalizing conditions scan with
  | zero =>
      obtain ⟨rfl, rfl⟩ : [] = conditions ∧ scan = after := by simpa [readConditions] using hread
      exact ⟨[], rfl, .nil⟩
  | succ count ih =>
      obtain ⟨first, others, middle, rfl, hfirst, hothers⟩ := exists_cons_of_readConditions hread
      exact (takesFields_of_readCondition hfirst).append (ih hothers)

theorem takesFields_of_readHeader {id count : UInt32}
    (hread : readHeader id scan = some (count, after)) : TakesFields scan after [id, count] := by
  simp only [readHeader, Option.bind_eq_bind, Option.bind_eq_some_iff] at hread
  obtain ⟨⟨found, middle⟩, hfound, _, hid, hcount⟩ := hread
  obtain rfl : found = id := by simpa [guard] using hid
  exact (takesFields_of_readField hfound).append (takesFields_of_readField hcount)

/-! ## Groups and digests -/

/-- Groups that were read are spelled by the bytes that were taken for them. -/
theorem exists_spellsGroups_of_readGroups {id : UInt32} {rounds : ℕ}
    {groups : List (List SavedCondition)} (hread : readGroups id rounds scan = some (groups, after)) :
    ∃ bytes, scan.remaining = bytes ++ after.remaining ∧ SpellsGroups id bytes groups := by
  induction rounds generalizing groups scan with
  | zero =>
      obtain ⟨rfl, rfl⟩ : [] = groups ∧ scan = after := by simpa [readGroups] using hread
      exact ⟨[], rfl, .nil⟩
  | succ rounds ih =>
      rcases cases_of_readGroups hread with
        ⟨rfl, rfl⟩ |
        ⟨count, first, others, afterHeader, middle, rfl, hheader, hfirst, hothers⟩
      · exact ⟨[], rfl, .nil⟩
      · obtain ⟨front, hfront, hfields⟩ :=
          (takesFields_of_readHeader hheader).append (takesFields_of_readConditions hfirst)
        obtain ⟨back, hback, hgroups⟩ := ih hothers
        refine ⟨front ++ back, by rw [hfront, hback, List.append_assoc], ?_⟩
        exact .cons (length_of_readConditions hfirst).symm hfields hgroups

/-- A digest goes up to the first colon, which is taken with it. -/
theorem exists_of_readDigest {digest : String} (hread : readDigest scan = some (digest, after)) :
    ∃ bytes, scan.remaining = bytes ++ 58 :: after.remaining ∧ 58 ∉ bytes := by
  obtain ⟨remaining, position⟩ := scan
  simp only [readDigest] at hread
  split at hread
  case isFalse => cases hread
  case isTrue hshorter =>
    cases hread
    have hwhole := List.takeWhile_append_dropWhile (p := (· != (58 : UInt8))) (l := remaining)
    cases hdrop : remaining.dropWhile (· != 58) with
    | nil =>
        rw [hdrop, List.append_nil] at hwhole
        rw [hwhole] at hshorter
        exact absurd hshorter (lt_irrefl _)
    | cons byte others =>
        have hkept := List.head?_dropWhile_not (· != (58 : UInt8)) remaining
        rw [hdrop] at hkept
        obtain rfl : byte = 58 := by simpa using hkept
        rw [hdrop] at hwhole
        have hskipped : (remaining.takeWhile (· != 58) ++ 58 :: others).drop
            ((remaining.takeWhile (· != 58)).length + 1) = others :=
          List.drop_length_add_append 1
        rw [hwhole] at hskipped
        refine ⟨remaining.takeWhile (· != 58), ?_, fun hmem => ?_⟩
        · rw [Scan.skip, hskipped, hwhole]
        · simpa using List.mem_takeWhile_imp hmem

/-! ## Texts -/

/-- At the front of the text stand these groups of an achievement and two digests, each part with its
colons, and then the rest. -/
def StandsBefore (id : UInt32) (groups : List (List SavedCondition)) (text rest : String) : Prop :=
  ∃ bytes first second : List UInt8,
    bytesOf text = bytes ++ (first ++ 58 :: (second ++ 58 :: bytesOf rest)) ∧
      SpellsGroups id bytes groups ∧ 58 ∉ first ∧ 58 ∉ second

theorem StandsBefore.exists_append {id : UInt32} {groups : List (List SavedCondition)}
    {text rest : String} (hstands : StandsBefore id groups text rest) :
    ∃ front, text = front ++ ":" ++ rest := by
  obtain ⟨bytes, first, second, htext, -⟩ := hstands
  have hcolon : bytesOf text = (bytes ++ (first ++ 58 :: second)) ++ 58 :: bytesOf rest := by
    rw [htext]
    simp
  obtain ⟨front, right, rfl, -, hright⟩ := exists_append_of_bytesOf_colon hcolon
  exact ⟨front, by rw [bytesOf_injective hright]⟩

theorem StandsBefore.suffix {id : UInt32} {groups : List (List SavedCondition)}
    {text rest : String} (hstands : StandsBefore id groups text rest) :
    rest.toList <:+ text.toList := by
  obtain ⟨front, rfl⟩ := hstands.exists_append
  rw [String.toList_append]
  exact List.suffix_append _ _

theorem StandsBefore.utf8ByteSize_lt {id : UInt32} {groups : List (List SavedCondition)}
    {text rest : String} (hstands : StandsBefore id groups text rest) :
    rest.utf8ByteSize < text.utf8ByteSize := by
  obtain ⟨front, rfl⟩ := hstands.exists_append
  have hcolon : ":".utf8ByteSize = 1 := rfl
  rw [String.utf8ByteSize_append, String.utf8ByteSize_append, hcolon]
  omega

/-- Progress that is read stands at the front of the text, and the text after it begins where a letter
begins. -/
theorem standsBefore_of_read? {id : UInt32} {text : String} {saved : SavedProgress}
    (hread : SavedProgress.read? id text = some saved) :
    StandsBefore id saved.groups text saved.rest := by
  simp only [SavedProgress.read?, Option.bind_eq_bind, Option.bind_eq_some_iff] at hread
  obtain ⟨⟨groups, afterGroups⟩, hgroups, -, -, hdigests⟩ := hread
  obtain ⟨⟨user, afterUser⟩, huser, ⟨definition, last⟩, hdefinition, heq⟩ := hdigests
  obtain rfl := Option.some.inj heq
  obtain ⟨bytes, hbytes, hspells⟩ := exists_spellsGroups_of_readGroups hgroups
  obtain ⟨first, hfirst, hfirstColon⟩ := exists_of_readDigest huser
  obtain ⟨second, hsecond, hsecondColon⟩ := exists_of_readDigest hdefinition
  have htext : bytesOf text = bytes ++ (first ++ 58 :: (second ++ 58 :: last.remaining)) := by
    rw [← hsecond, ← hfirst, ← hbytes]
    rfl
  have hcolon : bytesOf text = (bytes ++ (first ++ 58 :: second)) ++ 58 :: last.remaining := by
    rw [htext]
    simp
  obtain ⟨-, right, -, -, hright⟩ := exists_append_of_bytesOf_colon hcolon
  refine ⟨bytes, first, second, ?_, hspells, hfirstColon, hsecondColon⟩
  obtain ⟨remaining, position⟩ := last
  obtain rfl : bytesOf right = remaining := hright
  rw [htext, Scan.rest_bytesOf]

/-! ## What is put into an achievement -/

/-- The condition has the hits that were saved and each of its memory operands the two readings, of
which the one before is also the last different one. -/
structure SavedCondition.IsHeldBy (saved : SavedCondition) (condition : Condition) : Prop where
  hits : condition.hits = saved.hits
  source : ∀ operand, condition.source = .memory operand →
    operand.history = ⟨saved.source.1, saved.source.2, saved.source.2⟩
  target : ∀ operand, condition.target = .memory operand →
    operand.history = ⟨saved.target.1, saved.target.2, saved.target.2⟩

/-- Every condition of every group holds what was saved of it. -/
def HoldsSaved (groups : List (List SavedCondition)) (trigger : Trigger) : Prop :=
  List.Forall₂ (fun saved group => List.Forall₂ SavedCondition.IsHeldBy saved group.conditions)
    groups trigger.groups

theorem history_restoreReadings {operand : Operand} {current previous : UInt32}
    {restored : MemoryOperand}
    (hrestored : operand.restoreReadings current previous = .memory restored) :
    restored.history = ⟨current, previous, previous⟩ := by
  cases operand with
  | memory inner => cases hrestored; rfl
  | word value => cases hrestored
  | float number => cases hrestored

theorem SavedCondition.isHeldBy_restore (saved : SavedCondition) (condition : Condition) :
    saved.IsHeldBy (saved.restore condition) where
  hits := rfl
  source := fun _ => history_restoreReadings
  target := fun _ => history_restoreReadings

@[simp]
theorem SavedCondition.fresh_restore (saved : SavedCondition) (condition : Condition) :
    (saved.restore condition).fresh = condition.fresh := by
  simp [restore, Condition.fresh]

/-- If there are as many of them, all conditions come to hold what was saved and keep their
definitions. -/
theorem restoreGroup_of_length {saved : List SavedCondition} {group : Group}
    (hlength : saved.length = group.size) :
    List.Forall₂ SavedCondition.IsHeldBy saved (restoreGroup saved group).conditions ∧
      (restoreGroup saved group).fresh = group.fresh := by
  obtain ⟨conditions⟩ := group
  simp only [restoreGroup, Group.fresh, Group.mk.injEq, Group.size] at hlength ⊢
  induction saved generalizing conditions with
  | nil =>
      obtain rfl : conditions = [] := List.eq_nil_of_length_eq_zero hlength.symm
      exact ⟨.nil, rfl⟩
  | cons head tail ih =>
      cases conditions with
      | nil => cases hlength
      | cons first others =>
          obtain ⟨hheld, hfresh⟩ := ih others (Nat.succ.inj hlength)
          refine ⟨.cons (head.isHeldBy_restore first) hheld, ?_⟩
          rw [List.zipWith_cons_cons, List.map_cons, hfresh, SavedCondition.fresh_restore,
            List.map_cons]

/-- Groups of the shape of a trigger are put into it in full, and change nothing else of it. -/
theorem restoreTrigger_of_sameShape {groups : List (List SavedCondition)} {trigger : Trigger}
    (hshape : sameShape groups trigger = true) :
    HoldsSaved groups (restoreTrigger groups trigger) ∧
      (restoreTrigger groups trigger).fresh = trigger.fresh := by
  have hlengths : List.Forall₂ (fun saved group => saved.length = Group.size group)
      groups trigger.groups := by
    have hequal : List.Forall₂ (· = ·) (groups.map List.length) (trigger.groups.map Group.size) := by
      rw [List.forall₂_eq_eq_eq]
      exact beq_iff_eq.mp hshape
    exact List.forall₂_map_right_iff.mp (List.forall₂_map_left_iff.mp hequal)
  have hgroups : (restoreTrigger groups trigger).groups =
      List.zipWith restoreGroup groups trigger.groups := by
    cases groups with
    | nil => cases hlengths
    | cons core alternates => rfl
  rw [HoldsSaved, Trigger.fresh_eq_iff, hgroups]
  clear hshape hgroups
  generalize trigger.groups = before at hlengths
  induction hlengths with
  | nil => exact ⟨.nil, rfl⟩
  | cons hlength _ ih =>
      obtain ⟨hheld, hfresh⟩ := restoreGroup_of_length hlength
      obtain ⟨hothers, hothersFresh⟩ := ih
      refine ⟨.cons hheld hothers, ?_⟩
      rw [List.zipWith_cons_cons, List.map_cons, hfresh, hothersFresh, List.map_cons]

/-! ## Restoring -/

/-- Either nothing is taken and nothing changes, or whole progress is taken, and then either all hits
are cleared or every condition holds what the text says of it. -/
theorem restoreProgress_cases (achievement : Achievement) (input user : String) :
    achievement.restoreProgress input user = (input, achievement) ∨
      ∃ rest groups, StandsBefore achievement.id groups input rest ∧
        (achievement.restoreProgress input user = (rest, achievement.reset) ∨
          ∃ trigger, HoldsSaved groups trigger ∧ trigger.fresh = achievement.trigger.fresh ∧
            achievement.restoreProgress input user = (rest, { achievement with trigger })) := by
  rw [restoreProgress]
  cases hread : SavedProgress.read? achievement.id input with
  | none => exact .inl rfl
  | some saved =>
      refine .inr ⟨saved.rest, saved.groups, standsBefore_of_read? hread, ?_⟩
      simp only
      split
      case isFalse => exact .inl rfl
      case isTrue haccepts =>
        rw [accepts, Bool.and_eq_true] at haccepts
        obtain ⟨hheld, hfresh⟩ := restoreTrigger_of_sameShape haccepts.2
        exact .inr ⟨_, hheld, hfresh, rfl⟩

end AchievementLogic.Achievement
