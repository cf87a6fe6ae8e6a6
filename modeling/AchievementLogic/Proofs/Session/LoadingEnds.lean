import AchievementLogic.Proofs.Achievement.Restoring
import AchievementLogic.Proofs.Achievement.TakenProgress
import AchievementLogic.Session.Basic

/-!
# Loading comes to an end

Loading goes on as long as text is left and the last pass over the achievements changed its length.
Restoring gives back a text that stands at the end of what it was given, so that a pass can only make
the text shorter, and there are no more passes than bytes and one.
-/

namespace AchievementLogic

/-! ## What restoring may do to an achievement -/

namespace Achievement

/-- What restoring progress gives back, and what it leaves of the achievement as it was, whatever it
was given. -/
structure Restores (achievement : Achievement) (input : String)
    (restored : String × Achievement) : Prop where
  rest : restored.1.toList <:+ input.toList
  apart : restored.2 = { achievement with trigger := restored.2.trigger }
  fresh : restored.2.trigger.fresh = achievement.trigger.fresh
  definition : restored.2.definition = achievement.definition
  outcome : restored = (input, achievement) ∨
    (restored.1.utf8ByteSize < input.utf8ByteSize ∧ restored.2.trigger.IsCleared ∧
      restored.2.primed = false ∧ restored.2.trigger.operands = achievement.trigger.operands) ∨
    (restored.1.utf8ByteSize < input.utf8ByteSize ∧
      ∃ groups, StandsBefore achievement.id groups input restored.1 ∧
        HoldsSaved groups restored.2.trigger)

/-- Restoring either leaves text and achievement alone, or takes some of the text; in both cases
nothing but hits and readings changes. -/
theorem restores_restoreProgress (achievement : Achievement) (input user : String) :
    achievement.Restores input (achievement.restoreProgress input user) := by
  rcases achievement.restoreProgress_cases input user with
    hnothing | ⟨rest, groups, hstands, hreset | ⟨trigger, hheld, hfresh, hrestored⟩⟩
  · rw [hnothing]
    exact ⟨List.suffix_rfl, rfl, rfl, rfl, .inl rfl⟩
  · rw [hreset]
    have hfresh : achievement.reset.trigger.fresh = achievement.trigger.fresh :=
      achievement.trigger.fresh_reset
    exact ⟨hstands.suffix, rfl, hfresh, definition_congr hfresh,
      .inr (.inl ⟨hstands.utf8ByteSize_lt, achievement.trigger.isCleared_reset, rfl,
        achievement.trigger.operands_reset⟩)⟩
  · rw [hrestored]
    exact ⟨hstands.suffix, rfl, hfresh, definition_congr hfresh,
      .inr (.inr ⟨hstands.utf8ByteSize_lt, groups, hstands, hheld⟩)⟩

end Achievement

/-! ## Passes -/

namespace Session

/-- A pass leaves no more text than it was given. -/
theorem utf8ByteSize_restorePass_le (user text : String) (achievements : List Achievement) :
    (restorePass user text achievements).1.utf8ByteSize ≤ text.utf8ByteSize := by
  induction achievements generalizing text with
  | nil => exact le_rfl
  | cons head tail ih =>
      have hlater := ih (head.restoreProgress text user).1
      have hfirst : (head.restoreProgress text user).1.utf8ByteSize ≤ text.utf8ByteSize := by
        rcases (head.restores_restoreProgress text user).outcome with
          hnothing | ⟨hshorter, -⟩ | ⟨hshorter, -⟩
        · rw [hnothing]
        · exact hshorter.le
        · exact hshorter.le
      exact hlater.trans hfirst

/-- Loading as a loop: one pass after the other over the achievements, the next one from what the last
one left, until no text is left or a pass left as much as it was given. -/
inductive Loads (user : String) :
    ℕ → String → List Achievement → String × List Achievement → Prop
  | stop {text : String} {achievements : List Achievement} {pass : String × List Achievement}
    (hpass : restorePass user text achievements = pass)
    (hstop : pass.1 = "" ∨ pass.1.utf8ByteSize = text.utf8ByteSize) :
    Loads user 1 text achievements pass
  | again {passes : ℕ} {text : String} {achievements : List Achievement}
    {pass result : String × List Achievement} (hpass : restorePass user text achievements = pass)
    (hleft : pass.1 ≠ "") (hchanged : pass.1.utf8ByteSize ≠ text.utf8ByteSize)
    (hlater : Loads user passes pass.1 pass.2 result) :
    Loads user (passes + 1) text achievements result

/-- The loop ends with what loading gives, after no more passes than there are bytes and one. -/
theorem exists_loads_restoreAll (user text : String) (achievements : List Achievement) :
    ∃ passes, passes ≤ text.utf8ByteSize + 1 ∧
      Loads user passes text achievements (restoreAll user text achievements) := by
  induction hsize : text.utf8ByteSize using Nat.strong_induction_on
    generalizing text achievements with
  | _ size ih =>
      have hle := utf8ByteSize_restorePass_le user text achievements
      rw [restoreAll]
      split
      case isTrue hshorter =>
        split
        case isTrue hempty =>
          exact ⟨1, Nat.le_add_left 1 size, .stop rfl (.inl (String.isEmpty_iff.mp hempty))⟩
        case isFalse hleft =>
          obtain ⟨passes, hpasses, hlater⟩ := ih _ (hsize ▸ hshorter)
            (restorePass user text achievements).1 (restorePass user text achievements).2 rfl
          refine ⟨passes + 1, by omega, .again rfl ?_ hshorter.ne hlater⟩
          exact fun hempty => hleft (String.isEmpty_iff.mpr hempty)
      case isFalse hlonger =>
        exact ⟨1, Nat.le_add_left 1 size, .stop rfl (.inr (by omega))⟩

/-- Restoring is all or nothing.  It gives back the end of the text, and either that is all of it and
the achievement is as it was; or progress was taken and all hits are cleared, no operand being
touched; or progress was taken and every condition of every group has the hits, and every memory
operand the readings, that stood there in order.  Nothing of an achievement changes but its trigger,
and that not in its definition.  So loading comes to an end on every text. -/
theorem restoring_all_or_nothing :
    (∀ (achievement : Achievement) (input user : String),
      achievement.Restores input (achievement.restoreProgress input user)) ∧
    (∀ (session : Session) (text user : String),
      ∃ passes, passes ≤ text.utf8ByteSize + 1 ∧
        Loads user passes text session.achievements
          (session.unmatchedProgress text user, (session.loadProgress text user).achievements)) :=
  ⟨Achievement.restores_restoreProgress, fun session text user =>
    exists_loads_restoreAll user text session.achievements⟩

end Session

end AchievementLogic
