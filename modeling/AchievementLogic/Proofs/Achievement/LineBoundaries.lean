import AchievementLogic.Achievement.Line
import AchievementLogic.Proofs.Score.CutFactors

/-!
# Boundaries of definitions and lines

The readers of the definition languages stay on the boundaries of every text, whatever characters it
is made of, and the reading of a line goes on from a boundary, also behind a trigger that failed.
-/

namespace AchievementLogic

open Text CuttingReader

variable {text : String}

namespace Text.Scan

theorem skip_ofString (place : text.Pos) :
    (ofString text).skip place.offset.byteIdx = ofPos place := by
  have hlength : place.offset.byteIdx ≤ (bytesOf text).length := by
    rw [length_bytesOf]
    exact place.isValid.le_utf8ByteSize
  simp [skip, ofString, ofPos, hlength]

theorem exists_pos_readUnsigned (start : text.Pos) :
    ∃ stop : text.Pos, ((ofPos start).readUnsigned.getD (0, ofPos start)).2 = ofPos stop := by
  cases hread : (ofPos start).readUnsigned with
  | none => exact ⟨start, rfl⟩
  | some result =>
      obtain ⟨stop, hstop, -⟩ := (reachesBy_readDigits 10 _ _ _ hread).exists_pos
      exact ⟨stop, hstop⟩

theorem exists_pos_accept? (start : text.Pos) {expected : Char} (hexpected : isLegible expected = true) :
    ∃ stop : text.Pos, ((ofPos start).accept? expected).getD (ofPos start) = ofPos stop := by
  by_cases hpeek : (ofPos start).peek = some expected
  · obtain ⟨stop, hstop, -⟩ := (reaches_skip_one hpeek hexpected).exists_pos
    exact ⟨stop, by rw [accept?, if_pos hpeek, Option.getD_some, hstop]⟩
  · exact ⟨start, by rw [accept?, if_neg hpeek, Option.getD_none]⟩

end Text.Scan

namespace Achievement

/-- Where the trigger of a line is read: behind a number and a colon, as far as they are there. -/
def triggerPlace (line : String) : Scan :=
  let scan := Scan.ofString line
  let (_, afterId) := scan.readUnsigned.getD (0, scan)
  (afterId.accept? ':').getD afterId

theorem exists_pos_triggerPlace (line : String) :
    ∃ start : line.Pos, triggerPlace line = .ofPos start := by
  obtain ⟨afterId, hid⟩ := Scan.exists_pos_readUnsigned line.startPos
  obtain ⟨start, hstart⟩ := Scan.exists_pos_accept? afterId (by decide : isLegible ':' = true)
  exact ⟨start, by simp only [triggerPlace, ← Scan.ofPos_startPos, hid, hstart]⟩

/-- Behind the trigger of a line, and behind a failed one at the place of its error, the line goes on
from a boundary. -/
theorem exists_pos_readTrigger (start : text.Pos) :
    ∃ stop : text.Pos, (readTrigger (.ofPos start) text).2 = .ofPos stop ∧ start ≤ stop := by
  rw [readTrigger]
  cases hrun : Trigger.read.run (.ofPos start) with
  | ok trigger after =>
      obtain ⟨stop, hstop, hle, -⟩ := Trigger.staysOnBoundaries_read.ok start trigger after hrun
      refine ⟨stop, ?_, hle⟩
      simp only
      split <;> exact hstop
  | error error after =>
      obtain ⟨place, -, -, hle, -, -, hposition⟩ :=
        Trigger.staysOnBoundaries_read.error start error after hrun
      refine ⟨place, ?_, hle⟩
      simp only [hposition, Option.getD_some, Scan.skip_ofString]

end Achievement

/-- The readers of operands, conditions, groups, triggers, clauses and formulas keep to the boundaries
of every text: from a boundary they come to a boundary over ASCII letters alone, an error names a
boundary on the way, and no number is cut inside a character.  On a boundary nothing is left to show
only at the end, and a line goes on behind its trigger from a boundary, be it read or not. -/
theorem readers_keepToBoundaries (text : String) :
    (KeepsToBoundaries text (Operand.readCutting text) Operand.read ∧
      KeepsToBoundaries text (Condition.readCutting text) Condition.read ∧
      KeepsToBoundaries text (Group.readCutting text) Group.read ∧
      KeepsToBoundaries text (Trigger.readCutting text) Trigger.read ∧
      (∀ joining, KeepsToBoundaries text (Clause.readCutting text joining) (Clause.read joining)) ∧
      KeepsToBoundaries text (Formula.readCutting text) Formula.read) ∧
    (∀ place : text.Pos, (Scan.ofPos place).rest = "" ↔ (Scan.ofPos place).atEnd = true) ∧
    (∃ start : text.Pos, Achievement.triggerPlace text = .ofPos start) ∧
    ∀ start : text.Pos, ∃ stop : text.Pos,
      (Achievement.readTrigger (.ofPos start) text).2 = .ofPos stop ∧ start ≤ stop := by
  refine ⟨⟨?_, ?_, ?_, ?_, fun joining => ?_, ?_⟩, Scan.rest_ofPos_eq_empty_iff,
    Achievement.exists_pos_triggerPlace text, Achievement.exists_pos_readTrigger⟩
  · exact Operand.cutsLike_read.keepsToBoundaries Operand.staysOnBoundaries_read
  · exact Condition.cutsLike_read.keepsToBoundaries Condition.staysOnBoundaries_read
  · exact Group.cutsLike_read.keepsToBoundaries Group.staysOnBoundaries_read
  · exact Trigger.cutsLike_read.keepsToBoundaries Trigger.staysOnBoundaries_read
  · exact (Clause.cutsLike_read joining).keepsToBoundaries (Clause.staysOnBoundaries_read joining)
  · exact Formula.cutsLike_read.keepsToBoundaries Formula.staysOnBoundaries_read

end AchievementLogic
