import AchievementLogic.Proofs.Presence.Escaping
import AchievementLogic.Proofs.Presence.Selection
import AchievementLogic.Proofs.Presence.TextLines
import AchievementLogic.Proofs.Trigger.Alphabet

/-!
# Escaped display lines

An escaped text is shown as it was before, as the default line of a script and behind a condition.
A condition that can be read is legible, so that it holds no mark of a script: neither the `?` that
ends it nor a backslash, a slash or the end of a line.
-/

namespace AchievementLogic.Presence.Script

open Text

variable {text condition rest : String}

/-- What follows the head of a display section stands in it. -/
theorem displayLines_head (rest : String) :
    displayLines ("Display:\n" ++ rest) = Section.display.displayLines (cleanLines rest) := by
  have hhead : "Display:\n" = "Display:" ++ "\n" := rfl
  have hclean : cleanLine "Display:".toList = "Display:" := by decide +kernel
  have hnext : Section.outside.next "Display:" = .display := rfl
  rw [displayLines, hhead, cleanLines_append (by decide), hclean, Section.displayLines, hnext]
  simp

/-! ## Escaped texts as lines -/

theorem cleanLine_escape (hlast : text.toList.getLast? ≠ some '\r') :
    cleanLine (escape text).toList = escape text :=
  cleanLine_of_none (getLast?_escape text ▸ hlast) (commentStart?_escape text)

theorem exists_escape (hsome : text ≠ "") :
    ∃ others, (escape text).toList = '\\' :: others := by
  obtain ⟨letter, others, hletters⟩ : ∃ letter others, text.toList = letter :: others := by
    apply List.exists_cons_of_ne_nil
    simpa using hsome
  exact ⟨_, by rw [escape, String.toList_ofList, hletters, escapeLetters, List.flatMap_cons]; rfl⟩

/-- An escaped text is a display line without a condition. -/
theorem isDefaultLine_escape (hsome : text ≠ "") : isDefaultLine (escape text) = true := by
  obtain ⟨others, hothers⟩ := exists_escape hsome
  have hempty : (escape text).isEmpty = false := by
    rw [String.isEmpty_eq_false_iff]
    rintro heq
    rw [heq] at hothers
    cases hothers
  simp [isDefaultLine, hempty, conditionOf?, hothers]

/-! ## Conditions -/

def conditionalLine (condition text : String) : String := "?" ++ condition ++ "?" ++ text

/-- A display section with a conditional line in front of other lines. -/
def conditionalScript (condition text rest : String) : String :=
  "Display:\n" ++ (conditionalLine condition text ++ "\n" ++ rest)

theorem isInert_of_isLegible : ∀ byte : UInt8, IsLegible byte → IsInert byte :=
  forall_byte (by decide +kernel)

theorem toList_conditionalLine (condition text : String) :
    (conditionalLine condition text).toList =
      '?' :: (condition.toList ++ '?' :: text.toList) := by
  simp [conditionalLine]

section Conditional

variable (hlegible : ∀ byte ∈ bytesOf condition, IsLegible byte)

include hlegible

theorem not_mem_of_isLegible {letter : Char} (hletter : isLegible letter = false) :
    letter ∉ condition.toList := by
  intro hmem
  rw [isLegible_of_mem_toList hlegible letter hmem] at hletter
  cases hletter

theorem not_mem_conditionalLine (hline : '\n' ∉ text.toList) :
    '\n' ∉ (conditionalLine condition (escape text)).toList := by
  have hcondition := not_mem_of_isLegible hlegible (by decide : isLegible '\n' = false)
  have hescape := not_mem_escape hline
  rw [toList_conditionalLine]
  simp [hcondition, hescape]

/-- Nothing in an escaped text is taken for a comment, so that the whole line stays. -/
theorem cleanLine_conditionalLine (hlast : text.toList.getLast? ≠ some '\r') :
    cleanLine (conditionalLine condition (escape text)).toList =
      conditionalLine condition (escape text) := by
  have hmark : ∀ byte ∈ bytesOf "?", IsInert byte := by decide +kernel
  have hinert : ∀ byte ∈ bytesOf ("?" ++ condition ++ "?"), IsInert byte := by
    intro byte hmem
    rw [bytesOf_append, bytesOf_append, List.mem_append, List.mem_append] at hmem
    rcases hmem with (hfirst | hcondition) | hsecond
    · exact hmark byte hfirst
    · exact isInert_of_isLegible byte (hlegible byte hcondition)
    · exact hmark byte hsecond
  have hopening : ("?" ++ condition ++ "?").toList.getLast? ≠ some '\r' := by
    rw [String.toList_append, List.getLast?_append]
    exact fun hlast => absurd (Option.some.inj hlast) (by decide)
  exact cleanLine_append_escape hinert hopening hlast

theorem conditionOf?_conditionalLine (text : String) :
    conditionOf? (conditionalLine condition text) = some (condition, text) := by
  have hmark := not_mem_of_isLegible hlegible (by decide : isLegible '?' = false)
  rw [conditionOf?, toList_conditionalLine]
  simp only [splitOnce?_append hmark, Option.map_some, String.ofList_toList]

/-- The lines of a display section that begins with a condition. -/
theorem displayLines_conditionalLine (hline : '\n' ∉ text.toList)
    (hlast : text.toList.getLast? ≠ some '\r') (rest : String) :
    displayLines (conditionalScript condition (escape text) rest) =
      conditionalLine condition (escape text) :: displayLines ("Display:\n" ++ rest) := by
  have hnext : Section.display.next (conditionalLine condition (escape text)) = .display := by
    rw [Section.next, readLine, readDisplay, conditionOf?_conditionalLine hlegible]
    split <;> rfl
  rw [conditionalScript, displayLines_head, displayLines_head,
    cleanLines_append (not_mem_conditionalLine hlegible hline),
    cleanLine_conditionalLine hlegible hlast, Section.displayLines, hnext]

end Conditional

/-! ## Scripts with an escaped line -/

/-- An escaped text as the only display line. -/
theorem default?_escape (hsome : text ≠ "") (hline : '\n' ∉ text.toList)
    (hlast : text.toList.getLast? ≠ some '\r') :
    (ofText ("Display:\n" ++ escape text)).default? = some ⟨[.text text]⟩ ∧
      (ofText ("Display:\n" ++ escape text)).conditional = [] := by
  have hlines : displayLines ("Display:\n" ++ escape text) = [escape text] := by
    rw [displayLines_head, cleanLines_of_not_mem (not_mem_escape hline), cleanLine_escape hlast]
    rfl
  have hdefault := isDefaultLine_escape hsome
  have hnone : conditionOf? (escape text) = none := by
    rw [isDefaultLine, Bool.and_eq_true, Option.isNone_iff_eq_none] at hdefault
    exact hdefault.2
  constructor
  · rw [default?_ofText, defaultLines, hlines, List.filter_singleton, hdefault]
    simp [Display.ofLine_escape hsome]
  · rw [conditional_ofText, conditionalLines, hlines]
    simp [hnone]

/-- An escaped text behind a condition, in front of other display lines. -/
theorem default?_conditionalLine {trigger : Trigger} (hsome : text ≠ "")
    (hline : '\n' ∉ text.toList) (hlast : text.toList.getLast? ≠ some '\r')
    (hread : Trigger.read.readAll condition = .ok trigger) (rest : String) :
    (ofText (conditionalScript condition (escape text) rest)).default? =
        (ofText ("Display:\n" ++ rest)).default? ∧
      (ofText (conditionalScript condition (escape text) rest)).conditional =
        ⟨some trigger, ⟨[.text text]⟩⟩ :: (ofText ("Display:\n" ++ rest)).conditional := by
  have hlegible := Trigger.isLegible_of_readAll hread
  have hlines := displayLines_conditionalLine hlegible hline hlast rest
  have hparts := conditionOf?_conditionalLine hlegible (escape text)
  have hdefault : isDefaultLine (conditionalLine condition (escape text)) = false := by
    simp [isDefaultLine, hparts]
  constructor
  · simp only [default?_ofText, defaultLines, hlines, List.filter_cons, hdefault]
    rfl
  · simp only [conditional_ofText, conditionalLines, hlines, List.filterMap_cons, hparts,
      List.map_cons, ConditionalDisplay.ofParts, hread, Display.ofLine_escape hsome]
    rfl

/-- An escaped text is shown as it was: on every frame as the only display line, and behind a
condition on every frame on which that is true, whatever display lines follow.  The condition of the
line is then the one that was read, tested on the frames before. -/
theorem render_escape (hsome : text ≠ "") (hline : '\n' ∉ text.toList)
    (hlast : text.toList.getLast? ≠ some '\r') :
    ((ofText ("Display:\n" ++ escape text)).enabled = true ∧ ∀ earlier frame,
      ((Run.after render (ofText ("Display:\n" ++ escape text)) earlier).render frame).1 = text) ∧
    ∀ condition trigger rest, Trigger.read.readAll condition = .ok trigger →
      (ofText ("Display:\n" ++ rest)).enabled = true →
      (ofText (conditionalScript condition (escape text) rest)).enabled = true ∧
      ∀ earlier,
        (Run.after render (ofText (conditionalScript condition (escape text) rest))
          earlier).conditional.head?.bind (·.trigger?) = some (trigger.after earlier) ∧
        ∀ frame, ((trigger.after earlier).test frame).1.result = true →
          ((Run.after render (ofText (conditionalScript condition (escape text) rest))
            earlier).render frame).1 = text := by
  refine ⟨?_, fun condition trigger rest hread henabled => ?_⟩
  · obtain ⟨hdefault, hconditional⟩ := default?_escape hsome hline hlast
    refine ⟨Option.isSome_of_eq_some hdefault, fun earlier frame => ?_⟩
    simp only [render_after hdefault, hconditional, List.map_nil, List.find?_nil, Option.map_none,
      Option.getD_none, Display.render_text]
  · obtain ⟨hsame, hconditional⟩ := default?_conditionalLine hsome hline hlast hread rest
    obtain ⟨display, hdefault⟩ := Option.isSome_iff_exists.mp henabled
    rw [← hsame] at hdefault
    have hscript := Option.isSome_of_eq_some hdefault
    refine ⟨hscript, fun earlier => ⟨?_, fun frame hresult => ?_⟩⟩
    · rw [after_render hscript, hconditional]
      rfl
    · have hholds : (ConditionalDisplay.after ⟨some trigger, ⟨[.text text]⟩⟩ earlier).holds frame =
          true := hresult
      simp only [render_after hdefault, hconditional, List.map_cons, List.find?_cons, hholds,
        Option.map_some, Option.getD_some]
      exact Display.render_text text frame _ _

/-- A text with all marks of a script in it. -/
def markedText : String := "?1? //half\\way @Town(0xH0000) – 50 ½/ "

theorem render_escape_markedText :
    ((Run.after render (ofText ("Display:\n" ++ escape markedText)) [lowerFloor]).render
        upperFloor).1 = markedText ∧
      ((Run.after render (ofText (conditionalScript "0xH0000=1_0xH0001>d0xH0001"
        (escape markedText) "Nowhere")) [lowerFloor]).render upperFloor).1 = markedText := by
  obtain ⟨⟨-, hshown⟩, hconditional⟩ :=
    @render_escape markedText (by decide +kernel) (by decide +kernel) (by decide +kernel)
  obtain ⟨-, hbehind⟩ := hconditional "0xH0000=1_0xH0001>d0xH0001" _ "Nowhere" rfl
    (by decide +kernel)
  exact ⟨hshown [lowerFloor] upperFloor, (hbehind [lowerFloor]).2 upperFloor (by decide +kernel)⟩

end AchievementLogic.Presence.Script
