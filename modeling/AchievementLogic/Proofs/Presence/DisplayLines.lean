import AchievementLogic.Presence.Script

/-!
# The lines of the display section

Which section a line stands in follows from the lines before it alone, and not from what a script
holds by then.  The lines that stand in a display section are therefore known before anything is made
of them: those with a condition become the conditional lines of the script, in their order, and the
last one without a condition its default line.
-/

namespace AchievementLogic.Presence

def ConditionalDisplay.ofParts (parts : String × String) : ConditionalDisplay :=
  ⟨(Trigger.read.readAll parts.1).toOption, Display.ofLine parts.2⟩

namespace Section

def next (current : Section) (line : String) : Section := (Script.readLine ({}, current) line).2

/-- Those of a list of lines that stand in a display section. -/
def displayLines : Section → List String → List String
  | _, [] => []
  | .display, line :: others => line :: displayLines (next .display line) others
  | current, line :: others => displayLines (current.next line) others

end Section

namespace Script

/-- The lines of a text as a script reads them. -/
def cleanLines (text : String) : List String := (splitLines text.toList).map cleanLine

theorem ofText_eq (text : String) :
    ofText text = finish ((cleanLines text).foldl readLine ({}, .outside)) :=
  rfl

/-- The lines that stand in a display section. -/
def displayLines (text : String) : List String := Section.outside.displayLines (cleanLines text)

/-- Whether a display line is shown without a condition. -/
def isDefaultLine (line : String) : Bool := !line.isEmpty && (conditionOf? line).isNone

def conditionalLines (text : String) : List (String × String) :=
  (displayLines text).filterMap conditionOf?

def defaultLines (text : String) : List String := (displayLines text).filter isDefaultLine

/-! ## A single line -/

theorem readHead_snd (script : Script) (line : String) :
    (script.readHead line).2 = (readHead {} line).2 := by
  unfold readHead
  split <;> rfl

theorem readHead_display (script : Script) (line : String) :
    (script.readHead line).1.conditional = script.conditional ∧
      (script.readHead line).1.default? = script.default? := by
  unfold readHead
  split <;> exact ⟨rfl, rfl⟩

/-- What a script holds does not decide in which section the next line stands. -/
theorem readLine_snd (script : Script) (current : Section) (line : String) :
    (readLine (script, current) line).2 = current.next line := by
  cases current with
  | outside => exact readHead_snd script line
  | lookup table =>
      simp only [Section.next, readLine]
      split <;> rfl
  | format name =>
      simp only [Section.next, readLine]
      split
      · rfl
      · exact readHead_snd script line
  | display =>
      simp only [Section.next, readLine, readDisplay]
      split
      · rfl
      · split <;> rfl

/-- Elsewhere than in a display section a line changes no display line. -/
theorem readLine_elsewhere (script : Script) {current : Section} (hcurrent : current ≠ .display)
    (line : String) :
    (readLine (script, current) line).1.conditional = script.conditional ∧
      (readLine (script, current) line).1.default? = script.default? := by
  cases current with
  | outside => exact readHead_display script line
  | lookup table =>
      simp only [readLine]
      split <;> exact ⟨rfl, rfl⟩
  | format name =>
      simp only [readLine]
      split
      · exact ⟨rfl, rfl⟩
      · exact readHead_display script line
  | display => exact absurd rfl hcurrent

theorem conditionOf?_of_isEmpty {line : String} (hempty : line.isEmpty = true) :
    conditionOf? line = none := by
  rw [String.isEmpty_iff.mp hempty]
  rfl

theorem conditional_readDisplay (script : Script) (line : String) :
    (script.readDisplay line).1.conditional =
      script.conditional ++ ((conditionOf? line).map ConditionalDisplay.ofParts).toList := by
  unfold readDisplay
  split
  next hempty =>
    rw [conditionOf?_of_isEmpty hempty]
    exact (List.append_nil _).symm
  next =>
    cases conditionOf? line with
    | none => exact (List.append_nil _).symm
    | some parts => rfl

theorem default?_readDisplay (script : Script) (line : String) :
    (script.readDisplay line).1.default? =
      if isDefaultLine line then some (Display.ofLine line) else script.default? := by
  unfold readDisplay isDefaultLine
  split
  next hempty => simp [hempty]
  next hempty =>
    cases conditionOf? line with
    | none => simp [hempty]
    | some parts => simp

/-! ## All lines -/

theorem foldl_readLine_cons (line : String) (others : List String) (script : Script)
    (current : Section) :
    (line :: others).foldl readLine (script, current) =
      others.foldl readLine ((readLine (script, current) line).1, current.next line) := by
  rw [List.foldl_cons, ← readLine_snd script current line]

/-- Of the lines that are read, the display lines with a condition are added in their order and no
others. -/
theorem conditional_foldl_readLine (lines : List String) (script : Script) (current : Section) :
    (lines.foldl readLine (script, current)).1.conditional =
      script.conditional ++
        ((current.displayLines lines).filterMap conditionOf?).map ConditionalDisplay.ofParts := by
  induction lines generalizing script current with
  | nil => simp [Section.displayLines]
  | cons line others ih =>
      rw [foldl_readLine_cons, ih]
      by_cases hcurrent : current = .display
      · subst hcurrent
        rw [show (readLine (script, .display) line).1.conditional = _ from
          conditional_readDisplay script line, Section.displayLines]
        cases hparts : conditionOf? line with
        | none => simp [hparts]
        | some parts => simp [hparts]
      · rw [(readLine_elsewhere script hcurrent line).1, Section.displayLines]
        exact hcurrent

/-- The last display line without a condition becomes the default one; if there is none, the default
line stays. -/
theorem default?_foldl_readLine (lines : List String) (script : Script) (current : Section) :
    (lines.foldl readLine (script, current)).1.default? =
      (((current.displayLines lines).filter isDefaultLine).getLast?.map Display.ofLine).or
        script.default? := by
  induction lines generalizing script current with
  | nil => simp [Section.displayLines]
  | cons line others ih =>
      rw [foldl_readLine_cons, ih]
      by_cases hcurrent : current = .display
      · subst hcurrent
        rw [show (readLine (script, .display) line).1.default? = _ from
          default?_readDisplay script line, Section.displayLines, List.filter_cons]
        by_cases hdefault : isDefaultLine line
        · rw [if_pos hdefault, if_pos hdefault, ← List.singleton_append, List.getLast?_append,
            List.getLast?_singleton, Option.map_or, Option.or_assoc]
          rfl
        · rw [if_neg hdefault, if_neg hdefault]
      · rw [(readLine_elsewhere script hcurrent line).2, Section.displayLines]
        exact hcurrent

theorem finish_display (state : Script × Section) :
    (finish state).conditional = state.1.conditional ∧ (finish state).default? = state.1.default? := by
  obtain ⟨script, current⟩ := state
  cases current <;> exact ⟨rfl, rfl⟩

/-- The conditional lines of a script are those of its text, in the order of the text. -/
theorem conditional_ofText (text : String) :
    (ofText text).conditional = (conditionalLines text).map ConditionalDisplay.ofParts := by
  rw [ofText, (finish_display _).1, conditional_foldl_readLine]
  rfl

/-- The default line of a script is the last one of its text. -/
theorem default?_ofText (text : String) :
    (ofText text).default? = (defaultLines text).getLast?.map Display.ofLine := by
  rw [ofText, (finish_display _).2, default?_foldl_readLine, Option.or_none]
  rfl

end Script

end AchievementLogic.Presence
