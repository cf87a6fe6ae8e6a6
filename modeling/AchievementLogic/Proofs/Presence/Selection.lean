import AchievementLogic.Memory.Image
import AchievementLogic.Proofs.Presence.DisplayLines
import AchievementLogic.Proofs.Trigger.Gathering

/-!
# The line that is shown

A call tests the condition of every line, whichever line it shows, so that a line goes through a run
as its condition does on its own.  What is shown is the first line whose condition is true.
-/

namespace AchievementLogic.Presence

namespace ConditionalDisplay

/-- Whether the condition of a line could be read and is true on a new frame. -/
def holds (line : ConditionalDisplay) (frame : Frame) : Bool :=
  line.trigger?.any fun trigger => (trigger.test frame).1.result

/-- The line after a run in which its condition was tested on every frame. -/
def after (line : ConditionalDisplay) (frames : List Frame) : ConditionalDisplay :=
  { line with trigger? := line.trigger?.map (·.after frames) }

theorem after_nil (line : ConditionalDisplay) : line.after [] = line := by
  obtain ⟨trigger?, display⟩ := line
  cases trigger? <;> rfl

theorem after_append (line : ConditionalDisplay) (first later : List Frame) :
    line.after (first ++ later) = (line.after first).after later := by
  obtain ⟨trigger?, display⟩ := line
  cases trigger? with
  | none => rfl
  | some trigger =>
      have hafter : trigger.after (first ++ later) = (trigger.after first).after later :=
        Run.after_append Trigger.test trigger first later
      simp only [after, Option.map_some, hafter]

end ConditionalDisplay

namespace Script

/-! ## A single call -/

/-- Testing the lines chooses the first one that holds and takes every line on by the frame. -/
theorem testLines_eq (frame : Frame) (lines : List ConditionalDisplay) :
    testLines frame lines =
      ((lines.find? (·.holds frame)).map (·.display), lines.map (·.after [frame])) := by
  induction lines with
  | nil => rfl
  | cons line others ih =>
      obtain ⟨trigger?, display⟩ := line
      cases trigger? with
      | none => simp [testLines, ih, ConditionalDisplay.holds, ConditionalDisplay.after]
      | some trigger =>
          cases hresult : (trigger.test frame).1.result with
          | false =>
              simp [testLines, ih, hresult, ConditionalDisplay.holds, ConditionalDisplay.after,
                Trigger.after, Run.after]
          | true =>
              simp [testLines, ih, hresult, ConditionalDisplay.holds, ConditionalDisplay.after,
                Trigger.after, Run.after]

/-- What a call gives and leaves when there is a default line. -/
theorem render_eq {script : Script} {default : Display} (hdefault : script.default? = some default)
    (frame : Frame) :
    script.render frame =
      ((((script.conditional.find? (·.holds frame)).map (·.display)).getD default).render frame
          script.lookups script.formats,
        { script with conditional := script.conditional.map (·.after [frame]) }) := by
  rw [render, hdefault]
  simp only [testLines_eq]

/-! ## Runs of calls -/

/-- A run of calls takes every line through the frames on its own and changes nothing else. -/
theorem after_render {script : Script} (henabled : script.enabled = true) (frames : List Frame) :
    Run.after render script frames =
      { script with conditional := script.conditional.map (·.after frames) } := by
  induction frames generalizing script with
  | nil =>
      have hsame : script.conditional.map (·.after []) = script.conditional := by
        simp only [ConditionalDisplay.after_nil, List.map_id']
      rw [hsame]
      rfl
  | cons frame later ih =>
      obtain ⟨default, hdefault⟩ := Option.isSome_iff_exists.mp henabled
      have hstep : (script.render frame).2 =
          { script with conditional := script.conditional.map (·.after [frame]) } := by
        rw [render_eq hdefault]
      have hnext : (script.render frame).2.enabled = true := by
        rw [hstep]
        exact henabled
      change Run.after render (script.render frame).2 later = _
      rw [ih hnext, hstep]
      simp only [List.map_map, Function.comp_def, ← ConditionalDisplay.after_append,
        List.singleton_append]

/-- What a call of a run gives and leaves. -/
theorem render_after {script : Script} {default : Display}
    (hdefault : script.default? = some default) (earlier : List Frame) (frame : Frame) :
    (Run.after render script earlier).render frame =
      (((((script.conditional.map (·.after earlier)).find? (·.holds frame)).map (·.display)).getD
          default).render frame script.lookups script.formats,
        { script with conditional := script.conditional.map (·.after (earlier ++ [frame])) }) := by
  rw [after_render (Option.isSome_of_eq_some hdefault),
    @render_eq { script with conditional := script.conditional.map (·.after earlier) } default
      hdefault]
  simp only [List.map_map, Function.comp_def, ← ConditionalDisplay.after_append]

/-- Whether a condition that was read and tested on its own is true on a new frame after others. -/
def conditionHolds (condition : String) (earlier : List Frame) (frame : Frame) : Bool :=
  match Trigger.read.readAll condition with
  | .ok trigger => ((trigger.after earlier).test frame).1.result
  | .error _ => false

theorem holds_after_ofParts (parts : String × String) (earlier : List Frame) (frame : Frame) :
    ((ConditionalDisplay.ofParts parts).after earlier).holds frame =
      conditionHolds parts.1 earlier frame := by
  unfold ConditionalDisplay.ofParts conditionHolds
  cases Trigger.read.readAll parts.1 <;> rfl

/-- Every call of a run shows the first conditional line, in the order of the text, whose condition
read and tested on its own on the same frames is true, and else the last default line; and it leaves
every condition as it would be on its own. -/
theorem render_after_ofText {text : String} (henabled : (ofText text).enabled = true)
    (earlier : List Frame) (frame : Frame) :
    (((Run.after render (ofText text) earlier).render frame).2.conditional =
      (conditionalLines text).map fun (condition, shown) =>
        ⟨(Trigger.read.readAll condition).toOption.map (·.after (earlier ++ [frame])),
          Display.ofLine shown⟩) ∧
    ∃ default, (defaultLines text).getLast? = some default ∧
      ((Run.after render (ofText text) earlier).render frame).1 =
        (Display.ofLine <|
          ((conditionalLines text).find? fun line => conditionHolds line.1 earlier frame).elim
            default Prod.snd).render frame (ofText text).lookups (ofText text).formats := by
  obtain ⟨display, hdisplay⟩ := Option.isSome_iff_exists.mp henabled
  obtain ⟨default, hdefault, hline⟩ := Option.map_eq_some_iff.mp (default?_ofText text ▸ hdisplay)
  rw [render_after hdisplay]
  refine ⟨?_, default, hdefault, ?_⟩
  · simp only [conditional_ofText, List.map_map, Function.comp_def]
    rfl
  · rw [← hline]
    simp only [conditional_ofText, List.map_map, List.find?_map, Function.comp_def,
      holds_after_ofParts]
    cases (conditionalLines text).find? fun line => conditionHolds line.1 earlier frame <;> rfl

/-- A script with a condition that cannot be read, one on a change, and one that holds throughout. -/
def townScript : String :=
  "Lookup:Where\n1=Town\n\nDisplay:\n?0xH0000=?Lost\n?0xH0001>d0xH0001?Going up\n\n" ++
    "?0xH0000=1?In @Where(0xH0000)\nAnywhere"

def lowerFloor : Frame := { source := (Image.ofBytes [1, 0]).source }

def upperFloor : Frame := { source := (Image.ofBytes [1, 1]).source }

theorem render_after_townScript :
    (ofText townScript).enabled = true ∧
      ((Run.after render (ofText townScript) [lowerFloor]).render upperFloor).1 = "Going up" ∧
      ((Run.after render (ofText townScript) [lowerFloor, upperFloor]).render upperFloor).1 =
        "In Town" := by
  have henabled : (ofText townScript).enabled = true := by decide +kernel
  obtain ⟨-, default, -, hfirst⟩ := render_after_ofText henabled [lowerFloor] upperFloor
  obtain ⟨-, default', -, hsecond⟩ :=
    render_after_ofText henabled [lowerFloor, upperFloor] upperFloor
  have hrising : ((conditionalLines townScript).find? fun line =>
      conditionHolds line.1 [lowerFloor] upperFloor) = some ("0xH0001>d0xH0001", "Going up") := by
    decide +kernel
  have hresting : ((conditionalLines townScript).find? fun line =>
      conditionHolds line.1 [lowerFloor, upperFloor] upperFloor) =
        some ("0xH0000=1", "In @Where(0xH0000)") := by
    decide +kernel
  rw [hrising, Option.elim_some] at hfirst
  rw [hresting, Option.elim_some] at hsecond
  refine ⟨henabled, hfirst.trans ?_, hsecond.trans ?_⟩ <;> decide +kernel

end Script

end AchievementLogic.Presence
