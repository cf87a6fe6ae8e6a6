import AchievementLogic.Leaderboard.Basic
import AchievementLogic.Memory.Image
import AchievementLogic.Proofs.Runs
import AchievementLogic.Proofs.Trigger.EmptyAlternates
import Mathlib.Data.List.ReduceOption

/-!
# Attempts

What a leaderboard reports is decided by what its three triggers, each on its own, find frame by
frame.  A phase stands for the reports so far: it is active while an attempt runs, and disarmed as
long as the start trigger has not been false since the last attempt ended.
-/

namespace AchievementLogic

open scoped Computability

namespace Leaderboard

/-! ## Phases -/

/-- Which triggers are true on a frame. -/
structure Signals where
  start : Bool
  cancel : Bool
  submit : Bool
deriving DecidableEq, Repr

namespace Phase

def advance (phase : Phase) (signals : Signals) : Option Step × Phase :=
  (phase.next signals.start signals.cancel signals.submit).swap

/-- A waiting phase begins an attempt, or submits at once; an active one ends its attempt; nothing
else is ever reported. -/
theorem advance_cases (phase : Phase) (signals : Signals) :
    (phase = waiting ∧ signals.cancel = false ∧
      (phase.advance signals = (some .submit, disarmed) ∨
        phase.advance signals = (some .start, active))) ∨
    (phase = active ∧
      (phase.advance signals = (some .cancel, disarmed) ∨
        (signals.cancel = false ∧ phase.advance signals = (some .submit, disarmed)))) ∨
    ((phase.advance signals).1 = none ∧
      (phase = active → signals.cancel = false) ∧
      ((phase.advance signals).2 = active ↔ phase = active) ∧
      (phase = disarmed → signals.start = true → (phase.advance signals).2 = disarmed)) := by
  obtain ⟨start, cancel, submit⟩ := signals
  cases phase <;> cases start <;> cases cancel <;> cases submit <;> decide

end Phase

/-! ## The protocol -/

def ending : Language Step := {[.cancel]} + {[.submit]}

/-- A submission at once, or a start and how the attempt ended. -/
def attempt : Language Step := {[.submit]} + {[.start]} * ending

/-- Whether an attempt runs after these reports. -/
def AttemptRuns (steps : List (Option Step)) : Prop := steps.reduceOption.getLast? = some .start

/-- What may be reported where the triggers are true as the signals say. -/
structure FollowsProtocol (run : List Signals) (steps : List (Option Step)) : Prop where
  one_per_frame : steps.length = run.length
  attempts : steps.reduceOption ∈ beginnings (attempt∗)
  nothing_canceled : ∀ (time : Nat) (signals : Signals), run[time]? = some signals →
    ¬ AttemptRuns (steps.take time) → signals.cancel = true → steps[time]? = some none
  /-- A frame that could also submit the attempt cancels it. -/
  cancel_first : ∀ (time : Nat) (signals : Signals), run[time]? = some signals →
    AttemptRuns (steps.take time) → signals.cancel = true → steps[time]? = some (some .cancel)
  /-- After an attempt ended, the start trigger is false once before the next report. -/
  rearmed : ∀ (ended again : Nat) (last next : Step), steps[ended]? = some (some last) →
    last ≠ .start → steps[again]? = some (some next) → ended < again →
    ∃ (between : Nat) (signals : Signals), ended < between ∧ between < again ∧
      run[between]? = some signals ∧ signals.start = false

namespace Phase

/-- What may be reported from a phase on. -/
def reports (phase : Phase) : Language Step :=
  if phase = active then ending * attempt∗ else attempt∗

theorem reports_of_ne_active {phase : Phase} (hphase : phase ≠ active) :
    phase.reports = attempt∗ := if_neg hphase

/-- One frame puts what it reports in front. -/
theorem advance_mem_beginnings (phase : Phase) (signals : Signals) {later : List Step}
    (hlater : later ∈ beginnings (phase.advance signals).2.reports) :
    (phase.advance signals).1.toList ++ later ∈ beginnings phase.reports := by
  rcases advance_cases phase signals with
    ⟨rfl, -, hsubmit | hstart⟩ | ⟨rfl, hends⟩ | ⟨hnone, -, hactive, -⟩
  · rw [hsubmit] at hlater ⊢
    have hword : [Step.submit] ∈ attempt := .inl rfl
    exact append_mem_beginnings_kstar hword hlater
  · rw [hstart] at hlater ⊢
    have hword : [Step.start] ∈ ({[.start]} : Language Step) := rfl
    have hbegun := append_mem_beginnings hword hlater
    have hle : {[.start]} * active.reports ≤ waiting.reports := by
      calc {[.start]} * (ending * attempt∗)
        _ = {[.start]} * ending * attempt∗ := (mul_assoc ..).symm
        _ ≤ attempt * attempt∗ := mul_le_mul_left le_add_self _
        _ ≤ attempt∗ := mul_kstar_le_kstar
    exact beginnings_mono hle hbegun
  · have hended : ∃ last, active.advance signals = (some last, disarmed) ∧ [last] ∈ ending := by
      rcases hends with hcancel | ⟨-, hsubmit⟩
      · exact ⟨.cancel, hcancel, .inl rfl⟩
      · exact ⟨.submit, hsubmit, .inr rfl⟩
    obtain ⟨last, hlast, hword⟩ := hended
    rw [hlast] at hlater ⊢
    exact append_mem_beginnings hword hlater
  · have hreports : (phase.advance signals).2.reports = phase.reports := by
      simp only [reports, hactive]
    rw [hreports] at hlater
    rwa [hnone]

/-- What a run from a phase on reports is the beginning of what it may report. -/
theorem answers_mem_beginnings (phase : Phase) (run : List Signals) :
    (Run.answers advance phase run).reduceOption ∈ beginnings phase.reports := by
  induction run generalizing phase with
  | nil =>
      have hattempts : [] ∈ attempt∗ := Language.nil_mem_kstar _
      by_cases hactive : phase = active
      · subst hactive
        have hword : [Step.cancel] ∈ ending := .inl rfl
        exact ⟨[.cancel] ++ [], Language.append_mem_mul hword hattempts, List.nil_prefix⟩
      · rw [reports_of_ne_active hactive]
        exact nil_mem_beginnings hattempts
  | cons signals later ih =>
      have hstep := phase.advance_mem_beginnings signals (ih (phase.advance signals).2)
      rw [Run.answers]
      cases hnow : (phase.advance signals).1 with
      | none => rwa [hnow] at hstep
      | some step => rwa [hnow] at hstep

/-- A phase is active exactly while an attempt runs. -/
theorem after_eq_active_iff (run : List Signals) :
    Run.after advance waiting run = active ↔ AttemptRuns (Run.answers advance waiting run) := by
  induction run using List.reverseRecOn with
  | nil => simp [Run.after, AttemptRuns, Run.answers, List.reduceOption]
  | append_singleton run signals ih =>
      rw [Run.after_append, Run.answers_append]
      change ((Run.after advance waiting run).advance signals).2 = active ↔
        AttemptRuns (_ ++ [((Run.after advance waiting run).advance signals).1])
      rcases advance_cases (Run.after advance waiting run) signals with
        ⟨-, -, hsubmit | hstart⟩ | ⟨-, hcancel | ⟨-, hsubmit⟩⟩ | ⟨hnone, -, hactive, -⟩
      · simp [hsubmit, AttemptRuns, List.reduceOption]
      · simp [hstart, AttemptRuns, List.reduceOption]
      · simp [hcancel, AttemptRuns, List.reduceOption]
      · simp [hsubmit, AttemptRuns, List.reduceOption]
      · rw [hnone, hactive, ih]
        simp [AttemptRuns, List.reduceOption_append]

theorem advance_of_disarmed (signals : Signals) :
    (disarmed.advance signals).1 = none ∧
      (signals.start = true → (disarmed.advance signals).2 = disarmed) := by
  rcases advance_cases disarmed signals with ⟨hphase, -⟩ | ⟨hphase, -⟩ | ⟨hnone, -, -, hstays⟩
  · cases hphase
  · cases hphase
  · exact ⟨hnone, hstays rfl⟩

/-- As long as the start trigger is true, a disarmed phase stays so. -/
theorem after_of_disarmed {run : List Signals} (hstart : ∀ signals ∈ run, signals.start = true) :
    Run.after advance disarmed run = disarmed := by
  apply Run.after_of_keeps (· = disarmed) _ rfl
  rintro _ signals hmem rfl
  exact (advance_of_disarmed signals).2 (hstart signals hmem)

/-- After the end of an attempt the start has to become false before another one can begin. -/
theorem advance_of_ending {phase : Phase} {signals : Signals} {last : Step}
    (hlast : (phase.advance signals).1 = some last) (hends : last ≠ .start) :
    (phase.advance signals).2 = disarmed := by
  rcases advance_cases phase signals with
    ⟨-, -, hsubmit | hstart⟩ | ⟨-, hcancel | ⟨-, hsubmit⟩⟩ | ⟨hnone, -⟩
  · rw [hsubmit]
  · rw [hstart] at hlast
    exact absurd (Option.some.inj hlast).symm hends
  · rw [hcancel]
  · rw [hsubmit]
  · rw [hnone] at hlast
    cases hlast

/-- After an attempt ended nothing is reported before the start trigger was false. -/
theorem exists_not_start_between {phase : Phase} {run : List Signals} {ended again : Nat}
    {last next : Step} (hlast : (Run.answers advance phase run)[ended]? = some (some last))
    (hends : last ≠ .start) (hnext : (Run.answers advance phase run)[again]? = some (some next))
    (horder : ended < again) :
    ∃ (between : Nat) (signals : Signals), ended < between ∧ between < again ∧
      run[between]? = some signals ∧ signals.start = false := by
  by_contra hnever
  push Not at hnever
  rw [Run.getElem?_answers] at hlast hnext
  obtain ⟨signals, hsignals, hlast⟩ := Option.map_eq_some_iff.mp hlast
  obtain ⟨current, -, hnext⟩ := Option.map_eq_some_iff.mp hnext
  have hended : Run.after advance phase (run.take (ended + 1)) = disarmed := by
    rw [Run.after_take_succ advance hsignals]
    exact advance_of_ending hlast hends
  have hheld : ∀ signals ∈ (run.take again).drop (ended + 1), signals.start = true := by
    intro signals hmem
    obtain ⟨offset, hoffset⟩ := List.mem_iff_getElem?.mp hmem
    rw [List.getElem?_drop, List.getElem?_take] at hoffset
    by_cases hbefore : ended + 1 + offset < again
    · rw [if_pos hbefore] at hoffset
      have hstart := hnever (ended + 1 + offset) signals (by omega) hbefore hoffset
      exact Bool.eq_true_of_not_eq_false hstart
    · rw [if_neg hbefore] at hoffset
      cases hoffset
  have hagain : Run.after advance phase (run.take again) = disarmed := by
    rw [Run.after_take advance horder, hended]
    exact after_of_disarmed hheld
  rw [hagain, (advance_of_disarmed current).1] at hnext
  cases hnext

/-- Runs that begin by waiting follow the protocol. -/
theorem followsProtocol (run : List Signals) :
    FollowsProtocol run (Run.answers advance waiting run) where
  one_per_frame := Run.length_answers advance waiting run
  attempts := answers_mem_beginnings waiting run
  nothing_canceled := by
    intro time signals hsignals hidle hcancel
    rw [Run.take_answers, ← after_eq_active_iff] at hidle
    rw [Run.getElem?_answers, hsignals, Option.map_some]
    rcases advance_cases (Run.after advance waiting (run.take time)) signals with
      ⟨-, hnot, -⟩ | ⟨hactive, -⟩ | ⟨hnone, -⟩
    · rw [hnot] at hcancel
      cases hcancel
    · exact absurd hactive hidle
    · rw [hnone]
  cancel_first := by
    intro time signals hsignals hruns hcancel
    rw [Run.take_answers, ← after_eq_active_iff] at hruns
    rw [Run.getElem?_answers, hsignals, Option.map_some]
    rcases advance_cases (Run.after advance waiting (run.take time)) signals with
      ⟨-, hnot, -⟩ | ⟨-, hcanceled | ⟨hnot, -⟩⟩ | ⟨-, hnot, -⟩
    · rw [hnot] at hcancel
      cases hcancel
    · rw [hcanceled]
    · rw [hnot] at hcancel
      cases hcancel
    · rw [hnot hruns] at hcancel
      cases hcancel
  rearmed := fun _ _ _ _ hlast hends hnext horder =>
    exists_not_start_between hlast hends hnext horder

end Phase

/-! ## Leaderboards -/

def Step.change (value : UInt32) : Step → Change
  | .start => .started
  | .cancel => .canceled
  | .submit => .submitted value

def Change.step : Change → Step
  | .started => .start
  | .canceled => .cancel
  | .submitted _ => .submit

theorem Step.step_change (value : UInt32) (step : Step) : (step.change value).step = step := by
  cases step <;> rfl

def changes (leaderboard : Leaderboard) (frames : List Frame) : List (Option Change) :=
  Run.answers test leaderboard frames

/-- What the triggers find on the same frames, each tested on its own. -/
def Definition.signals (definition : Definition) (frames : List Frame) : List Signals :=
  List.zipWith3 (fun start cancel submit => ⟨start.result, cancel.result, submit.result⟩)
    (definition.start.outcomes frames) (definition.cancel.outcomes frames)
    (definition.submit.outcomes frames)

/-- The definition with its triggers as a frame leaves them. -/
def Definition.advance (definition : Definition) (frame : Frame) : Definition :=
  { definition with
    start := (definition.start.test frame).2
    cancel := (definition.cancel.test frame).2
    submit := (definition.submit.test frame).2 }

def Definition.signalsOn (definition : Definition) (frame : Frame) : Signals :=
  ⟨(definition.start.test frame).1.result, (definition.cancel.test frame).1.result,
    (definition.submit.test frame).1.result⟩

theorem test_of_definition {leaderboard : Leaderboard} {definition : Definition}
    (hdefinition : leaderboard.definition? = some definition) (frame : Frame) :
    leaderboard.test frame =
      ((leaderboard.phase.advance (definition.signalsOn frame)).1.map
          (Step.change (definition.value.value frame)),
        { leaderboard with
          definition? := some (definition.advance frame)
          phase := (leaderboard.phase.advance (definition.signalsOn frame)).2 }) := by
  rw [test, hdefinition]
  apply Prod.ext
  · apply Option.map_congr
    intro step _
    cases step <;> rfl
  · rfl

theorem definition?_test {leaderboard : Leaderboard} {definition : Definition}
    (hdefinition : leaderboard.definition? = some definition) (frame : Frame) :
    (leaderboard.test frame).2.definition? = some (definition.advance frame) := by
  rw [test_of_definition hdefinition]

theorem phase_test {leaderboard : Leaderboard} {definition : Definition}
    (hdefinition : leaderboard.definition? = some definition) (frame : Frame) :
    (leaderboard.test frame).2.phase =
      (leaderboard.phase.advance (definition.signalsOn frame)).2 := by
  rw [test_of_definition hdefinition]

theorem changes_cons {leaderboard : Leaderboard} {definition : Definition}
    (hdefinition : leaderboard.definition? = some definition) (frame : Frame)
    (later : List Frame) :
    leaderboard.changes (frame :: later) =
      (leaderboard.phase.advance (definition.signalsOn frame)).1.map
          (Step.change (definition.value.value frame)) ::
        (leaderboard.test frame).2.changes later := by
  rw [changes, Run.answers, ← changes, test_of_definition hdefinition]

/-- The steps of the phases are reported, a submission with the value of its frame. -/
theorem changes_eq {leaderboard : Leaderboard} {definition : Definition}
    (hdefinition : leaderboard.definition? = some definition) (frames : List Frame) :
    leaderboard.changes frames =
      List.zipWith (fun step? frame => step?.map (Step.change (definition.value.value frame)))
        (Run.answers Phase.advance leaderboard.phase (definition.signals frames)) frames := by
  induction frames generalizing leaderboard definition with
  | nil => rfl
  | cons frame later ih =>
      rw [changes_cons hdefinition, ih (definition?_test hdefinition frame),
        phase_test hdefinition]
      rfl

/-- What was reported tells the steps. -/
theorem map_step_changes {leaderboard : Leaderboard} {definition : Definition}
    (hdefinition : leaderboard.definition? = some definition) (frames : List Frame) :
    (leaderboard.changes frames).map (Option.map Change.step) =
      Run.answers Phase.advance leaderboard.phase (definition.signals frames) := by
  induction frames generalizing leaderboard definition with
  | nil => rfl
  | cons frame later ih =>
      have hstep : Change.step ∘ Step.change (definition.value.value frame) = fun step => step := by
        funext step
        exact step.step_change _
      rw [changes_cons hdefinition, List.map_cons, ih (definition?_test hdefinition frame),
        phase_test hdefinition, Option.map_map, hstep, Option.map_id_fun']
      rfl

/-! ## Leaderboards by their text -/

inductive Action
  | test (frame : Frame)
  | reset

def act (leaderboard : Leaderboard) : Action → Leaderboard
  | .test frame => (leaderboard.test frame).2
  | .reset => leaderboard.reset

def play (leaderboard : Leaderboard) (actions : List Action) : Leaderboard :=
  actions.foldl act leaderboard

theorem act_of_no_definition {leaderboard : Leaderboard}
    (hnone : leaderboard.definition? = none) (action : Action) :
    leaderboard.act action = leaderboard := by
  cases action with
  | test frame => rw [act, test, hnone]
  | reset => rw [act, reset, hnone]

/-- Without a definition nothing that is done has any effect. -/
theorem play_of_no_definition {leaderboard : Leaderboard}
    (hnone : leaderboard.definition? = none) (actions : List Action) :
    leaderboard.play actions = leaderboard := by
  induction actions with
  | nil => rfl
  | cons action later ih =>
      calc leaderboard.play (action :: later)
        _ = (leaderboard.act action).play later := rfl
        _ = leaderboard.play later := by rw [act_of_no_definition hnone]
        _ = leaderboard := ih

/-- A leaderboard made from a text reports attempts by the protocol: what happens is decided by what
the triggers find, and only the value of a submission by its formula.  A text that cannot be read
makes a leaderboard that reports nothing, whatever is done with it. -/
theorem changes_ofText (id : UInt32) (text : String) (format : Format) :
    (∀ definition, Definition.ofText text = .ok definition → ∀ frames : List Frame,
      (ofText id text format).changes frames =
          List.zipWith (fun step? frame => step?.map (Step.change (definition.value.value frame)))
            (Run.answers Phase.advance .waiting (definition.signals frames)) frames ∧
        FollowsProtocol (definition.signals frames)
          (((ofText id text format).changes frames).map (Option.map Change.step))) ∧
    ∀ error, Definition.ofText text = .error error → ∀ (actions : List Action) (frame : Frame),
      ((ofText id text format).play actions).phase = .invalid ∧
        (((ofText id text format).play actions).test frame).1 = none := by
  constructor
  · intro definition htext frames
    have hdefinition : (ofText id text format).definition? = some definition := by
      rw [ofText, htext]
    have hphase : (ofText id text format).phase = .waiting := by
      rw [ofText, htext]
    have hchanges := changes_eq hdefinition frames
    have hsteps := map_step_changes hdefinition frames
    rw [hphase] at hchanges hsteps
    rw [hsteps]
    exact ⟨hchanges, Phase.followsProtocol _⟩
  · intro error htext actions frame
    have hnone : (ofText id text format).definition? = none := by
      rw [ofText, htext]
    rw [play_of_no_definition hnone, test, hnone, ofText, htext]
    exact ⟨rfl, rfl⟩

/-- The byte at 0 starts with 0 and submits with 3; the byte at 1 cancels with 18. -/
def raceText : String := "STA:0xH00=0::CAN:0xH01=18::SUB:0xH00=3::VAL:0xH02"

def raceFrames : List Frame :=
  [[0, 18], [0, 19], [0, 18], [0, 19], [1, 19], [0, 19], [3, 19]].map fun bytes =>
    { source := (Image.ofBytes (bytes ++ [52])).source }

theorem changes_ofText_raceText :
    (∃ definition, Definition.ofText raceText = .ok definition ∧
      FollowsProtocol (definition.signals raceFrames)
        (((ofText 1 raceText .value).changes raceFrames).map (Option.map Change.step)) ∧
      (ofText 1 raceText .value).changes raceFrames =
        [none, some .started, some .canceled, none, none, some .started, some (.submitted 52)]) ∧
    ∃ error, Definition.ofText "STA:0xH00=0" = .error error ∧
      ((ofText 1 "STA:0xH00=0" .value).play (raceFrames.map .test ++ [.reset])).phase =
        .invalid := by
  have hreported : (ofText 1 raceText .value).changes raceFrames =
      [none, some .started, some .canceled, none, none, some .started, some (.submitted 52)] := by
    decide +kernel
  constructor
  · cases hread : Definition.ofText raceText with
    | error error =>
        have hok : (Definition.ofText raceText).isOk = true := by decide +kernel
        rw [hread] at hok
        cases hok
    | ok definition =>
        obtain ⟨-, hfollows⟩ :=
          (changes_ofText 1 raceText .value).1 definition hread raceFrames
        exact ⟨definition, rfl, hfollows, hreported⟩
  · cases hread : Definition.ofText "STA:0xH00=0" with
    | error error =>
        have hinvalid := (changes_ofText 1 "STA:0xH00=0" .value).2 error hread
          (raceFrames.map .test ++ [.reset]) { source := ({} : Image).source }
        exact ⟨error, rfl, hinvalid.1⟩
    | ok definition =>
        have hfails : (Definition.ofText "STA:0xH00=0").isOk = false := by decide +kernel
        rw [hread] at hfails
        cases hfails

end Leaderboard

end AchievementLogic
