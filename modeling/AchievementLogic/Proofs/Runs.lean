import Mathlib.Computability.Language
import Mathlib.Data.List.Basic
import Mathlib.Order.CompletePartialOrder

/-!
# Runs

A machine answers one input after the other, each time from the state in which the last one left it.
What a single step keeps, a run keeps.  A run that may stop at any time leaves a beginning of a word
of answers; beginnings are built from the front, as runs are.
-/

namespace AchievementLogic

namespace Run

variable {State Input Output : Type} (step : State → Input → Output × State)

def after (state : State) (inputs : List Input) : State :=
  inputs.foldl (fun state input => (step state input).2) state

def answers (state : State) : List Input → List Output
  | [] => []
  | input :: later => (step state input).1 :: answers (step state input).2 later

theorem after_append (state : State) (first later : List Input) :
    after step state (first ++ later) = after step (after step state first) later :=
  List.foldl_append

theorem length_answers (state : State) (inputs : List Input) :
    (answers step state inputs).length = inputs.length := by
  induction inputs generalizing state with
  | nil => rfl
  | cons input later ih => rw [answers, List.length_cons, ih, List.length_cons]

theorem answers_append (state : State) (first later : List Input) :
    answers step state (first ++ later) =
      answers step state first ++ answers step (after step state first) later := by
  induction first generalizing state with
  | nil => rfl
  | cons input others ih =>
      rw [List.cons_append, answers, ih, answers, List.cons_append]
      rfl

theorem take_answers (state : State) (inputs : List Input) (time : Nat) :
    (answers step state inputs).take time = answers step state (inputs.take time) := by
  induction inputs generalizing state time with
  | nil => simp [answers]
  | cons input later ih =>
      cases time with
      | zero => rfl
      | succ time => rw [answers, List.take_succ_cons, ih, List.take_succ_cons, answers]

/-- An answer is that of the state at its time. -/
theorem getElem?_answers (state : State) (inputs : List Input) (time : Nat) :
    (answers step state inputs)[time]? =
      inputs[time]?.map fun input => (step (after step state (inputs.take time)) input).1 := by
  induction inputs generalizing state time with
  | nil => simp [answers]
  | cons input later ih =>
      cases time with
      | zero => rfl
      | succ time => exact ih _ time

theorem after_take_succ {state : State} {inputs : List Input} {time : Nat} {input : Input}
    (hinput : inputs[time]? = some input) :
    after step state (inputs.take (time + 1)) =
      (step (after step state (inputs.take time)) input).2 := by
  rw [List.take_add_one, hinput, after_append]
  rfl

/-- A run goes on from where its first part ends. -/
theorem after_take {first later : Nat} (hle : first ≤ later) (state : State)
    (inputs : List Input) :
    after step state (inputs.take later) =
      after step (after step state (inputs.take first)) ((inputs.take later).drop first) := by
  have hfirst : inputs.take first = (inputs.take later).take first := by
    rw [List.take_take, Nat.min_eq_left hle]
  rw [hfirst, ← after_append, List.take_append_drop]

variable {step}

theorem after_of_keeps (holds : State → Prop) {inputs : List Input}
    (hkeeps : ∀ state, ∀ input ∈ inputs, holds state → holds (step state input).2) {state : State}
    (hstate : holds state) : holds (after step state inputs) := by
  induction inputs generalizing state with
  | nil => exact hstate
  | cons input later ih =>
      have hnow := hkeeps state input List.mem_cons_self hstate
      exact ih (fun state input hmem => hkeeps state input (List.mem_cons_of_mem _ hmem)) hnow

/-- A machine that goes along with another one step by step goes along with it on every run. -/
theorem map_answers {Other Seen : Type} {otherStep : Other → Input → Seen × Other}
    {view : Output → Seen} {along : State → Other → Prop}
    (hstep : ∀ state other input, along state other →
      view (step state input).1 = (otherStep other input).1 ∧
        along (step state input).2 (otherStep other input).2)
    {state : State} {other : Other} (halong : along state other) (inputs : List Input) :
    (answers step state inputs).map view = answers otherStep other inputs ∧
      along (after step state inputs) (after otherStep other inputs) := by
  induction inputs generalizing state other with
  | nil => exact ⟨rfl, halong⟩
  | cons input later ih =>
      obtain ⟨hview, hnext⟩ := hstep state other input halong
      obtain ⟨hanswers, hafter⟩ := ih hnext
      rw [answers, answers, List.map_cons, hview, hanswers]
      exact ⟨rfl, hafter⟩

/-- A machine that goes along with another one and answers the same does so on every run. -/
theorem answers_eq {Other : Type} {otherStep : Other → Input → Output × Other}
    {along : State → Other → Prop}
    (hstep : ∀ state other input, along state other →
      (step state input).1 = (otherStep other input).1 ∧
        along (step state input).2 (otherStep other input).2)
    {state : State} {other : Other} (halong : along state other) (inputs : List Input) :
    answers step state inputs = answers otherStep other inputs := by
  have hview : ∀ state other input, along state other →
      id (step state input).1 = (otherStep other input).1 ∧
        along (step state input).2 (otherStep other input).2 := hstep
  have hanswers := (map_answers hview halong inputs).1
  rwa [List.map_id] at hanswers

end Run

/-! ## Beginnings of words -/

open scoped Computability

variable {Letter : Type} {language next : Language Letter} {first later : List Letter}

theorem append_mem_kstar (hfirst : first ∈ language) (hlater : later ∈ language∗) :
    first ++ later ∈ language∗ := by
  have hle : language * language∗ ≤ language∗ := mul_kstar_le_kstar
  exact hle (Language.append_mem_mul hfirst hlater)

/-- The lists that can be continued to a word of a language. -/
def beginnings (language : Language Letter) : Language Letter :=
  {first | ∃ word ∈ language, first <+: word}

theorem nil_mem_beginnings {word : List Letter} (hword : word ∈ language) :
    [] ∈ beginnings language := ⟨word, hword, List.nil_prefix⟩

theorem beginnings_mono (hle : language ≤ next) : beginnings language ≤ beginnings next := by
  rintro first ⟨word, hword, hfirst⟩
  exact ⟨word, hle hword, hfirst⟩

theorem append_mem_beginnings (hfirst : first ∈ language) (hlater : later ∈ beginnings next) :
    first ++ later ∈ beginnings (language * next) := by
  obtain ⟨word, hword, hprefix⟩ := hlater
  exact ⟨first ++ word, Language.append_mem_mul hfirst hword,
    (List.prefix_append_right_inj first).mpr hprefix⟩

theorem append_mem_beginnings_kstar (hfirst : first ∈ language)
    (hlater : later ∈ beginnings (language∗)) : first ++ later ∈ beginnings (language∗) :=
  beginnings_mono mul_kstar_le_kstar (append_mem_beginnings hfirst hlater)

end AchievementLogic
