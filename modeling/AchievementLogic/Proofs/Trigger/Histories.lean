import AchievementLogic.Memory.Image
import AchievementLogic.Proofs.Trigger.Gathering
import AchievementLogic.Proofs.Trigger.Printing

/-!
# The histories of operands

On every frame each memory operand reads once, whatever pauses or resets its group, and nothing else
changes what it remembers.  So its history after a run is a function of the readings of the run: the
last one, the one before, and the last one that differed.
-/

namespace AchievementLogic

/-! ## The history of a sequence of readings -/

/-- What is remembered of a sequence of readings at a time. -/
def History.ofReadings (reading : ℕ → UInt32) (time : ℕ) : History where
  current := reading time
  previous := reading (time - 1)
  prior := (((List.range time).map reading).filter (· != reading time)).getLastD 0

theorem History.ofReadings_zero {reading : ℕ → UInt32} (hstart : reading 0 = 0) :
    ofReadings reading 0 = {} := by
  simp [ofReadings, hstart]

/-- Each reading moves the history on by one. -/
theorem History.push_ofReadings (reading : ℕ → UInt32) (time : ℕ) :
    (ofReadings reading time).push (reading (time + 1)) = ofReadings reading (time + 1) := by
  have hreadings : (List.range (time + 1)).map reading =
      (List.range time).map reading ++ [reading time] := by
    rw [List.range_succ, List.map_append, List.map_singleton]
  rw [push, ofReadings, ofReadings, hreadings, List.filter_append]
  by_cases hsame : reading (time + 1) = reading time
  · simp [hsame]
  · have hlast : [reading time].filter (· != reading (time + 1)) = [reading time] := by
      simp [Ne.symm hsame]
    rw [hlast, List.getLastD_concat, if_neg hsame, Nat.add_sub_cancel]

/-! ## Readings of a group -/

inductive Side
  | source
  | target
deriving DecidableEq, Repr

namespace Condition

def operand (condition : Condition) : Side → Operand
  | .source => condition.source
  | .target => condition.target

/-- What the condition adds to the addresses of the next one. -/
def shift (condition : Condition) : UInt32 :=
  if condition.role = .modifier .addAddress then condition.source.value.toWord else 0

theorem operand_clearHits (condition : Condition) (side : Side) :
    condition.clearHits.operand side = condition.operand side := by
  cases side <;> rfl

theorem operand_advance (condition : Condition) (frame : Frame) (offset : UInt32) (side : Side) :
    (condition.advance frame offset).operand side =
      (condition.operand side).advance frame offset := by
  cases side <;> rfl

end Condition

/-- What is added to the addresses of the condition with this index. -/
def Group.shiftAt (first : UInt32) (conditions : List Condition) : ℕ → UInt32
  | 0 => first
  | before + 1 => (conditions[before]?.map Condition.shift).getD 0

/-- Each condition moves once, with the offset that the moved condition before it gives. -/
theorem Group.getElem?_advanceFrom (frame : Frame) (offset : UInt32)
    (conditions : List Condition) (index : ℕ) :
    (advanceFrom frame offset conditions)[index]? = conditions[index]?.map
      (·.advance frame (shiftAt offset (advanceFrom frame offset conditions) index)) := by
  induction conditions generalizing offset index with
  | nil => rfl
  | cons head tail ih =>
      cases index with
      | zero => rfl
      | succ index =>
          rw [advanceFrom, List.getElem?_cons_succ, List.getElem?_cons_succ, ih]
          cases index <;> rfl

/-! ## Readings of a trigger -/

namespace Trigger

def conditionAt? (trigger : Trigger) (number index : ℕ) : Option Condition :=
  trigger.groups[number]?.bind (·.conditions[index]?)

def operandAt? (trigger : Trigger) (number index : ℕ) (side : Side) : Option Operand :=
  (trigger.conditionAt? number index).map (·.operand side)

/-- What is added to the addresses of a condition: the value of the source of the condition before it
in its group, where that one adds an address. -/
def shiftAt (trigger : Trigger) (number : ℕ) : ℕ → UInt32
  | 0 => 0
  | before + 1 => ((trigger.conditionAt? number before).map Condition.shift).getD 0

/-- A new frame reaches every condition by itself, with what the condition before it adds on that
very frame. -/
theorem conditionAt?_advance (trigger : Trigger) (frame : Frame) (number index : ℕ) :
    (trigger.advance frame).conditionAt? number index = (trigger.conditionAt? number index).map
      (·.advance frame ((trigger.advance frame).shiftAt number index)) := by
  have hgroup (index : ℕ) : (trigger.advance frame).conditionAt? number index =
      trigger.groups[number]?.bind fun group => (group.advance frame).conditions[index]? := by
    rw [conditionAt?, groups_advance, List.getElem?_map, Option.bind_map]
    rfl
  have hshift : (trigger.advance frame).shiftAt number index =
      (trigger.groups[number]?.map fun group =>
        Group.shiftAt 0 (group.advance frame).conditions index).getD 0 := by
    cases index with
    | zero => cases trigger.groups[number]? <;> rfl
    | succ before =>
        rw [shiftAt, hgroup]
        cases trigger.groups[number]? <;> rfl
  rw [hshift, hgroup, conditionAt?]
  cases trigger.groups[number]? with
  | none => rfl
  | some group => exact Group.getElem?_advanceFrom frame 0 group.conditions index

/-- Evaluating changes no condition but in its hits, also where it is skipped or reset. -/
theorem map_clearHits_conditionAt?_evaluate (trigger : Trigger) (number index : ℕ) :
    (trigger.evaluate.2.conditionAt? number index).map Condition.clearHits =
      (trigger.conditionAt? number index).map Condition.clearHits := by
  have hgroup (group : Group) :
      (if trigger.evaluate.1.wasReset then group.clearHits else group.evaluate.group).clearHits =
        group.clearHits := by
    split
    · simp [Group.clearHits, Condition.clearHits, Condition.withHits]
    · exact group.clearHits_evaluate
  have hcleared (group : Group) :
      group.conditions[index]?.map Condition.clearHits = group.clearHits.conditions[index]? :=
    List.getElem?_map.symm
  rw [conditionAt?, groups_evaluate, List.getElem?_map, Option.bind_map, Option.map_bind,
    conditionAt?, Option.map_bind]
  congr 1
  funext group
  simp only [Function.comp_apply, hcleared, hgroup]

theorem shiftAt_test (trigger : Trigger) (frame : Frame) (number index : ℕ) :
    (trigger.test frame).2.shiftAt number index =
      (trigger.advance frame).shiftAt number index := by
  cases index with
  | zero => rfl
  | succ before =>
      have hsame := map_clearHits_conditionAt?_evaluate (trigger.advance frame) number before
      have hshift := congrArg (fun found? => (found?.map Condition.shift).getD 0) hsame
      simp only [Option.map_map] at hshift
      exact hshift

/-- On every frame each operand moves once. -/
theorem operandAt?_test (trigger : Trigger) (frame : Frame) (number index : ℕ) (side : Side) :
    (trigger.test frame).2.operandAt? number index side =
      (trigger.operandAt? number index side).map
        (·.advance frame ((trigger.test frame).2.shiftAt number index)) := by
  have hsame := map_clearHits_conditionAt?_evaluate (trigger.advance frame) number index
  have hoperand := congrArg (Option.map (·.operand side)) hsame
  simp only [Option.map_map, Function.comp_def, Condition.operand_clearHits] at hoperand
  have hadvanced : (trigger.test frame).2.operandAt? number index side =
      ((trigger.advance frame).conditionAt? number index).map (·.operand side) := hoperand
  rw [hadvanced, conditionAt?_advance, ← shiftAt_test, operandAt?, Option.map_map, Option.map_map]
  congr 1
  funext condition
  exact condition.operand_advance frame _ side

/-- What a memory operand has read at each time of a run, its condition being the one with this
index in the group with this number: nothing at first, then once on every frame. -/
def reading (trigger : Trigger) (frames : List Frame) (number index : ℕ)
    (operand : MemoryOperand) : ℕ → UInt32
  | 0 => 0
  | before + 1 =>
    let shift := (trigger.after (frames.take (before + 1))).shiftAt number index
    (frames[before]?.map fun frame => operand.size.read frame (operand.address + shift)).getD 0

/-- A trigger that was read from a text has not read any memory yet. -/
theorem history_of_read {text : String} {trigger : Trigger}
    (hread : Trigger.read.readAll text = .ok trigger) {number index : ℕ} {side : Side}
    {operand : MemoryOperand}
    (hoperand : trigger.operandAt? number index side = some (.memory operand)) :
    operand.history = {} := by
  obtain ⟨condition, hcondition, hside⟩ := Option.map_eq_some_iff.mp hoperand
  obtain ⟨group, hgroup, hindex⟩ := Option.bind_eq_some_iff.mp hcondition
  have hisRead : condition.IsRead := (Trigger.ensures_read.readAll hread).conditions group
    (List.mem_of_getElem? hgroup) condition (List.mem_of_getElem? hindex)
  have hfresh : (condition.operand side).fresh = condition.operand side := by
    have hoperands := congrArg (·.operand side) hisRead.fresh
    cases side with
    | source => exact hoperands
    | target => exact hoperands
  rw [hside, Operand.fresh, Operand.memory.injEq] at hfresh
  rw [← hfresh]

/-- After a run of a trigger that was read from a text, each memory operand remembers its readings of
that run. -/
theorem histories_after {text : String} {trigger : Trigger}
    (hread : Trigger.read.readAll text = .ok trigger) {number index : ℕ} {side : Side}
    {operand : MemoryOperand}
    (hoperand : trigger.operandAt? number index side = some (.memory operand))
    (frames : List Frame) :
    (trigger.after frames).operandAt? number index side = some (.memory
      { operand with
        history := .ofReadings (trigger.reading frames number index operand) frames.length }) := by
  -- by induction on the time, which leaves the frames and so the readings as they are
  have hatTime (time : ℕ) (htime : time ≤ frames.length) :
      (trigger.after (frames.take time)).operandAt? number index side = some (.memory
        { operand with
          history := .ofReadings (trigger.reading frames number index operand) time }) := by
    induction time with
    | zero =>
        rw [History.ofReadings_zero rfl, ← history_of_read hread hoperand]
        exact hoperand
    | succ time ih =>
        have hframe : frames[time]? = some frames[time] := List.getElem?_eq_getElem htime
        have hafter : trigger.after (frames.take (time + 1)) =
            ((trigger.after (frames.take time)).test frames[time]).2 :=
          Run.after_take_succ test hframe
        have hreading : trigger.reading frames number index operand (time + 1) =
            operand.size.read frames[time]
              (operand.address +
                (trigger.after (frames.take (time + 1))).shiftAt number index) := by
          rw [reading, hframe]
          rfl
        rw [← History.push_ofReadings, hreading, hafter, operandAt?_test,
          ih (Nat.le_of_succ_le htime)]
        rfl
  have hend := hatTime frames.length le_rfl
  rwa [List.take_length] at hend

/-- A byte is looked at through a pointer, with a pause in its group and a reset beside it. -/
def throughPointer : Trigger :=
  { core := ⟨[
      { role := .modifier .addAddress
        source := .memory { access := .address, size := .byte, address := 0 }
        comparison? := none
        target := default },
      { role := .check .standard
        source := .memory { access := .prior, size := .byte, address := 1 }
        comparison? := some .equal
        target := .word 6 },
      { role := .guard .pauseIf
        source := .memory { access := .address, size := .byte, address := 3 }
        comparison? := some .equal
        target := .word 1 }]⟩
    alternates := [⟨[
      { role := .guard .resetIf
        source := .memory { access := .address, size := .byte, address := 3 }
        comparison? := some .equal
        target := .word 0 }]⟩] }

/-- The pointer moves back on the second frame, on which the group pauses; the others reset. -/
def pointerFrames : List Frame :=
  [[1, 5, 6, 0], [0, 5, 6, 1], [0, 5, 6, 0]].map fun bytes =>
    { source := (Image.ofBytes bytes).source }

theorem histories_after_throughPointer :
    (throughPointer.after pointerFrames).operandAt? 0 1 .source = some (.memory
      { access := .prior, size := .byte, address := 1
        history := { current := 5, previous := 5, prior := 6 } }) := by
  have hread : Trigger.read.readAll "I:0xH0000_p0xH0001=6_P:0xH0003=1SR:0xH0003=0" =
      .ok throughPointer := rfl
  have hoperand : throughPointer.operandAt? 0 1 .source =
      some (.memory { access := .prior, size := .byte, address := 1 }) := rfl
  rw [histories_after hread hoperand pointerFrames]
  have hhistory : History.ofReadings (throughPointer.reading pointerFrames 0 1
      { access := .prior, size := .byte, address := 1 }) pointerFrames.length =
      { current := 5, previous := 5, prior := 6 } := by decide +kernel
  rw [hhistory]

end Trigger

end AchievementLogic
