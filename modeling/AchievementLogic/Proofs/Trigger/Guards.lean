import AchievementLogic.Memory.Image
import AchievementLogic.Proofs.Trigger.Gathering
import AchievementLogic.Proofs.Trigger.HitCounts

/-!
# Pauses and resets

A satisfied pause takes its group out of a frame: only pauses up to that one are counted, and the
trigger comes to what it would come to if the group were empty.  A satisfied reset of any group that
is not paused takes the hits of all groups, also of paused ones, and the trigger is neither true nor
primed on that frame.
-/

namespace AchievementLogic

/-! ## Resets -/

namespace Group

/-- Whether a satisfied pause keeps the rest of the group from being evaluated. -/
def IsPaused (group : Group) : Prop :=
  ∃ chain ∈ group.chains, chain.kind = .pause ∧ chain.Satisfied

theorem any_pausesGroup_iff (group : Group) :
    group.chains.any Chain.pausesGroup = true ↔ group.IsPaused := by
  simp only [List.any_eq_true, Chain.pausesGroup_iff, IsPaused]

/-- A group asks for a reset where no pause stops it and one of its resets is satisfied. -/
theorem resetRequested_evaluate_iff (group : Group) :
    group.evaluate.resetRequested = true ↔
      ¬group.IsPaused ∧ ∃ chain ∈ group.chains, chain.kind = .reset ∧ chain.Satisfied := by
  rw [← any_pausesGroup_iff]
  cases hpaused : group.chains.any Chain.pausesGroup with
  | true => simp [evaluate_of_paused hpaused]
  | false =>
      rw [evaluate_of_not_paused hpaused]
      simp [Chain.satisfied_evaluate]

end Group

namespace Trigger

/-- A trigger is reset if and only if a group that is not paused has a satisfied reset.  Then no
condition of any group is left with hits, and the trigger is neither true nor primed. -/
theorem test_wasReset (trigger : Trigger) (frame : Frame) :
    ((trigger.test frame).1.wasReset = true ↔
      ∃ group ∈ (trigger.advance frame).groups, ¬group.IsPaused ∧
        ∃ chain ∈ group.chains, chain.kind = .reset ∧ chain.Satisfied) ∧
    ((trigger.test frame).1.wasReset = true →
      (∀ group ∈ (trigger.test frame).2.groups, ∀ condition ∈ group.conditions,
        condition.hits = 0) ∧
      (trigger.test frame).1.result = false ∧ (trigger.test frame).1.dirty = true ∧
      (trigger.test frame).2.primed = false) := by
  rw [test]
  generalize trigger.advance frame = advanced
  constructor
  · simp only [wasReset_evaluate, List.any_eq_true, Group.resetRequested_evaluate_iff]
  · intro hreset
    refine ⟨hits_of_wasReset hreset, ?_, ?_, primed_of_wasReset hreset⟩
    · rw [result_evaluate, hreset, Bool.not_true, Bool.false_and]
    · rw [dirty_evaluate, hreset, Bool.or_true]

def onByte (role : Role) (address value requiredHits : UInt32) : Condition :=
  { role
    source := .memory { access := .address, size := .byte, address }
    comparison? := some .equal
    target := .word value
    requiredHits }

def sevens : Frame := { source := (Image.ofBytes [7, 7, 7, 7]).source }

/-- A core that pauses, beside a reset that hits of its link help on, and a count in a third group. -/
def countedReset : Trigger :=
  { core := ⟨[onByte (.guard .pauseIf) 0 7 0, (onByte (.check .standard) 1 7 5).withHits 3]⟩
    alternates := [
      ⟨[(onByte (.tally .addHits) 1 7 0).withHits 2, onByte (.guard .resetIf) 2 7 4]⟩,
      ⟨[(onByte (.check .trigger) 3 7 9).withHits 8]⟩] }

theorem test_wasReset_countedReset :
    (countedReset.test sevens).1.wasReset = true ∧
      (∀ group ∈ (countedReset.test sevens).2.groups, ∀ condition ∈ group.conditions,
        condition.hits = 0) ∧
      (countedReset.test sevens).1.result = false ∧
      (countedReset.test sevens).1.dirty = true ∧
      (countedReset.test sevens).2.primed = false := by
  have hreset : (countedReset.test sevens).1.wasReset = true := by decide +kernel
  exact ⟨hreset, (test_wasReset countedReset sevens).2 hreset⟩

end Trigger

/-! ## Pauses -/

def Chain.hits (chain : Chain) : List UInt32 := chain.conditions.map (·.hits)

namespace Group

/-- The pauses of the group, in the order in which they are evaluated. -/
def pauses (group : Group) : List Chain := group.chains.filter (·.kind == .pause)

/-- The first satisfied pause of the group is the one with this index. -/
structure PausedBy (group : Group) (index : Nat) : Prop where
  satisfied : ∃ pause, group.pauses[index]? = some pause ∧ pause.Satisfied
  first : ∀ earlier ∈ group.pauses.take index, ¬earlier.Satisfied

/-- The chain at this place is none of the first pauses, as many as are given. -/
def IsOutsideFirst (group : Group) (count place : Nat) : Prop :=
  ∀ chain ∈ group.chains[place]?, chain.kind = .pause →
    count ≤ (group.chains.take place).countP (·.kind == .pause)

theorem PausedBy.any_pausesGroup {group : Group} {index : Nat} (hpaused : group.PausedBy index) :
    group.chains.any Chain.pausesGroup = true := by
  obtain ⟨pause, hpause, hsatisfied⟩ := hpaused.satisfied
  obtain ⟨hmem, hkind⟩ := List.mem_filter.mp (List.mem_of_getElem? hpause)
  rw [any_pausesGroup_iff]
  exact ⟨pause, hmem, beq_iff_eq.mp hkind, hsatisfied⟩

/-- A pause that comes after the first satisfied one has that one before it. -/
theorem PausedBy.any_take {group : Group} {index place : Nat} (hpaused : group.PausedBy index)
    (hlater : index < (group.chains.take place).countP (·.kind == .pause)) :
    (group.chains.take place).any Chain.pausesGroup = true := by
  obtain ⟨pause, hpause, hsatisfied⟩ := hpaused.satisfied
  have hprefix : (group.chains.take place).filter (·.kind == .pause) <+: group.pauses :=
    (List.take_prefix place group.chains).filter _
  have hlength : index < ((group.chains.take place).filter (·.kind == .pause)).length := by
    rwa [← List.countP_eq_length_filter]
  have hfound := List.prefix_iff_getElem?.mp hprefix index hlength
  rw [hpause, Option.some.injEq] at hfound
  have hmem : pause ∈ (group.chains.take place).filter (·.kind == .pause) := by
    rw [hfound]
    exact List.getElem_mem hlength
  obtain ⟨hbefore, hkind⟩ := List.mem_filter.mp hmem
  apply List.any_eq_true.mpr
  exact ⟨pause, hbefore, pause.pausesGroup_iff.mpr ⟨beq_iff_eq.mp hkind, hsatisfied⟩⟩

/-- A paused group leaves its chains alone, those pauses aside that it looked at. -/
theorem PausedBy.getElem?_chains_evaluate {group : Group} {index place : Nat}
    (hpaused : group.PausedBy index) (houtside : group.IsOutsideFirst (index + 1) place) :
    group.evaluate.group.chains[place]? = group.chains[place]? := by
  rw [chains_evaluate, if_pos hpaused.any_pausesGroup, List.getElem?_map,
    getElem?_pausePass, Option.map_map]
  cases hchain : group.chains[place]? with
  | none => rfl
  | some chain =>
      have hidle : (chain.kind == .pause &&
          !(group.chains.take place).any Chain.pausesGroup) = false := by
        by_cases hkind : chain.kind = .pause
        · rw [hpaused.any_take (houtside chain hchain hkind), Bool.not_true, Bool.and_false]
        · rw [beq_false_of_ne hkind, Bool.false_and]
      rw [Option.map_some, Function.comp_apply, hidle, if_neg Bool.false_ne_true]
      rfl

/-- Reading memory changes no hits. -/
theorem hits_advance (group : Group) (frame : Frame) :
    (group.advance frame).chains.map Chain.hits = group.chains.map Chain.hits ∧
      (group.advance frame).loose.map (·.hits) = group.loose.map (·.hits) := by
  have hbare : (group.advance frame).conditions.map Condition.bare =
      group.conditions.map Condition.bare := map_bare_advanceFrom frame 0 group.conditions
  obtain ⟨hchains, hloose⟩ := split_of_map_bare_eq hbare
  have hchain (chain : Chain) : (chain.map Condition.bare).hits = chain.hits := by
    rw [Chain.hits, Chain.conditions_map, List.map_map]
    rfl
  have hhits := congrArg (List.map Chain.hits) hchains
  have hlooseHits := congrArg (List.map (·.hits)) hloose
  simp only [List.map_map, Function.comp_def, hchain] at hhits
  rw [List.map_map, List.map_map] at hlooseHits
  exact ⟨hhits, hlooseHits⟩

/-- A paused group requests nothing, is neither true nor primed, and measures nothing. -/
theorem silent_of_paused {group : Group} (hpaused : group.chains.any Chain.pausesGroup = true) :
    group.evaluate.resetRequested = false ∧ group.evaluate.result = false ∧
      group.evaluate.primed = false ∧ group.evaluate.hasTrigger = false ∧
      group.evaluate.measured? = none ∧ Trigger.contributes group.evaluate = false := by
  simp [evaluate_of_paused hpaused, Trigger.contributes]

end Group

namespace Trigger

/-- The trigger with an empty group in place of the one with this number. -/
def silence (trigger : Trigger) (number : Nat) : Trigger :=
  trigger.modifyGroup number fun _ => ⟨[]⟩

section Silence

variable {trigger : Trigger} {number : Nat} {group : Group}

theorem groups_silence (trigger : Trigger) (number : Nat) :
    (trigger.silence number).groups = trigger.groups.set number ⟨[]⟩ := by
  rw [List.set_eq_modify]
  cases number <;> rfl

theorem advance_silence (trigger : Trigger) (number : Nat) (frame : Frame) :
    (trigger.silence number).advance frame = (trigger.advance frame).silence number := by
  cases number with
  | zero => rfl
  | succ number =>
      simp only [silence, modifyGroup, advance, mapGroups, ← List.set_eq_modify, List.map_set]
      rfl

/-- Of all groups the same is seen after one gave way to a group of which the same is seen. -/
theorem map_groups_silence {Seen : Type} (observe : Group → Seen)
    (hgroup : trigger.groups[number]? = some group) (hsame : observe ⟨[]⟩ = observe group) :
    (trigger.silence number).groups.map observe = trigger.groups.map observe := by
  rw [groups_silence, List.map_set, hsame, List.set_eq_modify]
  apply List.ext_getElem?
  intro place
  rw [List.getElem?_modify]
  by_cases hplace : number = place
  · subst hplace
    simp [hgroup]
  · simp [hplace]

theorem any_groups_silence (observe : Group → Bool)
    (hgroup : trigger.groups[number]? = some group) (hsame : observe ⟨[]⟩ = observe group) :
    (trigger.silence number).groups.any observe = trigger.groups.any observe := by
  have hmap := congrArg (List.any · id) (map_groups_silence observe hgroup hsame)
  simpa only [List.any_map, Function.id_comp] using hmap

/-- A group without a say decides as little as an empty one. -/
theorem decides_silence {holds : GroupOutcome → Bool}
    (hgroup : trigger.groups[number]? = some group)
    (hsilent : contributes group.evaluate = false) (hholds : holds group.evaluate = false) :
    (trigger.silence number).decides holds = trigger.decides holds := by
  have hany := any_groups_silence
    (fun group => contributes group.evaluate && holds group.evaluate) hgroup
    (by simp only [hsilent, Bool.false_and]; rfl)
  have hlength : (trigger.silence number).alternates.isEmpty = trigger.alternates.isEmpty := by
    rw [Bool.eq_iff_iff, List.isEmpty_iff, List.isEmpty_iff, alternates_eq_nil_iff,
      alternates_eq_nil_iff, groups_silence, List.length_set]
  rw [decides, decides, hlength, hany]
  cases halternates : trigger.alternates.isEmpty with
  | false => rfl
  | true =>
      rw [List.isEmpty_iff] at halternates
      cases number with
      | zero =>
          obtain rfl : trigger.core = group := Option.some.inj hgroup
          simp [silence, modifyGroup, hholds, Group.isEmpty]
      | succ number =>
          simp [groups, halternates] at hgroup

/-- With an empty group in place of a paused one a trigger reports the same. -/
theorem evaluate_silence (hgroup : trigger.groups[number]? = some group)
    (hpaused : group.chains.any Chain.pausesGroup = true) :
    (trigger.silence number).evaluate.1.wasReset = trigger.evaluate.1.wasReset ∧
      (trigger.silence number).evaluate.1.result = trigger.evaluate.1.result ∧
      (trigger.silence number).evaluate.2.primed = trigger.evaluate.2.primed ∧
      (trigger.silence number).evaluate.2.measured? = trigger.evaluate.2.measured? := by
  obtain ⟨hreset, hresult, hprimed, htrigger, hmeasured, hsilent⟩ :=
    Group.silent_of_paused hpaused
  have hwasReset : (trigger.silence number).evaluate.1.wasReset = trigger.evaluate.1.wasReset := by
    rw [wasReset_evaluate, wasReset_evaluate]
    exact any_groups_silence _ hgroup hreset.symm
  have hresults : (trigger.silence number).evaluate.1.result = trigger.evaluate.1.result := by
    rw [result_evaluate, result_evaluate, hwasReset, decides_silence hgroup hsilent hresult]
  refine ⟨hwasReset, hresults, ?_, ?_⟩
  · have hany := any_groups_silence (fun group => group.evaluate.hasTrigger) hgroup htrigger.symm
    rw [primed_evaluate, primed_evaluate, hwasReset, hresults, hany,
      decides_silence hgroup hsilent hprimed]
  · rw [measured?_evaluate, measured?_evaluate]
    rw [map_groups_silence (fun group => group.evaluate.measured?) hgroup hmeasured.symm]

end Silence

/-- Unless a reset takes all hits, a paused group keeps them outside the pauses up to the one that
was satisfied, and in any case a trigger reports what it would report with an empty group in its
place: it is reset, true or primed only by other groups, and only they measure. -/
theorem test_pausedBy {trigger : Trigger} {frame : Frame} {number index : Nat} {group : Group}
    (hgroup : trigger.groups[number]? = some group)
    (hpaused : (group.advance frame).PausedBy index) :
    ((trigger.test frame).1.wasReset = false →
      ∃ after, (trigger.test frame).2.groups[number]? = some after ∧
        after.loose.map (·.hits) = group.loose.map (·.hits) ∧
        ∀ place, (group.advance frame).IsOutsideFirst (index + 1) place →
          after.chains[place]?.map Chain.hits = group.chains[place]?.map Chain.hits) ∧
    ((trigger.silence number).test frame).1.wasReset = (trigger.test frame).1.wasReset ∧
    ((trigger.silence number).test frame).1.result = (trigger.test frame).1.result ∧
    ((trigger.silence number).test frame).2.primed = (trigger.test frame).2.primed ∧
    ((trigger.silence number).test frame).2.measured? = (trigger.test frame).2.measured? := by
  have hadvanced : (trigger.advance frame).groups[number]? = some (group.advance frame) := by
    have hgroups : (trigger.advance frame).groups = trigger.groups.map (·.advance frame) := rfl
    rw [hgroups, List.getElem?_map, hgroup]
    rfl
  constructor
  · intro hkept
    obtain ⟨hchains, hloose⟩ := group.hits_advance frame
    refine ⟨(group.advance frame).evaluate.group, ?_, ?_, ?_⟩
    · rw [test] at hkept ⊢
      rw [groups_evaluate, List.getElem?_map, hadvanced, hkept]
      rfl
    · rw [Group.loose_evaluate, hloose]
    · intro place houtside
      rw [hpaused.getElem?_chains_evaluate houtside, ← List.getElem?_map, hchains,
        List.getElem?_map]
  · rw [test, test, advance_silence]
    exact evaluate_silence hadvanced hpaused.any_pausesGroup

/-- A core that its second pause stops, before it resets, measures or checks anything. -/
def countedPause : Trigger :=
  { core := ⟨[
      onByte (.guard .pauseIf) 0 9 0,
      (onByte (.check .measured) 1 7 5).withHits 3,
      onByte (.tally .addHits) 1 7 0,
      (onByte (.guard .pauseIf) 2 7 4).withHits 2,
      onByte (.guard .resetIf) 2 7 0,
      (onByte (.guard .pauseIf) 2 7 8).withHits 7,
      (onByte (.tally .addHits) 3 7 0).withHits 6]⟩
    alternates := [⟨[onByte (.check .trigger) 3 7 9]⟩] }

theorem test_pausedBy_countedPause :
    (countedPause.core.advance sevens).PausedBy 1 ∧
      (countedPause.test sevens).1.wasReset = false ∧
      (∃ after, (countedPause.test sevens).2.groups[0]? = some after ∧
        after.loose.map (·.hits) = [6] ∧
        ∀ place ∈ [1, 3, 4],
          after.chains[place]?.map Chain.hits = countedPause.core.chains[place]?.map Chain.hits) ∧
      ((countedPause.silence 0).test sevens).2.primed = (countedPause.test sevens).2.primed := by
  have hpaused : (countedPause.core.advance sevens).PausedBy 1 :=
    ⟨⟨_, rfl, by decide +kernel⟩, by decide +kernel⟩
  have hkept : (countedPause.test sevens).1.wasReset = false := by decide +kernel
  have hgroup : countedPause.groups[0]? = some countedPause.core := rfl
  obtain ⟨hhits, -, -, hprimed, -⟩ := test_pausedBy hgroup hpaused
  obtain ⟨after, hafter, hloose, hchains⟩ := hhits hkept
  have houtside : ∀ place ∈ [1, 3, 4],
      (countedPause.core.advance sevens).IsOutsideFirst 2 place := by
    unfold Group.IsOutsideFirst
    decide +kernel
  exact ⟨hpaused, hkept, ⟨after, hafter, hloose, fun place hplace =>
    hchains place (houtside place hplace)⟩, hprimed⟩

end Trigger

end AchievementLogic
