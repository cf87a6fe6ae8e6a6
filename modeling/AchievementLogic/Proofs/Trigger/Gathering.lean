import AchievementLogic.Proofs.Runs
import AchievementLogic.Proofs.Trigger.Passes

/-!
# What a frame makes of the groups of a trigger

Every group is evaluated, the core like the others, and a reset takes the hits of all of them.  What
a trigger reports is put together from what its groups report, each by itself: only a core that is
alone is treated differently from a group among others.  So a change of chains that shows in none of
their outcomes shows in no report.
-/

namespace AchievementLogic

/-- What a group reports of a frame, apart from what becomes of its conditions. -/
def Group.report (group : Group) : GroupOutcome := { group.evaluate with group := ⟨[]⟩ }

/-! ## Chains that are changed -/

def GroupOutcome.mapGroup (change : Group → Group) (outcome : GroupOutcome) : GroupOutcome :=
  { outcome with group := change outcome.group }

namespace Group

section ChangedChains

variable {change : Chain → Chain}

/-- A change of chains that commutes with evaluating each of them commutes with the pass over the
pauses. -/
theorem pausePass_map (hkind : ∀ chain, (change chain).kind = chain.kind) {chains : List Chain}
    (hevaluate : ∀ chain ∈ chains, (change chain).evaluate = chain.evaluate.mapChain change) :
    pausePass (chains.map change) =
      ((pausePass chains).1.map (·.mapChain change), (pausePass chains).2) := by
  induction chains with
  | nil => rfl
  | cons head tail ih =>
      obtain ⟨hhead, htail⟩ := List.forall_mem_cons.mp hevaluate
      have hpauses : (change head).pausesGroup = head.pausesGroup := by
        rw [Chain.pausesGroup, Chain.pausesGroup, hkind, hhead]
        rfl
      have hidle : (tail.map change).map Chain.idle =
          (tail.map Chain.idle).map (·.mapChain change) := by
        rw [List.map_map, List.map_map]
        rfl
      rw [List.map_cons, pausePass_cons, pausePass_cons, hpauses, hkind, hhead, ih htail, hidle,
        List.map_cons]
      cases head.pausesGroup <;> split <;> rfl

theorem measuredOf_map (hrole : ∀ chain, (change chain).terminal.role = chain.terminal.role)
    (outcomes : List ChainOutcome) :
    measuredOf (outcomes.map (·.mapChain change)) = measuredOf outcomes := by
  simp only [measuredOf, List.foldl_map, List.any_map, Function.comp_def, ChainOutcome.mapChain,
    hrole]

/-- A change of the chains of a group that evaluating does not notice chain by chain does not show in
the outcome of the group. -/
theorem evaluate_of_chains {left right : Group}
    (hchains : right.chains = left.chains.map change)
    (hkind : ∀ chain, (change chain).kind = chain.kind)
    (hrole : ∀ chain, (change chain).terminal.role = chain.terminal.role)
    (hevaluate : ∀ chain ∈ left.chains, (change chain).evaluate = chain.evaluate.mapChain change) :
    right.evaluate = left.evaluate.mapGroup fun group =>
      ⟨Chain.join (group.chains.map change) right.loose⟩ := by
  have hpass := pausePass_map hkind hevaluate
  rw [← hchains] at hpass
  have hpaused : right.chains.any Chain.pausesGroup = left.chains.any Chain.pausesGroup := by
    rw [← snd_pausePass, hpass, snd_pausePass]
  have houtcomes : right.chains.map Chain.evaluate =
      (left.chains.map Chain.evaluate).map (·.mapChain change) := by
    rw [hchains, List.map_map, List.map_map]
    exact List.map_congr_left hevaluate
  have hlogic (outcomes : List ChainOutcome) :
      (outcomes.map (·.mapChain change)).filter (·.chain.kind == .logic) =
        (outcomes.filter (·.chain.kind == .logic)).map (·.mapChain change) := by
    rw [List.filter_map]
    simp only [Function.comp_def, ChainOutcome.mapChain, hkind]
  rw [GroupOutcome.mapGroup, chains_evaluate]
  cases hleft : left.chains.any Chain.pausesGroup with
  | true =>
      rw [hleft] at hpaused
      rw [evaluate_of_paused hleft, evaluate_of_paused hpaused, hpass, hchains, if_pos rfl]
      simp only [List.map_map, List.any_map, Function.comp_def, ChainOutcome.mapChain, hkind]
  | false =>
      rw [hleft] at hpaused
      rw [evaluate_of_not_paused hleft, evaluate_of_not_paused hpaused, houtcomes,
        if_neg Bool.false_ne_true]
      simp only [hlogic, measuredOf_map hrole, List.isEmpty_map]
      simp only [List.map_map, List.any_map, List.all_map, Function.comp_def,
        ChainOutcome.mapChain, hkind, hrole]

end ChangedChains

end Group

namespace Trigger

/-! ## The groups after a frame -/

theorem groups_advance (trigger : Trigger) (frame : Frame) :
    (trigger.advance frame).groups = trigger.groups.map (·.advance frame) := rfl

theorem wasReset_evaluate (trigger : Trigger) :
    trigger.evaluate.1.wasReset = trigger.groups.any fun group =>
      group.evaluate.resetRequested := by
  simp [evaluate, gather, groups, Function.comp_def]

/-- Every group is evaluated, and a reset leaves none of them any hits. -/
theorem groups_evaluate (trigger : Trigger) :
    trigger.evaluate.2.groups = trigger.groups.map fun group =>
      if trigger.evaluate.1.wasReset then group.clearHits else group.evaluate.group := by
  cases hreset : trigger.evaluate.1.wasReset with
  | true =>
      simp only [evaluate, gather] at hreset ⊢
      simp [hreset, groups, mapGroups, Group.clearHits_evaluate]
  | false =>
      simp only [evaluate, gather] at hreset ⊢
      simp [hreset, groups]

theorem core_evaluate (trigger : Trigger) :
    trigger.evaluate.2.core =
      if trigger.evaluate.1.wasReset then trigger.core.clearHits
      else trigger.core.evaluate.group :=
  (List.cons.inj (groups_evaluate trigger)).1

theorem alternates_evaluate (trigger : Trigger) :
    trigger.evaluate.2.alternates = trigger.alternates.map fun group =>
      if trigger.evaluate.1.wasReset then group.clearHits else group.evaluate.group :=
  (List.cons.inj (groups_evaluate trigger)).2

theorem hits_of_wasReset {trigger : Trigger} (hreset : trigger.evaluate.1.wasReset = true) :
    ∀ group ∈ trigger.evaluate.2.groups, ∀ condition ∈ group.conditions,
      condition.hits = 0 := by
  rw [groups_evaluate, List.forall_mem_map]
  intro group _
  rw [if_pos hreset, Group.clearHits, List.forall_mem_map]
  intro condition _
  rfl

theorem alternates_eq_nil_iff (trigger : Trigger) :
    trigger.alternates = [] ↔ trigger.groups.length = 1 := by
  rw [groups, List.length_cons, Nat.add_eq_right, List.length_eq_zero_iff]

def after (trigger : Trigger) (frames : List Frame) : Trigger := Run.after test trigger frames

/-! ## What is reported -/

/-- What of the groups decides for a trigger: of the core if it is alone and has a condition, else of
any group that has a say. -/
def decides (trigger : Trigger) (holds : GroupOutcome → Bool) : Bool :=
  if trigger.alternates.isEmpty then !trigger.core.isEmpty && holds trigger.core.evaluate
  else trigger.groups.any fun group => contributes group.evaluate && holds group.evaluate

/-- What is joined from the outcomes of the groups is whether one of the groups that decide has the
property. -/
theorem joins_eq_decides (trigger : Trigger) (holds : GroupOutcome → Bool) :
    (!trigger.isEmpty &&
      joins trigger.core.evaluate (trigger.alternates.map Group.evaluate) holds) =
      trigger.decides holds := by
  cases halternates : trigger.alternates with
  | nil => simp [joins, decides, isEmpty, groups, halternates]
  | cons first others =>
      cases hempty : trigger.isEmpty with
      | true =>
          -- empty groups have no logic, so none of them has a say
          have hnone : ∀ group ∈ trigger.groups, contributes group.evaluate = false := by
            rintro ⟨conditions⟩ hmem
            have hgroup := List.all_eq_true.mp hempty _ hmem
            rw [Group.isEmpty, List.isEmpty_iff] at hgroup
            subst hgroup
            rfl
          have hany : (trigger.groups.any fun group =>
              contributes group.evaluate && holds group.evaluate) = false := by
            apply List.any_eq_false.mpr
            intro group hmem
            simp [hnone group hmem]
          simp [decides, halternates, hany]
      | false => simp [joins, decides, groups, halternates, Function.comp_def]

theorem result_evaluate (trigger : Trigger) :
    trigger.evaluate.1.result =
      (!trigger.evaluate.1.wasReset && trigger.decides (·.result)) := by
  rw [← joins_eq_decides]
  simp only [evaluate, gather]
  rw [Bool.and_left_comm, Bool.and_assoc]

theorem dirty_evaluate (trigger : Trigger) :
    trigger.evaluate.1.dirty =
      (trigger.groups.any (fun group => group.evaluate.dirty) ||
        trigger.evaluate.1.wasReset) := by
  simp [evaluate, gather, groups, Function.comp_def]

/-- A trigger is primed where its groups say so, nothing was reset, and it is not true but some
group could trigger. -/
theorem primed_evaluate (trigger : Trigger) :
    trigger.evaluate.2.primed =
      (!trigger.evaluate.1.wasReset && trigger.decides (·.primed) &&
        !trigger.evaluate.1.result &&
        trigger.groups.any fun group => group.evaluate.hasTrigger) := by
  have hgathered : trigger.evaluate.2.primed =
      ((!trigger.isEmpty && !trigger.evaluate.1.wasReset &&
          joins trigger.core.evaluate (trigger.alternates.map Group.evaluate) (·.primed)) &&
        !trigger.evaluate.1.result &&
        (trigger.core.evaluate :: trigger.alternates.map Group.evaluate).any (·.hasTrigger)) := by
    simp only [evaluate, gather]
    split <;> rfl
  rw [hgathered, ← joins_eq_decides, Bool.and_comm (!trigger.isEmpty), Bool.and_assoc (!_)]
  simp [groups, Function.comp_def]

theorem primed_of_wasReset {trigger : Trigger} (hreset : trigger.evaluate.1.wasReset = true) :
    trigger.evaluate.2.primed = false := by
  rw [primed_evaluate, hreset, Bool.not_true, Bool.false_and, Bool.false_and, Bool.false_and]

/-- The progress of a trigger is picked from that of all its groups. -/
theorem measured?_evaluate (trigger : Trigger) :
    trigger.evaluate.2.measured? =
      (trigger.groups.map fun group => group.evaluate.measured?).foldl largerMeasured none := by
  have hgathered : trigger.evaluate.2.measured? =
      measuredOf trigger.core.evaluate (trigger.alternates.map Group.evaluate) := by
    simp only [evaluate, gather]
    split <;> rfl
  have hfirst : largerMeasured none trigger.core.evaluate.measured? =
      trigger.core.evaluate.measured? := rfl
  rw [hgathered, measuredOf, groups, List.map_cons, List.foldl_cons, hfirst, List.foldl_map,
    List.foldl_map]

/-! ## Triggers whose groups report the same -/

section Reports

variable {left right : Trigger}

theorem map_evaluate_of_reports {Seen : Type} (observe : GroupOutcome → Seen)
    (hobserve : ∀ outcome, observe { outcome with group := ⟨[]⟩ } = observe outcome)
    (hreports : right.groups.map Group.report = left.groups.map Group.report) :
    (right.groups.map fun group => observe group.evaluate) =
      left.groups.map fun group => observe group.evaluate := by
  have hseen := congrArg (List.map observe) hreports
  simpa only [List.map_map, Function.comp_def, Group.report, hobserve] using hseen

theorem any_evaluate_of_reports (observe : GroupOutcome → Bool)
    (hobserve : ∀ outcome, observe { outcome with group := ⟨[]⟩ } = observe outcome)
    (hreports : right.groups.map Group.report = left.groups.map Group.report) :
    (right.groups.any fun group => observe group.evaluate) =
      left.groups.any fun group => observe group.evaluate := by
  have hany := congrArg (List.any · id) (map_evaluate_of_reports observe hobserve hreports)
  simpa only [List.any_map, Function.id_comp] using hany

theorem wasReset_of_reports
    (hreports : right.groups.map Group.report = left.groups.map Group.report) :
    right.evaluate.1.wasReset = left.evaluate.1.wasReset := by
  rw [wasReset_evaluate, wasReset_evaluate]
  exact any_evaluate_of_reports (·.resetRequested) (fun _ => rfl) hreports

/-- Whether the groups decide for something can be told from their reports. -/
theorem decides_of_reports {holds : GroupOutcome → Bool}
    (hholds : ∀ outcome, holds { outcome with group := ⟨[]⟩ } = holds outcome)
    (hempty : right.core.isEmpty = left.core.isEmpty)
    (hreports : right.groups.map Group.report = left.groups.map Group.report) :
    right.decides holds = left.decides holds := by
  have halone : right.alternates.isEmpty = left.alternates.isEmpty := by
    have hlength := congrArg List.length hreports
    rw [List.length_map, List.length_map] at hlength
    rw [Bool.eq_iff_iff, List.isEmpty_iff, List.isEmpty_iff, alternates_eq_nil_iff,
      alternates_eq_nil_iff, hlength]
  have hcore : right.core.report = left.core.report := (List.cons.inj hreports).1
  have hdecides : holds right.core.evaluate = holds left.core.evaluate := by
    rw [← hholds right.core.evaluate, ← hholds left.core.evaluate]
    exact congrArg holds hcore
  have hany := any_evaluate_of_reports (fun outcome => contributes outcome && holds outcome)
    (fun outcome => by rw [hholds]; rfl) hreports
  rw [decides, decides, halone, hempty, hdecides, hany]

/-- What a trigger reports of a frame depends on what its groups report, and on whether its core has
conditions at all. -/
theorem evaluate_of_reports (hempty : right.core.isEmpty = left.core.isEmpty)
    (hreports : right.groups.map Group.report = left.groups.map Group.report) :
    right.evaluate.1 = left.evaluate.1 ∧ right.evaluate.2.primed = left.evaluate.2.primed ∧
      right.evaluate.2.measured? = left.evaluate.2.measured? := by
  have hreset := wasReset_of_reports hreports
  have hresult : right.evaluate.1.result = left.evaluate.1.result := by
    rw [result_evaluate, result_evaluate, hreset,
      decides_of_reports (fun _ => rfl) hempty hreports]
  have hdirty : right.evaluate.1.dirty = left.evaluate.1.dirty := by
    rw [dirty_evaluate, dirty_evaluate, hreset,
      any_evaluate_of_reports (·.dirty) (fun _ => rfl) hreports]
  have hprimed : right.evaluate.2.primed = left.evaluate.2.primed := by
    rw [primed_evaluate, primed_evaluate, hreset, hresult,
      decides_of_reports (fun _ => rfl) hempty hreports,
      any_evaluate_of_reports (·.hasTrigger) (fun _ => rfl) hreports]
  have hmeasured : right.evaluate.2.measured? = left.evaluate.2.measured? := by
    rw [measured?_evaluate, measured?_evaluate,
      map_evaluate_of_reports (·.measured?) (fun _ => rfl) hreports]
  refine ⟨?_, hprimed, hmeasured⟩
  calc right.evaluate.1
      = ⟨right.evaluate.1.result, right.evaluate.1.dirty, right.evaluate.1.wasReset⟩ := rfl
    _ = left.evaluate.1 := by rw [hresult, hdirty, hreset]

end Reports

/-! ## Groups that are changed -/

/-- A change of groups that evaluating does not notice group by group does not show in what the
trigger reports. -/
theorem evaluate_mapGroups {trigger : Trigger} {change : Group → Group}
    (hempty : (change trigger.core).isEmpty = trigger.core.isEmpty)
    (hclear : ∀ group, (change group).clearHits = change group.clearHits)
    (hevaluate : ∀ group ∈ trigger.groups,
      (change group).evaluate = group.evaluate.mapGroup change) :
    (trigger.mapGroups change).evaluate =
      (trigger.evaluate.1, trigger.evaluate.2.mapGroups change) := by
  have hgroups : (trigger.mapGroups change).groups = trigger.groups.map change := rfl
  have hreports : (trigger.mapGroups change).groups.map Group.report =
      trigger.groups.map Group.report := by
    rw [hgroups, List.map_map]
    apply List.map_congr_left
    intro group hmem
    rw [Function.comp_apply, Group.report, hevaluate group hmem]
    rfl
  have hreset := wasReset_of_reports hreports
  have hafter (group : Group) (hmem : group ∈ trigger.groups) :
      (if trigger.evaluate.1.wasReset then (change group).clearHits
        else (change group).evaluate.group) =
        change (if trigger.evaluate.1.wasReset then group.clearHits
          else group.evaluate.group) := by
    split
    · exact hclear group
    · rw [hevaluate group hmem]
      rfl
  obtain ⟨houtcome, hprimed, hmeasured⟩ := evaluate_of_reports hempty hreports
  have hcore : (trigger.mapGroups change).evaluate.2.core = change trigger.evaluate.2.core := by
    rw [core_evaluate, core_evaluate, hreset]
    exact hafter trigger.core List.mem_cons_self
  have halternates : (trigger.mapGroups change).evaluate.2.alternates =
      trigger.evaluate.2.alternates.map change := by
    rw [alternates_evaluate, alternates_evaluate, hreset, mapGroups, List.map_map, List.map_map]
    exact List.map_congr_left fun group hmem => hafter group (List.mem_cons_of_mem _ hmem)
  calc (trigger.mapGroups change).evaluate
      = ((trigger.mapGroups change).evaluate.1,
          ⟨(trigger.mapGroups change).evaluate.2.core,
            (trigger.mapGroups change).evaluate.2.alternates,
            (trigger.mapGroups change).evaluate.2.primed,
            (trigger.mapGroups change).evaluate.2.measured?⟩) := rfl
    _ = (trigger.evaluate.1, trigger.evaluate.2.mapGroups change) := by
      rw [houtcome, hcore, halternates, hprimed, hmeasured]
      rfl

end Trigger

end AchievementLogic
