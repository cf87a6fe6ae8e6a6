import AchievementLogic.Proofs.Trigger.Gathering
import AchievementLogic.Proofs.Trigger.HitGrowth

/-!
# What chains come to without their links

What a group reports, and which of its chains it skips, is said by what its chains come to: their
kinds and terminals, whether they are satisfied, what they measure and whether hits changed.  Their
links do not matter beyond that, so groups whose chains differ in links alone, and come to the same,
cannot be told apart.
-/

namespace AchievementLogic

def Chain.ending (chain : Chain) : Chain := { chain with links := [] }

namespace Group

section SameChains

variable {left right : Group}

/-- What the chains of a group come to on a frame, their links aside. -/
def endings (group : Group) : List ChainOutcome :=
  group.chains.map fun chain => chain.evaluate.mapChain Chain.ending

theorem map_evaluate_of_endings {Seen : Type} (observe : ChainOutcome → Seen)
    (hobserve : ∀ outcome, observe (outcome.mapChain Chain.ending) = observe outcome)
    (hsame : right.endings = left.endings) :
    (right.chains.map fun chain => observe chain.evaluate) =
      left.chains.map fun chain => observe chain.evaluate := by
  have hseen := congrArg (List.map observe) hsame
  simpa only [endings, List.map_map, Function.comp_def, hobserve] using hseen

theorem map_pausesGroup_of_endings (hsame : right.endings = left.endings) :
    right.chains.map Chain.pausesGroup = left.chains.map Chain.pausesGroup :=
  map_evaluate_of_endings (fun outcome => outcome.chain.kind == .pause && outcome.satisfied)
    (fun _ => rfl) hsame

theorem any_pausesGroup_of_endings (hsame : right.endings = left.endings) :
    right.chains.any Chain.pausesGroup = left.chains.any Chain.pausesGroup := by
  have hany := congrArg (List.any · id) (map_pausesGroup_of_endings hsame)
  simpa only [List.any_map, Function.id_comp] using hany

/-- The same chains are skipped. -/
theorem skips_of_endings (hsame : right.endings = left.endings) (place : ℕ) (kind : ChainKind) :
    right.skips place kind = left.skips place kind := by
  rw [skips, skips]
  split
  · have hearlier := congrArg (fun pauses => (pauses.take place).any id)
      (map_pausesGroup_of_endings hsame)
    simpa only [← List.map_take, List.any_map, Function.id_comp] using hearlier
  · exact any_pausesGroup_of_endings hsame

/-- Which pauses change hits can be told from what each chain comes to by itself. -/
theorem map_dirty_pausePass {left right : List Chain}
    (hsame : right.map (fun chain => (chain.kind, chain.evaluate.satisfied, chain.evaluate.dirty)) =
      left.map fun chain => (chain.kind, chain.evaluate.satisfied, chain.evaluate.dirty)) :
    (pausePass right).1.map (·.dirty) = (pausePass left).1.map (·.dirty) := by
  induction left generalizing right with
  | nil =>
      obtain rfl := List.map_eq_nil_iff.mp hsame
      rfl
  | cons head tail ih =>
      obtain ⟨other, others, rfl, hhead, htail⟩ := List.map_eq_cons_iff.mp hsame
      simp only [Prod.mk.injEq] at hhead
      obtain ⟨hkind, hsatisfied, hdirty⟩ := hhead
      have hpauses : other.pausesGroup = head.pausesGroup := by
        rw [Chain.pausesGroup, Chain.pausesGroup, hkind, hsatisfied]
      have hlength : others.length = tail.length := by
        simpa using congrArg List.length htail
      have hidle (chains : List Chain) :
          (chains.map Chain.idle).map (·.dirty) = List.replicate chains.length false := by
        rw [List.map_map, ← List.map_const']
        rfl
      rw [pausePass_cons, pausePass_cons, List.map_cons, List.map_cons, hpauses, hkind]
      congr 1
      · split
        · exact hdirty
        · rfl
      · split
        · rw [hidle, hidle, hlength]
        · exact ih htail

/-- What a group that is not paused reports is said by what its chains come to, their links aside. -/
theorem report_of_not_paused {group : Group}
    (hrunning : group.chains.any Chain.pausesGroup = false) :
    group.report =
      let logic := group.endings.filter (·.chain.kind == .logic)
      let triggers (outcome : ChainOutcome) : Bool :=
        outcome.chain.terminal.role == .check .trigger
      let resetRequested := group.endings.any fun outcome =>
        outcome.chain.kind == .reset && outcome.satisfied
      { group := ⟨[]⟩
        result := logic.all (·.satisfied) && !resetRequested
        primed := logic.all (fun outcome => triggers outcome || outcome.satisfied) &&
          !resetRequested
        hasLogic := !logic.isEmpty
        hasTrigger := logic.any triggers
        resetRequested
        dirty := group.endings.any (·.dirty)
        measured? := measuredOf logic } := by
  have hendings : group.endings =
      (group.chains.map Chain.evaluate).map (·.mapChain Chain.ending) := by
    rw [List.map_map]
    rfl
  rw [report, evaluate_of_not_paused hrunning, hendings]
  generalize group.chains.map Chain.evaluate = outcomes
  have hlogic : (outcomes.map (·.mapChain Chain.ending)).filter (·.chain.kind == .logic) =
      (outcomes.filter (·.chain.kind == .logic)).map (·.mapChain Chain.ending) := by
    rw [List.filter_map]
    rfl
  have hrole (chain : Chain) : chain.ending.terminal.role = chain.terminal.role := rfl
  have hmeasured (outcomes : List ChainOutcome) :
      measuredOf (outcomes.map (·.mapChain Chain.ending)) = measuredOf outcomes :=
    measuredOf_map hrole outcomes
  simp only [hlogic, hmeasured, List.isEmpty_map, List.any_map, List.all_map]
  rfl

/-- What a group reports does not depend on the links of its chains but through what the chains come
to. -/
theorem report_of_endings (hsame : right.endings = left.endings) : right.report = left.report := by
  have hpaused := any_pausesGroup_of_endings hsame
  cases hleft : left.chains.any Chain.pausesGroup with
  | true =>
      rw [hleft] at hpaused
      have hlogic := congrArg (List.any · id)
        (map_evaluate_of_endings (·.chain.kind == .logic) (fun _ => rfl) hsame)
      have hdirty := congrArg (List.any · id) (map_dirty_pausePass
        (map_evaluate_of_endings (fun outcome => (outcome.chain.kind, outcome.satisfied, outcome.dirty))
          (fun _ => rfl) hsame))
      simp only [List.any_map, Function.comp_def, id_eq, Chain.kind_evaluate] at hlogic hdirty
      rw [report, report, evaluate_of_paused hleft, evaluate_of_paused hpaused]
      simp only [hlogic, hdirty]
  | false =>
      rw [hleft] at hpaused
      rw [report_of_not_paused hleft, report_of_not_paused hpaused, hsame]

end SameChains

end Group

end AchievementLogic
