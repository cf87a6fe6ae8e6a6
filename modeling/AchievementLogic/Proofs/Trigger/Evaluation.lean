import AchievementLogic.Proofs.Trigger.Readings

/-!
# What evaluation looks at and what it changes

Evaluation looks at the roles, hits and shown values of conditions and changes nothing but hits.
Both facts are proved link by link: a trigger without its hits is the same before and after, and
evaluating a chain commutes with leaving out invisible readings.
-/

namespace AchievementLogic

/-! ## Changing every condition of a chain -/

def Chain.map (change : Condition → Condition) (chain : Chain) : Chain :=
  { chain with links := chain.links.map change, terminal := change chain.terminal }

def ChainOutcome.mapChain (change : Chain → Chain) (outcome : ChainOutcome) : ChainOutcome :=
  { outcome with chain := change outcome.chain }

namespace Chain

theorem conditions_map (change : Condition → Condition) (chain : Chain) :
    (chain.map change).conditions = chain.conditions.map change := by
  simp [Chain.map, conditions]

theorem join_map (change : Condition → Condition) (chains : List Chain) (loose : List Condition) :
    join (chains.map (Chain.map change)) (loose.map change) = (join chains loose).map change := by
  simp [join, List.flatMap_map, List.map_flatMap, conditions_map]

/-- Conditions fall into chains by their roles alone. -/
theorem split_map {change : Condition → Condition}
    (hrole : ∀ condition, (change condition).role = condition.role) (conditions : List Condition) :
    split (conditions.map change) =
      ((split conditions).1.map (Chain.map change), (split conditions).2.map change) := by
  induction conditions with
  | nil => rfl
  | cons head tail ih =>
      simp only [List.map_cons, split, ih, hrole]
      cases ChainKind.ofRole? head.role with
      | some kind => rfl
      | none => cases (split tail).1 <;> rfl

end Chain

/-! ## Evaluation changes hits alone -/

namespace Condition

/-- Conditions that differ in hits alone have the same role and the same target. -/
theorem role_eq_of_clearHits_eq {left right : Condition}
    (hsame : left.clearHits = right.clearHits) : left.role = right.role := by
  have hrole := congrArg role hsame
  exact hrole

theorem requiredHits_eq_of_clearHits_eq {left right : Condition}
    (hsame : left.clearHits = right.clearHits) : left.requiredHits = right.requiredHits := by
  have hrequired := congrArg requiredHits hsame
  exact hrequired

theorem clearHits_countIf (condition : Condition) (held : Bool) :
    (condition.countIf held).clearHits = condition.clearHits := by
  unfold countIf
  split <;> rfl

end Condition

theorem Carry.clearHits_meet (carry : Carry) (condition : Condition) :
    (carry.meet condition).condition.clearHits = condition.clearHits := by
  unfold meet
  cases carry.resetNext <;> rfl

theorem Carry.clearHits_link (carry : Carry) (condition : Condition) :
    (carry.link condition).condition.clearHits = condition.clearHits := by
  unfold link
  split <;> simp only [Condition.clearHits_countIf, clearHits_meet]

theorem Carry.map_clearHits_links (carry : Carry) (conditions : List Condition) :
    (carry.links conditions).conditions.map Condition.clearHits =
      conditions.map Condition.clearHits := by
  induction conditions generalizing carry with
  | nil => rfl
  | cons head tail ih => simp [links, clearHits_link, ih]

theorem Carry.links_append (carry : Carry) (first later : List Condition) :
    carry.links (first ++ later) =
      ⟨(carry.links first).conditions ++ ((carry.links first).carry.links later).conditions,
        ((carry.links first).carry.links later).carry,
        (carry.links first).dirty || ((carry.links first).carry.links later).dirty⟩ := by
  induction first generalizing carry with
  | nil => simp [links]
  | cons head tail ih => simp [links, ih, Bool.or_assoc]

theorem Carry.map_role_links (carry : Carry) (conditions : List Condition) :
    (carry.links conditions).conditions.map (·.role) = conditions.map (·.role) := by
  have hsame := congrArg (List.map (·.role)) (carry.map_clearHits_links conditions)
  rw [List.map_map, List.map_map] at hsame
  exact hsame

theorem Encounter.clearHits_endOpen (encounter : Encounter) :
    encounter.endOpen.condition.clearHits = encounter.condition.clearHits := by
  unfold endOpen
  by_cases hpause : encounter.condition.role = .guard .pauseIf
  · simp only [hpause, if_true]
    rfl
  · simp only [hpause, if_false]
    split <;> rfl

theorem Encounter.clearHits_endTargeted (encounter : Encounter) (tally : Int) :
    (encounter.endTargeted tally).condition.clearHits = encounter.condition.clearHits := by
  unfold endTargeted
  simp only
  split <;> rfl

theorem Chain.clearHits_evaluate (chain : Chain) :
    chain.evaluate.chain.map Condition.clearHits = chain.map Condition.clearHits := by
  have hlinks := Carry.map_clearHits_links {} chain.links
  have hmeet := ((({} : Carry).links chain.links).carry).clearHits_meet chain.terminal
  simp only [Chain.map, Chain.evaluate, hlinks, Chain.mk.injEq, true_and]
  split
  · rw [Encounter.clearHits_endTargeted, hmeet]
  · rw [Encounter.clearHits_endOpen, hmeet]

theorem Chain.map_fresh_evaluate (chain : Chain) :
    chain.evaluate.chain.map Condition.fresh = chain.map Condition.fresh := by
  have hsame := congrArg (Chain.map Condition.fresh) chain.clearHits_evaluate
  simpa only [Chain.map, List.map_map, Function.comp_def, Condition.fresh_clearHits] using hsame

namespace Group

theorem map_clearHits_pausePass (chains : List Chain) :
    (pausePass chains).1.map (·.chain.map Condition.clearHits) =
      chains.map (Chain.map Condition.clearHits) := by
  induction chains with
  | nil => rfl
  | cons head tail ih =>
      have hevaluate := head.clearHits_evaluate
      simp only [pausePass]
      split
      · split
        · simp [Chain.idle, hevaluate]
        · simp [ih, hevaluate]
      · simp [Chain.idle, ih]

theorem map_clearHits_mainPass (outcomes : List ChainOutcome) :
    (mainPass outcomes).map (·.chain.map Condition.clearHits) =
      outcomes.map (·.chain.map Condition.clearHits) := by
  rw [mainPass, List.map_map]
  apply List.map_congr_left
  intro outcome _
  simp only [Function.comp_apply]
  split
  · rfl
  · exact outcome.chain.clearHits_evaluate

/-- Chains that differ in hits alone are joined to conditions that differ in hits alone. -/
theorem clearHits_join {outcomes : List ChainOutcome} {conditions : List Condition}
    (hchains : outcomes.map (·.chain.map Condition.clearHits) =
      (Chain.split conditions).1.map (Chain.map Condition.clearHits)) :
    (⟨Chain.join (outcomes.map (·.chain)) (Chain.split conditions).2⟩ : Group).clearHits =
      clearHits ⟨conditions⟩ := by
  have hmap : (outcomes.map (·.chain)).map (Chain.map Condition.clearHits) =
      (Chain.split conditions).1.map (Chain.map Condition.clearHits) := by
    rw [List.map_map]
    exact hchains
  calc
    (⟨Chain.join (outcomes.map (·.chain)) (Chain.split conditions).2⟩ : Group).clearHits =
        ⟨Chain.join ((outcomes.map (·.chain)).map (Chain.map Condition.clearHits))
          ((Chain.split conditions).2.map Condition.clearHits)⟩ := by
      rw [Chain.join_map]
      rfl
    _ = clearHits ⟨conditions⟩ := by
      rw [hmap, Chain.join_map, Chain.join_split]
      rfl

theorem clearHits_evaluate (group : Group) : group.evaluate.group.clearHits = group.clearHits := by
  have hpauses := map_clearHits_pausePass (Chain.split group.conditions).1
  have hmain := map_clearHits_mainPass (pausePass (Chain.split group.conditions).1).1
  unfold evaluate
  simp only
  split
  · exact clearHits_join hpauses
  · exact clearHits_join (hmain.trans hpauses)

theorem fresh_evaluate (group : Group) : group.evaluate.group.fresh = group.fresh :=
  fresh_eq_of_clearHits_eq group.clearHits_evaluate

end Group

namespace Trigger

/-- Evaluation changes no definition. -/
@[simp]
theorem fresh_evaluate (trigger : Trigger) : trigger.evaluate.2.fresh = trigger.fresh := by
  have hgroups (primed : Bool) (measured? : Option Measured) :
      Trigger.fresh
        { core := trigger.core.evaluate.group
          alternates := (trigger.alternates.map Group.evaluate).map (·.group)
          primed
          measured? } = trigger.fresh := by
    simp [Trigger.fresh, Group.fresh_evaluate]
  simp only [evaluate, gather]
  split
  · rw [fresh_mapGroups Group.fresh_clearHits, hgroups]
  · rw [hgroups]

/-- No frame changes what a trigger was before any frame. -/
@[simp]
theorem fresh_test (trigger : Trigger) (frame : Frame) :
    (trigger.test frame).2.fresh = trigger.fresh := by
  rw [test, fresh_evaluate, fresh_advance]

end Trigger

/-! ## Evaluation looks at visible readings alone -/

namespace Condition

theorem role_visible (condition : Condition) : condition.visible.role = condition.role := rfl

theorem compare_visible (condition : Condition) (accumulated : Value) :
    condition.visible.compare accumulated = condition.compare accumulated := by
  simp [visible, compare, sourceValue]

theorem sourceValue_visible (condition : Condition) (accumulated : Value) :
    condition.visible.sourceValue accumulated = condition.sourceValue accumulated := by
  simp [visible, sourceValue]

theorem countIf_visible (condition : Condition) (held : Bool) :
    condition.visible.countIf held = (condition.countIf held).visible := by
  have hcomplete : condition.visible.isComplete = condition.isComplete := rfl
  unfold countIf
  rw [hcomplete]
  split <;> rfl

end Condition

def Encounter.visible (encounter : Encounter) : Encounter :=
  { encounter with condition := encounter.condition.visible }

theorem Carry.meet_visible (carry : Carry) (condition : Condition) :
    carry.meet condition.visible = (carry.meet condition).visible := by
  simp only [meet, Encounter.visible, condition.compare_visible, condition.sourceValue_visible]
  cases carry.resetNext <;> rfl

def LinkOutcome.visible (outcome : LinkOutcome) : LinkOutcome :=
  { outcome with condition := outcome.condition.visible }

theorem Carry.link_visible (carry : Carry) (condition : Condition) :
    carry.link condition.visible = (carry.link condition).visible := by
  have hsource : condition.visible.source.value = condition.source.value :=
    condition.source.value_visible
  unfold link
  rw [condition.role_visible]
  split
  · rw [condition.sourceValue_visible]
    rfl
  · rw [hsource]
    rfl
  · rfl
  · rw [meet_visible]
    simp only [Encounter.visible, Condition.countIf_visible]
    rfl

def LinksOutcome.visible (outcome : LinksOutcome) : LinksOutcome :=
  { outcome with conditions := outcome.conditions.map Condition.visible }

theorem Carry.links_visible (carry : Carry) (conditions : List Condition) :
    carry.links (conditions.map Condition.visible) = (carry.links conditions).visible := by
  induction conditions generalizing carry with
  | nil => rfl
  | cons head tail ih =>
      simp [links, link_visible, LinkOutcome.visible, LinksOutcome.visible, ih]

def TerminalOutcome.visible (outcome : TerminalOutcome) : TerminalOutcome :=
  { outcome with condition := outcome.condition.visible }

namespace Encounter

theorem endOpen_visible (encounter : Encounter) :
    encounter.visible.endOpen = encounter.endOpen.visible := by
  unfold endOpen
  by_cases hpause : encounter.condition.role = .guard .pauseIf
  · have hvisible : encounter.visible.condition.role = .guard .pauseIf := hpause
    simp only [hpause, hvisible, if_true]
    rfl
  · have hvisible : encounter.visible.condition.role ≠ .guard .pauseIf := hpause
    have hheld : encounter.visible.held = encounter.held := rfl
    simp only [hpause, hvisible, hheld, if_false]
    split <;> rfl

theorem endTargeted_visible (encounter : Encounter) (tally : Int) :
    encounter.visible.endTargeted tally = (encounter.endTargeted tally).visible := by
  have hheld : encounter.visible.held = encounter.held := rfl
  have hcomplete : encounter.visible.condition.isComplete = encounter.condition.isComplete := rfl
  have hhits : encounter.visible.condition.hits = encounter.condition.hits := rfl
  have hrequired : encounter.visible.condition.requiredHits =
      encounter.condition.requiredHits := rfl
  unfold endTargeted
  simp only [hheld, hcomplete, hhits, hrequired]
  split <;> rfl

theorem measured?_visible (encounter : Encounter) (tally : Int) (after : Condition) :
    encounter.visible.measured? tally after.visible = encounter.measured? tally after := by
  have htarget : after.visible.target.value = after.target.value := after.target.value_visible
  simp only [measured?, htarget]
  rfl

end Encounter

/-- Evaluating a chain commutes with forgetting what cannot be seen of its conditions. -/
theorem Chain.evaluate_visible (chain : Chain) :
    (chain.map Condition.visible).evaluate =
      chain.evaluate.mapChain (Chain.map Condition.visible) := by
  have hlinks : ({} : Carry).links (chain.map Condition.visible).links =
      (({} : Carry).links chain.links).visible := Carry.links_visible {} chain.links
  have hterminal : (chain.map Condition.visible).terminal = chain.terminal.visible := rfl
  have hkind : (chain.map Condition.visible).kind = chain.kind := rfl
  simp only [evaluate, hlinks, hterminal, hkind, LinksOutcome.visible, Carry.meet_visible]
  generalize ({} : Carry).links chain.links = links
  generalize links.carry.meet chain.terminal = encounter
  have htarget : encounter.visible.condition.hasTarget = encounter.condition.hasTarget := rfl
  rw [htarget]
  split
  · rw [Encounter.endTargeted_visible]
    simp only [TerminalOutcome.visible, Encounter.measured?_visible]
    rfl
  · rw [Encounter.endOpen_visible]
    simp only [TerminalOutcome.visible, Encounter.measured?_visible]
    rfl

end AchievementLogic
