import AchievementLogic.Proofs.Trigger.Guards
import AchievementLogic.Proofs.Trigger.Histories

/-!
# Hits that only grow

Without a reset a frame takes hits from two kinds of conditions only: a pause without a hit target,
whose hits say whether it holds now, and a condition whose hits a link before it clears.  A link, a
terminal, a chain, a group and a trigger keep the hits of all others in turn, where `ClearsNext`
carries along the links what the carry says of the conditions before.
-/

namespace AchievementLogic

/-! ## Which conditions may lose hits -/

/-- Apart from modifiers, the last of these roles is that of a condition that clears the hits of the
next one. -/
def ClearsNext (earlier : List Role) : Prop :=
  ∃ before modifiers : List Role, earlier = before ++ .resetNextIf :: modifiers ∧
    ∀ role ∈ modifiers, role.isModifier = true

/-- Whether a frame may take hits from a condition after others of these roles, without a reset of all
groups. -/
def Condition.MayLoseHits (condition : Condition) (earlier : List Role) : Prop :=
  (condition.role = .guard .pauseIf ∧ condition.requiredHits = 0) ∨
    (condition.role.isModifier = false ∧ ClearsNext earlier)

namespace ClearsNext

theorem append_right {earlier : List Role} (hclears : ClearsNext earlier) (front : List Role) :
    ClearsNext (front ++ earlier) := by
  obtain ⟨before, modifiers, rfl, hmodifiers⟩ := hclears
  exact ⟨front ++ before, modifiers, (List.append_assoc ..).symm, hmodifiers⟩

theorem concat_modifier {earlier : List Role} (hclears : ClearsNext earlier) {role : Role}
    (hrole : role.isModifier = true) : ClearsNext (earlier ++ [role]) := by
  obtain ⟨before, modifiers, rfl, hmodifiers⟩ := hclears
  refine ⟨before, modifiers ++ [role], by rw [List.append_assoc, List.cons_append], ?_⟩
  exact List.forall_mem_append.mpr ⟨hmodifiers, List.forall_mem_singleton.mpr hrole⟩

end ClearsNext

/-- Modifiers aside, it is the last role that says whether the next hits are cleared. -/
theorem clearsNext_iff (earlier : List Role) :
    ClearsNext earlier ↔ (earlier.filter (!·.isModifier)).getLast? = some .resetNextIf := by
  constructor
  · rintro ⟨before, modifiers, rfl, hmodifiers⟩
    have hnone : modifiers.filter (!·.isModifier) = [] :=
      List.filter_eq_nil_iff.mpr fun role hmem => by simp [hmodifiers role hmem]
    rw [List.filter_append, List.filter_cons_of_pos rfl, hnone, List.getLast?_concat]
  · intro hlast
    obtain ⟨front, hfiltered⟩ := List.getLast?_eq_some_iff.mp hlast
    obtain ⟨before, rest, rfl, -, hrest⟩ := List.filter_eq_append_iff.mp hfiltered
    obtain ⟨passed, modifiers, rfl, -, -, hnone⟩ := List.filter_eq_cons_iff.mp hrest
    refine ⟨before ++ passed, modifiers, (List.append_assoc ..).symm, fun role hmem => ?_⟩
    simpa using List.filter_eq_nil_iff.mp hnone role hmem

instance (earlier : List Role) : Decidable (ClearsNext earlier) :=
  decidable_of_iff _ (clearsNext_iff earlier).symm

instance (condition : Condition) (earlier : List Role) :
    Decidable (condition.MayLoseHits earlier) :=
  inferInstanceAs (Decidable (_ ∨ _))

/-- The second conditions are the first ones, standing after conditions of the given roles, where each
has at least as many hits as before unless it may lose them. -/
inductive HitsKept : List Role → List Condition → List Condition → Prop
  | nil (earlier : List Role) : HitsKept earlier [] []
  | cons {earlier : List Role} {condition after : Condition} {others othersAfter : List Condition}
    (head : ¬condition.MayLoseHits earlier → condition.hits ≤ after.hits)
    (tail : HitsKept (earlier ++ [condition.role]) others othersAfter) :
    HitsKept earlier (condition :: others) (after :: othersAfter)

namespace HitsKept

variable {earlier : List Role} {conditions after others othersAfter : List Condition}

theorem refl (earlier : List Role) (conditions : List Condition) :
    HitsKept earlier conditions conditions := by
  induction conditions generalizing earlier with
  | nil => exact nil earlier
  | cons head tail ih => exact cons (fun _ => UInt32.le_refl _) (ih _)

/-- More conditions before them can only be one more reason to lose hits. -/
theorem append_earlier (hkept : HitsKept earlier conditions after) (front : List Role) :
    HitsKept (front ++ earlier) conditions after := by
  induction hkept with
  | nil earlier => exact nil _
  | cons hhead htail ih =>
      refine cons (fun hsafe => hhead fun hloses => hsafe ?_) (List.append_assoc .. ▸ ih)
      exact hloses.imp_right fun ⟨hrole, hclears⟩ => ⟨hrole, hclears.append_right front⟩

theorem append (hfirst : HitsKept earlier conditions after)
    (hlater : HitsKept (earlier ++ conditions.map (·.role)) others othersAfter) :
    HitsKept earlier (conditions ++ others) (after ++ othersAfter) := by
  induction hfirst with
  | nil earlier => simpa using hlater
  | cons hhead htail ih =>
      refine cons hhead (ih ?_)
      rwa [List.append_assoc, List.singleton_append, ← List.map_cons]

/-- A condition that may not lose hits is still in its place, with at least as many as before. -/
theorem getElem? (hkept : HitsKept earlier conditions after) {place : ℕ} {condition : Condition}
    (hcondition : conditions[place]? = some condition)
    (hsafe : ¬condition.MayLoseHits (earlier ++ (conditions.take place).map (·.role))) :
    ∃ later, after[place]? = some later ∧ condition.hits ≤ later.hits := by
  induction hkept generalizing place with
  | nil earlier => cases hcondition
  | @cons earlier head headAfter others othersAfter hhead htail ih =>
      cases place with
      | zero =>
          obtain rfl : head = condition := Option.some.inj hcondition
          rw [List.take_zero, List.map_nil, List.append_nil] at hsafe
          exact ⟨headAfter, rfl, hhead hsafe⟩
      | succ place =>
          apply ih hcondition
          rwa [List.append_assoc, List.singleton_append, ← List.map_cons, ← List.take_succ_cons]

end HitsKept

/-! ## Links -/

theorem Condition.hits_le_countHit (condition : Condition) :
    condition.hits ≤ condition.countHit.hits := by
  have hbound := condition.hits.toNat_lt
  unfold countHit
  simp only
  split
  case isTrue => exact UInt32.le_refl _
  case isFalse hmore =>
    have hlt : condition.hits.toNat ≠ 4294967295 := fun hlast => hmore (UInt32.toNat_inj.mp hlast)
    rw [UInt32.le_iff_toNat_le, UInt32.toNat_add, UInt32.toNat_one]
    omega

theorem Condition.hits_le_countIf (condition : Condition) (held : Bool) :
    condition.hits ≤ (condition.countIf held).hits := by
  unfold countIf
  split
  · exact condition.hits_le_countHit
  · exact UInt32.le_refl _

namespace Carry

variable {carry : Carry} {condition : Condition} {earlier : List Role}

theorem condition_meet_of_not_resetNext (hkept : carry.resetNext = false) :
    (carry.meet condition).condition = condition := by
  rw [meet, hkept]
  rfl

theorem hits_le_link (hkept : condition.role.isModifier = false → carry.resetNext = false) :
    condition.hits ≤ (carry.link condition).condition.hits := by
  rw [condition_link]
  split
  case isTrue => exact UInt32.le_refl _
  case isFalse hrole =>
    rw [condition_meet_of_not_resetNext (hkept (Bool.eq_false_iff.mpr hrole))]
    exact condition.hits_le_countIf _

/-- Only a reset of the next condition has hits cleared, and only modifiers pass that on. -/
theorem resetNext_link (hresets : (carry.link condition).carry.resetNext = true) :
    condition.role = .resetNextIf ∨
      (condition.role.isModifier = true ∧ carry.resetNext = true) := by
  unfold link at hresets
  split at hresets
  case h_4 =>
    cases hrole : condition.role with
    | resetNextIf => exact .inl rfl
    | tally kind => cases kind <;> (rw [hrole] at hresets; cases hresets)
    | _ => rw [hrole] at hresets; cases hresets
  all_goals rename_i hrole; exact .inr ⟨by rw [hrole]; rfl, hresets⟩

theorem clearsNext_link (hcarry : carry.resetNext = true → ClearsNext earlier)
    (hresets : (carry.link condition).carry.resetNext = true) :
    ClearsNext (earlier ++ [condition.role]) := by
  rcases resetNext_link hresets with hrole | ⟨hrole, hbefore⟩
  · exact ⟨earlier, [], by rw [hrole], by simp⟩
  · exact (hcarry hbefore).concat_modifier hrole

theorem clearsNext_links {conditions : List Condition}
    (hcarry : carry.resetNext = true → ClearsNext earlier)
    (hresets : (carry.links conditions).carry.resetNext = true) :
    ClearsNext (earlier ++ conditions.map (·.role)) := by
  induction conditions generalizing carry earlier with
  | nil => simpa using hcarry hresets
  | cons head tail ih =>
      have htail := ih (clearsNext_link hcarry) hresets
      rwa [List.append_assoc, List.singleton_append, ← List.map_cons] at htail

theorem hitsKept_links (hcarry : carry.resetNext = true → ClearsNext earlier)
    (conditions : List Condition) :
    HitsKept earlier conditions (carry.links conditions).conditions := by
  induction conditions generalizing carry earlier with
  | nil => exact .nil earlier
  | cons head tail ih =>
      refine .cons (fun hsafe => hits_le_link fun hrole => ?_) (ih (clearsNext_link hcarry))
      exact Bool.eq_false_iff.mpr fun hresets => hsafe (.inr ⟨hrole, hcarry hresets⟩)

end Carry

/-! ## Chains -/

namespace Encounter

theorem hits_le_endOpen {encounter : Encounter}
    (hrole : encounter.condition.role ≠ .guard .pauseIf) :
    encounter.condition.hits ≤ encounter.endOpen.condition.hits := by
  unfold endOpen
  simp only [hrole, if_false]
  split
  · exact encounter.condition.hits_le_countHit
  · exact UInt32.le_refl _

theorem hits_le_endTargeted (encounter : Encounter) (tally : Int) :
    encounter.condition.hits ≤ (encounter.endTargeted tally).condition.hits := by
  unfold endTargeted
  simp only
  split
  · exact encounter.condition.hits_le_countHit
  · exact UInt32.le_refl _

end Encounter

namespace Chain

/-- A terminal loses hits only where a link clears them, or where it is a pause without a target. -/
theorem hits_le_evaluate {chain : Chain} (hkept : chain.passed.resetNext = false)
    (hcounts : chain.terminal.role = .guard .pauseIf → chain.terminal.requiredHits ≠ 0) :
    chain.terminal.hits ≤ chain.evaluate.chain.terminal.hits := by
  have hmet : (chain.passed.meet chain.terminal).condition = chain.terminal :=
    Carry.condition_meet_of_not_resetNext hkept
  have hpassed : (({} : Carry).links chain.links).carry = chain.passed := rfl
  simp only [evaluate, hpassed]
  split
  case isTrue =>
    have hle := (chain.passed.meet chain.terminal).hits_le_endTargeted chain.passed.tally
    rwa [hmet] at hle
  case isFalse hopen =>
    rw [hmet, Condition.hasTarget, bne_iff_ne, not_not] at hopen
    have hrole : (chain.passed.meet chain.terminal).condition.role ≠ .guard .pauseIf := by
      rw [hmet]
      exact fun hpause => hcounts hpause hopen
    have hle := Encounter.hits_le_endOpen hrole
    rwa [hmet] at hle

theorem IsProper.hitsKept_evaluate {chain : Chain} (hproper : chain.IsProper) :
    HitsKept [] chain.conditions chain.evaluate.chain.conditions := by
  have hnone : ({} : Carry).resetNext = true → ClearsNext [] := fun hresets => by cases hresets
  apply (Carry.hitsKept_links hnone chain.links).append
  refine .cons (fun hsafe => hits_le_evaluate ?_ ?_) (.nil _)
  · refine Bool.eq_false_iff.mpr fun hresets => hsafe (.inr ⟨hproper.isModifier_terminal, ?_⟩)
    exact Carry.clearsNext_links hnone hresets
  · exact fun hpause hzero => hsafe (.inl ⟨hpause, hzero⟩)

theorem hitsKept_join {chains after : List Chain} (loose : List Condition)
    (hkept : List.Forall₂ (fun chain later => HitsKept [] chain.conditions later.conditions)
      chains after) :
    HitsKept [] (join chains loose) (join after loose) := by
  induction hkept with
  | nil => exact .refl _ _
  | cons hhead htail ih =>
      rw [join_cons, join_cons]
      apply hhead.append
      simpa using ih.append_earlier _

end Chain

/-! ## Groups -/

namespace Group

/-- Whether a satisfied pause keeps the chain at this place, being of this kind, from being evaluated:
for a pause one that stands before it, and for any other chain one anywhere in the group. -/
def skips (group : Group) (place : ℕ) (kind : ChainKind) : Bool :=
  (if kind = .pause then group.chains.take place else group.chains).any Chain.pausesGroup

/-- Evaluating a group evaluates its chains where they are, those apart that it skips. -/
theorem chains_evaluate_eq_mapIdx (group : Group) :
    group.evaluate.group.chains = group.chains.mapIdx fun place chain =>
      if group.skips place chain.kind then chain else chain.evaluate.chain := by
  apply List.ext_getElem?
  intro place
  rw [chains_evaluate, List.getElem?_mapIdx]
  cases hpaused : group.chains.any Chain.pausesGroup with
  | true =>
      rw [if_pos rfl, List.getElem?_map, getElem?_pausePass, Option.map_map]
      congr 1
      funext chain
      rw [Function.comp_apply, skips]
      by_cases hkind : chain.kind = .pause
      · cases htaken : (group.chains.take place).any Chain.pausesGroup <;>
          simp [hkind, htaken, Chain.idle]
      · simp [hkind, hpaused, Chain.idle]
  | false =>
      have hskips (kind : ChainKind) : group.skips place kind = false := by
        rw [skips]
        split
        · exact List.any_eq_false.mpr fun chain hmem =>
            List.any_eq_false.mp hpaused chain (List.mem_of_mem_take hmem)
        · exact hpaused
      rw [if_neg Bool.false_ne_true, List.getElem?_map]
      simp [hskips]

/-- Evaluating a group takes hits only from conditions that may lose them. -/
theorem hitsKept_evaluate (group : Group) :
    HitsKept [] group.conditions group.evaluate.group.conditions := by
  rw [← group.join_chains, ← group.evaluate.group.join_chains, loose_evaluate,
    chains_evaluate_eq_mapIdx]
  apply Chain.hitsKept_join
  rw [List.forall₂_iff_get]
  refine ⟨List.length_mapIdx.symm, fun place hbefore hafter => ?_⟩
  rw [List.get_eq_getElem, List.get_eq_getElem, List.getElem_mapIdx]
  split
  · exact .refl _ _
  · exact (group.isProper_chains _ (List.getElem_mem hbefore)).hitsKept_evaluate

end Group

/-! ## Triggers -/

namespace Trigger

theorem conditionAt?_of_group {trigger : Trigger} {number : ℕ} {group : Group}
    (hgroup : trigger.groups[number]? = some group) (place : ℕ) :
    trigger.conditionAt? number place = group.conditions[place]? := by
  rw [conditionAt?, hgroup, Option.bind_some]

/-- Without a reset a frame takes hits from no condition that may not lose them. -/
theorem hits_le_test {trigger : Trigger} {frame : Frame}
    (hkept : (trigger.test frame).1.wasReset = false) {number place : ℕ} {group : Group}
    {condition : Condition} (hgroup : trigger.groups[number]? = some group)
    (hcondition : group.conditions[place]? = some condition)
    (hsafe : ¬condition.MayLoseHits ((group.conditions.take place).map (·.role))) :
    ∃ later, (trigger.test frame).2.conditionAt? number place = some later ∧
      condition.hits ≤ later.hits := by
  have hafter : (trigger.test frame).2.groups[number]? =
      some (group.advance frame).evaluate.group := by
    rw [test] at hkept ⊢
    rw [groups_evaluate, hkept, List.getElem?_map, groups_advance, List.getElem?_map, hgroup]
    rfl
  rw [conditionAt?_of_group hafter]
  have hroles : ((group.advance frame).conditions.take place).map (·.role) =
      (group.conditions.take place).map (·.role) := by
    rw [List.map_take, List.map_take, Group.advance, Group.map_role_advanceFrom]
  have hbare := congrArg (·[place]?) (Group.map_bare_advanceFrom frame 0 group.conditions)
  simp only [List.getElem?_map, hcondition, Option.map_some] at hbare
  obtain ⟨advanced, hadvanced, hsame⟩ := Option.map_eq_some_iff.mp hbare
  have hadvancedSafe : ¬advanced.MayLoseHits
      (([] : List Role) ++ ((group.advance frame).conditions.take place).map (·.role)) := by
    have hbareSafe : ¬condition.bare.MayLoseHits ((group.conditions.take place).map (·.role)) :=
      hsafe
    rw [List.nil_append, hroles]
    rwa [← hsame] at hbareSafe
  obtain ⟨later, hlater, hle⟩ := (group.advance frame).hitsKept_evaluate.getElem? hadvanced
    hadvancedSafe
  refine ⟨later, hlater, ?_⟩
  have hhits : condition.bare.hits ≤ later.hits := by
    rw [← hsame]
    exact hle
  exact hhits

end Trigger

end AchievementLogic
