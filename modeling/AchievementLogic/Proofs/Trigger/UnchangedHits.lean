import AchievementLogic.Proofs.Trigger.Guards

/-!
# Hits that do not change

Whatever writes a hit says so, and what it says is passed up from links and terminals to chains,
groups and the trigger.  So where no change is reported nothing was written at all: not only the
hits are those of before the frame, but every condition is as reading memory left it.  The converse
does not hold.  A pause that holds is reported although it may write the hit it had, and hits that
are cleared and counted again on the same frame may be as many as before.
-/

namespace AchievementLogic

/-! ## Links -/

namespace Carry

variable {condition : Condition}

/-- A condition whose hits are to be cleared had none. -/
theorem condition_meet_of_not_dirty {carry : Carry} (hclean : (carry.meet condition).dirty = false) :
    (carry.meet condition).condition = condition := by
  simp only [meet, Bool.and_eq_false_imp, bne_eq_false_iff_eq] at hclean ⊢
  split
  case isTrue hreset => exact Condition.clearHits_of_hits_eq_zero (hclean hreset)
  case isFalse => rfl

/-- A modifier writes no hits, and any other link says whether it cleared or counted some. -/
theorem dirty_link (carry : Carry) (condition : Condition) :
    (carry.link condition).dirty =
      (!condition.role.isModifier &&
        ((carry.meet condition).dirty ||
          ((carry.meet condition).held && !(carry.meet condition).condition.isComplete))) := by
  unfold link
  split
  case h_4 role hsource hsub haddress =>
    have hnot := Role.isModifier_eq_false hsource hsub haddress
    rw [hnot, Bool.not_false, Bool.true_and]
  all_goals rename_i hrole; rw [hrole]; rfl

theorem condition_link_of_not_dirty {carry : Carry} (hclean : (carry.link condition).dirty = false) :
    (carry.link condition).condition = condition := by
  rw [condition_link]
  split
  case isTrue => rfl
  case isFalse hrole =>
    rw [dirty_link, Bool.eq_false_iff.mpr hrole, Bool.not_false, Bool.true_and,
      Bool.or_eq_false_iff] at hclean
    obtain ⟨hmeet, hcount⟩ := hclean
    rw [Condition.countIf, if_neg (Bool.eq_false_iff.mp hcount), condition_meet_of_not_dirty hmeet]

theorem conditions_links_of_not_dirty {carry : Carry} {conditions : List Condition}
    (hclean : (carry.links conditions).dirty = false) :
    (carry.links conditions).conditions = conditions := by
  induction conditions generalizing carry with
  | nil => rfl
  | cons head tail ih =>
      obtain ⟨hhead, htail⟩ := Bool.or_eq_false_iff.mp hclean
      rw [links, condition_link_of_not_dirty hhead, ih htail]

end Carry

/-! ## Terminals and chains -/

namespace Encounter

theorem condition_endOpen_of_not_dirty {encounter : Encounter}
    (hclean : encounter.endOpen.dirty = false) :
    encounter.endOpen.condition = encounter.condition := by
  unfold endOpen at hclean ⊢
  by_cases hpause : encounter.condition.role = .guard .pauseIf
  · simp only [hpause, if_true, bne_eq_false_iff_eq] at hclean ⊢
    rw [← hclean]
    rfl
  · simp only [hpause, if_false] at hclean ⊢
    split at hclean
    case isTrue => cases hclean
    case isFalse hheld => rw [if_neg hheld]

theorem condition_endTargeted_of_not_dirty {encounter : Encounter} {tally : Int}
    (hclean : (encounter.endTargeted tally).dirty = false) :
    (encounter.endTargeted tally).condition = encounter.condition := by
  unfold endTargeted at hclean ⊢
  exact if_neg (Bool.eq_false_iff.mp hclean)

end Encounter

namespace Chain

theorem chain_evaluate_of_not_dirty {chain : Chain} (hclean : chain.evaluate.dirty = false) :
    chain.evaluate.chain = chain := by
  simp only [evaluate, Bool.or_eq_false_iff] at hclean
  obtain ⟨⟨⟨hlinks, hmeet⟩, hterminal⟩, -⟩ := hclean
  have hkept := Carry.condition_meet_of_not_dirty hmeet
  simp only [evaluate, Carry.conditions_links_of_not_dirty hlinks]
  split at hterminal
  case isTrue htarget =>
    rw [if_pos htarget, Encounter.condition_endTargeted_of_not_dirty hterminal, hkept]
  case isFalse hopen =>
    rw [if_neg hopen, Encounter.condition_endOpen_of_not_dirty hterminal, hkept]

end Chain

/-! ## Groups -/

namespace Group

/-- The pass over the pauses leaves the chains as they are unless it reports a change. -/
theorem map_chain_pausePass_of_not_dirty {chains : List Chain}
    (hclean : (pausePass chains).1.any (·.dirty) = false) :
    (pausePass chains).1.map (·.chain) = chains := by
  have hidle (chains : List Chain) : (chains.map Chain.idle).map (·.chain) = chains := by
    rw [List.map_map]
    exact List.map_id chains
  induction chains with
  | nil => rfl
  | cons head tail ih =>
      rw [pausePass_cons, List.any_cons, Bool.or_eq_false_iff] at hclean
      obtain ⟨hhead, htail⟩ := hclean
      have hfirst : (if head.kind = .pause then head.evaluate else head.idle).chain = head := by
        split
        case isTrue hpause =>
          rw [if_pos hpause] at hhead
          exact Chain.chain_evaluate_of_not_dirty hhead
        case isFalse => rfl
      rw [pausePass_cons, List.map_cons, hfirst]
      split
      case isTrue => rw [hidle]
      case isFalse hrunning =>
        rw [if_neg hrunning] at htail
        rw [ih htail]

/-- A group that reports no change is the group it was. -/
theorem group_evaluate_of_not_dirty {group : Group} (hclean : group.evaluate.dirty = false) :
    group.evaluate.group = group := by
  have hjoin : (⟨Chain.join group.chains group.loose⟩ : Group) = group := by
    rw [join_chains]
  cases hpaused : group.chains.any Chain.pausesGroup with
  | true =>
      rw [evaluate_of_paused hpaused] at hclean ⊢
      simp only at hclean ⊢
      rw [map_chain_pausePass_of_not_dirty hclean, hjoin]
  | false =>
      rw [evaluate_of_not_paused hpaused] at hclean ⊢
      simp only [List.any_map, List.any_eq_false, Function.comp_apply, Bool.not_eq_true]
        at hclean
      have hchains : (group.chains.map Chain.evaluate).map (·.chain) = group.chains := by
        rw [List.map_map]
        refine (List.map_congr_left fun chain hmem => ?_).trans (List.map_id group.chains)
        exact Chain.chain_evaluate_of_not_dirty (hclean chain hmem)
      simp only [hchains, hjoin]

end Group

/-! ## Triggers -/

namespace Trigger

theorem hits_advance (trigger : Trigger) (frame : Frame) :
    (trigger.advance frame).hits = trigger.hits := by
  have hgroup (group : Group) :
      (group.advance frame).conditions.map (·.hits) = group.conditions.map (·.hits) := by
    have hbare := congrArg (List.map (·.hits))
      (Group.map_bare_advanceFrom frame 0 group.conditions)
    rw [List.map_map, List.map_map] at hbare
    exact hbare
  rw [hits, groups_advance, List.map_map, hits]
  exact List.map_congr_left fun group _ => hgroup group

/-- Where no change is reported, evaluating left every group as it found it. -/
theorem groups_evaluate_of_not_dirty {trigger : Trigger}
    (hclean : trigger.evaluate.1.dirty = false) :
    trigger.evaluate.2.groups = trigger.groups ∧ trigger.evaluate.1.wasReset = false := by
  rw [dirty_evaluate, Bool.or_eq_false_iff, List.any_eq_false] at hclean
  obtain ⟨hgroups, hkept⟩ := hclean
  refine ⟨?_, hkept⟩
  rw [groups_evaluate]
  refine (List.map_congr_left fun group hmem => ?_).trans (List.map_id trigger.groups)
  rw [if_neg (Bool.eq_false_iff.mp hkept)]
  exact Group.group_evaluate_of_not_dirty (Bool.eq_false_iff.mpr (hgroups group hmem))

/-- A frame that reports no change leaves the hits of every condition of every group as they were, and
is no reset.  That includes hits beyond their targets. -/
theorem hits_test_of_not_dirty {trigger : Trigger} {frame : Frame}
    (hclean : (trigger.test frame).1.dirty = false) :
    (trigger.test frame).2.hits = trigger.hits ∧ (trigger.test frame).1.wasReset = false := by
  obtain ⟨hgroups, hkept⟩ := groups_evaluate_of_not_dirty hclean
  refine ⟨?_, hkept⟩
  calc (trigger.test frame).2.hits
      = (trigger.advance frame).hits := by rw [test, hits, hgroups, hits]
    _ = trigger.hits := trigger.hits_advance frame

/-- A count past its target that still holds, a tally that makes up for missing hits, a reset of the
next condition before one without hits, and a pause that let go before. -/
def settled : Trigger :=
  { core := ⟨[
      (onByte (.check .measured) 0 7 5).withHits 8,
      (onByte (.tally .addHits) 1 7 2).withHits 2,
      (onByte (.check .standard) 1 7 3).withHits 1,
      (onByte .resetNextIf 2 7 1).withHits 1,
      onByte (.check .trigger) 2 6 0]⟩
    alternates := [⟨[onByte (.guard .pauseIf) 3 6 0, onByte (.guard .resetIf) 3 5 1]⟩] }

theorem hits_test_of_not_dirty_settled :
    (settled.test sevens).1.dirty = false ∧ (settled.test sevens).2.hits = settled.hits ∧
      (settled.test sevens).1.wasReset = false := by
  have hclean : (settled.test sevens).1.dirty = false := by decide +kernel
  exact ⟨hclean, hits_test_of_not_dirty hclean⟩

end Trigger

end AchievementLogic
