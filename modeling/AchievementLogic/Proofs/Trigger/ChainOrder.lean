import AchievementLogic.Proofs.Trigger.Guards
import Mathlib.Data.List.Nodup
import Mathlib.Data.List.Perm.Basic
import Mathlib.Logic.Equiv.Basic

/-!
# Chains in another order

Inside a chain the order of its conditions matters.  Between chains it does not: no address, no
value, no hits and no truth are passed on across the end of a chain, so a group may have its chains
in any order that leaves its pauses in theirs, since the first satisfied pause keeps later ones from
being evaluated.  Of several measured conditions the last one would count; with one at the most the
measured progress does not depend on the order either.
-/

namespace AchievementLogic

/-! ## Lists in another order -/

/-- The right list has each member of the left one, in the place that the left place leads to. -/
def MovedBy {Member : Type} (places : Equiv.Perm ℕ) (left right : List Member) : Prop :=
  ∀ place, right[places place]? = left[place]?

namespace MovedBy

variable {Member Other : Type} {places : Equiv.Perm ℕ} {left right : List Member}

theorem map (hmoved : MovedBy places left right) (change : Member → Other) :
    MovedBy places (left.map change) (right.map change) := by
  intro place
  rw [List.getElem?_map, List.getElem?_map, hmoved]

theorem lt_length_iff (hmoved : MovedBy places left right) (place : ℕ) :
    places place < right.length ↔ place < left.length := by
  rw [← Decidable.not_iff_not, Nat.not_lt, Nat.not_lt, ← List.getElem?_eq_none_iff,
    ← List.getElem?_eq_none_iff, hmoved]

/-- The places of the left list lead to those of the right one. -/
theorem perm_range (hmoved : MovedBy places left right) :
    (List.range right.length).Perm ((List.range left.length).map places) := by
  rw [List.perm_ext_iff_of_nodup List.nodup_range (List.Nodup.map places.injective List.nodup_range)]
  intro place
  rw [List.mem_range, List.mem_map]
  constructor
  · intro hlt
    refine ⟨places.symm place, ?_, places.apply_symm_apply place⟩
    rwa [List.mem_range, ← hmoved.lt_length_iff, places.apply_symm_apply]
  · rintro ⟨origin, horigin, rfl⟩
    rwa [hmoved.lt_length_iff, ← List.mem_range]

theorem perm (hmoved : MovedBy places left right) : right.Perm left := by
  have hread (members : List Member) :
      members.map some = (List.range members.length).map (members[·]?) := by
    apply List.ext_getElem
    · simp
    · simp
  rw [← List.map_perm_map_iff (Option.some_injective Member)]
  have hleft : ((List.range left.length).map places).map (right[·]?) = left.map some := by
    rw [List.map_map, hread left]
    exact List.map_congr_left fun place _ => hmoved place
  rw [hread right, ← hleft]
  exact hmoved.perm_range.map _

end MovedBy

/-! ## The measured progress of a group -/

namespace Group

/-- Looking through all outcomes, the last one that measures is the one that counts. -/
theorem foldl_measured (outcomes : List ChainOutcome) (found : Option Measured) :
    outcomes.foldl (fun found outcome => outcome.measured?.or found) found =
      (outcomes.filterMap (·.measured?)).getLast?.or found := by
  induction outcomes generalizing found with
  | nil => rfl
  | cons head tail ih =>
      rw [List.foldl_cons, ih]
      cases hmeasured : head.measured? with
      | none => rw [List.filterMap_cons_none hmeasured, Option.none_or]
      | some measured =>
          rw [List.filterMap_cons_some hmeasured, List.getLast?_cons]
          cases (tail.filterMap (·.measured?)).getLast? <;> rfl

/-- With one measured chain at the most it does not matter which one is the last. -/
theorem measuredOf_perm {left right : List ChainOutcome} (hperm : right.Perm left)
    (hone : left.countP (·.measured?.isSome) ≤ 1) : measuredOf right = measuredOf left := by
  have hsame : right.filterMap (·.measured?) = left.filterMap (·.measured?) := by
    have hmeasured := hperm.filterMap (·.measured?)
    rw [← List.length_filterMap_eq_countP] at hone
    cases hleft : left.filterMap (·.measured?) with
    | nil =>
        rw [hleft] at hmeasured
        exact hmeasured.eq_nil
    | cons measured others =>
        rw [hleft] at hmeasured hone
        obtain rfl : others = [] := by simpa using hone
        exact List.perm_singleton.mp hmeasured
  rw [measuredOf, measuredOf, foldl_measured, foldl_measured, hsame]
  simp only [hperm.any_eq]

end Group

theorem Encounter.isSome_measured? (encounter : Encounter) (tally : Int) (after : Condition) :
    (encounter.measured? tally after).isSome = after.role.isMeasured := by
  rw [measured?]
  split
  case isTrue hmeasured => rw [hmeasured, Option.isSome_some]
  case isFalse hnot => rw [Bool.eq_false_iff.mpr hnot, Option.isSome_none]

/-- A chain measures if its terminal does. -/
theorem Chain.isSome_measured?_evaluate (chain : Chain) :
    chain.evaluate.measured?.isSome = chain.terminal.role.isMeasured := by
  have hmeasured : chain.evaluate.measured?.isSome =
      chain.evaluate.chain.terminal.role.isMeasured := Encounter.isSome_measured? _ _ _
  rw [hmeasured, chain.role_terminal_evaluate]

/-- The terminals of chains are some of the conditions, in order. -/
theorem Chain.map_terminal_sublist (chains : List Chain) (loose : List Condition) :
    (chains.map (·.terminal)).Sublist (join chains loose) := by
  induction chains with
  | nil => exact List.nil_sublist _
  | cons head tail ih =>
      have hterminal : [head.terminal].Sublist head.conditions :=
        List.sublist_append_right head.links [head.terminal]
      rw [join_cons, List.map_cons]
      exact hterminal.append ih

namespace Group

def measuredCount (group : Group) : ℕ := group.conditions.countP (·.role.isMeasured)

theorem measuredCount_fresh (group : Group) : group.fresh.measuredCount = group.measuredCount := by
  rw [measuredCount, measuredCount, fresh, List.countP_map]
  rfl

theorem countP_measured_evaluate (group : Group) :
    (group.chains.map Chain.evaluate).countP (·.measured?.isSome) ≤ group.measuredCount := by
  have hterminals := (Chain.map_terminal_sublist group.chains group.loose).countP_le
    (p := fun condition => condition.role.isMeasured)
  rw [List.countP_map] at hterminals ⊢
  simp only [Function.comp_def, Chain.isSome_measured?_evaluate]
  rw [join_chains] at hterminals
  exact hterminals

/-! ## Groups with the same chains -/

def kinds (group : Group) : List ChainKind := group.chains.map (·.kind)

theorem kinds_advance (group : Group) (frame : Frame) :
    (group.advance frame).kinds = group.kinds := by
  rw [kinds, chains_advance, List.map_map]
  rfl

theorem kinds_clearHits (group : Group) : group.clearHits.kinds = group.kinds := by
  rw [kinds, chains_clearHits, List.map_map]
  rfl

theorem kinds_evaluate (group : Group) : group.evaluate.group.kinds = group.kinds := by
  rw [← kinds_clearHits, clearHits_evaluate, kinds_clearHits]

/-- The right group has the chains of the left one in other places, those that pause in the order in
which they were, and the same conditions after the last chain. -/
structure Reordered (places : Equiv.Perm ℕ) (left right : Group) : Prop where
  chains : MovedBy places left.chains right.chains
  pauses : ∀ earlier later, earlier < later → left.kinds[earlier]? = some .pause →
    left.kinds[later]? = some .pause → places earlier < places later
  loose : right.loose = left.loose

namespace Reordered

variable {places : Equiv.Perm ℕ} {left right : Group}

theorem isEmpty (hreordered : left.Reordered places right) : right.isEmpty = left.isEmpty := by
  have hconditions : right.conditions.Perm left.conditions := by
    rw [← right.join_chains, ← left.join_chains, Chain.join, Chain.join, hreordered.loose]
    exact (hreordered.chains.perm.flatMap_right Chain.conditions).append_right left.loose
  rw [Group.isEmpty, Group.isEmpty, hconditions.isEmpty_eq]

/-- The pauses before a pause are moved before it, and only those. -/
theorem any_take (hreordered : left.Reordered places right) {place : ℕ} {chain : Chain}
    (hchain : left.chains[place]? = some chain) (hkind : chain.kind = .pause) :
    (right.chains.take (places place)).any Chain.pausesGroup =
      (left.chains.take place).any Chain.pausesGroup := by
  have hpause {index : ℕ} {found : Chain} (hfound : left.chains[index]? = some found)
      (hpauses : found.kind = .pause) : left.kinds[index]? = some .pause := by
    rw [kinds, List.getElem?_map, hfound, Option.map_some, hpauses]
  have hmem (chains : List Chain) (count : ℕ) : (chains.take count).any Chain.pausesGroup = true ↔
      ∃ earlier < count, ∃ other, chains[earlier]? = some other ∧ other.pausesGroup = true := by
    simp only [List.any_eq_true, List.mem_iff_getElem?, List.getElem?_take,
      Option.ite_none_right_eq_some]
    constructor
    · rintro ⟨other, ⟨earlier, hlt, hother⟩, hpauses⟩
      exact ⟨earlier, hlt, other, hother, hpauses⟩
    · rintro ⟨earlier, hlt, other, hother, hpauses⟩
      exact ⟨other, ⟨earlier, hlt, hother⟩, hpauses⟩
  rw [Bool.eq_iff_iff, hmem, hmem]
  constructor
  · rintro ⟨target, htarget, other, hother, hpauses⟩
    obtain ⟨earlier, rfl⟩ := places.surjective target
    rw [hreordered.chains] at hother
    have hbefore := hpause hother (other.pausesGroup_iff.mp hpauses).1
    refine ⟨earlier, ?_, other, hother, hpauses⟩
    by_contra hnot
    rcases Nat.eq_or_lt_of_le (Nat.not_lt.mp hnot) with rfl | hlater
    · exact Nat.lt_irrefl _ htarget
    · exact Nat.lt_asymm htarget
        (hreordered.pauses place earlier hlater (hpause hchain hkind) hbefore)
  · rintro ⟨earlier, hearlier, other, hother, hpauses⟩
    have hbefore := hpause hother (other.pausesGroup_iff.mp hpauses).1
    refine ⟨places earlier, ?_, other, by rw [hreordered.chains, hother], hpauses⟩
    exact hreordered.pauses earlier place hearlier hbefore (hpause hchain hkind)

theorem any_pausesGroup (hreordered : left.Reordered places right) :
    right.chains.any Chain.pausesGroup = left.chains.any Chain.pausesGroup :=
  hreordered.chains.perm.any_eq

/-- The same pauses are evaluated. -/
theorem pausePass (hreordered : left.Reordered places right) :
    MovedBy places (pausePass left.chains).1 (pausePass right.chains).1 := by
  intro place
  rw [getElem?_pausePass, getElem?_pausePass, hreordered.chains]
  cases hchain : left.chains[place]? with
  | none => rfl
  | some chain =>
      rw [Option.map_some, Option.map_some]
      by_cases hkind : chain.kind = .pause
      · rw [hreordered.any_take hchain hkind]
      · simp [hkind]

/-- The order of its chains does not show in what a group reports. -/
theorem report (hreordered : left.Reordered places right) (hone : left.measuredCount ≤ 1) :
    right.report = left.report := by
  have hpaused := hreordered.any_pausesGroup
  cases hleft : left.chains.any Chain.pausesGroup with
  | true =>
      rw [hleft] at hpaused
      have hlogic := hreordered.chains.perm.any_eq (f := (·.kind == .logic))
      have hdirty := hreordered.pausePass.perm.any_eq (f := (·.dirty))
      rw [Group.report, Group.report, evaluate_of_paused hleft, evaluate_of_paused hpaused]
      simp only [hlogic, hdirty]
  | false =>
      rw [hleft] at hpaused
      have houtcomes := (hreordered.chains.map Chain.evaluate).perm
      have hlogic := houtcomes.filter (·.chain.kind == .logic)
      have hmeasured := measuredOf_perm hlogic
        (Nat.le_trans List.filter_sublist.countP_le
          (Nat.le_trans left.countP_measured_evaluate hone))
      rw [Group.report, Group.report, evaluate_of_not_paused hleft,
        evaluate_of_not_paused hpaused]
      simp only [hlogic.all_eq, hlogic.any_eq, houtcomes.any_eq, hlogic.isEmpty_eq, hmeasured]

/-! ### What a frame keeps -/

theorem of_kinds {leftAfter rightAfter : Group} (hreordered : left.Reordered places right)
    (hchains : MovedBy places leftAfter.chains rightAfter.chains)
    (hkinds : leftAfter.kinds = left.kinds) (hloose : rightAfter.loose = leftAfter.loose) :
    leftAfter.Reordered places rightAfter where
  chains := hchains
  pauses := by
    rw [hkinds]
    exact hreordered.pauses
  loose := hloose

theorem advance (hreordered : left.Reordered places right) (frame : Frame) :
    (left.advance frame).Reordered places (right.advance frame) := by
  apply hreordered.of_kinds _ (left.kinds_advance frame)
  · rw [loose_advance, loose_advance, hreordered.loose]
  · rw [chains_advance, chains_advance]
    exact hreordered.chains.map _

theorem clearHits (hreordered : left.Reordered places right) :
    left.clearHits.Reordered places right.clearHits := by
  apply hreordered.of_kinds _ left.kinds_clearHits
  · rw [loose_clearHits, loose_clearHits, hreordered.loose]
  · rw [chains_clearHits, chains_clearHits]
    exact hreordered.chains.map _

theorem evaluate (hreordered : left.Reordered places right) :
    left.evaluate.group.Reordered places right.evaluate.group := by
  apply hreordered.of_kinds _ left.kinds_evaluate
  · rw [loose_evaluate, loose_evaluate, hreordered.loose]
  · rw [chains_evaluate, chains_evaluate, hreordered.any_pausesGroup]
    split
    · exact hreordered.pausePass.map _
    · exact hreordered.chains.map _

end Reordered

end Group

/-! ## Triggers with the same core -/

namespace Trigger

/-- The right trigger has the core of the left one with its chains in other places, and the same
alternates. -/
structure CoreReordered (places : Equiv.Perm ℕ) (left right : Trigger) : Prop where
  core : left.core.Reordered places right.core
  alternates : right.alternates = left.alternates

namespace CoreReordered

variable {places : Equiv.Perm ℕ} {left right : Trigger}

theorem advance (hreordered : left.CoreReordered places right) (frame : Frame) :
    (left.advance frame).CoreReordered places (right.advance frame) where
  core := hreordered.core.advance frame
  alternates := congrArg (List.map (Group.advance · frame)) hreordered.alternates

/-- Triggers with one core in two orders come to the same on a frame, and stay so. -/
theorem evaluate (hreordered : left.CoreReordered places right)
    (hone : left.core.measuredCount ≤ 1) :
    (right.evaluate.1 = left.evaluate.1 ∧ right.evaluate.2.primed = left.evaluate.2.primed ∧
      right.evaluate.2.measured? = left.evaluate.2.measured?) ∧
    left.evaluate.2.CoreReordered places right.evaluate.2 := by
  have hreports : right.groups.map Group.report = left.groups.map Group.report := by
    rw [groups, groups, List.map_cons, List.map_cons, hreordered.core.report hone,
      hreordered.alternates]
  refine ⟨evaluate_of_reports hreordered.core.isEmpty hreports, ?_, ?_⟩
  · rw [core_evaluate, core_evaluate, wasReset_of_reports hreports]
    split
    · exact hreordered.core.clearHits
    · exact hreordered.core.evaluate
  · rw [alternates_evaluate, alternates_evaluate, wasReset_of_reports hreports,
      hreordered.alternates]

theorem measuredCount_core_test (trigger : Trigger) (frame : Frame) :
    (trigger.test frame).2.core.measuredCount = trigger.core.measuredCount := by
  have hfresh : (trigger.test frame).2.core.fresh = trigger.core.fresh :=
    congrArg Trigger.core (trigger.fresh_test frame)
  rw [← Group.measuredCount_fresh, hfresh, Group.measuredCount_fresh]

theorem test (hreordered : left.CoreReordered places right) (hone : left.core.measuredCount ≤ 1)
    (frame : Frame) :
    ((right.test frame).1 = (left.test frame).1 ∧
      (right.test frame).2.primed = (left.test frame).2.primed ∧
      (right.test frame).2.measured? = (left.test frame).2.measured?) ∧
    (left.test frame).2.CoreReordered places (right.test frame).2 := by
  have hadvanced : (left.advance frame).core.measuredCount ≤ 1 := by
    have hfresh : (left.advance frame).core.fresh = left.core.fresh :=
      congrArg Trigger.core (left.fresh_advance frame)
    rwa [← Group.measuredCount_fresh, hfresh, Group.measuredCount_fresh]
  exact (hreordered.advance frame).evaluate hadvanced

theorem after (hreordered : left.CoreReordered places right) (hone : left.core.measuredCount ≤ 1)
    (frames : List Frame) :
    (left.after frames).CoreReordered places (right.after frames) ∧
      (left.after frames).core.measuredCount ≤ 1 := by
  induction frames generalizing left right with
  | nil => exact ⟨hreordered, hone⟩
  | cons frame later ih =>
      apply ih (hreordered.test hone frame).2
      rwa [measuredCount_core_test]

end CoreReordered

/-- With at most one measured condition in the core, the chains of the core may stand in any order
that keeps that of the pauses: every frame of every run is reported alike, and the chains stay in
their places, with their hits and what they have read. -/
theorem test_coreReordered {places : Equiv.Perm ℕ} {left right : Trigger}
    (hone : left.core.measuredCount ≤ 1) (hreordered : left.CoreReordered places right)
    (earlier : List Frame) (frame : Frame) :
    let leftFrame := (left.after earlier).test frame
    let rightFrame := (right.after earlier).test frame
    (rightFrame.1 = leftFrame.1 ∧ rightFrame.2.primed = leftFrame.2.primed ∧
      rightFrame.2.measured? = leftFrame.2.measured?) ∧
    leftFrame.2.CoreReordered places rightFrame.2 := by
  obtain ⟨hafter, hcount⟩ := hreordered.after hone earlier
  exact hafter.test hcount frame

/-- A count behind a pointer, a counted pause, a trigger helped by its link, and a pause after it. -/
def pointerFirst : Trigger :=
  { core := ⟨[
      onByte (.modifier .addAddress) 0 0 0,
      (onByte (.check .measured) 1 7 5).withHits 3,
      (onByte (.guard .pauseIf) 1 7 9).withHits 8,
      (onByte (.tally .addHits) 2 7 0).withHits 4,
      onByte (.check .trigger) 3 7 6,
      onByte (.guard .pauseIf) 3 6 0,
      onByte (.combiner .andNext) 3 7 0]⟩
    alternates := [⟨[onByte (.guard .resetIf) 2 6 0]⟩] }

/-- The same chains, the helped trigger first. -/
def pointerLast : Trigger :=
  { pointerFirst with
    core := ⟨[
      (onByte (.tally .addHits) 2 7 0).withHits 4,
      onByte (.check .trigger) 3 7 6,
      (onByte (.guard .pauseIf) 1 7 9).withHits 8,
      onByte (.modifier .addAddress) 0 0 0,
      (onByte (.check .measured) 1 7 5).withHits 3,
      onByte (.guard .pauseIf) 3 6 0,
      onByte (.combiner .andNext) 3 7 0]⟩ }

theorem test_coreReordered_pointerLast :
    pointerFirst.core.measuredCount ≤ 1 ∧
      pointerFirst.CoreReordered (Equiv.swap 0 2) pointerLast ∧
      (((pointerLast.after [sevens]).test sevens).1 =
          ((pointerFirst.after [sevens]).test sevens).1 ∧
        ((pointerLast.after [sevens]).test sevens).2.primed =
          ((pointerFirst.after [sevens]).test sevens).2.primed ∧
        ((pointerLast.after [sevens]).test sevens).2.measured? =
          ((pointerFirst.after [sevens]).test sevens).2.measured?) ∧
      ((pointerFirst.after [sevens]).test sevens).2.CoreReordered (Equiv.swap 0 2)
        ((pointerLast.after [sevens]).test sevens).2 := by
  have hone : pointerFirst.core.measuredCount ≤ 1 := by decide
  have hpause (place : ℕ) (hkind : pointerFirst.core.kinds[place]? = some .pause) :
      place = 1 ∨ place = 3 := by
    rcases place with _ | _ | _ | _ | place
    · cases hkind
    · exact .inl rfl
    · cases hkind
    · exact .inr rfl
    · cases hkind
  have hreordered : pointerFirst.CoreReordered (Equiv.swap 0 2) pointerLast := by
    refine ⟨⟨?_, ?_, rfl⟩, rfl⟩
    · rintro (_ | _ | _ | place)
      · rw [Equiv.swap_apply_left]
        rfl
      · rw [Equiv.swap_apply_of_ne_of_ne (by omega) (by omega)]
        rfl
      · rw [Equiv.swap_apply_right]
        rfl
      · rw [Equiv.swap_apply_of_ne_of_ne (by omega) (by omega)]
        rfl
    · intro first second hlt hfirst hsecond
      have hkept (place : ℕ) (hkind : pointerFirst.core.kinds[place]? = some .pause) :
          Equiv.swap 0 2 place = place := by
        rcases hpause place hkind with rfl | rfl
        · exact Equiv.swap_apply_of_ne_of_ne (by omega) (by omega)
        · exact Equiv.swap_apply_of_ne_of_ne (by omega) (by omega)
      rwa [hkept first hfirst, hkept second hsecond]
  exact ⟨hone, hreordered, test_coreReordered hone hreordered [sevens] sevens⟩

end Trigger

end AchievementLogic
