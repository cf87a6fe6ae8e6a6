import AchievementLogic.Proofs.Trigger.Checks
import AchievementLogic.Proofs.Trigger.Derivations

/-!
# Combiners and groups

Conditions can be joined in two ways.  Combiners carry a truth from each condition of a chain to the
next one; a group asks that all its chains be satisfied, and a trigger that one of its groups be
true.  For standard conditions without hit targets both ways come to the same on every frame of every
run: hits have no say in it, so that only what memory shows is compared.
-/

namespace AchievementLogic

/-! ## Truth without hit targets -/

theorem Carry.hasTarget_countIf_meet {condition : Condition} (hopen : condition.requiredHits = 0)
    (carry : Carry) (held : Bool) :
    ((carry.meet condition).condition.countIf held).hasTarget = false := by
  have hsame := (Condition.clearHits_countIf _ held).trans (carry.clearHits_meet condition)
  rw [Condition.hasTarget, Condition.requiredHits_eq_of_clearHits_eq hsame, hopen]
  rfl

/-- What is passed on but the hits to count with the terminal. -/
def Carry.untallied (carry : Carry) : Carry := { carry with tally := 0 }

namespace Carry

variable {carry other : Carry}

theorem eq_of_untallied (hsame : other.untallied = carry.untallied) :
    ∃ tally, other = { carry with tally := tally } := by
  simp only [untallied, mk.injEq] at hsame
  obtain ⟨haccumulated, -, hcombined, hresetNext⟩ := hsame
  exact ⟨other.tally, by rw [← haccumulated, ← hcombined, ← hresetNext]⟩

theorem held_meet_of_untallied (hsame : other.untallied = carry.untallied)
    (condition : Condition) :
    (other.meet condition.clearHits).held = (carry.meet condition).held := by
  obtain ⟨tally, rfl⟩ := eq_of_untallied hsame
  rfl

/-- Without hit targets the hits decide nothing but the tally. -/
theorem untallied_link {condition : Condition} (hsame : other.untallied = carry.untallied)
    (hopen : condition.requiredHits = 0) :
    (other.link condition.clearHits).carry.untallied = (carry.link condition).carry.untallied := by
  have hheld := held_meet_of_untallied hsame condition
  have hcleared : condition.clearHits.requiredHits = 0 := hopen
  have hrole : condition.clearHits.role = condition.role := rfl
  simp only [link, hrole]
  split
  case h_4 =>
    simp only [hheld, hasTarget_countIf_meet hopen, hasTarget_countIf_meet hcleared,
      Bool.false_eq_true, if_false]
    split <;> rfl
  all_goals
    obtain ⟨tally, rfl⟩ := eq_of_untallied hsame
    rfl

theorem untallied_links {conditions : List Condition}
    (hsame : other.untallied = carry.untallied)
    (hopen : ∀ condition ∈ conditions, condition.requiredHits = 0) :
    (other.links (conditions.map Condition.clearHits)).carry.untallied =
      (carry.links conditions).carry.untallied := by
  induction conditions generalizing carry other with
  | nil => exact hsame
  | cons head tail ih =>
      obtain ⟨hhead, htail⟩ := List.forall_mem_cons.mp hopen
      exact ih (untallied_link hsame hhead) htail

end Carry

namespace Chain

theorem holds_map_clearHits {chain : Chain}
    (hopen : ∀ condition ∈ chain.links, condition.requiredHits = 0) :
    (chain.map Condition.clearHits).holds = chain.holds :=
  Carry.held_meet_of_untallied (Carry.untallied_links rfl hopen) chain.terminal

end Chain

/-- The group has chains, each of them is there to be checked, and no condition has a hit target. -/
structure Group.OnlyOpenChecks (group : Group) : Prop extends group.OnlyChecks where
  targets : ∀ condition ∈ group.conditions, condition.requiredHits = 0

namespace Group

def holds (group : Group) : Bool := group.chains.all Chain.holds

variable {group : Group}

theorem OnlyOpenChecks.holds_iff (hchecks : group.OnlyOpenChecks) :
    group.holds = true ↔ ∀ chain ∈ group.chains, chain.Satisfied := by
  rw [holds, List.all_eq_true]
  refine forall₂_congr fun chain hchain => ?_
  have hopen : chain.terminal.requiredHits = 0 := hchecks.targets chain.terminal
    (mem_conditions_of_mem_chains hchain (List.mem_append_right _ List.mem_cons_self))
  simp only [Chain.Satisfied, hopen, if_true]

theorem OnlyOpenChecks.holds_clearHits (hchecks : group.OnlyOpenChecks) :
    group.clearHits.holds = group.holds := by
  have hchain : ∀ chain ∈ group.chains, (chain.map Condition.clearHits).holds = chain.holds := by
    intro chain hchain
    refine Chain.holds_map_clearHits fun condition hlink => hchecks.targets condition ?_
    exact mem_conditions_of_mem_chains hchain (List.mem_append_left _ hlink)
  rw [holds, holds, chains_clearHits, List.all_map, Bool.eq_iff_iff, List.all_eq_true,
    List.all_eq_true]
  exact forall₂_congr fun chain hmem => by rw [Function.comp_apply, hchain chain hmem]

/-- What the chains of a group are for and its targets are no matter of its hits. -/
theorem OnlyOpenChecks.of_clearHits_eq {other : Group} (hchecks : group.OnlyOpenChecks)
    (hsame : other.clearHits = group.clearHits) : other.OnlyOpenChecks where
  toOnlyChecks := by
    apply hchecks.toOnlyChecks.of_kinds
    rw [← kinds_clearHits, hsame, kinds_clearHits]
  targets := by
    have hcleared : ∀ condition ∈ group.clearHits.conditions, condition.requiredHits = 0 :=
      List.forall_mem_map.mpr hchecks.targets
    rw [← hsame] at hcleared
    exact List.forall_mem_map.mp hcleared

theorem OnlyOpenChecks.advance (hchecks : group.OnlyOpenChecks) (frame : Frame) :
    (group.advance frame).OnlyOpenChecks where
  toOnlyChecks := hchecks.toOnlyChecks.of_kinds (group.kinds_advance frame)
  targets := by
    have hbare : ∀ condition ∈ group.conditions.map Condition.bare, condition.requiredHits = 0 :=
      List.forall_mem_map.mpr hchecks.targets
    rw [← map_bare_advanceFrom frame 0] at hbare
    exact List.forall_mem_map.mp hbare

theorem clearHits_advance (group : Group) (frame : Frame) :
    (group.advance frame).clearHits = group.clearHits.advance frame := by
  have hconditions (offset : UInt32) (conditions : List Condition) :
      (advanceFrom frame offset conditions).map Condition.clearHits =
        advanceFrom frame offset (conditions.map Condition.clearHits) := by
    induction conditions generalizing offset with
    | nil => rfl
    | cons head tail ih =>
        rw [advanceFrom, List.map_cons, ih, List.map_cons, advanceFrom]
        rfl
  rw [clearHits, advance, hconditions]
  rfl

/-! ### Groups that differ in hits alone -/

variable {left right : List Group}

theorem onlyOpenChecks_of_map_clearHits_eq
    (hsame : right.map clearHits = left.map clearHits)
    (hleft : ∀ group ∈ left, group.OnlyOpenChecks) : ∀ group ∈ right, group.OnlyOpenChecks := by
  intro group hgroup
  have hcleared : group.clearHits ∈ left.map clearHits := by
    rw [← hsame]
    exact List.mem_map_of_mem hgroup
  obtain ⟨other, hother, heq⟩ := List.mem_map.mp hcleared
  exact (hleft other hother).of_clearHits_eq heq.symm

theorem any_holds_of_map_clearHits_eq (hsame : right.map clearHits = left.map clearHits)
    (hleft : ∀ group ∈ left, group.OnlyOpenChecks) : right.any holds = left.any holds := by
  have hcleared {groups : List Group} (hchecks : ∀ group ∈ groups, group.OnlyOpenChecks) :
      (groups.map clearHits).any holds = groups.any holds := by
    rw [List.any_map, Bool.eq_iff_iff, List.any_eq_true, List.any_eq_true]
    refine exists_congr fun group => and_congr_right fun hgroup => ?_
    rw [Function.comp_apply, (hchecks group hgroup).holds_clearHits]
  rw [← hcleared hleft, ← hcleared (onlyOpenChecks_of_map_clearHits_eq hsame hleft), hsame]

end Group

namespace Trigger

/-- Reads memory for groups and says whether one of them holds, leaving their hits alone. -/
def glance (groups : List Group) (frame : Frame) : Bool × List Group :=
  let advanced := groups.map (·.advance frame)
  (advanced.any Group.holds, advanced)

/-- But for hits a frame only reads memory. -/
theorem map_clearHits_groups_evaluate (trigger : Trigger) :
    trigger.evaluate.2.groups.map Group.clearHits = trigger.groups.map Group.clearHits := by
  rw [groups_evaluate, List.map_map]
  refine List.map_congr_left fun group _ => ?_
  rw [Function.comp_apply]
  split
  · simp [Group.clearHits, Condition.clearHits, Condition.withHits]
  · exact group.clearHits_evaluate

theorem result_of_onlyOpenChecks {trigger : Trigger}
    (hchecks : ∀ group ∈ trigger.groups, group.OnlyOpenChecks) :
    trigger.evaluate.1.result = trigger.groups.any Group.holds := by
  rw [Bool.eq_iff_iff, List.any_eq_true,
    result_iff_of_onlyChecks fun group hgroup => (hchecks group hgroup).toOnlyChecks]
  refine exists_congr fun group => and_congr_right fun hgroup => ?_
  exact (hchecks group hgroup).holds_iff.symm

/-- Without hit targets the results of a run depend on what memory shows and not on hits. -/
theorem answers_of_onlyOpenChecks {trigger : Trigger}
    (hchecks : ∀ group ∈ trigger.groups, group.OnlyOpenChecks) (frames : List Frame) :
    (Run.answers test trigger frames).map (·.result) =
      Run.answers glance trigger.groups frames := by
  have hstep (state : Trigger) (groups : List Group) (frame : Frame)
      (halong : state.groups.map Group.clearHits = groups.map Group.clearHits ∧
        ∀ group ∈ groups, group.OnlyOpenChecks) :
      (state.test frame).1.result = (glance groups frame).1 ∧
        (state.test frame).2.groups.map Group.clearHits =
          (glance groups frame).2.map Group.clearHits ∧
        ∀ group ∈ (glance groups frame).2, group.OnlyOpenChecks := by
    obtain ⟨hsame, hopen⟩ := halong
    have hglance : ∀ group ∈ (glance groups frame).2, group.OnlyOpenChecks :=
      List.forall_mem_map.mpr fun group hgroup => (hopen group hgroup).advance frame
    have hadvanced : (state.advance frame).groups.map Group.clearHits =
        (glance groups frame).2.map Group.clearHits := by
      have hmoved := congrArg (List.map (Group.advance · frame)) hsame
      simpa only [groups_advance, glance, List.map_map, Function.comp_def,
        Group.clearHits_advance] using hmoved
    refine ⟨?_, ?_, hglance⟩
    · rw [test, result_of_onlyOpenChecks
        (Group.onlyOpenChecks_of_map_clearHits_eq hadvanced hglance)]
      exact Group.any_holds_of_map_clearHits_eq hadvanced hglance
    · rw [test, map_clearHits_groups_evaluate, hadvanced]
  exact (Run.map_answers hstep ⟨rfl, hchecks⟩ frames).1

end Trigger

/-! ## A chain of combiners -/

/-- The truth that combiners carry to the end of a chain. -/
def Combiner.joins : Combiner → List Bool → Bool
  | andNext, truths => truths.all id
  | orNext, truths => truths.any id

theorem Combiner.joins_concat (combiner : Combiner) (truths : List Bool) (last : Bool) :
    combiner.joins (truths ++ [last]) = combiner.join (combiner.joins truths) last := by
  cases combiner <;> simp [joins, join]

namespace Carry

/-- Every condition that comes next is joined with these truths, and with no value. -/
def HasJoined (carry : Carry) (combiner : Combiner) (truths : List Bool) : Prop :=
  ∀ condition, (carry.meet condition).held =
    combiner.joins (truths ++ [condition.compare default])

theorem hasJoined_nil (combiner : Combiner) : ({} : Carry).HasJoined combiner [] := by
  intro condition
  cases combiner <;> simp [meet, Combiner.joins] <;> rfl

variable {carry : Carry} {combiner : Combiner} {truths : List Bool}

/-- A link without a hit target joins the truth of its comparison to those that are carried. -/
theorem HasJoined.link (hjoined : carry.HasJoined combiner truths) {condition : Condition}
    (hrole : condition.role = .combiner combiner) (hopen : condition.requiredHits = 0) :
    (carry.link condition).carry.HasJoined combiner (truths ++ [condition.compare default]) := by
  have hcarry : (carry.link condition).carry =
      { tally := carry.tally
        combined? := some (combiner, (carry.meet condition).held) } := by
    simp only [Carry.link, hrole, hasTarget_countIf_meet hopen, Bool.false_eq_true, if_false]
  intro next
  rw [hcarry, Combiner.joins_concat, ← hjoined condition]
  rfl

theorem HasJoined.links (hjoined : carry.HasJoined combiner truths) {conditions : List Condition}
    (hroles : ∀ condition ∈ conditions, condition.role = .combiner combiner)
    (hopen : ∀ condition ∈ conditions, condition.requiredHits = 0) :
    (carry.links conditions).carry.HasJoined combiner
      (truths ++ conditions.map (·.compare default)) := by
  induction conditions generalizing carry truths with
  | nil => simpa [Carry.links] using hjoined
  | cons head tail ih =>
      obtain ⟨hrole, hroles⟩ := List.forall_mem_cons.mp hroles
      obtain ⟨hhead, htail⟩ := List.forall_mem_cons.mp hopen
      have hlater := ih (hjoined.link hrole hhead) hroles htail
      rw [List.append_assoc, List.singleton_append] at hlater
      exact hlater

end Carry

/-- A standard condition without a hit target. -/
structure Condition.IsPlain (condition : Condition) : Prop where
  role : condition.role = .check .standard
  target : condition.requiredHits = 0

theorem Condition.IsPlain.advance {condition : Condition} (hplain : condition.IsPlain)
    (frame : Frame) : (condition.advance frame 0).IsPlain :=
  ⟨hplain.role, hplain.target⟩

/-- The chain in which each condition but the last one is joined with the next one. -/
def Chain.joining (combiner : Combiner) (first : List Condition) (last : Condition) : Chain where
  links := first.map ({ · with role := .combiner combiner })
  kind := .logic
  terminal := last

section Joining

variable {first : List Condition} {last : Condition}

/-- At the end of a chain stands what its combiner makes of all its comparisons. -/
theorem Chain.holds_joining (combiner : Combiner)
    (hplain : ∀ condition ∈ first ++ [last], condition.IsPlain) :
    (joining combiner first last).holds =
      combiner.joins ((first ++ [last]).map (·.compare default)) := by
  have hlinks : (joining combiner first last).passed.HasJoined combiner
      ([] ++ (joining combiner first last).links.map (·.compare default)) := by
    refine (Carry.hasJoined_nil combiner).links ?_ ?_
    · exact List.forall_mem_map.mpr fun _ _ => rfl
    · refine List.forall_mem_map.mpr fun condition hmem => ?_
      exact (hplain condition (List.mem_append_left _ hmem)).target
  have hlast := hlinks last
  rw [joining, List.map_map] at hlast
  rw [List.map_append]
  exact hlast

theorem Chain.isProper_joining (combiner : Combiner) (first : List Condition)
    (hlast : last.role = .check .standard) : (joining combiner first last).IsProper where
  links := List.forall_mem_map.mpr fun _ _ => rfl
  terminal := by
    rw [joining, hlast]
    rfl

end Joining

/-! ## Groups of standard conditions -/

namespace Group

theorem advance_eq_map {conditions : List Condition}
    (hroles : ∀ condition ∈ conditions, condition.role ≠ .modifier .addAddress) (frame : Frame) :
    (⟨conditions⟩ : Group).advance frame = ⟨conditions.map (·.advance frame 0)⟩ := by
  rw [advance, advanceFrom_eq_map frame hroles]

section Plain

variable {conditions : List Condition} (hplain : ∀ condition ∈ conditions, condition.IsPlain)
include hplain

theorem advance_of_plain (frame : Frame) :
    (⟨conditions⟩ : Group).advance frame = ⟨conditions.map (·.advance frame 0)⟩ := by
  refine advance_eq_map (fun condition hmem => ?_) frame
  rw [(hplain condition hmem).role]
  decide

theorem holds_of_plain :
    (⟨conditions⟩ : Group).holds = conditions.all (·.compare default) := by
  rw [holds, chains_of_standard fun condition hmem => (hplain condition hmem).role, List.all_map]
  rfl

theorem onlyOpenChecks_of_plain (hsome : conditions ≠ []) :
    (⟨conditions⟩ : Group).OnlyOpenChecks where
  toOnlyChecks := onlyChecks_of_standard (fun condition hmem => (hplain condition hmem).role) hsome
  targets := fun condition hmem => (hplain condition hmem).target

end Plain

section Joining

variable {first : List Condition} {last : Condition}
  (hplain : ∀ condition ∈ first ++ [last], condition.IsPlain)
include hplain

theorem chains_joining (combiner : Combiner) :
    (⟨(Chain.joining combiner first last).conditions⟩ : Group).chains =
      [Chain.joining combiner first last] := by
  have hlast := (hplain last (by simp)).role
  have hsplit := (Chain.isProper_joining combiner first hlast).split_append []
  rw [List.append_nil] at hsplit
  rw [chains, hsplit]
  rfl

theorem advance_joining (combiner : Combiner) (frame : Frame) :
    (⟨(Chain.joining combiner first last).conditions⟩ : Group).advance frame =
      ⟨(Chain.joining combiner (first.map (·.advance frame 0))
        (last.advance frame 0)).conditions⟩ := by
  have hroles : ∀ condition ∈ (Chain.joining combiner first last).conditions,
      condition.role ≠ .modifier .addAddress := by
    rw [Chain.conditions, List.forall_mem_append, List.forall_mem_singleton]
    constructor
    · exact List.forall_mem_map.mpr fun _ _ hrole => by cases hrole
    · rw [Chain.joining, (hplain last (by simp)).role]
      decide
  rw [advance_eq_map hroles]
  simp [Chain.conditions, Chain.joining, Function.comp_def, Condition.advance]

theorem holds_joining (combiner : Combiner) :
    (⟨(Chain.joining combiner first last).conditions⟩ : Group).holds =
      combiner.joins ((first ++ [last]).map (·.compare default)) := by
  rw [holds, chains_joining hplain, List.all_cons, List.all_nil, Bool.and_true,
    Chain.holds_joining combiner hplain]

theorem onlyOpenChecks_joining (combiner : Combiner) :
    (⟨(Chain.joining combiner first last).conditions⟩ : Group).OnlyOpenChecks where
  nonempty := by
    rw [chains_joining hplain]
    exact List.cons_ne_nil _ _
  logic := by
    rw [chains_joining hplain, List.forall_mem_singleton]
    rfl
  targets := by
    rw [Chain.conditions, List.forall_mem_append, List.forall_mem_singleton]
    constructor
    · refine List.forall_mem_map.mpr fun condition hmem => ?_
      exact (hplain condition (List.mem_append_left _ hmem)).target
    · exact (hplain last (by simp)).target

end Joining

end Group

namespace Trigger

/-! ## Runs -/

/-- Reads memory for standard conditions and joins what they show, leaving their hits alone. -/
def survey (combiner : Combiner) (conditions : List Condition) (frame : Frame) :
    Bool × List Condition :=
  let advanced := conditions.map (·.advance frame 0)
  (combiner.joins (advanced.map (·.compare default)), advanced)

section Shapes

variable {first : List Condition} {last : Condition}
  (hplain : ∀ condition ∈ first ++ [last], condition.IsPlain)
include hplain

/-- A trigger that is made of standard conditions, and that is true where these are joined, goes along
with them on every run. -/
theorem results_of_shape {combiner : Combiner} {trigger : Trigger}
    (shape : List Condition → Condition → List Group) (hgroups : trigger.groups = shape first last)
    (hopen : ∀ group ∈ shape first last, group.OnlyOpenChecks)
    (hadvance : ∀ first last frame, (∀ condition ∈ first ++ [last], condition.IsPlain) →
      (shape first last).map (·.advance frame) =
        shape (first.map (·.advance frame 0)) (last.advance frame 0))
    (hholds : ∀ first last, (∀ condition ∈ first ++ [last], condition.IsPlain) →
      (shape first last).any Group.holds =
        combiner.joins ((first ++ [last]).map (·.compare default)))
    (frames : List Frame) :
    (Run.answers test trigger frames).map (·.result) =
      Run.answers (survey combiner) (first ++ [last]) frames := by
  have hstep (groups : List Group) (conditions : List Condition) (frame : Frame)
      (halong : ∃ first last, groups = shape first last ∧ conditions = first ++ [last] ∧
        ∀ condition ∈ conditions, condition.IsPlain) :
      (glance groups frame).1 = (survey combiner conditions frame).1 ∧
        ∃ first last, (glance groups frame).2 = shape first last ∧
          (survey combiner conditions frame).2 = first ++ [last] ∧
          ∀ condition ∈ (survey combiner conditions frame).2, condition.IsPlain := by
    obtain ⟨first, last, rfl, rfl, hplain⟩ := halong
    have hnext : ∀ condition ∈ (first ++ [last]).map (·.advance frame 0), condition.IsPlain :=
      List.forall_mem_map.mpr fun condition hmem => (hplain condition hmem).advance frame
    have hconditions : (first ++ [last]).map (·.advance frame 0) =
        first.map (·.advance frame 0) ++ [last.advance frame 0] := List.map_append
    rw [hconditions] at hnext
    refine ⟨?_, _, _, hadvance first last frame hplain, hconditions, ?_⟩
    · rw [glance, survey, hadvance first last frame hplain, hconditions]
      exact hholds _ _ hnext
    · rw [survey, hconditions]
      exact hnext
  rw [answers_of_onlyOpenChecks (hgroups ▸ hopen), hgroups]
  exact Run.answers_eq hstep ⟨first, last, rfl, rfl, hplain⟩ frames

theorem results_joining (combiner : Combiner) (frames : List Frame) :
    (Run.answers test { core := ⟨(Chain.joining combiner first last).conditions⟩ } frames).map
        (·.result) =
      Run.answers (survey combiner) (first ++ [last]) frames := by
  refine results_of_shape hplain
    (fun first last => [⟨(Chain.joining combiner first last).conditions⟩]) rfl ?_ ?_ ?_ frames
  · exact List.forall_mem_singleton.mpr (Group.onlyOpenChecks_joining hplain combiner)
  · intro first last frame hplain
    rw [List.map_singleton, Group.advance_joining hplain]
  · intro first last hplain
    rw [List.any_cons, List.any_nil, Bool.or_false, Group.holds_joining hplain]

theorem results_together (frames : List Frame) :
    (Run.answers test { core := ⟨first ++ [last]⟩ } frames).map (·.result) =
      Run.answers (survey .andNext) (first ++ [last]) frames := by
  refine results_of_shape hplain (fun first last => [⟨first ++ [last]⟩]) rfl ?_ ?_ ?_ frames
  · exact List.forall_mem_singleton.mpr (Group.onlyOpenChecks_of_plain hplain (by simp))
  · intro first last frame hplain
    rw [List.map_singleton, Group.advance_of_plain hplain, List.map_append, List.map_singleton]
  · intro first last hplain
    rw [List.any_cons, List.any_nil, Bool.or_false, Group.holds_of_plain hplain, Combiner.joins,
      List.all_map]
    rfl

/-- Conditions in groups of their own are true together as one of them is, which is what a chain of
`OrNext` carries to its end. -/
theorem results_apart (frames : List Frame) :
    (Run.answers test (ofGroups ((first ++ [last]).map fun condition => ⟨[condition]⟩)) frames).map
        (·.result) =
      Run.answers (survey .orNext) (first ++ [last]) frames := by
  have halone {condition : Condition} (hcondition : condition.IsPlain) :
      ∀ other ∈ [condition], other.IsPlain := List.forall_mem_singleton.mpr hcondition
  refine results_of_shape hplain
    (fun first last => (first ++ [last]).map fun condition => ⟨[condition]⟩)
    (groups_ofGroups (by simp)) ?_ ?_ ?_ frames
  · refine List.forall_mem_map.mpr fun condition hmem => ?_
    exact Group.onlyOpenChecks_of_plain (halone (hplain condition hmem)) (List.cons_ne_nil _ _)
  · intro first last frame hplain
    have hconditions : (first ++ [last]).map (·.advance frame 0) =
        first.map (·.advance frame 0) ++ [last.advance frame 0] := List.map_append
    rw [← hconditions, List.map_map, List.map_map]
    refine List.map_congr_left fun condition hmem => ?_
    exact Group.advance_of_plain (halone (hplain condition hmem)) frame
  · intro first last hplain
    rw [List.any_map, Combiner.joins, List.any_map, Bool.eq_iff_iff, List.any_eq_true,
      List.any_eq_true]
    refine exists_congr fun condition => and_congr_right fun hmem => ?_
    rw [Function.comp_apply, Group.holds_of_plain (halone (hplain condition hmem))]
    simp

/-- Standard conditions without hit targets that are joined by combiners that ask for both have the
results of these conditions side by side in one group, and joined by combiners that ask for one of two
they have the results of the trigger that gives a group to each of them, on every frame of every
run. -/
theorem results_of_combiners (frames : List Frame) :
    let results (trigger : Trigger) := (Run.answers test trigger frames).map (·.result)
    results { core := ⟨(Chain.joining .andNext first last).conditions⟩ } =
        results { core := ⟨first ++ [last]⟩ } ∧
      results { core := ⟨(Chain.joining .orNext first last).conditions⟩ } =
        results (ofGroups ((first ++ [last]).map fun condition => ⟨[condition]⟩)) := by
  intro results
  constructor
  · exact (results_joining hplain .andNext frames).trans (results_together hplain frames).symm
  · exact (results_joining hplain .orNext frames).trans (results_apart hplain frames).symm

end Shapes

theorem results_of_combiners_onByte :
    let first := [onByte (.check .standard) 0 7 0, onByte (.check .standard) 1 6 0]
    let last := onByte (.check .standard) 2 7 0
    let apart := ofGroups ((first ++ [last]).map fun condition => ⟨[condition]⟩)
    read.readAll "O:0xH0000=7_O:0xH0001=6_0xH0002=7" =
        .ok { core := ⟨(Chain.joining .orNext first last).conditions⟩ } ∧
      read.readAll "0xH0000=7S0xH0001=6S0xH0002=7" = .ok apart ∧
      (∀ condition ∈ first ++ [last], condition.IsPlain) ∧
      (Run.answers test { core := ⟨(Chain.joining .orNext first last).conditions⟩ }
        [sevens, sevens]).map (·.result) = [true, true] ∧
      (Run.answers test apart [sevens, sevens]).map (·.result) = [true, true] ∧
      (Run.answers test { core := ⟨(Chain.joining .andNext first last).conditions⟩ }
        [sevens, sevens]).map (·.result) = [false, false] := by
  intro first last apart
  have hplain : ∀ condition ∈ first ++ [last], condition.IsPlain :=
    List.forall_mem_cons.mpr ⟨⟨rfl, rfl⟩, List.forall_mem_cons.mpr
      ⟨⟨rfl, rfl⟩, List.forall_mem_singleton.mpr ⟨rfl, rfl⟩⟩⟩
  obtain ⟨htogether, hapart⟩ := results_of_combiners hplain [sevens, sevens]
  refine ⟨rfl, rfl, hplain, hapart.trans ?_, ?_, htogether.trans ?_⟩
  · decide +kernel
  · decide +kernel
  · decide +kernel

end Trigger

end AchievementLogic
