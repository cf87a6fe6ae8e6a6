import AchievementLogic.Proofs.Trigger.ChainOrder
import AchievementLogic.Proofs.Trigger.Endings
import Mathlib.Algebra.BigOperators.Group.List.Basic

/-!
# Sums in front of a condition

Modifiers that add the values of their sources to the source of the next condition, or take them from
it, come to one sum of words, which wraps around.  Their order does not show in it, nor in anything
else: with them in other places a trigger reports the same of every frame of every run, and all
conditions keep their hits.
-/

namespace AchievementLogic

theorem set_of_getElem? {Member : Type} {members : List Member} {place : ℕ} {member : Member}
    (hmember : members[place]? = some member) : members.set place member = members := by
  obtain ⟨hplace, rfl⟩ := List.getElem?_eq_some_iff.mp hmember
  exact List.set_getElem_self hplace

/-! ## Sums of words -/

/-- The value of the operand is never a double. -/
def Operand.isWhole : Operand → Bool
  | .memory inner => !inner.size.isFloat
  | .word _ => true
  | .float _ => false

theorem Operand.value_of_isWhole {operand : Operand} (hwhole : operand.isWhole = true) :
    operand.value = .word operand.value.toWord := by
  cases operand with
  | memory inner =>
      have hsize : inner.size.isFloat = false := by simpa [isWhole] using hwhole
      cases haccess : inner.access <;>
        simp [value, MemoryOperand.value, MemoryOperand.decode, haccess, hsize, Value.toWord]
  | word word => rfl
  | float number => cases hwhole

@[simp]
theorem Operand.isWhole_advance (operand : Operand) (frame : Frame) (offset : UInt32) :
    (operand.advance frame offset).isWhole = operand.isWhole := by
  cases operand <;> rfl

namespace Condition

/-- The condition adds a word to the source of the next one, or takes it from there. -/
structure IsSum (condition : Condition) : Prop where
  role : condition.role = .modifier .addSource ∨ condition.role = .modifier .subSource
  source : condition.source.isWhole = true

def summand (condition : Condition) : ℤ :=
  let source : ℤ := condition.source.value.toWord.toNat
  if condition.role = .modifier .subSource then -source else source

variable {condition : Condition}

theorem IsSum.role_ne_addAddress (hsum : condition.IsSum) :
    condition.role ≠ .modifier .addAddress := by
  rcases hsum.role with hrole | hrole
  · rw [hrole]; decide
  · rw [hrole]; decide

theorem IsSum.advance (hsum : condition.IsSum) (frame : Frame) (offset : UInt32) :
    (condition.advance frame offset).IsSum where
  role := hsum.role
  source := (condition.source.isWhole_advance frame offset).trans hsum.source

end Condition

theorem ofInt_toNat (word : UInt32) : UInt32.ofInt word.toNat = word := by
  have hsmall : (word.toNat : ℤ) % 2 ^ 32 = word.toNat :=
    Int.emod_eq_of_lt (Int.natCast_nonneg _) (by exact_mod_cast word.toNat_lt)
  rw [UInt32.ofInt, hsmall, Int.toNat_natCast, UInt32.ofNat_toNat]

namespace Carry

/-- A sum is added to what was collected before, and nothing else happens to it. -/
theorem link_of_isSum {carry : Carry} {condition : Condition} {start : ℤ}
    (hstart : carry.accumulated = .word (UInt32.ofInt start)) (hsum : condition.IsSum) :
    carry.link condition =
      ⟨condition,
        { carry with accumulated := .word (UInt32.ofInt (start + condition.summand)) }, false⟩ := by
  have hvalue := Operand.value_of_isWhole hsum.source
  rcases hsum.role with hrole | hrole
  · have hadded : condition.sourceValue carry.accumulated =
        .word (UInt32.ofInt (start + condition.summand)) := by
      rw [Condition.sourceValue, hstart, hvalue, Condition.summand, hrole, UInt32.ofInt_add,
        UInt32.add_comm]
      simp only [reduceCtorEq, if_false, ofInt_toNat, Role.modifier.injEq]
      rfl
    simp only [link, hrole, hadded]
  · have htaken : carry.accumulated - condition.source.value =
        .word (UInt32.ofInt (start + condition.summand)) := by
      rw [hstart, hvalue, Condition.summand, if_pos hrole, UInt32.ofInt_add, UInt32.ofInt_neg,
        ofInt_toNat, ← UInt32.sub_eq_add_neg]
      rfl
    simp only [link, hrole, htaken]

/-- Sums add up to the value that they pass on, modulo the size of a word, and nothing else of what
is carried changes. -/
theorem links_of_isSum {carry : Carry} {run : List Condition} {start : ℤ}
    (hstart : carry.accumulated = .word (UInt32.ofInt start))
    (hsums : ∀ condition ∈ run, condition.IsSum) :
    carry.links run =
      ⟨run,
        { carry with
          accumulated := .word (UInt32.ofInt (start + (run.map Condition.summand).sum)) },
        false⟩ := by
  induction run generalizing carry start with
  | nil =>
      rw [List.map_nil, List.sum_nil, add_zero, ← hstart]
      rfl
  | cons head tail ih =>
      obtain ⟨hhead, htail⟩ := List.forall_mem_cons.mp hsums
      rw [links, link_of_isSum hstart hhead, ih rfl htail, List.map_cons, List.sum_cons, add_assoc]
      rfl

/-- A condition that is no modifier passes no value on. -/
theorem accumulated_link_of_not_modifier {condition : Condition}
    (hrole : condition.role.isModifier = false) (carry : Carry) :
    (carry.link condition).carry.accumulated = .word 0 := by
  unfold link
  split
  case h_4 =>
    cases condition.role with
    | tally kind => cases kind <;> rfl
    | _ => rfl
  all_goals rename_i hmodifier; rw [hmodifier] at hrole; cases hrole

/-- Behind conditions that do not end in a modifier nothing is collected yet. -/
theorem accumulated_links {conditions : List Condition}
    (hlast : ∀ role ∈ (conditions.map (·.role)).getLast?, role.isModifier = false) :
    (({} : Carry).links conditions).carry.accumulated = .word 0 := by
  cases conditions using List.reverseRecOn with
  | nil => rfl
  | append_singleton first last =>
      rw [List.map_append, List.map_singleton, List.getLast?_concat] at hlast
      rw [links_append]
      exact accumulated_link_of_not_modifier (hlast last.role rfl) _

/-- Where no combiner stands before it, a condition holds exactly if its comparison holds of the value
that it compares and of its target. -/
theorem held_meet {carry : Carry} {condition : Condition} {comparison : Comparison}
    (hcomparison : condition.comparison? = some comparison) (halone : carry.combined? = none) :
    (carry.meet condition).held =
      comparison.holds (carry.meet condition).compared condition.target.value := by
  simp only [meet, halone, Condition.compare, hcomparison]

end Carry

/-! ## Chains with sums -/

namespace Chain

/-- The links of the chain are some that do not end in a modifier, then sums, then more of them that
do not begin with a modifier, the terminal included. -/
structure HasSums (chain : Chain) (earlier run later : List Condition) : Prop where
  links : chain.links = earlier ++ run ++ later
  before : ∀ role ∈ (earlier.map (·.role)).getLast?, role.isModifier = false
  sums : ∀ condition ∈ run, condition.IsSum
  after : ∀ role ∈ ((later ++ [chain.terminal]).map (·.role)).head?, role.isModifier = false

/-- The value that the condition at this place compares. -/
def comparedAt? (chain : Chain) (place : ℕ) : Option Value :=
  chain.conditions[place]?.map fun condition =>
    ((({} : Carry).links (chain.conditions.take place)).carry.meet condition).compared

namespace HasSums

variable {chain : Chain} {earlier run later : List Condition}

theorem accumulated (hsums : chain.HasSums earlier run later) :
    (({} : Carry).links earlier).carry.accumulated = .word (UInt32.ofInt 0) :=
  Carry.accumulated_links hsums.before

/-- What is passed on to the condition behind the sums: what came to their front, and their sum. -/
theorem carry_take (hsums : chain.HasSums earlier run later) :
    (({} : Carry).links (chain.conditions.take (earlier.length + run.length))).carry =
      { (({} : Carry).links earlier).carry with
        accumulated := .word (UInt32.ofInt (run.map Condition.summand).sum) } := by
  have htake : chain.conditions.take (earlier.length + run.length) = earlier ++ run := by
    rw [conditions, hsums.links, List.append_assoc]
    exact List.take_left' List.length_append
  have hrun := Carry.links_of_isSum hsums.accumulated hsums.sums
  rw [zero_add] at hrun
  rw [htake, Carry.links_append, hrun]

theorem comparedAt?_eq (hsums : chain.HasSums earlier run later) {condition : Condition}
    (hcondition : chain.conditions[earlier.length + run.length]? = some condition)
    (hwhole : condition.source.isWhole = true) :
    chain.comparedAt? (earlier.length + run.length) = some (.word (UInt32.ofInt
      (condition.source.value.toWord.toNat + (run.map Condition.summand).sum))) := by
  rw [Chain.comparedAt?, hcondition, Option.map_some, hsums.carry_take]
  simp only [Carry.meet, Condition.sourceValue]
  rw [Operand.value_of_isWhole hwhole, UInt32.ofInt_add, ofInt_toNat]
  rfl

/-- Where no combiner stands before the sums, the condition behind them holds exactly if its comparison
holds of its source with their sum and of its target. -/
theorem held_meet (hsums : chain.HasSums earlier run later) {condition : Condition}
    {comparison : Comparison}
    (hcondition : chain.conditions[earlier.length + run.length]? = some condition)
    (hwhole : condition.source.isWhole = true)
    (hcomparison : condition.comparison? = some comparison)
    (halone : (({} : Carry).links earlier).carry.combined? = none) :
    ((({} : Carry).links (chain.conditions.take
        (earlier.length + run.length))).carry.meet condition).held =
      comparison.holds (.word (UInt32.ofInt
        (condition.source.value.toWord.toNat + (run.map Condition.summand).sum)))
        condition.target.value := by
  have hcompared := hsums.comparedAt?_eq hcondition hwhole
  rw [Chain.comparedAt?, hcondition, Option.map_some] at hcompared
  rw [Carry.held_meet hcomparison (by rw [hsums.carry_take, halone]), Option.some.inj hcompared]

theorem links_eq (hsums : chain.HasSums earlier run later) :
    ({} : Carry).links chain.links =
      let front := ({} : Carry).links earlier
      let back := { front.carry with
        accumulated := .word (UInt32.ofInt (run.map Condition.summand).sum) }.links later
      ⟨front.conditions ++ run ++ back.conditions, back.carry, front.dirty || back.dirty⟩ := by
  have hrun := Carry.links_of_isSum hsums.accumulated hsums.sums
  rw [zero_add] at hrun
  rw [hsums.links, List.append_assoc, Carry.links_append, Carry.links_append, hrun]
  simp

/-- Whether a chain has sums in these places is said by the roles around them. -/
theorem of_roles {other : Chain} {otherEarlier otherRun otherLater : List Condition}
    (hsums : chain.HasSums earlier run later)
    (hlinks : other.links = otherEarlier ++ otherRun ++ otherLater)
    (hearlier : otherEarlier.map (·.role) = earlier.map (·.role))
    (hrun : ∀ condition ∈ otherRun, condition.IsSum)
    (hlater : otherLater.map (·.role) = later.map (·.role))
    (hterminal : other.terminal.role = chain.terminal.role) :
    other.HasSums otherEarlier otherRun otherLater where
  links := hlinks
  before := by
    rw [hearlier]
    exact hsums.before
  sums := hrun
  after := by
    rw [List.map_append, hlater, List.map_singleton, hterminal]
    simpa using hsums.after

theorem evaluate (hsums : chain.HasSums earlier run later) :
    chain.evaluate.chain.HasSums (({} : Carry).links earlier).conditions run
      ({ (({} : Carry).links earlier).carry with
        accumulated := .word (UInt32.ofInt (run.map Condition.summand).sum) }.links
          later).conditions := by
  refine hsums.of_roles ?_ (Carry.map_role_links _ _) hsums.sums (Carry.map_role_links _ _)
    chain.role_terminal_evaluate
  have hlinks : chain.evaluate.chain.links = (({} : Carry).links chain.links).conditions := rfl
  rw [hlinks, hsums.links_eq]

theorem map_clearHits (hsums : chain.HasSums earlier run later) :
    (chain.map Condition.clearHits).HasSums (earlier.map Condition.clearHits)
      (run.map Condition.clearHits) (later.map Condition.clearHits) := by
  refine hsums.of_roles ?_ ?_ ?_ ?_ rfl
  · rw [Chain.map, hsums.links, List.map_append, List.map_append]
  · rw [List.map_map]
    rfl
  · rw [List.forall_mem_map]
    exact fun condition hmem => ⟨(hsums.sums condition hmem).role, (hsums.sums condition hmem).source⟩
  · rw [List.map_map]
    rfl

/-- No address is added to those of the sums, and they add none. -/
theorem shiftAfter_eq_zero (hsums : chain.HasSums earlier run later) (frame : Frame) :
    Group.shiftAfter frame 0 earlier = 0 ∧ Group.shiftAfter frame 0 run = 0 := by
  have hzero {conditions : List Condition}
      (hlast : ∀ role ∈ (conditions.map (·.role)).getLast?, role ≠ .modifier .addAddress) :
      Group.shiftAfter frame 0 conditions = 0 := by
    cases conditions using List.reverseRecOn with
    | nil => rfl
    | append_singleton first last =>
        rw [List.map_append, List.map_singleton, List.getLast?_concat] at hlast
        exact Group.shiftAfter_concat frame 0 first (hlast last.role rfl)
  constructor
  · apply hzero
    rintro role hrole rfl
    cases hsums.before _ hrole
  · apply hzero
    intro role hrole
    obtain ⟨condition, hcondition, rfl⟩ := List.mem_map.mp (List.mem_of_getLast? hrole)
    exact (hsums.sums condition hcondition).role_ne_addAddress

theorem advance_eq (hsums : chain.HasSums earlier run later) (frame : Frame) :
    chain.advance frame =
      { links := Group.advanceFrom frame 0 earlier ++ run.map (·.advance frame 0) ++
          Group.advanceFrom frame 0 later
        kind := chain.kind
        terminal := chain.terminal.advance frame (Group.shiftAfter frame 0 later) } := by
  obtain ⟨hearlier, hrun⟩ := hsums.shiftAfter_eq_zero frame
  have hmoved : Group.advanceFrom frame 0 run = run.map (·.advance frame 0) :=
    Group.advanceFrom_eq_map frame fun condition hmem =>
      (hsums.sums condition hmem).role_ne_addAddress
  simp only [Chain.advance, hsums.links, Group.advanceFrom_append, Group.shiftAfter_append, hearlier,
    hrun, hmoved]

theorem advance (hsums : chain.HasSums earlier run later) (frame : Frame) :
    (chain.advance frame).HasSums (Group.advanceFrom frame 0 earlier)
      (run.map (·.advance frame 0)) (Group.advanceFrom frame 0 later) := by
  refine hsums.of_roles ?_ (Group.map_role_advanceFrom _ _ _) ?_ (Group.map_role_advanceFrom _ _ _)
    rfl
  · rw [hsums.advance_eq]
  · rw [List.forall_mem_map]
    exact fun condition hmem => (hsums.sums condition hmem).advance frame 0

end HasSums

/-- The right chain is the left one with the sums that stand behind the first links, as many as are
given, in other places. -/
def SumsMoved (places : Equiv.Perm ℕ) (start : ℕ) (left right : Chain) : Prop :=
  ∃ earlier run moved later, earlier.length = start ∧ left.HasSums earlier run later ∧
    MovedBy places run moved ∧ right = { left with links := earlier ++ moved ++ later }

namespace SumsMoved

variable {places : Equiv.Perm ℕ} {start : ℕ} {left right : Chain}

theorem hasSums_moved {chain : Chain} {earlier run moved later : List Condition}
    (hsums : chain.HasSums earlier run later) (hmoved : MovedBy places run moved) :
    HasSums { chain with links := earlier ++ moved ++ later } earlier moved later := by
  refine hsums.of_roles rfl rfl ?_ rfl rfl
  exact fun condition hmem => hsums.sums condition (hmoved.perm.mem_iff.mp hmem)

theorem kind (hmoved : left.SumsMoved places start right) : right.kind = left.kind := by
  obtain ⟨earlier, run, moved, later, -, -, -, rfl⟩ := hmoved
  rfl

theorem advance (hmoved : left.SumsMoved places start right) (frame : Frame) :
    (left.advance frame).SumsMoved places start (right.advance frame) := by
  obtain ⟨earlier, run, moved, later, hstart, hsums, hplaces, rfl⟩ := hmoved
  refine ⟨_, _, _, _, ?_, hsums.advance frame, hplaces.map (·.advance frame 0), ?_⟩
  · rw [← List.length_map, Group.map_role_advanceFrom, List.length_map, hstart]
  · rw [(hasSums_moved hsums hplaces).advance_eq, hsums.advance_eq]

theorem map_clearHits (hmoved : left.SumsMoved places start right) :
    (left.map Condition.clearHits).SumsMoved places start (right.map Condition.clearHits) := by
  obtain ⟨earlier, run, moved, later, hstart, hsums, hplaces, rfl⟩ := hmoved
  refine ⟨_, _, _, _, ?_, hsums.map_clearHits, hplaces.map Condition.clearHits, ?_⟩
  · rw [List.length_map, hstart]
  · simp [Chain.map]

/-- The order of the sums shows neither in what the chain comes to nor in any hits. -/
theorem evaluate (hmoved : left.SumsMoved places start right) :
    right.evaluate.mapChain ending = left.evaluate.mapChain ending ∧
      left.evaluate.chain.SumsMoved places start right.evaluate.chain := by
  obtain ⟨earlier, run, moved, later, hstart, hsums, hplaces, rfl⟩ := hmoved
  have hsum : (moved.map Condition.summand).sum = (run.map Condition.summand).sum :=
    (hplaces.perm.map Condition.summand).sum_eq
  have hleft := hsums.links_eq
  have hright := (hasSums_moved hsums hplaces).links_eq
  rw [hsum] at hright
  constructor
  · simp only [Chain.evaluate, hleft, hright]
    rfl
  · refine ⟨_, _, _, _, ?_, hsums.evaluate, hplaces, ?_⟩
    · rw [← List.length_map, Carry.map_role_links, List.length_map, hstart]
    · simp only [Chain.evaluate, hleft, hright]

end SumsMoved

end Chain

/-! ## Groups and triggers with sums -/

namespace Group

/-- The right group has the chain at this place with its sums in other places, and is otherwise the
left one. -/
structure SumsMoved (places : Equiv.Perm ℕ) (start place : ℕ) (left right : Group) : Prop where
  chains : ∃ chain other, left.chains[place]? = some chain ∧
    chain.SumsMoved places start other ∧ right.chains = left.chains.set place other
  loose : right.loose = left.loose

namespace SumsMoved

variable {places : Equiv.Perm ℕ} {start place : ℕ} {left right : Group}

theorem isEmpty (hmoved : left.SumsMoved places start place right) :
    right.isEmpty = left.isEmpty := by
  have hsome {group : Group} {chain : Chain} (hchain : chain ∈ group.chains) :
      group.isEmpty = false := by
    have hterminal := mem_conditions_of_mem_chains hchain
      (List.mem_append_right chain.links List.mem_cons_self)
    exact List.isEmpty_eq_false_iff.mpr (List.ne_nil_of_mem hterminal)
  obtain ⟨chain, other, hchain, -, hchains⟩ := hmoved.chains
  have hother : other ∈ right.chains := by
    rw [hchains]
    exact List.mem_set (List.getElem?_eq_some_iff.mp hchain).1 other
  rw [hsome hother, hsome (List.mem_of_getElem? hchain)]

theorem endings (hmoved : left.SumsMoved places start place right) :
    right.endings = left.endings := by
  obtain ⟨chain, other, hchain, hother, hchains⟩ := hmoved.chains
  have hending : left.endings[place]? = some (chain.evaluate.mapChain Chain.ending) := by
    rw [Group.endings, List.getElem?_map, hchain, Option.map_some]
  rw [Group.endings, hchains, List.map_set, hother.evaluate.1]
  exact set_of_getElem? hending

theorem advance (hmoved : left.SumsMoved places start place right) (frame : Frame) :
    (left.advance frame).SumsMoved places start place (right.advance frame) where
  chains := by
    obtain ⟨chain, other, hchain, hother, hchains⟩ := hmoved.chains
    refine ⟨chain.advance frame, other.advance frame, ?_, hother.advance frame, ?_⟩
    · rw [chains_advance, List.getElem?_map, hchain, Option.map_some]
    · rw [chains_advance, chains_advance, hchains, List.map_set]
  loose := by rw [loose_advance, loose_advance, hmoved.loose]

theorem clearHits (hmoved : left.SumsMoved places start place right) :
    left.clearHits.SumsMoved places start place right.clearHits where
  chains := by
    obtain ⟨chain, other, hchain, hother, hchains⟩ := hmoved.chains
    refine ⟨chain.map Condition.clearHits, other.map Condition.clearHits, ?_,
      hother.map_clearHits, ?_⟩
    · rw [chains_clearHits, List.getElem?_map, hchain, Option.map_some]
    · rw [chains_clearHits, chains_clearHits, hchains, List.map_set]
  loose := by rw [loose_clearHits, loose_clearHits, hmoved.loose]

theorem evaluate (hmoved : left.SumsMoved places start place right) :
    left.evaluate.group.SumsMoved places start place right.evaluate.group where
  chains := by
    obtain ⟨chain, other, hchain, hother, hchains⟩ := hmoved.chains
    refine ⟨if left.skips place chain.kind then chain else chain.evaluate.chain,
      if left.skips place chain.kind then other else other.evaluate.chain, ?_, ?_, ?_⟩
    · rw [chains_evaluate_eq_mapIdx, List.getElem?_mapIdx, hchain, Option.map_some]
    · split
      · exact hother
      · exact hother.evaluate.2
    · simp only [chains_evaluate_eq_mapIdx, skips_of_endings hmoved.endings, hchains,
        List.mapIdx_set, hother.kind]
  loose := by rw [loose_evaluate, loose_evaluate, hmoved.loose]

end SumsMoved

end Group

namespace Trigger

/-- The right trigger has the group with this number with sums of one of its chains in other places,
and the other groups of the left one. -/
def SumsMoved (places : Equiv.Perm ℕ) (start place number : ℕ) (left right : Trigger) : Prop :=
  ∃ group other, left.groups[number]? = some group ∧ group.SumsMoved places start place other ∧
    right.groups = left.groups.set number other

namespace SumsMoved

variable {places : Equiv.Perm ℕ} {start place number : ℕ} {left right : Trigger}

theorem of_groups_map {leftAfter rightAfter : Trigger} {change : Group → Group}
    (hmoved : left.SumsMoved places start place number right)
    (hchange : ∀ group other : Group, group.SumsMoved places start place other →
      (change group).SumsMoved places start place (change other))
    (hleft : leftAfter.groups = left.groups.map change)
    (hright : rightAfter.groups = right.groups.map change) :
    leftAfter.SumsMoved places start place number rightAfter := by
  obtain ⟨group, other, hgroup, hother, hgroups⟩ := hmoved
  refine ⟨change group, change other, ?_, hchange group other hother, ?_⟩
  · rw [hleft, List.getElem?_map, hgroup, Option.map_some]
  · rw [hleft, hright, hgroups, List.map_set]

/-- Of all groups the same is seen if the same is seen of groups whose sums have moved. -/
theorem map_groups {Seen : Type} {observe : Group → Seen}
    (hmoved : left.SumsMoved places start place number right)
    (hobserve : ∀ group other : Group, group.SumsMoved places start place other →
      observe other = observe group) :
    right.groups.map observe = left.groups.map observe := by
  obtain ⟨group, other, hgroup, hother, hgroups⟩ := hmoved
  have hseen : (left.groups.map observe)[number]? = some (observe group) := by
    rw [List.getElem?_map, hgroup, Option.map_some]
  rw [hgroups, List.map_set, hobserve group other hother]
  exact set_of_getElem? hseen

/-- Triggers with the sums of a chain in two orders come to the same on a frame, and stay so. -/
theorem evaluate (hmoved : left.SumsMoved places start place number right) :
    (right.evaluate.1 = left.evaluate.1 ∧ right.evaluate.2.primed = left.evaluate.2.primed ∧
      right.evaluate.2.measured? = left.evaluate.2.measured?) ∧
    left.evaluate.2.SumsMoved places start place number right.evaluate.2 := by
  have hreports : right.groups.map Group.report = left.groups.map Group.report :=
    hmoved.map_groups fun _ _ hgroup => Group.report_of_endings hgroup.endings
  have hempty : right.groups.map Group.isEmpty = left.groups.map Group.isEmpty :=
    hmoved.map_groups fun _ _ hgroup => hgroup.isEmpty
  have hright := groups_evaluate right
  rw [wasReset_of_reports hreports] at hright
  refine ⟨evaluate_of_reports (List.cons.inj hempty).1 hreports, ?_⟩
  refine hmoved.of_groups_map (fun group other hgroup => ?_) (groups_evaluate left) hright
  split
  · exact hgroup.clearHits
  · exact hgroup.evaluate

theorem test (hmoved : left.SumsMoved places start place number right) (frame : Frame) :
    ((right.test frame).1 = (left.test frame).1 ∧
      (right.test frame).2.primed = (left.test frame).2.primed ∧
      (right.test frame).2.measured? = (left.test frame).2.measured?) ∧
    (left.test frame).2.SumsMoved places start place number (right.test frame).2 := by
  have hadvanced : (left.advance frame).SumsMoved places start place number (right.advance frame) :=
    hmoved.of_groups_map (fun _ _ hgroup => hgroup.advance frame) rfl rfl
  exact hadvanced.evaluate

theorem after (hmoved : left.SumsMoved places start place number right) (frames : List Frame) :
    (left.after frames).SumsMoved places start place number (right.after frames) := by
  induction frames generalizing left right with
  | nil => exact hmoved
  | cons frame later ih => exact ih (hmoved.test frame).2

end SumsMoved

end Trigger

end AchievementLogic
