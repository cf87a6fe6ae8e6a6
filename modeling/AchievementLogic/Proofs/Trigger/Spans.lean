import AchievementLogic.Proofs.Trigger.Passes
import Mathlib.Data.List.DropRight

/-!
# The places of chains

The chains of a group are consecutive ranges of its conditions.  One walk over the conditions finds
them, with the place where the next one starts: a range ends behind each terminal, and its kind is
what that terminal says.  The walk depends on roles alone, and it finds the chains into which the
conditions are split.
-/

namespace AchievementLogic

/-- The conditions from a place up to another one, which they do not include, and what they are
for. -/
structure Span where
  first : ℕ
  stop : ℕ
  kind : ChainKind
deriving DecidableEq, Repr

/-- A condition of this role ends chains of the kind. -/
def ChainKind.EndsWith : ChainKind → Role → Prop
  | pause, role => role = .guard .pauseIf
  | reset, role => role = .guard .resetIf
  | logic, role => ∃ check, role = .check check

theorem ChainKind.endsWith_of_ofRole? {role : Role} {kind : ChainKind}
    (hkind : ofRole? role = some kind) : kind.EndsWith role := by
  unfold ofRole? at hkind
  split at hkind
  · cases hkind
    rfl
  · cases hkind
    rfl
  · cases hkind
    exact ⟨_, rfl⟩
  · cases hkind

namespace Span

def places (span : Span) : List ℕ := List.range' span.first (span.stop - span.first)

theorem mem_places {span : Span} {place : ℕ} :
    place ∈ span.places ↔ span.first ≤ place ∧ place < span.stop := by
  rw [places, List.mem_range'_1]
  omega

/-- The ranges among conditions of which the next one is at a place, when the range that is not ended
yet starts at another one. -/
def classifyFrom (first place : ℕ) : List Condition → List Span
  | [] => []
  | head :: tail =>
    match ChainKind.ofRole? head.role with
    | some kind => ⟨first, place + 1, kind⟩ :: classifyFrom (place + 1) (place + 1) tail
    | none => classifyFrom first (place + 1) tail

def classify (conditions : List Condition) : List Span := classifyFrom 0 0 conditions

theorem classifyFrom_congr {left right : List Condition}
    (hroles : left.map (·.role) = right.map (·.role)) (first place : ℕ) :
    classifyFrom first place left = classifyFrom first place right := by
  induction left generalizing right first place with
  | nil =>
      obtain rfl := List.map_eq_nil_iff.mp hroles.symm
      rfl
  | cons head tail ih =>
      obtain ⟨other, others, rfl, hhead, htail⟩ := List.map_eq_cons_iff.mp hroles.symm
      simp only [classifyFrom, hhead, ih htail.symm]

theorem classify_congr {left right : List Condition}
    (hroles : left.map (·.role) = right.map (·.role)) : classify left = classify right :=
  classifyFrom_congr hroles 0 0

end Span

namespace Chain

theorem length_conditions (chain : Chain) : chain.conditions.length = chain.links.length + 1 := by
  simp [conditions]

/-- The ranges of chains that stand behind each other from a place on. -/
def spansFrom (first : ℕ) : List Chain → List Span
  | [] => []
  | head :: tail =>
    let stop := first + head.conditions.length
    ⟨first, stop, head.kind⟩ :: spansFrom stop tail

/-- The walk finds the chains: where the range that is not ended yet starts, and what was seen of it,
are the links of the next chain. -/
theorem classifyFrom_eq_spansFrom {seen : List Condition}
    (hseen : ∀ condition ∈ seen, condition.role.isTerminal = false) (first : ℕ)
    (conditions : List Condition) :
    Span.classifyFrom first (first + seen.length) conditions =
      spansFrom first (split (seen ++ conditions)).1 := by
  induction conditions generalizing seen first with
  | nil =>
      rw [List.append_nil, split_of_loose hseen]
      rfl
  | cons head tail ih =>
      rw [Span.classifyFrom]
      split
      case h_1 kind hkind =>
        have hproper : IsProper ⟨seen, kind, head⟩ := ⟨hseen, hkind⟩
        have hconditions : seen ++ head :: tail = conditions ⟨seen, kind, head⟩ ++ tail := by
          simp [conditions]
        have hlength : (conditions ⟨seen, kind, head⟩).length = seen.length + 1 :=
          length_conditions _
        have hrest := ih (List.forall_mem_nil _) (first + seen.length + 1)
        rw [List.length_nil, Nat.add_zero, List.nil_append] at hrest
        rw [hconditions, hproper.split_append, spansFrom, hlength, hrest, Nat.add_assoc]
      case h_2 hnone =>
        have hlonger : ∀ condition ∈ seen ++ [head], condition.role.isTerminal = false := by
          rw [List.forall_mem_append, List.forall_mem_singleton]
          exact ⟨hseen, (ofRole?_eq_none_iff head.role).mp hnone⟩
        have hlength : first + seen.length + 1 = first + (seen ++ [head]).length := by
          rw [List.length_append, List.length_singleton, Nat.add_assoc]
        rw [hlength, ih hlonger, List.append_assoc, List.singleton_append]

theorem classify_eq_spansFrom (conditions : List Condition) :
    Span.classify conditions = spansFrom 0 (split conditions).1 :=
  classifyFrom_eq_spansFrom (List.forall_mem_nil _) 0 conditions

/-- A range is that of a chain, behind the conditions of the chains before it. -/
theorem exists_of_mem_spansFrom {first : ℕ} {chains : List Chain} {span : Span}
    (hspan : span ∈ spansFrom first chains) :
    ∃ before chain after, chains = before ++ chain :: after ∧
      span = ⟨first + (before.flatMap conditions).length,
        first + (before.flatMap conditions).length + chain.conditions.length, chain.kind⟩ := by
  induction chains generalizing first with
  | nil => cases hspan
  | cons head tail ih =>
      rcases List.mem_cons.mp hspan with rfl | hlater
      · exact ⟨[], head, tail, rfl, by simp⟩
      · obtain ⟨before, chain, after, rfl, hplaces⟩ := ih hlater
        refine ⟨head :: before, chain, after, rfl, ?_⟩
        rw [hplaces, List.flatMap_cons, List.length_append, Nat.add_assoc]

theorem flatMap_places_spansFrom (first : ℕ) (chains : List Chain) :
    (spansFrom first chains).flatMap Span.places =
      List.range' first (chains.flatMap conditions).length := by
  induction chains generalizing first with
  | nil => rfl
  | cons head tail ih =>
      rw [spansFrom, List.flatMap_cons, ih, List.flatMap_cons, List.length_append,
        ← List.range'_append_1, Span.places, Nat.add_sub_cancel_left]

theorem IsProper.isTerminal_terminal {chain : Chain} (hproper : chain.IsProper) :
    chain.terminal.role.isTerminal = true := by
  rw [← isSome_ofRole?, hproper.terminal, Option.isSome_some]

/-- The chains take up all conditions up to the last terminal. -/
theorem flatMap_conditions_split (given : List Condition) :
    (split given).1.flatMap conditions =
      given.rdropWhile fun condition => !condition.role.isTerminal := by
  obtain ⟨hproper, hloose⟩ := isProper_split given
  have hloose' : ∀ condition ∈ (split given).2.reverse, (!condition.role.isTerminal) = true := by
    intro condition hcondition
    rw [hloose condition (List.mem_reverse.mp hcondition), Bool.not_false]
  have hjoin : (split given).1.flatMap conditions ++ (split given).2 = given := join_split given
  have hdrop : (given.rdropWhile fun condition => !condition.role.isTerminal) =
      ((split given).1.flatMap conditions).rdropWhile fun condition => !condition.role.isTerminal := by
    conv_lhs => rw [← hjoin]
    rw [List.rdropWhile, List.reverse_append, List.dropWhile_append_of_pos hloose', List.rdropWhile]
  rw [hdrop]
  rcases List.eq_nil_or_concat (split given).1 with hnone | ⟨others, last, hlast⟩
  · rw [hnone]
    rfl
  · have hterminal : (!last.terminal.role.isTerminal) = false := by
      rw [(hproper last (by simp [hlast])).isTerminal_terminal, Bool.not_true]
    have hconcat : (split given).1.flatMap conditions =
        others.flatMap conditions ++ last.links ++ [last.terminal] := by
      simp [hlast, conditions]
    rw [hconcat, List.rdropWhile_concat, if_neg (by rw [hterminal]; exact Bool.false_ne_true)]

end Chain

/-! ## The ranges are a partition -/

/-- The ranges stand one behind the other, without a gap, from the first condition up to the last
terminal.  Each one has some condition, ends with its only terminal, and is for what that is for. -/
structure Span.IsPartition (given : List Condition) (spans : List Span) : Prop where
  nonempty : ∀ span ∈ spans, span.first < span.stop
  covers : spans.flatMap Span.places =
    List.range (given.rdropWhile fun condition => !condition.role.isTerminal).length
  terminal : ∀ span ∈ spans, ∀ place ∈ span.places, ∃ condition, given[place]? = some condition ∧
    (condition.role.isTerminal = true ↔ place + 1 = span.stop)
  kind : ∀ span ∈ spans, ∃ terminal, given[span.stop - 1]? = some terminal ∧
    span.kind.EndsWith terminal.role

namespace Chain

theorem isTerminal_getElem?_conditions {chain : Chain} (hproper : chain.IsProper) {place : ℕ}
    (hplace : place < chain.conditions.length) :
    ∃ condition, chain.conditions[place]? = some condition ∧
      (condition.role.isTerminal = true ↔ place + 1 = chain.conditions.length) := by
  rw [length_conditions] at hplace ⊢
  rcases Nat.lt_or_eq_of_le (Nat.le_of_lt_succ hplace) with hlink | rfl
  · have hnot := hproper.links _ (List.getElem_mem hlink)
    refine ⟨chain.links[place], ?_, ?_⟩
    · rw [conditions, List.getElem?_append_left hlink, List.getElem?_eq_getElem hlink]
    · simp only [hnot, Bool.false_eq_true, false_iff]
      omega
  · refine ⟨chain.terminal, by rw [conditions, List.getElem?_concat_length], ?_⟩
    simp [hproper.isTerminal_terminal]

/-- A range of the chains into which conditions are split has one of these chains. -/
theorem exists_of_mem_spansFrom_split {given : List Condition} {span : Span}
    (hspan : span ∈ spansFrom 0 (split given).1) :
    ∃ before, ∃ chain : Chain, ∃ after, chain.IsProper ∧
      given = before ++ (chain.conditions ++ after) ∧
      span = ⟨before.length, before.length + chain.conditions.length, chain.kind⟩ := by
  obtain ⟨before, chain, after, hchains, hplaces⟩ := exists_of_mem_spansFrom hspan
  have hproper := (isProper_split given).1 chain (by simp [hchains])
  refine ⟨before.flatMap conditions, chain, after.flatMap conditions ++ (split given).2, hproper,
    ?_, by rw [hplaces, Nat.zero_add]⟩
  conv_lhs => rw [← join_split given]
  simp [hchains, join]

/-- The ranges of the chains divide the conditions up to the last terminal. -/
theorem isPartition_spansFrom (given : List Condition) :
    Span.IsPartition given (spansFrom 0 (split given).1) := by
  refine ⟨?_, ?_, ?_, ?_⟩
  · intro span hmem
    obtain ⟨before, chain, after, -, -, rfl⟩ := exists_of_mem_spansFrom_split hmem
    have hlength := chain.length_conditions
    change before.length < before.length + chain.conditions.length
    omega
  · rw [flatMap_places_spansFrom, flatMap_conditions_split, List.range_eq_range']
  · intro span hmem place hplace
    obtain ⟨before, chain, after, hproper, rfl, rfl⟩ := exists_of_mem_spansFrom_split hmem
    obtain ⟨hfirst, hstop⟩ := Span.mem_places.mp hplace
    obtain ⟨offset, rfl⟩ := Nat.exists_eq_add_of_le hfirst
    have hoffset : offset < chain.conditions.length := Nat.lt_of_add_lt_add_left hstop
    obtain ⟨condition, hcondition, hterminal⟩ := isTerminal_getElem?_conditions hproper hoffset
    refine ⟨condition, ?_, hterminal.trans ?_⟩
    · rw [List.getElem?_append_right (Nat.le_add_right _ _), Nat.add_sub_cancel_left,
        List.getElem?_append_left hoffset, hcondition]
    · change _ ↔ before.length + offset + 1 = before.length + chain.conditions.length
      omega
  · intro span hmem
    obtain ⟨before, chain, after, hproper, rfl, rfl⟩ := exists_of_mem_spansFrom_split hmem
    refine ⟨chain.terminal, ?_, ChainKind.endsWith_of_ofRole? hproper.terminal⟩
    have hplace : before.length + chain.conditions.length - 1 = before.length + chain.links.length := by
      rw [length_conditions]
      omega
    rw [hplace, List.getElem?_append_right (Nat.le_add_right _ _), Nat.add_sub_cancel_left,
      List.getElem?_append_left (by rw [length_conditions]; omega), conditions,
      List.getElem?_concat_length]

end Chain

namespace Span

theorem isPartition_classify (given : List Condition) : IsPartition given (classify given) := by
  rw [Chain.classify_eq_spansFrom]
  exact Chain.isPartition_spansFrom given

/-- There are no ranges where nothing ends a chain. -/
theorem classify_eq_nil_iff (given : List Condition) :
    classify given = [] ↔ ∀ condition ∈ given, condition.role.isTerminal = false := by
  rw [Chain.classify_eq_spansFrom]
  constructor
  · intro hnone
    cases hsplit : (Chain.split given).1 with
    | nil =>
        have hjoin := Chain.join_split given
        rw [hsplit, Chain.join, List.flatMap_nil, List.nil_append] at hjoin
        rw [← hjoin]
        exact (Chain.isProper_split given).2
    | cons head tail =>
        rw [hsplit, Chain.spansFrom] at hnone
        cases hnone
  · intro hloose
    rw [Chain.split_of_loose hloose]
    rfl

end Span

end AchievementLogic
