import AchievementLogic.Proofs.Trigger.Guards
import AchievementLogic.Proofs.Trigger.Spans

/-!
# Evaluating chains at their places

A group may be evaluated by the ranges that were found when it was made: for each range a loop runs
over a slice of the conditions, and the slice is written back.  Such an evaluation fails where a
slice or an index is out of range, or where the loop reaches the end of a slice without a terminal.
With the ranges of its conditions a group never fails, whatever happened to it since then, and its
outcome is that of its chains.
-/

namespace AchievementLogic

/-! ## One chain -/

/-- What evaluating the conditions of a range gives. -/
structure SliceOutcome where
  conditions : List Condition
  satisfied : Bool
  measured? : Option Measured
  dirty : Bool

/-- The outcome with what was evaluated before. -/
def SliceOutcome.behind (outcome : SliceOutcome) (before : List Condition) (dirty : Bool) :
    SliceOutcome :=
  { outcome with conditions := before ++ outcome.conditions, dirty := dirty || outcome.dirty }

def ChainOutcome.slice (outcome : ChainOutcome) : SliceOutcome :=
  ⟨outcome.chain.conditions, outcome.satisfied, outcome.measured?, outcome.dirty⟩

namespace Carry

def finish (carry : Carry) (terminal : Condition) (rest : List Condition) : SliceOutcome :=
  let encounter := carry.meet terminal
  let ended := if encounter.condition.hasTarget then encounter.endTargeted carry.tally
    else encounter.endOpen
  { conditions := ended.condition :: rest
    satisfied := ended.satisfied
    measured? := encounter.measured? carry.tally ended.condition
    dirty := encounter.dirty || ended.dirty || (terminal.role == .guard .pauseIf && encounter.held) }

/-- Runs over the conditions of a range of which the last one is at a place.  Modifiers only collect,
wherever they are; another condition is a link before the last place, and is the terminal there.
Where no condition is, the run fails. -/
def run? (carry : Carry) (last place : ℕ) : List Condition → Option SliceOutcome
  | [] => none
  | head :: tail =>
    if head.role.isModifier || place < last then
      let first := carry.link head
      (first.carry.run? last (place + 1) tail).map (·.behind [first.condition] first.dirty)
    else some (carry.finish head tail)

theorem run?_append_terminal (carry : Carry) (links : List Condition) {terminal : Condition}
    (hterminal : terminal.role.isModifier = false) (place : ℕ) :
    carry.run? (place + links.length) place (links ++ [terminal]) =
      some (((carry.links links).carry.finish terminal []).behind (carry.links links).conditions
        (carry.links links).dirty) := by
  induction links generalizing carry place with
  | nil => simp [run?, links, hterminal, SliceOutcome.behind]
  | cons head tail ih =>
      have hlast : place + (head :: tail).length = place + 1 + tail.length := by
        rw [List.length_cons]
        omega
      rw [List.cons_append, run?, if_pos (by simp), hlast]
      simp only [ih, Option.map_some, links, SliceOutcome.behind, List.nil_append, List.cons_append,
        Bool.or_assoc]

end Carry

namespace Chain

variable {chain : Chain}

theorem IsProper.kind_eq_pause_iff (hproper : chain.IsProper) :
    chain.kind = .pause ↔ chain.terminal.role = .guard .pauseIf := by
  have hends := hproper.terminal
  constructor
  · intro hkind
    rw [hkind] at hends
    exact ChainKind.endsWith_of_ofRole? hends
  · intro hrole
    rw [hrole] at hends
    exact (Option.some_inj.mp hends).symm

/-- The run over a chain ends with its terminal, and gives what evaluating the chain does. -/
theorem IsProper.run?_conditions (hproper : chain.IsProper) :
    ({} : Carry).run? (chain.conditions.length - 1) 0 chain.conditions =
      some chain.evaluate.slice := by
  have hlast : chain.conditions.length - 1 = 0 + chain.links.length := by
    rw [length_conditions, Nat.add_sub_cancel, Nat.zero_add]
  have hpause : (chain.kind == .pause) = (chain.terminal.role == .guard .pauseIf) := by
    rw [Bool.eq_iff_iff, beq_iff_eq, beq_iff_eq, hproper.kind_eq_pause_iff]
  rw [hlast, conditions, Carry.run?_append_terminal {} chain.links hproper.isModifier_terminal]
  simp only [SliceOutcome.behind, Carry.finish, ChainOutcome.slice, evaluate, hpause, conditions,
    Bool.or_assoc]

theorem IsProper.evaluate (hproper : chain.IsProper) : chain.evaluate.chain.IsProper := by
  have hsame : [chain.evaluate.chain].map (Chain.map Condition.clearHits) =
      [chain].map (Chain.map Condition.clearHits) := by
    rw [List.map_singleton, List.map_singleton, clearHits_evaluate]
  exact isProper_of_map_eq Condition.role_clearHits (List.forall_mem_singleton.mpr hproper) hsame _
    (List.mem_singleton_self _)

theorem length_conditions_evaluate (chain : Chain) :
    chain.evaluate.chain.conditions.length = chain.conditions.length := by
  have hsame := congrArg (List.length ∘ conditions) chain.clearHits_evaluate
  simpa [conditions_map] using hsame

end Chain

/-- Evaluates the conditions of a range in their places. -/
def Span.evaluate? (span : Span) (conditions : List Condition) :
    Option (SliceOutcome × List Condition) :=
  if span.first ≤ span.stop ∧ span.stop ≤ conditions.length then
    let slice := (conditions.drop span.first).take (span.stop - span.first)
    (({} : Carry).run? (slice.length - 1) 0 slice).map fun outcome =>
      (outcome, conditions.take span.first ++ (outcome.conditions ++ conditions.drop span.stop))
  else none

/-- Evaluating the range of a chain in place is evaluating the chain and putting its conditions
back. -/
theorem Chain.IsProper.evaluate?_span {chain : Chain} (hproper : chain.IsProper)
    (before after : List Condition) :
    Span.evaluate? ⟨before.length, before.length + chain.conditions.length, chain.kind⟩
        (before ++ (chain.conditions ++ after)) =
      some (chain.evaluate.slice, before ++ (chain.evaluate.chain.conditions ++ after)) := by
  have hslice : ((before ++ (chain.conditions ++ after)).drop before.length).take
      (before.length + chain.conditions.length - before.length) = chain.conditions := by
    rw [List.drop_left, Nat.add_sub_cancel_left, List.take_left]
  have hrest : (before ++ (chain.conditions ++ after)).drop
      (before.length + chain.conditions.length) = after := by
    rw [← List.append_assoc, ← List.length_append, List.drop_left]
  rw [Span.evaluate?, if_pos ⟨Nat.le_add_right _ _, by simp⟩]
  simp only [hslice, hrest, hproper.run?_conditions, List.take_left, Option.map_some]
  rfl

/-! ## The chains of one kind -/

/-- What is noted while the chains of a group are evaluated. -/
structure Notes where
  result : Bool := true
  primed : Bool := true
  hasLogic : Bool := false
  hasTrigger : Bool := false
  measuredFails : Bool := false
  paused : Bool := false
  resetRequested : Bool := false
  dirty : Bool := false
  measured? : Option Measured := none

namespace Notes

def noteReset (notes : Notes) (outcome : SliceOutcome) : Notes :=
  { notes with
    dirty := notes.dirty || outcome.dirty
    resetRequested := notes.resetRequested || outcome.satisfied }

/-- What the role of its terminal makes of a logic chain. -/
def noteLogic (notes : Notes) (role : Role) (outcome : SliceOutcome) : Notes :=
  let noted : Notes := { notes with
    dirty := notes.dirty || outcome.dirty
    hasLogic := true
    result := notes.result && outcome.satisfied
    measured? := outcome.measured?.or notes.measured? }
  match role with
  | .check .trigger => { noted with hasTrigger := true }
  | .check .measuredIf =>
    { noted with
      primed := notes.primed && outcome.satisfied
      measuredFails := notes.measuredFails || !outcome.satisfied }
  | _ => { noted with primed := notes.primed && outcome.satisfied }

end Notes

def Notes.afterReset (notes : Notes) (chain : Chain) : Notes := notes.noteReset chain.evaluate.slice

def Notes.afterLogic (notes : Notes) (chain : Chain) : Notes :=
  notes.noteLogic chain.terminal.role chain.evaluate.slice

/-- Evaluates ranges one after the other and notes each outcome. -/
def sweep? (note? : Notes → Span → SliceOutcome → List Condition → Option Notes) (notes : Notes)
    (conditions : List Condition) : List Span → Option (Notes × List Condition)
  | [] => some (notes, conditions)
  | span :: later => do
    let (outcome, after) ← span.evaluate? conditions
    let noted ← note? notes span outcome after
    sweep? note? noted after later

/-- Evaluates ranges up to the first satisfied one. -/
def sweepPauses? (notes : Notes) (conditions : List Condition) :
    List Span → Option (Notes × List Condition)
  | [] => some (notes, conditions)
  | span :: later => do
    let (outcome, after) ← span.evaluate? conditions
    let noted := { notes with dirty := notes.dirty || outcome.dirty }
    if outcome.satisfied then some ({ noted with paused := true }, after)
    else sweepPauses? noted after later

def noteReset? (notes : Notes) (_ : Span) (outcome : SliceOutcome) (_ : List Condition) :
    Option Notes := some (notes.noteReset outcome)

/-- Looks for the role of the terminal at the last place of the range. -/
def noteLogic? (notes : Notes) (span : Span) (outcome : SliceOutcome) (after : List Condition) :
    Option Notes :=
  if span.stop = 0 then none
  else after[span.stop - 1]?.map fun terminal => notes.noteLogic terminal.role outcome

/-- What the notes say of a group that is not paused. -/
def Notes.outcome (notes : Notes) (conditions : List Condition) : GroupOutcome :=
  { group := ⟨conditions⟩
    result := notes.result && !notes.resetRequested
    primed := notes.primed && !notes.resetRequested
    hasLogic := notes.hasLogic
    hasTrigger := notes.hasTrigger
    resetRequested := notes.resetRequested
    dirty := notes.dirty
    measured? := if notes.measuredFails then notes.measured?.map ({ · with value := 0 })
      else notes.measured? }

/-- Evaluates a group by ranges. -/
def Group.evaluateBy? (group : Group) (spans : List Span) : Option GroupOutcome := do
  let ofKind (kind : ChainKind) := spans.filter (·.kind == kind)
  let (notes, conditions) ← sweepPauses? {} group.conditions (ofKind .pause)
  if notes.paused then
    some
      { group := ⟨conditions⟩
        paused := true
        hasLogic := spans.any (·.kind == .logic)
        dirty := notes.dirty }
  else
    let (notes, conditions) ← sweep? noteReset? notes conditions (ofKind .reset)
    let (notes, conditions) ← sweep? noteLogic? notes conditions (ofKind .logic)
    some (notes.outcome conditions)

namespace Chain

/-- The chain after the chains of a kind were evaluated. -/
def evaluatedIf (kind : ChainKind) (chain : Chain) : Chain :=
  if chain.kind = kind then chain.evaluate.chain else chain

theorem kind_evaluatedIf (kind : ChainKind) (chain : Chain) :
    (chain.evaluatedIf kind).kind = chain.kind := by
  unfold evaluatedIf
  split <;> rfl

theorem length_conditions_evaluatedIf (kind : ChainKind) (chain : Chain) :
    (chain.evaluatedIf kind).conditions.length = chain.conditions.length := by
  unfold evaluatedIf
  split
  · exact chain.length_conditions_evaluate
  · rfl

theorem IsProper.evaluatedIf {chain : Chain} (hproper : chain.IsProper) (kind : ChainKind) :
    (chain.evaluatedIf kind).IsProper := by
  unfold Chain.evaluatedIf
  split
  · exact hproper.evaluate
  · exact hproper

variable {kind other : ChainKind} (chains : List Chain)

theorem spansFrom_map_evaluatedIf (first : ℕ) :
    spansFrom first (chains.map (evaluatedIf kind)) = spansFrom first chains := by
  induction chains generalizing first with
  | nil => rfl
  | cons head tail ih =>
      simp only [List.map_cons, spansFrom, length_conditions_evaluatedIf, kind_evaluatedIf, ih]

theorem any_kind_spansFrom (first : ℕ) (holds : ChainKind → Bool) :
    (spansFrom first chains).any (holds ·.kind) = chains.any (holds ·.kind) := by
  induction chains generalizing first with
  | nil => rfl
  | cons head tail ih => rw [spansFrom, List.any_cons, List.any_cons, ih]

/-- Evaluating the chains of one kind leaves those of another kind alone. -/
theorem filter_map_evaluatedIf (hother : other ≠ kind) :
    (chains.map (evaluatedIf kind)).filter (·.kind == other) =
      chains.filter (·.kind == other) := by
  rw [List.filter_map]
  simp only [Function.comp_def, kind_evaluatedIf]
  refine (List.map_congr_left fun chain hchain => ?_).trans (List.map_id _)
  have hkind : chain.kind = other := beq_iff_eq.mp (List.mem_filter.mp hchain).2
  exact if_neg (hkind ▸ hother)

/-- Every chain is of one of the three kinds. -/
theorem map_evaluatedIf_all :
    ((chains.map (evaluatedIf .pause)).map (evaluatedIf .reset)).map (evaluatedIf .logic) =
      chains.map (·.evaluate.chain) := by
  rw [List.map_map, List.map_map]
  refine List.map_congr_left fun chain _ => ?_
  cases hkind : chain.kind <;> simp [evaluatedIf, hkind]

theorem any_eq_any_kinds (holds : Chain → Bool) :
    chains.any holds = ((chains.filter (·.kind == .pause)).any holds ||
      (chains.filter (·.kind == .reset)).any holds ||
      (chains.filter (·.kind == .logic)).any holds) := by
  induction chains with
  | nil => rfl
  | cons head tail ih =>
      rw [List.any_cons, ih]
      cases hkind : head.kind <;> simp [hkind, Bool.or_assoc, Bool.or_left_comm]

end Chain

/-- A sweep over the ranges of chains evaluates those of its kind, and notes them in order. -/
theorem sweep?_spansFrom (kind : ChainKind)
    {note? : Notes → Span → SliceOutcome → List Condition → Option Notes}
    {note : Notes → Chain → Notes}
    (hnote : ∀ (notes : Notes) (before : List Condition) (chain : Chain) (after : List Condition),
      note? notes ⟨before.length, before.length + chain.conditions.length, chain.kind⟩
        chain.evaluate.slice (before ++ (chain.evaluate.chain.conditions ++ after)) =
        some (note notes chain))
    {chains : List Chain} (hproper : ∀ chain ∈ chains, chain.IsProper) (notes : Notes)
    (before loose : List Condition) :
    sweep? note? notes (before ++ Chain.join chains loose)
        ((Chain.spansFrom before.length chains).filter (·.kind == kind)) =
      some ((chains.filter (·.kind == kind)).foldl note notes,
        before ++ Chain.join (chains.map (Chain.evaluatedIf kind)) loose) := by
  -- What stands before the chains was evaluated or not; the ranges only see how many conditions
  -- there are, and evaluation keeps their number.
  induction chains generalizing notes before with
  | nil => rfl
  | cons head tail ih =>
      obtain ⟨hhead, htail⟩ := List.forall_mem_cons.mp hproper
      rw [Chain.spansFrom, Chain.join_cons, List.map_cons, Chain.join_cons]
      by_cases hkind : head.kind = kind
      · rw [List.filter_cons_of_pos (by simpa using hkind),
          List.filter_cons_of_pos (by simpa using hkind), List.foldl_cons, sweep?,
          hhead.evaluate?_span, Chain.evaluatedIf, if_pos hkind]
        simp only [Option.bind_eq_bind, Option.bind_some, hnote notes before head]
        rw [← head.length_conditions_evaluate, ← List.length_append, ← List.append_assoc, ih htail,
          List.append_assoc]
      · rw [List.filter_cons_of_neg (by simpa using hkind),
          List.filter_cons_of_neg (by simpa using hkind), Chain.evaluatedIf, if_neg hkind,
          ← List.length_append, ← List.append_assoc, ih htail, List.append_assoc]

/-- The sweep over the pauses is the pass over the pauses of the chains. -/
theorem sweepPauses?_spansFrom {chains : List Chain} (hproper : ∀ chain ∈ chains, chain.IsProper)
    (notes : Notes) (before loose : List Condition) :
    sweepPauses? notes (before ++ Chain.join chains loose)
        ((Chain.spansFrom before.length chains).filter (·.kind == .pause)) =
      some ({ notes with
          paused := notes.paused || (Group.pausePass chains).2
          dirty := notes.dirty || (Group.pausePass chains).1.any (·.dirty) },
        before ++ Chain.join ((Group.pausePass chains).1.map (·.chain)) loose) := by
  induction chains generalizing notes before with
  | nil => simp [Chain.spansFrom, sweepPauses?, Group.pausePass]
  | cons head tail ih =>
      obtain ⟨hhead, htail⟩ := List.forall_mem_cons.mp hproper
      rw [Chain.spansFrom, Chain.join_cons, Group.pausePass_cons, List.map_cons, Chain.join_cons]
      by_cases hkind : head.kind = .pause
      · have hpauses : head.pausesGroup = head.evaluate.satisfied := by
          simp [Chain.pausesGroup, hkind]
        rw [List.filter_cons_of_pos (by simpa using hkind), sweepPauses?, hhead.evaluate?_span,
          hpauses, if_pos hkind]
        simp only [Option.bind_eq_bind, Option.bind_some]
        have hslice : head.evaluate.slice.satisfied = head.evaluate.satisfied := rfl
        have hdirty : head.evaluate.slice.dirty = head.evaluate.dirty := rfl
        have hidle : (tail.map Chain.idle).any (·.dirty) = false := by simp [Chain.idle]
        have htailIdle : (tail.map Chain.idle).map (·.chain) = tail := by
          simp [Function.comp_def, Chain.idle]
        cases hsatisfied : head.evaluate.satisfied with
        | true =>
            simp only [hslice, hsatisfied, hdirty, if_true, List.any_cons, hidle, htailIdle,
              Bool.or_false, Bool.true_or, Bool.or_true]
        | false =>
            simp only [hslice, hsatisfied, hdirty, Bool.false_eq_true, if_false, List.any_cons,
              Bool.false_or, ← Bool.or_assoc]
            rw [← head.length_conditions_evaluate, ← List.length_append, ← List.append_assoc,
              ih htail, List.append_assoc]
      · have hpauses : head.pausesGroup = false := by simp [Chain.pausesGroup, hkind]
        have hidle : head.idle.dirty = false := rfl
        rw [List.filter_cons_of_neg (by simpa using hkind), if_neg hkind, hpauses,
          ← List.length_append, ← List.append_assoc, ih htail]
        simp only [Bool.false_or, Bool.false_eq_true, if_false, List.any_cons, hidle,
          List.append_assoc]
        rfl

namespace Notes

theorem foldl_afterReset (notes : Notes) (chains : List Chain) :
    chains.foldl afterReset notes =
      { notes with
        dirty := notes.dirty || chains.any (·.evaluate.dirty)
        resetRequested := notes.resetRequested || chains.any (·.evaluate.satisfied) } := by
  induction chains generalizing notes with
  | nil => simp
  | cons head tail ih =>
      rw [List.foldl_cons, ih, List.any_cons, List.any_cons, ← Bool.or_assoc, ← Bool.or_assoc]
      rfl

/-- What logic chains come to: a trigger does not count for being primed, and a condition on measured
progress that fails is noted besides. -/
theorem foldl_afterLogic (notes : Notes) (chains : List Chain) :
    chains.foldl afterLogic notes =
      let triggers (chain : Chain) : Bool := chain.terminal.role == .check .trigger
      { notes with
        result := notes.result && chains.all (·.evaluate.satisfied)
        primed := notes.primed && chains.all fun chain =>
          triggers chain || chain.evaluate.satisfied
        hasLogic := notes.hasLogic || !chains.isEmpty
        hasTrigger := notes.hasTrigger || chains.any triggers
        measuredFails := notes.measuredFails || chains.any fun chain =>
          chain.terminal.role == .check .measuredIf && !chain.evaluate.satisfied
        dirty := notes.dirty || chains.any (·.evaluate.dirty)
        measured? := chains.foldl (fun found chain => chain.evaluate.measured?.or found)
          notes.measured? } := by
  induction chains generalizing notes with
  | nil => simp
  | cons head tail ih =>
      rw [List.foldl_cons, ih]
      have hslice : head.evaluate.slice = ⟨head.evaluate.chain.conditions, head.evaluate.satisfied,
        head.evaluate.measured?, head.evaluate.dirty⟩ := rfl
      unfold afterLogic noteLogic
      split
      case h_1 hrole =>
        have htriggers : (head.terminal.role == .check .trigger) = true := by rw [hrole]; rfl
        have hfails : (head.terminal.role == .check .measuredIf) = false := by rw [hrole]; rfl
        simp [htriggers, hfails, hslice, Bool.and_assoc, Bool.or_assoc]
      case h_2 hrole =>
        have htriggers : (head.terminal.role == .check .trigger) = false := by rw [hrole]; rfl
        have hfails : (head.terminal.role == .check .measuredIf) = true := by rw [hrole]; rfl
        simp [htriggers, hfails, hslice, Bool.and_assoc, Bool.or_assoc]
      case h_3 htrigger hmeasured =>
        have htriggers : (head.terminal.role == .check .trigger) = false := by simpa using htrigger
        have hfails : (head.terminal.role == .check .measuredIf) = false := by simpa using hmeasured
        simp [htriggers, hfails, hslice, Bool.and_assoc, Bool.or_assoc]

/-- What is noted of chains none of which pauses their group. -/
theorem foldl_chains (chains : List Chain) :
    let logic := chains.filter (·.kind == .logic)
    let triggers (chain : Chain) : Bool := chain.terminal.role == .check .trigger
    let fails (chain : Chain) : Bool :=
      chain.terminal.role == .check .measuredIf && !chain.evaluate.satisfied
    logic.foldl afterLogic ((chains.filter (·.kind == .reset)).foldl afterReset
        { dirty := (chains.filter (·.kind == .pause)).any (·.evaluate.dirty) }) =
      { result := logic.all (·.evaluate.satisfied)
        primed := logic.all fun chain => triggers chain || chain.evaluate.satisfied
        hasLogic := !logic.isEmpty
        hasTrigger := logic.any triggers
        measuredFails := logic.any fails
        resetRequested := chains.any fun chain => chain.kind == .reset && chain.evaluate.satisfied
        dirty := chains.any (·.evaluate.dirty)
        measured? := logic.foldl (fun found chain => chain.evaluate.measured?.or found) none } := by
  intro logic triggers fails
  have hresets : (chains.filter (·.kind == .reset)).any (·.evaluate.satisfied) =
      chains.any fun chain => chain.kind == .reset && chain.evaluate.satisfied := List.any_filter
  rw [foldl_afterReset, foldl_afterLogic, Chain.any_eq_any_kinds chains (·.evaluate.dirty), hresets]
  simp only [Bool.true_and, Bool.false_or]
  rfl

end Notes

theorem noteReset?_span (notes : Notes) (before : List Condition) (chain : Chain)
    (after : List Condition) :
    noteReset? notes ⟨before.length, before.length + chain.conditions.length, chain.kind⟩
        chain.evaluate.slice (before ++ (chain.evaluate.chain.conditions ++ after)) =
      some (notes.afterReset chain) := rfl

/-- The terminal of a chain that was evaluated stands at the last place of its range. -/
theorem noteLogic?_span (notes : Notes) (before : List Condition) (chain : Chain)
    (after : List Condition) :
    noteLogic? notes ⟨before.length, before.length + chain.conditions.length, chain.kind⟩
        chain.evaluate.slice (before ++ (chain.evaluate.chain.conditions ++ after)) =
      some (notes.afterLogic chain) := by
  have hlength := chain.length_conditions_evaluate
  rw [Chain.length_conditions] at hlength
  have hplace : before.length + chain.conditions.length - 1 =
      before.length + chain.evaluate.chain.links.length := by omega
  have hterminal : (before ++ (chain.evaluate.chain.conditions ++ after))[before.length +
      chain.evaluate.chain.links.length]? = some chain.evaluate.chain.terminal := by
    rw [Chain.conditions, List.append_assoc, List.singleton_append, ← List.append_assoc,
      ← List.length_append, List.getElem?_append_right (Nat.le_refl _), Nat.sub_self,
      List.getElem?_cons_zero]
  rw [noteLogic?, if_neg (by simp only; omega)]
  simp only [hplace, hterminal, Option.map_some, chain.role_terminal_evaluate]
  rfl

namespace Group

/-- Without a satisfied pause the pass over the pauses evaluates all of them. -/
theorem pausePass_of_running {chains : List Chain}
    (hrunning : chains.any Chain.pausesGroup = false) :
    (pausePass chains).1.map (·.chain) = chains.map (Chain.evaluatedIf .pause) ∧
      (pausePass chains).1.any (·.dirty) =
        (chains.filter (·.kind == .pause)).any (·.evaluate.dirty) := by
  induction chains with
  | nil => exact ⟨rfl, rfl⟩
  | cons head tail ih =>
      obtain ⟨hhead, htail⟩ := Bool.or_eq_false_iff.mp (List.any_cons ▸ hrunning)
      obtain ⟨hchains, hdirty⟩ := ih htail
      rw [pausePass_cons, hhead]
      by_cases hkind : head.kind = .pause
      · simp [hkind, hchains, hdirty, Chain.evaluatedIf]
      · simp [hkind, hchains, hdirty, Chain.evaluatedIf, Chain.idle]

variable (group : Group)

theorem sweepPauses?_chains :
    sweepPauses? {} group.conditions
        ((Chain.spansFrom 0 group.chains).filter (·.kind == .pause)) =
      some ({ paused := group.chains.any Chain.pausesGroup
              dirty := (pausePass group.chains).1.any (·.dirty) },
        Chain.join ((pausePass group.chains).1.map (·.chain)) group.loose) := by
  have hsweep := sweepPauses?_spansFrom group.isProper_chains {} [] group.loose
  rw [snd_pausePass, List.length_nil, List.nil_append, join_chains] at hsweep
  rw [hsweep]
  simp

/-- The resets are evaluated after the pauses. -/
theorem sweep?_resets (notes : Notes) :
    sweep? noteReset? notes
        (Chain.join (group.chains.map (Chain.evaluatedIf .pause)) group.loose)
        ((Chain.spansFrom 0 group.chains).filter (·.kind == .reset)) =
      some ((group.chains.filter (·.kind == .reset)).foldl Notes.afterReset notes,
        Chain.join ((group.chains.map (Chain.evaluatedIf .pause)).map (Chain.evaluatedIf .reset))
          group.loose) := by
  have hproper : ∀ chain ∈ group.chains.map (Chain.evaluatedIf .pause), chain.IsProper :=
    List.forall_mem_map.mpr fun chain hchain =>
      (group.isProper_chains chain hchain).evaluatedIf .pause
  have hsweep := sweep?_spansFrom .reset noteReset?_span hproper notes [] group.loose
  rwa [Chain.spansFrom_map_evaluatedIf, Chain.filter_map_evaluatedIf _ (by decide)] at hsweep

/-- The logic chains are evaluated after the others, so that every chain has been evaluated then. -/
theorem sweep?_logic (notes : Notes) :
    sweep? noteLogic? notes
        (Chain.join ((group.chains.map (Chain.evaluatedIf .pause)).map (Chain.evaluatedIf .reset))
          group.loose)
        ((Chain.spansFrom 0 group.chains).filter (·.kind == .logic)) =
      some ((group.chains.filter (·.kind == .logic)).foldl Notes.afterLogic notes,
        Chain.join (group.chains.map (·.evaluate.chain)) group.loose) := by
  have hproper : ∀ chain ∈ (group.chains.map (Chain.evaluatedIf .pause)).map
      (Chain.evaluatedIf .reset), chain.IsProper := by
    rw [List.map_map]
    exact List.forall_mem_map.mpr fun chain hchain =>
      ((group.isProper_chains chain hchain).evaluatedIf .pause).evaluatedIf .reset
  have hsweep := sweep?_spansFrom .logic noteLogic?_span hproper notes [] group.loose
  rwa [Chain.spansFrom_map_evaluatedIf, Chain.spansFrom_map_evaluatedIf,
    Chain.filter_map_evaluatedIf _ (by decide), Chain.filter_map_evaluatedIf _ (by decide),
    Chain.map_evaluatedIf_all] at hsweep

/-- By the ranges of its chains a group is evaluated as by its chains. -/
theorem evaluateBy?_spansFrom :
    group.evaluateBy? (Chain.spansFrom 0 group.chains) = some group.evaluate := by
  rw [evaluateBy?]
  simp only [sweepPauses?_chains, Option.bind_eq_bind, Option.bind_some]
  cases hpaused : group.chains.any Chain.pausesGroup with
  | true =>
      rw [evaluate_of_paused hpaused, if_pos rfl,
        Chain.any_kind_spansFrom group.chains 0 (· == .logic)]
  | false =>
      obtain ⟨hchains, hdirty⟩ := pausePass_of_running hpaused
      rw [evaluate_of_not_paused hpaused, if_neg Bool.false_ne_true, hchains, hdirty]
      have hlogic : (group.chains.map Chain.evaluate).filter (·.chain.kind == .logic) =
          (group.chains.filter (·.kind == .logic)).map Chain.evaluate := by
        rw [List.filter_map]
        rfl
      simp only [sweep?_resets, sweep?_logic, Option.bind_some, Notes.foldl_chains, hlogic]
      simp only [Notes.outcome, measuredOf, List.all_map, List.any_map, List.map_map,
        List.isEmpty_map, List.foldl_map, Function.comp_def, Chain.kind_evaluate,
        Chain.role_terminal_evaluate]

/-! ## What is kept -/

theorem map_role_evaluate : group.evaluate.group.conditions.map (·.role) =
    group.conditions.map (·.role) := by
  have hsame := congrArg (fun group => group.conditions.map (·.role)) group.clearHits_evaluate
  simpa [clearHits, Function.comp_def, Condition.role_clearHits] using hsame

theorem map_role_modify (index : ℕ) {change : Condition → Condition}
    (hrole : ∀ condition, (change condition).role = condition.role) :
    (group.modify index change).conditions.map (·.role) = group.conditions.map (·.role) := by
  apply List.ext_getElem?
  intro place
  rw [modify, List.getElem?_map, List.getElem?_map, List.getElem?_modify, Option.map_eq_map,
    Option.map_map]
  congr 1
  funext condition
  rw [Function.comp_apply]
  split
  · exact hrole condition
  · rfl

end Group

/-- The ranges that are found when a group is made are a partition of its conditions up to the last
terminal.  Evaluating them in their places never fails and gives what evaluating the chains gives,
as long as the conditions keep their roles: they do on every frame, and if a condition changes
otherwise. -/
theorem Span.classify_partition (given : List Condition) :
    IsPartition given (classify given) ∧
    (classify given = [] ↔ ∀ condition ∈ given, condition.role.isTerminal = false) ∧
    classify given = Chain.spansFrom 0 (Chain.split given).1 ∧
    ∀ group : Group, group.conditions.map (·.role) = given.map (·.role) →
      group.evaluateBy? (classify given) = some group.evaluate ∧
      group.evaluate.group.conditions.map (·.role) = given.map (·.role) ∧
      (∀ frame, (group.advance frame).conditions.map (·.role) = given.map (·.role)) ∧
      ∀ index change, (∀ condition : Condition, (change condition).role = condition.role) →
        (group.modify index change).conditions.map (·.role) = given.map (·.role) := by
  refine ⟨isPartition_classify given, classify_eq_nil_iff given,
    Chain.classify_eq_spansFrom given, fun group hroles => ⟨?_, ?_, fun frame => ?_, ?_⟩⟩
  · rw [← classify_congr hroles, Chain.classify_eq_spansFrom]
    exact group.evaluateBy?_spansFrom
  · rw [group.map_role_evaluate, hroles]
  · rw [Group.advance, Group.map_role_advanceFrom, hroles]
  · intro index change hkept
    rw [group.map_role_modify index hkept, hroles]

/-- A chain of each kind, and a condition after the last one. -/
def threeKinds : List Condition :=
  [Trigger.onByte (.modifier .addSource) 0 0 0, Trigger.onByte (.check .measured) 1 14 0,
    Trigger.onByte (.guard .pauseIf) 1 6 0, Trigger.onByte (.tally .addHits) 2 7 0,
    Trigger.onByte (.guard .resetIf) 3 7 9, Trigger.onByte (.combiner .andNext) 3 7 0]

theorem Span.classify_partition_threeKinds :
    let group : Group := ⟨threeKinds⟩
    let used := (group.advance Trigger.sevens).modify 3 (·.withHits 8)
    classify threeKinds = [⟨0, 2, .logic⟩, ⟨2, 3, .pause⟩, ⟨3, 5, .reset⟩] ∧
      group.conditions.map (·.role) = threeKinds.map (·.role) ∧
      (∀ condition : Condition, (condition.withHits 8).role = condition.role) ∧
      used.evaluateBy? (classify threeKinds) = some used.evaluate ∧
      used.evaluate.result = false ∧ used.evaluate.resetRequested = true := by
  intro group used
  have hsame : group.conditions.map (·.role) = threeKinds.map (·.role) := rfl
  have hkept (condition : Condition) : (condition.withHits 8).role = condition.role := rfl
  obtain ⟨-, -, -, hgroup⟩ := classify_partition threeKinds
  obtain ⟨-, -, hadvance, -⟩ := hgroup group hsame
  obtain ⟨-, -, -, hmodify⟩ := hgroup _ (hadvance Trigger.sevens)
  obtain ⟨hused, -⟩ := hgroup used (hmodify 3 _ hkept)
  exact ⟨by decide, hsame, hkept, hused, rfl, rfl⟩

end AchievementLogic
