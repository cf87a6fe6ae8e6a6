import AchievementLogic.Trigger.Basic

/-!
# What conditions remember

A condition remembers its hits and what its operands read.  Two views leave parts of that out.  A
*fresh* condition remembers nothing: it is what the text of a definition gives.  A *visible*
condition keeps the last different reading of an operand only where the operand shows it; the other
readings and the hits stay.  Moving to a new frame changes readings alone, and what it leaves
visible depends on what was visible before.
-/

namespace AchievementLogic

/-! ## Fresh conditions -/

def Operand.fresh : Operand → Operand
  | .memory inner => .memory { inner with history := {} }
  | constant => constant

@[simp]
theorem Operand.fresh_advance (operand : Operand) (frame : Frame) (offset : UInt32) :
    (operand.advance frame offset).fresh = operand.fresh := by
  cases operand <;> rfl

@[simp]
theorem Operand.fresh_restoreReadings (operand : Operand) (current previous : UInt32) :
    (operand.restoreReadings current previous).fresh = operand.fresh := by
  cases operand <;> rfl

/-- The condition before any frame: without hits and without readings. -/
def Condition.fresh (condition : Condition) : Condition :=
  { condition with source := condition.source.fresh, target := condition.target.fresh, hits := 0 }

@[simp]
theorem Condition.fresh_clearHits (condition : Condition) :
    condition.clearHits.fresh = condition.fresh := rfl

@[simp]
theorem Condition.fresh_advance (condition : Condition) (frame : Frame) (offset : UInt32) :
    (condition.advance frame offset).fresh = condition.fresh := by
  simp [Condition.fresh, Condition.advance]

/-- Hits that do not count for a fresh condition do not count for a condition without hits. -/
theorem Condition.fresh_eq_of_clearHits_eq {left right : Condition}
    (heq : left.clearHits = right.clearHits) : left.fresh = right.fresh := by
  rw [← fresh_clearHits left, heq, fresh_clearHits]

def Group.fresh (group : Group) : Group := ⟨group.conditions.map Condition.fresh⟩

theorem Group.size_fresh (group : Group) : group.fresh.size = group.size := by
  simp [Group.fresh, Group.size]

@[simp]
theorem Group.isEmpty_fresh (group : Group) : group.fresh.isEmpty = group.isEmpty := by
  simp [Group.fresh, Group.isEmpty]

@[simp]
theorem Group.fresh_clearHits (group : Group) : group.clearHits.fresh = group.fresh := by
  simp [Group.fresh, Group.clearHits]

theorem Group.fresh_eq_of_clearHits_eq {left right : Group}
    (heq : left.clearHits = right.clearHits) : left.fresh = right.fresh := by
  rw [← fresh_clearHits left, heq, fresh_clearHits]

theorem Group.map_fresh_advanceFrom (frame : Frame) (offset : UInt32)
    (conditions : List Condition) :
    (Group.advanceFrom frame offset conditions).map Condition.fresh =
      conditions.map Condition.fresh := by
  induction conditions generalizing offset with
  | nil => rfl
  | cons head tail ih => simp [Group.advanceFrom, ih]

@[simp]
theorem Group.fresh_advance (group : Group) (frame : Frame) :
    (group.advance frame).fresh = group.fresh := by
  simp [Group.fresh, Group.advance, Group.map_fresh_advanceFrom]

def Trigger.fresh (trigger : Trigger) : Trigger :=
  { core := trigger.core.fresh, alternates := trigger.alternates.map Group.fresh }

theorem Trigger.fresh_eq_iff {left right : Trigger} :
    left.fresh = right.fresh ↔
      left.groups.map Group.fresh = right.groups.map Group.fresh := by
  simp [fresh, groups]

theorem Trigger.fresh_mapGroups {trigger : Trigger} {change : Group → Group}
    (hchange : ∀ group, (change group).fresh = group.fresh) :
    (trigger.mapGroups change).fresh = trigger.fresh := by
  simp [Trigger.fresh, Trigger.mapGroups, hchange]

@[simp]
theorem Trigger.fresh_advance (trigger : Trigger) (frame : Frame) :
    (trigger.advance frame).fresh = trigger.fresh :=
  fresh_mapGroups fun group => group.fresh_advance frame

@[simp]
theorem Trigger.fresh_reset (trigger : Trigger) : trigger.reset.fresh = trigger.fresh :=
  fresh_mapGroups Group.fresh_clearHits

/-! ## Hits -/

def Trigger.hits (trigger : Trigger) : List (List UInt32) :=
  trigger.groups.map fun group => group.conditions.map (·.hits)

def Trigger.IsCleared (trigger : Trigger) : Prop :=
  ∀ group ∈ trigger.groups, ∀ condition ∈ group.conditions, condition.hits = 0

theorem Trigger.groups_reset (trigger : Trigger) :
    trigger.reset.groups = trigger.groups.map Group.clearHits := rfl

theorem Trigger.isCleared_fresh (trigger : Trigger) : trigger.fresh.IsCleared := by
  have hcleared (group : Group) : ∀ condition ∈ group.fresh.conditions, condition.hits = 0 :=
    List.forall_mem_map.mpr fun _ _ => rfl
  have hgroups : trigger.fresh.groups = trigger.groups.map Group.fresh := rfl
  rw [IsCleared, hgroups]
  exact List.forall_mem_map.mpr fun group _ => hcleared group

theorem Trigger.isCleared_reset (trigger : Trigger) : trigger.reset.IsCleared := by
  have hcleared (group : Group) : ∀ condition ∈ group.clearHits.conditions, condition.hits = 0 :=
    List.forall_mem_map.mpr fun _ _ => rfl
  rw [IsCleared, groups_reset]
  exact List.forall_mem_map.mpr fun group _ => hcleared group

/-! ## Operands -/

def Condition.operands (condition : Condition) : List Operand :=
  [condition.source, condition.target]

def Trigger.operands (trigger : Trigger) : List Operand :=
  trigger.groups.flatMap fun group => group.conditions.flatMap Condition.operands

theorem Trigger.operands_reset (trigger : Trigger) : trigger.reset.operands = trigger.operands := by
  have hcleared (group : Group) :
      group.clearHits.conditions.flatMap Condition.operands =
        group.conditions.flatMap Condition.operands := by
    rw [Group.clearHits, List.flatMap_map]
    rfl
  simp only [operands, groups_reset, List.flatMap_map, hcleared]

theorem Trigger.operands_fresh (trigger : Trigger) :
    trigger.fresh.operands = trigger.operands.map Operand.fresh := by
  simp [operands, groups, fresh, Group.fresh, Condition.operands, Condition.fresh,
    List.flatMap_map, List.map_flatMap]

/-- What holds of fresh operands as it holds of the operands themselves carries over between
triggers that differ only in what they remember. -/
theorem Trigger.forall_operands_of_fresh {holds : Operand → Prop}
    (hfresh : ∀ operand, holds operand.fresh ↔ holds operand) {left right : Trigger}
    (hsame : left.fresh = right.fresh) (hleft : ∀ operand ∈ left.operands, holds operand) :
    ∀ operand ∈ right.operands, holds operand := by
  intro operand hmem
  have hmap : operand.fresh ∈ left.operands.map Operand.fresh := by
    rw [← operands_fresh, hsame, operands_fresh]
    exact List.mem_map_of_mem hmem
  obtain ⟨other, hother, heq⟩ := List.mem_map.mp hmap
  rw [← hfresh operand, ← heq, hfresh other]
  exact hleft other hother

/-! ## Visible readings -/

def Operand.showsPrior : Operand → Bool
  | .memory inner => inner.access == .prior
  | _ => false

theorem Operand.showsPrior_fresh (operand : Operand) :
    operand.fresh.showsPrior = operand.showsPrior := by
  cases operand <;> rfl

/-- The operand without its last different reading, unless that is what it shows. -/
def MemoryOperand.visible (operand : MemoryOperand) : MemoryOperand :=
  if operand.access = .prior then operand
  else { operand with history := { operand.history with prior := 0 } }

def Operand.visible : Operand → Operand
  | .memory inner => .memory inner.visible
  | constant => constant

@[simp]
theorem MemoryOperand.value_visible (operand : MemoryOperand) :
    operand.visible.value = operand.value := by
  rcases operand with ⟨access, size, address, history⟩
  cases access <;> rfl

@[simp]
theorem Operand.value_visible (operand : Operand) : operand.visible.value = operand.value := by
  cases operand with
  | memory inner => exact inner.value_visible
  | word value => rfl
  | float number => rfl

/-- Which readings are visible after a frame depends on those that were visible before it. -/
theorem Operand.visible_advance (operand : Operand) (frame : Frame) (offset : UInt32) :
    (operand.visible.advance frame offset).visible = (operand.advance frame offset).visible := by
  cases operand with
  | memory inner =>
      rcases inner with ⟨access, size, address, history⟩
      cases access <;> rfl
  | word value => rfl
  | float number => rfl

def Condition.visible (condition : Condition) : Condition :=
  { condition with source := condition.source.visible, target := condition.target.visible }

theorem Condition.visible_advance (condition : Condition) (frame : Frame) (offset : UInt32) :
    (condition.visible.advance frame offset).visible =
      (condition.advance frame offset).visible := by
  simp [Condition.visible, Condition.advance, Operand.visible_advance]

def Group.visible (group : Group) : Group := ⟨group.conditions.map Condition.visible⟩

theorem Group.map_visible_advanceFrom (frame : Frame) (offset : UInt32)
    (conditions : List Condition) :
    (Group.advanceFrom frame offset (conditions.map Condition.visible)).map Condition.visible =
      (Group.advanceFrom frame offset conditions).map Condition.visible := by
  induction conditions generalizing offset with
  | nil => rfl
  | cons head tail ih =>
      have hhead := head.visible_advance frame offset
      have hsource : (head.visible.advance frame offset).source.value =
          (head.advance frame offset).source.value := by
        have hvalue := congrArg (fun condition => condition.source.value) hhead
        simpa [Condition.visible] using hvalue
      have hrole : head.visible.role = head.role := rfl
      simp only [Group.advanceFrom, List.map_cons, hhead, hsource, hrole, ih]

theorem Group.visible_advance (group : Group) (frame : Frame) :
    (group.visible.advance frame).visible = (group.advance frame).visible := by
  simp [Group.visible, Group.advance, Group.map_visible_advanceFrom]

/-- What can be seen of a trigger from the next frame on. -/
def Trigger.visible (trigger : Trigger) : Trigger :=
  { core := trigger.core.visible, alternates := trigger.alternates.map Group.visible }

theorem Trigger.visible_eq_iff {left right : Trigger} :
    left.visible = right.visible ↔
      left.groups.map Group.visible = right.groups.map Group.visible := by
  simp [visible, groups]

theorem Trigger.visible_advance (trigger : Trigger) (frame : Frame) :
    (trigger.visible.advance frame).visible = (trigger.advance frame).visible := by
  simp [Trigger.visible, Trigger.advance, Trigger.mapGroups, Group.visible_advance]

end AchievementLogic
