import AchievementLogic.Proofs.Achievement.Restoring
import AchievementLogic.Proofs.Trigger.Gathering

/-!
# Going on from saved progress

Saved progress leaves out the last different reading of every operand and what the last frame came
to.  Neither shows from the next frame on if no operand looks at that reading: two triggers with the
same visible part give the same outcome of a frame and have the same visible part after it.
-/

namespace AchievementLogic

/-! ## Triggers that look alike -/

/-- Evaluating a group depends on nothing but what can be seen of it. -/
theorem Group.evaluate_visible (group : Group) :
    group.visible.evaluate = group.evaluate.mapGroup Group.visible := by
  have hsplit : Chain.split group.visible.conditions =
      (group.chains.map (Chain.map Condition.visible), group.loose.map Condition.visible) :=
    Chain.split_map Condition.role_visible group.conditions
  have hchains : group.visible.chains = group.chains.map (Chain.map Condition.visible) :=
    congrArg Prod.fst hsplit
  have hloose : group.visible.loose = group.evaluate.group.loose.map Condition.visible := by
    rw [loose_evaluate]
    exact congrArg Prod.snd hsplit
  have hevaluate := evaluate_of_chains hchains (fun _ => rfl) (fun _ => rfl)
    fun chain _ => chain.evaluate_visible
  rw [hevaluate, hloose, GroupOutcome.mapGroup, Chain.join_map, join_chains]
  rfl

/-- Saving loses nothing that can be seen, unless an operand shows its last different reading. -/
theorem Group.visible_recalled {group : Group}
    (hprior : ∀ condition ∈ group.conditions, ∀ operand ∈ condition.operands,
      operand.showsPrior = false) : group.recalled.visible = group.visible := by
  simp only [recalled, visible, List.map_map, Group.mk.injEq]
  apply List.map_congr_left
  intro condition hmem
  have hsource := Operand.visible_recalled
    (hprior condition hmem condition.source (by simp [Condition.operands]))
  have htarget := Operand.visible_recalled
    (hprior condition hmem condition.target (by simp [Condition.operands]))
  simp [Condition.recalled, Condition.visible, hsource, htarget]

namespace Trigger

theorem hits_visible (trigger : Trigger) : trigger.visible.hits = trigger.hits := by
  simp [hits, groups, visible, Group.visible, Condition.visible]

theorem evaluate_visible (trigger : Trigger) :
    trigger.visible.evaluate =
      (trigger.evaluate.1, trigger.evaluate.2.mapGroups Group.visible) := by
  have hempty : trigger.core.visible.isEmpty = trigger.core.isEmpty := by
    rw [Group.isEmpty, Group.visible, List.isEmpty_map, Group.isEmpty]
  have hclear (group : Group) : group.visible.clearHits = group.clearHits.visible := by
    rw [Group.visible, Group.clearHits, Group.visible, Group.clearHits, List.map_map, List.map_map]
    rfl
  exact evaluate_mapGroups hempty hclear fun group _ => group.evaluate_visible

/-- Triggers whose groups look alike look alike, whatever else they are. -/
theorem visible_eq_of_mapGroups_eq {left right : Trigger}
    (hmap : left.mapGroups Group.visible = right.mapGroups Group.visible) :
    left.visible = right.visible := by
  have hcore := congrArg core hmap
  have halternates := congrArg alternates hmap
  rw [visible_eq_iff]
  exact congrArg₂ List.cons hcore halternates

/-- A frame finds the same and leaves the same behind where the same is visible. -/
theorem test_congr {left right : Trigger} (hvisible : left.visible = right.visible)
    (frame : Frame) :
    (left.test frame).1 = (right.test frame).1 ∧
      (left.test frame).2.mapGroups Group.visible =
        (right.test frame).2.mapGroups Group.visible := by
  have hadvance : (left.advance frame).visible = (right.advance frame).visible := by
    rw [← visible_advance left, hvisible, visible_advance right]
  have hevaluate := congrArg evaluate hadvance
  rw [evaluate_visible, evaluate_visible] at hevaluate
  exact Prod.mk.inj hevaluate

end Trigger

namespace Achievement

/-! ## Runs of an achievement -/

/-- What is done with an achievement between two saves. -/
inductive Action
  | test (frame : Frame)
  | reset

def act (achievement : Achievement) : Action → Achievement
  | .test frame => (achievement.test frame).2
  | .reset => achievement.reset

def play (achievement : Achievement) (actions : List Action) : Achievement :=
  actions.foldl act achievement

theorem id_play (achievement : Achievement) (actions : List Action) :
    (achievement.play actions).id = achievement.id := by
  induction actions generalizing achievement with
  | nil => rfl
  | cons head tail ih =>
      have hact : (achievement.act head).id = achievement.id := by
        cases head <;> rfl
      rw [play, List.foldl_cons, ← play, ih, hact]

/-- No action changes the conditions themselves. -/
theorem fresh_act (achievement : Achievement) (action : Action) :
    (achievement.act action).trigger.fresh = achievement.trigger.fresh := by
  cases action with
  | test frame => exact achievement.trigger.fresh_test frame
  | reset => exact achievement.trigger.fresh_reset

theorem fresh_play (achievement : Achievement) (actions : List Action) :
    (achievement.play actions).trigger.fresh = achievement.trigger.fresh := by
  induction actions generalizing achievement with
  | nil => rfl
  | cons head tail ih => rw [play, List.foldl_cons, ← play, ih, fresh_act]

structure View where
  outcome : Outcome
  hits : List (List UInt32)
  primed : Bool
  measured? : Option Measured

def view (achievement : Achievement) : View :=
  { outcome := achievement.lastOutcome
    hits := achievement.trigger.hits
    primed := achievement.primed
    measured? := achievement.measured? }

def watch (achievement : Achievement) : List Frame → List View
  | [] => []
  | frame :: later => (achievement.test frame).2.view :: (achievement.test frame).2.watch later

/-- Achievements whose triggers look alike are seen to do the same from then on. -/
theorem watch_congr {left right : Achievement}
    (hvisible : left.trigger.visible = right.trigger.visible) (frames : List Frame) :
    left.watch frames = right.watch frames := by
  induction frames generalizing left right with
  | nil => rfl
  | cons frame later ih =>
      obtain ⟨houtcome, hafter⟩ := Trigger.test_congr hvisible frame
      have hnext := Trigger.visible_eq_of_mapGroups_eq hafter
      have hhits : (left.trigger.test frame).2.hits = (right.trigger.test frame).2.hits := by
        rw [← Trigger.hits_visible, hnext, Trigger.hits_visible]
      have hprimed := congrArg Trigger.primed hafter
      have hmeasured := congrArg Trigger.measured? hafter
      have hview : (left.test frame).2.view = (right.test frame).2.view := by
        rw [view, view, View.mk.injEq]
        exact ⟨houtcome, hhits, hprimed, hmeasured⟩
      have hlater : (left.test frame).2.watch later = (right.test frame).2.watch later :=
        ih hnext
      rw [watch, watch, hview, hlater]

/-! ## Restoring into a new achievement -/

/-- In any trigger of the same definition, restored groups look as they did when they were saved. -/
theorem visible_restoreTrigger {saved : Achievement} {other : Trigger}
    (hsame : other.fresh = saved.trigger.fresh)
    (hprior : ∀ operand ∈ saved.trigger.operands, operand.showsPrior = false) :
    (restoreTrigger saved.savedGroups other).visible = saved.trigger.visible := by
  rw [Trigger.visible_eq_iff, groups_restoreTrigger hsame, List.map_map]
  apply List.map_congr_left
  intro group hgroup
  apply Group.visible_recalled
  intro condition hcondition operand hoperand
  apply hprior
  simp only [Trigger.operands, List.mem_flatMap]
  exact ⟨group, hgroup, condition, hcondition, hoperand⟩

/-- An achievement that was saved and read into a new one goes on as if nothing had happened.  A
definition without operands that show their last different reading is asked for because that
reading is not saved; the count of a group's conditions has to fit the word it is read into. -/
theorem watch_restoreProgress (id : UInt32) (text user : String) (actions : List Action)
    (hprior : ∀ operand ∈ (ofText id text).trigger.operands, operand.showsPrior = false)
    (hcount : ∀ group ∈ (ofText id text).trigger.groups, group.size < 2 ^ 32)
    (hletter : (userDigest user ((ofText id text).play actions).groupsText id).toList.all
      Char.isDigit = false)
    (frames : List Frame) :
    ((ofText id text).restoreProgress
        (((ofText id text).play actions).saveProgress user) user).2.watch frames =
      ((ofText id text).play actions).watch frames := by
  have hid : ((ofText id text).play actions).id = id := id_play _ actions
  have hsame : (ofText id text).trigger.fresh = ((ofText id text).play actions).trigger.fresh :=
    (fresh_play _ actions).symm
  have hnoPrior : ∀ operand ∈ ((ofText id text).play actions).trigger.operands,
      operand.showsPrior = false :=
    Trigger.forall_operands_of_fresh
      (fun operand => by rw [operand.showsPrior_fresh]) hsame hprior
  have hsizes : ∀ group ∈ ((ofText id text).play actions).trigger.groups,
      group.size < 2 ^ 32 := by
    intro group hgroup
    have hmem : group.size ∈ (ofText id text).trigger.groups.map Group.size := by
      rw [sizes_congr hsame]
      exact List.mem_map_of_mem hgroup
    obtain ⟨other, hother, heq⟩ := List.mem_map.mp hmem
    rw [← heq]
    exact hcount other hother
  have hrestored := restoreProgress_saved (by rw [hid]; rfl) hsame hsizes
    (by rw [hid]; exact hletter) ""
  rw [String.append_empty] at hrestored
  rw [hrestored]
  exact watch_congr (visible_restoreTrigger hsame hnoPrior) frames

/-- A frame that reads the same byte everywhere. -/
def filledFrame (byte : UInt8) : Frame :=
  { source := ⟨fun _ count => some (List.replicate count byte)⟩ }

/-- A measured count behind a pointer, with an alternate that resets. -/
def pointerText : String := "I:0xH0010_M:d0xH0012<9.5.SR:0xH0000=7"

def pointerPlay : List Action :=
  [.test (filledFrame 1), .reset, .test (filledFrame 2), .test (filledFrame 3)]

theorem watch_restoreProgress_pointerText :
    ((ofText 7 pointerText).restoreProgress
        (((ofText 7 pointerText).play pointerPlay).saveProgress "user") "user").2.watch
        [filledFrame 3, filledFrame 4, filledFrame 7] =
      ((ofText 7 pointerText).play pointerPlay).watch
        [filledFrame 3, filledFrame 4, filledFrame 7] := by
  have hprior : ∀ operand ∈ (ofText 7 pointerText).trigger.operands,
      operand.showsPrior = false := by decide +kernel
  have hcount : ∀ group ∈ (ofText 7 pointerText).trigger.groups, group.size < 2 ^ 32 := by
    decide +kernel
  have hletter : (userDigest "user" ((ofText 7 pointerText).play pointerPlay).groupsText
      7).toList.all Char.isDigit = false := by decide +kernel
  exact watch_restoreProgress 7 pointerText "user" pointerPlay hprior hcount hletter
    [filledFrame 3, filledFrame 4, filledFrame 7]

end Achievement

end AchievementLogic
