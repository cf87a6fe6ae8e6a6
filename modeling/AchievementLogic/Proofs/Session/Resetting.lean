import AchievementLogic.Proofs.Session.Independence

/-!
# Resetting a session

A reset clears the hits of everything that is loaded, and lets leaderboards wait again whatever came
of their attempts.  It does not make achievements active: one that triggered stays silent, while one
that did not goes on from where it would have begun.
-/

namespace AchievementLogic

def Event.isTrigger : Event → Bool
  | achievementTriggered .. => true
  | _ => false

namespace Achievement

/-! ## Achievements that trigger -/

def triggers (achievement : Achievement) (settings : Settings) (frames : List Frame) : Bool :=
  (achievement.reports settings frames).flatten.any Event.isTrigger

theorem any_isTrigger_reports (lost : Bool) (id : UInt32) (before after : Bool) :
    ((if lost then [Event.achievementReset id] else []) ++
      primingReports id before after).any Event.isTrigger = false := by
  cases lost <;> cases before <;> cases after <;> rfl

/-- On one frame an achievement ceases to be active exactly by triggering. -/
theorem active_step (achievement : Achievement) (settings : Settings) (frame : Frame) :
    (achievement.step settings frame).2.active =
      (achievement.active && !(achievement.step settings frame).1.any Event.isTrigger) := by
  rcases achievement.step_cases settings frame with
    ⟨hactive, hstep⟩ | ⟨hactive, -, hstep⟩ | ⟨hactive, -, hstep⟩
  · rw [hstep, hactive]
    rfl
  · rw [hstep, hactive]
    rfl
  · have hstays : (achievement.test frame).2.active = achievement.active := rfl
    rw [hstep, any_isTrigger_reports, Bool.not_false, Bool.and_true]
    exact hstays

/-- An achievement stays as active as it was until it triggers. -/
theorem active_after (achievement : Achievement) (settings : Settings) (frames : List Frame) :
    (achievement.after settings frames).active =
      (achievement.active && !achievement.triggers settings frames) := by
  induction frames generalizing achievement with
  | nil => simp [after, Run.after, triggers, reports, Run.answers]
  | cons frame later ih =>
      have hlater := ih (achievement.step settings frame).2
      have htriggers : achievement.triggers settings (frame :: later) =
          ((achievement.step settings frame).1.any Event.isTrigger ||
            (achievement.step settings frame).2.triggers settings later) := by
        simp [triggers, reports, Run.answers]
      calc (achievement.after settings (frame :: later)).active
        _ = ((achievement.step settings frame).2.after settings later).active := rfl
        _ = (achievement.active && !achievement.triggers settings (frame :: later)) := by
          rw [hlater, active_step, htriggers, Bool.not_or, Bool.and_assoc]

theorem reports_of_inactive {achievement : Achievement} (hactive : achievement.active = false)
    (settings : Settings) (frames : List Frame) :
    achievement.reports settings frames = List.replicate frames.length [] := by
  induction frames with
  | nil => rfl
  | cons frame later ih =>
      rw [reports, Run.answers, step_of_inactive hactive, ← reports, ih]
      rfl

/-- What a reset makes of an achievement after some frames.  Only one that triggered is lost: it is
not active again, and reports nothing whatever comes later. -/
structure ResetTo (settings : Settings) (frames : List Frame) (before now : Achievement) :
    Prop where
  id : now.id = before.id
  cleared : now.trigger.IsCleared
  primed : now.primed = false
  active : now.active = (before.active && !before.triggers settings frames)
  silent : before.triggers settings frames = true →
    ∀ later, now.reports settings later = List.replicate later.length []

theorem resetTo (achievement : Achievement) (settings : Settings) (frames : List Frame) :
    achievement.ResetTo settings frames (achievement.after settings frames).reset where
  id := achievement.id_after settings frames
  cleared := Trigger.isCleared_reset _
  primed := rfl
  active := achievement.active_after settings frames
  silent := by
    intro htriggers later
    apply reports_of_inactive
    have hactive := achievement.active_after settings frames
    rwa [htriggers, Bool.not_true, Bool.and_false] at hactive

end Achievement

namespace Leaderboard

def triggers (leaderboard : Leaderboard) : List Trigger :=
  match leaderboard.definition? with
  | none => []
  | some definition => [definition.start, definition.cancel, definition.submit]

/-- As on the first frame: nothing was hit, and a valid leaderboard waits for its start. -/
structure IsRearmed (leaderboard : Leaderboard) : Prop where
  cleared : ∀ trigger ∈ leaderboard.triggers, trigger.IsCleared
  phase : leaderboard.isValid = true → leaderboard.phase = .waiting

theorem isRearmed_reset (leaderboard : Leaderboard) : leaderboard.reset.IsRearmed := by
  unfold reset
  split
  case h_1 hnone =>
    constructor
    · simp [triggers, hnone]
    · simp [isValid, hnone]
  case h_2 definition hsome =>
    constructor
    · simp [triggers, Trigger.isCleared_reset]
    · exact fun _ => rfl

theorem isValid_reset (leaderboard : Leaderboard) :
    leaderboard.reset.isValid = leaderboard.isValid := by
  obtain ⟨id, title, description, format, definition?, phase, ranking⟩ := leaderboard
  cases definition? <;> rfl

theorem isValid_step (leaderboard : Leaderboard) (frame : Frame) :
    (leaderboard.step frame).2.isValid = leaderboard.isValid := by
  obtain ⟨id, title, description, format, definition?, phase, ranking⟩ := leaderboard
  cases definition? <;> rfl

end Leaderboard

namespace Session

/-! ## The session as a whole -/

/-- The achievements of a session run side by side, each as if it were alone. -/
theorem after_achievements (session : Session) (frames : List Frame) :
    (session.after frames).achievements =
      session.achievements.map (·.after session.settings frames) := by
  induction frames generalizing session with
  | nil => simp [after, Run.after, Achievement.after]
  | cons frame later ih =>
      have hlater := ih (session.step frame).2
      have hsettings : (session.step frame).2.settings = session.settings := rfl
      calc (session.after (frame :: later)).achievements
        _ = ((session.step frame).2.after later).achievements := rfl
        _ = session.achievements.map (·.after session.settings (frame :: later)) := by
          rw [hlater, step_achievements, List.map_map, hsettings]
          rfl

/-- No run makes a leaderboard valid or invalid. -/
theorem isValid_after_leaderboards (session : Session) (frames : List Frame) :
    (session.after frames).leaderboards.map (·.isValid) =
      session.leaderboards.map (·.isValid) := by
  apply Run.after_of_keeps
    (fun current : Session => current.leaderboards.map (·.isValid) =
      session.leaderboards.map (·.isValid)) _ rfl
  intro current frame _ hcurrent
  have hstep : (current.step frame).2.leaderboards =
      current.leaderboards.map fun leaderboard => (leaderboard.step frame).2 := by
    simp [step]
  rw [hstep, List.map_map, ← hcurrent]
  exact List.map_congr_left fun leaderboard _ => leaderboard.isValid_step frame

/-- After any frames a reset leaves no hits behind, nothing is primed, and every leaderboard that is
valid waits for its start.  Achievements that triggered are not active again. -/
theorem reset_after (session : Session) (frames : List Frame) :
    List.Forall₂ (Achievement.ResetTo session.settings frames) session.achievements
        (session.after frames).reset.achievements ∧
      (∀ leaderboard ∈ (session.after frames).reset.leaderboards, leaderboard.IsRearmed) ∧
      (session.after frames).reset.leaderboards.map (·.isValid) =
        session.leaderboards.map (·.isValid) := by
  have hachievements : (session.after frames).reset.achievements =
      session.achievements.map fun achievement =>
        (achievement.after session.settings frames).reset := by
    rw [reset, after_achievements, List.map_map]
    rfl
  refine ⟨?_, ?_, ?_⟩
  · rw [hachievements, List.forall₂_map_right_iff, List.forall₂_same]
    exact fun achievement _ => achievement.resetTo session.settings frames
  · exact List.forall_mem_map.mpr fun leaderboard _ => leaderboard.isRearmed_reset
  · rw [← session.isValid_after_leaderboards frames, reset, List.map_map]
    exact List.map_congr_left fun leaderboard _ => leaderboard.isValid_reset

/-- A single achievement, which triggers on every frame on which the first byte is 1. -/
def oneShotSession : Session := (start {}).addAchievement (.ofText 1 "0xH0000=1")

theorem not_forall_active_of_triggers :
    ¬ ∀ (session : Session) (frames : List Frame) (place : Nat) (before now : Achievement),
      session.achievements[place]? = some before →
      (session.after frames).reset.achievements[place]? = some now →
      before.active = true → before.triggers session.settings frames = true →
      now.active = true := by
  intro hall
  let frames : List Frame := [{ source := (Image.ofBytes [1]).source }]
  have hactive := hall oneShotSession frames 0 _ _ rfl rfl rfl (by decide +kernel)
  exact absurd hactive (by decide +kernel)

end Session

end AchievementLogic
