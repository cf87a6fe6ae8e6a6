import AchievementLogic.Proofs.Runs
import AchievementLogic.Proofs.Trigger.Gathering
import AchievementLogic.Session.Basic

/-!
# What one achievement reports

On its own, frame after frame, an achievement turns primed and unprimed in turn until it triggers,
and is silent from then on.  A reset is reported beside that, only where it took hits away.
-/

namespace AchievementLogic

open scoped Computability

/-! ## Resets -/

/-- A frame that resets leaves no hits, and no trigger primed. -/
theorem Trigger.test_of_wasReset {trigger : Trigger} {frame : Frame}
    (hreset : (trigger.test frame).1.wasReset = true) :
    (trigger.test frame).2.hasHits = false ∧ (trigger.test frame).2.primed = false := by
  rw [test] at hreset ⊢
  constructor
  · have hhits := hits_of_wasReset hreset
    simpa [hasHits, Group.hasHits] using hhits
  · exact primed_of_wasReset hreset

def Event.isReset : Event → Bool
  | achievementReset _ => true
  | _ => false

namespace Achievement

/-! ## One frame -/

/-- How a change of the primed state is reported. -/
def primingReports (id : UInt32) (before after : Bool) : List Event :=
  match before, after with
  | false, true => [.achievementPrimed id]
  | true, false => [.achievementUnprimed id]
  | _, _ => []

/-- Whether a frame takes away hits that the settings ask to report. -/
def losesHits (achievement : Achievement) (settings : Settings) (frame : Frame) : Bool :=
  settings.pauseOnReset && achievement.hasProgress &&
    (achievement.test frame).2.lastOutcome.wasReset

theorem step_of_inactive {achievement : Achievement} (hactive : achievement.active = false)
    (settings : Settings) (frame : Frame) :
    achievement.step settings frame = ([], achievement) := by
  rw [step, hactive]
  rfl

/-- An inactive achievement does nothing; an active one is tested, and either it triggers and is
inactive from then on, or it reports the hits it lost and how its primed state changed. -/
theorem step_cases (achievement : Achievement) (settings : Settings) (frame : Frame) :
    (achievement.active = false ∧ achievement.step settings frame = ([], achievement)) ∨
    (achievement.active = true ∧ (achievement.test frame).1 = true ∧
      achievement.step settings frame =
        ([.achievementTriggered achievement.id settings.hardcore],
          { (achievement.test frame).2 with active := false })) ∨
    (achievement.active = true ∧ (achievement.test frame).1 = false ∧
      achievement.step settings frame =
        ((if achievement.losesHits settings frame then [.achievementReset achievement.id]
            else []) ++
          primingReports achievement.id achievement.primed (achievement.test frame).2.primed,
        (achievement.test frame).2)) := by
  cases hactive : achievement.active with
  | false => exact .inl ⟨rfl, step_of_inactive hactive settings frame⟩
  | true =>
      right
      cases hheld : (achievement.test frame).1 with
      | true =>
          left
          refine ⟨rfl, rfl, ?_⟩
          simp [step, hactive, hheld]
      | false =>
          right
          refine ⟨rfl, rfl, ?_⟩
          simp only [step, hactive, hheld, losesHits, primingReports]
          cases achievement.primed <;> cases (achievement.test frame).2.primed <;> rfl

/-! ## What may be reported -/

section Life

variable (id : UInt32) (hardcore : Bool)

def primedWord : Language Event := {[.achievementPrimed id]}

def unprimedWord : Language Event := {[.achievementUnprimed id]}

def triggeredWord : Language Event := {[.achievementTriggered id hardcore]}

/-- Primed and unprimed in turn, and in the end triggered. -/
def life : Language Event :=
  (primedWord id * unprimedWord id)∗ * ((1 + primedWord id) * triggeredWord id hardcore)

/-- The same from a primed state on. -/
def primedLife : Language Event := unprimedWord id * life id hardcore + triggeredWord id hardcore

theorem triggeredWord_le_life : triggeredWord id hardcore ≤ life id hardcore := by
  calc triggeredWord id hardcore
    _ = 1 * (1 * triggeredWord id hardcore) := by rw [one_mul, one_mul]
    _ ≤ life id hardcore := mul_le_mul' one_le_kstar (mul_le_mul' le_self_add le_rfl)

/-- Whatever follows the report of being primed is part of a life. -/
theorem primedWord_mul_primedLife_le :
    primedWord id * primedLife id hardcore ≤ life id hardcore := by
  have hagain : primedWord id * (unprimedWord id * life id hardcore) ≤ life id hardcore := by
    rw [← mul_assoc, life, ← mul_assoc]
    exact mul_le_mul' mul_kstar_le_kstar le_rfl
  have hends : primedWord id * triggeredWord id hardcore ≤ life id hardcore := by
    calc primedWord id * triggeredWord id hardcore
      _ = 1 * (primedWord id * triggeredWord id hardcore) := (one_mul _).symm
      _ ≤ life id hardcore := mul_le_mul' one_le_kstar (mul_le_mul' le_add_self le_rfl)
  rw [primedLife, mul_add]
  exact add_le hagain hends

/-- What may be reported while active. -/
def lifeWhile (primed : Bool) : Language Event :=
  if primed then primedLife id hardcore else life id hardcore

theorem triggeredWord_le_lifeWhile (primed : Bool) :
    triggeredWord id hardcore ≤ lifeWhile id hardcore primed := by
  cases primed with
  | true => exact le_add_self
  | false => exact triggeredWord_le_life id hardcore

/-- A report that the primed state changed leads from what may be said after it to what may be said
before it. -/
theorem primingReports_mem_beginnings {before after : Bool} {later : List Event}
    (hlater : later ∈ beginnings (lifeWhile id hardcore after)) :
    primingReports id before after ++ later ∈ beginnings (lifeWhile id hardcore before) := by
  cases before with
  | true =>
      cases after with
      | true => exact hlater
      | false =>
          have hword : [.achievementUnprimed id] ∈ unprimedWord id := rfl
          exact beginnings_mono le_self_add (append_mem_beginnings hword hlater)
  | false =>
      cases after with
      | true =>
          have hword : [.achievementPrimed id] ∈ primedWord id := rfl
          exact beginnings_mono (primedWord_mul_primedLife_le id hardcore)
            (append_mem_beginnings hword hlater)
      | false => exact hlater

end Life

/-- What may still be reported, apart from resets. -/
def lifeFrom (achievement : Achievement) (settings : Settings) : Language Event :=
  if achievement.active then lifeWhile achievement.id settings.hardcore achievement.primed else 1

theorem nil_mem_beginnings_lifeFrom (achievement : Achievement) (settings : Settings) :
    [] ∈ beginnings (achievement.lifeFrom settings) := by
  unfold lifeFrom
  split
  · exact nil_mem_beginnings (triggeredWord_le_lifeWhile _ _ _ rfl)
  · exact nil_mem_beginnings rfl

theorem filter_not_isReset (lost : Bool) (id : UInt32) (before after : Bool) :
    ((if lost then [Event.achievementReset id] else []) ++
      primingReports id before after).filter (!·.isReset) = primingReports id before after := by
  cases lost <;> cases before <;> cases after <;> rfl

/-- One frame puts what it reports, apart from a reset, in front. -/
theorem step_mem_beginnings (achievement : Achievement) (settings : Settings) (frame : Frame)
    {later : List Event}
    (hlater : later ∈ beginnings ((achievement.step settings frame).2.lifeFrom settings)) :
    (achievement.step settings frame).1.filter (!·.isReset) ++ later ∈
      beginnings (achievement.lifeFrom settings) := by
  rcases achievement.step_cases settings frame with
    ⟨-, hstep⟩ | ⟨hactive, -, hstep⟩ | ⟨hactive, -, hstep⟩
  · rw [hstep] at hlater ⊢
    exact hlater
  · rw [hstep] at hlater ⊢
    have hword : [.achievementTriggered achievement.id settings.hardcore] ∈
        triggeredWord achievement.id settings.hardcore := rfl
    have hbegun := append_mem_beginnings hword hlater
    have hle := triggeredWord_le_lifeWhile achievement.id settings.hardcore achievement.primed
    rw [lifeFrom, if_neg Bool.false_ne_true, mul_one] at hbegun
    rw [lifeFrom, if_pos hactive]
    exact beginnings_mono hle hbegun
  · rw [hstep] at hlater ⊢
    have hstays : (achievement.test frame).2.active = true := hactive
    rw [lifeFrom, if_pos hstays] at hlater
    rw [lifeFrom, if_pos hactive, filter_not_isReset]
    exact primingReports_mem_beginnings _ _ hlater

/-! ## Runs -/

def reports (achievement : Achievement) (settings : Settings) (frames : List Frame) :
    List (List Event) :=
  Run.answers (fun achievement frame => achievement.step settings frame) achievement frames

def after (achievement : Achievement) (settings : Settings) (frames : List Frame) : Achievement :=
  Run.after (fun achievement frame => achievement.step settings frame) achievement frames

theorem reports_mem_beginnings (achievement : Achievement) (settings : Settings)
    (frames : List Frame) :
    (achievement.reports settings frames).flatten.filter (!·.isReset) ∈
      beginnings (achievement.lifeFrom settings) := by
  induction frames generalizing achievement with
  | nil => exact achievement.nil_mem_beginnings_lifeFrom settings
  | cons frame later ih =>
      rw [reports, Run.answers, ← reports, List.flatten_cons, List.filter_append]
      exact achievement.step_mem_beginnings settings frame (ih _)

theorem mem_primingReports {id : UInt32} {before after : Bool} {event : Event}
    (hmem : event ∈ primingReports id before after) :
    event = .achievementPrimed id ∨ event = .achievementUnprimed id := by
  cases before <;> cases after <;> simp_all [primingReports]

/-- A trigger is reported alone, and ends what the achievement does. -/
theorem step_of_triggered {achievement : Achievement} {settings : Settings} {frame : Frame}
    {id : UInt32} {hardcore : Bool}
    (htriggered : .achievementTriggered id hardcore ∈ (achievement.step settings frame).1) :
    (achievement.step settings frame).1 =
        [.achievementTriggered achievement.id settings.hardcore] ∧
      (achievement.step settings frame).2.active = false := by
  rcases achievement.step_cases settings frame with ⟨-, hstep⟩ | ⟨-, -, hstep⟩ | ⟨-, -, hstep⟩
  · rw [hstep] at htriggered
    cases htriggered
  · rw [hstep]
    exact ⟨rfl, rfl⟩
  · rw [hstep] at htriggered
    rcases List.mem_append.mp htriggered with hreset | hpriming
    · split at hreset <;> simp at hreset
    · rcases mem_primingReports hpriming with hprimed | hunprimed
      · cases hprimed
      · cases hunprimed

/-- A reset is reported only if the settings ask for it and hits were lost. -/
theorem step_of_reset {achievement : Achievement} {settings : Settings} {frame : Frame}
    {id : UInt32} (hreset : .achievementReset id ∈ (achievement.step settings frame).1) :
    settings.pauseOnReset = true ∧ achievement.hasProgress = true ∧
      (achievement.step settings frame).2.hasProgress = false ∧
      ((achievement.step settings frame).1 = [.achievementReset achievement.id] ∨
        (achievement.step settings frame).1 =
          [.achievementReset achievement.id, .achievementUnprimed achievement.id]) := by
  rcases achievement.step_cases settings frame with ⟨-, hstep⟩ | ⟨-, -, hstep⟩ | ⟨-, -, hstep⟩
  · rw [hstep] at hreset
    cases hreset
  · rw [hstep] at hreset
    simp at hreset
  · rw [hstep] at hreset ⊢
    have hlost : achievement.losesHits settings frame = true := by
      by_contra hnot
      rw [if_neg hnot] at hreset
      rcases mem_primingReports hreset with hprimed | hunprimed
      · cases hprimed
      · cases hunprimed
    rw [if_pos hlost]
    simp only [losesHits, Bool.and_eq_true] at hlost
    obtain ⟨⟨hpause, hprogress⟩, hwasReset⟩ := hlost
    obtain ⟨hnone, hprimed⟩ := Trigger.test_of_wasReset hwasReset
    have hafter : (achievement.test frame).2.primed = false := hprimed
    rw [hafter]
    refine ⟨hpause, hprogress, hnone, ?_⟩
    cases achievement.primed with
    | true => exact .inr rfl
    | false => exact .inl rfl

theorem after_of_inactive {achievement : Achievement} (hactive : achievement.active = false)
    (settings : Settings) (frames : List Frame) :
    achievement.after settings frames = achievement := by
  apply Run.after_of_keeps (· = achievement) _ rfl
  rintro _ frame - rfl
  rw [step_of_inactive hactive]

theorem id_step (achievement : Achievement) (settings : Settings) (frame : Frame) :
    (achievement.step settings frame).2.id = achievement.id := by
  rcases achievement.step_cases settings frame with ⟨-, hstep⟩ | ⟨-, -, hstep⟩ | ⟨-, -, hstep⟩
  · rw [hstep]
  · rw [hstep]
    rfl
  · rw [hstep]
    rfl

theorem id_after (achievement : Achievement) (settings : Settings) (frames : List Frame) :
    (achievement.after settings frames).id = achievement.id := by
  apply Run.after_of_keeps (fun current : Achievement => current.id = achievement.id) _ rfl
  intro current frame _ hid
  rw [id_step, hid]

/-- How an achievement behaves, where `reports` are its reports of these frames. -/
structure FollowsProtocol (achievement : Achievement) (settings : Settings) (frames : List Frame)
    (reports : List (List Event)) : Prop where
  one_per_frame : reports.length = frames.length
  life : reports.flatten.filter (!·.isReset) ∈
    beginnings (life achievement.id settings.hardcore)
  triggers_alone : ∀ (time : Nat) (events : List Event) (hardcore : Bool),
    reports[time]? = some events → .achievementTriggered achievement.id hardcore ∈ events →
    events = [.achievementTriggered achievement.id settings.hardcore]
  /-- Nothing is reported and nothing changes after the trigger. -/
  ends : ∀ (time : Nat) (events : List Event) (hardcore : Bool),
    reports[time]? = some events → .achievementTriggered achievement.id hardcore ∈ events →
    ∀ later : Nat, time < later → reports[later]?.getD [] = [] ∧
      achievement.after settings (frames.take later) =
        achievement.after settings (frames.take (time + 1))
  resets : ∀ (time : Nat) (events : List Event), reports[time]? = some events →
    .achievementReset achievement.id ∈ events →
    settings.pauseOnReset = true ∧
      (achievement.after settings (frames.take time)).hasProgress = true ∧
      (achievement.after settings (frames.take (time + 1))).hasProgress = false ∧
      (events = [.achievementReset achievement.id] ∨
        events = [.achievementReset achievement.id, .achievementUnprimed achievement.id])

theorem exists_step_of_report {achievement : Achievement} {settings : Settings}
    {frames : List Frame} {time : Nat} {events : List Event}
    (hevents : (achievement.reports settings frames)[time]? = some events) :
    ∃ frame, ((achievement.after settings (frames.take time)).step settings frame).1 = events ∧
      ((achievement.after settings (frames.take time)).step settings frame).2 =
        achievement.after settings (frames.take (time + 1)) := by
  rw [reports, Run.getElem?_answers] at hevents
  obtain ⟨frame, hframe, hevents⟩ := Option.map_eq_some_iff.mp hevents
  rw [after, after, Run.after_take_succ _ hframe]
  exact ⟨frame, hevents, rfl⟩

/-- An achievement that is not primed follows the protocol. -/
theorem followsProtocol {achievement : Achievement} (hprimed : achievement.primed = false)
    (settings : Settings) (frames : List Frame) :
    achievement.FollowsProtocol settings frames (achievement.reports settings frames) where
  one_per_frame := Run.length_answers _ achievement frames
  life := by
    have hreported := achievement.reports_mem_beginnings settings frames
    rw [lifeFrom, hprimed] at hreported
    split at hreported
    · exact hreported
    · obtain ⟨word, rfl, hprefix⟩ := hreported
      rw [List.prefix_nil.mp hprefix]
      exact nil_mem_beginnings (triggeredWord_le_life _ _ rfl)
  triggers_alone := by
    intro time events hardcore hevents htriggered
    obtain ⟨frame, rfl, -⟩ := exists_step_of_report hevents
    rw [(step_of_triggered htriggered).1, id_after]
  ends := by
    intro time events hardcore hevents htriggered later hlater
    obtain ⟨frame, rfl, hnext⟩ := exists_step_of_report hevents
    have hinactive := (step_of_triggered htriggered).2
    rw [hnext] at hinactive
    have hstays : achievement.after settings (frames.take later) =
        achievement.after settings (frames.take (time + 1)) := by
      rw [after, Run.after_take _ hlater]
      exact after_of_inactive hinactive settings _
    refine ⟨?_, hstays⟩
    cases hreport : (achievement.reports settings frames)[later]? with
    | none => rfl
    | some events =>
        obtain ⟨frame, rfl, -⟩ := exists_step_of_report hreport
        rw [hstays, step_of_inactive hinactive]
        rfl
  resets := by
    intro time events hevents hreset
    obtain ⟨frame, rfl, hnext⟩ := exists_step_of_report hevents
    have hspec := step_of_reset hreset
    rwa [hnext, id_after] at hspec

end Achievement

end AchievementLogic
