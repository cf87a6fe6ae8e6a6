import AchievementLogic.Memory.Image
import AchievementLogic.Proofs.Session.AchievementReports
import AchievementLogic.Proofs.Trigger.Printing
import AchievementLogic.Session.Loading

/-!
# Achievements side by side

Achievements of one session are found by their numbers.  As long as these are different, none of
them takes notice of the others or of the leaderboards: each reports what it would report alone.
-/

namespace AchievementLogic

/-- Whether an event is about the achievement with this number. -/
def Event.isOf (id : UInt32) (event : Event) : Bool := !event.isLeaderboard && event.id == id

/-- Everything that a step of an achievement reports is about it. -/
theorem Achievement.step_isOf {achievement : Achievement} {settings : Settings} {frame : Frame}
    {event : Event} (hmem : event ∈ (achievement.step settings frame).1) (id : UInt32) :
    event.isOf id = (achievement.id == id) := by
  rcases achievement.step_cases settings frame with ⟨-, hstep⟩ | ⟨-, -, hstep⟩ | ⟨-, -, hstep⟩
  · rw [hstep] at hmem
    cases hmem
  · rw [hstep] at hmem
    rw [List.mem_singleton.mp hmem]
    rfl
  · rw [hstep] at hmem
    rcases List.mem_append.mp hmem with hreset | hpriming
    · split at hreset
      · rw [List.mem_singleton.mp hreset]
        rfl
      · cases hreset
    · rcases mem_primingReports hpriming with rfl | rfl
      · rfl
      · rfl

theorem Leaderboard.step_isOf {leaderboard : Leaderboard} {frame : Frame} {event : Event}
    (hmem : event ∈ (leaderboard.step frame).1) (id : UInt32) : event.isOf id = false := by
  unfold step at hmem
  simp only at hmem
  split at hmem <;> simp_all [Event.isOf, Event.isLeaderboard]

/-- Where the numbers are different, an achievement is found by its own. -/
theorem Achievement.find?_of_mem {achievements : List Achievement} {achievement : Achievement}
    (hids : (achievements.map (·.id)).Nodup) (hmem : achievement ∈ achievements) :
    achievements.find? (·.id == achievement.id) = some achievement := by
  cases hfind : achievements.find? (·.id == achievement.id) with
  | none =>
      have hnone := List.find?_eq_none.mp hfind achievement hmem
      simp at hnone
  | some found =>
      have hid : found.id = achievement.id := by simpa using List.find?_some hfind
      rw [List.inj_on_of_nodup_map hids (List.mem_of_find?_eq_some hfind) hmem hid]

namespace Session

/-! ## Sessions that were just loaded -/

/-- Nothing is primed before the first frame. -/
def IsFresh (session : Session) : Prop :=
  ∀ achievement ∈ session.achievements, achievement.primed = false

theorem primed_ofText (id : UInt32) (text : String) :
    (Achievement.ofText id text).primed = false := by
  rw [Achievement.primed, Achievement.ofText]
  simp only
  split
  case h_1 trigger hread => exact (Trigger.ensures_read.readAll hread).primed
  case h_2 => rfl

theorem isFresh_start (settings : Settings) : (start settings).IsFresh := by
  intro achievement hmem
  cases hmem

theorem isFresh_loadGame (session : Session) (document : Game.Document) :
    (session.loadGame document).IsFresh := by
  intro achievement hmem
  obtain ⟨entry, -, rfl⟩ := List.mem_map.mp hmem
  exact primed_ofText entry.id entry.definition

theorem IsFresh.addAchievement {session : Session} (hfresh : session.IsFresh) (id : UInt32)
    (text : String) : (session.addAchievement (.ofText id text)).IsFresh := by
  intro achievement hmem
  rcases List.mem_append.mp hmem with hold | hnew
  · exact hfresh achievement hold
  · rw [List.mem_singleton.mp hnew]
    exact primed_ofText id text

/-! ## One achievement among others -/

/-- No two achievements have the same number. -/
def HasDistinctIds (session : Session) : Prop := (session.achievements.map (·.id)).Nodup

instance (session : Session) : Decidable session.HasDistinctIds :=
  inferInstanceAs (Decidable (session.achievements.map (·.id)).Nodup)

/-- An achievement stands among others that all have other numbers. -/
theorem HasDistinctIds.exists_split {session : Session} {achievement : Achievement}
    (hdistinct : session.HasDistinctIds) (hmem : achievement ∈ session.achievements) :
    ∃ before later, session.achievements = before ++ achievement :: later ∧
      ∀ other ∈ before ++ later, other.id ≠ achievement.id := by
  obtain ⟨before, later, hsplit⟩ := List.append_of_mem hmem
  rw [HasDistinctIds, hsplit, List.map_append, List.map_cons, List.nodup_middle,
    ← List.map_append] at hdistinct
  refine ⟨before, later, hsplit, fun other hother hid => ?_⟩
  exact (List.nodup_cons.mp hdistinct).1 (List.mem_map.mpr ⟨other, hother, hid⟩)

theorem achievement_of_mem {session : Session} {achievement : Achievement}
    (hdistinct : session.HasDistinctIds) (hmem : achievement ∈ session.achievements) :
    session.achievement achievement.id = .ok achievement := by
  rw [Session.achievement, Achievement.find?_of_mem hdistinct hmem]

theorem step_achievements (session : Session) (frame : Frame) :
    (session.step frame).2.achievements =
      session.achievements.map fun achievement => (achievement.step session.settings frame).2 := by
  simp [step]

theorem HasDistinctIds.step {session : Session} (hdistinct : session.HasDistinctIds)
    (frame : Frame) : (session.step frame).2.HasDistinctIds := by
  have hids : (session.step frame).2.achievements.map (·.id) =
      session.achievements.map (·.id) := by
    rw [step_achievements, List.map_map]
    apply List.map_congr_left
    intro achievement _
    exact achievement.id_step session.settings frame
  rwa [HasDistinctIds, hids]

/-- Of all that a frame reports, an achievement's part is what it reports alone. -/
theorem filter_step {session : Session} {achievement : Achievement}
    (hdistinct : session.HasDistinctIds) (hmem : achievement ∈ session.achievements)
    (frame : Frame) :
    (session.step frame).1.filter (·.isOf achievement.id) =
      (achievement.step session.settings frame).1 := by
  obtain ⟨before, later, hsplit, hothers⟩ := hdistinct.exists_split hmem
  have hsilent (others : List Achievement)
      (hne : ∀ other ∈ others, other.id ≠ achievement.id) :
      (others.flatMap fun other => (other.step session.settings frame).1).filter
        (·.isOf achievement.id) = [] := by
    apply List.filter_eq_nil_iff.mpr
    intro event hevent
    obtain ⟨other, hother, hevent⟩ := List.mem_flatMap.mp hevent
    rw [Achievement.step_isOf hevent]
    simpa using hne other hother
  have hown : (achievement.step session.settings frame).1.filter (·.isOf achievement.id) =
      (achievement.step session.settings frame).1 := by
    apply List.filter_eq_self.mpr
    intro event hevent
    rw [Achievement.step_isOf hevent, beq_self_eq_true]
  have hleaderboards : (session.leaderboards.flatMap fun leaderboard =>
      (leaderboard.step frame).1).filter (·.isOf achievement.id) = [] := by
    apply List.filter_eq_nil_iff.mpr
    intro event hevent
    obtain ⟨leaderboard, -, hevent⟩ := List.mem_flatMap.mp hevent
    rw [Leaderboard.step_isOf hevent]
    exact Bool.false_ne_true
  have hbefore := hsilent before fun other hother => hothers other (List.mem_append_left _ hother)
  have hlater := hsilent later fun other hother => hothers other (List.mem_append_right _ hother)
  simp only [step, List.flatMap_map, hsplit, List.flatMap_append, List.flatMap_cons,
    List.filter_append, hbefore, hown, hlater, hleaderboards, List.nil_append, List.append_nil]

/-! ## Runs -/

def reports (session : Session) (frames : List Frame) : List (List Event) :=
  Run.answers step session frames

def after (session : Session) (frames : List Frame) : Session := Run.after step session frames

/-- That a session has an achievement, and what is needed to tell it from the others. -/
structure Has (settings : Settings) (id : UInt32) (session : Session)
    (achievement : Achievement) : Prop where
  settings : session.settings = settings
  id : achievement.id = id
  distinct : session.HasDistinctIds
  mem : achievement ∈ session.achievements

/-- The part of one achievement in a session is its own run. -/
theorem filter_reports {session : Session} {achievement : Achievement}
    (hdistinct : session.HasDistinctIds) (hmem : achievement ∈ session.achievements)
    (frames : List Frame) :
    (session.reports frames).map (List.filter (·.isOf achievement.id)) =
        achievement.reports session.settings frames ∧
      (session.after frames).achievement achievement.id =
        .ok (achievement.after session.settings frames) := by
  have hstep (current : Session) (own : Achievement) (frame : Frame)
      (hhas : Has session.settings achievement.id current own) :
      (current.step frame).1.filter (·.isOf achievement.id) =
          (own.step session.settings frame).1 ∧
        Has session.settings achievement.id (current.step frame).2
          (own.step session.settings frame).2 := by
    obtain ⟨hsettings, hid, hcurrent, hown⟩ := hhas
    rw [← hid, ← hsettings]
    refine ⟨filter_step hcurrent hown frame, rfl, own.id_step _ frame, hcurrent.step frame, ?_⟩
    rw [step_achievements]
    exact List.mem_map_of_mem hown
  have hstart : Has session.settings achievement.id session achievement :=
    ⟨rfl, rfl, hdistinct, hmem⟩
  obtain ⟨hreports, hafter⟩ := Run.map_answers hstep hstart frames
  refine ⟨hreports, ?_⟩
  have hfound := achievement_of_mem hafter.distinct hafter.mem
  rwa [hafter.id] at hfound

/-- In a session that was just loaded every achievement follows the protocol, and reports what it
would report without the others and without leaderboards. -/
theorem reports_of_achievement {session : Session} {achievement : Achievement}
    (hfresh : session.IsFresh) (hdistinct : session.HasDistinctIds)
    (hmem : achievement ∈ session.achievements) (frames : List Frame) :
    achievement.FollowsProtocol session.settings frames
        ((session.reports frames).map (List.filter (·.isOf achievement.id))) ∧
      (session.reports frames).map (List.filter (·.isOf achievement.id)) =
        achievement.reports session.settings frames ∧
      ∀ time : Nat, (session.after (frames.take time)).achievement achievement.id =
        .ok (achievement.after session.settings (frames.take time)) := by
  have hreports := (filter_reports hdistinct hmem frames).1
  refine ⟨?_, hreports, fun time => (filter_reports hdistinct hmem (frames.take time)).2⟩
  rw [hreports]
  exact Achievement.followsProtocol (hfresh achievement hmem) session.settings frames

/-- Two frames with a 1 at 1 make the trigger at 2 the only thing missing; a 9 at 0 resets. -/
def primedText : String := "R:0xH0000=9_0xH0001=1.2._T:0xH0002=1"

def primedSession : Session :=
  ((start { pauseOnReset := true }).addAchievement (.ofText 7 primedText)).addAchievement
    (.ofText 8 "0xH0002=1")

def primedFrames : List Frame :=
  [[0, 1, 0], [0, 1, 0], [9, 1, 0], [0, 1, 0], [0, 1, 0], [0, 1, 1], [9, 1, 1]].map fun bytes =>
    { source := (Image.ofBytes bytes).source }

theorem reports_of_achievement_primedText :
    (Achievement.ofText 7 primedText).FollowsProtocol { pauseOnReset := true } primedFrames
        ((primedSession.reports primedFrames).map (List.filter (·.isOf 7))) ∧
      (primedSession.reports primedFrames).map (List.filter (·.isOf 7)) =
        [[], [.achievementPrimed 7], [.achievementReset 7, .achievementUnprimed 7], [],
          [.achievementPrimed 7], [.achievementTriggered 7 false], []] := by
  have hfresh : primedSession.IsFresh :=
    ((isFresh_start _).addAchievement 7 primedText).addAchievement 8 "0xH0002=1"
  have hdistinct : primedSession.HasDistinctIds := by
    have hids : ([7, 8] : List UInt32).Nodup := by decide
    exact hids
  have hmem : Achievement.ofText 7 primedText ∈ primedSession.achievements := .head _
  have hreports := reports_of_achievement hfresh hdistinct hmem primedFrames
  refine ⟨hreports.1, ?_⟩
  decide +kernel

end Session

end AchievementLogic
