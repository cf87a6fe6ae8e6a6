import AchievementLogic.Proofs.Achievement.Receiving
import AchievementLogic.Proofs.Session.Independence
import Mathlib.Data.List.TakeWhile

/-!
# Loading the progress of a session

The progress of a session is that of its achievements, one after the other with nothing in between.
Loading passes over the achievements as often as there is something to take: each of them takes what
stands at the front if that was saved under its number, and leaves it alone otherwise.  So the order
of the achievements does not matter, and what was saved under a number that none of them has stays at
the front and ends the loading.
-/

namespace AchievementLogic

namespace Session

open Achievement (receive Agrees)

def progressText (user : String) (sources : List Achievement) : String :=
  String.join (sources.map (·.saveProgress user))

theorem progressText_cons (user : String) (head : Achievement) (tail : List Achievement) :
    progressText user (head :: tail) = head.saveProgress user ++ progressText user tail := by
  rw [progressText, List.map_cons, String.join_cons, progressText]

theorem progressText_append (user : String) (first second : List Achievement) :
    progressText user (first ++ second) = progressText user first ++ progressText user second := by
  induction first with
  | nil => simp [progressText]
  | cons head tail ih =>
      rw [List.cons_append, progressText_cons, ih, progressText_cons, String.append_assoc]

/-! ## Text that nobody takes -/

section

variable {achievements : List Achievement} {text : String}

theorem restorePass_of_read?_eq_none
    (hread : ∀ achievement ∈ achievements,
      Achievement.SavedProgress.read? achievement.id text = none) (user : String) :
    restorePass user text achievements = (text, achievements) := by
  induction achievements with
  | nil => rfl
  | cons head tail ih =>
      obtain ⟨hhead, htail⟩ := List.forall_mem_cons.mp hread
      rw [restorePass, Achievement.restoreProgress_of_read?_eq_none hhead]
      simp only [ih htail]

theorem restoreAll_of_read?_eq_none
    (hread : ∀ achievement ∈ achievements,
      Achievement.SavedProgress.read? achievement.id text = none) (user : String) :
    restoreAll user text achievements = (text, achievements) := by
  rw [restoreAll, restorePass_of_read?_eq_none hread]
  simp

/-- Another pass over nothing would do nothing, so that loading need not look whether text is left. -/
theorem restoreAll_of_shorter {user : String} {pass : String × List Achievement}
    (hpass : restorePass user text achievements = pass)
    (hshorter : pass.1.utf8ByteSize < text.utf8ByteSize) :
    restoreAll user text achievements = restoreAll user pass.1 pass.2 := by
  rw [restoreAll, hpass]
  simp only [hshorter, dif_pos]
  split
  case isTrue hempty =>
    rw [String.isEmpty_iff] at hempty
    rw [hempty, restoreAll_of_read?_eq_none fun achievement _ => Achievement.read?_empty _, ← hempty]
  case isFalse => rfl

end

/-! ## Passes -/

/-- A pass over achievements takes some of the sources from the front of the text: those whose numbers
come up in turn, and at least the first of them if an achievement has its number. -/
structure PassTakes (user tail : String) (achievements taken left : List Achievement) : Prop where
  pass : restorePass user (progressText user (taken ++ left) ++ tail) achievements =
    (progressText user left ++ tail, achievements.map (receive taken))
  known : ∀ saved ∈ taken, saved.id ∈ achievements.map (·.id)
  first : ∀ saved ∈ (taken ++ left).head?, saved.id ∈ achievements.map (·.id) → taken ≠ []

section

variable {user tail : String} {sources achievements : List Achievement}

/-- In its turn an achievement finds progress of its own at the front, or nothing to read. -/
theorem read?_progressText_cases {id : UInt32}
    (htail : Achievement.SavedProgress.read? id tail = none) (user : String)
    (sources : List Achievement) :
    (∃ saved others, sources = saved :: others ∧ saved.id = id) ∨
      Achievement.SavedProgress.read? id (progressText user sources ++ tail) = none ∧
        ∀ saved ∈ sources.head?, saved.id ≠ id := by
  cases sources with
  | nil => exact .inr ⟨by simpa [progressText] using htail, by simp⟩
  | cons saved others =>
      by_cases hid : saved.id = id
      · exact .inl ⟨saved, others, rfl, hid⟩
      · refine .inr ⟨?_, by simpa using hid⟩
        rw [progressText_cons, String.append_assoc, Achievement.read?_saveProgress_of_ne hid]

namespace PassTakes

variable {head saved : Achievement} {others taken left : List Achievement}

/-- The first achievement takes what stands at the front, and the others take from the rest. -/
theorem take (htakes : PassTakes user tail others taken left) (hid : saved.id = head.id)
    (hnew : head.id ∉ others.map (·.id)) (hagrees : head.Agrees [saved])
    (hreadable : saved.IsReadable user) :
    PassTakes user tail (head :: others) (saved :: taken) left where
  pass := by
    have hturn := Achievement.restoreProgress_of_isReadable hid hagrees hreadable
      (progressText user (taken ++ left) ++ tail)
    have hreceived : head.receive (saved :: taken) = head.receive [saved] := by
      rw [Achievement.receive_cons_of_eq hid, Achievement.receive_cons_of_eq hid]
    have hwaiting : others.map (receive (saved :: taken)) = others.map (receive taken) := by
      apply List.map_congr_left
      intro achievement hmem
      apply Achievement.receive_cons_of_ne
      rw [hid]
      exact fun hsame => hnew (hsame ▸ List.mem_map_of_mem hmem)
    rw [List.cons_append, progressText_cons, String.append_assoc, restorePass, hturn]
    simp only [htakes.pass]
    rw [List.map_cons, hreceived, hwaiting]
  known := by
    rw [List.forall_mem_cons, List.map_cons, hid]
    exact ⟨List.mem_cons_self, fun other hother =>
      List.mem_cons_of_mem _ (htakes.known other hother)⟩
  first := fun _ _ _ => List.cons_ne_nil _ _

/-- The first achievement finds nothing of its own, and the others take from the whole text. -/
theorem skip (htakes : PassTakes user tail others taken left)
    (hnew : head.id ∉ others.map (·.id))
    (hread : Achievement.SavedProgress.read? head.id
      (progressText user (taken ++ left) ++ tail) = none)
    (hfirst : ∀ saved ∈ (taken ++ left).head?, saved.id ≠ head.id) :
    PassTakes user tail (head :: others) taken left where
  pass := by
    have hkept : head.receive taken = head := by
      apply Achievement.receive_of_find?_eq_none
      apply Achievement.find?_eq_none_of_ne
      exact fun saved hsaved hid => hnew (hid ▸ htakes.known saved hsaved)
    rw [restorePass, Achievement.restoreProgress_of_read?_eq_none hread]
    simp only [htakes.pass]
    rw [List.map_cons, hkept]
  known := fun saved hsaved => List.mem_cons_of_mem _ (htakes.known saved hsaved)
  first := by
    intro saved hsaved hmem
    rcases List.mem_cons.mp hmem with hid | hmem
    · exact absurd hid (hfirst saved hsaved)
    · exact htakes.first saved hsaved hmem

end PassTakes

/-- A pass takes from the sources those that come up in the order of the achievements, and what
follows the sources stays where it is. -/
theorem exists_passTakes (hids : (achievements.map (·.id)).Nodup)
    (hagrees : ∀ achievement ∈ achievements, achievement.Agrees sources)
    (hreadable : ∀ saved ∈ sources, saved.IsReadable user)
    (htail : ∀ achievement ∈ achievements,
      Achievement.SavedProgress.read? achievement.id tail = none) :
    ∃ taken left, sources = taken ++ left ∧ PassTakes user tail achievements taken left := by
  induction achievements generalizing sources with
  | nil => exact ⟨[], sources, rfl, rfl, by simp, by simp⟩
  | cons head others ih =>
      obtain ⟨hnew, hids⟩ := List.nodup_cons.mp hids
      obtain ⟨hhead, hothers⟩ := List.forall_mem_cons.mp hagrees
      obtain ⟨htailHead, htailOthers⟩ := List.forall_mem_cons.mp htail
      rcases read?_progressText_cases htailHead user sources with
        ⟨saved, later, rfl, hid⟩ | ⟨hread, hfirst⟩
      · obtain ⟨hsaved, hlater⟩ := List.forall_mem_cons.mp hreadable
        have hagreesLater : ∀ achievement ∈ others, achievement.Agrees later :=
          fun achievement hmem => (hothers achievement hmem).of_subset (List.subset_cons_self _ _)
        obtain ⟨taken, left, rfl, htakes⟩ := ih hids hagreesLater hlater htailOthers
        have hagreesHead : head.Agrees [saved] := hhead.of_subset (by simp)
        exact ⟨saved :: taken, left, rfl, htakes.take hid hnew hagreesHead hsaved⟩
      · obtain ⟨taken, left, rfl, htakes⟩ := ih hids hothers hreadable htailOthers
        exact ⟨taken, left, rfl, htakes.skip hnew hread hfirst⟩

/-! ## All passes -/

/-- Every source is taken, however many passes it needs. -/
theorem restoreAll_progressText (hsources : (sources.map (·.id)).Nodup)
    (hids : (achievements.map (·.id)).Nodup)
    (hagrees : ∀ achievement ∈ achievements, achievement.Agrees sources)
    (hreadable : ∀ saved ∈ sources, saved.IsReadable user)
    (htail : ∀ achievement ∈ achievements,
      Achievement.SavedProgress.read? achievement.id tail = none)
    (hknown : ∀ saved ∈ sources, saved.id ∈ achievements.map (·.id)) :
    restoreAll user (progressText user sources ++ tail) achievements =
      (tail, achievements.map (receive sources)) := by
  induction hlength : sources.length using Nat.strong_induction_on
    generalizing sources achievements with
  | _ length ih =>
    obtain ⟨taken, left, rfl, htakes⟩ := exists_passTakes hids hagrees hreadable htail
    cases taken with
    | nil =>
        obtain rfl : left = [] := by
          cases left with
          | nil => rfl
          | cons saved others =>
              exact absurd rfl (htakes.first saved rfl (hknown saved List.mem_cons_self))
        have hnothing : achievements.map (receive []) = achievements :=
          List.map_id'' (fun _ => rfl) _
        have hempty : progressText user [] ++ tail = tail := String.empty_append
        rw [List.nil_append, hempty, restoreAll_of_read?_eq_none htail, hnothing]
    | cons saved others =>
        have hshorter : (progressText user left ++ tail).utf8ByteSize <
            (progressText user (saved :: others ++ left) ++ tail).utf8ByteSize := by
          have hpos := saved.saveProgress_pos user
          rw [progressText_append, progressText_cons]
          simp only [String.utf8ByteSize_append]
          omega
        have hfewer : left.length < length := by
          rw [← hlength, List.length_append, List.length_cons]
          omega
        have hleft : (left.map (·.id)).Nodup :=
          hsources.sublist ((List.sublist_append_right (saved :: others) left).map _)
        have hsameIds := Achievement.map_id_receive (saved :: others) achievements
        have hrest : restoreAll user (progressText user left ++ tail)
            (achievements.map (receive (saved :: others))) =
              (tail, (achievements.map (receive (saved :: others))).map (receive left)) := by
          apply ih left.length hfewer hleft (by rwa [hsameIds]) _ _ _ _ rfl
          · rw [List.forall_mem_map]
            intro achievement hmem
            have hall := hagrees achievement hmem
            exact (hall.of_subset (List.subset_append_left _ _)).receive
              (hall.of_subset (List.subset_append_right _ _))
          · exact fun other hother => hreadable other (List.mem_append_right _ hother)
          · rw [List.forall_mem_map]
            intro achievement hmem
            rw [Achievement.id_receive]
            exact htail achievement hmem
          · rw [hsameIds]
            exact fun other hother => hknown other (List.mem_append_right _ hother)
        rw [restoreAll_of_shorter htakes.pass hshorter, hrest, List.map_map, Prod.mk.injEq]
        refine ⟨rfl, List.map_congr_left fun achievement _ => ?_⟩
        exact Achievement.receive_receive hsources achievement

end

/-! ## Loading what another session saved -/

/-- What loading the progress of the sources makes of an achievement: it has the hits and readings
that were saved under its number, and nothing else of it changes. -/
structure Resumes (sources : List Achievement) (before after : Achievement) : Prop where
  restored : ∀ saved ∈ sources, saved.id = before.id → after.savedGroups = saved.savedGroups
  kept : (∀ saved ∈ sources, saved.id ≠ before.id) → after = before
  same : after = { before with trigger := after.trigger }
  definition : after.trigger.fresh = before.trigger.fresh

theorem resumes_receive {sources : List Achievement} {achievement : Achievement}
    (hids : (sources.map (·.id)).Nodup) (hagrees : achievement.Agrees sources) :
    Resumes sources achievement (achievement.receive sources) where
  restored := by
    intro saved hmem hid
    have hfind := Achievement.find?_of_mem hids hmem
    rw [hid] at hfind
    rw [Achievement.receive_of_find?_eq_some hfind]
    exact Achievement.savedGroups_restoreTrigger (hagrees saved hmem hid)
  kept := fun hne => Achievement.receive_of_find?_eq_none (Achievement.find?_eq_none_of_ne hne)
  same := by
    rw [receive]
    split <;> rfl
  definition := hagrees.fresh_receive

theorem forall₂_resumes_receive {sources achievements : List Achievement}
    (hids : (sources.map (·.id)).Nodup)
    (hagrees : ∀ achievement ∈ achievements, achievement.Agrees sources) :
    List.Forall₂ (Resumes sources) achievements (achievements.map (receive sources)) := by
  rw [List.forall₂_map_right_iff, List.forall₂_same]
  exact fun achievement hmem => resumes_receive hids (hagrees achievement hmem)

/-- Whether an achievement of the session has the number of this one. -/
def knows (session : Session) (saved : Achievement) : Bool :=
  session.achievements.any (·.id == saved.id)

theorem knows_iff {session : Session} {saved : Achievement} :
    session.knows saved = true ↔ saved.id ∈ session.achievements.map (·.id) := by
  simp [knows]

/-- Loading takes what was saved up to the first number that is not known. -/
theorem restoreAll_saveProgress {earlier later : Session} {user : String}
    (hearlier : earlier.HasDistinctIds) (hlater : later.HasDistinctIds)
    (hagrees : ∀ achievement ∈ later.achievements, achievement.Agrees earlier.achievements)
    (hreadable : ∀ saved ∈ earlier.achievements.takeWhile later.knows, saved.IsReadable user) :
    restoreAll user (earlier.saveProgress user) later.achievements =
      (progressText user (earlier.achievements.dropWhile later.knows),
        later.achievements.map (receive (earlier.achievements.takeWhile later.knows))) := by
  have htext : earlier.saveProgress user =
      progressText user (earlier.achievements.takeWhile later.knows) ++
        progressText user (earlier.achievements.dropWhile later.knows) := by
    rw [← progressText_append, List.takeWhile_append_dropWhile]
    rfl
  rw [htext]
  apply restoreAll_progressText _ hlater _ hreadable
  · intro achievement hmem
    rcases read?_progressText_cases (Achievement.read?_empty achievement.id) user
      (earlier.achievements.dropWhile later.knows) with ⟨saved, others, hleft, hid⟩ | ⟨hread, -⟩
    · have hunknown := List.head?_dropWhile_not later.knows earlier.achievements
      rw [hleft] at hunknown
      have hknown : later.knows saved = true := by
        rw [knows_iff, hid]
        exact List.mem_map_of_mem hmem
      exact absurd hknown (Bool.eq_false_iff.mp hunknown)
    · rwa [String.append_empty] at hread
  · exact fun saved hmem => knows_iff.mp (List.mem_takeWhile_imp hmem)
  · exact hearlier.sublist ((List.takeWhile_sublist _).map _)
  · exact fun achievement hmem => (hagrees achievement hmem).of_subset (List.takeWhile_subset _)

/-- Every achievement of the part is one of the whole, by its number and its definition. -/
def IsPartOf (part whole : Session) : Prop :=
  ∀ achievement ∈ part.achievements, ∃ other ∈ whole.achievements,
    achievement.id = other.id ∧ achievement.trigger.fresh = other.trigger.fresh

/-- Into a session that has all achievements of another one, in any order and among others, the
progress of that one is loaded in full: each of its achievements goes on with the hits and readings it
had there, and the others are left as they are.  As for one achievement, the count of a group's
conditions has to fit into a word. -/
theorem loadProgress_saveProgress {earlier later : Session} {user : String}
    (hearlier : earlier.HasDistinctIds) (hlater : later.HasDistinctIds)
    (hpart : earlier.IsPartOf later)
    (hcount : ∀ saved ∈ earlier.achievements, ∀ group ∈ saved.trigger.groups,
      group.size < 2 ^ 32)
    (hletter : ∀ saved ∈ earlier.achievements,
      (Achievement.userDigest user saved.groupsText saved.id).toList.all Char.isDigit = false) :
    later.unmatchedProgress (earlier.saveProgress user) user = "" ∧
      List.Forall₂ (Resumes earlier.achievements) later.achievements
        (later.loadProgress (earlier.saveProgress user) user).achievements := by
  have hagrees : ∀ achievement ∈ later.achievements, achievement.Agrees earlier.achievements := by
    intro achievement hmem saved hsaved hid
    obtain ⟨twin, htwin, hsame, hdefinition⟩ := hpart saved hsaved
    rw [hdefinition, List.inj_on_of_nodup_map hlater htwin hmem (hsame.symm.trans hid)]
  have hknown : ∀ saved ∈ earlier.achievements, later.knows saved = true := by
    intro saved hsaved
    obtain ⟨twin, htwin, hsame, -⟩ := hpart saved hsaved
    rw [knows_iff, hsame]
    exact List.mem_map_of_mem htwin
  have htaken : earlier.achievements.takeWhile later.knows = earlier.achievements :=
    List.takeWhile_eq_self_iff.mpr hknown
  have hload := restoreAll_saveProgress hearlier hlater hagrees fun saved hmem =>
    ⟨hcount saved (List.takeWhile_subset _ hmem), hletter saved (List.takeWhile_subset _ hmem)⟩
  rw [htaken, List.dropWhile_eq_nil_iff.mpr hknown] at hload
  rw [unmatchedProgress, loadProgress, hload]
  refine ⟨rfl, forall₂_resumes_receive hearlier hagrees⟩

/-- An achievement by its text, its first condition hit as often as this. -/
def hitOften (id hits : UInt32) (text : String) : Achievement :=
  let unplayed := Achievement.ofText id text
  { unplayed with trigger := unplayed.trigger.modifyGroup 0 (·.setHits 0 hits) }

def countText : String := "0xH0000=1.5."

def sumText : String := "A:0xH0001_0xH0002=9SR:0xH0003=7"

def onTheWay : Session :=
  { achievements := [hitOften 1 3 countText, hitOften 2 4 sumText] }

/-- The same two, not played yet, the other way round and with a third one that was. -/
def otherWayRound : Session :=
  { achievements := [.ofText 2 sumText, hitOften 3 2 countText, .ofText 1 countText] }

theorem isReadable_onTheWay :
    ∀ saved ∈ onTheWay.achievements, saved.IsReadable "user" := by decide +kernel

theorem loadProgress_saveProgress_otherWayRound :
    otherWayRound.unmatchedProgress (onTheWay.saveProgress "user") "user" = "" ∧
      List.Forall₂ (Resumes onTheWay.achievements) otherWayRound.achievements
        (otherWayRound.loadProgress (onTheWay.saveProgress "user") "user").achievements := by
  have hearlier : onTheWay.HasDistinctIds := by decide +kernel
  have hlater : otherWayRound.HasDistinctIds := by decide +kernel
  have hpart : onTheWay.IsPartOf otherWayRound := by
    intro saved hsaved
    rcases List.mem_cons.mp hsaved with rfl | hsecond
    · exact ⟨.ofText 1 countText, by simp [otherWayRound], rfl, rfl⟩
    · obtain rfl := List.mem_singleton.mp hsecond
      exact ⟨.ofText 2 sumText, by simp [otherWayRound], rfl, rfl⟩
  exact loadProgress_saveProgress hearlier hlater hpart
    (fun saved hmem => (isReadable_onTheWay saved hmem).count)
    (fun saved hmem => (isReadable_onTheWay saved hmem).letter)

/-- Into a session that lacks some of the achievements, the progress is loaded up to the first that is
lacking.  The progress of that one is not skipped: it is left with all that follows it. -/
theorem loadProgress_takeWhile_knows {earlier later : Session} {user : String}
    (hearlier : earlier.HasDistinctIds) (hlater : later.HasDistinctIds)
    (hpart : later.IsPartOf earlier)
    (hcount : ∀ saved ∈ earlier.achievements.takeWhile later.knows,
      ∀ group ∈ saved.trigger.groups, group.size < 2 ^ 32)
    (hletter : ∀ saved ∈ earlier.achievements.takeWhile later.knows,
      (Achievement.userDigest user saved.groupsText saved.id).toList.all Char.isDigit = false) :
    later.unmatchedProgress (earlier.saveProgress user) user =
        progressText user (earlier.achievements.dropWhile later.knows) ∧
      List.Forall₂ (Resumes (earlier.achievements.takeWhile later.knows)) later.achievements
        (later.loadProgress (earlier.saveProgress user) user).achievements := by
  have hagrees : ∀ achievement ∈ later.achievements, achievement.Agrees earlier.achievements := by
    intro achievement hmem saved hsaved hid
    obtain ⟨twin, htwin, hsame, hdefinition⟩ := hpart achievement hmem
    rw [List.inj_on_of_nodup_map hearlier hsaved htwin (hid.trans hsame), hdefinition]
  have hload := restoreAll_saveProgress hearlier hlater hagrees fun saved hmem =>
    ⟨hcount saved hmem, hletter saved hmem⟩
  rw [unmatchedProgress, loadProgress, hload]
  refine ⟨rfl, forall₂_resumes_receive (hearlier.sublist ((List.takeWhile_sublist _).map _)) ?_⟩
  exact fun achievement hmem => (hagrees achievement hmem).of_subset (List.takeWhile_subset _)

def fourOnTheWay : Session :=
  { achievements := [hitOften 1 3 countText, hitOften 2 4 sumText, hitOften 3 2 countText,
      hitOften 4 1 sumText] }

/-- The first and the last of them, the other way round. -/
def firstAndLast : Session := { achievements := [.ofText 4 sumText, .ofText 1 countText] }

theorem loadProgress_takeWhile_knows_firstAndLast :
    fourOnTheWay.achievements.takeWhile firstAndLast.knows = [hitOften 1 3 countText] ∧
      firstAndLast.unmatchedProgress (fourOnTheWay.saveProgress "user") "user" =
        progressText "user" (fourOnTheWay.achievements.dropWhile firstAndLast.knows) ∧
      List.Forall₂ (Resumes (fourOnTheWay.achievements.takeWhile firstAndLast.knows))
        firstAndLast.achievements
        (firstAndLast.loadProgress (fourOnTheWay.saveProgress "user") "user").achievements := by
  have hearlier : fourOnTheWay.HasDistinctIds := by decide +kernel
  have hlater : firstAndLast.HasDistinctIds := by decide +kernel
  have hpart : firstAndLast.IsPartOf fourOnTheWay := by
    intro achievement hmem
    rcases List.mem_cons.mp hmem with rfl | hsecond
    · exact ⟨hitOften 4 1 sumText, by simp [fourOnTheWay], rfl, rfl⟩
    · obtain rfl := List.mem_singleton.mp hsecond
      exact ⟨hitOften 1 3 countText, by simp [fourOnTheWay], rfl, rfl⟩
  have hreadable : ∀ saved ∈ fourOnTheWay.achievements.takeWhile firstAndLast.knows,
      saved.IsReadable "user" := by decide +kernel
  exact ⟨rfl, loadProgress_takeWhile_knows hearlier hlater hpart
    (fun saved hmem => (hreadable saved hmem).count)
    (fun saved hmem => (hreadable saved hmem).letter)⟩

/-- What stands behind the progress of an achievement that is lacking is not loaded, although it could
be read. -/
theorem not_forall_resumes_of_lacking :
    ¬∀ (earlier later : Session) (user : String), earlier.HasDistinctIds → later.HasDistinctIds →
      later.IsPartOf earlier → (∀ saved ∈ earlier.achievements, saved.IsReadable user) →
      List.Forall₂ (Resumes earlier.achievements) later.achievements
        (later.loadProgress (earlier.saveProgress user) user).achievements := by
  intro hall
  have hearlier : onTheWay.HasDistinctIds := by decide +kernel
  have hpart : IsPartOf { achievements := [.ofText 2 sumText] } onTheWay := by
    intro achievement hmem
    obtain rfl := List.mem_singleton.mp hmem
    exact ⟨hitOften 2 4 sumText, by simp [onTheWay], rfl, rfl⟩
  have hresumes := hall onTheWay { achievements := [.ofText 2 sumText] } "user" hearlier
    (List.nodup_singleton _) hpart isReadable_onTheWay
  have hunread : Achievement.SavedProgress.read? (Achievement.ofText 2 sumText).id
      (onTheWay.saveProgress "user") = none := by
    have htext : onTheWay.saveProgress "user" = (hitOften 1 3 countText).saveProgress "user" ++
        progressText "user" [hitOften 2 4 sumText] := progressText_cons _ _ _
    rw [htext]
    exact Achievement.read?_saveProgress_of_ne (by decide +kernel) _ _
  rw [loadProgress, restoreAll_of_read?_eq_none (by simpa using hunread)] at hresumes
  have hhits := (List.forall₂_cons.mp hresumes).1.restored (hitOften 2 4 sumText)
    (by simp [onTheWay]) rfl
  exact absurd hhits (by decide +kernel)

/-- An achievement with the largest number. -/
def largest : Achievement := .ofText 4294967295 "0xH0000=1.1687516."

def largestPlayed : Achievement := (largest.test { source := (Image.ofBytes [1]).source }).2

/-- A letter in each digest is needed also where no achievement is lacking: both digests may look
like fields, of which the first is as large as the number that it stands behind. -/
theorem not_forall_resumes_of_digits :
    ¬∀ (earlier later : Session) (user : String), earlier.HasDistinctIds → later.HasDistinctIds →
      later.IsPartOf earlier → earlier.IsPartOf later →
      (∀ saved ∈ earlier.achievements, ∀ group ∈ saved.trigger.groups, group.size < 2 ^ 32) →
      List.Forall₂ (Resumes earlier.achievements) later.achievements
        (later.loadProgress (earlier.saveProgress user) user).achievements := by
  intro hall
  have hfresh : largest.trigger.fresh = largestPlayed.trigger.fresh :=
    (Trigger.fresh_test _ _).symm
  have hlater : IsPartOf { achievements := [largest] } { achievements := [largestPlayed] } := by
    intro achievement hmem
    obtain rfl := List.mem_singleton.mp hmem
    exact ⟨largestPlayed, List.mem_singleton_self _, rfl, hfresh⟩
  have hearlier : IsPartOf { achievements := [largestPlayed] } { achievements := [largest] } := by
    intro achievement hmem
    obtain rfl := List.mem_singleton.mp hmem
    exact ⟨largest, List.mem_singleton_self _, rfl, hfresh.symm⟩
  have hresumes := hall { achievements := [largestPlayed] } { achievements := [largest] }
    "user340169" (List.nodup_singleton _) (List.nodup_singleton _) hlater hearlier
    (by decide +kernel)
  have hunread : Achievement.SavedProgress.read? largest.id
      (saveProgress { achievements := [largestPlayed] } "user340169") = none := by
    rw [← Option.isNone_iff_eq_none]
    decide +kernel
  rw [loadProgress, restoreAll_of_read?_eq_none (by simpa using hunread)] at hresumes
  have hhits := (List.forall₂_cons.mp hresumes).1.restored largestPlayed
    (List.mem_singleton_self _) rfl
  exact absurd hhits (by decide +kernel)

end Session

end AchievementLogic
