import AchievementLogic.Leaderboard.Basic
import Mathlib.Data.List.DropRight
import Mathlib.Data.List.Induction
import Mathlib.Data.List.Nodup

/-!
# What a ranking holds

Rows are submitted to a ranking, and it is sorted and cleared in between.  Whatever the order of all
that, it holds of each rank the row that was submitted first since it was last cleared.  Sorting
keeps the rows, and ranks that are never the same come out strictly ascending.
-/

namespace AchievementLogic.Leaderboard

namespace Ranking

inductive Edit
  | submit (row : Rank)
  | sort
  | clear
deriving DecidableEq, Repr

namespace Edit

def row? : Edit → Option Rank
  | submit row => some row
  | _ => none

/-- The rows that were submitted after the last time the ranking was cleared. -/
def submitted (edits : List Edit) : List Rank :=
  (edits.rtakeWhile (· ≠ clear)).filterMap row?

theorem submitted_append_submit (edits : List Edit) (row : Rank) :
    submitted (edits ++ [submit row]) = submitted edits ++ [row] := by
  simp [submitted, row?]

theorem submitted_append_sort (edits : List Edit) :
    submitted (edits ++ [sort]) = submitted edits := by
  simp [submitted, row?]

theorem submitted_append_clear (edits : List Edit) : submitted (edits ++ [clear]) = [] := by
  simp [submitted]

end Edit

/-- A ranking has no rank twice and holds of each rank the first of some rows, and nothing else. -/
structure HoldsFirst (ranking : Ranking) (rows : List Rank) : Prop where
  distinct : (ranking.map Rank.rank).Nodup
  mem_iff : ∀ row, row ∈ ranking ↔ rows.find? (·.rank == row.rank) = some row

theorem holdsFirst_nil : HoldsFirst [] [] := ⟨List.nodup_nil, by simp⟩

theorem any_rank_iff (ranking : Ranking) (rank : UInt32) :
    ranking.any (·.rank == rank) = true ↔ rank ∈ ranking.map Rank.rank := by
  simp

theorem submit_of_mem {ranking : Ranking} {row : Rank}
    (htaken : row.rank ∈ ranking.map Rank.rank) : submit ranking row = ranking :=
  if_pos ((any_rank_iff ranking row.rank).mpr htaken)

theorem submit_of_notMem {ranking : Ranking} {row : Rank}
    (hfree : row.rank ∉ ranking.map Rank.rank) : submit ranking row = ranking ++ [row] :=
  if_neg (mt (any_rank_iff ranking row.rank).mp hfree)

/-- A later row is found if it has the rank and no earlier row has it. -/
theorem find?_rank_append_singleton (rows : List Rank) (row : Rank) (rank : UInt32) :
    (rows ++ [row]).find? (·.rank == rank) =
      (rows.find? (·.rank == rank)).or (if row.rank = rank then some row else none) := by
  rw [List.find?_append]
  by_cases hrank : row.rank = rank <;> simp [hrank]

theorem perm_sort (ranking : Ranking) : (sort ranking).Perm ranking := List.mergeSort_perm _ _

/-- Ranks that are never the same are strictly ascending when they are sorted. -/
theorem pairwise_lt_sort {ranking : Ranking} (hdistinct : (ranking.map Rank.rank).Nodup) :
    ((sort ranking).map Rank.rank).Pairwise (· < ·) := by
  have htrans (first second third : Rank) (hfirst : decide (first.rank ≤ second.rank) = true)
      (hsecond : decide (second.rank ≤ third.rank) = true) :
      decide (first.rank ≤ third.rank) = true :=
    decide_eq_true (UInt32.le_trans (of_decide_eq_true hfirst) (of_decide_eq_true hsecond))
  have htotal (left right : Rank) :
      (decide (left.rank ≤ right.rank) || decide (right.rank ≤ left.rank)) = true := by
    simpa using UInt32.le_total left.rank right.rank
  have hle : ((sort ranking).map Rank.rank).Pairwise (· ≤ ·) :=
    List.pairwise_map.mpr ((List.pairwise_mergeSort htrans htotal ranking).imp of_decide_eq_true)
  have hne : ((sort ranking).map Rank.rank).Pairwise (· ≠ ·) :=
    ((perm_sort ranking).map Rank.rank).nodup_iff.mpr hdistinct
  exact (hle.and hne).imp fun hrank => UInt32.lt_of_le_of_ne hrank.1 hrank.2

namespace HoldsFirst

variable {ranking : Ranking} {rows : List Rank}

/-- A rank is free as long as no row with it was submitted. -/
theorem find?_eq_none_iff (hfirst : HoldsFirst ranking rows) (rank : UInt32) :
    rows.find? (·.rank == rank) = none ↔ rank ∉ ranking.map Rank.rank := by
  constructor
  · intro hnone hmem
    obtain ⟨held, hheld, rfl⟩ := List.mem_map.mp hmem
    have hfound := (hfirst.mem_iff held).mp hheld
    rw [hnone] at hfound
    cases hfound
  · intro hfree
    rw [← Option.not_isSome_iff_eq_none]
    intro hsome
    obtain ⟨found, hfound⟩ := Option.isSome_iff_exists.mp hsome
    have hrank : found.rank = rank := by simpa using List.find?_some hfound
    subst hrank
    exact hfree (List.mem_map_of_mem ((hfirst.mem_iff found).mpr hfound))

/-- A row of a rank that came before is not the first one. -/
theorem append_of_mem (hfirst : HoldsFirst ranking rows) {row : Rank}
    (htaken : row.rank ∈ ranking.map Rank.rank) : HoldsFirst ranking (rows ++ [row]) := by
  refine ⟨hfirst.distinct, fun other => ?_⟩
  rw [hfirst.mem_iff, find?_rank_append_singleton]
  by_cases hrank : row.rank = other.rank
  · rw [hrank] at htaken
    have hsome := (hfirst.find?_eq_none_iff other.rank).not_left.mpr htaken
    obtain ⟨found, hfound⟩ := Option.ne_none_iff_exists'.mp hsome
    rw [hfound, Option.some_or]
  · rw [if_neg hrank, Option.or_none]

/-- A row whose rank is free is the first one with that rank. -/
theorem append_of_notMem (hfirst : HoldsFirst ranking rows) {row : Rank}
    (hfree : row.rank ∉ ranking.map Rank.rank) : HoldsFirst (ranking ++ [row]) (rows ++ [row]) := by
  constructor
  · rw [List.map_append, List.map_singleton, ← List.concat_eq_append]
    exact hfirst.distinct.concat hfree
  · intro other
    rw [List.mem_append, List.mem_singleton, hfirst.mem_iff, find?_rank_append_singleton]
    by_cases hrank : row.rank = other.rank
    · have hnone := (hfirst.find?_eq_none_iff other.rank).mpr (hrank ▸ hfree)
      simp [hnone, hrank, eq_comm]
    · have hother : other ≠ row := fun hsame => hrank (congrArg Rank.rank hsame).symm
      simp [hrank, hother]

theorem submit (hfirst : HoldsFirst ranking rows) (row : Rank) :
    HoldsFirst (Ranking.submit ranking row) (rows ++ [row]) := by
  by_cases htaken : row.rank ∈ ranking.map Rank.rank
  · rw [submit_of_mem htaken]
    exact hfirst.append_of_mem htaken
  · rw [submit_of_notMem htaken]
    exact hfirst.append_of_notMem htaken

theorem sort (hfirst : HoldsFirst ranking rows) : HoldsFirst (Ranking.sort ranking) rows := by
  have hperm := perm_sort ranking
  refine ⟨(hperm.map Rank.rank).nodup_iff.mpr hfirst.distinct, fun row => ?_⟩
  rw [hperm.mem_iff]
  exact hfirst.mem_iff row

end HoldsFirst

end Ranking

open Ranking

variable {leaderboard : Leaderboard}

def edit (leaderboard : Leaderboard) : Edit → Leaderboard
  | .submit row => leaderboard.submitRank row
  | .sort => leaderboard.sortRanking
  | .clear => leaderboard.clearRanking

def afterEdits (leaderboard : Leaderboard) (edits : List Edit) : Leaderboard :=
  edits.foldl edit leaderboard

theorem afterEdits_append_singleton (leaderboard : Leaderboard) (edits : List Edit) (last : Edit) :
    leaderboard.afterEdits (edits ++ [last]) = (leaderboard.afterEdits edits).edit last :=
  List.foldl_concat ..

theorem ranking_ofText (id : UInt32) (text : String) (format : Format) :
    (ofText id text format).ranking = [] := by
  unfold ofText
  split <;> rfl

/-- After any edits an empty ranking holds of each rank the first row since it was cleared.  The
induction takes the last edit off. -/
theorem holdsFirst_afterEdits (hnew : leaderboard.ranking = []) (edits : List Edit) :
    HoldsFirst (leaderboard.afterEdits edits).ranking (Edit.submitted edits) := by
  induction edits using List.reverseRecOn with
  | nil => exact hnew ▸ holdsFirst_nil
  | append_singleton edits last ih =>
      rw [afterEdits_append_singleton]
      cases last with
      | submit row =>
          rw [Edit.submitted_append_submit]
          exact ih.submit row
      | sort =>
          rw [Edit.submitted_append_sort]
          exact ih.sort
      | clear =>
          rw [Edit.submitted_append_clear]
          exact holdsFirst_nil

/-- However a new ranking is edited, no rank is in it twice, and its rows are of each rank the one
that was submitted first since it was last cleared.  When it is sorted next, it keeps these rows and
has the ranks strictly ascending. -/
theorem ranking_afterEdits (hnew : leaderboard.ranking = []) (edits : List Edit) :
    let ranking := (leaderboard.afterEdits edits).ranking
    let sorted := (leaderboard.afterEdits (edits ++ [.sort])).ranking
    (ranking.map Rank.rank).Nodup ∧
    (∀ row, row ∈ ranking ↔ (Edit.submitted edits).find? (·.rank == row.rank) = some row) ∧
    (sorted.map Rank.rank).Pairwise (· < ·) ∧ sorted.Perm ranking := by
  intro ranking sorted
  obtain ⟨hdistinct, hmem⟩ := holdsFirst_afterEdits hnew edits
  have hsorted : sorted = Ranking.sort ranking :=
    congrArg Leaderboard.ranking (afterEdits_append_singleton leaderboard edits .sort)
  rw [hsorted]
  exact ⟨hdistinct, hmem, pairwise_lt_sort hdistinct, perm_sort ranking⟩

/-- A rank from before the ranking was cleared, one that is submitted twice with the ranking sorted
in between, and a lower one at the end. -/
def rivalry : List Edit :=
  [.submit ⟨2, "George", 100, 0⟩, .clear, .submit ⟨5, "Roger", 50, 1⟩, .submit ⟨2, "Jane", 80, 2⟩,
    .sort, .submit ⟨5, "Betty", 60, 3⟩, .submit ⟨1, "Paul", 90, 4⟩]

theorem ranking_afterEdits_rivalry :
    let leaderboard := ofText 1 "" .value
    let ranking := (leaderboard.afterEdits rivalry).ranking
    let sorted := (leaderboard.afterEdits (rivalry ++ [.sort])).ranking
    leaderboard.ranking = [] ∧ ⟨5, "Roger", 50, 1⟩ ∈ ranking ∧ ⟨5, "Betty", 60, 3⟩ ∉ ranking ∧
      ⟨2, "George", 100, 0⟩ ∉ ranking ∧ (sorted.map Rank.rank).Pairwise (· < ·) ∧
      sorted.Perm ranking := by
  intro leaderboard ranking sorted
  have hnew : leaderboard.ranking = [] := ranking_ofText 1 "" .value
  obtain ⟨-, hmem, hsorted⟩ := ranking_afterEdits hnew rivalry
  exact ⟨hnew, (hmem _).mpr (by decide), mt (hmem _).mp (by decide), mt (hmem _).mp (by decide),
    hsorted⟩

end AchievementLogic.Leaderboard
