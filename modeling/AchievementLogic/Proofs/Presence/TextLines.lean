import AchievementLogic.Proofs.Presence.DisplayLines

/-!
# The lines of a text

Line feeds separate the lines of a text, so that texts joined by them have their lines one after the
other, and lines that hold none come back as they were joined.
-/

namespace AchievementLogic.Presence.Script

theorem splitLines_ne_nil (letters : List Char) : splitLines letters ≠ [] := by
  cases letters with
  | nil => exact List.cons_ne_nil _ _
  | cons letter others =>
      rw [splitLines]
      split
      · exact List.cons_ne_nil _ _
      · split <;> exact List.cons_ne_nil _ _

theorem splitLines_of_not_mem {letters : List Char} (hline : '\n' ∉ letters) :
    splitLines letters = [letters] := by
  induction letters with
  | nil => rfl
  | cons letter others ih =>
      obtain ⟨hletter, hothers⟩ := List.ne_and_not_mem_of_not_mem_cons hline
      rw [splitLines, if_neg hletter.symm, ih hothers]

/-- A line feed ends a line, whatever stands on either side of it. -/
theorem splitLines_lineFeed (before after : List Char) :
    splitLines (before ++ '\n' :: after) = splitLines before ++ splitLines after := by
  induction before with
  | nil => rfl
  | cons letter others ih =>
      rw [List.cons_append, splitLines, splitLines, ih]
      split
      · rfl
      · obtain ⟨first, lines, hlines⟩ := List.exists_cons_of_ne_nil (splitLines_ne_nil others)
        rw [hlines]
        rfl

theorem cleanLines_lineFeed (before after : String) :
    cleanLines (before ++ "\n" ++ after) = cleanLines before ++ cleanLines after := by
  have hletters : (before ++ "\n" ++ after).toList = before.toList ++ '\n' :: after.toList := by simp
  rw [cleanLines, hletters, splitLines_lineFeed, List.map_append, ← cleanLines, ← cleanLines]

theorem cleanLines_of_not_mem {line : String} (hline : '\n' ∉ line.toList) :
    cleanLines line = [cleanLine line.toList] := by
  rw [cleanLines, splitLines_of_not_mem hline, List.map_singleton]

theorem cleanLines_append {line : String} (hline : '\n' ∉ line.toList) (rest : String) :
    cleanLines (line ++ "\n" ++ rest) = cleanLine line.toList :: cleanLines rest := by
  rw [cleanLines_lineFeed, cleanLines_of_not_mem hline, List.singleton_append]

/-- A line that a script takes as it is. -/
structure IsClean (line : String) : Prop where
  noLineFeed : '\n' ∉ line.toList
  cleanLine_eq : cleanLine line.toList = line

theorem isClean_empty : IsClean "" := ⟨by decide, by decide⟩

/-- Lines that were joined are the lines of the text. -/
theorem cleanLines_intercalate {lines : List String} (hsome : lines ≠ [])
    (hclean : ∀ line ∈ lines, IsClean line) : cleanLines ("\n".intercalate lines) = lines := by
  induction lines with
  | nil => exact absurd rfl hsome
  | cons line others ih =>
      obtain ⟨hline, hothers⟩ := List.forall_mem_cons.mp hclean
      cases others with
      | nil =>
          rw [String.intercalate_singleton, cleanLines_of_not_mem hline.noLineFeed,
            hline.cleanLine_eq]
      | cons second rest =>
          rw [String.intercalate_cons_cons, cleanLines_append hline.noLineFeed, hline.cleanLine_eq,
            ih (List.cons_ne_nil _ _) hothers]

end AchievementLogic.Presence.Script
