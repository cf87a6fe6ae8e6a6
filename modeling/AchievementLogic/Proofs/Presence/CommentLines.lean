import AchievementLogic.Proofs.Presence.LookupSections
import AchievementLogic.Proofs.Presence.TextLines
import AchievementLogic.Proofs.Text.Bytes

/-!
# Lines that are a comment

A line that is only a comment reads as an empty one.  Outside of all sections and in the display
section an empty line means nothing, so that such a comment changes nothing there.  In a lookup
section it closes the table: the lines behind it are read outside of all sections, and the table goes
without their texts.
-/

namespace AchievementLogic.Presence

open Text

/-- A text with a comment as a further line between two parts of it. -/
def withComment (before comment after : String) : String :=
  before ++ "\n" ++ ("//" ++ comment ++ "\n" ++ after)

namespace Script

theorem stripComment_of_slashes (letters : List Char) :
    stripComment (String.ofList ('/' :: '/' :: letters)) = "" := by
  have hslash : String.utf8EncodeChar '/' = [47] := by decide
  have hbytes : bytesOf (String.ofList ('/' :: '/' :: letters)) =
      47 :: 47 :: letters.flatMap String.utf8EncodeChar := by
    rw [bytesOf_ofList_eq_flatMap, List.flatMap_cons, List.flatMap_cons, hslash]
    rfl
  have hstart : commentStart? (47 :: 47 :: letters.flatMap String.utf8EncodeChar) = some 0 := rfl
  have hnothing : trimEnd ((ofBytes? []).getD "") = "" := by decide
  simp only [stripComment, hbytes, hstart, List.take_zero, hnothing]

/-- Nothing is left of a line that is a comment. -/
theorem cleanLine_comment (comment : String) : cleanLine ("//" ++ comment).toList = "" := by
  have hletters : ("//" ++ comment).toList = '/' :: '/' :: comment.toList := by simp
  rw [hletters, cleanLine]
  split
  next hlast =>
    cases hcomment : comment.toList with
    | nil =>
        rw [hcomment] at hlast
        exact absurd (Option.some.inj hlast) (by decide)
    | cons letter others => exact stripComment_of_slashes _
  next => exact stripComment_of_slashes _

variable {comment : String} (hcomment : '\n' ∉ comment.toList)

include hcomment

theorem cleanLines_withComment (before after : String) :
    cleanLines (withComment before comment after) = cleanLines before ++ "" :: cleanLines after := by
  have hline : '\n' ∉ ("//" ++ comment).toList := by
    simp [hcomment]
  rw [withComment, cleanLines_lineFeed, cleanLines_append hline, cleanLine_comment]

/-- A comment alone on its line is an empty line. -/
theorem ofText_withComment (before after : String) :
    ofText (withComment before comment after) = ofText (before ++ "\n" ++ ("\n" ++ after)) := by
  have hempty : cleanLines ("\n" ++ after) = "" :: cleanLines after := by
    have happend := cleanLines_lineFeed "" after
    rwa [String.empty_append] at happend
  have hlines : cleanLines (withComment before comment after) =
      cleanLines (before ++ "\n" ++ ("\n" ++ after)) := by
    rw [cleanLines_withComment hcomment, cleanLines_lineFeed, hempty]
  rw [ofText_eq, ofText_eq, hlines]

/-- Outside of all sections and in the display section a comment line changes nothing. -/
theorem ofText_withComment_elsewhere {before : String} (after : String)
    (hsection : Section.outside.after (cleanLines before) = .outside ∨
      Section.outside.after (cleanLines before) = .display) :
    ofText (withComment before comment after) = ofText (before ++ "\n" ++ after) := by
  have hkept : readLine ((cleanLines before).foldl readLine ({}, .outside)) "" =
      (cleanLines before).foldl readLine ({}, .outside) := by
    -- Only the section of the state matters, whatever script the lines before have made.
    rw [← foldl_readLine_snd (cleanLines before) {} .outside] at hsection
    generalize (cleanLines before).foldl readLine ({}, .outside) = state at hsection ⊢
    obtain ⟨script, current⟩ := state
    rcases hsection with houtside | hdisplay
    · obtain rfl : current = .outside := houtside
      rfl
    · obtain rfl : current = .display := hdisplay
      rfl
  rw [ofText_eq, ofText_eq, cleanLines_withComment hcomment, cleanLines_lineFeed,
    List.foldl_append, List.foldl_append, List.foldl_cons, hkept]

end Script

/-! ## Comments in a lookup section -/

namespace Lookup

theorem name_addLine (table : Lookup) (line : String) : (table.addLine line).name = table.name := by
  unfold addLine
  split
  · rfl
  · simp only
    split
    · rfl
    · split <;> rfl

theorem name_foldl_addLine (table : Lookup) (lines : List String) :
    (lines.foldl addLine table).name = table.name := by
  induction lines generalizing table with
  | nil => rfl
  | cons line others ih => rw [List.foldl_cons, ih, name_addLine]

/-- The text of a value in the last of some tables with a name, if there is one. -/
def shownBy? (tables : List Lookup) (name : String) (value : UInt32) : Option String :=
  (tables.reverse.find? (·.name = name)).map (·.get value)

/-- A table counts where no later one has its name. -/
theorem shownBy?_append_cons (before later : List Lookup) (table : Lookup) (name : String)
    (value : UInt32) :
    shownBy? (before ++ table :: later) name value =
      (shownBy? later name value).or
        (if table.name = name then some (table.get value) else shownBy? before name value) := by
  rw [shownBy?, List.reverse_append, List.reverse_cons, List.append_assoc, List.singleton_append,
    List.find?_append, List.find?_cons, shownBy?, shownBy?, Option.map_or]
  by_cases hname : table.name = name
  · rw [if_pos hname, decide_eq_true hname]
    rfl
  · rw [if_neg hname, decide_eq_false hname]

theorem shownBy?_eq_none_iff {tables : List Lookup} {name : String} {value : UInt32} :
    shownBy? tables name value = none ↔ ∀ table ∈ tables, table.name ≠ name := by
  simp [shownBy?]

/-- Two tables of one name can stand for each other where a later one hides them, and else where
they have the same texts. -/
theorem shownBy?_replace_iff (before later : List Lookup) {left right : Lookup}
    (hname : left.name = right.name) :
    (∀ name value, shownBy? (before ++ left :: later) name value =
        shownBy? (before ++ right :: later) name value) ↔
      (∃ other ∈ later, other.name = left.name) ∨ ∀ value, left.get value = right.get value := by
  constructor
  · intro hsame
    by_cases hhidden : ∃ other ∈ later, other.name = left.name
    · exact .inl hhidden
    · refine .inr fun value => ?_
      have hvisible : shownBy? later left.name value = none :=
        shownBy?_eq_none_iff.mpr fun table hmem hother => hhidden ⟨table, hmem, hother⟩
      have hvalue := hsame left.name value
      rw [shownBy?_append_cons, shownBy?_append_cons, hvisible, if_pos rfl, if_pos hname.symm] at hvalue
      exact Option.some.inj hvalue
  · intro hcase name value
    -- For another name neither table counts, and for theirs a later one does or their texts agree.
    rw [shownBy?_append_cons, shownBy?_append_cons, ← hname]
    by_cases hleft : left.name = name
    · rw [if_pos hleft, if_pos hleft]
      rcases hcase with ⟨other, hmem, hother⟩ | htexts
      · have hshown : shownBy? later name value ≠ none := by
          intro hnone
          exact shownBy?_eq_none_iff.mp hnone other hmem (hother.trans hleft)
        obtain ⟨text, htext⟩ := Option.ne_none_iff_exists'.mp hshown
        rw [htext, Option.some_or, Option.some_or]
      · rw [htexts value]
    · rw [if_neg hleft, if_neg hleft]

end Lookup

namespace Section

/-- Lines that mean nothing outside of all sections. -/
theorem tables_outside_append {lines : List String}
    (hlines : ∀ line ∈ lines, Section.outside.next line = .outside) (later : List String) :
    Section.outside.tables (lines ++ later) = Section.outside.tables later := by
  induction lines with
  | nil => rfl
  | cons line others ih =>
      obtain ⟨hline, hothers⟩ := List.forall_mem_cons.mp hlines
      rw [List.cons_append, tables_cons, hline, closing?_of_open?_eq_none rfl, ih hothers]
      rfl

end Section

namespace Script

/-- The lines that go on in a section, and the lines behind its end. -/
def sectionLines (after : String) : List String := (cleanLines after).takeWhile (!·.isEmpty)

def laterLines (after : String) : List String := (cleanLines after).dropWhile (!·.isEmpty)

theorem sectionLines_append_laterLines (after : String) :
    sectionLines after ++ laterLines after = cleanLines after :=
  List.takeWhile_append_dropWhile

theorem map_lookup?_ofText (text name : String) (value : UInt32) :
    ((ofText text).lookup? name).map (·.get value) =
      Lookup.shownBy? (Section.outside.tables (cleanLines text)) name value := by
  rw [lookup?_ofText, Lookup.shownBy?]

section InLookup

variable {before : String} {table : Lookup}
variable (hopen : Section.outside.after (cleanLines before) = .lookup table)

include hopen

theorem tables_lineFeed (after : String) :
    Section.outside.tables (cleanLines (before ++ "\n" ++ after)) =
      Section.outside.closed (cleanLines before) ++
        (sectionLines after).foldl Lookup.addLine table ::
          Section.outside.tables (laterLines after) := by
  rw [cleanLines_lineFeed, Section.tables_append, hopen, Section.tables_lookup, sectionLines,
    laterLines]

theorem tables_withComment {comment : String} (hcomment : '\n' ∉ comment.toList) (after : String) :
    Section.outside.tables (cleanLines (withComment before comment after)) =
      Section.outside.closed (cleanLines before) ++
        table :: Section.outside.tables (cleanLines after) := by
  rw [cleanLines_withComment hcomment, Section.tables_append, hopen, Section.tables_cons,
    Section.next_lookup_empty]
  rfl

end InLookup

/-- A comment line in a lookup section is an empty line: it closes the table as far as that was
gathered, and the lines behind it are read outside of all sections.  Where those begin no section,
the script shows the same texts exactly if a later table of the same name hides the table, or the
lines behind the comment give no value another text. -/
theorem lookups_withComment {before comment after : String} {table : Lookup}
    (hcomment : '\n' ∉ comment.toList)
    (hopen : Section.outside.after (cleanLines before) = .lookup table) :
    ofText (withComment before comment after) = ofText (before ++ "\n" ++ ("\n" ++ after)) ∧
    (Section.outside.tables (cleanLines (withComment before comment after)) =
        Section.outside.closed (cleanLines before) ++
          table :: Section.outside.tables (cleanLines after) ∧
      Section.outside.tables (cleanLines (before ++ "\n" ++ after)) =
        Section.outside.closed (cleanLines before) ++
          (sectionLines after).foldl Lookup.addLine table ::
            Section.outside.tables (laterLines after)) ∧
    ((∀ line ∈ sectionLines after, Section.outside.next line = .outside) →
      ((∀ name value, ((ofText (withComment before comment after)).lookup? name).map (·.get value) =
          ((ofText (before ++ "\n" ++ after)).lookup? name).map (·.get value)) ↔
        (∃ other ∈ Section.outside.tables (laterLines after), other.name = table.name) ∨
          ∀ value, table.get value =
            ((sectionLines after).foldl Lookup.addLine table).get value)) := by
  have hwith := tables_withComment hopen hcomment after
  have hwithout := tables_lineFeed hopen after
  refine ⟨ofText_withComment hcomment before after, ⟨hwith, hwithout⟩, fun hlines => ?_⟩
  have hname := (Lookup.name_foldl_addLine table (sectionLines after)).symm
  have hbehind : Section.outside.tables (cleanLines after) =
      Section.outside.tables (laterLines after) := by
    rw [← sectionLines_append_laterLines, Section.tables_outside_append hlines]
  rw [hbehind] at hwith
  simp only [map_lookup?_ofText, hwith, hwithout]
  exact Lookup.shownBy?_replace_iff _ _ hname

def firstPlaces : String := "Lookup:Place\n1=Town"

theorem after_firstPlaces : Section.outside.after (cleanLines firstPlaces) =
    .lookup { name := "Place", entries := [(1, "Town")] } := by
  have hlines : cleanLines firstPlaces = ["Lookup:Place", "1=Town"] := by decide
  rw [hlines]
  rfl

/-- Behind the comment stands an entry that the table goes without, and no later table hides it. -/
theorem lookups_withComment_firstPlaces :
    ¬∀ name value,
      ((ofText (withComment firstPlaces " Caves" "2=Cave")).lookup? name).map (·.get value) =
        ((ofText (firstPlaces ++ "\n" ++ "2=Cave")).lookup? name).map (·.get value) := by
  obtain ⟨-, -, hexact⟩ := @lookups_withComment firstPlaces " Caves" "2=Cave" _ (by decide)
    after_firstPlaces
  have hsection : sectionLines "2=Cave" = ["2=Cave"] := by decide
  have hlater : laterLines "2=Cave" = [] := by decide
  have hmeaningless : ∀ line ∈ sectionLines "2=Cave", Section.outside.next line = .outside := by
    rw [hsection, List.forall_mem_singleton]
    rfl
  rw [hexact hmeaningless, hlater]
  rintro (⟨other, hmem, -⟩ | htexts)
  · cases hmem
  · exact absurd (htexts 2) (by decide)

/-- A comment between two lines of a lookup section can change what the script shows. -/
theorem not_forall_lookups_withComment :
    ¬∀ before comment after table, '\n' ∉ comment.toList →
      Section.outside.after (cleanLines before) = .lookup table → sectionLines after ≠ [] →
      ∀ name value, ((ofText (withComment before comment after)).lookup? name).map (·.get value) =
        ((ofText (before ++ "\n" ++ after)).lookup? name).map (·.get value) := by
  intro hall
  have hcave := hall firstPlaces " Caves" "2=Cave" _ (by decide) after_firstPlaces
    (by decide) "Place" 2
  exact absurd hcave (by decide)

end Script

end AchievementLogic.Presence
