import AchievementLogic.Proofs.Presence.DisplayLines

/-!
# The lookup sections

A lookup section gathers a table from its lines until an empty line or the end of the text closes it.
Which tables a list of lines makes follows from the lines alone; a script holds the tables of its
text, and where several have one name, the last of them.
-/

namespace AchievementLogic.Presence

namespace Section

def after (current : Section) (lines : List String) : Section := lines.foldl next current

/-- The table that is being gathered. -/
def open? : Section → Option Lookup
  | .lookup table => some table
  | _ => none

/-- The table that a line closes: an empty line closes the one that is being gathered. -/
def closing? (current : Section) (line : String) : Option Lookup :=
  if line.isEmpty then current.open? else none

theorem closing?_of_open?_eq_none {current : Section} (hopen : current.open? = none)
    (line : String) : current.closing? line = none := by
  rw [closing?, hopen, ite_self]

/-- The tables that a list of lines closes, in their order. -/
def closed : Section → List String → List Lookup
  | _, [] => []
  | current, line :: others => (current.closing? line).toList ++ closed (current.next line) others

/-- All tables that a list of lines makes; the end of a text closes the last one. -/
def tables (current : Section) (lines : List String) : List Lookup :=
  current.closed lines ++ (current.after lines).open?.toList

theorem after_append (current : Section) (first later : List String) :
    current.after (first ++ later) = (current.after first).after later :=
  List.foldl_append

theorem closed_append (current : Section) (first later : List String) :
    current.closed (first ++ later) =
      current.closed first ++ (current.after first).closed later := by
  induction first generalizing current with
  | nil => rfl
  | cons line others ih =>
      rw [List.cons_append, closed, closed, ih, List.append_assoc]
      rfl

theorem tables_append (current : Section) (first later : List String) :
    current.tables (first ++ later) =
      current.closed first ++ (current.after first).tables later := by
  rw [tables, tables, closed_append, after_append, List.append_assoc]

theorem tables_cons (current : Section) (line : String) (others : List String) :
    current.tables (line :: others) =
      (current.closing? line).toList ++ (current.next line).tables others := by
  rw [← List.singleton_append, tables_append, closed, closed, List.append_nil]
  rfl

/-! ## The lines of one section -/

theorem next_lookup {line : String} (hline : line.isEmpty = false) (table : Lookup) :
    (Section.lookup table).next line = .lookup (table.addLine line) := by
  rw [next, Script.readLine, hline]
  rfl

theorem next_lookup_empty (table : Lookup) : (Section.lookup table).next "" = .outside := rfl

/-- An empty line means nothing outside of all sections. -/
theorem next_outside_empty : Section.outside.next "" = .outside := rfl

/-- A lookup section gathers the lines before the first empty one. -/
theorem tables_lookup (table : Lookup) (lines : List String) :
    (Section.lookup table).tables lines =
      (lines.takeWhile (!·.isEmpty)).foldl Lookup.addLine table ::
        Section.outside.tables (lines.dropWhile (!·.isEmpty)) := by
  induction lines generalizing table with
  | nil => rfl
  | cons line others ih =>
      cases hline : line.isEmpty with
      | false =>
          rw [tables_cons, next_lookup hline, closing?, hline, ih]
          simp [hline]
      | true =>
          obtain rfl := String.isEmpty_iff.mp hline
          rw [tables_cons, next_lookup_empty]
          simp [closing?, open?, tables_cons, next_outside_empty]

theorem tables_replicate_empty (emptyLines : Nat) :
    Section.outside.tables (List.replicate emptyLines "") = [] := by
  induction emptyLines with
  | zero => rfl
  | succ emptyLines ih =>
      rw [List.replicate_succ, tables_cons, next_outside_empty, ih]
      rfl

/-- Empty lines alone may follow the lines of a section. -/
theorem tables_lookup_append {lines : List String} (hlines : ∀ line ∈ lines, line.isEmpty = false)
    (table : Lookup) (emptyLines : Nat) :
    (Section.lookup table).tables (lines ++ List.replicate emptyLines "") =
      [lines.foldl Lookup.addLine table] := by
  have hkept : ∀ line ∈ lines, (!line.isEmpty) = true := by simpa using hlines
  have htake : (List.replicate emptyLines "").takeWhile (!·.isEmpty) = [] := by
    cases emptyLines <;> rfl
  have hdrop : (List.replicate emptyLines "").dropWhile (!·.isEmpty) =
      List.replicate emptyLines "" := by
    cases emptyLines <;> rfl
  rw [tables_lookup, List.takeWhile_append_of_pos hkept, List.dropWhile_append_of_pos hkept,
    htake, hdrop, List.append_nil, tables_replicate_empty]

end Section

/-! ## The tables of a script -/

namespace Script

theorem lookups_readHead (script : Script) (line : String) :
    (script.readHead line).1.lookups = script.lookups := by
  unfold readHead
  split <;> rfl

theorem lookups_readDisplay (script : Script) (line : String) :
    (script.readDisplay line).1.lookups = script.lookups := by
  unfold readDisplay
  split
  · rfl
  · split <;> rfl

/-- A line adds the table that it closes. -/
theorem lookups_readLine (script : Script) (current : Section) (line : String) :
    (readLine (script, current) line).1.lookups =
      (current.closing? line).toList.map (fun table => (table.name, table)) ++ script.lookups := by
  cases current with
  | outside =>
      rw [Section.closing?_of_open?_eq_none rfl]
      exact lookups_readHead script line
  | lookup table =>
      simp only [readLine, Section.closing?]
      split <;> rfl
  | format name =>
      rw [Section.closing?_of_open?_eq_none rfl, readLine]
      split
      · rfl
      · exact lookups_readHead script line
  | display =>
      rw [Section.closing?_of_open?_eq_none rfl]
      exact lookups_readDisplay script line

/-- Tables are put in front of those that were closed before them, each under its name. -/
theorem lookups_foldl_readLine (lines : List String) (script : Script) (current : Section) :
    (lines.foldl readLine (script, current)).1.lookups =
      ((current.closed lines).map fun table => (table.name, table)).reverse ++ script.lookups := by
  induction lines generalizing script current with
  | nil => rfl
  | cons line others ih =>
      rw [foldl_readLine_cons, ih, lookups_readLine, Section.closed, List.map_append,
        List.reverse_append, List.append_assoc]
      cases current.closing? line <;> rfl

theorem foldl_readLine_snd (lines : List String) (script : Script) (current : Section) :
    (lines.foldl readLine (script, current)).2 = current.after lines := by
  induction lines generalizing script current with
  | nil => rfl
  | cons line others ih =>
      rw [foldl_readLine_cons, ih]
      rfl

theorem lookups_finish (state : Script × Section) :
    (finish state).lookups =
      state.2.open?.toList.map (fun table => (table.name, table)) ++ state.1.lookups := by
  obtain ⟨script, current⟩ := state
  cases current <;> rfl

/-- A script holds the tables of its text, later ones first. -/
theorem lookups_ofText (text : String) :
    (ofText text).lookups =
      ((Section.outside.tables (cleanLines text)).map fun table => (table.name, table)).reverse := by
  rw [ofText_eq, lookups_finish, foldl_readLine_snd, lookups_foldl_readLine, Section.tables,
    List.map_append, List.reverse_append, List.append_nil]
  cases (Section.outside.after (cleanLines text)).open? <;> rfl

theorem lookup_map_name (tables : List Lookup) (name : String) :
    (tables.map fun table => (table.name, table)).lookup name =
      tables.find? (·.name = name) := by
  induction tables with
  | nil => rfl
  | cons table others ih =>
      have hname : (name == table.name) = decide (table.name = name) := by
        rw [Bool.eq_iff_iff, beq_iff_eq, decide_eq_true_iff]
        exact eq_comm
      rw [List.map_cons, List.lookup_cons, List.find?_cons, ih, hname]

/-- A name stands for the last table of the text with that name. -/
theorem lookup?_ofText (text name : String) :
    (ofText text).lookup? name =
      (Section.outside.tables (cleanLines text)).reverse.find? (·.name = name) := by
  rw [lookup?, lookups_ofText, ← List.map_reverse, lookup_map_name]

end Script

end AchievementLogic.Presence
