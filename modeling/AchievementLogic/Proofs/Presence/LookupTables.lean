import AchievementLogic.Proofs.Presence.Escaping
import AchievementLogic.Proofs.Presence.LookupSections
import AchievementLogic.Proofs.Presence.TextLines
import AchievementLogic.Proofs.Text.WholeNumbers

/-!
# Lookup tables as texts

A table is written as a section of a script: a head with its name, a line for each of its entries
and one for all other values.  The keys have no marks of a script in them and the texts are escaped,
so that every line is read as it was meant, and the last entry of a value is the one that counts.
-/

namespace AchievementLogic.Presence

open Text

namespace Lookup

/-! ## Tables -/

/-- Dropping the entries of one value leaves the text of every other one. -/
theorem lookup_filter_ne (entries : List (UInt32 × String)) {value other : UInt32}
    (hne : other ≠ value) :
    (entries.filter (·.1 != value)).lookup other = entries.lookup other := by
  induction entries with
  | nil => rfl
  | cons entry others ih =>
      obtain ⟨key, text⟩ := entry
      rw [List.filter_cons, List.lookup_cons]
      by_cases hkey : key = value
      · have hother : (other == key) = false := beq_false_of_ne (hkey ▸ hne)
        simp only [hkey, bne_self_eq_false, Bool.false_eq_true, ↓reduceIte, ih]
        rw [← hkey, hother]
      · have hkept : (key != value) = true := bne_iff_ne.mpr hkey
        simp only [hkept, ↓reduceIte, List.lookup_cons, ih]

/-- A text that is given to a value stays away from all others. -/
theorem lookup_insert (table : Lookup) (value : UInt32) (text : String) (other : UInt32) :
    (table.insert value text).entries.lookup other =
      if other = value then some text else table.entries.lookup other := by
  rw [insert, List.lookup_cons]
  by_cases hother : other = value
  · rw [hother, beq_self_eq_true, if_pos rfl]
  · rw [beq_false_of_ne hother, if_neg hother]
    exact lookup_filter_ne table.entries hother

end Lookup

/-- An entry of a table, with a way to write its key. -/
structure Entry where
  key : String
  value : UInt32
  text : String

/-- The text of a value in a list of entries: that of the last one for it. -/
def textOf? (entries : List Entry) (value : UInt32) : Option String :=
  ((entries.filter (·.value = value)).getLast?).map (·.text)

namespace Lookup

def insertAll (table : Lookup) (entries : List Entry) : Lookup :=
  entries.foldl (fun table entry => table.insert entry.value entry.text) table

theorem insertAll_append (table : Lookup) (first later : List Entry) :
    table.insertAll (first ++ later) = (table.insertAll first).insertAll later :=
  List.foldl_append

/-- The last entry of a value is the one that counts. -/
theorem lookup_insertAll (table : Lookup) (entries : List Entry) (value : UInt32) :
    (table.insertAll entries).entries.lookup value =
      (textOf? entries value).or (table.entries.lookup value) := by
  -- The last entry was put in last, so that the induction takes them from the end.
  induction entries using List.reverseRecOn with
  | nil => rfl
  | append_singleton entries entry ih =>
      rw [insertAll_append, textOf?, List.filter_append]
      change ((table.insertAll entries).insert entry.value entry.text).entries.lookup value = _
      rw [lookup_insert, ih]
      by_cases hvalue : value = entry.value
      · subst hvalue
        simp
      · have hentry : ¬entry.value = value := fun heq => hvalue heq.symm
        simp [hvalue, hentry, textOf?]

theorem name_insertAll (table : Lookup) (entries : List Entry) :
    (table.insertAll entries).name = table.name ∧
      (table.insertAll entries).default? = table.default? := by
  induction entries generalizing table with
  | nil => exact ⟨rfl, rfl⟩
  | cons entry others ih => exact ih (table.insert entry.value entry.text)

end Lookup

/-! ## Keys -/

/-- The ways to write the key of a value: in decimal, or in hexadecimal after `0x`. -/
inductive IsKey (value : UInt32) : String → Prop
  | decimal {letters : List Char} (hnumeral : IsNumeral 10 letters value.toNat) :
      IsKey value (String.ofList letters)
  | hexadecimal {mark : Char} {letters : List Char} (hmark : mark = 'x' ∨ mark = 'X')
      (hnumeral : IsNumeral 16 letters value.toNat) :
      IsKey value (String.ofList ('0' :: mark :: letters))

theorem isKey_toString (value : UInt32) : IsKey value (toString value.toNat) := by
  rw [← String.ofList_toList (s := toString value.toNat)]
  exact .decimal (isNumeral_toString value.toNat)

theorem isKey_hexadecimal (value : UInt32) :
    IsKey value ("0x" ++ String.ofList (Nat.toDigits 16 value.toNat)) := by
  have hletters : "0x" ++ String.ofList (Nat.toDigits 16 value.toNat) =
      String.ofList ('0' :: 'x' :: Nat.toDigits 16 value.toNat) := by
    rw [← String.toList_inj]
    simp
  rw [hletters]
  exact .hexadecimal (.inl rfl) (isNumeral_toDigits (by decide) (by decide) value.toNat)

theorem wordOf?_of_isNumeral {base : ℕ} {letters : List Char} {value : UInt32}
    (hnumeral : IsNumeral base letters value.toNat) :
    wordOf? base (String.ofList letters) = some value := by
  have hplus : '+' ∉ letters := fun hmem => absurd (hnumeral.isAlphanum _ hmem) (by decide)
  rw [wordOf?, String.toList_ofList, natOf?_of_notMem hplus, natOfDigits?_of_isNumeral hnumeral,
    Option.bind_some, word?_toNat]

/-- However the key of a value is written, it is read as that value. -/
theorem IsKey.keyOf? {value : UInt32} {key : String} (hkey : IsKey value key) :
    Lookup.keyOf? key = some value := by
  cases hkey with
  | @decimal letters hnumeral =>
      -- The marks of hexadecimal keys are no digits of base ten, so that no decimal key has one.
      have hmark {mark : Char} (hdigit : digitValue? 10 mark = none) (digits : List Char) :
          letters ≠ '0' :: mark :: digits := by
        rintro rfl
        have hsome := hnumeral.isSome_digitValue? mark (by simp)
        rw [hdigit] at hsome
        cases hsome
      unfold Lookup.keyOf?
      rw [String.toList_ofList]
      split
      next digits => exact absurd rfl (hmark (by decide) digits)
      next digits => exact absurd rfl (hmark (by decide) digits)
      next => exact wordOf?_of_isNumeral hnumeral
  | hexadecimal hmark hnumeral =>
      unfold Lookup.keyOf?
      rw [String.toList_ofList]
      rcases hmark with rfl | rfl <;> exact wordOf?_of_isNumeral hnumeral

theorem IsKey.isAlphanum {value : UInt32} {key : String} (hkey : IsKey value key) :
    ∀ letter ∈ key.toList, letter.isAlphanum = true := by
  cases hkey with
  | decimal hnumeral =>
      rw [String.toList_ofList]
      exact hnumeral.isAlphanum
  | hexadecimal hmark hnumeral =>
      rw [String.toList_ofList, List.forall_mem_cons, List.forall_mem_cons]
      refine ⟨rfl, ?_, hnumeral.isAlphanum⟩
      rcases hmark with rfl | rfl <;> rfl

/-! ## Lines -/

def entryLine (key text : String) : String := key ++ "=" ++ escape text

/-- A text that stands on one line, with no carriage return at the end of it. -/
structure FitsLine (text : String) : Prop where
  noLineFeed : '\n' ∉ text.toList
  ending : text.toList.getLast? ≠ some '\r'

theorem isInert_of_notMem {text : String} (hescape : '\\' ∉ text.toList)
    (hslash : '/' ∉ text.toList) : ∀ byte ∈ bytesOf text, IsInert byte := by
  intro byte hmem
  constructor
  · rintro rfl
    exact hescape ((mem_bytesOf_iff (by decide)).mp hmem)
  · rintro rfl
    exact hslash ((mem_bytesOf_iff (by decide)).mp hmem)

theorem unescape_escapeLetters (letters : List Char) :
    unescape (escapeLetters letters) = letters := by
  induction letters with
  | nil => rfl
  | cons letter others ih =>
      have hstep : unescape (escapeLetters (letter :: others)) =
          letter :: unescape (escapeLetters others) := rfl
      rw [hstep, ih]

/-- The letters of keys: those of numbers and the mark of all other values. -/
def IsKeyLetter (letter : Char) : Prop := letter.isAlphanum = true ∨ letter = '*'

instance (letter : Char) : Decidable (IsKeyLetter letter) := inferInstanceAs (Decidable (_ ∨ _))

theorem IsKey.isKeyLetter {value : UInt32} {key : String} (hkey : IsKey value key) :
    ∀ letter ∈ key.toList, IsKeyLetter letter :=
  fun letter hmem => .inl (hkey.isAlphanum letter hmem)

theorem isKeyLetter_star : ∀ letter ∈ "*".toList, IsKeyLetter letter :=
  fun _ hmem => .inr (List.mem_singleton.mp hmem)

section Lines

variable {key text : String} (hkey : ∀ letter ∈ key.toList, IsKeyLetter letter)

include hkey

theorem notMem_key {letter : Char} (hletter : ¬IsKeyLetter letter) : letter ∉ key.toList :=
  fun hmem => hletter (hkey letter hmem)

theorem isClean_entryLine (htext : FitsLine text) : Script.IsClean (entryLine key text) := by
  have hlineFeed := notMem_key hkey (by decide : ¬IsKeyLetter '\n')
  have hescape := notMem_key hkey (by decide : ¬IsKeyLetter '\\')
  have hslash := notMem_key hkey (by decide : ¬IsKeyLetter '/')
  have htextLineFeed := not_mem_escape htext.noLineFeed
  have hinert : ∀ byte ∈ bytesOf (key ++ "="), IsInert byte :=
    isInert_of_notMem (by simpa using hescape) (by simpa using hslash)
  have hopening : (key ++ "=").toList.getLast? ≠ some '\r' := by
    rw [String.toList_append, List.getLast?_append]
    exact fun hlast => absurd (Option.some.inj hlast) (by decide)
  refine ⟨?_, Script.cleanLine_append_escape hinert hopening htext.ending⟩
  simp [entryLine, hlineFeed, htextLineFeed]

/-- The key of a line is read without blanks and its text without escapes. -/
theorem addLine_entryLine (table : Lookup) (text : String) :
    table.addLine (entryLine key text) =
      if key = "*" then table.setDefault text
      else (Lookup.keyOf? key).elim table fun value => table.insert value text := by
  have hmark := notMem_key hkey (by decide : ¬IsKeyLetter '=')
  have htrim : trim key = key := by
    apply trim_eq_self
    intro letter hmem
    rcases hkey letter hmem with halphanum | rfl
    · exact isBlank_of_isAlphanum halphanum
    · rfl
  have hletters : (entryLine key text).toList = key.toList ++ '=' :: (escape text).toList := by
    simp [entryLine]
  rw [Lookup.addLine, hletters, Script.splitOnce?_append hmark]
  simp only [String.ofList_toList, htrim, escape, String.toList_ofList, unescape_escapeLetters]
  cases Lookup.keyOf? key <;> rfl

end Lines

theorem isEmpty_entryLine (key text : String) : (entryLine key text).isEmpty = false := by
  rw [String.isEmpty_eq_false_iff]
  intro hempty
  have hletters := congrArg String.toList hempty
  simp [entryLine] at hletters

namespace Entry

def line (entry : Entry) : String := entryLine entry.key entry.text

/-- An entry whose key is a way to write its value, with a text that stands on one line. -/
structure IsPlain (entry : Entry) : Prop where
  isKey : IsKey entry.value entry.key
  fitsLine : FitsLine entry.text

theorem IsPlain.isClean_line {entry : Entry} (hplain : entry.IsPlain) :
    Script.IsClean entry.line :=
  isClean_entryLine hplain.isKey.isKeyLetter hplain.fitsLine

theorem IsPlain.addLine_line {entry : Entry} (hplain : entry.IsPlain) (table : Lookup) :
    table.addLine entry.line = table.insert entry.value entry.text := by
  have hstar : entry.key ≠ "*" := by
    intro hkey
    have halphanum := hplain.isKey.isAlphanum
    rw [hkey] at halphanum
    exact absurd (halphanum '*' (by decide)) (by decide)
  rw [line, addLine_entryLine hplain.isKey.isKeyLetter, if_neg hstar, hplain.isKey.keyOf?,
    Option.elim_some]

theorem foldl_addLine {entries : List Entry} (hentries : ∀ entry ∈ entries, entry.IsPlain)
    (table : Lookup) : (entries.map line).foldl Lookup.addLine table = table.insertAll entries := by
  induction entries generalizing table with
  | nil => rfl
  | cons entry others ih =>
      obtain ⟨hentry, hothers⟩ := List.forall_mem_cons.mp hentries
      rw [List.map_cons, List.foldl_cons, hentry.addLine_line, ih hothers]
      rfl

end Entry

/-! ## Sections -/

/-- A name without blanks at its ends and without marks of a script. -/
structure IsPlainName (name : String) : Prop where
  head : ∀ letter ∈ name.toList.head?, isBlank letter = false
  last : ∀ letter ∈ name.toList.getLast?, isBlank letter = false
  noMark : ∀ mark ∈ ['/', '\\', '\n', '\r'], mark ∉ name.toList

def headLine (name : String) : String := "Lookup:" ++ name

theorem after?_append (opening rest : String) : Script.after? opening (opening ++ rest) = some rest := by
  rw [Script.after?, String.toList_append, if_pos, ← String.length_toList, List.drop_left,
    String.ofList_toList]
  exact List.isPrefixOf_iff_prefix.mpr (List.prefix_append _ _)

namespace IsPlainName

variable {name : String} (hname : IsPlainName name)

include hname

theorem isClean_headLine : Script.IsClean (headLine name) := by
  have hescape := hname.noMark '\\' (by simp)
  have hslash := hname.noMark '/' (by simp)
  have hlineFeed := hname.noMark '\n' (by simp)
  have hreturn := hname.noMark '\r' (by simp)
  have hinert : ∀ byte ∈ bytesOf (headLine name), IsInert byte :=
    isInert_of_notMem (by simpa [headLine] using hescape) (by simpa [headLine] using hslash)
  have hlast : (headLine name).toList.getLast? ≠ some '\r' := by
    intro hlast
    have hmem := List.mem_of_getLast? hlast
    simp [headLine, hreturn] at hmem
  have hnothing : commentStart? [] = none := rfl
  have hnone := commentStart?_append_of_inert hinert hnothing
  rw [List.append_nil] at hnone
  exact ⟨by simp [headLine, hlineFeed], Script.cleanLine_of_none hlast hnone⟩

theorem next_headLine : Section.outside.next (headLine name) = .lookup { name } := by
  have htrim := trim_eq_self_of_ends hname.head hname.last
  rw [Section.next, Script.readLine, Script.readHead, headLine, after?_append]
  simp only [htrim]

end IsPlainName

def tableLines (name : String) (entries : List Entry) (default? : Option String) : List String :=
  headLine name :: (entries.map Entry.line ++ default?.toList.map (entryLine "*"))

/-- A script that holds a table, with any number of empty lines behind it. -/
def tableScript (name : String) (entries : List Entry) (default? : Option String)
    (emptyLines : ℕ) : String :=
  "\n".intercalate (tableLines name entries default? ++ List.replicate emptyLines "")

/-- The lines of a table make it. -/
theorem foldl_addLine_tableLines {entries : List Entry} (hentries : ∀ entry ∈ entries, entry.IsPlain)
    (table : Lookup) (default? : Option String) :
    (entries.map Entry.line ++ default?.toList.map (entryLine "*")).foldl Lookup.addLine table =
      { table.insertAll entries with default? := default?.or table.default? } := by
  have hsame := (Lookup.name_insertAll table entries).2
  rw [List.foldl_append, Entry.foldl_addLine hentries]
  cases default? with
  | none => rw [Option.none_or, ← hsame]; rfl
  | some text =>
      rw [Option.toList_some, List.map_singleton, List.foldl_cons, List.foldl_nil,
        addLine_entryLine isKeyLetter_star, if_pos rfl]
      rfl

section TableScript

variable {name : String} {entries : List Entry} {default? : Option String}
variable (hname : IsPlainName name) (hentries : ∀ entry ∈ entries, entry.IsPlain)
variable (hdefault : ∀ text ∈ default?, FitsLine text)

include hname hentries hdefault

theorem isClean_tableLines : ∀ line ∈ tableLines name entries default?, Script.IsClean line := by
  rw [tableLines, List.forall_mem_cons, List.forall_mem_append, List.forall_mem_map,
    List.forall_mem_map]
  refine ⟨hname.isClean_headLine, fun entry hmem => (hentries entry hmem).isClean_line, ?_⟩
  intro text hmem
  exact isClean_entryLine isKeyLetter_star (hdefault text (Option.mem_toList.mp hmem))

theorem cleanLines_tableScript (emptyLines : ℕ) :
    Script.cleanLines (tableScript name entries default? emptyLines) =
      tableLines name entries default? ++ List.replicate emptyLines "" := by
  apply Script.cleanLines_intercalate (List.append_ne_nil_of_left_ne_nil (List.cons_ne_nil _ _) _)
  rw [List.forall_mem_append]
  refine ⟨isClean_tableLines hname hentries hdefault, fun line hmem => ?_⟩
  rw [List.eq_of_mem_replicate hmem]
  exact Script.isClean_empty

/-- The script of a table makes that table and no other one, whatever empty lines end it. -/
theorem tables_tableScript (emptyLines : ℕ) :
    Section.outside.tables (Script.cleanLines (tableScript name entries default? emptyLines)) =
      [{ ({ name } : Lookup).insertAll entries with default? }] := by
  have hlines : ∀ line ∈ entries.map Entry.line ++ default?.toList.map (entryLine "*"),
      line.isEmpty = false := by
    rw [List.forall_mem_append, List.forall_mem_map, List.forall_mem_map]
    exact ⟨fun entry _ => isEmpty_entryLine entry.key entry.text, fun text _ =>
      isEmpty_entryLine "*" text⟩
  rw [cleanLines_tableScript hname hentries hdefault, tableLines, List.cons_append,
    Section.tables_cons, hname.next_headLine, Section.closing?_of_open?_eq_none rfl,
    Section.tables_lookup_append hlines, foldl_addLine_tableLines hentries, Option.or_none]
  rfl

end TableScript

/-- A table that was written as a script gives every value the text of its last entry, else the text
for all other values, else none. -/
theorem get_tableScript {name : String} {entries : List Entry} {default? : Option String}
    (hname : IsPlainName name) (hentries : ∀ entry ∈ entries, entry.IsPlain)
    (hdefault : ∀ text ∈ default?, FitsLine text) (emptyLines : ℕ) :
    ∃ table, (Script.ofText (tableScript name entries default? emptyLines)).lookup? name =
      some table ∧
        ∀ value, table.get value = ((textOf? entries value).or default?).getD "" := by
  have hsame := (Lookup.name_insertAll { name } entries).1
  refine ⟨{ ({ name } : Lookup).insertAll entries with default? }, ?_, fun value => ?_⟩
  · rw [Script.lookup?_ofText, tables_tableScript hname hentries hdefault]
    simp [hsame]
  · simp only [Lookup.get, Lookup.lookup_insertAll]
    rw [List.lookup_nil, Option.or_none]

/-- Keys of both kinds, one value twice, and texts with all marks of a script in them. -/
def caveEntries : List Entry :=
  [⟨"7", 7, "Entrance"⟩, ⟨"0x1a", 26, "Höhle = \\"⟩, ⟨"0X07", 7, "// 1/2 way"⟩]

theorem isPlain_caveEntries : ∀ entry ∈ caveEntries, entry.IsPlain := by
  simp only [caveEntries, List.forall_mem_cons]
  have hentrance : FitsLine "Entrance" := ⟨by decide, by decide⟩
  have hcave : FitsLine "Höhle = \\" := ⟨by decide, by decide⟩
  have hway : FitsLine "// 1/2 way" := ⟨by decide, by decide⟩
  refine ⟨⟨?_, hentrance⟩, ⟨?_, hcave⟩, ⟨?_, hway⟩, by simp⟩
  · exact isKey_toString 7
  · exact isKey_hexadecimal 26
  · have hnumeral : IsNumeral 16 ['0', '7'] 7 := ⟨List.cons_ne_nil _ _, [0, 7], rfl, rfl⟩
    exact .hexadecimal (.inr rfl) hnumeral

theorem isPlainName_caveMap : IsPlainName "Cave Map" where
  head := by
    have hhead : "Cave Map".toList.head? = some 'C' := by decide
    rw [hhead]
    rintro letter ⟨⟩
    rfl
  last := by
    have hlast : "Cave Map".toList.getLast? = some 'p' := by decide
    rw [hlast]
    rintro letter ⟨⟩
    rfl
  noMark := by
    simp only [List.forall_mem_cons]
    exact ⟨by decide, by decide, by decide, by decide, by simp⟩

theorem get_tableScript_caveEntries :
    ∃ table, (Script.ofText (tableScript "Cave Map" caveEntries (some "?") 1)).lookup? "Cave Map" =
      some table ∧ table.get 7 = "// 1/2 way" ∧ table.get 26 = "Höhle = \\" ∧ table.get 8 = "?" := by
  have hdefault : ∀ text ∈ some "?", FitsLine text := by
    rintro text ⟨⟩
    exact ⟨by decide, by decide⟩
  obtain ⟨table, hlookup, hget⟩ := get_tableScript isPlainName_caveMap isPlain_caveEntries hdefault 1
  refine ⟨table, hlookup, ?_, ?_, ?_⟩ <;> (rw [hget]; decide)

end AchievementLogic.Presence
