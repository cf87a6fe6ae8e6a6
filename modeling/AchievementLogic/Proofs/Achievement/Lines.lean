import AchievementLogic.Achievement.Line
import AchievementLogic.Proofs.Text.Delimiters
import AchievementLogic.Proofs.Text.WholeNumbers
import AchievementLogic.Proofs.Trigger.Printing

/-!
# Reading a line that was written

A line holds an achievement without what frames did to it.  The trigger is read first and stops at
the colon after it, although colons are found in it too; the fields after it are cut at colons, so
that none but the last of them may hold one.
-/

namespace AchievementLogic

open Text Reader

/-! ## Fields -/

/-- Texts that are joined end no line if neither the last one nor the separator does. -/
theorem Text.EndsInInk.intercalate {separator : String} (hseparator : EndsInInk separator)
    (hsome : separator ≠ "") {texts : List String}
    (hlast : ∀ text ∈ texts.getLast?, EndsInInk text) :
    EndsInInk (separator.intercalate texts) := by
  induction texts with
  | nil => exact fun letter hmem => by simp at hmem
  | cons first others ih =>
      cases others with
      | nil => simpa using hlast first rfl
      | cons second later =>
          have hlater := ih (by simpa [List.getLast?_cons_cons] using hlast)
          rw [String.intercalate_cons_cons]
          exact hlater.append fun _ => hseparator.append fun hempty => absurd hempty hsome

namespace Achievement

theorem fieldsOf_append {field : String} (hfield : ':' ∉ field.toList) (count : ℕ)
    (others : List Char) :
    fieldsOf (count + 2) (field.toList ++ ':' :: others) = field :: fieldsOf (count + 1) others := by
  have hkept : ∀ letter ∈ field.toList, (letter != ':') = true := by
    intro letter hmem
    exact bne_iff_ne.mpr fun hcolon => hfield (hcolon ▸ hmem)
  rw [fieldsOf, List.takeWhile_append_of_pos hkept, List.dropWhile_append_of_pos hkept,
    List.takeWhile_cons_of_neg (by simp), List.dropWhile_cons_of_neg (by simp), List.append_nil,
    String.ofList_toList]
  simp

/-- Fields that were joined by colons fall apart again if none but the last holds a colon. -/
theorem fieldsOf_intercalate {count : ℕ} {fields : List String}
    (hlength : fields.length = count + 1)
    (hcolons : ∀ field ∈ fields.dropLast, ':' ∉ field.toList) :
    fieldsOf (count + 1) (":".intercalate fields).toList = fields := by
  induction fields generalizing count with
  | nil => cases hlength
  | cons first others ih =>
      cases others with
      | nil =>
          obtain rfl : count = 0 := by simpa using hlength.symm
          simp [fieldsOf]
      | cons second later =>
          rw [List.dropLast_cons_cons, List.forall_mem_cons] at hcolons
          obtain ⟨hfirst, hothers⟩ := hcolons
          obtain rfl : count = later.length + 1 := by simpa using hlength.symm
          rw [String.intercalate_cons_cons, String.toList_append, String.toList_append,
            List.append_assoc]
          exact (fieldsOf_append hfirst later.length _).trans
            (congrArg (List.cons first) (ih rfl hothers))

/-! ## Lines -/

/-- What stands on the line after the trigger. -/
def fields (achievement : Achievement) : List String :=
  [achievement.title, achievement.description, achievement.progress, achievement.progressMax,
    achievement.progressFormat, achievement.author, toString achievement.points.toNat,
    toString achievement.created.toInt, toString achievement.modified.toInt,
    toString achievement.upvotes.toNat, toString achievement.downvotes.toNat, achievement.badge]

theorem line_eq (achievement : Achievement) :
    achievement.line = ":".intercalate
      (toString achievement.id.toNat :: achievement.definition :: achievement.fields) := rfl

theorem bytesOf_line (achievement : Achievement) :
    bytesOf achievement.line = bytesOf (toString achievement.id.toNat) ++
      58 :: (bytesOf achievement.definition ++
        58 :: bytesOf (":".intercalate achievement.fields)) := by
  have hcolon : bytesOf ":" = [58] := rfl
  have hfields : achievement.fields = achievement.title :: achievement.fields.tail := rfl
  rw [line_eq, hfields, String.intercalate_cons_cons, String.intercalate_cons_cons, bytesOf_append,
    bytesOf_append, bytesOf_append, bytesOf_append, hcolon, List.append_assoc, List.append_assoc]
  rfl

theorem endsInInk_line {achievement : Achievement} (hend : EndsInInk achievement.badge) :
    EndsInInk achievement.line := by
  have hcolon : EndsInInk ":" := by decide
  have hlast : (toString achievement.id.toNat :: achievement.definition ::
      achievement.fields).getLast? = some achievement.badge := rfl
  rw [line_eq]
  apply hcolon.intercalate (by decide)
  rw [hlast]
  rintro text ⟨⟩
  exact hend

/-- A line begins with a digit, and so holds an achievement. -/
theorem exists_toList_line (achievement : Achievement) :
    ∃ first others, achievement.line.toList = first :: others ∧ first.isDigit = true := by
  obtain ⟨first, others, hdigits⟩ :=
    List.exists_cons_of_ne_nil (Nat.toDigits_ne_nil (b := 10) (n := achievement.id.toNat))
  have hid : (toString achievement.id.toNat).toList = first :: others := by
    rw [Nat.toString_eq_repr, Nat.toList_repr, hdigits]
  have hfirst : first ∈ (toString achievement.id.toNat).toList := by
    rw [hid]
    exact List.mem_cons_self
  have hletters := congrArg String.toList achievement.line_eq
  rw [String.intercalate_cons_cons, String.toList_append, String.toList_append, hid,
    List.cons_append, List.cons_append] at hletters
  exact ⟨first, _, hletters, isDigit_of_mem_toString hfirst⟩

/-- A colon ends the trigger, whatever comes after it. -/
theorem readTrigger_of_reads {bytes rest : List UInt8} {trigger : Trigger}
    (hreads : Reads Trigger.read bytes trigger (58 :: rest)) (position : ℕ) (line : String) :
    readTrigger ⟨bytes ++ 58 :: rest, position⟩ line =
      (trigger, ⟨58 :: rest, position + bytes.length⟩) := by
  have hcolon : Scan.peek ⟨58 :: rest, position + bytes.length⟩ = some ':' := rfl
  rw [readTrigger, hreads position]
  simp [hcolon]

theorem rest_colon (text : String) (position : ℕ) :
    Scan.rest ⟨58 :: bytesOf text, position⟩ = ":" ++ text := by
  have hbytes : 58 :: bytesOf text = bytesOf (":" ++ text) := by
    rw [bytesOf_append]
    rfl
  rw [hbytes, Scan.rest_bytesOf]

theorem readUnsigned_ofString_line (achievement : Achievement) :
    (Scan.ofString achievement.line).readUnsigned = some (achievement.id,
      ⟨58 :: (bytesOf achievement.definition ++ 58 :: bytesOf (":".intercalate achievement.fields)),
        (bytesOf (toString achievement.id.toNat)).length⟩) := by
  have hends (rest : List UInt8) : EndsDigits 10 (58 :: rest) := by
    rintro byte ⟨⟩
    rfl
  rw [Scan.ofString, bytesOf_line, Scan.readUnsigned,
    (spellsWord_toString achievement.id).readDigits (by decide) (hends _), Nat.zero_add]

/-- The fields of a printed line are read again, whatever the trigger before them is read as. -/
theorem ofLine?_line_of_reads {achievement : Achievement} {trigger : Trigger}
    (hreads : ∀ rest, Reads Trigger.read (bytesOf achievement.definition) trigger (58 :: rest))
    (hcolons : ∀ field ∈ achievement.fields.dropLast, ':' ∉ field.toList)
    (hbadge : unlockedBadge achievement.badge = achievement.badge)
    (hend : EndsInInk achievement.badge) :
    ofLine? achievement.line =
      some { achievement with trigger, active := true, lastOutcome := {} } := by
  obtain ⟨first, others, hletters, hdigit⟩ := achievement.exists_toList_line
  have hholds : ¬(achievement.line.isEmpty || achievement.line.toList.head? = some '/' ||
      achievement.line.toList.head? = some '\\') = true := by
    have hempty : achievement.line ≠ "" := by
      intro hempty
      rw [hempty] at hletters
      cases hletters
    have hslash : first ≠ '/' := by rintro rfl; cases hdigit
    have hbackslash : first ≠ '\\' := by rintro rfl; cases hdigit
    simp [hletters, hempty, hslash, hbackslash]
  have hfields : fieldsOf 12 (":".intercalate achievement.fields).toList = achievement.fields :=
    fieldsOf_intercalate rfl hcolons
  have haccept (rest : List UInt8) (position : ℕ) :
      Scan.accept? ⟨58 :: rest, position⟩ ':' = some ⟨rest, position + 1⟩ :=
    Scan.accept?_cons_self rfl rest position
  have htail : (((":" ++ ":".intercalate achievement.fields).toList.dropWhile (· != ':')).drop 1) =
      (":".intercalate achievement.fields).toList := by
    rw [String.toList_append]
    rfl
  rw [ofLine?, trimLineEnd_eq_self_iff.mpr (endsInInk_line hend)]
  simp only []
  rw [if_neg hholds, readUnsigned_ofString_line]
  simp only [Option.getD_some, haccept, readTrigger_of_reads (hreads _), rest_colon, htail, hfields]
  simp only [fields, List.getD_cons_zero, List.getD_cons_succ, wordOf?_trim_toString,
    int64Of?_trim_toString, Option.getD_some, hbadge]

/-- The texts on a line that a colon would cut. -/
def texts (achievement : Achievement) : List String :=
  [achievement.title, achievement.description, achievement.progress, achievement.progressMax,
    achievement.progressFormat, achievement.author]

/-- Numbers are written without colons, so that up to the badge the texts alone decide where fields
are cut. -/
theorem colon_notMem_fields {achievement : Achievement}
    (htexts : ∀ text ∈ achievement.texts, ':' ∉ text.toList) :
    ∀ field ∈ achievement.fields.dropLast, ':' ∉ field.toList := by
  have hfields : achievement.fields.dropLast = achievement.texts ++
      [toString achievement.points.toNat, toString achievement.created.toInt,
        toString achievement.modified.toInt, toString achievement.upvotes.toNat,
        toString achievement.downvotes.toNat] := rfl
  have hword (number : ℕ) : ':' ∉ (toString number).toList := by
    intro hmem
    cases isDigit_of_mem_toString hmem
  have htime (number : ℤ) : ':' ∉ (toString number).toList := fun hmem =>
    (isNumeralLetter_of_mem_toString_int hmem).ne (by decide) rfl
  rw [hfields, List.forall_mem_append]
  refine ⟨htexts, ?_⟩
  simp only [List.forall_mem_cons]
  exact ⟨hword _, htime _, htime _, hword _, hword _, by simp⟩

theorem unlockedBadge_eq_self {badge : String} (hbadge : ¬"_lock".toList <:+ badge.toList) :
    unlockedBadge badge = badge := by
  have hkept : ¬"_lock".toList.isSuffixOf badge.toList = true := by
    rwa [List.isSuffixOf_iff_suffix]
  exact if_neg hkept

/-- The line of an achievement is read as that achievement: with its number, texts, points, times,
votes and badge and with its conditions as they were before any frame, none of them hit, and active.
The trigger has to have come from a text without decimal fractions and without an empty alternate; a
colon in a text, the ending of a locked badge and a line end at the very end would not survive. -/
theorem ofLine?_line {achievement : Achievement} {text : String}
    (hread : Trigger.read.readAll text = .ok achievement.trigger.fresh)
    (hfloat : ∀ operand ∈ achievement.trigger.operands, operand.isFloatLiteral = false)
    (hfull : ∀ group ∈ achievement.trigger.alternates, group.isEmpty = false)
    (htexts : ∀ text ∈ achievement.texts, ':' ∉ text.toList)
    (hbadge : ¬"_lock".toList <:+ achievement.badge.toList)
    (hend : EndsInInk achievement.badge) :
    ofLine? achievement.line =
        some { achievement with
          trigger := achievement.trigger.fresh, active := true, lastOutcome := {} } ∧
      achievement.trigger.fresh.IsCleared := by
  have hfreshFloat : ∀ operand ∈ achievement.trigger.fresh.operands,
      operand.isFloatLiteral = false := by
    rw [Trigger.operands_fresh, List.forall_mem_map]
    intro operand hmem
    rw [Operand.isFloatLiteral_fresh, hfloat operand hmem]
  have hkept : achievement.trigger.fresh.alternates.filter (!·.isEmpty) =
      achievement.trigger.fresh.alternates := by
    rw [List.filter_eq_self, Trigger.fresh, List.forall_mem_map]
    intro group hmem
    rw [Group.isEmpty_fresh, hfull group hmem, Bool.not_false]
  have hspells := Trigger.spells_text (Trigger.ensures_read.readAll hread) hfreshFloat
  rw [Trigger.withoutEmpty, hkept, Trigger.text_fresh] at hspells
  have hreads (rest : List UInt8) : Reads Trigger.read (bytesOf achievement.definition)
      achievement.trigger.fresh (58 :: rest) := by
    apply hspells.reads
    rintro byte ⟨⟩
    decide
  refine ⟨?_, achievement.trigger.isCleared_fresh⟩
  exact ofLine?_line_of_reads hreads (colon_notMem_fields htexts) (unlockedBadge_eq_self hbadge)
    hend

/-- A core without conditions, a pause with a count in progress, and a time before all others. -/
def signpost : Achievement where
  id := 4294967295
  title := " To the / end"
  description := ""
  progress := "0xH0010"
  progressFormat := "VALUE\r"
  author := "\n"
  points := 25
  created := -9223372036854775808
  modified := 1700000000
  upvotes := 3
  downvotes := 0
  badge := "00:01_locked"
  trigger :=
    { core := ⟨[]⟩
      alternates := [⟨[
        { role := .guard .pauseIf
          source := .memory
            { access := .delta, size := .byte, address := 16, history := ⟨3, 2, 2⟩ }
          comparison? := some .greaterOrEqual
          target := .word 7
          requiredHits := 9
          hits := 4 },
        { role := .modifier .addSource
          source := .memory { access := .address, size := .highNibble, address := 65536 }
          comparison? := none
          target := default }]⟩]
      primed := true }
  lastOutcome := { dirty := true }

theorem ofLine?_line_signpost :
    signpost.line = "4294967295:SP:d0xH0010>=7.9._A:0xU010000: To the / end::0xH0010::VALUE\r:\n" ++
        ":25:-9223372036854775808:1700000000:3:0:00:01_locked" ∧
      ofLine? signpost.line = some { signpost with
        trigger := signpost.trigger.fresh, active := true, lastOutcome := {} } := by
  have hread : Trigger.read.readAll "SP:d0xh10>=7.9._A:0xU10000" = .ok signpost.trigger.fresh := rfl
  obtain ⟨hline, -⟩ := ofLine?_line hread (by decide) (by decide) (by decide) (by decide) (by decide)
  exact ⟨by decide, hline⟩

end Achievement

end AchievementLogic
