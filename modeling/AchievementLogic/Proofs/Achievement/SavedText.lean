import AchievementLogic.Achievement.Progress
import AchievementLogic.Proofs.Trigger.Printing

/-!
# Reading saved progress

Saved progress announces how many conditions a group has, but not how many groups there are: the
reader goes on as long as it finds another header of the same achievement.  It stops in the right
place because a digest that is not made of decimal digits alone is never taken for a header.  What
was saved is then read back in full, whatever text follows it.
-/

namespace AchievementLogic.Achievement

open Text

theorem bytesOf_colon : bytesOf ":" = [58] := rfl

/-! ## What fields spell -/

/-- Bytes that spell numbers, each with its colon. -/
inductive SpellsFields : List UInt8 → List UInt32 → Prop
  | nil : SpellsFields [] []
  | cons {bytes others : List UInt8} {value : UInt32} {values : List UInt32}
      (hword : SpellsWord 10 bytes value) (hothers : SpellsFields others values) :
      SpellsFields (bytes ++ 58 :: others) (value :: values)

theorem SpellsFields.exists_cons {bytes : List UInt8} {value : UInt32} {values : List UInt32}
    (hfields : SpellsFields bytes (value :: values)) :
    ∃ digits others, bytes = digits ++ 58 :: others ∧ SpellsWord 10 digits value ∧
      SpellsFields others values := by
  cases hfields with
  | cons hword hothers => exact ⟨_, _, rfl, hword, hothers⟩

theorem SpellsFields.append {left right : List UInt8} {values others : List UInt32}
    (hleft : SpellsFields left values) (hright : SpellsFields right others) :
    SpellsFields (left ++ right) (values ++ others) := by
  induction hleft with
  | nil => exact hright
  | cons hword hothers ih =>
      rw [List.append_assoc, List.cons_append, List.cons_append]
      exact .cons hword ih

theorem SpellsFields.split {bytes : List UInt8} {values others : List UInt32}
    (hfields : SpellsFields bytes (values ++ others)) :
    ∃ left right, bytes = left ++ right ∧ SpellsFields left values ∧ SpellsFields right others := by
  induction values generalizing bytes with
  | nil => exact ⟨[], bytes, rfl, .nil, hfields⟩
  | cons value values ih =>
      obtain ⟨digits, rest, rfl, hword, hothers⟩ := hfields.exists_cons
      obtain ⟨left, right, rfl, hleft, hright⟩ := ih hothers
      exact ⟨digits ++ 58 :: left, right, by simp, .cons hword hleft, hright⟩

def SavedCondition.fields (saved : SavedCondition) : List UInt32 :=
  [saved.hits, saved.source.1, saved.source.2, saved.target.1, saved.target.2]

/-- Bytes that spell groups of an achievement: its number and a number of conditions, and then that
many conditions. -/
inductive SpellsGroups (id : UInt32) : List UInt8 → List (List SavedCondition) → Prop
  | nil : SpellsGroups id [] []
  | cons {bytes others : List UInt8} {count : UInt32} {conditions : List SavedCondition}
      {groups : List (List SavedCondition)} (hcount : count.toNat = conditions.length)
      (hfields : SpellsFields bytes (id :: count :: conditions.flatMap SavedCondition.fields))
      (hothers : SpellsGroups id others groups) :
      SpellsGroups id (bytes ++ others) (conditions :: groups)

/-! ## Written fields -/

theorem bytesOf_fieldText (value : Nat) :
    bytesOf (fieldText value) = bytesOf (toString value) ++ [58] := by
  rw [fieldText, bytesOf_append, bytesOf_colon]

theorem spellsFields_fieldText (value : Nat) :
    SpellsFields (bytesOf (fieldText value)) [clampedWord value] := by
  rw [bytesOf_fieldText]
  exact .cons (spellsWord_toString_nat value) .nil

theorem SavedCondition.spellsFields (saved : SavedCondition) :
    SpellsFields (bytesOf saved.text) saved.fields := by
  have hword (word : UInt32) : SpellsFields (bytesOf (fieldText word.toNat)) [word] := by
    simpa using spellsFields_fieldText word.toNat
  have hbytes : bytesOf saved.text =
      bytesOf (fieldText saved.hits.toNat) ++ (bytesOf (fieldText saved.source.1.toNat) ++
        (bytesOf (fieldText saved.source.2.toNat) ++ (bytesOf (fieldText saved.target.1.toNat) ++
          bytesOf (fieldText saved.target.2.toNat)))) := by
    simp [SavedCondition.text, bytesOf_append]
  rw [hbytes]
  exact (hword _).append ((hword _).append ((hword _).append ((hword _).append (hword _))))

theorem spellsFields_conditions (conditions : List SavedCondition) :
    SpellsFields (bytesOf (String.join (conditions.map SavedCondition.text)))
      (conditions.flatMap SavedCondition.fields) := by
  induction conditions with
  | nil => exact .nil
  | cons head tail ih =>
      rw [List.map_cons, String.join_cons, bytesOf_append, List.flatMap_cons]
      exact head.spellsFields.append ih

/-- The conditions of a group are counted in a word. -/
theorem toNat_clampedWord_length {conditions : List SavedCondition}
    (hcount : conditions.length < 2 ^ 32) :
    (clampedWord conditions.length).toNat = conditions.length := by
  rw [clampedWord, Nat.min_eq_left (by omega), UInt32.toNat_ofNat_of_lt' hcount]

/-- What is written of groups spells them, as long as the sizes of the groups are words. -/
theorem spellsGroups_text (id : UInt32) {groups : List (List SavedCondition)}
    (hcount : ∀ conditions ∈ groups, conditions.length < 2 ^ 32) :
    SpellsGroups id (bytesOf (String.join (groups.map (groupText id)))) groups := by
  induction groups with
  | nil => exact .nil
  | cons head tail ih =>
      have htail := ih fun conditions hmem => hcount conditions (by simp [hmem])
      have hid : SpellsFields (bytesOf (fieldText id.toNat)) [id] := by
        simpa using spellsFields_fieldText id.toNat
      have hhead : SpellsFields (bytesOf (groupText id head))
          (id :: clampedWord head.length :: head.flatMap SavedCondition.fields) := by
        rw [groupText, bytesOf_append, bytesOf_append]
        exact (hid.append (spellsFields_fieldText head.length)).append
          (spellsFields_conditions head)
      rw [List.map_cons, String.join_cons, bytesOf_append]
      exact .cons (toNat_clampedWord_length (hcount head (by simp))) hhead htail

/-! ## Reading fields, conditions and groups -/

/-- A field ends in its colon, whatever comes after that. -/
theorem readField_spelled {bytes : List UInt8} {value : UInt32} (hword : SpellsWord 10 bytes value)
    (rest : List UInt8) (position : Nat) :
    readField ⟨bytes ++ 58 :: rest, position⟩ =
      some (value, ⟨rest, position + (bytes.length + 1)⟩) := by
  have hcolon : EndsDigits 10 (58 :: rest) := by
    intro byte hmem
    obtain rfl : 58 = byte := by simpa using hmem
    decide
  rw [readField, Scan.readUnsigned, hword.readDigits (by decide) hcolon]
  simp [Scan.accept?_cons_self (by decide : Char.ofUInt8 58 = ':'), Nat.add_assoc]

theorem readField_fieldText (value : Nat) (rest : List UInt8) (position : Nat) :
    readField ⟨bytesOf (fieldText value) ++ rest, position⟩ =
      some (clampedWord value, ⟨rest, position + (bytesOf (fieldText value)).length⟩) := by
  have hread := readField_spelled (spellsWord_toString_nat value) rest position
  simpa [bytesOf_fieldText] using hread

theorem readCondition_spelled {bytes : List UInt8} {saved : SavedCondition}
    (hfields : SpellsFields bytes saved.fields) (rest : List UInt8) (position : Nat) :
    readCondition ⟨bytes ++ rest, position⟩ = some (saved, ⟨rest, position + bytes.length⟩) := by
  obtain ⟨_, _, rfl, hhits, hfields⟩ := hfields.exists_cons
  obtain ⟨_, _, rfl, hsource, hfields⟩ := hfields.exists_cons
  obtain ⟨_, _, rfl, hsourceBefore, hfields⟩ := hfields.exists_cons
  obtain ⟨_, _, rfl, htarget, hfields⟩ := hfields.exists_cons
  obtain ⟨_, _, rfl, htargetBefore, hfields⟩ := hfields.exists_cons
  cases hfields
  simp [readCondition, readField_spelled hhits, readField_spelled hsource,
    readField_spelled hsourceBefore, readField_spelled htarget, readField_spelled htargetBefore,
    Nat.add_assoc, Nat.add_comm, Nat.add_left_comm]

/-- Conditions are read back from bytes that spell their fields, one condition after the other. -/
theorem readConditions_spelled {bytes : List UInt8} {conditions : List SavedCondition}
    (hfields : SpellsFields bytes (conditions.flatMap SavedCondition.fields)) (rest : List UInt8)
    (position : Nat) :
    readConditions conditions.length ⟨bytes ++ rest, position⟩ =
      some (conditions, ⟨rest, position + bytes.length⟩) := by
  induction conditions generalizing bytes position with
  | nil =>
      cases hfields
      rfl
  | cons head tail ih =>
      obtain ⟨left, right, rfl, hhead, htail⟩ := SpellsFields.split hfields
      simp [readConditions, readCondition_spelled hhead, ih htail, Nat.add_assoc]

/-- Groups are read first, whatever text follows them. -/
theorem readGroups_spelled {id : UInt32} {bytes : List UInt8} {groups : List (List SavedCondition)}
    (hgroups : SpellsGroups id bytes groups) (rest : List UInt8) (rounds position : Nat) :
    readGroups id (groups.length + rounds) ⟨bytes ++ rest, position⟩ =
      (readGroups id rounds ⟨rest, position + bytes.length⟩).map
        fun found => (groups ++ found.1, found.2) := by
  induction hgroups generalizing position with
  | nil => simp
  | @cons bytes others count conditions groups hcount hfields hothers ih =>
      obtain ⟨digits, _, rfl, hid, hfields⟩ := hfields.exists_cons
      obtain ⟨counted, after, rfl, hcounted, hfields⟩ := hfields.exists_cons
      have hheader : readHeader id
          ⟨digits ++ 58 :: (counted ++ 58 :: (after ++ (others ++ rest))), position⟩ =
            some (count, ⟨after ++ (others ++ rest),
              position + (digits.length + 1) + (counted.length + 1)⟩) := by
        rw [readHeader, readField_spelled hid]
        simp [readField_spelled hcounted, guard]
      have hplace : position + (digits.length + 1) + (counted.length + 1) + after.length +
          others.length = position +
            (digits ++ 58 :: (counted ++ 58 :: after) ++ others).length := by
        simp only [List.length_append, List.length_cons]
        omega
      rw [List.length_cons, Nat.add_right_comm]
      simp only [List.append_assoc, List.cons_append, readGroups, hheader, hcount,
        Option.bind_eq_bind]
      rw [readConditions_spelled hfields]
      simp only [Option.bind_some, ih, hplace, List.append_assoc, List.cons_append]
      generalize readGroups id rounds _ = found
      cases found <;> rfl

/-- Groups are read as long as headers of the achievement follow. -/
theorem readGroups_of_stop {id : UInt32} {bytes rest : List UInt8}
    {groups : List (List SavedCondition)} (hgroups : SpellsGroups id bytes groups)
    (hrest : ∀ position, readHeader id ⟨rest, position⟩ = none) {rounds : Nat}
    (hrounds : groups.length ≤ rounds) (position : Nat) :
    readGroups id rounds ⟨bytes ++ rest, position⟩ =
      some (groups, ⟨rest, position + bytes.length⟩) := by
  obtain ⟨more, rfl⟩ := Nat.exists_eq_add_of_le hrounds
  rw [readGroups_spelled hgroups]
  cases more with
  | zero => simp [readGroups]
  | succ more => simp [readGroups, hrest]

/-- One more condition is read by reading the first and then the others. -/
theorem exists_cons_of_readConditions {count : Nat} {conditions : List SavedCondition}
    {scan after : Scan} (hread : readConditions (count + 1) scan = some (conditions, after)) :
    ∃ first others middle, conditions = first :: others ∧
      readCondition scan = some (first, middle) ∧
      readConditions count middle = some (others, after) := by
  simp only [readConditions, Option.bind_eq_bind, Option.bind_eq_some_iff] at hread
  obtain ⟨⟨first, middle⟩, hfirst, ⟨others, last⟩, hothers, heq⟩ := hread
  obtain ⟨rfl, rfl⟩ : first :: others = conditions ∧ last = after := by simpa using heq
  exact ⟨first, others, middle, rfl, hfirst, hothers⟩

/-- As many conditions are read as are announced, or none. -/
theorem length_of_readConditions {count : Nat} {conditions : List SavedCondition}
    {scan after : Scan} (hread : readConditions count scan = some (conditions, after)) :
    conditions.length = count := by
  induction count generalizing conditions scan with
  | zero =>
      obtain ⟨rfl, -⟩ : [] = conditions ∧ scan = after := by simpa [readConditions] using hread
      rfl
  | succ count ih =>
      obtain ⟨first, others, middle, rfl, -, hothers⟩ := exists_cons_of_readConditions hread
      rw [List.length_cons, ih hothers]

/-- In each round no group is read, or one with its header and all its conditions. -/
theorem cases_of_readGroups {id : UInt32} {rounds : Nat} {groups : List (List SavedCondition)}
    {scan after : Scan} (hread : readGroups id (rounds + 1) scan = some (groups, after)) :
    (groups = [] ∧ scan = after) ∨
      ∃ count first others afterHeader middle, groups = first :: others ∧
        readHeader id scan = some (count, afterHeader) ∧
        readConditions count.toNat afterHeader = some (first, middle) ∧
        readGroups id rounds middle = some (others, after) := by
  rw [readGroups] at hread
  cases hheader : readHeader id scan with
  | none =>
      left
      simpa [hheader, eq_comm] using hread
  | some header =>
      right
      simp only [hheader, Option.bind_eq_bind, Option.bind_eq_some_iff] at hread
      obtain ⟨⟨first, middle⟩, hfirst, ⟨others, last⟩, hothers, heq⟩ := hread
      obtain ⟨rfl, rfl⟩ : first :: others = groups ∧ last = after := by simpa using heq
      exact ⟨header.1, first, others, header.2, middle, rfl, rfl, hfirst, hothers⟩

/-- Whatever the text, no group is read with more conditions than a word counts. -/
theorem length_lt_of_readGroups {id : UInt32} {rounds : Nat} {groups : List (List SavedCondition)}
    {scan after : Scan} (hread : readGroups id rounds scan = some (groups, after)) :
    ∀ conditions ∈ groups, conditions.length < 2 ^ 32 := by
  induction rounds generalizing groups scan with
  | zero =>
      obtain ⟨rfl, -⟩ : [] = groups ∧ scan = after := by simpa [readGroups] using hread
      simp
  | succ rounds ih =>
      rcases cases_of_readGroups hread with
        ⟨rfl, -⟩ | ⟨count, first, others, afterHeader, middle, rfl, -, hfirst, hothers⟩
      · simp
      · refine List.forall_mem_cons.mpr ⟨?_, ih hothers⟩
        rw [length_of_readConditions hfirst]
        exact count.toNat_lt

/-- The groups of saved progress are those at the front of the text. -/
theorem readGroups_of_read? {id : UInt32} {input : String} {saved : SavedProgress}
    (hread : SavedProgress.read? id input = some saved) :
    ∃ after, readGroups id (bytesOf input).length ⟨bytesOf input, 0⟩ =
      some (saved.groups, after) := by
  simp only [SavedProgress.read?, Option.bind_eq_bind, Option.bind_eq_some_iff] at hread
  obtain ⟨⟨groups, afterGroups⟩, hgroups, -, -, hdigests⟩ := hread
  obtain ⟨⟨user, afterUser⟩, -, ⟨definition, after⟩, -, heq⟩ := hdigests
  obtain rfl := Option.some.inj heq
  exact ⟨afterGroups, hgroups⟩

theorem length_lt_of_read? {id : UInt32} {input : String} {saved : SavedProgress}
    (hread : SavedProgress.read? id input = some saved) :
    ∀ conditions ∈ saved.groups, conditions.length < 2 ^ 32 := by
  obtain ⟨after, hgroups⟩ := readGroups_of_read? hread
  exact length_lt_of_readGroups hgroups

/-- Every group takes some bytes, so that there are no more of them than bytes. -/
theorem SpellsGroups.length_le {id : UInt32} {bytes : List UInt8}
    {groups : List (List SavedCondition)} (hgroups : SpellsGroups id bytes groups) :
    groups.length ≤ bytes.length := by
  induction hgroups with
  | nil => exact Nat.zero_le _
  | cons hcount hfields hothers ih =>
      cases hfields with
      | cons hword hfields =>
          simp only [List.length_append, List.length_cons]
          omega

/-! ## Digests -/

/-- A digest is written in hexadecimal digits, so that it has no colon. -/
theorem exists_hexDigits (text : String) :
    ∃ digits : List Nat, (∀ digit ∈ digits, digit < 16) ∧
      Md5.hexDigest text = String.ofList (digits.map Nat.digitChar) := by
  refine ⟨(Md5.digest (bytesOf text)).flatMap fun byte => [byte.toNat / 16, byte.toNat % 16],
    ?_, ?_⟩
  · intro digit hmem
    obtain ⟨byte, -, hdigit⟩ := List.mem_flatMap.mp hmem
    have hlt := byte.toNat_lt
    simp only [List.mem_cons, List.not_mem_nil, or_false] at hdigit
    omega
  · rw [Md5.hexDigest, List.map_flatMap]
    rfl

/-- A digest is a token of its own: none of its letters is the colon that ends it. -/
theorem readDigest_hexDigest (text : String) (rest : List UInt8) (position : Nat) :
    readDigest ⟨bytesOf (Md5.hexDigest text) ++ 58 :: rest, position⟩ =
      some (Md5.hexDigest text,
        ⟨rest, position + (bytesOf (Md5.hexDigest text)).length + 1⟩) := by
  obtain ⟨digits, hdigits, htext⟩ := exists_hexDigits text
  have hcolon : ∀ byte ∈ bytesOf (Md5.hexDigest text), (byte != 58) = true := by
    rw [htext, bytesOf_digitChars hdigits]
    intro byte hmem
    obtain ⟨digit, hdigit, rfl⟩ := List.mem_map.mp hmem
    have hlt := hdigits digit hdigit
    interval_cases digit <;> decide
  have htake : (bytesOf (Md5.hexDigest text) ++ 58 :: rest).takeWhile (· != 58) =
      bytesOf (Md5.hexDigest text) := by
    rw [List.takeWhile_append_of_pos hcolon]
    simp
  simp [readDigest, htake, ofBytes?_bytesOf, Scan.skip, Nat.add_assoc]

/-- Digits that anything but a colon ends are no field. -/
theorem readField_eq_none {bytes : List UInt8} {digits : List Nat} {stop : UInt8}
    {rest : List UInt8} (hdigits : AreDigits 10 bytes digits) (hstop : EndsDigits 10 (stop :: rest))
    (hcolon : Char.ofUInt8 stop ≠ ':') (position : Nat) :
    readField ⟨bytes ++ stop :: rest, position⟩ = none := by
  rw [readField, Scan.readUnsigned]
  cases bytes with
  | nil =>
      rw [List.nil_append, Scan.readDigits_eq_none hstop]
      rfl
  | cons first others =>
      have hnone : Scan.accept? ⟨stop :: rest, position + (first :: others).length⟩ ':' = none :=
        Scan.accept?_eq_none (by simpa using hcolon) _
      rw [Scan.readDigits_append (by decide) hdigits (by simp) hstop]
      simp only [Option.bind_eq_bind, Option.bind_some, hnone, Option.bind_none]

/-- A digest with a letter among its digits is no header: a number that is read from its front
stops before such a letter, and not before a colon. -/
theorem readHeader_hexDigest {text : String}
    (hletter : (Md5.hexDigest text).toList.all Char.isDigit = false) (id : UInt32)
    (rest : List UInt8) (position : Nat) :
    readHeader id ⟨bytesOf (Md5.hexDigest text) ++ rest, position⟩ = none := by
  obtain ⟨digits, hdigits, htext⟩ := exists_hexDigits text
  have hlarge : ∃ digit ∈ digits, decide (10 ≤ digit) = true := by
    simpa [htext, Nat.isDigit_digitChar] using hletter
  obtain ⟨first, hfind⟩ := Option.isSome_iff_exists.mp (List.find?_isSome.mpr hlarge)
  obtain ⟨hfirst, small, others, hsplit, hsmall⟩ := List.find?_eq_some_iff_append.mp hfind
  replace hfirst : 10 ≤ first := by simpa using hfirst
  replace hsmall : ∀ digit ∈ small, digit < 10 := by simpa using hsmall
  have hlt : first < 16 := hdigits first (by simp [hsplit])
  have hshown : Char.ofUInt8 (digitByte first) = Nat.digitChar first := ofUInt8_digitByte hlt
  have hstop : EndsDigits 10 (digitByte first :: (others.map digitByte ++ rest)) := by
    intro byte hbyte
    obtain rfl : digitByte first = byte := by simpa using hbyte
    rw [hshown]
    interval_cases first <;> decide
  have hcolon : Char.ofUInt8 (digitByte first) ≠ ':' := by
    rw [hshown]
    interval_cases first <;> decide
  have hnone := readField_eq_none (areDigits_map_digitByte (by decide) hsmall) hstop hcolon position
  have hbytes : bytesOf (Md5.hexDigest text) ++ rest =
      small.map digitByte ++ digitByte first :: (others.map digitByte ++ rest) := by
    rw [htext, bytesOf_digitChars hdigits, hsplit]
    simp
  rw [readHeader, hbytes, hnone]
  rfl

/-! ## Progress as a whole -/

/-- Groups are read from the front of any text if two digests follow them, the first of which is no
header. -/
theorem read?_spelled {id : UInt32} {groupsText : String} {groups : List (List SavedCondition)}
    (hgroups : SpellsGroups id (bytesOf groupsText) groups) (hsome : groups ≠ []) {first : String}
    (hletter : (Md5.hexDigest first).toList.all Char.isDigit = false) (second suffix : String) :
    SavedProgress.read? id
        (groupsText ++ Md5.hexDigest first ++ ":" ++ Md5.hexDigest second ++ ":" ++ suffix) =
      some
        { groups
          groupsText
          userDigest := Md5.hexDigest first
          definitionDigest := Md5.hexDigest second
          rest := suffix } := by
  have hbytes : bytesOf
      (groupsText ++ Md5.hexDigest first ++ ":" ++ Md5.hexDigest second ++ ":" ++ suffix) =
        bytesOf groupsText ++ (bytesOf (Md5.hexDigest first) ++
          58 :: (bytesOf (Md5.hexDigest second) ++ 58 :: bytesOf suffix)) := by
    simp [bytesOf_append, bytesOf_colon]
  have hrounds : groups.length ≤ (bytesOf groupsText ++ (bytesOf (Md5.hexDigest first) ++
      58 :: (bytesOf (Md5.hexDigest second) ++ 58 :: bytesOf suffix))).length := by
    rw [List.length_append]
    exact hgroups.length_le.trans (Nat.le_add_right _ _)
  have hstop := readHeader_hexDigest hletter id
    (58 :: (bytesOf (Md5.hexDigest second) ++ 58 :: bytesOf suffix))
  have hempty : groups.isEmpty = false := by simpa using hsome
  rw [SavedProgress.read?, Scan.ofString, hbytes]
  simp only [readGroups_of_stop hgroups hstop hrounds, readDigest_hexDigest, hempty, Bool.not_false,
    guard_true, Option.bind_eq_bind, Option.bind_some]
  simp [Scan.rest_bytesOf, ofBytes?_bytesOf]

end AchievementLogic.Achievement
