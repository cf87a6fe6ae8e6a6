import AchievementLogic.Proofs.Presence.Escaping
import AchievementLogic.Proofs.Text.Boundaries
import Mathlib.Data.List.DropRight

/-!
# Comments among characters

Comments are looked for among the bytes of a line, and a backslash takes one byte for itself where it
should take a character.  It comes to the same: what is left of a longer character behind its first
byte has no mark in it.  So the comment of a line begins where a scan over its characters finds it,
which is never inside of one.

Blanks before a comment go with it, also one behind a backslash.  That backslash is then the last
character of the line and takes nothing, and the line still has no comment.
-/

namespace AchievementLogic.Presence

open Text

variable {before letters : List Char}

/-- The letters before a comment, if there is one.  A letter behind a backslash begins none. -/
def beforeComment? : List Char → Option (List Char)
  | [] => none
  | letter :: others =>
    if letter = '\\' then
      match others with
      | [] => none
      | escaped :: later => (beforeComment? later).map (letter :: escaped :: ·)
    else if ['/', '/'] <+: letter :: others then some []
    else (beforeComment? others).map (letter :: ·)

/-! ## The first comment -/

/-- Whether the letter behind some others is active: no backslash that is active itself stands right
before it. -/
def isActiveBehind (before : List Char) : Bool :=
  before.foldl (fun active letter => !(active && letter == '\\')) true

/-- Behind some letters a text goes on with two slashes, the first of which is active. -/
def CommentBehind (before letters : List Char) : Prop :=
  isActiveBehind before = true ∧ before ++ ['/', '/'] <+: letters

theorem isActiveBehind_cons {letter : Char} (hletter : letter ≠ '\\') (before : List Char) :
    isActiveBehind (letter :: before) = isActiveBehind before := by
  rw [isActiveBehind, List.foldl_cons, beq_false_of_ne hletter]
  rfl

namespace CommentBehind

theorem mono {longer : List Char} (hcomment : CommentBehind before letters)
    (hle : letters <+: longer) : CommentBehind before longer :=
  ⟨hcomment.1, hcomment.2.trans hle⟩

theorem length_le (hcomment : CommentBehind before letters) :
    before.length + 2 ≤ letters.length := by
  simpa using hcomment.2.length_le

/-- A backslash and the letter behind it are no part of a comment. -/
theorem escaped_iff (escaped : Char) :
    CommentBehind before ('\\' :: escaped :: letters) ↔
      ∃ later, before = '\\' :: escaped :: later ∧ CommentBehind later letters := by
  constructor
  · rintro ⟨hactive, hprefix⟩
    match before with
    | [] => simp at hprefix
    | [first] =>
      obtain ⟨rfl, -⟩ := List.cons_prefix_cons.mp hprefix
      cases hactive
    | first :: second :: later =>
      obtain ⟨rfl, hsecond⟩ := List.cons_prefix_cons.mp hprefix
      obtain ⟨rfl, hlater⟩ := List.cons_prefix_cons.mp hsecond
      exact ⟨later, rfl, hactive, hlater⟩
  · rintro ⟨later, rfl, hactive, hlater⟩
    exact ⟨hactive, by simpa using hlater⟩

/-- Neither is a letter that is no backslash and not the first of two slashes. -/
theorem cons_iff {letter : Char} (hslash : letter ≠ '\\')
    (hcomment : ¬['/', '/'] <+: letter :: letters) :
    CommentBehind before (letter :: letters) ↔
      ∃ later, before = letter :: later ∧ CommentBehind later letters := by
  constructor
  · rintro ⟨hactive, hprefix⟩
    match before with
    | [] => exact absurd hprefix hcomment
    | first :: later =>
      obtain ⟨rfl, hlater⟩ := List.cons_prefix_cons.mp hprefix
      exact ⟨later, rfl, isActiveBehind_cons hslash later ▸ hactive, hlater⟩
  · rintro ⟨later, rfl, hactive, hlater⟩
    exact ⟨(isActiveBehind_cons hslash later).trans hactive, by simpa using hlater⟩

end CommentBehind

/-- Where the scan stops is a comment. -/
theorem commentBehind_of_beforeComment? (hfound : beforeComment? letters = some before) :
    CommentBehind before letters := by
  fun_induction beforeComment? letters generalizing before with
  | case1 => cases hfound
  | case2 => cases hfound
  | case3 escaped later ih =>
      obtain ⟨found, hlater, rfl⟩ := Option.map_eq_some_iff.mp hfound
      exact (CommentBehind.escaped_iff escaped).mpr ⟨found, rfl, ih hlater⟩
  | case4 letter others hslash hcomment =>
      obtain rfl := Option.some.inj hfound
      exact ⟨rfl, hcomment⟩
  | case5 letter others hslash hcomment ih =>
      obtain ⟨found, hothers, rfl⟩ := Option.map_eq_some_iff.mp hfound
      exact (CommentBehind.cons_iff hslash hcomment).mpr ⟨found, rfl, ih hothers⟩

/-- Where there is a comment the scan stops, and not behind it. -/
theorem exists_beforeComment? {other : List Char} (hother : CommentBehind other letters) :
    ∃ before, beforeComment? letters = some before ∧ before <+: other := by
  fun_induction beforeComment? letters generalizing other with
  | case1 => exact absurd hother.length_le (by simp)
  | case2 => exact absurd hother.length_le (by simp)
  | case3 escaped later ih =>
      obtain ⟨rest, rfl, hrest⟩ := (CommentBehind.escaped_iff escaped).mp hother
      obtain ⟨found, hfound, hle⟩ := ih hrest
      exact ⟨'\\' :: escaped :: found, by rw [hfound, Option.map_some], by simpa using hle⟩
  | case4 letter others hslash hcomment => exact ⟨[], rfl, List.nil_prefix⟩
  | case5 letter others hslash hcomment ih =>
      obtain ⟨rest, rfl, hrest⟩ := (CommentBehind.cons_iff hslash hcomment).mp hother
      obtain ⟨found, hfound, hle⟩ := ih hrest
      exact ⟨letter :: found, by rw [hfound, Option.map_some], by simpa using hle⟩

/-- The scan finds the first comment. -/
theorem beforeComment?_eq_some_iff :
    beforeComment? letters = some before ↔
      CommentBehind before letters ∧ ∀ other, CommentBehind other letters → before <+: other := by
  constructor
  · intro hfound
    refine ⟨commentBehind_of_beforeComment? hfound, fun other hother => ?_⟩
    obtain ⟨first, hfirst, hle⟩ := exists_beforeComment? hother
    obtain rfl := Option.some.inj (hfirst.symm.trans hfound)
    exact hle
  · rintro ⟨hcomment, hleast⟩
    obtain ⟨first, hfirst, hle⟩ := exists_beforeComment? hcomment
    have hge := hleast first (commentBehind_of_beforeComment? hfirst)
    rwa [← hle.eq_of_length_le hge.length_le]

/-- No comment is found just if behind none of the letters there is one. -/
theorem beforeComment?_eq_none_iff :
    beforeComment? letters = none ↔ ∀ before, ¬CommentBehind before letters := by
  constructor
  · intro hnone before hcomment
    obtain ⟨first, hfirst, -⟩ := exists_beforeComment? hcomment
    cases hnone.symm.trans hfirst
  · intro hnone
    cases hfound : beforeComment? letters with
    | none => rfl
    | some before => exact absurd (commentBehind_of_beforeComment? hfound) (hnone before)

/-! ## Bytes and letters -/

/-- A letter that is no mark has no byte of one. -/
theorem isInert_of_mem_utf8EncodeChar {letter : Char} (hbackslash : letter ≠ '\\')
    (hslash : letter ≠ '/') {byte : UInt8} (hmem : byte ∈ String.utf8EncodeChar letter) :
    IsInert byte := by
  constructor <;> rintro rfl
  · exact hbackslash (ofUInt8_of_mem_utf8EncodeChar hmem (by decide)).symm
  · exact hslash (ofUInt8_of_mem_utf8EncodeChar hmem (by decide)).symm

/-- A slash without another one behind it begins no comment. -/
theorem commentStart?_slash {rest : List UInt8} (hrest : rest.head? ≠ some 47) :
    commentStart? (47 :: rest) = (commentStart? rest).map (· + 1) := by
  cases rest with
  | nil => rfl
  | cons second others =>
      have hsecond : second ≠ 47 := fun hsame => hrest (congrArg some hsame)
      rw [commentStart?, if_neg (by decide), if_neg (by simp [hsecond])]

/-- Where no comment begins, all bytes of a letter are passed over. -/
theorem commentStart?_letter {letter : Char} (hbackslash : letter ≠ '\\')
    (hcomment : ¬['/', '/'] <+: letter :: letters) :
    commentStart? (String.utf8EncodeChar letter ++ letters.flatMap String.utf8EncodeChar) =
      (commentStart? (letters.flatMap String.utf8EncodeChar)).map
        (· + (String.utf8EncodeChar letter).length) := by
  by_cases hslash : letter = '/'
  · subst hslash
    have hbytes : String.utf8EncodeChar '/' = [47] := by decide
    rw [hbytes, List.singleton_append]
    apply commentStart?_slash
    intro hhead
    obtain ⟨next, others, rfl⟩ : ∃ next others, letters = next :: others :=
      List.exists_cons_of_ne_nil (by rintro rfl; cases hhead)
    rw [List.flatMap_cons, List.head?_append_of_ne_nil _ String.utf8EncodeChar_ne_nil] at hhead
    have hnext : '/' = next :=
      ofUInt8_of_mem_utf8EncodeChar (List.mem_of_mem_head? hhead) (by decide)
    exact hcomment (by simpa using hnext)
  · exact commentStart?_append (fun _ hmem => isInert_of_mem_utf8EncodeChar hbackslash hslash hmem) _

/-- Among the bytes of some letters a comment begins where the scan over the letters finds it. -/
theorem commentStart?_flatMap (letters : List Char) :
    commentStart? (letters.flatMap String.utf8EncodeChar) =
      (beforeComment? letters).map fun before =>
        (before.flatMap String.utf8EncodeChar).length := by
  have hbackslash : String.utf8EncodeChar '\\' = [92] := by decide
  have hslash : String.utf8EncodeChar '/' = [47] := by decide
  fun_induction beforeComment? letters with
  | case1 => rfl
  | case2 => decide
  | case3 escaped later ih =>
      rw [List.flatMap_cons, List.flatMap_cons, hbackslash, List.singleton_append,
        commentStart?_escaped, ih, Option.map_map, Option.map_map]
      congr 1
      funext before
      simp only [Function.comp_apply, List.flatMap_cons, hbackslash, List.length_append,
        List.length_cons, List.length_nil]
      omega
  | case4 letter others hletter hcomment =>
      obtain ⟨rest, hrest⟩ := hcomment
      rw [← hrest, List.flatMap_append, List.flatMap_cons, List.flatMap_singleton, hslash]
      rfl
  | case5 letter others hletter hcomment ih =>
      rw [List.flatMap_cons, commentStart?_letter hletter hcomment, ih, Option.map_map,
        Option.map_map]
      congr 1
      funext before
      simp only [Function.comp_apply, List.flatMap_cons, List.length_append]
      omega

theorem commentStart?_bytesOf (line : String) :
    commentStart? (bytesOf line) =
      (beforeComment? line.toList).map fun before => (bytesOf (String.ofList before)).length := by
  simp only [bytesOf_eq_flatMap line, bytesOf_ofList_eq_flatMap, commentStart?_flatMap]

/-! ## Lines without their comment -/

/-- A line without its comment, cut out of the line.  It cannot be cut inside a character. -/
def stripCommentCut? (line : String) : Option String :=
  match commentStart? (bytesOf line) with
  | some start => (cut? line 0 start).map trimEnd
  | none => some line

/-- What the scan finds is the front of the line. -/
theorem exists_append_of_beforeComment? {line : String}
    (hfound : beforeComment? line.toList = some before) :
    ∃ rest : String, line = String.ofList before ++ rest := by
  obtain ⟨rest, hrest⟩ := (commentBehind_of_beforeComment? hfound).2
  refine ⟨String.ofList ('/' :: '/' :: rest), ?_⟩
  rw [← String.toList_inj, ← hrest]
  simp

/-- Stripping a line keeps what stands before the comment, without the blanks at its end. -/
theorem stripComment_eq (line : String) :
    stripComment line =
      match beforeComment? line.toList with
      | some before => trimEnd (String.ofList before)
      | none => line := by
  rw [stripComment, commentStart?_bytesOf]
  cases hfound : beforeComment? line.toList with
  | none => rfl
  | some before =>
      obtain ⟨rest, rfl⟩ := exists_append_of_beforeComment? hfound
      simp only [Option.map_some, bytesOf_append, List.take_left, ofBytes?_bytesOf,
        Option.getD_some]

/-- The place where a comment begins is no place inside a character. -/
theorem stripCommentCut?_eq_some (line : String) :
    stripCommentCut? line = some (stripComment line) := by
  rw [stripCommentCut?, stripComment_eq, commentStart?_bytesOf]
  cases hfound : beforeComment? line.toList with
  | none => rfl
  | some before =>
      obtain ⟨rest, rfl⟩ := exists_append_of_beforeComment? hfound
      simp only [Option.map_some, cut?_append]

theorem trimEnd_isPrefix (letters : List Char) :
    (trimEnd (String.ofList letters)).toList <+: letters := by
  rw [trimEnd, String.toList_ofList, String.toList_ofList]
  exact List.rdropWhile_prefix isBlank letters

theorem stripComment_isPrefix (line : String) : (stripComment line).toList <+: line.toList := by
  rw [stripComment_eq]
  cases hfound : beforeComment? line.toList with
  | none => exact List.prefix_rfl
  | some before =>
      obtain ⟨rest, rfl⟩ := exists_append_of_beforeComment? hfound
      exact (trimEnd_isPrefix before).trans (by simp)

/-- A line that was stripped has no comment any more, since it was cut at the first one. -/
theorem not_commentBehind_stripComment (line : String) (other : List Char) :
    ¬CommentBehind other (stripComment line).toList := by
  intro hother
  rw [stripComment_eq] at hother
  cases hfound : beforeComment? line.toList with
  | none =>
      rw [hfound] at hother
      exact beforeComment?_eq_none_iff.mp hfound other hother
  | some before =>
      -- A comment in what is left would be one of the line, and stand before the first.
      rw [hfound] at hother
      have hleft := hother.mono (trimEnd_isPrefix before)
      obtain ⟨⟨-, hbefore⟩, hleast⟩ := beforeComment?_eq_some_iff.mp hfound
      have hline : CommentBehind other line.toList :=
        hleft.mono ((List.prefix_append before ['/', '/']).trans hbefore)
      have hshort := (hleast other hline).length_le
      have hlong := hleft.length_le
      omega

/-- A line without a comment is left as it is. -/
theorem stripComment_eq_self {line : String}
    (hnone : ∀ before, ¬CommentBehind before line.toList) : stripComment line = line := by
  rw [stripComment_eq, beforeComment?_eq_none_iff.mpr hnone]

/-- The comment of a line is looked for among its bytes, but that is where a scan over its characters
finds it: the first slash with another one right behind it, where a backslash takes the next
character for itself.  The line is never cut inside a character.  What is left is the front of the
line, without a comment, so that nothing more is taken from it. -/
theorem stripComment_scanned (line : String) :
    (stripComment line =
      match beforeComment? line.toList with
      | some before => trimEnd (String.ofList before)
      | none => line) ∧
    stripCommentCut? line = some (stripComment line) ∧
    (stripComment line).toList <+: line.toList ∧
    (∀ before, ¬CommentBehind before (stripComment line).toList) ∧
    stripComment (stripComment line) = stripComment line :=
  ⟨stripComment_eq line, stripCommentCut?_eq_some line, stripComment_isPrefix line,
    not_commentBehind_stripComment line,
    stripComment_eq_self (not_commentBehind_stripComment line)⟩

/-- The blank behind a backslash goes with the comment. -/
example : stripComment "At\\ // here" = "At\\" := by decide

end AchievementLogic.Presence
