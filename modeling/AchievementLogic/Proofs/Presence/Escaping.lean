import AchievementLogic.Presence.Script
import AchievementLogic.Proofs.Text.Bytes

/-!
# Escaped texts

A text with a backslash before every letter goes through a script unchanged: it has no comment, as
every byte that could begin one stands behind a backslash; it is no condition, and no letter of it
begins a tag.  Comments are looked for among bytes and escapes among letters, which comes to the same
because a byte below 128 is never a part of another letter.
-/

namespace AchievementLogic

open Text

/-- Behind its first byte a letter has no byte of another one. -/
theorem Text.toNat_ge_of_mem_tail {letter : Char} {first byte : UInt8} {others : List UInt8}
    (hbytes : String.utf8EncodeChar letter = first :: others) (hmem : byte ∈ others) :
    128 ≤ byte.toNat := by
  by_contra hsmall
  have hletter := ofUInt8_of_mem_utf8EncodeChar (hbytes ▸ List.mem_cons_of_mem first hmem)
    (Nat.lt_of_not_le hsmall)
  have hnumber : letter.toNat = byte.toNat := by
    rw [← hletter]
    exact UInt8.toNat_toUInt32 byte
  rw [utf8EncodeChar_of_ascii (by omega)] at hbytes
  rw [(List.cons.inj hbytes).2.symm] at hmem
  cases hmem

namespace Presence

/-- A text with a backslash before every letter. -/
def escapeLetters (letters : List Char) : List Char := letters.flatMap fun letter => ['\\', letter]

def escape (text : String) : String := String.ofList (escapeLetters text.toList)

theorem mem_escapeLetters {letters : List Char} {letter : Char}
    (hmem : letter ∈ escapeLetters letters) : letter = '\\' ∨ letter ∈ letters := by
  obtain ⟨other, hother, hletter⟩ := List.mem_flatMap.mp hmem
  simp only [List.mem_cons, List.not_mem_nil, or_false] at hletter
  rcases hletter with hslash | rfl
  · exact .inl hslash
  · exact .inr hother

theorem getLast?_escapeLetters (letters : List Char) :
    (escapeLetters letters).getLast? = letters.getLast? := by
  induction letters with
  | nil => rfl
  | cons letter others ih =>
      rw [escapeLetters, List.flatMap_cons, List.getLast?_append, ← escapeLetters, ih]
      cases others with
      | nil => rfl
      | cons next later => simp [List.getLast?_cons]

theorem not_mem_escape {text : String} (hline : '\n' ∉ text.toList) :
    '\n' ∉ (escape text).toList := by
  intro hmem
  rw [escape, String.toList_ofList] at hmem
  rcases mem_escapeLetters hmem with hslash | hletter
  · exact absurd hslash (by decide)
  · exact hline hletter

theorem getLast?_escape (text : String) : (escape text).toList.getLast? = text.toList.getLast? := by
  rw [escape, String.toList_ofList, getLast?_escapeLetters]

/-! ## Comments -/

/-- Bytes that neither escape the next one nor begin a comment. -/
def IsInert (byte : UInt8) : Prop := byte ≠ 92 ∧ byte ≠ 47

instance (byte : UInt8) : Decidable (IsInert byte) := inferInstanceAs (Decidable (_ ∧ _))

theorem commentStart?_cons {byte : UInt8} (hinert : IsInert byte) (rest : List UInt8) :
    commentStart? (byte :: rest) = (commentStart? rest).map (· + 1) := by
  cases rest with
  | nil => rfl
  | cons second others =>
      rw [commentStart?, if_neg hinert.1, if_neg (by simp [hinert.2])]

/-- Inert bytes before a comment only move it. -/
theorem commentStart?_append {bytes : List UInt8} (hinert : ∀ byte ∈ bytes, IsInert byte)
    (rest : List UInt8) :
    commentStart? (bytes ++ rest) = (commentStart? rest).map (· + bytes.length) := by
  induction bytes with
  | nil => exact Option.map_id'.symm
  | cons byte others ih =>
      rw [List.cons_append, commentStart?_cons (hinert byte List.mem_cons_self),
        ih fun byte hmem => hinert byte (List.mem_cons_of_mem _ hmem), Option.map_map]
      rfl

/-- Where there is no comment later, inert bytes before that make none. -/
theorem commentStart?_append_of_inert {bytes rest : List UInt8}
    (hinert : ∀ byte ∈ bytes, IsInert byte) (hrest : commentStart? rest = none) :
    commentStart? (bytes ++ rest) = none := by
  rw [commentStart?_append hinert, hrest, Option.map_none]

/-- Behind a backslash only the first byte of a letter is passed over, but no other byte of it is a
mark. -/
theorem commentStart?_escaped (escaped : Char) (rest : List UInt8) :
    commentStart? (92 :: (String.utf8EncodeChar escaped ++ rest)) =
      (commentStart? rest).map (· + (1 + (String.utf8EncodeChar escaped).length)) := by
  obtain ⟨first, others, hbytes⟩ := List.exists_cons_of_ne_nil
    (String.utf8EncodeChar_ne_nil : String.utf8EncodeChar escaped ≠ [])
  have hothers : ∀ byte ∈ others, IsInert byte := by
    intro byte hmem
    have hlarge := toNat_ge_of_mem_tail hbytes hmem
    constructor <;> (rintro rfl; exact absurd hlarge (by decide))
  rw [hbytes, List.cons_append, commentStart?, if_pos rfl, commentStart?_append hothers,
    Option.map_map]
  congr 1
  funext start
  simp only [Function.comp_apply, List.length_cons]
  omega

/-- No comment begins in an escaped text, since every slash has a backslash before it. -/
theorem commentStart?_escape (text : String) : commentStart? (bytesOf (escape text)) = none := by
  rw [escape, bytesOf_ofList_eq_flatMap]
  induction text.toList with
  | nil => rfl
  | cons letter others ih =>
      have hpair : ['\\', letter].flatMap String.utf8EncodeChar =
          92 :: String.utf8EncodeChar letter := by
        rw [List.flatMap_cons, List.flatMap_singleton]
        rfl
      rw [escapeLetters, List.flatMap_cons, List.flatMap_append, ← escapeLetters, hpair]
      rw [List.cons_append, commentStart?_escaped, ih, Option.map_none]

theorem stripComment_of_none {line : String} (hnone : commentStart? (bytesOf line) = none) :
    stripComment line = line := by
  rw [stripComment, hnone]

/-! ## Lines -/

namespace Script

/-- A line without a carriage return at its end and without a comment is taken as it is. -/
theorem cleanLine_of_none {line : String} (hlast : line.toList.getLast? ≠ some '\r')
    (hnone : commentStart? (bytesOf line) = none) : cleanLine line.toList = line := by
  rw [cleanLine, if_neg hlast, String.ofList_toList, stripComment_of_none hnone]

/-- An escaped text is taken as it is, also behind an opening without marks. -/
theorem cleanLine_append_escape {opening text : String}
    (hinert : ∀ byte ∈ bytesOf opening, IsInert byte)
    (hopening : opening.toList.getLast? ≠ some '\r') (hlast : text.toList.getLast? ≠ some '\r') :
    cleanLine (opening ++ escape text).toList = opening ++ escape text := by
  apply cleanLine_of_none
  · rw [String.toList_append, List.getLast?_append, getLast?_escape]
    cases hend : text.toList.getLast? with
    | none => exact hopening
    | some letter =>
        rw [hend] at hlast
        exact hlast
  · rw [bytesOf_append]
    exact commentStart?_append_of_inert hinert (commentStart?_escape text)

/-- The text before the first mark and the text after it. -/
theorem splitOnce?_append {mark : Char} {before : List Char} (hbefore : mark ∉ before)
    (after : List Char) : splitOnce? mark (before ++ mark :: after) = some (before, after) := by
  induction before with
  | nil => rw [List.nil_append, splitOnce?, if_pos rfl]
  | cons letter others ih =>
      obtain ⟨hletter, hothers⟩ := List.ne_and_not_mem_of_not_mem_cons hbefore
      rw [List.cons_append, splitOnce?, if_neg hletter.symm, ih hothers]
      rfl

end Script

/-! ## Display lines -/

/-- The letters of an escaped text are read one by one and nothing else is. -/
theorem segmentsFrom_escapeLetters (before letters : List Char) :
    segmentsFrom (.text before) (escapeLetters letters) =
      (Reading.text (letters.reverse ++ before)).close := by
  induction letters generalizing before with
  | nil => rfl
  | cons letter others ih =>
      have hstep : segmentsFrom (.text before) (escapeLetters (letter :: others)) =
          segmentsFrom (.text (letter :: before)) (escapeLetters others) := rfl
      rw [hstep, ih, List.reverse_cons, List.append_assoc, List.singleton_append]

theorem Display.ofLine_escape {text : String} (hsome : text ≠ "") :
    Display.ofLine (escape text) = ⟨[.text text]⟩ := by
  obtain ⟨letter, others, hletters⟩ : ∃ letter others, text.toList.reverse = letter :: others := by
    apply List.exists_cons_of_ne_nil
    simpa using hsome
  rw [ofLine, escape, String.toList_ofList, segmentsFrom_escapeLetters, List.append_nil, hletters,
    Reading.close, Reading.textOf, ← hletters, List.reverse_reverse, String.ofList_toList]
  simp

theorem Display.render_text (text : String) (frame : Frame) (lookups : List (String × Lookup))
    (formats : List (String × Format)) :
    Display.render ⟨[.text text]⟩ frame lookups formats = text := by
  simp [render, String.join]

end Presence

end AchievementLogic
