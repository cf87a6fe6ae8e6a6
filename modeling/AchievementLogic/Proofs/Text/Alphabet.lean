import AchievementLogic.Proofs.Text.Consuming
import AchievementLogic.Proofs.Text.Delimiters

/-!
# The letters of definitions

A definition is made of few letters, all of them ASCII and none of them the end of a line.  This file
says which, and what it is to get from one place of a text to a later one over these letters alone.
-/

namespace AchievementLogic.Text

/-- Whether a letter has a meaning in definitions. -/
def isLegible (letter : Char) : Bool := letter.isAlphanum || " _:.()<>=!~+-*$|".toList.contains letter

def IsLegible (byte : UInt8) : Prop := isLegible (Char.ofUInt8 byte) = true

instance (byte : UInt8) : Decidable (IsLegible byte) := inferInstanceAs (Decidable (_ = true))

theorem toNat_lt_of_isLegible : ∀ byte : UInt8, IsLegible byte → byte.toNat < 128 :=
  forall_byte (by decide +kernel)

theorem isInk_of_isLegible {byte : UInt8} (hlegible : IsLegible byte) : IsInk byte := by
  constructor
  · intro hbyte
    exact absurd hlegible (by rw [IsLegible, hbyte]; decide)
  · intro hbyte
    exact absurd hlegible (by rw [IsLegible, hbyte]; decide)

theorem isLegible_of_range : ∀ byte : UInt8,
    ('0' ≤ Char.ofUInt8 byte ∧ Char.ofUInt8 byte ≤ '9') ∨
      ('a' ≤ Char.ofUInt8 byte ∧ Char.ofUInt8 byte ≤ 'f') ∨
      ('A' ≤ Char.ofUInt8 byte ∧ Char.ofUInt8 byte ≤ 'F') → IsLegible byte :=
  forall_byte (by decide +kernel)

theorem isLegible_of_digit {base : Nat} {byte : UInt8}
    (hdigit : (digitValue? base (Char.ofUInt8 byte)).isSome) : IsLegible byte := by
  apply isLegible_of_range
  by_contra hnone
  simp only [not_or] at hnone
  simp [digitValue?, hnone] at hdigit

/-- A text whose bytes are legible is made of legible letters. -/
theorem isLegible_of_mem_toList {text : String} (hbytes : ∀ byte ∈ bytesOf text, IsLegible byte) :
    ∀ letter ∈ text.toList, isLegible letter = true := by
  intro letter hmem
  rw [bytesOf_eq_flatMap] at hbytes
  obtain ⟨byte, hbyte⟩ := List.exists_mem_of_ne_nil _ String.utf8EncodeChar_ne_nil
  have hlegible := hbytes byte (List.mem_flatMap.mpr ⟨letter, hmem, hbyte⟩)
  rw [← ofUInt8_of_mem_utf8EncodeChar hbyte (toNat_lt_of_isLegible byte hlegible)]
  exact hlegible

namespace Scan

/-- From one place to a later one, with legible bytes between them. -/
def Reaches (scan after : Scan) : Prop :=
  ∃ taken, scan.remaining = taken ++ after.remaining ∧
    after.position = scan.position + taken.length ∧ ∀ byte ∈ taken, IsLegible byte

theorem Reaches.refl (scan : Scan) : scan.Reaches scan := ⟨[], rfl, rfl, by simp⟩

theorem Reaches.trans {scan between after : Scan} (hfirst : scan.Reaches between)
    (hsecond : between.Reaches after) : scan.Reaches after := by
  obtain ⟨left, hleft, hleftPosition, hleftLegible⟩ := hfirst
  obtain ⟨right, hright, hrightPosition, hrightLegible⟩ := hsecond
  refine ⟨left ++ right, by rw [hleft, hright, List.append_assoc], ?_, ?_⟩
  · rw [hrightPosition, hleftPosition, List.length_append, Nat.add_assoc]
  · exact List.forall_mem_append.mpr ⟨hleftLegible, hrightLegible⟩

theorem Reaches.position_le {scan after : Scan} (hreaches : scan.Reaches after) :
    scan.position ≤ after.position := by
  obtain ⟨taken, -, hposition, -⟩ := hreaches
  omega

theorem Reaches.length_le {scan after : Scan} (hreaches : scan.Reaches after) :
    after.remaining.length ≤ scan.remaining.length := by
  obtain ⟨taken, htaken, -, -⟩ := hreaches
  rw [htaken, List.length_append]
  exact Nat.le_add_left _ _

theorem reaches_skip_append {taken rest : List UInt8} (hlegible : ∀ byte ∈ taken, IsLegible byte)
    (position : Nat) :
    Reaches ⟨taken ++ rest, position⟩ (skip ⟨taken ++ rest, position⟩ taken.length) := by
  rw [skip_append]
  exact ⟨taken, rfl, rfl, hlegible⟩

theorem reaches_skip_one {scan : Scan} {letter : Char} (hpeek : scan.peek = some letter)
    (hletter : isLegible letter = true) : scan.Reaches (scan.skip 1) := by
  obtain ⟨remaining, position⟩ := scan
  cases remaining with
  | nil => cases hpeek
  | cons byte others =>
      obtain rfl : Char.ofUInt8 byte = letter := Option.some.inj hpeek
      have hall : ∀ other ∈ [byte], IsLegible other := by simpa [IsLegible] using hletter
      exact reaches_skip_append hall position

theorem reaches_skip_two {scan : Scan} {first second : Char} (hpeek : scan.peek = some first)
    (hnext : scan.peekAt 1 = some second) (hfirst : isLegible first = true)
    (hsecond : isLegible second = true) : scan.Reaches (scan.skip 2) := by
  obtain ⟨remaining, position⟩ := scan
  match remaining with
  | [] => cases hpeek
  | [byte] => cases hnext
  | byte :: other :: others =>
      have hlater : Reaches ⟨other :: others, position + 1⟩ ⟨others, position + 2⟩ :=
        reaches_skip_one hnext hsecond
      exact (reaches_skip_one hpeek hfirst).trans hlater

/-- Digits are legible, whatever the base. -/
theorem reaches_skip_digitRun (scan : Scan) (base : Nat) :
    scan.Reaches (scan.skip (scan.digitRun base).length) := by
  obtain ⟨remaining, position⟩ := scan
  obtain ⟨front, back, digits, rfl, hfront, hback⟩ := exists_leadingDigits base remaining
  have hrun : digitRun ⟨front ++ back, position⟩ base = digits := leadingDigits_append hfront hback
  have hlength : digits.length = front.length := by
    simpa using (congrArg List.length hfront).symm
  rw [hrun, hlength]
  have hlegible : ∀ byte ∈ front, IsLegible byte :=
    fun byte hmem => isLegible_of_digit (hfront.isSome_digitValue? byte hmem)
  exact reaches_skip_append hlegible position

theorem reaches_skip_hexMark {scan : Scan} (hmark : scan.hasHexMarkAt 0 = true) :
    scan.Reaches (scan.skip 2) := by
  simp only [hasHexMarkAt, Bool.and_eq_true, Bool.or_eq_true, decide_eq_true_eq] at hmark
  obtain ⟨hzero, hlower | hupper⟩ := hmark
  · exact reaches_skip_two hzero hlower (by decide) (by decide)
  · exact reaches_skip_two hzero hupper (by decide) (by decide)

theorem skip_skip (scan : Scan) (first second : Nat) :
    (scan.skip first).skip second = scan.skip (first + second) := by
  simp [skip, List.take_add, Nat.add_assoc]

end Scan

end AchievementLogic.Text
