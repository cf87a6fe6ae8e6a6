import AchievementLogic.Proofs.Text.Bytes
import Mathlib.Data.List.Induction
import Mathlib.Tactic.IntervalCases

/-!
# Reading numerals

Digits are read as far as they go, and their value is held at the largest word.  A numeral that was
written for a whole number is therefore read back in full, as soon as no further digit follows it.
-/

namespace AchievementLogic.Text

/-- The number that digits of a base write, the first one being the highest. -/
def numberOf (base : Nat) (digits : List Nat) : Nat :=
  digits.foldl (fun value digit => value * base + digit) 0

theorem numberOf_append_singleton (base : Nat) (digits : List Nat) (digit : Nat) :
    numberOf base (digits ++ [digit]) = numberOf base digits * base + digit := by
  simp [numberOf]

/-- Leading zeros do not count. -/
theorem numberOf_replicate_zero_append (base count : Nat) (digits : List Nat) :
    numberOf base (List.replicate count 0 ++ digits) = numberOf base digits := by
  have hzeros : numberOf base (List.replicate count 0) = 0 := by
    induction count with
    | zero => rfl
    | succ count ih => rw [List.replicate_succ', numberOf_append_singleton, ih, Nat.zero_mul]
  rw [numberOf, List.foldl_append, ← numberOf, hzeros]
  rfl

/-- Zeros at the end multiply by the base. -/
theorem numberOf_append_replicate_zero (base count : Nat) (digits : List Nat) :
    numberOf base (digits ++ List.replicate count 0) = numberOf base digits * base ^ count := by
  induction count with
  | zero => simp
  | succ count ih =>
      rw [List.replicate_succ', ← List.append_assoc, numberOf_append_singleton, ih, Nat.add_zero,
        Nat.pow_succ, Nat.mul_assoc]

/-- The word nearest to a number. -/
def clampedWord (number : Nat) : UInt32 := UInt32.ofNat (min number (2 ^ 32 - 1))

@[simp]
theorem clampedWord_toNat (word : UInt32) : clampedWord word.toNat = word := by
  have hlt := word.toNat_lt
  rw [clampedWord, Nat.min_eq_left (by omega), UInt32.ofNat_toNat]

/-- Bytes that show, one by one, as the digits of a base. -/
def AreDigits (base : Nat) (bytes : List UInt8) (digits : List Nat) : Prop :=
  bytes.map (fun byte => digitValue? base (Char.ofUInt8 byte)) = digits.map some

theorem AreDigits.isSome_digitValue? {base : Nat} {bytes : List UInt8} {digits : List Nat}
    (hdigits : AreDigits base bytes digits) :
    ∀ byte ∈ bytes, (digitValue? base (Char.ofUInt8 byte)).isSome := by
  intro byte hmem
  have himage : digitValue? base (Char.ofUInt8 byte) ∈ digits.map some := by
    rw [← hdigits]
    exact List.mem_map_of_mem hmem
  obtain ⟨digit, -, hdigit⟩ := List.mem_map.mp himage
  exact Option.isSome_of_eq_some hdigit.symm

/-- The next byte, if there is one, is no digit of the base. -/
def EndsDigits (base : Nat) (rest : List UInt8) : Prop :=
  ∀ byte ∈ rest.head?, digitValue? base (Char.ofUInt8 byte) = none

/-- Digits that nothing continues are the leading ones. -/
theorem leadingDigits_append {base : Nat} {bytes rest : List UInt8} {digits : List Nat}
    (hdigits : AreDigits base bytes digits) (hrest : EndsDigits base rest) :
    leadingDigits base (bytes ++ rest) = digits := by
  induction bytes generalizing digits with
  | nil =>
      obtain rfl : digits = [] := List.map_eq_nil_iff.mp hdigits.symm
      cases rest with
      | nil => rfl
      | cons byte others => simp [leadingDigits, hrest byte (by simp)]
  | cons byte others ih =>
      cases digits with
      | nil => simp [AreDigits] at hdigits
      | cons digit digits =>
          obtain ⟨hbyte, hothers⟩ := List.cons.inj hdigits
          simp only [List.cons_append, leadingDigits, hbyte, ih hothers]

namespace Scan

/-- Holding the value at its bound along the way comes to the same as bounding it at the end. -/
theorem heldValue_eq_min {base : Nat} (hbase : 0 < base) (digits : List Nat) :
    heldValue base digits = min (numberOf base digits) (2 ^ 32) := by
  induction digits using List.reverseRecOn with
  | nil => rfl
  | append_singleton digits digit ih =>
      have hstep : heldValue base (digits ++ [digit]) =
          min (heldValue base digits * base + digit) (2 ^ 32) := by
        simp [heldValue]
      rw [hstep, numberOf_append_singleton, ih]
      by_cases hsmall : numberOf base digits ≤ 2 ^ 32
      · rw [Nat.min_eq_left hsmall]
      · have hlarge : 2 ^ 32 ≤ numberOf base digits := by omega
        have hheld : 2 ^ 32 ≤ 2 ^ 32 * base := Nat.le_mul_of_pos_right _ hbase
        have hnumber : 2 ^ 32 ≤ numberOf base digits * base :=
          le_trans hlarge (Nat.le_mul_of_pos_right _ hbase)
        rw [Nat.min_eq_right hlarge, Nat.min_eq_right (by omega), Nat.min_eq_right (by omega)]

/-- Digits that nothing continues are read as the word nearest to their number, however many of them
there are. -/
theorem readDigits_append {base : Nat} (hbase : 0 < base) {bytes rest : List UInt8}
    {digits : List Nat} (hdigits : AreDigits base bytes digits) (hsome : bytes ≠ [])
    (hrest : EndsDigits base rest) (position : Nat) :
    readDigits ⟨bytes ++ rest, position⟩ base =
      some (clampedWord (numberOf base digits), ⟨rest, position + bytes.length⟩) := by
  have hlength : digits.length = bytes.length := by
    simpa using (congrArg List.length hdigits).symm
  have hrun : digitRun ⟨bytes ++ rest, position⟩ base = digits :=
    leadingDigits_append hdigits hrest
  have hne : digits ≠ [] := by
    intro hnil
    exact hsome (List.eq_nil_of_length_eq_zero (by rw [← hlength, hnil]; rfl))
  have hclamp : UInt32.ofNat (min (heldValue base digits) (Nat.pow 2 32 - 1)) =
      clampedWord (numberOf base digits) := by
    rw [heldValue_eq_min hbase, clampedWord, Nat.pow_eq]
    congr 1
    omega
  have hskip : skip ⟨bytes ++ rest, position⟩ digits.length =
      ⟨rest, position + bytes.length⟩ := by
    simp [skip, hlength]
  rw [readDigits, hrun]
  cases digits with
  | nil => exact absurd rfl hne
  | cons first others => simp only [hclamp, hskip]

/-- Where no digit comes next, no number is read. -/
theorem readDigits_eq_none {base : Nat} {rest : List UInt8} (hrest : EndsDigits base rest)
    (position : Nat) : readDigits ⟨rest, position⟩ base = none := by
  have hnone : AreDigits base [] [] := rfl
  have hrun : digitRun ⟨rest, position⟩ base = [] := leadingDigits_append hnone hrest
  rw [readDigits, hrun]

end Scan

/-! ## Numerals that were written -/

theorem digitValue?_digitChar {base digit : Nat} (hbase : base ≤ 16) (hdigit : digit < base) :
    digitValue? base (Nat.digitChar digit) = some digit := by
  have hsixteen : digit < 16 := by omega
  interval_cases digit <;> simp [digitValue?, Nat.digitChar, Option.filter, hdigit]

def digitByte (digit : Nat) : UInt8 := (Nat.digitChar digit).toUInt8

theorem ofUInt8_digitByte {digit : Nat} (hdigit : digit < 16) :
    Char.ofUInt8 (digitByte digit) = Nat.digitChar digit := by
  interval_cases digit <;> rfl

theorem areDigits_map_digitByte {base : Nat} (hbase : base ≤ 16) {digits : List Nat}
    (hdigits : ∀ digit ∈ digits, digit < base) :
    AreDigits base (digits.map digitByte) digits := by
  rw [AreDigits, List.map_map]
  apply List.map_congr_left
  intro digit hmem
  have hlt := hdigits digit hmem
  rw [Function.comp_apply, ofUInt8_digitByte (by omega), digitValue?_digitChar hbase hlt]

theorem bytesOf_digitChars {digits : List Nat} (hdigits : ∀ digit ∈ digits, digit < 16) :
    bytesOf (String.ofList (digits.map Nat.digitChar)) = digits.map digitByte := by
  rw [bytesOf_ofList, List.map_map]
  · rfl
  · intro letter hmem
    obtain ⟨digit, hdigit, rfl⟩ := List.mem_map.mp hmem
    have hlt := hdigits digit hdigit
    interval_cases digit <;> decide

/-- A whole number is written by digits that stand for it. -/
theorem exists_toDigits {base : Nat} (hbase : 1 < base) (number : Nat) :
    ∃ digits, Nat.toDigits base number = digits.map Nat.digitChar ∧ digits ≠ [] ∧
      (∀ digit ∈ digits, digit < base) ∧ numberOf base digits = number := by
  induction number using Nat.base_induction base hbase with
  | single digit hdigit =>
      exact ⟨[digit], by simp [Nat.toDigits_of_lt_base hdigit], by simp, by simpa using hdigit,
        by simp [numberOf]⟩
  | digit higher digit hdigit hpos ih =>
      obtain ⟨digits, htext, hne, hlt, hnumber⟩ := ih
      refine ⟨digits ++ [digit], ?_, by simp, ?_, ?_⟩
      · rw [← Nat.toDigits_append_toDigits hbase hpos hdigit, htext,
          Nat.toDigits_of_lt_base hdigit, List.map_append]
        rfl
      · intro other hmem
        rcases List.mem_append.mp hmem with hold | hnew
        · exact hlt other hold
        · rwa [List.mem_singleton.mp hnew]
      · rw [numberOf_append_singleton, hnumber, Nat.mul_comm]

/-- The bytes of a decimal numeral. -/
theorem areDigits_toString (number : Nat) :
    ∃ digits, AreDigits 10 (bytesOf (toString number)) digits ∧
      bytesOf (toString number) ≠ [] ∧ numberOf 10 digits = number := by
  obtain ⟨digits, htext, hne, hlt, hnumber⟩ := exists_toDigits (by decide : 1 < 10) number
  have hbytes : bytesOf (toString number) = digits.map digitByte := by
    rw [Nat.toString_eq_ofList_toDigits, htext,
      bytesOf_digitChars fun digit hmem => by have := hlt digit hmem; omega]
  rw [hbytes]
  exact ⟨digits, areDigits_map_digitByte (by decide) hlt, by simpa using hne, hnumber⟩

end AchievementLogic.Text
