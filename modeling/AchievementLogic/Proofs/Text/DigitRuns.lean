import AchievementLogic.Proofs.Text.Consuming
import Mathlib.Data.Nat.Digits.Defs

/-!
# Numbers at a place

A number is read from the longest run of digits at a place, however long it is, and is held in a word
at the end: the loop keeps the value at one above the largest word, which comes to the same.  Nothing
is read, and the place stays, where no digit stands.  A sign belongs to a number only if a digit
follows; a number below zero is read as its two's complement, down to the least signed word.
-/

namespace AchievementLogic.Text

/-! ## Runs of digits -/

/-- The digit of a base that a byte shows.  The digits are `0` to `9` and then `a` to `f`, these in
either case, as many of them as the base has. -/
def shownDigit? (base : ℕ) (byte : UInt8) : Option ℕ :=
  (List.range base).find? fun value =>
    Char.ofUInt8 byte == value.digitChar || Char.ofUInt8 byte == value.digitChar.toUpper

/-- The longest run of digits that bytes begin with. -/
def digitBytes (base : ℕ) (bytes : List UInt8) : List UInt8 :=
  bytes.takeWhile fun byte => (shownDigit? base byte).isSome

/-- The number that a run of digits writes, with the last one counting least. -/
def numberIn (base : ℕ) (run : List UInt8) : ℕ :=
  Nat.ofDigits base (run.filterMap (shownDigit? base)).reverse

theorem digitValue?_eq_shownDigit? {base : ℕ} (hbase : base = 10 ∨ base = 16) (byte : UInt8) :
    digitValue? base (Char.ofUInt8 byte) = shownDigit? base byte := by
  rcases hbase with rfl | rfl
  · revert byte
    exact forall_byte (by decide +kernel)
  · revert byte
    exact forall_byte (by decide +kernel)

theorem numberOf_eq_ofDigits (base : ℕ) (digits : List ℕ) :
    numberOf base digits = Nat.ofDigits base digits.reverse := by
  induction digits using List.reverseRecOn with
  | nil => rfl
  | append_singleton digits digit ih =>
      rw [numberOf_append_singleton, ih, List.reverse_append, List.reverse_singleton,
        List.singleton_append, Nat.ofDigits_cons]
      ring

section Runs

variable {base : ℕ} {run rest : List UInt8} {digits : List ℕ}

/-- Digits that nothing continues are the longest run. -/
theorem digitBytes_append (hbase : base = 10 ∨ base = 16) (hrun : AreDigits base run digits)
    (hrest : EndsDigits base rest) : digitBytes base (run ++ rest) = run := by
  have hdigits : ∀ byte ∈ run, (shownDigit? base byte).isSome = true := by
    intro byte hbyte
    rw [← digitValue?_eq_shownDigit? hbase]
    exact hrun.isSome_digitValue? byte hbyte
  have hnone : rest.takeWhile (fun byte => (shownDigit? base byte).isSome) = [] := by
    cases rest with
    | nil => rfl
    | cons byte others =>
        have hbyte : shownDigit? base byte = none := by
          rw [← digitValue?_eq_shownDigit? hbase]
          exact hrest byte rfl
        rw [List.takeWhile_cons, hbyte]
        rfl
  rw [digitBytes, List.takeWhile_append_of_pos hdigits, hnone, List.append_nil]

theorem numberIn_of_areDigits (hbase : base = 10 ∨ base = 16) (hrun : AreDigits base run digits) :
    numberIn base run = numberOf base digits := by
  have hshown : run.map (shownDigit? base) = digits.map some := by
    rw [← hrun]
    exact List.map_congr_left fun byte _ => (digitValue?_eq_shownDigit? hbase byte).symm
  have hdigits : run.filterMap (shownDigit? base) = digits := by
    have hfound := congrArg (List.filterMap id) hshown
    simpa [List.filterMap_map] using hfound
  rw [numberIn, hdigits, numberOf_eq_ofDigits]

end Runs

namespace Scan

/-- What is read at a place, and the place afterwards: the same one if nothing is read. -/
def attempt {Value : Type} (read : Scan → Option (Value × Scan)) (scan : Scan) :
    Option Value × Scan :=
  match read scan with
  | some (value, after) => (some value, after)
  | none => (none, scan)

/-- What an attempt comes to where a value is required. -/
def required {Value : Type} (cause : ParseError.Cause) (position : ℕ) :
    Option Value × Scan → EStateM.Result ParseError Scan Value
  | (some value, after) => .ok value after
  | (none, after) => .error ⟨cause, some position⟩ after

/-- A reader that requires a value stops where the attempt stops, also with an error. -/
theorem run_require_eq_required {Value : Type} (read : Scan → Option (Value × Scan))
    (scan : Scan) (cause : ParseError.Cause) (position : ℕ) :
    (Reader.require read cause position).run scan =
      required cause position (attempt read scan) := by
  rw [attempt, Reader.require, Reader.run_bind_of_ok (EStateM.run_get scan)]
  cases read scan <;> rfl

def behind (scan : Scan) (bytes : List UInt8) : Scan :=
  ⟨scan.remaining.drop bytes.length, scan.position + bytes.length⟩

/-- Digits are read as far as they go, and the word nearest to their number is given. -/
theorem readDigits_eq {base : ℕ} (hbase : base = 10 ∨ base = 16) (scan : Scan) :
    scan.readDigits base =
      let run := digitBytes base scan.remaining
      if run = [] then none else some (clampedWord (numberIn base run), scan.behind run) := by
  obtain ⟨remaining, position⟩ := scan
  obtain ⟨run, rest, digits, rfl, hrun, hrest⟩ := exists_leadingDigits base remaining
  have hpositive : 0 < base := by omega
  have hbytes : digitBytes base (run ++ rest) = run := digitBytes_append hbase hrun hrest
  simp only [hbytes]
  split
  case isTrue hnone =>
    rw [hnone, List.nil_append]
    exact readDigits_eq_none hrest position
  case isFalse hsome =>
    rw [readDigits_append hpositive hrun hsome hrest, numberIn_of_areDigits hbase hrun, behind,
      List.drop_left]

theorem attempt_readDigits {base : ℕ} (hbase : base = 10 ∨ base = 16) (scan : Scan) :
    attempt (readDigits · base) scan =
      let run := digitBytes base scan.remaining
      if run = [] then (none, scan)
      else (some (UInt32.ofNat (min (numberIn base run) (2 ^ 32 - 1))), scan.behind run) := by
  rw [attempt, readDigits_eq hbase]
  by_cases hnone : digitBytes base scan.remaining = []
  · simp only [hnone, if_true]
  · simp only [hnone, if_false]
    rfl

end Scan

/-! ## Signed numbers -/

/-- A sign that bytes begin with, if they do. -/
def signBytes (bytes : List UInt8) : List UInt8 :=
  (bytes.take 1).filter fun byte => Char.ofUInt8 byte == '-' || Char.ofUInt8 byte == '+'

/-- The word of a signed number: its remainder if the number is that of some word, signed or not, else
that of the nearest end. -/
def signedWord (number : ℤ) : UInt32 :=
  if number < -2 ^ 31 then 0x80000000
  else if 2 ^ 32 - 1 < number then 0xFFFFFFFF
  else UInt32.ofNat (number % 2 ^ 32).toNat

theorem signedWord_natCast (number : ℕ) : signedWord number = clampedWord number := by
  have hlow : ¬(number : ℤ) < -2 ^ 31 := by omega
  rw [signedWord, if_neg hlow, clampedWord]
  by_cases hfits : number ≤ 2 ^ 32 - 1
  · have hremainder : ((number : ℤ) % 2 ^ 32).toNat = number := by omega
    rw [if_neg (by omega), hremainder, Nat.min_eq_left hfits]
  · rw [if_pos (by omega), Nat.min_eq_right (by omega)]
    rfl

theorem toNat_clampedWord (number : ℕ) : (clampedWord number).toNat = min number (2 ^ 32 - 1) :=
  UInt32.toNat_ofNat_of_lt' (Nat.lt_of_le_of_lt (Nat.min_le_right _ _) (by decide))

/-- A negative number is the two's complement of its amount, which is held at that of the least
signed word. -/
theorem signedWord_neg_natCast (number : ℕ) :
    signedWord (-number) = 0 - min (clampedWord number) 0x80000000 := by
  have hclamped := toNat_clampedWord number
  have hlimit : (0x80000000 : UInt32).toNat = 2 ^ 31 := rfl
  rw [signedWord]
  by_cases hsmall : number ≤ 2 ^ 31
  · have hmin : min (clampedWord number) 0x80000000 = clampedWord number := by
      apply if_pos
      rw [UInt32.le_iff_toNat_le]
      omega
    have hremainder : (-(number : ℤ) % 2 ^ 32).toNat < 2 ^ 32 := by omega
    rw [if_neg (by omega), if_neg (by omega), hmin, ← UInt32.toNat_inj,
      UInt32.toNat_ofNat_of_lt' hremainder, UInt32.toNat_sub, hclamped, UInt32.toNat_zero]
    omega
  · have hmin : min (clampedWord number) 0x80000000 = 0x80000000 := by
      apply if_neg
      rw [UInt32.le_iff_toNat_le]
      omega
    rw [if_pos (by omega), hmin]
    rfl

namespace Scan

theorem behind_nil (scan : Scan) : scan.behind [] = scan := rfl

/-- A minus sign turns the word that is read behind it, down to the least signed one. -/
theorem readSigned_eq (scan : Scan) :
    scan.readSigned =
      let sign := signBytes scan.remaining
      let unsigned? := (scan.behind sign).readUnsigned
      if sign = ['-'.toUInt8] then
        unsigned?.map fun (size, after) => (0 - min size 0x80000000, after)
      else unsigned? := by
  obtain ⟨remaining, position⟩ := scan
  cases remaining with
  | nil => rfl
  | cons byte rest =>
      by_cases hminus : Char.ofUInt8 byte = '-'
      · obtain rfl : byte = '-'.toUInt8 := by rw [← hminus, toUInt8_ofUInt8]
        rfl
      by_cases hplus : Char.ofUInt8 byte = '+'
      · obtain rfl : byte = '+'.toUInt8 := by rw [← hplus, toUInt8_ofUInt8]
        rfl
      have hsign : signBytes (byte :: rest) = [] := by simp [signBytes, hminus, hplus]
      have hunsigned : readSigned ⟨byte :: rest, position⟩ = readUnsigned ⟨byte :: rest, position⟩ := by
        rw [readSigned, peek_cons]
        split
        case h_1 hpeek => exact absurd (Option.some_inj.mp hpeek) hminus
        case h_2 hpeek => exact absurd (Option.some_inj.mp hpeek) hplus
        case h_3 => rfl
      simp only [hsign, behind_nil, hunsigned]
      rfl

/-- A signed number is read from a sign, if one comes next, and the digits behind it. -/
theorem attempt_readSigned (scan : Scan) :
    attempt readSigned scan =
      let sign := signBytes scan.remaining
      let run := digitBytes 10 (scan.remaining.drop sign.length)
      let size : ℤ := numberIn 10 run
      let number := if sign = ['-'.toUInt8] then -size else size
      if run = [] then (none, scan)
      else (some (signedWord number), (scan.behind sign).behind run) := by
  have hunsigned := readDigits_eq (.inl rfl : 10 = 10 ∨ 10 = 16)
    (scan.behind (signBytes scan.remaining))
  rw [attempt, readSigned_eq]
  simp only [readUnsigned, hunsigned]
  by_cases hnone : digitBytes 10 (scan.behind (signBytes scan.remaining)).remaining = []
  · have hrun : digitBytes 10 (scan.remaining.drop (signBytes scan.remaining).length) = [] := hnone
    simp only [hnone, hrun, if_true, Option.map_none, ite_self]
  · have hrun : digitBytes 10 (scan.remaining.drop (signBytes scan.remaining).length) ≠ [] := hnone
    simp only [hnone, hrun, if_false, Option.map_some]
    split_ifs with hminus
    · rw [signedWord_neg_natCast]
      rfl
    · rw [signedWord_natCast]
      rfl

/-- Unsigned numbers take the longest run of digits that comes next and give its number, or the
largest word if it is larger; signed ones take a sign before it, and give the word of the number
that the sign and the run denote.  Without a digit nothing is read, and the place stays, as it does
for a reader that fails then. -/
theorem attempt_numbers (scan : Scan) :
    let decimals := digitBytes 10 scan.remaining
    let hexadecimals := digitBytes 16 scan.remaining
    let sign := signBytes scan.remaining
    let run := digitBytes 10 (scan.remaining.drop sign.length)
    let size : ℤ := numberIn 10 run
    let number := if sign = ['-'.toUInt8] then -size else size
    (attempt readUnsigned scan =
      if decimals = [] then (none, scan)
      else (some (UInt32.ofNat (min (numberIn 10 decimals) (2 ^ 32 - 1))), scan.behind decimals)) ∧
    (attempt readHex scan =
      if hexadecimals = [] then (none, scan)
      else (some (UInt32.ofNat (min (numberIn 16 hexadecimals) (2 ^ 32 - 1))),
        scan.behind hexadecimals)) ∧
    (attempt readSigned scan =
      if run = [] then (none, scan)
      else (some (signedWord number), (scan.behind sign).behind run)) ∧
    ∀ (read : Scan → Option (UInt32 × Scan)) cause position,
      (Reader.require read cause position).run scan =
        required cause position (attempt read scan) :=
  ⟨attempt_readDigits (.inl rfl) scan, attempt_readDigits (.inr rfl) scan, attempt_readSigned scan,
    fun read => run_require_eq_required read scan⟩

/-- Thirty nines are more than a word holds, and a point ends them. -/
example : attempt readUnsigned (ofString "999999999999999999999999999999.5") =
    (some 0xFFFFFFFF, ⟨bytesOf ".5", 30⟩) := by decide +kernel

/-- A sign without digits is left. -/
example : attempt readSigned (ofString "-x") = (none, ofString "-x") := by decide +kernel

end Scan

end AchievementLogic.Text
