import AchievementLogic.Memory.Image
import AchievementLogic.Proofs.Memory.Assembling
import AchievementLogic.Text.Fields
import AchievementLogic.Trigger.Operand
import Mathlib.Algebra.Order.BigOperators.Group.Finset

/-!
# Inverted and decimal readings

An inverted operand shows what is left of its reading to the largest one of its size.  That is what
the size makes of memory in which every bit is turned over, be it a bit, a half, a count of bits or
a word in either order.

A decimal operand takes each four bits of its reading for a decimal digit, those above 9 for what
they are.  Even eight of the largest ones stay far below the end of a word, so that adding them up
never wraps; and a number written in decimal digits of four bits is read back.
-/

namespace AchievementLogic

/-! ## Inverted readings -/

namespace MemoryOperand

theorem value_of_inverted (operand : MemoryOperand) (haccess : operand.access = .inverted)
    (hsize : operand.size.isFloat = false) :
    operand.value =
      .word (operand.size.maxValue - min operand.history.current operand.size.maxValue) := by
  rw [value, haccess]
  simp only [hsize]
  rfl

/-- An inverted operand shows what its size makes of the complements of the bytes it reads. -/
theorem value_inverted (operand : MemoryOperand) (haccess : operand.access = .inverted)
    (hsize : operand.size.isFloat = false) (frame : Frame) (offset : UInt32) :
    (operand.advance frame offset).value =
      .word (operand.size.assemble
        ((frame.readBytes (operand.address + offset) operand.size.byteCount).map
          fun byte => 255 - byte)) := by
  let raw := operand.size.read frame (operand.address + offset)
  have hraw : raw ≤ operand.size.maxValue := operand.size.read_le_maxValue _ _
  have hmin : min raw operand.size.maxValue = raw := if_pos hraw
  have hlength := frame.length_readBytes (operand.address + offset) operand.size.byteCount
  calc (operand.advance frame offset).value
      = .word (operand.size.maxValue - min raw operand.size.maxValue) :=
        value_of_inverted (operand.advance frame offset) haccess hsize
    _ = .word (operand.size.maxValue - raw) := by rw [hmin]
    _ = _ := congrArg Value.word (ReadSize.maxValue_sub_assemble hlength)

/-- Three bytes around the end of the address space, of which the first cannot be read. -/
theorem value_inverted_aroundEnd :
    let operand : MemoryOperand :=
      { access := .inverted, size := .word .three .big, address := 0xFFFFFFFE }
    let frame : Frame := { source := (Image.ofBytes [0x12, 0x34]).source }
    operand.access = .inverted ∧ operand.size.isFloat = false ∧
      (operand.advance frame 1).value = .word 0xFFEDCB := by
  intro operand frame
  have hvalue := value_inverted operand rfl rfl frame 1
  exact ⟨rfl, rfl, hvalue.trans (congrArg Value.word (by decide))⟩

end MemoryOperand

/-! ## Adding up digits -/

/-- What the lowest digits of four bits come to if each counts ten times the one before it. -/
def decimalNumber (digits raw : ℕ) : ℕ :=
  ∑ place ∈ Finset.range digits, 10 ^ place * digitAt 16 raw place

theorem decimalNumber_succ (digits raw : ℕ) :
    decimalNumber (digits + 1) raw = raw % 16 + 10 * decimalNumber digits (raw / 16) := by
  rw [decimalNumber, sum_places_succ, digitAt_zero]
  simp only [digitAt_succ]
  rfl

/-- Eight digits of 15 come to less than a word holds. -/
theorem decimalNumber_le {digits : ℕ} (hdigits : digits ≤ 8) (raw : ℕ) :
    decimalNumber digits raw ≤ 166666665 := by
  have hdigit : ∀ place ∈ Finset.range digits,
      10 ^ place * digitAt 16 raw place ≤ 10 ^ place * 15 := fun place _ =>
    Nat.mul_le_mul_left _ (Nat.le_of_lt_succ (digitAt_lt (by decide) raw place))
  calc decimalNumber digits raw
      ≤ ∑ place ∈ Finset.range digits, 10 ^ place * 15 := Finset.sum_le_sum hdigit
    _ ≤ ∑ place ∈ Finset.range 8, 10 ^ place * 15 :=
        Finset.sum_le_sum_of_subset (Finset.range_mono hdigits)
    _ = 166666665 := by decide

/-- The digits that fit in a word are decoded without overflow. -/
theorem toNat_decodeBcd {digits : ℕ} (hdigits : digits ≤ 8) (raw : UInt32) :
    (decodeBcd digits raw).toNat = decimalNumber digits raw.toNat := by
  induction digits generalizing raw with
  | zero => rfl
  | succ digits ih =>
      have hlater := ih (Nat.le_of_succ_le hdigits) (raw / 16)
      have hle := decimalNumber_le hdigits raw.toNat
      have hten : (10 : UInt32).toNat = 10 := rfl
      have hsixteen : (16 : UInt32).toNat = 16 := rfl
      rw [decimalNumber_succ] at hle ⊢
      rw [UInt32.toNat_div, hsixteen] at hlater
      rw [decodeBcd, UInt32.toNat_add, UInt32.toNat_mul, UInt32.toNat_mod, hlater, hten, hsixteen]
      omega

/-! ## The steps that add up digits -/

theorem word?_natCast {number : ℕ} (hnumber : number < 0x100000000) :
    Width.word? (number : ℤ) = some (UInt32.ofNat number) := by
  have hfits : (0 ≤ (number : ℤ) && (number : ℤ) < 0x100000000) = true := by
    simp only [Bool.and_eq_true, decide_eq_true_eq]
    omega
  rw [Width.word?, if_pos hfits, Int.toNat_natCast]

/-- Adds a digit to a sum and finds what the next digit counts, unless one of the results does not
fit in a word. -/
def decimalStep? (digit : ℕ) (sum weight : UInt32) : Option (UInt32 × UInt32) := do
  let part ← Width.word? ↑(weight.toNat * digit)
  let sum ← Width.word? ↑(sum.toNat + part.toNat)
  let weight ← Width.word? ↑(weight.toNat * 10)
  return (sum, weight)

/-- The sum of the lowest digits and what the next one counts, as far as all steps fit. -/
def decimalSteps? (raw : UInt32) : ℕ → Option (UInt32 × UInt32)
  | 0 => some (0, 1)
  | digits + 1 => do
    let (sum, weight) ← decimalSteps? raw digits
    decimalStep? (digitAt 16 raw.toNat digits) sum weight

theorem decimalStep?_ofNat {digit sum weight : ℕ} (hsum : sum + weight * digit < 0x100000000)
    (hweight : weight * 10 < 0x100000000) :
    decimalStep? digit (UInt32.ofNat sum) (UInt32.ofNat weight) =
      some (UInt32.ofNat (sum + weight * digit), UInt32.ofNat (weight * 10)) := by
  have hfits {number : ℕ} (hnumber : number < 0x100000000) : (UInt32.ofNat number).toNat = number :=
    UInt32.toNat_ofNat_of_lt' hnumber
  have hpart : weight * digit < 0x100000000 := by omega
  have hweightNow : weight < 0x100000000 := by omega
  have hsumNow : sum < 0x100000000 := by omega
  rw [decimalStep?, hfits hweightNow, hfits hsumNow, word?_natCast hpart, Option.bind_eq_bind,
    Option.bind_some, hfits hpart, word?_natCast hsum, Option.bind_some, word?_natCast hweight,
    Option.bind_some]
  rfl

/-- No step that adds up digits has a result that does not fit. -/
theorem decimalSteps?_eq {digits : ℕ} (hdigits : digits ≤ 8) (raw : UInt32) :
    decimalSteps? raw digits =
      some (UInt32.ofNat (decimalNumber digits raw.toNat), UInt32.ofNat (10 ^ digits)) := by
  induction digits with
  | zero => rfl
  | succ digits ih =>
      have hsplit : decimalNumber (digits + 1) raw.toNat =
          decimalNumber digits raw.toNat + 10 ^ digits * digitAt 16 raw.toNat digits :=
        Finset.sum_range_succ _ _
      have hle := decimalNumber_le hdigits raw.toNat
      have hpower : 10 ^ (digits + 1) ≤ 10 ^ 8 := Nat.pow_le_pow_right (by decide) hdigits
      rw [hsplit] at hle ⊢
      rw [Nat.pow_succ] at hpower ⊢
      rw [decimalSteps?, ih (Nat.le_of_succ_le hdigits), Option.bind_eq_bind, Option.bind_some]
      exact decimalStep?_ofNat (by omega) (by omega)

/-! ## Numbers in decimal digits -/

/-- The number whose digits of four bits are the lowest decimal digits of a number. -/
def codedDecimal (digits number : ℕ) : ℕ :=
  ∑ place ∈ Finset.range digits, 16 ^ place * digitAt 10 number place

theorem decimalDigit_lt (number place : ℕ) : digitAt 10 number place < 16 :=
  Nat.lt_trans (digitAt_lt (by decide) number place) (by decide)

theorem codedDecimal_lt (digits number : ℕ) : codedDecimal digits number < 16 ^ digits :=
  sum_places_lt (decimalDigit_lt number)

/-- Coded digits are decoded to the lowest digits of the number. -/
theorem decimalNumber_codedDecimal (digits number : ℕ) :
    decimalNumber digits (codedDecimal digits number) = number % 10 ^ digits := by
  have hdigit : ∀ place ∈ Finset.range digits,
      10 ^ place * digitAt 16 (codedDecimal digits number) place =
        10 ^ place * digitAt 10 number place := fun place hplace =>
    congrArg (10 ^ place * ·)
      (digitAt_sum_places (decimalDigit_lt number) (Finset.mem_range.mp hplace))
  calc decimalNumber digits (codedDecimal digits number)
      = ∑ place ∈ Finset.range digits, 10 ^ place * digitAt 10 number place :=
        Finset.sum_congr rfl hdigit
    _ = number % 10 ^ digits := sum_digitAt 10 digits number

namespace ReadSize

theorem byteCount_le (size : ReadSize) : size.byteCount ≤ 4 := by
  cases size with
  | word width order => cases width <;> simp [byteCount, WordWidth.bytes]
  | float _ _ => exact Nat.le_refl 4
  | _ => exact Nat.le_add_left 1 3

/-- Sizes that take whole bytes for a whole number. -/
def takesWholeBytes : ReadSize → Bool
  | byte | word .. => true
  | _ => false

theorem toNat_maxValue_of_takesWholeBytes {size : ReadSize} (hbytes : size.takesWholeBytes = true) :
    size.maxValue.toNat + 1 = 16 ^ (2 * size.byteCount) := by
  cases size with
  | byte => rfl
  | word width order => exact (toNat_maxValue_word width order).trans (Nat.pow_mul 16 2 _).symm
  | _ => cases hbytes

end ReadSize

namespace MemoryOperand

theorem value_of_bcd (operand : MemoryOperand) (haccess : operand.access = .bcd)
    (hsize : operand.size.isFloat = false) :
    operand.value = .word (decodeBcd (operand.size.byteCount * 2) operand.history.current) := by
  rw [value, haccess]
  simp only [hsize]
  rfl

/-- A decimal operand shows the exact sum of the digits in its reading, each as often as its place
says; the sum fits in a word, and so does the result of every step that leads to it.  With a size of
whole bytes, what is written in as many decimal digits is read back. -/
theorem value_bcd_exact (size : ReadSize) (hsize : size.isFloat = false) (address : UInt32) :
    let shown (history : History) := value { access := .bcd, size, address, history }
    let digits := 2 * size.byteCount
    let sum (raw : UInt32) := ∑ place ∈ Finset.range digits, 10 ^ place * digitAt 16 raw.toNat place
    (∀ history : History, sum history.current < 2 ^ 32 ∧
      shown history = .word (UInt32.ofNat (sum history.current)) ∧
      (decimalSteps? history.current digits).map Prod.fst =
        some (UInt32.ofNat (sum history.current))) ∧
    (size.takesWholeBytes = true → ∀ number < 10 ^ digits,
      codedDecimal digits number ≤ size.maxValue.toNat ∧
      ∀ history : History, history.current.toNat = codedDecimal digits number →
        sum history.current = number ∧ shown history = .word (UInt32.ofNat number)) := by
  intro shown digits sum
  have hdigits : digits ≤ 8 := Nat.mul_le_mul_left 2 size.byteCount_le
  have hshown (history : History) :
      shown history = .word (UInt32.ofNat (sum history.current)) := by
    have hcount : digits = size.byteCount * 2 := Nat.mul_comm 2 size.byteCount
    have hexact : (decodeBcd digits history.current).toNat = sum history.current :=
      toNat_decodeBcd hdigits history.current
    rw [← hexact, UInt32.ofNat_toNat, hcount]
    exact value_of_bcd { access := .bcd, size, address, history } rfl hsize
  refine ⟨fun history => ⟨?_, hshown history, ?_⟩, fun hbytes number hnumber =>
    ⟨?_, fun history hcoded => ?_⟩⟩
  · exact Nat.lt_of_le_of_lt (decimalNumber_le hdigits history.current.toNat) (by decide)
  · rw [decimalSteps?_eq hdigits]
    rfl
  · have hlt := codedDecimal_lt digits number
    rw [← ReadSize.toNat_maxValue_of_takesWholeBytes hbytes] at hlt
    exact Nat.le_of_lt_succ hlt
  · have hsum : sum history.current = number := by
      calc sum history.current
          = decimalNumber digits (codedDecimal digits number) := by rw [← hcoded]; rfl
        _ = number % 10 ^ digits := decimalNumber_codedDecimal digits number
        _ = number := Nat.mod_eq_of_lt hnumber
    refine ⟨hsum, ?_⟩
    rw [hshown history, hsum]

/-- Eight times the digit that is the farthest from a decimal one, and eight nines. -/
theorem value_bcd_exact_largest :
    let shown (current : UInt32) :=
      value { access := .bcd, size := .word .four .big, address := 0, history := { current } }
    ReadSize.isFloat (.word .four .big) = false ∧ shown 0xFFFFFFFF = .word 166666665 ∧
      ReadSize.takesWholeBytes (.word .four .big) = true ∧ shown 0x99999999 = .word 99999999 := by
  obtain ⟨hany, hcoded⟩ := value_bcd_exact (.word .four .big) rfl 0
  have hlargest := (hany { current := 0xFFFFFFFF }).2.1
  have hnines := (hcoded rfl 99999999 (by decide)).2 { current := 0x99999999 } (by decide)
  exact ⟨rfl, hlargest.trans (congrArg Value.word (by decide)), rfl, hnines.2⟩

end MemoryOperand

end AchievementLogic
