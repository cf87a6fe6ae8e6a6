import Mathlib.Algebra.BigOperators.Intervals
import Mathlib.Algebra.BigOperators.Ring.Finset
import Mathlib.Tactic.Ring

/-!
# Digits by their places

A number is the sum of its digits, each one taken as often as its place says, and digits that are
put together so are found again at their places.  Bits, bytes, groups of four bits and decimal
digits are all digits in this sense.
-/

namespace AchievementLogic

/-- The digit at a place, the lowest one at place 0. -/
def digitAt (base number place : ℕ) : ℕ := number / base ^ place % base

theorem digitAt_zero (base number : ℕ) : digitAt base number 0 = number % base := by
  rw [digitAt, Nat.pow_zero, Nat.div_one]

theorem digitAt_succ (base number place : ℕ) :
    digitAt base number (place + 1) = digitAt base (number / base) place := by
  rw [digitAt, digitAt, Nat.pow_succ', Nat.div_div_eq_div_mul]

theorem digitAt_lt {base : ℕ} (hbase : 0 < base) (number place : ℕ) :
    digitAt base number place < base :=
  Nat.mod_lt _ hbase

/-- The lowest digits of a number say what it leaves when it is divided by the next place. -/
theorem sum_digitAt (base count number : ℕ) :
    ∑ place ∈ Finset.range count, base ^ place * digitAt base number place =
      number % base ^ count := by
  induction count with
  | zero => rw [Finset.sum_range_zero, Nat.pow_zero, Nat.mod_one]
  | succ count ih => rw [Finset.sum_range_succ, ih, digitAt, ← Nat.mod_pow_succ]

/-- Digits from the second one on are those of a number that is `base` times smaller. -/
theorem sum_places_succ (base count : ℕ) (digit : ℕ → ℕ) :
    ∑ place ∈ Finset.range (count + 1), base ^ place * digit place =
      digit 0 + base * ∑ place ∈ Finset.range count, base ^ place * digit (place + 1) := by
  rw [Finset.sum_range_succ', Nat.pow_zero, Nat.one_mul, Nat.add_comm, Finset.mul_sum]
  congr 1
  refine Finset.sum_congr rfl fun place _ => ?_
  ring

/-- With so many places of a base only the numbers below its power can be written. -/
theorem sum_places_lt {base count : ℕ} {digit : ℕ → ℕ} (hdigit : ∀ place, digit place < base) :
    ∑ place ∈ Finset.range count, base ^ place * digit place < base ^ count := by
  induction count with
  | zero => simp
  | succ count ih =>
      rw [Finset.sum_range_succ]
      calc ∑ place ∈ Finset.range count, base ^ place * digit place + base ^ count * digit count
          < base ^ count + base ^ count * digit count := Nat.add_lt_add_right ih _
        _ = base ^ count * (digit count + 1) := by ring
        _ ≤ base ^ count * base := Nat.mul_le_mul_left _ (hdigit count)
        _ = base ^ (count + 1) := (Nat.pow_succ ..).symm

/-- Digits that are put together are found again at their places. -/
theorem digitAt_sum_places {base count place : ℕ} {digit : ℕ → ℕ}
    (hdigit : ∀ place, digit place < base) (hplace : place < count) :
    digitAt base (∑ place ∈ Finset.range count, base ^ place * digit place) place =
      digit place := by
  have hbase : 0 < base := Nat.zero_lt_of_lt (hdigit 0)
  induction place generalizing count digit with
  | zero =>
      obtain ⟨count, rfl⟩ := Nat.exists_eq_succ_of_ne_zero (Nat.ne_zero_of_lt hplace)
      rw [sum_places_succ, digitAt_zero, Nat.add_mul_mod_self_left, Nat.mod_eq_of_lt (hdigit 0)]
  | succ place ih =>
      obtain ⟨count, rfl⟩ := Nat.exists_eq_succ_of_ne_zero (Nat.ne_zero_of_lt hplace)
      rw [sum_places_succ, digitAt_succ, Nat.add_mul_div_left _ _ hbase, Nat.div_eq_of_lt (hdigit 0),
        Nat.zero_add]
      exact ih (fun place => hdigit (place + 1)) (Nat.lt_of_succ_lt_succ hplace)

end AchievementLogic
