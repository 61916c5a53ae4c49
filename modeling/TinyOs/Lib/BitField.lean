import Mathlib.Data.Nat.Bitwise

/-!
Bit fields of a machine word, with the word as a natural number. A field is a run of
consecutive bits, selected by the mask `bitmask shift cnt` (the `BITMASK (SHIFT, CNT)` macro of
C headers: `cnt` ones from bit `shift` up); reading it is a quotient and a remainder
(`and_bitmask`). Setting bits outside a field with `|`, or clearing them with `&` and a mask
that keeps the field, leaves the field as it was, and a word with a flag set or cleared reads
that flag back.

Every lemma is proved bit by bit, through `Nat.eq_of_testBit_eq`.
-/

namespace BitField

/-- `BITMASK (shift, cnt)`: `cnt` one bits from bit `shift` up, `((1 << cnt) - 1) << shift`. -/
def bitmask (shift cnt : ℕ) : ℕ := ((1 <<< cnt) - 1) <<< shift

lemma bitmask_eq (shift cnt : ℕ) : bitmask shift cnt = (2 ^ cnt - 1) * 2 ^ shift := by
  simp [bitmask, Nat.shiftLeft_eq]

lemma testBit_bitmask (shift cnt i : ℕ) :
    (bitmask shift cnt).testBit i = (decide (shift ≤ i) && decide (i < shift + cnt)) := by
  rw [bitmask_eq, Nat.testBit_mul_two_pow, Nat.testBit_two_pow_sub_one]
  by_cases h : shift ≤ i
  · simp only [h, decide_true, Bool.true_and, decide_eq_decide]
    omega
  · simp [h]

/-- Reading a field: the bits of `x` from `shift` on, `cnt` of them, in their place. -/
theorem and_bitmask (x shift cnt : ℕ) :
    x &&& bitmask shift cnt = x / 2 ^ shift % 2 ^ cnt * 2 ^ shift := by
  apply Nat.eq_of_testBit_eq
  intro i
  rw [Nat.testBit_and, testBit_bitmask, Nat.testBit_mul_two_pow, Nat.testBit_mod_two_pow,
    Nat.testBit_div_two_pow]
  by_cases h : shift ≤ i
  · -- the bit lies at or above the field's first bit: compare its place in the field
    have hi : i - shift + shift = i := by omega
    have hlt : (i < shift + cnt) = (i - shift < cnt) := by
      apply propext
      omega
    simp [h, hi, hlt, Bool.and_comm]
  · simp [h]

/-- Setting bits outside the field `m` leaves the field. -/
theorem or_and_of_and_eq_zero {x y m : ℕ} (h : y &&& m = 0) : (x ||| y) &&& m = x &&& m := by
  rw [Nat.and_or_distrib_right, h, Nat.or_zero]

/-- Clearing bits with a mask `y` that keeps the field `m` leaves the field. -/
theorem and_and_of_and_eq {x y m : ℕ} (h : y &&& m = m) : (x &&& y) &&& m = x &&& m := by
  rw [Nat.and_assoc, h]

/-- Clearing the field's bits with a mask `y` that holds none of them leaves none. -/
theorem and_and_of_and_eq_zero {x y m : ℕ} (h : y &&& m = 0) : (x &&& y) &&& m = 0 := by
  rw [Nat.and_assoc, h, Nat.and_zero]

/-- A word with the bits of `m` set holds them. -/
theorem or_and_self (x m : ℕ) : (x ||| m) &&& m = m := by
  apply Nat.eq_of_testBit_eq
  intro i
  rw [Nat.testBit_and, Nat.testBit_or]
  cases m.testBit i <;> simp

end BitField
