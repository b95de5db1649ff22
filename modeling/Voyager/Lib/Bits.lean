import Mathlib.Data.Nat.Bitwise

/-! # Bit fields of words -/

namespace Voyager.Lib.Bits

def field (lo hi : Nat) : Nat := 2 ^ hi - 2 ^ lo

def complement (w x : Nat) : Nat := 2 ^ w - (x + 1)

variable {lo hi w x y i k : Nat}

theorem testBit_field (le : lo ≤ hi) : (field lo hi).testBit i = decide (lo ≤ i ∧ i < hi) := by
  have shifted : field lo hi = (2 ^ (hi - lo) - 1) * 2 ^ lo := by
    rw [field, Nat.sub_mul, Nat.one_mul, ← Nat.pow_add, Nat.sub_add_cancel le]
  rw [shifted, Nat.testBit_mul_two_pow, Nat.testBit_two_pow_sub_one]
  by_cases low : lo ≤ i
  · simp only [low, decide_true, Bool.true_and, true_and]
    congr 1
    exact propext (by omega)
  · simp [low]

theorem testBit_complement (lt : x < 2 ^ w) : (complement w x).testBit i = (decide (i < w) && !x.testBit i) :=
  Nat.testBit_two_pow_sub_succ lt i

theorem and_field (le : lo ≤ hi) : x &&& field lo hi = x % 2 ^ hi / 2 ^ lo * 2 ^ lo := by
  apply Nat.eq_of_testBit_eq
  intro i
  rw [Nat.testBit_and, testBit_field le, Nat.testBit_mul_two_pow, Nat.testBit_div_two_pow, Nat.testBit_mod_two_pow]
  by_cases low : lo ≤ i
  · simp [low, Bool.and_comm]
  · simp [low]

theorem and_bit_eq_zero : x &&& 2 ^ k = 0 ↔ x.testBit k = false := by
  rw [Nat.and_two_pow]
  cases x.testBit k <;> simp

theorem or_low (lt : y < 2 ^ k) : x * 2 ^ k ||| y = x * 2 ^ k + y := by
  rw [Nat.mul_comm, ← Nat.two_pow_add_eq_or_of_lt lt]

theorem or_and_field (le : lo ≤ hi) (low : y < 2 ^ lo) : (x ||| y) &&& field lo hi = x &&& field lo hi := by
  apply Nat.eq_of_testBit_eq
  intro i
  rw [Nat.testBit_and, Nat.testBit_or, Nat.testBit_and, testBit_field le]
  by_cases inside : lo ≤ i ∧ i < hi
  · rw [Nat.testBit_lt_two_pow (Nat.lt_of_lt_of_le low (Nat.pow_le_pow_right (by decide) inside.1)), Bool.or_false]
  · simp [inside]

theorem testBit_of_mod (h : x % 2 ^ k = 0) (lt : i < k) : x.testBit i = false := by
  have bit := Nat.testBit_mod_two_pow x k i
  rw [h, Nat.zero_testBit, decide_eq_true lt, Bool.true_and] at bit
  exact bit.symm

end Voyager.Lib.Bits
