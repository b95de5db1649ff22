import Voyager.Lib.ByteSpace
import Mathlib.Data.Finset.Lattice.Basic
import Mathlib.Data.Finset.Range
import Mathlib.Data.Finset.Card

/-!
# Bitmaps in memory

Setting and clearing a bit are `erase` and `insert` on the finite set of the clear bits.
-/

namespace Voyager.Lib.Bitmap

open ByteSpace

def mask (i : Nat) : UInt8 := UInt8.ofNat (1 <<< (i % 8))

def test (m : Bytes) (bm i : Nat) : Bool := (m (bm + i / 8)).toNat.testBit (i % 8)

def set (m : Bytes) (bm i : Nat) : Bytes := Function.update m (bm + i / 8) (m (bm + i / 8) ||| mask i)

def clear (m : Bytes) (bm i : Nat) : Bytes := Function.update m (bm + i / 8) (m (bm + i / 8) &&& ~~~ mask i)

def zeros (m : Bytes) (bm n : Nat) : Finset Nat := (Finset.range n).filter fun i => test m bm i = false

variable {m m' : Bytes} {bm i j n x : Nat}

theorem testBit_mask (i j : Nat) : (mask i).toNat.testBit j = decide (i % 8 = j) := by
  have small : 1 <<< (i % 8) < 256 := by
    have : i % 8 ≤ 7 := by omega
    calc 1 <<< (i % 8) = 2 ^ (i % 8) := Nat.one_shiftLeft _
      _ ≤ 2 ^ 7 := Nat.pow_le_pow_right (by decide) this
      _ < 256 := by decide
  rw [mask, UInt8.toNat_ofNat', Nat.mod_eq_of_lt small, Nat.one_shiftLeft, Nat.testBit_two_pow]

theorem testBit_not (b : UInt8) (j : Nat) (hj : j < 8) : (~~~ b).toNat.testBit j = !b.toNat.testBit j := by
  have := BitVec.getLsbD_not (x := b.toBitVec) (i := j)
  simpa [BitVec.getLsbD, hj] using this

theorem test_congr (same : m' (bm + i / 8) = m (bm + i / 8)) : test m' bm i = test m bm i := by
  rw [test, same, test]

theorem same_bit (byte : bm + j / 8 = bm + i / 8) (bit : i % 8 = j % 8) : j = i := by omega

theorem set_of_ne (h : x ≠ bm + i / 8) : set m bm i x = m x := Function.update_of_ne h _ _

theorem clear_of_ne (h : x ≠ bm + i / 8) : clear m bm i x = m x := Function.update_of_ne h _ _

theorem test_set : test (set m bm i) bm j = (decide (j = i) || test m bm j) := by
  by_cases byte : bm + j / 8 = bm + i / 8
  · rw [test, set, byte, Function.update_self, UInt8.toNat_or, Nat.testBit_or,
      testBit_mask i (j % 8), test, byte, Bool.or_comm]
    congr 1
    exact decide_eq_decide.mpr ⟨same_bit byte, fun e => by rw [e]⟩
  · have ne : j ≠ i := fun e => byte (by rw [e])
    rw [test_congr (set_of_ne byte)]
    simp [ne]

theorem test_clear : test (clear m bm i) bm j = (!decide (j = i) && test m bm j) := by
  by_cases byte : bm + j / 8 = bm + i / 8
  · have lt : j % 8 < 8 := Nat.mod_lt _ (by decide)
    rw [test, clear, byte, Function.update_self, UInt8.toNat_and, Nat.testBit_and, testBit_not _ _ lt,
      testBit_mask i (j % 8), test, byte, Bool.and_comm]
    congr 2
    exact decide_eq_decide.mpr ⟨same_bit byte, fun e => by rw [e]⟩
  · have ne : j ≠ i := fun e => byte (by rw [e])
    rw [test_congr (clear_of_ne byte)]
    simp [ne]

theorem mem_zeros : i ∈ zeros m bm n ↔ i < n ∧ test m bm i = false := by simp [zeros]

theorem zeros_congr (same : ∀ i < n, m' (bm + i / 8) = m (bm + i / 8)) : zeros m' bm n = zeros m bm n := by
  ext i
  simp only [mem_zeros]
  constructor
  · rintro ⟨lt, h⟩
    exact ⟨lt, by rwa [test_congr (same i lt)] at h⟩
  · rintro ⟨lt, h⟩
    exact ⟨lt, by rwa [test_congr (same i lt)]⟩

theorem zeros_set : zeros (set m bm i) bm n = (zeros m bm n).erase i := by
  ext j
  simp only [mem_zeros, Finset.mem_erase, test_set, Bool.or_eq_false_iff, decide_eq_false_iff_not]
  tauto

theorem zeros_clear (h : i < n) : zeros (clear m bm i) bm n = insert i (zeros m bm n) := by
  ext j
  simp only [mem_zeros, Finset.mem_insert, test_clear, Bool.and_eq_false_iff, Bool.not_eq_false', decide_eq_true_eq]
  constructor
  · rintro ⟨lt, e | e⟩
    · exact .inl e
    · exact .inr ⟨lt, e⟩
  · rintro (rfl | ⟨lt, e⟩)
    · exact ⟨h, .inl rfl⟩
    · exact ⟨lt, .inr e⟩

end Voyager.Lib.Bitmap
