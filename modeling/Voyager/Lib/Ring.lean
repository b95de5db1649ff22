import Mathlib.Data.List.Basic
import Mathlib.Logic.Function.Basic

/-!
# Ring buffers

One cell always stays empty, so that equal indices mean an empty queue.
-/

namespace Voyager.Lib

structure Ring (α : Type) where
  cells : Nat → α
  head : Nat
  tail : Nat

namespace Ring

variable {α : Type} {n : Nat} {r : Ring α} {q : List α} {x : α}

def put (n : Nat) (r : Ring α) (x : α) : Ring α :=
  { r with cells := Function.update r.cells r.head x, head := (r.head + 1) % n }

def advance (n : Nat) (r : Ring α) : Ring α := { r with tail := (r.tail + 1) % n }

/-- The cells from `tail` up to `head` hold `q`, the oldest element first. -/
structure Holds (n : Nat) (r : Ring α) (q : List α) : Prop where
  tail_lt : r.tail < n
  room : q.length < n
  head_eq : r.head = (r.tail + q.length) % n
  cell : ∀ i y, q[i]? = some y → r.cells ((r.tail + i) % n) = y

namespace Holds

theorem head_lt (h : Holds n r q) : r.head < n := by
  rw [h.head_eq]
  exact Nat.mod_lt _ (Nat.zero_lt_of_lt h.tail_lt)

theorem position (h : Holds n r q) {i : Nat} (lt : i < n) :
    (r.tail + i) % n = if r.tail + i < n then r.tail + i else r.tail + i - n := by
  have := h.tail_lt
  split
  · exact Nat.mod_eq_of_lt ‹_›
  · rw [Nat.mod_eq_sub_mod (by omega), Nat.mod_eq_of_lt (by omega)]

theorem empty_iff (h : Holds n r q) : r.tail = r.head ↔ q = [] := by
  have lt := h.tail_lt
  have room := h.room
  rw [h.head_eq, h.position room, ← List.length_eq_zero_iff]
  split <;> omega

theorem full_iff (h : Holds n r q) : (r.head + 1) % n = r.tail ↔ q.length + 1 = n := by
  have lt := h.tail_lt
  have room := h.room
  rw [h.head_eq, Nat.mod_add_mod, Nat.add_assoc]
  by_cases full : q.length + 1 = n
  · rw [full, Nat.add_mod_right, Nat.mod_eq_of_lt lt]
    exact ⟨fun _ => rfl, fun _ => rfl⟩
  · rw [h.position (by omega)]
    split <;> omega

theorem put (h : Holds n r q) (more : (r.head + 1) % n ≠ r.tail) : Holds n (r.put n x) (q ++ [x]) := by
  have full := mt h.full_iff.mpr more
  have room := h.room
  have lt := h.tail_lt
  refine ⟨lt, by simp only [List.length_append, List.length_singleton]; omega, ?_, ?_⟩
  · simp only [Ring.put, List.length_append, List.length_singleton]
    rw [h.head_eq, Nat.mod_add_mod, Nat.add_assoc]
  · intro i y at_i
    simp only [Ring.put]
    by_cases last : i = q.length
    · subst last
      rw [List.getElem?_concat_length] at at_i
      cases at_i
      rw [← h.head_eq, Function.update_self]
    · have old : i < q.length := by
        have := (List.getElem?_eq_some_iff.mp at_i).1
        simp only [List.length_append, List.length_singleton] at this
        omega
      have apart : (r.tail + i) % n ≠ r.head := by
        rw [h.head_eq, h.position room, h.position (by omega)]
        split <;> split <;> omega
      rw [Function.update_of_ne apart]
      rw [List.getElem?_append_left old] at at_i
      exact h.cell i y at_i

theorem front (h : Holds n r (x :: q)) : r.cells r.tail = x := by
  have first := h.cell 0 x rfl
  rwa [Nat.add_zero, Nat.mod_eq_of_lt h.tail_lt] at first

theorem advance (h : Holds n r (x :: q)) : Holds n (r.advance n) q := by
  have room := h.room
  rw [List.length_cons] at room
  refine ⟨Nat.mod_lt _ (by omega), by omega, ?_, fun i y at_i => ?_⟩
  · simp only [Ring.advance]
    rw [h.head_eq, Nat.mod_add_mod, List.length_cons]
    congr 1
    omega
  · simp only [Ring.advance]
    rw [Nat.mod_add_mod, Nat.add_assoc, Nat.add_comm 1 i]
    exact h.cell (i + 1) y at_i

end Holds

end Ring

end Voyager.Lib
