import Mathlib.Data.List.Basic
import Mathlib.Data.List.Nodup

/-!
# Doubly linked lists

Zero is both the null pointer and the sentinel in front of the list, so unlinking the first
node is no special case.
-/

namespace Voyager.Lib

/-- The nodes of `l` follow `x`, linked in both directions and ended by zero. -/
def Linked (next prev : Nat → Nat) : Nat → List Nat → Prop
  | x, [] => next x = 0
  | x, y :: rest => y ≠ 0 ∧ next x = y ∧ prev y = x ∧ Linked next prev y rest

namespace Linked

variable {next prev next' prev' : Nat → Nat} {x b : Nat} {l : List Nat}

theorem ne_zero : ∀ {x : Nat} {l : List Nat}, Linked next prev x l → ∀ y ∈ l, y ≠ 0
  | _, y :: _, ⟨pos, _, _, h⟩, z, hz => by
    rcases List.mem_cons.mp hz with rfl | hz
    · exact pos
    · exact ne_zero h z hz

theorem next_eq (h : Linked next prev x l) : next x = l.headD 0 := by
  cases l with
  | nil => exact h
  | cons => exact h.2.1

theorem congr : ∀ {x : Nat} {l : List Nat}, Linked next prev x l →
    (∀ y ∈ x :: l, next' y = next y) → (∀ y ∈ l, prev' y = prev y) → Linked next' prev' x l
  | x, [], h, forward, _ => (forward x List.mem_cons_self).trans h
  | x, y :: _, ⟨pos, fwd, back, h⟩, forward, backward =>
    ⟨pos, (forward x List.mem_cons_self).trans fwd, (backward y List.mem_cons_self).trans back,
      congr h (fun z hz => forward z (List.mem_cons_of_mem _ hz))
        fun z hz => backward z (List.mem_cons_of_mem _ hz)⟩

theorem prev_mem : ∀ {x : Nat} {l : List Nat}, Linked next prev x l → b ∈ l → prev b ∈ x :: l
  | x, y :: rest, ⟨_, _, back, h⟩, hb => by
    rcases List.mem_cons.mp hb with rfl | hb
    · rw [back]; exact List.mem_cons_self
    · exact List.mem_cons_of_mem _ (prev_mem h hb)

theorem next_mem : ∀ {x : Nat} {l : List Nat}, Linked next prev x l → b ∈ l → next b ≠ 0 →
    next b ∈ l.tail
  | x, [y], ⟨_, _, _, last⟩, hb, ne => by
    rcases List.mem_singleton.mp hb with rfl
    exact (ne last).elim
  | x, y :: z :: rest, ⟨_, _, _, h⟩, hb, ne => by
    rcases List.mem_cons.mp hb with rfl | hb
    · rw [h.2.1]; exact List.mem_cons_self
    · exact List.mem_cons_of_mem _ (next_mem h hb ne)

theorem neighbours_ne : ∀ {x : Nat} {l : List Nat}, Linked next prev x l → (x :: l).Nodup → b ∈ l →
    prev b ≠ b ∧ next b ≠ b
  | x, y :: rest, ⟨pos, _, back, h⟩, nodup, hb => by
    obtain ⟨xout, ynodup⟩ := List.nodup_cons.mp nodup
    rcases List.mem_cons.mp hb with rfl | hb
    · refine ⟨fun e => xout (by rw [← back, e]; exact List.mem_cons_self), fun e => ?_⟩
      have first := h.next_eq
      cases rest with
      | nil => exact pos (e.symm.trans first)
      | cons z tail =>
        apply (List.nodup_cons.mp ynodup).1
        rw [← e, first]
        exact List.mem_cons_self
    · exact neighbours_ne h ynodup hb

theorem push (h : Linked next prev 0 l) (fresh : b ∉ l) (pos : b ≠ 0)
    (head : next' 0 = b) (forward : next' b = next 0) (back : prev' b = 0)
    (first : next 0 ≠ 0 → prev' (next 0) = b)
    (nexts : ∀ y ∈ l, next' y = next y) (prevs : ∀ y ∈ l, y ≠ next 0 → prev' y = prev y) (nodup : l.Nodup) :
    Linked next' prev' 0 (b :: l) := by
  refine ⟨pos, head, back, ?_⟩
  cases l with
  | nil => exact forward.trans h
  | cons y rest =>
    obtain ⟨ypos, fwd, _, tail⟩ := h
    have notHead := (List.nodup_cons.mp nodup).1
    refine ⟨ypos, forward.trans fwd, ?_, tail.congr nexts fun z hz => ?_⟩
    · rw [← fwd]; exact first (by rw [fwd]; exact ypos)
    · refine prevs z (List.mem_cons_of_mem _ hz) fun same => notHead ?_
      rw [← fwd, ← same]; exact hz

/-- Unlink `b`: its predecessor takes over its `next`, its successor its `prev`. -/
theorem erase : ∀ {x : Nat} {l : List Nat}, Linked next prev x l → (x :: l).Nodup → b ∈ l →
    next' (prev b) = next b → (next b ≠ 0 → prev' (next b) = prev b) →
    (∀ y ∈ x :: l, y ≠ b → y ≠ prev b → next' y = next y) →
    (∀ y ∈ l, y ≠ b → y ≠ next b → prev' y = prev y) → Linked next' prev' x (l.erase b)
  | x, y :: rest, ⟨pos, fwd, back, h⟩, nodup, hb, skip, onward, nexts, prevs => by
    obtain ⟨xout, ynodup⟩ := List.nodup_cons.mp nodup
    obtain ⟨yout, _⟩ := List.nodup_cons.mp ynodup
    by_cases e : y = b
    · subst e
      rw [List.erase_cons_head]
      rw [back] at skip onward
      cases rest with
      | nil => exact skip.trans h
      | cons z tail =>
        obtain ⟨zpos, zfwd, _, ztail⟩ := h
        rw [zfwd] at skip onward
        refine ⟨zpos, skip, onward zpos, ztail.congr (fun w hw => ?_) fun w hw => ?_⟩
        · have notY : w ≠ y := fun same => yout (same ▸ hw)
          have notX : w ≠ x := fun same => xout (same ▸ List.mem_cons_of_mem _ hw)
          exact nexts w (List.mem_cons_of_mem _ (List.mem_cons_of_mem _ hw)) notY (by rw [back]; exact notX)
        · have notY : w ≠ y := fun same => yout (same ▸ List.mem_cons_of_mem _ hw)
          have notZ : w ≠ z := fun same =>
            (List.nodup_cons.mp (List.nodup_cons.mp ynodup).2).1 (same ▸ hw)
          exact prevs w (List.mem_cons_of_mem _ (List.mem_cons_of_mem _ hw)) notY (by rw [zfwd]; exact notZ)
    · have hb' : b ∈ rest := (List.mem_cons.mp hb).resolve_left (Ne.symm e)
      rw [List.erase_cons_tail (by simpa using e)]
      have prevIn : prev b ∈ y :: rest := h.prev_mem hb'
      have xNotPrev : x ≠ prev b := fun same => xout (same ▸ prevIn)
      have xNotB : x ≠ b := fun same => xout (same ▸ hb)
      have yNotNext : y ≠ next b := by
        intro same
        have := List.mem_of_mem_tail (h.next_mem hb' (by rw [← same]; exact pos))
        exact yout (same ▸ this)
      refine ⟨pos, ?_, ?_, erase h ynodup hb' skip onward
        (fun z hz => nexts z (List.mem_cons_of_mem _ hz)) fun z hz => prevs z (List.mem_cons_of_mem _ hz)⟩
      · exact (nexts x List.mem_cons_self xNotB xNotPrev).trans fwd
      · exact (prevs y List.mem_cons_self e yNotNext).trans back

end Linked

end Voyager.Lib
