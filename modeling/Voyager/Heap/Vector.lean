import Mathlib.Logic.Function.Basic
import Voyager.Heap.Kmalloc
import Voyager.Lib.Cells

/-!
# Growable vectors

The macros of `lib/vector.h`. `block` stands for the elements of the block that `krealloc`
returned. An access to an element behind the capacity has no result.
-/

namespace Voyager

structure Vec (α : Type) where
  data : Nat → α
  length : Nat
  capacity : Nat

namespace Vec

open Lib

variable {α : Type}

def init (data : Nat → α) : Vec α := ⟨data, 0, 0⟩

def set (v : Vec α) (i : Nat) (x : α) : Vec α := { v with data := Function.update v.data i x }

def load (v : Vec α) (i : Nat) : Option α := if i < v.capacity then some (v.data i) else none

def store (v : Vec α) (i : Nat) (x : α) : Option (Vec α) := if i < v.capacity then some (v.set i x) else none

def nextCapacity (v : Vec α) : Nat := if v.capacity = 0 then 8 else v.capacity * 2 % 2 ^ 64

/-- `VECTOR_ENSURE_LENGTH`, with the elements of the block that `krealloc` returns. -/
def vectorEnsureLength (v : Vec α) (length : Nat) (block : Nat → α) : Vec α :=
  if length ≥ v.capacity then { v with capacity := v.nextCapacity, data := block } else v

def vectorPushBack (v : Vec α) (x : α) (block : Nat → α) : Option (Nat × Vec α) := do
  let v := v.vectorEnsureLength v.length block
  let v ← v.store v.length x
  let v := { v with length := add64 v.length 1 }
  return (sub64 v.length 1, v)

/-- The loop of `VECTOR_INSERT` with `n` elements to move, the last one first. -/
def insertShift (v : Vec α) (index : Nat) : Nat → Option (Vec α)
  | 0 => some v
  | n + 1 => do
    let x ← v.load (index + n)
    let v ← v.store (index + n + 1) x
    insertShift v index n

def vectorInsert (v : Vec α) (index : Nat) (x : α) (block : Nat → α) : Option (Vec α) := do
  let v := v.vectorEnsureLength v.length block
  let v ← v.insertShift index (v.length - index)
  let v := { v with length := add64 v.length 1 }
  v.store index x

def vectorPushFront (v : Vec α) (x : α) (block : Nat → α) : Option (Vec α) := v.vectorInsert 0 x block

/-- The loop of `VECTOR_REMOVE` with `n` elements to move, the first one first. -/
def removeShift (v : Vec α) (i : Nat) : Nat → Option (Vec α)
  | 0 => some v
  | n + 1 => do
    let x ← v.load (i + 1)
    let v ← v.store i x
    removeShift v (i + 1) n

def vectorRemove (v : Vec α) (index : Nat) : Option (Vec α) := do
  let v ← v.removeShift index (sub64 v.length 1 - index)
  return { v with length := sub64 v.length 1 }

/-- `VECTOR_ITEM`; `invalid` is `-1` as an element. -/
def vectorItem (v : Vec α) (index : Nat) (invalid : α) : Option α :=
  if index < v.length then v.load index else some invalid

/-- The loop of `VECTOR_FIND` with `n` elements to look at; the result is a `ssize_t`. -/
def findFrom [DecidableEq α] (v : Vec α) (x : α) (i : Nat) : Nat → Option Int
  | 0 => some (-1)
  | n + 1 => do
    let y ← v.load i
    if y = x then return (i : Int).bmod (2 ^ 64) else findFrom v x (i + 1) n

def vectorFind [DecidableEq α] (v : Vec α) (x : α) : Option Int := v.findFrom x 0 v.length

/-- The `ssize_t` is stored in a `size_t`. -/
def vectorRemoveByValue [DecidableEq α] (v : Vec α) (x : α) : Option (Vec α) := do
  let found ← v.vectorFind x
  v.vectorRemove (found % 2 ^ 64).toNat

def window : Nat := Heap.heapLimit - Heap.heapBase

/-- The size of an element. A type of `2 ^ 61` bytes or more would not fit in the address space. -/
structure ElementSize (elem : Nat) : Prop where
  pos : 0 < elem
  small : elem < 2 ^ 61

structure Sized (elem : Nat) (v : Vec α) : Prop where
  fits : v.length ≤ v.capacity
  inside : elem * v.capacity ≤ window

/-- What `krealloc` promises if it returns a block: the old elements are in it, and it is not larger
than the heap. -/
def Grows (elem : Nat) (v : Vec α) (block : Nat → α) : Prop :=
  v.capacity ≤ v.length → (∀ i < v.capacity, block i = v.data i) ∧ v.nextCapacity * elem % 2 ^ 64 ≤ window

def toList (v : Vec α) : List α := front v.data v.length

variable {elem : Nat} {v : Vec α} {block : Nat → α} {x : α} {i : Nat}

theorem window_eq : window = 2 ^ 28 := by decide

theorem wordSize : ElementSize 8 := ⟨by decide, by decide⟩

theorem load_of_lt (lt : i < v.capacity) : v.load i = some (v.data i) := if_pos lt

theorem store_of_lt (lt : i < v.capacity) : v.store i x = some (v.set i x) := if_pos lt

namespace Sized

theorem init (elem : Nat) (data : Nat → α) : Sized elem (Vec.init data) := ⟨Nat.le_refl 0, Nat.zero_le _⟩

theorem capacity_le (h : Sized elem v) (size : ElementSize elem) : v.capacity ≤ 2 ^ 28 := by
  have inside := h.inside
  rw [window_eq] at inside
  exact (Nat.le_mul_of_pos_left _ size.pos).trans inside

theorem length_lt (h : Sized elem v) (size : ElementSize elem) : v.length < 2 ^ 63 := by
  have fits := h.fits
  have small := h.capacity_le size
  omega

theorem nextCapacity (h : Sized elem v) (size : ElementSize elem) :
    v.nextCapacity = if v.capacity = 0 then 8 else v.capacity * 2 := by
  have := h.capacity_le size
  unfold Vec.nextCapacity
  split
  · rfl
  · exact Nat.mod_eq_of_lt (by omega)

structure Room (elem : Nat) (v w : Vec α) : Prop where
  length : w.length = v.length
  room : v.length < w.capacity
  inside : elem * w.capacity ≤ window
  data : ∀ i < v.length, w.data i = v.data i

/-- The product that `krealloc` gets does not wrap, since the block is no larger than the heap. -/
theorem vectorEnsureLength (h : Sized elem v) (size : ElementSize elem) (grows : Grows elem v block) :
    Room elem v (v.vectorEnsureLength v.length block) := by
  have fits := h.fits
  have inside := h.inside
  unfold Vec.vectorEnsureLength
  split
  · rename_i full
    obtain ⟨kept, bytes⟩ := grows full
    rw [h.nextCapacity size] at bytes ⊢
    rw [window_eq] at *
    have small := size.small
    have larger : v.length < (if v.capacity = 0 then 8 else v.capacity * 2) := by split <;> omega
    refine ⟨rfl, larger, ?_, fun i lt => kept i (lt.trans_le fits)⟩
    dsimp only
    rw [window_eq]
    split at bytes
    · rename_i zero
      rw [if_pos zero]
      omega
    · rename_i nonzero
      rw [if_neg nonzero]
      rw [Nat.mul_right_comm, Nat.mul_comm v.capacity elem] at bytes
      rw [← Nat.mul_assoc]
      omega
  · exact ⟨rfl, by omega, inside, fun _ _ => rfl⟩

structure Pushed (elem : Nat) (v : Vec α) (x : α) (w : Vec α) : Prop where
  sized : Sized elem w
  length : w.length = v.length + 1
  last : w.data v.length = x
  data : ∀ i < v.length, w.data i = v.data i

theorem vectorPushBack (h : Sized elem v) (size : ElementSize elem) (grows : Grows elem v block) :
    ∃ w, v.vectorPushBack x block = some (v.length, w) ∧ Pushed elem v x w := by
  have room := h.vectorEnsureLength size grows
  have bound := h.length_lt size
  have next : add64 v.length 1 = v.length + 1 := add64_of_lt (by omega)
  have back : sub64 (v.length + 1) 1 = v.length := sub64_of_le (by omega) (by omega)
  unfold Vec.vectorPushBack
  dsimp only
  generalize v.vectorEnsureLength v.length block = u at room
  rw [room.length, store_of_lt room.room]
  simp only [Option.bind_eq_bind, Option.bind_some, set, room.length, next, back]
  refine ⟨_, rfl, ⟨⟨room.room, room.inside⟩, rfl, Function.update_self .., fun i lt => ?_⟩⟩
  exact (Function.update_of_ne (Nat.ne_of_lt lt) _ _).trans (room.data i lt)

theorem vectorItem (h : Sized elem v) (lt : i < v.length) (invalid : α) :
    v.vectorItem i invalid = some (v.data i) := by
  unfold Vec.vectorItem
  rw [if_pos lt, load_of_lt (lt.trans_le h.fits)]

theorem vectorRemove_last (h : Sized elem v) (size : ElementSize elem) (pos : 0 < v.length) :
    v.vectorRemove (v.length - 1) = some { v with length := v.length - 1 } := by
  have bound := h.length_lt size
  have pred : sub64 v.length 1 = v.length - 1 := sub64_of_le (by omega) (by omega)
  unfold Vec.vectorRemove
  rw [pred, Nat.sub_self]
  simp only [removeShift, Option.bind_eq_bind, Option.bind_some, pred]
  rfl

end Sized

theorem Sized.Pushed.toList {w : Vec α} (h : Sized.Pushed elem v x w) : w.toList = v.toList ++ [x] := by
  unfold Vec.toList
  rw [h.length, front_succ, h.last, front_congr h.data]

end Vec

end Voyager
