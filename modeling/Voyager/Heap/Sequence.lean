import Voyager.Heap.Vector

/-! # Vectors as lists -/

namespace Voyager.Vec

open Lib

variable {α : Type}

/-- The vector holds the list, and its block is in the heap window. -/
structure Holds (elem : Nat) (v : Vec α) (xs : List α) : Prop extends Sized elem v where
  list : v.toList = xs

variable {elem : Nat} {v : Vec α} {xs : List α} {block data : Nat → α} {x : α} {i n : Nat}

theorem Holds.init (elem : Nat) (data : Nat → α) : Holds elem (init data) [] := ⟨.init elem data, rfl⟩

theorem toList_length (v : Vec α) : v.toList.length = v.length := front_length _ _

theorem Holds.length (h : Holds elem v xs) : v.length = xs.length := by
  rw [← h.list, toList_length]

/-! ### The loops -/

def shiftUp (data : Nat → α) (i n : Nat) : Nat → α :=
  fun k => if i < k ∧ k ≤ i + n then data (k - 1) else data k

theorem shiftUp_zero : shiftUp data i 0 = data := by
  funext k
  exact if_neg (by omega)

theorem shiftUp_succ :
    shiftUp (Function.update data (i + n + 1) (data (i + n))) i n = shiftUp data i (n + 1) := by
  funext k
  unfold shiftUp
  by_cases last : k = i + n + 1
  · subst last
    rw [if_neg (by omega), if_pos (by omega), Function.update_self, Nat.add_sub_cancel]
  · rw [Function.update_of_ne last]
    by_cases moved : i < k ∧ k ≤ i + n
    · rw [if_pos moved, if_pos (by omega), Function.update_of_ne (by omega)]
    · rw [if_neg moved, if_neg (by omega)]

theorem insertShift_eq (room : i + n < v.capacity) :
    v.insertShift i n = some { v with data := shiftUp v.data i n } := by
  induction n generalizing v with
  | zero => rw [insertShift, shiftUp_zero]
  | succ n ih =>
    rw [insertShift, load_of_lt (by omega)]
    simp only [Option.bind_eq_bind, Option.bind_some]
    rw [store_of_lt (by omega), Option.bind_some, ih (by change _ < v.capacity; omega), ← shiftUp_succ]
    rfl

def shift (data : Nat → α) (i : Nat) : Nat → Nat → α
  | 0 => data
  | n + 1 => shift (Function.update data i (data (i + 1))) (i + 1) n

theorem removeShift_eq (room : i + n < v.capacity) : v.removeShift i n = some { v with data := shift v.data i n } := by
  induction n generalizing v i with
  | zero => rfl
  | succ n ih =>
    rw [removeShift, load_of_lt (by omega)]
    simp only [Option.bind_eq_bind, Option.bind_some]
    rw [store_of_lt (by omega), Option.bind_some, ih (by change _ < v.capacity; omega)]
    rfl

theorem shift_eq (data : Nat → α) (i n k : Nat) :
    shift data i n k = if i ≤ k ∧ k < i + n then data (k + 1) else data k := by
  induction n generalizing data i with
  | zero => rw [shift, if_neg (by omega)]
  | succ n ih =>
    rw [shift, ih]
    by_cases first : k = i
    · subst first
      rw [if_neg (by omega), if_pos (by omega), Function.update_self]
    · by_cases moved : i + 1 ≤ k ∧ k < i + 1 + n
      · rw [if_pos moved, if_pos (by omega), Function.update_of_ne (by omega)]
      · rw [if_neg moved, if_neg (by omega), Function.update_of_ne first]

/-! ### The macros on the list -/

theorem front_shiftUp (le : i ≤ n) :
    front (Function.update (shiftUp data i (n - i)) i x) (n + 1) = (front data n).insertIdx i x := by
  apply front_eq
  · rw [List.length_insertIdx, front_length, if_pos le]
  · intro k lt
    rw [List.getElem?_insertIdx]
    split
    · rw [getElem?_front (by omega), Function.update_of_ne (by omega), shiftUp, if_neg (by omega)]
    · split
      · rename_i here
        subst here
        rw [if_pos (by rwa [front_length]), Function.update_self]
      · rw [getElem?_front (by omega), Function.update_of_ne (by omega), shiftUp, if_pos (by omega)]

theorem front_shift (lt : i < n) : front (shift data i (n - 1 - i)) (n - 1) = (front data n).eraseIdx i := by
  apply front_eq
  · rw [List.length_eraseIdx, front_length, if_pos lt]
  · intro k below
    rw [List.getElem?_eraseIdx, shift_eq]
    split
    · rw [getElem?_front (by omega), if_neg (by omega)]
    · rw [getElem?_front (by omega), if_pos (by omega)]

def position [DecidableEq α] (xs : List α) (x : α) : Int := if x ∈ xs then xs.idxOf x else -1

theorem findFrom_eq [DecidableEq α] (room : i + n ≤ v.capacity) (small : v.capacity ≤ 2 ^ 28) :
    v.findFrom x i n =
      some (if x ∈ front (fun k => v.data (i + k)) n then
        (i + (front (fun k => v.data (i + k)) n).idxOf x : Int) else -1) := by
  induction n generalizing i with
  | zero => rfl
  | succ n ih =>
    rw [findFrom, load_of_lt (by omega), front_from]
    simp only [Option.bind_eq_bind, Option.bind_some]
    by_cases found : v.data i = x
    · have signed : (i : Int).bmod (2 ^ 64) = i := Int.bmod_eq_of_le (by omega) (by omega)
      rw [if_pos found, signed, found, List.idxOf_cons_self, if_pos List.mem_cons_self]
      simp
    · have elsewhere : x ≠ v.data i := Ne.symm found
      rw [if_neg found, ih (by omega), List.idxOf_cons_ne _ found]
      simp only [List.mem_cons, elsewhere, false_or]
      split
      · congr 1
        push_cast
        omega
      · rfl

theorem Holds.vectorFind [DecidableEq α] (h : Holds elem v xs) (size : ElementSize elem) :
    v.vectorFind x = some (position xs x) := by
  have fits := h.fits
  unfold Vec.vectorFind
  rw [findFrom_eq (by omega) (h.capacity_le size), ← h.list]
  simp only [Nat.zero_add, Nat.cast_zero, Int.zero_add]
  rfl

theorem Holds.item (h : Holds elem v xs) (invalid : α) :
    v.vectorItem i invalid = some (xs[i]?.getD invalid) := by
  rw [← h.list]
  by_cases lt : i < v.length
  · rw [h.vectorItem lt, toList, getElem?_front lt, Option.getD_some]
  · unfold Vec.vectorItem
    rw [if_neg lt, List.getElem?_eq_none (by rw [toList_length]; omega), Option.getD_none]

theorem Holds.remove (h : Holds elem v xs) (size : ElementSize elem) (lt : i < xs.length) :
    ∃ w, v.vectorRemove i = some w ∧ Holds elem w (xs.eraseIdx i) := by
  have fits := h.fits
  have small := h.capacity_le size
  rw [← h.length] at lt
  have pred : sub64 v.length 1 = v.length - 1 := sub64_of_le (by omega) (by omega)
  unfold Vec.vectorRemove
  rw [pred, removeShift_eq (by omega)]
  simp only [Option.bind_eq_bind, Option.bind_some, pred]
  refine ⟨_, rfl, ⟨?_, h.inside⟩, ?_⟩
  · change v.length - 1 ≤ v.capacity
    omega
  · rw [← h.list]
    exact front_shift lt

theorem Holds.pushBack (h : Holds elem v xs) (size : ElementSize elem) (grows : Grows elem v block) :
    ∃ w, v.vectorPushBack x block = some (xs.length, w) ∧ Holds elem w (xs ++ [x]) := by
  obtain ⟨w, run, pushed⟩ := h.vectorPushBack (x := x) size grows
  exact ⟨w, by rw [run, h.length], pushed.sized, by rw [pushed.toList, h.list]⟩

theorem Holds.insert (h : Holds elem v xs) (size : ElementSize elem) (grows : Grows elem v block)
    (le : i ≤ xs.length) :
    ∃ w, v.vectorInsert i x block = some w ∧ Holds elem w (xs.insertIdx i x) := by
  have room := h.vectorEnsureLength size grows
  have small := h.capacity_le size
  have fits := h.fits
  rw [← h.length] at le
  have next : add64 v.length 1 = v.length + 1 := add64_of_lt (by omega)
  unfold Vec.vectorInsert
  dsimp only
  generalize v.vectorEnsureLength v.length block = w at room
  have same : front w.data v.length = xs := by
    rw [← h.list]
    exact front_congr room.data
  have above := room.room
  rw [room.length, insertShift_eq (by omega)]
  simp only [Option.bind_eq_bind, Option.bind_some, room.length, next]
  refine ⟨_, store_of_lt (show i < w.capacity by omega), ⟨room.room, room.inside⟩, ?_⟩
  rw [← same]
  exact front_shiftUp le

/-! ### Sequences of calls -/

inductive Call (α : Type) where
  | pushBack (x : α)
  | pushFront (x : α)
  | insert (index : Nat) (x : α)
  | remove (index : Nat)
  | item (index : Nat)
  | find (x : α)

inductive Answer (α : Type) where
  | none
  | index (i : Nat)
  | element (x : α)
  | found (i : Int)

def perform [DecidableEq α] (invalid : α) (v : Vec α) (block : Nat → α) : Call α → Option (Answer α × Vec α)
  | .pushBack x => do
    let (i, v) ← v.vectorPushBack x block
    return (.index i, v)
  | .pushFront x => do return (.none, ← v.vectorPushFront x block)
  | .insert index x => do return (.none, ← v.vectorInsert index x block)
  | .remove index => do return (.none, ← v.vectorRemove index)
  | .item index => do return (.element (← v.vectorItem index invalid), v)
  | .find x => do return (.found (← v.vectorFind x), v)

def performAll [DecidableEq α] (invalid : α) (v : Vec α) :
    List (Call α × (Nat → α)) → Option (List (Answer α) × Vec α)
  | [] => some ([], v)
  | (call, block) :: calls => do
    let (answer, v) ← v.perform invalid block call
    let (answers, v) ← v.performAll invalid calls
    return (answer :: answers, v)

namespace Call

def update (xs : List α) : Call α → List α
  | pushBack x => xs ++ [x]
  | pushFront x => x :: xs
  | insert index x => xs.insertIdx index x
  | remove index => xs.eraseIdx index
  | item _ | find _ => xs

def answer [DecidableEq α] (invalid : α) (xs : List α) : Call α → Answer α
  | pushBack _ => .index xs.length
  | pushFront _ | insert _ _ | remove _ => .none
  | item index => .element (xs[index]?.getD invalid)
  | find x => .found (position xs x)

def answers [DecidableEq α] (invalid : α) (xs : List α) : List (Call α) → List (Answer α)
  | [] => []
  | call :: calls => call.answer invalid xs :: answers invalid (call.update xs) calls

def Allowed (xs : List α) : Call α → Prop
  | insert index _ => index ≤ xs.length
  | remove index => index < xs.length
  | _ => True

def AllAllowed (xs : List α) : List (Call α) → Prop
  | [] => True
  | call :: calls => call.Allowed xs ∧ AllAllowed (call.update xs) calls

def Adds : Call α → Prop
  | pushBack _ | pushFront _ | insert _ _ => True
  | _ => False

end Call

/-- Whenever a call asks for a larger block, `krealloc` keeps its promise. -/
def AllGrow [DecidableEq α] (elem : Nat) (invalid : α) (v : Vec α) : List (Call α × (Nat → α)) → Prop
  | [] => True
  | (call, block) :: calls => (call.Adds → Grows elem v block) ∧
    ∀ answer v', v.perform invalid block call = some (answer, v') → AllGrow elem invalid v' calls

section Runs

variable [DecidableEq α] {invalid : α}

theorem Holds.perform {call : Call α} (h : Holds elem v xs) (size : ElementSize elem) (allowed : call.Allowed xs)
    (grows : call.Adds → Grows elem v block) :
    ∃ v', v.perform invalid block call = some (call.answer invalid xs, v') ∧ Holds elem v' (call.update xs) := by
  cases call with
  | pushBack x =>
    obtain ⟨v', run, holds⟩ := h.pushBack (x := x) size (grows trivial)
    exact ⟨v', by rw [Vec.perform, run]; rfl, holds⟩
  | pushFront x =>
    obtain ⟨v', run, holds⟩ := h.insert (i := 0) (x := x) size (grows trivial) (Nat.zero_le _)
    exact ⟨v', by rw [Vec.perform, vectorPushFront, run]; rfl, holds⟩
  | insert index x =>
    obtain ⟨v', run, holds⟩ := h.insert (x := x) size (grows trivial) allowed
    exact ⟨v', by rw [Vec.perform, run]; rfl, holds⟩
  | remove index =>
    obtain ⟨v', run, holds⟩ := h.remove size allowed
    exact ⟨v', by rw [Vec.perform, run]; rfl, holds⟩
  | item index => exact ⟨v, by rw [Vec.perform, h.item]; rfl, h⟩
  | find x => exact ⟨v, by rw [Vec.perform, h.vectorFind size]; rfl, h⟩

theorem Holds.performAll {calls : List (Call α × (Nat → α))} (h : Holds elem v xs) (size : ElementSize elem)
    (allowed : Call.AllAllowed xs (calls.map Prod.fst)) (grow : AllGrow elem invalid v calls) :
    ∃ v', v.performAll invalid calls = some (Call.answers invalid xs (calls.map Prod.fst), v') ∧
      Holds elem v' ((calls.map Prod.fst).foldl Call.update xs) := by
  induction calls generalizing v xs with
  | nil => exact ⟨v, rfl, h⟩
  | cons step calls ih =>
    obtain ⟨call, block⟩ := step
    obtain ⟨w, run, holds⟩ := h.perform size allowed.1 grow.1
    obtain ⟨v', rest, final⟩ := ih holds allowed.2 (grow.2 _ _ run)
    refine ⟨v', ?_, final⟩
    rw [Vec.performAll, run]
    simp only [Option.bind_eq_bind, Option.bind_some]
    rw [rest]
    rfl

/-- The vector refines the list, from `VECTOR_INIT` on. That there is a result says that every access was
below the capacity. -/
theorem performAll_refines {calls : List (Call α × (Nat → α))} (size : ElementSize elem)
    (allowed : Call.AllAllowed [] (calls.map Prod.fst)) (grow : AllGrow elem invalid (init data) calls) :
    ∃ v, (init data).performAll invalid calls = some (Call.answers invalid [] (calls.map Prod.fst), v) ∧
      v.length ≤ v.capacity ∧ v.toList = (calls.map Prod.fst).foldl Call.update [] := by
  obtain ⟨v, run, holds⟩ := (Holds.init elem data).performAll size allowed grow
  exact ⟨v, run, holds.fits, holds.list⟩

theorem AllGrow.cons {call : Call α} {calls : List (Call α × (Nat → α))} {answer : Answer α} {w : Vec α}
    (grows : call.Adds → Grows elem v block) (run : v.perform invalid block call = some (answer, w))
    (rest : AllGrow elem invalid w calls) : AllGrow elem invalid v ((call, block) :: calls) := by
  refine ⟨grows, fun answer' w' run' => ?_⟩
  rw [run] at run'
  cases run'
  exact rest

theorem performAll_refines_three :
    ∃ v, (init fun _ => 0).performAll (2 ^ 64 - 1)
        [(Call.pushBack 5, fun _ => 0), (Call.insert 0 4, fun _ => 0), (Call.find 5, fun _ => 0)] =
          some ([.index 0, .none, .found 1], v) ∧
      v.length ≤ v.capacity ∧ v.toList = [4, 5] := by
  have grow : AllGrow 8 (2 ^ 64 - 1) (init fun _ => 0)
      [(Call.pushBack 5, fun _ => 0), (Call.insert 0 4, fun _ => 0), (Call.find 5, fun _ => 0)] := by
    refine .cons (fun _ _ => ⟨fun i lt => absurd lt (Nat.not_lt_zero i), by decide⟩) rfl ?_
    refine .cons (fun _ full => absurd full (by decide)) rfl ?_
    exact .cons False.elim rfl trivial
  exact performAll_refines wordSize ⟨trivial, Nat.zero_le _, trivial, trivial⟩ grow

/-! ### Removing by value -/

/-- The first occurrence of the value goes, and nothing else does. -/
def RemovesOnly (v : Vec α) (x : α) : Prop :=
  ∃ v', v.vectorRemoveByValue x = some v' ∧ v'.toList = v.toList.erase x

theorem Holds.vectorRemoveByValue_mem (h : Holds elem v xs) (size : ElementSize elem) (mem : x ∈ xs) :
    ∃ w, v.vectorRemoveByValue x = some w ∧ Holds elem w (xs.erase x) := by
  have lt := List.idxOf_lt_length_of_mem mem
  have small := h.capacity_le size
  have fits := h.fits
  have length := h.length
  have index : ((xs.idxOf x : Int) % 2 ^ 64).toNat = xs.idxOf x := by omega
  rw [List.erase_eq_eraseIdx_of_idxOf rfl]
  obtain ⟨w, run, holds⟩ := h.remove size lt
  refine ⟨w, ?_, holds⟩
  unfold vectorRemoveByValue
  rw [h.vectorFind size, position, if_pos mem, Option.bind_eq_bind, Option.bind_some, index, run]

/-- `-1` is the largest `size_t`: the loop does not run, and the length goes down by one. -/
theorem Holds.vectorRemoveByValue_absent (h : Holds elem v xs) (size : ElementSize elem) (absent : x ∉ xs) :
    v.vectorRemoveByValue x = some { v with length := sub64 v.length 1 } := by
  have index : ((-1 : Int) % 2 ^ 64).toNat = 2 ^ 64 - 1 := by decide
  have rounds : sub64 v.length 1 - (2 ^ 64 - 1) = 0 := by
    unfold sub64
    omega
  unfold vectorRemoveByValue Vec.vectorRemove
  rw [h.vectorFind size, position, if_neg absent, Option.bind_eq_bind, Option.bind_some, index, rounds]
  rfl

theorem vectorRemoveByValue_removesOnly_iff (size : ElementSize elem) (h : Holds elem v xs) :
    v.RemovesOnly x ↔ x ∈ xs := by
  unfold RemovesOnly
  rw [h.list]
  constructor
  · rintro ⟨v', run, same⟩
    by_contra absent
    rw [h.vectorRemoveByValue_absent size absent, Option.some.injEq] at run
    have shorter := congrArg List.length same
    rw [← run, toList_length, List.erase_of_not_mem absent, ← h.length] at shorter
    dsimp only at shorter
    unfold sub64 at shorter
    omega
  · intro mem
    obtain ⟨w, run, holds⟩ := h.vectorRemoveByValue_mem size mem
    exact ⟨w, run, holds.list⟩

end Runs

def twoItems : Vec Nat := ⟨fun i => i + 1, 2, 8⟩

theorem twoItems_holds : Holds 8 twoItems [1, 2] := ⟨⟨by decide, by decide⟩, rfl⟩

theorem vectorRemoveByValue_removesOnly_two : twoItems.RemovesOnly 1 :=
  (vectorRemoveByValue_removesOnly_iff wordSize twoItems_holds).2 (by decide)

/-- A value that is not there: the last element goes, and an empty vector gets `2 ^ 64 - 1` elements. -/
theorem vectorRemoveByValue_absent_shrinks :
    (twoItems.vectorRemoveByValue 3).map toList = some [1] ∧ twoItems.toList.erase 3 = [1, 2] ∧
      ((init fun _ => 0).vectorRemoveByValue 3).map length = some (2 ^ 64 - 1) := by
  rw [twoItems_holds.vectorRemoveByValue_absent wordSize (by decide),
    (Holds.init 8 fun _ => 0).vectorRemoveByValue_absent wordSize (by decide)]
  exact ⟨rfl, by decide, rfl⟩

end Voyager.Vec
