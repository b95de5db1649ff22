import Mathlib.Data.List.Basic
import Mathlib.Logic.Function.Basic

/-! # The filled part of an array -/

namespace Voyager.Lib

variable {α : Type}

def front (cells : Nat → α) (n : Nat) : List α := (List.range n).map cells

variable {cells cells' : Nat → α} {n i : Nat} {x : α}

@[simp] theorem front_length (cells : Nat → α) (n : Nat) : (front cells n).length = n := by
  unfold front
  rw [List.length_map, List.length_range]

@[simp] theorem front_zero (cells : Nat → α) : front cells 0 = [] := rfl

theorem front_succ (cells : Nat → α) (n : Nat) : front cells (n + 1) = front cells n ++ [cells n] := by
  unfold front
  rw [List.range_succ, List.map_append, List.map_singleton]

theorem front_congr (same : ∀ i < n, cells' i = cells i) : front cells' n = front cells n :=
  List.map_congr_left fun i hi => same i (List.mem_range.mp hi)

theorem front_update (cells : Nat → α) (n : Nat) (x : α) : front (Function.update cells n x) n = front cells n :=
  front_congr fun _ lt => Function.update_of_ne (Nat.ne_of_lt lt) _ _

theorem front_push (cells : Nat → α) (n : Nat) (x : α) :
    front (Function.update cells n x) (n + 1) = front cells n ++ [x] := by
  rw [front_succ, front_update, Function.update_self]

theorem front_pred (cells : Nat → α) (n : Nat) : front cells (n - 1) = (front cells n).dropLast := by
  cases n with
  | zero => rfl
  | succ n => rw [front_succ, List.dropLast_concat, Nat.add_sub_cancel]

theorem front_reverse (cells : Nat → α) (n : Nat) :
    (front cells n).reverse = front (fun i => cells (n - 1 - i)) n := by
  apply List.ext_getElem
  · simp
  · intro i h₁ h₂
    simp [front]

theorem getElem?_front (lt : i < n) : (front cells n)[i]? = some (cells i) := by
  unfold front
  rw [List.getElem?_map, List.getElem?_range lt, Option.map_some]

theorem front_eq {xs : List α} (length : xs.length = n) (get : ∀ i < n, xs[i]? = some (cells i)) :
    front cells n = xs := by
  apply List.ext_getElem?
  intro i
  by_cases lt : i < n
  · rw [getElem?_front lt, get i lt]
  · rw [List.getElem?_eq_none (by rw [front_length]; omega), List.getElem?_eq_none (by omega)]

theorem front_cons (cells : Nat → α) (n : Nat) : front cells (n + 1) = cells 0 :: front (fun i => cells (i + 1)) n := by
  unfold front
  rw [List.range_succ_eq_map, List.map_cons, List.map_map]
  rfl

theorem front_from (cells : Nat → α) (a n : Nat) :
    front (fun i => cells (a + i)) (n + 1) = cells a :: front (fun i => cells (a + 1 + i)) n := by
  rw [front_cons]
  simp only [Nat.add_right_comm a 1]
  rfl

/-- The cells hold the text, and a zero marks its end. -/
structure CString (cells : Nat → UInt8) (text : List UInt8) : Prop where
  shows : front cells text.length = text
  stop : cells text.length = 0
  plain : 0 ∉ text

namespace CString

variable {cells : Nat → UInt8} {text text' : List UInt8} {i : Nat}

theorem get (h : CString cells text) (lt : i < text.length) : cells i = text[i] := by
  have here : (front cells text.length)[i]? = some (cells i) := getElem?_front lt
  rw [h.shows, List.getElem?_eq_getElem lt, Option.some.injEq] at here
  exact here.symm

theorem ne_zero (h : CString cells text) (lt : i < text.length) : cells i ≠ 0 := by
  rw [h.get lt]
  intro zero
  exact h.plain (zero ▸ List.getElem_mem lt)

theorem length_unique (h : CString cells text) (h' : CString cells text') : text.length = text'.length := by
  rcases Nat.lt_trichotomy text.length text'.length with lt | same | gt
  · exact absurd h.stop (h'.ne_zero lt)
  · exact same
  · exact absurd h'.stop (h.ne_zero gt)

theorem unique (h : CString cells text) (h' : CString cells text') : text = text' := by
  rw [← h.shows, ← h'.shows, h.length_unique h']

theorem nil (stop : cells 0 = 0) : CString cells [] := ⟨rfl, stop, List.not_mem_nil⟩

theorem cons {c : UInt8} (first : cells 0 = c) (ne : c ≠ 0) (h : CString (fun i => cells (i + 1)) text) :
    CString cells (c :: text) where
  shows := by rw [List.length_cons, front_cons, first, h.shows]
  stop := h.stop
  plain := by
    rw [List.mem_cons, not_or]
    exact ⟨ne.symm, h.plain⟩

end CString

def nulled (sep : UInt8) (text : List UInt8) : List UInt8 := text.map fun c => if c = sep then 0 else c

/-- The positions behind the separators of a text that begins at position `i`. -/
def fieldStarts (sep : UInt8) (i : Nat) : List UInt8 → List Nat
  | [] => []
  | c :: cs => if c = sep then (i + 1) :: fieldStarts sep (i + 1) cs else fieldStarts sep (i + 1) cs

theorem length_fieldStarts (sep : UInt8) (i : Nat) (text : List UInt8) :
    (fieldStarts sep i text).length = text.count sep := by
  induction text generalizing i with
  | nil => rfl
  | cons c cs ih =>
    rw [fieldStarts, List.count_cons]
    by_cases here : c = sep
    · simp [here, ih]
    · simp [here, ih]

theorem fields_of_nulled (cells : Nat → UInt8) {sep : UInt8} {text : List UInt8} {i : Nat}
    (shows : front (fun k => cells (i + k)) text.length = nulled sep text) (stop : cells (i + text.length) = 0)
    (plain : 0 ∉ text) :
    List.Forall₂ (fun s field => CString (fun k => cells (s + k)) field) (i :: fieldStarts sep i text)
      (text.splitOn sep) := by
  induction text generalizing i with
  | nil => exact .cons (.nil stop) .nil
  | cons c cs ih =>
    rw [List.mem_cons, not_or] at plain
    rw [List.length_cons, front_from] at shows
    obtain ⟨first, rest⟩ := List.cons.inj shows
    dsimp only at first
    have fields := ih rest (by rw [← stop, List.length_cons, Nat.add_right_comm, Nat.add_assoc]) plain.2
    unfold List.splitOn at fields ⊢
    rw [List.splitOnP_cons_eq_if_modifyHead, fieldStarts]
    by_cases here : c = sep
    · rw [if_pos here, if_pos (by simpa using here)]
      rw [if_pos here] at first
      exact .cons (.nil first) fields
    · rw [if_neg here, if_neg (by simpa using here)]
      rw [if_neg here] at first
      generalize cs.splitOnP (· == sep) = parts at fields ⊢
      cases fields with
      | cons field others =>
        rw [List.modifyHead_cons]
        refine .cons (.cons first (Ne.symm plain.1) ?_) others
        simp only [Nat.add_right_comm i 1] at field
        exact field

end Voyager.Lib
