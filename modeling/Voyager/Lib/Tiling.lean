import Mathlib.Algebra.BigOperators.Group.Finset.Basic
import Mathlib.Data.List.Nodup
import Mathlib.Order.Interval.Finset.Nat

/-!
# Blocks laid end to end

`Tiles addr size lo bs hi`: the blocks `bs`, in order, cover the range from `lo` to `hi`
without gap or overlap.
-/

namespace Voyager.Lib

variable {α : Type} (addr size : α → Nat)

def Tiles : Nat → List α → Nat → Prop
  | lo, [], hi => lo = hi
  | lo, b :: rest, hi => addr b = lo ∧ 0 < size b ∧ Tiles (lo + size b) rest hi

variable {addr size} {lo hi : Nat} {bs pre mid post : List α} {b c : α}

namespace Tiles

theorem le : ∀ {lo : Nat} {bs : List α}, Tiles addr size lo bs hi → lo ≤ hi
  | _, [], h => Nat.le_of_eq h
  | _, _ :: _, ⟨_, _, h⟩ => by have := h.le; omega

theorem append : Tiles addr size lo (pre ++ post) hi ↔
    ∃ mid, Tiles addr size lo pre mid ∧ Tiles addr size mid post hi := by
  induction pre generalizing lo with
  | nil => simp [Tiles]
  | cons b pre ih =>
    simp only [List.cons_append, Tiles, ih]
    constructor
    · rintro ⟨start, pos, mid, left, right⟩
      exact ⟨mid, ⟨start, pos, left⟩, right⟩
    · rintro ⟨mid, ⟨start, pos, left⟩, right⟩
      exact ⟨start, pos, mid, left, right⟩

theorem singleton : Tiles addr size lo [b] hi ↔ addr b = lo ∧ 0 < size b ∧ lo + size b = hi := by
  simp [Tiles]

theorem pair : Tiles addr size lo [b, c] hi ↔
    addr b = lo ∧ 0 < size b ∧ addr c = lo + size b ∧ 0 < size c ∧ lo + size b + size c = hi := by
  simp [Tiles]

theorem around (h : Tiles addr size lo (pre ++ b :: post) hi) :
    Tiles addr size lo pre (addr b) ∧ 0 < size b ∧ Tiles addr size (addr b + size b) post hi := by
  obtain ⟨mid, left, start, pos, right⟩ := append.mp h
  subst start
  exact ⟨left, pos, right⟩

theorem bounds (h : Tiles addr size lo bs hi) (hb : b ∈ bs) :
    lo ≤ addr b ∧ 0 < size b ∧ addr b + size b ≤ hi := by
  obtain ⟨pre, post, rfl⟩ := List.append_of_mem hb
  obtain ⟨left, pos, right⟩ := h.around
  exact ⟨left.le, pos, right.le⟩

theorem exists_of_mem_range : ∀ {lo : Nat} {bs : List α} {x : Nat}, Tiles addr size lo bs hi →
    lo ≤ x → x < hi → ∃ b ∈ bs, addr b ≤ x ∧ x < addr b + size b
  | lo, [], x, h, low, high => by simp only [Tiles] at h; omega
  | lo, b :: rest, x, ⟨start, pos, h⟩, low, high => by
    by_cases inside : x < lo + size b
    · exact ⟨b, List.mem_cons_self, by omega, by omega⟩
    · obtain ⟨c, hc, found⟩ := exists_of_mem_range h (by omega) high
      exact ⟨c, List.mem_cons_of_mem _ hc, found⟩

theorem eq_of_offset : ∀ {lo : Nat} {bs : List α} {b c : α} {i j : Nat},
    Tiles addr size lo bs hi → b ∈ bs → c ∈ bs → i < size b → j < size c →
    addr b + i = addr c + j → b = c ∧ i = j
  | lo, head :: rest, b, c, i, j, ⟨start, pos, h⟩, hb, hc, hi, hj, same => by
    rcases List.mem_cons.mp hb with rfl | later <;> rcases List.mem_cons.mp hc with rfl | later'
    · exact ⟨rfl, by omega⟩
    · have := h.bounds later'
      omega
    · have := h.bounds later
      omega
    · exact eq_of_offset h later later' hi hj same

theorem eq_of_addr (h : Tiles addr size lo bs hi) (hb : b ∈ bs) (hc : c ∈ bs)
    (same : addr b = addr c) : b = c :=
  (h.eq_of_offset (i := 0) (j := 0) hb hc (h.bounds hb).2.1 (h.bounds hc).2.1 (by omega)).1

theorem apart (h : Tiles addr size lo bs hi) (hb : b ∈ bs) (hc : c ∈ bs) (ne : addr b ≠ addr c) :
    addr b + size b ≤ addr c ∨ addr c + size c ≤ addr b := by
  by_contra overlap
  have sb := (h.bounds hb).2.1
  have sc := (h.bounds hc).2.1
  rcases Nat.lt_or_ge (addr b) (addr c) with lt | ge
  · have := (h.eq_of_offset (i := addr c - addr b) (j := 0) hb hc (by omega) sc (by omega)).1
    exact ne (congrArg addr this)
  · have := (h.eq_of_offset (i := 0) (j := addr b - addr c) hb hc sb (by omega) (by omega)).1
    exact ne (congrArg addr this)

theorem nodup_addr (h : Tiles addr size lo bs hi) : (bs.map addr).Nodup := by
  induction bs generalizing lo with
  | nil => simp
  | cons b rest ih =>
    obtain ⟨start, pos, h⟩ := h
    simp only [List.map_cons, List.nodup_cons, List.mem_map, not_exists, not_and]
    refine ⟨fun c hc same => ?_, ih h⟩
    have := h.bounds hc
    omega

theorem others_ne (h : Tiles addr size lo (pre ++ b :: post) hi) (hc : c ∈ pre ++ post) : addr c ≠ addr b := by
  have distinct := h.nodup_addr
  rw [List.map_append, List.map_cons, List.nodup_middle, List.nodup_cons, ← List.map_append] at distinct
  intro same
  exact distinct.1 (same ▸ List.mem_map_of_mem hc)

theorem end_unique : ∀ {lo : Nat} {bs : List α} {h h' : Nat}, Tiles addr size lo bs h →
    Tiles addr size lo bs h' → h = h'
  | _, [], _, _, first, second => first.symm.trans second
  | _, _ :: _, _, _, first, second => end_unique first.2.2 second.2.2

theorem replace {mid' : List α} {l h : Nat} (whole : Tiles addr size lo (pre ++ (mid ++ post)) hi)
    (old : Tiles addr size l mid h) (new : Tiles addr size l mid' h) (ne : mid ≠ []) :
    Tiles addr size lo (pre ++ (mid' ++ post)) hi := by
  obtain ⟨start, left, rest⟩ := append.mp whole
  obtain ⟨stop, body, right⟩ := append.mp rest
  obtain ⟨first, others, rfl⟩ := List.exists_cons_of_ne_nil ne
  have sameStart : start = l := by rw [← body.1, ← old.1]
  subst sameStart
  have sameStop : stop = h := body.end_unique old
  subst sameStop
  exact append.mpr ⟨start, left, append.mpr ⟨stop, new, right⟩⟩

end Tiles

theorem card_mul_le {starts : Finset Nat} {n lo hi : Nat} (inside : ∀ a ∈ starts, lo ≤ a ∧ a + n ≤ hi)
    (apart : ∀ a ∈ starts, ∀ b ∈ starts, a ≠ b → a + n ≤ b ∨ b + n ≤ a) : starts.card * n ≤ hi - lo := by
  have disjoint : (starts : Set Nat).PairwiseDisjoint fun a => Finset.Ico a (a + n) := by
    intro a ha b hb ne
    have := apart a ha b hb ne
    refine Finset.disjoint_left.mpr fun i hi hj => ?_
    rw [Finset.mem_Ico] at hi hj
    omega
  have sub : starts.biUnion (fun a => Finset.Ico a (a + n)) ⊆ Finset.Ico lo hi := by
    intro i hi
    obtain ⟨a, ha, hi⟩ := Finset.mem_biUnion.mp hi
    have := inside a ha
    rw [Finset.mem_Ico] at hi ⊢
    omega
  calc starts.card * n = (starts.biUnion fun a => Finset.Ico a (a + n)).card := by
        rw [Finset.card_biUnion disjoint]
        simp
    _ ≤ (Finset.Ico lo hi).card := Finset.card_le_card sub
    _ = hi - lo := Nat.card_Ico lo hi

end Voyager.Lib
