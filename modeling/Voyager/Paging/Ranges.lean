import Mathlib.Logic.Function.Iterate
import Voyager.Paging.MapPage

/-!
# Entering ranges

The `while` loops of `map_range_4k` and `map_range_huge_first` as loops over a known number of
pages.
-/

namespace Voyager.Machine

open Lib Lib.RadixTable Paging

def pageLoop (f : Machine → Nat → Nat → Kernel Machine) (size : Nat) (m : Machine) (va pa : Nat) :
    Nat → Kernel Machine
  | 0 => .ok m
  | n + 1 => do pageLoop f size (← f m va pa) (add64 va size) (add64 pa size) n

abbrev pages4k (root flags : Nat) := pageLoop (fun m va pa => m.map4k root va pa flags) pageSize

abbrev pages2m (root flags : Nat) := pageLoop (fun m va pa => m.map2m root va pa flags) page2m

variable {m m' : Machine} {root va va' pa flags stop size n fuel : Nat}

theorem add64_add (x y z : Nat) : add64 (add64 x y) z = add64 x (y + z) := by
  unfold add64
  omega

section Counts

variable {more : Nat → Nat → Bool} {f : Machine → Nat → Nat → Kernel Machine} {x : Nat}

theorem pageWhile_eq (before : ∀ j < n, more ((add64 · size)^[j] va) ((add64 · size)^[j] pa))
    (after : ¬ more ((add64 · size)^[n] va) ((add64 · size)^[n] pa)) (enough : n < fuel) :
    pageWhile more f size m va pa fuel = (do
      let m' ← pageLoop f size m va pa n
      return (m', (add64 · size)^[n] va, (add64 · size)^[n] pa)) := by
  obtain ⟨fuel, rfl⟩ : ∃ k, fuel = k + 1 := ⟨fuel - 1, by omega⟩
  induction n generalizing m va pa fuel with
  | zero =>
    have ends : ¬ more va pa := after
    rw [pageWhile, if_neg ends]
    rfl
  | succ n ih =>
    obtain ⟨fuel, rfl⟩ : ∃ k, fuel = k + 1 := ⟨fuel - 1, by omega⟩
    have first : more va pa := before 0 (by omega)
    rw [pageWhile, if_pos first, pageLoop, bind_assoc]
    exact bind_congr fun m₁ => ih (fun j hj => before (j + 1) (by omega)) after _ (by omega)

theorem iterate_add64 (lt : x < 2 ^ 64) : (add64 · size)^[n] x = add64 x (n * size) := by
  induction n generalizing x with
  | zero =>
    rw [Nat.zero_mul]
    exact (Nat.mod_eq_of_lt lt).symm
  | succ n ih =>
    rw [Function.iterate_succ_apply, ih (add64_lt _ _), add64_add, Nat.succ_mul, Nat.add_comm size]

theorem iterate_add64_of_lt (fits : n = 0 ∨ x + n * size < 2 ^ 64) : (add64 · size)^[n] x = x + n * size := by
  rcases fits with rfl | fits
  · rw [Nat.zero_mul, Nat.add_zero]
    rfl
  · rw [iterate_add64 (by omega), add64_of_lt fits]

theorem pageWhile_count (inside : va < 2 ^ 64) (moved : ∀ j ≤ n, (add64 · size)^[j] pa = pa + j * size)
    (before : ∀ j < n, more (add64 va (j * size)) (pa + j * size))
    (after : ¬ more (add64 va (n * size)) (pa + n * size)) (enough : n < fuel) :
    pageWhile more f size m va pa fuel = (do
      let m' ← pageLoop f size m va pa n
      return (m', add64 va (n * size), pa + n * size)) := by
  rw [pageWhile_eq ?_ ?_ enough, iterate_add64 inside, moved n (Nat.le_refl n)]
  · intro j hj
    rw [iterate_add64 inside, moved j (Nat.le_of_lt hj)]
    exact before j hj
  · rw [iterate_add64 inside, moved n (Nat.le_refl n)]
    exact after

end Counts

theorem mapRange4k_eq (sum : va + n * pageSize < 2 ^ 64) :
    m.mapRange4k root va pa (n * pageSize) flags = pages4k root flags m va pa n := by
  have test (j : Nat) (le : j ≤ n) :
      decide ((add64 · pageSize)^[j] va < va + n * pageSize) = true ↔ j < n := by
    have order := Nat.mul_le_mul_right pageSize le
    rw [iterate_add64_of_lt (.inr (by omega)), decide_eq_true_iff, Nat.add_lt_add_iff_left,
      Nat.mul_lt_mul_right (by decide)]
  unfold mapRange4k
  rw [add64_of_lt sum]
  dsimp only
  rw [pageWhile_eq (n := n) ?_ ?_ ?_, bind_assoc]
  · exact bind_pure _
  · exact fun j hj => (test j (Nat.le_of_lt hj)).mpr hj
  · exact fun more => Nat.lt_irrefl n ((test n (Nat.le_refl n)).mp more)
  · unfold loopFuel pageSize at *
    omega

theorem unaligned_iff (same : va % page2m = pa % page2m) : (pa ||| va) &&& (page2m - 1) ≠ 0 ↔ pa % page2m ≠ 0 := by
  have mask : page2m - 1 = 2 ^ 21 - 1 := by decide
  have unit : page2m = 2 ^ 21 := by decide
  rw [mask, Nat.and_two_pow_sub_one_eq_mod, Nat.or_mod_two_pow, ← unit, same, Nat.or_self]

theorem add64_mod_page2m (x y : Nat) : add64 x y % page2m = (x + y) % page2m := by
  unfold add64 page2m
  omega

theorem hugeHead_eq (same : va % page2m = pa % page2m) (inside : va < 2 ^ 64)
    (before : ∀ j < n, pa + j * pageSize < stop ∧ (pa + j * pageSize) % page2m ≠ 0)
    (after : ¬ (pa + n * pageSize < stop ∧ (pa + n * pageSize) % page2m ≠ 0)) (lt : stop + pageSize < 2 ^ 64)
    (enough : n < fuel) :
    hugeHead root flags stop m va pa fuel = (do
      let m' ← pages4k root (flags ||| pteW ||| pteNX) m va pa n
      return (m', add64 va (n * pageSize), pa + n * pageSize)) := by
  have moved (j : Nat) (le : j ≤ n) : (add64 · pageSize)^[j] pa = pa + j * pageSize := by
    cases j with
    | zero => exact iterate_add64_of_lt (.inl rfl)
    | succ j =>
      have last := (before j le).1
      exact iterate_add64_of_lt (.inr (by rw [Nat.succ_mul]; omega))
  -- Both addresses keep one offset in 2 MiB, so that the test is one of `pa`.
  have test (j : Nat) : (decide (pa + j * pageSize < stop) &&
      (pa + j * pageSize ||| add64 va (j * pageSize)) &&& (page2m - 1) != 0) = true ↔
      pa + j * pageSize < stop ∧ (pa + j * pageSize) % page2m ≠ 0 := by
    have offset : add64 va (j * pageSize) % page2m = (pa + j * pageSize) % page2m := by
      rw [add64_mod_page2m, Nat.add_mod, same, ← Nat.add_mod]
    rw [Bool.and_eq_true, decide_eq_true_iff, bne_iff_ne, unaligned_iff offset]
  exact pageWhile_count inside moved (fun j hj => (test j).mpr (before j hj)) (fun more => after ((test n).mp more)) enough

theorem hugeBody_eq (inside : va < 2 ^ 64) (before : n = 0 ∨ pa + n * page2m ≤ stop)
    (after : stop < pa + n * page2m + page2m)
    (lt : stop + page2m < 2 ^ 64) (low : pa + page2m < 2 ^ 64) (enough : n < fuel) :
    hugeBody root flags stop m va pa fuel = (do
      let m' ← pages2m root (flags ||| pteNX) m va pa n
      return (m', add64 va (n * page2m), pa + n * page2m)) := by
  have fits (j : Nat) (le : j ≤ n) : pa + j * page2m + page2m < 2 ^ 64 := by
    have order := Nat.mul_le_mul_right page2m le
    rcases before with rfl | before
    · omega
    · omega
  refine pageWhile_count inside (fun j le => ?_) (fun j hj => decide_eq_true ?_) (fun more => ?_) enough
  · exact iterate_add64_of_lt (.inr (Nat.lt_of_le_of_lt (Nat.le_add_right _ _) (fits j le)))
  · have order : (j + 1) * page2m ≤ n * page2m := Nat.mul_le_mul_right page2m hj
    rw [Nat.succ_mul] at order
    rw [add64_of_lt (fits j (Nat.le_of_lt hj))]
    omega
  · have past := of_decide_eq_true more
    rw [add64_of_lt (fits n (Nat.le_refl n))] at past
    omega

theorem hugeTail_eq (inside : va < 2 ^ 64) (reach : n = 0 ∧ stop ≤ pa ∨ pa + n * pageSize = stop)
    (lt : stop < 2 ^ 64) (enough : n < fuel) :
    hugeTail root flags stop m va pa fuel = (do
      let m' ← pages4k root (flags ||| pteW ||| pteNX) m va pa n
      return (m', add64 va (n * pageSize), pa + n * pageSize)) := by
  refine pageWhile_count inside (fun j le => ?_) (fun j hj => decide_eq_true ?_) (fun more => ?_) enough
  · have order := Nat.mul_le_mul_right pageSize le
    exact iterate_add64_of_lt (by omega)
  · have order := (Nat.mul_lt_mul_right (by decide : 0 < pageSize)).mpr hj
    omega
  · have past := of_decide_eq_true more
    omega

/-- How many pages each of the three loops enters: `a` up to a 2 MiB boundary, `b` huge
ones, and the `c` that are left. -/
structure Split (pa len a b c : Nat) : Prop where
  sum : len = a * pageSize + b * page2m + c * pageSize
  head : a ≤ 511
  tail : c ≤ 511
  before : ∀ j < a, pa + j * pageSize < pa + len ∧ (pa + j * pageSize) % page2m ≠ 0
  after : ¬ (pa + a * pageSize < pa + len ∧ (pa + a * pageSize) % page2m ≠ 0)

def headPages (pa len : Nat) : Nat := min ((page2m - pa % page2m) % page2m / pageSize) (len / pageSize)

def bodyPages (pa len : Nat) : Nat := (len - headPages pa len * pageSize) / page2m

def tailPages (pa len : Nat) : Nat := (len - headPages pa len * pageSize) % page2m / pageSize

theorem split_pages {len : Nat} (al : pa % pageSize = 0) (whole : len % pageSize = 0) :
    Split pa len (headPages pa len) (bodyPages pa len) (tailPages pa len) := by
  have head : headPages pa len = min ((2097152 - pa % 2097152) % 2097152 / 4096) (len / 4096) := rfl
  rw [tailPages, bodyPages]
  generalize headPages pa len = a at head ⊢
  constructor
  all_goals
    unfold pageSize at *
    try unfold page2m
    omega

theorem exists_split {len : Nat} (al : pa % pageSize = 0) (whole : len % pageSize = 0) :
    ∃ a b c, Split pa len a b c := ⟨_, _, _, split_pages al whole⟩

theorem Split.body {len a b c : Nat} (h : Split pa len a b c) : b ≤ len / page2m := by
  rw [Nat.le_div_iff_mul_le (by decide), h.sum]
  omega

theorem Split.aligned {len a b c : Nat} (h : Split pa len a b c) (huge : b ≠ 0) :
    (pa + a * pageSize) % page2m = 0 := by
  have sum := h.sum
  have after := h.after
  have unit : 0 < b * page2m := Nat.mul_pos (Nat.pos_of_ne_zero huge) (by decide)
  by_contra odd
  exact after ⟨by omega, odd⟩

theorem mapRangeHugeFirst_eq {len a b c : Nat} (split : Split pa len a b c) (same : va % page2m = pa % page2m)
    (inside : va < 2 ^ 64) (small : pa + len ≤ 2 ^ 52) :
    m.mapRangeHugeFirst root va pa len flags = (do
      let m ← pages4k root (flags ||| pteW ||| pteNX) m va pa a
      let m ← pages2m root (flags ||| pteNX) m (add64 va (a * pageSize)) (pa + a * pageSize) b
      pages4k root (flags ||| pteW ||| pteNX) m (add64 va (a * pageSize + b * page2m))
        (pa + a * pageSize + b * page2m) c) := by
  have sum := split.sum
  have tail := split.tail
  have page : pageSize = 4096 := rfl
  have huge : page2m = 2097152 := rfl
  have fuel : loopFuel = 2 ^ 52 := rfl
  have rest : c * pageSize < page2m := Nat.lt_of_le_of_lt (Nat.mul_le_mul_right _ tail) (by decide)
  have count : b * 2 ≤ b * page2m := Nat.mul_le_mul_left b (by decide)
  have fits : add64 va (a * pageSize) < 2 ^ 64 := Nat.mod_lt _ (by decide)
  unfold mapRangeHugeFirst
  dsimp only
  rw [show add64 pa len = pa + len from add64_of_lt (by omega),
    hugeHead_eq same inside split.before split.after (by omega) (by have := split.head; omega), bind_assoc]
  refine bind_congr fun m₁ => ?_
  rw [pure_bind]
  dsimp only
  rw [hugeBody_eq (n := b) fits (by omega) (by omega) (by omega) (by omega) (by omega), bind_assoc]
  refine bind_congr fun m₂ => ?_
  rw [pure_bind]
  dsimp only
  have fits' : add64 (add64 va (a * pageSize)) (b * page2m) < 2 ^ 64 := Nat.mod_lt _ (by decide)
  rw [hugeTail_eq (n := c) fits' (by omega) (by omega) (by omega), add64_add, bind_assoc]
  exact bind_pure _

end Voyager.Machine
