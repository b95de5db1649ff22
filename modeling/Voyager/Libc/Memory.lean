import Voyager.Access

/-!
# Moving and comparing memory

A move is followed by `Moved`: one interval of the destination holds what the source held
before. Each direction extends the interval at the end where the source is still untouched.
-/

namespace Voyager.Libc

open Lib ByteSpace

section

variable {σ : Type} (S : ByteSpace σ)

/-- `for (i = ..; i < size; i++) dst[i] = src[i]`, with the number of bytes that are left. -/
def moveUp (m : σ) (dst src i : Nat) : Nat → Kernel σ
  | 0 => .ok m
  | left + 1 => do
    let m ← writeByte S m (add64 dst i) (← readByte S m (add64 src i))
    moveUp m dst src (i + 1) left

/-- `for (i = size; i != 0; i--) dst[i - 1] = src[i - 1]` -/
def moveDown (m : σ) (dst src : Nat) : Nat → Kernel σ
  | 0 => .ok m
  | i + 1 => do
    let m ← writeByte S m (add64 dst i) (← readByte S m (add64 src i))
    moveDown m dst src i

def memmove (m : σ) (dstptr srcptr size : Nat) : Kernel (Nat × σ) :=
  if dstptr < srcptr then do return (dstptr, ← moveUp S m dstptr srcptr 0 size)
  else do return (dstptr, ← moveDown S m dstptr srcptr size)

/-- The loop of `memcmp`, with the number of bytes that are left. -/
def compareFrom (m : σ) (aptr bptr i : Nat) : Nat → Kernel Int
  | 0 => .ok 0
  | left + 1 => do
    let a ← readByte S m (add64 aptr i)
    let b ← readByte S m (add64 bptr i)
    if a < b then return -1
    else if b < a then return 1
    else compareFrom m aptr bptr (i + 1) left

def memcmp (m : σ) (aptr bptr size : Nat) : Kernel Int := compareFrom S m aptr bptr 0 size

end

variable {σ : Type} {S : ByteSpace σ} {P : σ → Prop} {D : Nat → Prop} {m₀ m : σ} {dst src lo hi size : Nat}

/-- The bytes `lo` to `hi` of the destination are those the source had in `m₀`, and nothing else
has changed since. -/
structure Moved (S : ByteSpace σ) (D : Nat → Prop) (m₀ m : σ) (dst src lo hi : Nat) : Prop where
  copied : ∀ i, lo ≤ i → i < hi → S.get m (dst + i) = S.get m₀ (src + i)
  kept : ∀ a, D a → a < dst + lo ∨ dst + hi ≤ a → S.get m a = S.get m₀ a

structure Ranges (D : Nat → Prop) (dst src size : Nat) : Prop where
  target : ∀ i < size, D (dst + i)
  source : ∀ i < size, D (src + i)
  dstFits : dst + size ≤ 2 ^ 64
  srcFits : src + size ≤ 2 ^ 64

theorem Moved.none (m : σ) (k : Nat) : Moved S D m m dst src k k := by
  constructor
  · intro i low high
    omega
  · intro a _ _
    rfl

theorem Moved.step (R : S.Region P D) (ranges : Ranges D dst src size) (h : P m) (moved : Moved S D m₀ m dst src lo hi)
    {k lo' hi' : Nat} (inside : k < size) (fresh : src + k < dst + lo ∨ dst + hi ≤ src + k)
    (grows : lo' = lo ∧ k = hi ∧ hi' = hi + 1 ∨ lo' = k ∧ lo = k + 1 ∧ hi' = hi) (ordered : lo ≤ hi)
    (bound : hi' ≤ size) :
    ∃ m', (do writeByte S m (add64 dst k) (← readByte S m (add64 src k))) = .ok m' ∧ P m' ∧
      Moved S D m₀ m' dst src lo' hi' := by
  have there := ranges.target k inside
  have here := ranges.source k inside
  have dstFits := ranges.dstFits
  have srcFits := ranges.srcFits
  have source : S.get m (src + k) = S.get m₀ (src + k) := moved.kept _ here fresh
  refine ⟨S.set m (dst + k) (S.get m (src + k)), ?_, R.keep _ h there, ?_, ?_⟩
  · rw [add64_of_lt (by omega), add64_of_lt (by omega), bind_eq (readByte_ok (R.mapped h here)),
      writeByte_ok (R.mapped h there)]
  · intro i low high
    by_cases same : i = k
    · subst same
      rw [R.get_set _ h there there, if_pos rfl, source]
    · rw [R.get_set _ h there (ranges.target i (by omega)), if_neg (by omega)]
      exact moved.copied i (by omega) (by omega)
  · intro a ha out
    rw [R.get_set _ h there ha, if_neg (by omega)]
    exact moved.kept a ha (by omega)

theorem moveUp_run (R : S.Region P D) (ranges : Ranges D dst src size) (below : dst < src) {i left : Nat}
    (whole : i + left = size) (h : P m) (moved : Moved S D m₀ m dst src 0 i) :
    ∃ m', moveUp S m dst src i left = .ok m' ∧ P m' ∧ Moved S D m₀ m' dst src 0 size := by
  induction left generalizing m i with
  | zero =>
    rw [Nat.add_zero] at whole
    subst whole
    exact ⟨m, rfl, h, moved⟩
  | succ left ih =>
    obtain ⟨m', step, h', moved'⟩ := moved.step R ranges h (k := i) (by omega) (by omega)
      (.inl ⟨rfl, rfl, rfl⟩) (Nat.zero_le i) (by omega)
    obtain ⟨m'', rest, kept, all⟩ := ih (by omega) h' moved'
    refine ⟨m'', ?_, kept, all⟩
    obtain ⟨byte, read, write⟩ := bind_ok step
    rw [moveUp, bind_eq read, bind_eq write]
    exact rest

theorem moveDown_run (R : S.Region P D) (ranges : Ranges D dst src size) (above : src ≤ dst) {i : Nat}
    (le : i ≤ size) (h : P m) (moved : Moved S D m₀ m dst src i size) :
    ∃ m', moveDown S m dst src i = .ok m' ∧ P m' ∧ Moved S D m₀ m' dst src 0 size := by
  induction i generalizing m with
  | zero => exact ⟨m, rfl, h, moved⟩
  | succ i ih =>
    obtain ⟨m', step, h', moved'⟩ := moved.step R ranges h (k := i) (by omega) (by omega)
      (.inr ⟨rfl, rfl, rfl⟩) le (Nat.le_refl size)
    obtain ⟨m'', rest, kept, all⟩ := ih (by omega) h' moved'
    refine ⟨m'', ?_, kept, all⟩
    obtain ⟨byte, read, write⟩ := bind_ok step
    rw [moveDown, bind_eq read, bind_eq write]
    exact rest

/-- However the ranges lie, `memmove` leaves the old bytes of the source in the destination and
changes nothing else. -/
theorem memmove_moves (R : S.Region P D) (ranges : Ranges D dst src size) (h : P m) :
    ∃ m', memmove S m dst src size = .ok (dst, m') ∧ P m' ∧
      (∀ i < size, S.get m' (dst + i) = S.get m (src + i)) ∧
      ∀ a, D a → a < dst ∨ dst + size ≤ a → S.get m' a = S.get m a := by
  have finish : ∀ m', Moved S D m m' dst src 0 size → (∀ i < size, S.get m' (dst + i) = S.get m (src + i)) ∧
      ∀ a, D a → a < dst ∨ dst + size ≤ a → S.get m' a = S.get m a :=
    fun m' moved => ⟨fun i lt => moved.copied i (Nat.zero_le i) lt, moved.kept⟩
  unfold memmove
  by_cases below : dst < src
  · obtain ⟨m', run, kept, moved⟩ := moveUp_run R ranges below (Nat.zero_add size) h (.none m 0)
    refine ⟨m', ?_, kept, finish m' moved⟩
    rw [if_pos below, bind_eq run]
    rfl
  · obtain ⟨m', run, kept, moved⟩ := moveDown_run R ranges (by omega) (Nat.le_refl size) h (.none m size)
    refine ⟨m', ?_, kept, finish m' moved⟩
    rw [if_neg below, bind_eq run]
    rfl

theorem memmove_moves_overlap : ∃ m', memmove flat (fun a => UInt8.ofNat a) 101 100 3 = .ok (101, m') ∧
    m' 101 = 100 ∧ m' 102 = 101 ∧ m' 103 = 102 ∧ m' 100 = 100 := by
  have ranges : Ranges (fun _ => True) 101 100 3 :=
    ⟨fun _ _ => trivial, fun _ _ => trivial, by decide, by decide⟩
  obtain ⟨m', run, _, copied, kept⟩ := memmove_moves flat_region ranges (m := fun a => UInt8.ofNat a) trivial
  refine ⟨m', run, copied 0 (by decide), copied 1 (by decide), copied 2 (by decide), ?_⟩
  exact kept 100 trivial (.inl (by decide))

variable {aptr bptr : Nat}

theorem compareFrom_eq {i left : Nat} (fits : aptr + i + left ≤ 2 ^ 64 ∧ bptr + i + left ≤ 2 ^ 64)
    (first : Readable S m (aptr + i) left) (second : Readable S m (bptr + i) left) :
    ∃ r, compareFrom S m aptr bptr i left = .ok r ∧
      (r = 0 ↔ ∀ j < left, S.get m (aptr + i + j) = S.get m (bptr + i + j)) := by
  induction left generalizing i with
  | zero => exact ⟨0, rfl, by simp⟩
  | succ left ih =>
    have shift : ∀ {p : Nat}, Readable S m (p + i) (left + 1) → Readable S m (p + (i + 1)) left := by
      intro p readable j lt
      have := readable (j + 1) (by omega)
      rwa [show p + i + (j + 1) = p + (i + 1) + j by omega] at this
    obtain ⟨r, rest, iff⟩ := ih (i := i + 1) (by omega) (shift first) (shift second)
    have readA := readByte_ok (first 0 (by omega))
    have readB := readByte_ok (second 0 (by omega))
    rw [Nat.add_zero] at readA readB
    have split : (∀ j < left + 1, S.get m (aptr + i + j) = S.get m (bptr + i + j)) ↔
        S.get m (aptr + i) = S.get m (bptr + i) ∧
          ∀ j < left, S.get m (aptr + (i + 1) + j) = S.get m (bptr + (i + 1) + j) := by
      rw [Nat.forall_lt_succ_left']
      simp only [Nat.add_zero, Nat.add_assoc, Nat.add_comm 1]
    rw [compareFrom, add64_of_lt (by omega), add64_of_lt (by omega), bind_eq readA, bind_eq readB, split]
    split_ifs with less more
    · refine ⟨-1, rfl, ?_⟩
      simp only [reduceCtorEq, false_iff, not_and]
      intro same
      exact absurd less (same ▸ UInt8.lt_irrefl _)
    · refine ⟨1, rfl, ?_⟩
      simp only [one_ne_zero, false_iff, not_and]
      intro same
      exact absurd more (same ▸ UInt8.lt_irrefl _)
    · refine ⟨r, rest, ?_⟩
      rw [iff, and_iff_right]
      exact UInt8.le_antisymm (UInt8.not_lt.mp more) (UInt8.not_lt.mp less)

theorem memcmp_eq_zero_iff (fits : aptr + size ≤ 2 ^ 64 ∧ bptr + size ≤ 2 ^ 64)
    (first : Readable S m aptr size) (second : Readable S m bptr size) :
    ∃ r, memcmp S m aptr bptr size = .ok r ∧ (r = 0 ↔ ∀ j < size, S.get m (aptr + j) = S.get m (bptr + j)) :=
  compareFrom_eq (by omega) first second

end Voyager.Libc
