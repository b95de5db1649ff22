import Mathlib.Algebra.Group.Nat.Defs
import Mathlib.Data.List.Basic
import Voyager.Lib.Cells

/-!
# Decimal notation

The ASCII codes of the digits that the standard library gives. A loop that divides by ten
writes them; a reader that multiplies by ten and adds gets the number back.
-/

namespace Voyager.Lib

def digitCode (d : Nat) : UInt8 := UInt8.ofNat (48 + d)

def isDigit (c : UInt8) : Bool := '0'.toUInt8 ≤ c && c ≤ '9'.toUInt8

theorem isDigit_digitCode : ∀ d < 10, isDigit (digitCode d) = true := by
  decide

def decimal (n : Nat) : List UInt8 := (Nat.toDigits 10 n).map Char.toUInt8

variable {n d k : Nat}

theorem toUInt8_digitChar (lt : d < 10) : (Nat.digitChar d).toUInt8 = digitCode d := by
  have all : ∀ d < 10, (Nat.digitChar d).toUInt8 = digitCode d := by decide
  exact all d lt

theorem decimal_of_lt (lt : n < 10) : decimal n = [digitCode n] := by
  rw [decimal, Nat.toDigits_of_lt_base lt, List.map_singleton, toUInt8_digitChar lt]

theorem decimal_of_le (le : 10 ≤ n) : decimal n = decimal (n / 10) ++ [digitCode (n % 10)] := by
  rw [decimal, Nat.toDigits_of_base_le (by decide) le, List.map_append, List.map_singleton,
    toUInt8_digitChar (Nat.mod_lt n (by decide))]
  rfl

theorem decimal_length_le_iff (pos : 0 < k) : (decimal n).length ≤ k ↔ n < 10 ^ k := by
  rw [decimal, List.length_map, Nat.length_toDigits_le_iff (by decide) pos]

theorem decimal_ne_nil (n : Nat) : decimal n ≠ [] := by
  simp [decimal]

theorem decimal_induction {motive : Nat → Prop} (single : ∀ n < 10, motive n)
    (more : ∀ n, 10 ≤ n → motive (n / 10) → motive n) (n : Nat) : motive n := by
  induction n using Nat.strongRecOn with
  | ind n ih =>
    rcases Nat.lt_or_ge n 10 with small | large
    · exact single n small
    · exact more n large (ih (n / 10) (by omega))

theorem mem_decimal {c : UInt8} (h : c ∈ decimal n) : ∃ d < 10, c = digitCode d := by
  induction n using decimal_induction with
  | single n lt =>
    rw [decimal_of_lt lt, List.mem_singleton] at h
    exact ⟨n, lt, h⟩
  | more n le ih =>
    rw [decimal_of_le le] at h
    rcases List.mem_append.mp h with front | last
    · exact ih front
    · exact ⟨n % 10, Nat.mod_lt n (by decide), List.mem_singleton.mp last⟩

theorem decimal_head (n : Nat) : (decimal n).head? = some (digitCode 0) ↔ n = 0 := by
  induction n using decimal_induction with
  | single n lt =>
    rw [decimal_of_lt lt, List.head?_cons, Option.some.injEq]
    have all : ∀ n < 10, digitCode n = digitCode 0 ↔ n = 0 := by decide
    exact all n lt
  | more n le ih =>
    rw [decimal_of_le le, List.head?_append_of_ne_nil _ (decimal_ne_nil _), ih]
    omega

theorem foldl_decimal {α : Type} (value : Nat → α) (step : α → UInt8 → α)
    (next : ∀ r d, d < 10 → step (value r) (digitCode d) = value (r * 10 + d)) (n : Nat) :
    (decimal n).foldl step (value 0) = value n := by
  induction n using decimal_induction with
  | single n lt =>
    rw [decimal_of_lt lt, List.foldl_cons, List.foldl_nil, next 0 n lt, Nat.zero_mul, Nat.zero_add]
  | more n le ih =>
    rw [decimal_of_le le, List.foldl_append, ih, List.foldl_cons, List.foldl_nil,
      next _ _ (Nat.mod_lt n (by decide)), Nat.div_add_mod']

/-- Digits, at least one, and no zero in front of another digit. -/
structure Canonical (text : List UInt8) : Prop where
  digits : ∀ c ∈ text, 48 ≤ c ∧ c ≤ 57
  nonempty : text ≠ []
  head : ∀ rest, text = 48 :: rest → rest = []

theorem decimal_canonical (n : Nat) : Canonical (decimal n) where
  digits c hc := by
    obtain ⟨d, lt, rfl⟩ := mem_decimal hc
    have all : ∀ d < 10, 48 ≤ digitCode d ∧ digitCode d ≤ 57 := by decide
    exact all d lt
  nonempty := decimal_ne_nil n
  head rest shape := by
    have zero : n = 0 := (decimal_head n).mp (by rw [shape]; rfl)
    subst zero
    rw [decimal_of_lt (by decide)] at shape
    exact (List.cons.inj shape).2.symm

theorem zero_notMem_decimal (n : Nat) : 0 ∉ decimal n := by
  intro h
  obtain ⟨d, lt, zero⟩ := mem_decimal h
  have all : ∀ d < 10, (0 : UInt8) ≠ digitCode d := by decide
  exact all d lt zero

/-- `run a i cells` puts the digits of the number that `a` stands for into the cells from `i` on, as
long as it stays inside, and returns the next index. -/
structure DigitLoop {α : Type} (run : α → Nat → (Nat → UInt8) → Option (Nat × (Nat → UInt8)))
    (denotes : α → Nat → Prop) (inside : Nat → Prop) : Prop where
  last : ∀ {a n i} cells, denotes a n → n < 10 → inside i →
    run a i cells = some (i + 1, Function.update cells i (digitCode n))
  next : ∀ {a n i} cells, denotes a n → 10 ≤ n → inside i →
    ∃ a', denotes a' (n / 10) ∧ run a i cells = run a' (i + 1) (Function.update cells i (digitCode (n % 10)))

theorem DigitLoop.eq {α : Type} {run : α → Nat → (Nat → UInt8) → Option (Nat × (Nat → UInt8))}
    {denotes : α → Nat → Prop} {inside : Nat → Prop} (loop : DigitLoop run denotes inside) {a : α} {i : Nat}
    (cells : Nat → UInt8) (value : denotes a n) (room : ∀ k < (decimal n).length, inside (i + k)) :
    ∃ cells', run a i cells = some (i + (decimal n).length, cells') ∧
      front cells' (i + (decimal n).length) = front cells i ++ (decimal n).reverse := by
  induction n using decimal_induction generalizing a i cells with
  | single n lt =>
    rw [decimal_of_lt lt] at room ⊢
    refine ⟨_, loop.last cells value lt (room 0 (by simp)), ?_⟩
    exact front_push cells i _
  | more n le ih =>
    rw [decimal_of_le le, List.length_append, List.length_singleton] at room ⊢
    obtain ⟨a', value', step⟩ := loop.next cells value le (room 0 (by omega))
    have rest : ∀ k < (decimal (n / 10)).length, inside (i + 1 + k) := fun k lt => by
      rw [Nat.add_right_comm]
      exact room (k + 1) (by omega)
    obtain ⟨cells', finish, shows⟩ := ih _ value' rest
    rw [show i + ((decimal (n / 10)).length + 1) = i + 1 + (decimal (n / 10)).length by omega]
    refine ⟨cells', step.trans finish, ?_⟩
    rw [shows, front_push, List.append_assoc, List.reverse_append]
    rfl

end Voyager.Lib
