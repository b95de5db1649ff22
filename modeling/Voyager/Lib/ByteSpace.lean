import Mathlib.Data.Nat.Bitwise
import Mathlib.Tactic.Ring

/-!
# Byte-addressed memory

Words are little-endian runs of bytes, written and read back by loops. `Region` says on which
states and at which addresses a `ByteSpace` behaves as memory.
-/

namespace Voyager.Lib

/-- Byte access to a state. `mapped` says whether an access succeeds at all. -/
structure ByteSpace (σ : Type) where
  mapped : σ → Nat → Bool
  get : σ → Nat → UInt8
  set : σ → Nat → UInt8 → σ

namespace ByteSpace

variable {σ : Type} (S : ByteSpace σ)

/-- The little-endian value of the `n` bytes at `a`. -/
def load (m : σ) (a : Nat) : Nat → Nat
  | 0 => 0
  | n + 1 => (S.get m a).toNat + 256 * load m (a + 1) n

/-- Write the low `n` bytes of `v` at `a`, least significant byte first. -/
def store (m : σ) (a v : Nat) : Nat → σ
  | 0 => m
  | n + 1 => store (S.set m a (UInt8.ofNat v)) (a + 1) (v / 256) n

def fill (m : σ) (a : Nat) (v : UInt8) : Nat → σ
  | 0 => m
  | n + 1 => fill (S.set m a v) (a + 1) v n

def copy (m : σ) (dst src : Nat) : Nat → σ
  | 0 => m
  | n + 1 => copy (S.set m dst (S.get m src)) (dst + 1) (src + 1) n

/-- On the states in `P`, the addresses in `D` behave as memory. -/
structure Region (P : σ → Prop) (D : Nat → Prop) : Prop where
  mapped : ∀ {m a}, P m → D a → S.mapped m a = true
  keep : ∀ {m a} (v : UInt8), P m → D a → P (S.set m a v)
  get_set : ∀ {m a b} (v : UInt8), P m → D a → D b →
    S.get (S.set m a v) b = if b = a then v else S.get m b

variable {S} {P : σ → Prop} {D : Nat → Prop} {m m' : σ} {a b n k v : Nat}

theorem span_succ (h : ∀ i < n + 1, D (a + i)) : D a ∧ ∀ i < n, D (a + 1 + i) := by
  refine ⟨h 0 (Nat.succ_pos n), fun i lt => ?_⟩
  rw [Nat.add_assoc, Nat.add_comm 1]
  exact h _ (Nat.succ_lt_succ lt)

theorem load_lt (m : σ) (a n : Nat) : S.load m a n < 256 ^ n := by
  induction n generalizing a with
  | zero => simp [load]
  | succ n ih =>
    have byte := (S.get m a).toNat_lt
    have rest := ih (a + 1)
    rw [load, Nat.pow_succ]
    omega

theorem load_congr (same : ∀ i < n, S.get m' (b + i) = S.get m (a + i)) :
    S.load m' b n = S.load m a n := by
  induction n generalizing a b with
  | zero => rfl
  | succ n ih =>
    have first := same 0 (by omega)
    have rest : S.load m' (b + 1) n = S.load m (a + 1) n := by
      apply ih
      intro i hi
      have := same (i + 1) (by omega)
      rwa [show b + 1 + i = b + (i + 1) by omega, show a + 1 + i = a + (i + 1) by omega]
    rw [load, load, rest]
    simp only [Nat.add_zero] at first
    rw [first]

theorem load_zero (zero : ∀ i < n, S.get m (a + i) = 0) : S.load m a n = 0 := by
  induction n generalizing a with
  | zero => rfl
  | succ n ih =>
    obtain ⟨first, rest⟩ := span_succ (D := fun x => S.get m x = 0) zero
    rw [load, first, ih rest]
    rfl

theorem ofNat_load (lt : k < n) : UInt8.ofNat (S.load m a n / 256 ^ k) = S.get m (a + k) := by
  induction n generalizing a k with
  | zero => omega
  | succ n ih =>
    have byte := (S.get m a).toNat_lt
    cases k with
    | zero =>
      change _ = S.get m a
      rw [load, Nat.pow_zero, Nat.div_one, ← UInt8.toNat_inj, UInt8.toNat_ofNat']
      omega
    | succ k =>
      have rest : S.load m a (n + 1) / 256 = S.load m (a + 1) n := by
        rw [load]
        omega
      rw [Nat.pow_succ, Nat.mul_comm, ← Nat.div_div_eq_div_mul, rest, ih (by omega), show a + (k + 1) = a + 1 + k by omega]

namespace Region

variable (R : S.Region P D)

include R

theorem keep_store (h : P m) (hd : ∀ i < n, D (a + i)) : P (S.store m a v n) := by
  induction n generalizing m a v with
  | zero => exact h
  | succ n ih =>
    obtain ⟨ha, tail⟩ := span_succ hd
    exact ih (R.keep _ h ha) tail

theorem get_store (h : P m) (hd : ∀ i < n, D (a + i)) (hb : D b) :
    S.get (S.store m a v n) b =
      if a ≤ b ∧ b < a + n then UInt8.ofNat (v / 256 ^ (b - a)) else S.get m b := by
  induction n generalizing m a v with
  | zero => simp [store]
  | succ n ih =>
    obtain ⟨ha, tail⟩ := span_succ hd
    rw [store, ih (R.keep _ h ha) tail, R.get_set _ h ha hb]
    by_cases e : b = a
    · subst e
      rw [if_neg (by omega), if_pos rfl, if_pos (by omega), Nat.sub_self, Nat.pow_zero, Nat.div_one]
    · by_cases r : a + 1 ≤ b ∧ b < a + 1 + n
      · rw [if_pos r, if_pos (by omega), Nat.div_div_eq_div_mul,
          show b - a = b - (a + 1) + 1 by omega, Nat.pow_succ, Nat.mul_comm]
      · rw [if_neg r, if_neg e, if_neg (by omega)]

theorem get_store_load (h : P m) (hd : ∀ i < n, D (a + i)) (hb : D b) :
    S.get (S.store m a (S.load m a n) n) b = S.get m b := by
  rw [R.get_store h hd hb]
  split
  · rename_i inside
    rw [ofNat_load (show b - a < n by omega), show a + (b - a) = b by omega]
  · rfl

theorem get_store_of_not_mem (h : P m) (hd : ∀ i < n, D (a + i)) (hb : D b)
    (out : b < a ∨ a + n ≤ b) : S.get (S.store m a v n) b = S.get m b := by
  rw [R.get_store h hd hb, if_neg (by omega)]

theorem load_store_same (h : P m) (hd : ∀ i < n, D (a + i)) :
    S.load (S.store m a v n) a n = v % 256 ^ n := by
  induction n generalizing m a v with
  | zero => simp [load, Nat.mod_one]
  | succ n ih =>
    obtain ⟨ha, tail⟩ := span_succ hd
    rw [load, store, ih (R.keep _ h ha) tail,
      R.get_store_of_not_mem (R.keep _ h ha) tail ha (by omega), R.get_set _ h ha ha, if_pos rfl,
      Nat.pow_succ, Nat.mul_comm (256 ^ n) 256, Nat.mod_mul, UInt8.toNat_ofNat']

theorem load_store_disjoint (h : P m) (hd : ∀ i < n, D (a + i)) (hb : ∀ i < k, D (b + i))
    (apart : a + n ≤ b ∨ b + k ≤ a) : S.load (S.store m a v n) b k = S.load m b k :=
  load_congr fun i hi => R.get_store_of_not_mem h hd (hb i hi) (by omega)

theorem get_fill {v : UInt8} (h : P m) (hd : ∀ i < n, D (a + i)) (hb : D b) :
    S.get (S.fill m a v n) b = if a ≤ b ∧ b < a + n then v else S.get m b := by
  induction n generalizing m a with
  | zero => simp [fill]
  | succ n ih =>
    obtain ⟨ha, tail⟩ := span_succ hd
    rw [fill, ih (R.keep _ h ha) tail, R.get_set _ h ha hb]
    by_cases e : b = a
    · subst e
      rw [if_neg (by omega), if_pos rfl, if_pos (by omega)]
    · by_cases r : a + 1 ≤ b ∧ b < a + 1 + n
      · rw [if_pos r, if_pos (by omega)]
      · rw [if_neg r, if_neg e, if_neg (by omega)]

theorem keep_fill {v : UInt8} (h : P m) (hd : ∀ i < n, D (a + i)) : P (S.fill m a v n) := by
  induction n generalizing m a with
  | zero => exact h
  | succ n ih =>
    obtain ⟨ha, tail⟩ := span_succ hd
    exact ih (R.keep _ h ha) tail

theorem keep_copy (h : P m) (hd : ∀ i < n, D (a + i)) : P (S.copy m a b n) := by
  induction n generalizing m a b with
  | zero => exact h
  | succ n ih =>
    obtain ⟨ha, tail⟩ := span_succ hd
    exact ih (R.keep _ h ha) tail

theorem get_copy_of_not_mem {x : Nat} (h : P m) (hd : ∀ i < n, D (a + i)) (hx : D x) (out : x < a ∨ a + n ≤ x) :
    S.get (S.copy m a b n) x = S.get m x := by
  induction n generalizing m a b with
  | zero => rfl
  | succ n ih =>
    obtain ⟨ha, tail⟩ := span_succ hd
    rw [copy, ih (R.keep _ h ha) tail (by omega), R.get_set _ h ha hx, if_neg (by omega)]

theorem get_copy {x : Nat} (h : P m) (hd : ∀ i < n, D (a + i)) (hs : ∀ i < n, D (b + i))
    (hx : D x) (apart : a + n ≤ b ∨ b + n ≤ a) :
    S.get (S.copy m a b n) x = if a ≤ x ∧ x < a + n then S.get m (b + (x - a)) else S.get m x := by
  induction n generalizing m a b with
  | zero => simp [copy]
  | succ n ih =>
    obtain ⟨ha, tail⟩ := span_succ hd
    rw [copy, ih (R.keep _ h ha) tail (span_succ hs).2 (by omega)]
    by_cases r : a + 1 ≤ x ∧ x < a + 1 + n
    · have hsrc : D (b + 1 + (x - (a + 1))) := by
        rw [show b + 1 + (x - (a + 1)) = b + (x - a) by omega]; exact hs _ (by omega)
      rw [if_pos r, if_pos (by omega), R.get_set _ h ha hsrc, if_neg (by omega)]
      congr 1
      omega
    · rw [if_neg r, R.get_set _ h ha hx]
      by_cases e : x = a
      · subst e
        rw [if_pos rfl, if_pos (by omega), Nat.sub_self, Nat.add_zero]
      · rw [if_neg e, if_neg (by omega)]

end Region

theorem fill_zero (m : σ) (a : Nat) (v : UInt8) : S.fill m a v 0 = m := rfl

theorem fill_succ (m : σ) (a : Nat) (v : UInt8) (n : Nat) : S.fill m a v (n + 1) = S.fill (S.set m a v) (a + 1) v n := rfl

theorem copy_zero (m : σ) (a b : Nat) : S.copy m a b 0 = m := rfl

theorem copy_succ (m : σ) (a b n : Nat) :
    S.copy m a b (n + 1) = S.copy (S.set m a (S.get m b)) (a + 1) (b + 1) n := rfl

-- The loops are used through the lemmas above; unfolding them at a literal width is costly.
attribute [irreducible] load store fill copy

abbrev Bytes := Nat → UInt8

def flat : ByteSpace Bytes where
  mapped _ _ := true
  get m a := m a
  set m a v := fun x => if x = a then v else m x

theorem flat_region : flat.Region (fun _ => True) (fun _ => True) where
  mapped _ _ := rfl
  keep _ _ _ := trivial
  get_set _ _ _ _ := rfl

end ByteSpace

end Voyager.Lib
