import Mathlib.Logic.Relation

/-! # Fallible steps and runs -/

namespace Voyager.Lib

variable {ε α β σ : Type}

theorem bind_ok {x : Except ε α} {f : α → Except ε β} {r : β} (h : (x >>= f) = .ok r) :
    ∃ a, x = .ok a ∧ f a = .ok r := by
  cases x with
  | error e => cases h
  | ok a => exact ⟨a, rfl, h⟩

theorem bind_eq {x : Except ε α} {f : α → Except ε β} {a : α} (h : x = .ok a) : (x >>= f) = f a := by
  rw [h]; rfl

theorem bind_congr_ok {x : Except ε α} {f g : α → Except ε β} (h : ∀ a, x = .ok a → f a = g a) :
    (x >>= f) = x >>= g := by
  cases x with
  | error e => rfl
  | ok a => exact h a rfl

@[simp] theorem ok_bind (a : α) (f : α → Except ε β) : (Except.ok a >>= f) = f a := rfl

/-- Whatever stops `x` satisfies `P`. -/
def Raises (P : ε → Prop) (x : Except ε α) : Prop := ∀ e, x = .error e → P e

namespace Raises

variable {P : ε → Prop} {x y : Except ε α} {f : α → Except ε β}

theorem ok (a : α) : Raises P (.ok a : Except ε α) := fun _ h => by cases h

theorem error {e : ε} (h : P e) : Raises P (.error e : Except ε α) := fun _ same => by
  cases same
  exact h

theorem bind (first : Raises P x) (rest : ∀ a, Raises P (f a)) : Raises P (x >>= f) := by
  intro e h
  cases x with
  | error e' =>
    cases h
    exact first _ rfl
  | ok a => exact rest a e h

theorem ite {c : Prop} [Decidable c] (yes : Raises P x) (no : Raises P y) : Raises P (if c then x else y) := by
  split <;> assumption

end Raises

/-- The states of the runs that begin in `start` and proceed by `step`. -/
inductive Reachable (start : σ → Prop) (step : σ → σ → Prop) : σ → Prop where
  | start {s : σ} : start s → Reachable start step s
  | step {s t : σ} : Reachable start step s → step s t → Reachable start step t

theorem Reachable.invariant {start : σ → Prop} {step : σ → σ → Prop} {Inv : σ → Prop}
    (initial : ∀ s, start s → Inv s) (kept : ∀ s t, Inv s → step s t → Inv t)
    {s : σ} (h : Reachable start step s) : Inv s := by
  induction h with
  | start hs => exact initial _ hs
  | step _ hst ih => exact kept _ _ ih hst

theorem Reachable.mono {start start' : σ → Prop} {step : σ → σ → Prop} (sub : ∀ s, start s → start' s) {s : σ}
    (h : Reachable start step s) : Reachable start' step s :=
  h.invariant (fun _ hs => .start (sub _ hs)) fun _ _ hs hst => .step hs hst

end Voyager.Lib
