import Voyager.Lib.Outcome

/-!
# Steps that halt in a state

`EStateM` keeps the state in which a computation stops, and `outcome` leaves it out again.
-/

namespace Voyager.Lib

variable {ε α β σ : Type}

/-- What `x` does from `s`, without the state of a halt. -/
def outcome (x : EStateM ε σ α) (s : σ) : Except ε (α × σ) :=
  match x.run s with
  | .ok a t => .ok (a, t)
  | .error e _ => .error e

/-- `x` halts with `e` and has changed nothing by then. -/
def HaltsIn (x : EStateM ε σ α) (e : ε) (s : σ) : Prop := x.run s = .error e s

@[simp] theorem outcome_pure (a : α) (s : σ) : outcome (pure a : EStateM ε σ α) s = pure (a, s) := rfl

@[simp] theorem outcome_throw (e : ε) (s : σ) : outcome (throw e : EStateM ε σ α) s = .error e := rfl

@[simp] theorem outcome_get (s : σ) : outcome (get : EStateM ε σ σ) s = pure (s, s) := rfl

@[simp] theorem outcome_set (s t : σ) : outcome (set t : EStateM ε σ PUnit) s = pure (⟨⟩, t) := rfl

@[simp] theorem outcome_modify (f : σ → σ) (s : σ) : outcome (modify f : EStateM ε σ PUnit) s = pure (⟨⟩, f s) := rfl

@[simp] theorem outcome_bind (x : EStateM ε σ α) (f : α → EStateM ε σ β) (s : σ) :
    outcome (x >>= f) s = outcome x s >>= fun r => outcome (f r.1) r.2 := by
  change outcome (EStateM.bind x f) s = _
  unfold outcome EStateM.run EStateM.bind
  cases x s <;> rfl

@[simp] theorem outcome_map (f : α → β) (x : EStateM ε σ α) (s : σ) :
    outcome (f <$> x) s = (fun r => (f r.1, r.2)) <$> outcome x s := by
  rw [map_eq_pure_bind, outcome_bind, map_eq_pure_bind]
  rfl

@[simp] theorem outcome_ite (c : Prop) [Decidable c] (x y : EStateM ε σ α) (s : σ) :
    outcome (if c then x else y) s = if c then outcome x s else outcome y s := by
  split <;> rfl

theorem map_ite (f : α → β) (c : Prop) [Decidable c] (x y : Except ε α) :
    (f <$> if c then x else y) = if c then f <$> x else f <$> y :=
  apply_ite _ _ _ _

/-- `x` returns `a` and changes nothing. -/
def Reads (x : EStateM ε σ α) (s : σ) (a : α) : Prop := x.run s = .ok a s

theorem reads_get (s : σ) : Reads (get : EStateM ε σ σ) s s := rfl

theorem Reads.run_bind {x : EStateM ε σ α} {f : α → EStateM ε σ β} {s : σ} {a : α} (h : Reads x s a) :
    (x >>= f).run s = (f a).run s := by
  change EStateM.bind x f s = _
  unfold EStateM.bind
  rw [show x s = .ok a s from h]
  rfl

end Voyager.Lib
