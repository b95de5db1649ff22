import Mathlib.Data.List.Basic

/-!
# Code that works on a device

Code is the tree of the calls it makes, and a `Device` runs it. When one device `Simulates`
another, what the code achieves on the lower holds on the upper as well.
-/

namespace Voyager.Lib

inductive Calls (ρ π α : Type) where
  | done (a : α)
  | fault -- The code leaves an array of its own.
  | call (r : ρ) (next : Calls ρ π α)
  | ask (next : π → Calls ρ π α)

structure Device (ρ π σ : Type) where
  handle : ρ → σ → Option σ
  answer : σ → π

namespace Calls

variable {ρ π α β σ τ : Type}

def bind : Calls ρ π α → (α → Calls ρ π β) → Calls ρ π β
  | done a, f => f a
  | fault, _ => fault
  | call r next, f => call r (next.bind f)
  | ask next, f => ask fun p => (next p).bind f

instance : Monad (Calls ρ π) where
  pure := done
  bind := bind

def run (D : Device ρ π σ) : Calls ρ π α → σ → Option (α × σ)
  | done a, s => some (a, s)
  | fault, _ => none
  | call r next, s => (D.handle r s).bind (next.run D)
  | ask next, s => (next (D.answer s)).run D s

/-- The code can return `a`, whatever the device answers. -/
def Returns : Calls ρ π α → α → Prop
  | done a, b => b = a
  | fault, _ => False
  | call _ next, b => next.Returns b
  | ask next, b => ∃ p, (next p).Returns b

/-- On every device the code returns `a` and leaves the device as it is. -/
def Silent (m : Calls ρ π α) (a : α) : Prop := ∀ {σ : Type} (D : Device ρ π σ) (s : σ), m.run D s = some (a, s)

/-- From `s` the code runs to its end, with `Q`. -/
def Ensures (D : Device ρ π σ) (Q : α → σ → Prop) (m : Calls ρ π α) (s : σ) : Prop :=
  ∃ a s', m.run D s = some (a, s') ∧ Q a s'

section Bind

variable (m : Calls ρ π α) (f : α → Calls ρ π β)

@[simp] theorem pure_eq (a : α) : (pure a : Calls ρ π α) = done a := rfl

@[simp] theorem done_bind (a : α) : (done a >>= f) = f a := rfl

@[simp] theorem fault_bind : (fault >>= f) = fault := rfl

@[simp] theorem call_bind (r : ρ) : (call r m >>= f) = call r (m >>= f) := rfl

@[simp] theorem ask_bind (next : π → Calls ρ π α) : (ask next >>= f) = ask fun p => next p >>= f := rfl

instance : LawfulMonad (Calls ρ π) := by
  refine LawfulMonad.mk' _ (fun m => ?_) (fun _ _ => rfl) (fun m f g => ?_)
  · induction m with
    | done a => rfl
    | fault => rfl
    | call r next ih => exact congrArg (call r) ih
    | ask next ih => exact congrArg ask (funext ih)
  · induction m with
    | done a => rfl
    | fault => rfl
    | call r next ih => exact congrArg (call r) ih
    | ask next ih => exact congrArg ask (funext ih)

theorem run_bind (D : Device ρ π σ) (s : σ) :
    (m >>= f).run D s = (m.run D s).bind fun r => (f r.1).run D r.2 := by
  induction m generalizing s with
  | done a => rfl
  | fault => rfl
  | call r next ih =>
    simp only [call_bind, run, Option.bind_assoc]
    exact Option.bind_congr fun t _ => ih t
  | ask next ih => exact ih _ s

theorem returns_bind {b : β} : (m >>= f).Returns b ↔ ∃ a, m.Returns a ∧ (f a).Returns b := by
  induction m with
  | done a => exact ⟨fun h => ⟨a, rfl, h⟩, fun ⟨_, rfl, h⟩ => h⟩
  | fault => exact ⟨False.elim, fun ⟨_, h, _⟩ => h⟩
  | call r next ih => exact ih
  | ask next ih =>
    constructor
    · rintro ⟨p, h⟩
      obtain ⟨a, ha, hb⟩ := (ih p).mp h
      exact ⟨a, ⟨p, ha⟩, hb⟩
    · rintro ⟨a, ⟨p, ha⟩, hb⟩
      exact ⟨p, (ih p).mpr ⟨a, ha, hb⟩⟩

end Bind

section Returns

variable {m : Calls ρ π α} {a b : α}

@[simp] theorem returns_done : (done a : Calls ρ π α).Returns b ↔ b = a := Iff.rfl

theorem run_returns {D : Device ρ π σ} {s s' : σ} (h : m.run D s = some (a, s')) : m.Returns a := by
  induction m generalizing s with
  | done b => cases h; rfl
  | fault => cases h
  | call r next ih =>
    obtain ⟨t, -, h⟩ := Option.bind_eq_some_iff.mp h
    exact ih h
  | ask next ih => exact ⟨_, ih _ h⟩

end Returns

section Silent

variable {m : Calls ρ π α} {f : α → Calls ρ π β} {a : α} {b : β}

theorem Silent.run_bind (h : m.Silent a) (D : Device ρ π σ) (s : σ) : (m >>= f).run D s = (f a).run D s := by
  rw [Calls.run_bind, h D s, Option.bind_some]

theorem Silent.bind (h : m.Silent a) (h' : (f a).Silent b) : (m >>= f).Silent b :=
  fun D s => (h.run_bind D s).trans (h' D s)

end Silent

section Ensures

variable {D : Device ρ π σ} {Q Q' : α → σ → Prop} {m : Calls ρ π α} {s : σ}

@[simp] theorem ensures_done {a : α} : (done a).Ensures D Q s ↔ Q a s := by
  simp [Ensures, run]

theorem ensures_call {r : ρ} {s' : σ} (handled : D.handle r s = some s') :
    (call r m).Ensures D Q s ↔ m.Ensures D Q s' := by
  simp [Ensures, run, handled]

@[simp] theorem ensures_ask {next : π → Calls ρ π α} :
    (ask next).Ensures D Q s ↔ (next (D.answer s)).Ensures D Q s := Iff.rfl

theorem Ensures.mono (h : m.Ensures D Q s) (weaker : ∀ a s, m.Returns a → Q a s → Q' a s) : m.Ensures D Q' s := by
  obtain ⟨a, s', ran, ha⟩ := h
  exact ⟨a, s', ran, weaker a s' (run_returns ran) ha⟩

theorem Ensures.bind {f : α → Calls ρ π β} {R : β → σ → Prop} (h : m.Ensures D Q s)
    (rest : ∀ a s, m.Returns a → Q a s → (f a).Ensures D R s) : (m >>= f).Ensures D R s := by
  obtain ⟨a, s', ran, ha⟩ := h
  obtain ⟨b, s'', ran', hb⟩ := rest a s' (run_returns ran) ha
  exact ⟨b, s'', by rw [run_bind, ran, Option.bind_some, ran'], hb⟩

theorem ensures_forM {ι : Type} {I : σ → Prop} {body : ι → Calls ρ π PUnit} (xs : List ι)
    (round : ∀ i ∈ xs, ∀ s, I s → (body i).Ensures D (fun _ => I) s) (h : I s) :
    (forM xs body).Ensures D (fun _ => I) s := by
  induction xs generalizing s with
  | nil => exact ⟨_, s, rfl, h⟩
  | cons i xs ih =>
    rw [List.forM_cons]
    exact (round i List.mem_cons_self s h).bind fun _ t _ ht => ih (fun j hj => round j (List.mem_cons_of_mem _ hj)) ht

end Ensures

end Calls

namespace Device

variable {ρ π α σ τ υ : Type} {D : Device ρ π σ} {A : Device ρ π τ}

/-- What `A` can do, `D` does too, in states that `R` ties together. -/
structure Simulates (D : Device ρ π σ) (A : Device ρ π τ) (R : σ → τ → Prop) : Prop where
  answer : ∀ {s t}, R s t → D.answer s = A.answer t
  handle : ∀ {s t t' r}, R s t → A.handle r t = some t' → ∃ s', D.handle r s = some s' ∧ R s' t'

theorem Simulates.run {R : σ → τ → Prop} (sim : D.Simulates A R) {m : Calls ρ π α} {s : σ} {t t' : τ} {a : α}
    (h : R s t) (ran : m.run A t = some (a, t')) : ∃ s', m.run D s = some (a, s') ∧ R s' t' := by
  induction m generalizing s t with
  | done b =>
    cases ran
    exact ⟨s, rfl, h⟩
  | fault => cases ran
  | call r next ih =>
    obtain ⟨u, handled, rest⟩ := Option.bind_eq_some_iff.mp ran
    obtain ⟨v, handled', h'⟩ := sim.handle h handled
    obtain ⟨s', ran', h''⟩ := ih h' rest
    exact ⟨s', by simp only [Calls.run, handled', Option.bind_some, ran'], h''⟩
  | ask next ih =>
    simp only [Calls.run, sim.answer h] at ran ⊢
    exact ih _ h ran

end Device

end Voyager.Lib
