import Mathlib.Data.List.Basic
import Mathlib.Logic.Function.Basic

/-! # Loops over cells -/

namespace Voyager.Lib

variable {α β σ τ : Type} {xs : List α}

/-- For each element its cell gets the value, if there is one. -/
def writes (f : Nat → β) (key : α → Nat) (val : α → Option β) (xs : List α) : Nat → β :=
  xs.foldl (fun f a => Function.update f (key a) ((val a).getD (f (key a)))) f

section Writes

variable {f : Nat → β} {key : α → Nat} {val : α → Option β} {w : Nat → Option β} {j : Nat}

theorem writes_cons (a : α) :
    writes f key val (a :: xs) = writes (Function.update f (key a) ((val a).getD (f (key a)))) key val xs := rfl

theorem writes_of_ne (h : ∀ a ∈ xs, key a ≠ j) : writes f key val xs j = f j := by
  induction xs generalizing f with
  | nil => rfl
  | cons a xs ih =>
    rw [writes_cons, ih fun b hb => h b (List.mem_cons_of_mem _ hb),
      Function.update_of_ne (h a List.mem_cons_self).symm]

theorem writes_key (agree : ∀ a ∈ xs, ∀ b ∈ xs, key a = key b → val a = val b) {a : α} (mem : a ∈ xs) :
    writes f key val xs (key a) = (val a).getD (f (key a)) := by
  induction xs generalizing f a with
  | nil => cases mem
  | cons b xs ih =>
    have rest : ∀ a ∈ xs, ∀ b ∈ xs, key a = key b → val a = val b := fun a ha b hb =>
      agree a (List.mem_cons_of_mem _ ha) b (List.mem_cons_of_mem _ hb)
    rw [writes_cons]
    by_cases later : ∃ c ∈ xs, key c = key a
    · obtain ⟨c, hc, same⟩ := later
      rw [← same, ih rest hc, agree a mem c (List.mem_cons_of_mem _ hc) same.symm]
      by_cases here : key c = key b
      · rw [here, Function.update_self, agree c (List.mem_cons_of_mem _ hc) b List.mem_cons_self here]
        cases val b <;> rfl
      · rw [Function.update_of_ne here]
    · have here : a = b := (List.mem_cons.mp mem).resolve_right fun ha => later ⟨a, ha, rfl⟩
      rw [writes_of_ne fun c hc same => later ⟨c, hc, same⟩, here, Function.update_self]

theorem writes_eq {p : Nat → Prop} [DecidablePred p] (same : ∀ a ∈ xs, val a = w (key a))
    (mem : ∀ j, (∃ a ∈ xs, key a = j) ↔ p j) :
    writes f key val xs = fun j => if p j then (w j).getD (f j) else f j := by
  funext j
  split
  · rename_i hit
    obtain ⟨a, ha, rfl⟩ := (mem j).mpr hit
    rw [writes_key (fun a ha b hb eq => by rw [same a ha, same b hb, eq]) ha, same a ha]
  · rename_i miss
    exact writes_of_ne fun a ha eq => miss ((mem j).mp ⟨a, ha, eq⟩)

end Writes

theorem foldl_moves {f : Nat → β} {src dst : α → Nat} (ordered : xs.Pairwise fun a b => dst a ≠ src b) :
    xs.foldl (fun f a => Function.update f (dst a) (f (src a))) f = writes f dst (fun a => some (f (src a))) xs := by
  induction xs generalizing f with
  | nil => rfl
  | cons a xs ih =>
    obtain ⟨first, rest⟩ := List.pairwise_cons.mp ordered
    rw [List.foldl_cons, ih rest, writes_cons]
    refine List.foldl_ext _ _ _ fun g b hb => ?_
    exact congrArg (Function.update g (dst b)) (Function.update_of_ne (first b hb).symm _ _)

theorem foldlM_follows {step : σ → α → Option σ} {next : τ → α → τ} {R : σ → τ → Prop}
    (round : ∀ a ∈ xs, ∀ s t, R s t → ∃ s', step s a = some s' ∧ R s' (next t a)) {s : σ} {t : τ} (h : R s t) :
    ∃ s', xs.foldlM step s = some s' ∧ R s' (xs.foldl next t) := by
  induction xs generalizing s t with
  | nil => exact ⟨s, rfl, h⟩
  | cons a xs ih =>
    obtain ⟨s', stepped, h'⟩ := round a List.mem_cons_self s t h
    obtain ⟨s'', ran, h''⟩ := ih (fun b hb => round b (List.mem_cons_of_mem _ hb)) h'
    exact ⟨s'', by rw [List.foldlM_cons, stepped]; exact ran, h''⟩

theorem foldlM_same {step : σ → α → Option σ} {s : σ} (round : ∀ a ∈ xs, step s a = some s) :
    xs.foldlM step s = some s := by
  induction xs with
  | nil => rfl
  | cons a xs ih =>
    rw [List.foldlM_cons, round a List.mem_cons_self]
    exact ih fun b hb => round b (List.mem_cons_of_mem _ hb)

theorem foldlM_range {n : Nat} {step : σ → Nat → Option σ} {I : Nat → σ → Prop}
    (round : ∀ k < n, ∀ s, I k s → ∃ s', step s k = some s' ∧ I (k + 1) s') {s : σ} (h : I 0 s) :
    ∃ s', (List.range n).foldlM step s = some s' ∧ I n s' := by
  induction n with
  | zero => exact ⟨s, rfl, h⟩
  | succ n ih =>
    obtain ⟨s', ran, h'⟩ := ih fun k hk => round k (Nat.lt_succ_of_lt hk)
    obtain ⟨s'', stepped, h''⟩ := round n (Nat.lt_succ_self n) s' h'
    refine ⟨s'', ?_, h''⟩
    rw [List.range_succ, List.foldlM_append, ran, Option.bind_eq_bind, Option.bind_some, List.foldlM_cons, stepped]
    rfl

end Voyager.Lib
