import Voyager.Lib.ByteSpace

/-! # Several stores at once -/

namespace Voyager.Lib.ByteSpace

variable {σ : Type} (S : ByteSpace σ)

structure Poke where
  addr : Nat
  value : Nat
  width : Nat

def stores (m : σ) (ws : List Poke) : σ := ws.foldl (fun m w => S.store m w.addr w.value w.width) m

theorem stores_cons (m : σ) (w : Poke) (ws : List Poke) :
    S.stores m (w :: ws) = S.stores (S.store m w.addr w.value w.width) ws := rfl

theorem stores_append (m : σ) (ws ws' : List Poke) : S.stores m (ws ++ ws') = S.stores (S.stores m ws) ws' :=
  List.foldl_append

def Poke.Misses (w : Poke) (a n : Nat) : Prop := w.addr + w.width ≤ a ∨ a + n ≤ w.addr

def Apart (ws : List Poke) : Prop := ws.Pairwise fun w u => u.Misses w.addr w.width

namespace Region

variable {S} {P : σ → Prop} {D E : Nat → Prop} {m : σ} {ws : List Poke} {w : Poke} {a n : Nat} (R : S.Region P D)

include R

theorem keep_stores (h : P m) (hd : ∀ w ∈ ws, ∀ i < w.width, D (w.addr + i)) : P (S.stores m ws) := by
  induction ws generalizing m with
  | nil => exact h
  | cons w ws ih =>
    have first := R.keep_store (v := w.value) h (hd w List.mem_cons_self)
    exact ih first fun u hu => hd u (List.mem_cons_of_mem _ hu)

theorem get_stores_misses (h : P m) (hd : ∀ w ∈ ws, ∀ i < w.width, D (w.addr + i)) (ha : D a)
    (misses : ∀ w ∈ ws, w.Misses a 1) : S.get (S.stores m ws) a = S.get m a := by
  induction ws generalizing m with
  | nil => rfl
  | cons w ws ih =>
    have here := hd w List.mem_cons_self
    have rest := ih (R.keep_store (v := w.value) h here) (fun u hu => hd u (List.mem_cons_of_mem _ hu))
      fun u hu => misses u (List.mem_cons_of_mem _ hu)
    apply rest.trans
    apply R.get_store_of_not_mem h here ha
    have := misses w List.mem_cons_self
    unfold Poke.Misses at this
    omega

theorem load_stores_misses (h : P m) (hd : ∀ w ∈ ws, ∀ i < w.width, D (w.addr + i)) (ha : ∀ i < n, D (a + i))
    (misses : ∀ w ∈ ws, w.Misses a n) : S.load (S.stores m ws) a n = S.load m a n := by
  refine load_congr fun i lt => R.get_stores_misses h hd (ha i lt) fun w hw => ?_
  have := misses w hw
  unfold Poke.Misses at *
  omega

theorem load_stores (h : P m) (hd : ∀ w ∈ ws, ∀ i < w.width, D (w.addr + i))
    (apart : Apart ws) (hw : w ∈ ws) :
    S.load (S.stores m ws) w.addr w.width = w.value % 256 ^ w.width := by
  induction ws generalizing m with
  | nil => cases hw
  | cons u ws ih =>
    obtain ⟨later, apart⟩ := List.pairwise_cons.mp apart
    have here := hd u List.mem_cons_self
    have others : ∀ w ∈ ws, ∀ i < w.width, D (w.addr + i) := fun w hw => hd w (List.mem_cons_of_mem _ hw)
    rcases List.mem_cons.mp hw with rfl | hw
    · exact (R.load_stores_misses (R.keep_store h here) others here later).trans (R.load_store_same h here)
    · exact ih (R.keep_store h here) others apart hw

theorem within (sub : ∀ a, E a → D a) (m : σ) :
    S.Region (fun m' => P m' ∧ ∀ a, D a → ¬ E a → S.get m' a = S.get m a) E where
  mapped h ha := R.mapped h.1 (sub _ ha)
  keep v h ha := by
    refine ⟨R.keep v h.1 (sub _ ha), fun b hb out => ?_⟩
    rw [R.get_set v h.1 (sub _ ha) hb, if_neg]
    · exact h.2 b hb out
    · rintro rfl
      exact out ha
  get_set v h ha hb := R.get_set v h.1 (sub _ ha) (sub _ hb)

end Region

end Voyager.Lib.ByteSpace
