import Voyager.Heap.Layout

/-!
# Running the allocator on words

Inside the backed part of the window every access succeeds: a sequence of writes is the list
of what was written (`pokes`), and a read looks the address up in it (`overwrite`).
-/

namespace Voyager.Heap

open Lib

variable {σ : Type} (B : Backing σ)

def word (s : State σ) (a : Nat) : Nat := B.load s.mem a 8

def byte (s : State σ) (a : Nat) : UInt8 := B.get s.mem a

def pokes (s : State σ) (ws : List (Nat × Nat)) : State σ :=
  { s with mem := ws.foldl (fun m p => B.store m p.1 p.2 8) s.mem }

def overwrite (w : Nat → Nat) : List (Nat × Nat) → Nat → Nat
  | [] => w
  | p :: ws => overwrite (Function.update w p.1 p.2) ws

/-- The window is backed up to `g_heap_curr`, a page boundary inside it. -/
structure Ready (s : State σ) : Prop where
  backed : B.backed s.mem s.heapCurr
  low : heapBase ≤ s.heapCurr
  high : s.heapCurr ≤ heapLimit
  paged : s.heapCurr % pageSize = 0

def Inside (curr a : Nat) : Prop := heapBase ≤ a ∧ a + 8 ≤ curr ∧ a % 8 = 0

def Writable (curr : Nat) (ws : List (Nat × Nat)) : Prop :=
  ∀ p ∈ ws, Inside curr p.1 ∧ p.2 < 2 ^ 64

def Misses (ws : List (Nat × Nat)) (x : Nat) : Prop := ∀ p ∈ ws, x < p.1 ∨ p.1 + 8 ≤ x

variable {B} {s : State σ} {ws vs : List (Nat × Nat)} {a v x curr head : Nat} {w w' : Nat → Nat}

@[simp] theorem pokes_heapCurr : (pokes B s ws).heapCurr = s.heapCurr := rfl

@[simp] theorem pokes_freeList : (pokes B s ws).freeList = s.freeList := rfl

@[simp] theorem pokes_nil : pokes B s [] = s := rfl

theorem pokes_withHead (h : Nat) :
    pokes B { s with freeList := h } ws = { pokes B s ws with freeList := h } := rfl

theorem pokes_append : pokes B (pokes B s ws) vs = pokes B s (ws ++ vs) := by
  simp [pokes, List.foldl_append]

@[simp] theorem overwrite_nil : overwrite w [] = w := rfl

@[simp] theorem overwrite_cons : overwrite w ((a, v) :: ws) = overwrite (Function.update w a v) ws := rfl

theorem overwrite_append : overwrite w (ws ++ vs) = overwrite (overwrite w ws) vs := by
  induction ws generalizing w with
  | nil => rfl
  | cons p ws ih => exact ih

theorem overwrite_of_not_mem (h : ∀ p ∈ ws, p.1 ≠ x) : overwrite w ws x = w x := by
  induction ws generalizing w with
  | nil => rfl
  | cons p ws ih =>
    rw [overwrite, ih fun q hq => h q (List.mem_cons_of_mem _ hq),
      Function.update_of_ne (Ne.symm (h p List.mem_cons_self))]

theorem word_lt (s : State σ) (a : Nat) : word B s a < 2 ^ 64 := by
  have := B.toByteSpace.load_lt s.mem a 8
  rwa [show (256 : Nat) ^ 8 = 2 ^ 64 by decide] at this

theorem writable_cons : Writable curr ((a, v) :: ws) ↔ (Inside curr a ∧ v < 2 ^ 64) ∧ Writable curr ws := by
  simp [Writable]

theorem writable_nil : Writable curr [] := by simp [Writable]

theorem writable_append : Writable curr (ws ++ vs) ↔ Writable curr ws ∧ Writable curr vs :=
  List.forall_mem_append

theorem misses_append : Misses (ws ++ vs) x ↔ Misses ws x ∧ Misses vs x :=
  List.forall_mem_append

theorem misses_nil : Misses [] x := by simp [Misses]

theorem misses_cons : Misses ((a, v) :: ws) x ↔ (x < a ∨ a + 8 ≤ x) ∧ Misses ws x := by
  simp [Misses]

/-! ### Access to single words

Here on any region of the backing, which need not be the window. -/

section Access

variable {P : σ → Prop} {D : Nat → Prop} {m : σ} {n : Nat}

def setMem (s : State σ) (m : σ) : State σ := { s with mem := m }

theorem bytes_mapped (R : B.Region P D) (state : P m) (inside : ∀ i < n + 1, D (a + i)) :
    (B.mapped m a && B.mapped m (a + n)) = true := by
  rw [Bool.and_eq_true]
  exact ⟨R.mapped state (inside 0 (by omega)), R.mapped state (inside n (by omega))⟩

theorem writeWord_run (R : B.Region P D) (state : P m) (inside : ∀ i < 8, D (a + i)) :
    writeWord B (setMem s m) a v = .ok (setMem s (B.store m a v 8)) :=
  if_pos (bytes_mapped R state inside)

theorem readWord_run (R : B.Region P D) (state : P m) (inside : ∀ i < 8, D (a + i)) :
    readWord B (setMem s m) a = .ok (B.load m a 8) :=
  if_pos (bytes_mapped R state inside)

end Access

namespace Ready

variable (r : Ready B s)

include r

theorem withHead (h : Nat) : Ready B { s with freeList := h } := ⟨r.backed, r.low, r.high, r.paged⟩

theorem region : B.toByteSpace.Region (fun m => B.backed m s.heapCurr)
    (fun a => heapBase ≤ a ∧ a < s.heapCurr) := B.region _ r.high

theorem poke (h : Inside s.heapCurr a) : Ready B (pokes B s [(a, v)]) where
  backed := r.region.keep_store r.backed fun i hi => by obtain ⟨low, high, _⟩ := h; omega
  low := r.low
  high := r.high
  paged := r.paged

theorem pokes (h : Writable s.heapCurr ws) : Ready B (pokes B s ws) := by
  induction ws generalizing s with
  | nil => exact r
  | cons p ws ih =>
    rw [show p :: ws = [p] ++ ws from rfl, ← pokes_append]
    exact ih (r.poke (h p List.mem_cons_self).1) fun q hq => h q (List.mem_cons_of_mem _ hq)

theorem word_poke (h : Inside s.heapCurr a) (hv : v < 2 ^ 64) (hx : Inside s.heapCurr x) :
    word B (Heap.pokes B s [(a, v)]) x = Function.update (word B s) a v x := by
  obtain ⟨low, high, al⟩ := h
  obtain ⟨xlow, xhigh, xal⟩ := hx
  have domain : ∀ i < 8, heapBase ≤ a + i ∧ a + i < s.heapCurr := fun i hi => by omega
  by_cases e : x = a
  · subst e
    rw [Function.update_self, word]
    change B.load (B.store s.mem x v 8) x 8 = v
    rw [r.region.load_store_same r.backed domain, show (256 : Nat) ^ 8 = 2 ^ 64 by decide,
      Nat.mod_eq_of_lt hv]
  · rw [Function.update_of_ne e]
    exact r.region.load_store_disjoint r.backed domain (fun i hi => by omega) (by omega)

theorem word_pokes (h : Writable s.heapCurr ws) (hx : Inside s.heapCurr x) :
    word B (Heap.pokes B s ws) x = overwrite (word B s) ws x := by
  induction ws generalizing s with
  | nil => rfl
  | cons p ws ih =>
    obtain ⟨hp, hv⟩ := h p List.mem_cons_self
    have rest : Writable s.heapCurr ws := fun q hq => h q (List.mem_cons_of_mem _ hq)
    rw [show p :: ws = [p] ++ ws from rfl, ← pokes_append, ih (r.poke hp) rest hx]
    -- Both sides are the remaining writes over the memory after the first one.
    have same : ∀ (l : List (Nat × Nat)) (f g : Nat → Nat), Writable s.heapCurr l →
        (∀ y, Inside s.heapCurr y → f y = g y) → overwrite f l x = overwrite g l x := by
      intro l
      induction l with
      | nil => intro f g _ e; exact e x hx
      | cons q l ihl =>
        intro f g wr e
        refine ihl _ _ (fun z hz => wr z (List.mem_cons_of_mem _ hz)) fun y hy => ?_
        simp only [Function.update_apply]
        split
        · rfl
        · exact e y hy
    exact same ws _ _ rest fun y hy => r.word_poke hp hv hy

theorem byte_pokes (h : Writable s.heapCurr ws) (low : heapBase ≤ x) (high : x < s.heapCurr)
    (out : Misses ws x) : byte B (Heap.pokes B s ws) x = byte B s x := by
  induction ws generalizing s with
  | nil => rfl
  | cons p ws ih =>
    obtain ⟨hp, hv⟩ := h p List.mem_cons_self
    rw [show p :: ws = [p] ++ ws from rfl, ← pokes_append,
      ih (r.poke hp) (fun q hq => h q (List.mem_cons_of_mem _ hq)) high
        fun q hq => out q (List.mem_cons_of_mem _ hq)]
    have miss := out p List.mem_cons_self
    obtain ⟨plow, phigh, _⟩ := hp
    exact r.region.get_store_of_not_mem r.backed (fun i hi => by omega) ⟨low, high⟩ miss

theorem mapped_word (h : Inside s.heapCurr a) :
    (B.mapped s.mem a && B.mapped s.mem (a + 7)) = true := by
  obtain ⟨low, high, _⟩ := h
  have first := r.region.mapped r.backed ⟨low, (by omega : a < s.heapCurr)⟩
  have last := r.region.mapped r.backed ⟨(by omega : heapBase ≤ a + 7), (by omega : a + 7 < s.heapCurr)⟩
  rw [first, last]
  rfl

theorem read (h : Inside s.heapCurr a) : readWord B s a = .ok (word B s a) := by
  unfold readWord
  rw [if_pos (r.mapped_word h)]
  rfl

theorem write (h : Inside s.heapCurr a) : writeWord B s a v = .ok (Heap.pokes B s [(a, v)]) := by
  unfold writeWord
  rw [if_pos (r.mapped_word h)]
  rfl

theorem read_pokes (h : Writable s.heapCurr ws) (hx : Inside s.heapCurr a) :
    readWord B (Heap.pokes B s ws) a = .ok (overwrite (word B s) ws a) := by
  rw [(r.pokes h).read hx, r.word_pokes h hx]

theorem write_pokes (h : Writable s.heapCurr ws) (hx : Inside s.heapCurr a) :
    writeWord B (Heap.pokes B s ws) a v = .ok (Heap.pokes B s (ws ++ [(a, v)])) := by
  rw [(r.pokes h).write hx, pokes_append]

end Ready

structure Shaped (B : Backing σ) (s : State σ) (blocks : List Block) (free : List Nat) : Prop where
  ready : Ready B s
  layout : Layout (word B s) s.heapCurr s.freeList blocks free

theorem Shaped.of_pokes {blocks : List Block} {free : List Nat} (r : Ready B s)
    (writable : Writable s.heapCurr ws) (L : Layout (overwrite (word B s) ws) s.heapCurr head blocks free) :
    Shaped B { pokes B s ws with freeList := head } blocks free where
  ready := ⟨(r.pokes writable).backed, r.low, r.high, r.paged⟩
  layout := L.congr fun _ al low high => r.word_pokes writable ⟨low, high, al⟩

end Voyager.Heap
