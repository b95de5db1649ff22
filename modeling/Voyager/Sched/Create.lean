import Voyager.Sched.Process

/-! # Creating a process -/

namespace Voyager.Sched

open Lib Lib.X86 Heap ByteSpace

variable {σ : Type} {B : Backing σ} {P : σ → Prop} {D : Nat → Prop} {s : Heap.State σ} {m : σ}
  {a v n p stack : Nat}

theorem writeInt_run (R : B.Region P D) (state : P m) (inside : ∀ i < 4, D (a + i)) :
    writeInt B (setMem s m) a v = .ok (setMem s (B.store m a v 4)) :=
  if_pos (bytes_mapped R state inside)

theorem memset_run {v : UInt8} (R : B.Region P D) (state : P m) (inside : ∀ i < n, D (a + i)) :
    ∃ m', memset B.toByteSpace m a v n = .ok m' ∧ P m' ∧ ∀ b,
      D b → b < a ∨ a + n ≤ b → B.get m' b = B.get m b := by
  refine ⟨_, memset_ok R state inside v, R.keep_fill state inside, fun b hb out => ?_⟩
  rw [R.get_fill state inside hb, if_neg (by omega)]

def pushed (sp : Nat) (vs : List Nat) : List Poke := vs.mapIdx fun i v => ⟨sp - 8 * (i + 1), v, 8⟩

theorem pushed_cons (sp v : Nat) (vs : List Nat) : pushed sp (v :: vs) = ⟨sp - 8, v, 8⟩ :: pushed (sp - 8) vs := by
  rw [pushed, List.mapIdx_cons]
  congr 2
  funext i v
  congr 1
  omega

theorem pushWords_run {vs : List Nat} (sp : Nat) (R : B.Region P D) (state : P m) (length : vs.length = n)
    (low : 8 * n ≤ sp)
    (high : sp < 2 ^ 64) (inside : ∀ b, sp - 8 * n ≤ b → b < sp → D b) :
    pushWords B (setMem s m) sp vs = .ok (sp - 8 * n, setMem s (B.stores m (pushed sp vs))) := by
  induction vs generalizing m n sp with
  | nil =>
    subst length
    rfl
  | cons v vs ih =>
    subst length
    rw [List.length_cons] at low inside ⊢
    have here : ∀ i < 8, D (sp - 8 + i) := fun i hi => inside _ (by omega) (by omega)
    have rest := ih (sp - 8) (R.keep_store (v := v) state here) rfl (by omega) (by omega)
      fun b blow bhigh => inside b (by omega) (by omega)
    rw [pushWords, sub64_of_le (by omega) high, bind_eq (writeWord_run R state here), rest, pushed_cons,
      stores_cons,
      show sp - 8 - 8 * vs.length = sp - 8 * (vs.length + 1) by omega]

theorem allocProcess_spec {live : List (Nat × Nat)} {h : Heap.State σ} (sound : Client.Sound B ⟨s, live⟩)
    (run : allocProcess B s = .ok (p, stack, h)) :
    Client.Sound B ⟨h, (stack, stackSize) :: (p, procSize) :: live⟩ ∧ p ∉ live.map Prod.fst ∧
      stack ∉ live.map Prod.fst ∧
      ∀ a, InPayload live a → B.get h.mem a = B.get s.mem a := by
  obtain ⟨⟨p', s₁⟩, first, run⟩ := bind_ok run
  obtain ⟨pos, fresh, sound₁, kept₁⟩ := sound.malloc (by decide) (by decide) first
  simp only at run kept₁
  rw [if_neg pos] at run
  have inside : ∀ i < procSize, InPayload ((p', procSize) :: live) (p' + i) := fun i hi =>
    ⟨_, List.mem_cons_self, by simp, by simpa using hi⟩
  obtain ⟨m₂, cleared, sound₂, kept₂⟩ := memset_run (m := s₁.mem) (v := 0) sound₁.region sound₁ inside
  rw [bind_eq cleared] at run
  obtain ⟨⟨stack', s₃⟩, second, run⟩ := bind_ok run
  obtain ⟨pos', fresh', sound₃, kept₃⟩ := sound₂.malloc (by decide) (by decide) second
  simp only at run kept₃
  rw [if_neg pos'] at run
  have inside' : ∀ i < stackSize, InPayload ((stack', stackSize) :: (p', procSize) :: live) (stack' + i) := fun i hi =>
    ⟨_, List.mem_cons_self, by simp, by simpa using hi⟩
  obtain ⟨m₄, cleared', sound₄, kept₄⟩ := memset_run (m := s₃.mem) (v := 0) sound₃.region sound₃ inside'
  rw [bind_eq cleared'] at run
  cases run
  simp only [Client.withMem, List.map_cons, List.mem_cons, not_or] at fresh'
  refine ⟨sound₄, fresh, fresh'.2, ?_⟩
  rintro a ⟨x, hx, low, high⟩
  have old : x ∈ (p, procSize) :: live := List.mem_cons_of_mem _ hx
  have older : x ∈ (stack, stackSize) :: (p, procSize) :: live := List.mem_cons_of_mem _ old
  have apart₂ := sound₁.apart old List.mem_cons_self fun e => fresh (List.mem_map.mpr ⟨x, hx, by rw [e]⟩)
  have apart₄ := sound₃.apart older List.mem_cons_self fun e => fresh'.2 (List.mem_map.mpr ⟨x, hx, by rw [e]⟩)
  simp only at apart₂ apart₄
  calc B.get m₄ a = B.get s₃.mem a := kept₄ a ⟨x, older, low, high⟩ (by omega)
    _ = B.get m₂ a := kept₃ a ⟨x, old, low, high⟩
    _ = B.get s₁.mem a := kept₂ a ⟨x, old, low, high⟩ (by omega)
    _ = B.get s.mem a := kept₁ a ⟨x, hx, low, high⟩

def stackImage (stack : Nat) (taskReturned entry : Word) : List Poke :=
  pushed (stack + 16384) [taskReturned.toNat, entry.toNat, 0, 0, 0, 0, 0, 0]

def links (g : Globals σ) (p : Nat) : List Poke :=
  if g.runQueueHead = 0 then [⟨p + 24, p, 8⟩] else [⟨p + 24, g.runQueueHead, 8⟩, ⟨g.runQueueTail + 24, p, 8⟩]

/-- The stores of `create_process` after the memory was cleared. -/
def image (g : Globals σ) (p stack : Nat) (taskReturned entry : Word) : List Poke :=
  [⟨p, g.nextPid, 4⟩, ⟨p + 16, ProcState.ready.code, 4⟩] ++
    (stackImage stack taskReturned entry ++ ([⟨p + 8, stack + 16320, 8⟩] ++ links g p))

theorem stackEnd_eq (aligned : stack % 16 = 0) (fits : stack + stackSize < 2 ^ 64) :
    sub64 (alignDown (add64 stack stackSize) 16) 8 = stack + 16376 := by
  unfold stackSize at fits
  unfold sub64 alignDown add64 stackSize
  omega

theorem mem_stackImage {taskReturned entry : Word} {w : Poke} (hw : w ∈ stackImage stack taskReturned entry) :
    w.width = 8 ∧ stack + 16320 ≤ w.addr ∧ w.addr + 8 ≤ stack + stackSize := by
  have size : stackSize = 16384 := rfl
  obtain ⟨j, hj, rfl⟩ := List.mem_mapIdx.mp hw
  have : j < 8 := hj
  dsimp only
  omega

theorem initialStack_run {taskReturned entry : Word} (R : B.Region P D) (state : P m) (aligned : stack % 16 = 0)
    (fits : stack + stackSize < 2 ^ 64) (inside : ∀ i < stackSize, D (stack + i)) :
    initialStack B (setMem s m) stack taskReturned entry =
      .ok (stack + 16320, setMem s (B.stores m (stackImage stack taskReturned entry))) := by
  have size : stackSize = 16384 := rfl
  have here : ∀ i < 8, D (stack + 16376 + i) := by
    intro i hi
    rw [Nat.add_assoc]
    exact inside _ (by omega)
  have below : ∀ b, stack + 16376 - 8 * 7 ≤ b → b < stack + 16376 → D b := by
    intro b low high
    have := inside (b - stack) (by omega)
    rwa [Nat.add_sub_cancel' (by omega)] at this
  have seven : [entry.toNat, 0, 0, 0, 0, 0, 0].length = 7 := rfl
  have rest := pushWords_run (s := s) (stack + 16376) R (R.keep_store (v := taskReturned.toNat) state here) seven
    (by omega) (by omega) below
  rw [initialStack, stackEnd_eq aligned fits, bind_eq (writeWord_run R state here), rest, stackImage,
    pushed_cons (stack + 16384), stores_cons _ _ ⟨stack + 16384 - 8, _, 8⟩,
      show stack + 16384 - 8 = stack + 16376 by omega, show stack + 16376 - 8 * 7 = stack + 16320 by omega]

def queued (g : Globals σ) (h : Heap.State σ) (p : Nat) : Globals σ where
  heap := h
  current := g.current
  runQueueHead := if g.runQueueHead = 0 then p else g.runQueueHead
  runQueueTail := p
  nextPid := g.nextPid + 1

theorem enqueue_run {g : Globals σ} (R : B.Region P D) (state : P m) (inside : ∀ i < 8, D (p + 24 + i))
    (tail : g.runQueueHead ≠ 0 → ∀ i < 8, D (g.runQueueTail + 24 + i)) :
    enqueue B { g with heap := setMem s m, nextPid := g.nextPid + 1 } p =
      .ok (queued g (setMem s (B.stores m (links g p))) p) := by
  unfold enqueue links queued
  by_cases empty : g.runQueueHead = 0
  · simp only [empty, if_true]
    rw [bind_eq (writeWord_run R state inside)]
    rfl
  · simp only [empty, if_false]
    rw [bind_eq (writeWord_run R state inside), bind_eq (writeWord_run R (R.keep_store state inside) (tail empty))]
    rfl

theorem createProcess_run {g : Globals σ} {taskReturned entry : Word} (nonzero : entry ≠ 0)
    (alloc : allocProcess B g.heap = .ok (p, stack, setMem s m)) (R : B.Region P D) (state : P m)
    (aligned : stack % 16 = 0)
    (fits : stack + stackSize < 2 ^ 64) (proc : ∀ i < procSize, D (p + i)) (inside : ∀ i < stackSize, D (stack + i))
    (tail : g.runQueueHead ≠ 0 → ∀ i < 8, D (g.runQueueTail + 24 + i)) :
    createProcess B taskReturned g entry = .ok (p,
      queued g (setMem s (B.stores m (image g p stack taskReturned entry))) p) := by
  have field : ∀ o n, o + n ≤ 32 → ∀ i < n, D (p + o + i) := by
    intro o n le i hi
    rw [Nat.add_assoc]
    exact proc _ (by unfold procSize; omega)
  have words : ∀ w ∈ stackImage stack taskReturned entry, ∀ i < w.width, D (w.addr + i) := by
    intro w hw i hi
    obtain ⟨width, low, high⟩ := mem_stackImage hw
    have := inside (w.addr - stack + i) (by omega)
    rwa [show stack + (w.addr - stack + i) = w.addr + i by omega] at this
  have pid : ∀ i < 4, D (p + i) := fun i hi => proc i (by unfold procSize; omega)
  have one := R.keep_store (v := g.nextPid) state pid
  have two := R.keep_store (v := ProcState.ready.code) one (field 16 4 (by omega))
  have three := R.keep_stores two words
  have four := R.keep_store (v := stack + 16320) three (field 8 8 (by omega))
  have fifth := enqueue_run (g := g) (s := s) R four (field 24 8 (by omega)) tail
  rw [createProcess, if_neg nonzero, bind_eq alloc]
  dsimp only
  rw [bind_eq (writeInt_run R state pid), bind_eq (writeInt_run R one (field 16 4 (by omega))),
    bind_eq (initialStack_run R two aligned fits inside)]
  dsimp only
  rw [bind_eq (writeWord_run R three (field 8 8 (by omega))), bind_eq fifth, image, stores_append, stores_append,
    stores_append]
  rfl

end Voyager.Sched
