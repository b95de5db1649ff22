import Voyager.Heap.Interface

/-! # Runs of the heap's clients -/

namespace Voyager.Heap

open Lib

structure Client (σ : Type) where
  heap : State σ
  live : List (Nat × Nat)

inductive Call where
  | malloc (size : Nat)
  | free (ptr : Nat)
  | realloc (ptr size : Nat)
  | write (ptr offset : Nat) (value : UInt8) -- A store of the client itself.

def Call.argument : Call → Nat
  | .malloc _ => 0
  | .free p => p
  | .realloc p _ => p
  | .write p _ _ => p

def forget (live : List (Nat × Nat)) (p : Nat) : List (Nat × Nat) := live.filter (·.1 ≠ p)

namespace Client

variable {σ : Type} (B : Backing σ)

def holds (c : Client σ) (p : Nat) : Prop := p ∈ c.live.map Prod.fst

def perform (c : Client σ) : Call → Kernel (Client σ)
  | .malloc size => do
    let (p, heap) ← kmalloc B c.heap size
    return ⟨heap, if p = 0 then c.live else (p, size) :: c.live⟩
  | .free p => do
    return ⟨← kfree B c.heap p, forget c.live p⟩
  | .realloc p size => do
    let (q, heap) ← krealloc B c.heap p size
    -- A null result means that `p` was freed, or that nothing happened.
    if q = 0 then return ⟨heap, if size = 0 then forget c.live p else c.live⟩
    else return ⟨heap, (q, size) :: forget c.live p⟩
  | .write p offset value =>
    if B.mapped c.heap.mem (p + offset) then
      .ok { c with heap := { c.heap with mem := B.set c.heap.mem (p + offset) value } }
    else .error (.pageFault (p + offset))

/-- Live pointers only, sizes that can be rounded up, stores inside the payload. -/
def Allowed (c : Client σ) : Call → Prop
  | .malloc size => size ≤ maxRequest
  | .free p => p = 0 ∨ c.holds p
  | .realloc p size => (p = 0 ∨ c.holds p) ∧ size ≤ maxRequest
  | .write p offset _ => c.holds p ∧ ∃ n, kmallocUsableSize B c.heap p = .ok n ∧ offset < n

def Start (c : Client σ) : Prop :=
  ∃ m, B.backed m heapBase ∧ kmallocInit B m = .ok c.heap ∧ c.live = []

def Step (c c' : Client σ) : Prop := ∃ call, c.Allowed B call ∧ c.perform B call = .ok c'

def Run (c : Client σ) : Prop := Reachable (Start B) (Step B) c

/-- The live pointers are the payloads of the allocated blocks. -/
structure Owned (blocks : List Block) (live : List (Nat × Nat)) : Prop where
  nodup : (live.map Prod.fst).Nodup
  block : ∀ p ∈ live, ∃ b ∈ blocks, b.allocated = true ∧ p.1 = b.addr + hdrSize ∧ p.2 + overhead ≤ b.size
  all : ∀ b ∈ blocks, b.allocated = true → b.addr + hdrSize ∈ live.map Prod.fst

structure Inv (c : Client σ) (blocks : List Block) (free : List Nat) : Prop where
  wellFormed : WellFormed B c.heap blocks free
  owned : Owned blocks c.live
  nonempty : heapBase < c.heap.heapCurr

variable {B} {c c' : Client σ} {s t : State σ} {blocks blocks' : List Block} {free : List Nat}
  {live : List (Nat × Nat)} {b d : Block} {old : Block → Prop} {p q size : Nat}

theorem forget_of_not_mem (h : p ∉ live.map Prod.fst) : forget live p = live := by
  refine List.filter_eq_self.mpr fun x hx => ?_
  simp only [ne_eq, decide_eq_true_eq]
  rintro rfl
  exact h (List.mem_map_of_mem hx)

theorem mem_forget {x : Nat × Nat} : x ∈ forget live p ↔ x ∈ live ∧ x.1 ≠ p := by
  simp [forget]

theorem nodup_forget (h : (live.map Prod.fst).Nodup) : ((forget live p).map Prod.fst).Nodup :=
  h.sublist (List.filter_sublist.map _)

namespace Owned

theorem not_null (h : Owned blocks live) : 0 ∉ live.map Prod.fst := by
  intro null
  obtain ⟨x, hx, zero⟩ := List.mem_map.mp null
  obtain ⟨b, _, _, e, _⟩ := h.block x hx
  unfold hdrSize at e
  omega

theorem exists_block (h : Owned blocks live) (hp : p ∈ live.map Prod.fst) :
    ∃ b ∈ blocks, b.allocated = true ∧ p = b.addr + hdrSize := by
  obtain ⟨x, hx, rfl⟩ := List.mem_map.mp hp
  obtain ⟨b, hb, set, e, _⟩ := h.block x hx
  exact ⟨b, hb, set, e⟩

theorem stays (h : Owned blocks live) {new : Block → Prop} (frame : Frame B s t blocks blocks' old new)
    (same : ∀ d ∈ blocks, d.allocated = true → (old d ↔ d.addr + hdrSize = p)) :
    ∀ x ∈ forget live p, ∃ d ∈ blocks', d.allocated = true ∧ x.1 = d.addr + hdrSize ∧ x.2 + overhead ≤ d.size ∧
      d ∈ blocks ∧ ¬ old d := by
  intro x hx
  obtain ⟨hx, ne⟩ := mem_forget.mp hx
  obtain ⟨d, hd, set, e, room⟩ := h.block x hx
  have kept : ¬ old d := fun o => ne (e.trans ((same d hd set).mp o))
  exact ⟨d, (frame.stays d hd set kept).1, set, e, room, hd, kept⟩

theorem still_live (h : Owned blocks live) {new : Block → Prop} (frame : Frame B s t blocks blocks' old new)
    (same : ∀ d ∈ blocks, d.allocated = true → (old d ↔ d.addr + hdrSize = p)) (hd : d ∈ blocks')
    (set : d.allocated = true) (stale : ¬ new d) : d.addr + hdrSize ∈ (forget live p).map Prod.fst := by
  obtain ⟨hd', kept⟩ := frame.only d hd set stale
  obtain ⟨x, hx, e⟩ := List.mem_map.mp (h.all d hd' set)
  exact List.mem_map.mpr ⟨x, mem_forget.mpr ⟨hx, fun gone => kept ((same d hd' set).mpr (e ▸ gone))⟩, e⟩

theorem release (h : Owned blocks live) (frame : Frame B s t blocks blocks' old (fun _ => False))
    (same : ∀ d ∈ blocks, d.allocated = true → (old d ↔ d.addr + hdrSize = p)) :
    Owned blocks' (forget live p) where
  nodup := nodup_forget h.nodup
  block x hx := by
    obtain ⟨d, hd, set, e, room, _⟩ := h.stays frame same x hx
    exact ⟨d, hd, set, e, room⟩
  all d hd set := h.still_live frame same hd set fun f => f

theorem acquire (h : Owned blocks live) (frame : Frame B s t blocks blocks' old (· = b))
    (acquired : Acquired blocks blocks' old b size) (tiles : ∀ d ∈ blocks', d.addr = b.addr → d = b)
    (same : ∀ d ∈ blocks, d.allocated = true → (old d ↔ d.addr + hdrSize = p)) :
    Owned blocks' ((b.addr + hdrSize, size) :: forget live p) where
  nodup := by
    rw [List.map_cons, List.nodup_cons]
    refine ⟨fun again => ?_, nodup_forget h.nodup⟩
    obtain ⟨x, hx, e⟩ := List.mem_map.mp again
    obtain ⟨d, hd, set, e', _, hd', kept⟩ := h.stays frame same x hx
    exact acquired.fresh d hd' set kept (tiles d hd (by omega))
  block x hx := by
    rcases List.mem_cons.mp hx with rfl | hx
    · exact ⟨b, acquired.member, acquired.set, rfl, acquired.room⟩
    · obtain ⟨d, hd, set, e, room, _⟩ := h.stays frame same x hx
      exact ⟨d, hd, set, e, room⟩
  all d hd set := by
    by_cases e : d = b
    · rw [e]
      exact List.mem_cons_self
    · exact List.mem_cons_of_mem _ (h.still_live frame same hd set e)

end Owned

/-! ### One call -/

/-- The invariant is back, and only blocks behind the pointer `p` were given up. -/
def Effect (B : Backing σ) (c c' : Client σ) (blocks : List Block) (p : Nat) : Prop :=
  ∃ blocks' free' old new, Inv B c' blocks' free' ∧ Frame B c.heap c'.heap blocks blocks' old new ∧
    ∀ d ∈ blocks, d.allocated = true → old d → d.addr + hdrSize = p

theorem Inv.unchanged (h : Inv B c blocks free) : Effect B c c blocks p :=
  ⟨blocks, free, fun _ => False, fun _ => False, h,
    ⟨fun _ hd _ _ => ⟨hd, fun _ _ _ => rfl⟩, fun _ hd _ _ => ⟨hd, fun f => f⟩⟩, fun _ _ _ f => f.elim⟩

theorem Inv.same_block (h : Inv B c blocks free) (hb : b ∈ blocks) (hd : d ∈ blocks) :
    d = b ↔ d.addr + hdrSize = b.addr + hdrSize :=
  ⟨fun e => by rw [e], fun e => h.wellFormed.shaped.layout.tiles.eq_of_addr hd hb (by omega)⟩

theorem malloc_effect (h : Inv B c blocks free) (bound : size ≤ maxRequest)
    (run : kmalloc B c.heap size = .ok (p, t)) :
    Effect B c ⟨t, if p = 0 then c.live else (p, size) :: c.live⟩ blocks q := by
  by_cases zero : size = 0
  · subst zero
    cases run
    exact h.unchanged
  · obtain ⟨blocks', free', b, wf, grown, rfl, acquired, frame⟩ :=
      kmalloc_spec h.wellFormed (Nat.pos_of_ne_zero zero) bound run
    have live := h.owned.acquire (p := 0) frame acquired
      (fun d hd e => wf.shaped.layout.tiles.eq_of_addr hd acquired.member e) (by simp [hdrSize])
    rw [forget_of_not_mem h.owned.not_null] at live
    rw [if_neg (by unfold hdrSize; omega)]
    exact ⟨blocks', free', _, _, ⟨wf, live, h.nonempty.trans_le grown⟩, frame, fun _ _ _ f => f.elim⟩

theorem free_effect (h : Inv B c blocks free) (held : p = 0 ∨ c.holds p) (run : kfree B c.heap p = .ok t) :
    Effect B c ⟨t, forget c.live p⟩ blocks p := by
  rcases held with rfl | held
  · cases run
    rw [forget_of_not_mem h.owned.not_null]
    exact h.unchanged
  · obtain ⟨b, hb, set, rfl⟩ := h.owned.exists_block held
    obtain ⟨t', blocks', free', run', wf, curr, frame⟩ := kfree_spec h.wellFormed hb set
    cases run'.symm.trans run
    have live := h.owned.release frame fun d hd _ => h.same_block hb hd
    exact ⟨blocks', free', _, _, ⟨wf, live, curr ▸ h.nonempty⟩, frame, fun d hd _ e => (h.same_block hb hd).mp e⟩

theorem realloc_effect (h : Inv B c blocks free) (held : c.holds p) (pos : 0 < size) (bound : size ≤ maxRequest)
    (run : krealloc B c.heap p size = .ok (q, t)) :
    q ≠ 0 ∧ Effect B c ⟨t, (q, size) :: forget c.live p⟩ blocks p := by
  obtain ⟨b, hb, set, rfl⟩ := h.owned.exists_block held
  obtain ⟨blocks', free', d, wf, grown, rfl, acquired, frame, _⟩ := krealloc_spec h.wellFormed hb set pos bound run
  have live := h.owned.acquire frame acquired
    (fun e he same => wf.shaped.layout.tiles.eq_of_addr he acquired.member same) fun e he _ => h.same_block hb he
  refine ⟨by unfold hdrSize; omega, blocks', free', _, _, ⟨wf, live, h.nonempty.trans_le grown⟩, frame, ?_⟩
  exact fun e he _ same => (h.same_block hb he).mp same

theorem Inv.usable_eq (h : Inv B c blocks free) (hb : b ∈ blocks) :
    kmallocUsableSize B c.heap (b.addr + hdrSize) = .ok (b.size - overhead) :=
  h.wellFormed.usable_eq hb

theorem write_effect {offset n : Nat} {value : UInt8} (h : Inv B c blocks free) (held : c.holds p)
    (size : kmallocUsableSize B c.heap p = .ok n) (inside : offset < n) :
    Effect B c { c with heap := { c.heap with mem := B.set c.heap.mem (p + offset) value } } blocks p := by
  obtain ⟨b, hb, set, rfl⟩ := h.owned.exists_block held
  cases (h.usable_eq hb).symm.trans size
  have r := h.wellFormed.shaped.ready
  obtain ⟨low, high, _, _, large⟩ := h.wellFormed.shaped.layout.place hb
  simp only [overhead, hdrSize, ftrSize] at inside
  have domain : heapBase ≤ b.addr + hdrSize + offset ∧ b.addr + hdrSize + offset < c.heap.heapCurr := by
    unfold hdrSize
    omega
  have write : PayloadWrite B c.heap { c.heap with mem := B.set c.heap.mem (b.addr + hdrSize + offset) value } b := by
    refine ⟨⟨r.region.keep _ r.backed domain, r.low, r.high, r.paged⟩, rfl, rfl, fun x xlow xhigh out => ?_⟩
    simp only [hdrSize, ftrSize] at out
    change B.get (B.set c.heap.mem (b.addr + hdrSize + offset) value) x = B.get c.heap.mem x
    rw [r.region.get_set _ r.backed domain ⟨xlow, xhigh⟩, if_neg (by unfold hdrSize; omega)]
  exact ⟨blocks, free, _, _, ⟨write.wellFormed h.wellFormed hb set, h.owned, h.nonempty⟩,
    write.frame h.wellFormed hb, fun d hd _ e => (h.same_block hb hd).mp e⟩

theorem perform_effect {call : Call} (h : Inv B c blocks free) (allowed : c.Allowed B call)
    (run : c.perform B call = .ok c') : Effect B c c' blocks call.argument := by
  cases call with
  | malloc size =>
    obtain ⟨⟨p, t⟩, allocated, done⟩ := bind_ok run
    cases done
    exact malloc_effect h allowed allocated
  | free p =>
    obtain ⟨t, freed, done⟩ := bind_ok run
    cases done
    exact free_effect h allowed freed
  | realloc p size =>
    obtain ⟨held, bound⟩ := allowed
    obtain ⟨⟨q, t⟩, moved, done⟩ := bind_ok run
    simp only at done
    by_cases null : p = 0
    · subst null
      have effect := malloc_effect (q := 0) h bound moved
      rw [forget_of_not_mem h.owned.not_null] at done
      by_cases zero : q = 0
      · rw [if_pos zero] at done effect
        rw [ite_self] at done
        cases done
        exact effect
      · rw [if_neg zero] at done effect
        cases done
        exact effect
    · have held := held.resolve_left null
      by_cases zero : size = 0
      · subst zero
        unfold krealloc at moved
        rw [if_neg null, if_pos rfl] at moved
        obtain ⟨u, freed, moved⟩ := bind_ok moved
        cases moved
        cases done
        exact free_effect h (.inr held) freed
      · obtain ⟨pos, effect⟩ := realloc_effect h held (Nat.pos_of_ne_zero zero) bound moved
        rw [if_neg pos] at done
        cases done
        exact effect
  | write p offset value =>
    obtain ⟨held, n, usable, inside⟩ := allowed
    simp only [perform] at run
    split at run
    · cases run
      exact write_effect h held usable inside
    · cases run

theorem Start.inv (h : Start B c) : ∃ blocks free, Inv B c blocks free := by
  obtain ⟨m, backed, run, none⟩ := h
  obtain ⟨size, wf, curr, large⟩ := kmallocInit_spec backed run
  unfold pageSize at large
  refine ⟨_, _, wf, ?_, by omega⟩
  rw [none]
  exact ⟨by simp, by simp, by simp⟩

theorem Run.inv (h : Run B c) : ∃ blocks free, Inv B c blocks free := by
  have initial : ∀ c, Start B c → ∃ blocks free, Inv B c blocks free := fun _ => Start.inv
  have kept : ∀ c c', (∃ blocks free, Inv B c blocks free) → Step B c c' → ∃ blocks free, Inv B c' blocks free := by
    rintro c c' ⟨blocks, free, inv⟩ ⟨call, allowed, run⟩
    obtain ⟨blocks', free', _, _, inv', _⟩ := perform_effect inv allowed run
    exact ⟨blocks', free', inv'⟩
  exact h.invariant initial kept

/-! ### A heap over one array of bytes, to run the clients on -/

structure FlatMemory where
  bytes : Nat → UInt8
  limit : Nat

def flatBacking : Backing FlatMemory where
  mapped m a := decide (a < m.limit)
  get m a := m.bytes a
  set m a v := { m with bytes := fun x => if x = a then v else m.bytes x }
  mapPage m va := .ok { m with limit := va + pageSize }
  backed m c := m.limit = c
  region _ _ :=
    { mapped := fun backed inside => decide_eq_true (backed ▸ inside.2)
      keep := fun _ backed _ => backed
      get_set := fun _ _ _ _ => rfl }
  unmapped backed _ := decide_eq_false (Nat.not_lt.mpr (Nat.le_of_eq backed))
  mapPage_backed _ _ _ _ run := by
    cases run
    exact ⟨rfl, fun _ _ _ => rfl⟩
  mapPage_panics _ _ := .ok _

theorem flat_mapPages (m : FlatMemory) (va n : Nat) : ∃ m', mapPages flatBacking m va n = .ok m' := by
  induction n generalizing m va with
  | zero => exact ⟨m, rfl⟩
  | succ n ih => exact ih _ _

theorem flat_start : ∃ c, Start flatBacking c := by
  have backed : flatBacking.backed ⟨fun _ => 0, heapBase⟩ heapBase := rfl
  obtain ⟨m, mapped⟩ := flat_mapPages ⟨fun _ => 0, heapBase⟩ heapBase 64
  obtain ⟨t, run⟩ := kmallocInit_returns backed mapped
  exact ⟨⟨t, []⟩, _, backed, run, rfl⟩

theorem flat_one : ∃ c : Client FlatMemory, Run flatBacking c ∧ ∃ p, c.live = [(p, 100)] := by
  obtain ⟨c, start⟩ := flat_start
  obtain ⟨m, backed, init, none⟩ := start
  obtain ⟨size, wf, _, large⟩ := kmallocInit_spec backed init
  have fits : totalSizeForPayload 100 ≤ size := Nat.le_trans (by decide) large
  obtain ⟨p, t, run, _⟩ := kmalloc_fits wf (by decide) (by decide) List.mem_cons_self rfl fits
  obtain ⟨_, _, b, _, _, rfl, _⟩ := kmalloc_spec wf (by decide) (by decide) run
  refine ⟨⟨t, [(b.addr + hdrSize, 100)]⟩, .step (.start ⟨m, backed, init, none⟩) ⟨.malloc 100, ?_, ?_⟩, _, rfl⟩
  · change 100 ≤ maxRequest
    decide
  · simp only [perform]
    rw [bind_eq run, none]
    simp only
    rw [if_neg (by unfold hdrSize; omega)]
    rfl

theorem flat_freed : ∃ c : Client FlatMemory, Run flatBacking c ∧ c.live = [] := by
  obtain ⟨c, run, p, live⟩ := flat_one
  obtain ⟨blocks, free, inv⟩ := run.inv
  have held : c.holds p := by simp [holds, live]
  obtain ⟨b, hb, set, rfl⟩ := inv.owned.exists_block held
  obtain ⟨t, _, _, freed, _⟩ := kfree_spec inv.wellFormed hb set
  refine ⟨⟨t, forget c.live (b.addr + hdrSize)⟩, .step run ⟨.free (b.addr + hdrSize), .inr held, ?_⟩, ?_⟩
  · simp only [perform]
    rw [bind_eq freed]
    rfl
  · simp [live, forget]

/-! ### What holds between any two calls -/

/-- Tiling, boundary tags, the free list and coalescing, at every boundary of every run. -/
theorem heap_representation (h : Run B c) :
    ∃ blocks free, Tiles Block.addr Block.size heapBase blocks c.heap.heapCurr ∧
      (∀ b ∈ blocks, b.size % 16 = 0 ∧ 64 ≤ b.size ∧ word B c.heap b.addr = b.word ∧
        word B c.heap (b.addr + b.size - 8) = b.word) ∧
      (Linked (nextOf (word B c.heap) c.heap.freeList) (prevOf (word B c.heap)) 0 free ∧ free.Nodup ∧
        ∀ a, a ∈ free ↔ ∃ b ∈ blocks, b.addr = a ∧ b.allocated = false) ∧
      Coalesced blocks := by
  obtain ⟨blocks, free, inv⟩ := h.inv
  have L := inv.wellFormed.shaped.layout
  refine ⟨blocks, free, L.tiles, fun b hb => ?_, ⟨L.linked, L.nodup, fun a => ⟨L.isFree a, ?_⟩⟩,
    inv.wellFormed.coalesced⟩
  · have tag := L.tagged b hb
    exact ⟨tag.multiple, tag.large, tag.header, tag.footer⟩
  · rintro ⟨b, hb, rfl, clear⟩
    exact inv.wellFormed.listed b hb clear

theorem heap_representation_flat :
    ∃ c : Client FlatMemory, Run flatBacking c ∧ c.live ≠ [] ∧
      ∃ blocks free, Tiles Block.addr Block.size heapBase blocks c.heap.heapCurr ∧
        (∀ b ∈ blocks, b.size % 16 = 0 ∧ 64 ≤ b.size ∧ word flatBacking c.heap b.addr = b.word ∧
          word flatBacking c.heap (b.addr + b.size - 8) = b.word) ∧
        (Linked (nextOf (word flatBacking c.heap) c.heap.freeList) (prevOf (word flatBacking c.heap)) 0 free ∧
          free.Nodup ∧ ∀ a, a ∈ free ↔ ∃ b ∈ blocks, b.addr = a ∧ b.allocated = false) ∧
        Coalesced blocks := by
  obtain ⟨c, run, p, live⟩ := flat_one
  exact ⟨c, run, by simp [live], heap_representation run⟩

/-- The heap as its clients see it. -/
structure View (B : Backing σ) (c : Client σ) : Prop where
  distinct : (c.live.map Prod.fst).Nodup
  payload : ∀ p ∈ c.live, ∃ n, kmallocUsableSize B c.heap p.1 = .ok n ∧ p.1 % 16 = 0 ∧ p.2 ≤ n ∧
    heapBase ≤ p.1 ∧ p.1 + n ≤ c.heap.heapCurr
  disjoint : ∀ p ∈ c.live, ∀ q ∈ c.live, p.1 ≠ q.1 → ∀ n k, kmallocUsableSize B c.heap p.1 = .ok n →
    kmallocUsableSize B c.heap q.1 = .ok k → p.1 + n ≤ q.1 ∨ q.1 + k ≤ p.1
  frame : ∀ call c', c.Allowed B call → c.perform B call = .ok c' → ∀ p ∈ c.live, p.1 ≠ call.argument →
    ∀ n, kmallocUsableSize B c.heap p.1 = .ok n → ∀ i < n, byte B c'.heap (p.1 + i) = byte B c.heap (p.1 + i)
  resized : ∀ p size q t, c.holds p → 0 < size → size ≤ maxRequest →
    krealloc B c.heap p size = .ok (q, t) → q ≠ 0 ∧
      ∀ n, kmallocUsableSize B c.heap p = .ok n → ∀ i < min n size, byte B t (q + i) = byte B c.heap (p + i)

theorem Inv.payload_inside (h : Inv B c blocks free) (hb : b ∈ blocks) :
    heapBase ≤ b.addr + hdrSize ∧ b.addr + hdrSize + (b.size - overhead) + ftrSize = b.addr + b.size ∧
      b.addr + b.size ≤ c.heap.heapCurr ∧ (b.addr + hdrSize) % 16 = 0 := by
  obtain ⟨low, high, al, _, large⟩ := h.wellFormed.shaped.layout.place hb
  unfold overhead hdrSize ftrSize
  omega

theorem client_view (h : Run B c) : View B c := by
  obtain ⟨blocks, free, inv⟩ := h.inv
  have tiles := inv.wellFormed.shaped.layout.tiles
  have header : hdrSize = 32 := rfl
  have footer : ftrSize = 8 := rfl
  refine ⟨inv.owned.nodup, fun p hp => ?_, fun p hp q hq ne n k usableP usableQ => ?_,
    fun call c' allowed run p hp ne n usable i hi => ?_, fun p size q t held pos bound run => ?_⟩
  · obtain ⟨b, hb, _, same, room⟩ := inv.owned.block p hp
    obtain ⟨low, top, high, al⟩ := inv.payload_inside hb
    rw [same]
    exact ⟨_, inv.usable_eq hb, al, by omega, low, by omega⟩
  · obtain ⟨b, hb, _, sameP, _⟩ := inv.owned.block p hp
    obtain ⟨d, hd, _, sameQ, _⟩ := inv.owned.block q hq
    obtain ⟨_, topB, _, _⟩ := inv.payload_inside hb
    obtain ⟨_, topD, _, _⟩ := inv.payload_inside hd
    rw [sameP] at usableP ne ⊢
    rw [sameQ] at usableQ ne ⊢
    cases (inv.usable_eq hb).symm.trans usableP
    cases (inv.usable_eq hd).symm.trans usableQ
    have := tiles.apart hb hd (by omega)
    omega
  · obtain ⟨b, hb, set, same, _⟩ := inv.owned.block p hp
    obtain ⟨_, top, _, _⟩ := inv.payload_inside hb
    rw [same] at usable ne ⊢
    cases (inv.usable_eq hb).symm.trans usable
    obtain ⟨_, _, old, _, _, frame, given⟩ := perform_effect inv allowed run
    exact (frame.stays b hb set fun o => ne (given b hb set o)).2 _ (by omega) (by omega)
  · obtain ⟨b, hb, set, rfl⟩ := inv.owned.exists_block held
    obtain ⟨_, _, d, _, _, rfl, _, _, bytes⟩ := krealloc_spec inv.wellFormed hb set pos bound run
    refine ⟨by omega, fun n usable i hi => ?_⟩
    cases (inv.usable_eq hb).symm.trans usable
    exact bytes i hi

theorem client_view_flat : ∃ c : Client FlatMemory, Run flatBacking c ∧ c.live ≠ [] ∧ View flatBacking c := by
  obtain ⟨c, run, p, live⟩ := flat_one
  exact ⟨c, run, by simp [live], client_view run⟩

theorem coalesced_free (chain : Coalesced blocks) (clear : ∀ b ∈ blocks, b.allocated = false) :
    blocks.length ≤ 1 := by
  match blocks with
  | [] => simp
  | [_] => simp
  | b :: d :: _ =>
    have first := (List.isChain_cons_cons.mp chain).1
    simp [clear b (by simp), clear d (by simp)] at first

theorem defragmented (h : Run B c) (none : c.live = []) :
    WellFormed B c.heap [⟨heapBase, c.heap.heapCurr - heapBase, false⟩] [heapBase] := by
  obtain ⟨blocks, free, inv⟩ := h.inv
  have wf := inv.wellFormed
  have L := wf.shaped.layout
  have clear : ∀ b ∈ blocks, b.allocated = false := by
    intro b hb
    by_contra set
    have live := inv.owned.all b hb (by simpa using set)
    simp [none] at live
  match blocks, coalesced_free wf.coalesced clear with
  | [], _ =>
    have empty : heapBase = c.heap.heapCurr := L.tiles
    exact absurd inv.nonempty (by omega)
  | [b], _ =>
    obtain ⟨start, pos, stop⟩ := Tiles.singleton.mp L.tiles
    have whole : b = ⟨heapBase, c.heap.heapCurr - heapBase, false⟩ := by
      have := clear b (by simp)
      cases b
      simp_all
      omega
    have listed : free = [heapBase] := by
      have only : ∀ a ∈ free, a = heapBase := fun a ha => by
        obtain ⟨d, hd, rfl, _⟩ := L.isFree a ha
        rw [List.mem_singleton.mp hd, start]
      have member : heapBase ∈ free := start ▸ wf.listed b (by simp) (clear b (by simp))
      have repeated := List.eq_replicate_of_mem only
      rw [repeated] at member ⊢
      have once := L.nodup
      rw [repeated, List.nodup_replicate] at once
      rw [List.mem_replicate] at member
      rw [show free.length = 1 by omega]
      rfl
    rw [← whole, ← listed]
    exact wf

theorem defragmented_flat : ∃ c : Client FlatMemory, Run flatBacking c ∧ c.live = [] ∧
    WellFormed flatBacking c.heap [⟨heapBase, c.heap.heapCurr - heapBase, false⟩] [heapBase] := by
  obtain ⟨c, run, none⟩ := flat_freed
  exact ⟨c, run, none, defragmented run none⟩

end Client

end Voyager.Heap
