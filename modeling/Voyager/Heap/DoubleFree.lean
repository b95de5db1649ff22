import Voyager.Heap.Honest
import Voyager.Lib.Halting

/-!
# Freeing a pointer twice

The second `kfree(p)` reads the word in front of `p`, which by then may lie inside a merged
block. While no call allocates, everything written at a multiple of 16 is even: a size without
its flag, or a pointer to a block. So the flag that the first call cleared stays clear.

`Stepwise` is the same code with the heap as a state that survives the panic.
-/

namespace Voyager.Heap

open Lib

variable {σ : Type} (B : Backing σ)

namespace Stepwise

abbrev HeapM (σ : Type) := EStateM Halt (State σ)

def readWord (a : Nat) : HeapM σ Nat := do
  let s ← get
  if B.mapped s.mem a && B.mapped s.mem (a + 7) then pure (B.load s.mem a 8)
  else throw (.pageFault a)

def writeWord (a v : Nat) : HeapM σ Unit := do
  let s ← get
  if B.mapped s.mem a && B.mapped s.mem (a + 7) then set { s with mem := B.store s.mem a v 8 }
  else throw (.pageFault a)

def footerOf (h : Nat) : HeapM σ Nat := do
  return h + blkSize (← readWord B h) - ftrSize

def nextBlock (h : Nat) : HeapM σ Nat := do
  return h + blkSize (← readWord B h)

def mirror (h : Nat) : HeapM σ Unit := do
  writeWord B (← footerOf B h) (← readWord B h)

def flPush (b : Nat) : HeapM σ Unit := do
  writeWord B (b + 8) 0
  writeWord B (b + 16) (← get).freeList
  let head := (← get).freeList
  if head ≠ 0 then writeWord B (head + 8) b else pure ()
  modify fun s => { s with freeList := b }

def flRemove (b : Nat) : HeapM σ Unit := do
  let prev ← readWord B (b + 8)
  let next ← readWord B (b + 16)
  if prev ≠ 0 then writeWord B (prev + 16) next else modify fun s => { s with freeList := next }
  let next ← readWord B (b + 16)
  let prev ← readWord B (b + 8)
  if next ≠ 0 then writeWord B (next + 8) prev else pure ()
  writeWord B (b + 16) 0
  writeWord B (b + 8) 0

def absorb (h n : Nat) : HeapM σ Unit := do
  let newSz := add64 (blkSize (← readWord B h)) (blkSize (← readWord B n))
  writeWord B h (setSize (← readWord B h) newSz)
  mirror B h

def coalesceNext (h : Nat) : HeapM σ Unit := do
  let n ← nextBlock B h
  if n < (← get).heapCurr then
    if isAlloc (← readWord B n) then pure ()
    else
      flRemove B n
      absorb B h n
  else pure ()

def coalescePrev (h : Nat) : HeapM σ Nat := do
  if h > heapBase then
    let psz := blkSize (← readWord B (h - ftrSize))
    let p := h - psz
    if isAlloc (← readWord B p) then pure h
    else
      flRemove B p
      absorb B p h
      pure p
  else pure h

def coalesce (h : Nat) : HeapM σ Nat := do
  coalesceNext B h
  coalescePrev B h

def kfree (ptr : Nat) : HeapM σ Unit :=
  if ptr = 0 then pure ()
  else do
    let h := ptr - hdrSize
    let word ← readWord B h
    if isAlloc word then
      writeWord B h (clrAlloc word)
      mirror B h
      flPush B (← coalesce B h)
    else throw (.panic (.doubleFree ptr))

variable {B} {s : State σ}

@[simp] theorem outcome_readWord (a : Nat) :
    outcome (readWord B a) s = do return (← Heap.readWord B s a, s) := by
  simp only [readWord, Heap.readWord, outcome_bind, outcome_get, pure_bind, outcome_ite]
  split <;> rfl

@[simp] theorem outcome_writeWord (a v : Nat) :
    outcome (writeWord B a v) s = do return ((), ← Heap.writeWord B s a v) := by
  simp only [writeWord, Heap.writeWord, outcome_bind, outcome_get, pure_bind, outcome_ite]
  split <;> rfl

@[simp] theorem outcome_footerOf (h : Nat) :
    outcome (footerOf B h) s = do return (← Heap.footerOf B s h, s) := by
  simp [footerOf, Heap.footerOf]

@[simp] theorem outcome_nextBlock (h : Nat) :
    outcome (nextBlock B h) s = do return (← Heap.nextBlock B s h, s) := by
  simp [nextBlock, Heap.nextBlock]

@[simp] theorem outcome_mirror (h : Nat) : outcome (mirror B h) s = do return ((), ← Heap.mirror B s h) := by
  simp [mirror, Heap.mirror]

@[simp] theorem outcome_flPush (b : Nat) : outcome (flPush B b) s = do return ((), ← Heap.flPush B s b) := by
  simp [flPush, Heap.flPush, map_ite]

@[simp] theorem outcome_flRemove (b : Nat) : outcome (flRemove B b) s = do return ((), ← Heap.flRemove B s b) := by
  simp [flRemove, Heap.flRemove, map_ite]

@[simp] theorem outcome_absorb (h n : Nat) : outcome (absorb B h n) s = do return ((), ← Heap.absorb B s h n) := by
  simp [absorb, Heap.absorb]

@[simp] theorem outcome_coalesceNext (h : Nat) :
    outcome (coalesceNext B h) s = do return ((), ← Heap.coalesceNext B s h) := by
  simp [coalesceNext, Heap.coalesceNext, map_ite]

@[simp] theorem outcome_coalescePrev (h : Nat) : outcome (coalescePrev B h) s = Heap.coalescePrev B s h := by
  simp [coalescePrev, Heap.coalescePrev]

@[simp] theorem outcome_coalesce (h : Nat) : outcome (coalesce B h) s = Heap.coalesce B s h := by
  simp [coalesce, Heap.coalesce]

theorem outcome_kfree (ptr : Nat) : outcome (kfree B ptr) s = do return ((), ← Heap.kfree B s ptr) := by
  simp [kfree, Heap.kfree, map_ite]
  rfl

end Stepwise

variable {B} {s t u : State σ} {pre post : List Block} {free : List Nat} {b c : Block} {ws vs : List (Nat × Nat)}
  {a p head : Nat}

theorem Stepwise.reads_readWord (r : Ready B s) (h : Inside s.heapCurr a) :
    Reads (Stepwise.readWord B a) s (word B s a) := by
  unfold Reads Stepwise.readWord
  rw [(reads_get s).run_bind, if_pos (r.mapped_word h)]
  rfl

structure KeepsEven (B : Backing σ) (s t : State σ) : Prop where
  curr : t.heapCurr = s.heapCurr
  even : ∀ x, x % 16 = 0 → Inside s.heapCurr x → word B s x % 2 = 0 → word B t x % 2 = 0

def EvenWrites (ws : List (Nat × Nat)) : Prop := ∀ p ∈ ws, p.1 % 16 = 8 ∨ p.2 % 2 = 0

theorem KeepsEven.trans (h : KeepsEven B s t) (h' : KeepsEven B t u) : KeepsEven B s u where
  curr := h'.curr.trans h.curr
  even x al inside even := h'.even x al (h.curr ▸ inside) (h.even x al inside even)

theorem overwrite_even {w : Nat → Nat} {x : Nat} (al : x % 16 = 0) (even : w x % 2 = 0) (evens : EvenWrites ws) :
    overwrite w ws x % 2 = 0 := by
  induction ws generalizing w with
  | nil => exact even
  | cons p ws ih =>
    refine ih ?_ fun q hq => evens q (List.mem_cons_of_mem _ hq)
    rw [Function.update_apply]
    split
    · have := evens p List.mem_cons_self
      omega
    · exact even

theorem keepsEven_pokes (r : Ready B s) (writable : Writable s.heapCurr ws) (evens : EvenWrites ws) :
    KeepsEven B s { pokes B s ws with freeList := head } where
  curr := rfl
  even x al inside even := by
    change word B (pokes B s ws) x % 2 = 0
    rw [r.word_pokes writable inside]
    exact overwrite_even al even evens

theorem evenWrites_tagWrites (mul : b.size % 16 = 0) (clear : b.allocated = false) : EvenWrites (tagWrites b) := by
  have even : b.word % 2 = 0 := by rw [b.word_mod mul, clear]; rfl
  simp [EvenWrites, tagWrites, even]

theorem evenWrites_pushWrites (al : a % 16 = 0) (headAl : head % 16 = 0) : EvenWrites (pushWrites head a) := by
  unfold pushWrites
  split <;> simp [EvenWrites] <;> omega

theorem evenWrites_removeWrites {prev next : Nat} (prevAl : prev % 16 = 0) (nextAl : next % 16 = 0) :
    EvenWrites (removeWrites prev next a) := by
  unfold removeWrites
  split <;> split <;> simp [EvenWrites] <;> omega

theorem Shaped.listed_even {blocks : List Block} (h : Shaped B s blocks free) (ha : a = 0 ∨ a ∈ free) : a % 16 = 0 := by
  rcases ha with rfl | ha
  · rfl
  · exact (h.layout.listed ha).2.2

theorem flPush_keepsEven {blocks : List Block} (h : Shaped B s blocks free) (hb : b ∈ blocks)
    (run : flPush B s b.addr = .ok t) : KeepsEven B s t := by
  obtain ⟨writable, push⟩ := h.flPush_eq hb
  cases push.symm.trans run
  have head : s.freeList = 0 ∨ s.freeList ∈ free := or_iff_not_imp_left.mpr h.layout.head_listed
  exact keepsEven_pokes h.ready writable (evenWrites_pushWrites (h.layout.aligned hb) (h.listed_even head))

theorem flRemove_keepsEven {blocks : List Block} (h : Shaped B s blocks free) (ha : a ∈ free)
    (run : flRemove B s a = .ok t) : KeepsEven B s t := by
  cases (h.flRemove_eq ha).symm.trans run
  exact keepsEven_pokes h.ready (h.removeWrites_writable ha)
    (evenWrites_removeWrites (h.listed_even (h.layout.prev_listed ha)) (h.listed_even (h.layout.next_listed ha)))

theorem merge_keepsEven (h : Shaped B s (pre ++ ([b, c] ++ post)) free) (ha : a ∈ free) (clear : b.allocated = false)
    (run : (do absorb B (← flRemove B s a) b.addr c.addr) = .ok t) : KeepsEven B s t := by
  obtain ⟨u, removed, merged⟩ := bind_ok run
  obtain ⟨u', removed', shaped, _⟩ := flRemove_spec h ha
  cases removed'.symm.trans removed
  have hb : b ∈ pre ++ ([b, c] ++ post) := by simp
  have hc : c ∈ pre ++ ([b, c] ++ post) := by simp
  obtain ⟨low, _, al, bmul, blarge⟩ := shaped.layout.place hb
  obtain ⟨_, high, _, cmul, clarge⟩ := shaped.layout.place hc
  have adjacent : c.addr = b.addr + b.size := shaped.layout.next_start
  have mul : (b.size + c.size) % 16 = 0 := by omega
  cases (absorb_run shaped.ready (shaped.layout.tagged b hb) (shaped.layout.tagged c hc) low al adjacent
    high).symm.trans merged
  have writable := tagWrites_writable (b := ⟨b.addr, b.size + c.size, b.allocated⟩) shaped.ready low al mul
    (by dsimp only; omega) (by dsimp only; omega)
  exact (flRemove_keepsEven h ha removed).trans
    (keepsEven_pokes shaped.ready writable (evenWrites_tagWrites mul clear))

theorem KeepsEven.refl : KeepsEven B s s := ⟨rfl, fun _ _ _ even => even⟩

theorem coalesceNext_keepsEven (h : Shaped B s (pre ++ ([b] ++ post)) free) (clear : b.allocated = false)
    (listed : Listed (pre ++ post) free) (run : coalesceNext B s b.addr = .ok t) : KeepsEven B s t := by
  rw [coalesceNext_eq h] at run
  cases post with
  | nil =>
    cases run
    exact .refl
  | cons c post =>
    cases set : c.allocated with
    | true =>
      simp only [set, if_true, Except.ok.injEq] at run
      exact run ▸ .refl
    | false =>
      simp only [set, Bool.false_eq_true, if_false] at run
      exact merge_keepsEven (show Shaped B s (pre ++ ([b, c] ++ post)) free from h) (listed c (by simp) set) clear run

theorem coalescePrev_keepsEven (h : Shaped B s (pre ++ ([b] ++ post)) free)
    (listed : Listed (pre ++ post) free) (run : coalescePrev B s b.addr = .ok (a, t)) : KeepsEven B s t := by
  rcases List.eq_nil_or_concat pre with rfl | ⟨rest, p, rfl⟩
  · cases (coalescePrev_first h).symm.trans run
    exact .refl
  · rw [List.concat_eq_append] at h listed
    have h' : Shaped B s (rest ++ ([p] ++ b :: post)) free := by simpa using h
    rw [coalescePrev_eq h'] at run
    cases set : p.allocated with
    | true =>
      simp only [set, if_true, Except.ok.injEq, Prod.mk.injEq] at run
      exact run.2 ▸ .refl
    | false =>
      simp only [set, Bool.false_eq_true, if_false] at run
      obtain ⟨u, removed, rest'⟩ := bind_ok run
      obtain ⟨v, merged, done⟩ := bind_ok rest'
      cases done
      refine merge_keepsEven (show Shaped B s (rest ++ ([p, b] ++ post)) free from h') (listed p (by simp) set) set ?_
      rw [bind_eq removed, merged]

theorem coalesce_keepsEven (h : Shaped B s (pre ++ ([b] ++ post)) free) (clear : b.allocated = false)
    (unlisted : b.addr ∉ free) (listed : Listed (pre ++ post) free) (before : Coalesced pre) (after : Coalesced post)
    (run : coalesce B s b.addr = .ok (a, t)) : KeepsEven B s t := by
  obtain ⟨u, next, prev⟩ := bind_ok run
  obtain ⟨u', b', post', free', next', merged, same, _⟩ := coalesceNext_spec h unlisted listed before after
  cases next'.symm.trans next
  exact (coalesceNext_keepsEven h clear listed next).trans
    (coalescePrev_keepsEven merged.shaped merged.listed (same ▸ prev))

theorem kfree_keepsEven {blocks : List Block} (h : WellFormed B s blocks free) (hb : b ∈ blocks)
    (set : b.allocated = true) (run : kfree B s (b.addr + hdrSize) = .ok t) :
    KeepsEven B s t ∧ word B t b.addr % 2 = 0 := by
  obtain ⟨pre, post, rfl⟩ := List.append_of_mem hb
  change WellFormed B s (pre ++ ([b] ++ post)) free at h
  obtain ⟨before, after, listed⟩ := h.split
  have L := h.shaped.layout
  obtain ⟨low, high, al, mul, large⟩ := L.place hb
  have unlisted := L.allocated_unlisted hb set
  have whole : Tiles Block.addr Block.size b.addr [b] (b.addr + b.size) := Tiles.singleton.mpr ⟨rfl, by omega, rfl⟩
  have cleared := h.shaped.retag (b := { b with allocated := false }) (by simp) whole
    (by simpa using unlisted) mul large
  have writable := tagWrites_writable (b := { b with allocated := false }) h.shaped.ready low al mul large high
  rw [kfree_eq h.shaped hb set] at run
  obtain ⟨⟨a, v⟩, merge, push⟩ := bind_ok run
  obtain ⟨v', c, pre', post', free', merge', merged, _⟩ := coalesce_spec cleared rfl unlisted listed before after
  cases merge'.symm.trans merge
  have hc : c ∈ pre' ++ ([c] ++ post') := by simp
  have later : KeepsEven B (pokes B s (tagWrites { b with allocated := false })) t :=
    (coalesce_keepsEven cleared rfl unlisted listed before after merge).trans (flPush_keepsEven merged.shaped hc push)
  refine ⟨(keepsEven_pokes h.shaped.ready writable (evenWrites_tagWrites mul rfl)).trans later, ?_⟩
  have header := (cleared.layout.tagged { b with allocated := false } (by simp)).header
  refine later.even b.addr al ⟨low, by change _ ≤ s.heapCurr; omega, by omega⟩ ?_
  rw [header]
  exact Block.word_mod { b with allocated := false } mul

namespace Client

variable {d : Client σ} {blocks : List Block} {q : Nat} {qs : List Nat}

theorem Inv.freeAll (h : Inv B d blocks free) (held : ∀ q ∈ qs, d.holds q) (once : qs.Nodup) :
    ∃ t, qs.foldlM (kfree B) d.heap = .ok t ∧ Ready B t ∧ KeepsEven B d.heap t := by
  induction qs generalizing d blocks free with
  | nil => exact ⟨d.heap, rfl, h.wellFormed.shaped.ready, .refl⟩
  | cons q qs ih =>
    have heldQ := held q List.mem_cons_self
    obtain ⟨b, hb, set, rfl⟩ := h.owned.exists_block heldQ
    obtain ⟨s, _, _, run, _⟩ := kfree_spec h.wellFormed hb set
    obtain ⟨blocks', free', _, _, inv, _⟩ := free_effect h (.inr heldQ) run
    obtain ⟨fresh, rest⟩ := List.nodup_cons.mp once
    have still : ∀ q ∈ qs, Client.holds ⟨s, forget d.live (b.addr + hdrSize)⟩ q := by
      intro q hq
      obtain ⟨x, hx, rfl⟩ := List.mem_map.mp (held q (List.mem_cons_of_mem _ hq))
      exact List.mem_map.mpr ⟨x, mem_forget.mpr ⟨hx, fun e => fresh (e ▸ hq)⟩, rfl⟩
    obtain ⟨t, runs, ready, kept⟩ := ih inv still rest
    refine ⟨t, ?_, ready, (kfree_keepsEven h.wellFormed hb set run).1.trans kept⟩
    rw [List.foldlM_cons, bind_eq run, runs]

theorem kfree_clear (r : Ready B s) (inside : Inside s.heapCurr (p - hdrSize)) (pos : p ≠ 0)
    (clear : word B s (p - hdrSize) % 2 = 0) :
    kfree B s p = .error (.panic (.doubleFree p)) ∧
      HaltsIn (Stepwise.kfree B p) (.panic (.doubleFree p)) s := by
  have flag : ¬ isAlloc (word B s (p - hdrSize)) = true := by simp [isAlloc, clear]
  constructor
  · unfold kfree
    rw [if_neg pos, bind_eq (r.read inside), if_neg flag]
  · unfold HaltsIn Stepwise.kfree
    rw [if_neg pos, (Stepwise.reads_readWord r inside).run_bind, if_neg flag]
    rfl

/-- A pointer that was freed stays freed: after any frees of other live pointers the second
`kfree(p)` panics, with the heap as it found it. -/
theorem double_free_detected (h : Run B d) (live : d.holds p) (others : ∀ q ∈ qs, d.holds q ∧ q ≠ p)
    (once : qs.Nodup) :
    ∃ s t, kfree B d.heap p = .ok s ∧ qs.foldlM (kfree B) s = .ok t ∧
      kfree B t p = .error (.panic (.doubleFree p)) ∧
      HaltsIn (Stepwise.kfree B p) (.panic (.doubleFree p)) t := by
  obtain ⟨blocks, free, inv⟩ := h.inv
  obtain ⟨b, hb, set, rfl⟩ := inv.owned.exists_block live
  obtain ⟨low, high, al, _, large⟩ := inv.wellFormed.shaped.layout.place hb
  obtain ⟨s, _, _, run, _⟩ := kfree_spec inv.wellFormed hb set
  obtain ⟨kept, clear⟩ := kfree_keepsEven inv.wellFormed hb set run
  obtain ⟨blocks', free', _, _, inv', _⟩ := free_effect inv (.inr live) run
  have still : ∀ q ∈ qs, Client.holds ⟨s, forget d.live (b.addr + hdrSize)⟩ q := by
    intro q hq
    obtain ⟨heldQ, ne⟩ := others q hq
    obtain ⟨x, hx, rfl⟩ := List.mem_map.mp heldQ
    exact List.mem_map.mpr ⟨x, mem_forget.mpr ⟨hx, ne⟩, rfl⟩
  obtain ⟨t, runs, ready, kept'⟩ := inv'.freeAll still once
  have inside : Inside s.heapCurr b.addr := ⟨low, by rw [kept.curr]; omega, by omega⟩
  have header : b.addr + hdrSize - hdrSize = b.addr := by omega
  refine ⟨s, t, run, runs, kfree_clear ready ?_ (by unfold hdrSize; omega) ?_⟩
  · rw [header, kept'.curr]
    exact inside
  · rw [header]
    exact kept'.even b.addr al inside clear

theorem double_free_detected_two : ∃ (d : Client FlatMemory) (q : Nat) (s t : State FlatMemory), Run flatBacking d ∧
    d.holds q ∧ q ≠ heapBase + hdrSize ∧ kfree flatBacking d.heap (heapBase + hdrSize) = .ok s ∧
    kfree flatBacking s q = .ok t ∧
    kfree flatBacking t (heapBase + hdrSize) = .error (.panic (.doubleFree (heapBase + hdrSize))) := by
  obtain ⟨c, rest, reached, enough, live, inv⟩ := flat_busy
  have fits : totalSizeForPayload 200 ≤ rest := Nat.le_trans (by decide) enough
  have bound : 200 ≤ maxRequest := by decide
  obtain ⟨q, u, run, _⟩ :=
    kmalloc_fits inv.wellFormed (by decide) bound (List.mem_cons_of_mem _ List.mem_cons_self) rfl fits
  obtain ⟨_, _, b, _, _, rfl, _⟩ := kmalloc_spec inv.wellFormed (by decide) bound run
  have pos : b.addr + hdrSize ≠ 0 := by unfold hdrSize; omega
  have step : c.perform flatBacking (.malloc 200) = .ok ⟨u, (b.addr + hdrSize, 200) :: c.live⟩ := by
    simp only [perform]
    rw [bind_eq run]
    simp only
    rw [if_neg pos]
    rfl
  have reached' := reached.step ⟨.malloc 200, bound, step⟩
  obtain ⟨_, _, inv'⟩ := Run.inv reached'
  have apart : b.addr + hdrSize ≠ heapBase + hdrSize := by
    have distinct := inv'.owned.nodup
    simp only [live, List.map_cons, List.map_nil, List.nodup_cons, List.mem_singleton] at distinct
    exact distinct.1
  have others : ∀ x ∈ [b.addr + hdrSize],
      Client.holds ⟨u, (b.addr + hdrSize, 200) :: c.live⟩ x ∧ x ≠ heapBase + hdrSize := by
    intro x hx
    rw [List.mem_singleton.mp hx]
    exact ⟨by simp [holds], apart⟩
  obtain ⟨s, t, first, runs, second, _⟩ := double_free_detected (p := heapBase + hdrSize) reached'
    (by simp [holds, live]) others (List.nodup_singleton _)
  obtain ⟨v, freed, done⟩ := bind_ok runs
  cases done
  exact ⟨_, b.addr + hdrSize, s, t, reached', by simp [holds], apart, first, freed, second⟩

end Client

end Voyager.Heap
