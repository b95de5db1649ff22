import Voyager.Heap.Client

/-! # Growth on demand -/

namespace Voyager.Heap

open Lib

variable {σ : Type} {B : Backing σ}

/-- The same memory without `frame_alloc` and `PagingMapMemory`. -/
def Backing.sealed (B : Backing σ) : Backing σ :=
  { B with
    mapPage := fun _ _ => .error (.panic .outOfMemory)
    mapPage_backed := fun _ _ _ _ run => by cases run
    mapPage_panics := fun _ _ => .error trivial }

theorem findFrom_sealed (s : State σ) (need it fuel : Nat) :
    findFrom B.sealed s need it fuel = findFrom B s need it fuel := by
  induction fuel generalizing it with
  | zero => rfl
  | succ fuel ih =>
    unfold findFrom
    simp only [ih]
    rfl

theorem kmalloc_sealed {s : State σ} {r : Nat × State σ} {a size : Nat} (pos : 0 < size)
    (found : flFindFit B s size = .ok a) (some : a ≠ 0)
    (run : kmalloc B s size = .ok r) : kmalloc B.sealed s size = .ok r := by
  have same : flFindFit B.sealed s size = .ok a := (findFrom_sealed ..).trans found
  unfold kmalloc findOrGrow at run ⊢
  rw [if_neg (by omega)] at run ⊢
  rw [bind_eq found, if_pos some] at run
  rw [bind_eq same, if_pos some]
  exact run

namespace Client

variable {c : Client σ} {blocks : List Block} {free : List Nat} {lo n size p : Nat} {t : State σ}

/-- A byte of the window that belongs to no live allocation, its tags included. -/
def FreeByte (B : Backing σ) (c : Client σ) (x : Nat) : Prop :=
  heapBase ≤ x ∧ x < c.heap.heapCurr ∧
    ∀ p, c.holds p → ∀ n, kmallocUsableSize B c.heap p = .ok n → x + hdrSize < p ∨ p + n + ftrSize ≤ x

theorem Inv.free_block {b : Block} {x : Nat} (inv : Inv B c blocks free) (hb : b ∈ blocks) (low : b.addr ≤ x)
    (high : x < b.addr + b.size) (clear : FreeByte B c x) : b.allocated = false := by
  by_contra set
  have held : c.holds (b.addr + hdrSize) := inv.owned.all b hb (by simpa using set)
  obtain ⟨_, top, _, _⟩ := inv.payload_inside hb
  have out := clear.2.2 _ held _ (inv.usable_eq hb)
  omega

/-- Free bytes in a row are bytes of one block, since free neighbours are merged. -/
theorem Inv.free_run (inv : Inv B c blocks free) (pos : 0 < n) (clear : ∀ i < n, FreeByte B c (lo + i)) :
    ∃ b ∈ blocks, b.allocated = false ∧ n ≤ b.size := by
  have tiles := inv.wellFormed.shaped.layout.tiles
  obtain ⟨low, high, _⟩ := clear 0 pos
  obtain ⟨b, hb, first, last⟩ := tiles.exists_of_mem_range low high
  have bfree := inv.free_block hb first last (clear 0 pos)
  refine ⟨b, hb, bfree, ?_⟩
  by_contra short
  obtain ⟨pre, post, rfl⟩ := List.append_of_mem hb
  obtain ⟨_, _, right⟩ := tiles.around
  -- The byte behind `b` is free as well, so it begins a free block.
  have next := clear (b.addr + b.size - lo) (by omega)
  rw [show lo + (b.addr + b.size - lo) = b.addr + b.size by omega] at next
  have inside := next.2.1
  match post, right with
  | [], stop =>
    have stop : b.addr + b.size = c.heap.heapCurr := stop
    omega
  | d :: post, ⟨start, size, _⟩ =>
    have dfree := inv.free_block (b := d) (by simp) (by omega) (by omega) next
    obtain ⟨_, chain, _⟩ := List.isChain_append.mp inv.wellFormed.coalesced
    have merged := (List.isChain_cons_cons.mp chain).1
    simp [bfree, dfree] at merged

theorem kmalloc_in_place (inv : Inv B c blocks free) (pos : 0 < size) (bound : size ≤ maxRequest)
    (clear : ∃ lo, ∀ i < totalSizeForPayload size, FreeByte B c (lo + i)) :
    ∃ p t, kmalloc B c.heap size = .ok (p, t) ∧ t.heapCurr = c.heap.heapCurr ∧
      kmalloc B.sealed c.heap size = .ok (p, t) := by
  have need := totalSizeForPayload_eq bound
  obtain ⟨lo, clear⟩ := clear
  obtain ⟨b, hb, bfree, fits⟩ := inv.free_run (by omega) clear
  obtain ⟨_, _, _, some, found, _⟩ := findOrGrow_fits inv.wellFormed hb bfree fits
  obtain ⟨p, t, run, curr⟩ := kmalloc_fits inv.wellFormed pos bound hb bfree fits
  exact ⟨p, t, run, curr, kmalloc_sealed pos found some run⟩

/-- An allocation returns a pointer or panics. While a run of free bytes is long enough it
returns and takes no page, so that it moved `g_heap_curr` or took a page only if none was. -/
theorem kmalloc_grows_on_demand (reached : Run B c) (pos : 0 < size) (le : size ≤ 256 * 1024 * 1024) :
    Raises Halt.IsPanic (kmalloc B c.heap size) ∧
    (∀ p t, kmalloc B c.heap size = .ok (p, t) → p ≠ 0 ∧
      (t.heapCurr ≠ c.heap.heapCurr ∨ kmalloc B.sealed c.heap size ≠ .ok (p, t) →
        ¬ ∃ lo, ∀ i < totalSizeForPayload size, FreeByte B c (lo + i))) ∧
    ((∃ lo, ∀ i < totalSizeForPayload size, FreeByte B c (lo + i)) →
      ∃ p t, kmalloc B c.heap size = .ok (p, t) ∧ t.heapCurr = c.heap.heapCurr ∧
        kmalloc B.sealed c.heap size = .ok (p, t)) := by
  obtain ⟨blocks, free, inv⟩ := reached.inv
  have bound : size ≤ maxRequest := Nat.le_trans le (by decide)
  refine ⟨?_, fun p t run => ⟨?_, fun grew clear => ?_⟩, kmalloc_in_place inv pos bound⟩
  · exact kmalloc_panics inv.wellFormed bound (.inr (inv.wellFormed.shaped.ready.grownTo_lt (Nat.le_trans le (by decide))))
  · obtain ⟨_, _, b, _, _, rfl, _⟩ := kmalloc_spec inv.wellFormed pos bound run
    unfold hdrSize
    omega
  · obtain ⟨_, _, run', curr, same⟩ := kmalloc_in_place inv pos bound clear
    cases run'.symm.trans run
    exact grew.elim (fun ne => ne curr) fun ne => ne same

theorem flat_grows {c : Client FlatMemory} (inv : Inv flatBacking c blocks free)
    (curr : c.heap.heapCurr = heapBase + 64 * pageSize) :
    ∃ p t, kmalloc flatBacking c.heap (64 * pageSize) = .ok (p, t) ∧ t.heapCurr ≠ c.heap.heapCurr := by
  have wf := inv.wellFormed
  have total : totalSizeForPayload (64 * pageSize) = 64 * pageSize + 48 := by decide
  have missing := (wf.shaped.fits_or_missing (64 * pageSize)).resolve_left fun ⟨b, hb, _, fits⟩ => by
    obtain ⟨low, high, _⟩ := wf.shaped.layout.place hb
    omega
  have count : alignUp (growth (64 * pageSize)) pageSize / pageSize = 128 := by decide
  obtain ⟨m, mapped⟩ := flat_mapPages c.heap.mem c.heap.heapCurr 128
  obtain ⟨t, grown, _, moved, _⟩ := heapMapMore_run wf.shaped (show 0 < growth (64 * pageSize) by decide) (by decide)
    (by rw [curr]; decide) (by rw [count]; exact mapped)
  obtain ⟨p, u, run, same⟩ := kmalloc_found wf (by decide) (by decide) (findOrGrow_grows wf.shaped missing grown)
  refine ⟨p, u, run, ?_⟩
  rw [same, moved]
  exact Nat.ne_of_gt (Nat.lt_add_of_pos_right (by decide))

theorem kmalloc_grows_on_demand_flat : ∃ (c : Client FlatMemory) (p : Nat) (t : State FlatMemory),
    Run flatBacking c ∧ kmalloc flatBacking c.heap (64 * pageSize) = .ok (p, t) ∧ p ≠ 0 ∧
      t.heapCurr ≠ c.heap.heapCurr ∧
      ¬ ∃ lo, ∀ i < totalSizeForPayload (64 * pageSize), FreeByte flatBacking c (lo + i) := by
  obtain ⟨c, start⟩ := flat_start
  have reached : Run flatBacking c := .start start
  obtain ⟨_, _, inv⟩ := reached.inv
  obtain ⟨m, _, init, _⟩ := start
  obtain ⟨p, t, run, moved⟩ := flat_grows inv (kmallocInit_curr init)
  obtain ⟨_, returned, _⟩ := kmalloc_grows_on_demand reached (show 0 < 64 * pageSize by decide) (by decide)
  obtain ⟨some, full⟩ := returned p t run
  exact ⟨c, p, t, reached, run, some, moved, full (.inl moved)⟩

end Client

end Voyager.Heap
