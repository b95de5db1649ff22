import Voyager.Heap.Blocks
import Mathlib.Data.List.Perm.Subperm

/-! # Growing the window and searching the free list -/

namespace Voyager.Heap

open Lib

variable {σ : Type} {B : Backing σ} {s t : State σ} {m m' : σ} {blocks : List Block} {free : List Nat}
  {b : Block} {w : Nat → Nat} {a v x c n head bytes curr : Nat}

/-! ### New pages -/

theorem mapPages_backed (backed : B.backed m c) (low : heapBase ≤ c) (paged : c % pageSize = 0)
    (high : c + n * pageSize ≤ heapLimit) (run : mapPages B m c n = .ok m') :
    B.backed m' (c + n * pageSize) ∧ ∀ x, heapBase ≤ x → x < c → B.get m' x = B.get m x := by
  induction n generalizing m c with
  | zero =>
    cases run
    exact ⟨by simpa using backed, fun _ _ _ => rfl⟩
  | succ n ih =>
    rw [show c + (n + 1) * pageSize = c + pageSize + n * pageSize by rw [Nat.succ_mul]; omega] at high ⊢
    obtain ⟨m₁, first, rest⟩ := bind_ok run
    obtain ⟨backed₁, kept₁⟩ := B.mapPage_backed backed low paged (by omega) first
    obtain ⟨backed₂, kept₂⟩ := ih backed₁ (by omega) (by rwa [Nat.add_mod_right]) high rest
    refine ⟨backed₂, fun x xlow xhigh => ?_⟩
    exact (kept₂ x xlow (by omega)).trans (kept₁ x xlow xhigh)

-- `heap_map_more` writes the new block before it moves `g_heap_curr`; nothing it calls reads the variable.

def withCurr (c : Nat) (s : State σ) : State σ := { s with heapCurr := c }

theorem writeWord_withCurr : writeWord B (withCurr c s) a v = withCurr c <$> writeWord B s a v := by
  unfold writeWord withCurr
  split <;> rfl

theorem flPush_withCurr : flPush B (withCurr c s) a = withCurr c <$> flPush B s a := by
  unfold flPush
  rw [writeWord_withCurr]
  cases writeWord B s (a + 8) 0 with
  | error e => rfl
  | ok s₁ =>
    simp only [map_eq_pure_bind, ok_bind, pure_bind]
    rw [writeWord_withCurr]
    change (_ <$> writeWord B s₁ (a + 16) s₁.freeList >>= _) = _
    cases writeWord B s₁ (a + 16) s₁.freeList with
    | error e => rfl
    | ok s₂ =>
      simp only [map_eq_pure_bind, ok_bind, pure_bind]
      by_cases zero : s₂.freeList = 0
      · simp [withCurr, zero]
      · rw [if_pos (show (withCurr c s₂).freeList ≠ 0 from zero), if_pos zero, writeWord_withCurr]
        change (_ <$> writeWord B s₂ (s₂.freeList + 8) a >>= _) = _
        cases writeWord B s₂ (s₂.freeList + 8) a <;> rfl

theorem placeFree_withCurr : placeFree B (withCurr c s) a v = withCurr c <$> placeFree B s a v := by
  unfold placeFree
  rw [writeWord_withCurr]
  cases writeWord B s a v with
  | error e => rfl
  | ok s₁ =>
    simp only [map_eq_pure_bind, ok_bind, pure_bind]
    rw [writeWord_withCurr]
    cases writeWord B s₁ (a + 16) 0 with
    | error e => rfl
    | ok s₂ =>
      simp only [map_eq_pure_bind, ok_bind, pure_bind]
      rw [writeWord_withCurr]
      cases writeWord B s₂ (a + 8) 0 with
      | error e => rfl
      | ok s₃ =>
        simp only [map_eq_pure_bind, ok_bind, pure_bind]
        change (footerOf B s₃ a >>= _) = _
        cases footerOf B s₃ a with
        | error e => rfl
        | ok f =>
          simp only [ok_bind]
          rw [writeWord_withCurr]
          cases writeWord B s₃ f v with
          | error e => rfl
          | ok s₄ =>
            simp only [map_eq_pure_bind, ok_bind, pure_bind, flPush_withCurr]

theorem Layout.congr_byte (L : Layout (word B s) s.heapCurr s.freeList blocks free) (head : t.freeList = s.freeList)
    (same : ∀ x, heapBase ≤ x → x < s.heapCurr → byte B t x = byte B s x) :
    Layout (word B t) s.heapCurr t.freeList blocks free := by
  rw [head]
  refine L.congr fun x al low high => ByteSpace.load_congr fun i hi => ?_
  exact same (x + i) (by omega) (by omega)

theorem placeFree_extend (h : Layout (word B s) a s.freeList blocks free) (r : Ready B s) (low : heapBase ≤ a)
    (al : a % 16 = 0) (mul : v % 16 = 0) (large : 64 ≤ v) (top : s.heapCurr = a + v) :
    ∃ t, placeFree B s a v = .ok t ∧ Shaped B t (blocks ++ [⟨a, v, false⟩]) (a :: free) ∧
      t.heapCurr = s.heapCurr ∧
      ∀ x, heapBase ≤ x → x < a → OutsideLinks free x → byte B t x = byte B s x := by
  have noWrap := r.lt_wrap (a := a + v) (by omega)
  have writable : Writable s.heapCurr (placeWrites a v) := by
    simp only [placeWrites, writable_cons, Inside]
    exact ⟨by omega, by omega, by omega, by omega, writable_nil⟩
  have run : placeFree B (pokes B s []) a v = flPush B (pokes B s ([] ++ placeWrites a v)) a :=
    placeFree_run r low al mul large (by omega) writable_nil
  have tagged : Tagged (overwrite (word B s) (placeWrites a v)) ⟨a, v, false⟩ := by
    refine ⟨mul, large, ?_, ?_⟩
    · simp only [placeWrites, overwrite_cons, overwrite_nil, Function.update_apply]
      rw [if_neg (by omega), if_neg (by omega), if_neg (by omega), if_pos trivial]
      rfl
    · simp only [placeWrites, overwrite_cons, overwrite_nil, Function.update_apply]
      rw [if_pos trivial]
      rfl
  have layout : Layout (overwrite (word B s) (placeWrites a v)) (a + v) s.freeList
    (blocks ++ [⟨a, v, false⟩]) free := by
    refine h.extend rfl (fun x xal xlow xhigh => ?_) tagged
    apply overwrite_of_not_mem
    simp only [placeWrites, List.mem_cons, List.not_mem_nil, or_false, forall_eq_or_imp, forall_eq]
    omega
  rw [← top] at layout
  have shaped := Shaped.of_pokes r writable layout
  have fresh : a ∉ free := fun listed => by
    have := h.listed listed
    omega
  obtain ⟨t, pushed, shaped', curr, kept⟩ := flPush_spec (b := ⟨a, v, false⟩) shaped (by simp) rfl fresh
  refine ⟨t, run.trans pushed, shaped', curr, fun x xlow xhigh out => ?_⟩
  have outside : OutsideLinks (a :: free) x := by
    intro y hy
    rcases List.mem_cons.mp hy with rfl | hy
    · omega
    · exact out y hy
  refine (kept x xlow (by change x < s.heapCurr; omega) outside).trans (r.byte_pokes writable xlow (by omega) ?_)
  simp only [placeWrites, misses_cons]
  exact ⟨by omega, by omega, by omega, by omega, misses_nil⟩

theorem alignUp_page {v : Nat} (bound : v ≤ 2 ^ 33) : alignUp v pageSize = (v + 4095) / 4096 * 4096 := by
  unfold alignUp add64 pageSize
  omega

theorem Ready.start_eq (r : Ready B s) : alignUp s.heapCurr pageSize = s.heapCurr := by
  have high := r.high
  have paged : s.heapCurr % 4096 = 0 := r.paged
  have limit : heapLimit < 2 ^ 64 - 2 ^ 34 := by decide
  unfold alignUp add64 pageSize
  omega

theorem heapMapMore_run (h : Shaped B s blocks free) (pos : 0 < bytes) (bound : bytes ≤ 2 ^ 33)
    (fits : s.heapCurr + alignUp bytes pageSize ≤ heapLimit)
    (mapped : mapPages B s.mem s.heapCurr (alignUp bytes pageSize / pageSize) = .ok m) :
    ∃ t, heapMapMore B s bytes = .ok t ∧
      Shaped B t (blocks ++ [⟨s.heapCurr, alignUp bytes pageSize, false⟩]) (s.heapCurr :: free) ∧
      t.heapCurr = s.heapCurr + alignUp bytes pageSize ∧
      ∀ x, heapBase ≤ x → x < s.heapCurr → OutsideLinks free x → byte B t x = byte B s x := by
  have low := h.ready.low
  have paged : s.heapCurr % 4096 = 0 := h.ready.paged
  have limit : heapLimit < 2 ^ 64 := by decide
  have rounded := alignUp_page bound
  generalize size : alignUp bytes pageSize = need at *
  have pages : need / pageSize * pageSize = need := by
    unfold pageSize
    omega
  obtain ⟨backed, kept⟩ := mapPages_backed h.ready.backed low h.ready.paged (by omega) mapped
  rw [pages] at backed
  have ready : Ready B { s with mem := m, heapCurr := s.heapCurr + need } :=
    ⟨backed, by change heapBase ≤ s.heapCurr + need; omega, fits, by change (s.heapCurr + need) % 4096 = 0; omega⟩
  have layout := h.layout.congr_byte (t := { s with mem := m, heapCurr := s.heapCurr + need }) rfl kept
  obtain ⟨t, placed, shaped, curr, kept'⟩ := placeFree_extend layout ready low (by omega) (by omega)
    (by omega : 64 ≤ need) rfl
  refine ⟨t, ?_, shaped, curr, fun x xlow xhigh out => (kept' x xlow xhigh out).trans (kept x xlow xhigh)⟩
  have moved := placeFree_withCurr (B := B) (s := { s with mem := m }) (c := s.heapCurr + need)
    (a := s.heapCurr) (v := need)
  rw [withCurr, placed, map_eq_pure_bind] at moved
  have count : (s.heapCurr + need - s.heapCurr + (pageSize - 1)) / pageSize = need / pageSize := by
    unfold pageSize
    omega
  unfold heapMapMore
  simp only [size, h.ready.start_eq, add64_of_lt (show s.heapCurr + need < 2 ^ 64 by omega)]
  rw [if_neg (by omega), count, bind_eq mapped, sub64_of_le (by omega) (by omega),
    show s.heapCurr + need - s.heapCurr = need by omega]
  exact moved.symm

/-! ### Requests that do not fit -/

theorem mapPages_panics (m : σ) (va n : Nat) : Raises Halt.IsPanic (mapPages B m va n) := by
  induction n generalizing m va with
  | zero => exact .ok _
  | succ n ih => exact .bind (B.mapPage_panics m va) fun m' => ih m' _

/-- The end of the new pages before `heap_map_more` reduces it to 64 bits. -/
def grownTo (s : State σ) (bytes : Nat) : Nat := s.heapCurr + roundUp bytes pageSize

/-- When the sum wraps around it passes the check. Then no page is mapped, and the first
store faults. -/
theorem heapMapMore_wraps (r : Ready B s) (bound : bytes < 2 ^ 64) (wraps : 2 ^ 64 ≤ grownTo s bytes) :
    heapMapMore B s bytes = .error (.pageFault s.heapCurr) := by
  have low := r.low
  have high := r.high
  have paged : s.heapCurr % 4096 = 0 := r.paged
  have base : 2 ^ 63 ≤ heapBase := by decide
  have limit : heapLimit < 2 ^ 64 - 2 ^ 34 := by decide
  have short : add64 s.heapCurr (alignUp bytes pageSize) ≤ s.heapCurr := by
    unfold grownTo roundUp at wraps
    unfold alignUp add64 pageSize at *
    omega
  have none : (add64 s.heapCurr (alignUp bytes pageSize) - s.heapCurr + (pageSize - 1)) / pageSize = 0 := by
    unfold pageSize at *
    omega
  unfold heapMapMore
  simp only [r.start_eq]
  rw [if_neg (by omega), none, bind_eq (show mapPages B s.mem s.heapCurr 0 = .ok s.mem from rfl)]
  unfold placeFree writeWord
  rw [if_neg]
  · rfl
  · change ¬ (B.mapped s.mem s.heapCurr && _) = true
    rw [B.unmapped r.backed high, Bool.false_and]
    decide

theorem heapMapMore_exhausted (r : Ready B s) (inRange : grownTo s bytes < 2 ^ 64) (large : heapLimit < grownTo s bytes) :
    heapMapMore B s bytes = .error (.panic .heapExhausted) := by
  have paged : s.heapCurr % 4096 = 0 := r.paged
  unfold heapMapMore
  simp only [r.start_eq]
  rw [if_pos]
  unfold grownTo roundUp at *
  unfold alignUp add64 pageSize at *
  omega

theorem heapMapMore_oversize (r : Ready B s) (large : 2 ^ 33 < bytes) (bound : bytes < 2 ^ 64) :
    heapMapMore B s bytes ≠ .ok t := by
  intro run
  have low := r.low
  have window : heapLimit = heapBase + 2 ^ 28 := rfl
  by_cases wraps : 2 ^ 64 ≤ grownTo s bytes
  · rw [heapMapMore_wraps r bound wraps] at run
    cases run
  · rw [heapMapMore_exhausted r (Nat.lt_of_not_le wraps)] at run
    · cases run
    · unfold grownTo roundUp pageSize
      omega

theorem heapMapMore_spec (h : Shaped B s blocks free) (pos : 0 < bytes) (bound : bytes < 2 ^ 64)
    (run : heapMapMore B s bytes = .ok t) :
    ∃ size, bytes ≤ size ∧ Shaped B t (blocks ++ [⟨s.heapCurr, size, false⟩]) (s.heapCurr :: free) ∧
      t.heapCurr = s.heapCurr + size ∧
      ∀ x, heapBase ≤ x → x < s.heapCurr → OutsideLinks free x → byte B t x = byte B s x := by
  have bound : bytes ≤ 2 ^ 33 := by
    by_contra large
    exact heapMapMore_oversize h.ready (Nat.lt_of_not_le large) bound run
  have rounded := alignUp_page bound
  have high := h.ready.high
  have limit : heapLimit < 2 ^ 64 - 2 ^ 34 := by decide
  have whole := run
  unfold heapMapMore at run
  simp only [h.ready.start_eq, add64_of_lt (show s.heapCurr + alignUp bytes pageSize < 2 ^ 64 by omega)] at run
  split at run
  · cases run
  · obtain ⟨m, mapped, _⟩ := bind_ok run
    rw [show (s.heapCurr + alignUp bytes pageSize - s.heapCurr + (pageSize - 1)) / pageSize =
      alignUp bytes pageSize / pageSize by rw [rounded]; unfold pageSize; omega] at mapped
    obtain ⟨t', run', shaped, curr, kept⟩ := heapMapMore_run h pos bound (by omega) mapped
    cases run'.symm.trans whole
    exact ⟨_, by omega, shaped, curr, kept⟩

theorem heapMapMore_panics (h : Shaped B s blocks free) (pos : 0 < bytes) (inRange : grownTo s bytes < 2 ^ 64) :
    Raises Halt.IsPanic (heapMapMore B s bytes) := by
  have low := h.ready.low
  have window : heapLimit = heapBase + 2 ^ 28 := rfl
  by_cases large : heapLimit < grownTo s bytes
  · rw [heapMapMore_exhausted h.ready inRange large]
    exact .error trivial
  · have small : bytes ≤ 2 ^ 33 := by
      unfold grownTo roundUp pageSize at large
      omega
    have rounded : alignUp bytes pageSize = roundUp bytes pageSize := alignUp_page small
    have fits : s.heapCurr + alignUp bytes pageSize ≤ heapLimit := by
      rw [rounded]
      exact Nat.le_of_not_lt large
    cases mapped : mapPages B s.mem s.heapCurr (alignUp bytes pageSize / pageSize) with
    | ok m =>
      obtain ⟨t, run, _⟩ := heapMapMore_run h pos small fits mapped
      rw [run]
      exact .ok _
    | error e =>
      have count : (s.heapCurr + alignUp bytes pageSize - s.heapCurr + (pageSize - 1)) / pageSize =
          alignUp bytes pageSize / pageSize := by
        rw [rounded]
        unfold roundUp pageSize
        omega
      have limit : heapLimit < 2 ^ 64 := by decide
      unfold heapMapMore
      simp only [h.ready.start_eq, add64_of_lt (Nat.lt_of_le_of_lt fits limit)]
      rw [if_neg (by omega), count, mapped]
      exact .error (mapPages_panics _ _ _ e mapped)

/-! ### First fit -/

theorem findFrom_spec {need fuel : Nat} (r : Ready B s) {l : List Nat}
    (linked : Linked (nextOf (word B s) head) (prevOf (word B s)) x l)
    (inside : ∀ y ∈ l, Inside s.heapCurr y ∧ Inside s.heapCurr (y + 16)) (enough : l.length < fuel) :
    findFrom B s need (l.headD 0) fuel = .ok ((l.find? fun y => need ≤ blkSize (word B s y)).getD 0) := by
  induction l generalizing x fuel with
  | nil =>
    obtain ⟨fuel, rfl⟩ := Nat.exists_eq_succ_of_ne_zero (by omega : fuel ≠ 0)
    rfl
  | cons y rest ih =>
    obtain ⟨fuel, rfl⟩ := Nat.exists_eq_succ_of_ne_zero (by omega : fuel ≠ 0)
    obtain ⟨pos, _, _, later⟩ := linked
    obtain ⟨in0, in16⟩ := inside y List.mem_cons_self
    have next : word B s (y + 16) = rest.headD 0 := by
      have := later.next_eq
      rwa [nextOf, if_neg pos] at this
    rw [List.headD_cons, findFrom, if_neg pos, bind_eq (r.read in0)]
    by_cases fits : need ≤ blkSize (word B s y)
    · rw [if_pos fits, List.find?_cons_of_pos (by simpa using fits)]
      rfl
    · rw [if_neg fits, bind_eq (r.read in16), next, List.find?_cons_of_neg (by simpa using fits)]
      exact ih later (fun z hz => inside z (List.mem_cons_of_mem _ hz)) (by simpa using enough)

theorem Layout.length_lt (L : Layout w curr head blocks free) (high : curr ≤ heapLimit) :
    free.length < searchFuel := by
  have room : ∀ (run : List Block) (lo : Nat), (∀ d ∈ run, 64 ≤ d.size) →
      Tiles Block.addr Block.size lo run curr → lo + 64 * run.length ≤ curr := by
    intro run
    induction run with
    | nil => intro lo _ tiles; exact Nat.le_of_eq tiles
    | cons d run ih =>
      intro lo large tiles
      have first := large d List.mem_cons_self
      have rest := ih _ (fun e he => large e (List.mem_cons_of_mem _ he)) tiles.2.2
      simp only [List.length_cons]
      omega
  have count : free.length ≤ (blocks.map Block.addr).length := by
    refine (List.subperm_of_subset L.nodup fun a ha => ?_).length_le
    obtain ⟨b, hb, rfl, _⟩ := L.isFree a ha
    exact List.mem_map_of_mem hb
  have total := room blocks heapBase (fun d hd => (L.tagged d hd).large) L.tiles
  have limit : heapLimit = heapBase + 268435456 := rfl
  have fuel : searchFuel = 268435456 := rfl
  simp only [List.length_map] at count
  omega

theorem flFindFit_spec (h : Shaped B s blocks free) (size : Nat) :
    flFindFit B s size =
      .ok ((free.find? fun y => totalSizeForPayload size ≤ blkSize (word B s y)).getD 0) := by
  unfold flFindFit
  rw [h.layout.head_eq]
  refine findFrom_spec h.ready h.layout.linked (fun y hy => ?_) (h.layout.length_lt h.ready.high)
  obtain ⟨low, high, al⟩ := h.layout.listed hy
  exact ⟨⟨low, by omega, by omega⟩, by omega, by omega, by omega⟩

end Voyager.Heap
