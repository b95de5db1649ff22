import Voyager.Heap.Kmalloc
import Voyager.Lib.Tiling
import Voyager.Lib.LinkedList

/-!
# The layout of the heap window

The free list may lack blocks whose flag is clear: that is how a block looks between
`fl_remove` and the next header write.
-/

namespace Voyager.Heap

open Lib

structure Block where
  addr : Nat
  size : Nat
  allocated : Bool
  deriving DecidableEq, Repr

def Block.word (b : Block) : Nat := b.size + b.allocated.toNat

structure Tagged (w : Nat → Nat) (b : Block) : Prop where
  multiple : b.size % 16 = 0
  large : 64 ≤ b.size
  header : w b.addr = b.word
  footer : w (b.addr + b.size - 8) = b.word

/-- `next_free`, with the head pointer as the link out of `NULL`. -/
def nextOf (w : Nat → Nat) (head x : Nat) : Nat := if x = 0 then head else w (x + 16)

def prevOf (w : Nat → Nat) (x : Nat) : Nat := w (x + 8)

structure Layout (w : Nat → Nat) (curr head : Nat) (blocks : List Block) (free : List Nat) : Prop where
  tiles : Tiles Block.addr Block.size heapBase blocks curr
  tagged : ∀ b ∈ blocks, Tagged w b
  linked : Linked (nextOf w head) (prevOf w) 0 free
  nodup : free.Nodup
  isFree : ∀ a ∈ free, ∃ b ∈ blocks, b.addr = a ∧ b.allocated = false

namespace Tagged

variable {w w' : Nat → Nat} {b : Block}

theorem congr (h : Tagged w b) (header : w' b.addr = w b.addr)
    (footer : w' (b.addr + b.size - 8) = w (b.addr + b.size - 8)) : Tagged w' b :=
  ⟨h.multiple, h.large, header.trans h.header, footer.trans h.footer⟩

theorem blkSize_header (h : Tagged w b) : blkSize (w b.addr) = b.size := by
  have := h.multiple
  rw [h.header, Block.word, blkSize]
  cases b.allocated <;> simp only [Bool.toNat_true, Bool.toNat_false] <;> omega

theorem isAlloc_header (h : Tagged w b) : isAlloc (w b.addr) = b.allocated := by
  have := h.multiple
  rw [h.header, Block.word, isAlloc]
  cases b.allocated <;> simp only [Bool.toNat_true, Bool.toNat_false, decide_eq_true_eq,
    decide_eq_false_iff_not] <;> omega

theorem blkSize_footer (h : Tagged w b) : blkSize (w (b.addr + b.size - 8)) = b.size := by
  rw [h.footer, ← h.header, h.blkSize_header]

end Tagged

namespace Layout

variable {w w' : Nat → Nat} {curr head head' : Nat} {blocks pre mid mid' post : List Block}
  {free : List Nat} {b c : Block} {a : Nat}

theorem aligned (L : Layout w curr head blocks free) (hb : b ∈ blocks) : b.addr % 16 = 0 := by
  have walk : ∀ (run : List Block) (lo : Nat), lo % 16 = 0 → (∀ c ∈ run, c.size % 16 = 0) →
      Tiles Block.addr Block.size lo run curr → ∀ c ∈ run, c.addr % 16 = 0 := by
    intro run
    induction run with
    | nil => intro _ _ _ _ c hc; cases hc
    | cons d run ih =>
      intro lo start sizes h c hc
      have dsize := sizes d List.mem_cons_self
      rcases List.mem_cons.mp hc with rfl | hc
      · rw [h.1]; exact start
      · exact ih _ (by omega) (fun e he => sizes e (List.mem_cons_of_mem _ he)) h.2.2 c hc
  exact walk blocks heapBase (by decide) (fun c hc => (L.tagged c hc).multiple) L.tiles b hb

theorem place (L : Layout w curr head blocks free) (hb : b ∈ blocks) :
    heapBase ≤ b.addr ∧ b.addr + b.size ≤ curr ∧ b.addr % 16 = 0 ∧ b.size % 16 = 0 ∧ 64 ≤ b.size :=
  ⟨(L.tiles.bounds hb).1, (L.tiles.bounds hb).2.2, L.aligned hb, (L.tagged b hb).multiple,
    (L.tagged b hb).large⟩

theorem listed (L : Layout w curr head blocks free) (ha : a ∈ free) :
    heapBase ≤ a ∧ a + 64 ≤ curr ∧ a % 16 = 0 := by
  obtain ⟨b, hb, rfl, _⟩ := L.isFree a ha
  obtain ⟨low, high, al, _, large⟩ := L.place hb
  exact ⟨low, by omega, al⟩

theorem zero_not_listed (L : Layout w curr head blocks free) : 0 ∉ free :=
  fun h => L.linked.ne_zero 0 h rfl

theorem prev_listed (L : Layout w curr head blocks free) (ha : a ∈ free) :
    w (a + 8) = 0 ∨ w (a + 8) ∈ free :=
  List.mem_cons.mp (L.linked.prev_mem ha)

theorem next_listed (L : Layout w curr head blocks free) (ha : a ∈ free) :
    w (a + 16) = 0 ∨ w (a + 16) ∈ free := by
  have pos := L.linked.ne_zero a ha
  by_cases zero : w (a + 16) = 0
  · exact Or.inl zero
  · have := L.linked.next_mem ha (by simpa only [nextOf, if_neg pos] using zero)
    rw [nextOf, if_neg pos] at this
    exact Or.inr (List.mem_of_mem_tail this)

theorem head_eq (L : Layout w curr head blocks free) : head = free.headD 0 := L.linked.next_eq

theorem tag_ne_link (L : Layout w curr head blocks free) (hb : b ∈ blocks) (ha : a ∈ free) :
    (b.addr ≠ a + 8 ∧ b.addr ≠ a + 16) ∧
      b.addr + b.size - 8 ≠ a + 8 ∧ b.addr + b.size - 8 ≠ a + 16 := by
  obtain ⟨c, hc, rfl, _⟩ := L.isFree a ha
  have largeB := (L.tagged b hb).large
  have largeC := (L.tagged c hc).large
  have distinct : ∀ i j, i < b.size → j < c.size → i ≠ j → b.addr + i ≠ c.addr + j :=
    fun i j hi hj ne same => ne (L.tiles.eq_of_offset hb hc hi hj same).2
  have h0 := distinct 0 8 (by omega) (by omega) (by omega)
  have h1 := distinct 0 16 (by omega) (by omega) (by omega)
  have h2 := distinct (b.size - 8) 8 (by omega) (by omega) (by omega)
  have h3 := distinct (b.size - 8) 16 (by omega) (by omega) (by omega)
  omega

theorem congr (L : Layout w curr head blocks free)
    (same : ∀ x, x % 8 = 0 → heapBase ≤ x → x + 8 ≤ curr → w' x = w x) :
    Layout w' curr head blocks free where
  tiles := L.tiles
  tagged b hb := by
    obtain ⟨low, high, al, mul, large⟩ := L.place hb
    exact (L.tagged b hb).congr (same _ (by omega) low (by omega)) (same _ (by omega) (by omega) (by omega))
  linked := by
    refine L.linked.congr (fun y hy => ?_) fun y hy => ?_
    · simp only [nextOf]
      split
      · rfl
      · rename_i pos
        obtain ⟨low, high, al⟩ := L.listed ((List.mem_cons.mp hy).resolve_left pos)
        exact same _ (by omega) (by omega) (by omega)
    · obtain ⟨low, high, al⟩ := L.listed hy
      exact same _ (by omega) (by omega) (by omega)
  nodup := L.nodup
  isFree := L.isFree

theorem unlink (L : Layout w curr head blocks free) (ha : a ∈ free)
    (same : ∀ x, x ≠ a + 8 → x ≠ a + 16 → (w (a + 8) ≠ 0 → x ≠ w (a + 8) + 16) →
      (w (a + 16) ≠ 0 → x ≠ w (a + 16) + 8) → w' x = w x)
    (forward : w (a + 8) ≠ 0 → w' (w (a + 8) + 16) = w (a + 16))
    (backward : w (a + 16) ≠ 0 → w' (w (a + 16) + 8) = w (a + 8))
    (first : head' = if w (a + 8) = 0 then w (a + 16) else head) :
    Layout w' curr head' blocks (free.erase a) where
  tiles := L.tiles
  tagged b hb := by
    have self := L.tag_ne_link hb ha
    have prevNe : w (a + 8) ≠ 0 → b.addr ≠ w (a + 8) + 16 ∧ b.addr + b.size - 8 ≠ w (a + 8) + 16 := fun pos =>
      have := L.tag_ne_link hb ((L.prev_listed ha).resolve_left pos)
      ⟨this.1.2, this.2.2⟩
    have nextNe : w (a + 16) ≠ 0 → b.addr ≠ w (a + 16) + 8 ∧ b.addr + b.size - 8 ≠ w (a + 16) + 8 := fun pos =>
      have := L.tag_ne_link hb ((L.next_listed ha).resolve_left pos)
      ⟨this.1.1, this.2.1⟩
    exact (L.tagged b hb).congr
      (same _ self.1.1 self.1.2 (fun pos => (prevNe pos).1) fun pos => (nextNe pos).1)
      (same _ self.2.1 self.2.2 (fun pos => (prevNe pos).2) fun pos => (nextNe pos).2)
  linked := by
    have pos : a ≠ 0 := L.linked.ne_zero a ha
    have ala := (L.listed ha).2.2
    have next : nextOf w head a = w (a + 16) := if_neg pos
    have prev : prevOf w a = w (a + 8) := rfl
    refine L.linked.erase (List.nodup_cons.mpr ⟨L.zero_not_listed, L.nodup⟩) ha ?_ ?_ ?_ ?_
    · rw [next, prev, nextOf]
      split
      · rename_i zero
        rw [first, if_pos zero]
      · rename_i nonzero
        exact forward nonzero
    · rw [next, prev]
      exact backward
    · intro y hy ya yp
      rw [prev] at yp
      simp only [nextOf]
      split
      · rename_i zero
        rw [first, if_neg (fun e => yp (zero.trans e.symm))]
      · rename_i nonzero
        obtain ⟨_, _, aly⟩ := L.listed ((List.mem_cons.mp hy).resolve_left nonzero)
        refine same _ (by omega) (by omega) (fun _ => by omega) fun some => ?_
        have := L.listed ((L.next_listed ha).resolve_left some)
        omega
    · intro y hy ya yn
      rw [next] at yn
      obtain ⟨_, _, aly⟩ := L.listed hy
      refine same _ (by omega) (by omega) (fun some => ?_) fun _ => by omega
      have := L.listed ((L.prev_listed ha).resolve_left some)
      omega
  nodup := L.nodup.erase a
  isFree x hx := L.isFree x (List.mem_of_mem_erase hx)

theorem push (L : Layout w curr head blocks free) (hb : b ∈ blocks) (clear : b.allocated = false)
    (fresh : b.addr ∉ free)
    (same : ∀ x, x ≠ b.addr + 8 → x ≠ b.addr + 16 → (head ≠ 0 → x ≠ head + 8) → w' x = w x)
    (back : w' (b.addr + 8) = 0) (forward : w' (b.addr + 16) = head)
    (first : head ≠ 0 → w' (head + 8) = b.addr) :
    Layout w' curr b.addr blocks (b.addr :: free) := by
  have headIn : head ≠ 0 → head ∈ free := by
    intro pos
    have := L.head_eq
    cases free with
    | nil => exact (pos this).elim
    | cons x rest => rw [this]; exact List.mem_cons_self
  obtain ⟨low, high, al, mul, large⟩ := L.place hb
  have pos : b.addr ≠ 0 := by
    have : 0 < heapBase := by decide
    omega
  have listed : ∀ x ∈ free, x ≠ b.addr := fun x hx e => fresh (e ▸ hx)
  refine ⟨L.tiles, fun c hc => ?_, ?_, List.nodup_cons.mpr ⟨fresh, L.nodup⟩, fun x hx => ?_⟩
  · have largeC := (L.tagged c hc).large
    have distinct : ∀ i j, i < c.size → j < b.size → i ≠ j → c.addr + i ≠ b.addr + j :=
      fun i j hi hj ne e => ne (L.tiles.eq_of_offset hc hb hi hj e).2
    have h0 := distinct 0 8 (by omega) (by omega) (by omega)
    have h1 := distinct 0 16 (by omega) (by omega) (by omega)
    have h2 := distinct (c.size - 8) 8 (by omega) (by omega) (by omega)
    have h3 := distinct (c.size - 8) 16 (by omega) (by omega) (by omega)
    refine (L.tagged c hc).congr (same _ (by omega) (by omega) fun some => ?_)
      (same _ (by omega) (by omega) fun some => ?_)
    · exact (L.tag_ne_link hc (headIn some)).1.1
    · exact (L.tag_ne_link hc (headIn some)).2.1
  · refine L.linked.push fresh pos (if_pos rfl) ?_ back first (fun y hy => ?_) (fun y hy ne => ?_) L.nodup
    · simpa only [nextOf, if_neg pos, if_pos] using forward
    · have ypos := L.linked.ne_zero y hy
      obtain ⟨_, _, aly⟩ := L.listed hy
      have := listed y hy
      simp only [nextOf, if_neg ypos]
      refine same _ (by omega) (by omega) fun some => ?_
      have := L.listed (headIn some)
      omega
    · obtain ⟨_, _, aly⟩ := L.listed hy
      have := listed y hy
      have notHead : y ≠ head := ne
      exact same _ (by omega) (by omega) fun _ => by omega
  · rcases List.mem_cons.mp hx with rfl | hx
    · exact ⟨b, hb, rfl, clear⟩
    · exact L.isFree x hx

theorem rewrite {lo hi : Nat} (L : Layout w curr head (pre ++ (mid ++ post)) free) (ne : mid ≠ [])
    (old : Tiles Block.addr Block.size lo mid hi) (new : Tiles Block.addr Block.size lo mid' hi)
    (unlisted : ∀ b ∈ mid, b.addr ∉ free)
    (same : ∀ x, x % 8 = 0 → x + 8 ≤ lo ∨ hi ≤ x → w' x = w x) (tagged : ∀ b ∈ mid', Tagged w' b) :
    Layout w' curr head (pre ++ (mid' ++ post)) free := by
  have whole := L.tiles
  obtain ⟨start, left, rest⟩ := Tiles.append.mp whole
  obtain ⟨stop, body, right⟩ := Tiles.append.mp rest
  have ends : start = lo ∧ stop = hi := by
    obtain ⟨x, xs, rfl⟩ := List.exists_cons_of_ne_nil ne
    have e : start = lo := by rw [← body.1, ← old.1]
    exact ⟨e, body.end_unique (e ▸ old)⟩
  rw [ends.1] at left
  rw [ends.2] at right
  -- A block outside the run lies wholly below or above it.
  have outer : ∀ c, c ∈ pre ∨ c ∈ post → ∀ x, c.addr ≤ x → x + 8 ≤ c.addr + c.size → x % 8 = 0 → w' x = w x := by
    intro c hc x low high al
    rcases hc with hc | hc
    · have := left.bounds hc
      exact same x al (Or.inl (by omega))
    · have := right.bounds hc
      exact same x al (Or.inr (by omega))
  have outerTagged : ∀ c, c ∈ pre ∨ c ∈ post → Tagged w' c := by
    intro c hc
    have hc' : c ∈ pre ++ (mid ++ post) := by
      rcases hc with hc | hc <;> simp [hc]
    obtain ⟨_, _, al, mul, large⟩ := L.place hc'
    exact (L.tagged c hc').congr (outer c hc _ (by omega) (by omega) (by omega))
      (outer c hc _ (by omega) (by omega) (by omega))
  have outerListed : ∀ x ∈ free, ∃ c, (c ∈ pre ∨ c ∈ post) ∧ c.addr = x ∧ c.allocated = false ∧
      w' (x + 8) = w (x + 8) ∧ w' (x + 16) = w (x + 16) := by
    intro x hx
    obtain ⟨c, hc, rfl, clear⟩ := L.isFree x hx
    obtain ⟨_, _, al, mul, large⟩ := L.place hc
    have side : c ∈ pre ∨ c ∈ post := by
      rcases List.mem_append.mp hc with hc | hc
      · exact Or.inl hc
      · rcases List.mem_append.mp hc with hc | hc
        · exact (unlisted c hc hx).elim
        · exact Or.inr hc
    exact ⟨c, side, rfl, clear, outer c side _ (by omega) (by omega) (by omega),
      outer c side _ (by omega) (by omega) (by omega)⟩
  refine ⟨whole.replace old new ne, fun c hc => ?_, ?_, L.nodup, fun x hx => ?_⟩
  · rcases List.mem_append.mp hc with hc | hc
    · exact outerTagged c (Or.inl hc)
    · rcases List.mem_append.mp hc with hc | hc
      · exact tagged c hc
      · exact outerTagged c (Or.inr hc)
  · refine L.linked.congr (fun y hy => ?_) fun y hy => ?_
    · simp only [nextOf]
      split
      · rfl
      · rename_i pos
        obtain ⟨_, _, _, _, _, fwd⟩ := outerListed y ((List.mem_cons.mp hy).resolve_left pos)
        exact fwd
    · obtain ⟨_, _, _, _, back, _⟩ := outerListed y hy
      exact back
  · obtain ⟨c, side, e, clear, _⟩ := outerListed x hx
    refine ⟨c, ?_, e, clear⟩
    rcases side with hc | hc <;> simp [hc]

theorem extend (L : Layout w curr head blocks free) (start : b.addr = curr)
    (same : ∀ x, x % 8 = 0 → heapBase ≤ x → x + 8 ≤ curr → w' x = w x) (tagged : Tagged w' b) :
    Layout w' (curr + b.size) head (blocks ++ [b]) free := by
  have L' := L.congr same
  have large := tagged.large
  refine ⟨Tiles.append.mpr ⟨curr, L.tiles, Tiles.singleton.mpr ⟨start, by omega, rfl⟩⟩, ?_, L'.linked, L.nodup, ?_⟩
  · intro c hc
    rcases List.mem_append.mp hc with hc | hc
    · exact L'.tagged c hc
    · rw [List.mem_singleton.mp hc]; exact tagged
  · intro x hx
    obtain ⟨c, hc, e⟩ := L.isFree x hx
    exact ⟨c, List.mem_append_left _ hc, e⟩

end Layout

end Voyager.Heap
