import Mathlib.Data.Finset.Card
import Voyager.Terminal.Fbterm

/-!
# The queue of the framebuffer backend

A cell is in the queue at most once, and the map finds its item. So no push finds the queue
full.
-/

namespace Voyager.Terminal

open Lib

section Cells

variable {size : Size} {x y x' y' i : Nat}

theorem Size.cell_lt (hx : x < size.cols) (hy : y < size.rows) : size.cell x y < size.cells := mul_add_lt hy hx

theorem Size.cell_inj (hx : x < size.cols) (hx' : x' < size.cols) (same : size.cell x y = size.cell x' y') :
    x = x' ∧ y = y' :=
  digits_inj (by unfold cell at same; omega) hx hx'

theorem Size.cell_mod_div (i : Nat) : size.cell (i % size.cols) (i / size.cols) = i := Nat.div_add_mod' i size.cols

theorem Size.mod_lt (i : Nat) : i % size.cols < size.cols := Nat.mod_lt i size.cols_pos

theorem Size.div_lt (lt : i < size.cells) : i / size.cols < size.rows :=
  Nat.div_lt_of_lt_mul (by rwa [Nat.mul_comm])

end Cells

namespace Fbterm

variable {size : Size} {fb : Fbterm} {i q x y : Nat}

def cellOf (size : Size) (fb : Fbterm) (q : Nat) : Nat := size.cell (fb.queue q).x (fb.queue q).y

structure Buffers (size : Size) (fb : Fbterm) : Prop where
  mapped : ∀ i < size.cells, ∀ q, fb.map i = some q → q < fb.queueI ∧ fb.cellOf size q = i
  queued : ∀ q < fb.queueI, ((fb.queue q).x < size.cols ∧ (fb.queue q).y < size.rows) ∧
    fb.map (fb.cellOf size q) = some q

theorem value_of_map (h : fb.map i = some q) : fb.value i = (fb.queue q).c := by
  unfold value
  rw [h]

theorem value_of_none (h : fb.map i = none) : fb.value i = fb.grid i := by
  unfold value
  rw [h]

theorem Buffers.room (h : fb.Buffers size) (lt : i < size.cells) (free : fb.map i = none) :
    fb.queueI < size.cells := by
  have injective := Finset.card_le_card_of_injOn (s := Finset.range fb.queueI) (t := (Finset.range size.cells).erase i)
    (fb.cellOf size) ?_ ?_
  · rw [Finset.card_range, Finset.card_erase_of_mem (Finset.mem_range.mpr lt), Finset.card_range] at injective
    omega
  · intro q hq
    obtain ⟨⟨hx, hy⟩, found⟩ := h.queued q (Finset.mem_range.mp hq)
    refine Finset.mem_coe.mpr (Finset.mem_erase.mpr ⟨?_, Finset.mem_range.mpr (Size.cell_lt hx hy)⟩)
    rintro rfl
    exact nomatch free.symm.trans found
  · intro q hq q' hq' same
    have found := (h.queued q (Finset.mem_range.mp hq)).2
    have found' := (h.queued q' (Finset.mem_range.mp hq')).2
    rw [same, found'] at found
    exact (Option.some.inj found).symm

/-- Only the queue and the map differ. -/
def Requeued (fb fb' : Fbterm) : Prop := fb' = { fb with queue := fb'.queue, queueI := fb'.queueI, map := fb'.map }

theorem push_old {ch : FbChar} (h : fb.Buffers size) (hi : i < size.cells) (found : fb.map i = some q) :
    let fb' := { fb with queue := Function.update fb.queue q { fb.queue q with c := ch } }
    fb'.Buffers size ∧ ∀ j < size.cells, fb'.value j = Function.update fb.value i ch j := by
  intro fb'
  have named (k : Nat) : (fb'.queue k).x = (fb.queue k).x ∧ (fb'.queue k).y = (fb.queue k).y := by
    by_cases same : k = q
    · subst same
      simp [fb']
    · simp [fb', Function.update_of_ne same]
  have cells (k : Nat) : fb'.cellOf size k = fb.cellOf size k := by
    unfold cellOf
    rw [(named k).1, (named k).2]
  refine ⟨⟨fun j hj k hk => ?_, fun k hk => ?_⟩, fun j hj => ?_⟩
  · rw [cells]
    exact h.mapped j hj k hk
  · rw [cells, (named k).1, (named k).2]
    exact h.queued k hk
  · by_cases same : j = i
    · subst same
      rw [value_of_map (show fb'.map j = some q from found), Function.update_self]
      simp [fb']
    · rw [Function.update_of_ne same]
      have same' : fb'.map j = fb.map j := rfl
      unfold value
      rw [same']
      cases other : fb.map j with
      | none => rfl
      | some k =>
        have apart : k ≠ q := by
          rintro rfl
          exact same ((h.mapped j hj k other).2.symm.trans (h.mapped i hi k found).2)
        simp [fb', Function.update_of_ne apart]

theorem push_new {ch : FbChar} (h : fb.Buffers size) (hx : x < size.cols) (hy : y < size.rows)
    (free : fb.map (size.cell x y) = none) :
    let fb' := { fb with
      queue := Function.update fb.queue fb.queueI { x, y, c := ch }
      queueI := fb.queueI + 1
      map := Function.update fb.map (size.cell x y) (some fb.queueI) }
    fb'.Buffers size ∧ ∀ j < size.cells, fb'.value j = Function.update fb.value (size.cell x y) ch j := by
  intro fb'
  have fresh : fb'.queue fb.queueI = { x, y, c := ch } := Function.update_self _ _ _
  have kept (k : Nat) (hk : k < fb.queueI) : fb'.queue k = fb.queue k := Function.update_of_ne (Nat.ne_of_lt hk) _ _
  have cells (k : Nat) (hk : k < fb.queueI) : fb'.cellOf size k = fb.cellOf size k := by
    unfold cellOf
    rw [kept k hk]
  have here : fb'.cellOf size fb.queueI = size.cell x y := by
    unfold cellOf
    rw [fresh]
  have apart (k : Nat) (hk : k < fb.queueI) : fb.cellOf size k ≠ size.cell x y := by
    intro same
    have found := (h.queued k hk).2
    rw [same, free] at found
    cases found
  refine ⟨⟨fun j hj k hk => ?_, fun k hk => ?_⟩, fun j hj => ?_⟩
  · by_cases same : j = size.cell x y
    · subst same
      obtain rfl : k = fb.queueI := by simpa [fb', eq_comm] using hk
      exact ⟨Nat.lt_succ_self _, here⟩
    · have hk : fb.map j = some k := by simpa [fb', Function.update_of_ne same] using hk
      obtain ⟨lt, named⟩ := h.mapped j hj k hk
      exact ⟨Nat.lt_succ_of_lt lt, (cells k lt).trans named⟩
  · rcases Nat.lt_succ_iff_lt_or_eq.mp hk with lt | rfl
    · rw [cells k lt, kept k lt]
      refine ⟨(h.queued k lt).1, ?_⟩
      simpa [fb', Function.update_of_ne (apart k lt)] using (h.queued k lt).2
    · rw [here, fresh]
      exact ⟨⟨hx, hy⟩, Function.update_self _ _ _⟩
  · by_cases same : j = size.cell x y
    · subst same
      rw [value_of_map (show fb'.map _ = some fb.queueI from Function.update_self _ _ _), fresh, Function.update_self]
    · rw [Function.update_of_ne same]
      have same' : fb'.map j = fb.map j := Function.update_of_ne same _ _
      unfold value
      rw [same']
      cases other : fb.map j with
      | none => rfl
      | some k => exact congrArg QueueItem.c (kept k (h.mapped j hj k other).1)

theorem pushToQueue_spec (ch : FbChar) (h : fb.Buffers size) (hx : x < size.cols) (hy : y < size.rows) :
    ∃ fb', fb.pushToQueue size ch x y = some fb' ∧ fb.Requeued fb' ∧ fb'.Buffers size ∧
      ∀ j < size.cells, fb'.value j = Function.update fb.value (size.cell x y) ch j := by
  have hi := Size.cell_lt hx hy
  unfold pushToQueue
  rw [if_neg (by omega)]
  cases found : fb.map (size.cell x y) with
  | some q => exact ⟨_, rfl, rfl, push_old h hi found⟩
  | none =>
    dsimp only
    split
    · rename_i same
      refine ⟨fb, rfl, rfl, h, fun j _ => ?_⟩
      rw [← same, ← value_of_none found, Function.update_eq_self]
    · rw [if_pos (h.room hi found)]
      exact ⟨_, rfl, rfl, push_new h hx hy found⟩

end Fbterm

/-- The backend holds the cells of `s` and shows its display. -/
structure Refines {size : Size} (r : Raster size) (fb : Fbterm) (s : Screen) : Prop extends fb.Buffers size where
  brush : fb.toBrush = s.toBrush
  cells : ∀ i < size.cells, fb.value i = s.cells i
  oldX : fb.oldCursorX < size.cols
  oldY : fb.oldCursorY < size.rows
  -- The old cursor's cell can be drawn in other colours than the grid has.
  settled : ∀ i < size.cells, i ≠ size.cell fb.oldCursorX fb.oldCursorY → fb.grid i = s.display i
  shows : ∀ x < size.cols, ∀ y < size.rows, r.Shows fb.framebuffer (s.display (size.cell x y)) x y
  framed : r.Framed fb.framebuffer

namespace Refines

variable {size : Size} {r : Raster size} {ctx : TermContext} {fb : Fbterm} {s : Screen} {i j x y : Nat}

theorem withBrush (h : Refines r fb s) (b : Brush) : Refines r (fb.withBrush b) (s.withBrush b) :=
  { mapped := h.mapped, queued := h.queued, brush := rfl, cells := h.cells, oldX := h.oldX, oldY := h.oldY
    settled := h.settled, shows := h.shows, framed := h.framed }

theorem push (h : Refines r fb s) (ch : FbChar) (x y : Nat) :
    ∃ fb', fb.pushToQueue size ch x y = some fb' ∧ Refines r fb' (s.put size ch x y) := by
  by_cases inside : x < size.cols ∧ y < size.rows
  · obtain ⟨fb', pushed, same, buffers, value⟩ := Fbterm.pushToQueue_spec ch h.toBuffers inside.1 inside.2
    refine ⟨fb', pushed, ?_⟩
    unfold Screen.put
    rw [if_pos inside, same]
    rw [same] at buffers value
    refine ⟨buffers, h.brush, fun i hi => (value i hi).trans ?_, h.oldX, h.oldY, h.settled, h.shows, h.framed⟩
    change Function.update fb.value (size.cell x y) ch i = Function.update s.cells (size.cell x y) ch i
    by_cases here : i = size.cell x y
    · rw [here, Function.update_self, Function.update_self]
    · rw [Function.update_of_ne here, Function.update_of_ne here, h.cells i hi]
  · refine ⟨fb, if_pos (by omega), ?_⟩
    unfold Screen.put
    rw [if_neg inside]
    exact h

theorem put_of_cell {ch : FbChar} (hj : j < size.cells) :
    s.put size ch (j % size.cols) (j / size.cols) = { s with cells := Function.update s.cells j ch } := by
  unfold Screen.put
  rw [if_pos ⟨size.mod_lt j, size.div_lt hj⟩, size.cell_mod_div]

theorem copyCell (h : Refines r fb s) (hi : i < size.cells) (hj : j < size.cells) :
    ∃ fb', fb.copyCell size i j = some fb' ∧
      Refines r fb' { s with cells := Function.update s.cells j (s.cells i) } := by
  obtain ⟨fb', pushed, h'⟩ := h.push (fb.value i) (j % size.cols) (j / size.cols)
  refine ⟨fb', ?_, ?_⟩
  · unfold Fbterm.copyCell Fbterm.look
    rw [if_pos hi]
    exact pushed
  · rw [put_of_cell hj, h.cells i hi] at h'
    exact h'

/-- A loop that copies cells, each before it is overwritten. -/
theorem copyCells (h : Refines r fb s) (src dst : Nat → Nat) (xs : List Nat)
    (inside : ∀ a ∈ xs, src a < size.cells ∧ dst a < size.cells) (ordered : xs.Pairwise fun a b => dst a ≠ src b) :
    ∃ fb', xs.foldlM (fun fb a => fb.copyCell size (src a) (dst a)) fb = some fb' ∧
      Refines r fb' { s with cells := writes s.cells dst (fun a => some (s.cells (src a))) xs } := by
  rw [← foldl_moves ordered]
  refine foldlM_follows (R := fun fb cells => Refines r fb { s with cells }) (fun a ha fb cells h => ?_) h
  exact h.copyCell (inside a ha).1 (inside a ha).2

theorem blankCells (h : Refines r fb s) (first stop : Nat) (le : stop ≤ size.cells) :
    ∃ fb', fb.blankCells size first stop = some fb' ∧
      Refines r fb' { s with cells := fun i => if first ≤ i ∧ i < stop then s.blank else s.cells i } := by
  have all : (fun i => if first ≤ i ∧ i < stop then s.blank else s.cells i) =
      writes s.cells id (fun _ => some s.blank) (List.range' first (stop - first)) := by
    refine (writes_eq (w := fun _ => some s.blank) (fun _ _ => rfl) fun j => ?_).symm
    simp only [List.mem_range'_1, id, exists_eq_right]
    omega
  rw [all]
  refine foldlM_follows (R := fun fb cells => Refines r fb { s with cells }) (fun i hi fb cells h => ?_) h
  have hi : i < size.cells := by
    rw [List.mem_range'_1] at hi
    omega
  obtain ⟨fb', pushed, h'⟩ := h.push fb.blank (i % size.cols) (i / size.cols)
  rw [put_of_cell hi, h.brush] at h'
  exact ⟨fb', pushed, h'⟩

theorem mul64_rows {k : Nat} (le : k ≤ size.rows) : mul64 k size.cols = k * size.cols := by
  have := Nat.mul_le_mul_right size.cols le
  have := size.cells_lt
  exact mul64_of_lt (by unfold Size.cells at this; omega)

end Refines

section Scroll

variable {size : Size} {r : Raster size} {ctx : TermContext} {fb : Fbterm} {s s' : Screen} {top bottom i : Nat}

def lowerRows (size : Size) (top bottom : Nat) : List Nat :=
  List.range' ((top + 1) * size.cols) (bottom * size.cols - (top + 1) * size.cols)

theorem mem_lowerRows : i ∈ lowerRows size top bottom ↔ top * size.cols + size.cols ≤ i ∧ i < bottom * size.cols := by
  have first : (top + 1) * size.cols = top * size.cols + size.cols := Nat.succ_mul _ _
  unfold lowerRows
  rw [List.mem_range'_1]
  omega

theorem lowerRows_back (le : bottom ≤ size.rows) (hi : i ∈ lowerRows size top bottom) :
    sub64 i size.cols = i - size.cols ∧ size.cols ≤ i ∧ i < size.cells := by
  have ends : bottom * size.cols ≤ size.cells := Nat.mul_le_mul_right size.cols le
  have fits := size.cells_lt
  rw [mem_lowerRows] at hi
  exact ⟨sub64_of_le (by omega) (by omega), by omega, by omega⟩

theorem lastRow_eq (size : Size) (pos : 0 < bottom) : (bottom - 1) * size.cols + size.cols = bottom * size.cols := by
  rw [← Nat.succ_mul, Nat.succ_eq_add_one, Nat.sub_add_cancel pos]

theorem rowsUp_eq (lt : top < bottom) (le : bottom ≤ size.rows) (blank : FbChar) (cells : Nat → FbChar) :
    (fun i => if (bottom - 1) * size.cols ≤ i ∧ i < bottom * size.cols then blank
      else writes cells (sub64 · size.cols) (fun i => some (cells i)) (lowerRows size top bottom) i) =
      Screen.rowsUp size.cols top bottom blank cells := by
  have last := lastRow_eq size (Nat.zero_lt_of_lt lt)
  rw [writes_eq (w := fun j => some (cells (j + size.cols)))
    (p := fun j => top * size.cols ≤ j ∧ j < (bottom - 1) * size.cols)]
  · funext i
    unfold Screen.rowsUp
    by_cases tail : (bottom - 1) * size.cols ≤ i ∧ i < bottom * size.cols
    · rw [if_pos tail, if_neg (by omega), if_pos tail]
    · rw [if_neg tail, if_neg tail]
      rfl
  · intro i hi
    obtain ⟨back, le, -⟩ := lowerRows_back le hi
    rw [back, Nat.sub_add_cancel le]
  · intro j
    constructor
    · rintro ⟨i, hi, rfl⟩
      rw [(lowerRows_back le hi).1]
      rw [mem_lowerRows] at hi
      omega
    · intro inside
      have hi : j + size.cols ∈ lowerRows size top bottom := mem_lowerRows.mpr (by omega)
      exact ⟨_, hi, by rw [(lowerRows_back le hi).1, Nat.add_sub_cancel]⟩

theorem Refines.scroll (h : Refines r fb s) (scrolled : s.scroll size ctx = some s') :
    ∃ fb', fb.scroll ctx size = some fb' ∧ Refines r fb' s' := by
  obtain ⟨⟨lt, le⟩, rfl⟩ := (Option.ite_none_right_eq_some.mp scrolled).imp_right Option.some.inj
  have fits := size.cells_lt
  have rows := size.rows_le
  have start : mul64 (add64 ctx.scrollTopMargin 1) size.cols = (ctx.scrollTopMargin + 1) * size.cols := by
    rw [add64_of_lt (by omega), mul64_rows (by omega)]
  have last : mul64 (sub64 ctx.scrollBottomMargin 1) size.cols = (ctx.scrollBottomMargin - 1) * size.cols := by
    rw [sub64_of_le (by omega) (by omega), mul64_rows (by omega)]
  have inside : ∀ i ∈ lowerRows size ctx.scrollTopMargin ctx.scrollBottomMargin,
      id i < size.cells ∧ sub64 i size.cols < size.cells := by
    intro i hi
    obtain ⟨back, -, inside⟩ := lowerRows_back le hi
    exact ⟨inside, by omega⟩
  have ordered : (lowerRows size ctx.scrollTopMargin ctx.scrollBottomMargin).Pairwise
      fun i j => sub64 i size.cols ≠ id j := by
    refine List.Pairwise.imp_of_mem (fun {i j} hi _ lt => ?_) List.pairwise_lt_range'
    have back := (lowerRows_back le hi).1
    have pos := size.cols_pos
    change sub64 i size.cols ≠ j
    omega
  obtain ⟨fb₁, copied, h₁⟩ := h.copyCells id (sub64 · size.cols) _ inside ordered
  obtain ⟨fb₂, blanked, h₂⟩ := h₁.blankCells ((ctx.scrollBottomMargin - 1) * size.cols) _
    (Nat.mul_le_mul_right size.cols le)
  refine ⟨fb₂, ?_, ?_⟩
  · unfold Fbterm.scroll
    rw [start, last, mul64_rows le]
    exact Option.bind_eq_some_iff.mpr ⟨fb₁, copied, blanked⟩
  · rw [← rowsUp_eq lt le]
    exact h₂

theorem downTo_eq {a b : Nat} (le : b ≤ a) (lt : a < 2 ^ 64) : downTo a b = (List.range (a - b + 1)).map (a - ·) := by
  unfold downTo
  rw [sub64_of_le le lt]
  refine List.map_congr_left fun k hk => ?_
  rw [List.mem_range] at hk
  exact sub64_of_le (by omega) lt

theorem mem_downTo {a b : Nat} (le : b ≤ a) (lt : a < 2 ^ 64) : i ∈ downTo a b ↔ b ≤ i ∧ i ≤ a := by
  rw [downTo_eq le lt, List.mem_map]
  constructor
  · rintro ⟨k, hk, rfl⟩
    rw [List.mem_range] at hk
    omega
  · intro inside
    exact ⟨a - i, List.mem_range.mpr (by omega), by omega⟩

theorem downTo_pairwise {a b : Nat} (le : b ≤ a) (lt : a < 2 ^ 64) : (downTo a b).Pairwise (· > ·) := by
  rw [downTo_eq le lt, List.pairwise_map]
  refine List.Pairwise.imp_of_mem (fun {k l} _ hl lt => ?_) List.pairwise_lt_range
  rw [List.mem_range] at hl
  omega

def upperRows (size : Size) (top bottom : Nat) : List Nat := downTo ((bottom - 1) * size.cols - 1) (top * size.cols)

theorem upperRows_spec (lt : top + 1 < bottom) (le : bottom ≤ size.rows) :
    (∀ i, i ∈ upperRows size top bottom ↔ top * size.cols ≤ i ∧ i < (bottom - 1) * size.cols) ∧
    (upperRows size top bottom).Pairwise (· > ·) := by
  have last := lastRow_eq size (Nat.zero_lt_of_lt lt)
  have rows : (top + 1) * size.cols ≤ (bottom - 1) * size.cols := Nat.mul_le_mul_right _ (by omega)
  have first : (top + 1) * size.cols = top * size.cols + size.cols := Nat.succ_mul _ _
  have ends : bottom * size.cols ≤ size.cells := Nat.mul_le_mul_right size.cols le
  have fits := size.cells_lt
  have pos := size.cols_pos
  have le : top * size.cols ≤ (bottom - 1) * size.cols - 1 := by omega
  have lt : (bottom - 1) * size.cols - 1 < 2 ^ 64 := by omega
  refine ⟨fun i => ?_, downTo_pairwise le lt⟩
  unfold upperRows
  rw [mem_downTo le lt]
  omega

theorem upperRows_down (lt : top + 1 < bottom) (le : bottom ≤ size.rows) (hi : i ∈ upperRows size top bottom) :
    add64 i size.cols = i + size.cols ∧ i + size.cols < size.cells := by
  have last := lastRow_eq size (Nat.zero_lt_of_lt lt)
  have ends : bottom * size.cols ≤ size.cells := Nat.mul_le_mul_right size.cols le
  have fits := size.cells_lt
  rw [(upperRows_spec lt le).1] at hi
  exact ⟨add64_of_lt (by omega), by omega⟩

theorem rowsDown_eq (lt : top + 1 < bottom) (le : bottom ≤ size.rows) (blank : FbChar) (cells : Nat → FbChar) :
    (fun i => if top * size.cols ≤ i ∧ i < (top + 1) * size.cols then blank
      else writes cells (add64 · size.cols) (fun i => some (cells i)) (upperRows size top bottom) i) =
      Screen.rowsDown size.cols top bottom blank cells := by
  have last := lastRow_eq size (Nat.zero_lt_of_lt lt)
  have first : (top + 1) * size.cols = top * size.cols + size.cols := Nat.succ_mul _ _
  rw [writes_eq (w := fun j => some (cells (j - size.cols)))
    (p := fun j => (top + 1) * size.cols ≤ j ∧ j < bottom * size.cols)]
  · funext i
    unfold Screen.rowsDown
    by_cases head : top * size.cols ≤ i ∧ i < (top + 1) * size.cols
    · rw [if_pos head, if_neg (by omega), if_pos head]
    · rw [if_neg head, if_neg head]
      rfl
  · intro i hi
    rw [(upperRows_down lt le hi).1, Nat.add_sub_cancel]
  · intro j
    constructor
    · rintro ⟨i, hi, rfl⟩
      rw [(upperRows_down lt le hi).1]
      rw [(upperRows_spec lt le).1] at hi
      omega
    · intro inside
      have hi : j - size.cols ∈ upperRows size top bottom := ((upperRows_spec lt le).1 _).mpr (by omega)
      exact ⟨_, hi, by rw [(upperRows_down lt le hi).1]; omega⟩

theorem Refines.revscroll (h : Refines r fb s) (scrolled : s.revscroll size ctx = some s') :
    ∃ fb', fb.revscroll ctx size = some fb' ∧ Refines r fb' s' := by
  obtain ⟨⟨lt, le⟩, rfl⟩ := (Option.ite_none_right_eq_some.mp scrolled).imp_right Option.some.inj
  have fits := size.cells_lt
  have rows := size.rows_le
  have top : mul64 ctx.scrollTopMargin size.cols = ctx.scrollTopMargin * size.cols := mul64_rows (by omega)
  have next : mul64 (add64 ctx.scrollTopMargin 1) size.cols = (ctx.scrollTopMargin + 1) * size.cols := by
    rw [add64_of_lt (by omega), mul64_rows (by omega)]
  have start : sub64 (mul64 (sub64 ctx.scrollBottomMargin 1) size.cols) 1 =
      (ctx.scrollBottomMargin - 1) * size.cols - 1 := by
    have pos : 0 < (ctx.scrollBottomMargin - 1) * size.cols := Nat.mul_pos (by omega) size.cols_pos
    have small : (ctx.scrollBottomMargin - 1) * size.cols ≤ size.cells := Nat.mul_le_mul_right _ (by omega)
    have back : sub64 ctx.scrollBottomMargin 1 = ctx.scrollBottomMargin - 1 := sub64_of_le (by omega) (by omega)
    rw [back, mul64_rows (by omega)]
    exact sub64_of_le pos (by omega)
  have inside : ∀ i ∈ upperRows size ctx.scrollTopMargin ctx.scrollBottomMargin,
      id i < size.cells ∧ add64 i size.cols < size.cells := by
    intro i hi
    obtain ⟨down, inside⟩ := upperRows_down lt le hi
    change i < size.cells ∧ _
    omega
  have ordered : (upperRows size ctx.scrollTopMargin ctx.scrollBottomMargin).Pairwise
      fun i j => add64 i size.cols ≠ id j := by
    refine List.Pairwise.imp_of_mem (fun {i j} hi _ gt => ?_) (upperRows_spec lt le).2
    have down := (upperRows_down lt le hi).1
    change add64 i size.cols ≠ j
    omega
  obtain ⟨fb₁, copied, h₁⟩ := h.copyCells id (add64 · size.cols) _ inside ordered
  obtain ⟨fb₂, blanked, h₂⟩ := h₁.blankCells (ctx.scrollTopMargin * size.cols)
    ((ctx.scrollTopMargin + 1) * size.cols) (Nat.mul_le_mul_right size.cols (by omega))
  refine ⟨fb₂, ?_, ?_⟩
  · unfold Fbterm.revscroll
    rw [start, top, next]
    exact Option.bind_eq_some_iff.mpr ⟨fb₁, copied, blanked⟩
  · rw [← rowsDown_eq lt le]
    exact h₂

end Scroll

end Voyager.Terminal
