import Voyager.Terminal.Queue

/-!
# The flush of the framebuffer backend

Until the end of a flush the cell of the old cursor may show anything: it is drawn last.
-/

namespace Voyager.Terminal

open Lib

section Index

variable {size : Size} {x y : Nat}

theorem offset_eq (hx : x < size.cols) (hy : y < size.rows) : add64 (mul64 y size.cols) x = size.cell x y := by
  have inside := Size.cell_lt hx hy
  have fits := size.cells_lt
  unfold Size.cell at inside ⊢
  rw [mul64_of_lt (by omega), add64_of_lt (by omega)]

theorem index_eq (hx : x < size.cols) (hy : y < size.rows) : add64 x (mul64 y size.cols) = size.cell x y := by
  rw [← offset_eq hx hy]
  unfold add64
  rw [Nat.add_comm]

end Index

namespace Fbterm

variable {size : Size} {fb : Fbterm} {i j : Nat}

theorem settle_map_self (ch : FbChar) : (fb.settle i ch).map i = none := Function.update_self _ _ _

theorem settle_map_of_ne (ch : FbChar) (ne : j ≠ i) : (fb.settle i ch).map j = fb.map j := Function.update_of_ne ne _ _

theorem settle_grid_self (ch : FbChar) : (fb.settle i ch).grid i = ch := Function.update_self _ _ _

theorem settle_grid_of_ne (ch : FbChar) (ne : j ≠ i) : (fb.settle i ch).grid j = fb.grid j :=
  Function.update_of_ne ne _ _

theorem settle_value_self (ch : FbChar) : (fb.settle i ch).value i = ch := by
  rw [value_of_none (settle_map_self ch), settle_grid_self]

theorem settle_value_of_ne (ch : FbChar) (ne : j ≠ i) : (fb.settle i ch).value j = fb.value j := by
  unfold value
  rw [settle_map_of_ne ch ne, settle_grid_of_ne ch ne]
  rfl

theorem settle_eq_self (free : fb.map i = none) : fb.settle i (fb.value i) = fb := by
  have map : Function.update fb.map i none = fb.map := Function.update_eq_self_iff.mpr free.symm
  unfold settle
  rw [value_of_none free, Function.update_eq_self, map]

end Fbterm

structure Draining {size : Size} (r : Raster size) (s : Screen) (n k : Nat) (fb : Fbterm) : Prop where
  brush : fb.toBrush = s.toBrush
  length : fb.queueI = n
  mapped : ∀ i < size.cells, ∀ q, fb.map i = some q → (k ≤ q ∧ q < n) ∧ fb.cellOf size q = i
  queued : ∀ q < n, ((fb.queue q).x < size.cols ∧ (fb.queue q).y < size.rows) ∧
    (fb.map (fb.cellOf size q) = some q ∨ fb.map (fb.cellOf size q) = none)
  cells : ∀ i < size.cells, fb.value i = s.cells i
  oldX : fb.oldCursorX < size.cols
  oldY : fb.oldCursorY < size.rows
  cursor : s.cursorStatus → fb.map (size.cell s.cursorX s.cursorY) = none ∧
    r.Shows fb.framebuffer (s.cells (size.cell s.cursorX s.cursorY)).inverse s.cursorX s.cursorY
  shows : ∀ x < size.cols, ∀ y < size.rows, ¬(x = fb.oldCursorX ∧ y = fb.oldCursorY) →
    ¬(s.cursorStatus ∧ x = s.cursorX ∧ y = s.cursorY) → r.Shows fb.framebuffer (fb.grid (size.cell x y)) x y
  framed : r.Framed fb.framebuffer

section Flush

variable {size : Size} {r : Raster size} {ctx : TermContext} {fb fb' : Fbterm} {s : Screen} {n k : Nat}

theorem Refines.grid_shows (h : Refines r fb s) {x y : Nat} (hx : x < size.cols) (hy : y < size.rows)
    (other : ¬(x = fb.oldCursorX ∧ y = fb.oldCursorY)) : r.Shows fb.framebuffer (fb.grid (size.cell x y)) x y := by
  rw [h.settled _ (Size.cell_lt hx hy) fun same => other (Size.cell_inj hx h.oldX same)]
  exact h.shows x hx y hy

theorem Refines.cursor (h : Refines r fb s) : fb.cursorX = s.cursorX ∧ fb.cursorY = s.cursorY :=
  ⟨congrArg Brush.cursorX h.brush, congrArg Brush.cursorY h.brush⟩

theorem drawCursor_eq (hx : fb.cursorX < size.cols) (hy : fb.cursorY < size.rows) {pixels : Pixels}
    (plotted : r.plotChar (fb.value (size.cell fb.cursorX fb.cursorY)).inverse fb.cursorX fb.cursorY fb.framebuffer =
      some pixels) :
    fb.drawCursor r = some ((fb.withPixels pixels).settle (size.cell fb.cursorX fb.cursorY)
      (fb.value (size.cell fb.cursorX fb.cursorY))) := by
  have look : fb.look size (size.cell fb.cursorX fb.cursorY) = some (fb.value (size.cell fb.cursorX fb.cursorY)) :=
    if_pos (Size.cell_lt hx hy)
  unfold Fbterm.drawCursor
  rw [index_eq hx hy]
  simp only [look, Option.bind_eq_bind, Option.bind_some, plotted, Option.pure_def]
  cases found : fb.map (size.cell fb.cursorX fb.cursorY) with
  | some q => exact congrArg some (if_pos (by simp [Fbterm.withPixels, found]))
  | none =>
    rw [if_neg (by simp [Fbterm.withPixels, found])]
    exact congrArg some (Fbterm.settle_eq_self (show (fb.withPixels pixels).map _ = none from found)).symm

theorem Refines.drawCursor (h : Refines r fb s) (on : s.cursorStatus) (hx : s.cursorX < size.cols)
    (hy : s.cursorY < size.rows) :
    ∃ fb', fb.drawCursor r = some fb' ∧ Draining r s fb.queueI 0 fb' := by
  have inside := Size.cell_lt hx hy
  obtain ⟨pixels, plotted, only, drawn⟩ := Raster.plotChar_shows (r := r) hx hy
    (s.cells (size.cell s.cursorX s.cursorY)).inverse fb.framebuffer
  rw [← h.cells _ inside, ← h.cursor.1, ← h.cursor.2] at plotted
  have drew := drawCursor_eq (h.cursor.1 ▸ hx) (h.cursor.2 ▸ hy) plotted
  rw [h.cursor.1, h.cursor.2, h.cells _ inside] at drew
  refine ⟨_, drew, ?_⟩
  exact {
    brush := h.brush
    length := rfl
    mapped := fun i hi q found => by
      by_cases here : i = size.cell s.cursorX s.cursorY
      · rw [here, Fbterm.settle_map_self] at found
        cases found
      · rw [Fbterm.settle_map_of_ne _ here] at found
        exact ⟨⟨Nat.zero_le q, (h.mapped i hi q found).1⟩, (h.mapped i hi q found).2⟩
    queued := fun q hq => by
      refine ⟨(h.queued q hq).1, ?_⟩
      by_cases here : fb.cellOf size q = size.cell s.cursorX s.cursorY
      · exact .inr ((congrArg _ here).trans (Fbterm.settle_map_self _))
      · exact .inl ((Fbterm.settle_map_of_ne _ here).trans (h.queued q hq).2)
    cells := fun i hi => by
      by_cases here : i = size.cell s.cursorX s.cursorY
      · subst here
        exact Fbterm.settle_value_self _
      · exact (Fbterm.settle_value_of_ne _ here).trans (h.cells i hi)
    oldX := h.oldX
    oldY := h.oldY
    cursor := fun _ => ⟨Fbterm.settle_map_self _, drawn⟩
    shows := fun x hx' y hy' old new => by
      have apart : ¬(x = s.cursorX ∧ y = s.cursorY) := fun same => new ⟨on, same⟩
      rw [Fbterm.settle_grid_of_ne _ fun same => apart (Size.cell_inj hx' hx same)]
      exact only.shows hx hy hx' hy' apart (h.grid_shows hx' hy' old)
    framed := only.framed hx hy h.framed }

theorem Refines.draining (h : Refines r fb s) (off : s.cursorStatus = false) : Draining r s fb.queueI 0 fb where
  brush := h.brush
  length := rfl
  mapped := fun i hi q found => ⟨⟨Nat.zero_le q, (h.mapped i hi q found).1⟩, (h.mapped i hi q found).2⟩
  queued := fun q hq => ⟨(h.queued q hq).1, .inl (h.queued q hq).2⟩
  cells := h.cells
  oldX := h.oldX
  oldY := h.oldY
  cursor := fun on => absurd (on.symm.trans off) nofun
  shows := fun _ hx _ hy old _ => h.grid_shows hx hy old
  framed := h.framed

namespace Draining

theorem apart (h : Draining r s n k fb) {q : Nat} (found : fb.map (fb.cellOf size q) = some q) (on : s.cursorStatus) :
    ¬(s.cursorX = (fb.queue q).x ∧ s.cursorY = (fb.queue q).y) := by
  rintro ⟨hx, hy⟩
  have gone := (h.cursor on).1
  rw [hx, hy, show fb.map (size.cell _ _) = _ from found] at gone
  cases gone

theorem plot (h : Draining r s n k fb) (hk : k < n) (found : fb.map (fb.cellOf size k) = some k) :
    ∃ pixels, fb.plotItem r (fb.grid (fb.cellOf size k)) (fb.queue k) = some pixels ∧
      r.OnlyIn (fb.queue k).x (fb.queue k).y fb.framebuffer pixels ∧
      (¬((fb.queue k).x = fb.oldCursorX ∧ (fb.queue k).y = fb.oldCursorY) →
        r.Shows pixels (fb.queue k).c (fb.queue k).x (fb.queue k).y) := by
  obtain ⟨⟨hx, hy⟩, -⟩ := h.queued k hk
  unfold Fbterm.plotItem
  split
  · rename_i same
    obtain ⟨pixels, plotted, only, drawn⟩ := Raster.plotCharFast_shows (r := r) hx hy
      (fb.grid (fb.cellOf size k)) (fb.queue k).c fb.framebuffer
    refine ⟨pixels, plotted, only, fun old => drawn same.2.symm same.1.symm (h.shows _ hx _ hy old ?_)⟩
    rintro ⟨on, here⟩
    exact h.apart found on ⟨here.1.symm, here.2.symm⟩
  · obtain ⟨pixels, plotted, only, drawn⟩ := Raster.plotChar_shows (r := r) hx hy (fb.queue k).c fb.framebuffer
    exact ⟨pixels, plotted, only, fun _ => drawn⟩

theorem step (hcx : s.cursorX < size.cols) (hcy : s.cursorY < size.rows) (h : Draining r s n k fb) (hk : k < n) :
    ∃ fb', fb.flushItem r k = some fb' ∧ Draining r s n (k + 1) fb' := by
  obtain ⟨⟨hx, hy⟩, place⟩ := h.queued k hk
  have inside : fb.cellOf size k < size.cells := Size.cell_lt hx hy
  have offset : add64 (mul64 (fb.queue k).y size.cols) (fb.queue k).x = fb.cellOf size k := offset_eq hx hy
  unfold Fbterm.flushItem
  dsimp only
  rw [offset, if_pos inside]
  rcases place with found | free
  · obtain ⟨pixels, plotted, only, drawn⟩ := h.plot hk found
    have value : s.cells (fb.cellOf size k) = (fb.queue k).c := by
      rw [← h.cells _ inside, Fbterm.value_of_map found]
    have ne {x y : Nat} (hx' : x < size.cols) (apart : ¬(x = (fb.queue k).x ∧ y = (fb.queue k).y)) :
        size.cell x y ≠ fb.cellOf size k := fun same => apart (Size.cell_inj hx' hx same)
    rw [if_neg (by simp [found])]
    refine ⟨(fb.withPixels pixels).settle (fb.cellOf size k) (fb.queue k).c, ?_, ?_⟩
    · exact Option.bind_eq_some_iff.mpr ⟨pixels, plotted, rfl⟩
    exact {
      brush := h.brush
      length := h.length
      mapped := fun i hi q hq => by
        by_cases here : i = fb.cellOf size k
        · rw [here, Fbterm.settle_map_self] at hq
          cases hq
        · rw [Fbterm.settle_map_of_ne _ here] at hq
          obtain ⟨⟨le, lt⟩, named⟩ := h.mapped i hi q hq
          refine ⟨⟨Nat.lt_of_le_of_ne le ?_, lt⟩, named⟩
          rintro rfl
          exact here named.symm
      queued := fun q hq => by
        refine ⟨(h.queued q hq).1, ?_⟩
        by_cases here : fb.cellOf size q = fb.cellOf size k
        · exact .inr ((congrArg _ here).trans (Fbterm.settle_map_self _))
        · exact (h.queued q hq).2.imp (Fbterm.settle_map_of_ne _ here).trans (Fbterm.settle_map_of_ne _ here).trans
      cells := fun i hi => by
        by_cases here : i = fb.cellOf size k
        · rw [here, value]
          exact Fbterm.settle_value_self _
        · exact (Fbterm.settle_value_of_ne _ here).trans (h.cells i hi)
      oldX := h.oldX
      oldY := h.oldY
      cursor := fun on => by
        refine ⟨?_, only.shows hx hy hcx hcy (h.apart found on) (h.cursor on).2⟩
        rw [Fbterm.settle_map_of_ne _ (ne hcx (h.apart found on))]
        exact (h.cursor on).1
      shows := fun x hx' y hy' old new => by
        by_cases here : x = (fb.queue k).x ∧ y = (fb.queue k).y
        · obtain ⟨rfl, rfl⟩ := here
          rw [← show fb.cellOf size k = size.cell (fb.queue k).x (fb.queue k).y from rfl, Fbterm.settle_grid_self]
          exact drawn old
        · rw [Fbterm.settle_grid_of_ne _ (ne hx' here)]
          exact only.shows hx hy hx' hy' here (h.shows x hx' y hy' old new)
      framed := only.framed hx hy h.framed }
  · rw [if_pos free]
    refine ⟨fb, rfl, { h with mapped := fun i hi q hq => ?_ }⟩
    obtain ⟨⟨le, lt⟩, named⟩ := h.mapped i hi q hq
    refine ⟨⟨Nat.lt_of_le_of_ne le ?_, lt⟩, named⟩
    rintro rfl
    rw [named, hq] at free
    cases free

end Draining

theorem Draining.grid (h : Draining r s n n fb) {i : Nat} (hi : i < size.cells) : fb.map i = none ∧ fb.grid i = s.cells i := by
  cases found : fb.map i with
  | none => exact ⟨rfl, (Fbterm.value_of_none found).symm.trans (h.cells i hi)⟩
  | some q =>
    have := (h.mapped i hi q found).1
    omega

theorem Draining.cursor_eq (h : Draining r s n k fb) : fb.cursorX = s.cursorX ∧ fb.cursorY = s.cursorY :=
  ⟨congrArg Brush.cursorX h.brush, congrArg Brush.cursorY h.brush⟩

structure Drawn {size : Size} (r : Raster size) (s : Screen) (fb : Fbterm) : Prop where
  brush : fb.toBrush = s.toBrush
  grid : ∀ i < size.cells, fb.map i = none ∧ fb.grid i = s.cells i
  shows : ∀ x < size.cols, ∀ y < size.rows, r.Shows fb.framebuffer (s.picture size (size.cell x y)) x y
  framed : r.Framed fb.framebuffer

theorem cell_eq_cursor (hcx : s.cursorX < size.cols) {x y : Nat} (hx : x < size.cols) :
    size.cell x y = size.cell s.cursorX s.cursorY ↔ x = s.cursorX ∧ y = s.cursorY :=
  ⟨Size.cell_inj hx hcx, fun same => by rw [same.1, same.2]⟩

theorem Draining.cursor_picture (h : Draining r s n n fb) (on : s.cursorStatus) :
    r.Shows fb.framebuffer (s.picture size (size.cell s.cursorX s.cursorY)) s.cursorX s.cursorY := by
  unfold Screen.picture
  rw [if_pos ⟨on, rfl⟩]
  exact (h.cursor on).2

theorem Draining.picture (hcx : s.cursorX < size.cols) (h : Draining r s n n fb) {x y : Nat} (hx : x < size.cols)
    (hy : y < size.rows) (old : ¬(x = fb.oldCursorX ∧ y = fb.oldCursorY)) :
    r.Shows fb.framebuffer (s.picture size (size.cell x y)) x y := by
  by_cases here : s.cursorStatus ∧ size.cell x y = size.cell s.cursorX s.cursorY
  · obtain ⟨rfl, rfl⟩ := (cell_eq_cursor hcx hx).mp here.2
    exact h.cursor_picture here.1
  · unfold Screen.picture
    rw [if_neg here, ← (h.grid (Size.cell_lt hx hy)).2]
    exact h.shows x hx y hy old fun same => here ⟨same.1, (cell_eq_cursor hcx hx).mpr same.2⟩

theorem Draining.restoreOld (hcx : s.cursorX < size.cols) (h : Draining r s n n fb) :
    ∃ fb', fb.restoreOld r = some fb' ∧ Drawn r s fb' := by
  have inside := Size.cell_lt h.oldX h.oldY
  unfold Fbterm.restoreOld
  rw [h.cursor_eq.1, h.cursor_eq.2, show fb.cursorStatus = s.cursorStatus from congrArg Brush.cursorStatus h.brush,
    index_eq h.oldX h.oldY]
  by_cases moved : (fb.oldCursorX ≠ s.cursorX ∨ fb.oldCursorY ≠ s.cursorY) ∨ s.cursorStatus = false
  · rw [if_pos moved]
    obtain ⟨pixels, plotted, only, drawn⟩ := Raster.plotChar_shows (r := r) h.oldX h.oldY
      (fb.grid (size.cell fb.oldCursorX fb.oldCursorY)) fb.framebuffer
    refine ⟨fb.withPixels pixels, Option.bind_eq_some_iff.mpr ⟨pixels, plotted, rfl⟩, h.brush, fun i hi => h.grid hi,
      fun x hx y hy => ?_, only.framed h.oldX h.oldY h.framed⟩
    by_cases old : x = fb.oldCursorX ∧ y = fb.oldCursorY
    · obtain ⟨rfl, rfl⟩ := old
      unfold Screen.picture
      rw [if_neg fun here => ?_, ← (h.grid inside).2]
      · exact drawn
      · have same := (cell_eq_cursor hcx h.oldX).mp here.2
        simp [here.1, same.1, same.2] at moved
    · exact only.shows h.oldX h.oldY hx hy old (h.picture hcx hx hy old)
  · rw [if_neg moved]
    have on : s.cursorStatus := by simpa using fun off => moved (.inr off)
    have still : fb.oldCursorX = s.cursorX ∧ fb.oldCursorY = s.cursorY :=
      ⟨by_contra fun ne => moved (.inl (.inl ne)), by_contra fun ne => moved (.inl (.inr ne))⟩
    refine ⟨fb, rfl, h.brush, fun i hi => h.grid hi, fun x hx y hy => ?_, h.framed⟩
    by_cases old : x = fb.oldCursorX ∧ y = fb.oldCursorY
    · rw [old.1, old.2, still.1, still.2]
      exact h.cursor_picture on
    · exact h.picture hcx hx hy old

theorem Refines.flush (h : Refines r fb s) {s' : Screen} (flushed : s.flush size = some s') :
    ∃ fb', fb.doubleBufferFlush r = some fb' ∧ Refines r fb' s' := by
  obtain ⟨placed, rfl⟩ := (Option.ite_none_right_eq_some.mp flushed).imp_right Option.some.inj
  obtain ⟨hcx, hcy⟩ : s.cursorX < size.cols ∧ s.cursorY < size.rows := by simpa [Brush.onGrid] using placed
  obtain ⟨fb₁, shown, h₁⟩ : ∃ fb', fb.showCursor r = some fb' ∧ Draining r s fb.queueI 0 fb' := by
    unfold Fbterm.showCursor
    rw [show fb.cursorStatus = s.cursorStatus from congrArg Brush.cursorStatus h.brush]
    cases on : s.cursorStatus with
    | true => exact h.drawCursor on hcx hcy
    | false => exact ⟨fb, rfl, h.draining on⟩
  obtain ⟨fb₂, drained, h₂⟩ := foldlM_range (fun k hk fb h => Draining.step hcx hcy h hk) h₁
  obtain ⟨fb₃, restored, h₃⟩ := h₂.restoreOld hcx
  refine ⟨{ fb₃ with oldCursorX := fb₃.cursorX, oldCursorY := fb₃.cursorY, queueI := 0 }, ?_, ?_⟩
  · unfold Fbterm.doubleBufferFlush
    simp only [Option.bind_eq_bind, shown, Option.bind_some, h₁.length, drained, restored, Option.pure_def]
  have column : fb₃.cursorX = s.cursorX := congrArg Brush.cursorX h₃.brush
  have line : fb₃.cursorY = s.cursorY := congrArg Brush.cursorY h₃.brush
  have free {i q : Nat} (hi : i < size.cells) (found : fb₃.map i = some q) : False :=
    nomatch (h₃.grid i hi).1.symm.trans found
  exact {
    mapped := fun i hi q found => (free hi found).elim
    queued := fun q hq => absurd hq (Nat.not_lt_zero q)
    brush := h₃.brush
    cells := fun i hi => (Fbterm.value_of_none (h₃.grid i hi).1).trans (h₃.grid i hi).2
    oldX := column.symm ▸ hcx
    oldY := line.symm ▸ hcy
    settled := fun i hi other => by
      have other : i ≠ size.cell s.cursorX s.cursorY := column ▸ line ▸ other
      refine (h₃.grid i hi).2.trans ?_
      exact (if_neg fun here => other here.2).symm
    shows := h₃.shows
    framed := h₃.framed }

theorem Refines.stepOn (h : Refines r fb s) {s' : Screen} (moved : s.stepOn size ctx = some s') :
    ∃ fb', fb.stepOn ctx size = some fb' ∧ Refines r fb' s' := by
  have h₁ := h.withBrush (s.advance size ctx)
  unfold Screen.stepOn at moved
  unfold Fbterm.stepOn
  rw [h.brush]
  dsimp only at moved ⊢
  by_cases last : (s.advance size ctx).cursorY = ctx.scrollBottomMargin
  · rw [if_pos (show (s.withBrush (s.advance size ctx)).cursorY = _ from last)] at moved
    rw [if_pos (show (fb.withBrush (s.advance size ctx)).cursorY = _ from last)]
    exact (h₁.withBrush _).scroll moved
  · rw [if_neg (show ¬(s.withBrush (s.advance size ctx)).cursorY = _ from last)] at moved
    rw [if_neg (show ¬(fb.withBrush (s.advance size ctx)).cursorY = _ from last)]
    exact ⟨_, rfl, Option.some.inj moved ▸ h₁⟩

theorem Refines.rawPutchar (h : Refines r fb s) {c : UInt8} {s' : Screen} (put : s.rawPutchar size ctx c = some s') :
    ∃ fb', fb.rawPutchar ctx size c = some fb' ∧ Refines r fb' s' := by
  obtain ⟨fb₁, pushed, h₁⟩ := h.push (s.char c) s.cursorX s.cursorY
  obtain ⟨fb₂, moved, h₂⟩ := h₁.stepOn put
  rw [← h.brush] at pushed
  exact ⟨fb₂, Option.bind_eq_some_iff.mpr ⟨fb₁, pushed, moved⟩, h₂⟩

theorem Refines.clear (h : Refines r fb s) (move : Bool) :
    ∃ fb', fb.clear size move = some fb' ∧ Refines r fb' (s.clear size move) := by
  obtain ⟨fb₁, blanked, h₁⟩ := h.blankCells 0 size.cells (Nat.le_refl _)
  have h₂ := h₁.withBrush (fb₁.home move)
  rw [h₁.brush] at h₂
  refine ⟨_, Option.bind_eq_some_iff.mpr ⟨fb₁, blanked, rfl⟩, ?_⟩
  rw [h₁.brush]
  simp only [Nat.zero_le, true_and] at h₂
  exact h₂

theorem Refines.moveCharacter (h : Refines r fb s) (newX newY oldX oldY : Nat) :
    ∃ fb', fb.moveCharacter size newX newY oldX oldY = some fb' ∧
      Refines r fb' (s.moveCharacter size newX newY oldX oldY) := by
  unfold Fbterm.moveCharacter Screen.moveCharacter
  by_cases old : oldX < size.cols ∧ oldY < size.rows
  · have inside := Size.cell_lt old.1 old.2
    rw [if_pos old]
    by_cases new : newX < size.cols ∧ newY < size.rows
    · rw [if_neg (by omega)]
      obtain ⟨fb', pushed, h'⟩ := h.push (s.cells (size.cell oldX oldY)) newX newY
      refine ⟨fb', ?_, h'⟩
      unfold Fbterm.look
      rw [if_pos inside, h.cells _ inside]
      exact pushed
    · rw [if_pos (by omega)]
      unfold Screen.put
      rw [if_neg new]
      exact ⟨fb, rfl, h⟩
  · rw [if_neg old, if_pos (by omega)]
    exact ⟨fb, rfl, h⟩

theorem Refines.perform (h : Refines r fb s) (palette : Palette) (op : Operation) (s' : Screen)
    (performed : (s.toBrush.perform palette size op).map s.withBrush = some s') :
    ∃ fb', (fb.toBrush.perform palette size op).map fb.withBrush = some fb' ∧ Refines r fb' s' := by
  obtain ⟨b, done, rfl⟩ := Option.map_eq_some_iff.mp performed
  rw [h.brush, done]
  exact ⟨fb.withBrush b, rfl, h.withBrush b⟩

theorem fbterm_simulates_screen {palette : Palette} :
    (fbterm palette r).Simulates (screen palette size) (Refines r) where
  answer := fun h => Prod.ext h.cursor.1 h.cursor.2
  handle := by
    rintro fb s s' ⟨ctx, op⟩ h handled
    have plain := h.perform palette op s'
    cases op with
    | rawPutchar c => exact h.rawPutchar handled
    | clear move => exact Option.some.inj handled ▸ h.clear move
    | moveCharacter newX newY oldX oldY => exact Option.some.inj handled ▸ h.moveCharacter newX newY oldX oldY
    | scroll => exact h.scroll handled
    | revscroll => exact h.revscroll handled
    | doubleBufferFlush => exact h.flush handled
    | _ => exact plain handled

end Flush

end Voyager.Terminal
