import Voyager.Terminal.Brush

/-!
# A plain screen

What the framebuffer backend is for: cells that are written at once, and a display that shows
them as they were at the last flush.
-/

namespace Voyager.Terminal

open Lib

structure FbChar where
  c : UInt8
  fg : Nat
  bg : Nat
  deriving DecidableEq

def FbChar.inverse (ch : FbChar) : FbChar := { ch with fg := ch.bg, bg := ch.fg }

def Brush.char (b : Brush) (c : UInt8) : FbChar := { c, fg := b.textFg, bg := b.textBg }

def Brush.blank (b : Brush) : FbChar := b.char 0x20

/-- The cell `(x, y)` is at `y * cols + x`. -/
structure Screen extends Brush where
  cells : Nat → FbChar
  display : Nat → FbChar

def Size.cell (size : Size) (x y : Nat) : Nat := y * size.cols + x

namespace Screen

variable (size : Size) (ctx : TermContext) (s : Screen)

def withBrush (b : Brush) : Screen := { s with toBrush := b }

def put (ch : FbChar) (x y : Nat) : Screen :=
  if x < size.cols ∧ y < size.rows then { s with cells := Function.update s.cells (size.cell x y) ch } else s

def rowsUp (cols top bottom : Nat) (blank : FbChar) (cells : Nat → FbChar) (i : Nat) : FbChar :=
  if top * cols ≤ i ∧ i < (bottom - 1) * cols then cells (i + cols)
  else if (bottom - 1) * cols ≤ i ∧ i < bottom * cols then blank
  else cells i

def rowsDown (cols top bottom : Nat) (blank : FbChar) (cells : Nat → FbChar) (i : Nat) : FbChar :=
  if (top + 1) * cols ≤ i ∧ i < bottom * cols then cells (i - cols)
  else if top * cols ≤ i ∧ i < (top + 1) * cols then blank
  else cells i

def scroll : Option Screen :=
  if ctx.scrollTopMargin < ctx.scrollBottomMargin ∧ ctx.scrollBottomMargin ≤ size.rows then
    some { s with cells := rowsUp size.cols ctx.scrollTopMargin ctx.scrollBottomMargin s.blank s.cells }
  else none

def revscroll : Option Screen :=
  if ctx.scrollTopMargin + 1 < ctx.scrollBottomMargin ∧ ctx.scrollBottomMargin ≤ size.rows then
    some { s with cells := rowsDown size.cols ctx.scrollTopMargin ctx.scrollBottomMargin s.blank s.cells }
  else none

def clear (move : Bool) : Screen :=
  { s with cells := fun i => if i < size.cells then s.blank else s.cells i, toBrush := s.home move }

def stepOn : Option Screen :=
  let s := s.withBrush (s.advance size ctx)
  if s.cursorY = ctx.scrollBottomMargin then (s.withBrush s.stepBack).scroll size ctx else some s

def rawPutchar (c : UInt8) : Option Screen := (s.put size (s.char c) s.cursorX s.cursorY).stepOn size ctx

def moveCharacter (newX newY oldX oldY : Nat) : Screen :=
  if oldX < size.cols ∧ oldY < size.rows then s.put size (s.cells (size.cell oldX oldY)) newX newY else s

/-- What is on show: the cells, and the cursor if it is visible. -/
def picture (i : Nat) : FbChar :=
  if s.cursorStatus ∧ i = size.cell s.cursorX s.cursorY then (s.cells i).inverse else s.cells i

def flush : Option Screen := if s.onGrid size then some { s with display := s.picture size } else none

end Screen

def screen (palette : Palette) (size : Size) : Backend Screen where
  handle
    | (ctx, .rawPutchar c), s => s.rawPutchar size ctx c
    | (_, .clear move), s => some (s.clear size move)
    | (_, .moveCharacter newX newY oldX oldY), s => some (s.moveCharacter size newX newY oldX oldY)
    | (ctx, .scroll), s => s.scroll size ctx
    | (ctx, .revscroll), s => s.revscroll size ctx
    | (_, .doubleBufferFlush), s => s.flush size
    | (_, op), s => (s.toBrush.perform palette size op).map s.withBrush
  answer s := (s.cursorX, s.cursorY)

section Brush

variable {palette : Palette} {size : Size} {ctx : TermContext} {s : Screen}

@[simp] theorem Screen.put_toBrush (ch : FbChar) (x y : Nat) : (s.put size ch x y).toBrush = s.toBrush := by
  unfold put
  split <;> rfl

theorem Screen.scroll_whole (whole : ctx.whole size) :
    s.scroll size ctx = some { s with cells := rowsUp size.cols 0 size.rows s.blank s.cells } := by
  obtain ⟨top, bottom⟩ : ctx.scrollTopMargin = 0 ∧ ctx.scrollBottomMargin = size.rows := by
    simpa [TermContext.whole] using whole
  unfold scroll
  rw [top, bottom, if_pos ⟨size.rows_pos, Nat.le_refl _⟩]

theorem Screen.rawPutchar_brush {c : UInt8} (whole : ctx.whole size) :
    ∃ s', s.rawPutchar size ctx c = some s' ∧ s'.toBrush = s.toBrush.afterChar size ctx := by
  unfold rawPutchar stepOn Brush.afterChar withBrush
  dsimp only
  rw [put_toBrush]
  split
  · exact ⟨_, scroll_whole whole, rfl⟩
  · exact ⟨_, rfl, rfl⟩

theorem screen_simulates_brush : (screen palette size).Simulates (brush palette size) fun s b => s.toBrush = b where
  answer := by
    rintro s b rfl
    rfl
  handle := by
    rintro s b b' ⟨ctx, op⟩ rfl handled
    cases op with
    | rawPutchar c =>
      obtain ⟨whole, eq⟩ := Option.ite_none_right_eq_some.mp handled
      obtain ⟨s', put, same⟩ := Screen.rawPutchar_brush (s := s) whole
      exact ⟨s', put, same.trans (Option.some.inj eq)⟩
    | clear move => exact ⟨_, rfl, Option.some.inj handled⟩
    | moveCharacter newX newY oldX oldY =>
      refine ⟨_, rfl, ?_⟩
      unfold Screen.moveCharacter
      split
      · exact (Screen.put_toBrush _ _ _).trans (Option.some.inj handled)
      · exact Option.some.inj handled
    | scroll =>
      obtain ⟨whole, eq⟩ := Option.ite_none_right_eq_some.mp handled
      exact ⟨_, Screen.scroll_whole whole, Option.some.inj eq⟩
    | revscroll =>
      obtain ⟨⟨whole, two⟩, eq⟩ := Option.ite_none_right_eq_some.mp handled
      obtain ⟨top, bottom⟩ : ctx.scrollTopMargin = 0 ∧ ctx.scrollBottomMargin = size.rows := by
        simpa [TermContext.whole] using whole
      exact ⟨_, if_pos ⟨by omega, by omega⟩, Option.some.inj eq⟩
    | doubleBufferFlush =>
      obtain ⟨placed, eq⟩ := Option.ite_none_right_eq_some.mp handled
      exact ⟨_, if_pos placed, Option.some.inj eq⟩
    | _ => exact ⟨s.withBrush b', congrArg (Option.map s.withBrush) handled, rfl⟩

end Brush

end Voyager.Terminal
