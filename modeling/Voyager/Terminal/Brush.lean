import Voyager.Terminal.Context

/-!
# The cursor and the colours of the framebuffer backend

`brush` is a backend that has no text: it takes the calls that are safe while the scrolling
region is the whole screen.
-/

namespace Voyager.Terminal

open Lib

namespace Size

variable (size : Size)

def cells : Nat := size.rows * size.cols

theorem cells_lt : size.cells * 32 < 2 ^ 64 := size.fits

theorem rows_le : size.rows ≤ size.cells := Nat.le_mul_of_pos_right _ size.cols_pos

theorem cols_le : size.cols ≤ size.cells := Nat.le_mul_of_pos_left _ size.rows_pos

end Size

structure Palette where
  ansiColours : Nat → Nat -- Eight entries.
  ansiBrightColours : Nat → Nat
  defaultFg : Nat

structure Brush where
  textFg : Nat
  textBg : Nat
  cursorStatus : Bool
  cursorX : Nat
  cursorY : Nat
  savedStateTextFg : Nat
  savedStateTextBg : Nat
  savedStateCursorX : Nat
  savedStateCursorY : Nat

/-- `ansi_colours[i]` -/
def entry (table : Nat → Nat) (i : Nat) : Option Nat := if i < 8 then some (table i) else none

/-- What `fbterm_set_cursor_pos` makes of a coordinate; `(int) v < 0` looks at bit 31 only. -/
def clamp (limit v : Nat) : Nat :=
  if v ≥ limit then if v % 2 ^ 32 ≥ 2 ^ 31 then 0 else limit - 1 else v

theorem clamp_lt {limit v : Nat} (pos : 0 < limit) : clamp limit v < limit := by
  unfold clamp
  split_ifs <;> omega

theorem clamp_of_lt {limit v : Nat} (lt : v < limit) : clamp limit v = v := if_neg (Nat.not_le_of_lt lt)

namespace Brush

variable (palette : Palette) (size : Size) (ctx : TermContext) (b : Brush)

def setCursorPos (x y : Nat) : Brush := { b with cursorX := clamp size.cols x, cursorY := clamp size.rows y }

def saveState : Brush :=
  { b with
    savedStateTextFg := b.textFg
    savedStateTextBg := b.textBg
    savedStateCursorX := b.cursorX
    savedStateCursorY := b.cursorY }

def restoreState : Brush :=
  { b with
    textFg := b.savedStateTextFg
    textBg := b.savedStateTextBg
    cursorX := b.savedStateCursorX
    cursorY := b.savedStateCursorY }

def swapPalette : Brush := { b with textFg := b.textBg, textBg := b.textFg }

def setTextFg (fg : Nat) : Brush := { b with textFg := fg }

def setTextBg (bg : Nat) : Brush := { b with textBg := bg }

def perform : Operation → Option Brush
  | .enableCursor => some { b with cursorStatus := true }
  | .disableCursor => some { b with cursorStatus := false }
  | .setCursorPos x y => some (b.setCursorPos size x y)
  | .setTextFg fg => (entry palette.ansiColours fg).map b.setTextFg
  | .setTextBg bg => (entry palette.ansiColours bg).map b.setTextBg
  | .setTextFgBright fg => (entry palette.ansiBrightColours fg).map b.setTextFg
  | .setTextBgBright bg => (entry palette.ansiBrightColours bg).map b.setTextBg
  | .setTextFgRgb fg => some (b.setTextFg fg)
  | .setTextBgRgb bg => some (b.setTextBg bg)
  | .setTextFgDefault => some (b.setTextFg palette.defaultFg)
  | .setTextBgDefault => some (b.setTextBg 0xffffffff)
  | .swapPalette => some b.swapPalette
  | .saveState => some b.saveState
  | .restoreState => some b.restoreState
  | _ => some b

/-- The end of `fbterm_clear`. -/
def home (move : Bool) : Brush := if move then { b with cursorX := 0, cursorY := 0 } else b

/-- `cursor_x++` in `fbterm_raw_putchar`, and the step to the next row. -/
def advance : Brush :=
  let x := add64 b.cursorX 1
  if x = size.cols ∧ (b.cursorY < sub64 ctx.scrollBottomMargin 1 ∨ ctx.scrollEnabled) then
    { b with cursorX := 0, cursorY := add64 b.cursorY 1 }
  else { b with cursorX := x }

/-- `cursor_y--` before the scroll. -/
def stepBack : Brush := { b with cursorY := sub64 b.cursorY 1 }

/-- The cursor after `fbterm_raw_putchar`. -/
def afterChar : Brush :=
  let b := b.advance size ctx
  if b.cursorY = ctx.scrollBottomMargin then b.stepBack else b

def onGrid : Bool := b.cursorX < size.cols && b.cursorY < size.rows

end Brush

namespace TermContext

def whole (size : Size) (ctx : TermContext) : Bool :=
  ctx.scrollTopMargin = 0 && ctx.scrollBottomMargin = size.rows

end TermContext

def brush (palette : Palette) (size : Size) : Backend Brush where
  handle
    | (ctx, .rawPutchar _), b => if ctx.whole size then some (b.afterChar size ctx) else none
    | (_, .clear move), b => some (b.home move)
    | (ctx, .scroll), b => if ctx.whole size then some b else none
    | (ctx, .revscroll), b => if ctx.whole size ∧ 2 ≤ size.rows then some b else none
    | (_, .doubleBufferFlush), b => if b.onGrid size then some b else none
    | (_, op), b => b.perform palette size op
  answer b := (b.cursorX, b.cursorY)

end Voyager.Terminal
