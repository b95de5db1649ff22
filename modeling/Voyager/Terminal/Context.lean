import Voyager.Lib.Calls
import Voyager.Lib.Cells
import Voyager.Machine

/-!
# The terminal context

`rows` and `cols` are set once and stand in `Size`; the fields that change stand in
`TermContext`. The functions of term.c are `Code`: they reach the backend only through the
function pointers of the context.
-/

namespace Voyager.Terminal

open Lib

/-- The text grid. One queue item takes 32 bytes, and there is one for each cell. -/
structure Size where
  rows : Nat
  cols : Nat
  rows_pos : 0 < rows
  cols_pos : 0 < cols
  fits : rows * cols * 32 < 2 ^ 64

theorem Size.vga_fits : 25 * 80 * 32 < 2 ^ 64 := by decide

def Size.vga : Size where
  rows := 25
  cols := 80
  rows_pos := Nat.succ_pos 24
  cols_pos := Nat.succ_pos 79
  fits := Size.vga_fits

inductive Charset where
  | default
  | decSpecial
  deriving DecidableEq

/-- The fields that take an escape sequence apart. -/
structure Parser where
  controlSequence : Bool
  csi : Bool
  escape : Bool
  rrr : Bool
  discardNext : Bool
  decPrivate : Bool
  gSelect : Nat
  escapeOffset : Nat
  escValuesI : Nat
  escValues : Nat → Nat -- `TERM_MAX_ESC_VALUES` entries of 32 bits.

/-- The fields that `ESC 7` saves, in the context and in the `saved_state` fields. -/
structure Pen where
  bold : Bool
  reverseVideo : Bool
  currentCharset : Nat
  currentPrimary : Option Nat -- `none` is `(size_t) -1`.

structure TermContext extends Parser, Pen where
  tabSize : Nat
  autoflush : Bool
  scrollEnabled : Bool
  insertMode : Bool
  charsets : Nat → Charset -- Two entries.
  savedCursorX : Nat
  savedCursorY : Nat
  scrollTopMargin : Nat
  scrollBottomMargin : Nat
  savedState : Pen
  inBootloader : Bool
  callback : Bool -- Whether it is not NULL.

/-- What term.c tells a client through `callback`. -/
inductive Notice where
  | dec (count : Nat) (c : UInt8)
  | bell
  | privateId
  | statusReport
  | posReport (x y : Nat)
  | kbdLeds (leds : Nat)
  | mode (count : Nat) (c : UInt8)
  | linux (count : Nat)

inductive Operation where
  | rawPutchar (c : UInt8)
  | clear (move : Bool)
  | enableCursor
  | disableCursor
  | setCursorPos (x y : Nat)
  | setTextFg (fg : Nat)
  | setTextBg (bg : Nat)
  | setTextFgBright (fg : Nat)
  | setTextBgBright (bg : Nat)
  | setTextFgRgb (fg : Nat)
  | setTextBgRgb (bg : Nat)
  | setTextFgDefault
  | setTextBgDefault
  | moveCharacter (newX newY oldX oldY : Nat)
  | scroll
  | revscroll
  | swapPalette
  | saveState
  | restoreState
  | doubleBufferFlush
  | callback (notice : Notice)

/-- A call passes the context, and `get_cursor_pos` answers with the column and the row. -/
abbrev Code := Calls (TermContext × Operation) (Nat × Nat)

abbrev Backend := Device (TermContext × Operation) (Nat × Nat)

def perform (ctx : TermContext) (op : Operation) : Code Unit := .call (ctx, op) (.done ())

def getCursorPos : Code (Nat × Nat) := .ask .done

def performIf (b : Bool) (ctx : TermContext) (op : Operation) : Code Unit :=
  if b then perform ctx op else .done ()

def notify (ctx : TermContext) (notice : Notice) : Code Unit := performIf ctx.callback ctx (.callback notice)

/-- The values of `for (i = a;; i--)` with a `break` once `i == b`. -/
def downTo (a b : Nat) : List Nat := (List.range (sub64 a b + 1)).map (sub64 a)

def termMaxEscValues : Nat := 16

namespace Parser

/-- `esc_values[0]` to `esc_values[esc_values_i - 1]`. -/
def params (p : Parser) : List Nat := front p.escValues p.escValuesI

def setValue (p : Parser) (i value : Nat) : Parser :=
  { p with escValues := Function.update p.escValues i (value % 2 ^ 32) }

end Parser

namespace TermContext

def withParser (ctx : TermContext) (p : Parser) : TermContext := { ctx with toParser := p }

def withPen (ctx : TermContext) (pen : Pen) : TermContext := { ctx with toPen := pen }

def setEscValue (ctx : TermContext) (i value : Nat) : TermContext := ctx.withParser (ctx.toParser.setValue i value)

def zeroed : TermContext where
  controlSequence := false
  csi := false
  escape := false
  rrr := false
  discardNext := false
  decPrivate := false
  gSelect := 0
  escapeOffset := 0
  escValuesI := 0
  escValues := fun _ => 0
  bold := false
  reverseVideo := false
  currentCharset := 0
  currentPrimary := some 0
  tabSize := 0
  autoflush := false
  scrollEnabled := false
  insertMode := false
  charsets := fun _ => .default
  savedCursorX := 0
  savedCursorY := 0
  scrollTopMargin := 0
  scrollBottomMargin := 0
  savedState := { bold := false, reverseVideo := false, currentCharset := 0, currentPrimary := some 0 }
  inBootloader := false
  callback := false

def reinit (size : Size) (ctx : TermContext) : TermContext :=
  { ctx with
    tabSize := 8
    autoflush := true
    scrollEnabled := true
    controlSequence := false
    csi := false
    escape := false
    rrr := false
    discardNext := false
    bold := false
    reverseVideo := false
    decPrivate := false
    insertMode := false
    gSelect := 0
    charsets := fun i => if i = 0 then .default else .decSpecial
    currentCharset := 0
    escapeOffset := 0
    escValuesI := 0
    savedCursorX := 0
    savedCursorY := 0
    currentPrimary := none
    scrollTopMargin := 0
    scrollBottomMargin := size.rows }

end TermContext

end Voyager.Terminal
