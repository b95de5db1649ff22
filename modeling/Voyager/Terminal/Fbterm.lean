import Voyager.Terminal.Raster

/-!
# framebuffer.c

A character goes to a queue first and reaches the pixels when the queue is flushed. An access
outside an array is `none`.
-/

namespace Voyager.Terminal

open Lib

def mul64 (x y : Nat) : Nat := x * y % 2 ^ 64

theorem mul64_of_lt {x y : Nat} (h : x * y < 2 ^ 64) : mul64 x y = x * y := Nat.mod_eq_of_lt h

structure QueueItem where
  x : Nat
  y : Nat
  c : FbChar

structure Fbterm extends Brush where
  grid : Nat → FbChar
  queue : Nat → QueueItem
  queueI : Nat
  map : Nat → Option Nat -- An index into `queue`; `none` is NULL.
  oldCursorX : Nat
  oldCursorY : Nat
  framebuffer : Pixels

namespace Fbterm

variable {size : Size} (r : Raster size) (ctx : TermContext) (fb : Fbterm)

def withBrush (b : Brush) : Fbterm := { fb with toBrush := b }

/-- The character in a cell: that of the queue, if there is one. -/
def value (i : Nat) : FbChar :=
  match fb.map i with
  | some q => (fb.queue q).c
  | none => fb.grid i

def look (size : Size) (i : Nat) : Option FbChar := if i < size.cells then some (fb.value i) else none

def pushToQueue (size : Size) (ch : FbChar) (x y : Nat) : Option Fbterm :=
  if x ≥ size.cols ∨ y ≥ size.rows then some fb
  else match fb.map (size.cell x y) with
    | some q => some { fb with queue := Function.update fb.queue q { fb.queue q with c := ch } }
    | none =>
      if fb.grid (size.cell x y) = ch then some fb
      else if fb.queueI < size.cells then
        some { fb with
          queue := Function.update fb.queue fb.queueI { x, y, c := ch }
          queueI := fb.queueI + 1
          map := Function.update fb.map (size.cell x y) (some fb.queueI) }
      else none

/-- The character in cell `i`, pushed to cell `j`. -/
def copyCell (size : Size) (i j : Nat) : Option Fbterm := do
  let c ← fb.look size i
  fb.pushToQueue size c (j % size.cols) (j / size.cols)

def blankCells (size : Size) (first stop : Nat) : Option Fbterm :=
  (List.range' first (stop - first)).foldlM (fun fb i => fb.pushToQueue size fb.blank (i % size.cols) (i / size.cols)) fb

def revscroll (size : Size) : Option Fbterm := do
  let start := sub64 (mul64 (sub64 ctx.scrollBottomMargin 1) size.cols) 1
  let fb ← (downTo start (mul64 ctx.scrollTopMargin size.cols)).foldlM
    (fun fb i => fb.copyCell size i (add64 i size.cols)) fb
  fb.blankCells size (mul64 ctx.scrollTopMargin size.cols) (mul64 (add64 ctx.scrollTopMargin 1) size.cols)

def scroll (size : Size) : Option Fbterm := do
  let start := mul64 (add64 ctx.scrollTopMargin 1) size.cols
  let stop := mul64 ctx.scrollBottomMargin size.cols
  let fb ← (List.range' start (stop - start)).foldlM (fun fb i => fb.copyCell size i (sub64 i size.cols)) fb
  fb.blankCells size (mul64 (sub64 ctx.scrollBottomMargin 1) size.cols) stop

def clear (size : Size) (move : Bool) : Option Fbterm := do
  let fb ← fb.blankCells size 0 size.cells
  return fb.withBrush (fb.home move)

def moveCharacter (size : Size) (newX newY oldX oldY : Nat) : Option Fbterm :=
  if oldX ≥ size.cols ∨ oldY ≥ size.rows ∨ newX ≥ size.cols ∨ newY ≥ size.rows then some fb
  else do
    let c ← fb.look size (size.cell oldX oldY)
    fb.pushToQueue size c newX newY

def stepOn (size : Size) : Option Fbterm :=
  let fb := fb.withBrush (fb.advance size ctx)
  if fb.cursorY = ctx.scrollBottomMargin then (fb.withBrush fb.stepBack).scroll ctx size else some fb

def rawPutchar (size : Size) (c : UInt8) : Option Fbterm := do
  let fb ← fb.pushToQueue size (fb.char c) fb.cursorX fb.cursorY
  fb.stepOn ctx size

def withPixels (pixels : Pixels) : Fbterm := { fb with framebuffer := pixels }

def settle (i : Nat) (ch : FbChar) : Fbterm :=
  { fb with grid := Function.update fb.grid i ch, map := Function.update fb.map i none }

def drawCursor : Option Fbterm := do
  let i := add64 fb.cursorX (mul64 fb.cursorY size.cols)
  let c ← fb.look size i
  let pixels ← r.plotChar c.inverse fb.cursorX fb.cursorY fb.framebuffer
  let fb := fb.withPixels pixels
  return if (fb.map i).isSome then fb.settle i c else fb

def showCursor : Option Fbterm := if fb.cursorStatus then fb.drawCursor r else some fb

def plotItem (old : FbChar) (q : QueueItem) : Option Pixels :=
  if q.c.bg = old.bg ∧ q.c.fg = old.fg then r.plotCharFast old q.c q.x q.y fb.framebuffer
  else r.plotChar q.c q.x q.y fb.framebuffer

def flushItem (k : Nat) : Option Fbterm :=
  let q := fb.queue k
  let offset := add64 (mul64 q.y size.cols) q.x
  if offset < size.cells then
    if fb.map offset = none then some fb
    else do
      let pixels ← fb.plotItem r (fb.grid offset) q
      return (fb.withPixels pixels).settle offset q.c
  else none

/-- The old cursor is drawn over. Off the grid `plot_char` returns before it reads the cell. -/
def restoreOld : Option Fbterm :=
  if (fb.oldCursorX ≠ fb.cursorX ∨ fb.oldCursorY ≠ fb.cursorY) ∨ fb.cursorStatus = false then do
    let i := add64 fb.oldCursorX (mul64 fb.oldCursorY size.cols)
    let pixels ← r.plotChar (fb.grid i) fb.oldCursorX fb.oldCursorY fb.framebuffer
    return fb.withPixels pixels
  else some fb

def doubleBufferFlush : Option Fbterm := do
  let fb ← fb.showCursor r
  let fb ← (List.range fb.queueI).foldlM (fun fb k => fb.flushItem r k) fb
  let fb ← fb.restoreOld r
  return { fb with oldCursorX := fb.cursorX, oldCursorY := fb.cursorY, queueI := 0 }

/-- The loops over `y` and `x` in `fbterm_full_refresh`. -/
def screenPixels : List (Nat × Nat) :=
  (List.range r.height).flatMap fun Y => (List.range r.width).map fun X => (X, Y)

def drawCanvas (pixels : Pixels) : Option Pixels :=
  (screenPixels r).foldlM (fun pixels p => r.setPixel pixels p.1 p.2 (r.canvas (p.2 * r.width + p.1))) pixels

def fullRefresh : Option Fbterm := do
  let pixels ← drawCanvas r fb.framebuffer
  let pixels ← (List.range size.cells).foldlM
    (fun pixels i => r.plotChar (fb.grid i) (i % size.cols) (i / size.cols) pixels) pixels
  (fb.withPixels pixels).showCursor r

end Fbterm

def fbterm (palette : Palette) {size : Size} (r : Raster size) : Backend Fbterm where
  handle
    | (ctx, .rawPutchar c), fb => fb.rawPutchar ctx size c
    | (_, .clear move), fb => fb.clear size move
    | (_, .moveCharacter newX newY oldX oldY), fb => fb.moveCharacter size newX newY oldX oldY
    | (ctx, .scroll), fb => fb.scroll ctx size
    | (ctx, .revscroll), fb => fb.revscroll ctx size
    | (_, .doubleBufferFlush), fb => fb.doubleBufferFlush r
    | (_, op), fb => (fb.toBrush.perform palette size op).map fb.withBrush
  answer fb := (fb.cursorX, fb.cursorY)

end Voyager.Terminal
