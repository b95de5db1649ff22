import Voyager.Lib.Decimal
import Voyager.Terminal.Context

/-!
# term.c

The escape sequences of the terminal, byte by byte.
-/

namespace Voyager.Terminal

open Lib

def col256 : List Nat :=
  [0x000000, 0x00005f, 0x000087, 0x0000af, 0x0000d7, 0x0000ff, 0x005f00, 0x005f5f, 0x005f87, 0x005faf, 0x005fd7, 0x005fff,
   0x008700, 0x00875f, 0x008787, 0x0087af, 0x0087d7, 0x0087ff, 0x00af00, 0x00af5f, 0x00af87, 0x00afaf, 0x00afd7, 0x00afff,
   0x00d700, 0x00d75f, 0x00d787, 0x00d7af, 0x00d7d7, 0x00d7ff, 0x00ff00, 0x00ff5f, 0x00ff87, 0x00ffaf, 0x00ffd7, 0x00ffff,
   0x5f0000, 0x5f005f, 0x5f0087, 0x5f00af, 0x5f00d7, 0x5f00ff, 0x5f5f00, 0x5f5f5f, 0x5f5f87, 0x5f5faf, 0x5f5fd7, 0x5f5fff,
   0x5f8700, 0x5f875f, 0x5f8787, 0x5f87af, 0x5f87d7, 0x5f87ff, 0x5faf00, 0x5faf5f, 0x5faf87, 0x5fafaf, 0x5fafd7, 0x5fafff,
   0x5fd700, 0x5fd75f, 0x5fd787, 0x5fd7af, 0x5fd7d7, 0x5fd7ff, 0x5fff00, 0x5fff5f, 0x5fff87, 0x5fffaf, 0x5fffd7, 0x5fffff,
   0x870000, 0x87005f, 0x870087, 0x8700af, 0x8700d7, 0x8700ff, 0x875f00, 0x875f5f, 0x875f87, 0x875faf, 0x875fd7, 0x875fff,
   0x878700, 0x87875f, 0x878787, 0x8787af, 0x8787d7, 0x8787ff, 0x87af00, 0x87af5f, 0x87af87, 0x87afaf, 0x87afd7, 0x87afff,
   0x87d700, 0x87d75f, 0x87d787, 0x87d7af, 0x87d7d7, 0x87d7ff, 0x87ff00, 0x87ff5f, 0x87ff87, 0x87ffaf, 0x87ffd7, 0x87ffff,
   0xaf0000, 0xaf005f, 0xaf0087, 0xaf00af, 0xaf00d7, 0xaf00ff, 0xaf5f00, 0xaf5f5f, 0xaf5f87, 0xaf5faf, 0xaf5fd7, 0xaf5fff,
   0xaf8700, 0xaf875f, 0xaf8787, 0xaf87af, 0xaf87d7, 0xaf87ff, 0xafaf00, 0xafaf5f, 0xafaf87, 0xafafaf, 0xafafd7, 0xafafff,
   0xafd700, 0xafd75f, 0xafd787, 0xafd7af, 0xafd7d7, 0xafd7ff, 0xafff00, 0xafff5f, 0xafff87, 0xafffaf, 0xafffd7, 0xafffff,
   0xd70000, 0xd7005f, 0xd70087, 0xd700af, 0xd700d7, 0xd700ff, 0xd75f00, 0xd75f5f, 0xd75f87, 0xd75faf, 0xd75fd7, 0xd75fff,
   0xd78700, 0xd7875f, 0xd78787, 0xd787af, 0xd787d7, 0xd787ff, 0xd7af00, 0xd7af5f, 0xd7af87, 0xd7afaf, 0xd7afd7, 0xd7afff,
   0xd7d700, 0xd7d75f, 0xd7d787, 0xd7d7af, 0xd7d7d7, 0xd7d7ff, 0xd7ff00, 0xd7ff5f, 0xd7ff87, 0xd7ffaf, 0xd7ffd7, 0xd7ffff,
   0xff0000, 0xff005f, 0xff0087, 0xff00af, 0xff00d7, 0xff00ff, 0xff5f00, 0xff5f5f, 0xff5f87, 0xff5faf, 0xff5fd7, 0xff5fff,
   0xff8700, 0xff875f, 0xff8787, 0xff87af, 0xff87d7, 0xff87ff, 0xffaf00, 0xffaf5f, 0xffaf87, 0xffafaf, 0xffafd7, 0xffafff,
   0xffd700, 0xffd75f, 0xffd787, 0xffd7af, 0xffd7d7, 0xffd7ff, 0xffff00, 0xffff5f, 0xffff87, 0xffffaf, 0xffffd7, 0xffffff,
   0x080808, 0x121212, 0x1c1c1c, 0x262626, 0x303030, 0x3a3a3a, 0x444444, 0x4e4e4e, 0x585858, 0x626262, 0x6c6c6c, 0x767676,
   0x808080, 0x8a8a8a, 0x949494, 0x9e9e9e, 0xa8a8a8, 0xb2b2b2, 0xbcbcbc, 0xc6c6c6, 0xd0d0d0, 0xdadada, 0xe4e4e4, 0xeeeeee]

/-! ### Colours -/

section Sgr

-- `sgr` writes no field but those of the pen; `ctx` is the context it was called with.
variable (ctx : TermContext)

def draw (pen : Pen) (op : Operation) : Code Unit := perform (ctx.withPen pen) op

def swapIf (b : Bool) (pen : Pen) : Code Unit := performIf b (ctx.withPen pen) .swapPalette

def sgrReverse (pen : Pen) (on : Bool) : Code Pen := do
  swapIf ctx (pen.reverseVideo != on) { pen with reverseVideo := on }
  return { pen with reverseVideo := on }

/-- The label `def`. -/
def sgrDefault (pen : Pen) : Code Pen := do
  let pen ← sgrReverse ctx pen false
  let pen := { pen with bold := false, currentPrimary := none }
  draw ctx pen .setTextBgDefault
  draw ctx pen .setTextFgDefault
  return pen

def sgrBold (pen : Pen) (on : Bool) (fg bg : Nat → Operation) : Code Pen := do
  let pen := { pen with bold := on }
  match pen.currentPrimary with
  | some primary =>
    draw ctx pen (if pen.reverseVideo then bg primary else fg primary)
    return pen
  | none => return pen

/-- The labels `set_fg` and `set_bg`. -/
def setFg (pen : Pen) (colour : Nat) : Code Unit :=
  draw ctx pen (if pen.bold && !pen.reverseVideo then .setTextFgBright colour else .setTextFg colour)

def setBg (pen : Pen) (colour : Nat) : Code Unit :=
  draw ctx pen (if pen.bold && pen.reverseVideo then .setTextBgBright colour else .setTextBg colour)

def sgrFg (pen : Pen) (colour : Nat) : Code Pen := do
  let pen := { pen with currentPrimary := some colour }
  if pen.reverseVideo then setBg ctx pen colour else setFg ctx pen colour
  return pen

def sgrBg (pen : Pen) (colour : Nat) : Code Pen := do
  if pen.reverseVideo then setFg ctx pen colour else setBg ctx pen colour
  return pen

def sgrFgBright (pen : Pen) (colour : Nat) : Code Pen := do
  let pen := { pen with currentPrimary := some colour }
  draw ctx pen (if pen.reverseVideo then .setTextBgBright colour else .setTextFgBright colour)
  return pen

def sgrBgBright (pen : Pen) (colour : Nat) : Code Pen := do
  draw ctx pen (if pen.reverseVideo then .setTextFgBright colour else .setTextBgBright colour)
  return pen

/-- The default colour `op`, set with the palette the right way round. -/
def setUnswapped (pen : Pen) (op : Operation) : Code Pen := do
  swapIf ctx pen.reverseVideo pen
  draw ctx pen op
  swapIf ctx pen.reverseVideo pen
  return pen

/-- One parameter, 38 and 48 apart. -/
def sgrParameter (v : Nat) (pen : Pen) : Code Pen :=
  if v = 0 then sgrDefault ctx pen
  else if v = 1 then sgrBold ctx pen true .setTextFgBright .setTextBgBright
  else if v = 22 then sgrBold ctx pen false .setTextFg .setTextBg
  else if 30 ≤ v ∧ v ≤ 37 then sgrFg ctx pen (v - 30)
  else if 40 ≤ v ∧ v ≤ 47 then sgrBg ctx pen (v - 40)
  else if 90 ≤ v ∧ v ≤ 97 then sgrFgBright ctx pen (v - 90)
  else if 100 ≤ v ∧ v ≤ 107 then sgrBgBright ctx pen (v - 100)
  else if v = 39 then setUnswapped ctx { pen with currentPrimary := none } .setTextFgDefault
  else if v = 49 then setUnswapped ctx pen .setTextBgDefault
  else if v = 7 then sgrReverse ctx pen true
  else if v = 27 then sgrReverse ctx pen false
  else return pen

def rgbValue (r g b : Nat) : Nat := r <<< 16 % 2 ^ 32 ||| g <<< 8 % 2 ^ 32 ||| b

def setRgb (pen : Pen) (fg : Bool) (rgb : Nat) : Code Unit :=
  draw ctx pen (if fg then .setTextFgRgb rgb else .setTextBgRgb rgb)

/-- A colour of the palette of 256. -/
def setPalette (pen : Pen) (fg : Bool) (col : Nat) : Code Unit :=
  if col < 8 then draw ctx pen (if fg then .setTextFg col else .setTextBg col)
  else if col < 16 then draw ctx pen (if fg then .setTextFgBright (col - 8) else .setTextBgBright (col - 8))
  else match col256[col - 16]? with
    | some rgb => setRgb ctx pen fg rgb
    | none => .fault

def sgrLoop : List Nat → Pen → Code Pen
  | [], pen => return pen
  | v :: rest, pen =>
    if v = 38 ∨ v = 48 then
      match rest with
      | 2 :: r :: g :: b :: rest => do
        setRgb ctx pen (v = 38) (rgbValue r g b)
        sgrLoop rest pen
      | 5 :: col :: rest => do
        setPalette ctx pen (v = 38) col
        sgrLoop rest pen
      | [] | 2 :: _ | [5] => return pen
      | _ :: rest => sgrLoop rest pen
    else do
      let pen ← sgrParameter ctx v pen
      sgrLoop rest pen

def sgr : Code TermContext := do
  let pen ← if ctx.escValuesI = 0 then sgrDefault ctx ctx.toPen else sgrLoop ctx ctx.params ctx.toPen
  return ctx.withPen pen

end Sgr

/-! ### Modes -/

def decPrivateParse (ctx : TermContext) (c : UInt8) : Code TermContext := do
  let ctx := ctx.withParser { ctx.toParser with decPrivate := false }
  if ctx.escValuesI = 0 ∨ (c ≠ 'h'.toUInt8 ∧ c ≠ 'l'.toUInt8) then return ctx
  else if ctx.escValues 0 = 25 then do
    perform ctx (if c = 'h'.toUInt8 then .enableCursor else .disableCursor)
    return ctx
  else do
    notify ctx (.dec ctx.escValuesI c)
    return ctx

def linuxPrivateParse (ctx : TermContext) : Code Unit :=
  if ctx.escValuesI = 0 then return () else notify ctx (.linux ctx.escValuesI)

def modeToggle (ctx : TermContext) (c : UInt8) : Code TermContext :=
  if ctx.escValuesI = 0 ∨ (c ≠ 'h'.toUInt8 ∧ c ≠ 'l'.toUInt8) then return ctx
  else if ctx.escValues 0 = 4 then return { ctx with insertMode := c = 'h'.toUInt8 }
  else do
    notify ctx (.mode ctx.escValuesI c)
    return ctx

/-! ### Control sequences -/

/-- The cases of the second `switch` of `control_sequence_parse`. -/
inductive ControlCase where
  | previousLine
  | up
  | nextLine
  | down
  | right
  | left
  | identify
  | row
  | column
  | position
  | report
  | leds
  | eraseDisplay
  | insert
  | delete
  | erase
  | sgr
  | saveCursor
  | restoreCursor
  | eraseLine
  | margins
  | mode
  | linux
  | other
deriving DecidableEq

def ControlCase.of (c : UInt8) : ControlCase :=
  match Char.ofUInt8 c with
  | 'F' => .previousLine
  | 'A' => .up
  | 'E' => .nextLine
  | 'e' | 'B' => .down
  | 'a' | 'C' => .right
  | 'D' => .left
  | 'c' => .identify
  | 'd' => .row
  | 'G' | '\x60' => .column
  | 'H' | 'f' => .position
  | 'n' => .report
  | 'q' => .leds
  | 'J' => .eraseDisplay
  | '@' => .insert
  | 'P' => .delete
  | 'X' => .erase
  | 'm' => .sgr
  | 's' => .saveCursor
  | 'u' => .restoreCursor
  | 'K' => .eraseLine
  | 'r' => .margins
  | 'l' | 'h' => .mode
  | ']' => .linux
  | _ => .other

section Final

variable (size : Size) (ctx : TermContext) (x y : Nat)

/-- One of the two margins lies between the rows `low` and `high`. -/
def willBeInScrollRegion (low high : Nat) : Bool :=
  low ≤ ctx.scrollTopMargin && ctx.scrollTopMargin ≤ high ||
  low ≤ ctx.scrollBottomMargin && ctx.scrollBottomMargin ≤ high

def cursorUp : Code TermContext := do
  let ctx := if ctx.escValues 0 > y then ctx.setEscValue 0 y else ctx
  let destY := sub64 y (ctx.escValues 0)
  let destY := if willBeInScrollRegion ctx destY y ∧ destY < ctx.scrollTopMargin then ctx.scrollTopMargin else destY
  perform ctx (.setCursorPos x destY)
  return ctx

def cursorDown : Code TermContext := do
  let ctx :=
    if add64 y (ctx.escValues 0) > size.rows - 1 then ctx.setEscValue 0 (sub64 (size.rows - 1) y) else ctx
  let destY := add64 y (ctx.escValues 0)
  let destY :=
    if willBeInScrollRegion ctx y destY ∧ ctx.scrollBottomMargin ≤ destY then sub64 ctx.scrollBottomMargin 1 else destY
  perform ctx (.setCursorPos x destY)
  return ctx

def cursorRight : Code TermContext := do
  let ctx :=
    if add64 x (ctx.escValues 0) > size.cols - 1 then ctx.setEscValue 0 (sub64 (size.cols - 1) x) else ctx
  perform ctx (.setCursorPos (add64 x (ctx.escValues 0)) y)
  return ctx

def cursorLeft : Code TermContext := do
  let ctx := if ctx.escValues 0 > x then ctx.setEscValue 0 x else ctx
  perform ctx (.setCursorPos (sub64 x (ctx.escValues 0)) y)
  return ctx

/-- `esc_values[i] -= 1`, and at most `limit - 1` then. -/
def oneBased (i limit : Nat) : TermContext :=
  let ctx := ctx.setEscValue i (ctx.escValues i + (2 ^ 32 - 1))
  if ctx.escValues i ≥ limit then ctx.setEscValue i (limit - 1) else ctx

def cursorRow : Code TermContext := do
  let ctx := oneBased ctx 0 size.rows
  perform ctx (.setCursorPos x (ctx.escValues 0))
  return ctx

def cursorColumn : Code TermContext := do
  let ctx := oneBased ctx 0 size.cols
  perform ctx (.setCursorPos (ctx.escValues 0) y)
  return ctx

def cursorPosition : Code TermContext := do
  let ctx := oneBased (oneBased ctx 1 size.cols) 0 size.rows
  perform ctx (.setCursorPos (ctx.escValues 1) (ctx.escValues 0))
  return ctx

def report : Code Unit :=
  match ctx.escValues 0 with
  | 5 => notify ctx .statusReport
  | 6 => notify ctx (.posReport (add64 x 1) (add64 y 1))
  | _ => return ()

def putBlanks (count : Nat) : Code Unit := forM (List.range count) fun _ => perform ctx (.rawPutchar 0x20)

/-- The cells in the order of the two loops of `J` with 1. -/
def readingOrder : List (Nat × Nat) :=
  (List.range size.rows).flatMap fun yc => (List.range size.cols).map fun xc => (xc, yc)

/-- These loops, left once the cell at the cursor is blank. -/
def blankThrough : List (Nat × Nat) → Code Unit
  | [] => return ()
  | (xc, yc) :: cells => do
    perform ctx (.rawPutchar 0x20)
    if xc = x ∧ yc = y then perform ctx (.setCursorPos x y) else blankThrough cells

def eraseDisplay : Code Unit :=
  match ctx.escValues 0 with
  | 0 => do
    let rowsRemaining := sub64 size.rows (add64 y 1)
    let colsDiff := sub64 size.cols (add64 x 1)
    putBlanks ctx ((rowsRemaining * size.cols + colsDiff) % 2 ^ 64)
    perform ctx (.setCursorPos x y)
  | 1 => do
    perform ctx (.setCursorPos 0 0)
    blankThrough ctx x y (readingOrder size)
  | 2 | 3 => perform ctx (.clear false)
  | _ => return ()

def insertBlanks : Code Unit := do
  forM (downTo (size.cols - 1) x) fun i => do
    perform ctx (.moveCharacter (add64 i (ctx.escValues 0)) y i y)
    perform ctx (.setCursorPos i y)
    perform ctx (.rawPutchar 0x20)
  perform ctx (.setCursorPos x y)

def eraseCharacters : Code Unit := do
  putBlanks ctx (ctx.escValues 0)
  perform ctx (.setCursorPos x y)

def deleteCharacters : Code Unit := do
  let start := add64 x (ctx.escValues 0)
  forM (List.range' start (size.cols - start)) fun i =>
    perform ctx (.moveCharacter (sub64 i (ctx.escValues 0)) y i y)
  perform ctx (.setCursorPos (sub64 size.cols (ctx.escValues 0)) y)
  eraseCharacters ctx x y

def eraseLine : Code Unit :=
  match ctx.escValues 0 with
  | 0 => do
    putBlanks ctx (size.cols - x)
    perform ctx (.setCursorPos x y)
  | 1 => do
    perform ctx (.setCursorPos 0 y)
    putBlanks ctx x
  | 2 => do
    perform ctx (.setCursorPos 0 y)
    putBlanks ctx size.cols
    perform ctx (.setCursorPos x y)
  | _ => return ()

/-- The margins `r` asks for, without the check. -/
def askedMargins : TermContext :=
  { ctx with
    scrollTopMargin := if ctx.escValuesI > 0 then (ctx.escValues 0 + (2 ^ 32 - 1)) % 2 ^ 32 else 0
    scrollBottomMargin := if ctx.escValuesI > 1 then ctx.escValues 1 else size.rows }

def setMargins : Code TermContext := do
  let ctx := askedMargins size ctx
  let ctx :=
    if ctx.scrollTopMargin ≥ size.rows ∨ ctx.scrollBottomMargin > size.rows ∨
        ctx.scrollTopMargin ≥ sub64 ctx.scrollBottomMargin 1 then
      { ctx with scrollTopMargin := 0, scrollBottomMargin := size.rows }
    else ctx
  perform ctx (.setCursorPos 0 0)
  return ctx

/-- The second `switch` of `control_sequence_parse`. -/
def controlFunction (c : UInt8) : Code TermContext :=
  match ControlCase.of c with
  | .previousLine => cursorUp ctx 0 y
  | .up => cursorUp ctx x y
  | .nextLine => cursorDown size ctx 0 y
  | .down => cursorDown size ctx x y
  | .right => cursorRight size ctx x y
  | .left => cursorLeft ctx x y
  | .identify => do
    notify ctx .privateId
    return ctx
  | .row => cursorRow size ctx x
  | .column => cursorColumn size ctx y
  | .position => cursorPosition size ctx
  | .report => do
    report ctx x y
    return ctx
  | .leds => do
    notify ctx (.kbdLeds (ctx.escValues 0))
    return ctx
  | .eraseDisplay => do
    eraseDisplay size ctx x y
    return ctx
  | .insert => do
    insertBlanks size ctx x y
    return ctx
  | .delete => do
    deleteCharacters size ctx x y
    return ctx
  | .erase => do
    eraseCharacters ctx x y
    return ctx
  | .sgr => sgr ctx
  | .saveCursor => return { ctx with savedCursorX := x, savedCursorY := y }
  | .restoreCursor => do
    perform ctx (.setCursorPos ctx.savedCursorX ctx.savedCursorY)
    return ctx
  | .eraseLine => do
    eraseLine size ctx x y
    return ctx
  | .margins => setMargins size ctx
  | .mode => modeToggle ctx c
  | .linux => do
    linuxPrivateParse ctx
    return ctx
  | .other => return ctx

/-- The value of the parameters that the sequence does not give. -/
def escDefault (c : UInt8) : Nat :=
  match Char.ofUInt8 c with
  | 'J' | 'K' | 'q' => 0
  | _ => 1

/-- The parameters that the sequence does not give get the default. -/
def fillDefaults (p : Parser) (c : UInt8) : Parser :=
  { p with escValues := fun i => if p.escValuesI ≤ i ∧ i < termMaxEscValues then escDefault c else p.escValues i }

/-- The function of the sequence, which does not scroll. -/
def runFunction (c : UInt8) : Code TermContext := do
  let (x, y) ← getCursorPos
  let ctx' ← controlFunction size { ctx with scrollEnabled := false } x y c
  return { ctx' with scrollEnabled := ctx.scrollEnabled }

/-- `control_sequence_parse` once the parameters are read. -/
def runSequence (c : UInt8) : Code TermContext := do
  let ctx := ctx.withParser (fillDefaults ctx.toParser c)
  let ctx ← if ctx.decPrivate then decPrivateParse ctx c else runFunction size ctx c
  return ctx.withParser { ctx.toParser with controlSequence := false, escape := false }

end Final

/-- What a byte is in a control sequence. -/
inductive Reading where
  | more (p : Parser) -- It is taken in.
  | final (p : Parser) -- It ends the parameters.
  | outside -- It would go to `esc_values` behind its end.

/-- `control_sequence_parse` up to the defaults. -/
def Parser.read (p : Parser) (c : UInt8) : Reading :=
  if p.escapeOffset = 2 ∧ c = '['.toUInt8 then
    .more { p with discardNext := true, controlSequence := false, escape := false }
  else if p.escapeOffset = 2 ∧ c = '?'.toUInt8 then .more { p with decPrivate := true }
  else if isDigit c then
    if p.escValuesI = termMaxEscValues then .more p
    else if p.escValuesI < termMaxEscValues then
      let value := p.escValues p.escValuesI * 10 % 2 ^ 32 + (c - '0'.toUInt8).toNat
      .more { p.setValue p.escValuesI value with rrr := true }
    else .outside
  else if p.rrr then
    let p := { p with escValuesI := p.escValuesI + 1, rrr := false }
    if c = ';'.toUInt8 then .more p else .final p
  else if c = ';'.toUInt8 then
    if p.escValuesI = termMaxEscValues then .more p
    else if p.escValuesI < termMaxEscValues then
      .more { p.setValue p.escValuesI 0 with escValuesI := p.escValuesI + 1 }
    else .outside
  else .final p

def controlSequenceParse (size : Size) (ctx : TermContext) (c : UInt8) : Code TermContext :=
  match ctx.toParser.read c with
  | .more p => return ctx.withParser p
  | .final p => runSequence size (ctx.withParser p) c
  | .outside => .fault

/-! ### Escapes -/

def restoreState (ctx : TermContext) : Code TermContext := do
  let ctx := ctx.withPen ctx.savedState
  perform ctx .restoreState
  return ctx

def saveState (ctx : TermContext) : Code TermContext := do
  perform ctx .saveState
  return { ctx with savedState := ctx.toPen }

/-- The label `is_csi`. -/
def openSequence (p : Parser) : Parser :=
  { p with
    escValues := fun i => if i < termMaxEscValues then 0 else p.escValues i
    escValuesI := 0
    rrr := false
    controlSequence := true }

/-- To the next row, at the column `x`; at the bottom margin the text moves instead. -/
def lineFeed (ctx : TermContext) (x y : Nat) : Code Unit :=
  if y = sub64 ctx.scrollBottomMargin 1 then do
    perform ctx .scroll
    perform ctx (.setCursorPos x y)
  else perform ctx (.setCursorPos x (add64 y 1))

def reverseLineFeed (ctx : TermContext) (y : Nat) : Code Unit :=
  if y = ctx.scrollTopMargin then do
    perform ctx .revscroll
    perform ctx (.setCursorPos 0 y)
  else perform ctx (.setCursorPos 0 (sub64 y 1))

/-- The cases of the `switch` of `escape_parse`, `[` apart. -/
inductive EscapeCase where
  | saveState
  | restoreState
  | reset
  | lineFeed
  | nextLine
  | reverseLineFeed
  | identify
  | designate
  | escape
  | other
deriving DecidableEq

def EscapeCase.of (c : UInt8) : EscapeCase :=
  match Char.ofUInt8 c with
  | '7' => .saveState
  | '8' => .restoreState
  | 'c' => .reset
  | 'D' => .lineFeed
  | 'E' => .nextLine
  | 'M' => .reverseLineFeed
  | 'Z' => .identify
  | '(' | ')' => .designate
  | '\x1b' => .escape
  | _ => .other

def escapeFunction (size : Size) (ctx : TermContext) (x y : Nat) (c : UInt8) : Code TermContext :=
  match EscapeCase.of c with
  | .saveState => saveState ctx
  | .restoreState => restoreState ctx
  | .reset => do
    let ctx := ctx.reinit size
    perform ctx (.clear true)
    return ctx
  | .lineFeed => do
    lineFeed ctx x y
    return ctx
  | .nextLine => do
    lineFeed ctx 0 y
    return ctx
  | .reverseLineFeed => do
    reverseLineFeed ctx y
    return ctx
  | .identify => do
    notify ctx .privateId
    return ctx
  | .designate => return ctx.withParser { ctx.toParser with gSelect := (c - 0x27).toNat }
  | .escape => do
    performIf ctx.inBootloader ctx (.rawPutchar c)
    return ctx
  | .other => return ctx

def escapeByte (size : Size) (ctx : TermContext) (c : UInt8) : Code TermContext := do
  let (x, y) ← getCursorPos
  if c = '['.toUInt8 then return ctx.withParser (openSequence ctx.toParser)
  else do
    let ctx ← escapeFunction size ctx x y c
    return ctx.withParser { ctx.toParser with escape := false }

/-- `escape_offset++`; a sequence is taken to be shorter than `2 ^ 64` bytes, so that it does not wrap. -/
def Parser.further (p : Parser) : Parser := { p with escapeOffset := p.escapeOffset + 1 }

def escapeParse (size : Size) (ctx : TermContext) (c : UInt8) : Code TermContext :=
  let ctx := ctx.withParser ctx.toParser.further
  if ctx.controlSequence then controlSequenceParse size ctx c
  else if ctx.csi then return ctx.withParser (openSequence { ctx.toParser with csi := false })
  else escapeByte size ctx c

/-! ### Bytes -/

def decSpecialToCp437 (c : UInt8) : UInt8 :=
  match Char.ofUInt8 c with
  | '\x60' => 0x04
  | '0' => 0xdb
  | '-' => 0x18
  | ',' => 0x1b
  | '.' => 0x19
  | 'a' => 0xb1
  | 'f' => 0xf8
  | 'g' => 0xf1
  | 'h' => 0xb0
  | 'j' => 0xd9
  | 'k' => 0xbf
  | 'l' => 0xda
  | 'm' => 0xc0
  | 'n' => 0xc5
  | 'q' => 0xc4
  | 's' => 0x5f
  | 't' => 0xc3
  | 'u' => 0xb4
  | 'v' => 0xc1
  | 'w' => 0xc2
  | 'x' => 0xb3
  | 'y' => 0xf3
  | 'z' => 0xf2
  | '~' => 0xfa
  | '_' => 0xff
  | '+' => 0x1a
  | '\x7b' => 0xe3
  | '\x7d' => 0x9c
  | _ => c

def translate : Charset → UInt8 → UInt8
  | .default, c => c
  | .decSpecial, c => decSpecialToCp437 c

/-- The end of `term_putchar`, for a byte that is no control character. -/
def putText (size : Size) (ctx : TermContext) (x y : Nat) (c : UInt8) : Code Unit := do
  forM (if ctx.insertMode then downTo (size.cols - 1) x else []) fun i =>
    perform ctx (.moveCharacter (add64 i 1) y i y)
  if ctx.currentCharset < 2 then perform ctx (.rawPutchar (translate (ctx.charsets ctx.currentCharset) c)) else .fault

def tab (size : Size) (ctx : TermContext) (x y : Nat) : Code Unit :=
  if ctx.tabSize = 0 then .fault
  else if x / ctx.tabSize + 1 ≥ size.cols then perform ctx (.setCursorPos (size.cols - 1) y)
  else perform ctx (.setCursorPos ((x / ctx.tabSize + 1) * ctx.tabSize) y)

/-- The cases of the `switch` of `term_putchar`; `text` is what follows it. -/
inductive ByteCase where
  | ignored
  | csi
  | escape
  | tab
  | lineFeed
  | backspace
  | carriageReturn
  | bell
  | shiftOut
  | shiftIn
  | text
deriving DecidableEq

def ByteCase.of (c : UInt8) : ByteCase :=
  match Char.ofUInt8 c with
  | '\x00' | '\x7f' => .ignored
  | '\x9b' => .csi
  | '\x1b' => .escape
  | '\t' => .tab
  | '\x0b' | '\x0c' | '\n' => .lineFeed
  | '\x08' => .backspace
  | '\r' => .carriageReturn
  | '\x07' => .bell
  | '\x0e' => .shiftOut
  | '\x0f' => .shiftIn
  | _ => .text

def putByte (size : Size) (ctx : TermContext) (x y : Nat) (c : UInt8) : Code TermContext :=
  match ByteCase.of c with
  | .ignored => return ctx
  | .csi => return ctx.withParser { ctx.toParser with csi := true, escapeOffset := 0, escape := true }
  | .escape => return ctx.withParser { ctx.toParser with escapeOffset := 0, escape := true }
  | .tab => do
    tab size ctx x y
    return ctx
  | .lineFeed => do
    lineFeed ctx 0 y
    return ctx
  | .backspace => do
    perform ctx (.setCursorPos (sub64 x 1) y)
    return ctx
  | .carriageReturn => do
    perform ctx (.setCursorPos 0 y)
    return ctx
  | .bell => do
    notify ctx .bell
    return ctx
  | .shiftOut => return ctx.withPen { ctx.toPen with currentCharset := 1 }
  | .shiftIn => return ctx.withPen { ctx.toPen with currentCharset := 0 }
  | .text => do
    putText size ctx x y c
    return ctx

/-- The byte after `ESC (` or `ESC )`. -/
def designate (ctx : TermContext) (c : UInt8) : Code TermContext :=
  if ctx.gSelect - 1 < 2 then
    let charsets :=
      if c = 'B'.toUInt8 then Function.update ctx.charsets (ctx.gSelect - 1) .default
      else if c = '0'.toUInt8 then Function.update ctx.charsets (ctx.gSelect - 1) .decSpecial
      else ctx.charsets
    return { ctx with charsets, toParser := { ctx.toParser with gSelect := 0 } }
  else .fault

def Parser.cancel (p : Parser) : Parser :=
  { p with discardNext := false, escape := false, csi := false, controlSequence := false, gSelect := 0 }

def termPutchar (size : Size) (ctx : TermContext) (c : UInt8) : Code TermContext :=
  if ctx.discardNext ∨ (ctx.inBootloader = false ∧ (c = 0x18 ∨ c = 0x1a)) then
    return ctx.withParser ctx.toParser.cancel
  else if ctx.escape then escapeParse size ctx c
  else if ctx.gSelect ≠ 0 then designate ctx c
  else do
    let (x, y) ← getCursorPos
    putByte size ctx x y c

def putAll (size : Size) (ctx : TermContext) (buf : List UInt8) : Code TermContext :=
  buf.foldlM (termPutchar size) ctx

def termWrite (size : Size) (ctx : TermContext) (buf : List UInt8) : Code TermContext := do
  let ctx ← putAll size ctx buf
  performIf ctx.autoflush ctx .doubleBufferFlush
  return ctx

end Voyager.Terminal
