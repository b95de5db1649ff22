import Voyager.Terminal.Typing

/-!
# Where term.c leaves its arrays

A scrolling region that ends above the last row lets the cursor fall off the grid, and a colour
of the palette of 256 is looked up without a check.
-/

namespace Voyager.Terminal

open Lib Calls

/-- No escape sequence is open. -/
structure TermContext.AtRest (ctx : TermContext) : Prop where
  idle : ctx.toParser.Idle
  select : ctx.gSelect = 0
  standard : ctx.decPrivate = false

section Sequences

variable {size : Size} {ctx : TermContext} {p : Parser} {params : List Nat} {c : UInt8}

theorem sequence_function (size : Size) (rest : ctx.AtRest) (few : params.length ≤ termMaxEscValues)
    (small : ∀ v ∈ params, v < 2 ^ 32) (final : IsFinal params c) :
    ∃ q : Parser, (q.params = params ∧ ∀ i (lt : i < params.length), q.escValues i = params.get ⟨i, lt⟩) ∧
      (q.close.Idle ∧ q.gSelect = 0 ∧ q.decPrivate = false) ∧
      ∀ {σ : Type} (B : Backend σ) (s : σ), (putAll size ctx (sequenceBytes params c)).run B s =
        ((runFunction size (ctx.withParser q) c).run B s).map fun res => (res.1.withParser res.1.toParser.close, res.2) := by
  have ground : ctx.toParser.mode = .ground := by rw [rest.idle.mode, if_pos rest.select]
  obtain ⟨p, ⟨all, same, closed, select⟩, ran⟩ :=
    sequence_run size (rest.idle.ok (by rw [rest.select]; exact Nat.zero_le 2)) ground few small final
  have standard : p.decPrivate = false := same.trans rest.standard
  refine ⟨fillDefaults p c, ⟨fillDefaults_params.trans all, fun i lt => ?_⟩,
    ⟨⟨rfl, closed.csi, rfl, closed.discardNext⟩, select, standard⟩, fun B s => ?_⟩
  · rw [fillDefaults_eq (by omega), all, List.getD_eq_getElem?_getD, List.getElem?_eq_getElem lt, Option.getD_some]
    rfl
  · have off : ¬((ctx.withParser p).withParser (fillDefaults (ctx.withParser p).toParser c)).decPrivate :=
      fun on => Bool.false_ne_true (standard.symm.trans on)
    rw [ran B s]
    unfold runSequence
    dsimp only
    rw [if_neg off, run_bind]
    exact Option.map_eq_bind.symm

theorem escValuesI_eq (all : p.params = params) : p.escValuesI = params.length := by
  rw [← all, Parser.params, front_length]

theorem putAll_append_run {ctx' : TermContext} {xs : List UInt8} {σ : Type} {B : Backend σ} {s s' : σ}
    (ran : (putAll size ctx xs).run B s = some (ctx', s')) (ys : List UInt8) :
    (putAll size ctx (xs ++ ys)).run B s = (putAll size ctx' ys).run B s' := by
  unfold putAll at *
  rw [List.foldlM_append, run_bind, ran]
  rfl

end Sequences

section Region

variable {palette : Palette} {size : Size} {r : Raster size} {ctx : TermContext} {fb fb' : Fbterm} {t n : Nat} {c : UInt8}

theorem setMargins_proper (count : ctx.escValuesI = 2) (top : ctx.escValues 0 = t) (bottom : ctx.escValues 1 = n)
    (pos : 1 ≤ t) (lt : t < n) (le : n ≤ size.rows) (small : size.rows < 2 ^ 32) :
    setMargins size ctx = (do
      perform { ctx with scrollTopMargin := t - 1, scrollBottomMargin := n } (.setCursorPos 0 0)
      return { ctx with scrollTopMargin := t - 1, scrollBottomMargin := n }) := by
  have asked : askedMargins size ctx = { ctx with scrollTopMargin := t - 1, scrollBottomMargin := n } := by
    have first : (t + (2 ^ 32 - 1)) % 2 ^ 32 = t - 1 := by omega
    unfold askedMargins
    rw [count, top, bottom, first]
    rfl
  have kept : ¬(t - 1 ≥ size.rows ∨ n > size.rows ∨ t - 1 ≥ sub64 n 1) := by
    rw [sub64_of_le (by omega) (by omega)]
    omega
  unfold setMargins
  rw [asked]
  dsimp only
  rw [if_neg kept]

theorem setEscValue_self {i v : Nat} (lt : v < 2 ^ 32) : (ctx.setEscValue i v).escValues i = v :=
  (Function.update_self _ _ _).trans (Nat.mod_eq_of_lt lt)

theorem setEscValue_of_ne {i j v : Nat} (ne : j ≠ i) : (ctx.setEscValue i v).escValues j = ctx.escValues j := by
  unfold TermContext.setEscValue Parser.setValue
  exact Function.update_of_ne ne _ _

theorem oneBased_limit {i limit : Nat} (value : ctx.escValues i = limit) (pos : 0 < limit) (small : limit < 2 ^ 32) :
    oneBased ctx i limit = ctx.setEscValue i (limit - 1) := by
  have down : (limit + (2 ^ 32 - 1)) % 2 ^ 32 = (limit - 1) % 2 ^ 32 := by omega
  have same : ctx.setEscValue i (limit + (2 ^ 32 - 1)) = ctx.setEscValue i (limit - 1) := by
    unfold TermContext.setEscValue Parser.setValue
    rw [down]
  unfold oneBased
  rw [value, same]
  exact if_neg (by rw [setEscValue_self (by omega)]; omega)

theorem cursorPosition_last (row : ctx.escValues 0 = size.rows) (column : ctx.escValues 1 = size.cols)
    (rows : size.rows < 2 ^ 32) (cols : size.cols < 2 ^ 32) :
    ∃ values, cursorPosition size ctx = (do
      let ctx := ctx.withParser { ctx.toParser with escValues := values }
      perform ctx (.setCursorPos (size.cols - 1) (size.rows - 1))
      return ctx) := by
  have rows_pos := size.rows_pos
  have cols_pos := size.cols_pos
  have row' : (ctx.setEscValue 1 (size.cols - 1)).escValues 0 = size.rows :=
    (setEscValue_of_ne Nat.zero_ne_one).trans row
  unfold cursorPosition
  rw [oneBased_limit column cols_pos cols, oneBased_limit row' rows_pos rows]
  refine ⟨((ctx.setEscValue 1 (size.cols - 1)).setEscValue 0 (size.rows - 1)).escValues, ?_⟩
  dsimp only
  rw [setEscValue_self (by omega), setEscValue_of_ne Nat.one_ne_zero, setEscValue_self (by omega)]
  rfl

theorem rawPutchar_falls (buffers : fb.Buffers size) (column : fb.cursorX = size.cols - 1)
    (row : fb.cursorY = size.rows - 1) (on : ctx.scrollEnabled) (region : ctx.scrollBottomMargin < size.rows) :
    ∃ fb', fb.rawPutchar ctx size c = some fb' ∧ fb'.cursorX = 0 ∧ fb'.cursorY = size.rows ∧
      fb'.cursorStatus = fb.cursorStatus := by
  have fits := size.cells_lt
  have rows := size.rows_le
  have cols := size.cols_le
  have rows_pos := size.rows_pos
  have cols_pos := size.cols_pos
  obtain ⟨fb₁, pushed, requeued, -⟩ := Fbterm.pushToQueue_spec (fb.char c) buffers (x := fb.cursorX) (y := fb.cursorY)
    (by omega) (by omega)
  have same : fb₁.toBrush = fb.toBrush := (congrArg Fbterm.toBrush requeued :)
  have down : add64 fb.cursorY 1 = size.rows := by rw [row, add64_of_lt (by omega)]; omega
  have moved : fb₁.stepOn ctx size = some (fb₁.withBrush { fb.toBrush with cursorX := 0, cursorY := size.rows }) := by
    unfold Fbterm.stepOn
    rw [same, Shown.advance_wrap (by rw [column, add64_of_lt (by omega)]; omega) on, down]
    exact if_neg (show size.rows ≠ ctx.scrollBottomMargin by omega)
  exact ⟨_, Option.bind_eq_some_iff.mpr ⟨fb₁, pushed, moved⟩, rfl, rfl, rfl⟩

theorem cursor_index_outside (column : fb.cursorX = 0) (row : fb.cursorY = size.rows) :
    add64 fb.cursorX (mul64 fb.cursorY size.cols) = size.cells := by
  have fits := size.cells_lt
  rw [column, row, mul64_of_lt (by unfold Size.cells at fits; omega), add64_of_lt (by unfold Size.cells at fits; omega)]
  exact Nat.zero_add _

theorem look_outside (fb : Fbterm) : fb.look size size.cells = none := if_neg (Nat.lt_irrefl _)

theorem flush_outside (column : fb.cursorX = 0) (row : fb.cursorY = size.rows) (visible : fb.cursorStatus) :
    fb.doubleBufferFlush r = none := by
  have drawn : fb.showCursor r = none := by
    unfold Fbterm.showCursor Fbterm.drawCursor
    rw [if_pos visible, cursor_index_outside column row]
    dsimp only
    rw [look_outside]
    rfl
  unfold Fbterm.doubleBufferFlush
  rw [drawn]
  rfl

theorem margins_run (palette : Palette) (r : Raster size) (fb : Fbterm) (rest : ctx.AtRest) (pos : 1 ≤ t) (lt : t < n)
    (le : n ≤ size.rows) (small : size.rows < 2 ^ 32) :
    ∃ p : Parser, (p.Idle ∧ p.gSelect = 0 ∧ p.decPrivate = false) ∧
      (putAll size ctx (sequenceBytes [t, n] 'r'.toUInt8)).run (fbterm palette r) fb =
        some ({ ctx.withParser p with scrollTopMargin := t - 1, scrollBottomMargin := n },
          fb.withBrush (fb.setCursorPos size 0 0)) := by
  obtain ⟨q, ⟨all, given⟩, closed, ran⟩ := sequence_function size rest (Nat.le_of_ble_eq_true rfl)
    (by simp; omega) (show IsFinal [t, n] 'r'.toUInt8 from ⟨by decide, by decide, by decide, nofun⟩)
  have margins : setMargins size { ctx.withParser q with scrollEnabled := false } = _ :=
    setMargins_proper (escValuesI_eq all) (given 0 Nat.zero_lt_two) (given 1 Nat.one_lt_two) pos lt le small
  refine ⟨q.close, closed, (ran (fbterm palette r) fb).trans ?_⟩
  change Option.map _ ((setMargins size { ctx.withParser q with scrollEnabled := false } >>= _).run _ fb) = _
  rw [margins]
  rfl

theorem lastCell_run (palette : Palette) (r : Raster size) (fb : Fbterm) (rest : ctx.AtRest)
    (rows : size.rows < 2 ^ 32) (cols : size.cols < 2 ^ 32) :
    ∃ p : Parser, (p.Idle ∧ p.gSelect = 0 ∧ p.decPrivate = false) ∧
      (putAll size ctx (sequenceBytes [size.rows, size.cols] 'H'.toUInt8)).run (fbterm palette r) fb =
        some (ctx.withParser p, fb.withBrush (fb.setCursorPos size (size.cols - 1) (size.rows - 1))) := by
  obtain ⟨q, ⟨-, given⟩, closed, ran⟩ := sequence_function size rest (Nat.le_of_ble_eq_true rfl)
    (by simp; omega) (show IsFinal [size.rows, size.cols] 'H'.toUInt8 from ⟨by decide, by decide, by decide, nofun⟩)
  obtain ⟨values, moves⟩ : ∃ values, cursorPosition size { ctx.withParser q with scrollEnabled := false } = _ :=
    cursorPosition_last (given 0 Nat.zero_lt_two) (given 1 Nat.one_lt_two) rows cols
  refine ⟨{ q.close with escValues := values }, ⟨⟨rfl, closed.1.csi, rfl, closed.1.discardNext⟩, closed.2⟩,
    (ran (fbterm palette r) fb).trans ?_⟩
  change Option.map _ ((cursorPosition size { ctx.withParser q with scrollEnabled := false } >>= _).run _ fb) = _
  rw [moves]
  rfl

theorem putPrintable_run (rest : ctx.AtRest) (replace : ctx.insertMode = false) (charset : ctx.currentCharset < 2)
    (printable : Printable c) {σ : Type} (B : Backend σ) (s : σ) :
    (putAll size ctx [c]).run B s =
      (B.handle (ctx, .rawPutchar (translate (ctx.charsets ctx.currentCharset) c)) s).map (ctx, ·) := by
  have live : c ≠ 0x18 ∧ c ≠ 0x1a := Typed.live (.inr (.inr (.inr printable)))
  have alone : putAll size ctx [c] = termPutchar size ctx c := (putAll_cons size ctx c []).trans (bind_pure _)
  rw [alone]
  unfold termPutchar
  rw [if_neg (not_cancelled rest.idle.discardNext live), if_neg (by simp [rest.idle.escape]), if_neg (by simp [rest.select])]
  change (putByte size ctx _ _ c).run B s = _
  rw [putByte_printable printable]
  unfold putText
  rw [replace, if_neg Bool.false_ne_true, if_pos charset]
  exact Option.map_eq_bind.symm

theorem lastCell_falls (palette : Palette) (r : Raster size) (buffers : fb.Buffers size) (rest : ctx.AtRest)
    (scrolls : ctx.scrollEnabled) (replace : ctx.insertMode = false) (charset : ctx.currentCharset < 2)
    (region : ctx.scrollBottomMargin < size.rows) (column : fb.cursorX = size.cols - 1) (row : fb.cursorY = size.rows - 1)
    (printable : Printable c) :
    ∃ fb', (putAll size ctx [c]).run (fbterm palette r) fb = some (ctx, fb') ∧ fb'.cursorX = 0 ∧
      fb'.cursorY = size.rows ∧ fb'.cursorStatus = fb.cursorStatus := by
  obtain ⟨fb', put, fallen⟩ := rawPutchar_falls buffers column row scrolls region
    (c := translate (ctx.charsets ctx.currentCharset) c)
  refine ⟨fb', ?_, fallen⟩
  rw [putPrintable_run rest replace charset printable]
  exact congrArg (Option.map (ctx, ·)) put

theorem termWrite_outside {ctx' : TermContext} {text : List UInt8} (palette : Palette)
    (ran : (putAll size ctx text).run (fbterm palette r) fb = some (ctx', fb')) (auto : ctx'.autoflush)
    (column : fb'.cursorX = 0) (row : fb'.cursorY = size.rows) (visible : fb'.cursorStatus) :
    (termWrite size ctx text).run (fbterm palette r) fb = none := by
  have flushed : fb'.doubleBufferFlush r = none := flush_outside column row visible
  unfold termWrite
  rw [run_bind, ran]
  dsimp only [Option.bind_some]
  rw [performIf, if_pos auto]
  exact Option.bind_eq_none_iff.mpr fun _ h => absurd (h.symm.trans flushed) (Option.some_ne_none _)

/-- With a region that ends above the last row, a character in the last cell puts the cursor below
the grid, and the flush that follows looks at the cell behind the end of `map`. -/
theorem region_leaves_grid (palette : Palette) (r : Raster size) (buffers : fb.Buffers size) (rest : ctx.AtRest)
    (scrolls : ctx.scrollEnabled) (replace : ctx.insertMode = false) (auto : ctx.autoflush)
    (charset : ctx.currentCharset < 2) (visible : fb.cursorStatus) (rows : size.rows < 2 ^ 32)
    (cols : size.cols < 2 ^ 32) (pos : 1 ≤ t) (lt : t < n) (region : n < size.rows) (printable : Printable c) :
    let text := sequenceBytes [t, n] 'r'.toUInt8 ++ (sequenceBytes [size.rows, size.cols] 'H'.toUInt8 ++ [c])
    ∃ ctx' fb', (putAll size ctx text).run (fbterm palette r) fb = some (ctx', fb') ∧
      (fb'.cursorX = 0 ∧ fb'.cursorY = size.rows) ∧
      (add64 fb'.cursorX (mul64 fb'.cursorY size.cols) = size.cells ∧ fb'.look size size.cells = none) ∧
      (termWrite size ctx text).run (fbterm palette r) fb = none := by
  intro text
  obtain ⟨p, closed, margins⟩ := margins_run palette r fb rest pos lt (Nat.le_of_lt region) rows
  obtain ⟨q, closed', moved⟩ := lastCell_run palette r (fb.withBrush (fb.setCursorPos size 0 0))
    (show TermContext.AtRest { ctx.withParser p with scrollTopMargin := t - 1, scrollBottomMargin := n } from
      ⟨closed.1, closed.2.1, closed.2.2⟩) rows cols
  have rows_pos := size.rows_pos
  have cols_pos := size.cols_pos
  -- The two sequences move the cursor and leave the queue and the map alone.
  let ctx₁ := TermContext.withParser { ctx.withParser p with scrollTopMargin := t - 1, scrollBottomMargin := n } q
  let fb₁ := (fb.withBrush (fb.setCursorPos size 0 0)).withBrush
    ((fb.withBrush (fb.setCursorPos size 0 0)).setCursorPos size (size.cols - 1) (size.rows - 1))
  have buffers₁ : fb₁.Buffers size := ⟨buffers.mapped, buffers.queued⟩
  have rest₁ : ctx₁.AtRest := ⟨closed'.1, closed'.2.1, closed'.2.2⟩
  obtain ⟨fb', put, column, row, status⟩ := lastCell_falls palette r buffers₁ rest₁ scrolls replace charset region
    (clamp_of_lt (by omega)) (clamp_of_lt (by omega)) printable
  have ran : (putAll size ctx text).run (fbterm palette r) fb = some (ctx₁, fb') :=
    ((putAll_append_run margins _).trans (putAll_append_run moved _)).trans put
  exact ⟨ctx₁, fb', ran, ⟨column, row⟩, ⟨cursor_index_outside column row, look_outside fb'⟩,
    termWrite_outside palette ran auto column row (status.trans visible)⟩

/-- `ESC [ 1 ; 5 r`, right after the kernel took over a framebuffer of 1024 by 768. -/
theorem region_leaves_grid_xga : ∃ (size : Size) (r : Raster size) (fb : Fbterm) (ctx' : TermContext) (fb' : Fbterm),
    (size.rows = 47 ∧ size.cols = 113) ∧ (Fbterm.initial FbtermArgs.xga.palette .zero).takeOver r = some fb ∧
    (putAll size (TermContext.zeroed.reinit size) (sequenceBytes [1, 5] 'r'.toUInt8 ++
      (sequenceBytes [size.rows, size.cols] 'H'.toUInt8 ++ [0x41]))).run (fbterm FbtermArgs.xga.palette r) fb =
        some (ctx', fb') ∧ fb'.cursorY = 47 ∧ fb'.look size (47 * 113) = none := by
  obtain ⟨fb, taken, start⟩ := takeOver_refines FbtermArgs.xga.palette
    (FbtermArgs.raster FbtermArgs.xga_usable fun _ => false) fun _ => (rfl : Fresh.zero.map _ = none)
  have visible : fb.cursorStatus := congrArg Brush.cursorStatus start.brush
  have rest : (TermContext.zeroed.reinit (FbtermArgs.size FbtermArgs.xga_usable)).AtRest :=
    ⟨⟨rfl, rfl, rfl, rfl⟩, rfl, rfl⟩
  obtain ⟨ctx', fb', ran, ⟨-, row⟩, ⟨-, outside⟩, -⟩ := region_leaves_grid FbtermArgs.xga.palette _ start.toBuffers
    rest rfl rfl rfl Nat.zero_lt_two visible (by decide) (by decide) (show 1 ≤ 1 by decide) (show 1 < 5 by decide)
    (by decide) (show Printable 0x41 by decide)
  exact ⟨_, _, fb, ctx', fb', ⟨rfl, rfl⟩, taken, ran, row, outside⟩

end Region

def cubeLevel (k : Nat) : Nat := if k = 0 then 0 else 55 + 40 * k

/-- A cube of six levels for each of red, green and blue, and 24 greys. -/
def xtermColour (i : Nat) : Nat :=
  if i < 216 then cubeLevel (i / 36) * 0x10000 + cubeLevel (i / 6 % 6) * 0x100 + cubeLevel (i % 6)
  else (8 + 10 * (i - 216)) * 0x010101

def Palette.colour256 (palette : Palette) (col : Nat) : Nat :=
  if col < 8 then palette.ansiColours col
  else if col < 16 then palette.ansiBrightColours (col - 8)
  else xtermColour (col - 16)

def Brush.paint (b : Brush) (fg : Bool) (colour : Nat) : Brush := if fg then b.setTextFg colour else b.setTextBg colour

theorem col256_eq : col256 = (List.range 240).map xtermColour := by decide +kernel

section Palette

variable {palette : Palette} {size : Size} {r : Raster size} {ctx : TermContext} {pen : Pen} {fb : Fbterm} {fg : Bool}
  {v col : Nat}

theorem setPalette_run (lt : col < 256) :
    (setPalette ctx pen fg col).run (fbterm palette r) fb =
      some ((), fb.withBrush (fb.paint fg (palette.colour256 col))) := by
  unfold setPalette Palette.colour256
  by_cases low : col < 8
  · have inside (table : Nat → Nat) : entry table col = some (table col) := if_pos low
    rw [if_pos low, if_pos low]
    cases fg <;> simp [draw, perform, Calls.run, fbterm, Brush.perform, inside, Brush.paint]
  rw [if_neg low, if_neg low]
  by_cases high : col < 16
  · have inside (table : Nat → Nat) : entry table (col - 8) = some (table (col - 8)) := if_pos (by omega)
    rw [if_pos high, if_pos high]
    cases fg <;> simp [draw, perform, Calls.run, fbterm, Brush.perform, inside, Brush.paint]
  · have entry : col256[col - 16]? = some (xtermColour (col - 16)) := by
      rw [col256_eq, List.getElem?_map, List.getElem?_range (by omega)]
      rfl
    rw [if_neg high, if_neg high, entry]
    cases fg <;> rfl

theorem setPalette_fault (ge : 256 ≤ col) : setPalette ctx pen fg col = .fault := by
  have outside : col256[col - 16]? = none := List.getElem?_eq_none (by rw [col256_length]; omega)
  unfold setPalette
  rw [if_neg (by omega), if_neg (by omega), outside]

/-- `ESC [ 38 ; 5 ; n m` and `ESC [ 48 ; 5 ; n m` set the colour for every `n` below 256. For any
other the code reads behind the end of `col256`. -/
theorem palette_sequence (palette : Palette) (r : Raster size) (fb : Fbterm) (rest : ctx.AtRest)
    (select : v = 38 ∨ v = 48) (small : col < 2 ^ 32) :
    (col < 256 → ∃ p, (putAll size ctx (sequenceBytes [v, 5, col] 'm'.toUInt8)).run (fbterm palette r) fb =
      some (ctx.withParser p, fb.withBrush (fb.paint (v = 38) (palette.colour256 col)))) ∧
    (256 ≤ col → (putAll size ctx (sequenceBytes [v, 5, col] 'm'.toUInt8)).run (fbterm palette r) fb = none) := by
  obtain ⟨q, ⟨all, -⟩, -, ran⟩ := sequence_function size rest (Nat.le_of_ble_eq_true rfl)
    (by simp; omega) (show IsFinal [v, 5, col] 'm'.toUInt8 from ⟨by decide, by decide, by decide, nofun⟩)
  have count : q.escValuesI = 3 := escValuesI_eq all
  let ctx' : TermContext := { ctx.withParser q with scrollEnabled := false }
  have loop : sgrLoop ctx' ctx'.params ctx'.toPen = (do setPalette ctx' ctx'.toPen (v = 38) col; return ctx'.toPen) := by
    rw [show ctx'.params = _ from all, sgrLoop, if_pos select]
    rfl
  have function : runFunction size (ctx.withParser q) 'm'.toUInt8 = getCursorPos >>= fun _ =>
      sgr ctx' >>= fun ctx'' => .done { ctx'' with scrollEnabled := ctx.scrollEnabled } := rfl
  have started : sgr ctx' = (do setPalette ctx' ctx'.toPen (v = 38) col; return ctx'.withPen ctx'.toPen) := by
    unfold sgr
    rw [if_neg (show ctx'.escValuesI ≠ 0 by rw [show ctx'.escValuesI = 3 from count]; decide), loop, bind_assoc]
    rfl
  constructor
  · intro lt
    have painted : (sgr ctx').run (fbterm palette r) fb =
        some (ctx', fb.withBrush (fb.paint (v = 38) (palette.colour256 col))) := by
      rw [started, run_bind, setPalette_run lt]
      rfl
    refine ⟨q.close, (ran _ _).trans ?_⟩
    rw [function]
    change Option.map _ ((sgr ctx' >>= _).run _ fb) = _
    rw [run_bind, painted]
    rfl
  · intro ge
    rw [ran, function, started, setPalette_fault ge]
    rfl

/-- `ESC [ 38 ; 5 ; 196 m` is red, and `ESC [ 38 ; 5 ; 256 m` goes wrong. -/
theorem palette_sequence_red :
    ∃ (size : Size) (B : Backend Fbterm) (fb : Fbterm),
      (∃ p, (putAll size .zeroed (sequenceBytes [38, 5, 196] 'm'.toUInt8)).run B fb =
        some (TermContext.zeroed.withParser p, fb.withBrush (fb.setTextFg 0xff0000))) ∧
      (putAll size .zeroed (sequenceBytes [38, 5, 256] 'm'.toUInt8)).run B fb = none := by
  have rest : TermContext.zeroed.AtRest := ⟨⟨rfl, rfl, rfl, rfl⟩, rfl, rfl⟩
  exact ⟨_, fbterm FbtermArgs.xga.palette (FbtermArgs.raster FbtermArgs.xga_usable fun _ => false),
    .initial FbtermArgs.xga.palette .zero, (palette_sequence _ _ _ rest (.inl rfl) (by decide)).1 (by decide),
    (palette_sequence _ _ _ rest (.inl rfl) (by decide)).2 (by decide)⟩

end Palette

end Voyager.Terminal
