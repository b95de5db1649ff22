import Voyager.Terminal.Flush

/-!
# The terminal at boot

A map that comes zeroed from `malloc` is all that the first refresh needs: framebuffer.c does
not clear it.
-/

namespace Voyager.Terminal

open Lib

/-- One byte for each row of a glyph. -/
structure Font where
  width : Nat
  height : Nat
  spacing : Nat
  bits : Nat → UInt8

/-- The arguments of `fbterm_init`, and `builtin_font`. -/
structure FbtermArgs where
  width : Nat
  height : Nat
  pitch : Nat
  canvas : Option Pixels
  ansiColours : Option (Nat → Nat)
  ansiBrightColours : Option (Nat → Nat)
  defaultBg : Option Nat
  defaultFg : Option Nat
  font : Option Font
  builtinFont : Nat → UInt8
  fontScaleX : Nat
  fontScaleY : Nat
  margin : Nat

/-- What the memory from `malloc`, and the framebuffer, hold before. -/
structure Fresh where
  fontBool : Nat → Bool
  queue : Nat → QueueItem
  map : Nat → Option Nat
  framebuffer : Pixels

def Fresh.zero : Fresh where
  fontBool := fun _ => false
  queue := fun _ => ⟨0, 0, 0, 0, 0⟩
  map := fun _ => none
  framebuffer := fun _ => 0

/-! ### The font -/

namespace Font

variable (f : Font)

/-- `font_width` of the context. -/
def fullWidth : Nat := f.width + f.spacing

/-- The dot `(x, y)` of glyph `i`; from the ninth column on only line graphics go on. -/
def dot (i y x : Nat) : Bool :=
  let row := (f.bits (i * f.height + y)).toNat
  if x < 8 then row &&& 0x80 >>> x ≠ 0 else (0xc0 ≤ i ∧ i ≤ 0xdf) ∧ row &&& 1 ≠ 0

/-- The loops of `fbterm_init` over the glyphs, their rows and the columns. -/
def dots : List (Nat × Nat × Nat) :=
  (List.range 256).flatMap fun i => (List.range f.height).flatMap fun y =>
    (List.range 8 ++ List.range' 8 (f.fullWidth - 8)).map fun x => (i, y, x)

def offset (i y x : Nat) : Nat := i * f.height * f.fullWidth + (y * f.fullWidth + x)

def setDot (fontBool : Nat → Bool) : Nat × Nat × Nat → Option (Nat → Bool)
  | (i, y, x) =>
    if i * f.height + y < f.width * f.height * 256 / 8 ∧ f.offset i y x < 256 * f.height * f.fullWidth then
      some (Function.update fontBool (f.offset i y x) (f.dot i y x))
    else none

def build (fontBool : Nat → Bool) : Option (Nat → Bool) := f.dots.foldlM f.setDot fontBool

end Font

namespace Font

variable {f : Font} {i y x : Nat}

theorem mem_dots (wide : 8 ≤ f.width) : (i, y, x) ∈ f.dots ↔ i < 256 ∧ y < f.height ∧ x < f.fullWidth := by
  have columns : x ∈ List.range 8 ++ List.range' 8 (f.fullWidth - 8) ↔ x < f.fullWidth := by
    rw [List.mem_append, List.mem_range, List.mem_range'_1]
    unfold fullWidth
    omega
  unfold dots
  simp only [List.mem_flatMap, List.mem_map, List.mem_range, Prod.mk.injEq]
  constructor
  · rintro ⟨_, hi, _, hy, _, hx, rfl, rfl, rfl⟩
    exact ⟨hi, hy, columns.mp hx⟩
  · rintro ⟨hi, hy, hx⟩
    exact ⟨i, hi, y, hy, x, columns.mpr hx, rfl, rfl, rfl⟩

theorem setDot_eq (wide : 8 ≤ f.width) (hi : i < 256) (hy : y < f.height) (hx : x < f.fullWidth) (fontBool : Nat → Bool) :
    f.setDot fontBool (i, y, x) = some (Function.update fontBool (f.offset i y x) (f.dot i y x)) := by
  refine if_pos ⟨?_, ?_⟩
  · have row := mul_add_lt hi hy
    have bits : 8 * (f.height * 256) ≤ f.width * (f.height * 256) := Nat.mul_le_mul_right _ wide
    rw [Nat.mul_assoc, Nat.lt_div_iff_mul_lt (by decide)]
    omega
  · have inside := mul_add_lt hi (mul_add_lt hy hx)
    rwa [← Nat.mul_assoc, ← Nat.mul_assoc] at inside

theorem offset_inj {i' y' x' : Nat} (hy : y < f.height) (hx : x < f.fullWidth) (hy' : y' < f.height)
    (hx' : x' < f.fullWidth) (same : f.offset i y x = f.offset i' y' x') : i = i' ∧ y = y' ∧ x = x' := by
  unfold offset at same
  have inside := mul_add_lt hy hx
  have inside' := mul_add_lt hy' hx'
  rw [Nat.mul_assoc, Nat.mul_assoc, Nat.add_comm, Nat.add_comm (i' * _)] at same
  obtain ⟨low, rfl⟩ := digits_inj same inside inside'
  obtain ⟨rfl, rfl⟩ := digits_inj (show x + y * f.fullWidth = x' + y' * f.fullWidth by omega) hx hx'
  exact ⟨rfl, rfl, rfl⟩

theorem build_spec (wide : 8 ≤ f.width) (before : Nat → Bool) :
    ∃ fontBool, f.build before = some fontBool ∧
      ∀ i < 256, ∀ y < f.height, ∀ x < f.fullWidth, fontBool (f.offset i y x) = f.dot i y x := by
  let key (d : Nat × Nat × Nat) : Nat := f.offset d.1 d.2.1 d.2.2
  let val (d : Nat × Nat × Nat) : Option Bool := some (f.dot d.1 d.2.1 d.2.2)
  have round : ∀ d ∈ f.dots, ∀ t u : Nat → Bool, t = u →
      ∃ t', f.setDot t d = some t' ∧ t' = Function.update u (key d) ((val d).getD (u (key d))) := by
    rintro ⟨i, y, x⟩ mem t _ rfl
    obtain ⟨hi, hy, hx⟩ := (mem_dots wide).mp mem
    exact ⟨_, setDot_eq wide hi hy hx t, rfl⟩
  obtain ⟨fontBool, built, rfl⟩ := foldlM_follows round (rfl : before = before)
  refine ⟨_, built, fun i hi y hy x hx => ?_⟩
  have agree : ∀ d ∈ f.dots, ∀ e ∈ f.dots, key d = key e → val d = val e := by
    rintro ⟨i, y, x⟩ mem ⟨i', y', x'⟩ mem' same
    obtain ⟨-, hy, hx⟩ := (mem_dots wide).mp mem
    obtain ⟨-, hy', hx'⟩ := (mem_dots wide).mp mem'
    obtain ⟨rfl, rfl, rfl⟩ := offset_inj hy hx hy' hx' same
    rfl
  exact writes_key (f := before) agree ((mem_dots wide).mpr ⟨hi, hy, hx⟩)

end Font

/-! ### The geometry -/

namespace FbtermArgs

variable (a : FbtermArgs)

def face : Font := a.font.getD { width := 8, height := 16, spacing := 1, bits := a.builtinFont }

def glyphWidth : Nat := a.face.fullWidth * a.fontScaleX

def glyphHeight : Nat := a.face.height * a.fontScaleY

def cols : Nat := sub64 a.width (a.margin * 2) / a.glyphWidth

def rows : Nat := sub64 a.height (a.margin * 2) / a.glyphHeight

def offsetX : Nat := a.margin + sub64 a.width (a.margin * 2) % a.glyphWidth / 2

def offsetY : Nat := a.margin + sub64 a.height (a.margin * 2) % a.glyphHeight / 2

def background : Nat := a.defaultBg.getD 0x00000000

def ansi : List Nat := [0x000000, 0xaa0000, 0x00aa00, 0xaa5500, 0x0000aa, 0xaa00aa, 0x00aaaa, 0xaaaaaa]

def ansiBright : List Nat := [0x555555, 0xff5555, 0x55ff55, 0xffff55, 0x5555ff, 0xff55ff, 0x55ffff, 0xffffff]

def palette : Palette where
  ansiColours := a.ansiColours.getD fun i => ansi.getD i 0
  ansiBrightColours := a.ansiBrightColours.getD fun i => ansiBright.getD i 0
  defaultFg := a.defaultFg.getD 0x00aaaaaa

/-- The framebuffer has room for a character, and the glyphs for a byte in each row. -/
structure Usable : Prop where
  wide : 8 ≤ a.face.width
  low : a.face.height ≤ 256
  glyph : 0 < a.glyphWidth ∧ 0 < a.glyphHeight
  column : a.margin * 2 + a.glyphWidth ≤ a.width
  row : a.margin * 2 + a.glyphHeight ≤ a.height
  line : a.width ≤ a.pitch / 4
  small : a.height * (a.pitch / 4) * 32 < 2 ^ 64

variable {a}

section Layout

variable (h : a.Usable)

include h

theorem Usable.area : a.width * a.height * 32 < 2 ^ 64 := by
  refine Nat.lt_of_le_of_lt (Nat.mul_le_mul_right 32 ?_) h.small
  rw [Nat.mul_comm]
  exact Nat.mul_le_mul_left _ h.line

theorem Usable.width_lt : a.width < 2 ^ 64 := by
  have pos : 0 < a.height := by
    have := h.row
    have := h.glyph.2
    omega
  have := Nat.le_mul_of_pos_right a.width pos
  have := h.area
  omega

theorem Usable.height_lt : a.height < 2 ^ 64 := by
  have pos : 0 < a.width := by
    have := h.column
    have := h.glyph.1
    omega
  have := Nat.le_mul_of_pos_left a.height pos
  have := h.area
  omega

theorem Usable.cols_spec : a.cols * a.glyphWidth + (a.width - a.margin * 2) % a.glyphWidth = a.width - a.margin * 2 ∧
    a.offsetX = a.margin + (a.width - a.margin * 2) % a.glyphWidth / 2 := by
  have inside := h.column
  have room : sub64 a.width (a.margin * 2) = a.width - a.margin * 2 := sub64_of_le (by omega) h.width_lt
  unfold cols offsetX
  rw [room]
  exact ⟨Nat.div_add_mod' _ _, rfl⟩

theorem Usable.rows_spec : a.rows * a.glyphHeight + (a.height - a.margin * 2) % a.glyphHeight = a.height - a.margin * 2 ∧
    a.offsetY = a.margin + (a.height - a.margin * 2) % a.glyphHeight / 2 := by
  have inside := h.row
  have room : sub64 a.height (a.margin * 2) = a.height - a.margin * 2 := sub64_of_le (by omega) h.height_lt
  unfold rows offsetY
  rw [room]
  exact ⟨Nat.div_add_mod' _ _, rfl⟩

theorem Usable.cols_pos : 0 < a.cols := by
  have inside := h.column
  unfold cols
  rw [sub64_of_le (by omega) h.width_lt]
  exact Nat.div_pos (by omega) h.glyph.1

theorem Usable.rows_pos : 0 < a.rows := by
  have inside := h.row
  unfold rows
  rw [sub64_of_le (by omega) h.height_lt]
  exact Nat.div_pos (by omega) h.glyph.2

theorem Usable.cells_lt : a.rows * a.cols * 32 < 2 ^ 64 := by
  have columns := Nat.le_mul_of_pos_right a.cols h.glyph.1
  have lines := Nat.le_mul_of_pos_right a.rows h.glyph.2
  have cells : a.rows * a.cols ≤ a.height * a.width :=
    Nat.mul_le_mul (by have := h.rows_spec.1; omega) (by have := h.cols_spec.1; omega)
  have area := h.area
  rw [Nat.mul_comm a.width] at area
  omega

theorem Usable.right_le : a.offsetX + a.cols * a.glyphWidth ≤ a.width := by
  have := h.cols_spec
  have := h.column
  omega

theorem Usable.below_le : a.offsetY + a.rows * a.glyphHeight ≤ a.height := by
  have := h.rows_spec
  have := h.row
  omega

theorem Usable.lines_lt : a.height * (a.pitch / 4) < 2 ^ 64 := by
  have := h.small
  omega

end Layout

def size (h : a.Usable) : Size where
  rows := a.rows
  cols := a.cols
  rows_pos := h.rows_pos
  cols_pos := h.cols_pos
  fits := h.cells_lt

def raster (h : a.Usable) (fontBool : Nat → Bool) : Raster (a.size h) where
  fontWidth := a.face.fullWidth
  fontHeight := a.face.height
  fontScaleX := a.fontScaleX
  fontScaleY := a.fontScaleY
  offsetX := a.offsetX
  offsetY := a.offsetY
  width := a.width
  height := a.height
  pitch := a.pitch
  fontBool := fontBool
  canvas := a.canvas.getD fun _ => a.background
  low := h.low
  right := h.right_le
  below := h.below_le
  stride_le := h.line
  fits := h.lines_lt

structure Fitted (length margin offset count glyph : Nat) : Prop where
  margin_le : margin ≤ offset
  inside : offset + count * glyph + offset ≤ length
  centred : length ≤ offset + count * glyph + offset + 1
  full : length < margin * 2 + (count + 1) * glyph

theorem fitted {length margin offset count glyph rest : Nat} (sum : count * glyph + rest = length - margin * 2)
    (shift : offset = margin + rest / 2) (room : margin * 2 ≤ length) (lt : rest < glyph) :
    Fitted length margin offset count glyph := by
  have more : (count + 1) * glyph = count * glyph + glyph := Nat.succ_mul _ _
  constructor <;> omega

/-- The text is in the middle, inside the margin, and has all the room there is. -/
theorem layout_centred (usable : a.Usable) :
    Fitted a.width a.margin a.offsetX a.cols a.glyphWidth ∧ Fitted a.height a.margin a.offsetY a.rows a.glyphHeight := by
  have column := usable.column
  have row := usable.row
  exact ⟨fitted usable.cols_spec.1 usable.cols_spec.2 (by omega) (Nat.mod_lt _ usable.glyph.1),
    fitted usable.rows_spec.1 usable.rows_spec.2 (by omega) (Nat.mod_lt _ usable.glyph.2)⟩

def ofKernel (width height pitch : Nat) (builtinFont : Nat → UInt8) : FbtermArgs where
  width := width
  height := height
  pitch := pitch
  canvas := none
  ansiColours := none
  ansiBrightColours := none
  defaultBg := some 0x00000000
  defaultFg := some 0x0055ff55
  font := none
  builtinFont := builtinFont
  fontScaleX := 1
  fontScaleY := 1
  margin := 1

def xga : FbtermArgs := ofKernel 1024 768 4096 fun _ => 0

theorem xga_usable : xga.Usable := by
  constructor <;> decide

theorem layout_centred_xga : Fitted 1024 1 3 113 9 ∧ Fitted 768 1 8 47 16 := layout_centred xga_usable

end FbtermArgs

/-! ### The first picture -/

def Brush.initial (palette : Palette) : Brush where
  textFg := palette.defaultFg
  textBg := 0xffffffff
  cursorStatus := true
  cursorX := 0
  cursorY := 0
  savedStateTextFg := 0
  savedStateTextBg := 0
  savedStateCursorX := 0
  savedStateCursorY := 0

/-- The backend as `fbterm_init` leaves it. -/
def Fbterm.initial (palette : Palette) (fresh : Fresh) : Fbterm where
  toBrush := .initial palette
  grid := fun _ => (Brush.initial palette).blank
  queue := fresh.queue
  queueI := 0
  map := fresh.map
  oldCursorX := 0
  oldCursorY := 0
  framebuffer := fresh.framebuffer

/-- The plain screen at that time, already on show. -/
def Screen.initial (palette : Palette) (size : Size) : Screen :=
  let blank : Screen :=
    { toBrush := .initial palette
      cells := fun _ => (Brush.initial palette).blank
      display := fun _ => (Brush.initial palette).blank }
  { blank with display := blank.picture size }

/-- What `fbterm_init` sets up. -/
structure NewTerminal where
  size : Size
  raster : Raster size
  palette : Palette
  ctx : TermContext
  backend : Fbterm

def fbtermInit (a : FbtermArgs) (usable : a.Usable) (fresh : Fresh) : Option NewTerminal := do
  let fontBool ← a.face.build fresh.fontBool
  return {
    size := a.size usable
    raster := a.raster usable fontBool
    palette := a.palette
    ctx := TermContext.zeroed.reinit (a.size usable)
    backend := .initial a.palette fresh }

/-- What the kernel does with a new terminal. -/
def Fbterm.takeOver {size : Size} (r : Raster size) (fb : Fbterm) : Option Fbterm := do
  let fb ← fb.clear size true
  fb.fullRefresh r

section TakeOver

variable {size : Size} {r : Raster size} {palette : Palette} {fresh : Fresh}

theorem mem_screenPixels {X Y : Nat} : (X, Y) ∈ Fbterm.screenPixels r ↔ X < r.width ∧ Y < r.height := by
  unfold Fbterm.screenPixels
  simp only [List.mem_flatMap, List.mem_map, List.mem_range, Prod.mk.injEq]
  constructor
  · rintro ⟨_, hY, _, hX, rfl, rfl⟩
    exact ⟨hX, hY⟩
  · rintro ⟨hX, hY⟩
    exact ⟨Y, hY, X, hX, rfl, rfl⟩

theorem drawCanvas_spec (pixels : Pixels) :
    ∃ pixels', Fbterm.drawCanvas r pixels = some pixels' ∧
      ∀ X < r.width, ∀ Y < r.height, pixels' (X + Y * r.stride) = r.canvas (Y * r.width + X) := by
  let key (p : Nat × Nat) : Nat := p.1 + p.2 * r.stride
  let val (p : Nat × Nat) : Option Nat := some (r.canvas (p.2 * r.width + p.1))
  have round : ∀ p ∈ Fbterm.screenPixels r, ∀ t u : Pixels, t = u →
      ∃ t', r.setPixel t p.1 p.2 (r.canvas (p.2 * r.width + p.1)) = some t' ∧
        t' = Function.update u (key p) ((val p).getD (u (key p))) := by
    rintro ⟨X, Y⟩ mem t _ rfl
    obtain ⟨hX, hY⟩ := mem_screenPixels.mp mem
    exact ⟨_, Raster.setPixel_eq hX hY, rfl⟩
  obtain ⟨pixels', drawn, rfl⟩ := foldlM_follows round (rfl : pixels = pixels)
  refine ⟨_, drawn, fun X hX Y hY => ?_⟩
  have agree : ∀ p ∈ Fbterm.screenPixels r, ∀ q ∈ Fbterm.screenPixels r, key p = key q → val p = val q := by
    rintro ⟨X, Y⟩ mem ⟨X', Y'⟩ mem' same
    have hX := (mem_screenPixels.mp mem).1
    have hX' := (mem_screenPixels.mp mem').1
    obtain ⟨rfl, rfl⟩ := digits_inj same (Nat.lt_of_lt_of_le hX r.stride_le) (Nat.lt_of_lt_of_le hX' r.stride_le)
    rfl
  exact writes_key (f := pixels) agree (mem_screenPixels.mpr ⟨hX, hY⟩)

theorem pushToQueue_same {fb : Fbterm} {ch : FbChar} {x y : Nat} (free : fb.map (size.cell x y) = none)
    (same : fb.grid (size.cell x y) = ch) : fb.pushToQueue size ch x y = some fb := by
  unfold Fbterm.pushToQueue
  split
  · rfl
  · rw [free]

theorem initial_clear (zeroed : ∀ i, fresh.map i = none) :
    (Fbterm.initial palette fresh).clear size true = some (Fbterm.initial palette fresh) := by
  have blanked : (Fbterm.initial palette fresh).blankCells size 0 size.cells = some (Fbterm.initial palette fresh) :=
    foldlM_same fun i _ => pushToQueue_same (zeroed _) rfl
  exact Option.bind_eq_some_iff.mpr ⟨_, blanked, rfl⟩

theorem drawCells_spec (grid : Nat → FbChar) {pixels : Pixels} (framed : r.Framed pixels) :
    ∃ pixels', (List.range size.cells).foldlM
        (fun pixels i => r.plotChar (grid i) (i % size.cols) (i / size.cols) pixels) pixels = some pixels' ∧
      r.Framed pixels' ∧ ∀ x < size.cols, ∀ y < size.rows, size.cell x y < size.cells →
        r.Shows pixels' (grid (size.cell x y)) x y := by
  refine foldlM_range (I := fun k pixels => r.Framed pixels ∧ ∀ x < size.cols, ∀ y < size.rows, size.cell x y < k →
    r.Shows pixels (grid (size.cell x y)) x y) (fun k hk pixels h => ?_) ⟨framed, nofun⟩
  have hx := size.mod_lt k
  have hy := size.div_lt hk
  obtain ⟨pixels', plotted, only, drawn⟩ := Raster.plotChar_shows (r := r) hx hy (grid k) pixels
  refine ⟨pixels', plotted, only.framed hx hy h.1, fun x hx' y hy' lt => ?_⟩
  by_cases here : x = k % size.cols ∧ y = k / size.cols
  · obtain ⟨rfl, rfl⟩ := here
    rw [size.cell_mod_div]
    exact drawn
  · refine only.shows hx hy hx' hy' here (h.2 x hx' y hy' ?_)
    refine Nat.lt_of_le_of_ne (Nat.le_of_lt_succ lt) fun same => here ?_
    rw [← size.cell_mod_div k] at same
    exact Size.cell_inj hx' hx same

theorem takeOver_refines (palette : Palette) (r : Raster size) (zeroed : ∀ i, fresh.map i = none) :
    ∃ fb, (Fbterm.initial palette fresh).takeOver r = some fb ∧ Refines r fb (Screen.initial palette size) := by
  obtain ⟨pixels₁, canvas, drawn₁⟩ := drawCanvas_spec (r := r) fresh.framebuffer
  have framed : r.Framed pixels₁ := fun X hX Y hY _ => by rw [drawn₁ X hX Y hY, Nat.add_comm]
  obtain ⟨pixels₂, text, framed₂, drawn₂⟩ := drawCells_spec (Fbterm.initial palette fresh).grid framed
  obtain ⟨pixels₃, plotted, only, drawn₃⟩ := Raster.plotChar_shows (r := r) size.cols_pos size.rows_pos
    (Brush.initial palette).blank.inverse pixels₂
  refine ⟨(Fbterm.initial palette fresh).withPixels pixels₃, ?_, ?_⟩
  · have value : ((Fbterm.initial palette fresh).withPixels pixels₂).value (size.cell 0 0) = (Brush.initial palette).blank :=
      Fbterm.value_of_none (zeroed _)
    have cursor : ((Fbterm.initial palette fresh).withPixels pixels₂).drawCursor r =
        some ((Fbterm.initial palette fresh).withPixels pixels₃) := by
      rw [← value] at plotted
      refine (drawCursor_eq size.cols_pos size.rows_pos plotted).trans (congrArg some ?_)
      exact Fbterm.settle_eq_self (show ((Fbterm.initial palette fresh).withPixels pixels₃).map _ = none from zeroed _)
    have refreshed : (Fbterm.initial palette fresh).fullRefresh r =
        some ((Fbterm.initial palette fresh).withPixels pixels₃) :=
      Option.bind_eq_some_iff.mpr ⟨_, canvas, Option.bind_eq_some_iff.mpr ⟨_, text, cursor⟩⟩
    exact Option.bind_eq_some_iff.mpr ⟨_, initial_clear zeroed, refreshed⟩
  · exact {
      mapped := fun i _ q found => nomatch (zeroed i).symm.trans found
      queued := fun q hq => absurd hq (Nat.not_lt_zero q)
      brush := rfl
      cells := fun i _ => Fbterm.value_of_none (zeroed i)
      oldX := size.cols_pos
      oldY := size.rows_pos
      settled := fun i _ other => (if_neg fun here => other here.2).symm
      shows := fun x hx y hy => by
        by_cases here : x = 0 ∧ y = 0
        · obtain ⟨rfl, rfl⟩ := here
          rw [show (Screen.initial palette size).display (size.cell 0 0) = _ from if_pos ⟨rfl, rfl⟩]
          exact drawn₃
        · rw [show (Screen.initial palette size).display (size.cell x y) = _ from
            if_neg fun same => here (Size.cell_inj hx size.cols_pos same.2)]
          exact only.shows size.cols_pos size.rows_pos hx hy here (drawn₂ x hx y hy (Size.cell_lt hx hy))
      framed := only.framed size.cols_pos size.rows_pos framed₂ }

end TakeOver

end Voyager.Terminal
