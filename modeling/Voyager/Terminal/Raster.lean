import Voyager.Lib.Loops
import Voyager.Terminal.Screen

/-!
# Characters as pixels

Where the cell shows a character in the same colours, `plot_char_fast` leaves what `plot_char`
would.
-/

namespace Voyager.Terminal

open Lib

/-- The geometry, the font and the background of the framebuffer. The text fits into it, and
no index overflows. -/
structure Raster (size : Size) where
  fontWidth : Nat
  fontHeight : Nat
  fontScaleX : Nat
  fontScaleY : Nat
  offsetX : Nat
  offsetY : Nat
  width : Nat
  height : Nat
  pitch : Nat
  fontBool : Nat → Bool
  canvas : Nat → Nat
  low : fontHeight ≤ 256
  right : offsetX + size.cols * (fontWidth * fontScaleX) ≤ width
  below : offsetY + size.rows * (fontHeight * fontScaleY) ≤ height
  stride_le : width ≤ pitch / 4
  fits : height * (pitch / 4) < 2 ^ 64

abbrev Pixels := Nat → Nat

namespace Raster

variable {size : Size} (r : Raster size)

def glyphWidth : Nat := r.fontWidth * r.fontScaleX

def glyphHeight : Nat := r.fontHeight * r.fontScaleY

def stride : Nat := r.pitch / 4

def glyph (c : UInt8) (fy fx : Nat) : Option Bool :=
  let i := c.toNat * r.fontHeight * r.fontWidth + (fy * r.fontWidth + fx)
  if i < 256 * r.fontHeight * r.fontWidth then some (r.fontBool i) else none

/-- The colour 0xffffffff is the canvas. -/
def colour (v X Y : Nat) : Option Nat :=
  if v = 0xffffffff then
    if X + Y * r.width < r.width * r.height then some (r.canvas (X + Y * r.width)) else none
  else some v

def setPixel (pixels : Pixels) (X Y v : Nat) : Option Pixels :=
  if X + Y * r.stride < r.height * r.stride then some (Function.update pixels (X + Y * r.stride) v) else none

def dots : List (Nat × Nat × Nat) :=
  (List.range r.glyphHeight).flatMap fun gy =>
    (List.range r.fontWidth).flatMap fun fx => (List.range r.fontScaleX).map fun i => (gy, fx, i)

/-- One round of the loops; `pick` says whether the dot is drawn, and `none` passes over it. -/
def plotDot (pick : Nat → Nat → Option (Option Bool)) (ch : FbChar) (X Y : Nat) (pixels : Pixels) :
    Nat × Nat × Nat → Option Pixels
  | (gy, fx, i) => do
    match ← pick (gy / r.fontScaleY % 2 ^ 8) fx with
    | none => some pixels
    | some draw => do
      let gx := r.fontScaleX * fx + i
      let bg ← r.colour ch.bg (X + gx) (Y + gy)
      let fg ← r.colour ch.fg (X + gx) (Y + gy)
      r.setPixel pixels (X + gx) (Y + gy) (if draw then fg else bg)

def plot (pick : Nat → Nat → Option (Option Bool)) (ch : FbChar) (x y : Nat) (pixels : Pixels) : Option Pixels :=
  if x ≥ size.cols ∨ y ≥ size.rows then some pixels
  else r.dots.foldlM (r.plotDot pick ch (r.offsetX + x * r.glyphWidth) (r.offsetY + y * r.glyphHeight)) pixels

def plotChar (ch : FbChar) : Nat → Nat → Pixels → Option Pixels :=
  r.plot (fun fy fx => (r.glyph ch.c fy fx).map some) ch

def changed (old ch : FbChar) (fy fx : Nat) : Option (Option Bool) := do
  let oldDraw ← r.glyph old.c fy fx
  let newDraw ← r.glyph ch.c fy fx
  return if oldDraw = newDraw then none else some newDraw

def plotCharFast (old ch : FbChar) : Nat → Nat → Pixels → Option Pixels := r.plot (r.changed old ch) ch

/-! ### What is on the screen -/

def fontDot (c : UInt8) (fy fx : Nat) : Bool :=
  r.fontBool (c.toNat * r.fontHeight * r.fontWidth + (fy * r.fontWidth + fx))

/-- The bit of the font for the dot `(gx, gy)` of a cell. -/
def bit (c : UInt8) (gx gy : Nat) : Bool := r.fontDot c (gy / r.fontScaleY) (gx / r.fontScaleX)

/-- A drawn or an empty dot of a character at the pixel `(X, Y)`. -/
def dot (ch : FbChar) (X Y : Nat) (draw : Bool) : Nat :=
  let v := if draw then ch.fg else ch.bg
  if v = 0xffffffff then r.canvas (X + Y * r.width) else v

def column (x gx : Nat) : Nat := r.offsetX + x * r.glyphWidth + gx

def line (y gy : Nat) : Nat := r.offsetY + y * r.glyphHeight + gy

def place (x y gx gy : Nat) : Nat := r.column x gx + r.line y gy * r.stride

def Shows (pixels : Pixels) (ch : FbChar) (x y : Nat) : Prop :=
  ∀ gx < r.glyphWidth, ∀ gy < r.glyphHeight,
    pixels (r.place x y gx gy) = r.dot ch (r.column x gx) (r.line y gy) (r.bit ch.c gx gy)

def InText (X Y : Nat) : Prop :=
  (r.offsetX ≤ X ∧ X < r.offsetX + size.cols * r.glyphWidth) ∧
  (r.offsetY ≤ Y ∧ Y < r.offsetY + size.rows * r.glyphHeight)

def Framed (pixels : Pixels) : Prop :=
  ∀ X < r.width, ∀ Y < r.height, ¬r.InText X Y → pixels (X + Y * r.stride) = r.canvas (X + Y * r.width)

end Raster

/-! ### Places -/

theorem digits_inj {a b a' b' n : Nat} (h : a + b * n = a' + b' * n) (lt : a < n) (lt' : a' < n) : a = a' ∧ b = b' := by
  have low : a = a' := by
    have := congrArg (· % n) h
    simpa [Nat.add_mul_mod_self_right, Nat.mod_eq_of_lt lt, Nat.mod_eq_of_lt lt'] using this
  subst low
  exact ⟨rfl, Nat.eq_of_mul_eq_mul_right (by omega) (Nat.add_left_cancel h)⟩

theorem mul_add_lt {a b m n : Nat} (ha : a < m) (hb : b < n) : a * n + b < m * n :=
  calc a * n + b < a * n + n := Nat.add_lt_add_left hb _
    _ = (a + 1) * n := (Nat.succ_mul a n).symm
    _ ≤ m * n := Nat.mul_le_mul_right n ha

namespace Raster

variable {size : Size} {r : Raster size} {pixels pixels' : Pixels} {ch old : FbChar} {x y x' y' gx gy gx' gy' X Y : Nat}

theorem column_lt (hx : x < size.cols) (hgx : gx < r.glyphWidth) :
    r.column x gx < r.offsetX + size.cols * r.glyphWidth := by
  have := mul_add_lt hx hgx
  unfold column
  omega

theorem line_lt (hy : y < size.rows) (hgy : gy < r.glyphHeight) :
    r.line y gy < r.offsetY + size.rows * r.glyphHeight := by
  have := mul_add_lt hy hgy
  unfold line
  omega

theorem inText (hx : x < size.cols) (hy : y < size.rows) (hgx : gx < r.glyphWidth) (hgy : gy < r.glyphHeight) :
    r.InText (r.column x gx) (r.line y gy) :=
  ⟨⟨by unfold column; omega, column_lt hx hgx⟩, by unfold line; omega, line_lt hy hgy⟩

theorem InText.column_lt (h : r.InText X Y) : X < r.width := Nat.lt_of_lt_of_le h.1.2 r.right

theorem InText.line_lt (h : r.InText X Y) : Y < r.height := Nat.lt_of_lt_of_le h.2.2 r.below

theorem place_inj (hx : x < size.cols) (hx' : x' < size.cols) (hy : y < size.rows) (hy' : y' < size.rows)
    (hgx : gx < r.glyphWidth) (hgx' : gx' < r.glyphWidth) (hgy : gy < r.glyphHeight) (hgy' : gy' < r.glyphHeight)
    (same : r.place x y gx gy = r.place x' y' gx' gy') : (x = x' ∧ y = y') ∧ gx = gx' ∧ gy = gy' := by
  have inside := (inText hx hy hgx hgy).column_lt
  have inside' := (inText hx' hy' hgx' hgy').column_lt
  obtain ⟨columns, lines⟩ := digits_inj same (Nat.lt_of_lt_of_le inside r.stride_le)
    (Nat.lt_of_lt_of_le inside' r.stride_le)
  have columns : gx + x * r.glyphWidth = gx' + x' * r.glyphWidth := by unfold column at columns; omega
  have lines : gy + y * r.glyphHeight = gy' + y' * r.glyphHeight := by unfold line at lines; omega
  obtain ⟨rfl, rfl⟩ := digits_inj columns hgx hgx'
  obtain ⟨rfl, rfl⟩ := digits_inj lines hgy hgy'
  exact ⟨⟨rfl, rfl⟩, rfl, rfl⟩

def OnlyIn (r : Raster size) (x y : Nat) (pixels pixels' : Pixels) : Prop :=
  ∀ j, (∀ gx < r.glyphWidth, ∀ gy < r.glyphHeight, r.place x y gx gy ≠ j) → pixels' j = pixels j

theorem OnlyIn.shows (only : r.OnlyIn x y pixels pixels') (hx : x < size.cols) (hy : y < size.rows)
    (hx' : x' < size.cols) (hy' : y' < size.rows) (apart : ¬(x' = x ∧ y' = y)) (h : r.Shows pixels ch x' y') :
    r.Shows pixels' ch x' y' := by
  intro gx hgx gy hgy
  rw [only _ fun gx' hgx' gy' hgy' same => apart ?_]
  · exact h gx hgx gy hgy
  · obtain ⟨⟨hx, hy⟩, -⟩ := place_inj hx hx' hy hy' hgx' hgx hgy' hgy same
    exact ⟨hx.symm, hy.symm⟩

theorem OnlyIn.framed (only : r.OnlyIn x y pixels pixels') (hx : x < size.cols) (hy : y < size.rows)
    (h : r.Framed pixels) : r.Framed pixels' := by
  intro X hX Y hY outside
  rw [only _ fun gx hgx gy hgy same => outside ?_]
  · exact h X hX Y hY outside
  · have inside := inText (r := r) hx hy hgx hgy
    obtain ⟨rfl, rfl⟩ := digits_inj same (Nat.lt_of_lt_of_le inside.column_lt r.stride_le)
      (Nat.lt_of_lt_of_le hX r.stride_le)
    exact inside

/-! ### The loops -/

theorem colour_eq {v : Nat} (hX : X < r.width) (hY : Y < r.height) :
    r.colour v X Y = some (if v = 0xffffffff then r.canvas (X + Y * r.width) else v) := by
  have inside := mul_add_lt hY hX
  unfold colour
  rw [if_pos (show X + Y * r.width < r.width * r.height by rw [Nat.mul_comm r.width]; omega)]
  split <;> rfl

theorem setPixel_eq {v : Nat} (hX : X < r.width) (hY : Y < r.height) :
    r.setPixel pixels X Y v = some (Function.update pixels (X + Y * r.stride) v) := by
  have inside := mul_add_lt hY (Nat.lt_of_lt_of_le hX r.stride_le)
  unfold setPixel
  exact if_pos (by unfold stride; omega)

theorem plotDot_eq {pick : Nat → Nat → Option (Option Bool)} {d : Option Bool} {fx i : Nat}
    (picked : pick (gy / r.fontScaleY % 2 ^ 8) fx = some d) (hX : X + (r.fontScaleX * fx + i) < r.width)
    (hY : Y + gy < r.height) :
    r.plotDot pick ch X Y pixels (gy, fx, i) =
      some (Function.update pixels (X + (r.fontScaleX * fx + i) + (Y + gy) * r.stride)
        ((d.map (r.dot ch (X + (r.fontScaleX * fx + i)) (Y + gy))).getD
          (pixels (X + (r.fontScaleX * fx + i) + (Y + gy) * r.stride)))) := by
  unfold plotDot
  dsimp only
  rw [picked]
  cases d with
  | none => exact congrArg some (Function.update_eq_self _ _).symm
  | some draw =>
    simp only [Option.bind_eq_bind, Option.bind_some, colour_eq hX hY, setPixel_eq hX hY, Option.map_some,
      Option.getD_some]
    cases draw <;> rfl

theorem mem_dots {fx i : Nat} : (gy, fx, i) ∈ r.dots ↔ gy < r.glyphHeight ∧ fx < r.fontWidth ∧ i < r.fontScaleX := by
  simp [dots]

theorem dot_column {fx i : Nat} (hfx : fx < r.fontWidth) (hi : i < r.fontScaleX) :
    r.fontScaleX * fx + i < r.glyphWidth ∧ (r.fontScaleX * fx + i) / r.fontScaleX = fx := by
  have inside := mul_add_lt hfx hi
  refine ⟨by rw [Nat.mul_comm]; exact inside, ?_⟩
  rw [Nat.mul_add_div (by omega), Nat.div_eq_of_lt hi, Nat.add_zero]

theorem plot_spec {pick : Nat → Nat → Option (Option Bool)} {draw : Nat → Nat → Option Bool}
    (picked : ∀ fy < r.fontHeight, ∀ fx < r.fontWidth, pick fy fx = some (draw fy fx))
    (hx : x < size.cols) (hy : y < size.rows) (pixels : Pixels) :
    ∃ pixels', r.plot pick ch x y pixels = some pixels' ∧ r.OnlyIn x y pixels pixels' ∧
      ∀ gx < r.glyphWidth, ∀ gy < r.glyphHeight, pixels' (r.place x y gx gy) =
        ((draw (gy / r.fontScaleY) (gx / r.fontScaleX)).map (r.dot ch (r.column x gx) (r.line y gy))).getD
          (pixels (r.place x y gx gy)) := by
  let key (d : Nat × Nat × Nat) : Nat := r.place x y (r.fontScaleX * d.2.1 + d.2.2) d.1
  let val (d : Nat × Nat × Nat) : Option Nat :=
    (draw (d.1 / r.fontScaleY) d.2.1).map (r.dot ch (r.column x (r.fontScaleX * d.2.1 + d.2.2)) (r.line y d.1))
  have row (gy : Nat) (hgy : gy < r.glyphHeight) : gy / r.fontScaleY < r.fontHeight :=
    Nat.div_lt_of_lt_mul (by rwa [Nat.mul_comm])
  have round : ∀ d ∈ r.dots, ∀ f g : Pixels, f = g →
      ∃ f', r.plotDot pick ch (r.offsetX + x * r.glyphWidth) (r.offsetY + y * r.glyphHeight) f d = some f' ∧
        f' = Function.update g (key d) ((val d).getD (g (key d))) := by
    rintro ⟨gy, fx, i⟩ mem f _ rfl
    obtain ⟨hgy, hfx, hi⟩ := mem_dots.mp mem
    have inside := inText (r := r) hx hy (dot_column hfx hi).1 hgy
    refine ⟨_, plotDot_eq (d := draw (gy / r.fontScaleY) fx) ?_ inside.column_lt inside.line_lt, rfl⟩
    have byte : gy / r.fontScaleY < 2 ^ 8 := Nat.lt_of_lt_of_le (row gy hgy) r.low
    rw [Nat.mod_eq_of_lt byte]
    exact picked _ (row gy hgy) _ hfx
  obtain ⟨pixels', ran, rfl⟩ := foldlM_follows round (rfl : pixels = pixels)
  have agree : ∀ d ∈ r.dots, ∀ e ∈ r.dots, key d = key e → val d = val e := by
    rintro ⟨gy, fx, i⟩ mem ⟨gy', fx', i'⟩ mem' same
    obtain ⟨hgy, hfx, hi⟩ := mem_dots.mp mem
    obtain ⟨hgy', hfx', hi'⟩ := mem_dots.mp mem'
    obtain ⟨hgx, back⟩ := dot_column (r := r) hfx hi
    obtain ⟨hgx', back'⟩ := dot_column (r := r) hfx' hi'
    obtain ⟨-, columns, rfl⟩ := place_inj hx hx hy hy hgx hgx' hgy hgy' same
    obtain rfl : fx = fx' := by rw [← back, columns, back']
    simp only [val, columns]
  refine ⟨writes pixels key val r.dots, ?_, fun j outside => writes_of_ne ?_, fun gx hgx gy hgy => ?_⟩
  · unfold plot
    rw [if_neg (by omega)]
    exact ran
  · rintro ⟨gy, fx, i⟩ mem
    obtain ⟨hgy, hfx, hi⟩ := mem_dots.mp mem
    exact outside _ (dot_column hfx hi).1 _ hgy
  · have pos : 0 < r.fontScaleX := Nat.pos_of_mul_pos_left (Nat.zero_lt_of_lt hgx)
    have mem : (gy, gx / r.fontScaleX, gx % r.fontScaleX) ∈ r.dots :=
      mem_dots.mpr ⟨hgy, Nat.div_lt_of_lt_mul (by rwa [Nat.mul_comm]), Nat.mod_lt _ pos⟩
    have wrote := writes_key (f := pixels) agree mem
    simp only [key, val, Nat.div_add_mod] at wrote
    exact wrote

theorem glyph_eq {c : UInt8} {fy fx : Nat} (hfy : fy < r.fontHeight) (hfx : fx < r.fontWidth) :
    r.glyph c fy fx = some (r.fontDot c fy fx) := by
  refine if_pos ?_
  have inside := mul_add_lt c.toNat_lt (mul_add_lt hfy hfx)
  rwa [← Nat.mul_assoc, ← Nat.mul_assoc] at inside

theorem changed_eq {fy fx : Nat} (hfy : fy < r.fontHeight) (hfx : fx < r.fontWidth) :
    r.changed old ch fy fx =
      some (if r.fontDot old.c fy fx = r.fontDot ch.c fy fx then none else some (r.fontDot ch.c fy fx)) := by
  unfold changed
  rw [glyph_eq hfy hfx, glyph_eq hfy hfx]
  rfl

theorem plotChar_shows (hx : x < size.cols) (hy : y < size.rows) (ch : FbChar) (pixels : Pixels) :
    ∃ pixels', r.plotChar ch x y pixels = some pixels' ∧ r.OnlyIn x y pixels pixels' ∧ r.Shows pixels' ch x y :=
  plot_spec (fun _ hfy _ hfx => congrArg (Option.map some) (glyph_eq hfy hfx)) hx hy pixels

theorem plotCharFast_shows (hx : x < size.cols) (hy : y < size.rows) (old ch : FbChar) (pixels : Pixels) :
    ∃ pixels', r.plotCharFast old ch x y pixels = some pixels' ∧ r.OnlyIn x y pixels pixels' ∧
      (old.fg = ch.fg → old.bg = ch.bg → r.Shows pixels old x y → r.Shows pixels' ch x y) := by
  obtain ⟨pixels', plotted, only, dots⟩ :=
    plot_spec (r := r) (fun _ hfy _ hfx => changed_eq hfy hfx) hx hy pixels
  refine ⟨pixels', plotted, only, fun fg bg shows gx hgx gy hgy => ?_⟩
  have before : pixels (r.place x y gx gy) = r.dot ch (r.column x gx) (r.line y gy) (r.bit old.c gx gy) := by
    rw [shows gx hgx gy hgy]
    unfold dot
    rw [fg, bg]
  rw [dots gx hgx gy hgy, before]
  unfold bit
  -- Where the glyphs agree the pixel is right already.
  split
  · rename_i same
    rw [same]
    rfl
  · rfl

/-- Over a character in the same colours the fast path leaves the pixels of the plain one. -/
theorem plotCharFast_eq (fg : old.fg = ch.fg) (bg : old.bg = ch.bg) (shows : r.Shows pixels old x y) :
    r.plotCharFast old ch x y pixels = r.plotChar ch x y pixels := by
  by_cases off : x ≥ size.cols ∨ y ≥ size.rows
  · exact (if_pos off).trans (if_pos off).symm
  · have hx : x < size.cols := by omega
    have hy : y < size.rows := by omega
    obtain ⟨fast, plotted, only, drawn⟩ := plotCharFast_shows (r := r) hx hy old ch pixels
    obtain ⟨plain, plotted', only', drawn'⟩ := plotChar_shows (r := r) hx hy ch pixels
    rw [plotted, plotted']
    refine congrArg some (funext fun j => ?_)
    by_cases inside : ∃ gx < r.glyphWidth, ∃ gy < r.glyphHeight, r.place x y gx gy = j
    · obtain ⟨gx, hgx, gy, hgy, rfl⟩ := inside
      exact (drawn fg bg shows gx hgx gy hgy).trans (drawn' gx hgx gy hgy).symm
    · have outside : ∀ gx < r.glyphWidth, ∀ gy < r.glyphHeight, r.place x y gx gy ≠ j :=
        fun gx hgx gy hgy same => inside ⟨gx, hgx, gy, hgy, same⟩
      rw [only j outside, only' j outside]

theorem plotCharFast_eq_dot : ∃ (r : Raster .vga) (pixels : Pixels), r.Shows pixels ⟨0x20, 7, 0⟩ 3 2 ∧
    r.plotCharFast ⟨0x20, 7, 0⟩ ⟨0x41, 7, 0⟩ 3 2 pixels = r.plotChar ⟨0x41, 7, 0⟩ 3 2 pixels := by
  let r : Raster .vga :=
    { fontWidth := 1, fontHeight := 1, fontScaleX := 1, fontScaleY := 1, offsetX := 0, offsetY := 0, width := 80
      height := 25, pitch := 320, fontBool := fun i => i = 0x41, canvas := fun _ => 0
      low := by decide, right := by decide, below := by decide, stride_le := by decide, fits := by decide }
  have shows : r.Shows (fun _ => 0) ⟨0x20, 7, 0⟩ 3 2 := fun gx hgx gy hgy => by
    obtain rfl : gx = 0 := Nat.lt_one_iff.mp hgx
    obtain rfl : gy = 0 := Nat.lt_one_iff.mp hgy
    decide
  exact ⟨r, _, shows, plotCharFast_eq rfl rfl shows⟩

end Raster

end Voyager.Terminal
