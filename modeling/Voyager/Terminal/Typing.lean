import Voyager.Terminal.Console
import Voyager.Terminal.Sequences

/-!
# Text on the terminal

Whatever text is written, the terminal shows the end of a typewriter's sheet.
-/

namespace Voyager.Terminal

open Lib Calls

structure Sheet where
  row : Nat
  col : Nat
  ink : Nat → Nat → FbChar

namespace Sheet

def newLine (p : Sheet) : Sheet := { p with row := p.row + 1, col := 0 }

def inked (ch : FbChar) (p : Sheet) : Sheet :=
  { p with ink := Function.update p.ink p.row (Function.update (p.ink p.row) p.col ch) }

def advance (cols : Nat) (p : Sheet) : Sheet := if p.col + 1 = cols then p.newLine else { p with col := p.col + 1 }

def type (cols : Nat) (char : UInt8 → FbChar) (p : Sheet) (c : UInt8) : Sheet :=
  if c = 0x0a then p.newLine
  else if c = 0x0d then { p with col := 0 }
  else if c = 0x08 then { p with col := p.col - 1 }
  else (p.inked (char c)).advance cols

def top (rows : Nat) (p : Sheet) : Nat := p.row + 1 - rows

def blank (b : Brush) : Sheet := { row := 0, col := 0, ink := fun _ _ => b.blank }

end Sheet

/-- Neither a control character nor the eight-bit `ESC [`. -/
def Printable (c : UInt8) : Prop := 0x20 ≤ c ∧ c ≠ 0x7f ∧ c ≠ 0x9b

instance (c : UInt8) : Decidable (Printable c) := inferInstanceAs (Decidable (_ ∧ _))

def Typed (c : UInt8) : Prop := c = 0x0a ∨ c = 0x0d ∨ c = 0x08 ∨ Printable c

instance (c : UInt8) : Decidable (Typed c) := inferInstanceAs (Decidable (_ ∨ _))

/-- The context between two escape sequences, in replace mode. -/
structure TermContext.Typing (size : Size) (ctx : TermContext) : Prop where
  idle : ctx.toParser.Idle
  select : ctx.gSelect = 0
  whole : ctx.whole size
  scrolls : ctx.scrollEnabled
  replace : ctx.insertMode = false
  charset : ctx.currentCharset < 2

/-- The character for a byte, in the charset of the context. -/
def TermContext.char (ctx : TermContext) (b : Brush) (c : UInt8) : FbChar :=
  b.char (translate (ctx.charsets ctx.currentCharset) c)

def Brush.Like (b b' : Brush) : Prop :=
  b'.textFg = b.textFg ∧ b'.textBg = b.textBg ∧ b'.cursorStatus = b.cursorStatus

/-- The screen is the end of the sheet. -/
structure Shown (size : Size) (b : Brush) (p : Sheet) (s : Screen) : Prop where
  inside : p.col < size.cols
  column : s.cursorX = p.col
  line : p.top size.rows + s.cursorY = p.row
  cells : ∀ x < size.cols, ∀ y < size.rows, s.cells (size.cell x y) = p.ink (p.top size.rows + y) x
  below : ∀ row > p.row, ∀ x < size.cols, p.ink row x = b.blank
  like : b.Like s.toBrush

theorem Brush.Like.char {b b' : Brush} (like : b.Like b') (c : UInt8) : b'.char c = b.char c :=
  congrArg₂ (FbChar.mk c) like.1 like.2.1

section Shown

variable {palette : Palette} {size : Size} {b : Brush} {p : Sheet} {s : Screen} {ctx : TermContext} {c : UInt8}

namespace Shown

theorem row_lt (h : Shown size b p s) : s.cursorY < size.rows := by
  have line := h.line
  unfold Sheet.top at line
  omega

theorem moved (h : Shown size b p s) {x : Nat} (lt : x < size.cols) :
    Shown size b { p with col := x } (s.withBrush { s.toBrush with cursorX := x }) :=
  { h with inside := lt, column := rfl }

theorem inked (h : Shown size b p s) (ch : FbChar) :
    Shown size b (p.inked ch) (s.put size ch s.cursorX s.cursorY) := by
  have row := h.row_lt
  have column : s.cursorX < size.cols := h.column ▸ h.inside
  unfold Screen.put
  rw [if_pos ⟨column, row⟩]
  refine { h with cells := fun x hx y hy => ?_, below := fun row later x hx => ?_ }
  · change Function.update s.cells (size.cell s.cursorX s.cursorY) ch (size.cell x y) =
      Function.update p.ink p.row (Function.update (p.ink p.row) p.col ch) (p.top size.rows + y) x
    by_cases here : x = s.cursorX ∧ y = s.cursorY
    · rw [here.1, here.2, Function.update_self, h.line, Function.update_self, h.column, Function.update_self]
    · rw [Function.update_of_ne fun same => here (Size.cell_inj hx column same), h.cells x hx y hy]
      by_cases line : p.top size.rows + y = p.row
      · have apart : x ≠ p.col := fun same => here ⟨same.trans h.column.symm, by have := h.line; omega⟩
        rw [line, Function.update_self, Function.update_of_ne apart]
      · rw [Function.update_of_ne line]
  · change Function.update p.ink p.row _ row x = _
    rw [Function.update_of_ne (show row ≠ p.row from Nat.ne_of_gt later)]
    exact h.below row later x hx

theorem newLine (h : Shown size b p s) (room : s.cursorY + 1 < size.rows) :
    Shown size b p.newLine (s.withBrush { s.toBrush with cursorX := 0, cursorY := s.cursorY + 1 }) := by
  have line := h.line
  have top : p.top size.rows = 0 ∧ p.newLine.top size.rows = 0 := by
    unfold Sheet.top Sheet.newLine at *
    dsimp only
    omega
  refine { h with inside := size.cols_pos, column := rfl, line := ?_, cells := ?_, below := ?_ }
  · change p.newLine.top size.rows + (s.cursorY + 1) = p.row + 1
    omega
  · rw [top.2, ← top.1]
    exact h.cells
  · exact fun row later => h.below row (Nat.lt_of_succ_lt later)

theorem rowsUp_cell {blank : FbChar} {cells : Nat → FbChar} {x y : Nat} (hx : x < size.cols) (hy : y < size.rows) :
    Screen.rowsUp size.cols 0 size.rows blank cells (size.cell x y) =
      if y + 1 < size.rows then cells (size.cell x (y + 1)) else blank := by
  unfold Screen.rowsUp Size.cell
  by_cases last : y + 1 < size.rows
  · have inside := mul_add_lt (show y < size.rows - 1 by omega) hx
    rw [if_pos ⟨by omega, inside⟩, if_pos last, Nat.succ_mul]
    congr 1
    omega
  · have row : y = size.rows - 1 := by omega
    have inside := mul_add_lt hy hx
    rw [if_neg (by rw [row]; omega), if_pos ⟨by rw [row]; omega, inside⟩, if_neg last]

theorem scrolled (h : Shown size b p s) (whole : ctx.whole size) (last : s.cursorY + 1 = size.rows) {d : Brush}
    (inside : d.cursorX < size.cols) (line : d.cursorY = s.cursorY) (like : b.Like d) :
    ∃ s', (s.withBrush d).scroll size ctx = some s' ∧ Shown size b { p.newLine with col := d.cursorX } s' ∧
      s'.toBrush = d := by
  have row := h.line
  have top : p.newLine.top size.rows = p.top size.rows + 1 := by
    unfold Sheet.top Sheet.newLine at *
    dsimp only
    omega
  refine ⟨_, Screen.scroll_whole whole, ⟨inside, rfl, ?_, fun x hx y hy => ?_, ?_, like⟩, rfl⟩
  · change p.newLine.top size.rows + d.cursorY = p.row + 1
    omega
  · have blank : (s.withBrush d).blank = b.blank := like.char 0x20
    change Screen.rowsUp _ _ _ _ s.cells _ = p.ink (p.newLine.top size.rows + y) x
    rw [blank, rowsUp_cell hx hy, top]
    split
    · rename_i lt
      rw [h.cells x hx (y + 1) lt, Nat.add_assoc, Nat.add_comm y]
    · exact (h.below _ (by omega) x hx).symm
  · exact fun row later => h.below row (Nat.lt_of_succ_lt later)

theorem advance_within {b : Brush} (within : add64 b.cursorX 1 ≠ size.cols) :
    b.advance size ctx = { b with cursorX := add64 b.cursorX 1 } := if_neg fun wrap => within wrap.1

theorem advance_wrap {b : Brush} (wrap : add64 b.cursorX 1 = size.cols) (on : ctx.scrollEnabled) :
    b.advance size ctx = { b with cursorX := 0, cursorY := add64 b.cursorY 1 } := if_pos ⟨wrap, .inr on⟩

theorem stepOn (h : Shown size b p s) (whole : ctx.whole size) (on : ctx.scrollEnabled) :
    ∃ s', s.stepOn size ctx = some s' ∧ Shown size b (p.advance size.cols) s' := by
  have bottom := (TermContext.whole_iff.mp whole).2
  have inside := h.inside
  have row := h.row_lt
  have fits := size.cells_lt
  have rows := size.rows_le
  have cols := size.cols_le
  have right : add64 s.cursorX 1 = p.col + 1 := by rw [h.column, add64_of_lt (by omega)]
  have down : add64 s.cursorY 1 = s.cursorY + 1 := add64_of_lt (by omega)
  unfold Screen.stepOn Sheet.advance
  dsimp only
  by_cases wrap : p.col + 1 = size.cols
  · rw [if_pos wrap, advance_wrap (right.trans wrap) on, down, bottom]
    by_cases last : s.cursorY + 1 = size.rows
    · have back : sub64 (s.cursorY + 1) 1 = s.cursorY := by
        rw [sub64_of_le (by omega) (by omega), Nat.add_sub_cancel]
      obtain ⟨s', scrolled, shown, -⟩ := h.scrolled whole last
        (d := Brush.stepBack { s.toBrush with cursorX := 0, cursorY := s.cursorY + 1 }) size.cols_pos back h.like
      exact ⟨s', (if_pos last).trans scrolled, shown⟩
    · exact ⟨_, if_neg last, h.newLine (by omega)⟩
  · rw [if_neg wrap, advance_within (by rwa [right]), right]
    exact ⟨_, if_neg (show s.cursorY ≠ ctx.scrollBottomMargin by omega), h.moved (by omega)⟩

theorem rawPutchar (h : Shown size b p s) (whole : ctx.whole size) (on : ctx.scrollEnabled) (c : UInt8) :
    ∃ s', s.rawPutchar size ctx c = some s' ∧ Shown size b ((p.inked (b.char c)).advance size.cols) s' := by
  unfold Screen.rawPutchar
  rw [h.like.char]
  exact (h.inked _).stepOn whole on

end Shown

theorem putByte_printable {x y : Nat} (printable : Printable c) :
    putByte size ctx x y c = (do putText size ctx x y c; return ctx) := by
  have text : ByteCase.of c = .text := by
    unfold ByteCase.of
    split <;> first | rfl | exact absurd (byte_eq ‹_› ▸ printable) (by decide)
  unfold putByte
  rw [text]

theorem putText_shown (typing : ctx.Typing size) (h : Shown size b p s) {x y : Nat} :
    (putText size ctx x y c).Ensures (screen palette size)
      (fun _ s' => Shown size b ((p.inked (ctx.char b c)).advance size.cols) s') s := by
  obtain ⟨s', put, shown⟩ := h.rawPutchar typing.whole typing.scrolls (translate (ctx.charsets ctx.currentCharset) c)
  unfold putText
  rw [typing.replace, if_neg Bool.false_ne_true, if_pos typing.charset]
  exact ensures_perform put shown

theorem setCursorPos_eq {x y : Nat} (hx : x < size.cols) (hy : y < size.rows) :
    s.toBrush.setCursorPos size x y = { s.toBrush with cursorX := x, cursorY := y } := by
  unfold Brush.setCursorPos
  rw [clamp_of_lt hx, clamp_of_lt hy]

theorem moveTo_shown {x y : Nat} (hx : x < size.cols) (hy : y < size.rows)
    (h : Shown size b p (s.withBrush { s.toBrush with cursorX := x, cursorY := y })) :
    (perform ctx (.setCursorPos x y)).Ensures (screen palette size) (fun _ s' => Shown size b p s') s := by
  refine ensures_perform ?_ h
  rw [← setCursorPos_eq hx hy]
  rfl

theorem lineFeed_shown (typing : ctx.Typing size) (h : Shown size b p s) :
    (lineFeed ctx 0 s.cursorY).Ensures (screen palette size) (fun _ s' => Shown size b p.newLine s') s := by
  have bottom := (TermContext.whole_iff.mp typing.whole).2
  have row := h.row_lt
  have fits := size.cells_lt
  have rows := size.rows_le
  unfold lineFeed
  rw [bottom, sub64_of_le (by omega) (by omega), add64_of_lt (by omega)]
  split
  · obtain ⟨s', scrolled, shown, same⟩ := h.scrolled typing.whole (by omega) (d := s.toBrush) (h.column ▸ h.inside) rfl
      h.like
    refine (ensures_perform (Q := fun _ t => t = s') scrolled rfl).bind fun _ t _ eq => ?_
    subst eq
    refine moveTo_shown size.cols_pos row ?_
    have line : t.cursorY = s.cursorY := congrArg Brush.cursorY same
    rw [← line]
    exact shown.moved size.cols_pos
  · exact moveTo_shown size.cols_pos (by omega) (h.newLine (by omega))

theorem clamp_back {x : Nat} (lt : x < size.cols) : clamp size.cols (sub64 x 1) = x - 1 := by
  have fits := size.cells_lt
  have cols := size.cols_le
  unfold clamp sub64
  split_ifs <;> omega

theorem back_shown (h : Shown size b p s) :
    (perform ctx (.setCursorPos (sub64 s.cursorX 1) s.cursorY)).Ensures (screen palette size)
      (fun _ s' => Shown size b { p with col := p.col - 1 } s') s := by
  have inside := h.inside
  have moved : s.toBrush.setCursorPos size (sub64 s.cursorX 1) s.cursorY = { s.toBrush with cursorX := p.col - 1 } := by
    unfold Brush.setCursorPos
    rw [h.column, clamp_back inside, clamp_of_lt h.row_lt]
  refine ensures_perform ?_ (h.moved (show p.col - 1 < size.cols by omega))
  rw [← moved]
  rfl

theorem Typed.live (typed : Typed c) : c ≠ 0x18 ∧ c ≠ 0x1a := by
  constructor <;> rintro rfl <;> exact absurd typed (by decide)

theorem type_printable {char : UInt8 → FbChar} (printable : Printable c) :
    p.type size.cols char c = (p.inked (char c)).advance size.cols := by
  unfold Sheet.type
  split_ifs with feed carriage back
  · exact absurd (feed ▸ printable) (by decide)
  · exact absurd (carriage ▸ printable) (by decide)
  · exact absurd (back ▸ printable) (by decide)
  · rfl

theorem termPutchar_shown (typing : ctx.Typing size) (h : Shown size b p s) (typed : Typed c) :
    (termPutchar size ctx c).Ensures (screen palette size)
      (fun ctx' s' => ctx' = ctx ∧ Shown size b (p.type size.cols (ctx.char b) c) s') s := by
  unfold termPutchar
  rw [if_neg (not_cancelled typing.idle.discardNext typed.live), if_neg (by simp [typing.idle.escape]),
    if_neg (by simp [typing.select])]
  refine ensures_ask.mpr ?_
  change (putByte size ctx s.cursorX s.cursorY c).Ensures _ _ s
  have done {q : Sheet} : ∀ t, Shown size b q t →
      (Calls.done ctx : Code TermContext).Ensures (screen palette size) (fun ctx' t => ctx' = ctx ∧ Shown size b q t) t :=
    fun _ shown => ensures_done.mpr ⟨rfl, shown⟩
  rcases typed with rfl | rfl | rfl | printable
  · exact ensures_unit (lineFeed_shown typing h) done
  · exact ensures_unit (moveTo_shown size.cols_pos h.row_lt (h.moved size.cols_pos)) done
  · exact ensures_unit (back_shown h) done
  · rw [putByte_printable printable, type_printable printable]
    exact ensures_unit (putText_shown typing h) done

theorem putAll_shown (palette : Palette) {bytes : List UInt8} (typing : ctx.Typing size) (h : Shown size b p s)
    (typed : ∀ c ∈ bytes, Typed c) :
    (putAll size ctx bytes).Ensures (screen palette size)
      (fun ctx' s' => ctx' = ctx ∧ Shown size b (bytes.foldl (Sheet.type size.cols (ctx.char b)) p) s') s := by
  unfold putAll
  induction bytes generalizing p s with
  | nil => exact ensures_done.mpr ⟨rfl, h⟩
  | cons c bytes ih =>
    rw [List.foldlM_cons]
    refine (termPutchar_shown typing h (typed c List.mem_cons_self)).bind fun ctx' t _ hb => ?_
    obtain ⟨rfl, shown⟩ := hb
    exact ih shown fun d hd => typed d (List.mem_cons_of_mem _ hd)

end Shown

/-- What a window on the sheet looks like, with the cursor. -/
def Sheet.window (size : Size) (cursor : Bool) (p : Sheet) (x y : Nat) : FbChar :=
  let ch := p.ink (p.top size.rows + y) x
  if cursor ∧ x = p.col ∧ p.top size.rows + y = p.row then ch.inverse else ch

section Terminal

variable {palette : Palette} {size : Size} {r : Raster size} {ctx : TermContext} {fb : Fbterm} {s : Screen} {p : Sheet}
  {b : Brush}

theorem Shown.picture (h : Shown size b p s) {x y : Nat} (hx : x < size.cols) (hy : y < size.rows) :
    s.picture size (size.cell x y) = p.window size b.cursorStatus x y := by
  have inside : s.cursorX < size.cols := h.column ▸ h.inside
  have line : y = s.cursorY ↔ p.top size.rows + y = p.row := by rw [← h.line]; omega
  have here : size.cell x y = size.cell s.cursorX s.cursorY ↔ x = p.col ∧ p.top size.rows + y = p.row := by
    rw [cell_eq_cursor inside hx, h.column, line]
  unfold Screen.picture Sheet.window
  simp only [here, h.cells x hx y hy, h.like.2.2]

/-- Whatever text is typed on the terminal, it shows the end of the sheet. -/
theorem typed_text_shown (palette : Palette) {bytes : List UInt8} (start : Refines r fb s) (shown : Shown size b p s)
    (typing : ctx.Typing size) (auto : ctx.autoflush) (typed : ∀ c ∈ bytes, Typed c) :
    ∃ fb', (termWrite size ctx bytes).run (fbterm palette r) fb = some (ctx, fb') ∧ r.Framed fb'.framebuffer ∧
      ∀ x < size.cols, ∀ y < size.rows, r.Shows fb'.framebuffer
        ((bytes.foldl (Sheet.type size.cols (ctx.char b)) p).window size b.cursorStatus x y) x y := by
  obtain ⟨ctx', t, ran, rfl, typed⟩ := putAll_shown palette typing shown typed
  have placed : t.onGrid size := by simp [Brush.onGrid, typed.column, typed.inside, typed.row_lt]
  have flushed : (termWrite size ctx' bytes).run (screen palette size) s =
      some (ctx', { t with display := t.picture size }) := by
    unfold termWrite performIf
    rw [run_bind, ran]
    simp only [Option.bind_some, auto, if_true]
    exact Option.bind_eq_some_iff.mpr ⟨_, if_pos placed, rfl⟩
  obtain ⟨fb', ran', done⟩ := fbterm_simulates_screen.run start flushed
  refine ⟨fb', ran', done.framed, fun x hx y hy => ?_⟩
  rw [← typed.picture hx hy]
  exact done.shows x hx y hy

theorem Shown.initial (palette : Palette) (size : Size) :
    Shown size (.initial palette) (.blank (.initial palette)) (.initial palette size) := by
  have pos := size.rows_pos
  refine ⟨size.cols_pos, rfl, ?_, fun _ _ _ _ => rfl, fun _ _ _ _ => rfl, ⟨rfl, rfl, rfl⟩⟩
  change 0 + 1 - size.rows + 0 = 0
  omega

theorem zeroed_typing (size : Size) : (TermContext.zeroed.reinit size).Typing size :=
  ⟨⟨rfl, rfl, rfl, rfl⟩, rfl, by simp [TermContext.whole, TermContext.reinit], rfl, rfl, Nat.zero_lt_two⟩

theorem typed_text_shown_xga :
    ∃ (size : Size) (r : Raster size) (fb fb' : Fbterm),
      (Fbterm.initial FbtermArgs.xga.palette .zero).takeOver r = some fb ∧
      (termWrite size (TermContext.zeroed.reinit size) [0x48, 0x69]).run (fbterm FbtermArgs.xga.palette r) fb =
        some (TermContext.zeroed.reinit size, fb') ∧
      r.Shows fb'.framebuffer { c := 0x69, fg := 0x55ff55, bg := 0xffffffff } 1 0 := by
  let palette := FbtermArgs.xga.palette
  let size := FbtermArgs.size FbtermArgs.xga_usable
  have typed : ∀ c ∈ [0x48, 0x69], Typed c := by
    simp only [List.forall_mem_cons, List.not_mem_nil, false_implies, implies_true, and_true]
    decide
  have ink : ([0x48, 0x69].foldl (Sheet.type size.cols ((TermContext.zeroed.reinit size).char (.initial palette)))
      (.blank (.initial palette))).window size true 1 0 = { c := 0x69, fg := 0x55ff55, bg := 0xffffffff } := by
    decide
  obtain ⟨fb, taken, start⟩ := takeOver_refines palette (FbtermArgs.raster FbtermArgs.xga_usable fun _ => false)
    fun _ => (rfl : Fresh.zero.map _ = none)
  obtain ⟨fb', ran, -, shows⟩ :=
    typed_text_shown palette start (.initial palette size) (zeroed_typing size) rfl typed
  refine ⟨size, _, fb, fb', taken, ran, ?_⟩
  rw [← ink]
  exact shows 1 (by decide) 0 (by decide)

end Terminal

end Voyager.Terminal
