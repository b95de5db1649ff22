import Voyager.Terminal.Brush
import Voyager.Terminal.Recognition

/-!
# term.c leaves no array

On `brush` every text that sets no scrolling region runs to its end, with the cursor on the
grid.
-/

namespace Voyager.Terminal

open Lib Calls

/-- The row and the saved position are on the grid; the column can be past the last. -/
structure Brush.Held (size : Size) (b : Brush) : Prop where
  row : b.cursorY < size.rows
  savedColumn : b.savedStateCursorX < size.cols
  savedRow : b.savedStateCursorY < size.rows

structure Brush.Placed (size : Size) (b : Brush) : Prop extends b.Held size where
  column : b.cursorX < size.cols

structure Pen.Ok (pen : Pen) : Prop where
  charset : pen.currentCharset < 2
  primary : ∀ p, pen.currentPrimary = some p → p < 8

/-- What holds of the context between two calls, besides the parser. -/
structure TermContext.Sound (size : Size) (ctx : TermContext) : Prop where
  whole : ctx.whole size
  fixed : ctx.tabSize = 8 ∧ ctx.autoflush
  pen : ctx.toPen.Ok
  saved : ctx.savedState.Ok

section Brush

variable {palette : Palette} {size : Size} {ctx : TermContext} {b : Brush} {x y : Nat}

theorem TermContext.whole_iff : ctx.whole size ↔ ctx.scrollTopMargin = 0 ∧ ctx.scrollBottomMargin = size.rows := by
  simp [TermContext.whole]

namespace Brush

theorem Held.setCursorPos (h : b.Held size) (x y : Nat) : (b.setCursorPos size x y).Placed size :=
  ⟨⟨clamp_lt size.rows_pos, h.savedColumn, h.savedRow⟩, clamp_lt size.cols_pos⟩

theorem afterChar_cases (whole : ctx.whole size) (row : b.cursorY < size.rows) :
    ∃ x y, b.afterChar size ctx = { b with cursorX := x, cursorY := y } ∧ y < size.rows ∧
      (add64 b.cursorX 1 ≠ size.cols → x = add64 b.cursorX 1 ∧ y = b.cursorY) ∧
      (add64 b.cursorX 1 = size.cols → ctx.scrollEnabled → x = 0) := by
  have bottom := (TermContext.whole_iff.mp whole).2
  have fits := size.cells_lt
  have le := size.rows_le
  have down : add64 b.cursorY 1 = b.cursorY + 1 := add64_of_lt (by omega)
  unfold afterChar advance
  dsimp only
  by_cases wrap : add64 b.cursorX 1 = size.cols ∧ (b.cursorY < sub64 ctx.scrollBottomMargin 1 ∨ ctx.scrollEnabled)
  · rw [if_pos wrap]
    by_cases last : add64 b.cursorY 1 = ctx.scrollBottomMargin
    · refine ⟨0, b.cursorY, ?_, row, fun ne => absurd wrap.1 ne, fun _ _ => rfl⟩
      rw [if_pos last]
      unfold stepBack
      dsimp only
      rw [down, sub64_of_le (by omega) (by omega), Nat.add_sub_cancel]
    · rw [if_neg last]
      exact ⟨0, add64 b.cursorY 1, rfl, by omega, fun ne => absurd wrap.1 ne, fun _ _ => rfl⟩
  · rw [if_neg wrap, if_neg (show b.cursorY ≠ _ by omega)]
    exact ⟨add64 b.cursorX 1, b.cursorY, rfl, row, fun _ => ⟨rfl, rfl⟩, fun eq on => absurd ⟨eq, .inr on⟩ wrap⟩

theorem Held.afterChar (h : b.Held size) (whole : ctx.whole size) : (b.afterChar size ctx).Held size := by
  obtain ⟨x, y, eq, row, -⟩ := afterChar_cases whole h.row
  rw [eq]
  exact ⟨row, h.savedColumn, h.savedRow⟩

theorem Placed.afterChar (h : b.Placed size) (whole : ctx.whole size) (on : ctx.scrollEnabled) :
    (b.afterChar size ctx).Placed size := by
  obtain ⟨x, y, eq, row, inside, wrap⟩ := afterChar_cases whole h.row
  rw [eq]
  refine ⟨⟨row, h.savedColumn, h.savedRow⟩, ?_⟩
  have fits := size.cells_lt
  have le := size.cols_le
  have column := h.column
  have right : add64 b.cursorX 1 = b.cursorX + 1 := add64_of_lt (by omega)
  by_cases last : add64 b.cursorX 1 = size.cols
  · exact (wrap last on).symm ▸ size.cols_pos
  · have := (inside last).1
    dsimp only
    omega

end Brush

theorem ensures_perform {σ : Type} {B : Backend σ} {s s' : σ} {op : Operation} {Q : Unit → σ → Prop}
    (handled : B.handle (ctx, op) s = some s') (h : Q () s') : (perform ctx op).Ensures B Q s :=
  (ensures_call handled).mpr (ensures_done.mpr h)

theorem ensures_unit {σ α : Type} {B : Backend σ} {s : σ} {I : σ → Prop} {Q : α → σ → Prop} {m : Code Unit}
    {f : Unit → Code α} (first : m.Ensures B (fun _ => I) s) (rest : ∀ s, I s → (f ()).Ensures B Q s) :
    (m >>= f).Ensures B Q s :=
  first.bind fun _ s _ h => rest s h

/-! ### What one operation does -/

def Lands (palette : Palette) (size : Size) (b : Brush) (m : Code Unit) : Prop :=
  m.Ensures (brush palette size) (fun _ b => b.Placed size) b

theorem setCursorPos_placed (h : b.Held size) : Lands palette size b (perform ctx (.setCursorPos x y)) :=
  ensures_perform rfl (h.setCursorPos x y)

theorem rawPutchar_held {c : UInt8} (whole : ctx.whole size) (h : b.Held size) :
    (perform ctx (.rawPutchar c)).Ensures (brush palette size) (fun _ b => b.Held size) b :=
  ensures_perform (if_pos whole) (h.afterChar whole)

theorem moveCharacter_same {I : Brush → Prop} {newX newY oldX oldY : Nat} (h : I b) :
    (perform ctx (.moveCharacter newX newY oldX oldY)).Ensures (brush palette size) (fun _ => I) b :=
  ensures_perform rfl h

theorem notify_same {I : Brush → Prop} {notice : Notice} (h : I b) :
    (notify ctx notice).Ensures (brush palette size) (fun _ => I) b := by
  unfold notify performIf
  split
  · exact ensures_perform rfl h
  · exact ensures_done.mpr h

theorem putBlanks_held (whole : ctx.whole size) (count : Nat) (h : b.Held size) :
    (putBlanks ctx count).Ensures (brush palette size) (fun _ b => b.Held size) b :=
  ensures_forM _ (fun _ _ _ h => rawPutchar_held whole h) h

theorem putBlanks_placed (whole : ctx.whole size) (count : Nat) (h : b.Placed size)
    (inside : b.cursorX + count < size.cols) : Lands palette size b (putBlanks ctx count) := by
  unfold putBlanks
  generalize eq : List.range count = steps
  replace inside : b.cursorX + steps.length < size.cols := by rwa [← eq, List.length_range]
  clear eq
  induction steps generalizing b with
  | nil => exact ensures_done.mpr h
  | cons i steps ih =>
    rw [List.length_cons] at inside
    obtain ⟨x, y, eq, row, right, -⟩ := Brush.afterChar_cases whole h.row
    have fits := size.cells_lt
    have le := size.cols_le
    have next : add64 b.cursorX 1 = b.cursorX + 1 := add64_of_lt (by omega)
    obtain ⟨rfl, rfl⟩ := right (by omega)
    rw [List.forM_cons]
    refine ensures_unit (I := fun b' => b' = b.afterChar size ctx) (ensures_perform (if_pos whole) rfl) fun _ same => ?_
    rw [same, eq, next]
    exact ih ⟨⟨row, h.savedColumn, h.savedRow⟩, by dsimp only; omega⟩ (by dsimp only; omega)

end Brush

/-! ### Colours -/

/-- The operation changes a text colour, with a valid index. -/
def Operation.Colours : Operation → Prop
  | .setTextFg v | .setTextBg v | .setTextFgBright v | .setTextBgBright v => v < 8
  | .setTextFgRgb _ | .setTextBgRgb _ | .setTextFgDefault | .setTextBgDefault | .swapPalette => True
  | _ => False

theorem Operation.Colours.ite {p : Prop} [Decidable p] {op op' : Operation} (yes : op.Colours) (no : op'.Colours) :
    (if p then op else op').Colours := by
  split
  · exact yes
  · exact no

section Sgr

variable {palette : Palette} {size : Size} {ctx : TermContext} {pen : Pen} {b : Brush} {v : Nat}

theorem draw_placed {op : Operation} (valid : op.Colours) (h : b.Placed size) :
    Lands palette size b (draw ctx pen op) := by
  have found (table : Nat → Nat) {i : Nat} (lt : i < 8) : entry table i = some (table i) := if_pos lt
  cases op with
  | setTextFg v | setTextBg v | setTextFgBright v | setTextBgBright v =>
    exact ensures_perform (congrArg (Option.map _) (found _ valid)) ⟨⟨h.row, h.savedColumn, h.savedRow⟩, h.column⟩
  | setTextFgRgb | setTextBgRgb | setTextFgDefault | setTextBgDefault | swapPalette =>
    exact ensures_perform rfl ⟨⟨h.row, h.savedColumn, h.savedRow⟩, h.column⟩
  | _ => exact valid.elim

def Keeps (palette : Palette) (size : Size) (b : Brush) (m : Code Pen) : Prop :=
  m.Ensures (brush palette size) (fun pen b => pen.Ok ∧ b.Placed size) b

theorem draw_keeps {op : Operation} (valid : op.Colours) (ok : pen.Ok) (h : b.Placed size) :
    Keeps palette size b (draw ctx pen op >>= fun _ => pure pen) :=
  ensures_unit (draw_placed valid h) fun _ h => ensures_done.mpr ⟨ok, h⟩

theorem swapIf_placed (swap : Bool) (h : b.Placed size) : Lands palette size b (swapIf ctx swap pen) := by
  unfold swapIf performIf
  split
  · exact draw_placed (show Operation.swapPalette.Colours from trivial) h
  · exact ensures_done.mpr h

theorem sgrReverse_keeps (on : Bool) (ok : pen.Ok) (h : b.Placed size) : Keeps palette size b (sgrReverse ctx pen on) :=
  ensures_unit (swapIf_placed _ h) fun _ h => ensures_done.mpr ⟨⟨ok.charset, ok.primary⟩, h⟩

theorem sgrDefault_keeps (ok : pen.Ok) (h : b.Placed size) : Keeps palette size b (sgrDefault ctx pen) := by
  refine (sgrReverse_keeps false ok h).bind fun pen b _ hb => ?_
  refine ensures_unit (draw_placed trivial hb.2) fun b h => ?_
  exact draw_keeps trivial ⟨hb.1.charset, nofun⟩ h

theorem sgrBold_keeps (on : Bool) {fg bg : Nat → Operation} (ok : pen.Ok) (h : b.Placed size)
    (hfg : ∀ v < 8, (fg v).Colours) (hbg : ∀ v < 8, (bg v).Colours) :
    Keeps palette size b (sgrBold ctx pen on fg bg) := by
  unfold sgrBold
  dsimp only
  cases primary : pen.currentPrimary with
  | none => exact ensures_done.mpr ⟨⟨ok.charset, nofun⟩, h⟩
  | some p =>
    have lt := ok.primary p primary
    exact draw_keeps (.ite (hbg p lt) (hfg p lt)) ⟨ok.charset, fun q same => ok.primary q (primary.trans same)⟩ h

theorem Pen.Ok.primed (ok : pen.Ok) (lt : v < 8) : { pen with currentPrimary := some v }.Ok :=
  ⟨ok.charset, fun _ same => Option.some.inj same ▸ lt⟩

theorem sgrFg_keeps (lt : v < 8) (ok : pen.Ok) (h : b.Placed size) : Keeps palette size b (sgrFg ctx pen v) := by
  unfold sgrFg
  dsimp only
  split <;> exact draw_keeps (.ite lt lt) (ok.primed lt) h

theorem sgrBg_keeps (lt : v < 8) (ok : pen.Ok) (h : b.Placed size) : Keeps palette size b (sgrBg ctx pen v) := by
  unfold sgrBg
  split <;> exact draw_keeps (.ite lt lt) ok h

theorem setUnswapped_keeps {op : Operation} (valid : op.Colours) (ok : pen.Ok) (h : b.Placed size) :
    Keeps palette size b (setUnswapped ctx pen op) := by
  refine ensures_unit (swapIf_placed _ h) fun b h => ?_
  refine ensures_unit (draw_placed valid h) fun b h => ?_
  exact ensures_unit (swapIf_placed _ h) fun _ h => ensures_done.mpr ⟨ok, h⟩

theorem Keeps.ite {p : Prop} [Decidable p] {m m' : Code Pen} (yes : p → Keeps palette size b m)
    (no : ¬p → Keeps palette size b m') : Keeps palette size b (if p then m else m') := by
  by_cases h : p
  · rw [if_pos h]
    exact yes h
  · rw [if_neg h]
    exact no h

theorem sgrParameter_keeps (v : Nat) (ok : pen.Ok) (h : b.Placed size) :
    Keeps palette size b (sgrParameter ctx v pen) := by
  unfold sgrParameter
  refine .ite (fun _ => sgrDefault_keeps ok h) fun _ => ?_
  refine .ite (fun _ => sgrBold_keeps true ok h (fun _ => id) (fun _ => id)) fun _ => ?_
  refine .ite (fun _ => sgrBold_keeps false ok h (fun _ => id) (fun _ => id)) fun _ => ?_
  refine .ite (fun _ => sgrFg_keeps (by omega) ok h) fun _ => ?_
  refine .ite (fun _ => sgrBg_keeps (by omega) ok h) fun _ => ?_
  refine .ite (fun bright => ?_) fun _ => ?_
  · have lt : v - 90 < 8 := by omega
    exact draw_keeps (.ite lt lt) (ok.primed lt) h
  refine .ite (fun bright => ?_) fun _ => ?_
  · have lt : v - 100 < 8 := by omega
    exact draw_keeps (.ite lt lt) ok h
  refine .ite (fun _ => setUnswapped_keeps trivial ⟨ok.charset, nofun⟩ h) fun _ => ?_
  refine .ite (fun _ => setUnswapped_keeps trivial ok h) fun _ => ?_
  refine .ite (fun _ => sgrReverse_keeps true ok h) fun _ => ?_
  refine .ite (fun _ => sgrReverse_keeps false ok h) fun _ => ?_
  exact ensures_done.mpr ⟨ok, h⟩

theorem setRgb_placed {fg : Bool} (h : b.Placed size) : Lands palette size b (setRgb ctx pen fg v) :=
  draw_placed (.ite trivial trivial) h

theorem col256_length : col256.length = 240 := by decide +kernel

theorem setPalette_placed {fg : Bool} (lt : v < 256) (h : b.Placed size) :
    Lands palette size b (setPalette ctx pen fg v) := by
  unfold setPalette
  split
  · rename_i low
    exact draw_placed (.ite low low) h
  split
  · have bright : v - 8 < 8 := by omega
    exact draw_placed (.ite bright bright) h
  · have inside : v - 16 < col256.length := by rw [col256_length]; omega
    rw [List.getElem?_eq_getElem inside]
    exact setRgb_placed h

theorem sgrLoop_keeps {params : List Nat} (small : ∀ v ∈ params, v < 256) (ok : pen.Ok) (h : b.Placed size) :
    Keeps palette size b (sgrLoop ctx params pen) := by
  fun_induction sgrLoop ctx params pen generalizing b with
  | case1 => exact ensures_done.mpr ⟨ok, h⟩
  | case2 v pen isRgb r g bl rest ih =>
    refine ensures_unit (setRgb_placed h) fun b h => ?_
    exact ih (fun u hu => small u (by simp [hu])) ok h
  | case3 v pen isRgb col rest ih =>
    refine ensures_unit (setPalette_placed (small col (by simp)) h) fun b h => ?_
    exact ih (fun u hu => small u (by simp [hu])) ok h
  | case4 => exact ensures_done.mpr ⟨ok, h⟩
  | case5 => exact ensures_done.mpr ⟨ok, h⟩
  | case6 => exact ensures_done.mpr ⟨ok, h⟩
  | case7 v pen isRgb mode rest _ _ _ _ ih => exact ih (fun u hu => small u (by simp [hu])) ok h
  | case8 v pen rest other ih =>
    refine (sgrParameter_keeps v ok h).bind fun pen b _ hb => ?_
    exact ih pen (fun u hu => small u (List.mem_cons_of_mem _ hu)) hb.1 hb.2

theorem sgr_placed (small : ∀ v ∈ ctx.params, v < 256) (ok : ctx.toPen.Ok) (h : b.Placed size) :
    (sgr ctx).Ensures (brush palette size) (fun ctx' b => ctx'.toPen.Ok ∧ b.Placed size) b := by
  unfold sgr
  split
  · exact (sgrDefault_keeps ok h).bind fun pen b _ hb => ensures_done.mpr hb
  · exact (sgrLoop_keeps small ok h).bind fun pen b _ hb => ensures_done.mpr hb

end Sgr

/-! ### Control functions -/

/-- The code runs to its end, with the cursor on the grid. -/
def Safe (palette : Palette) (size : Size) (b : Brush) (m : Code TermContext) : Prop :=
  m.Ensures (brush palette size) (fun ctx b => ctx.Sound size ∧ b.Placed size) b

section Control

variable {palette : Palette} {size : Size} {ctx : TermContext} {b : Brush} {x y : Nat} {c : UInt8}

theorem TermContext.Sound.setEscValue (sound : ctx.Sound size) (i value : Nat) : (ctx.setEscValue i value).Sound size :=
  ⟨sound.whole, sound.fixed, sound.pen, sound.saved⟩

theorem TermContext.Sound.capped (sound : ctx.Sound size) {p : Prop} [Decidable p] (i value : Nat) :
    (if p then ctx.setEscValue i value else ctx).Sound size := by
  split
  · exact sound.setEscValue i value
  · exact sound

theorem TermContext.Sound.oneBased (sound : ctx.Sound size) (i limit : Nat) : (oneBased ctx i limit).Sound size :=
  (sound.setEscValue i _).capped i _

theorem move_safe (sound : ctx.Sound size) (h : b.Held size) :
    Safe palette size b (perform ctx (.setCursorPos x y) >>= fun _ => pure ctx) :=
  ensures_unit (setCursorPos_placed h) fun _ h => ensures_done.mpr ⟨sound, h⟩

theorem unit_safe {m : Code Unit} (sound : ctx.Sound size) (h : Lands palette size b m) :
    Safe palette size b (m >>= fun _ => pure ctx) :=
  ensures_unit h fun _ h => ensures_done.mpr ⟨sound, h⟩

theorem report_placed (h : b.Placed size) : Lands palette size b (report ctx x y) := by
  unfold report
  split
  · exact notify_same h
  · exact notify_same h
  · exact ensures_done.mpr h

theorem mem_readingOrder (hx : x < size.cols) (hy : y < size.rows) : (x, y) ∈ readingOrder size := by
  simp [readingOrder, hx, hy]

theorem blankThrough_placed (whole : ctx.whole size) {cells : List (Nat × Nat)} (found : (x, y) ∈ cells)
    (h : b.Held size) : Lands palette size b (blankThrough ctx x y cells) := by
  induction cells generalizing b with
  | nil => cases found
  | cons cell cells ih =>
    obtain ⟨xc, yc⟩ := cell
    unfold blankThrough
    refine ensures_unit (rawPutchar_held whole h) fun b h => ?_
    by_cases here : xc = x ∧ yc = y
    · rw [if_pos here]
      exact setCursorPos_placed h
    · rw [if_neg here]
      refine ih (List.mem_of_ne_of_mem ?_ found) h
      rintro ⟨⟩
      exact here ⟨rfl, rfl⟩

theorem eraseDisplay_placed (whole : ctx.whole size) (hx : x < size.cols) (hy : y < size.rows) (h : b.Placed size) :
    Lands palette size b (eraseDisplay size ctx x y) := by
  unfold eraseDisplay
  split
  · exact ensures_unit (putBlanks_held whole _ h.toHeld) fun _ h => setCursorPos_placed h
  · refine ensures_unit (setCursorPos_placed h.toHeld) fun _ h => ?_
    exact blankThrough_placed whole (mem_readingOrder hx hy) h.toHeld
  · exact ensures_perform rfl h
  · exact ensures_perform rfl h
  · exact ensures_done.mpr h

theorem insertBlanks_placed (whole : ctx.whole size) (h : b.Held size) :
    Lands palette size b (insertBlanks size ctx x y) := by
  refine ensures_unit (I := fun b => b.Held size) ?_ fun _ h => setCursorPos_placed h
  refine ensures_forM _ (fun i _ b h => ?_) h
  refine ensures_unit (moveCharacter_same h) fun b h => ?_
  exact ensures_unit (setCursorPos_placed h) fun b h => rawPutchar_held whole h.toHeld

theorem eraseCharacters_placed (whole : ctx.whole size) (h : b.Held size) :
    Lands palette size b (eraseCharacters ctx x y) :=
  ensures_unit (putBlanks_held whole _ h) fun _ h => setCursorPos_placed h

theorem deleteCharacters_placed (whole : ctx.whole size) (h : b.Held size) :
    Lands palette size b (deleteCharacters size ctx x y) := by
  refine ensures_unit (I := fun b => b.Held size) (ensures_forM _ (fun i _ b h => moveCharacter_same h) h) fun b h => ?_
  exact ensures_unit (setCursorPos_placed h) fun b h => eraseCharacters_placed whole h.toHeld

theorem eraseLine_placed (whole : ctx.whole size) (hx : x < size.cols) (h : b.Placed size) :
    Lands palette size b (eraseLine size ctx x y) := by
  unfold eraseLine
  split
  · exact ensures_unit (putBlanks_held whole _ h.toHeld) fun _ h => setCursorPos_placed h
  · refine ensures_unit (I := fun b' => b' = b.setCursorPos size 0 y) (ensures_perform rfl rfl) fun b' moved => ?_
    subst moved
    refine putBlanks_placed whole x (h.toHeld.setCursorPos 0 y) ?_
    change clamp size.cols 0 + x < size.cols
    rwa [clamp_of_lt size.cols_pos, Nat.zero_add]
  · refine ensures_unit (setCursorPos_placed h.toHeld) fun b h => ?_
    exact ensures_unit (putBlanks_held whole _ h.toHeld) fun _ h => setCursorPos_placed h
  · exact ensures_done.mpr h

theorem setMargins_safe (sound : ctx.Sound size) (none : ctx.escValuesI = 0) (h : b.Placed size) :
    Safe palette size b (setMargins size ctx) := by
  have whole : (askedMargins size ctx).whole size := by
    rw [TermContext.whole_iff]
    simp [askedMargins, none]
  refine move_safe ?_ h.toHeld
  split
  · exact ⟨by simp [TermContext.whole], sound.fixed, sound.pen, sound.saved⟩
  · exact ⟨whole, sound.fixed, sound.pen, sound.saved⟩

theorem modeToggle_safe (sound : ctx.Sound size) (h : b.Placed size) : Safe palette size b (modeToggle ctx c) := by
  unfold modeToggle
  split
  · exact ensures_done.mpr ⟨sound, h⟩
  split
  · exact ensures_done.mpr ⟨⟨sound.whole, sound.fixed, sound.pen, sound.saved⟩, h⟩
  · exact unit_safe sound (notify_same h)

theorem linuxPrivateParse_placed (h : b.Placed size) : Lands palette size b (linuxPrivateParse ctx) := by
  unfold linuxPrivateParse
  split
  · exact ensures_done.mpr h
  · exact notify_same h

theorem sgr_safe (sound : ctx.Sound size) (small : ∀ v ∈ ctx.params, v < 256) (h : b.Placed size) :
    Safe palette size b (sgr ctx) := by
  refine (sgr_placed small sound.pen h).mono fun ctx' b returned hb => ?_
  obtain ⟨pen, rfl⟩ := sgr_returns returned
  exact ⟨⟨sound.whole, sound.fixed, hb.1, sound.saved⟩, hb.2⟩

theorem controlFunction_safe (sound : ctx.Sound size) (h : b.Placed size) (hx : x < size.cols) (hy : y < size.rows)
    (colours : c = 'm'.toUInt8 → ∀ v ∈ ctx.params, v < 256) (margins : c = 'r'.toUInt8 → ctx.escValuesI = 0) :
    Safe palette size b (controlFunction size ctx x y c) := by
  unfold controlFunction
  cases eq : ControlCase.of c with
  | previousLine | up | nextLine | down | right | left => exact move_safe (sound.capped 0 _) h.toHeld
  | identify | leds => exact unit_safe sound (notify_same h)
  | row | column => exact move_safe (sound.oneBased _ _) h.toHeld
  | position => exact move_safe ((sound.oneBased _ _).oneBased _ _) h.toHeld
  | report => exact unit_safe sound (report_placed h)
  | eraseDisplay => exact unit_safe sound (eraseDisplay_placed sound.whole hx hy h)
  | insert => exact unit_safe sound (insertBlanks_placed sound.whole h.toHeld)
  | delete => exact unit_safe sound (deleteCharacters_placed sound.whole h.toHeld)
  | erase => exact unit_safe sound (eraseCharacters_placed sound.whole h.toHeld)
  | sgr => exact sgr_safe sound (colours (ControlCase.of_sgr eq)) h
  | saveCursor => exact ensures_done.mpr ⟨⟨sound.whole, sound.fixed, sound.pen, sound.saved⟩, h⟩
  | restoreCursor => exact move_safe sound h.toHeld
  | eraseLine => exact unit_safe sound (eraseLine_placed sound.whole hx h)
  | margins => exact setMargins_safe sound (margins (ControlCase.of_margins eq)) h
  | mode => exact modeToggle_safe sound h
  | linux => exact unit_safe sound (linuxPrivateParse_placed h)
  | other => exact ensures_done.mpr ⟨sound, h⟩

end Control

/-! ### Bytes -/

/-- It sets no scrolling region and takes no colour outside the 256. -/
def Sequence.Tame (s : Sequence) : Prop :=
  s.decPrivate = false →
    (s.final = 'm'.toUInt8 → ∀ v ∈ s.params, v < 256) ∧ (s.final = 'r'.toUInt8 → s.params = [])

instance (s : Sequence) : Decidable s.Tame :=
  inferInstanceAs (Decidable (s.decPrivate = false →
    (s.final = 'm'.toUInt8 → ∀ v ∈ s.params, v < 256) ∧ (s.final = 'r'.toUInt8 → s.params = [])))

structure TermContext.Steady (size : Size) (ctx : TermContext) : Prop extends ctx.Sound size where
  scrolls : ctx.scrollEnabled

def Settles (palette : Palette) (size : Size) (b : Brush) (m : Code TermContext) : Prop :=
  m.Ensures (brush palette size) (fun ctx b => ctx.Steady size ∧ b.Placed size) b

section Bytes

variable {palette : Palette} {size : Size} {ctx : TermContext} {b : Brush} {x y : Nat} {c : UInt8}

theorem TermContext.Steady.withParser (steady : ctx.Steady size) (p : Parser) : (ctx.withParser p).Steady size :=
  ⟨⟨steady.whole, steady.fixed, steady.pen, steady.saved⟩, steady.scrolls⟩

theorem unit_settles {m : Code Unit} (steady : ctx.Steady size) (h : Lands palette size b m) :
    Settles palette size b (m >>= fun _ => pure ctx) :=
  ensures_unit h fun _ h => ensures_done.mpr ⟨steady, h⟩

theorem decPrivateParse_settles (steady : ctx.Steady size) (h : b.Placed size) :
    Settles palette size b (decPrivateParse ctx c) := by
  have steady' := steady.withParser { ctx.toParser with decPrivate := false }
  unfold decPrivateParse
  dsimp only
  split
  · exact ensures_done.mpr ⟨steady', h⟩
  split
  · refine unit_settles steady' ?_
    split <;> exact ensures_perform rfl ⟨⟨h.row, h.savedColumn, h.savedRow⟩, h.column⟩
  · exact unit_settles steady' (notify_same h)

theorem runFunction_settles (steady : ctx.Steady size) (h : b.Placed size)
    (colours : c = 'm'.toUInt8 → ∀ v ∈ ctx.params, v < 256) (margins : c = 'r'.toUInt8 → ctx.escValuesI = 0) :
    Settles palette size b (runFunction size ctx c) := by
  have sound : { ctx with scrollEnabled := false }.Sound size := ⟨steady.whole, steady.fixed, steady.pen, steady.saved⟩
  refine (controlFunction_safe sound h h.column h.row colours margins).bind fun ctx' b' _ hb => ?_
  exact ensures_done.mpr ⟨⟨⟨hb.1.whole, hb.1.fixed, hb.1.pen, hb.1.saved⟩, steady.scrolls⟩, hb.2⟩

theorem fillDefaults_params {p : Parser} : (fillDefaults p c).params = p.params :=
  front_congr fun _ lt => if_neg fun given => absurd lt (Nat.not_lt_of_le given.1)

theorem runSequence_settles (steady : ctx.Steady size) (h : b.Placed size)
    (tame : Sequence.Tame { decPrivate := ctx.decPrivate, params := ctx.params, final := c }) :
    Settles palette size b (runSequence size ctx c) := by
  have steady' := steady.withParser (fillDefaults ctx.toParser c)
  unfold runSequence
  dsimp only
  split
  · exact (decPrivateParse_settles steady' h).bind fun ctx' b' _ hb => ensures_done.mpr ⟨hb.1.withParser _, hb.2⟩
  · rename_i standard
    obtain ⟨colours, margins⟩ := tame (Bool.eq_false_of_not_eq_true standard)
    refine (runFunction_settles steady' h (fun m => ?_) (fun r => ?_)).bind
      fun ctx' b' _ hb => ensures_done.mpr ⟨hb.1.withParser _, hb.2⟩
    · change ∀ v ∈ (fillDefaults ctx.toParser c).params, v < 256
      rw [fillDefaults_params]
      exact colours m
    · have empty := congrArg List.length (margins r)
      rwa [Parser.params, front_length] at empty

theorem controlSequenceParse_settles (steady : ctx.Steady size) (h : b.Placed size) (opened : ctx.toParser.Open)
    (live : c ≠ 0x18 ∧ c ≠ 0x1a) (tame : ∀ s ∈ ctx.toParser.recogniser.completed c, s.Tame) :
    Settles palette size b (controlSequenceParse size (ctx.withParser ctx.toParser.further) c) := by
  have reads := opened.reads live
  cases read : ctx.toParser.further.read c with
  | more p =>
    rw [controlSequenceParse_more (show (ctx.withParser ctx.toParser.further).toParser.read c = _ from read)]
    exact ensures_done.mpr ⟨steady.withParser p, h⟩
  | final p =>
    rw [read] at reads
    rw [controlSequenceParse_final (show (ctx.withParser ctx.toParser.further).toParser.read c = _ from read)]
    obtain ⟨-, completed, n, -, same⟩ := reads
    refine runSequence_settles (steady.withParser p) h ?_
    have kept : p.decPrivate = ctx.decPrivate := by rw [same]; rfl
    change Sequence.Tame { decPrivate := p.decPrivate, params := p.params, final := c }
    rw [kept]
    exact tame _ completed
  | outside =>
    rw [read] at reads
    exact reads.elim

theorem lineFeed_placed (whole : ctx.whole size) (h : b.Held size) : Lands palette size b (lineFeed ctx x y) := by
  unfold lineFeed
  split
  · exact ensures_unit (ensures_perform (if_pos whole) h) fun _ h => setCursorPos_placed h
  · exact setCursorPos_placed h

theorem reverseLineFeed_placed (whole : ctx.whole size) (two : 2 ≤ size.rows) (h : b.Held size) :
    Lands palette size b (reverseLineFeed ctx y) := by
  unfold reverseLineFeed
  split
  · exact ensures_unit (ensures_perform (if_pos ⟨whole, two⟩) h) fun _ h => setCursorPos_placed h
  · exact setCursorPos_placed h

theorem reinit_steady (saved : ctx.savedState.Ok) : (ctx.reinit size).Steady size :=
  ⟨⟨by simp [TermContext.whole, TermContext.reinit], ⟨rfl, rfl⟩, ⟨Nat.zero_lt_two, nofun⟩, saved⟩, rfl⟩

theorem escapeFunction_settles (steady : ctx.Steady size) (boot : ctx.inBootloader = false) (two : 2 ≤ size.rows)
    (h : b.Placed size) : Settles palette size b (escapeFunction size ctx x y c) := by
  unfold escapeFunction
  cases EscapeCase.of c with
  | saveState =>
    refine ensures_unit (I := fun b => b.Placed size) (ensures_perform rfl ⟨⟨h.row, h.column, h.row⟩, h.column⟩) fun b h => ?_
    exact ensures_done.mpr ⟨⟨⟨steady.whole, steady.fixed, steady.pen, steady.pen⟩, steady.scrolls⟩, h⟩
  | restoreState =>
    refine unit_settles ⟨⟨steady.whole, steady.fixed, steady.saved, steady.saved⟩, steady.scrolls⟩ ?_
    exact ensures_perform rfl ⟨⟨h.savedRow, h.savedColumn, h.savedRow⟩, h.savedColumn⟩
  | reset =>
    refine unit_settles (reinit_steady steady.saved) ?_
    exact ensures_perform rfl ⟨⟨size.rows_pos, h.savedColumn, h.savedRow⟩, size.cols_pos⟩
  | lineFeed | nextLine => exact unit_settles steady (lineFeed_placed steady.whole h.toHeld)
  | reverseLineFeed => exact unit_settles steady (reverseLineFeed_placed steady.whole two h.toHeld)
  | identify => exact unit_settles steady (notify_same h)
  | designate => exact ensures_done.mpr ⟨steady.withParser _, h⟩
  | escape =>
    refine unit_settles steady ?_
    rw [boot]
    exact ensures_done.mpr h
  | other => exact ensures_done.mpr ⟨steady, h⟩

theorem escapeParse_settles (steady : ctx.Steady size) (boot : ctx.inBootloader = false) (two : 2 ≤ size.rows)
    (h : b.Placed size) (ok : ctx.toParser.Ok) (kept : ctx.discardNext = false) (live : c ≠ 0x18 ∧ c ≠ 0x1a)
    (tame : ∀ s ∈ ctx.toParser.recogniser.completed c, s.Tame) : Settles palette size b (escapeParse size ctx c) := by
  unfold escapeParse
  dsimp only
  split
  case isTrue opened => exact controlSequenceParse_settles steady h ⟨ok, opened, kept⟩ live tame
  split
  · exact ensures_done.mpr ⟨(steady.withParser _).withParser _, h⟩
  refine ensures_ask.mpr ?_
  dsimp only
  split
  · exact ensures_done.mpr ⟨(steady.withParser _).withParser _, h⟩
  · refine (escapeFunction_settles (steady.withParser ctx.toParser.further) boot two h).bind fun ctx' b' _ hb => ?_
    exact ensures_done.mpr ⟨hb.1.withParser _, hb.2⟩

theorem tab_placed (eight : ctx.tabSize = 8) (h : b.Held size) : Lands palette size b (tab size ctx x y) := by
  unfold Terminal.tab
  rw [if_neg (by omega)]
  split <;> exact setCursorPos_placed h

theorem putText_placed (steady : ctx.Steady size) (h : b.Placed size) :
    Lands palette size b (putText size ctx x y c) := by
  unfold putText
  refine ensures_unit (ensures_forM _ (fun i _ b h => moveCharacter_same h) h) fun b h => ?_
  rw [if_pos steady.pen.charset]
  exact ensures_perform (if_pos steady.whole) (h.afterChar steady.whole steady.scrolls)

theorem putByte_settles (steady : ctx.Steady size) (h : b.Placed size) :
    Settles palette size b (putByte size ctx x y c) := by
  have shifted {n : Nat} (lt : n < 2) : (ctx.withPen { ctx.toPen with currentCharset := n }).Steady size :=
    ⟨⟨steady.whole, steady.fixed, ⟨lt, steady.pen.primary⟩, steady.saved⟩, steady.scrolls⟩
  unfold putByte
  cases ByteCase.of c with
  | ignored => exact ensures_done.mpr ⟨steady, h⟩
  | csi | escape => exact ensures_done.mpr ⟨steady.withParser _, h⟩
  | tab => exact unit_settles steady (tab_placed steady.fixed.1 h.toHeld)
  | lineFeed => exact unit_settles steady (lineFeed_placed steady.whole h.toHeld)
  | backspace | carriageReturn => exact unit_settles steady (setCursorPos_placed h.toHeld)
  | bell => exact unit_settles steady (notify_same h)
  | shiftOut => exact ensures_done.mpr ⟨shifted Nat.one_lt_two, h⟩
  | shiftIn => exact ensures_done.mpr ⟨shifted Nat.zero_lt_two, h⟩
  | text => exact unit_settles steady (putText_placed steady h)

theorem termPutchar_settles (steady : ctx.Steady size) (boot : ctx.inBootloader = false) (two : 2 ≤ size.rows)
    (h : b.Placed size) (ok : ctx.toParser.Ok) (tame : ∀ s ∈ ctx.toParser.recogniser.completed c, s.Tame) :
    Settles palette size b (termPutchar size ctx c) := by
  unfold termPutchar
  split
  case isTrue => exact ensures_done.mpr ⟨steady.withParser _, h⟩
  case isFalse on =>
    have kept : ctx.discardNext = false := by simpa using fun h => on (.inl h)
    have live : c ≠ 0x18 ∧ c ≠ 0x1a := ⟨fun h => on (.inr ⟨boot, .inl h⟩), fun h => on (.inr ⟨boot, .inr h⟩)⟩
    split
    · exact escapeParse_settles steady boot two h ok kept live tame
    split
    · unfold designate
      rw [if_pos (show ctx.gSelect - 1 < 2 from by have := ok.select_le; omega)]
      exact ensures_done.mpr ⟨⟨⟨steady.whole, steady.fixed, steady.pen, steady.saved⟩, steady.scrolls⟩, h⟩
    · exact putByte_settles steady h

end Bytes

/-! ### Runs -/

def Recogniser.Tame (r : Recogniser) : List UInt8 → Prop
  | [] => True
  | c :: rest => (∀ s ∈ r.completed c, s.Tame) ∧ (r.next c).Tame rest

def Recogniser.decideTame : (r : Recogniser) → (bytes : List UInt8) → Decidable (r.Tame bytes)
  | _, [] => isTrue trivial
  | r, c :: rest =>
    haveI := decideTame (r.next c) rest
    inferInstanceAs (Decidable ((∀ s ∈ r.completed c, s.Tame) ∧ (r.next c).Tame rest))

instance (r : Recogniser) (bytes : List UInt8) : Decidable (r.Tame bytes) := r.decideTame bytes

theorem Recogniser.tame_append {r : Recogniser} {xs ys : List UInt8} :
    r.Tame (xs ++ ys) ↔ r.Tame xs ∧ (xs.foldl Recogniser.next r).Tame ys := by
  induction xs generalizing r with
  | nil => simp [Recogniser.Tame]
  | cons c xs ih => simp only [List.cons_append, Recogniser.Tame, List.foldl_cons, ih, and_assoc]

/-- Between two calls of `term_write`. -/
structure TermContext.Ready (size : Size) (ctx : TermContext) : Prop extends ctx.Steady size where
  parser : ctx.toParser.Ok
  boot : ctx.inBootloader = false

/-- `term_write`, call after call. -/
def writeAll (size : Size) (ctx : TermContext) (texts : List (List UInt8)) : Code TermContext :=
  texts.foldlM (termWrite size) ctx

section Runs

variable {palette : Palette} {size : Size} {ctx : TermContext} {b : Brush}

theorem putAll_ready {bytes : List UInt8} (two : 2 ≤ size.rows) (ready : ctx.Ready size) (h : b.Placed size)
    (tame : ctx.toParser.recogniser.Tame bytes) :
    (putAll size ctx bytes).Ensures (brush palette size)
      (fun ctx' b' => ctx'.Ready size ∧ b'.Placed size ∧
        ctx'.toParser.recogniser = bytes.foldl Recogniser.next ctx.toParser.recogniser) b := by
  unfold putAll
  induction bytes generalizing ctx b with
  | nil => exact ensures_done.mpr ⟨ready, h, rfl⟩
  | cons c bytes ih =>
    rw [List.foldlM_cons]
    refine (termPutchar_settles ready.toSteady ready.boot two h ready.parser tame.1).bind fun ctx' b' returned hb => ?_
    have follows := termPutchar_follows ready.parser ready.boot returned
    rw [List.foldl_cons, ← follows.next]
    refine ih ⟨hb.1, follows.ok, follows.inBootloader.trans ready.boot⟩ hb.2 ?_
    rw [follows.next]
    exact tame.2

theorem Brush.Placed.onGrid (h : b.Placed size) : b.onGrid size := by
  simp [Brush.onGrid, h.column, h.row]

theorem termWrite_ready {bytes : List UInt8} (two : 2 ≤ size.rows) (ready : ctx.Ready size) (h : b.Placed size)
    (tame : ctx.toParser.recogniser.Tame bytes) :
    (termWrite size ctx bytes).Ensures (brush palette size)
      (fun ctx' b' => ctx'.Ready size ∧ b'.Placed size ∧
        ctx'.toParser.recogniser = bytes.foldl Recogniser.next ctx.toParser.recogniser) b := by
  refine (putAll_ready two ready h tame).bind fun ctx' b' _ hb => ?_
  refine ensures_unit (I := fun b => b.Placed size) ?_ fun b' h => ensures_done.mpr ⟨hb.1, h, hb.2.2⟩
  unfold performIf
  split
  · exact ensures_perform (if_pos hb.2.1.onGrid) hb.2.1
  · exact ensures_done.mpr hb.2.1

theorem writeAll_ready (palette : Palette) {texts : List (List UInt8)} (two : 2 ≤ size.rows) (ready : ctx.Ready size)
    (h : b.Placed size)
    (tame : ctx.toParser.recogniser.Tame texts.flatten) :
    (writeAll size ctx texts).Ensures (brush palette size) (fun ctx' b' => ctx'.Ready size ∧ b'.Placed size) b := by
  unfold writeAll
  induction texts generalizing ctx b with
  | nil => exact ensures_done.mpr ⟨ready, h⟩
  | cons text texts ih =>
    rw [List.flatten_cons, Recogniser.tame_append] at tame
    rw [List.foldlM_cons]
    refine (termWrite_ready two ready h tame.1).bind fun ctx' b' _ hb => ih hb.1 hb.2.1 ?_
    rw [hb.2.2]
    exact tame.2

end Runs

end Voyager.Terminal
