import Voyager.Terminal.Init
import Voyager.Terminal.Safety

/-!
# What the terminal shows

For every text that sets no scrolling region, term.c and framebuffer.c together do what term.c
does on a plain screen.
-/

namespace Voyager.Terminal

open Lib Calls

section Flushed

variable {palette : Palette} {size : Size} {ctx ctx' : TermContext} {s s' : Screen}

theorem termWrite_flushed {text : List UInt8} (ran : (termWrite size ctx text).run (screen palette size) s = some (ctx', s'))
    (auto : ctx'.autoflush) : s'.display = s'.picture size := by
  unfold termWrite at ran
  rw [run_bind] at ran
  obtain ⟨⟨ctx₁, s₁⟩, -, rest⟩ := Option.bind_eq_some_iff.mp ran
  obtain rfl : ctx' = ctx₁ := returns_done.mp (returns_unit (run_returns rest))
  rw [performIf, if_pos auto] at rest
  obtain ⟨s₂, flushed, done⟩ := Option.bind_eq_some_iff.mp rest
  obtain ⟨-, rfl⟩ := (Option.ite_none_right_eq_some.mp flushed).imp_right Option.some.inj
  obtain ⟨-, rfl⟩ := Prod.mk.inj (Option.some.inj done)
  rfl

theorem writeAll_flushed {texts : List (List UInt8)} (start : s.display = s.picture size)
    (ran : (writeAll size ctx texts).run (screen palette size) s = some (ctx', s')) (auto : ctx'.autoflush) :
    s'.display = s'.picture size := by
  rcases List.eq_nil_or_concat texts with rfl | ⟨before, last, rfl⟩
  · obtain ⟨-, rfl⟩ := Prod.mk.inj (Option.some.inj ran)
    exact start
  · unfold writeAll at ran
    rw [List.concat_eq_append, List.foldlM_append, run_bind] at ran
    obtain ⟨⟨ctx₁, s₁⟩, -, rest⟩ := Option.bind_eq_some_iff.mp ran
    simp only [List.foldlM_cons, List.foldlM_nil, bind_pure] at rest
    exact termWrite_flushed rest auto

end Flushed

def Recogniser.idle : Recogniser := { mode := .ground, decPrivate := false }

theorem zeroed_ready (size : Size) : (TermContext.zeroed.reinit size).Ready size where
  toSteady := reinit_steady ⟨Nat.zero_lt_two, fun _ same => Option.some.inj same ▸ Nat.zero_lt_succ 7⟩
  parser := Parser.Idle.ok ⟨rfl, rfl, rfl, rfl⟩ (Nat.zero_le 2)
  boot := rfl

theorem initial_placed (palette : Palette) (size : Size) : (Brush.initial palette).Placed size :=
  ⟨⟨size.rows_pos, size.cols_pos, size.rows_pos⟩, size.cols_pos⟩

/-- The framebuffer shows the plain screen, cursor and all. -/
structure OnShow {size : Size} (r : Raster size) (s : Screen) (pixels : Pixels) : Prop where
  text : ∀ x < size.cols, ∀ y < size.rows, r.Shows pixels (s.picture size (size.cell x y)) x y
  frame : r.Framed pixels

theorem writeAll_shows (palette : Palette) {size : Size} {r : Raster size} {ctx : TermContext} {s : Screen} {fb : Fbterm}
    {texts : List (List UInt8)} (start : Refines r fb s) (flushed : s.display = s.picture size) (two : 2 ≤ size.rows)
    (ready : ctx.Ready size) (placed : s.toBrush.Placed size) (tame : ctx.toParser.recogniser.Tame texts.flatten) :
    ∃ ctx' fb' s', (writeAll size ctx texts).run (fbterm palette r) fb = some (ctx', fb') ∧
      (writeAll size ctx texts).run (screen palette size) s = some (ctx', s') ∧ OnShow r s' fb'.framebuffer := by
  obtain ⟨ctx', b, ran, ready', -⟩ := writeAll_ready palette two ready placed tame
  obtain ⟨s', ran', -⟩ := screen_simulates_brush.run (s := s) rfl ran
  obtain ⟨fb', ran'', shown⟩ := fbterm_simulates_screen.run start ran'
  refine ⟨ctx', fb', s', ran'', ran', fun x hx y hy => ?_, shown.framed⟩
  rw [← writeAll_flushed flushed ran' ready'.fixed.2]
  exact shown.shows x hx y hy

theorem terminal_shows {a : FbtermArgs} (usable : a.Usable) {fresh : Fresh} (zeroed : ∀ i, fresh.map i = none)
    (two : 2 ≤ a.rows) {texts : List (List UInt8)} (tame : Recogniser.idle.Tame texts.flatten) :
    ∃ t fb ctx fb' s', fbtermInit a usable fresh = some t ∧ t.backend.takeOver t.raster = some fb ∧
      (writeAll t.size t.ctx texts).run (fbterm t.palette t.raster) fb = some (ctx, fb') ∧
      (writeAll t.size t.ctx texts).run (screen t.palette t.size) (.initial t.palette t.size) = some (ctx, s') ∧
      OnShow t.raster s' fb'.framebuffer := by
  obtain ⟨fontBool, built, -⟩ := Font.build_spec usable.wide fresh.fontBool
  obtain ⟨fb, taken, start⟩ := takeOver_refines a.palette (a.raster usable fontBool) zeroed
  obtain ⟨ctx, fb', s', shown⟩ :=
    writeAll_shows a.palette start rfl two (zeroed_ready _) (initial_placed a.palette _) tame
  exact ⟨_, fb, ctx, fb', s', Option.bind_eq_some_iff.mpr ⟨fontBool, built, rfl⟩, taken, shown⟩

/-- `ESC [ 3 1 m O K`, on a framebuffer of 1024 by 768. -/
theorem terminal_shows_xga :
    ∃ t fb ctx fb' s', fbtermInit .xga FbtermArgs.xga_usable .zero = some t ∧ t.backend.takeOver t.raster = some fb ∧
      (writeAll t.size t.ctx [[0x1b, 0x5b, 0x33, 0x31, 0x6d], [0x4f, 0x4b]]).run (fbterm t.palette t.raster) fb =
        some (ctx, fb') ∧
      (writeAll t.size t.ctx [[0x1b, 0x5b, 0x33, 0x31, 0x6d], [0x4f, 0x4b]]).run (screen t.palette t.size)
        (.initial t.palette t.size) = some (ctx, s') ∧
      OnShow t.raster s' fb'.framebuffer :=
  terminal_shows FbtermArgs.xga_usable (fun _ => rfl) (by decide) (by decide)

end Voyager.Terminal
