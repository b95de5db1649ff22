import Voyager.Terminal.Console

/-! # How a text is cut into writes -/

namespace Voyager.Terminal

open Lib Calls

namespace Screen

variable {size : Size} {ctx : TermContext} {s t : Screen} {d : Nat → FbChar}

def withDisplay (s : Screen) (d : Nat → FbChar) : Screen := { s with display := d }

theorem put_withDisplay (ch : FbChar) (x y : Nat) :
    (s.withDisplay d).put size ch x y = (s.put size ch x y).withDisplay d := by
  unfold put
  split <;> rfl

theorem scroll_withDisplay : (s.withDisplay d).scroll size ctx = (s.scroll size ctx).map (withDisplay · d) := by
  unfold scroll
  split <;> rfl

theorem revscroll_withDisplay : (s.withDisplay d).revscroll size ctx = (s.revscroll size ctx).map (withDisplay · d) := by
  unfold revscroll
  split <;> rfl

theorem stepOn_withDisplay : (s.withDisplay d).stepOn size ctx = (s.stepOn size ctx).map (withDisplay · d) := by
  have plain (t : Screen) : t.stepOn size ctx =
      if (t.advance size ctx).cursorY = ctx.scrollBottomMargin then
        (t.withBrush (t.advance size ctx).stepBack).scroll size ctx
      else some (t.withBrush (t.advance size ctx)) := rfl
  rw [plain s, apply_ite (Option.map (withDisplay · d)), ← scroll_withDisplay]
  exact plain (s.withDisplay d)

theorem rawPutchar_withDisplay (c : UInt8) :
    (s.withDisplay d).rawPutchar size ctx c = (s.rawPutchar size ctx c).map (withDisplay · d) := by
  unfold rawPutchar
  rw [← stepOn_withDisplay, ← put_withDisplay]
  rfl

theorem moveCharacter_withDisplay (newX newY oldX oldY : Nat) :
    (s.withDisplay d).moveCharacter size newX newY oldX oldY =
      (s.moveCharacter size newX newY oldX oldY).withDisplay d := by
  unfold moveCharacter
  split
  · exact put_withDisplay _ _ _
  · rfl

/-- The same but for what was on show last. -/
def SameText (s t : Screen) : Prop := ∃ d, s = t.withDisplay d

theorem SameText.perform (h : s.SameText t) (palette : Palette) (size : Size) (op : Operation) (t' : Screen)
    (performed : (t.toBrush.perform palette size op).map t.withBrush = some t') :
    ∃ s', (s.toBrush.perform palette size op).map s.withBrush = some s' ∧ s'.SameText t' := by
  obtain ⟨d, rfl⟩ := h
  obtain ⟨b, done, rfl⟩ := Option.map_eq_some_iff.mp performed
  exact ⟨(t.withDisplay d).withBrush b, congrArg (Option.map _) done, d, rfl⟩

theorem SameText.refl (s : Screen) : s.SameText s := ⟨s.display, rfl⟩

theorem SameText.symm (h : s.SameText t) : t.SameText s := by
  obtain ⟨d, rfl⟩ := h
  exact ⟨t.display, rfl⟩

theorem SameText.trans {u : Screen} (h : s.SameText t) (h' : t.SameText u) : s.SameText u := by
  obtain ⟨d, rfl⟩ := h
  obtain ⟨e, rfl⟩ := h'
  exact ⟨d, rfl⟩

theorem SameText.picture (h : s.SameText t) : s.picture size = t.picture size := by
  obtain ⟨d, rfl⟩ := h
  rfl

end Screen

section Cut

variable {palette : Palette} {size : Size} {r : Raster size} {ctx ctx' : TermContext} {s s' t : Screen} {fb : Fbterm}

theorem screen_sameText : (screen palette size).Simulates (screen palette size) Screen.SameText where
  answer := by
    rintro s t ⟨d, rfl⟩
    rfl
  handle := by
    rintro s t t' ⟨ctx, op⟩ same handled
    have plain := same.perform palette size op t'
    obtain ⟨d, rfl⟩ := same
    have mapped {f : Screen → Option Screen} (h : f t = some t')
        (eq : f (t.withDisplay d) = (f t).map (Screen.withDisplay · d)) :
        ∃ s', f (t.withDisplay d) = some s' ∧ s'.SameText t' :=
      ⟨t'.withDisplay d, by rw [eq, h]; rfl, d, rfl⟩
    cases op with
    | rawPutchar c => exact mapped handled (Screen.rawPutchar_withDisplay c)
    | moveCharacter newX newY oldX oldY =>
      exact ⟨_, rfl, d, Option.some.inj handled ▸ Screen.moveCharacter_withDisplay newX newY oldX oldY⟩
    | scroll => exact mapped handled Screen.scroll_withDisplay
    | revscroll => exact mapped handled Screen.revscroll_withDisplay
    | clear move => exact ⟨_, rfl, d, Option.some.inj handled ▸ rfl⟩
    | doubleBufferFlush =>
      obtain ⟨placed, rfl⟩ := (Option.ite_none_right_eq_some.mp handled).imp_right Option.some.inj
      exact ⟨_, if_pos placed, _, rfl⟩
    | _ => exact plain handled

theorem termWrite_sameText {text : List UInt8}
    (ran : (termWrite size ctx text).run (screen palette size) s = some (ctx', s')) :
    ∃ t, (putAll size ctx text).run (screen palette size) s = some (ctx', t) ∧ s'.SameText t := by
  unfold termWrite at ran
  rw [run_bind] at ran
  obtain ⟨⟨ctx₁, t⟩, put, rest⟩ := Option.bind_eq_some_iff.mp ran
  unfold performIf at rest
  split at rest
  · obtain ⟨u, flushed, done⟩ := Option.bind_eq_some_iff.mp rest
    obtain ⟨-, rfl⟩ := (Option.ite_none_right_eq_some.mp flushed).imp_right Option.some.inj
    obtain ⟨rfl, rfl⟩ := Prod.mk.inj (Option.some.inj done)
    exact ⟨t, put, _, rfl⟩
  · obtain ⟨rfl, rfl⟩ := Prod.mk.inj (Option.some.inj rest)
    exact ⟨t, put, .refl t⟩

theorem writeAll_sameText {texts : List (List UInt8)}
    (ran : (writeAll size ctx texts).run (screen palette size) s = some (ctx', s')) :
    ∃ t, (putAll size ctx texts.flatten).run (screen palette size) s = some (ctx', t) ∧ s'.SameText t := by
  unfold writeAll at ran
  induction texts generalizing ctx s with
  | nil => exact ⟨s', ran, .refl s'⟩
  | cons text texts ih =>
    rw [List.foldlM_cons, run_bind] at ran
    obtain ⟨⟨ctx₁, s₁⟩, first, rest⟩ := Option.bind_eq_some_iff.mp ran
    obtain ⟨t₁, put, same₁⟩ := termWrite_sameText first
    obtain ⟨t, put', same⟩ := ih rest
    obtain ⟨u, put'', same'⟩ := screen_sameText.run same₁.symm put'
    refine ⟨u, ?_, same.trans same'.symm⟩
    unfold putAll at put ⊢
    rw [List.flatten_cons, List.foldlM_append, run_bind, put]
    exact put''

theorem split_cell {X offset count width : Nat} (low : offset ≤ X) (high : X < offset + count * width) :
    ∃ x < count, ∃ g < width, X = offset + x * width + g := by
  have pos : 0 < width := Nat.pos_of_ne_zero fun zero => by
    rw [zero, Nat.mul_zero] at high
    omega
  refine ⟨(X - offset) / width, Nat.div_lt_of_lt_mul ?_, (X - offset) % width, Nat.mod_lt _ pos, ?_⟩
  · rw [Nat.mul_comm]
    omega
  · have := Nat.div_add_mod' (X - offset) width
    omega

theorem OnShow.unique {pixels pixels' : Pixels} (h : OnShow r s pixels) (h' : OnShow r s pixels') {X Y : Nat}
    (hX : X < r.width) (hY : Y < r.height) : pixels (X + Y * r.stride) = pixels' (X + Y * r.stride) := by
  by_cases text : r.InText X Y
  · obtain ⟨x, hx, gx, hgx, rfl⟩ := split_cell text.1.1 text.1.2
    obtain ⟨y, hy, gy, hgy, rfl⟩ := split_cell text.2.1 text.2.2
    exact (h.text x hx y hy gx hgx gy hgy).trans (h'.text x hx y hy gx hgx gy hgy).symm
  · exact (h.frame X hX Y hY text).trans (h'.frame X hX Y hY text).symm

/-- Cut into writes in one way or another, the same text leaves the same pixels. -/
theorem writes_cut_anywhere (palette : Palette) {texts texts' : List (List UInt8)} (start : Refines r fb s)
    (flushed : s.display = s.picture size) (two : 2 ≤ size.rows) (ready : ctx.Ready size)
    (placed : s.toBrush.Placed size) (tame : ctx.toParser.recogniser.Tame texts.flatten)
    (same : texts'.flatten = texts.flatten) :
    ∃ ctx' fb₁ fb₂, (writeAll size ctx texts).run (fbterm palette r) fb = some (ctx', fb₁) ∧
      (writeAll size ctx texts').run (fbterm palette r) fb = some (ctx', fb₂) ∧
      ∀ X < r.width, ∀ Y < r.height, fb₁.framebuffer (X + Y * r.stride) = fb₂.framebuffer (X + Y * r.stride) := by
  obtain ⟨ctx₁, fb₁, s₁, ran₁, plain₁, show₁⟩ := writeAll_shows palette start flushed two ready placed tame
  obtain ⟨ctx₂, fb₂, s₂, ran₂, plain₂, show₂⟩ := writeAll_shows palette start flushed two ready placed (same ▸ tame)
  obtain ⟨t₁, put₁, text₁⟩ := writeAll_sameText plain₁
  obtain ⟨t₂, put₂, text₂⟩ := writeAll_sameText plain₂
  rw [same, put₁] at put₂
  obtain ⟨rfl, rfl⟩ := Prod.mk.inj (Option.some.inj put₂)
  have picture : s₂.picture size = s₁.picture size := (text₂.trans text₁.symm).picture
  refine ⟨ctx₁, fb₁, fb₂, ran₁, ran₂, fun X hX Y hY => show₁.unique ⟨fun x hx y hy => ?_, show₂.frame⟩ hX hY⟩
  rw [← picture]
  exact show₂.text x hx y hy

theorem writes_cut_anywhere_xga :
    ∃ (size : Size) (r : Raster size) (fb : Fbterm) (ctx ctx' : TermContext) (fb₁ fb₂ : Fbterm),
      (writeAll size ctx [[0x1b], [0x5b, 0x6d, 0x41]]).run (fbterm FbtermArgs.xga.palette r) fb = some (ctx', fb₁) ∧
      (writeAll size ctx [[0x1b, 0x5b], [0x6d], [0x41]]).run (fbterm FbtermArgs.xga.palette r) fb = some (ctx', fb₂) ∧
      ∀ X < r.width, ∀ Y < r.height, fb₁.framebuffer (X + Y * r.stride) = fb₂.framebuffer (X + Y * r.stride) := by
  obtain ⟨fb, -, start⟩ := takeOver_refines FbtermArgs.xga.palette
    (FbtermArgs.raster FbtermArgs.xga_usable fun _ => false) fun _ => (rfl : Fresh.zero.map _ = none)
  obtain ⟨ctx', fb₁, fb₂, same⟩ := writes_cut_anywhere FbtermArgs.xga.palette start rfl
    (by decide) (zeroed_ready _) (initial_placed _ _)
    (show Recogniser.idle.Tame [[0x1b], [0x5b, 0x6d, 0x41]].flatten by decide)
    (show [[0x1b, 0x5b], [0x6d], [0x41]].flatten = [[0x1b], [0x5b, 0x6d, 0x41]].flatten from rfl)
  exact ⟨_, _, fb, _, ctx', fb₁, fb₂, same⟩

end Cut

end Voyager.Terminal
