import Voyager.Terminal.Syntax

/-! # term.c recognises escape sequences -/

namespace Voyager.Terminal

open Lib Calls

section Frame
variable {size : Size} {ctx ctx' : TermContext} {x y : Nat} {c : UInt8}

def Touched (ctx ctx' : TermContext) : Prop :=
  ctx' = { ctx with
    escValues := ctx'.escValues
    toPen := ctx'.toPen
    insertMode := ctx'.insertMode
    savedCursorX := ctx'.savedCursorX
    savedCursorY := ctx'.savedCursorY
    scrollTopMargin := ctx'.scrollTopMargin
    scrollBottomMargin := ctx'.scrollBottomMargin }

theorem Touched.of_eq (h : ctx' = ctx) : Touched ctx ctx' := by
  rw [h]
  exact Eq.refl _

theorem touched_setEscValue (i value : Nat) : Touched ctx (ctx.setEscValue i value) := Eq.refl _

theorem Touched.ite {p : Prop} [Decidable p] {a b : TermContext} (h : ctx' = if p then a else b)
    (ha : Touched ctx a) (hb : Touched ctx b) : Touched ctx ctx' := by
  rw [h]
  split
  · exact ha
  · exact hb

theorem Touched.trans {ctx'' : TermContext} (h : Touched ctx ctx') (h' : Touched ctx' ctx'') : Touched ctx ctx'' := by
  unfold Touched at h h' ⊢
  rw [h', h]

theorem oneBased_touched (i limit : Nat) : Touched ctx (oneBased ctx i limit) :=
  .ite rfl ((touched_setEscValue i _).trans (touched_setEscValue i _)) (touched_setEscValue i _)

theorem returns_unit {α : Type} {m : Code Unit} {f : Unit → Code α} {b : α} (h : (m >>= f).Returns b) :
    (f ()).Returns b := by
  obtain ⟨⟨⟩, -, h⟩ := (returns_bind _ _).mp h
  exact h

theorem sgr_returns (h : (sgr ctx).Returns ctx') : ∃ pen, ctx' = ctx.withPen pen := by
  unfold sgr at h
  split at h <;> exact ((returns_bind _ _).mp h).imp fun _ h => h.2

theorem setMargins_returns (h : (setMargins size ctx).Returns ctx') :
    ∃ top bottom, ctx' = { ctx with scrollTopMargin := top, scrollBottomMargin := bottom } := by
  have h : ctx' = if _ then _ else _ := h
  split at h <;> exact ⟨_, _, h⟩

theorem modeToggle_returns (h : (modeToggle ctx c).Returns ctx') : ∃ insert, ctx' = { ctx with insertMode := insert } := by
  unfold modeToggle at h
  split_ifs at h
  · exact ⟨ctx.insertMode, h⟩
  · exact ⟨_, h⟩
  · exact ⟨ctx.insertMode, returns_unit h⟩

theorem controlFunction_touched (h : (controlFunction size ctx x y c).Returns ctx') : Touched ctx ctx' := by
  unfold controlFunction at h
  generalize ControlCase.of c = k at h
  cases k with
  | previousLine | up | nextLine | down | right | left => exact .ite h (touched_setEscValue _ _) (.of_eq rfl)
  | row | column =>
    have h : ctx' = oneBased ctx 0 _ := h
    rw [h]
    exact oneBased_touched _ _
  | position =>
    have h : ctx' = oneBased (oneBased ctx 1 _) 0 _ := h
    rw [h]
    exact (oneBased_touched _ _).trans (oneBased_touched _ _)
  | sgr =>
    obtain ⟨pen, rfl⟩ := sgr_returns h
    exact Eq.refl _
  | saveCursor =>
    rw [returns_done.mp h]
    exact Eq.refl _
  | margins =>
    obtain ⟨top, bottom, rfl⟩ := setMargins_returns h
    exact Eq.refl _
  | mode =>
    obtain ⟨insert, rfl⟩ := modeToggle_returns h
    exact Eq.refl _
  | other => exact .of_eq h
  -- The others leave the context alone.
  | _ => exact .of_eq (returns_unit h)

theorem decPrivateParse_returns (h : (decPrivateParse ctx c).Returns ctx') :
    ctx' = ctx.withParser { ctx.toParser with decPrivate := false } := by
  unfold decPrivateParse at h
  dsimp only at h
  split_ifs at h
  · exact h
  · exact h
  · exact h
  · exact returns_unit h

theorem runFunction_returns (h : (runFunction size ctx c).Returns ctx') : Touched ctx ctx' := by
  obtain ⟨⟨x, y⟩, -, h⟩ := (returns_bind _ _).mp h
  obtain ⟨d, hd, h⟩ := (returns_bind _ _).mp h
  rw [returns_done.mp h, controlFunction_touched hd]
  exact Eq.refl _

theorem runSequence_returns (h : (runSequence size ctx c).Returns ctx') :
    ∃ values, ctx'.inBootloader = ctx.inBootloader ∧ ctx'.toParser =
      { ctx.toParser with controlSequence := false, escape := false, decPrivate := false, escValues := values } := by
  unfold runSequence at h
  dsimp only at h
  split at h
  · obtain ⟨d, hd, h⟩ := (returns_bind _ _).mp h
    rw [returns_done.mp h, decPrivateParse_returns hd]
    exact ⟨_, rfl, rfl⟩
  · rename_i standard
    obtain ⟨d, hd, h⟩ := (returns_bind _ _).mp h
    rw [returns_done.mp h, runFunction_returns hd]
    have standard : ctx.decPrivate = false := Bool.eq_false_of_not_eq_true standard
    refine ⟨d.escValues, rfl, ?_⟩
    simp only [TermContext.withParser, fillDefaults, standard]

end Frame

section Cases

variable {c : UInt8}

theorem byte_eq {ch : Char} (h : Char.ofUInt8 c = ch) : c = ch.toUInt8 := by
  rw [← h]
  exact (UInt8.toUInt8_toUInt32 c).symm

theorem ControlCase.of_sgr (h : of c = .sgr) : c = 'm'.toUInt8 := by
  unfold of at h
  split at h <;> first | exact byte_eq ‹_› | cases h

theorem ControlCase.of_margins (h : of c = .margins) : c = 'r'.toUInt8 := by
  unfold of at h
  split at h <;> first | exact byte_eq ‹_› | cases h

theorem EscapeCase.of_reset : of c = .reset ↔ c = 'c'.toUInt8 := by
  refine ⟨fun h => ?_, fun h => by rw [h]; decide⟩
  unfold of at h
  split at h <;> first | exact byte_eq ‹_› | cases h

theorem EscapeCase.of_designate : of c = .designate ↔ c = '('.toUInt8 ∨ c = ')'.toUInt8 := by
  refine ⟨fun h => ?_, by rintro (rfl | rfl) <;> decide⟩
  unfold of at h
  split at h <;> first | exact .inl (byte_eq ‹_›) | exact .inr (byte_eq ‹_›) | cases h

theorem ByteCase.of_csi : of c = .csi ↔ c = 0x9b := by
  refine ⟨fun h => ?_, fun h => by rw [h]; decide⟩
  unfold of at h
  split at h <;> first | exact byte_eq ‹_› | cases h

theorem ByteCase.of_escape : of c = .escape ↔ c = 0x1b := by
  refine ⟨fun h => ?_, fun h => by rw [h]; decide⟩
  unfold of at h
  split at h <;> first | exact byte_eq ‹_› | cases h

end Cases

/-- The context after the byte `c`. -/
structure Follows (ctx : TermContext) (c : UInt8) (ctx' : TermContext) : Prop where
  ok : ctx'.toParser.Ok
  next : ctx'.toParser.recogniser = ctx.toParser.recogniser.next c
  inBootloader : ctx'.inBootloader = ctx.inBootloader

section Steps

variable {size : Size} {ctx ctx' : TermContext} {x y : Nat} {c : UInt8}

theorem Follows.idle {q : Parser} (parser : ctx'.toParser = q) (idle : q.Idle) (select : q.gSelect ≤ 2)
    (same : ctx'.inBootloader = ctx.inBootloader)
    (next : ctx.toParser.recogniser.next c =
      { mode := if q.gSelect = 0 then .ground else .select (q.gSelect - 1), decPrivate := q.decPrivate }) :
    Follows ctx c ctx' := by
  subst parser
  refine ⟨idle.ok select, ?_, same⟩
  rw [next]
  exact congrArg (Recogniser.mk · _) idle.mode

theorem cancel_follows (off : ctx.discardNext ∨ Recogniser.isCancel c) :
    Follows ctx c (ctx.withParser ctx.toParser.cancel) := by
  refine .idle rfl ⟨rfl, rfl, rfl, rfl⟩ (Nat.zero_le _) rfl ?_
  unfold Recogniser.next
  split
  · rfl
  · rename_i live
    have discard : ctx.toParser.mode = .discard := by
      unfold Parser.mode
      rw [if_pos (off.resolve_right live)]
    unfold Parser.recogniser
    rw [discard]
    rfl

theorem escapeFunction_follows (h : ctx.toParser.Escaped) (live : c ≠ 0x18 ∧ c ≠ 0x1a) (csi : ctx.csi = false)
    (bracket : c ≠ '['.toUInt8) (ret : (escapeFunction size (ctx.withParser ctx.toParser.further) x y c).Returns ctx') :
    Follows ctx c (ctx'.withParser { ctx'.toParser with escape := false }) := by
  have select := h.select_ground h.escape
  have next := h.next live csi
  rw [if_neg bracket] at next
  have plain (same : ctx'.toParser = ctx.toParser.further) (boot : ctx'.inBootloader = ctx.inBootloader)
      (reset : EscapeCase.of c ≠ .reset) (designate : EscapeCase.of c ≠ .designate) :
      Follows ctx c (ctx'.withParser { ctx'.toParser with escape := false }) := by
    refine .idle (q := { ctx.toParser.further with escape := false }) (by rw [same]; rfl) ⟨h.shut, csi, rfl, h.kept⟩
      (Nat.le_trans (Nat.le_of_eq select) (Nat.zero_le _)) boot ?_
    have charset := not_or.mp (mt EscapeCase.of_designate.mpr designate)
    rw [next, if_neg charset.1, if_neg charset.2, if_neg (mt EscapeCase.of_reset.mpr reset)]
    exact congrArg (Recogniser.mk · _) (if_pos select).symm
  unfold escapeFunction at ret
  generalize eq : EscapeCase.of c = k at ret
  cases k with
  | reset =>
    obtain rfl := EscapeCase.of_reset.mp eq
    have ret : ctx' = (ctx.withParser ctx.toParser.further).reinit size := ret
    refine .idle (q := (ctx.reinit size).toParser) ?_ ⟨rfl, rfl, rfl, rfl⟩ (Nat.zero_le _) (by rw [ret]; rfl) ?_
    · rw [ret]
      rfl
    · rw [next]
      rfl
  | designate =>
    have ret := returns_done.mp ret
    have charset := EscapeCase.of_designate.mp eq
    refine .idle (q := { ctx.toParser.further with escape := false, gSelect := (c - 0x27).toNat }) ?_
      ⟨h.shut, csi, rfl, h.kept⟩ ?_ (by rw [ret]; rfl) ?_
    · rw [ret]
      rfl
    · change (c - 0x27).toNat ≤ 2
      rcases charset with rfl | rfl <;> decide
    · rw [next]
      rcases charset with rfl | rfl <;> rfl
  | other =>
    have ret := returns_done.mp ret
    exact plain (by rw [ret]; rfl) (by rw [ret]; rfl) (by simp [eq]) (by simp [eq])
  | _ =>
    have ret := returns_unit ret
    have ret := returns_done.mp ret
    exact plain (by rw [ret]; rfl) (by rw [ret]; rfl) (by simp [eq]) (by simp [eq])

theorem controlSequenceParse_more {p : Parser} (read : ctx.toParser.read c = .more p) :
    controlSequenceParse size ctx c = .done (ctx.withParser p) := by
  unfold controlSequenceParse
  rw [read]
  rfl

theorem controlSequenceParse_final {p : Parser} (read : ctx.toParser.read c = .final p) :
    controlSequenceParse size ctx c = runSequence size (ctx.withParser p) c := by
  unfold controlSequenceParse
  rw [read]

theorem controlSequenceParse_follows (h : ctx.toParser.Open) (live : c ≠ 0x18 ∧ c ≠ 0x1a)
    (ret : (controlSequenceParse size (ctx.withParser ctx.toParser.further) c).Returns ctx') : Follows ctx c ctx' := by
  have reads := h.reads live
  cases read : ctx.toParser.further.read c with
  | more p =>
    rw [read] at reads
    rw [controlSequenceParse_more (show (ctx.withParser ctx.toParser.further).toParser.read c = _ from read)] at ret
    obtain rfl := returns_done.mp ret
    exact ⟨reads.1, reads.2, rfl⟩
  | final p =>
    rw [read] at reads
    rw [controlSequenceParse_final (show (ctx.withParser ctx.toParser.further).toParser.read c = _ from read)] at ret
    obtain ⟨next, -, n, -, rfl⟩ := reads
    obtain ⟨values, boot, parser⟩ := runSequence_returns ret
    have select : ctx.gSelect = 0 := h.select_ground h.escape
    refine .idle parser ⟨rfl, h.csi, rfl, h.kept⟩ (Nat.le_trans (Nat.le_of_eq select) (Nat.zero_le _)) boot ?_
    rw [next]
    exact congrArg (Recogniser.mk · _) (if_pos select).symm
  | outside =>
    rw [read] at reads
    exact reads.elim

theorem escapeParse_follows (ok : ctx.toParser.Ok) (live : c ≠ 0x18 ∧ c ≠ 0x1a) (kept : ctx.discardNext = false)
    (escape : ctx.escape) (ret : (escapeParse size ctx c).Returns ctx') : Follows ctx c ctx' := by
  unfold escapeParse at ret
  dsimp only at ret
  split at ret
  case isTrue opened => exact controlSequenceParse_follows ⟨ok, opened, kept⟩ live ret
  case isFalse shut =>
    have h : ctx.toParser.Escaped := ⟨ok, escape, Bool.eq_false_of_not_eq_true shut, kept⟩
    split at ret
    case isTrue csi =>
      have csi : ctx.csi := csi
      obtain rfl := returns_done.mp ret
      refine ⟨h.openSequence_ok, h.openSequence_recogniser.trans ?_, rfl⟩
      unfold Recogniser.next Parser.recogniser
      simp only [Parser.not_cancel live, h.mode, csi, Bool.false_eq_true, if_false, if_true]
    case isFalse csi =>
      have csi : ctx.csi = false := Bool.eq_false_of_not_eq_true csi
      obtain ⟨⟨x, y⟩, -, ret⟩ := (returns_bind _ _).mp ret
      dsimp only at ret
      split at ret
      case isTrue bracket =>
        obtain rfl := returns_done.mp ret
        have same : ({ ctx.toParser.further with csi := false } : Parser) = ctx.toParser.further := by
          rw [← csi]
          rfl
        have ok := h.openSequence_ok
        have recogniser := h.openSequence_recogniser
        rw [same] at ok recogniser
        refine ⟨ok, recogniser.trans ?_, rfl⟩
        rw [h.next live csi, if_pos bracket]
      case isFalse bracket =>
        obtain ⟨d, hd, ret⟩ := (returns_bind _ _).mp ret
        obtain rfl := returns_done.mp ret
        exact escapeFunction_follows h live csi bracket hd

theorem putByte_follows (idle : ctx.toParser.Idle) (select : ctx.gSelect = 0) (live : c ≠ 0x18 ∧ c ≠ 0x1a)
    (ret : (putByte size ctx x y c).Returns ctx') : Follows ctx c ctx' := by
  have mode : ctx.toParser.mode = .ground := idle.mode.trans (if_pos select)
  have next : ctx.toParser.recogniser.next c =
      if c = 0x9b then { mode := .introduced, decPrivate := ctx.decPrivate }
      else if c = 0x1b then { mode := .escape, decPrivate := ctx.decPrivate }
      else { mode := .ground, decPrivate := ctx.decPrivate } := by
    unfold Recogniser.next Parser.recogniser
    simp only [Parser.not_cancel live, mode, Bool.false_eq_true, if_false]
  have plain (parser : ctx'.toParser = ctx.toParser) (boot : ctx'.inBootloader = ctx.inBootloader)
      (csi : ByteCase.of c ≠ .csi) (escape : ByteCase.of c ≠ .escape) : Follows ctx c ctx' := by
    refine .idle parser idle (Nat.le_trans (Nat.le_of_eq select) (Nat.zero_le _)) boot ?_
    rw [next, if_neg (mt ByteCase.of_csi.mpr csi), if_neg (mt ByteCase.of_escape.mpr escape)]
    exact congrArg (Recogniser.mk · _) (if_pos select).symm
  have opened (csi : Bool) (ret : ctx' = ctx.withParser { ctx.toParser with csi, escapeOffset := 0, escape := true })
      (next : ctx.toParser.recogniser.next c =
        { mode := if csi then .introduced else .escape, decPrivate := ctx.decPrivate }) : Follows ctx c ctx' := by
    subst ret
    refine ⟨?_, ?_, rfl⟩
    · refine ⟨?_, ?_, ?_, ?_, ?_, ?_, ?_, ?_⟩ <;> simp [TermContext.withParser, idle.controlSequence, select]
    · rw [next]
      unfold Parser.recogniser Parser.mode
      simp [TermContext.withParser, idle.controlSequence, idle.discardNext]
  unfold putByte at ret
  generalize eq : ByteCase.of c = k at ret
  cases k with
  | csi =>
    obtain rfl := ByteCase.of_csi.mp eq
    exact opened true (returns_done.mp ret) next
  | escape =>
    obtain rfl := ByteCase.of_escape.mp eq
    refine opened false ?_ next
    rw [returns_done.mp ret, ← idle.csi]
  | ignored =>
    have ret := returns_done.mp ret
    exact plain (by rw [ret]) (by rw [ret]) (by simp [eq]) (by simp [eq])
  | shiftOut | shiftIn =>
    have ret := returns_done.mp ret
    exact plain (by rw [ret]; rfl) (by rw [ret]; rfl) (by simp [eq]) (by simp [eq])
  | _ =>
    have ret := returns_unit ret
    have ret := returns_done.mp ret
    exact plain (by rw [ret]) (by rw [ret]) (by simp [eq]) (by simp [eq])

theorem designate_follows (idle : ctx.toParser.Idle) (le : ctx.gSelect ≤ 2) (select : ctx.gSelect ≠ 0)
    (live : c ≠ 0x18 ∧ c ≠ 0x1a) (ret : (designate ctx c).Returns ctx') : Follows ctx c ctx' := by
  unfold designate at ret
  rw [if_pos (by omega)] at ret
  have ret := returns_done.mp ret
  refine .idle (q := { ctx.toParser with gSelect := 0 }) (by rw [ret]) ⟨idle.1, idle.2, idle.3, idle.4⟩ (Nat.zero_le _)
    (by rw [ret]) ?_
  have mode : ctx.toParser.mode = .select (ctx.gSelect - 1) := idle.mode.trans (if_neg select)
  unfold Recogniser.next Parser.recogniser
  simp only [Parser.not_cancel live, mode, Bool.false_eq_true, if_false, if_true]

theorem termPutchar_follows (ok : ctx.toParser.Ok) (boot : ctx.inBootloader = false)
    (ret : (termPutchar size ctx c).Returns ctx') : Follows ctx c ctx' := by
  unfold termPutchar at ret
  split at ret
  case isTrue off =>
    obtain rfl := returns_done.mp ret
    refine cancel_follows (off.imp_right fun h => ?_)
    unfold Recogniser.isCancel
    simpa using h.2
  case isFalse on =>
    have kept : ctx.discardNext = false := by simpa using fun h => on (.inl h)
    have live : c ≠ 0x18 ∧ c ≠ 0x1a := ⟨fun h => on (.inr ⟨boot, .inl h⟩), fun h => on (.inr ⟨boot, .inr h⟩)⟩
    split at ret
    case isTrue escape => exact escapeParse_follows ok live kept escape ret
    case isFalse escape =>
      have escape : ctx.escape = false := Bool.eq_false_of_not_eq_true escape
      have idle := ok.idle escape kept
      split at ret
      case isTrue select => exact designate_follows idle ok.select_le select live ret
      case isFalse select =>
        obtain ⟨⟨x, y⟩, -, ret⟩ := (returns_bind _ _).mp ret
        exact putByte_follows idle (by simpa using select) live ret

end Steps

theorem putAll_follows {size : Size} {ctx ctx' : TermContext} {bytes : List UInt8} (ok : ctx.toParser.Ok)
    (boot : ctx.inBootloader = false) (ret : (putAll size ctx bytes).Returns ctx') :
    ctx'.toParser.Ok ∧ ctx'.inBootloader = false ∧
      ctx'.toParser.recogniser = bytes.foldl Recogniser.next ctx.toParser.recogniser := by
  unfold putAll at ret
  induction bytes generalizing ctx with
  | nil =>
    obtain rfl := returns_done.mp ret
    exact ⟨ok, boot, rfl⟩
  | cons c bytes ih =>
    rw [List.foldlM_cons] at ret
    obtain ⟨d, first, rest⟩ := (returns_bind _ _).mp ret
    have follows := termPutchar_follows ok boot first
    rw [List.foldl_cons, ← follows.next]
    exact ih follows.ok (follows.inBootloader.trans boot) rest

theorem termWrite_returns {size : Size} {ctx ctx' : TermContext} {bytes : List UInt8}
    (ret : (termWrite size ctx bytes).Returns ctx') : (putAll size ctx bytes).Returns ctx' := by
  obtain ⟨d, first, rest⟩ := (returns_bind _ _).mp ret
  have rest := returns_unit rest
  obtain rfl := returns_done.mp rest
  exact first

/-- A backend that takes every call and shows nothing. -/
def blind : Backend Unit where
  handle _ _ := some ()
  answer _ := (0, 0)

/-- On every backend, and for every text, the flags say what the recogniser says. -/
theorem term_recognises {σ : Type} {B : Backend σ} {size : Size} {ctx ctx' : TermContext} {bytes : List UInt8} {s s' : σ}
    (ok : ctx.toParser.Ok) (boot : ctx.inBootloader = false) (ran : (termWrite size ctx bytes).run B s = some (ctx', s')) :
    ctx'.toParser.Ok ∧ ctx'.toParser.recogniser = bytes.foldl Recogniser.next ctx.toParser.recogniser := by
  obtain ⟨ok', -, recogniser⟩ := putAll_follows ok boot (termWrite_returns (run_returns ran))
  exact ⟨ok', recogniser⟩

theorem zeroed_ok : TermContext.zeroed.toParser.Ok := Parser.Idle.ok ⟨rfl, rfl, rfl, rfl⟩ (Nat.zero_le 2)

theorem term_recognises_opening :
    ∃ ctx', (termWrite .vga .zeroed [0x1b, '['.toUInt8]).run blind () = some (ctx', ()) ∧
      ctx'.toParser.recogniser = { mode := .sequence true [] none, decPrivate := false } := by
  obtain ⟨ctx', ran⟩ :
      ∃ ctx', (termWrite .vga .zeroed [0x1b, '['.toUInt8]).run blind () = some (ctx', ()) := ⟨_, rfl⟩
  exact ⟨ctx', ran, (term_recognises zeroed_ok rfl ran).2.trans rfl⟩

end Voyager.Terminal
