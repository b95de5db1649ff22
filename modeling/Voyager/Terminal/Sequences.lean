import Voyager.Terminal.Recognition

/-! # Control sequences, written and read back -/

namespace Voyager.Terminal

open Lib Calls

def paramBytes : List Nat → List UInt8
  | [] => []
  | [v] => decimal v
  | v :: w :: rest => decimal v ++ ';'.toUInt8 :: paramBytes (w :: rest)

def sequenceBytes (params : List Nat) (final : UInt8) : List UInt8 :=
  0x1b :: '['.toUInt8 :: (paramBytes params ++ [final])

/-- A byte that ends a control sequence; `[` and `?` do so only behind a parameter. -/
structure IsFinal (params : List Nat) (c : UInt8) : Prop where
  live : c ≠ 0x18 ∧ c ≠ 0x1a
  digit : ¬isDigit c
  semicolon : c ≠ ';'.toUInt8
  opening : params = [] → c ≠ '['.toUInt8 ∧ c ≠ '?'.toUInt8

namespace Recogniser

variable {first decPrivate : Bool} {given params : List Nat} {v d : Nat} {c : UInt8}

/-- A digit or a semicolon: it is read as a parameter in every control sequence. -/
def ParamByte (c : UInt8) : Prop := isDigit c ∨ c = ';'.toUInt8

theorem digit_paramByte (lt : d < 10) : ParamByte (digitCode d) := .inl (isDigit_digitCode d lt)

theorem paramBytes_paramByte (h : c ∈ paramBytes params) : ParamByte c := by
  fun_induction paramBytes params with
  | case1 => cases h
  | case2 v =>
    obtain ⟨d, lt, rfl⟩ := mem_decimal h
    exact digit_paramByte lt
  | case3 v w rest ih =>
    rcases List.mem_append.mp h with front | tail
    · obtain ⟨d, lt, rfl⟩ := mem_decimal front
      exact digit_paramByte lt
    · rcases List.mem_cons.mp tail with rfl | tail
      · exact .inr rfl
      · exact ih tail

theorem ParamByte.live (h : ParamByte c) : c ≠ 0x18 ∧ c ≠ 0x1a := by
  rcases h with digit | rfl
  · constructor <;> rintro rfl <;> exact absurd digit (by decide)
  · decide

theorem ParamByte.plain (h : ParamByte c) : c ≠ '['.toUInt8 ∧ c ≠ '?'.toUInt8 := by
  rcases h with digit | rfl
  · constructor <;> rintro rfl <;> exact absurd digit (by decide)
  · decide

theorem ParamByte.read (h : ParamByte c) (given : List Nat) (digits : Option Nat) :
    ∃ r, nextParam given digits c = some r := by
  unfold nextParam
  by_cases digit : isDigit c
  · rw [if_pos digit]
    split <;> exact ⟨_, rfl⟩
  · rw [if_neg digit, if_pos (h.resolve_left digit)]
    split <;> exact ⟨_, rfl⟩

theorem next_param {digits : Option Nat} {r : List Nat × Option Nat} (h : ParamByte c)
    (read : nextParam given digits c = some r) :
    ({ mode := .sequence first given digits, decPrivate } : Recogniser).next c =
      { mode := .sequence false r.1 r.2, decPrivate } := by
  unfold next inSequence
  simp [Parser.not_cancel h.live, h.plain.1, h.plain.2, read]

theorem next_digit {digits : Option Nat} (lt : d < 10) (room : given.length < termMaxEscValues)
    (small : digits.getD 0 * 10 + d < 2 ^ 32) :
    ({ mode := .sequence first given digits, decPrivate } : Recogniser).next (digitCode d) =
      { mode := .sequence false given (some (digits.getD 0 * 10 + d)), decPrivate } := by
  have value : ∀ d < 10, (digitCode d - '0'.toUInt8).toNat = d := by decide
  refine next_param (r := (given, _)) (digit_paramByte lt) ?_
  unfold nextParam
  have ten : digits.getD 0 * 10 % 2 ^ 32 = digits.getD 0 * 10 := Nat.mod_eq_of_lt (by omega)
  rw [if_pos (isDigit_digitCode d lt), if_neg (Nat.ne_of_lt room), value d lt, ten, Nat.mod_eq_of_lt small]

theorem next_semicolon :
    ({ mode := .sequence first given (some v), decPrivate } : Recogniser).next ';'.toUInt8 =
      { mode := .sequence false (given ++ [v]) none, decPrivate } :=
  next_param (r := (given ++ [v], none)) (.inr rfl) rfl

theorem foldl_decimal (room : given.length < termMaxEscValues) (small : v < 2 ^ 32) :
    (decimal v).foldl next { mode := .sequence first given none, decPrivate } =
      { mode := .sequence false given (some v), decPrivate } := by
  induction v using decimal_induction with
  | single n lt =>
    rw [decimal_of_lt lt, List.foldl_cons, List.foldl_nil, next_digit lt room (by simpa using small)]
    simp
  | more n le ih =>
    have last : n / 10 * 10 + n % 10 = n := Nat.div_add_mod' n 10
    rw [decimal_of_le le, List.foldl_append, ih (by omega), List.foldl_cons, List.foldl_nil,
      next_digit (Nat.mod_lt n (by decide)) room (by simpa [last] using small)]
    simp [last]

theorem foldl_paramBytes (first decPrivate : Bool) (given : List Nat)
    (few : given.length + params.length ≤ termMaxEscValues) (small : ∀ v ∈ params, v < 2 ^ 32)
    (nonempty : params ≠ []) :
    ∃ before last, before ++ [last] = given ++ params ∧
      (paramBytes params).foldl next { mode := .sequence first given none, decPrivate } =
        { mode := .sequence false before (some last), decPrivate } := by
  fun_induction paramBytes params generalizing first given with
  | case1 => exact absurd rfl nonempty
  | case2 v =>
    refine ⟨given, v, rfl, foldl_decimal ?_ (small v (List.mem_singleton_self v))⟩
    exact few
  | case3 v w rest ih =>
    have lt : given.length < termMaxEscValues := by
      simp only [List.length_cons] at few
      omega
    rw [List.foldl_append, foldl_decimal lt (small v List.mem_cons_self), List.foldl_cons, next_semicolon]
    have few : (given ++ [v]).length + (w :: rest).length ≤ termMaxEscValues := by
      simp only [List.length_append, List.length_cons, List.length_nil] at few ⊢
      omega
    obtain ⟨before, last, split, read⟩ := ih false (given ++ [v]) few (fun u hu => small u (List.mem_cons_of_mem _ hu)) nofun
    exact ⟨before, last, by rw [split, List.append_assoc]; rfl, read⟩

end Recogniser

section Run

variable (size : Size) {ctx : TermContext} {p : Parser} {c : UInt8} {params : List Nat}

theorem not_cancelled (kept : ctx.discardNext = false) (live : c ≠ 0x18 ∧ c ≠ 0x1a) :
    ¬(ctx.discardNext ∨ (ctx.inBootloader = false ∧ (c = 0x18 ∨ c = 0x1a))) := by
  simp [kept, live.1, live.2]

theorem putAll_cons (ctx : TermContext) (c : UInt8) (bytes : List UInt8) :
    putAll size ctx (c :: bytes) = termPutchar size ctx c >>= fun ctx => putAll size ctx bytes :=
  List.foldlM_cons

namespace Parser

theorem idle_of_ground (ok : p.Ok) (mode : p.mode = .ground) : p.Idle ∧ p.gSelect = 0 := by
  unfold Parser.mode at mode
  split_ifs at mode with discard escape opened csi select
  exact ⟨ok.idle (by simpa using escape) (by simpa using discard), select⟩

theorem open_of_mode {first : Bool} {given : List Nat} {digits : Option Nat} (ok : p.Ok)
    (mode : p.mode = .sequence first given digits) : p.Open := by
  unfold Parser.mode at mode
  split_ifs at mode with discard escape opened
  exact ⟨ok, opened, by simpa using discard⟩

end Parser

/-! `ESC [` opens a sequence without parameters. -/

theorem escape_silent (idle : ctx.toParser.Idle) (select : ctx.gSelect = 0) :
    ∃ p, (termPutchar size ctx 0x1b).Silent (ctx.withParser p) ∧ p.Escaped ∧ p.csi = false ∧
      p.decPrivate = ctx.decPrivate := by
  refine ⟨{ ctx.toParser with escapeOffset := 0, escape := true }, fun D s => ?_, ?_, idle.csi, rfl⟩
  · unfold termPutchar
    rw [if_neg (not_cancelled idle.discardNext (by decide)), if_neg (by simp [idle.escape]), if_neg (by simp [select])]
    rfl
  · refine ⟨⟨?_, ?_, ?_, ?_, ?_, ?_, ?_, ?_⟩, ?_, ?_, ?_⟩ <;>
      simp [idle.controlSequence, idle.csi, idle.discardNext, select]

theorem bracket_silent (h : ctx.toParser.Escaped) (csi : ctx.csi = false) :
    ∃ p, (termPutchar size ctx '['.toUInt8).Silent (ctx.withParser p) ∧ p.Open ∧
      p.recogniser = { mode := .sequence true [] none, decPrivate := ctx.decPrivate } := by
  have opened := h.openSequence_recogniser
  refine ⟨openSequence { ctx.toParser.further with csi := false }, fun D s => ?_,
    Parser.open_of_mode h.openSequence_ok (congrArg Recogniser.mode opened), opened⟩
  have shut : ¬(ctx.withParser ctx.toParser.further).controlSequence := fun on => Bool.false_ne_true (h.shut.symm.trans on)
  have eight : ¬(ctx.withParser ctx.toParser.further).csi := fun on => Bool.false_ne_true (csi.symm.trans on)
  unfold termPutchar
  rw [if_neg (not_cancelled h.kept (by decide)), if_pos h.escape]
  unfold escapeParse
  rw [if_neg shut, if_neg eight, ← csi]
  rfl

theorem opening_silent (ok : ctx.toParser.Ok) (ground : ctx.toParser.mode = .ground) :
    ∃ p, (putAll size ctx [0x1b, '['.toUInt8]).Silent (ctx.withParser p) ∧ p.Open ∧
      p.recogniser = { mode := .sequence true [] none, decPrivate := ctx.decPrivate } := by
  obtain ⟨idle, select⟩ := Parser.idle_of_ground ok ground
  obtain ⟨p, first, escaped, csi, same⟩ := escape_silent size idle select
  obtain ⟨q, second, opened, recogniser⟩ :=
    bracket_silent size (show (ctx.withParser p).toParser.Escaped from escaped) csi
  refine ⟨q, ?_, opened, recogniser.trans (congrArg (Recogniser.mk _) same)⟩
  rw [putAll_cons]
  refine first.bind ?_
  rw [putAll_cons]
  exact second.bind fun _ _ => rfl

/-! Its parameters only change the parser. -/

theorem termPutchar_open (h : ctx.toParser.Open) (live : c ≠ 0x18 ∧ c ≠ 0x1a) :
    termPutchar size ctx c = controlSequenceParse size (ctx.withParser ctx.toParser.further) c := by
  unfold termPutchar escapeParse
  rw [if_neg (not_cancelled h.kept live), if_pos h.escape]
  exact if_pos h.opened

theorem paramByte_silent (h : ctx.toParser.Open) (byte : Recogniser.ParamByte c) :
    ∃ p, (termPutchar size ctx c).Silent (ctx.withParser p) ∧ p.Open ∧
      p.recogniser = ctx.toParser.recogniser.next c := by
  have reads := h.reads byte.live
  obtain ⟨r, param⟩ := byte.read ctx.params ctx.digits
  have next : ctx.toParser.recogniser.next c = { mode := .sequence false r.1 r.2, decPrivate := ctx.decPrivate } := by
    unfold Parser.recogniser
    rw [h.mode, Recogniser.next_param byte param]
  cases read : ctx.toParser.further.read c with
  | more p =>
    rw [read] at reads
    have mode : p.mode = .sequence false r.1 r.2 := congrArg Recogniser.mode (reads.2.trans next)
    refine ⟨p, fun D s => ?_, Parser.open_of_mode reads.1 mode, reads.2⟩
    rw [termPutchar_open size h byte.live,
      controlSequenceParse_more (show (ctx.withParser ctx.toParser.further).toParser.read c = _ from read)]
    rfl
  | final p =>
    rw [read] at reads
    have ground := congrArg Recogniser.mode (reads.1.symm.trans next)
    cases ground
  | outside =>
    rw [read] at reads
    exact reads.elim

theorem paramBytes_silent {bytes : List UInt8} (h : ctx.toParser.Open) (param : ∀ c ∈ bytes, Recogniser.ParamByte c) :
    ∃ p, (putAll size ctx bytes).Silent (ctx.withParser p) ∧ p.Open ∧
      p.recogniser = bytes.foldl Recogniser.next ctx.toParser.recogniser := by
  induction bytes generalizing ctx with
  | nil => exact ⟨ctx.toParser, fun _ _ => rfl, h, rfl⟩
  | cons c bytes ih =>
    obtain ⟨p, first, opened, next⟩ := paramByte_silent size h (param c List.mem_cons_self)
    obtain ⟨q, rest, done, reads⟩ :=
      @ih (ctx.withParser p) opened fun d hd => param d (List.mem_cons_of_mem _ hd)
    refine ⟨q, ?_, done, reads.trans (by rw [List.foldl_cons, ← next]; rfl)⟩
    rw [putAll_cons]
    exact first.bind rest

/-! The byte that ends the parameters. -/

namespace Parser

theorem read_final (first : p.escapeOffset = 1 → c ≠ '['.toUInt8 ∧ c ≠ '?'.toUInt8) (digit : ¬isDigit c)
    (semicolon : c ≠ ';'.toUInt8) :
    ∃ q, p.further.read c = .final q ∧ q.params = p.params ++ p.digits.toList ∧ q.decPrivate = p.decPrivate ∧
      q.csi = p.csi ∧ q.discardNext = p.discardNext ∧ q.gSelect = p.gSelect := by
  have bracket : ¬(p.further.escapeOffset = 2 ∧ c = '['.toUInt8) := fun on => (first (Nat.succ_inj.mp on.1)).1 on.2
  have question : ¬(p.further.escapeOffset = 2 ∧ c = '?'.toUInt8) := fun on => (first (Nat.succ_inj.mp on.1)).2 on.2
  unfold read
  rw [if_neg bracket, if_neg question, if_neg digit]
  unfold Parser.digits
  by_cases rrr : p.rrr
  · rw [if_pos (show p.further.rrr from rrr), if_neg semicolon, if_pos rrr]
    exact ⟨_, rfl, front_succ _ _, rfl, rfl, rfl, rfl⟩
  · rw [if_neg (show ¬p.further.rrr from rrr), if_neg semicolon, if_neg rrr]
    exact ⟨_, rfl, (List.append_nil _).symm, rfl, rfl, rfl, rfl⟩

theorem Open.written (h : p.Open) {decPrivate : Bool} (few : params.length ≤ termMaxEscValues)
    (small : ∀ v ∈ params, v < 2 ^ 32)
    (read : p.recogniser = (paramBytes params).foldl Recogniser.next { mode := .sequence true [] none, decPrivate }) :
    p.params ++ p.digits.toList = params ∧ p.decPrivate = decPrivate ∧ (p.escapeOffset = 1 → params = []) := by
  unfold recogniser at read
  rw [h.mode] at read
  by_cases empty : params = []
  · subst empty
    obtain ⟨mode, same⟩ := Recogniser.mk.inj read
    obtain ⟨-, given, digits⟩ := Mode.sequence.inj mode
    exact ⟨by rw [given, digits]; rfl, same, fun _ => rfl⟩
  · obtain ⟨before, last, split, fold⟩ :=
      Recogniser.foldl_paramBytes true decPrivate [] (by simpa using few) small empty
    rw [fold] at read
    obtain ⟨mode, same⟩ := Recogniser.mk.inj read
    obtain ⟨first, given, digits⟩ := Mode.sequence.inj mode
    refine ⟨by rw [given, digits]; exact split, same, fun one => ?_⟩
    simp [one] at first

end Parser

theorem fillDefaults_eq {i : Nat} (lt : i < termMaxEscValues) :
    (fillDefaults p c).escValues i = p.params.getD i (escDefault c) := by
  unfold fillDefaults
  dsimp only
  by_cases given : i < p.escValuesI
  · rw [if_neg (by omega), List.getD_eq_getElem?_getD, Parser.params, getElem?_front given, Option.getD_some]
  · rw [if_pos ⟨by omega, lt⟩, List.getD_eq_default _ _ (by rw [Parser.params, front_length]; omega)]

theorem run_putAll_append {xs : List UInt8} (h : (putAll size ctx xs).Silent (ctx.withParser p)) (ys : List UInt8)
    {σ : Type} (B : Backend σ) (s : σ) :
    (putAll size ctx (xs ++ ys)).run B s = (putAll size (ctx.withParser p) ys).run B s := by
  unfold putAll at h ⊢
  rw [List.foldlM_append]
  exact h.run_bind B s

/-- The parser once the flags of the sequence are down again. -/
def Parser.close (p : Parser) : Parser := { p with controlSequence := false, escape := false }

theorem sequence_run (ok : ctx.toParser.Ok) (ground : ctx.toParser.mode = .ground)
    (few : params.length ≤ termMaxEscValues) (small : ∀ v ∈ params, v < 2 ^ 32) (final : IsFinal params c) :
    ∃ p : Parser, (p.params = params ∧ p.decPrivate = ctx.decPrivate ∧ p.close.Idle ∧ p.gSelect = 0) ∧
      ∀ {σ : Type} (B : Backend σ) (s : σ),
        (putAll size ctx (sequenceBytes params c)).run B s = (runSequence size (ctx.withParser p) c).run B s := by
  obtain ⟨p, opening, opened, start⟩ := opening_silent size ok ground
  obtain ⟨q, middle, held, read⟩ := paramBytes_silent size (show (ctx.withParser p).toParser.Open from opened)
    fun _ (h : _ ∈ paramBytes params) => Recogniser.paramBytes_paramByte h
  rw [show (ctx.withParser p).toParser.recogniser = _ from start] at read
  obtain ⟨given, same, first⟩ := held.written few small read
  obtain ⟨r, ends, all, kept, csi, discard, select⟩ :=
    Parser.read_final (p := q) (fun one => final.opening (first one)) final.digit final.semicolon
  refine ⟨r, ⟨all.trans given, kept.trans same, ⟨rfl, csi.trans held.csi, rfl, discard.trans held.kept⟩,
    select.trans (held.select_ground held.escape)⟩, fun B s => ?_⟩
  have last : controlSequenceParse size (ctx.withParser q.further) c = runSequence size (ctx.withParser r) c :=
    controlSequenceParse_final ends
  change (putAll size ctx ([0x1b, '['.toUInt8] ++ (paramBytes params ++ [c]))).run B s = _
  rw [run_putAll_append size opening, run_putAll_append size middle, putAll_cons,
    termPutchar_open size (show ((ctx.withParser p).withParser q).toParser.Open from held) final.live, ← last]
  exact congrArg (Calls.run B · s) (bind_pure _)

/-- A control sequence runs its function with the parameters as they were written, and with the
default for those that were not. -/
theorem sequence_decoded (ok : ctx.toParser.Ok) (ground : ctx.toParser.mode = .ground)
    (few : params.length ≤ termMaxEscValues) (small : ∀ v ∈ params, v < 2 ^ 32) (final : IsFinal params c) :
    ∃ p : Parser, p.params = params ∧ p.decPrivate = ctx.decPrivate ∧
      (∀ i < termMaxEscValues, (fillDefaults p c).escValues i = params.getD i (escDefault c)) ∧
      ∀ {σ : Type} (B : Backend σ) (s : σ),
        (putAll size ctx (sequenceBytes params c)).run B s = (runSequence size (ctx.withParser p) c).run B s := by
  obtain ⟨p, ⟨all, same, -⟩, ran⟩ := sequence_run size ok ground few small final
  exact ⟨p, all, same, fun i lt => by rw [fillDefaults_eq lt, all], ran⟩

theorem sequence_decoded_colour :
    ∃ p : Parser, p.params = [38, 5, 200] ∧ p.decPrivate = false ∧
      (∀ i < termMaxEscValues, (fillDefaults p 'm'.toUInt8).escValues i = [38, 5, 200].getD i 1) ∧
      ∀ {σ : Type} (B : Backend σ) (s : σ),
        (putAll .vga .zeroed (sequenceBytes [38, 5, 200] 'm'.toUInt8)).run B s =
          (runSequence .vga (TermContext.zeroed.withParser p) 'm'.toUInt8).run B s :=
  sequence_decoded .vga zeroed_ok rfl (by decide) (by decide) ⟨by decide, by decide, by decide, nofun⟩

end Run

end Voyager.Terminal
