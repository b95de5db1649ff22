import Voyager.Terminal.Term

/-!
# The escape sequences term.c recognises

`Recogniser` says what the bytes so far have opened; `Parser.recogniser` reads it off the flags
of the context.
-/

namespace Voyager.Terminal

open Lib

inductive Mode where
  | ground
  | escape
  | introduced -- After 0x9b; the byte that follows is dropped.
  | sequence (first : Bool) (given : List Nat) (digits : Option Nat)
  | discard -- After `ESC [ [`.
  | select (g : Nat)
  deriving DecidableEq

/-- `decPrivate` outlives a sequence that is broken off. -/
structure Recogniser where
  mode : Mode
  decPrivate : Bool
  deriving DecidableEq

structure Sequence where
  decPrivate : Bool
  params : List Nat
  final : UInt8
  deriving DecidableEq

namespace Recogniser

def isCancel (c : UInt8) : Bool := c = 0x18 || c = 0x1a

def nextParam (given : List Nat) (digits : Option Nat) (c : UInt8) : Option (List Nat × Option Nat) :=
  if isDigit c then
    if given.length = termMaxEscValues then some (given, digits)
    else some (given, some ((digits.getD 0 * 10 % 2 ^ 32 + (c - '0'.toUInt8).toNat) % 2 ^ 32))
  else if c = ';'.toUInt8 then
    match digits with
    | some v => some (given ++ [v], none)
    | none => some (if given.length = termMaxEscValues then given else given ++ [0], none)
  else none

def inSequence (decPrivate first : Bool) (given : List Nat) (digits : Option Nat) (c : UInt8) : Recogniser :=
  if first ∧ c = '['.toUInt8 then { mode := .discard, decPrivate }
  else if first ∧ c = '?'.toUInt8 then { mode := .sequence false given digits, decPrivate := true }
  else match nextParam given digits c with
    | some (given, digits) => { mode := .sequence false given digits, decPrivate }
    | none => { mode := .ground, decPrivate := false }

def next (r : Recogniser) (c : UInt8) : Recogniser :=
  if isCancel c then { r with mode := .ground }
  else match r.mode with
    | .ground =>
      if c = 0x9b then { r with mode := .introduced }
      else if c = 0x1b then { r with mode := .escape }
      else r
    | .escape =>
      if c = '['.toUInt8 then { r with mode := .sequence true [] none }
      else if c = '('.toUInt8 then { r with mode := .select 0 }
      else if c = ')'.toUInt8 then { r with mode := .select 1 }
      else if c = 'c'.toUInt8 then { mode := .ground, decPrivate := false }
      else { r with mode := .ground }
    | .introduced => { r with mode := .sequence true [] none }
    | .sequence first given digits => inSequence r.decPrivate first given digits c
    | .discard | .select _ => { r with mode := .ground }

def completed (r : Recogniser) (c : UInt8) : Option Sequence :=
  if isCancel c then none
  else match r.mode with
    | .sequence first given digits =>
      if first ∧ (c = '['.toUInt8 ∨ c = '?'.toUInt8) then none
      else if (nextParam given digits c).isSome then none
      else some { decPrivate := r.decPrivate, params := given ++ digits.toList, final := c }
    | _ => none

end Recogniser

namespace Parser

def digits (p : Parser) : Option Nat := if p.rrr then some (p.escValues p.escValuesI) else none

def mode (p : Parser) : Mode :=
  if p.discardNext then .discard
  else if p.escape then
    if p.controlSequence then .sequence (p.escapeOffset = 1) p.params p.digits
    else if p.csi then .introduced
    else .escape
  else if p.gSelect = 0 then .ground
  else .select (p.gSelect - 1)

def recogniser (p : Parser) : Recogniser := { mode := p.mode, decPrivate := p.decPrivate }

/-- How the flags go together between two bytes. -/
structure Ok (p : Parser) : Prop where
  sequence_escape : p.controlSequence → p.escape
  csi_escape : p.csi → p.escape ∧ p.controlSequence = false
  offset : p.escape → if p.controlSequence then 1 ≤ p.escapeOffset else p.escapeOffset = 0
  select_le : p.gSelect ≤ 2
  select_ground : p.escape → p.gSelect = 0
  values_le : p.controlSequence → p.escValuesI ≤ termMaxEscValues
  digits_lt : p.controlSequence → p.rrr → p.escValuesI < termMaxEscValues
  unread : p.controlSequence → ∀ i < termMaxEscValues, p.escValuesI < i ∨ (p.escValuesI = i ∧ p.rrr = false) →
    p.escValues i = 0

variable {p : Parser} {c : UInt8}

structure Idle (p : Parser) : Prop where
  controlSequence : p.controlSequence = false
  csi : p.csi = false
  escape : p.escape = false
  discardNext : p.discardNext = false

theorem Idle.ok (h : p.Idle) (select : p.gSelect ≤ 2) : p.Ok := by
  obtain ⟨sequence, csi, escape, -⟩ := h
  constructor <;> simp [sequence, csi, escape, select]

theorem Ok.idle (ok : p.Ok) (escape : p.escape = false) (kept : p.discardNext = false) : p.Idle := by
  refine ⟨?_, ?_, escape, kept⟩ <;> apply Bool.eq_false_of_not_eq_true
  · intro opened
    have := ok.sequence_escape opened
    simp [escape] at this
  · intro csi
    have := (ok.csi_escape csi).1
    simp [escape] at this

theorem Idle.mode (h : p.Idle) : p.mode = if p.gSelect = 0 then .ground else .select (p.gSelect - 1) := by
  unfold Parser.mode
  simp only [h.discardNext, h.escape, Bool.false_eq_true, if_false]

structure Open (p : Parser) : Prop extends p.Ok where
  opened : p.controlSequence
  kept : p.discardNext = false

section Open

variable (h : p.Open)

include h

theorem Open.escape : p.escape := h.sequence_escape h.opened

theorem Open.csi : p.csi = false := by
  by_contra on
  have shut := (h.csi_escape (by simpa using on)).2
  simp [h.opened] at shut

theorem Open.positive : 1 ≤ p.escapeOffset := by
  have := h.offset h.escape
  rwa [if_pos h.opened] at this

theorem Open.mode : p.mode = .sequence (p.escapeOffset = 1) p.params p.digits := by
  unfold Parser.mode
  simp only [h.kept, h.opened, h.escape, Bool.false_eq_true, if_false, if_true]

end Open

theorem not_cancel (live : c ≠ 0x18 ∧ c ≠ 0x1a) : Recogniser.isCancel c = false := by
  unfold Recogniser.isCancel
  simp [live.1, live.2]

theorem Open.next (h : p.Open) (live : c ≠ 0x18 ∧ c ≠ 0x1a) :
    p.recogniser.next c = Recogniser.inSequence p.decPrivate (p.escapeOffset = 1) p.params p.digits c := by
  unfold Recogniser.next Parser.recogniser
  simp only [not_cancel live, h.mode, Bool.false_eq_true, if_false]

theorem nextParam_none {given : List Nat} {digits : Option Nat} (digit : ¬isDigit c) (semicolon : c ≠ ';'.toUInt8) :
    Recogniser.nextParam given digits c = none := by
  unfold Recogniser.nextParam
  rw [if_neg digit, if_neg semicolon]

theorem Open.completed (h : p.Open) (live : c ≠ 0x18 ∧ c ≠ 0x1a)
    (bracket : ¬(p.escapeOffset = 1 ∧ c = '['.toUInt8)) (question : ¬(p.escapeOffset = 1 ∧ c = '?'.toUInt8))
    (digit : ¬isDigit c) (semicolon : c ≠ ';'.toUInt8) :
    p.recogniser.completed c = some { decPrivate := p.decPrivate, params := p.params ++ p.digits.toList, final := c } := by
  have plain : ¬(p.escapeOffset = 1 ∧ (c = '['.toUInt8 ∨ c = '?'.toUInt8)) := by tauto
  unfold Recogniser.completed recogniser
  simp only [not_cancel live, h.mode, nextParam_none digit semicolon, Bool.false_eq_true, if_false, decide_eq_true_eq,
    plain, Option.isSome_none]

theorem Open.value (h : p.Open) (lt : p.escValuesI < termMaxEscValues) : p.digits.getD 0 = p.escValues p.escValuesI := by
  unfold digits
  split
  · rfl
  · rename_i none
    exact (h.unread h.opened _ lt (.inr ⟨rfl, by simpa using none⟩)).symm

def Reads (p : Parser) (c : UInt8) : Reading → Prop
  | .more p' => p'.Ok ∧ p'.recogniser = p.recogniser.next c
  | .final p' =>
    p.recogniser.next c = { mode := .ground, decPrivate := false } ∧
    p.recogniser.completed c = some { decPrivate := p.decPrivate, params := p'.params, final := c } ∧
    ∃ n ≤ termMaxEscValues, p' = { p.further with escValuesI := n, rrr := false }
  | .outside => False

theorem Open.more (h : p.Open) (rrr decPrivate : Bool) (n : Nat) (values : Nat → Nat)
    (le : n ≤ termMaxEscValues) (digits : rrr → n < termMaxEscValues)
    (unread : ∀ i < termMaxEscValues, n < i ∨ (n = i ∧ rrr = false) → values i = 0)
    (next : p.recogniser.next c =
      { mode := .sequence false (front values n) (if rrr then some (values n) else none), decPrivate }) :
    Reads p c (.more { p.further with rrr, decPrivate, escValuesI := n, escValues := values }) := by
  have later : p.escapeOffset ≠ 0 := Nat.ne_of_gt h.positive
  constructor
  · exact {
      sequence_escape := h.sequence_escape
      csi_escape := h.csi_escape
      offset := fun _ => by simp [further, h.opened]
      select_le := h.select_le
      select_ground := h.select_ground
      values_le := fun _ => le
      digits_lt := fun _ => digits
      unread := fun _ => unread }
  · rw [next]
    unfold recogniser Parser.mode
    simp [further, h.kept, h.escape, h.opened, later, params, Parser.digits]

theorem Open.reads (h : p.Open) (live : c ≠ 0x18 ∧ c ≠ 0x1a) : Reads p c (p.further.read c) := by
  have next := h.next live
  have first : p.further.escapeOffset = 2 ↔ p.escapeOffset = 1 := Nat.succ_inj
  have le := h.values_le h.opened
  have unread := h.unread h.opened
  unfold Parser.read Recogniser.inSequence at *
  simp only [first, decide_eq_true_eq] at next ⊢
  by_cases bracket : p.escapeOffset = 1 ∧ c = '['.toUInt8
  · rw [if_pos bracket] at next ⊢
    constructor
    · refine ⟨?_, ?_, ?_, ?_, ?_, ?_, ?_, ?_⟩ <;> simp [further, h.csi, h.select_le]
    · rw [next]
      simp [recogniser, Parser.mode, further]
  rw [if_neg bracket] at next ⊢
  by_cases question : p.escapeOffset = 1 ∧ c = '?'.toUInt8
  · rw [if_pos question] at next ⊢
    exact h.more p.rrr true p.escValuesI p.escValues le (h.digits_lt h.opened) unread next
  rw [if_neg question] at next ⊢
  unfold Recogniser.nextParam at next
  rw [params, front_length] at next
  by_cases digit : isDigit c
  · rw [if_pos digit] at next ⊢
    by_cases full : p.escValuesI = termMaxEscValues
    · rw [if_pos full] at next
      rw [if_pos (show p.further.escValuesI = _ from full)]
      exact h.more p.rrr p.decPrivate p.escValuesI p.escValues le (h.digits_lt h.opened) unread next
    · have lt : p.escValuesI < termMaxEscValues := Nat.lt_of_le_of_ne le full
      rw [if_neg full, h.value lt] at next
      rw [if_neg (show p.further.escValuesI ≠ _ from full), if_pos (show p.further.escValuesI < _ from lt)]
      refine h.more true p.decPrivate p.escValuesI (Function.update p.escValues p.escValuesI _) le (fun _ => lt) ?_ ?_
      · intro i hi later
        have later : p.escValuesI < i := by simpa using later
        rw [Function.update_of_ne (Nat.ne_of_gt later)]
        exact unread i hi (.inl later)
      · rw [next, front_update, Function.update_self]
        rfl
  rw [if_neg digit] at next ⊢
  by_cases rrr : p.rrr
  · have lt := h.digits_lt h.opened rrr
    have rrr' : p.further.rrr := rrr
    rw [if_pos rrr']
    unfold digits at next
    rw [if_pos rrr] at next
    by_cases semicolon : c = ';'.toUInt8
    · rw [if_pos semicolon] at next ⊢
      refine h.more false p.decPrivate (p.escValuesI + 1) p.escValues lt nofun ?_ ?_
      · intro i hi later
        exact unread i hi (.inl (by omega))
      · rw [next, front_succ]
        rfl
    · rw [if_neg semicolon] at next ⊢
      refine ⟨next, ?_, p.escValuesI + 1, lt, rfl⟩
      rw [h.completed live bracket question digit semicolon]
      unfold params digits
      rw [if_pos rrr, Option.toList_some, ← front_succ]
      rfl
  · have rrr' : ¬p.further.rrr := rrr
    have none : p.rrr = false := Bool.eq_false_of_not_eq_true rrr
    rw [if_neg rrr']
    unfold digits at next
    rw [if_neg rrr] at next
    by_cases semicolon : c = ';'.toUInt8
    · rw [if_pos semicolon] at next ⊢
      by_cases full : p.escValuesI = termMaxEscValues
      · rw [if_pos (show p.further.escValuesI = _ from full)]
        exact h.more p.rrr p.decPrivate p.escValuesI p.escValues le (h.digits_lt h.opened) unread
          (by rw [next, if_pos full, if_neg rrr])
      · have lt : p.escValuesI < termMaxEscValues := Nat.lt_of_le_of_ne le full
        rw [if_neg (show p.further.escValuesI ≠ _ from full), if_pos (show p.further.escValuesI < _ from lt)]
        refine h.more p.rrr p.decPrivate (p.escValuesI + 1) (Function.update p.escValues p.escValuesI _) lt
          (fun on => absurd on rrr) ?_ ?_
        · intro i hi later
          rw [Function.update_of_ne (by omega)]
          exact unread i hi (.inl (by omega))
        · rw [next, if_neg full, front_push, if_neg rrr]
          rfl
    · rw [if_neg semicolon] at next ⊢
      refine ⟨next, ?_, p.escValuesI, le, ?_⟩
      · rw [h.completed live bracket question digit semicolon]
        unfold digits
        rw [if_neg rrr, Option.toList_none, List.append_nil]
        rfl
      · rw [← none]
        rfl

/-- Between two bytes, the last of which was an escape or 0x9b. -/
structure Escaped (p : Parser) : Prop extends p.Ok where
  escape : p.escape
  shut : p.controlSequence = false
  kept : p.discardNext = false

namespace Escaped

variable (h : p.Escaped)

include h

theorem offset_zero : p.escapeOffset = 0 := by
  have zero := h.offset h.escape
  rwa [h.shut, if_neg Bool.false_ne_true] at zero

theorem mode : p.mode = if p.csi then .introduced else .escape := by
  unfold Parser.mode
  simp only [h.kept, h.escape, h.shut, Bool.false_eq_true, if_false, if_true]

theorem openSequence_ok : (openSequence { p.further with csi := false }).Ok := by
  have select := h.select_ground h.escape
  refine ⟨?_, ?_, ?_, ?_, ?_, ?_, ?_, ?_⟩ <;> simp +contextual [openSequence, further, select, h.escape]

theorem openSequence_recogniser : (openSequence { p.further with csi := false }).recogniser =
    { mode := .sequence true [] none, decPrivate := p.decPrivate } := by
  unfold recogniser Parser.mode openSequence further
  simp [h.kept, h.escape, h.offset_zero, params, digits]

end Escaped

theorem Escaped.next (h : p.Escaped) (live : c ≠ 0x18 ∧ c ≠ 0x1a) (csi : p.csi = false) :
    p.recogniser.next c =
      if c = '['.toUInt8 then { mode := .sequence true [] none, decPrivate := p.decPrivate }
      else if c = '('.toUInt8 then { mode := .select 0, decPrivate := p.decPrivate }
      else if c = ')'.toUInt8 then { mode := .select 1, decPrivate := p.decPrivate }
      else if c = 'c'.toUInt8 then { mode := .ground, decPrivate := false }
      else { mode := .ground, decPrivate := p.decPrivate } := by
  unfold Recogniser.next recogniser
  simp only [not_cancel live, h.mode, csi, Bool.false_eq_true, if_false]

end Parser

end Voyager.Terminal
