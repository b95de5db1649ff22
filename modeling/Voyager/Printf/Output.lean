import Mathlib.Logic.Function.Basic
import Voyager.Printf.Text
import Voyager.Console.Putchar

/-!
# Where formatted output goes

The buffer of `snprintf_` gets as much of the text as fits, the other output functions get all
of it but its null bytes.
-/

namespace Voyager.Printf

open Lib

/-- `_out_buffer`, and `_out_null` for a null pointer. -/
def outBuffer (maxlen : Nat) : Sink (Option (Nat → UInt8)) where
  handle r buffer := some (buffer.map fun cells => if r.2 < maxlen then Function.update cells r.2 r.1 else cells)
  answer _ := ()

/-- `_out_fct` -/
def outFct {σ : Type} (fct : UInt8 → σ → Option σ) : Sink σ where
  handle r s := if r.1 ≠ 0 then fct r.1 s else some s
  answer _ := ()

/-- `_out_char` -/
def outChar (depth : Nat) : Sink Console := outFct fun c s => (s.putchar depth (Char.ofUInt8 c)).toOption

section

variable (floats : Floats) (format : List UInt8) (va : List Arg)

/-- `vsnprintf_` and `snprintf_` -/
def snprintf (buffer : Option (Nat → UInt8)) (count : Nat) : Option (Int × Option (Nat → UInt8)) :=
  (vsnprintf floats count format va).run (outBuffer count) buffer

def fctprintf {σ : Type} (fct : UInt8 → σ → Option σ) (arg : σ) : Option (Int × σ) :=
  (vsnprintf floats (2 ^ 64 - 1) format va).run (outFct fct) arg

/-- `printf_` and `vprintf_` -/
def printf (depth : Nat) (s : Console) : Option (Int × Console) :=
  (vsnprintf floats (2 ^ 64 - 1) format va).run (outChar depth) s

end

def written (maxlen : Nat) (text : List UInt8) (idx : Nat) (cells : Nat → UInt8) : Nat → UInt8 :=
  fun j => if idx ≤ j ∧ j < maxlen then text[j - idx]?.getD (cells j) else cells j

/-- A buffer of `count` bytes behind `snprintf_`: what fits of the text, a null byte, and the rest as it was. -/
def stored (count : Nat) (text : List UInt8) (cells : Nat → UInt8) : Nat → UInt8 :=
  let fits := min text.length (count - 1)
  fun j => if j < fits then text[j]?.getD 0 else if j = fits ∧ 0 < count then 0 else cells j

theorem outs_buffer (maxlen : Nat) (text : List UInt8) (idx : Nat) (cells : Nat → UInt8) :
    (outs text idx).run (outBuffer maxlen) (some cells) =
      some (idx + text.length, some (written maxlen text idx cells)) := by
  induction text generalizing idx cells with
  | nil =>
    refine congrArg (fun cells => some (idx, some cells)) (funext fun j => ?_)
    simp only [written, List.getElem?_nil, Option.getD_none, ite_self]
  | cons c rest ih =>
    refine (ih (idx + 1) _).trans ?_
    rw [List.length_cons, Nat.add_assoc, Nat.add_comm 1]
    refine congrArg (fun cells => some (_, some cells)) (funext fun j => ?_)
    unfold written
    rcases Nat.lt_trichotomy j idx with before | rfl | behind
    · grind
    · grind
    · obtain ⟨k, rfl⟩ := Nat.exists_eq_add_of_lt behind
      grind

theorem outs_null (maxlen : Nat) (text : List UInt8) (idx : Nat) :
    (outs text idx).run (outBuffer maxlen) none = some (idx + text.length, none) := by
  induction text generalizing idx with
  | nil => rfl
  | cons c rest ih =>
    rw [List.length_cons, Nat.add_comm rest.length, ← Nat.add_assoc]
    exact ih (idx + 1)

theorem outs_fct {σ : Type} (fct : UInt8 → σ → Option σ) (text : List UInt8) (idx : Nat) (s : σ) :
    (outs text idx).run (outFct fct) s =
      ((text.filter (· ≠ 0)).foldlM (fun s c => fct c s) s).map (idx + text.length, ·) := by
  induction text generalizing idx s with
  | nil => rfl
  | cons c rest ih =>
    have step : (outs (c :: rest) idx).run (outFct fct) s =
        (if c ≠ 0 then fct c s else some s).bind ((outs rest (idx + 1)).run (outFct fct)) := rfl
    rw [step, List.length_cons, Nat.add_comm rest.length, ← Nat.add_assoc]
    by_cases null : c = 0
    · rw [if_neg (not_not.mpr null), Option.bind_some, ih, List.filter_cons_of_neg (by simp [null])]
    · rw [if_pos null, List.filter_cons_of_pos (by simp [null]), List.foldlM_cons, Option.bind_eq_bind, Option.map_bind]
      exact Option.bind_congr fun t _ => ih (idx + 1) t

theorem written_terminated (text : List UInt8) {count : Nat} (lt : count < 2 ^ 64) (cells : Nat → UInt8) :
    written count [0] (if text.length < count then text.length else sub64 count 1) (written count text 0 cells) =
      stored count text cells := by
  funext j
  have last : 0 < count → sub64 count 1 = count - 1 := fun pos => sub64_of_le pos lt
  unfold stored written
  grind

theorem vsnprintf_eq {floats : Floats} {format : List UInt8} {va : List Arg} {text : List UInt8}
    (prints : Prints (vsnprintfLoop floats format.length format va) text) (maxlen : Nat) :
    vsnprintf floats maxlen format va = outs text 0 >>= fun _ =>
      outs [0] (if text.length < maxlen then text.length else sub64 maxlen 1) >>= fun _ =>
        return signed 32 text.length := by
  unfold vsnprintf
  rw [prints 0, outs_bind_index, Nat.zero_add]
  rfl

section

variable {floats : Floats} {format : List UInt8} {va : List Arg} {text : List UInt8}
variable (prints : Prints (vsnprintfLoop floats format.length format va) text)

include prints

theorem snprintf_stored {count : Nat} (lt : count < 2 ^ 64) (cells : Nat → UInt8) :
    snprintf floats format va (some cells) count = some (signed 32 text.length, some (stored count text cells)) := by
  rw [snprintf, vsnprintf_eq prints, Calls.run_bind, outs_buffer, Option.bind_some, Calls.run_bind, outs_buffer,
    Option.bind_some, written_terminated text lt]
  rfl

theorem snprintf_null (count : Nat) : snprintf floats format va none count = some (signed 32 text.length, none) := by
  rw [snprintf, vsnprintf_eq prints, Calls.run_bind, outs_null, Option.bind_some, Calls.run_bind, outs_null]
  rfl

theorem fctprintf_sends {σ : Type} (fct : UInt8 → σ → Option σ) (arg : σ) : fctprintf floats format va fct arg =
    ((text.filter (· ≠ 0)).foldlM (fun s c => fct c s) arg).map (signed 32 text.length, ·) := by
  rw [fctprintf, vsnprintf_eq prints, Calls.run_bind, outs_fct, Option.bind_map]
  exact Option.map_eq_bind.symm

end

/-- A format and its arguments have one text, for every sink, or are a fault on each. -/
theorem format_has_one_text (floats : Floats) (format : List UInt8) (va : List Arg) :
    (∃ text : List UInt8,
      (∀ count < 2 ^ 64, ∀ cells, snprintf floats format va (some cells) count =
        some (signed 32 text.length, some (stored count text cells))) ∧
      (∀ count, snprintf floats format va none count = some (signed 32 text.length, none)) ∧
      ∀ {σ : Type} (fct : UInt8 → σ → Option σ) (arg : σ), fctprintf floats format va fct arg =
        ((text.filter (· ≠ 0)).foldlM (fun s c => fct c s) arg).map (signed 32 text.length, ·)) ∨
    (∀ count buffer, snprintf floats format va buffer count = none) ∧
      ∀ {σ : Type} (fct : UInt8 → σ → Option σ) (arg : σ), fctprintf floats format va fct arg = none := by
  obtain ⟨text, prints⟩ | ⟨text, faults⟩ := vsnprintfLoop_uniform floats format.length format va
  · exact .inl ⟨text, fun count lt cells => snprintf_stored prints lt cells, snprintf_null prints,
      fctprintf_sends prints⟩
  · have none {σ : Type} (D : Sink σ) (maxlen : Nat) (s : σ) : (vsnprintf floats maxlen format va).run D s = none := by
      unfold vsnprintf
      rw [faults 0, bind_assoc, Calls.run_bind]
      exact Option.bind_eq_none_iff.mpr fun _ _ => rfl
    exact .inr ⟨fun count buffer => none _ _ _, fun fct arg => none _ _ _⟩

end Voyager.Printf
