import Mathlib.Data.List.TakeWhile
import Voyager.Lib.Cells
import Voyager.Printf.Directives

/-! # The message of a panic -/

namespace Voyager.Printf

open Lib

def cString (text : String) : List UInt8 := text.toList.map Char.toUInt8 ++ [0]

def lineFormat : List UInt8 := cString "%s\n"

def panicBufSize : Nat := 1024

def panicBanner : String := "!!!!!!!!!!!!!!!!!!!!KERNEL PANIC!!!!!!!!!!!!!!!!!!!!!"

def panicRule : String := "-----------------------------------------------------"

/-- `panic`, up to the stack trace. The addresses of the strings are not looked at. -/
def panicHead (floats : Floats) (depth : Nat) (fmt : List UInt8) (args : List Arg) (buf : Nat → UInt8) (s : Console) :
    Option ((Nat → UInt8) × Console) := do
  let s := if s.initDone = 1 then { s with kerrorMode := 1 } else s
  let (_, buf) ← snprintf floats fmt args (some buf) panicBufSize
  let buf ← buf
  let (_, s) ← printf floats lineFormat [.text 0 (cString panicBanner)] depth s
  let (_, s) ← printf floats lineFormat [.text 0 (cString panicRule)] depth s
  let (_, s) ← printf floats (cString "%s") [.text 0 (cString "CAUSE: ")] depth s
  let (_, s) ← printf floats lineFormat [.text 0 (front buf panicBufSize)] depth s
  let (_, s) ← printf floats lineFormat [.text 0 (cString panicRule)] depth s
  return (buf, s)

def panicText (message : List UInt8) : List UInt8 :=
  (panicBanner ++ "\n" ++ panicRule ++ "\nCAUSE: ").toList.map Char.toUInt8 ++ message ++
    ("\n" ++ panicRule ++ "\n").toList.map Char.toUInt8

theorem cText_append (xs rest : List UInt8) : cText (xs ++ 0 :: rest) = some (xs.takeWhile (· ≠ 0)) := by
  induction xs with
  | nil => rfl
  | cons c xs ih =>
    by_cases zero : c = 0
    · simp [cText, zero]
    · simp [cText, zero, ih]

theorem front_stored {count : Nat} (pos : 0 < count) (text : List UInt8) (cells : Nat → UInt8) :
    ∃ rest, front (stored count text cells) count = text.take (count - 1) ++ 0 :: rest := by
  let fits := min text.length (count - 1)
  refine ⟨front (fun i => cells (fits + 1 + i)) (count - (fits + 1)), front_eq ?_ fun i lt => ?_⟩
  · simp only [List.length_append, List.length_cons, List.length_take, front_length, fits]
    omega
  · have length : (text.take (count - 1)).length = fits := (List.length_take ..).trans (Nat.min_comm ..)
    unfold stored
    rcases Nat.lt_trichotomy i fits with before | rfl | behind
    · have inside : i < text.length ∧ i < count - 1 := by omega
      rw [List.getElem?_append_left (by omega), List.getElem?_take_of_lt inside.2]
      simp [fits, inside, before]
    · rw [List.getElem?_append_right (by omega), length, Nat.sub_self]
      simp [fits, pos]
    · obtain ⟨k, rfl⟩ := Nat.exists_eq_add_of_lt behind
      rw [List.getElem?_append_right (by omega), length, show fits + k + 1 - fits = k + 1 by omega,
        List.getElem?_cons_succ, getElem?_front (by omega), if_neg (by omega), if_neg (by omega), Nat.add_right_comm]

def stringDirective : Directive where
  flags := []
  width := none
  precision := none
  length := .int
  specifier := 's'.toUInt8

theorem stringDirective_proper : stringDirective.Proper where
  width n given := by cases given
  precision n given := by cases given
  specifier := by decide

def sendAll (depth : Nat) (text : List UInt8) (s : Console) : Option Console :=
  text.foldlM (fun s c => (s.putchar depth (Char.ofUInt8 c)).toOption) s

theorem sendAll_append (depth : Nat) (xs ys : List UInt8) (s : Console) :
    sendAll depth (xs ++ ys) s = (sendAll depth xs s).bind (sendAll depth ys) := by
  unfold sendAll
  rw [List.foldlM_append]
  rfl

theorem bytes_literals (text : List UInt8) : (text.map Piece.literal).flatMap Piece.bytes = text := by
  induction text with
  | nil => rfl
  | cons c text ih => exact congrArg (c :: ·) ih

theorem render_literals (floats : Floats) (text : List UInt8) (va : List Arg) :
    render floats (text.map Piece.literal) va = some text := by
  induction text with
  | nil => rfl
  | cons c text ih =>
    refine (Option.bind_some ..).trans ?_
    rw [ih]
    rfl

section

variable {floats : Floats} {depth : Nat} {bytes shown : List UInt8} {s : Console}

theorem render_string (floats : Floats) (read : cText bytes = some shown) (short : shown.length < 2 ^ 32)
    (tail : List UInt8) :
    render floats (.directive stringDirective :: tail.map Piece.literal) [.text 0 bytes] = some (shown ++ tail) := by
  have bare : stringDirective.spec [.text 0 bytes] =
      some ({ flags := {}, width := 0, precision := 0 }, [.text 0 bytes]) := rfl
  have text : stringText { flags := {}, width := 0, precision := 0 } bytes = some shown := by
    rw [stringText, read, Option.bind_some, if_pos short]
    simp
  have converted : conversion floats { flags := {}, width := 0, precision := 0 } 's'.toUInt8 [.text 0 bytes] =
      some (shown, []) := by
    have string : conversion floats { flags := {}, width := 0, precision := 0 } 's'.toUInt8 [.text 0 bytes] =
        (stringText { flags := {}, width := 0, precision := 0 } bytes).map (·, []) := rfl
    rw [string, text, Option.map_some]
  have first : Piece.render floats (.directive stringDirective) [.text 0 bytes] = some (shown, []) := by
    rw [Piece.render, bare, Option.bind_some]
    exact converted
  rw [render, first, Option.bind_some, render_literals, Option.map_some]

theorem printf_string (read : cText bytes = some shown) (short : shown.length < 2 ^ 32) (tail : List UInt8)
    (plain : ∀ c ∈ tail, c ≠ 0 ∧ c ≠ '%'.toUInt8) :
    printf floats ('%'.toUInt8 :: 's'.toUInt8 :: (tail ++ [0])) [.text 0 bytes] depth s =
      (sendAll depth (shown ++ tail) s).map (signed 32 (shown ++ tail).length, ·) := by
  have proper : ∀ piece ∈ .directive stringDirective :: tail.map Piece.literal, piece.Proper := by
    intro piece mem
    rcases List.mem_cons.mp mem with rfl | mem
    · exact stringDirective_proper
    · obtain ⟨c, hc, rfl⟩ := List.mem_map.mp mem
      exact plain c hc
  have format : (.directive stringDirective :: tail.map Piece.literal).flatMap Piece.bytes ++ [0] =
      '%'.toUInt8 :: 's'.toUInt8 :: (tail ++ [0]) := by
    rw [List.flatMap_cons, bytes_literals]
    rfl
  have nonzero : (shown ++ tail).filter (· ≠ 0) = shown ++ tail := by
    apply List.filter_eq_self.mpr
    intro c hc
    rcases List.mem_append.mp hc with mem | mem
    · exact decide_eq_true fun zero => (cText_eq read).1 (zero ▸ mem)
    · exact decide_eq_true (plain c mem).1
  have prints := format_prints proper (render_string floats read short tail) []
  simp only [format] at prints
  refine (fctprintf_sends prints _ s).trans ?_
  rw [nonzero]
  rfl

theorem cText_cString (text : String) (plain : 0 ∉ text.toList.map Char.toUInt8) :
    cText (cString text) = some (text.toList.map Char.toUInt8) := by
  rw [cString, cText_append]
  exact congrArg some (List.takeWhile_eq_self_iff.mpr fun c hc => decide_eq_true fun zero => plain (zero ▸ hc))

theorem printf_line (read : cText bytes = some shown) (short : shown.length < 2 ^ 32) :
    printf floats lineFormat [.text 0 bytes] depth s =
      (sendAll depth (shown ++ ['\n'.toUInt8]) s).map (signed 32 (shown ++ ['\n'.toUInt8]).length, ·) :=
  printf_string read short ['\n'.toUInt8] fun c hc => by
    rw [List.mem_singleton.mp hc]
    decide

end

theorem cText_stored (text : List UInt8) (cells : Nat → UInt8) :
    cText (front (stored panicBufSize text cells) panicBufSize) = some ((text.take 1023).takeWhile (· ≠ 0)) := by
  obtain ⟨rest, holds⟩ := front_stored (by decide : 0 < panicBufSize) text cells
  rw [holds]
  exact cText_append _ _

theorem message_short (text : List UInt8) : ((text.take 1023).takeWhile (· ≠ 0)).length < 2 ^ 32 := by
  have shorter := (List.takeWhile_prefix (· ≠ 0) (l := text.take 1023)).length_le
  rw [List.length_take] at shorter
  omega

theorem panicText_eq (message : List UInt8) : panicText message =
    (panicBanner.toList.map Char.toUInt8 ++ ['\n'.toUInt8]) ++ ((panicRule.toList.map Char.toUInt8 ++ ['\n'.toUInt8]) ++
      (("CAUSE: ".toList.map Char.toUInt8 ++ []) ++ ((message ++ ['\n'.toUInt8]) ++
        (panicRule.toList.map Char.toUInt8 ++ ['\n'.toUInt8])))) := by
  simp [panicText]

theorem panicHead_sends {floats : Floats} {fmt : List UInt8} {args : List Arg} {buf cells : Nat → UInt8} {n : Int}
    {message : List UInt8} (formatted : snprintf floats fmt args (some buf) panicBufSize = some (n, some cells))
    (read : cText (front cells panicBufSize) = some message) (short : message.length < 2 ^ 32) (depth : Nat)
    (s : Console) :
    panicHead floats depth fmt args buf s =
      (sendAll depth (panicText message)
        (if s.initDone = 1 then { s with kerrorMode := 1 } else s)).map (cells, ·) := by
  have banner := cText_cString panicBanner (by decide)
  have rule := cText_cString panicRule (by decide)
  have cause := cText_cString "CAUSE: " (by decide)
  have causeLine (s : Console) : printf floats (cString "%s") [.text 0 (cString "CAUSE: ")] depth s = _ :=
    printf_string cause (by decide) [] (by simp)
  unfold panicHead
  simp only [formatted, Option.bind_eq_bind, Option.bind_some]
  generalize (if s.initDone = 1 then { s with kerrorMode := 1 } else s) = s
  simp only [printf_line banner (by decide), printf_line rule (by decide), printf_line read short, causeLine,
    Option.bind_map, Function.comp_def]
  simp only [panicText_eq, sendAll_append, Option.bind_assoc, Option.map_eq_bind, Function.comp_def]
  rfl

/-- The console gets the message up to its first null byte, cut behind 1023 bytes. -/
theorem panic_message {floats : Floats} {fmt : List UInt8} {args : List Arg} {text : List UInt8}
    (prints : Prints (vsnprintfLoop floats fmt.length fmt args) text) (depth : Nat) (buf : Nat → UInt8) (s : Console) :
    panicHead floats depth fmt args buf s =
      (sendAll depth (panicText ((text.take 1023).takeWhile (· ≠ 0)))
        (if s.initDone = 1 then { s with kerrorMode := 1 } else s)).map (stored 1024 text buf, ·) := by
  have formatted := snprintf_stored prints (by decide : panicBufSize < 2 ^ 64) buf
  exact panicHead_sends formatted (cText_stored text buf) (message_short text) depth s

def bootConsole : Console where
  bootspace := 1
  kerrorMode := 0
  initDone := 0
  termContext := 0
  pml4Phys := 0
  cr3 := 0
  timestamp := 0
  ticks := 0
  log := ⟨fun _ => ' ', 0, []⟩
  out := []

theorem panic_message_number :
    panicHead ⟨fun _ _ _ _ => [], fun _ _ _ _ => []⟩ 1 (numberPieces.flatMap Piece.bytes ++ [0]) [.word 7] (fun _ => 0)
        bootConsole =
      (sendAll 1 (panicText ("n  7".toList.map Char.toUInt8)) bootConsole).map
        (stored 1024 ("n  7".toList.map Char.toUInt8) fun _ => 0, ·) := by
  exact panic_message (format_prints numberPieces_proper numberPieces_text []) 1 _ bootConsole

end Voyager.Printf
