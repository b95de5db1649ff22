import Voyager.Printf.Panic

/-! # From a format to the terminal -/

namespace Voyager

namespace Console

/-- What `term_write` was called with, and for which terminal. -/
def shown (s : Console) : List (Nat × Char) :=
  s.out.filterMap fun o => match o with
    | .terminal ctx c => some (ctx, c)
    | _ => none

/-- `_putchar` writes to the terminal. -/
structure ToTerminal (s : Console) : Prop where
  terminal : s.termContext ≠ 0
  route : s.kerrorMode = 1 ∨ s.kerrorMode = 0 ∧ s.bootspace = 0

variable {s : Console}

theorem ToTerminal.of_settings {t : Console} (h : s.ToTerminal) (same : t.settings = s.settings) : t.ToTerminal := by
  simp only [settings, Prod.mk.injEq] at same
  obtain ⟨bootspace, mode, -, terminal, -⟩ := same
  exact ⟨terminal ▸ h.terminal, by rw [mode, bootspace]; exact h.route⟩

theorem debug_shown (s : Console) (c : Char) : (s.debug c).shown = s.shown := by
  unfold debug send shown
  split <;> simp [List.filterMap_append, List.filterMap_map]

theorem ToTerminal.putchar (h : s.ToTerminal) (depth : Nat) (c : Char) :
    ∃ t, s.putchar (depth + 1) c = .ok t ∧ t.settings = s.settings ∧ t.shown = s.shown ++ [(s.termContext, c)] := by
  have sent : s.putchar (depth + 1) c = .ok ((s.send (.terminal s.termContext c)).debug c) := by
    unfold Console.putchar
    rcases h.route with mode | ⟨mode, space⟩
    · rw [if_pos mode]
    · simp [mode, space, h.terminal]
  refine ⟨_, sent, debug_settings _ _, ?_⟩
  rw [debug_shown]
  simp [shown, send]

end Console

namespace Printf

open Lib

theorem sendAll_shown {s : Console} (h : s.ToTerminal) (depth : Nat) (text : List UInt8) :
    ∃ t, sendAll (depth + 1) text s = some t ∧ t.settings = s.settings ∧
      t.shown = s.shown ++ text.map fun c => (s.termContext, Char.ofUInt8 c) := by
  induction text generalizing s with
  | nil => exact ⟨s, rfl, rfl, (List.append_nil _).symm⟩
  | cons c text ih =>
    obtain ⟨u, put, same, shown⟩ := h.putchar depth (Char.ofUInt8 c)
    obtain ⟨t, sent, same', shown'⟩ := ih (h.of_settings same)
    have context : u.termContext = s.termContext := by
      simp only [Console.settings, Prod.mk.injEq] at same
      exact same.2.2.2.1
    refine ⟨t, ?_, same'.trans same, ?_⟩
    · rw [sendAll, List.foldlM_cons, put]
      exact sent
    · rw [shown', shown, context, List.append_assoc]
      rfl

/-- What a format prints reaches the terminal once and in order. -/
theorem printf_shown {floats : Floats} {format : List UInt8} {va : List Arg} {text : List UInt8}
    (prints : Prints (vsnprintfLoop floats format.length format va) text) {s : Console} (routed : s.ToTerminal)
    (depth : Nat) :
    ∃ t, printf floats format va (depth + 1) s = some (signed 32 text.length, t) ∧ t.settings = s.settings ∧
      t.shown = s.shown ++ (text.filter (· ≠ 0)).map fun c => (s.termContext, Char.ofUInt8 c) := by
  obtain ⟨t, sent, same, shown⟩ := sendAll_shown routed depth (text.filter (· ≠ 0))
  refine ⟨t, ?_, same, shown⟩
  have sends : printf floats format va (depth + 1) s =
      (sendAll (depth + 1) (text.filter (· ≠ 0)) s).map (signed 32 text.length, ·) := fctprintf_sends prints _ s
  rw [sends, sent, Option.map_some]

def liveConsole : Console := { bootConsole with bootspace := 0, initDone := 1, termContext := 0x1000 }

theorem printf_shown_number :
    ∃ t, printf ⟨fun _ _ _ _ => [], fun _ _ _ _ => []⟩ (numberPieces.flatMap Piece.bytes ++ [0]) [.word 7] 1
        liveConsole = some (4, t) ∧ t.settings = liveConsole.settings ∧
      t.shown = [(0x1000, 'n'), (0x1000, ' '), (0x1000, ' '), (0x1000, '7')] := by
  exact printf_shown (format_prints numberPieces_proper numberPieces_text []) ⟨by decide, .inr ⟨rfl, rfl⟩⟩ 0

/-- After the boot a panic shows its message on the terminal, wherever output went before. -/
theorem panic_shown {floats : Floats} {fmt : List UInt8} {args : List Arg} {text : List UInt8}
    (prints : Prints (vsnprintfLoop floats fmt.length fmt args) text) {s : Console} (booted : s.initDone = 1)
    (terminal : s.termContext ≠ 0) (depth : Nat) (buf : Nat → UInt8) :
    ∃ t, panicHead floats (depth + 1) fmt args buf s = some (stored 1024 text buf, t) ∧
      t.shown = s.shown ++
        (panicText ((text.take 1023).takeWhile (· ≠ 0))).map fun c => (s.termContext, Char.ofUInt8 c) := by
  have formatted := snprintf_stored prints (by decide : panicBufSize < 2 ^ 64) buf
  have sends := panicHead_sends formatted (cText_stored text buf) (message_short text) (depth + 1) s
  rw [if_pos booted] at sends
  have routed : ({ s with kerrorMode := 1 } : Console).ToTerminal := ⟨terminal, .inl rfl⟩
  obtain ⟨t, sent, -, shown⟩ := sendAll_shown routed depth (panicText ((text.take 1023).takeWhile (· ≠ 0)))
  exact ⟨t, by rw [sends, sent]; rfl, shown⟩

theorem panic_shown_number :
    ∃ t, panicHead ⟨fun _ _ _ _ => [], fun _ _ _ _ => []⟩ 1 (numberPieces.flatMap Piece.bytes ++ [0]) [.word 7]
        (fun _ => 0) liveConsole = some (stored 1024 ("n  7".toList.map Char.toUInt8) fun _ => 0, t) ∧
      t.shown = liveConsole.shown ++
        (panicText ("n  7".toList.map Char.toUInt8)).map fun c => (liveConsole.termContext, Char.ofUInt8 c) := by
  have message : (("n  7".toList.map Char.toUInt8).take 1023).takeWhile (· ≠ 0) = "n  7".toList.map Char.toUInt8 := by
    decide
  have shown := panic_shown (format_prints numberPieces_proper numberPieces_text []) (show liveConsole.initDone = 1 from rfl)
    (by decide) 0 fun _ => 0
  rw [message] at shown
  exact shown

end Printf

end Voyager
