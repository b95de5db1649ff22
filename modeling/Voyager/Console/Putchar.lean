import Voyager.Lib.Cells
import Voyager.Machine

/-!
# Console output

`out` lists what was sent where. The argument of `putchar` counts how deep it may call itself
through `printf_`.
-/

namespace Voyager

/-- `logbuf` and `loglen`, with the indices of the stores. -/
structure LogBuffer where
  logbuf : Nat → Char
  loglen : Nat
  written : List Nat

namespace LogBuffer

def logbufSize : Nat := 256

def tscHz : Nat := 2000000000

def ticksToMs (ticks : Nat) : Nat := (ticks * 1000) % 2 ^ 64 / tscHz

def store (b : LogBuffer) (i : Nat) (c : Char) : LogBuffer :=
  { b with logbuf := Function.update b.logbuf i c, written := b.written ++ [i] }

def text (b : LogBuffer) : List Char := Lib.front b.logbuf b.loglen

def sendLine (b : LogBuffer) (digits : List Char) : List Char × LogBuffer :=
  let b := b.store b.loglen '\x00'
  (['['] ++ digits ++ "ms] ".toList ++ b.text ++ ['\n'], { b with loglen := 0 })

/-- `flush_serial_line` with the result of `get_ts`, and the bytes for `serial_debug`. -/
def flushSerialLine (b : LogBuffer) (ticks : Nat) : List Char × LogBuffer :=
  if b.loglen = 0 then ([], b) else b.sendLine (toString (ticksToMs ticks)).toList

def bufferOrFlush (b : LogBuffer) (ticks : Nat) (c : Char) : List Char × LogBuffer :=
  if c = '\n' ∨ b.loglen = logbufSize - 1 then b.flushSerialLine ticks
  else ([], { b.store b.loglen c with loglen := b.loglen + 1 })

end LogBuffer

inductive Output where
  | terminal (ctx : Nat) (c : Char) -- `term_write(ctx, &c, 1)`
  | bootloader (c : Char) -- The callback of the bootloader's terminal.
  | serial (c : Char)

structure Console where
  bootspace : Nat
  kerrorMode : Nat
  initDone : Nat
  termContext : Nat
  pml4Phys : Nat -- `paging_pml4_phys()`
  cr3 : Nat
  timestamp : Nat -- `k_mode.timestamp`
  ticks : Nat -- `get_ts()`
  log : LogBuffer
  out : List Output

namespace Console

def send (s : Console) (o : Output) : Console := { s with out := s.out ++ [o] }

/-- The serial half that every branch of `_putchar` ends in. -/
def debug (s : Console) (c : Char) : Console :=
  if s.timestamp = 0 then s.send (.serial c)
  else
    let (sent, log) := s.log.bufferOrFlush s.ticks c
    { s with log, out := s.out ++ sent.map .serial }

def voyagerPageTablesActive (s : Console) : Bool :=
  s.pml4Phys ≠ 0 && s.cr3 / 4096 = s.pml4Phys / 4096

def putchar : Nat → Console → Char → Kernel Console
  | 0, _, _ => .error .endless
  | depth + 1, s, c =>
    if s.kerrorMode = 1 then .ok ((s.send (.terminal s.termContext c)).debug c)
    else if s.kerrorMode = 2 then .ok (s.debug c)
    else if s.bootspace = 1 then .ok (s.debug c)
    else if s.bootspace = 2 then
      .ok ((if s.voyagerPageTablesActive then s else s.send (.bootloader c)).debug c)
    else if s.bootspace = 3 then .ok (if s.voyagerPageTablesActive then s.debug c else s.send (.bootloader c))
    else if s.termContext ≠ 0 then .ok ((s.send (.terminal s.termContext c)).debug c)
    else do
      -- `printf_` of the two complaints, one `_putchar` after another
      let s ← "ERROR: TERMINAL WRITE FAILURE!\n".toList.foldlM (fun s c => putchar depth s c) (s.debug c)
      "Defaulting to serial\n".toList.foldlM (fun s c => putchar depth s c) s

def settings (s : Console) : Nat × Nat × Nat × Nat × Nat × Nat :=
  (s.bootspace, s.kerrorMode, s.initDone, s.termContext, s.pml4Phys, s.cr3)

def Routed (s : Console) : Prop :=
  s.termContext ≠ 0 ∨ s.kerrorMode ≠ 1 ∧ (s.bootspace = 1 ∨ s.bootspace = 2 ∨ s.bootspace = 3)

def Clean (s : Console) : Prop := ∀ c, Output.terminal 0 c ∉ s.out

variable {s t : Console} {c : Char} {depth : Nat}

theorem debug_settings (s : Console) (c : Char) : (s.debug c).settings = s.settings := by
  unfold debug
  split <;> rfl

theorem debug_out {o : Output} (h : o ∈ s.out) : o ∈ (s.debug c).out := by
  unfold debug send
  split <;> simp [h]

theorem Clean.debug (h : s.Clean) : (s.debug c).Clean := by
  intro d
  unfold Console.debug Console.send
  split <;> simp [h d]

theorem Clean.send {o : Output} (h : s.Clean) (other : ∀ c, o ≠ .terminal 0 c) : (s.send o).Clean := by
  intro d
  simp [Console.send, h d, (other d).symm]

theorem Clean.sendTerminal (h : s.Clean) (some : s.termContext ≠ 0) : (s.send (.terminal s.termContext c)).Clean :=
  h.send fun _ same => some (Output.terminal.inj same).1

theorem Routed.putchar (r : s.Routed) (depth : Nat) (c : Char) :
    ∃ t, putchar (depth + 1) s c = .ok t ∧ t.settings = s.settings ∧ (s.Clean → t.Clean) := by
  unfold Console.putchar
  have debugged : (s.debug c).settings = s.settings ∧ (s.Clean → (s.debug c).Clean) := ⟨debug_settings s c, .debug⟩
  split_ifs with mode mode one two active three active some
  · have some : s.termContext ≠ 0 := r.resolve_right fun quiet => quiet.1 mode
    exact ⟨_, rfl, debug_settings _ _, fun h => (h.sendTerminal some).debug⟩
  · exact ⟨_, rfl, debugged⟩
  · exact ⟨_, rfl, debugged⟩
  · exact ⟨_, rfl, debugged⟩
  · exact ⟨_, rfl, debug_settings _ _, fun h => (h.send (by simp)).debug⟩
  · exact ⟨_, rfl, debugged⟩
  · exact ⟨_, rfl, rfl, fun h => h.send (by simp)⟩
  · exact ⟨_, rfl, debug_settings _ _, fun h => (h.sendTerminal some).debug⟩
  · exact absurd r (by simp_all [Routed])

/-- Without a terminal and without a boot console every complaint complains again. -/
theorem putchar_endless (quiet : s.kerrorMode = 0) (done : s.bootspace = 0) (none : s.termContext = 0)
    (depth : Nat) :
    putchar depth s c = .error .endless := by
  induction depth generalizing s c with
  | zero => rfl
  | succ depth ih =>
    have kept := debug_settings s c
    simp only [settings, Prod.mk.injEq] at kept
    obtain ⟨bootspace, mode, _, terminal, _⟩ := kept
    unfold putchar
    rw [if_neg (by omega), if_neg (by omega), if_neg (by omega), if_neg (by omega), if_neg (by omega),
      if_neg (by omega)]
    have again : putchar depth (s.debug c) 'E' = .error .endless := ih (by omega) (by omega) (by omega)
    obtain ⟨rest, text⟩ : ∃ rest, "ERROR: TERMINAL WRITE FAILURE!\n".toList = 'E' :: rest := ⟨_, rfl⟩
    rw [text, List.foldlM_cons, again]
    rfl

end Console

end Voyager
