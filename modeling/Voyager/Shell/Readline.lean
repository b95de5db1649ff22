import Voyager.Lib.Cells
import Voyager.Machine

/-!
# Reading a command line

`vsh_readline` over the results of `kbd_pop`. Every store notes the size last asked for. What
the editing is for is `edited`, a fold over the characters typed.
-/

namespace Voyager.Shell

open Lib

def vshCmdBufferSize : Nat := 100

abbrev Cells := Nat → UInt8

/-- The variables of `vsh_readline`, with the stores made and the text echoed. -/
structure Readline where
  buffer : Cells
  bufsize : Nat
  pos : Nat
  stores : List (Nat × Nat) -- The index of each store and `bufsize` at the time.
  echoed : List UInt8

/-- The allocations: the cells of a block of the size asked for, or nothing if there is none. A block
that grows has had the size `old`. -/
structure Allocator where
  kmalloc : Nat → Option Cells
  krealloc (buffer : Cells) (old new : Nat) : Option Cells

namespace Readline

def store (s : Readline) (c : UInt8) : Readline :=
  { s with buffer := Function.update s.buffer s.pos c, stores := s.stores ++ [(s.pos, s.bufsize)] }

def echo (s : Readline) (text : List UInt8) : Readline := { s with echoed := s.echoed ++ text }

def terminator (c : UInt8) : Bool := c = 10 ∨ c = 13

def backspace : UInt8 := 8

def erase (s : Readline) : Readline :=
  if s.pos > 0 then { s with pos := s.pos - 1 }.echo [8, 32, 8] else s

def ensureRoom (A : Allocator) (s : Readline) : Option Readline :=
  if s.pos + 1 ≥ s.bufsize then
    let newsize := s.bufsize + vshCmdBufferSize
    match A.krealloc s.buffer s.bufsize newsize with
    | none => none
    | some grown => some { s with buffer := grown, bufsize := newsize }
  else some s

def append (s : Readline) (c : UInt8) : Readline :=
  let s := s.store c
  { s with pos := s.pos + 1 }.echo [c]

end Readline

open Readline

def allocationError : List UInt8 := ("vsh: Command Buffer Allocation Error!\n".toList.map Char.toUInt8)

/-- What `vsh_readline` leaves behind: the buffer it returns, if any, and the results of `kbd_pop` that
it did not ask for. -/
structure Result where
  state : Readline
  returned : Option Cells
  rest : List UInt8

/-- The loop. Without a further result of `kbd_pop` it never ends. -/
def readlineLoop (A : Allocator) (s : Readline) : List UInt8 → Kernel Result
  | [] => .error .endless
  | c :: pops =>
    -- `schedule()`
    if c = 0 then readlineLoop A s pops
    else if terminator c then
      let s := (s.store 0).echo [10]
      .ok ⟨s, some s.buffer, pops⟩
    else if c = backspace then readlineLoop A s.erase pops
    else
      match s.ensureRoom A with
      | none => .ok ⟨s.echo allocationError, none, pops⟩
      | some s => readlineLoop A (s.append c) pops

def vshReadline (A : Allocator) (pops : List UInt8) : Kernel Result :=
  match A.kmalloc vshCmdBufferSize with
  | none => .ok ⟨⟨fun _ => 0, vshCmdBufferSize, 0, [], allocationError⟩, none, pops⟩
  | some buffer => readlineLoop A ⟨buffer, vshCmdBufferSize, 0, [], []⟩ pops

def edit (line : List UInt8) (c : UInt8) : List UInt8 :=
  if c = 0 then line else if c = backspace then line.dropLast else line ++ [c]

def edited (typed : List UInt8) : List UInt8 := typed.foldl edit []

def IsString (buffer : Cells) (text : List UInt8) : Prop :=
  (∀ i < text.length, text[i]? = some (buffer i) ∧ buffer i ≠ 0) ∧ buffer text.length = 0

/-- The allocations succeed, and a block that grows keeps its cells. -/
structure Succeeds (A : Allocator) : Prop where
  kmalloc : ∀ n, ∃ buffer, A.kmalloc n = some buffer
  krealloc : ∀ buffer old new, ∃ grown, A.krealloc buffer old new = some grown ∧ ∀ i < old, grown i = buffer i

/-- The cells below `pos` are the line, and there is always a cell left for the terminator. -/
structure Edits (s : Readline) (line : List UInt8) : Prop where
  cells : front s.buffer s.pos = line
  visible : ∀ c ∈ line, c ≠ 0
  margin : s.pos < s.bufsize
  stores : ∀ w ∈ s.stores, w.1 < w.2

variable {A : Allocator} {s : Readline} {line pops : List UInt8} {c : UInt8}

theorem Edits.store (h : Edits s line) (c : UInt8) : ∀ w ∈ (s.store c).stores, w.1 < w.2 := by
  intro w hw
  rcases List.mem_append.mp hw with old | new
  · exact h.stores w old
  · rw [List.mem_singleton.mp new]
    exact h.margin

theorem Edits.erase (h : Edits s line) : Edits s.erase line.dropLast := by
  have cells : front s.buffer (s.pos - 1) = line.dropLast := by rw [front_pred, h.cells]
  have visible : ∀ c ∈ line.dropLast, c ≠ 0 := fun c hc => h.visible c ((List.dropLast_sublist line).mem hc)
  have margin := h.margin
  unfold Readline.erase
  split
  · exact ⟨cells, visible, by dsimp only [echo]; omega, h.stores⟩
  · rename_i none
    rw [show s.pos - 1 = s.pos by omega] at cells
    exact ⟨cells, visible, margin, h.stores⟩

theorem Edits.ensureRoom (h : Edits s line) (succeeds : Succeeds A) :
    ∃ s', s.ensureRoom A = some s' ∧ Edits s' line ∧ s'.pos + 1 < s'.bufsize := by
  have margin := h.margin
  unfold Readline.ensureRoom
  split
  · obtain ⟨grown, result, kept⟩ := succeeds.krealloc s.buffer s.bufsize (s.bufsize + vshCmdBufferSize)
    dsimp only
    rw [result]
    refine ⟨_, rfl, ⟨?_, h.visible, ?_, h.stores⟩, ?_⟩
    · rw [← h.cells]
      exact front_congr fun i lt => kept i (Nat.lt_trans lt margin)
    · dsimp only
      omega
    · dsimp only [vshCmdBufferSize]
      omega
  · exact ⟨s, rfl, h, by omega⟩

theorem Edits.append (h : Edits s line) (room : s.pos + 1 < s.bufsize) (visible : c ≠ 0) :
    Edits (s.append c) (line ++ [c]) := by
  refine ⟨?_, ?_, room, h.store c⟩
  · rw [← h.cells]
    exact front_push s.buffer s.pos c
  · intro d hd
    rcases List.mem_append.mp hd with old | new
    · exact h.visible d old
    · rwa [List.mem_singleton.mp new]

theorem Edits.isString (h : Edits s line) : IsString (s.store 0).buffer line := by
  have pos : s.pos = line.length := by rw [← h.cells, front_length]
  have cells : front (s.store 0).buffer line.length = line := by
    rw [← pos]
    exact (front_update _ _ _).trans h.cells
  refine ⟨fun i lt => ?_, ?_⟩
  · have entry : (front (s.store 0).buffer line.length)[i]? = some ((s.store 0).buffer i) := getElem?_front lt
    rw [cells] at entry
    exact ⟨entry, h.visible _ (List.mem_of_getElem? entry)⟩
  · rw [← pos]
    exact Function.update_self ..

theorem readlineLoop_edits (succeeds : Succeeds A) (h : Edits s line) (ends : ∃ c ∈ pops, terminator c = true) :
    ∃ r, readlineLoop A s pops = .ok r ∧ r.returned = some r.state.buffer ∧
      r.rest = (pops.dropWhile (!terminator ·)).tail ∧
      IsString r.state.buffer ((pops.takeWhile (!terminator ·)).foldl edit line) ∧
      ∀ w ∈ r.state.stores, w.1 < w.2 := by
  induction pops generalizing s line with
  | nil =>
    obtain ⟨c, hc, _⟩ := ends
    exact absurd hc List.not_mem_nil
  | cons c pops ih =>
    unfold readlineLoop
    by_cases last : terminator c = true
    · have nonzero : c ≠ 0 := by
        rintro rfl
        cases last
      rw [if_neg nonzero, if_pos last, List.takeWhile_cons_of_neg (by simpa using last),
        List.dropWhile_cons_of_neg (by simpa using last)]
      exact ⟨_, rfl, rfl, rfl, h.isString, h.store 0⟩
    · have later : ∃ c ∈ pops, terminator c = true := by
        obtain ⟨d, hd, final⟩ := ends
        rcases List.mem_cons.mp hd with rfl | hd
        · exact absurd final last
        · exact ⟨d, hd, final⟩
      rw [List.takeWhile_cons_of_pos (by simpa using last), List.dropWhile_cons_of_pos (by simpa using last),
        List.foldl_cons]
      unfold edit
      split_ifs with zero back
      · exact ih h later
      · exact ih h.erase later
      · obtain ⟨s', room, edits, margin⟩ := h.ensureRoom succeeds
        rw [room]
        exact ih (edits.append margin zero) later

/-- Whatever is typed, `vsh_readline` takes the characters up to the first end of a line, returns the
line they edit, and stores only below the size it has asked for. -/
theorem vshReadline_edits (succeeds : Succeeds A) (ends : ∃ c ∈ pops, terminator c = true) :
    ∃ r buffer, vshReadline A pops = .ok r ∧ r.returned = some buffer ∧
      r.rest = (pops.dropWhile (!terminator ·)).tail ∧ IsString buffer (edited (pops.takeWhile (!terminator ·))) ∧
      ∀ w ∈ r.state.stores, w.1 < w.2 := by
  obtain ⟨buffer, allocated⟩ := succeeds.kmalloc vshCmdBufferSize
  have start : Edits ⟨buffer, vshCmdBufferSize, 0, [], []⟩ [] := ⟨rfl, by simp, Nat.zero_lt_succ 99, by simp⟩
  obtain ⟨r, run, returned, rest, line, stores⟩ := readlineLoop_edits succeeds start ends
  refine ⟨r, _, ?_, returned, rest, line, stores⟩
  unfold vshReadline
  rw [allocated]
  exact run

def roomy : Allocator := ⟨fun _ => some fun _ => 120, fun buffer _ _ => some buffer⟩

theorem roomy_succeeds : Succeeds roomy := ⟨fun _ => ⟨_, rfl⟩, fun _ _ _ => ⟨_, rfl, fun _ _ => rfl⟩⟩

/-- `l`, a slip, a backspace and `s`, with pauses. -/
def typed : List UInt8 := [108, 0, 120, 8, 0, 115, 10, 33]

theorem vshReadline_edits_typed : ∃ r buffer, vshReadline roomy typed = .ok r ∧ r.returned = some buffer ∧
    r.rest = [33] ∧ IsString buffer [108, 115] := by
  obtain ⟨r, buffer, run, returned, rest, line, _⟩ := vshReadline_edits roomy_succeeds
    (show ∃ c ∈ typed, terminator c = true from ⟨10, by decide, by decide⟩)
  have kept : edited (typed.takeWhile (!terminator ·)) = [108, 115] := by decide
  exact ⟨r, buffer, run, returned, rest.trans (by decide), kept ▸ line⟩

end Voyager.Shell
