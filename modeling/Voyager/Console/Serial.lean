import Voyager.Console.Putchar
import Voyager.Lib.Outcome

/-!
# The serial log

The buffer stands for the text already sent, without the stamps, and the text still in the
array; a character that finds the array full triggers a flush and is lost.
-/

namespace Voyager

namespace LogBuffer

def stamp (ticks : Nat) : List Char := ['['] ++ (toString (ticksToMs ticks)).toList ++ "ms] ".toList

/-- The characters `cs`, each with the time at which it is printed, and the bytes sent. -/
def logAll (b : LogBuffer) : List (Char × Nat) → List Char × LogBuffer
  | [] => ([], b)
  | (c, ticks) :: cs =>
    let (sent, b) := b.bufferOrFlush ticks c
    let (rest, b) := logAll b cs
    (sent ++ rest, b)

/-! ### Without the stamps -/

/-- The bytes of the port without the prefix of each line, which ends with the line's first space,
and without the newlines. The flag says whether a prefix is being read. -/
def unstamp : Bool → List Char → List Char
  | _, [] => []
  | true, c :: cs => if c = ' ' then unstamp false cs else unstamp true cs
  | false, c :: cs => if c = '\n' then unstamp true cs else c :: unstamp false cs

variable {b : LogBuffer} {c : Char} {cs xs ys : List Char}

theorem unstamp_skip (plain : ∀ c ∈ xs, c ≠ ' ') : unstamp true (xs ++ ' ' :: ys) = unstamp false ys := by
  induction xs with
  | nil => rw [List.nil_append, unstamp, if_pos rfl]
  | cons x xs ih =>
    rw [List.cons_append, unstamp, if_neg (plain x List.mem_cons_self)]
    exact ih fun c hc => plain c (List.mem_cons_of_mem x hc)

theorem unstamp_line (plain : ∀ c ∈ xs, c ≠ '\n') : unstamp false (xs ++ '\n' :: ys) = xs ++ unstamp true ys := by
  induction xs with
  | nil => rw [List.nil_append, unstamp, if_pos rfl, List.nil_append]
  | cons x xs ih =>
    rw [List.cons_append, unstamp, if_neg (plain x List.mem_cons_self), List.cons_append,
      ih fun c hc => plain c (List.mem_cons_of_mem x hc)]

theorem digits_plain (n : Nat) : ∀ c ∈ (toString n).toList, c ≠ ' ' := by
  rintro c hc rfl
  rw [Nat.toString_eq_repr, Nat.repr, String.toList_ofList] at hc
  exact absurd (Nat.isDigit_of_mem_toDigits (by decide) (by decide) hc) (by decide)

theorem unstamp_flushed (plain : ∀ c ∈ xs, c ≠ '\n') (ticks : Nat) (ys : List Char) :
    unstamp true (stamp ticks ++ xs ++ ['\n'] ++ ys) = xs ++ unstamp true ys := by
  have shape : stamp ticks ++ xs ++ ['\n'] ++ ys =
      ('[' :: ((toString (ticksToMs ticks)).toList ++ "ms]".toList)) ++ ' ' :: (xs ++ '\n' :: ys) := by
    simp [stamp]
  rw [shape, unstamp_skip, unstamp_line plain]
  intro c hc
  rcases List.mem_cons.mp hc with rfl | hc
  · decide
  · rcases List.mem_append.mp hc with hc | hc
    · exact digits_plain _ c hc
    · simp only [String.reduceToList, List.mem_cons, List.not_mem_nil, or_false] at hc
      rcases hc with rfl | rfl | rfl <;> decide

def Closed (xs : List Char) : Prop := ∀ ys, unstamp true (xs ++ ys) = unstamp true xs ++ unstamp true ys

theorem Closed.flush (closed : Closed xs) (plain : ∀ c ∈ ys, c ≠ '\n') (ticks : Nat) :
    Closed (xs ++ (stamp ticks ++ ys ++ ['\n'])) ∧
      unstamp true (xs ++ (stamp ticks ++ ys ++ ['\n'])) = unstamp true xs ++ ys := by
  have whole := unstamp_flushed plain ticks []
  rw [List.append_nil, unstamp, List.append_nil] at whole
  refine ⟨fun zs => ?_, ?_⟩
  · rw [List.append_assoc, closed, unstamp_flushed plain, closed, whole, List.append_assoc]
  · rw [closed, whole]

/-! ### What a buffer stands for -/

/-- The bytes `sent` and the buffer stand for the text `kept`. Since `old` was written, every store was inside. -/
structure Stands (old : List Nat) (sent : List Char) (b : LogBuffer) (kept : List Char) : Prop where
  fits : b.loglen ≤ 255
  plain : ∀ c ∈ b.text, c ≠ '\n'
  closed : Closed sent
  shows : unstamp true sent ++ b.text = kept
  written : ∀ i ∈ b.written, i ∈ old ∨ i < 256

def keptFrom : Nat → List Char → List Char
  | _, [] => []
  | n, c :: cs =>
    if c = '\n' then keptFrom 0 cs else if n = 255 then keptFrom 0 cs else c :: keptFrom (n + 1) cs

variable {old : List Nat} {sent kept : List Char}

theorem text_length (b : LogBuffer) : b.text.length = b.loglen := Lib.front_length _ _

theorem text_of_zero (zero : b.loglen = 0) : b.text = [] := by
  rw [← List.length_eq_zero_iff, text_length, zero]

theorem text_store (b : LogBuffer) (c : Char) : (b.store b.loglen c).text = b.text := Lib.front_update _ _ _

theorem text_push (b : LogBuffer) (c : Char) :
    ({ b.store b.loglen c with loglen := b.loglen + 1 } : LogBuffer).text = b.text ++ [c] := Lib.front_push _ _ _

theorem Stands.stored (h : Stands old sent b kept) (c : Char) :
    ∀ i ∈ (b.store b.loglen c).written, i ∈ old ∨ i < 256 := by
  intro i hi
  rcases List.mem_append.mp hi with earlier | new
  · exact h.written i earlier
  · rw [List.mem_singleton.mp new]
    exact .inr (Nat.lt_succ_of_le h.fits)

theorem Stands.flush (h : Stands old sent b kept) (ticks : Nat) :
    Stands old (sent ++ (b.flushSerialLine ticks).1) (b.flushSerialLine ticks).2 kept ∧
      (b.flushSerialLine ticks).2.loglen = 0 := by
  unfold flushSerialLine
  split
  · rw [List.append_nil]
    exact ⟨h, ‹_›⟩
  · obtain ⟨closed, shows⟩ := h.closed.flush h.plain ticks
    unfold sendLine
    dsimp only
    rw [text_store]
    refine ⟨⟨Nat.zero_le _, by simp [text], closed, ?_, h.stored '\x00'⟩, rfl⟩
    change unstamp true (sent ++ (stamp ticks ++ b.text ++ ['\n'])) ++ [] = kept
    rw [shows, h.shows, List.append_nil]

theorem Stands.push (h : Stands old sent b kept) (room : b.loglen < 255) (visible : c ≠ '\n') :
    Stands old sent { b.store b.loglen c with loglen := b.loglen + 1 } (kept ++ [c]) := by
  refine ⟨room, ?_, h.closed, ?_, h.stored c⟩
  · rw [text_push]
    intro d hd
    rcases List.mem_append.mp hd with earlier | new
    · exact h.plain d earlier
    · rwa [List.mem_singleton.mp new]
  · rw [text_push, ← List.append_assoc]
    exact congrArg (· ++ [c]) h.shows

theorem Stands.logAll (h : Stands old sent b kept) (cs : List (Char × Nat)) :
    Stands old (sent ++ (b.logAll cs).1) (b.logAll cs).2 (kept ++ keptFrom b.loglen (cs.map Prod.fst)) := by
  induction cs generalizing sent b kept with
  | nil =>
    rw [List.map_nil, keptFrom, List.append_nil]
    exact (List.append_nil sent).symm ▸ h
  | cons entry cs ih =>
    obtain ⟨c, ticks⟩ := entry
    rw [List.map_cons, keptFrom, LogBuffer.logAll]
    dsimp only
    rw [← List.append_assoc]
    unfold bufferOrFlush
    split
    · rename_i flushes
      obtain ⟨flushed, zero⟩ := h.flush ticks
      have rest := ih flushed
      rw [zero] at rest
      rcases flushes with newline | full
      · rwa [if_pos newline]
      · split
        · exact rest
        · rwa [if_pos (show b.loglen = 255 from full)]
    · rename_i stores
      push Not at stores
      have full : b.loglen ≠ 255 := stores.2
      have fits := h.fits
      rw [if_neg stores.1, if_neg full, List.append_nil]
      have rest := ih (h.push (by omega) stores.1)
      rwa [List.append_assoc] at rest

/-! ### What is kept -/

theorem keptFrom_sublist (n : Nat) (cs : List Char) : (keptFrom n cs).Sublist (cs.filter (· ≠ '\n')) := by
  induction cs generalizing n with
  | nil => exact List.Sublist.refl []
  | cons c cs ih =>
    unfold keptFrom
    split_ifs with newline full
    · rw [List.filter_cons_of_neg (by simpa using newline)]
      exact ih 0
    · rw [List.filter_cons_of_pos (by simpa using newline)]
      exact (ih 0).cons c
    · rw [List.filter_cons_of_pos (by simpa using newline)]
      exact (ih (n + 1)).cons_cons c

def FitFrom (n : Nat) (cs : List Char) : Prop :=
  ∃ line lines, cs.splitOn '\n' = line :: lines ∧ n + line.length ≤ 255 ∧ ∀ l ∈ lines, l.length ≤ 255

theorem fitFrom_iff {n : Nat} {line : List Char} {lines : List (List Char)} (split : cs.splitOn '\n' = line :: lines) :
    FitFrom n cs ↔ n + line.length ≤ 255 ∧ ∀ l ∈ lines, l.length ≤ 255 := by
  unfold FitFrom
  rw [split]
  constructor
  · rintro ⟨_, _, same, fits⟩
    cases same
    exact fits
  · exact fun fits => ⟨line, lines, rfl, fits⟩

theorem exists_splitOn (cs : List Char) : ∃ line lines, cs.splitOn '\n' = line :: lines :=
  List.exists_cons_of_ne_nil (List.splitOnP_ne_nil _ cs)

theorem fitFrom_newline {n : Nat} (fits : n ≤ 255) (cs : List Char) : FitFrom n ('\n' :: cs) ↔ FitFrom 0 cs := by
  obtain ⟨line, lines, split⟩ := exists_splitOn cs
  have next : ('\n' :: cs).splitOn '\n' = [] :: line :: lines := by
    rw [← split]
    unfold List.splitOn
    rw [List.splitOnP_cons_eq_if_modifyHead, if_pos (by decide)]
  rw [fitFrom_iff next, fitFrom_iff split, List.forall_mem_cons, List.length_nil, Nat.add_zero, Nat.zero_add]
  exact and_iff_right fits

theorem fitFrom_visible {n : Nat} (visible : c ≠ '\n') : FitFrom n (c :: cs) ↔ FitFrom (n + 1) cs := by
  obtain ⟨line, lines, split⟩ := exists_splitOn cs
  have next : (c :: cs).splitOn '\n' = (c :: line) :: lines := by
    unfold List.splitOn at split ⊢
    rw [List.splitOnP_cons_eq_if_modifyHead, if_neg (by simpa using visible), split, List.modifyHead_cons]
  rw [fitFrom_iff next, fitFrom_iff split, List.length_cons, Nat.add_right_comm, Nat.add_assoc]

theorem keptFrom_eq_iff {n : Nat} (fits : n ≤ 255) (cs : List Char) :
    keptFrom n cs = cs.filter (· ≠ '\n') ↔ FitFrom n cs := by
  induction cs generalizing n with
  | nil =>
    refine ⟨fun _ => ⟨[], [], rfl, fits, by simp⟩, fun _ => rfl⟩
  | cons c cs ih =>
    unfold keptFrom
    split_ifs with newline full
    · subst newline
      rw [List.filter_cons_of_neg (by decide), fitFrom_newline fits, ih (Nat.zero_le _)]
    · rw [List.filter_cons_of_pos (by simpa using newline), fitFrom_visible newline]
      constructor
      · intro same
        have shorter := (keptFrom_sublist 0 cs).length_le
        rw [same, List.length_cons] at shorter
        omega
      · rintro ⟨line, lines, _, short, _⟩
        omega
    · rw [List.filter_cons_of_pos (by simpa using newline), fitFrom_visible newline, List.cons_inj_right,
        ih (by omega)]

theorem fitFrom_zero_iff (cs : List Char) : FitFrom 0 cs ↔ ∀ line ∈ cs.splitOn '\n', line.length ≤ 255 := by
  obtain ⟨line, lines, split⟩ := exists_splitOn cs
  rw [fitFrom_iff split, split, List.forall_mem_cons, Nat.zero_add]

theorem Stands.start (none : b.loglen = 0) : Stands b.written [] b [] := by
  have text := text_of_zero none
  exact ⟨by omega, by simp [text], fun _ => rfl, by simp [text, unstamp], fun i hi => .inl hi⟩

theorem logAll_append (b : LogBuffer) (cs ds : List (Char × Nat)) :
    (b.logAll (cs ++ ds)).2 = ((b.logAll cs).2.logAll ds).2 := by
  induction cs generalizing b with
  | nil => rfl
  | cons entry cs ih => exact ih _

theorem logAll_newline {cs : List (Char × Nat)} (stands : Stands old sent b kept)
    (ends : (cs.map Prod.fst).getLast? = some '\n') : (b.logAll cs).2.loglen = 0 := by
  obtain ⟨before, shape⟩ := List.getLast?_eq_some_iff.mp ends
  obtain ⟨cs, last, rfl, rfl, single⟩ := List.map_eq_append_iff.mp shape
  obtain ⟨⟨c, ticks⟩, rfl, newline⟩ := List.map_eq_singleton_iff.mp single
  rw [logAll_append]
  change ((b.logAll cs).2.bufferOrFlush ticks c).2.loglen = 0
  unfold bufferOrFlush
  rw [if_pos (.inl newline)]
  exact ((stands.logAll cs).flush ticks).2

end LogBuffer

/-! ### On the console -/

namespace Console

open LogBuffer (unstamp)

/-- The serial-only route, with timestamps. -/
structure SerialOnly (s : Console) : Prop where
  kerrorMode : s.kerrorMode = 0
  bootspace : s.bootspace = 1
  timestamp : s.timestamp ≠ 0

def putcharAll (s : Console) : List (Char × Nat) → Kernel Console
  | [] => .ok s
  | (c, ticks) :: cs => do putcharAll (← putchar 1 { s with ticks := ticks } c) cs

variable {s : Console}

theorem SerialOnly.putchar (route : s.SerialOnly) (c : Char) (ticks : Nat) :
    ∃ t, putchar 1 { s with ticks := ticks } c = .ok t ∧ t.SerialOnly ∧ t.log = (s.log.bufferOrFlush ticks c).2 ∧
      t.out = s.out ++ (s.log.bufferOrFlush ticks c).1.map .serial := by
  unfold Console.putchar debug
  dsimp only
  rw [if_neg (by rw [route.kerrorMode]; decide), if_neg (by rw [route.kerrorMode]; decide), if_pos route.bootspace,
    if_neg route.timestamp]
  exact ⟨_, rfl, ⟨route.kerrorMode, route.bootspace, route.timestamp⟩, rfl, rfl⟩

theorem putcharAll_logs (route : s.SerialOnly) (cs : List (Char × Nat)) :
    ∃ t, s.putcharAll cs = .ok t ∧ t.log = (s.log.logAll cs).2 ∧ t.out = s.out ++ (s.log.logAll cs).1.map .serial := by
  induction cs generalizing s with
  | nil => exact ⟨s, rfl, rfl, (List.append_nil _).symm⟩
  | cons entry cs ih =>
    obtain ⟨c, ticks⟩ := entry
    obtain ⟨u, first, route', log, out⟩ := route.putchar c ticks
    obtain ⟨t, run, log', out'⟩ := ih route'
    refine ⟨t, ?_, ?_, ?_⟩
    · rw [putcharAll, Lib.bind_eq first]
      exact run
    · rw [log', log]
      rfl
    · rw [out', out, log, LogBuffer.logAll, List.map_append, List.append_assoc]

/-- What the port gets of a text that ends with a newline is the text, without its newlines, exactly if
no line of it is longer than 255 characters. The array is never written behind its end. -/
theorem serial_lossless_iff {cs : List (Char × Nat)} (route : s.SerialOnly) (none : s.log.loglen = 0)
    (ends : (cs.map Prod.fst).getLast? = some '\n') :
    ∃ t sent, s.putcharAll cs = .ok t ∧ t.log.loglen = 0 ∧ t.out = s.out ++ sent.map .serial ∧
      (unstamp true sent = (cs.map Prod.fst).filter (· ≠ '\n') ↔
        ∀ line ∈ (cs.map Prod.fst).splitOn '\n', line.length ≤ 255) ∧
      ∀ i ∈ t.log.written, i ∈ s.log.written ∨ i < 256 := by
  obtain ⟨t, run, log, out⟩ := putcharAll_logs route cs
  have start := LogBuffer.Stands.start none
  have stands := start.logAll cs
  have rest := LogBuffer.logAll_newline start ends
  have whole := stands.shows
  rw [LogBuffer.text_of_zero rest, List.append_nil, List.nil_append, List.nil_append, none] at whole
  refine ⟨t, _, run, log ▸ rest, out, ?_, log ▸ stands.written⟩
  rw [whole, ← LogBuffer.fitFrom_zero_iff, ← LogBuffer.keptFrom_eq_iff (Nat.zero_le _)]

def serialConsole : Console := ⟨1, 0, 0, 0, 0, 0, 1, 0, ⟨fun _ => ' ', 0, []⟩, []⟩

theorem serialConsole_route : serialConsole.SerialOnly := ⟨rfl, rfl, by decide⟩

theorem serial_lossless_hello : ∃ t sent, serialConsole.putcharAll [('h', 7), ('i', 8), ('\n', 9)] = .ok t ∧
    t.out = sent.map .serial ∧ unstamp true sent = ['h', 'i'] := by
  have ends : ([('h', 7), ('i', 8), ('\n', 9)].map Prod.fst : List Char).getLast? = some '\n' := rfl
  obtain ⟨t, sent, run, _, out, iff, _⟩ := serial_lossless_iff serialConsole_route rfl ends
  exact ⟨t, sent, run, out, iff.mpr (by decide)⟩

def longLine : List (Char × Nat) := List.replicate 256 ('a', 0) ++ [('\n', 0)]

theorem serial_drops_last : ∃ t sent, serialConsole.putcharAll longLine = .ok t ∧ t.out = sent.map .serial ∧
    unstamp true sent = List.replicate 255 'a' ∧
      unstamp true sent ≠ (longLine.map Prod.fst).filter (· ≠ '\n') := by
  obtain ⟨t, run, _, out⟩ := putcharAll_logs serialConsole_route longLine
  rw [show serialConsole.out = [] from rfl, List.nil_append] at out
  have start := LogBuffer.Stands.start (b := serialConsole.log) rfl
  have ends : (longLine.map Prod.fst).getLast? = some '\n' := by decide +kernel
  have rest := LogBuffer.logAll_newline start ends
  have kept : LogBuffer.keptFrom serialConsole.log.loglen (longLine.map Prod.fst) = List.replicate 255 'a' := by
    decide +kernel
  have whole := (start.logAll longLine).shows
  rw [LogBuffer.text_of_zero rest, List.append_nil, List.nil_append, List.nil_append, kept] at whole
  have lost : List.replicate 255 'a' ≠ (longLine.map Prod.fst).filter (· ≠ '\n') := by decide +kernel
  exact ⟨t, _, run, out, whole, whole ▸ lost⟩

end Console

end Voyager
