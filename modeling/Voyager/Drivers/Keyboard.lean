import Voyager.Lib.Outcome
import Voyager.Lib.Ring

/-!
# The keyboard queue

`kbd_push` runs in the keyboard interrupt, which can come between any two memory accesses of
`kbd_pop`. So the consumer is cut into its accesses, and the producer is one step.
-/

namespace Voyager.Drivers

open Lib

def kbdStackSize : Nat := 255

/-- The queue of keyboard.c, and what its functions write besides. -/
structure Keyboard extends Lib.Ring UInt8 where
  kChar : UInt8
  kerrorMode : Nat
  printed : List String

namespace Keyboard

def full (k : Keyboard) : Prop := (k.head + 1) % kbdStackSize = k.tail

instance (k : Keyboard) : Decidable k.full := inferInstanceAs (Decidable (_ = _))

def kbdPush (k : Keyboard) (data : UInt8) : Keyboard :=
  if k.full then { k with kerrorMode := 0, printed := k.printed ++ ["ERROR: Keyboard buffer overflow!\n"] }
  else { k with toRing := k.toRing.put kbdStackSize data }

def kbdPop (k : Keyboard) : UInt8 × Keyboard :=
  if k.tail = k.head then (0, k)
  else (k.cells k.tail, { k with toRing := k.toRing.advance kbdStackSize })

def keyboardMap : String :=
  "  12345678" ++ "90-=  qwer" ++ "tyuiop[]  " ++ "asdfghjkl;" ++ " `  zxcvbn" ++ "m,./ *    " ++ "          " ++
  " 789-456 1" ++ "230.      " ++ "          " ++ "          " ++ "          " ++ "        "

def mapped (keycode : UInt8) : UInt8 := (keyboardMap.toList.map Char.toUInt8).getD keycode.toNat 0

/-- `keyboard_handler` with the bytes it reads from the status and the data port. -/
def keyboardHandler (k : Keyboard) (status keycode : UInt8) : Keyboard :=
  if status &&& 1 = 0 then k
  else if keycode &&& 0x80 ≠ 0 then k
  else if keycode ≥ 128 then k
  else if keycode = 0x1c then kbdPush { k with kChar := '+'.toUInt8 } '\n'.toUInt8
  else
    let k := { k with kChar := mapped keycode }
    if mapped keycode ≠ 0 then k.kbdPush (mapped keycode) else k

end Keyboard

/-- Where a call of `kbd_pop` stands, with what it has read. -/
inductive PopAt where
  | idle
  | tailRead (tail : Nat) -- Of the comparison, `kbd_tail` was read first.
  | headRead (head : Nat) -- Of the comparison, `kbd_head` was read first.
  | unequal
  | indexRead (index : Nat)
  | dataRead (data : UInt8)
  | tailReread (tail : Nat) (data : UInt8)

/-- The keyboard with the history of its queue: the pushes it accepted, and each
result of `kbd_pop` with whether the queue was empty when `kbd_head` was read. -/
structure Fifo where
  keyboard : Keyboard
  pop : PopAt
  accepted : List UInt8
  results : List (UInt8 × Bool)
  sawEmpty : Bool

namespace Fifo

def returned (s : Fifo) : List UInt8 := (s.results.map Prod.fst).filter (· ≠ 0)

def queued (s : Fifo) : List UInt8 := s.accepted.drop s.returned.length

def push (s : Fifo) (data : UInt8) : Fifo :=
  { s with
    keyboard := s.keyboard.kbdPush data
    accepted := if s.keyboard.full then s.accepted else s.accepted ++ [data] }

def compare (s : Fifo) (tail head : Nat) : Fifo :=
  if tail = head then { s with pop := .idle, results := s.results ++ [(0, s.sawEmpty)] }
  else { s with pop := .unequal }

def noteHead (s : Fifo) : Fifo := { s with sawEmpty := decide (s.queued = []) }

def finish (s : Fifo) (tail : Nat) (data : UInt8) : Fifo :=
  let ring : Lib.Ring UInt8 := { s.keyboard.toRing with tail := (tail + 1) % kbdStackSize }
  { s with
    keyboard := { s.keyboard with toRing := ring }
    pop := .idle
    results := s.results ++ [(data, s.sawEmpty)] }

/-- The memory accesses of `kbd_pop`; C leaves the order of the first two open. -/
inductive PopStep (s : Fifo) : Fifo → Prop where
  | readTail : s.pop = .idle → PopStep s { s with pop := .tailRead s.keyboard.tail }
  | readHead : s.pop = .idle → PopStep s { s.noteHead with pop := .headRead s.keyboard.head }
  | thenHead {tail : Nat} : s.pop = .tailRead tail → PopStep s (s.noteHead.compare tail s.keyboard.head)
  | thenTail {head : Nat} : s.pop = .headRead head → PopStep s (s.compare s.keyboard.tail head)
  | readIndex : s.pop = .unequal → PopStep s { s with pop := .indexRead s.keyboard.tail }
  | readData {index : Nat} : s.pop = .indexRead index → PopStep s { s with pop := .dataRead (s.keyboard.cells index) }
  | readNext {data : UInt8} : s.pop = .dataRead data → PopStep s { s with pop := .tailReread s.keyboard.tail data }
  | writeTail {tail : Nat} {data : UInt8} : s.pop = .tailReread tail data → PopStep s (s.finish tail data)

inductive Step (s : Fifo) : Fifo → Prop where
  | push {data : UInt8} : data ≠ 0 → Step s (s.push data)
  | pop {t : Fifo} : PopStep s t → Step s t
  -- `k_char` is written by the handler and by `k_getchar`.
  | other (kChar : UInt8) : Step s { s with keyboard := { s.keyboard with kChar := kChar } }

def Start (s : Fifo) : Prop :=
  s.keyboard.head = 0 ∧ s.keyboard.tail = 0 ∧ s.pop = .idle ∧ s.accepted = [] ∧ s.results = []

def Run (s : Fifo) : Prop := Reachable Start Step s

def Knows (tail : Nat) (sawEmpty : Bool) (q : List UInt8) : PopAt → Prop
  | .idle => True
  | .tailRead read => read = tail
  | .headRead head => (tail = head → sawEmpty = true) ∧ (tail ≠ head → q ≠ [])
  | .unequal => q ≠ []
  | .indexRead index => index = tail ∧ q ≠ []
  | .dataRead data => q.head? = some data
  | .tailReread read data => read = tail ∧ q.head? = some data

structure Inv (s : Fifo) (q : List UInt8) : Prop where
  holds : s.keyboard.toRing.Holds kbdStackSize q
  history : s.accepted = s.returned ++ q
  nonzero : ∀ c ∈ s.accepted, c ≠ 0
  honest : ∀ r ∈ s.results, r.1 = 0 → r.2 = true
  knows : Knows s.keyboard.tail s.sawEmpty q s.pop

variable {s t : Fifo} {q : List UInt8} {data : UInt8}

theorem Knows.append {tail : Nat} {sawEmpty : Bool} {at_ : PopAt} (h : Knows tail sawEmpty q at_)
    (more : List UInt8) :
    Knows tail sawEmpty (q ++ more) at_ := by
  cases at_ with
  | idle | tailRead => exact h
  | headRead => exact ⟨h.1, fun ne => List.append_ne_nil_of_left_ne_nil (h.2 ne) _⟩
  | unequal => exact List.append_ne_nil_of_left_ne_nil h _
  | indexRead => exact ⟨h.1, List.append_ne_nil_of_left_ne_nil h.2 _⟩
  | dataRead =>
    change (q ++ more).head? = _
    rw [List.head?_append, show q.head? = some _ from h]
    rfl
  | tailReread => exact ⟨h.1, (by rw [List.head?_append, h.2]; rfl)⟩

theorem Inv.queued_eq (h : Inv s q) : s.queued = q := by
  unfold queued
  rw [h.history, List.drop_left]

theorem Inv.start (h : Start s) : Inv s [] := by
  obtain ⟨head, tail, idle, none, quiet⟩ := h
  have holds : s.keyboard.toRing.Holds kbdStackSize [] := by
    refine ⟨by rw [tail]; decide, by decide, by rw [head, tail]; rfl, fun i y at_i => ?_⟩
    simp at at_i
  refine ⟨holds, by simp [returned, none, quiet], by simp [none], by simp [quiet], ?_⟩
  rw [idle]
  trivial

theorem Inv.push (h : Inv s q) (nz : data ≠ 0) : ∃ q', Inv (s.push data) q' := by
  unfold Fifo.push Keyboard.kbdPush
  by_cases full : s.keyboard.full
  · rw [if_pos full, if_pos full]
    exact ⟨q, h.holds, h.history, h.nonzero, h.honest, h.knows⟩
  · rw [if_neg full, if_neg full]
    refine ⟨q ++ [data], h.holds.put full, ?_, fun c hc => ?_, h.honest, h.knows.append [data]⟩
    · rw [h.history, List.append_assoc]
      rfl
    · rcases List.mem_append.mp hc with old | new
      · exact h.nonzero c old
      · rwa [List.mem_singleton.mp new]

theorem Inv.compare {tail head : Nat} (h : Inv s q) (sound : tail = head → s.sawEmpty = true)
    (unequal : tail ≠ head → q ≠ []) : Inv (s.compare tail head) q := by
  unfold Fifo.compare
  split
  · rename_i equal
    refine ⟨h.holds, ?_, h.nonzero, ?_, trivial⟩
    · rw [h.history]
      simp [returned]
    · intro r hr zero
      rcases List.mem_append.mp hr with old | new
      · exact h.honest r old zero
      · rw [List.mem_singleton.mp new]
        exact sound equal
  · exact ⟨h.holds, h.history, h.nonzero, h.honest, unequal ‹_›⟩

theorem Inv.finish {tail : Nat} (h : Inv s q) (at_ : s.pop = .tailReread tail data) :
    ∃ q', Inv (s.finish tail data) q' := by
  have knows := h.knows
  rw [at_] at knows
  obtain ⟨rfl, first⟩ := knows
  match q, first with
  | _ :: q, rfl =>
    have nz : data ≠ 0 := h.nonzero data (by rw [h.history]; simp)
    refine ⟨q, h.holds.advance, ?_, h.nonzero, ?_, trivial⟩
    · change s.accepted = _
      rw [h.history]
      simp [returned, Fifo.finish, nz]
    · intro r hr zero
      rcases List.mem_append.mp hr with old | new
      · exact h.honest r old zero
      · rw [List.mem_singleton.mp new] at zero
        exact absurd zero nz

theorem Inv.noteHead (h : Inv s q) (idle : s.pop = .idle ∨ ∃ tail, s.pop = .tailRead tail) : Inv s.noteHead q := by
  refine ⟨h.holds, h.history, h.nonzero, h.honest, ?_⟩
  have knows := h.knows
  rcases idle with at_ | ⟨tail, at_⟩
  · simp only [Fifo.noteHead, at_] at knows ⊢
    exact knows
  · simp only [Fifo.noteHead, at_] at knows ⊢
    exact knows

theorem Inv.sawEmpty_iff (h : Inv s q) : s.noteHead.sawEmpty = true ↔ s.keyboard.tail = s.keyboard.head := by
  rw [h.holds.empty_iff]
  simp [Fifo.noteHead, h.queued_eq]

theorem Inv.pop (h : Inv s q) (step : PopStep s t) : ∃ q', Inv t q' := by
  have knows := h.knows
  cases step with
  | readTail => exact ⟨q, h.holds, h.history, h.nonzero, h.honest, rfl⟩
  | readHead idle =>
    have note := h.noteHead (.inl idle)
    exact ⟨q, note.holds, note.history, note.nonzero, note.honest, h.sawEmpty_iff.mpr,
      mt h.holds.empty_iff.mpr⟩
  | thenHead at_ =>
    rw [at_] at knows
    obtain rfl := knows
    exact ⟨q, (h.noteHead (.inr ⟨_, at_⟩)).compare h.sawEmpty_iff.mpr (mt h.holds.empty_iff.mpr)⟩
  | thenTail at_ =>
    rw [at_] at knows
    exact ⟨q, h.compare knows.1 knows.2⟩
  | readIndex at_ =>
    rw [at_] at knows
    exact ⟨q, h.holds, h.history, h.nonzero, h.honest, rfl, knows⟩
  | readData at_ =>
    rw [at_] at knows
    obtain ⟨rfl, some⟩ := knows
    match q, some with
    | c :: q, _ => exact ⟨c :: q, h.holds, h.history, h.nonzero, h.honest, by rw [h.holds.front]; rfl⟩
  | readNext at_ =>
    rw [at_] at knows
    exact ⟨q, h.holds, h.history, h.nonzero, h.honest, rfl, knows⟩
  | writeTail at_ => exact h.finish at_

theorem Inv.step (h : Inv s q) (step : Step s t) : ∃ q', Inv t q' := by
  cases step with
  | push nz => exact h.push nz
  | pop step => exact h.pop step
  | other => exact ⟨q, h.holds, h.history, h.nonzero, h.honest, h.knows⟩

theorem Run.inv (h : Run s) : ∃ q, Inv s q := by
  have initial : ∀ s, Start s → ∃ q, Inv s q := fun _ start => ⟨[], .start start⟩
  exact h.invariant initial fun _ _ ⟨_, inv⟩ step => inv.step step

/-- The interrupt of one key is a write to `k_char` and at most one `kbd_push`. -/
theorem handler_steps (s : Fifo) (status keycode : UInt8) :
    ∃ t, Relation.ReflTransGen Step s t ∧ t.keyboard = s.keyboard.keyboardHandler status keycode := by
  have pushed : ∀ kChar data : UInt8, data ≠ 0 → ∃ t, Relation.ReflTransGen Step s t ∧
      t.keyboard = Keyboard.kbdPush { s.keyboard with kChar := kChar } data :=
    fun kChar data nz => ⟨_, .tail (.single (.other kChar)) (.push nz), rfl⟩
  unfold Keyboard.keyboardHandler
  split_ifs with ready release high enter blank
  · exact ⟨s, .refl, rfl⟩
  · exact ⟨s, .refl, rfl⟩
  · exact ⟨s, .refl, rfl⟩
  · exact pushed _ _ (by decide)
  · exact pushed _ _ blank
  · exact ⟨_, .single (.other _), rfl⟩

/-- Left alone, the accesses of `kbd_pop` do what the function says. -/
theorem pop_undisturbed (idle : s.pop = .idle) :
    ∃ t saw, Relation.ReflTransGen PopStep s t ∧ t.pop = .idle ∧ t.keyboard = s.keyboard.kbdPop.2 ∧
      t.results = s.results ++ [(s.keyboard.kbdPop.1, saw)] := by
  have read : PopStep s { s with pop := .tailRead s.keyboard.tail } := .readTail idle
  have compared := Relation.ReflTransGen.tail (.single read) (.thenHead rfl)
  unfold Keyboard.kbdPop
  unfold compare at compared
  split at compared
  · rename_i equal
    rw [if_pos equal]
    exact ⟨_, _, compared, rfl, rfl, rfl⟩
  · rename_i unequal
    rw [if_neg unequal]
    exact ⟨_, _, (((compared.tail (.readIndex rfl)).tail (.readData rfl)).tail (.readNext rfl)).tail
      (.writeTail rfl), rfl, rfl, rfl⟩

/-- A bounded queue that loses nothing. -/
structure Lossless (s : Fifo) : Prop where
  head_lt : s.keyboard.head < kbdStackSize
  tail_lt : s.keyboard.tail < kbdStackSize
  ordered : s.returned <+: s.accepted
  rejected : ∀ data, s.keyboard.full → s.queued.length = 254 ∧ (s.push data).queued = s.queued ∧
    (s.keyboard.kbdPush data).toRing = s.keyboard.toRing
  stored : ∀ i c, s.queued[i]? = some c → s.keyboard.cells ((s.keyboard.tail + i) % kbdStackSize) = c
  empty : ∀ r ∈ s.results, r.1 = 0 → r.2 = true

theorem keyboard_lossless (h : Run s) : Lossless s := by
  obtain ⟨q, inv⟩ := h.inv
  refine ⟨inv.holds.head_lt, inv.holds.tail_lt, ⟨q, inv.history.symm⟩, fun data full => ?_, ?_, inv.honest⟩
  · have length := inv.holds.full_iff.mp full
    rw [inv.queued_eq]
    refine ⟨Nat.succ.inj length, ?_, ?_⟩
    · unfold Fifo.push
      rw [if_pos full]
      exact inv.queued_eq
    · unfold Keyboard.kbdPush
      rw [if_pos full]
  · rw [inv.queued_eq]
    exact inv.holds.cell

def fresh : Fifo := ⟨⟨⟨fun _ => 0, 0, 0⟩, 0, 0, []⟩, .idle, [], [], false⟩

-- One key arrives after `kbd_pop` has read `kbd_tail`, another when it has read the first key.
theorem keyboard_lossless_key : ∃ s, Run s ∧ s.accepted = [97, 98] ∧ s.returned = [97] ∧ s.queued = [98] ∧ Lossless s := by
  have start : Run fresh := .start ⟨rfl, rfl, rfl, rfl, rfl⟩
  have tail := start.step (.pop (.readTail rfl))
  have first := tail.step (.push (by decide : (97 : UInt8) ≠ 0))
  have unequal := first.step (.pop (.thenHead rfl))
  have index := unequal.step (.pop (.readIndex rfl))
  have cell := index.step (.pop (.readData rfl))
  have second := cell.step (.push (by decide : (98 : UInt8) ≠ 0))
  have run : Run _ := (second.step (.pop (.readNext rfl))).step (.pop (.writeTail rfl))
  exact ⟨_, run, rfl, rfl, rfl, keyboard_lossless run⟩

end Fifo

end Voyager.Drivers
