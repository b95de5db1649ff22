import Mathlib.Data.Finset.Basic
import Voyager.Heap.Vector
import Voyager.Time.Timespec

/-!
# Software timers

A timer is named by its address. A tick that comes while a call holds `timers_lock` leaves the
table alone. A call that would leave the block of the table has no result.
-/

namespace Voyager.Time

open Lib

def pitFreq : Int := 750

def interval : Timespec := ⟨0, 1000000000 / pitFreq⟩

structure Timer where
  index : Int
  fired : Bool
  when : Timespec

structure Clock where
  timers : Nat → Timer
  armed : Vec Nat
  timeMono : Timespec
  timeReal : Timespec
  timerFired : Bool
  systemTimerFractions : UInt64
  systemTimerMs : UInt64
  pitTicks : UInt64

/-- `(struct timer *) VECTOR_INVALID_INDEX` -/
def invalidTimer : Nat := 2 ^ 64 - 1

def toSize (i : Int) : Nat := (i % 2 ^ 64).toNat

namespace Clock

def setIndex (c : Clock) (p : Nat) (index : Int) : Clock :=
  { c with timers := Function.update c.timers p { c.timers p with index := index } }

/-- `timer_arm`; `block` is where the table goes if it has to grow. -/
def timerArm (c : Clock) (p : Nat) (block : Nat → Nat) : Option Clock := do
  let timers := Function.update c.timers p { c.timers p with index := c.armed.length, fired := false }
  let (_, armed) ← c.armed.vectorPushBack p block
  return { c with timers, armed }

/-- `timer_new` on the result of `kmalloc`, whose bytes are `raw`. -/
def timerNew (c : Clock) (p : Nat) (raw : Timer) (when : Timespec) (block : Nat → Nat) : Option (Nat × Clock) :=
  if p = 0 then some (0, c)
  else do
    let c := { c with timers := Function.update c.timers p { raw with when := when } }
    return (p, ← c.timerArm p block)

/-- The test at the beginning of `timer_disarm`. -/
def Unarmed (c : Clock) (p : Nat) : Prop :=
  c.armed.length = 0 ∨ (c.timers p).index = -1 ∨ toSize (c.timers p).index ≥ c.armed.length

instance (c : Clock) (p : Nat) : Decidable (c.Unarmed p) := inferInstanceAs (Decidable (_ ∨ _ ∨ _))

def timerDisarm (c : Clock) (p : Nat) : Option Clock :=
  let index := (c.timers p).index
  if c.Unarmed p then some c
  else do
    let last ← c.armed.vectorItem (sub64 c.armed.length 1) invalidTimer
    let armed ← c.armed.store (toSize index) last
    let moved ← armed.vectorItem (toSize index) invalidTimer
    let c := { c with armed }.setIndex moved index
    let armed ← c.armed.vectorRemove (sub64 c.armed.length 1)
    return { c with armed }.setIndex p (-1)

def countDown (t : Timer) : Timer :=
  if t.fired then t
  else
    let when := timespecSub t.when interval
    { t with when := when, fired := decide (when.sec = 0 ∧ when.nsec = 0) }

def countAll (armed : Vec Nat) (timers : Nat → Timer) (i : Nat) : Nat → Option (Nat → Timer)
  | 0 => some timers
  | n + 1 => do
    let p ← armed.vectorItem i invalidTimer
    countAll armed (Function.update timers p (countDown (timers p))) (i + 1) n

/-- `sys_clock_handler`; `obtained` is the result of `spinlock_test_and_acq`. -/
def sysClockHandler (c : Clock) (obtained : Bool) : Option Clock := do
  let timers ← (if obtained then countAll c.armed c.timers 0 c.armed.length else some c.timers)
  return { c with
    timeMono := timespecAdd c.timeMono interval
    timeReal := timespecAdd c.timeReal interval
    timers
    timerFired := true
    systemTimerFractions := c.systemTimerFractions + 1
    systemTimerMs := c.systemTimerMs + 1
    pitTicks := c.pitTicks + 1 }

/-! ### One call -/

variable {c c' : Clock} {p q i n : Nat} {block : Nat → Nat} {armed : Vec Nat} {timers timers' : Nat → Timer}

theorem timerArm_run (sized : c.armed.Sized 8) (grows : c.armed.Grows 8 block) :
    ∃ c', c.timerArm p block = some c' ∧ Vec.Sized.Pushed 8 c.armed p c'.armed ∧
      c'.timers = Function.update c.timers p { c.timers p with index := c.armed.length, fired := false } := by
  obtain ⟨armed, run, pushed⟩ := sized.vectorPushBack (x := p) Vec.wordSize grows
  exact ⟨{ c with armed, timers := _ }, by unfold timerArm; rw [run]; rfl, pushed, rfl⟩

theorem toSize_of_lt {i : Nat} (lt : i < 2 ^ 63) : toSize i = i := by
  unfold toSize
  omega

theorem setIndex_timers (c : Clock) (index : Int) :
    ((c.setIndex p index).timers q).index = (if q = p then index else (c.timers q).index) ∧
      ((c.setIndex p index).timers q).fired = (c.timers q).fired ∧
      ((c.setIndex p index).timers q).when = (c.timers q).when := by
  unfold Clock.setIndex
  dsimp only
  by_cases same : q = p
  · rw [same, Function.update_self, if_pos rfl]
    exact ⟨rfl, rfl, rfl⟩
  · rw [Function.update_of_ne same, if_neg same]
    exact ⟨rfl, rfl, rfl⟩

/-- The last timer takes the place that `p` names, whoever is there. -/
structure Replaced (c : Clock) (p : Nat) (c' : Clock) : Prop where
  length : c'.armed.length = c.armed.length - 1
  capacity : c'.armed.capacity = c.armed.capacity
  data : ∀ j, c'.armed.data j =
    if j = toSize (c.timers p).index then c.armed.data (c.armed.length - 1) else c.armed.data j
  index : ∀ q, (c'.timers q).index =
    if q = p then -1 else if q = c.armed.data (c.armed.length - 1) then (c.timers p).index else (c.timers q).index
  frame : ∀ q, (c'.timers q).fired = (c.timers q).fired ∧ (c'.timers q).when = (c.timers q).when

theorem timerDisarm_unarmed (unarmed : c.Unarmed p) : c.timerDisarm p = some c := if_pos unarmed

theorem timerDisarm_armed (sized : c.armed.Sized 8) (armed : ¬ c.Unarmed p) :
    ∃ c', c.timerDisarm p = some c' ∧ Replaced c p c' := by
  have bound := sized.length_lt Vec.wordSize
  have fits := sized.fits
  unfold timerDisarm
  dsimp only
  rw [if_neg armed]
  obtain ⟨nonempty, rest⟩ := not_or.mp armed
  obtain ⟨_, inside⟩ := not_or.mp rest
  generalize hi : toSize (c.timers p).index = i at inside ⊢
  have pred : sub64 c.armed.length 1 = c.armed.length - 1 := sub64_of_le (by omega) (by omega)
  have sized' : (c.armed.set i (c.armed.data (c.armed.length - 1))).Sized 8 := ⟨fits, sized.inside⟩
  have item : (c.armed.set i (c.armed.data (c.armed.length - 1))).vectorItem i invalidTimer =
      some (c.armed.data (c.armed.length - 1)) := by
    rw [sized'.vectorItem (show i < c.armed.length by omega)]
    exact congrArg some (Function.update_self ..)
  have removed : (c.armed.set i (c.armed.data (c.armed.length - 1))).vectorRemove (c.armed.length - 1) = _ :=
    sized'.vectorRemove_last Vec.wordSize (show 0 < c.armed.length by omega)
  rw [pred, sized.vectorItem (by omega)]
  simp only [Option.bind_eq_bind, Option.bind_some]
  rw [Vec.store_of_lt (by omega)]
  simp only [Option.bind_some]
  rw [item, Option.bind_some]
  change ∃ c', (Vec.vectorRemove (c.armed.set i (c.armed.data (c.armed.length - 1))) (sub64 c.armed.length 1)).bind _ =
    some c' ∧ _
  rw [pred, removed, Option.bind_some]
  refine ⟨_, rfl, ⟨rfl, rfl, fun j => ?_, fun q => ?_, fun q => ?_⟩⟩
  · rw [hi]
    exact Function.update_apply ..
  · rw [(setIndex_timers _ _).1]
    dsimp only
    rw [(setIndex_timers _ _).1]
  · exact ⟨(setIndex_timers _ _).2.1.trans (setIndex_timers _ _).2.1,
      (setIndex_timers _ _).2.2.trans (setIndex_timers _ _).2.2⟩

theorem countDown_index (t : Timer) : (countDown t).index = t.index := by
  unfold countDown
  split <;> rfl

theorem countAll_run (sized : armed.Sized 8) (fits : i + n ≤ armed.length) :
    ∃ timers', countAll armed timers i n = some timers' ∧ ∀ q, (timers' q).index = (timers q).index := by
  induction n generalizing timers i with
  | zero => exact ⟨timers, rfl, fun _ => rfl⟩
  | succ n ih =>
    unfold countAll
    rw [sized.vectorItem (by omega)]
    simp only [Option.bind_eq_bind, Option.bind_some]
    obtain ⟨timers', run, index⟩ := ih (i := i + 1) (by omega)
    refine ⟨timers', run, fun q => (index q).trans ?_⟩
    by_cases same : q = armed.data i
    · rw [same, Function.update_self, countDown_index]
    · rw [Function.update_of_ne same]

theorem sysClockHandler_run (sized : c.armed.Sized 8) (obtained : Bool) :
    ∃ c', c.sysClockHandler obtained = some c' ∧ c'.armed = c.armed ∧
      (∀ q, (c'.timers q).index = (c.timers q).index) ∧ (obtained = false → c'.timers = c.timers) ∧
      (obtained = true → countAll c.armed c.timers 0 c.armed.length = some c'.timers) := by
  unfold sysClockHandler
  cases obtained with
  | false => exact ⟨_, rfl, rfl, fun _ => rfl, fun _ => rfl, nofun⟩
  | true =>
    obtain ⟨timers', run, index⟩ : ∃ timers', countAll c.armed c.timers 0 c.armed.length = some timers' ∧ _ :=
      countAll_run sized (Nat.le_of_eq (Nat.zero_add _))
    rw [if_pos rfl, run]
    exact ⟨_, rfl, rfl, index, nofun, fun _ => rfl⟩

end Clock

/-! ### Histories -/

/-- The clock, the timers that were armed and not disarmed since, those that were ever armed,
and those that were given to `timer_disarm` and not armed since. -/
structure History where
  clock : Clock
  held : Finset Nat
  known : Finset Nat
  released : Finset Nat

inductive Action where
  -- `timer_new`, with the block of the timer and its contents.
  | new (p : Nat) (raw : Timer) (when : Timespec) (block : Nat → Nat)
  | arm (p : Nat) (block : Nat → Nat)
  | disarm (p : Nat)
  | tick (obtained : Bool)

namespace History

open Clock

def arms (h : History) (p : Nat) (clock : Clock) : History :=
  ⟨clock, insert p h.held, insert p h.known, h.released.erase p⟩

def act (h : History) : Action → Option History
  | .new p raw when block => do
    let (p, clock) ← h.clock.timerNew p raw when block
    return if p = 0 then { h with clock } else h.arms p clock
  | .arm p block => do return h.arms p (← h.clock.timerArm p block)
  | .disarm p => do return ⟨← h.clock.timerDisarm p, h.held.erase p, h.known, insert p h.released⟩
  | .tick obtained => do return { h with clock := ← h.clock.sysClockHandler obtained }

/-- Only timers that are not armed are armed; any timer may be disarmed. -/
def Permitted (h : History) : Action → Prop
  | .new p _ _ block => p ∉ h.held ∧ h.clock.armed.Grows 8 block
  | .arm p block => p ∉ h.held ∧ h.clock.armed.Grows 8 block
  | .disarm _ => True
  | .tick _ => True

/-- A timer is disarmed only if it was armed before, or if its index says that it is not armed. -/
def Careful (h : History) : Action → Prop
  | .disarm p => p ∈ h.known ∨ (h.clock.timers p).index = -1
  | _ => True

def Allowed (h : History) (a : Action) : Prop := h.Permitted a ∧ h.Careful a

/-- The empty table. The timers hold anything. -/
def Start (h : History) : Prop :=
  h.clock.armed.length = 0 ∧ h.clock.armed.capacity = 0 ∧ h.held = ∅ ∧ h.known = ∅ ∧ h.released = ∅

def Step (h h' : History) : Prop := ∃ a, h.Allowed a ∧ h.act a = some h'

def Run (h : History) : Prop := Reachable Start Step h

variable {h h' : History} {p q : Nat} {block : Nat → Nat} {c : Clock} {obtained : Bool} {a : Action} {actions : List Action}

theorem act_arm (sized : h.clock.armed.Sized 8) (grows : h.clock.armed.Grows 8 block) :
    ∃ c, h.act (.arm p block) = some (h.arms p c) ∧ Vec.Sized.Pushed 8 h.clock.armed p c.armed ∧
      c.timers = Function.update h.clock.timers p ⟨h.clock.armed.length, false, (h.clock.timers p).when⟩ := by
  obtain ⟨c, run, pushed, timers⟩ := timerArm_run (p := p) sized grows
  refine ⟨c, ?_, pushed, timers⟩
  unfold act
  dsimp only
  rw [run]
  rfl

theorem act_new {raw : Timer} {when : Timespec} (nonzero : p ≠ 0) (sized : h.clock.armed.Sized 8)
    (grows : h.clock.armed.Grows 8 block) :
    ∃ c, h.act (.new p raw when block) = some (h.arms p c) ∧ Vec.Sized.Pushed 8 h.clock.armed p c.armed ∧
      c.timers = Function.update h.clock.timers p ⟨h.clock.armed.length, false, when⟩ := by
  obtain ⟨c, run, pushed, timers⟩ := timerArm_run (p := p)
    (c := { h.clock with timers := Function.update h.clock.timers p { raw with when := when } }) sized grows
  have made : h.clock.timerNew p raw when block = some (p, c) := by
    unfold timerNew
    rw [if_neg nonzero]
    dsimp only
    rw [run]
    rfl
  refine ⟨c, ?_, pushed, ?_⟩
  · unfold act
    dsimp only
    rw [made]
    exact congrArg some (if_neg nonzero)
  · rw [timers]
    dsimp only
    rw [Function.update_idem, Function.update_self]

theorem act_disarm (run : h.clock.timerDisarm p = some c) :
    h.act (.disarm p) = some ⟨c, h.held.erase p, h.known, insert p h.released⟩ := by
  unfold act
  dsimp only
  rw [run]
  rfl

theorem act_tick (run : h.clock.sysClockHandler obtained = some c) :
    h.act (.tick obtained) = some { h with clock := c } := by
  unfold act
  dsimp only
  rw [run]
  rfl

structure Consistent (h : History) : Prop where
  back : ∀ i < h.clock.armed.length, (h.clock.timers (h.clock.armed.data i)).index = i
  listed : ∀ p, p ∈ h.held ↔ ∃ i < h.clock.armed.length, h.clock.armed.data i = p
  off : ∀ p, p ∈ h.known ∨ p ∈ h.released → p ∉ h.held → (h.clock.timers p).index = -1
  apart : ∀ p ∈ h.released, p ∉ h.held
  armed : h.held ⊆ h.known
  sized : h.clock.armed.Sized 8

namespace Consistent

theorem start (s : Start h) : Consistent h := by
  obtain ⟨empty, none, quiet, unknown, kept⟩ := s
  refine ⟨?_, ?_, ?_, ?_, ?_, ?_⟩
  · intro i lt
    omega
  · intro p
    simp [quiet, empty]
  · simp [unknown, kept]
  · simp [kept]
  · simp [quiet]
  · exact ⟨by omega, by rw [none]; decide⟩

theorem arms (k : Consistent h) (new : p ∉ h.held) {timer : Timer} (index : timer.index = h.clock.armed.length)
    {c : Clock} (timers : c.timers = Function.update h.clock.timers p timer)
    (pushed : Vec.Sized.Pushed 8 h.clock.armed p c.armed) : Consistent (h.arms p c) := by
  have other : ∀ i < h.clock.armed.length, h.clock.armed.data i ≠ p :=
    fun i lt same => new ((k.listed p).mpr ⟨i, lt, same⟩)
  refine ⟨fun i lt => ?_, fun q => ?_, fun q gone out => ?_, fun q kept => ?_, ?_, pushed.sized⟩ <;>
    dsimp only [History.arms] at *
  · rw [pushed.length] at lt
    rcases Nat.lt_succ_iff_lt_or_eq.mp lt with old | rfl
    · rw [timers, pushed.data i old, Function.update_of_ne (other i old)]
      exact k.back i old
    · rw [timers, pushed.last, Function.update_self, index]
  · rw [pushed.length, Finset.mem_insert, k.listed]
    constructor
    · rintro (rfl | ⟨i, lt, same⟩)
      · exact ⟨_, Nat.lt_succ_self _, pushed.last⟩
      · exact ⟨i, by omega, (pushed.data i lt).trans same⟩
    · rintro ⟨i, lt, same⟩
      rcases Nat.lt_succ_iff_lt_or_eq.mp lt with old | rfl
      · exact .inr ⟨i, old, (pushed.data i old).symm.trans same⟩
      · exact .inl (same.symm.trans pushed.last)
  · rw [Finset.mem_insert, not_or] at out
    rw [timers, Function.update_of_ne out.1]
    refine k.off q ?_ out.2
    rcases gone with gone | gone
    · exact .inl ((Finset.mem_insert.mp gone).resolve_left out.1)
    · exact .inr (Finset.mem_of_mem_erase gone)
  · obtain ⟨ne, kept⟩ := Finset.mem_erase.mp kept
    rw [Finset.mem_insert, not_or]
    exact ⟨ne, k.apart q kept⟩
  · exact Finset.insert_subset_insert p k.armed

/-! ### Disarming -/

theorem distinct (k : Consistent h) {i j : Nat} (hi : i < h.clock.armed.length) (hj : j < h.clock.armed.length)
    (same : h.clock.armed.data i = h.clock.armed.data j) : i = j := by
  have first := k.back i hi
  rw [same, k.back j hj] at first
  omega

theorem disarm_off (k : Consistent h) (careful : h.Careful (.disarm p)) (out : p ∉ h.held) :
    (h.clock.timers p).index = -1 ∧ h.clock.timerDisarm p = some h.clock := by
  have off : (h.clock.timers p).index = -1 := careful.elim (fun known => k.off p (.inl known) out) id
  exact ⟨off, timerDisarm_unarmed (.inr (.inl off))⟩

theorem disarm_unheld (k : Consistent h) (off : (h.clock.timers p).index = -1) (out : p ∉ h.held) :
    Consistent ⟨h.clock, h.held.erase p, h.known, insert p h.released⟩ := by
  rw [Finset.erase_eq_of_notMem out]
  refine ⟨k.back, k.listed, fun q gone out' => ?_, fun q kept => ?_, k.armed, k.sized⟩
  · by_cases same : q = p
    · rw [same]
      exact off
    · exact k.off q (gone.imp id fun kept => (Finset.mem_insert.mp kept).resolve_left same) out'
  · rcases Finset.mem_insert.mp kept with rfl | kept
    · exact out
    · exact k.apart q kept

theorem disarm_held {i : Nat} {c : Clock} (k : Consistent h) (lt : i < h.clock.armed.length)
    (r : Replaced h.clock (h.clock.armed.data i) c) :
    Consistent ⟨c, h.held.erase (h.clock.armed.data i), h.known, insert (h.clock.armed.data i) h.released⟩ := by
  have bound := k.sized.length_lt Vec.wordSize
  obtain ⟨length, capacity, data, index, _⟩ := r
  rw [k.back i lt, toSize_of_lt (by omega)] at data
  rw [k.back i lt] at index
  refine ⟨fun j lt' => ?_, fun q => ?_, fun q gone out => ?_, fun q kept => ?_,
    (Finset.erase_subset _ _).trans k.armed, ?_⟩ <;> dsimp only at *
  · rw [length] at lt'
    rw [index, data]
    by_cases moved : j = i
    · rw [if_pos moved, if_neg fun same => ?_, if_pos rfl, moved]
      have := k.distinct (by omega) lt same
      omega
    · rw [if_neg moved, if_neg fun same => moved (k.distinct (by omega) lt same), if_neg fun same => ?_]
      · exact k.back j (by omega)
      · have := k.distinct (by omega) (by omega) same
        omega
  · rw [Finset.mem_erase, k.listed, length]
    constructor
    · rintro ⟨ne, j, lt', rfl⟩
      by_cases last : j = h.clock.armed.length - 1
      · refine ⟨i, ?_, by rw [data, if_pos rfl, last]⟩
        rcases Nat.lt_or_ge i (h.clock.armed.length - 1) with below | above
        · exact below
        · exact absurd (congrArg h.clock.armed.data (show j = i by omega)) ne
      · exact ⟨j, by omega, by rw [data, if_neg fun same => ne (by rw [same])]⟩
    · rintro ⟨j, lt', rfl⟩
      rw [data]
      by_cases moved : j = i
      · rw [if_pos moved]
        refine ⟨fun same => ?_, _, by omega, rfl⟩
        have := k.distinct (by omega) lt same
        omega
      · rw [if_neg moved]
        exact ⟨fun same => moved (k.distinct (by omega) lt same), j, by omega, rfl⟩
  · rw [index]
    by_cases same : q = h.clock.armed.data i
    · rw [if_pos same]
    · have off : q ∉ h.held := fun held => out (Finset.mem_erase.mpr ⟨same, held⟩)
      rw [if_neg same, if_neg fun last => off ((k.listed q).mpr ⟨_, by omega, last.symm⟩)]
      exact k.off q (gone.imp id fun kept => (Finset.mem_insert.mp kept).resolve_left same) off
  · rcases Finset.mem_insert.mp kept with rfl | kept
    · exact Finset.notMem_erase _ _
    · exact fun held => k.apart q kept (Finset.mem_of_mem_erase held)
  · exact ⟨by have := k.sized.fits; rw [length, capacity]; omega, by rw [capacity]; exact k.sized.inside⟩

theorem disarm (k : Consistent h) (careful : h.Careful (.disarm p)) :
    ∃ c, h.clock.timerDisarm p = some c ∧ Consistent ⟨c, h.held.erase p, h.known, insert p h.released⟩ ∧
      (p ∉ h.held → c = h.clock) ∧
      ∀ q, (c.timers q).fired = (h.clock.timers q).fired ∧ (c.timers q).when = (h.clock.timers q).when := by
  by_cases out : p ∉ h.held
  · obtain ⟨off, run⟩ := k.disarm_off careful out
    exact ⟨_, run, k.disarm_unheld off out, fun _ => rfl, fun _ => ⟨rfl, rfl⟩⟩
  · obtain ⟨i, lt, rfl⟩ := (k.listed p).mp (not_not.mp out)
    have bound := k.sized.length_lt Vec.wordSize
    have armed : ¬ h.clock.Unarmed (h.clock.armed.data i) := by
      unfold Unarmed
      rw [k.back i lt, toSize_of_lt (by omega)]
      omega
    obtain ⟨c, run, r⟩ := timerDisarm_armed k.sized armed
    exact ⟨c, run, k.disarm_held lt r, fun gone => absurd gone out, r.frame⟩

/-! ### The other calls -/

theorem tick (k : Consistent h) {c : Clock} (armed : c.armed = h.clock.armed)
    (index : ∀ q, (c.timers q).index = (h.clock.timers q).index) : Consistent { h with clock := c } := by
  refine ⟨?_, ?_, fun q gone out => (index q).trans (k.off q gone out), k.apart, k.armed, ?_⟩ <;>
    dsimp only <;> rw [armed]
  · exact fun i lt => (index _).trans (k.back i lt)
  · exact k.listed
  · exact k.sized

theorem act (k : Consistent h) (allowed : h.Allowed a) : ∃ h', h.act a = some h' ∧ Consistent h' := by
  obtain ⟨permitted, careful⟩ := allowed
  cases a with
  | new p raw when block =>
    obtain ⟨out, grows⟩ := permitted
    by_cases null : p = 0
    · subst null
      exact ⟨h, rfl, k⟩
    · obtain ⟨c, run, pushed, timers⟩ := act_new null k.sized grows
      exact ⟨h.arms p c, run, k.arms out rfl timers pushed⟩
  | arm p block =>
    obtain ⟨out, grows⟩ := permitted
    obtain ⟨c, run, pushed, timers⟩ := act_arm (p := p) k.sized grows
    exact ⟨h.arms p c, run, k.arms out rfl timers pushed⟩
  | disarm p =>
    obtain ⟨c, run, consistent, _⟩ := k.disarm careful
    exact ⟨_, act_disarm run, consistent⟩
  | tick obtained =>
    obtain ⟨c, run, armed, index, _⟩ := sysClockHandler_run k.sized obtained
    exact ⟨_, act_tick run, k.tick armed index⟩

theorem step (k : Consistent h) (step : Step h h') : Consistent h' := by
  obtain ⟨a, allowed, run⟩ := step
  obtain ⟨h₁, run₁, consistent⟩ := k.act allowed
  cases run₁.symm.trans run
  exact consistent

end Consistent

theorem Run.consistent (run : Run h) : Consistent h :=
  run.invariant (fun _ s => Consistent.start s) fun _ _ k step => k.step step

/-! ### All sequences of calls -/

def table (c : Clock) : Set Nat := {p | ∃ i < c.armed.length, c.armed.data i = p}

/-- The table lists each armed timer once, under its own index, and no other; a timer that
was disarmed last has no index. -/
structure Correct (h : History) : Prop where
  back : ∀ i < h.clock.armed.length, (h.clock.timers (h.clock.armed.data i)).index = i
  once : ∀ p ∈ h.held, ∃! i, i < h.clock.armed.length ∧ h.clock.armed.data i = p
  only : ∀ p ∉ h.held, p ∉ table h.clock
  off : ∀ p ∈ h.released, (h.clock.timers p).index = -1

/-- `timer_disarm` has removed the timer it was given and nothing else. -/
def Exact (h : History) : Action → History → Prop
  | .disarm p, h' => table h'.clock = table h.clock \ {p} ∧ (p ∉ h.held → h'.clock = h.clock) ∧
    ∀ q, (h'.clock.timers q).fired = (h.clock.timers q).fired ∧ (h'.clock.timers q).when = (h.clock.timers q).when
  | _, _ => True

/-- Every call returns, and the table is correct before and after it. -/
def CorrectAll (h : History) : List Action → Prop
  | [] => Correct h
  | a :: actions => Correct h ∧ ∃ h', h.act a = some h' ∧ h.Exact a h' ∧ CorrectAll h' actions

def PermittedAll (h : History) : List Action → Prop
  | [] => True
  | a :: actions => h.Permitted a ∧ ∀ h', h.act a = some h' → PermittedAll h' actions

def CarefulAll (h : History) : List Action → Prop
  | [] => True
  | a :: actions => h.Careful a ∧ ∀ h', h.act a = some h' → CarefulAll h' actions

namespace Consistent

theorem table_eq (k : Consistent h) : table h.clock = h.held :=
  Set.ext fun p => (k.listed p).symm

theorem correct (k : Consistent h) : Correct h where
  back := k.back
  once p held := by
    obtain ⟨i, lt, same⟩ := (k.listed p).mp held
    exact ⟨i, ⟨lt, same⟩, fun j ⟨lt', same'⟩ => k.distinct lt' lt (same'.trans same.symm)⟩
  only p out := by
    rw [k.table_eq]
    exact out
  off p kept := k.off p (.inr kept) (k.apart p kept)

theorem exact_of_careful (k : Consistent h) (careful : h.Careful a) (run : h.act a = some h') : h.Exact a h' := by
  cases a with
  | disarm p =>
    obtain ⟨c, disarmed, k', unheld, frame⟩ := k.disarm careful
    cases (act_disarm disarmed).symm.trans run
    refine ⟨?_, unheld, frame⟩
    rw [k'.table_eq, k.table_eq, Finset.coe_erase]
  | new | arm | tick => trivial

/-- A timer that was never armed and has an index: either it keeps the index, or another
timer is gone. -/
theorem careful_of_exact (k : Consistent h) (run : h.act a = some h') (exactly : h.Exact a h') (correct : Correct h') :
    h.Careful a := by
  cases a with
  | disarm p =>
    by_contra careless
    obtain ⟨unknown, index⟩ := not_or.mp careless
    have out : p ∉ h.held := fun held => unknown (k.armed held)
    have same := exactly.2.1 out
    have off : (h'.clock.timers p).index = -1 := by
      refine correct.off p ?_
      obtain ⟨c, _, done⟩ := Option.bind_eq_some_iff.mp run
      cases done
      exact Finset.mem_insert_self _ _
    rw [same] at off
    exact index off
  | new | arm | tick => trivial

theorem correctAll_iff (k : Consistent h) (permitted : PermittedAll h actions) :
    CorrectAll h actions ↔ CarefulAll h actions := by
  induction actions generalizing h with
  | nil => exact iff_of_true k.correct trivial
  | cons a actions ih =>
    constructor
    · rintro ⟨_, h', run, exactly, rest⟩
      have correct : Correct h' := by
        cases actions with
        | nil => exact rest
        | cons => exact rest.1
      have careful := k.careful_of_exact run exactly correct
      obtain ⟨h₁, run₁, k₁⟩ := k.act ⟨permitted.1, careful⟩
      cases run₁.symm.trans run
      refine ⟨careful, fun h₂ run₂ => ?_⟩
      cases run.symm.trans run₂
      exact (ih k₁ (permitted.2 _ run)).mp rest
    · rintro ⟨careful, rest⟩
      obtain ⟨h', run, k'⟩ := k.act ⟨permitted.1, careful⟩
      exact ⟨k.correct, h', run, k.exact_of_careful careful run, (ih k' (permitted.2 _ run)).mpr (rest _ run)⟩

end Consistent

/-- From the empty table on, the table is correct at every boundary and `timer_disarm` exact
if and only if every timer it is given was armed before or has the index -1. -/
theorem armed_timers_consistent_iff (start : Start h) (permitted : PermittedAll h actions) :
    CorrectAll h actions ↔ CarefulAll h actions :=
  (Consistent.start start).correctAll_iff permitted

def zeroed : History :=
  ⟨⟨fun _ => ⟨0, false, ⟨0, 0⟩⟩, Vec.init fun _ => 0, ⟨0, 0⟩, ⟨0, 0⟩, false, 0, 0, 0⟩, ∅, ∅, ∅⟩

theorem zeroed_start : Start zeroed := ⟨rfl, rfl, rfl, rfl, rfl⟩

theorem zeroed_grows : zeroed.clock.armed.Grows 8 fun _ => 0 :=
  fun _ => ⟨fun i lt => absurd lt (Nat.not_lt_zero i), by decide⟩

theorem armed_timers_consistent_two :
    CorrectAll zeroed [.arm 4096 fun _ => 0, .arm 8192 fun _ => 0, .tick true, .disarm 4096, .disarm 4096] := by
  refine (armed_timers_consistent_iff zeroed_start ?_).mpr ?_
  · refine ⟨⟨by decide, zeroed_grows⟩, ?_⟩
    rintro _ ⟨⟩
    refine ⟨⟨by decide, fun full => absurd full (by decide)⟩, ?_⟩
    rintro _ ⟨⟩
    refine ⟨trivial, ?_⟩
    rintro _ ⟨⟩
    refine ⟨trivial, ?_⟩
    rintro _ ⟨⟩
    exact ⟨trivial, fun _ _ => trivial⟩
  · refine ⟨trivial, ?_⟩
    rintro _ ⟨⟩
    refine ⟨trivial, ?_⟩
    rintro _ ⟨⟩
    refine ⟨trivial, ?_⟩
    rintro _ ⟨⟩
    refine ⟨.inl (by decide), ?_⟩
    rintro _ ⟨⟩
    exact ⟨.inl (by decide), fun _ _ => trivial⟩

/-- The zeroed timer 8192 was never armed. Its index is that of 4096, which is gone when
8192 is disarmed. -/
theorem unarmed_disarm_removes : Start zeroed ∧ PermittedAll zeroed [.arm 4096 fun _ => 0, .disarm 8192] ∧
    ¬ CorrectAll zeroed [.arm 4096 fun _ => 0, .disarm 8192] ∧
    ∃ h₁ h₂, zeroed.act (.arm 4096 fun _ => 0) = some h₁ ∧ table h₁.clock = {4096} ∧
      h₁.act (.disarm 8192) = some h₂ ∧ table h₂.clock = ∅ ∧ 4096 ∈ h₂.held := by
  have permitted : PermittedAll zeroed [.arm 4096 fun _ => 0, .disarm 8192] :=
    ⟨⟨by decide, zeroed_grows⟩, fun _ _ => ⟨trivial, fun _ _ => trivial⟩⟩
  refine ⟨zeroed_start, permitted, ?_, _, _, rfl, ?_, rfl, ?_, by decide⟩
  · rw [(Consistent.start zeroed_start).correctAll_iff permitted]
    rintro ⟨_, rest⟩
    rcases (rest _ rfl).1 with known | off
    · exact absurd known (by decide)
    · exact absurd off (by decide)
  · ext p
    constructor
    · rintro ⟨i, lt, rfl⟩
      obtain rfl : i = 0 := Nat.lt_one_iff.mp lt
      rfl
    · rintro rfl
      exact ⟨0, Nat.zero_lt_one, rfl⟩
  · ext p
    constructor
    · rintro ⟨i, lt, _⟩
      exact absurd lt (Nat.not_lt_zero i)
    · exact False.elim

end History

end Voyager.Time
