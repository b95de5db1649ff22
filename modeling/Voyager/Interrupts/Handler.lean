import Voyager.Drivers.Keyboard
import Voyager.Machine
import Voyager.Time.Timers

/-!
# The interrupt dispatcher

The timer interrupt reaches `sys_clock_handler_alt`, which leaves `pit_ticks` alone; that is
what `pit_sleep` waits for.
-/

namespace Voyager.Time.Clock

/-- `sys_clock_handler_alt` but for its call of `schedule`. -/
def sysClockHandlerAlt (c : Clock) : Clock :=
  { c with
    timerFired := true
    systemTimerFractions := c.systemTimerFractions + 1
    systemTimerMs := c.systemTimerMs + 1 }

def sleepTarget (c : Clock) (ms : UInt64) : UInt64 := c.pitTicks + ms

def Waits (c : Clock) (target : UInt64) : Prop := c.pitTicks < target

instance (c : Clock) (target : UInt64) : Decidable (c.Waits target) := inferInstanceAs (Decidable (_ < _))

end Voyager.Time.Clock

namespace Voyager.Interrupts

open Time Drivers Lib

/-- The functions that are ever put into `isr_delta`. `lapic_init`, which would put a third one
there, has no caller. -/
inductive DynamicIsr where
  | testHandler
  | yieldIsrTest
  deriving DecidableEq

inductive Printed where
  -- `IRQ Handoff to Dynamic Handler Using Vector: %i With Handler Located At Address: 0x%llx`
  | handoff (vector : Nat) (handler : Option DynamicIsr)
  | bingo -- `Bingo`
  | bam -- `BAM!`

structure System where
  clock : Clock
  keyboard : Keyboard
  allowSched : Bool
  isrDelta : Nat → Option DynamicIsr
  ports : List (Nat × Nat) -- What `outb` has sent, the last first.
  printed : List Printed -- The last first.

/-- The vector of the frame, and what the keyboard ports would answer. -/
structure Interrupt where
  vector : Nat
  status : UInt8
  keycode : UInt8

namespace System

def outb (s : System) (port value : Nat) : System := { s with ports := (port, value) :: s.ports }

def print (s : System) (line : Printed) : System := { s with printed := line :: s.printed }

def picSendEoi (s : System) (irq : Nat) : System :=
  let s := if irq ≥ 8 then s.outb 0xA0 0x20 else s
  s.outb 0x20 0x20

def dynIsrHandler (s : System) : DynamicIsr → System
  | .testHandler => s.print .bingo
  | .yieldIsrTest => s.print .bam

section

-- A switch of tasks from within the handler.
variable (schedule : System → Kernel System)

def clockInterrupt (s : System) : Kernel System :=
  let s := { s with clock := s.clock.sysClockHandlerAlt }
  if s.allowSched then schedule s else .ok s

def handle (s : System) (i : Interrupt) : Kernel System :=
  match i.vector with
  | 32 => s.clockInterrupt schedule
  | 33 => .ok { s with keyboard := s.keyboard.keyboardHandler i.status i.keycode }
  | _ => .ok s

def irqHandler (s : System) (i : Interrupt) : Kernel System :=
  if i.vector ≥ 32 ∧ i.vector < 48 then do
    let s ← s.handle schedule i
    return s.picSendEoi (i.vector - 32)
  else if i.vector ≥ 48 then
    let s := s.print (.handoff i.vector (s.isrDelta i.vector))
    match s.isrDelta i.vector with
    | none => .error (.panic .invalidDynamicVector)
    | some handler => .ok (s.dynIsrHandler handler)
  else .error (.panic (.notIrqVector i.vector))

def irqHandlerAll (s : System) : List Interrupt → Kernel System
  | [] => .ok s
  | i :: is => do irqHandlerAll (← s.irqHandler schedule i) is

/-- `pit_sleep` while the interrupts `is` come in: the state in which it returns and the interrupts
that are left, or nothing if it still waits. -/
def pitSleep (s : System) (target : UInt64) : List Interrupt → Kernel (Option (System × List Interrupt))
  | [] => .ok (if s.clock.Waits target then none else some (s, []))
  | i :: is =>
    if s.clock.Waits target then do pitSleep (← s.irqHandler schedule i) target is
    else .ok (some (s, i :: is))

end

def timerInterrupts (is : List Interrupt) : Nat := is.countP (·.vector = 32)

structure Counted (s s' : System) (n : Nat) : Prop where
  parked : s'.allowSched = false
  ms : s'.clock.systemTimerMs = s.clock.systemTimerMs + UInt64.ofNat n
  pitTicks : s'.clock.pitTicks = s.clock.pitTicks

variable {schedule : System → Kernel System} {s s' t : System} {i : Interrupt} {is : List Interrupt} {ms : UInt64} {n k : Nat}

theorem Counted.same (parked : s'.allowSched = false) (clock : s'.clock = s.clock) : Counted s s' 0 :=
  ⟨parked, by rw [clock]; exact (UInt64.add_zero _).symm, by rw [clock]⟩

theorem Counted.trans (h : Counted s t n) (h' : Counted t s' k) : Counted s s' (n + k) :=
  ⟨h'.parked, by rw [h'.ms, h.ms, UInt64.ofNat_add, UInt64.add_assoc], h'.pitTicks.trans h.pitTicks⟩

theorem Counted.picSendEoi (h : Counted s t n) (irq : Nat) : Counted s (t.picSendEoi irq) n := by
  unfold System.picSendEoi
  split
  · exact ⟨h.parked, h.ms, h.pitTicks⟩
  · exact ⟨h.parked, h.ms, h.pitTicks⟩

theorem handle_counted (parked : s.allowSched = false) (run : s.handle schedule i = .ok s') :
    Counted s s' (if i.vector = 32 then 1 else 0) := by
  unfold handle at run
  split at run
  · rename_i timer
    unfold clockInterrupt at run
    dsimp only at run
    rw [parked] at run
    cases run
    rw [if_pos timer]
    exact ⟨rfl, rfl, rfl⟩
  · rename_i keyboard
    cases run
    rw [if_neg (by omega)]
    exact .same parked rfl
  · rename_i other _
    cases run
    rw [if_neg other]
    exact .same parked rfl

theorem irqHandler_counted (parked : s.allowSched = false) (run : s.irqHandler schedule i = .ok s') :
    Counted s s' (if i.vector = 32 then 1 else 0) := by
  unfold irqHandler at run
  split at run
  · obtain ⟨t, handled, run⟩ := bind_ok run
    cases run
    exact (handle_counted parked handled).picSendEoi _
  · rename_i outside
    rw [if_neg (by omega)]
    split at run
    · dsimp only at run
      split at run
      · cases run
      · rename_i handler _
        cases run
        cases handler <;> exact .same parked rfl
    · cases run

theorem irqHandlerAll_counted (parked : s.allowSched = false) (run : s.irqHandlerAll schedule is = .ok s') :
    Counted s s' (timerInterrupts is) := by
  induction is generalizing s with
  | nil =>
    cases run
    exact .same parked rfl
  | cons i is ih =>
    obtain ⟨t, first, rest⟩ := bind_ok run
    have one := irqHandler_counted parked first
    have all := one.trans (ih one.parked rest)
    unfold timerInterrupts at *
    rw [List.countP_cons, Nat.add_comm]
    simpa only [decide_eq_true_eq] using all

/-- `pit_ticks` has counted the timer interrupts among `is`, and a sleep of `ms` that began before
them is over exactly if there were enough. -/
def Drives (s s' : System) (is : List Interrupt) (ms : UInt64) : Prop :=
  s'.clock.pitTicks.toNat = s.clock.pitTicks.toNat + timerInterrupts is ∧
    (¬ s'.clock.Waits (s.clock.sleepTarget ms) ↔ ms.toNat ≤ timerInterrupts is)

/-- `system_timer_ms` counts the timer interrupts. `pit_ticks` does not, and a sleep is driven by
interrupts exactly as long as none of them is the timer's. -/
theorem irqHandlerAll_drives_iff (parked : s.allowSched = false) (run : s.irqHandlerAll schedule is = .ok s')
    (fits : s.clock.pitTicks.toNat + ms.toNat < 2 ^ 64) :
    s'.clock.systemTimerMs = s.clock.systemTimerMs + UInt64.ofNat (timerInterrupts is) ∧
      (Drives s s' is ms ↔ ∀ i ∈ is, i.vector ≠ 32) := by
  have counted := irqHandlerAll_counted parked run
  have none : (∀ i ∈ is, i.vector ≠ 32) ↔ timerInterrupts is = 0 := by
    unfold timerInterrupts
    simp only [List.countP_eq_zero, decide_eq_true_eq, ne_eq]
  refine ⟨counted.ms, ?_⟩
  unfold Drives Clock.Waits Clock.sleepTarget
  rw [none, counted.pitTicks, UInt64.lt_iff_toNat_lt, UInt64.toNat_add, Nat.mod_eq_of_lt fits]
  omega

/-- A sleep that has begun goes on for ever. -/
theorem pitSleep_endless (parked : s.allowSched = false) {target : UInt64} (waits : s.clock.Waits target)
    (run : s.irqHandlerAll schedule is = .ok s') : s.pitSleep schedule target is = .ok none := by
  induction is generalizing s with
  | nil =>
    unfold pitSleep
    rw [if_pos waits]
  | cons i is ih =>
    obtain ⟨t, first, rest⟩ := bind_ok run
    have counted := irqHandler_counted parked first
    unfold pitSleep
    rw [if_pos waits, bind_eq first]
    refine ih counted.parked ?_ rest
    unfold Clock.Waits at *
    rw [counted.pitTicks]
    exact waits

def booted : System where
  clock := ⟨fun _ => ⟨0, false, ⟨0, 0⟩⟩, ⟨fun _ => 0, 0, 0⟩, ⟨0, 0⟩, ⟨0, 0⟩, false, 0, 0, 0⟩
  keyboard := ⟨⟨fun _ => 0, 0, 0⟩, 0, 0, []⟩
  allowSched := false
  isrDelta _ := none
  ports := []
  printed := []

theorem booted_keypress_drives : ∃ s', booted.irqHandlerAll .ok [⟨33, 1, 0x1E⟩] = .ok s' ∧
    Drives booted s' [⟨33, 1, 0x1E⟩] 5 := by
  have run : booted.irqHandlerAll .ok [⟨33, 1, 0x1E⟩] = .ok _ := rfl
  exact ⟨_, run, (irqHandlerAll_drives_iff rfl run (by decide)).2.mpr (by simp)⟩

theorem booted_sleep_waits : ∃ s', booted.irqHandlerAll .ok [⟨32, 0, 0⟩] = .ok s' ∧
    s'.clock.systemTimerMs = 1 ∧ s'.clock.pitTicks = 0 ∧ s'.clock.Waits (booted.clock.sleepTarget 1) ∧
      ¬ Drives booted s' [⟨32, 0, 0⟩] 1 := by
  refine ⟨_, rfl, rfl, rfl, by decide, fun drives => ?_⟩
  exact absurd drives.1 (by decide)

end System

end Voyager.Interrupts
