import Voyager.Console.Putchar
import Voyager.Lib.Outcome

/-!
# Output during boot

`_start` as far as the console sees it. Between any two of its steps the CPU may raise an
exception or some code may panic; neither comes back.
-/

namespace Voyager.Startup

open Lib Console

inductive Setting where
  | bootspace (n : Nat)
  | kerrorMode (n : Nat)
  | initDone
  | terminal (ctx : Nat)
  | pml4 (root : Nat)
  | cr3 (root : Nat)

def Setting.apply (s : Console) : Setting → Console
  | .bootspace n => { s with bootspace := n }
  | .kerrorMode n => { s with kerrorMode := n }
  | .initDone => { s with initDone := 1 }
  | .terminal ctx => { s with termContext := ctx }
  | .pml4 root => { s with pml4Phys := root }
  | .cr3 root => { s with cr3 := root }

inductive Action where
  | put (c : Char)
  | set (x : Setting)
  | panic (message : String)

def prints (texts : List String) : List Action := texts.flatMap fun text => text.toList.map .put

/-! ### The two ways to stop -/

structure Frame where
  vector : Nat
  rip : Nat
  errorCode : Nat
  cs : Nat
  cr2 : Nat
  cr4 : Nat
  rsp : Nat
  rflags : Nat

def exceptionMessages : List String :=
  ["Division By Zero", "Debug", "Non Maskable Interrupt", "Breakpoint", "Into Detected Overflow", "Out of Bounds",
    "Invalid Opcode", "No Coprocessor", "Double Fault", "Coprocessor Segment Overrun", "Bad TSS", "Segment Not Present",
    "Stack Fault", "General Protection Fault", "Page Fault", "Unknown Interrupt", "Coprocessor Fault", "Alignment Check",
    "Machine Check"] ++ List.replicate 13 "Reserved"

def hex (n : Nat) : String := "0x" ++ String.ofList (Nat.toDigits 16 n) ++ "\n"

def panicLine : String := "!!!!!!!!!!!!!!!!!!!!KERNEL PANIC!!!!!!!!!!!!!!!!!!!!!\n"

/-- `isr_exception_handler`; `trace` is what the stack trace prints, if it is on. -/
def isrExceptionHandler (f : Frame) (trace : List String) : List Action :=
  prints [panicLine] ++ [.set (.kerrorMode 1)] ++
    prints (["ERROR: CPU EXCEPTION: ", exceptionMessages.getD f.vector "", " @ ", hex f.rip,
      "FROM VECTOR NUMBER: ", toString f.vector ++ "\n", "ERROR CODE: ", hex f.errorCode, "CS REGISTER: ", hex f.cs,
      "CR2 REGISTER: ", hex f.cr2, "CR4 REGISTER: ", hex f.cr4, "RSP REGISTER: ", hex f.rsp,
      "RFLAGS REGISTER: ", hex f.rflags] ++ trace ++ [panicLine])

def rule : String := "-----------------------------------------------\n"

/-- What `panic` prints; `trace` and `dump` are the frames and the bytes of the stack. -/
def panicText (message : String) (trace dump : List String) : List String :=
  [panicLine, "-----------------------------------------------------\n", "CAUSE: ", message ++ "\n",
    "-----------------------------------------------------\n", rule, "    INFO: Stack Trace (Unwind) as Follows\n", rule] ++
    trace ++ [rule, "End of Trace.\n", rule, rule, "    INFO: Stack Trace (Dump) as Follows\n", rule] ++ dump ++
    [rule, "End of Trace.\n", rule, panicLine]

structure Machine where
  console : Console
  todo : List Action

def panic (s : Console) (message : String) (trace dump : List String) : Machine :=
  ⟨if s.initDone = 1 then { s with kerrorMode := 1 } else s, prints (panicText message trace dump)⟩

/-! ### The boot sequence -/

/-- What `_start` depends on: the answers of the bootloader and of `fbterm_init`, and the
texts that are printed on the way. -/
structure Env where
  earlyTerminal : Bool
  root : Nat
  framebuffer : Bool
  terminal : Nat
  early : List String -- Up to the construction of the page tables.
  tables : List String -- While the tables are built and the old root is active.
  memory : List String -- Up to the standalone terminal.
  banner : List String -- On the new terminal.
  addrDebug : List String
  tasks : List String

def start (env : Env) : List Action :=
  (if env.earlyTerminal then [] else
    .set (.bootspace 1) :: prints ["WARNING: Bootloader Terminal Offline Using Serial Only!\n"]) ++
  prints env.early ++ [.set (.pml4 env.root)] ++ prints env.tables ++ [.set (.cr3 env.root)] ++ prints env.memory ++
  prints ["Handing Control to Standalone Terminal...\n"] ++ [.set (.bootspace 1)] ++
  if env.framebuffer = false then [.panic "Framebuffer terminal requested without a framebuffer"]
  else [.set (.terminal env.terminal)] ++
    if env.terminal = 0 then [.panic "Framebuffer terminal initialization failed"]
    else [.set (.bootspace 0)] ++ prints env.banner ++ [.set .initDone, .set (.bootspace 1)] ++ prints env.addrDebug ++
      [.set (.bootspace 0)] ++ prints ["Scheduler cooperative round-robin online.\n"] ++ prints env.tasks ++
      [.panic "scheduler returned control to kernel bootstrap"]

/-- The globals as the image initialises them, on the bootloader's tables. -/
def Start (env : Env) (s : Machine) : Prop :=
  s.todo = start env ∧ s.console.bootspace = 2 ∧ s.console.kerrorMode = 0 ∧ s.console.initDone = 0 ∧
    s.console.termContext = 0 ∧ s.console.pml4Phys = 0 ∧ s.console.out = []

/-- One step; exceptions come only when `may` holds. -/
inductive Step (may : Console → Prop) : Machine → Machine → Prop where
  | put {s t : Console} {c : Char} {rest : List Action} {depth : Nat} :
    putchar depth s c = .ok t → Step may ⟨s, .put c :: rest⟩ ⟨t, rest⟩
  | set {s : Console} {x : Setting} {rest : List Action} : Step may ⟨s, .set x :: rest⟩ ⟨x.apply s, rest⟩
  | stop {s : Console} {message : String} {rest : List Action} (trace dump : List String) :
    Step may ⟨s, .panic message :: rest⟩ (panic s message trace dump)
  -- A panic of some function that `_start` calls.
  | panic {s : Console} {todo : List Action} (message : String) (trace dump : List String) :
    Step may ⟨s, todo⟩ (panic s message trace dump)
  | exception {s : Console} {todo : List Action} (f : Frame) (trace : List String) :
    may s → Step may ⟨s, todo⟩ ⟨s, isrExceptionHandler f trace⟩
  | clock {s : Console} {todo : List Action} (ticks : Nat) : Step may ⟨s, todo⟩ ⟨{ s with ticks := ticks }, todo⟩

/-- A boot in which exceptions wait until there is a terminal. -/
def Boot (env : Env) : Machine → Prop := Reachable (Start env) (Step (·.termContext ≠ 0))

/-- What happens in a state after an exception, with more of them at any time. -/
def After (s t : Machine) : Prop :=
  ∃ f trace, Relation.ReflTransGen (Step fun _ => True) ⟨s.console, isrExceptionHandler f trace⟩ t

/-- Nothing was written to a null terminal, and a character can be printed. -/
def Safe (s : Machine) : Prop := s.console.Clean ∧ ∀ c, ∃ depth t, putchar depth s.console c = .ok t

/-! ### What is left to do asks for no terminal that is not there -/

def Fine : Prop → List Action → Prop
  | _, [] => True
  | terminal, .put _ :: rest => Fine terminal rest
  | _, .panic _ :: _ => True
  | terminal, .set (.bootspace n) :: rest => (terminal ∨ n = 1 ∨ n = 2 ∨ n = 3) ∧ Fine terminal rest
  | terminal, .set (.kerrorMode n) :: rest => (terminal ∨ n ≠ 1) ∧ Fine terminal rest
  | terminal, .set .initDone :: rest => terminal ∧ Fine terminal rest
  | terminal, .set (.terminal ctx) :: rest => (terminal → ctx ≠ 0) ∧ Fine (ctx ≠ 0) rest
  | terminal, .set (.pml4 _) :: rest => Fine terminal rest
  | terminal, .set (.cr3 _) :: rest => Fine terminal rest

variable {terminal : Prop} {rest : List Action} {s t : Machine} {env : Env}

@[simp] theorem fine_prints (texts : List String) : Fine terminal (prints texts ++ rest) ↔ Fine terminal rest := by
  have puts : ∀ cs : List Char, ∀ rest, Fine terminal (cs.map .put ++ rest) ↔ Fine terminal rest := fun cs rest => by
    induction cs with
    | nil => rfl
    | cons _ _ ih => exact ih
  induction texts with
  | nil => rfl
  | cons text texts ih =>
    unfold prints at ih ⊢
    rw [List.flatMap_cons, List.append_assoc, puts]
    exact ih

@[simp] theorem fine_prints_only (texts : List String) : Fine terminal (prints texts) := by
  have whole := (@fine_prints terminal [] texts).mpr trivial
  rwa [List.append_nil] at whole

theorem start_fine (env : Env) : Fine False (start env) := by
  unfold start
  split_ifs <;> simp [Fine, List.append_assoc, *]

structure Inv (s : Machine) : Prop where
  routed : s.console.Routed
  clean : s.console.Clean
  fine : Fine (s.console.termContext ≠ 0) s.todo
  initDone : s.console.initDone = 1 → s.console.termContext ≠ 0

theorem Inv.start (h : Start env s) : Inv s := by
  obtain ⟨todo, bootspace, mode, init, none, _, quiet⟩ := h
  refine ⟨.inr ⟨by omega, by omega⟩, by simp [Clean, quiet], ?_, by omega⟩
  rw [todo, none]
  simpa using start_fine env

theorem Inv.panic (h : Inv s) (message : String) (trace dump : List String) :
    Inv (panic s.console message trace dump) ∧
      (panic s.console message trace dump).console.termContext = s.console.termContext := by
  unfold Startup.panic
  split
  · rename_i done
    exact ⟨⟨.inl (h.initDone done), h.clean, fine_prints_only _, h.initDone⟩, rfl⟩
  · exact ⟨⟨h.routed, h.clean, fine_prints_only _, h.initDone⟩, rfl⟩

theorem Inv.set {c : Console} {x : Setting} (h : Inv ⟨c, .set x :: rest⟩) :
    Inv ⟨x.apply c, rest⟩ ∧ (c.termContext ≠ 0 → (x.apply c).termContext ≠ 0) := by
  obtain ⟨routed, clean, fine, initDone⟩ := h
  cases x with
  | bootspace n =>
    have routed' : (Setting.apply c (.bootspace n)).Routed := by
      rcases routed with some | ⟨quiet, _⟩
      · exact .inl some
      · exact fine.1.imp_right fun value => ⟨quiet, value⟩
    exact ⟨⟨routed', clean, fine.2, initDone⟩, id⟩
  | kerrorMode n =>
    have routed' : (Setting.apply c (.kerrorMode n)).Routed := by
      rcases routed with some | ⟨_, booting⟩
      · exact .inl some
      · exact fine.1.imp_right fun value => ⟨value, booting⟩
    exact ⟨⟨routed', clean, fine.2, initDone⟩, id⟩
  | initDone => exact ⟨⟨routed, clean, fine.2, fun _ => fine.1⟩, id⟩
  | terminal ctx =>
    have routed' : (Setting.apply c (.terminal ctx)).Routed := routed.imp_left fine.1
    exact ⟨⟨routed', clean, fine.2, fun done => fine.1 (initDone done)⟩, fine.1⟩
  | pml4 root => exact ⟨⟨routed, clean, fine, initDone⟩, id⟩
  | cr3 root => exact ⟨⟨routed, clean, fine, initDone⟩, id⟩

theorem Inv.put {c d : Console} {x : Char} {depth : Nat} (h : Inv ⟨c, .put x :: rest⟩)
    (run : putchar depth c x = .ok d) :
    Inv ⟨d, rest⟩ ∧ d.termContext = c.termContext := by
  cases depth with
  | zero => cases run
  | succ depth =>
    obtain ⟨d', run', same, clean⟩ := h.routed.putchar depth x
    cases run'.symm.trans run
    simp only [settings, Prod.mk.injEq] at same
    obtain ⟨bootspace, mode, init, terminal, _⟩ := same
    have fine : Fine (c.termContext ≠ 0) rest := h.fine
    refine ⟨⟨?_, clean h.clean, by rwa [terminal], fun done => ?_⟩, terminal⟩
    · unfold Routed
      rw [terminal, mode, bootspace]
      exact h.routed
    · rw [terminal]
      exact h.initDone (init ▸ done)

theorem handler_fine (f : Frame) (trace : List String) (some : terminal) :
    Fine terminal (isrExceptionHandler f trace) := by
  unfold isrExceptionHandler
  simp [Fine, List.append_assoc, some]

theorem Inv.step {may : Console → Prop} (h : Inv s) (guard : may s.console → s.console.termContext ≠ 0)
    (step : Step may s t) :
    Inv t ∧ (s.console.termContext ≠ 0 → t.console.termContext ≠ 0) := by
  cases step with
  | put run =>
    obtain ⟨inv, same⟩ := h.put run
    exact ⟨inv, fun some => same ▸ some⟩
  | set => exact h.set
  | stop trace dump =>
    obtain ⟨inv, same⟩ := h.panic _ trace dump
    exact ⟨inv, fun some => same ▸ some⟩
  | panic message trace dump =>
    obtain ⟨inv, same⟩ := h.panic message trace dump
    exact ⟨inv, fun some => same ▸ some⟩
  | exception f trace raised => exact ⟨⟨h.routed, h.clean, handler_fine f trace (guard raised), h.initDone⟩, id⟩
  | clock ticks => exact ⟨⟨h.routed, h.clean, h.fine, h.initDone⟩, id⟩

theorem Boot.inv (h : Boot env s) : Inv s := by
  have initial : ∀ s, Start env s → Inv s := fun _ => Inv.start
  have kept : ∀ s t, Inv s → Step (·.termContext ≠ 0) s t → Inv t :=
    fun _ _ inv step => (inv.step (fun some => some) step).1
  exact Reachable.invariant initial kept h

theorem Inv.safe (h : Inv s) : Safe s := by
  refine ⟨h.clean, fun c => ?_⟩
  obtain ⟨t, run, _⟩ := h.routed.putchar 0 c
  exact ⟨1, t, run⟩

theorem Inv.after (h : Inv s) (some : s.console.termContext ≠ 0) (after : After s t) : Safe t := by
  obtain ⟨f, trace, run⟩ := after
  have kept : Inv t ∧ t.console.termContext ≠ 0 := by
    induction run with
    | refl => exact ⟨⟨h.routed, h.clean, handler_fine f trace some, h.initDone⟩, some⟩
    | tail _ step ih =>
      obtain ⟨inv, stays⟩ := ih.1.step (fun _ => ih.2) step
      exact ⟨inv, stays ih.2⟩
  exact kept.1.safe

/-! ### An exception before there is a terminal -/

theorem run_puts {may : Console → Prop} (cs : List Char) {c : Console} (r : c.Routed) :
    ∃ d, Relation.ReflTransGen (Step may) ⟨c, cs.map .put ++ rest⟩ ⟨d, rest⟩ ∧ d.settings = c.settings := by
  induction cs generalizing c with
  | nil => exact ⟨c, .refl, rfl⟩
  | cons x cs ih =>
    obtain ⟨d, run, same, _⟩ := r.putchar 0 x
    have routed : d.Routed := by
      simp only [settings, Prod.mk.injEq] at same
      unfold Routed
      rw [same.1, same.2.1, same.2.2.2.1]
      exact r
    obtain ⟨e, more, same'⟩ := ih routed
    exact ⟨e, .head (.put run) more, same'.trans same⟩

/-- The handler switches to the terminal without asking whether there is one. -/
theorem exception_unsafe (routed : s.console.Routed) (none : s.console.termContext = 0) (f : Frame)
    (trace : List String) :
    ∃ t, Relation.ReflTransGen (Step fun _ => True) ⟨s.console, isrExceptionHandler f trace⟩ t ∧
      .terminal 0 'E' ∈ t.console.out := by
  obtain ⟨rest, text⟩ : ∃ rest, isrExceptionHandler f trace =
      panicLine.toList.map .put ++ (.set (.kerrorMode 1) :: .put 'E' :: rest) := ⟨_, rfl⟩
  obtain ⟨d, line, same⟩ : ∃ d, Relation.ReflTransGen (Step fun _ => True) ⟨s.console, isrExceptionHandler f trace⟩
      ⟨d, .set (.kerrorMode 1) :: .put 'E' :: rest⟩ ∧ d.settings = s.console.settings := by
    rw [text]
    exact run_puts panicLine.toList routed
  simp only [settings, Prod.mk.injEq] at same
  let e : Console := Setting.apply d (.kerrorMode 1)
  have put : putchar 1 e 'E' = .ok ((e.send (.terminal d.termContext 'E')).debug 'E') := rfl
  refine ⟨_, (line.tail .set).tail (.put put), debug_out ?_⟩
  rw [same.2.2.2.1, none]
  exact List.mem_append_right _ List.mem_cons_self

/-- In every boot whose exceptions wait for the terminal the console is safe at every step; and
an exception in such a state is harmless exactly if the terminal is there. -/
theorem console_safe_iff (boot : Boot env s) :
    Safe s ∧ ((∀ t, After s t → Safe t) ↔ s.console.termContext ≠ 0) := by
  have inv := boot.inv
  refine ⟨inv.safe, fun safe none => ?_, fun some t after => inv.after some after⟩
  obtain ⟨t, run, harm⟩ := exception_unsafe inv.routed none ⟨0, 0, 0, 0, 0, 0, 0, 0⟩ []
  exact (safe t ⟨_, _, run⟩).1 'E' harm

def entry (env : Env) : Machine := ⟨⟨2, 0, 0, 0, 0, 0, 1, 0, ⟨fun _ => ' ', 0, []⟩, []⟩, start env⟩

theorem entry_start (env : Env) : Start env (entry env) := ⟨rfl, rfl, rfl, rfl, rfl, rfl, rfl⟩

/-! ### A boot up to the scheduler -/

def terminalAfter (ctx : Nat) (acts : List Action) : Nat :=
  acts.foldl (fun ctx action => match action with | .set (.terminal n) => n | _ => ctx) ctx

@[simp] theorem terminalAfter_append (ctx : Nat) (xs ys : List Action) :
    terminalAfter ctx (xs ++ ys) = terminalAfter (terminalAfter ctx xs) ys := List.foldl_append

@[simp] theorem terminalAfter_prints (ctx : Nat) (texts : List String) : terminalAfter ctx (prints texts) = ctx := by
  have puts : ∀ cs : List Char, terminalAfter ctx (cs.map .put) = ctx := fun cs => by
    induction cs with
    | nil => rfl
    | cons _ _ ih => exact ih
  induction texts with
  | nil => rfl
  | cons text texts ih =>
    unfold prints at ih ⊢
    rw [List.flatMap_cons, terminalAfter_append, puts, ih]

theorem Inv.advance {may : Console → Prop} {acts : List Action} {c : Console} (h : Inv ⟨c, acts ++ rest⟩)
    (calm : ∀ message, .panic message ∉ acts) :
    ∃ d, Relation.ReflTransGen (Step may) ⟨c, acts ++ rest⟩ ⟨d, rest⟩ ∧
      d.termContext = terminalAfter c.termContext acts := by
  induction acts generalizing c with
  | nil => exact ⟨c, .refl, rfl⟩
  | cons action acts ih =>
    have calm' : ∀ message, .panic message ∉ acts := fun message hm => calm message (List.mem_cons_of_mem _ hm)
    cases action with
    | put x =>
      obtain ⟨d, run, _⟩ := h.routed.putchar 0 x
      obtain ⟨inv, same⟩ := Inv.put h run
      obtain ⟨e, more, context⟩ := ih inv calm'
      exact ⟨e, .head (.put run) more, by rw [context, same]; rfl⟩
    | set x =>
      obtain ⟨e, more, context⟩ := ih (Inv.set h).1 calm'
      refine ⟨e, .head .set more, ?_⟩
      rw [context]
      cases x <;> rfl
    | panic message => exact absurd List.mem_cons_self (calm message)

theorem start_online (framebuffer : env.framebuffer = true) (some : env.terminal ≠ 0) :
    ∃ acts, start env = acts ++ [.panic "scheduler returned control to kernel bootstrap"] ∧
      (∀ message, .panic message ∉ acts) ∧ ∀ ctx, terminalAfter ctx acts = env.terminal := by
  unfold start
  rw [if_neg (show ¬ env.framebuffer = false by simp [framebuffer]), if_neg some]
  simp only [← List.append_assoc]
  refine ⟨_, rfl, fun message => ?_, fun ctx => ?_⟩
  · split <;> simp [prints]
  · simp only [terminalAfter_append, terminalAfter_prints]
    rfl

theorem boot_online (framebuffer : env.framebuffer = true) (some : env.terminal ≠ 0) :
    ∃ c, Boot env ⟨c, [.panic "scheduler returned control to kernel bootstrap"]⟩ ∧ c.termContext = env.terminal := by
  obtain ⟨acts, shape, calm, context⟩ := start_online framebuffer some
  have inv := Inv.start (entry_start env)
  unfold entry at inv
  rw [shape] at inv
  obtain ⟨c, run, same⟩ : ∃ c, Relation.ReflTransGen (Step (·.termContext ≠ 0)) _ ⟨c, _⟩ ∧ _ := inv.advance calm
  rw [← shape] at run
  refine ⟨c, ?_, same.trans (context _)⟩
  have reach : ∀ s t, Boot env s → Relation.ReflTransGen (Step (·.termContext ≠ 0)) s t → Boot env t := by
    intro s t boot steps
    induction steps with
    | refl => exact boot
    | tail _ step ih => exact ih.step step
  exact reach _ _ (.start (entry_start env)) run

def onlineEnv : Env :=
  ⟨true, 4096, true, 8192, ["VoyagerOS64\n"], ["Building page tables\n"], ["Heap online\n"], ["Welcome\n"], [], ["tasks\n"]⟩

/-- Where the scheduler returns, an exception is harmless. -/
theorem console_safe_online : ∃ c, Boot onlineEnv ⟨c, [.panic "scheduler returned control to kernel bootstrap"]⟩ ∧
    c.termContext = 8192 ∧ ∀ t, After ⟨c, [.panic "scheduler returned control to kernel bootstrap"]⟩ t → Safe t := by
  obtain ⟨c, boot, context⟩ := boot_online (show onlineEnv.framebuffer = true from rfl) (by decide)
  refine ⟨c, boot, context, (console_safe_iff boot).2.mpr ?_⟩
  rw [context]
  decide

def plainEnv : Env := ⟨true, 4096, true, 8192, [], [], [], [], [], []⟩

/-- A page fault right after the switch to the new page tables. -/
theorem early_fault_unsafe : ∃ t, Relation.ReflTransGen (Step fun _ => True) (entry plainEnv) t ∧
    .terminal 0 'E' ∈ t.console.out ∧ ¬ Safe t := by
  let root : Console := Setting.apply (entry plainEnv).console (.pml4 4096)
  let switched : Machine := ⟨Setting.apply root (.cr3 4096), (start plainEnv).drop 2⟩
  have first : Step (fun _ => True) (entry plainEnv) ⟨root, (start plainEnv).drop 1⟩ := .set
  have second : Step (fun _ => True) ⟨root, (start plainEnv).drop 1⟩ switched := .set
  have routed : switched.console.Routed := .inr ⟨by decide, .inr (.inl rfl)⟩
  obtain ⟨t, run, harm⟩ := exception_unsafe routed rfl ⟨14, 0, 0, 8, 0, 0, 0, 2⟩ []
  exact ⟨t, .head first (.head second (.head (.exception _ _ trivial) run)), harm, fun safe => safe.1 'E' harm⟩

end Voyager.Startup
