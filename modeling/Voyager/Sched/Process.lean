import Voyager.Heap.Payload
import Voyager.Lib.RoundRobin
import Voyager.Lib.Stores
import Voyager.Lib.X86

/-!
# The cooperative scheduler

`sched.c` and `switch_to` of `sched_ll.asm`. The C functions are followed up to the call of
`switch_to`, the assembly from there to its `ret`.

`System` is the machine with a history: which tasks there are, what their registers were when
they last called `switch_to`, and who was created and dispatched.
-/

namespace Voyager.Sched

open Lib Lib.X86 Lib.RoundRobin Heap

inductive ProcState where
  | ready
  | running
  | blocked
  deriving DecidableEq, Repr

def ProcState.code : ProcState → Nat
  | .ready => 0
  | .running => 1
  | .blocked => 2

-- `process_t` holds `pid` at 0, `rsp` at 8, `state` at 16 and `next` at 24.

def procSize : Nat := 32

def stackSize : Nat := 16 * 1024

structure Globals (σ : Type) where
  heap : Heap.State σ
  current : Nat
  runQueueHead : Nat
  runQueueTail : Nat
  nextPid : Nat

def initScheduler {σ : Type} (heap : Heap.State σ) : Globals σ := ⟨heap, 0, 0, 0, 1⟩

variable {σ : Type} (B : Backing σ)

section Code

/-- A store of an `int` or an enumeration. -/
def writeInt (s : Heap.State σ) (a v : Nat) : Kernel (Heap.State σ) :=
  if B.mapped s.mem a && B.mapped s.mem (a + 3) then .ok { s with mem := B.store s.mem a v 4 }
  else .error (.pageFault a)

/-- The process structure and the stack of `create_process`, both cleared. -/
def allocProcess (s : Heap.State σ) : Kernel (Nat × Nat × Heap.State σ) := do
  let (p, s) ← kmalloc B s procSize
  if p = 0 then .error (.panic .noProcess)
  else
    let cleared ← memset B.toByteSpace s.mem p 0 procSize
    let (stack, s) ← kmalloc B (setMem s cleared) stackSize
    if stack = 0 then .error (.panic .noTaskStack)
    else
      let cleared ← memset B.toByteSpace s.mem stack 0 stackSize
      return (p, stack, setMem s cleared)

/-- `*(--sp) = v` for one value after another. -/
def pushWords (s : Heap.State σ) (sp : Nat) : List Nat → Kernel (Nat × Heap.State σ)
  | [] => .ok (sp, s)
  | v :: vs => do pushWords (← writeWord B s (sub64 sp 8) v) (sub64 sp 8) vs

/-- The stack image of a new task and the pointer to its top. -/
def initialStack (s : Heap.State σ) (stack : Nat) (taskReturned entry : Word) : Kernel (Nat × Heap.State σ) := do
  let stackEnd := sub64 (alignDown (add64 stack stackSize) 16) 8
  let s ← writeWord B s stackEnd taskReturned.toNat
  -- the target of `ret`, then rbp, rbx, r12, r13, r14 and r15
  pushWords B s stackEnd [entry.toNat, 0, 0, 0, 0, 0, 0]

def enqueue (s : Globals σ) (p : Nat) : Kernel (Globals σ) :=
  if s.runQueueHead = 0 then do
    let heap ← writeWord B s.heap (p + 24) p
    return { s with heap, runQueueHead := p, runQueueTail := p }
  else do
    let heap ← writeWord B s.heap (p + 24) s.runQueueHead
    let heap ← writeWord B heap (s.runQueueTail + 24) p
    return { s with heap, runQueueTail := p }

def createProcess (taskReturned : Word) (s : Globals σ) (entry : Word) : Kernel (Nat × Globals σ) :=
  if entry = 0 then .error (.panic .nullEntry)
  else do
    let (p, stack, heap) ← allocProcess B s.heap
    let heap ← writeInt B heap p s.nextPid
    let heap ← writeInt B heap (p + 16) ProcState.ready.code
    let (sp, heap) ← initialStack B heap stack taskReturned entry
    let heap ← writeWord B heap (p + 8) sp
    return (p, ← enqueue B { s with heap, nextPid := s.nextPid + 1 } p)

/-- `current ? current->next : run_queue_head` -/
def nextProcess (s : Globals σ) : Kernel Nat :=
  if s.current ≠ 0 then readWord B s.heap (s.current + 24) else .ok s.runQueueHead

/-- `if (current) current->state = PROC_READY` -/
def readyCurrent (s : Globals σ) : Kernel (Heap.State σ) :=
  if s.current ≠ 0 then writeInt B s.heap (s.current + 16) ProcState.ready.code else .ok s.heap

/-- `schedule` up to its call of `switch_to`: the process it calls it with, if it gets there. -/
def schedule (s : Globals σ) : Kernel (Option Nat × Globals σ) :=
  if s.runQueueHead = 0 then .ok (none, s)
  else do
    let next ← nextProcess B s
    if next = 0 then return (none, s)
    else if s.current ≠ 0 ∧ next = s.current then return (none, s)
    else
      let heap ← readyCurrent B s
      let heap ← writeInt B heap (next + 16) ProcState.running.code
      return (some next, { s with heap })

def schedulerStart (s : Globals σ) : Kernel (Nat × Globals σ) :=
  if s.runQueueHead = 0 then .error (.panic .emptyRunQueue)
  else if s.current ≠ 0 then .error (.panic .startedTwice)
  else do
    let (next, s) ← schedule B s
    match next with
    | some next => return (next, s)
    | none => .error (.panic .dispatchReturned)

def access : Access σ Halt := memory B.toByteSpace .pageFault

/-- `push rbp` to `push r15` -/
def saveRegisters : List Instr := [.push .rbp, .push .rbx, .push .r12, .push .r13, .push .r14, .push .r15]

/-- `pop r15` to `ret` -/
def loadRegisters : List Instr := [.pop .r15, .pop .r14, .pop .r13, .pop .r12, .pop .rbx, .pop .rbp, .sti, .ret]

def testFlags (c : Core) (v : Word) : Core :=
  let c := c.setFlag 0 false
  let c := c.setFlag 2 (((List.range 8).countP fun i => v.getLsbD i) % 2 = 0)
  let c := c.setFlag 6 (v = 0)
  let c := c.setFlag 7 v.msb
  c.setFlag 11 false

/-- The outgoing half of `switch_to`; the global `current` holds the process that leaves. -/
def saveOutgoing (c : Cpu σ) (current : Word) : Kernel (Cpu σ) := do
  let c : Cpu σ := ⟨testFlags ((c.setFlag 9 false).set .rax current) current, c.mem⟩
  if current = 0 then return c
  else
    let c ← run (access B) c saveRegisters
    return { c with mem := ← (access B).push c.mem (c.regs .rax + 8#64) (c.regs .rsp) }

/-- `.load_new` up to `ret`. -/
def loadIncoming (c : Cpu σ) : Kernel (Cpu σ) := do
  let (rsp, mem) ← (access B).pop c.mem (c.regs .rdi + 8#64)
  run (access B) ⟨c.set .rsp rsp, mem⟩ loadRegisters

/-- The new value of `current` and the machine after `ret`. -/
def switchTo (c : Cpu σ) (current : Word) : Kernel (Word × Cpu σ) := do
  let c ← saveOutgoing B c current
  return (c.regs .rdi, ← loadIncoming B c)

end Code

/-- The registers at the entry of `switch_to`, and the address it will return to. -/
structure Context where
  regs : Reg → Word
  rip : Word

structure Task where
  proc : Nat
  stack : Nat
  entry : Word
  saved : Option Context -- From the last time the task called `switch_to`.

structure System (σ : Type) where
  globals : Globals σ
  core : Core
  live : List (Nat × Nat) -- The allocations that are live, as in `Heap.Client`.
  tasks : List Task -- Oldest first.
  log : List (Event Nat)

namespace System

def mem (s : System σ) : σ := s.globals.heap.mem

def client (s : System σ) : Client σ := ⟨s.globals.heap, s.live⟩

def withMem (s : System σ) (m : σ) : System σ :=
  { s with globals := { s.globals with heap := { s.globals.heap with mem := m } } }

def procs (s : System σ) : List Nat := s.tasks.map Task.proc

def OwnStack (s : System σ) (a : Nat) : Prop :=
  ∃ T ∈ s.tasks, T.proc = s.globals.current ∧ T.stack ≤ a ∧ a < T.stack + stackSize

/-- The running code has changed memory on its own stack only. -/
structure Works (s : System σ) (m : σ) : Prop where
  backed : B.backed m s.globals.heap.heapCurr
  others : ∀ a, heapBase ≤ a → a < s.globals.heap.heapCurr → ¬ s.OwnStack a → B.get m a = B.get s.mem a

/-- The registers with which `schedule` enters `switch_to(next)`: the argument, and a stack pointer
at the return address with room for six more words on the caller's own stack. -/
structure Enters (s : System σ) (k : Core) (next : Nat) : Prop where
  argument : k.regs .rdi = BitVec.ofNat 64 next
  stack : ∀ T ∈ s.tasks, T.proc = s.globals.current → (k.regs .rsp).toNat % 8 = 0 ∧
    T.stack + 48 ≤ (k.regs .rsp).toNat ∧ (k.regs .rsp).toNat + 8 ≤ T.stack + stackSize

/-- `schedule` or `scheduler_start` gets to `switch_to(next)`. -/
def Picks (s : System σ) (next : Nat) (g : Globals σ) : Prop :=
  schedule B s.globals = .ok (some next, g) ∨ schedulerStart B s.globals = .ok (next, g)

def created (s : System σ) (g : Globals σ) (p stack : Nat) (entry : Word) : System σ where
  globals := g
  core := s.core
  live := (stack, stackSize) :: (p, procSize) :: s.live
  tasks := s.tasks ++ [⟨p, stack, entry, none⟩]
  log := s.log ++ [.created p]

def context (g : Globals σ) (k : Core) :
    Context := ⟨k.regs, BitVec.ofNat 64 (B.load g.heap.mem (k.regs .rsp).toNat 8)⟩

def switched (s : System σ) (g : Globals σ) (k : Core) (next : Word) (c : Cpu σ) : System σ where
  globals := { g with heap := { g.heap with mem := c.mem }, current := next.toNat }
  core := c.toCore
  live := s.live
  tasks := s.tasks.map fun T => if T.proc = s.globals.current then { T with saved := some (context B g k) } else T
  log := s.log ++ [.dispatched next.toNat]

/-- A switch: `next` was picked, `switch_to` was entered with the registers `k` and came to its `ret`. -/
inductive Switch (s : System σ) (next : Nat) (k : Core) : System σ → Prop where
  | intro {g : Globals σ} {w : Word} {c : Cpu σ} : s.Picks B next g → s.Enters k next →
      switchTo B ⟨k, g.heap.mem⟩ (BitVec.ofNat 64 g.current) = .ok (w, c) → Switch s next k (s.switched B g k w c)

inductive Step (taskReturned : Word) (s : System σ) : System σ → Prop where
  | work {m : σ} (core : Core) : s.Works B m → Step taskReturned s { s.withMem m with core }
  | create {p q stack : Nat} {entry : Word} {h : Heap.State σ} {g : Globals σ} :
    allocProcess B s.globals.heap = .ok (p, stack, h) →
      createProcess B taskReturned s.globals entry = .ok (q, g) → Step taskReturned s (s.created g q stack entry)
  -- `schedule` returns at once.
  | stay {g : Globals σ} : schedule B s.globals = .ok (none, g) → Step taskReturned s { s with globals := g }
  | switch {next : Nat} {k : Core} {t : System σ} : Switch B s next k t → Step taskReturned s t

/-- After `init_scheduler`, on any heap that is in use. -/
def Start (s : System σ) : Prop :=
  Client.Run B s.client ∧ s.globals = initScheduler s.globals.heap ∧ s.tasks = [] ∧ s.log = []

def Run (taskReturned : Word) (s : System σ) : Prop := Reachable (Start B) (Step B taskReturned) s

end System

end Voyager.Sched
