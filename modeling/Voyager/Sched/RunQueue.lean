import Mathlib.Data.List.Chain
import Voyager.Sched.Switch

/-!
# The run queue and the tasks in memory

`Placed` keeps the allocations apart, `Queue` says what the process structures hold, and
`Frozen` what a task that does not run has on its stack.
-/

namespace Voyager.Sched

open Lib Lib.X86 Heap ByteSpace

variable {σ : Type} {B : Backing σ} {taskReturned : Word} {m m' : σ} {g g' : Globals σ} {procs : List Nat} {p q : Nat}
  {live : List (Nat × Nat)} {tasks : List Task} {T U : Task}

structure Placed (live : List (Nat × Nat)) (tasks : List Task) : Prop where
  distinct : (tasks.map Task.proc).Nodup
  separate : (tasks.map Task.stack).Nodup
  owned : ∀ T ∈ tasks, (T.proc, procSize) ∈ live ∧ (T.stack, stackSize) ∈ live

namespace Placed

variable {c : Client σ}

theorem proc_inside (h : Placed live tasks) (hT : T ∈ tasks) {o n : Nat} (le : o + n ≤ procSize) :
    ∀ i < n, InPayload live (T.proc + o + i) := fun i hi =>
  ⟨_, (h.owned T hT).1, by dsimp only; omega, by dsimp only; omega⟩

theorem stack_inside (h : Placed live tasks) (hT : T ∈ tasks) {a : Nat} (low : T.stack ≤ a)
    (high : a < T.stack + stackSize) :
    InPayload live a :=
  ⟨_, (h.owned T hT).2, low, high⟩

theorem eq_of_proc (h : Placed live tasks) (hT : T ∈ tasks) (hU : U ∈ tasks) (same : T.proc = U.proc) : T = U :=
  List.inj_on_of_nodup_map h.distinct hT hU same

theorem procs_apart (h : Placed c.live tasks) (sound : c.Sound B) (hT : T ∈ tasks) (hU : U ∈ tasks)
    (ne : T.proc ≠ U.proc) :
    T.proc + 32 ≤ U.proc ∨ U.proc + 32 ≤ T.proc :=
  sound.apart (h.owned T hT).1 (h.owned U hU).1 fun same => ne (Prod.ext_iff.mp same).1

theorem stacks_apart (h : Placed c.live tasks) (sound : c.Sound B) (hT : T ∈ tasks) (hU : U ∈ tasks)
    (ne : T.proc ≠ U.proc) :
    T.stack + stackSize ≤ U.stack ∨ U.stack + stackSize ≤ T.stack := by
  apply sound.apart (h.owned T hT).2 (h.owned U hU).2
  intro same
  exact ne (congrArg Task.proc (List.inj_on_of_nodup_map h.separate hT hU (Prod.ext_iff.mp same).1))

theorem proc_stack_apart (h : Placed c.live tasks) (sound : c.Sound B) (hT : T ∈ tasks) (hU : U ∈ tasks) :
    T.proc + 32 ≤ U.stack ∨ U.stack + stackSize ≤ T.proc := by
  apply sound.apart (h.owned T hT).1 (h.owned U hU).2
  intro same
  have sizes : procSize = stackSize := (Prod.ext_iff.mp same).2
  cases sizes

theorem bounds (h : Placed c.live tasks) (sound : c.Sound B) (hT : T ∈ tasks) :
    0 < T.proc ∧ T.proc + 32 < 2 ^ 64 ∧ T.stack + stackSize < 2 ^ 64 ∧ T.stack % 16 = 0 := by
  have base : 0 < heapBase := by decide
  have limit : heapLimit < 2 ^ 64 := by decide
  have high := sound.high
  have first := sound.place (h.owned T hT).1
  have second := sound.place (h.owned T hT).2
  unfold procSize at first
  dsimp only at first second
  omega

/-- The stacks fill the heap before the pids run out. -/
theorem few (h : Placed c.live tasks) (sound : c.Sound B) : tasks.length ≤ 2 ^ 14 := by
  have count := List.toFinset_card_of_nodup h.separate
  have room : (tasks.map Task.stack).toFinset.card * stackSize ≤ heapLimit - heapBase := by
    apply card_mul_le
    · intro a ha
      obtain ⟨T, hT, rfl⟩ := List.mem_map.mp (List.mem_toFinset.mp ha)
      obtain ⟨low, high, _⟩ := sound.place (h.owned T hT).2
      exact ⟨low, high.trans sound.high⟩
    · intro a ha b hb ne
      obtain ⟨T, hT, rfl⟩ := List.mem_map.mp (List.mem_toFinset.mp ha)
      obtain ⟨U, hU, rfl⟩ := List.mem_map.mp (List.mem_toFinset.mp hb)
      exact sound.apart (h.owned T hT).2 (h.owned U hU).2 fun same => ne (Prod.ext_iff.mp same).1
  rw [count, List.length_map] at room
  have size : heapLimit - heapBase = 2 ^ 14 * stackSize := by decide
  rw [size] at room
  exact Nat.le_of_mul_le_mul_right room (by decide)

end Placed

structure Queue (B : Backing σ) (g : Globals σ) (procs : List Nat) : Prop where
  head : g.runQueueHead = procs.head?.getD 0
  tail : g.runQueueTail = procs.getLast?.getD 0
  ring : ∀ before p after, procs = before ++ p :: after → B.load g.heap.mem (p + 24) 8 = (after ++ procs).head?.getD 0
  pids : procs.map (fun p => B.load g.heap.mem p 4) = List.range' 1 procs.length
  nextPid : g.nextPid = procs.length + 1
  current : g.current = 0 ∨ g.current ∈ procs
  states : ∀ p ∈ procs, B.load g.heap.mem (p + 16) 4 = (if p = g.current then ProcState.running else .ready).code

theorem Queue.update (h : Queue B g procs) (head : g'.runQueueHead = g.runQueueHead)
    (tail : g'.runQueueTail = g.runQueueTail)
    (nextPid : g'.nextPid = g.nextPid) (current : g'.current = 0 ∨ g'.current ∈ procs)
    (pids : ∀ p ∈ procs, B.load g'.heap.mem p 4 = B.load g.heap.mem p 4)
    (nexts : ∀ p ∈ procs, B.load g'.heap.mem (p + 24) 8 = B.load g.heap.mem (p + 24) 8)
    (states : ∀ p ∈ procs, B.load g'.heap.mem (p + 16) 4 =
      (if p = g'.current then ProcState.running else .ready).code) :
    Queue B g' procs where
  head := head.trans h.head
  tail := tail.trans h.tail
  ring before p after split := (nexts p (by simp [split])).trans (h.ring before p after split)
  pids := (List.map_congr_left pids).trans h.pids
  nextPid := nextPid.trans h.nextPid
  current := current
  states := states

structure Joins (B : Backing σ) (g g' : Globals σ) (procs : List Nat) (p : Nat) : Prop where
  head : g'.runQueueHead = if g.runQueueHead = 0 then p else g.runQueueHead
  tail : g'.runQueueTail = p
  nextPid : g'.nextPid = g.nextPid + 1
  current : g'.current = g.current
  pids : ∀ q ∈ procs, B.load g'.heap.mem q 4 = B.load g.heap.mem q 4
  states : ∀ q ∈ procs, B.load g'.heap.mem (q + 16) 4 = B.load g.heap.mem (q + 16) 4
  nexts : ∀ q ∈ procs, q ≠ g.runQueueTail → B.load g'.heap.mem (q + 24) 8 = B.load g.heap.mem (q + 24) 8
  last : procs ≠ [] → B.load g'.heap.mem (g.runQueueTail + 24) 8 = p
  pid : B.load g'.heap.mem p 4 = g.nextPid
  state : B.load g'.heap.mem (p + 16) 4 = ProcState.ready.code
  next : B.load g'.heap.mem (p + 24) 8 = g'.runQueueHead

theorem Queue.ring_append (h : Queue B g procs) (joins : Joins B g g' procs p) (nodup : procs.Nodup)
    (head : g'.runQueueHead = (procs ++ [p]).head?.getD 0) {before after : List Nat}
    (split : procs ++ [p] = before ++ q :: after) :
    B.load g'.heap.mem (q + 24) 8 = (after ++ (procs ++ [p])).head?.getD 0 := by
  rcases List.eq_nil_or_concat after with rfl | ⟨after, r, rfl⟩
  · obtain ⟨rfl, same⟩ := List.append_inj' split rfl
    obtain ⟨rfl, _⟩ := List.cons.inj same
    rw [joins.next, head]
    rfl
  · rw [List.concat_eq_append, ← List.cons_append, ← List.append_assoc] at split
    obtain ⟨old, same⟩ := List.append_inj' split rfl
    obtain ⟨rfl, _⟩ := List.cons.inj same
    cases after with
    | nil =>
      have tail : g.runQueueTail = q := by simp [h.tail, old]
      rw [← tail, joins.last (by simp [old])]
      rfl
    | cons r after =>
      have middle : q ≠ g.runQueueTail := by
        obtain ⟨front, z, last⟩ := (List.eq_nil_or_concat (r :: after)).resolve_left (by simp)
        rw [last, List.concat_eq_append] at old
        rw [h.tail, old, List.getLast?_append_of_ne_nil _ (by simp), List.getLast?_cons, List.getLast?_concat]
        rw [old] at nodup
        exact RoundRobin.ne_of_nodup nodup
      rw [joins.nexts q (by simp [old]) middle, h.ring before q (r :: after) old]
      rfl

theorem Queue.append (h : Queue B g procs) (joins : Joins B g g' procs p) (nodup : procs.Nodup)
    (pos : ∀ q ∈ procs, q ≠ 0)
    (idle : p ≠ g.current) : Queue B g' (procs ++ [p]) := by
  have head : g'.runQueueHead = (procs ++ [p]).head?.getD 0 := by
    rw [joins.head, h.head]
    cases procs with
    | nil => rfl
    | cons q procs => simp [pos q]
  constructor
  · exact head
  · simp [joins.tail]
  · exact fun before q after split => h.ring_append joins nodup head split
  · rw [List.map_append, List.map_congr_left joins.pids, h.pids, List.map_singleton, joins.pid, h.nextPid,
      List.length_append,
      List.length_singleton, List.range'_concat, Nat.one_mul, Nat.add_comm]
  · rw [joins.nextPid, h.nextPid, List.length_append, List.length_singleton]
  · rw [joins.current, List.mem_append]
    exact h.current.imp id .inl
  · intro q hq
    rw [joins.current]
    rcases List.mem_append.mp hq with old | new
    · rw [joins.states q old, h.states q old]
    · obtain rfl := List.mem_singleton.mp new
      rw [joins.state, if_neg idle]

def Task.base (T : Task) : Word :=
  match T.saved with
  | none => BitVec.ofNat 64 (T.stack + stackSize)
  | some k => k.regs .rsp + 8#64

def Task.frame (taskReturned : Word) (T : Task) : List Word :=
  match T.saved with
  | none => [0, 0, 0, 0, 0, 0, T.entry, taskReturned]
  | some k => k.frame

structure Frozen (B : Backing σ) (taskReturned : Word) (m : σ) (T : Task) : Prop where
  aligned : T.base.toNat % 8 = 0
  top : B.load m (T.proc + 8) 8 = (T.base - BitVec.ofNat 64 (8 * (T.frame taskReturned).length)).toNat
  stack : Stacked B.toByteSpace m T.base (T.frame taskReturned)
  inside : ∀ j < (T.frame taskReturned).length, T.stack ≤ slot T.base j ∧ slot T.base j + 8 ≤ T.stack + stackSize

theorem Frozen.congr (h : Frozen B taskReturned m T)
    (field : ∀ i < 8, B.get m' (T.proc + 8 + i) = B.get m (T.proc + 8 + i))
    (stack : ∀ a, T.stack ≤ a → a < T.stack + stackSize → B.get m' a = B.get m a) : Frozen B taskReturned m' T where
  aligned := h.aligned
  top := (ByteSpace.load_congr field).trans h.top
  stack := h.stack.congr fun j hj => ByteSpace.load_congr fun i hi => by
    obtain ⟨low, high⟩ := h.inside j hj
    exact stack _ (by omega) (by omega)
  inside := h.inside

end Voyager.Sched
