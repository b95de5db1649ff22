import Voyager.Sched.Arrival

/-! # What holds in every run of the scheduler -/

namespace Voyager.Sched

open Lib Lib.X86 Lib.RoundRobin Heap ByteSpace

variable {σ : Type} {B : Backing σ} {taskReturned : Word} {s t u : System σ} {k : Core} {T : Task} {next p : Nat}

theorem Inv.step (h : Inv B taskReturned s) (step : s.Step B taskReturned t) : Inv B taskReturned t := by
  cases step with
  | work core works => exact h.work works
  | create alloc run => exact h.create alloc run
  | stay run =>
    rcases h.schedule_cases run with ⟨_, rfl, _⟩ | ⟨_, none, _⟩
    · exact h
    · cases none
  | switch switch => exact h.switch switch

theorem System.Run.inv (h : s.Run B taskReturned) : Inv B taskReturned s := by
  have initial : ∀ s : System σ, s.Start B → Inv B taskReturned s := fun _ => Inv.start
  have kept : ∀ s t : System σ, Inv B taskReturned s → s.Step B taskReturned t → Inv B taskReturned t :=
    fun _ _ => Inv.step
  exact h.invariant initial kept

/-! ### The run queue -/

/-- The ring from the head through all processes in the order of their creation, and who runs. -/
structure RunQueue (B : Backing σ) (s : System σ) : Prop where
  once : s.procs.Nodup
  head : s.globals.runQueueHead = s.procs.head?.getD 0
  tail : s.globals.runQueueTail = s.procs.getLast?.getD 0
  cycle : List.IsChain (fun p q => B.load s.mem (p + 24) 8 = q) (s.procs ++ [s.globals.runQueueHead])
  pids : (s.procs.map fun p => B.load s.mem p 4).Pairwise (· < ·)
  small : ∀ p ∈ s.procs, B.load s.mem p 4 < 2 ^ 31 -- The pids are positive as `int`.
  current : s.globals.current = 0 ∨ s.globals.current ∈ s.procs
  states : s.globals.current ≠ 0 → ∀ p ∈ s.procs,
    B.load s.mem (p + 16) 4 = (if p = s.globals.current then ProcState.running else .ready).code

theorem Queue.cycle {g : Globals σ} {procs : List Nat} (h : Queue B g procs) :
    List.IsChain (fun p q => B.load g.heap.mem (p + 24) 8 = q) (procs ++ [g.runQueueHead]) := by
  rw [List.isChain_iff_forall_rel_of_append_cons_cons]
  intro p q before after split
  rcases List.eq_nil_or_concat after with rfl | ⟨after, r, rfl⟩
  · have parts : procs ++ [g.runQueueHead] = (before ++ [p]) ++ [q] := by simpa using split
    obtain ⟨last, same⟩ := List.append_inj' parts rfl
    rw [h.ring before p [] last, List.nil_append, ← h.head]
    exact (List.cons.inj same).1
  · have parts : procs ++ [g.runQueueHead] = (before ++ p :: q :: after) ++ [r] := by simpa using split
    rw [h.ring before p (q :: after) (List.append_inj' parts rfl).1]
    rfl

theorem run_queue (h : s.Run B taskReturned) : RunQueue B s := by
  have inv := h.inv
  constructor
  · exact inv.placed.distinct
  · exact inv.queue.head
  · exact inv.queue.tail
  · exact inv.queue.cycle
  · have pids : s.procs.map (fun p => B.load s.mem p 4) = List.range' 1 s.procs.length := inv.queue.pids
    rw [pids]
    exact List.pairwise_lt_range' 1
  · intro p hp
    have member := List.mem_map_of_mem (f := fun p => B.load s.globals.heap.mem p 4) hp
    rw [inv.queue.pids, List.mem_range'_1] at member
    have few := inv.placed.few inv.sound
    have count : s.procs.length = s.tasks.length := List.length_map _
    change B.load s.globals.heap.mem p 4 < 2 ^ 31
    omega
  · exact inv.queue.current
  · exact fun _ => inv.queue.states

/-! ### Tasks between two turns -/

/-- Steps in none of which the process `p` gets its turn. -/
def System.Meanwhile (B : Backing σ) (taskReturned : Word) (p : Nat) : System σ → System σ → Prop :=
  Relation.ReflTransGen fun s t => s.Step B taskReturned t ∧ t.globals.current ≠ p

theorem System.Step.keeps_task (step : s.Step B taskReturned t) (hT : T ∈ s.tasks)
    (ne : T.proc ≠ s.globals.current) :
    T ∈ t.tasks := by
  cases step with
  | work core works => exact hT
  | create alloc run => exact List.mem_append_left _ hT
  | stay run => exact hT
  | switch switch =>
    cases switch with
    | intro picks enters run => exact List.mem_map.mpr ⟨T, hT, if_neg ne⟩

theorem System.Meanwhile.keeps_task (h : System.Meanwhile B taskReturned T.proc s t) (run : s.Run B taskReturned)
    (hT : T ∈ s.tasks)
    (ne : s.globals.current ≠ T.proc) : t.Run B taskReturned ∧ T ∈ t.tasks ∧ t.globals.current ≠ T.proc := by
  induction h with
  | refl => exact ⟨run, hT, ne⟩
  | tail _ last ih =>
    obtain ⟨run, hT, ne⟩ := ih
    exact ⟨.step run last.1, last.1.keeps_task hT ne.symm, last.2⟩

theorem Inv.resumes (h : Inv B taskReturned s) (hT : T ∈ s.tasks) (switch : s.Switch B T.proc k t) :
    Resumed B taskReturned T t.core t.mem := by
  obtain ⟨c, rfl, handover, _⟩ := h.switch_cases switch
  exact handover.resumed T hT rfl

theorem Inv.context_eq (h : Inv B taskReturned s) (hT : T ∈ s.tasks) (current : T.proc = s.globals.current)
    (follows : Follows s.procs s.globals.current next) (enters : s.Enters k next) :
    System.context B (picked B s.globals next) k = ⟨k.regs, BitVec.ofNat 64 (B.load s.mem (k.regs .rsp).toNat 8)⟩ := by
  obtain ⟨_, low, high⟩ := enters.stack T hT current
  have same : B.load (picked B s.globals next).heap.mem (k.regs .rsp).toNat 8 = B.load s.mem (k.regs .rsp).toNat 8 := by
    refine ByteSpace.load_congr fun i hi => h.picked_kept follows (h.placed.stack_inside hT (by omega) (by omega)) ?_
    exact h.stack_off_states hT (by omega) (by omega)
  rw [System.context, same]

theorem Inv.leaves (h : Inv B taskReturned s) (switch : s.Switch B next k t) (hT : T ∈ s.tasks)
    (current : T.proc = s.globals.current) :
    { T with saved := some ⟨k.regs, BitVec.ofNat 64 (B.load s.mem (k.regs .rsp).toNat 8)⟩ } ∈ t.tasks ∧
      t.globals.current ≠ T.proc := by
  have enters : s.Enters k next := by
    cases switch with
    | intro _ enters _ => exact enters
  obtain ⟨c, rfl, handover, follows⟩ := h.switch_cases switch
  obtain ⟨here, ne⟩ := h.follows_member follows
  rw [← h.context_eq hT current follows enters]
  constructor
  · exact List.mem_map.mpr ⟨T, hT, if_pos current⟩
  · change (BitVec.ofNat 64 next).toNat ≠ T.proc
    rw [h.toNat_next here, current]
    exact ne

theorem Inv.can_switch (h : Inv B taskReturned s) {g : Globals σ} (picks : s.Picks B next g)
    (enters : s.Enters k next) :
    ∃ t, s.Switch B next k t := by
  obtain ⟨rfl, follows⟩ := h.picks picks
  obtain ⟨c, run, _⟩ := h.switchTo_run follows enters
  exact ⟨_, .intro picks enters run⟩

/-- A task that calls `switch_to` comes back behind the call with its registers, and a new one enters its
function, whatever the others did. No switch fails. -/
structure Undisturbed (B : Backing σ) (taskReturned : Word) (s : System σ) : Prop where
  switches : ∀ next g k, s.Picks B next g → s.Enters k next → ∃ t, s.Switch B next k t
  returns : ∀ p next k t u k' v, s.globals.current = p → p ≠ 0 → s.Switch B next k t →
    System.Meanwhile B taskReturned p t u →
    u.Switch B p k' v → v.core.rip = BitVec.ofNat 64 (B.load s.mem (k.regs .rsp).toNat 8) ∧
      (∀ r ∈ calleeSaved, v.core.regs r = k.regs r) ∧ v.core.regs .rsp = k.regs .rsp + 8#64
  enters : ∀ p q stack entry heap g u k v, allocProcess B s.globals.heap = .ok (p, stack, heap) →
    createProcess B taskReturned s.globals entry = .ok (q, g) →
      System.Meanwhile B taskReturned q (s.created g q stack entry) u →
    u.Switch B q k v → v.core.rip = entry ∧ (∀ r ∈ calleeSaved, v.core.regs r = 0) ∧ (v.core.regs .rsp).toNat % 16 = 8 ∧
      B.load v.mem (v.core.regs .rsp).toNat 8 = taskReturned.toNat ∧
      stack ≤ (v.core.regs .rsp).toNat ∧ (v.core.regs .rsp).toNat + 8 ≤ stack + stackSize

theorem tasks_undisturbed (h : s.Run B taskReturned) : Undisturbed B taskReturned s := by
  have inv := h.inv
  constructor
  · exact fun next g k picks enters => inv.can_switch picks enters
  · intro p next k t u k' v current pos leave meanwhile back
    obtain ⟨T, hT, here⟩ := Inv.member (inv.queue.current.resolve_left (current ▸ pos))
    obtain ⟨left, ne⟩ := inv.leaves leave hT here
    rw [← current, ← here] at meanwhile back
    obtain ⟨run, still, _⟩ := meanwhile.keeps_task (T := { T with saved := some _ }) (.step h (.switch leave)) left ne
    exact run.inv.resumes still back
  · intro p q stack entry heap g u k v alloc create meanwhile enter
    have created : (s.created g q stack entry).Run B taskReturned := .step h (.create alloc create)
    have member : (⟨q, stack, entry, none⟩ : Task) ∈ (s.created g q stack entry).tasks :=
      List.mem_append_right _ List.mem_cons_self
    have ne : (s.created g q stack entry).globals.current ≠ q := by
      obtain ⟨rfl, rfl⟩ := created_run inv alloc create
      exact (created_idle inv alloc).2.symm
    obtain ⟨run, still, _⟩ := meanwhile.keeps_task (T := ⟨q, stack, entry, none⟩) created member ne
    exact run.inv.resumes still enter

/-! ### A system to run -/

theorem flat_allocProcess {s : Heap.State Client.FlatMemory} {live : List (Nat × Nat)}
    (sound : Client.Sound Client.flatBacking ⟨s, live⟩)
    (room : s.heapCurr + 256 * pageSize ≤ heapLimit) :
    ∃ p stack h, allocProcess Client.flatBacking s = .ok (p, stack, h) ∧
      h.heapCurr ≤ s.heapCurr + 256 * pageSize := by
  unfold pageSize at room
  obtain ⟨p, s₁, first, grown⟩ := sound.malloc_returns procSize (by decide) (by decide)
    (by dsimp only [pageSize]; omega)
    (Client.flat_mapPages _ _ _)
  obtain ⟨pos, _, sound₁, _⟩ := sound.malloc (by decide) (by decide) first
  obtain ⟨m₂, cleared, sound₂, _⟩ := memset_run (m := s₁.mem) (v := 0) (a := p) (n := procSize) sound₁.region sound₁
    fun i hi => ⟨(p, procSize), List.mem_cons_self, by simp, by simpa using hi⟩
  unfold pageSize at grown
  dsimp only at grown
  obtain ⟨stack, s₃, second, grown'⟩ := sound₂.malloc_returns stackSize (by decide) (by decide)
    (by dsimp only [pageSize, Client.withMem]; omega) (Client.flat_mapPages _ _ _)
  obtain ⟨pos', _, sound₃, _⟩ := sound₂.malloc (by decide) (by decide) second
  obtain ⟨m₄, cleared', _⟩ := memset_run (m := s₃.mem) (v := 0) (a := stack) (n := stackSize) sound₃.region sound₃
    fun i hi => ⟨(stack, stackSize), List.mem_cons_self, by simp, by simpa using hi⟩
  have second : kmalloc Client.flatBacking (setMem s₁ m₂) stackSize = .ok (stack, s₃) := second
  refine ⟨p, stack, setMem s₃ m₄, ?_, ?_⟩
  · rw [allocProcess, bind_eq first]
    dsimp only
    rw [if_neg pos, bind_eq cleared, bind_eq second]
    dsimp only
    rw [if_neg pos', bind_eq cleared']
    rfl
  · unfold pageSize at grown' ⊢
    dsimp only [Client.withMem, setMem] at grown' ⊢
    omega

theorem flat_create {s : System Client.FlatMemory} (run : s.Run Client.flatBacking taskReturned)
    (room : s.globals.heap.heapCurr + 256 * pageSize ≤ heapLimit) :
    ∃ (t : System Client.FlatMemory) (p : Nat),
      t.Run Client.flatBacking taskReturned ∧ t.procs = s.procs ++ [p] ∧ t.globals.current = s.globals.current ∧
      t.globals.heap.heapCurr ≤ s.globals.heap.heapCurr + 256 * pageSize := by
  have inv := run.inv
  obtain ⟨p, stack, heap, alloc, grown⟩ := flat_allocProcess inv.sound room
  have create := created_eq inv alloc (show (1 : Word) ≠ 0 by decide)
  exact ⟨_, p, .step run (.create alloc create), List.map_append, rfl, grown⟩

theorem flat_init (taskReturned : Word) :
    ∃ s : System Client.FlatMemory, s.Run Client.flatBacking taskReturned ∧ s.procs = [] ∧ s.globals.current = 0 ∧
    s.globals.heap.heapCurr = heapBase + 64 * pageSize := by
  have backed : Client.flatBacking.backed ⟨fun _ => 0, heapBase⟩ heapBase := rfl
  obtain ⟨m, mapped⟩ := Client.flat_mapPages ⟨fun _ => 0, heapBase⟩ heapBase 64
  obtain ⟨h, init, _, curr, _⟩ := heapMapMore_run (empty_shaped backed) (show 0 < 64 * pageSize by decide) (by decide)
    (show heapBase + alignUp (64 * pageSize) pageSize ≤ heapLimit by decide) mapped
  let core : Core := ⟨fun _ => 0, fun _ => 0, fun _ => 0, 0, 0⟩
  refine ⟨⟨initScheduler h, core, [], [], []⟩, .start ⟨.start ?_, rfl, rfl, rfl⟩, rfl, rfl, curr⟩
  exact ⟨_, backed, init, rfl⟩

theorem Inv.exists_switch (h : Inv B taskReturned s) (follows : Follows s.procs s.globals.current next) :
    ∃ k t, s.Switch B next k t ∧ t.procs = s.procs ∧ t.globals.current = next := by
  let regs : Nat → Reg → Word := fun rsp r => if r = .rsp then BitVec.ofNat 64 rsp else BitVec.ofNat 64 next
  have enters : ∃ k, s.Enters k next := by
    by_cases running : ∃ T ∈ s.tasks, T.proc = s.globals.current
    · obtain ⟨T, hT, current⟩ := running
      obtain ⟨_, _, fits, aligned⟩ := h.placed.bounds h.sound hT
      have size : stackSize = 16384 := rfl
      refine ⟨{ s.core with regs := regs (T.stack + 8192) }, rfl, fun U hU same => ?_⟩
      obtain rfl := h.placed.eq_of_proc hU hT (same.trans current.symm)
      have rsp : (BitVec.ofNat 64 (U.stack + 8192)).toNat = U.stack + 8192 := by
        rw [BitVec.toNat_ofNat]
        omega
      change (BitVec.ofNat 64 (U.stack + 8192)).toNat % 8 = 0 ∧
        U.stack + 48 ≤ (BitVec.ofNat 64 (U.stack + 8192)).toNat ∧
        (BitVec.ofNat 64 (U.stack + 8192)).toNat + 8 ≤ U.stack + stackSize
      omega
    · exact ⟨{ s.core with regs := regs 0 }, rfl, fun T hT current => absurd ⟨T, hT, current⟩ running⟩
  obtain ⟨k, enters⟩ := enters
  obtain ⟨t, switch⟩ := h.can_switch (.inl (h.schedule_picks follows)) enters
  refine ⟨k, t, switch, ?_⟩
  obtain ⟨c, rfl, _⟩ := h.switch_cases switch
  exact ⟨switched_procs, h.toNat_next (h.follows_member follows).1⟩

theorem flat_pair (taskReturned : Word) :
    ∃ (s : System Client.FlatMemory) (a b : Nat), s.Run Client.flatBacking taskReturned ∧ s.procs = [a, b] ∧
    s.globals.current = a := by
  obtain ⟨s, run, none, idle, curr⟩ := flat_init taskReturned
  obtain ⟨s₁, a, run₁, procs₁, same₁, grown₁⟩ := flat_create run (by rw [curr]; decide)
  obtain ⟨s₂, b, run₂, procs₂, same₂, _⟩ := flat_create run₁
    (Nat.le_trans (Nat.add_le_add_right grown₁ _) (by rw [curr]; decide))
  rw [procs₁, none] at procs₂
  have follows : Follows s₂.procs s₂.globals.current a := .inl ⟨by rw [same₂, same₁, idle], [b], procs₂⟩
  obtain ⟨k, t, switch, procs, current⟩ := run₂.inv.exists_switch follows
  exact ⟨t, a, b, .step run₂ (.switch switch), procs.trans procs₂, current⟩

theorem flat_round (taskReturned : Word) :
    ∃ (s t v : System Client.FlatMemory) (a b : Nat) (k k' : Core), s.Run Client.flatBacking taskReturned ∧
    s.procs = [a, b] ∧ s.globals.current = a ∧ a ≠ 0 ∧ s.Switch Client.flatBacking b k t ∧
      t.Switch Client.flatBacking a k' v := by
  obtain ⟨s, a, b, run, procs, current⟩ := flat_pair taskReturned
  have pos : a ≠ 0 := run.inv.pos (by simp [procs])
  have first : Follows s.procs s.globals.current b :=
    .inr ⟨current ▸ pos, [], [b], [], by rw [procs, current]; rfl, rfl⟩
  obtain ⟨k, t, away, procs', current'⟩ := run.inv.exists_switch first
  have run' : t.Run Client.flatBacking taskReturned := .step run (.switch away)
  have second : Follows t.procs t.globals.current a := by
    rw [procs', procs, current']
    exact .inr ⟨run.inv.pos (by simp [procs]), [a], [], [], rfl, rfl⟩
  obtain ⟨k', v, back, _⟩ := run'.inv.exists_switch second
  exact ⟨s, t, v, a, b, k, k', run, procs, current, pos, away, back⟩

theorem run_queue_pair : ∃ (s : System Client.FlatMemory) (a b : Nat),
    s.Run Client.flatBacking 0x1000 ∧ s.procs = [a, b] ∧
    s.globals.current = a ∧ RunQueue Client.flatBacking s := by
  obtain ⟨s, a, b, run, procs, current⟩ := flat_pair 0x1000
  exact ⟨s, a, b, run, procs, current, run_queue run⟩

theorem tasks_undisturbed_pair : ∃ (s t v : System Client.FlatMemory) (a b : Nat) (k k' : Core),
    s.Run Client.flatBacking 0x1000 ∧
    s.globals.current = a ∧ s.Switch Client.flatBacking b k t ∧ t.Switch Client.flatBacking a k' v ∧
    v.core.rip = BitVec.ofNat 64 (Client.flatBacking.load s.mem (k.regs .rsp).toNat 8) ∧
    (∀ r ∈ calleeSaved, v.core.regs r = k.regs r) ∧ v.core.regs .rsp = k.regs .rsp + 8#64 := by
  obtain ⟨s, t, v, a, b, k, k', run, _, current, pos, away, back⟩ := flat_round 0x1000
  exact ⟨s, t, v, a, b, k, k', run, current, away, back,
    (tasks_undisturbed run).returns a b k t t k' v current pos away .refl back⟩

end Voyager.Sched
