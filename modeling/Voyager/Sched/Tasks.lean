import Voyager.Sched.RunQueue

/-! # Every run of the scheduler -/

namespace Voyager.Sched

open Lib Lib.X86 Lib.RoundRobin Heap ByteSpace

variable {σ : Type} {B : Backing σ} {taskReturned : Word} {s t : System σ} {m : σ} {k core : Core} {T U : Task} {next : Nat}

structure Inv (B : Backing σ) (taskReturned : Word) (s : System σ) : Prop where
  sound : s.client.Sound B
  placed : Placed s.live s.tasks
  queue : Queue B s.globals s.procs
  frozen : ∀ T ∈ s.tasks, T.proc ≠ s.globals.current → Frozen B taskReturned s.mem T

namespace Inv

theorem start (h : s.Start B) : Inv B taskReturned s := by
  obtain ⟨run, init, none, _⟩ := h
  have queue : Queue B s.globals s.procs := by
    rw [init, System.procs, none]
    constructor
    · rfl
    · rfl
    · intro before p after split
      simp at split
    · rfl
    · rfl
    · exact .inl rfl
    · simp
  refine ⟨run.inv, ?_, queue, by simp [none]⟩
  rw [none]
  exact ⟨List.nodup_nil, List.nodup_nil, by simp⟩

theorem region (h : Inv B taskReturned s) : B.Region (fun m => (s.client.withMem m).Sound B) (InPayload s.live) :=
  h.sound.region

theorem member {p : Nat} (hp : p ∈ s.procs) : ∃ T ∈ s.tasks, T.proc = p := List.mem_map.mp hp

theorem pos (h : Inv B taskReturned s) {p : Nat} (hp : p ∈ s.procs) : p ≠ 0 := by
  obtain ⟨T, hT, rfl⟩ := member hp
  have := (h.placed.bounds h.sound hT).1
  omega

/-! ### Work -/

theorem off_stack (h : Inv B taskReturned s) (hT : T ∈ s.tasks) {a : Nat} (low : T.proc ≤ a)
    (high : a < T.proc + 32) :
    ¬ s.OwnStack a := by
  rintro ⟨U, hU, _, ulow, uhigh⟩
  have := h.placed.proc_stack_apart h.sound hT hU
  omega

theorem off_other_stack (h : Inv B taskReturned s) (hT : T ∈ s.tasks) (ne : T.proc ≠ s.globals.current) {a : Nat}
    (low : T.stack ≤ a) (high : a < T.stack + stackSize) : ¬ s.OwnStack a := by
  rintro ⟨U, hU, current, ulow, uhigh⟩
  have := h.placed.stacks_apart h.sound hT hU fun same => ne (same.trans current)
  omega

theorem works_sound (h : Inv B taskReturned s) (works : s.Works B m) : (s.client.withMem m).Sound B := by
  by_cases running : ∃ T ∈ s.tasks, T.proc = s.globals.current
  · obtain ⟨T, hT, current⟩ := running
    apply h.sound.rewrite (h.placed.owned T hT).2 works.backed
    intro a low high out
    apply works.others a low high
    rintro ⟨U, hU, same, ulow, uhigh⟩
    obtain rfl := h.placed.eq_of_proc hU hT (same.trans current.symm)
    dsimp only at out
    omega
  · apply h.sound.same works.backed
    intro a low high
    apply works.others a low high
    rintro ⟨U, hU, same, _⟩
    exact running ⟨U, hU, same⟩

theorem work (h : Inv B taskReturned s) (works : s.Works B m) : Inv B taskReturned { s.withMem m with core } := by
  have kept : ∀ a, InPayload s.live a → ¬ s.OwnStack a → B.get m a = B.get s.mem a := by
    intro a inside off
    obtain ⟨low, high⟩ := h.sound.in_window inside
    exact works.others a low high off
  have field : ∀ p ∈ s.procs, ∀ o n, o + n ≤ 32 → B.load m (p + o) n = B.load s.mem (p + o) n := by
    intro p hp o n le
    obtain ⟨T, hT, rfl⟩ := member hp
    refine ByteSpace.load_congr fun i hi => kept _ (h.placed.proc_inside hT le i hi) ?_
    exact h.off_stack hT (by omega) (by omega)
  constructor
  · exact h.works_sound works
  · exact h.placed
  · apply h.queue.update
    · rfl
    · rfl
    · rfl
    · exact h.queue.current
    · exact fun p hp => field p hp 0 4 (by omega)
    · exact fun p hp => field p hp 24 8 (by omega)
    · exact fun p hp => (field p hp 16 4 (by omega)).trans (h.queue.states p hp)
  · intro T hT ne
    apply (h.frozen T hT ne).congr
    · intro i hi
      exact kept _ (h.placed.proc_inside hT (by decide) i hi) (h.off_stack hT (by omega) (by omega))
    · intro a low high
      exact kept a (h.placed.stack_inside hT low high) (h.off_other_stack hT ne low high)

end Inv

/-! ### `schedule` -/

/-- The process whose turn it is after `current`. -/
def Follows (procs : List Nat) (current next : Nat) : Prop :=
  (current = 0 ∧ ∃ rest, procs = next :: rest) ∨
    (current ≠ 0 ∧ ∃ before after rest, procs = before ++ current :: after ∧ after ++ before = next :: rest)

def statePokes (current next : Nat) : List Poke :=
  (if current = 0 then [] else [⟨current + 16, ProcState.ready.code, 4⟩]) ++ [⟨next + 16, ProcState.running.code, 4⟩]

def picked (B : Backing σ) (g : Globals σ) (next : Nat) : Globals σ :=
  { g with heap := setMem g.heap (B.stores g.heap.mem (statePokes g.current next)) }

namespace Inv

theorem follows_member (h : Inv B taskReturned s) (follows : Follows s.procs s.globals.current next) :
    next ∈ s.procs ∧ next ≠ s.globals.current := by
  rcases follows with ⟨zero, rest, split⟩ | ⟨_, before, after, rest, split, follow⟩
  · have here : next ∈ s.procs := by simp [split]
    exact ⟨here, zero ▸ h.pos here⟩
  · have here : next ∈ after ++ before := follow ▸ List.mem_cons_self
    have nodup : s.procs.Nodup := h.placed.distinct
    rw [split] at nodup ⊢
    rw [List.nodup_append_comm, List.cons_append, List.nodup_cons] at nodup
    constructor
    · simp only [List.mem_append, List.mem_cons] at here ⊢
      tauto
    · rintro rfl
      exact nodup.1 here

theorem nextProcess_run (h : Inv B taskReturned s) (follows : Follows s.procs s.globals.current next) :
    nextProcess B s.globals = .ok next := by
  unfold nextProcess
  rcases follows with ⟨zero, rest, split⟩ | ⟨running, before, after, rest, split, follow⟩
  · rw [if_neg (by simpa using zero), h.queue.head, split]
    rfl
  · have here : s.globals.current ∈ s.procs := by simp [split]
    obtain ⟨T, hT, current⟩ := member here
    have inside := h.placed.proc_inside hT (o := 24) (n := 8) (by decide)
    rw [current] at inside
    have link := h.queue.ring before _ after split
    rw [split, ← List.append_assoc, follow] at link
    rw [if_pos running]
    exact (readWord_run (s := s.globals.heap) h.region h.sound inside).trans (congrArg Except.ok link)

theorem state_inside (h : Inv B taskReturned s) {p : Nat} (hp : p ∈ s.procs) :
    ∀ i < 4, InPayload s.live (p + 16 + i) := by
  obtain ⟨T, hT, rfl⟩ := member hp
  exact h.placed.proc_inside hT (by decide)

theorem schedule_picks (h : Inv B taskReturned s) (follows : Follows s.procs s.globals.current next) :
    schedule B s.globals = .ok (some next, picked B s.globals next) := by
  obtain ⟨here, ne⟩ := h.follows_member follows
  have head : s.globals.runQueueHead ≠ 0 := by
    rw [h.queue.head]
    cases procs : s.procs with
    | nil => simp [procs] at here
    | cons p rest => exact h.pos (by simp [procs])
  rw [schedule, if_neg head, bind_eq (h.nextProcess_run follows), if_neg (h.pos here), if_neg fun same => ne same.2]
  unfold picked statePokes readyCurrent
  by_cases idle : s.globals.current = 0
  · have write := writeInt_run (s := s.globals.heap) (v := ProcState.running.code) h.region h.sound
      (h.state_inside here)
    rw [if_neg (by simpa using idle), if_pos idle, ok_bind]
    exact bind_eq write
  · have old := h.state_inside (h.queue.current.resolve_left idle)
    have first := writeInt_run (s := s.globals.heap) (v := ProcState.ready.code) h.region h.sound old
    have second := writeInt_run (s := s.globals.heap) (v := ProcState.running.code) h.region
      (h.region.keep_store (v := ProcState.ready.code) h.sound old) (h.state_inside here)
    rw [if_pos idle, if_neg idle, bind_eq (show writeInt B s.globals.heap _ _ = _ from first), bind_eq second]
    rfl

theorem schedule_stays (h : Inv B taskReturned s) (alone : s.procs = [] ∨ s.procs = [s.globals.current]) :
    schedule B s.globals = .ok (none, s.globals) := by
  rcases alone with empty | single
  · have head := h.queue.head
    rw [empty] at head
    exact if_pos head
  · have here : s.globals.current ∈ s.procs := by simp [single]
    have head : s.globals.runQueueHead = s.globals.current := by simp [h.queue.head, single]
    obtain ⟨T, hT, current⟩ := member here
    have inside := h.placed.proc_inside hT (o := 24) (n := 8) (by decide)
    rw [current] at inside
    have link := h.queue.ring [] s.globals.current [] single
    rw [single] at link
    have next : nextProcess B s.globals = .ok s.globals.current := by
      rw [nextProcess, if_pos (h.pos here)]
      exact (readWord_run (s := s.globals.heap) h.region h.sound inside).trans (congrArg Except.ok link)
    rw [schedule, head, if_neg (h.pos here), bind_eq next, if_neg (h.pos here), if_pos ⟨h.pos here, rfl⟩]
    rfl

theorem alone_or_follows (h : Inv B taskReturned s) :
    (s.procs = [] ∨ s.procs = [s.globals.current]) ∨ ∃ next, Follows s.procs s.globals.current next := by
  rcases h.queue.current with zero | here
  · cases procs : s.procs with
    | nil => exact .inl (.inl rfl)
    | cons p rest => exact .inr ⟨p, .inl ⟨zero, rest, rfl⟩⟩
  · obtain ⟨before, after, split⟩ := List.append_of_mem here
    cases others : after ++ before with
    | nil =>
      obtain ⟨rfl, rfl⟩ := List.append_eq_nil_iff.mp others
      exact .inl (.inr split)
    | cons p rest => exact .inr ⟨p, .inr ⟨h.pos here, before, after, rest, split, others⟩⟩

theorem schedule_cases (h : Inv B taskReturned s) {g : Globals σ} {r : Option Nat}
    (run : schedule B s.globals = .ok (r, g)) :
    (r = none ∧ g = s.globals ∧ (s.procs = [] ∨ s.procs = [s.globals.current])) ∨
      ∃ next, r = some next ∧ g = picked B s.globals next ∧ Follows s.procs s.globals.current next := by
  rcases h.alone_or_follows with alone | ⟨next, follows⟩
  · cases (h.schedule_stays alone).symm.trans run
    exact .inl ⟨rfl, rfl, alone⟩
  · cases (h.schedule_picks follows).symm.trans run
    exact .inr ⟨next, rfl, rfl, follows⟩

theorem picks (h : Inv B taskReturned s) {g : Globals σ} (picks : s.Picks B next g) :
    g = picked B s.globals next ∧ Follows s.procs s.globals.current next := by
  have run : schedule B s.globals = .ok (some next, g) := by
    rcases picks with run | run
    · exact run
    · unfold schedulerStart at run
      split at run
      · cases run
      · split at run
        · cases run
        · obtain ⟨⟨r, g'⟩, inner, run⟩ := bind_ok run
          cases r with
          | none => cases run
          | some p =>
            cases run
            exact inner
  rcases h.schedule_cases run with ⟨none, _⟩ | ⟨p, same, globals, follows⟩
  · cases none
  · cases same
    exact ⟨globals, follows⟩

end Inv

/-! ### `switch_to` -/

/-- The task goes on behind its own call of `switch_to`; a new one enters its function. -/
def Resumed (B : Backing σ) (taskReturned : Word) (T : Task) (core : Core) (m : σ) : Prop :=
  match T.saved with
  | some k => core.rip = k.rip ∧ (∀ r ∈ calleeSaved, core.regs r = k.regs r) ∧ core.regs .rsp = k.regs .rsp + 8#64
  | none => core.rip = T.entry ∧ (∀ r ∈ calleeSaved, core.regs r = 0) ∧ (core.regs .rsp).toNat % 16 = 8 ∧
      B.load m (core.regs .rsp).toNat 8 = taskReturned.toNat ∧
      T.stack ≤ (core.regs .rsp).toNat ∧ (core.regs .rsp).toNat + 8 ≤ T.stack + stackSize

theorem Frozen.resume {P : σ → Prop} {D : Nat → Prop} {c : Cpu σ} (h : Frozen B taskReturned c.mem T)
    (R : B.Region P D)
    (state : P c.mem) (rdi : c.regs .rdi = BitVec.ofNat 64 T.proc) (small : T.proc + 16 ≤ 2 ^ 64)
    (field : ∀ i < 8, D (T.proc + 8 + i)) (own : ∀ a, T.stack ≤ a → a < T.stack + stackSize → D a)
    (fits : T.stack + stackSize < 2 ^ 64) (aligned : T.stack % 16 = 0) :
    ∃ c', loadIncoming B c = .ok c' ∧ c'.mem = c.mem ∧ Resumed B taskReturned T c'.toCore c.mem := by
  have inside : ∀ j < (T.frame taskReturned).length, ∀ i < 8, D (slot T.base j + i) := by
    intro j hj i hi
    obtain ⟨low, high⟩ := h.inside j hj
    exact own _ (by omega) (by omega)
  cases saved : T.saved with
  | some k =>
    have framed : T.frame taskReturned = k.frame ++ [] := by simp [Task.frame, saved]
    have short : (T.frame taskReturned).length ≤ 2 ^ 60 := by simp [framed, Context.frame]
    obtain ⟨c', run, mem, rip, regs, rsp, _⟩ :=
      loadIncoming_run R state rdi small field h.aligned short h.top h.stack inside framed
    refine ⟨c', run, mem, ?_⟩
    rw [Resumed, saved]
    refine ⟨rip, regs, rsp.trans ?_⟩
    simp [Task.base, saved]
  | none =>
    have framed : T.frame taskReturned = (⟨fun _ => 0, T.entry⟩ : Context).frame ++ [taskReturned] := by
      simp [Task.frame, saved, Context.frame]
    have short : (T.frame taskReturned).length ≤ 2 ^ 60 := by simp [framed, Context.frame]
    obtain ⟨c', run, mem, rip, regs, rsp, rest⟩ :=
      loadIncoming_run R state rdi small field h.aligned short h.top h.stack inside framed
    refine ⟨c', run, mem, ?_⟩
    have top : (c'.regs .rsp).toNat = T.stack + 16376 := by
      rw [rsp]
      simp only [Task.base, saved, List.length_singleton]
      unfold stackSize at fits ⊢
      rw [BitVec.toNat_sub, BitVec.toNat_ofNat, BitVec.toNat_ofNat]
      omega
    have here : B.load c.mem (c'.regs .rsp).toNat 8 = taskReturned.toNat := by
      rw [rsp]
      exact rest.1
    rw [Resumed, saved]
    refine ⟨rip, regs, ?_, here, ?_, ?_⟩ <;> rw [top]
    · omega
    · omega
    · unfold stackSize
      omega

/-- Off the running stack and the `rsp` of its task, memory is as `schedule` left it. -/
def Spares (B : Backing σ) (s : System σ) (next : Nat) (m : σ) : Prop :=
  ∀ a, InPayload s.live a → ¬ s.OwnStack a → a < s.globals.current + 8 ∨ s.globals.current + 16 ≤ a →
    B.get m a = B.get (picked B s.globals next).heap.mem a

namespace Inv

variable (h : Inv B taskReturned s)

include h

theorem fields_apart {p q : Nat} (hp : p ∈ s.procs) (hq : q ∈ s.procs) (ne : p ≠ q) :
    p + 32 ≤ q ∨ q + 32 ≤ p := by
  obtain ⟨T, hT, rfl⟩ := member hp
  obtain ⟨U, hU, rfl⟩ := member hq
  exact h.placed.procs_apart h.sound hT hU ne

theorem off_current (hT : T ∈ s.tasks) {a : Nat} (low : T.proc ≤ a) (high : a < T.proc + 32)
    (rsp : T.proc = s.globals.current → a < T.proc + 8 ∨ T.proc + 16 ≤ a) :
    a < s.globals.current + 8 ∨ s.globals.current + 16 ≤ a := by
  rcases h.queue.current with zero | here
  · have := h.placed.owned T hT
    have := h.sound.place this.1
    have base : 16 ≤ heapBase := by decide
    dsimp only at this
    omega
  · by_cases same : T.proc = s.globals.current
    · omega
    · have := h.fields_apart (List.mem_map_of_mem hT) here same
      omega

theorem off_states (hT : T ∈ s.tasks) {a : Nat} (low : T.proc ≤ a) (high : a < T.proc + 32)
    (state : a < T.proc + 16 ∨ T.proc + 20 ≤ a) : ∀ U ∈ s.tasks, a < U.proc + 16 ∨ U.proc + 20 ≤ a := by
  intro U hU
  by_cases same : T.proc = U.proc
  · omega
  · have := h.placed.procs_apart h.sound hT hU same
    omega

theorem stack_off_states (hT : T ∈ s.tasks) {a : Nat} (low : T.stack ≤ a) (high : a < T.stack + stackSize) :
    ∀ U ∈ s.tasks, a < U.proc + 16 ∨ U.proc + 20 ≤ a := by
  intro U hU
  have := h.placed.proc_stack_apart h.sound hU hT
  omega

theorem stack_off_current (hT : T ∈ s.tasks) {a : Nat} (low : T.stack ≤ a) (high : a < T.stack + stackSize) :
    a < s.globals.current + 8 ∨ s.globals.current + 16 ≤ a := by
  rcases h.queue.current with zero | here
  · have := h.sound.place (h.placed.owned T hT).2
    have base : 16 ≤ heapBase := by decide
    dsimp only at this
    omega
  · obtain ⟨U, hU, current⟩ := member here
    have := h.placed.proc_stack_apart h.sound hU hT
    omega

theorem spared_field {m : σ} {p o n : Nat} (kept : Spares B s next m) (hp : p ∈ s.procs) (le : o + n ≤ 32)
    (off : o + n ≤ 8 ∨ 16 ≤ o) : B.load m (p + o) n = B.load (picked B s.globals next).heap.mem (p + o) n := by
  obtain ⟨T, hT, rfl⟩ := member hp
  refine ByteSpace.load_congr fun i hi => kept _ (h.placed.proc_inside hT le i hi) ?_ ?_
  · exact h.off_stack hT (by omega) (by omega)
  · exact h.off_current hT (by omega) (by omega) fun _ => by omega

section Picked

variable (follows : Follows s.procs s.globals.current next)

include follows

theorem statePokes_inside {w : Poke}
    (hw : w ∈ statePokes s.globals.current next) : w.width = 4 ∧ ∃ T ∈ s.tasks, w.addr = T.proc + 16 := by
  obtain ⟨T, hT, rfl⟩ := member (h.follows_member follows).1
  unfold statePokes at hw
  split at hw
  · rw [List.nil_append, List.mem_singleton] at hw
    exact hw ▸ ⟨rfl, T, hT, rfl⟩
  · rename_i idle
    obtain ⟨U, hU, current⟩ := member (h.queue.current.resolve_left idle)
    rcases List.mem_append.mp hw with old | new
    · rw [List.mem_singleton] at old
      exact old ▸ ⟨rfl, U, hU, by rw [current]⟩
    · rw [List.mem_singleton] at new
      exact new ▸ ⟨rfl, T, hT, rfl⟩

theorem statePokes_payload :
    ∀ w ∈ statePokes s.globals.current next, ∀ i < w.width, InPayload s.live (w.addr + i) := by
  intro w hw i hi
  obtain ⟨width, T, hT, addr⟩ := h.statePokes_inside follows hw
  rw [addr]
  exact h.placed.proc_inside hT (show 16 + 4 ≤ procSize by decide) i (by omega)

theorem picked_sound :
    (s.client.withMem (picked B s.globals next).heap.mem).Sound B :=
  h.region.keep_stores h.sound (h.statePokes_payload follows)

theorem picked_kept {a : Nat}
    (inside : InPayload s.live a) (off : ∀ T ∈ s.tasks, a < T.proc + 16 ∨ T.proc + 20 ≤ a) :
    B.get (picked B s.globals next).heap.mem a = B.get s.mem a := by
  apply h.region.get_stores_misses h.sound (h.statePokes_payload follows) inside
  intro w hw
  obtain ⟨width, T, hT, addr⟩ := h.statePokes_inside follows hw
  have := off T hT
  unfold Poke.Misses
  omega

theorem statePokes_apart :
    Apart (statePokes s.globals.current next) := by
  obtain ⟨here, ne⟩ := h.follows_member follows
  unfold statePokes Apart
  split
  · exact List.pairwise_singleton _ _
  · rename_i idle
    have := h.fields_apart here (h.queue.current.resolve_left idle) ne
    simp only [List.singleton_append, List.pairwise_pair, Poke.Misses]
    omega

theorem picked_states {p : Nat} (hp : p ∈ s.procs) :
    B.load (picked B s.globals next).heap.mem (p + 16) 4 = (if p = next then ProcState.running else .ready).code := by
  have read : ∀ w ∈ statePokes s.globals.current next, _ := fun w hw =>
    h.region.load_stores h.sound (h.statePokes_payload follows) (h.statePokes_apart follows) hw
  by_cases incoming : p = next
  · rw [if_pos incoming, incoming]
    exact read ⟨next + 16, ProcState.running.code, 4⟩ (by simp [statePokes])
  · rw [if_neg incoming]
    by_cases outgoing : p = s.globals.current
    · have idle : s.globals.current ≠ 0 := outgoing ▸ h.pos hp
      rw [outgoing]
      exact read ⟨s.globals.current + 16, ProcState.ready.code, 4⟩ (by simp [statePokes, idle])
    · have old := h.queue.states p hp
      rw [if_neg outgoing] at old
      refine Eq.trans ?_ old
      apply h.region.load_stores_misses h.sound (h.statePokes_payload follows) (h.state_inside hp)
      intro w hw
      have here := (h.follows_member follows).1
      have first := h.fields_apart hp here incoming
      unfold statePokes at hw
      split at hw
      · rw [List.nil_append, List.mem_singleton] at hw
        subst hw
        unfold Poke.Misses
        dsimp only
        omega
      · rename_i idle
        have second := h.fields_apart hp (h.queue.current.resolve_left idle) outgoing
        rcases List.mem_append.mp hw with hw | hw <;> rw [List.mem_singleton] at hw <;> subst hw <;> unfold Poke.Misses <;>
          dsimp only <;> omega

theorem saveOutgoing_kept (enters : s.Enters k next) :
    ∃ c, saveOutgoing B ⟨k, (picked B s.globals next).heap.mem⟩ (BitVec.ofNat 64 s.globals.current) = .ok c ∧
      c.regs .rdi = k.regs .rdi ∧ (s.client.withMem c.mem).Sound B ∧
      Spares B s next c.mem ∧
      ∀ T ∈ s.tasks, T.proc = s.globals.current →
        Frozen B taskReturned c.mem { T with saved := some (System.context B (picked B s.globals next) k) } := by
  have sound := h.picked_sound follows
  by_cases idle : s.globals.current = 0
  · refine ⟨⟨testFlags ((k.setFlag 9 false).set .rax (BitVec.ofNat 64 s.globals.current))
      (BitVec.ofNat 64 s.globals.current), _⟩,
      ?_, rfl, sound, fun _ _ _ _ => rfl, fun T hT current => ?_⟩
    · rw [idle]
      rfl
    · exact absurd (current.trans idle) (h.pos (List.mem_map_of_mem hT))
  · obtain ⟨T, hT, current⟩ := member (h.queue.current.resolve_left idle)
    obtain ⟨aligned, low, high⟩ := enters.stack T hT current
    obtain ⟨_, small, fits, _⟩ := h.placed.bounds h.sound hT
    have on : OnStack T.stack (k.regs .rsp) := ⟨aligned, low, high, fits⟩
    have field := h.placed.proc_inside hT (show 8 + 8 ≤ procSize by decide)
    have apart := h.placed.proc_stack_apart h.sound hT hT
    rw [← current]
    obtain ⟨c, run, rdi, kept, others, top, stack⟩ :=
      saveOutgoing_run h.region sound (current.trans_ne idle) (by omega) field
      (fun a => h.placed.stack_inside hT) (by omega) on
    refine ⟨c, run, rdi, kept, fun a inside off side => ?_, fun U hU same => ?_⟩
    · rw [← current] at side
      exact others a inside (fun own => off ⟨T, hT, current, own⟩) side
    · obtain rfl := h.placed.eq_of_proc hU hT same
      refine ⟨on.base_aligned, top, stack, fun j hj => ?_⟩
      obtain ⟨place, inside⟩ := on.slot hj
      rw [← place] at inside
      exact inside

theorem picked_field {p o n : Nat} (hp : p ∈ s.procs) (le : o + n ≤ 32) (off : o + n ≤ 16 ∨ 20 ≤ o) :
    B.load (picked B s.globals next).heap.mem (p + o) n = B.load s.mem (p + o) n := by
  obtain ⟨T, hT, rfl⟩ := member hp
  refine ByteSpace.load_congr fun i hi => h.picked_kept follows (h.placed.proc_inside hT le i hi) ?_
  exact h.off_states hT (by omega) (by omega) (by omega)

theorem others_frozen {m : σ} (kept : Spares B s next m) (hT : T ∈ s.tasks)
    (different : T.proc ≠ s.globals.current) :
    Frozen B taskReturned m T := by
  apply (h.frozen T hT different).congr
  · intro i hi
    have inside := h.placed.proc_inside hT (show 8 + 8 ≤ procSize by decide) i hi
    have off := h.off_current hT (a := T.proc + 8 + i) (by omega) (by omega) fun same => absurd same different
    rw [kept _ inside (h.off_stack hT (by omega) (by omega)) off]
    exact h.picked_kept follows inside (h.off_states hT (by omega) (by omega) (by omega))
  · intro a low high
    have inside := h.placed.stack_inside hT low high
    rw [kept a inside (h.off_other_stack hT different low high) (h.stack_off_current hT low high)]
    exact h.picked_kept follows inside (h.stack_off_states hT low high)

end Picked

end Inv

/-- Memory and registers when `switch_to(next)` comes to its `ret`. -/
structure Handover (B : Backing σ) (taskReturned : Word) (s : System σ) (k : Core) (next : Nat) (c : Cpu σ) :
    Prop where
  sound : (s.client.withMem c.mem).Sound B
  pids : ∀ p ∈ s.procs, B.load c.mem p 4 = B.load s.mem p 4
  nexts : ∀ p ∈ s.procs, B.load c.mem (p + 24) 8 = B.load s.mem (p + 24) 8
  states : ∀ p ∈ s.procs, B.load c.mem (p + 16) 4 = (if p = next then ProcState.running else .ready).code
  left : ∀ T ∈ s.tasks, T.proc = s.globals.current →
    Frozen B taskReturned c.mem { T with saved := some (System.context B (picked B s.globals next) k) }
  others : ∀ T ∈ s.tasks, T.proc ≠ s.globals.current → Frozen B taskReturned c.mem T
  resumed : ∀ T ∈ s.tasks, T.proc = next → Resumed B taskReturned T c.toCore c.mem

theorem Inv.switchTo_run (h : Inv B taskReturned s) (follows : Follows s.procs s.globals.current next)
    (enters : s.Enters k next) :
    ∃ c, switchTo B ⟨k, (picked B s.globals next).heap.mem⟩ (BitVec.ofNat 64 s.globals.current) =
        .ok (BitVec.ofNat 64 next, c) ∧ Handover B taskReturned s k next c := by
  obtain ⟨here, ne⟩ := h.follows_member follows
  obtain ⟨c, saved, rdi, sound, kept, left⟩ := h.saveOutgoing_kept follows enters
  rw [enters.argument] at rdi
  obtain ⟨T, hT, rfl⟩ := Inv.member here
  obtain ⟨_, small, fits, aligned⟩ := h.placed.bounds h.sound hT
  have field := h.placed.proc_inside hT (show 8 + 8 ≤ procSize by decide)
  obtain ⟨c', loaded, mem, resumed⟩ := (h.others_frozen follows kept hT ne).resume h.region sound rdi (by omega) field
    (fun a => h.placed.stack_inside hT) fits aligned
  refine ⟨c', ?_, ?_⟩
  · rw [switchTo, bind_eq saved, bind_eq loaded, rdi]
    rfl
  rw [← mem] at sound kept left resumed
  have fields : ∀ p ∈ s.procs, ∀ o n, o + n ≤ 32 → o + n ≤ 8 ∨ 20 ≤ o →
      B.load c'.mem (p + o) n = B.load s.mem (p + o) n := fun p hp o n le off =>
    (h.spared_field kept hp le (by omega)).trans (h.picked_field follows hp le (by omega))
  constructor
  · exact sound
  · exact fun p hp => fields p hp 0 4 (by omega) (by omega)
  · exact fun p hp => fields p hp 24 8 (by omega) (by omega)
  · exact fun p hp => (h.spared_field kept hp (by omega) (by omega)).trans (h.picked_states follows hp)
  · exact left
  · exact fun U hU different => h.others_frozen follows kept hU different
  · intro U hU same
    obtain rfl := h.placed.eq_of_proc hU hT same
    exact resumed

theorem Inv.switch_cases (h : Inv B taskReturned s) (step : s.Switch B next k t) :
    ∃ c, t = s.switched B (picked B s.globals next) k (BitVec.ofNat 64 next) c ∧ Handover B taskReturned s k next c ∧
      Follows s.procs s.globals.current next := by
  cases step with
  | intro picks enters run =>
    rename_i g w c
    obtain ⟨rfl, follows⟩ := h.picks picks
    obtain ⟨c', run', handover⟩ := h.switchTo_run follows enters
    cases run'.symm.trans run
    exact ⟨c, rfl, handover, follows⟩

theorem Inv.toNat_next (h : Inv B taskReturned s) (hp : next ∈ s.procs) : (BitVec.ofNat 64 next).toNat = next := by
  obtain ⟨T, hT, rfl⟩ := Inv.member hp
  have := (h.placed.bounds h.sound hT).2.1
  rw [BitVec.toNat_ofNat]
  exact Nat.mod_eq_of_lt (by omega)

theorem switched_map {g : Globals σ} {w : Word} {c : Cpu σ} (f : Task → Nat)
    (same : ∀ T x, f { T with saved := x } = f T) :
    (s.switched B g k w c).tasks.map f = s.tasks.map f := by
  simp only [System.switched, List.map_map]
  apply List.map_congr_left
  intro T _
  simp only [Function.comp_apply]
  split
  · exact same T _
  · rfl

theorem switched_procs {g : Globals σ} {w : Word} {c : Cpu σ} : (s.switched B g k w c).procs = s.procs :=
  switched_map Task.proc fun _ _ => rfl

theorem Inv.switch (h : Inv B taskReturned s) (step : s.Switch B next k t) : Inv B taskReturned t := by
  obtain ⟨c, rfl, handover, follows⟩ := h.switch_cases step
  have here := (h.follows_member follows).1
  have current := h.toNat_next here
  constructor
  · exact handover.sound
  · constructor
    · rw [switched_map Task.proc fun _ _ => rfl]
      exact h.placed.distinct
    · rw [switched_map Task.stack fun _ _ => rfl]
      exact h.placed.separate
    · intro T' hT'
      obtain ⟨T, hT, rfl⟩ := List.mem_map.mp hT'
      split <;> exact h.placed.owned T hT
  · rw [switched_procs]
    apply h.queue.update
    · rfl
    · rfl
    · rfl
    · right
      change (BitVec.ofNat 64 next).toNat ∈ s.procs
      rw [current]
      exact here
    · exact handover.pids
    · exact handover.nexts
    · intro p hp
      change B.load c.mem (p + 16) 4 = (if p = (BitVec.ofNat 64 next).toNat then ProcState.running else .ready).code
      rw [current]
      exact handover.states p hp
  · intro T' hT' _
    obtain ⟨T, hT, rfl⟩ := List.mem_map.mp hT'
    split
    · exact handover.left T hT ‹_›
    · exact handover.others T hT ‹_›

end Voyager.Sched
