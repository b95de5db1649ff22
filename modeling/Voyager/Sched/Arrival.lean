import Voyager.Sched.Tasks

/-! # A new task -/

namespace Voyager.Sched

open Lib Lib.X86 Lib.RoundRobin Heap ByteSpace

variable {σ : Type} {B : Backing σ} {taskReturned entry : Word} {s : System σ} {heap : Heap.State σ} {g : Globals σ}
  {p q stack a : Nat} {w : Poke}

theorem mem_image {g : Globals σ} (hw : w ∈ image g p stack taskReturned entry) :
    (p ≤ w.addr ∧ w.addr + w.width ≤ p + 32) ∨ (stack ≤ w.addr ∧ w.addr + w.width ≤ stack + stackSize) ∨
      (g.runQueueHead ≠ 0 ∧ w = ⟨g.runQueueTail + 24, p, 8⟩) := by
  simp only [image, List.mem_append, List.mem_cons, List.not_mem_nil, or_false] at hw
  rcases hw with (rfl | rfl) | hw | rfl | hw
  · dsimp only
    omega
  · dsimp only
    omega
  · obtain ⟨width, low, high⟩ := mem_stackImage hw
    omega
  · dsimp only
    omega
  · unfold links at hw
    split at hw
    · rw [List.mem_singleton] at hw
      subst hw
      dsimp only
      omega
    · rename_i some
      rw [List.mem_cons, List.mem_singleton] at hw
      rcases hw with rfl | rfl
      · dsimp only
        omega
      · exact .inr (.inr ⟨some, rfl⟩)

theorem stackImage_apart : Apart (stackImage stack taskReturned entry) := by
  simp only [Apart, stackImage, pushed, List.mapIdx_cons, List.mapIdx_nil, List.pairwise_cons, List.mem_cons,
    List.not_mem_nil,
    or_false, forall_eq_or_imp, forall_eq, Poke.Misses, List.Pairwise.nil, false_implies, implies_true, and_true]
  refine ⟨⟨?_, ?_, ?_, ?_, ?_, ?_, ?_⟩, ⟨?_, ?_, ?_, ?_, ?_, ?_⟩, ⟨?_, ?_, ?_, ?_, ?_⟩, ⟨?_, ?_, ?_, ?_⟩,
    ⟨?_, ?_, ?_⟩, ⟨?_, ?_⟩, ?_⟩ <;>
    omega

theorem mem_links {g : Globals σ} (hw : w ∈ links g p) :
    w.width = 8 ∧ (w.addr = p + 24 ∨ g.runQueueHead ≠ 0 ∧ w.addr = g.runQueueTail + 24) := by
  unfold links at hw
  split at hw
  · rw [List.mem_singleton] at hw
    exact hw ▸ ⟨rfl, .inl rfl⟩
  · rename_i some
    rw [List.mem_cons, List.mem_singleton] at hw
    rcases hw with rfl | rfl
    · exact ⟨rfl, .inl rfl⟩
    · exact ⟨rfl, .inr ⟨some, rfl⟩⟩

theorem image_apart {g : Globals σ} (apart : p + 32 ≤ stack ∨ stack + stackSize ≤ p)
    (tail : g.runQueueHead ≠ 0 → (g.runQueueTail + 32 ≤ p ∨ p + 32 ≤ g.runQueueTail) ∧
      (g.runQueueTail + 32 ≤ stack ∨ stack + stackSize ≤ g.runQueueTail)) :
    Apart (image g p stack taskReturned entry) := by
  have queue : Apart (links g p) := by
    unfold links Apart
    split
    · exact List.pairwise_singleton _ _
    · have := tail ‹_›
      simp only [List.pairwise_pair, Poke.Misses]
      omega
  refine List.pairwise_append.mpr ⟨?_, List.pairwise_append.mpr ⟨stackImage_apart,
    List.pairwise_append.mpr ⟨?_, queue, ?_⟩, ?_⟩, ?_⟩
  · simp only [List.pairwise_pair, Poke.Misses]
    omega
  · exact List.pairwise_singleton _ _
  · intro w hw u hu
    obtain rfl := List.mem_singleton.mp hw
    have := mem_links hu
    unfold Poke.Misses
    dsimp only
    omega
  · intro w hw u hu
    obtain ⟨width, low, high⟩ := mem_stackImage hw
    unfold Poke.Misses
    rcases List.mem_append.mp hu with hu | hu
    · obtain rfl := List.mem_singleton.mp hu
      dsimp only
      omega
    · have := mem_links hu
      omega
  · intro w hw u hu
    have place : w.width = 4 ∧ (w.addr = p ∨ w.addr = p + 16) := by
      rw [List.mem_cons, List.mem_singleton] at hw
      rcases hw with rfl | rfl
      · exact ⟨rfl, .inl rfl⟩
      · exact ⟨rfl, .inr rfl⟩
    unfold Poke.Misses
    rcases List.mem_append.mp hu with hu | hu
    · obtain ⟨width, low, high⟩ := mem_stackImage hu
      omega
    rcases List.mem_append.mp hu with hu | hu
    · obtain rfl := List.mem_singleton.mp hu
      dsimp only
      omega
    · have := mem_links hu
      omega

theorem Inv.tail_member (h : Inv B taskReturned s) (some : s.globals.runQueueHead ≠ 0) :
    ∃ T ∈ s.tasks, T.proc = s.globals.runQueueTail := by
  apply Inv.member
  rw [h.queue.tail]
  rw [h.queue.head] at some
  cases last : s.procs.getLast? with
  | none =>
    rw [List.getLast?_eq_none_iff.mp last] at some
    exact absurd rfl some
  | some q => exact List.mem_of_getLast? last

section Create

variable (h : Inv B taskReturned s) (alloc : allocProcess B s.globals.heap = .ok (p, stack, heap))

include h alloc

theorem created_sound : Client.Sound B ⟨heap, (stack, stackSize) :: (p, procSize) :: s.live⟩ :=
  (allocProcess_spec h.sound alloc).1

theorem created_placed (entry : Word) : Placed ((stack, stackSize) :: (p, procSize) :: s.live)
    (s.tasks ++ [⟨p, stack, entry, none⟩]) := by
  obtain ⟨_, freshProc, freshStack, _⟩ := allocProcess_spec h.sound alloc
  constructor
  · rw [List.map_append, List.nodup_append]
    refine ⟨h.placed.distinct, List.nodup_singleton _, fun q hq r hr => ?_⟩
    obtain ⟨T, hT, rfl⟩ := List.mem_map.mp hq
    obtain rfl := List.mem_singleton.mp hr
    rintro same
    exact freshProc (List.mem_map.mpr ⟨_, (h.placed.owned T hT).1, same⟩)
  · rw [List.map_append, List.nodup_append]
    refine ⟨h.placed.separate, List.nodup_singleton _, fun q hq r hr => ?_⟩
    obtain ⟨T, hT, rfl⟩ := List.mem_map.mp hq
    obtain rfl := List.mem_singleton.mp hr
    rintro same
    exact freshStack (List.mem_map.mpr ⟨_, (h.placed.owned T hT).2, same⟩)
  · intro T hT
    rcases List.mem_append.mp hT with old | new
    · have := h.placed.owned T old
      exact ⟨by simp [this.1], by simp [this.2]⟩
    · obtain rfl := List.mem_singleton.mp new
      simp

theorem image_payload : ∀ w ∈ image s.globals p stack taskReturned entry, ∀ i < w.width,
    InPayload ((stack, stackSize) :: (p, procSize) :: s.live) (w.addr + i) := by
  intro w hw i hi
  rcases mem_image hw with ⟨low, high⟩ | ⟨low, high⟩ | ⟨some, rfl⟩
  · refine ⟨(p, procSize), by simp, by dsimp only; omega, ?_⟩
    unfold procSize
    dsimp only
    omega
  · exact ⟨(stack, stackSize), by simp, by dsimp only; omega, by dsimp only; omega⟩
  · obtain ⟨T, hT, tail⟩ := h.tail_member some
    dsimp only at hi ⊢
    rw [← tail]
    exact (created_placed h alloc 0).proc_inside (List.mem_append_left _ hT) (by decide) i hi

theorem created_kept (inside : InPayload s.live a)
    (off : s.globals.runQueueHead ≠ 0 → a < s.globals.runQueueTail + 24 ∨
    s.globals.runQueueTail + 32 ≤ a) : B.get (B.stores heap.mem
      (image s.globals p stack taskReturned entry)) a = B.get s.mem a := by
  obtain ⟨sound, freshProc, freshStack, kept⟩ := allocProcess_spec h.sound alloc
  obtain ⟨x, hx, low, high⟩ := inside
  have old : x ∈ (stack, stackSize) :: (p, procSize) :: s.live := by simp [hx]
  have proc := sound.apart old (by simp : (p, procSize) ∈ _) fun e => freshProc (List.mem_map.mpr ⟨x, hx, by rw [e]⟩)
  have region := sound.apart old (by simp : (stack, stackSize) ∈ _) fun e => freshStack
    (List.mem_map.mpr ⟨x, hx, by rw [e]⟩)
  unfold procSize at proc
  dsimp only at proc region
  refine (sound.region.get_stores_misses sound (image_payload h alloc) ⟨x, old, low, high⟩ fun w hw => ?_).trans
    (kept a ⟨x, hx, low, high⟩)
  unfold Poke.Misses
  rcases mem_image hw with inProc | inStack | ⟨some, rfl⟩
  · omega
  · omega
  · have := off some
    dsimp only
    omega

theorem created_idle : p ∉ s.procs ∧ p ≠ s.globals.current := by
  have fresh : p ∉ s.procs := fun old => by
    obtain ⟨T, hT, same⟩ := Inv.member old
    exact (allocProcess_spec h.sound alloc).2.1 (List.mem_map.mpr ⟨_, (h.placed.owned T hT).1, same⟩)
  refine ⟨fresh, ?_⟩
  rcases h.queue.current with zero | here
  · rw [zero]
    have := (created_placed h alloc 0).bounds (created_sound h alloc) (by simp : (⟨p, stack, 0, none⟩ : Task) ∈ _)
    dsimp only at this
    omega
  · exact fun same => fresh (same ▸ here)

theorem created_read (hw : w ∈ image s.globals p stack taskReturned entry) :
    B.load (B.stores heap.mem (image s.globals p stack taskReturned entry)) w.addr w.width =
      w.value % 256 ^ w.width := by
  have sound := created_sound h alloc
  have placed := created_placed h alloc entry
  have new : (⟨p, stack, entry, none⟩ : Task) ∈ s.tasks ++ [⟨p, stack, entry, none⟩] := by simp
  refine sound.region.load_stores sound (image_payload h alloc) (image_apart ?_ fun some => ?_) hw
  · exact placed.proc_stack_apart sound new new
  · obtain ⟨T, hT, tail⟩ := h.tail_member some
    have old := List.mem_append_left [(⟨p, stack, entry, none⟩ : Task)] hT
    have different : T.proc ≠ p := fun same => (created_idle h alloc).1 (same ▸ List.mem_map_of_mem hT)
    rw [← tail]
    exact ⟨placed.procs_apart sound old new different, placed.proc_stack_apart sound old new⟩

theorem created_eq (nonzero : entry ≠ 0) : createProcess B taskReturned s.globals entry =
    .ok (p, queued s.globals (setMem heap (B.stores heap.mem (image s.globals p stack taskReturned entry))) p) := by
  have sound := created_sound h alloc
  have placed := created_placed h alloc entry
  have new : (⟨p, stack, entry, none⟩ : Task) ∈ s.tasks ++ [⟨p, stack, entry, none⟩] := by simp
  obtain ⟨_, _, fits, aligned⟩ := placed.bounds sound new
  apply createProcess_run nonzero (s := heap) alloc sound.region sound aligned fits
  · exact placed.proc_inside new (o := 0) (n := procSize) (by decide)
  · exact fun i hi => placed.stack_inside new (by dsimp only; omega) (by dsimp only; omega)
  · intro some
    obtain ⟨T, hT, tail⟩ := h.tail_member some
    rw [← tail]
    exact placed.proc_inside (List.mem_append_left _ hT) (by decide)

theorem created_run (run : createProcess B taskReturned s.globals entry = .ok (q, g)) :
    q = p ∧ g = queued s.globals (setMem heap (B.stores heap.mem (image s.globals p stack taskReturned entry))) p := by
  have nonzero : entry ≠ 0 := by
    rintro rfl
    cases run
  cases (created_eq h alloc nonzero).symm.trans run
  exact ⟨rfl, rfl⟩

theorem created_field (hq : q ∈ s.procs) {o n : Nat} (le : o + n ≤ 32)
    (off : q = s.globals.runQueueTail → o + n ≤ 24) :
    B.load (B.stores heap.mem (image s.globals p stack taskReturned entry)) (q + o) n = B.load s.mem (q + o) n := by
  obtain ⟨T, hT, rfl⟩ := Inv.member hq
  refine ByteSpace.load_congr fun i hi => created_kept h alloc (h.placed.proc_inside hT le i hi) fun some => ?_
  obtain ⟨U, hU, tail⟩ := h.tail_member some
  by_cases same : T.proc = s.globals.runQueueTail
  · have := off same
    omega
  · have := h.placed.procs_apart h.sound hT hU (tail ▸ same)
    omega

theorem created_joins (entry : Word) : Joins B s.globals
    (queued s.globals (setMem heap (B.stores heap.mem (image s.globals p stack taskReturned entry))) p) s.procs p := by
  have sound := created_sound h alloc
  have placed := created_placed h alloc entry
  obtain ⟨_, small, _⟩ := placed.bounds sound (by simp : (⟨p, stack, entry, none⟩ : Task) ∈ _)
  dsimp only at small
  have word : ∀ v, v < 2 ^ 64 → v % 256 ^ 8 = v := fun v lt => Nat.mod_eq_of_lt lt
  constructor
  · rfl
  · rfl
  · rfl
  · rfl
  · exact fun q hq => created_field h alloc (o := 0) hq (by omega) fun _ => by omega
  · exact fun q hq => created_field h alloc hq (by omega) fun _ => by omega
  · exact fun q hq middle => created_field h alloc hq (by omega) fun same => absurd same middle
  · intro some
    have head : s.globals.runQueueHead ≠ 0 := by
      rw [h.queue.head]
      cases procs : s.procs with
      | nil => exact absurd procs some
      | cons q rest => exact h.pos (by simp [procs])
    refine (created_read h alloc (w := ⟨s.globals.runQueueTail + 24, p, 8⟩) ?_).trans (word p (by omega))
    simp [image, links, head]
  · apply (created_read h alloc (w := ⟨p, s.globals.nextPid, 4⟩) (by simp [image])).trans
    have few := h.placed.few h.sound
    have count : s.procs.length = s.tasks.length := List.length_map _
    rw [h.queue.nextPid, count]
    dsimp only
    omega
  · exact created_read h alloc (w := ⟨p + 16, ProcState.ready.code, 4⟩) (by simp [image])
  · change B.load (B.stores heap.mem (image s.globals p stack taskReturned entry)) (p + 24) 8 =
      if s.globals.runQueueHead = 0 then p else s.globals.runQueueHead
    by_cases empty : s.globals.runQueueHead = 0
    · rw [if_pos empty]
      refine (created_read h alloc (w := ⟨p + 24, p, 8⟩) ?_).trans (word p (by omega))
      simp [image, links, empty]
    · rw [if_neg empty]
      refine (created_read h alloc (w := ⟨p + 24, s.globals.runQueueHead, 8⟩) ?_).trans (word _ ?_)
      · simp [image, links, empty]
      · have here : s.globals.runQueueHead ∈ s.procs := by
          rw [h.queue.head] at empty ⊢
          cases procs : s.procs with
          | nil => simp [procs] at empty
          | cons q rest => simp
        obtain ⟨T, hT, head⟩ := Inv.member here
        have := (h.placed.bounds h.sound hT).2.1
        dsimp only
        omega

theorem created_frozen : Frozen B taskReturned (B.stores heap.mem (image s.globals p stack taskReturned entry))
    ⟨p, stack, entry, none⟩ := by
  have sound := created_sound h alloc
  have placed := created_placed h alloc entry
  obtain ⟨_, _, fits, aligned⟩ := placed.bounds sound (by simp : (⟨p, stack, entry, none⟩ : Task) ∈ _)
  dsimp only at fits aligned
  have size : stackSize = 16384 := rfl
  have base : (Task.base ⟨p, stack, entry, none⟩).toNat = stack + 16384 := by
    simp only [Task.base, BitVec.toNat_ofNat]
    omega
  have place : ∀ j < 8, slot (Task.base ⟨p, stack, entry, none⟩) j = stack + 16384 - 8 * (j + 1) := by
    intro j hj
    rw [slot_eq (by omega), base]
  have small : ∀ v ∈ [taskReturned.toNat, entry.toNat, 0, 0, 0, 0, 0, 0], v < 2 ^ 64 := by
    have := taskReturned.isLt
    have := entry.isLt
    simp only [List.forall_mem_cons, List.not_mem_nil, false_implies, implies_true, and_true]
    omega
  have read : ∀ j (hj : j < 8),
      B.load (B.stores heap.mem (image s.globals p stack taskReturned entry))
        (slot (Task.base ⟨p, stack, entry, none⟩) j) 8 =
        [taskReturned.toNat, entry.toNat, 0, 0, 0, 0, 0, 0].get ⟨j, hj⟩ := by
    intro j hj
    have member := List.mem_append_left ([⟨p + 8, stack + 16320, 8⟩] ++ links s.globals p)
      (List.mem_mapIdx.mpr ⟨j, hj, rfl⟩ : _ ∈ stackImage stack taskReturned entry)
    rw [place j hj]
    apply (created_read h alloc (List.mem_append_right _ member)).trans
    exact Nat.mod_eq_of_lt (small _ (List.get_mem _ _))
  constructor
  · omega
  · apply (created_read h alloc (w := ⟨p + 8, stack + 16320, 8⟩) (by simp [image])).trans
    change (stack + 16320) % 256 ^ 8 = slot (Task.base ⟨p, stack, entry, none⟩) 7
    rw [place 7 (by omega)]
    omega
  · exact ⟨read 7 (by decide), read 6 (by decide), read 5 (by decide), read 4 (by decide), read 3 (by decide),
      read 2 (by decide),
      read 1 (by decide), read 0 (by decide), trivial⟩
  · intro j hj
    have := place j hj
    dsimp only
    have : j < 8 := hj
    omega

theorem Inv.create (run : createProcess B taskReturned s.globals entry = .ok (q, g)) :
    Inv B taskReturned (s.created g q stack entry) := by
  obtain ⟨rfl, rfl⟩ := created_run h alloc run
  have joins := created_joins h alloc entry
  have sound := created_sound h alloc
  constructor
  · exact sound.region.keep_stores sound (image_payload h alloc)
  · exact created_placed h alloc entry
  · have procs : (s.created (queued s.globals
      (setMem heap (B.stores heap.mem (image s.globals q stack taskReturned entry))) q) q stack entry).procs =
        s.procs ++ [q] := List.map_append
    rw [procs]
    exact h.queue.append joins h.placed.distinct (fun _ => h.pos) (created_idle h alloc).2
  · intro T hT ne
    rcases List.mem_append.mp hT with old | new
    · apply (h.frozen T old ne).congr
      · intro i hi
        apply created_kept h alloc (h.placed.proc_inside old (by decide) i hi)
        intro some
        obtain ⟨U, hU, tail⟩ := h.tail_member some
        by_cases same : T.proc = U.proc
        · omega
        · have := h.placed.procs_apart h.sound old hU same
          omega
      · intro a low high
        apply created_kept h alloc (h.placed.stack_inside old low high)
        intro some
        obtain ⟨U, hU, tail⟩ := h.tail_member some
        have := h.placed.proc_stack_apart h.sound hU old
        omega
    · obtain rfl := List.mem_singleton.mp new
      exact created_frozen h alloc

end Create

end Voyager.Sched
