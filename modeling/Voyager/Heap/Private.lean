import Voyager.Frames.Runs
import Voyager.Heap.Client
import Voyager.Heap.Pages
import Voyager.Paging.Bringup
import Voyager.Paging.Protection

/-! # The heap's frames are its own -/

namespace Voyager.Machine

open Lib Lib.RadixTable Paging Heap

/-- What clients of the heap can reach after `kmalloc_init` on `m₀`. -/
def HeapRun (m₀ : Machine) : Client Machine → Prop :=
  Reachable (fun c => kmallocInit (machineBacking m₀) m₀ = .ok c.heap ∧ c.live = []) (Client.Step (machineBacking m₀))

def heapPageCount (s : State Machine) : Nat := (s.heapCurr - heapBase) / pageSize

/-- The page at `va` is on the frame `i`, for reading and writing but not for execution. -/
def HeapPageOn (m : Machine) (va i : Nat) : Prop :=
  ∃ e, leafOf m.mem m.currentPml4Phys va = some (e, 0) ∧ e.testBit 1 = true ∧ e.testBit 63 = true ∧
    leafAddress e 0 va = i * pageSize + va % pageSize

/-- Taken from the frame allocator since `m₀`, and no table. -/
structure PrivateFrame (m₀ m : Machine) (i : Nat) : Prop where
  before : i ∈ m₀.freeFrames
  allocated : bmTest m.mem m.frames.allocBm i = true
  noTable : ∀ {l p}, ¬ Reached m.mem m.currentPml4Phys l p (i * pageSize)

/-- The window after a run that began with the machine `m₀`. -/
structure PrivatelyBacked (m₀ : Machine) (s : State Machine) : Prop where
  limit : s.heapCurr ≤ heapLimit
  pages : ∃ frame : Nat → Nat, Set.InjOn frame {j | j < heapPageCount s} ∧
    (∀ j < heapPageCount s, PrivateFrame m₀ s.mem (frame j)) ∧
    ∀ va, heapBase ≤ va → va < s.heapCurr → HeapPageOn s.mem va (frame (pageOf va))
  -- Every table on the way allows writes as well.
  tables : Plain s.mem.mem s.mem.currentPml4Phys
  unmapped : ∀ va, s.heapCurr ≤ va → va < heapLimit → leafOf s.mem.mem s.mem.currentPml4Phys va = none
  count : ∃ made : Finset Nat, (∀ n, n ∈ made ↔ (∃ l p, Reached s.mem.mem s.mem.currentPml4Phys l p n) ∧
      ¬ ∃ l p, Reached m₀.mem m₀.currentPml4Phys l p n) ∧
    m₀.frames.freeCount = s.mem.frames.freeCount + heapPageCount s + made.card

variable {m₀ m m' : Machine} {s : State Machine} {c : Client Machine} {F₀ F T : Finset Nat} {data : List Nat} {boot : Boot}
  {entries : List MemmapEntry} {k : KernelAddress} {rsp i : Nat}

theorem HeapPages.start (runtime : Runtime m₀ m₀.currentPml4Phys F)
    (empty : ∀ va, slotOf va = heapSlot → leafOf m₀.mem m₀.currentPml4Phys va = none) :
    HeapPages m₀ m₀ F F [] ∅ where
  begun := runtime
  runtime := runtime
  paging := rfl
  placed := rfl
  sub := fun _ hi => hi
  owned := by simp
  made := by simp
  nodup := .nil
  count := by simp
  tables := .inl
  kept := fun r => r
  linked := by simp
  leaf := by simp
  above va low high := by
    apply empty
    rw [List.length_nil, Nat.zero_mul] at low
    unfold slotOf heapSlot heapBase at *
    omega
  elsewhere := fun _ _ => rfl
  zero := by simp

theorem HeapPages.privateFrame (h : HeapPages m₀ m F₀ F data T) (hi : i ∈ data) : PrivateFrame m₀ m i := by
  obtain ⟨begun, free, made⟩ := h.owned i hi
  have placed := h.placed
  simp only [bitmapsAt, Prod.mk.injEq] at placed
  constructor
  · rw [h.begun.managed.toBitmaps.freeFrames_eq]
    exact begun
  · by_contra clear
    apply free
    rw [h.runtime.managed.clear, Bitmap.mem_zeros]
    have inside := h.begun.managed.inside i begun
    refine ⟨?_, by simpa [bmTest] using clear⟩
    unfold bmBytes
    omega
  · intro l p r
    rw [h.root_eq] at r
    rcases h.tables r with old | new
    · exact (h.begun.tables old).1 (by rw [frame_page]; exact begun)
    · rw [frame_page] at new
      exact made new

theorem HeapPages.privatelyBacked (h : HeapPages m₀ s.mem F₀ F data T)
    (curr : s.heapCurr = heapBase + data.length * pageSize)
    (limit : s.heapCurr ≤ heapLimit) : PrivatelyBacked m₀ s := by
  have number : heapPageCount s = data.length := by
    unfold heapPageCount
    rw [curr, Nat.add_sub_cancel_left, frame_page]
  obtain ⟨frame, holds⟩ : ∃ frame : Nat → Nat, ∀ j i, data[j]? = some i → frame j = i :=
    ⟨fun j => data[j]?.getD 0, fun j i found => by simp only [found, Option.getD_some]⟩
  have at' (j : Nat) (lt : j < heapPageCount s) : data[j]? = some (frame j) := by
    obtain ⟨i, found⟩ : ∃ i, data[j]? = some i := ⟨_, List.getElem?_eq_getElem (number ▸ lt)⟩
    rw [holds j i found, found]
  refine ⟨limit, ⟨frame, ?_, ?_, ?_⟩, ?_, ?_, ?_⟩
  · intro j hj j' hj' same
    obtain ⟨bound, value⟩ := List.getElem?_eq_some_iff.mp (at' j hj)
    obtain ⟨bound', value'⟩ := List.getElem?_eq_some_iff.mp (at' j' hj')
    exact h.nodup.getElem_inj_iff.mp (value.trans (same.trans value'.symm))
  · intro j hj
    exact h.privateFrame (List.mem_of_getElem? (at' j hj))
  · intro va low high
    obtain ⟨i, found, member, leaf, _⟩ := h.page low (curr ▸ high)
    have small := h.begun.frame_lt member
    rw [holds _ i found]
    exact ⟨_, leaf, (heapLeaf_flags small).1, (heapLeaf_flags small).2, heapLeaf_address small⟩
  · rw [h.root_eq]
    exact h.runtime.plain
  · intro va low high
    rw [h.root_eq]
    exact h.above va (curr ▸ low) (Nat.lt_trans high (by decide))
  · have aligned {n : Nat} {l p} (r : Reached s.mem.mem m₀.currentPml4Phys l p n) : n / pageSize * pageSize = n :=
      Nat.div_mul_cancel (Nat.dvd_of_mod_eq_zero (h.runtime.tree.node_aligned r))
    refine ⟨T.image (· * pageSize), fun n => ?_, ?_⟩
    · rw [Finset.mem_image, h.root_eq]
      constructor
      · rintro ⟨i, hi, rfl⟩
        refine ⟨h.linked i hi, ?_⟩
        rintro ⟨l, p, r⟩
        apply (h.begun.tables r).1
        rw [frame_page]
        exact (h.made i hi).1
      · rintro ⟨⟨l, p, r⟩, new⟩
        refine ⟨n / pageSize, (h.tables r).resolve_left fun old => new ⟨l, p, old⟩, aligned r⟩
    · rw [Finset.card_image_of_injective _ fun a b same => Nat.eq_of_mul_eq_mul_right (by decide) same, number,
        h.begun.managed.count, h.runtime.managed.count]
      exact h.count

/-- Heap pages and page tables never share a frame, with each other or among themselves, and the
frame allocator has lost exactly these. -/
theorem heap_privately_backed (input : BringupInput boot entries k) (fresh : m.early = .zero)
    (old : (m.paging.cr3 &&& addrMask) < physLimit) (bringup : m.memoryBringup boot rsp = .ok m₀)
    (run : HeapRun m₀ c) :
    PrivatelyBacked m₀ c.heap := by
  obtain ⟨F, runtime, empty⟩ := memoryBringup_runtime input fresh old bringup
  have backed : (machineBacking m₀).backed m₀ heapBase := ⟨F, F, [], ∅, .start runtime empty, rfl⟩
  have client : Client.Run (machineBacking m₀) c := run.mono fun c ⟨init, live⟩ => ⟨m₀, backed, init, live⟩
  obtain ⟨blocks, free, inv⟩ := client.inv
  have ready := inv.wellFormed.shaped.ready
  obtain ⟨F₀, F, data, T, pages, curr⟩ := ready.backed
  exact pages.privatelyBacked curr ready.high

def bringupMachine : Machine := { directMachine with early := .zero }

theorem bringupInput : BringupInput directBoot [⟨0x100000, 0x8000000, .usable⟩, ⟨0x8100000, 0x4000, .kernelAndModules⟩]
    ⟨0x8100000, 0xFFFFFFFF80000000⟩ := by
  refine ⟨rfl, rfl, rfl, by decide, ?_, ?_, ?_⟩
  all_goals exact ⟨by decide, fun _ => by decide⟩

def bitmapByte (m : Machine) (k : Nat) : Nat := higherHalfMemoryOffset + (m.frames.allocBm + k)

def BitmapMapped (m : Machine) : Prop := ∀ k < m.bmBytes, m.frames.allocBm + k < 2 ^ 32 ∧
  Maps m m.currentPml4Phys (bitmapByte m k) (m.frames.allocBm + k) true true

/-- What the heap starts from: 128 MiB of memory, with the bitmap of the taken frames in the direct map. -/
structure BroughtUp (m₀ : Machine) (F : Finset Nat) : Prop where
  run : bringupMachine.memoryBringup directBoot 0xFFFF800000200000 = .ok m₀
  runtime : Runtime m₀ m₀.currentPml4Phys F
  empty : ∀ va, slotOf va = heapSlot → leafOf m₀.mem m₀.currentPml4Phys va = none
  enough : 256 ≤ F.card
  members : ∀ i ∈ F, 0x100 ≤ i ∧ i < 0x8100
  bitmap : BitmapMapped m₀

theorem bringup_init : Early.init directBoot .zero = .ok directMachine.early := rfl

theorem bringup_returns : ∃ m₀ F, BroughtUp m₀ F := by
  obtain ⟨m₀, run, _, few⟩ := memoryBringup_returns (m := bringupMachine) directInput directLayout rfl bringupInput.inRange rfl
    bringup_init (show 0xFFFF800000000000 ≤ 0xFFFF800000200000 ∧ _ by decide) (by unfold InSection; decide) (by decide)
    (by decide) (by decide)
  have few : m₀.early.cursor ≤ 0x3004000 := Nat.le_trans few (by decide)
  obtain ⟨early, m₁, steps⟩ := memoryBringup_steps bringupInput.memmap bringupInput.inRange rfl run
  obtain rfl : directMachine.early = early := Except.ok.inj (bringup_init.symm.trans steps.init)
  have bootstrapped := pagingBootstrap_spares (m := directMachine) bringupInput directSound (by decide)
    (by decide) steps.bootstrap
  obtain ⟨F, runtime, empty, leaves, members, early⟩ :=
    bootstrapped.runtime steps.switched steps.start bringupInput.memmap bringupInput.inRange steps.frames
  have usable : ∀ i, UsableFrame directBoot i ↔ 0x100 ≤ i ∧ i < 0x8100 := by
    intro i
    simp only [UsableFrame, directBoot, Option.getD_some, List.mem_cons, List.not_mem_nil, or_false, exists_eq_or_imp,
      exists_eq_left,
      reduceCtorEq, false_and, true_and]
    rw [show within _ _ = Finset.Ico 0x100 0x8100 by rfl, Finset.mem_Ico]
  obtain ⟨_, _, _, placed, _, _⟩ := frameInit_spec bringupInput.memmap bringupInput.inRange
    bootstrapped.hierarchy.sound steps.frames
  refine ⟨m₀, F, run, runtime, empty, ?_, fun i hi => ?_, fun k lt => ?_⟩
  · have above : Finset.Ico 0x4000 0x4100 ⊆ F := by
      intro i hi
      rw [Finset.mem_Ico] at hi
      rw [members]
      refine ⟨Nat.lt_trans hi.2 (by decide),
        available_of placed.sound ((usable i).mpr (by omega)) ?_ (by simp [directBoot]) ?_⟩
      · rintro k ⟨⟩
        rw [show meeting _ _ = Finset.Ico 0x8100 0x8104 by rfl, Finset.mem_Ico]
        omega
      · unfold meeting
        split
        · simp
        · rw [Finset.mem_Ico]
          unfold alignUp add64 pageSize
          omega
    have card := Finset.card_le_card above
    rwa [Nat.card_Ico] at card
  · exact (usable i).mp ((members i).mp hi).2.1
  · have large := placed.large
    have some : 0x100000 ≤ m₁.early.cursor := bootstrapped.order
    rw [early] at few
    rw [show bitmapPages _ * pageSize = 0x2000 by decide] at large few
    have inside : 0x100000 ≤ m₀.frames.allocBm + k ∧ m₀.frames.allocBm + k < 0x8100000 := by
      rw [placed.alloc]
      dsimp only at few
      omega
    obtain ⟨_, _, _, _, _, _, built, patched, rfl⟩ := pagingBootstrap_ok directInput rfl directSound steps.bootstrap
    obtain ⟨e, l, found, rest⟩ := (built.covers (m₀.frames.allocBm + k) (by unfold window; omega)).1
      (.inl ⟨_, List.mem_cons_self, rfl, inside⟩)
    exact ⟨by omega, e, l, (leaves _).trans (patched.kept _ _ found), rest⟩

theorem heap_privately_backed_sample : ∃ m₀ c, bringupMachine.memoryBringup directBoot 0xFFFF800000200000 = .ok m₀ ∧
    HeapRun m₀ c ∧ PrivatelyBacked m₀ c.heap := by
  obtain ⟨m₀, F, bringup, runtime, empty, enough, _⟩ := bringup_returns
  have start := HeapPages.start runtime empty
  obtain ⟨m', mapped⟩ := mapPages_returns (n := 64) start (by decide) enough
  have backed : (machineBacking m₀).backed m₀ heapBase := ⟨F, F, [], ∅, start, rfl⟩
  obtain ⟨t, init⟩ := kmallocInit_returns backed mapped
  have run : HeapRun m₀ ⟨t, []⟩ := .start ⟨init, rfl⟩
  exact ⟨m₀, ⟨t, []⟩, bringup, run, heap_privately_backed bringupInput rfl (by decide) bringup run⟩

end Voyager.Machine
