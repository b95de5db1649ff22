import Voyager.Paging.Paths
import Voyager.Paging.Populated

/-!
# Copies of the kernel's address space

Right after booting, with frames from `frame_alloc`, `PagingDuplicate` writes into a page that
belongs to somebody else.
-/

namespace Voyager.Machine

open Lib Lib.ByteSpace Lib.RadixTable Paging

variable {m m' m₀ : Machine} {boot : Boot} {entries : List MemmapEntry} {newTable : Nat} {fs is : List Nat} {F : Finset Nat}

/-- The copy is right if the entry for each frame in the direct map is lost with the frame's old
contents, or is there already. It is wrong otherwise, where the frames are in the direct map and
entries do not land in other frames of the copy only. -/
theorem pagingDuplicate_copies_iff {pool : FramePool} (input : CopyInput boot entries) (populated : Populated boot m)
    (fresh : FreshFrames pool m m.currentPml4Phys newTable fs) :
    ((∀ f ∈ fs, Unmarked pool m m.currentPml4Phys newTable fs f) →
      ∃ m', m.pagingDuplicate (some pool.supply) m.currentPml4Phys newTable = .ok m' ∧
        DeepCopy m m' m.currentPml4Phys newTable fs pool.own) ∧
      ((∀ f ∈ fs, InDirectMap pool m m.currentPml4Phys f) →
        ((∀ f ∈ fs, ∀ t, landsIn m m.currentPml4Phys f = some t → t ∈ newTable :: fs → t = f) ∨
          ∃ f ∈ fs, Marks m m.currentPml4Phys newTable fs f) →
        ∃ m', m.pagingDuplicate (some pool.supply) m.currentPml4Phys newTable = .ok m' ∧
          (DeepCopy m m' m.currentPml4Phys newTable fs pool.own ↔
            ∀ f ∈ fs, Unmarked pool m m.currentPml4Phys newTable fs f)) := by
  obtain ⟨F, habitable⟩ := populated.habitable input
  exact ⟨fresh.copies habitable.source, fresh.copies_iff habitable.source⟩

/-! ### Frames from the frame allocator -/

structure Lowest (is : List Nat) (F : Finset Nat) : Prop where
  sorted : is.Pairwise (· < ·)
  free : ∀ i ∈ is, i ∈ F
  below : ∀ i ∈ is, ∀ j ∈ F, j ∈ is ∨ i < j

theorem Lowest.head {i : Nat} (h : Lowest (i :: is) F) (j : Nat) (hj : j ∈ F) : i ≤ j := by
  rcases h.below i List.mem_cons_self j hj with inside | lt
  · rcases List.mem_cons.mp inside with rfl | later
    · exact Nat.le_refl j
    · exact Nat.le_of_lt (List.rel_of_pairwise_cons h.sorted later)
  · exact Nat.le_of_lt lt

theorem Lowest.tail {i : Nat} (h : Lowest (i :: is) F) : Lowest is (F.erase i) where
  sorted := h.sorted.of_cons
  free j hj := Finset.mem_erase.mpr
    ⟨Nat.ne_of_gt (List.rel_of_pairwise_cons h.sorted hj), h.free j (List.mem_cons_of_mem _ hj)⟩
  below j hj k hk := by
    obtain ⟨other, free⟩ := Finset.mem_erase.mp hk
    rcases h.below j (List.mem_cons_of_mem _ hj) k free with inside | lt
    · exact .inl ((List.mem_cons.mp inside).resolve_left other)
    · exact .inr lt

def framePool (m₀ : Machine) : FramePool where
  supply := frameAlloc
  own := {x | ¬ m₀.OutsideBitmaps x}
  hands fs m := m.bitmapsAt = m₀.bitmapsAt ∧ ∃ is F, fs = is.map (· * pageSize) ∧ Lowest is F ∧ Managed m F
  next := by
    rintro f fs m ⟨placed, is, F, split, lowest, managed⟩
    cases is with
    | nil => cases split
    | cons i is =>
      obtain ⟨rfl, rfl⟩ := List.cons.inj split
      have member := lowest.free i List.mem_cons_self
      obtain ⟨managed', same⟩ := managed.take member lowest.head
      have first : F.min' ⟨i, member⟩ = i :=
        Nat.le_antisymm (F.min'_le i member) (F.le_min' _ i lowest.head)
      refine ⟨m.take i, ?_, ⟨same.placed.trans placed, is, F.erase i, rfl, lowest.tail, managed'⟩, fun x out => same.kept x ?_⟩
      · rw [frameAlloc_spec managed ⟨i, member⟩, first]
      · exact (outside_congr placed x).mpr (not_not.mp out)
  other := by
    rintro fs m mem' ⟨placed, is, F, split, lowest, managed⟩ same
    exact ⟨placed, is, F, split, lowest, managed.other rfl fun x inside => same x fun out =>
      inside ((outside_congr placed x).mpr out)⟩

/-! ### A booted kernel -/

/-- Six MiB below the largest region, which the early allocator takes. -/
def copyMap : List MemmapEntry :=
  [⟨0x400000, 0x600000, .usable⟩, ⟨0x1000000, 0x80000000, .usable⟩, ⟨0x81000000, 0x4000, .kernelAndModules⟩]

def copyKernel : KernelAddress := ⟨0x81000000, 0xFFFFFFFF80000000⟩

def copyBoot : Boot := { directBoot with memmap := some copyMap, kernelAddress := some copyKernel }

theorem copyDirect : HhdmInput copyBoot 0xFFFF800000000000 copyMap copyKernel := by
  refine ⟨directInput.offset, rfl, by decide, by unfold window; decide, ?_, rfl, directInput.image⟩
  simp only [copyMap, List.pairwise_cons, List.mem_cons, List.not_mem_nil, or_false, forall_eq_or_imp, forall_eq,
    false_imp_iff,
    implies_true, List.Pairwise.nil, and_true, Set.Ico_disjoint_Ico]
  decide

theorem copyBringup : BringupInput copyBoot copyMap copyKernel := by
  refine ⟨rfl, rfl, rfl, by decide, ?_, ?_, ?_⟩
  all_goals exact ⟨by decide, fun _ => by decide⟩

theorem copyInput : CopyInput copyBoot copyMap := ⟨rfl, rfl, by decide, by decide⟩

theorem copyLayout : ImageLayout copyBoot.symbols copyKernel :=
  ⟨by decide, by decide, by decide, by decide, by decide, by decide⟩

theorem copy_init : Early.init copyBoot .zero = .ok ⟨0x1000000, 0x1000000, 0x81000000, false⟩ := rfl

def InChunks (f : Nat) : Prop := 0x400000 ≤ f ∧ f < 0xA00000 ∨ 0x1000000 ≤ f ∧ f < 0x81000000

theorem InChunks.held {f : Nat} (h : InChunks f) : ∃ e ∈ copyMap, InSpan e f := by
  rcases h with low | high
  · exact ⟨⟨0x400000, 0x600000, .usable⟩, List.mem_cons_self, low⟩
  · exact ⟨⟨0x1000000, 0x80000000, .usable⟩, List.mem_cons_of_mem _ List.mem_cons_self, high⟩

theorem InChunks.whole {f : Nat} (h : InChunks f) (e : MemmapEntry) (he : e ∈ copyMap) (inside : InSpan e f) :
    Chunk (alignDown e.base pageSize) (span e) f := by
  simp only [copyMap, List.mem_cons, List.not_mem_nil, or_false] at he
  rcases he with rfl | rfl | rfl
  · change 0x400000 ≤ f ∧ f < 0xA00000 at inside
    change 0x400000 ≤ alignDown f page2m ∧ alignDown f page2m + page2m ≤ 0xA00000
    unfold alignDown page2m
    omega
  · change 0x1000000 ≤ f ∧ f < 0x81000000 at inside
    change 0x1000000 ≤ alignDown f page2m ∧ alignDown f page2m + page2m ≤ 0x81000000
    unfold alignDown page2m
    omega
  · change 0x81000000 ≤ f ∧ f < 0x81004000 at inside
    unfold InChunks at h
    omega

structure CopyStart (m : Machine) (F : Finset Nat) (n : Nat) : Prop where
  populated : Populated copyBoot m
  walkable : Walkable m m.currentPml4Phys F
  identity : IdentityMapped m.mem m.currentPml4Phys
  direct : ∀ f, InChunks f →
    leafOf m.mem m.currentPml4Phys (translateToHighHalfMemoryAddress f) = some (leaf2m (alignDown f page2m) pteNX, 1)
  tables : ∀ {l p n}, Reached m.mem m.currentPml4Phys l p n → 0x1000000 ≤ n ∧ n < m.early.cursor
  bitmaps : ∀ x, x < 0x1000000 → m.OutsideBitmaps x
  zero : ∀ x, x < 0x1000000 → m.mem x = 0
  cursor : m.early.cursor ≤ 0x5000000
  frames : ∀ i < 0xA00, i ∈ F ↔ n ≤ i

theorem copyStart : ∃ m F, CopyStart m F 0x400 := by
  obtain ⟨m, run, base, few⟩ := memoryBringup_returns (m := bringupMachine) copyDirect copyLayout rfl copyBringup.inRange rfl
    copy_init (show 0xFFFF800000000000 ≤ 0xFFFF800000200000 ∧ _ by decide) (by unfold InSection; decide) (by decide)
    (by decide) (by decide)
  have base : m.early.base = 0x1000000 := base
  have few : m.early.cursor ≤ 0x5000000 := Nat.le_trans few (by decide)
  obtain ⟨F, started⟩ := memoryBringup_started copyInput.walker rfl run
  obtain ⟨identity, direct⟩ := memoryBringup_mapped copyBringup rfl (by decide) run
  refine ⟨m, F, .bringup rfl run, started.walkable, identity, fun f inside => ?_, fun reach => ?_, fun x low => ?_,
    fun x low => ?_,
    few, fun i lt => ?_⟩
  · rw [translateToHighHalfMemoryAddress, show add64 f higherHalfMemoryOffset = add64 higherHalfMemoryOffset f by
      unfold add64; rw [Nat.add_comm]]
    exact direct f inside.held inside.whole
  · have place := started.tables reach
    rw [base] at place
    exact place
  · exact (started.outside x (.inl (by rw [base]; exact low))).1
  · exact (started.outside x (.inl (by rw [base]; exact low))).2
  · have usable : UsableFrame copyBoot i ↔ 0x400 ≤ i ∧ i < 0xA00 ∨ 0x1000 ≤ i ∧ i < 0x81000 := by
      simp only [UsableFrame, copyBoot, copyMap, Option.getD_some, List.mem_cons, List.not_mem_nil, or_false,
        exists_eq_or_imp, exists_eq_left,
        reduceCtorEq, false_and, true_and]
      rw [show within _ _ = Finset.Ico 0x400 0xA00 by rfl, show within _ _ = Finset.Ico 0x1000 0x81000 by rfl,
        Finset.mem_Ico, Finset.mem_Ico]
    refine ⟨fun free => ?_, fun low => (started.members i).mpr ⟨Nat.lt_trans lt (by decide),
      available_of started.sound (usable.mpr (.inl ⟨low, lt⟩)) ?_ ?_ ?_⟩⟩
    · have := usable.mp ((started.members i).mp free).2.1
      omega
    · rintro k ⟨⟩
      rw [show meeting _ _ = Finset.Ico 0x81000 0x81004 by rfl, Finset.mem_Ico]
      omega
    · simp [copyBoot, directBoot]
    · rw [base]
      unfold meeting
      split
      · simp
      · rw [Finset.mem_Ico]
        unfold pageSize
        omega

theorem CopyStart.take {n : Nat} (h : CopyStart m F n) (lt : n < 0xA00) :
    ∃ m', m.frameAlloc = .ok (n * pageSize, m') ∧ CopyStart m' (F.erase n) (n + 1) := by
  have member : n ∈ F := (h.frames n lt).mpr (Nat.le_refl n)
  have lowest : ∀ j ∈ F, n ≤ j := fun j hj => by
    by_cases low : j < 0xA00
    · exact (h.frames j low).mp hj
    · omega
  have first : F.min' ⟨n, member⟩ = n := Nat.le_antisymm (F.min'_le n member) (F.le_min' _ n lowest)
  have run := frameAlloc_spec h.walkable.runtime.managed ⟨n, member⟩
  rw [first] at run
  obtain ⟨i, same, taken⟩ := frameAlloc_taken h.walkable.runtime run
  obtain rfl : n = i := Nat.le_antisymm (lowest i taken.member) (taken.lowest n member)
  have root := taken.pml4
  have identity := h.identity.same taken.grown
  refine ⟨_, run, .take h.populated run, h.walkable.taken taken, ?_, fun f inside => ?_, fun reach => ?_,
    fun x low => ?_, fun x low => ?_,
    ?_, fun i low => ?_⟩
  · rw [root]
    exact identity
  · rw [root]
    exact (taken.grown.leaves _).trans (h.direct f inside)
  · rw [root] at reach
    rw [taken.early]
    exact h.tables ((taken.grown.tables reach).resolve_right id)
  · exact (taken.outside x).mpr (h.bitmaps x low)
  · exact (taken.bytes x (h.bitmaps x low)).trans (h.zero x low)
  · rw [taken.early]
    exact h.cursor
  · rw [Finset.mem_erase, h.frames i low]
    omega

theorem CopyStart.source {n : Nat} (h : CopyStart m F n) : Source m m.currentPml4Phys := by
  obtain ⟨_, habitable⟩ := h.populated.habitable copyInput
  exact habitable.source

theorem CopyStart.fresh {n : Nat} {pool : FramePool} (h : CopyStart m F n) (hands : pool.hands fs m) (count : fs.length = 515)
    (nodup : (newTable :: fs).Nodup) (aligned : ∀ f ∈ newTable :: fs, f % pageSize = 0)
    (apart : ∀ f ∈ newTable :: fs, page2m ≤ f ∧ (f < 0x1000000 ∨ m.early.cursor ≤ f)) (small : ∀ f ∈ fs, f < 2 ^ 47)
    (own : ∀ f ∈ newTable :: fs, ∀ x ∈ pageAt f, x ∉ pool.own)
    (records : ∀ x, x < page2m ∨ (∃ l p n, Reached m.mem m.currentPml4Phys l p n ∧ x ∈ pageAt n) → x ∉ pool.own) :
    FreshFrames pool m m.currentPml4Phys newTable fs where
  hands := ⟨[], by rw [List.append_nil]; exact hands⟩
  count := by rw [count, h.identity.frameCount_eq h.source]
  nodup := nodup
  aligned := aligned
  small := small
  own := own
  tables {l p n} reach := by
    refine ⟨fun inside => ?_, fun x page => records x (.inr ⟨l, p, n, reach, page⟩)⟩
    have place := h.tables reach
    have away := apart n inside
    omega
  pages va low e k found := by
    have first := h.identity.address low found
    have page : (e &&& addrMask) % pageSize = 0 := by
      rw [and_addrMask]
      exact Nat.mul_mod_left _ _
    refine ⟨fun inside => ?_, fun x there => records x (.inl ?_)⟩
    · have away := apart _ inside
      omega
    · unfold pageAt at there
      rw [Set.mem_Ico] at there
      unfold page2m pageSize at *
      omega

/-! ### Frames that begin 2 MiB pages -/

def nextChunk (c : Nat) : Nat := (c + page2m - 1) / page2m * page2m

theorem nextChunk_spec (c : Nat) : nextChunk c % page2m = 0 ∧ c ≤ nextChunk c ∧ nextChunk c < c + page2m := by
  unfold nextChunk page2m
  omega

theorem nextChunk_next (c : Nat) : nextChunk (nextChunk c + pageSize) = nextChunk c + page2m := by
  unfold nextChunk page2m pageSize
  omega

def chunkFrames : Nat → Nat → List Nat
  | _, 0 => []
  | c, n + 1 => nextChunk c :: chunkFrames (nextChunk c + pageSize) n

theorem chunkFrames_length (c n : Nat) : (chunkFrames c n).length = n := by
  induction n generalizing c with
  | zero => rfl
  | succ n ih => rw [chunkFrames, List.length_cons, ih]

theorem mem_chunkFrames {c n f : Nat} (hf : f ∈ chunkFrames c n) :
    f % page2m = 0 ∧ nextChunk c ≤ f ∧ f < nextChunk c + n * page2m := by
  induction n generalizing c with
  | zero => cases hf
  | succ n ih =>
    rw [Nat.succ_mul]
    rcases List.mem_cons.mp hf with rfl | later
    · have positive : 0 < page2m := by decide
      exact ⟨(nextChunk_spec c).1, Nat.le_refl _, by omega⟩
    · have place := ih later
      rw [nextChunk_next] at place
      exact ⟨place.1, by omega, by omega⟩

theorem chunkFrames_nodup (c n : Nat) : (chunkFrames c n).Nodup := by
  induction n generalizing c with
  | zero => exact List.nodup_nil
  | succ n ih =>
    refine List.nodup_cons.mpr ⟨fun again => ?_, ih _⟩
    have above := (mem_chunkFrames again).2.1
    rw [nextChunk_next] at above
    unfold page2m at above
    omega

def chunkPool : FramePool where
  supply m :=
    let page := nextChunk m.early.cursor
    .ok (page, { m with early := { m.early with cursor := page + pageSize } })
  own := ∅
  hands fs m := fs = chunkFrames m.early.cursor fs.length
  next := by
    intro f fs m frames
    rw [List.length_cons, chunkFrames] at frames
    obtain ⟨rfl, rest⟩ := List.cons.inj frames
    exact ⟨_, rfl, rest, fun x _ => rfl⟩
  other frames _ := frames

theorem CopyStart.chunks {n f : Nat} (h : CopyStart m F n) (hf : f ∈ chunkFrames m.early.cursor 515) :
    f % page2m = 0 ∧ m.early.cursor ≤ f ∧ 0x1000000 ≤ f ∧ f < 0x81000000 := by
  have place := nextChunk_spec m.early.cursor
  have inside := mem_chunkFrames hf
  have low := h.tables .root
  have high := h.cursor
  unfold page2m at *
  omega

/-- The first frames of 2 MiB pages are all right: each is cleared after it is mapped. -/
theorem pagingDuplicate_copies_chunks : ∃ m m', Populated copyBoot m ∧
    m.pagingDuplicate (some chunkPool.supply) m.currentPml4Phys 0x400000 = .ok m' ∧
      DeepCopy m m' m.currentPml4Phys 0x400000 (chunkFrames m.early.cursor 515) ∅ := by
  obtain ⟨m, F, h⟩ := copyStart
  have chunks := fun f hf => h.chunks (f := f) hf
  have lands : ∀ f ∈ chunkFrames m.early.cursor 515, landsIn m m.currentPml4Phys f = some f := by
    intro f hf
    obtain ⟨aligned, _, low, high⟩ := chunks f hf
    have lands := h.source.lands_large (Nat.lt_trans high (by decide)) (h.direct f (.inr ⟨low, high⟩))
    rwa [show alignDown f page2m = f from Nat.div_mul_cancel (Nat.dvd_of_mod_eq_zero aligned)] at lands
  have fresh : FreshFrames chunkPool m m.currentPml4Phys 0x400000 (chunkFrames m.early.cursor 515) := by
    refine h.fresh ?_ (chunkFrames_length _ _) (List.nodup_cons.mpr ⟨fun inside => ?_, chunkFrames_nodup _ _⟩) (fun f hf => ?_)
      (fun f hf => ?_) (fun f hf => ?_) (fun _ _ _ _ => id) fun _ _ => id
    · change _ = chunkFrames _ _
      rw [chunkFrames_length]
    · have := chunks _ inside
      omega
    · rcases List.mem_cons.mp hf with rfl | hf
      · decide
      · have := (chunks f hf).1
        unfold page2m at this
        unfold pageSize
        omega
    · rcases List.mem_cons.mp hf with rfl | hf
      · exact ⟨by decide, .inl (by decide)⟩
      · have := chunks f hf
        unfold page2m
        omega
    · have := chunks f hf
      omega
  have direct : ∀ f ∈ chunkFrames m.early.cursor 515, InDirectMap chunkPool m m.currentPml4Phys f := by
    intro f hf
    obtain ⟨aligned, above, low, high⟩ := chunks f hf
    refine .inr ⟨h.direct f (.inr ⟨low, high⟩), fun l p reach => ?_, fun _ _ => id⟩
    rw [show alignDown f page2m = f from Nat.div_mul_cancel (Nat.dvd_of_mod_eq_zero aligned)] at reach
    have := h.tables reach
    omega
  obtain ⟨m', run, exact⟩ := (pagingDuplicate_copies_iff copyInput h.populated fresh).2 direct
    (.inl fun f hf t there _ => Option.some.inj (there.symm.trans (lands f hf)))
  exact ⟨m, m', h.populated, run, exact.mpr fun f hf => ⟨f, lands f hf, .inl rfl⟩⟩

/-! ### Frames of `frame_alloc` -/

def nextFrames : List Nat := (List.range' 0x402 515).map (· * pageSize)

theorem mem_nextFrames {f : Nat} (hf : f ∈ nextFrames) : f % pageSize = 0 ∧ 0x402000 ≤ f ∧ f < 0x605000 := by
  obtain ⟨i, hi, rfl⟩ := List.mem_map.mp hf
  have place := List.mem_range'_1.mp hi
  unfold pageSize
  omega

theorem CopyStart.lowest (h : CopyStart m F 0x402) : Lowest (List.range' 0x402 515) F where
  sorted := List.pairwise_lt_range'
  free i hi := by
    have place := List.mem_range'_1.mp hi
    exact (h.frames i (by omega)).mpr (by omega)
  below i hi j hj := by
    have place := List.mem_range'_1.mp hi
    rw [List.mem_range'_1]
    by_cases low : j < 0xA00
    · have := (h.frames j low).mp hj
      omega
    · omega

/-- The kernel takes one frame, clears it and keeps it, and takes the next one for the new root.
The copy then writes into the first. -/
theorem pagingDuplicate_writes_elsewhere : ∃ m m', Populated copyBoot m ∧
    FreshFrames (framePool m) m m.currentPml4Phys 0x401000 nextFrames ∧
      m.pagingDuplicate (some frameAlloc) m.currentPml4Phys 0x401000 = .ok m' ∧
        entry m.mem 0x400000 2 = 0 ∧ entry m'.mem 0x400000 2 = 0x402007 ∧
          ¬ DeepCopy m m' m.currentPml4Phys 0x401000 nextFrames (framePool m).own := by
  obtain ⟨m₀, F₀, h₀⟩ := copyStart
  obtain ⟨m₁, _, h₁⟩ := h₀.take (by decide)
  obtain ⟨m, _, h⟩ := h₁.take (by decide)
  have elsewhere : ∀ x, x < 0x1000000 → x ∉ (framePool m).own := fun x low inside => inside (h.bitmaps x low)
  have head : ∀ f ∈ nextFrames, InChunks f ∧ 0x400000 ≤ alignDown f page2m ∧ alignDown f page2m < 0xA00000 := by
    intro f hf
    have place := mem_nextFrames hf
    unfold InChunks alignDown page2m
    omega
  have place : ∀ f ∈ 0x401000 :: nextFrames, f % pageSize = 0 ∧ 0x401000 ≤ f ∧ f < 0x605000 := by
    intro f hf
    rcases List.mem_cons.mp hf with rfl | hf
    · decide
    · have place := mem_nextFrames hf
      exact ⟨place.1, by omega, place.2.2⟩
  have fresh : FreshFrames (framePool m) m m.currentPml4Phys 0x401000 nextFrames := by
    refine h.fresh ⟨rfl, _, _, rfl, h.lowest, h.walkable.runtime.managed⟩ ?_ ?_ (fun f hf => (place f hf).1) (fun f hf => ?_)
      (fun f hf => ?_) (fun f hf x page => ?_) ?_
    · rw [nextFrames, List.length_map, List.length_range']
    · refine List.nodup_cons.mpr ⟨fun inside => ?_, List.Nodup.map (fun i j same => ?_) List.nodup_range'⟩
      · have := mem_nextFrames inside
        omega
      · exact Nat.eq_of_mul_eq_mul_right (by decide) same
    · have := place f hf
      unfold page2m
      omega
    · have := mem_nextFrames hf
      omega
    · have := place f hf
      unfold pageAt pageSize at page
      rw [Set.mem_Ico] at page
      exact elsewhere x (by omega)
    · rintro x (low | ⟨l, p, n, reach, page⟩)
      · exact elsewhere x (by unfold page2m at low; omega)
      · have runtime := h.walkable.runtime
        exact fun own => own ((runtime.tables reach).2 x ((in_page (runtime.tree.node_aligned reach)).mp page))
  have direct : ∀ f ∈ nextFrames, InDirectMap (framePool m) m m.currentPml4Phys f := by
    intro f hf
    obtain ⟨inside, low, high⟩ := head f hf
    refine .inr ⟨h.direct f inside, fun l p reach => ?_, fun x page => elsewhere x ?_⟩
    · have := h.tables reach
      omega
    · unfold pageAt pageSize at page
      rw [Set.mem_Ico] at page
      omega
  have first : 0x402000 ∈ nextFrames := List.mem_cons_self
  have off : 0x400000 ∉ 0x401000 :: nextFrames := fun inside => by
    have := place _ inside
    omega
  have lands : landsIn m m.currentPml4Phys 0x402000 = some 0x400000 :=
    h.source.lands_large (by decide) (h.direct _ (head _ first).1)
  have zero : entry m.mem 0x400000 2 = 0 := entry_zero fun x low high => h.zero x (by unfold pageSize at high; omega)
  obtain ⟨m', run, stored⟩ := fresh.stores h.source direct
  have word : entry m'.mem 0x400000 2 = 0x402007 := stored _ first _ lands off
  refine ⟨m, m', h.populated, fresh, run, zero, word, fun copy => ?_⟩
  have kept := fresh.kept h.source direct (i := 2) copy first lands off
  rw [word, zero] at kept
  cases kept

end Voyager.Machine
