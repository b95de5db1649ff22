import Voyager.Heap.Private
import Voyager.Paging.Operations

/-!
# Two walkers over one hierarchy

`walk_va_to_pa` and `PagingPhysicalMemory` agree about 4 KiB pages and about what is not
mapped; on a 2 MiB page the second returns a word of the page's first frame.
-/

namespace Voyager.Machine

open Lib Lib.ByteSpace Lib.RadixTable Paging

/-- `PagingPhysicalMemory` gives the page of the address that `walk_va_to_pa` gives. -/
structure WalkersAgree (m : Machine) (root va : Nat) : Prop where
  mapped : ∀ pa level, m.walkVaToPa va root = some (pa, level) → m.pagingPhysicalMemory root va = alignDown pa pageSize
  unmapped : m.pagingPhysicalMemory root va = 0 ↔ m.walkVaToPa va root = none

/-- If `va` lies in a 2 MiB page, the word of that page's first frame which its last index
selects holds the address of its own physical page. -/
def MisreadsItself (m : Machine) (root va : Nat) : Prop :=
  ∀ e, leafOf m.mem root va = some (e, 1) →
    entry m.mem (e &&& pageAddressMask) (vaddrIndices va).pt &&& pageAddressMask = alignDown (leafAddress e 1 va) pageSize

variable {m m' m₀ : Machine} {mem : Bytes} {root va pa flags n l c e : Nat} {p : List (Fin 512)} {idx : Fin 512}
  {F F' : Finset Nat} {boot : Boot} {entries : List MemmapEntry}

/-! ### One hierarchy -/

theorem pagingPhysicalMemory_small (plain : Plain m.mem root) (tidy : Tidy m.mem root)
    (small : ∀ e k, leafOf m.mem root va = some (e, k) → k = 0) : m.pagingPhysicalMemory root va =
      (leafOf m.mem root va).elim 0 fun r => r.1 &&& addrMask := by
  have ordinary := Plain.ordinary plain small
  have table : ∀ pt, Reached m.mem root 0 [(vaddrIndices va).pml4, (vaddrIndices va).pdpt, (vaddrIndices va).pd] pt →
      ((backingOf m.mem root va).elim 0 fun r => r.1 &&& pageAddressMask) =
        (leafOf m.mem root va).elim 0 fun r => r.1 &&& addrMask := by
    intro pt reach
    rw [backingOf_page ((Plain.table_iff plain).mpr reach), pageEntry_address, leafOf_table reach, tidy _ reach]
    split
    · rfl
    · rfl
  rw [pagingPhysicalMemory_eq ordinary]
  rcases findPageTable_cases ordinary with ⟨_, nothing⟩ | ⟨pt, _, reach⟩
  · cases found : leafOf m.mem root va with
    | none =>
      rw [nothing]
      rfl
    | some r =>
      obtain ⟨e, k⟩ := r
      obtain rfl := small e k found
      obtain ⟨pt, reach⟩ := leafOf_page found
      rw [table pt reach, found]
  · exact table pt ((Plain.table_iff plain).mp reach)

theorem pagingPhysicalMemory_large (plain : Plain m.mem root) (large : leafOf m.mem root va = some (e, 1)) :
    m.pagingPhysicalMemory root va =
      entry m.mem (e &&& pageAddressMask) (vaddrIndices va).pt &&& pageAddressMask := by
  have backing := (Plain.large_iff plain .root (path_length va)).mpr large
  unfold pagingPhysicalMemory
  rw [virtualAddressToOffsets_eq]
  dsimp only
  rw [findPageTable_large backing]
  rfl

theorem leafAddress_page : alignDown (leafAddress e 0 va) pageSize = e &&& addrMask := by
  rw [leafAddress, and_addrMask, pageSize, show (4096 - 1 : Nat) = 2 ^ 12 - 1 from rfl, Nat.and_two_pow_sub_one_eq_mod,
    Bits.or_low (Nat.mod_lt _ (by decide))]
  unfold alignDown
  omega

theorem walkersAgree_iff (plain : Plain m.mem root) (tidy : Tidy m.mem root) (level : Level m root 1)
    (nonzero : ∀ pa level, m.walkVaToPa va root = some (pa, level) → pageSize ≤ pa) :
    WalkersAgree m root va ↔ MisreadsItself m root va := by
  have walk : m.walkVaToPa va root = _ := walkVaToPa_eq
  have page : ∀ pa, pageSize ≤ pa → alignDown pa pageSize ≠ 0 := by
    intro pa large
    unfold alignDown pageSize at *
    omega
  cases found : leafOf m.mem root va with
  | none =>
    rw [found, Option.map_none] at walk
    have resolve : m.pagingPhysicalMemory root va = _ := pagingPhysicalMemory_small plain tidy (by simp [found])
    rw [found] at resolve
    refine ⟨fun _ e large => ?_, fun _ => ⟨fun pa level there => ?_, fun _ => walk, fun _ => resolve⟩⟩
    · rw [found] at large
      cases large
    · rw [walk] at there
      cases there
  | some r =>
    obtain ⟨e, k⟩ := r
    rw [found, Option.map_some] at walk
    have big := page _ (nonzero _ _ walk)
    have mapped : WalkersAgree m root va ↔ m.pagingPhysicalMemory root va = alignDown (leafAddress e k va) pageSize := by
      refine ⟨fun agree => agree.mapped _ _ walk, fun resolve => ⟨fun pa level there => ?_, ?_⟩⟩
      · rw [walk] at there
        cases there
        exact resolve
      · rw [resolve, walk]
        exact ⟨fun zero => absurd zero big, fun none => by cases none⟩
    rw [mapped]
    cases k with
    | zero =>
      have resolve : m.pagingPhysicalMemory root va = _ := pagingPhysicalMemory_small plain tidy (by simp [found])
      rw [found] at resolve
      refine ⟨fun _ e' large => ?_, fun _ => resolve.trans leafAddress_page.symm⟩
      rw [found] at large
      cases large
    | succ k =>
      obtain rfl : k = 0 := by
        have := level va e _ found
        omega
      rw [pagingPhysicalMemory_large plain found]
      refine ⟨fun agree e' large => ?_, fun misread => misread e found⟩
      rw [found] at large
      cases large
      exact agree

/-! ### The heap's calls -/

def mapHeapCalls (m : Machine) (vas : List Nat) : Kernel Machine := vas.foldlM mapHeapPage m

structure Walkable (m : Machine) (root : Nat) (F : Finset Nat) : Prop where
  runtime : Runtime m root F
  tidy : Tidy m.mem root
  level : Level m root 1

theorem Tidy.same (h : Tidy mem root) {mem' : Bytes} (grown : Grown mem mem' root fun _ => False)
    (same : ∀ {l p n}, Reached mem root l p n → ∀ x, n ≤ x → x < n + pageSize → mem' x = mem x) : Tidy mem' root := by
  intro p n i reach
  have old := (grown.tables reach).resolve_right id
  rw [entry_congr (same old)]
  exact h i old

theorem Taken.tidy {i : Nat} (h : Taken m m' root F i) (runtime : Runtime m root F) (tidy : Tidy m.mem root) :
    Tidy m'.mem root :=
  tidy.same h.grown fun reach x low high =>
    h.bytes x ((runtime.tables reach).2 x ((in_page (runtime.tree.node_aligned reach)).mp ⟨low, high⟩))

theorem Taken.pml4 {i : Nat} (h : Taken m m' root F i) : m'.currentPml4Phys = m.currentPml4Phys := by
  unfold currentPml4Phys
  rw [h.paging]

theorem Walkable.taken {i : Nat} (h : Walkable m m.currentPml4Phys F) (taken : Taken m m' m.currentPml4Phys F i) :
    Walkable m' m'.currentPml4Phys (F.erase i) := by
  rw [taken.pml4]
  refine ⟨taken.runtime, taken.tidy h.runtime h.tidy, fun va e k found => ?_⟩
  exact h.level va e k ((taken.grown.leaves va).symm.trans found)

theorem getOrAllocEntry_tidy (h : Runtime m root F) (zero : 0 ∉ F) (tidy : Tidy m.mem root)
    (reach : Reached m.mem root (l + 1) p n)
    (run : m.getOrAllocEntry (some supplyFromFrame) n idx (pteW ||| pteU) = .ok (c, m')) :
    Tidy m'.mem root := by
  cases present : (entry m.mem n idx).testBit 0 with
  | true =>
    unfold getOrAllocEntry at run
    dsimp only at run
    rw [if_neg (by rw [pteP, Bits.and_bit_eq_zero, present]; decide)] at run
    cases run
    exact tidy
  | false =>
    obtain ⟨i, m₁, frame, taken, link, points, plain, _⟩ := getOrAllocEntry_taken h zero reach present run
    have old : ∀ {k q t}, Reached m₁.mem root k q t → Reached m.mem root k q t :=
      fun r => (taken.grown.tables r).resolve_right id
    have new : ∀ k q, ¬ Reached m₁.mem root k q c := fun k q r => by
      have apart := (h.tables (old r)).1
      rw [frame, frame_page] at apart
      exact apart taken.member
    have word : entry m₁.mem n idx = entry m.mem n idx := entry_congr fun x low high =>
      taken.bytes x ((h.tables reach).2 x ((in_page (h.tree.node_aligned reach)).mp ⟨low, high⟩))
    exact (taken.tidy h tidy).link taken.grown.tree (taken.grown.kept reach) (by rw [word]; exact present)
      (by rw [frame]; exact Nat.mul_mod_left _ _) new link points plain

theorem pagingMapMemory_tidy (h : Runtime m root F) (zero : 0 ∉ F) (tidy : Tidy m.mem root)
    (small : ∀ e k, leafOf m.mem root va = some (e, k) → k = 0) (lt : (pa ||| flags ||| pteP) < 2 ^ 64)
    (word : TidyEntry (pa ||| flags ||| pteP))
    (run : m.pagingMapMemory (some supplyFromFrame) root va pa flags = .ok m') : Tidy m'.mem root := by
  unfold pagingMapMemory at run
  rw [virtualAddressToOffsets_eq] at run
  obtain ⟨⟨pdp, m₁⟩, first, run⟩ := bind_ok run
  obtain ⟨F₁, T₁, extends₁, _, reach₁, leaves₁⟩ := getOrAllocEntry_spec h zero .root rfl small first
  have tidy₁ := getOrAllocEntry_tidy h zero tidy .root first
  have zero₁ : 0 ∉ F₁ := fun inside => zero (extends₁.sub inside)
  obtain ⟨⟨pd, m₂⟩, second, run⟩ := bind_ok run
  obtain ⟨F₂, T₂, extends₂, _, reach₂, leaves₂⟩ := getOrAllocEntry_spec extends₁.runtime zero₁ reach₁ rfl
    (by rw [leaves₁]; exact small) second
  have tidy₂ := getOrAllocEntry_tidy extends₁.runtime zero₁ tidy₁ reach₁ second
  have zero₂ : 0 ∉ F₂ := fun inside => zero₁ (extends₂.sub inside)
  obtain ⟨⟨pt, m₃⟩, third, run⟩ := bind_ok run
  obtain ⟨F₃, T₃, extends₃, _, reach₃, leaves₃⟩ := getOrAllocEntry_spec extends₂.runtime zero₂ reach₂ rfl
    (by rw [leaves₂, leaves₁]; exact small) third
  have tidy₃ := getOrAllocEntry_tidy extends₂.runtime zero₂ tidy₂ reach₂ third
  cases run
  exact tidy₃.write extends₃.runtime.tree reach₃ lt (fun c table => (slot_table table).2.1 rfl) fun _ => word

theorem mapHeapPage_walkable (h : Walkable m m.currentPml4Phys F)
    (small : ∀ e k, leafOf m.mem m.currentPml4Phys va = some (e, k) → k = 0) (run : m.mapHeapPage va = .ok m') :
    m'.currentPml4Phys = m.currentPml4Phys ∧ (∃ F', Walkable m' m.currentPml4Phys F') ∧
      ∀ va' e k, leafOf m'.mem m.currentPml4Phys va' = some (e, k) → k = 0 ∨
        leafOf m.mem m.currentPml4Phys va' = some (e, k) := by
  obtain ⟨⟨phys, m₁⟩, alloc, run⟩ := bind_ok run
  obtain ⟨i, rfl, taken⟩ := frameAlloc_taken h.runtime alloc
  have fits := h.runtime.frame_lt taken.member
  have small₁ : ∀ e k, leafOf m₁.mem m.currentPml4Phys va = some (e, k) → k = 0 := by
    rw [taken.grown.leaves]
    exact small
  have tidy₁ := taken.tidy h.runtime h.tidy
  obtain ⟨F', T, extends', _, leaves⟩ := pagingMapMemory_spec taken.runtime taken.zero small₁ (heapLeaf_lt fits) run
  have found : ∀ va' e k, leafOf m'.mem m.currentPml4Phys va' = some (e, k) →
      k = 0 ∨ leafOf m.mem m.currentPml4Phys va' = some (e, k) := by
    intro va' e k found
    rw [leaves, taken.grown.leaves] at found
    split at found
    · cases found
      exact .inl rfl
    · exact .inr found
  have word : TidyEntry (heapLeaf i) := by
    rw [heapLeaf_eq fits]
    exact leaf4k_tidy (by decide)
  refine ⟨?_, ⟨F', extends'.runtime, pagingMapMemory_tidy taken.runtime taken.zero tidy₁ small₁ (heapLeaf_lt fits) word run,
    fun va' e k there => ?_⟩, found⟩
  · unfold currentPml4Phys
    rw [extends'.paging, taken.paging]
  · rcases found va' e k there with rfl | old
    · exact Nat.zero_le 1
    · exact h.level va' e k old

theorem mapHeapCalls_walkable {vas : List Nat} (h : Walkable m m.currentPml4Phys F)
    (small : ∀ va ∈ vas, ∀ e k, leafOf m.mem m.currentPml4Phys va = some (e, k) → k = 0)
    (run : m.mapHeapCalls vas = .ok m') : ∃ F', Walkable m' m'.currentPml4Phys F' := by
  induction vas generalizing m F with
  | nil =>
    cases run
    exact ⟨F, h⟩
  | cons va vas ih =>
    obtain ⟨m₁, first, rest⟩ := bind_ok (show (m.mapHeapPage va >>= fun m => m.mapHeapCalls vas) = .ok m' from run)
    obtain ⟨root, ⟨F₁, walkable⟩, found⟩ := mapHeapPage_walkable h (small va List.mem_cons_self) first
    rw [← root] at walkable
    refine ih walkable (fun va' there e k leaf => ?_) rest
    rw [root] at leaf
    rcases found va' e k leaf with none | old
    · exact none
    · exact small va' (List.mem_cons_of_mem _ there) e k old

/-! ### The kernel's hierarchies -/

structure WalkerInput (boot : Boot) (entries : List MemmapEntry) : Prop where
  hhdm : boot.hhdm = some higherHalfMemoryOffset
  memmap : boot.memmap = some entries
  inRange : Early.InRange entries

theorem WalkerInput.span_le {e : MemmapEntry} (input : WalkerInput boot entries) (he : e ∈ entries) :
    span e = 0 ∨ alignDown e.base pageSize + span e ≤ 2 ^ 52 :=
  Machine.span_le (fun _ => input.inRange e he) (by decide) (by decide)

theorem pagingBootstrap_first {rsp : Nat} (input : WalkerInput boot entries) (sound : m.early.Sound)
    (run : m.pagingBootstrap boot rsp = .ok m') (same : Same2m higherHalfMemoryOffset va) :
    leafOf m'.mem m'.paging.cr3 va = some (leaf2m 0 pteNX, 1) := by
  obtain ⟨k, start, m₄, m₅, root, h⟩ := pagingBootstrap_requests sound input.hhdm (by decide) input.memmap
    (fun e he => input.span_le he) run
  have hier := h.fresh.ready.hierarchy
  have pages := h.pages
  rw [bootRequests, hhdmRequests, ← List.append_assoc, enterAll_append] at pages
  obtain ⟨m₃, earlier, last⟩ := bind_ok pages
  rw [enterAll_singleton] at last
  have first : leafOf m₄.mem root va = some (leaf2m 0 pteNX, 1) :=
    ((enter_ok ((enterAll_evolves hier earlier).hierarchy hier) last).2 va).trans (if_pos same)
  obtain ⟨_, _, patched⟩ := preSwitchAuditAndPatch_ok ((enterAll_evolves hier h.pages).hierarchy hier) h.audit
  rw [h.switch]
  exact patched.kept va _ first

/-- Whatever was mapped: where the direct map starts, `PagingPhysicalMemory` returns what
physical page zero held before the boot. -/
theorem memoryBringup_misreads {rsp : Nat} (input : WalkerInput boot entries) (fresh : m.early = .zero)
    (run : m.memoryBringup boot rsp = .ok m') (same : Same2m higherHalfMemoryOffset va) :
    leafOf m'.mem m'.currentPml4Phys va = some (leaf2m 0 pteNX, 1) ∧
      entry m'.mem 0 (vaddrIndices va).pt = entry m.mem 0 (vaddrIndices va).pt := by
  obtain ⟨early, m₁, steps⟩ := memoryBringup_steps input.memmap input.inRange fresh run
  have switched := steps.switched
  obtain ⟨F, runtime, root, tables, below, _⟩ := switched.runtime steps.start input.memmap input.inRange steps.frames
  have grown : Grown m₁.mem m'.mem m₁.paging.cr3 (fun _ => False) := switched.hierarchy.tree.same tables
  refine ⟨?_, entry_congr fun x _ high => ?_⟩
  · rw [root, grown.leaves]
    exact pagingBootstrap_first (m := { m with early }) input steps.sound steps.bootstrap same
  · have order : early.cursor ≤ m₁.early.cursor := switched.order
    have base : pageSize ≤ early.cursor := by
      have positive := steps.sound.positive
      have aligned := steps.sound.aligned.1
      have low := steps.sound.bounds.1
      unfold pageSize at *
      omega
    rw [below x (by omega), switched.bytes x (.inl (show x < early.cursor by omega))]

/-- What `memory_bringup` leaves: the tables and the bitmaps are early pages, and nothing else
has changed. -/
structure Started (boot : Boot) (entries : List MemmapEntry) (m m' : Machine) (F : Finset Nat) : Prop where
  walkable : Walkable m' m'.currentPml4Phys F
  sound : m'.early.Sound
  members : ∀ i, i ∈ F ↔ i < framesOf entries ∧ Available boot m'.early i
  tables : ∀ {l p n}, Reached m'.mem m'.currentPml4Phys l p n → m'.early.base ≤ n ∧ n < m'.early.cursor
  outside : ∀ x, x < m'.early.base ∨ m'.early.cursor ≤ x → m'.OutsideBitmaps x ∧ m'.mem x = m.mem x

theorem memoryBringup_started {rsp : Nat} (input : WalkerInput boot entries) (fresh : m.early = .zero)
    (run : m.memoryBringup boot rsp = .ok m') : ∃ F, Started boot entries m m' F := by
  obtain ⟨early, m₁, steps⟩ := memoryBringup_steps input.memmap input.inRange fresh run
  have switched := steps.switched
  obtain ⟨F, runtime, root, same, _, members, now⟩ := switched.runtime steps.start input.memmap input.inRange steps.frames
  have grown : Grown m₁.mem m'.mem m₁.paging.cr3 (fun _ => False) := switched.hierarchy.tree.same same
  have start : early.base ≤ early.cursor := steps.start
  have order : early.cursor ≤ m₁.early.cursor := switched.order
  obtain ⟨_, _, _, placed, kept, _⟩ := frameInit_spec input.memmap input.inRange switched.hierarchy.sound steps.frames
  refine ⟨F, ⟨runtime, ?_, ?_⟩, placed.sound, members, fun reach => ?_, fun x off => ?_⟩
  · rw [root]
    exact switched.tidy.same grown same
  · rw [root]
    intro va e k found
    rw [grown.leaves] at found
    exact switched.level va e k found
  · rw [root] at reach
    obtain ⟨low, high⟩ := switched.tables ((grown.tables reach).resolve_right id)
    change early.cursor ≤ _ at low
    rw [now]
    dsimp only
    omega
  · have large := placed.large
    rw [now] at off
    dsimp only at off
    have outside : m'.OutsideBitmaps x := by
      constructor
      · rw [placed.alloc]
        omega
      · rw [placed.usable]
        omega
    refine ⟨outside, (kept x outside).trans (switched.bytes x ?_)⟩
    change x < early.cursor ∨ _
    omega

theorem walkers_agree_iff {rsp : Nat} {calls : List Nat} (input : WalkerInput boot entries) (fresh : m.early = .zero)
    (bringup : m.memoryBringup boot rsp = .ok m₀)
    (small : ∀ va ∈ calls, ∀ e k, leafOf m₀.mem m₀.currentPml4Phys va = some (e, k) → k = 0)
    (heap : m₀.mapHeapCalls calls = .ok m') (va : Nat)
    (nonzero : ∀ pa level, m'.walkVaToPa va m'.currentPml4Phys = some (pa, level) → pageSize ≤ pa) :
    WalkersAgree m' m'.currentPml4Phys va ↔ MisreadsItself m' m'.currentPml4Phys va := by
  obtain ⟨F, started⟩ := memoryBringup_started input fresh bringup
  obtain ⟨F', walkable'⟩ := mapHeapCalls_walkable started.walkable small heap
  exact walkersAgree_iff walkable'.runtime.plain walkable'.tidy walkable'.level nonzero

theorem directWalker : WalkerInput directBoot
    [⟨0x100000, 0x8000000, .usable⟩, ⟨0x8100000, 0x4000, .kernelAndModules⟩] :=
  ⟨rfl, rfl, bringupInput.inRange⟩

theorem walkers_agree_heap : ∃ m₀ m', bringupMachine.memoryBringup directBoot 0xFFFF800000200000 = .ok m₀ ∧
    m₀.mapHeapCalls [Heap.heapBase] = .ok m' ∧ WalkersAgree m' m'.currentPml4Phys Heap.heapBase := by
  obtain ⟨m₀, F, bringup, runtime, empty, enough, members, _⟩ := bringup_returns
  have start := HeapPages.start runtime empty
  obtain ⟨m', run⟩ := mapHeapPage_returns start (by decide) (by omega)
  obtain ⟨i, F', T, pages, _⟩ := mapHeapPage_spec start (by decide) run
  have heap : m₀.mapHeapCalls [Heap.heapBase] = .ok m' := (bind_eq run).trans rfl
  have leaf : leafOf m'.mem m'.currentPml4Phys Heap.heapBase = some (heapLeaf i, 0) := by
    rw [pages.root_eq]
    exact pages.leaf (j := 0) rfl 0 (by decide)
  have owned := pages.owned i (List.mem_singleton.mpr rfl)
  refine ⟨m₀, m', bringup, heap, (walkers_agree_iff directWalker rfl bringup (fun va there e k found => ?_) heap _
    fun pa level found => ?_).mpr fun e large => ?_⟩
  · rw [List.mem_singleton.mp there, empty _ (by decide)] at found
    cases found
  · rw [walkVaToPa_eq, leaf, Option.map_some, heapLeaf_address (runtime.frame_lt owned.1)] at found
    have low := (members i owned.1).1
    cases found
    unfold pageSize
    omega
  · rw [leaf] at large
    cases large

theorem first_page_unresolved : ∃ m₀, bringupMachine.memoryBringup directBoot 0xFFFF800000200000 = .ok m₀ ∧
    m₀.walkVaToPa 0xFFFF800000001000 m₀.currentPml4Phys = some (0x1000, 2) ∧
    m₀.pagingPhysicalMemory m₀.currentPml4Phys 0xFFFF800000001000 = 0 := by
  obtain ⟨m₀, F, bringup, runtime, _⟩ := bringup_returns
  have first : Same2m higherHalfMemoryOffset 0xFFFF800000001000 := by decide
  obtain ⟨large, zero⟩ := memoryBringup_misreads directWalker rfl bringup first
  refine ⟨m₀, bringup, ?_, ?_⟩
  · rw [walkVaToPa_eq, large, Option.map_some, leafAddress_2m (by decide) (by decide)]
    rfl
  · rw [pagingPhysicalMemory_large runtime.plain large, show leaf2m 0 pteNX &&& pageAddressMask = 0 by decide, zero]
    decide +kernel

end Voyager.Machine
