import Voyager.Paging.DeepCopy
import Voyager.Paging.Walkers

/-!
# Address spaces with a lower half

The only large pages are those of the direct map, so the lower half has none.
-/

namespace Voyager.Machine

open Lib Lib.ByteSpace Lib.RadixTable Paging

def LowerSmall (mem : Bytes) (root : Nat) : Prop := ∀ va, slotOf va < 256 → ∀ e k, leafOf mem root va = some (e, k) → k = 0

def Request.Half (r : Request) : Prop := r.large = true → 256 ≤ slotOf r.va

/-- A direct map at `HIGHER_HALF_MEMORY_OFFSET` that does not wrap around. The boot protocol
never calls the first page usable. -/
structure CopyInput (boot : Boot) (entries : List MemmapEntry) : Prop where
  hhdm : boot.hhdm = some higherHalfMemoryOffset
  memmap : boot.memmap = some entries
  below : ∀ e ∈ entries, e.base + e.length ≤ 2 ^ 47
  first : ∀ e ∈ entries, e.type = .usable → pageSize ≤ e.base

variable {m m' m₀ : Machine} {mem mem' : Bytes} {root va pa flags rsp : Nat} {boot : Boot}
  {entries : List MemmapEntry} {r : Request}
  {F : Finset Nat}

theorem CopyInput.walker (h : CopyInput boot entries) : WalkerInput boot entries :=
  ⟨h.hhdm, h.memmap, fun e he => Nat.le_trans (h.below e he) (by decide)⟩

theorem Entered.lowerSmall (h : Entered m m' root Request.Half) (hier : Hierarchy m root) (small : LowerSmall m.mem root) :
    LowerSmall m'.mem root := by
  intro va low e k found
  rcases h.found hier found with old | ⟨r, half, covers, leaf⟩
  · exact small va low e k old
  · cases large : r.large with
    | false =>
      rw [Request.leaf, large] at leaf
      exact (congrArg Prod.snd leaf).symm
    | true =>
      have upper := half large
      have same := covers.slotOf
      omega

theorem Patched.lowerSmall {target : Nat → Prop} (h : Patched m m' root target) (small : LowerSmall m.mem root) :
    LowerSmall m'.mem root := by
  intro va low e k found
  rcases h.added va _ found with old | ⟨p, _, _, leaf⟩
  · exact small va low e k old
  · exact congrArg Prod.snd leaf

theorem identity_half (hr : r ∈ identityRequests) : r.Half := by
  obtain ⟨x, _, _, rfl⟩ := mem_identityRequests.mp hr
  intro large
  cases large

theorem kernel_half {k : KernelAddress} {s : Symbols} (hr : r ∈ kernelRequests k s) : r.Half := by
  have section' : ∀ {start stop flags}, r ∈ sectionRequests k start stop flags → r.Half := fun inside => by
    obtain ⟨x, _, _, rfl⟩ := mem_sectionRequests.mp inside
    intro large
    cases large
  rw [kernelRequests, List.mem_append, List.mem_append] at hr
  rcases hr with (text | rodata) | data
  · exact section' text
  · exact section' rodata
  · exact section' data

theorem CopyInput.span_le {e : MemmapEntry} (input : CopyInput boot entries) (he : e ∈ entries) :
    span e = 0 ∨ alignDown e.base pageSize + span e ≤ 2 ^ 47 :=
  Machine.span_le (fun _ => input.below e he) (by decide) (by decide)

theorem hhdm_half (input : CopyInput boot entries) (hr : r ∈ hhdmRequests higherHalfMemoryOffset entries) : r.Half := by
  obtain ⟨p, large, rfl, _, place⟩ := hhdmRequests_cases (by decide) (fun e he => input.walker.span_le he) hr
  have low : p < 2 ^ 47 := by
    rcases place with ⟨rfl, _⟩ | ⟨e, he, inside, _⟩
    · decide
    · have top := input.span_le he
      unfold InSpan at inside
      omega
  intro _
  change 256 ≤ slotOf (add64 higherHalfMemoryOffset p)
  unfold slotOf add64 higherHalfMemoryOffset
  omega

theorem pagingBootstrap_lowerSmall (input : CopyInput boot entries) (sound : m.early.Sound)
    (run : m.pagingBootstrap boot rsp = .ok m') : LowerSmall m'.mem m'.paging.cr3 := by
  obtain ⟨k, start, m₄, m₅, root, h⟩ := pagingBootstrap_requests sound input.hhdm (by decide) input.memmap
    (fun e he => input.walker.span_le he) run
  have hier := h.fresh.ready.hierarchy
  have entered : Entered start m₄ root Request.Half := by
    refine ⟨_, fun r hr => ?_, h.pages⟩
    rcases mem_bootRequests.mp hr with identity | image | direct
    · exact identity_half identity
    · exact kernel_half image
    · exact hhdm_half input direct
  have empty : LowerSmall start.mem root := fun va _ e k found => by
    rw [h.fresh.empty] at found
    cases found
  obtain ⟨_, _, patched⟩ := preSwitchAuditAndPatch_ok ((entered.evolves hier).hierarchy hier) h.audit
  rw [h.switch]
  exact patched.lowerSmall (entered.lowerSmall hier empty)

/-- Address spaces that `memory_bringup` leaves and that have got pages in the lower half since.
Meanwhile frames are taken, and bytes of neither the tables nor the bitmaps change. -/
inductive Populated (boot : Boot) : Machine → Prop where
  | bringup {m m' : Machine} {rsp : Nat} : m.early = .zero → m.memoryBringup boot rsp = .ok m' → Populated boot m'
  | map {m m' : Machine} {va pa flags : Nat} : Populated boot m → va < 2 ^ 47 → (Operation.map va pa flags).Valid →
      m.pagingMapMemory (some supplyFromFrame) m.currentPml4Phys va pa flags = .ok m' → Populated boot m'
  | take {m m' : Machine} {f : Nat} : Populated boot m → m.frameAlloc = .ok (f, m') → Populated boot m'
  | store {m : Machine} {mem' : Bytes} : Populated boot m → (∀ x, ¬ m.OutsideBitmaps x → mem' x = m.mem x) →
      (∀ l p n, Reached m.mem m.currentPml4Phys l p n → ∀ x ∈ pageAt n, mem' x = m.mem x) →
      Populated boot { m with mem := mem' }

structure Habitable (m : Machine) (F : Finset Nat) : Prop where
  walkable : Walkable m m.currentPml4Phys F
  zero : 0 ∉ F
  lower : LowerSmall m.mem m.currentPml4Phys

theorem memoryBringup_habitable (input : CopyInput boot entries) (fresh : m.early = .zero)
    (run : m.memoryBringup boot rsp = .ok m') : ∃ F, Habitable m' F := by
  obtain ⟨F, started⟩ := memoryBringup_started input.walker fresh run
  refine ⟨F, started.walkable, fun zero => ?_, ?_⟩
  · obtain ⟨e, he, usable, inside⟩ := ((started.members 0).mp zero).2.1
    rw [input.memmap] at he
    have above := input.first e he usable
    have stop : e.stop ≤ 2 ^ 52 := by
      have top := input.below e he
      unfold MemmapEntry.stop add64
      omega
    have low := (inside_of_within (p := 0) (by decide) stop inside).1
    unfold pageSize at above
    omega
  · obtain ⟨early, m₁, steps⟩ := memoryBringup_steps input.memmap input.walker.inRange fresh run
    have switched := steps.switched
    obtain ⟨_, _, root, tables, _⟩ := switched.runtime steps.start input.memmap input.walker.inRange steps.frames
    have grown : Grown m₁.mem m'.mem m₁.paging.cr3 (fun _ => False) := switched.hierarchy.tree.same tables
    intro va low e k found
    rw [root, grown.leaves] at found
    exact pagingBootstrap_lowerSmall (m := { m with early }) input steps.sound steps.bootstrap va low e k found

theorem mapped_tidy (valid : (Operation.map va pa flags).Valid) : TidyEntry (pa ||| flags ||| pteP) := by
  have address := (mapped_word valid).2
  obtain ⟨aligned, small, _⟩ := valid
  have present : (pa ||| flags ||| pteP).testBit 0 = true := by
    rw [Nat.testBit_or, show pteP.testBit 0 = true by decide, Bool.or_true]
  have narrow : (pa ||| flags ||| pteP) &&& addrMask = pa := by
    rw [show addrMask = pageAddressMask &&& addrMask by decide, ← Nat.and_assoc, address]
    exact (frame_and aligned small).1
  rw [TidyEntry, if_pos present, address, narrow]

theorem Habitable.mapped (h : Habitable m F) (low : va < 2 ^ 47) (valid : (Operation.map va pa flags).Valid)
    (run : m.pagingMapMemory (some supplyFromFrame) m.currentPml4Phys va pa flags = .ok m') : ∃ F', Habitable m' F' := by
  have low' : slotOf va < 256 := by
    unfold slotOf
    omega
  have small := h.lower va low'
  obtain ⟨lt, address⟩ := mapped_word valid
  obtain ⟨F', T, extends', _, leaves⟩ := pagingMapMemory_spec h.walkable.runtime h.zero small lt run
  have found : ∀ va' e k, leafOf m'.mem m.currentPml4Phys va' = some (e, k) →
      k = 0 ∨ leafOf m.mem m.currentPml4Phys va' = some (e, k) := by
    intro va' e k found
    rw [leaves] at found
    split at found
    · cases found
      exact .inl rfl
    · exact .inr found
  have root : m'.currentPml4Phys = m.currentPml4Phys := by
    unfold currentPml4Phys
    rw [extends'.paging]
  refine ⟨F', ⟨?_, ?_, ?_⟩, fun inside => h.zero (extends'.sub inside), ?_⟩
  · rw [root]
    exact extends'.runtime
  · rw [root]
    exact pagingMapMemory_tidy h.walkable.runtime h.zero h.walkable.tidy small lt (mapped_tidy valid) run
  · rw [root]
    intro va' e k there
    rcases found va' e k there with rfl | old
    · exact Nat.zero_le 1
    · exact h.walkable.level va' e k old
  · rw [root]
    intro va' low' e k there
    rcases found va' e k there with none | old
    · exact none
    · exact h.lower va' low' e k old

theorem Habitable.taken {f : Nat} (h : Habitable m F) (run : m.frameAlloc = .ok (f, m')) : ∃ F', Habitable m' F' := by
  obtain ⟨i, rfl, taken⟩ := frameAlloc_taken h.walkable.runtime run
  refine ⟨F.erase i, h.walkable.taken taken, fun inside => h.zero (Finset.mem_of_mem_erase inside), ?_⟩
  rw [taken.pml4]
  intro va low e k found
  exact h.lower va low e k ((taken.grown.leaves va).symm.trans found)

theorem Habitable.stored (h : Habitable m F) (bitmaps : ∀ x, ¬ m.OutsideBitmaps x → mem' x = m.mem x)
    (tables : ∀ l p n, Reached m.mem m.currentPml4Phys l p n → ∀ x ∈ pageAt n, mem' x = m.mem x) :
    Habitable { m with mem := mem' } F := by
  have aligned := fun {l p n} => h.walkable.runtime.tree.node_aligned (l := l) (p := p) (n := n)
  have kept : Runtime { m with mem := mem' } m.currentPml4Phys F ∧ Grown m.mem mem' m.currentPml4Phys fun _ => False :=
    h.walkable.runtime.other rfl bitmaps fun reach x page => tables _ _ _ reach x ((in_page (aligned reach)).mpr page)
  obtain ⟨runtime, grown⟩ := kept
  refine ⟨⟨runtime, h.walkable.tidy.same grown fun reach x low high => tables _ _ _ reach x ⟨low, high⟩, ?_⟩, h.zero, ?_⟩
  · intro va e k found
    exact h.walkable.level va e k ((grown.leaves va).symm.trans found)
  · intro va low e k found
    exact h.lower va low e k ((grown.leaves va).symm.trans found)

theorem Populated.habitable (h : Populated boot m) (input : CopyInput boot entries) : ∃ F, Habitable m F := by
  induction h with
  | bringup fresh run => exact memoryBringup_habitable input fresh run
  | map _ low valid run ih =>
    obtain ⟨F, habitable⟩ := ih
    exact habitable.mapped low valid run
  | take _ run ih =>
    obtain ⟨F, habitable⟩ := ih
    exact habitable.taken run
  | store _ bitmaps tables ih =>
    obtain ⟨F, habitable⟩ := ih
    exact ⟨F, habitable.stored bitmaps tables⟩

theorem Habitable.source (h : Habitable m F) : Source m m.currentPml4Phys where
  tree := h.walkable.runtime.tree
  plain := h.walkable.runtime.plain
  tidy := h.walkable.tidy
  level := h.walkable.level
  lower va low := h.lower va (by unfold slotOf; omega)

end Voyager.Machine
