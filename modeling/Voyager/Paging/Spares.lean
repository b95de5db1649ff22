import Voyager.Frames.Init
import Voyager.Paging.Tidy

/-!
# What the bootstrap does not touch

One entry of the root stands for each 512 GiB of addresses; an entry that neither the identity
map, the image nor the HHDM uses stays empty.
-/

namespace Voyager.Machine

open Lib Lib.RadixTable Paging

def slotOf (va : Nat) : Nat := va / 2 ^ 39 % 512

def physLimit : Nat := 2 ^ 44

def Bounded (m : Machine) (root : Nat) : Prop :=
  ∀ va e k, leafOf m.mem root va = some (e, k) → leafAddress e k va < physLimit

structure Spares (m m' : Machine) (root s : Nat) : Prop where
  evolves : Evolves m m' root
  leaves : ∀ va, slotOf va = s → leafOf m'.mem root va = leafOf m.mem root va
  bounded : Bounded m root → Bounded m' root

variable {m m' m'' : Machine} {root s va pa flags stop fuel hhdm x : Nat} {boot : Boot} {entries : List MemmapEntry}
  {e : MemmapEntry}
  {k : KernelAddress}

theorem Spares.hierarchy (h : Spares m m' root s) (hier : Hierarchy m root) :
    Hierarchy m' root := h.evolves.hierarchy hier

def Request.Off (s : Nat) (r : Request) : Prop := slotOf r.va ≠ s ∧ r.pa < physLimit

theorem Request.leaf_lt {r : Request} (low : r.pa < physLimit) : leafAddress r.leaf.1 r.leaf.2 va < physLimit := by
  obtain ⟨large, va', pa, flags⟩ := r
  cases large with
  | false =>
    change leafAddress (leaf4k pa flags) 0 va < physLimit
    rw [leafAddress_4k]
    unfold physLimit at *
    dsimp only at low
    omega
  | true =>
    change leaf2m pa flags &&& addrMask2m ||| va &&& (page2m - 1) < 2 ^ 44
    rw [leaf2m_and]
    apply Nat.or_lt_two_pow
    · exact Nat.lt_of_le_of_lt Nat.and_le_left low
    · exact Nat.lt_of_le_of_lt Nat.and_le_right (by decide)

theorem Request.Covers.slotOf {r : Request} (h : r.Covers va) : slotOf va = slotOf r.va := by
  unfold Request.Covers Same2m SamePage at h
  unfold Machine.slotOf
  split at h
  · omega
  · omega

theorem Entered.spares (h : Entered m m' root (Request.Off s)) (hier : Hierarchy m root) : Spares m m' root s where
  evolves := h.evolves hier
  leaves va is := h.kept hier fun r off covers => off.1 (covers.slotOf.symm.trans is)
  bounded bounded va e k found := by
    rcases h.found hier found with old | ⟨r, off, _, leaf⟩
    · exact bounded va e k old
    · have low : leafAddress r.leaf.1 r.leaf.2 va < physLimit := Request.leaf_lt off.2
      rwa [leaf] at low

def HhdmOff (hhdm s : Nat) : Prop := ∀ p < physLimit, slotOf (add64 hhdm p) ≠ s

/-- The section lies in the top 2 GiB, where the kernel code model puts it, and the loader
has put it into physical memory. -/
structure SectionHigh (k : KernelAddress) (start stop : Nat) : Prop where
  high : 2 ^ 64 - 2 ^ 31 ≤ start
  low : alignDown start pageSize < alignUp stop pageSize →
    virtToPhysKernel (alignDown start pageSize) k.physicalBase k.virtualBase +
    (alignUp stop pageSize - alignDown start pageSize) ≤ physLimit

/-- Physical memory below `2 ^ 44`, and the HHDM where `paging.h` expects it. -/
structure BringupInput (boot : Boot) (entries : List MemmapEntry) (k : KernelAddress) : Prop where
  hhdm : boot.hhdm = some higherHalfMemoryOffset
  memmap : boot.memmap = some entries
  address : boot.kernelAddress = some k
  below : ∀ e ∈ entries, e.base + e.length ≤ physLimit
  text : SectionHigh k boot.symbols.textStart boot.symbols.textEnd
  rodata : SectionHigh k boot.symbols.rodataStart boot.symbols.rodataEnd
  data : SectionHigh k boot.symbols.dataStart boot.symbols.bssEnd

def heapSlot : Nat := 288

theorem hhdm_off : HhdmOff higherHalfMemoryOffset heapSlot := by
  intro p lt
  unfold slotOf add64 higherHalfMemoryOffset heapSlot physLimit at *
  omega

theorem SectionHigh.off {start : Nat} {r : Request} (placed : SectionHigh k start stop)
    (hr : r ∈ sectionRequests k start stop flags) : Request.Off heapSlot r := by
  obtain ⟨x, lt, _, rfl⟩ := mem_sectionRequests.mp hr
  have high := placed.high
  have top := alignUp_lt stop pageSize
  unfold sectionStart sectionSize at *
  have low := placed.low (by omega)
  have limit : physLimit = 2 ^ 44 := rfl
  constructor
  · dsimp only
    unfold slotOf heapSlot alignDown pageSize at *
    omega
  · dsimp only
    rw [add64_of_lt (by omega)]
    omega

theorem identity_off {r : Request} (hr : r ∈ identityRequests) : Request.Off heapSlot r := by
  obtain ⟨x, lt, _, rfl⟩ := mem_identityRequests.mp hr
  unfold Request.Off slotOf heapSlot physLimit page2m at *
  dsimp only
  omega

theorem kernel_off {r : Request} (input : BringupInput boot entries k) (hr : r ∈ kernelRequests k boot.symbols) :
    Request.Off heapSlot r := by
  rw [kernelRequests, List.mem_append, List.mem_append] at hr
  rcases hr with (text | rodata) | data
  · exact input.text.off text
  · exact input.rodata.off rodata
  · exact input.data.off data

theorem BringupInput.span_le (input : BringupInput boot entries k) (he : e ∈ entries) :
    span e = 0 ∨ alignDown e.base pageSize + span e ≤ physLimit :=
  Machine.span_le (fun _ => input.below e he) (by decide) (by decide)

theorem BringupInput.spans (input : BringupInput boot entries k) :
    ∀ e ∈ entries, span e = 0 ∨ alignDown e.base pageSize + span e ≤ 2 ^ 52 := fun e he =>
  (input.span_le he).imp_right fun top => Nat.le_trans top (by decide)

theorem direct_cases {r : Request} (input : BringupInput boot entries k)
    (hr : r ∈ hhdmRequests higherHalfMemoryOffset entries) :
    ∃ p < physLimit, ∃ large, r = directRequest higherHalfMemoryOffset p large := by
  obtain ⟨p, large, rfl, _, ⟨rfl, _⟩ | ⟨e, he, inside, _⟩⟩ := hhdmRequests_cases (by decide) input.spans hr
  · exact ⟨0, by decide, large, rfl⟩
  · have top := input.span_le he
    unfold InSpan at inside
    exact ⟨p, by omega, large, rfl⟩

theorem direct_off {r : Request} (input : BringupInput boot entries k)
    (hr : r ∈ hhdmRequests higherHalfMemoryOffset entries) : Request.Off heapSlot r := by
  obtain ⟨p, lt, large, rfl⟩ := direct_cases input hr
  exact ⟨hhdm_off p lt, lt⟩

theorem getMaxPhys_le (input : BringupInput boot entries k) : getMaxPhys boot ≤ physLimit := by
  unfold getMaxPhys
  rw [input.memmap]
  refine topOf_le_iff.mpr fun e he => ?_
  have below := input.below e he
  have limit : physLimit = 2 ^ 44 := rfl
  exact (add64_of_lt (show e.base + e.length < 2 ^ 64 by omega)).trans_le below

theorem stackPhys_lt {rsp p : Nat} (input : BringupInput boot entries k)
    (here : m.paging.hhdm = higherHalfMemoryOffset)
    (bounded : Bounded m root) (found : m.stackPhys boot root rsp = .ok p) : p < physLimit := by
  unfold stackPhys at found
  split at found
  · rename_i inside
    cases found
    have top := getMaxPhys_le input
    rw [here] at inside ⊢
    unfold sub64 add64 higherHalfMemoryOffset physLimit at *
    omega
  · rw [walkVaToPa_eq] at found
    cases leaf : leafOf m.mem root rsp with
    | none =>
      rw [leaf] at found
      cases found
    | some r =>
      rw [leaf] at found
      cases found
      exact bounded rsp r.1 r.2 leaf

theorem Audited.lt {rspPhys oldCr3 p : Nat} (h : Audited rspPhys oldCr3 root p) (stack : rspPhys < physLimit)
    (old : oldCr3 < physLimit)
    (new : root < physLimit) : p < physLimit := by
  have two : page2m + pageSize < physLimit := by decide
  have down : ∀ y, alignDown y pageSize ≤ y := fun y => Nat.div_mul_le_self _ _
  rcases h with low | rfl | rfl | rfl
  · exact Nat.lt_trans low two
  · exact Nat.lt_of_le_of_lt (down _) stack
  · exact Nat.lt_of_le_of_lt (down _) old
  · exact Nat.lt_of_le_of_lt (down _) new

/-- The address space that `paging_bootstrap` leaves: its tables are the early pages taken
meanwhile, and nothing is mapped where the heap will be. -/
structure Bootstrapped (m m' : Machine) : Prop where
  hierarchy : Hierarchy m' m'.paging.cr3
  plain : Plain m'.mem m'.paging.cr3
  tables : ∀ {l p n}, Reached m'.mem m'.paging.cr3 l p n → m.early.cursor ≤ n ∧ n < m'.early.cursor
  empty : ∀ va, slotOf va = heapSlot → leafOf m'.mem m'.paging.cr3 va = none
  early : m'.early = { m.early with cursor := m'.early.cursor }
  order : m.early.cursor ≤ m'.early.cursor

/-- The pages that make up the new address space, with those of the audit. -/
def BootRequest (boot : Boot) (entries : List MemmapEntry) (k : KernelAddress) (r : Request) : Prop :=
  r ∈ bootRequests k boot.symbols higherHalfMemoryOffset entries ∨
    ∃ p < physLimit, r = directRequest higherHalfMemoryOffset p false

theorem BootRequest.off {r : Request} (input : BringupInput boot entries k) (h : BootRequest boot entries k r) :
    Request.Off heapSlot r := by
  rcases h with asked | ⟨p, lt, rfl⟩
  · rcases mem_bootRequests.mp asked with identity | image | direct
    · exact identity_off identity
    · exact kernel_off input image
    · exact direct_off input direct
  · exact ⟨hhdm_off p lt, lt⟩

theorem pagingBootstrap_bootRequests {rsp : Nat} (input : BringupInput boot entries k) (sound : m.early.Sound)
    (region : m.early.stop ≤ physLimit) (old : (m.paging.cr3 &&& addrMask) < physLimit)
    (run : m.pagingBootstrap boot rsp = .ok m') : ∃ start asked audited root,
      Requested boot rsp m m' higherHalfMemoryOffset entries k start asked audited root ∧
        Entered start audited root (BootRequest boot entries k) := by
  have switched := pagingBootstrap_switched sound run
  have inRegion : m'.paging.cr3 < physLimit := by
    have stop : m'.early.stop = m.early.stop := by rw [switched.early]
    have low := (switched.tables .root).2
    have top := switched.hierarchy.sound.bounds.2.1
    omega
  obtain ⟨k', start, m₄, m₅, root, h⟩ := pagingBootstrap_requests sound input.hhdm (by decide) input.memmap input.spans run
  obtain rfl : k' = k := Option.some.inj (h.address.symm.trans input.address)
  have hier := h.fresh.ready.hierarchy
  have entered : Entered start m₄ root (BootRequest boot entries k') := ⟨_, fun r hr => .inl hr, h.pages⟩
  have spares : Spares start m₄ root heapSlot := (entered.mono fun r => BootRequest.off input).spares hier
  obtain ⟨rspPhys, stack, audited⟩ := preSwitchAuditAndPatch_entered (spares.hierarchy hier) h.audit
  rw [h.paging] at audited
  have bounded : Bounded m₄ root := spares.bounded fun va e k found => by
    rw [h.fresh.empty] at found
    cases found
  have stackLow := stackPhys_lt input (by rw [h.paging]) bounded stack
  rw [h.switch] at inRegion
  refine ⟨start, m₄, m₅, root, h, entered.trans (audited.mono ?_)⟩
  rintro r ⟨p, there, rfl⟩
  exact .inr ⟨p, there.lt stackLow old inRegion, rfl⟩

theorem pagingBootstrap_spares {rsp : Nat} (input : BringupInput boot entries k) (sound : m.early.Sound)
    (region : m.early.stop ≤ physLimit) (old : (m.paging.cr3 &&& addrMask) < physLimit)
    (run : m.pagingBootstrap boot rsp = .ok m') : Bootstrapped m m' := by
  have switched := pagingBootstrap_switched sound run
  refine ⟨switched.hierarchy, switched.plain, switched.tables, fun va here => ?_, switched.early, switched.order⟩
  obtain ⟨start, m₄, m₅, root, h, entered⟩ := pagingBootstrap_bootRequests input sound region old run
  have spares : Spares start m₅ root heapSlot :=
    (entered.mono fun r => BootRequest.off input).spares h.fresh.ready.hierarchy
  rw [h.switch]
  exact (spares.leaves va here).trans (h.fresh.empty va)

end Voyager.Machine
