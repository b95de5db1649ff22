import Voyager.Paging.Requests

/-!
# The kernel image after the handoff

`map_kernel_higher_half` maps three ranges of pages. Between the read-only data and the data
lie the constructor arrays, which belong to none of them.
-/

namespace Voyager.Machine

open Lib Lib.RadixTable Paging

structure OutputSection where
  start : Nat
  stop : Nat
  deriving DecidableEq

structure OutputSections where
  text : OutputSection
  rodata : OutputSection
  initArray : OutputSection
  finiArray : OutputSection
  data : OutputSection
  requests : OutputSection
  dynamic : OutputSection
  bss : OutputSection

def OutputSections.list (o : OutputSections) : List OutputSection :=
  [o.text, o.rodata, o.initArray, o.finiArray, o.data, o.requests, o.dynamic, o.bss]

/-- The sections of `linker.ld` in their order, of any size, in the top 2 GiB. -/
structure LinkerLayout (s : Symbols) (o : OutputSections) : Prop where
  sizes : ∀ x ∈ o.list, x.start ≤ x.stop
  base : 2 ^ 64 - 2 ^ 31 ≤ s.kernelStart ∧ s.kernelStart = s.textStart ∧ s.textStart % pageSize = 0
  text : o.text = ⟨s.textStart, s.textEnd⟩
  rodata : o.rodata = ⟨s.rodataStart, s.rodataEnd⟩ ∧ s.textEnd ≤ s.rodataStart ∧ s.rodataStart % pageSize = 0
  initArray : s.rodataEnd ≤ o.initArray.start ∧ o.initArray.start % pageSize = 0
  finiArray : o.initArray.stop ≤ o.finiArray.start
  data : o.finiArray.stop ≤ s.dataStart ∧ s.dataStart % pageSize = 0 ∧ o.data.start = s.dataStart
  requests : o.data.stop ≤ o.requests.start
  dynamic : o.requests.stop ≤ o.dynamic.start
  bss : o.dynamic.stop ≤ o.bss.start ∧ o.bss.start % pageSize = 0 ∧ o.bss.stop = s.bssEnd
  kernelEnd : s.kernelEnd = s.bssEnd ∧ s.bssEnd < 2 ^ 64

/-- The loader keeps the image in one piece of physical memory. -/
structure ImageLoaded (s : Symbols) (k : KernelAddress) : Prop where
  aligned : k.physicalBase % pageSize = 0 ∧ k.virtualBase % pageSize = 0
  start : k.virtualBase ≤ s.kernelStart
  physical : k.physicalBase + (s.bssEnd + pageSize - k.virtualBase) ≤ 2 ^ 52

/-- Every page with a byte of a section translates to where the image was loaded. -/
def SectionsMapped (m : Machine) (root : Nat) (k : KernelAddress) (o : OutputSections) : Prop :=
  ∀ x ∈ o.list, ∀ b, x.start ≤ b → b < x.stop → ∀ va, va / pageSize = b / pageSize →
    ∃ level, m.walkVaToPa va root = some (k.physicalBase + (va - k.virtualBase), level)

variable {m m₀ m₁ m' : Machine} {root va start stop flags : Nat} {s : Symbols} {o : OutputSections}
  {k : KernelAddress} {boot : Boot}
  {r : Request}

def High (va : Nat) : Prop := 2 ^ 64 - 2 ^ 31 ≤ va ∧ va < 2 ^ 64

/-! ### Which pages are entered -/

theorem section_covers (k : KernelAddress) (flags : Nat) (low : 2 ^ 64 - 2 ^ 31 ≤ start)
    (fits : stop + pageSize ≤ 2 ^ 64) (high : High va) :
    (∃ r ∈ sectionRequests k start stop flags, r.Covers va) ↔ InSection start stop va := by
  have whole := sectionSize_mod start stop
  have top := alignUp_lt stop pageSize
  have page : sectionStart start % pageSize = 0 := Nat.mul_mod_left _ _
  have first : 2 ^ 64 - 2 ^ 31 ≤ sectionStart start := by
    unfold sectionStart alignDown pageSize
    omega
  have last : sectionStart start + sectionSize start stop < 2 ^ 64 ∨ sectionSize start stop = 0 := by
    unfold sectionStart sectionSize
    omega
  rw [inSection_iff fits]
  unfold High at high
  simp only [mem_sectionRequests]
  generalize sectionStart start = lo at *
  generalize sectionSize start stop = size at *
  constructor
  · rintro ⟨r, ⟨x, lt, aligned, rfl⟩, covers⟩
    change SamePage (lo + x) va at covers
    unfold SamePage pageSize at *
    omega
  · rintro ⟨low', high'⟩
    refine ⟨_, ⟨(va - lo) / pageSize * pageSize, ?_, Nat.mul_mod_left _ _, rfl⟩, ?_⟩
    · unfold pageSize at *
      omega
    · change SamePage (lo + (va - lo) / pageSize * pageSize) va
      unfold SamePage pageSize at *
      omega

theorem section_last (k : KernelAddress) (flags : Nat) (lt : stop < 2 ^ 64) (last : 2 ^ 64 < stop + pageSize) :
    ¬ ∃ r ∈ sectionRequests k start stop flags, r.Covers va := by
  rintro ⟨r, hr, _⟩
  obtain ⟨x, below, _⟩ := mem_sectionRequests.mp hr
  rw [sectionSize_last start lt last] at below
  omega

theorem LinkerLayout.order (h : LinkerLayout s o) : s.textStart ≤ s.textEnd ∧ s.textEnd ≤ s.rodataStart ∧
    s.rodataStart ≤ s.rodataEnd ∧ s.rodataEnd ≤ o.initArray.start ∧ o.initArray.start ≤ o.initArray.stop ∧
    o.initArray.stop ≤ o.finiArray.start ∧ o.finiArray.start ≤ o.finiArray.stop ∧ o.finiArray.stop ≤ s.dataStart ∧
    s.dataStart ≤ o.data.stop ∧ o.data.stop ≤ o.requests.start ∧ o.requests.start ≤ o.requests.stop ∧
    o.requests.stop ≤ o.dynamic.start ∧ o.dynamic.start ≤ o.dynamic.stop ∧ o.dynamic.stop ≤ o.bss.start ∧
    o.bss.start ≤ s.bssEnd := by
  have sizes := h.sizes
  simp only [OutputSections.list, List.forall_mem_cons, List.not_mem_nil, false_imp_iff, implies_true, and_true, h.text,
    h.rodata.1, h.data.2.2, h.bss.2.2] at sizes
  obtain ⟨text, rodata, init, fini, data, requests, dynamic, bss⟩ := sizes
  exact ⟨text, h.rodata.2.1, rodata, h.initArray.1, init, h.finiArray, fini, h.data.1, data, h.requests, requests,
    h.dynamic, dynamic, h.bss.1, bss⟩

theorem kernel_covers (k : KernelAddress) (layout : LinkerLayout s o) (high : High va) :
    (∃ r ∈ kernelRequests k s, r.Covers va) ↔ InSection s.textStart s.textEnd va ∨
      InSection s.rodataStart s.rodataEnd va ∨ InSection s.dataStart s.bssEnd va ∧ s.bssEnd + pageSize ≤ 2 ^ 64 := by
  have base := layout.base
  have order := layout.order
  have top := layout.kernelEnd
  have page : s.dataStart + pageSize ≤ 2 ^ 64 := by
    have := layout.data.2.1
    unfold pageSize at *
    omega
  have data : (∃ r ∈ sectionRequests k s.dataStart s.bssEnd (pteW ||| pteNX), r.Covers va) ↔
      InSection s.dataStart s.bssEnd va ∧ s.bssEnd + pageSize ≤ 2 ^ 64 := by
    by_cases fits : s.bssEnd + pageSize ≤ 2 ^ 64
    · rw [section_covers k _ (by omega) fits high]
      exact (and_iff_left fits).symm
    · exact iff_of_false (section_last k _ top.2 (by omega)) fun h => fits h.2
  rw [← section_covers k 0 (by omega) (by omega) high, ← section_covers k pteNX (by omega) (by omega) high, ← data]
  simp only [kernelRequests, List.mem_append, or_and_right, exists_or, or_assoc]

/-! ### Where they lead -/

theorem section_leaf (aligned : k.physicalBase % pageSize = 0 ∧ k.virtualBase % pageSize = 0) (page : start % pageSize = 0)
    (loaded : k.virtualBase ≤ start) (low : 2 ^ 64 - 2 ^ 31 ≤ start)
    (physical : k.physicalBase + (stop + pageSize - k.virtualBase) ≤ 2 ^ 52) (high : High va)
    (hr : r ∈ sectionRequests k start stop flags) (covers : r.Covers va) :
    leafAddress r.leaf.1 r.leaf.2 va = k.physicalBase + (va - k.virtualBase) := by
  obtain ⟨x, lt, whole, rfl⟩ := mem_sectionRequests.mp hr
  have top := alignUp_lt stop pageSize
  have same : alignDown start pageSize = start := Nat.div_mul_cancel (Nat.dvd_of_mod_eq_zero page)
  have above : alignUp stop pageSize ≤ stop + pageSize := by
    unfold alignUp add64 pageSize
    omega
  have inside : start + x < alignUp stop pageSize := by
    rw [sectionSize, same] at lt
    omega
  have place : virtToPhysKernel start k.physicalBase k.virtualBase = k.physicalBase + (start - k.virtualBase) := by
    rw [virtToPhysKernel, sub64_of_le loaded (by omega)]
    exact add64_of_lt (by omega)
  rw [sectionStart, same] at covers ⊢
  change SamePage (start + x) va at covers
  change leafAddress (leaf4k (add64 (virtToPhysKernel start _ _) x) flags) 0 va = _
  rw [leafAddress_4k, place, add64_of_lt (by omega)]
  unfold SamePage High pageSize at *
  omega

theorem kernel_leaf (layout : LinkerLayout s o) (loaded : ImageLoaded s k) (high : High va)
    (hr : r ∈ kernelRequests k s) (covers : r.Covers va) :
    leafAddress r.leaf.1 r.leaf.2 va = k.physicalBase + (va - k.virtualBase) := by
  have base := layout.base
  have order := layout.order
  have start := loaded.start
  have physical := loaded.physical
  rw [kernelRequests, List.mem_append, List.mem_append] at hr
  rcases hr with (text | rodata) | data
  · exact section_leaf loaded.aligned base.2.2 (by omega) (by omega) (by omega) high text covers
  · exact section_leaf loaded.aligned layout.rodata.2.2 (by omega) (by omega) (by omega) high rodata covers
  · exact section_leaf loaded.aligned layout.data.2.1 (by omega) (by omega) (by omega) high data covers

/-! ### The holes -/

theorem LinkerLayout.gap (k : KernelAddress) (h : LinkerLayout s o) (low : o.initArray.start ≤ va) (below : va < s.dataStart) :
    ¬ ∃ r ∈ kernelRequests k s, r.Covers va := by
  have order := h.order
  have base := h.base
  have top := h.kernelEnd
  rw [kernel_covers k h ⟨by omega, by omega⟩]
  rintro (text | rodata | ⟨data, _⟩)
  · have := text.lt h.rodata.2.1 h.rodata.2.2
    omega
  · have := rodata.lt h.initArray.1 h.initArray.2
    omega
  · have := data.ge h.data.2.1
    omega

theorem LinkerLayout.last (k : KernelAddress) (h : LinkerLayout s o) (last : 2 ^ 64 < s.bssEnd + pageSize) :
    o.bss.start < s.bssEnd ∧ ¬ ∃ r ∈ kernelRequests k s, r.Covers o.bss.start := by
  have order := h.order
  have base := h.base
  have top := h.kernelEnd
  have page := h.bss.2.1
  have some : o.bss.start < s.bssEnd := by
    unfold pageSize at *
    omega
  refine ⟨some, ?_⟩
  rw [kernel_covers k h ⟨by omega, by omega⟩]
  rintro (text | rodata | ⟨_, fits⟩)
  · have := text.lt h.rodata.2.1 h.rodata.2.2
    omega
  · have := rodata.lt h.initArray.1 h.initArray.2
    omega
  · omega

theorem LinkerLayout.covered {x : OutputSection} {b : Nat} (k : KernelAddress) (h : LinkerLayout s o)
    (init : o.initArray.start = o.initArray.stop) (fini : o.finiArray.start = o.finiArray.stop)
    (fits : s.bssEnd + pageSize ≤ 2 ^ 64) (hx : x ∈ o.list)
    (low : x.start ≤ b) (below : b < x.stop) (same : va / pageSize = b / pageSize) :
    High va ∧ ∃ r ∈ kernelRequests k s, r.Covers va := by
  have order := h.order
  have base := h.base
  have within : ∀ start stop, start ≤ b → b < stop → InSection start stop va := by
    intro start stop low below
    unfold InSection roundUp alignDown pageSize at *
    omega
  have bounds : s.textStart ≤ b ∧ b < s.bssEnd ∧ (s.textStart ≤ b ∧ b < s.textEnd ∨ s.rodataStart ≤ b ∧ b < s.rodataEnd ∨
      s.dataStart ≤ b ∧ b < s.bssEnd) := by
    simp only [OutputSections.list, List.mem_cons, List.not_mem_nil, or_false] at hx
    have text := h.text
    have rodata := h.rodata.1
    have data := h.data.2.2
    have bss := h.bss.2.2
    rcases hx with rfl | rfl | rfl | rfl | rfl | rfl | rfl | rfl
    · rw [text] at low below
      dsimp only at low below
      omega
    · rw [rodata] at low below
      dsimp only at low below
      omega
    all_goals omega
  have high : High va := by
    unfold High pageSize at *
    omega
  refine ⟨high, (kernel_covers k h high).mpr ?_⟩
  rcases bounds.2.2 with text | rodata | data
  · exact .inl (within _ _ text.1 text.2)
  · exact .inr (.inl (within _ _ rodata.1 rodata.2))
  · exact .inr (.inr ⟨within _ _ data.1 data.2, fits⟩)

section Run

variable (fresh : FreshRoot m m₀ root) (identity : m₀.mapIdentityMinimal root = .ok m₁)
  (address : boot.kernelAddress = some k) (kernel : m₁.mapKernelHigherHalf boot root = .ok m')

include fresh identity address kernel

theorem image_unmapped (high : High va) (off : ¬ ∃ r ∈ kernelRequests k boot.symbols, r.Covers va) :
    m'.walkVaToPa va root = none := by
  rw [mapIdentityMinimal_requests] at identity
  rw [mapKernelHigherHalf_requests address] at kernel
  have hier := fresh.ready.hierarchy
  have hier₁ := (enterAll_evolves hier identity).hierarchy hier
  have away : ∀ r ∈ identityRequests, ¬ r.Covers va := fun r hr covers => by
    obtain ⟨y, lt, _, rfl⟩ := mem_identityRequests.mp hr
    change SamePage y va at covers
    unfold SamePage High page2m at *
    omega
  rw [walkVaToPa_eq, enterAll_kept hier₁ kernel fun r hr covers => off ⟨r, hr, covers⟩, enterAll_kept hier identity away,
    fresh.empty]
  rfl

theorem image_translates (layout : LinkerLayout boot.symbols o) (loaded : ImageLoaded boot.symbols k) (high : High va)
    (covered : ∃ r ∈ kernelRequests k boot.symbols, r.Covers va) :
    ∃ level, m'.walkVaToPa va root = some (k.physicalBase + (va - k.virtualBase), level) := by
  rw [mapIdentityMinimal_requests] at identity
  rw [mapKernelHigherHalf_requests address] at kernel
  have hier := fresh.ready.hierarchy
  have hier₁ := (enterAll_evolves hier identity).hierarchy hier
  obtain ⟨t, ht, covers⟩ := covered
  rcases enterAll_leaves hier₁ kernel va with ⟨r, hr, covers, found⟩ | ⟨none, _⟩
  · refine ⟨r.leaf.2 + 1, ?_⟩
    rw [walkVaToPa_eq, found, Option.map_some, kernel_leaf layout loaded high hr covers]
  · exact absurd covers (none t ht)

theorem image_mapped_iff (layout : LinkerLayout boot.symbols o) (loaded : ImageLoaded boot.symbols k) :
    SectionsMapped m' root k o ↔ o.initArray.start = o.initArray.stop ∧ o.finiArray.start = o.finiArray.stop ∧
      boot.symbols.bssEnd + pageSize ≤ 2 ^ 64 := by
  have order := layout.order
  have base := layout.base
  have top := layout.kernelEnd
  constructor
  · intro mapped
    have bytes : ∀ x ∈ o.list, x.start < x.stop → High x.start → ∃ r ∈ kernelRequests k boot.symbols, r.Covers x.start := by
      intro x hx some high
      by_contra off
      obtain ⟨level, found⟩ := mapped x hx x.start (Nat.le_refl _) some x.start rfl
      rw [image_unmapped fresh identity address kernel high off] at found
      cases found
    refine ⟨?_, ?_, ?_⟩
    · by_contra some
      have covered := bytes o.initArray (by simp [OutputSections.list]) (by omega) ⟨by omega, by omega⟩
      exact layout.gap k (Nat.le_refl _) (by omega) covered
    · by_contra some
      have covered := bytes o.finiArray (by simp [OutputSections.list]) (by omega) ⟨by omega, by omega⟩
      exact layout.gap k (by omega) (by omega) covered
    · by_contra last
      obtain ⟨some, off⟩ := layout.last k (by omega)
      exact off (bytes o.bss (by simp [OutputSections.list]) (by rw [layout.bss.2.2]; exact some) ⟨by omega, by omega⟩)
  · rintro ⟨init, fini, fits⟩ x hx b low below va same
    obtain ⟨high, covered⟩ := layout.covered k init fini fits hx low below same
    exact image_translates fresh identity address kernel layout loaded high covered

end Run

theorem image_returns {hhdm : Nat} (sound : m.early.Sound) (nonzero : m.paging.hhdm ≠ 0)
    (address : boot.kernelAddress = some k)
    (image : ImageApart boot.symbols hhdm)
    (enough : m.early.cursor + (1 + (512 * 3 + imagePages boot.symbols * 3)) * pageSize ≤ m.early.stop) :
    ∃ root m₀ m₁ m', FreshRoot m m₀ root ∧ m₀.mapIdentityMinimal root = .ok m₁ ∧
      m₁.mapKernelHigherHalf boot root = .ok m' := by
  rw [Nat.add_mul, Nat.add_mul] at enough
  obtain ⟨⟨root, m₀⟩, _, fresh⟩ := (allocTable_root sound nonzero).returns (by omega)
  have level : Level m₀ root 0 := fun va e k found => by
    rw [fresh.empty] at found
    cases found
  have identity := mapIdentityMinimal_builds fresh.ready level
  obtain ⟨m₁, ok, laid, _⟩ := identity.returns (by rw [fresh.early]; dsimp only; omega)
  obtain ⟨stop, cursor⟩ := identity.early ok
  rw [fresh.early] at stop cursor
  dsimp only [id] at stop cursor
  obtain ⟨m', ok', _⟩ := (mapKernelHigherHalf_builds (fresh.ready.evolves laid.evolves) (laid.level_zero level) address
    image).returns (by omega)
  exact ⟨root, m₀, m₁, m', fresh, ok, ok'⟩

theorem image_mapped_plain : ∃ root m', SectionsMapped m' root ⟨0x8100000, 0xFFFFFFFF80000000⟩
    ⟨⟨0xFFFFFFFF80000000, 0xFFFFFFFF80001000⟩, ⟨0xFFFFFFFF80001000, 0xFFFFFFFF80002000⟩,
      ⟨0xFFFFFFFF80002000, 0xFFFFFFFF80002000⟩, ⟨0xFFFFFFFF80002000, 0xFFFFFFFF80002000⟩,
      ⟨0xFFFFFFFF80002000, 0xFFFFFFFF80002100⟩, ⟨0xFFFFFFFF80002100, 0xFFFFFFFF80002200⟩,
      ⟨0xFFFFFFFF80002200, 0xFFFFFFFF80002300⟩, ⟨0xFFFFFFFF80003000, 0xFFFFFFFF80004000⟩⟩ := by
  obtain ⟨root, m₀, m₁, m', fresh, identity, kernel⟩ :=
    image_returns directSound (by decide) rfl directInput.image (by decide)
  refine ⟨root, m', (image_mapped_iff fresh identity rfl kernel ⟨?_, ?_, rfl, ?_, ?_, ?_, ?_, ?_, ?_, ?_, ?_⟩
    ⟨?_, ?_, ?_⟩).mpr ?_⟩
  · simp [OutputSections.list]
  all_goals decide

/-- One constructor: the page of `.init_array` lies between the read-only data and the data. -/
def constructorBoot : Boot :=
  { directBoot with symbols := ⟨0xFFFFFFFF80000000, 0xFFFFFFFF80005000, 0xFFFFFFFF80000000, 0xFFFFFFFF80001000,
      0xFFFFFFFF80001000, 0xFFFFFFFF80002000, 0xFFFFFFFF80003000, 0xFFFFFFFF80005000, 0xFFFFFFFF80000100⟩ }

def constructorSections : OutputSections :=
  ⟨⟨0xFFFFFFFF80000000, 0xFFFFFFFF80001000⟩, ⟨0xFFFFFFFF80001000, 0xFFFFFFFF80002000⟩,
    ⟨0xFFFFFFFF80002000, 0xFFFFFFFF80002008⟩, ⟨0xFFFFFFFF80002008, 0xFFFFFFFF80002008⟩,
    ⟨0xFFFFFFFF80003000, 0xFFFFFFFF80003100⟩, ⟨0xFFFFFFFF80003100, 0xFFFFFFFF80003200⟩,
    ⟨0xFFFFFFFF80003200, 0xFFFFFFFF80003300⟩, ⟨0xFFFFFFFF80004000, 0xFFFFFFFF80005000⟩⟩

theorem constructorLayout : LinkerLayout constructorBoot.symbols constructorSections := by
  refine ⟨?_, ?_, rfl, ?_, ?_, ?_, ?_, ?_, ?_, ?_, ?_⟩
  · simp [OutputSections.list, constructorSections]
  all_goals decide

/-- The constructor's page is not there after the handoff. -/
theorem init_array_unmapped : LinkerLayout constructorBoot.symbols constructorSections ∧
    ∃ root m₀ m₁ m', FreshRoot directMachine m₀ root ∧ m₀.mapIdentityMinimal root = .ok m₁ ∧
      m₁.mapKernelHigherHalf constructorBoot root = .ok m' ∧ m'.walkVaToPa 0xFFFFFFFF80002000 root = none := by
  have apart : ∀ start stop, 0xFFFFFFFF80000000 ≤ start → stop ≤ 0xFFFFFFFF80005000 →
      SectionApart 0xFFFF800000000000 start stop := by
    intro start stop low high some
    unfold CanonicalRange sectionSize sectionStart alignUp alignDown add64 window pageSize at *
    omega
  have image : ImageApart constructorBoot.symbols 0xFFFF800000000000 :=
    ⟨apart _ _ (by decide) (by decide), apart _ _ (by decide) (by decide), apart _ _ (by decide) (by decide)⟩
  have address : constructorBoot.kernelAddress = some ⟨0x8100000, 0xFFFFFFFF80000000⟩ := rfl
  obtain ⟨root, m₀, m₁, m', fresh, identity, kernel⟩ := image_returns directSound (by decide) address image (by decide)
  refine ⟨constructorLayout, root, m₀, m₁, m', fresh, identity, kernel, ?_⟩
  refine image_unmapped fresh identity address kernel (by unfold High; decide) (constructorLayout.gap _ ?_ ?_)
  all_goals decide

end Voyager.Machine
