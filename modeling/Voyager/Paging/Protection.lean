import Voyager.Paging.Switch

/-!
# Writable or executable, never both

Every stage of `paging_bootstrap` enters its pages with `NX`, except the text of the image,
which it enters without `W`. An image that ends in the last page of the address space loses
its data: the rounded end wraps to zero.
-/

namespace Voyager.Machine

open Lib Lib.RadixTable Paging

variable {m m' : Machine} {root va pa size limit rsp hhdm start stop : Nat} {w nx : Bool} {boot : Boot} {k : KernelAddress}
  {entries : List MemmapEntry} {text target : Nat → Prop} {s : Symbols}

/-- Where the linker and the bootloader put the image, in order and in 64-bit addresses. The
loader keeps its pages in order in physical memory. -/
structure ImageLayout (s : Symbols) (k : KernelAddress) : Prop where
  aligned : s.textStart % pageSize = 0 ∧ s.rodataStart % pageSize = 0 ∧ s.dataStart % pageSize = 0
  text : s.textStart ≤ s.textEnd ∧ s.textEnd ≤ s.rodataStart
  rodata : s.rodataStart ≤ s.rodataEnd ∧ s.rodataEnd ≤ s.dataStart
  data : s.dataStart ≤ s.bssEnd ∧ s.bssEnd < 2 ^ 64
  loaded : k.physicalBase % pageSize = 0 ∧ k.virtualBase % pageSize = 0 ∧ k.virtualBase ≤ s.textStart
  physical : k.physicalBase + (roundUp s.bssEnd pageSize - k.virtualBase) ≤ 2 ^ 52

/-- The image does not run at its own addresses in the HHDM. -/
def NotDirect (hhdm : Nat) (k : KernelAddress) : Prop := (hhdm + k.physicalBase) % 2 ^ 48 ≠ k.virtualBase % 2 ^ 48

/-! ### Leaves without `NX` -/

/-- Executable addresses lie in `text`, and their leaves are not writable. -/
def Exclusive (m : Machine) (root : Nat) (text : Nat → Prop) : Prop :=
  ∀ va e l, Canonical va → leafOf m.mem root va = some (e, l) → e.testBit 63 = false → text va ∧ e.testBit 1 = false

theorem Filled.leaf {e l : Nat} (h : Filled m root va size pa w nx) {va' : Nat}
    (inside : va ≤ va' ∧ va' < va + size)
    (found : leafOf m.mem root va' = some (e, l)) : e.testBit 1 = w ∧ e.testBit 63 = nx := by
  have maps := h (va' - va) (by omega)
  rw [show va + (va' - va) = va' by omega] at maps
  obtain ⟨e', k, found', _, _, bits⟩ := maps
  rw [found] at found'
  cases found'
  exact bits

theorem Exclusive.lays (h : Exclusive m root text) (lays : Lays m m' root va size limit)
    (filled : Filled m' root va size pa w nx)
    (allowed : nx = true ∨ w = false ∧ ∀ va', va ≤ va' → va' < va + size → text va') : Exclusive m' root text := by
  intro va' e l canonical found executable
  by_cases inside : va ≤ va' ∧ va' < va + size
  · obtain ⟨writes, runs⟩ := filled.leaf inside found
    rcases allowed with never | ⟨readOnly, covered⟩
    · rw [runs, never] at executable
      cases executable
    · exact ⟨covered va' inside.1 inside.2, writes.trans readOnly⟩
  · rw [lays.outside va' canonical (by omega)] at found
    exact h va' e l canonical found executable

theorem Exclusive.direct {done : Nat → Prop} (h : Exclusive m root text) (lays : Lays m m' root hhdm window limit)
    (covers : Covers m' root hhdm done) : Exclusive m' root text := by
  intro va e l canonical found executable
  by_cases inside : hhdm ≤ va ∧ va < hhdm + window
  · obtain ⟨p, rfl⟩ : ∃ p, va = hhdm + p := ⟨va - hhdm, by omega⟩
    obtain ⟨mapped, unmapped⟩ := covers p (by omega)
    by_cases is : done p
    · obtain ⟨e', l', found', _, _, _, runs⟩ := mapped is
      rw [found] at found'
      cases found'
      rw [runs] at executable
      cases executable
    · rw [unmapped is] at found
      cases found
  · rw [lays.outside va canonical (by omega)] at found
    exact h va e l canonical found executable

theorem Exclusive.patched (h : Exclusive m root text) (patched : Patched m m' root target) :
    Exclusive m' root text := by
  intro va e l canonical found executable
  rcases patched.added va (e, l) found with old | ⟨p, _, _, new⟩
  · exact h va e l canonical old executable
  · cases new
    rw [leaf4k_testBit] at executable
    simp [pteW, pteNX] at executable
    exact absurd executable (by decide)

/-! ### Sections -/

/-- The pages of a section translate to where the image was loaded. -/
def SectionMapped (m : Machine) (root : Nat) (k : KernelAddress) (start stop : Nat) (w nx : Bool) : Prop :=
  Filled m root (sectionStart start) (sectionSize start stop)
    (k.physicalBase + (sectionStart start - k.virtualBase)) w nx

structure SectionPlaced (k : KernelAddress) (start stop : Nat) : Prop where
  aligned : start % pageSize = 0
  below : stop < 2 ^ 64
  loaded : k.physicalBase % pageSize = 0 ∧ k.virtualBase % pageSize = 0 ∧ k.virtualBase ≤ start
  physical : k.physicalBase + (roundUp stop pageSize - k.virtualBase) ≤ 2 ^ 52

theorem SectionLaid.mapped (h : SectionLaid m m' root k start stop w nx) (placed : SectionPlaced k start stop) :
    SectionMapped m' root k start stop w nx := by
  obtain ⟨aligned, below, loaded, physical⟩ := placed
  by_cases empty : sectionSize start stop = 0
  · intro x lt
    omega
  have fits : stop + pageSize ≤ 2 ^ 64 := by
    by_contra last
    exact empty (sectionSize_last start below (by omega))
  have top := alignUp_lt stop pageSize
  rw [alignUp_eq_roundUp fits] at top
  have same : sectionStart start = start := Nat.div_mul_cancel (Nat.dvd_of_mod_eq_zero aligned)
  have size : start + sectionSize start stop = roundUp stop pageSize := by
    unfold sectionSize at empty ⊢
    rw [← alignUp_eq_roundUp fits]
    unfold sectionStart at same
    omega
  have address : virtToPhysKernel (sectionStart start) k.physicalBase k.virtualBase =
    k.physicalBase + (sectionStart start - k.virtualBase) := by
    rw [same, virtToPhysKernel, sub64_of_le loaded.2.2 (by omega)]
    exact add64_of_lt (by omega)
  have filled := h.2
  rw [address] at filled
  apply filled
  · rw [same]
    unfold pageSize at *
    omega
  · omega

theorem SectionMapped.kept {other : Nat} (h : SectionMapped m root k start stop w nx)
    (apart : SectionApart hhdm start stop)
    (lays : Lays m m' root other size limit)
    (off : size = 0 ∨ sectionStart start + sectionSize start stop ≤ other ∨ other + size ≤ sectionStart start) :
    SectionMapped m' root k start stop w nx := by
  intro x lt
  have range := (apart (by omega)).1
  exact Filled.kept h range lays off x lt

theorem SectionMapped.patched (h : SectionMapped m root k start stop w nx) (patched : Patched m m' root target) :
    SectionMapped m' root k start stop w nx := by
  intro x lt
  obtain ⟨e, l, found, rest⟩ := h x lt
  exact ⟨e, l, patched.kept _ _ found, rest⟩

theorem SectionMapped.maps (h : SectionMapped m root k start stop w nx) (placed : SectionPlaced k start stop)
    (fits : stop + pageSize ≤ 2 ^ 64) (inside : InSection start stop va) :
    Maps m root va (k.physicalBase + (va - k.virtualBase)) w nx := by
  have same : sectionStart start = start := Nat.div_mul_cancel (Nat.dvd_of_mod_eq_zero placed.aligned)
  have base := placed.loaded.2.2
  rw [inSection_iff fits] at inside
  have maps := h (va - sectionStart start) (by omega)
  rwa [show sectionStart start + (va - sectionStart start) = va by omega,
    show k.physicalBase + (sectionStart start - k.virtualBase) + (va - sectionStart start) =
      k.physicalBase + (va - k.virtualBase) by omega] at maps

theorem ImageLayout.placed (h : ImageLayout s k) : SectionPlaced k s.textStart s.textEnd ∧
    SectionPlaced k s.rodataStart s.rodataEnd ∧ SectionPlaced k s.dataStart s.bssEnd := by
  obtain ⟨aligned, text, rodata, data, loaded, physical⟩ := h
  have sooner : ∀ stop ≤ s.bssEnd, k.physicalBase + (roundUp stop pageSize - k.virtualBase) ≤ 2 ^ 52 := by
    intro stop le
    have := roundUp_mono pageSize le
    omega
  exact ⟨⟨aligned.1, by omega, loaded, sooner _ (by omega)⟩,
    ⟨aligned.2.1, by omega, ⟨loaded.1, loaded.2.1, by omega⟩, sooner _ (by omega)⟩,
    ⟨aligned.2.2, by omega, ⟨loaded.1, loaded.2.1, by omega⟩, physical⟩⟩

theorem ImageLayout.dataStart_le (h : ImageLayout s k) : s.dataStart + pageSize ≤ 2 ^ 64 := by
  have page := h.aligned.2.2
  have data := h.data
  unfold pageSize at *
  omega

theorem ImageLayout.rodataEnd_le (h : ImageLayout s k) : s.rodataEnd + pageSize ≤ 2 ^ 64 :=
  Nat.le_trans (Nat.add_le_add_right h.rodata.2 _) h.dataStart_le

theorem ImageLayout.textEnd_le (h : ImageLayout s k) : s.textEnd + pageSize ≤ 2 ^ 64 :=
  Nat.le_trans (Nat.add_le_add_right (Nat.le_trans h.text.2 h.rodata.1) _) h.rodataEnd_le

theorem section_le {next : Nat} (order : start ≤ stop) (le : stop ≤ next) (aligned : start % pageSize = 0)
    (page : next % pageSize = 0)
    (fits : next + pageSize ≤ 2 ^ 64) : sectionStart start + sectionSize start stop ≤ sectionStart next := by
  have high := alignUp_le le page fits
  unfold sectionStart sectionSize
  have same : alignDown start pageSize = start := Nat.div_mul_cancel (Nat.dvd_of_mod_eq_zero aligned)
  have same' : alignDown next pageSize = next := Nat.div_mul_cancel (Nat.dvd_of_mod_eq_zero page)
  omega

theorem ImageLayout.apart (h : ImageLayout s k) :
    sectionStart s.textStart + sectionSize s.textStart s.textEnd ≤ sectionStart s.rodataStart ∧
      sectionStart s.rodataStart + sectionSize s.rodataStart s.rodataEnd ≤ sectionStart s.dataStart := by
  have top := h.dataStart_le
  have order := h.rodata
  exact ⟨section_le h.text.1 h.text.2 h.aligned.1 h.aligned.2.1 (by omega),
    section_le h.rodata.1 h.rodata.2 h.aligned.2.1 h.aligned.2.2 top⟩

/-- The image in an address space that keeps writable and executable pages apart. -/
structure ImageMapped (m : Machine) (root : Nat) (k : KernelAddress) (s : Symbols) : Prop where
  exclusive : Exclusive m root (InSection s.textStart s.textEnd)
  text : SectionMapped m root k s.textStart s.textEnd false false
  rodata : SectionMapped m root k s.rodataStart s.rodataEnd false true
  data : SectionMapped m root k s.dataStart s.bssEnd true true

theorem ImageLaid.mapped (h : ImageLaid m m' root k s) (layout : ImageLayout s k) (apart : ImageApart s hhdm)
    (exclusive : Exclusive m root (InSection s.textStart s.textEnd)) : ImageMapped m' root k s := by
  obtain ⟨m₁, m₂, text, rodata, data⟩ := h
  obtain ⟨placed₁, placed₂, placed₃⟩ := layout.placed
  have textFilled := text.mapped placed₁
  have rodataFilled := rodata.mapped placed₂
  have dataFilled := data.mapped placed₃
  obtain ⟨first, second⟩ := layout.apart
  refine ⟨?_, ?_, ?_, dataFilled⟩
  · refine ((exclusive.lays text.1 textFilled (.inr ⟨rfl, fun va low high => ?_⟩)).lays rodata.1 rodataFilled
      (.inl rfl)).lays
      data.1 dataFilled (.inl rfl)
    exact (inSection_iff layout.textEnd_le).mpr ⟨low, high⟩
  · exact (textFilled.kept apart.text rodata.1 (by omega)).kept apart.text data.1 (by omega)
  · exact rodataFilled.kept apart.rodata data.1 (by omega)

theorem ImageMapped.direct {done : Nat → Prop} (h : ImageMapped m root k s) (apart : ImageApart s hhdm)
    (lays : Lays m m' root hhdm window limit) (covers : Covers m' root hhdm done) : ImageMapped m' root k s := by
  have off : ∀ start stop, SectionApart hhdm start stop → ∀ w nx, SectionMapped m root k start stop w nx →
      SectionMapped m' root k start stop w nx := by
    intro start stop away w nx mapped x lt
    exact mapped.kept away lays (.inr (away (by omega)).2) x lt
  exact ⟨h.exclusive.direct lays covers, off _ _ apart.text _ _ h.text, off _ _ apart.rodata _ _ h.rodata,
    off _ _ apart.data _ _ h.data⟩

theorem Construction.mapped {m₀ m₁ m₂ : Machine} (h : Construction boot hhdm entries k m m₀ m₁ m₂ m' root)
    (layout : ImageLayout boot.symbols k) (apart : ImageApart boot.symbols hhdm) :
    ImageMapped m' root k boot.symbols := by
  have start : Exclusive m₀ root (InSection boot.symbols.textStart boot.symbols.textEnd) := fun va e l _ found => by
    rw [h.fresh.empty] at found
    cases found
  have identity := start.lays h.identity h.filled (.inl rfl)
  exact (h.image.mapped layout apart identity).direct apart h.direct h.covers

theorem ImageMapped.patched (h : ImageMapped m root k s) (patched : Patched m m' root target) :
    ImageMapped m' root k s :=
  ⟨h.exclusive.patched patched, h.text.patched patched, h.rodata.patched patched, h.data.patched patched⟩

/-! ### The installed address space -/

theorem Construction.ready {m₀ m₁ m₂ : Machine} (h : Construction boot hhdm entries k m m₀ m₁ m₂ m' root) :
    Ready m' root :=
  h.fresh.ready.evolves (h.identity.evolves.trans (h.image.evolves.trans h.direct.evolves))

theorem Construction.keeps_hhdm {m₀ m₁ m₂ : Machine} (h : Construction boot hhdm entries k m m₀ m₁ m₂ m' root) :
    m'.paging.hhdm = m.paging.hhdm := by
  rw [h.direct.evolves.paging, h.image.evolves.paging, h.identity.evolves.paging, h.fresh.hhdm]

theorem pagingBootstrap_eq (offset : boot.hhdm = some hhdm) (nonzero : hhdm ≠ 0) :
    m.pagingBootstrap boot rsp = (do
      let m₁ ← ({ m with paging := { m.paging with hhdm := hhdm } } : Machine).buildTables boot
      m₁.installNewCr3 boot rsp m₁.paging.pml4Phys) := by
  unfold pagingBootstrap
  rw [offset]
  dsimp only
  rw [if_neg nonzero]

def bootstrapNeeded (boot : Boot) (entries : List MemmapEntry) : Nat := tablesNeeded boot entries + auditNeeded

theorem pagingBootstrap_builds (input : HhdmInput boot hhdm entries k) (layout : ImageLayout boot.symbols k)
    (offset : boot.hhdm = some hhdm) (sound : m.early.Sound)
    (stack : hhdm ≤ rsp ∧ rsp < add64 hhdm (getMaxPhys boot))
    (rip : InSection boot.symbols.textStart boot.symbols.textEnd boot.symbols.preSwitchAuditAndPatch) :
    Builds m (bootstrapNeeded boot entries) (m.pagingBootstrap boot rsp) id fun _ => True := by
  have nonzero : hhdm ≠ 0 := by
    have := input.offset.higher
    omega
  rw [pagingBootstrap_eq offset nonzero]
  change Builds { m with paging := { m.paging with hhdm := hhdm } } _ _ _ _
  apply (buildTables_builds (m := { m with paging := { m.paging with hhdm := hhdm } }) input sound rfl).bind
  rintro m₁ ⟨m₀, _, _, built, _⟩
  have here : m₁.paging.hhdm = hhdm := built.keeps_hhdm
  have start : (leafOf m₁.mem m₁.paging.pml4Phys hhdm).isSome := by
    obtain ⟨e, l, found, _⟩ := (built.covers 0 (by decide)).1 (.inr (by decide))
    rw [Nat.add_zero] at found
    rw [found]
    rfl
  have text : (leafOf m₁.mem m₁.paging.pml4Phys boot.symbols.preSwitchAuditAndPatch).isSome := by
    obtain ⟨e, l, found, _⟩ := (built.mapped layout input.image).text.maps layout.placed.1 layout.textEnd_le rip
    rw [found]
    rfl
  subst here
  refine (?_ : Builds m₁ (auditNeeded + 0) _ _ _)
  exact (preSwitchAuditAndPatch_builds built.ready input.offset stack start text).bind fun m₂ _ => .pure rfl trivial

theorem pagingBootstrap_ok (input : HhdmInput boot hhdm entries k) (offset : boot.hhdm = some hhdm)
    (sound : m.early.Sound)
    (run : m.pagingBootstrap boot rsp = .ok m') :
    ∃ m₀ m₁ m₂ m₃ m₄ target,
      Construction boot hhdm entries k { m with paging := { m.paging with hhdm := hhdm } } m₀ m₁ m₂ m₃ m₃.paging.pml4Phys ∧
        Patched m₃ m₄ m₃.paging.pml4Phys target ∧
          m' = { m₄ with paging := { m₄.paging with cr3 := m₃.paging.pml4Phys } } := by
  have nonzero : hhdm ≠ 0 := by
    have := input.offset.higher
    omega
  rw [pagingBootstrap_eq offset nonzero] at run
  obtain ⟨m₃, tables, run⟩ := bind_ok run
  have builds := buildTables_builds (m := { m with paging := { m.paging with hhdm := hhdm } }) input sound rfl
  obtain ⟨m₀, m₁, m₂, built, _⟩ := builds.post tables
  obtain ⟨m₄, audit, run⟩ := bind_ok run
  obtain ⟨_, _, patched⟩ := preSwitchAuditAndPatch_ok built.ready.hierarchy audit
  cases run
  exact ⟨m₀, m₁, m₂, m₃, m₄, _, built, patched, rfl⟩

/-- What is asked of the address space in `cr3`. -/
structure Protected (m : Machine) (k : KernelAddress) (s : Symbols) : Prop where
  exclusive : ∀ va e l, Canonical va → leafOf m.mem m.paging.cr3 va = some (e, l) → e.testBit 63 = false →
    InSection s.textStart s.textEnd va ∧ e.testBit 1 = false
  rodata : ∀ va, InSection s.rodataStart s.rodataEnd va →
    ∃ e l, leafOf m.mem m.paging.cr3 va = some (e, l) ∧ e.testBit 1 = false ∧ e.testBit 63 = true
  data : ∀ va, InSection s.dataStart s.bssEnd va →
    ∃ e l, leafOf m.mem m.paging.cr3 va = some (e, l) ∧ e.testBit 1 = true ∧ e.testBit 63 = true
  translates : ∀ va, InSection s.textStart s.textEnd va ∨ InSection s.rodataStart s.rodataEnd va ∨
    InSection s.dataStart s.bssEnd va →
    ∃ level, m.walkVaToPa va m.paging.cr3 = some (k.physicalBase + (va - k.virtualBase), level)

theorem ImageMapped.protected (h : ImageMapped m m.paging.cr3 k s) (layout : ImageLayout s k)
    (fits : s.bssEnd + pageSize ≤ 2 ^ 64) : Protected m k s := by
  obtain ⟨text, rodata, data⟩ := layout.placed
  refine ⟨h.exclusive, fun va inside => ?_, fun va inside => ?_, fun va inside => ?_⟩
  · obtain ⟨e, l, found, _, _, bits⟩ := h.rodata.maps rodata layout.rodataEnd_le inside
    exact ⟨e, l, found, bits⟩
  · obtain ⟨e, l, found, _, _, bits⟩ := h.data.maps data fits inside
    exact ⟨e, l, found, bits⟩
  · rcases inside with inside | inside | inside
    · exact (h.text.maps text layout.textEnd_le inside).walk
    · exact (h.rodata.maps rodata layout.rodataEnd_le inside).walk
    · exact (h.data.maps data fits inside).walk

/-! ### The last page -/

/-- When the image ends in the last page, that page can only belong to the HHDM. -/
theorem Construction.last {m₀ m₁ m₂ : Machine} {e l : Nat}
    (h : Construction boot hhdm entries k m m₀ m₁ m₂ m' root) (layout : ImageLayout boot.symbols k)
    (last : 2 ^ 64 < boot.symbols.bssEnd + pageSize)
    (found : leafOf m'.mem root (2 ^ 64 - pageSize) = some (e, l)) :
    hhdm + leafAddress e l (2 ^ 64 - pageSize) = 2 ^ 64 - pageSize := by
  have canonical : Canonical (2 ^ 64 - pageSize) := by
    unfold Canonical
    decide
  by_cases inside : hhdm ≤ 2 ^ 64 - pageSize ∧ 2 ^ 64 - pageSize < hhdm + window
  · obtain ⟨mapped, unmapped⟩ := h.covers (2 ^ 64 - pageSize - hhdm) (by omega)
    rw [show hhdm + (2 ^ 64 - pageSize - hhdm) = 2 ^ 64 - pageSize by omega] at mapped unmapped
    by_cases included : Included entries (2 ^ 64 - pageSize - hhdm) ∨ 2 ^ 64 - pageSize - hhdm < page2m
    · obtain ⟨e', l', found', _, address, _⟩ := mapped included
      cases found.symm.trans found'
      omega
    · rw [unmapped included] at found
      cases found
  · -- No stage but the HHDM enters it.
    obtain ⟨m₃, m₄, text, rodata, data⟩ := h.image
    have top := layout.dataStart_le
    obtain ⟨first, second⟩ := layout.apart
    have page : sectionStart boot.symbols.dataStart ≤ boot.symbols.dataStart := Nat.div_mul_le_self _ _
    have empty := sectionSize_last boot.symbols.dataStart layout.data.2 last
    rw [h.direct.outside _ canonical (by omega), data.1.outside _ canonical (by omega),
      rodata.1.outside _ canonical (by omega), text.1.outside _ canonical (by omega),
      h.identity.outside _ canonical (.inr (by decide)), h.fresh.empty] at found
    cases found

theorem bootstrap_last {m₀ m₁ m₂ m₃ : Machine} {level : Nat}
    (h : Construction boot hhdm entries k m m₀ m₁ m₂ m₃ root) (patched : Patched m₃ m' root target)
    (here : m₃.paging.hhdm = hhdm) (offset : HhdmOffset hhdm) (layout : ImageLayout boot.symbols k)
    (elsewhere : NotDirect hhdm k)
    (last : 2 ^ 64 < boot.symbols.bssEnd + pageSize) :
    m'.walkVaToPa (2 ^ 64 - pageSize) root ≠ some (k.physicalBase + (2 ^ 64 - pageSize - k.virtualBase), level) := by
  intro walked
  rw [walkVaToPa_eq, Option.map_eq_some_iff] at walked
  obtain ⟨⟨e, l⟩, found, same⟩ := walked
  have address := congrArg Prod.fst same
  have base : k.virtualBase ≤ 2 ^ 64 - pageSize := by
    have top := layout.dataStart_le
    obtain ⟨_, text, rodata, _, loaded, _⟩ := layout
    omega
  have loaded := layout.loaded
  dsimp only at address
  unfold NotDirect at elsewhere
  rcases patched.added _ _ found with old | ⟨p, _, samePage, new⟩
  · have direct := h.last layout last old
    rw [address] at direct
    omega
  · cases new
    rw [leafAddress_4k] at address
    rw [here] at samePage
    have page := offset.aligned
    unfold SamePage add64 pageSize page2m at *
    omega

/-- The address space that `paging_bootstrap` installs keeps writable and executable pages apart and has
the whole image exactly when the image ends below the last page. -/
theorem write_xor_execute (rsp : Nat) (input : HhdmInput boot hhdm entries k) (layout : ImageLayout boot.symbols k)
    (offset : boot.hhdm = some hhdm)
    (sound : m.early.Sound) :
    (hhdm ≤ rsp → rsp < add64 hhdm (getMaxPhys boot) →
      InSection boot.symbols.textStart boot.symbols.textEnd boot.symbols.preSwitchAuditAndPatch →
      m.early.cursor + bootstrapNeeded boot entries * pageSize ≤ m.early.stop → ∃ m',
        m.pagingBootstrap boot rsp = .ok m') ∧
    ∀ m', m.pagingBootstrap boot rsp = .ok m' →
      (boot.symbols.bssEnd ≤ 2 ^ 64 - pageSize → Protected m' k boot.symbols) ∧
      (NotDirect hhdm k → Protected m' k boot.symbols → boot.symbols.bssEnd ≤ 2 ^ 64 - pageSize) := by
  refine ⟨fun low high rip enough => ?_, fun m' run => ?_⟩
  · obtain ⟨m', run, _⟩ := (pagingBootstrap_builds input layout offset sound ⟨low, high⟩ rip).returns enough
    exact ⟨m', run⟩
  obtain ⟨m₀, m₁, m₂, m₃, m₄, target, built, patched, rfl⟩ := pagingBootstrap_ok input offset sound run
  have page : pageSize = 4096 := rfl
  constructor
  · intro fits
    have mapped := (built.mapped layout input.image).patched patched
    exact ImageMapped.protected ⟨mapped.exclusive, mapped.text, mapped.rodata, mapped.data⟩ layout (by omega)
  · intro elsewhere whole
    by_contra last
    have data : InSection boot.symbols.dataStart boot.symbols.bssEnd (2 ^ 64 - pageSize) := by
      have start := layout.dataStart_le
      have below := Nat.div_mul_le_self boot.symbols.dataStart pageSize
      unfold InSection alignDown roundUp pageSize at *
      omega
    obtain ⟨level, walked⟩ := whole.translates _ (.inr (.inr data))
    exact bootstrap_last built patched built.keeps_hhdm input.offset layout elsewhere (by omega) walked

theorem directLayout : ImageLayout directBoot.symbols ⟨0x8100000, 0xFFFFFFFF80000000⟩ :=
  ⟨by decide, by decide, by decide, by decide, by decide, by decide⟩

theorem write_xor_execute_sample : ∃ m', directMachine.pagingBootstrap directBoot 0xFFFF800000200000 = .ok m' ∧
    (∃ level, m'.walkVaToPa 0xFFFFFFFF80000100 m'.paging.cr3 = some (0x8100100, level)) ∧
    ∃ e l, leafOf m'.mem m'.paging.cr3 0xFFFFFFFF80003000 = some (e, l) ∧ e.testBit 1 = true ∧ e.testBit 63 = true := by
  obtain ⟨returns, safe⟩ := write_xor_execute 0xFFFF800000200000 directInput directLayout rfl directSound
  obtain ⟨m', run⟩ := returns (by decide) (by decide) (by unfold InSection; decide) (by decide)
  have whole := (safe m' run).1 (by decide)
  exact ⟨m', run, whole.translates _ (.inl (by unfold InSection; decide)), whole.data _ (by unfold InSection; decide)⟩

/-- The same image at the end of the address space. -/
def topSymbols : Symbols :=
  ⟨0xFFFFFFFFFFFFC000, 0xFFFFFFFFFFFFF800, 0xFFFFFFFFFFFFC000, 0xFFFFFFFFFFFFD000, 0xFFFFFFFFFFFFD000,
    0xFFFFFFFFFFFFE000, 0xFFFFFFFFFFFFE000, 0xFFFFFFFFFFFFF800, 0xFFFFFFFFFFFFC100⟩

def topKernel : KernelAddress := ⟨0x8100000, 0xFFFFFFFFFFFFC000⟩

/-- Its data, from `0xFFFFFFFFFFFFE000` to `0xFFFFFFFFFFFFF800`, is not mapped. -/
theorem data_skipped : ImageLayout topSymbols topKernel ∧
    ∃ m', directMachine.pagingBootstrap { directBoot with kernelAddress := some topKernel, symbols := topSymbols }
        0xFFFF800000200000 = .ok m' ∧ ¬ Protected m' topKernel topSymbols := by
  have layout : ImageLayout topSymbols topKernel := ⟨by decide, by decide, by decide, by decide, by decide, by decide⟩
  have image : ImageApart topSymbols 0xFFFF800000000000 := by
    refine ⟨fun _ => ?_, fun _ => ?_, fun some => ?_⟩
    · unfold CanonicalRange
      decide
    · unfold CanonicalRange
      decide
    · exact absurd some (by decide)
  have input := directInput.relocate topKernel topSymbols image
  have built : Builds directMachine _ (directMachine.pagingBootstrap _ 0xFFFF800000200000) id fun _ => True :=
    pagingBootstrap_builds input layout rfl directSound (by decide) (by unfold InSection; decide)
  obtain ⟨m', run, _⟩ := built.returns (by decide)
  refine ⟨layout, m', run, fun whole => ?_⟩
  obtain ⟨m₀, m₁, m₂, m₃, m₄, target, built, patched, rfl⟩ := pagingBootstrap_ok input rfl directSound run
  obtain ⟨level, walked⟩ := whole.translates (2 ^ 64 - pageSize) (.inr (.inr (by unfold InSection; decide)))
  exact bootstrap_last built patched built.keeps_hhdm input.offset layout (by unfold NotDirect; decide) (by decide) walked

end Voyager.Machine
