import Mathlib.Order.Interval.Finset.Nat
import Voyager.Paging.Cover

/-! # The law of covering -/

namespace Voyager.Machine

open Lib Lib.RadixTable Paging

variable {m m' m₁ m₂ : Machine} {root hhdm va p x phys len : Nat} {pages pages' : List Nat} {S : Set Nat} {boot : Boot}
  {r : Request}

/-! ### The order of the pages -/

structure Similar (m₁ m₂ : Machine) (root : Nat) : Prop where
  leaves : ∀ va, leafOf m₁.mem root va = leafOf m₂.mem root va
  paths : tablePaths m₁.mem root = tablePaths m₂.mem root
  pointers : ∀ {l p n₁ n₂ c₁ c₂} {i : Fin 512}, Reached m₁.mem root (l + 1) p n₁ → Reached m₂.mem root (l + 1) p n₂ →
    slot (l + 1) (entry m₁.mem n₁ i) = .table c₁ → slot (l + 1) (entry m₂.mem n₂ i) = .table c₂ →
    entry m₁.mem n₁ i &&& Bits.complement 64 addrMask = entry m₂.mem n₂ i &&& Bits.complement 64 addrMask
  memory : ∀ x, m₁.mem x = m₂.mem x ∨ (∃ l p n, Reached m₁.mem root l p n ∧ n ≤ x ∧ x < n + pageSize) ∨
    ∃ l p n, Reached m₂.mem root l p n ∧ n ≤ x ∧ x < n + pageSize
  early : m₁.early = m₂.early
  paging : m₁.paging = m₂.paging
  frames : m₁.frames = m₂.frames

theorem new_pointer_flags {e c : Nat} {l : Nat} (points : slot l e = .table c) (word : e = c ||| (pteP ||| pteW)) :
    e &&& Bits.complement 64 addrMask = pteP ||| pteW := by
  obtain ⟨_, _, rfl, _⟩ := slot_table points
  have apart : addrMask &&& Bits.complement 64 addrMask = 0 := by decide
  have low : (pteP ||| pteW) &&& Bits.complement 64 addrMask = pteP ||| pteW := by decide
  rw [word, Nat.and_or_distrib_right, Nat.and_assoc, apart, Nat.and_zero, Nat.zero_or, low]

theorem Covered.similar (h₁ : Covered m m₁ root hhdm S) (h₂ : Covered m m₂ root hhdm S) : Similar m₁ m₂ root where
  leaves va := by
    cases before : leafOf m.mem root va with
    | some r => rw [h₁.kept before, h₂.kept before]
    | none =>
      by_cases there : ∃ p ∈ S, SamePage (add64 hhdm p) va
      · obtain ⟨p, hp, same⟩ := there
        rw [h₁.added before hp same, h₂.added before hp same]
      · have off : ∀ p ∈ S, ¬ SamePage (add64 hhdm p) va := fun p hp same => there ⟨p, hp, same⟩
        rw [h₁.other before off, h₂.other before off]
  paths := by rw [h₁.charted.paths, h₂.charted.paths]
  pointers {l p n₁ n₂ c₁ c₂ i} reach₁ reach₂ points₁ points₂ := by
    have old : ∀ {n c}, Reached m.mem root (l + 1) p n → slot (l + 1) (entry m.mem n i) = .table c →
        p ++ [i] ∈ tablePaths m.mem root := fun reach points => ⟨_, _, reach.step i points⟩
    rcases h₁.charted.pointers reach₁ points₁ with ⟨before₁, same₁⟩ | ⟨new₁, word₁⟩
    · rcases h₂.charted.pointers reach₂ points₂ with ⟨before₂, same₂⟩ | ⟨new₂, _⟩
      · obtain ⟨_, rfl⟩ := before₁.unique before₂
        rw [same₁, same₂]
      · rw [same₁] at points₁
        exact absurd (old before₁ points₁) new₂
    · rcases h₂.charted.pointers reach₂ points₂ with ⟨before₂, same₂⟩ | ⟨_, word₂⟩
      · rw [same₂] at points₂
        exact absurd (old before₂ points₂) new₁
      · rw [new_pointer_flags points₁ word₁, new_pointer_flags points₂ word₂]
  memory x := by
    rcases h₁.charted.memory x with same₁ | inside
    · rcases h₂.charted.memory x with same₂ | inside
      · exact .inl (same₁.trans same₂.symm)
      · exact .inr (.inr inside)
    · exact .inr (.inl inside)
  early := by
    have paths : tablePaths m₁.mem root = tablePaths m₂.mem root := by rw [h₁.charted.paths, h₂.charted.paths]
    have first := h₁.charted.balance
    have second := h₂.charted.balance
    rw [paths] at first
    have cursor : m₁.early.cursor = m₂.early.cursor := by omega
    rw [h₁.evolves.early, h₂.evolves.early, cursor]
  paging := h₁.evolves.paging.trans h₂.evolves.paging.symm
  frames := h₁.evolves.frames.trans h₂.evolves.frames.symm

theorem coverPages_order (ready : Ready m root) (aligned : m.paging.hhdm % page2m = 0) (all : ∀ p ∈ pages, IsPage p)
    (same : ∀ p, p ∈ pages ↔ p ∈ pages') (run : m.coverPages root pages = .ok m₁) :
    ∃ m₂, m.coverPages root pages' = .ok m₂ ∧ Similar m₁ m₂ root := by
  have all' : ∀ p ∈ pages', IsPage p := fun p hp => all p ((same p).mpr hp)
  have sets : {p | p ∈ pages} = {p | p ∈ pages'} := Set.ext same
  have first := coverPages_covered ready.hierarchy aligned all run
  rw [sets] at first
  have builds : Builds m (pages'.length * 3) (m.coverPages root pages') id fun _ => True := coverPages_builds ready
  rcases builds with ⟨m₂, ok, _⟩ | ⟨⟨used, failed⟩, _⟩
  · exact ⟨m₂, ok, first.similar (coverPages_covered ready.hierarchy aligned all' ok)⟩
  · obtain ⟨m₂, short⟩ := coverPages_short ready aligned all' failed
    exact (first.charted.not_short first.evolves short).elim

def coverRanges (m : Machine) (root : Nat) (ranges : List (Nat × Nat)) : Kernel Machine :=
  ranges.foldlM (fun m r => m.ensureHhdmCoverPhysRange root r.1 r.2) m

theorem coverRanges_eq {ranges : List (Nat × Nat)} (below : ∀ r ∈ ranges, r.1 + r.2 ≤ window) :
    m.coverRanges root ranges = m.coverPages root (ranges.flatMap fun r => pagesOf r.1 r.2) := by
  induction ranges generalizing m with
  | nil => rfl
  | cons r rest ih =>
    rw [coverRanges, List.foldlM_cons, List.flatMap_cons, coverPages_append,
      ensureHhdmCoverPhysRange_eq (below r List.mem_cons_self)]
    exact bind_congr fun m₁ => ih fun t ht => below t (List.mem_cons_of_mem r ht)

/-! ### What the builders make -/

/-- The bootloader's part: where the HHDM and the image lie, and how far memory goes. -/
structure Arranged (boot : Boot) (hhdm : Nat) : Prop where
  offset : HhdmOffset hhdm
  image : ImageApart boot.symbols hhdm
  below : ∀ entries, boot.memmap = some entries → ∀ e ∈ entries, included e.type = true → e.base + e.length ≤ window

/-- The address spaces that the builders make, in any order, from a fresh root. -/
inductive Built (boot : Boot) (hhdm root : Nat) : Machine → Prop where
  | fresh {m m' : Machine} : m.early.Sound → m.paging.hhdm = hhdm → hhdm ≠ 0 → m.allocTable = .ok (root, m') →
      Built boot hhdm root { m' with paging := { m'.paging with pml4Phys := root } }
  | identity {m m' : Machine} : Built boot hhdm root m → m.mapIdentityMinimal root = .ok m' → Built boot hhdm root m'
  | kernel {m m' : Machine} : Built boot hhdm root m → m.mapKernelHigherHalf boot root = .ok m' → Built boot hhdm root m'
  | direct {m m' : Machine} : Built boot hhdm root m → m.mapHhdm boot root = .ok m' → Built boot hhdm root m'
  | page {m m' : Machine} {phys : Nat} : Built boot hhdm root m → phys < window →
      m.ensureHhdmCoverPhysPage root phys = .ok m' → Built boot hhdm root m'
  | range {m m' : Machine} {phys len : Nat} : Built boot hhdm root m → phys + len ≤ window →
      m.ensureHhdmCoverPhysRange root phys len = .ok m' → Built boot hhdm root m'

/-- What is mapped in the window is mapped to itself. -/
def DirectMap (m : Machine) (root hhdm : Nat) : Prop :=
  ∀ x < window, ∀ e k, leafOf m.mem root (add64 hhdm x) = some (e, k) → leafAddress e k (add64 hhdm x) = x

def Request.Direct (hhdm : Nat) (r : Request) : Prop :=
  ∀ x < window, r.Covers (add64 hhdm x) → leafAddress r.leaf.1 r.leaf.2 (add64 hhdm x) = x

theorem Entered.directMap (h : Entered m m' root (Request.Direct hhdm)) (hier : Hierarchy m root)
    (direct : DirectMap m root hhdm) : DirectMap m' root hhdm := by
  intro x lt e k found
  rcases h.found hier found with old | ⟨r, is, covers, leaf⟩
  · exact direct x lt e k old
  · have back := is x lt covers
    rwa [leaf] at back

theorem identity_direct (offset : HhdmOffset hhdm) (hr : r ∈ identityRequests) : r.Direct hhdm := by
  obtain ⟨y, lt, page, rfl⟩ := mem_identityRequests.mp hr
  intro x hx covers
  have higher := offset.higher
  have fits := offset.fits
  change SamePage y _ at covers
  unfold SamePage add64 page2m window at *
  omega

theorem section_direct {k : KernelAddress} {start stop flags : Nat} (offset : HhdmOffset hhdm)
    (apart : SectionApart hhdm start stop) (hr : r ∈ sectionRequests k start stop flags) : r.Direct hhdm := by
  obtain ⟨y, lt, page, rfl⟩ := mem_sectionRequests.mp hr
  intro x hx covers
  obtain ⟨range, away⟩ := apart (by omega)
  have fits := offset.fits
  have sum : add64 hhdm x = hhdm + x := add64_of_lt (by omega)
  have start_page : sectionStart start % pageSize = 0 := Nat.mul_mod_left _ _
  have whole := sectionSize_mod start stop
  generalize sectionStart start = lo at *
  generalize sectionSize start stop = size at *
  have last : y + pageSize ≤ size := by
    unfold pageSize at *
    omega
  have aligned : (lo + y) % pageSize = 0 := by
    unfold pageSize at *
    omega
  have one : CanonicalRange (lo + y) pageSize := by
    unfold CanonicalRange at *
    omega
  rw [sum] at covers
  have inside := (samePage_iff aligned one (offset.canonical hx)).mp covers
  omega

theorem kernel_direct {k : KernelAddress} (arranged : Arranged boot hhdm) (hr : r ∈ kernelRequests k boot.symbols) :
    r.Direct hhdm := by
  rw [kernelRequests, List.mem_append, List.mem_append] at hr
  rcases hr with (text | rodata) | data
  · exact section_direct arranged.offset arranged.image.text text
  · exact section_direct arranged.offset arranged.image.rodata rodata
  · exact section_direct arranged.offset arranged.image.data data

theorem Covered.directMap (h : Covered m m' root hhdm S) (aligned : hhdm % page2m = 0) (hS : ∀ p ∈ S, IsPage p)
    (direct : DirectMap m root hhdm) : DirectMap m' root hhdm := by
  intro x lt e k found
  cases before : leafOf m.mem root (add64 hhdm x) with
  | some r =>
    rw [h.kept before] at found
    cases found
    exact direct x lt e k before
  | none =>
    obtain ⟨p, hp, same, leaf⟩ := h.page_of_some before found
    cases leaf
    have page : p % (if false = true then page2m else pageSize) = 0 := (hS p hp).1
    exact directRequest_leaf aligned (hS p hp).2 lt page same

structure Standing (m : Machine) (root hhdm : Nat) : Prop where
  ready : Ready m root
  offset : m.paging.hhdm = hhdm
  selected : m.paging.pml4Phys = root
  direct : DirectMap m root hhdm

theorem Standing.evolves (h : Standing m root hhdm) (evolves : Evolves m m' root) (direct : DirectMap m' root hhdm) :
    Standing m' root hhdm :=
  ⟨h.ready.evolves evolves, by rw [evolves.paging]; exact h.offset, by rw [evolves.paging]; exact h.selected, direct⟩

theorem Standing.enterAll {rs : List Request} (h : Standing m root hhdm) (all : ∀ r ∈ rs, r.Direct hhdm)
    (run : m.enterAll root rs = .ok m') : Standing m' root hhdm := by
  have entered : Entered m m' root (Request.Direct hhdm) := ⟨rs, all, run⟩
  exact h.evolves (entered.evolves h.ready.hierarchy) (entered.directMap h.ready.hierarchy h.direct)

theorem Standing.covered (h : Standing m root hhdm) (covered : Covered m m' root m.paging.hhdm S)
    (aligned : hhdm % page2m = 0) (hS : ∀ p ∈ S, IsPage p) : Standing m' root hhdm := by
  rw [h.offset] at covered
  exact h.evolves covered.evolves (covered.directMap aligned hS h.direct)

theorem Built.standing (arranged : Arranged boot hhdm) (h : Built boot hhdm root m) : Standing m root hhdm := by
  have aligned := arranged.offset.aligned
  induction h with
  | fresh sound here nonzero alloc =>
    have fresh := ((allocTable_root sound (by rw [here]; exact nonzero)).post alloc).select
    refine ⟨fresh.ready, fresh.hhdm.trans here, rfl, fun x _ e k found => ?_⟩
    rw [fresh.empty] at found
    cases found
  | identity _ run ih =>
    rw [mapIdentityMinimal_requests] at run
    exact ih.enterAll (fun r hr => identity_direct arranged.offset hr) run
  | kernel _ run ih =>
    cases address : boot.kernelAddress with
    | none =>
      rw [mapKernelHigherHalf, address] at run
      cases run
    | some k =>
      rw [mapKernelHigherHalf_requests address] at run
      exact ih.enterAll (fun r hr => kernel_direct arranged hr) run
  | direct _ run ih =>
    cases memmap : boot.memmap with
    | none =>
      rw [mapHhdm, if_neg ih.ready.hhdm, memmap] at run
      cases run
    | some entries =>
      obtain ⟨_, nonempty⟩ := mapHhdm_ready memmap run
      have small : ∀ e ∈ entries, span e = 0 ∨ alignDown e.base pageSize + span e ≤ window := fun e he =>
        span_le (arranged.below entries memmap e he) (by decide) (by decide)
      have top : window = 2 ^ 46 := rfl
      rw [mapHhdm_requests ih.ready.hierarchy ih.ready.hhdm (by rw [ih.offset]; exact aligned) memmap nonempty
        (fun e he => (small e he).imp_right (by omega)), ih.offset] at run
      exact ih.enterAll (fun r hr x lt covers => hhdmRequests_leaf aligned small hr lt covers) run
  | page _ low run ih =>
    rw [ensurePage_whole] at run
    refine ih.covered (covered_page ih.ready.hierarchy (Nat.mul_mod_left _ _) run) aligned ?_
    rintro q rfl
    exact ⟨Nat.mul_mod_left _ _, Nat.lt_of_le_of_lt (Nat.div_mul_le_self _ _) low⟩
  | range _ below run ih =>
    rw [ensureHhdmCoverPhysRange_eq below] at run
    have pages := fun q (hq : q ∈ pagesOf _ _) => pagesOf_isPage below hq
    exact ih.covered (coverPages_covered ih.ready.hierarchy (by rw [ih.offset]; exact aligned) pages run) aligned pages

/-! ### The law -/

structure CoverLaw (m : Machine) (root : Nat) : Prop where
  panics : ∀ phys len, phys + len ≤ window → (∃ m', m.ensureHhdmCoverPhysRange root phys len = .ok m') ∨
    (∃ used, m.ensureHhdmCoverPhysRange root phys len = .error (.panic (.earlyExhausted used))) ∧
      m.early.stop < m.early.cursor + (pagesOf phys len).length * 3 * pageSize
  kept : ∀ phys len m', phys + len ≤ window → m.ensureHhdmCoverPhysRange root phys len = .ok m' →
    ∀ va r, m.walkVaToPa va root = some r → m'.walkVaToPa va root = some r
  maps : ∀ phys len m', phys + len ≤ window → m.ensureHhdmCoverPhysRange root phys len = .ok m' → len ≠ 0 →
    ∀ x, alignDown phys pageSize ≤ x → x < alignUp (phys + len) pageSize →
      ∃ level, m'.walkVaToPa (m.paging.hhdm + x) root = some (x, level)
  again : ∀ phys len m', phys + len ≤ window → m.ensureHhdmCoverPhysRange root phys len = .ok m' →
    ∀ phys' len', phys ≤ phys' → phys' + len' ≤ phys + len → m'.ensureHhdmCoverPhysRange root phys' len' = .ok m'
  order : ∀ ranges ranges' m₁, ranges.Perm ranges' → (∀ r ∈ ranges, r.1 + r.2 ≤ window) →
    m.coverRanges root ranges = .ok m₁ → ∃ m₂, m.coverRanges root ranges' = .ok m₂ ∧ Similar m₁ m₂ root

theorem Covered.isSome (h : Covered m m' root hhdm S) (hp : p ∈ S) : (leafOf m'.mem root (add64 hhdm p)).isSome := by
  cases before : leafOf m.mem root (add64 hhdm p) with
  | some r =>
    rw [h.kept before]
    rfl
  | none =>
    rw [h.added before hp rfl]
    rfl

theorem cover_law (arranged : Arranged boot hhdm) (built : Built boot hhdm root m) : CoverLaw m root := by
  obtain ⟨ready, here, _, direct⟩ := built.standing arranged
  have aligned : m.paging.hhdm % page2m = 0 := by
    rw [here]
    exact arranged.offset.aligned
  have covered : ∀ {phys len m'}, phys + len ≤ window → m.ensureHhdmCoverPhysRange root phys len = .ok m' →
      Covered m m' root m.paging.hhdm {p | p ∈ pagesOf phys len} := fun below run => by
    rw [ensureHhdmCoverPhysRange_eq below] at run
    exact coverPages_covered ready.hierarchy aligned (fun q hq => pagesOf_isPage below hq) run
  refine ⟨fun phys len below => ?_, fun phys len m' below run va r found => ?_,
    fun phys len m' below run some x low high => ?_,
    fun phys len m' below run phys' len' low high => ?_, fun ranges ranges' m₁ perm below run => ?_⟩
  · rw [ensureHhdmCoverPhysRange_eq below]
    rcases coverPages_builds ready with ⟨m', ok, _⟩ | ⟨failed, short⟩
    · exact .inl ⟨m', ok⟩
    · exact .inr ⟨failed, short⟩
  · have covered := covered below run
    rw [walkVaToPa_eq] at found ⊢
    obtain ⟨leaf, before, rfl⟩ := Option.map_eq_some_iff.mp found
    rw [covered.kept before]
    rfl
  · have covered := covered below run
    have direct' := covered.directMap aligned (fun q hq => pagesOf_isPage below hq) (by rw [here]; exact direct)
    have page : alignDown x pageSize ∈ pagesOf phys len := by
      refine mem_pagesOf.mpr ⟨some, Nat.mul_mod_left _ _, ?_, ?_⟩
      · unfold alignDown pageSize at *
        omega
      · exact Nat.lt_of_le_of_lt (Nat.div_mul_le_self _ _) high
    have lt : x < window := by
      have := pagesOf_isPage below page
      unfold IsPage alignDown window pageSize at *
      omega
    have fits := arranged.offset.fits
    have sum : m.paging.hhdm + x = add64 m.paging.hhdm x := (add64_of_lt (by omega)).symm
    have whole : m.paging.hhdm % pageSize = 0 := by
      unfold page2m pageSize at *
      omega
    have mapped := covered.isSome page
    rw [← leafOf_congr (page_aligned whole)] at mapped
    obtain ⟨⟨e, k⟩, found⟩ := Option.isSome_iff_exists.mp mapped
    refine ⟨k + 1, ?_⟩
    rw [sum, walkVaToPa_eq, found, Option.map_some, direct' x lt e k found]
  · have covered := covered below run
    rw [ensureHhdmCoverPhysRange_eq (by omega)]
    refine coverPages_again (fun q hq => pagesOf_isPage (by omega) hq) fun q hq => ?_
    rw [covered.evolves.paging]
    apply covered.isSome
    obtain ⟨some, page, low', high'⟩ := mem_pagesOf.mp hq
    refine mem_pagesOf.mpr ⟨by omega, page, ?_, ?_⟩
    · exact Nat.le_trans (Nat.mul_le_mul_right _ (Nat.div_le_div_right low)) low'
    · have top : window + pageSize ≤ 2 ^ 64 := by decide
      exact Nat.lt_of_lt_of_le high' (alignUp_mono high (by omega))
  · rw [coverRanges_eq below] at run
    rw [coverRanges_eq fun r hr => below r (perm.mem_iff.mpr hr)]
    refine coverPages_order ready aligned ?_ (fun p => (perm.flatMap_right _).mem_iff) run
    intro p hp
    obtain ⟨r, hr, inside⟩ := List.mem_flatMap.mp hp
    exact pagesOf_isPage (below r hr) inside

theorem directArranged : Arranged directBoot 0xFFFF800000000000 where
  offset := directInput.offset
  image := directInput.image
  below entries memmap := by
    cases memmap
    exact directInput.below

theorem cover_law_fresh : ∃ m root, Built directBoot 0xFFFF800000000000 root m ∧
    ∃ m', m.ensureHhdmCoverPhysRange root 0x5123 0x1000 = .ok m' ∧
      (∃ level, m'.walkVaToPa 0xFFFF800000006FFF root = some (0x6FFF, level)) ∧
      m'.ensureHhdmCoverPhysRange root 0x5800 0x10 = .ok m' := by
  obtain ⟨⟨root, m⟩, alloc, fresh⟩ := (allocTable_root directSound (by decide)).returns (by decide)
  have built : Built directBoot 0xFFFF800000000000 root _ := .fresh directSound rfl (by decide) alloc
  replace fresh := fresh.select
  generalize ({ m with paging := { m.paging with pml4Phys := root } } : Machine) = start at fresh built
  have law := cover_law directArranged built
  have hhdm : start.paging.hhdm = 0xFFFF800000000000 := fresh.hhdm
  rcases law.panics 0x5123 0x1000 (by decide) with ⟨m', run⟩ | ⟨_, short⟩
  · refine ⟨start, root, built, m', run, ?_, law.again _ _ _ (by decide) run _ _ (by decide) (by decide)⟩
    have maps := law.maps _ _ _ (by decide) run (by decide) 0x6FFF (by decide) (by decide)
    rwa [hhdm] at maps
  · rw [fresh.early] at short
    exact absurd short (by decide)

/-! ### Running out of early pages -/

theorem buildTables_built (arranged : Arranged boot hhdm) (sound : m.early.Sound) (here : m.paging.hhdm = hhdm)
    (run : m.buildTables boot = .ok m') : Built boot hhdm m'.paging.pml4Phys m' := by
  have higher := arranged.offset.higher
  obtain ⟨⟨root, m₀⟩, alloc, run⟩ := bind_ok run
  obtain ⟨m₁, identity, run⟩ := bind_ok run
  obtain ⟨m₂, kernel, direct⟩ := bind_ok run
  have built : Built boot hhdm root m' :=
    (((Built.fresh sound here (by omega) alloc).identity identity).kernel kernel).direct direct
  rw [(built.standing arranged).selected]
  exact built

theorem tables_le {start : Machine} (fresh : FreshRoot m start root) (evolves : Evolves start m' root) :
    (tablePaths m'.mem root).ncard ≤ m'.early.cursor / pageSize - m.early.cursor / pageSize := by
  classical
  have place : ∀ l p n, Reached m'.mem root l p n → m.early.cursor ≤ n ∧ n < m'.early.cursor ∧ n % pageSize = 0 := by
    intro l p n reach
    have order := evolves.order
    have early : start.early.cursor = m.early.cursor + pageSize := by rw [fresh.early]
    have page : 0 < pageSize := by decide
    have aligned := evolves.tree.node_aligned reach
    rcases evolves.tables reach with old | new
    · have first := fresh.tables old
      have base := fresh.place
      omega
    · omega
  choose! level frame reached using fun p (hp : p ∈ tablePaths m'.mem root) => hp
  have into : ∀ p ∈ tablePaths m'.mem root, frame p / pageSize ∈
      (Finset.Ico (m.early.cursor / pageSize) (m'.early.cursor / pageSize) : Set Nat) := by
    intro p hp
    have bounds := place _ _ _ (reached p hp)
    have aligned := evolves.sound.aligned.2
    rw [Finset.coe_Ico, Set.mem_Ico]
    unfold pageSize at *
    omega
  have injective : Set.InjOn (fun p => frame p / pageSize) (tablePaths m'.mem root) := by
    intro p hp q hq same
    have first := place _ _ _ (reached p hp)
    have second := place _ _ _ (reached q hq)
    have frames : frame p = frame q := by
      unfold pageSize at *
      dsimp only at same
      omega
    exact evolves.tree.unshared (reached p hp) (frames ▸ reached q hq)
  have card := Set.ncard_le_ncard_of_injOn _ into injective (Finset.finite_toSet _)
  rwa [Set.ncard_coe_finset, Nat.card_Ico] at card

theorem upperPath_prefix (va : Nat) : upperPath va <+: (vaddrIndices va).path := List.prefix_append [_, _, _] [_]

theorem Covered.tables_ge {first count : Nat} (h : Covered m m' root hhdm S) (aligned : hhdm % page2m = 0)
    (low : (first + count) * page2m ≤ window)
    (inside : ∀ i < count, (first + i) * page2m ∈ S ∧ leafOf m.mem root (add64 hhdm ((first + i) * page2m)) = none) :
    count ≤ (tablePaths m'.mem root).ncard := by
  have injective : Set.InjOn (fun i => upperPath (add64 hhdm ((first + i) * page2m))) (Finset.range count) := by
    intro i hi j hj same
    rw [Finset.coe_range, Set.mem_Iio] at hi hj
    have through : upperPath (add64 hhdm ((first + i) * page2m)) <+:
        (vaddrIndices (add64 hhdm ((first + j) * page2m))).path := by
      dsimp only at same
      rw [same]
      exact upperPath_prefix _
    have chunk := path_prefix_iff.mp through
    unfold Same2m add64 page2m window at *
    omega
  have sub : ((Finset.range count).image fun i => upperPath (add64 hhdm ((first + i) * page2m)) : Set (List (Fin 512))) ⊆
      tablePaths m'.mem root := by
    intro way hway
    obtain ⟨i, hi, rfl⟩ := Finset.mem_image.mp hway
    obtain ⟨hp, none⟩ := inside i (Finset.mem_range.mp hi)
    rw [h.charted.paths]
    exact .inr ⟨_, hp, none, upperPath _, by simp [upperPath], List.prefix_rfl, rfl⟩
  have card := Set.ncard_le_ncard sub tablePaths_finite
  rwa [Set.ncard_coe_finset, Finset.card_image_of_injOn injective, Finset.card_range] at card

theorem chunk_mem_pagesOf {first count i : Nat} (below : first * page2m + count * page2m ≤ window) (lt : i < count) :
    (first + i) * page2m ∈ pagesOf (first * page2m) (count * page2m) := by
  refine mem_pagesOf.mpr ⟨?_, ?_, ?_, ?_⟩
  · exact Nat.mul_ne_zero (by omega) (by decide)
  · unfold page2m pageSize
    omega
  · unfold alignDown page2m pageSize
    omega
  · unfold alignUp add64 page2m pageSize window at *
    omega

/-- 128 MiB of early pages do not cover 80 GiB. -/
theorem cover_exhausts : ∃ m used, directMachine.buildTables directBoot = .ok m ∧
    Built directBoot 0xFFFF800000000000 m.paging.pml4Phys m ∧
    m.ensureHhdmCoverPhysRange m.paging.pml4Phys (100 * page2m) (40000 * page2m) =
      .error (.panic (.earlyExhausted used)) := by
  obtain ⟨m, run, start, _, _, made, _⟩ := (buildTables_builds directInput directSound rfl).returns (by decide)
  have built := buildTables_built directArranged directSound rfl run
  have standing := built.standing directArranged
  have evolves := made.identity.evolves.trans (made.image.evolves.trans made.direct.evolves)
  have below : 100 * page2m + 40000 * page2m ≤ window := by decide
  have ends : ∀ e ∈ [(⟨0x100000, 0x8000000, .usable⟩ : MemmapEntry), ⟨0x8100000, 0x4000, .kernelAndModules⟩],
      alignUp (e.base + e.length) pageSize ≤ 0x8104000 := by decide
  have aligned : m.paging.hhdm % page2m = 0 := by rw [standing.offset]; decide
  have pages := fun q (hq : q ∈ pagesOf (100 * page2m) (40000 * page2m)) => pagesOf_isPage below hq
  refine ⟨m, ?_⟩
  rw [ensureHhdmCoverPhysRange_eq below]
  have builds : Builds m _ (m.coverPages m.paging.pml4Phys (pagesOf (100 * page2m) (40000 * page2m))) id _ :=
    coverPages_builds standing.ready
  rcases builds with ⟨m', ok, _⟩ | ⟨⟨used, failed⟩, _⟩
  · have covered := coverPages_covered standing.ready.hierarchy aligned pages ok
    have most := tables_le made.fresh (evolves.trans covered.evolves)
    have room := covered.evolves.sound.bounds.2.1
    have stop : m'.early.stop = 0x8100000 := by
      rw [(evolves.trans covered.evolves).stop, made.fresh.early]
      rfl
    have cursor : directMachine.early.cursor = 0x100000 := rfl
    have least := covered.tables_ge aligned (show (100 + 40000) * page2m ≤ window by decide) fun i lt => ?_
    · rw [cursor] at most
      rw [stop] at room
      unfold pageSize at most
      omega
    · have bound : (100 + i) * page2m < window := by
        unfold page2m window
        omega
      constructor
      · exact chunk_mem_pagesOf below lt
      · rw [standing.offset, add64_of_lt (by unfold window at bound; omega)]
        refine (made.covers _ bound).2 ?_
        rintro (⟨e, he, _, _, high⟩ | low)
        · have ends : alignUp (e.base + e.length) pageSize ≤ 0x8104000 := ends e he
          unfold page2m at high
          omega
        · unfold page2m at low
          omega
  · exact ⟨used, run, built, failed⟩

end Voyager.Machine
