import Mathlib.Order.CompletePartialOrder
import Mathlib.Order.Interval.Set.Disjoint
import Voyager.Paging.Lays

/-!
# The HHDM is the direct map

`map_identity_minimal`, `map_kernel_higher_half` and `map_hhdm` on a fresh root.
-/

namespace Voyager.Machine

open Lib Lib.RadixTable Paging

variable {m m' m'' : Machine} {root va pa flags size limit n x : Nat} {w nx : Bool} {boot : Boot}
  {entries : List MemmapEntry} {e : MemmapEntry} {k : KernelAddress}

/-! ### The walker -/

theorem walkVaToPa_eq : m.walkVaToPa va root =
    (leafOf m.mem root va).map fun r => (leafAddress r.1 r.2 va, r.2 + 1) := by
  unfold walkVaToPa leafOf
  simp only [Indices.path, walk, List.length_cons, List.length_nil, pteP, ptePS, ne_eq, Bits.and_bit_eq_zero,
    Bool.not_eq_false]
  generalize vaddrIndices va = idx
  cases root4 : (entry m.mem root idx.pml4).testBit 0 with
  | false => simp [slot_absent root4]
  | true =>
    simp only [slot_root root4, Bool.true_eq_false, if_false]
    generalize entry m.mem root idx.pml4 &&& addrMask = pdpt
    cases present : (entry m.mem pdpt idx.pdpt).testBit 0 with
    | false => simp [slot_absent present]
    | true =>
      cases huge : (entry m.mem pdpt idx.pdpt).testBit 7 with
      | true => simp [slot_leaf (l := 2) present (.inr ⟨by decide, huge⟩), leafAddress]
      | false =>
        simp only [slot_of_table (l := 2) present (by decide) huge, Bool.true_eq_false, Bool.false_eq_true,
          if_false, zero_add]
        generalize entry m.mem pdpt idx.pdpt &&& addrMask = pd
        cases present : (entry m.mem pd idx.pd).testBit 0 with
        | false => simp [slot_absent present]
        | true =>
          cases huge : (entry m.mem pd idx.pd).testBit 7 with
          | true => simp [slot_leaf (l := 1) present (.inr ⟨by decide, huge⟩), leafAddress]
          | false =>
            simp only [slot_of_table (l := 1) present (by decide) huge, Bool.true_eq_false, Bool.false_eq_true,
              if_false]
            generalize entry m.mem pd idx.pd &&& addrMask = pt
            cases present : (entry m.mem pt idx.pt).testBit 0 with
            | false => simp [slot_absent present]
            | true => simp [slot_leaf (l := 0) present (.inl rfl), leafAddress]

/-! ### A fresh root -/

structure FreshRoot (m m' : Machine) (root : Nat) : Prop where
  ready : Ready m' root
  empty : ∀ va, leafOf m'.mem root va = none
  tables : ∀ {l p n}, Reached m'.mem root l p n → n = root
  place : root = m.early.cursor
  early : m'.early = { m.early with cursor := m.early.cursor + pageSize }
  hhdm : m'.paging.hhdm = m.paging.hhdm
  cr3 : m'.paging.cr3 = m.paging.cr3
  frames : m'.frames = m.frames

theorem FreshRoot.select (h : FreshRoot m m' root) :
    FreshRoot m { m' with paging := { m'.paging with pml4Phys := root } } root where
  ready := ⟨⟨h.ready.hierarchy.tree, h.ready.hierarchy.sound, h.ready.hierarchy.apart⟩, h.ready.plain, h.ready.hhdm⟩
  empty := h.empty
  tables := h.tables
  place := h.place
  early := h.early
  hhdm := h.hhdm
  cr3 := h.cr3
  frames := h.frames

theorem allocTable_root (sound : m.early.Sound) (hhdm : m.paging.hhdm ≠ 0) :
    Builds m 1 m.allocTable Prod.snd fun r => FreshRoot m r.2 r.1 := by
  refine (allocTable_builds sound hhdm).imp (Nat.le_refl 1) fun r ok _ => ?_
  obtain ⟨root, m'⟩ := r
  have fresh := allocTable_spec sound ok
  have zero : ∀ i, entry m'.mem root i = 0 := fun i =>
    entry_zero fun x low high => by rw [fresh.bytes, if_pos ⟨low, high⟩]
  have absent : ∀ l i, slot l (entry m'.mem root i) = .absent := fun l i => by
    rw [zero]
    exact slot_absent (by decide)
  have only : ∀ {l p n}, Reached m'.mem root l p n → n = root ∧ p = [] := by
    intro l p n reach
    induction reach with
    | root => exact ⟨rfl, rfl⟩
    | step i _ points ih =>
      rw [ih.1, absent] at points
      cases points
  have aligned : root % pageSize = 0 := by
    rw [fresh.place]
    exact sound.aligned.2
  refine ⟨⟨⟨⟨aligned, fun l p n k q h h' => by rw [(only h).2, (only h').2]⟩, fresh.sound, fun reach => ?_⟩, ?_,
    by rw [fresh.paging]; exact hhdm⟩, fun va => ?_, fun reach => (only reach).1, fresh.place, fresh.early,
      by rw [fresh.paging],
    by rw [fresh.paging], fresh.frames⟩
  · rw [(only reach).1, fresh.early, fresh.place]
    exact .inl (Nat.lt_add_of_pos_right (by decide))
  · intro l p n i c reach points
    rw [(only reach).1, absent] at points
    cases points
  · simp only [leafOf, Indices.path, walk, absent]

/-! ### Identity map and kernel image -/

theorem mapIdentityMinimal_builds (ready : Ready m root) (level : Level m root 0) :
    Builds m (512 * 3) (m.mapIdentityMinimal root) id fun m' => Lays m m' root 0 page2m 0 ∧
      Filled m' root 0 page2m 0 true true := by
  unfold mapIdentityMinimal
  rw [show page2m = 512 * pageSize from rfl, mapRange4k_eq (by decide)]
  refine (pages4k_builds ready (fun va' _ _ => level va') (fun _ => rfl) fun _ => .inl (by decide)).imp
    (Nat.le_refl _) ?_
  rintro m' - ⟨lays, filled⟩
  exact ⟨lays, filled rfl (by decide)⟩

def sectionStart (start : Nat) : Nat := alignDown start pageSize

def sectionSize (start stop : Nat) : Nat := alignUp stop pageSize - alignDown start pageSize

/-- A byte of a page that the section meets. The end is rounded without a wrap. -/
def InSection (start stop va : Nat) : Prop := alignDown start pageSize ≤ va ∧ va < roundUp stop pageSize

theorem inSection_iff {start stop va : Nat} (fits : stop + pageSize ≤ 2 ^ 64) :
    InSection start stop va ↔ sectionStart start ≤ va ∧ va < sectionStart start + sectionSize start stop := by
  unfold InSection sectionStart sectionSize
  rw [alignUp_eq_roundUp fits]
  omega

theorem sectionSize_last {stop : Nat} (start : Nat) (lt : stop < 2 ^ 64) (last : 2 ^ 64 < stop + pageSize) :
    sectionSize start stop = 0 := by
  rw [sectionSize, alignUp_last lt last, Nat.zero_sub]

theorem InSection.lt {start stop va bound : Nat} (h : InSection start stop va) (le : stop ≤ bound)
    (page : bound % pageSize = 0) : va < bound := by
  obtain ⟨_, below⟩ := h
  unfold roundUp pageSize at *
  omega

theorem InSection.ge {start stop va : Nat} (h : InSection start stop va) (page : start % pageSize = 0) : start ≤ va := by
  rw [← Nat.div_mul_cancel (Nat.dvd_of_mod_eq_zero page)]
  exact h.1

/-- A section as `map_kernel_higher_half` enters it. -/
def SectionLaid (m m' : Machine) (root : Nat) (k : KernelAddress) (start stop : Nat) (w nx : Bool) : Prop :=
  Lays m m' root (sectionStart start) (sectionSize start stop) 0 ∧
    (virtToPhysKernel (sectionStart start) k.physicalBase k.virtualBase % pageSize = 0 →
      virtToPhysKernel (sectionStart start) k.physicalBase k.virtualBase + sectionSize start stop ≤ 2 ^ 52 →
      Filled m' root (sectionStart start) (sectionSize start stop)
        (virtToPhysKernel (sectionStart start) k.physicalBase k.virtualBase) w nx)

theorem mapSection_builds {start stop : Nat} (ready : Ready m root) (level : Level m root 0)
    (range : 0 < sectionSize start stop → CanonicalRange (sectionStart start) (sectionSize start stop)) :
    Builds m (sectionSize start stop / pageSize * 3) (m.mapSection root k start stop flags) id fun m' =>
      SectionLaid m m' root k start stop (flags.testBit 1) (flags.testBit 63) := by
  unfold mapSection
  dsimp only
  split
  · rename_i some
    have whole : sectionSize start stop = sectionSize start stop / pageSize * pageSize := by
      unfold sectionSize alignUp alignDown pageSize
      omega
    have positive : 0 < sectionSize start stop := by
      unfold sectionSize
      omega
    have aligned : sectionStart start % pageSize = 0 := Nat.mul_mod_left _ _
    have fits : sectionStart start + sectionSize start stop / pageSize * pageSize < 2 ^ 64 := by
      apply lt_of_eq_of_lt (congrArg (sectionStart start + ·) whole.symm)
      have sum : sectionStart start + sectionSize start stop = alignUp stop pageSize :=
        Nat.add_sub_cancel' (Nat.le_of_lt some)
      exact lt_of_eq_of_lt sum (alignUp_lt stop pageSize)
    have range := range positive
    unfold SectionLaid
    change Builds m _ (m.mapRange4k root (sectionStart start) _ (sectionSize start stop) flags) id _
    generalize sectionSize start stop = size at *
    generalize size / pageSize = n at *
    subst whole
    rw [mapRange4k_eq fits]
    exact pages4k_builds ready (fun va' _ _ => level va') (fun _ => aligned) fun _ => range
  · rename_i none
    have empty : sectionSize start stop = 0 := by
      unfold sectionSize
      omega
    refine .pure rfl ⟨.refl ready.hierarchy, fun _ _ x lt => ?_⟩
    omega

theorem Lays.level_zero (h : Lays m m' root va size 0) (level : Level m root 0) : Level m' root 0 :=
  h.level 0 (Nat.le_refl 0) level

def window : Nat := 2 ^ 46

def SectionApart (hhdm start stop : Nat) : Prop :=
  0 < sectionSize start stop → CanonicalRange (sectionStart start) (sectionSize start stop) ∧
    (sectionStart start + sectionSize start stop ≤ hhdm ∨ hhdm + window ≤ sectionStart start)

structure ImageApart (s : Symbols) (hhdm : Nat) : Prop where
  text : SectionApart hhdm s.textStart s.textEnd
  rodata : SectionApart hhdm s.rodataStart s.rodataEnd
  data : SectionApart hhdm s.dataStart s.bssEnd

def imagePages (s : Symbols) : Nat :=
  sectionSize s.textStart s.textEnd / pageSize + sectionSize s.rodataStart s.rodataEnd / pageSize +
    sectionSize s.dataStart s.bssEnd / pageSize

def ImageLaid (m m' : Machine) (root : Nat) (k : KernelAddress) (s : Symbols) : Prop :=
  ∃ m₁ m₂, SectionLaid m m₁ root k s.textStart s.textEnd false false ∧
    SectionLaid m₁ m₂ root k s.rodataStart s.rodataEnd false true ∧
      SectionLaid m₂ m' root k s.dataStart s.bssEnd true true

theorem mapKernelHigherHalf_builds (ready : Ready m root) (level : Level m root 0)
    (address : boot.kernelAddress = some k)
    {hhdm : Nat} (image : ImageApart boot.symbols hhdm) :
    Builds m (imagePages boot.symbols * 3) (m.mapKernelHigherHalf boot root) id fun m' =>
      ImageLaid m m' root k boot.symbols := by
  unfold mapKernelHigherHalf
  rw [address]
  dsimp only
  rw [imagePages, Nat.add_mul, Nat.add_mul, Nat.add_assoc]
  refine (mapSection_builds ready level fun some => (image.text some).1).bind fun m₁ text => ?_
  have level₁ := text.1.level_zero level
  refine (mapSection_builds (ready.evolves text.1.evolves) level₁ fun some =>
    (image.rodata some).1).bind fun m₂ rodata => ?_
  have evolves := text.1.evolves.trans rodata.1.evolves
  refine (mapSection_builds (ready.evolves evolves) (rodata.1.level_zero level₁)
    fun some => (image.data some).1).imp (Nat.le_refl _) fun m' _ data => ?_
  exact ⟨m₁, m₂, text, rodata, data⟩

/-! ### The HHDM -/

structure HhdmOffset (hhdm : Nat) : Prop where
  higher : 2 ^ 64 - 2 ^ 47 ≤ hhdm
  aligned : hhdm % page2m = 0
  fits : hhdm + window ≤ 2 ^ 64

def span (e : MemmapEntry) : Nat :=
  if included e.type = true then alignUp e.stop pageSize - alignDown e.base pageSize else 0

def InSpan (e : MemmapEntry) (p : Nat) :
    Prop := alignDown e.base pageSize ≤ p ∧ p < alignDown e.base pageSize + span e

theorem span_le {bound : Nat} (below : included e.type = true → e.base + e.length ≤ bound)
    (whole : bound % pageSize = 0) (fits : bound + pageSize ≤ 2 ^ 64) :
    span e = 0 ∨ alignDown e.base pageSize + span e ≤ bound := by
  unfold span
  split
  · rename_i inc
    have below := below inc
    have page : 0 < pageSize := by decide
    have stop : e.stop = e.base + e.length := add64_of_lt (by omega)
    have top : alignUp e.stop pageSize ≤ bound := by
      rw [stop]
      exact alignUp_le below whole fits
    omega
  · exact .inl rfl

def Covers (m : Machine) (root hhdm : Nat) (done : Nat → Prop) : Prop :=
  ∀ p < window, (done p → Maps m root (hhdm + p) p true true) ∧ (¬ done p → leafOf m.mem root (hhdm + p) = none)

variable {hhdm : Nat} {done : Nat → Prop}

theorem HhdmOffset.range (h : HhdmOffset hhdm) (le : x + n ≤ window) : CanonicalRange (hhdm + x) n := by
  obtain ⟨higher, _, fits⟩ := h
  exact .inr (by omega)

theorem HhdmOffset.canonical (h : HhdmOffset hhdm) (lt : x < window) : Canonical (hhdm + x) := by
  obtain ⟨higher, _, fits⟩ := h
  exact .inr (by omega)

theorem Lays.widen {start : Nat} (h : Lays m m' root start n limit)
    (inside : n = 0 ∨ va ≤ start ∧ start + n ≤ va + size) :
    Lays m m' root va size limit :=
  ⟨h.evolves, fun va' canonical off => h.outside va' canonical (by omega), h.level⟩

theorem Lays.again (h : Lays m m' root va size limit) (h' : Lays m' m'' root va size limit) :
    Lays m m'' root va size limit :=
  ⟨h.evolves.trans h'.evolves, fun va' canonical off => (h'.outside va' canonical off).trans
    (h.outside va' canonical off),
    fun top le level => h'.level top le (h.level top le level)⟩

theorem Covers.extend (h : Covers m root hhdm done) (offset : HhdmOffset hhdm)
    (lays : Lays m m' root (hhdm + x) n limit)
    (filled : Filled m' root (hhdm + x) n x true true) :
    Covers m' root hhdm fun p => done p ∨ x ≤ p ∧ p < x + n := by
  intro p lt
  by_cases inside : x ≤ p ∧ p < x + n
  · have maps := filled (p - x) (by omega)
    rw [show hhdm + x + (p - x) = hhdm + p by omega, show x + (p - x) = p by omega] at maps
    exact ⟨fun _ => maps, fun out => absurd (.inr inside) out⟩
  · have same := lays.outside (hhdm + p) (offset.canonical lt) (by omega)
    obtain ⟨mapped, unmapped⟩ := h p lt
    refine ⟨fun either => (mapped (either.resolve_right inside)).congr same, fun out => ?_⟩
    rw [same]
    exact unmapped fun d => out (.inl d)

theorem span_aligned (e : MemmapEntry) : span e % pageSize = 0 := by
  unfold span
  split
  · unfold alignUp alignDown pageSize
    omega
  · rfl

theorem mapEntry_builds (ready : Ready m root) (offset : HhdmOffset hhdm) (here : m.paging.hhdm = hhdm)
    (covers : Covers m root hhdm done) (small : span e = 0 ∨ alignDown e.base pageSize + span e ≤ window)
    (fresh : ∀ p, InSpan e p → ¬ done p) :
    Builds m (3 * (1022 + span e / page2m)) (m.mapEntry root e) id fun m' =>
      Lays m m' root (hhdm + alignDown e.base pageSize) (span e) 1 ∧
        Filled m' root (hhdm + alignDown e.base pageSize) (span e) (alignDown e.base pageSize) true true := by
  have nothing : span e = 0 → Builds m (3 * (1022 + span e / page2m)) (.ok m) id fun m' =>
      Lays m m' root (hhdm + alignDown e.base pageSize) (span e) 1 ∧
        Filled m' root (hhdm + alignDown e.base pageSize) (span e) (alignDown e.base pageSize) true true := fun empty =>
    .pure rfl ⟨.refl ready.hierarchy, fun x lt => by omega⟩
  unfold mapEntry
  split
  · rename_i out
    exact nothing (if_neg (by rw [out]; decide))
  rename_i inc
  have size : span e = alignUp e.stop pageSize - alignDown e.base pageSize := if_pos (by simpa using inc)
  dsimp only
  split
  · exact nothing (by omega)
  have small := small.resolve_left (by omega)
  have aligned : alignDown e.base pageSize % pageSize = 0 := Nat.mul_mod_left _ _
  have multiple := offset.aligned
  have fits := offset.fits
  have window' : window = 2 ^ 46 := rfl
  have sum : add64 m.paging.hhdm (alignDown e.base pageSize) = hhdm + alignDown e.base pageSize := by
    rw [here]
    exact add64_of_lt (by omega)
  rw [sum, ← size]
  refine mapRangeHugeFirst_builds ready ?_ ?_ aligned (span_aligned e) (by omega) (offset.range small) (by omega)
  · intro va' low high l k found
    obtain ⟨p, rfl⟩ : ∃ p, va' = hhdm + p := ⟨va' - hhdm, by omega⟩
    rw [(covers p (by omega)).2 (fresh p ⟨by omega, by omega⟩)] at found
    cases found
  · rw [Nat.add_mod, multiple, Nat.zero_add, Nat.mod_mod]

def entriesCost (entries : List MemmapEntry) : Nat := (entries.map fun e => 3 * (1022 + span e / page2m)).sum

theorem mapEntries_builds (ready : Ready m root) (offset : HhdmOffset hhdm) (here : m.paging.hhdm = hhdm)
    (covers : Covers m root hhdm done) (small : ∀ e ∈ entries, span e = 0 ∨ alignDown e.base pageSize + span e ≤ window)
    (fresh : ∀ e ∈ entries, ∀ p, InSpan e p → ¬ done p)
    (apart : entries.Pairwise fun e f => ∀ p, InSpan e p → ¬ InSpan f p) :
    Builds m (entriesCost entries) (m.mapEntries root entries) id fun m' =>
      Lays m m' root hhdm window 1 ∧ Covers m' root hhdm fun p => done p ∨ ∃ e ∈ entries, InSpan e p := by
  induction entries generalizing m done with
  | nil =>
    refine .pure rfl ⟨.refl ready.hierarchy, ?_⟩
    simpa using covers
  | cons e rest ih =>
    have cost : entriesCost (e :: rest) = 3 * (1022 + span e / page2m) + entriesCost rest := rfl
    obtain ⟨first, apart⟩ := List.pairwise_cons.mp apart
    rw [cost]
    apply (mapEntry_builds ready offset here covers (small e List.mem_cons_self) (fresh e List.mem_cons_self)).bind
    rintro m₁ ⟨lays, filled⟩
    have fits := small e List.mem_cons_self
    refine (ih (ready.evolves lays.evolves) ((congrArg (·.hhdm) lays.evolves.paging).trans here)
      (covers.extend offset lays filled)
      (fun f hf => small f (List.mem_cons_of_mem _ hf)) (fun f hf p inside either => ?_) apart).imp (Nat.le_refl _) ?_
    · rcases either with old | new
      · exact fresh f (List.mem_cons_of_mem _ hf) p inside old
      · exact first f hf p new inside
    · rintro m' - ⟨lays', covers'⟩
      refine ⟨(lays.widen (by omega)).again lays', fun p lt => ?_⟩
      obtain ⟨mapped, unmapped⟩ := covers' p lt
      simp only [List.mem_cons, exists_eq_or_imp]
      exact ⟨fun h => mapped (or_assoc.mpr h), fun h => unmapped fun h' => h (or_assoc.mp h')⟩

theorem mapHhdm_builds (ready : Ready m root) (offset : HhdmOffset hhdm) (here : m.paging.hhdm = hhdm)
    (level : Level m root 1)
    (memmap : boot.memmap = some entries) (nonempty : entries ≠ []) (covers : Covers m root hhdm fun _ => False)
    (small : ∀ e ∈ entries, span e = 0 ∨ alignDown e.base pageSize + span e ≤ window)
    (apart : entries.Pairwise fun e f => ∀ p, InSpan e p → ¬ InSpan f p) :
    Builds m (entriesCost entries + 3) (m.mapHhdm boot root) id fun m' =>
      Lays m m' root hhdm window 1 ∧ Covers m' root hhdm fun p => (∃ e ∈ entries, InSpan e p) ∨ p < page2m := by
  have run : m.mapHhdm boot root = (do
      let m ← m.mapEntries root entries
      m.map2m root m.paging.hhdm 0 pteNX) := by
    unfold mapHhdm
    rw [if_neg ready.hhdm, memmap]
    cases entries with
    | nil => exact absurd rfl nonempty
    | cons e rest => rfl
  rw [run]
  refine (mapEntries_builds ready offset here covers small (fun _ _ _ _ out => out) apart).bind ?_
  rintro m₁ ⟨lays, covers₁⟩
  have here₁ : m₁.paging.hhdm = hhdm := (congrArg (·.hhdm) lays.evolves.paging).trans here
  have level₁ := lays.level 1 (Nat.le_refl 1) level
  rw [here₁]
  refine (map2m_enters m₁ hhdm 0 (ready.evolves lays.evolves) (fun l k found => level₁ _ l k found) offset.aligned
    (by simpa using offset.range (x := 0) (n := page2m) (by decide))).imp (Nat.le_refl 3) ?_
  rintro m' - ⟨lays', filled⟩
  have low := filled rfl (by decide)
  refine ⟨lays.again (lays'.widen (.inr ⟨Nat.le_refl _, Nat.add_le_add_left (by decide) _⟩)), fun p lt => ?_⟩
  have extended := covers₁.extend (x := 0) offset lays' low p lt
  simpa using extended

/-! ### The three parts together -/

/-- What the HHDM is asked of the bootloader: the offset, the memory map with its included
entries apart, and the kernel image outside the window. -/
structure HhdmInput (boot : Boot) (hhdm : Nat) (entries : List MemmapEntry) (k : KernelAddress) : Prop where
  offset : HhdmOffset hhdm
  memmap : boot.memmap = some entries
  nonempty : entries ≠ []
  below : ∀ e ∈ entries, included e.type = true → e.base + e.length ≤ window
  disjoint : entries.Pairwise fun e f => included e.type = true → included f.type = true →
    Disjoint (Set.Ico (alignDown e.base pageSize) (alignUp (e.base + e.length) pageSize))
      (Set.Ico (alignDown f.base pageSize) (alignUp (f.base + f.length) pageSize))
  address : boot.kernelAddress = some k
  image : ImageApart boot.symbols hhdm

theorem HhdmInput.relocate {boot : Boot} {entries : List MemmapEntry} {k : KernelAddress}
    (h : HhdmInput boot hhdm entries k) (k' : KernelAddress) (s : Symbols) (image : ImageApart s hhdm) :
    HhdmInput { boot with kernelAddress := some k', symbols := s } hhdm entries k' :=
  ⟨h.offset, h.memmap, h.nonempty, h.below, h.disjoint, rfl, image⟩

def Included (entries : List MemmapEntry) (p : Nat) : Prop :=
  ∃ e ∈ entries, included e.type = true ∧ alignDown e.base pageSize ≤ p ∧ p < alignUp (e.base + e.length) pageSize

def tablesNeeded (boot : Boot) (entries : List MemmapEntry) : Nat :=
  1 + (512 * 3 + (imagePages boot.symbols * 3 + (entriesCost entries + 3)))

theorem inSpan_iff (small : included e.type = true → e.base + e.length ≤ window) :
    InSpan e x ↔ included e.type = true ∧ alignDown e.base pageSize ≤ x ∧ x < alignUp (e.base + e.length) pageSize := by
  unfold InSpan span
  by_cases inc : included e.type = true
  · have small := small inc
    have stop : e.stop = e.base + e.length := add64_of_lt (by unfold window at small; omega)
    rw [if_pos inc, stop]
    simp only [inc, true_and]
    constructor
    · omega
    · omega
  · rw [if_neg inc]
    simp only [inc]
    constructor
    · omega
    · exact fun h => by simp at h

theorem included_iff (below : ∀ e ∈ entries, included e.type = true → e.base + e.length ≤ window) :
    (∃ e ∈ entries, InSpan e x) ↔ Included entries x := by
  constructor
  · rintro ⟨e, he, inside⟩
    exact ⟨e, he, (inSpan_iff (below e he)).mp inside⟩
  · rintro ⟨e, he, inside⟩
    exact ⟨e, he, (inSpan_iff (below e he)).mpr inside⟩

/-- The stages of the construction: a fresh root, the identity map, the image, the HHDM. -/
structure Construction (boot : Boot) (hhdm : Nat) (entries : List MemmapEntry) (k : KernelAddress)
    (m m₀ m₁ m₂ m' : Machine)
    (root : Nat) : Prop where
  fresh : FreshRoot m m₀ root
  identity : Lays m₀ m₁ root 0 page2m 0
  filled : Filled m₁ root 0 page2m 0 true true
  image : ImageLaid m₁ m₂ root k boot.symbols
  direct : Lays m₂ m' root hhdm window 1
  covers : Covers m' root hhdm fun p => Included entries p ∨ p < page2m

theorem SectionLaid.outside {start stop : Nat} {w nx : Bool} (h : SectionLaid m m' root k start stop w nx)
    (apart : SectionApart hhdm start stop) (offset : HhdmOffset hhdm) (lt : x < window) :
    leafOf m'.mem root (hhdm + x) = leafOf m.mem root (hhdm + x) := by
  apply h.1.outside _ (offset.canonical lt)
  by_cases some : 0 < sectionSize start stop
  · have := (apart some).2
    omega
  · omega

theorem ImageLaid.outside (h : ImageLaid m m' root k boot.symbols) (image : ImageApart boot.symbols hhdm)
    (offset : HhdmOffset hhdm)
    (lt : x < window) : leafOf m'.mem root (hhdm + x) = leafOf m.mem root (hhdm + x) := by
  obtain ⟨m₁, m₂, text, rodata, data⟩ := h
  rw [data.outside image.data offset lt, rodata.outside image.rodata offset lt, text.outside image.text offset lt]

theorem ImageLaid.evolves (h : ImageLaid m m' root k boot.symbols) : Evolves m m' root := by
  obtain ⟨m₁, m₂, text, rodata, data⟩ := h
  exact text.1.evolves.trans (rodata.1.evolves.trans data.1.evolves)

theorem ImageLaid.level (h : ImageLaid m m' root k boot.symbols) (level : Level m root 0) : Level m' root 0 := by
  obtain ⟨m₁, m₂, text, rodata, data⟩ := h
  exact data.1.level_zero (rodata.1.level_zero (text.1.level_zero level))

theorem buildTables_builds (input : HhdmInput boot hhdm entries k) (sound : m.early.Sound)
    (here : m.paging.hhdm = hhdm) :
    Builds m (tablesNeeded boot entries) (m.buildTables boot) id fun m' =>
      ∃ m₀ m₁ m₂, Construction boot hhdm entries k m m₀ m₁ m₂ m' m'.paging.pml4Phys ∧
        m₀.paging.pml4Phys = m'.paging.pml4Phys := by
  have higher := input.offset.higher
  have small : ∀ e ∈ entries, span e = 0 ∨ alignDown e.base pageSize + span e ≤ window := fun e he =>
    span_le (input.below e he) (by decide) (by decide)
  have apart : entries.Pairwise fun e f => ∀ p, InSpan e p → ¬ InSpan f p := by
    refine input.disjoint.imp_of_mem fun {e f} he hf disjoint p here there => ?_
    obtain ⟨inc, inside⟩ := (inSpan_iff (input.below e he)).mp here
    obtain ⟨inc', inside'⟩ := (inSpan_iff (input.below f hf)).mp there
    exact Set.disjoint_left.mp (disjoint inc inc') inside inside'
  unfold buildTables tablesNeeded
  apply (allocTable_root sound (by omega)).bind
  rintro ⟨root, m₀⟩ fresh
  replace fresh := fresh.select
  dsimp only
  have known : ({ m₀ with paging := { m₀.paging with pml4Phys := root } } : Machine).paging.pml4Phys = root := rfl
  change Builds { m₀ with paging := { m₀.paging with pml4Phys := root } } _ _ _ _
  generalize ({ m₀ with paging := { m₀.paging with pml4Phys := root } } : Machine) = start at fresh known ⊢
  have ready := fresh.ready
  have level : Level start root 0 := fun va e k found => by
    rw [fresh.empty] at found
    cases found
  apply (mapIdentityMinimal_builds ready level).bind
  rintro m₁ ⟨identity, filled⟩
  have ready₁ := ready.evolves identity.evolves
  have level₁ := identity.level_zero level
  refine (mapKernelHigherHalf_builds ready₁ level₁ input.address input.image).bind fun m₂ image => ?_
  have ready₂ := ready₁.evolves image.evolves
  have evolves₂ := identity.evolves.trans image.evolves
  have here₂ : m₂.paging.hhdm = hhdm := (congrArg (·.hhdm) evolves₂.paging).trans (fresh.hhdm.trans here)
  have covers : Covers m₂ root hhdm fun _ => False := by
    intro p lt
    refine ⟨fun no => no.elim, fun _ => ?_⟩
    rw [image.outside input.image input.offset lt,
      identity.outside _ (input.offset.canonical lt) (by unfold page2m; omega)]
    exact fresh.empty _
  refine (mapHhdm_builds ready₂ input.offset here₂
    (fun va e k found => Nat.le_trans (image.level level₁ va e k found) (by decide))
    input.memmap input.nonempty covers small apart).imp (Nat.le_refl _) ?_
  rintro m' - ⟨direct, covers'⟩
  have same : m'.paging.pml4Phys = root := by rw [direct.evolves.paging, evolves₂.paging]; exact known
  rw [same]
  refine ⟨start, m₁, m₂, ⟨fresh, identity, filled, image, direct, fun p lt => ?_⟩, known⟩
  have covered := covers' p lt
  simp only [included_iff input.below] at covered
  exact covered

theorem Maps.walk (h : Maps m root va pa w nx) : ∃ level, m.walkVaToPa va root = some (pa, level) := by
  obtain ⟨e, k, found, _, rfl, _⟩ := h
  rw [walkVaToPa_eq, found]
  exact ⟨_, rfl⟩

theorem hhdm_direct (input : HhdmInput boot hhdm entries k) (sound : m.early.Sound) (here : m.paging.hhdm = hhdm) :
    (m.early.cursor + tablesNeeded boot entries * pageSize ≤ m.early.stop → ∃ m', m.buildTables boot = .ok m') ∧
      ∀ m', m.buildTables boot = .ok m' → ∀ p < window,
        (Included entries p ∨ p < page2m → ∃ level, m'.walkVaToPa (hhdm + p) m'.paging.pml4Phys = some (p, level)) ∧
          (¬ (Included entries p ∨ p < page2m) → m'.walkVaToPa (hhdm + p) m'.paging.pml4Phys = none) := by
  have builds := buildTables_builds input sound here
  refine ⟨fun enough => ?_, fun m' run p lt => ?_⟩
  · obtain ⟨m', run, _⟩ := builds.returns enough
    exact ⟨m', run⟩
  · obtain ⟨m₀, m₁, m₂, built, _⟩ := builds.post run
    obtain ⟨mapped, unmapped⟩ := built.covers p lt
    refine ⟨fun inside => (mapped inside).walk, fun out => ?_⟩
    rw [walkVaToPa_eq, unmapped out]
    rfl

def directBoot : Boot where
  memmap := some [⟨0x100000, 0x8000000, .usable⟩, ⟨0x8100000, 0x4000, .kernelAndModules⟩]
  hhdm := some 0xFFFF800000000000
  kernelAddress := some ⟨0x8100000, 0xFFFFFFFF80000000⟩
  modules := none
  symbols := ⟨0xFFFFFFFF80000000, 0xFFFFFFFF80004000, 0xFFFFFFFF80000000, 0xFFFFFFFF80001000, 0xFFFFFFFF80001000,
    0xFFFFFFFF80002000, 0xFFFFFFFF80002000, 0xFFFFFFFF80004000, 0xFFFFFFFF80000100⟩

def directMachine : Machine :=
  ⟨fun _ => 0, ⟨0x100000, 0x100000, 0x8100000, false⟩, ⟨0, 0, 0, 0, 0, 0⟩, ⟨0xFFFF800000000000, 0, 0⟩⟩

theorem directInput : HhdmInput directBoot 0xFFFF800000000000
    [⟨0x100000, 0x8000000, .usable⟩, ⟨0x8100000, 0x4000, .kernelAndModules⟩] ⟨0x8100000, 0xFFFFFFFF80000000⟩ := by
  have section' : ∀ start stop, 0xFFFFFFFF80000000 ≤ start → stop ≤ 0xFFFFFFFF80004000 →
      SectionApart 0xFFFF800000000000 start stop := by
    intro start stop low high some
    unfold CanonicalRange sectionSize sectionStart alignUp alignDown add64 window pageSize at *
    omega
  refine ⟨⟨by decide, by decide, by decide⟩, rfl, by decide, by unfold window; decide, ?_, rfl, ⟨?_, ?_, ?_⟩⟩
  · simp only [List.pairwise_cons, List.mem_singleton, forall_eq]
    refine ⟨fun _ _ => ?_, by simp, .nil⟩
    rw [Set.Ico_disjoint_Ico]
    decide
  · exact section' _ _ (by decide) (by decide)
  · exact section' _ _ (by decide) (by decide)
  · exact section' _ _ (by decide) (by decide)

theorem directSound : directMachine.early.Sound := ⟨by decide, ⟨by decide, by decide⟩, by decide, by decide, by decide⟩

theorem hhdm_direct_sample : ∃ m', directMachine.buildTables directBoot = .ok m' ∧
    ∃ level, m'.walkVaToPa 0xFFFF800000123456 m'.paging.pml4Phys = some (0x123456, level) := by
  obtain ⟨returns, direct⟩ := hhdm_direct directInput directSound rfl
  obtain ⟨m', run⟩ := returns (by decide)
  exact ⟨m', run, (direct m' run 0x123456 (by decide)).1 (.inr (by decide))⟩

end Voyager.Machine
