import Voyager.Paging.Resolve
import Voyager.Paging.Spares

/-!
# Duplicating an address space

Every new frame is first mapped at its address in the direct map, in the very hierarchy that
is being copied. Where the direct map has 2 MiB pages, `PagingMapMemory` takes the first frame
of such a page for a page table and stores the entry there.
-/

namespace Voyager.Machine

open Lib Lib.ByteSpace Lib.RadixTable Paging

def translateToHighHalfMemoryAddress (physicalAddress : Nat) : Nat := add64 physicalAddress higherHalfMemoryOffset

/-- The loops of both functions: present entries of `source` are duplicated into `target`. -/
def duplicateEntries (duplicate : Machine → Nat → Kernel (Nat × Machine)) (source target : Nat) (m : Machine) :
    List (Fin 512) → Kernel Machine
  | [] => .ok m
  | i :: is =>
    if entry m.mem source i &&& pteP = 0 then duplicateEntries duplicate source target m is
    else do
      let (copy, m) ← duplicate m (entry m.mem source i)
      duplicateEntries duplicate source target (m.setEntry target i copy) is

/-- `DuplicateRecursive` but for what it puts into the new page. -/
def duplicatePage (bootPhysPage : Option PhysPageSupplier) (self : Nat)
    (contents : Nat → Nat → Machine → Kernel Machine) (m : Machine) (entry : Nat) : Kernel (Nat × Machine) := do
  let virt := entry &&& Bits.complement 64 pageFlagMask
  let (newPage, m) ← m.pagingGetFreeFrame bootPhysPage
  let m ← m.pagingMapMemory bootPhysPage self (translateToHighHalfMemoryAddress newPage) newPage (pteP ||| pteU ||| pteW)
  let m ← contents virt newPage { m with mem := flat.fill m.mem newPage 0 pageSize }
  return (newPage ||| entry &&& pageFlagMask, m)

def duplicateRecursive (bootPhysPage : Option PhysPageSupplier) (self : Nat) : Nat → Machine → Nat → Kernel (Nat × Machine)
  | 0 => duplicatePage bootPhysPage self fun virt newPage m => .ok { m with mem := flat.copy m.mem newPage virt pageSize }
  | level + 1 => duplicatePage bootPhysPage self fun virt newPage m =>
      duplicateEntries (duplicateRecursive bootPhysPage self level) virt newPage m (List.finRange 512)

def lowerEntries : List (Fin 512) := (List.finRange 512).take 256

def upperEntries : List (Fin 512) := (List.finRange 512).drop 256

def pagingDuplicate (bootPhysPage : Option PhysPageSupplier) (m : Machine) (p4 newTable : Nat) : Kernel Machine := do
  let m ← duplicateEntries (duplicateRecursive bootPhysPage p4 3) p4 newTable
    { m with mem := flat.fill m.mem newTable 0 pageSize } lowerEntries
  return upperEntries.foldl (fun m i => m.setEntry newTable i (entry m.mem p4 i)) m

theorem mem_lowerEntries (i : Fin 512) : i ∈ lowerEntries ↔ i.val < 256 := by
  unfold lowerEntries
  rw [List.mem_take_iff_getElem]
  constructor
  · rintro ⟨j, lt, rfl⟩
    rw [List.getElem_finRange]
    exact (Nat.lt_min.mp lt).1
  · intro lt
    exact ⟨i.val, by simp [lt], by simp⟩

theorem mem_upperEntries (i : Fin 512) : i ∈ upperEntries ↔ 256 ≤ i.val := by
  unfold upperEntries
  rw [List.mem_drop_iff_getElem]
  constructor
  · rintro ⟨j, lt, rfl⟩
    rw [List.getElem_finRange]
    exact Nat.le_add_right 256 j
  · intro le
    have sum : 256 + (i.val - 256) = i.val := by omega
    have inside : 256 + (i.val - 256) < (List.finRange 512).length := by
      rw [sum, List.length_finRange]
      exact i.isLt
    exact ⟨i.val - 256, by rwa [Nat.add_comm] at inside, by simp [sum]⟩

theorem lower_or_upper (i : Fin 512) : i ∈ lowerEntries ∧ i ∉ upperEntries ∧ i.val < 256 ∨
    i ∉ lowerEntries ∧ i ∈ upperEntries ∧ 256 ≤ i.val := by
  rw [mem_lowerEntries, mem_upperEntries]
  omega

def entryCount (count : Nat → Nat) (mem : Bytes) (n : Nat) (is : List (Fin 512)) : Nat :=
  (is.map fun i => if (entry mem n i).testBit 0 then count (entry mem n i) else 0).sum

def copyCount (mem : Bytes) : Nat → Nat → Nat
  | 0, _ => 1
  | level + 1, e => 1 + entryCount (copyCount mem level) mem (e &&& pageAddressMask) (List.finRange 512)

def frameCount (mem : Bytes) (root : Nat) : Nat := entryCount (copyCount mem 3) mem root lowerEntries

/-! ### Suppliers of fresh frames -/

/-- While `hands fs m` holds, the supplier hands out the frames `fs`, in this order. It keeps
its records in the bytes `own` and writes nothing else. -/
structure FramePool where
  supply : PhysPageSupplier
  own : Set Nat
  hands : List Nat → Machine → Prop
  next : ∀ {f fs m}, hands (f :: fs) m → ∃ m', supply m = .ok (f, m') ∧ hands fs m' ∧ ∀ x ∉ own, m'.mem x = m.mem x
  other : ∀ {fs m mem'}, hands fs m → (∀ x ∈ own, mem' x = m.mem x) → hands fs { m with mem := mem' }

/-! ### What a call writes -/

def pageAt (n : Nat) : Set Nat := Set.Ico n (n + pageSize)

def directOffsets (f : Nat) : Indices := virtualAddressToOffsets (translateToHighHalfMemoryAddress f)

def directEntry (f : Nat) : Nat := f ||| (pteP ||| pteU ||| pteW) ||| pteP

def landsIn (m : Machine) (root f : Nat) : Option Nat := m.findPageTable root (directOffsets f)

section Find

variable {m : Machine} {root va pa flags n t : Nat} {i : Fin 512} {o : Indices} {bootPhysPage : Option PhysPageSupplier}

theorem getOrNullifyEntry_some (h : m.getOrNullifyEntry n i = some t) :
    (entry m.mem n i).testBit 0 = true ∧ t = entry m.mem n i &&& pageAddressMask := by
  unfold getOrNullifyEntry at h
  dsimp only at h
  split at h
  · cases h
  · rename_i present
    rw [pteP, Bits.and_bit_eq_zero, Bool.not_eq_false] at present
    exact ⟨present, (Option.some.inj h).symm⟩

theorem findPageTable_some (h : m.findPageTable root o = some t) : ∃ pdp pd,
    m.getOrNullifyEntry root o.pml4 = some pdp ∧ m.getOrNullifyEntry pdp o.pdpt = some pd ∧
      m.getOrNullifyEntry pd o.pd = some t := by
  obtain ⟨pdp, first, h⟩ := Option.bind_eq_some_iff.mp h
  obtain ⟨pd, second, third⟩ := Option.bind_eq_some_iff.mp h
  exact ⟨pdp, pd, first, second, third⟩

theorem findPageTable_aligned (h : m.findPageTable root o = some t) : t % pageSize = 0 := by
  obtain ⟨_, _, _, _, third⟩ := findPageTable_some h
  rw [(getOrNullifyEntry_some third).2, and_pageAddressMask_eq]
  exact Nat.mul_mod_left _ _

theorem getOrAllocEntry_found (h : m.getOrNullifyEntry n i = some t) :
    m.getOrAllocEntry bootPhysPage n i flags = .ok (t, m) := by
  obtain ⟨present, rfl⟩ := getOrNullifyEntry_some h
  unfold getOrAllocEntry
  dsimp only
  rw [if_neg (by rw [pteP, Bits.and_bit_eq_zero, present]; decide)]

theorem pagingMapMemory_found (h : m.findPageTable root (virtualAddressToOffsets va) = some t) :
    m.pagingMapMemory bootPhysPage root va pa flags =
      .ok (m.setEntry t (virtualAddressToOffsets va).pt (pa ||| flags ||| pteP)) := by
  obtain ⟨pdp, pd, first, second, third⟩ := findPageTable_some h
  unfold pagingMapMemory
  dsimp only
  rw [bind_eq (getOrAllocEntry_found first)]
  dsimp only
  rw [bind_eq (getOrAllocEntry_found second)]
  dsimp only
  rw [bind_eq (getOrAllocEntry_found third)]
  rfl

end Find

/-- One call: the machine it begins with, both roots and the frames that can be had. The bytes
in `inert` may be overwritten as well, since the call does not read them. -/
structure Copying (pool : FramePool) where
  start : Machine
  root : Nat
  newTable : Nat
  fresh : List Nat
  inert : Set Nat

namespace Copying

variable {pool : FramePool} (c : Copying pool)

def written : Set Nat := {x | x ∈ pool.own ∨ x ∈ c.inert ∨ ∃ f ∈ c.newTable :: c.fresh, x ∈ pageAt f}

def Spared (n : Nat) : Prop := ∀ x ∈ pageAt n, x ∉ c.written

def Steady (mem : Bytes) : Prop := ∀ x ∉ c.written, mem x = c.start.mem x

structure Outside (n : Nat) : Prop where
  aligned : n % pageSize = 0
  own : ∀ x ∈ pageAt n, x ∉ pool.own
  pages : ∀ x ∈ pageAt n, ∀ f ∈ c.newTable :: c.fresh, x ∉ pageAt f

def Harmless (f : Nat) : Prop :=
  ∃ t, landsIn c.start c.root f = some t ∧ (t = f ∨ c.Spared t ∧ entry c.start.mem t (directOffsets f).pt = directEntry f)

def Quiet (f : Nat) : Prop :=
  ∃ t, landsIn c.start c.root f = some t ∧ (t ∈ c.newTable :: c.fresh ∨ pageAt t ⊆ c.inert ∨
    c.Spared t ∧ entry c.start.mem t (directOffsets f).pt = directEntry f)

/-- What the entry `i` of `n` holds once the frames in `used` have been mapped. -/
def stamped (used : List Nat) (n : Nat) (i : Fin 512) (v : Nat) : Nat :=
  used.foldl (fun v f => if landsIn c.start c.root f = some n ∧ (directOffsets f).pt = i then directEntry f else v) v

/-- Below the present entry `e` of a table of level `l` there are tables down to the pages, and
the call reads them as they were. -/
def Readable : Nat → Nat → Prop
  | 0, e => e &&& pageAddressMask = e &&& addrMask
  | l + 1, e => slot (l + 1) e = .table (e &&& pageAddressMask) ∧ c.Spared (e &&& pageAddressMask) ∧
      ∀ i, (entry c.start.mem (e &&& pageAddressMask) i).testBit 0 = true →
        Readable l (entry c.start.mem (e &&& pageAddressMask) i)

/-- The entry `e'` is to `mem` what `e` was to the memory at the start, on frames of `used`. -/
def Copied (mem : Bytes) (used : List Nat) : Nat → Nat → Nat → Prop
  | 0, e, e' => ∃ f ∈ used, e' = f ||| e &&& pageFlagMask ∧ (c.Spared (e &&& pageAddressMask) →
      ∀ k < pageSize, mem (f + k) = c.start.mem ((e &&& pageAddressMask) + k))
  | l + 1, e, e' => ∃ f ∈ used, e' = f ||| e &&& pageFlagMask ∧ ∀ i,
      if (entry c.start.mem (e &&& pageAddressMask) i).testBit 0 then
        Copied mem used l (entry c.start.mem (e &&& pageAddressMask) i) (entry mem f i)
      else entry mem f i = 0

structure Sound : Prop where
  aligned : ∀ f ∈ c.newTable :: c.fresh, f % pageSize = 0
  small : ∀ f ∈ c.fresh, f < 2 ^ 52
  nodup : (c.newTable :: c.fresh).Nodup
  own : ∀ f ∈ c.newTable :: c.fresh, ∀ x ∈ pageAt f, x ∉ pool.own
  inert : ∀ x ∈ c.inert, x ∉ pool.own
  root : c.Spared c.root
  lands : ∀ f t, landsIn c.start c.root f = some t → ∀ m : Machine, c.Steady m.mem → landsIn m c.root f = some t

/-- From `m` to `m'` the frames `used` were handed out and `rest` remains. Where the frames
are harmless only `pages` were written. -/
structure Step (m m' : Machine) (pages used rest : List Nat) : Prop where
  hands : pool.hands rest m'
  steady : c.Steady m'.mem
  words : ∀ n i, c.Outside n → entry m'.mem n i = c.stamped used n i (entry m.mem n i)
  kept : (∀ f ∈ used, c.Harmless f) → ∀ x ∉ pool.own, (∀ f ∈ pages, x ∉ pageAt f) → m'.mem x = m.mem x

variable {c} {m m' m'' : Machine} {mem mem' : Bytes} {n f t l e e' : Nat} {i : Fin 512}
  {pages pages' used used' rest rest' : List Nat}

theorem Sound.page_written (h : f ∈ c.newTable :: c.fresh) {x : Nat} (inside : x ∈ pageAt f) : x ∈ c.written :=
  .inr (.inr ⟨f, h, inside⟩)

theorem Steady.entry (h : c.Steady mem) (spared : c.Spared n) : entry mem n i = entry c.start.mem n i :=
  entry_congr fun x low high => h x (spared x ⟨low, high⟩)

theorem Step.trans (h : c.Step m m' pages used rest) (h' : c.Step m' m'' pages' used' rest') :
    c.Step m m'' (pages ++ pages') (used ++ used') rest' where
  hands := h'.hands
  steady := h'.steady
  words n i out := by rw [h'.words n i out, h.words n i out, stamped, stamped, stamped, List.foldl_append]
  kept harmless x own off := by
    rw [h'.kept (fun f hf => harmless f (List.mem_append_right _ hf)) x own fun f hf => off f (List.mem_append_right _ hf),
      h.kept (fun f hf => harmless f (List.mem_append_left _ hf)) x own fun f hf => off f (List.mem_append_left _ hf)]

theorem Step.mono (h : c.Step m m' pages used rest) (sub : pages ⊆ pages') : c.Step m m' pages' used rest :=
  ⟨h.hands, h.steady, h.words, fun harmless x own off => h.kept harmless x own fun f hf => off f (sub hf)⟩

theorem Outside.entry_congr (h : c.Outside n)
    (same : ∀ x ∉ pool.own, (∀ f ∈ c.newTable :: c.fresh, x ∉ pageAt f) → mem' x = mem x) :
    entry mem' n i = entry mem n i :=
  Paging.entry_congr fun x low high => same x (h.own x ⟨low, high⟩) (h.pages x ⟨low, high⟩)

theorem Sound.touch (s : c.Sound) (ht : t ∈ c.newTable :: c.fresh) (same : ∀ x ∉ pageAt t, mem' x = m.mem x)
    (hands : pool.hands rest m) (steady : c.Steady m.mem) : c.Step m { m with mem := mem' } [t] [] rest where
  hands := pool.other hands fun x own => same x fun inside => s.own t ht x inside own
  steady x off := (same x fun inside => off (Sound.page_written ht inside)).trans (steady x off)
  words _ _ out := out.entry_congr fun x _ off => same x (off t ht)
  kept _ x _ off := same x (off t (List.mem_singleton.mpr rfl))

theorem directEntry_lt (small : f < 2 ^ 52) : directEntry f < 2 ^ 64 :=
  Nat.or_lt_two_pow (Nat.or_lt_two_pow (Nat.lt_trans small (by decide)) (by decide)) (by decide)

theorem word_in_page (t : Nat) (i : Fin 512) {x : Nat} (low : t + 8 * i ≤ x) (high : x < t + 8 * i + 8) : x ∈ pageAt t := by
  unfold pageAt pageSize
  rw [Set.mem_Ico]
  omega

theorem setEntry_off {v x : Nat} (off : x ∉ pageAt t) : Paging.setEntry mem t i v x = mem x := by
  refine setEntry_of_ne ?_
  by_contra inside
  exact off (word_in_page t i (by omega) (by omega))

theorem fill_off {x : Nat} (off : x ∉ pageAt t) : flat.fill mem t 0 pageSize x = mem x :=
  fill_page.trans (if_neg off)

theorem Harmless.quiet (h : c.Harmless f) (hf : f ∈ c.fresh) : c.Quiet f := by
  obtain ⟨t, lands, rfl | already⟩ := h
  · exact ⟨t, lands, .inl (List.mem_cons_of_mem _ hf)⟩
  · exact ⟨t, lands, .inr (.inr already)⟩

theorem Sound.claim (s : c.Sound) (hf : f ∈ c.fresh) (quiet : c.Quiet f) (hands : pool.hands (f :: rest) m)
    (steady : c.Steady m.mem) : ∃ m₁ m₂, m.pagingGetFreeFrame (some pool.supply) = .ok (f, m₁) ∧
      m₁.pagingMapMemory (some pool.supply) c.root (translateToHighHalfMemoryAddress f) f (pteP ||| pteU ||| pteW) = .ok m₂ ∧
      c.Step m { m₂ with mem := flat.fill m₂.mem f 0 pageSize } [f] [f] rest := by
  have member : f ∈ c.newTable :: c.fresh := List.mem_cons_of_mem _ hf
  obtain ⟨m₁, supply, hands₁, same⟩ := pool.next hands
  have steady₁ : c.Steady m₁.mem := fun x off => (same x fun own => off (.inl own)).trans (steady x off)
  obtain ⟨t, lands, kind⟩ := quiet
  have found : landsIn m₁ c.root f = some t := s.lands f t lands m₁ steady₁
  have own : ∀ x ∈ pageAt t, x ∉ pool.own := by
    intro x inside
    rcases kind with copy | inert | ⟨spared, _⟩
    · exact s.own t copy x inside
    · exact s.inert x (inert inside)
    · exact fun own => spared x inside (.inl own)
  have store : ∀ x, x ∉ pageAt t → Paging.setEntry m₁.mem t (directOffsets f).pt (directEntry f) x = m₁.mem x :=
    fun x off => setEntry_off off
  have again : c.Spared t → entry c.start.mem t (directOffsets f).pt = directEntry f →
      ∀ x, Paging.setEntry m₁.mem t (directOffsets f).pt (directEntry f) x = m₁.mem x := by
    intro spared already x
    rw [← already, ← steady₁.entry spared]
    exact setEntry_entry
  refine ⟨m₁, _, supply, pagingMapMemory_found found, ?_, fun x off => ?_, fun n i out => ?_, fun harmless x off pages => ?_⟩
  · refine pool.other (m := m₁) hands₁ fun x inside => ?_
    exact (fill_off fun page => s.own f member x page inside).trans (store x fun page => own x page inside)
  · refine (fill_off fun page => off (page_written member page)).trans ?_
    by_cases page : x ∈ pageAt t
    · rcases kind with copy | inert | ⟨spared, already⟩
      · exact absurd (page_written copy page) off
      · exact absurd (.inr (.inl (inert page))) off
      · exact (again spared already x).trans (steady₁ x off)
    · exact (store x page).trans (steady₁ x off)
  · have clear : entry (flat.fill (Paging.setEntry m₁.mem t (directOffsets f).pt (directEntry f)) f 0 pageSize) n i =
        entry (Paging.setEntry m₁.mem t (directOffsets f).pt (directEntry f)) n i :=
      out.entry_congr fun x _ off => fill_off (off f member)
    have before : entry m₁.mem n i = entry m.mem n i := out.entry_congr fun x off _ => same x off
    refine clear.trans ?_
    rw [stamped, List.foldl_cons, List.foldl_nil, lands]
    split
    · rename_i here
      obtain ⟨here, rfl⟩ := here
      cases here
      exact entry_setEntry (directEntry_lt (s.small f hf))
    · rename_i other
      rw [entry_setEntry_of_ne (findPageTable_aligned lands) out.aligned
        fun same at' => other ⟨by rw [same], at'.symm⟩, before]
  · have off' : x ∉ pageAt f := pages f (List.mem_singleton.mpr rfl)
    refine (fill_off off').trans (Eq.trans ?_ (same x off))
    obtain ⟨t', lands', here⟩ := harmless f (List.mem_singleton.mpr rfl)
    rw [lands] at lands'
    cases lands'
    rcases here with rfl | ⟨spared, already⟩
    · exact store x off'
    · exact again spared already x

theorem stamped_of_none {v : Nat} (none : ∀ f ∈ used, ¬ (landsIn c.start c.root f = some n ∧ (directOffsets f).pt = i)) :
    c.stamped used n i v = v := by
  induction used with
  | nil => rfl
  | cons f used ih =>
    rw [stamped, List.foldl_cons, if_neg (none f List.mem_cons_self)]
    exact ih fun g hg => none g (List.mem_cons_of_mem _ hg)

theorem stamped_of_mem (hf : f ∈ used) (lands : landsIn c.start c.root f = some n)
    (unique : ∀ g ∈ used, landsIn c.start c.root g = some n → (directOffsets f).pt = (directOffsets g).pt → f = g) (v : Nat) :
    c.stamped used n (directOffsets f).pt v = directEntry f := by
  induction used generalizing v with
  | nil => exact (List.not_mem_nil hf).elim
  | cons g used ih =>
    rw [stamped, List.foldl_cons]
    by_cases later : f ∈ used
    · exact ih later (fun g hg => unique g (List.mem_cons_of_mem _ hg)) _
    · obtain rfl := (List.mem_cons.mp hf).resolve_right later
      rw [if_pos ⟨lands, rfl⟩]
      refine stamped_of_none fun g hg hit => later ?_
      rw [unique g (List.mem_cons_of_mem _ hg) hit.1 hit.2.symm]
      exact hg

/-! ### The loops -/

def Duplicates (c : Copying pool) (duplicate : Machine → Nat → Kernel (Nat × Machine)) (l : Nat) : Prop :=
  ∀ ⦃m e used rest⦄, c.Readable l e → used.length = copyCount c.start.mem l e → used.Nodup → used ⊆ c.fresh →
    (∀ f ∈ used, c.Quiet f) → pool.hands (used ++ rest) m → c.Steady m.mem →
    ∃ e' m', duplicate m e = .ok (e', m') ∧ e' < 2 ^ 64 ∧ c.Step m m' used used rest ∧
      ((∀ f ∈ used, c.Harmless f) → c.Copied m'.mem used l e e')

theorem Step.refl (hands : pool.hands rest m) (steady : c.Steady m.mem) : c.Step m m pages [] rest :=
  ⟨hands, steady, fun _ _ _ => rfl, fun _ _ _ _ => rfl⟩

theorem pageAt_disjoint {x : Nat} (hf : f % pageSize = 0) (ht : t % pageSize = 0) (ne : f ≠ t) (inside : x ∈ pageAt f) :
    x ∉ pageAt t := by
  unfold pageAt pageSize at *
  rw [Set.mem_Ico] at *
  omega

theorem Copied.imp (h : c.Copied mem used l e e') (sub : used ⊆ used')
    (same : ∀ f ∈ used, ∀ x ∈ pageAt f, mem' x = mem x) : c.Copied mem' used' l e e' := by
  induction l generalizing e e' with
  | zero =>
    obtain ⟨f, hf, word, bytes⟩ := h
    refine ⟨f, sub hf, word, fun spared k lt => (same f hf _ ?_).trans (bytes spared k lt)⟩
    exact Set.mem_Ico.mpr ⟨by omega, by omega⟩
  | succ l ih =>
    obtain ⟨f, hf, word, entries⟩ := h
    refine ⟨f, sub hf, word, fun i => ?_⟩
    have equal : entry mem' f i = entry mem f i := entry_congr fun x low high => same f hf x ⟨low, high⟩
    have old := entries i
    rw [equal]
    split
    · rw [if_pos ‹_›] at old
      exact ih old
    · rw [if_neg ‹_›] at old
      exact old

theorem Copied.mono (h : c.Copied mem used l e e') (sub : used ⊆ used') : c.Copied mem used' l e e' :=
  h.imp sub fun _ _ _ _ => rfl

theorem Sound.off_page (s : c.Sound) (hf : f ∈ c.newTable :: c.fresh) (ht : t ∈ c.newTable :: c.fresh) (ne : f ≠ t) {x : Nat}
    (inside : x ∈ pageAt f) : x ∉ pageAt t :=
  pageAt_disjoint (s.aligned f hf) (s.aligned t ht) ne inside

structure Filled (c : Copying pool) (m m' : Machine) (used : List Nat) (l n t : Nat) (is : List (Fin 512)) : Prop where
  copied : ∀ i ∈ is, (entry c.start.mem n i).testBit 0 = true →
    c.Copied m'.mem used l (entry c.start.mem n i) (entry m'.mem t i)
  others : ∀ i, (i ∉ is ∨ (entry c.start.mem n i).testBit 0 = false) → entry m'.mem t i = entry m.mem t i

theorem Filled.cons {m₁ : Machine} {a b : List Nat} {is : List (Fin 512)} (s : c.Sound) (ht : t ∈ c.newTable :: c.fresh)
    (sub : a ++ b ⊆ c.fresh) (distinct : (t :: (a ++ b)).Nodup) (new : i ∉ is) (lt : e' < 2 ^ 64)
    (present : (entry c.start.mem n i).testBit 0 = true) (first : c.Step m m₁ a a rest)
    (later : c.Step (m₁.setEntry t i e') m' (t :: b) b rest')
    (harmless : ∀ f ∈ a ++ b, c.Harmless f) (copied : c.Copied m₁.mem a l (entry c.start.mem n i) e')
    (h : Filled c (m₁.setEntry t i e') m' b l n t is) : Filled c m m' (a ++ b) l n t (i :: is) := by
  obtain ⟨out, apart⟩ := List.nodup_cons.mp distinct
  obtain ⟨_, _, apart⟩ := List.nodup_append.mp apart
  have aligned := s.aligned t ht
  have stays : ∀ f ∈ a, ∀ x ∈ pageAt f, m'.mem x = m₁.mem x := by
    intro f hf x inside
    have member : f ∈ c.newTable :: c.fresh := List.mem_cons_of_mem _ (sub (List.mem_append_left _ hf))
    have off : x ∉ pageAt t := s.off_page member ht (fun same => out (same ▸ List.mem_append_left _ hf)) inside
    refine (later.kept (fun f hf => harmless f (List.mem_append_right _ hf)) x (s.own f member x inside) ?_).trans
      (setEntry_off off)
    intro g hg
    rcases List.mem_cons.mp hg with rfl | hg
    · exact off
    · exact s.off_page member (List.mem_cons_of_mem _ (sub (List.mem_append_right _ hg))) (apart f hf g hg) inside
  have word : entry m'.mem t i = e' := (h.others i (.inl new)).trans (entry_setEntry lt)
  have before : ∀ j, entry m₁.mem t j = entry m.mem t j := fun j => entry_congr fun x low high => by
    refine first.kept (fun f hf => harmless f (List.mem_append_left _ hf)) x (s.own t ht x ⟨low, high⟩) fun f hf => ?_
    exact s.off_page ht (List.mem_cons_of_mem _ (sub (List.mem_append_left _ hf)))
      (fun same => out (same ▸ List.mem_append_left _ hf)) ⟨low, high⟩
  constructor
  · intro j hj here
    rcases List.mem_cons.mp hj with rfl | hj
    · rw [word]
      exact copied.imp (List.subset_append_left _ _) stays
    · exact (h.copied j hj here).mono (List.subset_append_right _ _)
  · intro j hj
    have ne : j ≠ i := by
      rintro rfl
      rcases hj with out | absent
      · exact out List.mem_cons_self
      · rw [present] at absent
        cases absent
    rw [h.others j (hj.imp_left fun out inside => out (List.mem_cons_of_mem _ inside)), ← before]
    exact entry_setEntry_of_ne aligned aligned fun _ => ne

theorem Duplicates.entries {duplicate : Machine → Nat → Kernel (Nat × Machine)} {is : List (Fin 512)}
    (h : c.Duplicates duplicate l)
    (s : c.Sound) (spared : c.Spared n) (ht : t ∈ c.newTable :: c.fresh) (nodup : is.Nodup)
    (readable : ∀ i ∈ is, (entry c.start.mem n i).testBit 0 = true → c.Readable l (entry c.start.mem n i))
    (length : used.length = entryCount (copyCount c.start.mem l) c.start.mem n is) (distinct : (t :: used).Nodup)
    (sub : used ⊆ c.fresh) (quiet : ∀ f ∈ used, c.Quiet f) (hands : pool.hands (used ++ rest) m) (steady : c.Steady m.mem) :
    ∃ m', duplicateEntries duplicate n t m is = .ok m' ∧ c.Step m m' (t :: used) used rest ∧
      ((∀ f ∈ used, c.Harmless f) → Filled c m m' used l n t is) := by
  induction is generalizing m used with
  | nil =>
    obtain rfl : used = [] := List.eq_nil_of_length_eq_zero length
    exact ⟨m, rfl, .refl hands steady, fun _ => ⟨fun _ hi => (List.not_mem_nil hi).elim, fun _ _ => rfl⟩⟩
  | cons i is ih =>
    obtain ⟨new, nodup⟩ := List.nodup_cons.mp nodup
    have tail : ∀ j ∈ is, (entry c.start.mem n j).testBit 0 = true → c.Readable l (entry c.start.mem n j) :=
      fun j hj => readable j (List.mem_cons_of_mem _ hj)
    have read : entry m.mem n i = entry c.start.mem n i := steady.entry spared
    rw [entryCount, List.map_cons, List.sum_cons] at length
    have bit : entry c.start.mem n i &&& pteP = 0 ↔ (entry c.start.mem n i).testBit 0 = false := by
      rw [pteP, Bits.and_bit_eq_zero]
    rw [duplicateEntries, read]
    cases present : (entry c.start.mem n i).testBit 0 with
    | false =>
      rw [present, if_neg (by decide), Nat.zero_add] at length
      rw [if_pos (bit.mpr present)]
      obtain ⟨m', run, step, filled⟩ := ih nodup tail length distinct sub quiet hands steady
      refine ⟨m', run, step, fun harmless => ?_⟩
      obtain ⟨copied, others⟩ := filled harmless
      refine ⟨fun j hj here => ?_, fun j hj => others j (hj.imp_left fun out inside => out (List.mem_cons_of_mem _ inside))⟩
      rcases List.mem_cons.mp hj with rfl | hj
      · rw [present] at here
        cases here
      · exact copied j hj here
    | true =>
      rw [present, if_pos rfl] at length
      obtain ⟨a, b, rfl, first⟩ : ∃ a b, used = a ++ b ∧ a.length = copyCount c.start.mem l (entry c.start.mem n i) :=
        ⟨used.take (copyCount c.start.mem l (entry c.start.mem n i)), _, (List.take_append_drop _ _).symm, by
          rw [List.length_take]; omega⟩
      rw [List.length_append] at length
      rw [List.append_assoc] at hands
      have left : a ⊆ a ++ b := List.subset_append_left a b
      have right : b ⊆ a ++ b := List.subset_append_right a b
      obtain ⟨e', m₁, run, lt, step, copied⟩ := h (readable i List.mem_cons_self present) first
        (List.nodup_cons.mp distinct).2.of_append_left (fun f hf => sub (left hf)) (fun f hf => quiet f (left hf)) hands steady
      have link : c.Step m₁ (m₁.setEntry t i e') [t] [] (b ++ rest) :=
        s.touch (m := m₁) ht (fun x off => setEntry_off off) step.hands step.steady
      have remaining : b.length = entryCount (copyCount c.start.mem l) c.start.mem n is := by
        rw [entryCount]
        omega
      obtain ⟨m', runs, later, filled⟩ := ih nodup tail remaining
        (distinct.sublist ((List.sublist_append_right a b).cons_cons t)) (fun f hf => sub (right hf))
        (fun f hf => quiet f (right hf)) link.hands link.steady
      refine ⟨m', ?_, ?_, fun harmless => ?_⟩
      · rw [if_neg (by rw [bit, present]; decide), bind_eq run]
        exact runs
      · have whole := (step.trans link).trans later
        rw [List.append_nil] at whole
        refine whole.mono fun f hf => ?_
        simp only [List.mem_append, List.mem_cons, List.not_mem_nil, or_false] at hf ⊢
        tauto
      · exact .cons s ht sub distinct new lt present step later harmless (copied fun f hf => harmless f (left hf))
          (filled fun f hf => harmless f (right hf))

theorem duplicatePage_run {contents : Nat → Nat → Machine → Kernel Machine} {g : Option PhysPageSupplier} {self : Nat}
    {m₁ m₂ m₃ : Machine} (supply : m.pagingGetFreeFrame g = .ok (f, m₁))
    (mapped : m₁.pagingMapMemory g self (translateToHighHalfMemoryAddress f) f (pteP ||| pteU ||| pteW) = .ok m₂)
    (filled : contents (e &&& pageAddressMask) f { m₂ with mem := flat.fill m₂.mem f 0 pageSize } = .ok m₃) :
    duplicatePage g self contents m e = .ok (f ||| e &&& pageFlagMask, m₃) := by
  unfold duplicatePage
  dsimp only
  rw [bind_eq supply]
  dsimp only
  rw [bind_eq mapped]
  exact bind_eq filled

theorem copied_lt (s : c.Sound) (hf : f ∈ c.fresh) (e : Nat) : f ||| e &&& pageFlagMask < 2 ^ 64 :=
  Nat.or_lt_two_pow (Nat.lt_trans (s.small f hf) (by decide)) (Nat.lt_of_le_of_lt Nat.and_le_right (by decide))

theorem Sound.duplicates (s : c.Sound) (l : Nat) : c.Duplicates (duplicateRecursive (some pool.supply) c.root l) l := by
  induction l with
  | zero =>
    intro m e used rest readable length nodup sub quiet hands steady
    obtain ⟨f, rfl⟩ := List.length_eq_one_iff.mp length
    have one : f ∈ [f] := List.mem_singleton.mpr rfl
    have member : f ∈ c.newTable :: c.fresh := List.mem_cons_of_mem _ (sub one)
    obtain ⟨m₁, m₂, supply, mapped, claim⟩ := s.claim (sub one) (quiet f one) hands steady
    have off : ∀ x ∉ pageAt f, flat.copy (flat.fill m₂.mem f 0 pageSize) f (e &&& pageAddressMask) pageSize x =
        flat.fill m₂.mem f 0 pageSize x := fun x out =>
      flat_region.get_copy_of_not_mem trivial (fun _ _ => trivial) trivial (by
        by_contra inside
        exact out (Set.mem_Ico.mpr (by omega)))
    have copy := s.touch member off claim.hands claim.steady
    refine ⟨_, _, duplicatePage_run supply mapped rfl, copied_lt s (sub one) e, ?_,
      fun _ => ⟨f, one, rfl, fun spared k lt => ?_⟩⟩
    · exact (claim.trans copy).mono (by simp)
    · have source : (e &&& pageAddressMask) + k ∉ c.written := spared _ (Set.mem_Ico.mpr ⟨by omega, by omega⟩)
      have apart : f + pageSize ≤ (e &&& pageAddressMask) ∨ (e &&& pageAddressMask) + pageSize ≤ f := by
        by_contra meet
        refine spared (max f (e &&& pageAddressMask)) (Set.mem_Ico.mpr ⟨by omega, by omega⟩) (page_written member ?_)
        exact Set.mem_Ico.mpr ⟨by omega, by omega⟩
      refine (flat_region.get_copy trivial (fun _ _ => trivial) (fun _ _ => trivial) trivial apart).trans ?_
      rw [if_pos ⟨by omega, by omega⟩, Nat.add_sub_cancel_left]
      exact claim.steady _ source
  | succ l ih =>
    intro m e used rest readable length nodup sub quiet hands steady
    obtain ⟨_, spared, below⟩ := readable
    cases used with
    | nil =>
      rw [copyCount, List.length_nil] at length
      omega
    | cons f used =>
      have one : f ∈ f :: used := List.mem_cons_self
      have member : f ∈ c.newTable :: c.fresh := List.mem_cons_of_mem _ (sub one)
      obtain ⟨m₁, m₂, supply, mapped, claim⟩ := s.claim (sub one) (quiet f one) hands steady
      have rest' : used.length = entryCount (copyCount c.start.mem l) c.start.mem (e &&& pageAddressMask)
          (List.finRange 512) := by
        rw [copyCount, List.length_cons] at length
        omega
      obtain ⟨m₃, run, step, filled⟩ := ih.entries s spared member (List.nodup_finRange 512) (fun i _ => below i) rest' nodup
        (fun g hg => sub (List.mem_cons_of_mem _ hg))
        (fun g hg => quiet g (List.mem_cons_of_mem _ hg)) claim.hands claim.steady
      refine ⟨_, m₃, duplicatePage_run supply mapped run, copied_lt s (sub one) e, ?_,
        fun harmless => ⟨f, one, rfl, fun i => ?_⟩⟩
      · exact (claim.trans step).mono (by simp)
      · obtain ⟨copied, others⟩ := filled fun g hg => harmless g (List.mem_cons_of_mem _ hg)
        split
        · exact (copied i (List.mem_finRange i) ‹_›).mono (List.subset_cons_self f used)
        · rename_i absent
          rw [others i (.inr (by simpa using absent))]
          exact entry_zero fun x low high => fill_page.trans (if_pos ⟨low, high⟩)

/-! ### The whole call -/

theorem entry_lt (mem : Bytes) (n : Nat) (i : Fin 512) : entry mem n i < 2 ^ 64 := load_lt mem _ 8

theorem Sound.share (s : c.Sound) (is : List (Fin 512)) (hands : pool.hands rest m) (steady : c.Steady m.mem) :
    c.Step m (is.foldl (fun m i => m.setEntry c.newTable i (entry m.mem c.root i)) m) [c.newTable] [] rest ∧
      ∀ i, entry (is.foldl (fun m i => m.setEntry c.newTable i (entry m.mem c.root i)) m).mem c.newTable i =
        if i ∈ is then entry c.start.mem c.root i else entry m.mem c.newTable i := by
  induction is generalizing m with
  | nil => exact ⟨.refl hands steady, fun i => rfl⟩
  | cons j is ih =>
    have aligned := s.aligned _ List.mem_cons_self
    have first : c.Step m (m.setEntry c.newTable j (entry m.mem c.root j)) [c.newTable] [] rest :=
      s.touch (m := m) List.mem_cons_self (fun x off => setEntry_off off) hands steady
    obtain ⟨later, words⟩ := ih first.hands first.steady
    rw [List.foldl_cons]
    refine ⟨(first.trans later).mono (by simp), fun i => ?_⟩
    refine (words i).trans ?_
    by_cases last : i ∈ is
    · rw [if_pos last, if_pos (List.mem_cons_of_mem _ last)]
    rw [if_neg last]
    by_cases here : i = j
    · subst here
      rw [if_pos List.mem_cons_self]
      exact (entry_setEntry (entry_lt _ _ _)).trans (steady.entry s.root)
    · rw [if_neg (by simp [here, last])]
      exact entry_setEntry_of_ne aligned aligned fun _ => here

structure Root (c : Copying pool) (mem : Bytes) (used : List Nat) : Prop where
  copied : ∀ i ∈ lowerEntries, (entry c.start.mem c.root i).testBit 0 = true →
    c.Copied mem used 3 (entry c.start.mem c.root i) (entry mem c.newTable i)
  absent : ∀ i ∈ lowerEntries, (entry c.start.mem c.root i).testBit 0 = false → entry mem c.newTable i = 0

theorem Sound.run (s : c.Sound)
    (readable : ∀ i ∈ lowerEntries, (entry c.start.mem c.root i).testBit 0 = true → c.Readable 3 (entry c.start.mem c.root i))
    (length : used.length = frameCount c.start.mem c.root) (sub : used.Sublist c.fresh) (quiet : ∀ f ∈ used, c.Quiet f)
    (hands : pool.hands (used ++ rest) c.start) :
    ∃ m', c.start.pagingDuplicate (some pool.supply) c.root c.newTable = .ok m' ∧
      c.Step c.start m' (c.newTable :: used) used rest ∧
      (∀ i ∈ upperEntries, entry m'.mem c.newTable i = entry m'.mem c.root i) ∧
      ((∀ f ∈ used, c.Harmless f) → c.Root m'.mem used) := by
  have member : c.newTable ∈ c.newTable :: c.fresh := List.mem_cons_self
  have distinct : (c.newTable :: used).Nodup := s.nodup.sublist (sub.cons_cons _)
  obtain ⟨out, _⟩ := List.nodup_cons.mp distinct
  have clear : c.Step c.start { c.start with mem := flat.fill c.start.mem c.newTable 0 pageSize } [c.newTable] []
      (used ++ rest) :=
    s.touch member (fun x off => fill_off off) hands (fun _ _ => rfl)
  obtain ⟨m₁, run, step, filled⟩ := (s.duplicates 3).entries s s.root member
    ((List.nodup_finRange 512).sublist (List.take_sublist _ _))
    readable length distinct sub.subset quiet clear.hands clear.steady
  obtain ⟨share, words⟩ := s.share upperEntries step.hands step.steady
  have whole := (clear.trans step).trans share
  refine ⟨_, bind_eq run, ?_, fun i hi => ?_, fun harmless => ?_⟩
  · rw [List.append_nil, List.nil_append] at whole
    exact whole.mono (by simp)
  · rw [words, if_pos hi]
    exact (share.steady.entry s.root).symm
  obtain ⟨copied, others⟩ := filled harmless
  have lower : ∀ i ∈ lowerEntries, i ∉ upperEntries := fun i hi => by
    rcases lower_or_upper i with ⟨_, off, _⟩ | ⟨off, _⟩
    · exact off
    · exact absurd hi off
  constructor
  · intro i hi present
    rw [words, if_neg (lower i hi)]
    refine (copied i hi present).imp (List.Subset.refl _) fun f hf x inside => ?_
    have member' : f ∈ c.newTable :: c.fresh := List.mem_cons_of_mem _ (sub.subset hf)
    refine share.kept (fun _ none => (List.not_mem_nil none).elim) x (s.own f member' x inside) fun g hg => ?_
    rw [List.mem_singleton.mp hg]
    exact s.off_page member' member (fun same => out (same ▸ hf)) inside
  · intro i hi absent
    rw [words, if_neg (lower i hi), others i (.inr absent)]
    exact entry_zero fun x low high => fill_page.trans (if_pos ⟨low, high⟩)

end Copying

end Voyager.Machine
