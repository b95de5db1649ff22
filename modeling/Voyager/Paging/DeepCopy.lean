import Voyager.Paging.Duplicate
import Voyager.Paging.Operations

/-!
# Deep copies

Every new frame is mapped in the direct map before it is cleared. So the copy is right exactly
when the entry that this stores is lost again with the frame, or was there before.
-/

namespace Voyager.Machine

open Lib Lib.ByteSpace Lib.RadixTable Paging

/-- The address space under `newTable` is a deep copy of the one under `root` as it was. -/
structure DeepCopy (m m' : Machine) (root newTable : Nat) (used : List Nat) (own : Set Nat) : Prop where
  pages : ∀ va < 2 ^ 47, ∀ e k, leafOf m.mem root va = some (e, k) → ∃ e', leafOf m'.mem newTable va = some (e', k) ∧
    e' &&& pageFlagMask = e &&& pageFlagMask ∧ (e' &&& addrMask) ∈ used ∧
    ∀ x < pageSize, m'.mem ((e' &&& addrMask) + x) = m.mem ((e &&& addrMask) + x)
  only : ∀ va < 2 ^ 47, leafOf m.mem root va = none → leafOf m'.mem newTable va = none
  upper : ∀ va, 2 ^ 64 - 2 ^ 47 ≤ va → va < 2 ^ 64 → leafOf m'.mem newTable va = leafOf m'.mem root va
  bytes : ∀ x, x ∉ own → (∀ f ∈ newTable :: used, x < f ∨ f + pageSize ≤ x) → m'.mem x = m.mem x

section Entries

variable {f e l b : Nat}

theorem frame_and (aligned : f % pageSize = 0) (small : f < 2 ^ 52) : f &&& addrMask = f ∧ f &&& pageFlagMask = 0 := by
  have address : f &&& addrMask = f := by
    rw [and_addrMask]
    unfold pageSize at aligned
    omega
  refine ⟨address, ?_⟩
  rw [← address, Nat.and_assoc, show addrMask &&& pageFlagMask = 0 by decide, Nat.and_zero]

theorem copy_and (aligned : f % pageSize = 0) (small : f < 2 ^ 52) :
    (f ||| e &&& pageFlagMask) &&& addrMask = f ∧ (f ||| e &&& pageFlagMask) &&& pageFlagMask = e &&& pageFlagMask := by
  obtain ⟨address, flags⟩ := frame_and aligned small
  rw [Nat.and_or_distrib_right, Nat.and_or_distrib_right, address, flags, Nat.and_assoc, Nat.and_assoc, Nat.and_self,
    show pageFlagMask &&& addrMask = 0 by decide, Nat.and_zero, Nat.or_zero, Nat.zero_or]
  exact ⟨rfl, rfl⟩

theorem copy_testBit (aligned : f % pageSize = 0) (low : b < 12) : (f ||| e &&& pageFlagMask).testBit b = e.testBit b := by
  have flag : pageFlagMask.testBit b = true := by
    have every : ∀ k : Fin 12, pageFlagMask.testBit k = true := by decide
    exact every ⟨b, low⟩
  rw [Nat.testBit_or, Nat.testBit_and, flag, Bool.and_true, Bits.testBit_of_mod (k := 12) aligned low, Bool.false_or]

theorem slot_copy {n : Nat} (aligned : f % pageSize = 0) (small : f < 2 ^ 52) (table : slot l e = .table n) :
    slot l (f ||| e &&& pageFlagMask) = .table f := by
  obtain ⟨present, inner, _, plain⟩ := slot_table table
  unfold slot
  rw [copy_testBit aligned (by decide), copy_testBit aligned (by decide), (copy_and aligned small).1,
    if_neg (by simp [present]),
    if_neg inner, if_neg fun large => by rw [plain large.1] at large; exact absurd large.2 (by decide)]

end Entries

/-! ### Walking the copy -/

namespace Copying

variable {pool : FramePool} {c : Copying pool} {m' : Machine} {mem : Bytes} {n t l : Nat} {i : Fin 512} {used rest : List Nat}

/-- Neither walk finds a page, or the second finds a copy of the first one's. -/
def Agree (c : Copying pool) (mem : Bytes) (used : List Nat) (r r' : Option (Nat × Nat)) : Prop :=
  r = none ∧ r' = none ∨ ∃ v v', r = some (v, 0) ∧ r' = some (v', 0) ∧ c.Readable 0 v ∧ c.Copied mem used 0 v v'

theorem walk_absent {path : List (Fin 512)} (absent : (entry mem n i).testBit 0 = false) :
    walk slot (entry mem) n (i :: path) = none := by
  rw [walk, slot_absent absent]

theorem Copied.agree {path : List (Fin 512)} (s : c.Sound) (sub : used ⊆ c.fresh)
    (present : (entry c.start.mem n i).testBit 0 = true)
    (readable : c.Readable l (entry c.start.mem n i)) (copied : c.Copied mem used l (entry c.start.mem n i) (entry mem t i))
    (length : path.length = l) :
    c.Agree mem used (walk slot (entry c.start.mem) n (i :: path)) (walk slot (entry mem) t (i :: path)) := by
  induction l generalizing n t i path with
  | zero =>
    obtain rfl := List.eq_nil_of_length_eq_zero length
    obtain ⟨f, hf, word, _⟩ := id copied
    have present' : (entry mem t i).testBit 0 = true := by
      rw [word, copy_testBit (s.aligned f (List.mem_cons_of_mem _ (sub hf))) (by decide), present]
    refine .inr ⟨_, _, ?_, ?_, readable, copied⟩
    · rw [walk, List.length_nil, slot_leaf present (.inl rfl)]
    · rw [walk, List.length_nil, slot_leaf present' (.inl rfl)]
  | succ l ih =>
    obtain ⟨j, path, rfl⟩ := List.exists_cons_of_length_eq_add_one length
    obtain ⟨table, _, below⟩ := readable
    obtain ⟨f, hf, word, entries⟩ := copied
    have table' : slot (l + 1) (entry mem t i) = .table f := by
      rw [word]
      exact slot_copy (s.aligned f (List.mem_cons_of_mem _ (sub hf))) (s.small f (sub hf)) table
    have size : path.length = l := Nat.succ.inj length
    rw [walk, walk, length, table, table']
    have old := entries j
    cases present : (entry c.start.mem (entry c.start.mem n i &&& pageAddressMask) j).testBit 0 with
    | false =>
      rw [present, if_neg (by decide)] at old
      exact .inl ⟨walk_absent present, walk_absent (by rw [old]; rfl)⟩
    | true =>
      rw [present, if_pos rfl] at old
      exact ih present (below j present) old size

theorem Sound.deepCopy (s : c.Sound) (sub : used ⊆ c.fresh)
    (readable : ∀ i ∈ lowerEntries, (entry c.start.mem c.root i).testBit 0 = true → c.Readable 3 (entry c.start.mem c.root i))
    (pages : ∀ va < 2 ^ 47, ∀ e k, leafOf c.start.mem c.root va = some (e, k) → c.Spared (e &&& addrMask))
    (harmless : ∀ f ∈ used, c.Harmless f) (step : c.Step c.start m' (c.newTable :: used) used rest)
    (upper : ∀ i ∈ upperEntries, entry m'.mem c.newTable i = entry m'.mem c.root i) (root : c.Root m'.mem used) :
    DeepCopy c.start m' c.root c.newTable used pool.own := by
  have index : ∀ va, (vaddrIndices va).pml4.val = va / 2 ^ 39 % 512 := fun va => by
    rw [vaddrIndices, tableIndex, Fin.val_ofNat, Nat.shiftRight_eq_div_pow]
  have agree : ∀ va < 2 ^ 47, c.Agree m'.mem used (leafOf c.start.mem c.root va) (leafOf m'.mem c.newTable va) := by
    intro va low
    have lower : (vaddrIndices va).pml4 ∈ lowerEntries := by
      have place := index va
      rcases lower_or_upper (vaddrIndices va).pml4 with ⟨inside, _⟩ | ⟨_, _, high⟩
      · exact inside
      · omega
    cases present : (entry c.start.mem c.root (vaddrIndices va).pml4).testBit 0 with
    | false => exact .inl ⟨walk_absent present, walk_absent (by rw [root.absent _ lower present]; rfl)⟩
    | true => exact (root.copied _ lower present).agree s sub present (readable _ lower present) rfl
  refine ⟨fun va low e k found => ?_, fun va low missing => ?_, fun va low high => ?_, fun x own off => ?_⟩
  · rcases agree va low with ⟨none, _⟩ | ⟨v, v', old, new, tidy, f, hf, rfl, bytes⟩
    · rw [found] at none
      cases none
    rw [found] at old
    cases old
    have spared := pages va low _ _ found
    obtain ⟨address, flags⟩ := copy_and (e := e) (s.aligned f (List.mem_cons_of_mem _ (sub hf))) (s.small f (sub hf))
    refine ⟨_, new, flags, by rw [address]; exact hf, fun x lt => ?_⟩
    rw [tidy] at bytes
    rw [address]
    exact bytes spared x lt
  · rcases agree va low with ⟨_, none⟩ | ⟨v, v', old, _⟩
    · exact none
    · rw [missing] at old
      cases old
  · have inside : (vaddrIndices va).pml4 ∈ upperEntries := by
      have place := index va
      rcases lower_or_upper (vaddrIndices va).pml4 with ⟨_, _, less⟩ | ⟨_, inside, _⟩
      · omega
      · exact inside
    rw [leafOf, leafOf, Indices.path, walk, walk, upper _ inside]
  · refine step.kept harmless x own fun f hf => ?_
    have := off f hf
    unfold pageAt
    rw [Set.mem_Ico]
    omega

end Copying

/-! ### Sources -/

/-- A hierarchy without large pages in its lower half. -/
structure Source (m : Machine) (root : Nat) : Prop where
  tree : Tree m.mem root
  plain : Plain m.mem root
  tidy : Tidy m.mem root
  level : Level m root 1
  lower : ∀ va < 2 ^ 47, ∀ e k, leafOf m.mem root va = some (e, k) → k = 0

def LowerPath (p : List (Fin 512)) : Prop := ∃ a q, p = a :: q ∧ a.val < 256

/-- The tables that a call reads: not the page tables of the upper half. -/
def Reads (l : Nat) (p : List (Fin 512)) : Prop := 1 ≤ l ∨ LowerPath p

variable {pool : FramePool} {c : Copying pool} {m m' : Machine} {root newTable l n f t : Nat} {p : List (Fin 512)}
  {i : Fin 512}
  {fs : List Nat}

theorem LowerPath.append (h : LowerPath p) (q : List (Fin 512)) : LowerPath (p ++ q) := by
  obtain ⟨a, r, rfl, low⟩ := h
  exact ⟨a, r ++ q, rfl, low⟩

theorem LowerPath.address (h : LowerPath p) (length : p.length = 4) : ∃ va < 2 ^ 47, (vaddrIndices va).path = p := by
  obtain ⟨a, q, rfl, low⟩ := h
  match q, length with
  | [b, c, d], _ =>
    have ends := b.isLt
    have ends' := c.isLt
    have ends'' := d.isLt
    refine ⟨offsetToVirtualAddress ⟨a, b, c, d⟩, ?_, ?_⟩
    · rw [offsetToVirtualAddress_eq]
      dsimp only
      omega
    · rw [← virtualAddressToOffsets_eq, virtualAddressToOffsets_offsetToVirtualAddress]
      rfl

theorem Source.points (src : Source m root) (reach : Reached m.mem root (l + 1) p n) (lower : LowerPath (p ++ [i]))
    (present : (entry m.mem n i).testBit 0 = true) :
    slot (l + 1) (entry m.mem n i) = .table (entry m.mem n i &&& pageAddressMask) := by
  have depth := reach.length
  obtain ⟨va, low, path⟩ := (lower.append (List.replicate (l + 1) 0)).address (by simp; omega)
  rw [List.append_assoc] at path
  have lower : ∀ e k, leafOf m.mem root va = some (e, k) → k ≤ l := fun e k found => by
    rw [src.lower va low e k found]
    exact Nat.zero_le l
  have small := not_huge src.plain reach path lower present
  have points := slot_of_table present (Nat.succ_ne_zero l) small
  rw [points, and_pageAddressMask (src.plain reach points).2.2]

theorem Source.readable (src : Source c.start c.root)
    (spared : ∀ {l p n}, Reached c.start.mem c.root l p n → Reads l p → c.Spared n)
    (reach : Reached c.start.mem c.root l p n) (lower : LowerPath (p ++ [i]))
    (present : (entry c.start.mem n i).testBit 0 = true) : c.Readable l (entry c.start.mem n i) := by
  induction l generalizing p n i with
  | zero =>
    have tidy := src.tidy i reach
    rwa [TidyEntry, if_pos present] at tidy
  | succ l ih =>
    have points := src.points reach lower present
    have below := reach.step i points
    exact ⟨points, spared below (.inr lower), fun j there => ih below (lower.append [j]) there⟩

theorem getOrNullifyEntry_points {c : Nat} (plain : Plain m.mem root) (reach : Reached m.mem root l p n)
    (points : slot l (entry m.mem n i) = .table c) : m.getOrNullifyEntry n i = some c := by
  obtain ⟨present, _, rfl, _⟩ := slot_table points
  rw [getOrNullifyEntry_present present, and_pageAddressMask (plain reach points).2.2]

theorem findPageTable_reached {o : Indices} (plain : Plain m.mem root)
    (reach : Reached m.mem root 0 [o.pml4, o.pdpt, o.pd] n) :
    m.findPageTable root o = some n := by
  obtain ⟨pd, reach₁, third⟩ := Reach.parent (p := [o.pml4, o.pdpt]) reach
  obtain ⟨pdp, reach₂, second⟩ := Reach.parent (p := [o.pml4]) reach₁
  obtain ⟨_, reach₃, first⟩ := Reach.parent (p := []) reach₂
  obtain ⟨_, rfl⟩ := reach₃.unique .root
  unfold findPageTable
  rw [getOrNullifyEntry_points plain reach₃ first, Option.bind_eq_bind, Option.bind_some,
    getOrNullifyEntry_points plain reach₂ second, Option.bind_some]
  exact getOrNullifyEntry_points plain reach₁ third

theorem Source.lands_path (src : Source m root) (lands : landsIn m root f = some t) : ∃ pdp pd,
    m.getOrNullifyEntry root (directOffsets f).pml4 = some pdp ∧ m.getOrNullifyEntry pdp (directOffsets f).pdpt = some pd ∧
      m.getOrNullifyEntry pd (directOffsets f).pd = some t ∧ Reached m.mem root 2 [(directOffsets f).pml4] pdp ∧
      Reached m.mem root 1 [(directOffsets f).pml4, (directOffsets f).pdpt] pd := by
  obtain ⟨pdp, pd, first, second, third⟩ := findPageTable_some lands
  obtain ⟨present, rfl⟩ := getOrNullifyEntry_some first
  obtain ⟨present', rfl⟩ := getOrNullifyEntry_some second
  have points := slot_root present
  have reach : Reached m.mem root 2 [(directOffsets f).pml4]
      (entry m.mem root (directOffsets f).pml4 &&& pageAddressMask) := by
    rw [and_pageAddressMask (src.plain .root points).2.2]
    exact Reach.step _ .root points
  have path : (vaddrIndices (translateToHighHalfMemoryAddress f)).path =
      [(directOffsets f).pml4] ++ (directOffsets f).pdpt :: [(directOffsets f).pd, (directOffsets f).pt] := by
    rw [directOffsets, virtualAddressToOffsets_eq]
    rfl
  have small := not_huge src.plain reach path (fun e k found => src.level _ e k found) present'
  have points' := slot_of_table (l := 2) present' (by decide) small
  refine ⟨_, _, first, second, third, reach, ?_⟩
  have below := reach.step _ points'
  rwa [← and_pageAddressMask (src.plain reach points').2.2] at below

theorem Source.lands_steady (src : Source c.start c.root)
    (spared : ∀ {l p n}, Reached c.start.mem c.root l p n → Reads l p → c.Spared n)
    (lands : landsIn c.start c.root f = some t) (steady : c.Steady m.mem) : landsIn m c.root f = some t := by
  obtain ⟨pdp, pd, first, second, third, reach₂, reach₁⟩ := src.lands_path lands
  have same : ∀ n i, c.Spared n → m.getOrNullifyEntry n i = c.start.getOrNullifyEntry n i := fun n i off => by
    unfold getOrNullifyEntry
    rw [steady.entry off]
  unfold landsIn findPageTable
  rw [same _ _ (spared .root (.inl (by decide))), first, Option.bind_eq_bind, Option.bind_some,
    same _ _ (spared reach₂ (.inl (by decide))), second, Option.bind_some,
    same _ _ (spared reach₁ (.inl (Nat.le_refl 1))), third]

/-! ### The direct map -/

theorem translateToHighHalfMemoryAddress_eq (small : f < 2 ^ 47) :
    translateToHighHalfMemoryAddress f = higherHalfMemoryOffset + f := by
  unfold translateToHighHalfMemoryAddress add64 higherHalfMemoryOffset
  omega

theorem directOffsets_eq (f : Nat) : directOffsets f = vaddrIndices (translateToHighHalfMemoryAddress f) :=
  virtualAddressToOffsets_eq

theorem directOffsets_upper (small : f < 2 ^ 47) : 256 ≤ (directOffsets f).pml4.val := by
  rw [directOffsets_eq, translateToHighHalfMemoryAddress_eq small, vaddrIndices, tableIndex, Fin.val_ofNat,
    Nat.shiftRight_eq_div_pow]
  unfold higherHalfMemoryOffset
  omega

theorem directOffsets_pt (small : f < 2 ^ 47) : (directOffsets f).pt.val = f / pageSize % 512 := by
  rw [directOffsets_eq, translateToHighHalfMemoryAddress_eq small, vaddrIndices]
  dsimp only
  rw [tableIndex, Fin.val_ofNat, Nat.shiftRight_eq_div_pow]
  unfold higherHalfMemoryOffset pageSize
  omega

theorem leaf2m_pageAddressMask {pa : Nat} (aligned : pa % page2m = 0) (small : pa < 2 ^ 52) :
    leaf2m pa pteNX &&& pageAddressMask = pa := by
  apply Nat.eq_of_testBit_eq
  intro b
  have low : b < 21 → pa.testBit b = false := fun lt => Bits.testBit_of_mod (k := 21) aligned lt
  have high : 52 ≤ b → pa.testBit b = false := fun le =>
    Nat.testBit_lt_two_pow (Nat.lt_of_lt_of_le small (Nat.pow_le_pow_right (by decide) le))
  have flag : pteNX.testBit b = decide (b = 63) := by
    rw [pteNX, Nat.testBit_two_pow]
    exact decide_eq_decide.mpr eq_comm
  rw [show pageAddressMask = Bits.field 12 63 by decide, Nat.testBit_and, Bits.testBit_field (by decide), leaf2m_testBit, flag]
  by_cases inside : 13 ≤ b ∧ b < 52
  · rw [if_pos inside, decide_eq_true (show 12 ≤ b ∧ b < 63 by omega), Bool.and_true]
  · have none : pa.testBit b = false := by
      by_cases below : b < 21
      · exact low below
      · exact high (by omega)
    rw [if_neg inside, none]
    by_cases range : 12 ≤ b ∧ b < 63
    · simp [show b ≠ 63 by omega, show b ≠ 0 by omega, show b ≠ 1 by omega, show b ≠ 7 by omega]
    · rw [decide_eq_false range, Bool.and_false]

/-- The frame is in the direct map as `map_hhdm` enters pages. A 2 MiB page that holds it does
not begin with a table or with records of the supplier. -/
def InDirectMap (pool : FramePool) (m : Machine) (root f : Nat) : Prop :=
  (∃ e, leafOf m.mem root (translateToHighHalfMemoryAddress f) = some (e, 0)) ∨
    leafOf m.mem root (translateToHighHalfMemoryAddress f) = some (leaf2m (alignDown f page2m) pteNX, 1) ∧
      (∀ l p, ¬ Reached m.mem root l p (alignDown f page2m)) ∧ ∀ x ∈ pageAt (alignDown f page2m), x ∉ pool.own

theorem Source.lands_large (src : Source m root) (small : f < 2 ^ 47)
    (large : leafOf m.mem root (translateToHighHalfMemoryAddress f) = some (leaf2m (alignDown f page2m) pteNX, 1)) :
    landsIn m root f = some (alignDown f page2m) := by
  have below : alignDown f page2m ≤ f := Nat.div_mul_le_self _ _
  have aligned : alignDown f page2m % page2m = 0 := Nat.mul_mod_left _ _
  rw [landsIn, directOffsets_eq, findPageTable_large ((Plain.large_iff src.plain .root rfl).mpr large),
    leaf2m_pageAddressMask aligned (by omega)]

theorem Source.lands_small {e : Nat} (src : Source m root)
    (found : leafOf m.mem root (translateToHighHalfMemoryAddress f) = some (e, 0)) :
    ∃ pt, landsIn m root f = some pt ∧
      Reached m.mem root 0 [(directOffsets f).pml4, (directOffsets f).pdpt, (directOffsets f).pd] pt := by
  obtain ⟨pt, reach⟩ := leafOf_page found
  rw [← directOffsets_eq] at reach
  exact ⟨pt, findPageTable_reached src.plain reach, reach⟩

theorem InDirectMap.cases (h : InDirectMap pool m root f) (src : Source m root) (small : f < 2 ^ 47) :
    ∃ t, landsIn m root f = some t ∧
      (Reached m.mem root 0 [(directOffsets f).pml4, (directOffsets f).pdpt, (directOffsets f).pd] t ∨
        t = alignDown f page2m ∧ (∀ l p, ¬ Reached m.mem root l p t) ∧ ∀ x ∈ pageAt t, x ∉ pool.own) := by
  rcases h with ⟨e, found⟩ | ⟨large, noTable, own⟩
  · obtain ⟨pt, lands, reach⟩ := src.lands_small found
    exact ⟨pt, lands, .inl reach⟩
  · exact ⟨_, src.lands_large small large, .inr ⟨rfl, noTable, own⟩⟩

theorem InDirectMap.injective {g : Nat} (src : Source m root) (hf : InDirectMap pool m root f) (hg : InDirectMap pool m root g)
    (small : f < 2 ^ 47) (small' : g < 2 ^ 47) (aligned : f % pageSize = 0) (aligned' : g % pageSize = 0)
    (lands : landsIn m root f = some t) (lands' : landsIn m root g = some t)
    (index : (directOffsets f).pt = (directOffsets g).pt) :
    f = g := by
  have pt := directOffsets_pt small
  have pt' := directOffsets_pt small'
  rw [index] at pt
  obtain ⟨t₁, found, kind⟩ := hf.cases src small
  obtain ⟨t₂, found', kind'⟩ := hg.cases src small'
  rw [lands] at found
  rw [lands'] at found'
  cases found
  cases found'
  rcases kind with reach | ⟨head, noTable, _⟩
  · rcases kind' with reach' | ⟨_, noTable, _⟩
    · have path := src.tree.unshared reach reach'
      have same : (vaddrIndices (translateToHighHalfMemoryAddress f)).path =
          (vaddrIndices (translateToHighHalfMemoryAddress g)).path := by
        rw [← directOffsets_eq, ← directOffsets_eq, Indices.path, Indices.path, index]
        simpa using path
      rw [path_eq_iff, translateToHighHalfMemoryAddress_eq small, translateToHighHalfMemoryAddress_eq small'] at same
      unfold SamePage higherHalfMemoryOffset pageSize at *
      omega
    · exact absurd reach (noTable _ _)
  · rcases kind' with reach' | ⟨head', _, _⟩
    · exact absurd reach' (noTable _ _)
    · rw [head] at head'
      unfold alignDown page2m pageSize at *
      omega

/-! ### The call -/

/-- The frames `fs` are those that the supplier hands out for the copy. They and the new root
are nothing that the source uses, and its records lie elsewhere. -/
structure FreshFrames (pool : FramePool) (m : Machine) (root newTable : Nat) (fs : List Nat) : Prop where
  hands : ∃ rest, pool.hands (fs ++ rest) m
  count : fs.length = frameCount m.mem root
  nodup : (newTable :: fs).Nodup
  aligned : ∀ f ∈ newTable :: fs, f % pageSize = 0
  small : ∀ f ∈ fs, f < 2 ^ 47
  own : ∀ f ∈ newTable :: fs, ∀ x ∈ pageAt f, x ∉ pool.own
  tables : ∀ {l p n}, Reached m.mem root l p n → n ∉ newTable :: fs ∧ ∀ x ∈ pageAt n, x ∉ pool.own
  pages : ∀ va < 2 ^ 47, ∀ e k, leafOf m.mem root va = some (e, k) →
    (e &&& addrMask) ∉ newTable :: fs ∧ ∀ x ∈ pageAt (e &&& addrMask), x ∉ pool.own

/-- The entry that mapping the frame `f` stores is lost with the frame's old contents, or it
was there before, in a page that is neither the supplier's nor one of the copy. -/
def Unmarked (pool : FramePool) (m : Machine) (root newTable : Nat) (fs : List Nat) (f : Nat) : Prop :=
  ∃ t, landsIn m root f = some t ∧ (t = f ∨ t ∉ newTable :: fs ∧ (∀ x ∈ pageAt t, x ∉ pool.own) ∧
    entry m.mem t (directOffsets f).pt = directEntry f)

/-- It is stored in a page that is not part of the copy, and is new there. -/
def Marks (m : Machine) (root newTable : Nat) (fs : List Nat) (f : Nat) : Prop :=
  ∃ t, landsIn m root f = some t ∧ t ∉ newTable :: fs ∧ entry m.mem t (directOffsets f).pt ≠ directEntry f

/-- The call, with the pages in which the entries of `strays` land. -/
def copying (pool : FramePool) (m : Machine) (root newTable : Nat) (fs strays : List Nat) : Copying pool where
  start := m
  root := root
  newTable := newTable
  fresh := fs
  inert := {x | ∃ f ∈ strays, ∃ t, landsIn m root f = some t ∧ t ∉ newTable :: fs ∧ x ∈ pageAt t}

section Call

variable {strays : List Nat} (src : Source m root) (fresh : FreshFrames pool m root newTable fs)

include fresh

theorem FreshFrames.off_pages {x : Nat} (aligned : n % pageSize = 0) (apart : n ∉ newTable :: fs) (inside : x ∈ pageAt n)
    (hf : f ∈ newTable :: fs) : x ∉ pageAt f :=
  Copying.pageAt_disjoint aligned (fresh.aligned f hf) (fun same => apart (same ▸ hf)) inside

include src

section Strays

variable (direct : ∀ f ∈ strays, f ∈ fs ∧ InDirectMap pool m root f)

include direct

theorem FreshFrames.spared (reach : Reached m.mem root l p n) (reads : Reads l p) :
    (copying pool m root newTable fs strays).Spared n := by
  have aligned := src.tree.node_aligned reach
  obtain ⟨apart, own⟩ := fresh.tables reach
  rintro x inside (records | ⟨f, hf, t, lands, off, page⟩ | ⟨f, hf, page⟩)
  · exact own x inside records
  · obtain ⟨member, mapped⟩ := direct f hf
    have small := fresh.small f member
    refine Copying.pageAt_disjoint aligned (findPageTable_aligned lands) ?_ inside page
    rintro rfl
    obtain ⟨t, lands', kind⟩ := mapped.cases src small
    rw [lands] at lands'
    cases lands'
    rcases kind with reach' | ⟨_, noTable, _⟩
    · -- A page table of the upper half is not read.
      obtain rfl := src.tree.unshared reach reach'
      obtain ⟨level, _⟩ := reach.unique reach'
      rcases reads with above | ⟨a, q, path, low⟩
      · omega
      · have upper := directOffsets_upper small
        obtain ⟨rfl, _⟩ := List.cons.inj path
        omega
    · exact noTable _ _ reach
  · exact fresh.off_pages aligned apart inside hf page

theorem FreshFrames.sound : (copying pool m root newTable fs strays).Sound where
  aligned := fresh.aligned
  small f hf := Nat.lt_trans (fresh.small f hf) (by decide)
  nodup := fresh.nodup
  own := fresh.own
  inert := by
    rintro x ⟨f, hf, t, lands, off, page⟩
    obtain ⟨member, mapped⟩ := direct f hf
    obtain ⟨t, lands', kind⟩ := mapped.cases src (fresh.small f member)
    rw [lands] at lands'
    cases lands'
    rcases kind with reach | ⟨_, _, own⟩
    · exact (fresh.tables reach).2 x page
    · exact own x page
  root := fresh.spared src direct .root (.inl (by decide))
  lands _ _ lands _ steady := Source.lands_steady (c := copying pool m root newTable fs strays) src
    (fun reach reads => fresh.spared src direct reach reads) lands steady

theorem FreshFrames.readable (lower : i ∈ lowerEntries) (present : (entry m.mem root i).testBit 0 = true) :
    (copying pool m root newTable fs strays).Readable 3 (entry m.mem root i) := by
  refine Source.readable (c := copying pool m root newTable fs strays) src
    (fun reach reads => fresh.spared src direct reach reads) .root ⟨i, [], rfl, ?_⟩ present
  rcases lower_or_upper i with ⟨_, _, low⟩ | ⟨off, _⟩
  · exact low
  · exact absurd lower off

theorem FreshFrames.run (quiet : ∀ f ∈ fs, (copying pool m root newTable fs strays).Quiet f) :
    ∃ m' rest, m.pagingDuplicate (some pool.supply) root newTable = .ok m' ∧
      (copying pool m root newTable fs strays).Step m m' (newTable :: fs) fs rest ∧
      (∀ i ∈ upperEntries, entry m'.mem newTable i = entry m'.mem root i) ∧
      ((∀ f ∈ fs, (copying pool m root newTable fs strays).Harmless f) →
        (copying pool m root newTable fs strays).Root m'.mem fs) := by
  obtain ⟨rest, hands⟩ := fresh.hands
  obtain ⟨m', run, after⟩ := (fresh.sound src direct).run (fun i lower present => fresh.readable src direct lower present)
    fresh.count (List.Sublist.refl _) quiet hands
  exact ⟨m', rest, run, after⟩

end Strays

theorem FreshFrames.copies (unmarked : ∀ f ∈ fs, Unmarked pool m root newTable fs f) :
    ∃ m', m.pagingDuplicate (some pool.supply) root newTable = .ok m' ∧
      DeepCopy m m' root newTable fs pool.own := by
  have none : ∀ f ∈ ([] : List Nat), f ∈ fs ∧ InDirectMap pool m root f := fun f hf => (List.not_mem_nil hf).elim
  have harmless : ∀ f ∈ fs, (copying pool m root newTable fs []).Harmless f := by
    intro f hf
    obtain ⟨t, lands, here | ⟨off, own, already⟩⟩ := unmarked f hf
    · exact ⟨t, lands, .inl here⟩
    · refine ⟨t, lands, .inr ⟨?_, already⟩⟩
      rintro x page (records | ⟨g, hg, _⟩ | ⟨g, hg, there⟩)
      · exact own x page records
      · exact List.not_mem_nil hg
      · exact fresh.off_pages (findPageTable_aligned lands) off page hg there
  have sound := fresh.sound src none
  obtain ⟨m', rest, run, step, upper, copied⟩ := fresh.run src none fun f hf => (harmless f hf).quiet hf
  refine ⟨m', run, sound.deepCopy (List.Subset.refl fs) (fun i lower present => fresh.readable src none lower present)
    (fun va low e k found => ?_) harmless step upper (copied harmless)⟩
  obtain ⟨apart, own⟩ := fresh.pages va low e k found
  have aligned : (e &&& addrMask) % pageSize = 0 := by
    rw [and_addrMask]
    exact Nat.mul_mod_left _ _
  rintro x inside (records | ⟨f, hf, _⟩ | ⟨f, hf, page⟩)
  · exact own x inside records
  · exact List.not_mem_nil hf
  · exact fresh.off_pages aligned apart inside hf page

variable (direct : ∀ f ∈ fs, InDirectMap pool m root f)

include direct

theorem FreshFrames.outside (hf : f ∈ fs) (lands : landsIn m root f = some t) (off : t ∉ newTable :: fs) :
    (copying pool m root newTable fs strays).Outside t := by
  have aligned := findPageTable_aligned lands
  obtain ⟨t, lands', kind⟩ := (direct f hf).cases src (fresh.small f hf)
  rw [lands] at lands'
  cases lands'
  refine ⟨aligned, fun x inside => ?_, fun x inside g hg => fresh.off_pages aligned off inside hg⟩
  rcases kind with reach | ⟨_, _, own⟩
  · exact (fresh.tables reach).2 x inside
  · exact own x inside

theorem FreshFrames.stores : ∃ m', m.pagingDuplicate (some pool.supply) root newTable = .ok m' ∧
    ∀ f ∈ fs, ∀ t, landsIn m root f = some t → t ∉ newTable :: fs → entry m'.mem t (directOffsets f).pt = directEntry f := by
  obtain ⟨m', rest, run, step, _⟩ := fresh.run src (fun f hf => ⟨hf, direct f hf⟩) fun f hf => by
    obtain ⟨t, lands, _⟩ := (direct f hf).cases src (fresh.small f hf)
    by_cases inside : t ∈ newTable :: fs
    · exact ⟨t, lands, .inl inside⟩
    · exact ⟨t, lands, .inr (.inl fun x page => ⟨f, hf, t, lands, inside, page⟩)⟩
  refine ⟨m', run, fun f hf t lands off => ?_⟩
  refine (step.words t _ (fresh.outside src direct hf lands off)).trans
    (Copying.stamped_of_mem hf lands (fun g hg lands' index => ?_) _)
  exact InDirectMap.injective src (direct f hf) (direct g hg) (fresh.small f hf) (fresh.small g hg)
    (fresh.aligned f (List.mem_cons_of_mem _ hf)) (fresh.aligned g (List.mem_cons_of_mem _ hg)) lands lands' index

theorem FreshFrames.kept (copy : DeepCopy m m' root newTable fs pool.own) (hf : f ∈ fs) (lands : landsIn m root f = some t)
    (off : t ∉ newTable :: fs) : entry m'.mem t i = entry m.mem t i := by
  have outside : (copying pool m root newTable fs []).Outside t := fresh.outside src direct hf lands off
  refine entry_congr fun x low high => copy.bytes x (outside.own x ⟨low, high⟩) fun g hg => ?_
  have page := outside.pages x ⟨low, high⟩ g hg
  unfold pageAt at page
  rw [Set.mem_Ico] at page
  change x < g ∨ g + pageSize ≤ x
  omega

theorem FreshFrames.copies_iff (decided : (∀ f ∈ fs, ∀ t, landsIn m root f = some t → t ∈ newTable :: fs → t = f) ∨
      ∃ f ∈ fs, Marks m root newTable fs f) :
    ∃ m', m.pagingDuplicate (some pool.supply) root newTable = .ok m' ∧
      (DeepCopy m m' root newTable fs pool.own ↔ ∀ f ∈ fs, Unmarked pool m root newTable fs f) := by
  by_cases marks : ∃ f ∈ fs, Marks m root newTable fs f
  · obtain ⟨m', run, stored⟩ := fresh.stores src direct
    obtain ⟨f, hf, t, lands, off, new⟩ := marks
    refine ⟨m', run, fun copy => absurd ?_ new, fun unmarked => ?_⟩
    · rw [← fresh.kept src direct copy hf lands off]
      exact stored f hf t lands off
    obtain ⟨t', lands', here⟩ := unmarked f hf
    rw [lands] at lands'
    cases lands'
    rcases here with rfl | ⟨_, _, already⟩
    · exact absurd (List.mem_cons_of_mem _ hf) off
    · exact absurd already new
  · have apart := decided.resolve_right marks
    have unmarked : ∀ f ∈ fs, Unmarked pool m root newTable fs f := by
      intro f hf
      obtain ⟨t, lands, _⟩ := (direct f hf).cases src (fresh.small f hf)
      by_cases inside : t ∈ newTable :: fs
      · exact ⟨t, lands, .inl (apart f hf t lands inside)⟩
      · have outside : (copying pool m root newTable fs []).Outside t := fresh.outside src direct hf lands inside
        refine ⟨t, lands, .inr ⟨inside, outside.own, ?_⟩⟩
        by_contra new
        exact marks ⟨f, hf, t, lands, inside, new⟩
    obtain ⟨m', run, copy⟩ := fresh.copies src unmarked
    exact ⟨m', run, fun _ => unmarked, fun _ => copy⟩

end Call

end Voyager.Machine
