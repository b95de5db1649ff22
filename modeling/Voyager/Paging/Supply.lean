import Voyager.Frames.Runs
import Voyager.Paging.MapPage
import Voyager.Paging.Runtime

/-!
# Tables from the frame allocator

A hierarchy whose tables are neither free frames nor part of the bitmaps keeps that property.
-/

namespace Voyager.Machine

open Lib Lib.ByteSpace Lib.RadixTable Paging

structure Runtime (m : Machine) (root : Nat) (F : Finset Nat) : Prop where
  managed : Managed m F
  tree : Tree m.mem root
  plain : Plain m.mem root
  tables : ∀ {l p n}, Reached m.mem root l p n → n / pageSize ∉ F ∧ ∀ x,
    x / pageSize = n / pageSize → m.OutsideBitmaps x
  free : ∀ x, x / pageSize ∈ F → m.OutsideBitmaps x

structure Idle (m : Machine) (root : Nat) (F : Finset Nat) (x : Nat) : Prop where
  bitmaps : m.OutsideBitmaps x
  free : x / pageSize ∉ F
  tables : ∀ {l p n}, Reached m.mem root l p n → x / pageSize ≠ n / pageSize

structure Extends (m m' : Machine) (root : Nat) (F F' T : Finset Nat) : Prop where
  runtime : Runtime m' root F'
  union : F = F' ∪ T
  disjoint : Disjoint F' T
  tables : ∀ {l p n}, Reached m'.mem root l p n → Reached m.mem root l p n ∨ n / pageSize ∈ T
  kept : ∀ {l p n}, Reached m.mem root l p n → Reached m'.mem root l p n
  linked : ∀ i ∈ T, ∃ l p, Reached m'.mem root l p (i * pageSize)
  early : m'.early = m.early
  paging : m'.paging = m.paging
  placed : m'.bitmapsAt = m.bitmapsAt
  bytes : ∀ x, Idle m root F x → m'.mem x = m.mem x

variable {m m' m'' : Machine} {root l n c v va x i : Nat} {p : List (Fin 512)} {idx : Fin 512} {F F' F'' T T' : Finset Nat}

theorem Extends.refl (h : Runtime m root F) : Extends m m root F F ∅ :=
  ⟨h, by simp, by simp, .inl, fun r => r, by simp, rfl, rfl, rfl, fun _ _ => rfl⟩

theorem Extends.outside (h : Extends m m' root F F' T) (x : Nat) :
    m'.OutsideBitmaps x ↔ m.OutsideBitmaps x := outside_congr h.placed x

theorem Idle.extends (h : Idle m root F x) (e : Extends m m' root F F' T) : Idle m' root F' x where
  bitmaps := (e.outside x).mpr h.bitmaps
  free inside := h.free (by rw [e.union]; exact Finset.mem_union_left _ inside)
  tables r same := by
    rcases e.tables r with old | new
    · exact h.tables old same
    · apply h.free
      rw [e.union, same]
      exact Finset.mem_union_right _ new

theorem Extends.trans (h : Extends m m' root F F' T) (h' : Extends m' m'' root F' F'' T') :
    Extends m m'' root F F'' (T ∪ T') where
  runtime := h'.runtime
  union := by
    rw [h.union, h'.union]
    ext i
    simp only [Finset.mem_union]
    tauto
  disjoint := by
    have apart := h.disjoint
    rw [h'.union, Finset.disjoint_union_left] at apart
    exact Finset.disjoint_union_right.mpr ⟨apart.1, h'.disjoint⟩
  tables r := by
    rcases h'.tables r with old | new
    · exact (h.tables old).imp_right (Finset.mem_union_left T')
    · exact .inr (Finset.mem_union_right _ new)
  kept r := h'.kept (h.kept r)
  linked i hi := by
    rcases Finset.mem_union.mp hi with old | new
    · obtain ⟨l, p, r⟩ := h.linked i old
      exact ⟨l, p, h'.kept r⟩
    · exact h'.linked i new
  early := h'.early.trans h.early
  paging := h'.paging.trans h.paging
  placed := h'.placed.trans h.placed
  bytes x idle := (h'.bytes x (idle.extends h)).trans (h.bytes x idle)

theorem Extends.card (h : Extends m m' root F F' T) : F.card = F'.card + T.card := by
  rw [h.union, Finset.card_union_of_disjoint h.disjoint]

theorem Extends.sub (h : Extends m m' root F F' T) : F' ⊆ F := by
  rw [h.union]
  exact Finset.subset_union_left

theorem in_page (aligned : n % pageSize = 0) : n ≤ x ∧ x < n + pageSize ↔ x / pageSize = n / pageSize := by
  unfold pageSize at *
  omega

theorem frame_page (i : Nat) : i * pageSize / pageSize = i := Nat.mul_div_cancel i (by decide)

theorem Runtime.other (h : Runtime m root F) (frames : m'.frames = m.frames)
    (bitmaps : ∀ x, ¬ m.OutsideBitmaps x → m'.mem x = m.mem x)
    (same : ∀ {l p n}, Reached m.mem root l p n → ∀ x, x / pageSize = n / pageSize → m'.mem x = m.mem x) :
    Runtime m' root F ∧ Grown m.mem m'.mem root (fun _ => False) := by
  have grown : Grown m.mem m'.mem root (fun _ => False) := h.tree.same fun r x low high =>
    same r x ((in_page (h.tree.node_aligned r)).mp ⟨low, high⟩)
  have outside : ∀ x, m'.OutsideBitmaps x ↔ m.OutsideBitmaps x := outside_congr (by rw [bitmapsAt, frames]; rfl)
  have old : ∀ {l p n}, Reached m'.mem root l p n → Reached m.mem root l p n :=
    fun r => (grown.tables r).resolve_right id
  exact ⟨⟨h.managed.other frames bitmaps, grown.tree, grown.plain h.plain,
    fun r => ⟨(h.tables (old r)).1, fun x page => (outside x).mpr ((h.tables (old r)).2 x page)⟩,
    fun x inside => (outside x).mpr (h.free x inside)⟩, grown⟩

/-! ### Frames -/

structure Taken (m m' : Machine) (root : Nat) (F : Finset Nat) (i : Nat) : Prop where
  member : i ∈ F
  lowest : ∀ j ∈ F, i ≤ j
  runtime : Runtime m' root (F.erase i)
  grown : Grown m.mem m'.mem root (fun _ => False)
  early : m'.early = m.early
  paging : m'.paging = m.paging
  placed : m'.bitmapsAt = m.bitmapsAt
  bytes : ∀ x, m.OutsideBitmaps x → m'.mem x = m.mem x

theorem Taken.outside (h : Taken m m' root F i) (x : Nat) :
    m'.OutsideBitmaps x ↔ m.OutsideBitmaps x := outside_congr h.placed x

theorem frameAlloc_taken (h : Runtime m root F) (run : m.frameAlloc = .ok (c, m')) :
    ∃ i, c = i * pageSize ∧ Taken m m' root F i := by
  rcases F.eq_empty_or_nonempty with rfl | ne
  · rw [frameAlloc_empty h.managed] at run
    cases run
  rw [frameAlloc_spec h.managed ne] at run
  cases run
  have member := F.min'_mem ne
  have lowest : ∀ j ∈ F, F.min' ne ≤ j := fun j hj => F.min'_le j hj
  obtain ⟨managed, same⟩ := h.managed.take member lowest
  have grown : Grown m.mem (m.take (F.min' ne)).mem root (fun _ => False) := h.tree.same fun r x low high =>
    same.kept x ((h.tables r).2 x ((in_page (h.tree.node_aligned r)).mp ⟨low, high⟩))
  have outside : ∀ x, (m.take (F.min' ne)).OutsideBitmaps x ↔ m.OutsideBitmaps x := fun x => same.outside
  have old : ∀ {l p n}, Reached (m.take (F.min' ne)).mem root l p n → Reached m.mem root l p n := fun r =>
    (grown.tables r).resolve_right id
  refine ⟨F.min' ne, rfl, member, lowest, ⟨managed, grown.tree, grown.plain h.plain, fun r => ?_,
    fun x inside => ?_⟩, grown,
    rfl, rfl, same.placed, same.kept⟩
  · obtain ⟨apart, off⟩ := h.tables (old r)
    exact ⟨fun inside => apart (Finset.mem_of_mem_erase inside), fun x page => (outside x).mpr (off x page)⟩
  · exact (outside x).mpr (h.free x (Finset.mem_of_mem_erase inside))

theorem frameAlloc_returns (h : Managed m F) (ne : F.Nonempty) :
    ∃ r, m.frameAlloc = .ok r := ⟨_, frameAlloc_spec h ne⟩

/-! ### One table -/

theorem getOrAllocEntry_supplied {supplier : PhysPageSupplier} {m₁ : Machine} {frame flags : Nat}
    (absent : (entry m.mem n idx).testBit 0 = false)
    (supply : supplier m = .ok (frame, m₁)) (nonzero : frame ≠ 0) (apart : n + pageSize ≤ frame ∨ frame + pageSize ≤ n)
    (fits : frame < 2 ^ 64) (lt : (frame ||| (flags ||| pteP)) < 2 ^ 64) :
    ∃ mem', m.getOrAllocEntry (some supplier) n idx flags = .ok (frame &&& pageAddressMask, { m₁ with mem := mem' }) ∧
      Linked m₁.mem mem' n idx frame (frame ||| (flags ||| pteP)) := by
  have first : entry (Paging.setEntry m₁.mem n idx frame) n idx = frame := entry_setEntry fits
  have untouched : ∀ mem, entry (flat.fill mem frame 0 pageSize) n idx = entry mem n idx := fun mem => by
    apply entry_congr
    intro x low high
    rw [fill_page, if_neg (by omega)]
  refine ⟨flat.fill (Paging.setEntry (Paging.setEntry m₁.mem n idx frame) n idx (frame ||| (flags ||| pteP))) frame 0
    pageSize, ?_, ?_, fun x low high => ?_, fun x off off' => ?_⟩
  · unfold getOrAllocEntry pagingGetFreeFrame
    dsimp only
    rw [if_pos (by rw [pteP, Bits.and_bit_eq_zero]; exact absent), bind_eq supply]
    dsimp only
    rw [if_neg nonzero]
    simp only [setEntry, first]
    rfl
  · rw [untouched, entry_setEntry lt]
  · exact fill_page.trans (if_pos ⟨low, high⟩)
  · rw [fill_page, if_neg (by omega), setEntry_of_ne off, setEntry_of_ne off]

theorem getOrAllocEntry_linked {flags : Nat} (absent : (entry m.mem n idx).testBit 0 = false)
    (run : m.getOrAllocEntry (some supplyFromFrame) n idx flags = .ok (c, m')) :
    ∃ frame m₁, m.frameAlloc = .ok (frame, m₁) ∧ (frame ≠ 0 → frame < 2 ^ 52 →
      (n + pageSize ≤ frame ∨ frame + pageSize ≤ n) → (frame ||| (flags ||| pteP)) < 2 ^ 64 →
      c = frame &&& pageAddressMask ∧ Linked m₁.mem m'.mem n idx frame (frame ||| (flags ||| pteP)) ∧
        m'.early = m₁.early ∧ m'.frames = m₁.frames ∧ m'.paging = m₁.paging) := by
  have taken : ∃ r, m.frameAlloc = .ok r := by
    unfold getOrAllocEntry at run
    dsimp only at run
    rw [if_pos (by rw [pteP, Bits.and_bit_eq_zero]; exact absent)] at run
    obtain ⟨r, alloc, _⟩ := bind_ok run
    exact ⟨r, alloc⟩
  obtain ⟨⟨frame, m₁⟩, alloc⟩ := taken
  refine ⟨frame, m₁, alloc, fun nonzero small apart lt => ?_⟩
  obtain ⟨mem', made, linked⟩ := getOrAllocEntry_supplied absent alloc nonzero apart
    (Nat.lt_trans small (by decide)) lt
  rw [show m.getOrAllocEntry (some supplyFromFrame) n idx flags = _ from made] at run
  cases run
  exact ⟨rfl, linked, rfl, rfl, rfl⟩

theorem Taken.link {e f : Nat} {m₁ : Machine} (h : Runtime m root F) (taken : Taken m m₁ root F i)
    (reach : Reached m.mem root (l + 1) p n) (absent : (entry m.mem n idx).testBit 0 = false)
    (frame : f = i * pageSize)
    (linked : Linked m₁.mem m'.mem n idx f e) (points : slot (l + 1) e = .table f) (plainEntry : PlainEntry e)
    (early : m'.early = m₁.early) (frames : m'.frames = m₁.frames) (paging : m'.paging = m₁.paging) :
    Extends m m' root F (F.erase i) {i} ∧ Reached m'.mem root l (p ++ [idx]) f ∧
      ∀ va, leafOf m'.mem root va = leafOf m.mem root va := by
  have aligned : f % pageSize = 0 := by rw [frame]; exact Nat.mul_mod_left _ _
  have page : f / pageSize = i := by rw [frame]; exact frame_page i
  have reach₁ := taken.grown.kept reach
  have old : ∀ {l p n}, Reached m₁.mem root l p n → Reached m.mem root l p n :=
    fun r => (taken.grown.tables r).resolve_right id
  have new : ∀ k q, ¬ Reached m₁.mem root k q f := fun k q r => (h.tables (old r)).1 (page ▸ taken.member)
  have same : entry m₁.mem n idx = entry m.mem n idx := entry_congr fun x low high =>
    taken.bytes x ((h.tables reach).2 x ((in_page (h.tree.node_aligned reach)).mp ⟨low, high⟩))
  obtain ⟨grown, reached⟩ := taken.grown.tree.link reach₁
    (by rw [same]; exact absent) aligned new linked points plainEntry
  have placed : m'.bitmapsAt = m.bitmapsAt := by
    rw [← taken.placed, bitmapsAt, frames]
    rfl
  have outside := outside_congr placed
  have bound := idx.isLt
  have tableAligned := h.tree.node_aligned reach
  -- Only the table's entry and the new frame change, and neither is part of the bitmaps.
  have rest : ∀ x, x / pageSize ≠ n / pageSize → x / pageSize ≠ i → m'.mem x = m₁.mem x := by
    intro x off off'
    apply linked.rest
    · unfold pageSize at *
      omega
    · unfold pageSize at *
      omega
  have bitmaps : ∀ x, ¬ m₁.OutsideBitmaps x → m'.mem x = m₁.mem x := by
    intro x inside
    rw [taken.outside] at inside
    apply rest
    · exact fun same => inside ((h.tables reach).2 x same)
    · exact fun same => inside (h.free x (same ▸ taken.member))
  have tables : ∀ {l p k}, Reached m'.mem root l p k → Reached m.mem root l p k ∨ k = f :=
    fun r => (grown.tables r).imp_left old
  refine ⟨⟨⟨taken.runtime.managed.other frames bitmaps, grown.tree, grown.plain taken.runtime.plain, fun r => ?_,
    fun x inside => ?_⟩,
    ?_, ?_, fun r => ?_, fun r => grown.kept (taken.grown.kept r), fun j hj => ?_, early.trans taken.early,
      paging.trans taken.paging,
    placed, fun x idle => ?_⟩, reached, fun va => (grown.leaves va).trans (taken.grown.leaves va)⟩
  · rcases tables r with before | rfl
    · obtain ⟨apart, off⟩ := h.tables before
      exact ⟨fun inside => apart (Finset.mem_of_mem_erase inside), fun x same => (outside x).mpr (off x same)⟩
    · rw [page]
      exact ⟨Finset.notMem_erase i F, fun x same => (outside x).mpr (h.free x (same ▸ taken.member))⟩
  · exact (outside x).mpr (h.free x (Finset.mem_of_mem_erase inside))
  · rw [Finset.union_comm, ← Finset.insert_eq, Finset.insert_erase taken.member]
  · exact Finset.disjoint_singleton_right.mpr (Finset.notMem_erase i F)
  · rcases tables r with before | rfl
    · exact .inl before
    · exact .inr (Finset.mem_singleton.mpr page)
  · rw [Finset.mem_singleton.mp hj, ← frame]
    exact ⟨_, _, reached⟩
  · exact (rest x (idle.tables reach) fun same => idle.free (same ▸ taken.member)).trans (taken.bytes x idle.bitmaps)

theorem Runtime.frame_lt (h : Runtime m root F) (hi : i ∈ F) : i * pageSize < 2 ^ 52 := by
  have inside := h.managed.inside i hi
  have small := h.managed.small
  unfold pageSize
  omega

theorem getOrAllocEntry_taken (h : Runtime m root F) (zero : 0 ∉ F) (reach : Reached m.mem root (l + 1) p n)
    (absent : (entry m.mem n idx).testBit 0 = false)
    (run : m.getOrAllocEntry (some supplyFromFrame) n idx (pteW ||| pteU) = .ok (c, m')) :
    ∃ i m₁, c = i * pageSize ∧ Taken m m₁ root F i ∧ Linked m₁.mem m'.mem n idx c (c ||| (pteW ||| pteU ||| pteP)) ∧
      slot (l + 1) (c ||| (pteW ||| pteU ||| pteP)) = .table c ∧ PlainEntry (c ||| (pteW ||| pteU ||| pteP)) ∧
      m'.early = m₁.early ∧ m'.frames = m₁.frames ∧ m'.paging = m₁.paging := by
  obtain ⟨frame, m₁, alloc, linked⟩ := getOrAllocEntry_linked absent run
  obtain ⟨i, rfl, taken⟩ := frameAlloc_taken h alloc
  have nonzero : i ≠ 0 := fun none => zero (none ▸ taken.member)
  have fits := h.frame_lt taken.member
  have aligned := Nat.mul_mod_left i pageSize
  obtain ⟨points, plain⟩ := slot_tableEntry (f := pteW ||| pteU ||| pteP) (Nat.succ_ne_zero l) aligned fits
    (by decide) (by decide) (by decide)
  have apart : n + pageSize ≤ i * pageSize ∨ i * pageSize + pageSize ≤ n := by
    have ne : n / pageSize ≠ i := fun same => (h.tables reach).1 (same ▸ taken.member)
    have tableAligned := h.tree.node_aligned reach
    unfold pageSize at *
    omega
  obtain ⟨rfl, link, rest⟩ := linked (by unfold pageSize; omega) fits apart (Nat.lt_trans plain.2.2 (by decide))
  have address : i * pageSize &&& pageAddressMask = i * pageSize := by
    rw [and_pageAddressMask fits, and_addrMask]
    unfold pageSize at *
    omega
  rw [address]
  exact ⟨i, m₁, rfl, taken, link, points, plain, rest⟩

theorem getOrAllocEntry_spec {rest : List (Fin 512)} (h : Runtime m root F) (zero : 0 ∉ F)
    (reach : Reached m.mem root (l + 1) p n)
    (path : (vaddrIndices va).path = p ++ idx :: rest) (small : ∀ e k, leafOf m.mem root va = some (e, k) → k = 0)
    (run : m.getOrAllocEntry (some supplyFromFrame) n idx (pteW ||| pteU) = .ok (c, m')) :
    ∃ F' T, Extends m m' root F F' T ∧ T.card ≤ 1 ∧ Reached m'.mem root l (p ++ [idx]) c ∧
      ∀ va, leafOf m'.mem root va = leafOf m.mem root va := by
  cases present : (entry m.mem n idx).testBit 0 with
  | true =>
    have plain := not_huge h.plain reach path (fun e k found => by rw [small e k found]; exact Nat.zero_le l) present
    have points := slot_of_table present (Nat.succ_ne_zero l) plain
    unfold getOrAllocEntry at run
    dsimp only at run
    rw [if_neg (by rw [pteP, Bits.and_bit_eq_zero, present]; decide)] at run
    cases run
    rw [and_pageAddressMask (h.plain reach points).2.2]
    exact ⟨F, ∅, .refl h, by simp, reach.step idx points, fun _ => rfl⟩
  | false =>
    obtain ⟨i, m₁, frame, taken, link, points, plain, early, frames, paging⟩ :=
      getOrAllocEntry_taken h zero reach present run
    obtain ⟨grown, reached, leaves⟩ := taken.link h reach present frame link points plain early frames paging
    exact ⟨F.erase i, {i}, grown, by simp, reached, leaves⟩

theorem getOrAllocEntry_returns (n : Nat) (idx : Fin 512) (flags : Nat) (h : Managed m F) (ne : F.Nonempty) :
    ∃ r, m.getOrAllocEntry (some supplyFromFrame) n idx flags = .ok r := by
  obtain ⟨⟨frame, m₁⟩, alloc⟩ := frameAlloc_returns h ne
  unfold getOrAllocEntry
  dsimp only
  split
  · rw [bind_eq (show m.pagingGetFreeFrame (some supplyFromFrame) = _ from alloc)]
    dsimp only
    split
    · exact ⟨_, rfl⟩
    · exact ⟨_, rfl⟩
  · exact ⟨_, rfl⟩

/-! ### One page -/

theorem Runtime.setLeaf (h : Runtime m root F) (idx : Fin 512) (reach : Reached m.mem root 0 p n) (lt : v < 2 ^ 64) :
    Extends m (m.setEntry n idx v) root F F ∅ := by
  have last : ∀ e c, slot 0 e ≠ .table c := fun e c table => (slot_table table).2.1 rfl
  have closed := last v
  have held := last (entry m.mem n idx)
  have aligned := h.tree.node_aligned reach
  have bound := idx.isLt
  have rest : ∀ x, x / pageSize ≠ n / pageSize → Paging.setEntry m.mem n idx v x = m.mem x := by
    intro x off
    apply setEntry_of_ne
    unfold pageSize at *
    omega
  have old : ∀ {l p n'}, Reached (Paging.setEntry m.mem n idx v) root l p n' → Reached m.mem root l p n' := fun r =>
    h.tree.write_reached reach lt closed r
  exact ⟨⟨h.managed.other rfl fun x inside => rest x fun same => inside ((h.tables reach).2 x same),
    h.tree.write reach lt closed, h.tree.write_plain reach lt closed h.plain, fun r => h.tables (old r), h.free⟩,
    by simp, by simp, fun r => .inl (old r), fun r => h.tree.write_kept reach held r, by simp, rfl, rfl, rfl,
    fun x idle => rest x (idle.tables reach)⟩

theorem pagingMapMemory_spec {pa flags : Nat} (h : Runtime m root F) (zero : 0 ∉ F)
    (small : ∀ e k, leafOf m.mem root va = some (e, k) → k = 0)
    (lt : (pa ||| flags ||| pteP) < 2 ^ 64) (run : m.pagingMapMemory (some supplyFromFrame) root va pa flags = .ok m') :
    ∃ F' T, Extends m m' root F F' T ∧ T.card ≤ 3 ∧ ∀ va', leafOf m'.mem root va' =
      if SamePage va va' then some (pa ||| flags ||| pteP, 0) else leafOf m.mem root va' := by
  unfold pagingMapMemory at run
  rw [virtualAddressToOffsets_eq] at run
  obtain ⟨⟨pdp, m₁⟩, first, run⟩ := bind_ok run
  obtain ⟨F₁, T₁, extends₁, card₁, reach₁, leaves₁⟩ := getOrAllocEntry_spec h zero .root rfl small first
  obtain ⟨⟨pd, m₂⟩, second, run⟩ := bind_ok run
  have zero₁ : 0 ∉ F₁ := fun inside => zero (extends₁.sub inside)
  obtain ⟨F₂, T₂, extends₂, card₂, reach₂, leaves₂⟩ := getOrAllocEntry_spec extends₁.runtime zero₁ reach₁ rfl
    (by rw [leaves₁]; exact small) second
  obtain ⟨⟨pt, m₃⟩, third, run⟩ := bind_ok run
  have zero₂ : 0 ∉ F₂ := fun inside => zero₁ (extends₂.sub inside)
  obtain ⟨F₃, T₃, extends₃, card₃, reach₃, leaves₃⟩ := getOrAllocEntry_spec extends₂.runtime zero₂ reach₂ rfl
    (by rw [leaves₂, leaves₁]; exact small) third
  cases run
  have leaf : slot 0 (pa ||| flags ||| pteP) = .leaf := slot_leaf (by rw [Nat.testBit_or, pteP]; simp) (.inl rfl)
  have last := extends₃.runtime.setLeaf (vaddrIndices va).pt reach₃ lt
  have whole := ((extends₁.trans extends₂).trans extends₃).trans last
  refine ⟨F₃, _, whole, ?_, fun va' => ?_⟩
  · rw [Finset.union_empty]
    have := Finset.card_union_le (T₁ ∪ T₂) T₃
    have := Finset.card_union_le T₁ T₂
    omega
  rw [← leaves₁ va', ← leaves₂ va', ← leaves₃ va']
  exact extends₃.runtime.tree.write_page lt reach₃ leaf va'

theorem pagingMapMemory_returns {pa flags : Nat} (h : Runtime m root F) (zero : 0 ∉ F)
    (small : ∀ e k, leafOf m.mem root va = some (e, k) → k = 0)
    (enough : 3 ≤ F.card) : ∃ m', m.pagingMapMemory (some supplyFromFrame) root va pa flags = .ok m' := by
  obtain ⟨⟨pdp, m₁⟩, first⟩ := getOrAllocEntry_returns root (vaddrIndices va).pml4 (pteW ||| pteU) h.managed
    (Finset.card_pos.mp (by omega))
  obtain ⟨F₁, T₁, extends₁, card₁, reach₁, leaves₁⟩ := getOrAllocEntry_spec h zero .root rfl small first
  have sum₁ := extends₁.card
  obtain ⟨⟨pd, m₂⟩, second⟩ := getOrAllocEntry_returns pdp (vaddrIndices va).pdpt (pteW ||| pteU)
    extends₁.runtime.managed (Finset.card_pos.mp (by omega))
  obtain ⟨F₂, T₂, extends₂, card₂, reach₂, leaves₂⟩ :=
    getOrAllocEntry_spec extends₁.runtime (fun inside => zero (extends₁.sub inside))
    reach₁ rfl (by rw [leaves₁]; exact small) second
  have sum₂ := extends₂.card
  obtain ⟨⟨pt, m₃⟩, third⟩ := getOrAllocEntry_returns pd (vaddrIndices va).pd (pteW ||| pteU)
    extends₂.runtime.managed (Finset.card_pos.mp (by omega))
  unfold pagingMapMemory
  rw [virtualAddressToOffsets_eq]
  dsimp only
  rw [bind_eq first]
  dsimp only
  rw [bind_eq second]
  dsimp only
  rw [bind_eq third]
  exact ⟨_, rfl⟩

end Voyager.Machine
