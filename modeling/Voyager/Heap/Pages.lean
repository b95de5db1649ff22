import Voyager.Heap.Kmalloc
import Voyager.Paging.Spares
import Voyager.Paging.Supply

/-! # The pages behind the heap -/

namespace Voyager.Machine

open Lib Lib.RadixTable Paging Heap

/-! ### Virtual memory -/

def translate (m : Machine) (a : Nat) : Option Nat :=
  (leafOf m.mem m.currentPml4Phys a).map fun r => leafAddress r.1 r.2 a

def virtualSpace : ByteSpace Machine where
  mapped m a := (leafOf m.mem m.currentPml4Phys a).any fun r => r.1.testBit 1
  get m a := m.mem ((m.translate a).getD 0)
  set m a v := { m with mem := fun x => if x = (m.translate a).getD 0 then v else m.mem x }

def heapLeaf (i : Nat) : Nat := i * pageSize ||| (pteP ||| pteW ||| pteNX) ||| pteP

/-- The frames of `data` hold the heap's pages in order, and those of `T` the tables that
were made for them, since the machine was `m₀` with the free frames `F₀`. -/
structure HeapPages (m₀ m : Machine) (F₀ F : Finset Nat) (data : List Nat) (T : Finset Nat) : Prop where
  begun : Runtime m₀ m₀.currentPml4Phys F₀
  runtime : Runtime m m₀.currentPml4Phys F
  paging : m.paging = m₀.paging
  placed : m.bitmapsAt = m₀.bitmapsAt
  sub : F ⊆ F₀
  owned : ∀ i ∈ data, i ∈ F₀ ∧ i ∉ F ∧ i ∉ T
  made : ∀ i ∈ T, i ∈ F₀ ∧ i ∉ F
  nodup : data.Nodup
  count : F₀.card = F.card + data.length + T.card
  tables : ∀ {l p n}, Reached m.mem m₀.currentPml4Phys l p n → Reached m₀.mem m₀.currentPml4Phys l p n ∨
    n / pageSize ∈ T
  kept : ∀ {l p n}, Reached m₀.mem m₀.currentPml4Phys l p n → Reached m.mem m₀.currentPml4Phys l p n
  linked : ∀ i ∈ T, ∃ l p, Reached m.mem m₀.currentPml4Phys l p (i * pageSize)
  leaf : ∀ {j i}, data[j]? = some i → ∀ x < pageSize,
    leafOf m.mem m₀.currentPml4Phys (heapBase + j * pageSize + x) = some (heapLeaf i, 0)
  above : ∀ va, heapBase + data.length * pageSize ≤ va → va < heapBase + 2 ^ 39 →
    leafOf m.mem m₀.currentPml4Phys va = none
  elsewhere : ∀ va, slotOf va ≠ heapSlot →
    leafOf m.mem m₀.currentPml4Phys va = leafOf m₀.mem m₀.currentPml4Phys va
  zero : data ≠ [] → 0 ∉ F

variable {m₀ m m' : Machine} {F₀ F F' T : Finset Nat} {data : List Nat} {i j a b c x va : Nat}

theorem heapLeaf_eq (small : i * pageSize < 2 ^ 52) :
    heapLeaf i = leaf4k (i * pageSize) (pteP ||| pteW ||| pteNX) := by
  have address : i * pageSize &&& addrMask = i * pageSize := by
    rw [and_addrMask]
    unfold pageSize at *
    omega
  have flags : (pteP ||| pteW ||| pteNX) &&& Bits.complement 64 addrMask = pteP ||| pteW ||| pteNX := by decide
  rw [heapLeaf, leaf4k, address, flags]

theorem heapLeaf_lt (small : i * pageSize < 2 ^ 52) : heapLeaf i < 2 ^ 64 := by
  rw [heapLeaf_eq small]
  exact leaf4k_lt

theorem heapLeaf_flags (small : i * pageSize < 2 ^ 52) :
    (heapLeaf i).testBit 1 = true ∧ (heapLeaf i).testBit 63 = true := by
  rw [heapLeaf_eq small, leaf4k_testBit, leaf4k_testBit, if_neg (by decide), if_neg (by decide)]
  decide

theorem heapLeaf_address (small : i * pageSize < 2 ^ 52) :
    leafAddress (heapLeaf i) 0 va = i * pageSize + va % pageSize := by
  rw [heapLeaf_eq small, leafAddress_4k]
  unfold pageSize at *
  omega

/-! ### A byte of the heap -/

theorem HeapPages.root_eq (h : HeapPages m₀ m F₀ F data T) : m.currentPml4Phys = m₀.currentPml4Phys := by
  unfold currentPml4Phys
  rw [h.paging]

def pageOf (a : Nat) : Nat := (a - heapBase) / pageSize

theorem HeapPages.page (h : HeapPages m₀ m F₀ F data T) (low : heapBase ≤ a)
    (high : a < heapBase + data.length * pageSize) :
    ∃ i, data[pageOf a]? = some i ∧ i ∈ F₀ ∧ leafOf m.mem m.currentPml4Phys a = some (heapLeaf i, 0) ∧
      m.translate a = some (i * pageSize + a % pageSize) := by
  have inside : pageOf a < data.length := by
    unfold pageOf
    rw [Nat.div_lt_iff_lt_mul (by decide)]
    omega
  obtain ⟨i, found⟩ : ∃ i, data[pageOf a]? = some i := ⟨_, List.getElem?_eq_getElem inside⟩
  have member := (h.owned i (List.mem_of_getElem? found)).1
  have base : heapBase % pageSize = 0 := by decide
  have split : a = heapBase + pageOf a * pageSize + a % pageSize := by
    unfold pageOf pageSize at *
    omega
  have leaf := h.leaf found (a % pageSize) (Nat.mod_lt _ (by decide))
  rw [← split, ← h.root_eq] at leaf
  refine ⟨i, found, member, leaf, ?_⟩
  rw [translate, leaf, Option.map_some, heapLeaf_address (h.begun.frame_lt member)]

theorem HeapPages.idle (h : HeapPages m₀ m F₀ F data T) (hi : x / pageSize ∈ data) :
    Idle m m₀.currentPml4Phys F x := by
  obtain ⟨begun, free, made⟩ := h.owned _ hi
  refine ⟨(outside_congr h.placed x).mpr (h.begun.free x begun), free, fun r same => ?_⟩
  rcases h.tables r with old | new
  · exact (h.begun.tables old).1 (same ▸ begun)
  · exact made (same ▸ new)

theorem frame_offset (i a : Nat) : (i * pageSize + a % pageSize) / pageSize = i := by
  unfold pageSize
  omega

theorem HeapPages.translate_inj (h : HeapPages m₀ m F₀ F data T) (lowa : heapBase ≤ a)
    (higha : a < heapBase + data.length * pageSize)
    (lowb : heapBase ≤ b) (highb : b < heapBase + data.length * pageSize) (same : m.translate a = m.translate b) :
    a = b := by
  obtain ⟨i, foundi, _, _, address⟩ := h.page lowa higha
  obtain ⟨k, foundk, _, _, address'⟩ := h.page lowb highb
  rw [address, address', Option.some.injEq] at same
  have frames : i = k := by
    have := congrArg (· / pageSize) same
    simpa only [frame_offset] using this
  subst frames
  have pages : pageOf a = pageOf b := by
    obtain ⟨ha, ea⟩ := List.getElem?_eq_some_iff.mp foundi
    obtain ⟨hb, eb⟩ := List.getElem?_eq_some_iff.mp foundk
    exact h.nodup.getElem_inj_iff.mp (ea.trans eb.symm)
  have base : heapBase % pageSize = 0 := by decide
  unfold pageOf pageSize at *
  omega

theorem HeapPages.set (h : HeapPages m₀ m F₀ F data T) (low : heapBase ≤ a)
    (high : a < heapBase + data.length * pageSize) (v : UInt8) :
    HeapPages m₀ (virtualSpace.set m a v) F₀ F data T ∧
      ∀ va, leafOf (virtualSpace.set m a v).mem m₀.currentPml4Phys va = leafOf m.mem m₀.currentPml4Phys va := by
  obtain ⟨i, found, member, _, address⟩ := h.page low high
  have idle : Idle m m₀.currentPml4Phys F (i * pageSize + a % pageSize) := by
    apply h.idle
    rw [frame_offset]
    exact List.mem_of_getElem? found
  have bytes : ∀ x, x ≠ i * pageSize + a % pageSize → (virtualSpace.set m a v).mem x = m.mem x := by
    intro x ne
    simp only [virtualSpace, address, Option.getD_some]
    exact if_neg ne
  obtain ⟨runtime, grown⟩ := h.runtime.other (show (virtualSpace.set m a v).frames = m.frames from rfl)
    (fun x inside => bytes x fun same => inside (same ▸ idle.bitmaps))
      (fun r x same => bytes x fun eq => idle.tables r (eq ▸ same))
  refine ⟨⟨h.begun, runtime, h.paging, h.placed, h.sub, h.owned, h.made, h.nodup, h.count,
    fun r => h.tables ((grown.tables r).resolve_right id), fun r => grown.kept (h.kept r), fun j hj => ?_,
      fun found x lt => ?_,
    fun va low high => ?_, fun va off => (grown.leaves va).trans (h.elsewhere va off), h.zero⟩, grown.leaves⟩
  · obtain ⟨l, p, r⟩ := h.linked j hj
    exact ⟨l, p, grown.kept r⟩
  · rw [grown.leaves]
    exact h.leaf found x lt
  · rw [grown.leaves]
    exact h.above va low high

/-! ### One more page -/

theorem heap_canonical (low : heapBase ≤ va) (high : va < heapBase + 2 ^ 39) : Canonical va := by
  unfold Canonical heapBase at *
  omega

theorem same_heapPage (low : heapBase ≤ va) (high : va + pageSize ≤ heapBase + 2 ^ 39) (aligned : va % pageSize = 0)
    (low' : heapBase ≤ x) (high' : x < heapBase + 2 ^ 39) : SamePage va x ↔ va ≤ x ∧ x < va + pageSize := by
  apply samePage_iff aligned
  · unfold CanonicalRange heapBase at *
    omega
  · exact heap_canonical low' high'

theorem Taken.idle (h : Taken m m' c F i) (idle : Idle m c F x) : Idle m' c (F.erase i) x :=
  ⟨(h.outside x).mpr idle.bitmaps, fun inside => idle.free (Finset.mem_of_mem_erase inside),
    fun r => idle.tables ((h.grown.tables r).resolve_right id)⟩

theorem Taken.zero (h : Taken m m' c F i) : 0 ∉ F.erase i := by
  intro inside
  obtain ⟨ne, member⟩ := Finset.mem_erase.mp inside
  have := h.lowest 0 member
  omega

section Another

variable {T' : Finset Nat} (h : HeapPages m₀ m F₀ F data T)

section Frames

variable (free : i ∈ F) (union : F.erase i = F' ∪ T')

include h free union

theorem HeapPages.owned_append : ∀ k ∈ data ++ [i], k ∈ F₀ ∧ k ∉ F' ∧ k ∉ T ∪ T' := by
  have left : ∀ k ∈ F' ∪ T', k ∈ F ∧ k ≠ i := fun k hk => by
    rw [← union] at hk
    exact ⟨Finset.mem_of_mem_erase hk, Finset.ne_of_mem_erase hk⟩
  simp only [Finset.mem_union, not_or] at left ⊢
  intro k hk
  rcases List.mem_append.mp hk with old | new
  · obtain ⟨begun, out, made⟩ := h.owned k old
    exact ⟨begun, fun inside => out (left k (.inl inside)).1, made, fun now => out (left k (.inr now)).1⟩
  · obtain rfl := List.mem_singleton.mp new
    exact ⟨h.sub free, fun inside => (left k (.inl inside)).2 rfl, fun before => (h.made k before).2 free,
      fun now => (left k (.inr now)).2 rfl⟩

omit free in
theorem HeapPages.made_union (disjoint : Disjoint F' T') : ∀ k ∈ T ∪ T', k ∈ F₀ ∧ k ∉ F' := by
  have left : F' ∪ T' ⊆ F := union ▸ Finset.erase_subset i F
  intro k hk
  rcases Finset.mem_union.mp hk with before | now
  · exact ⟨(h.made k before).1, fun inside => (h.made k before).2 (left (Finset.mem_union_left _ inside))⟩
  · exact ⟨h.sub (left (Finset.mem_union_right _ now)), fun inside => Finset.disjoint_left.mp disjoint inside now⟩

omit union in
theorem HeapPages.nodup_append : (data ++ [i]).Nodup := by
  rw [List.nodup_append]
  refine ⟨h.nodup, List.nodup_singleton i, fun k hk k' hk' same => ?_⟩
  obtain rfl := List.mem_singleton.mp hk'
  exact (h.owned k hk).2.1 (same ▸ free)

theorem HeapPages.count_append (disjoint : Disjoint F' T') :
    F₀.card = F'.card + (data ++ [i]).length + (T ∪ T').card := by
  have erased := Finset.card_erase_add_one free
  have apart : Disjoint T T' := Finset.disjoint_left.mpr fun k before now => by
    have left : k ∈ F.erase i := union ▸ Finset.mem_union_right _ now
    exact (h.made k before).2 (Finset.mem_of_mem_erase left)
  rw [union, Finset.card_union_of_disjoint disjoint] at erased
  rw [h.count, List.length_append, List.length_singleton, Finset.card_union_of_disjoint apart]
  omega

end Frames

theorem nextPage_aligned (n : Nat) : (heapBase + n * pageSize) % pageSize = 0 := by
  rw [Nat.add_mul_mod_self_right]
  decide

section Leaves

variable (limit : heapBase + (data.length + 1) * pageSize ≤ heapLimit)
  (leaves : ∀ va, leafOf m'.mem m₀.currentPml4Phys va =
    if SamePage (heapBase + data.length * pageSize) va then some (heapLeaf i, 0)
      else leafOf m.mem m₀.currentPml4Phys va)

include h limit leaves

theorem HeapPages.leaf_append {k : Nat} (found : (data ++ [i])[j]? = some k) (lt : x < pageSize) :
    leafOf m'.mem m₀.currentPml4Phys (heapBase + j * pageSize + x) = some (heapLeaf k, 0) := by
  have page : pageSize = 4096 := rfl
  have window : heapLimit = heapBase + 2 ^ 28 := rfl
  have aligned := nextPage_aligned data.length
  have bound : j < (data ++ [i]).length := (List.getElem?_eq_some_iff.mp found).1
  rw [List.length_append, List.length_singleton] at bound
  rw [Nat.succ_mul] at limit
  have below : j * pageSize ≤ data.length * pageSize := Nat.mul_le_mul_right _ (by omega)
  rw [leaves]
  by_cases last : j = data.length
  · subst last
    rw [List.getElem?_append_right (Nat.le_refl _), Nat.sub_self] at found
    cases found
    rw [if_pos ((same_heapPage (by omega) (by omega) aligned (by omega) (by omega)).mpr ⟨by omega, by omega⟩)]
  · have earlier : (j + 1) * pageSize ≤ data.length * pageSize := Nat.mul_le_mul_right _ (by omega)
    rw [Nat.succ_mul] at earlier
    rw [List.getElem?_append_left (by omega)] at found
    rw [if_neg (fun same => ?_)]
    · exact h.leaf found x lt
    · rw [same_heapPage (by omega) (by omega) aligned (by omega) (by omega)] at same
      omega

theorem HeapPages.above_append (low : heapBase + (data ++ [i]).length * pageSize ≤ va)
    (high : va < heapBase + 2 ^ 39) :
    leafOf m'.mem m₀.currentPml4Phys va = none := by
  have page : pageSize = 4096 := rfl
  have window : heapLimit = heapBase + 2 ^ 28 := rfl
  rw [Nat.succ_mul] at limit
  rw [List.length_append, List.length_singleton, Nat.succ_mul] at low
  rw [leaves, if_neg (fun same => ?_)]
  · exact h.above va (by omega) high
  · rw [same_heapPage (by omega) (by omega) (nextPage_aligned _) (by omega) high] at same
    omega

theorem HeapPages.elsewhere_append (off : slotOf va ≠ heapSlot) :
    leafOf m'.mem m₀.currentPml4Phys va = leafOf m₀.mem m₀.currentPml4Phys va := by
  have page : pageSize = 4096 := rfl
  have window : heapLimit = heapBase + 2 ^ 28 := rfl
  rw [Nat.succ_mul] at limit
  rw [leaves, if_neg (fun same => ?_)]
  · exact h.elsewhere va off
  · unfold SamePage slotOf heapSlot heapBase at *
    omega

end Leaves

end Another

theorem mapHeapPage_spec (h : HeapPages m₀ m F₀ F data T)
    (limit : heapBase + (data.length + 1) * pageSize ≤ heapLimit)
    (run : m.mapHeapPage (heapBase + data.length * pageSize) = .ok m') :
    ∃ i F' T', HeapPages m₀ m' F₀ F' (data ++ [i]) T' ∧ F.card ≤ F'.card + 4 ∧
      ∀ x, x / pageSize ∈ data → m'.mem x = m.mem x := by
  obtain ⟨⟨phys, m₁⟩, alloc, run⟩ := bind_ok run
  dsimp only at run
  rw [h.root_eq] at run
  obtain ⟨i, rfl, taken⟩ := frameAlloc_taken h.runtime alloc
  have small := h.begun.frame_lt (h.sub taken.member)
  have unmapped : leafOf m₁.mem m₀.currentPml4Phys (heapBase + data.length * pageSize) = none := by
    have window : heapLimit = heapBase + 2 ^ 28 := rfl
    rw [Nat.succ_mul] at limit
    rw [taken.grown.leaves]
    exact h.above _ (Nat.le_refl _) (by omega)
  obtain ⟨F', T', extends', few, leaves⟩ := pagingMapMemory_spec taken.runtime taken.zero (by simp [unmapped])
    (heapLeaf_lt small) run
  simp only [taken.grown.leaves] at leaves
  have pages : HeapPages m₀ m' F₀ F' (data ++ [i]) (T ∪ T') :=
    { begun := h.begun
      runtime := extends'.runtime
      paging := by rw [extends'.paging, taken.paging, h.paging]
      placed := by rw [extends'.placed, taken.placed, h.placed]
      sub := fun k hk => h.sub (Finset.mem_of_mem_erase (extends'.sub hk))
      owned := h.owned_append taken.member extends'.union
      made := h.made_union extends'.union extends'.disjoint
      nodup := h.nodup_append taken.member
      count := h.count_append taken.member extends'.union extends'.disjoint
      tables := fun r => by
        rcases extends'.tables r with before | now
        · exact (h.tables ((taken.grown.tables before).resolve_right id)).imp_right (Finset.mem_union_left T')
        · exact .inr (Finset.mem_union_right T now)
      kept := fun r => extends'.kept (taken.grown.kept (h.kept r))
      linked := fun k hk => by
        rcases Finset.mem_union.mp hk with before | now
        · obtain ⟨l, p, r⟩ := h.linked k before
          exact ⟨l, p, extends'.kept (taken.grown.kept r)⟩
        · exact extends'.linked k now
      leaf := fun found x lt => h.leaf_append limit leaves found lt
      above := fun va low high => h.above_append limit leaves low high
      elsewhere := fun va off => h.elsewhere_append limit leaves off
      zero := fun _ inside => taken.zero (extends'.sub inside) }
  have erased := Finset.card_erase_add_one taken.member
  have card := extends'.card
  refine ⟨i, F', T ∪ T', pages, by omega, fun x inside => ?_⟩
  have idle := h.idle inside
  exact (extends'.bytes x (taken.idle idle)).trans (taken.bytes x idle.bitmaps)

theorem mapHeapPage_returns (h : HeapPages m₀ m F₀ F data T) (limit : heapBase + data.length * pageSize < heapLimit)
    (enough : 4 ≤ F.card) : ∃ m', m.mapHeapPage (heapBase + data.length * pageSize) = .ok m' := by
  obtain ⟨⟨phys, m₁⟩, alloc⟩ := frameAlloc_returns h.runtime.managed (Finset.card_pos.mp (by omega))
  obtain ⟨i, rfl, taken⟩ := frameAlloc_taken h.runtime alloc
  have erased := Finset.card_erase_add_one taken.member
  have inside : heapBase + data.length * pageSize < heapBase + 2 ^ 39 := Nat.lt_trans limit (by decide)
  have unmapped : leafOf m₁.mem m₀.currentPml4Phys (heapBase + data.length * pageSize) = none := by
    rw [taken.grown.leaves]
    exact h.above _ (Nat.le_refl _) inside
  unfold mapHeapPage
  dsimp only
  rw [bind_eq alloc, h.root_eq]
  exact pagingMapMemory_returns taken.runtime taken.zero (by simp [unmapped]) (by omega)

/-! ### The machine as the heap's memory -/

/-- The window is mapped up to `c`, by what was taken since the machine was `m₀`. -/
def HeapBacked (m₀ m : Machine) (c : Nat) : Prop :=
  ∃ F₀ F data T, HeapPages m₀ m F₀ F data T ∧ c = heapBase + data.length * pageSize

theorem region_of_translate {P : Machine → Prop} {D : Nat → Prop}
    (mapped : ∀ {m a}, P m → D a → virtualSpace.mapped m a = true)
    (keep : ∀ {m a} (v : UInt8), P m → D a → P (virtualSpace.set m a v))
    (same : ∀ {m a b} (v : UInt8), P m → D a → D b → (virtualSpace.set m a v).translate b = m.translate b)
    (apart : ∀ {m a b}, P m → D a → D b → m.translate a = m.translate b → a = b) : virtualSpace.Region P D where
  mapped := mapped
  keep := keep
  get_set := by
    intro m a b v h ha hb
    have address : ∀ {a}, D a → ∃ x, m.translate a = some x := by
      intro a ha
      have leaf := mapped h ha
      simp only [virtualSpace, Option.any_eq_true] at leaf
      obtain ⟨r, found, _⟩ := leaf
      exact ⟨_, congrArg (Option.map _) found⟩
    obtain ⟨x, hx⟩ := address ha
    obtain ⟨y, hy⟩ := address hb
    have after := same v h ha hb
    simp only [virtualSpace] at after ⊢
    rw [after, hx, hy, Option.getD_some, Option.getD_some]
    by_cases eq : b = a
    · subst eq
      rw [hx, Option.some.injEq] at hy
      rw [if_pos rfl, if_pos hy.symm]
    · rw [if_neg eq, if_neg]
      intro hit
      rw [← Option.some.injEq, ← hx, ← hy] at hit
      exact eq (apart h hb ha hit)

theorem heapPages_region : virtualSpace.Region (fun m => HeapPages m₀ m F₀ F data T)
    (fun a => heapBase ≤ a ∧ a < heapBase + data.length * pageSize) := by
  apply region_of_translate
  · rintro m a pages ⟨low, high⟩
    obtain ⟨i, _, member, leaf, _⟩ := pages.page low high
    simp only [virtualSpace, leaf, Option.any_some]
    exact (heapLeaf_flags (pages.begun.frame_lt member)).1
  · rintro m a v pages ⟨low, high⟩
    exact (pages.set low high v).1
  · rintro m a b v pages ⟨low, high⟩ -
    unfold translate
    rw [show (virtualSpace.set m a v).currentPml4Phys = m.currentPml4Phys from rfl, pages.root_eq,
      (pages.set low high v).2]
  · rintro m a b pages ⟨lowa, higha⟩ ⟨lowb, highb⟩ same
    exact pages.translate_inj lowa higha lowb highb same

theorem virtualSpace_region (m₀ : Machine) (c : Nat) :
    virtualSpace.Region (fun m => HeapBacked m₀ m c) (fun a => heapBase ≤ a ∧ a < c) where
  mapped := by
    rintro m a ⟨F₀, F, data, T, pages, rfl⟩ inside
    exact heapPages_region.mapped pages inside
  keep := by
    rintro m a v ⟨F₀, F, data, T, pages, rfl⟩ inside
    exact ⟨F₀, F, data, T, heapPages_region.keep v pages inside, rfl⟩
  get_set := by
    rintro m a b v ⟨F₀, F, data, T, pages, rfl⟩ here there
    exact heapPages_region.get_set v pages here there

theorem mapHeapPage_backed (backed : HeapBacked m₀ m c) (limit : c + pageSize ≤ heapLimit)
    (run : m.mapHeapPage c = .ok m') :
    HeapBacked m₀ m' (c + pageSize) ∧ ∀ a, heapBase ≤ a → a < c → virtualSpace.get m' a = virtualSpace.get m a := by
  obtain ⟨F₀, F, data, T, pages, rfl⟩ := backed
  have next : heapBase + data.length * pageSize + pageSize = heapBase + (data.length + 1) * pageSize := by
    rw [Nat.succ_mul, Nat.add_assoc]
  rw [next] at limit ⊢
  obtain ⟨i, F', T', pages', _, bytes⟩ := mapHeapPage_spec pages limit run
  refine ⟨⟨F₀, F', data ++ [i], T', pages', by simp⟩, fun a low high => ?_⟩
  obtain ⟨k, found, _, _, address⟩ := pages.page low high
  have more : data.length * pageSize ≤ (data ++ [i]).length * pageSize := Nat.mul_le_mul_right _ (by simp)
  obtain ⟨k', found', _, _, address'⟩ := pages'.page low (by omega)
  obtain ⟨bound, _⟩ := List.getElem?_eq_some_iff.mp found
  rw [List.getElem?_append_left bound, found] at found'
  cases found'
  simp only [virtualSpace]
  rw [address, address']
  apply bytes
  rw [Option.getD_some, frame_offset]
  exact List.mem_of_getElem? found

def machineBacking (m₀ : Machine) : Backing Machine where
  toByteSpace := virtualSpace
  mapPage := mapHeapPage
  backed := HeapBacked m₀
  region c _ := virtualSpace_region m₀ c
  unmapped := by
    rintro m c ⟨F₀, F, data, T, pages, rfl⟩ limit
    have inside : heapBase + data.length * pageSize < heapBase + 2 ^ 39 := Nat.lt_of_le_of_lt limit (by decide)
    have leaf := pages.above _ (Nat.le_refl _) inside
    rw [← pages.root_eq] at leaf
    simp only [virtualSpace, leaf, Option.any_none]
  mapPage_backed backed _ _ limit run := mapHeapPage_backed backed limit run
  mapPage_panics := mapHeapPage_panics

theorem mapPages_returns {n : Nat} (pages : HeapPages m₀ m F₀ F data T)
    (limit : heapBase + (data.length + n) * pageSize ≤ heapLimit)
    (enough : 4 * n ≤ F.card) : ∃ m', mapPages (machineBacking m₀) m (heapBase + data.length * pageSize) n =
      .ok m' := by
  induction n generalizing m F data T with
  | zero => exact ⟨m, rfl⟩
  | succ n ih =>
    have more : (data.length + 1) * pageSize ≤ (data.length + (n + 1)) * pageSize := Nat.mul_le_mul_right _ (by omega)
    have positive : pageSize = 4096 := rfl
    have next : (data.length + 1) * pageSize = data.length * pageSize + pageSize := Nat.succ_mul _ _
    obtain ⟨m₁, first⟩ := mapHeapPage_returns pages (by omega) (by omega)
    obtain ⟨i, F', T', pages', card, _⟩ := mapHeapPage_spec pages (by omega) first
    have length : (data ++ [i]).length = data.length + 1 := by simp
    obtain ⟨m', rest⟩ := ih pages' (by rw [length,
      show data.length + 1 + n = data.length + (n + 1) by omega]; exact limit) (by omega)
    rw [length, next, ← Nat.add_assoc] at rest
    refine ⟨m', ?_⟩
    rw [mapPages, bind_eq (show (machineBacking m₀).mapPage m (heapBase + data.length * pageSize) = .ok m₁ from first)]
    exact rest

end Voyager.Machine
