import Voyager.Paging.Supply

/-!
# Mapping, unmapping and resolving pages

Where no large page is met the three functions are a map from pages to physical pages. None of
them asks an entry whether it is a large page.
-/

namespace Voyager.Machine

open Lib Lib.ByteSpace Lib.RadixTable Paging

/-! ### The hierarchy as `paging.c` reads it -/

/-- `PagingPhysicalMemory` does not ask whether the last entry is present, so an entry there
is absent when it holds no address. -/
def backing (l e : Nat) : Slot Nat :=
  if l = 0 then if e &&& pageAddressMask = 0 then .absent else .leaf
  else if e.testBit 0 = false then .absent
  else if l < 3 ∧ e.testBit 7 = true then .leaf
  else .table (e &&& pageAddressMask)

abbrev Table (mem : Bytes) (root : Nat) : Nat → List (Fin 512) → Nat → Prop := Reach backing (entry mem) root 3

structure PageTree (mem : Bytes) (root : Nat) : Prop where
  aligned : root % pageSize = 0
  unshared : Unshared backing (entry mem) root 3

def backingOf (mem : Bytes) (root va : Nat) : Option (Nat × Nat) :=
  walk backing (entry mem) root (vaddrIndices va).path

/-- No entry on the way to `va` is a large page. -/
def Ordinary (mem : Bytes) (root va : Nat) : Prop := ∀ e l, backingOf mem root va = some (e, l) → l = 0

def pageEntry (v : Nat) : Option (Nat × Nat) := if v &&& pageAddressMask = 0 then none else some (v, 0)

variable {m m' m₁ : Machine} {mem mem' : Bytes} {root va va' l k n f e v x : Nat} {p q path : List (Fin 512)}
  {i idx : Fin 512}

theorem and_pageAddressMask_eq : x &&& pageAddressMask = x % 2 ^ 63 / 2 ^ 12 * 2 ^ 12 := by
  rw [show pageAddressMask = Bits.field 12 63 by decide, Bits.and_field (by decide)]

theorem backing_zero : backing l 0 = .absent := by
  unfold backing
  split
  · rfl
  · rfl

theorem backing_table {c : Nat} (h : backing l e = .table c) :
    e.testBit 0 = true ∧ l ≠ 0 ∧ c = e &&& pageAddressMask ∧ ¬ (l < 3 ∧ e.testBit 7 = true) := by
  unfold backing at h
  split at h
  · split at h
    · cases h
    · cases h
  split at h
  · cases h
  split at h
  · cases h
  rename_i inner present plain
  exact ⟨by simpa using present, inner, (Slot.table.inj h).symm, plain⟩

theorem backing_of_table (present : e.testBit 0 = true) (inner : l ≠ 0) (plain : ¬ (l < 3 ∧ e.testBit 7 = true)) :
    backing l e = .table (e &&& pageAddressMask) := by
  unfold backing
  rw [if_neg inner, if_neg (by simp [present]), if_neg plain]

theorem backing_large (present : e.testBit 0 = true) (inner : l ≠ 0) (large : l < 3 ∧ e.testBit 7 = true) :
    backing l e = .leaf := by
  unfold backing
  rw [if_neg inner, if_neg (by simp [present]), if_pos large]

theorem backing_absent (h : e.testBit 0 = false) : backing (l + 1) e = .absent := by
  unfold backing
  rw [if_neg (Nat.succ_ne_zero l), if_pos h]

theorem backing_last (c : Nat) : backing 0 e ≠ .table c := fun h => (backing_table h).2.1 rfl

theorem PageTree.node_aligned (h : PageTree mem root) (reach : Table mem root l p n) : n % pageSize = 0 := by
  cases reach with
  | root => exact h.aligned
  | step i _ points =>
    obtain ⟨_, _, rfl, _⟩ := backing_table points
    rw [and_pageAddressMask_eq]
    exact Nat.mul_mod_left _ _

theorem backingOf_congr (same : SamePage va va') : backingOf mem root va' = backingOf mem root va := by
  rw [backingOf, backingOf, path_eq_iff.mpr same]

theorem Ordinary.points {rest : List (Fin 512)} (h : Ordinary mem root va) (reach : Table mem root (l + 1) p n)
    (path : (vaddrIndices va).path = p ++ idx :: rest) (present : (entry mem n idx).testBit 0 = true) :
    backing (l + 1) (entry mem n idx) = .table (entry mem n idx &&& pageAddressMask) := by
  have depth := reach.length
  have size : rest.length = l + 1 := by
    have := congrArg List.length path
    rw [path_length, List.length_append, List.length_cons] at this
    omega
  refine backing_of_table present (Nat.succ_ne_zero l) fun large => ?_
  have leaf := backing_large present (Nat.succ_ne_zero l) large
  have found : backingOf mem root va = some (entry mem n idx, l + 1) := by
    rw [backingOf, path, reach.walk (by simp [size])]
    simp only [walk, size, leaf]
  exact absurd (h _ _ found) (Nat.succ_ne_zero l)

theorem backing_tableEntry (aligned : f % pageSize = 0) (small : f < 2 ^ 63) :
    backing (l + 1) (f ||| (pteW ||| pteU ||| pteP)) = .table f ∧ (f ||| (pteW ||| pteU ||| pteP)) < 2 ^ 64 := by
  have low : pteW ||| pteU ||| pteP < 2 ^ 7 := by decide
  have address : (f ||| (pteW ||| pteU ||| pteP)) &&& pageAddressMask = f := by
    rw [show pageAddressMask = Bits.field 12 63 by decide, Bits.or_and_field (by decide) (Nat.lt_trans low (by decide)),
      Bits.and_field (by decide)]
    unfold pageSize at aligned
    omega
  have plain : (f ||| (pteW ||| pteU ||| pteP)).testBit 7 = false := by
    rw [Nat.testBit_or, Bits.testBit_of_mod (k := 12) aligned (by decide), Nat.testBit_lt_two_pow low, Bool.or_false]
  constructor
  · rw [backing_of_table (by rw [Nat.testBit_or]; simp [pteP, pteW, pteU]) (Nat.succ_ne_zero l) (by simp [plain]), address]
  · exact Nat.or_lt_two_pow (Nat.lt_trans small (by decide)) (by decide)

/-! ### Plain hierarchies

Where the entries of tables are below `2 ^ 52`, the MMU follows the same tables. -/

section Plain

variable (plain : Plain mem root)

include plain

theorem Plain.points_iff {c : Nat} (reach : Reached mem root l p n) :
    backing l (entry mem n i) = .table c ↔ slot l (entry mem n i) = .table c := by
  constructor
  · intro points
    obtain ⟨present, inner, rfl, small⟩ := backing_table points
    have table : slot l (entry mem n i) = .table (entry mem n i &&& addrMask) := by
      unfold slot
      rw [if_neg (by simp [present]), if_neg inner, if_neg small]
    rw [table, and_pageAddressMask (plain reach table).2.2]
  · intro points
    obtain ⟨present, inner, rfl, small⟩ := slot_table points
    rw [backing_of_table present inner fun large => by rw [small large.1] at large; exact absurd large.2 (by decide),
      and_pageAddressMask (plain reach points).2.2]

theorem Plain.table_iff : Table mem root l p n ↔ Reached mem root l p n := by
  constructor
  · intro reach
    induction reach with
    | root => exact .root
    | step i _ points ih => exact ih.step i ((Plain.points_iff plain ih).mp points)
  · intro reach
    induction reach with
    | root => exact .root
    | step i earlier points ih => exact ih.step i ((Plain.points_iff plain earlier).mpr points)

/-- The large pages of both readings are the same. -/
theorem Plain.large_iff {rest : List (Fin 512)} (reach : Reached mem root l p n) (length : rest.length = l + 1) :
    walk backing (entry mem) n rest = some (e, k + 1) ↔ walk slot (entry mem) n rest = some (e, k + 1) := by
  induction rest generalizing l p n with
  | nil => cases length
  | cons i rest ih =>
    obtain rfl : rest.length = l := by simpa using length
    rw [walk, walk]
    cases size : rest.length with
    | zero =>
      -- A page table: whatever the entry is, it is no large page.
      by_cases address : entry mem n i &&& pageAddressMask = 0
      · cases present : (entry mem n i).testBit 0 <;> simp [backing, slot, address, present]
      · cases present : (entry mem n i).testBit 0 <;> simp [backing, slot, address, present]
    | succ l =>
      rw [size] at reach
      cases present : (entry mem n i).testBit 0 with
      | false => rw [slot_absent present, backing_absent present]
      | true =>
        by_cases large : l + 1 < 3 ∧ (entry mem n i).testBit 7 = true
        · rw [slot_leaf present (.inr large), backing_large present (Nat.succ_ne_zero l) large]
        · have points := backing_of_table present (Nat.succ_ne_zero l) large
          have points' := (Plain.points_iff plain reach).mp points
          rw [points, points']
          exact ih (reach.step i points') size

theorem Plain.ordinary (small : ∀ e k, leafOf mem root va = some (e, k) → k = 0) : Ordinary mem root va := by
  intro e k found
  cases k with
  | zero => rfl
  | succ k => exact small e _ ((Plain.large_iff plain .root rfl).mp found)

end Plain

/-! ### Page tables as the MMU reads them -/

theorem leafOf_table (reach : Reached mem root 0 [(vaddrIndices va).pml4, (vaddrIndices va).pdpt, (vaddrIndices va).pd] n) :
    leafOf mem root va = if (entry mem n (vaddrIndices va).pt).testBit 0 then some (entry mem n (vaddrIndices va).pt, 0)
      else none := by
  rw [leafOf]
  change walk slot _ root ([(vaddrIndices va).pml4, (vaddrIndices va).pdpt, (vaddrIndices va).pd] ++
    [(vaddrIndices va).pt]) = _
  rw [reach.walk rfl, walk]
  cases present : (entry mem n (vaddrIndices va).pt).testBit 0 with
  | false => simp [slot_absent present]
  | true => simp [slot_leaf (l := 0) present (.inl rfl)]

theorem leafOf_page (h : leafOf mem root va = some (e, 0)) :
    ∃ pt, Reached mem root 0 [(vaddrIndices va).pml4, (vaddrIndices va).pdpt, (vaddrIndices va).pd] pt := by
  obtain ⟨q, i, rest, pt, path, none, reach, _⟩ := Reach.root.leaf rfl h
  obtain rfl := List.eq_nil_of_length_eq_zero none
  obtain ⟨upper, _⟩ := List.append_inj' (show [(vaddrIndices va).pml4, (vaddrIndices va).pdpt, (vaddrIndices va).pd] ++
    [(vaddrIndices va).pt] = q ++ [i] from path) rfl
  rw [← upper] at reach
  exact ⟨pt, reach⟩

/-! ### What the stores change -/

structure Extended (mem mem' : Bytes) (root : Nat) : Prop where
  tree : PageTree mem' root
  kept : ∀ {l p n}, Table mem root l p n → Table mem' root l p n
  backing : ∀ va, backingOf mem' root va = backingOf mem root va

theorem Extended.refl (tree : PageTree mem root) : Extended mem mem root := ⟨tree, id, fun _ => rfl⟩

theorem Extended.trans {mem'' : Bytes} (h : Extended mem mem' root) (h' : Extended mem' mem'' root) :
    Extended mem mem'' root :=
  ⟨h'.tree, fun r => h'.kept (h.kept r), fun va => (h'.backing va).trans (h.backing va)⟩

theorem Extended.ordinary (h : Extended mem mem' root) (ordinary : Ordinary mem root va) : Ordinary mem' root va := by
  unfold Ordinary
  rw [h.backing]
  exact ordinary

theorem PageTree.same (tree : PageTree mem root)
    (same : ∀ {l p n}, Table mem root l p n → ∀ x, n ≤ x → x < n + pageSize → mem' x = mem x) :
    Extended mem mem' root ∧ ∀ {l p n}, Table mem' root l p n → Table mem root l p n := by
  have equal : ∀ ⦃l p n⦄ i, Table mem root l p n → entry mem' n i = entry mem n i := fun _ _ _ _ reach =>
    entry_congr (same reach)
  exact ⟨⟨⟨tree.aligned, fun _ _ _ _ _ h h' => tree.unshared (reach_of_same equal h) (reach_of_same equal h')⟩,
    reach_same equal, fun _ => walk_same equal rfl⟩, reach_of_same equal⟩

theorem PageTree.link (tree : PageTree mem root) (reach : Table mem root (l + 1) p n)
    (absent : (entry mem n i).testBit 0 = false) (aligned : f % pageSize = 0) (new : ∀ k q, ¬ Table mem root k q f)
    (linked : Linked mem mem' n i f e) (points : backing (l + 1) e = .table f) :
    Extended mem mem' root ∧ Table mem' root l (p ++ [i]) f ∧
      ∀ {k q c}, Table mem' root k q c → Table mem root k q c ∨ c = f := by
  have equal := equalOff_link (fun _ _ _ => tree.node_aligned) reach aligned new linked
  have closed := backing_absent absent (l := l)
  have points' : backing (l + 1) (entry mem' n i) = .table f := by rw [linked.word]; exact points
  have empty : ∀ k j, backing k (entry mem' f j) = .absent := fun k j => by
    rw [entry_zero linked.zero]
    exact backing_zero
  exact ⟨⟨⟨tree.aligned, unshared_link tree.unshared reach equal closed points' empty new⟩,
    reach_linked tree.unshared reach equal closed,
    fun va => walk_link tree.unshared reach equal closed points' empty rfl⟩,
    link_reached tree.unshared reach equal closed points',
    fun h => (reach_link tree.unshared reach equal closed points' empty h).imp_right fun h => h.2.2⟩

section Write

variable (tree : PageTree mem root) (reach : Table mem root 0 p n)

include tree reach

theorem PageTree.write : PageTree (Paging.setEntry mem n i v) root ∧
    ∀ k q f, Table (Paging.setEntry mem n i v) root k q f ↔ Table mem root k q f := by
  have equal := equalOff_write (i := i) (v := v) (fun _ _ _ => tree.node_aligned) reach
  have closed : ∀ c, backing 0 (entry (Paging.setEntry mem n i v) n i) ≠ .table c := backing_last
  refine ⟨⟨tree.aligned, unshared_cut tree.unshared reach equal closed⟩, fun k q f => ⟨fun h => ?_, fun h => ?_⟩⟩
  · exact (reach_cut tree.unshared reach equal closed h).1
  · exact reach_kept tree.unshared reach equal h (not_through tree.unshared reach backing_last h)

theorem PageTree.write_backing (lt : v < 2 ^ 64)
    (path : p = [(vaddrIndices va).pml4, (vaddrIndices va).pdpt, (vaddrIndices va).pd])
    (va' : Nat) : backingOf (Paging.setEntry mem n (vaddrIndices va).pt v) root va' =
      if SamePage va va' then pageEntry v else backingOf mem root va' := by
  subst path
  have equal := equalOff_write (i := (vaddrIndices va).pt) (v := v) (fun _ _ _ => tree.node_aligned) reach
  split
  · rename_i same
    rw [backingOf, ← path_eq_iff.mpr same]
    change walk backing _ root ([(vaddrIndices va).pml4, (vaddrIndices va).pdpt, (vaddrIndices va).pd] ++
      [(vaddrIndices va).pt]) = _
    rw [walk_at tree.unshared reach equal rfl, walk, entry_setEntry lt]
    unfold backing pageEntry
    by_cases none : v &&& pageAddressMask = 0
    · simp [none]
    · simp [none]
  · rename_i other
    refine walk_off tree.unshared reach equal (path_length va') fun through => other (path_eq_iff.mp ?_)
    exact through.eq_of_length rfl

end Write

/-! ### Suppliers -/

structure Fresh (m m' : Machine) (root f : Nat) : Prop where
  nonzero : f ≠ 0
  aligned : f % pageSize = 0
  small : f < 2 ^ 63
  new : ∀ l p, ¬ Table m.mem root l p f
  kept : ∀ {l p n}, Table m.mem root l p n → ∀ x, n ≤ x → x < n + pageSize → m'.mem x = m.mem x

/-- A supplier of fresh frames for the tables under `root`: while `stock k m` holds, `k` more
can be had. The stores that turn a frame into a table and those to page tables leave the
rest of the stock. -/
structure FrameSupplier (root : Nat) where
  supply : PhysPageSupplier
  stock : Nat → Machine → Prop
  less : ∀ {k m}, stock (k + 1) m → stock k m
  fresh : ∀ {k m}, stock (k + 1) m → PageTree m.mem root → ∃ f m', supply m = .ok (f, m') ∧ Fresh m m' root f ∧
    ∀ {l p n idx mem'}, Table m.mem root (l + 1) p n → (entry m.mem n idx).testBit 0 = false →
      Linked m'.mem mem' n idx f (f ||| (pteW ||| pteU ||| pteP)) → stock k { m' with mem := mem' }
  write : ∀ {k m p n v} (idx), stock k m → PageTree m.mem root → Table m.mem root 0 p n → v < 2 ^ 64 →
    stock k (m.setEntry n idx v)

variable {supplier : FrameSupplier root}

theorem getOrAllocEntry_stocked {rest : List (Fin 512)} (tree : PageTree m.mem root) (stock : supplier.stock (k + 1) m)
    (reach : Table m.mem root (l + 1) p n) (path : (vaddrIndices va).path = p ++ idx :: rest)
    (ordinary : Ordinary m.mem root va) :
    ∃ c m', m.getOrAllocEntry (some supplier.supply) n idx (pteW ||| pteU) = .ok (c, m') ∧ supplier.stock k m' ∧
      Extended m.mem m'.mem root ∧ Table m'.mem root l (p ++ [idx]) c := by
  cases present : (entry m.mem n idx).testBit 0 with
  | true =>
    have points := ordinary.points reach path present
    refine ⟨_, m, ?_, supplier.less stock, .refl tree, reach.step idx points⟩
    unfold getOrAllocEntry
    dsimp only
    rw [if_neg (by rw [pteP, Bits.and_bit_eq_zero, present]; decide)]
  | false =>
    obtain ⟨f, m₁, supply, fresh, remain⟩ := supplier.fresh stock tree
    obtain ⟨points, lt⟩ := backing_tableEntry (l := l) fresh.aligned fresh.small
    have apart : n + pageSize ≤ f ∨ f + pageSize ≤ n := by
      have ne : n ≠ f := fun same => fresh.new _ _ (same ▸ reach)
      have tableAligned := tree.node_aligned reach
      have aligned := fresh.aligned
      unfold pageSize at *
      omega
    obtain ⟨mem', made, linked⟩ := getOrAllocEntry_supplied present supply fresh.nonzero apart
      (Nat.lt_trans fresh.small (by decide)) lt
    obtain ⟨same, old⟩ := tree.same fresh.kept
    have word : entry m₁.mem n idx = entry m.mem n idx := entry_congr (fresh.kept reach)
    obtain ⟨extended, reached, _⟩ := same.tree.link (same.kept reach) (by rw [word]; exact present) fresh.aligned
      (fun k q r => fresh.new k q (old r)) linked points
    have address : f &&& pageAddressMask = f := by
      have aligned := fresh.aligned
      have small := fresh.small
      rw [and_pageAddressMask_eq]
      unfold pageSize at aligned
      omega
    rw [address] at made
    exact ⟨f, _, made, remain reach present linked, same.trans extended, reached⟩

/-! ### Resolving -/

theorem Ordinary.lookup {rest : List (Fin 512)} (h : Ordinary m.mem root va) (reach : Table m.mem root (l + 1) p n)
    (path : (vaddrIndices va).path = p ++ idx :: rest) :
    m.getOrNullifyEntry n idx = none ∧ backingOf m.mem root va = none ∨
      ∃ c, m.getOrNullifyEntry n idx = some c ∧ Table m.mem root l (p ++ [idx]) c := by
  have depth := reach.length
  have size : rest.length = l + 1 := by
    have := congrArg List.length path
    rw [path_length, List.length_append, List.length_cons] at this
    omega
  unfold getOrNullifyEntry
  dsimp only
  cases present : (entry m.mem n idx).testBit 0 with
  | false =>
    refine .inl ⟨if_pos (by rw [pteP, Bits.and_bit_eq_zero, present]), ?_⟩
    rw [backingOf, path, reach.walk (by simp [size])]
    simp only [walk, size, backing_absent present]
  | true =>
    refine .inr ⟨_, if_neg (by rw [pteP, Bits.and_bit_eq_zero, present]; decide), ?_⟩
    exact reach.step idx (h.points reach path present)

theorem findPageTable_cases (h : Ordinary m.mem root va) :
    m.findPageTable root (vaddrIndices va) = none ∧ backingOf m.mem root va = none ∨
      ∃ pt, m.findPageTable root (vaddrIndices va) = some pt ∧
        Table m.mem root 0 [(vaddrIndices va).pml4, (vaddrIndices va).pdpt, (vaddrIndices va).pd] pt := by
  unfold findPageTable
  rcases h.lookup .root rfl with ⟨first, nothing⟩ | ⟨pdp, first, reach₁⟩
  · exact .inl ⟨by rw [first]; rfl, nothing⟩
  rw [first, Option.bind_eq_bind, Option.bind_some]
  rcases h.lookup reach₁ rfl with ⟨second, nothing⟩ | ⟨pd, second, reach₂⟩
  · exact .inl ⟨by rw [second]; rfl, nothing⟩
  rw [second, Option.bind_some]
  rcases h.lookup reach₂ rfl with ⟨third, nothing⟩ | ⟨pt, third, reach₃⟩
  · exact .inl ⟨third, nothing⟩
  · exact .inr ⟨pt, third, reach₃⟩

theorem pageEntry_address : ((pageEntry v).elim 0 fun r => r.1 &&& pageAddressMask) = v &&& pageAddressMask := by
  unfold pageEntry
  split
  · rename_i none
    exact none.symm
  · rfl

theorem backingOf_page (reach : Table mem root 0 [(vaddrIndices va).pml4, (vaddrIndices va).pdpt, (vaddrIndices va).pd] n) :
    backingOf mem root va = pageEntry (entry mem n (vaddrIndices va).pt) := by
  rw [backingOf]
  change walk backing _ root ([(vaddrIndices va).pml4, (vaddrIndices va).pdpt, (vaddrIndices va).pd] ++
    [(vaddrIndices va).pt]) = _
  rw [reach.walk rfl, walk]
  unfold backing pageEntry
  by_cases none : entry mem n (vaddrIndices va).pt &&& pageAddressMask = 0
  · simp [none]
  · simp [none]

theorem pagingPhysicalMemory_eq (h : Ordinary m.mem root va) : m.pagingPhysicalMemory root va =
    (backingOf m.mem root va).elim 0 fun r => r.1 &&& pageAddressMask := by
  unfold pagingPhysicalMemory
  rw [virtualAddressToOffsets_eq]
  dsimp only
  rcases findPageTable_cases h with ⟨missing, nothing⟩ | ⟨pt, found, reach⟩
  · rw [missing, nothing]
    rfl
  · rw [found, backingOf_page reach, pageEntry_address]
    rfl

end Voyager.Machine
