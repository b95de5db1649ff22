import Voyager.Lib.Bits
import Voyager.Lib.ByteSpace
import Voyager.Lib.RadixTable
import Voyager.Machine

/-!
# Page tables in physical memory

A table is named by its physical address: the code reaches it through the HHDM, which maps
that address back.
-/

namespace Voyager.Paging

open Lib Lib.RadixTable Lib.ByteSpace

/-! ### Entries -/

def pteP : Nat := 2 ^ 0
def pteW : Nat := 2 ^ 1
def pteU : Nat := 2 ^ 2
def ptePS : Nat := 2 ^ 7
def pteNX : Nat := 2 ^ 63

def addrMask : Nat := 0x000FFFFFFFFFF000
def addrMask2m : Nat := 0x000FFFFFFFFFE000
def addrMask1g : Nat := 0x000FFFFFC0000000

def page2m : Nat := 2 * 1024 * 1024
def page1g : Nat := 2 ^ 30

/-- What an entry of a table of level `l` is; level 0 is the page table. -/
def slot (l e : Nat) : Slot Nat :=
  if e.testBit 0 = false then .absent
  else if l = 0 then .leaf
  else if l < 3 ∧ e.testBit 7 = true then .leaf
  else .table (e &&& addrMask)

def leafAddress (e l va : Nat) : Nat :=
  match l with
  | 0 => e &&& addrMask ||| va &&& (pageSize - 1)
  | 1 => e &&& addrMask2m ||| va &&& (page2m - 1)
  | _ => e &&& addrMask1g ||| va &&& (page1g - 1)

variable {e l va x : Nat}

theorem addrMask_eq : addrMask = Bits.field 12 52 := by decide

theorem addrMask2m_eq : addrMask2m = Bits.field 13 52 := by decide

theorem and_addrMask : x &&& addrMask = x % 2 ^ 52 / 2 ^ 12 * 2 ^ 12 := by
  rw [addrMask_eq, Bits.and_field (by decide)]

theorem and_addrMask2m : x &&& addrMask2m = x % 2 ^ 52 / 2 ^ 13 * 2 ^ 13 := by
  rw [addrMask2m_eq, Bits.and_field (by decide)]

theorem slot_absent (h : e.testBit 0 = false) : slot l e = .absent := if_pos h

theorem slot_table {c : Nat} (h : slot l e = .table c) :
    e.testBit 0 = true ∧ l ≠ 0 ∧ c = e &&& addrMask ∧ (l < 3 → e.testBit 7 = false) := by
  unfold slot at h
  split at h
  · cases h
  split at h
  · cases h
  split at h
  · cases h
  rename_i present inner plain
  refine ⟨by simpa using present, inner, (Slot.table.inj h).symm, fun small => ?_⟩
  by_contra huge
  exact plain ⟨small, by simpa using huge⟩

theorem slot_leaf (present : e.testBit 0 = true) (ends : l = 0 ∨ l < 3 ∧ e.testBit 7 = true) :
    slot l e = .leaf := by
  unfold slot
  rw [if_neg (by simp [present])]
  split
  · rfl
  · rw [if_pos (ends.resolve_left (by assumption))]

theorem slot_of_table (present : e.testBit 0 = true) (inner : l ≠ 0) (plain : e.testBit 7 = false) :
    slot l e = .table (e &&& addrMask) := by
  unfold slot
  rw [if_neg (by simp [present]), if_neg inner, if_neg (by simp [plain])]

/-- The walk does not ask the root's entries whether they are huge pages. -/
theorem slot_root (present : e.testBit 0 = true) : slot 3 e = .table (e &&& addrMask) := by
  unfold slot
  rw [if_neg (by simp [present]), if_neg (by decide), if_neg (fun h => absurd h.1 (by decide))]

/-! ### Addresses -/

structure Indices where
  pml4 : Fin 512
  pdpt : Fin 512
  pd : Fin 512
  pt : Fin 512

instance entries_neZero : NeZero 512 := ⟨by decide⟩

def tableIndex (v : Nat) : Fin 512 := Fin.ofNat 512 v

def vaddrIndices (v : Nat) : Indices :=
  ⟨tableIndex (v >>> 39), tableIndex (v >>> 30), tableIndex (v >>> 21), tableIndex (v >>> 12)⟩

def Indices.path (i : Indices) : List (Fin 512) := [i.pml4, i.pdpt, i.pd, i.pt]

/-- Addresses of one 4 KiB page, as far as the tables can tell. -/
def SamePage (va va' : Nat) : Prop := va' / 2 ^ 12 % 2 ^ 36 = va / 2 ^ 12 % 2 ^ 36

def Same2m (va va' : Nat) : Prop := va' / 2 ^ 21 % 2 ^ 27 = va / 2 ^ 21 % 2 ^ 27

instance (va va' : Nat) : Decidable (SamePage va va') := inferInstanceAs (Decidable (_ = _))

instance (va va' : Nat) : Decidable (Same2m va va') := inferInstanceAs (Decidable (_ = _))

theorem index_eq (v v' k : Nat) : tableIndex (v >>> k) = tableIndex (v' >>> k) ↔
    v / 2 ^ k % 512 = v' / 2 ^ k % 512 := by
  rw [tableIndex, tableIndex, Fin.ext_iff, Fin.val_ofNat, Fin.val_ofNat, Nat.shiftRight_eq_div_pow,
    Nat.shiftRight_eq_div_pow]

theorem path_length (va : Nat) : (vaddrIndices va).path.length = 4 := rfl

theorem path_eq_iff {va va' : Nat} : (vaddrIndices va).path = (vaddrIndices va').path ↔ SamePage va va' := by
  simp only [Indices.path, vaddrIndices, List.cons.injEq, and_true, index_eq, SamePage]
  omega

theorem path_whole_iff {va va' : Nat} : (vaddrIndices va).path <+: (vaddrIndices va').path ↔ SamePage va va' := by
  rw [← path_eq_iff]
  exact ⟨fun h => h.eq_of_length rfl, fun h => h ▸ List.prefix_rfl⟩

theorem path_prefix_iff {va va' : Nat} :
    [(vaddrIndices va).pml4, (vaddrIndices va).pdpt, (vaddrIndices va).pd] <+: (vaddrIndices va').path ↔
      Same2m va va' := by
  simp only [Indices.path, vaddrIndices, List.cons_prefix_cons, List.nil_prefix, and_true, index_eq, Same2m]
  omega

/-! ### Tables as memory -/

def entry (mem : Bytes) (table : Nat) (i : Fin 512) : Nat := flat.load mem (table + 8 * i) 8

def setEntry (mem : Bytes) (table : Nat) (i : Fin 512) (v : Nat) : Bytes := flat.store mem (table + 8 * i) v 8

def leafOf (mem : Bytes) (root va : Nat) : Option (Nat × Nat) := walk slot (entry mem) root (vaddrIndices va).path

abbrev Reached (mem : Bytes) (root : Nat) : Nat → List (Fin 512) → Nat → Prop := Reach slot (entry mem) root 3

structure Tree (mem : Bytes) (root : Nat) : Prop where
  aligned : root % pageSize = 0
  unshared : Unshared slot (entry mem) root 3

/-- An address and low flags that allow writes and mark no huge page. -/
def PlainEntry (e : Nat) : Prop := e.testBit 7 = false ∧ e.testBit 1 = true ∧ e < 2 ^ 52

def Plain (mem : Bytes) (root : Nat) : Prop :=
  ∀ ⦃l p n i c⦄, Reached mem root l p n → slot l (entry mem n i) = .table c → PlainEntry (entry mem n i)

variable {mem mem' mem'' : Bytes} {root n k f v : Nat} {p q : List (Fin 512)} {i j : Fin 512}

theorem entry_congr (same : ∀ x, n ≤ x → x < n + pageSize → mem' x = mem x) : entry mem' n i = entry mem n i := by
  have bound := i.isLt
  apply load_congr
  intro k lt
  apply same
  · omega
  · unfold pageSize
    omega

theorem setEntry_of_ne (off : x < n + 8 * i ∨ n + 8 * i + 8 ≤ x) : setEntry mem n i v x = mem x :=
  flat_region.get_store_of_not_mem trivial (fun _ _ => trivial) trivial off

theorem setEntry_entry : setEntry mem n i (entry mem n i) x = mem x :=
  flat_region.get_store_load trivial (fun _ _ => trivial) trivial

theorem entry_setEntry (lt : v < 2 ^ 64) : entry (setEntry mem n i v) n i = v := by
  have same : entry (setEntry mem n i v) n i = v % 256 ^ 8 := flat_region.load_store_same trivial fun _ _ => trivial
  rw [same]
  exact Nat.mod_eq_of_lt lt

theorem Tree.node_aligned (h : Tree mem root) (reach : Reached mem root l p n) : n % pageSize = 0 := by
  cases reach with
  | root => exact h.aligned
  | step i _ points =>
    obtain ⟨_, _, rfl, _⟩ := slot_table points
    rw [and_addrMask]
    exact Nat.mul_mod_left _ _

theorem words_apart {m : Nat} (hn : n % pageSize = 0) (hm : m % pageSize = 0) (ne : m = n → j ≠ i) :
    m + 8 * j + 8 ≤ n + 8 * i ∨ n + 8 * i + 8 ≤ m + 8 * j := by
  have hi := i.isLt
  have hj := j.isLt
  unfold pageSize at *
  by_cases same : m = n
  · have := Fin.val_ne_of_ne (ne same)
    omega
  · omega

theorem entry_setEntry_of_ne {m : Nat} (hn : n % pageSize = 0) (hm : m % pageSize = 0) (ne : m = n → j ≠ i) :
    entry (setEntry mem n i v) m j = entry mem m j := by
  have := words_apart hn hm ne
  apply load_congr
  intro b lt
  apply setEntry_of_ne
  omega

/-- The entry `i` of `n` now holds `e`, the page `f` is zero, and nothing else has changed. -/
structure Linked (mem mem' : Bytes) (n : Nat) (i : Fin 512) (f e : Nat) : Prop where
  word : entry mem' n i = e
  zero : ∀ x, f ≤ x → x < f + pageSize → mem' x = 0
  rest : ∀ x, (x < n + 8 * i ∨ n + 8 * i + 8 ≤ x) → (x < f ∨ f + pageSize ≤ x) → mem' x = mem x

/-! ### Any reading of the entries

What a store changes does not depend on what the entries mean, as long as every table
starts a page. -/

section Reading

variable {kind : Nat → Nat → Slot Nat} {top : Nat}
  (pages : ∀ l p n, Reach kind (entry mem) root top l p n → n % pageSize = 0)
  (reach : Reach kind (entry mem) root top l p n)

include pages reach

theorem equalOff_write : EqualOff kind (entry mem) (entry (setEntry mem n i v)) root top n i :=
  fun _ _ _ _ other ne => entry_setEntry_of_ne (pages _ _ _ reach) (pages _ _ _ other) ne

theorem equalOff_link {e : Nat} (aligned : f % pageSize = 0) (new : ∀ k q, ¬ Reach kind (entry mem) root top k q f)
    (linked : Linked mem mem' n i f e) : EqualOff kind (entry mem) (entry mem') root top n i := by
  intro k q m j other ne
  have ne' : m ≠ f := fun same => new k q (same ▸ other)
  have hm := pages _ _ _ other
  have apart := words_apart (pages _ _ _ reach) hm ne
  have bound := j.isLt
  apply load_congr
  intro b lt
  apply linked.rest
  · omega
  · unfold pageSize at *
    omega

end Reading

/-! ### Writing a leaf -/

section Write

variable (tree : Tree mem root) (reach : Reached mem root l p n)

include tree reach

theorem Tree.equalOff : EqualOff slot (entry mem) (entry (setEntry mem n i v)) root 3 n i :=
  equalOff_write (fun _ _ _ => tree.node_aligned) reach

theorem Tree.write_off (off : ¬ p ++ [i] <+: (vaddrIndices va).path) :
    leafOf (setEntry mem n i v) root va = leafOf mem root va :=
  walk_off tree.unshared reach (tree.equalOff reach) rfl off

theorem Tree.write_kept (held : ∀ c, slot l (entry mem n i) ≠ .table c) (h : Reached mem root k q f) :
    Reached (setEntry mem n i v) root k q f :=
  reach_kept tree.unshared reach (tree.equalOff reach) h (not_through tree.unshared reach held h)

variable (lt : v < 2 ^ 64)

include lt

theorem Tree.write_at (leaf : slot l v = .leaf) (through : p ++ [i] <+: (vaddrIndices va).path) :
    leafOf (setEntry mem n i v) root va = some (v, l) := by
  obtain ⟨rest, path⟩ := through
  have depth := reach.length
  have size : rest.length = l := by
    have := congrArg List.length path
    rw [path_length] at this
    simp only [List.length_append, List.length_singleton] at this
    omega
  rw [leafOf, ← path, List.append_assoc, List.singleton_append,
    walk_at tree.unshared reach (tree.equalOff reach) size]
  simp only [walk, size, entry_setEntry lt, leaf]

theorem Tree.write_leaf (leaf : slot l v = .leaf) (va : Nat) : leafOf (setEntry mem n i v) root va =
    if p ++ [i] <+: (vaddrIndices va).path then some (v, l) else leafOf mem root va := by
  split
  · rename_i through
    exact tree.write_at reach lt leaf through
  · rename_i off
    exact tree.write_off reach off

omit reach in
theorem Tree.write_page (last : Reached mem root 0 [(vaddrIndices va).pml4, (vaddrIndices va).pdpt,
    (vaddrIndices va).pd] n)
    (leaf : slot 0 v = .leaf) (va' : Nat) :
    leafOf (setEntry mem n (vaddrIndices va).pt v) root va' = if SamePage va va' then some (v, 0)
      else leafOf mem root va' :=
  (tree.write_leaf last lt leaf va').trans (if_congr path_whole_iff rfl rfl)

variable (closed : ∀ c, slot l v ≠ .table c)

include closed

theorem Tree.write : Tree (setEntry mem n i v) root := by
  refine ⟨tree.aligned, unshared_cut tree.unshared reach (tree.equalOff reach) ?_⟩
  rw [entry_setEntry lt]
  exact closed

theorem Tree.write_reached (h : Reached (setEntry mem n i v) root k q f) : Reached mem root k q f := by
  refine (reach_cut tree.unshared reach (tree.equalOff reach) ?_ h).1
  rw [entry_setEntry lt]
  exact closed

theorem Tree.write_plain (plain : Plain mem root) : Plain (setEntry mem n i v) root := by
  intro k q m j c at' points
  have old := tree.write_reached reach lt closed at'
  by_cases here : m = n ∧ j = i
  · obtain ⟨rfl, rfl⟩ := here
    obtain rfl := tree.unshared reach old
    obtain ⟨rfl, _⟩ := reach.unique old
    rw [entry_setEntry lt] at points
    exact absurd points (closed c)
  · rw [tree.equalOff reach j old fun same other => here ⟨same, other⟩] at points ⊢
    exact plain old points

end Write

/-! ### Adding a table -/

/-- The tree of `mem'` translates as that of `mem` does; its other tables are `fresh`. -/
structure Grown (mem mem' : Bytes) (root : Nat) (fresh : Nat → Prop) : Prop where
  tree : Tree mem' root
  leaves : ∀ va, leafOf mem' root va = leafOf mem root va
  kept : ∀ {l p n}, Reached mem root l p n → Reached mem' root l p n
  tables : ∀ {l p n}, Reached mem' root l p n → Reached mem root l p n ∨ fresh n
  plain : Plain mem root → Plain mem' root

theorem Tree.same {fresh : Nat → Prop} (tree : Tree mem root)
    (same : ∀ {l p n}, Reached mem root l p n → ∀ x, n ≤ x → x < n + pageSize → mem' x = mem x) :
    Grown mem mem' root fresh := by
  have equal : ∀ ⦃l p n⦄ i, Reached mem root l p n → entry mem' n i = entry mem n i := fun l p n i reach =>
    entry_congr (same reach)
  refine ⟨⟨tree.aligned, fun l p n k q h h' => ?_⟩, fun va => walk_same equal rfl,
    fun h => reach_same equal h,
    fun h => .inl (reach_of_same equal h), fun plain l p n i c h points => ?_⟩
  · exact tree.unshared (reach_of_same equal h) (reach_of_same equal h')
  · have old := reach_of_same equal h
    rw [equal i old] at points ⊢
    exact plain old points

theorem entry_zero (zero : ∀ x, f ≤ x → x < f + pageSize → mem' x = 0) : entry mem' f i = 0 := by
  have bound := i.isLt
  apply load_zero
  intro b lt
  apply zero
  · omega
  · unfold pageSize
    omega

theorem Tree.link_equal {e : Nat} (tree : Tree mem root) (reach : Reached mem root l p n) (aligned : f % pageSize = 0)
    (new : ∀ k q, ¬ Reached mem root k q f) (linked : Linked mem mem' n i f e) :
    EqualOff slot (entry mem) (entry mem') root 3 n i :=
  equalOff_link (fun _ _ _ => tree.node_aligned) reach aligned new linked

theorem Linked.empty {e : Nat} (h : Linked mem mem' n i f e) (j : Fin 512) : slot k (entry mem' f j) = .absent := by
  rw [entry_zero h.zero]
  exact slot_absent (by decide)

theorem Tree.link {e : Nat} (tree : Tree mem root) (reach : Reached mem root (l + 1) p n)
    (absent : (entry mem n i).testBit 0 = false) (aligned : f % pageSize = 0)
    (new : ∀ k q, ¬ Reached mem root k q f)
    (linked : Linked mem mem' n i f e) (points : slot (l + 1) e = .table f)
    (plainEntry : PlainEntry e) :
    Grown mem mem' root (· = f) ∧ Reached mem' root l (p ++ [i]) f := by
  have equal := tree.link_equal reach aligned new linked
  have closed := slot_absent absent (l := l + 1)
  have points' : slot (l + 1) (entry mem' n i) = .table f := by rw [linked.word]; exact points
  have empty : ∀ k j, slot k (entry mem' f j) = .absent := fun k j => linked.empty j
  refine ⟨⟨⟨tree.aligned, unshared_link tree.unshared reach equal closed points' empty new⟩,
    fun va => walk_link tree.unshared reach equal closed points' empty rfl,
    fun h => reach_linked tree.unshared reach equal closed h, fun h => ?_, fun plain => ?_⟩,
    link_reached tree.unshared reach equal closed points'⟩
  · exact (reach_link tree.unshared reach equal closed points' empty h).imp_right fun h => h.2.2
  · intro k q m j c at' found
    rcases reach_link tree.unshared reach equal closed points' empty at' with old | ⟨_, _, rfl⟩
    · by_cases here : m = n ∧ j = i
      · obtain ⟨rfl, rfl⟩ := here
        rw [linked.word]
        exact plainEntry
      · rw [equal j old fun same other => here ⟨same, other⟩] at found ⊢
        exact plain old found
    · rw [empty] at found
      cases found

end Voyager.Paging
