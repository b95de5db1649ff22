import Voyager.Paging.Direct

/-!
# Map, then walk

What one `map_4k` or `map_2m` does to every walk. `map_4k` panics exactly when its descent
meets a present entry with the page size bit.
-/

namespace Voyager.Machine

open Lib Lib.ByteSpace Lib.RadixTable Paging

variable {m m' : Machine} {root va pa flags n l : Nat} {p path : List (Fin 512)} {idx : Fin 512} {mem : Bytes}

/-- Going down from the table `n`, some present entry has the page size bit. -/
def HugeOnPath (mem : Bytes) (n : Nat) : List (Fin 512) → Prop
  | [] => False
  | i :: rest => (entry mem n i).testBit 0 = true ∧
      ((entry mem n i).testBit 7 = true ∨ HugeOnPath mem (entry mem n i &&& addrMask) rest)

structure Room (m : Machine) (pages : Nat) : Prop where
  hhdm : m.paging.hhdm ≠ 0
  sound : m.early.Sound
  left : m.early.cursor + pages * pageSize ≤ m.early.stop

def Settled (m : Machine) (n : Nat) : Prop := n % pageSize = 0 ∧ (n < m.early.cursor ∨ m.early.stop ≤ n)

theorem getOrMakeNext_absent {pages : Nat} (room : Room m (pages + 1)) (settled : Settled m n)
    (absent : (entry m.mem n idx).testBit 0 = false) :
    ∃ c m', m.getOrMakeNext n idx = .ok (c, m') ∧ Room m' pages ∧ Settled m' c ∧ ∀ j, entry m'.mem c j = 0 := by
  have left := room.left
  rw [Nat.succ_mul] at left
  obtain ⟨⟨c, m₁⟩, alloc, _⟩ := (allocTable_builds room.sound room.hhdm).returns (by omega)
  obtain ⟨rfl, bytes, early, sound, _, paging⟩ := allocTable_spec room.sound alloc
  have page : 0 < pageSize := by decide
  have cursor : m₁.early.cursor = m.early.cursor + pageSize := by rw [early]
  have stop : m₁.early.stop = m.early.stop := by rw [early]
  refine ⟨m.early.cursor, m₁.setEntry n idx (m.early.cursor &&& addrMask ||| pteP ||| pteW), ?_,
    ⟨?_, sound, ?_⟩, ⟨room.sound.aligned.2, .inl ?_⟩, fun j => ?_⟩
  · rw [getOrMakeNext_eq, absent, bind_eq alloc]
    rfl
  · change m₁.paging.hhdm ≠ 0
    rw [paging]
    exact room.hhdm
  · change m₁.early.cursor + pages * pageSize ≤ m₁.early.stop
    omega
  · change m.early.cursor < m₁.early.cursor
    omega
  · refine entry_zero fun x low high => ?_
    have bound := idx.isLt
    obtain ⟨aligned, apart⟩ := settled
    have aligned' := room.sound.aligned.2
    change Paging.setEntry m₁.mem n idx _ x = 0
    rw [setEntry_of_ne (by unfold pageSize at *; omega), bytes, if_pos ⟨low, high⟩]

theorem descend_empty (room : Room m path.length) (settled : Settled m n) (empty : ∀ j, entry m.mem n j = 0) :
    ∃ r, m.descend n path = .ok r := by
  induction path generalizing m n with
  | nil => exact ⟨_, rfl⟩
  | cons i rest ih =>
    have absent : (entry m.mem n i).testBit 0 = false := by rw [empty]; rfl
    obtain ⟨c, m', made, room', settled', empty'⟩ := getOrMakeNext_absent room settled absent
    rw [descend, bind_eq made]
    exact ih room' settled' empty'

theorem descend_cases (h : Hierarchy m root) (room : Room m path.length)
    (reach : Reached m.mem root (l + path.length) p n) :
    m.descend n path = .error (.panic .hugeDescent) ∧ HugeOnPath m.mem n path ∨
      (∃ r, m.descend n path = .ok r) ∧ ¬ HugeOnPath m.mem n path := by
  induction path generalizing p n with
  | nil => exact .inr ⟨⟨_, rfl⟩, fun huge => huge⟩
  | cons i rest ih =>
    cases present : (entry m.mem n i).testBit 0 with
    | false =>
      have settled : Settled m n := ⟨h.tree.node_aligned reach, h.apart reach⟩
      obtain ⟨c, m', made, room', settled', empty⟩ := getOrMakeNext_absent room settled present
      refine .inr ⟨?_, fun huge => ?_⟩
      · rw [descend, bind_eq made]
        exact descend_empty room' settled' empty
      · rw [HugeOnPath, present] at huge
        exact absurd huge.1 (by decide)
    | true =>
      cases big : (entry m.mem n i).testBit 7 with
      | true =>
        refine .inl ⟨?_, present, .inl big⟩
        rw [descend, getOrMakeNext_eq, present, big]
        rfl
      | false =>
        -- The machine is as it was, one level further down.
        have same : m.descend n (i :: rest) = m.descend (entry m.mem n i &&& addrMask) rest := by
          rw [descend, getOrMakeNext_eq, present, big]
          rfl
        have huge : HugeOnPath m.mem n (i :: rest) ↔ HugeOnPath m.mem (entry m.mem n i &&& addrMask) rest := by
          simp [HugeOnPath, present, big]
        rw [same, huge]
        refine ih ⟨room.hhdm, room.sound, ?_⟩ (reach.step i (slot_of_table present (Nat.succ_ne_zero _) big))
        have left := room.left
        rw [List.length_cons, Nat.succ_mul] at left
        omega

theorem hugeOnPath_walk {last : Fin 512} (plain : Plain mem root) (reach : Reached mem root path.length p n) :
    HugeOnPath mem n path ↔ ∃ e k, walk slot (entry mem) n (path ++ [last]) = some (e, k) ∧ k ≠ 0 := by
  induction path generalizing p n with
  | nil =>
    refine ⟨fun huge => huge.elim, fun ⟨e, k, found, inner⟩ => ?_⟩
    simp only [List.nil_append, walk, List.length_nil] at found
    split at found
    · cases found
    · cases found
      exact inner rfl
    · cases found
  | cons i rest ih =>
    have size : (rest ++ [last]).length = rest.length + 1 := by simp
    rw [HugeOnPath, List.cons_append, walk, size]
    cases present : (entry mem n i).testBit 0 with
    | false => simp [slot_absent present]
    | true =>
      cases big : (entry mem n i).testBit 7 with
      | true =>
        have inner : rest.length + 1 < 3 := by
          by_contra root
          have table : slot (rest.length + 1) (entry mem n i) = .table (entry mem n i &&& addrMask) := by
            unfold slot
            rw [if_neg (by simp [present]), if_neg (Nat.succ_ne_zero _), if_neg fun h => root h.1]
          rw [(plain reach table).1] at big
          cases big
        simp [slot_leaf present (.inr ⟨inner, big⟩)]
      | false =>
        have table := slot_of_table (l := rest.length + 1) present (Nat.succ_ne_zero _) big
        simp only [table, true_and, Bool.false_eq_true, false_or]
        exact ih (reach.step i table)

theorem hugeOnPath_iff (plain : Plain mem root) :
    HugeOnPath mem root (upperPath va) ↔ ∃ e k, leafOf mem root va = some (e, k) ∧ k ≠ 0 :=
  hugeOnPath_walk plain .root

theorem map4k_cases (va pa flags : Nat) (h : Hierarchy m root) (room : Room m 3) :
    m.map4k root va pa flags = .error (.panic .hugeDescent) ∧ HugeOnPath m.mem root (upperPath va) ∨
      (∃ m', m.map4k root va pa flags = .ok m') ∧ ¬ HugeOnPath m.mem root (upperPath va) := by
  have start : Reached m.mem root (0 + (upperPath va).length) [] root := .root
  have room : Room m (upperPath va).length := room
  rw [map4k_eq, enterLeaf]
  refine (descend_cases h room start).imp ?_ ?_
  · rintro ⟨failed, huge⟩
    exact ⟨by rw [failed]; rfl, huge⟩
  · rintro ⟨⟨r, ok⟩, clear⟩
    exact ⟨⟨_, bind_eq ok⟩, clear⟩

theorem walk_of_leaf {va' : Nat} {r : Option (Nat × Nat)} (leaf : leafOf m.mem root va' = r) :
    m.walkVaToPa va' root = r.map fun r => (leafAddress r.1 r.2 va', r.2 + 1) := by
  rw [walkVaToPa_eq, leaf]

/-- What `walk_va_to_pa` returns for every address before and after one call. -/
structure MapLaw (m : Machine) (root : Nat) : Prop where
  small : ∀ va pa flags m', m.map4k root va pa flags = .ok m' → Hierarchy m' root ∧ ∀ va', m'.walkVaToPa va' root =
    if SamePage va va' then some (pa % 2 ^ 52 / 2 ^ 12 * 2 ^ 12 + va' % 2 ^ 12, 1) else m.walkVaToPa va' root
  large : ∀ va pa flags m', pa % page2m = 0 → m.map2m root va pa flags = .ok m' →
    Hierarchy m' root ∧ ∀ va', m'.walkVaToPa va' root =
      if Same2m va va' then some (pa % 2 ^ 52 + va' % page2m, 2) else m.walkVaToPa va' root
  panics : Room m 3 → ∀ va pa flags,
    (HugeOnPath m.mem root (upperPath va) → m.map4k root va pa flags = .error (.panic .hugeDescent)) ∧
      (¬ HugeOnPath m.mem root (upperPath va) → ∃ m', m.map4k root va pa flags = .ok m')

theorem leafAddress_wide (aligned : pa % page2m = 0) :
    leafAddress (leaf2m pa flags) 1 va = pa % 2 ^ 52 + va % page2m := by
  have low : pa % 2 ^ 52 % page2m = 0 := by
    unfold page2m at *
    omega
  have narrow : leafAddress (leaf2m (pa % 2 ^ 52) flags) 1 va = pa % 2 ^ 52 + va % page2m :=
    leafAddress_2m low (Nat.mod_lt _ (by decide))
  rw [← narrow, leafAddress, leafAddress, leaf2m_and, leaf2m_and, and_addrMask2m, and_addrMask2m, Nat.mod_mod]

theorem map_then_walk (h : Hierarchy m root) : MapLaw m root where
  small va pa flags m' run := by
    obtain ⟨evolves, leaves⟩ := map4k_ok h run
    refine ⟨evolves.hierarchy h, fun va' => ?_⟩
    rw [walk_of_leaf (leaves va'), walkVaToPa_eq]
    split
    · rw [Option.map_some, leafAddress_4k]
    · rfl
  large va pa flags m' aligned run := by
    obtain ⟨evolves, leaves⟩ := map2m_ok h run
    refine ⟨evolves.hierarchy h, fun va' => ?_⟩
    rw [walk_of_leaf (leaves va'), walkVaToPa_eq]
    split
    · rw [Option.map_some, leafAddress_wide aligned]
    · rfl
  panics room va pa flags := by
    rcases map4k_cases va pa flags h room with ⟨failed, huge⟩ | ⟨ok, clear⟩
    · exact ⟨fun _ => failed, fun clear => absurd huge clear⟩
    · exact ⟨fun huge => absurd huge clear, fun _ => ok⟩

theorem map_then_walk_root : ∃ m m' root, Hierarchy m root ∧ m.map4k root 0x5123 0x7000 0 = .ok m' ∧
    m'.walkVaToPa 0x5ABC root = some (0x7ABC, 1) ∧ m'.walkVaToPa 0x6000 root = none := by
  obtain ⟨⟨root, m⟩, _, fresh⟩ := (allocTable_root directSound (by decide)).returns (by decide)
  have law := map_then_walk fresh.ready.hierarchy
  have room : Room m 3 := ⟨fresh.ready.hhdm, fresh.ready.hierarchy.sound, by rw [fresh.early]; decide⟩
  have clear : ¬ HugeOnPath m.mem root (upperPath 0x5123) := by
    rw [hugeOnPath_iff fresh.ready.plain, fresh.empty]
    simp
  obtain ⟨m', run⟩ := (law.panics room 0x5123 0x7000 0).2 clear
  obtain ⟨_, walks⟩ := law.small _ _ _ _ run
  refine ⟨m, m', root, fresh.ready.hierarchy, run, ?_, ?_⟩
  · rw [walks, if_pos (by decide)]
    decide
  · rw [walks, if_neg (by decide), walkVaToPa_eq, fresh.empty]
    rfl

end Voyager.Machine
