import Voyager.Paging.Bootstrap

/-!
# Entering one page

Missing tables are added without changing a translation, and the leaf changes the translation
of one page.
-/

namespace Voyager.Machine

open Lib Lib.ByteSpace Lib.RadixTable Paging

/-! ### Stored words -/

variable {pa flags va i c : Nat}

theorem leaf4k_testBit : (leaf4k pa flags).testBit i =
    if 12 ≤ i ∧ i < 52 then pa.testBit i else decide (i < 64) && flags.testBit i || decide (i = 0) := by
  rw [leaf4k, addrMask_eq, pteP, Nat.testBit_or, Nat.testBit_or, Nat.testBit_and, Nat.testBit_and,
    Nat.testBit_two_pow,
    Bits.testBit_field (by decide), Bits.testBit_complement (by decide), Bits.testBit_field (by decide)]
  by_cases address : 12 ≤ i ∧ i < 52
  · have : ¬ 0 = i := by omega
    simp [address, this]
  · simp [address, Bool.and_comm, eq_comm]

theorem leaf2m_testBit : (leaf2m pa flags).testBit i =
    if 13 ≤ i ∧ i < 52 then pa.testBit i
    else decide (i < 64 ∧ i ≠ 12) && flags.testBit i || decide (i = 0 ∨ i = 1 ∨ i = 7) := by
  rw [leaf2m, addrMask_eq, addrMask2m_eq, pteP, pteW, ptePS, Nat.testBit_or, Nat.testBit_or, Nat.testBit_or,
    Nat.testBit_or,
    Nat.testBit_and, Nat.testBit_and, Nat.testBit_two_pow, Nat.testBit_two_pow, Nat.testBit_two_pow,
    Bits.testBit_field (by decide), Bits.testBit_complement (by decide), Bits.testBit_field (by decide)]
  by_cases address : 13 ≤ i ∧ i < 52
  · have : ¬ 0 = i ∧ ¬ 1 = i ∧ ¬ 7 = i := by omega
    simp [address, this, show 12 ≤ i by omega]
  · by_cases odd : i = 12
    · simp [odd]
    · have low : ¬ (12 ≤ i ∧ i < 52) := by omega
      simp [address, low, odd, Bool.and_comm, eq_comm, Bool.or_assoc]

theorem leaf4k_lt : leaf4k pa flags < 2 ^ 64 := by
  apply Nat.lt_pow_two_of_testBit
  intro i large
  rw [leaf4k_testBit, if_neg (by omega)]
  simp only [Bool.or_eq_false_iff, Bool.and_eq_false_iff, decide_eq_false_iff_not]
  omega

theorem leaf2m_lt : leaf2m pa flags < 2 ^ 64 := by
  apply Nat.lt_pow_two_of_testBit
  intro i large
  rw [leaf2m_testBit, if_neg (by omega)]
  simp only [Bool.or_eq_false_iff, Bool.and_eq_false_iff, decide_eq_false_iff_not]
  omega

theorem slot_leaf4k : slot 0 (leaf4k pa flags) = .leaf :=
  slot_leaf (by rw [leaf4k_testBit]; simp) (.inl rfl)

theorem slot_leaf2m : slot 1 (leaf2m pa flags) = .leaf :=
  slot_leaf (by rw [leaf2m_testBit]; simp) (.inr ⟨by decide, by rw [leaf2m_testBit]; simp⟩)

theorem leaf4k_and : leaf4k pa flags &&& addrMask = pa &&& addrMask := by
  apply Nat.eq_of_testBit_eq
  intro i
  rw [Nat.testBit_and, Nat.testBit_and, leaf4k_testBit, addrMask_eq, Bits.testBit_field (by decide)]
  by_cases inside : 12 ≤ i ∧ i < 52
  · simp [inside]
  · simp [inside]

theorem leaf2m_and : leaf2m pa flags &&& addrMask2m = pa &&& addrMask2m := by
  apply Nat.eq_of_testBit_eq
  intro i
  rw [Nat.testBit_and, Nat.testBit_and, leaf2m_testBit, addrMask2m_eq, Bits.testBit_field (by decide)]
  by_cases inside : 13 ≤ i ∧ i < 52
  · simp [inside]
  · simp [inside]

theorem leafAddress_4k : leafAddress (leaf4k pa flags) 0 va = pa % 2 ^ 52 / 2 ^ 12 * 2 ^ 12 + va % 2 ^ 12 := by
  rw [leafAddress, leaf4k_and, and_addrMask, pageSize, show (4096 - 1 : Nat) = 2 ^ 12 - 1 from rfl,
    Nat.and_two_pow_sub_one_eq_mod]
  exact Bits.or_low (Nat.mod_lt _ (by decide))

theorem leafAddress_2m (aligned : pa % page2m = 0) (small : pa < 2 ^ 52) :
    leafAddress (leaf2m pa flags) 1 va = pa + va % page2m := by
  have address : leaf2m pa flags &&& addrMask2m = pa := by
    rw [leaf2m_and, and_addrMask2m]
    unfold page2m at aligned
    omega
  have mask : page2m - 1 = 2 ^ 21 - 1 := by decide
  have multiple : pa = pa / 2 ^ 21 * 2 ^ 21 := by
    unfold page2m at aligned
    omega
  rw [leafAddress, address, mask, Nat.and_two_pow_sub_one_eq_mod, multiple, Bits.or_low (Nat.mod_lt _ (by decide)),
    ← multiple]
  rfl

theorem slot_tableEntry {l f : Nat} (inner : l ≠ 0) (aligned : c % pageSize = 0) (small : c < 2 ^ 52)
    (low : f < 2 ^ 7)
    (present : f.testBit 0 = true) (writable : f.testBit 1 = true) :
    slot l (c ||| f) = .table c ∧ PlainEntry (c ||| f) := by
  have address : (c ||| f) &&& addrMask = c := by
    rw [addrMask_eq, Bits.or_and_field (by decide) (Nat.lt_trans low (by decide)), Bits.and_field (by decide)]
    unfold pageSize at aligned
    omega
  have plain : (c ||| f).testBit 7 = false := by
    rw [Nat.testBit_or, Bits.testBit_of_mod (k := 12) aligned (by decide), Nat.testBit_lt_two_pow low, Bool.or_false]
  refine ⟨?_, plain, by rw [Nat.testBit_or, writable, Bool.or_true],
    Nat.or_lt_two_pow small (Nat.lt_trans low (by decide))⟩
  rw [slot_of_table (by rw [Nat.testBit_or, present, Bool.or_true]) inner plain, address]

/-! ### Hierarchies under construction -/

/-- A tree of tables none of which the early allocator can hand out again. -/
structure Hierarchy (m : Machine) (root : Nat) : Prop where
  tree : Tree m.mem root
  sound : m.early.Sound
  apart : ∀ {l p n}, Reached m.mem root l p n → n < m.early.cursor ∨ m.early.stop ≤ n

/-- What every builder keeps: the tree, its plain pointers, and the rest of the machine.
New tables are early pages. -/
structure Evolves (m m' : Machine) (root : Nat) : Prop where
  tree : Tree m'.mem root
  sound : m'.early.Sound
  tables : ∀ {l p n}, Reached m'.mem root l p n → Reached m.mem root l p n ∨ m.early.cursor ≤ n ∧ n < m'.early.cursor
  plain : Plain m.mem root → Plain m'.mem root
  early : m'.early = { m.early with cursor := m'.early.cursor }
  order : m.early.cursor ≤ m'.early.cursor
  paging : m'.paging = m.paging
  frames : m'.frames = m.frames

variable {m m' m'' : Machine} {root n l : Nat} {p : List (Fin 512)} {idx : Fin 512}

theorem Evolves.refl (h : Hierarchy m root) : Evolves m m root :=
  ⟨h.tree, h.sound, .inl, fun plain => plain, rfl, Nat.le_refl _, rfl, rfl⟩

theorem Evolves.trans (h : Evolves m m' root) (h' : Evolves m' m'' root) : Evolves m m'' root where
  tree := h'.tree
  sound := h'.sound
  tables r := by
    have order := h.order
    have order' := h'.order
    rcases h'.tables r with old | new
    · rcases h.tables old with older | new
      · exact .inl older
      · exact .inr (by omega)
    · exact .inr (by omega)
  plain r := h'.plain (h.plain r)
  early := by rw [h'.early, h.early]
  order := Nat.le_trans h.order h'.order
  paging := h'.paging.trans h.paging
  frames := h'.frames.trans h.frames

theorem Evolves.stop (h : Evolves m m' root) : m'.early.stop = m.early.stop := by rw [h.early]

theorem Evolves.hierarchy (h : Evolves m m' root) (hier : Hierarchy m root) : Hierarchy m' root where
  tree := h.tree
  sound := h.sound
  apart r := by
    have order := h.order
    have stop := h.stop
    rcases h.tables r with old | new
    · have := hier.apart old
      omega
    · omega

theorem Hierarchy.setLeaf {v : Nat} (h : Hierarchy m root) (reach : Reached m.mem root l p n) (lt : v < 2 ^ 64)
    (leaf : slot l v = .leaf) : Evolves m (m.setEntry n idx v) root := by
  have closed : ∀ c, slot l v ≠ .table c := fun c table => by
    rw [leaf] at table
    cases table
  exact ⟨h.tree.write reach lt closed, h.sound, fun r => .inl (h.tree.write_reached reach lt closed r),
    h.tree.write_plain reach lt closed, rfl, Nat.le_refl _, rfl, rfl⟩

theorem fill_page {mem : Bytes} {x : Nat} :
    flat.fill mem c 0 pageSize x = if c ≤ x ∧ x < c + pageSize then 0 else mem x :=
  flat_region.get_fill (m := mem) trivial (fun _ _ => trivial) trivial

structure FreshPage (m m' : Machine) (c : Nat) : Prop where
  place : c = m.early.cursor
  bytes : ∀ x, m'.mem x = if c ≤ x ∧ x < c + pageSize then 0 else m.mem x
  early : m'.early = { m.early with cursor := m.early.cursor + pageSize }
  sound : m'.early.Sound
  frames : m'.frames = m.frames
  paging : m'.paging = m.paging

theorem allocTable_spec (sound : m.early.Sound) (run : m.allocTable = .ok (c, m')) : FreshPage m m' c := by
  obtain ⟨⟨phys, early⟩, page, run⟩ := bind_ok run
  obtain ⟨rfl, rfl, sound'⟩ := Early.allocPage_spec sound page
  dsimp only at run
  split at run
  · cases run
  · cases run
    exact ⟨rfl, fun _ => fill_page, rfl, sound', rfl, rfl⟩

theorem getOrMakeNext_eq : m.getOrMakeNext n idx =
    if (entry m.mem n idx).testBit 0 then
      if (entry m.mem n idx).testBit 7 then .error (.panic .hugeDescent) else .ok (entry m.mem n idx &&& addrMask, m)
    else (do
      let (child, m) ← m.allocTable
      return (child, m.setEntry n idx (child &&& addrMask ||| pteP ||| pteW))) := by
  unfold getOrMakeNext
  simp only [pteP, ptePS, ne_eq, Bits.and_bit_eq_zero, Bool.not_eq_false]

structure NewTable (m m' : Machine) (root l n : Nat) (idx : Fin 512) (c : Nat) : Prop where
  place : c = m.early.cursor
  linked : Linked m.mem m'.mem n idx c (c ||| (pteP ||| pteW))
  points : slot (l + 1) (c ||| (pteP ||| pteW)) = .table c
  plain : PlainEntry (c ||| (pteP ||| pteW))
  new : ∀ k q, ¬ Reached m.mem root k q c
  aligned : c % pageSize = 0
  early : m'.early = { m.early with cursor := m.early.cursor + pageSize }
  sound : m'.early.Sound
  paging : m'.paging = m.paging
  frames : m'.frames = m.frames

theorem getOrMakeNext_new (h : Hierarchy m root) (reach : Reached m.mem root (l + 1) p n)
    (absent : (entry m.mem n idx).testBit 0 = false) (run : m.getOrMakeNext n idx = .ok (c, m')) :
    NewTable m m' root l n idx c := by
  rw [getOrMakeNext_eq, absent] at run
  obtain ⟨⟨child, m₁⟩, alloc, run⟩ := bind_ok run
  cases run
  obtain ⟨rfl, bytes, early, sound, frames, paging⟩ := allocTable_spec h.sound alloc
  obtain ⟨_, ⟨_, aligned⟩, _, low, high⟩ := h.sound
  have room : m.early.cursor + pageSize ≤ m.early.stop := by
    have := sound.bounds.2.1
    rwa [early] at this
  have page : 0 < pageSize := by decide
  have small : m.early.cursor < 2 ^ 52 := by omega
  obtain ⟨points, plain⟩ := slot_tableEntry (f := pteP ||| pteW) (Nat.succ_ne_zero l) aligned small (by decide)
    (by decide) (by decide)
  have word : m.early.cursor &&& addrMask ||| pteP ||| pteW = m.early.cursor ||| (pteP ||| pteW) := by
    rw [and_addrMask, Nat.or_assoc]
    unfold pageSize at aligned
    rw [show m.early.cursor % 2 ^ 52 / 2 ^ 12 * 2 ^ 12 = m.early.cursor by omega]
  have lt := Nat.lt_trans plain.2.2 (show 2 ^ 52 < 2 ^ 64 by decide)
  have new : ∀ k q, ¬ Reached m.mem root k q m.early.cursor := fun k q r => by
    have := h.apart r
    omega
  have apart : n + pageSize ≤ m.early.cursor ∨ m.early.cursor + pageSize ≤ n := by
    have := h.apart reach
    have := h.tree.node_aligned reach
    unfold pageSize at *
    omega
  have bound := idx.isLt
  refine ⟨rfl, ?_, points, plain, new, aligned, early, sound, paging, frames⟩
  rw [word]
  refine ⟨entry_setEntry lt, fun x low high => ?_, fun x off off' => ?_⟩
  · change Paging.setEntry m₁.mem n idx _ x = 0
    rw [setEntry_of_ne (by unfold pageSize at *; omega), bytes, if_pos ⟨low, high⟩]
  · change Paging.setEntry m₁.mem n idx _ x = _
    rw [setEntry_of_ne off, bytes, if_neg (by omega)]

theorem NewTable.grown (h : NewTable m m' root l n idx c) (tree : Tree m.mem root)
    (reach : Reached m.mem root (l + 1) p n) (absent : (entry m.mem n idx).testBit 0 = false) :
    Grown m.mem m'.mem root (· = c) ∧ Reached m'.mem root l (p ++ [idx]) c :=
  tree.link reach absent h.aligned h.new h.linked h.points h.plain

theorem getOrMakeNext_ok (h : Hierarchy m root) (reach : Reached m.mem root (l + 1) p n)
    (run : m.getOrMakeNext n idx = .ok (c, m')) :
    Evolves m m' root ∧ Reached m'.mem root l (p ++ [idx]) c ∧ (∀ va, leafOf m'.mem root va = leafOf m.mem root va) ∧
      m'.early.cursor ≤ m.early.cursor + pageSize := by
  cases present : (entry m.mem n idx).testBit 0 with
  | true =>
    rw [getOrMakeNext_eq, present] at run
    cases huge : (entry m.mem n idx).testBit 7 with
    | true =>
      rw [huge] at run
      cases run
    | false =>
      rw [huge] at run
      cases run
      exact ⟨.refl h, reach.step idx (slot_of_table present (Nat.succ_ne_zero l) huge), fun _ => rfl,
        Nat.le_add_right _ _⟩
  | false =>
    have new := getOrMakeNext_new h reach present run
    obtain ⟨grown, reached⟩ := new.grown h.tree reach present
    have place := new.place
    have page : 0 < pageSize := by decide
    have moved : m'.early.cursor = m.early.cursor + pageSize := by rw [new.early]
    refine ⟨⟨grown.tree, new.sound, fun r => (grown.tables r).imp_right fun e => ?_, grown.plain, ?_, ?_, new.paging,
      new.frames⟩, reached, grown.leaves, Nat.le_of_eq moved⟩
    · omega
    · rw [moved, new.early]
    · omega

/-! ### The way down -/

/-- One `get_or_make_next` for each index. -/
def descend (m : Machine) (n : Nat) : List (Fin 512) → Kernel (Nat × Machine)
  | [] => .ok (n, m)
  | i :: rest => do
    let (c, m) ← m.getOrMakeNext n i
    m.descend c rest

def upperPath (va : Nat) : List (Fin 512) := [(vaddrIndices va).pml4, (vaddrIndices va).pdpt, (vaddrIndices va).pd]

/-- The word `v` goes into the table at the end of `way`. -/
def enterLeaf (m : Machine) (root : Nat) (way : List (Fin 512)) (idx : Fin 512) (v : Nat) : Kernel Machine := do
  let (t, m) ← m.descend root way
  return m.setEntry t idx v

theorem map4k_eq :
    m.map4k root va pa flags = m.enterLeaf root (upperPath va) (vaddrIndices va).pt (leaf4k pa flags) := by
  simp only [map4k, enterLeaf, upperPath, descend, bind_assoc, ok_bind]

theorem map2m_eq : m.map2m root va pa flags =
    m.enterLeaf root [(vaddrIndices va).pml4, (vaddrIndices va).pdpt] (vaddrIndices va).pd (leaf2m pa flags) := by
  simp only [map2m, getOrMakePd, enterLeaf, descend, bind_assoc, ok_bind]

variable {way : List (Fin 512)} {v : Nat}

theorem descend_ok (h : Hierarchy m root) (reach : Reached m.mem root (l + way.length) p n)
    (run : m.descend n way = .ok (c, m')) : Evolves m m' root ∧ Reached m'.mem root l (p ++ way) c ∧
      ∀ va, leafOf m'.mem root va = leafOf m.mem root va := by
  induction way generalizing m p n with
  | nil =>
    cases run
    rw [List.append_nil]
    exact ⟨.refl h, reach, fun _ => rfl⟩
  | cons i rest ih =>
    obtain ⟨⟨c₁, m₁⟩, first, run⟩ := bind_ok run
    obtain ⟨evolves, reached, leaves, _⟩ := getOrMakeNext_ok (l := l + rest.length) h reach first
    obtain ⟨evolves', reached', leaves'⟩ := ih (evolves.hierarchy h) reached run
    rw [List.append_assoc] at reached'
    exact ⟨evolves.trans evolves', reached', fun va => (leaves' va).trans (leaves va)⟩

theorem reached_root {mem : Bytes} (depth : l + way.length = 3) : Reached mem root (l + way.length) [] root := by
  rw [depth]
  exact .root

theorem enterLeaf_ok (h : Hierarchy m root) (depth : l + way.length = 3) (lt : v < 2 ^ 64) (leaf : slot l v = .leaf)
    (run : m.enterLeaf root way idx v = .ok m') : Evolves m m' root ∧ ∀ va, leafOf m'.mem root va =
      if way ++ [idx] <+: (vaddrIndices va).path then some (v, l) else leafOf m.mem root va := by
  obtain ⟨⟨t, m₁⟩, down, run⟩ := bind_ok run
  obtain ⟨evolves, reach, leaves⟩ := descend_ok h (reached_root depth) down
  have hier := evolves.hierarchy h
  cases run
  refine ⟨evolves.trans (hier.setLeaf reach lt leaf), fun va => ?_⟩
  rw [← leaves va]
  exact hier.tree.write_leaf reach lt leaf va

theorem map4k_ok (h : Hierarchy m root) (run : m.map4k root va pa flags = .ok m') :
    Evolves m m' root ∧ ∀ va', leafOf m'.mem root va' =
      if SamePage va va' then some (leaf4k pa flags, 0) else leafOf m.mem root va' := by
  obtain ⟨evolves, leaves⟩ := enterLeaf_ok h rfl leaf4k_lt slot_leaf4k (map4k_eq ▸ run)
  exact ⟨evolves, fun va' => (leaves va').trans (if_congr path_whole_iff rfl rfl)⟩

theorem map2m_ok (h : Hierarchy m root) (run : m.map2m root va pa flags = .ok m') :
    Evolves m m' root ∧ ∀ va', leafOf m'.mem root va' =
      if Same2m va va' then some (leaf2m pa flags, 1) else leafOf m.mem root va' := by
  obtain ⟨evolves, leaves⟩ := enterLeaf_ok h rfl leaf2m_lt slot_leaf2m (map2m_eq ▸ run)
  exact ⟨evolves, fun va' => (leaves va').trans (if_congr path_prefix_iff rfl rfl)⟩

/-! ### Page budgets -/

/-- `run` returns with `post` and takes at most `pages` early pages, or it stops because
fewer are left. -/
def Builds {α : Type} (m : Machine) (pages : Nat) (run : Kernel α) (machine : α → Machine) (post : α → Prop) :
    Prop :=
  (∃ r, run = .ok r ∧ (machine r).early.stop = m.early.stop ∧
      (machine r).early.cursor ≤ m.early.cursor + pages * pageSize ∧ post r) ∨
    (∃ used, run = .error (.panic (.earlyExhausted used))) ∧ m.early.stop < m.early.cursor + pages * pageSize

section Builds

variable {α β : Type} {machine : α → Machine} {machine' : β → Machine} {x : Kernel α} {f : α → Kernel β} {a b : Nat}
  {P Q : α → Prop} {R : β → Prop}

theorem Builds.pure {r : α} (same : (machine r).early = m.early) (post : P r) : Builds m a (.ok r) machine P :=
  .inl ⟨r, rfl, by rw [same], by rw [same]; exact Nat.le_add_right _ _, post⟩

theorem Builds.bind (hx : Builds m a x machine P) (hf : ∀ r, P r → Builds (machine r) b (f r) machine' R) :
    Builds m (a + b) (x >>= f) machine' R := by
  have sum : (a + b) * pageSize = a * pageSize + b * pageSize := Nat.add_mul a b pageSize
  rcases hx with ⟨r, ok, stop, cursor, post⟩ | ⟨⟨used, failed⟩, short⟩
  · rw [bind_eq ok]
    rcases hf r post with ⟨t, ok', stop', cursor', post'⟩ | ⟨failed, short⟩
    · exact .inl ⟨t, ok', stop'.trans stop, by omega, post'⟩
    · exact .inr ⟨failed, by omega⟩
  · exact .inr ⟨⟨used, by rw [failed]; rfl⟩, by omega⟩

theorem Builds.imp (hx : Builds m a x machine P) (le : a ≤ b) (h : ∀ r, x = .ok r → P r → Q r) :
    Builds m b x machine Q := by
  have more : a * pageSize ≤ b * pageSize := Nat.mul_le_mul_right _ le
  rcases hx with ⟨r, ok, stop, cursor, post⟩ | ⟨failed, short⟩
  · exact .inl ⟨r, ok, stop, by omega, h r ok post⟩
  · exact .inr ⟨failed, by omega⟩

theorem Builds.returns (hx : Builds m a x machine P) (enough : m.early.cursor + a * pageSize ≤ m.early.stop) :
    ∃ r, x = .ok r ∧ P r := by
  rcases hx with ⟨r, ok, _, _, post⟩ | ⟨_, short⟩
  · exact ⟨r, ok, post⟩
  · omega

theorem Builds.early (hx : Builds m a x machine P) {r : α} (ok : x = .ok r) :
    (machine r).early.stop = m.early.stop ∧ (machine r).early.cursor ≤ m.early.cursor + a * pageSize := by
  rcases hx with ⟨t, ok', stop, cursor, _⟩ | ⟨⟨used, failed⟩, _⟩
  · rw [ok] at ok'
    cases ok'
    exact ⟨stop, cursor⟩
  · rw [ok] at failed
    cases failed

theorem Builds.post (hx : Builds m a x machine P) {r : α} (ok : x = .ok r) : P r := by
  rcases hx with ⟨t, ok', _, _, post⟩ | ⟨⟨used, failed⟩, _⟩
  · rw [ok] at ok'
    cases ok'
    exact post
  · rw [ok] at failed
    cases failed

end Builds

theorem allocTable_builds (sound : m.early.Sound) (hhdm : m.paging.hhdm ≠ 0) :
    Builds m 1 m.allocTable Prod.snd (fun _ => True) := by
  obtain ⟨_, _, _, high, top⟩ := sound
  have sum : add64 m.early.cursor pageSize = m.early.cursor + pageSize := add64_of_lt (by unfold pageSize; omega)
  by_cases full : add64 m.early.cursor pageSize > m.early.stop
  · refine .inr ⟨⟨m.early.pagesUsed, ?_⟩, by omega⟩
    unfold allocTable Early.allocPage
    rw [if_pos full]
    rfl
  · refine .inl ⟨(m.early.cursor, { m with
        mem := flat.fill m.mem m.early.cursor 0 pageSize,
        early := { m.early with cursor := add64 m.early.cursor pageSize } }), ?_, rfl, ?_, trivial⟩
    · unfold allocTable Early.allocPage
      rw [if_neg full, ok_bind]
      dsimp only
      rw [if_neg hhdm]
      rfl
    · dsimp only
      omega

theorem not_huge {rest : List (Fin 512)} (plain : Plain m.mem root) (reach : Reached m.mem root (l + 1) p n)
    (path : (vaddrIndices va).path = p ++ idx :: rest) (below : ∀ e k, leafOf m.mem root va = some (e, k) → k ≤ l)
    (present : (entry m.mem n idx).testBit 0 = true) : (entry m.mem n idx).testBit 7 = false := by
  have depth := reach.length
  have size : rest.length = l + 1 := by
    have := congrArg List.length path
    rw [path_length, List.length_append, List.length_cons] at this
    omega
  by_contra huge
  rw [Bool.not_eq_false] at huge
  by_cases inner : l + 1 < 3
  · have leaf := slot_leaf (l := l + 1) present (.inr ⟨inner, huge⟩)
    have found : leafOf m.mem root va = some (entry m.mem n idx, l + 1) := by
      rw [leafOf, path, reach.walk (by simp [size])]
      simp only [walk, size, leaf]
    have := below _ _ found
    omega
  · have table : slot (l + 1) (entry m.mem n idx) = .table (entry m.mem n idx &&& addrMask) := by
      unfold slot
      rw [if_neg (by simp [present]), if_neg (Nat.succ_ne_zero l), if_neg (fun h => inner h.1)]
    rw [(plain reach table).1] at huge
    cases huge

theorem getOrMakeNext_builds {rest : List (Fin 512)} (va : Nat) (h : Hierarchy m root) (plain : Plain m.mem root)
    (hhdm : m.paging.hhdm ≠ 0) (reach : Reached m.mem root (l + 1) p n)
    (path : (vaddrIndices va).path = p ++ idx :: rest)
    (below : ∀ e k, leafOf m.mem root va = some (e, k) → k ≤ l) :
    Builds m 1 (m.getOrMakeNext n idx) Prod.snd fun r => Evolves m r.2 root ∧ Reached r.2.mem root l (p ++ [idx]) r.1 ∧
      ∀ va, leafOf r.2.mem root va = leafOf m.mem root va := by
  have total : Builds m 1 (m.getOrMakeNext n idx) Prod.snd fun _ => True := by
    rw [getOrMakeNext_eq]
    split
    · rename_i present
      rw [not_huge plain reach path below present]
      exact .pure rfl trivial
    · exact (allocTable_builds h.sound hhdm).bind (b := 0) fun _ _ => .pure rfl trivial
  refine total.imp (Nat.le_refl 1) fun r ok _ => ?_
  obtain ⟨evolves, reached, leaves, _⟩ := getOrMakeNext_ok h reach ok
  exact ⟨evolves, reached, leaves⟩

theorem enterLeaf_builds {rest : List (Fin 512)} (h : Hierarchy m root) (plain : Plain m.mem root)
    (hhdm : m.paging.hhdm ≠ 0) (depth : l + way.length = 3) (path : (vaddrIndices va).path = way ++ rest)
    (below : ∀ e k, leafOf m.mem root va = some (e, k) → k ≤ l) :
    Builds m way.length (m.enterLeaf root way idx v) id fun _ => True := by
  -- From any table on the way, the rest of the way costs a page a level.
  have down : ∀ {p n m}, Hierarchy m root → Plain m.mem root → m.paging.hhdm ≠ 0 →
      (∀ e k, leafOf m.mem root va = some (e, k) → k ≤ l) → Reached m.mem root (l + way.length) p n →
      (vaddrIndices va).path = p ++ (way ++ rest) → Builds m way.length (m.descend n way) Prod.snd fun _ => True := by
    clear depth path
    induction way with
    | nil => exact fun _ _ _ _ _ _ => .pure rfl trivial
    | cons i after ih =>
      intro p n m h plain hhdm below reach path
      rw [List.length_cons, Nat.add_comm]
      refine (getOrMakeNext_builds (l := l + after.length) va h plain hhdm reach path fun e k found =>
        Nat.le_add_right_of_le (below e k found)).bind ?_
      rintro ⟨c, m₁⟩ ⟨evolves, reached, leaves⟩
      refine ih (evolves.hierarchy h) (evolves.plain plain) (by rw [evolves.paging]; exact hhdm) ?_ reached
        (by rw [path, List.append_assoc]; rfl)
      rw [leaves]
      exact below
  exact (down h plain hhdm below (reached_root depth) path).bind (b := 0) fun _ _ => .pure rfl trivial

theorem map4k_builds (h : Hierarchy m root) (plain : Plain m.mem root) (hhdm : m.paging.hhdm ≠ 0)
    (below : ∀ e k, leafOf m.mem root va = some (e, k) → k = 0) :
    Builds m 3 (m.map4k root va pa flags) id fun m' => Evolves m m' root ∧ ∀ va', leafOf m'.mem root va' =
      if SamePage va va' then some (leaf4k pa flags, 0) else leafOf m.mem root va' := by
  have total : Builds m (upperPath va).length (m.map4k root va pa flags) id fun _ => True := by
    rw [map4k_eq]
    exact enterLeaf_builds h plain hhdm rfl rfl fun e k found => Nat.le_of_eq (below e k found)
  exact total.imp (Nat.le_refl 3) fun m' ok _ => map4k_ok h ok

theorem map2m_builds (h : Hierarchy m root) (plain : Plain m.mem root) (hhdm : m.paging.hhdm ≠ 0)
    (below : ∀ e k, leafOf m.mem root va = some (e, k) → k ≤ 1) :
    Builds m 3 (m.map2m root va pa flags) id fun m' => Evolves m m' root ∧ ∀ va', leafOf m'.mem root va' =
      if Same2m va va' then some (leaf2m pa flags, 1) else leafOf m.mem root va' := by
  have total : Builds m 2 (m.map2m root va pa flags) id fun _ => True := by
    rw [map2m_eq]
    exact enterLeaf_builds h plain hhdm rfl rfl below
  exact total.imp (Nat.le_succ 2) fun m' ok _ => map2m_ok h ok

end Voyager.Machine
