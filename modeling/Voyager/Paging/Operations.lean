import Voyager.Paging.Resolve

/-!
# Sequences of operations on pages

A page resolves to what the last operation on it says, as long as no large page is met. Of a
large page `PagingPhysicalMemory` takes the first frame for a page table.
-/

namespace Voyager.Machine

open Lib Lib.ByteSpace Lib.RadixTable Paging

variable {m m' m'' : Machine} {mem : Bytes} {root va va' pa flags l k n e v : Nat} {p : List (Fin 512)} {idx : Fin 512}
  {supplier : FrameSupplier root} {op : Operation} {ops : List Operation}

inductive Operation where
  | map (va pa flags : Nat)
  | unmap (va : Nat)

def Operation.address : Operation → Nat
  | map va _ _ => va
  | unmap va => va

/-- What the page resolves to afterwards. -/
def Operation.result : Operation → Nat
  | map _ pa _ => pa
  | unmap _ => 0

def Operation.Valid : Operation → Prop
  | map _ pa flags => pa % pageSize = 0 ∧ pa < 2 ^ 52 ∧ flags &&& pageFlagMask = flags
  | unmap _ => True

def Operation.tables : Operation → Nat
  | map _ _ _ => 3
  | unmap _ => 0

def perform (bootPhysPage : Option PhysPageSupplier) (m : Machine) (root : Nat) : Operation → Kernel Machine
  | .map va pa flags => m.pagingMapMemory bootPhysPage root va pa flags
  | .unmap va => .ok (m.pagingUnmapMemory root va)

def performAll (bootPhysPage : Option PhysPageSupplier) (m : Machine) (root : Nat) (ops : List Operation) :
    Kernel Machine :=
  ops.foldlM (fun m op => m.perform bootPhysPage root op) m

/-- What the last operation on the page of `va` says, and `before` if there is none. -/
def lastResult (va before : Nat) (ops : List Operation) : Nat :=
  ops.foldl (fun r op => if SamePage op.address va then op.result else r) before

structure Stored (m m' : Machine) (root va v : Nat) : Prop where
  tree : PageTree m'.mem root
  kept : ∀ {l p n}, Table m.mem root l p n → Table m'.mem root l p n
  backing : ∀ va', backingOf m'.mem root va' = if SamePage va va' then pageEntry v else backingOf m.mem root va'

theorem Stored.ordinary (h : Stored m m' root va v) (ordinary : Ordinary m.mem root va) :
    Ordinary m'.mem root va' ↔ Ordinary m.mem root va' := by
  unfold Ordinary at *
  rw [h.backing]
  split
  · rename_i same
    rw [backingOf_congr same]
    refine ⟨fun _ => ordinary, fun _ e l found => ?_⟩
    unfold pageEntry at found
    split at found
    · cases found
    · cases found
      rfl
  · rfl

theorem Stored.resolves (h : Stored m m' root va v) (ordinary : Ordinary m.mem root va)
    (ordinary' : Ordinary m.mem root va') : m'.pagingPhysicalMemory root va' =
      if SamePage va va' then v &&& pageAddressMask else m.pagingPhysicalMemory root va' := by
  rw [pagingPhysicalMemory_eq ((h.ordinary ordinary).mpr ordinary'), pagingPhysicalMemory_eq ordinary', h.backing]
  split
  · exact pageEntry_address
  · rfl

theorem pagingMapMemory_stored {pa flags : Nat} (tree : PageTree m.mem root) (stock : supplier.stock (k + 3) m)
    (ordinary : Ordinary m.mem root va) (lt : (pa ||| flags ||| pteP) < 2 ^ 64) :
    ∃ m', m.pagingMapMemory (some supplier.supply) root va pa flags = .ok m' ∧ supplier.stock k m' ∧
      Stored m m' root va (pa ||| flags ||| pteP) := by
  obtain ⟨pdp, m₁, first, stock₁, grown₁, reach₁⟩ := getOrAllocEntry_stocked tree stock .root rfl ordinary
  obtain ⟨pd, m₂, second, stock₂, grown₂, reach₂⟩ := getOrAllocEntry_stocked grown₁.tree stock₁ reach₁ rfl
    (grown₁.ordinary ordinary)
  have grown := grown₁.trans grown₂
  obtain ⟨pt, m₃, third, stock₃, grown₃, reach₃⟩ := getOrAllocEntry_stocked grown.tree stock₂ reach₂ rfl
    (grown.ordinary ordinary)
  have whole := grown.trans grown₃
  obtain ⟨tree', tables⟩ := whole.tree.write (i := (vaddrIndices va).pt) reach₃
  refine ⟨m₃.setEntry pt (vaddrIndices va).pt (pa ||| flags ||| pteP), ?_, supplier.write _ stock₃ whole.tree reach₃ lt,
    tree', fun r => (tables _ _ _).mpr (whole.kept r), fun va' => ?_⟩
  · unfold pagingMapMemory
    rw [virtualAddressToOffsets_eq]
    dsimp only
    rw [bind_eq first]
    dsimp only
    rw [bind_eq second]
    dsimp only
    rw [bind_eq third]
    rfl
  · rw [← whole.backing va']
    exact whole.tree.write_backing reach₃ lt rfl va'

theorem pagingUnmapMemory_stored (tree : PageTree m.mem root) (stock : supplier.stock k m)
    (ordinary : Ordinary m.mem root va) :
    supplier.stock k (m.pagingUnmapMemory root va) ∧ Stored m (m.pagingUnmapMemory root va) root va 0 ∧
      (∀ l p n, Table (m.pagingUnmapMemory root va).mem root l p n ↔ Table m.mem root l p n) := by
  unfold pagingUnmapMemory
  rw [virtualAddressToOffsets_eq]
  dsimp only
  rcases findPageTable_cases ordinary with ⟨missing, nothing⟩ | ⟨pt, found, reach⟩
  · rw [missing]
    dsimp only
    refine ⟨stock, ⟨tree, id, fun va' => ?_⟩, fun _ _ _ => Iff.rfl⟩
    split
    · rename_i same
      rw [backingOf_congr same]
      exact nothing
    · rfl
  · rw [found]
    have zero : 0 < 2 ^ 64 := by decide
    obtain ⟨tree', tables⟩ := tree.write (i := (vaddrIndices va).pt) reach
    exact ⟨supplier.write _ stock tree reach zero, ⟨tree', (tables _ _ _).mpr, tree.write_backing reach zero rfl⟩, tables⟩

theorem performAll_cons {g : Option PhysPageSupplier} :
    m.performAll g root (op :: ops) = (m.perform g root op >>= fun m => m.performAll g root ops) := List.foldlM_cons

theorem mapped_word (valid : (Operation.map va pa flags).Valid) :
    (pa ||| flags ||| pteP) < 2 ^ 64 ∧ (pa ||| flags ||| pteP) &&& pageAddressMask = pa := by
  obtain ⟨aligned, small, within⟩ := valid
  have mask : pageFlagMask < 2 ^ 64 := by decide
  have low : flags < 2 ^ 64 := within ▸ Nat.lt_of_le_of_lt Nat.and_le_right mask
  refine ⟨Nat.or_lt_two_pow (Nat.or_lt_two_pow (Nat.lt_trans small (by decide)) low) (by decide), ?_⟩
  have clear : flags &&& pageAddressMask = 0 := by
    apply Nat.eq_of_testBit_eq
    intro b
    rw [← within, pageAddressMask, Nat.testBit_and, Nat.testBit_and, Bits.testBit_complement mask, Nat.zero_testBit]
    cases pageFlagMask.testBit b
    · simp
    · simp
  have address : pa &&& pageAddressMask = pa := by
    rw [and_pageAddressMask_eq]
    unfold pageSize at aligned
    omega
  rw [Nat.and_or_distrib_right, Nat.and_or_distrib_right, clear, address, show pteP &&& pageAddressMask = 0 by decide,
    Nat.or_zero, Nat.or_zero]

theorem pagingUnmapMemory_idle : (m.pagingUnmapMemory root va).early = m.early ∧
    (m.pagingUnmapMemory root va).frames = m.frames := by
  unfold pagingUnmapMemory
  dsimp only
  split
  · exact ⟨rfl, rfl⟩
  · exact ⟨rfl, rfl⟩

structure Unallocated (m m' : Machine) (root : Nat) : Prop where
  early : m'.early = m.early
  frames : m'.frames = m.frames
  tables : ∀ l p n, Table m'.mem root l p n ↔ Table m.mem root l p n

theorem perform_stored (tree : PageTree m.mem root) (stock : supplier.stock (k + op.tables) m) (valid : op.Valid)
    (ordinary : Ordinary m.mem root op.address) :
    ∃ m' v, m.perform (some supplier.supply) root op = .ok m' ∧ supplier.stock k m' ∧ Stored m m' root op.address v ∧
      v &&& pageAddressMask = op.result ∧ (op.tables = 0 → Unallocated m m' root) := by
  cases op with
  | map va pa flags =>
    obtain ⟨lt, address⟩ := mapped_word valid
    obtain ⟨m', run, stock', stored⟩ := pagingMapMemory_stored tree stock ordinary lt
    exact ⟨m', _, run, stock', stored, address, fun none => absurd none (show ¬ 3 = 0 by decide)⟩
  | unmap va =>
    obtain ⟨stock', stored, tables⟩ := pagingUnmapMemory_stored tree stock ordinary
    exact ⟨_, 0, rfl, stock', stored, Nat.zero_and _, fun _ => ⟨pagingUnmapMemory_idle.1, pagingUnmapMemory_idle.2, tables⟩⟩

/-- `supply_from_early` in `kernel.c`. -/
def supplyFromEarly (m : Machine) : Kernel (Nat × Machine) := do
  let (page, early) ← m.early.allocPage
  return (page, { m with early })

structure EarlyStock (root k : Nat) (m : Machine) : Prop where
  sound : m.early.Sound
  left : m.early.cursor + k * pageSize ≤ m.early.stop
  tables : ∀ {l p n}, Table m.mem root l p n → n < m.early.cursor ∨ m.early.stop ≤ n

def earlySupplier (root : Nat) : FrameSupplier root where
  supply := supplyFromEarly
  stock := EarlyStock root
  less h := ⟨h.sound, by have := h.left; rw [Nat.succ_mul] at this; omega, h.tables⟩
  fresh {k m} h tree := by
    have left := h.left
    rw [Nat.succ_mul] at left
    have page : 0 < pageSize := by decide
    obtain ⟨sound, run⟩ := Early.allocPage_room h.sound (by omega)
    have start := h.sound.positive
    have bounds := h.sound.bounds
    have new : ∀ l p, ¬ Table m.mem root l p m.early.cursor := fun l p r => by
      have := h.tables r
      omega
    refine ⟨_, _, bind_eq run, ⟨by omega, h.sound.aligned.2, by omega, new, fun _ _ _ _ => rfl⟩, ?_⟩
    intro l p n idx mem' reach absent linked
    obtain ⟨points, _⟩ := backing_tableEntry (l := l) h.sound.aligned.2 (show m.early.cursor < 2 ^ 63 by omega)
    obtain ⟨_, _, tables⟩ := tree.link reach absent h.sound.aligned.2 new linked points
    refine ⟨sound, ?_, fun r => ?_⟩
    · change m.early.cursor + pageSize + k * pageSize ≤ m.early.stop
      omega
    · change _ < m.early.cursor + pageSize ∨ m.early.stop ≤ _
      rcases tables r with old | rfl
      · have := h.tables old
        omega
      · omega
  write idx h tree reach lt := ⟨h.sound, h.left, fun r => h.tables (((tree.write reach).2 _ _ _).mp r)⟩

structure FrameStock (root k : Nat) (m : Machine) : Prop where
  frames : ∃ F, Runtime m root F ∧ 0 ∉ F ∧ k ≤ F.card

/-- `supply_from_frame` in `kernel.c`. -/
def frameSupplier (root : Nat) : FrameSupplier root where
  supply := frameAlloc
  stock := FrameStock root
  less h := by
    obtain ⟨F, runtime, zero, enough⟩ := h.frames
    exact ⟨F, runtime, zero, by omega⟩
  fresh {k m} h _ := by
    obtain ⟨F, runtime, zero, enough⟩ := h.frames
    obtain ⟨⟨f, m'⟩, run⟩ := frameAlloc_returns runtime.managed (Finset.card_pos.mp (by omega))
    obtain ⟨i, rfl, taken⟩ := frameAlloc_taken runtime run
    have aligned := Nat.mul_mod_left i pageSize
    have small := runtime.frame_lt taken.member
    have nonzero : i ≠ 0 := fun none => zero (none ▸ taken.member)
    refine ⟨_, m', run, ⟨by unfold pageSize; omega, aligned, by omega, fun l p r => ?_, fun r x low high => ?_⟩, ?_⟩
    · have apart := (runtime.tables ((Plain.table_iff runtime.plain).mp r)).1
      rw [frame_page] at apart
      exact apart taken.member
    · have reached := (Plain.table_iff runtime.plain).mp r
      exact taken.bytes x ((runtime.tables reached).2 x ((in_page (runtime.tree.node_aligned reached)).mp ⟨low, high⟩))
    · intro l p n idx mem' reach absent linked
      obtain ⟨points, plain⟩ := slot_tableEntry (f := pteW ||| pteU ||| pteP) (Nat.succ_ne_zero l) aligned small
        (by decide) (by decide) (by decide)
      have linked' : Linked m'.mem ({ m' with mem := mem' } : Machine).mem n idx (i * pageSize) _ := linked
      obtain ⟨grown, _, _⟩ := taken.link runtime ((Plain.table_iff runtime.plain).mp reach) absent rfl linked' points plain
        rfl rfl rfl
      have erased := Finset.card_erase_add_one taken.member
      exact ⟨_, grown.runtime, fun inside => zero (Finset.mem_of_mem_erase inside), by omega⟩
  write {k m p n v} idx h _ reach lt := by
    obtain ⟨F, runtime, zero, enough⟩ := h.frames
    exact ⟨F, (runtime.setLeaf idx ((Plain.table_iff runtime.plain).mp reach) lt).runtime, zero, enough⟩

def tablesFor (ops : List Operation) : Nat := (ops.map Operation.tables).sum

structure Performed (m m' : Machine) (root : Nat) (ops : List Operation) : Prop where
  tree : PageTree m'.mem root
  ordinary : ∀ va, Ordinary m'.mem root va ↔ Ordinary m.mem root va
  resolves : ∀ va, Ordinary m.mem root va →
    m'.pagingPhysicalMemory root va = lastResult va (m.pagingPhysicalMemory root va) ops
  unmaps : tablesFor ops = 0 → Unallocated m m' root

theorem performAll_resolves (supplier : FrameSupplier root) (ops : List Operation) (tree : PageTree m.mem root)
    (stock : supplier.stock (tablesFor ops) m) (valid : ∀ op ∈ ops, op.Valid)
    (ordinary : ∀ op ∈ ops, Ordinary m.mem root op.address) :
    ∃ m', m.performAll (some supplier.supply) root ops = .ok m' ∧ Performed m m' root ops := by
  induction ops generalizing m with
  | nil => exact ⟨m, rfl, tree, fun _ => Iff.rfl, fun _ _ => rfl, fun _ => ⟨rfl, rfl, fun _ _ _ => Iff.rfl⟩⟩
  | cons op ops ih =>
    have sum : tablesFor (op :: ops) = tablesFor ops + op.tables := by
      rw [tablesFor, List.map_cons, List.sum_cons, Nat.add_comm]
      rfl
    rw [sum] at stock
    have here := ordinary op List.mem_cons_self
    obtain ⟨m₁, v, run, stock₁, stored, address, first⟩ := perform_stored tree stock (valid op List.mem_cons_self) here
    have same : ∀ va, Ordinary m₁.mem root va ↔ Ordinary m.mem root va := fun _ => stored.ordinary here
    obtain ⟨m', runs, rest⟩ := ih stored.tree stock₁ (fun o ho => valid o (List.mem_cons_of_mem _ ho))
      fun o ho => (same _).mpr (ordinary o (List.mem_cons_of_mem _ ho))
    refine ⟨m', ?_, rest.tree, fun va => (rest.ordinary va).trans (same va), fun va there => ?_, fun none => ?_⟩
    · rw [performAll_cons, bind_eq run]
      exact runs
    · rw [rest.resolves va ((same va).mpr there), stored.resolves here there, address]
      rfl
    · have before := first (by omega)
      have after := rest.unmaps (by omega)
      exact ⟨after.early.trans before.early, after.frames.trans before.frames,
        fun l p n => (after.tables l p n).trans (before.tables l p n)⟩

/-! ### An example

A page table in the first frame of a 2 MiB page that the same directory maps. -/

def tableMemory : List (Nat × Fin 512 × Nat) → Bytes
  | [] => fun _ => 0
  | (n, i, v) :: words => Paging.setEntry (tableMemory words) n i v

theorem entry_tableMemory {words : List (Nat × Fin 512 × Nat)} (pages : ∀ w ∈ words, w.1 % pageSize = 0 ∧ w.2.2 < 2 ^ 64)
    (page : n % pageSize = 0) (i : Fin 512) : entry (tableMemory words) n i =
      ((words.find? fun w => w.1 = n ∧ w.2.1 = i).map (·.2.2)).getD 0 := by
  induction words with
  | nil => exact entry_zero fun _ _ _ => rfl
  | cons w words ih =>
    obtain ⟨k, j, v⟩ := w
    obtain ⟨aligned, lt⟩ := pages _ List.mem_cons_self
    rw [tableMemory, List.find?_cons]
    by_cases here : k = n ∧ j = i
    · obtain ⟨rfl, rfl⟩ := here
      simpa using entry_setEntry lt
    · rw [entry_setEntry_of_ne aligned page fun same other => here ⟨same.symm, other.symm⟩,
        ih fun w hw => pages w (List.mem_cons_of_mem _ hw)]
      simp [here]

def aliasWords : List (Nat × Fin 512 × Nat) :=
  [(0x1000, 0, 0x2007), (0x2000, 0, 0x3007), (0x3000, 0, 0x200007), (0x3000, 1, 0x200083)]

def aliasTables : List (Nat × List (Fin 512) × Nat) :=
  [(3, [], 0x1000), (2, [0], 0x2000), (1, [0, 0], 0x3000), (0, [0, 0, 0], 0x200000)]

theorem alias_tables (h : Table (tableMemory aliasWords) 0x1000 l p n) : (l, p, n) ∈ aliasTables := by
  induction h with
  | root => exact List.mem_cons_self
  | @step l p n c i _ points ih =>
    have pages : ∀ t ∈ aliasTables, t.2.2 % pageSize = 0 := by decide
    rw [entry_tableMemory (by decide) (pages _ ih)] at points
    cases found : aliasWords.find? fun w => w.1 = n ∧ w.2.1 = i with
    | none =>
      rw [found] at points
      exact absurd (backing_zero.symm.trans points) (by simp)
    | some w =>
      rw [found] at points
      have here := List.find?_some found
      have listed := List.mem_of_find?_eq_some found
      simp only [aliasWords, List.mem_cons, List.not_mem_nil, or_false] at listed
      rcases listed with rfl | rfl | rfl | rfl
      all_goals
        obtain ⟨rfl, rfl⟩ := of_decide_eq_true here
        simp [aliasTables] at ih
        obtain ⟨rfl, rfl⟩ := ih
        cases points
      all_goals decide

def aliasMachine : Machine :=
  ⟨tableMemory aliasWords, ⟨0x400000, 0x400000, 0x500000, false⟩, ⟨0, 0, 0, 0, 0, 0⟩, ⟨0xFFFF800000000000, 0, 0⟩⟩

theorem alias_tree : PageTree aliasMachine.mem 0x1000 := by
  have one : ∀ t ∈ aliasTables, ∀ t' ∈ aliasTables, t.2.2 = t'.2.2 → t.2.1 = t'.2.1 := by decide
  exact ⟨by decide, fun _ _ _ _ _ h h' => one _ (alias_tables h) _ (alias_tables h') rfl⟩

theorem alias_stock (enough : k ≤ 0x100) : (earlySupplier 0x1000).stock k aliasMachine := by
  have low : ∀ t ∈ aliasTables, t.2.2 < 0x400000 := by decide
  refine ⟨⟨by decide, by decide, by decide⟩, ?_, fun r => .inl (low _ (alias_tables r))⟩
  change 0x400000 + k * 4096 ≤ 0x500000
  omega

theorem alias_ordinary (h : backingOf aliasMachine.mem 0x1000 va = none) : Ordinary aliasMachine.mem 0x1000 va := by
  unfold Ordinary
  simp [h]

theorem performAll_resolves_alias : ∃ m', aliasMachine.performAll (some supplyFromEarly) 0x1000
      [.map 0x5000 0x7000 3, .map 0x8000001000 0x9000 3, .unmap 0x5000] = .ok m' ∧
    m'.pagingPhysicalMemory 0x1000 0x8000001234 = 0x9000 ∧ m'.pagingPhysicalMemory 0x1000 0x5000 = 0 := by
  have here : Ordinary aliasMachine.mem 0x1000 0x5000 := alias_ordinary (by decide +kernel)
  have there : Ordinary aliasMachine.mem 0x1000 0x8000001000 := alias_ordinary (by decide +kernel)
  obtain ⟨m', run, performed⟩ := performAll_resolves (m := aliasMachine) (earlySupplier 0x1000)
    [.map 0x5000 0x7000 3, .map 0x8000001000 0x9000 3, .unmap 0x5000] alias_tree (alias_stock (by decide))
    (by simp [Operation.Valid]; decide) (by simp [Operation.address, here, there])
  refine ⟨m', run, ?_, ?_⟩
  · rw [performed.resolves _ (alias_ordinary (by decide +kernel))]
    decide +kernel
  · rw [performed.resolves _ here]
    decide +kernel

theorem getOrNullifyEntry_present (present : (entry m.mem n idx).testBit 0 = true) :
    m.getOrNullifyEntry n idx = some (entry m.mem n idx &&& pageAddressMask) := by
  unfold getOrNullifyEntry
  dsimp only
  rw [if_neg (by rw [pteP, Bits.and_bit_eq_zero, present]; decide)]

/-- The first frame of a 2 MiB page is taken for a page table. -/
theorem findPageTable_large (h : backingOf m.mem root va = some (e, 1)) :
    m.findPageTable root (vaddrIndices va) = some (e &&& pageAddressMask) := by
  have table : ∀ {l n c idx}, backing (l + 1) (entry m.mem n idx) = .table c → m.getOrNullifyEntry n idx = some c := by
    intro l n c idx points
    obtain ⟨present, _, rfl, _⟩ := backing_table points
    exact getOrNullifyEntry_present present
  rw [backingOf, Indices.path] at h
  cases first : backing 3 (entry m.mem root (vaddrIndices va).pml4) with
  | absent => simp [walk, first] at h
  | leaf => simp [walk, first] at h
  | table pdp =>
  cases second : backing 2 (entry m.mem pdp (vaddrIndices va).pdpt) with
  | absent => simp [walk, first, second] at h
  | leaf => simp [walk, first, second] at h
  | table pd =>
  cases third : backing 1 (entry m.mem pd (vaddrIndices va).pd) with
  | absent => simp [walk, first, second, third] at h
  | table pt =>
    simp only [walk, List.length_cons, List.length_nil, Nat.reduceAdd, first, second, third] at h
    cases last : backing 0 (entry m.mem pt (vaddrIndices va).pt) with
    | absent => simp [last] at h
    | leaf => simp [last] at h
    | table c => exact absurd last (backing_last c)
  | leaf =>
    simp only [walk, List.length_cons, List.length_nil, Nat.reduceAdd, first, second, third] at h
    cases h
    have present : (entry m.mem pd (vaddrIndices va).pd).testBit 0 = true := by
      by_contra absent
      rw [backing_absent (by simpa using absent)] at third
      cases third
    unfold findPageTable
    rw [table first, Option.bind_eq_bind, Option.bind_some, table second, Option.bind_some,
      getOrNullifyEntry_present present]

/-- When that frame is a page table, an operation on one of its pages decides what a page of
the large page resolves to. -/
theorem large_page_follows (tree : PageTree m.mem root) (stock : supplier.stock op.tables m) (valid : op.Valid)
    (ordinary : Ordinary m.mem root op.address) (large : backingOf m.mem root va = some (e, 1))
    (table : Table m.mem root 0 [(vaddrIndices op.address).pml4, (vaddrIndices op.address).pdpt,
      (vaddrIndices op.address).pd] (e &&& pageAddressMask))
    (index : (vaddrIndices va).pt = (vaddrIndices op.address).pt) :
    ¬ SamePage op.address va ∧ ∃ m', m.perform (some supplier.supply) root op = .ok m' ∧
      m'.pagingPhysicalMemory root va = op.result := by
  have other : ¬ SamePage op.address va := fun same => by
    rw [backingOf_congr same] at large
    exact absurd (ordinary _ _ large) (by decide)
  obtain ⟨m', v, run, _, stored, address, _⟩ := perform_stored tree (k := 0) (by rw [Nat.zero_add]; exact stock) valid ordinary
  refine ⟨other, m', run, ?_⟩
  have still : backingOf m'.mem root va = some (e, 1) := by rw [stored.backing, if_neg other, large]
  have entered : pageEntry (entry m'.mem (e &&& pageAddressMask) (vaddrIndices op.address).pt) = pageEntry v := by
    rw [← backingOf_page (stored.kept table), stored.backing]
    exact if_pos rfl
  unfold pagingPhysicalMemory
  rw [virtualAddressToOffsets_eq]
  dsimp only
  rw [findPageTable_large still, index]
  change entry m'.mem _ _ &&& pageAddressMask = _
  rw [← pageEntry_address, entered, pageEntry_address, address]

theorem large_page_unstable : PageTree aliasMachine.mem 0x1000 ∧ (earlySupplier 0x1000).stock 3 aliasMachine ∧
    (Operation.map 0x5000 0x7000 3).Valid ∧ Ordinary aliasMachine.mem 0x1000 0x5000 ∧ ¬ SamePage 0x5000 0x205000 ∧
    aliasMachine.pagingPhysicalMemory 0x1000 0x205000 = 0 ∧
    ∃ m', aliasMachine.pagingMapMemory (some supplyFromEarly) 0x1000 0x5000 0x7000 3 = .ok m' ∧
      m'.pagingPhysicalMemory 0x1000 0x205000 = 0x7000 := by
  have valid : (Operation.map 0x5000 0x7000 3).Valid := ⟨by decide, by decide, by decide⟩
  have ordinary : Ordinary aliasMachine.mem 0x1000 0x5000 := alias_ordinary (by decide +kernel)
  have stock := alias_stock (k := 3) (by decide)
  have table : Table aliasMachine.mem 0x1000 0 [0, 0, 0] 0x200000 := by
    have word : ∀ n i, n % pageSize = 0 → entry aliasMachine.mem n i =
        ((aliasWords.find? fun w => w.1 = n ∧ w.2.1 = i).map (·.2.2)).getD 0 := fun n i page =>
      entry_tableMemory (by decide) page i
    refine .step (p := [0, 0]) (n := 0x3000) 0 (.step (p := [0]) (n := 0x2000) 0 (.step (p := []) 0 .root ?_) ?_) ?_
    all_goals
      rw [word _ _ (by decide)]
      rfl
  obtain ⟨other, m', run, now⟩ := large_page_follows alias_tree stock valid ordinary
    (show backingOf aliasMachine.mem 0x1000 0x205000 = some (0x200083, 1) by decide +kernel) table rfl
  exact ⟨alias_tree, stock, valid, ordinary, other, by decide +kernel, m', run, now⟩

end Voyager.Machine
