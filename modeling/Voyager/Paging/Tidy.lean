import Voyager.Paging.Requests
import Voyager.Paging.Runtime
import Voyager.Paging.Switch

/-!
# What the bootstrap writes into page tables

An entry of a page table is zero or present, and its bits between the address and NX are clear.
-/

namespace Voyager.Machine

open Lib Lib.ByteSpace Lib.RadixTable Paging

/-- The address that `PagingPhysicalMemory` takes from an entry is the one the MMU uses. -/
def TidyEntry (e : Nat) : Prop := e &&& pageAddressMask = if e.testBit 0 then e &&& addrMask else 0

def Tidy (mem : Bytes) (root : Nat) : Prop := ∀ ⦃p n⦄ (i), Reached mem root 0 p n → TidyEntry (entry mem n i)

def TidyFlags (flags : Nat) : Prop := flags &&& Bits.field 52 63 = 0

instance (flags : Nat) : Decidable (TidyFlags flags) := inferInstanceAs (Decidable (_ = _))

def Request.Tidy (r : Request) : Prop := TidyFlags r.flags

variable {m m' : Machine} {mem mem' : Bytes} {root va pa flags stop fuel n l c e f v page : Nat} {p : List (Fin 512)}
  {idx i : Fin 512} {r : Request} {boot : Boot}

theorem leaf4k_tidy (clear : TidyFlags flags) : TidyEntry (leaf4k pa flags) := by
  have present : (leaf4k pa flags).testBit 0 = true := by rw [leaf4k_testBit]; simp
  rw [TidyEntry, if_pos present]
  apply Nat.eq_of_testBit_eq
  intro b
  have bit : (flags.testBit b && decide (52 ≤ b ∧ b < 63)) = false := by
    rw [← Bits.testBit_field (by decide), ← Nat.testBit_and, clear, Nat.zero_testBit]
  rw [show pageAddressMask = Bits.field 12 63 by decide, addrMask_eq, Nat.testBit_and, Nat.testBit_and,
    Bits.testBit_field (by decide), Bits.testBit_field (by decide), leaf4k_testBit]
  by_cases address : 12 ≤ b ∧ b < 52
  · simp [address, show b < 63 by omega]
  · by_cases high : 52 ≤ b ∧ b < 63
    · simp only [high, and_self, decide_true, Bool.and_true] at bit
      simp [bit, show ¬ b = 0 by omega, show ¬ b < 52 by omega]
    · have outside : ¬ (12 ≤ b ∧ b < 63) := by omega
      simp [address, outside]

theorem tidyEntry_zero : TidyEntry 0 := Nat.zero_and _

/-! ### Stores -/

theorem Tidy.link {e : Nat} (h : Tidy mem root) (tree : Tree mem root) (reach : Reached mem root (l + 1) p n)
    (absent : (entry mem n i).testBit 0 = false) (aligned : f % pageSize = 0) (new : ∀ k q, ¬ Reached mem root k q f)
    (linked : Linked mem mem' n i f e) (points : slot (l + 1) e = .table f) (plain : PlainEntry e) :
    Tidy mem' root := by
  obtain ⟨grown, _⟩ := tree.link reach absent aligned new linked points plain
  have equal := tree.link_equal reach aligned new linked
  intro q t j there
  rcases grown.tables there with old | rfl
  · rw [equal j old fun same => ?_]
    · exact h j old
    · -- The entry that changed is in a table of another level.
      subst same
      obtain rfl := tree.unshared reach old
      exact absurd (reach.unique old).1 (Nat.succ_ne_zero l)
  · rw [entry_zero linked.zero]
    exact tidyEntry_zero

theorem Tidy.write (h : Tidy mem root) (tree : Tree mem root) (reach : Reached mem root l p n) (lt : v < 2 ^ 64)
    (closed : ∀ c, slot l v ≠ .table c) (tidy : l = 0 → TidyEntry v) : Tidy (Paging.setEntry mem n i v) root := by
  intro q t j there
  have old := tree.write_reached reach lt closed there
  by_cases here : t = n ∧ j = i
  · obtain ⟨rfl, rfl⟩ := here
    obtain rfl := tree.unshared reach old
    rw [entry_setEntry lt]
    exact tidy (reach.unique old).1
  · rw [tree.equalOff reach j old fun same other => here ⟨same, other⟩]
    exact h j old

/-! ### One page -/

def Confined (lo : Nat) (m : Machine) (root : Nat) : Prop :=
  ∀ ⦃l p n⦄, Reached m.mem root l p n → lo ≤ n ∧ n < m.early.cursor

structure Neat (lo : Nat) (m m' : Machine) (root : Nat) : Prop where
  evolves : Evolves m m' root
  tidy : Tidy m.mem root → Tidy m'.mem root
  bytes : Confined lo m root → lo ≤ m.early.cursor → ∀ x, x < lo ∨ m'.early.cursor ≤ x → m'.mem x = m.mem x

variable {lo : Nat}

theorem Neat.refl (h : Hierarchy m root) : Neat lo m m root := ⟨.refl h, id, fun _ _ _ _ => rfl⟩

theorem Neat.trans {m'' : Machine} (h : Neat lo m m' root) (h' : Neat lo m' m'' root) : Neat lo m m'' root where
  evolves := h.evolves.trans h'.evolves
  tidy t := h'.tidy (h.tidy t)
  bytes confined low x off := by
    have order := h.evolves.order
    have order' := h'.evolves.order
    have confined' : Confined lo m' root := by
      intro l p n reach
      rcases h.evolves.tables reach with old | new
      · have := confined old
        omega
      · omega
    rw [h'.bytes confined' (by omega) x off, h.bytes confined low x (by omega)]

theorem Confined.off {x : Nat} (h : Confined lo m root) (hier : Hierarchy m root) (reach : Reached m.mem root l p n)
    (off : x < lo ∨ m.early.cursor ≤ x) : x < n ∨ n + pageSize ≤ x := by
  have bounds := h reach
  have aligned := hier.tree.node_aligned reach
  have cursor := hier.sound.aligned.2
  unfold pageSize at *
  omega

theorem getOrMakeNext_neat (h : Hierarchy m root) (reach : Reached m.mem root (l + 1) p n)
    (run : m.getOrMakeNext n idx = .ok (c, m')) : Neat lo m m' root := by
  cases present : (entry m.mem n idx).testBit 0 with
  | true =>
    rw [getOrMakeNext_eq, present] at run
    cases huge : (entry m.mem n idx).testBit 7 <;> rw [huge] at run <;> cases run
    exact .refl h
  | false =>
    have new := getOrMakeNext_new h reach present run
    refine ⟨(getOrMakeNext_ok h reach run).1, fun tidy =>
      tidy.link h.tree reach present new.aligned new.new new.linked new.points new.plain, fun confined low x off => ?_⟩
    have place := new.place
    have moved : m'.early.cursor = m.early.cursor + pageSize := by rw [new.early]
    have away := confined.off h reach (x := x) (by omega)
    have bound := idx.isLt
    refine new.linked.rest x ?_ (by omega)
    unfold pageSize at away
    omega

theorem Hierarchy.setLeaf_neat (h : Hierarchy m root) (reach : Reached m.mem root l p n) (lt : v < 2 ^ 64)
    (leaf : slot l v = .leaf) (tidy : l = 0 → TidyEntry v) : Neat lo m (m.setEntry n idx v) root := by
  have closed : ∀ c, slot l v ≠ .table c := fun c table => by
    rw [leaf] at table
    cases table
  refine ⟨h.setLeaf reach lt leaf, fun old => old.write h.tree reach lt closed tidy, fun confined _ x off => ?_⟩
  have away := confined.off h reach off
  have bound := idx.isLt
  refine setEntry_of_ne ?_
  unfold pageSize at away
  omega

theorem descend_neat {way : List (Fin 512)} (h : Hierarchy m root) (reach : Reached m.mem root (l + way.length) p n)
    (run : m.descend n way = .ok (c, m')) : Neat lo m m' root := by
  induction way generalizing m p n with
  | nil =>
    cases run
    exact .refl h
  | cons i rest ih =>
    obtain ⟨⟨c₁, m₁⟩, first, run⟩ := bind_ok run
    obtain ⟨evolves, reached, _, _⟩ := getOrMakeNext_ok (l := l + rest.length) h reach first
    exact (getOrMakeNext_neat (l := l + rest.length) h reach first).trans (ih (evolves.hierarchy h) reached run)

theorem enterLeaf_neat {way : List (Fin 512)} (h : Hierarchy m root) (depth : l + way.length = 3) (lt : v < 2 ^ 64)
    (leaf : slot l v = .leaf) (tidy : l = 0 → TidyEntry v) (run : m.enterLeaf root way idx v = .ok m') :
    Neat lo m m' root := by
  obtain ⟨⟨t, m₁⟩, down, run⟩ := bind_ok run
  have start : Reached m.mem root (l + way.length) [] root := reached_root depth
  obtain ⟨evolves, reach, _⟩ := descend_ok h start down
  cases run
  exact (descend_neat h start down).trans ((evolves.hierarchy h).setLeaf_neat reach lt leaf tidy)

theorem Entered.neat (h : Entered m m' root Request.Tidy) (hier : Hierarchy m root) : Neat lo m m' root := by
  obtain ⟨rs, clear, run⟩ := h
  induction rs generalizing m with
  | nil =>
    cases run
    exact .refl hier
  | cons r rs ih =>
    rw [enterAll_cons] at run
    obtain ⟨m₁, first, rest⟩ := bind_ok run
    have one : Neat lo m m₁ root := by
      unfold enter at first
      split at first
      · exact enterLeaf_neat hier rfl leaf2m_lt slot_leaf2m (fun none => absurd none (by decide)) (map2m_eq ▸ first)
      · exact enterLeaf_neat hier rfl leaf4k_lt slot_leaf4k (fun _ => leaf4k_tidy (clear r List.mem_cons_self))
          (map4k_eq ▸ first)
    exact one.trans (ih (one.evolves.hierarchy hier) (fun r hr => clear r (List.mem_cons_of_mem _ hr)) rest)

/-! ### Every loop enters pages -/

theorem pageWhile_entered {more : Nat → Nat → Bool} {f : Machine → Nat → Nat → Kernel Machine} {size va' pa' : Nat}
    {allowed : Request → Prop} (each : ∀ {m m' : Machine} {va pa : Nat}, f m va pa = .ok m' → Entered m m' root allowed)
    (run : pageWhile more f size m va pa fuel = .ok (m', va', pa')) : Entered m m' root allowed := by
  induction fuel generalizing m va pa with
  | zero => cases run
  | succ fuel ih =>
    rw [pageWhile] at run
    split at run
    · obtain ⟨m₁, first, rest⟩ := bind_ok run
      exact .trans (each first) (ih rest)
    · cases run
      exact .refl

theorem map4k_entered (clear : TidyFlags flags) (run : m.map4k root va pa flags = .ok m') :
    Entered m m' root Request.Tidy := .one (r := ⟨false, va, pa, flags⟩) run clear

theorem map2m_entered (clear : TidyFlags flags) (run : m.map2m root va pa flags = .ok m') :
    Entered m m' root Request.Tidy := .one (r := ⟨true, va, pa, flags⟩) run clear

theorem mapRange4k_entered {len : Nat} (clear : TidyFlags flags) (run : m.mapRange4k root va pa len flags = .ok m') :
    Entered m m' root Request.Tidy := by
  obtain ⟨⟨m₁, va', pa'⟩, loop, run⟩ := bind_ok run
  cases run
  exact pageWhile_entered (map4k_entered clear) loop

theorem mapRangeHugeFirst_entered {len : Nat} (run : m.mapRangeHugeFirst root va pa len 0 = .ok m') :
    Entered m m' root Request.Tidy := by
  obtain ⟨⟨m₁, va₁, pa₁⟩, head, run⟩ := bind_ok run
  obtain ⟨⟨m₂, va₂, pa₂⟩, body, run⟩ := bind_ok run
  obtain ⟨⟨m₃, va₃, pa₃⟩, tail, run⟩ := bind_ok run
  cases run
  exact .trans (.trans (pageWhile_entered (map4k_entered (by decide)) head)
    (pageWhile_entered (map2m_entered (by decide)) body)) (pageWhile_entered (map4k_entered (by decide)) tail)

theorem mapSection_entered {k : KernelAddress} {start : Nat} (clear : TidyFlags flags)
    (run : m.mapSection root k start stop flags = .ok m') : Entered m m' root Request.Tidy := by
  unfold mapSection at run
  dsimp only at run
  split at run
  · exact mapRange4k_entered clear run
  · cases run
    exact .refl

theorem mapKernelHigherHalf_entered (run : m.mapKernelHigherHalf boot root = .ok m') :
    Entered m m' root Request.Tidy := by
  unfold mapKernelHigherHalf at run
  split at run
  · cases run
  obtain ⟨m₁, text, run⟩ := bind_ok run
  obtain ⟨m₂, rodata, run⟩ := bind_ok run
  exact .trans (.trans (mapSection_entered (by decide) text) (mapSection_entered (by decide) rodata))
    (mapSection_entered (by decide) run)

theorem mapEntries_entered {entries : List MemmapEntry} (run : m.mapEntries root entries = .ok m') :
    Entered m m' root Request.Tidy := by
  induction entries generalizing m with
  | nil =>
    cases run
    exact .refl
  | cons e rest ih =>
    obtain ⟨m₁, first, run⟩ := bind_ok run
    refine .trans ?_ (ih run)
    unfold mapEntry at first
    dsimp only at first
    split at first
    · cases first
      exact .refl
    split at first
    · cases first
      exact .refl
    exact mapRangeHugeFirst_entered first

theorem mapHhdm_entered (run : m.mapHhdm boot root = .ok m') : Entered m m' root Request.Tidy := by
  unfold mapHhdm at run
  split at run
  · cases run
  split at run
  · cases run
  · cases run
  obtain ⟨m₁, entries, last⟩ := bind_ok run
  exact .trans (mapEntries_entered entries) (.one (r := ⟨true, _, 0, pteNX⟩) last (show TidyFlags pteNX by decide))

theorem ensureHhdmCoverPhysPage_entered (run : m.ensureHhdmCoverPhysPage root page = .ok m') :
    Entered m m' root (· = directRequest m.paging.hhdm (alignDown page pageSize) false) := by
  unfold ensureHhdmCoverPhysPage at run
  dsimp only at run
  split at run
  · cases run
    exact .refl
  · exact .one (r := directRequest m.paging.hhdm (alignDown page pageSize) false) run rfl

theorem directRequest_tidy (hhdm p : Nat) (large : Bool) : (directRequest hhdm p large).Tidy := by
  cases large
  · exact show TidyFlags (pteW ||| pteNX) by decide
  · exact show TidyFlags pteNX by decide

theorem coverLoop_entered (hier : Hierarchy m root) (aligned : page % pageSize = 0) (small : stop ≤ 2 ^ 52)
    (run : coverLoop root stop m page fuel = .ok m') :
    Entered m m' root fun r => ∃ p, p < stop ∧ r = directRequest m.paging.hhdm p false := by
  induction fuel generalizing m page with
  | zero => cases run
  | succ fuel ih =>
    rw [coverLoop] at run
    split at run
    · rename_i more
      obtain ⟨m₁, first, rest⟩ := bind_ok run
      have one := ensureHhdmCoverPhysPage_entered first
      have evolves := one.evolves hier
      have whole : alignDown page pageSize = page := Nat.div_mul_cancel (Nat.dvd_of_mod_eq_zero aligned)
      rw [add64_of_lt (show page + pageSize < 2 ^ 64 by unfold pageSize; omega)] at rest
      have later := ih (evolves.hierarchy hier) (by rw [Nat.add_mod_right]; exact aligned) rest
      rw [evolves.paging] at later
      exact .trans (one.mono fun r is => ⟨page, more, by rw [is, whole]⟩) later
    · cases run
      exact .refl

theorem preSwitchAuditAndPatch_entered {rsp : Nat} (hier : Hierarchy m root)
    (run : m.preSwitchAuditAndPatch boot rsp root = .ok m') : ∃ rspPhys, m.stackPhys boot root rsp = .ok rspPhys ∧
      Entered m m' root fun r => ∃ p, Audited rspPhys (m.paging.cr3 &&& addrMask) root p ∧
        r = directRequest m.paging.hhdm p false := by
  obtain ⟨rspPhys, stack, run⟩ := bind_ok run
  obtain ⟨m₁, low, run⟩ := bind_ok run
  obtain ⟨m₂, second, run⟩ := bind_ok run
  obtain ⟨m₃, third, run⟩ := bind_ok run
  obtain ⟨m₄, fourth, run⟩ := bind_ok run
  obtain ⟨_, _, run⟩ := bind_ok run
  obtain ⟨_, _, run⟩ := bind_ok run
  obtain ⟨_, _, run⟩ := bind_ok run
  obtain ⟨_, _, run⟩ := bind_ok run
  obtain ⟨_, _, run⟩ := bind_ok run
  cases run
  refine ⟨rspPhys, stack, ?_⟩
  unfold ensureHhdmCoverPhysRange at low
  rw [if_neg (by decide)] at low
  have range := coverLoop_entered hier (by decide) (by decide) low
  have paging₁ := (range.evolves hier).paging
  have hier₁ := (range.evolves hier).hierarchy hier
  have page₂ := ensureHhdmCoverPhysPage_entered second
  have paging₂ := (page₂.evolves hier₁).paging
  have hier₂ := (page₂.evolves hier₁).hierarchy hier₁
  have page₃ := ensureHhdmCoverPhysPage_entered third
  have paging₃ := (page₃.evolves hier₂).paging
  have page₄ := ensureHhdmCoverPhysPage_entered fourth
  rw [paging₃] at page₄
  rw [paging₂] at page₃ page₄
  rw [paging₁] at page₂ page₃ page₄
  refine .trans (.trans (.trans (range.mono ?_) (page₂.mono ?_)) (page₃.mono ?_)) (page₄.mono ?_)
  · rintro r ⟨p, lt, rfl⟩
    exact ⟨p, .inl (Nat.lt_of_lt_of_le lt (by decide)), rfl⟩
  · exact fun r is => ⟨_, .inr (.inl rfl), is⟩
  · exact fun r is => ⟨_, .inr (.inr (.inl rfl)), is⟩
  · exact fun r is => ⟨_, .inr (.inr (.inr rfl)), is⟩

/-! ### The whole bootstrap -/

structure Switched (m m' : Machine) : Prop where
  hierarchy : Hierarchy m' m'.paging.cr3
  plain : Plain m'.mem m'.paging.cr3
  tidy : Tidy m'.mem m'.paging.cr3
  level : Level m' m'.paging.cr3 1
  tables : ∀ {l p n}, Reached m'.mem m'.paging.cr3 l p n → m.early.cursor ≤ n ∧ n < m'.early.cursor
  early : m'.early = { m.early with cursor := m'.early.cursor }
  order : m.early.cursor ≤ m'.early.cursor
  bytes : ∀ x, x < m.early.cursor ∨ m'.early.cursor ≤ x → m'.mem x = m.mem x

theorem FreshRoot.tidy (h : FreshRoot m m' root) : Tidy m'.mem root := by
  intro p n i reach
  obtain rfl := h.tables reach
  obtain rfl := h.ready.hierarchy.tree.unshared .root reach
  exact absurd reach.length (by simp)

theorem pagingBootstrap_entered {rsp : Nat} (sound : m.early.Sound) (run : m.pagingBootstrap boot rsp = .ok m') :
    ∃ hhdm start root m₁, FreshRoot { m with paging := { m.paging with hhdm := hhdm } } start root ∧
      (∀ x, x < root ∨ root + pageSize ≤ x → start.mem x = m.mem x) ∧ Entered start m₁ root Request.Tidy ∧
      m' = { m₁ with paging := { m₁.paging with cr3 := root } } := by
  unfold pagingBootstrap at run
  split at run
  · cases run
  rename_i hhdm _
  dsimp only at run
  split at run
  · cases run
  rename_i nonzero
  obtain ⟨m₄, tables, run⟩ := bind_ok run
  obtain ⟨m₅, audit, run⟩ := bind_ok run
  cases run
  obtain ⟨⟨root, m₀⟩, alloc, tables⟩ := bind_ok tables
  have page : ∀ x, x < root ∨ root + pageSize ≤ x → m₀.mem x = m.mem x := fun x off => by
    rw [(allocTable_spec (m := { m with paging := { m.paging with hhdm := hhdm } }) sound alloc).bytes, if_neg (by omega)]
  have fresh := ((allocTable_root (m := { m with paging := { m.paging with hhdm := hhdm } }) sound nonzero).post alloc).select
  dsimp only at fresh tables
  have known : ({ m₀ with paging := { m₀.paging with pml4Phys := root } } : Machine).paging.pml4Phys = root := rfl
  change ∀ x, _ → ({ m₀ with paging := { m₀.paging with pml4Phys := root } } : Machine).mem x = m.mem x at page
  generalize ({ m₀ with paging := { m₀.paging with pml4Phys := root } } : Machine) = start at fresh tables known page
  obtain ⟨m₁, identity, tables⟩ := bind_ok tables
  obtain ⟨m₂, image, direct⟩ := bind_ok tables
  have built := Entered.trans
    (Entered.trans (mapRange4k_entered (by decide) identity) (mapKernelHigherHalf_entered image)) (mapHhdm_entered direct)
  have paging : m₄.paging.pml4Phys = root := by rw [(built.evolves fresh.ready.hierarchy).paging, known]
  rw [paging] at audit ⊢
  have hier := fresh.ready.hierarchy
  obtain ⟨_, _, audited⟩ := preSwitchAuditAndPatch_entered ((built.evolves hier).hierarchy hier) audit
  refine ⟨hhdm, start, root, m₅, fresh, page, built.trans (audited.mono ?_), rfl⟩
  rintro r ⟨p, _, rfl⟩
  exact directRequest_tidy _ _ _

theorem mapKernelHigherHalf_address (run : m.mapKernelHigherHalf boot root = .ok m') :
    ∃ k, boot.kernelAddress = some k := by
  unfold mapKernelHigherHalf at run
  split at run
  · cases run
  · exact ⟨_, ‹_›⟩

def bootRequests (k : KernelAddress) (s : Symbols) (hhdm : Nat) (entries : List MemmapEntry) : List Request :=
  identityRequests ++ kernelRequests k s ++ hhdmRequests hhdm entries

theorem mem_bootRequests {k : KernelAddress} {s : Symbols} {hhdm : Nat} {entries : List MemmapEntry} :
    r ∈ bootRequests k s hhdm entries ↔
      r ∈ identityRequests ∨ r ∈ kernelRequests k s ∨ r ∈ hhdmRequests hhdm entries := by
  rw [bootRequests, List.mem_append, List.mem_append, or_assoc]

structure Requested (boot : Boot) (rsp : Nat) (m m' : Machine) (hhdm : Nat) (entries : List MemmapEntry) (k : KernelAddress)
    (start asked audited : Machine) (root : Nat) : Prop where
  fresh : FreshRoot { m with paging := { m.paging with hhdm := hhdm } } start root
  address : boot.kernelAddress = some k
  pages : start.enterAll root (bootRequests k boot.symbols hhdm entries) = .ok asked
  paging : asked.paging = ⟨hhdm, root, m.paging.cr3⟩
  audit : asked.preSwitchAuditAndPatch boot rsp root = .ok audited
  switch : m' = { audited with paging := { audited.paging with cr3 := root } }

theorem pagingBootstrap_requests {rsp hhdm : Nat} {entries : List MemmapEntry} (sound : m.early.Sound)
    (offset : boot.hhdm = some hhdm) (aligned : hhdm % page2m = 0) (memmap : boot.memmap = some entries)
    (small : ∀ e ∈ entries, span e = 0 ∨ alignDown e.base pageSize + span e ≤ 2 ^ 52)
    (run : m.pagingBootstrap boot rsp = .ok m') :
    ∃ k start asked audited root, Requested boot rsp m m' hhdm entries k start asked audited root := by
  unfold pagingBootstrap at run
  rw [offset] at run
  dsimp only at run
  split at run
  · cases run
  rename_i nonzero
  obtain ⟨m₄, tables, run⟩ := bind_ok run
  obtain ⟨m₅, audit, run⟩ := bind_ok run
  cases run
  obtain ⟨⟨root, m₀⟩, alloc, tables⟩ := bind_ok tables
  have fresh := ((allocTable_root (m := { m with paging := { m.paging with hhdm := hhdm } }) sound nonzero).post alloc).select
  dsimp only at fresh tables
  have known : ({ m₀ with paging := { m₀.paging with pml4Phys := root } } : Machine).paging.pml4Phys = root := rfl
  generalize ({ m₀ with paging := { m₀.paging with pml4Phys := root } } : Machine) = start at fresh tables known
  have hier := fresh.ready.hierarchy
  have paging : start.paging = ⟨hhdm, root, m.paging.cr3⟩ := by
    have kept : start.paging.cr3 = m.paging.cr3 := fresh.cr3
    have here : start.paging.hhdm = hhdm := fresh.hhdm
    rw [← known, ← kept, ← here]
  obtain ⟨m₁, identity, tables⟩ := bind_ok tables
  rw [mapIdentityMinimal_requests] at identity
  obtain ⟨m₂, image, direct⟩ := bind_ok tables
  obtain ⟨k, address⟩ := mapKernelHigherHalf_address image
  rw [mapKernelHigherHalf_requests address] at image
  have evolves₁ := enterAll_evolves hier identity
  have evolves := evolves₁.trans (enterAll_evolves (evolves₁.hierarchy hier) image)
  have here : m₂.paging.hhdm = hhdm := by rw [evolves.paging, paging]
  obtain ⟨_, nonempty⟩ := mapHhdm_ready memmap direct
  rw [mapHhdm_requests (evolves.hierarchy hier) (by rw [here]; exact nonzero) (by rw [here]; exact aligned) memmap nonempty
    small, here] at direct
  have pages : start.enterAll root (bootRequests k boot.symbols hhdm entries) = .ok m₄ := by
    rw [bootRequests, enterAll_append, enterAll_append, bind_assoc, bind_eq identity, bind_eq image]
    exact direct
  have paging₄ : m₄.paging = ⟨hhdm, root, m.paging.cr3⟩ := by rw [(enterAll_evolves hier pages).paging, paging]
  have same : m₄.paging.pml4Phys = root := by rw [paging₄]
  rw [same] at audit ⊢
  exact ⟨k, start, m₄, m₅, root, fresh, address, pages, paging₄, audit, rfl⟩

theorem pagingBootstrap_switched {rsp : Nat} (sound : m.early.Sound) (run : m.pagingBootstrap boot rsp = .ok m') :
    Switched m m' := by
  obtain ⟨hhdm, start, root, m₁, fresh, other, entered, rfl⟩ := pagingBootstrap_entered sound run
  have hier := fresh.ready.hierarchy
  have neat : Neat root start m₁ root := entered.neat hier
  have evolves := neat.evolves
  have hier₁ := evolves.hierarchy hier
  have early : start.early = { m.early with cursor := m.early.cursor + pageSize } := fresh.early
  have cursor : start.early.cursor = m.early.cursor + pageSize := by rw [early]
  have place : root = m.early.cursor := fresh.place
  have order := evolves.order
  have page : 0 < pageSize := by decide
  refine ⟨⟨hier₁.tree, hier₁.sound, hier₁.apart⟩, evolves.plain fresh.ready.plain, neat.tidy fresh.tidy,
    fun va e k found => ?_, fun r => ?_, ?_, ?_, fun x off => ?_⟩
  · rcases entered.found hier found with old | ⟨r, _, _, leaf⟩
    · rw [fresh.empty] at old
      cases old
    · have level := congrArg Prod.snd leaf
      unfold Request.leaf at level
      split at level <;> dsimp only at level <;> omega
  · dsimp only
    rcases evolves.tables r with before | after
    · rw [fresh.tables before]
      omega
    · omega
  · change m₁.early = { m.early with cursor := m₁.early.cursor }
    rw [evolves.early, early]
  · change m.early.cursor ≤ m₁.early.cursor
    omega
  · change x < m.early.cursor ∨ m₁.early.cursor ≤ x at off
    have confined : Confined root start root := by
      intro l p n r
      rw [fresh.tables r]
      omega
    change m₁.mem x = m.mem x
    rw [neat.bytes confined (by omega) x (by omega), other x (by omega)]

end Voyager.Machine
