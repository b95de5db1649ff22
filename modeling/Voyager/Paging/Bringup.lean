import Voyager.Frames.Handoff
import Voyager.Paging.Protection
import Voyager.Paging.Spares
import Voyager.Paging.Supply

/-!
# From the early pages to the frame allocator

The tables of the new address space and the bitmaps are early pages, so none of them is among
the frames that `frame_init` frees.
-/

namespace Voyager.Machine

open Lib Lib.RadixTable Paging

def memoryBringup (boot : Boot) (rsp : Nat) (m : Machine) : Kernel Machine := do
  let early ← Early.init boot m.early
  let m ← ({ m with early } : Machine).pagingBootstrap boot rsp
  m.frameInit boot

variable {m m₁ m' : Machine} {boot : Boot} {entries : List MemmapEntry} {k : KernelAddress} {rsp x : Nat} {F : Finset Nat}

theorem BringupInput.inRange (h : BringupInput boot entries k) : Early.InRange entries := fun e he =>
  Nat.le_trans (h.below e he) (by decide)

theorem earlyInit_spec {early : Early} (input : BringupInput boot entries k)
    (init : Early.init boot .zero = .ok early) :
    early.Sound ∧ early.cursor = early.base ∧ early.stop ≤ physLimit := by
  obtain ⟨sound, start, e, he, _, _, high, _, _⟩ := Early.init_spec input.memmap input.inRange init
  exact ⟨sound, start, Nat.le_trans high (input.below e he)⟩

theorem Available.off_early (h : Available boot m.early (x / pageSize)) (sound : m.early.Sound) :
    x < m.early.base ∨ m.early.cursor ≤ x := by
  have top : m.early.cursor ≤ 2 ^ 52 := Nat.le_trans sound.bounds.2.1 sound.bounds.2.2
  have page : x / pageSize * pageSize / pageSize = x / pageSize := frame_page _
  have apart := off_of_not_meeting (p := x / pageSize * pageSize) (Nat.mul_mod_left _ _) top
    (by rw [page]; exact h.not_early sound)
  have inside : x ∈ Set.Ico (x / pageSize * pageSize) (x / pageSize * pageSize + pageSize) := by
    rw [Set.mem_Ico]
    unfold pageSize
    omega
  have out := Set.disjoint_left.mp apart inside
  rw [Set.mem_Ico] at out
  omega

theorem Switched.runtime (h : Switched m m₁) (start : m.early.base ≤ m.early.cursor) (memmap : boot.memmap = some entries)
    (inRange : Early.InRange entries) (run : m₁.frameInit boot = .ok m') :
    ∃ F, Runtime m' m'.currentPml4Phys F ∧ m'.currentPml4Phys = m₁.paging.cr3 ∧
      (∀ {l p n}, Reached m₁.mem m₁.paging.cr3 l p n → ∀ x, n ≤ x → x < n + pageSize → m'.mem x = m₁.mem x) ∧
      (∀ x, x < m₁.early.cursor → m'.mem x = m₁.mem x) ∧
      (∀ i, i ∈ F ↔ i < framesOf entries ∧ Available boot m'.early i) ∧
      m'.early = { m.early with cursor := m₁.early.cursor + 2 * (bitmapPages entries * pageSize) } := by
  obtain ⟨F, managed, members, placed, kept, number⟩ := frameInit_spec memmap inRange h.hierarchy.sound run
  have base : m'.early.base = m.early.base := by rw [placed.early, h.early]
  have cursor : m'.early.cursor = m₁.early.cursor + 2 * (bitmapPages entries * pageSize) := by rw [placed.early]
  have aligned := h.hierarchy.tree.aligned
  obtain ⟨_, low⟩ := h.tables .root
  have top := h.hierarchy.sound.bounds
  have root : m'.currentPml4Phys = m₁.paging.cr3 := by
    have same : m'.paging.cr3 = m₁.paging.cr3 := by rw [placed.paging]
    rw [currentPml4Phys_eq (by rw [same]; exact aligned) (by rw [same]; omega), same]
  -- Tables lie below the bitmaps.
  have below : ∀ x, x < m₁.early.cursor → m'.OutsideBitmaps x := by
    intro x lt
    constructor
    · rw [placed.alloc]
      exact .inl lt
    · rw [placed.usable]
      exact .inl (Nat.lt_of_lt_of_le lt (Nat.le_add_right _ _))
  have outside : ∀ {l p n}, Reached m₁.mem m₁.paging.cr3 l p n → ∀ x,
    x / pageSize = n / pageSize → m'.OutsideBitmaps x := by
    intro l p n reach x page
    have under := (h.tables reach).2
    have tableAligned := h.hierarchy.tree.node_aligned reach
    have cursorAligned := h.hierarchy.sound.aligned.2
    apply below
    unfold pageSize at *
    omega
  have same : ∀ {l p n}, Reached m₁.mem m₁.paging.cr3 l p n → ∀ x, n ≤ x → x < n + pageSize → m'.mem x = m₁.mem x :=
    fun r x low high => kept x (outside r x ((in_page (h.hierarchy.tree.node_aligned r)).mp ⟨low, high⟩))
  have grown : Grown m₁.mem m'.mem m₁.paging.cr3 (fun _ => False) := h.hierarchy.tree.same same
  have old : ∀ {l p n}, Reached m'.mem m₁.paging.cr3 l p n → Reached m₁.mem m₁.paging.cr3 l p n := fun r =>
    (grown.tables r).resolve_right id
  have free : ∀ x, x / pageSize ∈ F → x < m'.early.base ∨ m'.early.cursor ≤ x := fun x inside =>
    ((members _).mp inside).2.off_early placed.sound
  rw [root]
  refine ⟨F, ⟨managed, grown.tree, grown.plain h.plain, fun {l p n} r => ⟨fun inside => ?_, outside (old r)⟩,
    fun x inside => ?_⟩, rfl, same, fun x lt => kept x (below x lt), number ▸ members, ?_⟩
  · have away := free n inside
    have taken := h.tables (old r)
    omega
  · have away := free x inside
    have large := placed.large
    constructor
    · rw [placed.alloc]
      omega
    · rw [placed.usable]
      omega
  · rw [placed.early, h.early]

theorem Bootstrapped.runtime (h : Bootstrapped m m₁) (switched : Switched m m₁) (start : m.early.base ≤ m.early.cursor)
    (memmap : boot.memmap = some entries)
    (inRange : Early.InRange entries) (run : m₁.frameInit boot = .ok m') :
    ∃ F, Runtime m' m'.currentPml4Phys F ∧ (∀ va, slotOf va = heapSlot → leafOf m'.mem m'.currentPml4Phys va = none) ∧
      (∀ va, leafOf m'.mem m'.currentPml4Phys va = leafOf m₁.mem m₁.paging.cr3 va) ∧
      (∀ i, i ∈ F ↔ i < framesOf entries ∧ Available boot m'.early i) ∧
      m'.early = { m.early with cursor := m₁.early.cursor + 2 * (bitmapPages entries * pageSize) } := by
  obtain ⟨F, runtime, root, same, _, members, early⟩ := switched.runtime start memmap inRange run
  have grown : Grown m₁.mem m'.mem m₁.paging.cr3 (fun _ => False) := h.hierarchy.tree.same same
  have leaves : ∀ va, leafOf m'.mem m'.currentPml4Phys va = leafOf m₁.mem m₁.paging.cr3 va := by
    rw [root]
    exact grown.leaves
  exact ⟨F, runtime, fun va is => (leaves va).trans (h.empty va is), leaves, members, early⟩

/-- A run that returns, step by step. -/
structure BringupSteps (boot : Boot) (rsp : Nat) (m m' : Machine) (early : Early) (m₁ : Machine) : Prop where
  init : Early.init boot .zero = .ok early
  sound : early.Sound
  start : early.base ≤ early.cursor
  bootstrap : ({ m with early } : Machine).pagingBootstrap boot rsp = .ok m₁
  switched : Switched { m with early } m₁
  frames : m₁.frameInit boot = .ok m'

theorem memoryBringup_steps (memmap : boot.memmap = some entries) (inRange : Early.InRange entries) (fresh : m.early = .zero)
    (run : m.memoryBringup boot rsp = .ok m') : ∃ early m₁, BringupSteps boot rsp m m' early m₁ := by
  obtain ⟨early, init, run⟩ := bind_ok run
  rw [fresh] at init
  obtain ⟨sound, start, _⟩ := Early.init_spec memmap inRange init
  obtain ⟨m₁, bootstrap, frames⟩ := bind_ok run
  have switched := pagingBootstrap_switched (m := { m with early }) sound bootstrap
  exact ⟨early, m₁, init, sound, Nat.le_of_eq start.symm, bootstrap, switched, frames⟩

theorem memoryBringup_returns {early : Early} {hhdm : Nat} (input : HhdmInput boot hhdm entries k)
    (layout : ImageLayout boot.symbols k) (offset : boot.hhdm = some hhdm) (inRange : Early.InRange entries)
    (fresh : m.early = .zero) (init : Early.init boot .zero = .ok early)
    (stack : hhdm ≤ rsp ∧ rsp < add64 hhdm (getMaxPhys boot))
    (rip : InSection boot.symbols.textStart boot.symbols.textEnd boot.symbols.preSwitchAuditAndPatch)
    (some : framesOf entries ≠ 0) (pos : 0 < bitmapPages entries)
    (room : early.cursor + bootstrapNeeded boot entries * pageSize + 2 * (bitmapPages entries * pageSize) ≤ early.stop) :
    ∃ m', m.memoryBringup boot rsp = .ok m' ∧ m'.early.base = early.base ∧
      m'.early.cursor ≤ early.cursor + bootstrapNeeded boot entries * pageSize + 2 * (bitmapPages entries * pageSize) := by
  obtain ⟨sound, start, _⟩ := Early.init_spec input.memmap inRange init
  have builds := pagingBootstrap_builds (m := { m with early }) input layout offset sound stack rip
  obtain ⟨m₁, bootstrap, _⟩ := builds.returns (show early.cursor + _ ≤ early.stop by omega)
  obtain ⟨stop, cursor⟩ := builds.early bootstrap
  change m₁.early.stop = early.stop at stop
  change m₁.early.cursor ≤ early.cursor + _ at cursor
  have switched := pagingBootstrap_switched (m := { m with early }) sound bootstrap
  obtain ⟨m', frames⟩ := frameInit_returns input.memmap input.nonempty (by rw [offset]; rfl) input.address
    switched.hierarchy.sound some pos (by omega)
  obtain ⟨_, _, _, _, _, _, now⟩ := switched.runtime (Nat.le_of_eq start.symm) input.memmap inRange frames
  refine ⟨m', ?_, by rw [now], by rw [now]; dsimp only; omega⟩
  unfold memoryBringup
  rw [fresh, bind_eq init]
  exact (bind_eq bootstrap).trans frames

theorem memoryBringup_runtime (input : BringupInput boot entries k) (fresh : m.early = .zero)
    (old : (m.paging.cr3 &&& addrMask) < physLimit) (run : m.memoryBringup boot rsp = .ok m') :
    ∃ F, Runtime m' m'.currentPml4Phys F ∧ ∀ va, slotOf va = heapSlot → leafOf m'.mem m'.currentPml4Phys va = none := by
  obtain ⟨early, m₁, steps⟩ := memoryBringup_steps input.memmap input.inRange fresh run
  have region := (earlyInit_spec input steps.init).2.2
  have bootstrapped := pagingBootstrap_spares (m := { m with early }) input steps.sound region old steps.bootstrap
  obtain ⟨F, runtime, empty, _⟩ := bootstrapped.runtime steps.switched steps.start input.memmap input.inRange steps.frames
  exact ⟨F, runtime, empty⟩

end Voyager.Machine
