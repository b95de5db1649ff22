import Mathlib.Order.CompletePartialOrder
import Mathlib.Order.Interval.Set.Disjoint
import Voyager.Frames.Runs

/-! # From the early allocator to the frame allocator -/

namespace Voyager.Machine

open Lib

variable {m m' : Machine} {F : Finset Nat} {boot : Boot} {i p : Nat}

structure Handoff where
  machine : Machine
  ready : Bool -- `frame_init` has run.
  early : List Nat -- Results of `early_alloc_page`.
  given : List Nat -- Results of `frame_alloc`.
  outstanding : List Nat -- Those not freed since.

def pagesBetween (g g' : Early) : List Nat :=
  (List.range ((g'.cursor - g.cursor) / pageSize)).map fun i => g.cursor + i * pageSize

inductive HandoffStep (boot : Boot) : Handoff → Handoff → Prop where
  | earlyPage {s : Handoff} {p : Nat} {g : Early} : s.ready = false → s.machine.early.allocPage = .ok (p, g) →
      HandoffStep boot s { s with machine := { s.machine with early := g }, early := p :: s.early }
  | init {s : Handoff} {m : Machine} : s.ready = false → s.machine.frameInit boot = .ok m →
      HandoffStep boot s { s with machine := m, ready := true, early := pagesBetween s.machine.early m.early ++ s.early }
  | alloc {s : Handoff} {p : Nat} {m : Machine} : s.ready = true → s.machine.frameAlloc = .ok (p, m) →
      HandoffStep boot s { s with machine := m, given := p :: s.given, outstanding := p :: s.outstanding }
  | free {s : Handoff} {p : Nat} {m : Machine} : s.ready = true → p ∈ s.given → s.machine.nFrameFree p = .ok m →
      HandoffStep boot s { s with machine := m, outstanding := s.outstanding.erase p }
  -- The rest of the kernel writes; the bitmaps are the allocator's own.
  | other {s : Handoff} {mem : ByteSpace.Bytes} :
      (s.ready = true → ∀ x, ¬ s.machine.OutsideBitmaps x → mem x = s.machine.mem x) →
      HandoffStep boot s { s with machine := { s.machine with mem } }

def HandoffRun (boot : Boot) : Handoff → Prop :=
  Reachable (fun s => Early.init boot .zero = .ok s.machine.early ∧ s.ready = false ∧ s.early = [] ∧
    s.given = [] ∧ s.outstanding = []) (HandoffStep boot)

def EarlyBelow (g : Early) (pages : List Nat) : Prop :=
  ∀ p ∈ pages, p % pageSize = 0 ∧ g.base ≤ p ∧ p < g.cursor

def BitmapPages (m : Machine) (pages : List Nat) : Prop :=
  ∃ n, m.frames.allocBm + n * pageSize ≤ m.frames.usableBm ∧ m.frames.frameCount ≤ 8 * (n * pageSize) ∧
    ∀ i < n, m.frames.allocBm + i * pageSize ∈ pages ∧ m.frames.usableBm + i * pageSize ∈ pages

structure Owned (boot : Boot) (s : Handoff) (F : Finset Nat) : Prop where
  managed : Managed s.machine F
  available : ∀ i ∈ F, Available boot s.machine.early i
  given : ∀ p ∈ s.given, p % pageSize = 0 ∧ Available boot s.machine.early (p / pageSize)
  held : ∀ p ∈ s.outstanding, p ∈ s.given ∧ p / pageSize ∉ F
  returned : ∀ p ∈ s.given, p ∉ s.outstanding → p / pageSize ∈ F
  distinct : s.outstanding.Nodup
  bitmaps : BitmapPages s.machine s.early

structure HandoffInv (boot : Boot) (s : Handoff) : Prop where
  sound : s.machine.early.Sound
  memmap : boot.memmap ≠ none
  below : EarlyBelow s.machine.early s.early
  before : s.ready = false → s.given = [] ∧ s.outstanding = []
  after : s.ready = true → ∃ F, Owned boot s F

theorem pagesBetween_below {g g' : Early} {pages : Nat} (sound : g.Sound) (base : g'.base = g.base)
    (cursor : g'.cursor = g.cursor + pages * pageSize) : EarlyBelow g' (pagesBetween g g') := by
  intro p hp
  obtain ⟨i, hi, rfl⟩ := List.mem_map.mp hp
  rw [List.mem_range, cursor, Nat.add_sub_cancel_left, Nat.mul_div_cancel _ (by decide)] at hi
  obtain ⟨_, ⟨_, al⟩, low, _⟩ := sound
  unfold pageSize at *
  rw [base, cursor]
  omega

theorem mem_pagesBetween {g g' : Early} {pages : Nat} (cursor : g'.cursor = g.cursor + pages * pageSize)
    (lt : i < pages) :
    g.cursor + i * pageSize ∈ pagesBetween g g' := by
  refine List.mem_map.mpr ⟨i, ?_, rfl⟩
  rwa [List.mem_range, cursor, Nat.add_sub_cancel_left, Nat.mul_div_cancel _ (by decide)]

variable {s t : Handoff}

theorem Owned.congr (h : Owned boot s F) (managed : Managed t.machine F) (early : t.machine.early = s.machine.early)
    (frames : t.machine.frames = s.machine.frames) (pages : t.early = s.early) (given : t.given = s.given)
    (outstanding : t.outstanding = s.outstanding) : Owned boot t F := by
  refine ⟨managed, ?_, ?_, ?_, ?_, ?_, ?_⟩
  · rw [early]; exact h.available
  · rw [early, given]; exact h.given
  · rw [given, outstanding]; exact h.held
  · rw [given, outstanding]; exact h.returned
  · rw [outstanding]; exact h.distinct
  · unfold BitmapPages
    rw [frames, pages]
    exact h.bitmaps

theorem eq_of_frame {q : Nat} (hp : p % pageSize = 0) (hq : q % pageSize = 0)
    (same : p / pageSize = q / pageSize) : p = q := by
  unfold pageSize at *
  omega

theorem Owned.alloc {m : Machine} (h : Owned boot s F) (run : s.machine.frameAlloc = .ok (p, m)) :
    ∃ F', Owned boot { s with machine := m, given := p :: s.given, outstanding := p :: s.outstanding } F' ∧
      m.early = s.machine.early := by
  rcases F.eq_empty_or_nonempty with rfl | ne
  · rw [frameAlloc_empty h.managed] at run
    cases run
  rw [frameAlloc_spec h.managed ne] at run
  cases run
  have member := F.min'_mem ne
  obtain ⟨managed, same⟩ := h.managed.take member fun j hj => F.min'_le j hj
  have aligned : F.min' ne * pageSize % pageSize = 0 := Nat.mul_mod_left _ _
  have index : F.min' ne * pageSize / pageSize = F.min' ne := Nat.mul_div_cancel _ (by decide)
  have fresh : F.min' ne * pageSize ∉ s.outstanding := fun again => (h.held _ again).2 (by rw [index]; exact member)
  refine ⟨F.erase (F.min' ne), ⟨managed, fun i hi => ?_, fun q hq => ?_, fun q hq => ?_, fun q hq out => ?_,
    List.nodup_cons.mpr ⟨fresh, h.distinct⟩, h.bitmaps⟩, same.early⟩
  · exact h.available i (Finset.mem_of_mem_erase hi)
  · rcases List.mem_cons.mp hq with rfl | hq
    · rw [index]
      exact ⟨aligned, h.available _ member⟩
    · exact h.given q hq
  · rcases List.mem_cons.mp hq with rfl | hq
    · rw [index]
      exact ⟨List.mem_cons_self, Finset.notMem_erase _ _⟩
    · obtain ⟨got, out⟩ := h.held q hq
      exact ⟨List.mem_cons_of_mem _ got, fun again => out (Finset.mem_of_mem_erase again)⟩
  · rw [List.mem_cons, not_or] at out
    have got := (List.mem_cons.mp hq).resolve_left out.1
    refine Finset.mem_erase.mpr ⟨fun e => out.1 ?_, h.returned q got out.2⟩
    exact eq_of_frame (h.given q got).1 aligned (by rw [e, index])

theorem Owned.free {m : Machine} (h : Owned boot s F) (got : p ∈ s.given) (run : s.machine.nFrameFree p = .ok m) :
    ∃ F', Owned boot { s with machine := m, outstanding := s.outstanding.erase p } F' ∧ m.early = s.machine.early := by
  obtain ⟨aligned, _, out, managed, same⟩ := nFrameFree_spec h.managed run
  have bitmaps : BitmapPages m s.early := by
    unfold BitmapPages
    rw [same.allocBm, same.usableBm, same.frameCount]
    exact h.bitmaps
  refine ⟨insert (p / pageSize) F, ⟨managed, ?_, ?_, fun q hq => ?_, fun q hq back => ?_, h.distinct.erase p, bitmaps⟩,
    same.early⟩
  · rw [same.early]
    intro i hi
    rcases Finset.mem_insert.mp hi with rfl | hi
    · exact (h.given p got).2
    · exact h.available i hi
  · rw [same.early]
    exact h.given
  · obtain ⟨ne, hq⟩ := h.distinct.mem_erase_iff.mp hq
    obtain ⟨had, taken⟩ := h.held q hq
    refine ⟨had, fun hi => ?_⟩
    rcases Finset.mem_insert.mp hi with e | hi
    · exact ne (eq_of_frame (h.given q had).1 aligned e)
    · exact taken hi
  · by_cases e : q = p
    · rw [e]
      exact Finset.mem_insert_self _ _
    · refine Finset.mem_insert_of_mem (h.returned q hq fun held => back ?_)
      exact (List.mem_erase_of_ne e).mpr held

theorem HandoffInv.init {m : Machine} (h : HandoffInv boot s) (inRange : Early.InRange (boot.memmap.getD []))
    (notReady : s.ready = false) (run : s.machine.frameInit boot = .ok m) :
    HandoffInv boot { s with machine := m, ready := true, early := pagesBetween s.machine.early m.early ++ s.early } := by
  obtain ⟨entries, memmap⟩ := Option.ne_none_iff_exists'.mp h.memmap
  rw [memmap] at inRange
  obtain ⟨F, managed, members, placed, _⟩ := frameInit_spec memmap inRange h.sound run
  generalize bitmapPages entries = pages at placed
  obtain ⟨none, nothing⟩ := h.before notReady
  have base : m.early.base = s.machine.early.base := by rw [placed.early]
  have cursor : m.early.cursor = s.machine.early.cursor + (pages + pages) * pageSize := by
    rw [placed.early, Nat.add_mul]
    change _ + 2 * (pages * pageSize) = _
    omega
  have count : m.frames.frameCount ≤ 8 * (pages * pageSize) := by
    have large := placed.large
    unfold bmBytes at large
    omega
  refine ⟨placed.sound, h.memmap, ?_, fun ready => (by cases ready),
    fun _ => ⟨F, managed, ?_, ?_, ?_, ?_, ?_, pages, ?_, count, ?_⟩⟩
  · intro p hp
    rcases List.mem_append.mp hp with hp | hp
    · exact pagesBetween_below h.sound base cursor p hp
    · obtain ⟨al, low, high⟩ := h.below p hp
      dsimp only
      rw [base, cursor]
      exact ⟨al, low, by omega⟩
  · exact fun i hi => ((members i).mp hi).2
  · simp [none]
  · simp [nothing]
  · simp [none]
  · simp [nothing]
  · dsimp only
    rw [placed.alloc, placed.usable]
  · intro i lt
    dsimp only
    rw [placed.alloc, placed.usable]
    refine ⟨List.mem_append_left _ (mem_pagesBetween cursor (by omega)), List.mem_append_left _ ?_⟩
    have second : s.machine.early.cursor + (pages + i) * pageSize ∈ pagesBetween s.machine.early m.early :=
      mem_pagesBetween cursor (by omega)
    rwa [Nat.add_mul, ← Nat.add_assoc] at second

theorem HandoffRun.inv (h : HandoffRun boot s) (inRange : Early.InRange (boot.memmap.getD [])) :
    HandoffInv boot s := by
  induction h with
  | @start s begun =>
    obtain ⟨init, notReady, early, given, outstanding⟩ := begun
    obtain ⟨sound, entries, memmap, _⟩ := (show EarlyRun boot s.machine.early from .start init).sound inRange
    refine ⟨sound, by simp [memmap], by simp [EarlyBelow, early], fun _ => ⟨given, outstanding⟩, fun ready => ?_⟩
    rw [notReady] at ready
    cases ready
  | @step s t _ taken ih =>
    cases taken with
    | @earlyPage p g notReady run =>
      obtain ⟨rfl, rfl, sound⟩ := Early.allocPage_spec ih.sound run
      refine ⟨sound, ih.memmap, fun q hq => ?_, ih.before, fun ready => ?_⟩
      · have page : 0 < pageSize := by decide
        rcases List.mem_cons.mp hq with rfl | hq
        · exact ⟨ih.sound.aligned.2, ih.sound.bounds.1, by dsimp only; omega⟩
        · obtain ⟨al, low, high⟩ := ih.below q hq
          exact ⟨al, low, by dsimp only; omega⟩
      · rw [show s.ready = true from ready] at notReady
        cases notReady
    | init notReady run => exact ih.init inRange notReady run
    | @alloc p m ready run =>
      obtain ⟨F, owned⟩ := ih.after ready
      obtain ⟨F', owned', early⟩ := owned.alloc run
      refine ⟨by rw [early]; exact ih.sound, ih.memmap, by rw [early]; exact ih.below, fun notReady => ?_,
        fun _ => ⟨F', owned'⟩⟩
      rw [show s.ready = false from notReady] at ready
      cases ready
    | @free p m ready got run =>
      obtain ⟨F, owned⟩ := ih.after ready
      obtain ⟨F', owned', early⟩ := owned.free got run
      refine ⟨by rw [early]; exact ih.sound, ih.memmap, by rw [early]; exact ih.below, fun notReady => ?_,
        fun _ => ⟨F', owned'⟩⟩
      rw [show s.ready = false from notReady] at ready
      cases ready
    | other kept =>
      refine ⟨ih.sound, ih.memmap, ih.below, ih.before, fun ready => ?_⟩
      obtain ⟨F, owned⟩ := ih.after ready
      exact ⟨F, owned.congr (owned.managed.other rfl (kept ready)) rfl rfl rfl rfl rfl⟩

def Apart (e f : MemmapEntry) : Prop :=
  e.type = .usable ∨ f.type = .usable → Disjoint (Set.Ico e.base (e.base + e.length))
    (Set.Ico f.base (f.base + f.length))

instance : Std.Symm Apart := ⟨fun _ _ h meet => (h meet.symm).symm⟩

/-- The guarantee of Limine: USABLE entries overlap nothing. -/
def UsableDisjoint (entries : List MemmapEntry) : Prop := entries.Pairwise Apart

structure HandoffSafe (boot : Boot) (s : Handoff) : Prop where
  notEarly : ∀ p ∈ s.given, p ∉ s.early
  offKernel : ∀ p ∈ s.given, ∀ k, boot.kernelAddress = some k →
    Disjoint (Set.Ico p (p + pageSize)) (Set.Ico (kernelRange k boot.symbols).1 (kernelRange k boot.symbols).2)
  offReserved : ∀ p ∈ s.given, ∀ e ∈ boot.memmap.getD [], e.type ≠ .usable →
    Disjoint (Set.Ico p (p + pageSize)) (Set.Ico e.base (e.base + e.length))
  distinct : s.outstanding.Nodup
  bitmaps : s.ready = true → BitmapPages s.machine s.early

theorem off_of_not_meeting {base stop : Nat} (aligned : p % pageSize = 0) (small : stop ≤ 2 ^ 52)
    (out : p / pageSize ∉ meeting base stop) : Disjoint (Set.Ico p (p + pageSize)) (Set.Ico base stop) := by
  rw [Set.disjoint_left]
  rintro x ⟨low, high⟩ ⟨le, lt⟩
  apply out
  unfold meeting alignUp
  rw [if_neg (by omega), add64_of_lt (by unfold pageSize; omega), Finset.mem_Ico]
  unfold pageSize at *
  omega

theorem inside_of_within {base stop : Nat} (aligned : p % pageSize = 0) (small : stop ≤ 2 ^ 52)
    (inside : p / pageSize ∈ within base stop) : base ≤ p ∧ p + pageSize ≤ stop := by
  unfold within at inside
  split at inside
  · simp at inside
  unfold alignUp at inside
  rw [add64_of_lt (by unfold pageSize; omega), Finset.mem_Ico] at inside
  unfold pageSize at *
  omega

theorem handoff_safe (inRange : Early.InRange (boot.memmap.getD [])) (limine : UsableDisjoint (boot.memmap.getD []))
    (kernel : ∀ k, boot.kernelAddress = some k → (kernelRange k boot.symbols).2 ≤ 2 ^ 52) (h : HandoffRun boot s) :
    HandoffSafe boot s := by
  have inv := h.inv inRange
  by_cases ready : s.ready = true
  · obtain ⟨F, owned⟩ := inv.after ready
    refine ⟨fun p hp early => ?_, fun p hp k found => ?_, fun p hp e he other => ?_, owned.distinct,
      fun _ => owned.bitmaps⟩
    · have out := (owned.given p hp).2.not_early inv.sound
      obtain ⟨aligned, low, high⟩ := inv.below p early
      have below : s.machine.early.cursor ≤ 2 ^ 52 := Nat.le_trans inv.sound.bounds.2.1 inv.sound.bounds.2.2
      have apart := off_of_not_meeting aligned below out
      exact Set.disjoint_left.mp apart ⟨Nat.le_refl p, Nat.lt_add_of_pos_right (by decide)⟩ ⟨low, high⟩
    · obtain ⟨aligned, _, free⟩ := owned.given p hp
      exact off_of_not_meeting aligned (kernel k found) fun hit => free (.inl ⟨k, found, hit⟩)
    · obtain ⟨aligned, ⟨u, hu, usable, inside⟩, _⟩ := owned.given p hp
      have stop := Early.stop_eq inRange hu
      have small := inRange u hu
      obtain ⟨low, high⟩ := inside_of_within aligned (by omega) inside
      have apart := List.Pairwise.forall limine hu he (fun same => other (same ▸ usable)) (.inl usable)
      exact Disjoint.mono_left (Set.Ico_subset_Ico low (by omega)) apart
  · obtain ⟨none, nothing⟩ := inv.before (Bool.eq_false_iff.mpr ready)
    exact ⟨by simp [none], by simp [none], by simp [none], by simp [nothing], fun h => absurd h ready⟩

theorem handoff_safe_sample : ∃ s, HandoffRun sampleBoot s ∧ s.given = [0x6000] ∧ HandoffSafe sampleBoot s := by
  obtain ⟨m, m', init, taken⟩ := sample_frameAlloc
  have start : HandoffRun sampleBoot ⟨sampleMachine, false, [], [], []⟩ := .start ⟨sample_earlyInit, rfl, rfl, rfl, rfl⟩
  have run := (start.step (.init rfl init)).step (.alloc rfl taken)
  refine ⟨_, run, rfl, handoff_safe sample_inRange ?_ ?_ run⟩
  · simp [UsableDisjoint, Apart, sampleBoot, Set.Ico_disjoint_Ico]
  · intro k found
    cases found
    decide

end Voyager.Machine
