import Voyager.Frames.Runs
import Voyager.Lib.Halting

/-!
# What `n_frame_free` accepts, and what `frame_init` reserves

`n_frame_free` cannot tell a frame that `frame_alloc` gave out from a usable one that
`frame_init` reserved.
-/

namespace Voyager.Machine

open Lib

variable {m m' m₀ : Machine} {U : Nat → Prop} {F : Finset Nat} {boot : Boot} {entries : List MemmapEntry} {i j p : Nat}

/-- `n_frame_free` with a state that survives the panic. -/
def Stepwise.nFrameFree (paddr : Nat) : EStateM Halt Machine Unit := do
  if paddr % pageSize ≠ 0 then throw (.panic (.freeUnaligned paddr))
  else if paddr ≥ (← get).frames.maxPhys then throw (.panic (.freeOutOfBounds paddr))
  else
    let i := frameIndexOf paddr
    if !bmTest (← get).mem (← get).frames.usableBm i then throw (.panic (.freeNonUsable paddr))
    else if !bmTest (← get).mem (← get).frames.allocBm i then throw (.panic (.freeTwice paddr))
    else
      modify fun m => { m with mem := bmClear m.mem m.frames.allocBm i }
      modify fun m => { m with frames := { m.frames with freeCount := m.frames.freeCount + 1 } }
      if i < (← get).frames.hint then modify fun m => m.withHint i else pure ()

/-- Both embeddings agree, and a panic comes before the first write. -/
theorem Stepwise.run_nFrameFree (p : Nat) (m : Machine) :
    (Stepwise.nFrameFree p).run m =
      match m.nFrameFree p with
      | .ok t => .ok () t
      | .error e => .error e m := by
  unfold Stepwise.nFrameFree Machine.nFrameFree
  split
  · rfl
  rw [(reads_get m).run_bind]
  split
  · rfl
  rw [(reads_get m).run_bind, (reads_get m).run_bind]
  dsimp only
  split
  · rfl
  rw [(reads_get m).run_bind, (reads_get m).run_bind]
  split
  · rfl
  change (if frameIndexOf p < m.frames.hint then _ else _ : EStateM Halt Machine Unit).run _ = _
  split <;> rfl

/-! ### One call, with the usable bitmap -/

theorem Marked.take (h : Marked m U F) (hi : i ∈ F) : Marked (m.take i) U (F.erase i) where
  toBitmaps := (h.toBitmaps.take hi).1
  marks j hj := by
    exact h.marks_of_alloc_write (h.inside i hi) hj fun x ne => Bitmap.set_of_ne ne

theorem Marked.other {mem : ByteSpace.Bytes} (h : Marked m U F)
    (kept : ∀ x, ¬ m.OutsideBitmaps x → mem x = m.mem x) : Marked { m with mem } U F where
  toBitmaps := h.toBitmaps.other rfl kept
  marks j hj := by
    have byte := byte_lt (m := m) hj
    have same : bmTest mem m.frames.usableBm j = bmTest m.mem m.frames.usableBm j :=
      Bitmap.test_congr (kept _ fun out => by have := out.2; omega)
    exact (iff_of_eq (congrArg (· = true) same)).trans (h.marks j hj)

/-! ### The ledger -/

structure Ledger where
  machine : Machine
  outstanding : List Nat -- Results of `frame_alloc` not freed since.
  freed : List Nat -- Every argument `n_frame_free` has returned from.

/-- Calls after `frame_init`; `allowed` restricts the arguments of `n_frame_free`. -/
inductive LedgerStep (allowed : Ledger → Nat → Prop) : Ledger → Ledger → Prop where
  | alloc {s : Ledger} {p : Nat} {m : Machine} : s.machine.frameAlloc = .ok (p, m) →
      LedgerStep allowed s { s with machine := m, outstanding := p :: s.outstanding }
  | free {s : Ledger} {p : Nat} {m : Machine} : allowed s p → s.machine.nFrameFree p = .ok m →
      LedgerStep allowed s { s with machine := m, outstanding := s.outstanding.erase p, freed := p :: s.freed }
  -- The rest of the kernel writes outside the bitmaps.
  | other {s : Ledger} {mem : ByteSpace.Bytes} : (∀ x, ¬ s.machine.OutsideBitmaps x → mem x = s.machine.mem x) →
      LedgerStep allowed s { s with machine := { s.machine with mem } }

def LedgerRun (allowed : Ledger → Nat → Prop) (m : Machine) : Ledger → Prop :=
  Reachable (· = ⟨m, [], []⟩) (LedgerStep allowed)

def anyArgument (_ : Ledger) (_ : Nat) : Prop := True

def ownFrames (s : Ledger) (p : Nat) : Prop := p ∈ s.outstanding

structure LedgerInv (boot : Boot) (s : Ledger) (F : Finset Nat) : Prop where
  marked : Marked s.machine (UsableFrame boot) F
  members : ∀ i, i ∈ F ↔ i < s.machine.frames.frameCount ∧ UsableFrame boot i ∧ i * pageSize ∉ s.outstanding ∧
    (Reserved boot s.machine.early i → i * pageSize ∈ s.freed)
  held : ∀ p ∈ s.outstanding, p % pageSize = 0 ∧ p / pageSize < s.machine.frames.frameCount ∧
    UsableFrame boot (p / pageSize) ∧ (Reserved boot s.machine.early (p / pageSize) → p ∈ s.freed)
  distinct : s.outstanding.Nodup
  hint : ∀ i ∈ F, s.machine.frames.hint ≤ i
  small : s.machine.frames.frameCount ≤ 2 ^ 52
  whole : ∀ i, UsableFrame boot i → i < s.machine.frames.frameCount
  counted : ∀ i, i < s.machine.frames.frameCount ↔ i * pageSize < s.machine.frames.maxPhys

theorem Initialised.frame_lt (h : Initialised boot m m' entries F) (i : Nat) :
    i < m'.frames.frameCount ↔ i * pageSize < m'.frames.maxPhys := by
  obtain ⟨_, top, tight⟩ := framesOf_bounds h.counted
  rw [h.frameCount, h.maxPhys]
  unfold pageSize at *
  omega

theorem Initialised.usable_lt (h : Initialised boot m m' entries F) (usable : UsableFrame boot i) :
    i < m'.frames.frameCount := by
  obtain ⟨e, he, _, inside⟩ := usable
  rw [h.memmap, Option.getD_some] at he
  have top := le_topOf he
  have below : i < e.stop / pageSize := by
    unfold within at inside
    split at inside
    · cases inside
    · exact (Finset.mem_Ico.mp inside).2
  rw [h.frame_lt, h.maxPhys]
  unfold pageSize at *
  omega

theorem Initialised.inv (h : Initialised boot m m' entries F) : LedgerInv boot ⟨m', [], []⟩ F where
  marked := h.marked
  members i := (h.members i).trans (by simp)
  held := by simp
  distinct := List.nodup_nil
  hint i _ := by rw [h.hint]; exact Nat.zero_le _
  small := by rw [h.frameCount]; exact (framesOf_bounds h.counted).1.le
  whole _ := h.usable_lt
  counted := h.frame_lt

variable {s t : Ledger} {allowed : Ledger → Nat → Prop}

theorem mul_page_inj : i * pageSize = j * pageSize ↔ i = j := Nat.mul_left_inj (by decide)

theorem div_mul_page (aligned : p % pageSize = 0) : p / pageSize * pageSize = p :=
  Nat.div_mul_cancel (Nat.dvd_of_mod_eq_zero aligned)

namespace LedgerInv

theorem alloc (h : LedgerInv boot s F) (run : s.machine.frameAlloc = .ok (p, m)) :
    ∃ i ∈ F, p = i * pageSize ∧
      LedgerInv boot { s with machine := m, outstanding := p :: s.outstanding } (F.erase i) := by
  rcases F.eq_empty_or_nonempty with rfl | ne
  · rw [frameAlloc_none h.marked.count] at run
    cases run
  rw [h.marked.toBitmaps.frameAlloc_min h.hint h.small ne] at run
  have member := F.min'_mem ne
  have lowest : ∀ j ∈ F, F.min' ne ≤ j := fun j hj => F.min'_le j hj
  generalize F.min' ne = k at *
  cases run
  obtain ⟨below, usable, free, unreserved⟩ := (h.members k).mp member
  have index : k * pageSize / pageSize = k := Nat.mul_div_cancel _ (by decide)
  refine ⟨k, member, rfl, h.marked.take member, fun j => ?_, fun q hq => ?_,
    List.nodup_cons.mpr ⟨free, h.distinct⟩, take_hint lowest, h.small, h.whole, h.counted⟩
  · rw [Finset.mem_erase, h.members, List.mem_cons, not_or, mul_page_inj]
    constructor
    · rintro ⟨ne, lt, usable, out, unreserved⟩
      exact ⟨lt, usable, ⟨ne, out⟩, unreserved⟩
    · rintro ⟨lt, usable, ⟨ne, out⟩, unreserved⟩
      exact ⟨ne, lt, usable, out, unreserved⟩
  · rcases List.mem_cons.mp hq with rfl | hq
    · rw [index]
      exact ⟨Nat.mul_mod_left _ _, below, usable, unreserved⟩
    · exact h.held q hq

theorem freeable_iff (h : LedgerInv boot s F) : s.machine.Freeable p ↔
    p % pageSize = 0 ∧ p / pageSize < s.machine.frames.frameCount ∧ UsableFrame boot (p / pageSize) ∧
      p / pageSize ∉ F := by
  unfold Freeable
  refine and_congr_right fun aligned => ?_
  have bound := h.counted (p / pageSize)
  rw [div_mul_page aligned] at bound
  rw [bound.symm]
  refine and_congr_right fun lt => ?_
  rw [h.marked.marks _ lt, h.marked.toBitmaps.mem_iff]
  refine and_congr_right fun _ => ?_
  rw [not_and, Bool.not_eq_false]
  exact ⟨fun set _ => set, fun set => set lt⟩

theorem free (h : LedgerInv boot s F) (run : s.machine.nFrameFree p = .ok m) :
    LedgerInv boot { s with machine := m, outstanding := s.outstanding.erase p, freed := p :: s.freed }
      (insert (p / pageSize) F) := by
  obtain ⟨freeable, rfl⟩ := Freeable.of_ok run
  obtain ⟨aligned, lt, usable, _⟩ := h.freeable_iff.mp freeable
  obtain ⟨_, _, _, set⟩ := freeable
  have back := div_mul_page aligned
  refine ⟨(h.marked.freeFrame lt usable set _).1, fun j => ?_, fun q hq => ?_, h.distinct.erase p, release_hint h.hint,
    h.small, h.whole, h.counted⟩
  · rw [Finset.mem_insert, h.members, h.distinct.mem_erase_iff, List.mem_cons]
    by_cases same : j = p / pageSize
    · rw [same, back]
      exact ⟨fun _ => ⟨lt, usable, fun again => again.1 rfl, fun _ => .inl rfl⟩, fun _ => .inl rfl⟩
    · have other : j * pageSize ≠ p := fun e => same (by rw [← e, Nat.mul_div_cancel _ (by decide)])
      constructor
      · rintro (e | ⟨lt, usable, out, unreserved⟩)
        · exact absurd e same
        · exact ⟨lt, usable, fun again => out again.2, fun r => .inr (unreserved r)⟩
      · rintro ⟨lt, usable, out, unreserved⟩
        exact .inr ⟨lt, usable, fun held => out ⟨other, held⟩, fun r => (unreserved r).resolve_left other⟩
  · obtain ⟨al, below, usable, unreserved⟩ := h.held q (List.mem_of_mem_erase hq)
    exact ⟨al, below, usable, fun r => List.mem_cons_of_mem _ (unreserved r)⟩

theorem other {mem : ByteSpace.Bytes} (h : LedgerInv boot s F)
    (kept : ∀ x, ¬ s.machine.OutsideBitmaps x → mem x = s.machine.mem x) :
    LedgerInv boot { s with machine := { s.machine with mem } } F :=
  ⟨h.marked.other kept, h.members, h.held, h.distinct, h.hint, h.small, h.whole, h.counted⟩

theorem step (h : LedgerInv boot s F) (step : LedgerStep allowed s t) : ∃ F', LedgerInv boot t F' := by
  cases step with
  | alloc run =>
    obtain ⟨i, _, _, inv⟩ := h.alloc run
    exact ⟨_, inv⟩
  | free _ run => exact ⟨_, h.free run⟩
  | other kept => exact ⟨F, h.other kept⟩

end LedgerInv

theorem LedgerRun.inv (init : m₀.frameInit boot = .ok m) (h : LedgerRun allowed m s) : ∃ F, LedgerInv boot s F := by
  obtain ⟨entries, F, initialised⟩ := frameInit_initialised init
  have initial : ∀ s : Ledger, s = ⟨m, [], []⟩ → ∃ F, LedgerInv boot s F := by
    rintro s rfl
    exact ⟨F, initialised.inv⟩
  have kept : ∀ s t, (∃ F, LedgerInv boot s F) → LedgerStep allowed s t → ∃ F, LedgerInv boot t F :=
    fun s t ⟨_, inv⟩ step => inv.step step
  exact h.invariant initial kept

/-! ### What `n_frame_free` accepts -/

/-- The address of a usable frame that `frame_init` reserved and no call has freed. -/
def StillReserved (boot : Boot) (s : Ledger) (p : Nat) : Prop :=
  p % pageSize = 0 ∧ UsableFrame boot (p / pageSize) ∧ Reserved boot s.machine.early (p / pageSize) ∧ p ∉ s.freed

theorem LedgerInv.accepted_iff (h : LedgerInv boot s F) :
    s.machine.Freeable p ↔ p ∈ s.outstanding ∨ StillReserved boot s p := by
  rw [h.freeable_iff]
  constructor
  · rintro ⟨aligned, lt, usable, out⟩
    have back := div_mul_page aligned
    rw [h.members, back] at out
    by_cases held : p ∈ s.outstanding
    · exact .inl held
    · have blocked : ¬ (Reserved boot s.machine.early (p / pageSize) → p ∈ s.freed) :=
        fun unreserved => out ⟨lt, usable, held, unreserved⟩
      rw [Classical.not_imp] at blocked
      exact .inr ⟨aligned, usable, blocked⟩
  · rintro (held | ⟨aligned, usable, reserved, kept⟩)
    · obtain ⟨aligned, lt, usable, _⟩ := h.held p held
      refine ⟨aligned, lt, usable, fun free => ?_⟩
      exact ((h.members _).mp free).2.2.1 (by rwa [div_mul_page aligned])
    · refine ⟨aligned, h.whole _ usable, usable, fun free => kept ?_⟩
      rw [← div_mul_page aligned]
      exact ((h.members _).mp free).2.2.2 reserved

/-- After `frame_init`, whatever `frame_alloc` and `n_frame_free` did since: `n_frame_free`
accepts the outstanding frames and the usable reserved ones, and panics on anything else
with the machine as it was. -/
theorem frame_free_accepts (init : m₀.frameInit boot = .ok m) (h : LedgerRun anyArgument m s) (p : Nat) :
    ((∃ m', s.machine.nFrameFree p = .ok m') ↔ p ∈ s.outstanding ∨ StillReserved boot s p) ∧
      (¬ (p ∈ s.outstanding ∨ StillReserved boot s p) → ∃ e, s.machine.nFrameFree p = .error (.panic e) ∧
        HaltsIn (Stepwise.nFrameFree p) (.panic e) s.machine) := by
  obtain ⟨F, inv⟩ := h.inv init
  rw [← inv.accepted_iff]
  refine ⟨⟨?_, fun freeable => ⟨_, nFrameFree_ok freeable⟩⟩, fun refused => ?_⟩
  · rintro ⟨m', run⟩
    exact (Freeable.of_ok run).1
  · obtain ⟨e, panicked⟩ := nFrameFree_panics refused
    refine ⟨e, panicked, ?_⟩
    rw [HaltsIn, Stepwise.run_nFrameFree, panicked]

theorem frame_free_accepts_sample : ∃ m, sampleMachine.frameInit sampleBoot = .ok m ∧
    ¬ (0 ∈ (⟨m, [], []⟩ : Ledger).outstanding ∨ StillReserved sampleBoot ⟨m, [], []⟩ 0) ∧
    ∃ e, m.nFrameFree 0 = .error (.panic e) ∧ HaltsIn (Stepwise.nFrameFree 0) (.panic e) m := by
  obtain ⟨m, _, run, _⟩ := sample_frameAlloc
  have refused : ¬ (0 ∈ (⟨m, [], []⟩ : Ledger).outstanding ∨ StillReserved sampleBoot ⟨m, [], []⟩ 0) := by
    rintro (held | ⟨_, usable, _⟩)
    · cases held
    · revert usable
      unfold UsableFrame
      decide
  exact ⟨m, run, refused, (frame_free_accepts run (.start rfl) 0).2 refused⟩

/-- The first page of the bitmaps can be freed. -/
theorem bitmap_page_freed : ∃ m m', sampleMachine.frameInit sampleBoot = .ok m ∧ m.frames.allocBm = 0x4000 ∧
    LedgerRun anyArgument m ⟨m, [], []⟩ ∧ 0x4000 ∉ (⟨m, [], []⟩ : Ledger).outstanding ∧
    m.nFrameFree 0x4000 = .ok m' := by
  obtain ⟨m, _, run, _⟩ := sample_frameAlloc
  have freed : ((sampleMachine.frameInit sampleBoot).bind (nFrameFree · 0x4000)).isOk = true := by decide +kernel
  obtain ⟨_, _, initialised⟩ := frameInit_initialised run
  cases freed' : m.nFrameFree 0x4000 with
  | error halt =>
    rw [run, Except.bind, freed'] at freed
    cases freed
  | ok m' => exact ⟨m, m', run, initialised.allocBm, .start rfl, List.not_mem_nil, freed'⟩

/-! ### Modules

Step 5 takes a module's `address` for physical, while Limine passes a pointer into the
higher half. The range it marks is far above the last frame, so nothing is reserved. -/

structure Loaded where
  phys : Nat
  size : Nat

def Loaded.record (offset : Nat) (f : Loaded) : Module := ⟨add64 offset f.phys, f.size⟩

def Loaded.Meets (f : Loaded) (i : Nat) : Prop := ∃ x, f.phys ≤ x ∧ x < f.phys + f.size ∧ x / pageSize = i

def afterBitmaps (boot : Boot) (g : Early) : Early :=
  { g with cursor := (g.cursor + 2 * (bitmapPages (boot.memmap.getD []) * pageSize)) % 2 ^ 64 }

/-- Frame `i` is in the kernel image, an early page, or the range of a module's pointer
read as a physical address. -/
def ReservedAnyway (boot : Boot) (early : Early) (offset : Nat) (modules : List Loaded) (i : Nat) : Prop :=
  (∃ k, boot.kernelAddress = some k ∧ i ∈ meeting (kernelRange k boot.symbols).1 (kernelRange k boot.symbols).2) ∨
    (∃ f ∈ modules, i ∈ meeting (add64 offset f.phys) (add64 (add64 offset f.phys) f.size)) ∨
    i ∈ earlyFrames (afterBitmaps boot early)

/-- The frames of the modules are marked allocated, and `frame_alloc` never returns one. -/
def ModulesKept (m : Machine) (modules : List Loaded) : Prop :=
  ∀ f ∈ modules, ∀ i, f.Meets i → m.frameIsAllocated (i * pageSize) = true ∧
    ∀ s p m', LedgerRun ownFrames m s → s.machine.frameAlloc = .ok (p, m') → p ≠ i * pageSize

theorem Initialised.reserved_iff {offset : Nat} {modules : List Loaded} (h : Initialised boot m m' entries F)
    (passed : boot.modules.getD [] = modules.map (Loaded.record offset)) :
    Reserved boot m'.early i ↔ ReservedAnyway boot m.early offset modules i := by
  have early : m'.early = afterBitmaps boot m.early := by
    rw [h.early, afterBitmaps, h.memmap]
    rfl
  unfold Reserved ReservedAnyway
  rw [passed, early]
  simp only [List.mem_map, exists_exists_and_eq_and, Loaded.record]

theorem frameAlloc_early (run : m.frameAlloc = .ok (p, m')) : m'.early = m.early := by
  unfold frameAlloc at run
  split at run
  · cases run
  split at run
  · cases run
    rfl
  · split at run
    · cases run
      rfl
    · cases run

theorem LedgerRun.unfreed (init : m₀.frameInit boot = .ok m) (h : LedgerRun ownFrames m s) :
    ∃ F, LedgerInv boot s F ∧ s.machine.early = m.early ∧ ∀ p ∈ s.freed, ¬ Reserved boot m.early (p / pageSize) := by
  obtain ⟨entries, F, initialised⟩ := frameInit_initialised init
  induction h with
  | start first =>
    subst first
    exact ⟨F, initialised.inv, rfl, by simp⟩
  | step _ taken ih =>
    obtain ⟨F, inv, early, unfreed⟩ := ih
    cases taken with
    | alloc run =>
      obtain ⟨i, _, _, inv'⟩ := inv.alloc run
      exact ⟨_, inv', (frameAlloc_early run).trans early, unfreed⟩
    | free own run =>
      have kept := (Freeable.of_ok run).2
      refine ⟨_, inv.free run, by rw [kept]; exact early, fun q hq reserved => ?_⟩
      rcases List.mem_cons.mp hq with rfl | hq
      · rw [← early] at reserved
        exact unfreed q ((inv.held q own).2.2.2 reserved) (early ▸ reserved)
      · exact unfreed q hq reserved
    | other kept => exact ⟨F, inv.other kept, early, unfreed⟩

theorem Initialised.isAllocated_iff (h : Initialised boot m m' entries F) :
    m'.frameIsAllocated (i * pageSize) = true ↔ (UsableFrame boot i → Reserved boot m'.early i) := by
  have index : i * pageSize / pageSize = i := Nat.mul_div_cancel _ (by decide)
  have aligned : i * pageSize % pageSize = 0 := Nat.mul_mod_left _ _
  unfold frameIsAllocated frameIndexOf
  rw [index]
  by_cases lt : i < m'.frames.frameCount
  · have below := (h.frame_lt i).mp lt
    have bit := h.marked.toBitmaps.mem_iff (i := i)
    rw [if_neg (by omega), ← Bool.not_eq_false, ← not_iff_not, not_not]
    have members := h.members i
    tauto
  · have above := mt (h.frame_lt i).mpr lt
    rw [if_pos (by omega)]
    exact ⟨fun _ usable => absurd (h.usable_lt usable) lt, fun _ => rfl⟩

theorem modules_kept_iff {offset : Nat} {modules : List Loaded}
    (passed : boot.modules.getD [] = modules.map (Loaded.record offset)) (init : m₀.frameInit boot = .ok m) :
    ModulesKept m modules ↔
      ∀ f ∈ modules, ∀ i, f.Meets i → UsableFrame boot i → ReservedAnyway boot m₀.early offset modules i := by
  obtain ⟨entries, F, initialised⟩ := frameInit_initialised init
  constructor
  · intro kept f hf i meets usable
    rw [← initialised.reserved_iff passed]
    exact initialised.isAllocated_iff.mp (kept f hf i meets).1 usable
  · intro covered f hf i meets
    have reserved : UsableFrame boot i → Reserved boot m.early i := fun usable =>
      (initialised.reserved_iff passed).mpr (covered f hf i meets usable)
    refine ⟨initialised.isAllocated_iff.mpr reserved, fun s p m' reached run same => ?_⟩
    obtain ⟨F, inv, early, unfreed⟩ := reached.unfreed init
    obtain ⟨j, hj, rfl, _⟩ := inv.alloc run
    obtain rfl := mul_page_inj.mp same
    obtain ⟨_, usable, _, freed⟩ := (inv.members j).mp hj
    refine unfreed _ (freed (early ▸ reserved usable)) ?_
    rw [Nat.mul_div_cancel _ (by decide)]
    exact reserved usable

def moduleBoot (phys : Nat) : Boot :=
  { sampleBoot with modules := some [Loaded.record 0xFFFF800000000000 ⟨phys, 0x1000⟩] }

/-- Where the memory map calls the module's page KERNEL_AND_MODULES, it is kept. -/
theorem modules_kept_typed : ∃ m, sampleMachine.frameInit (moduleBoot 0xD000) = .ok m ∧
    ModulesKept m [⟨0xD000, 0x1000⟩] := by
  have sound : sampleMachine.early.Sound := by
    unfold sampleMachine sampleEarly
    exact ⟨by decide, by decide, by decide⟩
  obtain ⟨m, run⟩ : ∃ m, sampleMachine.frameInit (moduleBoot 0xD000) = .ok m :=
    frameInit_returns rfl (by simp) rfl rfl sound (by decide) (by decide) (by decide)
  refine ⟨m, run, (modules_kept_iff rfl run).mpr fun f hf i meets usable => ?_⟩
  obtain rfl := List.mem_singleton.mp hf
  obtain ⟨x, low, high, rfl⟩ := meets
  have frame : x / pageSize = 13 := by
    unfold pageSize
    dsimp only at low high
    omega
  have none : ¬ UsableFrame (moduleBoot 0xD000) 13 := by
    unfold UsableFrame
    decide
  exact absurd (frame ▸ usable) none

/-- Where the memory map calls it USABLE, the third `frame_alloc` gives it away. -/
theorem module_given_away : ∃ m s m', sampleMachine.frameInit (moduleBoot 0x8000) = .ok m ∧
    m.frameIsAllocated 0x8000 = false ∧ LedgerRun ownFrames m s ∧ s.machine.frameAlloc = .ok (0x8000, m') := by
  have whole : (do
      let m ← sampleMachine.frameInit (moduleBoot 0x8000)
      let first ← m.frameAlloc
      let second ← first.2.frameAlloc
      let third ← second.2.frameAlloc
      return (third.1, m.frameIsAllocated 0x8000)) = .ok (0x8000, false) := by decide +kernel
  obtain ⟨m, init, rest⟩ := bind_ok whole
  obtain ⟨⟨_, u⟩, first, rest⟩ := bind_ok rest
  obtain ⟨⟨_, v⟩, second, rest⟩ := bind_ok rest
  obtain ⟨⟨p, w⟩, third, done⟩ := bind_ok rest
  obtain ⟨rfl, clear⟩ := Prod.mk.inj (Except.ok.inj done)
  exact ⟨m, _, w, init, clear, .step (.step (.start rfl) (.alloc first)) (.alloc second), third⟩

end Voyager.Machine
