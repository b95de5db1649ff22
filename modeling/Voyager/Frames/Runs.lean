import Voyager.Frames.Init

/-! # Runs of the frame allocator -/

namespace Voyager.Machine

open Lib

variable {m m' : Machine} {F : Finset Nat} {boot : Boot} {i j k n p : Nat}

def isFree (m : Machine) (i : Nat) : Bool :=
  bmTest m.mem m.frames.usableBm i && !bmTest m.mem m.frames.allocBm i

def freeFrames (m : Machine) : Finset Nat := (Finset.range m.frames.frameCount).filter fun i => m.isFree i = true

theorem Bitmaps.isFree_iff (h : Bitmaps m F) (lt : i < m.frames.frameCount) : m.isFree i = true ↔ i ∈ F := by
  unfold isFree
  rw [Bool.and_eq_true, Bool.not_eq_true', h.mem_iff]
  constructor
  · exact fun free => ⟨lt, free.2⟩
  · intro clear
    exact ⟨h.usable i (h.mem_iff.mpr clear), clear.2⟩

theorem Bitmaps.freeFrames_eq (h : Bitmaps m F) : m.freeFrames = F := by
  ext i
  simp only [freeFrames, Finset.mem_filter, Finset.mem_range]
  constructor
  · rintro ⟨lt, free⟩
    exact (h.isFree_iff lt).mp free
  · exact fun hi => ⟨h.inside i hi, (h.isFree_iff (h.inside i hi)).mpr hi⟩

theorem scan_some (found : m.scan i n = some k) :
    i ≤ k ∧ k < i + n ∧ m.isFree k = true ∧ ∀ j, i ≤ j → j < k → m.isFree j = false := by
  induction n generalizing i with
  | zero => cases found
  | succ n ih =>
    unfold scan at found
    split at found
    · rename_i free
      cases found
      exact ⟨Nat.le_refl _, by omega, free, fun j _ _ => by omega⟩
    · rename_i taken
      obtain ⟨low, high, free, before⟩ := ih found
      refine ⟨by omega, by omega, free, fun j hj hjk => ?_⟩
      by_cases first : j = i
      · rw [first]
        exact Bool.eq_false_iff.mpr taken
      · exact before j (by omega) hjk

theorem scan_none (missed : m.scan i n = none) (low : i ≤ j) (high : j < i + n) : m.isFree j = false := by
  induction n generalizing i with
  | zero => omega
  | succ n ih =>
    unfold scan at missed
    split at missed
    · cases missed
    · rename_i taken
      by_cases first : j = i
      · rw [first]
        exact Bool.eq_false_iff.mpr taken
      · exact ih missed (by omega) (by omega)

theorem Bitmaps.take (h : Bitmaps m F) (hi : i ∈ F) :
    Bitmaps (m.take i) (F.erase i) ∧ SameFrames m (m.take i) := by
  have clear := (h.mem_iff.mp hi).2
  obtain ⟨reserved, same⟩ := h.reserveFrame (h.inside i hi)
  obtain ⟨bitmaps, same'⟩ := reserved.withHint (i + 1)
  have eq : (m.reserveFrame i).withHint (i + 1) = m.take i := by
    unfold Machine.reserveFrame Machine.withHint Machine.take
    rw [if_neg (by rw [clear]; decide)]
  rw [eq] at bitmaps same'
  exact ⟨bitmaps, same.trans same'⟩

theorem take_hint (lowest : ∀ j ∈ F, i ≤ j) : ∀ j ∈ F.erase i, (m.take i).frames.hint ≤ j := by
  intro j hj
  obtain ⟨ne, hj⟩ := Finset.mem_erase.mp hj
  have := lowest j hj
  change i + 1 ≤ j
  omega

theorem Managed.take (h : Managed m F) (hi : i ∈ F) (lowest : ∀ j ∈ F, i ≤ j) :
    Managed (m.take i) (F.erase i) ∧ SameFrames m (m.take i) := by
  obtain ⟨bitmaps, same⟩ := h.toBitmaps.take hi
  exact ⟨⟨bitmaps, take_hint lowest, h.small, h.top⟩, same⟩

theorem frameAlloc_none (count : m.frames.freeCount = (∅ : Finset Nat).card) :
    m.frameAlloc = .error (.panic .outOfMemory) := by
  unfold frameAlloc
  rw [if_pos (by rw [count]; rfl)]

theorem frameAlloc_empty (h : Managed m ∅) : m.frameAlloc = .error (.panic .outOfMemory) := frameAlloc_none h.count

theorem Bitmaps.frameAlloc_min (h : Bitmaps m F) (hint : ∀ i ∈ F, m.frames.hint ≤ i)
    (small : m.frames.frameCount ≤ 2 ^ 52) (ne : F.Nonempty) :
    m.frameAlloc = .ok (F.min' ne * pageSize, m.take (F.min' ne)) := by
  have member := F.min'_mem ne
  have inside := h.inside _ member
  have low := hint _ member
  have address : frameAddrOf (F.min' ne) = F.min' ne * pageSize :=
    Nat.mod_eq_of_lt (by unfold pageSize; omega)
  have counted : m.frames.freeCount ≠ 0 := by
    rw [h.count]
    exact Finset.card_ne_zero_of_mem member
  unfold frameAlloc
  rw [if_neg counted]
  cases found : m.scan m.frames.hint (m.frames.frameCount - m.frames.hint) with
  | none =>
    -- The first pass covers every free frame.
    have missed := scan_none found low (by omega)
    rw [(h.isFree_iff inside).mpr member] at missed
    cases missed
  | some k =>
    obtain ⟨_, high, free, before⟩ := scan_some found
    have hk : k ∈ F := (h.isFree_iff (by omega)).mp free
    have first : k = F.min' ne := by
      apply Nat.le_antisymm
      · by_contra later
        have skipped := before _ low (by omega)
        rw [(h.isFree_iff inside).mpr member] at skipped
        cases skipped
      · exact F.min'_le k hk
    rw [first]
    dsimp only
    rw [address]

theorem frameAlloc_spec (h : Managed m F) (ne : F.Nonempty) :
    m.frameAlloc = .ok (F.min' ne * pageSize, m.take (F.min' ne)) :=
  h.toBitmaps.frameAlloc_min h.hint (h.small.trans (by decide)) ne

/-- The four guards of `n_frame_free`. -/
def Freeable (m : Machine) (p : Nat) : Prop :=
  p % pageSize = 0 ∧ p < m.frames.maxPhys ∧ bmTest m.mem m.frames.usableBm (p / pageSize) = true ∧
    bmTest m.mem m.frames.allocBm (p / pageSize) = true

def release (m : Machine) (i : Nat) : Machine :=
  { m with mem := bmClear m.mem m.frames.allocBm i,
           frames := { m.frames with freeCount := m.frames.freeCount + 1,
                                     hint := if i < m.frames.hint then i else m.frames.hint } }

theorem nFrameFree_ok (h : m.Freeable p) : m.nFrameFree p = .ok (m.release (p / pageSize)) := by
  obtain ⟨aligned, inBounds, usable, set⟩ := h
  unfold nFrameFree
  rw [if_neg (not_not.mpr aligned), if_neg (Nat.not_le.mpr inBounds)]
  dsimp only
  unfold frameIndexOf
  rw [usable, set]
  rfl

theorem nFrameFree_panics (h : ¬ m.Freeable p) : ∃ e, m.nFrameFree p = .error (.panic e) := by
  unfold nFrameFree frameIndexOf
  split
  · exact ⟨_, rfl⟩
  rename_i aligned
  split
  · exact ⟨_, rfl⟩
  rename_i inBounds
  dsimp only
  split
  · exact ⟨_, rfl⟩
  rename_i usable
  split
  · exact ⟨_, rfl⟩
  rename_i set
  simp only [Bool.not_eq_true', Bool.not_eq_false] at usable set
  exact absurd ⟨not_not.mp aligned, Nat.not_le.mp inBounds, usable, set⟩ h

theorem Freeable.of_ok (run : m.nFrameFree p = .ok m') : m.Freeable p ∧ m' = m.release (p / pageSize) := by
  by_cases h : m.Freeable p
  · exact ⟨h, (Except.ok.inj ((nFrameFree_ok h).symm.trans run)).symm⟩
  · obtain ⟨e, panicked⟩ := nFrameFree_panics h
    rw [panicked] at run
    cases run

theorem release_hint (hint : ∀ j ∈ F, m.frames.hint ≤ j) : ∀ j ∈ insert i F, (m.release i).frames.hint ≤ j := by
  intro j hj
  unfold release
  dsimp only
  rcases Finset.mem_insert.mp hj with rfl | hj
  · split <;> omega
  · have := hint j hj
    split <;> omega

theorem nFrameFree_spec (h : Managed m F) (run : m.nFrameFree p = .ok m') :
    p % pageSize = 0 ∧ p / pageSize < m.frames.frameCount ∧ p / pageSize ∉ F ∧
      Managed m' (insert (p / pageSize) F) ∧ SameFrames m m' := by
  obtain ⟨⟨aligned, inBounds, usable, set⟩, rfl⟩ := Freeable.of_ok run
  have top := h.top
  have lt : p / pageSize < m.frames.frameCount := by
    rw [Nat.div_lt_iff_lt_mul (by decide)]
    omega
  have out : p / pageSize ∉ F := fun hx => by
    have clear := (h.mem_iff.mp hx).2
    rw [set] at clear
    cases clear
  obtain ⟨bitmaps, same⟩ := h.toBitmaps.freeFrame lt usable set
    (if p / pageSize < m.frames.hint then p / pageSize else m.frames.hint)
  exact ⟨aligned, lt, out, ⟨bitmaps, release_hint h.hint, h.small, h.top⟩, same⟩

/-! ### The allocator as a set of free frames -/

def takeLowest (F : Finset Nat) : Option (Nat × Finset Nat) :=
  if h : F.Nonempty then some (F.min' h, F.erase (F.min' h)) else none

/-- `early_init`, then any number of pages. -/
def EarlyRun (boot : Boot) (g : Early) : Prop :=
  Reachable (fun g => Early.init boot .zero = .ok g) (fun g g' => ∃ p, g.allocPage = .ok (p, g')) g

inductive FrameStep (m m' : Machine) : Prop where
  | alloc (p : Nat) : m.frameAlloc = .ok (p, m') → FrameStep m m'
  | free (p : Nat) : m.nFrameFree p = .ok m' → FrameStep m m'
  -- The rest of the kernel writes outside the bitmaps.
  | other : m'.early = m.early → m'.frames = m.frames →
      (∀ x, ¬ m.OutsideBitmaps x → m'.mem x = m.mem x) → FrameStep m m'

def FrameRun (boot : Boot) : Machine → Prop :=
  Reachable (fun m => ∃ m₀ : Machine, EarlyRun boot m₀.early ∧ m₀.frameInit boot = .ok m) FrameStep

theorem EarlyRun.sound {g : Early} (h : EarlyRun boot g) (inRange : Early.InRange (boot.memmap.getD [])) :
    g.Sound ∧ ∃ entries, boot.memmap = some entries ∧ Early.FromUsable entries g.base g.stop := by
  induction h with
  | start init =>
    cases memmap : boot.memmap with
    | none =>
      simp [Early.init, Early.pickRegionFromMemmap, memmap, Early.zero] at init
    | some entries =>
      rw [memmap] at inRange
      obtain ⟨sound, _, usable⟩ := Early.init_spec memmap inRange init
      exact ⟨sound, entries, rfl, usable⟩
  | step _ taken ih =>
    obtain ⟨p, taken⟩ := taken
    obtain ⟨sound, entries, memmap, usable⟩ := ih
    obtain ⟨_, rfl, sound'⟩ := Early.allocPage_spec sound taken
    exact ⟨sound', entries, memmap, usable⟩

theorem Bitmaps.other (h : Bitmaps m F) (frames : m'.frames = m.frames)
    (kept : ∀ x, ¬ m.OutsideBitmaps x → m'.mem x = m.mem x) : Bitmaps m' F := by
  have alloc : ∀ x, x < m.bmBytes → m'.mem (m.frames.allocBm + x) = m.mem (m.frames.allocBm + x) :=
    fun x lt => kept _ fun out => by have := out.1; omega
  have usable : ∀ x, x < m.bmBytes → m'.mem (m.frames.usableBm + x) = m.mem (m.frames.usableBm + x) :=
    fun x lt => kept _ fun out => by have := out.2; omega
  have size : m'.bmBytes = m.bmBytes := by
    unfold bmBytes
    rw [frames]
  refine ⟨?_, by rw [frames]; exact h.inside, fun i hi => ?_, by rw [frames]; exact h.count, ?_⟩
  · rw [h.clear, frames, size]
    refine (Bitmap.zeros_congr fun i hi => alloc _ ?_).symm
    omega
  · rw [frames]
    refine (Bitmap.test_congr (usable _ (byte_lt (h.inside i hi)))).trans (h.usable i hi)
  · rw [frames, size]
    exact h.apart

theorem Managed.other (h : Managed m F) (frames : m'.frames = m.frames)
    (kept : ∀ x, ¬ m.OutsideBitmaps x → m'.mem x = m.mem x) : Managed m' F :=
  ⟨h.toBitmaps.other frames kept, by rw [frames]; exact h.hint, by rw [frames]; exact h.small,
    by rw [frames]; exact h.top⟩

theorem FrameRun.managed (h : FrameRun boot m) (inRange : Early.InRange (boot.memmap.getD [])) :
    ∃ F, Managed m F := by
  induction h with
  | start init =>
    obtain ⟨m₀, early, run⟩ := init
    obtain ⟨sound, entries, memmap, _⟩ := early.sound inRange
    rw [memmap] at inRange
    obtain ⟨F, managed, _⟩ := frameInit_spec memmap inRange sound run
    exact ⟨F, managed⟩
  | step _ taken ih =>
    obtain ⟨F, managed⟩ := ih
    cases taken with
    | alloc p run =>
      rcases F.eq_empty_or_nonempty with rfl | ne
      · rw [frameAlloc_empty managed] at run
        cases run
      · rw [frameAlloc_spec managed ne] at run
        cases run
        exact ⟨_, (managed.take (F.min'_mem ne) fun j hj => F.min'_le j hj).1⟩
    | free p run => exact ⟨_, (nFrameFree_spec managed run).2.2.2.1⟩
    | other _ frames kept => exact ⟨F, managed.other frames kept⟩

/-! ### A small machine -/

/-- Eight usable pages between the firmware and the kernel image. -/
def sampleBoot : Boot where
  memmap := some [⟨0, 0x4000, .reserved⟩, ⟨0x4000, 0x8000, .usable⟩, ⟨0xC000, 0x4000, .kernelAndModules⟩]
  hhdm := some 0xFFFF800000000000
  kernelAddress := some ⟨0xC000, 0xFFFFFFFF80000000⟩
  modules := none
  symbols := ⟨0xFFFFFFFF80000000, 0xFFFFFFFF80004000, 0xFFFFFFFF80000000, 0xFFFFFFFF80001000, 0xFFFFFFFF80001000,
    0xFFFFFFFF80002000, 0xFFFFFFFF80002000, 0xFFFFFFFF80004000, 0xFFFFFFFF80000100⟩

def sampleEarly : Early := ⟨0x4000, 0x4000, 0xC000, false⟩

theorem sample_earlyInit : Early.init sampleBoot .zero = .ok sampleEarly := rfl

def sampleMachine : Machine := ⟨fun _ => 0, sampleEarly, ⟨0, 0, 0, 0, 0, 0⟩, ⟨0, 0, 0⟩⟩

theorem sample_frameAlloc : ∃ m m', sampleMachine.frameInit sampleBoot = .ok m ∧ m.frameAlloc = .ok (0x6000, m') := by
  have run : ((sampleMachine.frameInit sampleBoot).bind frameAlloc).toOption.map (·.1) =
    some 0x6000 := by decide +kernel
  cases started : sampleMachine.frameInit sampleBoot with
  | error halt =>
    rw [started] at run
    cases run
  | ok m =>
    rw [started] at run
    cases taken : m.frameAlloc with
    | error halt => simp [Except.bind, taken, Except.toOption] at run
    | ok r =>
      simp only [Except.bind, taken, Except.toOption, Option.map_some, Option.some.injEq] at run
      exact ⟨m, r.2, rfl, by rw [← run]; exact taken⟩

theorem sample_inRange : Early.InRange (sampleBoot.memmap.getD []) := by
  unfold Early.InRange
  decide

theorem sample_run : ∃ m, FrameRun sampleBoot m := by
  obtain ⟨m, _, run, _⟩ := sample_frameAlloc
  exact ⟨m, .start ⟨sampleMachine, .start sample_earlyInit, run⟩⟩

/-! ### The refinement -/

/-- What the counter, the bitmaps and the calls have to do with the set of free frames. -/
structure Refines (m : Machine) : Prop where
  count : m.frames.freeCount = m.freeFrames.card
  usable : ∀ i < 8 * m.bmBytes, bmTest m.mem m.frames.allocBm i = false → bmTest m.mem m.frames.usableBm i = true
  hint : ∀ i ∈ m.freeFrames, m.frames.hint ≤ i
  alloc : m.frameAlloc.map (fun r => (r.1, r.2.freeFrames)) =
    match takeLowest m.freeFrames with
    | none => .error (.panic .outOfMemory)
    | some (i, rest) => .ok (i * pageSize, rest)
  outOfMemory : m.frameAlloc = .error (.panic .outOfMemory) ↔ m.freeFrames = ∅
  noCorruption : m.frameAlloc ≠ .error (.panic .bitmapCorruption)
  free : ∀ p m', m.nFrameFree p = .ok m' → p % pageSize = 0 ∧ p / pageSize ∉ m.freeFrames ∧
    m'.freeFrames = insert (p / pageSize) m.freeFrames

theorem frames_refine (inRange : Early.InRange (boot.memmap.getD [])) (h : FrameRun boot m) : Refines m := by
  obtain ⟨F, managed⟩ := h.managed inRange
  have eq := managed.toBitmaps.freeFrames_eq
  refine ⟨by rw [eq, managed.count], fun i hi clear => ?_, by rw [eq]; exact managed.hint, ?_, ?_, ?_,
    fun p m' run => ?_⟩
  · apply managed.usable
    rw [managed.clear, Bitmap.mem_zeros]
    exact ⟨hi, clear⟩
  · rw [eq]
    unfold takeLowest
    rcases F.eq_empty_or_nonempty with rfl | ne
    · rw [frameAlloc_empty managed, dif_neg (by simp)]
      rfl
    · obtain ⟨taken, _⟩ := managed.take (F.min'_mem ne) fun j hj => F.min'_le j hj
      rw [frameAlloc_spec managed ne, dif_pos ne]
      simp only [Except.map]
      rw [taken.toBitmaps.freeFrames_eq]
  · rw [eq]
    rcases F.eq_empty_or_nonempty with rfl | ne
    · exact ⟨fun _ => rfl, fun _ => frameAlloc_empty managed⟩
    · rw [frameAlloc_spec managed ne]
      exact ⟨fun panicked => (by cases panicked), fun empty => absurd empty ne.ne_empty⟩
  · rcases F.eq_empty_or_nonempty with rfl | ne
    · rw [frameAlloc_empty managed]
      intro panicked
      cases panicked
    · rw [frameAlloc_spec managed ne]
      intro panicked
      cases panicked
  · obtain ⟨aligned, _, out, managed', _⟩ := nFrameFree_spec managed run
    rw [eq, managed'.toBitmaps.freeFrames_eq]
    exact ⟨aligned, out, rfl⟩

theorem frames_refine_sample : ∃ m, Early.InRange (sampleBoot.memmap.getD []) ∧ FrameRun sampleBoot m ∧ Refines m := by
  obtain ⟨m, run⟩ := sample_run
  exact ⟨m, sample_inRange, run, frames_refine sample_inRange run⟩

end Voyager.Machine
