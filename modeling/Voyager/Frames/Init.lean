import Voyager.Frames.Bitmaps

/-! # What `frame_init` leaves behind -/

namespace Voyager.Machine

open Lib

variable {m m' u : Machine} {U : Nat → Prop} {F : Finset Nat} {boot : Boot} {entries : List MemmapEntry} {k : KernelAddress}
  {i n p pages bytes : Nat}

theorem clearBitmaps_spec (size : bytes = m.bmBytes)
    (apart : m.frames.allocBm + m.bmBytes ≤ m.frames.usableBm ∨ m.frames.usableBm + m.bmBytes ≤ m.frames.allocBm) :
    Marked (m.clearBitmaps bytes) (fun _ => False) ∅ ∧ SameFrames m (m.clearBitmaps bytes) := by
  subst size
  have get : ∀ x, (m.clearBitmaps m.bmBytes).mem x =
      if m.frames.usableBm ≤ x ∧ x < m.frames.usableBm + m.bmBytes then 0
      else if m.frames.allocBm ≤ x ∧ x < m.frames.allocBm + m.bmBytes then 0xFF else m.mem x := by
    intro x
    have outer := ByteSpace.flat_region.get_fill (m := ByteSpace.flat.fill m.mem m.frames.allocBm 0xFF m.bmBytes)
      (a := m.frames.usableBm) (n := m.bmBytes) (v := 0) (b := x) trivial (fun _ _ => trivial) trivial
    have inner := ByteSpace.flat_region.get_fill (m := m.mem) (a := m.frames.allocBm) (n := m.bmBytes) (v := 0xFF)
      (b := x) trivial (fun _ _ => trivial) trivial
    exact outer.trans (by rw [inner]; rfl)
  refine ⟨⟨⟨?_, by simp, by simp, rfl, apart⟩, fun j hj => ?_⟩, rfl, rfl, rfl, rfl, rfl, rfl, fun x out => ?_⟩
  · ext j
    simp only [Finset.notMem_empty, false_iff, Bitmap.mem_zeros, not_and, Bool.not_eq_false]
    intro lt
    have byte : j / 8 < m.bmBytes := by
      have : j < 8 * m.bmBytes := lt
      omega
    have full : (m.clearBitmaps m.bmBytes).mem (m.frames.allocBm + j / 8) = 0xFF := by
      rw [get, if_neg (by omega), if_pos (by omega)]
    change ((m.clearBitmaps m.bmBytes).mem (m.frames.allocBm + j / 8)).toNat.testBit (j % 8) = true
    rw [full]
    exact (Nat.testBit_two_pow_sub_one 8 (j % 8)).trans (decide_eq_true (Nat.mod_lt _ (by decide)))
  · have byte := byte_lt (m := m) hj
    have empty : (m.clearBitmaps m.bmBytes).mem (m.frames.usableBm + j / 8) = 0 := by
      rw [get, if_pos (by omega)]
    rw [iff_false, Bool.not_eq_true]
    change ((m.clearBitmaps m.bmBytes).mem (m.frames.usableBm + j / 8)).toNat.testBit (j % 8) = false
    rw [empty]
    exact Nat.zero_testBit _
  · obtain ⟨alloc, usable⟩ := out
    rw [get, if_neg (by omega), if_neg (by omega)]

theorem markUsableEntries_spec (h : Marked m U F) (entries : List MemmapEntry) :
    ∃ F', Marked (m.markUsableEntries entries)
        (fun i => U i ∨ ∃ e ∈ entries, e.type = .usable ∧ i ∈ within e.base e.stop) F' ∧
      SameFrames m (m.markUsableEntries entries) ∧
      ∀ i, i ∈ F' ↔ i ∈ F ∨
        (i < m.frames.frameCount ∧ ∃ e ∈ entries, e.type = .usable ∧ i ∈ within e.base e.stop) := by
  unfold markUsableEntries
  induction entries generalizing m U F with
  | nil => exact ⟨F, by simpa using h, .refl m, by simp⟩
  | cons e rest ih =>
    rw [List.foldl_cons]
    by_cases usable : e.type = .usable
    · rw [if_pos usable]
      obtain ⟨marked, same⟩ := h.markRangeUsableAndFree e.base e.stop
      obtain ⟨F', marked', same', members⟩ := ih marked
      refine ⟨F', ⟨marked'.toBitmaps, fun i hi => (marked'.marks i hi).trans ?_⟩, same.trans same', fun i => ?_⟩
      · simp only [List.mem_cons, exists_eq_or_imp, usable, true_and, or_assoc]
      · rw [members, same.frameCount]
        simp only [Finset.mem_union, Finset.mem_inter, Finset.mem_range, List.mem_cons, exists_eq_or_imp, usable,
          true_and]
        rw [and_or_left, and_comm (a := i ∈ within _ _), or_assoc]
    · rw [if_neg usable]
      obtain ⟨F', marked, same', members⟩ := ih h
      refine ⟨F', ⟨marked.toBitmaps, fun i hi => (marked.marks i hi).trans ?_⟩, same', fun i => ?_⟩
      · simp [usable]
      · rw [members]
        simp [usable]

theorem markModules_spec (h : Marked m U F) (modules : List Module) :
    ∃ F', Marked (m.markModules modules) U F' ∧ SameFrames m (m.markModules modules) ∧
      ∀ i, i ∈ F' ↔ i ∈ F ∧ ∀ f ∈ modules, i ∉ meeting f.address (add64 f.address f.size) := by
  unfold markModules
  induction modules generalizing m F with
  | nil => exact ⟨F, h, .refl m, by simp⟩
  | cons f rest ih =>
    rw [List.foldl_cons]
    obtain ⟨marked, same⟩ := h.markRangeAllocated f.address (add64 f.address f.size)
    obtain ⟨F', bitmaps, same', members⟩ := ih marked
    refine ⟨F', bitmaps, same.trans same', fun i => ?_⟩
    rw [members]
    simp only [Finset.mem_sdiff, List.mem_cons, forall_eq_or_imp]
    rw [and_assoc]

theorem reserveModules_spec (h : Marked m U F) (boot : Boot) :
    ∃ F', Marked (m.reserveModules boot) U F' ∧ SameFrames m (m.reserveModules boot) ∧
      ∀ i, i ∈ F' ↔ i ∈ F ∧ ∀ f ∈ boot.modules.getD [], i ∉ meeting f.address (add64 f.address f.size) := by
  unfold reserveModules
  cases boot.modules with
  | none => exact ⟨F, h, .refl m, by simp⟩
  | some modules => exact markModules_spec h modules

def earlyFrames (g : Early) : Finset Nat :=
  if g.pagesUsed = 0 then ∅ else meeting g.base (add64 g.base (g.pagesUsed * pageSize % 2 ^ 64))

theorem earlyFrames_eq {g : Early} (sound : g.Sound) : earlyFrames g = meeting g.base g.cursor := by
  have used := sound.pagesUsed_eq
  obtain ⟨_, _, top⟩ := sound.bounds
  unfold earlyFrames
  by_cases none : g.pagesUsed = 0
  · rw [if_pos none, meeting, if_pos (by rw [none] at used; omega)]
  · have stop : add64 g.base (g.pagesUsed * pageSize % 2 ^ 64) = g.cursor := by
      rw [Nat.mod_eq_of_lt (by omega), add64_of_lt (by omega), used]
    rw [if_neg none, stop]

theorem reserveEarly_spec (h : Marked m U F) :
    Marked m.reserveEarly U (F \ earlyFrames m.early) ∧ SameFrames m m.reserveEarly := by
  unfold reserveEarly Early.reservedRegion earlyFrames
  dsimp only
  by_cases none : m.early.pagesUsed = 0
  · rw [if_neg (not_not.mpr none), if_pos none, Finset.sdiff_empty]
    exact ⟨h, .refl m⟩
  · rw [if_pos none, if_neg none]
    exact h.markRangeAllocated _ _

/-- The whole frames of the USABLE entries. -/
def UsableFrame (boot : Boot) (i : Nat) : Prop :=
  ∃ e ∈ boot.memmap.getD [], e.type = .usable ∧ i ∈ within e.base e.stop

/-- The frames of steps 4 to 6: the kernel image, the module addresses, the early pages. -/
def Reserved (boot : Boot) (early : Early) (i : Nat) : Prop :=
  (∃ k, boot.kernelAddress = some k ∧ i ∈ meeting (kernelRange k boot.symbols).1 (kernelRange k boot.symbols).2) ∨
    (∃ f ∈ boot.modules.getD [], i ∈ meeting f.address (add64 f.address f.size)) ∨ i ∈ earlyFrames early

/-- The frames that step 3 frees and steps 4 to 6 leave free. -/
def Available (boot : Boot) (early : Early) (i : Nat) : Prop := UsableFrame boot i ∧ ¬ Reserved boot early i

theorem available_of {early : Early} (sound : early.Sound) (usable : UsableFrame boot i)
    (kernel : ∀ k, boot.kernelAddress = some k → i ∉ meeting (kernelRange k boot.symbols).1 (kernelRange k boot.symbols).2)
    (modules : ∀ f ∈ boot.modules.getD [], i ∉ meeting f.address (add64 f.address f.size))
    (pages : i ∉ meeting early.base early.cursor) : Available boot early i := by
  refine ⟨usable, ?_⟩
  rintro (⟨k, found, hit⟩ | ⟨f, hf, hit⟩ | hit)
  · exact kernel k found hit
  · exact modules f hf hit
  · rw [earlyFrames_eq sound] at hit
    exact pages hit

theorem Available.not_early {early : Early} (h : Available boot early i) (sound : early.Sound) :
    i ∉ meeting early.base early.cursor := fun hit =>
  h.2 (.inr (.inr (by rwa [earlyFrames_eq sound])))

/-- The state of the allocator between calls. -/
structure Managed (m : Machine) (F : Finset Nat) : Prop extends Bitmaps m F where
  hint : ∀ i ∈ F, m.frames.hint ≤ i
  small : m.frames.frameCount ≤ 2 ^ 40
  top : m.frames.maxPhys ≤ m.frames.frameCount * pageSize

def framesOf (entries : List MemmapEntry) : Nat := alignUp (topOf entries) pageSize / pageSize

def bitmapPages (entries : List MemmapEntry) : Nat := alignUp ((framesOf entries + 7) / 8) pageSize / pageSize

theorem framesOf_bounds (some : framesOf entries ≠ 0) : framesOf entries < 2 ^ 52 ∧
    topOf entries ≤ framesOf entries * pageSize ∧ framesOf entries * pageSize < topOf entries + pageSize := by
  have word : topOf entries ≤ 2 ^ 64 - 1 := topOf_le_iff.mpr fun e _ => Nat.le_pred_of_lt (add64_lt _ _)
  unfold framesOf alignUp add64 pageSize at *
  omega

theorem computeMaxPhysAndCount_spec (run : m.computeMaxPhysAndCount boot = .ok m') :
    ∃ entries, boot.memmap = some entries ∧ framesOf entries ≠ 0 ∧ m'.mem = m.mem ∧ m'.early = m.early ∧
      m'.paging = m.paging ∧ m'.frames.maxPhys = topOf entries ∧ m'.frames.frameCount = framesOf entries := by
  unfold computeMaxPhysAndCount at run
  split at run
  · cases run
  · cases run
  · rename_i entries _ memmap
    dsimp only at run
    split at run
    · cases run
    · rename_i positive
      obtain rfl := Except.ok.inj run
      exact ⟨entries, memmap, positive, rfl, rfl, rfl, rfl, rfl⟩

theorem allocBitmap_eq (pos : 0 < pages) (run : m.allocBitmap pages = .ok (p, m')) :
    p = m.early.cursor ∧
      m' = { m with early := { m.early with cursor := (m.early.cursor + pages * pageSize) % 2 ^ 64 } } := by
  unfold allocBitmap at run
  obtain ⟨⟨q, g⟩, first, run⟩ := bind_ok run
  obtain ⟨g', rest, run⟩ := bind_ok run
  obtain ⟨rfl, rfl⟩ := Early.allocPage_eq first
  obtain rfl := Early.skip_eq (Nat.mod_lt _ (by decide)) rest
  cases run
  refine ⟨rfl, ?_⟩
  obtain ⟨n, rfl⟩ := Nat.exists_eq_succ_of_ne_zero (Nat.ne_of_gt pos)
  dsimp only
  rw [add64, Nat.mod_add_mod, Nat.succ_sub_one, Nat.succ_mul, Nat.add_assoc, Nat.add_comm pageSize]

theorem allocBitmap_sound (sound : m.early.Sound) (pos : 0 < pages) (run : m.allocBitmap pages = .ok (p, m')) :
    m'.early.Sound ∧ m'.early.cursor = m.early.cursor + pages * pageSize := by
  unfold allocBitmap at run
  obtain ⟨⟨q, g⟩, first, run⟩ := bind_ok run
  obtain ⟨g', rest, run⟩ := bind_ok run
  obtain ⟨rfl, rfl, sound₁⟩ := Early.allocPage_spec sound first
  obtain ⟨rfl, sound₂⟩ := Early.skip_spec sound₁ rest
  cases run
  refine ⟨sound₂, ?_⟩
  obtain ⟨n, rfl⟩ := Nat.exists_eq_succ_of_ne_zero (Nat.ne_of_gt pos)
  change m.early.cursor + pageSize + (n.succ - 1) * pageSize = _
  rw [Nat.succ_mul, Nat.succ_sub_one]
  omega

structure Placed (m m' : Machine) (pages : Nat) : Prop where
  alloc : m'.frames.allocBm = m.early.cursor
  usable : m'.frames.usableBm = m.early.cursor + pages * pageSize
  early : m'.early = { m.early with cursor := m.early.cursor + 2 * (pages * pageSize) }
  large : m'.bmBytes ≤ pages * pageSize
  sound : m'.early.Sound
  paging : m'.paging = m.paging

theorem bitmapPages_bounds (some : framesOf entries ≠ 0) : 0 < bitmapPages entries ∧
    (framesOf entries + 7) / 8 ≤ bitmapPages entries * pageSize ∧ bitmapPages entries * pageSize ≤ 2 ^ 50 := by
  have := (framesOf_bounds some).1
  unfold bitmapPages alignUp add64 pageSize
  omega

theorem placeBitmaps_spec (number : m.frames.frameCount = framesOf entries) (some : framesOf entries ≠ 0)
    (run : m.placeBitmaps boot = .ok m') :
    m'.mem = m.mem ∧ m'.paging = m.paging ∧
      m'.early = { m.early with cursor := (m.early.cursor + 2 * (bitmapPages entries * pageSize)) % 2 ^ 64 } ∧
      m'.frames.allocBm = m.early.cursor ∧
      m'.frames.usableBm = (m.early.cursor + bitmapPages entries * pageSize) % 2 ^ 64 ∧
      m'.frames.frameCount = framesOf entries ∧ m'.frames.maxPhys = m.frames.maxPhys := by
  have pages := (bitmapPages_bounds some).1
  unfold placeBitmaps at run
  split at run
  · cases run
  dsimp only at run
  rw [number] at run
  obtain ⟨⟨a, m₁⟩, first, run⟩ := bind_ok run
  obtain ⟨rfl, eq₁⟩ := allocBitmap_eq pages first
  obtain ⟨⟨b, m₂⟩, second, run⟩ := bind_ok run
  obtain ⟨rfl, eq₂⟩ := allocBitmap_eq pages second
  obtain rfl := Except.ok.inj run
  have early : m₁.early = { m.early with cursor := (m.early.cursor + bitmapPages entries * pageSize) % 2 ^ 64 } := by
    rw [eq₁]
  refine ⟨by rw [eq₂, eq₁], by rw [eq₂, eq₁], ?_, rfl, ?_, by rw [eq₂, eq₁]; exact number, by rw [eq₂, eq₁]⟩
  · rw [eq₂, early]
    dsimp only
    rw [Nat.mod_add_mod, Nat.add_assoc, ← Nat.two_mul]
  · rw [early]

theorem placeBitmaps_room (sound : m.early.Sound) (number : m.frames.frameCount = framesOf entries)
    (some : framesOf entries ≠ 0) (run : m.placeBitmaps boot = .ok m') :
    m.early.cursor + 2 * (bitmapPages entries * pageSize) ≤ m.early.stop := by
  have pages := (bitmapPages_bounds some).1
  unfold placeBitmaps at run
  split at run
  · cases run
  dsimp only at run
  rw [number] at run
  obtain ⟨⟨a, m₁⟩, first, run⟩ := bind_ok run
  obtain ⟨⟨b, m₂⟩, second, run⟩ := bind_ok run
  obtain ⟨sound₁, cursor₁⟩ := allocBitmap_sound sound pages first
  obtain ⟨sound₂, cursor₂⟩ := allocBitmap_sound sound₁ pages second
  have stop : m₂.early.stop = m.early.stop := by
    rw [(allocBitmap_eq pages second).2, (allocBitmap_eq pages first).2]
  have := sound₂.bounds.2.1
  unfold bitmapPages at *
  omega

structure Initialised (boot : Boot) (m m' : Machine) (entries : List MemmapEntry) (F : Finset Nat) : Prop where
  memmap : boot.memmap = some entries
  marked : Marked m' (UsableFrame boot) F
  members : ∀ i, i ∈ F ↔ i < m'.frames.frameCount ∧ UsableFrame boot i ∧ ¬ Reserved boot m'.early i
  hint : m'.frames.hint = 0
  counted : framesOf entries ≠ 0
  frameCount : m'.frames.frameCount = framesOf entries
  maxPhys : m'.frames.maxPhys = topOf entries
  allocBm : m'.frames.allocBm = m.early.cursor
  usableBm : m'.frames.usableBm = (m.early.cursor + bitmapPages entries * pageSize) % 2 ^ 64
  early : m'.early = { m.early with cursor := (m.early.cursor + 2 * (bitmapPages entries * pageSize)) % 2 ^ 64 }
  paging : m'.paging = m.paging
  kept : ∀ x, m'.OutsideBitmaps x → m'.mem x = m.mem x

theorem frameInit_initialised (run : m.frameInit boot = .ok m') :
    ∃ entries F, Initialised boot m m' entries F := by
  unfold frameInit at run
  obtain ⟨m₁, counted, run⟩ := bind_ok run
  obtain ⟨entries, memmap, some, mem₁, early₁, paging₁, max₁, number₁⟩ := computeMaxPhysAndCount_spec counted
  obtain ⟨m₂, placed, run⟩ := bind_ok run
  obtain ⟨mem₂, paging₂, early₂, alloc, usable, number, max₂⟩ := placeBitmaps_spec number₁ some placed
  rw [early₁] at early₂ alloc usable
  -- A second bitmap that wraps around the address space ends before the first one begins.
  have apart : m₂.frames.allocBm + m₂.bmBytes ≤ m₂.frames.usableBm ∨
      m₂.frames.usableBm + m₂.bmBytes ≤ m₂.frames.allocBm := by
    obtain ⟨_, large, small⟩ := bitmapPages_bounds some
    unfold bmBytes
    rw [number, alloc, usable]
    omega
  obtain ⟨cleared, same₂⟩ := clearBitmaps_spec (rfl : (m₂.frames.frameCount + 7) / 8 = m₂.bmBytes) apart
  obtain ⟨F₃, marked, same₃, members₃⟩ := markUsableEntries_spec cleared (boot.memmap.getD [])
  obtain ⟨m₄, kernel, run⟩ := bind_ok run
  unfold reserveKernel at kernel
  cases address : boot.kernelAddress with
  | none =>
    rw [address] at kernel
    cases kernel
  | some k =>
  rw [address] at kernel
  obtain rfl := Except.ok.inj kernel
  obtain ⟨image, same₄⟩ := marked.markRangeAllocated (kernelRange k boot.symbols).1 (kernelRange k boot.symbols).2
  obtain ⟨F₅, modules, same₅, members₅⟩ := reserveModules_spec image boot
  have same := ((same₂.trans same₃).trans same₄).trans same₅
  obtain ⟨early, same₆⟩ := reserveEarly_spec modules
  obtain ⟨final, same₇, hint⟩ := early.withHint 0
  have whole := (same.trans same₆).trans same₇
  cases run
  refine ⟨entries, _, memmap, ⟨final.toBitmaps, fun i hi => (final.marks i hi).trans ?_⟩, fun i => ?_, hint, some, ?_,
    ?_, ?_, ?_, ?_, ?_, fun x out => ?_⟩
  · rw [false_or]
    rfl
  · rw [Finset.mem_sdiff, members₅, Finset.mem_sdiff, members₃, whole.frameCount, same₂.frameCount, whole.early,
      same.early]
    unfold UsableFrame Reserved
    simp only [Finset.notMem_empty, false_or, address, Option.some.injEq, exists_eq_left']
    push Not
    rw [and_assoc, and_assoc, and_assoc]
  · rw [whole.frameCount, number]
  · rw [whole.maxPhys, max₂, max₁]
  · rw [whole.allocBm, alloc]
  · rw [whole.usableBm, usable]
  · rw [whole.early, early₂]
  · rw [whole.paging, paging₂, paging₁]
  · rw [whole.kept x (whole.outside.mp out), mem₂, mem₁]

theorem Initialised.sound (h : Initialised boot m m' entries F) (sound : m.early.Sound)
    (room : m.early.cursor + 2 * (bitmapPages entries * pageSize) ≤ m.early.stop) :
    m'.early = { m.early with cursor := m.early.cursor + 2 * (bitmapPages entries * pageSize) } ∧ m'.early.Sound := by
  obtain ⟨positive, ⟨al, al'⟩, low, _, top⟩ := sound
  have early := h.early
  rw [Nat.mod_eq_of_lt (by omega)] at early
  refine ⟨early, ?_⟩
  rw [early]
  refine ⟨positive, ⟨al, ?_⟩, ?_, room, top⟩
  · dsimp only
    rw [← Nat.mul_assoc, Nat.add_mul_mod_self_right]
    exact al'
  · dsimp only
    omega

theorem frameInit_spec (memmap : boot.memmap = some entries) (inRange : Early.InRange entries)
    (sound : m.early.Sound) (run : m.frameInit boot = .ok m') :
    ∃ F, Managed m' F ∧ (∀ i, i ∈ F ↔ i < m'.frames.frameCount ∧ Available boot m'.early i) ∧
      Placed m m' (bitmapPages entries) ∧ (∀ x, m'.OutsideBitmaps x → m'.mem x = m.mem x) ∧
        m'.frames.frameCount = framesOf entries := by
  have limit := sound.bounds
  obtain ⟨entries', F, init⟩ := frameInit_initialised run
  cases init.memmap.symm.trans memmap
  obtain ⟨_, large, small⟩ := bitmapPages_bounds init.counted
  obtain ⟨_, top, _⟩ := framesOf_bounds init.counted
  have room : m.early.cursor + 2 * (bitmapPages entries * pageSize) ≤ m.early.stop := by
    obtain ⟨m₁, counted, run⟩ := bind_ok run
    obtain ⟨entries', memmap', some, _, early₁, _, _, number₁⟩ := computeMaxPhysAndCount_spec counted
    cases memmap'.symm.trans memmap
    obtain ⟨m₂, placed, _⟩ := bind_ok run
    rw [← early₁] at sound ⊢
    exact placeBitmaps_room sound number₁ some placed
  obtain ⟨early, sound'⟩ := init.sound sound room
  have few : framesOf entries ≤ 2 ^ 40 := by
    have : topOf entries ≤ 2 ^ 52 :=
      topOf_le_iff.mpr fun d hd => (Early.stop_eq inRange hd).trans_le (inRange d hd)
    have := (framesOf_bounds init.counted).2.2
    unfold pageSize at this
    omega
  refine ⟨F, ⟨init.marked.toBitmaps, fun i _ => by rw [init.hint]; exact Nat.zero_le _, ?_, ?_⟩, init.members,
    ⟨init.allocBm, ?_, early, ?_, sound', init.paging⟩, init.kept, init.frameCount⟩
  · rw [init.frameCount]
    exact few
  · rw [init.frameCount, init.maxPhys]
    exact top
  · rw [init.usableBm, Nat.mod_eq_of_lt (by omega)]
  · unfold bmBytes
    rw [init.frameCount]
    exact large

theorem allocBitmap_returns (sound : m.early.Sound) (pos : 0 < pages)
    (room : m.early.cursor + pages * pageSize ≤ m.early.stop) :
    ∃ r, m.allocBitmap pages = .ok r := by
  obtain ⟨n, rfl⟩ := Nat.exists_eq_succ_of_ne_zero (Nat.ne_of_gt pos)
  obtain ⟨g, run⟩ := Early.skip_returns sound room
  obtain ⟨⟨p, g₁⟩, first, rest⟩ := bind_ok run
  unfold allocBitmap
  rw [bind_eq first]
  dsimp only
  rw [Nat.succ_sub_one, bind_eq rest]
  exact ⟨_, rfl⟩

theorem frameInit_returns (memmap : boot.memmap = some entries) (nonempty : entries ≠ []) (hhdm : boot.hhdm.isSome)
    (address : boot.kernelAddress = some k) (sound : m.early.Sound) (some : framesOf entries ≠ 0)
    (pos : 0 < bitmapPages entries)
    (room : m.early.cursor + 2 * (bitmapPages entries * pageSize) ≤ m.early.stop) :
    ∃ m', m.frameInit boot = .ok m' := by
  have counted : ∃ m₁, m.computeMaxPhysAndCount boot = .ok m₁ ∧ m₁.early = m.early ∧
      alignUp ((m₁.frames.frameCount + 7) / 8) pageSize / pageSize = bitmapPages entries := by
    unfold computeMaxPhysAndCount bitmapPages
    unfold framesOf at some ⊢
    rw [memmap]
    cases entries with
    | nil => exact absurd rfl nonempty
    | cons e rest =>
      dsimp only
      rw [if_neg some]
      exact ⟨_, rfl, rfl, rfl⟩
  obtain ⟨m₁, count, early₁, size⟩ := counted
  have placed : ∃ m₂, m₁.placeBitmaps boot = .ok m₂ := by
    obtain ⟨offset, there⟩ := Option.isSome_iff_exists.mp hhdm
    obtain ⟨⟨a, u⟩, first⟩ := allocBitmap_returns (m := m₁) (by rw [early₁]; exact sound) pos (by rw [early₁]; omega)
    obtain ⟨sound', cursor⟩ := allocBitmap_sound (by rw [early₁]; exact sound) pos first
    rw [early₁] at cursor
    have stop : u.early.stop = m.early.stop := by rw [(allocBitmap_eq pos first).2, early₁]
    obtain ⟨⟨b, w⟩, second⟩ := allocBitmap_returns sound' pos (by omega)
    unfold placeBitmaps
    rw [there]
    dsimp only
    rw [size, bind_eq first]
    dsimp only
    rw [bind_eq second]
    exact ⟨_, rfl⟩
  obtain ⟨m₂, placed⟩ := placed
  unfold frameInit
  rw [bind_eq count, bind_eq placed]
  dsimp only
  unfold reserveKernel
  rw [address]
  exact ⟨_, rfl⟩

end Voyager.Machine
