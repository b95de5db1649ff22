import Voyager.Frames.FrameAlloc
import Mathlib.Order.Interval.Finset.Nat
import Mathlib.Data.Finset.Max

/-! # The bitmaps as a set of free frames -/

namespace Voyager.Machine

open Lib

def bmBytes (m : Machine) : Nat := (m.frames.frameCount + 7) / 8

structure Bitmaps (m : Machine) (F : Finset Nat) : Prop where
  clear : F = Bitmap.zeros m.mem m.frames.allocBm (8 * m.bmBytes)
  inside : ∀ i ∈ F, i < m.frames.frameCount
  usable : ∀ i ∈ F, bmTest m.mem m.frames.usableBm i = true
  count : m.frames.freeCount = F.card
  apart : m.frames.allocBm + m.bmBytes ≤ m.frames.usableBm ∨ m.frames.usableBm + m.bmBytes ≤ m.frames.allocBm

/-- The other bitmap read as well: `U` are the frames it has set. -/
structure Marked (m : Machine) (U : Nat → Prop) (F : Finset Nat) : Prop extends Bitmaps m F where
  marks : ∀ i < m.frames.frameCount, bmTest m.mem m.frames.usableBm i = true ↔ U i

def OutsideBitmaps (m : Machine) (x : Nat) : Prop :=
  (x < m.frames.allocBm ∨ m.frames.allocBm + m.bmBytes ≤ x) ∧
    (x < m.frames.usableBm ∨ m.frames.usableBm + m.bmBytes ≤ x)

def bitmapsAt (m : Machine) : Nat × Nat × Nat := (m.frames.allocBm, m.frames.usableBm, m.frames.frameCount)

structure SameFrames (m m' : Machine) : Prop where
  early : m'.early = m.early
  paging : m'.paging = m.paging
  allocBm : m'.frames.allocBm = m.frames.allocBm
  usableBm : m'.frames.usableBm = m.frames.usableBm
  frameCount : m'.frames.frameCount = m.frames.frameCount
  maxPhys : m'.frames.maxPhys = m.frames.maxPhys
  kept : ∀ x, m.OutsideBitmaps x → m'.mem x = m.mem x

variable {m m' m'' : Machine} {U : Nat → Prop} {F : Finset Nat} {i j n x : Nat}

theorem outside_congr (h : m'.bitmapsAt = m.bitmapsAt) (x : Nat) : m'.OutsideBitmaps x ↔ m.OutsideBitmaps x := by
  simp only [bitmapsAt, Prod.mk.injEq] at h
  unfold OutsideBitmaps bmBytes
  rw [h.1, h.2.1, h.2.2]

theorem SameFrames.refl (m : Machine) : SameFrames m m := ⟨rfl, rfl, rfl, rfl, rfl, rfl, fun _ _ => rfl⟩

theorem SameFrames.placed (h : SameFrames m m') : m'.bitmapsAt = m.bitmapsAt := by
  unfold bitmapsAt
  rw [h.allocBm, h.usableBm, h.frameCount]

theorem SameFrames.outside (h : SameFrames m m') :
    m'.OutsideBitmaps x ↔ m.OutsideBitmaps x := outside_congr h.placed x

theorem SameFrames.trans (h : SameFrames m m') (h' : SameFrames m' m'') : SameFrames m m'' where
  early := h'.early.trans h.early
  paging := h'.paging.trans h.paging
  allocBm := h'.allocBm.trans h.allocBm
  usableBm := h'.usableBm.trans h.usableBm
  frameCount := h'.frameCount.trans h.frameCount
  maxPhys := h'.maxPhys.trans h.maxPhys
  kept x out := (h'.kept x (h.outside.mpr out)).trans (h.kept x out)

theorem Bitmaps.withHint (h : Bitmaps m F) (hint : Nat) :
    Bitmaps (m.withHint hint) F ∧ SameFrames m (m.withHint hint) :=
  ⟨⟨h.clear, h.inside, h.usable, h.count, h.apart⟩, rfl, rfl, rfl, rfl, rfl, rfl, fun _ _ => rfl⟩

theorem Marked.withHint (h : Marked m U F) (hint : Nat) :
    Marked (m.withHint hint) U F ∧ SameFrames m (m.withHint hint) ∧ (m.withHint hint).frames.hint = hint :=
  ⟨⟨(h.toBitmaps.withHint hint).1, h.marks⟩, (h.toBitmaps.withHint hint).2, rfl⟩

theorem Bitmaps.mem_iff (h : Bitmaps m F) :
    i ∈ F ↔ i < m.frames.frameCount ∧ bmTest m.mem m.frames.allocBm i = false := by
  constructor
  · intro hi
    refine ⟨h.inside i hi, ?_⟩
    rw [h.clear, Bitmap.mem_zeros] at hi
    exact hi.2
  · rintro ⟨lt, clear⟩
    rw [h.clear, Bitmap.mem_zeros]
    unfold bmBytes
    exact ⟨by omega, clear⟩

theorem byte_lt (lt : i < m.frames.frameCount) : i / 8 < m.bmBytes := by
  unfold bmBytes
  omega

theorem Bitmaps.usable_of_alloc_write {mem : ByteSpace.Bytes} (h : Bitmaps m F) (hi : i < m.frames.frameCount)
    (hj : j < m.frames.frameCount) (same : ∀ x, x ≠ m.frames.allocBm + i / 8 → mem x = m.mem x) :
    bmTest mem m.frames.usableBm j = bmTest m.mem m.frames.usableBm j := by
  have bi := byte_lt hi
  have bj := byte_lt hj
  have apart := h.apart
  exact Bitmap.test_congr (same _ (by omega))

def reserveFrame (m : Machine) (i : Nat) : Machine :=
  if bmTest m.mem m.frames.allocBm i then m
  else { m with mem := bmSet m.mem m.frames.allocBm i, frames := { m.frames with freeCount := m.frames.freeCount - 1 } }

theorem Bitmaps.reserveFrame (h : Bitmaps m F) (hi : i < m.frames.frameCount) :
    Bitmaps (m.reserveFrame i) (F.erase i) ∧ SameFrames m (m.reserveFrame i) := by
  unfold Machine.reserveFrame
  by_cases set : bmTest m.mem m.frames.allocBm i = true
  · have out : i ∉ F := fun hx => by
      have := (h.mem_iff.mp hx).2
      rw [set] at this
      cases this
    rw [if_pos set, Finset.erase_eq_of_notMem out]
    exact ⟨h, .refl m⟩
  · rw [if_neg set]
    have hF : i ∈ F := h.mem_iff.mpr ⟨hi, by simpa using set⟩
    have same : ∀ x, x ≠ m.frames.allocBm + i / 8 → bmSet m.mem m.frames.allocBm i x = m.mem x :=
      fun x ne => Bitmap.set_of_ne ne
    have bi := byte_lt hi
    refine ⟨⟨?_, fun j hj => h.inside j (Finset.mem_of_mem_erase hj), fun j hj => ?_, ?_, h.apart⟩,
      rfl, rfl, rfl, rfl, rfl, rfl, fun x out => same x (by have := out.1; omega)⟩
    · rw [h.clear]
      exact Bitmap.zeros_set.symm
    · have hj := Finset.mem_of_mem_erase hj
      exact (h.usable_of_alloc_write hi (h.inside j hj) same).trans (h.usable j hj)
    · rw [Finset.card_erase_of_mem hF, ← h.count]

theorem Bitmaps.freeFrame (h : Bitmaps m F) (hi : i < m.frames.frameCount)
    (usable : bmTest m.mem m.frames.usableBm i = true) (set : bmTest m.mem m.frames.allocBm i = true) (hint : Nat) :
    let m' := { m with mem := bmClear m.mem m.frames.allocBm i,
                       frames := { m.frames with freeCount := m.frames.freeCount + 1, hint } }
    Bitmaps m' (insert i F) ∧ SameFrames m m' := by
  have same : ∀ x, x ≠ m.frames.allocBm + i / 8 → bmClear m.mem m.frames.allocBm i x = m.mem x :=
    fun x ne => Bitmap.clear_of_ne ne
  have bi := byte_lt hi
  have hF : i ∉ F := fun hx => by
    have := (h.mem_iff.mp hx).2
    rw [set] at this
    cases this
  refine ⟨⟨?_, fun j hj => ?_, fun j hj => ?_, ?_, h.apart⟩, rfl, rfl, rfl, rfl, rfl, rfl,
    fun x out => same x (by have := out.1; omega)⟩
  · rw [h.clear]
    exact (Bitmap.zeros_clear (by omega)).symm
  · rcases Finset.mem_insert.mp hj with rfl | hj
    · exact hi
    · exact h.inside j hj
  · rcases Finset.mem_insert.mp hj with rfl | hj
    · exact (h.usable_of_alloc_write hi hi same).trans usable
    · exact (h.usable_of_alloc_write hi (h.inside j hj) same).trans (h.usable j hj)
  · rw [Finset.card_insert_of_notMem hF, ← h.count]

theorem Marked.marks_of_alloc_write {mem : ByteSpace.Bytes} (h : Marked m U F) (hi : i < m.frames.frameCount)
    (hj : j < m.frames.frameCount) (same : ∀ x, x ≠ m.frames.allocBm + i / 8 → mem x = m.mem x) :
    bmTest mem m.frames.usableBm j = true ↔ U j := by
  rw [h.usable_of_alloc_write hi hj same]
  exact h.marks j hj

theorem Marked.reserveFrame (h : Marked m U F) (hi : i < m.frames.frameCount) :
    Marked (m.reserveFrame i) U (F.erase i) ∧ SameFrames m (m.reserveFrame i) := by
  obtain ⟨bitmaps, same⟩ := h.toBitmaps.reserveFrame hi
  refine ⟨⟨bitmaps, fun j hj => ?_⟩, same⟩
  rw [same.frameCount] at hj
  rw [same.usableBm]
  unfold Machine.reserveFrame
  split
  · exact h.marks j hj
  · exact h.marks_of_alloc_write hi hj fun x ne => Bitmap.set_of_ne ne

theorem Marked.freeFrame (h : Marked m U F) (hi : i < m.frames.frameCount) (usable : U i)
    (set : bmTest m.mem m.frames.allocBm i = true) (hint : Nat) :
    let m' := { m with mem := bmClear m.mem m.frames.allocBm i,
                       frames := { m.frames with freeCount := m.frames.freeCount + 1, hint } }
    Marked m' U (insert i F) ∧ SameFrames m m' := by
  obtain ⟨bitmaps, same⟩ := h.toBitmaps.freeFrame hi ((h.marks i hi).mpr usable) set hint
  exact ⟨⟨bitmaps, fun j hj => h.marks_of_alloc_write hi hj fun x ne => Bitmap.clear_of_ne ne⟩, same⟩

theorem Marked.setUsable (h : Marked m U F) (hi : i < m.frames.frameCount) :
    let m' := { m with mem := bmSet m.mem m.frames.usableBm i }
    Marked m' (fun j => U j ∨ j = i) F ∧ SameFrames m m' := by
  have same : ∀ x, x ≠ m.frames.usableBm + i / 8 → bmSet m.mem m.frames.usableBm i x = m.mem x :=
    fun x ne => Bitmap.set_of_ne ne
  have marks : ∀ j < m.frames.frameCount, bmTest (bmSet m.mem m.frames.usableBm i) m.frames.usableBm j = true ↔
      U j ∨ j = i := by
    intro j hj
    rw [← h.marks j hj, bmTest, bmSet, Bitmap.test_set, Bool.or_eq_true, decide_eq_true_eq, or_comm]
    rfl
  have bi := byte_lt hi
  have apart := h.apart
  refine ⟨⟨⟨?_, h.inside, fun j hj => ?_, h.count, h.apart⟩, marks⟩, rfl, rfl, rfl, rfl, rfl, rfl,
    fun x out => same x (by have := out.2; omega)⟩
  · rw [h.clear]
    refine (Bitmap.zeros_congr fun j hj => ?_).symm
    have bj : j / 8 < m.bmBytes := by
      have : j < 8 * m.bmBytes := hj
      omega
    exact same _ (by omega)
  · have lt := h.inside j hj
    exact (marks j lt).mpr (.inl ((h.marks j lt).mp (h.usable j hj)))

/-- The frames that meet a byte range, rounded outward. -/
def meeting (base stop : Nat) : Finset Nat :=
  if stop ≤ base then ∅ else Finset.Ico (base / pageSize) (alignUp stop pageSize / pageSize)

/-- The frames inside a byte range, rounded inward. -/
def within (base stop : Nat) : Finset Nat :=
  if stop ≤ base then ∅ else Finset.Ico (alignUp base pageSize / pageSize) (stop / pageSize)

theorem Marked.congr {U' : Nat → Prop} (h : Marked m U F) (same : ∀ i < m.frames.frameCount, U i ↔ U' i) :
    Marked m U' F :=
  ⟨h.toBitmaps, fun i hi => (h.marks i hi).trans (same i hi)⟩

theorem Marked.markAllocated (h : Marked m U F) (bound : n = 0 ∨ i + n ≤ m.frames.frameCount) :
    Marked (m.markAllocated i n) U (F \ Finset.Ico i (i + n)) ∧ SameFrames m (m.markAllocated i n) := by
  induction n generalizing m F i with
  | zero =>
    rw [Nat.add_zero, Finset.Ico_self, Finset.sdiff_empty]
    exact ⟨h, .refl m⟩
  | succ n ih =>
    obtain ⟨first, same⟩ := h.reserveFrame (show i < m.frames.frameCount by omega)
    obtain ⟨rest, same'⟩ := ih first (i := i + 1) (by rw [same.frameCount]; omega)
    have split : F \ Finset.Ico i (i + (n + 1)) = F.erase i \ Finset.Ico (i + 1) (i + 1 + n) := by
      ext j
      by_cases hj : j ∈ F <;> simp [hj]
      omega
    rw [split]
    exact ⟨rest, same.trans same'⟩

-- Clamping to the last frame loses none that exist.
theorem Marked.markRangeAllocated (h : Marked m U F) (base stop : Nat) :
    Marked (m.markRangeAllocated base stop) U (F \ meeting base stop) ∧
      SameFrames m (m.markRangeAllocated base stop) := by
  unfold Machine.markRangeAllocated meeting
  by_cases empty : stop ≤ base
  · rw [if_pos empty, if_pos empty, Finset.sdiff_empty]
    exact ⟨h, .refl m⟩
  rw [if_neg empty, if_neg empty]
  have first : frameIndexOf (alignDown base pageSize) = base / pageSize := Nat.mul_div_cancel _ (by decide)
  have last : frameIndexOf (alignUp stop pageSize) = alignUp stop pageSize / pageSize := rfl
  dsimp only
  rw [first, last]
  generalize base / pageSize = i
  generalize alignUp stop pageSize / pageSize = j
  generalize clamped : (if j > m.frames.frameCount then m.frames.frameCount else j) = top
  have rest : F \ Finset.Ico i j = F \ Finset.Ico i (i + (top - i)) := by
    ext k
    simp only [Finset.mem_sdiff, Finset.mem_Ico]
    refine and_congr_right fun hk => ?_
    have := h.inside k hk
    split at clamped <;> omega
  rw [rest]
  exact h.markAllocated (by split at clamped <;> omega)

def releaseFrame (m : Machine) (i : Nat) : Machine :=
  let m := if bmTest m.mem m.frames.usableBm i then m
    else { m with mem := bmSet m.mem m.frames.usableBm i }
  if bmTest m.mem m.frames.allocBm i then
    { m with mem := bmClear m.mem m.frames.allocBm i,
             frames := { m.frames with freeCount := m.frames.freeCount + 1 } }
  else m

theorem Marked.releaseFrame (h : Marked m U F) (hi : i < m.frames.frameCount) :
    Marked (m.releaseFrame i) (fun j => U j ∨ j = i) (insert i F) ∧ SameFrames m (m.releaseFrame i) := by
  have marked : ∃ u, (if bmTest m.mem m.frames.usableBm i then m
      else { m with mem := bmSet m.mem m.frames.usableBm i }) = u ∧ Marked u (fun j => U j ∨ j = i) F ∧
        SameFrames m u := by
    by_cases usable : bmTest m.mem m.frames.usableBm i = true
    · refine ⟨m, if_pos usable, h.congr fun j hj => (or_iff_left_of_imp ?_).symm, .refl m⟩
      rintro rfl
      exact (h.marks j hj).mp usable
    · exact ⟨_, if_neg usable, h.setUsable hi⟩
  obtain ⟨u, eq, marked, same⟩ := marked
  have hi' : i < u.frames.frameCount := by rwa [same.frameCount]
  unfold Machine.releaseFrame
  rw [eq]
  simp only
  by_cases set : bmTest u.mem u.frames.allocBm i = true
  · rw [if_pos set]
    obtain ⟨freed, same'⟩ := marked.freeFrame hi' (.inr rfl) set u.frames.hint
    exact ⟨freed, same.trans same'⟩
  · rw [if_neg set, Finset.insert_eq_of_mem (marked.mem_iff.mpr ⟨hi', by simpa using set⟩)]
    exact ⟨marked, same⟩

theorem Marked.markUsableAndFree (h : Marked m U F) (bound : n = 0 ∨ i + n ≤ m.frames.frameCount) :
    Marked (m.markUsableAndFree i n) (fun j => U j ∨ j ∈ Finset.Ico i (i + n)) (F ∪ Finset.Ico i (i + n)) ∧
      SameFrames m (m.markUsableAndFree i n) := by
  induction n generalizing m U F i with
  | zero =>
    rw [Nat.add_zero, Finset.Ico_self, Finset.union_empty]
    exact ⟨h.congr (by simp), .refl m⟩
  | succ n ih =>
    obtain ⟨first, same⟩ := h.releaseFrame (show i < m.frames.frameCount by omega)
    obtain ⟨rest, same'⟩ := ih first (i := i + 1) (by rw [same.frameCount]; omega)
    have split : F ∪ Finset.Ico i (i + (n + 1)) = insert i F ∪ Finset.Ico (i + 1) (i + 1 + n) := by
      ext j
      by_cases hj : j ∈ F <;> simp [hj]
      omega
    rw [split]
    refine ⟨rest.congr fun j _ => ?_, same.trans same'⟩
    rw [or_assoc, Finset.mem_Ico, Finset.mem_Ico]
    exact or_congr_right (by omega)

theorem Marked.markRangeUsableAndFree (h : Marked m U F) (base stop : Nat) :
    Marked (m.markRangeUsableAndFree base stop) (fun i => U i ∨ i ∈ within base stop)
      (F ∪ (within base stop ∩ Finset.range m.frames.frameCount)) ∧
      SameFrames m (m.markRangeUsableAndFree base stop) := by
  unfold Machine.markRangeUsableAndFree within
  by_cases empty : stop ≤ base
  · rw [if_pos empty, if_pos empty, Finset.empty_inter, Finset.union_empty]
    exact ⟨h.congr (by simp), .refl m⟩
  rw [if_neg empty, if_neg empty]
  have first : frameIndexOf (alignUp base pageSize) = alignUp base pageSize / pageSize := rfl
  have last : frameIndexOf (alignDown stop pageSize) = stop / pageSize := Nat.mul_div_cancel _ (by decide)
  dsimp only
  rw [first, last]
  generalize alignUp base pageSize / pageSize = i
  generalize stop / pageSize = j
  by_cases none : j ≤ i
  · rw [if_pos none, Finset.Ico_eq_empty (by omega), Finset.empty_inter, Finset.union_empty]
    exact ⟨h.congr (by simp), .refl m⟩
  rw [if_neg none]
  generalize clamped : (if j > m.frames.frameCount then m.frames.frameCount else j) = top
  have range : Finset.Ico i j ∩ Finset.range m.frames.frameCount = Finset.Ico i (i + (top - i)) := by
    ext k
    simp only [Finset.mem_inter, Finset.mem_Ico, Finset.mem_range]
    split at clamped <;> omega
  obtain ⟨marked, same⟩ := h.markUsableAndFree (i := i) (n := top - i) (by split at clamped <;> omega)
  rw [range]
  refine ⟨marked.congr fun k hk => or_congr_right ?_, same⟩
  rw [same.frameCount] at hk
  rw [← range, Finset.mem_inter, Finset.mem_range]
  exact and_iff_left hk

end Voyager.Machine
