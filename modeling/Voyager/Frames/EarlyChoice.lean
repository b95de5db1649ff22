import Mathlib.Data.List.MinMax
import Voyager.Frames.EarlyAlloc

/-!
# Which region the early allocator takes

`pick_region_from_memmap` keeps two running maxima in one loop. Each is the first greatest
element of a list of page ranges.
-/

namespace Voyager

open Lib

structure PageRange where
  start : Nat
  stop : Nat
  order : start < stop
  deriving DecidableEq

namespace PageRange

def size (r : PageRange) : Nat := r.stop - r.start

theorem size_pos (r : PageRange) : 0 < r.size := Nat.sub_pos_of_lt r.order

def pages (r : PageRange) : Nat := r.size / pageSize

end PageRange

/-- The whole pages inside a USABLE entry. -/
def MemmapEntry.wholePages (e : MemmapEntry) : Option PageRange :=
  if e.type = .usable then
    if h : (e.base + 4095) / 4096 * 4096 < (e.base + e.length) / 4096 * 4096 then some ⟨_, _, h⟩ else none
  else none

namespace Early

def usableRanges (entries : List MemmapEntry) : List PageRange := entries.filterMap MemmapEntry.wholePages

/-- The greatest range below 4 GiB, or the greatest one when there is none; `argmax`
gives the first of several. -/
def choice (entries : List MemmapEntry) : Option PageRange :=
  match ((usableRanges entries).filter (·.stop ≤ 0x100000000)).argmax PageRange.size with
  | some r => some r
  | none => (usableRanges entries).argmax PageRange.size

/-- The allocator as `early_init` leaves it on a range, after `k` pages. -/
def onRange (r : PageRange) (k : Nat) : Early := ⟨r.start, r.start + k * pageSize, r.stop, false⟩

def bump (g : Early) : Nat → Kernel (List Nat × Early)
  | 0 => .ok ([], g)
  | k + 1 => do
    let (pages, g) ← bump g k
    let (p, g) ← g.allocPage
    return (pages ++ [p], g)

/-- The globals, from zero, while nobody calls `early_set_region`. -/
def Unforced (boot : Boot) : Early → Prop :=
  Reachable (· = .zero) fun g g' => init boot g = .ok g' ∨ ∃ p, g.allocPage = .ok (p, g')

variable {g : Early} {boot : Boot} {entries : List MemmapEntry} {e : MemmapEntry} {r : PageRange} {k : Nat}

/-! ### The loop -/

def fields : Option PageRange → Nat × Nat × Nat
  | none => (0, 0, 0)
  | some r => (r.size, r.start, r.stop)

structure Tracks (best : Best) (low any : Option PageRange) : Prop where
  low : (best.sizeBelow4g, best.baseBelow4g, best.endBelow4g) = fields low
  any : (best.sizeAny, best.baseAny, best.endAny) = fields any

def better : Option PageRange → PageRange → Option PageRange := List.argAux fun b c => c.size < b.size

theorem fields_better (o : Option PageRange) (r : PageRange) :
    fields (better o r) = if r.size > (fields o).1 then (r.size, r.start, r.stop) else fields o := by
  cases o with
  | none => exact (if_pos r.size_pos).symm
  | some c =>
    change fields (if c.size < r.size then some r else some c) = if r.size > c.size then _ else _
    split
    · rfl
    · rfl

theorem rounded (bound : e.base + e.length ≤ 2 ^ 52) :
    alignUp e.base pageSize = (e.base + 4095) / 4096 * 4096 ∧
      alignDown e.stop pageSize = (e.base + e.length) / 4096 * 4096 := by
  constructor
  · unfold alignUp
    rw [add64_of_lt (by unfold pageSize; omega)]
    rfl
  · unfold alignDown MemmapEntry.stop
    rw [add64_of_lt (by omega)]
    rfl

theorem consider_none {best : Best} (bound : e.base + e.length ≤ 2 ^ 52) (none : e.wholePages = none) :
    consider best e = best := by
  obtain ⟨up, down⟩ := rounded bound
  unfold consider
  split
  · rfl
  rename_i usable
  unfold MemmapEntry.wholePages at none
  rw [if_pos (not_not.mp usable)] at none
  split at none
  · cases none
  · dsimp only
    rw [up, down, if_pos (by omega)]

theorem consider_fields (best : Best) (usable : e.type = .usable)
    (order : alignUp e.base pageSize < alignDown e.stop pageSize) :
    let start := alignUp e.base pageSize
    let stop := alignDown e.stop pageSize
    let best' := consider best e
    (best'.sizeBelow4g, best'.baseBelow4g, best'.endBelow4g) =
        (if stop ≤ 0x100000000 ∧ stop - start > best.sizeBelow4g then (stop - start, start, stop)
          else (best.sizeBelow4g, best.baseBelow4g, best.endBelow4g)) ∧
      (best'.sizeAny, best'.baseAny, best'.endAny) =
        (if stop - start > best.sizeAny then (stop - start, start, stop)
          else (best.sizeAny, best.baseAny, best.endAny)) := by
  dsimp only
  unfold consider
  rw [if_neg (not_not.mpr usable)]
  dsimp only
  rw [if_neg (Nat.not_le_of_lt order)]
  constructor
  · split <;> split <;> rfl
  · split <;> split <;> simp_all

theorem consider_some {best : Best} {low any : Option PageRange} (bound : e.base + e.length ≤ 2 ^ 52)
    (found : e.wholePages = some r) (h : Tracks best low any) :
    Tracks (consider best e) (if r.stop ≤ 0x100000000 then better low r else low) (better any r) := by
  obtain ⟨up, down⟩ := rounded bound
  obtain ⟨hlow, hany⟩ := h
  unfold MemmapEntry.wholePages at found
  split at found
  · rename_i usable
    split at found
    · rename_i order
      cases found
      obtain ⟨low', any'⟩ := consider_fields best usable (by rw [up, down]; exact order)
      rw [up, down] at low' any'
      refine ⟨low'.trans ?_, any'.trans ?_⟩
      · rw [hlow, show best.sizeBelow4g = (fields low).1 from congrArg (·.1) hlow]
        by_cases below : (e.base + e.length) / 4096 * 4096 ≤ 0x100000000
        · simp only [below, true_and, if_true]
          exact (fields_better low ⟨_, _, order⟩).symm
        · simp only [below, false_and, if_false]
      · rw [hany, show best.sizeAny = (fields any).1 from congrArg (·.1) hany]
        exact (fields_better any ⟨_, _, order⟩).symm
    · cases found
  · cases found

theorem foldl_tracks (inRange : InRange entries) {best : Best} {low any : Option PageRange}
    (h : Tracks best low any) :
    Tracks (entries.foldl consider best) (((usableRanges entries).filter (·.stop ≤ 0x100000000)).foldl better low)
      ((usableRanges entries).foldl better any) := by
  induction entries generalizing best low any with
  | nil => exact h
  | cons e rest ih =>
    have bound := inRange e List.mem_cons_self
    have rest' : InRange rest := fun d hd => inRange d (List.mem_cons_of_mem _ hd)
    rw [List.foldl_cons]
    cases found : e.wholePages with
    | none =>
      rw [consider_none bound found, usableRanges, List.filterMap_cons_none found]
      exact ih rest' h
    | some r =>
      have next := ih rest' (consider_some bound found h)
      rw [usableRanges, List.filterMap_cons_some found, List.foldl_cons, List.filter_cons]
      by_cases below : r.stop ≤ 0x100000000
      · rw [if_pos below] at next
        rw [if_pos (by simpa using below)]
        exact next
      · rw [if_neg below] at next
        rw [if_neg (by simpa using below)]
        exact next

theorem pickRegionFromMemmap_eq (memmap : boot.memmap = some entries) (nonempty : entries ≠ [])
    (inRange : InRange entries) :
    pickRegionFromMemmap boot g =
      { g with base := (fields (choice entries)).2.1, cursor := (fields (choice entries)).2.1,
               stop := (fields (choice entries)).2.2 } := by
  have start : Tracks ⟨0, 0, 0, 0, 0, 0⟩ none none := ⟨rfl, rfl⟩
  obtain ⟨low, any⟩ := foldl_tracks inRange start
  unfold pickRegionFromMemmap choice
  rw [memmap]
  cases entries with
  | nil => exact absurd rfl nonempty
  | cons e rest =>
    dsimp only
    change _ = fields (List.argmax PageRange.size _) at low
    change _ = fields (List.argmax PageRange.size _) at any
    generalize (e :: rest).foldl consider ⟨0, 0, 0, 0, 0, 0⟩ = best at *
    have size : best.sizeBelow4g = _ := congrArg (·.1) low
    cases found : ((usableRanges (e :: rest)).filter (·.stop ≤ 0x100000000)).argmax PageRange.size with
    | none =>
      rw [found] at low size
      rw [if_neg (by simpa [fields] using size)]
      dsimp only
      rw [← any]
    | some r =>
      rw [found] at low size
      rw [if_pos (by rw [size]; exact Nat.ne_of_gt r.size_pos)]
      dsimp only
      rw [← low]

/-! ### The chosen range -/

def SparesFrameZero (entries : List MemmapEntry) : Prop :=
  ∀ e ∈ entries, e.type = .usable → ¬ (e.base = 0 ∧ pageSize ≤ e.length)

def HoldsPage (e : MemmapEntry) : Prop := ∃ i, e.base ≤ i * pageSize ∧ (i + 1) * pageSize ≤ e.base + e.length

theorem wholePages_eq_none (usable : e.type = .usable) : e.wholePages = none ↔ ¬ HoldsPage e := by
  unfold MemmapEntry.wholePages HoldsPage pageSize
  rw [if_pos usable]
  constructor
  · intro none
    split at none
    · cases none
    · rintro ⟨i, low, high⟩
      omega
  · intro empty
    rw [dif_neg]
    intro order
    exact empty ⟨(e.base + 4095) / 4096, by omega, by omega⟩

theorem usableRanges_eq_nil : usableRanges entries = [] ↔ ∀ e ∈ entries, e.type = .usable → ¬ HoldsPage e := by
  rw [usableRanges, List.filterMap_eq_nil_iff]
  refine forall₂_congr fun e _ => ?_
  by_cases usable : e.type = .usable
  · simp [usable, wholePages_eq_none]
  · simp [usable, MemmapEntry.wholePages]

theorem choice_eq_none : choice entries = none ↔ usableRanges entries = [] := by
  unfold choice
  split
  · rename_i r found
    have member := List.mem_of_mem_filter (List.argmax_mem found)
    simp only [reduceCtorEq, false_iff]
    exact List.ne_nil_of_mem member
  · exact List.argmax_eq_none

theorem choice_mem (chosen : choice entries = some r) : r ∈ usableRanges entries := by
  unfold choice at chosen
  split at chosen
  · rename_i c found
    cases chosen
    exact List.mem_of_mem_filter (List.argmax_mem found)
  · exact List.argmax_mem chosen

structure Region (r : PageRange) : Prop where
  positive : r.start ≠ 0
  aligned : r.start % pageSize = 0 ∧ r.stop % pageSize = 0
  top : r.stop ≤ 2 ^ 52

theorem region_of_mem (inRange : InRange entries) (zero : SparesFrameZero entries) (member : r ∈ usableRanges entries) :
    Region r := by
  obtain ⟨e, he, found⟩ := List.mem_filterMap.mp member
  have bound := inRange e he
  have zero := zero e he
  unfold MemmapEntry.wholePages at found
  split at found
  · rename_i usable
    have zero := zero usable
    split at found
    · cases found
      unfold pageSize at *
      refine ⟨?_, ⟨Nat.mul_mod_left _ _, Nat.mul_mod_left _ _⟩, ?_⟩
      · dsimp only
        omega
      · dsimp only
        omega
    · cases found
  · cases found

theorem init_eq (unforced : g.regionForced = false) (inRange : InRange entries) (zero : SparesFrameZero entries)
    (memmap : boot.memmap = some entries) (nonempty : entries ≠ []) :
    init boot g = match choice entries with
      | none => .error (.panic .noEarlyRegion)
      | some r => .ok (onRange r 0) := by
  unfold init
  simp only [unforced, Bool.false_eq_true, if_false, pickRegionFromMemmap_eq memmap nonempty inRange]
  cases chosen : choice entries with
  | none => rfl
  | some r =>
    have region := region_of_mem inRange zero (choice_mem chosen)
    have order := r.order
    rw [if_neg]
    · simp [fields, onRange]
    · simp only [fields, not_or, not_le, not_not]
      exact ⟨region.positive, order, region.aligned.1⟩

/-! ### The pages -/

section Pages

theorem onRange_fits (le : k ≤ r.pages) : r.start + k * pageSize ≤ r.stop := by
  have order := r.order
  unfold PageRange.pages PageRange.size pageSize at *
  omega

variable (region : Region r)

include region

theorem Region.sound (le : k ≤ r.pages) : Sound (onRange r k) := by
  refine ⟨Nat.pos_of_ne_zero region.positive, ⟨region.aligned.1, ?_⟩, Nat.le_add_right _ _, onRange_fits le, region.top⟩
  change (r.start + k * pageSize) % pageSize = 0
  rw [Nat.add_mul_mod_self_right]
  exact region.aligned.1

theorem Region.pagesUsed (le : k ≤ r.pages) : (onRange r k).pagesUsed = k := by
  have used : r.start + (onRange r k).pagesUsed * pageSize = r.start + k * pageSize := (region.sound le).pagesUsed_eq
  exact Nat.eq_of_mul_eq_mul_right (by decide : 0 < pageSize) (by omega)

theorem Region.allocPage (le : k ≤ r.pages) : (onRange r k).allocPage =
    if k < r.pages then .ok (r.start + k * pageSize, onRange r (k + 1))
    else .error (.panic (.earlyExhausted k)) := by
  have fits := onRange_fits le
  have top := region.top
  have next : add64 (onRange r k).cursor pageSize = (onRange r (k + 1)).cursor := by
    change add64 (r.start + k * pageSize) pageSize = r.start + (k + 1) * pageSize
    rw [add64_of_lt (by unfold pageSize at *; omega), Nat.succ_mul, Nat.add_assoc]
  unfold Early.allocPage
  rw [region.pagesUsed le, next]
  by_cases more : k < r.pages
  · have room : ¬ (onRange r (k + 1)).cursor > (onRange r k).stop := Nat.not_lt_of_le (onRange_fits more)
    rw [if_pos more, if_neg room]
    rfl
  · rw [if_neg more, if_pos]
    have aligned := region.aligned
    have order := r.order
    change r.start + (k + 1) * pageSize > r.stop
    unfold PageRange.pages PageRange.size pageSize at *
    omega

theorem Region.bump (k : Nat) : (onRange r 0).bump k =
    if k ≤ r.pages then .ok ((List.range k).map (r.start + · * pageSize), onRange r k)
    else .error (.panic (.earlyExhausted r.pages)) := by
  induction k with
  | zero => rfl
  | succ k ih =>
    unfold Early.bump
    by_cases le : k ≤ r.pages
    · rw [bind_eq (ih.trans (if_pos le))]
      dsimp only
      rw [region.allocPage le]
      by_cases more : k < r.pages
      · rw [if_pos more, if_pos (Nat.succ_le_of_lt more), List.range_succ, List.map_append]
        rfl
      · rw [if_neg more, if_neg (by omega), show r.pages = k by omega]
        rfl
    · rw [ih, if_neg le, if_neg (by omega)]
      rfl

end Pages

/-! ### Choice and allocation together -/

theorem pickRegionFromMemmap_flag : (pickRegionFromMemmap boot g).regionForced = g.regionForced := by
  unfold pickRegionFromMemmap
  split
  · rfl
  · rfl
  · dsimp only
    split
    · rfl
    · rfl

theorem Unforced.flag (h : Unforced boot g) : g.regionForced = false := by
  have start : ∀ g, g = zero → g.regionForced = false := fun g is => by rw [is]; rfl
  refine Reachable.invariant start (fun g g' clear taken => ?_) h
  rcases taken with started | ⟨p, taken⟩
  · unfold init at started
    simp only [clear, Bool.false_eq_true, if_false] at started
    split at started
    · cases started
    · cases started
      exact pickRegionFromMemmap_flag.trans clear
  · unfold allocPage at taken
    split at taken
    · cases taken
    · cases taken
      exact clear

theorem pickRegionFromMemmap_empty (empty : boot.memmap.getD [] = []) (g : Early) : pickRegionFromMemmap boot g = g := by
  unfold pickRegionFromMemmap
  cases memmap : boot.memmap with
  | none => rfl
  | some entries =>
    rw [memmap] at empty
    obtain rfl : entries = [] := empty
    rfl

theorem Unforced.eq_zero (h : Unforced boot g) (empty : boot.memmap.getD [] = []) : g = zero := by
  have none := pickRegionFromMemmap_empty empty
  have kept : ∀ g g', g = zero → (init boot g = .ok g' ∨ ∃ p, g.allocPage = .ok (p, g')) → g' = zero := by
    rintro g g' rfl (started | ⟨p, taken⟩)
    · unfold init at started
      simp [none, zero] at started
    · unfold allocPage at taken
      rw [if_pos (by decide)] at taken
      cases taken
  exact Reachable.invariant (fun _ is => is) kept h

/-- What `early_init` decides and what the calls after it return. -/
structure EarlySpec (boot : Boot) (g : Early) : Prop where
  selects : init boot g = match choice (boot.memmap.getD []) with
    | none => .error (.panic .noEarlyRegion)
    | some r => .ok (onRange r 0)
  panics : (∃ halt, init boot g = .error halt) ↔ ∀ e ∈ boot.memmap.getD [], e.type = .usable → ¬ HoldsPage e
  pages : ∀ r, choice (boot.memmap.getD []) = some r → ∀ k, (onRange r 0).bump k =
    if k ≤ r.pages then .ok ((List.range k).map (r.start + · * pageSize), onRange r k)
    else .error (.panic (.earlyExhausted r.pages))
  next : ∀ r, choice (boot.memmap.getD []) = some r → ∀ k ≤ r.pages, (onRange r k).allocPage =
    if k < r.pages then .ok (r.start + k * pageSize, onRange r (k + 1)) else .error (.panic (.earlyExhausted k))
  reserved : ∀ r, choice (boot.memmap.getD []) = some r → ∀ k ≤ r.pages, (onRange r k).reservedRegion = (r.start, k)

theorem early_region (inRange : InRange (boot.memmap.getD [])) (zero : SparesFrameZero (boot.memmap.getD []))
    (h : Unforced boot g) : EarlySpec boot g := by
  have selects : init boot g = match choice (boot.memmap.getD []) with
      | none => .error (.panic .noEarlyRegion)
      | some r => .ok (onRange r 0) := by
    by_cases empty : boot.memmap.getD [] = []
    · rw [h.eq_zero empty, empty]
      unfold init
      rw [pickRegionFromMemmap_empty empty]
      rfl
    · cases memmap : boot.memmap with
      | none => exact absurd (by rw [memmap]; rfl) empty
      | some entries =>
        rw [memmap] at inRange zero empty
        exact init_eq h.flag inRange zero memmap empty
  have region : ∀ r, choice (boot.memmap.getD []) = some r → Region r := fun r chosen =>
    region_of_mem inRange zero (choice_mem chosen)
  refine ⟨selects, ?_, fun r chosen => (region r chosen).bump, fun r chosen k => (region r chosen).allocPage,
    fun r chosen k le => Prod.ext rfl ((region r chosen).pagesUsed le)⟩
  rw [selects, ← usableRanges_eq_nil, ← choice_eq_none]
  cases choice (boot.memmap.getD []) with
  | none => simp
  | some r => simp

/-- Two ranges of three pages, the second one up to 4 GiB, and a larger one above. -/
def tieBoot : Boot where
  memmap := some [⟨0x1000, 0x3800, .usable⟩, ⟨0xFFFFD000, 0x3000, .usable⟩, ⟨0x100000000, 0x10000, .usable⟩]
  hhdm := none
  kernelAddress := none
  modules := none
  symbols := ⟨0, 0, 0, 0, 0, 0, 0, 0, 0⟩

theorem early_region_tie : EarlySpec tieBoot zero ∧ init tieBoot zero = .ok ⟨0x1000, 0x1000, 0x4000, false⟩ := by
  refine ⟨early_region ?_ ?_ (.start rfl), rfl⟩
  · unfold InRange
    decide
  · unfold SparesFrameZero
    decide

end Early

end Voyager
