import Voyager.Paging.Law
import Voyager.Paging.Requests

/-!
# Neighbours in the memory map

An entry may begin in a page that an earlier one has covered with a large page, and `map_4k`
panics there. On all other maps every included byte is where the HHDM says.
-/

namespace Voyager.Machine

open Lib Lib.RadixTable Paging

variable {m m' : Machine} {root hhdm : Nat} {r t : Request} {rs : List Request} {boot : Boot} {entries : List MemmapEntry}
  {e f : MemmapEntry}

/-! ### Small pages under large ones -/

def Request.Clash (t r : Request) : Prop := t.large = true ∧ r.large = false ∧ t.Covers r.va

/-- No small page is asked for where a large one is mapped. -/
def Open (m : Machine) (root : Nat) (rs : List Request) : Prop :=
  ∀ r ∈ rs, r.large = false → ∀ e k, leafOf m.mem root r.va = some (e, k) → k = 0

theorem Room.mono {a b : Nat} (h : Room m a) (le : b ≤ a) : Room m b := by
  refine ⟨h.hhdm, h.sound, Nat.le_trans ?_ h.left⟩
  exact Nat.add_le_add_left (Nat.mul_le_mul_right _ le) _

theorem enter_blocked {x k : Nat} (ready : Ready m root) (room : Room m 3) (small : r.large = false)
    (found : leafOf m.mem root r.va = some (x, k)) (above : k ≠ 0) : m.enter root r = .error (.panic .hugeDescent) := by
  rw [enter, small]
  rcases map4k_cases r.va r.pa r.flags ready.hierarchy room with ⟨failed, _⟩ | ⟨_, clear⟩
  · exact failed
  · exact absurd ((hugeOnPath_iff ready.plain).mpr ⟨x, k, found, above⟩) clear

theorem open_enter (leaves : ∀ va, leafOf m'.mem root va = if r.Covers va then some r.leaf else leafOf m.mem root va)
    (free : r.large = false → ∀ e k, leafOf m.mem root r.va = some (e, k) → k = 0) :
    Open m' root rs ↔ Open m root rs ∧ ∀ t ∈ rs, ¬ r.Clash t := by
  constructor
  · intro opened
    refine ⟨fun t ht small e k found => ?_, fun t ht ⟨large, small, covers⟩ => ?_⟩
    · by_cases covers : r.Covers t.va
      · cases large : r.large with
        | true =>
          have level := opened t ht small r.leaf.1 r.leaf.2 (by rw [leaves, if_pos covers])
          rw [Request.leaf, large] at level
          cases level
        | false =>
          rw [Request.Covers, large] at covers
          refine free large e k ?_
          rw [← found, leafOf, leafOf, path_eq_iff.mpr covers]
      · exact opened t ht small e k (by rw [leaves, if_neg covers, found])
    · have level := opened t ht small r.leaf.1 r.leaf.2 (by rw [leaves, if_pos covers])
      rw [Request.leaf, large] at level
      cases level
  · rintro ⟨opened, apart⟩ t ht small e k found
    rw [leaves] at found
    split at found
    · rename_i covers
      cases large : r.large with
      | true => exact absurd ⟨large, small, covers⟩ (apart t ht)
      | false =>
        rw [Request.leaf, large] at found
        cases found
        rfl
    · exact opened t ht small e k found

theorem enterAll_cases (ready : Ready m root) (level : Level m root 1) (room : Room m (rs.length * 3)) :
    (∃ m', m.enterAll root rs = .ok m') ∧ Open m root rs ∧ rs.Pairwise (fun t r => ¬ t.Clash r) ∨
      m.enterAll root rs = .error (.panic .hugeDescent) ∧
        ¬ (Open m root rs ∧ rs.Pairwise fun t r => ¬ t.Clash r) := by
  induction rs generalizing m with
  | nil => exact .inl ⟨⟨m, rfl⟩, fun r hr => (List.not_mem_nil hr).elim, .nil⟩
  | cons r rs ih =>
    rw [List.length_cons, Nat.succ_mul] at room
    rw [enterAll_cons]
    by_cases free : r.large = false → ∀ e k, leafOf m.mem root r.va = some (e, k) → k = 0
    · have clear : ∀ e k, leafOf m.mem root r.va = some (e, k) → if r.large then k ≤ 1 else k = 0 := by
        intro e k found
        split
        · exact level _ e k found
        · exact free (Bool.eq_false_iff.mpr ‹_›) e k found
      have builds := enter_builds ready clear
      have left := room.left
      rw [Nat.add_mul] at left
      obtain ⟨m₁, ok, evolves, leaves⟩ := builds.returns (by omega)
      obtain ⟨stop, cursor⟩ := builds.early ok
      have ready₁ := ready.evolves evolves
      have level₁ : Level m₁ root 1 := fun va e k found => by
        rw [leaves] at found
        split at found
        · rw [Request.leaf] at found
          split at found
          · cases found
            exact Nat.le_refl 1
          · cases found
            exact Nat.zero_le 1
        · exact level va e k found
      have room₁ : Room m₁ (rs.length * 3) := by
        refine ⟨ready₁.hhdm, ready₁.hierarchy.sound, ?_⟩
        dsimp only [id] at stop cursor
        omega
      have same : Open m₁ root rs ∧ rs.Pairwise (fun t r => ¬ t.Clash r) ↔
          Open m root (r :: rs) ∧ (r :: rs).Pairwise (fun t r => ¬ t.Clash r) := by
        rw [open_enter leaves free, List.pairwise_cons, Open, Open, List.forall_mem_cons]
        constructor
        · rintro ⟨⟨opened, apart⟩, later⟩
          exact ⟨⟨free, opened⟩, apart, later⟩
        · rintro ⟨⟨_, opened⟩, apart, later⟩
          exact ⟨⟨opened, apart⟩, later⟩
      rw [bind_eq ok, ← same]
      exact ih ready₁ level₁ room₁
    · have blocked := free
      push Not at free
      obtain ⟨small, x, k, found, above⟩ := free
      rw [enter_blocked ready (room.mono (by omega)) small found above]
      exact .inr ⟨rfl, fun ⟨opened, _⟩ => blocked (opened r List.mem_cons_self)⟩

/-! ### Which maps clash -/

def roundedRange (e : MemmapEntry) : Set Nat := Set.Ico (alignDown e.base pageSize) (alignUp (e.base + e.length) pageSize)

def chunk (c : Nat) : Set Nat := Set.Ico (c * page2m) ((c + 1) * page2m)

/-- Some 2 MiB lie in the rounded range of `e` and only in part in that of `f`. -/
def Straddles (e f : MemmapEntry) : Prop := included e.type = true ∧ included f.type = true ∧
  ∃ c, chunk c ⊆ roundedRange e ∧ (chunk c ∩ roundedRange f).Nonempty ∧ ¬ chunk c ⊆ roundedRange f

def Huge (e : MemmapEntry) (p : Nat) : Prop := Chunk (alignDown e.base pageSize) (span e) p

theorem mem_roundedRange {p : Nat} (below : included e.type = true → e.base + e.length ≤ window) :
    InSpan e p ↔ included e.type = true ∧ p ∈ roundedRange e := inSpan_iff below

theorem huge_iff {p : Nat} (below : included e.type = true → e.base + e.length ≤ window) :
    Huge e p ↔ included e.type = true ∧ chunk (p / page2m) ⊆ roundedRange e := by
  have ends : chunk (p / page2m) ⊆ roundedRange e ↔ alignDown e.base pageSize ≤ p / page2m * page2m ∧
      (p / page2m + 1) * page2m ≤ alignUp (e.base + e.length) pageSize := by
    apply Set.Ico_subset_Ico_iff
    unfold page2m
    omega
  rw [ends]
  unfold Huge Chunk span
  by_cases inc : included e.type = true
  · have below := below inc
    have stop : e.stop = e.base + e.length := add64_of_lt (by unfold window at below; omega)
    rw [if_pos inc, stop, Nat.succ_mul]
    simp only [inc, true_and, alignDown]
    unfold page2m
    omega
  · rw [if_neg inc]
    simp only [inc, Bool.false_eq_true, false_and, iff_false, alignDown]
    unfold page2m
    omega

theorem straddles_iff (below : ∀ e ∈ entries, included e.type = true → e.base + e.length ≤ window) (he : e ∈ entries)
    (hf : f ∈ entries) : Straddles e f ↔ ∃ p, Huge e p ∧ InSpan f p ∧ ¬ Huge f p := by
  simp only [huge_iff (below e he), huge_iff (below f hf), mem_roundedRange (below f hf)]
  constructor
  · rintro ⟨hi, hi', c, inside, ⟨p, hp, meets⟩, part⟩
    have same : p / page2m = c := by
      obtain ⟨low, high⟩ := hp
      unfold page2m at *
      omega
    rw [← same] at inside part
    exact ⟨p, ⟨hi, inside⟩, ⟨hi', meets⟩, fun h => part h.2⟩
  · rintro ⟨p, ⟨hi, inside⟩, ⟨hi', meets⟩, part⟩
    refine ⟨hi, hi', p / page2m, inside, ⟨p, ?_, meets⟩, fun whole => part ⟨hi', whole⟩⟩
    unfold chunk page2m
    exact ⟨by omega, by omega⟩

section Map

variable (aligned : hhdm % page2m = 0) (below : ∀ e ∈ entries, included e.type = true → e.base + e.length ≤ window)

include aligned below

theorem clash_iff (he : e ∈ entries) (hf : f ∈ entries) :
    (∃ t ∈ entryRequests hhdm e, ∃ r ∈ entryRequests hhdm f, t.Clash r) ↔ ∃ p, Huge e p ∧ InSpan f p ∧ ¬ Huge f p := by
  have he' := span_le (below e he) (by decide) (by decide)
  have hf' := span_le (below f hf) (by decide) (by decide)
  have top : window = 2 ^ 46 := rfl
  constructor
  · rintro ⟨t, ht, r, hr, large, small, covers⟩
    rcases (mem_entryRequests (by omega)).mp ht with ⟨p, huge, _, rfl⟩ | ⟨_, _, _, _, rfl⟩
    · rcases (mem_entryRequests (by omega)).mp hr with ⟨_, _, _, rfl⟩ | ⟨q, inside, _, part, rfl⟩
      · cases small
      · have hp : p < window := by
          have inside := huge.inside
          omega
        have hq : q < window := by
          unfold InSpan at inside
          omega
        have same := (directRequest_covers_large aligned hp hq).mp covers
        exact ⟨q, (Chunk.congr same).mpr huge, inside, part⟩
    · cases large
  · rintro ⟨p, huge, inside, part⟩
    have hp : p < window := by
      unfold InSpan at inside
      omega
    have hq : p / page2m * page2m < window := Nat.lt_of_le_of_lt (Nat.div_mul_le_self _ _) hp
    have hr : p / pageSize * pageSize < window := Nat.lt_of_le_of_lt (Nat.div_mul_le_self _ _) hp
    have large : p / page2m * page2m / page2m = p / page2m := Nat.mul_div_cancel _ (by decide)
    have small : p / pageSize * pageSize / page2m = p / page2m := by
      unfold pageSize page2m
      omega
    refine ⟨directRequest hhdm (p / page2m * page2m) true, (mem_entryRequests (by omega)).mpr (.inl ⟨_, ?_, ?_, rfl⟩),
      directRequest hhdm (p / pageSize * pageSize) false, (mem_entryRequests (by omega)).mpr (.inr ⟨_, ?_, ?_, ?_, rfl⟩),
      rfl, rfl, ?_⟩
    · exact (Chunk.congr large).mpr huge
    · exact Nat.mul_mod_left _ _
    · unfold InSpan alignDown pageSize at *
      omega
    · exact Nat.mul_mod_left _ _
    · exact fun whole => part ((Chunk.congr small).mp whole)
    · exact (directRequest_covers_large aligned hq hr).mpr (small.trans large.symm)

theorem clash_free_iff : (hhdmRequests hhdm entries).Pairwise (fun t r => ¬ t.Clash r) ↔
    entries.Pairwise fun e f => ¬ Straddles e f := by
  have last : ∀ t ∈ entries.flatMap (entryRequests hhdm), ∀ r ∈ [(⟨true, hhdm, 0, pteNX⟩ : Request)], ¬ t.Clash r := by
    intro t _ r hr clash
    rw [List.mem_singleton.mp hr] at clash
    cases clash.2.1
  have own : ∀ e ∈ entries, (entryRequests hhdm e).Pairwise fun t r => ¬ t.Clash r := by
    intro e he
    refine List.pairwise_of_forall_mem_list fun t ht r hr clash => ?_
    obtain ⟨p, huge, _, part⟩ := (clash_iff aligned below he he).mp ⟨t, ht, r, hr, clash⟩
    exact part huge
  have across : entries.Pairwise (fun e f => ∀ t ∈ entryRequests hhdm e, ∀ r ∈ entryRequests hhdm f, ¬ t.Clash r) ↔
      entries.Pairwise fun e f => ¬ Straddles e f := by
    refine List.Pairwise.iff_of_mem fun {e f} he hf => ?_
    rw [straddles_iff below he hf, ← clash_iff aligned below he hf]
    push Not
    rfl
  rw [hhdmRequests, List.pairwise_append, List.pairwise_flatMap, ← across]
  exact ⟨fun h => h.1.2, fun h => ⟨⟨own, h⟩, List.pairwise_singleton _ _, last⟩⟩

end Map

/-! ### The HHDM over such maps -/

/-- `map_hhdm` does not run into a large page, and every byte of an included entry is
found where the HHDM has it. -/
structure DirectlyMapped (m : Machine) (boot : Boot) (root : Nat) (entries : List MemmapEntry) : Prop where
  descends : m.mapHhdm boot root ≠ .error (.panic .hugeDescent)
  translates : ∀ e ∈ entries, included e.type = true → ∀ x, e.base ≤ x → x < e.base + e.length →
    ∃ m' level, m.mapHhdm boot root = .ok m' ∧ m'.walkVaToPa (add64 m.paging.hhdm x) root = some (x, level)

theorem mapHhdm_cases (ready : Ready m root) (level : Level m root 0) (aligned : m.paging.hhdm % page2m = 0)
    (memmap : boot.memmap = some entries) (nonempty : entries ≠ [])
    (below : ∀ e ∈ entries, included e.type = true → e.base + e.length ≤ window)
    (room : Room m ((hhdmRequests m.paging.hhdm entries).length * 3)) :
    (∃ m', m.enterAll root (hhdmRequests m.paging.hhdm entries) = .ok m' ∧ m.mapHhdm boot root = .ok m') ∧
        entries.Pairwise (fun e f => ¬ Straddles e f) ∨
      m.mapHhdm boot root = .error (.panic .hugeDescent) ∧ ¬ entries.Pairwise fun e f => ¬ Straddles e f := by
  have top : window = 2 ^ 46 := rfl
  have small : ∀ e ∈ entries, span e = 0 ∨ alignDown e.base pageSize + span e ≤ 2 ^ 52 := fun e he =>
    (span_le (below e he) (by decide) (by decide)).imp_right (by omega)
  have opened : Open m root (hhdmRequests m.paging.hhdm entries) := fun r _ _ e k found =>
    Nat.le_zero.mp (level _ e k found)
  rw [mapHhdm_requests ready.hierarchy ready.hhdm aligned memmap nonempty small, ← clash_free_iff aligned below]
  rcases enterAll_cases ready (fun va e k found => Nat.le_trans (level va e k found) (by decide)) room with
    ⟨⟨m', ok⟩, _, free⟩ | ⟨failed, clash⟩
  · exact .inl ⟨⟨m', ok, ok⟩, free⟩
  · exact .inr ⟨failed, fun free => clash ⟨opened, free⟩⟩

theorem directly_mapped_iff (ready : Ready m root) (level : Level m root 0) (aligned : m.paging.hhdm % page2m = 0)
    (memmap : boot.memmap = some entries) (below : ∀ e ∈ entries, included e.type = true → e.base + e.length ≤ window)
    (room : Room m ((hhdmRequests m.paging.hhdm entries).length * 3)) :
    DirectlyMapped m boot root entries ↔ entries.Pairwise fun e f => ¬ Straddles e f := by
  by_cases empty : entries = []
  · have refused : m.mapHhdm boot root = .error (.panic .memmapMissing) := by
      rw [mapHhdm, if_neg ready.hhdm, memmap, empty]
    rw [empty]
    refine ⟨fun _ => .nil, fun _ => ⟨by rw [refused]; simp, fun e he => (List.not_mem_nil he).elim⟩⟩
  rcases mapHhdm_cases ready level aligned memmap empty below room with ⟨⟨m', run, ok⟩, apart⟩ | ⟨failed, clash⟩
  · refine ⟨fun _ => apart, fun _ => ⟨by rw [ok]; simp, fun e he inc x low high => ?_⟩⟩
    have small : ∀ e ∈ entries, span e = 0 ∨ alignDown e.base pageSize + span e ≤ window := fun e he =>
      span_le (below e he) (by decide) (by decide)
    have inside : InSpan e x := by
      refine (inSpan_iff (below e he)).mpr ⟨inc, ?_⟩
      have top := below e he inc
      unfold alignUp alignDown add64 pageSize window at *
      omega
    have hx : x < window := by
      have := below e he inc
      omega
    refine ⟨m', ?_⟩
    obtain ⟨t, ht, covers⟩ := hhdmRequests_covers aligned small he inside
    rcases enterAll_leaves ready.hierarchy run (add64 m.paging.hhdm x) with ⟨r, hr, covers, found⟩ | ⟨none, _⟩
    · refine ⟨r.leaf.2 + 1, ok, ?_⟩
      rw [walkVaToPa_eq, found, Option.map_some, hhdmRequests_leaf aligned small hr hx covers]
    · exact absurd covers (none t ht)
  · exact ⟨fun mapped => absurd failed mapped.descends, fun apart => absurd apart clash⟩

theorem not_straddles (apart : Disjoint (roundedRange e) (roundedRange f)) : ¬ Straddles e f := by
  rintro ⟨_, _, c, inside, ⟨p, hp, meets⟩, _⟩
  exact Set.disjoint_left.mp apart (inside hp) meets

theorem directly_mapped_fresh : ∃ m root, Ready m root ∧ Level m root 0 ∧ DirectlyMapped m directBoot root
    [⟨0x100000, 0x8000000, .usable⟩, ⟨0x8100000, 0x4000, .kernelAndModules⟩] := by
  obtain ⟨⟨root, m⟩, _, fresh⟩ := (allocTable_root directSound (by decide)).returns (by decide)
  have hhdm : m.paging.hhdm = 0xFFFF800000000000 := fresh.hhdm
  have level : Level m root 0 := fun va e k found => by
    rw [fresh.empty] at found
    cases found
  have room : Room m ((hhdmRequests m.paging.hhdm
      [⟨0x100000, 0x8000000, .usable⟩, ⟨0x8100000, 0x4000, .kernelAndModules⟩]).length * 3) := by
    refine ⟨fresh.ready.hhdm, fresh.ready.hierarchy.sound, ?_⟩
    rw [hhdm, fresh.early]
    decide +kernel
  refine ⟨m, root, fresh.ready, level, (directly_mapped_iff fresh.ready level (by rw [hhdm]; decide) rfl
    directInput.below room).mpr ?_⟩
  refine directInput.disjoint.imp_of_mem fun {e f} he hf disjoint => ?_
  by_cases inc : included e.type = true ∧ included f.type = true
  · exact not_straddles (disjoint inc.1 inc.2)
  · exact fun straddles => inc ⟨straddles.1, straddles.2.1⟩

/-- The ACPI tables end in the last page of a 2 MiB page, and the next entry begins there. -/
def neighbourMap : List MemmapEntry :=
  [⟨0x100000, 0x7D00000, .usable⟩, ⟨0x7E00000, 0x1FFF9C, .acpiReclaimable⟩, ⟨0x7FFFF9C, 0x10064, .acpiNvs⟩,
    ⟨0x8100000, 0x4000, .kernelAndModules⟩]

def neighbourBoot : Boot := { directBoot with memmap := some neighbourMap }

def neighbourMachine : Machine := { directMachine with early := ⟨0x100000, 0x100000, 0x7E00000, false⟩ }

theorem neighbour_straddles : ¬ neighbourMap.Pairwise fun e f => ¬ Straddles e f := by
  intro apart
  have second : ¬ Straddles ⟨0x7E00000, 0x1FFF9C, .acpiReclaimable⟩ ⟨0x7FFFF9C, 0x10064, .acpiNvs⟩ := by
    unfold neighbourMap at apart
    exact (List.pairwise_cons.mp (List.pairwise_cons.mp apart).2).1 _ List.mem_cons_self
  apply second
  have first : roundedRange ⟨0x7E00000, 0x1FFF9C, .acpiReclaimable⟩ = Set.Ico 0x7E00000 0x8000000 := by
    unfold roundedRange
    congr 1
  have next : roundedRange ⟨0x7FFFF9C, 0x10064, .acpiNvs⟩ = Set.Ico 0x7FFF000 0x8010000 := by
    unfold roundedRange
    congr 1
  have around : chunk 63 = Set.Ico 0x7E00000 0x8000000 := by
    unfold chunk
    congr 1
  refine ⟨rfl, rfl, 63, ?_⟩
  rw [first, next, around]
  refine ⟨Set.Subset.rfl, ⟨0x7FFF000, by simp⟩, fun whole => ?_⟩
  have low := (whole (show 0x7E00000 ∈ Set.Ico 0x7E00000 0x8000000 by simp)).1
  revert low
  decide

/-- A map of neighbours, each at the end of the one before, on which the bootstrap panics. -/
theorem neighbours_panic : neighbourMap.Pairwise (fun e f => e.base + e.length ≤ f.base) ∧
    Early.init neighbourBoot .zero = .ok neighbourMachine.early ∧
    neighbourMachine.buildTables neighbourBoot = .error (.panic .hugeDescent) := by
  refine ⟨by decide, rfl, ?_⟩
  have sound : neighbourMachine.early.Sound := ⟨by decide, ⟨by decide, by decide⟩, by decide, by decide, by decide⟩
  obtain ⟨⟨root, m₀⟩, alloc, fresh⟩ := (allocTable_root sound (by decide)).returns (by decide)
  unfold buildTables
  rw [bind_eq alloc]
  replace fresh := fresh.select
  dsimp only
  generalize ({ m₀ with paging := { m₀.paging with pml4Phys := root } } : Machine) = start at fresh ⊢
  have ready := fresh.ready
  have hhdm : start.paging.hhdm = 0xFFFF800000000000 := fresh.hhdm
  have early : start.early = ⟨0x100000, 0x101000, 0x7E00000, false⟩ := fresh.early
  have level : Level start root 0 := fun va e k found => by
    rw [fresh.empty] at found
    cases found
  have identity := mapIdentityMinimal_builds ready level
  obtain ⟨m₁, ok₁, laid, _⟩ := identity.returns (by rw [early]; decide)
  obtain ⟨stop₁, cursor₁⟩ := identity.early ok₁
  have ready₁ := ready.evolves laid.evolves
  have level₁ := laid.level_zero level
  rw [early] at stop₁ cursor₁
  dsimp only [id] at stop₁ cursor₁
  have address : neighbourBoot.kernelAddress = some ⟨0x8100000, 0xFFFFFFFF80000000⟩ := rfl
  have memmap : neighbourBoot.memmap = some neighbourMap := rfl
  have image := mapKernelHigherHalf_builds ready₁ level₁ address directInput.image
  have pages : imagePages neighbourBoot.symbols = 4 := by decide
  rw [pages] at image
  obtain ⟨m₂, ok₂, imaged⟩ := image.returns (by rw [stop₁]; unfold pageSize at *; omega)
  obtain ⟨stop₂, cursor₂⟩ := image.early ok₂
  dsimp only [id] at stop₂ cursor₂
  have evolves := laid.evolves.trans imaged.evolves
  have ready₂ := ready.evolves evolves
  have offset : m₂.paging.hhdm = 0xFFFF800000000000 := by rw [evolves.paging, hhdm]
  have length : (hhdmRequests 0xFFFF800000000000 neighbourMap).length = 341 := by decide +kernel
  have room : Room m₂ ((hhdmRequests m₂.paging.hhdm neighbourMap).length * 3) := by
    refine ⟨ready₂.hhdm, ready₂.hierarchy.sound, ?_⟩
    rw [offset, length, stop₂, stop₁]
    unfold pageSize at *
    omega
  rw [bind_eq ok₁, bind_eq ok₂]
  rcases mapHhdm_cases ready₂ (imaged.level level₁) (by rw [offset]; decide) memmap (by simp [neighbourMap])
    (by unfold neighbourMap window; decide) room with ⟨_, apart⟩ | ⟨failed, _⟩
  · exact absurd apart neighbour_straddles
  · exact failed

end Voyager.Machine
