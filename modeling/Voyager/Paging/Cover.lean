import Voyager.Paging.Chart
import Voyager.Paging.Requests
import Voyager.Paging.Switch

/-! # Covering ranges of the HHDM -/

namespace Voyager.Machine

open Lib Lib.RadixTable Paging

variable {m m' m'' : Machine} {root hhdm va p q phys len : Nat} {pages pages' : List Nat} {S T : Set Nat} {boot : Boot}

/-! ### Ranges as pages -/

def coverPages (m : Machine) (root : Nat) (pages : List Nat) : Kernel Machine :=
  pages.foldlM (fun m p => m.ensureHhdmCoverPhysPage root p) m

def pagesOf (phys len : Nat) : List Nat :=
  if len = 0 then [] else
    (List.range ((alignUp (phys + len) pageSize - alignDown phys pageSize) / pageSize)).map
      fun i => alignDown phys pageSize + i * pageSize

theorem coverPages_nil : m.coverPages root [] = .ok m := rfl

theorem coverPages_cons : m.coverPages root (p :: pages) =
    (m.ensureHhdmCoverPhysPage root p >>= fun m => m.coverPages root pages) := List.foldlM_cons

theorem coverPages_append : m.coverPages root (pages ++ pages') =
    (m.coverPages root pages >>= fun m => m.coverPages root pages') := List.foldlM_append

theorem coverLoop_eq {page stop n fuel : Nat} (sum : page + n * pageSize = stop) (small : stop ≤ 2 ^ 52) (enough : n < fuel) :
    coverLoop root stop m page fuel = m.coverPages root ((List.range n).map fun i => page + i * pageSize) := by
  induction n generalizing m page fuel with
  | zero =>
    obtain ⟨fuel, rfl⟩ := Nat.exists_eq_add_of_lt enough
    rw [Nat.zero_add, coverLoop, if_neg (by omega)]
    rfl
  | succ n ih =>
    obtain ⟨fuel, rfl⟩ : ∃ k, fuel = k + 1 := ⟨fuel - 1, by omega⟩
    rw [Nat.succ_mul] at sum
    have positive : pageSize = 4096 := rfl
    have next : add64 page pageSize = page + pageSize := add64_of_lt (by omega)
    have shift : ∀ i, page + pageSize + i * pageSize = page + (i + 1) * pageSize := fun i => by rw [Nat.succ_mul]; omega
    rw [coverLoop, if_pos (by omega), List.range_succ_eq_map, List.map_cons, List.map_map, coverPages_cons, Nat.zero_mul,
      Nat.add_zero, next]
    refine bind_congr fun m₁ => ?_
    rw [ih (by omega) (by omega)]
    simp only [shift]
    rfl

theorem ensureHhdmCoverPhysRange_eq (below : phys + len ≤ window) :
    m.ensureHhdmCoverPhysRange root phys len = m.coverPages root (pagesOf phys len) := by
  unfold ensureHhdmCoverPhysRange pagesOf
  by_cases none : len = 0
  · rw [if_pos none, if_pos none, coverPages_nil]
  · have sum : add64 phys len = phys + len := add64_of_lt (by unfold window at below; omega)
    rw [if_neg none, if_neg none, sum]
    apply coverLoop_eq
    · unfold alignUp alignDown add64 pageSize window at *
      omega
    · unfold alignUp add64 pageSize window at *
      omega
    · unfold alignUp add64 pageSize window loopFuel at *
      omega

theorem mem_pagesOf : p ∈ pagesOf phys len ↔
    len ≠ 0 ∧ p % pageSize = 0 ∧ alignDown phys pageSize ≤ p ∧ p < alignUp (phys + len) pageSize := by
  unfold pagesOf
  by_cases none : len = 0
  · simp [none]
  rw [if_neg none, List.mem_map]
  simp only [List.mem_range]
  constructor
  · rintro ⟨i, lt, rfl⟩
    unfold alignUp alignDown add64 pageSize at *
    omega
  · rintro ⟨_, page, low, high⟩
    refine ⟨(p - alignDown phys pageSize) / pageSize, ?_, ?_⟩
    · unfold alignUp alignDown add64 pageSize at *
      omega
    · unfold alignUp alignDown add64 pageSize at *
      omega

def IsPage (p : Nat) : Prop := p % pageSize = 0 ∧ p < window

theorem pagesOf_isPage (below : phys + len ≤ window) (hp : p ∈ pagesOf phys len) : IsPage p := by
  obtain ⟨_, page, _, high⟩ := mem_pagesOf.mp hp
  refine ⟨page, ?_⟩
  unfold alignUp add64 pageSize window at *
  omega

/-! ### What covering does -/

def wanted (m : Machine) (root hhdm : Nat) (S : Set Nat) : Set (List (Fin 512)) :=
  {way | ∃ p ∈ S, leafOf m.mem root (add64 hhdm p) = none ∧ way ∈ stems [] (upperPath (add64 hhdm p))}

structure Covered (m m' : Machine) (root hhdm : Nat) (S : Set Nat) : Prop where
  evolves : Evolves m m' root
  kept : ∀ {va r}, leafOf m.mem root va = some r → leafOf m'.mem root va = some r
  added : ∀ {va p}, leafOf m.mem root va = none → p ∈ S → SamePage (add64 hhdm p) va →
    leafOf m'.mem root va = some (leaf4k p (pteW ||| pteNX), 0)
  other : ∀ {va}, leafOf m.mem root va = none → (∀ p ∈ S, ¬ SamePage (add64 hhdm p) va) → leafOf m'.mem root va = none
  charted : Charted m m' root (wanted m root hhdm S)

theorem Covered.refl (h : Hierarchy m root) : Covered m m root hhdm ∅ where
  evolves := .refl h
  kept found := found
  added _ hp := hp.elim
  other none _ := none
  charted := .same fun _ ⟨_, hp, _⟩ => hp.elim

theorem covered_page (h : Hierarchy m root) (page : p % pageSize = 0) (run : m.ensureHhdmCoverPhysPage root p = .ok m') :
    Covered m m' root m.paging.hhdm {p} := by
  have whole : alignDown p pageSize = p := Nat.div_mul_cancel (Nat.dvd_of_mod_eq_zero page)
  unfold ensureHhdmCoverPhysPage at run
  dsimp only at run
  rw [walk_isSome, whole] at run
  split at run
  · rename_i mapped
    obtain ⟨r, found⟩ := Option.isSome_iff_exists.mp mapped
    cases run
    refine ⟨.refl h, fun found => found, fun {va q} none hq same => ?_, fun none _ => none, .same ?_⟩
    · rw [Set.mem_singleton_iff.mp hq] at same
      rw [leafOf_congr same, found] at none
      cases none
    · rintro way ⟨q, rfl, none, _⟩
      rw [found] at none
      cases none
  · rename_i missing
    rw [Bool.not_eq_true, Option.isSome_eq_false_iff, Option.isNone_iff_eq_none] at missing
    obtain ⟨evolves, leaves⟩ := map4k_ok h run
    refine ⟨evolves, fun {va r} found => ?_, fun {va q} _ hq same => ?_, fun {va} none off => ?_, ?_⟩
    · rw [leaves, if_neg]
      · exact found
      · intro same
        rw [leafOf_congr same, missing] at found
        cases found
    · rw [Set.mem_singleton_iff.mp hq] at same ⊢
      rw [leaves, if_pos same]
    · rw [leaves, if_neg (off p rfl), none]
    · have way : wanted m root m.paging.hhdm {p} = stems [] (upperPath (add64 m.paging.hhdm p)) := by
        ext way
        exact ⟨fun ⟨_, hq, _, inside⟩ => Set.mem_singleton_iff.mp hq ▸ inside, fun inside => ⟨p, rfl, missing, inside⟩⟩
      rw [way]
      exact map4k_charted h run

theorem ensurePage_whole :
    m.ensureHhdmCoverPhysPage root p = m.ensureHhdmCoverPhysPage root (alignDown p pageSize) := by
  have whole : alignDown (alignDown p pageSize) pageSize = alignDown p pageSize := by
    unfold alignDown pageSize
    omega
  rw [ensureHhdmCoverPhysPage, ensureHhdmCoverPhysPage, whole]

theorem samePage_direct (aligned : hhdm % page2m = 0) (hp : IsPage p) (hq : IsPage q)
    (same : SamePage (add64 hhdm p) (add64 hhdm q)) : p = q := by
  have pages := (directRequest_covers_small aligned hp.2 hq.2).mp same
  have hp := hp.1
  have hq := hq.1
  unfold pageSize at *
  omega

theorem Covered.page_of_some {r : Nat × Nat} (h : Covered m m' root hhdm S) (none : leafOf m.mem root va = none)
    (found : leafOf m'.mem root va = some r) : ∃ p ∈ S, SamePage (add64 hhdm p) va ∧ r = (leaf4k p (pteW ||| pteNX), 0) := by
  by_contra nothing
  have off : ∀ p ∈ S, ¬ SamePage (add64 hhdm p) va := fun p hp same => by
    have new := h.added none hp same
    exact nothing ⟨p, hp, same, Option.some.inj (found.symm.trans new)⟩
  rw [h.other none off] at found
  cases found

theorem Covered.wanted_union (h : Covered m m' root hhdm S) (aligned : hhdm % page2m = 0) (hS : ∀ p ∈ S, IsPage p)
    (hT : ∀ p ∈ T, IsPage p) : wanted m root hhdm S ∪ wanted m' root hhdm T = wanted m root hhdm (S ∪ T) := by
  ext way
  constructor
  · rintro (⟨p, hp, none, inside⟩ | ⟨p, hp, none, inside⟩)
    · exact ⟨p, .inl hp, none, inside⟩
    · refine ⟨p, .inr hp, ?_, inside⟩
      cases before : leafOf m.mem root (add64 hhdm p) with
      | none => rfl
      | some r =>
        rw [h.kept before] at none
        cases none
  · rintro ⟨p, hp | hp, none, inside⟩
    · exact .inl ⟨p, hp, none, inside⟩
    · cases after : leafOf m'.mem root (add64 hhdm p) with
      | none => exact .inr ⟨p, hp, after, inside⟩
      | some r =>
        obtain ⟨q, hq, same, _⟩ := h.page_of_some none after
        obtain rfl := samePage_direct aligned (hS q hq) (hT p hp) same
        exact .inl ⟨q, hq, none, inside⟩

theorem Covered.trans (h : Covered m m' root hhdm S) (h' : Covered m' m'' root hhdm T) (aligned : hhdm % page2m = 0)
    (hS : ∀ p ∈ S, IsPage p) (hT : ∀ p ∈ T, IsPage p) : Covered m m'' root hhdm (S ∪ T) where
  evolves := h.evolves.trans h'.evolves
  kept found := h'.kept (h.kept found)
  added {va p} none hp same := by
    rcases hp with hp | hp
    · exact h'.kept (h.added none hp same)
    · cases after : leafOf m'.mem root va with
      | none => exact h'.added after hp same
      | some r =>
        obtain ⟨q, hq, same', rfl⟩ := h.page_of_some none after
        have pages : SamePage (add64 hhdm q) (add64 hhdm p) := same.symm.trans same'
        rw [← samePage_direct aligned (hS q hq) (hT p hp) pages]
        exact h'.kept after
  other none off := h'.other (h.other none fun p hp => off p (.inl hp)) fun p hp => off p (.inr hp)
  charted := by
    rw [← h.wanted_union aligned hS hT]
    exact h.charted.trans h'.charted

theorem coverPages_covered (h : Hierarchy m root) (aligned : m.paging.hhdm % page2m = 0) (all : ∀ p ∈ pages, IsPage p)
    (run : m.coverPages root pages = .ok m') : Covered m m' root m.paging.hhdm {p | p ∈ pages} := by
  induction pages generalizing m with
  | nil =>
    cases run
    have none : {p | p ∈ ([] : List Nat)} = ∅ := by simp
    rw [none]
    exact .refl h
  | cons p rest ih =>
    rw [coverPages_cons] at run
    obtain ⟨m₁, first, run⟩ := bind_ok run
    have page := all p List.mem_cons_self
    have later := fun q hq => all q (List.mem_cons_of_mem p hq)
    have covered := covered_page h page.1 first
    have same := covered.evolves.paging
    have rest' := ih (covered.evolves.hierarchy h) (by rw [same]; exact aligned) later run
    rw [same] at rest'
    have split : {q | q ∈ p :: rest} = {p} ∪ {q | q ∈ rest} := by
      ext q
      simp
    rw [split]
    refine covered.trans rest' aligned (fun q hq => ?_) later
    rw [Set.mem_singleton_iff.mp hq]
    exact page

theorem coverPages_builds (ready : Ready m root) : Builds m (pages.length * 3) (m.coverPages root pages) id fun _ => True := by
  induction pages generalizing m with
  | nil => exact .pure rfl trivial
  | cons p rest ih =>
    rw [coverPages_cons, List.length_cons, Nat.succ_mul, Nat.add_comm]
    exact (ensureHhdmCoverPhysPage_builds ready).bind fun m₁ patched => ih (ready.evolves patched.1.evolves)

theorem coverPages_again (all : ∀ p ∈ pages, IsPage p)
    (mapped : ∀ p ∈ pages, (leafOf m.mem root (add64 m.paging.hhdm p)).isSome) : m.coverPages root pages = .ok m := by
  induction pages with
  | nil => rfl
  | cons p rest ih =>
    have page := all p List.mem_cons_self
    have whole : alignDown p pageSize = p := Nat.div_mul_cancel (Nat.dvd_of_mod_eq_zero page.1)
    have nothing : m.ensureHhdmCoverPhysPage root p = .ok m := by
      unfold ensureHhdmCoverPhysPage
      dsimp only
      rw [walk_isSome, whole, if_pos (mapped p List.mem_cons_self)]
    rw [coverPages_cons, bind_eq nothing]
    exact ih (fun q hq => all q (List.mem_cons_of_mem p hq)) fun q hq => mapped q (List.mem_cons_of_mem p hq)

/-! ### When the pages run out -/

theorem Short.mono {m₁ : Machine} {way way' : Set (List (Fin 512))} (h : Short m m₁ root way) (sub : way ⊆ way') :
    Short m m₁ root way' := by
  obtain ⟨new, inside, charted⟩ := h.charted
  obtain ⟨q, hq, missing⟩ := h.missing
  exact ⟨h.evolves, ⟨new, inside.trans sub, charted⟩, ⟨q, sub hq, missing⟩, h.full⟩

theorem ensureHhdmCoverPhysPage_short {used : Nat} (ready : Ready m root) (page : p % pageSize = 0)
    (failed : m.ensureHhdmCoverPhysPage root p = .error (.panic (.earlyExhausted used))) :
    ∃ m₁, Short m m₁ root (wanted m root m.paging.hhdm {p}) := by
  have whole : alignDown p pageSize = p := Nat.div_mul_cancel (Nat.dvd_of_mod_eq_zero page)
  unfold ensureHhdmCoverPhysPage at failed
  dsimp only at failed
  rw [walk_isSome, whole] at failed
  split at failed
  · cases failed
  · rename_i missing
    rw [Bool.not_eq_true, Option.isSome_eq_false_iff, Option.isNone_iff_eq_none] at missing
    rw [map4k_eq, enterLeaf] at failed
    have start : Reached m.mem root (0 + (upperPath (add64 m.paging.hhdm p)).length) [] root := .root
    cases down : m.descend root (upperPath (add64 m.paging.hhdm p)) with
    | ok r =>
      rw [bind_eq down] at failed
      cases failed
    | error halt =>
      rw [down] at failed
      obtain rfl : halt = .panic (.earlyExhausted used) := Except.error.inj failed
      obtain ⟨m₁, short⟩ := descend_short ready.hierarchy ready.hhdm start down
      exact ⟨m₁, short.mono fun way inside => ⟨p, rfl, missing, inside⟩⟩

theorem coverPages_short {used : Nat} (ready : Ready m root) (aligned : m.paging.hhdm % page2m = 0)
    (all : ∀ p ∈ pages, IsPage p) (failed : m.coverPages root pages = .error (.panic (.earlyExhausted used))) :
    ∃ m₁, Short m m₁ root (wanted m root m.paging.hhdm {p | p ∈ pages}) := by
  induction pages generalizing m with
  | nil => cases failed
  | cons p rest ih =>
    have page := all p List.mem_cons_self
    have later := fun q hq => all q (List.mem_cons_of_mem p hq)
    have split : {q | q ∈ p :: rest} = {p} ∪ {q | q ∈ rest} := by
      ext q
      simp
    rw [coverPages_cons] at failed
    rw [split]
    cases first : m.ensureHhdmCoverPhysPage root p with
    | ok m₁ =>
      rw [bind_eq first] at failed
      have covered := covered_page ready.hierarchy page.1 first
      have same := covered.evolves.paging
      obtain ⟨m₂, short⟩ := ih (ready.evolves covered.evolves) (by rw [same]; exact aligned) later failed
      obtain ⟨new, inside, charted⟩ := short.charted
      obtain ⟨q, hq, missing⟩ := short.missing
      rw [same] at inside hq
      have one : ∀ q ∈ ({p} : Set Nat), IsPage q := fun q hq => Set.mem_singleton_iff.mp hq ▸ page
      rw [← covered.wanted_union aligned one (show ∀ q ∈ {q | q ∈ rest}, IsPage q from later)]
      exact ⟨m₂, covered.evolves.trans short.evolves, ⟨_, Set.union_subset_union_right _ inside,
        covered.charted.trans charted⟩, ⟨q, .inr hq, missing⟩, short.full⟩
    | error halt =>
      rw [first] at failed
      obtain rfl : halt = .panic (.earlyExhausted used) := Except.error.inj failed
      obtain ⟨m₁, short⟩ := ensureHhdmCoverPhysPage_short ready page.1 first
      exact ⟨m₁, short.mono fun way ⟨q, hq, rest⟩ => ⟨q, .inl hq, rest⟩⟩

/-- Where one run has had pages enough, another for the same tables cannot be short of them. -/
theorem Charted.not_short {m₁ m₂ : Machine} {way : Set (List (Fin 512))} (h : Charted m m₁ root way)
    (evolves : Evolves m m₁ root) (short : Short m m₂ root way) : False := by
  obtain ⟨new, inside, charted⟩ := short.charted
  obtain ⟨q, hq, missing⟩ := short.missing
  have sub : insert q (tablePaths m₂.mem root) ⊆ tablePaths m₁.mem root := by
    rw [h.paths, charted.paths]
    rintro a (rfl | old | new)
    · exact .inr hq
    · exact .inl old
    · exact .inr (inside new)
  have card : (tablePaths m₂.mem root).ncard + 1 ≤ (tablePaths m₁.mem root).ncard := by
    rw [← Set.ncard_insert_of_notMem missing tablePaths_finite]
    exact Set.ncard_le_ncard sub tablePaths_finite
  have most := Nat.mul_le_mul_left pageSize card
  rw [Nat.mul_succ] at most
  have first := h.balance
  have second := charted.balance
  have full := short.full
  have room := evolves.sound.bounds.2.1
  rw [short.evolves.stop] at full
  rw [evolves.stop] at room
  omega

end Voyager.Machine
