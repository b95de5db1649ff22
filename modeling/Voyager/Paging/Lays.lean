import Voyager.Paging.Ranges

/-!
# What a range of pages does to the translation

Addresses are canonical: the tables cannot tell others apart.
-/

namespace Voyager.Machine

open Lib Lib.RadixTable Paging

def Canonical (va : Nat) : Prop := va < 2 ^ 47 ∨ 2 ^ 64 - 2 ^ 47 ≤ va ∧ va < 2 ^ 64

def CanonicalRange (va size : Nat) : Prop := va + size ≤ 2 ^ 47 ∨ 2 ^ 64 - 2 ^ 47 ≤ va ∧ va + size ≤ 2 ^ 64

/-- `va` translates to `pa`, through a leaf that is writable or not, executable or not. -/
def Maps (m : Machine) (root va pa : Nat) (w nx : Bool) : Prop :=
  ∃ e k, leafOf m.mem root va = some (e, k) ∧ k ≤ 1 ∧ leafAddress e k va = pa ∧ e.testBit 1 = w ∧ e.testBit 63 = nx

def Filled (m : Machine) (root va size pa : Nat) (w nx : Bool) :
    Prop := ∀ x < size, Maps m root (va + x) (pa + x) w nx

def Level (m : Machine) (root top : Nat) : Prop := ∀ va e k, leafOf m.mem root va = some (e, k) → k ≤ top

def Clear (m : Machine) (root va size limit : Nat) : Prop :=
  ∀ va', va ≤ va' → va' < va + size → ∀ e k, leafOf m.mem root va' = some (e, k) → k ≤ limit

structure Ready (m : Machine) (root : Nat) : Prop where
  hierarchy : Hierarchy m root
  plain : Plain m.mem root
  hhdm : m.paging.hhdm ≠ 0

/-- From `m` to `m'` leaves of level `limit` at most were entered in the range. -/
structure Lays (m m' : Machine) (root va size limit : Nat) : Prop where
  evolves : Evolves m m' root
  outside : ∀ va', Canonical va' → va' < va ∨ va + size ≤ va' → leafOf m'.mem root va' = leafOf m.mem root va'
  level : ∀ top, limit ≤ top → Level m root top → Level m' root top

variable {m m' m'' : Machine} {root va va' pa flags size limit n a b x : Nat} {w nx : Bool}
  {f : Machine → Nat → Nat → Kernel Machine}

theorem CanonicalRange.mem (h : CanonicalRange va size) (lt : x < size) : Canonical (va + x) := by
  unfold CanonicalRange Canonical at *
  omega

theorem samePage_iff (aligned : va % pageSize = 0) (range : CanonicalRange va pageSize)
    (canonical : Canonical va') :
    SamePage va va' ↔ va ≤ va' ∧ va' < va + pageSize := by
  unfold CanonicalRange Canonical SamePage pageSize at *
  omega

theorem same2m_iff (aligned : va % page2m = 0) (range : CanonicalRange va page2m) (canonical : Canonical va') :
    Same2m va va' ↔ va ≤ va' ∧ va' < va + page2m := by
  unfold CanonicalRange Canonical Same2m page2m at *
  omega

theorem Maps.congr {pa : Nat} (h : Maps m root va pa w nx) (same : leafOf m'.mem root va = leafOf m.mem root va) :
    Maps m' root va pa w nx := by
  unfold Maps
  rw [same]
  exact h

theorem Ready.evolves (h : Ready m root) (evolves : Evolves m m' root) : Ready m' root :=
  ⟨evolves.hierarchy h.hierarchy, evolves.plain h.plain, by rw [evolves.paging]; exact h.hhdm⟩

theorem Lays.refl (h : Hierarchy m root) : Lays m m root va size limit :=
  ⟨.refl h, fun _ _ _ => rfl, fun _ _ level => level⟩

theorem Lays.trans {start : Nat} (h : Lays m m' root va a limit) (h' : Lays m' m'' root start b limit)
    (join : b = 0 ∨ start = va + a) : Lays m m'' root va (a + b) limit where
  evolves := h.evolves.trans h'.evolves
  outside va' canonical off := by
    have second := h'.outside va' canonical (by omega)
    exact second.trans (h.outside va' canonical (by omega))
  level top le level := h'.level top le (h.level top le level)

theorem Lays.mono {limit' : Nat} (h : Lays m m' root va size limit) (le : limit ≤ limit') :
    Lays m m' root va size limit' :=
  ⟨h.evolves, h.outside, fun top le' => h.level top (Nat.le_trans le le')⟩

theorem Filled.kept {start : Nat} (h : Filled m root va size pa w nx) (range : CanonicalRange va size)
    (lays : Lays m m' root start b limit) (apart : b = 0 ∨ va + size ≤ start ∨ start + b ≤ va) :
    Filled m' root va size pa w nx := fun x lt =>
  (h x lt).congr (lays.outside _ (range.mem lt) (by omega))

theorem Filled.append (h : Filled m root va a pa w nx) (h' : Filled m root (va + a) b (pa + a) w nx) :
    Filled m root va (a + b) pa w nx := by
  intro x lt
  by_cases first : x < a
  · exact h x first
  · have rest := h' (x - a) (by omega)
    rwa [show va + a + (x - a) = va + x by omega, show pa + a + (x - a) = pa + x by omega] at rest

def Enters (f : Machine → Nat → Nat → Kernel Machine) (root size limit : Nat) (w nx : Bool) : Prop :=
  ∀ m va pa, Ready m root → (∀ e k, leafOf m.mem root va = some (e, k) → k ≤ limit) → va % size = 0 →
    CanonicalRange va size →
    Builds m 3 (f m va pa) id fun m' => Lays m m' root va size limit ∧
      (pa % size = 0 → pa + size ≤ 2 ^ 52 → Filled m' root va size pa w nx)

theorem map4k_enters : Enters (fun m va pa => m.map4k root va pa flags) root pageSize 0 (flags.testBit 1)
    (flags.testBit 63) := by
  intro m va pa ready clear aligned range
  refine (map4k_builds ready.hierarchy ready.plain ready.hhdm fun e k found => Nat.le_zero.mp
    (clear e k found)).imp (Nat.le_refl 3) ?_
  rintro m' - ⟨evolves, leaves⟩
  refine ⟨⟨evolves, fun va' canonical off => ?_, fun top _ level va' e k found => ?_⟩, fun al small x lt => ?_⟩
  · rw [leaves, if_neg]
    rw [samePage_iff aligned range canonical]
    omega
  · rw [leaves] at found
    split at found
    · cases found
      exact Nat.zero_le _
    · exact level va' e k found
  · have inside : SamePage va (va + x) := (samePage_iff aligned range (range.mem lt)).mpr ⟨by omega, by omega⟩
    refine ⟨leaf4k pa flags, 0, by rw [leaves, if_pos inside], by decide, ?_, by rw [leaf4k_testBit]; simp,
      by rw [leaf4k_testBit]; simp⟩
    rw [leafAddress_4k]
    unfold pageSize at *
    omega

theorem map2m_enters : Enters (fun m va pa => m.map2m root va pa flags) root page2m 1 true (flags.testBit 63) := by
  intro m va pa ready clear aligned range
  apply (map2m_builds ready.hierarchy ready.plain ready.hhdm clear).imp (Nat.le_refl 3)
  rintro m' - ⟨evolves, leaves⟩
  refine ⟨⟨evolves, fun va' canonical off => ?_, fun top le level va' e k found => ?_⟩, fun al small x lt => ?_⟩
  · rw [leaves, if_neg]
    rw [same2m_iff aligned range canonical]
    omega
  · rw [leaves] at found
    split at found
    · cases found
      exact le
    · exact level va' e k found
  · have inside : Same2m va (va + x) := (same2m_iff aligned range (range.mem lt)).mpr ⟨by omega, by omega⟩
    have positive : 0 < page2m := by decide
    refine ⟨leaf2m pa flags, 1, by rw [leaves, if_pos inside], by decide, ?_, by rw [leaf2m_testBit]; simp,
      by rw [leaf2m_testBit]; simp⟩
    rw [leafAddress_2m al (by omega), Nat.add_mod, aligned, Nat.zero_add, Nat.mod_mod, Nat.mod_eq_of_lt lt]

theorem pageLoop_builds (enters : Enters f root size limit w nx) (positive : 0 < size)
    (ready : Ready m root) (clear : Clear m root va (n * size) limit) (aligned : n ≠ 0 → va % size = 0)
    (range : n ≠ 0 → CanonicalRange va (n * size)) :
    Builds m (n * 3) (pageLoop f size m va pa n) id fun m' => Lays m m' root va (n * size) limit ∧
      (pa % size = 0 → pa + n * size ≤ 2 ^ 52 → Filled m' root va (n * size) pa w nx) := by
  induction n generalizing m va pa with
  | zero =>
    refine .pure rfl ⟨.refl ready.hierarchy, fun _ _ x lt => ?_⟩
    rw [Nat.zero_mul] at lt
    omega
  | succ n ih =>
    have aligned := aligned (Nat.succ_ne_zero n)
    have range := range (Nat.succ_ne_zero n)
    rw [Nat.succ_mul] at clear range
    have first : CanonicalRange va size := by
      unfold CanonicalRange at *
      omega
    -- After the last page the address may wrap to zero; nothing is entered there.
    have next : n ≠ 0 → add64 va size = va + size := fun more => by
      have : 0 < n * size := Nat.mul_pos (Nat.pos_of_ne_zero more) positive
      unfold CanonicalRange at range
      exact add64_of_lt (by omega)
    rw [show (n + 1) * 3 = 3 + n * 3 by omega]
    refine (enters m va pa ready (fun e k => clear va (Nat.le_refl _) (by omega) e k) aligned first).bind ?_
    rintro m₁ ⟨lays, filled⟩
    refine (ih (ready.evolves lays.evolves) ?_ (fun more => ?_) (fun more => ?_)).imp (Nat.le_refl _) ?_
    · intro va' low high e k found
      have more : n ≠ 0 := fun none => by rw [none, Nat.zero_mul] at high; omega
      rw [next more] at low high
      have canonical : Canonical va' := by
        unfold CanonicalRange Canonical at *
        omega
      rw [lays.outside va' canonical (by omega)] at found
      exact clear va' (by omega) (by omega) e k found
    · rw [next more, Nat.add_mod_right]
      exact aligned
    · rw [next more]
      unfold CanonicalRange at *
      omega
    · rintro m₂ - ⟨lays', filled'⟩
      rw [Nat.succ_mul, Nat.add_comm (n * size)]
      have join : n * size = 0 ∨ add64 va size = va + size := by
        by_cases more : n = 0
        · exact .inl (by rw [more, Nat.zero_mul])
        · exact .inr (next more)
      refine ⟨lays.trans lays' join, fun al small => Filled.append ?_ ?_⟩
      · exact (filled al (by omega)).kept first lays' (by omega)
      · rw [add64_of_lt (show pa + size < 2 ^ 64 by omega), Nat.add_mod_right] at filled'
        rcases join with none | next
        · rw [none]
          intro x lt
          omega
        · rw [← next]
          exact filled' al (by omega)

theorem pages4k_builds (ready : Ready m root) (clear : Clear m root va (n * pageSize) 0)
    (aligned : n ≠ 0 → va % pageSize = 0)
    (range : n ≠ 0 → CanonicalRange va (n * pageSize)) :
    Builds m (n * 3) (pages4k root flags m va pa n) id fun m' => Lays m m' root va (n * pageSize) 0 ∧
      (pa % pageSize = 0 → pa + n * pageSize ≤ 2 ^ 52 →
        Filled m' root va (n * pageSize) pa (flags.testBit 1) (flags.testBit 63)) :=
  pageLoop_builds map4k_enters (by decide) ready clear aligned range

theorem pages2m_builds (ready : Ready m root) (clear : Clear m root va (n * page2m) 1)
    (aligned : n ≠ 0 → va % page2m = 0)
    (range : n ≠ 0 → CanonicalRange va (n * page2m)) :
    Builds m (n * 3) (pages2m root flags m va pa n) id fun m' => Lays m m' root va (n * page2m) 1 ∧
      (pa % page2m = 0 → pa + n * page2m ≤ 2 ^ 52 → Filled m' root va (n * page2m) pa true (flags.testBit 63)) :=
  pageLoop_builds map2m_enters (by decide) ready clear aligned range

theorem Clear.sub (h : Clear m root va size limit) (start n : Nat) (low : va ≤ start)
    (high : start + n ≤ va + size) :
    Clear m root start n limit :=
  fun va' le lt => h va' (by omega) (by omega)

theorem Clear.kept {start top : Nat} (h : Clear m root va size limit) (range : CanonicalRange va size)
    (lays : Lays m m' root start b top) (apart : b = 0 ∨ va + size ≤ start ∨ start + b ≤ va) :
    Clear m' root va size limit := by
  intro va' low high e k found
  have canonical := range.mem (x := va' - va) (by omega)
  rw [show va + (va' - va) = va' by omega] at canonical
  rw [lays.outside va' canonical (by omega)] at found
  exact h va' low high e k found

theorem nothing_or {s : Nat} (next : n ≠ 0 → va' = va) : n * s = 0 ∨ va' = va := by
  by_cases more : n = 0
  · exact .inl (by rw [more, Nat.zero_mul])
  · exact .inr (next more)

theorem Clear.next (next : n ≠ 0 → va' = va) (h : Clear m root va (n * size) limit) :
    Clear m root va' (n * size) limit := by
  rcases nothing_or (s := size) next with none | rfl
  · intro x low high
    omega
  · exact h

theorem Filled.of_more (h : n ≠ 0 → Filled m root va (n * size) pa w nx) : Filled m root va (n * size) pa w nx := by
  intro x lt
  refine h (fun none => ?_) x lt
  rw [none, Nat.zero_mul] at lt
  omega

theorem mapRangeHugeFirst_builds {len : Nat} (ready : Ready m root) (clear : Clear m root va len 0)
    (same : va % page2m = pa % page2m) (al : pa % pageSize = 0) (whole : len % pageSize = 0)
    (small : pa + len ≤ 2 ^ 52)
    (range : CanonicalRange va len) (inside : va < 2 ^ 64) :
    Builds m (3 * (1022 + len / page2m)) (m.mapRangeHugeFirst root va pa len 0) id fun m' =>
      Lays m m' root va len 1 ∧ Filled m' root va len pa true true := by
  obtain ⟨a, b, c, split⟩ := exists_split al whole
  have flagsW : (0 ||| pteW ||| pteNX).testBit 1 = true := by decide
  have flagsNX : (0 ||| pteW ||| pteNX).testBit 63 = true := by decide
  rw [mapRangeHugeFirst_eq split same inside small]
  have sum := split.sum
  have head := split.head
  have body := split.body
  have tail := split.tail
  have aligned : va % pageSize = 0 := by
    unfold page2m pageSize at *
    omega
  have top : va + len ≤ 2 ^ 64 := by
    unfold CanonicalRange at range
    omega
  refine (?_ : Builds m (a * 3 + (b * 3 + c * 3)) _ _ _).imp (by omega) fun _ _ post => post
  have range₁ : CanonicalRange va (a * pageSize) := by
    unfold CanonicalRange at *
    omega
  refine (pages4k_builds ready (clear.sub _ _ (Nat.le_refl _) (by omega)) (fun _ => aligned) fun _ => range₁).bind ?_
  rintro m₁ ⟨lays₁, filled₁⟩
  -- A loop with no rounds is given an address that may have wrapped.
  have next₁ : b ≠ 0 → add64 va (a * pageSize) = va + a * pageSize := fun more => by
    have : 0 < b * page2m := Nat.mul_pos (Nat.pos_of_ne_zero more) (by decide)
    exact add64_of_lt (by omega)
  have next₂ : c ≠ 0 → add64 va (a * pageSize + b * page2m) = va + (a * pageSize + b * page2m) := fun more => by
    have : 0 < c * pageSize := Nat.mul_pos (Nat.pos_of_ne_zero more) (by decide)
    exact add64_of_lt (by omega)
  have range₂ : CanonicalRange (va + a * pageSize) (b * page2m) := by
    unfold CanonicalRange at *
    omega
  have range₃ : CanonicalRange (va + (a * pageSize + b * page2m)) (c * pageSize) := by
    unfold CanonicalRange at *
    omega
  have clear₂ := (clear.sub (va + a * pageSize) (b * page2m) (by omega) (by omega)).kept range₂ lays₁ (by omega)
  have clear₃ := (clear.sub (va + (a * pageSize + b * page2m)) (c * pageSize) (by omega) (by omega)).kept
    range₃ lays₁ (by omega)
  refine (pages2m_builds (ready.evolves lays₁.evolves) ?_ (fun more => ?_) fun more => next₁ more ▸ range₂).bind ?_
  · exact Clear.next next₁ fun va' low high e k found => Nat.le_trans (clear₂ va' low high e k found) (by decide)
  · have boundary := split.aligned more
    rw [next₁ more]
    unfold page2m pageSize at *
    omega
  rintro m₂ ⟨lays₂, filled₂⟩
  have lays₁₂ := (lays₁.mono (show 0 ≤ 1 by decide)).trans lays₂ (nothing_or next₁)
  have clear₃ := clear₃.kept range₃ lays₂ (by have := nothing_or next₁ (s := page2m); omega)
  refine (pages4k_builds (ready.evolves lays₁₂.evolves) (Clear.next next₂ clear₃) (fun more => ?_)
    fun more => next₂ more ▸ range₃).imp (Nat.le_refl _) ?_
  · rw [next₂ more]
    unfold page2m pageSize at *
    omega
  rintro m₃ - ⟨lays₃, filled₃⟩
  have lays := lays₁₂.trans (lays₃.mono (show 0 ≤ 1 by decide)) (nothing_or next₂)
  rw [sum]
  refine ⟨lays, Filled.append (Filled.append ?_ ?_) ?_⟩
  · have filled := filled₁ al (by omega)
    rw [flagsW, flagsNX] at filled
    have join₁ := nothing_or next₁ (s := page2m)
    have join₂ := nothing_or next₂ (s := pageSize)
    exact (filled.kept range₁ lays₂ (by omega)).kept range₁ lays₃ (by omega)
  · have filled := Filled.of_more fun more => next₁ more ▸ filled₂ (split.aligned more) (by omega)
    have join₂ := nothing_or next₂ (s := pageSize)
    exact filled.kept range₂ lays₃ (by omega)
  · have filled := Filled.of_more fun more => next₂ more ▸ filled₃ (by unfold page2m pageSize at *; omega) (by omega)
    rw [flagsW, flagsNX, Nat.add_assoc] at filled
    exact filled

end Voyager.Machine
