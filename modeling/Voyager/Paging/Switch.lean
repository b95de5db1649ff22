import Voyager.Paging.Direct

/-! # The audit before the switch -/

namespace Voyager.Machine

open Lib Lib.RadixTable Paging

variable {m m' m'' : Machine} {root page stop fuel rsp : Nat} {boot : Boot} {target target' : Nat → Prop}

structure Patched (m m' : Machine) (root : Nat) (target : Nat → Prop) : Prop where
  evolves : Evolves m m' root
  kept : ∀ va r, leafOf m.mem root va = some r → leafOf m'.mem root va = some r
  added : ∀ va r, leafOf m'.mem root va = some r → leafOf m.mem root va = some r ∨
    ∃ p, target p ∧ SamePage (add64 m.paging.hhdm p) va ∧ r = (leaf4k p (pteW ||| pteNX), 0)

theorem Patched.refl (h : Hierarchy m root) : Patched m m root target :=
  ⟨.refl h, fun _ _ found => found, fun _ _ found => .inl found⟩

theorem Patched.trans (h : Patched m m' root target) (h' : Patched m' m'' root target) :
    Patched m m'' root target where
  evolves := h.evolves.trans h'.evolves
  kept va r found := h'.kept va r (h.kept va r found)
  added va r found := by
    rcases h'.added va r found with old | new
    · exact h.added va r old
    · rw [h.evolves.paging] at new
      exact .inr new

theorem Patched.mono (h : Patched m m' root target) (sub : ∀ p, target p → target' p) : Patched m m' root target' :=
  ⟨h.evolves, h.kept, fun va r found => (h.added va r found).imp_right fun ⟨p, hp, rest⟩ => ⟨p, sub p hp, rest⟩⟩

theorem Patched.isSome {va : Nat} (h : Patched m m' root target) (mapped : (leafOf m.mem root va).isSome) :
    (leafOf m'.mem root va).isSome := by
  obtain ⟨r, found⟩ := Option.isSome_iff_exists.mp mapped
  rw [h.kept va r found]
  rfl

theorem walk_isSome {va : Nat} : (m.walkVaToPa va root).isSome = (leafOf m.mem root va).isSome := by
  rw [walkVaToPa_eq, Option.isSome_map]

theorem leafOf_congr {va va' : Nat} (same : SamePage va va') : leafOf m.mem root va' = leafOf m.mem root va := by
  rw [leafOf, leafOf, path_eq_iff.mpr same]

theorem ensureHhdmCoverPhysPage_ok (h : Hierarchy m root) (run : m.ensureHhdmCoverPhysPage root page = .ok m') :
    Patched m m' root (· = alignDown page pageSize) ∧
      (leafOf m'.mem root (add64 m.paging.hhdm (alignDown page pageSize))).isSome := by
  unfold ensureHhdmCoverPhysPage at run
  dsimp only at run
  rw [walk_isSome] at run
  split at run
  · cases run
    rename_i mapped
    exact ⟨.refl h, mapped⟩
  · rename_i missing
    rw [Bool.not_eq_true, Option.isSome_eq_false_iff, Option.isNone_iff_eq_none] at missing
    obtain ⟨evolves, leaves⟩ := map4k_ok h run
    refine ⟨⟨evolves, fun va r found => ?_, fun va r found => ?_⟩, ?_⟩
    · rw [leaves, if_neg]
      · exact found
      · intro same
        rw [leafOf_congr same, missing] at found
        cases found
    · rw [leaves] at found
      split at found
      · cases found
        exact .inr ⟨_, rfl, ‹_›, rfl⟩
      · exact .inl found
    · rw [leaves, if_pos (show SamePage _ _ from rfl)]
      rfl

theorem coverLoop_ok (h : Hierarchy m root) (aligned : page % pageSize = 0) (small : stop ≤ 2 ^ 52)
    (run : coverLoop root stop m page fuel = .ok m') : Patched m m' root fun p => page ≤ p ∧ p < stop := by
  induction fuel generalizing m page with
  | zero => cases run
  | succ fuel ih =>
    unfold coverLoop at run
    split at run
    · rename_i more
      obtain ⟨m₁, first, rest⟩ := bind_ok run
      obtain ⟨patched, _⟩ := ensureHhdmCoverPhysPage_ok h first
      have whole : alignDown page pageSize = page := Nat.div_mul_cancel (Nat.dvd_of_mod_eq_zero aligned)
      have next : add64 page pageSize = page + pageSize := add64_of_lt (by unfold pageSize; omega)
      rw [next] at rest
      refine (patched.mono fun p hp => ?_).trans ((ih (patched.evolves.hierarchy h) ?_ rest).mono fun p hp => ?_)
      · omega
      · rw [Nat.add_mod_right]
        exact aligned
      · omega
    · cases run
      exact .refl h

theorem ensureHhdmCoverPhysRange_ok {phys len : Nat} (h : Hierarchy m root) (small : phys + len + pageSize ≤ 2 ^ 52)
    (run : m.ensureHhdmCoverPhysRange root phys len = .ok m') :
    Patched m m' root fun p => alignDown phys pageSize ≤ p ∧ p < phys + len + pageSize := by
  unfold ensureHhdmCoverPhysRange at run
  split at run
  · cases run
    exact .refl h
  · have sum : add64 phys len = phys + len := add64_of_lt (by omega)
    rw [sum] at run
    have stop : alignUp (phys + len) pageSize ≤ phys + len + pageSize := by
      unfold alignUp add64 pageSize
      omega
    exact (coverLoop_ok h (Nat.mul_mod_left _ _) (by omega) run).mono fun p hp => ⟨hp.1, by omega⟩

/-- The pages that the audit may add. -/
def Audited (rspPhys oldCr3 root p : Nat) : Prop :=
  p < page2m + pageSize ∨ p = alignDown rspPhys pageSize ∨ p = alignDown oldCr3 pageSize ∨ p = alignDown root pageSize

theorem preSwitchAuditAndPatch_ok (h : Hierarchy m root) (run : m.preSwitchAuditAndPatch boot rsp root = .ok m') :
    ∃ rspPhys, m.stackPhys boot root rsp = .ok rspPhys ∧
      Patched m m' root (Audited rspPhys (m.paging.cr3 &&& addrMask) root) := by
  obtain ⟨rspPhys, stack, run⟩ := bind_ok run
  obtain ⟨m₁, low, run⟩ := bind_ok run
  obtain ⟨m₂, second, run⟩ := bind_ok run
  obtain ⟨m₃, third, run⟩ := bind_ok run
  obtain ⟨m₄, fourth, run⟩ := bind_ok run
  obtain ⟨_, _, run⟩ := bind_ok run
  obtain ⟨_, _, run⟩ := bind_ok run
  obtain ⟨_, _, run⟩ := bind_ok run
  obtain ⟨_, _, run⟩ := bind_ok run
  obtain ⟨_, _, run⟩ := bind_ok run
  cases run
  have first := ensureHhdmCoverPhysRange_ok h (by decide) low
  have first : Patched m m₁ root (Audited rspPhys (m.paging.cr3 &&& addrMask) root) :=
    first.mono fun p hp => .inl (by omega)
  obtain ⟨patched, _⟩ := ensureHhdmCoverPhysPage_ok (first.evolves.hierarchy h) second
  have first := first.trans (patched.mono fun p hp => .inr (.inl hp))
  obtain ⟨patched, _⟩ := ensureHhdmCoverPhysPage_ok (first.evolves.hierarchy h) third
  have first := first.trans (patched.mono fun p hp => .inr (.inr (.inl hp)))
  obtain ⟨patched, _⟩ := ensureHhdmCoverPhysPage_ok (first.evolves.hierarchy h) fourth
  exact ⟨rspPhys, stack, first.trans (patched.mono fun p hp => .inr (.inr (.inr hp)))⟩

theorem ensureHhdmCoverPhysPage_builds (ready : Ready m root) :
    Builds m 3 (m.ensureHhdmCoverPhysPage root page) id fun m' => Patched m m' root (· = alignDown page pageSize) ∧
      (leafOf m'.mem root (add64 m.paging.hhdm (alignDown page pageSize))).isSome := by
  have total : Builds m 3 (m.ensureHhdmCoverPhysPage root page) id fun _ => True := by
    unfold ensureHhdmCoverPhysPage
    dsimp only
    split
    · exact .pure rfl trivial
    · rename_i missing
      rw [walk_isSome, Bool.not_eq_true, Option.isSome_eq_false_iff, Option.isNone_iff_eq_none] at missing
      refine (map4k_builds ready.hierarchy ready.plain ready.hhdm fun e k found => ?_).imp
        (Nat.le_refl 3) fun _ _ _ => trivial
      rw [missing] at found
      cases found
  exact total.imp (Nat.le_refl 3) fun m' ok _ => ensureHhdmCoverPhysPage_ok ready.hierarchy ok

theorem coverLoop_builds {n : Nat} (ready : Ready m root) (sum : page + n * pageSize = stop)
    (small : stop ≤ 2 ^ 52) (enough : n < fuel) :
    Builds m (n * 3) (coverLoop root stop m page fuel) id fun _ => True := by
  induction n generalizing m page fuel with
  | zero =>
    obtain ⟨fuel, rfl⟩ := Nat.exists_eq_add_of_lt enough
    rw [Nat.zero_add, coverLoop, if_neg (by omega)]
    exact .pure rfl trivial
  | succ n ih =>
    obtain ⟨fuel, rfl⟩ : ∃ k, fuel = k + 1 := ⟨fuel - 1, by omega⟩
    rw [Nat.succ_mul] at sum
    have positive : pageSize = 4096 := rfl
    have next : add64 page pageSize = page + pageSize := add64_of_lt (by omega)
    rw [coverLoop, if_pos (by omega), show (n + 1) * 3 = 3 + n * 3 by omega, next]
    refine (ensureHhdmCoverPhysPage_builds ready).bind fun m₁ patched => ?_
    exact ih (ready.evolves patched.1.evolves) (by omega) (by omega)

theorem ensureHhdmCoverPhysRange_builds (ready : Ready m root) :
    Builds m (512 * 3) (m.ensureHhdmCoverPhysRange root 0 page2m) id fun m' =>
      Patched m m' root fun p => p < page2m + pageSize := by
  have total : Builds m (512 * 3) (m.ensureHhdmCoverPhysRange root 0 page2m) id fun _ => True := by
    unfold ensureHhdmCoverPhysRange
    rw [if_neg (by decide)]
    exact coverLoop_builds ready (by decide) (by decide) (by decide)
  refine total.imp (Nat.le_refl _) fun m' ok _ =>
    (ensureHhdmCoverPhysRange_ok ready.hierarchy (by decide) ok).mono fun p hp => ?_
  omega

theorem requireMapped_builds {va : Nat} {missing : Panic} (mapped : (leafOf m.mem root va).isSome) :
    Builds m 0 (m.requireMapped root va missing) (fun _ => m) fun _ => True := by
  unfold requireMapped
  rw [walk_isSome, if_pos mapped]
  exact .pure rfl trivial

theorem page_aligned {x y : Nat} (hx : x % pageSize = 0) :
    SamePage (add64 x (alignDown y pageSize)) (add64 x y) := by
  unfold SamePage add64 alignDown pageSize at *
  omega

def auditNeeded : Nat := 512 * 3 + (3 + (3 + (3 + 0)))

theorem preSwitchAuditAndPatch_builds (ready : Ready m root) (offset : HhdmOffset m.paging.hhdm)
    (stack : m.paging.hhdm ≤ rsp ∧ rsp < add64 m.paging.hhdm (getMaxPhys boot))
    (start : (leafOf m.mem root m.paging.hhdm).isSome)
    (rip : (leafOf m.mem root boot.symbols.preSwitchAuditAndPatch).isSome) :
    Builds m auditNeeded (m.preSwitchAuditAndPatch boot rsp root) id fun _ => True := by
  have known : m.stackPhys boot root rsp = .ok (sub64 rsp m.paging.hhdm) := if_pos stack
  have page : m.paging.hhdm % pageSize = 0 := by
    have := offset.aligned
    unfold page2m pageSize at *
    omega
  have bound : rsp < 2 ^ 64 := Nat.lt_trans stack.2 (Nat.mod_lt _ (by decide))
  have back : add64 m.paging.hhdm (sub64 rsp m.paging.hhdm) = rsp := by
    rw [sub64_of_le stack.1 bound, add64_of_lt (by omega)]
    omega
  unfold preSwitchAuditAndPatch auditNeeded
  dsimp only
  rw [known, ok_bind]
  refine (ensureHhdmCoverPhysRange_builds ready).bind fun m₁ low => ?_
  have ready₁ := ready.evolves low.evolves
  refine (ensureHhdmCoverPhysPage_builds ready₁).bind fun m₂ ⟨second, stackPage⟩ => ?_
  have ready₂ := ready₁.evolves second.evolves
  refine (ensureHhdmCoverPhysPage_builds ready₂).bind fun m₃ ⟨third, oldPage⟩ => ?_
  have ready₃ := ready₂.evolves third.evolves
  refine (ensureHhdmCoverPhysPage_builds ready₃).bind fun m₄ ⟨fourth, newPage⟩ => ?_
  have paging₃ : m₃.paging = m.paging := by rw [third.evolves.paging, second.evolves.paging, low.evolves.paging]
  have paging₄ : m₄.paging = m.paging := by rw [fourth.evolves.paging, paging₃]
  rw [low.evolves.paging] at stackPage
  rw [second.evolves.paging, low.evolves.paging] at oldPage
  rw [paging₃] at newPage
  have early : ∀ va, (leafOf m.mem root va).isSome → (leafOf m₄.mem root va).isSome := fun va mapped =>
    fourth.isSome (third.isSome (second.isSome (low.isSome mapped)))
  have stackMapped : (leafOf m₄.mem root rsp).isSome := by
    apply fourth.isSome
    apply third.isSome
    rw [← back, leafOf_congr (page_aligned page)]
    exact stackPage
  have oldMapped : (leafOf m₄.mem root (add64 m.paging.hhdm (m.paging.cr3 &&& addrMask))).isSome := by
    apply fourth.isSome
    rw [leafOf_congr (page_aligned page)]
    exact oldPage
  have newMapped : (leafOf m₄.mem root (add64 m.paging.hhdm root)).isSome := by
    rw [leafOf_congr (page_aligned page)]
    exact newPage
  rw [← paging₄] at start oldMapped newMapped
  refine (requireMapped_builds stackMapped).bind (b := 0) fun _ _ => ?_
  refine (requireMapped_builds (early _ rip)).bind (b := 0) fun _ _ => ?_
  refine (requireMapped_builds (early _ start)).bind (b := 0) fun _ _ => ?_
  rw [paging₄] at oldMapped
  refine (requireMapped_builds (by rw [paging₄]; exact oldMapped)).bind (b := 0) fun _ _ => ?_
  exact (requireMapped_builds newMapped).bind (b := 0) fun _ _ => .pure rfl trivial

end Voyager.Machine
