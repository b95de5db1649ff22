import Mathlib.Algebra.Order.Group.Unbundled.Int
import Mathlib.Tactic.SplitIfs

/-!
# Arithmetic on timespecs

The difference is right until it has to borrow a second: it then adds the nanoseconds that are
missing instead of taking them off, and adds one less than a second to them.
-/

namespace Voyager.Time

structure Timespec where
  sec : Int
  nsec : Int
  deriving DecidableEq

def timespecAdd (a b : Timespec) : Timespec :=
  if a.nsec + b.nsec > 999999999 then ⟨a.sec + 1 + b.sec, a.nsec + b.nsec - 1000000000⟩
  else ⟨a.sec + b.sec, a.nsec + b.nsec⟩

def timespecSub (a b : Timespec) : Timespec :=
  let a : Timespec :=
    if b.nsec > a.nsec then
      if a.sec > 0 then ⟨a.sec - 1, 999999999 + (b.nsec - a.nsec)⟩ else ⟨0, 0⟩
    else ⟨a.sec, a.nsec - b.nsec⟩
  if b.sec > a.sec then ⟨0, 0⟩ else ⟨a.sec - b.sec, a.nsec⟩

namespace Timespec

structure Proper (t : Timespec) : Prop where
  sec : 0 ≤ t.sec
  nsec : 0 ≤ t.nsec
  le : t.nsec ≤ 999999999

def nanos (t : Timespec) : Int := t.sec * 1000000000 + t.nsec

variable {a b : Timespec}

theorem Proper.zero : Proper ⟨0, 0⟩ := ⟨by decide, by decide, by decide⟩

theorem Proper.add (ha : a.Proper) (hb : b.Proper) :
    (timespecAdd a b).Proper ∧ (timespecAdd a b).nanos = a.nanos + b.nanos := by
  obtain ⟨asec, ansec, ale⟩ := ha
  obtain ⟨bsec, bnsec, ble⟩ := hb
  unfold timespecAdd nanos
  split
  · exact ⟨⟨by dsimp only; omega, by dsimp only; omega, by dsimp only; omega⟩, by dsimp only; omega⟩
  · exact ⟨⟨by dsimp only; omega, by dsimp only; omega, by dsimp only; omega⟩, by dsimp only; omega⟩

theorem Proper.eq_of_nanos (ha : a.Proper) (hb : b.Proper) (same : a.nanos = b.nanos) : a = b := by
  obtain ⟨asec, ansec⟩ := a
  obtain ⟨bsec, bnsec⟩ := b
  have := ha.nsec
  have := ha.le
  have := hb.nsec
  have := hb.le
  unfold nanos at same
  dsimp only at *
  rw [Timespec.mk.injEq]
  omega

theorem timespecSub_within (enough : b.nsec ≤ a.nsec) (le : b.sec ≤ a.sec) :
    timespecSub a b = ⟨a.sec - b.sec, a.nsec - b.nsec⟩ := by
  unfold timespecSub
  rw [if_neg (Int.not_lt.mpr enough)]
  exact if_neg (Int.not_lt.mpr le)

theorem timespecSub_borrow (short : a.nsec < b.nsec) (nonneg : 0 ≤ b.sec) (lt : b.sec < a.sec) :
    timespecSub a b = ⟨a.sec - 1 - b.sec, 999999999 + (b.nsec - a.nsec)⟩ := by
  unfold timespecSub
  rw [if_pos short, if_pos (show a.sec > 0 by omega)]
  exact if_neg (show ¬ b.sec > a.sec - 1 by omega)

theorem timespecSub_saturates (nonneg : 0 ≤ b.sec)
    (less : a.sec < b.sec ∨ a.sec = b.sec ∧ a.nsec < b.nsec) : timespecSub a b = ⟨0, 0⟩ := by
  unfold timespecSub
  split_ifs with short
  · exact if_pos (show b.sec > a.sec - 1 by omega)
  · dsimp only
    split
    · rfl
    · rw [Timespec.mk.injEq]
      omega
  · exact if_pos (show b.sec > a.sec by omega)

/-- The difference is a proper timespec and stands for `a - b`, or for nothing if `b` is longer. -/
def Subtracts (a b : Timespec) : Prop :=
  (timespecSub a b).Proper ∧ (timespecSub a b).nanos = max (a.nanos - b.nanos) 0

theorem subtracts_of_no_borrow (ha : a.Proper) (hb : b.Proper) (enough : b.nsec ≤ a.nsec ∨ a.sec ≤ b.sec) :
    Subtracts a b := by
  obtain ⟨asec, ansec, ale⟩ := ha
  obtain ⟨bsec, bnsec, ble⟩ := hb
  by_cases less : a.sec < b.sec ∨ a.sec = b.sec ∧ a.nsec < b.nsec
  · have negative : a.nanos - b.nanos ≤ 0 := by
      unfold nanos
      omega
    unfold Subtracts
    rw [timespecSub_saturates bsec less, max_eq_right negative]
    exact ⟨Proper.zero, rfl⟩
  · have nonneg : 0 ≤ a.nanos - b.nanos := by
      unfold nanos
      omega
    unfold Subtracts
    rw [timespecSub_within (by omega) (by omega), max_eq_left nonneg]
    refine ⟨⟨by dsimp only; omega, by dsimp only; omega, by dsimp only; omega⟩, ?_⟩
    unfold nanos
    dsimp only
    omega

theorem not_proper_of_borrow (short : a.nsec < b.nsec) (nonneg : 0 ≤ b.sec) (lt : b.sec < a.sec) :
    ¬ (timespecSub a b).Proper := by
  rw [timespecSub_borrow short nonneg lt]
  intro proper
  have le := proper.le
  dsimp only at le
  omega

theorem subtracts_iff (ha : a.Proper) (hb : b.Proper) : Subtracts a b ↔ b.nsec ≤ a.nsec ∨ a.sec ≤ b.sec := by
  refine ⟨fun subtracts => ?_, subtracts_of_no_borrow ha hb⟩
  by_contra borrow
  push Not at borrow
  exact not_proper_of_borrow borrow.1 hb.sec borrow.2 subtracts.1

theorem add_subtracts_iff (ha : a.Proper) (hb : b.Proper) :
    Subtracts (timespecAdd a b) b ↔ a.nsec + b.nsec ≤ 999999999 := by
  have asec := ha.sec
  have ansec := ha.nsec
  have ale := ha.le
  rw [subtracts_iff (ha.add hb).1 hb]
  unfold timespecAdd
  split
  · dsimp only
    omega
  · dsimp only
    omega

theorem inverts_iff_subtracts (ha : a.Proper) (hb : b.Proper) :
    timespecSub (timespecAdd a b) b = a ↔ Subtracts (timespecAdd a b) b := by
  obtain ⟨proper, sum⟩ := ha.add hb
  have nonneg : 0 ≤ a.nanos := by
    have := ha.sec
    have := ha.nsec
    unfold nanos
    omega
  unfold Subtracts
  rw [sum, Int.add_sub_cancel, max_eq_left nonneg]
  constructor
  · intro same
    rw [same]
    exact ⟨ha, rfl⟩
  · rintro ⟨difference, same⟩
    exact difference.eq_of_nanos ha same

/-- Subtraction is right exactly where no second is borrowed, so it takes back an addition
exactly if that did not carry. -/
theorem timespecSub_inverts_iff (ha : a.Proper) (hb : b.Proper) :
    (Subtracts a b ↔ b.nsec ≤ a.nsec ∨ a.sec ≤ b.sec) ∧
      (timespecSub (timespecAdd a b) b = a ↔ a.nsec + b.nsec ≤ 999999999) :=
  ⟨subtracts_iff ha hb, (inverts_iff_subtracts ha hb).trans (add_subtracts_iff ha hb)⟩

theorem timespecSub_inverts_half : Subtracts ⟨2, 500000000⟩ ⟨1, 250000000⟩ ∧
    timespecSub (timespecAdd ⟨2, 500000000⟩ ⟨1, 250000000⟩) ⟨1, 250000000⟩ = ⟨2, 500000000⟩ := by
  have iff := timespecSub_inverts_iff (a := ⟨2, 500000000⟩) (b := ⟨1, 250000000⟩) ⟨by decide, by decide, by decide⟩
    ⟨by decide, by decide, by decide⟩
  exact ⟨iff.1.mpr (by decide), iff.2.mpr (by decide)⟩

/-- One second less a nanosecond comes out as 1000000000 nanoseconds. -/
theorem timespecSub_one_nano : Proper ⟨1, 0⟩ ∧ Proper ⟨0, 1⟩ ∧ timespecSub ⟨1, 0⟩ ⟨0, 1⟩ = ⟨0, 1000000000⟩ ∧
    ¬ Subtracts ⟨1, 0⟩ ⟨0, 1⟩ ∧
      timespecSub (timespecAdd ⟨0, 999999999⟩ ⟨0, 1⟩) ⟨0, 1⟩ = ⟨0, 1000000000⟩ := by
  refine ⟨⟨by decide, by decide, by decide⟩, ⟨by decide, by decide, by decide⟩, by decide, fun subtracts => ?_,
    by decide⟩
  exact not_proper_of_borrow (by decide) (by decide) (by decide) subtracts.1

end Timespec

end Voyager.Time
