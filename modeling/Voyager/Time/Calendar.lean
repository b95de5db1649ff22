import Mathlib.Algebra.BigOperators.Group.Finset.Basic
import Mathlib.Tactic.IntervalCases
import Mathlib.Tactic.SplitIfs

/-! # Weekdays -/

namespace Voyager.Time

def monthTable : List Int := [0, 3, 2, 5, 0, 3, 5, 1, 4, 6, 2, 4]

/-- `/` and `%` of C round towards zero. -/
def dayofweek (y m d : Int) : Int :=
  let y := if m < 3 then y - 1 else y
  (y + y.tdiv 4 - y.tdiv 100 + y.tdiv 400 + monthTable.getD (m - 1).toNat 0 + d).tmod 7

def leap (year : Nat) : Prop := year % 4 = 0 ∧ (year % 100 ≠ 0 ∨ year % 400 = 0)

instance (year : Nat) : Decidable (leap year) := inferInstanceAs (Decidable (_ ∧ _))

def monthLength (year : Nat) : Nat → Nat
  | 2 => if leap year then 29 else 28
  | 4 | 6 | 9 | 11 => 30
  | _ => 31

structure Date where
  year : Nat
  month : Nat
  day : Nat
  year_pos : 1 ≤ year
  month_pos : 1 ≤ month
  month_le : month ≤ 12
  day_pos : 1 ≤ day
  day_le : day ≤ monthLength year month

theorem monthLength_pos (year month : Nat) : 1 ≤ monthLength year month := by
  unfold monthLength
  repeat' split
  all_goals decide

theorem monthLength_le (year month : Nat) : monthLength year month ≤ 31 := by
  unfold monthLength
  repeat' split
  all_goals decide

namespace Date

def next (d : Date) : Date :=
  if inside : d.day < monthLength d.year d.month then
    { d with day := d.day + 1, day_pos := by omega, day_le := inside }
  else if last : d.month < 12 then
    ⟨d.year, d.month + 1, 1, d.year_pos, by omega, last, by omega, monthLength_pos _ _⟩
  else ⟨d.year + 1, 1, 1, by omega, by omega, by omega, by omega, monthLength_pos _ _⟩

def daysBefore (year month : Nat) : Nat := ∑ m ∈ Finset.range (month - 1), monthLength year (m + 1)

def yearsBefore (year : Nat) : Nat := ∑ y ∈ Finset.range (year - 1), daysBefore (y + 1) 13

def dayCount (d : Date) : Nat := yearsBefore d.year + daysBefore d.year d.month + (d.day - 1)

theorem daysBefore_succ {year month : Nat} (pos : 1 ≤ month) :
    daysBefore year (month + 1) = daysBefore year month + monthLength year month := by
  obtain ⟨m, rfl⟩ := Nat.exists_eq_add_of_le' pos
  exact Finset.sum_range_succ _ _

theorem yearsBefore_succ {year : Nat} (pos : 1 ≤ year) :
    yearsBefore (year + 1) = yearsBefore year + daysBefore year 13 := by
  obtain ⟨y, rfl⟩ := Nat.exists_eq_add_of_le' pos
  exact Finset.sum_range_succ _ _

theorem dayCount_next (d : Date) : d.next.dayCount = d.dayCount + 1 := by
  have pos := d.day_pos
  have le := d.day_le
  unfold next dayCount
  split_ifs with inside last
  · dsimp only
    omega
  · dsimp only
    rw [daysBefore_succ d.month_pos]
    omega
  · dsimp only
    have december : d.month = 12 := by
      have := d.month_le
      omega
    have first : daysBefore (d.year + 1) 1 = 0 := rfl
    have whole : daysBefore d.year 13 = daysBefore d.year 12 + monthLength d.year 12 := daysBefore_succ (by decide)
    rw [december] at inside le ⊢
    rw [yearsBefore_succ d.year_pos, first, whole]
    omega

def leapDay (year : Nat) : Nat := if leap year then 1 else 0

def yearTerm (year : Nat) : Int := year + (year : Int) / 4 - (year : Int) / 100 + (year : Int) / 400

theorem yearTerm_succ (year : Nat) : yearTerm (year + 1) = yearTerm year + 1 + leapDay (year + 1) := by
  unfold yearTerm leapDay
  by_cases long : leap (year + 1)
  · rw [if_pos long]
    unfold leap at long
    omega
  · rw [if_neg long]
    unfold leap at long
    omega

theorem daysBefore_year (year : Nat) : daysBefore year 13 = 365 + leapDay year := by
  unfold daysBefore leapDay
  simp only [Finset.sum_range_succ, Finset.sum_range_zero, monthLength]
  split <;> rfl

theorem yearsBefore_eq (year : Nat) : (yearsBefore (year + 1) : Int) = 364 * year + yearTerm year := by
  induction year with
  | zero => rfl
  | succ year ih =>
    rw [yearsBefore_succ (by omega), daysBefore_year, yearTerm_succ]
    push_cast
    omega

/-- The table has the days before a month, up to whole weeks; from March on they come with
a day for the shift of the year and with the leap day. -/
theorem daysBefore_table {year month : Nat} (pos : 1 ≤ month) (le : month ≤ 12) :
    (daysBefore year month : Int) % 7 =
      (monthTable.getD ((month : Int) - 1).toNat 0 + if month < 3 then 0 else 1 + leapDay year) % 7 := by
  unfold daysBefore leapDay
  by_cases long : leap year
  · interval_cases month <;>
      simp only [Nat.reduceSub, Nat.reduceAdd, Finset.sum_range_succ, Finset.sum_range_zero, monthLength, if_pos long] <;>
      rfl
  · interval_cases month <;>
      simp only [Nat.reduceSub, Nat.reduceAdd, Finset.sum_range_succ, Finset.sum_range_zero, monthLength, if_neg long] <;>
      rfl

/-- The formula counts the years before a date up to February, and the date's own with them from
March on. -/
theorem dayofweek_eq (d : Date) : dayofweek d.year d.month d.day = ((d.dayCount : Int) + 1) % 7 := by
  obtain ⟨year, month, day, ypos, mpos, mle, dpos, dle⟩ := d
  obtain ⟨y, rfl⟩ := Nat.exists_eq_add_of_le' ypos
  have table : (daysBefore (y + 1) month : Int) % 7 =
      (monthTable.getD ((month : Int) - 1).toNat 0 + if month < 3 then 0 else 1 + leapDay (y + 1)) % 7 :=
    daysBefore_table mpos mle
  have years := yearsBefore_eq y
  have next := yearTerm_succ y
  have entry : 0 ≤ monthTable.getD ((month : Int) - 1).toNat 0 := by
    interval_cases month <;> decide
  unfold dayCount dayofweek
  by_cases winter : month < 3
  · have same : (if (month : Int) < 3 then ((y + 1 : Nat) : Int) - 1 else ((y + 1 : Nat) : Int)) = y := by
      rw [if_pos (by omega)]
      omega
    rw [if_pos winter] at table
    unfold yearTerm at years
    dsimp only
    rw [same, Int.tdiv_eq_ediv_of_nonneg (by omega), Int.tdiv_eq_ediv_of_nonneg (by omega),
      Int.tdiv_eq_ediv_of_nonneg (by omega), Int.tmod_eq_emod_of_nonneg (by omega)]
    omega
  · rw [if_neg winter] at table
    have term : ((y + 1 : Nat) : Int) + ((y + 1 : Nat) : Int) / 4 - ((y + 1 : Nat) : Int) / 100 +
        ((y + 1 : Nat) : Int) / 400 = yearTerm (y + 1) := rfl
    dsimp only
    rw [if_neg (by omega), Int.tdiv_eq_ediv_of_nonneg (by omega), Int.tdiv_eq_ediv_of_nonneg (by omega),
      Int.tdiv_eq_ediv_of_nonneg (by omega), Int.tmod_eq_emod_of_nonneg (by omega), term, next]
    omega

def knownSunday : Date := ⟨2000, 1, 2, by decide, by decide, by decide, by decide, by decide⟩

/-- `dayofweek` is the weekday of every date: it goes on by one with each day and counts the days
from a Sunday. -/
theorem dayofweek_gregorian (d : Date) :
    (0 ≤ dayofweek d.year d.month d.day ∧ dayofweek d.year d.month d.day ≤ 6) ∧
      dayofweek d.next.year d.next.month d.next.day = (dayofweek d.year d.month d.day + 1) % 7 ∧
      dayofweek d.year d.month d.day = ((d.dayCount : Int) - knownSunday.dayCount) % 7 := by
  have sunday : ((knownSunday.dayCount : Int) + 1) % 7 = 0 := (dayofweek_eq knownSunday).symm
  rw [dayofweek_eq, dayofweek_eq, dayCount_next]
  omega

end Date

end Voyager.Time
