import Mathlib.Algebra.BigOperators.Intervals
import Mathlib.Algebra.Order.BigOperators.Group.Finset
import Mathlib.Algebra.Order.Ring.Int
import Mathlib.Tactic.IntervalCases

/-!
# The Gregorian calendar

Days are numbered from 1970-01-01, and the calendar extends to all years in both directions. The
first day of a year and of a month are found by counting the days of the years and months between
(`yearStart`, `monthStart`).

* `yearStart_eq`: the number of the first day of a year, in closed form.
* `Date.dayNumber_injective`: a day has one valid date.
-/

namespace Citadel.Lib.Calendar

open Nat

def IsLeap (y : ℤ) : Prop := (y % 4 = 0 ∧ y % 100 ≠ 0) ∨ y % 400 = 0

instance (y : ℤ) : Decidable (IsLeap y) := inferInstanceAs (Decidable (_ ∨ _))

def yearLength (y : ℤ) : ℤ := if IsLeap y then 366 else 365

/-- The days of a month, which is counted from 1. -/
def monthLength (y : ℤ) (m : ℕ) : ℤ :=
  if m = 2 then if IsLeap y then 29 else 28
  else if m = 4 ∨ m = 6 ∨ m = 9 ∨ m = 11 then 30
  else 31

/-- The days of `n` years from a year on. -/
def yearsLength (y : ℤ) : ℕ → ℤ
  | 0 => 0
  | n + 1 => yearsLength y n + yearLength (y + n)

def yearStart (y : ℤ) : ℤ := yearsLength 1970 (y - 1970).toNat - yearsLength y (1970 - y).toNat

/-- The days of a year in front of a month. -/
def monthStart (y : ℤ) (m : ℕ) : ℤ := ∑ i ∈ Finset.Ico 1 m, monthLength y i

/-- The number of leap years up to a year, from the year 1 on. -/
def leaps (y : ℤ) : ℤ := y / 4 - y / 100 + y / 400

/-! ## Years -/

theorem leaps_sub_one (y : ℤ) : leaps (y - 1) = leaps y - if IsLeap y then 1 else 0 := by
  unfold leaps
  by_cases hy : IsLeap y
  · rw [if_pos hy]
    unfold IsLeap at hy
    omega
  · rw [if_neg hy]
    unfold IsLeap at hy
    omega

theorem leaps_bounds (y : ℤ) : 97 * y - 699 ≤ 400 * leaps y ∧ 400 * leaps y ≤ 97 * y + 396 := by
  unfold leaps
  omega

theorem leaps_eq (y : ℤ) :
    365 * y + leaps y = y / 400 * 146097 + (365 * (y % 400) + y % 400 / 4 - y % 400 / 100) := by
  have h4 : y % 400 / 4 = y / 4 - 100 * (y / 400) := by omega
  have h100 : y % 400 / 100 = y / 100 - 4 * (y / 400) := by omega
  unfold leaps
  omega

theorem yearsLength_succ (y : ℤ) (n : ℕ) :
    yearsLength y (n + 1) = yearLength y + yearsLength (y + 1) n := by
  induction n with
  | zero => simp [yearsLength]
  | succ n ih =>
    rw [yearsLength, ih, yearsLength, cast_succ, Int.add_assoc, Int.add_assoc, Int.add_comm n 1]

theorem yearStart_succ (y : ℤ) : yearStart (y + 1) = yearStart y + yearLength y := by
  unfold yearStart
  rcases le_or_gt 1970 y with h | h
  · have h1 : (y + 1 - 1970).toNat = (y - 1970).toNat + 1 := by omega
    have h2 : (1970 - (y + 1)).toNat = 0 := by omega
    have h3 : (1970 - y).toNat = 0 := by omega
    have h4 : (1970 : ℤ) + (y - 1970).toNat = y := by omega
    simp only [h1, h2, h3, yearsLength, h4]
    omega
  · have h1 : (1970 - y).toNat = (1970 - (y + 1)).toNat + 1 := by omega
    have h2 : (y + 1 - 1970).toNat = 0 := by omega
    have h3 : (y - 1970).toNat = 0 := by omega
    rw [h1, h2, h3, yearsLength_succ]
    simp only [yearsLength]
    omega

theorem yearStart_eq (y : ℤ) : yearStart y = 365 * (y - 1970) + leaps (y - 1) - 477 := by
  have hstep : ∀ y : ℤ, yearStart (y + 1) - (365 * (y + 1 - 1970) + leaps (y + 1 - 1) - 477) =
      yearStart y - (365 * (y - 1970) + leaps (y - 1) - 477) := by
    intro y
    rw [yearStart_succ, yearLength, Int.add_sub_cancel y 1, leaps_sub_one]
    by_cases hy : IsLeap y
    · rw [if_pos hy, if_pos hy]
      omega
    · rw [if_neg hy, if_neg hy]
      omega
  have h0 : yearStart 1970 = 0 := rfl
  induction y using Int.inductionOn' (b := 1970) with
  | zero => rw [h0]; decide
  | succ y _ ih => have := hstep y; omega
  | pred y _ ih => have := hstep (y - 1); rw [Int.sub_add_cancel] at this; omega

theorem leaps_le {y y' : ℤ} (h : y ≤ y') : leaps y ≤ leaps y' := by
  unfold leaps
  omega

theorem yearLength_pos (y : ℤ) : 0 < yearLength y := by
  unfold yearLength
  split_ifs <;> decide

theorem yearStart_lt {y y' : ℤ} (h : y < y') : yearStart y + yearLength y ≤ yearStart y' := by
  have := leaps_le (show y + 1 - 1 ≤ y' - 1 by omega)
  rw [← yearStart_succ, yearStart_eq, yearStart_eq]
  omega

/-! ## Months -/

variable {m : ℕ}

/-- The days in front of a month: five months from March on have 153 days. -/
theorem monthStart_eq (y : ℤ) (h1 : 1 ≤ m) (h2 : m ≤ 13) :
    monthStart y m = if m ≤ 2 then 31 * (m - 1 : ℤ)
      else (153 * (m - 3) + 2) / 5 + if IsLeap y then 60 else 59 := by
  by_cases hl : IsLeap y <;> interval_cases m <;>
    simp [monthStart, Finset.sum_Ico_succ_top, monthLength, hl]

theorem monthStart_succ (y : ℤ) (h : 1 ≤ m) :
    monthStart y (m + 1) = monthStart y m + monthLength y m :=
  Finset.sum_Ico_succ_top h _

theorem monthStart_thirteen (y : ℤ) : monthStart y 13 = yearLength y := by
  rw [monthStart_eq y (by decide) (by decide), yearLength]
  by_cases h : IsLeap y <;> simp [h]

theorem monthStart_mono (y : ℤ) {m' : ℕ} (h : m ≤ m') : monthStart y m ≤ monthStart y m' := by
  refine Finset.sum_le_sum_of_subset_of_nonneg (Finset.Ico_subset_Ico_right h) fun i _ _ => ?_
  unfold monthLength
  split_ifs <;> decide

/-! ## Dates -/

/-- A valid date. -/
@[ext] structure Date where
  year : ℤ
  month : ℕ
  day : ℤ
  month_pos : 1 ≤ month
  month_le : month ≤ 12
  day_pos : 1 ≤ day
  day_le : day ≤ monthLength year month

namespace Date

/-- The day of the year, from 0. -/
def yearDay (d : Date) : ℤ := monthStart d.year d.month + d.day - 1

def dayNumber (d : Date) : ℤ := yearStart d.year + d.yearDay

theorem yearDay_nonneg (d : Date) : 0 ≤ d.yearDay := by
  have h := monthStart_mono d.year d.month_pos
  have h1 : monthStart d.year 1 = 0 := rfl
  have := d.day_pos
  unfold yearDay
  omega

theorem yearDay_lt (d : Date) : d.yearDay < yearLength d.year := by
  have h := monthStart_mono d.year (show d.month + 1 ≤ 13 by have := d.month_le; omega)
  rw [monthStart_succ _ d.month_pos, monthStart_thirteen] at h
  have := d.day_le
  unfold yearDay
  omega

theorem yearDay_le (d : Date) : d.yearDay ≤ 365 := by
  have := d.yearDay_lt
  unfold yearLength at this
  split_ifs at this <;> omega

theorem day_le_31 (d : Date) : d.day ≤ 31 := by
  refine d.day_le.trans ?_
  unfold monthLength
  split_ifs <;> decide

theorem dayNumber_injective {d d' : Date} (h : d.dayNumber = d'.dayNumber) : d = d' := by
  have hy : d.year = d'.year := by
    have h1 := d.yearDay_nonneg
    have h2 := d.yearDay_lt
    have h3 := d'.yearDay_nonneg
    have h4 := d'.yearDay_lt
    unfold dayNumber at h
    by_contra hne
    rcases Int.lt_or_gt_of_ne hne with hlt | hlt
    · have := yearStart_lt hlt
      omega
    · have := yearStart_lt hlt
      omega
  have hm : d.month = d'.month := by
    have h1 := d.day_pos
    have h2 := d.day_le
    have h3 := d'.day_pos
    have h4 := d'.day_le
    have hs := monthStart_succ d.year d.month_pos
    have hs' := monthStart_succ d'.year d'.month_pos
    unfold dayNumber yearDay at h
    rw [← hy] at h h4 hs'
    by_contra hne
    rcases Nat.lt_or_gt_of_ne hne with hlt | hlt
    · have := monthStart_mono d.year (succ_le_of_lt hlt)
      rw [succ_eq_add_one] at this
      omega
    · have := monthStart_mono d.year (succ_le_of_lt hlt)
      rw [succ_eq_add_one] at this
      omega
  unfold dayNumber yearDay at h
  rw [hy, hm] at h
  exact Date.ext hy hm (by omega)

end Date

end Citadel.Lib.Calendar
