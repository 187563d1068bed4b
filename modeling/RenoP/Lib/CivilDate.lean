import Mathlib.Algebra.Order.Ring.Int

/-!
# Civil dates of a day number

Days are counted from 1970-01-01. An era is 400 years that start on 1 March; inside it a day is
split into centuries, four-year cycles, years and months, each by one division.
-/

namespace CivilDate

def era (z : ℤ) : ℤ := (z + 719468) / 146097
def dayOfEra (z : ℤ) : ℤ := (z + 719468) % 146097
def century (z : ℤ) : ℤ := min (dayOfEra z / 36524) 3
def dayOfCentury (z : ℤ) : ℤ := dayOfEra z - 36524 * century z
def cycle (z : ℤ) : ℤ := dayOfCentury z / 1461
def dayOfCycle (z : ℤ) : ℤ := dayOfCentury z - 1461 * cycle z
def yearOfCycle (z : ℤ) : ℤ := min (dayOfCycle z / 365) 3
def dayOfYear (z : ℤ) : ℤ := dayOfCycle z - 365 * yearOfCycle z
def marchYear (z : ℤ) : ℤ := 400 * era z + 100 * century z + 4 * cycle z + yearOfCycle z
-- months count from March
def marchMonth (z : ℤ) : ℤ := (5 * dayOfYear z + 2) / 153

def day (z : ℤ) : ℤ := dayOfYear z - (153 * marchMonth z + 2) / 5 + 1
def month (z : ℤ) : ℤ := if marchMonth z < 10 then marchMonth z + 3 else marchMonth z - 9
def year (z : ℤ) : ℤ := if marchMonth z < 10 then marchYear z else marchYear z + 1

def weekdayFromMonday (z : ℤ) : ℤ := (z + 3) % 7

def days (year month day : ℤ) : ℤ :=
  let m := 12 * year + (month - 3)
  let y := m / 12
  365 * y + y / 4 - y / 100 + y / 400 + (153 * (m % 12) + 2) / 5 + (day - 1) - 719468

theorem century_range (z : ℤ) : 0 ≤ century z ∧ century z ≤ 3 := by
  unfold century dayOfEra
  omega

theorem dayOfCentury_range (z : ℤ) : 0 ≤ dayOfCentury z ∧ dayOfCentury z ≤ 36524 := by
  unfold dayOfCentury century dayOfEra
  omega

theorem cycle_range (z : ℤ) : 0 ≤ cycle z ∧ cycle z ≤ 24 := by
  have h := dayOfCentury_range z
  unfold cycle
  omega

theorem dayOfCycle_range (z : ℤ) : 0 ≤ dayOfCycle z ∧ dayOfCycle z ≤ 1460 := by
  have h := dayOfCentury_range z
  unfold dayOfCycle cycle
  omega

theorem yearOfCycle_range (z : ℤ) : 0 ≤ yearOfCycle z ∧ yearOfCycle z ≤ 3 := by
  have h := dayOfCycle_range z
  unfold yearOfCycle
  omega

theorem dayOfYear_range (z : ℤ) : 0 ≤ dayOfYear z ∧ dayOfYear z ≤ 365 := by
  have h := dayOfCycle_range z
  unfold dayOfYear yearOfCycle
  omega

theorem marchMonth_range (z : ℤ) : 0 ≤ marchMonth z ∧ marchMonth z ≤ 11 := by
  have h := dayOfYear_range z
  unfold marchMonth
  omega

theorem day_range (z : ℤ) : 1 ≤ day z ∧ day z ≤ 31 := by
  have h := dayOfYear_range z
  unfold day marchMonth
  omega

theorem weekdayFromMonday_range (z : ℤ) :
    0 ≤ weekdayFromMonday z ∧ weekdayFromMonday z ≤ 6 := by
  unfold weekdayFromMonday
  omega

theorem days_year_month (z d : ℤ) : days (year z) (month z) d = z - day z + d := by
  have h1 := century_range z
  have h2 := cycle_range z
  have h3 := yearOfCycle_range z
  have h4 := marchMonth_range z
  have hm : 12 * year z + (month z - 3) = 12 * marchYear z + marchMonth z := by
    unfold year month
    split_ifs <;> omega
  have hy : (12 * year z + (month z - 3)) / 12 = marchYear z := by omega
  have hr : (12 * year z + (month z - 3)) % 12 = marchMonth z := by omega
  have e1 : marchYear z / 4 = 100 * era z + 25 * century z + cycle z := by
    unfold marchYear
    omega
  have e2 : marchYear z / 100 = 4 * era z + century z := by
    unfold marchYear
    omega
  have e3 : marchYear z / 400 = era z := by
    unfold marchYear
    omega
  have hz : 146097 * era z + dayOfEra z = z + 719468 := by
    unfold era dayOfEra
    omega
  simp only [days, hy, hr, e1, e2, e3]
  unfold marchYear day dayOfYear dayOfCycle dayOfCentury
  omega

theorem dayOfEra_succ (z : ℤ) : dayOfEra (z + 1) = dayOfEra z + 1 ∨ dayOfEra (z + 1) = 0 := by
  unfold dayOfEra
  omega

theorem dayOfCentury_succ (z : ℤ) :
    dayOfCentury (z + 1) = dayOfCentury z + 1 ∨ dayOfCentury (z + 1) = 0 := by
  have h := dayOfEra_succ z
  have hrange : 0 ≤ dayOfEra z ∧ dayOfEra z < 146097 := by
    unfold dayOfEra
    omega
  unfold dayOfCentury century
  omega

theorem dayOfCycle_succ (z : ℤ) :
    dayOfCycle (z + 1) = dayOfCycle z + 1 ∨ dayOfCycle (z + 1) = 0 := by
  have h := dayOfCentury_succ z
  have hrange := dayOfCentury_range z
  unfold dayOfCycle cycle
  omega

theorem dayOfYear_succ (z : ℤ) : dayOfYear (z + 1) = dayOfYear z + 1 ∨ dayOfYear (z + 1) = 0 := by
  have h := dayOfCycle_succ z
  have hrange := dayOfCycle_range z
  unfold dayOfYear yearOfCycle
  omega

theorem day_succ_le (z : ℤ) : day (z + 1) ≤ day z + 1 := by
  have h := dayOfYear_succ z
  have hrange := dayOfYear_range z
  unfold day marchMonth
  omega

theorem monthStart_mono {z z' : ℤ} (h : z ≤ z') : z - day z ≤ z' - day z' := by
  obtain ⟨n, rfl⟩ := Int.le.dest h
  clear h
  induction n with
  | zero =>
    rw [Int.natCast_zero, Int.add_zero]
  | succ n ih =>
    have hstep := day_succ_le (z + n)
    have hsucc : z + ((n + 1 : ℕ) : ℤ) = z + n + 1 := by omega
    rw [hsucc]
    omega

def monthIndex (z : ℤ) : ℤ := 12 * year z + (month z - 3)

def firstOfMonth (k : ℤ) : ℤ := days 0 (k + 3) 1

theorem days_firstOfMonth (y m : ℤ) : days y m 1 = firstOfMonth (12 * y + (m - 3)) := by
  have hindex : 12 * 0 + (12 * y + (m - 3) + 3 - 3) = 12 * y + (m - 3) := by omega
  simp only [firstOfMonth, days, hindex]

theorem firstOfMonth_succ (k : ℤ) : firstOfMonth k < firstOfMonth (k + 1) := by
  simp only [firstOfMonth, days]
  have hlast : (12 * 0 + (k + 1 + 3 - 3)) = 12 * 0 + (k + 3 - 3) + 1 := by omega
  rw [hlast]
  generalize 12 * 0 + (k + 3 - 3) = m
  omega

theorem monthIndex_eq (z : ℤ) : monthIndex z = 12 * marchYear z + marchMonth z := by
  unfold monthIndex year month
  split_ifs <;> omega

def yearLength (y : ℤ) : ℤ :=
  365 + ((y + 1) / 4 - y / 4) - ((y + 1) / 100 - y / 100) + ((y + 1) / 400 - y / 400)

theorem dayOfYear_lt (z : ℤ) : dayOfYear z < yearLength (marchYear z) := by
  have hcentury := century_range z
  have hcycle := cycle_range z
  have hyear := yearOfCycle_range z
  have hfour : marchYear z / 4 = 100 * era z + 25 * century z + cycle z ∧
      (marchYear z + 1) / 4 =
        100 * era z + 25 * century z + cycle z + (yearOfCycle z + 1) / 4 := by
    unfold marchYear
    omega
  have hhundred : marchYear z / 100 = 4 * era z + century z ∧
      (marchYear z + 1) / 100 =
        4 * era z + century z + (4 * cycle z + yearOfCycle z + 1) / 100 := by
    unfold marchYear
    omega
  have hera : marchYear z / 400 = era z ∧ (marchYear z + 1) / 400 =
      era z + (100 * century z + 4 * cycle z + yearOfCycle z + 1) / 400 := by
    unfold marchYear
    omega
  have hdayOfCycle := dayOfCycle_range z
  have hdayOfCentury := dayOfCentury_range z
  have hlast : century z < 3 → dayOfCentury z < 36524 := by
    unfold dayOfCentury century dayOfEra
    omega
  unfold yearLength
  rw [hfour.1, hfour.2, hhundred.1, hhundred.2, hera.1, hera.2]
  have hcentury' : dayOfCycle z = dayOfCentury z - 1461 * cycle z := rfl
  have hyear' : yearOfCycle z = min (dayOfCycle z / 365) 3 := rfl
  have hday : dayOfYear z = dayOfCycle z - 365 * yearOfCycle z := rfl
  clear hfour hhundred hera
  by_cases hleap : yearOfCycle z = 3
  · rw [hleap] at hday ⊢
    by_cases hlastCycle : cycle z = 24
    · rw [hlastCycle] at hcentury' ⊢
      omega
    · omega
  · have hnone : (yearOfCycle z + 1) / 4 = 0 ∧ (4 * cycle z + yearOfCycle z + 1) / 100 = 0 := by
      omega
    rw [hnone.1, hnone.2]
    omega

theorem month_bounds (z : ℤ) :
    firstOfMonth (monthIndex z) ≤ z ∧ z < firstOfMonth (monthIndex z + 1) := by
  have hfirst : firstOfMonth (monthIndex z) = z - day z + 1 := by
    rw [← days_year_month, days_firstOfMonth]
    rfl
  have hday := day_range z
  have hmonth := marchMonth_range z
  have hlength := dayOfYear_lt z
  refine ⟨by omega, ?_⟩
  rw [monthIndex_eq] at hfirst ⊢
  unfold yearLength at hlength
  have hyear : (12 * marchYear z + marchMonth z) / 12 = marchYear z := by omega
  have hrest : (12 * marchYear z + marchMonth z) % 12 = marchMonth z := by omega
  have hindex : ∀ k : ℤ, 12 * 0 + (k + 3 - 3) = k := by omega
  simp only [firstOfMonth, days, hindex, hyear, hrest] at hfirst ⊢
  have hdayOf : day z = dayOfYear z - (153 * marchMonth z + 2) / 5 + 1 := rfl
  have hmonthOf : marchMonth z = (5 * dayOfYear z + 2) / 153 := rfl
  by_cases hFebruary : marchMonth z = 11
  · have hnext : (12 * marchYear z + marchMonth z + 1) / 12 = marchYear z + 1 := by omega
    have hzero : (12 * marchYear z + marchMonth z + 1) % 12 = 0 := by omega
    rw [hnext, hzero]
    omega
  · have hnext : (12 * marchYear z + marchMonth z + 1) / 12 = marchYear z := by omega
    have hsucc : (12 * marchYear z + marchMonth z + 1) % 12 = marchMonth z + 1 := by omega
    rw [hnext, hsucc]
    omega

end CivilDate
