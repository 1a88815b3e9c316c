import Mathlib.Algebra.BigOperators.Intervals
import Mathlib.Tactic.IntervalCases

/-!
# The Gregorian calendar

Days are counted from the first of January 1970, year by year and month by month. The closed
form counts years from March on, so that the day a leap year adds is the last one of its year.
-/

namespace ShiziOS.Calendar

open Finset

def leapYear (year : Nat) : Bool := year % 4 = 0 && (year % 100 ≠ 0 || year % 400 = 0)

def daysInMonth (year month : Nat) : Nat :=
  if month = 2 then if leapYear year then 29 else 28
  else if month = 4 ∨ month = 6 ∨ month = 9 ∨ month = 11 then 30
  else 31

def daysInYear (year : Nat) : Nat := ∑ month ∈ Icc 1 12, daysInMonth year month

structure DateTime where
  year : Nat
  month : Nat
  day : Nat
  hour : Nat
  minute : Nat
  second : Nat

structure DateTime.Valid (t : DateTime) : Prop where
  month : 1 ≤ t.month ∧ t.month ≤ 12
  day : 1 ≤ t.day ∧ t.day ≤ daysInMonth t.year t.month
  hour : t.hour < 24
  minute : t.minute < 60
  second : t.second < 60

theorem DateTime.Valid.day_lt {t : DateTime} (h : t.Valid) : t.day < 32 := by
  refine lt_of_le_of_lt h.day.2 ?_
  unfold daysInMonth
  split_ifs <;> decide

/-- The days that have gone by since the first of January 1970. -/
def DateTime.days (t : DateTime) : Nat :=
  ∑ year ∈ Ico 1970 t.year, daysInYear year + ∑ month ∈ Ico 1 t.month, daysInMonth t.year month +
    (t.day - 1)

/-- The seconds that have gone by since the first of January 1970, `00:00:00`. -/
def DateTime.seconds (t : DateTime) : Nat :=
  t.days * 86400 + t.hour * 3600 + t.minute * 60 + t.second

/-! ## The closed form -/

def yearDays (year : Nat) : Nat := 365 * year + year / 4 - year / 100 + year / 400

theorem yearDays_le (year : Nat) : yearDays year ≤ 366 * year := by
  unfold yearDays
  omega

theorem leapYear_iff {year : Nat} :
    leapYear year = true ↔ year % 4 = 0 ∧ (year % 100 ≠ 0 ∨ year % 400 = 0) := by
  simp [leapYear]

theorem daysInYear_eq (year : Nat) : daysInYear year = if leapYear year then 366 else 365 := by
  have hmonths : Icc 1 12 = ({1, 2, 3, 4, 5, 6, 7, 8, 9, 10, 11, 12} : Finset Nat) := by decide
  rw [daysInYear, hmonths]
  cases h : leapYear year <;> simp [daysInMonth, h]

theorem yearDays_succ (year : Nat) :
    yearDays (year + 1) = yearDays year + daysInYear (year + 1) := by
  have hle : year / 100 ≤ year / 4 := Nat.div_le_div_left (by decide) (by decide)
  have h4 : (year + 1) % 100 = 0 → (year + 1) % 4 = 0 := by omega
  have h100 : (year + 1) % 400 = 0 → (year + 1) % 100 = 0 := by omega
  rw [daysInYear_eq, yearDays, yearDays, Nat.succ_div, Nat.succ_div, Nat.succ_div]
  simp only [Nat.dvd_iff_mod_eq_zero, leapYear_iff]
  split_ifs <;> omega

theorem sum_daysInYear {year : Nat} (h : 1970 ≤ year) :
    ∑ y ∈ Ico 1970 year, daysInYear y + 719162 = yearDays (year - 1) := by
  induction year, h using Nat.le_induction with
  | base => decide
  | succ n hn ih =>
    obtain ⟨k, rfl⟩ := Nat.exists_eq_add_of_lt (show 0 < n by omega)
    rw [Finset.sum_Ico_succ_top hn, Nat.add_sub_cancel, yearDays_succ]
    simp only [Nat.add_sub_cancel] at ih
    omega

theorem sum_daysInMonth {year month : Nat} (h : 1 ≤ month ∧ month ≤ 12) :
    ∑ m ∈ Ico 1 month, daysInMonth year m =
      if month ≤ 2 then 31 * (month - 1)
      else 153 * (month + 1) / 5 + (if leapYear year then 60 else 59) - 122 := by
  obtain ⟨h1, h12⟩ := h
  cases hleap : leapYear year <;>
    interval_cases month <;> simp [Finset.sum_Ico_succ_top, daysInMonth, hleap]

theorem DateTime.Valid.days_eq {t : DateTime} (h : t.Valid) (hyear : 1970 ≤ t.year) :
    t.days + 719591 =
      if t.month ≤ 2 then yearDays (t.year - 1) + 153 * (t.month + 13) / 5 + t.day
      else yearDays t.year + 153 * (t.month + 1) / 5 + t.day := by
  have hyears := sum_daysInYear hyear
  have hday := h.day.1
  have hmonth := h.month
  rw [DateTime.days, sum_daysInMonth h.month]
  by_cases hm : t.month ≤ 2
  · rw [if_pos hm, if_pos hm]
    omega
  · have hlast : yearDays t.year = yearDays (t.year - 1) + daysInYear t.year := by
      have := yearDays_succ (t.year - 1)
      rwa [Nat.sub_add_cancel (by omega)] at this
    rw [if_neg hm, if_neg hm, hlast, daysInYear_eq]
    cases leapYear t.year
    · simp only [Bool.false_eq_true, if_false]
      omega
    · simp only [if_true]
      omega

end ShiziOS.Calendar
