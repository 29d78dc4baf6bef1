import Bingos.Calendar

set_option autoImplicit false

/-! The Gregorian calendar for all years, also those before the first, with the days counted
from the start of 1970 and the months from January 1900. -/
namespace Bingos.Proleptic
open Calendar

def yearStart (year : ℤ) : ℤ :=
  yearsLength 1970 (year - 1970).toNat - yearsLength year (1970 - year).toNat

def yearOf (months : ℤ) : ℤ := 1900 + months / 12

def monthOf (months : ℤ) : ℕ := (months % 12).toNat

def lengthOfMonth (months : ℤ) : ℤ :=
  monthLength (yearOf months) (monthOf months + 1)

def monthStart (months : ℤ) : ℤ :=
  yearStart (yearOf months) + daysBefore (isLeap (yearOf months)) (monthOf months)

section Years

def daysBeforeYear (year : ℤ) : ℤ :=
  365 * (year - 1) + (year - 1) / 4 - (year - 1) / 100 + (year - 1) / 400

theorem daysBeforeYear_succ (year : ℤ) :
    daysBeforeYear (year + 1) = daysBeforeYear year + yearLength year := by
  unfold daysBeforeYear yearLength isLeap
  simp only [decide_eq_true_eq]
  split_ifs <;> omega

theorem yearsLength_eq (year : ℤ) (n : ℕ) :
    yearsLength year n = daysBeforeYear (year + n) - daysBeforeYear year := by
  induction n generalizing year with
  | zero => simp [yearsLength]
  | succ n ih =>
    rw [yearsLength, Nat.cast_add, ih, daysBeforeYear_succ, Nat.cast_succ, Int.add_assoc, Int.add_comm 1]
    ring

theorem yearStart_eq (year : ℤ) : yearStart year = daysBeforeYear year - daysBeforeYear 1970 := by
  rw [yearStart, yearsLength_eq, yearsLength_eq]
  rcases Int.le_total 1970 year with hle | hle
  · have hlater : (1970 : ℤ) + ((year - 1970).toNat : ℤ) = year := by omega
    have hnone : year + ((1970 - year).toNat : ℤ) = year := by omega
    rw [hlater, hnone, Int.sub_self, Int.sub_zero]
  · have hnone : (1970 : ℤ) + ((year - 1970).toNat : ℤ) = 1970 := by omega
    have hlater : year + ((1970 - year).toNat : ℤ) = 1970 := by omega
    rw [hlater, hnone, Int.sub_self, Int.zero_sub, Int.neg_sub]

theorem yearStart_succ (year : ℤ) : yearStart (year + 1) = yearStart year + yearLength year := by
  rw [yearStart_eq, yearStart_eq, daysBeforeYear_succ]
  ring

end Years

section Months

theorem monthOf_lt (months : ℤ) : monthOf months < 12 := by
  unfold monthOf
  omega

theorem monthStart_succ (months : ℤ) :
    monthStart (months + 1) = monthStart months + lengthOfMonth months := by
  have hstep := daysBefore_succ (yearOf months) (monthOf_lt months)
  unfold monthStart lengthOfMonth
  by_cases hlast : monthOf months = 11
  · -- December ends the year.
    have hyear : yearOf (months + 1) = yearOf months + 1 := by
      unfold yearOf monthOf at *
      omega
    have hmonth : monthOf (months + 1) = 0 := by
      unfold monthOf at *
      omega
    have hwhole := daysBefore_all (yearOf months)
    rw [hlast] at hstep ⊢
    rw [hyear, hmonth, yearStart_succ, ← hwhole, hstep]
    push_cast
    simp [daysBefore, Int.add_assoc]
  · have hyear : yearOf (months + 1) = yearOf months := by
      unfold yearOf monthOf at *
      omega
    have hmonth : monthOf (months + 1) = monthOf months + 1 := by
      unfold monthOf at *
      omega
    rw [hyear, hmonth, hstep]
    push_cast
    ring

theorem dayOfYear_lt {months day : ℤ} (h : day < lengthOfMonth months) :
    (daysBefore (isLeap (yearOf months)) (monthOf months) : ℤ) + day <
      yearLength (yearOf months) := by
  have hend := month_end_le (yearOf months) (monthOf_lt months)
  unfold lengthOfMonth at h
  omega

end Months

section Dates

theorem dayNumber_cast {d : Date} (hd : d.Valid) (hyear : 1970 ≤ d.year) :
    (dayNumber 1970 d : ℤ) = monthStart (12 * ((d.year : ℤ) - 1900) + (d.month - 1 : ℕ)) +
      (d.day - 1 : ℕ) := by
  have hmonth := hd.month_pos
  have hmonth' := hd.month_le
  have hyearOf : yearOf (12 * ((d.year : ℤ) - 1900) + (d.month - 1 : ℕ)) = d.year := by
    unfold yearOf
    omega
  have hmonthOf : monthOf (12 * ((d.year : ℤ) - 1900) + (d.month - 1 : ℕ)) = d.month - 1 := by
    unfold monthOf
    omega
  have hnone : (1970 - (d.year : ℤ)).toNat = 0 := by omega
  have hcount : ((d.year : ℤ) - 1970).toNat = d.year - 1970 := by omega
  rw [monthStart, hyearOf, hmonthOf, yearStart, hnone, hcount, yearsLength, Nat.cast_zero,
    Int.sub_zero, dayNumber, Nat.cast_add, Nat.cast_add, ← Int.add_assoc]
  rfl

end Dates

end Bingos.Proleptic
