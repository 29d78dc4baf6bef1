import Mathlib

set_option autoImplicit false

/-! Gregorian dates and the passing of days. -/
namespace Bingos.Calendar

structure Date where
  year : ℕ
  month : ℕ
  day : ℕ
deriving DecidableEq

def isLeap (year : ℤ) : Bool := year % 4 = 0 ∧ (year % 100 ≠ 0 ∨ year % 400 = 0)

theorem isLeap_natCast (year : ℕ) :
    isLeap year = decide (year % 4 = 0 ∧ (year % 100 ≠ 0 ∨ year % 400 = 0)) := by
  unfold isLeap
  simp only [decide_eq_decide]
  omega

def monthLengths (leap : Bool) : List ℕ :=
  [31, if leap then 29 else 28, 31, 30, 31, 30, 31, 31, 30, 31, 30, 31]

def yearLength (year : ℤ) : ℕ := if isLeap year then 366 else 365

def monthLength (year : ℤ) (month : ℕ) : ℕ := (monthLengths (isLeap year)).getD (month - 1) 0

namespace Date

structure Valid (d : Date) : Prop where
  month_pos : 1 ≤ d.month
  month_le : d.month ≤ 12
  day_pos : 1 ≤ d.day
  day_le : d.day ≤ monthLength d.year d.month

def next (d : Date) : Date :=
  if d.day < monthLength d.year d.month then { d with day := d.day + 1 }
  else if d.month < 12 then ⟨d.year, d.month + 1, 1⟩
  else ⟨d.year + 1, 1, 1⟩

end Date

def yearsLength (year : ℤ) : ℕ → ℕ
  | 0 => 0
  | n + 1 => yearLength year + yearsLength (year + 1) n

def daysBefore (leap : Bool) (months : ℕ) : ℕ := ((monthLengths leap).take months).sum

theorem yearsLength_succ (year : ℤ) (n : ℕ) :
    yearsLength year (n + 1) = yearsLength year n + yearLength (year + n) := by
  induction n generalizing year with
  | zero => simp [yearsLength]
  | succ n ih =>
    rw [yearsLength, ih (year + 1), yearsLength, ← Nat.add_assoc, Int.add_assoc year 1 n,
      Int.add_comm 1 n, Nat.cast_succ]

theorem yearLength_le (year : ℤ) : yearLength year ≤ 366 := by
  unfold yearLength
  split_ifs
  · exact le_rfl
  · decide

theorem yearsLength_le (year : ℤ) (n : ℕ) : yearsLength year n ≤ 366 * n := by
  induction n generalizing year with
  | zero => exact le_rfl
  | succ n ih =>
    have hfirst := yearLength_le year
    have hrest := ih (year + 1)
    rw [yearsLength]
    omega

theorem length_monthLengths (leap : Bool) : (monthLengths leap).length = 12 := rfl

variable {d : Date} {k months : ℕ}

theorem daysBefore_succ (year : ℤ) (h : months < 12) :
    daysBefore (isLeap year) (months + 1) =
      daysBefore (isLeap year) months + monthLength year (months + 1) := by
  have hlt : months < (monthLengths (isLeap year)).length := h
  rw [daysBefore, List.take_succ_eq_append_getElem hlt, List.sum_append, List.sum_singleton,
    monthLength, Nat.add_sub_cancel, List.getD_eq_getElem _ _ hlt, daysBefore]

theorem daysBefore_all (year : ℤ) : daysBefore (isLeap year) 12 = yearLength year := by
  unfold yearLength
  cases isLeap year with
  | false => rfl
  | true => rfl

theorem month_end_le (year : ℤ) (h : months < 12) :
    daysBefore (isLeap year) months + monthLength year (months + 1) ≤ yearLength year := by
  have hall : ∀ leap, ∀ m < 12, daysBefore leap (m + 1) ≤ daysBefore leap 12 := by decide
  rw [← daysBefore_succ year h, ← daysBefore_all]
  exact hall _ months h

theorem dayOfYear_lt (h : d.Valid) :
    daysBefore (isLeap d.year) (d.month - 1) + (d.day - 1) < yearLength d.year := by
  have hend := month_end_le d.year (show d.month - 1 < 12 by have := h.month_le; omega)
  rw [Nat.sub_add_cancel h.month_pos] at hend
  have hday := h.day_le
  have hpos := h.day_pos
  omega

section Passing
variable {year month : ℕ}

theorem next_iterate_month (hk : k < monthLength year month) :
    Date.next^[k] ⟨year, month, 1⟩ = ⟨year, month, 1 + k⟩ := by
  induction k with
  | zero => rfl
  | succ k ih =>
    rw [Function.iterate_succ_apply', ih (by omega), Date.next, if_pos (by simp only; omega),
      Nat.add_assoc]

theorem next_iterate_whole_month (hpos : 0 < monthLength year month) :
    Date.next^[monthLength year month] ⟨year, month, 1⟩ =
      if month < 12 then ⟨year, month + 1, 1⟩ else ⟨year + 1, 1, 1⟩ := by
  obtain ⟨k, hk⟩ := Nat.exists_eq_succ_of_ne_zero hpos.ne'
  rw [hk, Function.iterate_succ_apply', next_iterate_month (by omega), Date.next,
    if_neg (by simp only; omega)]

theorem monthLength_pos (year : ℤ) {month : ℕ} (h : month < 12) :
    0 < monthLength year (month + 1) := by
  have hall : ∀ leap, ∀ i < 12, 0 < (monthLengths leap).getD i 0 := by decide
  rw [monthLength, Nat.add_sub_cancel]
  exact hall _ month h

theorem next_iterate_months (hk : k < 12) :
    Date.next^[daysBefore (isLeap year) k] ⟨year, 1, 1⟩ = ⟨year, k + 1, 1⟩ := by
  induction k with
  | zero => rfl
  | succ k ih =>
    rw [daysBefore_succ year (by omega), Nat.add_comm, Function.iterate_add_apply, ih (by omega),
      next_iterate_whole_month (monthLength_pos year (by omega)), if_pos hk]

theorem next_iterate_year (year : ℕ) :
    Date.next^[yearLength year] ⟨year, 1, 1⟩ = ⟨year + 1, 1, 1⟩ := by
  rw [← daysBefore_all, daysBefore_succ year (by decide), Nat.add_comm, Function.iterate_add_apply,
    next_iterate_months (by decide), next_iterate_whole_month (monthLength_pos year (by decide)),
    if_neg (by decide)]

theorem next_iterate_years (year n : ℕ) :
    Date.next^[yearsLength year n] ⟨year, 1, 1⟩ = ⟨year + n, 1, 1⟩ := by
  induction n generalizing year with
  | zero => rfl
  | succ n ih =>
    rw [yearsLength, Nat.add_comm, Function.iterate_add_apply, next_iterate_year, ← Nat.cast_succ, ih,
      Nat.succ_add_eq_add_succ]

end Passing

def dayNumber (year : ℕ) (d : Date) : ℕ :=
  yearsLength year (d.year - year) + (daysBefore (isLeap d.year) (d.month - 1) + (d.day - 1))

theorem next_iterate_dayNumber {year : ℕ} (h : d.Valid) (hyear : year ≤ d.year) :
    Date.next^[dayNumber year d] ⟨year, 1, 1⟩ = d := by
  have hmonth := h.month_pos
  have hday := h.day_pos
  have hday' := h.day_le
  rw [dayNumber, Nat.add_comm, Function.iterate_add_apply, next_iterate_years,
    Nat.add_sub_cancel' hyear, Nat.add_comm (daysBefore _ _), Function.iterate_add_apply,
    next_iterate_months (by have := h.month_le; omega), Nat.sub_add_cancel hmonth,
    next_iterate_month (by omega), Nat.add_sub_cancel' hday]

/-! Every day has its date. -/
section Dates
variable {year : ℕ}

theorem Date.Valid.newYear (year : ℕ) : Date.Valid ⟨year, 1, 1⟩ where
  month_pos := le_rfl
  month_le := Nat.le_add_left 1 11
  day_pos := le_rfl
  day_le := monthLength_pos year (by decide)

theorem Date.Valid.next (h : d.Valid) : d.next.Valid := by
  rw [Date.next]
  split_ifs with hday hmonth
  · exact ⟨h.month_pos, h.month_le, Nat.le_add_left 1 _, hday⟩
  · exact ⟨Nat.le_add_left 1 _, hmonth, le_rfl, monthLength_pos d.year hmonth⟩
  · exact Date.Valid.newYear (d.year + 1)

theorem dayNumber_next (h : d.Valid) (hyear : year ≤ d.year) :
    year ≤ d.next.year ∧ dayNumber year d.next = dayNumber year d + 1 := by
  have hmonth := h.month_pos
  have hmonth' := h.month_le
  have hpos := h.day_pos
  have hday := h.day_le
  have hmonths := daysBefore_succ d.year (show d.month - 1 < 12 by omega)
  rw [Nat.sub_add_cancel hmonth] at hmonths
  rw [Date.next]
  split_ifs with hlast hdec
  · exact ⟨hyear, by simp only [dayNumber]; omega⟩
  · refine ⟨hyear, ?_⟩
    simp only [dayNumber, Nat.add_sub_cancel, hmonths]
    omega
  · -- The last day of December is the last one of its year.
    have hdecember : d.month = 12 := by omega
    rw [hdecember] at hmonths hday hlast
    refine ⟨Nat.le_succ_of_le hyear, ?_⟩
    have hall := daysBefore_all d.year
    have hyears := yearsLength_succ year (d.year - year)
    rw [← Nat.cast_add, Nat.add_sub_cancel' hyear] at hyears
    simp only [dayNumber, Nat.sub_self, hdecember]
    rw [Nat.sub_add_comm hyear, hyears, daysBefore, List.take_zero, List.sum_nil]
    omega

theorem exists_date (year n : ℕ) : ∃ d : Date, d.Valid ∧ year ≤ d.year ∧ dayNumber year d = n := by
  induction n with
  | zero =>
    refine ⟨⟨year, 1, 1⟩, .newYear year, le_rfl, ?_⟩
    simp [dayNumber, yearsLength, daysBefore]
  | succ n ih =>
    obtain ⟨d, hd, hyear, rfl⟩ := ih
    obtain ⟨hyear', hnumber⟩ := dayNumber_next hd hyear
    exact ⟨d.next, hd.next, hyear', hnumber⟩

end Dates

def nextWeekday (w : ℕ) : ℕ := if w = 6 then 0 else w + 1

theorem nextWeekday_iterate {w : ℕ} (hw : w < 7) (n : ℕ) : nextWeekday^[n] w = (n + w) % 7 := by
  induction n with
  | zero => rw [Function.iterate_zero_apply, Nat.zero_add, Nat.mod_eq_of_lt hw]
  | succ n ih =>
    rw [Function.iterate_succ_apply', ih, nextWeekday]
    split_ifs <;> omega

end Bingos.Calendar
