import Bingos.MachineWords

set_option autoImplicit false

/-! The clock from the CMOS registers to a calendar date: `read_cmos` of
`drivers/cmos.c` and `gmtime_r` of `libc/time.c`. -/
namespace Bingos.Clock
open MachineWords

def cmosSecond : ℕ := 0

def cmosMinute : ℕ := 2

def cmosHour : ℕ := 4

def cmosDay : ℕ := 7

def cmosMonth : ℕ := 8

def cmosYear : ℕ := 9

def fromBcd (val : ℕ) : ℕ := val / 16 * 10 + (val &&& 0xf)

def extraDay (years : ℕ) : ℕ :=
  if years % 4 = 0 then
    if years % 100 = 0 then
      if years % 400 = 0 then 1 else 0
    else 1
  else 0

def yearsLoop : ℕ → ℕ → ℕ
  | 0, days => days
  | n + 1, days => yearsLoop n (add32 (add32 days 365) (extraDay (1970 + n)))

def secsOfYears (years : ℤ) : ℕ := yearsLoop (years + 2000 - 1969).toNat 0 * 86400 % 2 ^ 32

def caseDays (year : ℕ) : ℕ → ℕ
  | 11 => 30
  | 10 => 31
  | 9 => 30
  | 8 => 31
  | 7 => 31
  | 6 => 30
  | 5 => 31
  | 4 => 30
  | 3 => 31
  | 2 => if year % 4 = 0 ∧ (year % 100 ≠ 0 ∨ year % 400 = 0) then 28 + 1 else 28
  | 1 => 31
  | _ => 0

def fallThrough (year : ℕ) : ℕ → ℕ
  | 0 => 0
  | label + 1 => caseDays year (label + 1) + fallThrough year label

def secsOfMonth (months : ℤ) (year : ℕ) : ℕ :=
  (if 1 ≤ months ∧ months ≤ 11 then fallThrough (year + 2000) months.toNat else 0) * 86400 % 2 ^ 32

/-- `while (is_update_in_progress());` from the `n`-th read of the status
register on; the number of reads afterwards. -/
def waitUpdate (busy : ℕ → Bool) : ℕ → ℕ → Option ℕ
  | 0, _ => none
  | fuel + 1, n => if busy n then waitUpdate busy fuel (n + 1) else some (n + 1)

def differ (oldValues values : ℕ → ℕ) : Bool :=
  oldValues cmosSecond ≠ values cmosSecond ∨ oldValues cmosMinute ≠ values cmosMinute ∨
    oldValues cmosHour ≠ values cmosHour ∨ oldValues cmosDay ≠ values cmosDay ∨
    oldValues cmosMonth ≠ values cmosMonth ∨ oldValues cmosYear ≠ values cmosYear

/-- Dumps until two of them agree. `memcpy(old_values, values, 128)` copies 64 of
the 16-bit values. -/
def dumpLoop (busy : ℕ → Bool) (registers : ℕ → ℕ) : ℕ → ℕ → (ℕ → ℕ) → (ℕ → ℕ) → Option (ℕ → ℕ)
  | 0, _, _, _ => none
  | fuel + 1, n, oldValues, values =>
    let oldValues := fun i => if i < 64 then values i else oldValues i
    (waitUpdate busy (fuel + 1) n).bind fun n =>
      if differ oldValues registers then dumpLoop busy registers fuel n oldValues registers
      else some registers

def timeOf (values : ℕ → ℕ) : ℕ :=
  add32 (add32 (add32 (add32 (add32
    (secsOfYears ((fromBcd (values cmosYear) : ℤ) - 1))
    (secsOfMonth ((fromBcd (values cmosMonth) : ℤ) - 1) (fromBcd (values cmosYear))))
    (((fromBcd (values cmosDay) : ℤ) - 1) * 86400 % 2 ^ 32).toNat)
    (fromBcd (values cmosHour) * 3600))
    (fromBcd (values cmosMinute) * 60))
    (fromBcd (values cmosSecond))

/-- `busy n` is the answer to the `n`-th question for an update; the registers are
held, and the two arrays start with anything. -/
def readCmos (busy : ℕ → Bool) (registers oldValues values : ℕ → ℕ) (fuel : ℕ) : Option ℕ :=
  (waitUpdate busy fuel 0).bind fun n => (dumpLoop busy registers fuel n oldValues values).map timeOf

structure Tm where
  tmSec : ℕ
  tmMin : ℕ
  tmHour : ℕ
  tmMday : ℕ
  tmMon : ℕ
  tmYear : ℤ
  tmWday : ℕ
  tmYday : ℕ
  tmIsdst : ℕ
  tmGmtoff : ℤ
  tmZone : String

def year0 : ℕ := 1900

def epochYr : ℕ := 1970

def secsDay : ℕ := 24 * 60 * 60

def leapyear (year : ℕ) : Bool := year % 4 = 0 ∧ (year % 100 ≠ 0 ∨ year % 400 = 0)

def yearsize (year : ℕ) : ℕ := if leapyear year then 366 else 365

def ytab (leap : Bool) : List ℕ :=
  if leap then [31, 29, 31, 30, 31, 30, 31, 31, 30, 31, 30, 31]
  else [31, 28, 31, 30, 31, 30, 31, 31, 30, 31, 30, 31]

theorem yearsize_pos (year : ℕ) : 0 < yearsize year := by
  unfold yearsize
  split_ifs
  · decide
  · decide

def gmtimeYears (dayno year : ℕ) : ℕ × ℕ :=
  if yearsize year ≤ dayno then gmtimeYears (dayno - yearsize year) (year + 1) else (dayno, year)
termination_by dayno
decreasing_by
  have hpos := yearsize_pos year
  omega

/-- The days left and the month; a read behind the table has no result. -/
def gmtimeMonths : List ℕ → ℕ → ℕ → Option (ℕ × ℕ)
  | [], _, _ => none
  | days :: table, dayno, mon =>
    if days ≤ dayno then gmtimeMonths table (dayno - days) (mon + 1) else some (dayno, mon)

/-- `time_t` has 32 bits. -/
def gmtimeR (timer : BitVec 32) : Option Tm :=
  let dayclock := timer.toNat % secsDay
  let dayno := timer.toNat / secsDay
  let r := gmtimeYears dayno epochYr
  (gmtimeMonths (ytab (leapyear r.2)) r.1 0).map fun m =>
    { tmSec := dayclock % 60
      tmMin := dayclock % 3600 / 60
      tmHour := dayclock / 3600
      tmMday := m.1 + 1
      tmMon := m.2
      tmYear := (r.2 : ℤ) - year0
      tmWday := (dayno + 4) % 7
      tmYday := r.1
      tmIsdst := 0
      tmGmtoff := 0
      tmZone := "UTC" }

end Bingos.Clock
