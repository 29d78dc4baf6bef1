import Bingos.ClockModel

set_option autoImplicit false

/-! `mktime` of `libc/time.c`. `int` and `long` have 32 bits. A sum of the first part, which brings
the fields into their ranges, that does not fit has no result; the second part, which tests for
overflow itself, computes modulo 2^32. -/
namespace Bingos.Mktime
open Clock

structure TmBuf where
  tmSec : ℤ
  tmMin : ℤ
  tmHour : ℤ
  tmMday : ℤ
  tmMon : ℤ
  tmYear : ℤ
  tmWday : ℤ
  tmYday : ℤ
  tmIsdst : ℤ
deriving DecidableEq

def timeMax : ℤ := 2147483647

def checked (x : ℤ) : Option ℤ := if -2 ^ 31 ≤ x ∧ x < 2 ^ 31 then some x else none

def wrap (x : ℤ) : ℤ := (x + 2 ^ 31) % 2 ^ 32 - 2 ^ 31

def leapyear (year : ℤ) : Bool := year.tmod 4 = 0 ∧ (year.tmod 100 ≠ 0 ∨ year.tmod 400 = 0)

def monthDays (year : ℤ) (mon : Fin 12) : ℤ := (ytab (leapyear year)).getD mon 0

theorem monthDays_pos (year : ℤ) (mon : Fin 12) : 0 < monthDays year mon := by
  have hall : ∀ leap, ∀ mon : Fin 12, 0 < (ytab leap).getD mon 0 := by decide
  have hpos := hall (leapyear year) mon
  unfold monthDays
  omega

/-- A field with its carry into the next one: a truncating division and a correction of a
negative remainder. -/
def carry (unit low high : ℤ) : Option (ℤ × ℤ) :=
  (checked (high + low.tdiv unit)).bind fun high =>
    if low.tmod unit < 0 then (checked (high - 1)).map fun high => (low.tmod unit + unit, high)
    else some (low.tmod unit, high)

/-- The first loop over the months: days are borrowed from the month before. -/
def borrowLoop (day : ℤ) (mon : Fin 12) (year : ℤ) : Option (ℤ × Fin 12 × ℤ) :=
  if day < 0 then
    (if mon = 0 then checked (year - 1) else some year).bind fun year =>
      (checked (year0 + year)).bind fun y =>
        borrowLoop (day + monthDays y (mon - 1)) (mon - 1) year
  else some (day, mon, year)
termination_by (-day).toNat
decreasing_by
  have hpos := monthDays_pos y (mon - 1)
  omega

def carryLoop (day : ℤ) (mon : Fin 12) (year : ℤ) : Option (ℤ × Fin 12 × ℤ) :=
  (checked (year0 + year)).bind fun y =>
    if monthDays y mon ≤ day then
      (if mon = 11 then checked (year + 1) else some year).bind fun year =>
        carryLoop (day - monthDays y mon) (mon + 1) year
    else some (day, mon, year)
termination_by day.toNat
decreasing_by
  have hpos := monthDays_pos y mon
  omega

structure Normal where
  sec : ℤ
  min : ℤ
  hour : ℤ
  day : ℤ
  mon : Fin 12
  year : ℤ
deriving DecidableEq

def normalise (tmbuf : TmBuf) : Option Normal := do
  let (sec, min) ← carry 60 tmbuf.tmSec tmbuf.tmMin
  let (min, hour) ← carry 60 min tmbuf.tmHour
  let (hour, day) ← carry 24 hour 0
  let (mon, year) ← carry 12 tmbuf.tmMon tmbuf.tmYear
  let mday ← checked (tmbuf.tmMday - 1)
  let day ← checked (day + mday)
  let (day, mon, year) ← borrowLoop day (Fin.ofNat 12 mon.toNat) year
  let (day, mon, year) ← carryLoop day mon year
  return ⟨sec, min, hour, day, mon, year⟩

def extraLeap (d tmYear : ℤ) : ℤ :=
  if tmYear.tmod d ≠ 0 ∧ tmYear.tmod d < (epochYr : ℤ).tmod d then 1 else 0

def yearDays (tmYear : ℤ) : ℤ × Bool :=
  let years := wrap (tmYear - epochYr)
  let overflow := timeMax.tdiv 365 < years
  let day := wrap (years * 365)
  let overflow := overflow || wrap (timeMax - day) < years.tdiv 4 + 1
  let day := wrap (day + (years.tdiv 4 + extraLeap 4 tmYear))
  let day := wrap (day - (years.tdiv 100 + extraLeap 100 tmYear))
  let day := wrap (day + (years.tdiv 400 + extraLeap 400 tmYear))
  (day, overflow)

def monthsLoop (tmYear : ℤ) : ℕ → ℤ
  | 0 => 0
  | month + 1 => monthsLoop tmYear month + (ytab (leapyear tmYear)).getD month 0

/-- The seconds since 1970 from the days and the seconds of the last day, and `overflow`. -/
def totalSeconds (timezone dstbias isdst day seconds : ℤ) : ℤ × Bool :=
  let overflow := (wrap (timeMax - seconds)).tdiv secsDay < day
  let seconds := wrap (seconds + wrap (day * secsDay))
  let overflow := overflow || (0 < timezone ∧ wrap (timeMax - timezone) < seconds) ||
    (timezone < 0 ∧ seconds < wrap (-timezone))
  let seconds := wrap (seconds + timezone)
  let dst := if isdst ≠ 0 then dstbias else 0
  (wrap (seconds - dst), overflow || seconds < dst)

def mktime (timezone dstbias : ℤ) (tmbuf : TmBuf) : Option (ℤ × TmBuf) :=
  (normalise tmbuf).map fun r =>
    let tmbuf := { tmbuf with
      tmSec := r.sec
      tmMin := r.min
      tmHour := r.hour
      tmMday := r.day + 1
      tmMon := r.mon
      tmYear := r.year }
    if tmbuf.tmYear < (epochYr : ℤ) - year0 then (-1, tmbuf)
    else
      let tmYear := wrap (tmbuf.tmYear + year0)
      let years := yearDays tmYear
      let yday := monthsLoop tmYear r.mon + (tmbuf.tmMday - 1)
      let day := wrap (years.1 + yday)
      let tmbuf := { tmbuf with
        tmYday := yday
        tmWday := (wrap (day + 4)).tmod 7 }
      let seconds := totalSeconds timezone dstbias tmbuf.tmIsdst day
        ((tmbuf.tmHour * 60 + tmbuf.tmMin) * 60 + tmbuf.tmSec)
      if years.2 || day < 0 || seconds.2 then (-1, tmbuf) else (seconds.1, tmbuf)

end Bingos.Mktime
