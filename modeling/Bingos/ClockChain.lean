import Bingos.Calendar
import Bingos.ClockModel

set_option autoImplicit false
set_option maxRecDepth 4096

/-! The kernel counts the days of a date down the years and up the months, user
space takes them off again; both agree with the calendar. -/
namespace Bingos.Clock
open MachineWords Calendar

def toBcd (v : ℕ) : ℕ := v / 10 * 16 + v % 10

theorem fromBcd_toBcd {v : ℕ} (h : v < 100) : fromBcd (toBcd v) = v := by
  have hall : ∀ v < 100, fromBcd (toBcd v) = v := by decide
  exact hall v h

theorem extraDay_eq (year : ℕ) : 365 + extraDay year = yearLength year := by
  unfold extraDay yearLength
  simp only [isLeap_natCast, decide_eq_true_eq]
  split_ifs <;> omega

theorem yearsLoop_eq {n days : ℕ} (h : days + 366 * n < 2 ^ 32) :
    yearsLoop n days = days + yearsLength 1970 n := by
  induction n generalizing days with
  | zero => rfl
  | succ n ih =>
    have hlen := yearLength_le (1970 + n)
    have hextra := extraDay_eq (1970 + n)
    rw [Nat.cast_add, Nat.cast_ofNat] at hextra
    have hyear : add32 days 365 = days + 365 := add32_of_lt (by omega)
    have hday : add32 (days + 365) (extraDay (1970 + n)) = days + 365 + extraDay (1970 + n) :=
      add32_of_lt (by omega)
    have hbound : days + 365 + extraDay (1970 + n) + 366 * n < 2 ^ 32 := by omega
    rw [yearsLoop, hyear, hday, ih hbound, yearsLength_succ, ← hextra]
    ring

theorem secsOfYears_eq {year : ℕ} (hlo : 2000 ≤ year) (hhi : year ≤ 2099) :
    secsOfYears (((year - 2000 : ℕ) : ℤ) - 1) = yearsLength 1970 (year - 1970) * 86400 := by
  have hcount : (((year - 2000 : ℕ) : ℤ) - 1 + 2000 - 1969).toNat = year - 1970 := by omega
  have hle := yearsLength_le 1970 (year - 1970)
  rw [secsOfYears, hcount, yearsLoop_eq (by omega), Nat.zero_add, Nat.mod_eq_of_lt (by omega)]

theorem caseDays_eq (year : ℕ) {label : ℕ} (h : label < 11) :
    caseDays year (label + 1) = monthLength year (label + 1) := by
  have hfebruary : caseDays year 2 = monthLength year 2 := by
    simp only [caseDays, monthLength, monthLengths, isLeap_natCast, decide_eq_true_eq]
    rfl
  interval_cases label
  · rfl
  · exact hfebruary
  all_goals rfl

theorem fallThrough_eq (year : ℕ) {months : ℕ} (h : months < 12) :
    fallThrough year months = daysBefore (isLeap year) months := by
  induction months with
  | zero => rfl
  | succ m ih =>
    rw [fallThrough, caseDays_eq year (by omega), ih (by omega), daysBefore_succ year (by omega),
      Nat.add_comm]

theorem leapyear_eq (year : ℕ) : leapyear year = isLeap year := (isLeap_natCast year).symm

theorem yearsize_eq (year : ℕ) : yearsize year = yearLength year := by
  rw [yearsize, leapyear_eq, yearLength]

theorem ytab_eq (leap : Bool) : ytab leap = monthLengths leap := by
  cases leap with
  | false => rfl
  | true => rfl

theorem gmtimeYears_eq {n r : ℕ} (year : ℕ) (h : r < yearLength (year + n : ℕ)) :
    gmtimeYears (yearsLength year n + r) year = (r, year + n) := by
  induction n generalizing year with
  | zero =>
    have hlast : ¬yearsize year ≤ r := by
      rw [yearsize_eq]
      exact Nat.not_le.mpr h
    rw [gmtimeYears, yearsLength, Nat.zero_add, if_neg hlast]
    rfl
  | succ n ih =>
    have hle : yearsize year ≤ yearsLength year (n + 1) + r := by
      rw [yearsLength, yearsize_eq]
      omega
    have hrest : yearsLength year (n + 1) + r - yearsize year = yearsLength (year + 1) n + r := by
      rw [yearsLength, yearsize_eq]
      omega
    have hyear : year + (n + 1) = year + 1 + n := by omega
    rw [hyear] at h ⊢
    rw [gmtimeYears, if_pos hle, hrest, ← Nat.cast_succ, ih (year + 1) h]

theorem gmtimeMonths_eq {table : List ℕ} {k r : ℕ} (mon : ℕ) (hk : k < table.length)
    (hr : r < table[k]) :
    gmtimeMonths table ((table.take k).sum + r) mon = some (r, mon + k) := by
  induction table generalizing k mon with
  | nil => exact absurd hk (Nat.not_lt_zero k)
  | cons days table ih =>
    cases k with
    | zero =>
      have hlast : ¬days ≤ r := Nat.not_le.mpr hr
      rw [List.take_zero, List.sum_nil, Nat.zero_add, gmtimeMonths, if_neg hlast]
      rfl
    | succ k =>
      rw [List.take_succ_cons, List.sum_cons, gmtimeMonths, if_pos (by omega), Nat.add_assoc,
        Nat.add_sub_cancel_left, ih (mon + 1) (Nat.lt_of_succ_lt_succ hk) hr, Nat.add_assoc,
        Nat.add_comm 1 k]

section Kernel
variable {busy : ℕ → Bool}

theorem waitUpdate_eq (h : ∀ n, ∃ m, n ≤ m ∧ busy m = false) (n : ℕ) :
    ∃ rounds m, ∀ fuel, rounds ≤ fuel → waitUpdate busy fuel n = some m := by
  have hwait : ∀ k n, busy (n + k) = false →
      ∃ rounds m, ∀ fuel, rounds ≤ fuel → waitUpdate busy fuel n = some m := by
    intro k
    induction k with
    | zero =>
      intro n hfree
      refine ⟨1, n + 1, fun fuel hfuel => ?_⟩
      obtain ⟨fuel, rfl⟩ := Nat.exists_eq_add_of_le' hfuel
      rw [Nat.add_zero] at hfree
      rw [waitUpdate, hfree, if_neg Bool.false_ne_true]
    | succ k ih =>
      intro n hfree
      obtain ⟨rounds, m, hrun⟩ := ih (n + 1) (by rwa [Nat.add_right_comm])
      by_cases hbusy : busy n = true
      · refine ⟨rounds + 1, m, fun fuel hfuel => ?_⟩
        obtain ⟨fuel, rfl⟩ := Nat.exists_eq_add_of_le' (Nat.le_trans (Nat.le_add_left 1 rounds) hfuel)
        rw [waitUpdate, if_pos hbusy, hrun fuel (by omega)]
      · refine ⟨1, n + 1, fun fuel hfuel => ?_⟩
        obtain ⟨fuel, rfl⟩ := Nat.exists_eq_add_of_le' hfuel
        rw [waitUpdate, if_neg hbusy]
  obtain ⟨m, hle, hfree⟩ := h n
  exact hwait (m - n) n (by rwa [Nat.add_sub_cancel' hle])

theorem readCmos_eq (h : ∀ n, ∃ m, n ≤ m ∧ busy m = false) (registers oldValues values : ℕ → ℕ) :
    ∃ rounds, ∀ fuel, rounds ≤ fuel →
      readCmos busy registers oldValues values fuel = some (timeOf registers) := by
  obtain ⟨r₀, n₀, h₀⟩ := waitUpdate_eq h 0
  obtain ⟨r₁, n₁, h₁⟩ := waitUpdate_eq h n₀
  obtain ⟨r₂, n₂, h₂⟩ := waitUpdate_eq h n₁
  have hsecond : ∀ fuel old, r₂ ≤ fuel + 1 →
      dumpLoop busy registers (fuel + 1) n₁ old registers = some registers := by
    intro fuel old hfuel
    have hsame : differ (fun i => if i < 64 then registers i else old i) registers = false := by
      simp [differ, cmosSecond, cmosMinute, cmosHour, cmosDay, cmosMonth, cmosYear]
    simp only [dumpLoop, h₂ _ hfuel, Option.bind_some, hsame, Bool.false_eq_true, if_false]
  refine ⟨r₀ + r₁ + r₂ + 2, fun fuel hfuel => ?_⟩
  obtain ⟨fuel, rfl⟩ := Nat.exists_eq_add_of_le' (Nat.le_trans (Nat.le_add_left 2 _) hfuel)
  rw [readCmos, h₀ _ (by omega), Option.bind_some, dumpLoop, h₁ _ (by omega), Option.bind_some]
  split_ifs with hdiffer
  · rw [hsecond fuel _ (by omega), Option.map_some]
  · rw [Option.map_some]

end Kernel

structure Shows (registers : ℕ → ℕ) (d : Date) (hour minute second : ℕ) : Prop where
  year : registers cmosYear = toBcd (d.year - 2000)
  month : registers cmosMonth = toBcd d.month
  day : registers cmosDay = toBcd d.day
  hour : registers cmosHour = toBcd hour
  minute : registers cmosMinute = toBcd minute
  second : registers cmosSecond = toBcd second

def secondsOfDay (hour minute second : ℕ) : ℕ := hour * 3600 + minute * 60 + second

section Chain
variable {registers : ℕ → ℕ} {d : Date} {hour minute second : ℕ}

theorem monthLength_le (year : ℤ) (month : ℕ) : monthLength year month ≤ 31 := by
  have hall : ∀ leap, ∀ x ∈ monthLengths leap, x ≤ 31 := by decide
  rw [monthLength, List.getD_eq_getElem?_getD]
  cases hget : (monthLengths (isLeap year))[month - 1]? with
  | none => exact Nat.zero_le 31
  | some x => exact hall _ x (List.mem_of_getElem? hget)

theorem dayNumber_lt (hd : d.Valid) (hlo : 2000 ≤ d.year) (hhi : d.year ≤ 2099) :
    dayNumber 1970 d < 47580 := by
  have hyears := yearsLength_le 1970 (d.year - 1970)
  have hlast := dayOfYear_lt hd
  have hlen := yearLength_le d.year
  rw [dayNumber, Nat.cast_ofNat]
  omega

theorem timeOf_eq (hd : d.Valid) (hlo : 2000 ≤ d.year) (hhi : d.year ≤ 2099) (hhour : hour < 24)
    (hminute : minute < 60) (hsecond : second < 60) (h : Shows registers d hour minute second) :
    timeOf registers = dayNumber 1970 d * 86400 + secondsOfDay hour minute second := by
  have hday := hd.day_le.trans (monthLength_le _ _)
  have hdaypos := hd.day_pos
  have hmonth := hd.month_le
  have hmonthpos := hd.month_pos
  have htotal := dayNumber_lt hd hlo hhi
  have hmonths : secsOfMonth ((d.month : ℤ) - 1) (d.year - 2000) =
      daysBefore (isLeap d.year) (d.month - 1) * 86400 := by
    have hyear : d.year - 2000 + 2000 = d.year := by omega
    have hnat : ((d.month : ℤ) - 1).toNat = d.month - 1 := by omega
    rw [secsOfMonth, hyear, hnat, fallThrough_eq d.year (by omega)]
    have hle : daysBefore (isLeap d.year) (d.month - 1) < yearLength d.year := by
      have := dayOfYear_lt hd
      omega
    have hlen := yearLength_le d.year
    rcases Nat.eq_or_lt_of_le hmonthpos with hone | hlater
    · rw [← hone, if_neg (by omega), Nat.sub_self, daysBefore, List.take_zero, List.sum_nil,
        Nat.zero_mul, Nat.zero_mod]
    · rw [if_pos (by omega), Nat.mod_eq_of_lt (by omega)]
  have hdays : (((d.day : ℤ) - 1) * 86400 % 2 ^ 32).toNat = (d.day - 1) * 86400 := by
    have hnat : ((d.day : ℤ) - 1) * 86400 = (((d.day - 1) * 86400 : ℕ) : ℤ) := by omega
    rw [hnat, Int.emod_eq_of_lt (by omega) (by omega), Int.toNat_natCast]
  unfold timeOf
  rw [h.year, h.month, h.day, h.hour, h.minute, h.second, fromBcd_toBcd (by omega),
    fromBcd_toBcd (by omega), fromBcd_toBcd (by omega), fromBcd_toBcd (by omega),
    fromBcd_toBcd (by omega), fromBcd_toBcd (by omega), secsOfYears_eq hlo hhi, hmonths, hdays]
  rw [dayNumber, Nat.cast_ofNat] at htotal ⊢
  unfold secondsOfDay
  simp only [add32, Nat.mod_add_mod]
  rw [Nat.mod_eq_of_lt (by omega)]
  ring

def civil (d : Date) (hour minute second : ℕ) : Tm where
  tmSec := second
  tmMin := minute
  tmHour := hour
  tmMday := d.day
  tmMon := d.month - 1
  tmYear := (d.year : ℤ) - 1900
  tmWday := (dayNumber 1970 d + 4) % 7
  tmYday := dayNumber d.year d
  tmIsdst := 0
  tmGmtoff := 0
  tmZone := "UTC"

theorem gmtimeR_civil {time : ℕ} (hd : d.Valid) (hyear : 1970 ≤ d.year) (hhour : hour < 24)
    (hminute : minute < 60) (hsecond : second < 60)
    (htime : time = dayNumber 1970 d * 86400 + secondsOfDay hour minute second)
    (hlt : time < 2 ^ 32) :
    gmtimeR (BitVec.ofNat 32 time) = some (civil d hour minute second) := by
  have hmonth := hd.month_pos
  have hmonth' := hd.month_le
  have hday := hd.day_pos
  have hdayle := hd.day_le
  have hnat : (BitVec.ofNat 32 time).toNat = time := by
    rw [BitVec.toNat_ofNat, Nat.mod_eq_of_lt hlt]
  have hclock : time % secsDay = secondsOfDay hour minute second := by
    unfold secondsOfDay at htime ⊢
    unfold secsDay
    omega
  have hdayno : time / secsDay = dayNumber 1970 d := by
    unfold secondsOfDay at htime
    unfold secsDay
    omega
  have hyday : dayNumber d.year d = daysBefore (isLeap d.year) (d.month - 1) + (d.day - 1) := by
    rw [dayNumber, Nat.sub_self, yearsLength, Nat.zero_add]
  have hyears : gmtimeYears (dayNumber 1970 d) epochYr = (dayNumber d.year d, d.year) := by
    have hback : 1970 + (d.year - 1970) = d.year := Nat.add_sub_cancel' hyear
    have hrun := gmtimeYears_eq (n := d.year - 1970) 1970 (by rw [hback]; exact dayOfYear_lt hd)
    rw [hback, ← hyday] at hrun
    rw [dayNumber, ← hyday]
    exact hrun
  have hmonths : gmtimeMonths (ytab (leapyear d.year)) (dayNumber d.year d) 0 =
      some (d.day - 1, d.month - 1) := by
    have hin : d.month - 1 < (monthLengths (isLeap d.year)).length := by
      rw [length_monthLengths]
      omega
    rw [monthLength, List.getD_eq_getElem _ _ hin] at hdayle
    have hrun := gmtimeMonths_eq 0 hin (show d.day - 1 < _ by omega)
    rw [Nat.zero_add] at hrun
    rw [leapyear_eq, ytab_eq, hyday]
    exact hrun
  have hsec : secondsOfDay hour minute second % 60 = second := by
    rw [secondsOfDay]
    omega
  have hmin : secondsOfDay hour minute second % 3600 / 60 = minute := by
    rw [secondsOfDay]
    omega
  have hhours : secondsOfDay hour minute second / 3600 = hour := by
    rw [secondsOfDay]
    omega
  unfold gmtimeR
  simp only [hnat, hdayno, hclock, hyears, hmonths, Option.map_some, hsec, hmin, hhours,
    Nat.sub_add_cancel hday, year0]
  rfl

theorem gmtimeR_eq {time : ℕ} (hd : d.Valid) (hyear : 1970 ≤ d.year) (hhour : hour < 24)
    (hminute : minute < 60) (hsecond : second < 60)
    (htime : time = dayNumber 1970 d * 86400 + secondsOfDay hour minute second)
    (hlt : time < 2 ^ 32) :
    ∃ tm, gmtimeR (BitVec.ofNat 32 time) = some tm ∧ tm.tmYear + 1900 = d.year ∧
      tm.tmMon + 1 = d.month ∧ tm.tmMday = d.day ∧ tm.tmHour = hour ∧ tm.tmMin = minute ∧
      tm.tmSec = second := by
  refine ⟨civil d hour minute second, gmtimeR_civil hd hyear hhour hminute hsecond htime hlt,
    ?_, Nat.sub_add_cancel hd.month_pos, rfl, rfl, rfl, rfl⟩
  exact Int.sub_add_cancel ..

end Chain

def leapDayRegisters (i : ℕ) : ℕ :=
  [0x59, 0, 0x59, 0, 0x23, 0, 0, 0x29, 0x02, 0x96].getD i 0

/-- From 2000 to 2099 a date held in the registers is read as the seconds since
1970, and `gmtime_r` gives the date back. -/
theorem clock_chain {registers : ℕ → ℕ} {d : Date} {hour minute second : ℕ} {busy : ℕ → Bool}
    (hd : d.Valid) (hlo : 2000 ≤ d.year) (hhi : d.year ≤ 2099) (hhour : hour < 24)
    (hminute : minute < 60) (hsecond : second < 60) (hshows : Shows registers d hour minute second)
    (hbusy : ∀ n, ∃ m, n ≤ m ∧ busy m = false) (oldValues values : ℕ → ℕ) :
    ∃ days time, Date.next^[days] ⟨1970, 1, 1⟩ = d ∧
      time = days * 86400 + secondsOfDay hour minute second ∧ time < 2 ^ 32 ∧
      (∃ rounds, ∀ fuel, rounds ≤ fuel →
        readCmos busy registers oldValues values fuel = some time) ∧
      ∃ tm, gmtimeR (BitVec.ofNat 32 time) = some tm ∧ tm.tmYear + 1900 = d.year ∧
        tm.tmMon + 1 = d.month ∧ tm.tmMday = d.day ∧ tm.tmHour = hour ∧ tm.tmMin = minute ∧
        tm.tmSec = second := by
  have htime := timeOf_eq hd hlo hhi hhour hminute hsecond hshows
  have hlt : timeOf registers < 2 ^ 32 := by
    have hdays := dayNumber_lt hd hlo hhi
    rw [htime, secondsOfDay]
    omega
  exact ⟨dayNumber 1970 d, timeOf registers, next_iterate_dayNumber hd (by omega), htime, hlt,
    readCmos_eq hbusy registers oldValues values,
    gmtimeR_eq hd (by omega) hhour hminute hsecond htime hlt⟩

/-- The second before midnight on a leap day, after the 32-bit clock of 2038. -/
theorem clock_chain_2096 : Date.Valid ⟨2096, 2, 29⟩ ∧
    ∃ days time, Date.next^[days] ⟨1970, 1, 1⟩ = ⟨2096, 2, 29⟩ ∧
      time = days * 86400 + secondsOfDay 23 59 59 ∧ time < 2 ^ 32 ∧
      (∃ rounds, ∀ fuel, rounds ≤ fuel → readCmos (fun _ => false) leapDayRegisters (fun _ => 0)
        (fun _ => 0) fuel = some time) ∧
      ∃ tm, gmtimeR (BitVec.ofNat 32 time) = some tm ∧ tm.tmYear + 1900 = (2096 : ℕ) ∧
        tm.tmMon + 1 = 2 ∧ tm.tmMday = 29 ∧ tm.tmHour = 23 ∧ tm.tmMin = 59 ∧ tm.tmSec = 59 := by
  have hd : Date.Valid ⟨2096, 2, 29⟩ := ⟨by decide, by decide, by decide, by decide⟩
  exact ⟨hd, clock_chain hd (by decide) (by decide) (by decide) (by decide) (by decide)
    ⟨by decide, by decide, by decide, by decide, by decide, by decide⟩ (fun n => ⟨n, le_rfl, rfl⟩) _ _⟩

theorem gmtimeR_date (t : BitVec 32) : ∃ d : Date, d.Valid ∧ 1970 ≤ d.year ∧
    t.toNat = dayNumber 1970 d * 86400 + secondsOfDay (t.toNat % 86400 / 3600)
      (t.toNat % 3600 / 60) (t.toNat % 60) ∧
    gmtimeR t = some (civil d (t.toNat % 86400 / 3600) (t.toNat % 3600 / 60) (t.toNat % 60)) := by
  obtain ⟨d, hd, hyear, hnumber⟩ := exists_date 1970 (t.toNat / 86400)
  have htime : t.toNat = dayNumber 1970 d * 86400 + secondsOfDay (t.toNat % 86400 / 3600)
      (t.toNat % 3600 / 60) (t.toNat % 60) := by
    rw [hnumber, secondsOfDay]
    omega
  have hrun := gmtimeR_civil hd hyear (by omega) (by omega) (by omega) htime t.isLt
  rw [BitVec.ofNat_toNat, BitVec.setWidth_eq] at hrun
  exact ⟨d, hd, hyear, htime, hrun⟩

/-- `gmtime_r` gives for every time, read as unsigned, the date and the time of day that many
seconds after the start of 1970, with the day of the year and the day of the week, of which the
first was a Thursday. -/
theorem gmtimeR_is_calendar (t : BitVec 32) : ∃ tm d, gmtimeR t = some tm ∧
    tm.tmSec < 60 ∧ tm.tmMin < 60 ∧ tm.tmHour < 24 ∧ tm.tmMon ≤ 11 ∧
    d.Valid ∧ (d.year : ℤ) = tm.tmYear + 1900 ∧ d.month = tm.tmMon + 1 ∧ d.day = tm.tmMday ∧
    dayNumber 1970 d * 86400 + tm.tmHour * 3600 + tm.tmMin * 60 + tm.tmSec = t.toNat ∧
    Date.next^[dayNumber 1970 d] ⟨1970, 1, 1⟩ = d ∧ tm.tmYday = dayNumber d.year d ∧
    tm.tmWday = nextWeekday^[dayNumber 1970 d] 4 := by
  obtain ⟨d, hd, hyear, htime, hrun⟩ := gmtimeR_date t
  have hmonth := hd.month_pos
  have hmonth' := hd.month_le
  refine ⟨_, d, hrun, ?_, ?_, ?_, ?_, hd, ?_, ?_, rfl, ?_, next_iterate_dayNumber hd hyear, rfl, ?_⟩
  all_goals simp only [civil]
  · omega
  · omega
  · omega
  · omega
  · omega
  · omega
  · unfold secondsOfDay at htime
    omega
  · exact (nextWeekday_iterate (by decide) _).symm

end Bingos.Clock
