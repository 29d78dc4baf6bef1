import Bingos.ClockChain
import Bingos.MktimeModel
import Bingos.Proleptic

set_option autoImplicit false

/-! `mktime` computes the instant its fields denote, for fields of any size. -/
namespace Bingos.Mktime
open Clock Calendar Proleptic

/-- The seconds from the start of 1970 to what the fields denote, each counted on from where the
others are. -/
def instant (tm : TmBuf) : ℤ :=
  86400 * (monthStart (12 * tm.tmYear + tm.tmMon) + (tm.tmMday - 1)) +
    3600 * tm.tmHour + 60 * tm.tmMin + tm.tmSec

variable {mon' : Fin 12} {tm : TmBuf} {day' high low tmYear unit x : ℤ}

section Words

theorem checked_eq_some {y : ℤ} : checked x = some y ↔ (-2 ^ 31 ≤ x ∧ x < 2 ^ 31) ∧ y = x := by
  unfold checked
  split_ifs with hfits
  · constructor
    · intro h
      cases h
      exact ⟨hfits, rfl⟩
    · intro h
      rw [h.2]
  · constructor
    · intro h
      cases h
    · intro h
      exact absurd h.1 hfits

theorem wrap_of_lt (hlo : -2 ^ 31 ≤ x) (hhi : x < 2 ^ 31) : wrap x = x := by
  unfold wrap
  omega

theorem leapyear_eq_isLeap (year : ℤ) : leapyear year = isLeap year := by
  unfold leapyear isLeap
  simp only [← Int.dvd_iff_tmod_eq_zero, ne_eq, Int.dvd_iff_emod_eq_zero]

end Words

variable {mon : Fin 12} {day year year' : ℤ}

section Normalisation

theorem carry_eq_some {low' high' : ℤ} (hunit : 0 < unit)
    (h : carry unit low high = some (low', high')) :
    0 ≤ low' ∧ low' < unit ∧ unit * high' + low' = unit * high + low := by
  obtain ⟨v, hv, h⟩ := Option.bind_eq_some_iff.mp h
  obtain ⟨-, rfl⟩ := checked_eq_some.mp hv
  have hdiv := Int.mul_tdiv_add_tmod low unit
  have hlt := Int.tmod_lt_of_pos low hunit
  have hgt := Int.lt_tmod_of_pos low hunit
  split_ifs at h with hneg
  · obtain ⟨w, hw, hpair⟩ := Option.map_eq_some_iff.mp h
    obtain ⟨-, rfl⟩ := checked_eq_some.mp hw
    cases hpair
    refine ⟨by omega, by omega, ?_⟩
    linear_combination hdiv
  · cases h
    refine ⟨by omega, hlt, ?_⟩
    linear_combination hdiv

def monthNumber (mon : Fin 12) (year : ℤ) : ℤ := 12 * year + mon

theorem yearOf_monthNumber (mon : Fin 12) (year : ℤ) :
    yearOf (monthNumber mon year) = 1900 + year := by
  have hmon := mon.isLt
  unfold yearOf monthNumber
  omega

theorem monthOf_monthNumber (mon : Fin 12) (year : ℤ) : monthOf (monthNumber mon year) = mon := by
  have hmon := mon.isLt
  unfold monthOf monthNumber
  omega

theorem monthDays_eq (mon : Fin 12) (year : ℤ) :
    monthDays (year0 + year) mon = lengthOfMonth (monthNumber mon year) := by
  rw [lengthOfMonth, yearOf_monthNumber, monthOf_monthNumber, monthDays, leapyear_eq_isLeap,
    ytab_eq]
  rfl

theorem monthNumber_pred (h : (if mon = 0 then checked (year - 1) else some year) = some year') :
    monthNumber (mon - 1) year' = monthNumber mon year - 1 := by
  have hall : ∀ mon : Fin 12, mon ≠ 0 → ((mon - 1 : Fin 12) : ℕ) + 1 = mon := by decide
  unfold monthNumber
  split_ifs at h with hmon
  · obtain ⟨-, rfl⟩ := checked_eq_some.mp h
    subst hmon
    have hdec : ((0 - 1 : Fin 12) : ℕ) = 11 := rfl
    have hjan : ((0 : Fin 12) : ℕ) = 0 := rfl
    rw [hdec, hjan]
    push_cast
    ring
  · cases h
    have hval := hall mon hmon
    omega

theorem monthNumber_succ (h : (if mon = 11 then checked (year + 1) else some year) = some year') :
    monthNumber (mon + 1) year' = monthNumber mon year + 1 := by
  have hall : ∀ mon : Fin 12, mon ≠ 11 → ((mon + 1 : Fin 12) : ℕ) = mon + 1 := by decide
  unfold monthNumber
  split_ifs at h with hmon
  · obtain ⟨-, rfl⟩ := checked_eq_some.mp h
    subst hmon
    have hjan : ((11 + 1 : Fin 12) : ℕ) = 0 := rfl
    have hdec : ((11 : Fin 12) : ℕ) = 11 := rfl
    rw [hjan, hdec]
    push_cast
    ring
  · cases h
    rw [hall mon hmon]
    push_cast
    ring

theorem borrowLoop_eq_some (h : borrowLoop day mon year = some (day', mon', year')) :
    0 ≤ day' ∧ monthStart (monthNumber mon' year') + day' =
      monthStart (monthNumber mon year) + day := by
  induction hn : (-day).toNat using Nat.strong_induction_on generalizing day mon year with
  | _ n ih =>
    rw [borrowLoop] at h
    by_cases hneg : day < 0
    · rw [if_pos hneg] at h
      obtain ⟨y, hy, h⟩ := Option.bind_eq_some_iff.mp h
      obtain ⟨z, hz, h⟩ := Option.bind_eq_some_iff.mp h
      obtain ⟨-, rfl⟩ := checked_eq_some.mp hz
      have hpos := monthDays_pos (year0 + y) (mon - 1)
      obtain ⟨hday, hsum⟩ := ih _ (by omega) h rfl
      have hpred := monthNumber_pred hy
      have hstep := monthStart_succ (monthNumber (mon - 1) y)
      rw [hpred, Int.sub_add_cancel] at hstep
      rw [monthDays_eq, hpred] at hsum
      refine ⟨hday, ?_⟩
      rw [hsum, hstep]
      ring
    · rw [if_neg hneg] at h
      cases h
      exact ⟨Int.not_lt.mp hneg, rfl⟩

theorem carryLoop_eq_some (hday : 0 ≤ day) (h : carryLoop day mon year = some (day', mon', year')) :
    0 ≤ day' ∧ day' < lengthOfMonth (monthNumber mon' year') ∧
      year0 + year' < 2 ^ 31 ∧ monthStart (monthNumber mon' year') + day' =
        monthStart (monthNumber mon year) + day := by
  induction hn : day.toNat using Nat.strong_induction_on generalizing day mon year with
  | _ n ih =>
    rw [carryLoop] at h
    obtain ⟨z, hz, h⟩ := Option.bind_eq_some_iff.mp h
    obtain ⟨hrange, rfl⟩ := checked_eq_some.mp hz
    have hpos := monthDays_pos (year0 + year) mon
    by_cases hle : monthDays (year0 + year) mon ≤ day
    · rw [if_pos hle] at h
      obtain ⟨y, hy, h⟩ := Option.bind_eq_some_iff.mp h
      obtain ⟨hday', hlt, hyear, hsum⟩ := ih _ (by omega) (by omega) h rfl
      have hstep := monthStart_succ (monthNumber mon year)
      rw [monthNumber_succ hy, monthDays_eq, hstep] at hsum
      refine ⟨hday', hlt, hyear, ?_⟩
      rw [hsum]
      ring
    · rw [if_neg hle] at h
      cases h
      rw [monthDays_eq] at hle
      exact ⟨hday, Int.not_le.mp hle, hrange.2, rfl⟩

structure Normal.Denotes (r : Normal) (tm : TmBuf) : Prop where
  sec : 0 ≤ r.sec ∧ r.sec < 60
  min : 0 ≤ r.min ∧ r.min < 60
  hour : 0 ≤ r.hour ∧ r.hour < 24
  day : 0 ≤ r.day ∧ r.day < lengthOfMonth (monthNumber r.mon r.year)
  year : year0 + r.year < 2 ^ 31
  instant : instant tm = 86400 * (monthStart (monthNumber r.mon r.year) + r.day) +
    ((r.hour * 60 + r.min) * 60 + r.sec)

theorem normalise_denotes {r : Normal} (h : normalise tm = some r) : r.Denotes tm := by
  unfold normalise at h
  simp only [Option.bind_eq_bind, Option.pure_def, Option.bind_eq_some_iff, Prod.exists] at h
  obtain ⟨sec, min₁, hsec, min, hour₁, hmin, hour, day₁, hhour, mon₁, year₁, hmon, mday, hmday,
    day₂, hday₂, day₃, mon₃, year₃, hborrow, day, mon, year, hcarry, hr⟩ := h
  cases hr
  have hsec := carry_eq_some (by decide) hsec
  have hmin := carry_eq_some (by decide) hmin
  have hhour := carry_eq_some (by decide) hhour
  have hmon := carry_eq_some (by decide) hmon
  obtain ⟨-, rfl⟩ := checked_eq_some.mp hmday
  obtain ⟨-, rfl⟩ := checked_eq_some.mp hday₂
  obtain ⟨hday₃, hborrowed⟩ := borrowLoop_eq_some hborrow
  obtain ⟨hday, hlt, hyear, hcarried⟩ := carryLoop_eq_some hday₃ hcarry
  have hmonth : monthNumber (Fin.ofNat 12 mon₁.toNat) year₁ = 12 * tm.tmYear + tm.tmMon := by
    have hval : ((Fin.ofNat 12 mon₁.toNat : Fin 12) : ℕ) = mon₁.toNat := by
      rw [Fin.val_ofNat, Nat.mod_eq_of_lt (by omega)]
    rw [monthNumber, hval]
    omega
  rw [hmonth] at hborrowed
  refine ⟨⟨hsec.1, hsec.2.1⟩, ⟨hmin.1, hmin.2.1⟩, ⟨hhour.1, hhour.2.1⟩, ⟨hday, hlt⟩, hyear, ?_⟩
  rw [Mktime.instant]
  dsimp only
  omega

end Normalisation

section Counting

theorem yearStart_closed (year : ℤ) :
    yearStart year = (year - 1970) * 365 + ((year - 1) / 4 - 492) - ((year - 1) / 100 - 19) +
      ((year - 1) / 400 - 4) := by
  rw [yearStart_eq, daysBeforeYear, daysBeforeYear]
  omega

/-- The leap days of a period of the years since 1970, as they are counted. -/
theorem extraLeap_eq {d : ℤ} (hd : d = 4 ∨ d = 100 ∨ d = 400) (hyear : 1970 ≤ tmYear) :
    (tmYear - 1970).tdiv d + extraLeap d tmYear = (tmYear - 1) / d - 1969 / d := by
  have hdiv : (tmYear - 1970).tdiv d = (tmYear - 1970) / d :=
    Int.tdiv_eq_ediv_of_nonneg (by omega)
  have hmod : tmYear.tmod d = tmYear % d := Int.tmod_eq_emod_of_nonneg (by omega)
  have hepoch : (epochYr : ℤ).tmod d = 1970 % d := Int.tmod_eq_emod_of_nonneg (by decide)
  rw [extraLeap, hdiv, hmod, hepoch]
  rcases hd with rfl | rfl | rfl
  all_goals split_ifs <;> omega

/-- Without overflow the days are those to the first of January, and with it that day is out of
reach of the seconds. -/
theorem yearDays_spec (hlo : 1970 ≤ tmYear) (hhi : tmYear < 2 ^ 31) :
    ((yearDays tmYear).2 = false →
      (yearDays tmYear).1 = yearStart tmYear ∧ yearStart tmYear ≤ timeMax) ∧
    ((yearDays tmYear).2 = true → timeMax < 86400 * yearStart tmYear) := by
  have hyears : wrap (tmYear - epochYr) = tmYear - 1970 := by
    change wrap (tmYear - 1970) = _
    exact wrap_of_lt (by omega) (by omega)
  have hquot : timeMax.tdiv 365 = 5883516 := rfl
  have hclosed := yearStart_closed tmYear
  have hfour := extraLeap_eq (Or.inl rfl) hlo
  have hhundred := extraLeap_eq (Or.inr (Or.inl rfl)) hlo
  have hfourHundred := extraLeap_eq (Or.inr (Or.inr rfl)) hlo
  have hdiv : (tmYear - 1970).tdiv 4 = (tmYear - 1970) / 4 :=
    Int.tdiv_eq_ediv_of_nonneg (by omega)
  rw [hdiv] at hfour
  unfold yearDays
  simp only [hyears, hquot, hdiv, hfour, hhundred, hfourHundred, Bool.or_eq_false_iff,
    Bool.or_eq_true, decide_eq_false_iff_not, decide_eq_true_eq]
  by_cases hfirst : 5883516 < tmYear - 1970
  · refine ⟨fun h => absurd hfirst h.1, fun _ => ?_⟩
    unfold timeMax
    omega
  · have hdays : wrap ((tmYear - 1970) * 365) = (tmYear - 1970) * 365 :=
      wrap_of_lt (by omega) (by omega)
    have hroom : wrap (timeMax - (tmYear - 1970) * 365) = timeMax - (tmYear - 1970) * 365 := by
      unfold timeMax
      exact wrap_of_lt (by omega) (by omega)
    rw [hdays, hroom]
    constructor
    · rintro ⟨-, hsecond⟩
      unfold timeMax at hsecond ⊢
      -- The leap days are added, taken off and added again within the range.
      have hadd : wrap ((tmYear - 1970) * 365 + ((tmYear - 1) / 4 - 1969 / 4)) =
          (tmYear - 1970) * 365 + ((tmYear - 1) / 4 - 1969 / 4) :=
        wrap_of_lt (by omega) (by omega)
      have hsub : wrap ((tmYear - 1970) * 365 + ((tmYear - 1) / 4 - 1969 / 4) -
          ((tmYear - 1) / 100 - 1969 / 100)) =
          (tmYear - 1970) * 365 + ((tmYear - 1) / 4 - 1969 / 4) -
            ((tmYear - 1) / 100 - 1969 / 100) :=
        wrap_of_lt (by omega) (by omega)
      rw [hadd, hsub, wrap_of_lt (by omega) (by omega)]
      omega
    · rintro (h | hsecond)
      · exact absurd h hfirst
      · unfold timeMax at hsecond ⊢
        omega

theorem monthsLoop_eq (tmYear : ℤ) {mon : ℕ} (h : mon ≤ 12) :
    monthsLoop tmYear mon = daysBefore (isLeap tmYear) mon := by
  induction mon with
  | zero => rfl
  | succ mon ih =>
    rw [monthsLoop, ih (by omega), leapyear_eq_isLeap, ytab_eq, daysBefore_succ _ h, Nat.cast_add]
    rfl

theorem totalSeconds_spec {seconds : ℤ} (isdst : ℤ) (hday : 0 ≤ day) (hday' : day ≤ timeMax)
    (hlo : 0 ≤ seconds) (hhi : seconds < 86400) :
    (86400 * day + seconds ≤ timeMax →
      totalSeconds 0 0 isdst day seconds = (86400 * day + seconds, false)) ∧
    (timeMax < 86400 * day + seconds → (totalSeconds 0 0 isdst day seconds).2 = true) := by
  have hroom : wrap (timeMax - seconds) = timeMax - seconds := by
    unfold timeMax
    exact wrap_of_lt (by omega) (by omega)
  have hdiv : (timeMax - seconds).tdiv secsDay = (timeMax - seconds) / 86400 := by
    unfold timeMax
    exact Int.tdiv_eq_ediv_of_nonneg (by omega)
  unfold totalSeconds
  simp only [hroom, hdiv, ite_self, lt_irrefl, false_and, decide_false, Bool.or_false,
    Int.add_zero, Int.sub_zero]
  unfold timeMax at *
  constructor
  · intro hfits
    have hday : wrap (day * secsDay) = day * 86400 := by
      change wrap (day * 86400) = _
      exact wrap_of_lt (by omega) (by omega)
    have hsum : wrap (seconds + day * 86400) = seconds + day * 86400 :=
      wrap_of_lt (by omega) (by omega)
    have hquot : ¬ (2147483647 - seconds) / 86400 < day := by omega
    have hpos : ¬ seconds + day * 86400 < 0 := by omega
    rw [hday, hsum, hsum, hsum, decide_eq_false hquot, decide_eq_false hpos, Int.add_comm,
      Int.mul_comm]
    rfl
  · intro hlong
    have hquot : (2147483647 - seconds) / 86400 < day := by omega
    rw [decide_eq_true hquot, Bool.true_or]

end Counting

section Result
variable {r : Normal}

/-- The record that is left: the fields in their ranges, with the day of the week and of the
year. -/
def filled (tm : TmBuf) (r : Normal) : TmBuf := { tm with
  tmSec := r.sec
  tmMin := r.min
  tmHour := r.hour
  tmMday := r.day + 1
  tmMon := r.mon
  tmYear := r.year
  tmWday := (monthStart (monthNumber r.mon r.year) + r.day + 4) % 7
  tmYday := daysBefore (isLeap (1900 + r.year)) r.mon + r.day }

theorem monthStart_monthNumber (mon : Fin 12) (year : ℤ) :
    monthStart (monthNumber mon year) =
      yearStart (1900 + year) + daysBefore (isLeap (1900 + year)) mon := by
  rw [monthStart, yearOf_monthNumber, monthOf_monthNumber]

theorem Normal.Denotes.yday_lt (h : r.Denotes tm) :
    (daysBefore (isLeap (1900 + r.year)) r.mon : ℤ) + r.day < yearLength (1900 + r.year) := by
  have hlt := dayOfYear_lt h.day.2
  rw [yearOf_monthNumber, monthOf_monthNumber] at hlt
  exact hlt

theorem mktime_before (hn : normalise tm = some r) (hyear : r.year < 70) :
    (∃ tm', mktime 0 0 tm = some (-1, tm')) ∧ instant tm < 0 := by
  have hr := normalise_denotes hn
  have hyday := hr.yday_lt
  have hsucc := yearStart_succ (1900 + r.year)
  have hclosed := yearStart_closed (1900 + r.year + 1)
  have hstart := monthStart_monthNumber r.mon r.year
  constructor
  · have hearly : r.year < (epochYr : ℤ) - year0 := hyear
    unfold mktime
    rw [hn, Option.map_some]
    dsimp only
    rw [if_pos hearly]
    exact ⟨_, rfl⟩
  · rw [hr.instant]
    have hsec := hr.sec
    have hmin := hr.min
    have hhour := hr.hour
    omega

def Normal.days (r : Normal) : ℤ :=
  wrap ((yearDays (1900 + r.year)).1 + (daysBefore (isLeap (1900 + r.year)) r.mon + r.day))

theorem Normal.Denotes.days (h : r.Denotes tm) (hyear : 70 ≤ r.year) :
    ((yearDays (1900 + r.year)).2 = false → ¬ r.days < 0 →
      r.days = monthStart (monthNumber r.mon r.year) + r.day ∧ r.days ≤ timeMax) ∧
    ((yearDays (1900 + r.year)).2 = true ∨ r.days < 0 → timeMax < Mktime.instant tm) := by
  have hyday := h.yday_lt
  have hlength := yearLength_le (1900 + r.year)
  have hday := h.day
  have hsec := h.sec
  have hmin := h.min
  have hhour := h.hour
  have hinstant := h.instant
  have hstart := monthStart_monthNumber r.mon r.year
  have hclosed := yearStart_closed (1900 + r.year)
  have hlater : 1970 ≤ 1900 + r.year := by omega
  obtain ⟨hexact, hfar⟩ := yearDays_spec hlater h.year
  unfold Normal.days
  cases hflag : (yearDays (1900 + r.year)).2 with
  | true =>
    have hbig := hfar hflag
    refine ⟨fun hno => ?_, fun _ => ?_⟩
    · cases hno
    · unfold timeMax at *
      omega
  | false =>
    obtain ⟨hdays, hfits⟩ := hexact hflag
    rw [hdays]
    unfold timeMax wrap at *
    refine ⟨fun _ hpos => ?_, fun hneg => ?_⟩
    · omega
    · rcases hneg with hno | hneg
      · cases hno
      · omega

theorem mktime_after (hn : normalise tm = some r) (hyear : 70 ≤ r.year) :
    0 ≤ instant tm ∧ (instant tm ≤ timeMax → mktime 0 0 tm = some (instant tm, filled tm r)) ∧
      (timeMax < instant tm → ∃ tm', mktime 0 0 tm = some (-1, tm')) := by
  have hr := normalise_denotes hn
  have hday := hr.day
  have hsec := hr.sec
  have hmin := hr.min
  have hhour := hr.hour
  have hinstant := hr.instant
  have hstart := monthStart_monthNumber r.mon r.year
  have hclosed := yearStart_closed (1900 + r.year)
  have hnotEarly : ¬ r.year < (epochYr : ℤ) - year0 := Int.not_lt.mpr hyear
  have htmYear : wrap (r.year + year0) = 1900 + r.year := by
    change wrap (r.year + 1900) = _
    rw [Int.add_comm]
    exact wrap_of_lt (by omega) hr.year
  have hloop := monthsLoop_eq (1900 + r.year) (Nat.le_of_lt r.mon.isLt)
  obtain ⟨hexact, hfar⟩ := hr.days hyear
  refine ⟨by omega, ?_⟩
  unfold mktime
  rw [hn, Option.map_some]
  dsimp only
  rw [if_neg hnotEarly, htmYear, hloop, Int.add_sub_cancel, ← Normal.days]
  by_cases hover : (yearDays (1900 + r.year)).2 = true ∨ r.days < 0
  · have hflags : ((yearDays (1900 + r.year)).2 || decide (r.days < 0)) = true := by
      rw [Bool.or_eq_true, decide_eq_true_eq]
      exact hover
    rw [hflags]
    exact ⟨fun hle => absurd (hfar hover) (Int.not_lt.mpr hle), fun _ => ⟨_, rfl⟩⟩
  · rw [not_or, Bool.not_eq_true] at hover
    obtain ⟨hdays, hsmall⟩ := hexact hover.1 hover.2
    rw [hover.1, decide_eq_false hover.2]
    have hclock : 0 ≤ (r.hour * 60 + r.min) * 60 + r.sec := by omega
    obtain ⟨htotal, hlong⟩ :=
      totalSeconds_spec tm.tmIsdst (Int.not_lt.mp hover.2) hsmall hclock (by omega)
    rw [hdays] at htotal hlong ⊢
    rw [← hinstant] at htotal hlong
    constructor
    · intro hle
      have hwday : (wrap (monthStart (monthNumber r.mon r.year) + r.day + 4)).tmod 7 =
          (monthStart (monthNumber r.mon r.year) + r.day + 4) % 7 := by
        unfold timeMax at *
        rw [wrap_of_lt (by omega) (by omega)]
        exact Int.tmod_eq_emod_of_nonneg (by omega)
      rw [htotal hle, hwday]
      rfl
    · intro hgt
      rw [hlong hgt]
      exact ⟨_, rfl⟩

end Result

section Calendar
variable {r : Normal}

def Agrees (tm : TmBuf) (g : Tm) : Prop :=
  tm.tmSec = g.tmSec ∧ tm.tmMin = g.tmMin ∧ tm.tmHour = g.tmHour ∧ tm.tmMday = g.tmMday ∧
    tm.tmMon = g.tmMon ∧ tm.tmYear = g.tmYear ∧ tm.tmWday = g.tmWday ∧ tm.tmYday = g.tmYday

def ofTm (g : Tm) : TmBuf where
  tmSec := g.tmSec
  tmMin := g.tmMin
  tmHour := g.tmHour
  tmMday := g.tmMday
  tmMon := g.tmMon
  tmYear := g.tmYear
  tmWday := g.tmWday
  tmYday := g.tmYday
  tmIsdst := g.tmIsdst

def Normal.date (r : Normal) : Date := ⟨(1900 + r.year).toNat, r.mon + 1, r.day.toNat + 1⟩

theorem Normal.Denotes.valid (h : r.Denotes tm) (hyear : 70 ≤ r.year) : r.date.Valid := by
  have hmon := r.mon.isLt
  have hday := h.day
  have hcast : ((1900 + r.year).toNat : ℤ) = 1900 + r.year := by omega
  have hlength : (monthLength (1900 + r.year).toNat (r.mon + 1) : ℤ) =
      lengthOfMonth (monthNumber r.mon r.year) := by
    rw [lengthOfMonth, yearOf_monthNumber, monthOf_monthNumber, hcast]
  refine ⟨Nat.le_add_left 1 _, hmon, Nat.le_add_left 1 _, ?_⟩
  unfold Normal.date
  dsimp only
  omega

theorem Normal.Denotes.dayNumber (h : r.Denotes tm) (hyear : 70 ≤ r.year) :
    (dayNumber 1970 r.date : ℤ) = monthStart (monthNumber r.mon r.year) + r.day := by
  have hday := h.day
  have hcast : ((1900 + r.year).toNat : ℤ) - 1900 = r.year := by omega
  have hlate : 1970 ≤ r.date.year := by
    unfold Normal.date
    dsimp only
    omega
  rw [dayNumber_cast (h.valid hyear) hlate, Normal.date]
  dsimp only
  rw [hcast, Nat.add_sub_cancel, Nat.add_sub_cancel, Int.toNat_of_nonneg hday.1]
  rfl

theorem filled_agrees (hn : normalise tm = some r) (hyear : 70 ≤ r.year)
    (hle : instant tm ≤ timeMax) :
    ∃ g, gmtimeR (BitVec.ofInt 32 (instant tm)) = some g ∧ Agrees (filled tm r) g := by
  have hr := normalise_denotes hn
  have hday := hr.day
  have hsec := hr.sec
  have hmin := hr.min
  have hhour := hr.hour
  have hinstant := hr.instant
  have hnumber := hr.dayNumber hyear
  have hlate : 1970 ≤ r.date.year := by
    unfold Normal.date
    dsimp only
    omega
  have hcast : ((1900 + r.year).toNat : ℤ) = 1900 + r.year := by omega
  have htime : (instant tm).toNat = dayNumber 1970 r.date * 86400 +
      secondsOfDay r.hour.toNat r.min.toNat r.sec.toNat := by
    unfold secondsOfDay
    omega
  have hyday : (dayNumber r.date.year r.date : ℤ) =
      daysBefore (isLeap (1900 + r.year)) r.mon + r.day := by
    rw [dayNumber, Nat.sub_self, yearsLength, Nat.zero_add, Normal.date]
    dsimp only
    rw [Nat.add_sub_cancel, Nat.add_sub_cancel, hcast, Nat.cast_add,
      Int.toNat_of_nonneg hday.1]
  have hword : BitVec.ofInt 32 (instant tm) = BitVec.ofNat 32 (instant tm).toNat := by
    rw [← BitVec.ofInt_natCast, Int.toNat_of_nonneg (by omega)]
  unfold timeMax at hle
  refine ⟨civil r.date r.hour.toNat r.min.toNat r.sec.toNat, ?_, ?_⟩
  · rw [hword]
    exact gmtimeR_civil (hr.valid hyear) hlate (by omega) (by omega) (by omega) htime (by omega)
  · unfold Agrees filled civil
    dsimp only
    rw [hyday]
    refine ⟨?_, ?_, ?_, ?_, ?_, ?_, ?_, rfl⟩
    · omega
    · omega
    · omega
    · change r.day + 1 = ((r.day.toNat + 1 : ℕ) : ℤ)
      omega
    · rfl
    · change r.year = ((1900 + r.year).toNat : ℤ) - 1900
      omega
    · omega

theorem carry_of_lt (hlo : 0 ≤ low) (hhi : low < unit)
    (hfits : -2 ^ 31 ≤ high ∧ high < 2 ^ 31) : carry unit low high = some (low, high) := by
  have hdiv : low.tdiv unit = 0 := Int.tdiv_eq_zero_of_lt hlo hhi
  have hmod : low.tmod unit = low := Int.tmod_eq_of_lt hlo hhi
  have hhigh : checked high = some high := checked_eq_some.mpr ⟨hfits, rfl⟩
  rw [carry, hdiv, hmod, Int.add_zero, hhigh, Option.bind_some, if_neg (Int.not_lt.mpr hlo)]

theorem loops_of_lt (hlo : 0 ≤ day) (hhi : day < lengthOfMonth (monthNumber mon year))
    (hyear : -2 ^ 31 ≤ year0 + year ∧ year0 + year < 2 ^ 31) :
    borrowLoop day mon year = some (day, mon, year) ∧
      carryLoop day mon year = some (day, mon, year) := by
  have hchecked : checked (year0 + year) = some (year0 + year) := checked_eq_some.mpr ⟨hyear, rfl⟩
  rw [← monthDays_eq] at hhi
  constructor
  · rw [borrowLoop, if_neg (Int.not_lt.mpr hlo)]
  · rw [carryLoop, hchecked, Option.bind_some, if_neg (Int.not_le.mpr hhi)]

theorem normalise_of_ranges (mon : Fin 12) (hsec : 0 ≤ tm.tmSec ∧ tm.tmSec < 60)
    (hmin : 0 ≤ tm.tmMin ∧ tm.tmMin < 60) (hhour : 0 ≤ tm.tmHour ∧ tm.tmHour < 24)
    (hmon : tm.tmMon = (mon : ℕ)) (hlo : 1 ≤ tm.tmMday)
    (hhi : tm.tmMday ≤ lengthOfMonth (monthNumber mon tm.tmYear)) (hshort : tm.tmMday ≤ 31)
    (hyear : 70 ≤ tm.tmYear) (hyear' : year0 + tm.tmYear < 2 ^ 31) :
    normalise tm = some ⟨tm.tmSec, tm.tmMin, tm.tmHour, tm.tmMday - 1, mon, tm.tmYear⟩ := by
  have hlate : (0 : ℤ) ≤ year0 := Int.natCast_nonneg _
  have hlt := mon.isLt
  have hcarrySec : carry 60 tm.tmSec tm.tmMin = some (tm.tmSec, tm.tmMin) :=
    carry_of_lt hsec.1 hsec.2 (by omega)
  have hcarryMin : carry 60 tm.tmMin tm.tmHour = some (tm.tmMin, tm.tmHour) :=
    carry_of_lt hmin.1 hmin.2 (by omega)
  have hcarryHour : carry 24 tm.tmHour 0 = some (tm.tmHour, 0) :=
    carry_of_lt hhour.1 hhour.2 (by omega)
  have hcarryMon : carry 12 tm.tmMon tm.tmYear = some (tm.tmMon, tm.tmYear) :=
    carry_of_lt (by omega) (by omega) (by omega)
  have hmday : checked (tm.tmMday - 1) = some (tm.tmMday - 1) :=
    checked_eq_some.mpr ⟨by omega, rfl⟩
  have hindex : Fin.ofNat 12 tm.tmMon.toNat = mon := by
    apply Fin.ext
    rw [Fin.val_ofNat, hmon, Int.toNat_natCast, Nat.mod_eq_of_lt hlt]
  obtain ⟨hborrow, hcarry⟩ := loops_of_lt (show 0 ≤ tm.tmMday - 1 by omega)
    (show tm.tmMday - 1 < lengthOfMonth (monthNumber mon tm.tmYear) by omega) (by omega)
  unfold normalise
  simp only [Option.bind_eq_bind, Option.pure_def, hcarrySec, hcarryMin, hcarryHour, hcarryMon,
    hmday, Int.zero_add, hindex, hborrow, hcarry, Option.bind_some]

theorem gmtimeR_denotes {t : BitVec 32} (ht : t.toNat < 2 ^ 31) :
    ∃ g r, gmtimeR t = some g ∧ normalise (ofTm g) = some r ∧ instant (ofTm g) = t.toNat := by
  obtain ⟨d, hd, hyear, htime, hrun⟩ := gmtimeR_date t
  have hmonth := hd.month_pos
  have hmonth' := hd.month_le
  have hday := hd.day_pos
  have hday' := hd.day_le
  have hshort := monthLength_le d.year d.month
  have hnumber := dayNumber_cast hd hyear
  have hstart := monthStart_monthNumber ⟨d.month - 1, by omega⟩ ((d.year : ℤ) - 1900)
  have hclosed := yearStart_closed (1900 + ((d.year : ℤ) - 1900))
  have hlength : (monthLength d.year d.month : ℤ) =
      lengthOfMonth (monthNumber ⟨d.month - 1, by omega⟩ ((d.year : ℤ) - 1900)) := by
    rw [lengthOfMonth, yearOf_monthNumber, monthOf_monthNumber, add_sub_cancel,
      Nat.sub_add_cancel hmonth]
  unfold secondsOfDay at htime
  unfold monthNumber at hstart hlength
  dsimp only at hstart hlength
  refine ⟨_, _, hrun, normalise_of_ranges ⟨d.month - 1, by omega⟩ ?_ ?_ ?_ rfl ?_ ?_ ?_ ?_ ?_, ?_⟩
  all_goals unfold ofTm civil
  all_goals dsimp only
  · omega
  · omega
  · omega
  · omega
  · unfold monthNumber
    dsimp only
    omega
  · omega
  · omega
  · change (1900 : ℤ) + _ < _
    omega
  · unfold instant
    dsimp only
    omega

/-- What `mktime` owes an instant: -1 if a `time_t` cannot hold it, or else the instant and the
record that `gmtime_r` gives for it. -/
structure Returns (i t : ℤ) (tm : TmBuf) : Prop where
  failed : t = -1 ↔ i < 0 ∨ 2 ^ 31 - 1 < i
  agrees : 0 ≤ i → i ≤ 2 ^ 31 - 1 →
    t = i ∧ ∃ g, gmtimeR (BitVec.ofInt 32 i) = some g ∧ Agrees tm g

theorem mktime_returns (hn : normalise tm = some r) :
    ∃ t tm', mktime 0 0 tm = some (t, tm') ∧ Returns (instant tm) t tm' := by
  have hmax : timeMax = 2 ^ 31 - 1 := rfl
  by_cases hyear : r.year < 70
  · obtain ⟨⟨tm', hrun⟩, hneg⟩ := mktime_before hn hyear
    refine ⟨-1, tm', hrun, ⟨fun _ => Or.inl hneg, fun _ => rfl⟩, fun hpos => ?_⟩
    exact absurd hneg (Int.not_lt.mpr hpos)
  · obtain ⟨hpos, hfits, hlong⟩ := mktime_after hn (Int.not_lt.mp hyear)
    by_cases hle : instant tm ≤ timeMax
    · refine ⟨_, _, hfits hle, ⟨fun h => by omega, fun h => by omega⟩, fun _ _ => ⟨rfl, ?_⟩⟩
      exact filled_agrees hn (Int.not_lt.mp hyear) hle
    · obtain ⟨tm', hrun⟩ := hlong (Int.not_le.mp hle)
      refine ⟨-1, tm', hrun, ⟨fun _ => Or.inr ?_, fun _ => rfl⟩, fun _ h => absurd h hle⟩
      exact Int.not_le.mp hle

/-- In Greenwich `mktime` returns the instant its fields denote, or -1 exactly if a `time_t` cannot
hold it, for all fields whose sums do not overflow; so it is the inverse of `gmtime_r`. -/
theorem mktime_inverts_gmtimeR :
    (∀ tm r, normalise tm = some r →
      ∃ t tm', mktime 0 0 tm = some (t, tm') ∧ Returns (instant tm) t tm') ∧
    ∀ t : BitVec 32, t.toNat < 2 ^ 31 →
      ∃ g tm', gmtimeR t = some g ∧ mktime 0 0 (ofTm g) = some ((t.toNat : ℤ), tm') := by
  refine ⟨fun tm r hn => mktime_returns hn, fun t ht => ?_⟩
  obtain ⟨g, r, hg, hn, hinstant⟩ := gmtimeR_denotes ht
  obtain ⟨t', tm', hrun, hreturns⟩ := mktime_returns hn
  rw [hinstant] at hreturns
  obtain ⟨rfl, -⟩ := hreturns.agrees (by omega) (by omega)
  exact ⟨g, tm', hg, hrun⟩

def leapTm : TmBuf := ⟨-1, 0, 0, 0, 2, 100, 0, 0, 0⟩

theorem normalise_leapTm : normalise leapTm = some ⟨59, 59, 23, 27, 1, 100⟩ := by
  have hsec : carry 60 leapTm.tmSec leapTm.tmMin = some (59, -1) := by decide
  have hmin : carry 60 (-1) leapTm.tmHour = some (59, -1) := by decide
  have hhour : carry 24 (-1) 0 = some (23, -1) := by decide
  have hmon : carry 12 leapTm.tmMon leapTm.tmYear = some (2, 100) := by decide
  have hmday : checked (leapTm.tmMday - 1) = some (-1) := by decide
  have hday : checked (-1 + -1) = some (-2) := by decide
  have hyear : checked (year0 + 100) = some 2000 := by decide
  obtain ⟨hborrowed, hcarry⟩ := @loops_of_lt 1 27 100 (by decide) (by decide) (by decide)
  have hborrow : borrowLoop (-2) (Fin.ofNat 12 (2 : ℤ).toNat) 100 = some (27, 1, 100) := by
    rw [borrowLoop, if_pos (by decide), if_neg (by decide), Option.bind_some, hyear,
      Option.bind_some]
    exact hborrowed
  unfold normalise
  simp only [Option.bind_eq_bind, Option.pure_def, hsec, hmin, hhour, hmon, hmday, hday, hborrow,
    hcarry, Option.bind_some]

theorem mktime_leapTm : ∃ tm' g, mktime 0 0 leapTm = some (951782399, tm') ∧
    gmtimeR (BitVec.ofInt 32 951782399) = some g ∧ Agrees tm' g := by
  have hinstant : instant leapTm = 951782399 := by decide
  obtain ⟨t, tm', hrun, hreturns⟩ := mktime_inverts_gmtimeR.1 leapTm _ normalise_leapTm
  rw [hinstant] at hreturns
  obtain ⟨rfl, g, hg, hagrees⟩ := hreturns.agrees (by decide) (by decide)
  exact ⟨tm', g, hrun, hg, hagrees⟩

end Calendar

end Bingos.Mktime
