import Cryo.Lib.Gregorian
import Cryo.Calendar

/-!
# The dates of a listing are those of the calendar

`days_to_ymd` finds the date by divisions. Here its date is compared with the Gregorian calendar, which knows only the
leap years, the lengths of the months and the next day.

* `civilDate_valid`, `ordinal_civilDate`: a day of an era has a date, and the number of that date is the day.
* `calendar_exact`: days and timestamps as dates.
-/

namespace Cryo

open Gregorian

variable {era doe days : Int}

/-- The date of a day. -/
def civilDate (days : Int) : Date := ⟨(civil days).1, (civil days).2.1, (civil days).2.2⟩

theorem civil_eq (days : Int) :
    civil days = ((civilDate days).year, (civilDate days).month, (civilDate days).day) := by
  dsimp only [civilDate]

/-! ## Within an era -/

/-- A year of an era has a day 365 only if it ends with a leap day. -/
theorem leap_of_dayOfYear (h : 0 ≤ doe ∧ doe < 146097) (hlast : dayOfYear doe = 365) :
    Leap (yearOfEra doe + era * 400 + 1) := by
  have hbounds := yearOfEra_bounds h
  obtain ⟨y, hy⟩ : ∃ y, y = yearOfEra doe := ⟨_, rfl⟩
  unfold dayOfYear at hlast
  unfold Leap
  rw [← hy] at hlast hbounds ⊢
  unfold yearOfEra at hy
  have hfour : y % 4 = 3 := by
    by_contra hne
    -- Otherwise the divisions by 1460 and by 36524 give the years and the centuries before the day.
    have hquotient : doe / 1460 = y / 4 := by omega
    have hcentury : doe / 36524 = y / 100 := by omega
    omega
  have hcentury : y ≠ 99 ∧ y ≠ 199 ∧ y ≠ 299 := by
    refine ⟨?_, ?_, ?_⟩ <;>
    · rintro rfl
      omega
  omega

section

variable (days)

/-- The era of a day, and the day of the era. -/
def eraOf : Int := (days + 719468) / 146097

def dayOfEra : Int := (days + 719468) % 146097

theorem dayOfEra_bounds : 0 ≤ dayOfEra days ∧ dayOfEra days < 146097 := by
  unfold dayOfEra
  omega

theorem civilDate_month : 1 ≤ (civilDate days).month ∧ (civilDate days).month ≤ 12 := by
  have hmarch := marchMonth_bounds (dayOfEra_bounds days)
  show 1 ≤ (if marchMonth (dayOfEra days) < 10 then marchMonth (dayOfEra days) + 3 else marchMonth (dayOfEra days) - 9)
    ∧ (if marchMonth (dayOfEra days) < 10 then marchMonth (dayOfEra days) + 3 else marchMonth (dayOfEra days) - 9) ≤ 12
  split_ifs <;> omega

theorem civilDate_marchMonth : (civilDate days).marchMonth = marchMonth (dayOfEra days) := by
  have hmarch := marchMonth_bounds (dayOfEra_bounds days)
  unfold Date.marchMonth civilDate civil civilInEra
  rw [← dayOfEra]
  dsimp only
  split_ifs <;> omega

theorem civilDate_marchYear : (civilDate days).marchYear = yearOfEra (dayOfEra days) + eraOf days * 400 := by
  have hmarch := marchMonth_bounds (dayOfEra_bounds days)
  unfold Date.marchYear civilDate civil civilInEra
  rw [← dayOfEra, ← eraOf]
  dsimp only
  split_ifs <;> omega

theorem civilDate_day :
    (civilDate days).day = dayOfYear (dayOfEra days) - monthStart (marchMonth (dayOfEra days)) + 1 := rfl

/-- **The number of the date of a day** is the day. -/
theorem ordinal_civilDate : (civilDate days).ordinal = days := by
  have hyear := yearOfEra_bounds (dayOfEra_bounds days)
  have hday : days = eraOf days * 146097 + dayOfEra days - 719468 := by
    unfold eraOf dayOfEra
    omega
  unfold Date.ordinal
  rw [civilDate_marchYear, civilDate_marchMonth, civilDate_day]
  unfold yearStart dayOfYear
  omega

/-- **The date of a day is one**: its month has the day. -/
theorem civilDate_valid : (civilDate days).Valid := by
  have hbounds := dayOfEra_bounds days
  have hmonth := civilDate_month days
  have hmarch := marchMonth_bounds hbounds
  have hday := dayOfYear_bounds hbounds
  have hlow : monthStart (marchMonth (dayOfEra days)) ≤ dayOfYear (dayOfEra days) := by
    unfold monthStart marchMonth
    omega
  refine ⟨hmonth, ?_, ?_⟩
  · rw [civilDate_day]
    omega
  · by_cases hfebruary : marchMonth (dayOfEra days) < 11
    · have hlength := Date.monthStart_succ hmonth (by rwa [civilDate_marchMonth])
      have hhigh : dayOfYear (dayOfEra days) < monthStart (marchMonth (dayOfEra days) + 1) := by
        unfold monthStart marchMonth
        omega
      rw [civilDate_marchMonth] at hlength
      rw [civilDate_day]
      omega
    · -- February is the last month, and as long as the year is.
      have hlast : marchMonth (dayOfEra days) = 11 := by omega
      have htwo : (civilDate days).month = 2 := by
        have := civilDate_marchMonth days
        unfold Date.marchMonth at this
        split_ifs at this <;> omega
      have hyear : (civilDate days).year = yearOfEra (dayOfEra days) + eraOf days * 400 + 1 := by
        have := civilDate_marchYear days
        unfold Date.marchYear at this
        rw [if_pos (by omega)] at this
        omega
      rw [civilDate_day, hlast, htwo, hyear]
      unfold monthLength monthStart
      rw [if_pos rfl]
      by_cases hleap : dayOfYear (dayOfEra days) = 365
      · rw [if_pos (leap_of_dayOfYear hbounds hleap)]
        omega
      · split_ifs <;> omega

end

/-! ## Days and timestamps -/

theorem distance_civilDate (days : Int) : Distance epoch (civilDate days) days := by
  rw [distance_iff epoch_valid (civilDate_valid days), ordinal_civilDate]
  exact (Int.zero_add days).symm

/-- The only date at the distance of a day. -/
theorem eq_civilDate {d : Date} (hd : d.Valid) (h : Distance epoch d days) : d = civilDate days := by
  rw [distance_iff epoch_valid hd] at h
  refine Date.ordinal_injective hd (civilDate_valid days) ?_
  rw [ordinal_civilDate, h]
  exact Int.zero_add days

theorem civilDate_succ (days : Int) : civilDate (days + 1) = (civilDate days).next := by
  have hvalid := civilDate_valid days
  refine Date.ordinal_injective (civilDate_valid (days + 1)) hvalid.next ?_
  rw [ordinal_civilDate, Date.ordinal_next hvalid, ordinal_civilDate]

/-- **The conversion is exact.** A day has one date, that many days from the first of January 1970, and the day after
it the next date; and the numbers that are printed for a timestamp are a date and a time of day that denote its
seconds. -/
theorem calendar_exact :
    (∀ days : Int, days.natAbs ≤ 2 ^ 63 / 86400 → ∃ date : Date,
      daysToYmd days = .ok (date.year, date.month, date.day) ∧ date.Valid ∧ Distance epoch date days ∧
      (∀ other : Date, other.Valid → Distance epoch other days → other = date) ∧
      daysToYmd (days + 1) = .ok (date.next.year, date.next.month, date.next.day)) ∧
    ∀ secs : Nat, secs < 2 ^ 64 → -2 ^ 63 ≤ asI64 secs - asI64 secs % 86400 →
      ∃ (t : DateTime) (date : Date) (days : Int),
      formatTimestamp secs = .ok t.format ∧ dateTime secs = .ok t ∧ t.date = (date.year, date.month, date.day) ∧
      date.Valid ∧ (0 ≤ t.hour ∧ t.hour < 24) ∧ (0 ≤ t.minute ∧ t.minute < 60) ∧ (0 ≤ t.second ∧ t.second < 60) ∧
      Distance epoch date days ∧ asI64 secs = 86400 * days + 3600 * t.hour + 60 * t.minute + t.second := by
  refine ⟨fun days hdays => ?_, fun secs hsecs hstart => ?_⟩
  · have hbound : days.natAbs ≤ 106751991167300 := Nat.le_trans hdays (by decide)
    have hday : daysToYmd days = .ok (civil days) := daysToYmd_eq (by omega)
    have hnext : daysToYmd (days + 1) = .ok (civil (days + 1)) := daysToYmd_eq (by omega)
    refine ⟨civilDate days, hday, civilDate_valid days, distance_civilDate days,
      fun other hother h => eq_civilDate hother h, ?_⟩
    rw [hnext, ← civilDate_succ, civil_eq]
  · have hdate := dateTime_of_dated hsecs ((dated_iff hsecs).2 hstart)
    refine ⟨_, civilDate (asI64 secs / 86400), asI64 secs / 86400, ?_, hdate, civil_eq _, civilDate_valid _, ?_, ?_, ?_,
      distance_civilDate _, ?_⟩
    · unfold formatTimestamp
      rw [hdate]
      rfl
    all_goals dsimp only; omega

end Cryo
