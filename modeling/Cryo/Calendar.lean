import Cryo.Lib.Act
import Cryo.Lib.Checked

/-!
# The dates of a listing

`format_timestamp` and `days_to_ymd` of `list.rs`: the timestamp of an entry as a signed number of seconds, its day and
its time, and the date of the day by eras of 400 years that start on the first of March. Every operation on an `i64` is
checked.

* `daysToYmd_eq`: no operation on a day that a timestamp has overflows, and the divisions are the plain ones of `civil`.
* `dateTime_of_dated`, `dateTime_of_not_dated`: the start of the day fits except on the first day that an `i64` can
  denote.
-/

namespace Cryo

open Checked

/-! ## The code -/

/-- `as i64` on an unsigned number. -/
def asI64 (n : Nat) : Int := (n : Int).bmod (2 ^ 64)

/-- The date of day `doe` of an era; years start in March. -/
def ymdInEra (era doe : Int) : Except Overflow (Int × Int × Int) := do
  let yoe := (← subI (← addI (← subI doe (doe.tdiv 1460)) (doe.tdiv 36524)) (doe.tdiv 146096)).tdiv 365
  let y ← addI yoe (← mulI era 400)
  let doy ← subI doe (← subI (← addI (← mulI 365 yoe) (yoe.tdiv 4)) (yoe.tdiv 100))
  let mp := (← addI (← mulI 5 doy) 2).tdiv 153
  let d ← addI (← subI doy ((← addI (← mulI 153 mp) 2).tdiv 5)) 1
  let mo ← (if mp < 10 then addI mp 3 else subI mp 9)
  let y ← (if mo ≤ 2 then addI y 1 else .ok y)
  .ok (y, mo, d)

def daysToYmd (days : Int) : Except Overflow (Int × Int × Int) := do
  let z ← addI days 719468
  let shifted ← (if 0 ≤ z then .ok z else subI z 146096)
  let era := shifted.tdiv 146097
  let doe ← subI z (← mulI era 146097)
  ymdInEra era doe

/-- `{:0w}`: zeros between the sign and the digits. -/
def zeroPad (w : Nat) (n : Int) : String :=
  let digits := toString n.natAbs
  if n < 0 then "-" ++ "".pushn '0' (w - 1 - digits.length) ++ digits
  else "".pushn '0' (w - digits.length) ++ digits

/-- The six numbers of a date and a time. -/
structure DateTime where
  date : Int × Int × Int
  hour : Int
  minute : Int
  second : Int

def DateTime.format (t : DateTime) : String :=
  zeroPad 4 t.date.1 ++ "-" ++ zeroPad 2 t.date.2.1 ++ "-" ++ zeroPad 2 t.date.2.2 ++ " " ++ zeroPad 2 t.hour ++ ":"
    ++ zeroPad 2 t.minute ++ ":" ++ zeroPad 2 t.second

/-- The numbers that `format_timestamp` prints. -/
def dateTime (secs : Nat) : Except Overflow DateTime := do
  let s := asI64 secs
  let time := s % 86400
  let days := (← subI s time).tdiv 86400
  let date ← daysToYmd days
  .ok ⟨date, time.tdiv 3600, (time.tmod 3600).tdiv 60, time.tmod 60⟩

def formatTimestamp (secs : Nat) : Except Overflow String := do
  let t ← dateTime secs
  .ok t.format

/-! ## Without the checks -/

/-- The year of an era that its day `doe` is in. -/
def yearOfEra (doe : Int) : Int := (doe - doe / 1460 + doe / 36524 - doe / 146096) / 365

/-- The day of that year. -/
def dayOfYear (doe : Int) : Int := doe - (365 * yearOfEra doe + yearOfEra doe / 4 - yearOfEra doe / 100)

/-- The month of that year, from March on. -/
def marchMonth (doe : Int) : Int := (5 * dayOfYear doe + 2) / 153

def civilInEra (era doe : Int) : Int × Int × Int :=
  let month := if marchMonth doe < 10 then marchMonth doe + 3 else marchMonth doe - 9
  let year := yearOfEra doe + era * 400
  (if month ≤ 2 then year + 1 else year, month, dayOfYear doe - (153 * marchMonth doe + 2) / 5 + 1)

/-- The date of a day, counted from the first of January 1970. -/
def civil (days : Int) : Int × Int × Int := civilInEra ((days + 719468) / 146097) ((days + 719468) % 146097)

section

variable {era doe days : Int}

theorem yearOfEra_bounds (h : 0 ≤ doe ∧ doe < 146097) : 0 ≤ yearOfEra doe ∧ yearOfEra doe < 400 := by
  unfold yearOfEra
  omega

theorem dayOfYear_bounds (h : 0 ≤ doe ∧ doe < 146097) : 0 ≤ dayOfYear doe ∧ dayOfYear doe < 366 := by
  obtain ⟨y, hy⟩ : ∃ y, y = yearOfEra doe := ⟨_, rfl⟩
  unfold dayOfYear
  rw [← hy]
  unfold yearOfEra at hy
  by_cases hlast : doe = 146096
  · omega
  · -- the year is in the century of the day
    have hyear : y / 100 = doe / 36524 := by omega
    have hcentury : doe / 36524 = 0 ∨ doe / 36524 = 1 ∨ doe / 36524 = 2 ∨ doe / 36524 = 3 := by omega
    rw [hyear]
    rcases hcentury with hc | hc | hc | hc <;> rw [hc] at hyear ⊢ <;> omega

theorem marchMonth_bounds (h : 0 ≤ doe ∧ doe < 146097) : 0 ≤ marchMonth doe ∧ marchMonth doe < 12 := by
  have := dayOfYear_bounds h
  unfold marchMonth
  omega

/-- A day of an era has its date. -/
theorem ymdInEra_eq (h : 0 ≤ doe ∧ doe < 146097) (hera : -2 ^ 40 ≤ era ∧ era ≤ 2 ^ 40) :
    ymdInEra era doe = .ok (civilInEra era doe) := by
  have hy := yearOfEra_bounds h
  have hd := dayOfYear_bounds h
  have hm := marchMonth_bounds h
  -- no dividend is negative
  have hyoe : (doe - doe / 1460 + doe / 36524 - doe / 146096).tdiv 365 = yearOfEra doe :=
    Int.tdiv_eq_ediv_of_nonneg (by omega)
  have hdoy : doe - (365 * yearOfEra doe + yearOfEra doe / 4 - yearOfEra doe / 100) = dayOfYear doe := rfl
  have hmp : (5 * dayOfYear doe + 2).tdiv 153 = marchMonth doe := Int.tdiv_eq_ediv_of_nonneg (by omega)
  have hday : (153 * marchMonth doe + 2).tdiv 5 = (153 * marchMonth doe + 2) / 5 :=
    Int.tdiv_eq_ediv_of_nonneg (by omega)
  have hmo : (if marchMonth doe < 10 then addI (marchMonth doe) 3 else subI (marchMonth doe) 9)
      = .ok (if marchMonth doe < 10 then marchMonth doe + 3 else marchMonth doe - 9) := by
    rw [addI_of (by omega), subI_of (by omega), ite_ok]
  unfold ymdInEra
  simp only [Int.tdiv_eq_ediv_of_nonneg h.1]
  rw [subI_of (by omega), Except.ok_bind, addI_of (by omega), Except.ok_bind, subI_of (by omega), Except.ok_bind]
  simp only [hyoe, Int.tdiv_eq_ediv_of_nonneg hy.1]
  rw [mulI_of (by omega), Except.ok_bind, addI_of (by omega), Except.ok_bind, mulI_of (by omega), Except.ok_bind,
    addI_of (by omega), Except.ok_bind, subI_of (by omega), Except.ok_bind, subI_of (by omega), Except.ok_bind, hdoy,
    mulI_of (by omega), Except.ok_bind, addI_of (by omega), Except.ok_bind]
  simp only [hmp]
  rw [mulI_of (by omega), Except.ok_bind, addI_of (by omega), Except.ok_bind, hday, subI_of (by omega),
    Except.ok_bind, addI_of (by omega), Except.ok_bind, hmo, Except.ok_bind, addI_of (by omega), ite_ok]
  rfl

/-- **No day overflows** that a timestamp can have. -/
theorem daysToYmd_eq (h : -(2 ^ 50) ≤ days ∧ days ≤ 2 ^ 50) : daysToYmd days = .ok (civil days) := by
  obtain ⟨z, hz⟩ : ∃ z, z = days + 719468 := ⟨_, rfl⟩
  have hshift : (if 0 ≤ z then .ok z else subI z 146096 : Except Overflow Int)
      = .ok (if 0 ≤ z then z else z - 146096) := by
    split
    · rfl
    · exact subI_of (by omega)
  -- truncation of the shifted day is rounding down
  have hera : (if 0 ≤ z then z else z - 146096).tdiv 146097 = z / 146097 := by
    split
    · exact Int.tdiv_eq_ediv_of_nonneg ‹_›
    · have hneg : (z - 146096).tdiv 146097 = -((146096 - z) / 146097) := by
        rw [← Int.neg_sub, Int.neg_tdiv, Int.tdiv_eq_ediv_of_nonneg (by omega)]
      omega
  have hdoe : z - z / 146097 * 146097 = z % 146097 := by omega
  unfold daysToYmd
  rw [addI_of (by omega), Except.ok_bind, ← hz, hshift, Except.ok_bind]
  simp only [hera]
  rw [mulI_of (by omega), Except.ok_bind, subI_of (by omega), Except.ok_bind, hdoe,
    ymdInEra_eq (by omega) (by omega), hz]
  rfl

/-- A leap day, and the day before the epoch. -/
example : daysToYmd 11016 = .ok (2000, 2, 29) ∧ daysToYmd (-1) = .ok (1969, 12, 31) := by decide

/-- The start of the day of a timestamp fits into 64 bits: it is not in the first seconds that an `i64` can denote. -/
def Dated (secs : Nat) : Prop := ¬ (2 ^ 63 ≤ secs ∧ secs < 2 ^ 63 + 55808)

variable {secs : Nat}

theorem asI64_eq (h : secs < 2 ^ 64) : asI64 secs = if secs < 2 ^ 63 then (secs : Int) else (secs : Int) - 2 ^ 64 := by
  unfold asI64
  rw [Int.bmod_def]
  omega

theorem asI64_bounds (h : secs < 2 ^ 64) : -2 ^ 63 ≤ asI64 secs ∧ asI64 secs < 2 ^ 63 := by
  rw [asI64_eq h]
  omega

theorem dated_iff (h : secs < 2 ^ 64) : Dated secs ↔ -2 ^ 63 ≤ asI64 secs - asI64 secs % 86400 := by
  unfold Dated
  rw [asI64_eq h]
  omega

/-- **A timestamp is split without overflow** when it is dated. -/
theorem dateTime_of_dated (h : secs < 2 ^ 64) (hdated : Dated secs) : dateTime secs = .ok
    ⟨civil (asI64 secs / 86400), asI64 secs % 86400 / 3600, asI64 secs % 86400 % 3600 / 60, asI64 secs % 86400 % 60⟩ := by
  have hs := asI64_bounds h
  have hstart := (dated_iff h).1 hdated
  have htime : 0 ≤ asI64 secs % 86400 := by omega
  have hsub : subI (asI64 secs) (asI64 secs % 86400) = .ok (asI64 secs - asI64 secs % 86400) :=
    subI_of ⟨hstart, by omega⟩
  have hday : (asI64 secs - asI64 secs % 86400).tdiv 86400 = asI64 secs / 86400 := by
    rw [show asI64 secs - asI64 secs % 86400 = asI64 secs / 86400 * 86400 by omega]
    exact Int.mul_tdiv_cancel _ (by omega)
  unfold dateTime
  dsimp only
  rw [hsub, Except.ok_bind, hday, daysToYmd_eq (by omega), Except.ok_bind,
    Int.tdiv_eq_ediv_of_nonneg htime, Int.tmod_eq_emod_of_nonneg htime,
    Int.tmod_eq_emod_of_nonneg htime, Int.tdiv_eq_ediv_of_nonneg (by omega)]

theorem dateTime_of_not_dated (h : secs < 2 ^ 64) (hdated : ¬ Dated secs) : dateTime secs = .error .sub := by
  rw [dated_iff h] at hdated
  have hsub : subI (asI64 secs) (asI64 secs % 86400) = .error .sub :=
    i64_error fun hfits => hdated hfits.1
  unfold dateTime
  dsimp only
  rw [hsub, Except.error_bind]

theorem formatTimestamp_of_dated (h : secs < 2 ^ 64) (hdated : Dated secs) :
    ∃ text, formatTimestamp secs = .ok text := by
  unfold formatTimestamp
  rw [dateTime_of_dated h hdated]
  exact ⟨_, rfl⟩

theorem formatTimestamp_of_not_dated (h : secs < 2 ^ 64) (hdated : ¬ Dated secs) :
    formatTimestamp secs = .error .sub := by
  unfold formatTimestamp
  rw [dateTime_of_not_dated h hdated, Except.error_bind]

end

end Cryo
