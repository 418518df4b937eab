import Mathlib.Logic.Function.Iterate
import Mathlib.Tactic.SplitIfs

/-!
# The Gregorian calendar

The proleptic calendar by its own rules: which years have a leap day, how long a month is, which date is the next one.
The distance of two dates is the number of steps from one to the other. A number for each date, by years that start in
March so that the leap day is the last day of its year, counts these steps.

* `Date.Valid`, `Date.next`, `Distance`: dates, and how far they are apart.
* `ordinal_next`, `ordinal_injective`: the number of a date.
* `distance_iff`: the distance is the difference of the numbers.
-/

namespace Gregorian

/-- A year has a leap day. -/
def Leap (y : Int) : Prop := y % 4 = 0 ∧ (y % 100 ≠ 0 ∨ y % 400 = 0)

instance (y : Int) : Decidable (Leap y) := inferInstanceAs (Decidable (_ ∧ _))

def monthLength (y m : Int) : Int :=
  if m = 2 then if Leap y then 29 else 28
  else if m = 4 ∨ m = 6 ∨ m = 9 ∨ m = 11 then 30
  else 31

structure Date where
  year : Int
  month : Int
  day : Int
  deriving DecidableEq

namespace Date

structure Valid (d : Date) : Prop where
  month : 1 ≤ d.month ∧ d.month ≤ 12
  day : 1 ≤ d.day ∧ d.day ≤ monthLength d.year d.month

def next (d : Date) : Date :=
  if d.day < monthLength d.year d.month then ⟨d.year, d.month, d.day + 1⟩
  else if d.month < 12 then ⟨d.year, d.month + 1, 1⟩
  else ⟨d.year + 1, 1, 1⟩

end Date

/-- `b` is `n` days after `a`, or `-n` days before it. -/
def Distance (a b : Date) (n : Int) : Prop :=
  (0 ≤ n ∧ Date.next^[n.toNat] a = b) ∨ (n < 0 ∧ Date.next^[(-n).toNat] b = a)

/-- The first of January 1970. -/
def epoch : Date := ⟨1970, 1, 1⟩

/-! ## The number of a date -/

/-- The days before the first of March of a year, from the first of March of the year 0. -/
def yearStart (y : Int) : Int := 365 * y + y / 4 - y / 100 + y / 400

/-- The days before a month in a year that starts in March; March is month 0. -/
def monthStart (m : Int) : Int := (153 * m + 2) / 5

namespace Date

/-- The year that starts in March. -/
def marchYear (d : Date) : Int := if d.month ≤ 2 then d.year - 1 else d.year

def marchMonth (d : Date) : Int := if d.month ≤ 2 then d.month + 9 else d.month - 3

/-- The days from the first of January 1970. -/
def ordinal (d : Date) : Int := yearStart d.marchYear + monthStart d.marchMonth + d.day - 719469

variable {d e : Date}

theorem monthLength_pos (y m : Int) : 28 ≤ monthLength y m ∧ monthLength y m ≤ 31 := by
  unfold monthLength
  split_ifs <;> omega

theorem Valid.next (h : d.Valid) : d.next.Valid := by
  obtain ⟨hmonth, hday⟩ := h
  unfold Date.next
  split_ifs with hd hm
  · exact ⟨hmonth, ⟨by dsimp only; omega, by dsimp only; omega⟩⟩
  · have := monthLength_pos d.year (d.month + 1)
    exact ⟨⟨by dsimp only; omega, by dsimp only; omega⟩, ⟨by dsimp only; omega, by dsimp only; omega⟩⟩
  · have := monthLength_pos (d.year + 1) 1
    exact ⟨⟨by dsimp only; omega, by dsimp only; omega⟩, ⟨by dsimp only; omega, by dsimp only; omega⟩⟩

/-- The year of a leap day is one day longer. -/
theorem yearStart_succ (y : Int) : yearStart (y + 1) = yearStart y + if Leap (y + 1) then 366 else 365 := by
  unfold yearStart Leap
  split_ifs <;> omega

theorem yearStart_mono {y z : Int} (h : y ≤ z) : yearStart y ≤ yearStart z := by
  unfold yearStart
  omega

/-- The days of a year that starts in March, up to a date. -/
theorem dayOfMarchYear (h : d.Valid) : 0 ≤ monthStart d.marchMonth + d.day - 1 ∧
    yearStart d.marchYear + (monthStart d.marchMonth + d.day - 1) < yearStart (d.marchYear + 1) := by
  obtain ⟨hmonth, hday⟩ := h
  rw [yearStart_succ]
  unfold monthLength at hday
  unfold monthStart marchMonth marchYear
  split_ifs at hday ⊢ <;> simp_all <;> omega

/-- **The number of the next date** is the next number. -/
theorem ordinal_next (h : d.Valid) : d.next.ordinal = d.ordinal + 1 := by
  obtain ⟨y, m, day⟩ := d
  obtain ⟨hmonth, hday⟩ := h
  dsimp only at hmonth hday
  unfold Date.next
  dsimp only
  by_cases hlast : day < monthLength y m
  · rw [if_pos hlast]
    unfold ordinal marchYear marchMonth
    dsimp only
    omega
  · have hlength : day = monthLength y m := by omega
    rw [if_neg hlast, hlength]
    by_cases hdec : m < 12
    · rw [if_pos hdec]
      -- The first of March starts the next year.
      have hyear := yearStart_succ (y - 1)
      rw [Int.sub_add_cancel] at hyear
      unfold ordinal marchYear marchMonth monthStart monthLength
      dsimp only
      obtain rfl | rfl | rfl | rfl | rfl | rfl | rfl | rfl | rfl | rfl | rfl : m = 1 ∨ m = 2 ∨ m = 3 ∨ m = 4 ∨ m = 5 ∨
          m = 6 ∨ m = 7 ∨ m = 8 ∨ m = 9 ∨ m = 10 ∨ m = 11 := by omega
      case inr.inl =>
        simp
        rw [hyear]
        split_ifs <;> omega
      all_goals simp; omega
    · obtain rfl : m = 12 := by omega
      rw [if_neg hdec]
      unfold ordinal marchYear marchMonth monthStart monthLength
      simp
      omega

theorem Valid.iterate (h : d.Valid) : ∀ n : Nat, (Date.next^[n] d).Valid ∧ (Date.next^[n] d).ordinal = d.ordinal + n
  | 0 => ⟨h, by simp⟩
  | n + 1 => by
    obtain ⟨hvalid, hordinal⟩ := h.iterate n
    rw [Function.iterate_succ_apply']
    refine ⟨hvalid.next, ?_⟩
    rw [ordinal_next hvalid, hordinal]
    omega

/-- Dates of different years, by the years that start in March. -/
theorem ordinal_lt_of_marchYear (hd : d.Valid) (he : e.Valid) (h : d.marchYear < e.marchYear) :
    d.ordinal < e.ordinal := by
  have hmono := yearStart_mono (Int.add_one_le_of_lt h)
  have hlast := (dayOfMarchYear hd).2
  have hfirst := (dayOfMarchYear he).1
  unfold ordinal
  omega

/-- A month ends where the next one starts. -/
theorem monthStart_succ (h : 1 ≤ d.month ∧ d.month ≤ 12) (hmarch : d.marchMonth < 11) :
    monthStart (d.marchMonth + 1) = monthStart d.marchMonth + monthLength d.year d.month := by
  unfold marchMonth at hmarch ⊢
  obtain h | h | h | h | h | h | h | h | h | h | h | h : d.month = 1 ∨ d.month = 2 ∨ d.month = 3 ∨ d.month = 4 ∨
      d.month = 5 ∨ d.month = 6 ∨ d.month = 7 ∨ d.month = 8 ∨ d.month = 9 ∨ d.month = 10 ∨ d.month = 11 ∨
      d.month = 12 := by omega
  case inr.inl => simp [h] at hmarch
  all_goals simp [h, monthStart, monthLength]

theorem ordinal_lt_of_marchMonth (hd : d.Valid) (he : e.Valid) (hyear : d.marchYear = e.marchYear)
    (h : d.marchMonth < e.marchMonth) : d.ordinal < e.ordinal := by
  have hmonth : e.marchMonth ≤ 11 := by
    have := he.month
    unfold marchMonth
    split_ifs <;> omega
  have hlength := monthStart_succ hd.month (by omega)
  have hday := hd.day
  have hfirst := he.day
  have hmono : monthStart (d.marchMonth + 1) ≤ monthStart e.marchMonth := by
    unfold monthStart
    omega
  unfold ordinal
  rw [hyear]
  omega

/-- **Two dates have two numbers.** -/
theorem ordinal_injective (hd : d.Valid) (he : e.Valid) (h : d.ordinal = e.ordinal) : d = e := by
  have hyear : d.marchYear = e.marchYear := by
    rcases Int.lt_trichotomy d.marchYear e.marchYear with hlt | heq | hlt
    · exact absurd h (Int.ne_of_lt (ordinal_lt_of_marchYear hd he hlt))
    · exact heq
    · exact absurd h.symm (Int.ne_of_lt (ordinal_lt_of_marchYear he hd hlt))
  have hmonth : d.marchMonth = e.marchMonth := by
    rcases Int.lt_trichotomy d.marchMonth e.marchMonth with hlt | heq | hlt
    · exact absurd h (Int.ne_of_lt (ordinal_lt_of_marchMonth hd he hyear hlt))
    · exact heq
    · exact absurd h.symm (Int.ne_of_lt (ordinal_lt_of_marchMonth he hd hyear.symm hlt))
  have hday : d.day = e.day := by
    unfold ordinal at h
    rw [hyear, hmonth] at h
    omega
  have hd' := hd.month
  have he' := he.month
  obtain ⟨y, m, day⟩ := d
  obtain ⟨y', m', day'⟩ := e
  unfold marchYear at hyear
  unfold marchMonth at hmonth
  dsimp only at *
  obtain rfl : m = m' := by split_ifs at hmonth <;> omega
  obtain rfl : y = y' := by split_ifs at hyear <;> omega
  rw [hday]

end Date

/-! ## Distances -/

theorem epoch_valid : epoch.Valid := ⟨by decide, by decide⟩

/-- **The distance of two dates** is the difference of their numbers. -/
theorem distance_iff {a b : Date} (ha : a.Valid) (hb : b.Valid) {n : Int} :
    Distance a b n ↔ b.ordinal = a.ordinal + n := by
  constructor
  · rintro (⟨hn, rfl⟩ | ⟨hn, rfl⟩)
    · rw [(ha.iterate n.toNat).2]
      omega
    · rw [(hb.iterate (-n).toNat).2]
      omega
  · intro h
    rcases Int.lt_or_le n 0 with hn | hn
    · obtain ⟨hvalid, hordinal⟩ := hb.iterate (-n).toNat
      exact .inr ⟨hn, Date.ordinal_injective hvalid ha (by omega)⟩
    · obtain ⟨hvalid, hordinal⟩ := ha.iterate n.toNat
      exact .inl ⟨hn, Date.ordinal_injective hvalid hb (by omega)⟩

end Gregorian
