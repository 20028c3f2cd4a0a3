import Mathlib.Algebra.BigOperators.Group.List.Basic
import SuperAgent.Core.Clock

/-!
# The calendar

Days are counted from the first of January of the year one, which is a Monday,
and every day has a date of the Gregorian calendar, with the same leap years
before its introduction and after. Numbers that are no date are carried over:
the 0th of a month is the last day of the month before.
-/

namespace SuperAgent

/-! ## Parts of a whole -/

/-- The part a position falls in, of consecutive parts of these lengths, and the place in it. -/
def locate : List Nat → Nat → Nat × Nat
  | [], n => (0, n)
  | l :: ls, n => if n < l then (0, n) else ((locate ls (n - l)).1 + 1, (locate ls (n - l)).2)

/-- A position inside the whole falls inside one of its parts. -/
theorem locate_lt {ls : List Nat} {n : Nat} (h : n < ls.sum) :
    (locate ls n).1 < ls.length ∧ (locate ls n).2 < ls.getD (locate ls n).1 0 := by
  induction ls generalizing n with
  | nil => exact absurd h (Nat.not_lt_zero n)
  | cons l ls ih =>
    rw [List.sum_cons] at h
    by_cases hn : n < l
    · simp [locate, hn]
    · obtain ⟨hpart, hplace⟩ := ih (show n - l < ls.sum by omega)
      simpa [locate, hn] using And.intro hpart hplace

/-- The parts before it and the place in it add up to the position. -/
theorem sum_take_locate {ls : List Nat} {n : Nat} :
    (ls.take (locate ls n).1).sum + (locate ls n).2 = n := by
  induction ls generalizing n with
  | nil => simp [locate]
  | cons l ls ih =>
    by_cases hn : n < l
    · simp [locate, hn]
    · have hrest := ih (n := n - l)
      simp only [locate, if_neg hn, List.take_succ_cons, List.sum_cons]
      omega

/-! ## Years and months -/

/-- A year with a 29th of February. -/
def LeapYear (year : Int) : Prop := year % 4 = 0 ∧ (year % 100 ≠ 0 ∨ year % 400 = 0)

instance (year : Int) : Decidable (LeapYear year) := inferInstanceAs (Decidable (_ ∧ _))

/-- The lengths of a year's months, in days. -/
def monthLengths (year : Int) : List Nat :=
  [31, if LeapYear year then 29 else 28, 31, 30, 31, 30, 31, 31, 30, 31, 30, 31]

/-- How many days there are before a year. -/
def daysBeforeYear (year : Int) : Int :=
  365 * (year - 1) + (year - 1) / 4 - (year - 1) / 100 + (year - 1) / 400

/-- A year is as long as its months. -/
theorem sum_monthLengths (year : Int) :
    daysBeforeYear year + (monthLengths year).sum = daysBeforeYear (year + 1) := by
  by_cases h : LeapYear year
  · have hsum : (monthLengths year).sum = 366 := by simp [monthLengths, h]
    rw [hsum]
    unfold daysBeforeYear
    unfold LeapYear at h
    omega
  · have hsum : (monthLengths year).sum = 365 := by simp [monthLengths, h]
    rw [hsum]
    unfold daysBeforeYear
    unfold LeapYear at h
    omega

/-- The year of a day. The last day of a cycle of four centuries, or of four years, belongs to
the century, or the year, before it. -/
def yearOf (day : Int) : Int :=
  let cycle := day % 146097
  let century := min (cycle / 36524) 3
  let rest := cycle - 36524 * century
  let leap := rest / 1461
  400 * (day / 146097) + 100 * century + 4 * leap + min ((rest - 1461 * leap) / 365) 3 + 1

/-- The days before a year, by the cycles, centuries, leap cycles and years before it. -/
theorem daysBeforeYear_eq {cycles century leap year : Int} (hcentury : 0 ≤ century ∧ century ≤ 3)
    (hleap : 0 ≤ leap ∧ leap ≤ 24) (hyear : 0 ≤ year ∧ year ≤ 3) :
    daysBeforeYear (400 * cycles + 100 * century + 4 * leap + year + 1) =
      146097 * cycles + 36524 * century + 1461 * leap + 365 * year := by
  unfold daysBeforeYear
  omega

/-- The quotient cut off at `most` leaves less than a whole divisor, unless it was cut off. -/
theorem min_div_bounds {n d most : Int} (hn : 0 ≤ n) (hd : 0 < d) (hmost : 0 ≤ most) :
    0 ≤ min (n / d) most ∧ min (n / d) most ≤ most ∧ 0 ≤ n - d * min (n / d) most ∧
      (min (n / d) most < most → n - d * min (n / d) most < d) := by
  have hquot : 0 ≤ n / d := Int.ediv_nonneg hn hd.le
  have hrest := Int.emod_nonneg n hd.ne'
  have hlt := Int.emod_lt_of_pos n hd
  have hsplit := Int.mul_ediv_add_emod n d
  rcases le_total (n / d) most with hle | hle
  · rw [min_eq_left hle]
    exact ⟨hquot, hle, by omega, fun _ => by omega⟩
  · rw [min_eq_right hle]
    have hcut : d * most ≤ d * (n / d) := Int.mul_le_mul_of_nonneg_left hle hd.le
    exact ⟨hmost, le_rfl, by omega, fun h => absurd h (lt_irrefl _)⟩

/-- A year is a day longer than 365 days exactly when it is the last of a leap cycle that is not
cut short by its century. -/
theorem sum_monthLengths_eq {cycles century leap year : Int} (hcentury : 0 ≤ century ∧ century ≤ 3)
    (hleap : 0 ≤ leap ∧ leap ≤ 24) (hyear : 0 ≤ year ∧ year ≤ 3) :
    (monthLengths (400 * cycles + 100 * century + 4 * leap + year + 1)).sum =
      if year = 3 ∧ (leap = 24 → century = 3) then 366 else 365 := by
  have hiff : LeapYear (400 * cycles + 100 * century + 4 * leap + year + 1) ↔
      year = 3 ∧ (leap = 24 → century = 3) := by
    unfold LeapYear
    omega
  by_cases h : year = 3 ∧ (leap = 24 → century = 3)
  · have hlong := hiff.mpr h
    rw [if_pos h]
    simp [monthLengths, hlong]
  · have hplain := mt hiff.mp h
    rw [if_neg h]
    simp [monthLengths, hplain]

/-- A day falls in its year. -/
theorem daysBeforeYear_yearOf (day : Int) :
    daysBeforeYear (yearOf day) ≤ day ∧ day < daysBeforeYear (yearOf day + 1) := by
  have hday := Int.mul_ediv_add_emod day 146097
  have hcycle := Int.emod_nonneg day (show (146097 : Int) ≠ 0 by decide)
  have hshort := Int.emod_lt_of_pos day (show (0 : Int) < 146097 by decide)
  rw [← sum_monthLengths, yearOf]
  generalize day / 146097 = cycles at *
  generalize day % 146097 = cycle at *
  -- the parts of the cycle, from the longest to the shortest, each with what it leaves
  have hcentury := @min_div_bounds cycle 36524 3 hcycle (by decide) (by decide)
  generalize min (cycle / 36524) 3 = century at *
  obtain ⟨hc0, hc3, hrest, hcut⟩ := hcentury
  obtain ⟨rest, hrestdef⟩ : ∃ n, cycle - 36524 * century = n := ⟨_, rfl⟩
  rw [hrestdef] at hrest hcut ⊢
  have hrestle : rest ≤ 36524 := by omega
  obtain ⟨leap, hleapdef⟩ : ∃ n, rest / 1461 = n := ⟨_, rfl⟩
  obtain ⟨place, hplacedef⟩ : ∃ n, rest - 1461 * leap = n := ⟨_, rfl⟩
  have hleap : 0 ≤ leap ∧ leap ≤ 24 ∧ 0 ≤ place ∧ place < 1461 := by omega
  rw [hleapdef, hplacedef]
  have hyear := @min_div_bounds place 365 3 hleap.2.2.1 (by decide) (by decide)
  generalize min (place / 365) 3 = year at *
  obtain ⟨hy0, hy3, hplace, hfull⟩ := hyear
  rw [daysBeforeYear_eq ⟨hc0, hc3⟩ ⟨hleap.1, hleap.2.1⟩ ⟨hy0, hy3⟩,
    sum_monthLengths_eq ⟨hc0, hc3⟩ ⟨hleap.1, hleap.2.1⟩ ⟨hy0, hy3⟩]
  clear hleapdef
  constructor
  · omega
  · split
    · omega
    · omega

/-! ## Dates -/

/-- A day of the calendar, its month and its day of the month counted from one. -/
structure Date where
  year : Int
  month : Nat
  day : Nat
  month_mem : 1 ≤ month ∧ month ≤ 12
  day_mem : 1 ≤ day ∧ day ≤ (monthLengths year).getD (month - 1) 0

/-- The number of a day given as year, month and day, where months and days out of their range
are carried over into the next ones or the ones before. -/
def daysOf (year month day : Int) : Int :=
  let carried := year + (month - 1) / 12
  daysBeforeYear carried + ((monthLengths carried).take ((month - 1) % 12).toNat).sum + (day - 1)

/-- The place of a day in its year. -/
def dayOfYear (day : Int) : Nat := (day - daysBeforeYear (yearOf day)).toNat

theorem dayOfYear_lt (day : Int) : dayOfYear day < (monthLengths (yearOf day)).sum := by
  have hyear := daysBeforeYear_yearOf day
  have hlong := sum_monthLengths (yearOf day)
  unfold dayOfYear
  omega

/-- The date of a day. -/
def Date.ofDays (day : Int) : Date where
  year := yearOf day
  month := (locate (monthLengths (yearOf day)) (dayOfYear day)).1 + 1
  day := (locate (monthLengths (yearOf day)) (dayOfYear day)).2 + 1
  month_mem := ⟨Nat.le_add_left _ _, (locate_lt (dayOfYear_lt day)).1⟩
  day_mem := ⟨Nat.le_add_left _ _, (locate_lt (dayOfYear_lt day)).2⟩

/-- A day is the day of its date, and further days of that month are counted from it. -/
theorem daysOf_ofDays (day more : Int) :
    daysOf (Date.ofDays day).year (Date.ofDays day).month ((Date.ofDays day).day + more) =
      day + more := by
  have hyear := daysBeforeYear_yearOf day
  have hplace := @sum_take_locate (monthLengths (yearOf day)) (dayOfYear day)
  have hmonth := (locate_lt (dayOfYear_lt day)).1
  change _ < 12 at hmonth
  unfold daysOf Date.ofDays
  simp only
  generalize (locate (monthLengths (yearOf day)) (dayOfYear day)).1 = month at *
  generalize (locate (monthLengths (yearOf day)) (dayOfYear day)).2 = rest at *
  have hcarry : (((month + 1 : Nat) : Int) - 1) / 12 = 0 := by omega
  have hkeep : ((((month + 1 : Nat) : Int) - 1) % 12).toNat = month := by omega
  have hday : (dayOfYear day : Int) = day - daysBeforeYear (yearOf day) :=
    Int.toNat_of_nonneg (by omega)
  rw [hcarry, hkeep, Int.add_zero]
  omega

namespace Time

/-- The number of the day an instant falls in. -/
def days (t : Time) : Int := t / Duration.day.toInt

/-- The date of an instant. -/
def date (t : Time) : Date := Date.ofDays t.days

/-- The day of the week of an instant, counted from Sunday. -/
def weekday (t : Time) : Int := (t.days + 1) % 7

/-- Midnight of a date. -/
def ofDate (year month day : Int) : Time := daysOf year month day * Duration.day.toInt

/-- The instant at the same time of day, so many years, months and days later. -/
def addDate (t : Time) (years months days : Int) : Time :=
  ofDate (t.date.year + years) (t.date.month + months) (t.date.day + days) + t % Duration.day.toInt

/-- The date of an instant is the date of the day it falls in. -/
theorem ofDate_date (t : Time) (more : Int) :
    ofDate t.date.year t.date.month (t.date.day + more) =
      (t.days + more) * Duration.day.toInt := by
  rw [ofDate, date, daysOf_ofDays]

/-- A time of day is kept when only days are added. -/
theorem addDate_days (t : Time) (days : Int) :
    t.addDate 0 0 days = t + days * Duration.day.toInt := by
  have hsplit := Int.ediv_mul_add_emod t Duration.day.toInt
  rw [addDate, Int.add_zero, Int.add_zero, ofDate_date, Time.days, Int.add_mul,
    Int.add_right_comm, hsplit]

end Time

end SuperAgent
