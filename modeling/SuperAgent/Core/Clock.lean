import Mathlib.Data.Int.Order.Basic
import Mathlib.Algebra.Order.Ring.Int

/-!
# Times and durations

Instants are counted in nanoseconds from the first day of the calendar, and
durations are 64-bit nanoseconds: the distance of two far instants is clamped.
-/

namespace SuperAgent

/-- An instant, in nanoseconds since midnight of the first day of year one, in UTC. -/
abbrev Time := Int

/-- A length of time in nanoseconds. -/
abbrev Duration := Int64

-- There are finitely many durations, but what holds of a list of them is found out from the list.
instance (priority := high) (p : Duration → Prop) [DecidablePred p] (l : List Duration) :
    Decidable (∀ d ∈ l, p d) := List.decidableBAll p l

namespace Duration

def second : Duration := 1000000000
def minute : Duration := 60 * second
def hour : Duration := 60 * minute
def day : Duration := 24 * hour

/-- To the nearest whole second, halves away from zero, in seconds. -/
def roundSeconds (d : Duration) : Int :=
  let s : Int := (d.toInt.natAbs + 500000000) / 1000000000
  if d < 0 then -s else s

/-- To the nearest whole minute, halves away from zero, in seconds. -/
def roundMinutes (d : Duration) : Int :=
  let s : Int := (d.toInt.natAbs + 30000000000) / 60000000000 * 60
  if d < 0 then -s else s

/-- A whole number of seconds as hours, minutes and seconds, leading zeros left out. -/
def string (s : Int) : String :=
  let n := s.natAbs
  let sign := if s < 0 then "-" else ""
  let tail := toString (n % 60) ++ "s"
  if n < 60 then sign ++ tail else
    let tail := toString (n / 60 % 60) ++ "m" ++ tail
    if n < 3600 then sign ++ tail else sign ++ toString (n / 3600) ++ "h" ++ tail

end Duration

namespace Time

/-- The instant so many seconds after the first of January 1970. -/
def unix (sec : Int64) : Time := (sec + 62135596800).toInt * 1000000000

/-- The whole seconds from the first of January 1970 to an instant. -/
def toUnix (t : Time) : Int64 := Int64.ofInt (t / 1000000000) - 62135596800

/-- The nanoseconds from the first of January 1970 to an instant, wrapped beyond 64 bits. -/
def unixNano (t : Time) : Int64 := Int64.ofInt (t - unix 0)

/-- The instant so many nanoseconds after the first of January 1970. -/
def ofUnixNano (n : Int64) : Time := unix 0 + n.toInt

/-- Whether 64-bit seconds hold the whole seconds of an instant. -/
def Held (t : Time) : Prop := -2 ^ 63 ≤ t / 1000000000 ∧ t / 1000000000 < 2 ^ 63

/-- The whole milliseconds from the first of January 1970 to an instant. -/
def millis (t : Time) : Int := (t - unix 0) / 1000000

/-- The same in 64 bits. -/
def toUnixMilli (t : Time) : Int64 := Int64.ofInt t.millis

/-- Whether 64-bit milliseconds hold an instant. -/
def HeldMilli (t : Time) : Prop := -2 ^ 63 ≤ t.millis ∧ t.millis < 2 ^ 63

instance (t : Time) : Decidable t.HeldMilli := inferInstanceAs (Decidable (_ ∧ _))

/-- The time between two instants, clamped to what a duration holds. -/
def sub (t u : Time) : Duration := Int64.ofInt (max (-2 ^ 63) (min (2 ^ 63 - 1) (t - u)))

/-- The instant a duration later. -/
def add (t : Time) (d : Duration) : Time := t + d.toInt

/-- The whole microseconds of an instant, which is what a database column keeps of it. -/
def micros (t : Time) : Time := t - t % 1000

/-- Midnight of the day an instant falls in. -/
def startOfDay (t : Time) : Time := t - t % Duration.day.toInt

/-- What a column keeps is kept whole. -/
@[simp] theorem micros_micros (t : Time) : t.micros.micros = t.micros := by
  have hfloor : ∀ n : Int, n - n % 1000 - (n - n % 1000) % 1000 = n - n % 1000 := by
    intro n
    omega
  exact hfloor t

theorem micros_le (t : Time) : t.micros ≤ t := by
  have hfloor : ∀ n : Int, n - n % 1000 ≤ n := by
    intro n
    omega
  exact hfloor t

/-- Seconds are read back whole, those no calendar year is left for included. -/
@[simp] theorem toUnix_unix (sec : Int64) : (unix sec).toUnix = sec := by
  have hwhole : unix sec / 1000000000 = (sec + 62135596800).toInt :=
    Int.mul_ediv_cancel _ (by decide)
  rw [toUnix, hwhole, Int64.ofInt_toInt, Int64.add_sub_cancel]

/-- Nanoseconds that fit are read back. -/
theorem ofUnixNano_unixNano {t : Time} (hlow : -2 ^ 63 ≤ t - unix 0) (hhigh : t - unix 0 < 2 ^ 63) :
    ofUnixNano t.unixNano = t := by
  rw [ofUnixNano, unixNano, Int64.toInt_ofInt_of_le hlow hhigh]
  exact (Int.add_comm _ _).trans (Int.sub_add_cancel t (unix 0))

/-- The epoch is so many seconds after the first day of the calendar. -/
theorem seconds_of_unix_le {t : Time} (hsince : unix 0 ≤ t) :
    (62135596800 : Int) ≤ t / 1000000000 := by
  have hepoch : unix 0 = 62135596800 * 1000000000 := by decide
  rw [hepoch] at hsince
  exact Int.le_ediv_of_mul_le (by decide) hsince

/-- The Unix seconds of an instant since 1970 that 64 bits hold are not wrapped. -/
theorem toInt_toUnix {t : Time} (hheld : t.Held) (hsince : unix 0 ≤ t) :
    t.toUnix.toInt = t / 1000000000 - 62135596800 := by
  have hwrap : ∀ n : Int, 62135596800 ≤ n → n < 2 ^ 63 →
      (Int64.ofInt n - 62135596800).toInt = n - 62135596800 := by
    intro n hle hlt
    rw [Int64.toInt_sub, Int64.toInt_ofInt_of_le (by omega) (by omega)]
    exact Int.bmod_eq_of_le (show _ ≤ n - 62135596800 by omega)
      (show n - 62135596800 < _ by omega)
  exact hwrap _ (seconds_of_unix_le hsince) hheld.2

theorem toUnix_nonneg {t : Time} (hheld : t.Held) (hsince : unix 0 ≤ t) : 0 ≤ t.toUnix.toInt := by
  rw [toInt_toUnix hheld hsince]
  exact Int.sub_nonneg_of_le (seconds_of_unix_le hsince)

theorem toInt_toUnixMilli {t : Time} (h : t.HeldMilli) : t.toUnixMilli.toInt = t.millis :=
  Int64.toInt_ofInt_of_le h.1 h.2

theorem millis_mono {s t : Time} (h : s ≤ t) : s.millis ≤ t.millis :=
  Int.ediv_le_ediv (by decide) (Int.sub_le_sub_right h _)

/-- An instant between two that 64-bit milliseconds hold is held by them. -/
theorem HeldMilli.between {s t u : Time} (hs : s.HeldMilli) (hu : u.HeldMilli) (hst : s ≤ t)
    (htu : t ≤ u) : t.HeldMilli :=
  ⟨hs.1.trans (millis_mono hst), (millis_mono htu).trans_lt hu.2⟩

/-- A day begins no later than any instant of it, and later instants fall in later days. -/
theorem startOfDay_le (t : Time) : t.startOfDay ≤ t := by
  have hfloor : ∀ n : Int, n - n % Duration.day.toInt ≤ n := by
    intro n
    have hpos : 0 ≤ n % Duration.day.toInt := Int.emod_nonneg n (by decide)
    omega
  exact hfloor t

theorem startOfDay_mono {t u : Time} (h : t ≤ u) : t.startOfDay ≤ u.startOfDay := by
  have hfloor : ∀ m n : Int, m ≤ n → m - m % 86400000000000 ≤ n - n % 86400000000000 := by
    intro m n hle
    omega
  exact hfloor t u h

/-- An instant whose day has turned is before the later day's midnight. -/
theorem lt_startOfDay {t u : Time} (h : t.startOfDay < u.startOfDay) : t < u.startOfDay := by
  have hfloor : ∀ m n : Int, m - m % 86400000000000 < n - n % 86400000000000 →
      m < n - n % 86400000000000 := by
    intro m n hlt
    omega
  exact hfloor t u h

/-- The clamped difference, as an integer. -/
theorem toInt_sub (t u : Time) :
    (t.sub u).toInt = max (-2 ^ 63) (min (2 ^ 63 - 1) (t - u)) := by
  unfold sub
  apply Int64.toInt_ofInt_of_le <;> omega

/-- A clamped difference below a duration is one of the instants. -/
theorem lt_of_sub_lt {t u : Time} {d : Duration} (h : t.sub u < d) : t - u < d.toInt := by
  rw [Int64.lt_iff_toInt_lt, toInt_sub] at h
  have hmax := d.toInt_lt
  have hlarger : d.toInt > t - u := by omega
  exact hlarger

/-- A clamped difference of at least a positive duration is one of the instants. -/
theorem le_of_le_sub {t u : Time} {d : Duration} (hpos : 0 < d) (h : d ≤ t.sub u) :
    d.toInt ≤ t - u := by
  rw [Int64.le_iff_toInt_le, toInt_sub] at h
  have h0 := Int64.lt_iff_toInt_lt.mp hpos
  rw [Int64.toInt_zero] at h0
  omega

end Time

end SuperAgent
