import SuperAgent.Core.Calendar
import SuperAgent.Platform.Prize

/-!
# The week's clocks

Fees, boards, risk and prizes are all counted by weeks that begin on Monday at
midnight UTC. The contract and the desk count weeks from the epoch, the ledger
goes back to the last Monday by the calendar, and the risk screen goes through
the desk's index. They agree on every instant since the epoch.
-/

namespace SuperAgent.Platform

open Contract (Week)

/-- The first second of a week index. -/
def weekStart (week : Week) : Time := Time.unix (Int64.ofBitVec week * 7 * 86400 - 3 * 86400)

/-- The Monday the ledger's boards go back to. -/
def weekStartOf (t : Time) : Time :=
  let days := (t.weekday + 6) % 7
  let d := Time.ofDate t.date.year t.date.month t.date.day
  d.addDate 0 0 (-days)

/-- The day the risk screen reports on. -/
def startOfDay (now : Time) : Time := Time.ofDate now.date.year now.date.month now.date.day

/-- The week the risk screen reports on. -/
def startOfWeek (now : Time) : Time := weekStart (weekOf now.toUnix.toInt)

/-- The second since the epoch that a week index begins at, before the epoch for the first. -/
def weekSecond (week : Week) : Int := 7 * 86400 * week.toNat - 3 * 86400

/-! ## By the calendar -/

/-- The date's midnight is where the day begins. -/
theorem startOfDay_eq (t : Time) : startOfDay t = t.startOfDay := by
  have hdate := Time.ofDate_date t 0
  rw [Int.add_zero, Int.add_zero] at hdate
  have hsplit := Int.ediv_mul_add_emod t Duration.day.toInt
  rw [startOfDay, hdate, Time.days, Time.startOfDay]
  exact eq_sub_of_add_eq hsplit

/-- The calendar's Monday begins a whole number of weeks after the first of all. -/
theorem weekStartOf_eq (t : Time) :
    weekStartOf t = (t.days - t.days % 7) * Duration.day.toInt := by
  have hdate := Time.ofDate_date t 0
  rw [Int.add_zero, Int.add_zero] at hdate
  have hdays : (t.weekday + 6) % 7 = t.days % 7 := by
    unfold Time.weekday
    omega
  simp only [weekStartOf, hdays, hdate, Time.addDate_days]
  rw [← Int.add_mul]
  rfl

/-! ## By the index -/

/-- The desk's week of a second since the epoch. -/
theorem weekOf_toNat {unix : Int} (hsince : 0 ≤ unix) (hlt : unix < 2 ^ 63) :
    ((weekOf unix).toNat : Int) = (unix + 3 * 86400) / (7 * 86400) := by
  have hquot : (unix + 3 * 86400).tdiv (7 * 86400) = (unix + 3 * 86400) / (7 * 86400) :=
    Int.tdiv_eq_ediv_of_nonneg (by omega)
  rw [weekOf, hquot, BitVec.toNat_ofInt]
  omega

/-- A week's first second, in 64 bits, is not wrapped. -/
theorem weekStart_eq (week : Week) : weekStart week = Time.unix (Int64.ofInt (weekSecond week)) := by
  have hweek : Int64.ofBitVec week = Int64.ofInt week.toNat := by
    apply Int64.toBitVec_inj.mp
    rw [Int64.toBitVec_ofInt, BitVec.ofInt_natCast, BitVec.ofNat_toNat, BitVec.setWidth_eq,
      Int64.toBitVec_ofBitVec]
  have hmul : Int64.ofInt week.toNat * 7 * 86400 = Int64.ofInt (7 * 86400 * week.toNat) := by
    rw [Int64.mul_assoc, Int64.mul_comm, Int64.ofInt_mul]
    rfl
  rw [weekStart, hweek, hmul, weekSecond, Int64.ofInt_sub]
  rfl

theorem weekSecond_toInt {week : Week} (hlt : weekSecond week < 2 ^ 63) :
    (Int64.ofInt (weekSecond week)).toInt = weekSecond week := by
  unfold weekSecond at hlt ⊢
  exact Int64.toInt_ofInt_of_le (by omega) (by omega)

/-- A week that begins at an instant whose seconds 64 bits hold begins whole weeks after the
first Monday of all. -/
theorem weekStart_held {week : Week} (hlt : weekSecond week + 62135596800 < 2 ^ 63) :
    weekStart week = (week.toNat + 102737 : Int) * 604800 * 1000000000 := by
  have hadd : Int64.ofInt (weekSecond week) + 62135596800 =
      Int64.ofInt (weekSecond week + 62135596800) := by
    rw [Int64.ofInt_add]
    rfl
  rw [weekStart_eq, Time.unix, hadd]
  unfold weekSecond at hlt ⊢
  rw [Int64.toInt_ofInt_of_le (by omega) (by omega)]
  have hshift : ∀ n : Int, (7 * 86400 * n - 3 * 86400 + 62135596800) * 1000000000 =
      (n + 102737) * 604800 * 1000000000 := by
    intro n
    omega
  exact hshift _

/-- The desk's index of an instant since the epoch counts its weeks from the first Monday of
all. -/
theorem weekOf_toUnix {t : Time} (hheld : t.Held) (hsince : Time.unix 0 ≤ t) :
    ((weekOf t.toUnix.toInt).toNat : Int) = t / 1000000000 / 604800 - 102737 := by
  have hunix := Time.toInt_toUnix hheld hsince
  have hlt := Int64.toInt_lt t.toUnix
  have hcount : ∀ s : Int, (s - 62135596800 + 3 * 86400) / (7 * 86400) = s / 604800 - 102737 := by
    intro s
    omega
  rw [weekOf_toNat (Time.toUnix_nonneg hheld hsince) hlt, hunix, hcount]

/-- The week an instant is counted in by the desk is the week its calendar date falls in. -/
theorem weekStart_weekOf {t : Time} (hheld : t.Held) (hsince : Time.unix 0 ≤ t) :
    weekStart (weekOf t.toUnix.toInt) = weekStartOf t := by
  have hindex := weekOf_toUnix hheld hsince
  have hbegins : weekSecond (weekOf t.toUnix.toInt) + 62135596800 < 2 ^ 63 := by
    have hbelow : ∀ s n : Int, s < 2 ^ 63 → n = s / 604800 - 102737 →
        7 * 86400 * n - 3 * 86400 + 62135596800 < 2 ^ 63 := by
      intro s n hs hn
      omega
    exact hbelow _ _ hheld.2 hindex
  have hfloor : ∀ n : Int, n / 1000000000 / 604800 * 604800 * 1000000000 =
      (n / 86400000000000 - n / 86400000000000 % 7) * 86400000000000 := by
    intro n
    omega
  rw [weekStart_held hbegins, weekStartOf_eq, hindex, Int.sub_add_cancel]
  exact hfloor t

/-- An instant falls in its calendar week. -/
theorem weekStartOf_bounds (t : Time) :
    weekStartOf t ≤ t ∧ t < weekStartOf t + 7 * Duration.day.toInt := by
  have hfloor : ∀ n : Int, (n / 86400000000000 - n / 86400000000000 % 7) * 86400000000000 ≤ n ∧
      n < (n / 86400000000000 - n / 86400000000000 % 7) * 86400000000000 + 7 * 86400000000000 := by
    intro n
    omega
  rw [weekStartOf_eq]
  exact hfloor t

/-- A week ends where the next one begins. -/
theorem weekStart_succ {week : Week} (hsucc : week.toNat + 1 < 2 ^ 64)
    (hlt : weekSecond (week + 1) + 62135596800 < 2 ^ 63) :
    weekStart (week + 1) = weekStart week + 7 * Duration.day.toInt := by
  have hindex : (week + 1).toNat = week.toNat + 1 := BitVec.toNat_add_of_lt hsucc
  have hbefore : weekSecond week + 62135596800 < 2 ^ 63 := by
    unfold weekSecond at hlt ⊢
    omega
  rw [weekStart_held hlt, weekStart_held hbefore, hindex]
  have hnext : ∀ n : Nat, ((n + 1 : Nat) + 102737 : Int) * 604800 * 1000000000 =
      (n + 102737 : Int) * 604800 * 1000000000 + 7 * 86400000000000 := by
    intro n
    omega
  exact hnext _

/-- The contract and the desk put a second since the epoch into the same week. -/
theorem contract_weekOf {unix : Int64} (hsince : 0 ≤ unix.toInt) :
    Contract.weekOf unix.toBitVec = .ok (weekOf unix.toInt) := by
  have hlt := Int64.toInt_lt unix
  have hbits : (unix.toBitVec.toNat : Int) = unix.toInt := by
    have htwos : unix.toInt = _ := BitVec.toInt_eq_toNat_cond unix.toBitVec
    split at htwos
    · exact htwos.symm
    · have hwidth := unix.toBitVec.isLt
      omega
  have hweek := weekOf_toNat hsince hlt
  exact Contract.weekOf_eq_ok.mpr ⟨by omega, by omega⟩

/-- The index of a week's first second is the week. -/
theorem weekOf_weekSecond (week : Week) : weekOf (weekSecond week) = week := by
  have hwhole : weekSecond week + 3 * 86400 = 7 * 86400 * (week.toNat : Int) :=
    Int.sub_add_cancel _ _
  rw [weekOf, hwhole, Int.mul_tdiv_cancel_left _ (by decide), BitVec.ofInt_natCast,
    BitVec.ofNat_toNat, BitVec.setWidth_eq]

/-- The contract's first second of a week is the desk's, from the second week on. -/
theorem contract_weekStart {week : Week} (hweek : 1 ≤ week) (hlt : weekSecond week < 2 ^ 64) :
    ∃ start, Contract.weekStart week = .ok start ∧ (start.toNat : Int) = weekSecond week := by
  have hone : 1 ≤ week.toNat := BitVec.le_def.mp hweek
  unfold weekSecond at hlt ⊢
  have hstart : (BitVec.ofNat 64 (week.toNat * 604800 - 259200)).toNat =
      week.toNat * 604800 - 259200 := by
    rw [BitVec.toNat_ofNat, Nat.mod_eq_of_lt (by omega)]
  refine ⟨BitVec.ofNat 64 (week.toNat * 604800 - 259200),
    Contract.weekStart_eq_ok.mpr ⟨?_, ?_⟩, ?_⟩
  · omega
  · omega
  · omega

/-- The rows a settlement reads, those between the first seconds of its week and of the next, are
the rows of the instants that the desk counts in that week. -/
theorem mem_week_iff {t : Time} (hheld : t.Held) (hsince : Time.unix 0 ≤ t) {week : Week}
    (hsucc : week.toNat + 1 < 2 ^ 64) (hlt : weekSecond (week + 1) + 62135596800 < 2 ^ 63) :
    weekStart week ≤ t ∧ t < weekStart (week + 1) ↔ weekOf t.toUnix.toInt = week := by
  have hindex := weekOf_toUnix hheld hsince
  have hnext : (week + 1).toNat = week.toNat + 1 := BitVec.toNat_add_of_lt hsucc
  have hbefore : weekSecond week + 62135596800 < 2 ^ 63 := by
    unfold weekSecond at hlt ⊢
    omega
  have hcount : ∀ n k : Int,
      (k + 102737) * 604800 * 1000000000 ≤ n ∧ n < (k + 1 + 102737) * 604800 * 1000000000 ↔
        n / 1000000000 / 604800 - 102737 = k := by
    intro n k
    omega
  have hweek : weekOf t.toUnix.toInt = week ↔ t / 1000000000 / 604800 - 102737 = week.toNat := by
    rw [← hindex, Nat.cast_inj, BitVec.toNat_inj]
  rw [weekStart_held hbefore, weekStart_held hlt, hnext, hweek]
  exact hcount t week.toNat

/-- The four week clocks agree: the desk's index begins where the ledger and the risk screen say
the week does, it is the contract's index, and an instant lies between the beginnings of its week
and of the next. Going from an index to its first second and back leads to the same index, on
chain and off chain. -/
theorem week_clocks_agree :
    (∀ t : Time, t.Held → Time.unix 0 ≤ t →
      weekStartOf t = startOfWeek t ∧ startOfWeek t = weekStart (weekOf t.toUnix.toInt) ∧
      Contract.weekOf t.toUnix.toBitVec = .ok (weekOf t.toUnix.toInt) ∧
      weekStart (weekOf t.toUnix.toInt) ≤ t ∧
      (weekSecond (weekOf t.toUnix.toInt + 1) + 62135596800 < 2 ^ 63 →
        t < weekStart (weekOf t.toUnix.toInt + 1))) ∧
    (∀ w : Week, weekSecond w < 2 ^ 63 → weekOf (weekStart w).toUnix.toInt = w) ∧
    (∀ w : Week, 1 ≤ w → weekSecond w < 2 ^ 64 →
      ∃ start, Contract.weekStart w = .ok start ∧ (start.toNat : Int) = weekSecond w ∧
        Contract.weekOf start = .ok w) := by
  refine ⟨fun t hheld hsince => ?_, fun w hlt => ?_, fun w hw hlt => ?_⟩
  · have hcalendar := weekStart_weekOf hheld hsince
    have hindex := weekOf_toUnix hheld hsince
    obtain ⟨hle, hend⟩ := weekStartOf_bounds t
    have hpos := Time.toUnix_nonneg hheld hsince
    refine ⟨hcalendar.symm, rfl, contract_weekOf hpos, hcalendar ▸ hle, fun hlt => ?_⟩
    have hsucc : (weekOf t.toUnix.toInt).toNat + 1 < 2 ^ 64 := by
      have hunix := Int64.toInt_lt t.toUnix
      have hquot := weekOf_toNat hpos hunix
      omega
    rw [weekStart_succ hsucc hlt, hcalendar]
    exact hend
  · rw [weekStart_eq, Time.toUnix_unix, weekSecond_toInt hlt]
    exact weekOf_weekSecond w
  · obtain ⟨start, hstart, hsecond⟩ := contract_weekStart hw hlt
    obtain ⟨hfirst, -⟩ := Contract.weekStart_eq_ok.mp hstart
    have hback : Contract.weekOf start = .ok w :=
      Contract.weekOf_eq_ok.mpr ⟨by omega, by omega⟩
    exact ⟨start, hstart, hsecond, hback⟩

theorem week_clocks_agree_sunday :
    weekStartOf (Time.unix 1789343999) = weekStart 2958 ∧ Time.unix 1789343999 < weekStart 2959 ∧
      weekOf (weekStart 2959).toUnix.toInt = 2959 ∧
      ∃ start, Contract.weekStart 1 = .ok start ∧ Contract.weekOf start = .ok 1 := by
  obtain ⟨hclocks, hindex, hchain⟩ := week_clocks_agree
  obtain ⟨hledger, hrisk, -, -, hend⟩ := hclocks (Time.unix 1789343999) ⟨by decide, by decide⟩ (by decide)
  have hweek : weekOf (Time.unix 1789343999).toUnix.toInt = 2958 := by decide
  rw [hweek] at hrisk hend
  obtain ⟨start, hstart, -, hback⟩ := hchain 1 (by decide) (by decide)
  exact ⟨hledger.trans hrisk, hend (by decide), hindex 2959 (by decide), start, hstart, hback⟩

end SuperAgent.Platform
