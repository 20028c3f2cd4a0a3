import Mathlib.Data.List.Sort
import SuperAgent.Core.Clock
import SuperAgent.Core.RunningSums
import SuperAgent.Fixed.Exact

/-!
# The statistics of a risk screen

A wallet's closed round trips summed up in one pass by closing time: counts and
sums, extremes, the deepest fall of the running result and the current streak.
The sums are 64-bit words, so that all of it is as defined when these fit.
-/

namespace SuperAgent.Platform

open Fixed (D)

/-- A round trip as the statistics read it. The zero time stands for a time that is not known;
one that is still open has it for its close. -/
structure RoundTrip where
  pnl : D
  entryFee : D
  exitFee : D
  closeReason : String
  openedAt : Time
  closedAt : Time
  deriving DecidableEq

/-- How many closes each reason has. -/
abbrev Counts := String → ℕ

/-- A run of round trips summed up. The counts by reason are a map, or a reference to one. -/
structure PerfStats (ρ : Type) where
  trades : ℕ
  wins : ℕ
  losses : ℕ
  pnl : D
  fees : D
  best : D
  worst : D
  avgWin : D
  avgLoss : D
  maxDrawdown : D
  avgHold : Duration
  byReason : ρ
  streak : ℤ

/-- The zero value, with what the counts are. -/
def PerfStats.zero {ρ : Type} (byReason : ρ) : PerfStats ρ :=
  ⟨0, 0, 0, 0, 0, 0, 0, 0, 0, 0, 0, byReason, 0⟩

/-- The statistics while they are read, with the sums the loop keeps beside them. -/
structure Reading where
  st : PerfStats Counts
  running : D
  peak : D
  wins : D
  losses : D
  hold : Duration

namespace Reading

/-- Nothing is read yet. -/
def start : Reading := ⟨.zero fun _ => 0, 0, 0, 0, 0, 0⟩

/-- The next round trip. -/
def next (s : Reading) (t : RoundTrip) : Reading :=
  let running := s.running + t.pnl
  let peak := if s.peak < running then running else s.peak
  let fall := peak - running
  { st := { s.st with
      trades := s.st.trades + 1
      pnl := s.st.pnl + t.pnl
      fees := s.st.fees + t.entryFee + t.exitFee
      byReason := if t.closeReason = "" then s.st.byReason
        else Function.update s.st.byReason t.closeReason (s.st.byReason t.closeReason + 1)
      wins := if 0 < t.pnl then s.st.wins + 1 else s.st.wins
      losses := if t.pnl < 0 then s.st.losses + 1 else s.st.losses
      streak := if 0 < t.pnl then if 0 ≤ s.st.streak then s.st.streak + 1 else 1
        else if t.pnl < 0 then if s.st.streak ≤ 0 then s.st.streak - 1 else -1
        else s.st.streak
      -- the first round trip sets both extremes
      best := if s.st.trades = 0 ∨ s.st.best < t.pnl then t.pnl else s.st.best
      worst := if s.st.trades = 0 ∨ t.pnl < s.st.worst then t.pnl else s.st.worst
      maxDrawdown := if s.st.maxDrawdown < fall then fall else s.st.maxDrawdown }
    running
    peak
    wins := if 0 < t.pnl then s.wins + t.pnl else s.wins
    losses := if t.pnl < 0 then s.losses + t.pnl else s.losses
    hold := if t.openedAt = 0 then s.hold else s.hold + t.closedAt.sub t.openedAt }

end Reading

/-- The loop over the round trips in closing order. -/
def reading (rows : List RoundTrip) : Reading := rows.foldl Reading.next .start

/-- A mean, zero without anything; a quotient that does not fit panics. -/
def average (sum : D) (n : ℕ) : Option D :=
  if 0 < n then Fixed.div sum (Fixed.fromInt (Int64.ofNat n)) else some 0

/-- The round trips that are closed, from a time on unless that is zero. -/
def windowRows (trades : List RoundTrip) (since : Time) : List RoundTrip :=
  (trades.filter fun t => ¬ (t.closedAt = 0 ∨ since ≠ 0 ∧ t.closedAt < since)).insertionSort
    fun t u => t.closedAt ≤ u.closedAt

/-- What is added after the loop. -/
def Reading.finish (s : Reading) : Option (PerfStats Counts) := do
  let avgWin ← average s.wins s.st.wins
  let avgLoss ← average s.losses s.st.losses
  let avgHold := if 0 < s.st.trades then s.hold / Int64.ofNat s.st.trades else 0
  return { s.st with avgWin, avgLoss, avgHold }

/-- Sum up the closed round trips from a time on, whichever order they are in. -/
def stats (trades : List RoundTrip) (since : Time) : Option (PerfStats Counts) :=
  (reading (windowRows trades since)).finish

/-! ## What the loop reads -/

/-- The results. -/
def results (rows : List RoundTrip) : List ℤ := rows.map fun t => t.pnl.toInt

/-- All that was paid. -/
def feesOf (rows : List RoundTrip) : ℤ := (rows.map fun t => t.entryFee.toInt + t.exitFee.toInt).sum

/-- The closes for a reason; one without a reason is not counted. -/
def reasons (rows : List RoundTrip) : Counts := fun k =>
  if k = "" then 0 else rows.countP (·.closeReason = k)

/-- What is read of the round trips so far, sums as the words they are kept in. -/
structure Read (rows : List RoundTrip) (s : Reading) : Prop where
  trades : s.st.trades = rows.length
  wins : s.st.wins = rows.countP (0 < ·.pnl)
  losses : s.st.losses = rows.countP (·.pnl < 0)
  pnl : s.st.pnl = Int64.ofInt (results rows).sum
  fees : s.st.fees = Int64.ofInt (feesOf rows)
  byReason : s.st.byReason = reasons rows
  streak : s.st.streak = streak (results rows)
  best : rows ≠ [] → IsGreatest {x | ∃ t ∈ rows, t.pnl = x} s.st.best
  worst : rows ≠ [] → IsLeast {x | ∃ t ∈ rows, t.pnl = x} s.st.worst
  winSum : s.wins = Int64.ofInt ((results rows).filter (0 < ·)).sum
  lossSum : s.losses = Int64.ofInt ((results rows).filter (· < 0)).sum

variable {rows : List RoundTrip} {s : Reading} {t : RoundTrip}

theorem ofInt_add_toInt (n : ℤ) (d : D) : Int64.ofInt n + d = Int64.ofInt (n + d.toInt) := by
  rw [Int64.ofInt_add, Int64.ofInt_toInt]

theorem results_concat (rows : List RoundTrip) (t : RoundTrip) :
    results (rows ++ [t]) = results rows ++ [t.pnl.toInt] := List.map_append

theorem sum_results_concat (rows : List RoundTrip) (t : RoundTrip) :
    (results (rows ++ [t])).sum = (results rows).sum + t.pnl.toInt := by
  rw [results_concat, List.sum_append, List.sum_singleton]

/-- Of some results the sum is kept in a word. -/
theorem ofInt_filter_concat (p : ℤ → Prop) [DecidablePred p] (xs : List ℤ) (d : D) :
    Int64.ofInt ((xs ++ [d.toInt]).filter p).sum =
      if p d.toInt then Int64.ofInt (xs.filter p).sum + d else Int64.ofInt (xs.filter p).sum := by
  rw [List.filter_append, List.sum_append]
  split
  · next hp =>
    have hlast : [d.toInt].filter p = [d.toInt] := List.filter_eq_self.mpr (by simpa using hp)
    rw [hlast, List.sum_singleton, ofInt_add_toInt]
  · next hp =>
    have hlast : [d.toInt].filter p = [] := List.filter_eq_nil_iff.mpr (by simpa using hp)
    rw [hlast, List.sum_nil, add_zero]

/-- A reason is counted once more. -/
theorem reasons_concat (rows : List RoundTrip) (t : RoundTrip) :
    reasons (rows ++ [t]) = if t.closeReason = "" then reasons rows
      else Function.update (reasons rows) t.closeReason (reasons rows t.closeReason + 1) := by
  funext k
  by_cases hk : k = t.closeReason
  · subst hk
    by_cases hempty : t.closeReason = ""
    · simp [reasons, hempty]
    · simp [reasons, hempty]
  · have hne : ¬ t.closeReason = k := fun h => hk h.symm
    split <;> simp [reasons, hk, hne]

/-- The extreme so far is kept or gives way to the next result. -/
theorem extreme_concat {r : D → D → Prop} {b : D} {gives : Prop} [Decidable gives]
    (hrefl : ∀ x, r x x) (htrans : ∀ {x y z}, r x y → r y z → r x z)
    (h : rows ≠ [] → (∃ t ∈ rows, t.pnl = b) ∧ ∀ ⦃x⦄, (∃ t ∈ rows, t.pnl = x) → r x b)
    (hgives : gives → rows ≠ [] → r b t.pnl) (hkeeps : ¬ gives → rows ≠ [] ∧ r t.pnl b) :
    (∃ u ∈ rows ++ [t], u.pnl = if gives then t.pnl else b) ∧
      ∀ ⦃x⦄, (∃ u ∈ rows ++ [t], u.pnl = x) → r x (if gives then t.pnl else b) := by
  have hlast : t ∈ rows ++ [t] := List.mem_append_right _ List.mem_cons_self
  split
  · next hnew =>
    refine ⟨⟨t, hlast, rfl⟩, ?_⟩
    rintro x ⟨u, hu, rfl⟩
    rcases List.mem_append.mp hu with hu | hu
    · have hne := List.ne_nil_of_mem hu
      exact htrans ((h hne).2 ⟨u, hu, rfl⟩) (hgives hnew hne)
    · rw [List.mem_singleton.mp hu]
      exact hrefl _
  · next hold =>
    obtain ⟨hne, hle⟩ := hkeeps hold
    obtain ⟨⟨v, hv, hvb⟩, hall⟩ := h hne
    refine ⟨⟨v, List.mem_append_left _ hv, hvb⟩, ?_⟩
    rintro x ⟨u, hu, rfl⟩
    rcases List.mem_append.mp hu with hu | hu
    · exact hall ⟨u, hu, rfl⟩
    · rwa [List.mem_singleton.mp hu]

/-- The next round trip is read like the others. -/
theorem Read.next (h : Read rows s) (t : RoundTrip) : Read (rows ++ [t]) (s.next t) where
  trades := by
    rw [List.length_append, List.length_singleton, ← h.trades]
    rfl
  wins := by
    rw [List.countP_append, List.countP_singleton, ← h.wins]
    by_cases hpos : 0 < t.pnl <;> simp [Reading.next, hpos]
  losses := by
    rw [List.countP_append, List.countP_singleton, ← h.losses]
    by_cases hneg : t.pnl < 0 <;> simp [Reading.next, hneg]
  pnl := by
    rw [sum_results_concat, ← ofInt_add_toInt, ← h.pnl]
    rfl
  fees := by
    rw [feesOf, List.map_append, List.sum_append, List.map_singleton, List.sum_singleton,
      ← add_assoc, ← ofInt_add_toInt, ← ofInt_add_toInt, ← feesOf, ← h.fees]
    rfl
  byReason := by
    rw [reasons_concat, ← h.byReason]
    rfl
  streak := by
    have hpos : 0 < t.pnl ↔ 0 < t.pnl.toInt := Int64.lt_iff_toInt_lt
    have hneg : t.pnl < 0 ↔ t.pnl.toInt < 0 := Int64.lt_iff_toInt_lt
    rw [results_concat, SuperAgent.streak, List.foldl_concat, ← SuperAgent.streak, ← h.streak,
      streakNext]
    simp only [← hpos, ← hneg]
    rfl
  best := fun _ => by
    have hfirst : s.st.trades = 0 ↔ rows = [] := by rw [h.trades, List.length_eq_zero_iff]
    refine extreme_concat Int64.le_refl Int64.le_trans h.best ?_ ?_
    · rintro (hnone | hlt) hne
      · exact absurd (hfirst.mp hnone) hne
      · exact Int64.le_of_lt hlt
    · intro hold
      rw [not_or, hfirst] at hold
      exact ⟨hold.1, Int64.not_lt.mp hold.2⟩
  worst := fun _ => by
    have hfirst : s.st.trades = 0 ↔ rows = [] := by rw [h.trades, List.length_eq_zero_iff]
    refine extreme_concat (r := fun x y => y ≤ x) Int64.le_refl (fun hxy hyz =>
      Int64.le_trans hyz hxy) h.worst ?_ ?_
    · rintro (hnone | hlt) hne
      · exact absurd (hfirst.mp hnone) hne
      · exact Int64.le_of_lt hlt
    · intro hold
      rw [not_or, hfirst] at hold
      exact ⟨hold.1, Int64.not_lt.mp hold.2⟩
  winSum := by
    have hpos : 0 < t.pnl ↔ 0 < t.pnl.toInt := Int64.lt_iff_toInt_lt
    rw [results_concat, ofInt_filter_concat, ← h.winSum]
    simp only [← hpos]
    rfl
  lossSum := by
    have hneg : t.pnl < 0 ↔ t.pnl.toInt < 0 := Int64.lt_iff_toInt_lt
    rw [results_concat, ofInt_filter_concat, ← h.lossSum]
    simp only [← hneg]
    rfl

theorem reading_concat (rows : List RoundTrip) (t : RoundTrip) :
    reading (rows ++ [t]) = (reading rows).next t := List.foldl_concat _ _ _ _

/-- Everything is read. -/
theorem reading_read (rows : List RoundTrip) : Read rows (reading rows) := by
  induction rows using List.reverseRecOn with
  | nil => exact ⟨rfl, rfl, rfl, rfl, rfl, funext fun k => (ite_self 0).symm, rfl, nofun, nofun,
      rfl, rfl⟩
  | append_singleton rows t ih =>
    rw [reading_concat]
    exact ih.next t

/-! ## The deepest fall in words -/

/-- The sums of the first round trips and the falls between these fit. -/
structure SumsFit (rows : List RoundTrip) : Prop where
  sums : ∀ p ∈ sums (results rows), Fixed.Fits p
  falls : ∀ d ∈ falls (results rows), d ≤ Fixed.maxInt64

/-- The words of a reading are a course. -/
structure Follows (s : Reading) (c : Course ℤ) : Prop where
  running : s.running.toInt = c.running
  peak : s.peak.toInt = c.peak
  fall : s.st.maxDrawdown.toInt = c.fall

/-- The larger of two words. -/
theorem toInt_max (a b : D) : (if a < b then b else a).toInt = max a.toInt b.toInt := by
  have hlt : a < b ↔ a.toInt < b.toInt := Int64.lt_iff_toInt_lt
  split
  · next h => exact (max_eq_right (hlt.mp h).le).symm
  · next h => exact (max_eq_left (not_lt.mp (mt hlt.mpr h))).symm

/-- They follow it over a result when the new sum and its fall fit. -/
theorem Follows.next {c : Course ℤ} (h : Follows s c) (hsum : Fixed.Fits (c.running + t.pnl.toInt))
    (hfall : (c.next t.pnl.toInt).peak - (c.next t.pnl.toInt).running ≤ Fixed.maxInt64) :
    Follows (s.next t) (c.next t.pnl.toInt) := by
  have hrunning : (s.next t).running.toInt = (c.next t.pnl.toInt).running := by
    have hadd := Fixed.toInt_add_of_fits (a := s.running) (b := t.pnl) (by rwa [h.running])
    rwa [h.running] at hadd
  have hpeak : (s.next t).peak.toInt = (c.next t.pnl.toInt).peak := by
    have hmax := toInt_max s.peak (s.next t).running
    rwa [hrunning, h.peak] at hmax
  have hdepth : ((s.next t).peak - (s.next t).running).toInt =
      (c.next t.pnl.toInt).peak - (c.next t.pnl.toInt).running := by
    have hle : (c.next t.pnl.toInt).running ≤ (c.next t.pnl.toInt).peak := le_max_right _ _
    have hmax : (Fixed.maxInt64 : ℤ) = 2 ^ 63 - 1 := rfl
    rw [Fixed.toInt_sub_of_fits, hrunning, hpeak]
    rw [hrunning, hpeak]
    constructor <;> omega
  refine ⟨hrunning, hpeak, ?_⟩
  have hdeeper := toInt_max s.st.maxDrawdown ((s.next t).peak - (s.next t).running)
  rwa [hdepth, h.fall] at hdeeper

/-- While the sums fit, the words are the sum, the peak and the deepest fall. -/
theorem reading_follows (h : SumsFit rows) : Follows (reading rows) (course (results rows)) := by
  induction rows using List.reverseRecOn with
  | nil => exact ⟨rfl, rfl, rfl⟩
  | append_singleton rows t ih =>
    obtain ⟨hsums, hfalls⟩ := h
    rw [results_concat] at hsums hfalls
    have hbefore : Follows (reading rows) (course (results rows)) :=
      ih ⟨fun p hp => hsums p (mem_sums_concat.mpr (.inl hp)),
        fun d hd => hfalls d (mem_falls_concat.mpr (.inl hd))⟩
    have hpeak := course_peak (results rows ++ [t.pnl.toInt])
    rw [course_concat] at hpeak
    have hlast := course_running (results rows)
    rw [reading_concat, results_concat, course_concat]
    refine hbefore.next ?_ ?_
    · rw [hlast]
      exact hsums _ (mem_sums_concat.mpr (.inr rfl))
    · refine hfalls _ (mem_falls_concat.mpr (.inr ⟨_, hpeak.1, ?_⟩))
      rw [← hlast]
      rfl

/-! ## Statistics against their definition -/

/-- Both means are defined: the sum of the wins can be divided by their number, and that of the
losses. -/
def Averaged (rows : List RoundTrip) : Prop :=
  (average (Int64.ofInt ((results rows).filter (0 < ·)).sum)
      (rows.countP (0 < ·.pnl))).isSome ∧
    (average (Int64.ofInt ((results rows).filter (· < 0)).sum)
      (rows.countP (·.pnl < 0))).isSome

/-- A round trip counts from a time on when it is closed, and not before. -/
def InWindow (since : Time) (t : RoundTrip) : Prop :=
  t.closedAt ≠ 0 ∧ (since = 0 ∨ since ≤ t.closedAt)

instance (since : Time) : DecidablePred (InWindow since) := fun _ =>
  inferInstanceAs (Decidable (_ ∧ _))

/-- No two round trips are closed at one time. -/
def DistinctCloses (trades : List RoundTrip) : Prop :=
  ((trades.filter (·.closedAt ≠ 0)).map (·.closedAt)).Nodup

instance (trades : List RoundTrip) : Decidable (DistinctCloses trades) :=
  inferInstanceAs (Decidable (List.Nodup _))

/-- What the statistics of round trips in closing order are. -/
structure Summarised (rows : List RoundTrip) (st : PerfStats Counts) : Prop where
  trades : st.trades = rows.length
  wins : st.wins = rows.countP (0 < ·.pnl)
  losses : st.losses = rows.countP (·.pnl < 0)
  pnl : st.pnl.toInt = (results rows).sum
  fees : st.fees.toInt = feesOf rows
  best : rows ≠ [] → IsGreatest {x | ∃ t ∈ rows, t.pnl = x} st.best
  worst : rows ≠ [] → IsLeast {x | ∃ t ∈ rows, t.pnl = x} st.worst
  byReason : st.byReason = reasons rows
  maxDrawdown : IsGreatest (falls (results rows)) st.maxDrawdown.toInt
  streak : ∃ s, s <:+ results rows ∧ OneSign s ∧
    (∀ s', s' <:+ results rows → OneSign s' → s' <:+ s) ∧ st.streak = signedCount s

/-- The statistics are what their definition says, in whichever order the round trips are. -/
def AsDefined (trades : List RoundTrip) (since : Time) : Prop :=
  ∃ st, (∀ trades', trades'.Perm trades → stats trades' since = some st) ∧
    ∃ rows, rows.Perm (trades.filter (InWindow since)) ∧
      rows.Pairwise (fun t u => t.closedAt < u.closedAt) ∧ Summarised rows st

variable {trades trades' : List RoundTrip} {since : Time} {st : PerfStats Counts}

theorem windowRows_perm (trades : List RoundTrip) (since : Time) :
    (windowRows trades since).Perm (trades.filter (InWindow since)) := by
  have hcounted : ∀ t : RoundTrip, decide (¬ (t.closedAt = 0 ∨ since ≠ 0 ∧ t.closedAt < since)) =
      decide (InWindow since t) := by
    intro t
    rw [decide_eq_decide, InWindow, not_or, not_and_or, not_not, not_lt]
  rw [windowRows]
  simp only [hcounted]
  exact List.perm_insertionSort _ _

/-- The rows are in closing order. -/
theorem windowRows_sorted (h : DistinctCloses trades) (since : Time) :
    (windowRows trades since).Pairwise fun t u => t.closedAt < u.closedAt := by
  have : Std.Total fun t u : RoundTrip => t.closedAt ≤ u.closedAt := ⟨fun _ _ => le_total _ _⟩
  have : IsTrans RoundTrip fun t u => t.closedAt ≤ u.closedAt := ⟨fun _ _ _ => le_trans⟩
  have hle : (windowRows trades since).Pairwise fun t u => t.closedAt ≤ u.closedAt :=
    List.pairwise_insertionSort _ _
  have hsub : (trades.filter (InWindow since)).Sublist (trades.filter (·.closedAt ≠ 0)) :=
    List.monotone_filter_right _ fun t ht => by
      rw [decide_eq_true_eq] at ht ⊢
      exact ht.1
  have hnodup : ((windowRows trades since).map (·.closedAt)).Nodup :=
    ((windowRows_perm trades since).map _).nodup_iff.mpr (h.sublist (hsub.map _))
  have hne : (windowRows trades since).Pairwise fun t u => t.closedAt ≠ u.closedAt :=
    List.pairwise_map.mp hnodup
  exact (hle.and hne).imp fun ⟨hle, hne⟩ => lt_of_le_of_ne hle hne

/-- There is one closing order. -/
theorem closing_order_unique {rows rows' : List RoundTrip} (hperm : rows.Perm rows')
    (h : rows.Pairwise fun t u => t.closedAt < u.closedAt)
    (h' : rows'.Pairwise fun t u => t.closedAt < u.closedAt) : rows = rows' :=
  List.Perm.eq_of_pairwise (fun _ _ _ _ hlt hgt => absurd hlt hgt.not_gt) h h' hperm

/-- The order the round trips are in does not matter. -/
theorem windowRows_congr (h : DistinctCloses trades) (hperm : trades'.Perm trades) :
    windowRows trades' since = windowRows trades since := by
  have h' : DistinctCloses trades' := ((hperm.filter _).map _).nodup_iff.mpr h
  refine closing_order_unique ?_ (windowRows_sorted h' since) (windowRows_sorted h since)
  exact (windowRows_perm trades' since).trans
    ((hperm.filter _).trans (windowRows_perm trades since).symm)

/-- The statistics without the means. -/
def PerfStats.core {ρ : Type} (st : PerfStats ρ) : PerfStats ρ :=
  { st with avgWin := 0, avgLoss := 0, avgHold := 0 }

/-- The statistics are those of the loop, with the means added. -/
theorem core_of_finish (h : s.finish = some st) : st.core = s.st.core := by
  simp only [Reading.finish, Option.bind_eq_bind, Option.bind_eq_some_iff] at h
  obtain ⟨_, -, _, -, h⟩ := h
  rw [← Option.some.inj h]
  rfl

/-- There are statistics when the means are defined. -/
theorem isSome_stats_iff : (stats trades since).isSome ↔ Averaged (windowRows trades since) := by
  have hread := reading_read (windowRows trades since)
  rw [stats, Reading.finish, Averaged, ← hread.wins, ← hread.losses, ← hread.winSum,
    ← hread.lossSum]
  generalize reading (windowRows trades since) = s
  cases average s.wins s.st.wins with
  | none => simp
  | some a =>
    cases average s.losses s.st.losses with
    | none => simp
    | some b => simp

/-- What the definition says holds of the counts and extremes in any case, and of the sums as far as
they fit. -/
theorem summarised_iff (h : stats trades since = some st) :
    Summarised (windowRows trades since) st ↔
      Fixed.Fits (results (windowRows trades since)).sum ∧
        Fixed.Fits (feesOf (windowRows trades since)) ∧
        IsGreatest (falls (results (windowRows trades since))) st.maxDrawdown.toInt := by
  have hread := reading_read (windowRows trades since)
  have hcore := core_of_finish h
  have hpnl : st.pnl = _ := (congrArg PerfStats.pnl hcore).trans hread.pnl
  have hfees : st.fees = _ := (congrArg PerfStats.fees hcore).trans hread.fees
  have hfits : ∀ n : ℤ, (Int64.ofInt n).toInt = n ↔ Fixed.Fits n := by
    intro n
    constructor
    · intro heq
      have hlow := (Int64.ofInt n).le_toInt
      have hhigh := (Int64.ofInt n).toInt_lt
      rw [heq] at hlow hhigh
      exact ⟨hlow, hhigh⟩
    · rintro ⟨hlow, hhigh⟩
      exact Int64.toInt_ofInt_of_le hlow hhigh
  constructor
  · intro hsum
    refine ⟨?_, ?_, hsum.maxDrawdown⟩
    · rw [← hfits, ← hpnl]
      exact hsum.pnl
    · rw [← hfits, ← hfees]
      exact hsum.fees
  · rintro ⟨hsum, hpaid, hfall⟩
    exact {
      trades := (congrArg PerfStats.trades hcore).trans hread.trades
      wins := (congrArg PerfStats.wins hcore).trans hread.wins
      losses := (congrArg PerfStats.losses hcore).trans hread.losses
      pnl := by rw [hpnl, (hfits _).mpr hsum]
      fees := by rw [hfees, (hfits _).mpr hpaid]
      best := fun hne => by
        have heq : st.core.best = (reading (windowRows trades since)).st.core.best :=
          congrArg PerfStats.best hcore
        change st.best = (reading (windowRows trades since)).st.best at heq
        rw [heq]
        exact hread.best hne
      worst := fun hne => by
        have heq : st.core.worst = (reading (windowRows trades since)).st.core.worst :=
          congrArg PerfStats.worst hcore
        change st.worst = (reading (windowRows trades since)).st.worst at heq
        rw [heq]
        exact hread.worst hne
      byReason := (congrArg PerfStats.byReason hcore).trans hread.byReason
      maxDrawdown := hfall
      streak := by
        have heq : st.streak = _ := (congrArg PerfStats.streak hcore).trans hread.streak
        rw [heq]
        exact streak_spec _ }

/-- Where round trips are closed at different times, the statistics are as defined only if they can
be averaged and the result, the fees and the falls fit, and whenever besides that the sums on the
way there fit. -/
theorem stats_as_defined (trades : List RoundTrip) (since : Time) (h : DistinctCloses trades) :
    (AsDefined trades since → Averaged (windowRows trades since) ∧
      Fixed.Fits (feesOf (windowRows trades since)) ∧
      Fixed.Fits (results (windowRows trades since)).sum ∧
      ∀ d ∈ falls (results (windowRows trades since)), d ≤ Fixed.maxInt64) ∧
    (Averaged (windowRows trades since) ∧ Fixed.Fits (feesOf (windowRows trades since)) ∧
      SumsFit (windowRows trades since) → AsDefined trades since) := by
  constructor
  · rintro ⟨st, hall, rows, hperm, hsorted, hsum⟩
    have hst : stats trades since = some st := hall trades (List.Perm.refl _)
    have hrows : rows = windowRows trades since := closing_order_unique
      (hperm.trans (windowRows_perm trades since).symm) hsorted (windowRows_sorted h since)
    rw [hrows] at hsum
    obtain ⟨htotal, hfees, hfall⟩ := (summarised_iff hst).mp hsum
    refine ⟨isSome_stats_iff.mp (by rw [hst]; rfl), hfees, htotal, fun d hd => ?_⟩
    have hle := hfall.2 hd
    have hlt := st.maxDrawdown.toInt_lt
    have hmax : (Fixed.maxInt64 : ℤ) = 2 ^ 63 - 1 := rfl
    omega
  · rintro ⟨haverages, hfees, hfits⟩
    obtain ⟨st, hst⟩ := Option.isSome_iff_exists.mp (isSome_stats_iff.mpr haverages)
    have hfall : IsGreatest (falls (results (windowRows trades since))) st.maxDrawdown.toInt := by
      have hcore : st.core.maxDrawdown = (reading (windowRows trades since)).st.core.maxDrawdown :=
        congrArg PerfStats.maxDrawdown (core_of_finish hst)
      change st.maxDrawdown = (reading (windowRows trades since)).st.maxDrawdown at hcore
      rw [hcore, (reading_follows hfits).fall]
      exact course_fall _
    have htotal : Fixed.Fits (results (windowRows trades since)).sum :=
      hfits.sums _ ⟨_, le_rfl, sumTo_length _⟩
    refine ⟨st, fun trades' hperm => ?_, windowRows trades since, windowRows_perm trades since,
      windowRows_sorted h since, (summarised_iff hst).mpr ⟨htotal, hfees, hfall⟩⟩
    rw [stats, windowRows_congr h hperm]
    exact hst

/-- A mean is defined when it is of few numbers and not of the smallest word alone. -/
theorem average_isSome {sum : D} {n : ℕ} (hn : n * 10 ^ 8 < 2 ^ 63)
    (hone : n = 1 → sum ≠ Int64.minValue) : (average sum n).isSome := by
  rw [average]
  split
  · next hpos =>
    rcases Nat.lt_or_ge n 2 with hlt | hge
    · obtain rfl : n = 1 := by omega
      have hmin := hone rfl
      have hunit : Fixed.fromInt (Int64.ofNat 1) = Fixed.scale := by decide
      have hmag : Fixed.magnitude sum Fixed.scale Fixed.scale ≤ Fixed.maxInt64 := by
        have hlow := sum.le_toInt
        have hhigh := sum.toInt_lt
        have hne : sum.toInt ≠ -2 ^ 63 := fun h => hmin (Int64.toInt_inj.mp h)
        have hscale : 0 < Fixed.scale.toInt.natAbs := by decide
        rw [Fixed.magnitude, roundDiv_mul_left _ hscale, Fixed.maxInt64]
        omega
      rw [hunit, Fixed.div, Fixed.mulDiv_eq (by decide), if_neg (not_lt.mpr hmag)]
      split <;> rfl
    · exact Fixed.div_fromInt_isSome sum hge hn
  · rfl

/-- Of one result that is picked the sum is that result. -/
theorem sum_filter_ne (p : ℤ → Prop) [DecidablePred p] {rows : List RoundTrip}
    (hone : (results rows).countP p = 1) (hmin : ∀ t ∈ rows, t.pnl ≠ Int64.minValue) :
    Int64.ofInt ((results rows).filter p).sum ≠ Int64.minValue := by
  rw [List.countP_eq_length_filter] at hone
  obtain ⟨x, hx⟩ := List.length_eq_one_iff.mp hone
  have hmem : x ∈ results rows := List.mem_of_mem_filter (p := p) (hx ▸ List.mem_cons_self)
  obtain ⟨t, ht, rfl⟩ := List.mem_map.mp hmem
  rw [hx, List.sum_singleton, Int64.ofInt_toInt]
  exact hmin t ht

/-- Without very many round trips, or a loss of the smallest word, the means are defined. -/
theorem averaged_of_few {rows : List RoundTrip} (hfew : rows.length * 10 ^ 8 < 2 ^ 63)
    (hmin : ∀ t ∈ rows, t.pnl ≠ Int64.minValue) : Averaged rows := by
  have hpos : ∀ t : RoundTrip, 0 < t.pnl ↔ 0 < t.pnl.toInt := fun _ => Int64.lt_iff_toInt_lt
  have hneg : ∀ t : RoundTrip, t.pnl < 0 ↔ t.pnl.toInt < 0 := fun _ => Int64.lt_iff_toInt_lt
  have hle : ∀ p : RoundTrip → Bool, rows.countP p * 10 ^ 8 < 2 ^ 63 := fun p =>
    (Nat.mul_le_mul_right _ List.countP_le_length).trans_lt hfew
  refine ⟨average_isSome (hle _) fun hone => sum_filter_ne _ ?_ hmin,
    average_isSome (hle _) fun hone => sum_filter_ne _ ?_ hmin⟩
  · simp only [hpos] at hone
    rw [results, List.countP_map]
    exact hone
  · simp only [hneg] at hone
    rw [results, List.countP_map]
    exact hone

/-- Three round trips in another order than they were closed in. -/
def threeTrips : List RoundTrip :=
  [⟨-Fixed.scale, 1000000, 1000000, "stop", 0, 3⟩, ⟨3 * Fixed.scale, 1000000, 1000000, "manual", 0, 1⟩,
    ⟨-2 * Fixed.scale, 1000000, 1000000, "horizon", 0, 2⟩]

theorem stats_as_defined_three : AsDefined threeTrips 0 := by
  have hrows : windowRows threeTrips 0 = [⟨3 * Fixed.scale, 1000000, 1000000, "manual", 0, 1⟩,
      ⟨-2 * Fixed.scale, 1000000, 1000000, "horizon", 0, 2⟩,
      ⟨-Fixed.scale, 1000000, 1000000, "stop", 0, 3⟩] := by decide
  have hresults : results (windowRows threeTrips 0) = [300000000, -200000000, -100000000] := by
    rw [hrows]
    decide
  refine (stats_as_defined threeTrips 0 (by decide)).2 ⟨?_, ?_, ?_, ?_⟩
  · rw [hrows]
    exact averaged_of_few (by decide) (by decide)
  · rw [hrows]
    decide
  · rw [hresults]
    have hall : ∀ i ≤ 3, Fixed.Fits (sumTo [300000000, -200000000, -100000000] i) := by decide
    rintro p ⟨i, hi, rfl⟩
    exact hall i hi
  · rw [hresults]
    have hall : ∀ j ≤ 3, ∀ i ≤ j, sumTo ([300000000, -200000000, -100000000] : List ℤ) i -
        sumTo [300000000, -200000000, -100000000] j ≤ Fixed.maxInt64 := by decide
    rintro d ⟨i, j, hij, hj, rfl⟩
    exact hall j hj i hij

/-- Two wins of half the largest word each, and a little more. -/
def hugeWins : List RoundTrip :=
  [⟨4611686018427387904, 0, 0, "", 0, 1⟩, ⟨4611686018427387904, 0, 0, "", 0, 2⟩]

/-- They are summed up to the largest loss. -/
theorem stats_wrap : (stats hugeWins 0).map (·.pnl) = some Int64.minValue ∧
    DistinctCloses hugeWins ∧ ¬ AsDefined hugeWins 0 := by
  refine ⟨by decide, by decide, ?_⟩
  rintro ⟨st, -, rows, hperm, -, hsum⟩
  have htotal : (results rows).sum = 2 ^ 63 := (hperm.map _).sum_eq.trans (by decide)
  have hpnl := hsum.pnl
  have hlt := st.pnl.toInt_lt
  omega

end SuperAgent.Platform
