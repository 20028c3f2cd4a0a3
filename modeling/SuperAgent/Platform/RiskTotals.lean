import Mathlib.Data.List.GetD
import SuperAgent.Core.Run
import SuperAgent.Platform.RiskStats

/-!
# The totals of a risk report

The statistics of a wallet's strategies are merged into totals. Their counts by
reason are maps that are shared by reference: a total starts as the first
statistics that are not empty, with the same map. What is merged are the sums
and the extremes of everything, except that empty statistics count as a result
of zero.
-/

namespace SuperAgent.Platform

open Fixed (D)

/-! ## Maps and references to them -/

/-- The maps there are, by their references. -/
structure Maps where
  cells : List Counts

namespace Maps

/-- What a reference finds. -/
def read (m : Maps) (r : ℕ) : Counts := m.cells.getD r fun _ => 0

/-- What ranging over a map finds, which may be nil. -/
def counts (m : Maps) (r : Option ℕ) : Counts := r.elim (fun _ => 0) m.read

/-- A new map. -/
def make (m : Maps) (c : Counts) : Maps × ℕ := (⟨m.cells ++ [c]⟩, m.cells.length)

/-- The map of a reference, a new one for nil. -/
def own (m : Maps) : Option ℕ → Maps × ℕ
  | some r => (m, r)
  | none => m.make fun _ => 0

/-- Add counts to a map. -/
def addTo (m : Maps) (r : ℕ) (c : Counts) : Maps where
  cells := m.cells.modify r fun old k => old k + c k

/-- A reference to a map there is, or nil. -/
def Holds (m : Maps) (r : Option ℕ) : Prop := ∀ q, r = some q → q < m.cells.length

variable {m : Maps} {r q : ℕ} {c : Counts} {o : Option ℕ}

theorem read_make_of_lt (h : q < m.cells.length) : (m.make c).1.read q = m.read q := by
  rw [read, make, List.getD_append _ _ _ _ h, read]

theorem read_make : (m.make c).1.read (m.make c).2 = c := by
  rw [read, make, List.getD_append_right _ _ _ _ (Nat.le_refl _), Nat.sub_self]
  rfl

theorem length_make : (m.make c).1.cells.length = m.cells.length + 1 := by
  rw [make, List.length_append, List.length_singleton]

theorem length_addTo : (m.addTo r c).cells.length = m.cells.length := List.length_modify _ _ _

/-- Only the map that is added to changes. -/
theorem read_addTo (h : r < m.cells.length) :
    (m.addTo r c).read q = if q = r then fun k => m.read r k + c k else m.read q := by
  rw [read, addTo, List.getD_eq_getElem?_getD, List.getElem?_modify]
  by_cases hq : q = r
  · subst hq
    simp [read, List.getD_eq_getElem?_getD, List.getElem?_eq_getElem h]
  · rw [if_neg hq, read, List.getD_eq_getElem?_getD]
    simp only [Ne.symm hq, if_false, Option.map_eq_map, Option.map_id']

theorem Holds.make (h : m.Holds o) : (m.make c).1.Holds o := fun q hq => by
  rw [length_make]
  exact Nat.lt_succ_of_lt (h q hq)

theorem counts_make (h : m.Holds o) : (m.make c).1.counts o = m.counts o := by
  cases o with
  | none => rfl
  | some q => exact read_make_of_lt (h q rfl)

theorem length_le_own (m : Maps) (o : Option ℕ) :
    m.cells.length ≤ (m.own o).1.cells.length := by
  cases o with
  | none => exact (Nat.le_succ _).trans_eq length_make.symm
  | some r => exact Nat.le_refl _

theorem own_lt (h : m.Holds o) : (m.own o).2 < (m.own o).1.cells.length := by
  cases o with
  | none => exact (Nat.lt_succ_self _).trans_eq length_make.symm
  | some r => exact h r rfl

theorem read_own_of_lt (o : Option ℕ) (h : q < m.cells.length) :
    (m.own o).1.read q = m.read q := by
  cases o with
  | none => exact read_make_of_lt h
  | some r => rfl

theorem counts_own {o' : Option ℕ} (h : m.Holds o') : (m.own o).1.counts o' = m.counts o' := by
  cases o' with
  | none => rfl
  | some q => exact read_own_of_lt o (h q rfl)

/-- It has what the reference finds. -/
theorem read_own (m : Maps) (o : Option ℕ) : (m.own o).1.read (m.own o).2 = m.counts o := by
  cases o with
  | none => exact read_make
  | some r => rfl

end Maps

/-- Statistics with what their reference finds. -/
def PerfStats.view (m : Maps) (a : PerfStats (Option ℕ)) : PerfStats Counts :=
  { a with byReason := m.counts a.byReason }

/-- Statistics with a map of their own. -/
def Maps.keep (m : Maps) (st : PerfStats Counts) : Maps × PerfStats (Option ℕ) :=
  let (m, r) := m.make st.byReason
  (m, { st with byReason := some r })

/-! ## Merging -/

/-- Statistics added into others, whose map the sum goes into. What is added to nothing is returned
as it is, map and all. -/
def mergeStats (m : Maps) (a b : PerfStats (Option ℕ)) : Maps × PerfStats (Option ℕ) :=
  let (m, own) := m.own a.byReason
  if a.trades = 0 then (m, { b with streak := 0 })
  else (m.addTo own (m.counts b.byReason), {
    trades := a.trades + b.trades
    wins := a.wins + b.wins
    losses := a.losses + b.losses
    pnl := a.pnl + b.pnl
    fees := a.fees + b.fees
    best := if a.best < b.best then b.best else a.best
    worst := if b.worst < a.worst then b.worst else a.worst
    avgWin := 0
    avgLoss := 0
    maxDrawdown := if a.maxDrawdown < b.maxDrawdown then b.maxDrawdown else a.maxDrawdown
    avgHold := 0
    byReason := some own
    streak := 0 })

/-- The same on values: what the totals are meant to be. -/
def merge (a b : PerfStats Counts) : PerfStats Counts :=
  if a.trades = 0 then { b with streak := 0 }
  else {
    trades := a.trades + b.trades
    wins := a.wins + b.wins
    losses := a.losses + b.losses
    pnl := a.pnl + b.pnl
    fees := a.fees + b.fees
    best := if a.best < b.best then b.best else a.best
    worst := if b.worst < a.worst then b.worst else a.worst
    avgWin := 0
    avgLoss := 0
    maxDrawdown := if a.maxDrawdown < b.maxDrawdown then b.maxDrawdown else a.maxDrawdown
    avgHold := 0
    byReason := fun k => a.byReason k + b.byReason k
    streak := 0 }

variable {m : Maps} {a b : PerfStats (Option ℕ)} {q : ℕ}

/-- The map a merge writes to: that of the sum, unless there is nothing to add to. -/
def PerfStats.target (a : PerfStats (Option ℕ)) : Option ℕ :=
  if a.trades = 0 then none else a.byReason

/-- A merge keeps the maps there are, but for the one it writes to. -/
theorem read_mergeStats (ha : m.Holds a.byReason) (hb : m.Holds b.byReason)
    (hq : q < m.cells.length) : (mergeStats m a b).1.read q =
      if a.target = some q then fun k => m.read q k + m.counts b.byReason k else m.read q := by
  have hkeep := m.read_own_of_lt a.byReason hq
  rw [mergeStats, PerfStats.target]
  dsimp only
  by_cases hnone : a.trades = 0
  · rw [if_pos hnone, if_pos hnone, if_neg nofun]
    exact hkeep
  · rw [if_neg hnone, if_neg hnone]
    dsimp only
    rw [Maps.read_addTo (Maps.own_lt ha), Maps.counts_own hb, Maps.read_own, hkeep]
    cases hown : a.byReason with
    | none =>
      have hne : q ≠ (m.own none).2 := Nat.ne_of_lt hq
      rw [if_neg hne, if_neg nofun]
    | some r =>
      change (if q = r then fun k => m.read r k + m.counts b.byReason k else m.read q) = _
      by_cases hqr : q = r
      · subst hqr
        rw [if_pos rfl, if_pos rfl]
      · rw [if_neg hqr, if_neg fun h => hqr (Option.some.inj h).symm]

theorem length_le_mergeStats (m : Maps) (a b : PerfStats (Option ℕ)) :
    m.cells.length ≤ (mergeStats m a b).1.cells.length := by
  have hle := m.length_le_own a.byReason
  rw [mergeStats]
  dsimp only
  split
  · exact hle
  · dsimp only
    rw [Maps.length_addTo]
    exact hle

/-- Statistics read through their references are merged as values are. -/
theorem view_mergeStats (ha : m.Holds a.byReason) (hb : m.Holds b.byReason) :
    (mergeStats m a b).2.view (mergeStats m a b).1 = merge (a.view m) (b.view m) ∧
      (mergeStats m a b).1.Holds (mergeStats m a b).2.byReason := by
  have hlength := length_le_mergeStats m a b
  rw [mergeStats] at hlength ⊢
  rw [merge]
  dsimp only at hlength ⊢
  change _ = (if a.trades = 0 then _ else _) ∧ _
  by_cases hnone : a.trades = 0
  · rw [if_pos hnone] at hlength
    rw [if_pos hnone, if_pos hnone]
    refine ⟨?_, fun q hq => (hb q hq).trans_le hlength⟩
    rw [PerfStats.view, PerfStats.view]
    dsimp only
    rw [Maps.counts_own hb]
  · rw [if_neg hnone, if_neg hnone]
    refine ⟨?_, fun q hq => ?_⟩
    · have hsum : ((m.own a.byReason).1.addTo (m.own a.byReason).2
          ((m.own a.byReason).1.counts b.byReason)).counts (some (m.own a.byReason).2) =
            fun k => m.counts a.byReason k + m.counts b.byReason k := by
        change Maps.read _ _ = _
        rw [Maps.read_addTo (Maps.own_lt ha), if_pos rfl, Maps.read_own, Maps.counts_own hb]
      rw [PerfStats.view]
      dsimp only
      rw [hsum]
      rfl
    · rw [← Option.some.inj hq, Maps.length_addTo]
      exact Maps.own_lt ha

/-- Statistics of the parts, merged one after the other from nothing. -/
def mergeParts (parts : List (List RoundTrip)) (since : Time) :
    Option (Maps × PerfStats (Option ℕ)) :=
  parts.foldlM (fun s part => do
    let st ← stats part since
    let (m, b) := s.1.keep st
    return mergeStats m s.2 b) (⟨[]⟩, .zero none)

theorem view_keep (m : Maps) (st : PerfStats Counts) :
    (m.keep st).2.view (m.keep st).1 = st ∧ (m.keep st).1.Holds (m.keep st).2.byReason := by
  refine ⟨?_, fun q hq => ?_⟩
  · have hread : (m.keep st).1.counts (m.keep st).2.byReason = st.byReason := Maps.read_make
    rw [PerfStats.view, hread]
    rfl
  · rw [← Option.some.inj hq]
    exact (Nat.lt_succ_self _).trans_eq Maps.length_make.symm

variable {parts : List (List RoundTrip)} {part : List RoundTrip} {since : Time}

theorem mergeParts_concat : mergeParts (parts ++ [part]) since =
    (mergeParts parts since).bind fun s => (stats part since).map fun st =>
      mergeStats (s.1.keep st).1 s.2 (s.1.keep st).2 := by
  rw [mergeParts, foldlM_concat, ← mergeParts]
  cases mergeParts parts since with
  | none => rfl
  | some s => cases stats part since <;> rfl

/-- Parts are merged when each has statistics. -/
theorem isSome_mergeParts_iff : (mergeParts parts since).isSome ↔
    ∀ part ∈ parts, Averaged (windowRows part since) := by
  induction parts using List.reverseRecOn with
  | nil => exact iff_of_true rfl nofun
  | append_singleton parts part ih =>
    rw [mergeParts_concat, List.forall_mem_append, ← ih, List.forall_mem_singleton,
      ← isSome_stats_iff]
    cases mergeParts parts since with
    | none => simp
    | some s => cases stats part since <;> simp

/-! ## What merged statistics are -/

/-- The results of round trips. -/
def values (rows : List RoundTrip) : Set D := {x | ∃ t ∈ rows, t.pnl = x}

/-- Counts and sums of round trips, with the extremes of some values. -/
structure Totals (rows : List RoundTrip) (extremes : Set D) (st : PerfStats Counts) : Prop where
  trades : st.trades = rows.length
  wins : st.wins = rows.countP (0 < ·.pnl)
  losses : st.losses = rows.countP (·.pnl < 0)
  pnl : st.pnl = Int64.ofInt (results rows).sum
  fees : st.fees = Int64.ofInt (feesOf rows)
  byReason : st.byReason = reasons rows
  best : rows ≠ [] → IsGreatest extremes st.best
  worst : rows ≠ [] → IsLeast extremes st.worst
  empty : rows = [] → st.best = 0 ∧ st.worst = 0

/-- The statistics of one part. -/
theorem totals_of_stats {st : PerfStats Counts} (h : stats part since = some st) :
    Totals (windowRows part since) (values (windowRows part since)) st := by
  have hread := reading_read (windowRows part since)
  have hcore := core_of_finish h
  have hbest : st.core.best = (reading (windowRows part since)).st.core.best :=
    congrArg PerfStats.best hcore
  have hworst : st.core.worst = (reading (windowRows part since)).st.core.worst :=
    congrArg PerfStats.worst hcore
  change st.best = (reading (windowRows part since)).st.best at hbest
  change st.worst = (reading (windowRows part since)).st.worst at hworst
  exact {
    trades := (congrArg PerfStats.trades hcore).trans hread.trades
    wins := (congrArg PerfStats.wins hcore).trans hread.wins
    losses := (congrArg PerfStats.losses hcore).trans hread.losses
    pnl := (congrArg PerfStats.pnl hcore).trans hread.pnl
    fees := (congrArg PerfStats.fees hcore).trans hread.fees
    byReason := (congrArg PerfStats.byReason hcore).trans hread.byReason
    best := fun hne => hbest ▸ hread.best hne
    worst := fun hne => hworst ▸ hread.worst hne
    empty := fun hnil => by
      rw [hbest, hworst, hnil]
      exact ⟨rfl, rfl⟩ }

/-- Empty statistics are merged into others. -/
def Gap (rows : List (List RoundTrip)) : Prop := ∃ l, l ++ [[]] <+: rows ∧ l.flatten ≠ []

/-- The results, and zero where there is a gap. -/
def extremesOf (rows : List (List RoundTrip)) : Set D :=
  {x | x ∈ values rows.flatten ∨ Gap rows ∧ x = 0}

theorem gap_concat {rows : List (List RoundTrip)} {r : List RoundTrip} :
    Gap (rows ++ [r]) ↔ Gap rows ∨ r = [] ∧ rows.flatten ≠ [] := by
  simp only [Gap, List.prefix_concat_iff]
  constructor
  · rintro ⟨l, heq | hpre, hne⟩
    · obtain ⟨rfl, hr⟩ := List.append_inj' heq rfl
      exact .inr ⟨(List.cons.inj hr).1.symm, hne⟩
    · exact .inl ⟨l, hpre, hne⟩
  · rintro (⟨l, hpre, hne⟩ | ⟨rfl, hne⟩)
    · exact ⟨l, .inr hpre, hne⟩
    · exact ⟨rows, .inl rfl, hne⟩

theorem values_append (rows rows' : List RoundTrip) :
    values (rows ++ rows') = {x | x ∈ values rows ∨ x ∈ values rows'} := by
  ext x
  constructor
  · rintro ⟨t, ht, rfl⟩
    exact (List.mem_append.mp ht).imp (fun ht => ⟨t, ht, rfl⟩) fun ht => ⟨t, ht, rfl⟩
  · rintro (⟨t, ht, rfl⟩ | ⟨t, ht, rfl⟩)
    · exact ⟨t, List.mem_append_left _ ht, rfl⟩
    · exact ⟨t, List.mem_append_right _ ht, rfl⟩

/-- The larger of two extremes. -/
theorem isGreatest_larger {s s' : Set D} {x y : D} (hx : IsGreatest s x) (hy : IsGreatest s' y) :
    IsGreatest {z | z ∈ s ∨ z ∈ s'} (if x < y then y else x) := by
  split
  · next hlt =>
    exact ⟨.inr hy.1, fun z hz => hz.elim
      (fun hz => Int64.le_trans (hx.2 hz) (Int64.le_of_lt hlt)) fun hz => hy.2 hz⟩
  · next hle =>
    exact ⟨.inl hx.1, fun z hz => hz.elim (fun hz => hx.2 hz)
      fun hz => Int64.le_trans (hy.2 hz) (Int64.not_lt.mp hle)⟩

theorem isLeast_smaller {s s' : Set D} {x y : D} (hx : IsLeast s x) (hy : IsLeast s' y) :
    IsLeast {z | z ∈ s ∨ z ∈ s'} (if y < x then y else x) := by
  split
  · next hlt =>
    exact ⟨.inr hy.1, fun z hz => hz.elim
      (fun hz => Int64.le_trans (Int64.le_of_lt hlt) (hx.2 hz)) fun hz => hy.2 hz⟩
  · next hle =>
    exact ⟨.inl hx.1, fun z hz => hz.elim (fun hz => hx.2 hz)
      fun hz => Int64.le_trans (Int64.not_lt.mp hle) (hy.2 hz)⟩

variable {rows : List (List RoundTrip)} {r : List RoundTrip}

theorem Gap.ne_nil (h : Gap rows) : rows.flatten ≠ [] := by
  obtain ⟨l, ⟨l', rfl⟩, hne⟩ := h
  intro hnil
  rw [List.flatten_append, List.flatten_append, List.append_eq_nil_iff,
    List.append_eq_nil_iff] at hnil
  exact hne hnil.1.1

/-- Nothing before the part. -/
theorem extremesOf_first (h : rows.flatten = []) : extremesOf (rows ++ [r]) = values r := by
  have hgap : ¬ Gap (rows ++ [r]) := by
    rw [gap_concat, h]
    rintro (hgap | ⟨-, hne⟩)
    · exact hgap.ne_nil h
    · exact hne rfl
  ext x
  rw [extremesOf, List.flatten_append, h, List.nil_append, List.flatten_singleton]
  exact ⟨fun hx => hx.elim id fun hx => absurd hx.1 hgap, .inl⟩

/-- An empty part adds zero. -/
theorem extremesOf_next (h : rows.flatten ≠ []) : extremesOf (rows ++ [r]) =
    {x | x ∈ extremesOf rows ∨ x ∈ {y | y ∈ values r ∨ r = [] ∧ y = 0}} := by
  ext x
  rw [extremesOf, List.flatten_append, List.flatten_singleton, values_append]
  simp only [gap_concat, extremesOf, Set.mem_ofPred_eq]
  tauto

/-- The extreme of one part, which is zero when that is empty. -/
theorem Totals.extreme {b : PerfStats Counts} (hb : Totals r (values r) b) :
    IsGreatest {y | y ∈ values r ∨ r = [] ∧ y = 0} b.best ∧
      IsLeast {y | y ∈ values r ∨ r = [] ∧ y = 0} b.worst := by
  by_cases hnil : r = []
  · subst hnil
    obtain ⟨hbest, hworst⟩ := hb.empty rfl
    have hzero : ∀ y, y ∈ values [] ∨ ([] : List RoundTrip) = [] ∧ y = 0 → y = 0 := by
      rintro y (⟨t, ht, -⟩ | ⟨-, hy⟩)
      · cases ht
      · exact hy
    rw [hbest, hworst]
    refine ⟨⟨.inr ⟨rfl, rfl⟩, fun y hy => ?_⟩, ⟨.inr ⟨rfl, rfl⟩, fun y hy => ?_⟩⟩
    · rw [hzero y hy]
      exact Int64.le_refl 0
    · rw [hzero y hy]
      exact Int64.le_refl 0
  · have hset : {y | y ∈ values r ∨ r = [] ∧ y = 0} = values r := by
      ext y
      exact ⟨fun hy => hy.elim id fun hy => absurd hy.1 hnil, .inl⟩
    rw [hset]
    exact ⟨hb.best hnil, hb.worst hnil⟩

theorem reasons_append (l l' : List RoundTrip) :
    reasons (l ++ l') = fun k => reasons l k + reasons l' k := by
  funext k
  by_cases hk : k = ""
  · simp [reasons, hk]
  · simp [reasons, hk, List.countP_append]

/-- Merging a part adds its counts and sums, and its extremes. -/
theorem Totals.merge {a b : PerfStats Counts} (ha : Totals rows.flatten (extremesOf rows) a)
    (hb : Totals r (values r) b) :
    Totals (rows ++ [r]).flatten (extremesOf (rows ++ [r])) (merge a b) := by
  have hflatten : (rows ++ [r]).flatten = rows.flatten ++ r := by
    rw [List.flatten_append, List.flatten_singleton]
  have hnone : a.trades = 0 ↔ rows.flatten = [] := by rw [ha.trades, List.length_eq_zero_iff]
  rw [hflatten, Platform.merge]
  by_cases hnil : rows.flatten = []
  · rw [if_pos (hnone.mpr hnil), extremesOf_first hnil, hnil, List.nil_append]
    exact ⟨hb.trades, hb.wins, hb.losses, hb.pnl, hb.fees, hb.byReason, hb.best, hb.worst,
      hb.empty⟩
  · obtain ⟨hbest, hworst⟩ := hb.extreme
    rw [if_neg (mt hnone.mp hnil), extremesOf_next hnil]
    exact {
      trades := by rw [List.length_append, ← ha.trades, ← hb.trades]
      wins := by rw [List.countP_append, ← ha.wins, ← hb.wins]
      losses := by rw [List.countP_append, ← ha.losses, ← hb.losses]
      pnl := by
        rw [results, List.map_append, List.sum_append, Int64.ofInt_add, ← results, ← results,
          ← ha.pnl, ← hb.pnl]
      fees := by
        rw [feesOf, List.map_append, List.sum_append, Int64.ofInt_add, ← feesOf, ← feesOf,
          ← ha.fees, ← hb.fees]
      byReason := by
        rw [reasons_append, ← ha.byReason, ← hb.byReason]
      best := fun _ => isGreatest_larger (ha.best hnil) hbest
      worst := fun _ => isLeast_smaller (ha.worst hnil) hworst
      empty := fun hempty => absurd (List.append_eq_nil_iff.mp hempty).1 hnil }

/-- Merged parts have the counts and sums of all, and the extremes with the gaps' zero. -/
theorem totals_of_merged {s : Maps × PerfStats (Option ℕ)}
    (h : mergeParts parts since = some s) : s.1.Holds s.2.byReason ∧
      Totals (parts.map (windowRows · since)).flatten
        (extremesOf (parts.map (windowRows · since))) (s.2.view s.1) := by
  induction parts using List.reverseRecOn generalizing s with
  | nil =>
    obtain rfl := Option.some.inj h
    refine ⟨nofun, rfl, rfl, rfl, rfl, rfl, ?_, nofun, nofun, fun _ => ⟨rfl, rfl⟩⟩
    exact funext fun k => (ite_self 0).symm
  | append_singleton parts part ih =>
    rw [mergeParts_concat, Option.bind_eq_some_iff] at h
    obtain ⟨s', hs', h⟩ := h
    obtain ⟨st, hst, rfl⟩ := Option.map_eq_some_iff.mp h
    obtain ⟨hholds, htotals⟩ := ih hs'
    obtain ⟨hview, hkept⟩ := view_keep s'.1 st
    obtain ⟨hmerged, hholds'⟩ := view_mergeStats (m := (s'.1.keep st).1) hholds.make hkept
    refine ⟨hholds', ?_⟩
    have hold : s'.2.view (s'.1.keep st).1 = s'.2.view s'.1 := by
      rw [PerfStats.view, PerfStats.view]
      exact congrArg (fun c => { s'.2 with byReason := c }) (Maps.counts_make hholds)
    rw [hmerged, hview, hold, List.map_append, List.map_singleton]
    exact htotals.merge (totals_of_stats hst)

/-! ## Merged parts against the whole -/

/-- Merged statistics are others, apart from what is not merged. -/
structure Agree (a st : PerfStats Counts) : Prop where
  trades : a.trades = st.trades
  wins : a.wins = st.wins
  losses : a.losses = st.losses
  pnl : a.pnl = st.pnl
  fees : a.fees = st.fees
  best : a.best = st.best
  worst : a.worst = st.worst
  byReason : a.byReason = st.byReason

/-- The parts' statistics are merged to those of the whole. -/
def MergesToWhole (parts : List (List RoundTrip)) (whole : List RoundTrip) (since : Time) : Prop :=
  ∃ m a st, mergeParts parts since = some (m, a) ∧ stats whole since = some st ∧
    Agree (a.view m) st

variable {whole : List RoundTrip}

/-- The rows of the parts together are those of the whole. -/
theorem flatten_windowRows_perm (h : whole.Perm parts.flatten) (since : Time) :
    (windowRows whole since).Perm (parts.map (windowRows · since)).flatten := by
  have hparts : ∀ parts : List (List RoundTrip),
      (parts.flatten.filter (InWindow since)).Perm (parts.map (windowRows · since)).flatten := by
    intro parts
    induction parts with
    | nil => exact List.Perm.refl _
    | cons part parts ih =>
      rw [List.flatten_cons, List.filter_append, List.map_cons, List.flatten_cons]
      exact (windowRows_perm part since).symm.append ih
  exact (windowRows_perm whole since).trans ((h.filter _).trans (hparts parts))

/-- What the order of round trips does not change. -/
theorem Totals.perm {l l' : List RoundTrip} {st : PerfStats Counts} (h : l.Perm l')
    (ht : Totals l (values l) st) : Totals l' (values l') st := by
  have hvalues : values l' = values l := by
    ext x
    exact exists_congr fun t => and_congr_left' h.symm.mem_iff
  have hnil : l' = [] ↔ l = [] := by rw [← List.length_eq_zero_iff, ← h.length_eq,
    List.length_eq_zero_iff]
  rw [hvalues]
  exact {
    trades := ht.trades.trans h.length_eq
    wins := ht.wins.trans (h.countP_eq _)
    losses := ht.losses.trans (h.countP_eq _)
    pnl := ht.pnl.trans (congrArg Int64.ofInt (h.map _).sum_eq)
    fees := ht.fees.trans (congrArg Int64.ofInt (h.map _).sum_eq)
    byReason := ht.byReason.trans (funext fun k => by rw [reasons, reasons, h.countP_eq])
    best := fun hne => ht.best (mt hnil.mpr hne)
    worst := fun hne => ht.worst (mt hnil.mpr hne)
    empty := fun hempty => ht.empty (hnil.mp hempty) }

/-- The extreme with the gaps' zero is that of the results when one of these is no less extreme than
zero. -/
theorem extreme_agrees_iff {r : D → D → Prop} {x y : D}
    (htrans : ∀ {u v w}, r u v → r v w → r u w) (hanti : ∀ {u v}, r u v → r v u → u = v)
    (hx : x ∈ extremesOf rows ∧ ∀ ⦃z⦄, z ∈ extremesOf rows → r z x)
    (hy : y ∈ values rows.flatten ∧ ∀ ⦃z⦄, z ∈ values rows.flatten → r z y) :
    x = y ↔ (Gap rows → ∃ t ∈ rows.flatten, r 0 t.pnl) := by
  constructor
  · rintro rfl hgap
    obtain ⟨t, ht, htx⟩ := hy.1
    exact ⟨t, ht, htx ▸ hx.2 (.inr ⟨hgap, rfl⟩)⟩
  · intro h
    refine hanti ?_ (hx.2 (.inl hy.1))
    rcases hx.1 with hvalue | ⟨hgap, rfl⟩
    · exact hy.2 hvalue
    · obtain ⟨t, ht, hle⟩ := h hgap
      exact htrans hle (hy.2 ⟨t, ht, rfl⟩)

/-- Merged totals and those of the whole differ at most in their extremes. -/
theorem agree_iff {a st : PerfStats Counts} (ha : Totals rows.flatten (extremesOf rows) a)
    (hst : Totals rows.flatten (values rows.flatten) st) : Agree a st ↔
      (Gap rows → (∃ t ∈ rows.flatten, 0 ≤ t.pnl) ∧ ∃ t ∈ rows.flatten, t.pnl ≤ 0) := by
  by_cases hnil : rows.flatten = []
  · obtain ⟨hbest, hworst⟩ := ha.empty hnil
    obtain ⟨hbest', hworst'⟩ := hst.empty hnil
    refine iff_of_true ?_ fun hgap => absurd hnil hgap.ne_nil
    exact ⟨ha.trades.trans hst.trades.symm, ha.wins.trans hst.wins.symm,
      ha.losses.trans hst.losses.symm, ha.pnl.trans hst.pnl.symm, ha.fees.trans hst.fees.symm,
      hbest.trans hbest'.symm, hworst.trans hworst'.symm, ha.byReason.trans hst.byReason.symm⟩
  · have hbest := extreme_agrees_iff (r := fun x y => x ≤ y) Int64.le_trans Int64.le_antisymm
      (ha.best hnil) (hst.best hnil)
    have hworst := extreme_agrees_iff (r := fun x y => y ≤ x)
      (fun huv hvw => Int64.le_trans hvw huv) (fun huv hvu => Int64.le_antisymm hvu huv)
      (ha.worst hnil) (hst.worst hnil)
    rw [forall_and, ← hbest, ← hworst]
    constructor
    · exact fun h => ⟨h.best, h.worst⟩
    · rintro ⟨h, h'⟩
      exact ⟨ha.trades.trans hst.trades.symm, ha.wins.trans hst.wins.symm,
        ha.losses.trans hst.losses.symm, ha.pnl.trans hst.pnl.symm, ha.fees.trans hst.fees.symm,
        h, h', ha.byReason.trans hst.byReason.symm⟩

/-- The statistics of parts are merged to those of the whole exactly when all of these exist, and an
empty part that is merged into others finds both a result that is not negative and one that is not
positive. -/
theorem merges_to_whole_iff (since : Time) (h : whole.Perm parts.flatten) :
    MergesToWhole parts whole since ↔
      (∀ part ∈ whole :: parts, Averaged (windowRows part since)) ∧
        (Gap (parts.map (windowRows · since)) →
          (∃ t ∈ windowRows whole since, 0 ≤ t.pnl) ∧ ∃ t ∈ windowRows whole since, t.pnl ≤ 0) := by
  have hperm := flatten_windowRows_perm h since
  have hmem : ∀ p : RoundTrip → Prop, (∃ t ∈ windowRows whole since, p t) ↔
      ∃ t ∈ (parts.map (windowRows · since)).flatten, p t := fun p =>
    exists_congr fun t => and_congr_left' hperm.mem_iff
  rw [hmem, hmem, List.forall_mem_cons, ← isSome_mergeParts_iff, ← isSome_stats_iff]
  constructor
  · rintro ⟨m, a, st, hmerged, hst, hagree⟩
    refine ⟨⟨by rw [hst]; rfl, by rw [hmerged]; rfl⟩, ?_⟩
    exact (agree_iff (totals_of_merged hmerged).2 ((totals_of_stats hst).perm hperm)).mp hagree
  · rintro ⟨⟨hst, hmerged⟩, hgap⟩
    obtain ⟨st, hst⟩ := Option.isSome_iff_exists.mp hst
    obtain ⟨⟨m, a⟩, hmerged⟩ := Option.isSome_iff_exists.mp hmerged
    exact ⟨m, a, st, hmerged, hst,
      (agree_iff (totals_of_merged hmerged).2 ((totals_of_stats hst).perm hperm)).mpr hgap⟩

/-- A win and a loss of two strategies. -/
theorem merges_to_whole_two : MergesToWhole [[⟨Fixed.scale, 0, 0, "manual", 0, 1⟩],
    [⟨-Fixed.scale, 0, 0, "stop", 0, 2⟩]]
    [⟨-Fixed.scale, 0, 0, "stop", 0, 2⟩, ⟨Fixed.scale, 0, 0, "manual", 0, 1⟩] 0 := by
  refine (merges_to_whole_iff 0 (List.Perm.swap _ _ _)).mpr ⟨?_, fun _ => ?_⟩
  · intro part hpart
    simp only [List.mem_cons, List.not_mem_nil, or_false] at hpart
    rcases hpart with rfl | rfl | rfl <;> exact averaged_of_few (by decide) (by decide)
  · exact ⟨by decide, by decide⟩

/-- A strategy without round trips makes zero the best result of a wallet that only lost. -/
theorem empty_part_is_best :
    (mergeParts [[⟨-Fixed.scale, 0, 0, "stop", 0, 1⟩], []] 0).map (·.2.best) = some 0 ∧
      ¬ MergesToWhole [[⟨-Fixed.scale, 0, 0, "stop", 0, 1⟩], []]
        [⟨-Fixed.scale, 0, 0, "stop", 0, 1⟩] 0 := by
  have hmerged : (mergeParts [[⟨-Fixed.scale, 0, 0, "stop", 0, 1⟩], []] 0).map (·.2.best) =
      some 0 := by decide
  have hwhole : (stats [⟨-Fixed.scale, 0, 0, "stop", 0, 1⟩] 0).map (·.best) =
      some (-Fixed.scale) := by decide
  refine ⟨hmerged, ?_⟩
  rintro ⟨m, a, st, ha, hst, hagree⟩
  rw [ha] at hmerged
  rw [hst] at hwhole
  have hzero : a.best = 0 := Option.some.inj hmerged
  have hloss : st.best = -Fixed.scale := Option.some.inj hwhole
  have hbest : a.best = st.best := hagree.best
  rw [hzero, hloss] at hbest
  exact absurd hbest (by decide)

end SuperAgent.Platform
