import SuperAgent.Platform.RiskTotals
import SuperAgent.Platform.Service
import SuperAgent.Platform.Weeks

/-!
# The rows of a risk report

A row has a strategy's statistics for the day, the week and all time. Its counts
by reason are the maps that the totals of the report are merged from, and a
total that starts with a row's map goes on to be added into it.
-/

namespace SuperAgent.Platform

open Fixed (D)

/-! ## Windows -/

/-- What a report covers. -/
inductive Window
  | today
  | week
  | all
  deriving DecidableEq

namespace Window

/-- When a window begins. -/
def since (now : Time) : Window → Time
  | today => startOfDay now
  | week => startOfWeek now
  | all => 0

/-- The place of a window among the three. -/
def index : Window → ℕ
  | today => 0
  | week => 1
  | all => 2

theorem index_injective : Function.Injective index := by
  intro w w' h
  cases w <;> cases w' <;> first | rfl | cases h

end Window

/-- Something for each window. -/
structure Windows (α : Type) where
  today : α
  week : α
  all : α

namespace Windows

variable {α β : Type}

/-- What there is for a window. -/
def get (x : Windows α) : Window → α
  | .today => x.today
  | .week => x.week
  | .all => x.all

/-- All three, if each is defined. -/
def each (f : Window → Option α) : Option (Windows α) := do
  let today ← f .today
  let week ← f .week
  let all ← f .all
  return ⟨today, week, all⟩

/-- One window after the other, with the maps there are. -/
def thread (f : Maps → α → Maps × β) (m : Maps) (x : Windows α) : Maps × Windows β :=
  let (m, today) := f m x.today
  let (m, week) := f m x.week
  let (m, all) := f m x.all
  (m, ⟨today, week, all⟩)

/-- Two things for each window. -/
def zip (x : Windows α) (y : Windows β) : Windows (α × β) :=
  ⟨(x.today, y.today), (x.week, y.week), (x.all, y.all)⟩

theorem each_eq_some {f : Window → Option α} {x : Windows α} (h : each f = some x) (w : Window) :
    f w = some (x.get w) := by
  simp only [each, Option.bind_eq_bind, Option.bind_eq_some_iff, Option.pure_def,
    Option.some.injEq] at h
  obtain ⟨today, htoday, week, hweek, all, hall, rfl⟩ := h
  cases w
  · exact htoday
  · exact hweek
  · exact hall

end Windows

/-! ## The report -/

/-- Statistics as a report writes them, with the map of their counts. -/
structure PerfDTO where
  trades : ℕ
  wins : ℕ
  losses : ℕ
  pnl : String
  fees : String
  best : String
  worst : String
  avgWin : String
  avgLoss : String
  maxDrawdown : String
  streak : ℤ
  byReason : ℕ

/-- Statistics written; a map that is nil becomes an empty one. -/
def toPerfDTO (m : Maps) (p : PerfStats (Option ℕ)) : Maps × PerfDTO :=
  let (m, byReason) := m.own p.byReason
  (m, {
    trades := p.trades
    wins := p.wins
    losses := p.losses
    pnl := Fixed.string p.pnl
    fees := Fixed.string p.fees
    best := Fixed.string p.best
    worst := Fixed.string p.worst
    avgWin := Fixed.string p.avgWin
    avgLoss := Fixed.string p.avgLoss
    maxDrawdown := Fixed.string p.maxDrawdown
    streak := p.streak
    byReason := byReason })

/-- The service that runs a strategy for the wallet: whether its state can be read, and the
strategy's round trips in the journal, newest first, when these can. -/
structure Serving where
  state : Bool
  journal : Option (List RoundTrip)

/-- The round trips that are read, up to a limit. -/
def Serving.trades (svc : Serving) (limit : ℕ) : Option (List RoundTrip) :=
  svc.journal.map (·.take limit)

/-- A strategy's row: no blocks when it is not enabled, or when its round trips cannot be read. -/
structure RiskRow where
  id : String
  name : String
  enabled : Bool
  blocks : Option (Windows PerfDTO)

/-- A report that is being built. -/
structure RiskBuild where
  rows : List RiskRow
  totals : Windows (PerfStats (Option ℕ))
  maps : Maps

/-- A report, with the maps its blocks refer to. -/
structure RiskReport where
  rows : List RiskRow
  totals : Windows PerfDTO
  maps : Maps

/-- How many round trips a report reads of a strategy. -/
def tradeLimit : ℕ := 500

namespace RiskBuild

/-- Nothing is read yet; the totals are zero values, whose maps are nil. -/
def start : RiskBuild where
  rows := []
  totals := ⟨.zero none, .zero none, .zero none⟩
  maps := ⟨[]⟩

/-- A strategy's round trips, written to its row and merged into the totals. -/
def read (b : RiskBuild) (s : Info) (trades : List RoundTrip) (now : Time) : Option RiskBuild := do
  let stats ← Windows.each fun w => stats trades (w.since now)
  let (m, stats) := stats.thread Maps.keep b.maps
  let (m, blocks) := stats.thread toPerfDTO m
  let (m, totals) := (b.totals.zip stats).thread (fun m x => mergeStats m x.1 x.2) m
  return ⟨b.rows ++ [⟨s.id, s.name, true, some blocks⟩], totals, m⟩

/-- The next strategy of the catalog. A state that cannot be read leaves no report. -/
def next (services : String → Option Serving) (now : Time) (b : RiskBuild) (s : Info) :
    Option RiskBuild :=
  match services s.id with
  | none => some { b with rows := b.rows ++ [⟨s.id, s.name, false, none⟩] }
  | some svc =>
    if svc.state then
      match svc.trades tradeLimit with
      | none => some { b with rows := b.rows ++ [⟨s.id, s.name, true, none⟩] }
      | some trades => b.read s trades now
    else none

end RiskBuild

/-- The report of a wallet, from the services of its strategies. -/
def buildRisk (services : String → Option Serving) (now : Time) : Option RiskReport := do
  let b ← catalog.foldlM (RiskBuild.next services now) .start
  let (m, totals) := b.totals.thread toPerfDTO b.maps
  return ⟨b.rows, totals, m⟩

/-! ## Maps that are kept and maps that are written to -/

namespace Maps

/-- The maps there were still have what they had. -/
structure Extends (m m' : Maps) : Prop where
  length : m.cells.length ≤ m'.cells.length
  kept : ∀ q < m.cells.length, m'.read q = m.read q

/-- Counts are added to the maps that the totals refer to; the others still have what they had. -/
structure Merges (m m' : Maps) (targets : Window → Option ℕ) (added : Window → Counts) :
    Prop where
  length : m.cells.length ≤ m'.cells.length
  written : ∀ w, ∀ q < m.cells.length, targets w = some q →
    m'.read q = fun k => m.read q k + added w k
  kept : ∀ q < m.cells.length, (∀ w, targets w ≠ some q) → m'.read q = m.read q

variable {m m' m'' : Maps}

theorem Extends.trans (h : m.Extends m') (h' : m'.Extends m'') : m.Extends m'' where
  length := h.length.trans h'.length
  kept q hq := (h'.kept q (hq.trans_le h.length)).trans (h.kept q hq)

theorem extends_own (m : Maps) (o : Option ℕ) : m.Extends (m.own o).1 where
  length := length_le_own m o
  kept _ hq := read_own_of_lt o hq

theorem Extends.holds {o : Option ℕ} (h : m.Extends m') (ho : m.Holds o) : m'.Holds o :=
  fun q hq => (ho q hq).trans_le h.length

theorem Extends.counts {o : Option ℕ} (h : m.Extends m') (ho : m.Holds o) :
    m'.counts o = m.counts o := by
  cases o with
  | none => rfl
  | some q => exact h.kept q (ho q rfl)

/-- A reference that is not written to. -/
theorem counts_mergeStats {a b : PerfStats (Option ℕ)} {o : Option ℕ} (ha : m.Holds a.byReason)
    (hb : m.Holds b.byReason) (ho : m.Holds o) (h : ∀ q, o = some q → a.target ≠ some q) :
    (mergeStats m a b).1.counts o = m.counts o := by
  cases o with
  | none => rfl
  | some q =>
    change Maps.read _ q = _
    rw [read_mergeStats ha hb (ho q rfl), if_neg (h q rfl)]
    rfl

end Maps

open Maps

/-- The reference of merged statistics, and how many round trips they have. -/
theorem byReason_mergeStats {m : Maps} {a b : PerfStats (Option ℕ)}
    (h : a.trades ≠ 0 → a.byReason ≠ none) :
    (mergeStats m a b).2.trades = a.trades + b.trades ∧
      (mergeStats m a b).2.byReason = if a.trades = 0 then b.byReason else a.byReason := by
  rw [mergeStats]
  dsimp only
  by_cases hnone : a.trades = 0
  · rw [if_pos hnone, if_pos hnone, hnone, Nat.zero_add]
    exact ⟨rfl, rfl⟩
  · rw [if_neg hnone, if_neg hnone]
    refine ⟨rfl, ?_⟩
    obtain ⟨r, hr⟩ := Option.ne_none_iff_exists'.mp (h hnone)
    rw [hr]
    rfl

/-- A map for each window's statistics. -/
theorem thread_keep (m : Maps) (x : Windows (PerfStats Counts)) :
    m.Extends (x.thread Maps.keep m).1 ∧ ∀ w,
      (x.thread Maps.keep m).2.get w =
        { x.get w with byReason := some (m.cells.length + w.index) } ∧
      m.cells.length + w.index < (x.thread Maps.keep m).1.cells.length ∧
      (x.thread Maps.keep m).1.read (m.cells.length + w.index) = (x.get w).byReason := by
  have hcells : (x.thread Maps.keep m).1.cells =
      m.cells ++ [x.today.byReason, x.week.byReason, x.all.byReason] := by
    simp [Windows.thread, Maps.keep, Maps.make]
  have hlength : (x.thread Maps.keep m).1.cells.length = m.cells.length + 3 := by
    rw [hcells, List.length_append]
    rfl
  refine ⟨⟨by omega, fun q hq => ?_⟩, fun w => ⟨?_, ?_, ?_⟩⟩
  · rw [Maps.read, hcells, List.getD_append _ _ _ _ hq, Maps.read]
  · cases w <;> simp [Windows.thread, Windows.get, Maps.keep, Maps.make, Window.index]
  · cases w <;> simp only [hlength, Window.index] <;> omega
  · rw [Maps.read, hcells, List.getD_append_right _ _ _ _ (Nat.le_add_right _ _),
      Nat.add_sub_cancel_left]
    cases w <;> rfl

/-- Statistics with maps are written without another one. -/
theorem toPerfDTO_of_some {m : Maps} {p : PerfStats (Option ℕ)} {r : ℕ} (h : p.byReason = some r) :
    (toPerfDTO m p).1 = m ∧ (toPerfDTO m p).2.byReason = r := by
  rw [toPerfDTO, h]
  exact ⟨rfl, rfl⟩

theorem thread_toPerfDTO {m : Maps} {x : Windows (PerfStats (Option ℕ))} {r : Window → ℕ}
    (h : ∀ w, (x.get w).byReason = some (r w)) :
    (x.thread toPerfDTO m).1 = m ∧ ∀ w, ((x.thread toPerfDTO m).2.get w).byReason = r w := by
  obtain ⟨htoday, hday⟩ := toPerfDTO_of_some (m := m) (h .today)
  obtain ⟨hweek, hseven⟩ := toPerfDTO_of_some (m := m) (h .week)
  obtain ⟨hall, hever⟩ := toPerfDTO_of_some (m := m) (h .all)
  change (toPerfDTO m x.today).1 = m at htoday
  change (toPerfDTO m x.week).1 = m at hweek
  change (toPerfDTO m x.all).1 = m at hall
  simp only [Windows.thread, htoday, hweek, hall, true_and]
  rintro (_ | _ | _)
  · exact hday
  · exact hseven
  · exact hever

/-- Whatever is written, the maps there were are kept. -/
theorem extends_toPerfDTO (m : Maps) (x : Windows (PerfStats (Option ℕ))) :
    m.Extends (x.thread toPerfDTO m).1 :=
  ((extends_own _ _).trans (extends_own _ _)).trans (extends_own _ _)

/-! ## Merging a strategy into the totals -/

/-- Totals that are not empty have a map of their own, one for each window. -/
structure Separate (m : Maps) (totals : Windows (PerfStats (Option ℕ))) : Prop where
  holds : ∀ w, m.Holds (totals.get w).byReason
  mapped : ∀ w, (totals.get w).trades ≠ 0 → (totals.get w).byReason ≠ none
  apart : ∀ w w' q, (totals.get w).target = some q → (totals.get w').target = some q → w = w'

/-- All three windows, one merge after the other. -/
def mergeAll (m : Maps) (a b : Windows (PerfStats (Option ℕ))) :
    Maps × Windows (PerfStats (Option ℕ)) :=
  (a.zip b).thread (fun m x => mergeStats m x.1 x.2) m

variable {m : Maps} {a b : Windows (PerfStats (Option ℕ))}

theorem target_lt (h : Separate m a) {w : Window} {q : ℕ} (hq : (a.get w).target = some q) :
    q < m.cells.length := by
  refine h.holds w q ?_
  rw [PerfStats.target] at hq
  split at hq
  · cases hq
  · exact hq

/-- The totals that result. -/
theorem get_mergeAll (h : Separate m a) (w : Window) :
    ((mergeAll m a b).2.get w).trades = (a.get w).trades + (b.get w).trades ∧
      ((mergeAll m a b).2.get w).byReason =
        if (a.get w).trades = 0 then (b.get w).byReason else (a.get w).byReason := by
  cases w
  · exact byReason_mergeStats (h.mapped .today)
  · exact byReason_mergeStats (h.mapped .week)
  · exact byReason_mergeStats (h.mapped .all)

/-- Each window's counts are added to the map of its totals. -/
theorem merges_mergeAll (h : Separate m a) (hb : ∀ w, m.Holds (b.get w).byReason)
    (hfresh : ∀ w w' q, (b.get w).byReason = some q → (a.get w').target ≠ some q) :
    m.Merges (mergeAll m a b).1 (fun w => (a.get w).target)
      fun w => m.counts (b.get w).byReason := by
  let m₁ := (mergeStats m a.today b.today).1
  let m₂ := (mergeStats m₁ a.week b.week).1
  let m₃ := (mergeStats m₂ a.all b.all).1
  have hm₃ : (mergeAll m a b).1 = m₃ := rfl
  have hlength₁ : m.cells.length ≤ m₁.cells.length := length_le_mergeStats _ _ _
  have hlength₂ : m₁.cells.length ≤ m₂.cells.length := length_le_mergeStats _ _ _
  have hlength₃ : m₂.cells.length ≤ m₃.cells.length := length_le_mergeStats _ _ _
  have hholds₁ : ∀ o, m.Holds o → m₁.Holds o := fun o ho q hq => (ho q hq).trans_le hlength₁
  have hholds₂ : ∀ o, m.Holds o → m₂.Holds o := fun o ho q hq =>
    (ho q hq).trans_le (hlength₁.trans hlength₂)
  have hread₁ : ∀ q < m.cells.length, m₁.read q = if (a.get .today).target = some q
      then fun k => m.read q k + m.counts (b.get .today).byReason k else m.read q := fun q hq =>
    read_mergeStats (h.holds .today) (hb .today) hq
  -- the counts of the other windows are not written to meanwhile
  have hweek : m₁.counts (b.get .week).byReason = m.counts (b.get .week).byReason :=
    counts_mergeStats (h.holds .today) (hb .today) (hb .week) fun q hq => hfresh .week .today q hq
  have hall₁ : m₁.counts (b.get .all).byReason = m.counts (b.get .all).byReason :=
    counts_mergeStats (h.holds .today) (hb .today) (hb .all) fun q hq => hfresh .all .today q hq
  have hall₂ : m₂.counts (b.get .all).byReason = m₁.counts (b.get .all).byReason :=
    counts_mergeStats (hholds₁ _ (h.holds .week)) (hholds₁ _ (hb .week)) (hholds₁ _ (hb .all))
      fun q hq => hfresh .all .week q hq
  have hread₂ : ∀ q < m.cells.length, m₂.read q = if (a.get .week).target = some q
      then fun k => m₁.read q k + m.counts (b.get .week).byReason k else m₁.read q := fun q hq => by
    rw [← hweek]
    exact read_mergeStats (hholds₁ _ (h.holds .week)) (hholds₁ _ (hb .week)) (hq.trans_le hlength₁)
  have hread₃ : ∀ q < m.cells.length, m₃.read q = if (a.get .all).target = some q
      then fun k => m₂.read q k + m.counts (b.get .all).byReason k else m₂.read q := fun q hq => by
    rw [← hall₁, ← hall₂]
    exact read_mergeStats (hholds₂ _ (h.holds .all)) (hholds₂ _ (hb .all))
      (hq.trans_le (hlength₁.trans hlength₂))
  rw [hm₃]
  refine ⟨(hlength₁.trans hlength₂).trans hlength₃, fun w q hq hw => ?_, fun q hq hnone => ?_⟩
  · have hother : ∀ w', w' ≠ w → (a.get w').target ≠ some q := fun w' hne hw' =>
      hne (h.apart w' w q hw' hw)
    rw [hread₃ q hq, hread₂ q hq, hread₁ q hq]
    cases w with
    | today =>
      rw [if_neg (hother .all (by decide)), if_neg (hother .week (by decide)), if_pos hw]
    | week =>
      rw [if_neg (hother .all (by decide)), if_pos hw, if_neg (hother .today (by decide))]
    | all =>
      rw [if_pos hw, if_neg (hother .week (by decide)), if_neg (hother .today (by decide))]
  · rw [hread₃ q hq, hread₂ q hq, hread₁ q hq, if_neg (hnone .all), if_neg (hnone .week),
      if_neg (hnone .today)]

/-! ## One strategy after the other -/

/-- The round trips of a window. -/
def within (now : Time) (w : Window) (trades : List RoundTrip) : List RoundTrip :=
  trades.filter (InWindow (w.since now))

/-- A strategy's round trips, none when they cannot be read. -/
def journal (services : String → Option Serving) (id : String) : List RoundTrip :=
  ((services id).bind (·.journal)).getD []

/-- Those of a window that a report reads of some strategies. -/
def readIn (services : String → Option Serving) (now : Time) (w : Window) (infos : List Info) :
    List RoundTrip :=
  infos.flatMap fun s => within now w ((journal services s.id).take tradeLimit)

/-- A strategy's row is written and its statistics are merged. -/
structure Advances (trades : List RoundTrip) (now : Time) (b : RiskBuild) (row : RiskRow)
    (b' : RiskBuild) : Prop where
  rows : b'.rows = b.rows ++ [row]
  separate : Separate b'.maps b'.totals
  merges : b.maps.Merges b'.maps (fun w => (b.totals.get w).target)
    fun w => reasons (within now w trades)
  stays : ∀ w q, (b.totals.get w).target = some q → (b'.totals.get w).target = some q
  origin : ∀ w q, (b'.totals.get w).target = some q →
    (b.totals.get w).target = some q ∨ b.maps.cells.length ≤ q
  empty : ∀ w, (b'.totals.get w).target = none ↔
    (b.totals.get w).target = none ∧ within now w trades = []
  held : ∀ blocks, row.blocks = some blocks → ∀ w,
    (blocks.get w).byReason < b'.maps.cells.length ∧
      b'.maps.read (blocks.get w).byReason = reasons (within now w trades)
  shared : ∀ blocks, row.blocks = some blocks → ∀ w w',
    (b'.totals.get w').target = some (blocks.get w).byReason ↔
      w' = w ∧ (b.totals.get w).target = none ∧ within now w trades ≠ []

variable {services : String → Option Serving} {now : Time} {s : Info} {trades : List RoundTrip}
  {build build' : RiskBuild} {row : RiskRow}

/-- The statistics of a window count its round trips. -/
theorem counts_of_stats {st : PerfStats Counts} {w : Window}
    (h : stats trades (w.since now) = some st) :
    st.byReason = reasons (within now w trades) ∧
      (st.trades = 0 ↔ within now w trades = []) := by
  have htotals := totals_of_stats h
  have hperm := windowRows_perm trades (w.since now)
  refine ⟨?_, ?_⟩
  · rw [htotals.byReason]
    funext k
    rw [reasons, reasons, hperm.countP_eq]
    rfl
  · rw [htotals.trades, hperm.length_eq, List.length_eq_zero_iff]
    rfl

/-- A row without statistics changes nothing else. -/
theorem advances_without (h : Separate build.maps build.totals) (hrow : row.blocks = none) :
    Advances [] now build row { build with rows := build.rows ++ [row] } where
  rows := rfl
  separate := h
  merges := ⟨Nat.le_refl _, fun w q _ _ => by
    funext k
    simp [within, reasons], fun _ _ _ => rfl⟩
  stays _ _ h := h
  origin _ _ h := .inl h
  empty _ := (and_iff_left rfl).symm
  held blocks hblocks := nomatch hrow.symm.trans hblocks
  shared blocks hblocks := nomatch hrow.symm.trans hblocks

/-- The map that merged totals refer to is the one they had, or else that of the statistics. -/
theorem target_mergeAll (h : Separate m a) {n : ℕ}
    (hb : ∀ w, (b.get w).byReason = some (n + w.index)) (w : Window) :
    ((mergeAll m a b).2.get w).target = (a.get w).target.or
      (if (b.get w).trades = 0 then none else some (n + w.index)) := by
  obtain ⟨htrades, hreason⟩ := get_mergeAll (b := b) h w
  rw [PerfStats.target, PerfStats.target, htrades, hreason, hb]
  by_cases hnone : (a.get w).trades = 0
  · rw [hnone, Nat.zero_add, if_pos rfl, if_pos rfl, Option.none_or]
  · obtain ⟨r, hr⟩ := Option.ne_none_iff_exists'.mp (h.mapped w hnone)
    rw [if_neg hnone, if_neg hnone, if_neg (by omega), hr, Option.some_or]

/-- Merged totals have maps of their own again. -/
theorem separate_mergeAll (h : Separate m a) {n : ℕ} (hn : ∀ w q, (a.get w).target = some q → q < n)
    (hb : ∀ w, (b.get w).byReason = some (n + w.index))
    (hlt : ∀ w : Window, n + w.index < m.cells.length)
    (hlength : m.cells.length ≤ (mergeAll m a b).1.cells.length) :
    Separate (mergeAll m a b).1 (mergeAll m a b).2 where
  holds w q hq := by
    rw [(get_mergeAll h w).2] at hq
    split at hq
    · rw [hb] at hq
      exact ((Option.some.inj hq) ▸ hlt w).trans_le hlength
    · exact (h.holds w q hq).trans_le hlength
  mapped w hne := by
    obtain ⟨-, hreason⟩ := get_mergeAll (b := b) h w
    rw [hreason]
    split
    · rw [hb]
      nofun
    · next hsome => exact h.mapped w hsome
  apart w w' q hw hw' := by
    rw [target_mergeAll h hb, Option.or_eq_some_iff] at hw hw'
    have hnew : ∀ v : Window, (if (b.get v).trades = 0 then none else some (n + v.index)) = some q →
        q = n + v.index := fun v hv => by
      split at hv
      · cases hv
      · exact (Option.some.inj hv).symm
    rcases hw with hw | ⟨-, hw⟩ <;> rcases hw' with hw' | ⟨-, hw'⟩
    · exact h.apart w w' q hw hw'
    · have hlt := hn w q hw
      have heq := hnew w' hw'
      omega
    · have hlt := hn w' q hw'
      have heq := hnew w hw
      omega
    · refine Window.index_injective (Nat.add_left_cancel (n := n) ?_)
      rw [← hnew w hw, ← hnew w' hw']

/-- Statistics that are read are merged after their row is written. -/
theorem advances_read (h : Separate build.maps build.totals)
    (hread : build.read s trades now = some build') :
    ∃ row, row.id = s.id ∧ row.blocks ≠ none ∧ Advances trades now build row build' := by
  simp only [RiskBuild.read, Option.bind_eq_bind, Option.bind_eq_some_iff, Option.pure_def,
    Option.some.injEq] at hread
  obtain ⟨sts, hsts, hbuilt⟩ := hread
  have hstats : ∀ w, (sts.get w).byReason = reasons (within now w trades) ∧
      ((sts.get w).trades = 0 ↔ within now w trades = []) := fun w =>
    counts_of_stats (Windows.each_eq_some hsts w)
  obtain ⟨hextends, hkeep⟩ := thread_keep build.maps sts
  let n := build.maps.cells.length
  let m := (sts.thread Maps.keep build.maps).1
  let kept := (sts.thread Maps.keep build.maps).2
  let blocks := (kept.thread toPerfDTO m).2
  have href : ∀ w, (kept.get w).byReason = some (n + w.index) := fun w => by rw [(hkeep w).1]
  obtain ⟨hsame, hblocks⟩ := thread_toPerfDTO (m := m) href
  have hbuild : build' = ⟨build.rows ++ [⟨s.id, s.name, true, some blocks⟩],
      (mergeAll m build.totals kept).2, (mergeAll m build.totals kept).1⟩ := by
    rw [← hbuilt, ← hsame]
    rfl
  have hsep : Separate m build.totals := ⟨fun w => hextends.holds (h.holds w), h.mapped, h.apart⟩
  have hold : ∀ w q, (build.totals.get w).target = some q → q < n := fun w q => target_lt h
  have hmaps : m.Merges (mergeAll m build.totals kept).1 (fun w => (build.totals.get w).target)
      fun w => reasons (within now w trades) := by
    have hcounts : ∀ w, m.counts (kept.get w).byReason = reasons (within now w trades) := fun w => by
      rw [href, ← (hstats w).1, ← (hkeep w).2.2]
      rfl
    simp only [← hcounts]
    refine merges_mergeAll hsep (fun w q hq => ?_) fun w w' q hq ht => ?_
    · rw [href] at hq
      exact Option.some.inj hq ▸ (hkeep w).2.1
    · rw [href, Option.some.injEq] at hq
      have hlt := hold w' q ht
      omega
  have htarget : ∀ w, ((mergeAll m build.totals kept).2.get w).target =
      (build.totals.get w).target.or
        (if within now w trades = [] then none else some (n + w.index)) := fun w => by
    rw [target_mergeAll hsep href, (hkeep w).1]
    simp only [(hstats w).2]
  refine ⟨⟨s.id, s.name, true, some blocks⟩, rfl, nofun, ?_⟩
  subst hbuild
  exact {
    rows := rfl
    separate := separate_mergeAll hsep hold href (fun w => (hkeep w).2.1) hmaps.length
    merges := by
      refine ⟨hextends.length.trans hmaps.length, fun w q hq hw => ?_, fun q hq hnone => ?_⟩
      · rw [hmaps.written w q (hq.trans_le hextends.length) hw, hextends.kept q hq]
      · rw [hmaps.kept q (hq.trans_le hextends.length) hnone, hextends.kept q hq]
    stays := fun w q hq => by
      rw [htarget, hq, Option.some_or]
    origin := fun w q hq => by
      rw [htarget, Option.or_eq_some_iff] at hq
      refine hq.imp id fun ⟨_, hq⟩ => ?_
      split at hq
      · cases hq
      · exact Option.some.inj hq ▸ Nat.le_add_right _ _
    empty := fun w => by
      rw [htarget, Option.or_eq_none_iff]
      exact and_congr_right' (by split <;> simp [*])
    held := by
      rintro _ ⟨⟩ w
      have hlt := (hkeep w).2.1
      rw [hblocks]
      refine ⟨hlt.trans_le hmaps.length, ?_⟩
      rw [hmaps.kept _ hlt fun w' hw' => absurd (hold w' _ hw') (by omega), (hkeep w).2.2,
        (hstats w).1]
    shared := by
      rintro _ ⟨⟩ w w'
      rw [hblocks, htarget, Option.or_eq_some_iff]
      constructor
      · rintro (hq | ⟨hnone, hq⟩)
        · exact absurd (hold w' _ hq) (by omega)
        · split at hq
          · cases hq
          · next hne =>
            have hw : w' = w :=
              Window.index_injective (Nat.add_left_cancel (Option.some.inj hq))
            subst hw
            exact ⟨rfl, hnone, hne⟩
      · rintro ⟨rfl, hnone, hne⟩
        exact .inr ⟨hnone, by rw [if_neg hne]⟩ }

/-- What the catalog's next strategy does. -/
theorem advances_next (h : Separate build.maps build.totals)
    (hnext : build.next services now s = some build') :
    ∃ row, row.id = s.id ∧ (row.blocks = none → journal services s.id = []) ∧
      Advances ((journal services s.id).take tradeLimit) now build row build' := by
  rw [RiskBuild.next] at hnext
  split at hnext
  · next hnone =>
    have hjournal : journal services s.id = [] := by rw [journal, hnone]; rfl
    rw [hjournal, ← Option.some.inj hnext]
    exact ⟨_, rfl, fun _ => rfl, advances_without h rfl⟩
  · next svc hsvc =>
    split at hnext
    · split at hnext
      · next htrades =>
        have hjournal : journal services s.id = [] := by
          rw [journal, hsvc, Option.bind_some, Option.map_eq_none_iff.mp htrades]
          rfl
        rw [hjournal, ← Option.some.inj hnext]
        exact ⟨_, rfl, fun _ => rfl, advances_without h rfl⟩
      · next trades htrades =>
        obtain ⟨rows, hrows, htake⟩ := Option.map_eq_some_iff.mp htrades
        have hjournal : journal services s.id = rows := by
          rw [journal, hsvc, Option.bind_some, hrows]
          rfl
        rw [hjournal, htake]
        obtain ⟨row, hid, hsome, hadvances⟩ := advances_read h hnext
        exact ⟨row, hid, fun hnone => absurd hnone hsome, hadvances⟩
    · cases hnext

/-- What is merged from here on goes into maps there are and into new ones. -/
theorem Maps.Merges.trans {m m' m'' : Maps} {t t' : Window → Option ℕ} {c c' : Window → Counts}
    (h : m.Merges m' t c) (h' : m'.Merges m'' t' c') (hstays : ∀ w q, t w = some q → t' w = some q)
    (horigin : ∀ w q, t' w = some q → t w = some q ∨ m.cells.length ≤ q) :
    m.Merges m'' t fun w k => c w k + c' w k where
  length := h.length.trans h'.length
  written w q hq hw := by
    funext k
    rw [h'.written w q (hq.trans_le h.length) (hstays w q hw), h.written w q hq hw]
    exact Nat.add_assoc _ _ _
  kept q hq hnone := by
    rw [h'.kept q (hq.trans_le h.length) fun w hw => ?_, h.kept q hq hnone]
    exact (horigin w q hw).elim (hnone w) (Nat.not_le_of_lt hq)

/-- What is merged into the map of a row after the row is written: everything that follows, when the
row is the first with round trips in the window. -/
def spill (services : String → Option Serving) (now : Time) (w : Window) (l : List Info) (s : Info)
    (l' : List Info) : Counts :=
  if readIn services now w l = [] ∧ readIn services now w [s] ≠ [] then
    reasons (readIn services now w l')
  else fun _ => 0

/-- The rows of the strategies that are left. -/
theorem rows_of_rest {infos : List Info} (h : Separate build.maps build.totals)
    (hrun : infos.foldlM (RiskBuild.next services now) build = some build') :
    build.maps.Merges build'.maps (fun w => (build.totals.get w).target)
        (fun w => reasons (readIn services now w infos)) ∧
      ∃ rows, build'.rows = build.rows ++ rows ∧ rows.length = infos.length ∧
        ∀ l s l', infos = l ++ s :: l' → ∃ row, rows[l.length]? = some row ∧ row.id = s.id ∧
          (row.blocks = none → journal services s.id = []) ∧
          ∀ blocks, row.blocks = some blocks → ∀ w,
            (blocks.get w).byReason < build'.maps.cells.length ∧
            build'.maps.read (blocks.get w).byReason = fun k =>
              reasons (readIn services now w [s]) k +
                if (build.totals.get w).target = none then spill services now w l s l' k else 0 := by
  induction infos generalizing build with
  | nil =>
    cases hrun
    refine ⟨⟨Nat.le_refl _, fun w q _ _ => ?_, fun _ _ _ => rfl⟩, [], (List.append_nil _).symm, rfl,
      fun l s l' heq => ?_⟩
    · funext k
      simp [readIn, reasons]
    · cases l <;> cases heq
  | cons s₀ infos ih =>
    rw [List.foldlM_cons, Option.bind_eq_bind, Option.bind_eq_some_iff] at hrun
    obtain ⟨next, hnext, hrun⟩ := hrun
    obtain ⟨row, hid, hnone, hadvances⟩ := advances_next h hnext
    obtain ⟨hmerges, rows, hrows, hlength, hrest⟩ := ih hadvances.separate hrun
    have hreadIn : ∀ w l, readIn services now w (s₀ :: l) =
        within now w ((journal services s₀.id).take tradeLimit) ++ readIn services now w l :=
      fun w l => List.flatMap_cons
    refine ⟨?_, row :: rows, ?_, by rw [List.length_cons, hlength, List.length_cons], ?_⟩
    · simp only [hreadIn, reasons_append]
      exact hadvances.merges.trans hmerges hadvances.stays hadvances.origin
    · rw [hrows, hadvances.rows, List.append_assoc, List.singleton_append]
    · intro l s l' heq
      cases l with
      | nil =>
        obtain ⟨rfl, rfl⟩ := List.cons.inj heq
        refine ⟨row, rfl, hid, hnone, fun blocks hblocks w => ?_⟩
        obtain ⟨hlt, hread⟩ := hadvances.held blocks hblocks w
        have hone : readIn services now w [s₀] =
            within now w ((journal services s₀.id).take tradeLimit) :=
          (hreadIn w []).trans (List.append_nil _)
        refine ⟨hlt.trans_le hmerges.length, ?_⟩
        rw [hone, ← hread]
        by_cases hfirst : (build.totals.get w).target = none ∧
            within now w ((journal services s₀.id).take tradeLimit) ≠ []
        · have hspill : spill services now w [] s₀ infos = reasons (readIn services now w infos) := by
            rw [spill, hone, if_pos ⟨rfl, hfirst.2⟩]
          simp only [hfirst.1, if_true, hspill]
          exact hmerges.written w _ hlt ((hadvances.shared blocks hblocks w w).mpr ⟨rfl, hfirst⟩)
        · have hkept : build'.maps.read (blocks.get w).byReason = _ :=
            hmerges.kept _ hlt fun w' hw' =>
              hfirst ((hadvances.shared blocks hblocks w w').mp hw').2
          rw [hkept]
          funext k
          split
          · next hempty => rw [spill, hone, if_neg fun h => hfirst ⟨hempty, h.2⟩, Nat.add_zero]
          · rfl
      | cons s₁ l =>
        obtain ⟨rfl, rfl⟩ := List.cons.inj heq
        obtain ⟨row', hrow', hid', hnone', hblocks'⟩ := hrest l s l' rfl
        refine ⟨row', hrow', hid', hnone', fun blocks hblocks w => ?_⟩
        obtain ⟨hlt, hread⟩ := hblocks' blocks hblocks w
        refine ⟨hlt, ?_⟩
        rw [hread]
        funext k
        simp only [spill, hreadIn, List.append_eq_nil_iff, hadvances.empty]
        by_cases hempty : (build.totals.get w).target = none <;>
          by_cases hnil : within now w ((journal services s₀.id).take tradeLimit) = [] <;>
            simp [hempty, hnil]

/-! ## What a row describes -/

/-- Each row's counts by reason are those over the strategy's own round trips. -/
def RowsOwn (services : String → Option Serving) (now : Time) (report : RiskReport) : Prop :=
  ∀ row ∈ report.rows, ∀ blocks, row.blocks = some blocks → ∀ w,
    report.maps.read (blocks.get w).byReason = reasons (within now w (journal services row.id))

/-- The round trips of a window beyond those that a report reads. -/
def unreadTrades (services : String → Option Serving) (now : Time) (w : Window) (s : Info) :
    List RoundTrip :=
  within now w ((journal services s.id).drop tradeLimit)

/-- The rows of a report are as its strategies' round trips were read, with what spilled over. -/
theorem rows_of_report {report : RiskReport} (h : buildRisk services now = some report) :
    report.rows.length = catalog.length ∧
      ∀ l s l', catalog = l ++ s :: l' → ∃ row, report.rows[l.length]? = some row ∧ row.id = s.id ∧
        (row.blocks = none → journal services s.id = []) ∧
        ∀ blocks, row.blocks = some blocks → ∀ w, report.maps.read (blocks.get w).byReason =
          fun k => reasons (readIn services now w [s]) k + spill services now w l s l' k := by
  simp only [buildRisk, Option.bind_eq_bind, Option.bind_eq_some_iff, Option.pure_def,
    Option.some.injEq] at h
  obtain ⟨build, hrun, rfl⟩ := h
  have hnone : ∀ w, (RiskBuild.start.totals.get w).byReason = none := fun w => by cases w <;> rfl
  have hzero : ∀ w, (RiskBuild.start.totals.get w).trades = 0 := fun w => by cases w <;> rfl
  have htarget : ∀ w, (RiskBuild.start.totals.get w).target = none := fun w => by
    rw [PerfStats.target, if_pos (hzero w)]
  have hstart : Separate RiskBuild.start.maps RiskBuild.start.totals := {
    holds := fun w q hq => absurd (hq.symm.trans (hnone w)) (Option.some_ne_none q)
    mapped := fun w hne => absurd (hzero w) hne
    apart := fun w _ q hw => absurd (hw.symm.trans (htarget w)) (Option.some_ne_none q) }
  obtain ⟨-, rows, hrows, hlength, hall⟩ := rows_of_rest hstart hrun
  have hextends := extends_toPerfDTO build.maps build.totals
  refine ⟨(congrArg List.length hrows).trans hlength, fun l s l' heq => ?_⟩
  obtain ⟨row, hrow, hid, hunread, hblocks⟩ := hall l s l' heq
  refine ⟨row, ?_, hid, hunread, fun blocks hsome w => ?_⟩
  · rw [← hrow]
    exact congrArg (·[l.length]?) hrows
  · obtain ⟨hlt, hread⟩ := hblocks blocks hsome w
    rw [hextends.kept _ hlt, hread]
    funext k
    rw [if_pos (htarget w)]

/-- A report's rows describe their own strategies exactly when what spills over into a row's counts
is what the limit on the round trips that are read leaves out of them. With fewer round trips than
the limit: when no round trip has a reason that follows the first strategy of the window. -/
theorem rows_own_iff {report : RiskReport} (h : buildRisk services now = some report) :
    RowsOwn services now report ↔ ∀ w l s l', catalog = l ++ s :: l' →
      reasons (unreadTrades services now w s) = spill services now w l s l' := by
  obtain ⟨hlength, hall⟩ := rows_of_report h
  have hown : ∀ (s : Info) (w : Window), reasons (within now w (journal services s.id)) = fun k =>
      reasons (readIn services now w [s]) k + reasons (unreadTrades services now w s) k := by
    intro s w
    rw [← reasons_append, readIn, List.flatMap_singleton, unreadTrades, within, within,
      within, ← List.filter_append, List.take_append_drop]
  have hsame : ∀ (s : Info) (w : Window) (c : Counts),
      ((fun k => reasons (readIn services now w [s]) k + c k) =
        reasons (within now w (journal services s.id))) ↔ reasons (unreadTrades services now w s) = c := by
    intro s w c
    rw [hown, funext_iff, funext_iff]
    exact forall_congr' fun k => ⟨fun h => (Nat.add_left_cancel h).symm, fun h => by rw [h]⟩
  constructor
  · intro hrows w l s l' heq
    obtain ⟨row, hrow, hid, hnone, hblocks⟩ := hall l s l' heq
    cases hsome : row.blocks with
    | none =>
      have hnil := hnone hsome
      have hread : readIn services now w [s] = [] := by simp [readIn, hnil, within]
      rw [spill, if_neg fun h => h.2 hread, unreadTrades, hnil]
      funext k
      simp [within, reasons]
    | some blocks =>
      have hcounts := hrows row (List.mem_of_getElem? hrow) blocks hsome w
      rw [hblocks blocks hsome w, hid] at hcounts
      exact (hsame s w _).mp hcounts
  · intro hspill row hmem blocks hsome w
    obtain ⟨i, hi, hrow⟩ := List.getElem_of_mem hmem
    have hlt : i < catalog.length := hlength ▸ hi
    have heq : catalog = catalog.take i ++ catalog[i] :: catalog.drop (i + 1) := by
      rw [List.cons_getElem_drop_succ, List.take_append_drop]
    obtain ⟨row', hrow', hid, -, hblocks⟩ := hall _ _ _ heq
    rw [List.length_take_of_le hlt.le, List.getElem?_eq_getElem hi, hrow] at hrow'
    obtain rfl := Option.some.inj hrow'
    rw [hblocks blocks hsome w, hid]
    exact (hsame _ w _).mpr (hspill w _ _ _ heq)

/-- A Wednesday in March. -/
def march : Time := Time.ofDate 2026 3 4

/-- Two strategies with one round trip each, stopped and closed by hand. -/
def twoStrategies (id : String) : Option Serving :=
  if id = "direction" then some ⟨true, some [⟨Fixed.scale, 0, 0, "stop", march, march⟩]⟩
  else if id = "rsi" then some ⟨true, some [⟨Fixed.scale, 0, 0, "manual", march, march⟩]⟩
  else none

/-- One round trip of the last strategy. -/
def lastStrategy (id : String) : Option Serving :=
  if id = "orb" then some ⟨true, some [⟨Fixed.scale, 0, 0, "stop", march, march⟩]⟩ else none

set_option maxRecDepth 4000 in
/-- A strategy that nothing follows keeps its counts. -/
theorem rows_own_last :
    ∃ report, buildRisk lastStrategy march = some report ∧ RowsOwn lastStrategy march report := by
  have hreport : (buildRisk lastStrategy march).isSome := by decide
  obtain ⟨report, hreport⟩ := Option.isSome_iff_exists.mp hreport
  refine ⟨report, hreport, (rows_own_iff hreport).mpr fun w l s l' heq => ?_⟩
  have hothers : ∀ s ∈ catalog.dropLast, s.id ≠ "orb" := by decide
  have hjournal : ∀ id, id ≠ "orb" → journal lastStrategy id = [] := fun id hid => by
    rw [journal, lastStrategy, if_neg hid]
    rfl
  have hunread : reasons (unreadTrades lastStrategy march w s) = fun _ => 0 := by
    have hnil : (journal lastStrategy s.id).drop tradeLimit = [] := by
      by_cases hid : s.id = "orb"
      · rw [hid]
        rfl
      · rw [hjournal _ hid]
        rfl
    rw [unreadTrades, hnil]
    funext k
    simp [within, reasons]
  rw [hunread, spill]
  split
  · next hfirst =>
    have hlast : l' = [] := by
      by_contra hne
      refine hfirst.2 ?_
      have hmem : s ∈ catalog.dropLast := by
        rw [heq, List.dropLast_append_of_ne_nil (List.cons_ne_nil _ _),
          List.dropLast_cons_of_ne_nil hne]
        exact List.mem_append_right _ List.mem_cons_self
      simp [readIn, hjournal _ (hothers s hmem), within]
    rw [hlast]
    funext k
    simp [readIn, reasons]
  · rfl

set_option maxRecDepth 4000 in
/-- The first strategy's row counts the other's close as its own. -/
theorem first_row_counts_others : ∃ report, buildRisk twoStrategies march = some report ∧
    (report.rows.head?.bind fun row => row.blocks.map fun blocks =>
      report.maps.read blocks.today.byReason "manual") = some 1 ∧
    ¬ RowsOwn twoStrategies march report := by
  have hread : (buildRisk twoStrategies march).map (fun report => report.rows.head?.bind fun row =>
      row.blocks.map fun blocks => (row.id, report.maps.read blocks.today.byReason "manual")) =
        some (some ("direction", 1)) := by decide
  have hown : reasons (within march .today (journal twoStrategies "direction")) "manual" = 0 := by
    decide
  obtain ⟨report, hreport, hrow⟩ := Option.map_eq_some_iff.mp hread
  obtain ⟨row, hhead, hrow⟩ := Option.bind_eq_some_iff.mp hrow
  obtain ⟨blocks, hblocks, hrow⟩ := Option.map_eq_some_iff.mp hrow
  obtain ⟨hid, hcount⟩ := Prod.mk.inj hrow
  refine ⟨report, hreport, ?_, fun h => ?_⟩
  · rw [hhead, Option.bind_some, hblocks, Option.map_some, hcount]
  · have hcounts := congrFun (h row (List.mem_of_mem_head? hhead) blocks hblocks .today) "manual"
    change report.maps.read blocks.today.byReason "manual" = _ at hcounts
    rw [hcount, hid, hown] at hcounts
    cases hcounts

end SuperAgent.Platform
