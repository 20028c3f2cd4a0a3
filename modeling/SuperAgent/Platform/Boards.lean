import SuperAgent.Fixed.Parse
import SuperAgent.Platform.Journal
import Mathlib.Data.List.Sort

/-!
# Boards

A week of the journal by strategy: every wallet's result, the best wallets first.
The sums are read back from text, and one that no decimal holds fails them all.
-/

namespace SuperAgent.Platform

open Fixed (D)

/-- One wallet's line on a strategy's board. -/
structure Standing where
  wallet : String
  pnl : D
  trades : Nat
  deriving DecidableEq

/-- A strategy's week as the journal has it. -/
structure BoardRow where
  strategy : String
  pnl : D
  players : Nat
  trades : Nat
  activeNow : Nat
  top : List Standing
  deriving DecidableEq

/-- A round trip that was completed: its strategy, its wallet and its result. -/
structure Result where
  strategy : String
  wallet : String
  pnl : D
  deriving DecidableEq

/-- Before another line on a board: by result, and by wallet when the results are the same. -/
def Standing.ahead (a b : Standing) : Prop := b.pnl < a.pnl ∨ a.pnl = b.pnl ∧ a.wallet ≤ b.wallet

instance : DecidableRel Standing.ahead := fun _ _ => inferInstanceAs (Decidable (_ ∨ _))

namespace Journal

variable (j : Journal) (since till : Time)

/-- The round trips completed in a span of time. -/
def results : List Result := j.rows.filterMap fun r => r.exit.bind fun e =>
  if since ≤ e.closedAt ∧ e.closedAt < till then some ⟨r.strategy, r.wallet, e.pnl⟩ else none

/-- A wallet's results under a strategy. -/
def resultsOf (strategy wallet : String) : List Result :=
  (j.results since till).filter fun t => t.strategy = strategy ∧ t.wallet = wallet

/-- What they add up to. -/
def sumOf (strategy wallet : String) : Int :=
  ((j.resultsOf since till strategy wallet).map fun t => t.pnl.toInt).sum

/-- The wallets that completed round trips under each strategy. -/
def players : List (String × String) :=
  ((j.results since till).map fun t => (t.strategy, t.wallet)).dedup

/-- A wallet's line, its sum read back from text. -/
def line (strategy wallet : String) : Except Fixed.Error (String × Standing) := do
  let pnl ← Fixed.parse (Fixed.numericText (j.sumOf since till strategy wallet))
  return (strategy, ⟨wallet, pnl, (j.resultsOf since till strategy wallet).length⟩)

/-- A strategy's board, the best wallets first. -/
def board (topN : Nat) (lines : List (String × Standing)) (strategy : String) : BoardRow :=
  let own := (lines.filter fun l => l.1 = strategy).map Prod.snd
  { strategy
    pnl := own.foldl (fun sum s => sum + s.pnl) 0
    players := own.length
    trades := (own.map Standing.trades).sum
    activeNow := j.activeNow strategy
    top := (own.insertionSort Standing.ahead).take topN }

/-- The boards of the strategies with a round trip that was completed in a span of time or is
open now. -/
def boards (topN : Nat) : Except Fixed.Error (List BoardRow) := do
  let lines ← (j.players since till).mapM fun p => j.line since till p.1 p.2
  let active := (j.rows.filter TradeRow.isOpen).map TradeRow.strategy
  return (lines.map Prod.fst ++ active).dedup.map (j.board topN lines)

/-! ## What the boards are made of -/

variable {j : Journal} {since till : Time} {strategy wallet : String} {topN : Nat}
  {rows : List BoardRow}

/-- A wallet's line, as its sum is in full. -/
def exactLine (j : Journal) (since till : Time) (p : String × String) : String × Standing :=
  (p.1, ⟨p.2, Int64.ofInt (j.sumOf since till p.1 p.2), (j.resultsOf since till p.1 p.2).length⟩)

/-- Whether a decimal holds a wallet's sum. -/
def Holds (j : Journal) (since till : Time) (p : String × String) : Prop :=
  (j.sumOf since till p.1 p.2).natAbs ≤ Fixed.maxInt64

/-- A sum that a decimal holds is read back as it is; one that it does not fails. -/
theorem line_eq_ok (p : String × String) (l : String × Standing) :
    j.line since till p.1 p.2 = .ok l ↔ j.Holds since till p ∧ l = j.exactLine since till p := by
  simp only [line, bind_eq_ok, Fixed.parse_numericText]
  constructor
  · rintro ⟨pnl, ⟨hfits, rfl⟩, h⟩
    exact ⟨hfits, (Except.ok.inj h).symm⟩
  · rintro ⟨hfits, rfl⟩
    exact ⟨_, ⟨hfits, rfl⟩, rfl⟩

/-- The boards are read exactly when a decimal holds every wallet's sum, and are then made of the
exact lines. -/
theorem boards_eq_ok : j.boards since till topN = .ok rows ↔
    (∀ p ∈ j.players since till, j.Holds since till p) ∧
      rows = ((j.players since till).map Prod.fst ++
        (j.rows.filter TradeRow.isOpen).map TradeRow.strategy).dedup.map
          (j.board topN ((j.players since till).map (j.exactLine since till))) := by
  have hlines : ((j.players since till).map (j.exactLine since till)).map Prod.fst =
      (j.players since till).map Prod.fst := by
    rw [List.map_map]
    rfl
  simp only [boards, bind_eq_ok, mapM_eq_ok_iff line_eq_ok]
  constructor
  · rintro ⟨lines, ⟨hfits, rfl⟩, h⟩
    exact ⟨hfits, hlines ▸ (Except.ok.inj h).symm⟩
  · rintro ⟨hfits, rfl⟩
    exact ⟨_, ⟨hfits, rfl⟩, congrArg _ (by rw [hlines])⟩

/-- The lines of a strategy's board. -/
def standings (j : Journal) (since till : Time) (strategy : String) : List Standing :=
  (((j.players since till).map (j.exactLine since till)).filter fun l => l.1 = strategy).map Prod.snd

/-- A wallet completed a round trip under a strategy exactly when it is one of its players. -/
theorem mem_players :
    (strategy, wallet) ∈ j.players since till ↔ j.resultsOf since till strategy wallet ≠ [] := by
  rw [players, List.mem_dedup, List.mem_map, Ne, resultsOf, List.filter_eq_nil_iff, not_forall]
  constructor
  · rintro ⟨t, ht, heq⟩
    obtain ⟨rfl, rfl⟩ := Prod.mk.inj heq
    exact ⟨t, fun h => h ht (decide_eq_true ⟨rfl, rfl⟩)⟩
  · rintro ⟨t, h⟩
    rw [Classical.not_imp, not_not] at h
    obtain ⟨ht, hown⟩ := h
    obtain ⟨rfl, rfl⟩ := of_decide_eq_true hown
    exact ⟨t, ht, rfl⟩

/-- The wallets on a strategy's board, each on one line. -/
theorem standings_wallets : (j.standings since till strategy).map Standing.wallet =
    ((j.players since till).filter fun p => p.1 = strategy).map Prod.snd := by
  rw [standings, List.filter_map, List.map_map, List.map_map]
  rfl

/-- The wallets of a board are those with a result, each once. -/
theorem standings_nodup :
    ((j.standings since till strategy).map Standing.wallet).Nodup ∧
      ∀ wallet, wallet ∈ (j.standings since till strategy).map Standing.wallet ↔
        j.resultsOf since till strategy wallet ≠ [] := by
  rw [standings_wallets]
  constructor
  · refine List.Nodup.map_on ?_ ((List.nodup_dedup _).filter _)
    intro p hp q hq hwallet
    have hp1 : p.1 = strategy := of_decide_eq_true (List.mem_filter.mp hp).2
    have hq1 : q.1 = strategy := of_decide_eq_true (List.mem_filter.mp hq).2
    exact Prod.ext (hp1.trans hq1.symm) hwallet
  · intro wallet
    rw [← mem_players, List.mem_map]
    constructor
    · rintro ⟨p, hp, rfl⟩
      obtain ⟨hmem, hstrategy⟩ := List.mem_filter.mp hp
      have hown : p.1 = strategy := of_decide_eq_true hstrategy
      exact hown ▸ hmem
    · intro hmem
      exact ⟨(strategy, wallet), List.mem_filter.mpr ⟨hmem, decide_eq_true rfl⟩, rfl⟩

/-- Every line has the wallet's exact sum, when a decimal holds it. -/
theorem standings_pnl (hfits : ∀ p ∈ j.players since till, j.Holds since till p) {s : Standing}
    (hs : s ∈ j.standings since till strategy) :
    s.pnl.toInt = j.sumOf since till strategy s.wallet ∧
      j.resultsOf since till strategy s.wallet ≠ [] := by
  obtain ⟨l, hl, rfl⟩ := List.mem_map.mp hs
  obtain ⟨hl, hstrategy⟩ := List.mem_filter.mp hl
  obtain ⟨p, hp, rfl⟩ := List.mem_map.mp hl
  obtain rfl : p.1 = strategy := of_decide_eq_true hstrategy
  have hholds : (j.sumOf since till p.1 p.2).natAbs ≤ 2 ^ 63 - 1 := hfits p hp
  refine ⟨?_, mem_players.mp hp⟩
  exact Int64.toInt_ofInt_of_le (by omega) (by omega)

end Journal

/-- Lines that are both ahead of each other have the same result. -/
instance : Std.Total Standing.ahead where
  total a b := by
    by_cases h : a.pnl = b.pnl
    · rcases String.le_total a.wallet b.wallet with hw | hw
      · exact .inl (.inr ⟨h, hw⟩)
      · exact .inr (.inr ⟨h.symm, hw⟩)
    · rcases Int64.lt_or_lt_of_ne h with h | h
      · exact .inr (.inl h)
      · exact .inl (.inl h)

instance : IsTrans Standing Standing.ahead where
  trans a b c := by
    rintro (hab | ⟨hab, hw⟩) (hbc | ⟨hbc, hw'⟩)
    · exact .inl (Int64.lt_trans hbc hab)
    · exact .inl (hbc ▸ hab)
    · exact .inl (hab ▸ hbc)
    · exact .inr ⟨hab.trans hbc, String.le_trans hw hw'⟩

/-- A line ahead of another has no smaller result. -/
theorem Standing.ahead.pnl_le {a b : Standing} (h : a.ahead b) : b.pnl ≤ a.pnl := by
  rcases h with h | ⟨h, -⟩
  · exact Int64.le_of_lt h
  · exact h ▸ Int64.le_refl _

/-- The board's best wallets, if the strategy has a board. -/
def topOf (rows : List BoardRow) (strategy : String) : List Standing :=
  ((rows.find? fun b => b.strategy = strategy).map BoardRow.top).getD []

/-- The board of a strategy is found among those that are read. One without a round trip has an
empty board. -/
theorem Journal.find_boards {j : Journal} {since till : Time} {topN : Nat} {rows : List BoardRow}
    (h : j.boards since till topN = .ok rows) (strategy : String) :
    (rows.find? fun b => b.strategy = strategy).getD ⟨strategy, 0, 0, 0, 0, []⟩ =
      j.board topN ((j.players since till).map (j.exactLine since till)) strategy := by
  obtain ⟨-, rfl⟩ := boards_eq_ok.mp h
  rw [List.find?_map]
  cases hfind : (((j.players since till).map Prod.fst ++
      (j.rows.filter TradeRow.isOpen).map TradeRow.strategy).dedup.find?
        ((fun b => decide (b.strategy = strategy)) ∘
          j.board topN ((j.players since till).map (j.exactLine since till)))) with
  | some found =>
    have heq := List.find?_some hfind
    obtain rfl : found = strategy := of_decide_eq_true heq
    rfl
  | none =>
    have hmissing : ∀ found ∈ (j.players since till).map Prod.fst ++
        (j.rows.filter TradeRow.isOpen).map TradeRow.strategy, found ≠ strategy := by
      rintro found hfound rfl
      exact List.find?_eq_none.mp hfind found (List.mem_dedup.mpr hfound) (decide_eq_true rfl)
    have hlines : j.standings since till strategy = [] := by
      rw [standings, List.map_eq_nil_iff, List.filter_eq_nil_iff]
      intro l hl hstrategy
      obtain ⟨p, hp, rfl⟩ := List.mem_map.mp hl
      exact hmissing p.1 (List.mem_append_left _ (List.mem_map_of_mem hp)) (of_decide_eq_true hstrategy)
    have hactive : j.activeNow strategy = 0 := by
      rw [activeNow, List.length_eq_zero_iff, List.eq_nil_iff_forall_not_mem]
      intro wallet hwallet
      obtain ⟨symbol, r, hr, hstrategy⟩ := mem_activeWallets.mp hwallet
      obtain ⟨hrow, -, -, hopen⟩ := mem_openRows.mp hr
      refine hmissing r.strategy (List.mem_append_right _ (List.mem_map_of_mem ?_)) hstrategy
      exact List.mem_filter.mpr ⟨hrow, Option.isNone_iff_eq_none.mpr hopen⟩
    rw [board, ← standings, hlines, hactive, List.insertionSort_nil, List.take_nil]
    rfl

/-- The best wallets of a strategy are the first of its lines in order. -/
theorem Journal.topOf_boards {j : Journal} {since till : Time} {topN : Nat} {rows : List BoardRow}
    (h : j.boards since till topN = .ok rows) (strategy : String) : topOf rows strategy =
      ((j.standings since till strategy).insertionSort Standing.ahead).take topN := by
  have hboard := congrArg BoardRow.top (find_boards h strategy)
  exact (Option.getD_map BoardRow.top ⟨strategy, 0, 0, 0, 0, []⟩ _).trans hboard

end SuperAgent.Platform
