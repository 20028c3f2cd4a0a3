import SuperAgent.Platform.Service
import Mathlib.Data.List.Dedup

/-!
# The journal of round trips

The database's table of trades: a row is inserted when a position opens and
completed when it closes. A row's opening order is named once per wallet, and a
close that finds no open row is inserted as a round trip of its own.
-/

namespace SuperAgent.Platform

open Fixed (D)
open Venue (Side)

variable {ι : Type}

deriving instance DecidableEq for Fill, Terms

/-- How a round trip ended. -/
structure TradeExit where
  orderID : String
  pnl : D
  closedAt : Time
  price : D
  fee : D
  builderFee : D
  reason : CloseReason
  /-- How far the position ran each way, where anything watched it. -/
  worst : Option D
  best : Option D
  deriving DecidableEq

/-- A row of the table of trades. -/
structure TradeRow where
  id : Nat
  wallet : String
  strategy : String
  symbol : String
  openOrderID : String
  side : Side
  size : D
  entryPrice : D
  entryFee : D
  entryBuilderFee : Option D
  terms : Terms
  openedAt : Time
  /-- None while the round trip is open. -/
  exit : Option TradeExit
  deriving DecidableEq

/-- Whether the round trip is still open. -/
def TradeRow.isOpen (r : TradeRow) : Bool := r.exit.isNone

/-- A completed round trip as it is read back. -/
structure ClosedTrade where
  /-- Zero for one that was inserted as a whole. -/
  id : Nat
  wallet : String
  strategy : String
  symbol : String
  openOrderID : String
  closeOrderID : String
  side : Side
  size : D
  entryPrice : D
  exitPrice : D
  entryFee : D
  exitFee : D
  pnl : D
  closeReason : CloseReason
  openedAt : Time
  closedAt : Time

/-- The table of trades and the sequence its ids are drawn from. -/
structure Journal where
  rows : List TradeRow
  nextID : Nat
  deriving DecidableEq

namespace Journal

/-- Whether a wallet has a row with an opening order's id. -/
def taken (j : Journal) (wallet orderID : String) : Bool :=
  j.rows.any fun r => r.wallet = wallet ∧ r.openOrderID = orderID

/-- A wallet's open rows in a market. -/
def openRows (j : Journal) (wallet symbol : String) : List TradeRow :=
  j.rows.filter fun r => r.wallet = wallet ∧ r.symbol = symbol ∧ r.isOpen

/-- The newest open row of a wallet in a market, under a strategy or, without one, under any. -/
def newestOpen (j : Journal) (wallet symbol strategy : String) : Option TradeRow :=
  ((j.openRows wallet symbol).filter fun r => strategy = "" ∨ r.strategy = strategy).maxOn?
    TradeRow.openedAt

/-- Journal an opening fill. A row with the wallet's order id stays as it is; the sequence moves
on all the same. -/
def tradeOpened (j : Journal) (wallet strategy symbol orderID : String) (f : Fill) (terms : Terms)
    (now : Time) : Journal where
  rows := if j.taken wallet orderID then j.rows else j.rows ++ [{
    id := j.nextID, wallet, strategy, symbol, openOrderID := orderID, side := f.side, size := f.size,
    entryPrice := f.price, entryFee := f.fee, entryBuilderFee := some f.builderFee, terms,
    openedAt := now.micros, exit := none }]
  nextID := j.nextID + 1

/-- Complete the row with an id. -/
def complete (j : Journal) (id : Nat) (e : TradeExit) : Journal :=
  { j with rows := j.rows.map fun r => if r.id = id then { r with exit := some e } else r }

/-- How a close ends a round trip. -/
def exitOf (closeOrderID : String) (f : Fill) (pnl : D) (reason : CloseReason)
    (run : Option (Excursion ι)) (now : Time) : TradeExit where
  orderID := closeOrderID
  pnl := pnl
  closedAt := now.micros
  price := f.price
  fee := f.fee
  builderFee := f.builderFee
  reason := reason
  worst := run.map Excursion.worst
  best := run.map Excursion.best

/-- What an order id stands in for when the opening order is not on record. -/
def unknownOrder (closeOrderID : String) : String := "unknown-" ++ closeOrderID

/-- Complete the open round trip of a wallet's market, narrowed by a strategy. One that is not on
record is inserted as a whole, which fails when its order id is taken. -/
def tradeClosed (j : Journal) (wallet symbol fallbackStrategy closeOrderID : String) (f : Fill)
    (pnl : D) (reason : CloseReason) (run : Option (Excursion ι)) (now : Time) :
    Journal × Option ClosedTrade :=
  let e := exitOf closeOrderID f pnl reason run now
  match j.newestOpen wallet symbol fallbackStrategy with
  | some r => (j.complete r.id e, some {
      id := r.id, wallet := r.wallet, strategy := r.strategy, symbol := r.symbol,
      openOrderID := r.openOrderID, closeOrderID, side := r.side, size := r.size,
      entryPrice := r.entryPrice, exitPrice := f.price, entryFee := r.entryFee, exitFee := f.fee,
      pnl, closeReason := reason, openedAt := r.openedAt, closedAt := now.micros })
  | none =>
    if j.taken wallet (unknownOrder closeOrderID) then ({ j with nextID := j.nextID + 1 }, none)
    else
      let row : TradeRow := {
        id := j.nextID, wallet, strategy := fallbackStrategy, symbol,
        openOrderID := unknownOrder closeOrderID, side := f.side, size := f.size, entryPrice := 0,
        entryFee := 0, entryBuilderFee := none, terms := ⟨none, none, none, none⟩,
        openedAt := now.micros, exit := some { e with worst := none, best := none } }
      (⟨j.rows ++ [row], j.nextID + 1⟩, some {
        id := 0, wallet, strategy := fallbackStrategy, symbol,
        openOrderID := unknownOrder closeOrderID, closeOrderID, side := f.side, size := f.size,
        entryPrice := 0, exitPrice := f.price, entryFee := 0, exitFee := f.fee, pnl,
        closeReason := reason, openedAt := now, closedAt := now })

/-- The strategy of a wallet's open round trip. -/
def openStrategy (j : Journal) (wallet symbol : String) : Option String :=
  (j.newestOpen wallet symbol "").map TradeRow.strategy

/-- The wallets with an open round trip under a strategy. -/
def activeWallets (j : Journal) (strategy : String) : List String :=
  ((j.rows.filter fun r => r.strategy = strategy ∧ r.isOpen).map TradeRow.wallet).dedup

/-- How many wallets have an open round trip under a strategy. -/
def activeNow (j : Journal) (strategy : String) : Nat := (j.activeWallets strategy).length

/-- Ids are drawn from the sequence, each once. -/
structure Numbered (j : Journal) : Prop where
  nodup : (j.rows.map TradeRow.id).Nodup
  lt : ∀ r ∈ j.rows, r.id < j.nextID

/-! ## What each operation does to the open rows -/

variable {j : Journal} {wallet symbol strategy orderID : String} {f : Fill} {terms : Terms}
  {now : Time} {r q : TradeRow} {e : TradeExit} {id : Nat}

theorem mem_openRows : r ∈ j.openRows wallet symbol ↔
    r ∈ j.rows ∧ r.wallet = wallet ∧ r.symbol = symbol ∧ r.exit = none := by
  simp [openRows, TradeRow.isOpen]

theorem Numbered.eq_of_id (h : j.Numbered) (hr : r ∈ j.rows) (hq : q ∈ j.rows) (hid : r.id = q.id) :
    r = q := List.inj_on_of_nodup_map h.nodup hr hq hid

/-- Opening orders keep the ids apart. -/
theorem Numbered.tradeOpened (h : j.Numbered) :
    (j.tradeOpened wallet strategy symbol orderID f terms now).Numbered := by
  unfold Journal.tradeOpened
  split
  · exact ⟨h.nodup, fun r hr => Nat.lt_succ_of_lt (h.lt r hr)⟩
  · constructor
    · have hnew : ∀ r ∈ j.rows, ¬ r.id = j.nextID := fun r hr hid => by
        have hlt := h.lt r hr
        omega
      simpa [List.nodup_append] using ⟨h.nodup, hnew⟩
    · intro r hr
      rcases List.mem_append.mp hr with hr | hr
      · exact Nat.lt_succ_of_lt (h.lt r hr)
      · rw [List.mem_singleton.mp hr]
        exact Nat.lt_succ_self _

/-- Completing a row keeps the ids. -/
theorem Numbered.complete (h : j.Numbered) : (j.complete id e).Numbered := by
  have hids : (j.complete id e).rows.map TradeRow.id = j.rows.map TradeRow.id := by
    unfold Journal.complete
    rw [List.map_map]
    apply List.map_congr_left
    intro r _
    simp only [Function.comp_apply]
    split <;> rfl
  constructor
  · rw [hids]
    exact h.nodup
  · intro r hr
    have hid : r.id ∈ j.rows.map TradeRow.id := hids ▸ List.mem_map_of_mem hr
    obtain ⟨q, hq, heq⟩ := List.mem_map.mp hid
    exact heq ▸ h.lt q hq

/-- The row that is completed, among the others. -/
theorem Numbered.complete_split (h : j.Numbered) (hr : r ∈ j.rows) (e : TradeExit) :
    ∃ pre post, j.rows = pre ++ r :: post ∧
      (j.complete r.id e).rows = pre ++ { r with exit := some e } :: post := by
  obtain ⟨pre, post, hrows⟩ := List.append_of_mem hr
  have hids := h.nodup
  rw [hrows, List.map_append, List.map_cons] at hids
  obtain ⟨-, hpost, hcross⟩ := List.nodup_append.mp hids
  have hpre : ∀ q ∈ pre, ¬ q.id = r.id := fun q hq =>
    hcross _ (List.mem_map_of_mem hq) _ List.mem_cons_self
  have hpost : ∀ q ∈ post, ¬ q.id = r.id := fun q hq hid =>
    (List.nodup_cons.mp hpost).1 (hid ▸ List.mem_map_of_mem hq)
  refine ⟨pre, post, hrows, ?_⟩
  rw [Journal.complete, hrows, List.map_append, List.map_cons, if_pos rfl]
  rw [List.map_congr_left fun q hq => if_neg (hpre q hq),
    List.map_congr_left fun q hq => if_neg (hpost q hq), List.map_id', List.map_id']

/-- An order id that is taken inserts nothing. -/
theorem openRows_tradeOpened_taken (h : j.taken wallet orderID = true) (w x : String) :
    (j.tradeOpened wallet strategy symbol orderID f terms now).openRows w x = j.openRows w x := by
  simp only [openRows, tradeOpened, h, if_true]

/-- The row a fresh order id inserts. -/
def openedRow (j : Journal) (wallet strategy symbol orderID : String) (f : Fill) (terms : Terms)
    (now : Time) : TradeRow :=
  { id := j.nextID, wallet, strategy, symbol, openOrderID := orderID, side := f.side, size := f.size,
    entryPrice := f.price, entryFee := f.fee, entryBuilderFee := some f.builderFee, terms,
    openedAt := now.micros, exit := none }

/-- A fresh order id inserts one open row of its wallet's market. -/
theorem openRows_tradeOpened_fresh (h : j.taken wallet orderID = false) (w x : String) :
    (j.tradeOpened wallet strategy symbol orderID f terms now).openRows w x =
      if wallet = w ∧ symbol = x then
        j.openRows w x ++ [j.openedRow wallet strategy symbol orderID f terms now]
      else j.openRows w x := by
  have hrows : (j.tradeOpened wallet strategy symbol orderID f terms now).rows =
      j.rows ++ [j.openedRow wallet strategy symbol orderID f terms now] := by
    simp only [tradeOpened, h, Bool.false_eq_true, if_false, openedRow]
  rw [openRows, hrows, List.filter_append]
  split
  · next heq => simp [openRows, openedRow, TradeRow.isOpen, heq.1, heq.2]
  · next hne =>
    rw [not_and] at hne
    simpa [openRows, openedRow, TradeRow.isOpen] using hne

/-- Orders leave the open rows of other markets. -/
theorem openRows_tradeOpened_ne {y : String} (hy : y ≠ symbol) :
    (j.tradeOpened wallet strategy symbol orderID f terms now).openRows wallet y =
      j.openRows wallet y := by
  cases htaken : j.taken wallet orderID with
  | true => exact openRows_tradeOpened_taken htaken wallet y
  | false =>
    rw [openRows_tradeOpened_fresh htaken]
    exact if_neg fun heq => hy heq.2.symm

/-- Completing a row takes it from the open ones. -/
theorem openRows_complete (w x : String) :
    (j.complete id e).openRows w x = (j.openRows w x).filter fun r => r.id ≠ id := by
  have hkept : ∀ r : TradeRow, (if r.id = id then { r with exit := some e } else r).isOpen =
      (decide (r.id ≠ id) && r.isOpen) := by
    intro r
    by_cases hid : r.id = id <;> simp [hid, TradeRow.isOpen]
  unfold openRows complete
  induction j.rows with
  | nil => rfl
  | cons r rows ih =>
    simp only [List.map_cons, List.filter_cons, ih, hkept]
    by_cases hid : r.id = id
    · by_cases hp : r.wallet = w ∧ r.symbol = x ∧ r.isOpen <;> simp [hid, hp]
    · by_cases hp : r.wallet = w ∧ r.symbol = x ∧ r.isOpen <;> simp [hid, hp]

/-- Completing a row leaves the open rows of other markets. -/
theorem openRows_complete_ne {y : String} (hj : j.Numbered) (hr : r ∈ j.openRows wallet symbol)
    (hy : y ≠ symbol) : (j.complete r.id e).openRows wallet y = j.openRows wallet y := by
  rw [openRows_complete, List.filter_eq_self]
  intro q hq
  obtain ⟨hrow, -, hsymbol, -⟩ := mem_openRows.mp hr
  obtain ⟨hrow', -, hsymbol', -⟩ := mem_openRows.mp hq
  refine decide_eq_true fun hid => hy ?_
  have heq : q = r := hj.eq_of_id hrow' hrow hid
  exact hsymbol'.symm.trans ((congrArg TradeRow.symbol heq).trans hsymbol)

/-! ## The row a close completes -/

/-- The open rows a close may complete. -/
theorem newestOpen_mem (h : j.newestOpen wallet symbol strategy = some r) :
    r ∈ j.openRows wallet symbol ∧ (strategy = "" ∨ r.strategy = strategy) := by
  have hr := List.maxOn?_mem h
  rw [List.mem_filter, decide_eq_true_eq] at hr
  exact hr

/-- The only newest open row of a strategy is the one that is found. -/
theorem newestOpen_of_newest (hr : r ∈ j.openRows wallet symbol)
    (hs : strategy = "" ∨ r.strategy = strategy)
    (hnewest : ∀ q ∈ j.openRows wallet symbol, (strategy = "" ∨ q.strategy = strategy) → q ≠ r →
      q.openedAt < r.openedAt) : j.newestOpen wallet symbol strategy = some r := by
  have hmem : r ∈ (j.openRows wallet symbol).filter fun r => strategy = "" ∨ r.strategy = strategy :=
    List.mem_filter.mpr ⟨hr, decide_eq_true hs⟩
  cases hfound : j.newestOpen wallet symbol strategy with
  | none =>
    have hsome := List.isSome_maxOn?_of_mem (f := TradeRow.openedAt) hmem
    rw [← newestOpen, hfound] at hsome
    cases hsome
  | some q =>
    obtain ⟨hq, hqs⟩ := newestOpen_mem hfound
    by_contra hne
    have hle := List.le_apply_get_maxOn?_of_mem (f := TradeRow.openedAt) hmem
    change r.openedAt ≤ ((j.newestOpen wallet symbol strategy).get _).openedAt at hle
    simp only [hfound, Option.get_some] at hle
    have hlt : q.openedAt < r.openedAt := hnewest q hq hqs fun heq => hne (congrArg some heq)
    exact absurd hle (not_le.mpr hlt)

/-- No open row of the strategy is found when there is none. -/
theorem newestOpen_of_empty (h : j.openRows wallet symbol = []) :
    j.newestOpen wallet symbol strategy = none := by
  rw [newestOpen, h]
  rfl

/-- Exactly the wallets with an open row under a strategy are active in it. -/
theorem mem_activeWallets : wallet ∈ j.activeWallets strategy ↔
    ∃ symbol, ∃ r ∈ j.openRows wallet symbol, r.strategy = strategy := by
  simp only [activeWallets, List.mem_dedup, List.mem_map, List.mem_filter, decide_eq_true_eq,
    mem_openRows, TradeRow.isOpen, Option.isNone_iff_eq_none]
  constructor
  · rintro ⟨r, ⟨hr, hs, hopen⟩, hw⟩
    exact ⟨r.symbol, r, ⟨hr, hw, rfl, hopen⟩, hs⟩
  · rintro ⟨symbol, r, ⟨hr, hw, -, hopen⟩, hs⟩
    exact ⟨r, ⟨hr, hs, hopen⟩, hw⟩

end Journal

end SuperAgent.Platform
