import SuperAgent.Core.Run
import SuperAgent.Platform.Journal
import Mathlib.Data.List.AList

/-!
# The ledger

What a process remembers of the positions it saw open, over the journal that
outlives it. The journal is asked last: when it answers, what it has on record
of a round trip replaces what memory had.
-/

namespace SuperAgent.Platform

open Fixed (D)

variable {ι : Type}

/-- A position whose close the ledger waits for. -/
structure OpenTrade where
  terms : Terms
  wallet : String
  strategy : String
  symbol : String
  orderID : String
  fill : Fill
  openedAt : Time
  deriving DecidableEq

/-- One closed round trip, as the listeners are told. -/
structure Trade where
  wallet : String
  strategy : String
  symbol : String
  pnl : D
  openedAt : Time
  closedAt : Time
  /-- The venue's order ids, whose hash ties the round trip to the venue. -/
  ref : String
  entry : Fill
  exit : Fill
  reason : CloseReason
  deriving DecidableEq

/-- The record every leaderboard is computed from. -/
structure Ledger where
  journal : Option Journal
  /-- By account and symbol. -/
  opened : AList fun _ : String => OpenTrade
  closed : List Trade

/-- What an open position is remembered under. -/
def tradeKey (account symbol : String) : String := account ++ "/" ++ symbol

theorem tradeKey_inj {account x y : String} : tradeKey account x = tradeKey account y ↔ x = y := by
  constructor
  · intro h
    have hlist := congrArg String.toList h
    simp only [tradeKey, String.toList_append, List.append_cancel_left_eq] at hlist
    exact String.toList_inj.mp hlist
  · exact fun h => h ▸ rfl

/-- The order ids a round trip is known by. -/
def tradeRef (openOrderID closeOrderID : String) : String := openOrderID ++ "|" ++ closeOrderID

namespace Ledger

/-- The remembered open position of an account's symbol. -/
def openFor (l : Ledger) (account symbol : String) : Option OpenTrade :=
  l.opened.lookup (tradeKey account symbol)

/-- Note a position taken under a strategy. The clock is read for memory and for the journal. -/
def noteOpened (l : Ledger) (account wallet strategy symbol orderID : String) (f : Fill)
    (terms : Terms) (noted now : Time) : Ledger where
  journal := l.journal.map (·.tradeOpened wallet strategy symbol orderID f terms now)
  opened := l.opened.insert (tradeKey account symbol)
    ⟨terms, wallet, strategy, symbol, orderID, f, noted⟩
  closed := l.closed

/-- Settle the round trip of a wallet's position in a symbol, and what the listeners are told. A
close with no remembered open counts under the default strategy. -/
def noteClosed (l : Ledger) (account wallet symbol : String) (pnl : D) (closeOrderID : String)
    (f : Fill) (reason : CloseReason) (run : Option (Excursion ι)) (noted now : Time) :
    Ledger × Trade :=
  let o := (l.openFor account symbol).getD
    ⟨⟨none, none, none, none⟩, wallet, defaultStrategy, symbol, "", ⟨.unspecified, 0, 0, 0, 0⟩, noted⟩
  let t : Trade := ⟨wallet, o.strategy, symbol, pnl, o.openedAt, now, tradeRef o.orderID closeOrderID,
    o.fill, f, reason⟩
  let settled := l.journal.map
    (·.tradeClosed wallet symbol o.strategy closeOrderID f pnl reason run now)
  -- the journal knows the strategy of a position opened before this process started
  let t := match settled.bind Prod.snd with
    | some ct => { t with
        strategy := ct.strategy
        openedAt := ct.openedAt
        ref := tradeRef ct.openOrderID closeOrderID
        entry := ⟨ct.side, ct.size, ct.entryPrice, 0, 0⟩ }
    | none => t
  (⟨settled.map Prod.fst, l.opened.erase (tradeKey account symbol), l.closed ++ [t]⟩, t)

/-- The strategy a close is looked up under: the remembered one, or the default. -/
def closesUnder (l : Ledger) (account symbol : String) : String :=
  ((l.openFor account symbol).map OpenTrade.strategy).getD defaultStrategy

/-- Which strategy holds a wallet's open position in a symbol: what this process saw opened or
what the journal has. -/
def holder (l : Ledger) (wallet symbol : String) : Option String :=
  match l.opened.entries.find? fun e => e.2.wallet = wallet ∧ e.2.symbol = symbol with
  | some e => some e.2.strategy
  | none => l.journal.bind (·.openStrategy wallet symbol)

variable {l : Ledger} {j : Journal} {r : TradeRow} {account wallet symbol closeOrderID : String}
  {pnl : D} {f : Fill} {reason : CloseReason} {run : Option (Excursion ι)} {noted now : Time}

/-- What the listeners are told of a row that is completed. -/
def report (r : TradeRow) (wallet symbol : String) (pnl : D) (closeOrderID : String) (f : Fill)
    (reason : CloseReason) (now : Time) : Trade :=
  ⟨wallet, r.strategy, symbol, pnl, r.openedAt, now, tradeRef r.openOrderID closeOrderID,
    ⟨r.side, r.size, r.entryPrice, 0, 0⟩, f, reason⟩

/-- A close whose open row is found completes that row, and is reported with what the row has on
record. -/
theorem noteClosed_of_newest (hj : l.journal = some j)
    (hr : j.newestOpen wallet symbol (l.closesUnder account symbol) = some r) :
    l.noteClosed account wallet symbol pnl closeOrderID f reason run noted now =
      (⟨some (j.complete r.id (Journal.exitOf closeOrderID f pnl reason run now)),
        l.opened.erase (tradeKey account symbol),
        l.closed ++ [report r wallet symbol pnl closeOrderID f reason now]⟩,
      report r wallet symbol pnl closeOrderID f reason now) := by
  unfold closesUnder at hr
  unfold noteClosed
  cases hfor : l.openFor account symbol with
  | none =>
    rw [hfor, Option.map_none, Option.getD_none] at hr
    simp only [Option.getD_none, hj, Option.map_some, Journal.tradeClosed, hr, Option.bind_some,
      report]
  | some o =>
    rw [hfor, Option.map_some, Option.getD_some] at hr
    simp only [Option.getD_some, hj, Option.map_some, Journal.tradeClosed, hr, Option.bind_some,
      report]

/-- What was noted is remembered, and the rest is as it was. -/
theorem openFor_noteOpened {strategy orderID : String} {terms : Terms} (y : String) :
    (l.noteOpened account wallet strategy symbol orderID f terms noted now).openFor account y =
      if y = symbol then some ⟨terms, wallet, strategy, symbol, orderID, f, noted⟩
      else l.openFor account y := by
  unfold openFor noteOpened
  by_cases hy : y = symbol
  · rw [if_pos hy, hy, AList.lookup_insert]
  · rw [if_neg hy, AList.lookup_insert_ne fun heq => hy (tradeKey_inj.mp heq)]

/-- A closed position is forgotten, and the rest is as it was. -/
theorem openFor_noteClosed (y : String) :
    (l.noteClosed account wallet symbol pnl closeOrderID f reason run noted now).1.openFor account y =
      if y = symbol then none else l.openFor account y := by
  unfold openFor noteClosed
  by_cases hy : y = symbol
  · rw [if_pos hy, hy, AList.lookup_erase]
  · rw [if_neg hy, AList.lookup_erase_ne fun heq => hy (tradeKey_inj.mp heq)]

end Ledger

/-! ## A wallet's round trips -/

/-- The order that last added to the position held in a market, as it was journaled. -/
structure Opening where
  strategy : String
  orderID : String
  openedAt : Time
  deriving DecidableEq

/-- One wallet's trading: the ledger it is recorded on, and what the venue holds. -/
structure Trading where
  account : String
  wallet : String
  ledger : Ledger
  /-- What the venue holds, one position per market. -/
  held : String → Option Opening
  /-- What the listeners were told, across processes. -/
  reports : List Trade

/-- A successful open or close as the service tells it, or a new process. -/
inductive TradingAction
  | told (e : Entry Unit) (noted now : Time)
  | restarted

namespace Trading

/-- The state after an action, when the action is possible: a position is opened under a strategy
of the catalog, and one that is closed is held. -/
def next (w : Trading) : TradingAction → Option Trading
  | .told (.opened strategy symbol orderID f terms) noted now =>
    if known strategy then
      some { w with
        ledger := w.ledger.noteOpened w.account w.wallet strategy symbol orderID f terms noted now
        held := Function.update w.held symbol (some ⟨strategy, orderID, now.micros⟩) }
    else none
  | .told (.closed symbol pnl orderID f reason run) noted now =>
    (w.held symbol).map fun _ =>
      let settled := w.ledger.noteClosed w.account w.wallet symbol pnl orderID f reason run noted now
      { w with
        ledger := settled.1
        held := Function.update w.held symbol none
        reports := w.reports ++ [settled.2] }
  | .restarted => some { w with ledger := { w.ledger with opened := ∅, closed := [] } }

/-- One step. -/
abbrev Step (w : Trading) (act : TradingAction) (w' : Trading) : Prop := w.next act = some w'

end Trading

end SuperAgent.Platform
