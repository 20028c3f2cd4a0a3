import SuperAgent.Platform.Exits
import SuperAgent.Policy.Engine

/-!
# The trading service

The one path an order can take: request, policy engine, venue. What the venue
and the database answer is an argument of each operation, so that an operation
is defined for everything they may say.
-/

namespace SuperAgent.Platform

open Fixed (D)
open Venue (Side Order OrderRequest Position)
open Policy (Engine)

/-! ## The strategy catalog -/

/-- What an order's check needs of a catalog entry. -/
structure Info where
  id : String
  name : String
  /-- Bounds one position of the strategy, where the entry's text says so. -/
  notionalCap : Option D

/-- Every strategy the platform runs. No entry caps its positions. -/
def catalog : List Info :=
  [⟨"direction", "Direction", none⟩, ⟨"ma-cross", "MA Cross", none⟩, ⟨"rsi", "RSI Bounce", none⟩,
    ⟨"donchian", "Turtles", none⟩, ⟨"orb", "Open Range", none⟩]

/-- The catalog entry of an id. -/
def lookup (id : String) : Option Info := catalog.find? fun s => s.id = id

/-- What an untagged order counts as. -/
def defaultStrategy : String := "direction"

/-- Whether an id names a strategy in the catalog. -/
def known (id : String) : Bool := catalog.any fun s => s.id = id

/-- The floor that keeps a timer from racing the fill it is meant to close. -/
def minHorizon : Duration := 10 * Duration.second

/-- The longest a position may be told to run. -/
def maxHorizon : Duration := Duration.day

/-! ## Requests -/

/-- Why a venue refused or lost a request. -/
inductive VenueError
  | noCredentials
  | unknownMarket
  | rejected
  | notSupported
  | noExchangeAccount
  | forwardingDisabled
  /-- Acknowledged without an outcome in time: the order may or may not have executed. -/
  | unconfirmed
  /-- The connection dropped with the request in flight: the outcome is unknown. -/
  | disconnected
  | other (detail : String)
  deriving DecidableEq

/-- Why the service refused a request. -/
inductive Error
  | invalid (detail : String)
  | noPosition (symbol : String)
  | denied (denial : Policy.Denial)
  | venue (e : VenueError)
  deriving DecidableEq

/-- What the app sends to take a position. -/
structure OpenRequest where
  symbol : String
  side : Side
  notional : D
  leverage : D
  /-- How long after it opened the position is closed; zero means never. -/
  horizon : Duration
  strategy : String
  /-- The share of its collateral the position may make before it is closed. -/
  takeProfit : D
  /-- The share of its collateral the position may lose before it is closed. -/
  maxLoss : D

/-- A symbol as the platform keys it. -/
def symbolOf (s : String) : String := toUpper (trimSpace s)

/-- Refuse a horizon outside its bounds; zero is no horizon. -/
def validateHorizon (horizon : Duration) : Except Error Unit :=
  if horizon = 0 then .ok ()
  else revertIf (horizon < minHorizon ∨ maxHorizon < horizon)
    (.invalid "strategy: invalid rules: horizon must be between 10s and 24h0m0s")

/-- Refuse a position above its strategy's own cap. -/
def validateCap (info : Option Info) (notional : D) : Except Error Unit :=
  match info with
  | some ⟨_, name, some cap⟩ =>
    revertIf (0 < cap ∧ cap < notional)
      (.invalid (name ++ " allows at most " ++ Fixed.string cap ++ " per position"))
  | _ => .ok ()

/-- The request with its defaults filled in, or the first thing wrong with it. -/
def OpenRequest.check (req : OpenRequest) : Except Error OpenRequest := do
  let symbol := symbolOf req.symbol
  revertIf (symbol = "") (.invalid "symbol is required")
  revertIf (req.side ≠ .long ∧ req.side ≠ .short) (.invalid "side must be long or short")
  revertIf (¬ 0 < req.notional) (.invalid "notional must be positive")
  revertIf (req.maxLoss < 0 ∨ Fixed.fromInt 1 < req.maxLoss)
    (.invalid "max_loss must be between 0 and 1")
  revertIf (req.takeProfit < 0) (.invalid "take_profit must not be negative")
  let leverage := if req.leverage = 0 then Fixed.fromInt 1 else req.leverage
  revertIf (¬ 0 < leverage) (.invalid "leverage must be positive")
  validateHorizon req.horizon
  let strategy := if req.strategy = "" then defaultStrategy else req.strategy
  revertIf (¬ known strategy) (.invalid ("unknown strategy " ++ strategy.quote))
  validateCap (lookup strategy) req.notional
  return { req with symbol, leverage, strategy }

/-- The order a checked request places. -/
def OpenRequest.order (req : OpenRequest) (clientID : String) : OrderRequest :=
  { clientID, symbol := req.symbol, side := req.side, notional := req.notional,
    leverage := req.leverage }

/-- The order that closes a position. -/
def closeOrder (symbol : String) (pos : Position) (clientID : String) : OrderRequest :=
  { clientID, symbol, side := pos.side, reduce := true, size := pos.size,
    leverage := pos.leverage }

/-- What actually opened, not what was asked. -/
def openedNotional (notional : D) (placed : Order) : Option D :=
  if 0 < placed.filledSize ∧ 0 < placed.avgPrice then Fixed.mul placed.avgPrice placed.filledSize
  else some notional

/-- What the round trip did to the balance. -/
def realizedPnL (pos : Position) (closed : Order) : Option D :=
  let fees := pos.feesPaid + closed.fee
  if ¬ 0 < closed.avgPrice ∨ ¬ 0 < closed.filledSize then some (-fees)
  else
    let move := closed.avgPrice - pos.entryPrice
    let move := if pos.side = .short then -move else move
    (Fixed.mul move closed.filledSize).map (· - fees)

/-! ## What the journal is told -/

/-- What an order filled. -/
structure Fill where
  side : Side
  size : D
  price : D
  fee : D
  builderFee : D

/-- The fill of an order. -/
def fillOf (side : Side) (placed : Order) : Fill :=
  ⟨side, placed.filledSize, placed.avgPrice, placed.fee, placed.builderFee⟩

/-- What a position was made of. -/
structure Terms where
  leverage : Option D
  collateral : Option D
  stopPnL : Option D
  takeProfitPnL : Option D

/-- A share of the collateral in money, when there is a share. -/
def shareOf (collateral share : D) : Option (Option D) :=
  if 0 < share then (Fixed.mul collateral share).map some else some none

/-- The terms of an opened position. -/
def termsOf (notional leverage maxLoss takeProfit : D) : Option Terms :=
  if ¬ 0 < leverage then some ⟨none, none, none, none⟩
  else if ¬ 0 < notional then some ⟨some leverage, none, none, none⟩
  else do
    let collateral ← Fixed.div notional leverage
    let stop ← shareOf collateral maxLoss
    let target ← shareOf collateral takeProfit
    return ⟨some leverage, some collateral, stop.map (- ·), target⟩

/-- Who closed a position. -/
inductive CloseReason
  | manual
  | horizon
  | stop
  | takeProfit
  deriving DecidableEq

/-- The last round trip's outcome. -/
structure CloseEvent where
  symbol : String
  side : Side
  reason : CloseReason
  price : D
  pnl : D
  closedAt : Time

/-- What a service tells the ledger. -/
inductive Entry (ι : Type)
  | opened (strategy symbol orderID : String) (fill : Fill) (terms : Terms)
  | closed (symbol : String) (pnl : D) (orderID : String) (fill : Fill) (reason : CloseReason)
      (run : Option (Excursion ι))

/-! ## The service -/

/-- One exchange account's trading core. -/
structure Service (ι : Type) where
  /-- What the policy engine and the horizons are keyed by. -/
  account : String
  engine : Engine
  exits : Exits ι
  /-- Whether round trips are recorded on a ledger, and what it was told. -/
  keepsLedger : Bool
  ledger : List (Entry ι)
  /-- Whether pending horizons are kept across restarts. -/
  keepsRows : Bool
  lastClose : Option CloseEvent
  /-- When set, recomputes the limits from the balance and what the day has lost. -/
  limitsFn : Option (D → D → Policy.Limits)
  /-- The last balance read, if any was. -/
  balance : Option D

/-- How an operation ends: with an answer, or with a panic the caller's handler takes. -/
inductive Outcome
  | done (r : Except Error Order)
  | panicked

/-- What an opening order meets outside the service. -/
structure OpenAnswers where
  clientID : String
  /-- The time before the venue is asked, and once it has answered. -/
  before : Time
  after : Time
  /-- The free balance the venue reports. -/
  balance : Except VenueError D
  place : OrderRequest → Except VenueError Order
  /-- Whether the row is written. -/
  saves : Bool

/-- What a closing order meets outside the service. -/
structure CloseAnswers where
  clientID : String
  before : Time
  after : Time
  /-- Whether the row is deleted. -/
  deletes : Bool
  positions : Except VenueError (List Position)
  place : OrderRequest → Except VenueError Order

namespace Service

variable {ι : Type}

/-- Recompute the limits from a balance just read; limits that are refused are not installed. -/
def refreshLimits (s : Service ι) (now : Time) (balance : D) : Service ι :=
  match s.limitsFn with
  | none => { s with balance := some balance }
  | some fn =>
    let snap := s.engine.snapshot now s.account
    { s with
      balance := some balance
      engine := match snap.1.setLimits s.account (fn balance snap.2.dailyLoss) with
        | .ok engine => engine
        | .error _ => snap.1 }

/-- The same before an opening order, asking for the balance only when none was read yet. -/
def refreshLimitsForOrder (s : Service ι) (now : Time) (account : Except VenueError D) :
    Service ι :=
  if s.limitsFn.isNone then s else
    match s.balance, account with
    | some balance, _ => s.refreshLimits now balance
    | none, .ok balance => s.refreshLimits now balance
    | none, .error _ => s

/-- Arm the exits a position was opened with. -/
def armExits (s : Service ι) (now : Time) (tag : ι) (req : OpenRequest) (saves : Bool) :
    Service ι :=
  let closesAt := if 0 < req.horizon then some (now.add req.horizon) else none
  let bounded := 0 < req.maxLoss ∨ 0 < req.takeProfit
  let x := match closesAt with
    | some t => s.exits.schedule req.symbol ⟨t, tag⟩
    | none => s.exits
  let x := if bounded then x.armStop req.symbol ⟨req.maxLoss, req.takeProfit, tag⟩ else x
  let x := if s.keepsRows ∧ (0 < req.horizon ∨ bounded) ∧ saves then
      x.saveHorizon s.account req.symbol ⟨closesAt, req.maxLoss, req.takeProfit, tag⟩
    else x
  { s with exits := x }

/-- Record an order the venue took, and arm its exits. -/
def settleOpen (s : Service ι) (a : OpenAnswers) (tag : ι) (req : OpenRequest) (placed : Order) :
    Service ι × Outcome :=
  match openedNotional req.notional placed with
  | none => (s, .panicked)
  | some opened =>
    let s := { s with engine := s.engine.recordOpen a.after s.account opened }
    if s.keepsLedger then
      match termsOf opened req.leverage req.maxLoss req.takeProfit with
      | none => (s, .panicked)
      | some terms =>
        let entry := .opened req.strategy req.symbol placed.venueID (fillOf req.side placed) terms
        let s := { s with ledger := s.ledger ++ [entry] }
        (s.armExits a.after tag req a.saves, .done (.ok placed))
    else (s.armExits a.after tag req a.saves, .done (.ok placed))

/-- Check a request and ask the engine, before the venue is touched. -/
def admitOpen (s : Service ι) (a : OpenAnswers) (req : OpenRequest) :
    Service ι × Except Error OpenRequest :=
  match req.check with
  | .error e => (s, .error e)
  | .ok req =>
    let s := s.refreshLimitsForOrder a.before a.balance
    match s.engine.authorize a.before (Policy.fromOrder s.account (req.order a.clientID)) with
    | (engine, some denial) => ({ s with engine }, .error (.denied denial))
    | (engine, none) => ({ s with engine }, .ok req)

/-- Take a position: the engine is told about it only once the venue accepted it. -/
def openPosition (s : Service ι) (a : OpenAnswers) (tag : ι) (req : OpenRequest) :
    Service ι × Outcome :=
  let admitted := (s.admitOpen a req).1
  match (s.admitOpen a req).2 with
  | .error e => (admitted, .done (.error e))
  | .ok req =>
    match a.place (req.order a.clientID) with
    | .error e => (admitted, .done (.error (.venue e)))
    | .ok placed =>
      -- the venue refused after admission; nothing was opened
      if placed.status = .failed then (admitted, .done (.ok placed))
      else admitted.settleOpen a tag req placed

/-- Disarm a symbol's exits, so that two of them do not race to close twice. -/
def disarm (s : Service ι) (symbol : String) (deletes : Bool) : Service ι :=
  let x := (s.exits.cancel symbol).disarmStop symbol
  { s with exits := if s.keepsRows ∧ deletes then x.deleteHorizon s.account symbol else x }

/-- Record an order that closed a position. -/
def settleClose (s : Service ι) (a : CloseAnswers) (symbol : String) (reason : CloseReason)
    (pos : Position) (placed : Order) : Service ι × Outcome :=
  match Fixed.mul pos.entryPrice pos.size, realizedPnL pos placed with
  | some notional, some pnl =>
    let engine := s.engine.recordClose a.after s.account notional pnl
    let taken := s.exits.takeExcursion symbol
    let entry := .closed symbol pnl placed.venueID (fillOf pos.side placed) reason taken.2
    ({ s with
        engine
        ledger := if s.keepsLedger then s.ledger ++ [entry] else s.ledger
        exits := if s.keepsLedger then taken.1 else s.exits
        lastClose := some ⟨symbol, pos.side, reason, placed.avgPrice, pnl, a.after⟩ },
      .done (.ok placed))
  | _, _ => (s, .panicked)

/-- Disarm a symbol, read its position and ask the engine. -/
def admitClose (s : Service ι) (a : CloseAnswers) (symbol : String) :
    Service ι × Except Error Position :=
  let s := s.disarm symbol a.deletes
  match a.positions with
  | .error e => (s, .error (.venue e))
  | .ok positions =>
    match positions.find? fun p => p.symbol = symbol with
    | none => (s, .error (.noPosition symbol))
    | some pos =>
      let order := closeOrder symbol pos a.clientID
      match s.engine.authorize a.before (Policy.fromOrder s.account order) with
      | (engine, some denial) => ({ s with engine }, .error (.denied denial))
      | (engine, none) => ({ s with engine }, .ok pos)

/-- The one exit, whoever asks for it: everything armed for the symbol is disarmed first. -/
def close (s : Service ι) (a : CloseAnswers) (symbol : String) (reason : CloseReason) :
    Service ι × Outcome :=
  let admitted := (s.admitClose a symbol).1
  match (s.admitClose a symbol).2 with
  | .error e => (admitted, .done (.error e))
  | .ok pos =>
    match a.place (closeOrder symbol pos a.clientID) with
    | .error e => (admitted, .done (.error (.venue e)))
    | .ok placed =>
      if placed.status = .failed then (admitted, .done (.ok placed))
      else admitted.settleClose a symbol reason pos placed

/-- Flatten the open position in a market, on request. -/
def closePosition (s : Service ι) (a : CloseAnswers) (symbol : String) : Service ι × Outcome :=
  if symbolOf symbol = "" then (s, .done (.error (.invalid "symbol is required")))
  else s.close a (symbolOf symbol) .manual

end Service

end SuperAgent.Platform
