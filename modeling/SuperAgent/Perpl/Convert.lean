import SuperAgent.Core.Clock
import SuperAgent.Core.Text
import SuperAgent.Fixed.Scaled
import SuperAgent.Venue.Order

/-!
# From the wire to the venue's terms

Perpl reports integers scaled by decimals that depend on the market. What the
adapter knows of the markets and of their marks turns a reported position into
one of the engine's.
-/

namespace SuperAgent.Perpl

open Fixed (D)
open Venue (Side Position)

/-- The status of an open position on the wire. -/
def positionStatusOpen : Int := 1

/-- The side of a short position on the wire. -/
def positionShort : Int := 2

/-- A position as the venue reports it. -/
structure WirePosition where
  market : Int
  positionID : Nat
  status : Int
  side : Int
  collateral : String
  entryPrice : Int64
  size : Int64
  fee : String
  /-- In hundredths. -/
  leverage : Int64
  funding : String
  /-- When it was opened, in milliseconds since 1970; zero when that is not known. -/
  openedAt : Int64
  deriving DecidableEq

/-- Whether the venue says the position is open. -/
def WirePosition.isOpen (p : WirePosition) : Bool := p.status = positionStatusOpen

/-- What a conversion needs of a market. -/
structure Market where
  id : Int
  symbol : String
  name : String
  priceDecimals : Int
  sizeDecimals : Int
  /-- The mark the market's last snapshot carried. -/
  mark : Int64

/-- A market's name wherever it trades: the symbol, or the name where there is none. -/
def Market.ticker (m : Market) : String := if m.symbol = "" then m.name else m.symbol

/-- What the adapter knows when it converts. -/
structure Context where
  byID : Int → Option Market
  collateralDecimals : Int
  /-- The last mark of each market's live stream. -/
  marks : Int → Option D

/-- An open position with what only a screen shows of it. -/
structure ReportedPosition extends Position where
  venueID : String
  realizedFunding : D
  openedAt : Option Time
  deriving DecidableEq

/-- Why a value of the wire has no counterpart. -/
inductive ConvertError
  | unknownMarket (id : Int)
  | scaled (e : Fixed.Error)
  | amount (text : String) (e : NumError)
  deriving DecidableEq

/-- A conversion: it may fail with an error, or panic. -/
abbrev Converts := ExceptT ConvertError Option

/-- A sequence of conversions succeeds exactly when each of its steps does. -/
theorem Converts.bind_eq_ok {α β : Type} {x : Converts α} {f : α → Converts β} {r : β} :
    x >>= f = some (.ok r) ↔ ∃ a, x = some (.ok a) ∧ f a = some (.ok r) := by
  rcases x with _ | e | a
  · exact ⟨nofun, nofun⟩
  · exact ⟨nofun, nofun⟩
  · exact ⟨fun h => ⟨a, rfl, h⟩, fun ⟨b, hb, h⟩ => by cases hb; exact h⟩

/-- An instant from the wire's milliseconds. -/
def msTime (ms : Int64) : Option Time :=
  if ms = 0 then none else some (62135596800 * 1000000000 + ms.toInt * 1000000)

namespace Context

/-- A scaled integer of the wire. -/
def scaled (v : Int64) (decimals : Int) : Converts D :=
  ExceptT.mk (some ((Fixed.fromScaled v decimals).mapError .scaled))

/-- An amount of collateral, written as an integer; an empty one is zero. -/
def parseAmount (c : Context) (s : String) : Converts D :=
  let s := trimSpace s
  if s = "" then pure 0
  else match parseInt s with
    | .error e => throw (.amount s e)
    | .ok v => scaled v (if c.collateralDecimals = 0 then 6 else c.collateralDecimals)

/-- The live mark of a market, or the one its snapshot carried; none when neither is usable. -/
def markFor (c : Context) (m : Market) : Option D :=
  match (c.marks m.id).filter (0 < ·), Fixed.fromScaled m.mark m.priceDecimals with
  | some live, _ => some live
  | none, .ok mark => if 0 < mark then some mark else none
  | none, .error _ => none

/-- A reported position in the engine's terms. -/
def toVenuePosition (c : Context) (p : WirePosition) : Converts ReportedPosition := do
  let m ← match c.byID p.market with
    | some m => pure m
    | none => throw (.unknownMarket p.market)
  let size ← scaled p.size m.sizeDecimals
  let entryPrice ← scaled p.entryPrice m.priceDecimals
  let collateral ← c.parseAmount p.collateral
  let feesPaid ← c.parseAmount p.fee
  let realizedFunding ← c.parseAmount p.funding
  let side := if p.side = positionShort then Side.short else .long
  let leverage ← ExceptT.lift (Fixed.div (Fixed.fromInt p.leverage) (Fixed.fromInt 100))
  let unrealizedPnL ← match c.markFor m with
    | none => pure 0
    | some mark =>
      let move := mark - entryPrice
      ExceptT.lift (Fixed.mul (if side = .short then -move else move) size)
  return { symbol := m.ticker, side, size, entryPrice, collateral, leverage, feesPaid,
           unrealizedPnL, venueID := toString p.positionID, realizedFunding,
           openedAt := msTime p.openedAt }

/-- The positions the adapter returns for those it keeps, in the order it ranges over them. -/
def positions (c : Context) (raw : List WirePosition) : Converts (List ReportedPosition) :=
  (raw.filter WirePosition.isOpen).mapM c.toVenuePosition

end Context

end SuperAgent.Perpl
