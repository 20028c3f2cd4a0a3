import SuperAgent.Fixed.Decimal

/-!
# Orders and positions

What the engine and a venue tell each other: the orders placed, the state a
venue reports for them, and the exposure it holds.
-/

namespace SuperAgent.Venue

open Fixed (D)

/-- The direction of an order or a position. -/
inductive Side
  | unspecified
  | long
  | short
  deriving DecidableEq

/-- An instruction to open or close exposure. Exactly one of `size` and `notional` is set. -/
structure OrderRequest where
  clientID : String
  symbol : String
  side : Side
  /-- An order that may only close existing exposure. -/
  reduce : Bool := false
  size : D := 0
  notional : D := 0
  leverage : D
  deriving DecidableEq

/-- The state of an order as the engine acts on it. -/
inductive OrderStatus
  | unknown
  | pending
  | «open»
  | partiallyFilled
  | filled
  | canceled
  | expired
  | failed
  deriving DecidableEq

/-- Whether no further updates are expected for the order. -/
def OrderStatus.terminal : OrderStatus → Bool
  | .filled | .canceled | .expired | .failed => true
  | _ => false

/-- An order as the venue reports it. -/
structure Order where
  venueID : String
  status : OrderStatus
  filledSize : D
  avgPrice : D
  fee : D
  builderFee : D
  deriving DecidableEq

/-- Open exposure. -/
structure Position where
  symbol : String
  side : Side
  size : D
  entryPrice : D
  collateral : D
  leverage : D
  feesPaid : D
  unrealizedPnL : D
  deriving DecidableEq

end SuperAgent.Venue
