import SuperAgent.Core.Channel
import SuperAgent.Perpl.Convert

/-!
# Market-data streams

What the venue's market-data socket carries, and what the handler of each kind
of stream makes of a frame: the bars of a market, its order book or the prices
of all markets, one value after the other for the stream's channel.
-/

namespace SuperAgent.Perpl

open Fixed (D)

/-! ## On the wire -/

/-- A bar as the venue reports it. -/
structure WireCandle where
  /-- When it opened, in milliseconds since 1970. -/
  time : Int64
  «open» : Int64
  close : Int64
  high : Int64
  low : Int64
  volume : String
  trades : Int
  deriving DecidableEq

/-- A price level of a book as the venue reports it. -/
structure WireLevel where
  price : Int64
  size : Int64
  orders : Int

/-- The prices of a market as the venue reports them. -/
structure MarketState where
  time : Int64
  oracle : Int64
  mark : Int64
  last : Int64
  bid : Int64
  ask : Int64

/-- One entry of the answer to a subscribe request. -/
structure SubscribeStatus where
  stream : String
  subID : Int
  /-- Zero without a status. -/
  code : Int

/-- A frame of the market-data socket. -/
inductive MDFrame
  | unparseable
  | subscribeResponse (subs : List SubscribeStatus)
  | heartbeat (sid head : Int)
  /-- A snapshot or an update. -/
  | candles (sid : Int) (data : List WireCandle)
  /-- A snapshot or an update. -/
  | book (sid : Int) (time : Int64) (bids asks : List WireLevel)
  /-- The markets in the order the handler ranges over them. -/
  | marketState (sid : Int) (data : List (String × MarketState))
  /-- Of another type, or with data its handler cannot read. -/
  | other (sid : Int)

/-- The subscription a frame is of, zero when it names none. -/
def MDFrame.subID : MDFrame → Int
  | .heartbeat sid _ => sid
  | .candles sid _ => sid
  | .book sid _ _ _ => sid
  | .marketState sid _ => sid
  | .other sid => sid
  | .unparseable | .subscribeResponse _ => 0

/-! ## In the venue's terms -/

/-- A bar. -/
structure Candle where
  «open» : Option Time
  period : Duration
  o : D
  h : D
  l : D
  c : D
  volume : D
  trades : Int
  deriving DecidableEq

/-- A price level of a book. -/
structure BookLevel where
  price : D
  size : D
  orders : Int

/-- The order book of a market. -/
structure Book where
  time : Option Time
  bids : List BookLevel
  asks : List BookLevel

/-- The prices of a market. -/
structure Ticker where
  time : Option Time
  symbol : String
  mark : D
  oracle : D
  last : D
  bid : D
  ask : D

/-- What a stream's channel carries. -/
inductive Value
  | candle (c : Candle)
  | book (b : Book)
  | ticker (t : Ticker)

namespace Context

/-- A bar in the venue's terms. -/
def toVenueCandle (c : Context) (m : Market) (period : Duration) (w : WireCandle) :
    Converts Candle := do
  let o ← scaled w.open m.priceDecimals
  let h ← scaled w.high m.priceDecimals
  let l ← scaled w.low m.priceDecimals
  let cl ← scaled w.close m.priceDecimals
  let volume ← c.parseAmount w.volume
  return { «open» := msTime w.time, period, o, h, l, c := cl, volume, trades := w.trades }

end Context

/-- The levels of a book that hold orders. -/
def toLevels (m : Market) (levels : List WireLevel) : List BookLevel :=
  levels.filterMap fun (l : WireLevel) =>
    if l.orders = 0 then none
    else match Fixed.fromScaled l.price m.priceDecimals, Fixed.fromScaled l.size m.sizeDecimals with
      | .ok price, .ok size => some ⟨price, size, l.orders⟩
      | _, _ => none

/-- The prices of a market, unless one is out of range: then the process panics. -/
def toTicker (m : Market) (st : MarketState) : Option Ticker := do
  let price (v : Int64) := (Fixed.fromScaled v m.priceDecimals).toOption
  return { time := msTime st.time, symbol := m.ticker, mark := ← price st.mark,
           oracle := ← price st.oracle, last := ← price st.last, bid := ← price st.bid,
           ask := ← price st.ask }

/-! ## Handlers -/

/-- What is subscribed to. -/
inductive Feed
  /-- The marks positions are valued by, which go to no channel. -/
  | marks
  | candles (m : Market) (period : Duration)
  | book (m : Market)
  | tickers

/-- The periods of the bars the venue serves, in seconds. -/
def candleResolutions : List Int64 :=
  [60, 300, 900, 1800, 3600, 7200, 14400, 28800, 43200, 86400]

namespace Feed

/-- Whether the venue serves a feed. -/
def supported : Feed → Bool
  | .candles _ period => candleResolutions.contains (period / Duration.second)
  | _ => true

/-- The name of a feed's stream, on the venue's chain. -/
def stream (chainID : Int) : Feed → String
  | .candles m period => "candles@" ++ toString m.id ++ "*" ++ Fixed.formatInt (period / Duration.second)
  | .book m => "order-book@" ++ toString m.id
  | .tickers | .marks => "market-state@" ++ toString chainID

/-- How many values a feed's channel holds. -/
def capacity : Feed → Nat
  | .book _ => 64
  | _ => 256

/-- What a feed's handler makes of a frame, in the order it sends it: `none` is a panic. -/
def values (f : Feed) (c : Context) (frame : MDFrame) : List (Option Value) :=
  match f, frame with
  | .candles m period, .candles _ data => data.filterMap fun w =>
      match c.toVenueCandle m period w with
      | some (.ok candle) => some (some (.candle candle))
      | some (.error _) => none
      | none => some none
  | .book m, .book _ time bids asks =>
      [some (.book ⟨msTime time, toLevels m bids, toLevels m asks⟩)]
  | .tickers, .marketState _ data => data.filterMap fun (id, st) =>
      match (parseInt id).toOption.bind fun id => c.byID id.toInt with
      | some m => some ((toTicker m st).map .ticker)
      | none => none
  | _, _ => []

end Feed

end SuperAgent.Perpl
