import SuperAgent.Core.Clock
import SuperAgent.Venue.Order
import Mathlib.Logic.Function.Basic

/-!
# The exits of a position

What a service keeps for a running position, all by symbol: the pending horizon
timer, the armed stop and target, how far the position has run, and the row
that survives a restart. Every kept item carries a tag that tells apart what it
was made for; nothing the service does looks at it.
-/

namespace SuperAgent.Platform

open Fixed (D)

variable {ι : Type}

/-- A pending horizon. -/
structure Timer (ι : Type) where
  closesAt : Time
  tag : ι
  deriving DecidableEq

/-- The pair of bounds a watcher guards, as fractions of collateral. -/
structure Stop (ι : Type) where
  maxLoss : D
  takeProfit : D
  tag : ι
  deriving DecidableEq

/-- How far an open position has run each way. -/
structure Excursion (ι : Type) where
  worst : D
  best : D
  tag : ι
  deriving DecidableEq

/-- A persisted row. -/
structure Horizon (ι : Type) where
  closesAt : Option Time
  maxLoss : D
  takeProfit : D
  tag : ι
  deriving DecidableEq

/-- What is kept for each symbol, and the database's rows by account and symbol. -/
structure Exits (ι : Type) where
  timers : String → Option (Timer ι)
  stops : String → Option (Stop ι)
  runs : String → Option (Excursion ι)
  rows : String → String → Option (Horizon ι)

namespace Exits

/-- Nothing kept. -/
def empty : Exits ι := ⟨fun _ => none, fun _ => none, fun _ => none, fun _ _ => none⟩

/-- Schedule a symbol's timer, replacing the pending one. -/
def schedule (x : Exits ι) (symbol : String) (t : Timer ι) : Exits ι :=
  { x with timers := Function.update x.timers symbol (some t) }

/-- Forget a symbol's pending timer. -/
def cancel (x : Exits ι) (symbol : String) : Exits ι :=
  { x with timers := Function.update x.timers symbol none }

/-- Arm a symbol's stop, replacing the armed one. -/
def armStop (x : Exits ι) (symbol : String) (st : Stop ι) : Exits ι :=
  { x with stops := Function.update x.stops symbol (some st) }

/-- Forget a symbol's stop. -/
def disarmStop (x : Exits ι) (symbol : String) : Exits ι :=
  { x with stops := Function.update x.stops symbol none }

/-- Record one reading of an open position's result. A record that exists is widened; only a
new one takes the tag. -/
def noteExcursion (x : Exits ι) (symbol : String) (unrealized : D) (tag : ι) : Exits ι :=
  let e := (x.runs symbol).getD ⟨unrealized, unrealized, tag⟩
  let e := { e with
    worst := if unrealized < e.worst then unrealized else e.worst
    best := if e.best < unrealized then unrealized else e.best }
  { x with runs := Function.update x.runs symbol (some e) }

/-- Record one reading of each position. -/
def noteAll (x : Exits ι) (tag : String → ι) (positions : List Venue.Position) : Exits ι :=
  positions.foldl (fun x p => x.noteExcursion p.symbol p.unrealizedPnL (tag p.symbol)) x

/-- Readings widen excursions and nothing else. -/
theorem noteAll_frame (x : Exits ι) (tag : String → ι) (positions : List Venue.Position) :
    (x.noteAll tag positions).timers = x.timers ∧ (x.noteAll tag positions).stops = x.stops ∧
      (x.noteAll tag positions).rows = x.rows := by
  induction positions generalizing x with
  | nil => exact ⟨rfl, rfl, rfl⟩
  | cons p ps ih => exact ih (x.noteExcursion p.symbol p.unrealizedPnL (tag p.symbol))

/-- Read and forget what a symbol's position ran to. -/
def takeExcursion (x : Exits ι) (symbol : String) : Exits ι × Option (Excursion ι) :=
  ({ x with runs := Function.update x.runs symbol none }, x.runs symbol)

/-- Save a row over the one with its key. -/
def saveHorizon (x : Exits ι) (account symbol : String) (h : Horizon ι) : Exits ι :=
  let rows := Function.update (x.rows account) symbol (some h)
  { x with rows := Function.update x.rows account rows }

/-- Delete the row of an account's symbol. -/
def deleteHorizon (x : Exits ι) (account symbol : String) : Exits ι :=
  let rows := Function.update (x.rows account) symbol none
  { x with rows := Function.update x.rows account rows }

end Exits

end SuperAgent.Platform
