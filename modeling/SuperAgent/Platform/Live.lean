import SuperAgent.Core.Generation
import SuperAgent.Platform.Closers

/-!
# Exits side by side

The calls of a service, the callbacks of its timers and the watchers of its
stops all run at once. A call under way is a task that stands before its next
use of what the service shares: the timers, the stops, the excursions, the rows
of the database and the venue. Tasks take their steps in any order, the venue
changes positions on its own, and the process may start over at any moment.

The positions of a market are numbered as they begin, and every kept item
carries the number of the position it was made for.
-/

namespace SuperAgent.Platform

open Fixed (D)
open Venue (Order Position)

/-! ## What the venue holds -/

/-- One market of the account. -/
structure Market where
  position : Option Position
  /-- Counts the positions begun, and the opening orders taken while there was none. -/
  number : ℕ
  /-- An opening order was taken and its position has not shown. -/
  awaited : Bool

namespace Market

/-- Whether a change begins a position other than the one held or awaited. -/
def begins (m : Market) (ordered : Bool) (after : Option Position) : Bool :=
  match m.position, after with
  | none, none => ordered
  | none, some _ => ordered || !m.awaited
  | some p, some q => p.side ≠ q.side
  | some _, none => false

/-- The market once it holds what it holds after a change. -/
def move (m : Market) (ordered : Bool) (after : Option Position) : Market where
  position := after
  number := if m.begins ordered after then m.number + 1 else m.number
  awaited := m.position.isNone && after.isNone && (ordered || m.awaited)

end Market

/-! ## Tasks -/

/-- What tells kept items apart: the position one was made for, and its place among all that
were made. -/
structure Mark where
  owner : ℕ
  serial : ℕ
  deriving DecidableEq

/-- What the app sends to change a running position's exits. -/
structure AmendRequest where
  symbol : String
  /-- A value replaces the exit, and zero disarms it. -/
  maxLoss : Option D
  takeProfit : Option D
  extend : Duration

/-- The request with its symbol as the platform keys it, or the first thing wrong with it. -/
def AmendRequest.check (req : AmendRequest) : Except Error AmendRequest := do
  let symbol := symbolOf req.symbol
  revertIf (symbol = "") (.invalid "symbol is required")
  revertIf (req.maxLoss.any fun m => m < 0 ∨ Fixed.fromInt 1 < m)
    (.invalid "max_loss must be between 0 and 1")
  revertIf (req.takeProfit.any fun t => t < 0) (.invalid "take_profit must not be negative")
  revertIf (req.extend < 0) (.invalid "extend must not be negative")
  return { req with symbol }

/-- Whether a pair of bounds is watched at all. -/
def bounded (maxLoss takeProfit : D) : Bool := 0 < maxLoss || 0 < takeProfit

/-- Which bound a reading has reached. A product that does not fit panics. -/
def Stop.hit {ι : Type} (st : Stop ι) (pos : Position) : Option (Option CloseReason) := do
  let allowance ← Fixed.mul pos.collateral st.maxLoss
  let target ← Fixed.mul pos.collateral st.takeProfit
  return if 0 < allowance ∧ allowance ≤ -pos.unrealizedPnL then some .stop
    else if 0 < target ∧ target ≤ pos.unrealizedPnL then some .takeProfit else none

/-- A call of the one close path. -/
structure CloseCall where
  symbol : String
  reason : CloseReason
  /-- The position whose timer or watcher calls; a tap is no position's. -/
  owner : Option ℕ
  /-- The attempts left, this one included. -/
  attempts : ℕ

/-- A position as a read of the account found it. -/
structure Seen where
  symbol : String
  number : ℕ
  position : Position

/-- A call under way, by what it does next. -/
inductive Task
  /-- `Open`, once the venue took the order: schedule the horizon. -/
  | scheduling (req : OpenRequest) (owner : ℕ)
  /-- `Open`: arm the stop. -/
  | bounding (req : OpenRequest) (closesAt : Option Time) (owner : ℕ)
  /-- `Open` and `Amend`: save the row. -/
  | saving (symbol : String) (row : Horizon Mark)
  /-- A timer's callback: forget the timer's entry. -/
  | firing (symbol : String) (t : Timer Mark)
  /-- The watcher of a stop, between two looks. -/
  | watching (symbol : String) (st : Stop Mark)
  /-- The watcher, which found no position: disarm the stop. -/
  | leaving (symbol : String) (st : Stop Mark)
  /-- The watcher, which found a position: note its result and judge it. -/
  | judging (symbol : String) (st : Stop Mark) (owner : ℕ) (pos : Position)
  /-- `close`: cancel the timer. -/
  | canceling (c : CloseCall)
  /-- `close`: disarm the stop. -/
  | disarming (c : CloseCall)
  /-- `close`: delete the row. -/
  | erasing (c : CloseCall)
  /-- `close`: look for the position. -/
  | finding (c : CloseCall)
  /-- `close`: place the order. -/
  | placing (c : CloseCall) (owner : ℕ) (pos : Position)
  /-- `close`, once the venue took the order: take the excursion for the ledger, if any. -/
  | journaling (symbol : String) (owner : ℕ)
  /-- `Amend`, which found a position: read the stop as it stands. -/
  | inheriting (req : AmendRequest) (owner : ℕ)
  /-- `Amend`: read the timer as it stands. -/
  | extending (req : AmendRequest) (maxLoss takeProfit : D) (owner : ℕ)
  /-- `Amend`: schedule the horizon. -/
  | postponing (symbol : String) (closesAt : Time) (maxLoss takeProfit : D) (owner : ℕ)
  /-- `Amend`: arm or disarm the stop. -/
  | rebounding (symbol : String) (closesAt : Option Time) (maxLoss takeProfit : D) (owner : ℕ)
  /-- `Amend`, which left nothing armed: delete the row. -/
  | deleting (symbol : String)
  /-- `State`: look up the deadline of the first position left. -/
  | reporting (seen : List Seen)
  /-- `State`: look up its stop. -/
  | showing (seen : List Seen)
  /-- `State`: note its result. -/
  | sampling (seen : List Seen)
  /-- `Restore`: schedule the horizon of the first row left. -/
  | restoring (rows : List (String × Horizon Mark))
  /-- `Restore`: arm its stop. -/
  | rearming (symbol : String) (row : Horizon Mark) (rows : List (String × Horizon Mark))

/-- The markets a task is about, each with the position the task takes it to hold. A task that
is nobody's has no position in mind. -/
def Task.stamps : Task → List (String × ℕ)
  | .scheduling req owner | .bounding req _ owner => [(req.symbol, owner)]
  | .saving symbol row => [(symbol, row.tag.owner)]
  | .firing symbol t => [(symbol, t.tag.owner)]
  | .watching symbol st | .leaving symbol st => [(symbol, st.tag.owner)]
  | .judging symbol st owner _ => [(symbol, st.tag.owner), (symbol, owner)]
  | .canceling c | .disarming c | .erasing c | .finding c =>
    c.owner.toList.map fun owner => (c.symbol, owner)
  | .placing c owner _ => (c.symbol, owner) :: c.owner.toList.map fun owner => (c.symbol, owner)
  | .journaling symbol owner => [(symbol, owner)]
  | .inheriting req owner | .extending req _ _ owner => [(req.symbol, owner)]
  | .postponing symbol _ _ _ owner | .rebounding symbol _ _ _ owner => [(symbol, owner)]
  | .deleting _ => []
  | .reporting seen | .showing seen | .sampling seen =>
    seen.map fun s => (s.symbol, s.number)
  | .restoring rows => rows.map fun r => (r.1, r.2.tag.owner)
  | .rearming symbol row rows =>
    (symbol, row.tag.owner) :: rows.map fun r => (r.1, r.2.tag.owner)

/-! ## The service -/

/-- What is done with something made for one position. -/
inductive ActKind
  | armed
  | closed
  | reported
  | noted
  | journaled
  | disarmed
  deriving DecidableEq

/-- Something made for the position `owner` was used on, or took from, another or the same. -/
structure Act where
  kind : ActKind
  owner : ℕ
  position : ℕ
  deriving DecidableEq

/-- The address inside a policy account. -/
def walletOf (account : String) : String := String.ofList (account.toList.takeWhile (· ≠ '/'))

/-- The account a strategy's own key traded under. -/
def legacyPolicyAccount (wallet strategyID : String) : String :=
  toLower wallet ++ "/" ++ strategyID

/-- A service at work on one account. -/
structure Live where
  account : String
  /-- Whether round trips are recorded on a ledger. -/
  keepsLedger : Bool
  /-- Whether pending horizons are kept across restarts. -/
  keepsRows : Bool
  now : Time
  markets : String → Market
  exits : Exits Mark
  /-- The runtime timers that will still call back. -/
  alarms : List (String × Timer Mark)
  tasks : List Task
  serial : ℕ
  acts : List Act

namespace Live

/-- The latest position of a market. -/
def number (w : Live) (symbol : String) : ℕ := (w.markets symbol).number

/-- The accounts whose rows are restored. -/
def accounts (w : Live) : List String :=
  w.account :: if w.account = walletOf w.account then
    catalog.map fun info => legacyPolicyAccount (walletOf w.account) info.id else []

/-- Go on with a task later. -/
def go (w : Live) (k : Task) : Live := { w with tasks := w.tasks ++ [k] }

/-- Note what is done. -/
def notes (w : Live) (acts : List Act) : Live := { w with acts := w.acts ++ acts }

/-- Note that what is kept is taken for a position's. -/
def uses (w : Live) (kind : ActKind) (kept : Option Mark) (position : ℕ) : Live :=
  w.notes (kept.toList.map fun mark => ⟨kind, mark.owner, position⟩)

/-- Note that something is used on the position a market holds, when it holds one. -/
def usesOn (w : Live) (kind : ActKind) (owner : Option ℕ) (symbol : String) : Live :=
  w.notes (owner.toList.flatMap fun owner =>
    (w.markets symbol).position.toList.map fun _ => ⟨kind, owner, w.number symbol⟩)

/-- Note that a timer or a watcher forgets what is kept. -/
def forgets (w : Live) (owner : Option ℕ) (kept : Option Mark) : Live :=
  w.notes (owner.toList.flatMap fun owner =>
    kept.toList.map fun mark => ⟨.disarmed, owner, mark.owner⟩)

/-- A market changes. -/
def settle (w : Live) (symbol : String) (ordered : Bool) (after : Option Position) : Live :=
  { w with markets := Function.update w.markets symbol ((w.markets symbol).move ordered after) }

/-- The pending timer of a symbol will not call back. -/
def stopAlarm (w : Live) (symbol : String) : Live :=
  let alarms := match w.exits.timers symbol with
    | some t => w.alarms.erase (symbol, t)
    | none => w.alarms
  { w with alarms }

/-- Schedule a symbol's timer, replacing the pending one. -/
def schedule (w : Live) (symbol : String) (closesAt : Time) (owner : ℕ) : Live :=
  let t : Timer Mark := ⟨closesAt, ⟨owner, w.serial⟩⟩
  let w := (w.stopAlarm symbol).usesOn .armed owner symbol
  { w with
    exits := w.exits.schedule symbol t
    alarms := w.alarms ++ [(symbol, t)]
    serial := w.serial + 1 }

/-- Forget a symbol's timer. -/
def cancel (w : Live) (symbol : String) : Live :=
  let w := w.stopAlarm symbol
  { w with exits := w.exits.cancel symbol }

/-- Arm a symbol's stop, and watch it. -/
def armStop (w : Live) (symbol : String) (maxLoss takeProfit : D) (owner : ℕ) : Live :=
  let st : Stop Mark := ⟨maxLoss, takeProfit, ⟨owner, w.serial⟩⟩
  let w := w.usesOn .armed owner symbol
  { w with
    exits := w.exits.armStop symbol st
    tasks := w.tasks ++ [.watching symbol st]
    serial := w.serial + 1 }

/-- Forget a symbol's stop. -/
def disarmStop (w : Live) (symbol : String) : Live :=
  { w with exits := w.exits.disarmStop symbol }

/-- Record one reading of a position's result. Only a ledger makes anything of the record. -/
def noteExcursion (w : Live) (symbol : String) (unrealized : D) (owner : ℕ) : Live :=
  let kept := if w.keepsLedger then (w.exits.runs symbol).map Excursion.tag else none
  let w := w.uses .noted kept owner
  { w with exits := w.exits.noteExcursion symbol unrealized ⟨owner, w.serial⟩ }

/-- Save the account's row of a symbol. -/
def saveHorizon (w : Live) (symbol : String) (row : Horizon Mark) : Live :=
  { w with exits := w.exits.saveHorizon w.account symbol row }

/-- Delete the account's row of a symbol. -/
def deleteHorizon (w : Live) (symbol : String) : Live :=
  { w with exits := w.exits.deleteHorizon w.account symbol }

/-! ### Open -/

/-- The venue takes an opening order. Amounts beyond a decimal panic before anything is armed. -/
def opened (w : Live) (req : OpenRequest) (placed : Order) (after : Option Position) : Live :=
  let w := w.settle req.symbol true after
  match openedNotional req.notional placed with
  | none => w
  | some opened =>
    let terms := termsOf opened req.leverage req.maxLoss req.takeProfit
    if w.keepsLedger ∧ terms.isNone then w
    else w.go (.scheduling req (w.number req.symbol))

def scheduling (w : Live) (req : OpenRequest) (owner : ℕ) : Live :=
  if 0 < req.horizon then
    let closesAt := w.now.add req.horizon
    (w.schedule req.symbol closesAt owner).go (.bounding req (some closesAt) owner)
  else w.go (.bounding req none owner)

def bounding (w : Live) (req : OpenRequest) (closesAt : Option Time) (owner : ℕ) : Live :=
  let row := ⟨closesAt, req.maxLoss, req.takeProfit, ⟨owner, w.serial⟩⟩
  let w := if bounded req.maxLoss req.takeProfit then
      w.armStop req.symbol req.maxLoss req.takeProfit owner else w
  if w.keepsRows ∧ (0 < req.horizon ∨ bounded req.maxLoss req.takeProfit) then
    w.go (.saving req.symbol row) else w

/-! ### The one close path -/

/-- A failed attempt is followed by the next, if one is left. -/
def retry (w : Live) (c : CloseCall) : Live :=
  if c.attempts ≤ 1 then w else w.go (.canceling { c with attempts := c.attempts - 1 })

def canceling (w : Live) (c : CloseCall) : Live :=
  let w := w.forgets c.owner ((w.exits.timers c.symbol).map Timer.tag)
  (w.cancel c.symbol).go (.disarming c)

def disarming (w : Live) (c : CloseCall) : Live :=
  let w := w.forgets c.owner ((w.exits.stops c.symbol).map Stop.tag)
  (w.disarmStop c.symbol).go (.erasing c)

def erasing (w : Live) (c : CloseCall) (deletes : Bool) : Live :=
  let w := if w.keepsRows ∧ deletes then
      (w.forgets c.owner ((w.exits.rows w.account c.symbol).map Horizon.tag)).deleteHorizon c.symbol
    else w
  w.go (.finding c)

/-- The position is looked for and the engine asked; either may fail. -/
def finding (w : Live) (c : CloseCall) (granted : Bool) : Live :=
  if granted then
    match (w.markets c.symbol).position with
    | some pos => w.go (.placing c (w.number c.symbol) pos)
    | none => w
  else w.retry c

/-- The venue answers. A position that was refused after admission is not closed, and nothing
is tried again. -/
def placing (w : Live) (c : CloseCall) (owner : ℕ) (pos : Position) (taken : Bool) (placed : Order)
    (after : Option Position) : Live :=
  if ¬ taken then w.retry c
  else if placed.status = .failed then w
  else
    let w := w.usesOn .closed c.owner c.symbol
    let w := w.settle c.symbol false after
    match Fixed.mul pos.entryPrice pos.size, realizedPnL pos placed with
    | some _, some _ => w.go (.journaling c.symbol owner)
    | _, _ => w

def journaling (w : Live) (symbol : String) (owner : ℕ) : Live :=
  if w.keepsLedger then
    let w := w.uses .journaled ((w.exits.runs symbol).map Excursion.tag) owner
    { w with exits := (w.exits.takeExcursion symbol).1 }
  else w

/-! ### Timers and watchers -/

/-- The entry is forgotten if it is still this timer's, as far as its time tells. -/
def firing (w : Live) (symbol : String) (t : Timer Mark) : Live :=
  let call : CloseCall := ⟨symbol, .horizon, some t.tag.owner, horizonCloseAttempts⟩
  let w := match w.exits.timers symbol with
    | some cur =>
      if cur.closesAt = t.closesAt then
        let w := w.forgets (some t.tag.owner) (some cur.tag)
        { w with exits := w.exits.cancel symbol }
      else w
    | none => w
  w.go (.canceling call)

/-- A look fails, or finds its market with or without a position. A watcher whose stop was
disarmed or replaced may end, but a look already due comes first as well as not. -/
def watching (w : Live) (symbol : String) (st : Stop Mark) (looks : Bool) : Live :=
  if looks then
    match (w.markets symbol).position with
    | some pos => w.go (.judging symbol st (w.number symbol) pos)
    | none => w.go (.leaving symbol st)
  else if w.exits.stops symbol = some st then w.go (.watching symbol st) else w

def leaving (w : Live) (symbol : String) (st : Stop Mark) : Live :=
  (w.forgets (some st.tag.owner) ((w.exits.stops symbol).map Stop.tag)).disarmStop symbol

def judging (w : Live) (symbol : String) (st : Stop Mark) (owner : ℕ) (pos : Position) : Live :=
  let w := w.noteExcursion symbol pos.unrealizedPnL owner
  match st.hit pos with
  | some (some reason) =>
    w.go (.canceling ⟨symbol, reason, some st.tag.owner, horizonCloseAttempts⟩)
  | some none => w.go (.watching symbol st)
  | none => w

/-! ### Amend -/

/-- The bounds an amendment leaves unset are the armed ones. -/
def inheriting (w : Live) (req : AmendRequest) (owner : ℕ) : Live :=
  match w.exits.stops req.symbol with
  | some st =>
    let kept := req.maxLoss.isNone ∧ 0 < st.maxLoss ∨ req.takeProfit.isNone ∧ 0 < st.takeProfit
    let w := w.uses .armed (if kept then some st.tag else none) owner
    w.go (.extending req (req.maxLoss.getD st.maxLoss) (req.takeProfit.getD st.takeProfit) owner)
  | none => w.go (.extending req (req.maxLoss.getD 0) (req.takeProfit.getD 0) owner)

/-- The horizon is pushed out from where it stands, unless that is past; without a push it stays. -/
def extending (w : Live) (req : AmendRequest) (maxLoss takeProfit : D) (owner : ℕ) : Live :=
  let pending := w.exits.timers req.symbol
  if 0 < req.extend then
    let ahead := pending.filter fun t => w.now < t.closesAt
    let closesAt := ((ahead.map Timer.closesAt).getD w.now).add req.extend
    if maxHorizon < closesAt.sub w.now then w
    else (w.uses .armed (ahead.map Timer.tag) owner).go
      (.postponing req.symbol closesAt maxLoss takeProfit owner)
  else (w.uses .armed (pending.map Timer.tag) owner).go
    (.rebounding req.symbol (pending.map Timer.closesAt) maxLoss takeProfit owner)

def postponing (w : Live) (symbol : String) (closesAt : Time) (maxLoss takeProfit : D)
    (owner : ℕ) : Live :=
  (w.schedule symbol closesAt owner).go (.rebounding symbol closesAt maxLoss takeProfit owner)

def rebounding (w : Live) (symbol : String) (closesAt : Option Time) (maxLoss takeProfit : D)
    (owner : ℕ) : Live :=
  let row := ⟨closesAt, maxLoss, takeProfit, ⟨owner, w.serial⟩⟩
  let w := if bounded maxLoss takeProfit then w.armStop symbol maxLoss takeProfit owner
    else w.disarmStop symbol
  if ¬ w.keepsRows then w
  else w.go (if closesAt.isSome ∨ bounded maxLoss takeProfit then .saving symbol row
    else .deleting symbol)

/-! ### State and Restore -/

def reporting (w : Live) : List Seen → Live
  | [] => w
  | s :: seen =>
    (w.uses .reported ((w.exits.timers s.symbol).map Timer.tag) s.number).go (.showing (s :: seen))

def showing (w : Live) : List Seen → Live
  | [] => w
  | s :: seen =>
    (w.uses .reported ((w.exits.stops s.symbol).map Stop.tag) s.number).go (.sampling (s :: seen))

def sampling (w : Live) : List Seen → Live
  | [] => w
  | s :: seen =>
    (w.noteExcursion s.symbol s.position.unrealizedPnL s.number).go (.reporting seen)

def restoring (w : Live) : List (String × Horizon Mark) → Live
  | [] => w
  | (symbol, row) :: rows =>
    let w := match row.closesAt with
      | some closesAt => w.schedule symbol closesAt row.tag.owner
      | none => w
    w.go (.rearming symbol row rows)

def rearming (w : Live) (symbol : String) (row : Horizon Mark)
    (rows : List (String × Horizon Mark)) : Live :=
  let w := if bounded row.maxLoss row.takeProfit then
      w.armStop symbol row.maxLoss row.takeProfit row.tag.owner else w
  w.go (.restoring rows)

/-- A new process reads the rows of some symbols and has nothing else in memory. -/
def restart (w : Live) (symbols : List String) : Live :=
  let rows := w.accounts.flatMap fun account => symbols.filterMap fun symbol =>
    (w.exits.rows account symbol).map fun row => (symbol, row)
  { w with
    exits := { (Exits.empty : Exits Mark) with rows := w.exits.rows }
    alarms := []
    tasks := if w.keepsRows then [.restoring rows] else [] }

end Live

/-! ## Steps -/

/-- What a task meets outside the service: whether what it asks for is granted, and, for an
order the venue takes, the order and the position it leaves. -/
structure Answer where
  granted : Bool
  placed : Order
  after : Option Position

/-- Take a task's next step. -/
def Live.run (w : Live) (a : Answer) : Task → Live
  | .scheduling req owner => w.scheduling req owner
  | .bounding req closesAt owner => w.bounding req closesAt owner
  | .saving symbol row => if a.granted then w.saveHorizon symbol row else w
  | .firing symbol t => w.firing symbol t
  | .watching symbol st => w.watching symbol st a.granted
  | .leaving symbol st => w.leaving symbol st
  | .judging symbol st owner pos => w.judging symbol st owner pos
  | .canceling c => w.canceling c
  | .disarming c => w.disarming c
  | .erasing c => w.erasing c a.granted
  | .finding c => w.finding c a.granted
  | .placing c owner pos => w.placing c owner pos a.granted a.placed a.after
  | .journaling symbol owner => w.journaling symbol owner
  | .inheriting req owner => w.inheriting req owner
  | .extending req maxLoss takeProfit owner => w.extending req maxLoss takeProfit owner
  | .postponing symbol closesAt maxLoss takeProfit owner =>
    w.postponing symbol closesAt maxLoss takeProfit owner
  | .rebounding symbol closesAt maxLoss takeProfit owner =>
    w.rebounding symbol closesAt maxLoss takeProfit owner
  | .deleting symbol => if a.granted then w.deleteHorizon symbol else w
  | .reporting seen => w.reporting seen
  | .showing seen => w.showing seen
  | .sampling seen => w.sampling seen
  | .restoring rows => w.restoring rows
  | .rearming symbol row rows => w.rearming symbol row rows

/-- An order that may only close begins no position. -/
def Live.answers (w : Live) (a : Answer) : Task → Bool
  | .placing c _ _ => !(w.markets c.symbol).begins false a.after
  | _ => true

/-- What happens next. -/
inductive LiveAction
  /-- Time passes. -/
  | passed (now : Time)
  /-- The venue changes a market on its own: a liquidation, a late fill, a new mark. -/
  | moved (symbol : String) (after : Option Position)
  /-- `Open`, up to the venue taking its order. -/
  | opened (req : OpenRequest) (placed : Order) (after : Option Position)
  /-- `Close` is called. -/
  | closed (symbol : String)
  /-- `Amend`, up to its look at the positions. -/
  | amended (req : AmendRequest)
  /-- `State`, up to its look at the positions. -/
  | read (symbols : List String)
  /-- A runtime timer calls back. -/
  | rang (symbol : String) (t : Timer Mark)
  /-- A task takes its next step. -/
  | went (i : ℕ) (a : Answer)
  /-- The process starts over. -/
  | restarted (symbols : List String)

/-- The state after an action, when the action is possible. -/
def Live.next (w : Live) : LiveAction → Option Live
  | .passed now => if w.now ≤ now then some { w with now } else none
  | .moved symbol after => some (w.settle symbol false after)
  | .opened req placed after => do
    let req ← req.check.toOption
    if placed.status = .failed then none else some (w.opened req placed after)
  | .closed symbol =>
    if symbolOf symbol = "" then none
    else some (w.go (.canceling ⟨symbolOf symbol, .manual, none, 1⟩))
  | .amended req => do
    let req ← req.check.toOption
    let _ ← (w.markets req.symbol).position
    some (w.go (.inheriting req (w.number req.symbol)))
  | .read symbols =>
    some (w.go (.reporting (symbols.filterMap fun symbol =>
      (w.markets symbol).position.map fun p => ⟨symbol, w.number symbol, p⟩)))
  | .rang symbol t =>
    if (symbol, t) ∈ w.alarms ∧ t.closesAt ≤ w.now then
      some ({ w with alarms := w.alarms.erase (symbol, t) }.go (.firing symbol t))
    else none
  | .went i a => do
    let k ← w.tasks[i]?
    if w.answers a k then some ({ w with tasks := w.tasks.eraseIdx i }.run a k) else none
  | .restarted symbols => some (w.restart symbols)

end SuperAgent.Platform
