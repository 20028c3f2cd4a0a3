import SuperAgent.Core.Checked
import SuperAgent.Core.Clock
import SuperAgent.Core.Text
import SuperAgent.Venue.Order

/-!
# The policy engine

Whether a trading action is allowed: the limits of an account, the little
history they are judged against, and the decision with its reason. Every
method reads the clock once, as `now`.
-/

namespace SuperAgent.Policy

open Fixed (D)

/-- Why an action was refused. -/
inductive Reason
  | killSwitch
  | symbolNotAllowed
  | notionalTooLarge
  | notionalTooSmall
  | leverageTooHigh
  | dailyLossReached
  | cooldown
  | tooManyPositions
  | exposureTooLarge
  | malformed
  deriving DecidableEq

/-- A refusal, with the numbers behind it. -/
structure Denial where
  reason : Reason
  message : String
  limit : D := 0
  actual : D := 0
  /-- Set when the refusal is temporary. -/
  retryAfter : Duration := 0
  deriving DecidableEq

/-- The rules for one account. -/
structure Limits where
  allowedSymbols : List String
  maxNotional : D
  minNotional : D
  maxLeverage : D
  /-- Caps the sum of open position notionals, when positive. -/
  maxTotalExposure : D
  maxOpenPositions : Int
  dailyLoss : D
  /-- The minimum gap between two opening orders. -/
  cooldown : Duration
  /-- The account whose state these limits are judged against; empty means the account's own. -/
  group : String

/-- Whether the limits are coherent, with the first complaint when they are not. -/
def Limits.validate (l : Limits) : Except String Unit := do
  revertIf (l.allowedSymbols = []) "policy: limits allow no symbols"
  revertIf (¬ 0 < l.maxNotional) "policy: MaxNotional must be positive"
  revertIf (l.minNotional < 0) "policy: MinNotional must not be negative"
  revertIf (l.maxNotional < l.minNotional)
    ("policy: MinNotional " ++ Fixed.string l.minNotional ++ " exceeds MaxNotional " ++
      Fixed.string l.maxNotional)
  revertIf (¬ 0 < l.maxLeverage) "policy: MaxLeverage must be positive"
  revertIf (l.maxOpenPositions ≤ 0) "policy: MaxOpenPositions must be positive"
  revertIf (¬ 0 < l.dailyLoss) "policy: DailyLoss must be positive"
  revertIf (l.cooldown < 0) "policy: Cooldown must not be negative"

/-- One action to authorize. -/
structure Request where
  account : String
  symbol : String
  /-- An order that only closes exposure. -/
  reduce : Bool
  notional : D
  leverage : D

/-- The request an order makes. -/
def fromOrder (account : String) (o : Venue.OrderRequest) : Request :=
  { account, symbol := o.symbol, reduce := o.reduce, notional := o.notional,
    leverage := o.leverage }

/-- The history the limits need. -/
structure AccountState where
  /-- When the last opening order was recorded, if any was. -/
  lastOpen : Option Time
  dayStart : Time
  /-- The day's net result with its sign flipped. -/
  realizedLoss : D
  openPositions : Int
  exposure : D

/-- The state of an account nothing is known of. -/
def AccountState.fresh (now : Time) : AccountState where
  lastOpen := none
  dayStart := now.startOfDay
  realizedLoss := 0
  openPositions := 0
  exposure := 0

/-- What the day is down, never negative. -/
def AccountState.dailyLoss (st : AccountState) : D :=
  if st.realizedLoss < 0 then 0 else st.realizedLoss

/-- The day is down by its net loss at least. -/
theorem AccountState.realizedLoss_le (st : AccountState) :
    st.realizedLoss.toInt ≤ st.dailyLoss.toInt := by
  unfold dailyLoss
  split
  · next hneg => exact Int64.le_iff_toInt_le.mp (Int64.le_of_lt hneg)
  · exact le_refl _

/-- The loss starts over when the calendar day turns. -/
def AccountState.rollDay (st : AccountState) (now : Time) : AccountState :=
  if st.dayStart < now.startOfDay then { st with dayStart := now.startOfDay, realizedLoss := 0 }
  else st

/-- How long until the day the state belongs to is over. -/
def AccountState.untilTomorrow (st : AccountState) (now : Time) : Duration :=
  (st.dayStart.add Duration.day).sub now

/-- Whether a symbol is one of the allowed ones. -/
def symbolAllowed (allowed : List String) (symbol : String) : Bool :=
  allowed.any fun s => equalFold s symbol

/-- The checks of an opening order that look at the order alone. -/
def Limits.denies (limits : Limits) (req : Request) : Option Denial :=
  if ¬ symbolAllowed limits.allowedSymbols req.symbol then
    some { reason := .symbolNotAllowed, message := req.symbol ++ " is not in the allowed markets" }
  else if ¬ 0 < req.notional then
    some { reason := .malformed, message := "notional must be positive" }
  else if req.notional < limits.minNotional then
    some { reason := .notionalTooSmall,
           message := "minimum position is " ++ Fixed.string limits.minNotional,
           limit := limits.minNotional, actual := req.notional }
  else if limits.maxNotional < req.notional then
    some { reason := .notionalTooLarge,
           message := "maximum position is " ++ Fixed.string limits.maxNotional,
           limit := limits.maxNotional, actual := req.notional }
  else if limits.maxLeverage < req.leverage then
    some { reason := .leverageTooHigh,
           message := "maximum leverage is " ++ Fixed.string limits.maxLeverage,
           limit := limits.maxLeverage, actual := req.leverage }
  else none

/-- The refusal of a second opening too soon after the last one. -/
def AccountState.cooling (st : AccountState) (now : Time) (cooldown : Duration) : Option Denial :=
  match st.lastOpen with
  | none => none
  | some last =>
    let elapsed := now.sub last
    if 0 < cooldown ∧ elapsed < cooldown then
      let wait := Duration.string (cooldown - elapsed).roundSeconds
      some { reason := .cooldown, message := "wait " ++ wait ++ " before opening again",
             retryAfter := cooldown - elapsed }
    else none

/-- The checks of an opening order that look at the account's history. -/
def AccountState.denies (st : AccountState) (now : Time) (limits : Limits) (notional : D) :
    Option Denial :=
  if limits.dailyLoss ≤ st.dailyLoss then
    some { reason := .dailyLossReached,
           message := "daily loss limit of " ++ Fixed.string limits.dailyLoss ++
             " reached; opening resumes tomorrow",
           limit := limits.dailyLoss, actual := st.dailyLoss,
           retryAfter := st.untilTomorrow now }
  else if limits.maxOpenPositions ≤ st.openPositions then
    some { reason := .tooManyPositions,
           message := "at most " ++ toString limits.maxOpenPositions ++
             " positions may be open at once",
           limit := Fixed.fromInt (Int64.ofInt limits.maxOpenPositions),
           actual := Fixed.fromInt (Int64.ofInt st.openPositions) }
  else if 0 < limits.maxTotalExposure ∧ limits.maxTotalExposure < st.exposure + notional then
    some { reason := .exposureTooLarge,
           message := "total exposure would be " ++ Fixed.string (st.exposure + notional) ++
             ", limit is " ++ Fixed.string limits.maxTotalExposure,
           limit := limits.maxTotalExposure, actual := st.exposure + notional }
  else st.cooling now limits.cooldown

/-- What is recorded of an account's openings, whatever the day. -/
structure Book where
  lastOpen : Option Time
  openPositions : Int
  exposure : D
  deriving DecidableEq

/-- Nothing opened yet. -/
def Book.flat : Book := ⟨none, 0, 0⟩

/-- The openings an account's state records. -/
def AccountState.book (st : AccountState) : Book := ⟨st.lastOpen, st.openPositions, st.exposure⟩

/-- The day turning leaves the openings alone. -/
@[simp] theorem AccountState.rollDay_book {st : AccountState} {now : Time} :
    (st.rollDay now).book = st.book := by
  unfold rollDay
  split <;> rfl

/-- The cooldown has passed when it denies nothing. -/
theorem AccountState.cooling_eq_none {st : AccountState} {now : Time} {cooldown : Duration} :
    st.cooling now cooldown = none ↔
      ∀ last, st.lastOpen = some last → 0 < cooldown → cooldown ≤ now.sub last := by
  unfold cooling
  split
  · next hlast => simp [hlast]
  · next last hlast =>
    rw [hlast]
    constructor
    · rintro h _ ⟨⟩ hpos
      by_contra hlt
      rw [if_pos ⟨hpos, Int64.not_le.mp hlt⟩] at h
      cases h
    · intro h
      refine if_neg fun ⟨hpos, hlt⟩ => ?_
      exact Int64.not_le.mpr hlt (h last rfl hpos)

/-- What an opening order must meet for an account's history not to refuse it. -/
theorem AccountState.denies_eq_none {st : AccountState} {now : Time} {limits : Limits}
    {notional : D} :
    st.denies now limits notional = none ↔
      st.dailyLoss < limits.dailyLoss ∧ st.openPositions < limits.maxOpenPositions ∧
      (0 < limits.maxTotalExposure → st.exposure + notional ≤ limits.maxTotalExposure) ∧
      st.cooling now limits.cooldown = none := by
  unfold denies
  split
  · next h => exact iff_of_false nofun fun hn => Int64.not_le.mpr hn.1 h
  split
  · next h => exact iff_of_false nofun fun hn => by omega
  split
  · next h => exact iff_of_false nofun fun hn => Int64.not_le.mpr h.2 (hn.2.2.1 h.1)
  · next hloss hcount hexposure =>
    refine ⟨fun h => ⟨Int64.not_le.mp hloss, by omega, fun hpos => ?_, h⟩, fun h => h.2.2.2⟩
    exact Int64.not_lt.mp fun hlt => hexposure ⟨hpos, hlt⟩

/-- The limits and the state of every account. -/
structure Engine where
  killSwitch : Bool
  killReason : String
  limits : String → Option Limits
  state : String → Option AccountState

namespace Engine

/-- An engine with no accounts configured. -/
def new : Engine where
  killSwitch := false
  killReason := ""
  limits := fun _ => none
  state := fun _ => none

/-- Install limits for an account. -/
def setLimits (e : Engine) (account : String) (l : Limits) : Except String Engine := do
  revertIf (account = "") "policy: account is required"
  l.validate
  return { e with limits := Function.update e.limits account (some l) }

/-- Stop all opening. -/
def kill (e : Engine) (reason : String) : Engine :=
  { e with killSwitch := true, killReason := reason }

/-- Clear the kill switch. -/
def revive (e : Engine) : Engine := { e with killSwitch := false, killReason := "" }

/-- What a refusal by the kill switch says. -/
def killMessage (e : Engine) : String :=
  if e.killReason = "" then "trading is halted" else e.killReason

/-- Where an account's state lives. -/
def stateKey (e : Engine) (account : String) : String :=
  match e.limits account with
  | some l => if l.group = "" then account else l.group
  | none => account

/-- An account's state with the day rolled over, fresh where there was none. -/
def stateOf (e : Engine) (now : Time) (account : String) : AccountState :=
  ((e.state (e.stateKey account)).getD (.fresh now)).rollDay now

/-- Keep an account's state. -/
def putState (e : Engine) (account : String) (st : AccountState) : Engine :=
  { e with state := Function.update e.state (e.stateKey account) (some st) }

/-- Decide whether the request may proceed; no denial means yes. -/
def authorize (e : Engine) (now : Time) (req : Request) : Engine × Option Denial :=
  if req.account = "" ∨ req.symbol = "" then
    (e, some { reason := .malformed, message := "account and symbol are required" })
  -- closing is always permitted: every check below is about taking on risk
  else if req.reduce then (e, none)
  else if e.killSwitch then (e, some { reason := .killSwitch, message := e.killMessage })
  else match e.limits req.account with
    | none =>
      (e, some { reason := .malformed,
                 message := "no limits configured for account " ++ req.account })
    | some limits =>
      match limits.denies req with
      | some denial => (e, some denial)
      | none =>
        let st := e.stateOf now req.account
        (e.putState req.account st, st.denies now limits req.notional)

/-- Note that an opening order was placed. -/
def recordOpen (e : Engine) (now : Time) (account : String) (notional : D) : Engine :=
  let st := e.stateOf now account
  e.putState account { st with
    lastOpen := some now
    openPositions := st.openPositions + 1
    exposure := st.exposure + notional }

/-- Note a position closing with its realized profit or loss. -/
def recordClose (e : Engine) (now : Time) (account : String) (notional pnl : D) : Engine :=
  let st := e.stateOf now account
  let open' := if 0 < st.openPositions then st.openPositions - 1 else st.openPositions
  let left := st.exposure - notional
  e.putState account { st with
    openPositions := open'
    -- flat means flat: lot rounding must not add up to an exposure nobody has
    exposure := if left < 0 ∨ open' = 0 then 0 else left
    realizedLoss := st.realizedLoss - pnl }

/-- The notional of the positions, added up; a product that does not fit panics. -/
def exposureOf (positions : List Venue.Position) : Option D :=
  positions.foldlM (fun exposure p => (Fixed.mul p.entryPrice p.size).map (exposure + ·)) 0

/-- Replace the engine's view of what is open with the venue's. -/
def reconcile (e : Engine) (now : Time) (account : String) (positions : List Venue.Position) :
    Option Engine := do
  let exposure ← exposureOf positions
  let st := e.stateOf now account
  return e.putState account { st with openPositions := positions.length, exposure := exposure }

/-- The state behind the limits, as the API reports it. -/
structure Snapshot where
  openPositions : Int
  exposure : D
  dailyLoss : D
  lastOpen : Option Time

/-- Report the current state of an account. -/
def snapshot (e : Engine) (now : Time) (account : String) : Engine × Snapshot :=
  let st := e.stateOf now account
  (e.putState account st, ⟨st.openPositions, st.exposure, st.dailyLoss, st.lastOpen⟩)

/-- The openings recorded for an account. -/
def book (e : Engine) (account : String) : Book :=
  ((e.state (e.stateKey account)).map AccountState.book).getD .flat

/-! ## What each method leaves -/

variable {e : Engine} {now : Time} {account : String} {st : AccountState}

@[simp] theorem putState_limits : (e.putState account st).limits = e.limits := rfl

/-- Keeping a state keeps its openings. -/
@[simp] theorem book_putState : (e.putState account st).book account = st.book := by
  have hkey : (e.putState account st).stateKey account = e.stateKey account := rfl
  rw [book, hkey]
  simp only [putState, Function.update_self, Option.map_some, Option.getD_some]

/-- The state that is read has the recorded openings. -/
@[simp] theorem stateOf_book : (e.stateOf now account).book = e.book account := by
  unfold stateOf book
  rw [AccountState.rollDay_book]
  cases e.state (e.stateKey account) <;> rfl

/-- The openings a snapshot reports. -/
theorem snapshot_book : (⟨(e.snapshot now account).2.lastOpen,
    (e.snapshot now account).2.openPositions, (e.snapshot now account).2.exposure⟩ : Book) =
      e.book account := stateOf_book

/-- The group an account's limits put it in. -/
def group (e : Engine) (account : String) : Option String :=
  (e.limits account).map Limits.group

/-- Where an account's state lives is decided by its group. -/
theorem stateKey_eq_of_group {e' : Engine} (h : e'.group account = e.group account) :
    e'.stateKey account = e.stateKey account := by
  unfold stateKey group at *
  cases hl : e.limits account with
  | none =>
    rw [hl, Option.map_none, Option.map_eq_none_iff] at h
    rw [h]
  | some l =>
    rw [hl, Option.map_some, Option.map_eq_some_iff] at h
    obtain ⟨l', hl', hgroup⟩ := h
    simp only [hl', hgroup]

/-- Installing limits of the same group keeps the openings. -/
theorem setLimits_frame {e' : Engine} {l : Limits} (h : e.setLimits account l = .ok e')
    (hgroup : some l.group = e.group account) :
    e'.group account = e.group account ∧ e'.book account = e.book account := by
  simp only [setLimits, bind_eq_ok] at h
  obtain ⟨_, _, _, _, h⟩ := h
  have he' : e' = { e with limits := Function.update e.limits account (some l) } :=
    (Except.ok.inj h).symm
  have hsame : e'.group account = e.group account := by
    rw [he', ← hgroup]
    simp only [group, Function.update_self, Option.map_some]
  have hstate : e'.state = e.state := by rw [he']
  refine ⟨hsame, ?_⟩
  rw [book, book, stateKey_eq_of_group hsame, hstate]

/-- A check changes neither limits nor openings. -/
theorem authorize_frame {e' : Engine} {req : Request} {denial : Option Denial}
    (h : e.authorize now req = (e', denial)) :
    e'.limits = e.limits ∧ e'.book req.account = e.book req.account := by
  have hkeep : (e.putState req.account (e.stateOf now req.account)).limits = e.limits ∧
      (e.putState req.account (e.stateOf now req.account)).book req.account =
        e.book req.account := by
    rw [book_putState, stateOf_book]
    exact ⟨rfl, rfl⟩
  obtain rfl : (e.authorize now req).1 = e' := congrArg Prod.fst h
  unfold authorize
  split
  · exact ⟨rfl, rfl⟩
  split
  · exact ⟨rfl, rfl⟩
  split
  · exact ⟨rfl, rfl⟩
  split
  · exact ⟨rfl, rfl⟩
  split
  · exact ⟨rfl, rfl⟩
  · exact hkeep

/-- An opening order that is granted passed every check. -/
theorem authorize_granted {req : Request} (hopen : req.reduce = false)
    (h : (e.authorize now req).2 = none) :
    ∃ limits, e.limits req.account = some limits ∧ limits.denies req = none ∧
      (e.stateOf now req.account).denies now limits req.notional = none := by
  unfold authorize at h
  split at h
  · cases h
  rw [hopen, if_neg Bool.false_ne_true] at h
  split at h
  · cases h
  split at h
  · cases h
  next limits hlimits =>
    split at h
    · cases h
    next hdenies => exact ⟨limits, hlimits, hdenies, h⟩

/-- Nothing is opened while the kill switch is on. -/
theorem killSwitch_of_granted {req : Request} (hopen : req.reduce = false)
    (h : (e.authorize now req).2 = none) : e.killSwitch = false := by
  unfold authorize at h
  split at h
  · cases h
  rw [hopen, if_neg Bool.false_ne_true] at h
  split at h
  · cases h
  · next hoff => exact Bool.eq_false_iff.mpr hoff

@[simp] theorem recordOpen_limits {notional : D} :
    (e.recordOpen now account notional).limits = e.limits := rfl

/-- Recording an open counts one position more and its notional, now. -/
@[simp] theorem recordOpen_book {notional : D} :
    (e.recordOpen now account notional).book account =
      ⟨some now, (e.book account).openPositions + 1, (e.book account).exposure + notional⟩ := by
  rw [recordOpen, book_putState, ← stateOf_book]
  rfl

@[simp] theorem recordClose_limits {notional pnl : D} :
    (e.recordClose now account notional pnl).limits = e.limits := rfl

/-- Recording a close takes one position and its notional off again. -/
theorem recordClose_book {notional pnl : D} :
    (e.recordClose now account notional pnl).book account =
      let b := e.book account
      let left := if 0 < b.openPositions then b.openPositions - 1 else b.openPositions
      ⟨b.lastOpen, left,
        if b.exposure - notional < 0 ∨ left = 0 then 0 else b.exposure - notional⟩ := by
  rw [recordClose, book_putState, ← stateOf_book]
  rfl

end Engine

end SuperAgent.Policy
