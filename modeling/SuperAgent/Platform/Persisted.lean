import SuperAgent.Platform.Live

/-!
# Exits across restarts

The calls of a service and the firings of its exits one after the other, with
restarts in between. An amendment writes a symbol's row from what is armed, an
opening order from its own request, and a new process arms what the rows say.
-/

namespace SuperAgent.Platform

open Fixed (D)
open Venue (Side Order Position)
open Policy (Engine)

variable {ι : Type}

/-! ## Amend -/

/-- What an amendment meets outside the service. -/
structure AmendAnswers where
  now : Time
  positions : Except VenueError (List Position)
  /-- Whether the row is written, or deleted. -/
  saves : Bool

/-- A position's exits as they stand after an amendment. -/
structure Amended where
  symbol : String
  closesAt : Option Time
  maxLoss : D
  takeProfit : D

/-- The deadline an amendment leaves: pushed out from where it stands, unless that is past. -/
def pushOut (now : Time) (pending : Option Time) (extend : Duration) :
    Except Error (Option Time) :=
  if 0 < extend then
    let start := (pending.filter fun t => now < t).getD now
    let closesAt := start.add extend
    let left := closesAt.sub now
    if maxHorizon < left then
      .error (.invalid ("the position would run " ++ Duration.string left.roundMinutes ++
        " from now; the most is 24h0m0s"))
    else .ok (some closesAt)
  else .ok pending

/-- Arm, disarm and persist what an amendment leaves. -/
def Service.rearm (s : Service ι) (symbol : String) (extend : Duration) (closesAt : Option Time)
    (maxLoss takeProfit : D) (tag : ι) (saves : Bool) : Service ι :=
  let x := match closesAt with
    | some t => if 0 < extend then s.exits.schedule symbol ⟨t, tag⟩ else s.exits
    | none => s.exits
  let x := if bounded maxLoss takeProfit then x.armStop symbol ⟨maxLoss, takeProfit, tag⟩
    else x.disarmStop symbol
  let x := if ¬ s.keepsRows ∨ ¬ saves then x
    else if closesAt.isSome ∨ bounded maxLoss takeProfit then
      x.saveHorizon s.account symbol ⟨closesAt, maxLoss, takeProfit, tag⟩
    else x.deleteHorizon s.account symbol
  { s with exits := x }

/-- Change a running position's exits. Nothing is placed at the venue. -/
def Service.amend (s : Service ι) (a : AmendAnswers) (tag : ι) (req : AmendRequest) :
    Service ι × Except Error Amended :=
  match req.check with
  | .error e => (s, .error e)
  | .ok req =>
    match a.positions with
    | .error e => (s, .error (.venue e))
    | .ok positions =>
      if ∀ p ∈ positions, p.symbol ≠ req.symbol then (s, .error (.noPosition req.symbol))
      else
        -- the exits as they stand, with the requested ones written over them
        let current := s.exits.stops req.symbol
        let maxLoss := req.maxLoss.getD ((current.map Stop.maxLoss).getD 0)
        let takeProfit := req.takeProfit.getD ((current.map Stop.takeProfit).getD 0)
        match pushOut a.now ((s.exits.timers req.symbol).map Timer.closesAt) req.extend with
        | .error e => (s, .error e)
        | .ok closesAt =>
          (s.rearm req.symbol req.extend closesAt maxLoss takeProfit tag a.saves,
            .ok ⟨req.symbol, closesAt, maxLoss, takeProfit⟩)

/-! ## Restore -/

/-- The accounts whose rows a service restores: its own and, for a wallet's own service, those
its strategies' keys traded under. -/
def restoredAccounts (account : String) : List String :=
  account :: if account = walletOf account then
    catalog.map fun info => legacyPolicyAccount (walletOf account) info.id else []

/-- Arm what one row says. -/
def Exits.restoreRow (x : Exits ι) (symbol : String) (row : Horizon ι) : Exits ι :=
  let x := match row.closesAt with
    | some t => x.schedule symbol ⟨t.micros, row.tag⟩
    | none => x
  if bounded row.maxLoss row.takeProfit then
    x.armStop symbol ⟨row.maxLoss, row.takeProfit, row.tag⟩ else x

/-- Arm what the rows say, one after the other. -/
def Exits.restore (x : Exits ι) (rows : List (String × Horizon ι)) : Exits ι :=
  rows.foldl (fun x r => x.restoreRow r.1 r.2) x

/-- The rows of some symbols, as the accounts are read one after the other. -/
def Service.storedRows (s : Service ι) (symbols : List String) : List (String × Horizon ι) :=
  (restoredAccounts s.account).flatMap fun account => symbols.filterMap fun symbol =>
    (s.exits.rows account symbol).map fun row => (symbol, row)

/-- A new process on the account, with an engine of its own: nothing is in memory but what the
rows say. -/
def Service.restart (s : Service ι) (engine : Engine) (symbols : List String) : Service ι :=
  let x : Exits ι := { (Exits.empty : Exits ι) with rows := s.exits.rows }
  { s with
    engine
    exits := if s.keepsRows then x.restore (s.storedRows symbols) else x
    ledger := []
    lastClose := none
    balance := none }

/-! ## What is armed and what is persisted -/

/-- What protects a position: its deadline, its stop and its target, zero where there is none. -/
structure Protection where
  closesAt : Option Time
  maxLoss : D
  takeProfit : D
  deriving DecidableEq

/-- What a row says, its deadline as the column keeps it. -/
def Horizon.protection (h : Horizon ι) : Protection :=
  ⟨h.closesAt.map Time.micros, h.maxLoss, h.takeProfit⟩

/-- What is armed for a symbol, if anything is. -/
def Exits.protection (x : Exits ι) (symbol : String) : Option Protection :=
  match x.timers symbol, x.stops symbol with
  | none, none => none
  | some t, none => some ⟨some t.closesAt.micros, 0, 0⟩
  | none, some st => some ⟨none, st.maxLoss, st.takeProfit⟩
  | some t, some st => some ⟨some t.closesAt.micros, st.maxLoss, st.takeProfit⟩

/-- The row of a symbol says what is armed for it, and there is none when nothing is. -/
def Exits.Described (x : Exits ι) (account symbol : String) : Prop :=
  (x.rows account symbol).map Horizon.protection = x.protection symbol

instance (x : Exits ι) (account symbol : String) : Decidable (x.Described account symbol) :=
  inferInstanceAs (Decidable (_ = _))

/-- The persisted exits are the armed ones. -/
def Service.Persisted (s : Service ι) : Prop := ∀ symbol, s.exits.Described s.account symbol

/-! ## Steps -/

/-- One call, one firing, or a new process. -/
inductive ExitAction
  | opened (a : OpenAnswers) (req : OpenRequest)
  | amended (a : AmendAnswers) (req : AmendRequest)
  | closed (a : CloseAnswers) (symbol : String)
  /-- The timer of a symbol fires. -/
  | fired (symbol : String) (answers : Nat → CloseAnswers)
  /-- The watcher of a symbol finds a bound reached. -/
  | hit (symbol : String) (reason : CloseReason) (answers : Nat → CloseAnswers)
  | restarted (engine : Engine) (symbols : List String)

/-- What an action makes of the service. A pending timer fires and an armed stop is hit; a new
process reads every row. -/
inductive Service.ExitStep (s : Service Unit) : ExitAction → Service Unit → Prop
  | opened {a req} : s.ExitStep (.opened a req) (s.openPosition a () req).1
  | amended {a req} : s.ExitStep (.amended a req) (s.amend a () req).1
  | closed {a symbol} : s.ExitStep (.closed a symbol) (s.closePosition a symbol).1
  | fired {symbol answers} (h : s.exits.timers symbol ≠ none) :
      s.ExitStep (.fired symbol answers) (s.fireTimer symbol answers)
  | hit {symbol reason answers} (h : s.exits.stops symbol ≠ none) :
      s.ExitStep (.hit symbol reason answers) (s.guardClose symbol reason answers)
  | restarted {engine symbols} (h : ∀ account ∈ restoredAccounts s.account, ∀ symbol,
      s.exits.rows account symbol ≠ none → symbol ∈ symbols) :
      s.ExitStep (.restarted engine symbols) (s.restart engine symbols)

/-- Every database write of an action succeeds. -/
def ExitAction.Writes : ExitAction → Prop
  | .opened a _ => a.saves = true
  | .amended a _ => a.saves = true
  | .closed a _ => a.deletes = true
  | .fired _ answers => ∀ n, (answers n).deletes = true
  | .hit _ _ answers => ∀ n, (answers n).deletes = true
  | .restarted _ _ => True

/-- Whether the amounts of an order the venue took fit; with a ledger, those of its terms too. -/
def Service.fits (s : Service ι) (req : OpenRequest) (placed : Order) : Bool :=
  match openedNotional req.notional placed with
  | none => false
  | some opened =>
    !s.keepsLedger || (termsOf opened req.leverage req.maxLoss req.takeProfit).isSome

/-- The checked request whose exits an opening order arms: it is admitted, the venue takes it,
and its amounts fit. -/
def Service.arms (s : Service ι) (a : OpenAnswers) (req : OpenRequest) : Option OpenRequest :=
  match (s.admitOpen a req).2 with
  | .error _ => none
  | .ok req =>
    match a.place (req.order a.clientID) with
    | .error _ => none
    | .ok placed => if placed.status ≠ .failed ∧ s.fits req placed then some req else none

/-- A request that sets an exit sets each kind of exit that is armed for its symbol. -/
def Service.Covers (s : Service ι) (req : OpenRequest) : Prop :=
  0 < req.horizon ∨ bounded req.maxLoss req.takeProfit →
    (s.exits.timers req.symbol ≠ none → 0 < req.horizon) ∧
      (s.exits.stops req.symbol ≠ none → bounded req.maxLoss req.takeProfit)

/-- Every write succeeds, and what an opening order arms covers what is armed. -/
def Service.Merges (s : Service Unit) (act : ExitAction) : Prop :=
  act.Writes ∧ match act with
    | .opened a req => ∀ r, s.arms a req = some r → s.Covers r
    | _ => True

/-! ## What one operation leaves -/

/-- A stop's bounds are shares, and one of them at least is set. -/
structure Stop.Proper (st : Stop ι) : Prop where
  maxLoss : 0 ≤ st.maxLoss
  takeProfit : 0 ≤ st.takeProfit
  bounded : bounded st.maxLoss st.takeProfit = true

/-- Bounds that are not watched are zero. -/
theorem eq_zero_of_not_bounded {maxLoss takeProfit : D} (hm : 0 ≤ maxLoss) (ht : 0 ≤ takeProfit)
    (hb : bounded maxLoss takeProfit = false) : maxLoss = 0 ∧ takeProfit = 0 := by
  simp only [Platform.bounded, Bool.or_eq_false_iff, decide_eq_false_iff_not] at hb
  exact ⟨Int64.le_antisymm (Int64.not_lt.mp hb.1) hm, Int64.le_antisymm (Int64.not_lt.mp hb.2) ht⟩

theorem bounded_zero : bounded 0 0 = false := by decide

/-- The bounds of a proper stop are not both zero. -/
theorem Stop.Proper.ne {st : Stop ι} (h : st.Proper) : ¬ (st.maxLoss = 0 ∧ st.takeProfit = 0) := by
  rintro ⟨hm, ht⟩
  have hb := h.bounded
  rw [hm, ht, bounded_zero] at hb
  cases hb

/-- Outside one account's symbol nothing is armed, disarmed or persisted. -/
structure Exits.SameOff (x x' : Exits ι) (account symbol : String) : Prop where
  timers : ∀ y, y ≠ symbol → x'.timers y = x.timers y
  stops : ∀ y, y ≠ symbol → x'.stops y = x.stops y
  rows : ∀ b y, b ≠ account ∨ y ≠ symbol → x'.rows b y = x.rows b y

namespace Exits.SameOff

variable {x x' x'' : Exits ι} {account symbol : String}

theorem refl : x.SameOff x account symbol := ⟨fun _ _ => rfl, fun _ _ => rfl, fun _ _ _ => rfl⟩

theorem trans (h : x.SameOff x' account symbol) (h' : x'.SameOff x'' account symbol) :
    x.SameOff x'' account symbol :=
  ⟨fun y hy => (h'.timers y hy).trans (h.timers y hy),
    fun y hy => (h'.stops y hy).trans (h.stops y hy),
    fun b y hne => (h'.rows b y hne).trans (h.rows b y hne)⟩

/-- One of two changes follows. -/
theorem thenElse {c : Prop} [Decidable c] {y y' : Exits ι} (h : x.SameOff x' account symbol)
    (hy : x'.SameOff y account symbol) (hy' : x'.SameOff y' account symbol) :
    x.SameOff (if c then y else y') account symbol := by
  split
  · exact h.trans hy
  · exact h.trans hy'

/-- A change may follow. -/
theorem thenIf {c : Prop} [Decidable c] (h : x.SameOff x' account symbol)
    (hy : x'.SameOff x'' account symbol) :
    x.SameOff (if c then x'' else x') account symbol := h.thenElse hy .refl

theorem schedule (t : Timer ι) : x.SameOff (x.schedule symbol t) account symbol :=
  ⟨fun _ hy => Function.update_of_ne hy _ _, fun _ _ => rfl, fun _ _ _ => rfl⟩

theorem cancel : x.SameOff (x.cancel symbol) account symbol :=
  ⟨fun _ hy => Function.update_of_ne hy _ _, fun _ _ => rfl, fun _ _ _ => rfl⟩

theorem armStop (st : Stop ι) : x.SameOff (x.armStop symbol st) account symbol :=
  ⟨fun _ _ => rfl, fun _ hy => Function.update_of_ne hy _ _, fun _ _ _ => rfl⟩

theorem disarmStop : x.SameOff (x.disarmStop symbol) account symbol :=
  ⟨fun _ _ => rfl, fun _ hy => Function.update_of_ne hy _ _, fun _ _ _ => rfl⟩

/-- One row is written or deleted. -/
theorem updated (row : Option (Horizon ι)) : x.SameOff { x with
    rows := Function.update x.rows account (Function.update (x.rows account) symbol row) }
    account symbol := by
  refine ⟨fun _ _ => rfl, fun _ _ => rfl, fun b y hne => ?_⟩
  by_cases hb : b = account
  · subst hb
    change Function.update x.rows b _ b y = _
    rw [Function.update_self, Function.update_of_ne (hne.resolve_left (not_not_intro rfl))]
  · exact congrFun (Function.update_of_ne hb _ _) y

theorem saveHorizon (row : Horizon ι) :
    x.SameOff (x.saveHorizon account symbol row) account symbol := updated _

theorem deleteHorizon : x.SameOff (x.deleteHorizon account symbol) account symbol := updated _

end Exits.SameOff

/-- What a service in a run satisfies: the rows describe what is armed, and no other account it
would restore has rows. -/
structure Service.Recorded (s : Service ι) : Prop where
  keepsRows : s.keepsRows = true
  persisted : s.Persisted
  stops : ∀ symbol st, s.exits.stops symbol = some st → st.Proper
  others : ∀ b ∈ restoredAccounts s.account, b ≠ s.account → ∀ symbol, s.exits.rows b symbol = none

/-- Nothing a row is written from moves. -/
structure Service.Unmoved (s s' : Service ι) : Prop where
  account : s'.account = s.account
  keepsRows : s'.keepsRows = s.keepsRows
  keepsLedger : s'.keepsLedger = s.keepsLedger
  exits : s'.exits = s.exits

section Recorded

variable {s s' s'' : Service ι} {symbol : String}

theorem Service.Unmoved.refl (s : Service ι) : s.Unmoved s := ⟨rfl, rfl, rfl, rfl⟩

theorem Service.Unmoved.trans (h : s.Unmoved s') (h' : s'.Unmoved s'') : s.Unmoved s'' :=
  ⟨h'.account.trans h.account, h'.keepsRows.trans h.keepsRows,
    h'.keepsLedger.trans h.keepsLedger, h'.exits.trans h.exits⟩

/-- A change at one symbol is judged at that symbol. -/
theorem Service.Recorded.change (h : s.Recorded) (haccount : s'.account = s.account)
    (hkeeps : s'.keepsRows = s.keepsRows) (hoff : s.exits.SameOff s'.exits s.account symbol)
    (hat : s'.exits.Described s.account symbol)
    (hproper : ∀ st, s'.exits.stops symbol = some st → st.Proper) : s'.Recorded where
  keepsRows := hkeeps.trans h.keepsRows
  persisted y := by
    rw [haccount]
    by_cases hy : y = symbol
    · exact hy ▸ hat
    · have hold := h.persisted y
      simp only [Exits.Described, Exits.protection] at hold ⊢
      rw [hoff.timers y hy, hoff.stops y hy, hoff.rows s.account y (.inr hy)]
      exact hold
  stops y st hst := by
    by_cases hy : y = symbol
    · exact hproper st (hy ▸ hst)
    · exact h.stops y st (by rwa [hoff.stops y hy] at hst)
  others b hb hne y := by
    rw [haccount] at hb hne
    rw [hoff.rows b y (.inl hne)]
    exact h.others b hb hne y

theorem Service.Recorded.unmoved (h : s.Recorded) (hsame : s.Unmoved s') : s'.Recorded where
  keepsRows := hsame.keepsRows.trans h.keepsRows
  persisted y := by
    rw [hsame.account, hsame.exits]
    exact h.persisted y
  stops := by
    rw [hsame.exits]
    exact h.stops
  others := by
    rw [hsame.account, hsame.exits]
    exact h.others

end Recorded

/-! ### Opening -/

section Open

variable {s : Service ι} {now : Time} {tag : ι} {req : OpenRequest} {a : OpenAnswers}

/-- What arming a request's exits leaves, field by field. -/
theorem Service.armExits_exits (hk : s.keepsRows = true) :
    (s.armExits now tag req true).exits.timers = (if 0 < req.horizon then
        Function.update s.exits.timers req.symbol (some ⟨now.add req.horizon, tag⟩)
      else s.exits.timers) ∧
    (s.armExits now tag req true).exits.stops = (if bounded req.maxLoss req.takeProfit then
        Function.update s.exits.stops req.symbol (some ⟨req.maxLoss, req.takeProfit, tag⟩)
      else s.exits.stops) ∧
    (s.armExits now tag req true).exits.rows =
      (if 0 < req.horizon ∨ bounded req.maxLoss req.takeProfit then
        Function.update s.exits.rows s.account (Function.update (s.exits.rows s.account) req.symbol
          (some ⟨if 0 < req.horizon then some (now.add req.horizon) else none,
            req.maxLoss, req.takeProfit, tag⟩))
      else s.exits.rows) := by
  have hbounded : bounded req.maxLoss req.takeProfit = true ↔
      0 < req.maxLoss ∨ 0 < req.takeProfit := by
    simp [bounded]
  by_cases hh : 0 < req.horizon <;> by_cases hb : 0 < req.maxLoss ∨ 0 < req.takeProfit <;>
    simp [Service.armExits, hbounded, hk, hh, hb, Exits.schedule, Exits.armStop, Exits.saveHorizon]

/-- Once a request's exits are armed, the row describes them exactly when the request covered
what was armed. -/
theorem Service.armExits_described_iff (h : s.Recorded) (hm : 0 ≤ req.maxLoss)
    (ht : 0 ≤ req.takeProfit) :
    (s.armExits now tag req true).exits.Described s.account req.symbol ↔ s.Covers req := by
  obtain ⟨htimers, hstops, hrows⟩ :
      (s.armExits now tag req true).exits.timers = _ ∧ _ ∧ _ := armExits_exits h.keepsRows
  have hold := h.persisted req.symbol
  unfold Exits.Described Exits.protection at hold ⊢
  rw [htimers, hstops, hrows]
  unfold Covers
  -- the request's own bounds are zero when it sets none, and an armed stop's never both are
  have hnone : bounded req.maxLoss req.takeProfit = false → req.maxLoss = 0 ∧ req.takeProfit = 0 :=
    eq_zero_of_not_bounded hm ht
  by_cases hh : 0 < req.horizon
  · by_cases hb : bounded req.maxLoss req.takeProfit = true
    · simp [hh, hb, Horizon.protection]
    · obtain ⟨hm0, ht0⟩ := hnone (Bool.eq_false_iff.mpr hb)
      cases hst : s.exits.stops req.symbol with
      | none => simp [hh, hm0, ht0, hst, bounded_zero, Horizon.protection]
      | some st =>
        have hne : 0 = st.maxLoss → ¬ 0 = st.takeProfit :=
          fun hm' ht' => (h.stops req.symbol st hst).ne ⟨hm'.symm, ht'.symm⟩
        simpa [hh, hm0, ht0, hst, bounded_zero, Horizon.protection] using hne
  · by_cases hb : bounded req.maxLoss req.takeProfit = true
    · cases htm : s.exits.timers req.symbol with
      | none => simp [hh, hb, htm, Horizon.protection]
      | some t => simp [hh, hb, htm, Horizon.protection]
    · simpa [hh, hb] using hold

/-- Arming a request's exits touches its symbol only. -/
theorem Service.armExits_sameOff {saves : Bool} :
    s.exits.SameOff (s.armExits now tag req saves).exits s.account req.symbol := by
  have htimer : s.exits.SameOff
      (match if 0 < req.horizon then some (now.add req.horizon) else none with
        | some t => s.exits.schedule req.symbol ⟨t, tag⟩
        | none => s.exits) s.account req.symbol := by
    split
    · exact .schedule _
    · exact .refl
  exact (htimer.thenIf (.armStop _)).thenIf (.saveHorizon _)

/-- Arming the exits of a checked request that covers what is armed keeps the rows true. -/
theorem Service.Recorded.armExits (h : s.Recorded) (hm : 0 ≤ req.maxLoss)
    (ht : 0 ≤ req.takeProfit) (hcovers : s.Covers req) :
    (s.armExits now tag req true).Recorded := by
  refine h.change rfl rfl armExits_sameOff
    ((armExits_described_iff h hm ht).mpr hcovers) fun st hst => ?_
  obtain ⟨-, hstops, -⟩ : _ ∧ (s.armExits now tag req true).exits.stops = _ ∧ _ :=
    armExits_exits h.keepsRows
  rw [hstops] at hst
  by_cases hb : bounded req.maxLoss req.takeProfit = true
  · rw [if_pos hb, Function.update_self, Option.some.injEq] at hst
    subst hst
    exact ⟨hm, ht, hb⟩
  · rw [if_neg hb] at hst
    exact h.stops _ st hst

/-- A checked request's bounds are shares. -/
theorem OpenRequest.check_bounds {r : OpenRequest} (h : req.check = .ok r) :
    0 ≤ r.maxLoss ∧ 0 ≤ r.takeProfit := by
  simp only [check, bind_eq_ok, revertIf_eq_ok] at h
  obtain ⟨_, _, _, _, _, _, _, hm, _, ht, _, _, _, _, _, _, _, _, hreq⟩ := h
  have hm' : r.maxLoss = req.maxLoss := by rw [← Except.ok.inj hreq]
  have ht' : r.takeProfit = req.takeProfit := by rw [← Except.ok.inj hreq]
  rw [hm', ht']
  exact ⟨Int64.not_lt.mp fun hlt => hm (.inl hlt), Int64.not_lt.mp ht⟩

theorem Service.refreshLimits_unmoved (balance : D) :
    s.Unmoved (s.refreshLimits now balance) := by
  unfold refreshLimits
  split <;> exact ⟨rfl, rfl, rfl, rfl⟩

theorem Service.refreshLimitsForOrder_unmoved (balance : Except VenueError D) :
    s.Unmoved (s.refreshLimitsForOrder now balance) := by
  unfold refreshLimitsForOrder
  split
  · exact .refl s
  · split
    · exact refreshLimits_unmoved _
    · exact refreshLimits_unmoved _
    · exact .refl s

/-- Asking the engine moves nothing. -/
theorem Service.admitOpen_unmoved : s.Unmoved (s.admitOpen a req).1 := by
  unfold admitOpen
  split
  · exact .refl s
  · obtain ⟨haccount, hkeeps, hledger, hexits⟩ : s.Unmoved (s.refreshLimitsForOrder a.before _) :=
      refreshLimitsForOrder_unmoved a.balance
    dsimp only
    split <;> exact ⟨haccount, hkeeps, hledger, hexits⟩

/-- What is admitted is the checked request. -/
theorem Service.admitOpen_checked {r : OpenRequest} (h : (s.admitOpen a req).2 = .ok r) :
    req.check = .ok r := by
  unfold admitOpen at h
  split at h
  · cases h
  · next hcheck =>
    dsimp only at h
    split at h
    · cases h
    · rw [hcheck, Except.ok.inj h]

/-- Amounts that do not fit panic before anything is armed. -/
theorem Service.settleOpen_unmoved {placed : Order} (h : s.fits req placed = false) :
    s.Unmoved (s.settleOpen a tag req placed).1 := by
  unfold fits at h
  unfold settleOpen
  cases hopened : openedNotional req.notional placed with
  | none => exact .refl s
  | some opened =>
    simp only [hopened, Bool.or_eq_false_iff, Bool.not_eq_false', Option.isSome_eq_false_iff,
      Option.isNone_iff_eq_none] at h
    dsimp only
    rw [if_pos h.1, h.2]
    exact ⟨rfl, rfl, rfl, rfl⟩

/-- An order whose amounts fit has its exits armed. -/
theorem Service.settleOpen_arms {placed : Order} (h : s.fits req placed = true) :
    ∃ s', s.Unmoved s' ∧ (s.settleOpen a tag req placed).1 = s'.armExits a.after tag req a.saves := by
  unfold fits at h
  unfold settleOpen
  cases hopened : openedNotional req.notional placed with
  | none =>
    rw [hopened] at h
    cases h
  | some opened =>
    simp only [hopened, Bool.or_eq_true, Bool.not_eq_true', Option.isSome_iff_exists] at h
    dsimp only
    split
    · next hk =>
      obtain ⟨terms, hterms⟩ := h.resolve_left (by rw [hk]; nofun)
      rw [hterms]
      refine ⟨_, ?_, rfl⟩
      exact ⟨rfl, rfl, rfl, rfl⟩
    · refine ⟨_, ?_, rfl⟩
      exact ⟨rfl, rfl, rfl, rfl⟩

/-- Whether amounts fit does not depend on what asking the engine changed. -/
theorem Service.Unmoved.fits {s' : Service ι} (h : s.Unmoved s') (placed : Order) :
    s'.fits req placed = s.fits req placed := by
  unfold Service.fits
  rw [h.keepsLedger]

/-- An opening order that arms nothing moves nothing. -/
theorem Service.openPosition_unmoved (h : s.arms a req = none) :
    s.Unmoved (s.openPosition a tag req).1 := by
  have hgate : s.Unmoved (s.admitOpen a req).1 := admitOpen_unmoved
  unfold arms at h
  cases hr : (s.admitOpen a req).2 with
  | error e => rwa [openPosition_denied hr]
  | ok r =>
    rw [hr] at h
    dsimp only at h
    rw [openPosition_admitted hr]
    cases hplace : a.place (r.order a.clientID) with
    | error e => exact hgate
    | ok placed =>
      rw [hplace] at h
      dsimp only at h ⊢
      split
      · exact hgate
      · next hf =>
        have hfits : s.fits r placed = false := by
          rw [← Bool.not_eq_true]
          exact fun hfits => absurd h (by rw [if_pos ⟨hf, hfits⟩]; nofun)
        exact hgate.trans (settleOpen_unmoved (hfits ▸ hgate.fits placed))

/-- Any other arms the exits of its checked request. -/
theorem Service.openPosition_arms {r : OpenRequest} (h : s.arms a req = some r) :
    req.check = .ok r ∧ ∃ s', s.Unmoved s' ∧
      (s.openPosition a tag req).1 = s'.armExits a.after tag r a.saves := by
  have hgate : s.Unmoved (s.admitOpen a req).1 := admitOpen_unmoved
  unfold arms at h
  cases hr : (s.admitOpen a req).2 with
  | error e =>
    rw [hr] at h
    cases h
  | ok r' =>
    rw [hr] at h
    dsimp only at h
    rw [openPosition_admitted hr]
    cases hplace : a.place (r'.order a.clientID) with
    | error e =>
      rw [hplace] at h
      cases h
    | ok placed =>
      rw [hplace] at h
      simp only [Option.ite_none_right_eq_some, Option.some.injEq] at h ⊢
      obtain ⟨⟨hf, hfits⟩, rfl⟩ := h
      rw [if_neg hf]
      obtain ⟨s', hsame, heq⟩ : ∃ s', (s.admitOpen a req).1.Unmoved s' ∧
          ((s.admitOpen a req).1.settleOpen a tag r' placed).1 =
            s'.armExits a.after tag r' a.saves :=
        settleOpen_arms ((hgate.fits placed).trans hfits)
      exact ⟨admitOpen_checked hr, s', hgate.trans hsame, heq⟩

/-- Arming a request's exits on a service that is as it was. -/
theorem Service.Unmoved.covers {s' : Service ι} (h : s.Unmoved s') :
    s'.Covers req ↔ s.Covers req := by
  unfold Service.Covers
  rw [h.exits]

/-- An opening order whose exits cover what is armed leaves the rows true. -/
theorem Service.Recorded.opened (h : s.Recorded) (hwrites : a.saves = true)
    (hcovers : ∀ r, s.arms a req = some r → s.Covers r) :
    (s.openPosition a tag req).1.Recorded := by
  cases harms : s.arms a req with
  | none => exact h.unmoved (openPosition_unmoved harms)
  | some r =>
    obtain ⟨hcheck, s', hsame, heq⟩ : req.check = .ok r ∧ ∃ s', s.Unmoved s' ∧
        (s.openPosition a tag req).1 = s'.armExits a.after tag r a.saves := openPosition_arms harms
    obtain ⟨hm, ht⟩ := OpenRequest.check_bounds hcheck
    rw [heq, hwrites]
    exact (h.unmoved hsame).armExits hm ht (hsame.covers.mpr (hcovers r harms))

/-- The rows are true after an opening order exactly when its exits cover what is armed. -/
theorem Service.Recorded.opened_iff (h : s.Recorded) (hwrites : a.saves = true) :
    (s.openPosition a tag req).1.Persisted ↔ ∀ r, s.arms a req = some r → s.Covers r := by
  constructor
  · intro hafter r harms
    obtain ⟨hcheck, s', hsame, heq⟩ : req.check = .ok r ∧ ∃ s', s.Unmoved s' ∧
        (s.openPosition a tag req).1 = s'.armExits a.after tag r a.saves := openPosition_arms harms
    obtain ⟨hm, ht⟩ := OpenRequest.check_bounds hcheck
    rw [heq, hwrites] at hafter
    have hat := (armExits_described_iff (h.unmoved hsame) hm ht).mp (hafter r.symbol)
    exact hsame.covers.mp hat
  · exact fun hcovers => (h.opened hwrites hcovers).persisted

end Open

/-! ### Amending -/

section Amend

variable {s : Service ι} {x : Exits ι} {symbol : String} {closesAt : Option Time}
  {maxLoss takeProfit : D} {tag : ι} {extend : Duration}

/-- What is armed, when the bounds are watched or zero. -/
theorem Exits.protection_eq (htimer : (x.timers symbol).map Timer.closesAt = closesAt)
    (hstop : x.stops symbol =
      if bounded maxLoss takeProfit then some ⟨maxLoss, takeProfit, tag⟩ else none)
    (hm : 0 ≤ maxLoss) (ht : 0 ≤ takeProfit) :
    x.protection symbol = if closesAt.isSome ∨ bounded maxLoss takeProfit then
      some ⟨closesAt.map Time.micros, maxLoss, takeProfit⟩ else none := by
  unfold protection
  subst htimer
  by_cases hb : bounded maxLoss takeProfit = true
  · rw [hstop, if_pos hb, if_pos (.inr hb)]
    cases x.timers symbol <;> rfl
  · obtain ⟨rfl, rfl⟩ := eq_zero_of_not_bounded hm ht (Bool.eq_false_iff.mpr hb)
    rw [hstop, if_neg hb]
    cases x.timers symbol <;> rfl

/-- A push gives a deadline, and without one the deadline stays. -/
theorem pushOut_spec {now : Time} {pending : Option Time}
    (h : pushOut now pending extend = .ok closesAt) :
    (0 < extend → closesAt.isSome) ∧ (¬ 0 < extend → closesAt = pending) := by
  unfold pushOut at h
  split at h
  · next hpos =>
    dsimp only at h
    split at h
    · cases h
    · rw [← Except.ok.inj h]
      exact ⟨fun _ => rfl, fun hn => absurd hpos hn⟩
  · next hpos => exact ⟨fun hn => absurd hn hpos, fun _ => (Except.ok.inj h).symm⟩

/-- What re-arming a symbol leaves there. -/
theorem Service.rearm_exits (maxLoss takeProfit : D) (tag : ι) (hk : s.keepsRows = true) (hpush : 0 < extend → closesAt.isSome)
    (hstay : ¬ 0 < extend → closesAt = (s.exits.timers symbol).map Timer.closesAt) :
    ((s.rearm symbol extend closesAt maxLoss takeProfit tag true).exits.timers symbol).map
        Timer.closesAt = closesAt ∧
    (s.rearm symbol extend closesAt maxLoss takeProfit tag true).exits.stops symbol =
      (if bounded maxLoss takeProfit then some ⟨maxLoss, takeProfit, tag⟩ else none) ∧
    (s.rearm symbol extend closesAt maxLoss takeProfit tag true).exits.rows s.account symbol =
      (if closesAt.isSome ∨ bounded maxLoss takeProfit then
        some ⟨closesAt, maxLoss, takeProfit, tag⟩ else none) := by
  by_cases hpos : 0 < extend
  · obtain ⟨t, rfl⟩ := Option.isSome_iff_exists.mp (hpush hpos)
    by_cases hb : bounded maxLoss takeProfit = true <;>
      simp [rearm, hk, hpos, hb, Exits.schedule, Exits.armStop, Exits.disarmStop,
        Exits.saveHorizon]
  · have hstays := hstay hpos
    cases closesAt with
    | none =>
      by_cases hb : bounded maxLoss takeProfit = true <;>
        simp [rearm, hk, hb, Exits.armStop, Exits.disarmStop, Exits.saveHorizon,
          Exits.deleteHorizon, ← hstays]
    | some t =>
      by_cases hb : bounded maxLoss takeProfit = true <;>
        simp [rearm, hk, hpos, hb, Exits.armStop, Exits.disarmStop, Exits.saveHorizon, ← hstays]

/-- Re-arming a symbol touches it only. -/
theorem Service.rearm_sameOff {saves : Bool} :
    s.exits.SameOff (s.rearm symbol extend closesAt maxLoss takeProfit tag saves).exits s.account
      symbol := by
  have htimer : s.exits.SameOff
      (match closesAt with
        | some t => if 0 < extend then s.exits.schedule symbol ⟨t, tag⟩ else s.exits
        | none => s.exits) s.account symbol := by
    split
    · exact .thenIf .refl (.schedule _)
    · exact .refl
  have hstop := htimer.thenElse (c := bounded maxLoss takeProfit)
    (.armStop ⟨maxLoss, takeProfit, tag⟩) .disarmStop
  unfold rearm
  dsimp only
  split
  · exact hstop
  · exact hstop.thenElse (.saveHorizon _) .deleteHorizon

theorem getD_nonneg {o : Option D} {d : D} (h : ∀ m, o = some m → 0 ≤ m) (hd : 0 ≤ d) :
    0 ≤ o.getD d := by
  cases o with
  | none => exact hd
  | some m => exact h m rfl

/-- A checked amendment's bounds are shares. -/
theorem AmendRequest.check_bounds {req r : AmendRequest} (h : req.check = .ok r) :
    (∀ m, r.maxLoss = some m → 0 ≤ m) ∧ ∀ t, r.takeProfit = some t → 0 ≤ t := by
  simp only [check, bind_eq_ok, revertIf_eq_ok] at h
  obtain ⟨_, _, _, hm, _, ht, _, _, hreq⟩ := h
  have hm' : r.maxLoss = req.maxLoss := by rw [← Except.ok.inj hreq]
  have ht' : r.takeProfit = req.takeProfit := by rw [← Except.ok.inj hreq]
  rw [hm', ht']
  constructor
  · intro m hreq
    rw [hreq, Option.any_some, decide_eq_true_eq] at hm
    exact Int64.not_lt.mp fun hlt => hm (.inl hlt)
  · intro t hreq
    rw [hreq, Option.any_some, decide_eq_true_eq] at ht
    exact Int64.not_lt.mp ht

/-- Re-arming a symbol with shares rewrites its row with what is armed. -/
theorem Service.Recorded.rearm (h : s.Recorded) (hm : 0 ≤ maxLoss) (ht : 0 ≤ takeProfit)
    (hpush : 0 < extend → closesAt.isSome)
    (hstay : ¬ 0 < extend → closesAt = (s.exits.timers symbol).map Timer.closesAt) :
    (s.rearm symbol extend closesAt maxLoss takeProfit tag true).Recorded := by
  obtain ⟨htimer, hstop, hrow⟩ := rearm_exits maxLoss takeProfit tag h.keepsRows hpush hstay
  refine h.change rfl rfl rearm_sameOff ?_ fun st hst => ?_
  · rw [Exits.Described, Exits.protection_eq htimer hstop hm ht, hrow]
    split <;> rfl
  · rw [hstop] at hst
    simp only [Option.ite_none_right_eq_some, Option.some.injEq] at hst
    obtain ⟨hb, rfl⟩ := hst
    exact ⟨hm, ht, hb⟩

/-- An amendment leaves the rows true, whatever was armed. -/
theorem Service.Recorded.amended {a : AmendAnswers} {req : AmendRequest} (h : s.Recorded)
    (hwrites : a.saves = true) : (s.amend a tag req).1.Recorded := by
  unfold Service.amend
  split
  · exact h
  · next r hcheck =>
    obtain ⟨hreqLoss, hreqProfit⟩ := AmendRequest.check_bounds hcheck
    split
    · exact h
    · split
      · exact h
      · dsimp only
        split
        · exact h
        · next closesAt hpush =>
          obtain ⟨hpos, hstay⟩ := pushOut_spec hpush
          rw [hwrites]
          -- what the request leaves unset is the armed stop's, a share as well
          refine h.rearm (getD_nonneg hreqLoss (getD_nonneg ?_ (by decide)))
            (getD_nonneg hreqProfit (getD_nonneg ?_ (by decide))) hpos hstay
          · intro m hcur
            obtain ⟨st, hst, rfl⟩ := Option.map_eq_some_iff.mp hcur
            exact (h.stops _ st hst).maxLoss
          · intro t hcur
            obtain ⟨st, hst, rfl⟩ := Option.map_eq_some_iff.mp hcur
            exact (h.stops _ st hst).takeProfit

end Amend

/-! ### Closing -/

/-- A symbol is cleared: it has neither timer nor stop nor row, and the rest is as it was. -/
structure Service.Cleared (s s' : Service ι) (symbol : String) : Prop where
  account : s'.account = s.account
  keepsRows : s'.keepsRows = s.keepsRows
  off : s.exits.SameOff s'.exits s.account symbol
  timer : s'.exits.timers symbol = none
  stop : s'.exits.stops symbol = none
  row : s'.exits.rows s.account symbol = none

section Close

variable {s s' s'' : Service ι} {symbol : String} {reason : CloseReason} {a : CloseAnswers}

theorem Service.Cleared.trans (h : s.Cleared s' symbol) (h' : s'.Cleared s'' symbol) :
    s.Cleared s'' symbol where
  account := h'.account.trans h.account
  keepsRows := h'.keepsRows.trans h.keepsRows
  off := h.off.trans (h.account ▸ h'.off)
  timer := h'.timer
  stop := h'.stop
  row := h.account ▸ h'.row

/-- A cleared symbol has nothing to describe. -/
theorem Service.Cleared.recorded (h : s.Cleared s' symbol) (hs : s.Recorded) : s'.Recorded := by
  refine hs.change h.account h.keepsRows h.off ?_ fun st hst => ?_
  · rw [Exits.Described, Exits.protection, h.timer, h.stop, h.row]
    rfl
  · rw [h.stop] at hst
    cases hst

/-- Disarming clears a symbol when its row is deleted. -/
theorem Service.disarm_cleared (hk : s.keepsRows = true) : s.Cleared (s.disarm symbol true) symbol := by
  have hx : (s.disarm symbol true).exits =
      ((s.exits.cancel symbol).disarmStop symbol).deleteHorizon s.account symbol := by
    simp only [disarm, hk, and_self, if_true]
  refine ⟨rfl, rfl, ?_, ?_, ?_, ?_⟩
  · rw [hx]
    exact (Exits.SameOff.cancel.trans .disarmStop).trans .deleteHorizon
  all_goals
    rw [hx]
    simp [Exits.deleteHorizon, Exits.disarmStop, Exits.cancel]

/-- Recording a close touches excursions only. -/
theorem Service.Cleared.settled {pos : Position} {placed : Order} (h : s.Cleared s' symbol) :
    s.Cleared (s'.settleClose a symbol reason pos placed).1 symbol := by
  unfold settleClose
  split
  · dsimp only
    split
    · exact ⟨h.account, h.keepsRows, ⟨h.off.timers, h.off.stops, h.off.rows⟩, h.timer, h.stop, h.row⟩
    · exact ⟨h.account, h.keepsRows, ⟨h.off.timers, h.off.stops, h.off.rows⟩, h.timer, h.stop, h.row⟩
  · exact h

/-- A close clears its symbol, whatever the venue answers. -/
theorem Service.close_cleared (hk : s.keepsRows = true) (hd : a.deletes = true) :
    s.Cleared (s.close a symbol reason).1 symbol := by
  have hgate : s.Cleared (s.admitClose a symbol).1 symbol := by
    have hdis : s.Cleared (s.disarm symbol a.deletes) symbol := hd ▸ disarm_cleared hk
    unfold admitClose
    dsimp only
    split
    · exact hdis
    · split
      · exact hdis
      · split <;>
          exact ⟨hdis.account, hdis.keepsRows, hdis.off, hdis.timer, hdis.stop, hdis.row⟩
  cases hr : (s.admitClose a symbol).2 with
  | error e => rwa [close_denied hr]
  | ok pos =>
    rw [close_admitted hr]
    split
    · exact hgate
    · split
      · exact hgate
      · exact hgate.settled

/-- One attempt or more clear the symbol. -/
theorem Service.closeAttempts_cleared (hk : s.keepsRows = true) (hd : a.deletes = true)
    (rest : List CloseAnswers) (hrest : ∀ b ∈ rest, b.deletes = true) :
    s.Cleared (s.closeAttempts symbol reason (a :: rest)) symbol := by
  induction rest generalizing s a with
  | nil =>
    have hclose : s.Cleared (s.close a symbol reason).1 symbol := close_cleared hk hd
    rw [closeAttempts]
    split <;> next h => rwa [h] at hclose
  | cons b rest ih =>
    have hclose : s.Cleared (s.close a symbol reason).1 symbol := close_cleared hk hd
    rw [closeAttempts]
    split
    · next h => rwa [h] at hclose
    · next h =>
      rw [h] at hclose
      have hb : b.deletes = true ∧ ∀ c ∈ rest, c.deletes = true := List.forall_mem_cons.mp hrest
      exact hclose.trans (ih (hclose.keepsRows.trans hk) hb.1 hb.2)
    · next h => rwa [h] at hclose

/-- A guard's close, with the attempts it has, clears the symbol. -/
theorem Service.guardClose_cleared {answers : Nat → CloseAnswers} (hk : s.keepsRows = true)
    (hd : ∀ n, (answers n).deletes = true) :
    s.Cleared (s.guardClose symbol reason answers) symbol := by
  refine closeAttempts_cleared hk (hd 0) _ fun b hb => ?_
  obtain ⟨n, -, rfl⟩ := List.mem_map.mp hb
  exact hd n

/-- A timer that fires clears its symbol. -/
theorem Service.fireTimer_cleared {answers : Nat → CloseAnswers} (hk : s.keepsRows = true)
    (hd : ∀ n, (answers n).deletes = true) : s.Cleared (s.fireTimer symbol answers) symbol := by
  have hclose : ({ s with exits := s.exits.cancel symbol } : Service ι).Cleared
      (s.fireTimer symbol answers) symbol := guardClose_cleared hk hd
  exact ⟨hclose.account, hclose.keepsRows, Exits.SameOff.cancel.trans hclose.off, hclose.timer,
    hclose.stop, hclose.row⟩

end Close

/-! ### Restarting -/

section Restart

variable {s : Service ι} {x : Exits ι} {symbol : String} {rows : List (String × Horizon ι)}
  {stored : String → Option (Horizon ι)}

/-- The timer a row has armed. -/
def Horizon.timer (row : Horizon ι) : Option (Timer ι) :=
  row.closesAt.map fun t => ⟨t.micros, row.tag⟩

/-- The stop a row has armed. -/
def Horizon.stop (row : Horizon ι) : Option (Stop ι) :=
  if bounded row.maxLoss row.takeProfit then some ⟨row.maxLoss, row.takeProfit, row.tag⟩ else none

theorem or_ite_self {β : Type*} (o : Option β) (c : Prop) [Decidable c] :
    o.or (if c then o else none) = o := by
  split <;> cases o <;> rfl

/-- A row arms its symbol alone, and what it does not set stays. -/
theorem Exits.restoreRow_exits (x : Exits ι) (symbol : String) (row : Horizon ι) (y : String) :
    (x.restoreRow symbol row).timers y =
        (if y = symbol then row.timer.or (x.timers y) else x.timers y) ∧
      (x.restoreRow symbol row).stops y =
        (if y = symbol then row.stop.or (x.stops y) else x.stops y) ∧
      (x.restoreRow symbol row).rows = x.rows := by
  unfold restoreRow Horizon.timer Horizon.stop
  cases row.closesAt <;> by_cases hb : bounded row.maxLoss row.takeProfit = true <;>
    by_cases hy : y = symbol <;> simp [hb, hy, schedule, armStop]

/-- Rows that agree with a table arm, for each symbol they list, what the table's row says. -/
theorem Exits.restore_exits (hrows : ∀ r ∈ rows, stored r.1 = some r.2)
    (htimers : ∀ y, x.timers y = none) (hstops : ∀ y, x.stops y = none) (y : String) :
    (x.restore rows).timers y =
        (if y ∈ rows.map Prod.fst then (stored y).bind Horizon.timer else none) ∧
      (x.restore rows).stops y =
        (if y ∈ rows.map Prod.fst then (stored y).bind Horizon.stop else none) ∧
      (x.restore rows).rows = x.rows := by
  induction rows using List.reverseRecOn with
  | nil => exact ⟨htimers y, hstops y, rfl⟩
  | append_singleton rows r ih =>
    have hr : stored r.1 = some r.2 := hrows r (List.mem_append_right _ (List.mem_singleton_self r))
    obtain ⟨ht, hs, hrow⟩ := ih fun q hq => hrows q (List.mem_append_left _ hq)
    have hlast : x.restore (rows ++ [r]) = (x.restore rows).restoreRow r.1 r.2 := by
      simp only [restore, List.foldl_append, List.foldl_cons, List.foldl_nil]
    obtain ⟨ht', hs', hrow'⟩ := (x.restore rows).restoreRow_exits r.1 r.2 y
    have hmem : y ∈ (rows ++ [r]).map Prod.fst ↔ y ∈ rows.map Prod.fst ∨ y = r.1 := by
      rw [List.map_append, List.mem_append, List.map_singleton, List.mem_singleton]
    rw [hlast, ht', hs', hrow', ht, hs]
    refine ⟨?_, ?_, hrow⟩
    all_goals
      by_cases hy : y = r.1
      · rw [if_pos hy, if_pos (hmem.mpr (.inr hy)), hy, hr, Option.bind_some]
        exact or_ite_self _ _
      · simp only [hy, hmem, or_false, if_false]

/-- What is protected is bounded by shares, and something protects it. -/
theorem Service.Recorded.protection_proper (h : s.Recorded) {q : Protection}
    (hq : s.exits.protection symbol = some q) : 0 ≤ q.maxLoss ∧ 0 ≤ q.takeProfit ∧
      (q.closesAt.isSome ∨ bounded q.maxLoss q.takeProfit) := by
  unfold Exits.protection at hq
  cases hst : s.exits.stops symbol with
  | none =>
    rw [hst] at hq
    cases htm : s.exits.timers symbol with
    | none =>
      rw [htm] at hq
      cases hq
    | some t =>
      rw [htm] at hq
      cases hq
      exact ⟨Int64.le_refl 0, Int64.le_refl 0, .inl rfl⟩
  | some st =>
    have hproper := h.stops symbol st hst
    rw [hst] at hq
    cases htm : s.exits.timers symbol with
    | none =>
      rw [htm] at hq
      cases hq
      exact ⟨hproper.maxLoss, hproper.takeProfit, .inr hproper.bounded⟩
    | some t =>
      rw [htm] at hq
      cases hq
      exact ⟨hproper.maxLoss, hproper.takeProfit, .inl rfl⟩

/-- A new process that reads every row arms what each of them says. -/
theorem Service.Recorded.restart_exits {symbols : List String} (h : s.Recorded) (engine : Engine)
    (hall : ∀ account ∈ restoredAccounts s.account, ∀ symbol,
      s.exits.rows account symbol ≠ none → symbol ∈ symbols) (y : String) :
    (s.restart engine symbols).exits.timers y =
        (s.exits.rows s.account y).bind Horizon.timer ∧
      (s.restart engine symbols).exits.stops y = (s.exits.rows s.account y).bind Horizon.stop ∧
      (s.restart engine symbols).exits.rows = s.exits.rows := by
  have hmem : ∀ r, r ∈ s.storedRows symbols → s.exits.rows s.account r.1 = some r.2 := by
    intro r hr
    obtain ⟨account, haccount, hr⟩ := List.mem_flatMap.mp hr
    obtain ⟨symbol, -, hr⟩ := List.mem_filterMap.mp hr
    obtain ⟨row, hrow, rfl⟩ := Option.map_eq_some_iff.mp hr
    by_cases hown : account = s.account
    · exact hown ▸ hrow
    · rw [h.others account haccount hown symbol] at hrow
      cases hrow
  have hlisted : y ∉ (s.storedRows symbols).map Prod.fst → s.exits.rows s.account y = none := by
    intro hnot
    rw [Option.eq_none_iff_forall_ne_some]
    intro row hrow
    have hy : y ∈ symbols := hall s.account List.mem_cons_self y (by rw [hrow]; nofun)
    exact hnot (List.mem_map.mpr ⟨(y, row), List.mem_flatMap.mpr ⟨s.account, List.mem_cons_self,
      List.mem_filterMap.mpr ⟨y, hy, by rw [hrow]; rfl⟩⟩, rfl⟩)
  have hx : (s.restart engine symbols).exits =
      ({ (Exits.empty : Exits ι) with rows := s.exits.rows } : Exits ι).restore
        (s.storedRows symbols) := if_pos h.keepsRows
  obtain ⟨ht, hs, hr⟩ := Exits.restore_exits
    (x := { (Exits.empty : Exits ι) with rows := s.exits.rows }) hmem (fun _ => rfl)
    (fun _ => rfl) y
  rw [hx, ht, hs, hr]
  by_cases hy : y ∈ (s.storedRows symbols).map Prod.fst
  · exact ⟨if_pos hy, if_pos hy, rfl⟩
  · rw [if_neg hy, if_neg hy, hlisted hy]
    exact ⟨rfl, rfl, rfl⟩

/-- A new process protects what the last one did. -/
theorem Service.Recorded.restart_protection {engine : Engine} {symbols : List String}
    (h : s.Recorded) (hall : ∀ account ∈ restoredAccounts s.account, ∀ symbol,
      s.exits.rows account symbol ≠ none → symbol ∈ symbols) (y : String) :
    (s.restart engine symbols).exits.protection y = s.exits.protection y := by
  obtain ⟨ht, hs, -⟩ := h.restart_exits engine hall y
  have hold : (s.exits.rows s.account y).map Horizon.protection = s.exits.protection y :=
    h.persisted y
  cases hrow : s.exits.rows s.account y with
  | none =>
    rw [hrow] at ht hs hold
    rw [← hold, Exits.protection, ht, hs]
    rfl
  | some row =>
    rw [hrow] at ht hs hold
    obtain ⟨hm, hp, hany⟩ := h.protection_proper hold.symm
    have htimer : ((s.restart engine symbols).exits.timers y).map Timer.closesAt =
        row.closesAt.map Time.micros := by
      rw [ht, Option.bind_some, Horizon.timer, Option.map_map]
      rfl
    have hset : (row.closesAt.map Time.micros).isSome ∨ bounded row.maxLoss row.takeProfit := hany
    have hwhole : (row.closesAt.map Time.micros).map Time.micros = row.closesAt.map Time.micros := by
      cases row.closesAt with
      | none => rfl
      | some t => exact congrArg some t.micros_micros
    rw [Exits.protection_eq htimer hs hm hp, ← hold, if_pos hset, hwhole]
    rfl

/-- The rows stay true across a restart. -/
theorem Service.Recorded.restart {engine : Engine} {symbols : List String} (h : s.Recorded)
    (hall : ∀ account ∈ restoredAccounts s.account, ∀ symbol,
      s.exits.rows account symbol ≠ none → symbol ∈ symbols) :
    (s.restart engine symbols).Recorded where
  keepsRows := h.keepsRows
  persisted y := by
    obtain ⟨-, -, hrows⟩ := h.restart_exits engine hall y
    change ((s.restart engine symbols).exits.rows s.account y).map _ = _
    rw [h.restart_protection hall y, hrows]
    exact h.persisted y
  stops y st hst := by
    obtain ⟨-, hs, -⟩ := h.restart_exits engine hall y
    have hold : (s.exits.rows s.account y).map Horizon.protection = s.exits.protection y :=
      h.persisted y
    rw [hs] at hst
    obtain ⟨row, hrow, hst⟩ := Option.bind_eq_some_iff.mp hst
    rw [hrow] at hold
    obtain ⟨hm, hp, -⟩ := h.protection_proper hold.symm
    simp only [Horizon.stop, Option.ite_none_right_eq_some, Option.some.injEq] at hst
    obtain ⟨hb, rfl⟩ := hst
    exact ⟨hm, hp, hb⟩
  others b hb hne y := by
    obtain ⟨-, -, hrows⟩ := h.restart_exits engine hall y
    rw [hrows]
    exact h.others b hb hne y

end Restart

/-! ## Runs -/

section Run

variable {s t : Service Unit} {act : ExitAction}

/-- A step whose writes succeed and whose opening order covers what is armed keeps the rows
true. -/
theorem Service.Recorded.step (h : s.Recorded) (hok : s.Merges act) (hs : s.ExitStep act t) :
    t.Recorded := by
  obtain ⟨hwrites, hcovers⟩ := hok
  cases hs with
  | opened => exact h.opened hwrites hcovers
  | amended => exact h.amended hwrites
  | @closed a raw =>
    unfold Service.closePosition
    split
    · exact h
    · exact (close_cleared h.keepsRows hwrites).recorded h
  | fired => exact (fireTimer_cleared h.keepsRows hwrites).recorded h
  | hit => exact (guardClose_cleared h.keepsRows hwrites).recorded h
  | restarted hall => exact h.restart hall

/-- Nothing is armed and none of the restored accounts has a row. -/
structure Service.Bare (s : Service Unit) : Prop where
  keepsRows : s.keepsRows = true
  timers : ∀ symbol, s.exits.timers symbol = none
  stops : ∀ symbol, s.exits.stops symbol = none
  rows : ∀ account ∈ restoredAccounts s.account, ∀ symbol, s.exits.rows account symbol = none

theorem Service.Bare.recorded (h : s.Bare) : s.Recorded where
  keepsRows := h.keepsRows
  persisted symbol := by
    rw [Exits.Described, Exits.protection, h.timers, h.stops, h.rows _ List.mem_cons_self]
    rfl
  stops symbol st hst := by
    rw [h.stops] at hst
    cases hst
  others b hb _ := h.rows b hb

end Run

/-! ## A second opening order -/

end SuperAgent.Platform
