import SuperAgent.Perpl.Convert
import SuperAgent.Platform.Closers
import SuperAgent.Platform.Persisted

/-!
# Leaving one market

Every way out of a position reads all the open positions of the account and looks
for its own among them. The adapter stops at the first one it cannot convert,
whatever its market, so that two accounts which agree on a market may still
differ in whether it can be left.
-/

namespace SuperAgent

/-- What is said of a text that is no integer. -/
def NumError.text : NumError → String
  | .errSyntax => "invalid syntax"
  | .errRange => "value out of range"

namespace Perpl

/-- What an error of a conversion says. -/
def ConvertError.text : ConvertError → String
  | .unknownMarket id => "venue: unknown market: market id " ++ toString id
  | .scaled e => e.text
  | .amount s e =>
    "perpl: amount " ++ s.quote ++ ": strconv.ParseInt: parsing " ++ s.quote ++ ": " ++ e.text

namespace Converts

variable {α β : Type}

/-- How a conversion fails, when it does: with an error, or with a panic. -/
def failure (x : Converts α) : Option (Option ConvertError) :=
  match x.run with
  | none => some none
  | some (.error e) => some (some e)
  | some (.ok _) => none

/-- What a conversion gives, when it succeeds. -/
def value? (x : Converts α) : Option α := x.run.bind Except.toOption

theorem value?_eq_some {x : Converts α} {r : α} : x.value? = some r ↔ x = some (.ok r) := by
  rcases x with _ | e | a
  · exact ⟨nofun, nofun⟩
  · exact ⟨nofun, nofun⟩
  · refine ⟨fun h => ?_, fun h => by rw [h]; rfl⟩
    obtain rfl : a = r := Option.some.inj h
    rfl

/-- A list is converted up to the first of its entries that fails. -/
theorem mapM_run (f : α → Converts β) (xs : List α) :
    (xs.mapM f).run =
      match xs.findSome? fun x => (f x).failure with
      | some e => e.map Except.error
      | none => some (.ok (xs.filterMap fun x => (f x).value?)) := by
  induction xs with
  | nil => rfl
  | cons x xs ih =>
    rw [List.mapM_cons, List.findSome?_cons, List.filterMap_cons]
    rcases hx : f x with _ | e | b
    · rfl
    · rfl
    · change (do let bs ← xs.mapM f; pure (b :: bs) : Converts (List β)).run = _
      have hrest : xs.mapM f = (xs.mapM f).run := rfl
      rw [hrest, ih]
      change _ = match xs.findSome? fun x => (f x).failure with
        | some e => e.map Except.error
        | none => some (.ok (b :: xs.filterMap fun x => (f x).value?))
      rcases xs.findSome? fun x => (f x).failure with _ | _ | e <;> rfl

end Converts

/-- A converted position goes by the name of its market. -/
theorem Context.toVenuePosition_symbol {c : Context} {p : WirePosition} {r : ReportedPosition}
    (h : c.toVenuePosition p = some (.ok r)) : ∃ m, c.byID p.market = some m ∧
      r.symbol = m.ticker := by
  unfold toVenuePosition at h
  dsimp only at h
  cases hb : c.byID p.market with
  | none =>
    rw [hb] at h
    cases h
  | some m =>
    rw [hb] at h
    obtain ⟨_, hm, h⟩ := Converts.bind_eq_ok.mp h
    obtain rfl := Except.ok.inj (Option.some.inj hm)
    -- size, entry price, collateral, fees, funding and leverage come before the mark
    obtain ⟨_, _, h⟩ := Converts.bind_eq_ok.mp h
    obtain ⟨_, _, h⟩ := Converts.bind_eq_ok.mp h
    obtain ⟨_, _, h⟩ := Converts.bind_eq_ok.mp h
    obtain ⟨_, _, h⟩ := Converts.bind_eq_ok.mp h
    obtain ⟨_, _, h⟩ := Converts.bind_eq_ok.mp h
    obtain ⟨_, _, h⟩ := Converts.bind_eq_ok.mp h
    refine ⟨m, rfl, ?_⟩
    cases hmark : c.markFor m with
    | none =>
      rw [hmark] at h
      cases h
      rfl
    | some mark =>
      rw [hmark] at h
      obtain ⟨_, _, h⟩ := Converts.bind_eq_ok.mp h
      cases h
      rfl

end Perpl

namespace Platform

open Fixed (D)
open Venue (OrderRequest Position)
open Perpl (WirePosition)

variable {ι : Type}

/-! ## What the adapter answers -/

/-- What the adapter reads the open positions from. -/
structure Adapter where
  /-- Whether it trades, on credentials of its own. -/
  trades : Bool
  context : Perpl.Context
  /-- The positions it keeps, in the order it ranges over them. -/
  raw : List WirePosition

namespace Adapter

/-- The open positions, or the error of the first that does not convert. A conversion may
panic. -/
def positions (v : Adapter) : Option (Except VenueError (List Position)) :=
  if v.trades then
    (v.context.positions v.raw).run.map fun
      | .ok ps => .ok (ps.map (·.toPosition))
      | .error e => .error (.other e.text)
  else some (.error .noCredentials)

/-- How the first open position that does not convert fails, when there is one: with the text of
an error, or with a panic. -/
def stuck (v : Adapter) : Option (Option String) :=
  ((v.raw.filter WirePosition.isOpen).findSome? fun p =>
    (v.context.toVenuePosition p).failure).map (Option.map Perpl.ConvertError.text)

/-- Whether a position is in a market that trades under a symbol. -/
def holds (v : Adapter) (symbol : String) (p : WirePosition) : Bool :=
  (v.context.byID p.market).any fun m => m.ticker = symbol

/-- Two states of the adapter that agree on everything about a symbol: its markets, their marks
and its positions. -/
structure Agrees (v v' : Adapter) (symbol : String) : Prop where
  trades : v.trades = v'.trades
  collateral : v.context.collateralDecimals = v'.context.collateralDecimals
  market : ∀ id m, m.ticker = symbol →
    (v.context.byID id = some m ↔ v'.context.byID id = some m)
  mark : ∀ id m, v.context.byID id = some m → m.ticker = symbol →
    v.context.marks m.id = v'.context.marks m.id
  raw : v.raw.filter (v.holds symbol) = v'.raw.filter (v'.holds symbol)

end Adapter

/-! ## The ways out of a position, over the adapter -/

/-- What a look of the watcher comes to. -/
inductive Look
  | goesOn
  | ended
  | hit (reason : CloseReason)
  | panicked

namespace Service

/-- The order a close places, if it gets that far. -/
def closes (s : Service ι) (a : CloseAnswers) (symbol : String) : Option OrderRequest :=
  match (s.admitClose a symbol).2 with
  | .error _ => none
  | .ok pos => some (closeOrder symbol pos a.clientID)

/-- The one close path: the service it leaves, how it ends and the order it placed. A read that
panics does so once everything armed for the symbol was disarmed. -/
def closeOver (s : Service ι) (a : CloseAnswers) (v : Adapter) (symbol : String)
    (reason : CloseReason) : Service ι × Outcome × Option OrderRequest :=
  match v.positions with
  | none => (s.disarm symbol a.deletes, .panicked, none)
  | some r =>
    let a := { a with positions := r }
    ((s.close a symbol reason).1, (s.close a symbol reason).2, s.closes a symbol)

/-- `Close`, on request. -/
def closePositionOver (s : Service ι) (a : CloseAnswers) (v : Adapter) (symbol : String) :
    Service ι × Outcome × Option OrderRequest :=
  if symbolOf symbol = "" then (s, .done (.error (.invalid "symbol is required")), none)
  else s.closeOver a v (symbolOf symbol) .manual

/-- `Amend`; none is a panic, which comes before anything is changed. -/
def amendOver (s : Service ι) (a : AmendAnswers) (v : Adapter) (tag : ι) (req : AmendRequest) :
    Service ι × Option (Except Error Amended) :=
  match req.check with
  | .error e => (s, some (.error e))
  | .ok _ =>
    match v.positions with
    | none => (s, none)
    | some r =>
      let amended := s.amend { a with positions := r } tag req
      (amended.1, some amended.2)

/-- Try to close until an attempt succeeds or finds no position, with what each attempt came
to. -/
def closeAttemptsOver (s : Service ι) (symbol : String) (reason : CloseReason) :
    List (CloseAnswers × Adapter) → Service ι × List (Outcome × Option OrderRequest)
  | [] => (s, [])
  | (a, v) :: rest =>
    match s.closeOver a v symbol reason with
    | (s, .done (.error (.noPosition x)), placed) =>
      (s, [(.done (.error (.noPosition x)), placed)])
    | (s, .done (.error e), placed) =>
      let more := s.closeAttemptsOver symbol reason rest
      (more.1, (.done (.error e), placed) :: more.2)
    | (s, outcome, placed) => (s, [(outcome, placed)])

/-- Where no read panics, the attempts are those of the one close path. -/
theorem closeAttemptsOver_eq (s : Service ι) (symbol : String) (reason : CloseReason)
    (xs : List (CloseAnswers × Adapter)) (h : ∀ x ∈ xs, x.2.positions ≠ none) :
    (s.closeAttemptsOver symbol reason xs).1 = s.closeAttempts symbol reason (xs.map fun x =>
      { x.1 with positions := x.2.positions.getD (.error .noCredentials) }) := by
  induction xs generalizing s with
  | nil => rfl
  | cons x xs ih =>
    obtain ⟨a, v⟩ := x
    obtain ⟨r, hr⟩ := Option.ne_none_iff_exists'.mp (h (a, v) List.mem_cons_self)
    have hrest := fun s' => ih s' fun y hy => h y (List.mem_cons_of_mem _ hy)
    have hr : v.positions = some r := hr
    rw [List.map_cons, closeAttemptsOver, closeAttempts, closeOver]
    dsimp only
    rw [hr, Option.getD_some]
    dsimp only
    rcases s.close { a with positions := r } symbol reason with ⟨s', outcome⟩
    rcases outcome with (e | placed) | _
    · cases e <;> first | rfl | exact hrest s'
    · rfl
    · rfl

/-- What as many attempts as are made meet. -/
def attemptsOver (answers : ℕ → CloseAnswers) (vs : ℕ → Adapter) :
    List (CloseAnswers × Adapter) :=
  (List.range horizonCloseAttempts).map fun i => (answers i, vs i)

/-- The horizon timer's callback. -/
def closeOnHorizonOver (s : Service ι) (symbol : String) (answers : ℕ → CloseAnswers)
    (vs : ℕ → Adapter) : Service ι × List (Outcome × Option OrderRequest) :=
  s.closeAttemptsOver symbol .horizon (attemptsOver answers vs)

/-- A look of the watcher at the position it guards. -/
def look (s : Service ι) (v : Adapter) (symbol : String) (st : Stop ι) (tag : ι) :
    Service ι × Look :=
  match v.positions with
  | none => (s, .panicked)
  | some (.error _) => (s, .goesOn)
  | some (.ok ps) =>
    match ps.find? fun p => p.symbol = symbol with
    -- gone by another exit: nothing left to guard
    | none => ({ s with exits := s.exits.disarmStop symbol }, .ended)
    | some pos =>
      let s := { s with exits := s.exits.noteExcursion symbol pos.unrealizedPnL tag }
      match st.hit pos with
      | none => (s, .panicked)
      | some none => (s, .goesOn)
      | some (some reason) => (s, .hit reason)

/-- A tick of the watcher: a look, and the close it starts when a bound was hit. -/
def tickOver (s : Service ι) (v : Adapter) (symbol : String) (st : Stop ι) (tag : ι)
    (answers : ℕ → CloseAnswers) (vs : ℕ → Adapter) :
    Service ι × Look × List (Outcome × Option OrderRequest) :=
  match s.look v symbol st tag with
  | (s, .hit reason) =>
    let closed := s.closeAttemptsOver symbol reason (attemptsOver answers vs)
    (closed.1, .hit reason, closed.2)
  | (s, l) => (s, l, [])

end Service

/-- The operations on a symbol behave the same over two states of the adapter. -/
structure SameFor (ι : Type) (symbol : String) (v v' : Adapter) : Prop where
  close : ∀ (s : Service ι) (a : CloseAnswers) (raw : String), symbolOf raw = symbol →
    s.closePositionOver a v raw = s.closePositionOver a v' raw
  exit : ∀ (s : Service ι) (a : CloseAnswers) (reason : CloseReason),
    s.closeOver a v symbol reason = s.closeOver a v' symbol reason
  amend : ∀ (s : Service ι) (a : AmendAnswers) (tag : ι) (req : AmendRequest),
    symbolOf req.symbol = symbol → s.amendOver a v tag req = s.amendOver a v' tag req
  horizon : ∀ (s : Service ι) (answers : ℕ → CloseAnswers),
    s.closeOnHorizonOver symbol answers (fun _ => v) =
      s.closeOnHorizonOver symbol answers fun _ => v'
  stop : ∀ (s : Service ι) (st : Stop ι) (tag : ι) (answers : ℕ → CloseAnswers),
    s.tickOver v symbol st tag answers (fun _ => v) =
      s.tickOver v' symbol st tag answers fun _ => v'

/-! ## What the operations read of the positions -/

namespace Adapter

variable {v v' : Adapter} {symbol : String}

/-- A wire position in the engine's terms, when it converts. -/
def converted? (v : Adapter) (p : WirePosition) : Option Position :=
  (v.context.toVenuePosition p).value?.map (·.toPosition)

/-- Those of the open positions that convert. -/
def converted (v : Adapter) : List Position :=
  (v.raw.filter WirePosition.isOpen).filterMap v.converted?

/-- The adapter answers with every open position, unless one of them does not convert. -/
theorem positions_eq (h : v.trades = true) : v.positions =
    match v.stuck with
    | some e => e.map fun text => .error (.other text)
    | none => some (.ok v.converted) := by
  rw [positions, if_pos h, Perpl.Context.positions, Perpl.Converts.mapM_run, stuck]
  cases hf : (v.raw.filter WirePosition.isOpen).findSome? fun p =>
      (v.context.toVenuePosition p).failure with
  | none =>
    have hmap : v.converted = ((v.raw.filter WirePosition.isOpen).filterMap fun p =>
        (v.context.toVenuePosition p).value?).map (·.toPosition) := by
      rw [List.map_filterMap]
      rfl
    rw [hmap]
    rfl
  | some e => cases e <;> rfl

/-- Only positions in a symbol's markets convert to positions of the symbol. -/
theorem converted?_filter (p : WirePosition) :
    (v.converted? p).filter (fun q => q.symbol = symbol) =
      if v.holds symbol p then v.converted? p else none := by
  unfold converted?
  cases hr : (v.context.toVenuePosition p).value? with
  | none => simp
  | some r =>
    obtain ⟨m, hm, hticker⟩ :=
      Perpl.Context.toVenuePosition_symbol (Perpl.Converts.value?_eq_some.mp hr)
    have hholds : v.holds symbol p = decide (r.symbol = symbol) := by
      rw [holds, hm, hticker]
      rfl
    rw [hholds]
    by_cases hs : r.symbol = symbol
    · simp [hs]
    · simp [hs]

/-- What the adapter answers about a symbol comes from its positions in the symbol's markets. -/
theorem filter_converted : v.converted.filter (fun q => q.symbol = symbol) =
    ((v.raw.filter (v.holds symbol)).filter WirePosition.isOpen).filterMap v.converted? := by
  rw [converted, List.filter_filterMap, List.filter_comm, List.filterMap_filter (p := v.holds symbol)]
  apply List.filterMap_congr
  intro p _
  exact converted?_filter p

theorem holds_eq_true {p : WirePosition} :
    v.holds symbol p = true ↔ ∃ m, v.context.byID p.market = some m ∧ m.ticker = symbol := by
  unfold holds
  cases v.context.byID p.market with
  | none => simp
  | some m => simp

/-- A position in one of the symbol's markets converts to the same in both states. -/
theorem Agrees.converted? (h : v.Agrees v' symbol) {p : WirePosition}
    (hp : v.holds symbol p = true) : v.converted? p = v'.converted? p := by
  obtain ⟨m, hm, hticker⟩ := holds_eq_true.mp hp
  have hm' : v'.context.byID p.market = some m := (h.market p.market m hticker).mp hm
  have hmark : v.context.markFor m = v'.context.markFor m := by
    rw [Perpl.Context.markFor, Perpl.Context.markFor, h.mark p.market m hm hticker]
  have hamount : v.context.parseAmount = v'.context.parseAmount := by
    funext text
    rw [Perpl.Context.parseAmount, Perpl.Context.parseAmount, h.collateral]
  have hconv : v.context.toVenuePosition p = v'.context.toVenuePosition p := by
    rw [Perpl.Context.toVenuePosition, Perpl.Context.toVenuePosition, hm, hm', hamount]
    simp only [pure_bind, hmark]
  rw [Adapter.converted?, Adapter.converted?, hconv]

/-- Both states convert the same positions of the symbol, in the same order. -/
theorem Agrees.filter_converted (h : v.Agrees v' symbol) :
    v.converted.filter (fun q => q.symbol = symbol) =
      v'.converted.filter fun q => q.symbol = symbol := by
  rw [Adapter.filter_converted, Adapter.filter_converted, ← h.raw]
  apply List.filterMap_congr
  intro p hp
  exact h.converted? (List.mem_filter.mp (List.mem_filter.mp hp).1).2

/-- What the adapter answers, as far as a symbol goes: how it fails, or the first of the symbol's
positions. -/
theorem Agrees.positions (h : v.Agrees v' symbol) (hstuck : v.trades = true → v.stuck = v'.stuck) :
    v.positions = v'.positions ∨ ∃ ps ps', v.positions = some (.ok ps) ∧
      v'.positions = some (.ok ps') ∧
      ps.filter (fun q => q.symbol = symbol) = ps'.filter fun q => q.symbol = symbol := by
  cases ht : v.trades with
  | false =>
    have ht' : v'.trades = false := h.trades.symm.trans ht
    left
    rw [Adapter.positions, Adapter.positions, if_neg (ne_true_of_eq_false ht),
      if_neg (ne_true_of_eq_false ht')]
  | true =>
    rw [positions_eq ht, positions_eq (h.trades.symm.trans ht), hstuck ht]
    cases v'.stuck with
    | none => exact .inr ⟨_, _, rfl, rfl, h.filter_converted⟩
    | some e => exact .inl rfl

end Adapter

namespace Service

variable {s : Service ι} {symbol : String} {ps ps' : List Position}

/-- A search for a symbol's position is a search among the symbol's positions. -/
theorem find_eq_of_filter
    (h : ps.filter (fun q => q.symbol = symbol) = ps'.filter fun q => q.symbol = symbol) :
    (ps.find? fun q => q.symbol = symbol) = ps'.find? fun q => q.symbol = symbol := by
  rw [← List.head?_filter, ← List.head?_filter, h]

/-- A close looks at the positions of its symbol only. -/
theorem admitClose_congr (a : CloseAnswers)
    (h : ps.filter (fun q => q.symbol = symbol) = ps'.filter fun q => q.symbol = symbol) :
    s.admitClose { a with positions := .ok ps } symbol =
      s.admitClose { a with positions := .ok ps' } symbol := by
  unfold admitClose
  dsimp only
  rw [find_eq_of_filter h]

/-- The order a close places comes from the position of its symbol only. -/
theorem closes_congr (a : CloseAnswers)
    (h : ps.filter (fun q => q.symbol = symbol) = ps'.filter fun q => q.symbol = symbol) :
    s.closes { a with positions := .ok ps } symbol =
      s.closes { a with positions := .ok ps' } symbol := by
  unfold closes
  rw [admitClose_congr a h]

/-- A close does the same for two lists with the same positions of its symbol. -/
theorem close_congr (a : CloseAnswers) (reason : CloseReason)
    (h : ps.filter (fun q => q.symbol = symbol) = ps'.filter fun q => q.symbol = symbol) :
    s.close { a with positions := .ok ps } symbol reason =
      s.close { a with positions := .ok ps' } symbol reason := by
  unfold close
  rw [admitClose_congr a h]
  rfl

/-- A checked request goes by the symbol as the platform keys it. -/
theorem checked_symbol {req checked : AmendRequest} (h : req.check = .ok checked) :
    checked.symbol = symbolOf req.symbol := by
  unfold AmendRequest.check at h
  obtain ⟨_, _, h⟩ := bind_eq_ok.mp h
  obtain ⟨_, _, h⟩ := bind_eq_ok.mp h
  obtain ⟨_, _, h⟩ := bind_eq_ok.mp h
  obtain ⟨_, _, h⟩ := bind_eq_ok.mp h
  obtain rfl := Except.ok.inj h
  rfl

/-- An amendment only asks whether its symbol has a position. -/
theorem amend_congr (a : AmendAnswers) (tag : ι) {req checked : AmendRequest}
    (hcheck : req.check = .ok checked)
    (h : ps.filter (fun q => q.symbol = checked.symbol) =
      ps'.filter fun q => q.symbol = checked.symbol) :
    s.amend { a with positions := .ok ps } tag req =
      s.amend { a with positions := .ok ps' } tag req := by
  have hnone : (∀ p ∈ ps, p.symbol ≠ checked.symbol) ↔ ∀ p ∈ ps', p.symbol ≠ checked.symbol := by
    have hfilter : ∀ qs : List Position, (∀ p ∈ qs, p.symbol ≠ checked.symbol) ↔
        (qs.filter fun q => q.symbol = checked.symbol) = [] := by
      intro qs
      simp [List.filter_eq_nil_iff]
    rw [hfilter, hfilter, h]
  unfold amend
  rw [hcheck]
  simp only [hnone]

variable {v v' : Adapter}

/-- The one close path does the same where the adapter fails the same way or not at all. -/
theorem closeOver_same (h : v.Agrees v' symbol) (hstuck : v.trades = true → v.stuck = v'.stuck)
    (a : CloseAnswers) (reason : CloseReason) :
    s.closeOver a v symbol reason = s.closeOver a v' symbol reason := by
  rcases h.positions hstuck with heq | ⟨ps, ps', hps, hps', hfilter⟩
  · rw [closeOver, closeOver, heq]
  · rw [closeOver, closeOver, hps, hps']
    dsimp only
    rw [close_congr a reason hfilter, closes_congr a hfilter]

theorem amendOver_same (h : v.Agrees v' symbol) (hstuck : v.trades = true → v.stuck = v'.stuck)
    (a : AmendAnswers) (tag : ι) {req : AmendRequest} (hsymbol : symbolOf req.symbol = symbol) :
    s.amendOver a v tag req = s.amendOver a v' tag req := by
  unfold amendOver
  cases hcheck : req.check with
  | error e => rfl
  | ok checked =>
    dsimp only
    have hchecked : checked.symbol = symbol := by
      rw [← hsymbol]
      exact checked_symbol hcheck
    rcases h.positions hstuck with heq | ⟨ps, ps', hps, hps', hfilter⟩
    · rw [heq]
    · rw [← hchecked] at hfilter
      have heq : s.amend { a with positions := .ok ps } tag req =
          s.amend { a with positions := .ok ps' } tag req := amend_congr a tag hcheck hfilter
      rw [hps, hps']
      dsimp only
      rw [heq]

theorem look_same (h : v.Agrees v' symbol) (hstuck : v.trades = true → v.stuck = v'.stuck)
    (st : Stop ι) (tag : ι) : s.look v symbol st tag = s.look v' symbol st tag := by
  rcases h.positions hstuck with heq | ⟨ps, ps', hps, hps', hfilter⟩
  · rw [look, look, heq]
  · rw [look, look, hps, hps']
    dsimp only
    rw [find_eq_of_filter hfilter]

/-- Attempts do the same when each of them would. -/
theorem closeAttemptsOver_same {vs vs' : ℕ → Adapter} {reason : CloseReason}
    (h : ∀ (s : Service ι) a i, s.closeOver a (vs i) symbol reason =
      s.closeOver a (vs' i) symbol reason)
    (answers : ℕ → CloseAnswers) (is : List ℕ) :
    s.closeAttemptsOver symbol reason (is.map fun i => (answers i, vs i)) =
      s.closeAttemptsOver symbol reason (is.map fun i => (answers i, vs' i)) := by
  induction is generalizing s with
  | nil => rfl
  | cons i is ih =>
    rw [List.map_cons, List.map_cons, closeAttemptsOver, closeAttemptsOver, h]
    split
    · rfl
    · dsimp only
      rw [ih]
    · rfl

theorem tickOver_same {vs vs' : ℕ → Adapter} (h : ∀ i, (vs i).Agrees (vs' i) symbol)
    (hstuck : ∀ i, (vs i).trades = true → (vs i).stuck = (vs' i).stuck)
    (hv : v.Agrees v' symbol) (hvstuck : v.trades = true → v.stuck = v'.stuck)
    (st : Stop ι) (tag : ι) (answers : ℕ → CloseAnswers) :
    s.tickOver v symbol st tag answers vs = s.tickOver v' symbol st tag answers vs' := by
  unfold tickOver
  rw [look_same hv hvstuck]
  split
  · dsimp only
    rw [attemptsOver, attemptsOver,
      closeAttemptsOver_same fun s a i => closeOver_same (h i) (hstuck i) a _]
  · rfl

end Service

/-! ## How a close tells that the adapter failed -/

/-- The failure of the adapter an outcome stands for. -/
def Outcome.stuck : Outcome → Option (Option String)
  | .panicked => some none
  | .done (.error (.venue (.other text))) => some (some text)
  | _ => none

/-- A close whose order is rejected ends as the adapter fails, or otherwise. -/
theorem Service.closeOver_stuck {v : Adapter} (ht : v.trades = true) (s : Service ι)
    {a : CloseAnswers} (hplace : a.place = fun _ => .error .rejected) (symbol : String)
    (reason : CloseReason) : (s.closeOver a v symbol reason).2.1.stuck = v.stuck := by
  unfold closeOver
  rw [Adapter.positions_eq ht]
  cases v.stuck with
  | some e =>
    cases e with
    | none => rfl
    | some text => rfl
  | none =>
    dsimp only
    unfold close
    cases hadmit : (s.admitClose { a with positions := .ok v.converted } symbol).2 with
    | ok pos =>
      dsimp only
      rw [hplace]
      rfl
    | error e =>
      unfold admitClose at hadmit
      dsimp only at hadmit
      split at hadmit
      · obtain rfl := Except.error.inj hadmit
        rfl
      · split at hadmit
        · obtain rfl := Except.error.inj hadmit
          rfl
        · cases hadmit

/-! ## Leaving a market -/

/-- What the ways out of a market do depends on that market only, exactly as far as the first open
position that does not convert, if there is one, fails the same way in both states. -/
theorem leaving_is_local {symbol : String} {vs vs' : ℕ → Adapter}
    (h : ∀ i, (vs i).Agrees (vs' i) symbol) :
    (∀ i, SameFor ι symbol (vs i) (vs' i) ↔
      ((vs i).trades = true → (vs i).stuck = (vs' i).stuck)) ∧
    ((∀ i, (vs i).trades = true → (vs i).stuck = (vs' i).stuck) → ∀ s : Service ι,
      (∀ answers, s.closeOnHorizonOver symbol answers vs =
        s.closeOnHorizonOver symbol answers vs') ∧
      ∀ i st tag answers, s.tickOver (vs i) symbol st tag answers vs =
        s.tickOver (vs' i) symbol st tag answers vs') := by
  refine ⟨fun i => ⟨fun hsame ht => ?_, fun hstuck => ?_⟩, fun hstuck s => ⟨?_, ?_⟩⟩
  · -- a close whose order the venue rejects tells every failure apart
    let s : Service ι := ⟨"", idle.engine, .empty, false, [], false, none, none, none⟩
    let a : CloseAnswers := ⟨"", 0, 0, true, .ok [], fun _ => .error .rejected⟩
    have ht' : (vs' i).trades = true := (h i).trades ▸ ht
    calc (vs i).stuck = (s.closeOver a (vs i) symbol .manual).2.1.stuck :=
          (s.closeOver_stuck ht rfl symbol .manual).symm
      _ = (s.closeOver a (vs' i) symbol .manual).2.1.stuck := by rw [hsame.exit]
      _ = (vs' i).stuck := s.closeOver_stuck ht' rfl symbol .manual
  · constructor
    · intro s a raw hraw
      unfold Service.closePositionOver
      rw [hraw, Service.closeOver_same (h i) hstuck]
    · intro s a reason
      exact Service.closeOver_same (h i) hstuck a reason
    · intro s a tag req hsymbol
      exact Service.amendOver_same (h i) hstuck a tag hsymbol
    · intro s answers
      exact Service.closeAttemptsOver_same
        (fun s a _ => Service.closeOver_same (h i) hstuck a .horizon) answers _
    · intro s st tag answers
      exact Service.tickOver_same (fun _ => h i) (fun _ => hstuck) (h i) hstuck st tag answers
  · intro answers
    exact Service.closeAttemptsOver_same
      (fun s a i => Service.closeOver_same (h i) (hstuck i) a .horizon) answers _
  · intro i st tag answers
    exact Service.tickOver_same h hstuck (h i) (hstuck i) st tag answers

/-! ## A delisted market -/

/-- A market listed under an id. -/
def btcMarket : Perpl.Market := ⟨1, "BTC", "Bitcoin", 1, 3, 600000⟩

/-- What the adapter knows when only that market is listed. -/
def listing : Perpl.Context := ⟨fun id => if id = 1 then some btcMarket else none, 6, fun _ => none⟩

/-- A long position in a market. -/
def longIn (market : Int) (positionID : ℕ) : WirePosition :=
  ⟨market, positionID, Perpl.positionStatusOpen, 1, "10000000", 600000, 1000, "0", 100, "0", 0⟩

/-- The account holds one position. -/
def holdingOne : Adapter := ⟨true, listing, [longIn 1 7]⟩

/-- The account holds a position in a market that is no longer listed besides. -/
def holdingDelisted : Adapter := ⟨true, listing, [longIn 99 8, longIn 1 7]⟩

/-- A second market is listed as well. -/
def ethMarket : Perpl.Market := ⟨2, "ETH", "Ether", 2, 3, 30000⟩

/-- The account holds a second position, which converts. -/
def holdingTwo : Adapter where
  trades := true
  context := { listing with byID := Function.update listing.byID 2 (some ethMarket) }
  raw := [longIn 2 8, longIn 1 7]

theorem holdingOne_agrees_delisted : holdingOne.Agrees holdingDelisted "BTC" :=
  ⟨rfl, rfl, fun _ _ _ => Iff.rfl, fun _ _ _ _ => rfl, by decide⟩

theorem holdingOne_agrees_two : holdingOne.Agrees holdingTwo "BTC" where
  trades := rfl
  collateral := rfl
  market id m hticker := by
    change listing.byID id = some m ↔ Function.update listing.byID 2 (some ethMarket) id = some m
    by_cases hid : id = 2
    · subst hid
      rw [Function.update_self]
      refine ⟨nofun, fun hm => ?_⟩
      obtain rfl := Option.some.inj hm
      exact absurd hticker (by decide)
    · rw [Function.update_of_ne hid]
  mark _ _ _ _ := rfl
  raw := by decide

/-- Two accounts with the same long position in BTC, one with a second position. -/
theorem leaving_is_local_two : SameFor Unit "BTC" holdingOne holdingTwo := by
  have hstuck : holdingOne.stuck = holdingTwo.stuck := by decide
  exact ((leaving_is_local fun _ => holdingOne_agrees_two).1 0).mpr fun _ => hstuck

/-- A position in a delisted market blocks the close of another: where the account without it
places its order, no order is placed and the error names the other market. -/
theorem delisting_blocks : holdingOne.Agrees holdingDelisted "BTC" ∧
    (started.closeOver closing holdingOne "BTC" .horizon).2.2.isSome = true ∧
    started.closeOver closing holdingDelisted "BTC" .horizon =
      (started.disarm "BTC" true,
        .done (.error (.venue (.other "venue: unknown market: market id 99"))), none) := by
  refine ⟨holdingOne_agrees_delisted, by decide, ?_⟩
  have hstuck : holdingDelisted.stuck = some (some "venue: unknown market: market id 99") := by
    decide
  have hpositions := Adapter.positions_eq (v := holdingDelisted) rfl
  rw [hstuck] at hpositions
  rw [Service.closeOver, hpositions]
  rfl

end Platform

end SuperAgent
