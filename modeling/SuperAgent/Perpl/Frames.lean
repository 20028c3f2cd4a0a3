import SuperAgent.Fixed.Rescaling
import SuperAgent.Perpl.Subscriptions

/-!
# Frames with any values

A handler converts every integer of a frame. Bars and levels that do not fit are
skipped. The prices of a market are converted without that, so that one price
out of range ends the process.
-/

namespace SuperAgent.Perpl

open Fixed (D Scales rescaled toOption_fromScaled)

/-! ## What fits -/

namespace Context

/-- The market an entry is of, if the venue has published it. -/
def marketOf (c : Context) (key : String) : Option Market :=
  (parseInt key).toOption.bind fun id => c.byID id.toInt

/-- An amount of collateral that fits. -/
def amountOf (c : Context) (s : String) : Option D :=
  if trimSpace s = "" then some 0
  else (parseInt (trimSpace s)).toOption.bind fun v =>
    rescaled v (if c.collateralDecimals = 0 then 6 else c.collateralDecimals)

/-- A bar whose values fit. -/
def barOf (c : Context) (m : Market) (period : Duration) (w : WireCandle) : Option Candle := do
  let o ← rescaled w.open m.priceDecimals
  let h ← rescaled w.high m.priceDecimals
  let l ← rescaled w.low m.priceDecimals
  let cl ← rescaled w.close m.priceDecimals
  let volume ← c.amountOf w.volume
  return { «open» := msTime w.time, period, o, h, l, c := cl, volume, trades := w.trades }

end Context

/-- A level that holds orders and whose values fit. -/
def levelOf (m : Market) (l : WireLevel) : Option BookLevel :=
  if l.orders = 0 then none
  else do
    let price ← rescaled l.price m.priceDecimals
    let size ← rescaled l.size m.sizeDecimals
    return ⟨price, size, l.orders⟩

/-- The prices of a market fit. -/
def MarketState.Scales (st : MarketState) (m : Market) : Prop :=
  Fixed.Scales st.mark m.priceDecimals ∧ Fixed.Scales st.oracle m.priceDecimals ∧
    Fixed.Scales st.last m.priceDecimals ∧ Fixed.Scales st.bid m.priceDecimals ∧
    Fixed.Scales st.ask m.priceDecimals

instance (st : MarketState) (m : Market) : Decidable (st.Scales m) :=
  inferInstanceAs (Decidable (_ ∧ _ ∧ _ ∧ _ ∧ _))

/-- The prices of a market when they fit. -/
def tickerOf (m : Market) (st : MarketState) : Option Ticker := do
  let mark ← rescaled st.mark m.priceDecimals
  let oracle ← rescaled st.oracle m.priceDecimals
  let last ← rescaled st.last m.priceDecimals
  let bid ← rescaled st.bid m.priceDecimals
  let ask ← rescaled st.ask m.priceDecimals
  return { time := msTime st.time, symbol := m.ticker, mark, oracle, last, bid, ask }

namespace Feed

/-- The values of a frame with those that do not fit skipped. -/
def fitting (f : Feed) (c : Context) (frame : MDFrame) : List Value :=
  match f, frame with
  | .candles m period, .candles _ data => data.filterMap fun w =>
      (c.barOf m period w).map .candle
  | .book m, .book _ time bids asks =>
      [.book ⟨msTime time, bids.filterMap (levelOf m), asks.filterMap (levelOf m)⟩]
  | .tickers, .marketState _ data => data.filterMap fun e =>
      (c.marketOf e.1).bind fun m => (tickerOf m e.2).map .ticker
  | _, _ => []

/-- No frame for the prices of all markets has one that does not fit. -/
def InRange (f : Feed) (c : Context) (frame : MDFrame) : Prop :=
  match f, frame with
  | .tickers, .marketState _ data =>
      ∀ e ∈ data, ∀ m ∈ c.marketOf e.1, e.2.Scales m
  | _, _ => True

instance (c : Context) : (f : Feed) → (frame : MDFrame) → Decidable (f.InRange c frame)
  | .tickers, .marketState _ data =>
    inferInstanceAs (Decidable (∀ e ∈ data, ∀ m ∈ c.marketOf e.1, e.2.Scales m))
  | .marks, _ | .candles _ _, _ | .book _, _ | .tickers, .unparseable
  | .tickers, .subscribeResponse _ | .tickers, .heartbeat _ _ | .tickers, .candles _ _
  | .tickers, .book _ _ _ _ | .tickers, .other _ => .isTrue trivial

end Feed

/-! ## One value after the other -/

/-- A conversion that does not panic, with what it gives. -/
def Gives {α : Type} (x : Converts α) (o : Option α) : Prop := ∃ r, x = some r ∧ r.toOption = o

section Gives

variable {α β : Type} {x : Converts α} {o : Option α}

theorem gives_pure (a : α) : Gives (pure a) (some a) := ⟨.ok a, rfl, rfl⟩

theorem gives_throw (e : ConvertError) : Gives (throw e : Converts α) none := ⟨.error e, rfl, rfl⟩

theorem gives_scaled (v : Int64) (k : Int) : Gives (Context.scaled v k) (rescaled v k) := by
  refine ⟨_, rfl, ?_⟩
  rw [← toOption_fromScaled]
  cases Fixed.fromScaled v k <;> rfl

theorem Gives.bind (h : Gives x o) {f : α → Converts β} {g : α → Option β}
    (hf : ∀ a, Gives (f a) (g a)) : Gives (x >>= f) (o.bind g) := by
  obtain ⟨r, rfl, rfl⟩ := h
  cases r with
  | error e => exact ⟨.error e, rfl, rfl⟩
  | ok a => exact hf a

end Gives

variable {c : Context} {m : Market} {period : Duration} {frame : MDFrame} {f : Feed}

theorem gives_amount (s : String) : Gives (c.parseAmount s) (c.amountOf s) := by
  rw [Context.parseAmount, Context.amountOf]
  split
  · exact gives_pure 0
  · cases parseInt (trimSpace s) with
    | error e => exact gives_throw _
    | ok v => exact gives_scaled _ _

/-- A bar is converted when its values fit. -/
theorem gives_candle (w : WireCandle) : Gives (c.toVenueCandle m period w) (c.barOf m period w) :=
  (gives_scaled _ _).bind fun _ => (gives_scaled _ _).bind fun _ => (gives_scaled _ _).bind fun _ =>
    (gives_scaled _ _).bind fun _ => (gives_amount _).bind fun _ => gives_pure _

theorem toLevels_eq (m : Market) (levels : List WireLevel) :
    toLevels m levels = levels.filterMap (levelOf m) := by
  rw [toLevels]
  congr 1
  ext1 l
  rw [levelOf, ← toOption_fromScaled, ← toOption_fromScaled]
  split
  · rfl
  · cases Fixed.fromScaled l.price m.priceDecimals <;>
      cases Fixed.fromScaled l.size m.sizeDecimals <;> rfl

theorem toTicker_eq (m : Market) (st : MarketState) : toTicker m st = tickerOf m st := by
  rw [toTicker, tickerOf]
  simp only [toOption_fromScaled]

theorem isSome_rescaled (v : Int64) (k : Int) : (rescaled v k).isSome ↔ Scales v k := by
  rw [rescaled]
  split <;> simp [*]

/-- The prices of a market are converted when all of them fit. -/
theorem tickerOf_eq_none_iff (st : MarketState) : tickerOf m st = none ↔ ¬ st.Scales m := by
  rw [← Option.not_isSome_iff_eq_none, not_iff_not, MarketState.Scales, ← isSome_rescaled,
    ← isSome_rescaled, ← isSome_rescaled, ← isSome_rescaled, ← isSome_rescaled, tickerOf]
  cases rescaled st.mark m.priceDecimals <;> cases rescaled st.oracle m.priceDecimals <;>
    cases rescaled st.last m.priceDecimals <;> cases rescaled st.bid m.priceDecimals <;>
      cases rescaled st.ask m.priceDecimals <;> simp

/-! ## A frame's values -/

/-- What the handler of a market's bars makes of a frame. -/
theorem values_candles_eq (k : Int) (data : List WireCandle) :
    (Feed.candles m period).values c (.candles k data) =
      data.filterMap fun w => ((c.barOf m period w).map Value.candle).map some := by
  refine List.filterMap_congr fun w _ => ?_
  obtain ⟨r, hr, hbar⟩ : Gives (c.toVenueCandle m period w) _ := gives_candle w
  rw [← hbar]
  split
  · next candle hw =>
    obtain rfl := Option.some.inj (hr.symm.trans hw)
    rfl
  · next e hw =>
    obtain rfl := Option.some.inj (hr.symm.trans hw)
    rfl
  · next hw => cases hr.symm.trans hw

/-- What the handler of all markets' prices makes of a frame. -/
theorem values_tickers_eq (k : Int) (data : List (String × MarketState)) :
    Feed.tickers.values c (.marketState k data) = data.filterMap fun e =>
      (c.marketOf e.1).map fun m => (tickerOf m e.2).map Value.ticker := by
  refine List.filterMap_congr fun e _ => ?_
  rw [Context.marketOf]
  dsimp only
  split
  · next m hm =>
    rw [hm, toTicker_eq]
    rfl
  · next hm =>
    rw [hm]
    rfl

/-- No price of a market out of range comes from the handler of all markets' prices. -/
theorem none_tickers_iff (k : Int) (data : List (String × MarketState)) :
    none ∉ Feed.tickers.values c (.marketState k data) ↔
      Feed.tickers.InRange c (.marketState k data) := by
  rw [values_tickers_eq, Feed.InRange, List.mem_filterMap]
  constructor
  · intro hnone e he m hm
    by_contra hunfit
    refine hnone ⟨e, he, ?_⟩
    rw [show c.marketOf e.1 = some m from hm, Option.map_some, (tickerOf_eq_none_iff _).mpr hunfit]
    rfl
  · rintro hrange ⟨e, he, hnone⟩
    obtain ⟨m, hm, hticker⟩ := Option.map_eq_some_iff.mp hnone
    exact (tickerOf_eq_none_iff _).mp (Option.map_eq_none_iff.mp hticker) (hrange e he m hm)

/-- A handler makes a panic of a frame exactly when a price is out of range. The values it sends are
those that fit. -/
theorem values_fitting (f : Feed) (frame : MDFrame) :
    (none ∉ f.values c frame ↔ f.InRange c frame) ∧
      (f.values c frame).filterMap id = f.fitting c frame := by
  cases f with
  | marks => exact ⟨iff_of_true List.not_mem_nil trivial, rfl⟩
  | candles m period =>
    cases frame with
    | candles k data =>
      rw [values_candles_eq, Feed.fitting]
      refine ⟨iff_of_true (fun hnone => ?_) trivial, ?_⟩
      · obtain ⟨w, -, hw⟩ := List.mem_filterMap.mp hnone
        obtain ⟨v, -, hv⟩ := Option.map_eq_some_iff.mp hw
        cases hv
      · rw [List.filterMap_filterMap]
        congr 1
        ext1 w
        cases c.barOf m period w <;> rfl
    | unparseable | subscribeResponse _ | heartbeat _ _ | book _ _ _ _ | marketState _ _
    | other _ =>
      exact ⟨iff_of_true List.not_mem_nil trivial, rfl⟩
  | book m =>
    cases frame with
    | book k time bids asks =>
      refine ⟨iff_of_true (by rw [Feed.values]; simp) trivial, ?_⟩
      rw [Feed.values, Feed.fitting, toLevels_eq, toLevels_eq]
      rfl
    | unparseable | subscribeResponse _ | heartbeat _ _ | candles _ _ | marketState _ _
    | other _ =>
      exact ⟨iff_of_true List.not_mem_nil trivial, rfl⟩
  | tickers =>
    cases frame with
    | marketState k data =>
      refine ⟨none_tickers_iff k data, ?_⟩
      rw [values_tickers_eq, Feed.fitting, List.filterMap_filterMap]
      congr 1
      ext1 e
      cases c.marketOf e.1 with
      | none => rfl
      | some m => cases tickerOf m e.2 <;> rfl
    | unparseable | subscribeResponse _ | heartbeat _ _ | candles _ _ | book _ _ _ _
    | other _ =>
      exact ⟨iff_of_true List.not_mem_nil trivial, rfl⟩

/-! ## Sequences of frames -/

/-- Offer a value to a channel that is open: it is dropped when there is no room. -/
def offer (out : Chan Value) (v : Value) : Chan Value :=
  if out.buf.length < out.cap then { out with buf := out.buf ++ [v] } else out

namespace MDClient

/-- A handler's values sent one after the other, and back to reading. -/
def sendAll (s : MDClient) (i : Nat) : List (Option Value) → Option MDClient
  | [] => some (s.setLoop .reading)
  | none :: _ => none
  | some v :: vs => ((s.subs i).out.trySend v).bind fun out => (s.setOut i out).sendAll i vs

/-- A frame read and handled, unless that panics. -/
def take (s : MDClient) (f : MDFrame) : Option MDClient :=
  match (s.dispatch f).loop with
  | .handling i vs => (s.dispatch f).sendAll i vs
  | _ => some (s.dispatch f)

/-- One frame after the other. -/
def takeAll (s : MDClient) (fs : List MDFrame) : Option MDClient := fs.foldlM take s

/-- The subscriptions known after a frame. -/
def learn (bySID : List (Int × String)) : MDFrame → List (Int × String)
  | .subscribeResponse subs => confirm bySID subs
  | _ => bySID

/-- The subscriber whose handler gets a frame. -/
def target (s : MDClient) (bySID : List (Int × String)) : MDFrame → Option Nat
  | .unparseable | .subscribeResponse _ => none
  | f => (bySID.lookup f.subID).bind s.handlerOf

/-- What a subscriber is to be offered of a sequence of frames: the values of those for it that
fit. -/
def offered (s : MDClient) (bySID : List (Int × String)) : List MDFrame → Nat → List Value
  | [], _ => []
  | f :: fs, i =>
    (if s.target bySID f = some i then (s.subs i).feed.fitting s.context f else []) ++
      s.offered (learn bySID f) fs i

/-- No frame for the prices of all markets has one that does not fit. -/
def InRange (s : MDClient) (bySID : List (Int × String)) : List MDFrame → Prop
  | [] => True
  | f :: fs => (∀ i ∈ s.target bySID f, (s.subs i).feed.InRange s.context f) ∧
      s.InRange (learn bySID f) fs

instance decidableInRange (s : MDClient) :
    (bySID : List (Int × String)) → (fs : List MDFrame) → Decidable (s.InRange bySID fs)
  | _, [] => .isTrue trivial
  | bySID, f :: fs =>
    have := s.decidableInRange (learn bySID f) fs
    inferInstanceAs (Decidable (_ ∧ _))

/-- The sequence does not panic, and every subscriber is offered its values that fit. -/
def Serves (s : MDClient) (fs : List MDFrame) : Prop :=
  ∃ t, s.takeAll fs = some t ∧
    ∀ i, (t.subs i).out = (s.offered s.bySID fs i).foldl offer (s.subs i).out

/-- The loop reads frames, and no channel of a registered stream is closed. -/
structure Serving (s : MDClient) : Prop where
  alive : s.panic = none
  reading : s.loop = .reading
  live : ∀ p ∈ s.handlers, (s.subs p.2).out.closed = false

/-- The same streams are registered and the same markets known. -/
structure SameFeeds (s t : MDClient) : Prop where
  panic : t.panic = s.panic
  handlers : t.handlers = s.handlers
  context : t.context = s.context
  feed : ∀ i, (t.subs i).feed = (s.subs i).feed

variable {s t : MDClient} {i : Nat} {bySID : List (Int × String)} {fs : List MDFrame}

/-- A frame goes to a registered handler. -/
theorem mem_target (h : s.target bySID frame = some i) : ∃ stream, (stream, i) ∈ s.handlers := by
  cases frame with
  | unparseable | subscribeResponse _ => cases h
  | heartbeat _ _ | candles _ _ | book _ _ _ _ | marketState _ _ | other _ =>
    obtain ⟨stream, -, hhandler⟩ := Option.bind_eq_some_iff.mp h
    exact ⟨stream, mem_handlers hhandler⟩

theorem Serving.live_target (h : s.Serving) (htarget : s.target bySID frame = some i) :
    (s.subs i).out.closed = false := by
  obtain ⟨stream, hstream⟩ := mem_target htarget
  exact h.live _ hstream

namespace SameFeeds

theorem target (h : s.SameFeeds t) : t.target bySID frame = s.target bySID frame := by
  cases frame with
  | unparseable | subscribeResponse _ => rfl
  | heartbeat _ _ | candles _ _ | book _ _ _ _ | marketState _ _ | other _ =>
    have hhandler : t.handlerOf = s.handlerOf := by
      funext stream
      rw [handlerOf, handlerOf, h.handlers]
    exact congrArg (Option.bind _) hhandler

theorem offered (h : s.SameFeeds t) : t.offered bySID fs i = s.offered bySID fs i := by
  induction fs generalizing bySID with
  | nil => rfl
  | cons f fs ih => rw [MDClient.offered, MDClient.offered, h.target, h.feed, h.context, ih]

theorem inRange (h : s.SameFeeds t) : t.InRange bySID fs ↔ s.InRange bySID fs := by
  induction fs generalizing bySID with
  | nil => exact Iff.rfl
  | cons f fs ih => simp only [MDClient.InRange, h.target, h.feed, h.context, ih]

end SameFeeds

theorem closed_offer (out : Chan Value) (v : Value) : (offer out v).closed = out.closed := by
  rw [offer]
  split <;> rfl

theorem trySend_offer {out : Chan Value} (h : out.closed = false) (v : Value) :
    out.trySend v = some (offer out v) := by
  rw [Chan.trySend, offer, h, if_neg Bool.false_ne_true]
  split
  · rw [Chan.send, h]
    rfl
  · rfl

theorem closed_foldl_offer (out : Chan Value) (vs : List Value) :
    (vs.foldl offer out).closed = out.closed := by
  induction vs generalizing out with
  | nil => rfl
  | cons v vs ih => rw [List.foldl_cons, ih, closed_offer]

@[simp] theorem subs_setOut_self (out : Chan Value) :
    (s.setOut i out).subs i = { s.subs i with out } := setSub_self

theorem setOut_setOut (out out' : Chan Value) :
    (s.setOut i out).setOut i out' = s.setOut i out' := by
  rw [setOut, subs_setOut_self, setOut, setOut, setSub, setSub, setSub, Function.update_idem]

/-- The values are sent up to the first that is out of range. -/
theorem sendAll_spec (s : MDClient) (h : (s.subs i).out.closed = false) (vs : List (Option Value)) :
    (none ∈ vs → s.sendAll i vs = none) ∧ (none ∉ vs → s.sendAll i vs =
      some ((s.setOut i ((vs.filterMap id).foldl offer (s.subs i).out)).setLoop .reading)) := by
  induction vs generalizing s with
  | nil =>
    refine ⟨fun h => absurd h List.not_mem_nil, fun _ => ?_⟩
    have hsame : s.setOut i (s.subs i).out = s := by
      rw [setOut, setSub, Function.update_eq_self]
    rw [sendAll, List.filterMap_nil, List.foldl_nil, hsame]
  | cons v vs ih =>
    cases v with
    | none => exact ⟨fun _ => rfl, fun hnone => absurd List.mem_cons_self hnone⟩
    | some v =>
      have hopen : ((s.setOut i (offer (s.subs i).out v)).subs i).out.closed = false := by
        rw [subs_setOut_self, closed_offer, h]
      obtain ⟨hpanics, hsends⟩ := ih _ hopen
      rw [sendAll, trySend_offer h, Option.bind_some]
      refine ⟨fun hnone => hpanics ?_, fun hnone => ?_⟩
      · exact (List.mem_cons.mp hnone).resolve_left (Option.some_ne_none v).symm
      · rw [hsends fun hin => hnone (List.mem_cons_of_mem _ hin), subs_setOut_self, setOut_setOut]
        rfl

/-- A frame read brings the loop into the handler it is for. -/
theorem dispatch_reading (h : s.loop = .reading) (f : MDFrame) : ∃ head, s.dispatch f =
    { s with
      bySID := learn s.bySID f
      head
      loop := match s.target s.bySID f with
        | some i => .handling i ((s.subs i).feed.values s.context f)
        | none => .reading } := by
  have hhand : ∀ head, { s with head }.hand f = { s with
      head
      loop := match (s.bySID.lookup f.subID).bind s.handlerOf with
        | some i => .handling i ((s.subs i).feed.values s.context f)
        | none => .reading } := by
    intro head
    unfold hand
    change (match (s.bySID.lookup f.subID).bind s.handlerOf with | some i => _ | none => _) = _
    cases (s.bySID.lookup f.subID).bind s.handlerOf with
    | some i => rfl
    | none =>
      rw [← h]
  cases f with
  | unparseable | subscribeResponse _ =>
    refine ⟨s.head, ?_⟩
    dsimp only [target]
    rw [← h]
    rfl
  | heartbeat _ head => exact ⟨head, hhand head⟩
  | candles _ _ | book _ _ _ _ | marketState _ _ | other _ => exact ⟨s.head, hhand s.head⟩

/-- A frame is handled, each of its values that fit offered to the subscriber it is for, unless a
price is out of range. -/
theorem take_spec (h : s.Serving) (f : MDFrame) :
    ((∀ i ∈ s.target s.bySID f, (s.subs i).feed.InRange s.context f) →
      ∃ t, s.take f = some t ∧ s.SameFeeds t ∧ t.bySID = learn s.bySID f ∧ t.loop = .reading ∧
        ∀ i, (t.subs i).out = (if s.target s.bySID f = some i then
          (s.subs i).feed.fitting s.context f else []).foldl offer (s.subs i).out) ∧
    (¬ (∀ i ∈ s.target s.bySID f, (s.subs i).feed.InRange s.context f) → s.take f = none) := by
  obtain ⟨head, hdispatch⟩ := dispatch_reading h.reading f
  rw [take, hdispatch]
  cases htarget : s.target s.bySID f with
  | none =>
    refine ⟨fun _ => ?_, fun hrange => absurd nofun hrange⟩
    refine ⟨_, rfl, ⟨rfl, rfl, rfl, fun _ => rfl⟩, rfl, rfl, fun i => ?_⟩
    rw [if_neg nofun]
    rfl
  | some i =>
    obtain ⟨hnone, hvalues⟩ := values_fitting (c := s.context) (s.subs i).feed f
    obtain ⟨hpanics, hsends⟩ := sendAll_spec
      { s with
        bySID := learn s.bySID f
        head
        loop := .handling i ((s.subs i).feed.values s.context f) }
      (h.live_target htarget) ((s.subs i).feed.values s.context f)
    refine ⟨fun hrange => ?_, fun hrange => ?_⟩
    · refine ⟨_, hsends (hnone.mpr (hrange i rfl)), ⟨rfl, rfl, rfl, fun j => ?_⟩, rfl, rfl,
        fun j => ?_⟩
      · by_cases hj : j = i
        · rw [hj]
          exact (congrArg Subscriber.feed setSub_self).trans rfl
        · exact congrArg Subscriber.feed (setSub_of_ne hj)
      · by_cases hj : j = i
        · rw [hj, if_pos rfl, ← hvalues]
          exact congrArg Subscriber.out setSub_self
        · rw [if_neg fun heq => hj (Option.some.inj heq).symm]
          exact congrArg Subscriber.out (setSub_of_ne hj)
    · refine hpanics (not_not.mp fun hfits => hrange fun j hj => ?_)
      obtain rfl := Option.some.inj hj
      exact hnone.mp hfits

/-- A handler's values are sent by steps of the process. -/
theorem sendAll_run (s : MDClient) (halive : s.panic = none) (h : (s.subs i).out.closed = false)
    (vs : List (Option Value)) :
    (∀ t, s.sendAll i vs = some t → ∃ as, Run Step Always (s.setLoop (.handling i vs)) as t) ∧
    (s.sendAll i vs = none → ∃ as t, Run Step Always (s.setLoop (.handling i vs)) as t ∧
      t.panic = some .outOfRange) := by
  induction vs generalizing s with
  | nil =>
    refine ⟨fun t ht => ?_, nofun⟩
    obtain rfl := Option.some.inj ht
    exact ⟨_, Run.nil.snoc (a := .run) trivial ⟨halive, .handled rfl⟩⟩
  | cons v vs ih =>
    cases v with
    | none =>
      have hstep := Moves.outOfRange (s := s.setLoop (.handling i (none :: vs))) rfl
      refine ⟨fun t ht => ?_, fun _ => ⟨_, _, Run.nil.snoc trivial ⟨halive, hstep⟩, rfl⟩⟩
      rw [sendAll] at ht
      cases ht
    | some v =>
      have hsend := trySend_offer h v
      have hopen : ((s.setOut i (offer (s.subs i).out v)).subs i).out.closed = false := by
        rw [subs_setOut_self, closed_offer, h]
      have hstep : (s.setLoop (.handling i (some v :: vs))).Step .run
          ((s.setOut i (offer (s.subs i).out v)).setLoop (.handling i vs)) :=
        ⟨halive, .sends rfl hsend⟩
      obtain ⟨hsends, hpanics⟩ := ih (s.setOut i (offer (s.subs i).out v)) halive hopen
      rw [sendAll, hsend, Option.bind_some]
      refine ⟨fun t ht => ?_, fun hnone => ?_⟩
      · obtain ⟨as, hrun⟩ := hsends t ht
        exact ⟨_, hrun.cons trivial hstep⟩
      · obtain ⟨as, t, hrun, hpanic⟩ := hpanics hnone
        exact ⟨_, t, hrun.cons trivial hstep, hpanic⟩

/-- A frame is read and handled by steps of the process. -/
theorem take_run (h : s.Serving) (f : MDFrame) :
    (∀ t, s.take f = some t → ∃ as, Run Step Always s as t) ∧
    (s.take f = none → ∃ as t, Run Step Always s as t ∧ t.panic = some .outOfRange) := by
  have hstep : s.Step (.read f) (s.dispatch f) := ⟨h.alive, .reads h.reading⟩
  obtain ⟨head, hdispatch⟩ := dispatch_reading h.reading f
  rw [take]
  rw [hdispatch] at hstep ⊢
  cases htarget : s.target s.bySID f with
  | none =>
    rw [htarget] at hstep
    refine ⟨fun t ht => ?_, nofun⟩
    obtain rfl := Option.some.inj ht
    exact ⟨_, Run.nil.snoc trivial hstep⟩
  | some i =>
    rw [htarget] at hstep
    obtain ⟨hsends, hpanics⟩ := sendAll_run
      { s with
        bySID := learn s.bySID f
        head
        loop := .handling i ((s.subs i).feed.values s.context f) }
      h.alive (h.live_target htarget) ((s.subs i).feed.values s.context f)
    refine ⟨fun t ht => ?_, fun hnone => ?_⟩
    · obtain ⟨as, hrun⟩ := hsends t ht
      exact ⟨_, hrun.cons trivial hstep⟩
    · obtain ⟨as, t, hrun, hpanic⟩ := hpanics hnone
      exact ⟨_, t, hrun.cons trivial hstep, hpanic⟩

/-- The frames are handled one after the other, unless one has a price out of range. -/
theorem takeAll_spec (h : s.Serving) (fs : List MDFrame) :
    (s.InRange s.bySID fs → s.Serves fs) ∧ (¬ s.InRange s.bySID fs → s.takeAll fs = none) := by
  induction fs generalizing s with
  | nil => exact ⟨fun _ => ⟨s, rfl, fun _ => rfl⟩, fun hrange => absurd trivial hrange⟩
  | cons f fs ih =>
    obtain ⟨htakes, hpanics⟩ := take_spec h f
    rw [InRange, Serves, takeAll, List.foldlM_cons]
    by_cases hfits : ∀ i ∈ s.target s.bySID f, (s.subs i).feed.InRange s.context f
    · obtain ⟨t, htake, hsame, hknown, hreading, hout⟩ := htakes hfits
      have hserving : t.Serving := by
        refine ⟨hsame.panic.trans h.alive, hreading, fun p hp => ?_⟩
        rw [hout, closed_foldl_offer]
        exact h.live p (hsame.handlers ▸ hp)
      obtain ⟨hserves, hstops⟩ := ih hserving
      rw [hknown, hsame.inRange] at hserves hstops
      rw [htake]
      refine ⟨fun hrange => ?_, fun hrange => hstops fun hrest => hrange ⟨hfits, hrest⟩⟩
      obtain ⟨u, hu, hlater⟩ := hserves hrange.2
      refine ⟨u, hu, fun i => ?_⟩
      rw [hlater, hknown, hsame.offered, hout, offered, List.foldl_append]
    · rw [hpanics hfits]
      exact ⟨fun hrange => absurd hrange.1 hfits, fun _ => rfl⟩

/-- A sequence of frames is handled without a panic, and every value of it that fits is offered to
the stream it is for, exactly when no price of a market is out of range. -/
theorem frames_served_iff (h : s.Serving) (fs : List MDFrame) :
    s.Serves fs ↔ s.InRange s.bySID fs := by
  obtain ⟨hserves, hstops⟩ := takeAll_spec h fs
  refine ⟨?_, hserves⟩
  rintro ⟨t, ht, -⟩
  by_contra hrange
  cases ht.symm.trans (hstops hrange)

/-- A client with the prices, the minute bars and the book of one market. -/
def aReader : MDClient := { start 1 aContext with
  handlers := [("market-state@1", 0), ("candles@1*60", 1), ("order-book@1", 2)]
  bySID := [(5, "market-state@1"), (6, "candles@1*60"), (7, "order-book@1")]
  loop := .reading
  subs := fun i => ⟨.streaming, 0,
    match i with
    | 0 => .tickers
    | 1 => minutes 1
    | _ => .book (aMarket 1),
    ⟨256, [], false⟩⟩ }

theorem aReader_serving : aReader.Serving := ⟨rfl, rfl, fun _ _ => rfl⟩

/-- A price that leaves no room for eight decimal places. -/
def hugePrice : Int64 := 9223372036854775807

/-- A bar and a level with such a price are skipped, and what comes with them is served. -/
theorem frames_served_three : ∃ fs, aReader.Serves fs ∧
    (aReader.takeAll fs).map (fun t => [0, 1, 2].map fun i => (t.subs i).out.buf.length) =
      some [1, 1, 1] := by
  refine ⟨[.candles 6 [{ aBar 60000 with high := hugePrice }, aBar 120000],
    .book 7 1000 [⟨hugePrice, 5, 1⟩, ⟨10, 5, 1⟩] [],
    .marketState 5 [("1", ⟨1000, 10, 10, 10, 9, 11⟩)]], ?_, by decide +kernel⟩
  exact (frames_served_iff aReader_serving _).mpr (by decide +kernel)

/-- One such price of a market ends the process. -/
theorem price_out_of_range : ∃ as s f, Run Step Always (start 1 aContext) as s ∧ s.Serving ∧
    ¬ s.Serves [f] ∧ ∃ bs t, Run Step Always s bs t ∧ t.panic = some .outOfRange := by
  have hrun : Run Step Always (start 1 aContext) _ _ := Run.nil
    |>.snoc (a := .subscribe 0 0 .tickers) trivial ⟨rfl, .subscribed rfl rfl rfl⟩
    |>.snoc (a := .signal 0) trivial ⟨rfl, .signaled rfl⟩
    |>.snoc (a := .run) trivial ⟨rfl, .begins rfl rfl⟩
    |>.snoc (a := .dial) trivial ⟨rfl, .dialed rfl⟩
    |>.snoc (a := .run) trivial ⟨rfl, .asks rfl⟩
    |>.snoc (a := .read (.subscribeResponse [⟨"market-state@1", 5, 0⟩])) trivial ⟨rfl, .reads rfl⟩
  refine ⟨_, _, .marketState 5 [("1", ⟨1000, 10, hugePrice, 10, 9, 11⟩)], hrun, ?_⟩
  generalize hs : dispatch _ _ = s
  have hserving : s.Serving := by
    subst hs
    exact ⟨rfl, rfl, fun p hp => by obtain rfl := List.mem_singleton.mp hp; rfl⟩
  have htake : s.take (.marketState 5 [("1", ⟨1000, 10, hugePrice, 10, 9, 11⟩)]) = none := by
    subst hs
    rfl
  refine ⟨hserving, ?_, (take_run hserving _).2 htake⟩
  rintro ⟨t, ht, -⟩
  rw [takeAll, List.foldlM_cons, htake] at ht
  cases ht

end MDClient

end SuperAgent.Perpl
