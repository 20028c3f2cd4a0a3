import SuperAgent.Core.Checked
import SuperAgent.Core.Run
import SuperAgent.Core.Windows
import SuperAgent.Fixed.Printing
import SuperAgent.Perpl.Frames
import SuperAgent.Perpl.Rest

/-!
# History over HTTP

The bars of a period are asked for in pages, no longer than what the venue gives
in one answer, for a market of the venue's context. Whatever the network does, a
history that comes is all of it: no bar is missing, cut off or there twice.
-/

namespace SuperAgent

namespace Perpl

open Windows

/-! ## The venue's context -/

/-- A token of the venue. -/
structure Token where
  id : Int
  decimals : Int

/-- What the venue says of itself. -/
structure ContextResponse where
  /-- The collateral tokens of its instances. -/
  instances : List Int
  tokens : List Token
  markets : List Market

/-- What the network makes of the requests there are. -/
structure Network where
  contextReply : List HTTPEvent → Reply ContextResponse
  candlesReply : Int → Int64 → Int64 → Int64 → List HTTPEvent → Reply (List WireCandle)
  done : List HTTPEvent → Duration → Option String

/-- How long the venue's context is kept. -/
def contextTTL : Duration := 30 * Duration.second

/-- What the adapter keeps of the venue's context. -/
structure MarketCache where
  bySymbol : List Market
  byID : List Market
  collateralDecimals : Int
  fetchedAt : Option Time

/-- The decimals of the collateral: those of the first instance's token, or of the first token. -/
def ContextResponse.collateralDecimals (res : ContextResponse) : Int :=
  let decimals :=
    match res.instances with
    | [] => 0
    | id :: _ => ((res.tokens.find? fun tk => tk.id = id).map Token.decimals).getD 0
  match res.tokens with
  | [] => decimals
  | tk :: _ => if decimals = 0 then tk.decimals else decimals

namespace Network

def fetchContext (net : Network) (log : List HTTPEvent) :
    Except RestError ContextResponse × List HTTPEvent :=
  match Endpoint.doRequest ⟨net.contextReply, net.done⟩ "/v1/pub/context" log with
  | (.error e, log) => (.error e, log)
  | (.ok out, log) =>
    if out.markets = [] then (.error (.failed "perpl: context returned no markets"), log)
    else (.ok out, log)

/-- The markets, from the venue where what is kept is too old. -/
def refreshContext (net : Network) (now later : Time) (a : MarketCache) (log : List HTTPEvent) :
    Except RestError MarketCache × List HTTPEvent :=
  if (a.fetchedAt.any fun t => now.sub t < contextTTL) ∧ a.bySymbol ≠ [] then (.ok a, log)
  else match net.fetchContext log with
    | (.error e, log) => (.error e, log)
    | (.ok res, log) =>
      (.ok {
        bySymbol := res.markets.foldl (fun rows m => Table.put Market.ticker m rows) []
        byID := res.markets.foldl (fun rows m => Table.put Market.id m rows) []
        collateralDecimals := res.collateralDecimals
        fetchedAt := some later }, log)

/-! ## Pages -/

/-- How many bars the venue gives in one answer. -/
def maxCandlesPerRequest : ℕ := 1024

/-- The stretch of history of one request, of bars of so many seconds. -/
def pageStep (resolutionSec : Int64) : Duration :=
  resolutionSec * Duration.second * Int64.ofNat maxCandlesPerRequest

def candlesTarget (marketID : Int) (resolutionSec a b : Int64) : String :=
  "/v1/market-data/" ++ toString marketID ++ "/candles/" ++ Fixed.formatInt resolutionSec ++ "/" ++
    Fixed.formatInt a ++ "-" ++ Fixed.formatInt b

/-- One page of bars, from one instant on and before another. -/
def fetchPage (net : Network) (marketID : Int) (resolutionSec : Int64) (start stop : Time)
    (log : List HTTPEvent) : Except RestError (List WireCandle) × List HTTPEvent :=
  Endpoint.doRequest
    ⟨net.candlesReply marketID resolutionSec start.toUnixMilli stop.toUnixMilli, net.done⟩
    (candlesTarget marketID resolutionSec start.toUnixMilli stop.toUnixMilli) log

/-- The pages from one instant on, after the bars there are. It is none without enough fuel. -/
def fetchPages (net : Network) (marketID : Int) (resolutionSec : Int64) (till : Time) :
    ℕ → Time → List WireCandle → List HTTPEvent →
      Option (Except RestError (List WireCandle) × List HTTPEvent)
  | 0, _, _, _ => none
  | fuel + 1, start, all, log =>
    if start < till then
      let next := start.add (pageStep resolutionSec)
      let stop := if till < next then till else next
      match net.fetchPage marketID resolutionSec start stop log with
      | (.error e, log) => some (.error e, log)
      | (.ok page, log) => net.fetchPages marketID resolutionSec till fuel next (all ++ page) log
    else some (.ok all, log)

def fetchCandles (net : Network) (marketID : Int) (resolutionSec : Int64) (since till : Time)
    (fuel : ℕ) (log : List HTTPEvent) :
    Option (Except RestError (List WireCandle) × List HTTPEvent) :=
  if resolutionSec ≤ 0 then
    some (.error (.failed ("perpl: candle resolution must be positive, got " ++
      Fixed.formatInt resolutionSec)), log)
  else net.fetchPages marketID resolutionSec till fuel since [] log

end Network

/-- Why there is no history. -/
inductive CandlesError
  | rest (e : RestError)
  | unknownMarket (symbol : String)
  | unsupported (period : Duration)
  | convert (e : ConvertError)

/-- What the adapter converts with. -/
def MarketCache.toContext (a : MarketCache) (marks : Int → Option Fixed.D) : Context where
  byID id := Table.row Market.id id a.byID
  collateralDecimals := a.collateralDecimals
  marks := marks

/-- What an answer leaves: the markets that are kept, and what was done. -/
abbrev Answered (β : Type) := Except CandlesError β × MarketCache × List HTTPEvent

namespace Network

/-- The market a symbol names. -/
def rawMarket (net : Network) (now later : Time) (symbol : String) (a : MarketCache)
    (log : List HTTPEvent) : Answered Market :=
  match net.refreshContext now later a log with
  | (.error e, log) => (.error (.rest e), a, log)
  | (.ok a, log) =>
    match Table.row Market.ticker (toUpper symbol) a.bySymbol with
    | none => (.error (.unknownMarket symbol), a, log)
    | some m => (.ok m, a, log)

/-- The history of a market. It is none without enough fuel, or where a conversion panics. -/
def candles (net : Network) (marks : Int → Option Fixed.D) (now later : Time) (symbol : String)
    (period : Duration) (since till : Time) (fuel : ℕ) (a : MarketCache) (log : List HTTPEvent) :
    Option (Answered (List Candle)) :=
  match net.rawMarket now later symbol a log with
  | (.error e, a, log) => some (.error e, a, log)
  | (.ok m, a, log) =>
    let res := period / Duration.second
    if candleResolutions.contains res = false then some (.error (.unsupported period), a, log)
    else do
      match ← net.fetchCandles m.id res since till fuel log with
      | (.error e, log) => return (.error (.rest e), a, log)
      | (.ok raw, log) =>
        let out ← (raw.mapM ((a.toContext marks).toVenueCandle m period)).run
        return (out.mapError .convert, a, log)

/-! ## What the venue answers -/

/-- A bar came in an answer of the venue. -/
def Served (net : Network) (marketID : Int) (resolutionSec : Int64) (w : WireCandle) : Prop :=
  ∃ a b log body edge page,
    net.candlesReply marketID resolutionSec a b log = .response 200 body edge (.ok page) ∧ w ∈ page

/-- The venue gives the bars of a window in order, cut off where they are too many. Its bars open
at multiples of their period; those of a window may change from one answer to the next. -/
structure Serves (net : Network) (marketID : Int) (resolutionSec : Int64) (times : List ℤ) :
    Prop where
  sorted : times.Pairwise (· < ·)
  aligned : ∀ t ∈ times, resolutionSec.toInt * 1000 ∣ t
  page : ∀ a b log body edge page,
    net.candlesReply marketID resolutionSec a b log = .response 200 body edge (.ok page) →
      page.map (fun w => w.time.toInt) =
        (within a.toInt b.toInt times).take maxCandlesPerRequest

/-- Every request for bars is answered, with bars that fit. -/
def Answers (net : Network) (marketID : Int) (resolutionSec : Int64) (fits : WireCandle → Prop) :
    Prop :=
  ∀ a b log, ∃ body edge page,
    net.candlesReply marketID resolutionSec a b log = .response 200 body edge (.ok page) ∧
      ∀ w ∈ page, fits w

end Network

namespace Endpoint

variable {β : Type} {net : Endpoint β} {target : String} {log log' : List HTTPEvent} {out : β}

theorem attempt_eq_ok : net.attempt target log = .ok out ↔
    ∃ body edge, net.reply log = .response 200 body edge (.ok out) := by
  rw [attempt]
  cases net.reply log with
  | lost err => simp
  | response status body edge decoded =>
    by_cases hstatus : status = 200
    · cases decoded with
      | error err => simp [hstatus, Except.mapError]
      | ok b => simp [hstatus, Except.mapError]
    · simp [hstatus]

/-- A request that succeeds was answered. -/
theorem exists_of_doRequest_ok (h : net.doRequest target log = (.ok out, log')) :
    ∃ log body edge, net.reply log = .response 200 body edge (.ok out) := by
  have hfirst : net.pause 0 log = .ok (log ++ tries target 0) := by simp [pause, tries]
  obtain ⟨j, -, -, -, hends, -⟩ := retrying_run rfl hfirst h
  generalize hr : (Except.ok out : Except RestError β) = r at hends
  cases hends with
  | settled => exact ⟨_, attempt_eq_ok.mp hr.symm⟩
  | gaveUp => cases hr
  | ctx => cases hr

/-- A request whose first attempt is answered succeeds. -/
theorem doRequest_of_reply {body edge : String}
    (h : net.reply log = .response 200 body edge (.ok out)) :
    net.doRequest target log = (.ok out, log ++ [.attempt target]) := by
  have hattempt : net.attempt target log = .ok out := attempt_eq_ok.mpr ⟨body, edge, h⟩
  have hsettled : ∀ e, ¬ net.Busy target log e := fun e he => by
    cases hattempt.symm.trans he.1
  have hfirst : net.pause (maxAttempts - (3 + 1)) log = .ok log := rfl
  rw [doRequest, show maxAttempts = 3 + 1 from rfl, retrying_settled hfirst hsettled, hattempt]

end Endpoint

/-! ## Pages and the whole -/

namespace Network

/-- A page is a whole number of milliseconds long, the bars the venue gives in one answer. -/
theorem toInt_pageStep {res : Int64} (h : res ∈ candleResolutions) :
    0 < res.toInt ∧ 0 < (pageStep res).toInt ∧
      (pageStep res).toInt = (maxCandlesPerRequest * (res.toInt * 1000)) * 1000000 := by
  revert res
  decide

variable {net : Network} {marketID : Int} {res : Int64} {times : List ℤ} {start stop till : Time}
  {all raw : List WireCandle} {log log' : List HTTPEvent} {fuel : ℕ}

theorem millis_add_pageStep (h : res ∈ candleResolutions) (t : Time) :
    (t.add (pageStep res)).millis = t.millis + maxCandlesPerRequest * (res.toInt * 1000) := by
  rw [Time.millis, Time.add, (toInt_pageStep h).2.2, Time.millis, add_sub_right_comm,
    Int.add_mul_ediv_right _ _ (by decide)]

/-- A page that is no longer than what the venue gives in one answer has all its bars. -/
theorem fetchPage_whole (hserves : net.Serves marketID res times) (hres : 0 < res.toInt)
    (hstart : start.HeldMilli) (hstop : stop.HeldMilli)
    (hlen : stop.millis ≤ start.millis + maxCandlesPerRequest * (res.toInt * 1000))
    (h : net.fetchPage marketID res start stop log = (.ok raw, log')) :
    raw.map (fun w => w.time.toInt) = within start.millis stop.millis times ∧
      ∀ w ∈ raw, net.Served marketID res w := by
  obtain ⟨asked, body, edge, hreply⟩ := Endpoint.exists_of_doRequest_ok h
  refine ⟨?_, fun w hw => ⟨_, _, asked, body, edge, raw, hreply, hw⟩⟩
  rw [hserves.page _ _ _ _ _ _ hreply, Time.toInt_toUnixMilli hstart, Time.toInt_toUnixMilli hstop]
  have hnodup : times.Nodup := hserves.sorted.imp ne_of_lt
  exact List.take_of_length_le
    (length_within_le (by omega) hnodup hserves.aligned hlen)

/-- The pages from an instant on hold all bars from there on, each once and in order. -/
theorem fetchPages_whole (hserves : net.Serves marketID res times)
    (hres : res ∈ candleResolutions) (hstart : start < till → start.HeldMilli)
    (htill : till.HeldMilli)
    (h : net.fetchPages marketID res till fuel start all log = some (.ok raw, log')) :
    ∃ rest, raw = all ++ rest ∧
      rest.map (fun w => w.time.toInt) = within start.millis till.millis times ∧
      ∀ w ∈ rest, net.Served marketID res w := by
  induction fuel generalizing start all log with
  | zero => cases h
  | succ fuel ih =>
    rw [fetchPages] at h
    split at h
    · next hlt =>
      dsimp only at h
      have hheld := hstart hlt
      have hpos := (toInt_pageStep hres).1
      have hstep := millis_add_pageStep hres start
      generalize hnext : start.add (pageStep res) = next at h hstep
      have hlater : start ≤ next := by
        rw [← hnext]
        exact Int.le_add_of_nonneg_right (toInt_pageStep hres).2.1.le
      -- The page ends where the next one starts, or where the history does.
      generalize hstop : (if till < next then till else next) = stop at h
      have hstopLe : start ≤ stop ∧ stop ≤ till ∧ stop ≤ next := by
        rw [← hstop]
        split
        · next hover => exact ⟨hlt.le, le_rfl, hover.le⟩
        · next hwhole => exact ⟨hlater, not_lt.mp hwhole, le_rfl⟩
      have hstopHeld : stop.HeldMilli := hheld.between htill hstopLe.1 hstopLe.2.1
      have hlen : stop.millis ≤ start.millis + maxCandlesPerRequest * (res.toInt * 1000) :=
        hstep ▸ Time.millis_mono hstopLe.2.2
      split at h
      · cases h
      · next page asked hpage =>
        obtain ⟨hbars, hserved⟩ := fetchPage_whole hserves hpos hheld hstopHeld hlen hpage
        have hnextHeld : next < till → next.HeldMilli :=
          fun hlt => hheld.between htill hlater hlt.le
        obtain ⟨rest, rfl, hrest, hrestServed⟩ := ih hnextHeld h
        refine ⟨page ++ rest, List.append_assoc _ _ _, ?_, ?_⟩
        · have hsorted : times.Pairwise (· ≤ ·) := hserves.sorted.imp le_of_lt
          have hmeet : within next.millis till.millis times =
              within stop.millis till.millis times := by
            rw [← hstop]
            split
            · next hover =>
              rw [within_eq_nil (Time.millis_mono hover.le), within_eq_nil le_rfl]
            · rfl
          rw [List.map_append, hbars, hrest, hmeet, within_append hsorted
            (Time.millis_mono hstopLe.1) (Time.millis_mono hstopLe.2.1)]
        · intro w hw
          exact (List.mem_append.mp hw).elim (hserved w) (hrestServed w)
    · next hge =>
      cases h
      refine ⟨[], (List.append_nil _).symm, ?_, fun w hw => by cases hw⟩
      rw [within_eq_nil (Time.millis_mono (not_lt.mp hge)), List.map_nil]

/-- The pages come to an end. -/
theorem fetchPages_isSome (hres : res ∈ candleResolutions) (hfuel : till - start ≤ fuel) :
    ∃ r, net.fetchPages marketID res till (fuel + 1) start all log = some r := by
  induction fuel generalizing start all log with
  | zero =>
    have hge : ¬ start < till := not_lt.mpr (sub_nonpos.mp hfuel)
    exact ⟨_, by rw [fetchPages, if_neg hge]⟩
  | succ fuel ih =>
    rw [fetchPages]
    split
    · dsimp only
      have hnext : till - start.add (pageStep res) ≤ fuel := by
        have hless := Int.sub_le_sub hfuel (toInt_pageStep hres).2.1
        rw [Time.add, ← sub_sub]
        simpa using hless
      split
      · exact ⟨_, rfl⟩
      · exact ih hnext
    · exact ⟨_, rfl⟩

/-- Where every request is answered, the pages come. -/
theorem fetchPages_ok {fits : WireCandle → Prop} (hanswers : net.Answers marketID res fits)
    (hall : ∀ w ∈ all, fits w) {r : Except RestError (List WireCandle) × List HTTPEvent}
    (h : net.fetchPages marketID res till fuel start all log = some r) :
    ∃ raw log', r = (.ok raw, log') ∧ ∀ w ∈ raw, fits w := by
  induction fuel generalizing start all log with
  | zero => cases h
  | succ fuel ih =>
    rw [fetchPages] at h
    split at h
    · dsimp only at h
      generalize (if till < start.add (pageStep res) then till else _) = stop at h
      obtain ⟨body, edge, page, hreply, hfits⟩ :=
        hanswers start.toUnixMilli stop.toUnixMilli log
      have hpage : net.fetchPage marketID res start stop log = (.ok page, log ++ [.attempt _]) :=
        Endpoint.doRequest_of_reply hreply
      simp only [hpage] at h
      refine ih (fun w hw => ?_) h
      exact (List.mem_append.mp hw).elim (hall w) (hfits w)
    · cases h
      exact ⟨all, log, rfl, hall⟩

end Network

/-! ## Conversion -/

theorem Gives.mapM {α β : Type} {f : α → Converts β} {g : α → Option β} {l : List α}
    (h : ∀ x, Gives (f x) (g x)) : Gives (l.mapM f) (l.mapM g) := by
  induction l with
  | nil => exact gives_pure []
  | cons x l ih =>
    rw [List.mapM_cons, List.mapM_cons]
    exact (h x).bind fun y => ih.bind fun ys => gives_pure (y :: ys)

namespace Network

variable {net : Network} {marks : Int → Option Fixed.D} {now later since till : Time}
  {symbol : String} {period : Duration} {a : MarketCache} {log : List HTTPEvent}
  {times : Int → Int64 → List ℤ}

/-- The bars are those of the market a symbol names, all from one instant on and before another,
each once and in order, as the venue gave them. -/
def Whole (net : Network) (marks : Int → Option Fixed.D) (symbol : String) (period : Duration)
    (since till : Time) (times : Int → Int64 → List ℤ) (a : MarketCache) (bars : List Candle) :
    Prop :=
  ∃ (m : Market) (raw : List WireCandle),
    Table.row Market.ticker (toUpper symbol) a.bySymbol = some m ∧
    raw.map (fun w => w.time.toInt) =
      within since.millis till.millis (times m.id (period / Duration.second)) ∧
    (∀ w ∈ raw, net.Served m.id (period / Duration.second) w) ∧
    raw.mapM ((a.toContext marks).barOf m period) = some bars

theorem row_of_rawMarket {m : Market} {a' : MarketCache} {log' : List HTTPEvent}
    (h : net.rawMarket now later symbol a log = (.ok m, a', log')) :
    Table.row Market.ticker (toUpper symbol) a'.bySymbol = some m := by
  unfold rawMarket at h
  split at h
  · cases h
  · split at h
    · cases h
    · next hrow =>
      cases h
      exact hrow

/-- What the answer to the pages makes of a request for history. -/
theorem candles_of_fetch {m : Market} {a' : MarketCache} {log₁ log₂ : List HTTPEvent} {fuel : ℕ}
    {fetched : Except RestError (List WireCandle)}
    (hraw : net.rawMarket now later symbol a log = (.ok m, a', log₁))
    (hres : period / Duration.second ∈ candleResolutions)
    (hfetch : net.fetchCandles m.id (period / Duration.second) since till fuel log₁ =
      some (fetched, log₂)) :
    ∃ r, net.candles marks now later symbol period since till fuel a log = some (r, a', log₂) ∧
      r.toOption =
        fetched.toOption.bind fun raw => raw.mapM ((a'.toContext marks).barOf m period) := by
  have hsupported : ¬ candleResolutions.contains (period / Duration.second) = false := by
    simpa using hres
  unfold candles
  simp only [hraw, if_neg hsupported, hfetch]
  cases fetched with
  | error e => exact ⟨_, rfl, rfl⟩
  | ok raw =>
    obtain ⟨out, hout, hbars⟩ : Gives (raw.mapM ((a'.toContext marks).toVenueCandle m period)) _ :=
      Gives.mapM gives_candle
    have hrun : (raw.mapM ((a'.toContext marks).toVenueCandle m period)).run = some out := hout
    refine ⟨out.mapError .convert, by simp [hrun], ?_⟩
    rw [Except.toOption, Option.bind_some, ← hbars]
    cases out <;> rfl

/-- The history of a market always ends, and what comes is whole. It comes where the market is
known, the venue has bars of the period and answers with ones that fit. -/
theorem candles_whole
    (hserves : ∀ id, ∀ res ∈ candleResolutions, net.Serves id res (times id res)) (hsince : since.HeldMilli) (htill : till.HeldMilli) : ∃ n, ∀ fuel ≥ n, ∃ r a' log',
      net.candles marks now later symbol period since till fuel a log = some (r, a', log') ∧
      (∀ bars, r = .ok bars → net.Whole marks symbol period since till times a' bars) ∧
      (∀ m a₁ log₁, net.rawMarket now later symbol a log = (.ok m, a₁, log₁) →
        period / Duration.second ∈ candleResolutions →
        net.Answers m.id (period / Duration.second)
          (fun w => (((a₁.toContext marks).barOf m period w).isSome)) → ∃ bars, r = .ok bars) := by
  refine ⟨(till - since).toNat + 1, fun fuel hfuel => ?_⟩
  rcases hraw : net.rawMarket now later symbol a log with ⟨found, a', log₁⟩
  cases found with
  | error e =>
    refine ⟨.error e, a', log₁, by simp [candles, hraw], fun bars h => ?_, fun m a₁ log₂ h => ?_⟩
    · cases h
    cases h
  | ok m =>
    by_cases hres : period / Duration.second ∈ candleResolutions
    · obtain ⟨fuel, rfl⟩ : ∃ n, fuel = n + 1 := ⟨fuel - 1, by omega⟩
      have hpages : till - since ≤ fuel := by
        have hle := Int.self_le_toNat (till - since)
        exact hle.trans (by exact_mod_cast Nat.le_of_succ_le_succ hfuel)
      have hpos := (toInt_pageStep hres).1
      have hends : ∃ r, net.fetchPages m.id (period / Duration.second) till (fuel + 1) since []
          log₁ = some r := fetchPages_isSome hres hpages
      obtain ⟨⟨fetched, log₂⟩, hfetched⟩ := hends
      have hfetch : net.fetchCandles m.id (period / Duration.second) since till (fuel + 1) log₁ =
          some (fetched, log₂) := by
        rw [fetchCandles, if_neg (by rwa [Int64.le_iff_toInt_le, not_le])]
        exact hfetched
      obtain ⟨r, hr, hout⟩ : ∃ r, net.candles marks now later symbol period since till (fuel + 1) a
          log = some (r, a', log₂) ∧ _ := candles_of_fetch hraw hres hfetch
      refine ⟨r, a', log₂, hr, fun bars hbars => ?_, fun m' a₁ log₃ hraw' _ hanswers => ?_⟩
      · obtain ⟨raw, hfetchedRaw, hmap⟩ :=
          Option.bind_eq_some_iff.mp (hout.symm.trans (congrArg Except.toOption hbars))
        obtain rfl := toOption_eq_some.mp hfetchedRaw
        obtain ⟨rest, rfl, htimes, hserved⟩ := fetchPages_whole (hserves m.id _ hres) hres
          (fun _ => hsince) htill hfetched
        exact ⟨m, _, row_of_rawMarket hraw, htimes, hserved, hmap⟩
      · cases hraw'
        obtain ⟨raw, log₄, heq, hfits⟩ := fetchPages_ok hanswers (fun w hw => by cases hw) hfetched
        cases heq
        obtain ⟨bars, hbars⟩ := mapM_eq_some hfits
        exact ⟨bars, toOption_eq_some.mp (hout.trans hbars)⟩
    · refine ⟨.error (.unsupported period), a', log₁, ?_, fun bars h => ?_,
        fun _ _ _ _ h => absurd h hres⟩
      · simp [candles, hraw, hres]
      · cases h

/-! ## Two bars of a minute -/

/-- The bars of the first minutes of 1970. -/
def firstBars (marketID : Int) (resolutionSec : Int64) : List WireCandle :=
  if marketID = 1 ∧ resolutionSec = 60 then
    [60000, 120000, 180000].map fun t => ⟨t, 10, 10, 10, 10, "", 0⟩
  else []

def firstMarket : Market := ⟨1, "BTC", "Bitcoin", 1, 5, 0⟩

/-- A venue that always answers. -/
def firstNetwork : Network where
  contextReply _ := .lost "timeout"
  candlesReply id res a b _ := .response 200 "" "" (.ok
    (((firstBars id res).filter fun w => a.toInt ≤ w.time.toInt ∧ w.time.toInt < b.toInt).take
      maxCandlesPerRequest))
  done _ _ := none

def firstTimes (marketID : Int) (resolutionSec : Int64) : List ℤ :=
  (firstBars marketID resolutionSec).map fun w => w.time.toInt

theorem firstNetwork_serves (id : Int) (res : Int64) :
    firstNetwork.Serves id res (firstTimes id res) := by
  refine ⟨?_, ?_, ?_⟩
  · rw [firstTimes, firstBars]
    split
    · decide
    · exact .nil
  · rw [firstTimes, firstBars]
    split
    · next h =>
      obtain ⟨-, rfl⟩ := h
      decide
    · exact fun t ht => by cases ht
  · intro a b log body edge page h
    have hpage : ((firstBars id res).filter fun w =>
        a.toInt ≤ w.time.toInt ∧ w.time.toInt < b.toInt).take maxCandlesPerRequest = page := by
      cases h
      rfl
    rw [← hpage, List.map_take, within, firstTimes, List.filter_map]
    rfl

def firstCache : MarketCache := ⟨[firstMarket], [firstMarket], 6, some (Time.unix 300)⟩

theorem isSome_barOf_first (t : Int64) :
    ((firstCache.toContext fun _ => none).barOf firstMarket Duration.minute
      ⟨t, 10, 10, 10, 10, "", 0⟩).isSome := by
  have hprice : Fixed.rescaled 10 1 = some 100000000 := by
    rw [← Fixed.toOption_fromScaled]
    decide
  have hvolume : (firstCache.toContext fun _ => none).amountOf "" = some 0 := rfl
  simp [Context.barOf, firstMarket, hprice, hvolume]

theorem candles_whole_first : ∃ n, ∀ fuel ≥ n, ∃ bars a' log',
    firstNetwork.candles (fun _ => none) (Time.unix 310) (Time.unix 310) "btc" Duration.minute
      (Time.unix 60) (Time.unix 180) fuel firstCache [] = some (.ok bars, a', log') ∧
    firstNetwork.Whole (fun _ => none) "btc" Duration.minute (Time.unix 60) (Time.unix 180)
      firstTimes a' bars := by
  have hserves : ∀ id, ∀ res ∈ candleResolutions, firstNetwork.Serves id res (firstTimes id res) :=
    fun id res _ => firstNetwork_serves id res
  have hsince : (Time.unix 60).HeldMilli := by decide
  have htill : (Time.unix 180).HeldMilli := by decide
  obtain ⟨n, hn⟩ : ∃ n, ∀ fuel ≥ n, ∃ r a' log',
      firstNetwork.candles (fun _ => none) (Time.unix 310) (Time.unix 310) "btc" Duration.minute
        (Time.unix 60) (Time.unix 180) fuel firstCache [] = some (r, a', log') ∧ _ :=
    candles_whole hserves hsince htill
  refine ⟨n, fun fuel hfuel => ?_⟩
  obtain ⟨r, a', log', hr, hwhole, hcomes⟩ := hn fuel hfuel
  have hraw : firstNetwork.rawMarket (Time.unix 310) (Time.unix 310) "btc" firstCache [] =
      (.ok firstMarket, firstCache, []) := by rfl
  have hanswers : firstNetwork.Answers 1 60 fun w =>
      ((firstCache.toContext fun _ => none).barOf firstMarket Duration.minute w).isSome := by
    intro a b log
    refine ⟨"", "", _, rfl, fun w hw => ?_⟩
    obtain ⟨t, -, rfl⟩ := List.mem_map.mp (List.mem_filter.mp (List.mem_of_mem_take hw)).1
    exact isSome_barOf_first t
  obtain ⟨bars, rfl⟩ := hcomes firstMarket firstCache [] hraw (by decide) hanswers
  exact ⟨bars, a', log', hr, hwhole bars rfl⟩

end Network

end Perpl

end SuperAgent
