import SuperAgent.Core.Checked
import SuperAgent.Strategy.MACross
import SuperAgent.Strategy.ORB
import SuperAgent.Strategy.RSI

/-!
# The signals of a timeframe

Every strategy runs on the chart's timeframes, with its window and its history
scaled to the bar. The opening range is laid out on the bars' grid, but a bar
belongs to the session of its own opening: where a session opens inside a bar,
that bar is not in the range it begins.
-/

namespace SuperAgent.Platform

open Fixed (D)
open Strategy

/-- The bar sizes the signals run on. -/
def signalPeriods : List Duration := [.minute, 5 * .minute, 15 * .minute, 30 * .minute, .hour]

/-- How long a signal stays lit, in bars of its timeframe. -/
def windowBars : Duration := 3

/-- How many closed bars each timeframe keeps. -/
def historyBars (period : Duration) : ℕ := if period ≤ .minute then 120 else 60

/-- How the signals of a market on a timeframe are configured; each starts out empty. -/
structure FeedSet where
  macross : MACrossConfig
  rsi : RSIConfig
  donchian : DonchianConfig
  orb : ORBConfig

/-- The signals of a market on a timeframe, with the defaults scaled to the bar. -/
def newFeedSet (symbol : String) (p : Duration) : Except String FeedSet := do
  let macross := { defaultMACross symbol with
    period := p, window := windowBars * p, history := historyBars p }
  macross.validate
  let rsi := { defaultRSI symbol with
    period := p, window := windowBars * p, history := historyBars p }
  rsi.validate
  let donchian := { defaultDonchian symbol with
    period := p, window := windowBars * p, history := historyBars p }
  donchian.validate
  let orb := { defaultORB symbol with
    period := p, window := windowBars * p, history := historyBars p }
  orb.validate
  return { macross, rsi, donchian, orb }

/-- The configurations of a timeframe are the defaults scaled to it, and each passes its check. -/
structure FeedSet.Scaled (f : FeedSet) (symbol : String) (p : Duration) : Prop where
  macross : f.macross = ⟨symbol, p, 5, 20, windowBars * p, historyBars p⟩
  macross_valid : f.macross.validate = .ok ()
  rsi_valid : f.rsi.validate = .ok ()
  donchian : f.donchian = ⟨symbol, p, 20, windowBars * p, historyBars p⟩
  donchian_valid : f.donchian.validate = .ok ()
  orb : f.orb = ⟨symbol, p, defaultOpens, 15 * .minute, 4 * .hour, windowBars * p, historyBars p⟩
  orb_valid : f.orb.validate = .ok ()

theorem newFeedSet_scaled {symbol : String} {p : Duration} {f : FeedSet}
    (h : newFeedSet symbol p = .ok f) : f.Scaled symbol p := by
  unfold newFeedSet at h
  obtain ⟨_, hmacross, h⟩ := bind_eq_ok.mp h
  obtain ⟨_, hrsi, h⟩ := bind_eq_ok.mp h
  obtain ⟨_, hdonchian, h⟩ := bind_eq_ok.mp h
  obtain ⟨_, horb, h⟩ := bind_eq_ok.mp h
  obtain rfl := Except.ok.inj h
  exact ⟨rfl, hmacross, hrsi, rfl, hdonchian, rfl, horb⟩

/-! ## Gap-free streams -/

/-- Closed bars of one timeframe on its grid, each opening where the one before ends. -/
structure GapFree (p : Duration) (xs : List Candle) : Prop where
  period : ∀ a ∈ xs, a.period = p
  grid : ∀ a ∈ xs, a.open % p.toInt = 0
  next : xs.IsChain fun a b => b.open = a.open.add p

/-- On a grid, what is between two bars of a gap-free stream is a bar of it. -/
theorem exists_open {p t first : ℤ} {opens : List ℤ} (hp : 0 < p)
    (hgrid : ∀ a ∈ opens, a % p = 0) (hnext : opens.IsChain fun a b => b = a + p)
    (ht : t % p = 0) (hfirst : opens.head? = some first) (hle : first ≤ t)
    (hlast : ∃ a ∈ opens, t ≤ a) : t ∈ opens := by
  induction opens generalizing first with
  | nil => exact nomatch hfirst
  | cons a opens ih =>
    obtain rfl := Option.some.inj hfirst
    by_cases heq : t = a
    · rw [heq]
      exact List.mem_cons_self
    · obtain ⟨b, hb, htb⟩ := hlast
      have hmem : b ∈ opens := by
        rcases List.mem_cons.mp hb with rfl | hmem
        · exact absurd (le_antisymm htb hle) heq
        · exact hmem
      cases opens with
      | nil => exact nomatch hmem
      | cons a' opens =>
        obtain ⟨hstep, hrest⟩ := List.isChain_cons_cons.mp hnext
        have ha := hgrid a List.mem_cons_self
        have hafter : a' ≤ t := by
          rw [hstep]
          have hmul : ∀ m n : ℤ, m * p < n * p → m * p + p ≤ n * p := by
            intro m n hlt
            have hlt' := lt_of_mul_lt_mul_right hlt hp.le
            calc m * p + p = (m + 1) * p := by ring
              _ ≤ n * p := Int.mul_le_mul_of_nonneg_right hlt' hp.le
          obtain ⟨m, hm⟩ := Int.dvd_of_emod_eq_zero ha
          obtain ⟨n, hn⟩ := Int.dvd_of_emod_eq_zero ht
          rw [Int.mul_comm] at hm hn
          have hlt : a < t := lt_of_le_of_ne hle (Ne.symm heq)
          rw [hm, hn] at hlt ⊢
          exact hmul m n hlt
        exact List.mem_cons_of_mem _ (ih (fun x hx => hgrid x (List.mem_cons_of_mem _ hx)) hrest
          rfl hafter ⟨b, hmem, htb⟩)

/-- An instant rounded down to the grid. -/
theorem floor_grid (x : ℤ) {d : ℤ} (hd : 0 < d) : (x - x % d) % d = 0 ∧ x - x % d ≤ x ∧
    x < x - x % d + d ∧ (x - x % d < x ↔ x % d ≠ 0) := by
  have hrest := Int.emod_nonneg x hd.ne'
  have hlt := Int.emod_lt_of_pos x hd
  refine ⟨?_, ?_, ?_, ?_⟩
  · rw [Int.emod_def x, sub_sub_cancel, Int.mul_emod_right]
  · omega
  · omega
  · omega

/-- The grid has one point in each step. -/
theorem grid_unique {a m d : ℤ} (ha : a % d = 0) (hm : m % d = 0) (hle : m ≤ a)
    (hlt : a < m + d) : a = m := by
  have hdiff : (a - m) % d = 0 := by rw [Int.sub_emod, ha, hm, sub_zero, Int.zero_emod]
  rw [Int.emod_eq_of_lt (by omega) (by omega)] at hdiff
  omega

/-! ## The range of a session -/

/-- The bars that open in a session's range. -/
def rangeBars (xs : List Candle) (s : ORBSession) : List Candle :=
  xs.filter fun a => s.rangeFrom ≤ a.open ∧ a.open < s.rangeUntil

/-- The range begins with the bar that holds the open; its bars are those that open in it, and a
range the bars cover has some. -/
structure Ranged (p : Duration) (xs : List Candle) (s : ORBSession) : Prop where
  grid : s.rangeFrom % p.toInt = 0
  holds : s.rangeFrom ≤ s.openAt ∧ s.openAt < s.rangeFrom.add p
  bars : s.bars = (rangeBars xs s).length
  range : rangeBars xs s ≠ [] → Channel (rangeBars xs s) s.high s.low
  covered : (∃ a ∈ xs, a.open ≤ s.rangeFrom) → 0 < s.bars

/-- New York opens inside an hourly bar, and there is that bar. -/
def Splits (p : Duration) (xs : List Candle) (s : ORBSession) : Prop :=
  p = .hour ∧ s.openAt % Duration.day.toInt = (13 * .hour + 30 * .minute : Duration).toInt ∧
    ∃ a ∈ xs, a.open = s.rangeFrom

/-- All opens are on the grid, but New York's on the hourly one. -/
theorem open_off_grid_iff {c : ORBConfig} (hopens : c.opens = defaultOpens) {p : Duration}
    (hp : p ∈ signalPeriods) {x : ℤ} (hx : c.IsOpen x) : x % p.toInt ≠ 0 ↔
      p = .hour ∧ x % Duration.day.toInt = (13 * .hour + 30 * .minute : Duration).toInt := by
  obtain ⟨day, off, hoff, rfl⟩ := hx
  rw [hopens] at hoff
  have hday : Duration.day.toInt = 86400000000000 := by decide
  have hoffs : off.toInt = 0 ∨ off.toInt = 28800000000000 ∨ off.toInt = 48600000000000 := by
    simp only [defaultOpens, List.mem_cons, List.not_mem_nil, or_false] at hoff
    rcases hoff with rfl | rfl | rfl <;> decide
  have hnewYork : (13 * .hour + 30 * .minute : Duration).toInt = 48600000000000 := by decide
  have hsize : (p ≠ .hour ∧ p.toInt ∣ 1800000000000) ∨ p = .hour := by
    simp only [signalPeriods, List.mem_cons, List.not_mem_nil, or_false] at hp
    rcases hp with rfl | rfl | rfl | rfl | rfl <;> decide
  rw [hday, hnewYork]
  rcases hsize with ⟨hne, hdvd⟩ | rfl
  · refine iff_of_false (not_not.mpr (Int.emod_eq_zero_of_dvd (hdvd.trans ?_))) fun h => hne h.1
    rcases hoffs with h | h | h <;> rw [h] <;> omega
  · have hhour : Duration.hour.toInt = 3600000000000 := by decide
    rw [hhour]
    simp only [true_and]
    rcases hoffs with h | h | h <;> rw [h] <;> omega

section Range

variable {c : ORBConfig} {p : Duration} {xs : List Candle} {b : Candle} {s : ORBSession}

/-- Up to a bar, the bars of its session are those since the open. -/
theorem session_eq_iff (hvalid : c.validate = .ok ()) {t u : Time} (hle : t ≤ u) :
    (c.sessionAt t).openAt = (c.sessionAt u).openAt ↔ (c.sessionAt u).openAt ≤ t := by
  constructor
  · intro h
    rw [← h]
    exact ORBConfig.openAt_le hvalid t
  · intro h
    apply le_antisymm (ORBConfig.openAt_mono hvalid hle)
    exact (ORBConfig.openAt_spec hvalid t).2 ⟨(ORBConfig.openAt_spec hvalid u).1.1, h⟩

/-- The session's bars in its range are the bars in its range, without those before the open. -/
theorem rangeOf_eq (hvalid : c.validate = .ok ()) (hs : c.Tracks xs s)
    (hopen : s.openAt = (c.sessionAt b.open).openAt) (hle : ∀ a ∈ xs, a.open ≤ b.open) :
    c.rangeOf xs s.openAt = (rangeBars xs s).filter fun a => s.openAt ≤ a.open := by
  rw [ORBConfig.rangeOf, rangeBars, List.filter_filter, hs.rangeFrom, hs.rangeUntil]
  apply List.filter_congr
  intro a ha
  rw [hopen, ← Bool.decide_and, decide_eq_decide, session_eq_iff hvalid (hle a ha)]

/-- The range is what it should be exactly where no bar of it is before the open. -/
theorem tracked_range_iff (hvalid : c.validate = .ok ()) (hs : c.Tracks xs s)
    (hopen : s.openAt = (c.sessionAt b.open).openAt) (hle : ∀ a ∈ xs, a.open ≤ b.open) :
    (s.bars = (rangeBars xs s).length ∧
      (rangeBars xs s ≠ [] → Channel (rangeBars xs s) s.high s.low)) ↔
        ∀ a ∈ rangeBars xs s, s.openAt ≤ a.open := by
  have hrange := rangeOf_eq hvalid hs hopen hle
  constructor
  · rintro ⟨hbars, -⟩ a ha
    rw [hs.bars, hrange] at hbars
    have hall := List.filter_sublist.eq_of_length hbars
    rw [← hall] at ha
    exact of_decide_eq_true (List.mem_filter.mp ha).2
  · intro hall
    have hsame : c.rangeOf xs s.openAt = rangeBars xs s := by
      rw [hrange, List.filter_eq_self]
      exact fun a ha => decide_eq_true (hall a ha)
    rw [← hsame]
    exact ⟨hs.bars, hs.range⟩

/-- A range that the bars cover has its first bar. -/
theorem GapFree.covered (hpos : 0 < p.toInt) (h : GapFree p xs)
    (hsorted : xs.Pairwise fun a b => a.open < b.open) (hgrid : s.rangeFrom % p.toInt = 0)
    (hfirst : ∃ a ∈ xs, a.open ≤ s.rangeFrom) (hlast : ∃ a ∈ xs, s.rangeFrom ≤ a.open) :
    ∃ a ∈ xs, a.open = s.rangeFrom := by
  have hopens : s.rangeFrom ∈ xs.map Candle.open := by
    obtain ⟨a, ha, hle⟩ := hfirst
    obtain ⟨b, hb, hge⟩ := hlast
    cases xs with
    | nil => exact nomatch ha
    | cons first xs =>
      have hhead : first.open ≤ s.rangeFrom := by
        rcases List.mem_cons.mp ha with rfl | hin
        · exact hle
        · exact le_trans ((List.pairwise_cons.mp hsorted).1 a hin).le hle
      apply exists_open hpos _ _ hgrid rfl hhead ⟨b.open, List.mem_map_of_mem hb, hge⟩
      · intro x hx
        obtain ⟨y, hy, rfl⟩ := List.mem_map.mp hx
        exact h.grid y hy
      · exact (List.isChain_map Candle.open).mpr h.next
  exact List.mem_map.mp hopens

end Range

/-- For every timeframe the signals run on, and every gap-free stream of its bars: once a bar was
accepted, the range of its session is what the bars that open in it make it, exactly where New York
does not open inside a bar of the stream. -/
theorem range_is_the_range_iff (symbol : String) (p : Duration) (hp : p ∈ signalPeriods)
    (f : FeedSet) (hf : newFeedSet symbol p = .ok f) (events : List Event)
    (hfree : GapFree p (accepted events)) (b : Candle)
    (hlast : (accepted events).getLast? = some b) :
    ∃ s, (f.orb.run events).cur = some s ∧ s.openAt = (f.orb.sessionAt b.open).openAt ∧
      (Ranged p (accepted events) s ↔ ¬ Splits p (accepted events) (f.orb.sessionAt b.open)) := by
  have hscaled := newFeedSet_scaled hf
  have hvalid := hscaled.orb_valid
  have hperiod : f.orb.period = p := by rw [hscaled.orb]
  have hopens : f.orb.opens = defaultOpens := by rw [hscaled.orb]
  have hpos : 0 < p.toInt := hperiod ▸ (ORBConfig.validate_eq_ok hvalid).1
  have hspan : 0 < f.orb.rangeSpan.toInt := by
    have hrange : f.orb.range = 15 * .minute := by rw [hscaled.orb]
    rw [ORBConfig.rangeSpan, hperiod, hrange]
    split
    · exact hpos
    · decide
  have hsorted := accepted_ascending events
  have hknows := (ORBConfig.kept_run hvalid events).knows
  cases hcur : (f.orb.run events).cur with
  | none =>
    rw [hcur] at hknows
    have hnil : accepted events = [] := hknows
    rw [hnil] at hlast
    exact nomatch hlast
  | some s =>
    rw [hcur] at hknows
    obtain ⟨htracks, last, hlast', hopen⟩ := hknows
    obtain rfl := Option.some.inj (hlast.symm.trans hlast')
    refine ⟨s, rfl, hopen, ?_⟩
    have hle : ∀ a ∈ accepted events, a.open ≤ b.open := by
      obtain ⟨init, hinit⟩ := List.getLast?_eq_some_iff.mp hlast
      rw [hinit] at hsorted ⊢
      intro a ha
      rcases List.mem_append.mp ha with hin | hmem
      · exact ((List.pairwise_append.mp hsorted).2.2 a hin b List.mem_cons_self).le
      · rw [List.mem_singleton.mp hmem]
    have hfrom : s.rangeFrom = s.openAt - s.openAt % p.toInt := by
      rw [htracks.rangeFrom, ← hperiod]
      rfl
    have huntil : s.rangeFrom < s.rangeUntil := by
      rw [htracks.rangeUntil, htracks.rangeFrom]
      exact Int.lt_add_of_pos_right _ hspan
    have hsession : f.orb.sessionAt b.open = f.orb.layout s.openAt := by
      rw [hopen]
      rfl
    have hisOpen : f.orb.IsOpen s.openAt := by
      rw [hopen]
      exact (ORBConfig.openAt_spec hvalid b.open).1.1
    have hsplits : Splits p (accepted events) (f.orb.sessionAt b.open) ↔
        s.openAt % p.toInt ≠ 0 ∧ ∃ a ∈ accepted events, a.open = s.rangeFrom := by
      rw [open_off_grid_iff hopens hp hisOpen, htracks.rangeFrom, hsession, Splits, and_assoc]
      rfl
    obtain ⟨hgrid, hbefore, hwithin, hoff⟩ := floor_grid s.openAt hpos
    rw [← hfrom] at hgrid hbefore hwithin hoff
    have hranges := tracked_range_iff hvalid htracks hopen hle
    rw [hsplits]
    constructor
    · rintro hranged ⟨hinside, a, ha, hat⟩
      have hin : a ∈ rangeBars (accepted events) s := by
        refine List.mem_filter.mpr ⟨ha, decide_eq_true ⟨?_, ?_⟩⟩
        · exact le_of_eq hat.symm
        · rwa [hat]
      have hafter := hranges.mp ⟨hranged.bars, hranged.range⟩ a hin
      rw [hat] at hafter
      exact absurd (hoff.mpr hinside) (not_lt.mpr hafter)
    · intro hnot
      have hall : ∀ a ∈ rangeBars (accepted events) s, s.openAt ≤ a.open := by
        intro a ha
        obtain ⟨hmem, hin⟩ := List.mem_filter.mp ha
        obtain ⟨hsince, -⟩ := of_decide_eq_true hin
        by_contra hearly
        have hbeforeOpen := not_le.mp hearly
        have hat := grid_unique (hfree.grid a hmem) hgrid hsince (hbeforeOpen.trans hwithin)
        exact hnot ⟨hoff.mp (lt_of_le_of_lt hsince hbeforeOpen), a, hmem, hat⟩
      obtain ⟨hbars, hrange⟩ := hranges.mpr hall
      refine ⟨hgrid, ⟨hbefore, hwithin⟩, hbars, hrange, fun hfirst => ?_⟩
      obtain ⟨a, ha, hat⟩ := hfree.covered hpos hsorted hgrid hfirst
        ⟨b, List.mem_of_getLast? hlast, le_trans hbefore (hopen ▸ ORBConfig.openAt_le hvalid b.open)⟩
      rw [hbars]
      apply List.length_pos_of_mem (a := a)
      refine List.mem_filter.mpr ⟨ha, decide_eq_true ⟨le_of_eq hat.symm, ?_⟩⟩
      rwa [hat]

/-- The signals of one market on a timeframe. -/
def bitcoinFeeds (p : Duration) : FeedSet where
  macross := ⟨"BTC", p, 5, 20, windowBars * p, historyBars p⟩
  rsi := ⟨"BTC", p, 14, Fixed.fromInt 30, Fixed.fromInt 70, windowBars * p, historyBars p⟩
  donchian := ⟨"BTC", p, 20, windowBars * p, historyBars p⟩
  orb := ⟨"BTC", p, defaultOpens, 15 * .minute, 4 * .hour, windowBars * p, historyBars p⟩

/-- Two minutes since midnight, in the range. -/
theorem range_is_the_range_midnight : ∃ s,
    ((bitcoinFeeds .minute).orb.run (fed [5, 6])).cur = some s ∧
      Ranged .minute (accepted (fed [5, 6])) s := by
  have hfree : GapFree .minute (accepted (fed [5, 6])) := ⟨by decide +kernel, by decide +kernel, by decide +kernel⟩
  obtain ⟨s, hs, -, hiff⟩ := range_is_the_range_iff "BTC" .minute (by decide +kernel)
    (bitcoinFeeds .minute) rfl (fed [5, 6]) hfree (minuteAt 1 6) (by decide +kernel)
  exact ⟨s, hs, hiff.mpr fun hsplits => absurd hsplits.1 (by decide +kernel)⟩

/-- The hours from one in the afternoon of a day in September. -/
def hourAt (n : ℕ) (price : D) : Candle :=
  ⟨Time.unix 1789045200 + n * 3600000000000, .hour, price, price, price, price⟩

/-- The hour New York opens in, and the next. -/
def newYork : List Event :=
  [.apply (hourAt 0 5) (hourAt 1 6).open, .apply (hourAt 1 6) (hourAt 2 6).open]

/-- The bar that New York opens in is not in the range: there is none to break. -/
theorem range_misses_first_bar : newFeedSet "BTC" .hour = .ok (bitcoinFeeds .hour) ∧
    GapFree .hour (accepted newYork) ∧ ∃ s, ((bitcoinFeeds .hour).orb.run newYork).cur = some s ∧
      s.rangeUntil ≤ (hourAt 1 6).open ∧ s.bars = 0 ∧ hourAt 0 5 ∈ rangeBars (accepted newYork) s ∧
      ¬ Ranged .hour (accepted newYork) s := by
  have hfree : GapFree .hour (accepted newYork) := ⟨by decide +kernel, by decide +kernel, by decide +kernel⟩
  have hcur : ((bitcoinFeeds .hour).orb.run newYork).cur =
      some ((bitcoinFeeds .hour).orb.sessionAt (hourAt 1 6).open) := by decide +kernel
  refine ⟨rfl, hfree, _, hcur, by decide +kernel, by decide +kernel, by decide +kernel, fun hranged => ?_⟩
  exact absurd (hranged.covered ⟨hourAt 0 5, by decide +kernel, by decide +kernel⟩) (by decide +kernel)

end SuperAgent.Platform
