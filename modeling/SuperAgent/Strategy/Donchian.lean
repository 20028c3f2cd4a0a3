import SuperAgent.Strategy.Bars
import SuperAgent.Venue.Order
import Mathlib.Order.Bounds.Basic

/-!
# The channel breakout

The channel spans the highest high and the lowest low of the last closed bars; a
bar that closes outside the channel of the bars before it is a break, and the
last one is remembered. What is reported depends on all bars accepted, of which
only a history is kept.
-/

namespace SuperAgent.Strategy

open Fixed (D)
open Venue (Side)

/-- One close outside a channel or a range. -/
structure Break where
  side : Side
  /-- When the bar that broke out closed. -/
  closedAt : Time
  /-- That bar's close, and the edge it closed beyond. -/
  price : D
  level : D
  deriving DecidableEq

/-- An open invitation to enter. -/
structure Window where
  side : Side
  openedAt : Time
  expiresAt : Time
  deriving DecidableEq

/-- The invitation of a signal, while it lasts. -/
def offered (window : Duration) (side : Side) (closedAt now : Time) : Option Window :=
  if now < closedAt.add window then some ⟨side, closedAt, closedAt.add window⟩ else none

/-- The sizes of the channel, the window and the history. -/
structure DonchianConfig where
  symbol : String
  period : Duration
  length : ℕ
  window : Duration
  history : ℕ

/-- The turtles' entry channel on one-minute bars. -/
def defaultDonchian (symbol : String) : DonchianConfig :=
  ⟨symbol, .minute, 20, 3 * .minute, 120⟩

/-- What is wrong with a configuration. -/
def DonchianConfig.validate (c : DonchianConfig) : Except String Unit :=
  if c.symbol = "" then .error "strategy: donchian needs a symbol"
  else if c.period ≤ 0 then .error "strategy: donchian needs a bar period"
  else if c.length < 2 then
    .error ("strategy: donchian length must be >= 2, got " ++ toString c.length)
  else if c.window ≤ 0 then .error "strategy: donchian needs a window"
  else if c.history < c.length + 1 then
    .error ("strategy: donchian history " ++ toString c.history ++ " cannot hold length " ++
      toString c.length ++ " plus one")
  else .ok ()

/-- The signal: the closed bars kept, the forming bar and the last breakout. -/
structure Donchian where
  bars : List Candle := []
  forming : Option Candle := none
  last : Option Break := none

/-- A channel with one bar more. -/
def widen (channel : D × D) (b : Candle) : D × D :=
  (if channel.1 < b.h then b.h else channel.1, if b.l < channel.2 then b.l else channel.2)

namespace DonchianConfig

variable (c : DonchianConfig)

/-- The highest high and the lowest low of the bars before a position, of which there must be
enough. -/
def channelBefore (bars : List Candle) (i : ℕ) : Option (D × D) :=
  if i < c.length then none
  else bars[i - 1]?.map fun b =>
    ((bars.take (i - 1)).drop (i - c.length)).foldl widen (b.h, b.l)

/-- The breakout of the bar at a position, if it closed outside its channel. -/
def breakAt (bars : List Candle) (i : ℕ) : Option Break :=
  match c.channelBefore bars i, bars[i]? with
  | some (upper, lower), some b =>
    if upper < b.c then some ⟨.long, b.open.add c.period, b.c, upper⟩
    else if b.c < lower then some ⟨.short, b.open.add c.period, b.c, lower⟩
    else none
  | _, _ => none

/-- Load closed history and replay it for the last breakout. -/
def seed (s : Seeding) (now : Time) : Donchian :=
  let bars := (s.closed now).rtake c.history
  { bars
    forming := s.forming now
    last := (List.range' c.length (bars.length - c.length)).foldl
      (fun last i => (c.breakAt bars i).or last) none }

/-- Feed one bar of the live stream. -/
def apply (d : Donchian) (b : Candle) (now : Time) : Donchian :=
  let forming := formingAfter d.forming d.bars b now
  if b.Closed now ∧ Follows d.bars b then
    let bars := (d.bars ++ [b]).rtake c.history
    { bars, forming, last := (c.breakAt bars (bars.length - 1)).or d.last }
  else { d with forming }

/-- The signal once an event happened. -/
def step (d : Donchian) : Event → Donchian
  | .seed s now => c.seed s now
  | .apply b now => c.apply d b now

/-- The signal a stream comes to, from an empty one. -/
def run (events : List Event) : Donchian := events.foldl c.step {}

end DonchianConfig

/-- One bar with the channel it had to break, zero while warming up. -/
structure DonchianPoint where
  openedAt : Time
  o : D
  h : D
  l : D
  c : D
  upper : D
  lower : D
  deriving DecidableEq

/-- What the screen renders. -/
structure DonchianState where
  symbol : String
  period : Duration
  length : ℕ
  upper : D
  lower : D
  points : List DonchianPoint
  forming : Bool
  window : Option Window
  lastBreak : Option Break
  ready : Bool
  deriving DecidableEq

/-- A bar drawn with a channel. -/
def Candle.channelled (b : Candle) (channel : D × D) : DonchianPoint :=
  ⟨b.open, b.o, b.h, b.l, b.c, channel.1, channel.2⟩

/-- The signal as of an instant. -/
def DonchianConfig.state (c : DonchianConfig) (d : Donchian) (now : Time) : DonchianState :=
  let channel := (c.channelBefore d.bars d.bars.length).getD (0, 0)
  { symbol := c.symbol
    period := c.period
    length := c.length
    upper := channel.1
    lower := channel.2
    points := d.bars.mapIdx (fun i b => b.channelled ((c.channelBefore d.bars i).getD (0, 0))) ++
      (d.forming.map (·.channelled channel)).toList
    forming := d.forming.isSome
    window := d.last.bind fun br => offered c.window br.side br.closedAt now
    lastBreak := d.last
    ready := c.length ≤ d.bars.length }

/-! ## Channels -/

/-- The highest high and the lowest low of some bars. -/
def Channel (bars : List Candle) (upper lower : D) : Prop :=
  IsGreatest {x | ∃ b ∈ bars, x = b.h} upper ∧ IsLeast {x | ∃ b ∈ bars, x = b.l} lower

/-- One bar spans its own channel. -/
theorem channel_singleton (b : Candle) : Channel [b] b.h b.l := by
  refine ⟨⟨⟨b, List.mem_cons_self, rfl⟩, ?_⟩, ⟨b, List.mem_cons_self, rfl⟩, ?_⟩
  · rintro _ ⟨x, hx, rfl⟩
    rw [List.mem_singleton.mp hx]
    exact Int64.le_refl _
  · rintro _ ⟨x, hx, rfl⟩
    rw [List.mem_singleton.mp hx]
    exact Int64.le_refl _

/-- Only which bars there are matters. -/
theorem Channel.perm {bars bars' : List Candle} {u l : D} (h : Channel bars u l)
    (hperm : bars.Perm bars') : Channel bars' u l := by
  have hmem : ∀ f : Candle → D, {x | ∃ b ∈ bars', x = f b} = {x | ∃ b ∈ bars, x = f b} := by
    intro f
    ext x
    simp only [Set.mem_ofPred_eq, hperm.mem_iff]
  rwa [Channel, hmem, hmem]

/-- Widening by a bar keeps the highest and the lowest. -/
theorem Channel.widen {bars : List Candle} {u l : D} (h : Channel bars u l) (b : Candle) :
    Channel (bars ++ [b]) (widen (u, l) b).1 (widen (u, l) b).2 := by
  obtain ⟨⟨⟨bu, hbu, hu⟩, hus⟩, ⟨bl, hbl, hl⟩, hls⟩ := h
  have hlast : b ∈ bars ++ [b] := List.mem_append_right bars List.mem_cons_self
  have hupper : IsGreatest {x | ∃ b' ∈ bars ++ [b], x = b'.h} (if u < b.h then b.h else u) := by
    split
    · next hlt =>
      refine ⟨⟨b, hlast, rfl⟩, ?_⟩
      rintro _ ⟨x, hx, rfl⟩
      rcases List.mem_append.mp hx with hx | hx
      · exact Int64.le_trans (hus ⟨x, hx, rfl⟩) (Int64.le_of_lt hlt)
      · rw [List.mem_singleton.mp hx]
        exact Int64.le_refl _
    · next hle =>
      refine ⟨⟨bu, List.mem_append_left _ hbu, hu⟩, ?_⟩
      rintro _ ⟨x, hx, rfl⟩
      rcases List.mem_append.mp hx with hx | hx
      · exact hus ⟨x, hx, rfl⟩
      · rw [List.mem_singleton.mp hx]
        exact Int64.not_lt.mp hle
  have hlower : IsLeast {x | ∃ b' ∈ bars ++ [b], x = b'.l} (if b.l < l then b.l else l) := by
    split
    · next hlt =>
      refine ⟨⟨b, hlast, rfl⟩, ?_⟩
      rintro _ ⟨x, hx, rfl⟩
      rcases List.mem_append.mp hx with hx | hx
      · exact Int64.le_trans (Int64.le_of_lt hlt) (hls ⟨x, hx, rfl⟩)
      · rw [List.mem_singleton.mp hx]
        exact Int64.le_refl _
    · next hle =>
      refine ⟨⟨bl, List.mem_append_left _ hbl, hl⟩, ?_⟩
      rintro _ ⟨x, hx, rfl⟩
      rcases List.mem_append.mp hx with hx | hx
      · exact hls ⟨x, hx, rfl⟩
      · rw [List.mem_singleton.mp hx]
        exact Int64.not_lt.mp hle
  exact ⟨hupper, hlower⟩

/-- Widening by more bars, one after the other. -/
theorem Channel.foldl_widen {bars : List Candle} {channel : D × D}
    (h : Channel bars channel.1 channel.2) (more : List Candle) :
    Channel (bars ++ more) (more.foldl Strategy.widen channel).1
      (more.foldl Strategy.widen channel).2 := by
  induction more generalizing bars channel with
  | nil => rwa [List.append_nil]
  | cons b more ih =>
    rw [List.foldl_cons, ← List.singleton_append, ← List.append_assoc]
    exact ih (h.widen b)

/-- Bars have one channel. -/
theorem Channel.unique {bars : List Candle} {u u' l l' : D} (h : Channel bars u l)
    (h' : Channel bars u' l') : u = u' ∧ l = l' := by
  obtain ⟨⟨hu, hub⟩, hl, hlb⟩ := h
  obtain ⟨⟨hu', hub'⟩, hl', hlb'⟩ := h'
  exact ⟨Int64.le_antisymm (hub' hu) (hub hu'), Int64.le_antisymm (hlb hl') (hlb' hl)⟩

namespace DonchianConfig

variable {c : DonchianConfig} {bars xs : List Candle} {i : ℕ}

/-- The channel before a position is that of the bars directly before it. -/
theorem channelBefore_spec (hlen : 0 < c.length) (hle : c.length ≤ i) (hi : i ≤ bars.length) :
    ∃ u l, c.channelBefore bars i = some (u, l) ∧ Channel ((bars.take i).rtake c.length) u l := by
  have hsome : i - 1 < bars.length := by omega
  have hspan : (bars.take i).rtake c.length =
      (bars.take (i - 1)).drop (i - c.length) ++ [bars[i - 1]] := by
    have htake : bars.take i = bars.take (i - 1) ++ [bars[i - 1]] := by
      rw [List.take_append_getElem hsome]
      congr 1
      omega
    have hdrop : i - c.length ≤ (bars.take (i - 1)).length := by
      rw [List.length_take]
      omega
    rw [List.rtake, List.length_take, Nat.min_eq_left hi, htake,
      List.drop_append_of_le_length hdrop]
  rw [channelBefore, if_neg (by omega), List.getElem?_eq_getElem hsome, Option.map_some, hspan]
  exact ⟨_, _, rfl, ((channel_singleton _).foldl_widen _).perm (List.perm_append_comm)⟩

/-- What is before a position is the same in a history that reaches back far enough. -/
theorem channelBefore_congr (hlen : 0 < c.length) {j : ℕ} (hi : c.length ≤ i)
    (hib : i ≤ bars.length) (hj : c.length ≤ j) (hjx : j ≤ xs.length)
    (h : (bars.take i).rtake c.length = (xs.take j).rtake c.length) :
    c.channelBefore bars i = c.channelBefore xs j := by
  obtain ⟨u, l, heq, hspan⟩ := channelBefore_spec hlen hi hib
  obtain ⟨u', l', heq', hspan'⟩ := channelBefore_spec hlen hj hjx
  rw [h] at hspan
  obtain ⟨rfl, rfl⟩ := hspan.unique hspan'
  rw [heq, heq']

theorem breakAt_of_lt (h : i < c.length) : c.breakAt bars i = none := by
  rw [breakAt, channelBefore, if_pos h]

/-- A break depends on its bar and the bars directly before it. -/
theorem breakAt_congr (hlen : 0 < c.length) {j : ℕ} (hi : c.length ≤ i) (hib : i ≤ bars.length)
    (hj : c.length ≤ j) (hjx : j ≤ xs.length) (hbar : bars[i]? = xs[j]?)
    (h : (bars.take i).rtake c.length = (xs.take j).rtake c.length) :
    c.breakAt bars i = c.breakAt xs j := by
  rw [breakAt, breakAt, channelBefore_congr hlen hi hib hj hjx h, hbar]

/-- Later bars do not change a break. -/
theorem breakAt_append (hlen : 0 < c.length) {b : Candle} (hi : i < xs.length) :
    c.breakAt (xs ++ [b]) i = c.breakAt xs i := by
  by_cases hlt : i < c.length
  · rw [breakAt_of_lt hlt, breakAt_of_lt hlt]
  · have hle := not_lt.mp hlt
    apply breakAt_congr hlen hle (by simp; omega) hle hi.le
    · rw [List.getElem?_append_left hi]
    · rw [List.take_append_of_le_length hi.le]

/-- The break of the last bar of a history is the one of the last bar of all. -/
theorem breakAt_rtake (hlen : 0 < c.length) (hroom : c.length < c.history) {b : Candle} :
    c.breakAt ((xs ++ [b]).rtake c.history) (((xs ++ [b]).rtake c.history).length - 1) =
      c.breakAt (xs ++ [b]) xs.length := by
  have hall : (xs ++ [b]).length = xs.length + 1 := by simp
  have hkept : ((xs ++ [b]).rtake c.history).length = min c.history (xs.length + 1) := by
    rw [length_rtake, hall]
  by_cases hfull : xs.length + 1 ≤ c.history
  · rw [rtake_of_length_le (by omega), hall, Nat.add_sub_cancel]
  · rw [hkept, Nat.min_eq_left (by omega)]
    have hplace : (xs ++ [b]).length - c.history + (c.history - 1) = xs.length := by omega
    apply breakAt_congr hlen (by omega) (by omega) (by omega) (by omega)
    · rw [getElem?_rtake, hplace]
    · rw [rtake_take_rtake (by omega) (by omega), hplace]

/-- Replaying a history remembers the last break in it. -/
theorem foldl_breakAt (bars : List Candle) :
    (List.range' c.length (bars.length - c.length)).foldl
      (fun last i => (c.breakAt bars i).or last) none = latest (c.breakAt bars) bars.length := by
  rw [foldl_or_range' fun i hi => breakAt_of_lt hi]
  by_cases hshort : c.length ≤ bars.length
  · rw [Nat.add_sub_cancel' hshort]
  · rw [latest_eq_none_iff.mpr fun i hi => breakAt_of_lt (by omega),
      latest_eq_none_iff.mpr fun i hi => breakAt_of_lt (by omega)]

/-- A valid configuration has a channel, and a history that holds one bar more. -/
theorem validate_eq_ok (h : c.validate = .ok ()) : 0 < c.length ∧ c.length < c.history := by
  unfold validate at h
  split_ifs at h
  constructor <;> omega

/-- The bars kept are the last of the bars accepted. -/
theorem run_bars (hvalid : c.validate = .ok ()) (events : List Event) :
    (c.run events).bars = (accepted events).rtake c.history := by
  obtain ⟨hlen, hroom⟩ := validate_eq_ok hvalid
  induction events using List.reverseRecOn with
  | nil => exact (List.rtake_nil _).symm
  | append_singleton events e ih =>
    have hstep : ∀ d : Donchian, (c.step d e).bars = acceptLast c.history d.bars e := by
      intro d
      cases e with
      | seed s now => rfl
      | apply b now =>
        rw [step, apply, acceptLast]
        split <;> rfl
    rw [run, List.foldl_append, accepted_append, ← acceptLast_rtake (by omega), ← ih]
    exact hstep _

/-- The bars kept are the last of the bars accepted, and the break remembered is the last one of
them all, where no seed is longer than the history. -/
theorem run_spec (hvalid : c.validate = .ok ()) {events : List Event}
    (hseeds : ∀ s now, .seed s now ∈ events → s.bars.length ≤ c.history) :
    (c.run events).bars = (accepted events).rtake c.history ∧
    (c.run events).last = latest (c.breakAt (accepted events)) (accepted events).length := by
  obtain ⟨hlen, hroom⟩ := validate_eq_ok hvalid
  induction events using List.reverseRecOn with
  | nil => exact ⟨(List.rtake_nil _).symm, rfl⟩
  | append_singleton events e ih =>
    have hrun : c.run (events ++ [e]) = c.step (c.run events) e := by
      rw [run, List.foldl_append]
      rfl
    obtain ⟨hbars, hlast⟩ := ih fun s now hs => hseeds s now (List.mem_append_left _ hs)
    rw [hrun, accepted_append]
    cases e with
    | seed s now =>
      have hle := (s.length_closed_le now).trans
        (hseeds s now (List.mem_append_right _ List.mem_cons_self))
      have hall : (s.closed now).rtake c.history = s.closed now := rtake_of_length_le hle
      refine ⟨rfl, ?_⟩
      change (List.range' c.length (((s.closed now).rtake c.history).length - c.length)).foldl
        (fun last i => (c.breakAt ((s.closed now).rtake c.history) i).or last) none = _
      rw [hall, foldl_breakAt]
      rfl
    | apply b now =>
      change ((c.apply (c.run events) b now).bars = (keep now (accepted events) b).rtake c.history ∧
        (c.apply (c.run events) b now).last = latest (c.breakAt (keep now (accepted events) b))
          (keep now (accepted events) b).length)
      have hfollows : Follows (c.run events).bars b ↔ Follows (accepted events) b := by
        rw [hbars, follows_rtake (by omega)]
      unfold apply keep
      dsimp only
      by_cases hkept : b.Closed now ∧ Follows (accepted events) b
      · rw [if_pos ⟨hkept.1, hfollows.mpr hkept.2⟩, if_pos hkept]
        dsimp only
        rw [hbars, rtake_rtake_append (by omega), breakAt_rtake hlen hroom, List.length_append,
          List.length_singleton, latest, hlast]
        exact ⟨rfl, congrArg _ (latest_congr fun i hi => (breakAt_append hlen hi).symm)⟩
      · rw [if_neg fun h => hkept ⟨h.1, hfollows.mp h.2⟩, if_neg hkept]
        exact ⟨hbars, hlast⟩

/-- A bar closed outside the channel of the bars directly before it, and how. -/
def BreaksOut (c : DonchianConfig) (xs : List Candle) (i : ℕ) (br : Break) : Prop :=
  ∃ b upper lower, c.length ≤ i ∧ xs[i]? = some b ∧
    Channel ((xs.take i).rtake c.length) upper lower ∧
    (upper < b.c ∧ br = ⟨.long, b.open.add c.period, b.c, upper⟩ ∨
      ¬ upper < b.c ∧ b.c < lower ∧ br = ⟨.short, b.open.add c.period, b.c, lower⟩)

/-- The code finds the breaks there are. -/
theorem breakAt_eq_some_iff (hlen : 0 < c.length) (hi : i < xs.length) {br : Break} :
    c.breakAt xs i = some br ↔ BreaksOut c xs i br := by
  by_cases hlt : i < c.length
  · rw [breakAt_of_lt hlt]
    exact iff_of_false (fun h => nomatch h) fun ⟨_, _, _, hle, _⟩ => absurd hlt (not_lt.mpr hle)
  · obtain ⟨u, l, heq, hspan⟩ := channelBefore_spec hlen (not_lt.mp hlt) hi.le
    have hbar := List.getElem?_eq_getElem hi
    rw [breakAt, heq, hbar]
    dsimp only
    constructor
    · intro h
      refine ⟨xs[i], u, l, not_lt.mp hlt, hbar, hspan, ?_⟩
      split_ifs at h with habove hbelow
      · exact .inl ⟨habove, (Option.some.inj h).symm⟩
      · exact .inr ⟨habove, hbelow, (Option.some.inj h).symm⟩
    · rintro ⟨b, u', l', -, hb, hspan', hbr⟩
      obtain rfl := Option.some.inj (hbar.symm.trans hb)
      obtain ⟨rfl, rfl⟩ := hspan.unique hspan'
      rcases hbr with ⟨habove, rfl⟩ | ⟨habove, hbelow, rfl⟩
      · rw [if_pos habove]
      · rw [if_neg habove, if_pos hbelow]

end DonchianConfig

/-- In any stream whose seeds are no longer than the history, the bars kept are ascending and no
more than the history, the channel shown is that of the last bars accepted, and the break
remembered is the last there was. -/
theorem donchian_as_defined (c : DonchianConfig) (hvalid : c.validate = .ok ())
    (events : List Event) (hseeds : ∀ s now, .seed s now ∈ events → s.bars.length ≤ c.history)
    (now : Time) :
    (c.run events).bars.Pairwise (fun a b => a.open < b.open) ∧
    (c.run events).bars.length ≤ c.history ∧
    (c.length ≤ (accepted events).length →
      Channel ((accepted events).rtake c.length) (c.state (c.run events) now).upper
        (c.state (c.run events) now).lower) ∧
    (∀ br, (c.state (c.run events) now).lastBreak = some br ↔
      ∃ i < (accepted events).length, c.BreaksOut (accepted events) i br ∧
        ∀ j, i < j → j < (accepted events).length → ∀ br', ¬ c.BreaksOut (accepted events) j br') ∧
    ((c.state (c.run events) now).lastBreak = none ↔
      ∀ i < (accepted events).length, ∀ br, ¬ c.BreaksOut (accepted events) i br) := by
  obtain ⟨hlen, hroom⟩ := DonchianConfig.validate_eq_ok hvalid
  obtain ⟨hbars, hlast⟩ := DonchianConfig.run_spec hvalid hseeds
  have hnone : ∀ i, i < (accepted events).length → (c.breakAt (accepted events) i = none ↔
      ∀ br, ¬ c.BreaksOut (accepted events) i br) := by
    intro i hi
    rw [Option.eq_none_iff_forall_ne_some]
    exact forall_congr' fun br => not_congr (DonchianConfig.breakAt_eq_some_iff hlen hi)
  refine ⟨?_, ?_, fun hready => ?_, fun br => ?_, ?_⟩
  · rw [hbars]
    exact (accepted_ascending events).sublist (List.drop_sublist _ _)
  · rw [hbars, length_rtake]
    exact Nat.min_le_left _ _
  · have hkept : c.length ≤ (c.run events).bars.length := by
      rw [hbars, length_rtake]
      omega
    obtain ⟨u, l, heq, hspan⟩ := DonchianConfig.channelBefore_spec hlen hkept le_rfl
    have hstate : ((c.state (c.run events) now).upper, (c.state (c.run events) now).lower) =
        (u, l) := congrArg (fun o => Option.getD o (0, 0)) heq
    rw [Prod.mk.injEq] at hstate
    rw [hstate.1, hstate.2, ← rtake_rtake hroom.le, ← hbars]
    rwa [List.take_length] at hspan
  · rw [show (c.state (c.run events) now).lastBreak = _ from hlast, latest_eq_some_iff]
    constructor
    · rintro ⟨i, hi, hbr, hafter⟩
      exact ⟨i, hi, (DonchianConfig.breakAt_eq_some_iff hlen hi).mp hbr,
        fun j hij hj => (hnone j hj).mp (hafter j hij hj)⟩
    · rintro ⟨i, hi, hbr, hafter⟩
      exact ⟨i, hi, (DonchianConfig.breakAt_eq_some_iff hlen hi).mpr hbr,
        fun j hij hj => (hnone j hj).mpr (hafter j hij hj)⟩
  · rw [show (c.state (c.run events) now).lastBreak = _ from hlast, latest_eq_none_iff]
    exact forall₂_congr hnone

/-- A bar that opens some minutes after the first day began, at one price throughout. -/
def minuteAt (n : ℕ) (price : D) : Candle :=
  ⟨n * 60000000000, .minute, price, price, price, price⟩

/-- Bars that close at these prices, each fed as it closes. -/
def fed (prices : List D) : List Event :=
  prices.mapIdx fun i price => .apply (minuteAt i price) ((i + 1) * 60000000000)

/-- Two bars of history, and one that closes above them. -/
def breakout : List Event :=
  [.seed ⟨[minuteAt 0 5, minuteAt 1 6], [minuteAt 0 5, minuteAt 1 6], .refl _, by decide⟩
    120000000000, .apply (minuteAt 2 7) 180000000000]

/-- A channel of two bars, and a history of one bar more, find the break. -/
theorem donchian_as_defined_breakout : ∃ i < (accepted breakout).length,
    (DonchianConfig.mk "BTC" .minute 2 (3 * .minute) 3).BreaksOut (accepted breakout) i
      ⟨.long, 180000000000, 7, 6⟩ ∧
    ∀ j, i < j → j < (accepted breakout).length →
      ∀ br, ¬ (DonchianConfig.mk "BTC" .minute 2 (3 * .minute) 3).BreaksOut
        (accepted breakout) j br := by
  have hseeds : ∀ s now, .seed s now ∈ breakout → s.bars.length ≤ 3 := by
    intro s now hs
    rcases List.mem_cons.mp hs with heq | hs
    · obtain rfl := (Event.seed.inj heq).1
      decide
    · rcases List.mem_singleton.mp hs with heq
      nomatch heq
  exact ((donchian_as_defined ⟨"BTC", .minute, 2, 3 * .minute, 3⟩ (by decide) breakout hseeds
    0).2.2.2.1 _).mp (by decide)

end SuperAgent.Strategy
