import SuperAgent.Core.Run
import SuperAgent.Core.Signs
import SuperAgent.Fixed.Exact
import SuperAgent.Strategy.Donchian

/-!
# The moving-average cross

A fast average of the closes crosses a slow one where their difference changes
its sign. What the sign last was is looked for in the history kept, so that it
is forgotten where the averages were equal for longer.
-/

namespace SuperAgent.Strategy

open Fixed (D)
open Venue (Side)

/-- The sizes of the averages, the window and the history. -/
structure MACrossConfig where
  symbol : String
  period : Duration
  fast : ℕ
  slow : ℕ
  window : Duration
  history : ℕ

/-- Five over twenty on one-minute bars. -/
def defaultMACross (symbol : String) : MACrossConfig :=
  ⟨symbol, .minute, 5, 20, 3 * .minute, 120⟩

/-- What is wrong with a configuration. -/
def MACrossConfig.validate (c : MACrossConfig) : Except String Unit :=
  if c.symbol = "" then .error "strategy: ma cross needs a symbol"
  else if c.period ≤ 0 then .error "strategy: ma cross needs a bar period"
  else if c.fast < 1 ∨ c.slow ≤ c.fast then
    .error ("strategy: ma cross needs 1 <= fast < slow, got " ++ toString c.fast ++ "/" ++
      toString c.slow)
  else if c.window ≤ 0 then .error "strategy: ma cross needs a window"
  else if c.history < c.slow + 1 then
    .error ("strategy: ma cross history " ++ toString c.history ++ " cannot hold slow " ++
      toString c.slow ++ " plus one")
  else .ok ()

/-- One crossing of the averages. -/
structure Cross where
  side : Side
  /-- When the bar that produced the cross closed. -/
  closedAt : Time
  deriving DecidableEq

/-- The signal: the closed bars kept, the forming bar and the crosses found since the seed, of
which the last is remembered. -/
structure MACross where
  bars : List Candle := []
  forming : Option Candle := none
  crosses : List Cross := []
  deriving DecidableEq

/-- The cross remembered. -/
def MACross.last (m : MACross) : Option Cross := m.crosses.getLast?

/-- How two decimals are ordered. -/
def cmp (a b : D) : ℤ := if a < b then -1 else if b < a then 1 else 0

namespace MACrossConfig

variable (c : MACrossConfig)

/-- The simple moving average of the closes that end at a position. -/
def averageAt (bars : List Candle) (i n : ℕ) : Option D :=
  Fixed.div (((bars.take (i + 1)).drop (i + 1 - n)).foldl (fun sum b => sum + b.c) 0)
    (Fixed.fromInt (Int64.ofNat n))

/-- The sign of fast minus slow at a position, or zero where there are not enough bars. -/
def spreadAt (bars : List Candle) (i : ℕ) : Option ℤ :=
  if i + 1 < c.slow then some 0 else do
    let fast ← averageAt bars i c.fast
    let slow ← averageAt bars i c.slow
    return cmp fast slow

/-- The sign at the last position before one where the averages were apart. -/
def apartBefore (bars : List Candle) : ℕ → Option ℤ
  | 0 => some 0
  | j + 1 =>
    if j < c.slow - 1 then some 0
    else (c.spreadAt bars j).bind fun spread =>
      if spread = 0 then apartBefore bars j else some spread

/-- The cross of the bar at a position, if it closed with the averages on the other side of each
other than where they were last apart. -/
def crossAt (bars : List Candle) (i : ℕ) : Option (Option Cross) :=
  if i < c.slow then some none
  else (c.spreadAt bars i).bind fun cur =>
    if cur = 0 then some none
    else (c.apartBefore bars i).map fun prev =>
      if prev ≠ 0 ∧ (0 < prev ↔ 0 < cur) then none
      else bars[i]?.map fun b => ⟨if cur < 0 then .short else .long, b.open.add c.period⟩

/-- The crosses of the first positions, oldest first; there are none before enough bars. -/
def replay (bars : List Candle) : ℕ → Option (List Cross)
  | 0 => some []
  | n + 1 => (replay bars n).bind fun found =>
      (c.crossAt bars n).map fun cross => found ++ cross.toList

/-- Load closed history and replay it for its crosses. -/
def seed (s : Seeding) (now : Time) : Option MACross :=
  let bars := (s.closed now).rtake c.history
  (c.replay bars bars.length).map fun crosses => ⟨bars, s.forming now, crosses⟩

/-- Feed one bar of the live stream. -/
def apply (m : MACross) (b : Candle) (now : Time) : Option MACross :=
  let forming := formingAfter m.forming m.bars b now
  if b.Closed now ∧ Follows m.bars b then
    let bars := (m.bars ++ [b]).rtake c.history
    (c.crossAt bars (bars.length - 1)).map fun cross => ⟨bars, forming, m.crosses ++ cross.toList⟩
  else some { m with forming }

/-- The signal once an event happened. -/
def step (m : MACross) : Event → Option MACross
  | .seed s now => c.seed s now
  | .apply b now => c.apply m b now

/-- The signal a stream comes to, from an empty one, unless an average panics. -/
def run (events : List Event) : Option MACross := events.foldlM c.step {}

end MACrossConfig

/-- Which average is on top. -/
inductive Trend
  | up
  | down
  | flat
  deriving DecidableEq

/-- One bar with the averages as of it, zero while there is not enough history. -/
structure Point where
  openedAt : Time
  o : D
  h : D
  l : D
  c : D
  fast : D
  slow : D
  deriving DecidableEq

/-- What the screen renders. -/
structure MACrossState where
  symbol : String
  period : Duration
  fast : ℕ
  slow : ℕ
  points : List Point
  forming : Bool
  trend : Trend
  window : Option Window
  lastCross : Option Cross
  ready : Bool
  deriving DecidableEq

namespace MACrossConfig

variable (c : MACrossConfig)

/-- The closed bar at a position, drawn with its averages. -/
def pointAt (bars : List Candle) (i : ℕ) (b : Candle) : Option Point := do
  let fast ← if c.fast ≤ i + 1 then averageAt bars i c.fast else some 0
  let slow ← if c.slow ≤ i + 1 then averageAt bars i c.slow else some 0
  return ⟨b.open, b.o, b.h, b.l, b.c, fast, slow⟩

/-- Which average is on top as of the last closed bar. -/
def trendOf (bars : List Candle) : Option Trend :=
  if bars = [] then some .flat
  else (c.spreadAt bars (bars.length - 1)).map fun spread =>
    if spread = 1 then .up else if spread = -1 then .down else .flat

/-- The signal as of an instant. -/
def state (m : MACross) (now : Time) : Option MACrossState := do
  let closed ← m.bars.zipIdx.mapM fun p => c.pointAt m.bars p.2 p.1
  let trend ← c.trendOf m.bars
  return {
    symbol := c.symbol
    period := c.period
    fast := c.fast
    slow := c.slow
    points := closed ++ (m.forming.map fun f => ⟨f.open, f.o, f.h, f.l, f.c, 0, 0⟩).toList
    forming := m.forming.isSome
    trend
    window := m.last.bind fun x => offered c.window x.side x.closedAt now
    lastCross := m.last
    ready := c.slow ≤ m.bars.length }

end MACrossConfig

/-! ## What a bar's sign depends on -/

namespace MACrossConfig

variable {c : MACrossConfig} {bars xs : List Candle} {b : Candle} {i j n : ℕ}

/-- The sign the averages have at a position, zero where there is none. -/
def sign (c : MACrossConfig) (xs : List Candle) (i : ℕ) : ℤ := (c.spreadAt xs i).getD 0

/-- A valid configuration has two averages, and a history that holds one bar more than the slow
one needs. -/
theorem validate_eq_ok (h : c.validate = .ok ()) :
    1 ≤ c.fast ∧ c.fast < c.slow ∧ c.slow < c.history := by
  unfold validate at h
  split_ifs at h
  refine ⟨?_, ?_, ?_⟩ <;> omega

/-- An average depends on the bars it is of. -/
theorem averageAt_congr (hi : i < bars.length) (hj : j < xs.length) {m : ℕ} (hmn : m ≤ n)
    (h : (bars.take (i + 1)).rtake n = (xs.take (j + 1)).rtake n) :
    averageAt bars i m = averageAt xs j m := by
  have hslice : ∀ (l : List Candle) (k : ℕ), k < l.length →
      (l.take (k + 1)).drop (k + 1 - m) = ((l.take (k + 1)).rtake n).rtake m := by
    intro l k hk
    rw [rtake_rtake hmn, List.rtake, List.length_take, Nat.min_eq_left hk]
  rw [averageAt, averageAt, hslice bars i hi, hslice xs j hj, h]

/-- A sign depends on the bars of the slow average. -/
theorem spreadAt_congr (hvalid : c.validate = .ok ()) (hi : i < bars.length) (hj : j < xs.length)
    (hslow : c.slow ≤ i + 1) (hslow' : c.slow ≤ j + 1)
    (h : (bars.take (i + 1)).rtake c.slow = (xs.take (j + 1)).rtake c.slow) :
    c.spreadAt bars i = c.spreadAt xs j := by
  have hfast := (validate_eq_ok hvalid).2.1.le
  rw [spreadAt, spreadAt, if_neg (by omega), if_neg (by omega), averageAt_congr hi hj hfast h,
    averageAt_congr hi hj le_rfl h]

theorem spreadAt_of_lt (h : i + 1 < c.slow) : c.spreadAt bars i = some 0 := if_pos h

theorem sign_of_lt (h : i + 1 < c.slow) : c.sign xs i = 0 := by
  rw [sign, spreadAt_of_lt h]
  rfl

/-- Later bars do not change a sign. -/
theorem spreadAt_append (hvalid : c.validate = .ok ()) (hi : i < xs.length) :
    c.spreadAt (xs ++ [b]) i = c.spreadAt xs i := by
  by_cases hlt : i + 1 < c.slow
  · rw [spreadAt_of_lt hlt, spreadAt_of_lt hlt]
  · have hlen : (xs ++ [b]).length = xs.length + 1 := by simp
    apply spreadAt_congr hvalid (by omega) hi (by omega) (by omega)
    rw [List.take_append_of_le_length (by omega)]

/-- A sign is the same in a history that reaches back far enough. -/
theorem spreadAt_rtake (hvalid : c.validate = .ok ()) (hi : i < (xs.rtake n).length)
    (hslow : c.slow ≤ i + 1) :
    c.spreadAt (xs.rtake n) i = c.spreadAt xs (xs.length - n + i) := by
  have hlen : (xs.rtake n).length = min n xs.length := length_rtake
  apply spreadAt_congr hvalid hi (by omega) hslow (by omega)
  rw [rtake_take_rtake (by omega) hslow, Nat.add_assoc]

/-- A sign is one of three. -/
theorem sign_cases (c : MACrossConfig) (xs : List Candle) (i : ℕ) :
    c.sign xs i = -1 ∨ c.sign xs i = 0 ∨ c.sign xs i = 1 := by
  have hcmp : ∀ a b, cmp a b = -1 ∨ cmp a b = 0 ∨ cmp a b = 1 := by
    intro a b
    unfold cmp
    split_ifs
    · exact .inl rfl
    · exact .inr (.inr rfl)
    · exact .inr (.inl rfl)
  unfold sign spreadAt
  split
  · exact .inr (.inl rfl)
  · cases averageAt xs i c.fast with
    | none => exact .inr (.inl rfl)
    | some fast =>
      cases averageAt xs i c.slow with
      | none => exact .inr (.inl rfl)
      | some slow => exact hcmp fast slow

/-! ## What a cross depends on -/

/-- Looking back comes to the last sign that is not zero. -/
theorem apartBefore_eq {p : ℤ} (h : c.apartBefore bars i = some p) :
    p = lastApart (c.sign bars) (c.slow - 1) i := by
  induction i with
  | zero => exact (Option.some.inj h).symm
  | succ i ih =>
    rw [apartBefore] at h
    by_cases hlo : i < c.slow - 1
    · rw [if_pos hlo] at h
      rw [lastApart_of_le (by omega), Option.some.inj h]
    · rw [if_neg hlo] at h
      obtain ⟨spread, hspread, h⟩ := Option.bind_eq_some_iff.mp h
      have hsign : c.sign bars i = spread := by rw [sign, hspread, Option.getD_some]
      rw [lastApart_succ (not_lt.mp hlo), hsign]
      by_cases hzero : spread = 0
      · rw [if_pos hzero] at h ⊢
        exact ih h
      · rw [if_neg hzero] at h ⊢
        exact (Option.some.inj h).symm

/-- The cross a bar makes if it makes one. -/
def crossOf (c : MACrossConfig) (xs : List Candle) (i : ℕ) : Option Cross :=
  xs[i]?.map fun b => ⟨if c.sign xs i < 0 then .short else .long, b.open.add c.period⟩

/-- A cross is found where the sign is not zero and not what it last was. -/
theorem crossAt_eq {r : Option Cross} (h : c.crossAt bars i = some r) : r =
    if c.slow ≤ i ∧ c.sign bars i ≠ 0 ∧
      lastApart (c.sign bars) (c.slow - 1) i ≠ c.sign bars i then c.crossOf bars i else none := by
  rw [crossAt] at h
  by_cases hlt : i < c.slow
  · rw [if_pos hlt] at h
    rw [if_neg fun hfound => absurd hlt (not_lt.mpr hfound.1), Option.some.inj h]
  · rw [if_neg hlt] at h
    obtain ⟨cur, hcur, h⟩ := Option.bind_eq_some_iff.mp h
    have hsign : c.sign bars i = cur := by rw [sign, hcur, Option.getD_some]
    rw [crossOf, hsign]
    by_cases hzero : cur = 0
    · rw [if_pos hzero] at h
      rw [if_neg fun hfound => hfound.2.1 hzero, Option.some.inj h]
    · rw [if_neg hzero] at h
      obtain ⟨prev, hprev, rfl⟩ := Option.map_eq_some_iff.mp h
      rw [← apartBefore_eq hprev]
      have hcases := sign_cases c bars i
      have hprevs : prev = 0 ∨ prev = 1 ∨ prev = -1 := by
        by_cases hz : prev = 0
        · exact .inl hz
        · obtain ⟨j, -, -, hj, -⟩ := (lastApart_eq_iff hz).mp (apartBefore_eq hprev).symm
          have hjs := sign_cases c bars j
          omega
      have hsame : prev ≠ 0 ∧ (0 < prev ↔ 0 < cur) ↔ prev = cur := by omega
      by_cases heq : prev = cur
      · rw [if_pos (hsame.mpr heq), if_neg fun hfound => hfound.2.2 heq]
      · have hfound : c.slow ≤ i ∧ cur ≠ 0 ∧ prev ≠ cur := ⟨not_lt.mp hlt, hzero, heq⟩
        rw [if_neg fun hboth => heq (hsame.mp hboth), if_pos hfound]

/-! ## Runs -/

/-- The closed bars a stream shows the signal: of a seed only as many as the history holds. -/
def see (c : MACrossConfig) (bars : List Candle) : Event → List Candle
  | .seed s now => (s.closed now).rtake c.history
  | .apply b now => keep now bars b

/-- The closed bars seen since the last seed. -/
def seen (c : MACrossConfig) (events : List Event) : List Candle := events.foldl c.see []

/-- The sign changes at a position from what it last was, as far as the history reaches back. -/
def Found (c : MACrossConfig) (xs : List Candle) (i : ℕ) : Prop :=
  c.slow ≤ i ∧ c.sign xs i ≠ 0 ∧
    lastApart (c.sign xs) (max (c.slow - 1) (i + c.slow - c.history)) i ≠ c.sign xs i

instance (xs : List Candle) (i : ℕ) : Decidable (c.Found xs i) :=
  inferInstanceAs (Decidable (_ ∧ _))

/-- The crosses of the bars where one is found. -/
def foundIn (c : MACrossConfig) (xs : List Candle) (n : ℕ) : List Cross :=
  ((List.range n).filter fun i => c.Found xs i).filterMap (c.crossOf xs)

theorem foundIn_succ : c.foundIn xs (n + 1) =
    c.foundIn xs n ++ (if c.Found xs n then c.crossOf xs n else none).toList := by
  rw [foundIn, List.range_succ, List.filter_append, List.filterMap_append]
  congr 1
  by_cases h : c.Found xs n
  · rw [if_pos h, List.filter_cons_of_pos (by simpa using h), List.filter_nil]
    cases hcross : c.crossOf xs n with
    | none => rw [List.filterMap_cons_none hcross]; rfl
    | some x => rw [List.filterMap_cons_some hcross]; rfl
  · rw [if_neg h, List.filter_cons_of_neg (by simpa using h), List.filter_nil]
    rfl

/-- In a history that is not full, every sign is looked back at. -/
theorem found_iff_of_le (hvalid : c.validate = .ok ()) (h : i < c.history) : c.Found xs i ↔
    c.slow ≤ i ∧ c.sign xs i ≠ 0 ∧ lastApart (c.sign xs) (c.slow - 1) i ≠ c.sign xs i := by
  have hroom := (validate_eq_ok hvalid).2.2
  rw [Found, max_eq_left (by omega)]

/-- Replaying the first bars of a history finds what there is. -/
theorem replay_eq (hvalid : c.validate = .ok ()) {found : List Cross}
    (hn : n ≤ c.history) (h : c.replay xs n = some found) : found = c.foundIn xs n := by
  induction n generalizing found with
  | zero => exact (Option.some.inj h).symm
  | succ n ih =>
    rw [replay] at h
    obtain ⟨before, hbefore, h⟩ := Option.bind_eq_some_iff.mp h
    obtain ⟨cross, hcross, rfl⟩ := Option.map_eq_some_iff.mp h
    rw [foundIn_succ, ih (by omega) hbefore, crossAt_eq hcross]
    simp only [found_iff_of_le hvalid (show n < c.history by omega)]

/-- Later bars do not change what is found. -/
theorem foundIn_append (hvalid : c.validate = .ok ()) (h : n ≤ xs.length) :
    c.foundIn (xs ++ [b]) n = c.foundIn xs n := by
  have hsign : ∀ i, i < n → c.sign (xs ++ [b]) i = c.sign xs i := by
    intro i hi
    rw [sign, sign, spreadAt_append hvalid (by omega)]
  have hcross : ∀ i, i < n → c.crossOf (xs ++ [b]) i = c.crossOf xs i := by
    intro i hi
    rw [crossOf, crossOf, hsign i hi, List.getElem?_append_left (by omega)]
  have hfound : ∀ i, i < n → (c.Found (xs ++ [b]) i ↔ c.Found xs i) := by
    intro i hi
    rw [Found, Found, hsign i hi, lastApart_congr fun j _ hj => hsign j (by omega)]
  rw [foundIn, foundIn, List.filter_congr (fun i hi => decide_eq_decide.mpr
    (hfound i (List.mem_range.mp hi)))]
  apply List.filterMap_congr
  intro i hi
  exact hcross i (List.mem_range.mp (List.mem_of_mem_filter hi))

/-- The last bar of a history makes the cross found for the last bar of all. -/
theorem crossAt_rtake (hvalid : c.validate = .ok ()) {r : Option Cross}
    (h : c.crossAt ((xs ++ [b]).rtake c.history) (((xs ++ [b]).rtake c.history).length - 1) =
      some r) : r =
      if c.Found (xs ++ [b]) xs.length then c.crossOf (xs ++ [b]) xs.length else none := by
  obtain ⟨hfast, hslow, hroom⟩ := validate_eq_ok hvalid
  have hall : (xs ++ [b]).length = xs.length + 1 := by simp
  have hkept : ((xs ++ [b]).rtake c.history).length = min c.history (xs.length + 1) := by
    rw [length_rtake, hall]
  have hr := crossAt_eq h
  by_cases hfull : xs.length + 1 ≤ c.history
  · rw [rtake_of_length_le (by omega), hall, Nat.add_sub_cancel] at hr
    rw [hr]
    simp only [found_iff_of_le hvalid (show xs.length < c.history by omega)]
  · -- the history is full: positions are shifted by what was dropped
    have hk : (xs ++ [b]).length - c.history + (c.history - 1) = xs.length := by omega
    have hlast : ((xs ++ [b]).rtake c.history).length - 1 = c.history - 1 := by omega
    have hsign : ∀ i, c.slow ≤ i + 1 → i < c.history → c.sign ((xs ++ [b]).rtake c.history) i =
        c.sign (xs ++ [b]) ((xs ++ [b]).length - c.history + i) := by
      intro i hi hih
      rw [sign, sign, spreadAt_rtake hvalid (by omega) hi]
    have hback : lastApart (c.sign ((xs ++ [b]).rtake c.history)) (c.slow - 1) (c.history - 1) =
        lastApart (c.sign (xs ++ [b])) (max (c.slow - 1) (xs.length + c.slow - c.history))
          xs.length := by
      rw [lastApart_congr fun j hj hjn => hsign j (by omega) (by omega), lastApart_shift, hk]
      congr 1
      omega
    rw [hr, hlast, hback, hsign _ (by omega) (by omega), hk, crossOf, crossOf, getElem?_rtake, hk,
      hsign _ (by omega) (by omega), hk]
    have hiff : (c.slow ≤ c.history - 1 ∧ c.sign (xs ++ [b]) xs.length ≠ 0 ∧
        lastApart (c.sign (xs ++ [b])) (max (c.slow - 1) (xs.length + c.slow - c.history))
          xs.length ≠ c.sign (xs ++ [b]) xs.length) ↔ c.Found (xs ++ [b]) xs.length := by
      rw [Found]
      refine and_congr_left fun _ => ?_
      omega
    simp only [hiff]

/-- The bars kept are the last of the bars accepted. -/
theorem run_bars (hvalid : c.validate = .ok ()) {events : List Event} {m : MACross}
    (h : c.run events = some m) : m.bars = (accepted events).rtake c.history := by
  obtain ⟨hfast, hslow, hroom⟩ := validate_eq_ok hvalid
  induction events using List.reverseRecOn generalizing m with
  | nil =>
    rw [← Option.some.inj h]
    exact (List.rtake_nil _).symm
  | append_singleton events e ih =>
    rw [run, foldlM_concat] at h
    obtain ⟨m₀, hm₀, hstep⟩ := Option.bind_eq_some_iff.mp h
    rw [accepted_append, ← acceptLast_rtake (by omega), ← ih hm₀]
    cases e with
    | seed s now =>
      obtain ⟨crosses, -, rfl⟩ := Option.map_eq_some_iff.mp hstep
      rfl
    | apply b now =>
      rw [step, apply] at hstep
      rw [acceptLast]
      by_cases hnew : b.Closed now ∧ Follows m₀.bars b
      · rw [if_pos hnew] at hstep
        obtain ⟨cross, -, rfl⟩ := Option.map_eq_some_iff.mp hstep
        rw [if_pos hnew]
      · rw [if_neg hnew] at hstep
        rw [if_neg hnew, ← Option.some.inj hstep]

/-- The bars kept are the last of the bars seen, and the crosses are those found. -/
theorem run_spec (hvalid : c.validate = .ok ()) {events : List Event} {m : MACross}
    (h : c.run events = some m) : m.bars = (c.seen events).rtake c.history ∧
      m.crosses = c.foundIn (c.seen events) (c.seen events).length := by
  obtain ⟨hfast, hslow, hroom⟩ := validate_eq_ok hvalid
  induction events using List.reverseRecOn generalizing m with
  | nil =>
    rw [← Option.some.inj h]
    exact ⟨(List.rtake_nil _).symm, rfl⟩
  | append_singleton events e ih =>
    rw [run, foldlM_concat] at h
    obtain ⟨m₀, hm₀, hstep⟩ := Option.bind_eq_some_iff.mp h
    obtain ⟨hbars, hcrosses⟩ := ih hm₀
    have hseen : c.seen (events ++ [e]) = c.see (c.seen events) e := by
      rw [seen, List.foldl_append]
      rfl
    rw [hseen]
    cases e with
    | seed s now =>
      obtain ⟨crosses, hreplay, rfl⟩ := Option.map_eq_some_iff.mp hstep
      have hle : ((s.closed now).rtake c.history).length ≤ c.history := by
        rw [length_rtake]
        exact Nat.min_le_left _ _
      exact ⟨(rtake_of_length_le hle).symm, replay_eq hvalid hle hreplay⟩
    | apply b now =>
      have hfollows : Follows m₀.bars b ↔ Follows (c.seen events) b := by
        rw [hbars, follows_rtake (by omega)]
      change c.apply m₀ b now = some m at hstep
      change m.bars = (keep now (c.seen events) b).rtake c.history ∧
        m.crosses = c.foundIn (keep now (c.seen events) b) (keep now (c.seen events) b).length
      unfold apply at hstep
      unfold keep
      dsimp only at hstep
      by_cases hkept : b.Closed now ∧ Follows (c.seen events) b
      · rw [if_pos ⟨hkept.1, hfollows.mpr hkept.2⟩, hbars, rtake_rtake_append (by omega)] at hstep
        obtain ⟨cross, hcross, rfl⟩ := Option.map_eq_some_iff.mp hstep
        rw [if_pos hkept, List.length_append, List.length_singleton, foundIn_succ,
          foundIn_append hvalid le_rfl, ← crossAt_rtake hvalid hcross, ← hcrosses]
        exact ⟨rfl, rfl⟩
      · rw [if_neg fun h => hkept ⟨h.1, hfollows.mp h.2⟩] at hstep
        rw [if_neg hkept, ← Option.some.inj hstep]
        exact ⟨hbars, hcrosses⟩

/-! ## Crosses alternate -/

/-- Crosses as they should be: of each bar whose sign is not zero and not what it last was, and
never two in a row of one side. -/
def Lawful (c : MACrossConfig) (xs : List Candle) (crosses : List Cross) : Prop :=
  crosses = (changes (c.sign xs) (c.slow - 1) xs.length).filterMap (c.crossOf xs) ∧
    crosses.IsChain fun x y => x.side ≠ y.side

/-- The averages are never equal for longer than the history reaches back, between two bars where
they are apart the same way. -/
def Remembered (c : MACrossConfig) (xs : List Candle) : Prop :=
  ∀ i, i < xs.length → ∀ j, j + (c.history - c.slow) < i → c.sign xs i ≠ 0 →
    c.sign xs j = c.sign xs i → ∃ k, j < k ∧ k < i ∧ c.sign xs k ≠ 0

/-- Whatever changes is found. -/
theorem found_of_change (h : c.slow - 1 < i ∧ c.sign xs i ≠ 0 ∧
    lastApart (c.sign xs) (c.slow - 1) i ≠ c.sign xs i) : c.Found xs i := by
  obtain ⟨hlo, hapart, hchange⟩ := h
  refine ⟨by omega, hapart, fun heq => hchange ?_⟩
  have hne : lastApart (c.sign xs) (max (c.slow - 1) (i + c.slow - c.history)) i ≠ 0 := by
    rw [heq]
    exact hapart
  rw [lastApart_of_ne_zero (le_max_left _ _) hne, heq]

/-- Only changes are found exactly where the sign is remembered. -/
theorem found_iff_change (hvalid : c.validate = .ok ()) :
    (∀ i, i < xs.length → c.Found xs i → lastApart (c.sign xs) (c.slow - 1) i ≠ c.sign xs i) ↔
      c.Remembered xs := by
  obtain ⟨hfast, hslow, hroom⟩ := validate_eq_ok hvalid
  constructor
  · intro h i hi j hji hapart hsame
    by_contra hnone
    push Not at hnone
    have hj : c.slow - 1 ≤ j := by
      by_contra hlt
      rw [sign_of_lt (by omega)] at hsame
      exact hapart hsame.symm
    have hlast : lastApart (c.sign xs) (c.slow - 1) i = c.sign xs i :=
      (lastApart_eq_iff hapart).mpr ⟨j, hj, by omega, hsame, hnone⟩
    have hflat : lastApart (c.sign xs) (max (c.slow - 1) (i + c.slow - c.history)) i = 0 :=
      lastApart_eq_zero_iff.mpr fun k hk hki => hnone k (by omega) hki
    refine h i hi ⟨by omega, hapart, ?_⟩ hlast
    rw [hflat]
    exact hapart.symm
  · rintro h i hi ⟨-, hapart, hfound⟩ hlast
    obtain ⟨j, hj, hji, hsame, hflat⟩ := (lastApart_eq_iff hapart).mp hlast
    have hfar : j + (c.history - c.slow) < i := by
      by_contra hnear
      exact hfound ((lastApart_eq_iff hapart).mpr ⟨j, by omega, hji, hsame, hflat⟩)
    obtain ⟨k, hjk, hki, hk⟩ := h i hi j hfar hapart hsame
    exact hk (hflat k hjk hki)

/-- The bars there are make crosses. -/
theorem crossOf_isSome (h : i < xs.length) : (c.crossOf xs i).isSome := by
  rw [crossOf, List.getElem?_eq_getElem h]
  rfl

/-- Signs that differ point different ways. -/
theorem changes_sides : ((changes (c.sign xs) (c.slow - 1) xs.length).filterMap
    (c.crossOf xs)).IsChain fun x y => x.side ≠ y.side := by
  let total : ℕ → Cross := fun i =>
    ⟨if c.sign xs i < 0 then .short else .long,
      Time.add ((xs[i]?.map Candle.open).getD 0) c.period⟩
  have hmem : ∀ i ∈ changes (c.sign xs) (c.slow - 1) xs.length,
      i < xs.length ∧ c.sign xs i ≠ 0 := by
    intro i hi
    obtain ⟨hin, hchange⟩ := List.mem_filter.mp hi
    exact ⟨List.mem_range.mp hin, (of_decide_eq_true hchange).2.1⟩
  have htotal : (changes (c.sign xs) (c.slow - 1) xs.length).filterMap (c.crossOf xs) =
      (changes (c.sign xs) (c.slow - 1) xs.length).map total := by
    rw [← List.filterMap_eq_map']
    apply List.filterMap_congr
    intro i hi
    rw [crossOf, List.getElem?_eq_getElem (hmem i hi).1, Option.map_some]
    simp only [total, List.getElem?_eq_getElem (hmem i hi).1, Option.map_some, Option.getD_some]
  rw [htotal, List.isChain_map]
  refine changes_alternate.imp_of_mem_imp fun i j hi hj hne hside => hne ?_
  have hi' := (hmem i hi).2
  have hj' := (hmem j hj).2
  have hci := sign_cases c xs i
  have hcj := sign_cases c xs j
  change (if c.sign xs i < 0 then Side.short else Side.long) =
    (if c.sign xs j < 0 then Side.short else Side.long) at hside
  split_ifs at hside <;> omega

/-- The crosses found are those of the changes exactly where nothing else is found. -/
theorem foundIn_eq_iff (hvalid : c.validate = .ok ()) : c.foundIn xs xs.length =
    (changes (c.sign xs) (c.slow - 1) xs.length).filterMap (c.crossOf xs) ↔
      ∀ i, i < xs.length → c.Found xs i → lastApart (c.sign xs) (c.slow - 1) i ≠ c.sign xs i := by
  have hslow := (validate_eq_ok hvalid).2.1
  have hsub : (changes (c.sign xs) (c.slow - 1) xs.length).Sublist
      ((List.range xs.length).filter fun i => c.Found xs i) := by
    rw [changes]
    apply List.monotone_filter_right
    intro i hi
    exact decide_eq_true (found_of_change (of_decide_eq_true hi))
  have hsome : ∀ l : List ℕ, l.Sublist (List.range xs.length) →
      (l.filterMap (c.crossOf xs)).length = l.length := by
    intro l hl
    rw [List.filterMap_length_eq_length]
    exact fun i hi => crossOf_isSome (List.mem_range.mp (hl.subset hi))
  constructor
  · intro heq i hi hfound
    have hlength := congrArg List.length heq
    rw [foundIn, hsome _ List.filter_sublist,
      hsome (changes _ _ _) List.filter_sublist] at hlength
    have hmem : i ∈ changes (c.sign xs) (c.slow - 1) xs.length := by
      rw [hsub.eq_of_length hlength.symm]
      exact List.mem_filter.mpr ⟨List.mem_range.mpr hi, decide_eq_true hfound⟩
    exact (of_decide_eq_true (List.mem_filter.mp hmem).2).2.2
  · intro h
    rw [foundIn, changes]
    congr 1
    apply List.filter_congr
    intro i hi
    rw [decide_eq_decide]
    refine ⟨fun hfound => ⟨?_, hfound.2.1, h i (List.mem_range.mp hi) hfound⟩, found_of_change⟩
    have hle := hfound.1
    omega

end MACrossConfig

/-- In any stream that does not panic, the crosses are those of the bars where the sign is not what
it last was, and alternate, exactly where the sign is never forgotten. -/
theorem crosses_lawful_iff (c : MACrossConfig) (hvalid : c.validate = .ok ())
    (events : List Event) (m : MACross) (hrun : c.run events = some m) :
    c.Lawful (c.seen events) m.crosses ↔ c.Remembered (c.seen events) := by
  rw [← MACrossConfig.found_iff_change hvalid, ← MACrossConfig.foundIn_eq_iff hvalid,
    (MACrossConfig.run_spec hvalid hrun).2]
  constructor
  · exact fun h => h.1
  · intro h
    refine ⟨h, ?_⟩
    rw [h]
    exact MACrossConfig.changes_sides

/-- A close over the mean of two, with the shortest history there is. -/
def shortest : MACrossConfig := ⟨"BTC", .minute, 1, 2, 3 * .minute, 3⟩

/-- Down, then up: one cross. -/
theorem crosses_lawful_turn : ∃ m, shortest.run (fed [4, 2, 4]) = some m ∧
    shortest.Lawful (shortest.seen (fed [4, 2, 4])) m.crosses := by
  have hrun : shortest.run (fed [4, 2, 4]) = some
      ⟨[minuteAt 0 4, minuteAt 1 2, minuteAt 2 4], none, [⟨.long, 180000000000⟩]⟩ := by decide
  refine ⟨_, hrun, (crosses_lawful_iff shortest (by decide) _ _ hrun).mpr ?_⟩
  intro i hi j hji hapart hsame
  have hlen : (shortest.seen (fed [4, 2, 4])).length = 3 := by decide
  have hroom : shortest.history - shortest.slow = 1 := by decide
  have hj : j = 0 := by omega
  rw [hj, MACrossConfig.sign_of_lt (by decide)] at hsame
  exact absurd hsame.symm hapart

/-- Up, equal, up: the second bar up is a cross again, since the first is forgotten. -/
theorem crosses_repeat : ∃ m, shortest.run (fed [4, 2, 4, 4, 6]) = some m ∧
    m.crosses = [⟨.long, 180000000000⟩, ⟨.long, 300000000000⟩] ∧
    ¬ shortest.Lawful (shortest.seen (fed [4, 2, 4, 4, 6])) m.crosses := by
  have hrun : shortest.run (fed [4, 2, 4, 4, 6]) = some
      ⟨[minuteAt 2 4, minuteAt 3 4, minuteAt 4 6], none,
        [⟨.long, 180000000000⟩, ⟨.long, 300000000000⟩]⟩ := by decide
  exact ⟨_, hrun, rfl, fun h => absurd h.2 (by decide)⟩

end SuperAgent.Strategy
