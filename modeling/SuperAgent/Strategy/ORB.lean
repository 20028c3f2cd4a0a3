import SuperAgent.Strategy.Donchian
import Mathlib.Tactic.Ring

/-!
# The opening range breakout

Every session open starts the rule over: the bars of the opening range set its
high and low, and the first close outside them, while the watch lasts, is the
session's break. A bar belongs to the session of the latest open at or before
its own opening.
-/

namespace SuperAgent.Strategy

open Fixed (D)
open Venue (Side)

/-- The clock, the range and the window. -/
structure ORBConfig where
  symbol : String
  period : Duration
  /-- The session opens, as offsets from midnight, ascending. -/
  opens : List Duration
  /-- How long after the open the range is set; at least one bar. -/
  range : Duration
  /-- How long after the open a breakout still counts. -/
  watch : Duration
  window : Duration
  history : ℕ

/-- The three times a day the market wakes up. -/
def defaultOpens : List Duration := [0, 8 * .hour, 13 * .hour + 30 * .minute]

/-- A quarter-hour range and a four-hour watch on one-minute bars. -/
def defaultORB (symbol : String) : ORBConfig :=
  ⟨symbol, .minute, defaultOpens, 15 * .minute, 4 * .hour, 3 * .minute, 120⟩

/-- The session opens ascend within a day. -/
def Ascends (opens : List Duration) : Prop :=
  (∀ o ∈ opens, 0 ≤ o ∧ o < Duration.day) ∧ opens.IsChain (· < ·)

instance (opens : List Duration) : Decidable (Ascends opens) := inferInstanceAs (Decidable (_ ∧ _))

/-- Units of `10 ^ places` with the trailing zeros of what is left over trimmed. -/
def units (n places : ℕ) : String :=
  let rest := (toString (10 ^ places + n % 10 ^ places)).toList.drop 1
  let digits := (rest.reverse.dropWhile (· = '0')).reverse
  toString (n / 10 ^ places) ++ if digits = [] then "" else "." ++ String.ofList digits

/-- A duration in hours, minutes and seconds, or in the unit it is less than a second in. -/
def durationText (d : Duration) : String :=
  let n := d.toInt.natAbs
  let text := if n = 0 then "0s"
    else if n < 10 ^ 3 then toString n ++ "ns"
    else if n < 10 ^ 6 then units n 3 ++ "µs"
    else if n < 10 ^ 9 then units n 6 ++ "ms"
    else
      let minutes := n / (60 * 10 ^ 9)
      let tail := units (n % (60 * 10 ^ 9)) 9 ++ "s"
      if minutes = 0 then tail
      else if minutes < 60 then toString minutes ++ "m" ++ tail
      else toString (minutes / 60) ++ "h" ++ toString (minutes % 60) ++ "m" ++ tail
  if d < 0 then "-" ++ text else text

/-- What is wrong with a configuration. -/
def ORBConfig.validate (c : ORBConfig) : Except String Unit :=
  if c.symbol = "" then .error "strategy: orb needs a symbol"
  else if c.period ≤ 0 then .error "strategy: orb needs a bar period"
  else if c.opens = [] then .error "strategy: orb needs at least one session open"
  else if c.range ≤ 0 then .error "strategy: orb needs a range"
  else if c.watch ≤ c.range then
    .error ("strategy: orb watch " ++ durationText c.watch ++ " must outlast the range " ++
      durationText c.range)
  else if c.window ≤ 0 then .error "strategy: orb needs a window"
  else if c.history < 2 then
    .error ("strategy: orb history " ++ toString c.history ++ " cannot hold two bars")
  else if ¬ Ascends c.opens then
    .error "strategy: orb opens must be ascending offsets within a day"
  else .ok ()

/-- One session's opening range and what came of it. -/
structure ORBSession where
  openAt : Time
  /-- The range's bars open from the bar the open falls in until here. -/
  rangeFrom : Time
  rangeUntil : Time
  watchUntil : Time
  /-- The range so far, and how many closed bars set it. -/
  high : D := 0
  low : D := 0
  bars : ℕ := 0
  breakout : Option Break := none
  deriving DecidableEq

/-- The signal: the closed bars kept, the forming bar, the session of the last closed bar and the
last break. -/
structure ORB where
  bars : List Candle := []
  forming : Option Candle := none
  cur : Option ORBSession := none
  last : Option Break := none
  deriving DecidableEq

/-- An instant rounded down to a multiple of a positive duration. -/
def truncate (t : Time) (d : Duration) : Time := t - t % d.toInt

namespace ORBConfig

variable (c : ORBConfig)

/-- The opening range in clock time: one bar where a bar is longer. -/
def rangeSpan : Duration := if c.range < c.period then c.period else c.range

/-- The session opens of the day before an instant, of its day and of the day after. -/
def opensNear (t : Time) : List Time :=
  [-1, 0, 1].flatMap fun day : ℤ =>
    c.opens.map fun off => Time.add (t.startOfDay + day * Duration.day.toInt) off

/-- The latest session open at or before an instant, and the first after it. -/
def opensAround (t : Time) : Time × Time :=
  (c.opensNear t).foldl (fun (last, next) x =>
    if x ≤ t then (x, next) else if next = 0 then (last, x) else (last, next)) (0, 0)

/-- The session of an open, laid out on the bars' grid. -/
def layout (openAt : Time) : ORBSession :=
  let rangeFrom := truncate openAt c.period
  { openAt, rangeFrom
    rangeUntil := rangeFrom.add c.rangeSpan
    watchUntil := openAt.add c.watch }

/-- The session an instant belongs to. -/
def sessionAt (t : Time) : ORBSession := c.layout (c.opensAround t).1

/-- The close of a bar outside a range. -/
def breakOf (b : Candle) (high low : D) : Option Break :=
  if high < b.c then some ⟨.long, b.open.add c.period, b.c, high⟩
  else if b.c < low then some ⟨.short, b.open.add c.period, b.c, low⟩
  else none

/-- A closed bar folded into its session. -/
def fold (cur : ORBSession) (b : Candle) : ORBSession :=
  if b.open < cur.rangeFrom then cur
  else if b.open < cur.rangeUntil then
    { cur with
      high := if cur.bars = 0 ∨ cur.high < b.h then b.h else cur.high
      low := if cur.bars = 0 ∨ b.l < cur.low then b.l else cur.low
      bars := cur.bars + 1 }
  else if 0 < cur.bars ∧ cur.breakout = none ∧ b.open < cur.watchUntil then
    { cur with breakout := c.breakOf b cur.high cur.low }
  else cur

/-- The session a closed bar is folded into: the current one, or a new one. -/
def current (cur : Option ORBSession) (b : Candle) : ORBSession :=
  match cur with
  | some s => if s.openAt = (c.sessionAt b.open).openAt then s else c.sessionAt b.open
  | none => c.sessionAt b.open

/-- Add a closed bar, fold it into its session and check for the session's break. -/
def append (o : ORB) (b : Candle) : ORB :=
  let cur := c.current o.cur b
  let folded := c.fold cur b
  { bars := (o.bars ++ [b]).rtake c.history
    forming := o.forming
    cur := some folded
    last := if cur.breakout = none then folded.breakout.or o.last else o.last }

/-- Load closed history and replay the sessions in it. -/
def seed (s : Seeding) (now : Time) : ORB :=
  s.sorted.foldl (fun o b =>
    if ¬ b.Closed now then { o with forming := some b }
    else if Follows o.bars b then c.append o b
    else o) {}

/-- Feed one bar of the live stream. -/
def apply (o : ORB) (b : Candle) (now : Time) : ORB :=
  let forming := formingAfter o.forming o.bars b now
  if b.Closed now ∧ Follows o.bars b then { c.append o b with forming } else { o with forming }

/-- The signal once an event happened. -/
def step (o : ORB) : Event → ORB
  | .seed s now => c.seed s now
  | .apply b now => c.apply o b now

/-- The signal a stream comes to, from an empty one. -/
def run (events : List Event) : ORB := events.foldl c.step {}

end ORBConfig

/-- Where a session is. -/
inductive ORBPhase
  | forming
  | watching
  | broken
  | closed
  deriving DecidableEq

/-- One bar of the chart. -/
structure ORBPoint where
  openedAt : Time
  o : D
  h : D
  l : D
  c : D
  deriving DecidableEq

/-- What the screen renders. -/
structure ORBState where
  symbol : String
  period : Duration
  opens : List Duration
  range : Duration
  watch : Duration
  session : ORBSession
  phase : ORBPhase
  nextOpenAt : Time
  points : List ORBPoint
  forming : Bool
  window : Option Window
  lastBreak : Option Break
  ready : Bool
  deriving DecidableEq

/-- Where a session is as of an instant. -/
def ORBSession.phase (s : ORBSession) (now : Time) : ORBPhase :=
  if s.breakout ≠ none then .broken
  else if now < s.rangeUntil then .forming
  else if 0 < s.bars ∧ now < s.watchUntil then .watching
  else .closed

/-- The signal as of an instant: the session on the clock is shown empty until a bar of it
closed. -/
def ORBConfig.state (c : ORBConfig) (o : ORB) (now : Time) : ORBState :=
  let fresh := c.sessionAt now
  let session := (o.cur.filter fun s => s.openAt = fresh.openAt).getD fresh
  { symbol := c.symbol
    period := c.period
    opens := c.opens
    range := c.rangeSpan
    watch := c.watch
    session
    phase := session.phase now
    nextOpenAt := (c.opensAround now).2
    points := (o.bars ++ o.forming.toList).map fun b => ⟨b.open, b.o, b.h, b.l, b.c⟩
    forming := o.forming.isSome
    window := o.last.bind fun br => offered c.window br.side br.closedAt now
    lastBreak := o.last
    ready := o.bars ≠ [] }

/-! ## The clock -/

/-- What a pass through ascending instants remembers is the latest that is not after another. -/
theorem foldl_le_spec {l : List Int} {t a : Int} (hsorted : l.Pairwise (· < ·))
    (hsome : ∃ x ∈ l, x ≤ t) :
    IsGreatest {x | x ∈ l ∧ x ≤ t} (l.foldl (fun last x => if x ≤ t then x else last) a) := by
  induction l using List.reverseRecOn with
  | nil =>
    obtain ⟨x, hx, -⟩ := hsome
    exact nomatch hx
  | append_singleton l y ih =>
    obtain ⟨hl, -, hly⟩ := List.pairwise_append.mp hsorted
    rw [List.foldl_append, List.foldl_cons, List.foldl_nil]
    by_cases hy : y ≤ t
    · rw [if_pos hy]
      refine ⟨⟨List.mem_append_right _ List.mem_cons_self, hy⟩, ?_⟩
      rintro x ⟨hx, -⟩
      rcases List.mem_append.mp hx with hx | hx
      · exact (hly x hx y List.mem_cons_self).le
      · exact (List.mem_singleton.mp hx).le
    · rw [if_neg hy]
      have hin : ∀ x, x ∈ l ++ [y] ∧ x ≤ t ↔ x ∈ l ∧ x ≤ t := by
        intro x
        rw [List.mem_append, List.mem_singleton]
        constructor
        · rintro ⟨hx | rfl, hle⟩
          · exact ⟨hx, hle⟩
          · exact absurd hle hy
        · exact fun h => ⟨.inl h.1, h.2⟩
      simp only [hin]
      apply ih hl
      obtain ⟨x, hx, hle⟩ := hsome
      exact ⟨x, ((hin x).mp ⟨hx, hle⟩).1, hle⟩

/-- An offset into an earlier day is before one into a later day. -/
theorem offset_lt {length m day day' off off' : ℤ} (hlt : day < day') (hoff : off < length)
    (hoff' : 0 ≤ off' ∧ off' < length) : m + day * length + off < m + day' * length + off' := by
  have hstep := Int.mul_le_mul_of_nonneg_right (show day + 1 ≤ day' from hlt)
    (show 0 ≤ length by omega)
  rw [Int.add_mul, Int.one_mul] at hstep
  omega

/-- Every offset into yesterday is past. -/
theorem yesterday_le {length m t off : ℤ} (hle : m ≤ t) (hoff : off < length) :
    m + -1 * length + off ≤ t := by
  omega

/-- No offset into a later day than today is past. -/
theorem offset_past {length m t day off : ℤ} (hlt : t < m + length)
    (hoff : 0 ≤ off ∧ off < length) (hpast : m + day * length + off ≤ t) : day ≤ 0 := by
  by_contra hlater
  have hstep := Int.mul_le_mul_of_nonneg_right (show 1 ≤ day by omega)
    (show 0 ≤ length by omega)
  omega

/-- A session open is inside its day. -/
theorem Ascends.offset {opens : List Duration} (h : Ascends opens) {off : Duration}
    (hoff : off ∈ opens) : 0 ≤ off.toInt ∧ off.toInt < Duration.day.toInt := by
  obtain ⟨hlow, hhigh⟩ := h.1 off hoff
  exact ⟨Int64.le_iff_toInt_le.mp hlow, Int64.lt_iff_toInt_lt.mp hhigh⟩

namespace ORBConfig

variable {c : ORBConfig} {xs : List Candle} {b : Candle} {t u : Time}

/-- An instant a session opens at, on any day. -/
def IsOpen (c : ORBConfig) (x : Time) : Prop :=
  ∃ day : ℤ, ∃ off ∈ c.opens, x = day * Duration.day.toInt + off.toInt

/-- What a valid configuration is good for. -/
theorem validate_eq_ok (h : c.validate = .ok ()) :
    0 < c.period.toInt ∧ c.opens ≠ [] ∧ Ascends c.opens ∧ 0 < c.history := by
  unfold validate at h
  split_ifs at h with _ hperiod hopens _ _ _ hhistory hascends
  refine ⟨?_, hopens, hascends, by omega⟩
  rw [Int64.le_iff_toInt_le, not_le] at hperiod
  exact hperiod

/-- An instant near another one is an offset after the midnight of one of three days. -/
theorem mem_opensNear {x : Time} : x ∈ c.opensNear t ↔ ∃ day ∈ [-1, 0, (1 : ℤ)], ∃ off ∈ c.opens,
    t.startOfDay + day * Duration.day.toInt + off.toInt = x := by
  simp only [opensNear, List.mem_flatMap, List.mem_map]
  rfl

/-- The session opens near an instant are in order. -/
theorem opensNear_sorted (hvalid : c.validate = .ok ()) (t : Time) :
    (c.opensNear t).Pairwise fun x y : ℤ => x < y := by
  have hascends : Ascends c.opens := (validate_eq_ok hvalid).2.2.1
  have hopens : c.opens.Pairwise fun x y => x.toInt < y.toInt := by
    have hpair : c.opens.Pairwise (· < ·) :=
      List.isChain_iff_pairwise.mp hascends.2
    exact hpair.imp fun h => Int64.lt_iff_toInt_lt.mp h
  rw [opensNear, List.pairwise_flatMap]
  constructor
  · intro day _
    rw [List.pairwise_map]
    exact hopens.imp fun h => Int.add_lt_add_left h _
  · have hdays : [-1, 0, (1 : ℤ)].Pairwise (· < ·) := by decide
    refine hdays.imp fun hlt x hx y hy => ?_
    obtain ⟨off, hoff, rfl⟩ := List.mem_map.mp hx
    obtain ⟨off', hoff', rfl⟩ := List.mem_map.mp hy
    exact offset_lt hlt (hascends.offset hoff).2 (hascends.offset hoff')

/-- The latest session open there is at or before an instant. -/
theorem openAt_spec (hvalid : c.validate = .ok ()) (t : Time) :
    IsGreatest {x : ℤ | c.IsOpen x ∧ x ≤ t} (c.sessionAt t).openAt := by
  have hascends : Ascends c.opens := (validate_eq_ok hvalid).2.2.1
  obtain ⟨first, hfirst⟩ := List.exists_mem_of_ne_nil _ (validate_eq_ok hvalid).2.1
  have hoff := hascends.offset hfirst
  have hsince : t.startOfDay ≤ t := t.startOfDay_le
  have hbefore : t < t.startOfDay + Duration.day.toInt := by
    have hwithin : ∀ n : ℤ, n < n - n % Duration.day.toInt + Duration.day.toInt := by
      intro n
      have hlt := Int.emod_lt_of_pos n (show 0 < Duration.day.toInt by decide)
      omega
    exact hwithin t
  obtain ⟨today, hmidnight⟩ : ∃ today : ℤ, t.startOfDay = today * Duration.day.toInt := by
    have hwhole : ∀ n : ℤ, n - n % Duration.day.toInt =
        n / Duration.day.toInt * Duration.day.toInt := by
      intro n
      have hsplit := Int.ediv_mul_add_emod n Duration.day.toInt
      omega
    exact ⟨_, hwhole t⟩
  have hshift : ∀ (day : ℤ) (off : ℤ), day * Duration.day.toInt + off =
      t.startOfDay + (day - today) * Duration.day.toInt + off := by
    intro day off
    rw [hmidnight]
    ring
  have hyesterday : t.startOfDay + -1 * Duration.day.toInt + first.toInt ∈ c.opensNear t :=
    mem_opensNear.mpr ⟨-1, by decide, first, hfirst, rfl⟩
  have hpast : t.startOfDay + -1 * Duration.day.toInt + first.toInt ≤ t :=
    yesterday_le hsince hoff.2
  have hfold : (c.sessionAt t).openAt =
      (c.opensNear t).foldl (fun last x => if x ≤ t then x else last) 0 := by
    have hfst : ∀ (l : List Time) (a n : Time), (l.foldl (fun (last, next) x =>
        if x ≤ t then (x, next) else if next = 0 then (last, x) else (last, next)) (a, n)).1 =
        l.foldl (fun last x => if x ≤ t then x else last) a := by
      intro l
      induction l with
      | nil => exact fun _ _ => rfl
      | cons x l ih =>
        intro a n
        rw [List.foldl_cons, List.foldl_cons]
        dsimp only
        split_ifs <;> exact ih _ _
    exact hfst _ _ _
  obtain ⟨⟨hmem, hle⟩, hgreatest⟩ :=
    foldl_le_spec (a := 0) (opensNear_sorted hvalid t) ⟨_, hyesterday, hpast⟩
  rw [hfold]
  constructor
  · obtain ⟨day, -, off, hoff', heq⟩ := mem_opensNear.mp hmem
    refine ⟨⟨today + day, off, hoff', ?_⟩, hle⟩
    rw [hshift, add_sub_cancel_left]
    exact heq.symm
  · rintro x ⟨⟨day, off, hoff', rfl⟩, hx⟩
    have hin := hascends.offset hoff'
    rw [hshift] at hx ⊢
    have hday := offset_past hbefore hin hx
    by_cases hrecent : -1 ≤ day - today
    · refine hgreatest ⟨mem_opensNear.mpr ⟨day - today, ?_, off, hoff', rfl⟩, hx⟩
      have hcases : day - today = -1 ∨ day - today = 0 := by omega
      rcases hcases with h | h <;> simp [h]
    · refine le_trans ?_ (hgreatest ⟨hyesterday, hpast⟩)
      exact (offset_lt (not_le.mp hrecent) hin.2 hoff).le

/-- A session opens no later than its instants, and later instants are in later sessions. -/
theorem openAt_le (hvalid : c.validate = .ok ()) (t : Time) : (c.sessionAt t).openAt ≤ t :=
  (openAt_spec hvalid t).1.2

theorem openAt_mono (hvalid : c.validate = .ok ()) (h : t ≤ u) :
    (c.sessionAt t).openAt ≤ (c.sessionAt u).openAt := by
  obtain ⟨⟨hopen, hle⟩, -⟩ := openAt_spec hvalid t
  exact (openAt_spec hvalid u).2 ⟨hopen, le_trans hle h⟩

/-- A session's range begins no later than its open. -/
theorem rangeFrom_le (hvalid : c.validate = .ok ()) (x : Time) : (c.layout x).rangeFrom ≤ x := by
  have hfloor : ∀ n d : ℤ, 0 < d → n - n % d ≤ n := by
    intro n d hd
    have hrest := Int.emod_nonneg n hd.ne'
    omega
  exact hfloor x c.period.toInt (validate_eq_ok hvalid).1

/-! ## What a session should say -/

/-- The session of the bar at a position. -/
def sessionOf (c : ORBConfig) (xs : List Candle) (i : ℕ) : Option Time :=
  xs[i]?.map fun b => (c.sessionAt b.open).openAt

/-- The bars of a session that open in its range. -/
def rangeOf (c : ORBConfig) (xs : List Candle) (openAt : Time) : List Candle :=
  xs.filter fun b => (c.sessionAt b.open).openAt = openAt ∧
    (c.layout openAt).rangeFrom ≤ b.open ∧ b.open < (c.layout openAt).rangeUntil

/-- The close of a bar outside the range that the bars of its session before it set, if it opens
while the session is watched. -/
def outsideAt (c : ORBConfig) (xs : List Candle) (i : ℕ) : Option Break :=
  xs[i]?.bind fun b =>
    let s := c.sessionAt b.open
    match c.rangeOf (xs.take i) s.openAt with
    | [] => none
    | first :: rest =>
      let range := rest.foldl widen (first.h, first.l)
      if s.rangeUntil ≤ b.open ∧ b.open < s.watchUntil then c.breakOf b range.1 range.2 else none

/-- The first of a session's bars that closes outside its range. -/
def breakAt (c : ORBConfig) (xs : List Candle) (i : ℕ) : Option Break :=
  if ∃ j < i, c.sessionOf xs j = c.sessionOf xs i ∧ c.outsideAt xs j ≠ none then none
  else c.outsideAt xs i

/-- What a session says once some bars were accepted. -/
structure Tracks (c : ORBConfig) (xs : List Candle) (s : ORBSession) : Prop where
  rangeFrom : s.rangeFrom = (c.layout s.openAt).rangeFrom
  rangeUntil : s.rangeUntil = (c.layout s.openAt).rangeUntil
  watchUntil : s.watchUntil = (c.layout s.openAt).watchUntil
  bars : s.bars = (c.rangeOf xs s.openAt).length
  range : c.rangeOf xs s.openAt ≠ [] → Channel (c.rangeOf xs s.openAt) s.high s.low
  breakout : s.breakout =
    latest (fun i => if c.sessionOf xs i = some s.openAt then c.breakAt xs i else none) xs.length

section Append

variable {i : ℕ} {s : ORBSession}

theorem sessionOf_append (hi : i < xs.length) : c.sessionOf (xs ++ [b]) i = c.sessionOf xs i := by
  rw [sessionOf, sessionOf, List.getElem?_append_left hi]

theorem sessionOf_last : c.sessionOf (xs ++ [b]) xs.length = some (c.sessionAt b.open).openAt := by
  rw [sessionOf, List.getElem?_concat_length]
  rfl

theorem outsideAt_append (hi : i < xs.length) : c.outsideAt (xs ++ [b]) i = c.outsideAt xs i := by
  rw [outsideAt, outsideAt, List.getElem?_append_left hi, List.take_append_of_le_length hi.le]

/-- Later bars do not change a session's break. -/
theorem breakAt_append (hi : i < xs.length) : c.breakAt (xs ++ [b]) i = c.breakAt xs i := by
  have hiff : (∃ j < i, c.sessionOf (xs ++ [b]) j = c.sessionOf (xs ++ [b]) i ∧
      c.outsideAt (xs ++ [b]) j ≠ none) ↔
      ∃ j < i, c.sessionOf xs j = c.sessionOf xs i ∧ c.outsideAt xs j ≠ none := by
    refine exists_congr fun j => and_congr_right fun hj => ?_
    rw [sessionOf_append hi, sessionOf_append (hj.trans hi), outsideAt_append (hj.trans hi)]
  rw [breakAt, breakAt, outsideAt_append hi]
  simp only [hiff]

/-- A session has a break among some bars exactly where one of them closed outside. -/
theorem exists_breakAt {x : Time} {n : ℕ} :
    (∃ i < n, c.sessionOf xs i = some x ∧ c.breakAt xs i ≠ none) ↔
      ∃ i < n, c.sessionOf xs i = some x ∧ c.outsideAt xs i ≠ none := by
  constructor
  · rintro ⟨i, hi, hs, hbr⟩
    refine ⟨i, hi, hs, fun hnone => hbr ?_⟩
    rw [breakAt, hnone, ite_self]
  · intro h
    obtain ⟨hi, hs, hout⟩ := Nat.find_spec h
    refine ⟨Nat.find h, hi, hs, ?_⟩
    rw [breakAt, if_neg]
    · exact hout
    · rintro ⟨j, hj, hsame, hbefore⟩
      exact Nat.find_min h hj ⟨hj.trans hi, hsame.trans hs, hbefore⟩

/-- The break of the last bar, where its session had none. -/
theorem breakAt_last (n : ℕ) (hn : xs.length = n) : c.breakAt (xs ++ [b]) n =
    if ∃ i < n, c.sessionOf xs i = some (c.sessionAt b.open).openAt ∧ c.outsideAt xs i ≠ none
      then none else c.outsideAt (xs ++ [b]) n := by
  subst hn
  have hiff : (∃ j < xs.length, c.sessionOf (xs ++ [b]) j = c.sessionOf (xs ++ [b]) xs.length ∧
      c.outsideAt (xs ++ [b]) j ≠ none) ↔ ∃ i < xs.length,
        c.sessionOf xs i = some (c.sessionAt b.open).openAt ∧ c.outsideAt xs i ≠ none := by
    refine exists_congr fun j => and_congr_right fun hj => ?_
    rw [sessionOf_last, sessionOf_append hj, outsideAt_append hj]
  rw [breakAt]
  simp only [hiff]

/-- A session without a break has none of its bars outside. -/
theorem Tracks.breakout_eq_none (h : c.Tracks xs s) : s.breakout = none ↔
    ¬ ∃ i < xs.length, c.sessionOf xs i = some s.openAt ∧ c.outsideAt xs i ≠ none := by
  rw [← exists_breakAt, h.breakout, latest_eq_none_iff]
  push Not
  refine forall₂_congr fun i hi => ?_
  by_cases hs : c.sessionOf xs i = some s.openAt
  · rw [if_pos hs]
    exact ⟨fun hnone _ => hnone, fun hnone => hnone hs⟩
  · rw [if_neg hs]
    exact ⟨fun _ hs' => absurd hs' hs, fun _ => rfl⟩

/-- A session no bar has reached yet is tracked. -/
theorem tracks_fresh {x : Time} (h : ∀ a ∈ xs, (c.sessionAt a.open).openAt ≠ x) :
    c.Tracks xs (c.layout x) := by
  have hnil : c.rangeOf xs x = [] :=
    List.filter_eq_nil_iff.mpr fun a ha hin => h a ha (of_decide_eq_true hin).1
  refine ⟨rfl, rfl, rfl, ?_, fun hne => absurd hnil hne, ?_⟩
  · change 0 = (c.rangeOf xs x).length
    rw [hnil]
    rfl
  · symm
    refine latest_eq_none_iff.mpr fun i hi => if_neg fun hs => ?_
    rw [sessionOf, List.getElem?_eq_getElem hi] at hs
    exact h _ (List.getElem_mem hi) (Option.some.inj hs)

/-- What the signal knows of a session once some bars were accepted: nothing, or what the last
bar's session says. -/
def Knows (c : ORBConfig) (xs : List Candle) (cur : Option ORBSession) : Prop :=
  match cur with
  | none => xs = []
  | some s => c.Tracks xs s ∧ ∃ last, xs.getLast? = some last ∧
      s.openAt = (c.sessionAt last.open).openAt

/-- The session a later bar is folded into is the bar's own. -/
theorem Knows.current (hvalid : c.validate = .ok ()) {cur : Option ORBSession}
    (h : c.Knows xs cur) (hsorted : xs.Pairwise fun a b => a.open < b.open)
    (hlater : ∀ a ∈ xs, a.open < b.open) : c.Tracks xs (c.current cur b) ∧
      (c.current cur b).openAt = (c.sessionAt b.open).openAt := by
  cases cur with
  | none =>
    obtain rfl : xs = [] := h
    exact ⟨tracks_fresh fun a ha => (nomatch ha), rfl⟩
  | some s =>
    obtain ⟨htracks, last, hlast, hopen⟩ := h
    rw [ORBConfig.current]
    by_cases hsame : s.openAt = (c.sessionAt b.open).openAt
    · rw [if_pos hsame]
      exact ⟨htracks, hsame⟩
    · rw [if_neg hsame]
      refine ⟨tracks_fresh fun a ha heq => hsame ?_, rfl⟩
      -- a bar of the new session would put the last one into it
      obtain ⟨init, rfl⟩ := List.getLast?_eq_some_iff.mp hlast
      have hle : a.open ≤ last.open := by
        rcases List.mem_append.mp ha with hinit | hmem
        · exact ((List.pairwise_append.mp hsorted).2.2 a hinit last List.mem_cons_self).le
        · rw [List.mem_singleton.mp hmem]
      rw [hopen]
      apply le_antisymm
      · exact openAt_mono hvalid (hlater last (by simp)).le
      · exact le_of_eq_of_le heq.symm (openAt_mono hvalid hle)

/-- A bar of the session in its range widens it. -/
theorem rangeOf_append : c.rangeOf (xs ++ [b]) s.openAt = c.rangeOf xs s.openAt ++
    if (c.sessionAt b.open).openAt = s.openAt ∧ (c.layout s.openAt).rangeFrom ≤ b.open ∧
      b.open < (c.layout s.openAt).rangeUntil then [b] else [] := by
  rw [rangeOf, List.filter_append, ← rangeOf]
  congr 1
  by_cases hin : (c.sessionAt b.open).openAt = s.openAt ∧
      (c.layout s.openAt).rangeFrom ≤ b.open ∧ b.open < (c.layout s.openAt).rangeUntil
  · rw [if_pos hin, List.filter_cons_of_pos (by simpa using hin), List.filter_nil]
  · rw [if_neg hin, List.filter_cons_of_neg (by simpa using hin), List.filter_nil]

/-- Whether the last bar of a session closed outside the range. -/
theorem Tracks.outsideAt_last (h : c.Tracks xs s) (hsame : s.openAt = (c.sessionAt b.open).openAt) :
    c.outsideAt (xs ++ [b]) xs.length =
      if 0 < s.bars ∧ s.rangeUntil ≤ b.open ∧ b.open < s.watchUntil
        then c.breakOf b s.high s.low else none := by
  have huntil : (c.sessionAt b.open).rangeUntil = s.rangeUntil := by
    rw [h.rangeUntil, hsame]
    rfl
  have hwatch : (c.sessionAt b.open).watchUntil = s.watchUntil := by
    rw [h.watchUntil, hsame]
    rfl
  rw [outsideAt, List.getElem?_concat_length, Option.bind_some, List.take_left]
  dsimp only
  rw [← hsame, huntil, hwatch, h.bars]
  have hchannel := h.range
  cases hrange : c.rangeOf xs s.openAt with
  | nil => rw [if_neg fun hpos => absurd hpos.1 (Nat.lt_irrefl 0)]
  | cons first rest =>
    rw [hrange] at hchannel
    have hone : Channel [first] (first.h, first.l).1 (first.h, first.l).2 :=
      channel_singleton first
    have hfold : Channel (first :: rest) (rest.foldl widen (first.h, first.l)).1
        (rest.foldl widen (first.h, first.l)).2 := hone.foldl_widen rest
    obtain ⟨hhigh, hlow⟩ := hfold.unique (hchannel (List.cons_ne_nil first rest))
    dsimp only
    rw [hhigh, hlow]
    have hpos : 0 < (first :: rest).length := Nat.succ_pos _
    simp only [hpos, true_and]

/-- The last bar breaks out of its session where the session had no break. -/
theorem Tracks.breakAt_last (h : c.Tracks xs s) (hsame : s.openAt = (c.sessionAt b.open).openAt) :
    c.breakAt (xs ++ [b]) xs.length =
      if s.breakout = none then c.outsideAt (xs ++ [b]) xs.length else none := by
  rw [ORBConfig.breakAt_last _ rfl, ← hsame]
  by_cases hnone : s.breakout = none
  · rw [if_pos hnone, if_neg (h.breakout_eq_none.mp hnone)]
  · rw [if_neg hnone, if_pos (not_not.mp (mt h.breakout_eq_none.mpr hnone))]

/-- What a session should say of its break once a bar of it was accepted. -/
theorem Tracks.latest_append (h : c.Tracks xs s)
    (hsame : s.openAt = (c.sessionAt b.open).openAt) :
    latest (fun i => if c.sessionOf (xs ++ [b]) i = some s.openAt then c.breakAt (xs ++ [b]) i
      else none) (xs ++ [b]).length = (c.breakAt (xs ++ [b]) xs.length).or s.breakout := by
  rw [List.length_append, List.length_singleton, latest, sessionOf_last, hsame, if_pos rfl,
    ← hsame, h.breakout]
  congr 1
  apply latest_congr
  intro i hi
  rw [sessionOf_append hi, breakAt_append hi]

/-- Folding a bar into its session keeps what the session says, and finds the break there is. -/
theorem Tracks.fold (hvalid : c.validate = .ok ()) (h : c.Tracks xs s)
    (hsame : s.openAt = (c.sessionAt b.open).openAt) : c.Tracks (xs ++ [b]) (c.fold s b) ∧
      c.breakAt (xs ++ [b]) xs.length =
        if s.breakout = none then (c.fold s b).breakout else none := by
  have hfrom : ¬ b.open < s.rangeFrom := by
    rw [h.rangeFrom]
    apply not_lt_of_ge
    exact le_trans (rangeFrom_le hvalid _) (hsame ▸ openAt_le hvalid b.open)
  have hlatest := h.latest_append hsame
  have hlast := h.breakAt_last hsame
  rw [h.outsideAt_last hsame] at hlast
  rw [ORBConfig.fold, if_neg hfrom]
  by_cases hrange : b.open < s.rangeUntil
  · -- the bar widens the range
    have hinside : ¬ (0 < s.bars ∧ s.rangeUntil ≤ b.open ∧ b.open < s.watchUntil) :=
      fun hout => absurd hrange (not_lt.mpr hout.2.1)
    rw [if_neg hinside, ite_self] at hlast
    rw [hlast, Option.none_or] at hlatest
    have hsince : (c.layout s.openAt).rangeFrom ≤ b.open := not_lt.mp (h.rangeFrom ▸ hfrom)
    have happend : c.rangeOf (xs ++ [b]) s.openAt = c.rangeOf xs s.openAt ++ [b] := by
      rw [rangeOf_append, if_pos ⟨hsame.symm, hsince, h.rangeUntil ▸ hrange⟩]
    rw [if_pos hrange, hlast]
    constructor
    · refine ⟨h.rangeFrom, h.rangeUntil, h.watchUntil, ?_, fun _ => ?_, hlatest.symm⟩
      · dsimp only
        rw [happend, List.length_append, List.length_singleton, h.bars]
      · dsimp only
        rw [happend]
        cases hbefore : c.rangeOf xs s.openAt with
        | nil =>
          have hzero : s.bars = 0 := by rw [h.bars, hbefore, List.length_nil]
          rw [if_pos (.inl hzero), if_pos (.inl hzero)]
          exact channel_singleton b
        | cons first rest =>
          have hchannel := h.range (hbefore ▸ List.cons_ne_nil first rest)
          have hpos : s.bars ≠ 0 := by
            rw [h.bars, hbefore, List.length_cons]
            exact Nat.succ_ne_zero _
          rw [hbefore] at hchannel
          simp only [hpos, false_or]
          exact hchannel.widen b
    · by_cases hnone : s.breakout = none
      · rw [if_pos hnone, hnone]
      · rw [if_neg hnone]
  · have hsame' : c.rangeOf (xs ++ [b]) s.openAt = c.rangeOf xs s.openAt := by
      rw [rangeOf_append, if_neg fun hin => hrange (h.rangeUntil ▸ hin.2.2), List.append_nil]
    rw [if_neg hrange]
    by_cases hbreak : 0 < s.bars ∧ s.breakout = none ∧ b.open < s.watchUntil
    · -- the bar is the first that may break out
      obtain ⟨hpos, hnone, hwatch⟩ := hbreak
      rw [if_pos hnone, if_pos ⟨hpos, not_lt.mp hrange, hwatch⟩] at hlast
      rw [hlast, hnone, Option.or_none] at hlatest
      rw [if_pos ⟨hpos, hnone, hwatch⟩, hlast, if_pos hnone]
      refine ⟨⟨h.rangeFrom, h.rangeUntil, h.watchUntil, ?_, ?_, hlatest.symm⟩, rfl⟩
      · dsimp only
        rw [hsame', h.bars]
      · dsimp only
        rw [hsame']
        exact h.range
    · have hnone : c.breakAt (xs ++ [b]) xs.length = none := by
        rw [hlast]
        by_cases hn : s.breakout = none
        · rw [if_pos hn, if_neg fun hout => hbreak ⟨hout.1, hn, hout.2.2⟩]
        · rw [if_neg hn]
      rw [hnone, Option.none_or] at hlatest
      rw [if_neg hbreak, hnone]
      refine ⟨⟨h.rangeFrom, h.rangeUntil, h.watchUntil, ?_, ?_, hlatest.symm⟩, ?_⟩
      · rw [hsame', h.bars]
      · rw [hsame']
        exact h.range
      · by_cases hn : s.breakout = none
        · rw [if_pos hn, hn]
        · rw [if_neg hn]

end Append

/-! ## Runs -/

/-- What the signal should be once some bars were accepted. -/
structure Kept (c : ORBConfig) (xs : List Candle) (o : ORB) : Prop where
  bars : o.bars = xs.rtake c.history
  knows : c.Knows xs o.cur
  last : o.last = latest (c.breakAt xs) xs.length

/-- A bar that follows keeps the signal as it should be. -/
theorem Kept.append (hvalid : c.validate = .ok ()) {o : ORB} (h : c.Kept xs o)
    (hsorted : xs.Pairwise fun a b => a.open < b.open) (hfollows : Follows xs b) :
    c.Kept (xs ++ [b]) (c.append o b) := by
  have hhistory := (validate_eq_ok hvalid).2.2.2
  obtain ⟨htracks, hsame⟩ := h.knows.current hvalid hsorted (hfollows.lt hsorted)
  obtain ⟨hfolded, hbreak⟩ := htracks.fold hvalid hsame
  refine ⟨?_, ⟨hfolded, b, List.getLast?_concat, ?_⟩, ?_⟩
  · change (o.bars ++ [b]).rtake c.history = _
    rw [h.bars, rtake_rtake_append hhistory]
  · rw [← hsame, ORBConfig.fold]
    split_ifs <;> rfl
  · change (if (c.current o.cur b).breakout = none then
      (c.fold (c.current o.cur b) b).breakout.or o.last else o.last) = _
    rw [List.length_append, List.length_singleton, latest, hbreak, h.last,
      latest_congr fun i hi => breakAt_append hi]
    by_cases hnone : (c.current o.cur b).breakout = none
    · rw [if_pos hnone, if_pos hnone]
    · rw [if_neg hnone, if_neg hnone, Option.none_or]

/-- The forming bar does not matter. -/
theorem Kept.forming {o : ORB} (h : c.Kept xs o) (f : Option Candle) :
    c.Kept xs { o with forming := f } := ⟨h.bars, h.knows, h.last⟩

/-- A signal that is as it should be accepts the bars that are to be accepted. -/
theorem Kept.follows (hvalid : c.validate = .ok ()) {o : ORB} (h : c.Kept xs o) :
    Follows o.bars b ↔ Follows xs b := by
  rw [h.bars, follows_rtake (validate_eq_ok hvalid).2.2.2]

/-- In every stream the signal is what the accepted bars make it. -/
theorem kept_run (hvalid : c.validate = .ok ()) (events : List Event) :
    c.Kept (accepted events) (c.run events) := by
  have hempty : c.Kept [] {} := ⟨(List.rtake_nil _).symm, rfl, rfl⟩
  induction events using List.reverseRecOn with
  | nil => exact hempty
  | append_singleton events e ih =>
    have hrun : c.run (events ++ [e]) = c.step (c.run events) e := by
      rw [run, List.foldl_append]
      rfl
    rw [hrun, accepted_append]
    cases e with
    | apply b now =>
      change c.Kept (keep now (accepted events) b) (c.apply (c.run events) b now)
      unfold keep apply
      dsimp only
      by_cases hkept : b.Closed now ∧ Follows (accepted events) b
      · rw [if_pos hkept, if_pos ⟨hkept.1, (ih.follows hvalid).mpr hkept.2⟩]
        exact (ih.append hvalid (accepted_ascending events) hkept.2).forming _
      · rw [if_neg hkept, if_neg fun h => hkept ⟨h.1, (ih.follows hvalid).mp h.2⟩]
        exact ih.forming _
    | seed s now =>
      -- a seed replays its bars one by one, from an empty signal
      have hreplay : ∀ (l : List Candle) (xs : List Candle) (o : ORB), c.Kept xs o →
          xs.Pairwise (fun a b => a.open < b.open) → c.Kept (l.foldl (keep now) xs)
            (l.foldl (fun o b => if ¬ b.Closed now then { o with forming := some b }
              else if Follows o.bars b then c.append o b else o) o) := by
        intro l
        induction l with
        | nil => exact fun xs o h _ => h
        | cons b l ihl =>
          intro xs o h hsorted
          rw [List.foldl_cons, List.foldl_cons]
          apply ihl _ _ _ (keep_ascending hsorted)
          unfold keep
          by_cases hclosed : b.Closed now
          · by_cases hfollows : Follows xs b
            · rw [if_pos ⟨hclosed, hfollows⟩, if_neg (not_not.mpr hclosed),
                if_pos ((h.follows hvalid).mpr hfollows)]
              exact h.append hvalid hsorted hfollows
            · rw [if_neg fun hk => hfollows hk.2, if_neg (not_not.mpr hclosed),
                if_neg fun hk => hfollows ((h.follows hvalid).mp hk)]
              exact h
          · rw [if_neg fun hk => hclosed hk.1, if_pos hclosed]
            exact h.forming _
      exact hreplay s.sorted [] {} hempty List.Pairwise.nil

/-! ## One first break per session -/

/-- A bar opens while its session is watched, and closes outside the range that the session's bars
before it set, across an edge. -/
def ClosesOutside (c : ORBConfig) (xs : List Candle) (i : ℕ) (br : Break) : Prop :=
  ∃ b high low, xs[i]? = some b ∧ (c.sessionAt b.open).rangeUntil ≤ b.open ∧
    b.open < (c.sessionAt b.open).watchUntil ∧
    c.rangeOf (xs.take i) (c.sessionAt b.open).openAt ≠ [] ∧
    Channel (c.rangeOf (xs.take i) (c.sessionAt b.open).openAt) high low ∧
    (high < b.c ∧ br = ⟨.long, b.open.add c.period, b.c, high⟩ ∨
      ¬ high < b.c ∧ b.c < low ∧ br = ⟨.short, b.open.add c.period, b.c, low⟩)

/-- The first bar of its session that closes outside. -/
def Breaks (c : ORBConfig) (xs : List Candle) (i : ℕ) (br : Break) : Prop :=
  c.ClosesOutside xs i br ∧
    ∀ j < i, c.sessionOf xs j = c.sessionOf xs i → ∀ br', ¬ c.ClosesOutside xs j br'

section Breaks

variable {i j : ℕ} {br br' : Break}

theorem breakOf_eq_some_iff {high low : D} : c.breakOf b high low = some br ↔
    high < b.c ∧ br = ⟨.long, b.open.add c.period, b.c, high⟩ ∨
      ¬ high < b.c ∧ b.c < low ∧ br = ⟨.short, b.open.add c.period, b.c, low⟩ := by
  rw [breakOf]
  split_ifs with habove hbelow
  · simp [habove, eq_comm]
  · simp [habove, hbelow, eq_comm]
  · simp [habove, hbelow]

theorem outsideAt_eq_some_iff : c.outsideAt xs i = some br ↔ c.ClosesOutside xs i br := by
  rw [outsideAt, ClosesOutside, Option.bind_eq_some_iff]
  refine exists_congr fun b => ?_
  dsimp only
  cases hrange : c.rangeOf (xs.take i) (c.sessionAt b.open).openAt with
  | nil => simp
  | cons first rest =>
    have hone : Channel [first] (first.h, first.l).1 (first.h, first.l).2 :=
      channel_singleton first
    have hfold : Channel (first :: rest) (rest.foldl widen (first.h, first.l)).1
        (rest.foldl widen (first.h, first.l)).2 := hone.foldl_widen rest
    dsimp only
    constructor
    · rintro ⟨hb, hbr⟩
      split_ifs at hbr with hwatched
      exact ⟨_, _, hb, hwatched.1, hwatched.2, List.cons_ne_nil _ _, hfold,
        breakOf_eq_some_iff.mp hbr⟩
    · rintro ⟨high, low, hb, huntil, hwatch, -, hchannel, hbr⟩
      obtain ⟨rfl, rfl⟩ := hfold.unique hchannel
      refine ⟨hb, ?_⟩
      rw [if_pos ⟨huntil, hwatch⟩]
      exact breakOf_eq_some_iff.mpr hbr

theorem outsideAt_eq_none_iff : c.outsideAt xs i = none ↔ ∀ br, ¬ c.ClosesOutside xs i br := by
  rw [Option.eq_none_iff_forall_ne_some]
  exact forall_congr' fun br => not_congr outsideAt_eq_some_iff

theorem breakAt_eq_some_iff : c.breakAt xs i = some br ↔ c.Breaks xs i br := by
  rw [breakAt, Breaks, ← outsideAt_eq_some_iff]
  by_cases hearlier : ∃ j < i, c.sessionOf xs j = c.sessionOf xs i ∧ c.outsideAt xs j ≠ none
  · rw [if_pos hearlier]
    obtain ⟨j, hj, hs, hout⟩ := hearlier
    exact iff_of_false (fun h => nomatch h) fun h =>
      hout (outsideAt_eq_none_iff.mpr (h.2 j hj hs))
  · rw [if_neg hearlier]
    push Not at hearlier
    exact ⟨fun h => ⟨h, fun j hj hs => outsideAt_eq_none_iff.mp (hearlier j hj hs)⟩, fun h => h.1⟩

theorem breakAt_eq_none_iff : c.breakAt xs i = none ↔ ∀ br, ¬ c.Breaks xs i br := by
  rw [Option.eq_none_iff_forall_ne_some]
  exact forall_congr' fun br => not_congr breakAt_eq_some_iff

/-- A break is one of a bar. -/
theorem Breaks.lt (h : c.Breaks xs i br) : i < xs.length := by
  obtain ⟨⟨b, _, _, hb, -⟩, -⟩ := h
  exact (List.getElem?_eq_some_iff.mp hb).1

/-- A session has one break at most. -/
theorem Breaks.unique (h : c.Breaks xs i br) (h' : c.Breaks xs j br')
    (hs : c.sessionOf xs i = c.sessionOf xs j) : i = j ∧ br = br' := by
  have heq : i = j := by
    rcases lt_trichotomy i j with hlt | heq | hlt
    · exact absurd h.1 (h'.2 i hlt hs br)
    · exact heq
    · exact absurd h'.1 (h.2 j hlt hs.symm br')
  subst heq
  exact ⟨rfl, Option.some.inj
    ((breakAt_eq_some_iff.mpr h).symm.trans (breakAt_eq_some_iff.mpr h'))⟩

/-- A session that is tracked says the break there is. -/
theorem Tracks.breakout_eq_some_iff {s : ORBSession} (h : c.Tracks xs s) :
    s.breakout = some br ↔ ∃ i, c.sessionOf xs i = some s.openAt ∧ c.Breaks xs i br := by
  rw [h.breakout, latest_eq_some_iff]
  constructor
  · rintro ⟨i, -, hbr, -⟩
    split_ifs at hbr with hs
    exact ⟨i, hs, breakAt_eq_some_iff.mp hbr⟩
  · rintro ⟨i, hs, hbr⟩
    refine ⟨i, hbr.lt, ?_, fun j hij hj => ?_⟩
    · rw [if_pos hs]
      exact breakAt_eq_some_iff.mpr hbr
    · by_cases hsj : c.sessionOf xs j = some s.openAt
      · rw [if_pos hsj]
        exact breakAt_eq_none_iff.mpr fun br' hbr' =>
          hbr'.2 i hij (hs.trans hsj.symm) br hbr.1
      · rw [if_neg hsj]

/-- A bar that is kept does not change the breaks before. -/
theorem Breaks.keep {now : Time} (h : c.Breaks xs i br) : c.Breaks (keep now xs b) i br := by
  unfold Strategy.keep
  split
  · rw [← breakAt_eq_some_iff, breakAt_append h.lt]
    exact breakAt_eq_some_iff.mpr h
  · exact h

end Breaks

end ORBConfig

/-- In every stream, each session has one break at most: that of its first bar that closes outside
the range while it is watched. The session of the last bar says it, no later bar of the session
changes it, and the break remembered is the last of all sessions. -/
theorem one_first_break (c : ORBConfig) (hvalid : c.validate = .ok ()) (events : List Event) :
    (∀ i j br br', c.Breaks (accepted events) i br → c.Breaks (accepted events) j br' →
      c.sessionOf (accepted events) i = c.sessionOf (accepted events) j → i = j ∧ br = br') ∧
    (∀ s, (c.run events).cur = some s → ∀ br, s.breakout = some br ↔
      ∃ i, c.sessionOf (accepted events) i = some s.openAt ∧ c.Breaks (accepted events) i br) ∧
    (∀ s br, (c.run events).cur = some s → s.breakout = some br → ∀ b now s',
      (c.run (events ++ [.apply b now])).cur = some s' → s'.openAt = s.openAt →
      s'.breakout = some br) ∧
    (∀ now br, (c.state (c.run events) now).lastBreak = some br ↔
      ∃ i, c.Breaks (accepted events) i br ∧
        ∀ j, i < j → ∀ br', ¬ c.Breaks (accepted events) j br') ∧
    ∀ now, (c.state (c.run events) now).lastBreak = none ↔
      ∀ i br, ¬ c.Breaks (accepted events) i br := by
  have htracks : ∀ events s, (c.run events).cur = some s → c.Tracks (accepted events) s := by
    intro events s hs
    have hknows := (ORBConfig.kept_run hvalid events).knows
    rw [hs] at hknows
    exact hknows.1
  have hlast := (ORBConfig.kept_run hvalid events).last
  refine ⟨fun i j br br' h h' hs => h.unique h' hs, fun s hs br => ?_, ?_, fun now br => ?_,
    fun now => ?_⟩
  · exact (htracks events s hs).breakout_eq_some_iff
  · intro s br hs hbr b now s' hs' hsame
    obtain ⟨i, hi, hbreak⟩ := (htracks events s hs).breakout_eq_some_iff.mp hbr
    have hlater := htracks _ s' hs'
    rw [accepted_append] at hlater
    refine hlater.breakout_eq_some_iff.mpr ⟨i, ?_, hbreak.keep⟩
    rw [hsame, ← hi]
    change c.sessionOf (keep now (accepted events) b) i = _
    unfold keep
    split
    · exact ORBConfig.sessionOf_append hbreak.lt
    · rfl
  · change (c.run events).last = some br ↔ _
    rw [hlast, latest_eq_some_iff]
    constructor
    · rintro ⟨i, -, hbr, hafter⟩
      refine ⟨i, ORBConfig.breakAt_eq_some_iff.mp hbr, fun j hij br' hj => ?_⟩
      exact ORBConfig.breakAt_eq_none_iff.mp (hafter j hij hj.lt) br' hj
    · rintro ⟨i, hbr, hafter⟩
      exact ⟨i, hbr.lt, ORBConfig.breakAt_eq_some_iff.mpr hbr, fun j hij _ =>
        ORBConfig.breakAt_eq_none_iff.mpr (hafter j hij)⟩
  · change (c.run events).last = none ↔ _
    rw [hlast, latest_eq_none_iff]
    constructor
    · exact fun h i br hi => ORBConfig.breakAt_eq_none_iff.mp (h i hi.lt) br hi
    · exact fun h i _ => ORBConfig.breakAt_eq_none_iff.mpr (h i)

/-- A range of one minute at midnight, and its first close above. -/
def oneMinuteRange : ORBConfig := ⟨"BTC", .minute, [0], .minute, 4 * .minute, 3 * .minute, 2⟩

/-- The second bar closes above the first; the third, further above, is no break. -/
theorem one_first_break_up : ∃ i, oneMinuteRange.Breaks (accepted (fed [5, 6, 7])) i
      ⟨.long, 120000000000, 6, 5⟩ ∧
    ∀ j, i < j → ∀ br, ¬ oneMinuteRange.Breaks (accepted (fed [5, 6, 7])) j br :=
  ((one_first_break oneMinuteRange (by decide +kernel) (fed [5, 6, 7])).2.2.2.1 180000000000 _).mp
    (by decide +kernel)

end SuperAgent.Strategy
