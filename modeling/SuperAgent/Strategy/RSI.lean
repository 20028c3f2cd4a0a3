import SuperAgent.Core.Run
import SuperAgent.Fixed.Exact
import SuperAgent.Strategy.Donchian
import Mathlib.Algebra.Order.BigOperators.Group.List
import Mathlib.Algebra.Module.NatInt

/-!
# The relative strength index

The index weighs the average rise of the closes against their average fall,
smoothed as Wilder does: the first average is a mean, and each later change is
blended in. The averages are rounded to a decimal's places, and their quotient
panics where the fall is next to nothing.
-/

namespace SuperAgent.Strategy

open Fixed (D)
open Venue (Side)

/-- The sizes of the index, the zones, the window and the history. -/
structure RSIConfig where
  symbol : String
  period : Duration
  length : ℕ
  /-- The edges of the zones, out of a hundred. -/
  oversold : D
  overbought : D
  window : Duration
  history : ℕ

/-- Fourteen one-minute bars, with zones at thirty and seventy. -/
def defaultRSI (symbol : String) : RSIConfig :=
  ⟨symbol, .minute, 14, Fixed.fromInt 30, Fixed.fromInt 70, 3 * .minute, 120⟩

/-- What is wrong with a configuration. -/
def RSIConfig.validate (c : RSIConfig) : Except String Unit :=
  if c.symbol = "" then .error "strategy: rsi needs a symbol"
  else if c.period ≤ 0 then .error "strategy: rsi needs a bar period"
  else if c.length < 2 then
    .error ("strategy: rsi length must be >= 2, got " ++ toString c.length)
  else if ¬ 0 < c.oversold ∨ c.overbought ≤ c.oversold ∨ Fixed.fromInt 100 ≤ c.overbought then
    .error "strategy: rsi zones must satisfy 0 < oversold < overbought < 100"
  else if c.window ≤ 0 then .error "strategy: rsi needs a window"
  else if c.history < c.length + 2 then
    .error ("strategy: rsi history " ++ toString c.history ++ " cannot hold length " ++
      toString c.length ++ " plus two")
  else .ok ()

/-- One entry into a zone. -/
structure RSICross where
  side : Side
  closedAt : Time
  value : D
  deriving DecidableEq

/-- The signal: the closed bars kept, each with its index, zero while warming up; the averages,
the forming bar and the last entry. -/
structure RSI where
  bars : List Candle := []
  forming : Option Candle := none
  values : List D := []
  avgGain : D := 0
  avgLoss : D := 0
  last : Option RSICross := none
  deriving DecidableEq

/-- A hundred, less a hundred over one more than the quotient of the averages. -/
def rsiOf (avgGain avgLoss : D) : Option D :=
  let hundred := Fixed.fromInt 100
  if avgLoss = 0 ∧ avgGain = 0 then some (Fixed.fromInt 50)
  else if avgLoss = 0 then some hundred
  else do
    let rs ← Fixed.div avgGain avgLoss
    let rest ← Fixed.div hundred (Fixed.fromInt 1 + rs)
    return hundred - rest

/-- The bars of a list, each with the one after it. -/
def pairs (bars : List Candle) : List (Candle × Candle) := bars.zip bars.tail

/-- How far the close moved. -/
def move (p : Candle × Candle) : D := p.2.c - p.1.c

def gained (d : D) : D := if 0 < d then d else 0

def lost (d : D) : D := if 0 < d then 0 else -d

namespace RSIConfig

variable (c : RSIConfig)

/-- An average with one change more: blended in with a weight of one in the length. -/
def blend (avg change : D) : Option D := do
  let l := Fixed.fromInt (Int64.ofNat c.length)
  let rest ← Fixed.mul avg (l - Fixed.fromInt 1)
  Fixed.div (rest + change) l

/-- The averages of the rises and the falls once the bars are these. -/
def averages (r : RSI) (bars : List Candle) : Option (D × D) :=
  if bars.length ≤ c.length then some (r.avgGain, r.avgLoss)
  else if bars.length = c.length + 1 then do
    let l := Fixed.fromInt (Int64.ofNat c.length)
    let gain ← Fixed.div ((pairs bars).foldl (fun sum p => sum + gained (move p)) 0) l
    let loss ← Fixed.div ((pairs bars).foldl (fun sum p => sum + lost (move p)) 0) l
    return (gain, loss)
  else do
    let p ← (pairs bars).getLast?
    let gain ← c.blend r.avgGain (gained (move p))
    let loss ← c.blend r.avgLoss (lost (move p))
    return (gain, loss)

/-- The entry into a zone, if the index was outside it before. -/
def crossing (prev value : D) (closedAt : Time) : Option RSICross :=
  if c.oversold < prev ∧ value ≤ c.oversold then some ⟨.long, closedAt, value⟩
  else if prev < c.overbought ∧ c.overbought ≤ value then some ⟨.short, closedAt, value⟩
  else none

/-- The index of the last of the bars, zero while warming up. -/
def index (bars : List Candle) (averages : D × D) : Option D :=
  if bars.length ≤ c.length then some 0 else rsiOf averages.1 averages.2

/-- The last entry once the last of the bars got its index. -/
def entered (last : Option RSICross) (bars : List Candle) (values : List D) (value : D)
    (b : Candle) : Option (Option RSICross) :=
  if bars.length ≤ c.length + 1 then some last
  else values[bars.length - 2]?.map fun prev =>
    (c.crossing prev value (b.open.add c.period)).or last

/-- Add a closed bar, extend the index and check for an entry into a zone. -/
def append (r : RSI) (b : Candle) : Option RSI := do
  let bars := r.bars ++ [b]
  let averages ← c.averages r bars
  let value ← c.index bars averages
  let values := r.values ++ [value]
  let last ← c.entered r.last bars values value b
  let extra := bars.length - c.history
  return { bars := bars.drop extra, forming := r.forming, values := values.drop extra,
           avgGain := averages.1, avgLoss := averages.2, last }

/-- One bar of closed history. -/
def replay (now : Time) (r : RSI) (b : Candle) : Option RSI :=
  if ¬ b.Closed now then some { r with forming := some b }
  else if Follows r.bars b then c.append r b
  else some r

/-- Load closed history and replay the index over it. -/
def seed (s : Seeding) (now : Time) : Option RSI := s.sorted.foldlM (c.replay now) {}

/-- Feed one bar of the live stream. -/
def apply (r : RSI) (b : Candle) (now : Time) : Option RSI :=
  let forming := formingAfter r.forming r.bars b now
  if b.Closed now ∧ Follows r.bars b then (c.append r b).map fun r => { r with forming }
  else some { r with forming }

/-- The signal once an event happened. -/
def step (r : RSI) : Event → Option RSI
  | .seed s now => c.seed s now
  | .apply b now => c.apply r b now

/-- The signal a stream comes to, from an empty one, unless an operation panics. -/
def run (events : List Event) : Option RSI := events.foldlM c.step {}

end RSIConfig

/-- One bar's close with the index as of that bar. -/
structure RSIPoint where
  openedAt : Time
  close : D
  value : D
  deriving DecidableEq

/-- What the screen renders. -/
structure RSIState where
  symbol : String
  period : Duration
  length : ℕ
  oversold : D
  overbought : D
  value : D
  points : List RSIPoint
  forming : Bool
  window : Option Window
  lastCross : Option RSICross
  ready : Bool
  deriving DecidableEq

namespace RSIConfig

variable (c : RSIConfig)

/-- Whether the index is in the zone a side's signal comes from. -/
def InZone (side : Side) (value : D) : Prop :=
  if side = .long then value ≤ c.oversold else c.overbought ≤ value

instance (side : Side) (value : D) : Decidable (c.InZone side value) :=
  inferInstanceAs (Decidable (if side = .long then value ≤ c.oversold else c.overbought ≤ value))

/-- When the invitation of an entry ends: while the index is in the zone, not before the forming
bar closes. -/
def expiry (r : RSI) (x : RSICross) : Option Time :=
  let expires := x.closedAt.add c.window
  match r.values.getLast? with
  | none => some expires
  | some value =>
    if ¬ c.InZone x.side value then some expires
    else r.bars[r.values.length - 1]?.map fun b =>
      if expires < b.open.add (2 * c.period) then b.open.add (2 * c.period) else expires

/-- The signal as of an instant, unless a bar has no index. -/
def state (r : RSI) (now : Time) : Option RSIState := do
  let closed ← r.bars.zipIdx.mapM fun p => r.values[p.2]?.map fun value => ⟨p.1.open, p.1.c, value⟩
  let window ← match r.last with
    | none => some none
    | some x => (c.expiry r x).map fun expires =>
      if now < expires then some ⟨x.side, x.closedAt, expires⟩ else none
  return {
    symbol := c.symbol
    period := c.period
    length := c.length
    oversold := c.oversold
    overbought := c.overbought
    value := r.values.getLast?.getD 0
    points := closed ++ (r.forming.map fun f => ⟨f.open, f.c, 0⟩).toList
    forming := r.forming.isSome
    window
    lastCross := r.last
    ready := c.length < r.bars.length }

end RSIConfig

/-! ## The index of two averages -/

/-- The quotient of two averages, in units of the last place, neither panics nor is needed: it fits,
or its magnitude passes for zero. -/
def Divides (gain loss : ℕ) : Prop :=
  loss = 0 ∨ 2 * (gain * 10 ^ 8) < (2 ^ 64 - 1) * loss ∨
    (2 ^ 65 - 1) * loss ≤ 2 * (gain * 10 ^ 8) ∧ gain * 10 ^ 8 < 2 ^ 64 * loss

/-- A number out of a hundred. -/
def Percent (v : D) : Prop := 0 ≤ v ∧ v ≤ Fixed.fromInt 100

instance (v : D) : Decidable (Percent v) := inferInstanceAs (Decidable (_ ∧ _))

theorem percent_iff {v : D} : Percent v ↔ 0 ≤ v.toInt ∧ v.toInt ≤ 10 ^ 10 := by
  rw [Percent, Int64.le_iff_toInt_le, Int64.le_iff_toInt_le]
  exact Iff.rfl

/-- A hundred over one more than a quotient that is not negative is a part of a hundred. -/
theorem hundred_div {q : ℕ} (hq : q < 2 ^ 63) :
    ∃ rest, Fixed.div (Fixed.fromInt 100) (Fixed.fromInt 1 + Int64.ofNat q) = some rest ∧
      Percent (Fixed.fromInt 100 - rest) := by
  have hsum : Fixed.fromInt 1 + Int64.ofNat q = Int64.ofNat (10 ^ 8 + q) := by
    rw [Int64.ofNat_add]
    rfl
  have hhundred : Fixed.fromInt 100 = Int64.ofNat (10 ^ 10) := by decide
  have hscale : Fixed.scale = Int64.ofNat (10 ^ 8) := by decide
  rw [hsum]
  by_cases hfits : 10 ^ 8 + q < 2 ^ 63
  · have hround : roundDiv (10 ^ 10 * 10 ^ 8) (10 ^ 8 + q) ≤ 10 ^ 10 := by
      rw [roundDiv_eq (by omega), Nat.le_iff_lt_add_one, Nat.div_lt_iff_lt_mul (by omega)]
      omega
    have hdiv := Fixed.mulDiv_ofNat_of_lt (m := 10 ^ 10) (n := 10 ^ 8) (by decide) (by decide)
      hfits (by omega) (lt_of_le_of_lt hround (by decide))
    rw [Fixed.div, hhundred, hscale, hdiv]
    refine ⟨_, rfl, percent_iff.mpr ?_⟩
    rw [Fixed.toInt_sub_of_fits] <;>
      rw [Int64.toInt_ofNat_of_lt (by decide), Int64.toInt_ofNat_of_lt (by omega)]
    · constructor <;> omega
    · constructor <;> omega
  · -- the sum wraps to a magnitude that the hundred is nothing to
    have hint : (Int64.ofNat (10 ^ 8 + q)).toInt = (10 ^ 8 + q : ℤ) - 2 ^ 64 := by
      have hone : (Fixed.fromInt 1).toInt = 10 ^ 8 := by decide
      rw [← hsum, Int64.toInt_add, hone, Int64.toInt_ofNat_of_lt hq, Int.bmod_def]
      split <;> omega
    have hne : Int64.ofNat (10 ^ 8 + q) ≠ 0 := by
      intro h
      rw [h] at hint
      have hzero : (0 : Int64).toInt = 0 := rfl
      omega
    have hmag : Fixed.magnitude (Fixed.fromInt 100) Fixed.scale (Int64.ofNat (10 ^ 8 + q)) = 0 := by
      have hp : (Fixed.fromInt 100).toInt.natAbs * Fixed.scale.toInt.natAbs = 10 ^ 18 := by decide
      rw [Fixed.magnitude, hp, hint, roundDiv_eq (by omega), Nat.div_eq_zero_iff_lt (by omega)]
      omega
    have hnot : ¬ Fixed.Wraps (Fixed.fromInt 100) Fixed.scale (Int64.ofNat (10 ^ 8 + q)) := by
      intro h
      have hmag' := Fixed.magnitude_of_wraps hne h
      rw [hmag] at hmag'
      exact absurd hmag' (by decide)
    rw [Fixed.div, Fixed.mulDiv_eq hne, if_neg hnot, hmag, if_neg (by decide)]
    refine ⟨_, rfl, ?_⟩
    split <;> decide

/-- The index of averages whose quotient is not negative. -/
theorem rsiOf_of_div {gain loss : D} {q : ℕ} (hq : q < 2 ^ 63) (hloss : loss ≠ 0)
    (hdiv : Fixed.div gain loss = some (Int64.ofNat q)) :
    ∃ v, rsiOf gain loss = some v ∧ Percent v := by
  obtain ⟨rest, hrest, hpercent⟩ := hundred_div hq
  refine ⟨_, ?_, hpercent⟩
  rw [rsiOf, if_neg fun h => hloss h.1, if_neg hloss, hdiv]
  change (Fixed.div _ _).bind _ = _
  rw [hrest]
  rfl

/-- The index of averages that are not negative is out of a hundred, or panics where their quotient
does. -/
theorem rsiOf_spec {gain loss : ℕ} (hgain : gain < 2 ^ 63) (hloss : loss < 2 ^ 63) :
    (Divides gain loss → ∃ v, rsiOf (Int64.ofNat gain) (Int64.ofNat loss) = some v ∧ Percent v) ∧
    (¬ Divides gain loss → rsiOf (Int64.ofNat gain) (Int64.ofNat loss) = none) := by
  have hscale : Fixed.scale = Int64.ofNat (10 ^ 8) := by decide
  by_cases hpos : 0 < loss
  · have hzero := Fixed.ofNat_ne_zero hloss hpos
    have hdiv := Fixed.mulDiv_ofNat (n := 10 ^ 8) hgain (by decide) hloss hpos
    rw [← hscale, ← Fixed.div] at hdiv
    have hfits : Fixed.maxInt64 < roundDiv (gain * 10 ^ 8) loss ↔
        (2 ^ 64 - 1) * loss ≤ 2 * (gain * 10 ^ 8) := by
      rw [roundDiv_eq hpos, Fixed.maxInt64, Nat.lt_iff_add_one_le, Nat.le_div_iff_mul_le (by omega)]
      omega
    by_cases hwraps : (2 ^ 65 - 1) * loss ≤ 2 * (gain * 10 ^ 8) ∧ gain * 10 ^ 8 < 2 ^ 64 * loss
    · rw [if_pos hwraps] at hdiv
      exact ⟨fun _ => @rsiOf_of_div _ _ 0 (by decide) hzero hdiv,
        fun h => absurd (.inr (.inr hwraps)) h⟩
    · rw [if_neg hwraps] at hdiv
      by_cases hmax : Fixed.maxInt64 < roundDiv (gain * 10 ^ 8) loss
      · rw [if_pos hmax] at hdiv
        have hlarge := hfits.mp hmax
        constructor
        · rintro (h | h | h)
          · omega
          · omega
          · exact absurd h hwraps
        · intro _
          rw [rsiOf, if_neg fun h => hzero h.1, if_neg hzero, hdiv]
          rfl
      · rw [if_neg hmax] at hdiv
        have hsmall := not_le.mp (mt hfits.mpr hmax)
        have hlt : roundDiv (gain * 10 ^ 8) loss < 2 ^ 63 := by
          unfold Fixed.maxInt64 at hmax
          omega
        exact ⟨fun _ => rsiOf_of_div hlt hzero hdiv, fun h => absurd (.inr (.inl hsmall)) h⟩
  · obtain rfl : loss = 0 := by omega
    refine ⟨fun _ => ?_, fun h => absurd (.inl rfl) h⟩
    have hzero : Int64.ofNat 0 = 0 := rfl
    rw [rsiOf, hzero]
    by_cases hflat : (0 : D) = 0 ∧ Int64.ofNat gain = 0
    · rw [if_pos hflat]
      exact ⟨_, rfl, by decide⟩
    · rw [if_neg hflat, if_pos rfl]
      exact ⟨_, rfl, by decide⟩

/-! ## The averages -/

/-- How many units of the last place the close rose, or fell. -/
def rise (p : Candle × Candle) : ℕ := (p.2.c.toInt - p.1.c.toInt).toNat

def fall (p : Candle × Candle) : ℕ := (p.1.c.toInt - p.2.c.toInt).toNat

/-- The close is a price: positive, and a million at most. -/
def Priced (b : Candle) : Prop := 0 < b.c ∧ b.c ≤ Fixed.fromInt 1000000

section Priced

variable {a b : Candle} {p : Candle × Candle} {l : List Candle}

theorem Priced.toInt (h : Priced b) : 0 < b.c.toInt ∧ b.c.toInt ≤ 10 ^ 14 :=
  ⟨Int64.lt_iff_toInt_lt.mp h.1, Int64.le_iff_toInt_le.mp h.2⟩

/-- Between two prices the close moves by no more than the greatest. -/
theorem rise_le (ha : Priced p.1) (hb : Priced p.2) : rise p ≤ 10 ^ 14 ∧ fall p ≤ 10 ^ 14 := by
  have hlow := ha.toInt
  have hhigh := hb.toInt
  unfold rise fall
  constructor <;> omega

/-- The move between two prices is their exact difference. -/
theorem gained_move (ha : Priced p.1) (hb : Priced p.2) : gained (move p) = Int64.ofNat (rise p) ∧
    lost (move p) = Int64.ofNat (fall p) := by
  have hlow := ha.toInt
  have hhigh := hb.toInt
  have hrise := rise_le ha hb
  have hmove : (move p).toInt = p.2.c.toInt - p.1.c.toInt :=
    Fixed.toInt_sub_of_fits ⟨by omega, by omega⟩
  have hpos : 0 < move p ↔ p.1.c.toInt < p.2.c.toInt := by
    rw [Int64.lt_iff_toInt_lt, hmove]
    exact Int.sub_pos
  by_cases h : 0 < move p
  · have hlt := hpos.mp h
    rw [gained, lost, if_pos h, if_pos h, ← Int64.toInt_inj, ← Int64.toInt_inj, hmove,
      Int64.toInt_ofNat_of_lt (by omega), Int64.toInt_ofNat_of_lt (by omega), rise, fall]
    have hzero : (0 : Int64).toInt = 0 := rfl
    constructor <;> omega
  · have hle := mt hpos.mpr h
    rw [gained, lost, if_neg h, if_neg h, ← Int64.toInt_inj, ← Int64.toInt_inj,
      Int64.toInt_ofNat_of_lt (by omega), Int64.toInt_ofNat_of_lt (by omega), rise, fall,
      Int64.toInt_neg, hmove]
    have hzero : (0 : Int64).toInt = 0 := rfl
    have hbmod : (-(p.2.c.toInt - p.1.c.toInt)).bmod (2 ^ 64) = -(p.2.c.toInt - p.1.c.toInt) := by
      apply Int.bmod_eq_of_le <;> omega
    rw [hbmod]
    constructor <;> omega

/-- A sum of words is the word of the sum. -/
theorem foldl_ofNat {α : Type*} {f : α → D} {g : α → ℕ} {l : List α}
    (h : ∀ x ∈ l, f x = Int64.ofNat (g x)) (n : ℕ) :
    l.foldl (fun sum x => sum + f x) (Int64.ofNat n) = Int64.ofNat (n + (l.map g).sum) := by
  induction l generalizing n with
  | nil => rfl
  | cons x l ih =>
    rw [List.foldl_cons, h x List.mem_cons_self, ← Int64.ofNat_add,
      ih fun y hy => h y (List.mem_cons_of_mem x hy), List.map_cons, List.sum_cons, Nat.add_assoc]

/-- The bars of a pair are bars of the list. -/
theorem mem_of_mem_pairs (h : p ∈ pairs l) : p.1 ∈ l ∧ p.2 ∈ l := by
  obtain ⟨hfirst, hsecond⟩ := List.of_mem_zip h
  exact ⟨hfirst, List.mem_of_mem_tail hsecond⟩

end Priced

namespace RSIConfig

variable {c : RSIConfig} {r r' : RSI} {b : Candle}

/-- A valid configuration has a length of two or more. -/
theorem validate_eq_ok (h : c.validate = .ok ()) : 2 ≤ c.length := by
  unfold validate at h
  split_ifs at h
  omega

/-- A quotient by the length is the rounded one. -/
theorem div_length (hlen : 2 ≤ c.length) (hl : c.length * 10 ^ 8 < 2 ^ 63) {n : ℕ}
    (hn : n < 2 ^ 63) : Fixed.div (Int64.ofNat n) (Fixed.fromInt (Int64.ofNat c.length)) =
      some (Int64.ofNat (roundDiv n c.length)) := by
  have hunit := Fixed.fromInt_ofNat c.length
  have hscale : Fixed.scale = Int64.ofNat (10 ^ 8) := by decide
  have hround : roundDiv (n * 10 ^ 8) (c.length * 10 ^ 8) = roundDiv n c.length :=
    roundDiv_mul_mul_right n c.length (by decide)
  have hlt : roundDiv n c.length < 2 ^ 63 := by
    rw [roundDiv_eq (by omega), Nat.div_lt_iff_lt_mul (by omega)]
    omega
  have hquotient := Fixed.mulDiv_ofNat_of_lt (n := 10 ^ 8) hn (by decide) hl (by omega)
    (by rwa [hround])
  rw [Fixed.div, hunit, hscale, hquotient, hround]

/-- What a change is blended into. -/
theorem blend_eq (hlen : 2 ≤ c.length) (hl : c.length * 10 ^ 8 < 2 ^ 63) {avg change : ℕ}
    (hfits : avg * (c.length - 1) + change < 2 ^ 63) :
    c.blend (Int64.ofNat avg) (Int64.ofNat change) =
      some (Int64.ofNat (roundDiv (avg * (c.length - 1) + change) c.length)) := by
  have hpart : (c.length - 1) * 10 ^ 8 < 2 ^ 63 :=
    lt_of_le_of_lt (Nat.mul_le_mul_right _ (Nat.sub_le _ 1)) hl
  have hrest : avg * (c.length - 1) < 2 ^ 63 := by omega
  have havg : avg < 2 ^ 63 := by
    have hle : avg * 1 ≤ avg * (c.length - 1) := Nat.mul_le_mul_left avg (by omega)
    omega
  have hunit : Fixed.fromInt (Int64.ofNat c.length) - Fixed.fromInt 1 =
      Int64.ofNat ((c.length - 1) * 10 ^ 8) := by
    have hsum : c.length * 10 ^ 8 = (c.length - 1) * 10 ^ 8 + 10 ^ 8 := by
      rw [← Nat.succ_mul, Nat.succ_eq_add_one, Nat.sub_add_cancel (by omega)]
    have hone : Fixed.fromInt 1 = Int64.ofNat (10 ^ 8) := by decide
    rw [Fixed.fromInt_ofNat, hone, hsum, Int64.ofNat_add, Int64.add_sub_cancel]
  have hscale : Fixed.scale = Int64.ofNat (10 ^ 8) := by decide
  have hexact : roundDiv (avg * ((c.length - 1) * 10 ^ 8)) (10 ^ 8) = avg * (c.length - 1) := by
    rw [← Nat.mul_assoc, roundDiv_mul_left _ (by decide)]
  have hmul : Fixed.mul (Int64.ofNat avg)
      (Fixed.fromInt (Int64.ofNat c.length) - Fixed.fromInt 1) =
        some (Int64.ofNat (avg * (c.length - 1))) := by
    have hproduct := Fixed.mulDiv_ofNat_of_lt (n := (c.length - 1) * 10 ^ 8) (k := 10 ^ 8) havg
      hpart (by decide) (by decide) (by rwa [hexact])
    rw [Fixed.mul, hunit, hscale, hproduct, hexact]
  unfold blend
  dsimp only
  rw [hmul, Option.bind_eq_bind, Option.bind_some, ← Int64.ofNat_add, div_length hlen hl hfits]

/-- What the length divides once a bar is appended, in units of the last place: all rises and all
falls at first, and later the averages with the last change blended in. -/
def dividends (c : RSIConfig) (r : RSI) (b : Candle) : ℕ × ℕ :=
  let steps := pairs (r.bars ++ [b])
  if r.bars.length = c.length then ((steps.map rise).sum, (steps.map fall).sum)
  else (r.avgGain.toInt.toNat * (c.length - 1) + (steps.getLast?.map rise).getD 0,
    r.avgLoss.toInt.toNat * (c.length - 1) + (steps.getLast?.map fall).getD 0)

/-- The averages that are never negative, the indices out of a hundred, and one for each bar. -/
structure Bounded (r : RSI) : Prop where
  values : ∀ v ∈ r.values, Percent v
  gain : 0 ≤ r.avgGain
  loss : 0 ≤ r.avgLoss
  inStep : r.values.length = r.bars.length

/-- A signal of prices: no average is more than the greatest change. -/
structure Kept (r : RSI) : Prop extends Bounded r where
  priced : ∀ b ∈ r.bars, Priced b
  gain_le : r.avgGain.toInt ≤ 10 ^ 14
  loss_le : r.avgLoss.toInt ≤ 10 ^ 14

/-- The averages are words of their magnitudes. -/
theorem Bounded.words (h : Bounded r) : r.avgGain = Int64.ofNat r.avgGain.toInt.toNat ∧
    r.avgLoss = Int64.ofNat r.avgLoss.toInt.toNat := by
  have hword : ∀ a : D, 0 ≤ a → a = Int64.ofNat a.toInt.toNat := by
    intro a ha
    obtain ⟨n, hn, rfl, hint⟩ := Fixed.eq_ofNat_of_nonneg ha
    rw [hint, Int.toNat_natCast]
  exact ⟨hword _ h.gain, hword _ h.loss⟩

theorem length_pairs (l : List Candle) : (pairs (l ++ [b])).length = l.length := by
  simp [pairs]

/-- The length divides no more than as many of the greatest change. -/
theorem Kept.dividends_le (hlen : 2 ≤ c.length) (h : Kept r) (hb : Priced b) :
    (c.dividends r b).1 ≤ c.length * 10 ^ 14 ∧ (c.dividends r b).2 ≤ c.length * 10 ^ 14 := by
  have hpriced : ∀ a ∈ r.bars ++ [b], Priced a := by
    intro a ha
    rcases List.mem_append.mp ha with hin | hlast
    · exact h.priced a hin
    · rwa [List.mem_singleton.mp hlast]
  have hstep : ∀ p ∈ pairs (r.bars ++ [b]), rise p ≤ 10 ^ 14 ∧ fall p ≤ 10 ^ 14 := by
    intro p hp
    obtain ⟨hfirst, hsecond⟩ := mem_of_mem_pairs hp
    exact rise_le (hpriced _ hfirst) (hpriced _ hsecond)
  rw [dividends]
  by_cases hfull : r.bars.length = c.length
  · rw [if_pos hfull]
    have hsum : ∀ f : Candle × Candle → ℕ, (∀ p ∈ pairs (r.bars ++ [b]), f p ≤ 10 ^ 14) →
        ((pairs (r.bars ++ [b])).map f).sum ≤ c.length * 10 ^ 14 := by
      intro f hf
      have hle := List.sum_le_card_nsmul ((pairs (r.bars ++ [b])).map f) (10 ^ 14) (by
        intro n hn
        obtain ⟨p, hp, rfl⟩ := List.mem_map.mp hn
        exact hf p hp)
      rwa [List.length_map, length_pairs, hfull, smul_eq_mul] at hle
    exact ⟨hsum rise fun p hp => (hstep p hp).1, hsum fall fun p hp => (hstep p hp).2⟩
  · rw [if_neg hfull]
    have hlast : ∀ f : Candle × Candle → ℕ, (∀ p ∈ pairs (r.bars ++ [b]), f p ≤ 10 ^ 14) →
        ((pairs (r.bars ++ [b])).getLast?.map f).getD 0 ≤ 10 ^ 14 := by
      intro f hf
      cases hp : (pairs (r.bars ++ [b])).getLast? with
      | none => exact Nat.zero_le _
      | some p => exact hf p (List.mem_of_getLast? hp)
    have hmul : ∀ m : ℕ, m ≤ 10 ^ 14 → m * (c.length - 1) ≤ (c.length - 1) * 10 ^ 14 := by
      intro m hm
      rw [Nat.mul_comm]
      exact Nat.mul_le_mul_left _ hm
    have hgain := hmul _ (show r.avgGain.toInt.toNat ≤ 10 ^ 14 by have := h.gain_le; omega)
    have hloss := hmul _ (show r.avgLoss.toInt.toNat ≤ 10 ^ 14 by have := h.loss_le; omega)
    have hrise := hlast rise fun p hp => (hstep p hp).1
    have hfall := hlast fall fun p hp => (hstep p hp).2
    constructor <;> dsimp only <;> omega

/-- No sum or product on the way to the averages is beyond the largest word. -/
structure Fits (c : RSIConfig) (r : RSI) (b : Candle) : Prop where
  length : c.length * 10 ^ 8 < 2 ^ 63
  gain : (c.dividends r b).1 < 2 ^ 63
  loss : (c.dividends r b).2 < 2 ^ 63

/-- The averages once a bar was appended, in units of the last place. -/
def nextAverages (c : RSIConfig) (r : RSI) (b : Candle) : ℕ × ℕ :=
  (roundDiv (c.dividends r b).1 c.length, roundDiv (c.dividends r b).2 c.length)

/-- Prices never overflow where the length is not enormous. -/
theorem Kept.fits (hlen : 2 ≤ c.length) (hlength : c.length ≤ 92233) (h : Kept r)
    (hb : Priced b) : c.Fits r b := by
  obtain ⟨hgain, hloss⟩ := h.dividends_le hlen hb
  have hle := Nat.mul_le_mul_right (10 ^ 14) hlength
  refine ⟨?_, ?_, ?_⟩ <;> omega

/-- No average is more than the greatest change. -/
theorem Kept.nextAverages_le (hlen : 2 ≤ c.length) (h : Kept r) (hb : Priced b) :
    (c.nextAverages r b).1 ≤ 10 ^ 14 ∧ (c.nextAverages r b).2 ≤ 10 ^ 14 := by
  have hround : ∀ n, n ≤ c.length * 10 ^ 14 → roundDiv n c.length ≤ 10 ^ 14 := by
    intro n hn
    rw [roundDiv_eq (by omega), Nat.le_iff_lt_add_one, Nat.div_lt_iff_lt_mul (by omega)]
    omega
  obtain ⟨hgain, hloss⟩ := h.dividends_le hlen hb
  exact ⟨hround _ hgain, hround _ hloss⟩

/-- A change of prices is a word of its magnitude. -/
theorem Kept.moves (h : Kept r) (hb : Priced b) : ∀ p ∈ pairs (r.bars ++ [b]),
    gained (move p) = Int64.ofNat (rise p) ∧ lost (move p) = Int64.ofNat (fall p) := by
  have hpriced : ∀ a ∈ r.bars ++ [b], Priced a := by
    intro a ha
    rcases List.mem_append.mp ha with hin | hlast
    · exact h.priced a hin
    · rwa [List.mem_singleton.mp hlast]
  intro p hp
  obtain ⟨hfirst, hsecond⟩ := mem_of_mem_pairs hp
  exact gained_move (hpriced _ hfirst) (hpriced _ hsecond)

/-- The averages are the exact ones, rounded, where nothing overflows. -/
theorem Kept.averages_eq (hlen : 2 ≤ c.length) (h : Kept r) (hb : Priced b)
    (hfull : c.length ≤ r.bars.length) (hfits : c.Fits r b) : c.averages r (r.bars ++ [b]) =
      some (Int64.ofNat (c.nextAverages r b).1, Int64.ofNat (c.nextAverages r b).2) := by
  obtain ⟨hl, hgain, hloss⟩ := hfits
  have hmoves := h.moves hb
  have hcount : (r.bars ++ [b]).length = r.bars.length + 1 := by simp
  rw [nextAverages]
  rw [dividends] at hgain hloss ⊢
  unfold averages
  rw [if_neg (by omega), hcount]
  by_cases hfirst : r.bars.length = c.length
  · -- the first averages are means
    rw [if_pos hfirst] at hgain hloss ⊢
    have hsum : ∀ {f : Candle × Candle → D} {g : Candle × Candle → ℕ},
        (∀ p ∈ pairs (r.bars ++ [b]), f p = Int64.ofNat (g p)) →
        (pairs (r.bars ++ [b])).foldl (fun sum p => sum + f p) 0 =
          Int64.ofNat ((pairs (r.bars ++ [b])).map g).sum := by
      intro f g hfg
      have hfold := foldl_ofNat hfg 0
      rwa [Nat.zero_add] at hfold
    rw [if_pos (by omega), hsum fun p hp => (hmoves p hp).1, hsum fun p hp => (hmoves p hp).2]
    dsimp only
    rw [div_length hlen hl hgain, div_length hlen hl hloss]
    rfl
  · rw [if_neg hfirst] at hgain hloss ⊢
    have hsome : (pairs (r.bars ++ [b])).getLast? ≠ none := by
      rw [Ne, List.getLast?_eq_none_iff, ← List.length_eq_zero_iff, length_pairs]
      omega
    obtain ⟨p, hp⟩ := Option.ne_none_iff_exists'.mp hsome
    obtain ⟨hrise, hfall⟩ := hmoves p (List.mem_of_getLast? hp)
    obtain ⟨havg, havg'⟩ := h.words
    simp only [hp, Option.map_some, Option.getD_some] at hgain hloss ⊢
    have hblend := blend_eq hlen hl hgain
    have hblend' := blend_eq hlen hl hloss
    rw [← havg] at hblend
    rw [← havg'] at hblend'
    rw [if_neg (by omega), Option.bind_eq_bind, Option.bind_some, hrise, hfall, hblend, hblend']
    rfl

/-- Appending a bar gives it an index, and trims the bars and the indices alike. -/
theorem append_eq_some (hinStep : r.values.length = r.bars.length) {averages : D × D} {v : D}
    (havg : c.averages r (r.bars ++ [b]) = some averages)
    (hv : c.index (r.bars ++ [b]) averages = some v) : ∃ last, c.append r b = some
      ⟨(r.bars ++ [b]).rtake c.history, r.forming, (r.values ++ [v]).rtake c.history,
        averages.1, averages.2, last⟩ := by
  have hcount : (r.values ++ [v]).length = (r.bars ++ [b]).length := by
    rw [List.length_append, List.length_append, hinStep, List.length_singleton,
      List.length_singleton]
  obtain ⟨last, hlast⟩ : ∃ last,
      c.entered r.last (r.bars ++ [b]) (r.values ++ [v]) v b = some last := by
    rw [entered]
    by_cases hwarm : (r.bars ++ [b]).length ≤ c.length + 1
    · exact ⟨_, if_pos hwarm⟩
    · rw [if_neg hwarm, List.getElem?_eq_getElem (by omega)]
      exact ⟨_, rfl⟩
  refine ⟨last, ?_⟩
  unfold append
  dsimp only
  rw [havg, Option.bind_eq_bind, Option.bind_some, hv, Option.bind_eq_bind, Option.bind_some,
    hlast, List.rtake, List.rtake, hcount]
  rfl

/-- An index that panics ends the signal. -/
theorem append_eq_none {averages : D × D} (havg : c.averages r (r.bars ++ [b]) = some averages)
    (hv : c.index (r.bars ++ [b]) averages = none) : c.append r b = none := by
  unfold append
  dsimp only
  rw [havg, Option.bind_eq_bind, Option.bind_some, hv]
  rfl

/-- A bar and its index are kept or dropped together. -/
theorem zip_rtake {v : D} (hinStep : r.values.length = r.bars.length) :
    ((r.bars ++ [b]).rtake c.history).zip ((r.values ++ [v]).rtake c.history) =
      (r.bars.zip r.values ++ [(b, v)]).rtake c.history := by
  have hzip : (r.bars ++ [b]).zip (r.values ++ [v]) = r.bars.zip r.values ++ [(b, v)] := by
    rw [List.zip_append hinStep.symm]
    rfl
  have hcount : (r.values ++ [v]).length = (r.bars ++ [b]).length := by
    rw [List.length_append, List.length_append, hinStep, List.length_singleton,
      List.length_singleton]
  have hboth : ((r.bars ++ [b]).zip (r.values ++ [v])).length = (r.bars ++ [b]).length := by
    rw [List.length_zip, hcount, Nat.min_self]
  rw [← hzip, List.rtake, List.rtake, List.rtake, hcount, hboth, List.zip, List.drop_zipWith]

/-- A bar appended: it got an index, the averages and indices are as they should be, and each bar
keeps its index as long as it is kept. -/
def Appended (c : RSIConfig) (r : RSI) (b : Candle) (r' : RSI) : Prop :=
  Kept r' ∧ ∃ v, r'.bars.zip r'.values = (r.bars.zip r.values ++ [(b, v)]).rtake c.history

/-- What is appended is kept. -/
theorem Kept.appended (h : Kept r) (hb : Priced b) (gain loss : ℕ) (v : D)
    (havg : c.averages r (r.bars ++ [b]) = some (Int64.ofNat gain, Int64.ofNat loss))
    (hgain : gain ≤ 10 ^ 14) (hloss : loss ≤ 10 ^ 14)
    (hv : c.index (r.bars ++ [b]) (Int64.ofNat gain, Int64.ofNat loss) = some v)
    (hpercent : Percent v) :
    ∃ r', c.append r b = some r' ∧ c.Appended r b r' := by
  obtain ⟨last, happend⟩ := append_eq_some h.inStep havg hv
  refine ⟨_, happend, ⟨⟨?_, ?_, ?_, ?_⟩, ?_, ?_, ?_⟩, v, zip_rtake h.inStep⟩
  · intro w hw
    rcases List.mem_append.mp (List.mem_of_mem_drop hw) with hin | hlast
    · exact h.values w hin
    · rwa [List.mem_singleton.mp hlast]
  · rw [Int64.le_iff_toInt_le]
    dsimp only
    rw [Int64.toInt_ofNat_of_lt (by omega)]
    exact Int.natCast_nonneg _
  · rw [Int64.le_iff_toInt_le]
    dsimp only
    rw [Int64.toInt_ofNat_of_lt (by omega)]
    exact Int.natCast_nonneg _
  · dsimp only
    rw [length_rtake, length_rtake, List.length_append, List.length_append, h.inStep,
      List.length_singleton, List.length_singleton]
  · intro a ha
    rcases List.mem_append.mp (List.mem_of_mem_drop ha) with hin | hlast
    · exact h.priced a hin
    · rwa [List.mem_singleton.mp hlast]
  · dsimp only
    rw [Int64.toInt_ofNat_of_lt (by omega)]
    exact_mod_cast hgain
  · dsimp only
    rw [Int64.toInt_ofNat_of_lt (by omega)]
    exact_mod_cast hloss

/-- While warming up a bar has no index, and the averages do not change. -/
theorem Kept.append_warming (h : Kept r) (hb : Priced b) (hwarm : r.bars.length < c.length) :
    ∃ r', c.append r b = some r' ∧ c.Appended r b r' := by
  have hcount : (r.bars ++ [b]).length ≤ c.length := by
    rw [List.length_append, List.length_singleton]
    exact hwarm
  obtain ⟨hgain, hloss⟩ := h.words
  have hgain_le := h.gain_le
  have hloss_le := h.loss_le
  refine h.appended hb r.avgGain.toInt.toNat r.avgLoss.toInt.toNat 0 ?_ (by omega) (by omega)
    (if_pos hcount) (by decide)
  rw [averages, if_pos hcount, ← hgain, ← hloss]

/-- Where no sum or product overflows, a bar is appended exactly if the averages divide. -/
theorem Kept.append_iff (hlen : 2 ≤ c.length) (h : Kept r) (hb : Priced b)
    (hfull : c.length ≤ r.bars.length) (hfits : c.Fits r b) :
    (Divides (c.nextAverages r b).1 (c.nextAverages r b).2 →
      ∃ r', c.append r b = some r' ∧ c.Appended r b r') ∧
    (¬ Divides (c.nextAverages r b).1 (c.nextAverages r b).2 → c.append r b = none) := by
  have hcount : ¬ (r.bars ++ [b]).length ≤ c.length := by
    rw [List.length_append, List.length_singleton]
    omega
  have havg := h.averages_eq hlen hb hfull hfits
  obtain ⟨hgain, hloss⟩ := h.nextAverages_le hlen hb
  obtain ⟨hdivides, hnot⟩ := @rsiOf_spec (c.nextAverages r b).1 (c.nextAverages r b).2
    (by omega) (by omega)
  constructor
  · intro hd
    obtain ⟨v, hv, hpercent⟩ := hdivides hd
    exact h.appended hb _ _ v havg hgain hloss ((if_neg hcount).trans hv) hpercent
  · exact fun hd => append_eq_none havg ((if_neg hcount).trans (hnot hd))

/-! ## Runs -/

/-- While a stream is fed, a bar is appended to a signal: by itself, or as one of a seed. -/
inductive Appends (c : RSIConfig) (events : List Event) (r : RSI) (b : Candle) : Prop
  | apply (before : List Event) (now : Time) (hin : before ++ [.apply b now] <+: events)
      (hrun : c.run before = some r) (hclosed : b.Closed now) (hfollows : Follows r.bars b)
  | seed (before : List Event) (s : Seeding) (now : Time) (hin : before ++ [.seed s now] <+: events)
      (bars : List Candle) (hbars : bars ++ [b] <+: s.sorted)
      (hreplay : bars.foldlM (c.replay now) {} = some r) (hclosed : b.Closed now)
      (hfollows : Follows r.bars b)

/-- The averages once a bar is appended overflow nowhere, and divide. -/
structure Sound (c : RSIConfig) (r : RSI) (b : Candle) : Prop extends Fits c r b where
  divides : Divides (c.nextAverages r b).1 (c.nextAverages r b).2

/-- The bars an event brings are prices. -/
def PricedEvent : Event → Prop
  | .seed s _ => ∀ b ∈ s.bars, Priced b
  | .apply b _ => Priced b

/-- Every bar appended to a signal of prices leaves one. -/
def Feeds (c : RSIConfig) (events : List Event) : Prop :=
  ∀ r b, c.Appends events r b → Kept r → Priced b → ∃ r', c.append r b = some r' ∧ c.Appended r b r'

section Runs

variable {events before : List Event} {e : Event} {now : Time}

/-- What is appended early in a stream is appended in it. -/
theorem Appends.mono (h : c.Appends before r b) (hin : before <+: events) :
    c.Appends events r b := by
  cases h with
  | apply before' now hin' hrun hclosed hfollows =>
    exact .apply before' now (hin'.trans hin) hrun hclosed hfollows
  | seed before' s now hin' bars hbars hreplay hclosed hfollows =>
    exact .seed before' s now (hin'.trans hin) bars hbars hreplay hclosed hfollows

/-- The signal starts as one of prices. -/
theorem kept_empty : Kept {} :=
  ⟨⟨fun _ hv => (nomatch hv), by decide, by decide, rfl⟩, fun _ hb => (nomatch hb), by decide,
    by decide⟩

/-- The forming bar does not matter. -/
theorem Kept.forming (h : Kept r) (f : Option Candle) : Kept { r with forming := f } :=
  ⟨⟨h.values, h.gain, h.loss, h.inStep⟩, h.priced, h.gain_le, h.loss_le⟩

theorem run_append : c.run (before ++ [e]) = (c.run before).bind fun r => c.step r e := foldlM_concat

/-- A seed comes to a signal of prices. -/
theorem Feeds.replay {s : Seeding} (hfeeds : c.Feeds events)
    (hin : before ++ [.seed s now] <+: events) (hpriced : ∀ b ∈ s.bars, Priced b)
    {l : List Candle} (hl : l <+: s.sorted) : ∃ r, l.foldlM (c.replay now) {} = some r ∧ Kept r := by
  induction l using List.reverseRecOn with
  | nil => exact ⟨_, rfl, kept_empty⟩
  | append_singleton l b ih =>
    obtain ⟨r, hr, hkept⟩ := ih ((List.prefix_append l [b]).trans hl)
    have hb : Priced b := hpriced b (s.perm.mem_iff.mp (hl.subset (by simp)))
    rw [foldlM_concat, hr, Option.bind_some, RSIConfig.replay]
    by_cases hclosed : b.Closed now
    · rw [if_neg (not_not.mpr hclosed)]
      by_cases hfollows : Follows r.bars b
      · rw [if_pos hfollows]
        obtain ⟨r', happend, happended⟩ :=
          hfeeds r b (.seed before s now hin l hl hr hclosed hfollows) hkept hb
        exact ⟨r', happend, happended.1⟩
      · rw [if_neg hfollows]
        exact ⟨r, rfl, hkept⟩
    · rw [if_pos hclosed]
      exact ⟨_, rfl, hkept.forming _⟩

/-- A stream comes to a signal of prices. -/
theorem Feeds.run (hfeeds : c.Feeds events) (hpriced : ∀ e ∈ events, PricedEvent e)
    (hin : before <+: events) : ∃ r, c.run before = some r ∧ Kept r := by
  induction before using List.reverseRecOn with
  | nil => exact ⟨_, rfl, kept_empty⟩
  | append_singleton before e ih =>
    obtain ⟨r, hr, hkept⟩ := ih ((List.prefix_append before [e]).trans hin)
    have he : PricedEvent e := hpriced e (hin.subset (by simp))
    rw [run_append, hr, Option.bind_some]
    cases e with
    | seed s now => exact hfeeds.replay hin he (List.prefix_refl _)
    | apply b now =>
      change ∃ r', c.apply r b now = some r' ∧ Kept r'
      unfold RSIConfig.apply
      dsimp only
      by_cases hkeep : b.Closed now ∧ Follows r.bars b
      · rw [if_pos hkeep]
        obtain ⟨r', happend, happended⟩ :=
          hfeeds r b (.apply before now hin hr hkeep.1 hkeep.2) hkept he
        rw [happend]
        exact ⟨_, rfl, happended.1.forming _⟩
      · rw [if_neg hkeep]
        exact ⟨_, rfl, hkept.forming _⟩

/-- What a bar is appended to is a signal of prices, and so is the bar. -/
theorem Feeds.appends (hfeeds : c.Feeds events) (hpriced : ∀ e ∈ events, PricedEvent e)
    (h : c.Appends events r b) : Kept r ∧ Priced b := by
  cases h with
  | apply before now hin hrun hclosed hfollows =>
    obtain ⟨r', hr', hkept⟩ := hfeeds.run hpriced ((List.prefix_append _ _).trans hin)
    obtain rfl := Option.some.inj (hrun.symm.trans hr')
    have hb : PricedEvent (.apply b now) := hpriced _ (hin.subset (by simp))
    exact ⟨hkept, hb⟩
  | seed before s now hin bars hbars hreplay hclosed hfollows =>
    have hs : PricedEvent (.seed s now) := hpriced _ (hin.subset (by simp))
    obtain ⟨r', hr', hkept⟩ := hfeeds.replay hin hs ((List.prefix_append _ _).trans hbars)
    obtain rfl := Option.some.inj (hreplay.symm.trans hr')
    exact ⟨hkept, hs b (s.perm.mem_iff.mp (hbars.subset (by simp)))⟩

/-- In a stream that does not panic no bar appended does. -/
theorem Appends.append_isSome (h : c.Appends events r b) (hrun : (c.run events).isSome) :
    (c.append r b).isSome := by
  cases h with
  | apply before now hin hbefore hclosed hfollows =>
    have hsome : (c.run (before ++ [.apply b now])).isSome := isSome_foldlM_of_prefix hin hrun
    rw [run_append, hbefore, Option.bind_some] at hsome
    change (c.apply r b now).isSome at hsome
    unfold RSIConfig.apply at hsome
    dsimp only at hsome
    rwa [if_pos ⟨hclosed, hfollows⟩, Option.isSome_map] at hsome
  | seed before s now hin bars hbars hreplay hclosed hfollows =>
    have hsome : (c.run (before ++ [.seed s now])).isSome := isSome_foldlM_of_prefix hin hrun
    rw [run_append] at hsome
    obtain ⟨r₀, hr₀⟩ := Option.isSome_iff_exists.mp (Option.isSome_of_isSome_bind hsome)
    rw [hr₀, Option.bind_some] at hsome
    have hbar := isSome_foldlM_of_prefix hbars hsome
    rw [foldlM_concat, hreplay, Option.bind_some, RSIConfig.replay, if_neg (not_not.mpr hclosed),
      if_pos hfollows] at hbar
    exact hbar

/-- Sound appends leave signals of prices. -/
theorem feeds_of_sound (hvalid : c.validate = .ok ())
    (hsound : ∀ r b, c.Appends events r b → c.length ≤ r.bars.length → c.Sound r b) :
    c.Feeds events := by
  intro r b happends hkept hb
  by_cases hwarm : r.bars.length < c.length
  · exact hkept.append_warming hb hwarm
  · have h := hsound r b happends (not_lt.mp hwarm)
    have hiff := hkept.append_iff (validate_eq_ok hvalid) hb (not_lt.mp hwarm) h.toFits
    exact hiff.1 h.divides

/-- A stream that does not panic leaves signals of prices, and its appends are sound, where the
length is not enormous. -/
theorem sound_of_run (hvalid : c.validate = .ok ()) (hlength : c.length ≤ 92233)
    (hrun : (c.run events).isSome) (happends : c.Appends events r b) (hkept : Kept r)
    (hb : Priced b) (hfull : c.length ≤ r.bars.length) : c.Sound r b := by
  have hlen := validate_eq_ok hvalid
  have hfits := hkept.fits hlen hlength hb
  refine ⟨hfits, ?_⟩
  by_contra hdivides
  have hsome := happends.append_isSome hrun
  rw [(hkept.append_iff hlen hb hfull hfits).2 hdivides] at hsome
  exact nomatch hsome

theorem feeds_of_run (hvalid : c.validate = .ok ()) (hlength : c.length ≤ 92233)
    (hrun : (c.run events).isSome) : c.Feeds events := by
  intro r b happends hkept hb
  by_cases hwarm : r.bars.length < c.length
  · exact hkept.append_warming hb hwarm
  · have h := sound_of_run hvalid hlength hrun happends hkept hb (not_lt.mp hwarm)
    have hiff := hkept.append_iff (validate_eq_ok hvalid) hb (not_lt.mp hwarm) h.toFits
    exact hiff.1 h.divides

end Runs

/-- A signal in step is shown. -/
theorem Bounded.state_isSome (h : Bounded r) (now : Time) : (c.state r now).isSome := by
  have hexpiry : ∀ x, ∃ t, c.expiry r x = some t := by
    intro x
    unfold expiry
    dsimp only
    cases hlast : r.values.getLast? with
    | none => exact ⟨_, rfl⟩
    | some v =>
      have hpos := List.length_pos_of_mem (List.mem_of_getLast? hlast)
      have hin := h.inStep
      dsimp only
      by_cases hzone : c.InZone x.side v
      · rw [if_neg (not_not.mpr hzone), List.getElem?_eq_getElem (by omega)]
        exact ⟨_, rfl⟩
      · rw [if_pos hzone]
        exact ⟨_, rfl⟩
  have hindexed : ∀ p ∈ r.bars.zipIdx,
      (r.values[p.2]?.map fun value => RSIPoint.mk p.1.open p.1.c value).isSome := by
    intro p hp
    have hlt := List.snd_lt_of_mem_zipIdx hp
    have hin := h.inStep
    rw [Option.isSome_map, List.getElem?_eq_getElem (by omega)]
    rfl
  obtain ⟨points, hpoints⟩ := mapM_eq_some hindexed
  unfold state
  rw [hpoints, Option.bind_eq_bind, Option.bind_some]
  cases r.last with
  | none => rfl
  | some x =>
    obtain ⟨t, ht⟩ := hexpiry x
    dsimp only
    rw [ht]
    rfl

end RSIConfig

/-- In any stream of prices whose appends overflow nowhere and have averages that divide, nothing
panics, the indices are out of a hundred and the averages never negative, and each bar keeps its
index as long as it is kept. Where the length is not enormous, any other stream panics. -/
theorem rsi_bounded (c : RSIConfig) (hvalid : c.validate = .ok ()) (events : List Event)
    (hpriced : ∀ e ∈ events, RSIConfig.PricedEvent e) :
    ((∀ r b, c.Appends events r b → c.length ≤ r.bars.length → c.Sound r b) →
      (∃ r, c.run events = some r ∧ RSIConfig.Bounded r ∧ ∀ now, (c.state r now).isSome) ∧
      ∀ r b, c.Appends events r b → ∃ r', c.append r b = some r' ∧ RSIConfig.Bounded r' ∧
        ∃ v, r'.bars.zip r'.values = (r.bars.zip r.values ++ [(b, v)]).rtake c.history) ∧
    (c.length ≤ 92233 → (c.run events).isSome →
      ∀ r b, c.Appends events r b → c.length ≤ r.bars.length → c.Sound r b) := by
  constructor
  · intro hsound
    have hfeeds := RSIConfig.feeds_of_sound hvalid hsound
    constructor
    · obtain ⟨r, hrun, hkept⟩ := hfeeds.run hpriced (List.prefix_refl events)
      exact ⟨r, hrun, hkept.toBounded, hkept.state_isSome⟩
    · intro r b happends
      obtain ⟨hkept, hb⟩ := hfeeds.appends hpriced happends
      obtain ⟨r', happend, hkept', hstep⟩ := hfeeds r b happends hkept hb
      exact ⟨r', happend, hkept'.toBounded, hstep⟩
  · intro hlength hrun r b happends hfull
    have hfeeds := RSIConfig.feeds_of_run hvalid hlength hrun
    obtain ⟨hkept, hb⟩ := hfeeds.appends hpriced happends
    exact RSIConfig.sound_of_run hvalid hlength hrun happends hkept hb hfull

/-- An index of two bars. -/
def twoBars : RSIConfig :=
  ⟨"BTC", .minute, 2, Fixed.fromInt 30, Fixed.fromInt 70, 3 * .minute, 4⟩

/-- The price of every bar fed is a price. -/
theorem fed_priced {prices : List D} (h : ∀ p ∈ prices, 0 < p ∧ p ≤ Fixed.fromInt 1000000) :
    ∀ e ∈ fed prices, RSIConfig.PricedEvent e := by
  intro e he
  obtain ⟨i, hi, rfl⟩ := List.mem_mapIdx.mp he
  exact h _ (List.getElem_mem hi)

/-- Up, down and up again. -/
theorem rsi_bounded_back : ∃ r, twoBars.run (fed [5, 6, 5, 6]) = some r ∧ RSIConfig.Bounded r ∧
    ∀ now, (twoBars.state r now).isSome := by
  have h := rsi_bounded twoBars (by decide +kernel) (fed [5, 6, 5, 6]) (fed_priced (by decide +kernel))
  exact (h.1 (h.2 (by decide +kernel) (by decide +kernel))).1

/-- A little off a price of one, and then a jump to a million: the average fall is the last place of
a decimal, and nothing it divides the average rise into fits. -/
theorem rsi_panics : (∀ e ∈ fed (100000007 :: List.replicate 13 100000000 ++ [100000000000000]),
      RSIConfig.PricedEvent e) ∧
    (defaultRSI "BTC").validate = .ok () ∧
    (defaultRSI "BTC").run (fed (100000007 :: List.replicate 13 100000000 ++ [100000000000000])) =
      none :=
  ⟨fed_priced (by decide +kernel), by decide +kernel, by decide +kernel⟩

end SuperAgent.Strategy
