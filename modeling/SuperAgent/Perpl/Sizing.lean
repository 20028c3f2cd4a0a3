import SuperAgent.Fixed.Steps
import SuperAgent.Perpl.Convert
import Mathlib.Tactic.IntervalCases

/-!
# The size of an order

An order asked for by its notional is sized at the mark, fitted to the market's
step and written in the venue's integer units. The quotient is rounded to the
nearest before it is rounded down to a step, so that it may come out above the
notional.
-/

namespace SuperAgent.Fixed

variable {n t : ℕ}

/-- A multiple of the step of a number of decimals is exact in as many. -/
theorem dvd_scaled {decimals : ℕ} (hstep : 10 ^ (8 - decimals) ∣ n) :
    10 ^ 8 ∣ n * 10 ^ decimals := by
  have hpow : 10 ^ 8 ∣ 10 ^ (8 - decimals) * 10 ^ decimals := by
    rw [← pow_add]
    exact pow_dvd_pow 10 (by omega)
  exact hpow.trans (Nat.mul_dvd_mul_right hstep _)

/-- An integer that is not beyond the largest with many decimals is not with few. -/
theorem scaled_lt {decimals : ℕ} (hn : n < 2 ^ 63)
    (hfits : ¬ (8 ≤ decimals ∧ 2 ^ 63 ≤ n * 10 ^ (decimals - 8))) :
    n * 10 ^ decimals / 10 ^ 8 < 2 ^ 63 := by
  by_cases h8 : 8 ≤ decimals
  · have hpow : n * 10 ^ decimals = n * 10 ^ (decimals - 8) * 10 ^ 8 := by
      rw [Nat.mul_assoc, ← pow_add, Nat.sub_add_cancel h8]
    rw [hpow, Nat.mul_div_cancel _ (by decide)]
    exact not_le.mp fun h => hfits ⟨h8, h⟩
  · have hle : n * 10 ^ decimals ≤ n * 10 ^ 8 :=
      Nat.mul_le_mul_left n (Nat.pow_le_pow_right (by decide) (by omega))
    exact lt_of_le_of_lt (Nat.div_le_of_le_mul (by rwa [Nat.mul_comm (10 ^ 8)])) hn

/-- A multiple of the step of a number of decimals has an integer with as many, unless that does
not fit. -/
theorem toScaled_ofNat {decimals : ℕ} (hn : n < 2 ^ 63) (hdec : decimals < 19)
    (hstep : 10 ^ (8 - decimals) ∣ n) : toScaled (Int64.ofNat n) decimals =
      if 8 ≤ decimals ∧ 2 ^ 63 ≤ n * 10 ^ (decimals - 8) then
        .error (.errRange (string (Int64.ofNat n) ++ " to 1e" ++ toString (decimals : ℤ)))
      else .ok (Int64.ofNat (n * 10 ^ decimals / 10 ^ 8)) := by
  have hrange : ¬ ((decimals : ℤ) < 0 ∨ (pow10s : ℤ) ≤ decimals) := by
    unfold pow10s
    omega
  have hsign : sign (Int64.ofNat n) = 1 := if_neg (not_neg_ofNat hn)
  have hint := Int64.toInt_ofNat_of_lt hn
  rw [toScaled, if_neg hrange]
  by_cases h8 : 8 ≤ decimals
  · have hexp : (exp : ℤ) ≤ decimals := by
      unfold exp
      omega
    have hpow : n * 10 ^ decimals / 10 ^ 8 = n * 10 ^ (decimals - 8) := by
      rw [show decimals = decimals - 8 + 8 by omega, pow_add, ← Nat.mul_assoc,
        Nat.mul_div_cancel _ (by decide)]
      rfl
    rw [if_pos hexp, hint, hsign, hpow]
    dsimp only
    rw [Int.natAbs_natCast, Int.toNat_natCast, exp, Int64.one_mul]
    by_cases hmax : 2 ^ 63 ≤ n * 10 ^ (decimals - 8)
    · rw [if_pos (by unfold maxInt64; omega), if_pos ⟨h8, hmax⟩]
    · rw [if_neg (by unfold maxInt64; omega), if_neg fun h => hmax h.2]
  · have hexp : ¬ (exp : ℤ) ≤ decimals := by
      unfold exp
      omega
    obtain ⟨k, rfl⟩ := hstep
    have hpow : 10 ^ (8 - decimals) * k * 10 ^ decimals / 10 ^ 8 = k := by
      rw [show 10 ^ (8 - decimals) * k * 10 ^ decimals = k * 10 ^ 8 by
        rw [Nat.mul_comm (10 ^ (8 - decimals)) k, Nat.mul_assoc, ← pow_add]
        congr 2
        omega, Nat.mul_div_cancel _ (by decide)]
    rw [if_neg hexp, if_neg fun h => h8 h.1, hint, hpow]
    dsimp only
    rw [Int.toNat_natCast, exp]
    push_cast
    have hne : (10 ^ (8 - decimals) : ℤ) ≠ 0 := by positivity
    rw [Int.mul_tdiv_cancel_left _ hne, Int.mul_tmod_right, abs_zero, zero_mul,
      if_neg (not_le.mpr (by positivity))]
    rfl

end SuperAgent.Fixed

namespace SuperAgent.Perpl

open Fixed (D value)
open Venue (Side OrderRequest)

/-- The smallest increment of a number of decimals: one decimal is `0.1`. -/
def tickFor (decimals : Int) : D :=
  if decimals ≤ 0 then Fixed.fromInt 1 else
    let step := Nat.iterate (· / 10) decimals.toNat Fixed.scale
    if step = 0 then 1 else step

/-- A market as an order is built for it. -/
structure Listing extends Market where
  /-- The largest leverage, in hundredths. -/
  initialMargin : Int64

/-- The venue's type of an order that opens or closes a side. -/
def orderType (side : Side) (reduce : Bool) : ℕ :=
  match side, reduce with
  | .long, false => 1
  | .short, false => 2
  | .long, true => 3
  | _, true => 4
  | _, false => 4

/-- What the frame of an order says of it. -/
structure OrderFrame where
  market : Int
  type : ℕ
  /-- In the venue's integer units; zero for a market order. -/
  price : Int64
  /-- In the venue's integer units. -/
  size : Int64
  /-- In hundredths. -/
  leverage : D
  deriving DecidableEq

/-- Building an order: it may fail with an error, or panic. -/
abbrev Builds := ExceptT String Option

/-- What a request asks for, at a mark. -/
def orderSize (req : OrderRequest) (mark : Except String D) : Builds D :=
  if req.size ≠ 0 then pure req.size
  else if req.notional = 0 then throw "perpl: order requires Size or Notional"
  else match mark with
    | .error e => throw e
    | .ok mark => ExceptT.lift (Fixed.div req.notional mark)

/-- The limit of an order in the venue's integer units, zero for a market order. -/
def scaledPrice (m : Listing) (price : D) : Except Fixed.Error Int64 :=
  if price = 0 then .ok 0
  else Fixed.toScaled (Fixed.roundToNearest price (tickFor m.priceDecimals)) m.priceDecimals

/-- The frame of a size: fitted to the market's step and written in its integer units. -/
def sizedFrame (m : Listing) (req : OrderRequest) (price lev size : D) : Builds OrderFrame := do
  let step := tickFor m.sizeDecimals
  let size := Fixed.roundDownTo size step
  if ¬ 0 < size then
    throw ("perpl: size rounds to zero at " ++ m.ticker ++ " step " ++ Fixed.string step)
  let scaledSize ← ExceptT.mk (some ((Fixed.toScaled size m.sizeDecimals).mapError (·.text)))
  let scaledPrice ← ExceptT.mk (some ((scaledPrice m price).mapError (·.text)))
  let leverage ← ExceptT.lift (Fixed.mul lev (Fixed.fromInt 100))
  return ⟨m.id, orderType req.side req.reduce, scaledPrice, scaledSize, leverage⟩

/-- The frame of an order with a limit, or of a market order where that is zero. The mark is what
the venue answers when it is asked for one. -/
def buildOrder (m : Listing) (req : OrderRequest) (price : D) (mark : Except String D) :
    Builds OrderFrame := do
  if req.clientID = "" then throw "perpl: order requires a ClientID for idempotency"
  if req.side ≠ .long ∧ req.side ≠ .short then throw "perpl: order requires a side"
  let maxLev ← ExceptT.lift (Fixed.div (Fixed.fromInt m.initialMargin) (Fixed.fromInt 100))
  let lev := if req.leverage = 0 then Fixed.fromInt 1 else req.leverage
  if maxLev < lev then
    throw ("perpl: leverage " ++ Fixed.string lev ++ " exceeds " ++ m.ticker ++ " maximum " ++
      Fixed.string maxLev)
  let size ← orderSize req mark
  sizedFrame m req price lev size

/-! ## Steps -/

/-- Ten into the unit as often as there are decimals, and never less than one. -/
theorem tickFor_toInt {decimals : ℕ} : tickFor decimals = Int64.ofNat (10 ^ (8 - decimals)) := by
  rcases decimals with _ | n
  · rfl
  · have hpos : ¬ ((n + 1 : ℕ) : ℤ) ≤ 0 := by omega
    have hzero : ∀ k, Nat.iterate (· / 10) k (0 : D) = 0 := by
      intro k
      induction k with
      | zero => rfl
      | succ k ih => rw [Function.iterate_succ_apply']; rw [ih]; rfl
    rw [tickFor, if_neg hpos, Int.toNat_natCast]
    dsimp only
    by_cases hn : n < 8
    · interval_cases n <;> rfl
    · obtain ⟨k, rfl⟩ := Nat.exists_eq_add_of_le (not_lt.mp hn)
      have hiter : Nat.iterate (· / 10) (8 + k + 1) Fixed.scale = (0 : D) := by
        rw [show 8 + k + 1 = k + 9 by omega, Function.iterate_add_apply]
        exact hzero k
      rw [hiter, if_pos rfl, show 8 - (8 + k + 1) = 0 by omega]
      rfl

/-! ## What a frame must say -/

/-- The notional at the mark, in units of a decimal's last place, without the division's rest. -/
def quotient (notional mark : D) : ℕ := notional.toInt.natAbs * 10 ^ 8 / mark.toInt.natAbs

/-- Building an order of a notional ended in an error, or in a frame whose size is a positive
multiple of the step, is the sized decimal exactly and is worth no more than the notional. -/
def Meets (m : Listing) (req : OrderRequest) (mark : D) (o : Builds OrderFrame) : Prop :=
  match o.run with
  | none => False
  | some (.error _) => True
  | some (.ok f) => 0 < f.size ∧ ∃ (size : D) (k : ℕ), 0 < k ∧
      size.toInt = k * (tickFor m.sizeDecimals).toInt ∧
      value size * 10 ^ m.sizeDecimals = f.size.toInt ∧
        value size * value mark ≤ value req.notional

/-- The request is refused before it is sized. -/
def Refused (m : Listing) (req : OrderRequest) : Prop :=
  req.clientID = "" ∨ (req.side ≠ .long ∧ req.side ≠ .short) ∨
    ∃ maxLev, Fixed.div (Fixed.fromInt m.initialMargin) (Fixed.fromInt 100) = some maxLev ∧
      maxLev < if req.leverage = 0 then Fixed.fromInt 1 else req.leverage

/-- The quotient is rounded up, to a multiple of the market's step. -/
def Oversteps (m : Listing) (notional mark : D) : Prop :=
  mark.toInt.natAbs ≤ notional.toInt.natAbs * 10 ^ 8 % mark.toInt.natAbs * 2 ∧
    (tickFor m.sizeDecimals).toInt.natAbs ∣ quotient notional mark + 1

/-- The rounded quotient is beyond the largest decimal. -/
def Overflows (notional mark : D) : Prop :=
  (2 ^ 64 - 1) * mark.toInt.natAbs ≤ 2 * (notional.toInt.natAbs * 10 ^ 8) ∧
    ¬ Fixed.Wraps notional Fixed.scale mark

/-- The size or the limit has no integer the venue can be sent, or the quotient wraps to zero. -/
def Unsent (m : Listing) (price notional mark : D) : Prop :=
  Fixed.Wraps notional Fixed.scale mark ∨ m.sizeDecimals < 0 ∨ 19 ≤ m.sizeDecimals ∨
    (8 ≤ m.sizeDecimals ∧
      2 ^ 63 ≤ (quotient notional mark + 1) * 10 ^ (m.sizeDecimals.toNat - 8)) ∨
    ∃ e, scaledPrice m price = .error e

/-- A multiple of the step below a rounded quotient is worth at most what was divided, unless the
quotient was rounded up to a multiple. -/
theorem floor_roundDiv_le_iff {p q t : ℕ} (hq : 0 < q) :
    roundDiv p q / t * t * q ≤ p ↔ ¬ (q ≤ p % q * 2 ∧ t ∣ p / q + 1) := by
  have hmod := Nat.mod_lt p hq
  have hdiv := Nat.div_add_mod p q
  have hfloor : ∀ r, r / t * t ≤ r := fun r => Nat.div_mul_le_self r t
  unfold roundDiv
  by_cases hround : q ≤ p % q * 2
  · rw [if_pos hround]
    by_cases hdvd : t ∣ p / q + 1
    · rw [Nat.div_mul_cancel hdvd]
      refine ⟨fun hle => ?_, fun h => absurd ⟨hround, hdvd⟩ h⟩
      rw [Nat.add_mul, Nat.one_mul, Nat.mul_comm (p / q) q] at hle
      omega
    · refine ⟨fun _ h => hdvd h.2, fun _ => ?_⟩
      have hlt : (p / q + 1) / t * t < p / q + 1 :=
        lt_of_le_of_ne (hfloor _) fun heq => hdvd ⟨_, by rw [Nat.mul_comm, heq]⟩
      calc (p / q + 1) / t * t * q ≤ p / q * q := Nat.mul_le_mul_right q (by omega)
        _ ≤ p := Nat.div_mul_le_self p q
  · rw [if_neg hround]
    refine ⟨fun _ h => hround h.1, fun _ => ?_⟩
    calc p / q / t * t * q ≤ p / q * q := Nat.mul_le_mul_right q (hfloor _)
      _ ≤ p := Nat.div_mul_le_self p q

section Build

variable {m : Listing} {req : OrderRequest} {price mark lev maxLev : D}

/-- A hundredth never panics. -/
theorem div_hundred (x : D) : ∃ y, Fixed.div x (Fixed.fromInt 100) = some y ∧
    y.toInt.natAbs = roundDiv x.toInt.natAbs 100 ∧ (0 < y → 0 < x) := by
  have hlow := x.le_toInt
  have hhigh := x.toInt_lt
  have hscale : Fixed.scale.toInt.natAbs = 10 ^ 8 := by decide
  have hhundred : (Fixed.fromInt 100).toInt.natAbs = 100 * 10 ^ 8 := by decide
  have hwraps : ¬ Fixed.Wraps x Fixed.scale (Fixed.fromInt 100) := by
    unfold Fixed.Wraps
    rw [hscale, hhundred]
    omega
  have hmag : Fixed.magnitude x Fixed.scale (Fixed.fromInt 100) = roundDiv x.toInt.natAbs 100 := by
    rw [Fixed.magnitude, hscale, hhundred, roundDiv_mul_mul_right _ _ (by decide)]
  have hround := roundDiv_mul_le x.toInt.natAbs (show 0 < 100 by decide)
  have hneg : ((decide (x < 0)).xor (decide (Fixed.scale < 0))).xor
      (decide (Fixed.fromInt 100 < 0)) = decide (x < 0) := by
    have hs : decide (Fixed.scale < 0) = false := by decide
    have hh : decide (Fixed.fromInt 100 < 0) = false := by decide
    rw [hs, hh, Bool.xor_false, Bool.xor_false]
  refine ⟨if decide (x < 0) then -Int64.ofNat (roundDiv x.toInt.natAbs 100)
    else Int64.ofNat (roundDiv x.toInt.natAbs 100), ?_, ?_, ?_⟩
  · rw [Fixed.div, Fixed.mulDiv_eq (by decide), if_neg hwraps, hmag,
      if_neg (by unfold Fixed.maxInt64; omega), hneg]
  · by_cases hx : x < 0
    · rw [if_pos (decide_eq_true hx), Int64.toInt_neg_ofNat_of_le (by omega), Int.natAbs_neg,
        Int.natAbs_natCast]
    · rw [if_neg fun h => hx (of_decide_eq_true h), Int64.toInt_ofNat_of_lt (by omega),
        Int.natAbs_natCast]
  · intro hpos
    rw [Int64.lt_iff_toInt_lt] at hpos ⊢
    have hzero : (0 : Int64).toInt = 0 := rfl
    by_cases hx : x < 0
    · rw [if_pos (decide_eq_true hx), Int64.toInt_neg_ofNat_of_le (by omega)] at hpos
      omega
    · rw [if_neg fun h => hx (of_decide_eq_true h), Int64.toInt_ofNat_of_lt (by omega)] at hpos
      rw [Int64.lt_iff_toInt_lt] at hx
      by_contra hle
      have hnat : x.toInt.natAbs = 0 := by omega
      rw [hnat] at hpos
      exact absurd hpos (by decide)

/-- A leverage within a market's largest is one a frame can carry. -/
theorem leverage_fits (hlev : 0 < lev)
    (hmax : Fixed.div (Fixed.fromInt m.initialMargin) (Fixed.fromInt 100) = some maxLev)
    (hle : lev ≤ maxLev) : ∃ l, Fixed.mul lev (Fixed.fromInt 100) = some l := by
  obtain ⟨y, hy, hnat, hpos⟩ := div_hundred (Fixed.fromInt m.initialMargin)
  obtain rfl : maxLev = y := Option.some.inj (hmax.symm.trans hy)
  have hmargin := hpos (Int64.lt_of_lt_of_le hlev hle)
  have hround := roundDiv_mul_le (Fixed.fromInt m.initialMargin).toInt.natAbs
    (show 0 < 100 by decide)
  -- a whole number of units is a multiple of 256 wherever it wraps
  have hdvd : (256 : ℤ) ∣ (Fixed.fromInt m.initialMargin).toInt := by
    have hscale : Fixed.scale.toInt = 256 * 390625 := by decide
    rw [Fixed.fromInt, Int64.toInt_mul, hscale, Int.bmod_eq_self_sub_mul_bdiv]
    refine Int.dvd_sub ⟨m.initialMargin.toInt * 390625, by ring⟩ ?_
    exact ⟨2 ^ 56 * (m.initialMargin.toInt * (256 * 390625)).bdiv (2 ^ 64), by ring⟩
  have hhigh := (Fixed.fromInt m.initialMargin).toInt_lt
  have hzero : (0 : Int64).toInt = 0 := rfl
  rw [Int64.lt_iff_toInt_lt] at hlev hmargin
  rw [Int64.le_iff_toInt_le] at hle
  have hscale : Fixed.scale.toInt.natAbs = 10 ^ 8 := by decide
  have hhundred : (Fixed.fromInt 100).toInt.natAbs = 100 * 10 ^ 8 := by decide
  have hmag : Fixed.magnitude lev (Fixed.fromInt 100) Fixed.scale = lev.toInt.natAbs * 100 := by
    rw [Fixed.magnitude, hscale, hhundred, ← Nat.mul_assoc, roundDiv_mul_left _ (by decide)]
  have hwraps : ¬ Fixed.Wraps lev (Fixed.fromInt 100) Fixed.scale := by
    unfold Fixed.Wraps
    rw [hscale, hhundred]
    omega
  have hneg : ¬ (((decide (lev < 0)).xor (decide (Fixed.fromInt 100 < 0))).xor
      (decide (Fixed.scale < 0)) = true) := by
    have hl : decide (lev < 0) = false := by
      rw [decide_eq_false_iff_not, Int64.lt_iff_toInt_lt]
      omega
    rw [hl]
    decide
  refine ⟨Int64.ofNat (lev.toInt.natAbs * 100), ?_⟩
  rw [Fixed.mul, Fixed.mulDiv_eq (by decide), if_neg hwraps, hmag,
    if_neg (by unfold Fixed.maxInt64; omega), if_neg hneg]

/-- A refused request ends in an error. -/
theorem buildOrder_refused (price mark : D) (h : Refused m req) :
    ∃ e, (buildOrder m req price (.ok mark)).run = some (.error e) := by
  unfold buildOrder
  by_cases hid : req.clientID = ""
  · rw [if_pos hid]
    exact ⟨_, rfl⟩
  by_cases hside : req.side ≠ .long ∧ req.side ≠ .short
  · rw [if_neg hid, if_pos hside]
    exact ⟨_, rfl⟩
  obtain ⟨maxLev, hmax, hlt⟩ := (h.resolve_left hid).resolve_left hside
  rw [if_neg hid, if_neg hside]
  dsimp only
  rw [hmax]
  change ∃ e, ExceptT.run (if maxLev < _ then _ else _) = _
  rw [if_pos hlt]
  exact ⟨_, rfl⟩

/-- A request that is not refused is sized at the mark. -/
theorem buildOrder_admitted (price mark : D) (h : ¬ Refused m req) (hsize : req.size = 0)
    (hnotional : 0 < req.notional) :
    ∃ maxLev, Fixed.div (Fixed.fromInt m.initialMargin) (Fixed.fromInt 100) = some maxLev ∧
      (if req.leverage = 0 then Fixed.fromInt 1 else req.leverage) ≤ maxLev ∧
      (buildOrder m req price (.ok mark)).run = (Fixed.div req.notional mark).bind fun size =>
        (sizedFrame m req price (if req.leverage = 0 then Fixed.fromInt 1 else req.leverage)
          size).run := by
  obtain ⟨hid, hrest⟩ := not_or.mp h
  obtain ⟨hside, hlev⟩ := not_or.mp hrest
  obtain ⟨maxLev, hmax, -⟩ := div_hundred (Fixed.fromInt m.initialMargin)
  have hle : ¬ maxLev < if req.leverage = 0 then Fixed.fromInt 1 else req.leverage :=
    fun hlt => hlev ⟨maxLev, hmax, hlt⟩
  refine ⟨maxLev, hmax, Int64.not_lt.mp hle, ?_⟩
  have hasked : orderSize req (.ok mark) = ExceptT.lift (Fixed.div req.notional mark) := by
    have hne : req.notional ≠ 0 := fun hz => by
      rw [hz] at hnotional
      exact absurd hnotional (by decide)
    rw [orderSize, if_neg (not_not.mpr hsize), if_neg hne]
  unfold buildOrder
  rw [if_neg hid, if_neg hside]
  dsimp only
  rw [hmax, hasked]
  change ExceptT.run (if maxLev < _ then _ else _) = _
  rw [if_neg hle]
  cases Fixed.div req.notional mark with
  | none => rfl
  | some size => rfl

/-- A size without a positive multiple of the step, or a size or limit without an integer, ends in
an error. -/
theorem sizedFrame_unsent (req : OrderRequest) (price lev : D) {size : D}
    (h : ¬ 0 < Fixed.roundDownTo size (tickFor m.sizeDecimals) ∨
      (∃ e, Fixed.toScaled (Fixed.roundDownTo size (tickFor m.sizeDecimals)) m.sizeDecimals =
        .error e) ∨ ∃ e, scaledPrice m price = .error e) :
    ∃ e, (sizedFrame m req price lev size).run = some (.error e) := by
  unfold sizedFrame
  dsimp only
  by_cases hpos : 0 < Fixed.roundDownTo size (tickFor m.sizeDecimals)
  · rw [if_neg (not_not.mpr hpos)]
    cases hscaled : Fixed.toScaled (Fixed.roundDownTo size (tickFor m.sizeDecimals))
        m.sizeDecimals with
    | error e => exact ⟨_, rfl⟩
    | ok scaledSize =>
      rw [hscaled] at h
      obtain ⟨_, h⟩ | ⟨e, hprice⟩ := h.resolve_left (not_not.mpr hpos)
      · cases h
      · rw [hprice]
        exact ⟨_, rfl⟩
  · rw [if_pos hpos]
    exact ⟨_, rfl⟩

/-- Elsewhere the frame says the size. -/
theorem sizedFrame_sent (req : OrderRequest) {size : D} {scaledSize limit : Int64} {l : D}
    (hpos : 0 < Fixed.roundDownTo size (tickFor m.sizeDecimals))
    (hsize : Fixed.toScaled (Fixed.roundDownTo size (tickFor m.sizeDecimals)) m.sizeDecimals =
      .ok scaledSize) (hprice : scaledPrice m price = .ok limit)
    (hlev : Fixed.mul lev (Fixed.fromInt 100) = some l) :
    (sizedFrame m req price lev size).run =
      some (.ok ⟨m.id, orderType req.side req.reduce, limit, scaledSize, l⟩) := by
  unfold sizedFrame
  dsimp only
  rw [if_neg (not_not.mpr hpos), hsize, hprice, hlev]
  rfl

/-- Every step is positive. -/
theorem tickFor_pos (decimals : Int) :
    ∃ t, 0 < t ∧ t < 2 ^ 63 ∧ tickFor decimals = Int64.ofNat t := by
  by_cases hdec : decimals < 0
  · refine ⟨10 ^ 8, by decide, by decide, ?_⟩
    rw [tickFor, if_pos hdec.le]
    decide
  · obtain ⟨n, rfl⟩ := Int.eq_ofNat_of_zero_le (not_lt.mp hdec)
    have hle : 10 ^ (8 - n) ≤ 10 ^ 8 := Nat.pow_le_pow_right (by decide) (by omega)
    exact ⟨_, by positivity, by omega, tickFor_toInt⟩

/-- A frame's size, where it is exact, is worth no more than the notional exactly where the product
of the magnitudes is not more. -/
theorem frame_within_iff {decimals n : ℕ} {f : OrderFrame} (hdec : m.sizeDecimals = decimals)
    (hnotional : 0 < req.notional) (hmark : 0 < mark) (hn : n < 2 ^ 63) (hpos : 0 < n)
    (hstep : 10 ^ (8 - decimals) ∣ n)
    (hfits : ¬ (8 ≤ decimals ∧ 2 ^ 63 ≤ n * 10 ^ (decimals - 8)))
    (hf : f.size = Int64.ofNat (n * 10 ^ decimals / 10 ^ 8)) :
    Meets m req mark (ExceptT.mk (some (.ok f))) ↔
      n * mark.toInt.natAbs ≤ req.notional.toInt.natAbs * 10 ^ 8 := by
  have hM : 0 < mark.toInt := Int64.lt_iff_toInt_lt.mp hmark
  have hN : 0 < req.notional.toInt := Int64.lt_iff_toInt_lt.mp hnotional
  have hint : f.size.toInt = ((n * 10 ^ decimals / 10 ^ 8 : ℕ) : ℤ) := by
    rw [hf, Int64.toInt_ofNat_of_lt (Fixed.scaled_lt hn hfits)]
  obtain ⟨s, hs⟩ := Fixed.dvd_scaled hstep
  have hsize : f.size.toInt = s := by
    rw [hint, hs, Nat.mul_div_cancel_left _ (by decide)]
  have hspos : 0 < s := by
    have hprod : 0 < n * 10 ^ decimals := by positivity
    rw [hs] at hprod
    exact Nat.pos_of_mul_pos_left hprod
  have hsQ : (n : ℚ) * 10 ^ decimals = 10 ^ 8 * s := by exact_mod_cast hs
  have hvalue : ∀ size : D,
      value size * 10 ^ m.sizeDecimals = f.size.toInt ↔ size.toInt = n := by
    intro size
    rw [hdec, zpow_natCast, hsize, value, Fixed.exp, div_mul_eq_mul_div, div_eq_iff (by norm_num),
      Int.cast_natCast, mul_comm (s : ℚ), ← hsQ, mul_left_inj' (by positivity)]
    exact_mod_cast Iff.rfl
  have hworth : ∀ size : D, size.toInt = n → (value size * value mark ≤ value req.notional ↔
      n * mark.toInt.natAbs ≤ req.notional.toInt.natAbs * 10 ^ 8) := by
    intro size h
    obtain ⟨q, hq⟩ := Int.eq_ofNat_of_zero_le hM.le
    obtain ⟨p, hp⟩ := Int.eq_ofNat_of_zero_le hN.le
    rw [value, value, value, h, hq, hp, Int.natAbs_natCast, Int.natAbs_natCast, Fixed.exp,
      div_mul_div_comm, div_le_div_iff₀ (by positivity) (by positivity), ← mul_assoc]
    rw [mul_le_mul_iff_left₀ (by positivity)]
    exact_mod_cast Iff.rfl
  have htick : (tickFor m.sizeDecimals).toInt = ((10 ^ (8 - decimals) : ℕ) : ℤ) := by
    have hle : 10 ^ (8 - decimals) ≤ 10 ^ 8 := Nat.pow_le_pow_right (by decide) (by omega)
    rw [hdec, tickFor_toInt, Int64.toInt_ofNat_of_lt (by omega)]
  constructor
  · rintro ⟨-, size, k, -, -, hsized, hle⟩
    exact (hworth size ((hvalue size).mp hsized)).mp hle
  · intro hle
    have hself := Int64.toInt_ofNat_of_lt hn
    obtain ⟨k, hk⟩ := hstep
    refine ⟨?_, Int64.ofNat n, k, ?_, ?_, (hvalue _).mpr hself, (hworth _ hself).mpr hle⟩
    · rw [Int64.lt_iff_toInt_lt, hsize]
      exact Int.natCast_pos.mpr hspos
    · rw [hk] at hpos
      exact Nat.pos_of_mul_pos_left hpos
    · rw [hself, htick, hk, Nat.cast_mul, mul_comm]

/-- What the frame of a rounded quotient says. -/
theorem sizedFrame_meets_iff (price : D) (hnotional : 0 < req.notional) (hmark : 0 < mark)
    (hfits : Fixed.magnitude req.notional Fixed.scale mark < 2 ^ 63)
    (hwraps : ¬ Fixed.Wraps req.notional Fixed.scale mark)
    (hlev : ∃ l, Fixed.mul lev (Fixed.fromInt 100) = some l) :
    Meets m req mark (sizedFrame m req price lev
        (Int64.ofNat (Fixed.magnitude req.notional Fixed.scale mark))) ↔
      ¬ Oversteps m req.notional mark ∨ Unsent m price req.notional mark := by
  have hfails : ∀ {size}, (∃ e, (sizedFrame m req price lev size).run = some (.error e)) →
      Meets m req mark (sizedFrame m req price lev size) := by
    rintro size ⟨e, he⟩
    rw [Meets, he]
    trivial
  by_cases hrange : m.sizeDecimals < 0 ∨ 19 ≤ m.sizeDecimals
  · refine iff_of_true (hfails (sizedFrame_unsent _ _ _ (.inr (.inl ?_)))) (.inr (.inr ?_))
    · exact ⟨_, if_pos hrange⟩
    · exact hrange.imp_right .inl
  obtain ⟨hlow, hhigh⟩ := not_or.mp hrange
  obtain ⟨decimals, hdec⟩ := Int.eq_ofNat_of_zero_le (not_lt.mp hlow)
  have htick : tickFor m.sizeDecimals = Int64.ofNat (10 ^ (8 - decimals)) := by
    rw [hdec]
    exact tickFor_toInt
  have hscale : Fixed.scale.toInt.natAbs = 10 ^ 8 := by decide
  have htle : 10 ^ (8 - decimals) ≤ 10 ^ 8 := Nat.pow_le_pow_right (by decide) (by omega)
  have htpos : 0 < 10 ^ (8 - decimals) := by positivity
  have htint : (Int64.ofNat (10 ^ (8 - decimals))).toInt = ((10 ^ (8 - decimals) : ℕ) : ℤ) :=
    Int64.toInt_ofNat_of_lt (by omega)
  have hzero : (0 : Int64).toInt = 0 := rfl
  have hM : 0 < mark.toInt := Int64.lt_iff_toInt_lt.mp hmark
  have hN : 0 < req.notional.toInt := Int64.lt_iff_toInt_lt.mp hnotional
  -- the floor of the rounded quotient, which the frame says
  have hstep := floor_roundDiv_le_iff (p := req.notional.toInt.natAbs * 10 ^ 8)
    (t := 10 ^ (8 - decimals)) (show 0 < mark.toInt.natAbs by omega)
  have hover : Oversteps m req.notional mark ↔ mark.toInt.natAbs ≤
      req.notional.toInt.natAbs * 10 ^ 8 % mark.toInt.natAbs * 2 ∧
        10 ^ (8 - decimals) ∣ quotient req.notional mark + 1 := by
    rw [Oversteps, htick, htint, Int.natAbs_natCast]
  have hup : Oversteps m req.notional mark →
      Fixed.magnitude req.notional Fixed.scale mark / 10 ^ (8 - decimals) * 10 ^ (8 - decimals) =
        quotient req.notional mark + 1 := by
    intro h
    obtain ⟨hround, hdvd⟩ := hover.mp h
    rw [Fixed.magnitude, hscale, roundDiv, if_pos hround]
    exact Nat.div_mul_cancel hdvd
  rw [Fixed.magnitude, hscale] at hfits hup
  rw [Fixed.magnitude, hscale]
  generalize roundDiv (req.notional.toInt.natAbs * 10 ^ 8) mark.toInt.natAbs = r
    at hfits hup hstep
  have hfloor := Fixed.roundDownTo_ofNat hfits (show 10 ^ (8 - decimals) < 2 ^ 63 by omega) htpos
  have hle : r / 10 ^ (8 - decimals) * 10 ^ (8 - decimals) ≤ r := Nat.div_mul_le_self _ _
  have hdvd : 10 ^ (8 - decimals) ∣ r / 10 ^ (8 - decimals) * 10 ^ (8 - decimals) :=
    Nat.dvd_mul_left _ _
  have hscaled := Fixed.toScaled_ofNat
    (show r / 10 ^ (8 - decimals) * 10 ^ (8 - decimals) < 2 ^ 63 by omega) (by omega) hdvd
  rw [← htick] at hfloor
  by_cases hsome : 0 < r / 10 ^ (8 - decimals)
  swap
  · -- the size rounds to zero
    have hnone : r / 10 ^ (8 - decimals) * 10 ^ (8 - decimals) = 0 := by
      rw [Nat.eq_zero_of_not_pos hsome, Nat.zero_mul]
    refine iff_of_true (hfails (sizedFrame_unsent _ _ _ (.inl ?_))) (.inl fun h => ?_)
    · rw [hfloor, hnone]
      decide
    · rw [hup h] at hnone
      exact Nat.succ_ne_zero _ hnone
  have hpos : 0 < r / 10 ^ (8 - decimals) * 10 ^ (8 - decimals) := Nat.mul_pos hsome htpos
  cases hprice : scaledPrice m price with
  | error e =>
    exact iff_of_true (hfails (sizedFrame_unsent _ _ _ (.inr (.inr ⟨e, hprice⟩))))
      (.inr (.inr (.inr (.inr (.inr ⟨e, hprice⟩)))))
  | ok limit =>
    by_cases hbig : 8 ≤ decimals ∧
        2 ^ 63 ≤ r / 10 ^ (8 - decimals) * 10 ^ (8 - decimals) * 10 ^ (decimals - 8)
    · rw [if_pos hbig] at hscaled
      refine iff_of_true (hfails (sizedFrame_unsent _ _ _ (.inr (.inl ?_)))) ?_
      · rw [hfloor, hdec]
        exact ⟨_, hscaled⟩
      · by_contra hnot
        obtain ⟨hno, hsent⟩ := not_or.mp hnot
        refine hsent (.inr (.inr (.inr (.inl ⟨by omega, ?_⟩))))
        rw [← hup (not_not.mp hno), hdec]
        exact hbig.2
    · rw [if_neg hbig, ← hdec, ← hfloor] at hscaled
      obtain ⟨l, hl⟩ := hlev
      have hroom := (Fixed.ofNat_pos_iff (by omega)).mpr hpos
      rw [← hfloor] at hroom
      have hsent := sizedFrame_sent req hroom hscaled hprice hl
      have hstuck : Oversteps m req.notional mark → ¬ Unsent m price req.notional mark := by
        rintro h (hw | hneg | hlarge | ⟨h8, hbeyond⟩ | ⟨e, he⟩)
        · exact hwraps hw
        · exact hlow hneg
        · exact hhigh hlarge
        · rw [← hup h, hdec, Int.toNat_natCast] at hbeyond
          exact hbig ⟨by omega, hbeyond⟩
        · cases he.symm.trans hprice
      have hrhs : ¬ Oversteps m req.notional mark ∨ Unsent m price req.notional mark ↔
          ¬ Oversteps m req.notional mark :=
        ⟨fun h => h.elim id fun hu ho => hstuck ho hu, .inl⟩
      rw [hrhs, hover]
      refine Iff.trans ?_ hstep
      rw [show sizedFrame m req price lev (Int64.ofNat r) = ExceptT.mk (some (.ok _)) from hsent]
      exact frame_within_iff hdec hnotional hmark (by omega) hpos hdvd hbig rfl

/-- The rounded quotient is beyond the largest decimal where its double is. -/
theorem overflows_iff (hmark : 0 < mark) {notional : D} :
    (2 ^ 64 - 1) * mark.toInt.natAbs ≤ 2 * (notional.toInt.natAbs * 10 ^ 8) ↔
      Fixed.maxInt64 < Fixed.magnitude notional Fixed.scale mark := by
  have hM : 0 < mark.toInt := Int64.lt_iff_toInt_lt.mp hmark
  have hscale : Fixed.scale.toInt.natAbs = 10 ^ 8 := by decide
  have hq : 0 < mark.toInt.natAbs := by omega
  rw [Fixed.magnitude, hscale, roundDiv_eq hq, Fixed.maxInt64, Nat.lt_iff_add_one_le,
    Nat.le_div_iff_mul_le (by omega)]
  omega

/-- Building an order of a notional at a mark ends in an error, or in a frame of a multiple of the
step that is worth no more, exactly where it is refused, or the quotient fits and is not rounded up
to a multiple of the step that can be sent. -/
theorem sized_within_iff (m : Listing) (req : OrderRequest) (price mark : D)
    (hnotional : 0 < req.notional) (hsize : req.size = 0) (hlev : 0 ≤ req.leverage)
    (hmark : 0 < mark) : Meets m req mark (buildOrder m req price (.ok mark)) ↔ Refused m req ∨
      ¬ Overflows req.notional mark ∧
        (¬ Oversteps m req.notional mark ∨ Unsent m price req.notional mark) := by
  by_cases hr : Refused m req
  · obtain ⟨e, he⟩ := buildOrder_refused price mark hr
    rw [Meets, he]
    exact iff_of_true trivial (.inl hr)
  obtain ⟨maxLev, hmax, hle, hrun⟩ := buildOrder_admitted price mark hr hsize hnotional
  have hne : mark ≠ 0 := fun h => by
    rw [h] at hmark
    exact absurd hmark (by decide)
  have hasked : 0 < if req.leverage = 0 then Fixed.fromInt 1 else req.leverage := by
    by_cases hz : req.leverage = 0
    · rw [if_pos hz]
      decide
    · rw [if_neg hz]
      rw [Int64.le_iff_toInt_le] at hlev
      rw [Int64.lt_iff_toInt_lt]
      exact lt_of_le_of_ne hlev fun h => hz (Int64.toInt_inj.mp h.symm)
  have hfits := leverage_fits hasked hmax hle
  have hdiv : Fixed.div req.notional mark = _ := Fixed.mulDiv_eq hne
  have hright : ∀ {P : Prop}, Refused m req ∨ P ↔ P := ⟨fun h => h.resolve_left hr, .inr⟩
  rw [hright]
  by_cases hwraps : Fixed.Wraps req.notional Fixed.scale mark
  · -- the quotient is zero
    have hzero : ¬ 0 < Fixed.roundDownTo 0 (tickFor m.sizeDecimals) := by
      obtain ⟨t, hpos, ht, htick⟩ := tickFor_pos m.sizeDecimals
      have hfloor := Fixed.roundDownTo_ofNat (show 0 < 2 ^ 63 by decide) ht hpos
      rw [Nat.zero_div, Nat.zero_mul] at hfloor
      rw [htick, show (0 : D) = Int64.ofNat 0 from rfl, hfloor]
      decide
    rw [if_pos hwraps] at hdiv
    rw [hdiv] at hrun
    obtain ⟨e, he⟩ := sizedFrame_unsent req price
      (if req.leverage = 0 then Fixed.fromInt 1 else req.leverage) (.inl hzero)
    rw [Meets, hrun, Option.bind_some, he]
    exact iff_of_true trivial ⟨fun h => h.2 hwraps, .inr (.inl hwraps)⟩
  rw [if_neg hwraps] at hdiv
  have hover : Overflows req.notional mark ↔
      Fixed.maxInt64 < Fixed.magnitude req.notional Fixed.scale mark :=
    (and_iff_left hwraps).trans (overflows_iff hmark)
  by_cases hbeyond : Fixed.maxInt64 < Fixed.magnitude req.notional Fixed.scale mark
  · -- the division panics
    rw [if_pos hbeyond] at hdiv
    rw [Meets, hrun, hdiv]
    exact iff_of_false id fun h => h.1 (hover.mpr hbeyond)
  · have hsign : ¬ (((decide (req.notional < 0)).xor (decide (Fixed.scale < 0))).xor
        (decide (mark < 0)) = true) := by
      have hn : decide (req.notional < 0) = false :=
        decide_eq_false fun h => Int64.lt_irrefl (Int64.lt_trans h hnotional)
      have hm : decide (mark < 0) = false :=
        decide_eq_false fun h => Int64.lt_irrefl (Int64.lt_trans h hmark)
      rw [hn, hm]
      decide
    rw [if_neg hbeyond, if_neg hsign] at hdiv
    rw [hdiv, Option.bind_some] at hrun
    have hlt : Fixed.magnitude req.notional Fixed.scale mark < 2 ^ 63 := by
      unfold Fixed.maxInt64 at hbeyond
      omega
    have hmeets := sizedFrame_meets_iff (m := m) price hnotional hmark hlt hwraps hfits
    rw [Meets] at hmeets ⊢
    rw [hrun, hmeets]
    exact ⟨fun h => ⟨fun ho => hbeyond (hover.mp ho), h⟩, fun h => h.2⟩

end Build

/-- A bitcoin market of five size decimals. -/
def bitcoin : Listing where
  id := 16
  symbol := "BTC"
  name := "Bitcoin"
  priceDecimals := 1
  sizeDecimals := 5
  mark := 500000
  initialMargin := 5000

/-- An opening order of a notional. -/
def opening (notional : D) : OrderRequest where
  clientID := "c"
  symbol := "BTC"
  side := .long
  notional := notional
  leverage := 0

/-- A notional of 49,000 at a mark of 50,000 is sized below it. -/
theorem sized_within_bitcoin : Meets bitcoin (opening (Fixed.fromInt 49000)) (Fixed.fromInt 50000)
    (buildOrder bitcoin (opening (Fixed.fromInt 49000)) 0 (.ok (Fixed.fromInt 50000))) :=
  (sized_within_iff _ _ _ _ (by decide) rfl (by decide) (by decide)).mpr
    (.inr ⟨fun h => absurd h.1 (by decide), .inl fun h => absurd h.1 (by decide)⟩)

/-- A notional one hundred-millionth below the mark is sized at a whole coin, which is worth
more. -/
theorem sized_above : ∃ f,
    (buildOrder bitcoin (opening 4999999999999) 0 (.ok (Fixed.fromInt 50000))).run =
      some (.ok f) ∧ f.size = 100000 ∧
    ¬ Meets bitcoin (opening 4999999999999) (Fixed.fromInt 50000)
      (buildOrder bitcoin (opening 4999999999999) 0 (.ok (Fixed.fromInt 50000))) := by
  have hrun : (buildOrder bitcoin (opening 4999999999999) 0 (.ok (Fixed.fromInt 50000))).run =
      some (.ok ⟨16, 1, 0, 100000, Fixed.fromInt 100⟩) := by decide
  refine ⟨_, hrun, rfl, ?_⟩
  rw [Meets, hrun]
  rintro ⟨-, size, k, -, -, hsize, hle⟩
  have hone : value size = 1 := by
    have hscaled : ((100000 : Int64).toInt : ℚ) = 10 ^ (5 : ℤ) := by
      rw [show (100000 : Int64).toInt = 10 ^ 5 from by decide]
      norm_num
    have hten : (10 ^ (5 : ℤ) : ℚ) ≠ 0 := by positivity
    exact mul_right_cancel₀ hten ((hsize.trans hscaled).trans (one_mul _).symm)
  rw [hone, one_mul, value, value, div_le_div_iff_of_pos_right (by positivity)] at hle
  exact absurd (Int.cast_le.mp hle) (by decide)

end SuperAgent.Perpl
