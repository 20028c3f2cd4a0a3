import SuperAgent.Fixed.Exact
import SuperAgent.Platform.Mirror
import Mathlib.Algebra.BigOperators.Group.List.Basic

/-!
# A position closed in parts

Each close records a result from the venue's view of the position: the move on
the size that closed, less the fees paid so far, less the close's own. The
opening fee and the fees of earlier closes are counted once more by every close
after the first.
-/

namespace SuperAgent.Fixed

variable {a b : D}

/-- A product neither panics nor goes missing: it fits, or its magnitude passes for zero. -/
def Multiplies (a b : D) : Prop :=
  2 * (a.toInt.natAbs * b.toInt.natAbs) < (2 ^ 64 - 1) * 10 ^ exp ∨ Wraps a b scale

/-- The magnitude of a product, rounded, fits where twice the product does. -/
theorem multiplies_iff :
    Multiplies a b ↔ ¬ (maxInt64 < magnitude a b scale ∧ ¬ Wraps a b scale) := by
  have hscale : scale.toInt.natAbs = 10 ^ 8 := by decide
  have hle : maxInt64 < magnitude a b scale ↔
      ¬ 2 * (a.toInt.natAbs * b.toInt.natAbs) < (2 ^ 64 - 1) * 10 ^ exp := by
    rw [magnitude, hscale, roundDiv_eq (by decide), maxInt64, exp, Nat.lt_iff_add_one_le,
      Nat.le_div_iff_mul_le (by decide)]
    omega
  rw [Multiplies, hle]
  tauto

/-- The exact product in units of the last place. -/
theorem value_mul_scale (a b : D) :
    value a * value b * 10 ^ exp = (a.toInt * b.toInt : ℚ) / scale.toInt := by
  have hscale : (scale.toInt : ℚ) = 10 ^ exp := by
    have hint : scale.toInt = 100000000 := by decide
    rw [hint, exp]
    norm_num
  rw [hscale, value, value]
  field_simp

/-- A product is the balanced residue of the exact one rounded, unless it panics. -/
theorem mul_toInt : (mul a b = none ↔ ¬ Multiplies a b) ∧
    ∀ d, mul a b = some d → d.toInt = (rounded (value a * value b)).bmod (2 ^ 64) := by
  have hscale : scale ≠ 0 := by decide
  have hround : rounded (value a * value b) = _ :=
    (congrArg roundAway (value_mul_scale a b)).trans (roundAway_quotient hscale)
  have heq : mul a b = _ := mulDiv_eq hscale
  rw [multiplies_iff, not_not]
  by_cases hw : Wraps a b scale
  · rw [if_pos hw] at heq
    rw [heq, hround, magnitude_of_wraps hscale hw]
    refine ⟨⟨fun h => (nomatch h), fun h => absurd hw h.2⟩, fun d hd => ?_⟩
    rw [← Option.some.inj hd]
    split <;> decide
  · rw [if_neg hw] at heq
    by_cases hmax : maxInt64 < magnitude a b scale
    · rw [if_pos hmax] at heq
      rw [heq]
      exact ⟨iff_of_true rfl ⟨hmax, hw⟩, fun d hd => nomatch hd⟩
    · rw [if_neg hmax] at heq
      rw [heq, hround]
      have hle : magnitude a b scale ≤ 2 ^ 63 - 1 := not_lt.mp hmax
      refine ⟨iff_of_false (fun h => nomatch h) fun h => hmax h.1, fun d hd => ?_⟩
      rw [← Option.some.inj hd]
      split
      · rw [Int64.toInt_neg_ofNat_of_le (by omega)]
        symm
        apply Int.bmod_eq_of_le <;> omega
      · rw [Int64.toInt_ofNat_of_lt (by omega)]
        symm
        apply Int.bmod_eq_of_le <;> omega

end SuperAgent.Fixed

namespace SuperAgent.Platform

open Fixed (D value rounded Multiplies)
open Venue (Order Position)

/-- A close as it is asked for, and the order the venue takes for it. -/
structure Closing where
  answers : CloseAnswers
  reason : CloseReason
  placed : Order

/-- What the venue reports of a position after an order closed a part of it: what remains, with the
fees paid so far. -/
def left (pos : Position) (placed : Order) : Position :=
  { pos with size := pos.size - placed.filledSize, feesPaid := pos.feesPaid + placed.fee }

/-- Each close finds the position as the ones before left it, and its order fills. -/
def Fills (pos : Position) : List Closing → Prop
  | [] => True
  | c :: rest =>
    (∃ ps, c.answers.positions = .ok ps ∧ ps.find? (fun p => p.symbol = pos.symbol) = some pos) ∧
    c.answers.place (closeOrder pos.symbol pos c.answers.clientID) = .ok c.placed ∧
    c.placed.status ≠ .failed ∧ 0 < c.placed.filledSize ∧ 0 < c.placed.avgPrice ∧
    Fills (left pos c.placed) rest

/-- The results the closes of a symbol record, or nothing where one of them does not. -/
def recorded {ι : Type} (s : Service ι) (symbol : String) : List Closing → Option (List D)
  | [] => some []
  | c :: rest =>
    match s.close c.answers symbol c.reason with
    | (s', .done (.ok _)) =>
      s'.lastClose.bind fun e => (recorded s' symbol rest).map (e.pnl :: ·)
    | _ => none

/-! ## What the balance sees -/

/-- The sign of a position's side. -/
def direction (pos : Position) : ℚ := if pos.side = .short then -1 else 1

/-- The price move in a position's favour. -/
def gain (pos : Position) (placed : Order) : D :=
  let move := placed.avgPrice - pos.entryPrice
  if pos.side = .short then -move else move

/-- What an order that closes a part makes of it, before fees. -/
def made (pos : Position) (placed : Order) : ℚ :=
  direction pos * (value placed.avgPrice - value pos.entryPrice) * value placed.filledSize

/-- What closing a position in parts makes: every fee is paid once. -/
def makes (pos : Position) (placed : List Order) : ℚ :=
  (placed.map (made pos)).sum - value pos.feesPaid - (placed.map (value ·.fee)).sum

/-- The recorded results add up to what the closes made, up to a unit of the last place each. -/
def AddsUp (pos : Position) (placed : List Order) (results : Option (List D)) : Prop :=
  ∃ pnls, results = some pnls ∧
    |(pnls.map value).sum - makes pos placed| ≤ placed.length / 10 ^ Fixed.exp

/-! ## When they add up -/

/-- The products of every close fit. -/
def Fit (pos : Position) : List Order → Prop
  | [] => True
  | o :: rest => Multiplies pos.entryPrice pos.size ∧ Multiplies (gain pos o) o.filledSize ∧
      Fit (left pos o) rest

/-- The fees every close finds paid, added up. -/
def counted (paid : ℤ) : List Order → ℤ
  | [] => 0
  | o :: rest => paid + counted (paid + o.fee.toInt) rest

/-- The fees that the closes after the first find paid, added up. -/
def recounted (paid : ℤ) : List Order → ℤ
  | [] => 0
  | o :: rest => counted (paid + o.fee.toInt) rest

/-- How often the exact results go round a word. -/
def turns (pos : Position) (paid : ℤ) : List Order → ℤ
  | [] => 0
  | o :: rest => (rounded (made pos o) - paid - o.fee.toInt).bdiv (2 ^ 64) +
      turns pos (paid + o.fee.toInt) rest

/-- What rounding each product to a unit adds. -/
def rounding (pos : Position) (placed : List Order) : ℚ :=
  (placed.map fun o => rounded (made pos o) - made pos o * 10 ^ Fixed.exp).sum

section Closes

variable {ι : Type} {s : Service ι} {pos : Position} {o : Order}

/-- Neither price is negative, so that their difference is one of words. -/
theorem value_gain (hentry : 0 ≤ pos.entryPrice) (havg : 0 < o.avgPrice) :
    value (gain pos o) = direction pos * (value o.avgPrice - value pos.entryPrice) := by
  have hzero : (0 : Int64).toInt = 0 := rfl
  have he := Int64.le_iff_toInt_le.mp hentry
  have ha := Int64.lt_iff_toInt_lt.mp havg
  have helt := pos.entryPrice.toInt_lt
  have halt := o.avgPrice.toInt_lt
  have hsub : (o.avgPrice - pos.entryPrice).toInt = o.avgPrice.toInt - pos.entryPrice.toInt := by
    rw [Int64.toInt_sub]
    apply Int.bmod_eq_of_le <;> omega
  have hneg : (-(o.avgPrice - pos.entryPrice)).toInt =
      -(o.avgPrice.toInt - pos.entryPrice.toInt) := by
    rw [Int64.toInt_neg, hsub]
    apply Int.bmod_eq_of_le <;> omega
  unfold gain direction
  dsimp only
  by_cases hshort : pos.side = .short
  · rw [if_pos hshort, if_pos hshort, value, value, value, hneg]
    push_cast
    ring
  · rw [if_neg hshort, if_neg hshort, value, value, value, hsub]
    push_cast
    ring

/-- What one close records: the exact move rounded, less what was paid before and the close's own
fee, as a word. -/
theorem realizedPnL_spec (hentry : 0 ≤ pos.entryPrice) (havg : 0 < o.avgPrice)
    (hfilled : 0 < o.filledSize) :
    (realizedPnL pos o = none ↔ ¬ Multiplies (gain pos o) o.filledSize) ∧
    ∀ pnl, realizedPnL pos o = some pnl → pnl.toInt =
      (rounded (made pos o) - pos.feesPaid.toInt - o.fee.toInt).bmod (2 ^ 64) := by
  obtain ⟨hnone, hsome⟩ := @Fixed.mul_toInt (gain pos o) o.filledSize
  have hreal : realizedPnL pos o =
      (Fixed.mul (gain pos o) o.filledSize).map (· - (pos.feesPaid + o.fee)) := by
    have hboth : ¬ (¬ 0 < o.avgPrice ∨ ¬ 0 < o.filledSize) :=
      not_or.mpr ⟨not_not.mpr havg, not_not.mpr hfilled⟩
    unfold realizedPnL
    dsimp only
    rw [if_neg hboth]
    rfl
  have hmade : made pos o = value (gain pos o) * value o.filledSize := by
    rw [value_gain hentry havg]
    rfl
  rw [hreal, hmade]
  refine ⟨Option.map_eq_none_iff.trans hnone, fun pnl hpnl => ?_⟩
  obtain ⟨d, hd, rfl⟩ := Option.map_eq_some_iff.mp hpnl
  rw [Int64.toInt_sub, Int64.toInt_add, hsome d hd, Int.sub_bmod_bmod, Int.bmod_sub_bmod]
  congr 1
  ring

/-- A close is admitted and recorded from the position the venue reports. -/
theorem close_settles {c : Closing} {rest : List Closing} (haccount : s.account ≠ "")
    (hsymbol : pos.symbol ≠ "") (h : Fills pos (c :: rest)) :
    ∃ t : Service ι, t.account = s.account ∧ s.close c.answers pos.symbol c.reason =
      t.settleClose c.answers pos.symbol c.reason pos c.placed := by
  obtain ⟨⟨ps, hps, hfind⟩, hplace, hstatus, -⟩ := h
  have hmalformed : ¬ ((Policy.fromOrder s.account
      (closeOrder pos.symbol pos c.answers.clientID)).account = "" ∨
      (Policy.fromOrder s.account (closeOrder pos.symbol pos c.answers.clientID)).symbol = "") :=
    not_or.mpr ⟨haccount, hsymbol⟩
  have hauth : (s.disarm pos.symbol c.answers.deletes).engine.authorize c.answers.before
      (Policy.fromOrder (s.disarm pos.symbol c.answers.deletes).account
        (closeOrder pos.symbol pos c.answers.clientID)) =
      ((s.disarm pos.symbol c.answers.deletes).engine, none) := by
    rw [Policy.Engine.authorize]
    exact if_neg hmalformed
  have hgranted : s.admitClose c.answers pos.symbol =
      (s.disarm pos.symbol c.answers.deletes, .ok pos) := by
    unfold Service.admitClose
    dsimp only
    rw [hps]
    dsimp only
    rw [hfind]
    dsimp only
    rw [hauth]
  refine ⟨s.disarm pos.symbol c.answers.deletes, rfl, ?_⟩
  unfold Service.close
  rw [hgranted]
  dsimp only
  rw [hplace]
  dsimp only
  rw [if_neg hstatus]

/-- The result of a close is what the engine's day and the ledger are told too. -/
theorem settleClose_tells {a : CloseAnswers} {symbol : String} {reason : CloseReason}
    {s' : Service ι} {placed : Order} {e : Except Error Order}
    (h : s.settleClose a symbol reason pos placed = (s', .done e)) :
    ∃ notional pnl, realizedPnL pos placed = some pnl ∧
      s'.engine = s.engine.recordClose a.after s.account notional pnl ∧
      s'.lastClose = some ⟨symbol, pos.side, reason, placed.avgPrice, pnl, a.after⟩ ∧
      (s.keepsLedger → ∃ run, s'.ledger =
        s.ledger ++ [.closed symbol pnl placed.venueID (fillOf pos.side placed) reason run]) := by
  unfold Service.settleClose at h
  split at h
  · next notional pnl hnotional hpnl =>
    obtain ⟨rfl, -⟩ := Prod.mk.injEq .. ▸ h
    exact ⟨notional, pnl, hpnl, rfl, rfl, fun hkeeps => ⟨_, if_pos hkeeps⟩⟩
  · next => nomatch congrArg Prod.snd h

/-- One close, then the rest: nothing is recorded where a product panics. -/
theorem recorded_cons {c : Closing} {rest : List Closing} (haccount : s.account ≠ "")
    (hsymbol : pos.symbol ≠ "") (h : Fills pos (c :: rest)) :
    ∃ t : Service ι, t.account = s.account ∧ recorded s pos.symbol (c :: rest) =
      (Fixed.mul pos.entryPrice pos.size).bind fun _ => (realizedPnL pos c.placed).bind fun pnl =>
        (recorded t pos.symbol rest).map (pnl :: ·) := by
  obtain ⟨t, ht, hclose⟩ := close_settles haccount hsymbol h
  refine ⟨(t.settleClose c.answers pos.symbol c.reason pos c.placed).1, ?_, ?_⟩
  · rw [← ht, Service.settleClose]
    split <;> rfl
  · rw [recorded, hclose, Service.settleClose]
    cases Fixed.mul pos.entryPrice pos.size with
    | none => rfl
    | some notional =>
      cases realizedPnL pos c.placed with
      | none => rfl
      | some pnl => rfl

/-- What a run of closes records, against what it made. -/
theorem recorded_sum {closes : List Closing} (haccount : s.account ≠ "") (hsymbol : pos.symbol ≠ "")
    (hentry : 0 ≤ pos.entryPrice) (h : Fills pos closes) {paid : ℤ}
    (hpaid : pos.feesPaid.toInt = paid.bmod (2 ^ 64)) :
    (recorded s pos.symbol closes = none ↔ ¬ Fit pos (closes.map (·.placed))) ∧
    ∀ pnls, recorded s pos.symbol closes = some pnls → (pnls.map Int64.toInt).sum =
      ((closes.map (·.placed)).map fun o => rounded (made pos o)).sum -
        counted paid (closes.map (·.placed)) - ((closes.map (·.placed)).map (·.fee.toInt)).sum -
        2 ^ 64 * turns pos paid (closes.map (·.placed)) := by
  induction closes generalizing s pos paid with
  | nil =>
    refine ⟨iff_of_false (fun hnone => nomatch hnone) fun hfit => hfit trivial, ?_⟩
    intro pnls hpnls
    rw [← Option.some.inj hpnls]
    rfl
  | cons c rest ih =>
    obtain ⟨t, ht, hrun⟩ := recorded_cons haccount hsymbol h
    obtain ⟨-, -, -, hfilled, havg, hrest⟩ := h
    obtain ⟨hnotional, -⟩ := @Fixed.mul_toInt pos.entryPrice pos.size
    obtain ⟨hnone, hsome⟩ := realizedPnL_spec hentry havg hfilled
    have hnext : (left pos c.placed).feesPaid.toInt =
        (paid + c.placed.fee.toInt).bmod (2 ^ 64) := by
      change (pos.feesPaid + c.placed.fee).toInt = _
      rw [Int64.toInt_add, hpaid, Int.bmod_add_bmod]
    have haccount' : t.account ≠ "" := by
      rw [ht]
      exact haccount
    obtain ⟨hfit, hsum⟩ := ih haccount' (show (left pos c.placed).symbol ≠ "" from hsymbol)
      (show 0 ≤ (left pos c.placed).entryPrice from hentry) hrest hnext
    change (recorded t pos.symbol rest = none ↔ _) at hfit
    change ∀ pnls, recorded t pos.symbol rest = some pnls → _ at hsum
    rw [hrun, List.map_cons]
    cases hmul : Fixed.mul pos.entryPrice pos.size with
    | none => exact ⟨iff_of_true rfl fun hfits => hnotional.mp hmul hfits.1, fun _ h => nomatch h⟩
    | some notional =>
      have hfits : Multiplies pos.entryPrice pos.size := by
        by_contra hnot
        exact nomatch hmul.symm.trans (hnotional.mpr hnot)
      cases hreal : realizedPnL pos c.placed with
      | none => exact ⟨iff_of_true rfl fun hfits => hnone.mp hreal hfits.2.1, fun _ h => nomatch h⟩
      | some pnl =>
        have hmoves : Multiplies (gain pos c.placed) c.placed.filledSize := by
          by_contra hnot
          exact nomatch hreal.symm.trans (hnone.mpr hnot)
        rw [Option.bind_some, Option.bind_some]
        constructor
        · rw [Option.map_eq_none_iff, hfit]
          exact not_congr ⟨fun h => ⟨hfits, hmoves, h⟩, fun h => h.2.2⟩
        · intro pnls hpnls
          obtain ⟨more, hmore, rfl⟩ := Option.map_eq_some_iff.mp hpnls
          have hword : pnl.toInt = rounded (made pos c.placed) - paid - c.placed.fee.toInt -
              2 ^ 64 * (rounded (made pos c.placed) - paid - c.placed.fee.toInt).bdiv (2 ^ 64) := by
            have hsame : (rounded (made pos c.placed) - paid.bmod (2 ^ 64) -
                c.placed.fee.toInt).bmod (2 ^ 64) =
                (rounded (made pos c.placed) - paid - c.placed.fee.toInt).bmod (2 ^ 64) := by
              rw [← Int.bmod_sub_bmod, Int.sub_bmod_bmod, Int.bmod_sub_bmod]
            rw [hsome pnl hreal, hpaid, hsame, Int.bmod_eq_self_sub_mul_bdiv]
            rfl
          rw [List.map_cons, List.sum_cons, hsum more hmore, hword, List.map_cons, List.sum_cons,
            List.map_cons, List.sum_cons, counted, turns]
          have hmade : (fun o => rounded (made (left pos c.placed) o)) =
              fun o => rounded (made pos o) := rfl
          have hturns : ∀ q l, turns (left pos c.placed) q l = turns pos q l := by
            intro q l
            induction l generalizing q with
            | nil => rfl
            | cons o l ih =>
              rw [turns, turns, ih]
              rfl
          rw [hmade, hturns]
          ring

/-- Every fee that the closes find paid is paid before the first, or counted again. -/
theorem counted_eq {paid : ℤ} {placed : List Order} (h : placed ≠ []) :
    counted paid placed = paid + recounted paid placed := by
  cases placed with
  | nil => exact absurd rfl h
  | cons o rest => rfl

/-- Values add up as words do. -/
theorem sum_value (l : List D) : (l.map value).sum = (l.map Int64.toInt).sum / 10 ^ Fixed.exp := by
  induction l with
  | nil => simp
  | cons d l ih =>
    rw [List.map_cons, List.sum_cons, List.map_cons, List.sum_cons, ih, value, Int.cast_add,
      add_div]

/-- Rounding adds what the rounded products have over the exact ones. -/
theorem rounding_eq (placed : List Order) : rounding pos placed =
    ((placed.map fun o => rounded (made pos o)).sum : ℤ) -
      (placed.map (made pos)).sum * 10 ^ Fixed.exp := by
  induction placed with
  | nil => simp [rounding]
  | cons o rest ih =>
    rw [rounding] at ih ⊢
    rw [List.map_cons, List.sum_cons, ih, List.map_cons, List.sum_cons, List.map_cons,
      List.sum_cons]
    push_cast
    ring

/-- The results recorded are off by what is counted again, goes round a word and rounding adds. -/
theorem sum_sub_makes {placed : List Order} (hne : placed ≠ []) {pnls : List D}
    (h : (pnls.map Int64.toInt).sum = (placed.map fun o => rounded (made pos o)).sum -
      counted pos.feesPaid.toInt placed - (placed.map (·.fee.toInt)).sum -
      2 ^ 64 * turns pos pos.feesPaid.toInt placed) :
    (pnls.map value).sum - makes pos placed =
      -(((recounted pos.feesPaid.toInt placed + 2 ^ 64 * turns pos pos.feesPaid.toInt placed : ℤ) :
        ℚ) - rounding pos placed) / 10 ^ Fixed.exp := by
  have hfees : (placed.map (value ·.fee)).sum =
      (placed.map (·.fee.toInt)).sum / 10 ^ Fixed.exp := by
    have hmap := sum_value (placed.map (·.fee))
    rwa [List.map_map, List.map_map] at hmap
  have hexp : (10 ^ Fixed.exp : ℚ) ≠ 0 := by positivity
  rw [sum_value, h, counted_eq hne, rounding_eq, makes, hfees, value]
  push_cast
  field_simp
  ring

/-- The results recorded by the closes of a position add up to what they made, up to a unit each,
exactly where every product fits and the fees counted again, and what goes round a word, are within
a unit for each close of what rounding adds. -/
theorem adds_up_iff (s : Service ι) (pos : Position) (closes : List Closing)
    (haccount : s.account ≠ "") (hsymbol : pos.symbol ≠ "") (hentry : 0 ≤ pos.entryPrice)
    (hsize : 0 < pos.size) (hfills : Fills pos closes)
    (hsum : (closes.map (·.placed.filledSize.toInt)).sum = pos.size.toInt) :
    AddsUp pos (closes.map (·.placed)) (recorded s pos.symbol closes) ↔
      Fit pos (closes.map (·.placed)) ∧
      |((recounted pos.feesPaid.toInt (closes.map (·.placed)) +
          2 ^ 64 * turns pos pos.feesPaid.toInt (closes.map (·.placed)) : ℤ) : ℚ) -
        rounding pos (closes.map (·.placed))| ≤ closes.length := by
  have hne : closes.map (·.placed) ≠ [] := by
    intro hnil
    rw [List.map_eq_nil_iff.mp hnil] at hsum
    have hpos := Int64.lt_iff_toInt_lt.mp hsize
    exact absurd hsum (ne_of_lt hpos)
  have hpaid : pos.feesPaid.toInt = pos.feesPaid.toInt.bmod (2 ^ 64) := by
    symm
    have hlo := pos.feesPaid.le_toInt
    have hhi := pos.feesPaid.toInt_lt
    apply Int.bmod_eq_of_le <;> omega
  obtain ⟨hfit, hrun⟩ := recorded_sum haccount hsymbol hentry hfills hpaid
  have hexp : (0 : ℚ) < 10 ^ Fixed.exp := by positivity
  have hlen : ((closes.map (·.placed)).length : ℚ) = closes.length := by rw [List.length_map]
  cases hrecorded : recorded s pos.symbol closes with
  | none =>
    have hnot := hfit.mp hrecorded
    exact iff_of_false (fun ⟨_, h, _⟩ => nomatch h) fun h => hnot h.1
  | some pnls =>
    have hfits : Fit pos (closes.map (·.placed)) := by
      by_contra hnot
      exact nomatch hrecorded.symm.trans (hfit.mpr hnot)
    have hoff := sum_sub_makes hne (hrun pnls hrecorded)
    have hle : ∀ x : ℚ, |-x / 10 ^ Fixed.exp| ≤ closes.length / 10 ^ Fixed.exp ↔
        |x| ≤ closes.length := by
      intro x
      rw [abs_div, abs_neg, abs_of_pos hexp, div_le_div_iff_of_pos_right hexp]
    rw [and_iff_right hfits, ← hle, ← hoff, ← hlen]
    constructor
    · rintro ⟨pnls', heq, h⟩
      obtain rfl := Option.some.inj heq
      exact h
    · exact fun h => ⟨pnls, rfl, h⟩

end Closes

/-- Two coins bought at a hundred each, for a fee of 0.07. -/
def twoCoins : Position where
  symbol := "BTC"
  side := .long
  size := Fixed.fromInt 2
  entryPrice := Fixed.fromInt 100
  collateral := Fixed.fromInt 200
  leverage := Fixed.fromInt 1
  feesPaid := 7000000
  unrealizedPnL := 0

/-- An account that holds a position and nothing else. -/
def holder : Service Unit where
  account := "0xa"
  engine := Policy.Engine.new
  exits := .empty
  keepsLedger := false
  ledger := []
  keepsRows := false
  lastClose := none
  limitsFn := none
  balance := none

/-- A close of a position at 110 that fills in part. -/
def sells (pos : Position) (size fee : D) : Closing where
  answers :=
    { clientID := "c"
      before := 0
      after := 1
      deletes := true
      positions := .ok [pos]
      place := fun _ => .ok ⟨"1", .filled, size, Fixed.fromInt 110, fee, 0⟩ }
  reason := .manual
  placed := ⟨"1", .filled, size, Fixed.fromInt 110, fee, 0⟩

/-- The two coins sold one after the other, for a fee of 0.035 each. -/
def oneByOne : List Closing :=
  let first := sells twoCoins (Fixed.fromInt 1) 3500000
  [first, sells (left twoCoins first.placed) (Fixed.fromInt 1) 3500000]

/-- Selling coins at 110 makes ten on each. -/
theorem made_sells {n : ℕ} {size fee : D} (h : size.toInt = n * 10 ^ 8) :
    made twoCoins (sells twoCoins size fee).placed = 10 * n := by
  have hexit : (Fixed.fromInt 110).toInt = 110 * 10 ^ 8 := by decide
  have hentry : (Fixed.fromInt 100).toInt = 100 * 10 ^ 8 := by decide
  have hlong : direction twoCoins = 1 := if_neg (by decide)
  rw [made, hlong]
  change (1 : ℚ) * (value (Fixed.fromInt 110) - value (Fixed.fromInt 100)) * value size = 10 * n
  rw [value, value, value, hexit, hentry, h, Fixed.exp]
  push_cast
  ring

/-- Sold at once, the coins make what is recorded. -/
theorem adds_up_at_once :
    AddsUp twoCoins ([sells twoCoins (Fixed.fromInt 2) 7000000].map (·.placed))
      (recorded holder "BTC" [sells twoCoins (Fixed.fromInt 2) 7000000]) := by
  have hmade : made twoCoins (sells twoCoins (Fixed.fromInt 2) 7000000).placed = 10 * (2 : ℕ) :=
    made_sells (by decide)
  have hround : rounded (10 * (2 : ℕ)) = 2000000000 := by
    rw [rounded, Fixed.exp, show (10 * (2 : ℕ) * 10 ^ 8 : ℚ) = ((2000000000 : ℤ) : ℚ) by norm_num]
    exact roundAway_intCast _
  refine (adds_up_iff holder twoCoins [sells twoCoins (Fixed.fromInt 2) 7000000] (by decide)
    (by decide) (by decide) (by decide) ?_ (by decide)).mpr ⟨?_, ?_⟩
  · exact ⟨⟨_, rfl, by decide⟩, rfl, by decide, by decide, by decide, trivial⟩
  · exact ⟨.inl (by decide), .inl (by decide), trivial⟩
  · rw [rounding, List.map_singleton, List.map_singleton, List.sum_singleton, turns, hmade, hround,
      turns]
    have hturn : (2000000000 - twoCoins.feesPaid.toInt -
      (sells twoCoins (Fixed.fromInt 2) 7000000).placed.fee.toInt).bdiv (2 ^ 64) = 0 := by decide
    rw [hturn, Fixed.exp]
    norm_num [recounted, counted]

/-- Sold one by one, what the first close found paid is counted twice. -/
theorem counted_twice : recorded holder "BTC" oneByOne = some [989500000, 986000000] ∧
    ¬ AddsUp twoCoins (oneByOne.map (·.placed)) (recorded holder "BTC" oneByOne) := by
  have hrun : recorded holder "BTC" oneByOne = some [989500000, 986000000] := by decide
  refine ⟨hrun, ?_⟩
  rw [hrun]
  rintro ⟨pnls, heq, hle⟩
  obtain rfl := Option.some.inj heq
  have hvalue : ∀ {d : D} {n : ℤ}, d.toInt = n → value d = n / 10 ^ 8 := fun h => by
    rw [value, h, Fixed.exp]
  have hfirst : value (989500000 : D) = ((989500000 : ℤ) : ℚ) / 10 ^ 8 := hvalue (by decide)
  have hsecond : value (986000000 : D) = ((986000000 : ℤ) : ℚ) / 10 ^ 8 := hvalue (by decide)
  have hopening : value twoCoins.feesPaid = ((7000000 : ℤ) : ℚ) / 10 ^ 8 := hvalue (by decide)
  have hclosing : value (3500000 : D) = ((3500000 : ℤ) : ℚ) / 10 ^ 8 := hvalue (by decide)
  have hcoin : made twoCoins (sells twoCoins (Fixed.fromInt 1) 3500000).placed = 10 * (1 : ℕ) :=
    made_sells (by decide)
  have hmakes : makes twoCoins (oneByOne.map (·.placed)) =
      (10 * (1 : ℕ) + (10 * (1 : ℕ) + 0)) - value twoCoins.feesPaid -
        (value (3500000 : D) + (value (3500000 : D) + 0)) := by
    rw [← hcoin]
    rfl
  rw [hmakes, hopening, hclosing, List.map_cons, List.map_cons, List.map_nil, List.sum_cons,
    List.sum_cons, List.sum_nil, hfirst, hsecond, Fixed.exp] at hle
  norm_num [oneByOne, abs_le] at hle

end SuperAgent.Platform
