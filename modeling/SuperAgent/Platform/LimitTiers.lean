import SuperAgent.Platform.Service

/-!
# A wallet's limits

A wallet trades under the safe tier until it chooses another. The tier and the
balance give the limits the engine judges, which are computed anew at every read
and before every opening order; limits the engine refuses are not installed.
-/

namespace SuperAgent.Platform

open Fixed (D)
open Policy (Limits Engine)

/-- One set of choices. -/
structure LimitTier where
  /-- The day's loss budget as a share of the balance at the start of the day, in percent to two
  decimals. -/
  dailyLossPct : D
  maxOpenPositions : Int
  cooldown : Duration
  deriving DecidableEq

/-- What a wallet trades under until it chooses otherwise. -/
def safeTier : LimitTier := ⟨Fixed.fromInt 20, 2, 10 * Duration.second⟩

/-- As far as anyone may go. -/
def ceilingTier : LimitTier := ⟨Fixed.fromInt 75, 5, 0⟩

/-- Whether a choice is within the ceiling. -/
def LimitTier.validate (t : LimitTier) : Except Error Unit := do
  revertIf (t.dailyLossPct < Fixed.fromInt 1 ∨ ceilingTier.dailyLossPct < t.dailyLossPct)
    (.invalid "daily_loss_pct must be between 1 and 75")
  revertIf (t.maxOpenPositions < 1 ∨ ceilingTier.maxOpenPositions < t.maxOpenPositions)
    (.invalid "max_open_positions must be between 1 and 5")
  revertIf (t.cooldown < ceilingTier.cooldown ∨ 60 * Duration.second < t.cooldown)
    (.invalid "cooldown_seconds must be between 0 and 60")

theorem safeTier_valid : safeTier.validate = .ok () := by rfl

/-- The day's budget of a balance: the tier's share of it, or the platform's own number where that
comes out at nothing. What does not fit panics. -/
def LimitTier.budget (tier : LimitTier) (fallback start : D) : Option D :=
  if 0 < tier.dailyLossPct then do
    let product ← Fixed.mul start tier.dailyLossPct
    let budget ← Fixed.div product (Fixed.fromInt 100)
    return if 0 < budget then budget else fallback
  else some fallback

/-- The limits of a tier. The balance at the start of the day is the balance now and what the day has
lost so far; the venue's own leverage is the limit where it is known. -/
def computeLimits (base : Limits) (tier : LimitTier) (balance lossToday venueMaxLeverage : D) :
    Option Limits := do
  let dailyLoss ← tier.budget base.dailyLoss (balance + lossToday)
  return { base with
    dailyLoss
    maxOpenPositions := tier.maxOpenPositions
    cooldown := tier.cooldown
    maxLeverage := if 0 < venueMaxLeverage then venueMaxLeverage else base.maxLeverage }

/-- What the limits are computed from, as it is read at the time. -/
structure Chosen where
  base : Limits
  tier : LimitTier
  maxLeverage : D

namespace Chosen

variable (c : Chosen)

def compute (balance lossToday : D) : Option Limits :=
  computeLimits c.base c.tier balance lossToday c.maxLeverage

/-- The limits a service asks for. A panic installs nothing, and neither do limits without a symbol. -/
def limitsFn (balance lossToday : D) : Limits :=
  (c.compute balance lossToday).getD { c.base with allowedSymbols := [] }

variable {c} {balance loss : D} {l : Limits}

theorem compute_eq_some (h : c.compute balance loss = some l) :
    l.allowedSymbols = c.base.allowedSymbols ∧ l.group = c.base.group ∧
      c.tier.budget c.base.dailyLoss (balance + loss) = some l.dailyLoss := by
  unfold compute computeLimits at h
  obtain ⟨dailyLoss, hbudget, h⟩ := Option.bind_eq_some_iff.mp h
  cases h
  exact ⟨rfl, rfl, hbudget⟩

theorem compute_isSome :
    (c.compute balance loss).isSome ↔ (c.tier.budget c.base.dailyLoss (balance + loss)).isSome := by
  unfold compute computeLimits
  cases c.tier.budget c.base.dailyLoss (balance + loss) <;> exact Iff.rfl

/-- A budget is positive where the platform's own number is. -/
theorem budget_pos {tier : LimitTier} {fallback start budget : D} (hfallback : 0 < fallback)
    (h : tier.budget fallback start = some budget) : 0 < budget := by
  unfold LimitTier.budget at h
  split at h
  · simp only [Option.bind_eq_bind, Option.bind_eq_some_iff] at h
    obtain ⟨product, -, share, -, h⟩ := h
    obtain rfl := Option.some.inj h
    split
    · assumption
    · exact hfallback
  · exact Option.some.inj h ▸ hfallback

/-- Limits computed from coherent ones for a choice within the ceiling are coherent. -/
theorem compute_valid (hbase : c.base.validate = .ok ()) (htier : c.tier.validate = .ok ())
    (h : c.compute balance loss = some l) : l.validate = .ok () := by
  have hbudget := (compute_eq_some h).2.2
  unfold compute computeLimits at h
  obtain ⟨dailyLoss, -, h⟩ := Option.bind_eq_some_iff.mp h
  cases h
  simp only [Limits.validate, LimitTier.validate, bind_eq_ok, revertIf_eq_ok] at hbase htier ⊢
  obtain ⟨_, hsymbols, _, hmax, _, hmin, _, hle, _, hleverage, _, -, _, hloss, -⟩ := hbase
  obtain ⟨_, -, _, hpositions, hcooldown⟩ := htier
  refine ⟨(), hsymbols, (), hmax, (), hmin, (), hle, (), ?_, (), ?_, (), ?_, ?_⟩
  · split
    · exact not_not_intro ‹_›
    · exact hleverage
  · omega
  · exact not_not_intro (budget_pos (not_not.mp hloss) hbudget)
  · exact fun hneg => hcooldown (.inl hneg)

theorem limitsFn_group : (c.limitsFn balance loss).group = c.base.group := by
  unfold limitsFn
  cases h : c.compute balance loss with
  | none => rfl
  | some l => exact (compute_eq_some h).2.1

theorem limitsFn_eq (h : c.compute balance loss = some l) : c.limitsFn balance loss = l := by
  rw [limitsFn, h]
  rfl

end Chosen

namespace Service

variable {ι : Type} (s : Service ι) (c : Chosen)

/-- The service with its limits computed from what is read now. -/
def under : Service ι := { s with limitsFn := some c.limitsFn }

/-- The balance an opening order goes by: the last one read, or else the venue's. -/
def orderBalance (account : Except VenueError D) : Option D :=
  match s.balance, account with
  | some balance, _ => some balance
  | none, .ok balance => some balance
  | none, .error _ => none

variable {s c} {now : Time} {account : Except VenueError D} {balance : D} {l : Limits}

theorem refreshLimitsForOrder_under : (s.under c).refreshLimitsForOrder now account =
    match s.orderBalance account with
    | some balance => (s.under c).refreshLimits now balance
    | none => s.under c := by
  obtain ⟨_, _, _, _, _, _, _, _, known⟩ := s
  cases known with
  | some balance => rfl
  | none => cases account <;> rfl

/-- Limits that are coherent are installed. -/
theorem refreshLimits_limits (haccount : s.account ≠ "")
    (hcompute : c.compute balance (s.engine.snapshot now s.account).2.dailyLoss = some l)
    (hvalid : l.validate = .ok ()) :
    ((s.under c).refreshLimits now balance).engine.limits s.account = some l := by
  have hset : ∀ e : Engine, e.setLimits s.account l =
      .ok { e with limits := Function.update e.limits s.account (some l) } := by
    intro e
    simp only [Engine.setLimits, revertIf, haccount, hvalid]
    rfl
  have hfn := Chosen.limitsFn_eq hcompute
  unfold refreshLimits under
  dsimp only
  rw [hfn, hset]
  exact Function.update_self _ _ _

end Service

end SuperAgent.Platform
