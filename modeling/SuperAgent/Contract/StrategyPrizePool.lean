import SuperAgent.Core.Checked
import SuperAgent.Core.Run

/-!
# The prize contract

`StrategyPrizePool` as its Solidity source computes it: checked 256-bit
amounts, reverts as errors that leave everything unchanged, and the events each
accepted call emits. The collateral token is whatever contract the pool was
deployed over; `IERC20` carries the behaviour the pool relies on.
-/

namespace SuperAgent.Contract

abbrev Address := BitVec 160
abbrev Week := BitVec 64
abbrev Strategy := BitVec 256
abbrev Amount := BitVec 256

/-- A strategy's week, the key of `pool`, `settled` and `carriedIn`. -/
abbrev Slot := Week × Strategy

/-- A wallet's prize in a slot, the key of `prizes` and `claimed`. -/
abbrev PrizeKey := Week × Strategy × Address

/-- A token without transfer fees or callbacks: transfers move exactly the stated
amount and fail only when the payer's balance or allowance is short. -/
structure IERC20 (τ : Type) where
  balanceOf : τ → Address → Nat
  allowance : τ → Address → Address → Nat
  /-- `transfer t sender dst amount`, called by `sender`. -/
  transfer : τ → Address → Address → Nat → Option τ
  /-- `transferFrom t spender src dst amount`, called by `spender`. -/
  transferFrom : τ → Address → Address → Address → Nat → Option τ
  transfer_moves {t u : τ} {src dst : Address} {v : Nat} : transfer t src dst v = some u →
    v ≤ balanceOf t src ∧ ∀ a,
      balanceOf u a + (if a = src then v else 0) = balanceOf t a + (if a = dst then v else 0)
  transfer_pays {t : τ} {src : Address} (dst : Address) {v : Nat} :
    v ≤ balanceOf t src → ∃ u, transfer t src dst v = some u
  transfer_allowance {t u : τ} {src dst : Address} {v : Nat} : transfer t src dst v = some u →
    ∀ a b, allowance u a b ≤ allowance t a b
  transferFrom_moves {t u : τ} {spender src dst : Address} {v : Nat} :
    transferFrom t spender src dst v = some u →
    v ≤ balanceOf t src ∧ v ≤ allowance t src spender ∧ ∀ a,
      balanceOf u a + (if a = src then v else 0) = balanceOf t a + (if a = dst then v else 0)
  transferFrom_pays {t : τ} {spender src : Address} (dst : Address) {v : Nat} :
    v ≤ balanceOf t src → v ≤ allowance t src spender →
    ∃ u, transferFrom t spender src dst v = some u
  transferFrom_allowance {t u : τ} {spender src dst : Address} {v : Nat} :
    transferFrom t spender src dst v = some u → ∀ a b, allowance u a b ≤ allowance t a b

/-- Why a call was refused. `panic` is checked arithmetic leaving its width. -/
inductive Revert
  | notOwner
  | notSettler
  | weekNotOver (week : Week)
  | alreadySettled (week : Week) (strategy : Strategy)
  | notSettled (week : Week) (strategy : Strategy)
  | lengthMismatch
  | exceedsPool (wanted available : Amount)
  | nothingToClaim
  | transferFailed
  | zeroAmount
  | panic
  deriving DecidableEq

inductive Event
  | funded (week : Week) (strategy : Strategy) (sender : Address) (amount total : Amount)
  | settled (week : Week) (strategy : Strategy) (winners : List Address) (amounts : List Amount)
      (pnls : List (BitVec 128)) (carried : Amount)
  | claimed (week : Week) (strategy : Strategy) (wallet : Address) (amount : Amount)
  | settlerSet (settler : Address) (allowed : Bool)
  | retained (week : Week) (strategy : Strategy) (amount total : Amount)
  | swept (dst : Address) (amount : Amount)
  | ownerSet (owner : Address)
  deriving DecidableEq

/-- The contract's storage. -/
structure Storage where
  owner : Address
  settlers : Address → Bool
  /-- Funded and not yet allocated; what was allocated, once the week is settled. -/
  pool : Slot → Amount
  settled : Slot → Bool
  prizes : PrizeKey → Amount
  claimed : PrizeKey → Bool
  /-- What a week's pool received from the week before it. -/
  carriedIn : Slot → Amount
  /-- What settlements left behind because it had already been carried once. -/
  retained : Amount

/-- The storage together with the token it moves. -/
structure Chain (τ : Type) where
  storage : Storage
  token : τ

/-- What a call knows of its caller and its block. -/
structure Msg where
  sender : Address
  timestamp : BitVec 256

/-- Unix epoch is a Thursday; shifting by three days makes weeks start on Monday. -/
def mondayShift : BitVec 64 := 3 * 86400

/-- Seven days, in seconds. -/
def oneWeek : BitVec 64 := 7 * 86400

/-- The week index a timestamp falls in. -/
def weekOf (timestamp : BitVec 64) : Except Revert Week := do
  let shifted ← orRevert .panic (checkedAdd timestamp mondayShift)
  return shifted / oneWeek

/-- The first second of a week index. -/
def weekStart (week : Week) : Except Revert (BitVec 64) := do
  let start ← orRevert .panic (checkedMul week oneWeek)
  orRevert .panic (checkedSub start mondayShift)

/-- The week index of a timestamp, unless the shift leaves 64 bits. -/
theorem weekOf_eq_ok {timestamp : BitVec 64} {week : Week} :
    weekOf timestamp = .ok week ↔ timestamp.toNat + 259200 < 2 ^ 64 ∧
      week.toNat = (timestamp.toNat + 259200) / 604800 := by
  simp only [weekOf, bind_eq_ok, orRevert_eq_ok, checkedAdd_eq_some]
  constructor
  · rintro ⟨shifted, hshifted, hweek⟩
    cases hweek
    change timestamp.toNat + 259200 = _ at hshifted
    rw [hshifted, BitVec.toNat_udiv]
    exact ⟨shifted.isLt, rfl⟩
  · rintro ⟨hlt, hweek⟩
    have hshifted := BitVec.toNat_add_of_lt (x := timestamp) (y := mondayShift) hlt
    refine ⟨timestamp + mondayShift, hshifted.symm, congrArg Except.ok (BitVec.eq_of_toNat_eq ?_)⟩
    rw [BitVec.toNat_udiv, hshifted, hweek]
    rfl

/-- The first second of a week, for the weeks that begin in 64 bits after the epoch. -/
theorem weekStart_eq_ok {week : Week} {start : BitVec 64} :
    weekStart week = .ok start ↔ start.toNat + 259200 = week.toNat * 604800 ∧
      week.toNat * 604800 < 2 ^ 64 := by
  simp only [weekStart, bind_eq_ok, orRevert_eq_ok, checkedMul_eq_some, checkedSub_eq_some]
  constructor
  · rintro ⟨shifted, hshifted, hstart⟩
    change week.toNat * 604800 = _ at hshifted
    change 259200 + _ = _ at hstart
    exact ⟨by omega, hshifted ▸ shifted.isLt⟩
  · rintro ⟨hstart, hlt⟩
    refine ⟨BitVec.ofNat 64 (week.toNat * 604800), ?_, ?_⟩
    · rw [BitVec.toNat_ofNat, Nat.mod_eq_of_lt hlt]
      rfl
    · rw [BitVec.toNat_ofNat, Nat.mod_eq_of_lt hlt, ← hstart, Nat.add_comm]
      rfl

variable {τ : Type} (tok : IERC20 τ) (this : Address)

/-- The constructor, run by `sender`. -/
def deploy (sender settler : Address) : Storage where
  owner := sender
  settlers := fun a => a = settler ∧ settler ≠ 0
  pool := fun _ => 0
  settled := fun _ => false
  prizes := fun _ => 0
  claimed := fun _ => false
  carriedIn := fun _ => 0
  retained := 0

def setSettler (msg : Msg) (settler : Address) (allowed : Bool) (c : Chain τ) :
    Except Revert (Chain τ × List Event) := do
  revertIf (msg.sender ≠ c.storage.owner) .notOwner
  let s := { c.storage with settlers := Function.update c.storage.settlers settler allowed }
  return ({ c with storage := s }, [.settlerSet settler allowed])

def setOwner (msg : Msg) (next : Address) (c : Chain τ) :
    Except Revert (Chain τ × List Event) := do
  revertIf (msg.sender ≠ c.storage.owner) .notOwner
  return ({ c with storage := { c.storage with owner := next } }, [.ownerSet next])

/-- Adds to a strategy's pool for a week. A settled week cannot be funded. -/
def fund (msg : Msg) (week : Week) (strategy : Strategy) (amount : Amount) (c : Chain τ) :
    Except Revert (Chain τ × List Event) := do
  revertIf (amount = 0) .zeroAmount
  revertIf (c.storage.settled (week, strategy) = true) (.alreadySettled week strategy)
  let token ← orRevert .transferFailed
    (tok.transferFrom c.token this msg.sender this amount.toNat)
  let total ← orRevert .panic (checkedAdd (c.storage.pool (week, strategy)) amount)
  let s := { c.storage with pool := Function.update c.storage.pool (week, strategy) total }
  return (⟨s, token⟩, [.funded week strategy msg.sender amount total])

/-- `total += amounts[i]` over all winners. -/
def sumAmounts : Amount → List Amount → Except Revert Amount
  | total, [] => .ok total
  | total, a :: as => do
    let total ← orRevert .panic (checkedAdd total a)
    sumAmounts total as

/-- `prizes[week][strategy][winners[i]] += amounts[i]` over all winners. -/
def recordPrizes (week : Week) (strategy : Strategy) :
    (PrizeKey → Amount) → List (Address × Amount) → Except Revert (PrizeKey → Amount)
  | prizes, [] => .ok prizes
  | prizes, (winner, a) :: rest => do
    let prize ← orRevert .panic (checkedAdd (prizes (week, strategy, winner)) a)
    recordPrizes week strategy (Function.update prizes (week, strategy, winner) prize) rest

/-- Adds what travels to the next week's pool. -/
def carry (week : Week) (strategy : Strategy) (carried : Amount) (s : Storage) :
    Except Revert (Storage × List Event) :=
  if carried = 0 then .ok (s, []) else do
    let next ← orRevert .panic (checkedAdd week 1)
    let total ← orRevert .panic (checkedAdd (s.pool (next, strategy)) carried)
    let carriedIn ← orRevert .panic (checkedAdd (s.carriedIn (next, strategy)) carried)
    return ({ s with
        pool := Function.update s.pool (next, strategy) total
        carriedIn := Function.update s.carriedIn (next, strategy) carriedIn },
      [.funded next strategy this carried total])

/-- What settlement left unpaid: the week's own contributions travel to the next week,
what arrived from the week before has had its second chance and is retained. -/
def rest (week : Week) (strategy : Strategy) (available paid : Amount) (s : Storage) :
    Except Revert (Storage × Amount × List Event) := do
  let left ← orRevert .panic (checkedSub available paid)
  let fresh ← orRevert .panic (checkedSub available (s.carriedIn (week, strategy)))
  let carried := if left < fresh then left else fresh
  let stale ← orRevert .panic (checkedSub left carried)
  let (s, events) ← carry this week strategy carried s
  if stale = 0 then return (s, carried, events) else
    let retained ← orRevert .panic (checkedAdd s.retained stale)
    return ({ s with retained }, carried, events ++ [.retained week strategy stale retained])

/-- Publishes a week's winners once the week is over. -/
def settle (msg : Msg) (week : Week) (strategy : Strategy) (winners : List Address)
    (amounts : List Amount) (pnls : List (BitVec 128)) (c : Chain τ) :
    Except Revert (Chain τ × List Event) := do
  revertIf (c.storage.settlers msg.sender = false) .notSettler
  let current ← weekOf (msg.timestamp.truncate 64)
  revertIf (current ≤ week) (.weekNotOver week)
  revertIf (c.storage.settled (week, strategy) = true) (.alreadySettled week strategy)
  revertIf (winners.length ≠ amounts.length ∨ winners.length ≠ pnls.length) .lengthMismatch
  let total ← sumAmounts 0 amounts
  let available := c.storage.pool (week, strategy)
  revertIf (available < total) (.exceedsPool total available)
  let prizes ← recordPrizes week strategy c.storage.prizes (winners.zip amounts)
  let s := { c.storage with
    prizes := prizes
    pool := Function.update c.storage.pool (week, strategy) total
    settled := Function.update c.storage.settled (week, strategy) true }
  let (s, carried, events) ← rest this week strategy available total s
  return ({ c with storage := s }, events ++ [.settled week strategy winners amounts pnls carried])

/-- Takes back what settlements retained. -/
def sweep (msg : Msg) (dst : Address) (c : Chain τ) : Except Revert (Chain τ × List Event) := do
  revertIf (msg.sender ≠ c.storage.owner) .notOwner
  let amount := c.storage.retained
  revertIf (amount = 0) .zeroAmount
  let token ← orRevert .transferFailed (tok.transfer c.token this dst amount.toNat)
  return (⟨{ c.storage with retained := 0 }, token⟩, [.swept dst amount])

/-- Pays the caller their prize for a settled week. -/
def claim (msg : Msg) (week : Week) (strategy : Strategy) (c : Chain τ) :
    Except Revert (Chain τ × List Event) := do
  revertIf (c.storage.settled (week, strategy) = false) (.notSettled week strategy)
  let key := (week, strategy, msg.sender)
  let amount := c.storage.prizes key
  revertIf (amount = 0 ∨ c.storage.claimed key = true) .nothingToClaim
  let s := { c.storage with claimed := Function.update c.storage.claimed key true }
  let token ← orRevert .transferFailed (tok.transfer c.token this msg.sender amount.toNat)
  return (⟨s, token⟩, [.claimed week strategy msg.sender amount])

/-- The state-changing entry points with their arguments. -/
inductive Op
  | setSettler (settler : Address) (allowed : Bool)
  | setOwner (next : Address)
  | fund (week : Week) (strategy : Strategy) (amount : Amount)
  | settle (week : Week) (strategy : Strategy) (winners : List Address) (amounts : List Amount)
      (pnls : List (BitVec 128))
  | sweep (dst : Address)
  | claim (week : Week) (strategy : Strategy)

/-- One transaction's call. -/
structure Call where
  msg : Msg
  op : Op

/-- Dispatch a call to its entry point. -/
def Call.exec (call : Call) (c : Chain τ) : Except Revert (Chain τ × List Event) :=
  match call.op with
  | .setSettler settler allowed => Contract.setSettler call.msg settler allowed c
  | .setOwner next => Contract.setOwner call.msg next c
  | .fund week strategy amount => Contract.fund tok this call.msg week strategy amount c
  | .settle week strategy winners amounts pnls =>
    Contract.settle this call.msg week strategy winners amounts pnls c
  | .sweep dst => Contract.sweep tok this call.msg dst c
  | .claim week strategy => Contract.claim tok this call.msg week strategy c

/-- The chain with the accepted calls and what each emitted, oldest first. -/
structure World (τ : Type) where
  chain : Chain τ
  journal : List (Call × List Event)

/-- What happens to the contract: a call, or other accounts using the token. -/
inductive Action (τ : Type)
  | call (c : Call)
  | others (t : τ)

/-- One event on the chain. Between calls other accounts use the token as they like, but
cannot spend what the contract holds, nor give allowances in its name. -/
inductive World.Step : World τ → Action τ → World τ → Prop
  | accepted {w : World τ} {c : Call} {chain : Chain τ} {events : List Event} :
      c.exec tok this w.chain = .ok (chain, events) →
      Step w (.call c) ⟨chain, w.journal ++ [(c, events)]⟩
  | reverted {w : World τ} {c : Call} {e : Revert} :
      c.exec tok this w.chain = .error e → Step w (.call c) w
  | others {w : World τ} {t : τ} :
      tok.balanceOf w.chain.token this ≤ tok.balanceOf t this →
      (∀ b, tok.allowance t this b ≤ tok.allowance w.chain.token this b) →
      Step w (.others t) { w with chain := { w.chain with token := t } }

/-- The contract just deployed over a token it has given no allowance on. -/
inductive World.Deployed : World τ → Prop
  | mk {sender settler : Address} {t : τ} : (∀ b, tok.allowance t this b = 0) →
      Deployed ⟨⟨deploy sender settler, t⟩, []⟩

/-- A state some finite sequence of calls leads to. -/
def World.Reachable (w : World τ) : Prop :=
  ∃ w₀ as, World.Deployed tok this w₀ ∧ Run (World.Step tok this) Always w₀ as w

end SuperAgent.Contract
