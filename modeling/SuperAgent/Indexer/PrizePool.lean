import SuperAgent.Contract.Accounting

/-!
# The prize pool's indexer

The rows a dashboard reads, made from the contract's events alone: a pool for
each week and strategy, a prize for each winner, a row for each funding and
each claim, and the totals. Rows are kept under the key their id spells out.
-/

namespace SuperAgent.Indexer

open Contract (Address Week Strategy Amount Slot PrizeKey Event)

/-- Where in the chain an event was emitted. -/
structure LogId where
  chainId : ℕ
  block : ℕ
  logIndex : ℕ
  deriving DecidableEq

/-- An event with what the indexer knows of its block and transaction. -/
structure Log where
  event : Event
  id : LogId
  timestamp : ℕ
  tx : String

/-- A pool's life in one row. -/
structure Pool where
  week : Week
  strategy : Strategy
  /-- Total funded, in token units. -/
  funded : ℕ
  fundings : ℕ
  settled : Bool
  settledAt : Option ℕ
  /-- Carried into next week when nobody won. -/
  carried : ℕ
  winners : ℕ
  /-- The sum of the claims. -/
  claimed : ℕ

/-- What a winner got, and whether it was collected. -/
structure Prize where
  pool : Slot
  wallet : Address
  rank : ℕ
  amount : ℕ
  /-- In millionths of the collateral, signed. -/
  pnl : Int
  claimed : Bool
  claimedAt : Option ℕ
  claimTx : Option String

structure Funding where
  pool : Slot
  sender : Address
  amount : ℕ
  total : ℕ
  timestamp : ℕ
  tx : String

structure Claim where
  prize : PrizeKey
  wallet : Address
  amount : ℕ
  timestamp : ℕ
  tx : String

/-- The totals across every week. -/
structure Totals where
  funded : ℕ
  /-- The sum of the settled prizes. -/
  paid : ℕ
  claimed : ℕ
  pools : ℕ
  settledPools : ℕ

/-- The indexer's tables. -/
structure Store where
  pools : Slot → Option Pool
  prizes : PrizeKey → Option Prize
  fundings : LogId → Option Funding
  claims : LogId → Option Claim
  totals : Option Totals

namespace Store

/-- Before the first event. -/
def empty : Store := ⟨fun _ => none, fun _ => none, fun _ => none, fun _ => none, none⟩

/-- The totals' row, or zeros. -/
def loadTotals (x : Store) : Totals := x.totals.getD ⟨0, 0, 0, 0, 0⟩

/-- A pool's row, or a new one. -/
def loadPool (x : Store) (k : Slot) : Pool :=
  (x.pools k).getD ⟨k.1, k.2, 0, 0, false, none, 0, 0, 0⟩

/-- Whether a pool's row is a new one. -/
def created (x : Store) (k : Slot) : Bool := (x.pools k).isNone

/-- A pool was funded. -/
def onFunded (log : Log) (week : Week) (strategy : Strategy) (sender : Address)
    (amount total : Amount) (x : Store) : Store :=
  let k := (week, strategy)
  let pool := x.loadPool k
  let totals := x.loadTotals
  let created := if x.created k then 1 else 0
  { x with
    pools := Function.update x.pools k
      (some { pool with funded := total.toNat, fundings := pool.fundings + 1 })
    fundings := Function.update x.fundings log.id
      (some ⟨k, sender, amount.toNat, total.toNat, log.timestamp, log.tx⟩)
    totals := some { totals with
      funded := totals.funded + amount.toNat, pools := totals.pools + created } }

/-- What a settlement gives the winner at an index of the list. -/
def amountAt (amounts : List Amount) (i : ℕ) : ℕ := (amounts[i]?.map BitVec.toNat).getD 0

/-- The prizes of the winners from an index on, with what they add up to: a winner's row
replaces the one that is there. -/
def putPrizes (k : Slot) (amounts : List Amount) (pnls : List (BitVec 128)) :
    ℕ → List Address → ℕ → (PrizeKey → Option Prize) → ℕ × (PrizeKey → Option Prize)
  | _, [], paid, prizes => (paid, prizes)
  | i, wallet :: winners, paid, prizes =>
    let amount := amountAt amounts i
    let prize : Prize :=
      ⟨k, wallet, i + 1, amount, (pnls[i]?.map BitVec.toInt).getD 0, false, none, none⟩
    putPrizes k amounts pnls (i + 1) winners (paid + amount)
      (Function.update prizes (k.1, k.2, wallet) (some prize))

/-- A pool was settled. -/
def onSettled (log : Log) (week : Week) (strategy : Strategy) (winners : List Address)
    (amounts : List Amount) (pnls : List (BitVec 128)) (carried : Amount) (x : Store) : Store :=
  let k := (week, strategy)
  let pool := x.loadPool k
  let totals := x.loadTotals
  let created := if x.created k then 1 else 0
  let put := putPrizes k amounts pnls 0 winners 0 x.prizes
  { x with
    pools := Function.update x.pools k (some { pool with
      settled := true, settledAt := some log.timestamp, carried := carried.toNat,
      winners := winners.length })
    prizes := put.2
    totals := some { totals with
      paid := totals.paid + put.1, pools := totals.pools + created,
      settledPools := totals.settledPools + 1 } }

/-- A prize was claimed: the prize and its pool follow, if they are known. -/
def onClaimed (log : Log) (week : Week) (strategy : Strategy) (wallet : Address)
    (amount : Amount) (x : Store) : Store :=
  let id := (week, strategy, wallet)
  let totals := x.loadTotals
  let x := match x.prizes id with
    | none => x
    | some prize =>
      let x := { x with prizes := Function.update x.prizes id (some { prize with
        claimed := true, claimedAt := some log.timestamp, claimTx := some log.tx }) }
      match x.pools prize.pool with
      | none => x
      | some pool => { x with
        pools := Function.update x.pools prize.pool
          (some { pool with claimed := pool.claimed + amount.toNat }) }
  { x with
    claims := Function.update x.claims log.id
      (some ⟨id, wallet, amount.toNat, log.timestamp, log.tx⟩)
    totals := some { totals with claimed := totals.claimed + amount.toNat } }

/-- Hand an event to its handler; the other events have none. -/
def handle (x : Store) (log : Log) : Store :=
  match log.event with
  | .funded week strategy sender amount total =>
    x.onFunded log week strategy sender amount total
  | .settled week strategy winners amounts pnls carried =>
    x.onSettled log week strategy winners amounts pnls carried
  | .claimed week strategy wallet amount => x.onClaimed log week strategy wallet amount
  | _ => x

/-- The tables after a sequence of events. -/
def index (logs : List Log) : Store := logs.foldl handle empty

/-! ## What a reader sees -/

/-- A prize's amount; nothing, where there is no row. -/
def prizeAmount (x : Store) (k : PrizeKey) : ℕ := ((x.prizes k).map Prize.amount).getD 0

/-- Whether a prize was claimed, as far as its row says. -/
def prizeClaimed (x : Store) (k : PrizeKey) : Bool := ((x.prizes k).map Prize.claimed).getD false

/-! ## What each handler changes -/

variable {x : Store} {log : Log} {week : Week} {strategy : Strategy}

section Funded

variable {sender : Address} {amount total : Amount}

theorem loadPool_onFunded (k : Slot) :
    (x.onFunded log week strategy sender amount total).loadPool k =
      if k = (week, strategy) then { x.loadPool k with
        funded := total.toNat, fundings := (x.loadPool k).fundings + 1 } else x.loadPool k := by
  by_cases hk : k = (week, strategy)
  · subst hk
    simp [onFunded, loadPool]
  · simp [onFunded, loadPool, hk]

theorem created_onFunded (k : Slot) :
    (x.onFunded log week strategy sender amount total).created k =
      (x.created k && !decide (k = (week, strategy))) := by
  by_cases hk : k = (week, strategy)
  · subst hk
    simp [onFunded, created]
  · simp [onFunded, created, hk]

@[simp] theorem prizes_onFunded :
    (x.onFunded log week strategy sender amount total).prizes = x.prizes := rfl

@[simp] theorem loadTotals_onFunded :
    (x.onFunded log week strategy sender amount total).loadTotals = { x.loadTotals with
      funded := x.loadTotals.funded + amount.toNat
      pools := x.loadTotals.pools + if x.created (week, strategy) then 1 else 0 } := rfl

end Funded

section Settled

variable {winners : List Address} {amounts : List Amount} {pnls : List (BitVec 128)}
  {carried : Amount}

theorem loadPool_onSettled (k : Slot) :
    (x.onSettled log week strategy winners amounts pnls carried).loadPool k =
      if k = (week, strategy) then { x.loadPool k with
        settled := true, settledAt := some log.timestamp, carried := carried.toNat,
        winners := winners.length } else x.loadPool k := by
  by_cases hk : k = (week, strategy)
  · subst hk
    simp [onSettled, loadPool]
  · simp [onSettled, loadPool, hk]

theorem created_onSettled (k : Slot) :
    (x.onSettled log week strategy winners amounts pnls carried).created k =
      (x.created k && !decide (k = (week, strategy))) := by
  by_cases hk : k = (week, strategy)
  · subst hk
    simp [onSettled, created]
  · simp [onSettled, created, hk]

@[simp] theorem loadTotals_onSettled :
    (x.onSettled log week strategy winners amounts pnls carried).loadTotals = { x.loadTotals with
      paid := x.loadTotals.paid + (putPrizes (week, strategy) amounts pnls 0 winners 0 x.prizes).1
      pools := x.loadTotals.pools + if x.created (week, strategy) then 1 else 0
      settledPools := x.loadTotals.settledPools + 1 } := rfl

@[simp] theorem prizes_onSettled :
    (x.onSettled log week strategy winners amounts pnls carried).prizes =
      (putPrizes (week, strategy) amounts pnls 0 winners 0 x.prizes).2 := rfl

end Settled

section Claimed

variable {wallet : Address} {amount : Amount}

@[simp] theorem loadTotals_onClaimed :
    (x.onClaimed log week strategy wallet amount).loadTotals =
      { x.loadTotals with claimed := x.loadTotals.claimed + amount.toNat } := rfl

/-- Claiming a known prize of a known pool marks the prize and adds to the pool. -/
theorem onClaimed_known (log : Log) (amount : Amount) {prize : Prize} {pool : Pool}
    (hprize : x.prizes (week, strategy, wallet) = some prize) (hpool : x.pools prize.pool = some pool) :
    (x.onClaimed log week strategy wallet amount).pools = Function.update x.pools prize.pool
      (some { pool with claimed := pool.claimed + amount.toNat }) ∧
    (x.onClaimed log week strategy wallet amount).prizes =
      Function.update x.prizes (week, strategy, wallet) (some { prize with
        claimed := true, claimedAt := some log.timestamp, claimTx := some log.tx }) := by
  unfold onClaimed
  simp only [hprize, hpool, and_self]

/-- Claiming creates no pool. -/
theorem created_onClaimed (k : Slot) :
    (x.onClaimed log week strategy wallet amount).created k = x.created k := by
  unfold onClaimed created
  cases hprize : x.prizes (week, strategy, wallet) with
  | none => simp only [hprize]
  | some prize =>
    cases hpool : x.pools prize.pool with
    | none => simp only [hprize, hpool]
    | some pool =>
      simp only [hprize, hpool]
      by_cases hk : k = prize.pool
      · subst hk
        simp [hpool]
      · simp [hk]

end Claimed

/-! ## What a settlement leaves in the prizes' rows -/

section PutPrizes

variable {k : Slot} {amounts : List Amount} {pnls : List (BitVec 128)} {winners : List Address}
  {i paid : ℕ} {prizes : PrizeKey → Option Prize}

/-- Indexing a list of amounts past its first ones. -/
theorem drop_eq_cons (h : i < amounts.length) :
    ∃ a, amountAt amounts i = a.toNat ∧ amounts.drop i = a :: amounts.drop (i + 1) := by
  refine ⟨amounts[i], ?_, List.drop_eq_getElem_cons h⟩
  simp [amountAt, h]

/-- What the prizes add up to. -/
theorem putPrizes_paid (h : i + winners.length ≤ amounts.length) :
    (putPrizes k amounts pnls i winners paid prizes).1 =
      paid + (((winners.zip (amounts.drop i)).map Prod.snd).map BitVec.toNat).sum := by
  induction winners generalizing i paid prizes with
  | nil => rfl
  | cons wallet winners ih =>
    rw [List.length_cons] at h
    obtain ⟨a, ha, hdrop⟩ := drop_eq_cons (show i < amounts.length by omega)
    rw [putPrizes, ih (by omega), ha, hdrop, List.zip_cons_cons]
    simp only [List.map_cons, List.sum_cons]
    omega

/-- Other slots' rows stay. -/
theorem putPrizes_other {key : PrizeKey} (hkey : (key.1, key.2.1) ≠ k) :
    (putPrizes k amounts pnls i winners paid prizes).2 key = prizes key := by
  induction winners generalizing i paid prizes with
  | nil => rfl
  | cons wallet winners ih =>
    rw [putPrizes, ih]
    refine Function.update_of_ne ?_ _ _
    rintro rfl
    exact hkey rfl

/-- What the last entry of a list of winners and amounts awards a wallet, over what it had. -/
def lastAward (wallet : Address) : ℕ → List (Address × Amount) → ℕ
  | n, [] => n
  | n, (winner, a) :: rest => lastAward wallet (if winner = wallet then a.toNat else n) rest

/-- The last award is one of the awards. -/
theorem lastAward_le (wallet : Address) (n : ℕ) (l : List (Address × Amount)) :
    lastAward wallet n l ≤ n + Contract.awarded wallet l := by
  induction l generalizing n with
  | nil => exact le_rfl
  | cons e l ih =>
    obtain ⟨winner, a⟩ := e
    rw [lastAward, Contract.awarded]
    have htail := ih (if winner = wallet then a.toNat else n)
    split at htail
    · next hw =>
      rw [if_pos hw, if_pos hw]
      omega
    · next hw =>
      rw [if_neg hw, if_neg hw]
      omega

/-- A winner's row carries the amount of its last entry. -/
theorem putPrizes_amount (h : i + winners.length ≤ amounts.length) (wallet : Address) :
    (((putPrizes k amounts pnls i winners paid prizes).2 (k.1, k.2, wallet)).map
        Prize.amount).getD 0 =
      lastAward wallet (((prizes (k.1, k.2, wallet)).map Prize.amount).getD 0)
        (winners.zip (amounts.drop i)) := by
  induction winners generalizing i paid prizes with
  | nil => rfl
  | cons winner winners ih =>
    rw [List.length_cons] at h
    obtain ⟨a, ha, hdrop⟩ := drop_eq_cons (show i < amounts.length by omega)
    rw [putPrizes, ih (by omega), ha, hdrop, List.zip_cons_cons, lastAward]
    by_cases hw : winner = wallet
    · subst hw
      rw [if_pos rfl, Function.update_self]
      rfl
    · have hne : (k.1, k.2, wallet) ≠ (k.1, k.2, winner) := by
        simpa using fun h => hw h.symm
      rw [if_neg hw, Function.update_of_ne hne]

/-- No row of a settled slot is marked as claimed, unless it was before. -/
theorem putPrizes_claimed {wallet : Address}
    (h : ((prizes (k.1, k.2, wallet)).map Prize.claimed).getD false = false) :
    (((putPrizes k amounts pnls i winners paid prizes).2 (k.1, k.2, wallet)).map
      Prize.claimed).getD false = false := by
  induction winners generalizing i paid prizes with
  | nil => exact h
  | cons winner winners ih =>
    rw [putPrizes]
    apply ih
    by_cases hw : winner = wallet
    · subst hw
      rw [Function.update_self]
      rfl
    · have hne : (k.1, k.2, wallet) ≠ (k.1, k.2, winner) := by
        simpa using fun h => hw h.symm
      rwa [Function.update_of_ne hne]

/-- Every winner has a row, and a row that was there stays. -/
theorem putPrizes_known {wallet : Address}
    (h : wallet ∈ winners ∨ prizes (k.1, k.2, wallet) ≠ none) :
    (putPrizes k amounts pnls i winners paid prizes).2 (k.1, k.2, wallet) ≠ none := by
  induction winners generalizing i paid prizes with
  | nil => exact h.resolve_left nofun
  | cons winner winners ih =>
    rw [putPrizes]
    apply ih
    by_cases hw : wallet = winner
    · subst hw
      rw [Function.update_self]
      exact .inr nofun
    · have hne : (k.1, k.2, wallet) ≠ (k.1, k.2, winner) := by simpa using hw
      rw [Function.update_of_ne hne]
      rw [List.mem_cons] at h
      rcases h with (rfl | hmem) | hrow
      · exact absurd rfl hw
      · exact .inl hmem
      · exact .inr hrow

/-- Every row names the pool it is filed under. -/
theorem putPrizes_filed (h : ∀ key p, prizes key = some p → p.pool = (key.1, key.2.1)) :
    ∀ key p, (putPrizes k amounts pnls i winners paid prizes).2 key = some p →
      p.pool = (key.1, key.2.1) := by
  induction winners generalizing i paid prizes with
  | nil => exact h
  | cons winner winners ih =>
    rw [putPrizes]
    apply ih
    intro key p hp
    by_cases hkey : key = (k.1, k.2, winner)
    · subst hkey
      rw [Function.update_self] at hp
      rw [← Option.some.inj hp]
    · rw [Function.update_of_ne hkey] at hp
      exact h key p hp

end PutPrizes

end Store

end SuperAgent.Indexer
