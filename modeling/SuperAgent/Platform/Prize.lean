import SuperAgent.Contract.StrategyPrizePool
import SuperAgent.Core.Tally
import SuperAgent.Platform.Service

/-!
# The prize desk

The part of the platform that funds and settles the prize contract: receipts
are saved in the journal, what they allocate is owed in memory until a fund
transaction is confirmed, and weeks whose pools have money are settled. Its
calls run beside each other, one remote answer at a time, over a chain that
mines a transaction whenever it likes after it was sent.
-/

namespace SuperAgent.Platform

open Contract (Week Strategy Address Amount IERC20)
open Fixed (D)

/-! ## What a week earned -/

/-- The week index of a Unix time, in seconds. -/
def weekOf (unix : Int) : Week := BitVec.ofInt 64 ((unix + 3 * 86400).tdiv (7 * 86400))

/-- A decimal in token units of six decimals. -/
def collateralMicros (d : D) : Int := d.toInt / (Fixed.scale.toInt / 1000000)

/-- What a week's builder fees earned each strategy's pool; the fees are a map's entries. -/
def accrued (share : Nat) (fees : List (String × D)) : List (String × Nat) :=
  if share = 0 then [] else
    fees.filterMap fun (id, fee) =>
      if 0 < fee then some (id, (collateralMicros fee * share / 100).toNat) else none

/-- Each strategy's accrual, or its share of what was received when that is less. -/
def allocate (accrued : List (String × Nat)) (received : Nat) : List (String × Nat) :=
  let total := (accrued.map Prod.snd).sum
  accrued.filterMap fun (id, v) =>
    if v = 0 then none else some (id, if total ≤ received then v else v * received / total)

/-! ## Transactions -/

/-- What funding is owed for. -/
abbrev FundKey := Week × String

/-- A settlement of one strategy's week. -/
structure Publication where
  week : Week
  strategy : String
  winners : List Address
  amounts : List Amount
  pnls : List (BitVec 128)

/-- What the desk sends. -/
inductive Payload
  | fund (key : FundKey) (amount : Nat)
  | settle (p : Publication)

/-- Whether a transaction was mined, and how. -/
inductive Fate
  | pending
  | mined
  | reverted
  deriving DecidableEq

/-- A transaction the desk has broadcast. -/
structure Tx where
  payload : Payload
  fate : Fate := .pending

/-- What the desk is set up with; `strategyKey` is how a strategy id is written on chain. -/
structure PrizeConfig (τ : Type) where
  token : IERC20 τ
  contract : Address
  settler : Address
  strategyKey : String → Strategy
  /-- The percent of the builder fees that goes to the pools. -/
  feeShare : Nat
  feeShare_le : feeShare ≤ 100

variable {τ : Type} (cfg : PrizeConfig τ)

/-- A strategy's week on chain. -/
def PrizeConfig.slot (key : FundKey) : Contract.Slot := (key.1, cfg.strategyKey key.2)

/-- The contract call a payload encodes. -/
def Payload.op : Payload → Contract.Op
  | .fund key amount => .fund key.1 (cfg.strategyKey key.2) (BitVec.ofNat 256 amount)
  | .settle p => .settle p.week (cfg.strategyKey p.strategy) p.winners p.amounts p.pnls

/-- The chain mines a transaction in a block of the given time. -/
def Tx.mine (timestamp : BitVec 256) (tx : Tx) (c : Contract.Chain τ) : Contract.Chain τ × Tx :=
  match Contract.Call.exec cfg.token cfg.contract ⟨⟨cfg.settler, timestamp⟩, tx.payload.op cfg⟩ c with
  | .ok (c, _) => (c, { tx with fate := .mined })
  | .error _ => (c, { tx with fate := .reverted })

/-! ## The desk -/

/-- A week's fees received, and what of them goes to each pool. -/
structure PrizeReceipt where
  amount : Nat
  funded : List (String × Nat)

/-- What a call of `Receive`, `flush` or `settleDue` still has to do. A call waiting for a
transaction goes on with `next`. -/
inductive Job
  | receiving (week : Week) (funded : List (String × Nat))
  | flush (after : Option Week)
  | flushing (batch : List (FundKey × Nat)) (after : Option Week)
  | settling (week : Week) (ids : List String)
  /-- `settled` was read as false. -/
  | asking (week : Week) (id : String) (ids : List String)
  /-- The pool was read, and the winners computed. -/
  | publishing (p : Publication) (ids : List String)
  | awaiting (tx : Tx) (next : Job)
  | done

/-- A transaction no call waits for any more; `retried` when its amount was put back. -/
structure Past where
  tx : Tx
  retried : Bool

/-- The desk with the journal and the chain it works on. -/
structure Desk (τ : Type) where
  chain : Contract.Chain τ
  /-- The desk's clock, in Unix seconds. -/
  now : Int
  /-- The journal's receipts. -/
  receipts : Week → Option PrizeReceipt
  /-- Funding owed, not yet sent. -/
  due : List (FundKey × Nat)
  jobs : List Job
  past : List Past

/-- Why a receipt was refused. -/
inductive ReceiveError
  | weekNotOver
  | receiptExists
  deriving DecidableEq

/-- A week's receipt for an amount, with what it allocates. -/
def PrizeConfig.receipt (amount : Nat) (fees : List (String × D)) : PrizeReceipt where
  amount := amount
  funded := allocate (accrued cfg.feeShare fees) amount

/-- Save a finished week's receipt; once per week. -/
def Desk.saveReceipt (d : Desk τ) (week : Week) (r : PrizeReceipt) :
    Except ReceiveError (Desk τ) := do
  revertIf (weekOf d.now ≤ week) .weekNotOver
  revertIf (d.receipts week).isSome .receiptExists
  return { d with receipts := Function.update d.receipts week (some r) }

/-- A failed transaction's amount is owed again; a settlement is only logged. -/
def Payload.putBack (due : List (FundKey × Nat)) : Payload → List (FundKey × Nat)
  | .fund key amount => bump due key amount
  | .settle _ => due

/-- Owe what a receipt allocates. -/
def owe (week : Week) : List (String × Nat) → List (FundKey × Nat) → List (FundKey × Nat)
  | [], due => due
  | (id, v) :: funded, due => owe week funded (if v = 0 then due else bump due (week, id) v)

/-- The next thing a call does, or hears. -/
inductive JobAction
  | enqueue
  /-- Take everything owed, in any order. -/
  | take (batch : List (FundKey × Nat))
  /-- Sending fails before anything is broadcast. -/
  | unsent
  | send
  | finish
  | skip
  | ask
  | read (winners : List Address) (amounts : List Amount) (pnls : List (BitVec 128))
  | mine (timestamp : BitVec 256)
  | confirm
  /-- The call stops waiting: reverted, an error of the node, or not mined in time. -/
  | giveUp

/-- One step of one call, with what it changes of the desk. -/
def Desk.advance (d : Desk τ) : Job → JobAction → Option (Desk τ × Job)
  | .receiving week funded, .enqueue =>
    some ({ d with due := owe week funded d.due }, .flush (some week))
  | .flush after, .take batch =>
    if batch.Perm d.due then some ({ d with due := [] }, .flushing batch after) else none
  | .flushing (e :: batch) after, .unsent =>
    some ({ d with due := bump d.due e.1 e.2 }, .flushing batch after)
  | .flushing (e :: batch) after, .send =>
    some (d, .awaiting { payload := .fund e.1 e.2 } (.flushing batch after))
  | .flushing [] none, .finish => some (d, .done)
  | .flushing [] (some week), .finish => some (d, .settling week (catalog.map Info.id))
  | .settling _ [], .finish => some (d, .done)
  | .settling week (_ :: ids), .skip => some (d, .settling week ids)
  | .settling week (id :: ids), .ask =>
    if d.chain.storage.settled (cfg.slot (week, id)) then none else some (d, .asking week id ids)
  | .asking week _ ids, .skip => some (d, .settling week ids)
  | .asking week id ids, .read winners amounts pnls =>
    if d.chain.storage.pool (cfg.slot (week, id)) = 0 then none
    else some (d, .publishing ⟨week, id, winners, amounts, pnls⟩ ids)
  | .publishing p ids, .skip => some (d, .settling p.week ids)
  | .publishing p ids, .send =>
    some (d, .awaiting { payload := .settle p } (.settling p.week ids))
  | .awaiting tx next, .mine timestamp =>
    if tx.fate = .pending then
      some ({ d with chain := (tx.mine cfg timestamp d.chain).1 },
        .awaiting (tx.mine cfg timestamp d.chain).2 next)
    else none
  | .awaiting tx next, .confirm =>
    if tx.fate = .mined then some ({ d with past := d.past ++ [⟨tx, false⟩] }, next) else none
  | .awaiting tx next, .giveUp =>
    let due := tx.payload.putBack d.due
    some ({ d with due, past := d.past ++ [⟨tx, true⟩] }, next)
  | _, _ => none

/-- The transactions a call waits for. -/
def Job.sent : Job → List Tx
  | .awaiting tx next => tx :: next.sent
  | _ => []

/-- What happens next to the desk. -/
inductive DeskAction (τ : Type)
  | receive (week : Week) (amount : Nat) (fees : List (String × D))
  /-- The receipt's row is written, but the insert reports an error. -/
  | receiveLost (week : Week) (amount : Nat) (fees : List (String × D))
  | flush
  | settleDue
  | job (j : Nat) (a : JobAction)
  /-- A transaction nobody waits for is mined after all. -/
  | mine (n : Nat) (timestamp : BitVec 256)
  /-- The process stops and starts again; the journal is kept, memory is not. -/
  | restart
  /-- Somebody else calls the contract. -/
  | call (c : Contract.Call)
  | token (t : τ)
  | clock (now : Int)

/-- Whether a call is a settlement. -/
def settles : Contract.Op → Bool
  | .settle .. => true
  | _ => false

/-- One step of the desk and what is around it. The desk's key is the only settler that
publishes; anyone may fund, claim and move tokens. -/
def Desk.next (d : Desk τ) : DeskAction τ → Option (Desk τ)
  | .receive week amount fees =>
    let r := cfg.receipt amount fees
    if (fees.map Prod.fst).Nodup then
      (d.saveReceipt week r).toOption.map fun d =>
        { d with jobs := d.jobs ++ [.receiving week r.funded] }
    else none
  | .receiveLost week amount fees =>
    if (fees.map Prod.fst).Nodup then (d.saveReceipt week (cfg.receipt amount fees)).toOption
    else none
  | .flush => some { d with jobs := d.jobs ++ [.flush none] }
  | .settleDue =>
    some { d with jobs := d.jobs ++ [.settling (weekOf d.now - 1) (catalog.map Info.id)] }
  | .job j a => d.jobs[j]?.bind fun job =>
    (d.advance cfg job a).map fun (d, job) => { d with jobs := d.jobs.set j job }
  | .mine n timestamp => d.past[n]?.bind fun p =>
    if p.tx.fate = .pending then
      let (chain, tx) := p.tx.mine cfg timestamp d.chain
      some { d with chain, past := d.past.set n { p with tx } }
    else none
  | .restart =>
    let orphans := d.jobs.flatMap Job.sent
    some { d with due := [], jobs := [], past := d.past ++ orphans.map fun tx => ⟨tx, false⟩ }
  | .call c =>
    if c.msg.sender ≠ cfg.settler ∧ settles c.op = false then
      (c.exec cfg.token cfg.contract d.chain).toOption.map fun (chain, _) => { d with chain }
    else none
  | .token t => some { d with chain := { d.chain with token := t } }
  | .clock now => some { d with now }

end SuperAgent.Platform
