import SuperAgent.Core.Run
import SuperAgent.Platform.LimitTiers
import SuperAgent.Platform.Mirror

/-!
# The daily budget

The day's budget is a share of the balance at the start of the day, which is put
together from the balance last read and what the day has lost by now. The balance
read is the free one: what positions held then is not in it, and what was lost
since is counted twice.
-/

namespace SuperAgent.Policy

open Fixed (D)

/-! ## What a day has lost -/

namespace Engine

variable {e e' : Engine} {now day : Time} {account : String} {st : AccountState}

/-- The day's net result with its sign flipped. -/
def lossOn (e : Engine) (day : Time) (account : String) : D := (e.stateOf day account).realizedLoss

/-- Whenever it is read on a day, the state is the same. -/
theorem stateOf_congr (h : now.startOfDay = day.startOfDay) :
    e.stateOf now account = e.stateOf day account := by
  have hfresh : AccountState.fresh now = AccountState.fresh day := by
    rw [AccountState.fresh, AccountState.fresh, h]
  rw [stateOf, stateOf, hfresh, AccountState.rollDay, AccountState.rollDay, h]

theorem le_dayStart : day.startOfDay ≤ (e.stateOf day account).dayStart := by
  unfold stateOf AccountState.rollDay
  split
  · exact le_rfl
  · next hle => exact not_lt.mp hle

theorem lossOn_putState (hday : day.startOfDay ≤ st.dayStart) :
    (e.putState account st).lossOn day account = st.realizedLoss := by
  have hkey : (e.putState account st).stateKey account = e.stateKey account := rfl
  rw [lossOn, stateOf, hkey, putState]
  dsimp only
  rw [Function.update_self, Option.getD_some, AccountState.rollDay, if_neg hday.not_gt]

/-- What is kept under an account's key decides what the day has lost. -/
theorem lossOn_congr (hgroup : e'.group account = e.group account) (hstate : e'.state = e.state) :
    e'.lossOn day account = e.lossOn day account := by
  rw [lossOn, lossOn, stateOf, stateOf, stateKey_eq_of_group hgroup, hstate]

theorem snapshot_lossOn (h : now.startOfDay = day.startOfDay) :
    (e.snapshot now account).1.lossOn day account = e.lossOn day account := by
  rw [snapshot, lossOn_putState, stateOf_congr h]
  · rfl
  · rw [stateOf_congr h]
    exact le_dayStart

theorem authorize_lossOn {req : Request} (h : now.startOfDay = day.startOfDay) :
    (e.authorize now req).1.lossOn day req.account = e.lossOn day req.account := by
  have hput : (e.putState req.account (e.stateOf now req.account)).lossOn day req.account =
      e.lossOn day req.account := snapshot_lossOn h
  unfold authorize
  split
  · rfl
  split
  · rfl
  split
  · rfl
  split
  · rfl
  split
  · rfl
  · exact hput

theorem recordOpen_lossOn {notional : D} (h : now.startOfDay = day.startOfDay) :
    (e.recordOpen now account notional).lossOn day account = e.lossOn day account := by
  rw [recordOpen, stateOf_congr h, lossOn_putState]
  · rfl
  · exact le_dayStart

theorem recordClose_lossOn {notional pnl : D} (h : now.startOfDay = day.startOfDay) :
    (e.recordClose now account notional pnl).lossOn day account = e.lossOn day account - pnl := by
  rw [recordClose, stateOf_congr h, lossOn_putState]
  · rfl
  · exact le_dayStart

end Engine

end SuperAgent.Policy

namespace SuperAgent.Platform

open Fixed (D)
open Policy (Engine Limits)
open Venue (Order Position)

variable {ι : Type}

namespace Service

variable {s s' : Service ι} {c : Chosen} {now day : Time} {tag : ι} {balance : D}

/-- What the account has lost on a day. -/
def loss (s : Service ι) (day : Time) : D := s.engine.lossOn day s.account

/-- The account, its group and what the day has lost are as they were. -/
structure Undisturbed (day : Time) (s s' : Service ι) : Prop where
  account : s'.account = s.account
  group : s'.engine.group s'.account = s.engine.group s.account
  loss : s'.loss day = s.loss day

theorem Undisturbed.refl (day : Time) (s : Service ι) : Undisturbed day s s := ⟨rfl, rfl, rfl⟩

theorem Undisturbed.trans {s'' : Service ι} (h : Undisturbed day s s')
    (h' : Undisturbed day s' s'') : Undisturbed day s s'' :=
  ⟨h'.account.trans h.account, h'.group.trans h.group, h'.loss.trans h.loss⟩

/-- The limits computed are of the account's group. -/
def Follows (s : Service ι) (c : Chosen) : Prop := some c.base.group = s.engine.group s.account

theorem Follows.grouped (h : s.Follows c) : (s.under c).Grouped := by
  rintro fn hfn balance loss
  cases hfn
  rw [Chosen.limitsFn_group]
  exact h

theorem refreshLimits_undisturbed (balance : D) (h : s.Follows c) (hnow : now.startOfDay = day.startOfDay) :
    Undisturbed day s ((s.under c).refreshLimits now balance) := by
  have hkeeps := refreshLimits_keeps h.grouped now balance
  have hsnap : (s.engine.snapshot now s.account).1.lossOn day s.account =
      s.engine.lossOn day s.account := Engine.snapshot_lossOn hnow
  refine ⟨hkeeps.account, hkeeps.group, ?_⟩
  unfold loss refreshLimits under
  dsimp only
  split
  · next engine hset =>
    obtain ⟨hgroup, -⟩ := Engine.setLimits_frame hset
      ((congrArg some Chosen.limitsFn_group).trans h)
    simp only [Engine.setLimits, bind_eq_ok] at hset
    obtain ⟨_, _, _, _, hset⟩ := hset
    refine (Engine.lossOn_congr hgroup ?_).trans hsnap
    rw [← Except.ok.inj hset]
  · exact hsnap

theorem refreshLimitsForOrder_undisturbed {a : Except VenueError D} (h : s.Follows c)
    (hnow : now.startOfDay = day.startOfDay) :
    Undisturbed day s ((s.under c).refreshLimitsForOrder now a) := by
  rw [refreshLimitsForOrder_under]
  split
  · exact refreshLimits_undisturbed _ h hnow
  · exact ⟨rfl, rfl, rfl⟩

theorem undisturbed_authorize (req : Policy.Request) (hreq : req.account = s.account)
    (hnow : now.startOfDay = day.startOfDay) :
    Undisturbed day s { s with engine := (s.engine.authorize now req).1 } := by
  obtain ⟨hlimits, -⟩ := Engine.authorize_frame (Prod.mk.eta (p := s.engine.authorize now req)).symm
  refine ⟨rfl, ?_, ?_⟩
  · change (Option.map _ ((s.engine.authorize now req).1.limits s.account)) = _
    rw [hlimits]
    rfl
  · rw [loss, loss, ← hreq]
    exact Engine.authorize_lossOn hnow

theorem admitOpen_undisturbed {a : OpenAnswers} (req : OpenRequest) (h : s.Follows c)
    (hnow : a.before.startOfDay = day.startOfDay) :
    Undisturbed day s ((s.under c).admitOpen a req).1 := by
  have hrefresh := refreshLimitsForOrder_undisturbed (a := a.balance) h hnow
  unfold admitOpen
  split
  · exact ⟨rfl, rfl, rfl⟩
  · next checked _ =>
    have hauth := undisturbed_authorize
      (s := (s.under c).refreshLimitsForOrder a.before a.balance)
      (Policy.fromOrder ((s.under c).refreshLimitsForOrder a.before a.balance).account
        (checked.order a.clientID)) rfl hnow
    dsimp only
    split
    · next hdenied =>
      rw [hdenied] at hauth
      exact hrefresh.trans hauth
    · next hgranted =>
      rw [hgranted] at hauth
      exact hrefresh.trans hauth

theorem openPosition_undisturbed {a : OpenAnswers} {req : OpenRequest} (h : s.Follows c)
    (hbefore : a.before.startOfDay = day.startOfDay) (hafter : a.after.startOfDay = day.startOfDay) :
    Undisturbed day s ((s.under c).openPosition a tag req).1 := by
  have hjudged := admitOpen_undisturbed req h hbefore
  cases hgate : ((s.under c).admitOpen a req).2 with
  | error e => rwa [openPosition_denied hgate]
  | ok r =>
    rw [openPosition_admitted hgate]
    split
    · exact hjudged
    · next placed _ =>
      split
      · exact hjudged
      · refine hjudged.trans ?_
        generalize ((s.under c).admitOpen a req).1 = t
        have hrecord : ∀ opened : D, Undisturbed day t
            { t with engine := t.engine.recordOpen a.after t.account opened } := fun opened =>
          ⟨rfl, rfl, Engine.recordOpen_lossOn hafter⟩
        unfold settleOpen
        split
        · exact .refl day t
        · next opened _ =>
          dsimp only
          split
          · split
            · exact hrecord opened
            · exact (hrecord opened).trans ⟨rfl, rfl, rfl⟩
          · exact (hrecord opened).trans ⟨rfl, rfl, rfl⟩

theorem refreshLimitsForOrder_balance {a : Except VenueError D} :
    ((s.under c).refreshLimitsForOrder now a).balance = s.balance ∨
      ((s.under c).refreshLimitsForOrder now a).balance = s.orderBalance a := by
  rw [refreshLimitsForOrder_under]
  split
  · next b hb => exact .inr hb.symm
  · exact .inl rfl

/-- The balance an opening order leaves known is the one that was, or the one it goes by. -/
theorem admitOpen_balance {a : OpenAnswers} {req : OpenRequest} :
    ((s.under c).admitOpen a req).1.balance = s.balance ∨
      ((s.under c).admitOpen a req).1.balance = s.orderBalance a.balance := by
  unfold admitOpen
  split
  · exact .inl rfl
  · dsimp only
    split <;> exact refreshLimitsForOrder_balance

theorem openPosition_balance {a : OpenAnswers} {req : OpenRequest} :
    ((s.under c).openPosition a tag req).1.balance = ((s.under c).admitOpen a req).1.balance := by
  cases hgate : ((s.under c).admitOpen a req).2 with
  | error e => rw [openPosition_denied hgate]
  | ok r =>
    rw [openPosition_admitted hgate]
    split
    · rfl
    · split
      · rfl
      · generalize ((s.under c).admitOpen a req).1 = t
        unfold settleOpen
        split
        · rfl
        · dsimp only
          split
          · split <;> rfl
          · rfl

theorem admitClose_undisturbed {a : CloseAnswers} (symbol : String)
    (hnow : a.before.startOfDay = day.startOfDay) :
    Undisturbed day s (s.admitClose a symbol).1 ∧
      (s.admitClose a symbol).1.balance = s.balance := by
  have hdisarm : Undisturbed day s (s.disarm symbol a.deletes) := ⟨rfl, rfl, rfl⟩
  unfold admitClose
  simp only
  split
  · exact ⟨hdisarm, rfl⟩
  · split
    · exact ⟨hdisarm, rfl⟩
    · next pos _ =>
      have hauth := undisturbed_authorize (s := s.disarm symbol a.deletes)
        (Policy.fromOrder (s.disarm symbol a.deletes).account
          (closeOrder symbol pos a.clientID)) rfl hnow
      split
      · next hdenied =>
        rw [hdenied] at hauth
        exact ⟨hdisarm.trans hauth, rfl⟩
      · next hgranted =>
        rw [hgranted] at hauth
        exact ⟨hdisarm.trans hauth, rfl⟩

/-- An opening order that is admitted is on an account, and was judged by the limits the refresh before
it left in force. -/
theorem admitOpen_judged {a : OpenAnswers} {req checked : OpenRequest}
    (h : (s.admitOpen a req).2 = .ok checked) :
    (s.refreshLimitsForOrder a.before a.balance).account ≠ "" ∧
      (s.admitOpen a req).1.engine.limits =
        (s.refreshLimitsForOrder a.before a.balance).engine.limits := by
  unfold admitOpen at h ⊢
  split at h
  · cases h
  · dsimp only at h
    split at h
    · cases h
    · next hgrant =>
      dsimp only
      rw [hgrant]
      refine ⟨fun haccount => ?_, (Engine.authorize_frame hgrant).1⟩
      rw [Engine.authorize, if_pos (.inl haccount)] at hgrant
      cases hgrant

/-- A day down by nothing or more is down by what it has lost. -/
theorem snapshot_dailyLoss (hnow : now.startOfDay = day.startOfDay) (hloss : 0 ≤ s.loss day) :
    (s.engine.snapshot now s.account).2.dailyLoss = s.loss day := by
  unfold Engine.snapshot
  rw [Engine.stateOf_congr hnow]
  exact if_neg (Int64.not_lt.mpr hloss)

/-- A close that is recorded adds its result to the day's. -/
theorem close_recorded {a : CloseAnswers} {symbol : String} (reason : CloseReason) {pos : Position}
    {placed : Order} {notional pnl : D} (hbefore : a.before.startOfDay = day.startOfDay)
    (hafter : a.after.startOfDay = day.startOfDay) (hgate : (s.admitClose a symbol).2 = .ok pos)
    (hplace : a.place (closeOrder symbol pos a.clientID) = .ok placed)
    (htaken : placed.status ≠ .failed) (hnotional : Fixed.mul pos.entryPrice pos.size = some notional)
    (hpnl : realizedPnL pos placed = some pnl) :
    (s.close a symbol reason).1.account = s.account ∧
      (s.close a symbol reason).1.engine.group s.account = s.engine.group s.account ∧
      (s.close a symbol reason).1.balance = s.balance ∧
      (s.close a symbol reason).1.loss day = s.loss day - pnl := by
  obtain ⟨h, hbalance⟩ := admitClose_undisturbed (s := s) symbol hbefore
  rw [close_admitted hgate, hplace]
  dsimp only
  rw [if_neg htaken, settleClose, hnotional, hpnl]
  dsimp only
  refine ⟨h.account, ?_, hbalance, ?_⟩
  · rw [← h.group, h.account]
    rfl
  · rw [← h.loss]
    exact Engine.recordClose_lossOn hafter

/-- A close the venue does not take changes nothing of it. -/
theorem close_untaken {a : CloseAnswers} {symbol : String} (reason : CloseReason)
    (hbefore : a.before.startOfDay = day.startOfDay)
    (huntaken : ∀ pos placed, (s.admitClose a symbol).2 = .ok pos →
      a.place (closeOrder symbol pos a.clientID) = .ok placed → placed.status = .failed) :
    Undisturbed day s (s.close a symbol reason).1 ∧
      (s.close a symbol reason).1.balance = s.balance := by
  have h := admitClose_undisturbed (s := s) symbol hbefore
  cases hgate : (s.admitClose a symbol).2 with
  | error e => rwa [close_denied hgate]
  | ok pos =>
    rw [close_admitted hgate]
    cases hplace : a.place (closeOrder symbol pos a.clientID) with
    | error e => exact h
    | ok placed =>
      dsimp only
      rw [if_pos (huntaken pos placed hgate hplace)]
      exact h

end Service

/-! ## One account on one day -/

/-- An account on a day without deposits, withdrawals, fees or funding: its service, and what the
venue has of it. -/
structure DayState (ι : Type) where
  service : Service ι
  /-- The balance the venue reports. -/
  free : D
  /-- What positions hold of the account's balance, unrealised results aside. -/
  locked : D
  /-- What positions held when the balance was last read. -/
  readLocked : D
  /-- What had been lost since the start of the day when the balance was last read. -/
  readLoss : D

/-- What happens next to an account. -/
inductive DayAction (ι : Type)
  | read (now : Time) (c : Chosen)
  | opens (a : OpenAnswers) (c : Chosen) (tag : ι) (req : OpenRequest)
  | closes (a : CloseAnswers) (symbol : String) (reason : CloseReason)
  /-- The venue locks collateral, or releases it. -/
  | locks (amount : D)
  /-- The venue realises a result no answer tells of: the answer to a close was lost. -/
  | untold (result : D)

namespace DayState

variable (w : DayState ι) (day : Time)

/-- The account's balance, free and locked. -/
def total : D := w.free + w.locked

/-- The account once its service has done something that may have read the balance. -/
def after (s : Service ι) : DayState ι :=
  { w with
    service := s
    readLocked := if s.balance = w.service.balance then w.readLocked else w.locked
    readLoss := if s.balance = w.service.balance then w.readLoss else w.service.loss day }

/-- The day begins: nothing is lost yet, and a balance that was read before differs from the one there
is by what was locked and what has been lost since. -/
def Morning : Prop :=
  w.service.loss day = 0 ∧
    ∀ b, w.service.balance = some b → b + w.readLocked + w.readLoss = w.total

/-- Whether computing an opening order's limits panics. -/
def LimitsPanic (a : OpenAnswers) (c : Chosen) (req : OpenRequest) : Prop :=
  ∃ checked b, req.check = .ok checked ∧ w.service.orderBalance a.balance = some b ∧
    c.compute b (w.service.engine.snapshot a.before w.service.account).2.dailyLoss = none

/-- One operation on the day, or a change of what is locked. Reading the state notes the excursions of
the positions as well, whatever they are. -/
inductive Step (w : DayState ι) : DayAction ι → DayState ι → Prop
  | read {now : Time} {c : Chosen} {exits : Exits ι} : now.startOfDay = day.startOfDay →
    w.service.Follows c → Step w (.read now c)
      { w with
        service := { (w.service.under c).refreshLimits now w.free with exits }
        readLocked := w.locked
        readLoss := w.service.loss day }
  | opens {a : OpenAnswers} {c : Chosen} {tag : ι} {req : OpenRequest} :
    a.before.startOfDay = day.startOfDay → a.after.startOfDay = day.startOfDay →
    w.service.Follows c → (∀ b, a.balance = .ok b → b = w.free) → ¬ w.LimitsPanic a c req →
    Step w (.opens a c tag req) (w.after day ((w.service.under c).openPosition a tag req).1)
  | panics {a : OpenAnswers} {c : Chosen} {tag : ι} {req : OpenRequest} :
    a.before.startOfDay = day.startOfDay → w.service.Follows c →
    (∀ b, a.balance = .ok b → b = w.free) → w.LimitsPanic a c req →
    Step w (.opens a c tag req)
      (w.after day ((w.service.under c).refreshLimitsForOrder a.before a.balance))
  | closes {a : CloseAnswers} {symbol : String} {reason : CloseReason} {pos : Position}
    {placed : Order} {result : D} : a.before.startOfDay = day.startOfDay →
    a.after.startOfDay = day.startOfDay → (w.service.admitClose a symbol).2 = .ok pos →
    a.place (closeOrder symbol pos a.clientID) = .ok placed → placed.status ≠ .failed →
    (∀ pnl, realizedPnL pos placed = some pnl → result = pnl) →
    Step w (.closes a symbol reason)
      { w with service := (w.service.close a symbol reason).1, free := w.free + result }
  | refused {a : CloseAnswers} {symbol : String} {reason : CloseReason} :
    a.before.startOfDay = day.startOfDay →
    (∀ pos placed, (w.service.admitClose a symbol).2 = .ok pos →
      a.place (closeOrder symbol pos a.clientID) = .ok placed → placed.status = .failed) →
    Step w (.closes a symbol reason) { w with service := (w.service.close a symbol reason).1 }
  | locks {amount : D} :
    Step w (.locks amount) { w with free := w.free - amount, locked := w.locked + amount }
  | untold {result : D} : Step w (.untold result) { w with free := w.free + result }

/-- Every result is recorded: the answer to a close is not lost, and what it is recorded with fits
64 bits. -/
def Recorded : DayAction ι → Prop
  | .closes a symbol _ => ∀ pos placed, (w.service.admitClose a symbol).2 = .ok pos →
    a.place (closeOrder symbol pos a.clientID) = .ok placed → placed.status ≠ .failed →
    (Fixed.mul pos.entryPrice pos.size).isSome ∧ (realizedPnL pos placed).isSome
  | .untold result => result = 0
  | _ => True

/-- Nothing is made or lost but what the day has lost, and the balance last read lacks what was locked
and lost then. -/
structure Conserved (start : D) : Prop where
  total : w.free + w.locked + w.service.loss day = start
  read : ∀ b, w.service.balance = some b → b + w.readLocked + w.readLoss = start

variable {w day} {w' : DayState ι} {act : DayAction ι} {start : D}

theorem Morning.conserved (h : w.Morning day) : w.Conserved day w.total where
  total := by
    rw [h.1]
    exact Int64.add_zero _
  read := h.2

/-- A balance that was read during an operation is the free one. -/
theorem Conserved.after {s : Service ι} (h : w.Conserved day start)
    (hs : s.loss day = w.service.loss day)
    (hbalance : ∀ b, s.balance = some b → s.balance = w.service.balance ∨ b = w.free) :
    (w.after day s).Conserved day start where
  total := by
    change w.free + w.locked + s.loss day = start
    rw [hs]
    exact h.total
  read b hb := by
    change b + (if s.balance = w.service.balance then w.readLocked else w.locked) +
      (if s.balance = w.service.balance then w.readLoss else w.service.loss day) = start
    change s.balance = some b at hb
    by_cases hsame : s.balance = w.service.balance
    · rw [if_pos hsame, if_pos hsame]
      exact h.read b (hsame.symm.trans hb)
    · rw [if_neg hsame, if_neg hsame, (hbalance b hb).resolve_left hsame]
      exact h.total

/-- The balance an order goes by is the one last read, or the free one. -/
theorem orderBalance_cases {a : OpenAnswers} (hfree : ∀ b, a.balance = .ok b → b = w.free) {b : D}
    (hb : w.service.orderBalance a.balance = some b) :
    w.service.balance = some b ∨ w.service.balance = none ∧ b = w.free := by
  unfold Service.orderBalance at hb
  split at hb
  · next known hknown => exact .inl (hknown.trans hb)
  · next read hnone hread => exact .inr ⟨hnone, (Option.some.inj hb).symm.trans (hfree _ hread)⟩
  · cases hb

theorem read_cases {a : OpenAnswers} (hfree : ∀ b, a.balance = .ok b → b = w.free)
    {known : Option D} {b : D}
    (hknown : known = w.service.balance ∨ known = w.service.orderBalance a.balance)
    (hb : known = some b) : known = w.service.balance ∨ b = w.free := by
  rcases hknown with hsame | hread
  · exact .inl hsame
  · rcases orderBalance_cases hfree (hread.symm.trans hb) with hold | ⟨-, hnew⟩
    · exact .inl (hb.trans hold.symm)
    · exact .inr hnew

theorem Conserved.step (h : w.Conserved day start) (hok : w.Recorded act) (hs : w.Step day act w') :
    w'.Conserved day start := by
  cases hs with
  | @read now c exits hnow hc =>
    have hrefresh := Service.refreshLimits_undisturbed w.free hc hnow
    refine ⟨?_, fun b hb => ?_⟩
    · exact (congrArg (w.free + w.locked + ·) hrefresh.loss).trans h.total
    · have hread : ((w.service.under c).refreshLimits now w.free).balance = some w.free := rfl
      obtain rfl := Option.some.inj (hread.symm.trans hb)
      exact h.total
  | @opens a c tag req hbefore hafter hc hfree _ =>
    refine h.after (Service.openPosition_undisturbed hc hbefore hafter).loss fun b hb => ?_
    rw [Service.openPosition_balance] at hb ⊢
    exact read_cases hfree Service.admitOpen_balance hb
  | @panics a c tag req hbefore hc hfree _ =>
    refine h.after (Service.refreshLimitsForOrder_undisturbed hc hbefore).loss fun b hb => ?_
    exact read_cases hfree Service.refreshLimitsForOrder_balance hb
  | @closes a symbol reason pos placed result hbefore hafter hgate hplace htaken hresult =>
    obtain ⟨hnotional, hpnl⟩ := hok pos placed hgate hplace htaken
    obtain ⟨notional, hnotional⟩ := Option.isSome_iff_exists.mp hnotional
    obtain ⟨pnl, hpnl⟩ := Option.isSome_iff_exists.mp hpnl
    obtain ⟨-, -, hbalance, hloss⟩ := Service.close_recorded reason hbefore hafter hgate
      hplace htaken hnotional hpnl
    obtain rfl := hresult pnl hpnl
    refine ⟨?_, fun b hb => ?_⟩
    · dsimp only
      rw [hloss, ← h.total]
      grind
    · exact h.read b (hbalance.symm.trans hb)
  | @refused a symbol reason hbefore huntaken =>
    obtain ⟨hsame, hbalance⟩ := Service.close_untaken reason hbefore huntaken
    refine ⟨?_, fun b hb => h.read b (hbalance.symm.trans hb)⟩
    exact (congrArg (w.free + w.locked + ·) hsame.loss).trans h.total
  | locks =>
    refine ⟨?_, h.read⟩
    rw [← h.total]
    dsimp only
    grind
  | @untold result =>
    obtain rfl : result = 0 := hok
    refine ⟨?_, h.read⟩
    rw [← h.total]
    dsimp only
    grind

/-! ## The limits an order is judged by -/

variable (w day) in
/-- What was locked when the balance an opening order goes by was read is what has been lost since: a
balance it reads itself lacks what is locked now. -/
def Even : Prop :=
  match w.service.balance with
  | none => w.locked = 0
  | some _ => w.readLocked = w.service.loss day - w.readLoss

variable (w day) in
/-- The limits of an opening order can be computed anew: the balance it goes by is known or read, the
limits it starts from are coherent, the choice is within the ceiling and its share fits 64 bits. -/
def Refreshes (a : OpenAnswers) (c : Chosen) : Prop :=
  c.base.validate = .ok () ∧ c.tier.validate = .ok () ∧
    ∃ b, w.service.orderBalance a.balance = some b ∧
      (c.tier.budget c.base.dailyLoss (b + w.service.loss day)).isSome

variable (w) in
/-- An opening order that is authorised was judged by limits whose daily loss is the tier's share of
an amount. -/
def Budgeted (a : OpenAnswers) (c : Chosen) (req : OpenRequest) (amount : D) : Prop :=
  ∀ checked, ((w.service.under c).admitOpen a req).2 = .ok checked →
    ∃ l, ((w.service.under c).admitOpen a req).1.engine.limits w.service.account = some l ∧
      c.tier.budget c.base.dailyLoss amount = some l.dailyLoss

/-- The balance at the start of the day is put together right exactly when the two are even. -/
theorem Conserved.start_iff {a : OpenAnswers} (h : w.Conserved day start)
    (hfree : ∀ b, a.balance = .ok b → b = w.free) {b : D}
    (hb : w.service.orderBalance a.balance = some b) :
    b + w.service.loss day = start ↔ w.Even day := by
  have htotal := h.total
  rcases orderBalance_cases hfree hb with hknown | ⟨hnone, rfl⟩
  · have hread := h.read b hknown
    unfold Even
    rw [hknown]
    dsimp only
    grind
  · unfold Even
    rw [hnone]
    dsimp only
    grind

/-- The limits installed for an order are those of the amount put together for it. -/
theorem budgeted {a : OpenAnswers} {c : Chosen} {req : OpenRequest} {b : D} {l : Limits}
    (hnow : a.before.startOfDay = day.startOfDay) (hloss : 0 ≤ w.service.loss day)
    (hb : w.service.orderBalance a.balance = some b)
    (hcompute : c.compute b (w.service.loss day) = some l) (hvalid : l.validate = .ok ()) :
    w.Budgeted a c req (b + w.service.loss day) := by
  intro checked hgate
  obtain ⟨haccount, hlimits⟩ := Service.admitOpen_judged hgate
  have hrefresh : (w.service.under c).refreshLimitsForOrder a.before a.balance =
      (w.service.under c).refreshLimits a.before b := by
    rw [Service.refreshLimitsForOrder_under, hb]
  rw [hrefresh] at haccount hlimits
  rw [← Service.snapshot_dailyLoss hnow hloss] at hcompute
  refine ⟨l, ?_, ?_⟩
  · rw [hlimits]
    exact Service.refreshLimits_limits haccount hcompute hvalid
  · rw [← Service.snapshot_dailyLoss hnow hloss]
    exact (Chosen.compute_eq_some hcompute).2.2

end DayState

/-- On a day whose results are all recorded, an opening order that is authorised is judged by the
tier's share of what the account had at the start of the day, where its limits are computed anew from a
balance read while as much was locked as has been lost since. -/
theorem daily_budget {day : Time} {w₀ w : DayState ι} {acts : List (DayAction ι)} {a : OpenAnswers}
    {c : Chosen} {req : OpenRequest} (h₀ : w₀.Morning day)
    (hrun : Run (DayState.Step day) DayState.Recorded w₀ acts w)
    (hnow : a.before.startOfDay = day.startOfDay) (hfree : ∀ b, a.balance = .ok b → b = w.free)
    (hloss : 0 ≤ w.service.loss day) (hrefresh : w.Refreshes day a c) (heven : w.Even day) :
    w.Budgeted a c req w₀.total := by
  have h : w.Conserved day w₀.total :=
    hrun.invariant (I := (DayState.Conserved · day w₀.total)) h₀.conserved
      fun _ _ _ hv hok hs => hv.step hok hs
  obtain ⟨hbase, htier, b, hb, hfits⟩ := hrefresh
  obtain ⟨l, hcompute⟩ := Option.isSome_iff_exists.mp (Chosen.compute_isSome.mpr hfits)
  rw [← (h.start_iff hfree hb).mpr heven]
  exact DayState.budgeted hnow hloss hb hcompute (Chosen.compute_valid hbase htier hcompute)

/-! ## A read between two orders -/

/-- The limits of the safe tier, however much is open. -/
def everyday : Chosen := ⟨{ oneAtATime with maxTotalExposure := 0 }, safeTier, 0⟩

/-- An account with a thousand that has opened nothing. -/
def untouched : DayState Unit := ⟨started, Fixed.fromInt 1000, 0, 0, 0⟩

/-- The account after its state was read. -/
def lookedAt : DayState Unit :=
  { untouched with service := (started.under everyday).refreshLimits 0 (Fixed.fromInt 1000) }

/-- A tap that fills, and reads nothing. -/
def tapping : OpenAnswers := { answering filled with balance := .error .disconnected }

/-- The same once the cooldown is over. -/
def later : OpenAnswers := { tapping with before := 11 * Duration.second.toInt }

/-- The account after a tap that filled, sixty of it locked. -/
def invested : DayState Unit :=
  { lookedAt.after 0 ((lookedAt.service.under everyday).openPosition tapping () tap).1 with
    free := Fixed.fromInt 1000 - Fixed.fromInt 60
    locked := 0 + Fixed.fromInt 60 }

theorem untouched_morning : untouched.Morning 0 := ⟨by decide, by rintro b ⟨⟩⟩

/-- A look, a tap that fills and the collateral it locks. -/
theorem run_invested : Run (DayState.Step 0) DayState.Recorded untouched
    [.read 0 everyday, .opens tapping everyday () tap, .locks (Fixed.fromInt 60)] invested := by
  have hread : DayState.Step 0 untouched (.read 0 everyday) lookedAt := .read rfl rfl
  have hcalm : ¬ lookedAt.LimitsPanic tapping everyday tap := by
    rintro ⟨checked, b, -, hb, hpanics⟩
    obtain rfl : Fixed.fromInt 1000 = b := Option.some.inj hb
    cases hpanics
  have hopen : DayState.Step 0 lookedAt (.opens tapping everyday () tap)
      (lookedAt.after 0 ((lookedAt.service.under everyday).openPosition tapping () tap).1) :=
    .opens rfl rfl rfl (by rintro b ⟨⟩) hcalm
  exact ((Run.nil.snoc trivial hread).snoc trivial hopen).snoc trivial .locks

theorem invested_loss : invested.service.loss 0 = 0 := by rfl

theorem later_admitted : ((invested.service.under everyday).admitOpen later tap).2 = .ok checkedTap :=
  Service.admitOpen_granted rfl (by decide +kernel)

/-- A tap after a look in the morning: the balance last read had nothing locked. -/
theorem daily_budget_later :
    ((invested.service.under everyday).admitOpen later tap).2 = .ok checkedTap ∧
    invested.Budgeted later everyday tap untouched.total := by
  have hfits : (everyday.tier.budget everyday.base.dailyLoss
      (Fixed.fromInt 1000 + invested.service.loss 0)).isSome := by
    rw [invested_loss]
    decide
  have heven : invested.Even 0 := by rfl
  have hloss : 0 ≤ invested.service.loss 0 := by
    rw [invested_loss]
    decide
  refine ⟨later_admitted, ?_⟩
  exact daily_budget untouched_morning run_invested rfl (by rintro b ⟨⟩) hloss
    ⟨rfl, rfl, Fixed.fromInt 1000, rfl, hfits⟩ heven

/-- The same account after another look. -/
def lookedAgain : DayState Unit :=
  { invested with
    service := (invested.service.under everyday).refreshLimits 0 (Fixed.fromInt 940)
    readLocked := Fixed.fromInt 60
    readLoss := 0 }

/-- A tap after a second look, at what is free with sixty locked, is judged by a share of the rest. -/
theorem free_share : ∃ w acts, Run (DayState.Step 0) DayState.Recorded untouched acts w ∧
    untouched.Morning 0 ∧ ¬ w.Budgeted later everyday tap untouched.total := by
  have hread : DayState.Step 0 invested (.read 0 everyday) lookedAgain := .read rfl rfl
  have hrecorded : invested.Recorded (.read 0 everyday) := trivial
  have hgranted : ((lookedAgain.service.under everyday).admitOpen later tap).2 = .ok checkedTap :=
    Service.admitOpen_granted rfl (by decide +kernel)
  have hless : ((((lookedAgain.service.under everyday).admitOpen later tap).1.engine.limits
      "0xa").map Policy.Limits.dailyLoss) = some (Fixed.fromInt 188) := by decide +kernel
  have hbudget : everyday.tier.budget everyday.base.dailyLoss untouched.total =
      some (Fixed.fromInt 200) := by decide +kernel
  refine ⟨lookedAgain, _, run_invested.snoc hrecorded hread, untouched_morning, fun h => ?_⟩
  obtain ⟨l, hlimits, hshare⟩ := h checkedTap hgranted
  have haccount : lookedAgain.service.account = "0xa" := rfl
  rw [haccount] at hlimits
  rw [hlimits] at hless
  rw [hbudget] at hshare
  have hsame : Fixed.fromInt 200 = Fixed.fromInt 188 :=
    (Option.some.inj hshare).trans (Option.some.inj hless)
  exact absurd hsame (by decide)

end SuperAgent.Platform
