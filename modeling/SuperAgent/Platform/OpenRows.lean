import SuperAgent.Platform.Attribution
import SuperAgent.Platform.Persisted

/-!
# The journal's open rows and the venue's positions

Within one process the open rows of a wallet mirror what the venue holds as long
as every position is written once: an order on a flat market brings an order id
of its own, and an order that adds to a position repeats the position's.
-/

namespace SuperAgent.Platform

open Fixed (D)
open Venue (Side Order Position)

variable {ι : Type}

/-! ## What a service tells the ledger -/

section Tells

variable {s : Service ι} {tag : ι} {placed : Order} {symbol : String} {reason : CloseReason}

/-- The strategy of a checked request is in the catalog. -/
theorem OpenRequest.check_known {req r : OpenRequest} (h : req.check = .ok r) :
    known r.strategy := by
  simp only [check, bind_eq_ok, revertIf_eq_ok] at h
  obtain ⟨_, _, _, _, _, _, _, _, _, _, _, _, _, _, _, hknown, _, _, hreq⟩ := h
  have hstrategy : r.strategy = if req.strategy = "" then defaultStrategy else req.strategy := by
    rw [← Except.ok.inj hreq]
  rw [hstrategy]
  exact not_not.mp hknown

/-- Asking the engine tells the ledger nothing. -/
theorem Service.admitOpen_ledger {a : OpenAnswers} {req : OpenRequest} :
    (s.admitOpen a req).1.ledger = s.ledger ∧
      (s.admitOpen a req).1.keepsLedger = s.keepsLedger := by
  have hlimits : ∀ balance, (s.refreshLimits a.before balance).ledger = s.ledger ∧
      (s.refreshLimits a.before balance).keepsLedger = s.keepsLedger := by
    intro balance
    unfold refreshLimits
    split <;> exact ⟨rfl, rfl⟩
  have hrefreshed : (s.refreshLimitsForOrder a.before a.balance).ledger = s.ledger ∧
      (s.refreshLimitsForOrder a.before a.balance).keepsLedger = s.keepsLedger := by
    unfold refreshLimitsForOrder
    split
    · exact ⟨rfl, rfl⟩
    · split
      · exact hlimits _
      · exact hlimits _
      · exact ⟨rfl, rfl⟩
  unfold admitOpen
  split
  · exact ⟨rfl, rfl⟩
  · dsimp only
    split <;> exact hrefreshed

theorem Service.admitClose_ledger {a : CloseAnswers} :
    (s.admitClose a symbol).1.ledger = s.ledger ∧
      (s.admitClose a symbol).1.keepsLedger = s.keepsLedger := by
  unfold admitClose
  dsimp only
  split
  · exact ⟨rfl, rfl⟩
  · split
    · exact ⟨rfl, rfl⟩
    · split <;> exact ⟨rfl, rfl⟩

/-- What an order that settles is told as. -/
theorem Service.settleOpen_tells {a : OpenAnswers} {r : OpenRequest} {took : Order}
    (hkeeps : s.keepsLedger = true) (h : (s.settleOpen a tag r took).2 = .done (.ok placed)) :
    took = placed ∧ ∃ f terms, (s.settleOpen a tag r took).1.ledger =
      s.ledger ++ [.opened r.strategy r.symbol placed.venueID f terms] := by
  unfold settleOpen at h ⊢
  split at h
  · cases h
  · rw [if_pos hkeeps] at h
    simp only [if_pos hkeeps]
    split at h
    · cases h
    · obtain rfl : took = placed := Except.ok.inj (Outcome.done.inj h)
      exact ⟨rfl, _, _, rfl⟩

/-- An order the venue took is told under its strategy and its market, with the venue's order
id. -/
theorem Service.openPosition_tells {a : OpenAnswers} {req : OpenRequest}
    (hkeeps : s.keepsLedger = true) (h : (s.openPosition a tag req).2 = .done (.ok placed))
    (hplaced : placed.status ≠ .failed) : ∃ r f terms, req.check = .ok r ∧ known r.strategy ∧
      (s.openPosition a tag req).1.ledger =
        s.ledger ++ [.opened r.strategy r.symbol placed.venueID f terms] := by
  obtain ⟨hledger, hkeeps'⟩ : (s.admitOpen a req).1.ledger = s.ledger ∧ _ := admitOpen_ledger
  cases hadm : (s.admitOpen a req).2 with
  | error e =>
    simp only [openPosition, hadm] at h
    cases h
  | ok r =>
    have hcheck := admitOpen_checked hadm
    cases hplace : a.place (r.order a.clientID) with
    | error e =>
      simp only [openPosition, hadm, hplace] at h
      cases h
    | ok took =>
      simp only [openPosition, hadm, hplace] at h ⊢
      split at h
      · next hfailed =>
        obtain rfl : took = placed := Except.ok.inj (Outcome.done.inj h)
        exact absurd hfailed hplaced
      · next hgood =>
        obtain ⟨rfl, f, terms, htold⟩ := settleOpen_tells (hkeeps'.trans hkeeps) h
        rw [if_neg hgood, htold, hledger]
        exact ⟨r, f, terms, hcheck, OpenRequest.check_known hcheck, rfl⟩

/-- What a close that settles is told as. -/
theorem Service.settleClose_tells {a : CloseAnswers} {pos : Position} {took : Order}
    (hkeeps : s.keepsLedger = true)
    (h : (s.settleClose a symbol reason pos took).2 = .done (.ok placed)) :
    took = placed ∧ ∃ pnl f run, (s.settleClose a symbol reason pos took).1.ledger =
      s.ledger ++ [.closed symbol pnl placed.venueID f reason run] := by
  unfold settleClose at h ⊢
  split at h
  · next notional pnl _ _ =>
    obtain rfl : took = placed := Except.ok.inj (Outcome.done.inj h)
    exact ⟨rfl, pnl, fillOf pos.side took, (s.exits.takeExcursion symbol).2, if_pos hkeeps⟩
  · cases h

/-- An order that closed a position is told under its market. -/
theorem Service.close_tells {a : CloseAnswers} (hkeeps : s.keepsLedger = true)
    (h : (s.close a symbol reason).2 = .done (.ok placed)) (hplaced : placed.status ≠ .failed) :
    ∃ pnl f run, (s.close a symbol reason).1.ledger =
      s.ledger ++ [.closed symbol pnl placed.venueID f reason run] := by
  obtain ⟨hledger, hkeeps'⟩ : (s.admitClose a symbol).1.ledger = s.ledger ∧ _ := admitClose_ledger
  cases hadm : (s.admitClose a symbol).2 with
  | error e =>
    simp only [close, hadm] at h
    cases h
  | ok pos =>
    cases hplace : a.place (closeOrder symbol pos a.clientID) with
    | error e =>
      simp only [close, hadm, hplace] at h
      cases h
    | ok took =>
      simp only [close, hadm, hplace] at h ⊢
      split at h
      · next hfailed =>
        obtain rfl : took = placed := Except.ok.inj (Outcome.done.inj h)
        exact absurd hfailed hplaced
      · next hgood =>
        obtain ⟨rfl, pnl, f, run, htold⟩ := settleClose_tells (hkeeps'.trans hkeeps) h
        rw [if_neg hgood, htold, hledger]
        exact ⟨pnl, f, run, rfl⟩

end Tells

/-! ## Memory -/

namespace Ledger

variable {l : Ledger} {account wallet symbol strategy orderID : String} {f : Fill} {terms : Terms}
  {noted now : Time}

/-- Memory has the positions of one wallet, each under its symbol. -/
def OfWallet (l : Ledger) (account wallet : String) : Prop :=
  ∀ e ∈ l.opened.entries, e.1 = tradeKey account e.2.symbol ∧ e.2.wallet = wallet

theorem OfWallet.noteOpened (h : l.OfWallet account wallet) :
    (l.noteOpened account wallet strategy symbol orderID f terms noted now).OfWallet
      account wallet := by
  intro e he
  simp only [Ledger.noteOpened, AList.entries_insert, List.mem_cons] at he
  rcases he with rfl | he
  · exact ⟨rfl, rfl⟩
  · exact h e ((List.kerase_sublist _ _).subset he)

theorem OfWallet.noteClosed {pnl : D} {reason : CloseReason} {run : Option (Excursion ι)}
    (h : l.OfWallet account wallet) :
    (l.noteClosed account wallet symbol pnl orderID f reason run noted now).1.OfWallet
      account wallet :=
  fun e he => h e ((List.kerase_sublist _ _).subset he)

end Ledger

namespace Trading

variable {w t u : Trading} {j : Journal} {o : Opening} {act : TradingAction} {symbol : String}

/-- An order on a flat market has an order id the wallet has not used; one that adds to a position
repeats a used one, under the position's strategy. -/
def Single (w : Trading) : TradingAction → Prop
  | .told (.opened strategy symbol orderID _ _) _ _ => ∀ j, w.ledger.journal = some j →
      (w.held symbol = none → j.taken w.wallet orderID = false) ∧
      ∀ o, w.held symbol = some o → j.taken w.wallet orderID = true ∧ strategy = o.strategy
  | .told (.closed _ _ _ _ _ _) _ _ => True
  | .restarted => False

/-- A new process on a flat wallet without open rows. -/
structure Clear (w : Trading) : Prop extends w.Started where
  flat : ∀ j, w.ledger.journal = some j → ∀ symbol, j.openRows w.wallet symbol = []

/-- What is on record of a market: nothing when it is flat, and otherwise one open row, under the
strategy memory has. -/
def Recorded (w : Trading) (j : Journal) (symbol : String) : Prop :=
  (w.held symbol = none → j.openRows w.wallet symbol = [] ∧
    w.ledger.openFor w.account symbol = none) ∧
  ∀ o, w.held symbol = some o → known o.strategy ∧
    (∃ r, j.openRows w.wallet symbol = [r] ∧ r.strategy = o.strategy) ∧
    ∃ m, w.ledger.openFor w.account symbol = some m ∧ m.strategy = o.strategy

/-- The record mirrors the venue. -/
structure Mirrored (w : Trading) : Prop where
  journal : ∃ j, w.ledger.journal = some j ∧ j.Numbered ∧ ∀ symbol, w.Recorded j symbol
  ofWallet : w.ledger.OfWallet w.account w.wallet

/-- Orders keep the record of their market. -/
theorem Recorded.opened {strategy orderID : String} {f : Fill} {terms : Terms} {now : Time}
    (h : w.Recorded j symbol)
    (hflat : w.held symbol = none → j.taken w.wallet orderID = false)
    (hheld : ∀ o, w.held symbol = some o → j.taken w.wallet orderID = true ∧
      strategy = o.strategy) :
    ∃ r, (j.tradeOpened w.wallet strategy symbol orderID f terms now).openRows w.wallet symbol =
      [r] ∧ r.strategy = strategy := by
  cases ho : w.held symbol with
  | none =>
    obtain ⟨hrows, -⟩ := h.1 ho
    refine ⟨j.openedRow w.wallet strategy symbol orderID f terms now, ?_, rfl⟩
    rw [Journal.openRows_tradeOpened_fresh (hflat ho), if_pos ⟨rfl, rfl⟩, hrows, List.nil_append]
  | some o =>
    obtain ⟨htaken, hs⟩ := hheld o ho
    obtain ⟨-, ⟨r, hrows, hr⟩, -⟩ := h.2 o ho
    refine ⟨r, ?_, hr.trans hs.symm⟩
    rw [Journal.openRows_tradeOpened_taken htaken, hrows]

/-- A step that writes each position once keeps the record a mirror of the venue. -/
theorem Mirrored.step (h : w.Mirrored) (hok : w.Single act) (hs : w.Step act u) : u.Mirrored := by
  obtain ⟨j, hj, hnum, hrec⟩ := h.journal
  cases act with
  | restarted => exact hok.elim
  | told e noted now =>
    cases e with
    | opened strategy symbol orderID f terms =>
      obtain ⟨hflat, hheld⟩ := hok j hj
      simp only [Step, next, Option.ite_none_right_eq_some, Option.some.injEq] at hs
      obtain ⟨hknown, rfl⟩ := hs
      refine ⟨⟨j.tradeOpened w.wallet strategy symbol orderID f terms now, ?_, hnum.tradeOpened, ?_⟩,
        h.ofWallet.noteOpened⟩
      · simp only [Ledger.noteOpened, hj, Option.map_some]
      · intro y
        unfold Recorded
        dsimp only
        rw [Ledger.openFor_noteOpened]
        by_cases hy : y = symbol
        · subst hy
          obtain ⟨r, hrows, hr⟩ := (hrec y).opened hflat hheld
          rw [Function.update_self, if_pos rfl, hrows]
          refine ⟨fun hnone => absurd hnone (Option.some_ne_none _), ?_⟩
          rintro o ho
          obtain rfl := Option.some.inj ho
          exact ⟨hknown, ⟨r, rfl, hr⟩, _, rfl, rfl⟩
        · rw [Function.update_of_ne hy, if_neg hy, Journal.openRows_tradeOpened_ne hy]
          exact hrec y
    | closed symbol pnl orderID f reason run =>
      obtain ⟨o, ho, -⟩ := Option.map_eq_some_iff.mp hs
      obtain ⟨hknown, ⟨r, hrows, hr⟩, m, hm, hms⟩ := (hrec symbol).2 o ho
      have hunder : w.ledger.closesUnder w.account symbol = o.strategy := by
        rw [Ledger.closesUnder, hm]
        exact hms
      have hmem : r ∈ j.openRows w.wallet symbol := hrows ▸ List.mem_singleton_self r
      have hfound : j.newestOpen w.wallet symbol (w.ledger.closesUnder w.account symbol) = some r :=
        Journal.newestOpen_of_newest hmem (.inr (hr.trans hunder.symm)) fun q hq _ hne =>
          absurd (List.mem_singleton.mp (hrows ▸ hq)) hne
      simp only [Step, next, ho, Option.map_some, Option.some.injEq] at hs
      obtain rfl := hs
      refine ⟨⟨j.complete r.id (Journal.exitOf orderID f pnl reason run now), ?_, hnum.complete, ?_⟩,
        h.ofWallet.noteClosed⟩
      · rw [Ledger.noteClosed_of_newest hj hfound]
      · intro y
        unfold Recorded
        dsimp only
        rw [Ledger.openFor_noteClosed]
        by_cases hy : y = symbol
        · subst hy
          rw [Function.update_self, if_pos rfl, Journal.openRows_complete, hrows]
          refine ⟨fun _ => ⟨?_, rfl⟩, fun _ ho => absurd ho.symm (Option.some_ne_none _)⟩
          exact List.filter_eq_nil_iff.mpr (by simp)
        · rw [Function.update_of_ne hy, if_neg hy, Journal.openRows_complete_ne hnum hmem hy]
          exact hrec y

/-! ## Runs -/

end Trading

/-! ## Two orders on one market -/

end SuperAgent.Platform
