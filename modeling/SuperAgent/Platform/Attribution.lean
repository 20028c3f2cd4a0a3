import SuperAgent.Platform.Ledger

/-!
# Who a trade belongs to

A close is looked up in the journal under the strategy memory has, and under the
default one when memory was lost. As long as a position that outlives its
process was taken under the default strategy, every close completes the row its
open wrote, and restarts leave no trace in the journal.
-/

namespace SuperAgent.Platform

open Fixed (D)

variable {w t u : Trading} {j : Journal} {r : TradeRow} {o : Opening} {act : TradingAction}
  {symbol strategy orderID : String} {pnl : D} {f : Fill} {terms : Terms} {reason : CloseReason}
  {run : Option (Excursion Unit)} {noted now : Time}

/-- The open row an opening wrote, the newest of its strategy in its market. -/
structure Journal.RowOf (j : Journal) (wallet symbol : String) (o : Opening) (r : TradeRow) :
    Prop where
  mem : r ∈ j.openRows wallet symbol
  strategy : r.strategy = o.strategy
  orderID : r.openOrderID = o.orderID
  openedAt : r.openedAt = o.openedAt
  newest : ∀ q ∈ j.openRows wallet symbol, q.strategy = o.strategy → q ≠ r →
    q.openedAt < r.openedAt

theorem ne_of_known (h : known strategy) : strategy ≠ "" := by
  rintro rfl
  exact absurd h (by decide)

namespace Journal

/-- Under its own strategy an opening's row is the one that is found. -/
theorem RowOf.found {wallet : String} (h : j.RowOf wallet symbol o r) (hne : o.strategy ≠ "") :
    j.newestOpen wallet symbol o.strategy = some r :=
  newestOpen_of_newest h.mem (.inr h.strategy) fun q hq hs =>
    h.newest q hq (hs.resolve_left hne)

/-- An opening's row stays in place when its market's open rows do. -/
theorem RowOf.of_openRows {j' : Journal} {wallet : String} (h : j.RowOf wallet symbol o r)
    (hrows : j'.openRows wallet symbol = j.openRows wallet symbol) :
    j'.RowOf wallet symbol o r :=
  ⟨hrows ▸ h.mem, h.strategy, h.orderID, h.openedAt, hrows ▸ h.newest⟩

/-- An order with a fresh id, later than its strategy's open rows, writes a row of its own. -/
theorem rowOf_opened {wallet : String} (hfresh : j.taken wallet orderID = false)
    (hlater : ∀ q ∈ j.openRows wallet symbol, q.strategy = strategy →
      q.openedAt < now.micros) :
    (j.tradeOpened wallet strategy symbol orderID f terms now).RowOf wallet symbol
      ⟨strategy, orderID, now.micros⟩
      (j.openedRow wallet strategy symbol orderID f terms now) := by
  have hrows : (j.tradeOpened wallet strategy symbol orderID f terms now).openRows wallet symbol =
      j.openRows wallet symbol ++ [j.openedRow wallet strategy symbol orderID f terms now] := by
    rw [openRows_tradeOpened_fresh hfresh]
    exact if_pos ⟨rfl, rfl⟩
  constructor
  · rw [hrows]
    exact List.mem_append_right _ (List.mem_singleton_self _)
  · rfl
  · rfl
  · rfl
  · intro q hq hs hne
    rw [hrows, List.mem_append, List.mem_singleton] at hq
    exact hlater q (hq.resolve_right hne) hs

end Journal

/-- Whether an action is an open or a close. -/
def TradingAction.isTold : TradingAction → Bool
  | .told _ _ _ => true
  | .restarted => false

namespace Trading

/-! ## Conditions -/

/-- The order inserts a row of its own, and no open row of its strategy and market is as new. -/
def Inserts (w : Trading) (strategy symbol orderID : String) (now : Time) : Prop :=
  ∃ j, w.ledger.journal = some j ∧ j.taken w.wallet orderID = false ∧
    ∀ r ∈ j.openRows w.wallet symbol, r.strategy = strategy → r.openedAt < now.micros

/-- Memory has the position that is closed, or it was taken under the default strategy. -/
def Remembers (w : Trading) (symbol : String) : Prop :=
  w.ledger.openFor w.account symbol = none →
    ∀ o, w.held symbol = some o → o.strategy = defaultStrategy

/-- Every order writes a row of its own. -/
def Written (w : Trading) : TradingAction → Prop
  | .told (.opened strategy symbol orderID _ _) _ now => w.Inserts strategy symbol orderID now
  | _ => True

/-- Every order writes a row of its own, and every close is of a position memory has or of one
taken under the default strategy. -/
def Attributed (w : Trading) (act : TradingAction) : Prop :=
  w.Written act ∧ match act with
    | .told (.closed symbol _ _ _ _ _) _ _ => w.Remembers symbol
    | _ => True

/-- A new process on a flat wallet. -/
structure Started (w : Trading) : Prop where
  journal : ∃ j, w.ledger.journal = some j ∧ j.Numbered
  opened : w.ledger.opened = ∅
  held : ∀ symbol, w.held symbol = none

/-- The same wallet, holding the same positions, with the same journal and the same reports. -/
structure SameRecord (w w' : Trading) : Prop where
  account : w'.account = w.account
  wallet : w'.wallet = w.wallet
  journal : w'.ledger.journal = w.ledger.journal
  held : w'.held = w.held
  reports : w'.reports = w.reports

/-! ## What holds between steps -/

/-- Every position has its row, and what memory has of a position is right. -/
structure Sound (w : Trading) : Prop where
  journal : ∃ j, w.ledger.journal = some j ∧ j.Numbered ∧ ∀ symbol o, w.held symbol = some o →
    known o.strategy ∧ ∃ r, j.RowOf w.wallet symbol o r
  remembered : ∀ symbol m, w.ledger.openFor w.account symbol = some m →
    ∃ o, w.held symbol = some o ∧ m.strategy = o.strategy

theorem Started.sound (h : w.Started) : w.Sound where
  journal := by
    obtain ⟨j, hj, hnum⟩ := h.journal
    refine ⟨j, hj, hnum, fun symbol o ho => ?_⟩
    rw [h.held] at ho
    cases ho
  remembered symbol m hm := by
    rw [Ledger.openFor, h.opened, AList.lookup_empty] at hm
    cases hm

/-- A close of a held position is looked up under the position's strategy exactly when memory has
it or the strategy is the default one. -/
theorem Sound.closesUnder_iff (h : w.Sound) (ho : w.held symbol = some o) :
    w.ledger.closesUnder w.account symbol = o.strategy ↔ w.Remembers symbol := by
  unfold Ledger.closesUnder Remembers
  cases hm : w.ledger.openFor w.account symbol with
  | none =>
    simp only [Option.map_none, Option.getD_none, ho, Option.some.injEq, forall_eq', true_implies]
    exact eq_comm
  | some m =>
    obtain ⟨o', ho', hs⟩ := h.remembered symbol m hm
    obtain rfl : o = o' := Option.some.inj (ho.symm.trans ho')
    simpa using hs

/-- What a close that is looked up under the position's strategy does to the record. -/
theorem Sound.closed (h : w.Sound) (ho : w.held symbol = some o) (hok : w.Remembers symbol)
    (hs : w.Step (.told (.closed symbol pnl orderID f reason run) noted now) u) :
    ∃ j r, w.ledger.journal = some j ∧ j.RowOf w.wallet symbol o r ∧
      u = { w with
        ledger := ⟨some (j.complete r.id (Journal.exitOf orderID f pnl reason run now)),
          w.ledger.opened.erase (tradeKey w.account symbol),
          w.ledger.closed ++ [Ledger.report r w.wallet symbol pnl orderID f reason now]⟩
        held := Function.update w.held symbol none
        reports := w.reports ++ [Ledger.report r w.wallet symbol pnl orderID f reason now] } := by
  obtain ⟨j, hj, -, hrows⟩ := h.journal
  obtain ⟨hknown, r, hr⟩ := hrows symbol o ho
  have hunder : w.ledger.closesUnder w.account symbol = o.strategy := (h.closesUnder_iff ho).mpr hok
  have hfound : j.newestOpen w.wallet symbol (w.ledger.closesUnder w.account symbol) = some r := by
    rw [hunder]
    exact hr.found (ne_of_known hknown)
  refine ⟨j, r, hj, hr, ?_⟩
  simp only [Step, next, ho, Option.map_some, Option.some.injEq] at hs
  rw [← hs, Ledger.noteClosed_of_newest hj hfound]

/-- Opening keeps the record sound. -/
theorem Sound.opened (h : w.Sound) (hknown : known strategy)
    (hok : w.Inserts strategy symbol orderID now) :
    Sound { w with
      ledger := w.ledger.noteOpened w.account w.wallet strategy symbol orderID f terms noted now
      held := Function.update w.held symbol (some ⟨strategy, orderID, now.micros⟩) } := by
  obtain ⟨j, hj, hfresh, hlater⟩ := hok
  constructor
  · obtain ⟨j', hj', hnum, hrows⟩ := h.journal
    obtain rfl : j = j' := Option.some.inj (hj.symm.trans hj')
    refine ⟨j.tradeOpened w.wallet strategy symbol orderID f terms now, ?_, hnum.tradeOpened, ?_⟩
    · simp only [Ledger.noteOpened, hj, Option.map_some]
    · intro y o ho
      change Function.update w.held symbol _ y = _ at ho
      by_cases hy : y = symbol
      · subst hy
        rw [Function.update_self] at ho
        obtain rfl := Option.some.inj ho
        exact ⟨hknown, _, Journal.rowOf_opened hfresh hlater⟩
      · rw [Function.update_of_ne hy] at ho
        obtain ⟨hk, r, hr⟩ := hrows y o ho
        exact ⟨hk, r, hr.of_openRows (Journal.openRows_tradeOpened_ne hy)⟩
  · intro y m hm
    change (w.ledger.noteOpened _ _ _ _ _ _ _ _ _).openFor w.account y = _ at hm
    change ∃ o, Function.update w.held symbol _ y = _ ∧ _
    rw [Ledger.openFor_noteOpened] at hm
    by_cases hy : y = symbol
    · rw [if_pos hy] at hm
      rw [hy, Function.update_self]
      exact ⟨_, rfl, by rw [← Option.some.inj hm]⟩
    · rw [if_neg hy] at hm
      rw [Function.update_of_ne hy]
      exact h.remembered y m hm

/-- An attributed step keeps the record sound. -/
theorem Sound.step (h : w.Sound) (hok : w.Attributed act) (hs : w.Step act u) : u.Sound := by
  obtain ⟨hwritten, hok⟩ := hok
  match act with
  | .told (.opened strategy symbol orderID f terms) noted now =>
    simp only [Step, next, Option.ite_none_right_eq_some, Option.some.injEq] at hs
    obtain ⟨hknown, rfl⟩ := hs
    exact h.opened hknown hwritten
  | .told (.closed symbol pnl orderID f reason run) noted now =>
    obtain ⟨o, ho, -⟩ := Option.map_eq_some_iff.mp hs
    obtain ⟨j, r, hj, hr, rfl⟩ := h.closed ho hok hs
    obtain ⟨j', hj', hnum, hrows⟩ := h.journal
    obtain rfl : j = j' := Option.some.inj (hj.symm.trans hj')
    constructor
    · refine ⟨_, rfl, hnum.complete, fun y o' ho' => ?_⟩
      change Function.update w.held symbol none y = _ at ho'
      by_cases hy : y = symbol
      · rw [hy, Function.update_self] at ho'
        cases ho'
      · rw [Function.update_of_ne hy] at ho'
        obtain ⟨hk, q, hq⟩ := hrows y o' ho'
        exact ⟨hk, q, hq.of_openRows (Journal.openRows_complete_ne hnum hr.mem hy)⟩
    · intro y m hm
      change (w.ledger.opened.erase (tradeKey w.account symbol)).lookup _ = _ at hm
      change ∃ o, Function.update w.held symbol none y = _ ∧ _
      by_cases hy : y = symbol
      · rw [hy, AList.lookup_erase] at hm
        cases hm
      · rw [AList.lookup_erase_ne fun heq => hy (tradeKey_inj.mp heq)] at hm
        rw [Function.update_of_ne hy]
        exact h.remembered y m hm
  | .restarted =>
    obtain rfl := Option.some.inj hs
    refine ⟨h.journal, fun y m hm => ?_⟩
    change (∅ : AList fun _ : String => OpenTrade).lookup _ = _ at hm
    rw [AList.lookup_empty] at hm
    cases hm

/-! ## The run without restarts -/

/-- Memory has every position that is held. -/
def Whole (w : Trading) : Prop := ∀ symbol, w.held symbol ≠ none →
  w.ledger.openFor w.account symbol ≠ none

theorem SameRecord.refl (w : Trading) : w.SameRecord w := ⟨rfl, rfl, rfl, rfl, rfl⟩

theorem Started.whole (h : w.Started) : w.Whole := fun symbol hne => absurd (h.held symbol) hne

/-- A wallet whose memory is whole is told what the other is, and keeps the same record. -/
theorem SameRecord.step {w' : Trading} (h : w.SameRecord w') (hw : w.Sound) (hw' : w'.Sound)
    (hwhole : w'.Whole) (hok : w.Attributed act) (hkept : act.isTold) (hs : w.Step act u) :
    ∃ u', w'.Attributed act ∧ w'.Step act u' ∧ u.SameRecord u' ∧ u'.Whole := by
  match act with
  | .told (.opened strategy symbol orderID f terms) noted now =>
    obtain ⟨⟨j, hj, hfresh, hlater⟩, -⟩ := hok
    simp only [Step, next, Option.ite_none_right_eq_some, Option.some.injEq] at hs
    obtain ⟨hknown, rfl⟩ := hs
    refine ⟨_, ⟨⟨j, h.journal.trans hj, ?_, ?_⟩, trivial⟩, if_pos hknown, ?_, ?_⟩
    · rw [h.wallet]
      exact hfresh
    · rw [h.wallet]
      exact hlater
    · refine ⟨h.account, h.wallet, ?_, ?_, h.reports⟩
      · simp only [Ledger.noteOpened, h.journal, h.wallet]
      · simp only [h.held]
    · intro y hne
      change Function.update w'.held symbol _ y ≠ none at hne
      change (w'.ledger.noteOpened _ _ _ _ _ _ _ _ _).openFor w'.account y ≠ none
      rw [Ledger.openFor_noteOpened]
      by_cases hy : y = symbol
      · rw [if_pos hy]
        exact Option.some_ne_none _
      · rw [if_neg hy]
        rw [Function.update_of_ne hy] at hne
        exact hwhole y hne
  | .told (.closed symbol pnl orderID f reason run) noted now =>
    obtain ⟨-, hok⟩ := hok
    obtain ⟨o, ho, -⟩ := Option.map_eq_some_iff.mp hs
    have ho' : w'.held symbol = some o := h.held ▸ ho
    have hremembers : w'.Remembers symbol := fun hnone =>
      absurd hnone (hwhole symbol (by rw [ho']; exact Option.some_ne_none o))
    obtain ⟨v, hs'⟩ : ∃ v, w'.Step (.told (.closed symbol pnl orderID f reason run) noted now) v :=
      ⟨_, Option.map_eq_some_iff.mpr ⟨o, ho', rfl⟩⟩
    obtain ⟨j, r, hj, hr, rfl⟩ := hw.closed ho hok hs
    obtain ⟨j', r', hj', hr', rfl⟩ := hw'.closed ho' hremembers hs'
    refine ⟨_, ⟨trivial, hremembers⟩, hs', ?_, ?_⟩
    · -- both closes find the newest row of the same strategy in the same journal
      obtain rfl : j = j' := Option.some.inj (hj.symm.trans (h.journal.symm.trans hj'))
      obtain ⟨jw, hjw, -, hrows⟩ := hw.journal
      have hne := ne_of_known (hrows symbol o ho).1
      have heq : r = r' := by
        rw [h.wallet] at hr'
        exact Option.some.inj ((hr.found hne).symm.trans (hr'.found hne))
      subst heq
      refine ⟨h.account, h.wallet, rfl, ?_, ?_⟩
      · simp only [h.held]
      · simp only [h.reports, h.wallet]
    · intro y hne
      change Function.update w'.held symbol none y ≠ none at hne
      change (w'.ledger.opened.erase (tradeKey w'.account symbol)).lookup _ ≠ none
      by_cases hy : y = symbol
      · rw [hy, Function.update_self] at hne
        exact absurd rfl hne
      · rw [Function.update_of_ne hy] at hne
        rw [AList.lookup_erase_ne fun heq => hy (tradeKey_inj.mp heq)]
        exact hwhole y hne
  | .restarted => cases hkept

/-- A restart leaves the record as it is. -/
theorem SameRecord.restarted {w' : Trading} (h : w.SameRecord w') (hs : w.Step .restarted u) :
    u.SameRecord w' := by
  obtain rfl := Option.some.inj hs
  exact ⟨h.account, h.wallet, h.journal, h.held, h.reports⟩

end Trading

/-! ## A restart between an open and its close -/

/-- A position of one unit. -/
def unitFill : Fill := ⟨.long, Fixed.scale, Fixed.scale, 0, 0⟩

/-- The order that closes. -/
def closesAt (orderID : String) (now : Time) : TradingAction :=
  .told (.closed "BTC" 5 orderID unitFill .manual none) now now

end SuperAgent.Platform
