import SuperAgent.Core.Run
import SuperAgent.Platform.Standings

/-!
# What is written twice

A process keeps every round trip in memory and writes it to the journal. As long
as every write succeeds, both have the same open positions and the same closed
round trips, memory in the order they were closed and the journal in the order
they were opened.
-/

namespace SuperAgent.Platform

open Fixed (D)

/-- What a board reads of a closed round trip. -/
structure Completed where
  trip : Traded
  strategy : String
  closedAt : Time

/-- As memory has it. The instant is the column's. -/
def Trade.completed (t : Trade) : Completed := ⟨t.traded, t.strategy, t.closedAt.micros⟩

/-- As the journal has it. -/
def TradeRow.completed (r : TradeRow) : Option Completed := r.exit.map fun e =>
  ⟨⟨r.wallet, e.pnl, r.size, r.entryPrice⟩, r.strategy, e.closedAt⟩

def Journal.completed (j : Journal) : List Completed := j.rows.filterMap TradeRow.completed

/-- What identifies an open position: its wallet, its market and its strategy. -/
def OpenTrade.held (o : OpenTrade) : String × String × String := (o.wallet, o.symbol, o.strategy)

def TradeRow.held (r : TradeRow) : String × String × String := (r.wallet, r.symbol, r.strategy)

/-- An open or a close as a service tells the ledger. -/
structure Telling where
  account : String
  wallet : String
  entry : Entry Unit
  noted : Time
  now : Time

namespace Ledger

/-- A ledger nothing was told yet. -/
def fresh : Ledger := ⟨some ⟨[], 0⟩, ∅, []⟩

/-- The ledger once it is told. -/
def next (l : Ledger) (a : Telling) : Ledger :=
  match a.entry with
  | .opened strategy symbol orderID f terms =>
    l.noteOpened a.account a.wallet strategy symbol orderID f terms a.noted a.now
  | .closed symbol pnl orderID f reason run =>
    (l.noteClosed a.account a.wallet symbol pnl orderID f reason run a.noted a.now).1

/-- One step. -/
abbrev Step (l : Ledger) (a : Telling) (l' : Ledger) : Prop := l.next a = l'

/-- A wallet has no open trade in a market. -/
def Flat (l : Ledger) (wallet symbol : String) : Prop :=
  ∀ e ∈ l.opened.entries, ¬ (e.2.wallet = wallet ∧ e.2.symbol = symbol)

/-- What is remembered under an account's market is the wallet's, in that market. -/
def Owns (l : Ledger) (account wallet symbol : String) : Prop :=
  ∀ o ∈ l.openFor account symbol, o.wallet = wallet ∧ o.symbol = symbol

/-- A wallet in lower case opens a position where it has none, by an order that gets its own row,
or closes the position of its account, and the journal takes the write. -/
def Written (l : Ledger) (a : Telling) : Prop :=
  a.wallet = toLower a.wallet ∧
    match a.entry with
    | .opened _ symbol orderID _ _ => l.Owns a.account a.wallet symbol ∧ l.Flat a.wallet symbol ∧
        ∀ j ∈ l.journal, j.taken a.wallet orderID = false
    | .closed symbol pnl orderID f reason run => l.Owns a.account a.wallet symbol ∧
        (l.openFor a.account symbol = none → l.Flat a.wallet symbol) ∧
        ∀ j ∈ l.journal, (j.tradeClosed a.wallet symbol (l.closesUnder a.account symbol) orderID f pnl
          reason run a.now).2.isSome

instance (l : Ledger) (wallet symbol : String) : Decidable (l.Flat wallet symbol) :=
  inferInstanceAs
    (Decidable (∀ e ∈ l.opened.entries, ¬ (e.2.wallet = wallet ∧ e.2.symbol = symbol)))

instance (l : Ledger) (account wallet symbol : String) : Decidable (l.Owns account wallet symbol) :=
  inferInstanceAs
    (Decidable (∀ o ∈ l.openFor account symbol, o.wallet = wallet ∧ o.symbol = symbol))

instance (l : Ledger) : (a : Telling) → Decidable (l.Written a)
  | ⟨_, _, .opened _ _ _ _ _, _, _⟩ => inferInstanceAs (Decidable (_ ∧ _ ∧ _ ∧ _))
  | ⟨_, _, .closed _ _ _ _ _ _, _, _⟩ => inferInstanceAs (Decidable (_ ∧ _ ∧ _ ∧ _))

/-- Memory and the journal have the same trades, and no wallet has two open ones in a market. -/
structure Matches (l : Ledger) (j : Journal) : Prop where
  journal : l.journal = some j
  numbered : j.Numbered
  completed : (l.closed.map Trade.completed).Perm j.completed
  held : (l.opened.entries.map fun e => e.2.held).Perm
    ((j.rows.filter TradeRow.isOpen).map TradeRow.held)
  single : (l.opened.entries.map fun e => (e.2.wallet, e.2.symbol)).Nodup
  lower : ∀ t ∈ l.closed, t.wallet = toLower t.wallet

variable {l l' : Ledger} {j : Journal} {a : Telling}
  {account wallet symbol strategy orderID : String}
  {f : Fill} {terms : Terms} {o : OpenTrade} {r : TradeRow} {e : TradeExit}

theorem fresh_matches : fresh.Matches ⟨[], 0⟩ where
  journal := rfl
  numbered := ⟨List.nodup_nil, fun _ hr => absurd hr List.not_mem_nil⟩
  completed := .refl _
  held := .refl _
  single := List.nodup_nil
  lower := fun _ ht => absurd ht List.not_mem_nil

/-! ## Positions that are open -/

/-- No wallet has two open rows in a market. -/
theorem Matches.rows_single (h : l.Matches j) :
    ((j.rows.filter TradeRow.isOpen).map fun r => (r.wallet, r.symbol)).Nodup := by
  have hperm := h.held.map fun p : String × String × String => (p.1, p.2.1)
  rw [List.map_map, List.map_map] at hperm
  exact hperm.nodup_iff.mp h.single

/-- A wallet that has no open trade in a market has no open row there. -/
theorem Matches.openRows_of_flat (h : l.Matches j) (hflat : l.Flat wallet symbol) :
    j.openRows wallet symbol = [] := by
  rw [List.eq_nil_iff_forall_not_mem]
  intro r hr
  obtain ⟨hrow, hwallet, hsymbol, hopen⟩ := Journal.mem_openRows.mp hr
  have hin : r.held ∈ (j.rows.filter TradeRow.isOpen).map TradeRow.held :=
    List.mem_map_of_mem (List.mem_filter.mpr ⟨hrow, Option.isNone_iff_eq_none.mpr hopen⟩)
  obtain ⟨e, he, heq⟩ := List.mem_map.mp (h.held.mem_iff.mpr hin)
  have hpair := Prod.mk.inj heq
  exact hflat e he ⟨hpair.1.trans hwallet, (Prod.mk.inj hpair.2).1.trans hsymbol⟩

/-- The open row of a remembered position is the one a close finds. -/
theorem Matches.newest (h : l.Matches j) (ho : l.openFor account symbol = some o) :
    ∃ r ∈ j.rows, r.exit = none ∧ r.held = o.held ∧
      j.newestOpen o.wallet o.symbol o.strategy = some r := by
  have hentry : ⟨tradeKey account symbol, o⟩ ∈ l.opened.entries := AList.mem_lookup_iff.mp ho
  have hin : o.held ∈ (j.rows.filter TradeRow.isOpen).map TradeRow.held :=
    h.held.mem_iff.mp (List.mem_map_of_mem hentry)
  obtain ⟨r, hr, heq⟩ := List.mem_map.mp hin
  obtain ⟨hrow, hopen⟩ := List.mem_filter.mp hr
  have hexit : r.exit = none := Option.isNone_iff_eq_none.mp hopen
  obtain ⟨hwallet, hrest⟩ := Prod.mk.inj heq
  obtain ⟨hsymbol, hstrategy⟩ := Prod.mk.inj hrest
  refine ⟨r, hrow, hexit, heq, Journal.newestOpen_of_newest
    (Journal.mem_openRows.mpr ⟨hrow, hwallet, hsymbol, hexit⟩) (.inr hstrategy) ?_⟩
  intro q hq _ hne
  obtain ⟨hqrow, hqwallet, hqsymbol, hqexit⟩ := Journal.mem_openRows.mp hq
  refine absurd (List.inj_on_of_nodup_map h.rows_single
    (List.mem_filter.mpr ⟨hqrow, Option.isNone_iff_eq_none.mpr hqexit⟩) hr ?_) hne
  rw [hqwallet, hqsymbol, hwallet, hsymbol]

/-! ## What a step does to both -/

variable {pnl : D} {reason : CloseReason} {run : Option (Excursion Unit)} {noted now : Time}

theorem openFor_of_flat (hown : l.Owns account wallet symbol) (hflat : l.Flat wallet symbol) :
    l.openFor account symbol = none := by
  cases ho : l.openFor account symbol with
  | none => rfl
  | some o => exact absurd (hown o ho) (hflat _ (AList.mem_lookup_iff.mp ho))

/-- An opening order is written twice. -/
theorem Matches.noteOpened (h : l.Matches j) (hown : l.Owns account wallet symbol)
    (hflat : l.Flat wallet symbol) (htaken : j.taken wallet orderID = false) :
    (l.noteOpened account wallet strategy symbol orderID f terms noted now).Matches
      (j.tradeOpened wallet strategy symbol orderID f terms now) := by
  have hnew : tradeKey account symbol ∉ l.opened :=
    AList.lookup_eq_none.mp (openFor_of_flat hown hflat)
  have hrows : (j.tradeOpened wallet strategy symbol orderID f terms now).rows =
      j.rows ++ [j.openedRow wallet strategy symbol orderID f terms now] := by
    rw [Journal.tradeOpened, htaken]
    rfl
  have hentries :
      (l.noteOpened account wallet strategy symbol orderID f terms noted now).opened.entries =
      ⟨tradeKey account symbol, ⟨terms, wallet, strategy, symbol, orderID, f, noted⟩⟩ ::
        l.opened.entries := AList.entries_insert_of_notMem hnew
  refine ⟨?_, h.numbered.tradeOpened, ?_, ?_, ?_, h.lower⟩
  · rw [Ledger.noteOpened, h.journal]
    rfl
  · rw [Journal.completed, hrows, List.filterMap_append]
    exact h.completed.trans (List.Perm.of_eq (List.append_nil _).symm)
  · rw [hentries, hrows, List.filter_append, List.map_append, List.map_cons]
    exact (h.held.cons _).trans (List.perm_append_singleton _ _).symm
  · rw [hentries, List.map_cons, List.nodup_cons]
    refine ⟨fun hin => ?_, h.single⟩
    obtain ⟨e, he, heq⟩ := List.mem_map.mp hin
    exact hflat e he (Prod.mk.inj heq)

/-- The close of a remembered position is written twice. -/
theorem Matches.noteClosed_some (h : l.Matches j) (ho : l.openFor account symbol = some o)
    (hown : l.Owns account wallet symbol) (hlower : wallet = toLower wallet) :
    ∃ j', (l.noteClosed account wallet symbol pnl orderID f reason run noted now).1.Matches j' := by
  obtain ⟨rfl, rfl⟩ := hown o ho
  obtain ⟨r, hr, hexit, hheld, hnewest⟩ := h.newest ho
  have hunder : l.closesUnder account o.symbol = o.strategy := by
    rw [closesUnder, ho]
    rfl
  rw [noteClosed_of_newest h.journal (hunder ▸ hnewest)]
  obtain ⟨pre, post, hrows, hdone⟩ :=
    h.numbered.complete_split hr (Journal.exitOf orderID f pnl reason run now)
  obtain ⟨hwallet, -⟩ := Prod.mk.inj hheld
  have hopen : r.isOpen = true := Option.isNone_iff_eq_none.mpr hexit
  have hentry : ⟨tradeKey account o.symbol, o⟩ ∈ l.opened.entries := AList.mem_lookup_iff.mp ho
  obtain ⟨o', before, after, -, hentries, herased⟩ :=
    List.exists_of_kerase (List.mem_keys_of_mem hentry)
  have hsame : o' = o := by
    have hentry' : ⟨tradeKey account o.symbol, o'⟩ ∈ l.opened.entries := by
      rw [hentries]
      exact List.mem_append_right _ List.mem_cons_self
    have hlookup := AList.mem_lookup_iff.mpr hentry'
    exact Option.some.inj (hlookup.symm.trans ho)
  subst hsame
  refine ⟨_, rfl, h.numbered.complete, ?_, ?_, ?_, ?_⟩
  · have hnone : r.completed = none := by
      rw [TradeRow.completed, hexit]
      rfl
    have hcompleted := h.completed
    rw [Journal.completed, hrows, List.filterMap_append,
      List.filterMap_cons_none hnone] at hcompleted
    have hsome : TradeRow.completed
        { r with exit := some (Journal.exitOf orderID f pnl reason run now) } =
          some (report r o'.wallet o'.symbol pnl orderID f reason now).completed := by
      rw [← hwallet]
      rfl
    dsimp only
    rw [Journal.completed, hdone, List.filterMap_append, List.filterMap_cons_some hsome,
      List.map_append]
    exact (List.perm_append_singleton _ _).trans ((hcompleted.cons _).trans List.perm_middle.symm)
  · have hheld' := h.held
    rw [hentries, hrows, List.filter_append, List.filter_cons_of_pos hopen] at hheld'
    rw [hdone, List.filter_append, List.filter_cons_of_neg (by exact Bool.false_ne_true)]
    have herased' : (l.opened.erase (tradeKey account o'.symbol)).entries = before ++ after :=
      herased
    rw [herased']
    have hboth := (List.perm_middle.map _).symm.trans (hheld'.trans (List.perm_middle.map _))
    rw [List.map_cons, List.map_cons, hheld] at hboth
    exact hboth.cons_inv
  · exact h.single.sublist ((List.kerase_sublist _ _).map _)
  · intro t ht
    rcases List.mem_append.mp ht with ht | ht
    · exact h.lower t ht
    · rw [List.mem_singleton.mp ht]
      exact hlower

/-- A close with no open trade, when the journal takes it, inserts what is told of it. -/
theorem noteClosed_of_none (noted : Time) (hj : l.journal = some j)
    (ho : l.openFor account symbol = none)
    (hnone : j.openRows wallet symbol = [])
    (hwrite : (j.tradeClosed wallet symbol (l.closesUnder account symbol) orderID f pnl reason run
      now).2.isSome) :
    ∃ row t, row.id = j.nextID ∧ row.isOpen = false ∧ row.completed = some t.completed ∧
      t.wallet = wallet ∧ (l.noteClosed account wallet symbol pnl orderID f reason run noted now).1 =
        ⟨some ⟨j.rows ++ [row], j.nextID + 1⟩, l.opened.erase (tradeKey account symbol),
          l.closed ++ [t]⟩ := by
  have hnewest : ∀ strategy, j.newestOpen wallet symbol strategy = none := fun _ =>
    Journal.newestOpen_of_empty hnone
  have hfree : j.taken wallet (Journal.unknownOrder orderID) = false := by
    refine eq_false_of_ne_true fun htaken => ?_
    rw [Journal.tradeClosed, hnewest] at hwrite
    simp only [htaken, if_true] at hwrite
    cases hwrite
  unfold noteClosed
  rw [ho, hj]
  simp only [Option.getD_none, Option.map_some, Journal.tradeClosed, hnewest, hfree,
    Bool.false_eq_true, if_false, Option.bind_some]
  exact ⟨_, _, rfl, rfl, rfl, rfl, rfl⟩

/-- A close with no open trade is written twice, as a round trip of its own. -/
theorem Matches.noteClosed_none (h : l.Matches j) (ho : l.openFor account symbol = none)
    (hflat : l.Flat wallet symbol) (hlower : wallet = toLower wallet)
    (hwrite : (j.tradeClosed wallet symbol (l.closesUnder account symbol) orderID f pnl reason run
      now).2.isSome) :
    ∃ j', (l.noteClosed account wallet symbol pnl orderID f reason run noted now).1.Matches j' := by
  obtain ⟨row, t, hid, hopen, hcompleted, hwallet, heq⟩ :=
    noteClosed_of_none noted h.journal ho (h.openRows_of_flat hflat) hwrite
  have hopened : (l.opened.erase (tradeKey account symbol)).entries = l.opened.entries :=
    List.kerase_of_notMem_keys (AList.lookup_eq_none.mp ho)
  have hnumbered : Journal.Numbered ⟨j.rows ++ [row], j.nextID + 1⟩ := by
    refine ⟨?_, fun r hr => ?_⟩
    · rw [List.map_append, List.map_singleton, List.nodup_append, hid]
      refine ⟨h.numbered.nodup, List.nodup_singleton _, fun x hx y hy => ?_⟩
      obtain ⟨r, hr, rfl⟩ := List.mem_map.mp hx
      have hlt := h.numbered.lt r hr
      rw [List.mem_singleton.mp hy]
      omega
    · rcases List.mem_append.mp hr with hr | hr
      · exact Nat.lt_succ_of_lt (h.numbered.lt r hr)
      · rw [List.mem_singleton.mp hr, hid]
        exact Nat.lt_succ_self _
  rw [heq]
  refine ⟨_, rfl, hnumbered, ?_, ?_, ?_, ?_⟩
  · rw [List.map_append, Journal.completed, List.filterMap_append,
      List.filterMap_cons_some hcompleted]
    exact h.completed.append_right _
  · rw [hopened, List.filter_append, List.filter_cons_of_neg (ne_true_of_eq_false hopen),
      List.filter_nil, List.append_nil]
    exact h.held
  · rw [hopened]
    exact h.single
  · intro u hu
    rcases List.mem_append.mp hu with hu | hu
    · exact h.lower u hu
    · rw [List.mem_singleton.mp hu, hwallet]
      exact hlower

/-- Every step is written twice. -/
theorem Matches.step (h : l.Matches j) (hok : l.Written a) (hs : l.Step a l') :
    ∃ j', l'.Matches j' := by
  subst hs
  obtain ⟨account, wallet, entry, noted, now⟩ := a
  obtain ⟨hlower, hok⟩ := hok
  cases entry with
  | opened strategy symbol orderID f terms =>
    obtain ⟨hown, hflat, htaken⟩ := hok
    exact ⟨_, h.noteOpened hown hflat (htaken j h.journal)⟩
  | closed symbol pnl orderID f reason run =>
    obtain ⟨hown, hflat, hwrite⟩ := hok
    cases ho : l.openFor account symbol with
    | none => exact h.noteClosed_none ho (hflat ho) hlower (hwrite j h.journal)
    | some o => exact h.noteClosed_some ho hown hlower

/-- After every run, memory and the journal have the same trades. -/
theorem matches_of_run {as : List Telling} (h : Run Step Written fresh as l) : ∃ j, l.Matches j :=
  h.invariant (I := fun l => ∃ j, l.Matches j) ⟨_, fresh_matches⟩ fun _ _ _ ⟨_, hj⟩ hok hs =>
    hj.step hok hs

end Ledger

end SuperAgent.Platform
