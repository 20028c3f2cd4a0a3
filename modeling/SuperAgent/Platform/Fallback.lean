import SuperAgent.Platform.Written

/-!
# The fallback

A process that wrote every round trip to the journal has the journal's round
trips in memory, in another order. The boards it falls back to are the
journal's, up to the rank of wallets that traded as much as one before them.
-/

namespace SuperAgent.Platform

open Fixed (D)

/-! ## Boards by result -/

/-- A wallet's line from its round trips. -/
def lineOf (ts : List Traded) (w : String) : Standing :=
  ⟨w, Int64.ofInt (resultOf (itemsOf Traded.wallet ts w)), (itemsOf Traded.wallet ts w).length⟩

/-- A strategy's board from its round trips. -/
def rowOf (strategy : String) (activeNow : Nat) (ts : List Traded) : BoardRow where
  strategy := strategy
  pnl := Int64.ofInt (resultOf ts)
  players := (ts.map Traded.wallet).dedup.length
  trades := ts.length
  activeNow := activeNow
  top := (((ts.map Traded.wallet).dedup.map (lineOf ts)).insertionSort Standing.ahead).take topN

section Boards

variable {ts ts' : List Traded} {a b : List Standing} {own closed : List Trade} {l : Ledger}
  {j : Journal} {since till : Time} {strategy s w : String} {rows : List BoardRow}

/-- The order of the lines in the words of their values. -/
theorem Standing.ahead_eq :
    Standing.ahead = Before (fun a => a.pnl.toInt) fun a => a.wallet := by
  ext1 a
  ext1 b
  rw [ahead, Before, Int64.lt_iff_toInt_lt, Int64.toInt_inj]

/-- The lines of a board are ordered in one way. -/
theorem insertionSort_lines (ha : a.Perm ((ts.map Traded.wallet).dedup.map (lineOf ts)))
    (hb : b.Perm a) : a.insertionSort Standing.ahead = b.insertionSort Standing.ahead := by
  refine List.Perm.eq_of_pairwise (fun x y hx hy hxy hyx => ?_) (List.pairwise_insertionSort _ _)
    (List.pairwise_insertionSort _ _)
    ((List.perm_insertionSort _ _).trans (hb.symm.trans (List.perm_insertionSort _ _).symm))
  have hline : ∀ z ∈ a, ∃ w, z = lineOf ts w := fun z hz => by
    obtain ⟨w, -, hw⟩ := List.mem_map.mp (ha.mem_iff.mp hz)
    exact ⟨w, hw.symm⟩
  obtain ⟨w, rfl⟩ := hline x ((List.perm_insertionSort _ _).mem_iff.mp hx)
  obtain ⟨w', rfl⟩ := hline y (hb.mem_iff.mp ((List.perm_insertionSort _ _).mem_iff.mp hy))
  rw [Standing.ahead_eq] at hxy hyx
  have hw : w = w' := (hxy.antisymm hyx).2
  rw [hw]

/-- A strategy's board does not depend on the order of its round trips. -/
theorem rowOf_perm (h : ts.Perm ts') (n : Nat) : rowOf s n ts = rowOf s n ts' := by
  have hwallets := (h.map Traded.wallet).dedup
  have hlines : (ts'.map Traded.wallet).dedup.map (lineOf ts') =
      (ts'.map Traded.wallet).dedup.map (lineOf ts) := by
    refine List.map_congr_left fun w _ => ?_
    have hitems : (itemsOf Traded.wallet ts w).Perm (itemsOf Traded.wallet ts' w) := itemsOf_perm h
    rw [lineOf, lineOf, (sums_perm hitems).1, hitems.length_eq]
  rw [rowOf, rowOf, (sums_perm h).1, hwallets.length_eq, h.length_eq, hlines,
    insertionSort_lines (.refl _) (hwallets.map _).symm]

/-! ### From memory -/

theorem foldl_standing (st : Standing) : own.foldl Standing.add st =
    ⟨st.wallet, st.pnl + Int64.ofInt (resultOf (own.map Trade.traded)),
      st.trades + own.length⟩ := by
  induction own generalizing st with
  | nil =>
    change st = ⟨st.wallet, st.pnl + 0, st.trades + 0⟩
    rw [Int64.add_zero, Nat.add_zero]
  | cons t own ih =>
    have hresult : resultOf ((t :: own).map Trade.traded) =
        t.pnl.toInt + resultOf (own.map Trade.traded) := rfl
    rw [List.foldl_cons, ih, hresult, Int64.ofInt_add, Int64.ofInt_toInt, ← Int64.add_assoc,
      List.length_cons, Nat.add_comm own.length, ← Nat.add_assoc]
    rfl

theorem foldl_acc (a : Acc) : own.foldl Acc.add a =
    ⟨a.pnl + Int64.ofInt (resultOf (own.map Trade.traded)), a.trades + own.length,
      own.foldl (gather Trade.wallet (fun w => ⟨w, 0, 0⟩) Standing.add) a.standings⟩ := by
  induction own generalizing a with
  | nil =>
    change a = ⟨a.pnl + 0, a.trades + 0, a.standings⟩
    rw [Int64.add_zero, Nat.add_zero]
  | cons t own ih =>
    have hresult : resultOf ((t :: own).map Trade.traded) =
        t.pnl.toInt + resultOf (own.map Trade.traded) := rfl
    rw [List.foldl_cons, ih, hresult, Int64.ofInt_add, Int64.ofInt_toInt, ← Int64.add_assoc,
      List.length_cons, Nat.add_comm own.length, ← Nat.add_assoc]
    rfl

theorem ne_empty_of_known (h : known s = true) : s ≠ "" := by
  rintro rfl
  exact absurd h (by decide)

/-- A strategy of the catalog adds up the trades that count for it. -/
theorem foldl_addToBoards (hs : known s = true) (accs : String → Acc) :
    closed.foldl (Ledger.addToBoards since) accs s =
      (closed.filter (Trade.counts since s)).foldl Acc.add (accs s) := by
  induction closed generalizing accs with
  | nil => rfl
  | cons t closed ih =>
    rw [List.foldl_cons, ih, Ledger.addToBoards]
    by_cases hcounts : t.counts since s = true
    · obtain ⟨hlate, hstrategy⟩ := of_decide_eq_true hcounts
      have hown : t.strategy = s := hstrategy.resolve_left (ne_empty_of_known hs)
      rw [List.filter_cons_of_pos hcounts, List.foldl_cons, hown,
        if_neg (not_or.mpr ⟨not_lt.mpr hlate, not_not.mpr hs⟩), Function.update_self]
    · rw [List.filter_cons_of_neg hcounts]
      split
      · rfl
      · next hkept =>
        rw [not_or, not_lt] at hkept
        have hother : s ≠ t.strategy := fun hown =>
          hcounts (decide_eq_true ⟨hkept.1, .inr hown.symm⟩)
        rw [Function.update_of_ne hother]

/-- The boards of memory. -/
theorem leaderboardFromMemory_eq (l : Ledger) (since : Time) : l.leaderboardFromMemory since =
    catalog.map fun s => rowOf s.id (l.activeNow s.id) (l.tradedSince since s.id) := by
  rw [Ledger.leaderboardFromMemory]
  refine List.map_congr_left fun s hs => ?_
  have hknown : known s.id = true := List.any_eq_true.mpr ⟨s, hs, decide_eq_true rfl⟩
  dsimp only
  rw [foldl_addToBoards hknown, foldl_acc, ← Ledger.kept]
  generalize hown : l.kept since s.id = own
  have htraded : l.tradedSince since s.id = own.map Trade.traded := by
    rw [Ledger.tradedSince, hown]
  have hwallets : own.map Trade.wallet = (own.map Trade.traded).map Traded.wallet := by
    rw [List.map_map]
    rfl
  have hentries := entries_gather Trade.wallet (fun w => (⟨w, 0, 0⟩ : Standing)) Standing.add own
  have hlines : ((own.foldl (gather Trade.wallet (fun w => (⟨w, 0, 0⟩ : Standing)) Standing.add)
      ∅).entries.map Sigma.snd).Perm
        (((own.map Trade.traded).map Traded.wallet).dedup.map (lineOf (own.map Trade.traded))) := by
    refine (hentries.map Sigma.snd).trans (List.Perm.of_eq ?_)
    rw [List.map_map, hwallets]
    refine List.map_congr_left fun w _ => ?_
    have hitems : itemsOf Traded.wallet (own.map Trade.traded) w =
        (itemsOf Trade.wallet own w).map Trade.traded := by
      rw [itemsOf, List.filter_map]
      rfl
    rw [Function.comp_apply, foldl_standing, lineOf, hitems, List.length_map, Int64.zero_add,
      Nat.zero_add]
  have hplayers := hlines.length_eq
  rw [List.length_map, List.length_map] at hplayers
  rw [htraded, rowOf, insertionSort_lines hlines hlines.symm, Int64.zero_add, Nat.zero_add,
    List.length_map]
  dsimp only
  rw [hplayers]

/-! ### From the journal -/

/-- The results of a strategy are what its round trips were closed with. -/
theorem traded_results (hs : s ≠ "") (j : Journal) (since till : Time) :
    ((j.results since till).filter fun t => t.strategy = s).map (fun t => (t.wallet, t.pnl)) =
      (j.traded s since till).map fun t => (t.wallet, t.pnl) := by
  rw [Journal.results, Journal.traded, List.filter_filterMap, List.map_filterMap,
    List.map_filterMap]
  refine List.filterMap_congr fun r _ => ?_
  cases r.exit with
  | none => rfl
  | some e =>
    by_cases hin : since ≤ e.closedAt ∧ e.closedAt < till
    · by_cases hown : r.strategy = s
      · simp [hin, hown]
      · simp [hin, hown, hs]
    · simp [hin]

/-- A wallet's results under a strategy are those of its round trips. -/
theorem resultsOf_eq (hs : s ≠ "") (j : Journal) (since till : Time) (w : String) :
    (j.resultsOf since till s w).map (fun t => t.pnl) =
      (itemsOf Traded.wallet (j.traded s since till) w).map fun t => t.pnl := by
  have hpairs := congrArg (fun l => (l.filter fun p : String × D => p.1 = w).map Prod.snd)
    (traded_results hs j since till)
  simp only [List.filter_map, List.map_map] at hpairs
  rw [Journal.resultsOf, itemsOf]
  refine Eq.trans (congrArg _ ?_) hpairs
  rw [List.filter_filter]
  refine List.filter_congr fun t _ => ?_
  simp [Bool.and_comm]

/-- The lines of a strategy's board in the journal. -/
theorem standings_eq (hs : s ≠ "") (j : Journal) (since till : Time) : ∃ ws : List String, ws.Perm
    ((j.traded s since till).map Traded.wallet).dedup ∧
      j.standings since till s = ws.map (lineOf (j.traded s since till)) := by
  refine ⟨((j.players since till).filter fun p => p.1 = s).map Prod.snd, ?_, ?_⟩
  · obtain ⟨hnodup, hmem⟩ : ((j.standings since till s).map Standing.wallet).Nodup ∧ _ :=
      Journal.standings_nodup
    rw [Journal.standings_wallets] at hnodup hmem
    refine (List.perm_ext_iff_of_nodup hnodup (List.nodup_dedup _)).mpr fun w => ?_
    have hresults := congrArg List.length (resultsOf_eq hs j since till w)
    rw [List.length_map, List.length_map] at hresults
    rw [hmem, List.mem_dedup, ← itemsOf_ne_nil, ← List.length_pos_iff, ← List.length_pos_iff,
      hresults]
  · rw [Journal.standings, List.filter_map, List.map_map, List.map_map]
    refine List.map_congr_left fun p hp => ?_
    have hp : p.1 = s := of_decide_eq_true (List.mem_filter.mp hp).2
    have hresults := resultsOf_eq hs j since till p.2
    have hsum : j.sumOf since till s p.2 =
        resultOf (itemsOf Traded.wallet (j.traded s since till) p.2) := by
      have hints := congrArg (fun l => (l.map Int64.toInt).sum) hresults
      simpa [Journal.sumOf, resultOf, List.map_map, Function.comp_def] using hints
    have hlength := congrArg List.length hresults
    rw [List.length_map, List.length_map] at hlength
    rw [Function.comp_apply, Function.comp_apply, Journal.exactLine, lineOf, hp, hsum, hlength]

/-- The results of lines added up. -/
theorem foldl_pnl (ws : List String) (d : D) :
    (ws.map (lineOf ts)).foldl (fun sum st => sum + st.pnl) d =
      d + Int64.ofInt ((ws.map fun w => resultOf (itemsOf Traded.wallet ts w)).sum) := by
  induction ws generalizing d with
  | nil => exact (Int64.add_zero d).symm
  | cons w ws ih =>
    rw [List.map_cons, List.foldl_cons, ih, List.map_cons, List.sum_cons, Int64.ofInt_add,
      ← Int64.add_assoc]
    rfl

/-- A strategy's board in the journal. -/
theorem board_eq (hs : s ≠ "") (j : Journal) (since till : Time) :
    j.board topN ((j.players since till).map (j.exactLine since till)) s =
      rowOf s (j.activeNow s) (j.traded s since till) := by
  obtain ⟨ws, hws, hlines⟩ := standings_eq hs j since till
  have hnodup : ws.Nodup := hws.nodup_iff.mpr (List.nodup_dedup _)
  rw [Journal.board, ← Journal.standings, hlines]
  generalize j.traded s since till = ts at hws
  have hin : ∀ t ∈ ts, t.wallet ∈ ws := fun t ht =>
    hws.mem_iff.mpr (List.mem_dedup.mpr (List.mem_map_of_mem ht))
  have hpnl : (ws.map fun w => resultOf (itemsOf Traded.wallet ts w)).sum = resultOf ts :=
    sum_itemsOf (fun t : Traded => t.pnl.toInt) hnodup hin
  have htrades : ((ws.map (lineOf ts)).map Standing.trades).sum = ts.length := by
    have hones := sum_itemsOf (fun _ : Traded => 1) hnodup hin
    simpa [List.map_map, Function.comp_def, lineOf] using hones
  rw [foldl_pnl, hpnl, htrades, Int64.zero_add, List.length_map, hws.length_eq, rowOf,
    insertionSort_lines (hws.map _) (hws.symm.map _)]

/-- The boards of the journal, when they are read. -/
theorem catalogBoards_eq (h : j.catalogBoards since till = .ok rows) :
    rows = catalog.map fun s => rowOf s.id (j.activeNow s.id) (j.traded s.id since till) := by
  obtain ⟨found, hboards, hrows⟩ := bind_eq_ok.mp h
  rw [← Except.ok.inj hrows]
  refine List.map_congr_left fun s hs => ?_
  have hne : s.id ≠ "" := ne_empty_of_known (List.any_eq_true.mpr ⟨s, hs, decide_eq_true rfl⟩)
  rw [← board_eq hne]
  exact Journal.find_boards hboards s.id

end Boards

/-! ## Both from the same trades -/

namespace Ledger

variable {l : Ledger} {j : Journal} {since till now : Time} {strategy wallet w : String}

/-- The columns keep an instant since a whole microsecond since then. -/
theorem le_micros_iff {t : Time} (hwhole : since.micros = since) :
    since ≤ t.micros ↔ since ≤ t := by
  have hfloor : ∀ n m : Int, n - n % 1000 = n → (n ≤ m - m % 1000 ↔ n ≤ m) := by
    intro n m h
    omega
  exact hfloor since t hwhole

/-- What a board reads of a completed round trip. -/
def inWindow (since till : Time) (strategy : String) (c : Completed) : Option Traded :=
  if (since ≤ c.closedAt ∧ c.closedAt < till) ∧ (strategy = "" ∨ c.strategy = strategy) then
    some c.trip
  else none

theorem traded_eq (j : Journal) :
    j.traded strategy since till = j.completed.filterMap (inWindow since till strategy) := by
  rw [Journal.traded, Journal.completed, List.filterMap_filterMap]
  refine List.filterMap_congr fun r _ => ?_
  cases hexit : r.exit with
  | none => rw [TradeRow.completed, hexit]; rfl
  | some e => rw [TradeRow.completed, hexit]; rfl

theorem tradedSince_eq (hwhole : since.micros = since) (hpast : ∀ t ∈ l.closed, t.closedAt < till) :
    l.tradedSince since strategy =
      (l.closed.map Trade.completed).filterMap (inWindow since till strategy) := by
  rw [tradedSince, kept, List.filterMap_map, ← List.filterMap_eq_map, List.filterMap_filter]
  refine List.filterMap_congr fun t ht => ?_
  have hlt : t.closedAt.micros < till := (Time.micros_le _).trans_lt (hpast t ht)
  have hcounts : t.counts since strategy = true ↔
      (since ≤ t.closedAt.micros ∧ t.closedAt.micros < till) ∧
        (strategy = "" ∨ t.strategy = strategy) := by
    rw [le_micros_iff hwhole, Trade.counts, decide_eq_true_eq, and_iff_left hlt]
  rw [Function.comp_apply, Function.comp_apply]
  by_cases h : t.counts since strategy = true
  · rw [if_pos h]
    exact (if_pos (hcounts.mp h)).symm
  · rw [if_neg h]
    exact (if_neg (mt hcounts.mpr h)).symm

/-- The boards are made of the same round trips. -/
theorem Matches.traded_perm (h : l.Matches j) (hwhole : since.micros = since)
    (hpast : ∀ t ∈ l.closed, t.closedAt < till) (strategy : String) :
    (l.tradedSince since strategy).Perm (j.traded strategy since till) := by
  rw [tradedSince_eq hwhole hpast, traded_eq]
  exact h.completed.filterMap _

theorem Matches.lower_traded (h : l.Matches j) (since : Time) (strategy : String) :
    ∀ t ∈ l.tradedSince since strategy, t.wallet = toLower t.wallet := by
  intro t ht
  obtain ⟨u, hu, rfl⟩ := List.mem_map.mp ht
  exact h.lower u (List.mem_of_mem_filter hu)

/-- The same wallets have an open position under a strategy. -/
theorem Matches.activeNow (h : l.Matches j) (strategy : String) :
    l.activeNow strategy = j.activeNow strategy := by
  have hperm := (h.held.filter fun p => p.2.2 = strategy).map Prod.fst
  rw [List.filter_map, List.filter_map, List.map_map, List.map_map, List.filter_filter] at hperm
  rw [Ledger.activeNow, Journal.activeNow, Journal.activeWallets]
  refine Eq.trans ?_ (hperm.dedup.length_eq.trans ?_)
  · rfl
  · congr 3
    refine List.filter_congr fun r _ => ?_
    rw [Bool.eq_iff_iff, Bool.and_eq_true, decide_eq_true_eq]
    exact and_congr_left' decide_eq_true_iff

/-- Weeks and the epoch begin at whole microseconds. -/
theorem micros_weekStartOf (now : Time) : (weekStartOf now).micros = weekStartOf now := by
  have hweek : ∀ d : Int, d * 86400000000000 - d * 86400000000000 % 1000 = d * 86400000000000 := by
    intro d
    omega
  rw [weekStartOf_eq]
  exact hweek _

theorem micros_sinceOf (period : String) (now : Time) :
    (sinceOf period now).micros = sinceOf period now := by
  rw [sinceOf]
  split
  · rfl
  · exact micros_weekStartOf now

/-! ## One board for the other -/

/-- Memory serves what the journal would. -/
structure ServedAlike (l : Ledger) (now : Time) : Prop where
  week : ∀ earlier, l.leaderboard true earlier now = l.leaderboard false earlier now
  ever : l.allTime true now = l.allTime false now
  page : ∀ period strategy limit offset, l.standingsPage true now period strategy limit offset =
    l.standingsPage false now period strategy limit offset
  standing : ∀ period strategy wallet, l.standingOf true now period strategy wallet =
    l.standingOf false now period strategy wallet

/-- No trade was closed after the week, decimals hold every product and every sum as they are, and
no board has more wallets than memory looks through. -/
structure Comparable (l : Ledger) (now : Time) : Prop where
  past : ∀ t ∈ l.closed, t.closedAt < weekEndOf now
  sums : ∀ period strategy, SumsHold (l.tradedSince (sinceOf period now) strategy)
  few : ∀ period strategy, (ranked (l.tradedSince (sinceOf period now) strategy)).length ≤ 2 ^ 30

/-- No two wallets on a board traded the same. -/
def Untied (l : Ledger) (now : Time) : Prop :=
  ∀ period strategy, ∀ w ∈ ranked (l.tradedSince (sinceOf period now) strategy),
    ∀ w' ∈ ranked (l.tradedSince (sinceOf period now) strategy),
      turnover (itemsOf Traded.wallet (l.tradedSince (sinceOf period now) strategy) w) =
        turnover (itemsOf Traded.wallet (l.tradedSince (sinceOf period now) strategy) w') → w = w'

/-- The boards by result are the same. -/
theorem Matches.boards_alike (h : l.Matches j) (hwhole : since.micros = since)
    (hpast : ∀ t ∈ l.closed, t.closedAt < weekEndOf now) :
    l.boards true since now = l.boards false since now := by
  have hanswers : l.answering true = some j := h.journal
  rw [Ledger.boards, Ledger.boards, hanswers, Option.bind_some]
  cases hboards : j.catalogBoards since (weekEndOf now) with
  | error e => rfl
  | ok rows =>
    have hmemory : l.leaderboardFromMemory since = rows := by
      rw [catalogBoards_eq hboards, leaderboardFromMemory_eq]
      refine List.map_congr_left fun s _ => ?_
      rw [h.activeNow, rowOf_perm (h.traded_perm hwhole hpast s.id)]
    exact hmemory.symm

/-- The pages of a board by volume are the same. -/
theorem Matches.page_alike (h : l.Matches j) (hc : l.Comparable now) (period strategy : String)
    (limit offset : Nat) : l.standingsPage true now period strategy limit offset =
      l.standingsPage false now period strategy limit offset := by
  have hanswers : l.answering true = some j := h.journal
  have hperm := h.traded_perm (micros_sinceOf period now) hc.past strategy
  have hmemory := standingsFromMemory_eq (hc.sums period strategy) limit offset
  rw [boardOf_perm hperm, (hperm.map _).dedup.length_eq] at hmemory
  rw [Ledger.standingsPage, Ledger.standingsPage, hanswers]
  exact hmemory.symm

/-- The journal's line of a wallet, from round trips in any order. -/
theorem standingOf_perm {ts : List Traded} (hperm : ts.Perm (j.traded strategy since till))
    (wallet : String) :
    j.standingOf strategy since till wallet =
      if toLower wallet ∈ ranked ts then
        .ok (readLine (toLower wallet) (itemsOf Traded.wallet ts (toLower wallet)),
          aheadOf ts (toLower wallet) + 1)
      else .error .null := by
  have hitems : (itemsOf Traded.wallet ts (toLower wallet)).Perm
      (itemsOf Traded.wallet (j.traded strategy since till) (toLower wallet)) := itemsOf_perm hperm
  rw [Journal.standingOf, ← readLine_perm hitems, ← aheadOf_perm hperm]
  by_cases hmem : toLower wallet ∈ ranked ts
  · have hsome :
        ¬ (itemsOf Traded.wallet (j.traded strategy since till) (toLower wallet)).isEmpty := by
      rw [List.isEmpty_iff, ← List.length_eq_zero_iff, ← hitems.length_eq, List.length_eq_zero_iff]
      exact mem_ranked.mp hmem
    rw [if_neg hsome, if_pos hmem]
  · have hnone :
        (itemsOf Traded.wallet (j.traded strategy since till) (toLower wallet)).isEmpty := by
      rw [List.isEmpty_iff, ← List.length_eq_zero_iff, ← hitems.length_eq, List.length_eq_zero_iff]
      exact not_not.mp (mt mem_ranked.mpr hmem)
    rw [if_pos hnone, if_neg hmem]

/-- The line of a wallet on a board is the same exactly when no wallet before it traded as much. -/
theorem Matches.standing_alike_iff (h : l.Matches j) (hc : l.Comparable now) {period : String}
    {pre post : List String}
    (hplace : ranked (l.tradedSince (sinceOf period now) strategy) =
      pre ++ toLower wallet :: post) :
    l.standingOf true now period strategy wallet = l.standingOf false now period strategy wallet ↔
      ∀ x ∈ pre, turnover (itemsOf Traded.wallet (l.tradedSince (sinceOf period now) strategy) x) ≠
        turnover (itemsOf Traded.wallet (l.tradedSince (sinceOf period now) strategy)
          (toLower wallet)) := by
  have hanswers : l.answering true = some j := h.journal
  have hperm := h.traded_perm (micros_sinceOf period now) hc.past strategy
  have hjournal := standingOf_perm hperm wallet
  have hmemory := standingFromMemory_some (hc.sums period strategy) (h.lower_traded _ _)
    (hc.few period strategy) hplace
  have hmem : toLower wallet ∈ ranked (l.tradedSince (sinceOf period now) strategy) := by
    rw [hplace]
    exact List.mem_append_right _ List.mem_cons_self
  rw [if_pos hmem] at hjournal
  rw [← aheadOf_eq_iff hplace, Ledger.standingOf, Ledger.standingOf, hanswers, hmemory,
    Option.bind_some, hjournal]
  change some _ = some _ ↔ _
  rw [Option.some.injEq, Prod.mk.injEq, and_iff_right rfl, Nat.add_right_cancel_iff]

/-- The line of a wallet that is on no board is the same. -/
theorem Matches.standing_alike_of_not_mem (h : l.Matches j) (hc : l.Comparable now)
    {period : String}
    (hnone : toLower wallet ∉ ranked (l.tradedSince (sinceOf period now) strategy)) :
    l.standingOf true now period strategy wallet =
      l.standingOf false now period strategy wallet := by
  have hanswers : l.answering true = some j := h.journal
  have hperm := h.traded_perm (micros_sinceOf period now) hc.past strategy
  have hjournal := standingOf_perm hperm wallet
  rw [if_neg hnone] at hjournal
  rw [Ledger.standingOf, Ledger.standingOf, hanswers, Option.bind_some, hjournal]
  rfl

/-- Of two wallets that traded the same, the line of the one behind is not the same. -/
theorem Matches.eq_of_alike (h : l.Matches j) (hc : l.Comparable now) {period a b : String}
    (ha : a ∈ ranked (l.tradedSince (sinceOf period now) strategy))
    (hb : b ∈ ranked (l.tradedSince (sinceOf period now) strategy))
    (hsame : turnover (itemsOf Traded.wallet (l.tradedSince (sinceOf period now) strategy) a) =
      turnover (itemsOf Traded.wallet (l.tradedSince (sinceOf period now) strategy) b))
    (hle : a ≤ b) (halike : l.standingOf true now period strategy b =
      l.standingOf false now period strategy b) : a = b := by
  have hlower : b = toLower b := lower_of_mem_ranked (h.lower_traded _ _) hb
  obtain ⟨pre, post, hplace⟩ := List.append_of_mem hb
  have hfree := (h.standing_alike_iff hc (hlower ▸ hplace)).mp halike
  rw [← hlower] at hfree
  have hsorted : (ranked (l.tradedSince (sinceOf period now) strategy)).Pairwise
      (tradedMore (l.tradedSince (sinceOf period now) strategy)) := List.pairwise_insertionSort _ _
  rw [hplace] at ha hsorted
  rcases List.mem_append.mp ha with hbefore | hafter
  · exact absurd hsame (hfree a hbefore)
  · rcases List.mem_cons.mp hafter with heq | hafter
    · exact heq
    · -- wallets that traded the same are in the order of their names
      have hmore := List.rel_of_pairwise_cons (List.pairwise_append.mp hsorted).2.1 hafter
      rcases hmore with hmore | ⟨-, hge⟩
      · exact absurd hsame hmore.ne
      · exact le_antisymm hle hge

/-- After every run in which each open and close is written twice, on a state whose sums decimals
hold as they are, memory serves what the journal would exactly when no two wallets on a board traded
the same. -/
theorem served_alike_iff {as : List Telling} (h : Run Step Written fresh as l) (now : Time)
    (hc : l.Comparable now) : l.ServedAlike now ↔ l.Untied now := by
  obtain ⟨j, hj⟩ := matches_of_run h
  constructor
  · intro halike period strategy w hw w' hw' hsame
    rcases le_total w w' with hle | hle
    · exact hj.eq_of_alike hc hw hw' hsame hle (halike.standing _ _ _)
    · exact (hj.eq_of_alike hc hw' hw hsame.symm hle (halike.standing _ _ _)).symm
  · intro huntied
    refine ⟨fun earlier => hj.boards_alike (micros_weekStartOf earlier) hc.past,
      hj.boards_alike rfl hc.past, hj.page_alike hc, fun period strategy wallet => ?_⟩
    by_cases hmem : toLower wallet ∈ ranked (l.tradedSince (sinceOf period now) strategy)
    · obtain ⟨pre, post, hplace⟩ := List.append_of_mem hmem
      refine (hj.standing_alike_iff hc hplace).mpr fun x hx hsame => ?_
      have hnodup := ranked_nodup (l.tradedSince (sinceOf period now) strategy)
      have hin : x ∈ ranked (l.tradedSince (sinceOf period now) strategy) := by
        rw [hplace]
        exact List.mem_append_left _ hx
      have heq : x = toLower wallet := huntied period strategy x hin _ hmem hsame
      rw [hplace] at hnodup
      exact List.disjoint_of_nodup_append hnodup hx (heq ▸ List.mem_cons_self)
    · exact hj.standing_alike_of_not_mem hc hmem

/-- So many numbers of so small a size add up to no more than their product. -/
theorem natAbs_sum_le {b : Nat} {xs : List Int} (h : ∀ x ∈ xs, x.natAbs ≤ b) :
    xs.sum.natAbs ≤ xs.length * b := by
  induction xs with
  | nil => exact Nat.zero_le _
  | cons x xs ih =>
    have hx := h x List.mem_cons_self
    have hrest := ih fun y hy => h y (List.mem_cons_of_mem _ hy)
    have habs := Int.natAbs_add_le x xs.sum
    rw [List.sum_cons, List.length_cons, Nat.succ_mul]
    omega

/-- Whole products and results that are small enough for their number add up. -/
theorem sumsHold_of_small {b : Nat} (hproducts : ∀ t ∈ l.closed, ∃ n : Int,
      t.entry.size.toInt * t.entry.price.toInt = n * 10 ^ 8 ∧ n.natAbs ≤ b)
    (hresults : ∀ t ∈ l.closed, t.pnl.toInt.natAbs ≤ b)
    (hfits : l.closed.length * b ≤ Fixed.maxInt64) (since : Time) (strategy : String) :
    SumsHold (l.tradedSince since strategy) := by
  have hfrom : ∀ t ∈ l.tradedSince since strategy, ∃ u ∈ l.closed, u.traded = t := fun t ht => by
    obtain ⟨u, hu, heq⟩ := List.mem_map.mp ht
    exact ⟨u, List.mem_of_mem_filter hu, heq⟩
  have hlength : ∀ w, (itemsOf Traded.wallet (l.tradedSince since strategy) w).length * b ≤
      Fixed.maxInt64 := by
    intro w
    refine (Nat.mul_le_mul_right b ?_).trans hfits
    refine (List.length_filter_le _ _).trans ?_
    rw [tradedSince, List.length_map]
    exact List.length_filter_le _ _
  refine ⟨fun t ht => ?_, fun w => ?_, fun w n hn => ?_⟩
  · obtain ⟨u, hu, rfl⟩ := hfrom t ht
    obtain ⟨n, hn, hle⟩ := hproducts u hu
    have hone : b ≤ l.closed.length * b :=
      Nat.le_mul_of_pos_left b (List.length_pos_of_mem hu)
    exact ⟨n, hn, hle.trans (hone.trans hfits)⟩
  · refine (natAbs_sum_le (b := b) fun x hx => ?_).trans (by rw [List.length_map]; exact hlength w)
    obtain ⟨t, ht, rfl⟩ := List.mem_map.mp hx
    obtain ⟨u, hu, rfl⟩ := hfrom t (List.mem_of_mem_filter ht)
    exact hresults u hu
  · have hsum : (turnover (itemsOf Traded.wallet (l.tradedSince since strategy) w)).natAbs ≤
        (itemsOf Traded.wallet (l.tradedSince since strategy) w).length * (b * 10 ^ 8) := by
      refine (natAbs_sum_le fun x hx => ?_).trans (by rw [List.length_map])
      obtain ⟨t, ht, rfl⟩ := List.mem_map.mp hx
      obtain ⟨u, hu, rfl⟩ := hfrom t (List.mem_of_mem_filter ht)
      obtain ⟨n, hn, hle⟩ := hproducts u hu
      change (u.entry.size.toInt * u.entry.price.toInt).natAbs ≤ _
      rw [hn]
      omega
    have hle := hlength w
    rw [hn, ← Nat.mul_assoc] at hsum
    omega

/-- A wallet opens a position. -/
def opens (wallet orderID : String) (size price : D) : Telling :=
  ⟨wallet, wallet, .opened "rsi" "BTC" orderID ⟨.long, size, price, 0, 0⟩ ⟨none, none, none, none⟩,
    epoch, epoch⟩

/-- It closes the position. -/
def closes (wallet orderID : String) (size price : D) : Telling :=
  ⟨wallet, wallet, .closed "BTC" 100 orderID ⟨.long, size, price, 0, 0⟩ .manual none, epoch, epoch⟩

/-- Two wallets, each with a round trip of one unit. -/
def twoTrips (a b : D) : List Telling :=
  [opens "0xa" "1" Fixed.scale a, closes "0xa" "2" Fixed.scale a, opens "0xb" "3" Fixed.scale b,
    closes "0xb" "4" Fixed.scale b]

/-- Two wallets, one of which traded more. -/
theorem served_alike_two : ∃ l as, Run Step Written fresh as l ∧ l.closed.length = 2 ∧
    l.ServedAlike epoch := by
  have hrun : Run Step Written fresh (twoTrips 500 700) _ := Run.nil
    |>.snoc (by decide +kernel) rfl |>.snoc (by decide +kernel) rfl
    |>.snoc (by decide +kernel) rfl |>.snoc (by decide +kernel) rfl
  generalize hl : next _ _ = l at hrun
  have hpast : ∀ t ∈ l.closed, t.closedAt < weekEndOf epoch := by
    subst hl
    decide +kernel
  have hproducts : ∀ t ∈ l.closed, t.entry.size.toInt * t.entry.price.toInt =
      t.entry.size.toInt * t.entry.price.toInt / 10 ^ 8 * 10 ^ 8 ∧
        (t.entry.size.toInt * t.entry.price.toInt / 10 ^ 8).natAbs ≤ 1000 := by
    subst hl
    decide +kernel
  have hresults : ∀ t ∈ l.closed, t.pnl.toInt.natAbs ≤ 1000 := by
    subst hl
    decide +kernel
  obtain ⟨a, b, hclosed, ha, hb⟩ : ∃ a b, l.closed = [a, b] ∧
      a.traded = ⟨"0xa", 100, Fixed.scale, 500⟩ ∧ b.traded = ⟨"0xb", 100, Fixed.scale, 700⟩ := by
    subst hl
    exact ⟨_, _, rfl, rfl, rfl⟩
  have htwo : l.closed.length = 2 := by rw [hclosed]; rfl
  refine ⟨l, _, hrun, htwo, (served_alike_iff hrun epoch ⟨hpast, fun period strategy => ?_,
    fun period strategy => ?_⟩).mpr fun period strategy => ?_⟩
  · refine sumsHold_of_small (fun t ht => ⟨_, hproducts t ht⟩) hresults ?_ _ _
    rw [htwo]
    decide
  · refine (ranked_length_le _).trans ?_
    rw [tradedSince, List.length_map]
    refine (List.length_filter_le _ _).trans ?_
    rw [htwo]
    decide
  · rw [tradedSince, kept, hclosed, List.filter_cons, List.filter_cons, List.filter_nil]
    split <;> split <;> simp only [List.map_cons, List.map_nil, ha, hb] <;> decide +kernel

/-- Two wallets that traded the same: the second one's rank depends on who answers. Two products of
half a unit in the last place: the volume does. -/
theorem fallback_differs :
    (∃ l as, Run Step Written fresh as l ∧
      (l.standingOf true epoch "all" "" "0xb").map Prod.snd = some 1 ∧
      (l.standingOf false epoch "all" "" "0xb").map Prod.snd = some 2) ∧
    ∃ l as, Run Step Written fresh as l ∧
      l.standingsPage true epoch "all" "" 10 0 ≠ l.standingsPage false epoch "all" "" 10 0 := by
  have hties : Run Step Written fresh (twoTrips 500 500) _ := Run.nil
    |>.snoc (by decide +kernel) rfl |>.snoc (by decide +kernel) rfl
    |>.snoc (by decide +kernel) rfl |>.snoc (by decide +kernel) rfl
  have hrounds : Run Step Written fresh [opens "0xa" "1" 1 50000000, closes "0xa" "2" 1 50000000,
      opens "0xa" "3" 1 50000000, closes "0xa" "4" 1 50000000] _ := Run.nil
    |>.snoc (by decide +kernel) rfl |>.snoc (by decide +kernel) rfl
    |>.snoc (by decide +kernel) rfl |>.snoc (by decide +kernel) rfl
  exact ⟨⟨_, _, hties, by decide +kernel, by decide +kernel⟩, _, _, hrounds, by decide +kernel⟩

end Ledger

end SuperAgent.Platform
