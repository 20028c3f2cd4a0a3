import SuperAgent.Chain.Address
import SuperAgent.Contract.Accounting
import SuperAgent.Platform.Boards
import SuperAgent.Platform.Prize

/-!
# The winners of a week

What the desk publishes of a finished week: the best wallets of the board that
are addresses and won something, each with its share of the pool. The contract
never refuses it for its shape or its total.
-/

namespace SuperAgent.Platform

open Contract (Week Strategy Address Amount)
open Fixed (D)

/-- One line of a settlement. -/
structure Winner where
  wallet : String
  pnl : D
  amount : Nat
  deriving DecidableEq

/-- What the first three win, in hundredths of the pool. -/
def prizeShares : List Nat := [50, 30, 20]

/-- Some order of a board by result alone. -/
structure Ranked (top ranked : List Standing) : Prop where
  perm : ranked.Perm top
  sorted : ranked.Pairwise fun a b => b.pnl ≤ a.pnl

/-- Give the shares that are left to a ranked board: the first result that is not positive ends
it, and a wallet that is not an address is passed over. -/
def winners (pool : Nat) : List Nat → List Standing → List Winner
  | [], _ => []
  | _, [] => []
  | share :: shares, s :: rest =>
    if ¬ 0 < s.pnl then []
    else if ¬ Chain.isAddress s.wallet then winners pool (share :: shares) rest
    else ⟨s.wallet, s.pnl, pool * share / 100⟩ :: winners pool shares rest

/-- What is published of a week's winners. -/
def publicationOf (week : Week) (strategy : String) (ws : List Winner) : Publication :=
  let lines := ws.filterMap fun w => (Chain.parseAddress w.wallet).toOption.map fun a => (a, w)
  { week
    strategy
    winners := lines.map Prod.fst
    amounts := lines.map fun l => BitVec.ofNat 256 l.2.amount
    pnls := lines.map fun l => BitVec.ofInt 128 (collateralMicros l.2.pnl) }

/-! ## The shares -/

variable {pool : Nat} {shares : List Nat} {ranked : List Standing}

/-- A share of a pool for a line of a board. -/
def award (pool share : Nat) (s : Standing) : Winner := ⟨s.wallet, s.pnl, pool * share / 100⟩

/-- Whether a prize can go to a line of a board. -/
def Standing.canWin (s : Standing) : Bool := Chain.isAddress s.wallet ∧ 0 < s.pnl

/-- On a ranked board the shares go, in order, to the first lines a prize can go to. -/
theorem winners_eq (h : ranked.Pairwise fun a b => b.pnl ≤ a.pnl) :
    winners pool shares ranked =
      List.zipWith (award pool) shares ((ranked.filter Standing.canWin).take shares.length) := by
  induction ranked generalizing shares with
  | nil => cases shares <;> rfl
  | cons s rest ih =>
    cases shares with
    | nil => rfl
    | cons share shares =>
      obtain ⟨hhead, hrest⟩ := List.pairwise_cons.mp h
      rw [winners]
      by_cases hpos : 0 < s.pnl
      · rw [if_neg (not_not_intro hpos)]
        by_cases haddr : Chain.isAddress s.wallet
        · have hwin : s.canWin = true := decide_eq_true ⟨haddr, hpos⟩
          rw [if_neg (not_not_intro haddr), List.filter_cons_of_pos hwin, List.length_cons,
            List.take_succ_cons, List.zipWith_cons_cons, ih hrest]
          rfl
        · have hpass : ¬ s.canWin = true := fun hwin => haddr (of_decide_eq_true hwin).1
          rw [if_pos haddr, List.filter_cons_of_neg hpass, ih hrest]
      · -- nothing after a result that is not positive is positive
        have hnone : (s :: rest).filter Standing.canWin = [] := by
          rw [List.filter_eq_nil_iff]
          intro q hq hwin
          have hq0 : 0 < q.pnl := (of_decide_eq_true hwin).2
          rcases List.mem_cons.mp hq with rfl | hq
          · exact hpos hq0
          · exact hpos (Int64.lt_of_lt_of_le hq0 (hhead q hq))
        rw [if_pos hpos, hnone, List.take_nil, List.zipWith_nil_right]

/-- A truncated board has the first lines a prize can go to, unless fewer than three of its
wallets are addresses. -/
theorem take_canWin {top rest : List Standing}
    (h : (top ++ rest).Pairwise fun a b => b.pnl ≤ a.pnl)
    (hlong : rest ≠ [] → 3 ≤ (top.filter fun s => Chain.isAddress s.wallet).length) :
    ((top ++ rest).filter Standing.canWin).take 3 = (top.filter Standing.canWin).take 3 := by
  rw [List.filter_append]
  by_cases hrest : rest = []
  · rw [hrest, List.filter_nil, List.append_nil]
  · obtain ⟨-, -, hcross⟩ := List.pairwise_append.mp h
    by_cases hall : ∀ s ∈ top, Chain.isAddress s.wallet = true → 0 < s.pnl
    · have hsame : top.filter Standing.canWin = top.filter fun s => Chain.isAddress s.wallet := by
        apply List.filter_congr
        intro s hs
        unfold Standing.canWin
        cases haddr : Chain.isAddress s.wallet with
        | false => simp
        | true => simpa using hall s hs haddr
      rw [hsame, List.take_append_of_le_length (hlong hrest)]
    · -- an address that won nothing is ahead of all the rest
      have hnone : rest.filter Standing.canWin = [] := by
        simp only [not_forall] at hall
        obtain ⟨s, hs, -, hpos⟩ := hall
        rw [List.filter_eq_nil_iff]
        intro q hq hwin
        have hq0 : 0 < q.pnl := (of_decide_eq_true hwin).2
        exact hpos (Int64.lt_of_lt_of_le hq0 (hcross s hs q hq))
      rw [hnone, List.append_nil]

/-- Every share goes to one line. -/
theorem map_zipWith_right {α β γ δ : Type} {f : α → β → γ} {g : γ → δ} {k : β → δ}
    (h : ∀ a b, g (f a b) = k b) (as : List α) (bs : List β) :
    (List.zipWith f as bs).map g = (bs.take as.length).map k := by
  induction as generalizing bs with
  | nil => simp
  | cons a as ih =>
    cases bs with
    | nil => rfl
    | cons b bs => simp only [List.zipWith_cons_cons, List.map_cons, List.length_cons,
        List.take_succ_cons, h, ih]

theorem map_zipWith_left {α β γ δ : Type} {f : α → β → γ} {g : γ → δ} {k : α → δ}
    (h : ∀ a b, g (f a b) = k a) (as : List α) (bs : List β) :
    (List.zipWith f as bs).map g = (as.take bs.length).map k := by
  induction as generalizing bs with
  | nil => simp
  | cons a as ih =>
    cases bs with
    | nil => rfl
    | cons b bs => simp only [List.zipWith_cons_cons, List.map_cons, List.length_cons,
        List.take_succ_cons, h, ih]

/-- When every wallet is an address, every line is published. -/
theorem publicationOf_lists {week : Week} {strategy : String} {ws : List Winner}
    (h : ∀ w ∈ ws, Chain.isAddress w.wallet) :
    ((publicationOf week strategy ws).winners.map some =
        ws.map fun w => (Chain.parseAddress w.wallet).toOption) ∧
      (publicationOf week strategy ws).amounts = ws.map (fun w => BitVec.ofNat 256 w.amount) ∧
      (publicationOf week strategy ws).pnls =
        ws.map fun w => BitVec.ofInt 128 (collateralMicros w.pnl) := by
  simp only [publicationOf]
  induction ws with
  | nil => exact ⟨rfl, rfl, rfl⟩
  | cons w ws ih =>
    obtain ⟨a, ha⟩ := Option.isSome_iff_exists.mp (h w List.mem_cons_self)
    obtain ⟨hwinners, hamounts, hpnls⟩ := ih fun w hw => h w (List.mem_cons_of_mem _ hw)
    simp only [List.filterMap_cons, ha, Option.map_some, List.map_cons, hwinners, hamounts, hpnls,
      and_self]

/-- The shares of a pool add up to no more than the pool. -/
theorem shares_le (pool n : Nat) :
    ((prizeShares.map fun share => pool * share / 100).take n).sum ≤ pool := by
  have hsplit : pool * 50 / 100 + (pool * 30 / 100 + pool * 20 / 100) ≤ pool := by omega
  match n with
  | 0 => exact Nat.zero_le pool
  | 1 =>
    change pool * 50 / 100 + 0 ≤ pool
    omega
  | 2 =>
    change pool * 50 / 100 + (pool * 30 / 100 + 0) ≤ pool
    omega
  | n + 3 =>
    rw [List.take_of_length_le (by simp [prizeShares])]
    change pool * 50 / 100 + (pool * 30 / 100 + (pool * 20 / 100 + 0)) ≤ pool
    omega

/-- Every share is part of the pool. -/
theorem share_le {pool v : Nat} (h : v ∈ prizeShares.map fun share => pool * share / 100) :
    v ≤ pool := by
  obtain ⟨share, hshare, rfl⟩ := List.mem_map.mp h
  have hle : share ≤ 50 := (by decide : ∀ share ∈ prizeShares, share ≤ 50) share hshare
  exact Nat.div_le_of_le_mul (by rw [Nat.mul_comm 100]; exact Nat.mul_le_mul_left _ (by omega))

/-- A result in micros, as it is published. -/
theorem micros_toInt (d : D) : (BitVec.ofInt 128 (collateralMicros d)).toInt = d.toInt / 100 := by
  have hlow : -2 ^ 63 ≤ d.toInt := Int64.le_toInt d
  have hhigh : d.toInt < 2 ^ 63 := Int64.toInt_lt d
  have hdiv : collateralMicros d = d.toInt / 100 := rfl
  rw [hdiv]
  exact BitVec.toInt_ofInt_eq_self (by decide) (by omega) (by omega)

/-! ## What is published -/

section Publication

variable {j : Journal} {since till : Time} {strategy : String} {rows : List BoardRow}
  {pool : Amount} {ranked : List Standing}

/-- A strategy's wallets in the order of their results. -/
structure Journal.Order (j : Journal) (since till : Time) (strategy : String)
    (order : List String) : Prop where
  nodup : order.Nodup
  mem : ∀ wallet, wallet ∈ order ↔ j.resultsOf since till strategy wallet ≠ []
  sorted : order.Pairwise fun a b => j.sumOf since till strategy b ≤ j.sumOf since till strategy a

/-- Whether a prize can go to a wallet. -/
def Journal.canWin (j : Journal) (since till : Time) (strategy wallet : String) : Bool :=
  Chain.isAddress wallet ∧ 0 < j.sumOf since till strategy wallet

/-- What is published of some wallets: their addresses, their shares of the pool and their results
in micros, in three lists of one length. -/
structure Publication.Awards (p : Publication) (j : Journal) (since till : Time)
    (pool : Amount) (first : List String) : Prop where
  winners : p.winners.map some = first.map fun w => (Chain.parseAddress w).toOption
  amounts : p.amounts.map BitVec.toNat =
    (prizeShares.map fun share => pool.toNat * share / 100).take first.length
  pnls : p.pnls.map BitVec.toInt = first.map fun w => j.sumOf since till p.strategy w / 100
  lengths : p.winners.length = p.amounts.length ∧ p.winners.length = p.pnls.length
  total : Contract.totalOf p.amounts ≤ pool.toNat
  distinct : (∀ w ∈ first, ∀ w' ∈ first, Chain.parseAddress w = Chain.parseAddress w' → w = w') →
    p.winners.Nodup

/-- However the truncated board is ranked, it starts an order of all the strategy's wallets. -/
theorem Journal.exists_order (hboards : j.boards since till 10 = .ok rows)
    (hranked : Ranked (topOf rows strategy) ranked)
    (hseven : ((topOf rows strategy).filter fun s => ¬ Chain.isAddress s.wallet).length ≤ 7) :
    ∃ all : List Standing, all.Perm (j.standings since till strategy) ∧
      (all.Pairwise fun a b => b.pnl ≤ a.pnl) ∧
      (all.filter Standing.canWin).take 3 = (ranked.filter Standing.canWin).take 3 := by
  have htop := topOf_boards hboards strategy
  generalize hsorted : (j.standings since till strategy).insertionSort Standing.ahead = sorted
    at htop
  have hperm : sorted.Perm (j.standings since till strategy) :=
    hsorted ▸ List.perm_insertionSort _ _
  have hahead : sorted.Pairwise Standing.ahead := hsorted ▸ List.pairwise_insertionSort _ _
  have hpair : sorted.Pairwise fun a b => b.pnl ≤ a.pnl := hahead.imp Standing.ahead.pnl_le
  rw [← List.take_append_drop 10 sorted, List.pairwise_append] at hpair
  obtain ⟨-, hrest, hcross⟩ := hpair
  have hall : (ranked ++ sorted.drop 10).Pairwise fun a b => b.pnl ≤ a.pnl := by
    refine List.pairwise_append.mpr ⟨hranked.sorted, hrest, fun a ha b hb => ?_⟩
    exact hcross a (htop ▸ hranked.perm.mem_iff.mp ha) b hb
  refine ⟨ranked ++ sorted.drop 10, ?_, hall, take_canWin hall fun hne => ?_⟩
  · refine List.Perm.trans ?_ hperm
    conv_rhs => rw [← List.take_append_drop 10 sorted]
    exact (htop ▸ hranked.perm).append_right _
  · -- ten wallets are ranked, and at most seven of them are not addresses
    have hten : ranked.length = 10 := by
      have hlong : 10 < sorted.length := by
        by_contra hle
        exact hne (List.drop_eq_nil_of_le (by omega))
      rw [hranked.perm.length_eq, htop, List.length_take]
      omega
    have hsplit := ranked.length_eq_length_filter_add fun s => Chain.isAddress s.wallet
    have hother : (ranked.filter fun s => ! Chain.isAddress s.wallet).length ≤ 7 := by
      rw [(hranked.perm.filter _).length_eq]
      simpa using hseven
    omega

/-- Two texts read to the same address, when the first is read at all. -/
theorem parseAddress_inj {w w' : String} (h : Chain.isAddress w)
    (heq : (Chain.parseAddress w).toOption = (Chain.parseAddress w').toOption) :
    Chain.parseAddress w = Chain.parseAddress w' := by
  unfold Chain.isAddress at h
  cases hw : Chain.parseAddress w with
  | error e =>
    rw [hw] at h
    cases h
  | ok a =>
    cases hw' : Chain.parseAddress w' with
    | error e =>
      rw [hw, hw'] at heq
      cases heq
    | ok a' =>
      rw [hw, hw'] at heq
      exact congrArg Except.ok (Option.some.inj heq)

/-- What is published of lines that are all addresses. -/
theorem publicationOf_awards {week : Week} {first : List Standing}
    (haddr : ∀ s ∈ first, Chain.isAddress s.wallet)
    (hpnl : ∀ s ∈ first, s.pnl.toInt = j.sumOf since till strategy s.wallet)
    (hnodup : (first.map Standing.wallet).Nodup) (hthree : first.length ≤ 3) :
    (publicationOf week strategy (List.zipWith (award pool.toNat) prizeShares first)).Awards
      j since till pool (first.map Standing.wallet) := by
  have htaken : first.take prizeShares.length = first := List.take_of_length_le hthree
  obtain ⟨ws, hws⟩ : ∃ ws, ws = List.zipWith (award pool.toNat) prizeShares first := ⟨_, rfl⟩
  have hwallets : ws.map Winner.wallet = first.map Standing.wallet := by
    rw [hws, map_zipWith_right (fun _ _ => rfl : ∀ share s,
      (award pool.toNat share s).wallet = Standing.wallet s), htaken]
  have hresults : ws.map Winner.pnl = first.map Standing.pnl := by
    rw [hws, map_zipWith_right (fun _ _ => rfl : ∀ share s,
      (award pool.toNat share s).pnl = Standing.pnl s), htaken]
  have hamounts : ws.map Winner.amount =
      (prizeShares.map fun share => pool.toNat * share / 100).take first.length := by
    rw [hws, map_zipWith_left (fun _ _ => rfl : ∀ share s, (award pool.toNat share s).amount =
      (fun share => pool.toNat * share / 100) share), List.map_take]
    rfl
  have hall : ∀ w ∈ ws, Chain.isAddress w.wallet := by
    intro w hw
    obtain ⟨s, hs, heq⟩ := List.mem_map.mp (hwallets ▸ List.mem_map_of_mem hw)
    exact heq ▸ haddr s hs
  obtain ⟨hlist, hword, hmicros⟩ : (publicationOf week strategy ws).winners.map some = _ ∧ _ :=
    publicationOf_lists hall
  have hamount : ∀ w ∈ ws, (BitVec.ofNat 256 w.amount).toNat = w.amount := by
    intro w hw
    have hmem : w.amount ∈ (prizeShares.map fun share => pool.toNat * share / 100) :=
      List.mem_of_mem_take (hamounts ▸ List.mem_map_of_mem hw)
    rw [BitVec.toNat_ofNat]
    exact Nat.mod_eq_of_lt (Nat.lt_of_le_of_lt (share_le hmem) pool.isLt)
  have hwords : (publicationOf week strategy ws).amounts.map BitVec.toNat =
      (prizeShares.map fun share => pool.toNat * share / 100).take first.length := by
    rw [hword, List.map_map, ← hamounts]
    exact List.map_congr_left hamount
  have hlen : (publicationOf week strategy ws).winners.length = ws.length := by
    simpa using congrArg List.length hlist
  have hread : (publicationOf week strategy ws).winners.map some =
      (first.map Standing.wallet).map fun w => (Chain.parseAddress w).toOption := by
    rw [hlist, ← hwallets, List.map_map]
    rfl
  rw [← hws]
  refine ⟨hread, ?_, ?_, ⟨?_, ?_⟩, ?_, fun hdistinct => ?_⟩
  · rw [hwords, List.length_map]
  · rw [hmicros, List.map_map, List.map_map]
    have hpnls : ws.map (fun w => w.pnl.toInt / 100) = first.map fun s => s.pnl.toInt / 100 := by
      have := congrArg (List.map fun d : D => d.toInt / 100) hresults
      rwa [List.map_map, List.map_map] at this
    calc ws.map _ = ws.map (fun w => w.pnl.toInt / 100) :=
          List.map_congr_left fun w _ => micros_toInt w.pnl
      _ = _ := hpnls
      _ = _ := List.map_congr_left fun s hs => congrArg (· / 100) (hpnl s hs)
  · rw [hlen, hword, List.length_map]
  · rw [hlen, hmicros, List.length_map]
  · rw [Contract.totalOf, hwords]
    exact shares_le _ _
  · -- the addresses are read from texts that stand once in the list
    have hsome : ((publicationOf week strategy ws).winners.map some).Nodup := by
      rw [hread]
      refine List.Nodup.map_on (fun w hw w' hw' heq => hdistinct w hw w' hw' ?_) hnodup
      obtain ⟨s, hs, rfl⟩ := List.mem_map.mp hw
      exact parseAddress_inj (haddr s hs) heq
    exact List.Nodup.of_map _ hsome

/-- For every journal whose weekly sums decimals hold, every strategy and every pool: whatever way
the best ten are ranked, what is published awards the first three wallets that are addresses and
won something, and the contract does not refuse it for its lengths or its total as long as the pool
has not shrunk. -/
theorem settlement_awards (j : Journal) (since till : Time) (strategy : String) (week : Week)
    (pool : Amount) (hfits : ∀ p ∈ j.players since till, j.Holds since till p) :
    ∃ rows, j.boards since till 10 = .ok rows ∧
      ∀ ranked, Ranked (topOf rows strategy) ranked →
        ((topOf rows strategy).filter fun s => ¬ Chain.isAddress s.wallet).length ≤ 7 →
        ∃ order, j.Order since till strategy order ∧
          (publicationOf week strategy (winners pool.toNat prizeShares ranked)).Awards j since till
            pool ((order.filter (j.canWin since till strategy)).take 3) ∧
          ∀ {τ : Type} (this : Address) (msg : Contract.Msg) (key : Strategy)
            (c : Contract.Chain τ), pool ≤ c.storage.pool (week, key) →
            ∀ e, Contract.settle this msg week key
              (publicationOf week strategy (winners pool.toNat prizeShares ranked)).winners
              (publicationOf week strategy (winners pool.toNat prizeShares ranked)).amounts
              (publicationOf week strategy (winners pool.toNat prizeShares ranked)).pnls c =
                .error e →
              e ≠ .lengthMismatch ∧ ∀ wanted available, e ≠ .exceedsPool wanted available := by
  obtain ⟨rows, hboards⟩ : ∃ rows, j.boards since till 10 = .ok rows :=
    ⟨_, Journal.boards_eq_ok.mpr ⟨hfits, rfl⟩⟩
  refine ⟨rows, hboards, fun ranked hranked hseven => ?_⟩
  obtain ⟨all, hperm, hsorted, htake⟩ := Journal.exists_order hboards hranked hseven
  obtain ⟨hnodup, hmem⟩ : ((j.standings since till strategy).map Standing.wallet).Nodup ∧ _ :=
    Journal.standings_nodup
  have hpnl : ∀ s ∈ all, s.pnl.toInt = j.sumOf since till strategy s.wallet := fun s hs =>
    (Journal.standings_pnl hfits (hperm.mem_iff.mp hs)).1
  have horder : j.Order since till strategy (all.map Standing.wallet) := by
    constructor
    · exact (hperm.map _).nodup_iff.mpr hnodup
    · intro wallet
      rw [(hperm.map _).mem_iff]
      exact hmem wallet
    · rw [List.pairwise_map]
      refine hsorted.imp_of_mem fun {a b} ha hb hle => ?_
      rw [← hpnl a ha, ← hpnl b hb]
      exact Int64.le_iff_toInt_le.mp hle
  have hfilter : (all.map Standing.wallet).filter (j.canWin since till strategy) =
      (all.filter Standing.canWin).map Standing.wallet := by
    rw [List.filter_map]
    refine congrArg _ (List.filter_congr fun s hs => ?_)
    simp only [Function.comp_apply, Journal.canWin, Standing.canWin, ← hpnl s hs,
      Int64.lt_iff_toInt_lt, Int64.toInt_zero]
  have hawards : (publicationOf week strategy (winners pool.toNat prizeShares ranked)).Awards
      j since till pool (((all.map Standing.wallet).filter (j.canWin since till strategy)).take 3) := by
    have hall : ∀ s ∈ (ranked.filter Standing.canWin).take 3, s ∈ all ∧ s.canWin = true := by
      intro s hs
      rw [← htake] at hs
      exact List.mem_filter.mp (List.mem_of_mem_take hs)
    rw [hfilter, ← List.map_take, htake, winners_eq hranked.sorted]
    apply publicationOf_awards
    · exact fun s hs => (of_decide_eq_true (hall s hs).2).1
    · exact fun s hs => hpnl s (hall s hs).1
    · change (((ranked.filter Standing.canWin).take 3).map Standing.wallet).Nodup
      rw [← htake, List.map_take]
      have hsub : ((all.filter Standing.canWin).map Standing.wallet).Sublist
          (all.map Standing.wallet) := List.filter_sublist.map _
      exact (horder.nodup.sublist hsub).sublist (List.take_sublist _ _)
    · exact List.length_take_le _ _
  refine ⟨_, horder, hawards, fun this msg key c hpool e he => ?_⟩
  obtain ⟨hlen, hlen'⟩ := hawards.lengths
  have hle : Contract.totalOf _ ≤ (c.storage.pool (week, key)).toNat :=
    hawards.total.trans (BitVec.le_def.mp hpool)
  rcases Contract.settle_error he with rfl | rfl | rfl | rfl | ⟨rfl, hdiff⟩ | ⟨total, rfl, hover⟩
  · exact ⟨by simp, by simp⟩
  · exact ⟨by simp, by simp⟩
  · exact ⟨by simp, by simp⟩
  · exact ⟨by simp, by simp⟩
  · rcases hdiff with h | h
    · exact absurd hlen h
    · exact absurd hlen' h
  · exact absurd hle (Nat.not_le.mpr hover)

end Publication

/-! ## One wallet, and one address twice -/

/-- A round trip under strategy `x` that was completed at the zero time. -/
def wonRow (id : Nat) (wallet : String) (pnl : D) : TradeRow where
  id
  wallet
  strategy := "x"
  symbol := "BTC"
  openOrderID := toString id
  side := .long
  size := 1
  entryPrice := 1
  entryFee := 0
  entryBuilderFee := some 0
  terms := ⟨none, none, none, none⟩
  openedAt := 0
  exit := some {
    orderID := "", pnl, closedAt := 0, price := 1, fee := 0, builderFee := 0, reason := .manual,
    worst := none, best := none }

/-- An address without the prefix. -/
def bareWallet : String := "00000000000000000000000000000000000000ab"

/-- One wallet won. -/
def oneWinner : Journal := ⟨[wonRow 0 ("0x" ++ bareWallet) 500], 1⟩

theorem settlement_awards_one : ∃ rows, oneWinner.boards 0 1 10 = .ok rows ∧
    ∃ order, oneWinner.Order 0 1 "x" order ∧
      (publicationOf 2900 "x" (winners 1000 prizeShares (topOf rows "x"))).Awards oneWinner 0 1
        1000 ((order.filter (oneWinner.canWin 0 1 "x")).take 3) := by
  have hfits : ∀ p ∈ oneWinner.players 0 1, oneWinner.Holds 0 1 p := by
    unfold Journal.Holds
    decide
  obtain ⟨rows, hrows, hall⟩ := settlement_awards oneWinner 0 1 "x" 2900 1000 hfits
  have htop : topOf rows "x" = [⟨"0x" ++ bareWallet, 500, 1⟩] := by
    rw [Journal.topOf_boards hrows]
    decide
  have hranked : Ranked (topOf rows "x") (topOf rows "x") :=
    ⟨List.Perm.refl _, htop ▸ List.pairwise_singleton _ _⟩
  obtain ⟨order, horder, hawards, -⟩ := hall _ hranked (by rw [htop]; decide)
  exact ⟨rows, hrows, order, horder, hawards⟩

/-- Two wallets in lower case that are texts of one address. -/
def twoTexts : Journal := ⟨[wonRow 0 ("0x" ++ bareWallet) 500, wonRow 1 bareWallet 300], 2⟩

/-- A week whose sum no decimal holds. -/
def largeWeek : Journal :=
  ⟨[wonRow 0 ("0x" ++ bareWallet) Int64.maxValue, wonRow 1 ("0x" ++ bareWallet) 1], 2⟩

/-- The same address is published twice, and of a week whose sum no decimal holds nothing is. -/
theorem settlement_repeats_address :
    (∃ rows, twoTexts.boards 0 1 10 = .ok rows ∧ Ranked (topOf rows "x") (topOf rows "x") ∧
      ¬ (publicationOf 2900 "x" (winners 1000 prizeShares (topOf rows "x"))).winners.Nodup) ∧
    ∀ rows, largeWeek.boards 0 1 10 ≠ .ok rows := by
  constructor
  · have hfits : ∀ p ∈ twoTexts.players 0 1, twoTexts.Holds 0 1 p := by
      unfold Journal.Holds
      decide
    obtain ⟨rows, hrows⟩ : ∃ rows, twoTexts.boards 0 1 10 = .ok rows :=
      ⟨_, Journal.boards_eq_ok.mpr ⟨hfits, rfl⟩⟩
    have htop : topOf rows "x" = [⟨"0x" ++ bareWallet, 500, 1⟩, ⟨bareWallet, 300, 1⟩] := by
      rw [Journal.topOf_boards hrows]
      decide
    refine ⟨rows, hrows, ⟨List.Perm.refl _, ?_⟩, ?_⟩
    · rw [htop]
      decide
    · rw [htop]
      decide
  · intro rows h
    obtain ⟨hfits, -⟩ := Journal.boards_eq_ok.mp h
    have hholds : largeWeek.Holds 0 1 ("x", "0x" ++ bareWallet) := hfits _ (by decide)
    revert hholds
    unfold Journal.Holds
    decide

end SuperAgent.Platform
