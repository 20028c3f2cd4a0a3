import SuperAgent.Contract.Accounting
import SuperAgent.Contract.TestToken

/-!
# Solvency of the prize contract

The accounting of single calls, carried along every sequence of calls: the
contract always holds what it owes, pays each prize at most once, and no claim
or sweep runs out of tokens.
-/

namespace SuperAgent.Contract

variable {τ : Type} {tok : IERC20 τ} {this : Address}

/-! ## Reading the journal -/

/-- One accepted call and the events it emitted. -/
abbrev Entry := Call × List Event

/-- The tokens an accepted call pays in through `fund`. -/
def Entry.paidIn (e : Entry) : ℕ :=
  match e.1.op with
  | .fund _ _ amount => amount.toNat
  | _ => 0

/-- The tokens an accepted call swept. -/
def Entry.swept (e : Entry) : ℕ :=
  (e.2.map fun | .swept _ amount => amount.toNat | _ => 0).sum

/-- The payouts of a prize an accepted call made. -/
def Entry.payouts (k : PrizeKey) (e : Entry) : List Amount :=
  e.2.filterMap fun
    | .claimed week strategy wallet amount =>
      if (week, strategy, wallet) = k then some amount else none
    | _ => none

/-- What an accepted call recorded as a prize. -/
def Entry.recorded (k : PrizeKey) (e : Entry) : ℕ :=
  match e.1.op with
  | .settle week strategy winners amounts _ =>
    if (week, strategy) = (k.1, k.2.1) then awarded k.2.2 (winners.zip amounts) else 0
  | _ => 0

/-- All tokens ever paid in through `fund`. -/
def World.paidIn (w : World τ) : ℕ := (w.journal.map Entry.paidIn).sum

/-- All tokens ever swept. -/
def World.swept (w : World τ) : ℕ := (w.journal.map Entry.swept).sum

/-- Every payout of a prize, oldest first. -/
def World.payouts (w : World τ) (k : PrizeKey) : List Amount :=
  w.journal.flatMap (Entry.payouts k)

/-- All that settlements recorded as a prize. -/
def World.recorded (w : World τ) (k : PrizeKey) : ℕ := (w.journal.map (Entry.recorded k)).sum

/-! ## What an accepted call does -/

variable {c c' : Chain τ} {call : Call} {events : List Event} {week : Week} {strategy : Strategy}

/-- Events that report tokens leaving the contract. -/
def Event.paysOut : Event → Bool
  | .swept _ _ => true
  | .claimed _ _ _ _ => true
  | _ => false

/-- An entry none of whose events pays out neither sweeps nor pays a prize. -/
theorem Entry.silent {e : Entry} (h : ∀ ev ∈ e.2, ev.paysOut = false) :
    e.swept = 0 ∧ ∀ k, e.payouts k = [] := by
  constructor
  · refine List.sum_eq_zero fun n hn => ?_
    obtain ⟨ev, hev, rfl⟩ := List.mem_map.mp hn
    have := h ev hev
    cases ev <;> simp_all [Event.paysOut]
  · intro k
    rw [Entry.payouts, List.filterMap_eq_nil_iff]
    intro ev hev
    have := h ev hev
    cases ev <;> simp_all [Event.paysOut]

/-- What `carry` emits pays nothing out. -/
theorem carry_silent {carried : Amount} {s s' : Storage}
    (h : carry this week strategy carried s = .ok (s', events)) :
    ∀ ev ∈ events, ev.paysOut = false := by
  unfold carry at h
  by_cases hz : carried = 0
  · rw [if_pos hz] at h
    cases h
    exact nofun
  · simp only [if_neg hz, bind_eq_ok] at h
    obtain ⟨_, _, _, _, _, _, h⟩ := h
    cases h
    simp [Event.paysOut]

/-- What `rest` emits pays nothing out. -/
theorem rest_silent {available paid carried : Amount} {s s' : Storage}
    (h : rest this week strategy available paid s = .ok (s', carried, events)) :
    ∀ ev ∈ events, ev.paysOut = false := by
  simp only [rest, bind_eq_ok] at h
  obtain ⟨left, _, fresh, _, stale, _, ⟨mid, evs⟩, hc, h⟩ := h
  by_cases hz : stale = 0
  · rw [if_pos hz] at h
    cases h
    exact carry_silent hc
  · simp only [if_neg hz, bind_eq_ok] at h
    obtain ⟨_, _, h⟩ := h
    cases h
    intro ev hev
    rcases List.mem_append.mp hev with hev | hev
    · exact carry_silent hc ev hev
    · rw [List.mem_singleton.mp hev]
      rfl

/-- A settlement neither sweeps nor pays a prize. -/
theorem settle_silent {msg : Msg} {winners : List Address} {amounts : List Amount}
    {pnls : List (BitVec 128)}
    (h : settle this msg week strategy winners amounts pnls c = .ok (c', events)) :
    Entry.swept (⟨msg, .settle week strategy winners amounts pnls⟩, events) = 0 ∧
      ∀ k, Entry.payouts k (⟨msg, .settle week strategy winners amounts pnls⟩, events) = [] := by
  apply Entry.silent
  simp only [settle, bind_eq_ok] at h
  obtain ⟨_, _, _, _, _, _, _, _, _, _, _, _, _, _, _, _, ⟨_, _, evs⟩, hrest, h⟩ := h
  cases h
  intro ev hev
  rcases List.mem_append.mp hev with hev | hev
  · exact rest_silent hrest ev hev
  · rw [List.mem_singleton.mp hev]
    rfl

/-- Everything an accepted call can do to the chain, by entry point. -/
inductive Effect (tok : IERC20 τ) (this : Address) (c c' : Chain τ) (e : Entry) : Prop
  | admin (token : c'.token = c.token)
      (storage : ∃ o st, c'.storage = { c.storage with owner := o, settlers := st })
      (paidIn : e.paidIn = 0) (swept : e.swept = 0) (payouts : ∀ k, e.payouts k = [])
      (recorded : ∀ k, e.recorded k = 0)
  | fund (k : Slot) (amount total : Amount) (unsettled : c.storage.settled k = false)
      (pays : tok.transferFrom c.token this e.1.msg.sender this amount.toNat = some c'.token)
      (adds : (c.storage.pool k).toNat + amount.toNat = total.toNat)
      (storage : c'.storage =
        { c.storage with pool := Function.update c.storage.pool k total })
      (paidIn : e.paidIn = amount.toNat) (swept : e.swept = 0) (payouts : ∀ k, e.payouts k = [])
      (recorded : ∀ k, e.recorded k = 0)
  | settle (week : Week) (strategy : Strategy) (winners : List Address) (amounts : List Amount)
      (carried stale : ℕ) (op : ∃ pnls, e.1.op = .settle week strategy winners amounts pnls)
      (token : c'.token = c.token)
      (settlement : Settlement c.storage c'.storage week strategy winners amounts carried stale)
      (paidIn : e.paidIn = 0) (swept : e.swept = 0) (payouts : ∀ k, e.payouts k = [])
      (recorded : ∀ k, e.recorded k =
        if (week, strategy) = (k.1, k.2.1) then awarded k.2.2 (winners.zip amounts) else 0)
  | sweep (dst : Address)
      (pays : tok.transfer c.token this dst c.storage.retained.toNat = some c'.token)
      (storage : c'.storage = { c.storage with retained := 0 })
      (paidIn : e.paidIn = 0) (swept : e.swept = c.storage.retained.toNat)
      (payouts : ∀ k, e.payouts k = []) (recorded : ∀ k, e.recorded k = 0)
  | claim (week : Week) (strategy : Strategy) (wallet : Address)
      (settled : c.storage.settled (week, strategy) = true)
      (unclaimed : c.storage.claimed (week, strategy, wallet) = false)
      (pays : tok.transfer c.token this wallet
        (c.storage.prizes (week, strategy, wallet)).toNat = some c'.token)
      (storage : c'.storage = { c.storage with
        claimed := Function.update c.storage.claimed (week, strategy, wallet) true })
      (paidIn : e.paidIn = 0) (swept : e.swept = 0)
      (payouts : ∀ k, e.payouts k = if (week, strategy, wallet) = k then
        [c.storage.prizes (week, strategy, wallet)] else [])
      (recorded : ∀ k, e.recorded k = 0)

/-- An accepted call has the effect of its entry point. -/
theorem exec_effect (h : call.exec tok this c = .ok (c', events)) :
    Effect tok this c c' (call, events) := by
  obtain ⟨msg, op⟩ := call
  cases op with
  | setSettler a b =>
    simp only [Call.exec, setSettler, bind_eq_ok] at h
    obtain ⟨_, _, h⟩ := h
    cases h
    exact .admin rfl ⟨_, _, rfl⟩ rfl rfl (fun _ => rfl) fun _ => rfl
  | setOwner a =>
    simp only [Call.exec, setOwner, bind_eq_ok] at h
    obtain ⟨_, _, h⟩ := h
    cases h
    exact .admin rfl ⟨_, _, rfl⟩ rfl rfl (fun _ => rfl) fun _ => rfl
  | fund week strategy amount =>
    obtain ⟨hun, _, hpays, total, hadds, hs, rfl⟩ := fund_spec h
    exact .fund (week, strategy) amount total hun hpays hadds hs rfl rfl (fun _ => rfl) fun _ => rfl
  | settle week strategy winners amounts pnls =>
    obtain ⟨ht, carried, stale, before, hs, hev⟩ := settle_spec h
    obtain ⟨hsw, hpay⟩ := settle_silent h
    exact .settle week strategy winners amounts carried.toNat stale ⟨pnls, rfl⟩ ht hs rfl hsw hpay
      fun _ => rfl
  | sweep dst =>
    obtain ⟨_, hpays, hs, rfl⟩ := sweep_spec h
    exact .sweep dst hpays hs rfl (by simp [Entry.swept]) (fun _ => rfl) fun _ => rfl
  | claim week strategy =>
    obtain ⟨hset, _, hun, hpays, hs, rfl⟩ := claim_spec h
    refine .claim week strategy msg.sender hset hun hpays hs rfl rfl (fun k => ?_) fun _ => rfl
    by_cases hk : (week, strategy, msg.sender) = k
    · simp only [Entry.payouts, if_pos hk, List.filterMap_cons, List.filterMap_nil]
    · simp only [Entry.payouts, if_neg hk, List.filterMap_cons, List.filterMap_nil]

/-! ## What holds after every sequence of calls -/

/-- The invariant of the contract over its whole history. -/
structure World.Sound (tok : IERC20 τ) (this : Address) (w : World τ) : Prop where
  /-- The contract lets nobody spend its tokens. -/
  allowance : ∀ b, tok.allowance w.chain.token this b = 0
  /-- Nothing is claimed before its slot is settled. -/
  fresh : ∀ week strategy a, w.chain.storage.settled (week, strategy) = false →
    w.chain.storage.claimed (week, strategy, a) = false
  /-- An unsettled pool holds at least what was carried into it. -/
  carriedIn : ∀ k, w.chain.storage.settled k = false →
    (w.chain.storage.carriedIn k).toNat ≤ (w.chain.storage.pool k).toNat
  recorded : ∀ k, (w.chain.storage.prizes k).toNat = w.recorded k
  payouts : ∀ k, w.payouts k =
    if w.chain.storage.claimed k = true then [w.chain.storage.prizes k] else []
  solvent : w.chain.storage.retained.toNat + w.chain.storage.unsettledPools +
    w.chain.storage.unclaimedPrizes ≤ tok.balanceOf w.chain.token this

theorem World.Deployed.sound {w : World τ} (h : World.Deployed tok this w) :
    w.Sound tok this := by
  obtain ⟨hallow⟩ := h
  exact {
    allowance := hallow
    fresh := fun _ _ _ _ => rfl
    carriedIn := fun _ _ => le_rfl
    recorded := fun _ => rfl
    payouts := fun _ => rfl
    solvent := by
      simp [deploy, Storage.unsettledPools, Storage.unclaimedPrizes] }

section Step

variable {w w' : World τ} {e : Entry}

/-- Recording an entry appends what it pays out and adds what it recorded. -/
theorem World.journal_snoc (chain : Chain τ) (j : List Entry) (e : Entry) :
    (⟨chain, j ++ [e]⟩ : World τ).paidIn = (⟨chain, j⟩ : World τ).paidIn + e.paidIn ∧
    (⟨chain, j ++ [e]⟩ : World τ).swept = (⟨chain, j⟩ : World τ).swept + e.swept ∧
    (∀ k, (⟨chain, j ++ [e]⟩ : World τ).payouts k =
      (⟨chain, j⟩ : World τ).payouts k ++ e.payouts k) ∧
    ∀ k, (⟨chain, j ++ [e]⟩ : World τ).recorded k =
      (⟨chain, j⟩ : World τ).recorded k + e.recorded k := by
  simp [World.paidIn, World.swept, World.payouts, World.recorded]

/-- The tokens the contract holds after an accepted call: a call never spends more than
it takes off what the contract owes. -/
theorem Effect.solvent (h : Effect tok this w.chain w'.chain e) (hw : w.Sound tok this) :
    w'.chain.storage.retained.toNat + w'.chain.storage.unsettledPools +
      w'.chain.storage.unclaimedPrizes ≤ tok.balanceOf w'.chain.token this := by
  have hs := hw.solvent
  cases h with
  | admin token storage =>
    obtain ⟨o, st, hst⟩ := storage
    rw [hst, token]
    exact hs
  | fund k amount total unsettled pays adds storage =>
    obtain ⟨_, hallow, hmoves⟩ := tok.transferFrom_moves pays
    have hb := hmoves this
    have hpools := unsettledPools_fund unsettled adds
    rw [storage, hpools]
    -- the contract cannot fund itself: it gives no allowance, so nothing would move
    by_cases hself : this = e.1.msg.sender
    · rw [← hself, hw.allowance] at hallow
      rw [if_pos hself] at hb
      simp only [Storage.unclaimedPrizes, if_true] at hs hb ⊢
      omega
    · rw [if_neg hself] at hb
      simp only [Storage.unclaimedPrizes, if_true] at hs hb ⊢
      omega
  | settle week strategy winners amounts carried stale op token settlement =>
    have hpools := settlement.unsettledPools
    have hprizes := settlement.unclaimedPrizes
      fun a => hw.fresh week strategy a settlement.unsettled
    have hsplit := settlement.split
    have hret := settlement.retained'
    have hland : w.chain.storage.landed week strategy carried ≤ carried := by
      unfold Storage.landed
      split <;> omega
    rw [token]
    omega
  | sweep dst pays storage =>
    obtain ⟨hle, hmoves⟩ := tok.transfer_moves pays
    have hb := hmoves this
    rw [if_pos rfl] at hb
    have hz : (0 : Amount).toNat = 0 := rfl
    rw [storage]
    simp only [Storage.unsettledPools, Storage.unclaimedPrizes] at hs ⊢
    omega
  | claim week strategy wallet settled unclaimed pays storage =>
    obtain ⟨hle, hmoves⟩ := tok.transfer_moves pays
    have hb := hmoves this
    rw [if_pos rfl] at hb
    have hprizes := (prizes_claim unclaimed).1
    rw [storage]
    simp only [Storage.unsettledPools] at hs hprizes ⊢
    omega

/-- Every accepted call keeps the invariant. -/
theorem World.Sound.accepted (hw : w.Sound tok this)
    (h : Effect tok this w.chain w'.chain e) (hj : w'.journal = w.journal ++ [e]) :
    w'.Sound tok this := by
  obtain ⟨_, _, hpay, hrec⟩ := World.journal_snoc w'.chain w.journal e
  have hpay' : ∀ k, w'.payouts k = w.payouts k ++ e.payouts k := by
    intro k
    have := hpay k
    rwa [← hj] at this
  have hrec' : ∀ k, w'.recorded k = w.recorded k + e.recorded k := by
    intro k
    have := hrec k
    rwa [← hj] at this
  have hsolvent := h.solvent hw
  cases h with
  | admin token storage paidIn swept payouts recorded =>
    obtain ⟨o, st, hst⟩ := storage
    refine ⟨by rw [token]; exact hw.allowance, ?_, ?_, ?_, ?_, hsolvent⟩
    · rw [hst]
      exact hw.fresh
    · rw [hst]
      exact hw.carriedIn
    · intro k
      rw [hrec', recorded, hst]
      exact hw.recorded k
    · intro k
      rw [hpay', payouts, List.append_nil, hst]
      exact hw.payouts k
  | fund k amount total unsettled pays adds storage paidIn swept payouts recorded =>
    refine ⟨fun b => ?_, ?_, ?_, ?_, ?_, hsolvent⟩
    · have := tok.transferFrom_allowance pays this b
      have := hw.allowance b
      omega
    · rw [storage]
      exact hw.fresh
    · intro j hj
      rw [storage] at hj ⊢
      have := hw.carriedIn j hj
      by_cases hjk : j = k
      · subst hjk
        simp only [Function.update_self]
        omega
      · simpa only [Function.update_of_ne hjk] using this
    · intro k
      rw [hrec', recorded, storage]
      exact hw.recorded k
    · intro k
      rw [hpay', payouts, List.append_nil, storage]
      exact hw.payouts k
  | settle week strategy winners amounts carried stale op token settlement paidIn swept payouts
      recorded =>
    have hfresh := fun a => hw.fresh week strategy a settlement.unsettled
    refine ⟨by rw [token]; exact hw.allowance, ?_, ?_, ?_, ?_, hsolvent⟩
    · intro wk st a hset
      rw [settlement.claimed']
      rw [settlement.settled'] at hset
      by_cases hk : (wk, st) = (week, strategy)
      · rw [hk, Function.update_self] at hset
        exact absurd hset nofun
      · rw [Function.update_of_ne hk] at hset
        exact hw.fresh wk st a hset
    · intro k hset
      rw [settlement.settled'] at hset
      by_cases hk : k = (week, strategy)
      · rw [hk, Function.update_self] at hset
        exact absurd hset nofun
      rw [Function.update_of_ne hk] at hset
      have := hw.carriedIn k hset
      by_cases hn : k = (week + 1, strategy)
      · subst hn
        have hp := settlement.pool_next
        have hc := settlement.carriedIn_next
        omega
      · rwa [settlement.carriedIn_other k hn, settlement.pool_other k hk hn]
    · rintro ⟨wk, st, a⟩
      rw [hrec', recorded, ← hw.recorded]
      by_cases hk : (week, strategy) = (wk, st)
      · obtain ⟨rfl, rfl⟩ := Prod.mk.inj hk
        rw [if_pos rfl]
        exact recordPrizes_toNat settlement.prizes' a
      · rw [if_neg hk, recordPrizes_other settlement.prizes' fun h => hk h.symm]
        rfl
    · rintro ⟨wk, st, a⟩
      rw [hpay', payouts, List.append_nil, settlement.claimed', hw.payouts]
      by_cases hc : w.chain.storage.claimed (wk, st, a) = true
      · have hk : (wk, st) ≠ (week, strategy) := by
          intro hk
          obtain ⟨rfl, rfl⟩ := Prod.mk.inj hk
          rw [hfresh] at hc
          exact absurd hc nofun
        rw [if_pos hc, if_pos hc, recordPrizes_other settlement.prizes' hk]
      · rw [if_neg hc, if_neg hc]
  | sweep dst pays storage paidIn swept payouts recorded =>
    refine ⟨fun b => ?_, ?_, ?_, ?_, ?_, hsolvent⟩
    · have := tok.transfer_allowance pays this b
      have := hw.allowance b
      omega
    · rw [storage]
      exact hw.fresh
    · rw [storage]
      exact hw.carriedIn
    · intro k
      rw [hrec', recorded, storage]
      exact hw.recorded k
    · intro k
      rw [hpay', payouts, List.append_nil, storage]
      exact hw.payouts k
  | claim week strategy wallet settled unclaimed pays storage paidIn swept payouts recorded =>
    refine ⟨fun b => ?_, ?_, ?_, ?_, ?_, hsolvent⟩
    · have := tok.transfer_allowance pays this b
      have := hw.allowance b
      omega
    · intro wk st a hset
      rw [storage] at hset ⊢
      have hk : (wk, st, a) ≠ (week, strategy, wallet) := by
        simp only [ne_eq, Prod.mk.injEq]
        rintro ⟨rfl, rfl, rfl⟩
        rw [settled] at hset
        exact absurd hset nofun
      simpa only [Function.update_of_ne hk] using hw.fresh wk st a hset
    · rw [storage]
      exact hw.carriedIn
    · intro k
      rw [hrec', recorded, storage]
      exact hw.recorded k
    · intro k
      rw [hpay', payouts, hw.payouts, storage]
      by_cases hk : (week, strategy, wallet) = k
      · subst hk
        simp [unclaimed]
      · rw [if_neg hk, List.append_nil]
        simp only [Function.update_of_ne fun h => hk h.symm]

/-- Every event on the chain keeps the invariant. -/
theorem World.Sound.step {a : Action τ} (hw : w.Sound tok this)
    (h : World.Step tok this w a w') : w'.Sound tok this := by
  cases h with
  | accepted hexec => exact hw.accepted (exec_effect hexec) rfl
  | reverted _ => exact hw
  | others hbalance hallowance =>
    exact { hw with
      allowance := fun b => Nat.le_zero.mp ((hallowance b).trans_eq (hw.allowance b))
      solvent := hw.solvent.trans hbalance }

end Step

/-- The invariant holds after every sequence of calls. -/
theorem World.Reachable.sound {w : World τ} (h : w.Reachable tok this) : w.Sound tok this := by
  obtain ⟨w₀, as, h₀, hrun⟩ := h
  exact hrun.invariant h₀.sound fun _ _ _ hw _ hs => hw.step hs

/-! ## Solvency -/

/-- The contract holds at least what it retained, the pools still to be settled and the prizes
still to be claimed; a prize is paid at most once and never beyond what was recorded; and so no
claim of a recorded prize and no sweep of a retained amount fails for lack of tokens. -/
theorem solvency {w : World τ} (h : w.Reachable tok this) :
    w.chain.storage.retained.toNat + w.chain.storage.unsettledPools +
      w.chain.storage.unclaimedPrizes ≤ tok.balanceOf w.chain.token this ∧
    (∀ k, (w.payouts k).length ≤ 1 ∧ ∀ v ∈ w.payouts k, v.toNat ≤ w.recorded k) ∧
    (∀ (msg : Msg) (week : Week) (strategy : Strategy),
      w.chain.storage.settled (week, strategy) = true →
      w.chain.storage.prizes (week, strategy, msg.sender) ≠ 0 →
      w.chain.storage.claimed (week, strategy, msg.sender) = false →
      ∃ r, claim tok this msg week strategy w.chain = .ok r) ∧
    ∀ (msg : Msg) (dst : Address), msg.sender = w.chain.storage.owner →
      w.chain.storage.retained ≠ 0 → ∃ r, sweep tok this msg dst w.chain = .ok r := by
  have hs := h.sound
  refine ⟨hs.solvent, fun k => ?_, ?_, ?_⟩
  · rw [hs.payouts]
    split
    · refine ⟨le_rfl, fun v hv => ?_⟩
      rw [List.mem_singleton.mp hv, hs.recorded]
    · exact ⟨Nat.zero_le _, nofun⟩
  · intro msg week strategy hset hprize hclaimed
    -- the prize is one of the unclaimed ones, whose sum the balance covers
    have hone := w.chain.storage.prize_le_unclaimedPrizes hclaimed
    have hle : (w.chain.storage.prizes (week, strategy, msg.sender)).toNat ≤
        tok.balanceOf w.chain.token this := by
      have := hs.solvent
      omega
    obtain ⟨u, hu⟩ := tok.transfer_pays msg.sender hle
    apply Exists.intro
    simp only [claim, bind_eq_ok, revertIf_eq_ok, orRevert_eq_ok]
    exact ⟨(), by simp [hset], (), by simpa [hclaimed] using hprize, u, hu, rfl⟩
  · intro msg dst howner hret
    have hle : w.chain.storage.retained.toNat ≤ tok.balanceOf w.chain.token this := by
      have := hs.solvent
      omega
    obtain ⟨u, hu⟩ := tok.transfer_pays dst hle
    apply Exists.intro
    simp only [sweep, bind_eq_ok, revertIf_eq_ok, orRevert_eq_ok]
    exact ⟨(), by simp [howner], (), hret, u, hu, rfl⟩

/-- The contract deployed over a token one wallet holds ten units of and approved it for. -/
def justDeployed : World TestToken :=
  ⟨⟨deploy 2 2, (TestToken.empty.mint 3 10).approve 3 1 TestToken.unlimited⟩, []⟩

theorem justDeployed_deployed : World.Deployed TestToken.erc20 1 justDeployed := by
  refine .mk fun b => ?_
  simp [TestToken.erc20, TestToken.approve, TestToken.mint, TestToken.empty]

/-- A week funded with ten units and settled with one winner of seven. -/
def wonWeek : World TestToken :=
  [⟨⟨3, 0⟩, .fund 1 5 10⟩, ⟨⟨2, 2000000⟩, .settle 1 5 [4] [7] [1]⟩].foldl
    (World.play TestToken.erc20 1) justDeployed

/-- After it the winner can claim. -/
theorem solvency_wonWeek :
    wonWeek.chain.storage.retained.toNat + wonWeek.chain.storage.unsettledPools +
      wonWeek.chain.storage.unclaimedPrizes ≤
        TestToken.erc20.balanceOf wonWeek.chain.token 1 ∧
    ∃ r, claim TestToken.erc20 1 ⟨4, 0⟩ 1 5 wonWeek.chain = .ok r := by
  have hw : wonWeek.Reachable TestToken.erc20 1 :=
    ⟨_, _, justDeployed_deployed, World.run_play _ _ _ _⟩
  have h := solvency hw
  exact ⟨h.1, h.2.2.1 ⟨4, 0⟩ 1 5 (by decide) (by decide) (by decide)⟩

end SuperAgent.Contract
