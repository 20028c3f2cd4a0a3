import SuperAgent.Contract.StrategyPrizePool

/-!
# What each call moves

One lemma for each entry point says what an accepted call found and what it
left; the sums over pools and prizes then follow from how a mapping's sum moves
with its entries. Nothing here depends on how the calls are ordered.
-/

namespace SuperAgent.Contract

variable {τ : Type} {tok : IERC20 τ} {this : Address} {msg : Msg} {c c' : Chain τ}
  {events : List Event} {week : Week} {strategy : Strategy}

/-- The tokens in the pools of every slot not settled yet. -/
noncomputable def Storage.unsettledPools (s : Storage) : ℕ :=
  ∑ k : Slot, if s.settled k = true then 0 else (s.pool k).toNat

/-- The recorded prizes nobody has taken yet. -/
noncomputable def Storage.unclaimedPrizes (s : Storage) : ℕ :=
  ∑ k : PrizeKey, if s.claimed k = true then 0 else (s.prizes k).toNat

/-- The recorded prizes that were taken. -/
noncomputable def Storage.claimedPrizes (s : Storage) : ℕ :=
  ∑ k : PrizeKey, if s.claimed k = true then (s.prizes k).toNat else 0

/-- What a list of winners and amounts awards one wallet. -/
def awarded (wallet : Address) : List (Address × Amount) → ℕ
  | [] => 0
  | (winner, a) :: rest => (if winner = wallet then a.toNat else 0) + awarded wallet rest

/-- What a list of amounts adds up to. -/
def totalOf (amounts : List Amount) : ℕ := (amounts.map BitVec.toNat).sum

/-- The published total is the sum of the published amounts. -/
theorem sumAmounts_toNat {start total : Amount} {amounts : List Amount}
    (h : sumAmounts start amounts = .ok total) : total.toNat = start.toNat + totalOf amounts := by
  induction amounts generalizing start with
  | nil =>
    cases h
    simp [totalOf]
  | cons a as ih =>
    obtain ⟨mid, hmid, h⟩ := bind_eq_ok.mp h
    have hadd := checkedAdd_eq_some.mp (orRevert_eq_ok.mp hmid)
    have htail := ih h
    simp only [totalOf, List.map_cons, List.sum_cons] at htail ⊢
    omega

/-- Recording prizes adds each wallet's awards to its own entry of the slot. -/
theorem recordPrizes_toNat {prizes prizes' : PrizeKey → Amount} {l : List (Address × Amount)}
    (h : recordPrizes week strategy prizes l = .ok prizes') (wallet : Address) :
    (prizes' (week, strategy, wallet)).toNat =
      (prizes (week, strategy, wallet)).toNat + awarded wallet l := by
  induction l generalizing prizes with
  | nil =>
    cases h
    rfl
  | cons p l ih =>
    obtain ⟨winner, a⟩ := p
    obtain ⟨prize, hprize, h⟩ := bind_eq_ok.mp h
    have hadd := checkedAdd_eq_some.mp (orRevert_eq_ok.mp hprize)
    rw [ih h, awarded]
    by_cases hw : winner = wallet
    · subst hw
      rw [Function.update_self, if_pos rfl]
      omega
    · have hne : (week, strategy, wallet) ≠ (week, strategy, winner) := by
        simpa using fun h => hw h.symm
      rw [Function.update_of_ne hne, if_neg hw]
      omega

/-- Recording prizes leaves every other slot alone. -/
theorem recordPrizes_other {prizes prizes' : PrizeKey → Amount} {l : List (Address × Amount)}
    (h : recordPrizes week strategy prizes l = .ok prizes') {k : PrizeKey}
    (hk : (k.1, k.2.1) ≠ (week, strategy)) : prizes' k = prizes k := by
  induction l generalizing prizes with
  | nil =>
    cases h
    rfl
  | cons p l ih =>
    obtain ⟨prize, _, h⟩ := bind_eq_ok.mp h
    rw [ih h]
    refine Function.update_of_ne ?_ _ _
    rintro rfl
    exact hk rfl

/-- Where nothing of the slot is claimed, recording adds the awards to the unclaimed prizes. -/
theorem recordPrizes_unclaimed {claimed : PrizeKey → Bool} {prizes prizes' : PrizeKey → Amount}
    {l : List (Address × Amount)} (h : recordPrizes week strategy prizes l = .ok prizes')
    (hfresh : ∀ a, claimed (week, strategy, a) = false) :
    (∑ k : PrizeKey, if claimed k = true then 0 else (prizes' k).toNat) =
      (∑ k : PrizeKey, if claimed k = true then 0 else (prizes k).toNat)
        + totalOf (l.map Prod.snd) := by
  induction l generalizing prizes with
  | nil =>
    cases h
    simp [totalOf]
  | cons p l ih =>
    obtain ⟨winner, a⟩ := p
    obtain ⟨prize, hprize, h⟩ := bind_eq_ok.mp h
    have hadd := checkedAdd_eq_some.mp (orRevert_eq_ok.mp hprize)
    have hone := sum_change (f := fun k => if claimed k = true then 0 else (prizes k).toNat)
      (g := fun k => if claimed k = true then 0 else
        (Function.update prizes (week, strategy, winner) prize k).toNat)
      (week, strategy, winner) fun j hj => by simp only [Function.update_of_ne hj]
    simp only [hfresh, Bool.false_eq_true, if_false, Function.update_self] at hone
    rw [ih h]
    simp only [totalOf, List.map_cons, List.sum_cons]
    omega

/-- What an accepted settlement found and left: the pool splits into what the winners get,
what travels to the next week and what stays for the owner. -/
structure Settlement (s s' : Storage) (week : Week) (strategy : Strategy)
    (winners : List Address) (amounts : List Amount) (carried stale : ℕ) : Prop where
  unsettled : s.settled (week, strategy) = false
  lengths : winners.length = amounts.length
  split : totalOf amounts + carried + stale = (s.pool (week, strategy)).toNat
  /-- Only the week's own contributions travel, and they do so before anything is retained. -/
  travels : carried = min (carried + stale)
    ((s.pool (week, strategy)).toNat - (s.carriedIn (week, strategy)).toNat)
  carriedIn_le : (s.carriedIn (week, strategy)).toNat ≤ (s.pool (week, strategy)).toNat
  pool_next : (s'.pool (week + 1, strategy)).toNat =
    (s.pool (week + 1, strategy)).toNat + carried
  pool_other : ∀ k, k ≠ (week, strategy) → k ≠ (week + 1, strategy) → s'.pool k = s.pool k
  carriedIn_next : (s'.carriedIn (week + 1, strategy)).toNat =
    (s.carriedIn (week + 1, strategy)).toNat + carried
  carriedIn_other : ∀ k, k ≠ (week + 1, strategy) → s'.carriedIn k = s.carriedIn k
  settled' : s'.settled = Function.update s.settled (week, strategy) true
  prizes' : recordPrizes week strategy s.prizes (winners.zip amounts) = .ok s'.prizes
  claimed' : s'.claimed = s.claimed
  retained' : s'.retained.toNat = s.retained.toNat + stale

/-- No week is its own successor. -/
theorem week_succ_ne (week : Week) (strategy : Strategy) :
    (week + 1, strategy) ≠ (week, strategy) := by
  simp

/-- What `carry` does to the storage, whether or not anything travels. -/
theorem carry_spec {carried : Amount} {s s' : Storage}
    (h : carry this week strategy carried s = .ok (s', events)) :
    (s'.pool (week + 1, strategy)).toNat = (s.pool (week + 1, strategy)).toNat + carried.toNat ∧
    (∀ k, k ≠ (week + 1, strategy) → s'.pool k = s.pool k) ∧
    (s'.carriedIn (week + 1, strategy)).toNat =
      (s.carriedIn (week + 1, strategy)).toNat + carried.toNat ∧
    (∀ k, k ≠ (week + 1, strategy) → s'.carriedIn k = s.carriedIn k) ∧
    s'.settled = s.settled ∧ s'.prizes = s.prizes ∧ s'.claimed = s.claimed ∧
    s'.retained = s.retained := by
  unfold carry at h
  by_cases hz : carried = 0
  · rw [if_pos hz] at h
    cases h
    simp [hz]
  · rw [if_neg hz] at h
    simp only [bind_eq_ok, orRevert_eq_ok] at h
    obtain ⟨next, hnext, total, htotal, cin, hcin, h⟩ := h
    cases h
    have hn : next = week + 1 := by
      have := checkedAdd_eq_some.mp hnext
      rw [← BitVec.toNat_inj, ← this, BitVec.toNat_add_of_lt]
      exact this ▸ next.isLt
    subst hn
    refine ⟨?_, fun k hk => Function.update_of_ne hk _ _, ?_,
      fun k hk => Function.update_of_ne hk _ _, rfl, rfl, rfl, rfl⟩
    · simpa using (checkedAdd_eq_some.mp htotal).symm
    · simpa using (checkedAdd_eq_some.mp hcin).symm

/-- The remainder of a settlement, split by `rest`. -/
theorem rest_spec {available paid carried : Amount} {s s' : Storage}
    (h : rest this week strategy available paid s = .ok (s', carried, events)) :
    ∃ stale : ℕ, paid.toNat + carried.toNat + stale = available.toNat ∧
      (s.carriedIn (week, strategy)).toNat ≤ available.toNat ∧
      carried.toNat = min (carried.toNat + stale)
        (available.toNat - (s.carriedIn (week, strategy)).toNat) ∧
      s'.retained.toNat = s.retained.toNat + stale ∧
      ∃ mid evs, carry this week strategy carried s = .ok (mid, evs) ∧
        s' = { mid with retained := s'.retained } := by
  simp only [rest, bind_eq_ok, orRevert_eq_ok] at h
  obtain ⟨left, hleft, fresh, hfresh, stale, hstale, ⟨mid, evs⟩, hcarry, h⟩ := h
  have hl := checkedSub_eq_some.mp hleft
  have hf := checkedSub_eq_some.mp hfresh
  have hs := checkedSub_eq_some.mp hstale
  have hsame : mid.retained = s.retained := (carry_spec hcarry).2.2.2.2.2.2.2
  -- the smaller of what is left and what is fresh travels
  have hmin : (if left < fresh then left else fresh).toNat = min left.toNat fresh.toNat := by
    split <;> next hlt => rw [BitVec.lt_def] at hlt; omega
  refine ⟨stale.toNat, ?_⟩
  by_cases hz : stale = 0
  · rw [if_pos hz] at h
    cases h
    refine ⟨by omega, by omega, by omega, by simp [hsame, hz], mid, _, hcarry, rfl⟩
  · simp only [if_neg hz, bind_eq_ok, orRevert_eq_ok] at h
    obtain ⟨retained, hretained, h⟩ := h
    have hr := checkedAdd_eq_some.mp hretained
    cases h
    refine ⟨by omega, by omega, by omega, ?_, mid, _, hcarry, rfl⟩
    rw [← hsame]
    exact hr.symm

/-- What an accepted `settle` did. -/
theorem settle_spec {winners : List Address} {amounts : List Amount} {pnls : List (BitVec 128)}
    (h : settle this msg week strategy winners amounts pnls c = .ok (c', events)) :
    c'.token = c.token ∧ ∃ (carried : Amount) (stale : ℕ) (before : List Event),
      Settlement c.storage c'.storage week strategy winners amounts carried.toNat stale ∧
      events = before ++ [.settled week strategy winners amounts pnls carried] := by
  simp only [settle, bind_eq_ok, revertIf_eq_ok] at h
  obtain ⟨_, hsettler, current, hcurrent, _, hover, _, hun, _, hlen, total, htotal, _, hle,
    prizes, hprizes, ⟨s', carried, evs⟩, hrest, h⟩ := h
  cases h
  have htot : total.toNat = totalOf amounts := by simpa using sumAmounts_toNat htotal
  obtain ⟨stale, hsplit, hcin, hmin, hret, mid, _, hcarry, hs'⟩ := rest_spec hrest
  obtain ⟨hpn, hpo, hcn, hco, hset, hpr, hcl, hrt⟩ := carry_spec hcarry
  have hne := week_succ_ne week strategy
  dsimp only at hcin hmin hret hpn hpo hcn hco hset hpr hcl
  refine ⟨rfl, carried, stale, evs, ?_, rfl⟩
  refine ⟨by simpa using hun, not_ne_iff.mp (not_or.mp hlen).1, htot ▸ hsplit, hmin, hcin, ?_, ?_, ?_,
    ?_, ?_, ?_, ?_, hret⟩
  · rw [hs', hpn, Function.update_of_ne hne]
  · intro k hk hkn
    rw [hs', hpo k hkn, Function.update_of_ne hk]
  · rw [hs', hcn]
  · intro k hk
    rw [hs', hco k hk]
  · rw [hs', hset]
  · rw [hs', hpr]
    exact hprizes
  · rw [hs', hcl]

/-- A published total fails only by overflowing. -/
theorem sumAmounts_error {start : Amount} {amounts : List Amount} {e : Revert}
    (h : sumAmounts start amounts = .error e) : e = .panic := by
  induction amounts generalizing start with
  | nil => cases h
  | cons a as ih =>
    rcases bind_eq_error.mp h with h | ⟨mid, -, h⟩
    · exact (orRevert_eq_error.mp h).2.symm
    · exact ih h

/-- Recording prizes fails only by overflowing. -/
theorem recordPrizes_error {prizes : PrizeKey → Amount} {l : List (Address × Amount)} {e : Revert}
    (h : recordPrizes week strategy prizes l = .error e) : e = .panic := by
  induction l generalizing prizes with
  | nil => cases h
  | cons p l ih =>
    rcases bind_eq_error.mp h with h | ⟨prize, -, h⟩
    · exact (orRevert_eq_error.mp h).2.symm
    · exact ih h

theorem carry_error {carried : Amount} {s : Storage} {e : Revert}
    (h : carry this week strategy carried s = .error e) : e = .panic := by
  unfold carry at h
  split at h
  · cases h
  · simp only [bind_eq_error, orRevert_eq_error] at h
    rcases h with ⟨-, h⟩ | ⟨_, -, ⟨-, h⟩ | ⟨_, -, ⟨-, h⟩ | ⟨_, -, h⟩⟩⟩
    · exact h.symm
    · exact h.symm
    · exact h.symm
    · cases h

/-- What is left over fails only by overflowing. -/
theorem rest_error {available paid : Amount} {s : Storage} {e : Revert}
    (h : rest this week strategy available paid s = .error e) : e = .panic := by
  simp only [rest, bind_eq_error, orRevert_eq_error] at h
  rcases h with ⟨-, h⟩ | ⟨_, -, ⟨-, h⟩ | ⟨_, -, ⟨-, h⟩ | ⟨_, -, h | ⟨_, -, h⟩⟩⟩⟩
  · exact h.symm
  · exact h.symm
  · exact h.symm
  · exact carry_error h
  · split at h
    · cases h
    · simp only [bind_eq_error, orRevert_eq_error] at h
      rcases h with ⟨-, h⟩ | ⟨_, -, h⟩
      · exact h.symm
      · cases h

/-- What a settlement can be refused for, besides overflowing. -/
theorem settle_error {winners : List Address} {amounts : List Amount} {pnls : List (BitVec 128)}
    {e : Revert} (h : settle this msg week strategy winners amounts pnls c = .error e) :
    e = .panic ∨ e = .notSettler ∨ e = .weekNotOver week ∨ e = .alreadySettled week strategy ∨
      e = .lengthMismatch ∧ (winners.length ≠ amounts.length ∨ winners.length ≠ pnls.length) ∨
      ∃ total, e = .exceedsPool total (c.storage.pool (week, strategy)) ∧
        (c.storage.pool (week, strategy)).toNat < totalOf amounts := by
  simp only [settle, bind_eq_error, revertIf_eq_error] at h
  rcases h with ⟨-, h⟩ | ⟨_, -, h⟩
  · exact .inr (.inl h.symm)
  rcases h with h | ⟨_, -, h⟩
  · simp only [weekOf, bind_eq_error, orRevert_eq_error] at h
    rcases h with ⟨-, h⟩ | ⟨_, -, h⟩
    · exact .inl h.symm
    · cases h
  rcases h with ⟨-, h⟩ | ⟨_, -, h⟩
  · exact .inr (.inr (.inl h.symm))
  rcases h with ⟨-, h⟩ | ⟨_, -, h⟩
  · exact .inr (.inr (.inr (.inl h.symm)))
  rcases h with ⟨hlen, h⟩ | ⟨_, -, h⟩
  · exact .inr (.inr (.inr (.inr (.inl ⟨h.symm, hlen⟩))))
  rcases h with h | ⟨total, htotal, h⟩
  · exact .inl (sumAmounts_error h)
  rcases h with ⟨hlt, h⟩ | ⟨_, -, h⟩
  · have htot : total.toNat = totalOf amounts := by simpa using sumAmounts_toNat htotal
    exact .inr (.inr (.inr (.inr (.inr ⟨total, h.symm, htot ▸ BitVec.lt_def.mp hlt⟩))))
  rcases h with h | ⟨_, -, h⟩
  · exact .inl (recordPrizes_error h)
  rcases h with h | ⟨_, -, h⟩
  · exact .inl (rest_error h)
  · cases h

/-- What an accepted `fund` did. -/
theorem fund_spec {amount : Amount}
    (h : fund tok this msg week strategy amount c = .ok (c', events)) :
    c.storage.settled (week, strategy) = false ∧ amount ≠ 0 ∧
    tok.transferFrom c.token this msg.sender this amount.toNat = some c'.token ∧
    ∃ total : Amount, (c.storage.pool (week, strategy)).toNat + amount.toNat = total.toNat ∧
      c'.storage = { c.storage with
        pool := Function.update c.storage.pool (week, strategy) total } ∧
      events = [.funded week strategy msg.sender amount total] := by
  simp only [fund, bind_eq_ok, revertIf_eq_ok, orRevert_eq_ok] at h
  obtain ⟨_, hz, _, hun, token, htoken, total, htotal, h⟩ := h
  cases h
  exact ⟨by simpa using hun, hz, htoken, total, checkedAdd_eq_some.mp htotal, rfl, rfl⟩

/-- What an accepted `sweep` did. -/
theorem sweep_spec {dst : Address} (h : sweep tok this msg dst c = .ok (c', events)) :
    c.storage.retained ≠ 0 ∧
    tok.transfer c.token this dst c.storage.retained.toNat = some c'.token ∧
    c'.storage = { c.storage with retained := 0 } ∧
    events = [.swept dst c.storage.retained] := by
  simp only [sweep, bind_eq_ok, revertIf_eq_ok, orRevert_eq_ok] at h
  obtain ⟨_, howner, _, hz, token, htoken, h⟩ := h
  cases h
  exact ⟨hz, htoken, rfl, rfl⟩

/-- What an accepted `claim` did. -/
theorem claim_spec (h : claim tok this msg week strategy c = .ok (c', events)) :
    c.storage.settled (week, strategy) = true ∧
    c.storage.prizes (week, strategy, msg.sender) ≠ 0 ∧
    c.storage.claimed (week, strategy, msg.sender) = false ∧
    tok.transfer c.token this msg.sender
      (c.storage.prizes (week, strategy, msg.sender)).toNat = some c'.token ∧
    c'.storage = { c.storage with
      claimed := Function.update c.storage.claimed (week, strategy, msg.sender) true } ∧
    events = [.claimed week strategy msg.sender
      (c.storage.prizes (week, strategy, msg.sender))] := by
  simp only [claim, bind_eq_ok, revertIf_eq_ok, orRevert_eq_ok] at h
  obtain ⟨_, hset, _, hnone, token, htoken, h⟩ := h
  cases h
  obtain ⟨hz, hc⟩ := not_or.mp hnone
  exact ⟨by simpa using hset, hz, by simpa using hc, htoken, rfl, rfl⟩

/-! ## Sums -/

/-- Funding adds the amount to the unsettled pools. -/
theorem unsettledPools_fund {s : Storage} {k : Slot} {amount total : Amount}
    (hun : s.settled k = false) (htotal : (s.pool k).toNat + amount.toNat = total.toNat) :
    ({ s with pool := Function.update s.pool k total } : Storage).unsettledPools =
      s.unsettledPools + amount.toNat := by
  have h := sum_change (f := fun k => if s.settled k = true then 0 else (s.pool k).toNat)
    (g := fun j => if s.settled j = true then 0 else (Function.update s.pool k total j).toNat)
    k fun j hj => by simp only [Function.update_of_ne hj]
  simp only [hun, Bool.false_eq_true, if_false, Function.update_self] at h
  simp only [Storage.unsettledPools]
  omega

section Settlement

variable {s s' : Storage} {winners : List Address} {amounts : List Amount} {carried stale : ℕ}

/-- What of a carried amount lands in a pool that is still to be settled. -/
def Storage.landed (s : Storage) (week : Week) (strategy : Strategy) (carried : ℕ) : ℕ :=
  if s.settled (week + 1, strategy) = true then 0 else carried

/-- A settlement takes its pool out of the unsettled ones and adds what lands in the next. -/
theorem Settlement.unsettledPools
    (h : Settlement s s' week strategy winners amounts carried stale) :
    s'.unsettledPools + (s.pool (week, strategy)).toNat =
      s.unsettledPools + s.landed week strategy carried := by
  have hne := week_succ_ne week strategy
  have hsum := sum_change₂ (f := fun k => if s.settled k = true then 0 else (s.pool k).toNat)
    (g := fun k => if s'.settled k = true then 0 else (s'.pool k).toNat)
    (k := (week, strategy)) (l := (week + 1, strategy)) hne.symm fun j hj hjn => by
      simp only [h.settled', Function.update_of_ne hj, h.pool_other j hj hjn]
  simp only [h.settled', Function.update_self, Function.update_of_ne hne, h.unsettled,
    Bool.false_eq_true, if_true, if_false, h.pool_next] at hsum
  simp only [Storage.unsettledPools, Storage.landed, h.settled']
  cases hn : s.settled (week + 1, strategy) with
  | true =>
    simp only [hn, if_true] at hsum ⊢
    omega
  | false =>
    simp only [hn, Bool.false_eq_true, if_false] at hsum ⊢
    omega

/-- A settlement of a slot nobody claimed from adds its amounts to the unclaimed prizes. -/
theorem Settlement.unclaimedPrizes
    (h : Settlement s s' week strategy winners amounts carried stale)
    (hfresh : ∀ a, s.claimed (week, strategy, a) = false) :
    s'.unclaimedPrizes = s.unclaimedPrizes + totalOf amounts := by
  have hzip : (winners.zip amounts).map Prod.snd = amounts :=
    List.map_snd_zip h.lengths.ge
  have := recordPrizes_unclaimed h.prizes' hfresh
  rw [hzip] at this
  simpa only [Storage.unclaimedPrizes, h.claimed'] using this

/-- A settlement of a slot nobody claimed from leaves the claimed prizes alone. -/
theorem Settlement.claimedPrizes
    (h : Settlement s s' week strategy winners amounts carried stale)
    (hfresh : ∀ a, s.claimed (week, strategy, a) = false) :
    s'.claimedPrizes = s.claimedPrizes := by
  simp only [Storage.claimedPrizes, h.claimed']
  refine Finset.sum_congr rfl fun k _ => ?_
  by_cases hc : s.claimed k = true
  · have hk : (k.1, k.2.1) ≠ (week, strategy) := by
      rintro heq
      obtain ⟨hw, hs⟩ := Prod.mk.inj heq
      have := hfresh k.2.2
      rw [← hw, ← hs] at this
      exact absurd hc (by simp [this])
    rw [recordPrizes_other h.prizes' hk]
  · simp only [if_neg hc]

end Settlement

/-- A claim moves the prize from the unclaimed to the claimed ones. -/
theorem prizes_claim {s : Storage} {k : PrizeKey} (hk : s.claimed k = false) :
    let s' : Storage := { s with claimed := Function.update s.claimed k true }
    s'.unclaimedPrizes + (s.prizes k).toNat = s.unclaimedPrizes ∧
      s'.claimedPrizes = s.claimedPrizes + (s.prizes k).toNat := by
  have hu := sum_change (f := fun k => if s.claimed k = true then 0 else (s.prizes k).toNat)
    (g := fun j => if Function.update s.claimed k true j = true then 0 else (s.prizes j).toNat)
    k fun j hj => by simp only [Function.update_of_ne hj]
  have hc := sum_change (f := fun k => if s.claimed k = true then (s.prizes k).toNat else 0)
    (g := fun j => if Function.update s.claimed k true j = true then (s.prizes j).toNat else 0)
    k fun j hj => by simp only [Function.update_of_ne hj]
  simp only [hk, Bool.false_eq_true, if_true, if_false, Function.update_self] at hu hc
  simp only [Storage.unclaimedPrizes, Storage.claimedPrizes]
  constructor <;> omega

/-- A recorded prize still to be taken is one of the unclaimed ones. -/
theorem Storage.prize_le_unclaimedPrizes (s : Storage) {k : PrizeKey} (hk : s.claimed k = false) :
    (s.prizes k).toNat ≤ s.unclaimedPrizes := by
  have h := Finset.single_le_sum_of_canonicallyOrdered
    (f := fun k => if s.claimed k = true then 0 else (s.prizes k).toNat) (Finset.mem_univ k)
  simpa [hk, Storage.unclaimedPrizes] using h

end SuperAgent.Contract
