import SuperAgent.Contract.Carrying
import SuperAgent.Indexer.PrizePool

/-!
# What the indexer's rows say of the contract

The rows are folded from the events of accepted calls alone. For every history
of calls they are compared with the contract's own storage, call by call: what
they follow exactly, and what a settlement makes them count differently.
-/

namespace SuperAgent.Contract

variable {τ : Type}

/-! ## What a settlement emits -/

section Emits

variable {this : Address} {msg : Msg} {c c' : Chain τ} {events : List Event} {week : Week}
  {strategy : Strategy}

/-- What travels is emitted as a funding of the next week's pool. -/
theorem carry_events {carried : Amount} {s s' : Storage}
    (h : carry this week strategy carried s = .ok (s', events)) :
    events = if carried = 0 then [] else
      [.funded (week + 1) strategy this carried (s'.pool (week + 1, strategy))] := by
  unfold carry at h
  by_cases hz : carried = 0
  · rw [if_pos hz] at h ⊢
    cases h
    rfl
  · rw [if_neg hz] at h ⊢
    simp only [bind_eq_ok, orRevert_eq_ok] at h
    obtain ⟨next, hnext, total, _, _, _, h⟩ := h
    cases h
    obtain rfl : next = week + 1 := by
      have hadd := checkedAdd_eq_some.mp hnext
      rw [← BitVec.toNat_inj, ← hadd, BitVec.toNat_add_of_lt]
      exact hadd ▸ next.isLt
    simp

/-- What is left over emits what travels, and after it what is retained. -/
theorem rest_events {available paid carried : Amount} {s s' : Storage}
    (h : rest this week strategy available paid s = .ok (s', carried, events)) :
    ∃ kept : List Event, (kept = [] ∨ ∃ a total, kept = [.retained week strategy a total]) ∧
      events = (if carried = 0 then [] else
        [.funded (week + 1) strategy this carried (s'.pool (week + 1, strategy))]) ++ kept := by
  simp only [rest, bind_eq_ok, orRevert_eq_ok] at h
  obtain ⟨left, _, fresh, _, stale, _, ⟨mid, evs⟩, hcarry, h⟩ := h
  have hevs := carry_events hcarry
  by_cases hz : stale = 0
  · rw [if_pos hz] at h
    cases h
    exact ⟨[], .inl rfl, by rw [List.append_nil]; exact hevs⟩
  · simp only [if_neg hz, bind_eq_ok, orRevert_eq_ok] at h
    obtain ⟨retained, _, h⟩ := h
    cases h
    exact ⟨_, .inr ⟨stale, retained, rfl⟩, by rw [hevs]⟩

/-- What an accepted settlement did and emitted. -/
theorem settle_events {winners : List Address} {amounts : List Amount} {pnls : List (BitVec 128)}
    (h : settle this msg week strategy winners amounts pnls c = .ok (c', events)) :
    ∃ (carried : Amount) (stale : ℕ) (kept : List Event),
      Settlement c.storage c'.storage week strategy winners amounts carried.toNat stale ∧
      (kept = [] ∨ ∃ a total, kept = [.retained week strategy a total]) ∧
      events = (if carried = 0 then [] else
        [.funded (week + 1) strategy this carried (c'.storage.pool (week + 1, strategy))]) ++ kept ++
          [.settled week strategy winners amounts pnls carried] := by
  obtain ⟨_, carried, stale, before, hs, hevents⟩ := settle_spec h
  simp only [settle, bind_eq_ok] at h
  obtain ⟨_, _, _, _, _, _, _, _, _, _, _, _, _, _, _, _, ⟨s', carried', evs⟩, hrest, h⟩ := h
  cases h
  obtain ⟨rfl, hlast⟩ := List.append_inj' hevents rfl
  have hcarried : carried' = carried := by
    have hsettled := List.singleton_inj.mp hlast
    injection hsettled
  subst hcarried
  obtain ⟨kept, hkept, rfl⟩ := rest_events hrest
  exact ⟨carried', stale, kept, hs, hkept, rfl⟩

end Emits

/-! ## Reading the events -/

/-- What an event adds to a pool, as it reports it. -/
def Event.fundedTo (k : Slot) : Event → ℕ
  | .funded week strategy _ amount _ => if (week, strategy) = k then amount.toNat else 0
  | _ => 0

/-- The slot an event gives a pool to. -/
def Event.slot? : Event → Option Slot
  | .funded week strategy _ _ _ => some (week, strategy)
  | .settled week strategy _ _ _ _ => some (week, strategy)
  | _ => none

/-- What the last entry for a wallet awards it, in the settlement an event reports. -/
def Event.lastAward (k : PrizeKey) : Event → ℕ
  | .settled week strategy winners amounts _ _ =>
    if (week, strategy) = (k.1, k.2.1) then Indexer.Store.lastAward k.2.2 0 (winners.zip amounts)
    else 0
  | _ => 0

/-- The sum of a pool's reported fundings. -/
def fundedTo (k : Slot) (evs : List Event) : ℕ := (evs.map (Event.fundedTo k)).sum

/-- The last awards of a prize; a slot is settled once. -/
def lastAwards (k : PrizeKey) (evs : List Event) : ℕ := (evs.map (Event.lastAward k)).sum

/-- The slots a sequence of events gives a pool to. -/
def slotsOf (evs : List Event) : Finset Slot := (evs.filterMap Event.slot?).toFinset

@[simp] theorem fundedTo_append (k : Slot) (evs evs' : List Event) :
    fundedTo k (evs ++ evs') = fundedTo k evs + fundedTo k evs' := by
  simp [fundedTo]

@[simp] theorem lastAwards_append (k : PrizeKey) (evs evs' : List Event) :
    lastAwards k (evs ++ evs') = lastAwards k evs + lastAwards k evs' := by
  simp [lastAwards]

/-- Every event emitted so far, oldest first. -/
def World.events (w : World τ) : List Event := w.journal.flatMap Prod.snd

/-- What a slot's claims have paid. -/
noncomputable def Storage.paidOut (s : Storage) (k : Slot) : ℕ :=
  ∑ a : Address, if s.claimed (k.1, k.2, a) = true then (s.prizes (k.1, k.2, a)).toNat else 0

end SuperAgent.Contract

namespace SuperAgent.Indexer

open Contract

variable {τ : Type} {tok : IERC20 τ} {this : Address} {x : Store} {s s' : Storage}
  {evs : List Event} {n : ℕ}

/-! ## Pools are counted once -/

/-- The totals count the rows of a set of slots. -/
structure Counts (x : Store) (t : Finset Slot) : Prop where
  pools : x.loadTotals.pools = t.card
  created : ∀ k, x.created k = true ↔ k ∉ t

/-- An event adds its slot, if it is a new one. -/
theorem Counts.handle {t : Finset Slot} (h : Counts x t) (log : Log) :
    Counts (x.handle log) (t ∪ slotsOf [log.event]) := by
  have hinsert : ∀ k : Slot, t ∪ (Option.toFinset (some k)) = insert k t := by
    intro k
    rw [Option.toFinset_some, Finset.union_comm]
    rfl
  have hcard : ∀ k, t.card + (if x.created k then 1 else 0) = (insert k t).card := by
    intro k
    by_cases hk : k ∈ t
    · rw [if_neg ((not_congr (h.created k)).mpr (not_not.mpr hk)), Finset.insert_eq_of_mem hk,
        Nat.add_zero]
    · rw [if_pos ((h.created k).mpr hk), Finset.card_insert_of_notMem hk]
  have hmem : ∀ k j, (x.created j && !decide (j = k)) = true ↔ j ∉ insert k t := by
    intro k j
    rw [Bool.and_eq_true, h.created, Finset.mem_insert, not_or, Bool.not_eq_true',
      decide_eq_false_iff_not, and_comm]
  unfold Store.handle
  cases hevent : log.event with
  | funded week strategy sender amount total =>
    have hslots : t ∪ slotsOf [.funded week strategy sender amount total] =
        insert (week, strategy) t := hinsert _
    rw [hslots]
    refine ⟨?_, fun j => ?_⟩
    · rw [Store.loadTotals_onFunded, ← hcard, ← h.pools]
    · rw [Store.created_onFunded]
      exact hmem _ j
  | settled week strategy winners amounts pnls carried =>
    have hslots : t ∪ slotsOf [.settled week strategy winners amounts pnls carried] =
        insert (week, strategy) t := hinsert _
    rw [hslots]
    refine ⟨?_, fun j => ?_⟩
    · rw [Store.loadTotals_onSettled, ← hcard, ← h.pools]
    · rw [Store.created_onSettled]
      exact hmem _ j
  | claimed week strategy wallet amount =>
    have hslots : t ∪ slotsOf [.claimed week strategy wallet amount] = t := Finset.union_empty t
    rw [hslots]
    exact ⟨h.pools, fun j => by rw [Store.created_onClaimed]; exact h.created j⟩
  | _ => exact (Finset.union_empty t).symm ▸ h

/-- The totals count the slots that were funded or settled. -/
theorem counts_index (logs : List Log) :
    Counts (Store.index logs) (slotsOf (logs.map Log.event)) := by
  induction logs using List.reverseRecOn with
  | nil => exact ⟨rfl, fun k => ⟨fun _ => nofun, fun _ => rfl⟩⟩
  | append_singleton logs log ih =>
    have hslots : slotsOf ((logs ++ [log]).map Log.event) =
        slotsOf (logs.map Log.event) ∪ slotsOf [log.event] := by
      simp [slotsOf, List.toFinset_append]
    rw [hslots, Store.index, List.foldl_append]
    exact ih.handle log

/-! ## What the rows follow -/

/-- A slot's rows say what the contract's storage says. Money carried is reported as funding: the
rows of a slot are exact until something was carried into it once it was settled. -/
structure PoolRows (x : Store) (s : Storage) (evs : List Event) : Prop where
  settled : ∀ k, (x.loadPool k).settled = s.settled k
  carried : ∀ k : Slot, (x.loadPool k).carried = (s.carriedIn (k.1 + 1, k.2)).toNat
  /-- Nothing travels from a slot before it is settled. -/
  fresh : ∀ k : Slot, s.settled k = false → s.carriedIn (k.1 + 1, k.2) = 0
  claimed : ∀ k, (x.loadPool k).claimed = s.paidOut k
  unsettled : ∀ k, s.settled k = false →
    (x.loadPool k).funded = (s.pool k).toNat ∧ (s.pool k).toNat = fundedTo k evs
  funded : (∀ k, s.carriedIn k = 0) → ∀ k, (x.loadPool k).funded = fundedTo k evs

/-- A prize's row carries the last amount its settlement lists for the winner, and is marked when
the contract has paid. -/
structure PrizeRows (x : Store) (s : Storage) (evs : List Event) : Prop where
  filed : ∀ k p, x.prizes k = some p → p.pool = (k.1, k.2.1)
  fresh : ∀ k, s.settled (k.1, k.2.1) = false → x.prizes k = none
  known : ∀ k, s.prizes k ≠ 0 → x.prizes k ≠ none
  amount : ∀ k, x.prizeAmount k = lastAwards k evs
  claimed : ∀ k, x.prizeClaimed k = s.claimed k

/-- The totals follow the sums over the contract's storage; what travels from week to week is
counted as funded each time. -/
structure TotalRow (x : Store) (s : Storage) (n : ℕ) : Prop where
  funded : x.loadTotals.funded = n + ∑ k, (s.carriedIn k).toNat
  paid : x.loadTotals.paid = ∑ k, (s.prizes k).toNat
  claimed : x.loadTotals.claimed = s.claimedPrizes
  settledPools : x.loadTotals.settledPools = (Finset.univ.filter fun k => s.settled k = true).card

/-- All rows, against the storage, the events so far and what was paid in. -/
structure Tracks (x : Store) (s : Storage) (evs : List Event) (n : ℕ) : Prop where
  pools : PoolRows x s evs
  prizes : PrizeRows x s evs
  totals : TotalRow x s n

/-- Before the first event the rows follow a contract just deployed. -/
theorem tracks_deploy (sender settler : Address) :
    Tracks Store.empty (deploy sender settler) [] 0 where
  pools := {
    settled := fun _ => rfl
    carried := fun _ => rfl
    fresh := fun _ _ => rfl
    claimed := fun _ => by simp [Storage.paidOut, deploy, Store.loadPool, Store.empty]
    unsettled := fun _ _ => ⟨rfl, rfl⟩
    funded := fun _ _ => rfl }
  prizes := ⟨nofun, fun _ _ => rfl, fun _ h => absurd rfl h, fun _ => rfl, fun _ => rfl⟩
  totals := by
    constructor <;> simp [Store.loadTotals, Store.empty, deploy, Storage.claimedPrizes]

/-- Whether an event has no handler. -/
def silent : Event → Bool
  | .settlerSet _ _ => true
  | .retained _ _ _ _ => true
  | .swept _ _ => true
  | .ownerSet _ => true
  | _ => false

theorem handle_silent {log : Log} (h : silent log.event = true) : x.handle log = x := by
  unfold Store.handle
  cases hevent : log.event <;> first | rfl | (rw [hevent] at h; exact absurd h nofun)

theorem foldl_silent {logs : List Log} (h : ∀ log ∈ logs, silent log.event = true) :
    logs.foldl Store.handle x = x := by
  induction logs with
  | nil => rfl
  | cons log logs ih =>
    rw [List.foldl_cons, handle_silent (h log List.mem_cons_self)]
    exact ih fun l hl => h l (List.mem_cons_of_mem _ hl)

theorem fundedTo_silent (k : Slot) {es : List Event} (h : ∀ e ∈ es, silent e = true) :
    fundedTo k es = 0 := by
  refine List.sum_eq_zero fun m hm => ?_
  obtain ⟨e, he, rfl⟩ := List.mem_map.mp hm
  have hs := h e he
  cases e <;> first | rfl | exact absurd hs nofun

theorem lastAwards_silent (k : PrizeKey) {es : List Event} (h : ∀ e ∈ es, silent e = true) :
    lastAwards k es = 0 := by
  refine List.sum_eq_zero fun m hm => ?_
  obtain ⟨e, he, rfl⟩ := List.mem_map.mp hm
  have hs := h e he
  cases e <;> first | rfl | exact absurd hs nofun

/-- A call that touches none of the mappings, and whose events have no handlers. -/
theorem Tracks.quiet {es : List Event} (h : Tracks x s evs n) (hpool : s'.pool = s.pool)
    (hsettled : s'.settled = s.settled) (hprizes : s'.prizes = s.prizes)
    (hclaimed : s'.claimed = s.claimed) (hcarriedIn : s'.carriedIn = s.carriedIn)
    (hsilent : ∀ e ∈ es, silent e = true) : Tracks x s' (evs ++ es) n := by
  obtain ⟨⟨p₁, p₂, p₃, p₄, p₅, p₆⟩, ⟨r₁, r₂, r₃, r₄, r₅⟩, ⟨t₁, t₂, t₃, t₄⟩⟩ := h
  have hfunded : ∀ k, fundedTo k (evs ++ es) = fundedTo k evs := fun k => by
    rw [fundedTo_append, fundedTo_silent k hsilent, Nat.add_zero]
  have hawards : ∀ k, lastAwards k (evs ++ es) = lastAwards k evs := fun k => by
    rw [lastAwards_append, lastAwards_silent k hsilent, Nat.add_zero]
  have hpaid : s'.paidOut = s.paidOut := by
    funext k
    rw [Storage.paidOut, Storage.paidOut, hclaimed, hprizes]
  have hclaims : s'.claimedPrizes = s.claimedPrizes := by
    rw [Storage.claimedPrizes, Storage.claimedPrizes, hclaimed, hprizes]
  constructor
  · constructor <;> simp only [hpool, hsettled, hcarriedIn, hpaid, hfunded] <;> assumption
  · refine ⟨r₁, ?_, ?_, ?_, ?_⟩ <;> simp only [hsettled, hprizes, hclaimed, hawards] <;> assumption
  · constructor <;> simp only [hsettled, hprizes, hclaims, hcarriedIn] <;> assumption

/-! ## A funding -/

section Fund

variable {log : Log} {week : Week} {strategy : Strategy} {sender : Address} {amount total : Amount}

/-- A funding changes what its pool's row says was funded, and counts it. -/
theorem loadPool_onFunded_frame (x : Store) (log : Log) (week : Week) (strategy : Strategy)
    (sender : Address) (amount total : Amount) (k : Slot) :
    ((x.onFunded log week strategy sender amount total).loadPool k).settled =
      (x.loadPool k).settled ∧
    ((x.onFunded log week strategy sender amount total).loadPool k).carried =
      (x.loadPool k).carried ∧
    ((x.onFunded log week strategy sender amount total).loadPool k).claimed =
      (x.loadPool k).claimed ∧
    ((x.onFunded log week strategy sender amount total).loadPool k).funded =
      if k = (week, strategy) then total.toNat else (x.loadPool k).funded := by
  rw [Store.loadPool_onFunded]
  split
  · exact ⟨rfl, rfl, rfl, rfl⟩
  · exact ⟨rfl, rfl, rfl, rfl⟩

/-- Funding a slot that is not settled. -/
theorem Tracks.fund (h : Tracks x s evs n) (hun : s.settled (week, strategy) = false)
    (hadds : (s.pool (week, strategy)).toNat + amount.toNat = total.toNat) :
    Tracks (x.onFunded log week strategy sender amount total)
      { s with pool := Function.update s.pool (week, strategy) total }
      (evs ++ [.funded week strategy sender amount total]) (n + amount.toNat) := by
  have hframe := loadPool_onFunded_frame x log week strategy sender amount total
  have hfunded : ∀ k, fundedTo k (evs ++ [.funded week strategy sender amount total]) =
      fundedTo k evs + if (week, strategy) = k then amount.toNat else 0 := fun k => by
    rw [fundedTo_append]
    rfl
  have hpool := h.pools.unsettled (week, strategy) hun
  have hrow : ∀ k, (x.loadPool k).funded = fundedTo k evs →
      ((x.onFunded log week strategy sender amount total).loadPool k).funded =
        fundedTo k (evs ++ [.funded week strategy sender amount total]) := by
    intro k hk
    rw [(hframe k).2.2.2, hfunded]
    by_cases heq : k = (week, strategy)
    · subst heq
      rw [if_pos rfl, if_pos rfl]
      omega
    · rw [if_neg heq, if_neg fun h => heq h.symm, hk, Nat.add_zero]
  constructor
  · refine ⟨fun k => ?_, fun k => ?_, h.pools.fresh, fun k => ?_, fun k hk => ?_, fun hz k => ?_⟩
    · rw [(hframe k).1]
      exact h.pools.settled k
    · rw [(hframe k).2.1]
      exact h.pools.carried k
    · rw [(hframe k).2.2.1]
      exact h.pools.claimed k
    · have hold := h.pools.unsettled k hk
      rw [hrow k (hold.1.trans hold.2), hfunded]
      by_cases heq : k = (week, strategy)
      · subst heq
        rw [if_pos rfl]
        simp only [Function.update_self]
        omega
      · rw [if_neg fun h => heq h.symm]
        simp only [Function.update_of_ne heq]
        omega
    · exact hrow k (h.pools.funded hz k)
  · refine ⟨h.prizes.filed, h.prizes.fresh, h.prizes.known, fun k => ?_, h.prizes.claimed⟩
    rw [lastAwards_append]
    exact h.prizes.amount k
  · refine ⟨?_, h.totals.paid, h.totals.claimed, h.totals.settledPools⟩
    rw [Store.loadTotals_onFunded]
    change x.loadTotals.funded + amount.toNat = _
    rw [h.totals.funded]
    exact Nat.add_right_comm _ _ _

end Fund

/-! ## A settlement -/

section Settle

variable {x₁ : Store} {week : Week} {strategy : Strategy} {winners : List Address}
  {amounts : List Amount} {pnls : List (BitVec 128)} {carried total : Amount} {stale : ℕ}

/-- What travels was reported, or nothing travels. -/
structure Travelled (x x₁ : Store) (k : Slot) (moved total : Amount) : Prop where
  settled : ∀ j, (x₁.loadPool j).settled = (x.loadPool j).settled
  carried : ∀ j, (x₁.loadPool j).carried = (x.loadPool j).carried
  claimed : ∀ j, (x₁.loadPool j).claimed = (x.loadPool j).claimed
  funded : ∀ j, (x₁.loadPool j).funded =
    if j = k ∧ moved ≠ 0 then total.toNat else (x.loadPool j).funded
  prizes : x₁.prizes = x.prizes
  totals : x₁.loadTotals.funded = x.loadTotals.funded + moved.toNat ∧
    x₁.loadTotals.paid = x.loadTotals.paid ∧ x₁.loadTotals.claimed = x.loadTotals.claimed ∧
    x₁.loadTotals.settledPools = x.loadTotals.settledPools

/-- The rows after everything a settlement emits. -/
theorem foldl_settle {logs : List Log} {kept : List Event}
    (hkept : kept = [] ∨ ∃ a total, kept = [.retained week strategy a total])
    (hlogs : logs.map Log.event = (if carried = 0 then [] else
      [.funded (week + 1) strategy this carried total]) ++ kept ++
        [.settled week strategy winners amounts pnls carried]) :
    ∃ x₁ log, Travelled x x₁ (week + 1, strategy) carried total ∧
      logs.foldl Store.handle x = x₁.onSettled log week strategy winners amounts pnls carried := by
  obtain ⟨before, last, rfl, hbefore, hlast⟩ := List.map_eq_append_iff.mp hlogs
  obtain ⟨log, rfl, hlog⟩ := List.map_eq_singleton_iff.mp hlast
  obtain ⟨first, rest, rfl, hfirst, hrest⟩ := List.map_eq_append_iff.mp hbefore
  have hsilent : ∀ l ∈ rest, silent l.event = true := by
    intro l hl
    have hmem : l.event ∈ kept := hrest ▸ List.mem_map_of_mem hl
    rcases hkept with rfl | ⟨a, total, rfl⟩
    · cases hmem
    · rw [List.mem_singleton.mp hmem]
      rfl
  have hend : ∀ x₁ : Store, [log].foldl Store.handle x₁ =
      x₁.onSettled log week strategy winners amounts pnls carried := by
    intro x₁
    rw [List.foldl_cons, List.foldl_nil, Store.handle, hlog]
  simp only [List.foldl_append, foldl_silent hsilent, hend]
  by_cases hz : carried = 0
  · rw [if_pos hz, List.map_eq_nil_iff] at hfirst
    subst hfirst
    refine ⟨x, log, ⟨fun _ => rfl, fun _ => rfl, fun _ => rfl, fun j => ?_, rfl, ?_⟩, rfl⟩
    · rw [if_neg fun h => h.2 hz]
    · rw [hz]
      exact ⟨rfl, rfl, rfl, rfl⟩
  · rw [if_neg hz, List.map_eq_singleton_iff] at hfirst
    obtain ⟨fund, rfl, hfund⟩ := hfirst
    have hframe := loadPool_onFunded_frame x fund (week + 1) strategy this carried total
    refine ⟨x.onFunded fund (week + 1) strategy this carried total, log, ?_, ?_⟩
    · refine ⟨fun j => (hframe j).1, fun j => (hframe j).2.1, fun j => (hframe j).2.2.1,
        fun j => ?_, rfl, rfl, rfl, rfl, rfl⟩
      rw [(hframe j).2.2.2]
      by_cases hj : j = (week + 1, strategy)
      · rw [if_pos hj, if_pos ⟨hj, hz⟩]
      · rw [if_neg hj, if_neg fun h => hj h.1]
    · rw [List.foldl_cons, List.foldl_nil, Store.handle, hfund]

/-- A wallet that is awarded something is one of the winners. -/
theorem mem_of_awarded {wallet : Address} {l : List (Address × Amount)}
    (h : awarded wallet l ≠ 0) : wallet ∈ l.map Prod.fst := by
  induction l with
  | nil => exact absurd rfl h
  | cons e l ih =>
    obtain ⟨winner, a⟩ := e
    rw [awarded] at h
    by_cases hw : winner = wallet
    · rw [List.map_cons, hw]
      exact List.mem_cons_self
    · rw [if_neg hw, Nat.zero_add] at h
      exact List.mem_cons_of_mem _ (ih h)

/-- Weeks follow different weeks. -/
theorem next_ne {j : Slot} (hj : j ≠ (week, strategy)) :
    (j.1 + 1, j.2) ≠ (week + 1, strategy) := by
  intro h
  obtain ⟨hweek, hstrategy⟩ := Prod.mk.inj h
  exact hj (Prod.ext (by simpa using hweek) hstrategy)

variable {kept : List Event}

/-- What a settlement's events report as funding: what travels. -/
theorem fundedTo_settle (hkept : kept = [] ∨ ∃ a total, kept = [.retained week strategy a total])
    (j : Slot) : fundedTo j ((if carried = 0 then [] else
      [.funded (week + 1) strategy this carried total]) ++ kept ++
        [.settled week strategy winners amounts pnls carried]) =
      if (week + 1, strategy) = j then carried.toNat else 0 := by
  have hrest : fundedTo j kept = 0 := by
    rcases hkept with rfl | ⟨a, total, rfl⟩ <;> rfl
  have hlast : fundedTo j [.settled week strategy winners amounts pnls carried] = 0 := rfl
  rw [fundedTo_append, fundedTo_append, hrest, hlast]
  by_cases hz : carried = 0
  · subst hz
    simp [fundedTo]
  · rw [if_neg hz]
    simp [fundedTo, Event.fundedTo]

/-- What a settlement's events list last for a prize. -/
theorem lastAwards_settle (hkept : kept = [] ∨ ∃ a total, kept = [.retained week strategy a total])
    (key : PrizeKey) : lastAwards key ((if carried = 0 then [] else
      [.funded (week + 1) strategy this carried total]) ++ kept ++
        [.settled week strategy winners amounts pnls carried]) =
      if (week, strategy) = (key.1, key.2.1) then
        Store.lastAward key.2.2 0 (winners.zip amounts) else 0 := by
  have hrest : lastAwards key kept = 0 := by
    rcases hkept with rfl | ⟨a, total, rfl⟩ <;> rfl
  have hfirst : lastAwards key (if carried = 0 then [] else
      [.funded (week + 1) strategy this carried total]) = 0 := by
    split <;> rfl
  rw [lastAwards_append, lastAwards_append, hrest, hfirst]
  simp [lastAwards, Event.lastAward]

variable {log : Log}

/-- What travelled and the settlement itself, in a slot's row. -/
theorem Travelled.settledRow (ht : Travelled x x₁ (week + 1, strategy) carried total) (log : Log)
    (winners : List Address) (amounts : List Amount) (pnls : List (BitVec 128)) (j : Slot) :
    ((x₁.onSettled log week strategy winners amounts pnls carried).loadPool j).settled =
      (if j = (week, strategy) then true else (x.loadPool j).settled) ∧
    ((x₁.onSettled log week strategy winners amounts pnls carried).loadPool j).carried =
      (if j = (week, strategy) then carried.toNat else (x.loadPool j).carried) ∧
    ((x₁.onSettled log week strategy winners amounts pnls carried).loadPool j).claimed =
      (x.loadPool j).claimed ∧
    ((x₁.onSettled log week strategy winners amounts pnls carried).loadPool j).funded =
      if j = (week + 1, strategy) ∧ carried ≠ 0 then total.toNat else (x.loadPool j).funded := by
  rw [Store.loadPool_onSettled]
  by_cases hj : j = (week, strategy)
  · rw [if_pos hj, if_pos hj, if_pos hj]
    exact ⟨rfl, rfl, ht.claimed j, ht.funded j⟩
  · rw [if_neg hj, if_neg hj, if_neg hj]
    exact ⟨ht.settled j, ht.carried j, ht.claimed j, ht.funded j⟩

/-- A settlement of a slot without rows and claims moves nothing of what was paid out. -/
theorem paidOut_settle (hs : Settlement s s' week strategy winners amounts carried.toNat stale)
    (hclaimed : ∀ a, s.claimed (week, strategy, a) = false) (j : Slot) :
    s'.paidOut j = s.paidOut j := by
  rw [Storage.paidOut, Storage.paidOut, hs.claimed']
  by_cases hj : j = (week, strategy)
  · subst hj
    simp only [hclaimed, Bool.false_eq_true, if_false]
  · exact Finset.sum_congr rfl fun a _ => by rw [recordPrizes_other hs.prizes' hj]

/-- The pools' rows after a settlement. -/
theorem PoolRows.settle (h : PoolRows x s evs)
    (hs : Settlement s s' week strategy winners amounts carried.toNat stale)
    (hclaimed : ∀ a, s.claimed (week, strategy, a) = false)
    (ht : Travelled x x₁ (week + 1, strategy) carried (s'.pool (week + 1, strategy)))
    {es : List Event}
    (hes : ∀ j, fundedTo j es = if (week + 1, strategy) = j then carried.toNat else 0) :
    PoolRows (x₁.onSettled log week strategy winners amounts pnls carried) s' (evs ++ es) := by
  have hrow := ht.settledRow log winners amounts pnls
  have hnext := hs.carriedIn_next
  have hfresh := h.fresh (week, strategy) hs.unsettled
  have hsettled : ∀ j, s'.settled j = if j = (week, strategy) then true else s.settled j := by
    intro j
    rw [hs.settled', Function.update_apply]
  constructor
  · intro j
    rw [(hrow j).1, hsettled, h.settled]
  · intro j
    rw [(hrow j).2.1]
    by_cases hj : j = (week, strategy)
    · subst hj
      rw [if_pos rfl, hnext, hfresh]
      exact (Nat.zero_add _).symm
    · rw [if_neg hj, hs.carriedIn_other _ (next_ne hj), h.carried]
  · intro j hj
    have hne : j ≠ (week, strategy) := by
      rintro rfl
      rw [hsettled, if_pos rfl] at hj
      cases hj
    rw [hsettled, if_neg hne] at hj
    rw [hs.carriedIn_other _ (next_ne hne)]
    exact h.fresh j hj
  · intro j
    rw [(hrow j).2.2.1, paidOut_settle hs hclaimed, h.claimed]
  · intro j hj
    have hne : j ≠ (week, strategy) := by
      rintro rfl
      rw [hsettled, if_pos rfl] at hj
      cases hj
    rw [hsettled, if_neg hne] at hj
    obtain ⟨hold, hsum⟩ := h.unsettled j hj
    rw [(hrow j).2.2.2, fundedTo_append, hes]
    by_cases hjn : j = (week + 1, strategy)
    · subst hjn
      have hpool := hs.pool_next
      rw [if_pos rfl]
      by_cases hz : carried = 0
      · rw [if_neg fun hc => hc.2 hz]
        rw [hz] at hpool ⊢
        have hzero : (0 : Amount).toNat = 0 := rfl
        omega
      · rw [if_pos ⟨rfl, hz⟩]
        omega
    · rw [if_neg fun hc => hjn hc.1, if_neg fun hc => hjn hc.symm, hs.pool_other j hne hjn]
      omega
  · intro hz j
    have hcarried : carried = 0 := by
      have hzero := hz (week + 1, strategy)
      rw [hzero] at hnext
      have hsum : (0 : Amount).toNat = 0 := rfl
      apply BitVec.eq_of_toNat_eq
      omega
    have hbefore : ∀ k, s.carriedIn k = 0 := by
      intro k
      by_cases hk : k = (week + 1, strategy)
      · rw [hk]
        exact hfresh
      · rw [← hs.carriedIn_other k hk]
        exact hz k
    rw [(hrow j).2.2.2, if_neg fun hc => hc.2 hcarried, fundedTo_append, hes, hcarried,
      h.funded hbefore]
    simp

/-- The prizes' rows after a settlement. -/
theorem PrizeRows.settle (h : PrizeRows x s evs)
    (hs : Settlement s s' week strategy winners amounts carried.toNat stale)
    (hprizes : x₁.prizes = x.prizes) {es : List Event}
    (hes : ∀ key : PrizeKey, lastAwards key es = if (week, strategy) = (key.1, key.2.1) then
      Store.lastAward key.2.2 0 (winners.zip amounts) else 0) :
    PrizeRows (x₁.onSettled log week strategy winners amounts pnls carried) s' (evs ++ es) := by
  have hnone : ∀ a, x.prizes (week, strategy, a) = none := fun a =>
    h.fresh (week, strategy, a) hs.unsettled
  have hother : ∀ key : PrizeKey, (key.1, key.2.1) ≠ (week, strategy) →
      (x₁.onSettled log week strategy winners amounts pnls carried).prizes key = x.prizes key := by
    intro key hkey
    rw [Store.prizes_onSettled, hprizes]
    exact Store.putPrizes_other hkey
  constructor
  · rw [Store.prizes_onSettled, hprizes]
    exact Store.putPrizes_filed h.filed
  · intro key hkey
    rw [hs.settled', Function.update_apply] at hkey
    split at hkey
    · cases hkey
    · next hne =>
      rw [hother key hne]
      exact h.fresh key hkey
  · rintro ⟨wk, st, a⟩ hprize
    by_cases hkey : (wk, st) = (week, strategy)
    · obtain ⟨rfl, rfl⟩ := Prod.mk.inj hkey
      have hbefore : s.prizes (wk, st, a) = 0 := by
        by_contra hne
        exact h.known _ hne (hnone a)
      have hadds := recordPrizes_toNat hs.prizes' a
      have hawarded : awarded a (winners.zip amounts) ≠ 0 := by
        intro hz
        rw [hz, hbefore] at hadds
        exact hprize (BitVec.eq_of_toNat_eq hadds)
      have hmem := mem_of_awarded hawarded
      rw [List.map_fst_zip hs.lengths.le] at hmem
      rw [Store.prizes_onSettled]
      exact Store.putPrizes_known (.inl hmem)
    · rw [hother _ hkey]
      rw [recordPrizes_other hs.prizes' hkey] at hprize
      exact h.known _ hprize
  · rintro ⟨wk, st, a⟩
    rw [lastAwards_append, hes, ← h.amount, Store.prizeAmount, Store.prizeAmount]
    by_cases hkey : (wk, st) = (week, strategy)
    · obtain ⟨rfl, rfl⟩ := Prod.mk.inj hkey
      rw [if_pos rfl, Store.prizes_onSettled, hprizes,
        Store.putPrizes_amount (by rw [Nat.zero_add]; exact hs.lengths.le), hnone]
      exact (Nat.zero_add _).symm
    · rw [if_neg fun hc => hkey hc.symm, hother _ hkey, Nat.add_zero]
  · rintro ⟨wk, st, a⟩
    rw [hs.claimed', ← h.claimed, Store.prizeClaimed, Store.prizeClaimed]
    by_cases hkey : (wk, st) = (week, strategy)
    · obtain ⟨rfl, rfl⟩ := Prod.mk.inj hkey
      rw [hnone, Store.prizes_onSettled]
      apply Store.putPrizes_claimed
      rw [hprizes, hnone]
      rfl
    · rw [hother _ hkey]

/-- The totals after a settlement. -/
theorem TotalRow.settle (h : TotalRow x s n)
    (hs : Settlement s s' week strategy winners amounts carried.toNat stale)
    (hclaimed : ∀ a, s.claimed (week, strategy, a) = false)
    (ht : Travelled x x₁ (week + 1, strategy) carried total) :
    TotalRow (x₁.onSettled log week strategy winners amounts pnls carried) s' n := by
  obtain ⟨hfunded, hpaid, hclaims, hcount⟩ := ht.totals
  have hzip : (winners.zip amounts).map Prod.snd = amounts := List.map_snd_zip hs.lengths.ge
  constructor
  · rw [Store.loadTotals_onSettled]
    have hsum := sum_change (f := fun k => (s.carriedIn k).toNat)
      (g := fun k => (s'.carriedIn k).toNat) (week + 1, strategy) fun k hk => by
        rw [hs.carriedIn_other k hk]
    have hnext := hs.carriedIn_next
    have hbefore := h.funded
    dsimp only at hsum ⊢
    omega
  · rw [Store.loadTotals_onSettled]
    change x₁.loadTotals.paid + _ = _
    have hsum : ∑ k, (s'.prizes k).toNat = ∑ k, (s.prizes k).toNat + totalOf amounts := by
      have hall : (∑ k, if (fun _ => false : PrizeKey → Bool) k = true then 0 else
          (s'.prizes k).toNat) = _ := recordPrizes_unclaimed hs.prizes' fun _ => rfl
      rw [hzip] at hall
      simpa using hall
    rw [Store.putPrizes_paid (by rw [Nat.zero_add]; exact hs.lengths.le), List.drop_zero, hzip,
      hpaid, h.paid, hsum, Nat.zero_add]
    rfl
  · rw [Store.loadTotals_onSettled, hs.claimedPrizes hclaimed, ← h.claimed]
    exact hclaims
  · rw [Store.loadTotals_onSettled]
    change x₁.loadTotals.settledPools + 1 = _
    have hinsert : (Finset.univ.filter fun k => s'.settled k = true) =
        insert (week, strategy) (Finset.univ.filter fun k => s.settled k = true) := by
      ext k
      simp only [Finset.mem_filter, Finset.mem_univ, true_and, Finset.mem_insert, hs.settled',
        Function.update_apply]
      by_cases hk : k = (week, strategy)
      · simp [hk]
      · simp [hk]
    rw [hcount, h.settledPools, hinsert, Finset.card_insert_of_notMem]
    simp [hs.unsettled]

end Settle

/-! ## A claim -/

section Claim

variable {log : Log} {week : Week} {strategy : Strategy} {wallet : Address}

/-- Paying a prize of a settled slot. -/
theorem Tracks.claim (h : Tracks x s evs n) (hset : s.settled (week, strategy) = true)
    (hprize : s.prizes (week, strategy, wallet) ≠ 0)
    (hun : s.claimed (week, strategy, wallet) = false) :
    Tracks (x.onClaimed log week strategy wallet (s.prizes (week, strategy, wallet)))
      { s with claimed := Function.update s.claimed (week, strategy, wallet) true }
      (evs ++ [.claimed week strategy wallet (s.prizes (week, strategy, wallet))]) n := by
  -- the prize and its pool both have a row
  obtain ⟨prize, hrow⟩ := Option.ne_none_iff_exists'.mp (h.prizes.known _ hprize)
  have hfiled : prize.pool = (week, strategy) := h.prizes.filed _ prize hrow
  obtain ⟨pool, hpool⟩ : ∃ pool, x.pools (week, strategy) = some pool := by
    refine Option.ne_none_iff_exists'.mp fun hnone => ?_
    have hsettled := h.pools.settled (week, strategy)
    rw [hset, Store.loadPool, hnone] at hsettled
    cases hsettled
  have hload : x.loadPool (week, strategy) = pool := by
    rw [Store.loadPool, hpool]
    rfl
  obtain ⟨hpools, hprizes⟩ := Store.onClaimed_known log (s.prizes (week, strategy, wallet)) hrow
    (hfiled ▸ hpool)
  rw [hfiled] at hpools
  have hframe : ∀ k,
      (x.onClaimed log week strategy wallet (s.prizes (week, strategy, wallet))).loadPool k =
        if k = (week, strategy) then { x.loadPool k with
          claimed := (x.loadPool k).claimed + (s.prizes (week, strategy, wallet)).toNat }
        else x.loadPool k := by
    intro k
    by_cases hk : k = (week, strategy)
    · subst hk
      rw [if_pos rfl, hload, Store.loadPool, hpools, Function.update_self]
      rfl
    · rw [if_neg hk, Store.loadPool, hpools, Function.update_of_ne hk]
      rfl
  have hsame : ∀ k,
      ((x.onClaimed log week strategy wallet (s.prizes (week, strategy, wallet))).loadPool k).settled =
        (x.loadPool k).settled ∧
      ((x.onClaimed log week strategy wallet (s.prizes (week, strategy, wallet))).loadPool k).carried =
        (x.loadPool k).carried ∧
      ((x.onClaimed log week strategy wallet (s.prizes (week, strategy, wallet))).loadPool k).funded =
        (x.loadPool k).funded := by
    intro k
    rw [hframe]
    split
    · exact ⟨rfl, rfl, rfl⟩
    · exact ⟨rfl, rfl, rfl⟩
  constructor
  · refine ⟨fun k => ?_, fun k => ?_, h.pools.fresh, fun k => ?_, fun k hk => ?_, fun hz k => ?_⟩
    · rw [(hsame k).1]
      exact h.pools.settled k
    · rw [(hsame k).2.1]
      exact h.pools.carried k
    · rw [hframe]
      by_cases hk : k = (week, strategy)
      · subst hk
        rw [if_pos rfl]
        have hsum := sum_change
          (f := fun a => if s.claimed (week, strategy, a) = true then
            (s.prizes (week, strategy, a)).toNat else 0)
          (g := fun a => if Function.update s.claimed (week, strategy, wallet) true
            (week, strategy, a) = true then (s.prizes (week, strategy, a)).toNat else 0)
          wallet fun a ha => by
            rw [Function.update_of_ne (by simpa using ha)]
        simp only [hun, Function.update_self, if_true, Bool.false_eq_true, if_false] at hsum
        have hbefore := h.pools.claimed (week, strategy)
        simp only [Storage.paidOut] at hbefore ⊢
        omega
      · rw [if_neg hk, h.pools.claimed, Storage.paidOut, Storage.paidOut]
        refine Finset.sum_congr rfl fun a _ => ?_
        have hne : (k.1, k.2, a) ≠ (week, strategy, wallet) := by
          rintro heq
          obtain ⟨hweek, hrest⟩ := Prod.mk.inj heq
          exact hk (Prod.ext hweek (Prod.mk.inj hrest).1)
        simp only [Function.update_of_ne hne]
    · rw [(hsame k).2.2, fundedTo_append]
      exact h.pools.unsettled k hk
    · rw [(hsame k).2.2, fundedTo_append]
      exact h.pools.funded hz k
  · constructor
    · intro key p hp
      rw [hprizes] at hp
      by_cases hkey : key = (week, strategy, wallet)
      · subst hkey
        rw [Function.update_self] at hp
        rw [← Option.some.inj hp]
        exact hfiled
      · rw [Function.update_of_ne hkey] at hp
        exact h.prizes.filed key p hp
    · intro key hkey
      have hne : key ≠ (week, strategy, wallet) := by
        rintro rfl
        cases hset.symm.trans hkey
      rw [hprizes, Function.update_of_ne hne]
      exact h.prizes.fresh key hkey
    · intro key hkey
      rw [hprizes]
      by_cases heq : key = (week, strategy, wallet)
      · rw [heq, Function.update_self]
        exact Option.some_ne_none _
      · rw [Function.update_of_ne heq]
        exact h.prizes.known key hkey
    · intro key
      rw [lastAwards_append, ← h.prizes.amount, Store.prizeAmount, Store.prizeAmount, hprizes]
      by_cases heq : key = (week, strategy, wallet)
      · rw [heq, Function.update_self, hrow]
        rfl
      · rw [Function.update_of_ne heq]
        rfl
    · intro key
      rw [Store.prizeClaimed, hprizes]
      by_cases heq : key = (week, strategy, wallet)
      · rw [heq, Function.update_self]
        simp
      · simp only [Function.update_of_ne heq]
        exact h.prizes.claimed key
  · refine ⟨h.totals.funded, h.totals.paid, ?_, h.totals.settledPools⟩
    rw [Store.loadTotals_onClaimed]
    have hbefore := h.totals.claimed
    have hpaid := (prizes_claim hun).2
    dsimp only
    omega

end Claim

/-! ## Every history -/

section History

variable {w w' w₀ : World τ}

/-- The rows follow the contract, whatever else is known of the logs. -/
structure Followed (tok : IERC20 τ) (this : Address) (w : World τ) : Prop where
  sound : w.Sound tok this
  tracks : ∀ logs : List Log, logs.map Log.event = w.events →
    Tracks (Store.index logs) w.chain.storage w.events w.paidIn

theorem followed_deployed (h : World.Deployed tok this w) : Followed tok this w := by
  refine ⟨h.sound, fun logs hlogs => ?_⟩
  obtain ⟨_⟩ := h
  rw [List.map_eq_nil_iff.mp hlogs]
  exact tracks_deploy _ _

/-- The rows after an accepted call. -/
theorem Followed.accepted (h : Followed tok this w) {call : Call} {chain : Chain τ}
    {events : List Event} (hexec : call.exec tok this w.chain = .ok (chain, events))
    {logs : List Log} (hlogs : logs.map Log.event = w.events ++ events) :
    Tracks (Store.index logs) chain.storage (w.events ++ events)
      (w.paidIn + Entry.paidIn (call, events)) := by
  obtain ⟨before, after, rfl, hbefore, hafter⟩ := List.map_eq_append_iff.mp hlogs
  have ht := h.tracks before hbefore
  rw [Store.index, List.foldl_append]
  change Tracks (after.foldl Store.handle (Store.index before)) _ _ _
  generalize Store.index before = x at ht
  have hquiet : (∀ e ∈ events, silent e = true) → after.foldl Store.handle x = x := by
    intro hsilent
    refine foldl_silent fun log hlog => hsilent _ ?_
    rw [← hafter]
    exact List.mem_map_of_mem hlog
  obtain ⟨msg, op⟩ := call
  cases op with
  | setSettler settler allowed =>
    simp only [Call.exec, setSettler, bind_eq_ok] at hexec
    obtain ⟨_, _, hexec⟩ := hexec
    cases hexec
    rw [hquiet (by simp [silent])]
    exact ht.quiet rfl rfl rfl rfl rfl (by simp [silent])
  | setOwner next =>
    simp only [Call.exec, setOwner, bind_eq_ok] at hexec
    obtain ⟨_, _, hexec⟩ := hexec
    cases hexec
    rw [hquiet (by simp [silent])]
    exact ht.quiet rfl rfl rfl rfl rfl (by simp [silent])
  | fund week strategy amount =>
    obtain ⟨hun, _, _, total, hadds, hs, rfl⟩ := fund_spec hexec
    obtain ⟨log, rfl, hlog⟩ := List.map_eq_singleton_iff.mp hafter
    rw [List.foldl_cons, List.foldl_nil, Store.handle, hlog, hs]
    exact ht.fund hun hadds
  | settle week strategy winners amounts pnls =>
    obtain ⟨carried, stale, kept, hs, hkept, rfl⟩ := settle_events hexec
    obtain ⟨x₁, log, htravel, hfold⟩ := foldl_settle hkept hafter
    have hclaimed : ∀ a, w.chain.storage.claimed (week, strategy, a) = false := fun a =>
      h.sound.fresh week strategy a hs.unsettled
    rw [hfold]
    exact ⟨ht.pools.settle hs hclaimed htravel (fundedTo_settle hkept),
      ht.prizes.settle hs htravel.prizes (lastAwards_settle hkept),
      ht.totals.settle hs hclaimed htravel⟩
  | sweep dst =>
    obtain ⟨_, _, hs, rfl⟩ := sweep_spec hexec
    rw [hquiet (by simp [silent]), hs]
    exact ht.quiet rfl rfl rfl rfl rfl (by simp [silent])
  | claim week strategy =>
    obtain ⟨hset, hprize, hun, _, hs, rfl⟩ := claim_spec hexec
    obtain ⟨log, rfl, hlog⟩ := List.map_eq_singleton_iff.mp hafter
    rw [List.foldl_cons, List.foldl_nil, Store.handle, hlog, hs]
    exact ht.claim hset hprize hun

/-- Every event on the chain is followed. -/
theorem Followed.step {a : Action τ} (h : Followed tok this w) (hstep : World.Step tok this w a w') :
    Followed tok this w' := by
  refine ⟨h.sound.step hstep, fun logs hlogs => ?_⟩
  cases hstep with
  | @accepted c chain events hexec =>
    have hevents : (⟨chain, w.journal ++ [(c, events)]⟩ : World τ).events = w.events ++ events := by
      simp [World.events]
    rw [hevents] at hlogs ⊢
    rw [(World.journal_snoc chain w.journal _).1]
    exact h.accepted hexec hlogs
  | reverted _ => exact h.tracks logs hlogs
  | others _ _ => exact h.tracks logs hlogs

end History

/-! ## Where rows and contract part -/

/-- The rows say what the contract says: each pool's, each prize's and the totals. -/
structure Mirrors (x : Store) (w : World τ) : Prop where
  /-- A pool was funded with the sum of its fundings. -/
  funded : ∀ k, (x.loadPool k).funded = fundedTo k w.events
  settled : ∀ k, (x.loadPool k).settled = w.chain.storage.settled k
  /-- A settlement carried what the next week received. -/
  carried : ∀ k : Slot, (x.loadPool k).carried = (w.chain.storage.carriedIn (k.1 + 1, k.2)).toNat
  claimed : ∀ k, (x.loadPool k).claimed = w.chain.storage.paidOut k
  prize : ∀ k, x.prizeAmount k = (w.chain.storage.prizes k).toNat
  taken : ∀ k, x.prizeClaimed k = w.chain.storage.claimed k
  /-- Everything ever paid in through `fund`, once. -/
  totalFunded : x.loadTotals.funded = w.paidIn
  totalPaid : x.loadTotals.paid = ∑ k, (w.chain.storage.prizes k).toNat
  totalClaimed : x.loadTotals.claimed = w.chain.storage.claimedPrizes
  pools : x.loadTotals.pools = (slotsOf w.events).card
  settledPools : x.loadTotals.settledPools =
    (Finset.univ.filter fun k => w.chain.storage.settled k = true).card

/-- A settlement about to be accepted carries nothing (the winners get the whole pool, or all of it
was carried in before), and a wallet it lists more than once gets everything from its last entry. -/
def Plain (this : Address) (w : World τ) : Action τ → Prop
  | .call ⟨msg, .settle week strategy winners amounts pnls⟩ =>
    (∃ r, settle this msg week strategy winners amounts pnls w.chain = .ok r) →
      (totalOf amounts = (w.chain.storage.pool (week, strategy)).toNat ∨
        w.chain.storage.carriedIn (week, strategy) = w.chain.storage.pool (week, strategy)) ∧
      ∀ wallet, Store.lastAward wallet 0 (winners.zip amounts) =
        awarded wallet (winners.zip amounts)
  | _ => True

/-- Something travelled, or a prize is more than its last entry. -/
def Blurred (w : World τ) : Prop :=
  (∃ k, w.chain.storage.carriedIn k ≠ 0) ∨
    ∃ k, lastAwards k w.events ≠ (w.chain.storage.prizes k).toNat

section Part

variable {w w' w₀ : World τ}

/-- The rows mirror the contract exactly while nothing is blurred. -/
theorem Followed.mirrors_iff (h : Followed tok this w) {logs : List Log}
    (hlogs : logs.map Log.event = w.events) :
    Mirrors (Store.index logs) w ↔ ¬ Blurred w := by
  have ht := h.tracks logs hlogs
  have hcounts : (Store.index logs).loadTotals.pools = (slotsOf w.events).card := by
    rw [← hlogs]
    exact (counts_index logs).pools
  constructor
  · rintro hm (⟨k, hk⟩ | ⟨k, hk⟩)
    · have hsum : ∑ k, (w.chain.storage.carriedIn k).toNat = 0 := by
        have htotal := ht.totals.funded
        rw [hm.totalFunded] at htotal
        omega
      have hzero := Finset.sum_eq_zero_iff.mp hsum k (Finset.mem_univ k)
      exact hk (BitVec.eq_of_toNat_eq hzero)
    · exact hk ((ht.prizes.amount k).symm.trans (hm.prize k))
  · intro hclear
    obtain ⟨hcarried, hawards⟩ := not_or.mp hclear
    have hnone : ∀ k, w.chain.storage.carriedIn k = 0 := fun k => by
      by_contra hk
      exact hcarried ⟨k, hk⟩
    have hlast : ∀ k, lastAwards k w.events = (w.chain.storage.prizes k).toNat := fun k => by
      by_contra hk
      exact hawards ⟨k, hk⟩
    have hsum : ∑ k, (w.chain.storage.carriedIn k).toNat = 0 :=
      Finset.sum_eq_zero fun k _ => by rw [hnone]; rfl
    exact {
      funded := ht.pools.funded hnone
      settled := ht.pools.settled
      carried := ht.pools.carried
      claimed := ht.pools.claimed
      prize := fun k => (ht.prizes.amount k).trans (hlast k)
      taken := ht.prizes.claimed
      totalFunded := by rw [ht.totals.funded, hsum, Nat.add_zero]
      totalPaid := ht.totals.paid
      totalClaimed := ht.totals.claimed
      pools := hcounts
      settledPools := ht.totals.settledPools }

/-- Before a slot is settled it has no prizes, in the rows or in the contract. -/
theorem Followed.unsettled_awards (h : Followed tok this w) {k : PrizeKey}
    (hk : w.chain.storage.settled (k.1, k.2.1) = false) :
    lastAwards k w.events = 0 ∧ w.chain.storage.prizes k = 0 := by
  -- any logs will do, so that there are some is enough
  let log : Event → Log := fun e => ⟨e, ⟨0, 0, 0⟩, 0, ""⟩
  have hlogs : (w.events.map log).map Log.event = w.events := by
    rw [List.map_map]
    exact List.map_id _
  have ht := h.tracks _ hlogs
  have hnone := ht.prizes.fresh k hk
  constructor
  · rw [← ht.prizes.amount, Store.prizeAmount, hnone]
    rfl
  · by_contra hprize
    exact ht.prizes.known k hprize hnone

/-- Only a settlement blurs anything, and nothing is ever made sharp again. -/
theorem Followed.blurred_step {a : Action τ} (h : Followed tok this w)
    (hstep : World.Step tok this w a w') : Blurred w' ↔ Blurred w ∨ ¬ Plain this w a := by
  cases hstep with
  | others _ _ => exact ⟨fun hb => .inl hb, fun hb => hb.resolve_right fun hn => hn trivial⟩
  | @reverted c e hexec =>
    refine ⟨fun hb => .inl hb, fun hb => hb.resolve_right fun hn => hn ?_⟩
    obtain ⟨msg, op⟩ := c
    cases op with
    | settle week strategy winners amounts pnls =>
      rintro ⟨r, hr⟩
      exact absurd (hexec.symm.trans hr) nofun
    | _ => trivial
  | @accepted c chain events hexec =>
    have hevents : (⟨chain, w.journal ++ [(c, events)]⟩ : World τ).events = w.events ++ events := by
      simp [World.events]
    have hquiet : chain.storage.carriedIn = w.chain.storage.carriedIn →
        chain.storage.prizes = w.chain.storage.prizes → (∀ k, lastAwards k events = 0) →
        Plain this w (.call c) →
        (Blurred (⟨chain, w.journal ++ [(c, events)]⟩ : World τ) ↔
          Blurred w ∨ ¬ Plain this w (.call c)) := by
      intro hcarried hprizes hawards hplain
      have hsame : Blurred (⟨chain, w.journal ++ [(c, events)]⟩ : World τ) ↔ Blurred w := by
        unfold Blurred
        simp only [hevents, lastAwards_append, hawards, Nat.add_zero, hcarried, hprizes]
      rw [hsame]
      exact ⟨.inl, fun hb => hb.resolve_right fun hn => hn hplain⟩
    obtain ⟨msg, op⟩ := c
    cases op with
    | setSettler settler allowed =>
      simp only [Call.exec, setSettler, bind_eq_ok] at hexec
      obtain ⟨_, _, hexec⟩ := hexec
      cases hexec
      exact hquiet rfl rfl (fun _ => rfl) trivial
    | setOwner next =>
      simp only [Call.exec, setOwner, bind_eq_ok] at hexec
      obtain ⟨_, _, hexec⟩ := hexec
      cases hexec
      exact hquiet rfl rfl (fun _ => rfl) trivial
    | fund week strategy amount =>
      obtain ⟨_, _, _, total, _, hs, rfl⟩ := fund_spec hexec
      exact hquiet (by rw [hs]) (by rw [hs]) (fun _ => rfl) trivial
    | sweep dst =>
      obtain ⟨_, _, hs, rfl⟩ := sweep_spec hexec
      exact hquiet (by rw [hs]) (by rw [hs]) (fun _ => rfl) trivial
    | claim week strategy =>
      obtain ⟨_, _, _, _, hs, rfl⟩ := claim_spec hexec
      exact hquiet (by rw [hs]) (by rw [hs]) (fun _ => rfl) trivial
    | settle week strategy winners amounts pnls =>
      obtain ⟨carried, stale, kept, hs, hkept, hes⟩ := settle_events hexec
      have hlisted : ∀ key : PrizeKey, lastAwards key events =
          if (week, strategy) = (key.1, key.2.1) then
            Store.lastAward key.2.2 0 (winners.zip amounts) else 0 := by
        intro key
        rw [hes]
        exact lastAwards_settle hkept key
      have hzero := hs.carried_eq_zero
      have hnext := hs.carriedIn_next
      have hplain : Plain this w (.call ⟨msg, .settle week strategy winners amounts pnls⟩) ↔
          carried.toNat = 0 ∧ ∀ a, Store.lastAward a 0 (winners.zip amounts) =
            awarded a (winners.zip amounts) := by
        rw [hzero]
        exact ⟨fun hp => hp ⟨_, hexec⟩, fun hp _ => hp⟩
      -- the slot's own prizes are its awards, every other slot's are as they were
      have hawards : ∀ k : PrizeKey, (lastAwards k (w.events ++ events) = (chain.storage.prizes k).toNat ↔
          if (week, strategy) = (k.1, k.2.1) then Store.lastAward k.2.2 0 (winners.zip amounts) =
            awarded k.2.2 (winners.zip amounts)
          else lastAwards k w.events = (w.chain.storage.prizes k).toNat) := by
        rintro ⟨wk, st, a⟩
        rw [lastAwards_append, hlisted]
        by_cases hkey : (week, strategy) = (wk, st)
        · obtain ⟨rfl, rfl⟩ := Prod.mk.inj hkey
          obtain ⟨hlast, hprize⟩ := h.unsettled_awards (k := (week, strategy, a)) hs.unsettled
          have hadds := recordPrizes_toNat hs.prizes' a
          rw [if_pos rfl, if_pos rfl, hlast, Nat.zero_add, hadds, hprize]
          simp
        · rw [if_neg hkey, if_neg hkey, Nat.add_zero,
            recordPrizes_other hs.prizes' fun hk => hkey hk.symm]
      have hold : ∀ k : PrizeKey, lastAwards k w.events ≠ (w.chain.storage.prizes k).toNat →
          (week, strategy) ≠ (k.1, k.2.1) := by
        intro k hk heq
        have hun : w.chain.storage.settled (k.1, k.2.1) = false := heq ▸ hs.unsettled
        obtain ⟨hlast, hprize⟩ := h.unsettled_awards hun
        rw [hlast, hprize] at hk
        exact hk rfl
      rw [hplain]
      unfold Blurred
      rw [hevents]
      constructor
      · rintro (⟨k, hk⟩ | ⟨k, hk⟩)
        · by_cases hkn : k = (week + 1, strategy)
          · by_cases hz : carried.toNat = 0
            · refine .inl (.inl ⟨k, fun hc => hk (BitVec.eq_of_toNat_eq ?_)⟩)
              rw [hkn] at hc ⊢
              rw [hnext, hc, hz]
              rfl
            · exact .inr fun hp => hz hp.1
          · rw [hs.carriedIn_other k hkn] at hk
            exact .inl (.inl ⟨k, hk⟩)
        · rw [ne_eq, hawards k] at hk
          split at hk
          · exact .inr fun hp => hk (hp.2 _)
          · exact .inl (.inr ⟨k, hk⟩)
      · rintro ((⟨k, hk⟩ | ⟨k, hk⟩) | hn)
        · refine .inl ⟨k, fun hc => hk (BitVec.eq_of_toNat_eq ?_)⟩
          by_cases hkn : k = (week + 1, strategy)
          · rw [hkn] at hc ⊢
            rw [hc] at hnext
            have hsum : (0 : Amount).toNat = 0 := rfl
            omega
          · rw [← hs.carriedIn_other k hkn, hc]
        · refine .inr ⟨k, fun hc => ?_⟩
          rw [hawards k, if_neg (hold k hk)] at hc
          exact hk hc
        · rcases not_and_or.mp hn with hz | hlast
          · refine .inl ⟨(week + 1, strategy), fun hc => hz ?_⟩
            rw [hc] at hnext
            have hsum : (0 : Amount).toNat = 0 := rfl
            omega
          · obtain ⟨a, ha⟩ := not_forall.mp hlast
            refine .inr ⟨(week, strategy, a), fun hc => ha ?_⟩
            rwa [hawards (week, strategy, a), if_pos rfl] at hc

/-- Over every history of calls, the indexer's rows say what the contract says exactly when no
settlement has carried anything and each has listed a repeated winner's prize in its last entry. -/
theorem indexer_mirrors_iff {as : List (Action τ)} {logs : List Log}
    (h₀ : World.Deployed tok this w₀) (h : Run (World.Step tok this) Always w₀ as w)
    (hlogs : logs.map Log.event = w.events) :
    Mirrors (Store.index logs) w ↔ Run (World.Step tok this) (Plain this) w₀ as w := by
  have hstart : Followed tok this w₀ := followed_deployed h₀
  have hfollowed : Followed tok this w := h.invariant hstart fun _ _ _ hi _ hs => hi.step hs
  rw [hfollowed.mirrors_iff hlogs]
  constructor
  · intro hclear
    refine h.guarded (I := Followed tok this) (B := Blurred) hstart (fun _ _ _ hi hs => hi.step hs)
      hclear ?_ ?_
    · intro t a u hi hs hb
      exact (hi.blurred_step hs).mpr (.inl hb)
    · intro t a u hi hs hn
      exact (hi.blurred_step hs).mpr (.inr hn)
  · intro hrun
    have hboth : Followed tok this w ∧ ¬ Blurred w := by
      refine hrun.invariant (I := fun w => Followed tok this w ∧ ¬ Blurred w) ⟨hstart, ?_⟩ ?_
      · obtain ⟨_⟩ := h₀
        rintro (⟨k, hk⟩ | ⟨k, hk⟩)
        · exact hk rfl
        · exact hk rfl
      · intro t a u hi hok hs
        refine ⟨hi.1.step hs, fun hb => ?_⟩
        rcases (hi.1.blurred_step hs).mp hb with hb | hn
        · exact hi.2 hb
        · exact hn hok
    exact hboth.2

end Part

/-! ## Three ways to part -/

/-- The events of a history, each in a block of its own. -/
def logsOf (evs : List Event) : List Log :=
  evs.zipIdx.map fun e => ⟨e.1, ⟨10143, e.2, 0⟩, e.2, "0x"⟩

theorem logsOf_events (evs : List Event) : (logsOf evs).map Log.event = evs := by
  rw [logsOf, List.map_map]
  exact List.zipIdx_map_fst 0 evs

/-- A week funded with ten units, all of which one winner gets and claims. -/
def allWon : World TestToken :=
  [⟨⟨3, 0⟩, .fund 1 5 10⟩, ⟨⟨2, 2000000⟩, .settle 1 5 [4] [10] [1]⟩, ⟨⟨4, 2000001⟩, .claim 1 5⟩].foldl
    (World.play TestToken.erc20 1) justDeployed

theorem indexer_mirrors_allWon : Mirrors (Store.index (logsOf allWon.events)) allWon := by
  refine (indexer_mirrors_iff justDeployed_deployed (World.run_play _ _ _ _)
    (logsOf_events _)).mpr ?_
  refine ((Run.nil.snoc ?_ (World.step_play _ _ _ _)).snoc ?_ (World.step_play _ _ _ _)).snoc ?_
    (World.step_play _ _ _ _)
  · trivial
  · intro _
    refine ⟨.inl (by decide), fun wallet => ?_⟩
    by_cases hw : (4 : Address) = wallet
    · subst hw
      rfl
    · simp [Store.lastAward, awarded]
  · trivial

/-- Two weeks are funded, with six units and with four. The second is settled first and nobody wins
it; the first lists one winner twice, with one unit and with two. -/
def parted : World TestToken :=
  [⟨⟨3, 0⟩, .fund 1 5 6⟩, ⟨⟨3, 0⟩, .fund 2 5 4⟩, ⟨⟨2, 2000000⟩, .settle 2 5 [] [] []⟩,
    ⟨⟨2, 2000000⟩, .settle 1 5 [4, 4] [1, 2] [1, 1]⟩].foldl
      (World.play TestToken.erc20 1) justDeployed

/-- The row of the second week says three units were funded where the events add up to seven; the
winner's row says two units where the contract pays three; and the totals say seventeen units were
funded where ten were paid in. -/
theorem indexer_parted : parted.Reachable TestToken.erc20 1 ∧
    ¬ Mirrors (Store.index (logsOf parted.events)) parted ∧
    ((Store.index (logsOf parted.events)).loadPool (2, 5)).funded = 3 ∧
    fundedTo (2, 5) parted.events = 7 ∧
    (Store.index (logsOf parted.events)).prizeAmount (1, 5, 4) = 2 ∧
    parted.chain.storage.prizes (1, 5, 4) = 3 ∧
    (Store.index (logsOf parted.events)).loadTotals.funded = 17 ∧ parted.paidIn = 10 := by
  refine ⟨⟨_, _, justDeployed_deployed, World.run_play _ _ _ _⟩, fun hm => ?_, ?_, ?_, ?_, ?_, ?_, ?_⟩
  · exact absurd hm.totalFunded (by decide)
  · decide
  · decide
  · decide
  · decide
  · decide
  · decide

end SuperAgent.Indexer
