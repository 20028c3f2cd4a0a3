import SuperAgent.Contract.Solvency

/-!
# What becomes of the money paid in

Every unit funded waits in a pool, is recorded as a prize, is retained or has
been swept, as long as no settlement carries its remainder into a week that
was settled before it. What such a settlement carries is in no later settle,
claim or sweep.
-/

namespace SuperAgent.Contract

variable {τ : Type} {tok : IERC20 τ} {this : Address} {w w' : World τ}

/-- Everything funded that is still somewhere: waiting in a pool, recorded, retained or gone
through a sweep. -/
noncomputable def World.held (w : World τ) : ℕ :=
  w.chain.storage.unsettledPools + w.chain.storage.unclaimedPrizes +
    w.chain.storage.claimedPrizes + w.chain.storage.retained.toNat + w.swept

/-- What a settlement about to be accepted would carry lands in a pool still to be settled, or
there is nothing to carry: the winners get the whole pool, or all of it was carried in before. -/
def CarryLands (this : Address) (w : World τ) : Action τ → Prop
  | .call ⟨msg, .settle week strategy winners amounts pnls⟩ =>
    (∃ r, settle this msg week strategy winners amounts pnls w.chain = .ok r) →
    w.chain.storage.settled (week + 1, strategy) = true →
    totalOf amounts = (w.chain.storage.pool (week, strategy)).toNat ∨
      w.chain.storage.carriedIn (week, strategy) = w.chain.storage.pool (week, strategy)
  | _ => True

/-- What a settlement carries into a week settled already. -/
def Storage.lost (s : Storage) (week : Week) (strategy : Strategy) (carried : ℕ) : ℕ :=
  if s.settled (week + 1, strategy) = true then carried else 0

/-- What is carried either lands or is lost. -/
theorem Storage.landed_add_lost (s : Storage) (carried : ℕ) (week : Week) (strategy : Strategy) :
    s.landed week strategy carried + s.lost week strategy carried = carried := by
  unfold Storage.landed Storage.lost
  split
  · exact Nat.zero_add carried
  · rfl

section Settlement

variable {s s' : Storage} {week : Week} {strategy : Strategy} {winners : List Address}
  {amounts : List Amount} {carried stale : ℕ}

/-- Nothing travels exactly when the winners get everything or all of it came from before. -/
theorem Settlement.carried_eq_zero
    (h : Settlement s s' week strategy winners amounts carried stale) :
    carried = 0 ↔ totalOf amounts = (s.pool (week, strategy)).toNat ∨
      s.carriedIn (week, strategy) = s.pool (week, strategy) := by
  have hsplit := h.split
  have htravels := h.travels
  have hle := h.carriedIn_le
  rw [← BitVec.toNat_inj]
  omega

/-- A settlement loses nothing exactly when its remainder lands or is empty. -/
theorem Settlement.lost_eq_zero
    (h : Settlement s s' week strategy winners amounts carried stale) :
    s.lost week strategy carried = 0 ↔ (s.settled (week + 1, strategy) = true →
      totalOf amounts = (s.pool (week, strategy)).toNat ∨
        s.carriedIn (week, strategy) = s.pool (week, strategy)) := by
  rw [← h.carried_eq_zero]
  unfold Storage.lost
  split
  · next hn => exact ⟨fun h _ => h, fun h => h hn⟩
  · next hn => exact ⟨fun _ h => absurd h hn, fun _ => rfl⟩

end Settlement

/-- Nothing is paid in and nothing is held when the contract has just been deployed. -/
theorem World.Deployed.held (h : World.Deployed tok this w) : w.held = w.paidIn := by
  obtain ⟨_⟩ := h
  simp [World.held, World.paidIn, World.swept, deploy, Storage.unsettledPools,
    Storage.unclaimedPrizes, Storage.claimedPrizes]

/-- Every event on the chain takes in what is held after it, up to what a settlement loses,
and loses nothing exactly when what it carries lands. -/
theorem World.Step.gap {a : Action τ} (h : World.Step tok this w a w') (hw : w.Sound tok this) :
    ∃ lost, w'.paidIn + w.held = w.paidIn + w'.held + lost ∧
      (lost = 0 ↔ CarryLands this w a) := by
  cases h with
  | others _ _ => exact ⟨0, rfl, fun _ => trivial, fun _ => rfl⟩
  | @reverted c e hexec =>
    refine ⟨0, rfl, fun _ => ?_, fun _ => rfl⟩
    obtain ⟨msg, op⟩ := c
    cases op with
    | settle week strategy winners amounts pnls =>
      rintro ⟨r, hr⟩
      exact absurd (hexec.symm.trans hr) nofun
    | _ => trivial
  | @accepted c chain events hexec =>
    have hpaid : (⟨chain, w.journal ++ [(c, events)]⟩ : World τ).paidIn =
        w.paidIn + Entry.paidIn (c, events) := (World.journal_snoc chain w.journal _).1
    have hswept : (⟨chain, w.journal ++ [(c, events)]⟩ : World τ).swept =
        w.swept + Entry.swept (c, events) := (World.journal_snoc chain w.journal _).2.1
    obtain ⟨msg, op⟩ := c
    simp only [World.held, hpaid, hswept]
    clear hpaid hswept
    cases op with
    | setSettler settler allowed =>
      simp only [Call.exec, setSettler, bind_eq_ok] at hexec
      obtain ⟨_, _, hexec⟩ := hexec
      cases hexec
      exact ⟨0, rfl, fun _ => trivial, fun _ => rfl⟩
    | setOwner next =>
      simp only [Call.exec, setOwner, bind_eq_ok] at hexec
      obtain ⟨_, _, hexec⟩ := hexec
      cases hexec
      exact ⟨0, rfl, fun _ => trivial, fun _ => rfl⟩
    | fund week strategy amount =>
      obtain ⟨hun, _, _, total, hadds, hs, rfl⟩ := fund_spec hexec
      have hpools := unsettledPools_fund hun hadds
      refine ⟨0, ?_, fun _ => trivial, fun _ => rfl⟩
      rw [hs, hpools]
      simp only [Entry.paidIn, Entry.swept, Storage.unclaimedPrizes, Storage.claimedPrizes,
        List.map_cons, List.map_nil, List.sum_cons, List.sum_nil]
      omega
    | settle week strategy winners amounts pnls =>
      obtain ⟨_, carried, stale, _, hs, _⟩ := settle_spec hexec
      have hfresh := fun a => hw.fresh week strategy a hs.unsettled
      have hpools := hs.unsettledPools
      have hunclaimed := hs.unclaimedPrizes hfresh
      have hclaimed := hs.claimedPrizes hfresh
      have hretained := hs.retained'
      have hsplit := hs.split
      have hland := w.chain.storage.landed_add_lost carried.toNat week strategy
      have hsilent := (settle_silent hexec).1
      refine ⟨w.chain.storage.lost week strategy carried.toNat, ?_, ?_⟩
      · rw [hsilent, hclaimed, hunclaimed, hretained]
        simp only [Entry.paidIn]
        omega
      · rw [hs.lost_eq_zero]
        exact ⟨fun h _ => h, fun h => h ⟨_, hexec⟩⟩
    | sweep dst =>
      obtain ⟨_, _, hs, rfl⟩ := sweep_spec hexec
      refine ⟨0, ?_, fun _ => trivial, fun _ => rfl⟩
      have hz : (0 : Amount).toNat = 0 := rfl
      rw [hs]
      simp only [Entry.paidIn, Entry.swept, Storage.unsettledPools, Storage.unclaimedPrizes,
        Storage.claimedPrizes, List.map_cons, List.map_nil, List.sum_cons, List.sum_nil]
      omega
    | claim week strategy =>
      obtain ⟨_, _, hun, _, hs, rfl⟩ := claim_spec hexec
      obtain ⟨hunclaimed, hclaimed⟩ := prizes_claim hun
      refine ⟨0, ?_, fun _ => trivial, fun _ => rfl⟩
      rw [hs, hclaimed]
      simp only [Entry.paidIn, Entry.swept, Storage.unsettledPools, List.map_cons, List.map_nil,
        List.sum_cons, List.sum_nil] at hunclaimed ⊢
      omega

/-- What is held never exceeds what was paid in. -/
theorem World.Reachable.covered (h : w.Reachable tok this) : w.held ≤ w.paidIn := by
  obtain ⟨w₀, as, h₀, hrun⟩ := h
  suffices hboth : w.Sound tok this ∧ w.held ≤ w.paidIn from hboth.2
  refine hrun.invariant (I := fun w => w.Sound tok this ∧ w.held ≤ w.paidIn)
    ⟨h₀.sound, h₀.held.le⟩ fun t a u hi _ hs => ?_
  obtain ⟨lost, hgap, _⟩ := hs.gap hi.1
  exact ⟨hi.1.step hs, by omega⟩

/-! ## Settling weeks out of order -/

/-- Everything paid in stays held exactly in the histories where each settlement's remainder
lands in a week still to be settled. -/
theorem paidIn_eq_held_iff {w₀ w : World τ} {as : List (Action τ)}
    (h₀ : World.Deployed tok this w₀) (h : Run (World.Step tok this) Always w₀ as w) :
    w.paidIn = w.held ↔ Run (World.Step tok this) (CarryLands this) w₀ as w := by
  constructor
  · intro heq
    -- a step that loses something leaves less held than was paid in, and nothing makes up for it
    refine h.guarded (I := fun w => w.Sound tok this ∧ w.held ≤ w.paidIn)
      (B := fun w => w.held < w.paidIn) ⟨h₀.sound, h₀.held.le⟩ ?_ (by omega) ?_ ?_
    · intro t a u ht hs
      obtain ⟨lost, hgap, _⟩ := hs.gap ht.1
      exact ⟨ht.1.step hs, by omega⟩
    · intro t a u ht hs hbad
      obtain ⟨lost, hgap, _⟩ := hs.gap ht.1
      omega
    · intro t a u ht hs hout
      obtain ⟨lost, hgap, hlost⟩ := hs.gap ht.1
      have hpos : lost ≠ 0 := fun hz => hout (hlost.mp hz)
      have := ht.2
      omega
  · intro hrun
    suffices hboth : w.Sound tok this ∧ w.paidIn = w.held from hboth.2
    refine hrun.invariant (I := fun w => w.Sound tok this ∧ w.paidIn = w.held)
      ⟨h₀.sound, h₀.held.symm⟩ fun t a u ht hok hs => ?_
    obtain ⟨lost, hgap, hlost⟩ := hs.gap ht.1
    have hz := hlost.mpr hok
    exact ⟨ht.1.step hs, by omega⟩

/-- A week settled while the next one is still open keeps all its money. -/
theorem paidIn_eq_held_wonWeek : wonWeek.paidIn = wonWeek.held := by
  refine (paidIn_eq_held_iff justDeployed_deployed (World.run_play _ _ _ _)).mpr ?_
  refine (Run.nil.snoc ?_ (World.step_play _ _ _ _)).snoc ?_ (World.step_play _ _ _ _)
  · trivial
  · intro _ hnext
    exact absurd hnext (by decide)

/-- Week two settled empty, then week one without winners. -/
def outOfOrder : World TestToken :=
  [⟨⟨3, 0⟩, .fund 1 5 10⟩, ⟨⟨2, 2000000⟩, .settle 2 5 [] [] []⟩,
    ⟨⟨2, 2000000⟩, .settle 1 5 [] [] []⟩].foldl (World.play TestToken.erc20 1) justDeployed

/-- The ten units of week one are carried into week two, which was settled before: they are in
no pool still to be settled, in no prize, neither retained nor swept. -/
theorem outOfOrder_stranded :
    outOfOrder.Reachable TestToken.erc20 1 ∧ outOfOrder.paidIn = 10 ∧ outOfOrder.held = 0 := by
  refine ⟨⟨_, _, justDeployed_deployed, World.run_play _ _ _ _⟩, by rfl, ?_⟩
  have hsettled : outOfOrder.chain.storage.settled =
      Function.update (Function.update (fun _ => false) (2, 5) true) (1, 5) true := rfl
  have hpool : outOfOrder.chain.storage.pool = Function.update (Function.update (Function.update
      (Function.update (fun _ => 0) (1, 5) 10) (2, 5) 0) (1, 5) 0) (2, 5) 10 := rfl
  have hprizes : outOfOrder.chain.storage.prizes = fun _ => 0 := rfl
  have hunsettled : outOfOrder.chain.storage.unsettledPools = 0 := by
    refine Finset.sum_eq_zero fun k _ => ?_
    rw [hsettled, hpool]
    by_cases h1 : k = (1, 5)
    · simp [h1]
    · by_cases h2 : k = (2, 5)
      · simp [h2]
      · simp only [Function.update_of_ne h1, Function.update_of_ne h2]
        rfl
  have hunclaimed : outOfOrder.chain.storage.unclaimedPrizes = 0 := by
    simp [Storage.unclaimedPrizes, hprizes]
  have hclaimed : outOfOrder.chain.storage.claimedPrizes = 0 := by
    simp [Storage.claimedPrizes, hprizes]
  have hrest : outOfOrder.chain.storage.retained.toNat + outOfOrder.swept = 0 := rfl
  rw [World.held, hunsettled, hunclaimed, hclaimed]
  omega

end SuperAgent.Contract
