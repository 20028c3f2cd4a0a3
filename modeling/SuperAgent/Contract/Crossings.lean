import SuperAgent.Contract.Solvency
import Mathlib.Data.Multiset.AddSub
import Mathlib.Data.Multiset.Replicate
import Mathlib.Data.Multiset.MapFold

/-!
# Crossing a week's boundary

Every unit in a pool by the number of times it was carried into a next week. The
contract only knows how much of a pool was carried in. That is enough for its
settlements to leave every unit at one crossing at most.
-/

namespace SuperAgent.Contract

variable {τ : Type} {tok : IERC20 τ} {this : Address}

/-- The units in every pool, each as the number of boundaries it has crossed. -/
abbrev Units := Slot → Multiset ℕ

/-- Whether an operation moves units between pools. -/
def Op.movesUnits : Op → Bool
  | .fund _ _ _ => true
  | .settle _ _ _ _ _ => true
  | _ => false

/-- What an accepted call does with the units: new ones have crossed nothing, and those a
settlement carries have crossed one more. Which of them it pays, carries and keeps is open. -/
inductive Units.Moves (u : Units) : Entry → Units → Prop
  | fund {msg : Msg} {week : Week} {strategy : Strategy} {amount : Amount} {events : List Event} :
    Moves u (⟨msg, .fund week strategy amount⟩, events)
      (Function.update u (week, strategy)
        (u (week, strategy) + Multiset.replicate amount.toNat 0))
  | settle {msg : Msg} {week : Week} {strategy : Strategy} {winners : List Address}
      {amounts : List Amount} {pnls : List (BitVec 128)} {before : List Event} {carried : Amount}
      (paid travels kept : Multiset ℕ) :
    u (week, strategy) = paid + travels + kept → paid.card = totalOf amounts →
    travels.card = carried.toNat →
    Moves u (⟨msg, .settle week strategy winners amounts pnls⟩,
        before ++ [.settled week strategy winners amounts pnls carried])
      (Function.update (Function.update u (week, strategy) paid) (week + 1, strategy)
        (u (week + 1, strategy) + travels.map (· + 1)))
  | other {e : Entry} : e.1.op.movesUnits = false → Moves u e u

/-- The units behind the contract's numbers: a pool still to be settled is what was paid into it
and what was carried into it. -/
structure Units.Backs (u : Units) (s : Storage) : Prop where
  crossed : ∀ k, ∀ n ∈ u k, n ≤ 1
  unsettled : ∀ k, s.settled k = false → ∃ fresh,
    (s.pool k).toNat = fresh + (s.carriedIn k).toNat ∧
      u k = Multiset.replicate fresh 0 + Multiset.replicate (s.carriedIn k).toNat 1

variable {u : Units} {s s' : Storage} {week : Week} {strategy : Strategy}

/-- Before anything is paid in there are no units. -/
theorem World.Deployed.backs {w : World τ} (h : World.Deployed tok this w) :
    Units.Backs (fun _ => 0) w.chain.storage := by
  obtain ⟨_⟩ := h
  exact ⟨fun _ n hn => absurd hn (Multiset.notMem_zero n), fun _ _ => ⟨0, rfl, rfl⟩⟩

/-- A call that leaves the pools alone leaves the units as they are. -/
theorem Units.Backs.same (h : u.Backs s) (hpool : s'.pool = s.pool)
    (hsettled : s'.settled = s.settled) (hcarried : s'.carriedIn = s.carriedIn) : u.Backs s' := by
  refine ⟨h.crossed, ?_⟩
  rw [hpool, hsettled, hcarried]
  exact h.unsettled

/-- New units join those of a pool. -/
theorem Units.Backs.fund {k : Slot} {amount total : Amount} (h : u.Backs s)
    (hadds : (s.pool k).toNat + amount.toNat = total.toNat) :
    Units.Backs (Function.update u k (u k + Multiset.replicate amount.toNat 0))
      { s with pool := Function.update s.pool k total } := by
  constructor
  · intro l n hn
    by_cases hl : l = k
    · subst hl
      rw [Function.update_self, Multiset.mem_add] at hn
      rcases hn with hn | hn
      · exact h.crossed l n hn
      · rw [Multiset.eq_of_mem_replicate hn]
        exact Nat.zero_le 1
    · rw [Function.update_of_ne hl] at hn
      exact h.crossed l n hn
  · intro l hset
    obtain ⟨fresh, hpool, hfresh⟩ := h.unsettled l hset
    by_cases hl : l = k
    · subst hl
      refine ⟨fresh + amount.toNat, ?_, ?_⟩
      · simp only [Function.update_self]
        omega
      · rw [Function.update_self, hfresh, Multiset.replicate_add]
        exact add_right_comm _ _ _
    · refine ⟨fresh, ?_, ?_⟩
      · simpa only [Function.update_of_ne hl] using hpool
      · rw [Function.update_of_ne hl, hfresh]

/-- The units of a pool can be shared out so that only such as have crossed nothing travel. -/
theorem exists_shares {fresh cin paid travels kept : ℕ} (hsplit : paid + travels + kept = fresh + cin)
    (htravels : travels = min (travels + kept) fresh) :
    ∃ p k : Multiset ℕ, Multiset.replicate fresh 0 + Multiset.replicate cin 1 =
        p + Multiset.replicate travels 0 + k ∧ p.card = paid ∧ k.card = kept := by
  -- a unit is kept only when everything that has crossed nothing travels
  have hkept : kept ≤ cin := by omega
  have hfresh : travels ≤ fresh := by omega
  refine ⟨Multiset.replicate (fresh - travels) 0 + Multiset.replicate (cin - kept) 1,
    Multiset.replicate kept 1, ?_, ?_, Multiset.card_replicate _ _⟩
  · have h0 : Multiset.replicate fresh 0 =
        Multiset.replicate (fresh - travels) 0 + Multiset.replicate travels 0 := by
      rw [← Multiset.replicate_add, Nat.sub_add_cancel hfresh]
    have h1 : Multiset.replicate cin 1 =
        Multiset.replicate (cin - kept) 1 + Multiset.replicate kept 1 := by
      rw [← Multiset.replicate_add, Nat.sub_add_cancel hkept]
    rw [h0, h1, add_add_add_comm, ← add_assoc]
  · rw [Multiset.card_add, Multiset.card_replicate, Multiset.card_replicate]
    omega

/-- A settlement's units, shared out. -/
theorem Units.Backs.settle {winners : List Address} {amounts : List Amount} {carried stale : ℕ}
    (h : u.Backs s) (hs : Settlement s s' week strategy winners amounts carried stale) :
    ∃ paid kept : Multiset ℕ,
      u (week, strategy) = paid + Multiset.replicate carried 0 + kept ∧
      paid.card = totalOf amounts ∧
      Units.Backs (Function.update (Function.update u (week, strategy) paid) (week + 1, strategy)
        (u (week + 1, strategy) + (Multiset.replicate carried 0).map (· + 1))) s' := by
  obtain ⟨fresh, hpool, hunits⟩ := h.unsettled _ hs.unsettled
  have hsplit : totalOf amounts + carried + stale = fresh + (s.carriedIn (week, strategy)).toNat :=
    hs.split.trans hpool
  have htravels : carried = min (carried + stale) fresh := by
    have := hs.travels
    omega
  obtain ⟨paid, kept, hshares, hpaid, -⟩ := exists_shares hsplit htravels
  have hmine : u (week, strategy) = paid + Multiset.replicate carried 0 + kept :=
    hunits.trans hshares
  refine ⟨paid, kept, hmine, hpaid, ?_, ?_⟩
  · intro l n hn
    by_cases hnext : l = (week + 1, strategy)
    · subst hnext
      rw [Function.update_self, Multiset.mem_add, Multiset.map_replicate] at hn
      rcases hn with hn | hn
      · exact h.crossed _ n hn
      · exact (Multiset.eq_of_mem_replicate hn).le
    · rw [Function.update_of_ne hnext] at hn
      by_cases hl : l = (week, strategy)
      · subst hl
        rw [Function.update_self] at hn
        apply h.crossed (week, strategy)
        rw [hmine, add_assoc]
        exact Multiset.mem_add.mpr (.inl hn)
      · rw [Function.update_of_ne hl] at hn
        exact h.crossed l n hn
  · intro l hset
    rw [hs.settled'] at hset
    by_cases hl : l = (week, strategy)
    · subst hl
      rw [Function.update_self] at hset
      cases hset
    rw [Function.update_of_ne hl] at hset
    obtain ⟨fresh', hpool', hunits'⟩ := h.unsettled l hset
    refine ⟨fresh', ?_, ?_⟩
    · by_cases hnext : l = (week + 1, strategy)
      · subst hnext
        have := hs.pool_next
        have := hs.carriedIn_next
        omega
      · rw [hs.pool_other l hl hnext, hs.carriedIn_other l hnext, hpool']
    · by_cases hnext : l = (week + 1, strategy)
      · subst hnext
        rw [Function.update_self, hunits', hs.carriedIn_next, Multiset.map_replicate,
          Multiset.replicate_add, ← add_assoc]
      · rw [Function.update_of_ne hnext, Function.update_of_ne hl, hs.carriedIn_other l hnext,
          hunits']

/-- Every accepted call moves units so that they still stand behind the contract's numbers. -/
theorem Units.Backs.accepted {c c' : Chain τ} {call : Call} {events : List Event}
    (h : u.Backs c.storage) (hexec : call.exec tok this c = .ok (c', events)) :
    ∃ u' : Units, u.Moves (call, events) u' ∧ u'.Backs c'.storage := by
  obtain ⟨msg, op⟩ := call
  cases op with
  | setSettler settler allowed =>
    simp only [Call.exec, setSettler, bind_eq_ok] at hexec
    obtain ⟨_, _, hexec⟩ := hexec
    cases hexec
    exact ⟨u, .other rfl, h.same rfl rfl rfl⟩
  | setOwner next =>
    simp only [Call.exec, setOwner, bind_eq_ok] at hexec
    obtain ⟨_, _, hexec⟩ := hexec
    cases hexec
    exact ⟨u, .other rfl, h.same rfl rfl rfl⟩
  | fund week strategy amount =>
    obtain ⟨-, -, -, total, hadds, hs, -⟩ := fund_spec hexec
    refine ⟨_, .fund, ?_⟩
    rw [hs]
    exact h.fund hadds
  | settle week strategy winners amounts pnls =>
    obtain ⟨-, carried, stale, before, hs, rfl⟩ := settle_spec hexec
    obtain ⟨paid, kept, hunits, hpaid, hbacks⟩ := h.settle hs
    exact ⟨_, .settle paid _ kept hunits hpaid (Multiset.card_replicate _ _), hbacks⟩
  | sweep dst =>
    obtain ⟨-, -, hs, -⟩ := sweep_spec hexec
    refine ⟨u, .other rfl, ?_⟩
    rw [hs]
    exact h.same rfl rfl rfl
  | claim week strategy =>
    obtain ⟨-, -, -, -, hs, -⟩ := claim_spec hexec
    refine ⟨u, .other rfl, ?_⟩
    rw [hs]
    exact h.same rfl rfl rfl

/-- The accepted calls of every history can be told unit by unit. -/
theorem World.Reachable.units {w : World τ} (h : w.Reachable tok this) :
    ∃ u, Run Units.Moves Always (fun _ => 0) w.journal u ∧ u.Backs w.chain.storage := by
  obtain ⟨w₀, as, h₀, hrun⟩ := h
  have hstart : ∃ u, Run Units.Moves Always (fun _ => 0) w₀.journal u ∧ u.Backs w₀.chain.storage := by
    have hbacks := h₀.backs
    obtain ⟨_⟩ := h₀
    exact ⟨_, .nil, hbacks⟩
  refine hrun.invariant
    (I := fun w => ∃ u, Run Units.Moves Always (fun _ => 0) w.journal u ∧ u.Backs w.chain.storage)
    hstart ?_
  rintro t a t' ⟨u, hmoves, hbacks⟩ - hstep
  cases hstep with
  | accepted hexec =>
    obtain ⟨u', hmove, hbacks'⟩ := hbacks.accepted hexec
    exact ⟨u', hmoves.snoc trivial hmove, hbacks'⟩
  | reverted _ => exact ⟨u, hmoves, hbacks⟩
  | others _ _ => exact ⟨u, hmoves, hbacks⟩

/-! ## Carried once -/

/-- In every reachable state a pool still to be settled is at least what was carried into it, so
that none of the subtractions of its settlement underflows; every settlement pays, carries and
retains the pool between them and carries no more than the week's own contributions; and the
accepted calls can be told unit by unit so that no unit ever crosses two boundaries. -/
theorem carried_once {w : World τ} (h : w.Reachable tok this) :
    (∀ week strategy, w.chain.storage.settled (week, strategy) = false →
      w.chain.storage.carriedIn (week, strategy) ≤ w.chain.storage.pool (week, strategy) ∧
      ∀ paid, paid ≤ w.chain.storage.pool (week, strategy) →
        ∃ left fresh stale,
          checkedSub (w.chain.storage.pool (week, strategy)) paid = some left ∧
          checkedSub (w.chain.storage.pool (week, strategy))
            (w.chain.storage.carriedIn (week, strategy)) = some fresh ∧
          checkedSub left (if left < fresh then left else fresh) = some stale) ∧
    (∀ msg week strategy winners amounts pnls c events,
      settle this msg week strategy winners amounts pnls w.chain = .ok (c, events) →
      ∃ carried stale before,
        events = before ++ [.settled week strategy winners amounts pnls carried] ∧
        totalOf amounts + carried.toNat + stale = (w.chain.storage.pool (week, strategy)).toNat ∧
        carried.toNat ≤ (w.chain.storage.pool (week, strategy)).toNat -
          (w.chain.storage.carriedIn (week, strategy)).toNat ∧
        (c.storage.pool (week + 1, strategy)).toNat =
          (w.chain.storage.pool (week + 1, strategy)).toNat + carried.toNat ∧
        (c.storage.carriedIn (week + 1, strategy)).toNat =
          (w.chain.storage.carriedIn (week + 1, strategy)).toNat + carried.toNat ∧
        c.storage.retained.toNat = w.chain.storage.retained.toNat + stale) ∧
    ∃ u, Run Units.Moves Always (fun _ => 0) w.journal u ∧ (∀ k, ∀ n ∈ u k, n ≤ 1) ∧
      ∀ k, w.chain.storage.settled k = false → (u k).card = (w.chain.storage.pool k).toNat := by
  refine ⟨fun week strategy hset => ?_, fun msg week strategy winners amounts pnls c events hset => ?_,
    ?_⟩
  · have hle : w.chain.storage.carriedIn (week, strategy) ≤ w.chain.storage.pool (week, strategy) :=
      BitVec.le_def.mpr (h.sound.carriedIn _ hset)
    refine ⟨hle, fun paid hpaid => ?_⟩
    obtain ⟨left, hleft⟩ := exists_checkedSub hpaid
    obtain ⟨fresh, hfresh⟩ := exists_checkedSub hle
    have hmin : (if left < fresh then left else fresh) ≤ left := by
      split
      · exact BitVec.le_refl _
      · next hlt => exact BitVec.not_lt.mp hlt
    obtain ⟨stale, hstale⟩ := exists_checkedSub hmin
    exact ⟨left, fresh, stale, hleft, hfresh, hstale⟩
  · obtain ⟨-, carried, stale, before, hs, hevents⟩ := settle_spec hset
    have htravels := hs.travels
    refine ⟨carried, stale, before, hevents, hs.split, ?_, hs.pool_next, hs.carriedIn_next, hs.retained'⟩
    omega
  · obtain ⟨u, hmoves, hbacks⟩ := h.units
    refine ⟨u, hmoves, hbacks.crossed, fun k hset => ?_⟩
    obtain ⟨fresh, hpool, hunits⟩ := hbacks.unsettled k hset
    rw [hunits, Multiset.card_add, Multiset.card_replicate, Multiset.card_replicate, hpool]

/-- Ten units funded in week one that nobody wins, in that week or the next. -/
def quietWeeks : World TestToken :=
  [⟨⟨3, 0⟩, .fund 1 5 10⟩, ⟨⟨2, 2000000⟩, .settle 1 5 [] [] []⟩,
    ⟨⟨2, 2000000⟩, .settle 2 5 [] [] []⟩].foldl (World.play TestToken.erc20 1) justDeployed

/-- They cross into week two and are retained there. -/
theorem carried_once_quietWeeks : quietWeeks.chain.storage.carriedIn (2, 5) = 10 ∧
    quietWeeks.chain.storage.retained = 10 ∧
    ∃ u, Run Units.Moves Always (fun _ => 0) quietWeeks.journal u ∧ (∀ k, ∀ n ∈ u k, n ≤ 1) ∧
      ∀ k, quietWeeks.chain.storage.settled k = false →
        (u k).card = (quietWeeks.chain.storage.pool k).toNat := by
  have hreach : quietWeeks.Reachable TestToken.erc20 1 :=
    ⟨_, _, justDeployed_deployed, World.run_play _ _ _ _⟩
  obtain ⟨-, -, hunits⟩ := carried_once hreach
  exact ⟨by decide, by decide, hunits⟩

end SuperAgent.Contract
