import SuperAgent.Contract.StrategyPrizePool

/-!
# A concrete token

The token the contract is tested with, over natural numbers: its supply is
taken to fit the width, so that no balance overflows. It satisfies what the
contract asks of its collateral, and with it whole histories can be executed.
-/

namespace SuperAgent.Contract

/-- The token's storage. -/
structure TestToken where
  balanceOf : Address → Nat
  allowance : Address → Address → Nat

namespace TestToken

/-- An allowance that is never used up. -/
def unlimited : Nat := 2 ^ 256 - 1

/-- No balance, no allowance. -/
def empty : TestToken := ⟨fun _ => 0, fun _ _ => 0⟩

/-- Mint anywhere. -/
def mint (t : TestToken) (dst : Address) (amount : Nat) : TestToken :=
  { t with balanceOf := Function.update t.balanceOf dst (t.balanceOf dst + amount) }

/-- Let `spender` move the sender's tokens. -/
def approve (t : TestToken) (sender spender : Address) (amount : Nat) : TestToken :=
  { t with allowance :=
      Function.update t.allowance sender (Function.update (t.allowance sender) spender amount) }

/-- Take the amount off the sender and add it to the recipient. -/
def transfer (t : TestToken) (sender dst : Address) (amount : Nat) : Option TestToken :=
  if amount ≤ t.balanceOf sender then
    let paid := Function.update t.balanceOf sender (t.balanceOf sender - amount)
    some { t with balanceOf := Function.update paid dst (paid dst + amount) }
  else none

/-- Use up the allowance, unless it is unlimited. -/
def spend (t : TestToken) (src spender : Address) (amount : Nat) : Option TestToken :=
  if amount ≤ t.allowance src spender then
    if t.allowance src spender = unlimited then some t
    else some (t.approve src spender (t.allowance src spender - amount))
  else none

/-- Transfer on an allowance. -/
def transferFrom (t : TestToken) (spender src dst : Address) (amount : Nat) : Option TestToken :=
  (t.spend src spender amount).bind fun t => t.transfer src dst amount

variable {t u : TestToken} {spender src dst : Address} {v : Nat}

/-- A transfer moves exactly the stated amount. -/
theorem transfer_moves (h : t.transfer src dst v = some u) :
    v ≤ t.balanceOf src ∧ ∀ a,
      u.balanceOf a + (if a = src then v else 0) = t.balanceOf a + if a = dst then v else 0 := by
  unfold transfer at h
  split at h
  · next hle =>
    cases h
    refine ⟨hle, fun a => ?_⟩
    by_cases hd : a = dst
    · subst hd
      by_cases hs : a = src
      · subst hs
        simp only [Function.update_self, if_true]
        omega
      · simp [hs]
    · by_cases hs : a = src
      · subst hs
        simp only [Function.update_of_ne hd, Function.update_self, if_true, if_neg hd]
        omega
      · simp [hd, hs]
  · cases h

/-- A transfer leaves the allowances alone. -/
theorem transfer_allowance (h : t.transfer src dst v = some u) : u.allowance = t.allowance := by
  unfold transfer at h
  split at h
  · cases h
    rfl
  · cases h

/-- A transfer of what the payer has goes through. -/
theorem transfer_pays (dst : Address) (h : v ≤ t.balanceOf src) :
    ∃ u, t.transfer src dst v = some u := by
  simp [transfer, h]

/-- Using an allowance needs it, leaves the balances alone and raises no allowance. -/
theorem spend_frame (h : t.spend src spender v = some u) :
    v ≤ t.allowance src spender ∧ u.balanceOf = t.balanceOf ∧
      ∀ a b, u.allowance a b ≤ t.allowance a b := by
  unfold spend at h
  split at h
  · next hle =>
    refine ⟨hle, ?_⟩
    split at h
    · cases h
      exact ⟨rfl, fun _ _ => le_rfl⟩
    · cases h
      refine ⟨rfl, fun a b => ?_⟩
      by_cases ha : a = src
      · subst ha
        by_cases hb : b = spender
        · subst hb
          simp [approve]
        · simp [approve, Function.update_of_ne hb]
      · simp [approve, Function.update_of_ne ha]
  · cases h

/-- A transfer within the allowance can use it. -/
theorem spend_covers (h : v ≤ t.allowance src spender) : ∃ u, t.spend src spender v = some u := by
  rw [spend, if_pos h]
  split <;> exact ⟨_, rfl⟩

/-- The test token is a collateral the contract can be deployed over. -/
def erc20 : IERC20 TestToken where
  balanceOf := balanceOf
  allowance := allowance
  transfer := transfer
  transferFrom := transferFrom
  transfer_moves := transfer_moves
  transfer_pays dst _ hle := transfer_pays dst hle
  transfer_allowance h a b := (congrFun₂ (transfer_allowance h) a b).le
  transferFrom_moves h := by
    obtain ⟨mid, hspend, hmove⟩ := Option.bind_eq_some_iff.mp h
    obtain ⟨hallow, hb, _⟩ := spend_frame hspend
    have := transfer_moves hmove
    rw [hb] at this
    exact ⟨this.1, hallow, this.2⟩
  transferFrom_pays dst _ hbalance hallow := by
    obtain ⟨mid, hspend⟩ := spend_covers hallow
    obtain ⟨u, hu⟩ := transfer_pays dst ((spend_frame hspend).2.1 ▸ hbalance)
    exact ⟨u, Option.bind_eq_some_iff.mpr ⟨mid, hspend, hu⟩⟩
  transferFrom_allowance h a b := by
    obtain ⟨mid, hspend, hmove⟩ := Option.bind_eq_some_iff.mp h
    rw [transfer_allowance hmove]
    exact (spend_frame hspend).2.2 a b

end TestToken

/-! ## Executing histories -/

section Play

variable {τ : Type} (tok : IERC20 τ) (this : Address)

/-- The world after a call, accepted or not. -/
def World.play (w : World τ) (c : Call) : World τ :=
  match c.exec tok this w.chain with
  | .ok (chain, events) => ⟨chain, w.journal ++ [(c, events)]⟩
  | .error _ => w

/-- Playing a call is a step. -/
theorem World.step_play (w : World τ) (c : Call) :
    World.Step tok this w (.call c) (w.play tok this c) := by
  cases h : c.exec tok this w.chain with
  | ok r =>
    rw [World.play, h]
    exact .accepted h
  | error e =>
    rw [World.play, h]
    exact .reverted h

/-- Playing a list of calls is a run. -/
theorem World.run_play (w : World τ) (calls : List Call) :
    Run (World.Step tok this) Always w (calls.map .call) (calls.foldl (World.play tok this) w) := by
  induction calls using List.reverseRecOn with
  | nil => exact .nil
  | append_singleton calls c ih =>
    rw [List.map_append, List.foldl_append]
    exact ih.snoc trivial (World.step_play tok this _ c)

end Play

end SuperAgent.Contract
