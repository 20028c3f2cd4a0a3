import SuperAgent.Core.Clock
import SuperAgent.Core.Run

/-!
# Placing an order on Perpl

One call of `Place` against a venue that acknowledges frames, executes an order
in any block up to the order's last one, and may stay silent about it. After an
acknowledgement without an update the adapter sends one more frame. When the
two cannot both execute depends on what the venue's blocks did meanwhile.
-/

namespace SuperAgent.Perpl

/-! ## The trading client -/

/-- What the trading connection has been told. -/
structure TradingClient where
  connected : Bool
  /-- The last block height a heartbeat named; zero before the first. -/
  head : Int
  accountID : Nat
  /-- Whether the account lets the venue forward API orders. -/
  forwarding : Bool
  lastReqID : Nat
  nextReqID : Nat

/-- The next idempotency key, and the client after it was drawn. -/
def TradingClient.nextRequestID (t : TradingClient) : TradingClient × Nat :=
  let id := if t.nextReqID ≤ t.lastReqID then t.lastReqID + 1 else t.nextReqID
  ({ t with nextReqID := id + 1 }, id)

/-- The account as the venue just reported it. -/
def TradingClient.setAccount (t : TradingClient) (id : Nat) (forwarding : Bool)
    (lastReqID : Nat) : TradingClient :=
  { t with
    accountID := id
    forwarding := forwarding
    lastReqID := lastReqID
    nextReqID := if t.nextReqID ≤ lastReqID then lastReqID + 1 else t.nextReqID }

/-- The height orders are dated by: the trading connection's, or the market data's before the
trading connection has one. -/
def seenHead (trade md : Int) : Int := if trade = 0 then md else trade

/-- The last block an order may execute at; zero when no height has been seen. -/
def lastBlock (head : Int) (orderTTLBlocks : Nat) : Int :=
  if 0 < head then head + orderTTLBlocks else 0

/-- How long a block takes, as measured. -/
def blockInterval : Int := 302 * 1000000

/-- How long a silence is waited for after an acknowledgement. -/
def waitFor (orderTTLBlocks : Nat) : Int := orderTTLBlocks * blockInterval + 5 * 1000000000

/-! ## One call -/

/-- Why a call of `Place` failed. -/
inductive PlaceError
  | unknownMarket
  | noExchangeAccount
  | forwardingDisabled
  | unbuildable
  | disconnected
  | rejected
  | unconfirmed
  | canceled
  deriving DecidableEq

/-- Where a call of `Place` is; `retry` marks the second frame. -/
inductive Phase
  | checking
  | building (retry : Bool)
  | acking (retry : Bool)
  | waiting (retry : Bool) (deadline : Int)
  | returned (r : Except PlaceError Unit)

/-- What became of a frame on its way to the venue's books. -/
inductive Fate
  | sent
  | received
  | refused
  | executed
  deriving DecidableEq

/-- A frame written for the client order. -/
structure Frame where
  rq : Nat
  /-- The height the adapter had seen when it built the frame. -/
  head : Int
  lastBlock : Int
  fate : Fate := .sent

/-- A call of `Place` with the client, the clock and the venue around it. -/
structure Call where
  client : TradingClient
  /-- The market-data connection's last height. -/
  mdHead : Int
  /-- How many blocks an order on the market may live. -/
  orderTTLBlocks : Nat
  now : Int
  /-- The venue's block height. -/
  block : Int
  phase : Phase
  frames : List Frame

/-- The frame `buildOrder` makes of what the connections have seen. -/
def Call.buildOrder (w : Call) : Frame where
  rq := w.client.nextRequestID.2
  head := seenHead w.client.head w.mdHead
  lastBlock := lastBlock (seenHead w.client.head w.mdHead) w.orderTTLBlocks

/-- What happens next. -/
inductive PlaceAction
  | clock
  | venue
  | client
  | check
  | build
  | fail
  | ack
  | update
  | timeout
  | disconnect

/-- Whether an order can execute in a block; one dated zero has no last block. -/
def Frame.Executable (f : Frame) (block : Int) : Prop :=
  f.fate = .received ∧ (f.lastBlock = 0 ∨ block ≤ f.lastBlock)

/-- The call ended with a result. -/
def Call.returns (w : Call) (r : Except PlaceError Unit) : Call := { w with phase := .returned r }

/-- One step of the call, of the client around it or of the venue. Frames, blocks, heads and the
clock move as they like; silence is not told from an execution nobody reported. -/
inductive Call.Step : Call → PlaceAction → Call → Prop
  | tick {w : Call} {t : Int} : w.now ≤ t → Step w .clock { w with now := t }
  | mined {w : Call} : Step w .venue { w with block := w.block + 1 }
  | received {w : Call} {l r : List Frame} {f : Frame} : w.frames = l ++ f :: r →
      f.fate = .sent → Step w .venue { w with frames := l ++ { f with fate := .received } :: r }
  | executed {w : Call} {l r : List Frame} {f : Frame} : w.frames = l ++ f :: r →
      f.Executable w.block →
      Step w .venue { w with frames := l ++ { f with fate := .executed } :: r }
  /-- A heartbeat or a market-data frame names a height the venue has reached. -/
  | heard {w : Call} {head : Int} : head ≤ w.block →
      Step w .client { w with client := { w.client with head } }
  | heardMarket {w : Call} {head : Int} : head ≤ w.block →
      Step w .client { w with mdHead := head }
  | account {w : Call} {id lastReqID : Nat} {forwarding : Bool} :
      Step w .client { w with client := w.client.setAccount id forwarding lastReqID }
  | connection {w : Call} {connected : Bool} :
      Step w .client { w with client := { w.client with connected } }
  | unknownMarket {w : Call} : w.phase = .checking →
      Step w .check (w.returns (.error .unknownMarket))
  | noAccount {w : Call} : w.phase = .checking → w.client.accountID = 0 →
      Step w .check (w.returns (.error .noExchangeAccount))
  | notForwarded {w : Call} : w.phase = .checking → w.client.accountID ≠ 0 →
      w.client.forwarding = false → Step w .check (w.returns (.error .forwardingDisabled))
  | checked {w : Call} : w.phase = .checking → w.client.accountID ≠ 0 →
      w.client.forwarding = true → Step w .check { w with phase := .building false }
  | unbuildable {w : Call} {retry : Bool} : w.phase = .building retry →
      Step w .fail (w.returns (.error .unbuildable))
  /-- Built, but the connection was down: nothing is written. -/
  | unsent {w : Call} {retry : Bool} : w.phase = .building retry → w.client.connected = false →
      Step w .fail ({ w with client := w.client.nextRequestID.1 }.returns (.error .disconnected))
  | built {w : Call} {retry : Bool} : w.phase = .building retry → w.client.connected = true →
      Step w .build { w with
        client := w.client.nextRequestID.1
        phase := .acking retry
        frames := w.frames ++ [w.buildOrder] }
  /-- The write reports an error; the frame may have left all the same. -/
  | unwritten {w : Call} {retry : Bool} : w.phase = .building retry → w.client.connected = true →
      Step w .build ({ w with
        client := w.client.nextRequestID.1
        frames := w.frames ++ [w.buildOrder] }.returns (.error .disconnected))
  /-- The gateway accepts the frame for forwarding. -/
  | acked {w : Call} {retry : Bool} {l : List Frame} {f : Frame} : w.phase = .acking retry →
      w.frames = l ++ [f] → f.fate = .received ∨ f.fate = .executed →
      Step w .ack { w with phase := .waiting retry (w.now + waitFor w.orderTTLBlocks) }
  | refused {w : Call} {retry : Bool} {l : List Frame} {f : Frame} : w.phase = .acking retry →
      w.frames = l ++ [f] → f.fate = .received →
      Step w .ack ({ w with frames := l ++ [{ f with fate := .refused }] }.returns
        (.error .rejected))
  /-- The first update of the order arrives. -/
  | updated {w : Call} {retry : Bool} {deadline : Int} : w.phase = .waiting retry deadline →
      Step w .update (w.returns (.ok ()))
  /-- The connection ends while the call waits, and releases it. -/
  | lostAck {w : Call} {retry : Bool} : w.phase = .acking retry →
      Step w .disconnect ({ w with client := { w.client with connected := false } }.returns
        (.error .disconnected))
  | lostUpdate {w : Call} {retry : Bool} {deadline : Int} : w.phase = .waiting retry deadline →
      Step w .disconnect ({ w with client := { w.client with connected := false } }.returns
        (.error .disconnected))
  | canceled {w : Call} : (∀ r, w.phase ≠ .returned r) →
      Step w .fail (w.returns (.error .canceled))
  /-- Nothing was heard in time: the first time one more frame is sent. -/
  | unconfirmed {w : Call} {deadline : Int} : w.phase = .waiting false deadline →
      deadline ≤ w.now → Step w .timeout { w with phase := .building true }
  | gaveUp {w : Call} {deadline : Int} : w.phase = .waiting true deadline → deadline ≤ w.now →
      Step w .timeout (w.returns (.error .unconfirmed))

/-- How many orders the call led the venue to execute. -/
def Call.executions (w : Call) : Nat := w.frames.countP (·.fate = .executed)

/-- A call about to start. -/
structure Call.Fresh (w : Call) : Prop where
  phase : w.phase = .checking
  frames : w.frames = []

/-- The order can no longer execute: a height had been seen when it was dated, the venue's blocks
are past its last one, and it has not executed in silence. -/
def Frame.Expired (f : Frame) (orderTTLBlocks : Nat) (block : Int) : Prop :=
  0 < f.head ∧ f.head + orderTTLBlocks < block ∧ f.fate ≠ .executed

/-- When the first wait runs out, what was sent has expired. -/
def ExpiredFirst (w : Call) : PlaceAction → Prop
  | .timeout => ∀ deadline, w.phase = .waiting false deadline →
      ∀ f ∈ w.frames, f.Expired w.orderTTLBlocks w.block
  | _ => True

/-! ## What a frame can still do -/

/-- Every frame is dated from the height it was built at. -/
def Frame.Dated (f : Frame) (orderTTLBlocks : Nat) : Prop :=
  f.lastBlock = Perpl.lastBlock f.head orderTTLBlocks

theorem Frame.Expired.mono {f : Frame} {ttl : Nat} {b b' : Int} (h : f.Expired ttl b)
    (hb : b ≤ b') : f.Expired ttl b' :=
  ⟨h.1, lt_of_lt_of_le h.2.1 hb, h.2.2⟩

/-- An expired order is not executed in any block from here on. -/
theorem Frame.Expired.not_executable {f : Frame} {ttl : Nat} {b : Int} (h : f.Expired ttl b)
    (hd : f.Dated ttl) : ¬ f.Executable b := by
  rintro ⟨-, hlb⟩
  have hlast : f.lastBlock = f.head + ttl := by rw [hd, Perpl.lastBlock, if_pos h.1]
  obtain ⟨hhead, hpast, -⟩ := h
  omega

/-- A received order that has not expired can execute now. -/
theorem Frame.executable_of_not_expired {f : Frame} {ttl : Nat} {b : Int} (hd : f.Dated ttl)
    (hf : f.fate = .received) (h : ¬ f.Expired ttl b) : f.Executable b := by
  refine ⟨hf, ?_⟩
  by_cases hhead : 0 < f.head
  · right
    rw [hd, Perpl.lastBlock, if_pos hhead]
    by_contra hpast
    exact h ⟨hhead, not_le.mp hpast, by simp [hf]⟩
  · left
    rw [hd, Perpl.lastBlock, if_neg hhead]

theorem Call.buildOrder_dated (w : Call) : w.buildOrder.Dated w.orderTTLBlocks := rfl

/-- What a frame that replaces one of a list's brings among those before the last. -/
private theorem mem_dropLast_replace {l r : List Frame} {f f' g : Frame}
    (h : g ∈ (l ++ f' :: r).dropLast) :
    g ∈ (l ++ f :: r).dropLast ∨ g = f' ∧ f ∈ (l ++ f :: r).dropLast := by
  cases r with
  | nil => exact .inl (by simpa using h)
  | cons a r =>
    simp only [List.dropLast_append_cons, List.dropLast_cons_cons, List.mem_append,
      List.mem_cons] at h ⊢
    rcases h with h | h | h
    · exact .inl (.inl h)
    · exact .inr ⟨h, .inr (.inl trivial)⟩
    · exact .inl (.inr (.inr h))

/-! ## At most one order is live -/

/-- Only the last frame can still execute, and none can once the call is about to build. -/
structure Call.OneLive (w : Call) : Prop where
  dated : ∀ f ∈ w.frames, f.Dated w.orderTTLBlocks
  past : ∀ f ∈ w.frames.dropLast, f.Expired w.orderTTLBlocks w.block
  ready : w.phase = .checking ∨ (∃ retry, w.phase = .building retry) →
    ∀ f ∈ w.frames, f.Expired w.orderTTLBlocks w.block

/-- What the call does to its phase alone keeps the frames as they are. -/
theorem Call.OneLive.phase {w u : Call} (h : w.OneLive) (hf : u.frames = w.frames)
    (ht : u.orderTTLBlocks = w.orderTTLBlocks) (hb : w.block ≤ u.block)
    (hp : u.phase = .checking ∨ (∃ retry, u.phase = .building retry) →
      ∀ f ∈ w.frames, f.Expired w.orderTTLBlocks w.block) : u.OneLive := by
  refine ⟨?_, ?_, ?_⟩
  · rw [hf, ht]
    exact h.dated
  · rw [hf, ht]
    exact fun f hf => (h.past f hf).mono hb
  · rw [hf, ht]
    exact fun hphase f hf => (hp hphase f hf).mono hb

/-- A frame the venue handles keeps its date; one that had expired stays so. -/
theorem Call.OneLive.handled {w : Call} {l r : List Frame} {f f' : Frame} {phase : Phase}
    (h : w.OneLive) (hw : w.frames = l ++ f :: r)
    (hd : f.Dated w.orderTTLBlocks → f'.Dated w.orderTTLBlocks)
    (he : f.Expired w.orderTTLBlocks w.block → f'.Expired w.orderTTLBlocks w.block)
    (hp : phase = .checking ∨ (∃ retry, phase = .building retry) → phase = w.phase) :
    Call.OneLive { w with frames := l ++ f' :: r, phase } := by
  have hmem : ∀ g ∈ l ++ f' :: r, g = f' ∨ g ∈ w.frames := by
    intro g hg
    rw [hw]
    rcases List.mem_append.mp hg with hg | hg
    · exact .inr (List.mem_append_left _ hg)
    · exact (List.mem_cons.mp hg).imp_right fun hg =>
        List.mem_append_right _ (List.mem_cons_of_mem _ hg)
  have hfw : f ∈ w.frames := by simp [hw]
  refine ⟨?_, ?_, ?_⟩
  · intro g hg
    rcases hmem g hg with rfl | hg
    · exact hd (h.dated f hfw)
    · exact h.dated g hg
  · intro g hg
    rcases mem_dropLast_replace (f := f) hg with hg | ⟨rfl, hf⟩
    · exact h.past g (hw ▸ hg)
    · exact he (h.past f (hw ▸ hf))
  · intro hphase g hg
    have hready := h.ready (hp hphase ▸ hphase)
    rcases hmem g hg with rfl | hg
    · exact he (hready f hfw)
    · exact hready g hg

/-- The call writes its frame when all before it have expired. -/
theorem Call.OneLive.writes {w : Call} {retry : Bool} {client : TradingClient} {phase : Phase}
    (h : w.OneLive) (hw : w.phase = .building retry)
    (hp : phase ≠ .checking ∧ ∀ retry, phase ≠ .building retry) :
    Call.OneLive { w with client, phase, frames := w.frames ++ [w.buildOrder] } := by
  refine ⟨?_, ?_, ?_⟩
  · intro f hf
    rcases List.mem_append.mp hf with hf | hf
    · exact h.dated f hf
    · exact List.mem_singleton.mp hf ▸ w.buildOrder_dated
  · intro f hf
    rw [List.dropLast_concat] at hf
    exact h.ready (.inr ⟨retry, hw⟩) f hf
  · rintro (hphase | ⟨retry, hphase⟩)
    · exact absurd hphase hp.1
    · exact absurd hphase (hp.2 retry)

theorem Call.OneLive.step {w u : Call} {a : PlaceAction} (h : w.OneLive) (hg : ExpiredFirst w a)
    (hs : Call.Step w a u) : u.OneLive := by
  cases hs with
  | tick _ => exact h.phase rfl rfl le_rfl h.ready
  | mined => exact h.phase rfl rfl (Int.le_add_one le_rfl) h.ready
  | received hw hf =>
    exact h.handled hw id (fun he => ⟨he.1, he.2.1, by simp⟩) fun _ => rfl
  | @executed l r f hw hx =>
    -- an order that executes had not expired
    have hd : f.Dated w.orderTTLBlocks := h.dated f (by simp [hw])
    exact h.handled hw id (fun he => absurd hx (he.not_executable hd)) fun _ => rfl
  | heard _ => exact h.phase rfl rfl le_rfl h.ready
  | heardMarket _ => exact h.phase rfl rfl le_rfl h.ready
  | account => exact h.phase rfl rfl le_rfl h.ready
  | connection => exact h.phase rfl rfl le_rfl h.ready
  | unknownMarket _ => exact h.phase rfl rfl le_rfl (by simp [Call.returns])
  | noAccount _ _ => exact h.phase rfl rfl le_rfl (by simp [Call.returns])
  | notForwarded _ _ _ => exact h.phase rfl rfl le_rfl (by simp [Call.returns])
  | checked hp _ _ => exact h.phase rfl rfl le_rfl fun _ => h.ready (.inl hp)
  | unbuildable _ => exact h.phase rfl rfl le_rfl (by simp [Call.returns])
  | unsent _ _ => exact h.phase rfl rfl le_rfl (by simp [Call.returns])
  | built hp _ => exact h.writes hp (by simp)
  | unwritten hp _ => exact h.writes hp (by simp)
  | acked _ _ _ => exact h.phase rfl rfl le_rfl (by simp)
  | refused _ hw hf =>
    exact h.handled hw id (fun he => ⟨he.1, he.2.1, by simp⟩) (by simp)
  | updated _ => exact h.phase rfl rfl le_rfl (by simp [Call.returns])
  | lostAck _ => exact h.phase rfl rfl le_rfl (by simp [Call.returns])
  | lostUpdate _ => exact h.phase rfl rfl le_rfl (by simp [Call.returns])
  | canceled _ => exact h.phase rfl rfl le_rfl (by simp [Call.returns])
  | unconfirmed hp _ => exact h.phase rfl rfl le_rfl fun _ => hg _ hp
  | gaveUp _ _ => exact h.phase rfl rfl le_rfl (by simp [Call.returns])

theorem Call.Fresh.oneLive {w : Call} (h : w.Fresh) : w.OneLive :=
  ⟨by simp [h.frames], by simp [h.frames], by simp [h.frames]⟩

/-- With at most one live order, at most one executes. -/
theorem Call.OneLive.executions_le_one {w : Call} (h : w.OneLive) : w.executions ≤ 1 := by
  rcases List.eq_nil_or_concat w.frames with hw | ⟨l, f, hw⟩
  · simp [Call.executions, hw]
  · have hpast : ∀ g ∈ l, g.Expired w.orderTTLBlocks w.block := by
      simpa [hw] using h.past
    have hl : l.countP (·.fate = .executed) = 0 :=
      List.countP_eq_zero.mpr fun g hg => by simpa using (hpast g hg).2.2
    calc w.executions = l.countP (·.fate = .executed) + [f].countP (·.fate = .executed) := by
          rw [Call.executions, hw, List.concat_eq_append, List.countP_append]
      _ ≤ 0 + 1 := by
          rw [hl]
          exact Nat.add_le_add_left List.countP_le_length 0

/-- A call whose first frame has expired when its wait runs out leads to at most one execution,
and whatever it sent before its last frame can no longer execute. -/
theorem place_executes_once {w₀ w : Call} {as : List PlaceAction} (h0 : w₀.Fresh)
    (h : Run Call.Step ExpiredFirst w₀ as w) :
    w.executions ≤ 1 ∧ ∀ f ∈ w.frames.dropLast, ¬ f.Executable w.block ∧ f.fate ≠ .executed := by
  have hlive : w.OneLive := h.invariant h0.oneLive fun _ _ _ hi hg hs => hi.step hg hs
  refine ⟨hlive.executions_le_one, fun f hf => ⟨?_, (hlive.past f hf).2.2⟩⟩
  exact (hlive.past f hf).not_executable (hlive.dated f (List.dropLast_subset _ hf))

/-! ## When the first frame has not expired -/

/-- The second frame, once the first has executed in silence, can execute as well. -/
theorem Call.second_executes {w : Call} {f : Frame} {deadline : Int}
    (hp : w.phase = .waiting false deadline) (hnow : deadline ≤ w.now) (hw : w.frames = [f])
    (hf : f.fate = .executed) :
    ∃ as u, Run Call.Step Always w as u ∧ u.executions = 2 := by
  obtain ⟨client, mdHead, ttl, now, block, phase, frames⟩ := w
  obtain rfl : phase = .waiting false deadline := hp
  obtain rfl : frames = [f] := hw
  -- both connections name the venue's block, so the second frame is dated from it
  let w₁ : Call :=
    ⟨{ client with head := block, connected := true }, block, ttl, now, block, .building true, [f]⟩
  let g := w₁.buildOrder
  let w₂ : Call := { w₁ with client := w₁.client.nextRequestID.1, phase := .acking true }
  have hlive : ({ g with fate := .received } : Frame).Executable block := by
    refine ⟨rfl, ?_⟩
    simp only [g, w₁, Call.buildOrder, seenHead, ite_self, lastBlock]
    split <;> omega
  have hbuilding : Run Call.Step Always ⟨client, mdHead, ttl, now, block, _, [f]⟩ _ w₁ :=
    Run.nil
      |>.snoc trivial (.unconfirmed rfl hnow)
      |>.snoc trivial (.heard (le_refl block))
      |>.snoc trivial (.heardMarket (le_refl block))
      |>.snoc trivial .connection
  have hsent := hbuilding.snoc trivial (.built rfl rfl)
  have hreceived : Call.Step { w₂ with frames := [f] ++ g :: [] } .venue
      { w₂ with frames := [f] ++ { g with fate := .received } :: [] } := .received rfl rfl
  have hexecuted : Call.Step { w₂ with frames := [f] ++ { g with fate := .received } :: [] } .venue
      { w₂ with frames := [f] ++ { g with fate := .executed } :: [] } :=
    .executed (f := { g with fate := .received }) rfl hlive
  exact ⟨_, _, (hsent.snoc trivial hreceived).snoc trivial hexecuted, by
    simp [Call.executions, hf]⟩

/-- Any call whose first wait runs out on a frame that has not expired can go on to two
executions. -/
theorem Call.unexpired_executes_twice {w : Call} {f : Frame} {deadline : Int}
    (hp : w.phase = .waiting false deadline) (hnow : deadline ≤ w.now) (hw : w.frames = [f])
    (hd : f.Dated w.orderTTLBlocks) (hf : f.fate = .received ∨ f.fate = .executed)
    (he : ¬ f.Expired w.orderTTLBlocks w.block) :
    ∃ as u, Run Call.Step Always w as u ∧ u.executions = 2 := by
  rcases hf with hf | hf
  · have hx := Frame.executable_of_not_expired hd hf he
    have hstep : Call.Step w .venue { w with frames := [] ++ { f with fate := .executed } :: [] } :=
      .executed (by simpa using hw) hx
    obtain ⟨as, u, hrun, hu⟩ := Call.second_executes
      (w := { w with frames := [{ f with fate := .executed }] }) hp hnow rfl rfl
    exact ⟨_, u, (Run.nil.snoc trivial hstep).trans hrun, hu⟩
  · exact Call.second_executes hp hnow hw hf

/-! ## Runs -/

/-- Blocks go by. -/
theorem Call.mines (w : Call) (n : Nat) :
    ∃ as, Run Call.Step ExpiredFirst w as { w with block := w.block + n } := by
  induction n with
  | zero => exact ⟨[], by simpa using Run.nil⟩
  | succ n ih =>
    obtain ⟨as, hrun⟩ := ih
    have hmined := hrun.snoc (by trivial) .mined
    refine ⟨as ++ [.venue], ?_⟩
    rw [Int.natCast_add_one, ← Int.add_assoc]
    exact hmined

/-- A connected account with a height of 100 on a market whose orders live twenty blocks. -/
def quiet : Call where
  client := ⟨true, 100, 1, true, 0, 0⟩
  mdHead := 100
  orderTTLBlocks := 20
  now := 0
  block := 100
  phase := .checking
  frames := []

theorem quiet_fresh : quiet.Fresh := ⟨rfl, rfl⟩

/-- `quiet` when its order was acknowledged and `mined` blocks went by before the wait ran out. -/
def quiet.waited (mined : Nat) : Call :=
  { quiet with
    client := quiet.client.nextRequestID.1
    now := waitFor 20
    block := 100 + mined
    phase := .waiting false (waitFor 20)
    frames := [{ quiet.buildOrder with fate := .received }] }

theorem quiet_waits (mined : Nat) :
    ∃ as, Run Call.Step ExpiredFirst quiet as (quiet.waited mined) := by
  obtain ⟨as, hmined⟩ := (quiet.waited 0).mines mined
  have hwait : Run Call.Step ExpiredFirst quiet _ (quiet.waited 0) :=
    Run.nil
      |>.snoc (by trivial) (.checked rfl (by decide) rfl)
      |>.snoc (by trivial) (.built rfl rfl)
      |>.snoc (by trivial) (.received (l := []) (r := []) rfl rfl)
      |>.snoc (by trivial) (.acked (l := []) rfl rfl (.inl rfl))
      |>.snoc (by trivial) (.tick (t := waitFor 20) (by decide))
  exact ⟨_, hwait.trans hmined⟩

/-- Twenty-one blocks later the first order is over, and only the second executes. -/
theorem place_executes_once_quiet :
    ∃ as w, Run Call.Step ExpiredFirst quiet as w ∧ w.frames.length = 2 ∧ w.executions ≤ 1 ∧
      ∀ f ∈ w.frames.dropLast, ¬ f.Executable w.block ∧ f.fate ≠ .executed := by
  obtain ⟨as, hwait⟩ := quiet_waits 21
  have hexpired : ∀ f ∈ (quiet.waited 21).frames, f.Expired 20 (quiet.waited 21).block := by
    intro f hf
    rw [List.mem_singleton.mp hf]
    exact ⟨by decide, by decide, by simp⟩
  have hretry := hwait
    |>.snoc (by exact fun _ _ => hexpired) (.unconfirmed rfl le_rfl)
    |>.snoc (by trivial) (.built rfl rfl)
  exact ⟨_, _, hretry, rfl, place_executes_once quiet_fresh hretry⟩

/-- Blocks come slower than measured: after the whole wait the first order may still execute, and
with the second frame the call leads to two executions. -/
theorem resubmitted_executes_twice :
    ∃ as w, Run Call.Step Always quiet as w ∧ w.executions = 2 := by
  obtain ⟨as, hwait⟩ := quiet_waits 1
  have hlive : ¬ ({ quiet.buildOrder with fate := .received } : Frame).Expired 20 101 := by
    rintro ⟨-, hpast, -⟩
    exact absurd hpast (by decide)
  obtain ⟨bs, w, hrun, hw⟩ := Call.unexpired_executes_twice (w := quiet.waited 1) rfl le_rfl rfl
    quiet.buildOrder_dated (.inl rfl) hlive
  exact ⟨_, w, (hwait.mono fun _ _ _ => trivial).trans hrun, hw⟩

end SuperAgent.Perpl
