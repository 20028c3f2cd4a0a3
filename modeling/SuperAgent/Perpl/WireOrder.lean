import SuperAgent.Perpl.Submit
import SuperAgent.Core.Run

/-!
# Request ids on the wire

An id is drawn under one lock and its frame is written later under another. The
frames of a connection carry increasing ids as long as no frame is written
while a call that drew a smaller id has still to write to that connection.
-/

namespace SuperAgent.Perpl

namespace Trading

variable {s s' : Trading} {a : TradingAction} {i j c : Nat}

/-- A call between its draw and its write, on the way to a connection. -/
def Pending (s : Trading) (c i : Nat) : Prop :=
  (s.calls i).stage = .holding ∧ s.conn = some c ∨
    (s.calls i).stage = .writing ∧ (s.calls i).conn = some c

/-- Only calls of `Place` and `Cancel` submit, which draw their ids. -/
def Draws (_ : Trading) (a : TradingAction) : Prop := ∀ i rq, a ≠ .given i rq

/-- Calls of `Place` and `Cancel` among which no frame is written while one with a smaller id is on
its way to the same connection. -/
def InOrder (s : Trading) : TradingAction → Prop
  | .given _ _ => False
  | .write i => ∀ c j, (s.calls i).conn = some c → (s.calls j).rq < (s.calls i).rq → ¬ s.Pending c j
  | _ => True

/-- Every id is below the counter and drawn once, and the ids on a connection are increasing and
below those on their way to it. -/
structure Numbered (s : Trading) : Prop where
  drawn : ∀ i, (s.calls i).stage ≠ .idle → (s.calls i).rq < s.client.nextReqID
  distinct : ∀ i j, (s.calls i).stage ≠ .idle → (s.calls j).stage ≠ .idle →
    (s.calls i).rq = (s.calls j).rq → i = j
  wire : ∀ f ∈ s.wire, f.rq < s.client.nextReqID ∧ f.conn < s.conns
  conn : ∀ c, s.conn = some c → c < s.conns
  calls : ∀ i c, (s.calls i).conn = some c → c < s.conns
  sorted : s.wire.Pairwise fun f g => f.conn = g.conn → f.rq < g.rq
  ahead : ∀ f ∈ s.wire, ∀ i, s.Pending f.conn i → f.rq < (s.calls i).rq

/-- A step that draws no id, registers nothing, writes nothing and connects to nothing. -/
structure Quiet (s s' : Trading) : Prop where
  calls : ∀ i, (s.calls i).Later (s'.calls i)
  counter : s.client.nextReqID ≤ s'.client.nextReqID
  wire : s'.wire = s.wire
  conns : s'.conns = s.conns
  conn : s'.conn = s.conn ∨ s'.conn = none

/-- After a quiet step no call is on its way to a connection that was not before. -/
theorem Quiet.pending (h : s.Quiet s') (hp : s'.Pending c i) : s.Pending c i := by
  rcases hp with ⟨hstage, hconn⟩ | ⟨hstage, hconn⟩
  · left
    refine ⟨(h.calls i).holding.mp hstage, ?_⟩
    rcases h.conn with hsame | hnone
    · exact hsame ▸ hconn
    · rw [hnone] at hconn
      cases hconn
  · right
    exact ⟨(h.calls i).writing hstage, (h.calls i).conn ▸ hconn⟩

theorem Numbered.quiet (h : s.Numbered) (hq : s.Quiet s') : s'.Numbered := by
  have hbegun : ∀ i, (s'.calls i).stage ≠ .idle → (s.calls i).stage ≠ .idle := fun i hi heq =>
    hi ((hq.calls i).idle.mpr heq)
  constructor
  · intro i hi
    rw [(hq.calls i).rq]
    exact (h.drawn i (hbegun i hi)).trans_le hq.counter
  · intro i j hi hj heq
    rw [(hq.calls i).rq, (hq.calls j).rq] at heq
    exact h.distinct i j (hbegun i hi) (hbegun j hj) heq
  · rw [hq.wire, hq.conns]
    exact fun f hf => (h.wire f hf).imp_left fun hlt => hlt.trans_le hq.counter
  · rw [hq.conns]
    intro c hc
    rcases hq.conn with hsame | hnone
    · exact h.conn c (hsame ▸ hc)
    · rw [hnone] at hc
      cases hc
  · rw [hq.conns]
    intro i c hc
    exact h.calls i c ((hq.calls i).conn ▸ hc)
  · rw [hq.wire]
    exact h.sorted
  · rw [hq.wire]
    intro f hf i hi
    rw [(hq.calls i).rq]
    exact h.ahead f hf i (hq.pending hi)

/-- What leaves the calls alone. -/
theorem Quiet.of_calls (hcalls : s'.calls = s.calls)
    (hcounter : s.client.nextReqID ≤ s'.client.nextReqID) (hwire : s'.wire = s.wire)
    (hconns : s'.conns = s.conns) (hconn : s'.conn = s.conn ∨ s'.conn = none) : s.Quiet s' :=
  ⟨fun _ => hcalls ▸ .refl _, hcounter, hwire, hconns, hconn⟩

/-- What changes one call alone. -/
theorem Quiet.of_set {u : Submit} (hu : (s.calls i).Later u) (hcalls : s'.calls = (s.set i u).calls)
    (hclient : s'.client = s.client) (hwire : s'.wire = s.wire) (hconns : s'.conns = s.conns)
    (hconn : s'.conn = s.conn) : s.Quiet s' := by
  refine ⟨fun j => ?_, hclient ▸ le_rfl, hwire, hconns, .inl hconn⟩
  rw [hcalls]
  by_cases hj : j = i
  · subst hj
    rw [set_self]
    exact hu
  · rw [set_of_ne hj]
    exact .refl _

/-- An id drawn now is above every id drawn or written before. -/
theorem Numbered.draw (h : s.Numbered) (hi : (s.calls i).stage = .idle) :
    Numbered { s.set i { s.calls i with rq := s.client.draw.2, stage := .holding } with
      client := s.client.draw.1 } := by
  obtain ⟨hfresh, hnext⟩ := s.client.draw_nextReqID
  have hold : ∀ n, n < s.client.nextReqID → n < s.client.draw.2 := fun n hn => hn.trans_le hfresh
  have hother : ∀ j, j ≠ i → (s.calls j).stage ≠ .idle →
      (s.calls j).rq < s.client.draw.2 := fun j _ hj => hold _ (h.drawn j hj)
  constructor
  · intro j hj
    change _ < s.client.draw.1.nextReqID
    rw [hnext]
    by_cases hji : j = i
    · subst hji
      simp only [set_self, Nat.lt_succ_self]
    · simp only [set_of_ne hji] at hj ⊢
      exact (hother j hji hj).trans (Nat.lt_succ_self _)
  · intro j k hj hk heq
    by_cases hji : j = i
    · by_cases hki : k = i
      · rw [hji, hki]
      · subst hji
        simp only [set_self, set_of_ne hki] at hk heq
        exact absurd heq (hother k hki hk).ne'
    · by_cases hki : k = i
      · subst hki
        simp only [set_self, set_of_ne hji] at hj heq
        exact absurd heq (hother j hji hj).ne
      · simp only [set_of_ne hji, set_of_ne hki] at hj hk heq
        exact h.distinct j k hj hk heq
  · intro f hf
    obtain ⟨hrq, hconn⟩ := h.wire f hf
    refine ⟨?_, hconn⟩
    change _ < s.client.draw.1.nextReqID
    rw [hnext]
    exact (hold _ hrq).trans (Nat.lt_succ_self _)
  · exact h.conn
  · intro j c hc
    by_cases hji : j = i
    · subst hji
      simp only [set_self] at hc
      exact h.calls j c hc
    · simp only [set_of_ne hji] at hc
      exact h.calls j c hc
  · exact h.sorted
  · intro f hf j hj
    by_cases hji : j = i
    · subst hji
      simp only [set_self]
      exact hold _ (h.wire f hf).1
    · simp only [Pending, set_of_ne hji] at hj ⊢
      exact h.ahead f hf j hj

/-- Registering leaves a call on its way to the connection that is up, if it was before. -/
theorem Numbered.register (h : s.Numbered) (hi : (s.calls i).stage = .holding) :
    (s.registers i).Numbered := by
  have hrq : ∀ j, ((s.registers i).calls j).rq = (s.calls j).rq := by
    intro j
    by_cases hji : j = i
    · rw [hji, registers_self]
    · rw [registers_of_ne hji]
  have hidle : ∀ j, ((s.registers i).calls j).stage ≠ .idle → (s.calls j).stage ≠ .idle := by
    intro j hj
    by_cases hji : j = i
    · rw [hji, hi]
      exact Stage.noConfusion
    · rwa [registers_of_ne hji] at hj
  constructor
  · intro j hj
    rw [hrq]
    exact h.drawn j (hidle j hj)
  · intro j k hj hk heq
    rw [hrq, hrq] at heq
    exact h.distinct j k (hidle j hj) (hidle k hk) heq
  · exact h.wire
  · exact h.conn
  · intro j c hc
    by_cases hji : j = i
    · rw [hji, registers_self] at hc
      exact h.conn c hc
    · rw [registers_of_ne hji] at hc
      exact h.calls j c hc
  · exact h.sorted
  · intro f hf j hj
    rw [hrq]
    refine h.ahead f hf j ?_
    by_cases hji : j = i
    · subst hji
      simp only [Pending, registers_self] at hj
      rcases hj with ⟨hstage, -⟩ | ⟨-, hconn⟩
      · cases hstage
      · exact .inl ⟨hi, hconn⟩
    · simpa only [Pending, registers_of_ne hji, registers_conn] using hj

/-- A frame written in order is above all before it, and below all still to come. -/
theorem Numbered.write {u : Submit} (h : s.Numbered) (hi : (s.calls i).stage = .writing)
    (hc : (s.calls i).conn = some c) (horder : s.InOrder (.write i))
    (hu : (s.calls i).Later u) (hleft : u.stage ≠ .writing) :
    Numbered { s.set i u with wire := s.wire ++ [s.frame i c] } := by
  have hbegun : (s.calls i).stage ≠ .idle := by simp [hi]
  have hset : (s.set i u).Numbered := h.quiet (.of_set hu rfl rfl rfl rfl rfl)
  constructor
  · exact hset.drawn
  · exact hset.distinct
  · intro f hf
    rcases List.mem_append.mp hf with hf | hf
    · exact h.wire f hf
    · obtain rfl := List.mem_singleton.mp hf
      exact ⟨h.drawn i hbegun, h.calls i c hc⟩
  · exact h.conn
  · exact hset.calls
  · refine List.pairwise_append.mpr ⟨h.sorted, List.pairwise_singleton _ _, ?_⟩
    intro f hf g hg heq
    obtain rfl := List.mem_singleton.mp hg
    exact h.ahead f hf i (.inr ⟨hi, heq ▸ hc⟩)
  · intro f hf j hj
    have hj' : (s.set i u).Pending f.conn j := hj
    rcases List.mem_append.mp hf with hf | hf
    · exact hset.ahead f hf j hj'
    · obtain rfl := List.mem_singleton.mp hf
      by_cases hji : j = i
      · -- the call has written, and is not on its way any more
        subst hji
        simp only [Pending, set_self] at hj'
        rcases hj' with ⟨hstage, -⟩ | ⟨hstage, -⟩
        · rw [hu.holding, hi] at hstage
          cases hstage
        · exact absurd hstage hleft
      · simp only [Pending, set_of_ne hji, set_conn] at hj' ⊢
        have hbegun' : (s.calls j).stage ≠ .idle := by
          rcases hj' with ⟨hstage, -⟩ | ⟨hstage, -⟩
          · simp [hstage]
          · simp [hstage]
        have hle : (s.calls i).rq ≤ (s.calls j).rq :=
          Nat.le_of_not_lt fun hlt => horder c j hc hlt hj'
        exact Nat.lt_of_le_of_ne hle fun heq => hji (h.distinct i j hbegun hbegun' heq).symm

/-- A new connection has no frames yet. -/
theorem Numbered.dial (h : s.Numbered) : Numbered { s with
    client := { s.client with connected := true }
    conn := some s.conns
    conns := s.conns + 1
    fired := false
    reader := .reading } := by
  constructor
  · exact h.drawn
  · exact h.distinct
  · exact fun f hf => (h.wire f hf).imp_right fun hlt => hlt.trans (Nat.lt_succ_self _)
  · rintro c ⟨⟩
    exact Nat.lt_succ_self _
  · exact fun i c hc => (h.calls i c hc).trans (Nat.lt_succ_self _)
  · exact h.sorted
  · rintro f hf i (⟨-, hconn⟩ | hwriting)
    · have hlt := (h.wire f hf).2
      exact absurd (Option.some.inj hconn) hlt.ne'
    · exact h.ahead f hf i (.inr hwriting)

theorem Numbered.step (h : s.Numbered) (ho : s.InOrder a) (hs : s.Step a s') : s'.Numbered := by
  cases hs with
  | given _ => exact ho.elim
  | drawn hi => exact h.draw hi
  | registered hi => exact h.register hi
  | written hi hc => exact h.write hi hc ho (Submit.later_stage (by simp [hi]) (by simp)) (by simp)
  | @unwritten i c left hi hc =>
    have hlater : (s.calls i).Later { s.calls i with stage := .leaving (.error .unwritten) } :=
      Submit.later_stage (by simp [hi]) (by simp)
    cases left with
    | true => exact h.write hi hc ho hlater (by simp)
    | false => exact h.quiet (.of_set hlater rfl rfl rfl rfl rfl)
  | moved hu => exact h.quiet (.of_set hu.later rfl rfl rfl rfl rfl)
  | @left i r hi =>
    have hlater : (s.calls i).Later { s.calls i with stage := .returned r } :=
      Submit.later_stage (by simp [hi]) (by simp)
    exact h.quiet (.of_set hlater rfl rfl rfl rfl rfl)
  | acknowledged _ _ _ | failedStatus _ _ _ =>
    exact h.quiet (.of_set (Submit.later_statusCh _ _) rfl rfl rfl rfl rfl)
  | offered _ _ | failedOrder _ _ _ _ =>
    exact h.quiet (.of_set (Submit.later_orderCh _ _) rfl rfl rfl rfl rfl)
  | gotOrders _ =>
    exact h.quiet (.of_calls rfl (AccountClient.applyOrders_nextReqID _).1 rfl rfl (.inl rfl))
  | gotWallet _ =>
    exact h.quiet (.of_calls rfl (AccountClient.applyWallet_nextReqID _).1 rfl rfl (.inl rfl))
  | gotAccount _ =>
    exact h.quiet (.of_calls rfl (AccountClient.applyAccount_nextReqID _).1 rfl rfl (.inl rfl))
  | cleared _ => exact h.quiet (.of_calls rfl le_rfl rfl rfl (.inr rfl))
  | dialed _ => exact h.dial
  | gotStatus _ _ | acknowledgePanics _ _ | lookedUp _ _ | nobody _ _ | offerPanics _ _
  | delivered _ | gotOther _ | rediscovers _ _ _ | readFailed _ | badFrame _ | rejoined _
  | swapped _ | statusPanics _ _ _ | orderPanics _ _ _ _ | failed _ _ _ | undialed _ | stopped _ =>
    exact h.quiet (.of_calls rfl le_rfl rfl rfl (.inl rfl))

theorem start_numbered (wantAccount : Nat) : (start wantAccount).Numbered :=
  ⟨fun _ hi => absurd rfl hi, fun _ _ hi => absurd rfl hi, nofun, nofun, nofun, .nil, nofun⟩

/-- The request ids on a connection, as they were written. -/
def written (s : Trading) (c : Nat) : List Nat := (s.wire.filter fun f => f.conn = c).map Sent.rq

/-- However calls of `Place` and `Cancel` run beside each other, the request ids written to every
connection are strictly increasing, as long as no frame is written while a call with a smaller id
is on its way to the connection. -/
theorem wire_order {wantAccount : Nat} {as : List TradingAction}
    (h : Run Step InOrder (start wantAccount) as s) (c : Nat) :
    (s.written c).Pairwise (· < ·) := by
  have hnumbered : s.Numbered :=
    h.invariant (start_numbered wantAccount) fun _ _ _ hi ho hs => hi.step ho hs
  rw [written, List.pairwise_map]
  refine (hnumbered.sorted.filter _).imp_of_mem fun {f g} hf hg hlt => hlt ?_
  have hfc : f.conn = c := of_decide_eq_true (List.mem_filter.mp hf).2
  have hgc : g.conn = c := of_decide_eq_true (List.mem_filter.mp hg).2
  exact hfc.trans hgc.symm

/-- What a write adds to its connection. -/
theorem sends_written (s : Trading) (i c : Nat) :
    (s.sends i c).written c = s.written c ++ [(s.calls i).rq] := by
  change ((s.wire ++ [s.frame i c]).filter fun f => f.conn = c).map Sent.rq = _
  rw [List.filter_append, List.map_append]
  congr 1
  simp [frame]

/-- Two ids written one after the other on a connection are increasing only if the first is below
the second. -/
theorem not_sorted_of_overtaken {l : List Nat} {m n : Nat} (h : n < m) :
    ¬ (l ++ [m] ++ [n]).Pairwise (· < ·) := by
  intro hsorted
  have hlt : m < n := (List.pairwise_append.mp hsorted).2.2 m (by simp) n (by simp)
  exact absurd h hlt.not_gt

/-- From wherever a frame can be written out of order, the connection can end up with its ids out
of order. -/
theorem overtaking_breaks (hi : (s.calls i).stage = .writing) (hc : (s.calls i).conn = some c)
    (hlt : (s.calls j).rq < (s.calls i).rq) (hp : s.Pending c j) :
    ∃ as s', Run Step Draws s as s' ∧ ¬ (s'.written c).Pairwise (· < ·) := by
  have hne : j ≠ i := by
    rintro rfl
    exact absurd hlt (lt_irrefl _)
  have hsame : (s.sends i c).calls j = s.calls j := set_of_ne hne
  have hfirst : Run Step Draws s [.write i] (s.sends i c) :=
    Run.nil.snoc (fun _ _ h => TradingAction.noConfusion h) (.written hi hc)
  rcases hp with ⟨hstage, hconn⟩ | ⟨hstage, hconn⟩
  · -- it registers on the connection first
    have hregister : Step (s.sends i c) (.register j) ((s.sends i c).registers j) :=
      .registered (hsame ▸ hstage)
    have hwrite : Step ((s.sends i c).registers j) (.write j) _ :=
      .written (c := c) (by rw [registers_self]) (by rw [registers_self]; exact hconn)
    refine ⟨_, _, (hfirst.snoc (fun _ _ h => TradingAction.noConfusion h) hregister).snoc
      (fun _ _ h => TradingAction.noConfusion h) hwrite, ?_⟩
    rw [sends_written, registers_self, hsame]
    change ¬ ((s.sends i c).written c ++ _).Pairwise _
    rw [sends_written]
    exact not_sorted_of_overtaken hlt
  · have hwrite : Step (s.sends i c) (.write j) _ := .written (hsame ▸ hstage) (hsame ▸ hconn)
    refine ⟨_, _, hfirst.snoc (fun _ _ h => TradingAction.noConfusion h) hwrite, ?_⟩
    rw [sends_written, sends_written, hsame]
    exact not_sorted_of_overtaken hlt

/-! ## Two calls side by side -/

/-- Two calls that have their ids on the first connection, both with their frames to write. -/
def bothWriting (i : Nat) : Submit :=
  if i < 2 then { Submit.new with rq := i + 1, sn := i + 1, stage := .writing, conn := some 0 }
  else .new

/-- The client signs in, is told its account, and two calls draw and register. -/
theorem exists_bothWriting : ∃ as s, Run Step InOrder (start 0) as s ∧ s.wire = [] ∧
    s.calls = bothWriting := by
  have hrun : Run Step InOrder (start 0) _ _ := Run.nil
    |>.snoc (by trivial) (.dialed rfl)
    |>.snoc (by trivial) (@Step.gotWallet _ [⟨1, true, 0⟩] rfl)
    |>.snoc (by trivial) (.drawn (i := 0) rfl)
    |>.snoc (by trivial) (.drawn (i := 1) rfl)
    |>.snoc (by trivial) (.registered (i := 0) rfl)
    |>.snoc (by trivial) (.registered (i := 1) rfl)
  refine ⟨_, _, hrun, rfl, funext fun i => ?_⟩
  match i with
  | 0 => rfl
  | 1 => rfl
  | i + 2 => rfl

section

variable (hcalls : s.calls = bothWriting)
include hcalls

/-- Either of the two can write first. -/
theorem bothWriting_sends {k : Nat} (hwire : s.wire = []) (hi : i < 2) (hk : k < 2) (hne : k ≠ i) :
    s.Step (.write i) (s.sends i 0) ∧ (s.sends i 0).Step (.write k) ((s.sends i 0).sends k 0) ∧
      ((s.sends i 0).sends k 0).written 0 = [i + 1, k + 1] := by
  have hcall : ∀ i < 2, s.calls i = { Submit.new with
      rq := i + 1, sn := i + 1, stage := .writing, conn := some 0 } := fun i hi => by
    rw [hcalls, bothWriting, if_pos hi]
  have hother : (s.sends i 0).calls k = s.calls k := set_of_ne hne
  refine ⟨.written ?_ ?_, .written ?_ ?_, ?_⟩
  · rw [hcall i hi]
  · rw [hcall i hi]
  · rw [hother, hcall k hk]
  · rw [hother, hcall k hk]
  · rw [sends_written, sends_written, hother, hcall i hi, hcall k hk, written, hwire]
    rfl

/-- The one with the smaller id first keeps the order. -/
theorem bothWriting_inOrder : s.InOrder (.write 0) ∧ (s.sends 0 0).InOrder (.write 1) := by
  have hidle : ∀ j, 2 ≤ j → (s.calls j).stage = .idle := fun j hj => by
    rw [hcalls, bothWriting, if_neg (by omega)]
    rfl
  constructor
  · rintro c j - hlt hp
    match j with
    | 0 => exact absurd hlt (lt_irrefl _)
    | 1 =>
      rw [hcalls] at hlt
      exact absurd hlt (by decide)
    | j + 2 => rcases hp with ⟨hstage, -⟩ | ⟨hstage, -⟩ <;> simp [hidle] at hstage
  · rintro c j - hlt hp
    match j with
    | 0 => rcases hp with ⟨hstage, -⟩ | ⟨hstage, -⟩ <;> simp [sends] at hstage
    | 1 => exact absurd hlt (lt_irrefl _)
    | j + 2 => rcases hp with ⟨hstage, -⟩ | ⟨hstage, -⟩ <;> simp [sends, hidle] at hstage

end

/-- Written in the order of their ids. -/
theorem wire_order_two : ∃ as s, Run Step InOrder (start 0) as s ∧ s.written 0 = [1, 2] ∧
    (s.written 0).Pairwise (· < ·) := by
  obtain ⟨as, s, hrun, hwire, hcalls⟩ := exists_bothWriting
  obtain ⟨hfirst, hsecond, hwritten⟩ :=
    bothWriting_sends hcalls hwire (by decide : 0 < 2) (by decide : 1 < 2) (by decide)
  obtain ⟨hok, hok'⟩ := bothWriting_inOrder hcalls
  have hlast := (hrun.snoc hok hfirst).snoc hok' hsecond
  exact ⟨_, _, hlast, hwritten, wire_order hlast 0⟩

/-- The second call writes first, and the first one's frame leaves after a larger id. -/
theorem overtaken : ∃ as s, Run Step Draws (start 0) as s ∧ s.written 0 = [2, 1] ∧
    ¬ (s.written 0).Pairwise (· < ·) := by
  obtain ⟨as, s, hrun, hwire, hcalls⟩ := exists_bothWriting
  obtain ⟨hfirst, hsecond, hwritten⟩ :=
    bothWriting_sends hcalls hwire (by decide : 1 < 2) (by decide : 0 < 2) (by decide)
  have hdrawn : Run Step Draws (start 0) as s := by
    refine hrun.mono fun t a ho i rq ha => ?_
    subst ha
    exact ho
  refine ⟨_, _, (hdrawn.snoc ?_ hfirst).snoc ?_ hsecond, hwritten, ?_⟩
  · exact fun _ _ h => TradingAction.noConfusion h
  · exact fun _ _ h => TradingAction.noConfusion h
  · rw [hwritten]
    decide

end Trading

end SuperAgent.Perpl
