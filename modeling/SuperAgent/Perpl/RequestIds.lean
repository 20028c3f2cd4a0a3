import SuperAgent.Perpl.Place
import Mathlib.Data.Nat.Basic
import Mathlib.Order.Basic

/-!
# Request ids

Every order carries a request id drawn from one counter. What the venue reports
of the client's account and of its orders moves the counter forward and nothing
moves it back, so that no id is drawn twice. Ids stay below the end of their 64
bits and are plain numbers here.
-/

namespace SuperAgent.Perpl

/-! ## The counter -/

/-- An account as a frame reports it. -/
structure Account where
  id : Nat
  forwarding : Bool
  lastReqID : Nat
  deriving DecidableEq

/-- The trading client with what decides which account is its own. -/
structure AccountClient extends TradingClient where
  /-- Pins the account to use when a wallet holds several; zero for any. -/
  wantAccount : Nat
  /-- Whether the last wallet snapshot listed no account for the client. -/
  noAccount : Bool

namespace AccountClient

/-- A client about to sign in for the first time. -/
def new (wantAccount : Nat) : AccountClient where
  connected := false
  head := 0
  accountID := 0
  forwarding := false
  lastReqID := 0
  nextReqID := 0
  wantAccount
  noAccount := false

variable (t : AccountClient)

/-- Whether an account of a wallet can be the client's. -/
def wanted (a : Account) : Bool := a.id ≠ 0 ∧ (t.wantAccount = 0 ∨ a.id = t.wantAccount)

/-- Take a reported account as the client's own. -/
def adopt (a : Account) : AccountClient :=
  { t with toTradingClient := t.setAccount a.id a.forwarding a.lastReqID, noAccount := false }

/-- A wallet snapshot: the first account that can be the client's is. -/
def applyWallet (accounts : List Account) : AccountClient :=
  match accounts.find? t.wanted with
  | some a => t.adopt a
  | none => { t with noAccount := true }

/-- Whether an account update is about the client's account, or gives it one. -/
def takes (a : Account) : Bool := a.id ≠ 0 ∧ (t.accountID = 0 ∨ a.id = t.accountID)

/-- An account update. -/
def applyAccount (a : Account) : AccountClient := if t.takes a then t.adopt a else t

/-- The request id of an order in sight. -/
def passOrder (requestID : Nat) : AccountClient :=
  if t.nextReqID ≤ requestID then { t with nextReqID := requestID + 1 } else t

/-- An order snapshot or update: the counter moves past every id in sight. -/
def applyOrders (requestIDs : List Nat) : AccountClient := requestIDs.foldl passOrder t

/-- Draw a request id. -/
def draw : AccountClient × Nat :=
  ({ t with toTradingClient := t.nextRequestID.1 }, t.nextRequestID.2)

end AccountClient

/-! ## What the counter has passed -/

section Counter

variable {t : AccountClient}

/-- Adopting an account moves the counter past its last request. -/
theorem AccountClient.adopt_nextReqID (a : Account) :
    t.nextReqID ≤ (t.adopt a).nextReqID ∧ a.lastReqID < (t.adopt a).nextReqID := by
  simp only [adopt, TradingClient.setAccount]
  split <;> omega

theorem AccountClient.applyWallet_nextReqID (accounts : List Account) :
    t.nextReqID ≤ (t.applyWallet accounts).nextReqID ∧
      ∀ a, accounts.find? t.wanted = some a → a.lastReqID < (t.applyWallet accounts).nextReqID := by
  unfold applyWallet
  cases hfind : accounts.find? t.wanted with
  | none => exact ⟨le_rfl, nofun⟩
  | some b =>
    obtain ⟨hmono, hpast⟩ := t.adopt_nextReqID b
    refine ⟨hmono, ?_⟩
    rintro a ⟨⟩
    exact hpast

theorem AccountClient.applyAccount_nextReqID (a : Account) :
    t.nextReqID ≤ (t.applyAccount a).nextReqID ∧
      (t.takes a → a.lastReqID < (t.applyAccount a).nextReqID) := by
  unfold applyAccount
  by_cases htakes : t.takes a
  · rw [if_pos htakes]
    exact (t.adopt_nextReqID a).imp_right fun hpast _ => hpast
  · rw [if_neg htakes]
    exact ⟨le_rfl, fun h => absurd h htakes⟩

theorem AccountClient.passOrder_nextReqID (requestID : Nat) :
    t.nextReqID ≤ (t.passOrder requestID).nextReqID ∧
      requestID < (t.passOrder requestID).nextReqID := by
  unfold passOrder
  split
  · exact ⟨by simp only; omega, Nat.lt_succ_self _⟩
  · omega

theorem AccountClient.applyOrders_nextReqID (requestIDs : List Nat) :
    t.nextReqID ≤ (t.applyOrders requestIDs).nextReqID ∧
      ∀ rq ∈ requestIDs, rq < (t.applyOrders requestIDs).nextReqID := by
  unfold applyOrders
  induction requestIDs generalizing t with
  | nil => exact ⟨le_rfl, nofun⟩
  | cons id rest ih =>
    obtain ⟨hmono, hpast⟩ := t.passOrder_nextReqID id
    obtain ⟨hrest, hpasts⟩ := ih (t := t.passOrder id)
    rw [List.foldl_cons]
    refine ⟨hmono.trans hrest, ?_⟩
    intro rq hrq
    rcases List.mem_cons.mp hrq with rfl | hrq
    · exact hpast.trans_le hrest
    · exact hpasts rq hrq

/-- A draw takes an id the counter had not passed, and moves the counter past it. -/
theorem AccountClient.draw_nextReqID :
    t.nextReqID ≤ t.draw.2 ∧ t.draw.1.nextReqID = t.draw.2 + 1 := by
  refine ⟨?_, rfl⟩
  simp only [draw, TradingClient.nextRequestID]
  split <;> omega

end Counter

/-! ## The life of a client -/

/-- What happens to the counter. -/
inductive IdEvent
  | wallet (accounts : List Account)
  | account (a : Account)
  | orders (requestIDs : List Nat)
  | connection (connected : Bool)
  | draw

/-- An account's last request as a frame told it; `own` when the frame made or kept the account
the client's. -/
structure Report where
  account : Nat
  lastReqID : Nat
  own : Bool
  deriving DecidableEq

/-- A client with everything it was told and the ids it drew, oldest first. -/
structure Life where
  client : AccountClient
  reports : List Report
  orderIDs : List Nat
  drawn : List Nat

/-- A client that was told nothing yet. -/
def Life.new (wantAccount : Nat) : Life := ⟨.new wantAccount, [], [], []⟩

/-- One event in the life of a client. -/
def Life.step (l : Life) : IdEvent → Life
  | .wallet accounts => { l with
      client := l.client.applyWallet accounts
      reports := l.reports ++ accounts.map fun a =>
        ⟨a.id, a.lastReqID, accounts.find? l.client.wanted = some a⟩ }
  | .account a => { l with
      client := l.client.applyAccount a
      reports := l.reports ++ [⟨a.id, a.lastReqID, l.client.takes a⟩] }
  | .orders requestIDs => { l with
      client := l.client.applyOrders requestIDs
      orderIDs := l.orderIDs ++ requestIDs }
  | .connection connected => { l with client := { l.client with connected } }
  | .draw => { l with client := l.client.draw.1, drawn := l.drawn ++ [l.client.draw.2] }

/-- A client's life so far. -/
def Life.after (wantAccount : Nat) (events : List IdEvent) : Life :=
  events.foldl Life.step (.new wantAccount)

/-- The counter is past everything told of the client's own account, every order and every id
drawn, and the ids were drawn in order. -/
structure Life.Passed (l : Life) : Prop where
  reports : ∀ r ∈ l.reports, r.own → r.lastReqID < l.client.nextReqID
  orderIDs : ∀ rq ∈ l.orderIDs, rq < l.client.nextReqID
  drawn : ∀ id ∈ l.drawn, id < l.client.nextReqID
  sorted : l.drawn.Pairwise (· < ·)

variable {l : Life}

/-- Whatever moves the counter forward leaves what it had passed behind. -/
theorem Life.Passed.mono {l' : Life} (h : l.Passed)
    (hnext : l.client.nextReqID ≤ l'.client.nextReqID)
    (hreports : ∀ r ∈ l'.reports, r.own → r ∈ l.reports ∨ r.lastReqID < l'.client.nextReqID)
    (horders : ∀ rq ∈ l'.orderIDs, rq ∈ l.orderIDs ∨ rq < l'.client.nextReqID)
    (hdrawn : l'.drawn = l.drawn) : l'.Passed := by
  refine ⟨?_, ?_, ?_, ?_⟩
  · intro r hr hown
    rcases hreports r hr hown with hold | hnew
    · exact (h.reports r hold hown).trans_le hnext
    · exact hnew
  · intro rq hrq
    rcases horders rq hrq with hold | hnew
    · exact (h.orderIDs rq hold).trans_le hnext
    · exact hnew
  · rw [hdrawn]
    exact fun id hid => (h.drawn id hid).trans_le hnext
  · exact hdrawn ▸ h.sorted

theorem Life.Passed.step (h : l.Passed) (e : IdEvent) : (l.step e).Passed := by
  cases e with
  | wallet accounts =>
    obtain ⟨hmono, hpast⟩ := l.client.applyWallet_nextReqID accounts
    refine h.mono hmono ?_ (fun _ => .inl) rfl
    intro r hr hown
    rcases List.mem_append.mp hr with hold | hnew
    · exact .inl hold
    · obtain ⟨a, -, rfl⟩ := List.mem_map.mp hnew
      exact .inr (hpast a (of_decide_eq_true hown))
  | account a =>
    obtain ⟨hmono, hpast⟩ := l.client.applyAccount_nextReqID a
    refine h.mono hmono ?_ (fun _ => .inl) rfl
    intro r hr hown
    rcases List.mem_append.mp hr with hold | hnew
    · exact .inl hold
    · obtain rfl := List.mem_singleton.mp hnew
      exact .inr (hpast hown)
  | orders requestIDs =>
    obtain ⟨hmono, hpast⟩ := l.client.applyOrders_nextReqID requestIDs
    refine h.mono hmono (fun _ hr _ => .inl hr) ?_ rfl
    intro rq hrq
    exact (List.mem_append.mp hrq).imp_right (hpast rq)
  | connection connected => exact h.mono le_rfl (fun _ hr _ => .inl hr) (fun _ => .inl) rfl
  | draw =>
    obtain ⟨hfresh, hnext⟩ := l.client.draw_nextReqID
    have hle : l.client.nextReqID ≤ (l.step .draw).client.nextReqID := by
      change _ ≤ l.client.draw.1.nextReqID
      omega
    refine ⟨fun r hr hown => (h.reports r hr hown).trans_le hle,
      fun rq hrq => (h.orderIDs rq hrq).trans_le hle, ?_, ?_⟩
    · intro id hid
      rcases List.mem_append.mp hid with hid | hid
      · exact (h.drawn id hid).trans_le hle
      · obtain rfl := List.mem_singleton.mp hid
        exact hnext.symm ▸ Nat.lt_succ_self _
    · refine List.pairwise_append.mpr ⟨h.sorted, List.pairwise_singleton _ _, ?_⟩
      intro id hid new hnew
      obtain rfl := List.mem_singleton.mp hnew
      exact (h.drawn id hid).trans_le hfresh

/-- The counter is past everything all along a client's life. -/
theorem Life.after_passed (wantAccount : Nat) (events : List IdEvent) :
    (Life.after wantAccount events).Passed :=
  List.foldlRecOn events Life.step ⟨nofun, nofun, nofun, .nil⟩ fun _ h e _ => h.step e

/-- The ids a client draws are strictly increasing over its whole life, and the next one is above
the last request of every account it was told of as its own and every order id it was told of. -/
theorem request_ids_increase (wantAccount : Nat) (events : List IdEvent) :
    let l := Life.after wantAccount events
    l.drawn.Pairwise (· < ·) ∧ (∀ r ∈ l.reports, r.own → r.lastReqID < l.client.draw.2) ∧
      ∀ rq ∈ l.orderIDs, rq < l.client.draw.2 := by
  have hpassed := Life.after_passed wantAccount events
  have hfresh := (Life.after wantAccount events).client.draw_nextReqID.1
  exact ⟨hpassed.sorted, fun r hr hown => (hpassed.reports r hr hown).trans_le hfresh,
    fun rq hrq => (hpassed.orderIDs rq hrq).trans_le hfresh⟩

/-- What is told of an account while another one is the client's is passed over, and the account
can become the client's afterwards: six is drawn for an account whose request 100 was reported. -/
theorem request_id_below_report :
    let l := Life.after 0 [.account ⟨2, true, 0⟩, .account ⟨1, true, 100⟩, .wallet [⟨1, true, 5⟩]]
    l.client.accountID = 1 ∧ ∃ r ∈ l.reports, r.account = l.client.accountID ∧
      l.client.draw.2 ≤ r.lastReqID := by
  refine ⟨by decide, ⟨1, 100, false⟩, by decide, by decide, by decide⟩

end SuperAgent.Perpl
