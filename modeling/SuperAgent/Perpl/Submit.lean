import SuperAgent.Core.Channel
import SuperAgent.Perpl.RequestIds

/-!
# Orders on the trading socket

Any number of calls submit orders over one client, each waiting for the
gateway's acknowledgement and the order's first update. One reader handles the
frames of the connection and ends every session; it hands answers to the calls
through channels of theirs, which are registered under the frame's sequence
number and request id. Only registering, looking up and swapping the waiters
happens under the client's lock: each step here is one such section, or one
operation outside it.
-/

namespace SuperAgent.Perpl

/-! ## The calls -/

/-- The gateway's acknowledgement of a frame. -/
structure StatusResponse where
  corrID : Nat
  code : Int
  error : String

/-- An update of an order, with what else it says as the venue wrote it. -/
structure OrderUpdate where
  requestID : Nat
  body : String

/-- Why a submitted order has no answer. -/
inductive SubmitError
  | disconnected
  | unwritten
  | canceled
  | rejected (code : Int) (reason : String)
  | unconfirmed

/-- Where a call of `submit` is. -/
inductive Stage
  | idle
  /-- It has its request id, and nothing is registered yet. -/
  | holding
  /-- Its waiters are registered, and its frame is not written yet. -/
  | writing
  | acking
  | updating
  /-- Its result is decided, and its waiters are not deleted yet. -/
  | leaving (r : Except SubmitError OrderUpdate)
  | returned (r : Except SubmitError OrderUpdate)

/-- A call of `submit` with the channels it waits on. -/
structure Submit where
  rq : Nat
  sn : Nat
  stage : Stage
  /-- The connection that was up when the waiters were registered. -/
  conn : Option Nat
  statusCh : Chan StatusResponse
  orderCh : Chan OrderUpdate

/-- A call that has not begun. -/
def Submit.new : Submit := ⟨0, 0, .idle, none, ⟨1, [], false⟩, ⟨4, [], false⟩⟩

/-- What a call does on its own once its waiters are registered: without a connection it gives up,
and otherwise it takes what its channels hold, or its caller's deadline or its own timer ends it. -/
inductive Submit.Moves (u : Submit) : Submit → Prop
  | unconnected : u.stage = .writing → u.conn = none →
    Moves u { u with stage := .leaving (.error .disconnected) }
  | acked {st : StatusResponse} {buf : List StatusResponse} : u.stage = .acking →
    u.statusCh.buf = st :: buf → st.code = 0 →
    Moves u { u with stage := .updating, statusCh := { u.statusCh with buf } }
  | rejected {st : StatusResponse} {buf : List StatusResponse} : u.stage = .acking →
    u.statusCh.buf = st :: buf → st.code ≠ 0 →
    Moves u { u with
      stage := .leaving (.error (.rejected st.code st.error))
      statusCh := { u.statusCh with buf } }
  | updated {o : OrderUpdate} {buf : List OrderUpdate} : u.stage = .updating →
    u.orderCh.buf = o :: buf →
    Moves u { u with stage := .leaving (.ok o), orderCh := { u.orderCh with buf } }
  | unacked : u.stage = .acking → u.statusCh.buf = [] → u.statusCh.closed = true →
    Moves u { u with stage := .leaving (.error .disconnected) }
  | unheard : u.stage = .updating → u.orderCh.buf = [] → u.orderCh.closed = true →
    Moves u { u with stage := .leaving (.error .disconnected) }
  | canceled : u.stage = .acking ∨ u.stage = .updating →
    Moves u { u with stage := .leaving (.error .canceled) }
  | timedOut : u.stage = .updating → Moves u { u with stage := .leaving (.error .unconfirmed) }

/-! ## The client -/

/-- Where the goroutine that runs the sessions is. -/
inductive Reader
  | dialing
  | reading
  /-- It took an acknowledgement's waiter, and has not sent to it yet. -/
  | acknowledging (st : StatusResponse) (i : Nat)
  | delivering (orders : List OrderUpdate)
  /-- It looked an update's waiter up, and has not sent to it yet. -/
  | sending (o : OrderUpdate) (i : Nat) (orders : List OrderUpdate)
  /-- The session has returned, `again` when it closed itself to sign in again, and the connection
  is not cleared yet. -/
  | returning (again : Bool)
  | ended (again : Bool)
  /-- It took all waiters, and closes them. -/
  | failing (statuses orders : Nat → Option Nat)
  | stopped

/-- A frame of an order on a connection. -/
structure Sent where
  conn : Nat
  sn : Nat
  rq : Nat

/-- The client with its calls and what was written. -/
structure Trading where
  client : AccountClient
  /-- The connection that is up, and how many there were. -/
  conn : Option Nat
  conns : Nat
  seq : Nat
  statusWaiters : Nat → Option Nat
  orderWaiters : Nat → Option Nat
  calls : Nat → Submit
  reader : Reader
  /-- Whether the session closed its connection to sign in again. -/
  fired : Bool
  wire : List Sent
  panicked : Bool

/-- What happens next, with the call it happens to. -/
inductive TradingAction
  | given (i rq : Nat)
  | draw (i : Nat)
  | register (i : Nat)
  | write (i : Nat)
  | move (i : Nat)
  | leave (i : Nat)
  | read
  | rediscover
  | lost
  | again
  | fail
  | dial

namespace Trading

/-- A client whose run loop was just started. -/
def start (wantAccount : Nat) : Trading where
  client := .new wantAccount
  conn := none
  conns := 0
  seq := 0
  statusWaiters := fun _ => none
  orderWaiters := fun _ => none
  calls := fun _ => .new
  reader := .dialing
  fired := false
  wire := []
  panicked := false

variable (s : Trading)

/-- The client with a call changed. -/
def set (i : Nat) (u : Submit) : Trading := { s with calls := Function.update s.calls i u }

/-- The process dies. -/
def panic : Trading := { s with panicked := true, reader := .stopped }

/-- The frame a call writes on a connection. -/
def frame (i c : Nat) : Sent := ⟨c, (s.calls i).sn, (s.calls i).rq⟩

/-- A call registers its waiters, under the lock. -/
def registers (i : Nat) : Trading :=
  { s.set i { s.calls i with sn := s.seq + 1, stage := .writing, conn := s.conn } with
    seq := s.seq + 1
    statusWaiters := Function.update s.statusWaiters (s.seq + 1) (some i)
    orderWaiters := Function.update s.orderWaiters (s.calls i).rq (some i) }

/-- A call writes its frame on a connection, and waits for the acknowledgement. -/
def sends (i c : Nat) : Trading :=
  { s.set i { s.calls i with stage := .acking } with wire := s.wire ++ [s.frame i c] }

/-- One step of a call, of the goroutine that runs the sessions or of the one that signs in
again. -/
inductive Step (s : Trading) : TradingAction → Trading → Prop
  /-- A call begins with an id it was given. -/
  | given {i rq : Nat} : (s.calls i).stage = .idle →
    Step s (.given i rq) (s.set i { s.calls i with rq, stage := .holding })
  /-- A call of `Place` or `Cancel` draws the id of its order. -/
  | drawn {i : Nat} : (s.calls i).stage = .idle →
    Step s (.draw i)
      { s.set i { s.calls i with rq := s.client.draw.2, stage := .holding } with
        client := s.client.draw.1 }
  | registered {i : Nat} : (s.calls i).stage = .holding →
    Step s (.register i) (s.registers i)
  | written {i c : Nat} : (s.calls i).stage = .writing → (s.calls i).conn = some c →
    Step s (.write i) (s.sends i c)
  /-- The write fails; the frame may have left all the same. -/
  | unwritten {i c : Nat} (left : Bool) : (s.calls i).stage = .writing →
    (s.calls i).conn = some c →
    Step s (.write i)
      { s.set i { s.calls i with stage := .leaving (.error .unwritten) } with
        wire := if left then s.wire ++ [s.frame i c] else s.wire }
  | moved {i : Nat} {u : Submit} : (s.calls i).Moves u → Step s (.move i) (s.set i u)
  | left {i : Nat} {r : Except SubmitError OrderUpdate} : (s.calls i).stage = .leaving r →
    Step s (.leave i)
      { s.set i { s.calls i with stage := .returned r } with
        statusWaiters := Function.update s.statusWaiters (s.calls i).sn none
        orderWaiters := Function.update s.orderWaiters (s.calls i).rq none }
  | gotStatus {st : StatusResponse} {i : Nat} : s.reader = .reading →
    s.statusWaiters st.corrID = some i →
    Step s .read { s with
      statusWaiters := Function.update s.statusWaiters st.corrID none
      reader := .acknowledging st i }
  /-- The acknowledgement is sent, and its channel closed. -/
  | acknowledged {st : StatusResponse} {i : Nat} {ch : Chan StatusResponse} :
    s.reader = .acknowledging st i → (s.calls i).statusCh.buf.length < (s.calls i).statusCh.cap →
    ((s.calls i).statusCh.send st).bind Chan.close = some ch →
    Step s .read { s.set i { s.calls i with statusCh := ch } with reader := .reading }
  | acknowledgePanics {st : StatusResponse} {i : Nat} : s.reader = .acknowledging st i →
    ((s.calls i).statusCh.send st).bind Chan.close = none → Step s .read s.panic
  | gotOrders {orders : List OrderUpdate} : s.reader = .reading →
    Step s .read { s with
      client := s.client.applyOrders (orders.map OrderUpdate.requestID)
      reader := .delivering orders }
  | lookedUp {o : OrderUpdate} {i : Nat} {orders : List OrderUpdate} :
    s.reader = .delivering (o :: orders) → s.orderWaiters o.requestID = some i →
    Step s .read { s with reader := .sending o i orders }
  | nobody {o : OrderUpdate} {orders : List OrderUpdate} :
    s.reader = .delivering (o :: orders) → s.orderWaiters o.requestID = none →
    Step s .read { s with reader := .delivering orders }
  | offered {o : OrderUpdate} {i : Nat} {orders : List OrderUpdate} {ch : Chan OrderUpdate} :
    s.reader = .sending o i orders → (s.calls i).orderCh.trySend o = some ch →
    Step s .read { s.set i { s.calls i with orderCh := ch } with reader := .delivering orders }
  | offerPanics {o : OrderUpdate} {i : Nat} {orders : List OrderUpdate} :
    s.reader = .sending o i orders → (s.calls i).orderCh.trySend o = none → Step s .read s.panic
  | delivered : s.reader = .delivering [] → Step s .read { s with reader := .reading }
  | gotWallet {accounts : List Account} : s.reader = .reading →
    Step s .read { s with client := s.client.applyWallet accounts }
  | gotAccount {a : Account} : s.reader = .reading →
    Step s .read { s with client := s.client.applyAccount a }
  /-- Any other frame, and an acknowledgement nobody waits for. -/
  | gotOther {head : Int} : s.reader = .reading →
    Step s .read { s with client := { s.client with head } }
  /-- Without an account the session closes its own connection after a while. -/
  | rediscovers : s.conn ≠ none → s.client.noAccount = true → s.client.accountID = 0 →
    Step s .rediscover { s with fired := true }
  | readFailed : s.reader = .reading → Step s .lost { s with reader := .returning s.fired }
  /-- A frame that cannot be read, or a heartbeat after a gap. -/
  | badFrame : s.reader = .reading → Step s .lost { s with reader := .returning false }
  | cleared {again : Bool} : s.reader = .returning again →
    Step s .lost { s with
      client := { s.client with connected := false }
      conn := none
      reader := .ended again }
  /-- The next session begins at once. -/
  | rejoined : s.reader = .ended true → Step s .again { s with reader := .dialing }
  | swapped : s.reader = .ended false →
    Step s .fail { s with
      statusWaiters := fun _ => none
      orderWaiters := fun _ => none
      reader := .failing s.statusWaiters s.orderWaiters }
  | failedStatus {statuses orders : Nat → Option Nat} {k i : Nat} {ch : Chan StatusResponse} :
    s.reader = .failing statuses orders → statuses k = some i →
    (s.calls i).statusCh.close = some ch →
    Step s .fail { s.set i { s.calls i with statusCh := ch } with
      reader := .failing (Function.update statuses k none) orders }
  | statusPanics {statuses orders : Nat → Option Nat} {k i : Nat} :
    s.reader = .failing statuses orders → statuses k = some i →
    (s.calls i).statusCh.close = none → Step s .fail s.panic
  | failedOrder {statuses orders : Nat → Option Nat} {k i : Nat} {ch : Chan OrderUpdate} :
    s.reader = .failing statuses orders → (∀ k, statuses k = none) → orders k = some i →
    (s.calls i).orderCh.close = some ch →
    Step s .fail { s.set i { s.calls i with orderCh := ch } with
      reader := .failing statuses (Function.update orders k none) }
  | orderPanics {statuses orders : Nat → Option Nat} {k i : Nat} :
    s.reader = .failing statuses orders → (∀ k, statuses k = none) → orders k = some i →
    (s.calls i).orderCh.close = none → Step s .fail s.panic
  | failed {statuses orders : Nat → Option Nat} : s.reader = .failing statuses orders →
    (∀ k, statuses k = none) → (∀ k, orders k = none) →
    Step s .fail { s with reader := .dialing }
  | dialed : s.reader = .dialing →
    Step s .dial { s with
      client := { s.client with connected := true }
      conn := some s.conns
      conns := s.conns + 1
      fired := false
      reader := .reading }
  | undialed : s.reader = .dialing → Step s .dial { s with reader := .ended false }
  | stopped : s.reader = .dialing → Step s .dial { s with reader := .stopped }

/-! ## What a step does to a call -/

variable {s} {i j : Nat} {u : Submit}

@[simp] theorem set_self : (s.set i u).calls i = u := Function.update_self _ _ _

@[simp] theorem set_conn : (s.set i u).conn = s.conn := rfl

@[simp] theorem set_of_ne (h : j ≠ i) : (s.set i u).calls j = s.calls j :=
  Function.update_of_ne h _ _

@[simp] theorem registers_self : (s.registers i).calls i =
    { s.calls i with sn := s.seq + 1, stage := .writing, conn := s.conn } := set_self

@[simp] theorem registers_of_ne (h : j ≠ i) : (s.registers i).calls j = s.calls j := set_of_ne h

theorem registers_statusWaiters : (s.registers i).statusWaiters =
    Function.update s.statusWaiters (s.seq + 1) (some i) := rfl

theorem registers_orderWaiters : (s.registers i).orderWaiters =
    Function.update s.orderWaiters (s.calls i).rq (some i) := rfl

@[simp] theorem registers_conn : (s.registers i).conn = s.conn := rfl

end Trading

/-- What became of a call: it is the same call on the same connection, no earlier than before. -/
structure Submit.Later (u v : Submit) : Prop where
  rq : v.rq = u.rq
  sn : v.sn = u.sn
  conn : v.conn = u.conn
  idle : v.stage = .idle ↔ u.stage = .idle
  holding : v.stage = .holding ↔ u.stage = .holding
  writing : v.stage = .writing → u.stage = .writing

theorem Submit.Later.refl (u : Submit) : u.Later u := ⟨rfl, rfl, rfl, .rfl, .rfl, id⟩

/-- The reader changes a call's channels only. -/
theorem Submit.later_statusCh (u : Submit) (ch : Chan StatusResponse) :
    u.Later { u with statusCh := ch } := ⟨rfl, rfl, rfl, .rfl, .rfl, id⟩

theorem Submit.later_orderCh (u : Submit) (ch : Chan OrderUpdate) :
    u.Later { u with orderCh := ch } := ⟨rfl, rfl, rfl, .rfl, .rfl, id⟩

/-- A call that has registered goes on to a later stage. -/
theorem Submit.later_stage {u : Submit} {stage : Stage}
    (h : u.stage ≠ .idle ∧ u.stage ≠ .holding)
    (hs : stage ≠ .idle ∧ stage ≠ .holding ∧ stage ≠ .writing) :
    u.Later { u with stage } :=
  ⟨rfl, rfl, rfl, iff_of_false hs.1 h.1, iff_of_false hs.2.1 h.2, fun hw => absurd hw hs.2.2⟩

/-- What a call does on its own. -/
theorem Submit.Moves.later {u v : Submit} (h : u.Moves v) : u.Later v := by
  cases h with
  | unconnected hu _ => exact ⟨rfl, rfl, rfl, by simp [hu], by simp [hu], by simp⟩
  | acked hu _ _ => exact ⟨rfl, rfl, rfl, by simp [hu], by simp [hu], by simp⟩
  | rejected hu _ _ => exact ⟨rfl, rfl, rfl, by simp [hu], by simp [hu], by simp⟩
  | updated hu _ => exact ⟨rfl, rfl, rfl, by simp [hu], by simp [hu], by simp⟩
  | unacked hu _ _ => exact ⟨rfl, rfl, rfl, by simp [hu], by simp [hu], by simp⟩
  | unheard hu _ _ => exact ⟨rfl, rfl, rfl, by simp [hu], by simp [hu], by simp⟩
  | canceled hu => rcases hu with hu | hu <;> exact ⟨rfl, rfl, rfl, by simp [hu], by simp [hu], by simp⟩
  | timedOut hu => exact ⟨rfl, rfl, rfl, by simp [hu], by simp [hu], by simp⟩

end SuperAgent.Perpl
