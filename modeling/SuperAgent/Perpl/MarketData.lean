import SuperAgent.Core.Run
import SuperAgent.Perpl.Streams
import Mathlib.Logic.Function.Basic

/-!
# The market-data socket

All streams share one connection. A loop that the first subscription starts
keeps it, asks for every stream anew when it reconnects and hands each frame to
the handler of its stream. A stream subscribed to later is asked for by a
watcher of its session, which a one-slot wake signal starts. Meanwhile contexts
end, and a subscriber's channel is closed when its context has ended.
-/

namespace SuperAgent.Perpl

/-- What ends the process. -/
inductive Panic
  | sendOnClosed
  | outOfRange
  deriving DecidableEq

/-- Where the connection loop is. -/
inductive Loop
  | unstarted
  | top
  | dialing
  /-- Connected, and about to ask for these streams. -/
  | asking (streams : List String)
  | reading
  /-- In the handler of a subscriber, which has these values left to send. -/
  | handling (i : Nat) (values : List (Option Value))
  /-- The session is over. -/
  | ended
  | pausing
  | stopped

/-- The loop has a connection. -/
def Loop.connected : Loop → Bool
  | .asking _ | .reading | .handling _ _ => true
  | _ => false

/-- Where the watcher of a session is. -/
inductive Watcher
  | absent
  | waiting
  | woken
  | asking (missing : List String)
  | gone

/-- Where a subscription is. -/
inductive SubscriberStage
  | idle
  /-- Its handler is registered, and the wake signal is not sent yet. -/
  | registered
  | streaming
  | refused
  deriving DecidableEq

/-- A call of one of the streaming methods. -/
structure Subscriber where
  stage : SubscriberStage
  /-- The context it streams under. -/
  ctx : Nat
  feed : Feed
  out : Chan Value

/-- The client with its subscribers, its sessions and the contexts they run under. -/
structure MDClient where
  chainID : Int
  /-- What the adapter knows when it converts. -/
  context : Context
  handlers : List (String × Nat)
  bySID : List (Int × String)
  closing : Bool
  head : Int
  started : Bool
  wake : Bool
  loop : Loop
  /-- The context of the loop. -/
  root : Nat
  /-- How many connections there were, the present one included. -/
  session : Nat
  /-- The connection is lost, which the loop may not know yet. -/
  broken : Bool
  /-- The streams that were asked for on the present connection. -/
  asked : List String
  watchers : Nat → Watcher
  subs : Nat → Subscriber
  /-- The contexts that have ended. -/
  done : Nat → Bool
  panic : Option Panic

/-- What happens next. -/
inductive MDAction
  | subscribe (i ctx : Nat) (feed : Feed)
  | signal (i : Nat)
  | closeOnDone (i : Nat)
  | receive (i : Nat)
  | cancel (ctx : Nat)
  | refresh (c : Context)
  | close
  | lose
  /-- The loop goes on. -/
  | run
  | dial
  | read (f : MDFrame)
  | wakes (n : Nat)
  /-- The watcher of a session goes on. -/
  | watch (n : Nat)

namespace MDClient

/-- A client nobody has subscribed with. -/
def start (chainID : Int) (c : Context) : MDClient :=
  ⟨chainID, c, [], [], false, 0, false, false, .unstarted, 0, 0, false, [], fun _ => .absent,
    fun _ => ⟨.idle, 0, .marks, ⟨0, [], false⟩⟩, fun _ => false, none⟩

variable (s : MDClient)

/-- The subscriber whose handler a stream has. -/
def handlerOf (stream : String) : Option Nat := s.handlers.lookup stream

/-- The stream a subscriber subscribed to. -/
def streamOf (i : Nat) : String := (s.subs i).feed.stream s.chainID

def setSub (i : Nat) (b : Subscriber) : MDClient := { s with subs := Function.update s.subs i b }

/-- A subscriber's channel has changed. -/
def setOut (i : Nat) (out : Chan Value) : MDClient := s.setSub i { s.subs i with out }

def setLoop (l : Loop) : MDClient := { s with loop := l }

def setWatcher (n : Nat) (w : Watcher) : MDClient :=
  { s with watchers := Function.update s.watchers n w }

/-- A handler is registered, and the first one starts the loop under its context. -/
def register (i ctx : Nat) (feed : Feed) : MDClient :=
  { s.setSub i ⟨.registered, ctx, feed, ⟨feed.capacity, [], false⟩⟩ with
    handlers := s.handlers ++ [(feed.stream s.chainID, i)]
    started := true
    loop := if s.started then s.loop else .top
    root := if s.started then s.root else ctx }

/-- The registered streams that no subscription is known of. -/
def missing : List String :=
  (s.handlers.map Prod.fst).filter fun stream => ¬ s.bySID.any fun sub => sub.2 = stream

/-- Subscriptions as the venue confirms them. A failure is per subscription. -/
def confirm (bySID : List (Int × String)) (subs : List SubscribeStatus) : List (Int × String) :=
  subs.foldl (fun m r =>
    if r.code ≠ 0 then m else (r.subID, r.stream) :: m.filter fun sub => sub.1 ≠ r.subID) bySID

/-- The frame goes to the handler of its stream, if there is one. -/
def hand (f : MDFrame) : MDClient :=
  match (s.bySID.lookup f.subID).bind s.handlerOf with
  | some i => s.setLoop (.handling i ((s.subs i).feed.values s.context f))
  | none => s

def dispatch (f : MDFrame) : MDClient :=
  match f with
  | .unparseable => s
  | .subscribeResponse subs => { s with bySID := confirm s.bySID subs }
  | .heartbeat _ head => { s with head }.hand f
  | f => s.hand f

/-- A session is up as long as the loop is in it and the loop's context has not ended. -/
def Up (n : Nat) : Prop := n = s.session ∧ s.loop.connected = true ∧ s.done s.root = false

/-- One section of a subscription, of the loop or of a watcher, or what the world does. -/
inductive Moves (s : MDClient) : MDAction → MDClient → Prop
  | subscribed {i ctx : Nat} {feed : Feed} : (s.subs i).stage = .idle → feed.supported →
    s.handlerOf (feed.stream s.chainID) = none → Moves s (.subscribe i ctx feed) (s.register i ctx feed)
  | unsupported {i ctx : Nat} {feed : Feed} : (s.subs i).stage = .idle → ¬ feed.supported →
    Moves s (.subscribe i ctx feed) (s.setSub i ⟨.refused, ctx, feed, (s.subs i).out⟩)
  | duplicate {i j ctx : Nat} {feed : Feed} : (s.subs i).stage = .idle → feed.supported →
    s.handlerOf (feed.stream s.chainID) = some j →
    Moves s (.subscribe i ctx feed) (s.setSub i ⟨.refused, ctx, feed, (s.subs i).out⟩)
  | signaled {i : Nat} : (s.subs i).stage = .registered →
    Moves s (.signal i) { s.setSub i { s.subs i with stage := .streaming } with wake := true }
  | closed {i : Nat} {out : Chan Value} : (s.subs i).stage = .streaming → (s.subs i).feed ≠ .marks →
    s.done (s.subs i).ctx → (s.subs i).out.close = some out → Moves s (.closeOnDone i) (s.setOut i out)
  | received {i : Nat} {v : Value} {rest : List Value} : (s.subs i).out.buf = v :: rest →
    Moves s (.receive i) (s.setOut i { (s.subs i).out with buf := rest })
  | canceled {ctx : Nat} : Moves s (.cancel ctx) { s with done := Function.update s.done ctx true }
  | refreshed {c : Context} : Moves s (.refresh c) { s with context := c }
  | shut : Moves s .close { s with closing := true, broken := true }
  | lost : Moves s .lose { s with broken := true }
  | begins : s.loop = .top → s.done s.root = false → Moves s .run (s.setLoop .dialing)
  | done : s.loop = .top → s.done s.root → Moves s .run (s.setLoop .stopped)
  | dialed : s.loop = .dialing → Moves s .dial
    { s.setLoop (.asking (s.handlers.map Prod.fst)) with
      session := s.session + 1, broken := false, bySID := [], asked := [] }
  | undialed : s.loop = .dialing → Moves s .run (s.setLoop .ended)
  | asks {streams : List String} : s.loop = .asking streams → Moves s .run
    { (s.setLoop .reading).setWatcher s.session .waiting with asked := s.asked ++ streams }
  | unasked {streams : List String} : s.loop = .asking streams → streams ≠ [] →
    s.broken ∨ s.done s.root → Moves s .run (s.setLoop .ended)
  | reads {f : MDFrame} : s.loop = .reading → Moves s (.read f) (s.dispatch f)
  | sends {i : Nat} {v : Value} {vs : List (Option Value)} {out : Chan Value} :
    s.loop = .handling i (some v :: vs) → (s.subs i).out.trySend v = some out →
    Moves s .run ((s.setOut i out).setLoop (.handling i vs))
  | sendsOnClosed {i : Nat} {v : Value} {vs : List (Option Value)} :
    s.loop = .handling i (some v :: vs) → (s.subs i).out.trySend v = none →
    Moves s .run { s with panic := some .sendOnClosed }
  | outOfRange {i : Nat} {vs : List (Option Value)} : s.loop = .handling i (none :: vs) →
    Moves s .run { s with panic := some .outOfRange }
  | handled {i : Nat} : s.loop = .handling i [] → Moves s .run (s.setLoop .reading)
  | unread : s.loop = .reading → s.broken ∨ s.done s.root → Moves s .run (s.setLoop .ended)
  | stops : s.loop = .ended → s.done s.root ∨ s.closing → Moves s .run (s.setLoop .stopped)
  | pauses : s.loop = .ended → s.done s.root = false → s.closing = false →
    Moves s .run (s.setLoop .pausing)
  | retries : s.loop = .pausing → Moves s .run (s.setLoop .top)
  | givesUp : s.loop = .pausing → s.done s.root → Moves s .run (s.setLoop .stopped)
  | wakes {n : Nat} : s.watchers n = .waiting → s.wake →
    Moves s (.wakes n) { s.setWatcher n .woken with wake := false }
  | complete {n : Nat} : s.watchers n = .woken → s.missing = [] →
    Moves s (.watch n) (s.setWatcher n .waiting)
  | lacks {n : Nat} : s.watchers n = .woken → s.missing ≠ [] →
    Moves s (.watch n) (s.setWatcher n (.asking s.missing))
  | subscribes {n : Nat} {streams : List String} : s.watchers n = .asking streams →
    n = s.session → s.loop.connected →
    Moves s (.watch n) { s.setWatcher n .waiting with asked := s.asked ++ streams }
  | fails {n : Nat} {streams : List String} : s.watchers n = .asking streams → s.broken ∨ ¬ s.Up n →
    Moves s (.watch n) (s.setWatcher n .waiting)
  | leaves {n : Nat} : s.watchers n = .waiting → ¬ s.Up n → Moves s (.watch n) (s.setWatcher n .gone)

/-- A step of the process, as long as it lives. -/
def Step (s : MDClient) (a : MDAction) (t : MDClient) : Prop := s.panic = none ∧ s.Moves a t

/-! ## Channels that are closed -/

variable {s} {t : MDClient} {a : MDAction} {i j n : Nat} {f : MDFrame} {stream : String}

theorem setSub_self {b : Subscriber} : (s.setSub i b).subs i = b := Function.update_self _ _ _

theorem setSub_of_ne {b : Subscriber} (h : j ≠ i) : (s.setSub i b).subs j = s.subs j :=
  Function.update_of_ne h _ _

theorem setWatcher_self {w : Watcher} : (s.setWatcher n w).watchers n = w := Function.update_self _ _ _

theorem setWatcher_of_ne {w : Watcher} {m : Nat} (h : m ≠ n) :
    (s.setWatcher n w).watchers m = s.watchers m := Function.update_of_ne h _ _

/-- A frame of a registered stream brings the loop into its handler. -/
theorem hand_of_handler (h : (s.bySID.lookup f.subID).bind s.handlerOf = some i) :
    s.hand f = s.setLoop (.handling i ((s.subs i).feed.values s.context f)) := by
  rw [hand, h]

/-- A frame changes what is known of the subscriptions and the chain, and brings the loop into a
handler at most. -/
theorem dispatch_eq (s : MDClient) (f : MDFrame) : ∃ bySID head loop,
    s.dispatch f = { s with bySID, head, loop } ∧ (loop = s.loop ∨
      ∃ i, loop = .handling i ((s.subs i).feed.values s.context f)) := by
  have hhand : ∀ head, ∃ loop, { s with head }.hand f = { s with head, loop } ∧ (loop = s.loop ∨
      ∃ i, loop = .handling i ((s.subs i).feed.values s.context f)) := by
    intro head
    unfold hand
    split
    · exact ⟨_, rfl, .inr ⟨_, rfl⟩⟩
    · exact ⟨s.loop, rfl, .inl rfl⟩
  cases f with
  | unparseable => exact ⟨s.bySID, s.head, s.loop, rfl, .inl rfl⟩
  | subscribeResponse subs => exact ⟨confirm s.bySID subs, s.head, s.loop, rfl, .inl rfl⟩
  | heartbeat sid head => exact ⟨s.bySID, head, hhand head⟩
  | candles sid data => exact ⟨s.bySID, s.head, hhand s.head⟩
  | book sid time bids asks => exact ⟨s.bySID, s.head, hhand s.head⟩
  | marketState sid data => exact ⟨s.bySID, s.head, hhand s.head⟩
  | other sid => exact ⟨s.bySID, s.head, hhand s.head⟩

/-- The loop will never read another frame. -/
def Over (s : MDClient) : Prop :=
  s.loop = .stopped ∨ (s.done s.root = true ∧ (s.loop = .top ∨ s.loop = .pausing ∨ s.loop = .ended)) ∨
    (s.closing = true ∧ s.loop = .ended)

/-- A channel is closed only when the loop will never read another frame. -/
def Quiet (s : MDClient) : MDAction → Prop
  | .closeOnDone _ => s.Over
  | _ => True

theorem Over.mono (h : s.Over) (hloop : t.loop = s.loop)
    (hdone : s.done s.root = true → t.done t.root = true)
    (hclosing : s.closing = true → t.closing = true) : t.Over := by
  unfold Over
  rw [hloop]
  exact h.imp_right (Or.imp (And.imp_left hdone) (And.imp_left hclosing))

theorem Over.loop_ne (h : s.Over) :
    s.loop.connected = false ∧ s.loop ≠ .dialing ∧ s.loop ≠ .unstarted := by
  rcases h with h | ⟨-, h | h | h⟩ | ⟨-, h⟩ <;> rw [h] <;> exact ⟨rfl, nofun, nofun⟩

theorem done_update {ctx : Nat} (h : s.done i = true) : Function.update s.done ctx true i = true := by
  by_cases hi : i = ctx
  · rw [hi, Function.update_self]
  · rwa [Function.update_of_ne hi]

/-- A loop that is over stays so. -/
theorem Over.moves (h : s.Over) (hm : s.Moves a t) (hstarted : s.started = true) : t.Over := by
  obtain ⟨hconnected, hdialing, hunstarted⟩ := h.loop_ne
  cases hm with
  | subscribed _ _ _ =>
    refine h.mono ?_ ?_ id
    · exact if_pos hstarted
    · intro hdone
      change s.done (if s.started = true then s.root else _) = true
      rwa [if_pos hstarted]
  | unsupported _ _ | duplicate _ _ _ | signaled _ | closed _ _ _ _ | received _ | refreshed | lost
  | wakes _ _ | complete _ _ | lacks _ _ | subscribes _ _ _ | fails _ _ | leaves _ _ =>
    exact h.mono rfl id id
  | sendsOnClosed _ _ | outOfRange _ => exact h.mono rfl id id
  | canceled => exact h.mono rfl done_update id
  | shut => exact h.mono rfl id fun _ => rfl
  | begins hloop hdone =>
    rcases h with h | ⟨h, -⟩ | ⟨-, h⟩
    · cases hloop.symm.trans h
    · cases hdone.symm.trans h
    · cases hloop.symm.trans h
  | done _ _ | stops _ _ | givesUp _ _ => exact .inl rfl
  | dialed hloop | undialed hloop => exact absurd hloop hdialing
  | asks hloop | unasked hloop _ _ | reads hloop | sends hloop _ | handled hloop | unread hloop _ =>
    rw [hloop] at hconnected
    cases hconnected
  | pauses hloop hdone hopen =>
    rcases h with h | ⟨h, -⟩ | ⟨h, -⟩
    · cases hloop.symm.trans h
    · cases hdone.symm.trans h
    · cases hopen.symm.trans h
  | retries hloop =>
    rcases h with h | ⟨h, -⟩ | ⟨-, h⟩
    · cases hloop.symm.trans h
    · exact .inr (.inl ⟨h, .inl rfl⟩)
    · cases hloop.symm.trans h

/-- Once a channel is closed the loop is over, and no handler ran into a closed channel. -/
structure Closing (s : MDClient) : Prop where
  unstarted : s.started = false → s.loop = .unstarted
  ended : ∀ i, (s.subs i).out.closed = true → s.Over
  sound : s.panic ≠ some .sendOnClosed

theorem start_closing (chainID : Int) (c : Context) : (start chainID c).Closing :=
  ⟨fun _ => rfl, nofun, nofun⟩

theorem Closing.started (h : s.Closing) (hover : s.Over) : s.started = true :=
  eq_true_of_ne_false fun hstarted => hover.loop_ne.2.2 (h.unstarted hstarted)

/-- A loop that was started stays so, and until then it is where it was. -/
theorem Moves.unstarted (hm : s.Moves a t) (h : s.started = false → s.loop = .unstarted) :
    t.started = false → t.loop = .unstarted := by
  cases hm with
  | subscribed _ _ _ => exact nofun
  | reads hloop =>
    obtain ⟨bySID, head, loop, heq, hcases⟩ := s.dispatch_eq _
    rw [heq]
    intro hstarted
    cases hloop.symm.trans (h hstarted)
  | unsupported _ _ | duplicate _ _ _ | signaled _ | closed _ _ _ _ | received _ | canceled | refreshed
  | shut | lost | sendsOnClosed _ _ | outOfRange _ | wakes _ _ | complete _ _ | lacks _ _
  | subscribes _ _ _ | fails _ _ | leaves _ _ => exact h
  | begins hloop _ | done hloop _ | dialed hloop | undialed hloop | asks hloop | unasked hloop _ _
  | sends hloop _ | handled hloop | unread hloop _ | stops hloop _ | pauses hloop _ _ | retries hloop
  | givesUp hloop _ =>
    intro hstarted
    cases hloop.symm.trans (h hstarted)

/-- Channels are closed on purpose only. -/
theorem Moves.closed_cases (hm : s.Moves a t) (hclosed : (t.subs i).out.closed = true) :
    (s.subs i).out.closed = true ∨ a = .closeOnDone i := by
  have hset : ∀ j b, ((s.setSub j b).subs i).out.closed = true →
      (s.subs i).out.closed = true ∨ (i = j ∧ b.out.closed = true) := by
    intro j b h
    by_cases hij : i = j
    · subst hij
      rw [setSub_self] at h
      exact .inr ⟨rfl, h⟩
    · rw [setSub_of_ne hij] at h
      exact .inl h
  cases hm with
  | subscribed _ _ _ =>
    rcases hset _ _ hclosed with hold | ⟨-, hnew⟩
    · exact .inl hold
    · cases hnew
  | unsupported _ _ | duplicate _ _ _ | signaled _ | received _ =>
    rcases hset _ _ hclosed with hold | ⟨rfl, hnew⟩
    · exact .inl hold
    · exact .inl hnew
  | closed _ _ _ _ =>
    rcases hset _ _ hclosed with hold | ⟨rfl, -⟩
    · exact .inl hold
    · exact .inr rfl
  | reads _ =>
    obtain ⟨bySID, head, loop, heq, -⟩ := s.dispatch_eq _
    rw [heq] at hclosed
    exact .inl hclosed
  | sends _ hout =>
    rcases hset _ _ hclosed with hold | ⟨rfl, hnew⟩
    · exact .inl hold
    · by_contra hnot
      rw [not_or] at hnot
      obtain ⟨d, hd, hopen, -⟩ := Chan.trySend_eq_some (eq_false_of_ne_true hnot.1)
      cases Option.some.inj (hd.symm.trans hout)
      cases hopen.symm.trans hnew
  | _ => exact .inl hclosed

theorem Closing.step (h : s.Closing) (hok : s.Quiet a) (hs : s.Step a t) : t.Closing := by
  obtain ⟨hpanic, hm⟩ := hs
  refine ⟨hm.unstarted h.unstarted, fun i hi => ?_, fun hsound => ?_⟩
  · have hover : s.Over := by
      rcases hm.closed_cases hi with hclosed | rfl
      · exact h.ended i hclosed
      · exact hok
    exact hover.moves hm (h.started hover)
  · cases hm with
    | @sendsOnClosed i v vs hloop hsend =>
      have hclosed : (s.subs i).out.closed = true := by
        by_contra hnot
        obtain ⟨d, hd, -⟩ := Chan.trySend_eq_some (eq_false_of_ne_true hnot)
        cases hsend.symm.trans hd
      have hconnected := (h.ended i hclosed).loop_ne.1
      rw [hloop] at hconnected
      cases hconnected
    | reads _ =>
      obtain ⟨bySID, head, loop, heq, -⟩ := s.dispatch_eq _
      rw [heq] at hsound
      exact h.sound hsound
    | outOfRange _ => cases hsound
    | _ => exact h.sound hsound

/-- No handler sends on a closed channel. -/
theorem never_sends_on_closed {chainID : Int} {c : Context} {as : List MDAction}
    (h : Run Step Quiet (start chainID c) as s) : s.panic ≠ some .sendOnClosed := by
  have hinv : s.Closing := h.invariant (start_closing chainID c) fun _ _ _ h hok hs => h.step hok hs
  exact hinv.sound

/-- A market with this number. -/
def aMarket (id : Int) : Market := ⟨id, "BTC", "BTC", 1, 5, 0⟩

/-- The minute bars of a market with this number. -/
def minutes (id : Int) : Feed := .candles (aMarket id) Duration.minute

/-- An adapter of one market. -/
def aContext : Context := ⟨fun id => some (aMarket id), 6, fun _ => none⟩

/-- A bar in which nothing was traded. -/
def aBar (time : Int64) : WireCandle := ⟨time, 10, 10, 10, 10, "", 0⟩

/-- A stream ends with the loop, whose only context it is under. -/
theorem never_sends_on_closed_alone : ∃ as s, Run Step Quiet (start 1 aContext) as s ∧
    (s.subs 0).out.closed = true ∧ s.panic ≠ some .sendOnClosed := by
  have hrun : Run Step Quiet (start 1 aContext) _ _ := Run.nil
    |>.snoc (a := .subscribe 0 0 (minutes 1)) trivial ⟨rfl, .subscribed rfl rfl rfl⟩
    |>.snoc (a := .signal 0) trivial ⟨rfl, .signaled rfl⟩
    |>.snoc (a := .run) trivial ⟨rfl, .begins rfl rfl⟩
    |>.snoc (a := .dial) trivial ⟨rfl, .dialed rfl⟩
    |>.snoc (a := .run) trivial ⟨rfl, .asks rfl⟩
    |>.snoc (a := .cancel 0) trivial ⟨rfl, .canceled⟩
    |>.snoc (a := .run) trivial ⟨rfl, .unread rfl (.inr rfl)⟩
    |>.snoc (a := .run) trivial ⟨rfl, .stops rfl (.inl rfl)⟩
    |>.snoc (a := .closeOnDone 0) (by exact .inl rfl)
      ⟨rfl, .closed rfl (by exact nofun) rfl rfl⟩
  exact ⟨_, _, hrun, rfl, never_sends_on_closed hrun⟩

/-- The second of two markets is delisted, and a frame of its stream comes before the venue or the
client has forgotten the stream. -/
theorem sends_on_closed : ∃ as s, Run Step Always (start 1 aContext) as s ∧
    (s.subs 1).out.closed = true ∧ s.done (s.subs 0).ctx = false ∧
      s.panic = some .sendOnClosed := by
  have hrun : Run Step Always (start 1 aContext) _ _ := Run.nil
    |>.snoc (a := .subscribe 0 0 (minutes 1)) trivial ⟨rfl, .subscribed rfl rfl rfl⟩
    |>.snoc (a := .subscribe 1 1 (minutes 2)) trivial ⟨rfl, .subscribed rfl rfl (by decide)⟩
    |>.snoc (a := .signal 1) trivial ⟨rfl, .signaled rfl⟩
    |>.snoc (a := .run) trivial ⟨rfl, .begins rfl rfl⟩
    |>.snoc (a := .dial) trivial ⟨rfl, .dialed rfl⟩
    |>.snoc (a := .run) trivial ⟨rfl, .asks rfl⟩
    |>.snoc (a := .read (.subscribeResponse [⟨(minutes 2).stream 1, 7, 0⟩])) trivial ⟨rfl, .reads rfl⟩
    |>.snoc (a := .cancel 1) trivial ⟨rfl, .canceled⟩
    |>.snoc (a := .closeOnDone 1) trivial ⟨rfl, .closed rfl nofun rfl rfl⟩
    |>.snoc (a := .read (.candles 7 [aBar 60000])) trivial ⟨rfl, .reads rfl⟩
    |>.snoc (a := .run) trivial ⟨rfl, .sendsOnClosed rfl rfl⟩
  exact ⟨_, _, hrun, rfl, rfl, rfl⟩

end MDClient

end SuperAgent.Perpl
