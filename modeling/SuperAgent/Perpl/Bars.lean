import SuperAgent.Core.Gapless
import SuperAgent.Perpl.Subscriptions

/-!
# The bars of a stream

The venue forms one bar of a stream after the other and sends each version of
it over a connection on which it serves the stream. From there a bar goes
through the client's loop and a channel to the consumer. A bar is lost when a
connection is, when the channel is full and when it cannot be converted; the
client asks anew after a reconnect, and the venue's snapshot reaches as far back
as it does.
-/

namespace SuperAgent.Perpl

/-- The instant of the wire's milliseconds. -/
def unixMilli (ms : Int64) : Time := 62135596800 * 1000000000 + ms.toInt * 1000000

/-- A value is of a bar that opened later. -/
def Value.Later (v : Value) (b : WireCandle) : Prop :=
  ∃ candle t, v = .candle candle ∧ candle.open = some t ∧ unixMilli b.time < t

/-- A value is this version of a bar. -/
def Value.Shows (m : Market) (period : Duration) (v : Value) (b : WireCandle) : Prop :=
  ∃ (c : Context) (candle : Candle), c.toVenueCandle m period b = some (.ok candle) ∧
    v = .candle candle

/-- A bar that was converted, or one on its way to the client. -/
inductive Item
  | value (v : Value)
  | bar (w : WireCandle)

namespace Item

def Shows (m : Market) (period : Duration) : Item → WireCandle → Prop
  | .value v, b => v.Shows m period b
  | .bar w, b => w = b

def Later : Item → WireCandle → Prop
  | .value v, b => v.Later b
  | .bar w, b => b.time < w.time

end Item

/-- The client and the venue's bars of one stream. -/
structure BarFeed where
  client : MDClient
  /-- All bars there were, oldest first. The last one is forming. -/
  bars : List WireCandle
  /-- The venue sends the stream on the present connection. -/
  serving : Bool
  /-- The frames of the stream that the client has yet to read. -/
  wire : List (List WireCandle)
  /-- The bar that was forming when a subscription began. -/
  since : Nat → Nat
  /-- What each consumer has received. -/
  taken : Nat → List Value

/-- What happens next. -/
inductive BarAction
  | client (a : MDAction)
  /-- The venue serves the stream it was asked for, with a snapshot from here on. -/
  | serve (reach : Nat)
  /-- The forming bar changes. -/
  | tick (w : WireCandle)
  /-- The forming bar closes as it is, and the next one opens. -/
  | roll (w : WireCandle)

/-- The values a subscriber's handler has yet to send. -/
def MDClient.handing (s : MDClient) (i : Nat) : List Value :=
  match s.loop with
  | .handling j vs => if j = i then vs.filterMap id else []
  | _ => []

namespace BarFeed

/-- The client has gone on. What is under way on a connection that ends is lost. -/
def after (s : BarFeed) (t : MDClient) : BarFeed :=
  { s with
    client := t
    serving := s.serving && t.loop.connected && !t.broken
    wire := if t.loop.connected then s.wire else [] }

/-- The venue sends a version of a bar where it serves the stream. -/
def push (s : BarFeed) (w : WireCandle) : BarFeed :=
  { s with wire := if s.serving then s.wire ++ [[w]] else s.wire }

/-- What a consumer has received and what its handler has made of the frames since, in order. -/
def values (s : BarFeed) (i : Nat) : List Value :=
  s.taken i ++ ((s.client.subs i).out.buf ++ s.client.handing i)

/-- What has come or is to come to a consumer, in order. -/
def pipeline (s : BarFeed) (i : Nat) : List Item :=
  (s.values i).map .value ++ s.wire.flatten.map .bar

/-- A bar that formed during a subscription. -/
def Tracked (s : BarFeed) (i : Nat) (b : WireCandle) : Prop :=
  ∃ j, s.since i ≤ j ∧ s.bars[j]? = some b

/-- A bar that closed during a subscription, in its final version. -/
def Owed (s : BarFeed) (i : Nat) (b : WireCandle) : Prop :=
  ∃ j, s.since i ≤ j ∧ j + 1 < s.bars.length ∧ s.bars[j]? = some b

/-- A client nobody has subscribed with, while the venue forms its first bar. -/
def start (chainID : Int) (c : Context) (b : WireCandle) : BarFeed :=
  ⟨.start chainID c, [b], false, [], fun _ => 0, fun _ => []⟩

variable (m : Market) (period : Duration)

/-- The stream of the bars. -/
def stream (s : BarFeed) : String := (Feed.candles m period).stream s.client.chainID

/-- A step of the client or of the venue. The venue sends the stream's bars in order, under a
subscription it has confirmed. -/
inductive Step (s : BarFeed) : BarAction → BarFeed → Prop
  | subscribes {i ctx : Nat} {feed : Feed} {t : MDClient} :
    s.client.Step (.subscribe i ctx feed) t → Step s (.client (.subscribe i ctx feed))
      { s.after t with
        since := Function.update s.since i (s.bars.length - 1)
        taken := Function.update s.taken i [] }
  | receives {i : Nat} {v : Value} {rest : List Value} {t : MDClient} :
    s.client.Step (.receive i) t → (s.client.subs i).out.buf = v :: rest →
    Step s (.client (.receive i))
      { s.after t with taken := Function.update s.taken i (s.taken i ++ [v]) }
  | readsBars {k : Int} {data : List WireCandle} {rest : List (List WireCandle)} {t : MDClient} :
    s.wire = data :: rest → s.client.bySID.lookup k = some (s.stream m period) →
    s.client.Step (.read (.candles k data)) t →
    Step s (.client (.read (.candles k data))) { s.after t with wire := rest }
  | readsOther {f : MDFrame} {t : MDClient} :
    (∀ k data, f = .candles k data → s.client.bySID.lookup k ≠ some (s.stream m period)) →
    s.client.Step (.read f) t → Step s (.client (.read f)) (s.after t)
  | goesOn {a : MDAction} {t : MDClient} : s.client.Step a t →
    (∀ i ctx feed, a ≠ .subscribe i ctx feed) → (∀ i, a ≠ .receive i) → (∀ f, a ≠ .read f) →
    Step s (.client a) (s.after t)
  | serves {reach : Nat} : s.stream m period ∈ s.client.asked → s.client.loop.connected = true →
    s.client.broken = false → reach < s.bars.length →
    Step s (.serve reach) { s with serving := true, wire := s.wire ++ [s.bars.drop reach] }
  | ticks {old : List WireCandle} {b w : WireCandle} : s.bars = old ++ [b] → w.time = b.time →
    Step s (.tick w) ({ s with bars := old ++ [w] }.push w)
  | rolls {old : List WireCandle} {b w : WireCandle} : s.bars = old ++ [b] → b.time < w.time →
    Step s (.roll w) ({ s with bars := s.bars ++ [w] }.push w)

/-- A live subscription to the stream. -/
def Follows (s : BarFeed) (i : Nat) : Prop :=
  s.client.Live i ∧ (s.client.subs i).feed = .candles m period

/-- No bar is lost on the way: a snapshot reaches back to every bar of a live subscription that is
neither received nor under way, the handler finds room for the last version of each bar, and a last
version can be converted. -/
def Kept (s : BarFeed) : BarAction → Prop
  | .serve reach => ∀ i, s.Follows m period i → ∀ b, s.Tracked i b →
    (∃ x ∈ s.pipeline i, x.Shows m period b) ∨ b ∈ s.bars.drop reach
  | .client .run => ∀ i v vs, s.Follows m period i → s.client.loop = .handling i (some v :: vs) →
    (s.client.subs i).out.buf.length < (s.client.subs i).out.cap ∨
      ∀ b, s.Tracked i b → ¬ v.Shows m period b
  | .client (.read (.candles k data)) => s.client.bySID.lookup k = some (s.stream m period) →
    ∀ i, s.Follows m period i → ∀ w ∈ data, s.Tracked i w →
      ∃ candle, s.client.context.toVenueCandle m period w = some (.ok candle)
  | _ => True

end BarFeed

/-! ## What the client does to values under way -/

namespace MDClient

variable {s t : MDClient} {a : MDAction} {i j : Nat}

/-- The streams that were or are to be asked for are registered. -/
structure Requested (s : MDClient) : Prop where
  asked : ∀ x ∈ s.asked, s.handlerOf x ≠ none
  asking : ∀ streams, s.loop = .asking streams → ∀ x ∈ streams, s.handlerOf x ≠ none
  missing : ∀ n streams, s.watchers n = .asking streams → ∀ x ∈ streams, s.handlerOf x ≠ none

theorem handlerOf_ne_none {x : String} (h : x ∈ s.handlers.map Prod.fst) : s.handlerOf x ≠ none := by
  obtain ⟨p, hp, rfl⟩ := List.mem_map.mp h
  intro hnone
  have hne := List.lookup_eq_none_iff.mp hnone p hp
  simp at hne

theorem mem_missing {x : String} (h : x ∈ s.missing) : s.handlerOf x ≠ none :=
  handlerOf_ne_none (List.mem_filter.mp h).1

theorem Requested.setWatcher {n : Nat} {w : Watcher} (h : s.Requested)
    (hw : ∀ streams, w = .asking streams → ∀ x ∈ streams, s.handlerOf x ≠ none) :
    (s.setWatcher n w).Requested := by
  refine ⟨h.asked, h.asking, fun k streams hk => ?_⟩
  by_cases hkn : k = n
  · subst hkn
    rw [setWatcher_self] at hk
    exact hw streams hk
  · rw [setWatcher_of_ne hkn] at hk
    exact h.missing k streams hk

theorem register_handlerOf_ne_none {ctx : Nat} {feed : Feed} {x : String} (h : s.handlerOf x ≠ none) :
    (s.register i ctx feed).handlerOf x ≠ none := by
  rw [register_handlerOf]
  cases hs : s.handlerOf x with
  | none => exact absurd hs h
  | some j => exact nofun

theorem Requested.register {ctx : Nat} {feed : Feed} (h : s.Requested) :
    (s.register i ctx feed).Requested := by
  refine ⟨fun x hx => register_handlerOf_ne_none (h.asked x hx), fun streams hloop x hx => ?_,
    fun n streams hn x hx => register_handlerOf_ne_none (h.missing n streams hn x hx)⟩
  change (if s.started = true then s.loop else .top) = .asking streams at hloop
  split at hloop
  · exact register_handlerOf_ne_none (h.asking streams hloop x hx)
  · cases hloop

theorem Requested.step (h : s.Requested) (hs : s.Step a t) : t.Requested := by
  obtain ⟨-, hm⟩ := hs
  cases hm with
  | subscribed _ _ _ => exact h.register
  | dialed _ =>
    refine ⟨fun x hx => absurd hx List.not_mem_nil, fun streams hloop x hx => ?_, h.missing⟩
    obtain rfl := Loop.asking.inj hloop
    exact handlerOf_ne_none hx
  | @asks streams hloop =>
    have hwatching : ((s.setLoop .reading).setWatcher s.session .waiting).Requested :=
      Requested.setWatcher ⟨h.asked, (fun _ hasks => nomatch hasks), h.missing⟩ fun _ => nofun
    refine ⟨fun x hx => ?_, (fun _ hasks => nomatch hasks), hwatching.missing⟩
    exact (List.mem_append.mp hx).elim (h.asked x) (h.asking streams hloop x)
  | reads hloop =>
    obtain ⟨bySID, head, loop, heq, hcases⟩ := s.dispatch_eq _
    rw [heq]
    refine ⟨h.asked, fun streams hasks => ?_, h.missing⟩
    rcases hcases with hsame | ⟨i, hhandling⟩
    · cases hloop.symm.trans (hsame.symm.trans hasks)
    · cases hhandling.symm.trans hasks
  | wakes _ _ => exact ⟨h.asked, h.asking, (h.setWatcher (w := .woken) nofun).missing⟩
  | complete _ _ | leaves _ _ | fails _ _ => exact h.setWatcher fun _ => nofun
  | lacks _ _ =>
    refine h.setWatcher fun streams heq x hx => ?_
    obtain rfl := Watcher.asking.inj heq
    exact mem_missing hx
  | @subscribes n streams hasking _ _ =>
    refine ⟨fun x hx => ?_, h.asking, (h.setWatcher (w := .waiting) nofun).missing⟩
    exact (List.mem_append.mp hx).elim (h.asked x) (h.missing n streams hasking x)
  | unsupported _ _ | duplicate _ _ _ | signaled _ | closed _ _ _ _ | received _ | canceled | refreshed
  | shut | lost | sendsOnClosed _ _ | outOfRange _ => exact ⟨h.asked, h.asking, h.missing⟩
  | begins _ _ | done _ _ | undialed _ | unasked _ _ _ | sends _ _ | handled _ | unread _ _ | stops _ _
  | pauses _ _ _ | retries _ | givesUp _ _ => exact ⟨h.asked, (fun _ hasks => nomatch hasks), h.missing⟩

theorem hand_handling {f : MDFrame} {vs : List (Option Value)} (hloop : s.loop = .reading)
    (h : (s.hand f).loop = .handling i vs) : ∃ x, s.bySID.lookup f.subID = some x ∧
      s.handlerOf x = some i ∧ vs = (s.subs i).feed.values s.context f := by
  unfold hand at h
  split at h
  · next j hj =>
    obtain ⟨rfl, rfl⟩ := Loop.handling.inj h
    obtain ⟨x, hx, hhandler⟩ := Option.bind_eq_some_iff.mp hj
    exact ⟨x, hx, hhandler, rfl⟩
  · cases hloop.symm.trans h

/-- A frame goes to the handler of the stream its subscription is of. -/
theorem dispatch_handling {f : MDFrame} {vs : List (Option Value)} (hloop : s.loop = .reading)
    (h : (s.dispatch f).loop = .handling i vs) : ∃ x, s.bySID.lookup f.subID = some x ∧
      s.handlerOf x = some i ∧ vs = (s.subs i).feed.values s.context f := by
  cases f with
  | unparseable | subscribeResponse => cases hloop.symm.trans h
  | heartbeat sid head =>
    exact hand_handling (s := { s with head }) hloop h
  | candles | book | marketState | other => exact hand_handling hloop h

/-- The loop is in the handler of a subscription that is held. -/
theorem Owned.busy (h : s.Owned) {vs : List (Option Value)}
    (hbusy : ∀ j vs, s.loop = .handling j vs → s.Held j) (hs : s.Step a t)
    (hloop : t.loop = .handling i vs) : t.Held i := by
  obtain ⟨-, hm⟩ := hs
  suffices hheld : s.Held i from (hm.held hheld).1
  cases hm with
  | @subscribed j ctx feed _ _ _ =>
    change (if s.started = true then s.loop else .top) = .handling i vs at hloop
    split at hloop
    · exact hbusy i vs hloop
    · cases hloop
  | reads hreading =>
    obtain ⟨x, -, hhandler, -⟩ := dispatch_handling hreading hloop
    exact (h.owner _ (mem_handlers hhandler)).1
  | @sends j v vs' out hold _ =>
    obtain ⟨rfl, -⟩ := Loop.handling.inj hloop
    exact hbusy _ _ hold
  | unsupported _ _ | duplicate _ _ _ | signaled _ | closed _ _ _ _ | received _ | canceled | refreshed
  | shut | lost | sendsOnClosed _ _ | outOfRange _ | wakes _ _ | complete _ _ | lacks _ _
  | subscribes _ _ _ | fails _ _ | leaves _ _ => exact hbusy i vs hloop
  | begins _ _ | done _ _ | dialed _ | undialed _ | asks _ | unasked _ _ _ | handled _ | unread _ _
  | stops _ _ | pauses _ _ _ | retries _ | givesUp _ _ => cases hloop

theorem handing_congr (h : t.loop = s.loop) : t.handing i = s.handing i := by
  unfold handing
  rw [h]

/-- Outside a handler no value is to be sent. -/
theorem handing_eq_nil (h : ∀ j vs, s.loop ≠ .handling j vs) : s.handing i = [] := by
  unfold handing
  split
  · next j vs hloop => exact absurd hloop (h j vs)
  · rfl

theorem handing_reading (h : s.loop = .reading) : s.handing i = [] :=
  handing_eq_nil fun _ _ heq => by cases h.symm.trans heq

theorem handing_self {vs : List (Option Value)} (h : s.loop = .handling i vs) :
    s.handing i = vs.filterMap id := by
  unfold handing
  rw [h]
  exact if_pos rfl

theorem handing_of_ne {vs : List (Option Value)} (h : s.loop = .handling j vs) (hij : j ≠ i) :
    s.handing i = [] := by
  unfold handing
  rw [h]
  exact if_neg hij

theorem setSub_buf {b : Subscriber} (h : b.out.buf = (s.subs j).out.buf) :
    ((s.setSub j b).subs i).out.buf = (s.subs i).out.buf := by
  by_cases hij : i = j
  · subst hij
    rw [setSub_self, h]
  · rw [setSub_of_ne hij]

theorem close_buf {c d : Chan Value} (h : c.close = some d) : d.buf = c.buf := by
  unfold Chan.close at h
  split at h
  · cases h
  · obtain rfl := Option.some.inj h
    rfl

/-- A value is put into the channel, or dropped because the channel is full. -/
theorem trySend_buf {c d : Chan Value} {v : Value} (h : c.trySend v = some d) :
    d.buf = c.buf ++ [v] ∨ (¬ c.buf.length < c.cap ∧ d.buf = c.buf) := by
  unfold Chan.trySend at h
  split at h
  · cases h
  · next hopen =>
    split at h
    · rw [Chan.send_eq_some (eq_false_of_ne_true hopen)] at h
      exact .inl (congrArg Chan.buf (Option.some.inj h).symm)
    · next hfull => exact .inr ⟨hfull, congrArg Chan.buf (Option.some.inj h).symm⟩

/-- The values under way to a subscriber stay as they are, unless one finds the channel full. -/
theorem Moves.values (hm : s.Moves a t) (hsubscribe : ∀ j ctx feed, a ≠ .subscribe j ctx feed)
    (hreceive : ∀ j, a ≠ .receive j) (hread : ∀ f, a ≠ .read f) :
    (t.subs i).out.buf ++ t.handing i = (s.subs i).out.buf ++ s.handing i ∨
      ∃ v vs, a = .run ∧ s.loop = .handling i (some v :: vs) ∧
        ¬ (s.subs i).out.buf.length < (s.subs i).out.cap ∧
        (t.subs i).out.buf = (s.subs i).out.buf ∧ t.handing i = vs.filterMap id := by
  have hpassive : t.subs = s.subs → s.handing i = [] → t.handing i = [] →
      (t.subs i).out.buf ++ t.handing i = (s.subs i).out.buf ++ s.handing i := by
    intro hsubs hs ht
    rw [hsubs, hs, ht]
  cases hm with
  | subscribed _ _ _ | unsupported _ _ | duplicate _ _ _ => exact absurd rfl (hsubscribe _ _ _)
  | received _ => exact absurd rfl (hreceive _)
  | reads _ => exact absurd rfl (hread _)
  | @signaled j _ =>
    refine .inl ?_
    have hbuf : ((s.setSub j { s.subs j with stage := .streaming }).subs i).out.buf =
        (s.subs i).out.buf := setSub_buf rfl
    exact congrArg (· ++ s.handing i) hbuf
  | @closed j out _ _ _ hout =>
    refine .inl ?_
    have hbuf : ((s.setOut j out).subs i).out.buf = (s.subs i).out.buf := setSub_buf (close_buf hout)
    exact congrArg (· ++ s.handing i) hbuf
  | @sends j v vs out hloop hout =>
    by_cases hij : j = i
    · subst hij
      have hbuf : (((s.setOut j out).setLoop (.handling j vs)).subs j).out = out :=
        congrArg Subscriber.out setSub_self
      have hhanding : ((s.setOut j out).setLoop (.handling j vs)).handing j = vs.filterMap id :=
        handing_self rfl
      rw [hbuf, hhanding, handing_self hloop]
      rcases trySend_buf hout with hsent | ⟨hfull, hsame⟩
      · refine .inl ?_
        rw [hsent, List.append_assoc, List.filterMap_cons_some (by rfl : id (some v) = some v)]
        rfl
      · exact .inr ⟨v, vs, rfl, hloop, hfull, hsame, rfl⟩
    · have hsubs : ((s.setOut j out).setLoop (.handling j vs)).subs i = s.subs i :=
        setSub_of_ne (Ne.symm hij)
      have hhanding : ((s.setOut j out).setLoop (.handling j vs)).handing i = [] :=
        handing_of_ne rfl hij
      rw [hsubs, hhanding, handing_of_ne hloop hij]
      exact .inl rfl
  | @handled j hloop =>
    refine .inl (hpassive rfl ?_ (handing_eq_nil nofun))
    by_cases hij : j = i
    · subst hij
      rw [handing_self hloop]
      rfl
    · exact handing_of_ne hloop hij
  | canceled | refreshed | shut | lost | sendsOnClosed _ _ | outOfRange _ | wakes _ _ | complete _ _
  | lacks _ _ | subscribes _ _ _ | fails _ _ | leaves _ _ =>
    exact .inl (congrArg _ (handing_congr rfl))
  | begins hloop _ | done hloop _ | dialed hloop | undialed hloop | asks hloop | unasked hloop _ _
  | unread hloop _ | stops hloop _ | pauses hloop _ _ | retries hloop | givesUp hloop _ =>
    exact .inl (hpassive rfl (handing_eq_nil (hloop ▸ nofun)) (handing_eq_nil nofun))

/-- A subscription that is held now was so before, under the same context and to the same feed. -/
theorem Moves.of_held (hm : s.Moves a t) (hsubscribe : ∀ ctx feed, a ≠ .subscribe i ctx feed)
    (h : t.Held i) : s.Held i ∧ (t.subs i).ctx = (s.subs i).ctx ∧ (t.subs i).feed = (s.subs i).feed := by
  rcases hm.alike with ⟨j, ctx, feed, rfl, rfl, -⟩ | ⟨ctx, -, rfl⟩ | hst
  · have hij : i ≠ j := by
      rintro rfl
      exact hsubscribe _ _ rfl
    obtain ⟨hold, hsubs⟩ := register_held h hij
    rw [hsubs]
    exact ⟨hold, rfl, rfl⟩
  · exact ⟨h, rfl, rfl⟩
  · have hold := (hst.held i).mp h
    exact ⟨hold, hst.sub i hold⟩

/-- Handlers stay for good, under the names their streams have on the venue's chain. -/
theorem Moves.handlerOf_ne_none (hm : s.Moves a t) {x : String} (h : s.handlerOf x ≠ none) :
    t.handlerOf x ≠ none ∧ t.chainID = s.chainID := by
  rcases hm.alike with ⟨j, ctx, feed, -, rfl, -⟩ | ⟨ctx, -, rfl⟩ | hst
  · exact ⟨register_handlerOf_ne_none h, rfl⟩
  · exact ⟨h, rfl⟩
  · refine ⟨?_, hst.chainID⟩
    rw [handlerOf, hst.handlers]
    exact h

/-- What holds of a client in every run. -/
structure Sane (s : MDClient) : Prop where
  unstarted : s.started = false → s.loop = .unstarted
  owned : s.Owned
  requested : s.Requested
  busy : ∀ i vs, s.loop = .handling i vs → s.Held i

theorem start_sane (chainID : Int) (c : Context) : (start chainID c).Sane :=
  ⟨fun _ => rfl, start_owned chainID c,
    ⟨nofun, (fun _ hasks => nomatch hasks), fun _ _ hasks => nomatch hasks⟩, nofun⟩

theorem Sane.step (h : s.Sane) (hs : s.Step a t) : t.Sane :=
  ⟨hs.2.unstarted h.unstarted, h.owned.step hs, h.requested.step hs,
    fun _ _ hloop => h.owned.busy h.busy hs hloop⟩

/-- A registration leaves the values of the other subscribers, and none for its own. -/
theorem Sane.register_handing {ctx : Nat} {feed : Feed} (h : s.Sane) :
    (s.register i ctx feed).handing j = s.handing j := by
  cases hstarted : s.started with
  | true => exact handing_congr (if_pos hstarted)
  | false =>
    have hloop : (s.register i ctx feed).loop = .top := if_neg (ne_true_of_eq_false hstarted)
    rw [handing_eq_nil (hloop ▸ nofun), handing_eq_nil (h.unstarted hstarted ▸ nofun)]

/-- Nothing is under way to a subscription that is not held. -/
theorem Sane.handing_of_not_held (h : s.Sane) (hi : ¬ s.Held i) : s.handing i = [] := by
  unfold handing
  split
  · next j vs hloop =>
    by_cases hij : j = i
    · exact absurd (hij ▸ h.busy j vs hloop) hi
    · exact if_neg hij
  · rfl

end MDClient

/-! ## Bars and their values -/

/-- A bar as the handler sends it. -/
def Context.convert (c : Context) (m : Market) (period : Duration) (w : WireCandle) : Option Value :=
  match c.toVenueCandle m period w with
  | some (.ok candle) => some (.candle candle)
  | _ => none

section Values

variable {m : Market} {period : Duration} {c : Context} {v : Value} {w b : WireCandle}

theorem values_candles {k : Int} {data : List WireCandle} :
    ((Feed.candles m period).values c (.candles k data)).filterMap id =
      data.filterMap (c.convert m period) := by
  rw [Feed.values, List.filterMap_filterMap]
  congr 1
  ext1 w
  unfold Context.convert
  cases c.toVenueCandle m period w with
  | none => rfl
  | some r => cases r <;> rfl

theorem values_of_ne_candles {f : MDFrame} (h : ∀ k data, f ≠ .candles k data) :
    (Feed.candles m period).values c f = [] := by
  cases f with
  | candles k data => exact absurd rfl (h k data)
  | unparseable | subscribeResponse | heartbeat | book | marketState | other => rfl

theorem open_of_toVenueCandle {candle : Candle}
    (h : c.toVenueCandle m period w = some (.ok candle)) : candle.open = msTime w.time := by
  unfold Context.toVenueCandle at h
  obtain ⟨_, -, h⟩ := Converts.bind_eq_ok.mp h
  obtain ⟨_, -, h⟩ := Converts.bind_eq_ok.mp h
  obtain ⟨_, -, h⟩ := Converts.bind_eq_ok.mp h
  obtain ⟨_, -, h⟩ := Converts.bind_eq_ok.mp h
  obtain ⟨_, -, h⟩ := Converts.bind_eq_ok.mp h
  obtain rfl := Except.ok.inj (Option.some.inj h)
  rfl

theorem msTime_eq_some {ms : Int64} {t : Time} (h : msTime ms = some t) : t = unixMilli ms := by
  unfold msTime at h
  split at h
  · cases h
  · exact (Option.some.inj h).symm

theorem unixMilli_lt {a b : Int64} : unixMilli a < unixMilli b ↔ a < b := by
  have hscale : unixMilli a < unixMilli b ↔ (62135596800 * 1000000000 + a.toInt * 1000000 : Int) <
      62135596800 * 1000000000 + b.toInt * 1000000 := Iff.rfl
  rw [hscale, Int64.lt_iff_toInt_lt]
  omega

/-- A value is of a later bar when what it was made from is. -/
theorem later_of_convert (h : c.convert m period w = some v) (hlater : v.Later b) : b.time < w.time := by
  unfold Context.convert at h
  split at h
  · next candle hcandle =>
    obtain rfl := Option.some.inj h
    obtain ⟨candle', t, heq, hopen, hlt⟩ := hlater
    obtain rfl := Value.candle.inj heq
    rw [open_of_toVenueCandle hcandle] at hopen
    rw [msTime_eq_some hopen] at hlt
    exact unixMilli_lt.mp hlt
  · cases h

theorem shows_of_convert (h : c.convert m period w = some v) : v.Shows m period w := by
  unfold Context.convert at h
  split at h
  · next candle hcandle => exact ⟨c, candle, hcandle, (Option.some.inj h).symm⟩
  · cases h

/-- What is later than a bar is later than the one before. -/
theorem Value.Later.trans {w' : WireCandle} (h : v.Later w') (hlt : b.time < w'.time) : v.Later b := by
  obtain ⟨candle, t, hv, hopen, ht⟩ := h
  exact ⟨candle, t, hv, hopen, Int.lt_trans (unixMilli_lt.mpr hlt) ht⟩

end Values

namespace BarFeed

variable {m : Market} {period : Duration} {s t : BarFeed} {a : MDAction} {i : Nat}

/-- The loop goes on without a frame. -/
theorem Step.runs {c : MDClient} (h : s.client.Step .run c) :
    s.Step m period (.client .run) (s.after c) := by
  refine .goesOn h (fun _ _ _ heq => ?_) (fun _ heq => ?_) fun _ heq => ?_
  · cases heq
  · cases heq
  · cases heq

/-- What holds of a feed in every run: the bars come in order, and none is under way that is later
than the forming one. -/
structure Ordered (m : Market) (period : Duration) (s : BarFeed) : Prop where
  sane : s.client.Sane
  sorted : s.bars.Pairwise fun b w => b.time < w.time
  forming : s.bars ≠ []
  served : s.serving = true → s.client.handlerOf (s.stream m period) ≠ none
  since : ∀ i, s.client.Held i → (s.client.subs i).feed = .candles m period →
    s.since i < s.bars.length
  wire : ∀ w ∈ s.wire.flatten, ∀ b ∈ s.bars.getLast?, ¬ b.time < w.time
  past : ∀ i, s.client.Held i → (s.client.subs i).feed = .candles m period →
    ∀ v ∈ s.values i, ∀ b ∈ s.bars.getLast?, ¬ v.Later b

theorem start_ordered (chainID : Int) (c : Context) (b : WireCandle) :
    (start chainID c b).Ordered m period := by
  have hheld : ∀ i, ¬ (start chainID c b).client.Held i := fun i =>
    MDClient.start_unheld chainID c
  exact ⟨MDClient.start_sane chainID c, List.pairwise_singleton _ _, List.cons_ne_nil _ _, nofun,
    fun i hi => absurd hi (hheld i), nofun, fun i hi => absurd hi (hheld i)⟩

/-- What a step of the client does to the values of a subscription to the stream. -/
inductive Effect (m : Market) (period : Duration) (s : BarFeed) (a : MDAction) (t : BarFeed) (i : Nat) :
    Prop
  /-- Nothing, unless the connection is lost with what is under way on it. -/
  | none : t.values i = s.values i → t.wire = s.wire ∨ (t.wire = [] ∧ t.serving = false) →
    Effect m period s a t i
  /-- A value finds the channel full. -/
  | dropped {v : Value} {vs : List (Option Value)} {pre post : List Value} : a = .run →
    s.client.loop = .handling i (some v :: vs) →
    ¬ (s.client.subs i).out.buf.length < (s.client.subs i).out.cap → t.wire = s.wire →
    s.values i = pre ++ v :: post → t.values i = pre ++ post → Effect m period s a t i
  /-- A frame is converted. -/
  | converted {k : Int} {data : List WireCandle} : a = .read (.candles k data) →
    s.client.bySID.lookup k = some (s.stream m period) → s.wire = data :: t.wire →
    t.values i = s.values i ++ data.filterMap (s.client.context.convert m period) →
    Effect m period s a t i

theorem values_after {c : MDClient} (h : (c.subs i).out.buf ++ c.handing i =
    (s.client.subs i).out.buf ++ s.client.handing i) : (s.after c).values i = s.values i :=
  congrArg (s.taken i ++ ·) h

theorem wire_after {c : MDClient} : (s.after c).wire = s.wire ∨
    ((s.after c).wire = [] ∧ (s.after c).serving = false) := by
  cases hconnected : c.loop.connected with
  | true => exact .inl (if_pos hconnected)
  | false =>
    refine .inr ⟨if_neg (ne_true_of_eq_false hconnected), ?_⟩
    change (s.serving && c.loop.connected && !c.broken) = false
    rw [hconnected, Bool.and_false, Bool.false_and]

/-- A step that is about no frame and no channel but to drop a value. -/
theorem Step.effect_goesOn {c : MDClient} (hs : s.client.Step a c)
    (hsubscribe : ∀ i ctx feed, a ≠ .subscribe i ctx feed) (hreceive : ∀ i, a ≠ .receive i)
    (hread : ∀ f, a ≠ .read f) : Effect m period s a (s.after c) i := by
  rcases hs.2.values (i := i) hsubscribe hreceive hread with hsame | ⟨v, vs, rfl, hloop, hfull, hbuf, hrest⟩
  · exact .none (values_after hsame) wire_after
  · have hwire : (s.after c).wire = s.wire := by
      refine if_pos ?_
      cases hs.2 with
      | begins h | done h | undialed h | asks h | unasked h | handled h | unread h | stops h
      | pauses h | retries h | givesUp h => cases hloop.symm.trans h
      | outOfRange h => cases hloop.symm.trans h
      | sendsOnClosed h _ => exact h ▸ rfl
      | sends _ _ => rfl
    have hbefore : s.values i = (s.taken i ++ (s.client.subs i).out.buf) ++ v :: vs.filterMap id := by
      rw [values, MDClient.handing_self hloop, List.filterMap_cons_some (by rfl : id (some v) = some v),
        List.append_assoc]
    refine .dropped rfl hloop hfull hwire hbefore ?_
    · change s.taken i ++ ((c.subs i).out.buf ++ c.handing i) = _
      rw [hbuf, hrest, List.append_assoc]

/-- A frame of the stream is handed to the handler of a subscription to it. -/
theorem Step.effect_readsBars {c : MDClient} {k : Int} {data : List WireCandle}
    {rest : List (List WireCandle)} (h : s.client.Sane) (hi : s.client.Held i)
    (hfeed : (s.client.subs i).feed = .candles m period) (hwire : s.wire = data :: rest)
    (hk : s.client.bySID.lookup k = some (s.stream m period))
    (hs : s.client.Step (.read (.candles k data)) c) :
    Effect m period s (.read (.candles k data)) { s.after c with wire := rest } i := by
  refine .converted rfl hk hwire ?_
  cases hs.2 with
  | reads hloop =>
    have hhandler : s.client.handlerOf (s.stream m period) = some i := by
      have hown := h.owned.handler i hi
      rwa [MDClient.streamOf, hfeed] at hown
    have hdispatch : s.client.dispatch (.candles k data) = s.client.setLoop
        (.handling i ((s.client.subs i).feed.values s.client.context (.candles k data))) := by
      refine MDClient.hand_of_handler ?_
      change (s.client.bySID.lookup k).bind s.client.handlerOf = some i
      rw [hk, Option.bind_some, hhandler]
    have hidle : s.client.handing i = [] := MDClient.handing_reading hloop
    change s.taken i ++ (((s.client.dispatch (.candles k data)).subs i).out.buf ++
      (s.client.dispatch (.candles k data)).handing i) = _
    have hhanding : (s.client.setLoop (.handling i ((s.client.subs i).feed.values s.client.context
        (.candles k data)))).handing i = data.filterMap (s.client.context.convert m period) := by
      rw [MDClient.handing_self rfl, hfeed, values_candles]
    rw [hdispatch, hhanding, values, hidle, List.append_nil, List.append_assoc]
    rfl

/-- Another frame brings no value of the stream. -/
theorem Step.effect_readsOther {c : MDClient} {f : MDFrame} (h : s.client.Sane) (hi : s.client.Held i)
    (hfeed : (s.client.subs i).feed = .candles m period)
    (hother : ∀ k data, f = .candles k data → s.client.bySID.lookup k ≠ some (s.stream m period))
    (hs : s.client.Step (.read f) c) : Effect m period s (.read f) (s.after c) i := by
  refine .none (values_after ?_) wire_after
  cases hs.2 with
  | reads hloop =>
    have hidle : s.client.handing i = [] := MDClient.handing_eq_nil (hloop ▸ nofun)
    have hstill : (s.client.dispatch f).handing i = [] := by
      unfold MDClient.handing
      split
      · next j vs hhandling =>
        obtain ⟨x, hx, hhandler, rfl⟩ := MDClient.dispatch_handling hloop hhandling
        by_cases hji : j = i
        · subst hji
          have hown : s.stream m period = x := by
            have howner := (h.owned.owner _ (MDClient.mem_handlers hhandler)).2
            rwa [MDClient.streamOf, hfeed] at howner
          have hno : ∀ k data, f ≠ .candles k data := by
            rintro k data rfl
            exact hother k data rfl (hx.trans (congrArg some hown.symm))
          rw [hfeed, values_of_ne_candles hno]
          exact if_pos rfl
        · exact if_neg hji
      · rfl
    obtain ⟨bySID, head, loop, heq, -⟩ := s.client.dispatch_eq f
    rw [hidle, hstill, heq]

/-- A consumer takes the first of the buffered values. -/
theorem Step.effect_receives {c : MDClient} {j : Nat} {v : Value} {rest : List Value}
    (hs : s.client.Step (.receive j) c) (hbuf : (s.client.subs j).out.buf = v :: rest) :
    Effect m period s (.receive j)
      { s.after c with taken := Function.update s.taken j (s.taken j ++ [v]) } i := by
  refine .none ?_ wire_after
  cases hs.2 with
  | @received _ v' rest' hbuf' =>
    obtain ⟨rfl, rfl⟩ := List.cons.inj (hbuf.symm.trans hbuf')
    change Function.update s.taken j (s.taken j ++ [v]) i ++
      (((s.client.setOut j _).subs i).out.buf ++ (s.client.setOut j _).handing i) = s.values i
    have hhanding : (s.client.setOut j { (s.client.subs j).out with buf := rest }).handing i =
        s.client.handing i := MDClient.handing_congr rfl
    rw [hhanding, values]
    by_cases hij : i = j
    · subst hij
      rw [Function.update_self, MDClient.setOut, MDClient.setSub_self, hbuf, List.append_assoc]
      rfl
    · rw [Function.update_of_ne hij, MDClient.setOut, MDClient.setSub_of_ne hij]

/-- A call of a streaming method leaves the other subscriptions, and none of its own values is under
way when its handler is registered. -/
theorem Step.effect_subscribes {c : MDClient} {j ctx : Nat} {feed : Feed} (h : s.client.Sane)
    (hs : s.client.Step (.subscribe j ctx feed) c) (hheld : c.Held i) :
    (s.client.Held i ∧ i ≠ j ∧ (c.subs i).out.buf ++ c.handing i =
      (s.client.subs i).out.buf ++ s.client.handing i) ∨
    (i = j ∧ (c.subs i).feed = feed ∧ (c.subs i).out.buf ++ c.handing i = [] ∧
      s.client.handlerOf (feed.stream s.client.chainID) = none) := by
  have hrefused : (s.client.subs j).stage = .idle →
      c = s.client.setSub j ⟨.refused, ctx, feed, (s.client.subs j).out⟩ →
      s.client.Held i ∧ i ≠ j ∧ (c.subs i).out.buf ++ c.handing i =
        (s.client.subs i).out.buf ++ s.client.handing i := by
    rintro hidle rfl
    have hij : i ≠ j := by
      rintro rfl
      rw [MDClient.Held, MDClient.setSub_self] at hheld
      simp at hheld
    have hhanding : (s.client.setSub j ⟨.refused, ctx, feed, (s.client.subs j).out⟩).handing i =
        s.client.handing i := MDClient.handing_congr rfl
    rw [MDClient.Held, MDClient.setSub_of_ne hij] at hheld
    rw [hhanding, MDClient.setSub_of_ne hij]
    exact ⟨hheld, hij, rfl⟩
  cases hs.2 with
  | subscribed hidle _ hnone =>
    rw [h.register_handing]
    by_cases hij : i = j
    · subst hij
      have hfree : ¬ s.client.Held i := fun hold => (hold.ne hidle) rfl
      rw [MDClient.register_self, h.handing_of_not_held hfree]
      exact .inr ⟨rfl, rfl, rfl, hnone⟩
    · obtain ⟨hold, hsubs⟩ := MDClient.register_held hheld hij
      rw [hsubs]
      exact .inl ⟨hold, hij, rfl⟩
  | unsupported hidle _ => exact .inl (hrefused hidle rfl)
  | duplicate hidle _ _ => exact .inl (hrefused hidle rfl)

/-- A subscription to the stream went on, or begins while the venue does not serve the stream. -/
theorem Step.client_effect (h : s.Ordered m period) (hs : s.Step m period (.client a) t)
    (hheld : t.client.Held i) (hfeed : (t.client.subs i).feed = .candles m period) :
    (s.client.Held i ∧ (t.client.subs i).ctx = (s.client.subs i).ctx ∧
      (s.client.subs i).feed = .candles m period ∧ t.since i = s.since i ∧ Effect m period s a t i) ∨
    (t.values i = [] ∧ t.since i = s.bars.length - 1 ∧ s.serving = false ∧
      (t.wire = s.wire ∨ t.wire = [])) := by
  cases hs with
  | @subscribes j ctx feed c hc =>
    rcases effect_subscribes h.sane hc hheld with ⟨hold, hij, hsame⟩ | ⟨rfl, hsub, hnil, hnone⟩
    · have hkeep := hc.2.of_held (i := i) (fun ctx' feed' heq => hij (MDAction.subscribe.inj heq).1.symm)
        hheld
      refine .inl ⟨hold, hkeep.2.1, hkeep.2.2 ▸ hfeed, Function.update_of_ne hij _ _, ?_⟩
      refine .none ?_ wire_after
      change Function.update s.taken j [] i ++ ((c.subs i).out.buf ++ c.handing i) = s.values i
      rw [Function.update_of_ne hij, hsame]
      rfl
    · refine .inr ⟨?_, Function.update_self _ _ _, ?_, wire_after.imp_right And.left⟩
      · change Function.update s.taken i [] i ++ ((c.subs i).out.buf ++ c.handing i) = []
        rw [Function.update_self, hnil]
        rfl
      · have hstream : s.stream m period = feed.stream s.client.chainID := by
          rw [stream, ← hfeed]
          exact congrArg (Feed.stream s.client.chainID) hsub
        by_contra hserving
        exact h.served (eq_true_of_ne_false hserving) (hstream ▸ hnone)
  | @receives j v rest c hc hbuf =>
    obtain ⟨hold, hctx, hsame⟩ := hc.2.of_held (fun _ _ => nofun) hheld
    exact .inl ⟨hold, hctx, hsame ▸ hfeed, rfl, effect_receives hc hbuf⟩
  | @readsBars k data rest c hwire hk hc =>
    obtain ⟨hold, hctx, hsame⟩ := hc.2.of_held (fun _ _ => nofun) hheld
    exact .inl ⟨hold, hctx, hsame ▸ hfeed, rfl,
      effect_readsBars h.sane hold (hsame ▸ hfeed) hwire hk hc⟩
  | @readsOther f c hother hc =>
    obtain ⟨hold, hctx, hsame⟩ := hc.2.of_held (fun _ _ => nofun) hheld
    exact .inl ⟨hold, hctx, hsame ▸ hfeed, rfl,
      effect_readsOther h.sane hold (hsame ▸ hfeed) hother hc⟩
  | goesOn hc hsubscribe hreceive hread =>
    obtain ⟨hold, hctx, hsame⟩ := hc.2.of_held (hsubscribe i) hheld
    exact .inl ⟨hold, hctx, hsame ▸ hfeed, rfl, effect_goesOn hc hsubscribe hreceive hread⟩

/-- The client changes no bar, and adds nothing to what the venue has sent. -/
theorem Step.client_frame (hs : s.Step m period (.client a) t) : s.client.Step a t.client ∧
    t.bars = s.bars ∧ (t.serving = true → s.serving = true) ∧
    ∀ w ∈ t.wire.flatten, w ∈ s.wire.flatten := by
  have hserving : ∀ c, (s.after c).serving = true → s.serving = true := fun c h =>
    (Bool.and_eq_true_iff.mp (Bool.and_eq_true_iff.mp h).1).1
  have hwire : ∀ c, ∀ w ∈ (s.after c).wire.flatten, w ∈ s.wire.flatten := by
    intro c w hw
    rcases s.wire_after (c := c) with hsame | ⟨hnil, -⟩
    · exact hsame ▸ hw
    · rw [hnil] at hw
      cases hw
  cases hs with
  | subscribes hc => exact ⟨hc, rfl, hserving _, hwire _⟩
  | receives hc _ => exact ⟨hc, rfl, hserving _, hwire _⟩
  | readsOther _ hc => exact ⟨hc, rfl, hserving _, hwire _⟩
  | goesOn hc _ _ _ => exact ⟨hc, rfl, hserving _, hwire _⟩
  | readsBars hdata _ hc =>
    refine ⟨hc, rfl, hserving _, fun w hw => ?_⟩
    rw [hdata, List.flatten_cons]
    exact List.mem_append_right _ hw

/-- No bar is later than the forming one. -/
theorem Ordered.le_last (h : s.Ordered m period) {w b : WireCandle} (hw : w ∈ s.bars)
    (hb : b ∈ s.bars.getLast?) : ¬ b.time < w.time := by
  obtain ⟨old, heq⟩ := List.getLast?_eq_some_iff.mp hb
  rw [heq] at hw
  have hsorted := h.sorted
  rw [heq, List.pairwise_append] at hsorted
  rw [Int64.not_lt]
  rcases List.mem_append.mp hw with hold | hlast
  · exact Int64.le_of_lt (hsorted.2.2 w hold b (List.mem_singleton_self _))
  · rw [List.mem_singleton.mp hlast]
    exact Int64.le_refl _

theorem Ordered.client (h : s.Ordered m period) (hs : s.Step m period (.client a) t) :
    t.Ordered m period := by
  obtain ⟨hc, hbars, hserving, hwire⟩ := hs.client_frame
  have hforming : 0 < s.bars.length := List.length_pos_iff.mpr h.forming
  refine ⟨h.sane.step hc, hbars ▸ h.sorted, hbars ▸ h.forming, fun hserved => ?_,
    fun i hi hfeed => ?_, fun w hw b hb => ?_, fun i hi hfeed v hv b hb => ?_⟩
  · obtain ⟨hstay, hchain⟩ := hc.2.handlerOf_ne_none (h.served (hserving hserved))
    rwa [stream, hchain]
  · rw [hbars]
    rcases hs.client_effect h hi hfeed with ⟨hold, -, hfeed', hsince, -⟩ | ⟨-, hsince, -, -⟩
    · exact hsince ▸ h.since i hold hfeed'
    · omega
  · exact h.wire w (hwire w hw) b (hbars ▸ hb)
  · rw [hbars] at hb
    rcases hs.client_effect h hi hfeed with ⟨hold, -, hfeed', -, heffect⟩ | ⟨hnil, -, -, -⟩
    · have hpast := h.past i hold hfeed'
      cases heffect with
      | none hvalues _ => exact hpast v (hvalues ▸ hv) b hb
      | dropped _ _ _ _ hbefore hafter =>
        rw [hafter] at hv
        refine hpast v ?_ b hb
        rw [hbefore, List.mem_append, List.mem_cons]
        exact (List.mem_append.mp hv).imp_right .inr
      | converted _ _ hdata hvalues =>
        rw [hvalues] at hv
        rcases List.mem_append.mp hv with hv | hv
        · exact hpast v hv b hb
        · obtain ⟨w, hw, hconvert⟩ := List.mem_filterMap.mp hv
          refine fun hlater => h.wire w ?_ b hb (later_of_convert hconvert hlater)
          rw [hdata, List.flatten_cons]
          exact List.mem_append_left _ hw
    · rw [hnil] at hv
      cases hv

/-- The venue has sent a version of its last bar. -/
theorem mem_push {w x : WireCandle} (h : x ∈ (s.push w).wire.flatten) :
    x ∈ s.wire.flatten ∨ x = w := by
  change x ∈ (if s.serving then s.wire ++ [[w]] else s.wire).flatten at h
  split at h
  · rw [List.flatten_append, List.flatten_singleton] at h
    exact (List.mem_append.mp h).imp_right List.mem_singleton.mp
  · exact .inl h

/-- The venue's bars go on, with nothing later under way than the last of them. -/
theorem Ordered.venue {bars : List WireCandle} {w : WireCandle} (h : s.Ordered m period)
    (hsorted : bars.Pairwise fun b w => b.time < w.time) (hlast : bars.getLast? = some w)
    (hlength : s.bars.length ≤ bars.length)
    (hle : ∀ b ∈ s.bars.getLast?, b.time = w.time ∨ b.time < w.time) :
    Ordered m period ({ s with bars }.push w) := by
  have hforming : bars ≠ [] := by
    rintro rfl
    cases hlast
  obtain ⟨b, hb⟩ := Option.ne_none_iff_exists'.mp (mt List.getLast?_eq_none_iff.mp h.forming)
  have hbw : ∀ x : Int64, ¬ b.time < x → ¬ w.time < x := by
    intro x hx hlt
    rcases hle b hb with heq | hless
    · exact hx (heq ▸ hlt)
    · exact hx (Int64.lt_trans hless hlt)
  refine ⟨h.sane, hsorted, hforming, h.served,
    fun i hi hfeed => Nat.lt_of_lt_of_le (h.since i hi hfeed) hlength, fun x hx y hy => ?_,
    fun i hi hfeed v hv y hy hlater => ?_⟩
  · obtain rfl := Option.some.inj (hlast.symm.trans hy)
    rcases mem_push hx with hold | rfl
    · exact hbw _ (h.wire x hold b hb)
    · exact Int64.lt_irrefl
  · obtain rfl := Option.some.inj (hlast.symm.trans hy)
    refine h.past i hi hfeed v hv b hb ?_
    rcases hle b hb with heq | hless
    · obtain ⟨candle, u, hcandle, hopen, hlt⟩ := hlater
      exact ⟨candle, u, hcandle, hopen, heq ▸ hlt⟩
    · exact hlater.trans hless

theorem Ordered.step {a : BarAction} (h : s.Ordered m period) (hs : s.Step m period a t) :
    t.Ordered m period := by
  cases a with
  | client a => exact h.client hs
  | serve reach =>
    cases hs with
    | serves hasked _ _ _ =>
      refine ⟨h.sane, h.sorted, h.forming, fun _ => h.sane.requested.asked _ hasked, h.since,
        fun w hw b hb => ?_, h.past⟩
      rw [List.flatten_append, List.flatten_singleton] at hw
      rcases List.mem_append.mp hw with hold | hnew
      · exact h.wire w hold b hb
      · exact h.le_last (List.mem_of_mem_drop hnew) hb
  | tick w =>
    cases hs with
    | @ticks old b _ hbars htime =>
      have hsorted := h.sorted
      rw [hbars, List.pairwise_append] at hsorted
      refine h.venue ?_ List.getLast?_concat ?_ fun x hx => ?_
      · rw [List.pairwise_append]
        refine ⟨hsorted.1, List.pairwise_singleton _ _, fun x hx y hy => ?_⟩
        rw [List.mem_singleton.mp hy, htime]
        exact hsorted.2.2 x hx b (List.mem_singleton_self _)
      · rw [hbars, List.length_append, List.length_append]
        exact Nat.le_refl _
      · rw [hbars, List.getLast?_concat] at hx
        obtain rfl := Option.some.inj hx
        exact .inl htime.symm
  | roll w =>
    cases hs with
    | @rolls old b _ hbars htime =>
      have hlast : b ∈ s.bars.getLast? := hbars ▸ List.getLast?_concat
      refine h.venue ?_ List.getLast?_concat ?_ fun x hx => ?_
      · rw [List.pairwise_append]
        refine ⟨h.sorted, List.pairwise_singleton _ _, fun x hx y hy => ?_⟩
        rw [List.mem_singleton.mp hy]
        exact Int64.lt_of_le_of_lt (Int64.not_lt.mp (h.le_last hx hlast)) htime
      · rw [List.length_append]
        exact Nat.le_add_right _ _
      · obtain rfl := Option.some.inj (hlast.symm.trans hx)
        exact .inr htime

/-! ## Bars that arrive -/

/-- What is on its way to a live subscription has no gap, and where the venue serves the stream no bar
is missing from it. -/
def Complete (m : Market) (period : Duration) (s : BarFeed) : Prop :=
  ∀ i, s.Follows m period i →
    Gapless (Item.Shows m period) Item.Later (s.Owed i) (fun _ => False) (s.pipeline i) ∧
      (s.serving = true → ∀ b, s.Tracked i b → ∃ x ∈ s.pipeline i, x.Shows m period b)

theorem Owed.tracked {b : WireCandle} (h : s.Owed i b) : s.Tracked i b := by
  obtain ⟨j, hj, -, hb⟩ := h
  exact ⟨j, hj, hb⟩

theorem owed_congr (hsince : t.since i = s.since i) (hbars : t.bars = s.bars) :
    t.Owed i = s.Owed i := by
  funext b
  rw [Owed, Owed, hsince, hbars]

theorem tracked_congr (hsince : t.since i = s.since i) (hbars : t.bars = s.bars) :
    t.Tracked i = s.Tracked i := by
  funext b
  rw [Tracked, Tracked, hsince, hbars]

/-- The frame's bars show as values what they showed as bars. -/
theorem shows_converted {c : Context} {data : List WireCandle} {b : WireCandle}
    (hb : b ∈ data → ∃ candle, c.toVenueCandle m period b = some (.ok candle))
    (h : ∃ x ∈ data.map Item.bar, x.Shows m period b) :
    ∃ x ∈ (data.filterMap (c.convert m period)).map Item.value, x.Shows m period b := by
  obtain ⟨x, hx, hshows⟩ := h
  obtain ⟨w, hw, rfl⟩ := List.mem_map.mp hx
  obtain rfl : w = b := hshows
  obtain ⟨candle, hcandle⟩ := hb hw
  have hconvert : c.convert m period w = some (.candle candle) := by
    unfold Context.convert
    rw [hcandle]
  exact ⟨.value (.candle candle), List.mem_map_of_mem (List.mem_filterMap.mpr ⟨w, hw, hconvert⟩),
    c, candle, hcandle, rfl⟩

/-- The frame's bars leave no gap when they are converted. -/
theorem gapless_converted {c : Context} {data : List WireCandle} {owed seen : WireCandle → Prop}
    (h : Gapless (Item.Shows m period) Item.Later owed seen (data.map Item.bar))
    (hconverts : ∀ w ∈ data, owed w → ∃ candle, c.toVenueCandle m period w = some (.ok candle)) :
    Gapless (Item.Shows m period) Item.Later owed seen
      ((data.filterMap (c.convert m period)).map Item.value) := by
  have hitems : (data.filterMap (c.convert m period)).map Item.value =
      (data.map Item.bar).filterMap fun
        | .bar w => (c.convert m period w).map .value
        | .value v => some (.value v) := by
    rw [List.filterMap_map, List.map_filterMap]
    rfl
  rw [hitems]
  refine h.filterMap (fun x hx y hy => ?_) fun x hx hnone b hb hshows => ?_
  · obtain ⟨w, -, rfl⟩ := List.mem_map.mp hx
    obtain ⟨v, hv, rfl⟩ := Option.map_eq_some_iff.mp hy
    refine ⟨fun b _ hshows => ?_, fun b _ hlater => later_of_convert hv hlater⟩
    obtain rfl : w = b := hshows
    exact shows_of_convert hv
  · obtain ⟨w, hw, rfl⟩ := List.mem_map.mp hx
    obtain rfl : w = b := hshows
    obtain ⟨candle, hcandle⟩ := hconverts w hw hb
    have hsome : c.convert m period w = some (.candle candle) := by
      unfold Context.convert
      rw [hcandle]
    dsimp only at hnone
    rw [hsome] at hnone
    cases hnone

/-- A value that shows no bar of the subscription is dropped without a gap. -/
theorem complete_dropped {v : Value} {pre post : List Value} {wire : List Item}
    {owed tracked : WireCandle → Prop} (howed : ∀ b, owed b → tracked b)
    (hv : ∀ b, tracked b → ¬ v.Shows m period b)
    (h : Gapless (Item.Shows m period) Item.Later owed (fun _ => False)
      ((pre ++ v :: post).map .value ++ wire)) :
    Gapless (Item.Shows m period) Item.Later owed (fun _ => False) ((pre ++ post).map .value ++ wire) ∧
      ∀ b, tracked b → (∃ x ∈ (pre ++ v :: post).map .value ++ wire, x.Shows m period b) →
        ∃ x ∈ (pre ++ post).map .value ++ wire, x.Shows m period b := by
  have hsplit : (pre ++ v :: post).map Item.value ++ wire =
      pre.map .value ++ .value v :: (post.map .value ++ wire) := by
    rw [List.map_append, List.map_cons, List.append_assoc, List.cons_append]
  rw [hsplit] at h ⊢
  rw [List.map_append, List.append_assoc]
  refine ⟨h.leave fun b hb => hv b (howed b hb), fun b hb => ?_⟩
  rintro ⟨x, hx, hshows⟩
  refine ⟨x, ?_, hshows⟩
  rcases List.mem_append.mp hx with hpre | hrest
  · exact List.mem_append_left _ hpre
  · rcases List.mem_cons.mp hrest with rfl | hpost
    · exact absurd hshows (hv b hb)
    · exact List.mem_append_right _ hpost

/-- A frame whose bars of the subscription can be converted is converted without a gap. -/
theorem complete_converted {c : Context} {data : List WireCandle} {before : List Value}
    {rest : List Item} {owed tracked : WireCandle → Prop} (howed : ∀ b, owed b → tracked b)
    (hconverts : ∀ w ∈ data, tracked w → ∃ candle, c.toVenueCandle m period w = some (.ok candle))
    (h : Gapless (Item.Shows m period) Item.Later owed (fun _ => False)
      (before.map .value ++ (data.map .bar ++ rest))) :
    Gapless (Item.Shows m period) Item.Later owed (fun _ => False)
        ((before ++ data.filterMap (c.convert m period)).map .value ++ rest) ∧
      ∀ b, tracked b → (∃ x ∈ before.map .value ++ (data.map .bar ++ rest), x.Shows m period b) →
        ∃ x ∈ (before ++ data.filterMap (c.convert m period)).map .value ++ rest,
          x.Shows m period b := by
  rw [List.map_append, List.append_assoc]
  have hshown : ∀ b, tracked b → (∃ x ∈ data.map Item.bar, x.Shows m period b) →
      ∃ x ∈ (data.filterMap (c.convert m period)).map Item.value, x.Shows m period b :=
    fun b hb => shows_converted fun hmem => hconverts b hmem hb
  obtain ⟨hbefore, hdata⟩ := gapless_append.mp h
  obtain ⟨hdata, hrest⟩ := gapless_append.mp hdata
  refine ⟨gapless_append.mpr ⟨hbefore, gapless_append.mpr ⟨?_, ?_⟩⟩, fun b hb => ?_⟩
  · exact gapless_converted hdata fun w hw hb => hconverts w hw (howed w hb)
  · exact hrest.mono fun b hb => Or.imp_right (hshown b (howed b hb))
  · rintro ⟨x, hx, hshows⟩
    rcases List.mem_append.mp hx with hx | hx
    · exact ⟨x, List.mem_append_left _ hx, hshows⟩
    · rcases List.mem_append.mp hx with hx | hx
      · obtain ⟨y, hy, hyshows⟩ := hshown b hb ⟨x, hx, hshows⟩
        exact ⟨y, List.mem_append_right _ (List.mem_append_left _ hy), hyshows⟩
      · exact ⟨x, List.mem_append_right _ (List.mem_append_right _ hx), hshows⟩

theorem Complete.client (h : s.Complete m period) (ho : s.Ordered m period)
    (hok : s.Kept m period (.client a)) (hs : s.Step m period (.client a) t) : t.Complete m period := by
  rintro i ⟨⟨hheld, hopen⟩, hfeed⟩
  obtain ⟨hc, hbars, hserving, -⟩ := hs.client_frame
  rcases hs.client_effect ho hheld hfeed with
    ⟨hold, hctx, hfeed', hsince, heffect⟩ | ⟨hnil, hsince, hunserved, -⟩
  · have hlive : s.client.done (s.client.subs i).ctx = false := by
      by_contra hnot
      have hdone := hc.2.done_mono (eq_true_of_ne_false hnot)
      rw [← hctx] at hdone
      cases hopen.symm.trans hdone
    obtain ⟨hgap, hshown⟩ := h i ⟨⟨hold, hlive⟩, hfeed'⟩
    rw [owed_congr hsince hbars, tracked_congr hsince hbars]
    cases heffect with
    | none hvalues hwire =>
      rcases hwire with hsame | ⟨hnil, hunserved⟩
      · rw [pipeline, hvalues, hsame]
        exact ⟨hgap, fun hserved => hshown (hserving hserved)⟩
      · rw [pipeline, hvalues, hnil, List.flatten_nil, List.map_nil, List.append_nil]
        refine ⟨(gapless_append.mp hgap).1, fun hserved => ?_⟩
        cases hunserved.symm.trans hserved
    | dropped ha hloop hfull hwire hbefore hafter =>
      subst ha
      have hlast := (hok i _ _ ⟨⟨hold, hlive⟩, hfeed'⟩ hloop).resolve_left hfull
      rw [pipeline, hbefore] at hgap hshown
      rw [pipeline, hafter, hwire]
      obtain ⟨hgap', hstill⟩ := complete_dropped (fun b => Owed.tracked) hlast hgap
      exact ⟨hgap', fun hserved b hb => hstill b hb (hshown (hserving hserved) b hb)⟩
    | converted ha hk hdata hvalues =>
      subst ha
      have hconverts := hok hk i ⟨⟨hold, hlive⟩, hfeed'⟩
      rw [pipeline, hdata, List.flatten_cons, List.map_append] at hgap hshown
      rw [pipeline, hvalues]
      obtain ⟨hgap', hstill⟩ := complete_converted (fun b => Owed.tracked) hconverts hgap
      exact ⟨hgap', fun hserved b hb => hstill b hb (hshown (hserving hserved) b hb)⟩
  · refine ⟨gapless_of_not_owed ?_, fun hserved => ?_⟩
    · rintro b ⟨j, hj, hlast, -⟩
      rw [hsince] at hj
      rw [hbars] at hlast
      omega
    · cases hunserved.symm.trans (hserving hserved)

/-- A snapshot has no gap when it reaches back to whatever was not seen. -/
theorem gapless_snapshot {ws : List WireCandle} {owed seen : WireCandle → Prop}
    (hsorted : ws.Pairwise fun b w => b.time < w.time) (hreach : ∀ b, owed b → seen b ∨ b ∈ ws) :
    Gapless (Item.Shows m period) Item.Later owed seen (ws.map .bar) := by
  induction ws generalizing seen with
  | nil => trivial
  | cons w ws ih =>
    obtain ⟨hhead, htail⟩ := List.pairwise_cons.mp hsorted
    refine ⟨fun b hb hlater => ?_, ih htail fun b hb => ?_⟩
    · refine (hreach b hb).resolve_right fun hmem => ?_
      have hlt : b.time < w.time := hlater
      rcases List.mem_cons.mp hmem with rfl | hmem
      · exact Int64.lt_irrefl hlt
      · exact Int64.lt_irrefl (Int64.lt_trans hlt (hhead b hmem))
    · rcases hreach b hb with hseen | hmem
      · exact .inl (.inl hseen)
      · rcases List.mem_cons.mp hmem with rfl | hmem
        · exact .inl (.inr rfl)
        · exact .inr hmem

theorem Complete.serve {reach : Nat} (h : s.Complete m period) (ho : s.Ordered m period)
    (hok : s.Kept m period (.serve reach)) :
    Complete m period { s with serving := true, wire := s.wire ++ [s.bars.drop reach] } := by
  intro i hi
  obtain ⟨hgap, -⟩ := h i hi
  have hreach := hok i hi
  have hpipeline : pipeline { s with serving := true, wire := s.wire ++ [s.bars.drop reach] } i =
      s.pipeline i ++ (s.bars.drop reach).map .bar := by
    change (s.values i).map Item.value ++ (s.wire ++ [s.bars.drop reach]).flatten.map Item.bar = _
    rw [List.flatten_append, List.flatten_singleton, List.map_append, ← List.append_assoc]
    rfl
  rw [hpipeline]
  refine ⟨gapless_append.mpr ⟨hgap, gapless_snapshot (ho.sorted.sublist (List.drop_sublist _ _)) ?_⟩,
    fun _ b hb => ?_⟩
  · exact fun b hb => (hreach b hb.tracked).imp_left .inr
  · rcases hreach b hb with ⟨x, hx, hshows⟩ | hmem
    · exact ⟨x, List.mem_append_left _ hx, hshows⟩
    · exact ⟨.bar b, List.mem_append_right _ (List.mem_map_of_mem hmem), rfl⟩

/-- The venue's bars go on by a version of the last of them. -/
theorem Complete.venue {bars : List WireCandle} {w : WireCandle} (h : s.Complete m period)
    (ho : s.Ordered m period)
    (howed : ∀ i, s.Follows m period i → ∀ b, Owed { s with bars } i b →
      s.Tracked i b ∧ (s.Owed i b ∨ b ∈ s.bars.getLast?))
    (htracked : ∀ i b, Tracked { s with bars } i b → s.Tracked i b ∨ b = w) :
    Complete m period ({ s with bars }.push w) := by
  intro i hi
  obtain ⟨hgap, hshown⟩ := h i hi
  have howe : Gapless (Item.Shows m period) Item.Later (Owed { s with bars } i) (fun _ => False)
      (s.pipeline i) := by
    refine hgap.owe fun b hb => (howed i hi b hb).2.imp_right fun hlast x hx => ?_
    rcases List.mem_append.mp hx with hvalue | hbar
    · obtain ⟨v, hv, rfl⟩ := List.mem_map.mp hvalue
      exact ho.past i hi.1.1 hi.2 v hv b hlast
    · obtain ⟨y, hy, rfl⟩ := List.mem_map.mp hbar
      exact ho.wire y hy b hlast
  by_cases hserving : s.serving = true
  · have hpipeline : ({ s with bars }.push w).pipeline i = s.pipeline i ++ [.bar w] := by
      have hwire : ({ s with bars }.push w).wire = s.wire ++ [[w]] := if_pos hserving
      rw [pipeline, hwire, List.flatten_append, List.flatten_singleton, List.map_append,
        ← List.append_assoc]
      rfl
    rw [hpipeline]
    refine ⟨howe.snoc fun b hb _ => .inr (hshown hserving b (howed i hi b hb).1), fun _ b hb => ?_⟩
    rcases htracked i b hb with hold | rfl
    · obtain ⟨x, hx, hshows⟩ := hshown hserving b hold
      exact ⟨x, List.mem_append_left _ hx, hshows⟩
    · exact ⟨.bar b, List.mem_append_right _ (List.mem_singleton_self _), rfl⟩
  · have hpipeline : ({ s with bars }.push w).pipeline i = s.pipeline i := by
      have hwire : ({ s with bars }.push w).wire = s.wire := if_neg hserving
      rw [pipeline, hwire]
      rfl
    rw [hpipeline]
    exact ⟨howe, fun hserved => absurd hserved hserving⟩

theorem Complete.step {a : BarAction} (h : s.Complete m period) (ho : s.Ordered m period)
    (hok : s.Kept m period a) (hs : s.Step m period a t) : t.Complete m period := by
  cases a with
  | client a => exact h.client ho hok hs
  | serve reach =>
    cases hs with
    | serves _ _ _ _ => exact h.serve ho hok
  | tick w =>
    cases hs with
    | @ticks old b _ hbars htime =>
      have hget : ∀ j, j < old.length → (old ++ [w])[j]? = s.bars[j]? := by
        intro j hj
        rw [hbars, List.getElem?_append_left hj, List.getElem?_append_left hj]
      refine h.venue ho (fun i _ x hx => ?_) fun i x hx => ?_
      · obtain ⟨j, hj, hlast, hx⟩ := hx
        have hlt : j < old.length := by
          rw [List.length_append, List.length_singleton] at hlast
          omega
        rw [hget j hlt] at hx
        refine ⟨⟨j, hj, hx⟩, .inl ⟨j, hj, ?_, hx⟩⟩
        rw [hbars, List.length_append, List.length_singleton]
        omega
      · obtain ⟨j, hj, hx⟩ := hx
        by_cases hlt : j < old.length
        · exact .inl ⟨j, hj, hget j hlt ▸ hx⟩
        · have hmem := List.mem_of_getElem? hx
          rw [List.getElem?_append_right (Nat.le_of_not_lt hlt), List.getElem?_singleton] at hx
          split at hx
          · exact .inr (Option.some.inj hx).symm
          · cases hx
  | roll w =>
    cases hs with
    | @rolls old b _ hbars htime =>
      have hget : ∀ j, j < s.bars.length → (s.bars ++ [w])[j]? = s.bars[j]? :=
        fun j hj => List.getElem?_append_left hj
      refine h.venue ho (fun i _ x hx => ?_) fun i x hx => ?_
      · obtain ⟨j, hj, hlast, hx⟩ := hx
        rw [List.length_append, List.length_singleton] at hlast
        rw [hget j (by omega)] at hx
        refine ⟨⟨j, hj, hx⟩, ?_⟩
        by_cases hlt : j + 1 < s.bars.length
        · exact .inl ⟨j, hj, hlt, hx⟩
        · have hj' : j = s.bars.length - 1 := by omega
          rw [hj', ← List.getLast?_eq_getElem?] at hx
          exact .inr hx
      · obtain ⟨j, hj, hx⟩ := hx
        by_cases hlt : j < s.bars.length
        · exact .inl ⟨j, hj, hget j hlt ▸ hx⟩
        · rw [List.getElem?_append_right (Nat.le_of_not_lt hlt), List.getElem?_singleton] at hx
          split at hx
          · exact .inr (Option.some.inj hx).symm
          · cases hx

/-! ## Runs of one bar -/

theorem values_one {c : Context} {k : Int} {w : WireCandle} {candle : Candle}
    (h : c.toVenueCandle m period w = some (.ok candle)) :
    (Feed.candles m period).values c (.candles k [w]) = [some (.candle candle)] := by
  rw [Feed.values, List.filterMap_cons, h]
  rfl

/-- A bar is read, sent and received. -/
theorem delivers {k : Int} {w : WireCandle} {rest : List (List WireCandle)} {candle : Candle}
    {out : Chan Value} (hpanic : s.client.panic = none) (hloop : s.client.loop = .reading)
    (hserving : s.serving = true) (hbroken : s.client.broken = false) (hwire : s.wire = [w] :: rest)
    (hk : s.client.bySID.lookup k = some (s.stream m period))
    (hhandler : s.client.handlerOf (s.stream m period) = some i)
    (hfeed : (s.client.subs i).feed = .candles m period) (hout : (s.client.subs i).out = out)
    (hopen : out.closed = false) (hbuf : out.buf = []) (hroom : 0 < out.cap)
    (hcandle : s.client.context.toVenueCandle m period w = some (.ok candle)) :
    ∃ as, Run (Step m period) (Kept m period) s as
      { s with wire := rest, taken := Function.update s.taken i (s.taken i ++ [.candle candle]) } := by
  have hdispatch : s.client.dispatch (.candles k [w]) =
      s.client.setLoop (.handling i [some (.candle candle)]) := by
    have hfound : (s.client.bySID.lookup k).bind s.client.handlerOf = some i := by
      rw [hk, Option.bind_some, hhandler]
    refine (MDClient.hand_of_handler (f := .candles k [w]) hfound).trans ?_
    rw [hfeed, values_one hcandle]
  have hsent : out.trySend (.candle candle) = some { out with buf := [.candle candle] } := by
    rw [Chan.trySend, hopen, if_neg Bool.false_ne_true, hbuf, List.length_nil, if_pos hroom,
      Chan.send_eq_some hopen, hbuf, hopen]
    rfl
  -- the client with the value to send, with the value buffered, and back at reading
  generalize hc₁ : s.client.setLoop (.handling i [some (.candle candle)]) = c₁ at hdispatch
  have hsubs₁ : c₁.subs = s.client.subs := hc₁ ▸ rfl
  have hpanic₁ : c₁.panic = none := hc₁ ▸ hpanic
  have hloop₁ : c₁.loop = .handling i [some (.candle candle)] := hc₁ ▸ rfl
  generalize hc₂ : (c₁.setOut i { out with buf := [.candle candle] }).setLoop (.handling i []) = c₂
  have hsubs₂ : c₂.subs i = { s.client.subs i with out := { out with buf := [.candle candle] } } := by
    rw [← hc₂, ← hsubs₁]
    exact MDClient.setSub_self
  have hother₂ : ∀ j ≠ i, c₂.subs j = s.client.subs j := fun j hj => by
    rw [← hc₂, ← hsubs₁]
    exact MDClient.setSub_of_ne hj
  have hclient : (c₂.setLoop .reading).setOut i { out with buf := [] } = s.client := by
    have hsubs : ((c₂.setLoop .reading).setOut i { out with buf := [] }).subs = s.client.subs := by
      funext j
      by_cases hj : j = i
      · subst hj
        rw [MDClient.setOut, MDClient.setSub_self]
        change ({ c₂.subs j with out := { out with buf := [] } } : Subscriber) = s.client.subs j
        rw [hsubs₂, ← hbuf, ← hout]
      · rw [MDClient.setOut, MDClient.setSub_of_ne hj]
        exact hother₂ j hj
    have heq : (c₂.setLoop .reading).setOut i { out with buf := [] } =
        { s.client with
          loop := .reading
          subs := ((c₂.setLoop .reading).setOut i { out with buf := [] }).subs } := by
      rw [← hc₂, ← hc₁]
      rfl
    rw [heq, hsubs, ← hloop]
  have hreads := Step.readsBars (m := m) (s := s) (k := k) hwire hk ⟨hpanic, .reads hloop⟩
  rw [hdispatch] at hreads
  generalize hu₁ : ({ s.after c₁ with wire := rest } : BarFeed) = u₁ at hreads
  have hclient₁ : u₁.client = c₁ := hu₁ ▸ rfl
  have hsends : u₁.Step m period (.client .run) (u₁.after c₂) := by
    refine .runs ⟨hclient₁ ▸ hpanic₁, ?_⟩
    rw [hclient₁, ← hc₂]
    refine .sends hloop₁ ?_
    rw [hsubs₁, hout]
    exact hsent
  have hloop₂ : c₂.loop = .handling i [] := hc₂ ▸ rfl
  have hpanic₂ : c₂.panic = none := hc₂ ▸ hpanic₁
  have hhandled : (u₁.after c₂).Step m period (.client .run)
      ((u₁.after c₂).after (c₂.setLoop .reading)) :=
    .runs ⟨hpanic₂, .handled hloop₂⟩
  generalize hu₃ : (u₁.after c₂).after (c₂.setLoop .reading) = u₃ at hhandled
  have hclient₃ : u₃.client = c₂.setLoop .reading := hu₃ ▸ rfl
  have hbuf₃ : (u₃.client.subs i).out = { out with buf := [.candle candle] } := by
    rw [hclient₃]
    exact congrArg Subscriber.out hsubs₂
  have hreceives : u₃.client.Step (.receive i) s.client := by
    have hmoves := MDClient.Moves.received (s := u₃.client) (i := i) (congrArg Chan.buf hbuf₃)
    rw [hbuf₃, hclient₃] at hmoves
    change MDClient.Moves _ _ ((c₂.setLoop .reading).setOut i { out with buf := [] }) at hmoves
    rw [hclient] at hmoves
    exact ⟨hclient₃ ▸ hpanic₂, hclient₃ ▸ hmoves⟩
  have hreceived : u₃.Step m period (.client (.receive i)) _ :=
    .receives hreceives (congrArg Chan.buf hbuf₃)
  have hfinal : ({ u₃.after s.client with
      taken := Function.update u₃.taken i (u₃.taken i ++ [.candle candle]) } : BarFeed) =
      { s with wire := rest, taken := Function.update s.taken i (s.taken i ++ [.candle candle]) } := by
    have hbroken₁ : c₁.broken = false := hc₁ ▸ hbroken
    have hbroken₂ : c₂.broken = false := hc₂ ▸ hbroken₁
    have hbroken₃ : (c₂.setLoop .reading).broken = false := hbroken₂
    rw [← hu₃, ← hu₁]
    simp only [after, hloop, hloop₁, hloop₂, hserving, hbroken, hbroken₁, hbroken₂, hbroken₃,
      Loop.connected, Bool.not_false, Bool.and_true, if_true]
    rfl
  rw [hfinal] at hreceived
  refine ⟨_, (((Run.nil.snoc ?_ hreads).snoc ?_ hsends).snoc ?_ hhandled).snoc (by trivial) hreceived⟩
  · exact fun _ _ _ x hx _ => List.mem_singleton.mp hx ▸ ⟨candle, hcandle⟩
  · intro j v vs _ hj
    rw [hclient₁] at hj ⊢
    obtain ⟨rfl, -⟩ := Loop.handling.inj (hloop₁.symm.trans hj)
    rw [hsubs₁, hout, hbuf]
    exact .inl hroom
  · intro j v vs _ hj
    cases hloop₂.symm.trans hj

open MDClient (aMarket aBar aContext minutes)

/-- A bar of this time as its consumer receives it. -/
def aCandle (time : Int64) : Candle :=
  ⟨msTime time, Duration.minute, 100000000, 100000000, 100000000, 100000000, 0, 0⟩

theorem toVenueCandle_aBar (time : Int64) :
    aContext.toVenueCandle (aMarket 1) Duration.minute (aBar time) = some (.ok (aCandle time)) := by
  have hprice : Fixed.fromScaled 10 1 = .ok 100000000 := by decide
  simp only [Context.toVenueCandle, aBar, aMarket, Context.scaled, hprice]
  rfl

theorem later_aCandle : (Value.candle (aCandle 180000)).Later (aBar 120000) := by
  refine ⟨aCandle 180000, unixMilli 180000, rfl, rfl, ?_⟩
  rw [unixMilli_lt]
  decide

/-- A run goes on with another. -/
theorem exists_trans {ok : BarFeed → BarAction → Prop} {s t u : BarFeed} {as : List BarAction}
    (h : Run (Step m period) ok s as t) (h' : ∃ bs, Run (Step m period) ok t bs u) :
    ∃ cs, Run (Step m period) ok s cs u := by
  obtain ⟨bs, hbs⟩ := h'
  exact ⟨_, h.trans hbs⟩

/-! ## No bar is lost -/

/-- A live subscription's consumer receives each bar that closed during the subscription in its final
version before any later bar. -/
theorem no_bar_lost {chainID : Int} {c : Context} {b₀ : WireCandle} {as : List BarAction}
    (h : Run (Step m period) (Kept m period) (start chainID c b₀) as s) (hi : s.Follows m period i)
    {pre post : List Value} {v : Value} {b : WireCandle} (htaken : s.taken i = pre ++ v :: post)
    (hb : s.Owed i b) (hlater : v.Later b) : ∃ u ∈ pre, u.Shows m period b := by
  obtain ⟨-, hcomplete⟩ : s.Ordered m period ∧ s.Complete m period := by
    refine h.invariant (I := fun s => s.Ordered m period ∧ s.Complete m period)
      ⟨start_ordered chainID c b₀, fun i hi => absurd hi.1.1 (MDClient.start_unheld chainID c)⟩ ?_
    rintro s a t ⟨ho, hc⟩ hok hs
    exact ⟨ho.step hs, hc.step ho hok hs⟩
  have hgap := (hcomplete i hi).1
  rw [pipeline, values, htaken, List.append_assoc, List.map_append, List.cons_append, List.map_cons,
    List.append_assoc, List.cons_append] at hgap
  rcases hgap.shown_before hb hlater with hnone | ⟨x, hx, hshows⟩
  · exact hnone.elim
  · obtain ⟨u, hu, rfl⟩ := List.mem_map.mp hx
    exact ⟨u, hu, hshows⟩

/-- The first bar closes on a connection that stays up. -/
theorem no_bar_lost_up : ∃ as s, Run (Step (aMarket 1) Duration.minute)
    (Kept (aMarket 1) Duration.minute) (start 1 aContext (aBar 120000)) as s ∧
      s.taken 0 = [.candle (aCandle 120000), .candle (aCandle 180000)] ∧ s.Owed 0 (aBar 120000) ∧
      ∃ u ∈ [Value.candle (aCandle 120000)],
        u.Shows (aMarket 1) Duration.minute (aBar 120000) := by
  have hroll : (aBar 120000).time < (aBar 180000).time := by decide
  have hup : Run (Step (aMarket 1) Duration.minute) (Kept (aMarket 1) Duration.minute)
      (start 1 aContext (aBar 120000)) _ _ := Run.nil
    |>.snoc (a := .client (.subscribe 0 0 (minutes 1))) trivial
      (.subscribes ⟨rfl, .subscribed rfl rfl rfl⟩)
    |>.snoc (a := .client .run) (by exact fun _ _ _ _ h => nomatch h)
      (.goesOn ⟨rfl, .begins rfl rfl⟩ nofun nofun nofun)
    |>.snoc (a := .client .dial) (by trivial) (.goesOn ⟨rfl, .dialed rfl⟩ nofun nofun nofun)
    |>.snoc (a := .client .run) (by exact fun _ _ _ _ h => nomatch h)
      (.goesOn ⟨rfl, .asks rfl⟩ nofun nofun nofun)
    |>.snoc (a := .serve 0) (by exact fun _ _ _ ⟨_, _, hb⟩ => .inr (List.mem_of_getElem? hb))
      (.serves (List.mem_singleton.mpr rfl) rfl rfl (by decide))
    |>.snoc (a := .client (.read (.subscribeResponse [⟨(minutes 1).stream 1, 7, 0⟩]))) (by trivial)
      (.readsOther (by exact fun _ _ h => nomatch h) ⟨rfl, .reads rfl⟩)
  obtain ⟨as₁, hfirst⟩ := exists_trans hup (delivers (k := 7) (i := 0) rfl rfl rfl rfl rfl rfl rfl rfl
    rfl rfl rfl (by decide) (toVenueCandle_aBar 120000))
  have hrolled := hfirst.snoc (a := .roll (aBar 180000)) (by trivial)
    (@Step.rolls _ _ _ [] _ _ rfl hroll)
  obtain ⟨as₂, hsecond⟩ := exists_trans hrolled (delivers (k := 7) (i := 0) rfl rfl rfl rfl rfl rfl rfl
    rfl rfl rfl rfl (by decide) (toVenueCandle_aBar 180000))
  suffices howed : Owed _ 0 (aBar 120000) from ⟨as₂, _, hsecond, rfl, howed,
    @no_bar_lost _ _ _ _ _ _ _ _ hsecond ⟨⟨.inl rfl, rfl⟩, rfl⟩ [.candle (aCandle 120000)] [] _ _ rfl
      howed later_aCandle⟩
  exact ⟨0, by decide, by decide, rfl⟩

/-- A bar closes while the client reconnects, and the snapshot begins after it: on an open channel the
next bar follows the one before. -/
theorem bar_lost : ∃ as s, Run (Step (aMarket 1) Duration.minute) Always
    (start 1 aContext (aBar 60000)) as s ∧ s.Follows (aMarket 1) Duration.minute 0 ∧
      (s.client.subs 0).out.closed = false ∧
      s.taken 0 = [.candle (aCandle 60000), .candle (aCandle 180000)] ∧ s.Owed 0 (aBar 120000) ∧
      (Value.candle (aCandle 180000)).Later (aBar 120000) ∧
      ∀ u ∈ [Value.candle (aCandle 60000)], ¬ u.Shows (aMarket 1) Duration.minute (aBar 120000) := by
  have hroll : (aBar 60000).time < (aBar 120000).time := by decide
  have hroll' : (aBar 120000).time < (aBar 180000).time := by decide
  have hup : Run (Step (aMarket 1) Duration.minute) Always (start 1 aContext (aBar 60000)) _ _ := Run.nil
    |>.snoc (a := .client (.subscribe 0 0 (minutes 1))) trivial
      (.subscribes ⟨rfl, .subscribed rfl rfl rfl⟩)
    |>.snoc (a := .client .run) trivial (.goesOn ⟨rfl, .begins rfl rfl⟩ nofun nofun nofun)
    |>.snoc (a := .client .dial) trivial (.goesOn ⟨rfl, .dialed rfl⟩ nofun nofun nofun)
    |>.snoc (a := .client .run) trivial (.goesOn ⟨rfl, .asks rfl⟩ nofun nofun nofun)
    |>.snoc (a := .serve 0) trivial (.serves (List.mem_singleton.mpr rfl) rfl rfl (by decide))
    |>.snoc (a := .client (.read (.subscribeResponse [⟨(minutes 1).stream 1, 7, 0⟩]))) trivial
      (.readsOther (by exact fun _ _ h => nomatch h) ⟨rfl, .reads rfl⟩)
  obtain ⟨as₁, hfirst⟩ := exists_trans hup ((delivers (k := 7) (i := 0) rfl rfl rfl rfl rfl rfl rfl rfl
    rfl rfl rfl (by decide) (toVenueCandle_aBar 60000)).imp fun _ h => h.mono fun _ _ _ => trivial)
  have hagain : Run (Step (aMarket 1) Duration.minute) Always (start 1 aContext (aBar 60000)) _ _ :=
    hfirst
    |>.snoc (a := .client .lose) trivial (.goesOn ⟨rfl, .lost⟩ nofun nofun nofun)
    |>.snoc (a := .roll (aBar 120000)) trivial (@Step.rolls _ _ _ [] _ _ rfl hroll)
    |>.snoc (a := .roll (aBar 180000)) trivial (@Step.rolls _ _ _ [aBar 60000] _ _ rfl hroll')
    |>.snoc (a := .client .run) trivial (.goesOn ⟨rfl, .unread rfl (.inl rfl)⟩ nofun nofun nofun)
    |>.snoc (a := .client .run) trivial (.goesOn ⟨rfl, .pauses rfl rfl rfl⟩ nofun nofun nofun)
    |>.snoc (a := .client .run) trivial (.goesOn ⟨rfl, .retries rfl⟩ nofun nofun nofun)
    |>.snoc (a := .client .run) trivial (.goesOn ⟨rfl, .begins rfl rfl⟩ nofun nofun nofun)
    |>.snoc (a := .client .dial) trivial (.goesOn ⟨rfl, .dialed rfl⟩ nofun nofun nofun)
    |>.snoc (a := .client .run) trivial (.goesOn ⟨rfl, .asks rfl⟩ nofun nofun nofun)
    |>.snoc (a := .serve 2) trivial (.serves (List.mem_singleton.mpr rfl) rfl rfl (by decide))
    |>.snoc (a := .client (.read (.subscribeResponse [⟨(minutes 1).stream 1, 7, 0⟩]))) trivial
      (.readsOther (by exact fun _ _ h => nomatch h) ⟨rfl, .reads rfl⟩)
  obtain ⟨as₂, hsecond⟩ := exists_trans hagain ((delivers (k := 7) (i := 0) rfl rfl rfl rfl rfl rfl rfl
    rfl rfl rfl rfl (by decide) (toVenueCandle_aBar 180000)).imp fun _ h =>
      h.mono fun _ _ _ => trivial)
  have hunshown : ∀ u ∈ [Value.candle (aCandle 60000)],
      ¬ u.Shows (aMarket 1) Duration.minute (aBar 120000) := by
    rintro u hu ⟨c, candle, hcandle, rfl⟩
    obtain rfl := Value.candle.inj (List.mem_singleton.mp hu)
    have hopen := open_of_toVenueCandle hcandle
    have hne : msTime 60000 ≠ msTime 120000 := by decide
    exact hne hopen
  suffices howed : Owed _ 0 (aBar 120000) from ⟨as₂, _, hsecond, ⟨⟨.inl rfl, rfl⟩, rfl⟩, rfl, rfl, howed,
    later_aCandle, hunshown⟩
  exact ⟨1, by decide, by decide, rfl⟩

end BarFeed

end SuperAgent.Perpl
