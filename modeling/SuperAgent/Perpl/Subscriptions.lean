import SuperAgent.Perpl.MarketData

/-!
# Subscriptions under one connection

The loop runs under the context of the first subscription, a handler stays for
good, and a wake signal is for whichever watcher takes it. What that leaves of
the streams' independence: they end together, no stream is opened anew, and the
watcher of an ended session takes no signal that the present one needs.
-/

namespace SuperAgent.Perpl.MDClient

variable {s t : MDClient} {a : MDAction} {i j n : Nat} {stream : String}

/-- A subscription whose handler is registered. -/
def Held (s : MDClient) (i : Nat) : Prop :=
  (s.subs i).stage = .registered ∨ (s.subs i).stage = .streaming

/-- A subscription whose context has not ended. -/
def Live (s : MDClient) (i : Nat) : Prop := s.Held i ∧ s.done (s.subs i).ctx = false

/-! ## What a step leaves of the subscriptions -/

/-- Two clients with the same subscriptions under the same contexts. -/
structure Alike (s t : MDClient) : Prop where
  chainID : t.chainID = s.chainID
  handlers : t.handlers = s.handlers
  started : t.started = s.started
  root : t.root = s.root
  done : t.done = s.done
  held : ∀ i, t.Held i ↔ s.Held i
  sub : ∀ i, s.Held i → (t.subs i).ctx = (s.subs i).ctx ∧ (t.subs i).feed = (s.subs i).feed

theorem alike_of_subs (hsubs : t.subs = s.subs) (hchainID : t.chainID = s.chainID)
    (hhandlers : t.handlers = s.handlers) (hstarted : t.started = s.started)
    (hroot : t.root = s.root) (hdone : t.done = s.done) : s.Alike t := by
  refine ⟨hchainID, hhandlers, hstarted, hroot, hdone, fun i => ?_, fun i _ => ?_⟩
  · rw [Held, Held, hsubs]
  · rw [hsubs]
    exact ⟨rfl, rfl⟩

/-- A subscription goes on under its context. -/
theorem alike_setSub {b : Subscriber} (hctx : b.ctx = (s.subs i).ctx) (hfeed : b.feed = (s.subs i).feed)
    (hstage : (b.stage = .registered ∨ b.stage = .streaming) ↔ s.Held i) : s.Alike (s.setSub i b) := by
  refine ⟨rfl, rfl, rfl, rfl, rfl, fun j => ?_, fun j _ => ?_⟩
  · by_cases hj : j = i
    · subst hj
      rw [Held, setSub_self]
      exact hstage
    · rw [Held, setSub_of_ne hj]
      rfl
  · by_cases hj : j = i
    · subst hj
      rw [setSub_self]
      exact ⟨hctx, hfeed⟩
    · rw [setSub_of_ne hj]
      exact ⟨rfl, rfl⟩

/-- A subscription that is refused was none before. -/
theorem alike_refuse {ctx : Nat} {feed : Feed} (hidle : (s.subs i).stage = .idle) :
    s.Alike (s.setSub i ⟨.refused, ctx, feed, (s.subs i).out⟩) := by
  refine ⟨rfl, rfl, rfl, rfl, rfl, fun j => ?_, fun j hj => ?_⟩
  · by_cases hji : j = i
    · subst hji
      rw [Held, Held, setSub_self, hidle]
      simp
    · rw [Held, setSub_of_ne hji]
      rfl
  · have hji : j ≠ i := by
      rintro rfl
      rw [Held, hidle] at hj
      simp at hj
    rw [setSub_of_ne hji]
    exact ⟨rfl, rfl⟩

/-- A step registers a handler, ends a context or leaves the subscriptions alone. -/
theorem Moves.alike (hm : s.Moves a t) :
    (∃ i ctx feed, a = .subscribe i ctx feed ∧ t = s.register i ctx feed ∧
      (s.subs i).stage = .idle ∧ feed.supported = true ∧
      s.handlerOf (feed.stream s.chainID) = none) ∨
    (∃ ctx, a = .cancel ctx ∧ t = { s with done := Function.update s.done ctx true }) ∨
    s.Alike t := by
  cases hm with
  | subscribed hidle hserved hnone => exact .inl ⟨_, _, _, rfl, rfl, hidle, hserved, hnone⟩
  | canceled => exact .inr (.inl ⟨_, rfl, rfl⟩)
  | unsupported hidle _ => exact .inr (.inr (alike_refuse hidle))
  | duplicate hidle _ _ => exact .inr (.inr (alike_refuse hidle))
  | @signaled i hstage =>
    have hset : s.Alike (s.setSub i { s.subs i with stage := .streaming }) :=
      alike_setSub rfl rfl (iff_of_true (.inr rfl) (.inl hstage))
    exact .inr (.inr ⟨rfl, rfl, rfl, rfl, rfl, hset.held, hset.sub⟩)
  | closed _ _ _ _ | received _ => exact .inr (.inr (alike_setSub rfl rfl Iff.rfl))
  | @sends i v vs out _ _ =>
    have hset : s.Alike (s.setOut i out) := alike_setSub rfl rfl Iff.rfl
    exact .inr (.inr ⟨rfl, rfl, rfl, rfl, rfl, hset.held, hset.sub⟩)
  | reads _ =>
    obtain ⟨bySID, head, loop, heq, -⟩ := s.dispatch_eq _
    rw [heq]
    exact .inr (.inr (alike_of_subs rfl rfl rfl rfl rfl rfl))
  | _ => exact .inr (.inr (alike_of_subs rfl rfl rfl rfl rfl rfl))

/-! ## Streams that end together -/

/-- The connection is up and asks for a subscription's stream, has asked for it or is about to. -/
def Minded (s : MDClient) (p : String × Nat) : Prop :=
  p.1 ∈ s.asked ∨ (∃ streams, s.loop = .asking streams ∧ p.1 ∈ streams) ∨
    s.watchers s.session = .woken ∨ (∃ streams, s.watchers s.session = .asking streams ∧ p.1 ∈ streams) ∨
    (s.subs p.2).stage = .registered

/-- The streams end together, none is opened anew, and the watcher of an ended session takes no
signal the present one needs. -/
def Independent (s : MDClient) : MDAction → Prop
  | .subscribe _ ctx feed =>
    match s.handlerOf (feed.stream s.chainID) with
    | some j => s.Live j
    | none => feed.supported = true → s.started = true → s.done s.root = false ∧ s.done ctx = false
  | .cancel ctx =>
    (∀ i, s.Live i → (s.subs i).ctx = ctx) ∨ ∀ i, s.Live i → (s.subs i).ctx ≠ ctx
  | .wakes n => n = s.session ∨ s.loop.connected = false ∨ ∀ p ∈ s.handlers, s.Minded p
  | .read (.subscribeResponse subs) => ∀ r ∈ subs, r.code = 0 → r.stream ∈ s.asked
  | _ => True

/-- Each subscription that is held has the handler of its stream, and no handler is another's. -/
structure Owned (s : MDClient) : Prop where
  unheld : s.started = false → ∀ i, ¬ s.Held i
  handler : ∀ i, s.Held i → s.handlerOf (s.streamOf i) = some i
  owner : ∀ p ∈ s.handlers, s.Held p.2 ∧ s.streamOf p.2 = p.1

theorem start_unheld (chainID : Int) (c : Context) : ¬ (start chainID c).Held i := by
  simp [Held, start]

theorem start_owned (chainID : Int) (c : Context) : (start chainID c).Owned :=
  ⟨fun _ _ => start_unheld chainID c, fun _ hi => absurd hi (start_unheld chainID c), nofun⟩

theorem Owned.alike (h : s.Owned) (hst : s.Alike t) : t.Owned := by
  refine ⟨fun hstarted i hi => ?_, fun i hi => ?_, fun p hp => ?_⟩
  · exact h.unheld (hst.started ▸ hstarted) i ((hst.held i).mp hi)
  · have hi' := (hst.held i).mp hi
    rw [handlerOf, streamOf, hst.handlers, hst.chainID, (hst.sub i hi').2]
    exact h.handler i hi'
  · obtain ⟨hheld, hstream⟩ := h.owner p (hst.handlers ▸ hp)
    refine ⟨(hst.held p.2).mpr hheld, ?_⟩
    rw [streamOf, hst.chainID, (hst.sub p.2 hheld).2]
    exact hstream

theorem register_handlerOf {ctx : Nat} {feed : Feed} :
    (s.register i ctx feed).handlerOf stream =
      (s.handlerOf stream).or (if stream = feed.stream s.chainID then some i else none) := by
  change (s.handlers ++ [(feed.stream s.chainID, i)]).lookup stream = _
  rw [List.lookup_append]
  by_cases hstream : stream = feed.stream s.chainID
  · rw [if_pos hstream, hstream, List.lookup_cons_self]
    rfl
  · rw [if_neg hstream, List.lookup_cons, beq_false_of_ne hstream]
    rfl

theorem register_held {ctx : Nat} {feed : Feed} (h : (s.register i ctx feed).Held j) (hj : j ≠ i) :
    s.Held j ∧ (s.register i ctx feed).subs j = s.subs j := by
  have hsubs : (s.register i ctx feed).subs j = s.subs j := setSub_of_ne hj
  rw [Held, hsubs] at h
  exact ⟨h, hsubs⟩

theorem register_self {ctx : Nat} {feed : Feed} : (s.register i ctx feed).subs i =
    ⟨.registered, ctx, feed, ⟨feed.capacity, [], false⟩⟩ := setSub_self

/-- A subscription that is held is not the one that is about to be. -/
theorem Held.ne (h : s.Held j) (hidle : (s.subs i).stage = .idle) : j ≠ i := by
  rintro rfl
  rw [Held, hidle] at h
  simp at h

theorem Owned.register {ctx : Nat} {feed : Feed} (h : s.Owned) (hidle : (s.subs i).stage = .idle)
    (hnone : s.handlerOf (feed.stream s.chainID) = none) : (s.register i ctx feed).Owned := by
  refine ⟨nofun, fun j hj => ?_, fun p hp => ?_⟩
  · by_cases hji : j = i
    · subst hji
      rw [streamOf, register_self, register_handlerOf]
      change (s.handlerOf (feed.stream s.chainID)).or (if feed.stream s.chainID =
        feed.stream s.chainID then some j else none) = some j
      rw [hnone, if_pos rfl]
      rfl
    · obtain ⟨hold, hsubs⟩ := register_held hj hji
      rw [streamOf, hsubs, register_handlerOf]
      change (s.handlerOf (s.streamOf j)).or _ = some j
      rw [h.handler j hold]
      rfl
  · rcases List.mem_append.mp hp with hold | hnew
    · obtain ⟨hheld, hstream⟩ := h.owner p hold
      have hsubs : (s.register i ctx feed).subs p.2 = s.subs p.2 := setSub_of_ne (hheld.ne hidle)
      rw [Held, streamOf, hsubs]
      exact ⟨hheld, hstream⟩
    · rw [List.mem_singleton.mp hnew]
      refine ⟨.inl (congrArg Subscriber.stage register_self), ?_⟩
      rw [streamOf, register_self]
      rfl

theorem Owned.step (h : s.Owned) (hs : s.Step a t) : t.Owned := by
  rcases hs.2.alike with ⟨i, ctx, feed, rfl, rfl, hidle, -, hnone⟩ | ⟨ctx, rfl, rfl⟩ | hst
  · exact h.register hidle hnone
  · exact ⟨h.unheld, h.handler, h.owner⟩
  · exact h.alike hst

/-- The loop's context ends with the one of every subscription. -/
structure Together (s : MDClient) : Prop where
  rooted : s.started = true → ∃ i, s.Held i ∧ (s.subs i).ctx = s.root
  ended : ∀ i, s.Held i → s.done (s.subs i).ctx = s.done s.root

theorem start_together (chainID : Int) (c : Context) : (start chainID c).Together :=
  ⟨nofun, fun _ hi => absurd hi (start_unheld chainID c)⟩

theorem Together.alike (h : s.Together) (hst : s.Alike t) : t.Together := by
  refine ⟨fun hstarted => ?_, fun i hi => ?_⟩
  · obtain ⟨i, hi, hctx⟩ := h.rooted (hst.started ▸ hstarted)
    refine ⟨i, (hst.held i).mpr hi, ?_⟩
    rw [(hst.sub i hi).1, hst.root, hctx]
  · have hi' := (hst.held i).mp hi
    rw [hst.done, (hst.sub i hi').1, hst.root]
    exact h.ended i hi'

/-- A handler is registered under a context that lives as long as the loop's. -/
theorem Together.register {ctx : Nat} {feed : Feed} (h : s.Together) (ho : s.Owned)
    (hidle : (s.subs i).stage = .idle)
    (hdone : s.started = true → s.done s.root = false ∧ s.done ctx = false) :
    (s.register i ctx feed).Together := by
  refine ⟨fun _ => ?_, fun j hj => ?_⟩
  · cases hstarted : s.started with
    | true =>
      obtain ⟨j, hj, hctx⟩ := h.rooted hstarted
      have hsubs : (s.register i ctx feed).subs j = s.subs j := setSub_of_ne (hj.ne hidle)
      refine ⟨j, ?_, ?_⟩
      · rw [Held, hsubs]
        exact hj
      · rw [hsubs, hctx]
        exact (if_pos hstarted).symm
    | false =>
      refine ⟨i, .inl (congrArg Subscriber.stage register_self), ?_⟩
      rw [register_self]
      change ctx = if s.started = true then s.root else ctx
      rw [if_neg (ne_true_of_eq_false hstarted)]
  · have hroot : (s.register i ctx feed).root = if s.started then s.root else ctx := rfl
    cases hstarted : s.started with
    | true =>
      obtain ⟨hopen, hctx⟩ := hdone hstarted
      rw [hroot, if_pos hstarted]
      change s.done _ = s.done s.root
      by_cases hji : j = i
      · subst hji
        rw [register_self, hctx, hopen]
      · obtain ⟨hold, hsubs⟩ := register_held hj hji
        rw [hsubs]
        exact h.ended j hold
    | false =>
      have hji : j = i := by
        by_contra hji
        exact ho.unheld hstarted j (register_held hj hji).1
      subst hji
      rw [register_self, hroot, if_neg (ne_true_of_eq_false hstarted)]

/-- A context ends that is the one of all live subscriptions, or of none. -/
theorem Together.cancel {ctx : Nat} (h : s.Together) (ho : s.Owned)
    (hctx : (∀ i, s.Live i → (s.subs i).ctx = ctx) ∨ ∀ i, s.Live i → (s.subs i).ctx ≠ ctx) :
    Together { s with done := Function.update s.done ctx true } := by
  refine ⟨h.rooted, fun i hi => ?_⟩
  change Function.update s.done ctx true (s.subs i).ctx = Function.update s.done ctx true s.root
  cases hroot : s.done s.root with
  | true => rw [done_update hroot, done_update ((h.ended i hi).trans hroot)]
  | false =>
    have hlive : ∀ j, s.Held j → s.Live j := fun j hj => ⟨hj, (h.ended j hj).trans hroot⟩
    have hstarted : s.started = true := by
      by_contra hnot
      exact ho.unheld (eq_false_of_ne_true hnot) i hi
    obtain ⟨j, hj, hjroot⟩ := h.rooted hstarted
    rcases hctx with hall | hnone
    · rw [hall i (hlive i hi), ← hjroot, hall j (hlive j hj)]
    · have hne := hnone j (hlive j hj)
      rw [hjroot] at hne
      rw [Function.update_of_ne (hnone i (hlive i hi)), Function.update_of_ne hne]
      exact h.ended i hi

theorem Together.step (h : s.Together) (ho : s.Owned) (hok : s.Independent a) (hs : s.Step a t) :
    t.Together := by
  rcases hs.2.alike with ⟨i, ctx, feed, rfl, rfl, hidle, hserved, hnone⟩ | ⟨ctx, rfl, rfl⟩ | hst
  · rw [Independent, hnone] at hok
    exact h.register ho hidle (hok hserved)
  · exact h.cancel ho hok
  · exact h.alike hst

/-- Channels are closed with the context of their subscription, and the loop goes on until its own
context ends or the client is closed. -/
structure Undisturbed (s : MDClient) : Prop where
  closed : ∀ i, (s.subs i).out.closed = true → s.Held i ∧ s.done (s.subs i).ctx = true
  stopped : s.loop = .stopped → s.done s.root = true ∨ s.closing = true
  panicked : s.panic = some .sendOnClosed → s.done s.root = true

theorem start_undisturbed (chainID : Int) (c : Context) : (start chainID c).Undisturbed :=
  ⟨nofun, nofun, nofun⟩

theorem Moves.done_mono (hm : s.Moves a t) (h : s.done i = true) : t.done i = true := by
  rcases hm.alike with ⟨j, ctx, feed, -, rfl, -⟩ | ⟨ctx, -, rfl⟩ | hst
  · exact h
  · exact done_update h
  · rwa [hst.done]

theorem Moves.held (hm : s.Moves a t) (h : s.Held i) :
    t.Held i ∧ (t.subs i).ctx = (s.subs i).ctx := by
  rcases hm.alike with ⟨j, ctx, feed, -, rfl, hidle, -⟩ | ⟨ctx, -, rfl⟩ | hst
  · have hij : i ≠ j := by
      rintro rfl
      rw [Held, hidle] at h
      simp at h
    have hsubs : (s.register j ctx feed).subs i = s.subs i := setSub_of_ne hij
    rw [Held, hsubs]
    exact ⟨h, rfl⟩
  · exact ⟨h, rfl⟩
  · exact ⟨(hst.held i).mpr h, (hst.sub i h).1⟩

theorem Undisturbed.closed_step (h : s.Undisturbed) (hm : s.Moves a t)
    (hclosed : (t.subs i).out.closed = true) : t.Held i ∧ t.done (t.subs i).ctx = true := by
  have hkeep : s.Held i → s.done (s.subs i).ctx = true →
      t.Held i ∧ t.done (t.subs i).ctx = true := by
    intro hheld hdone
    obtain ⟨hheld', hctx⟩ := hm.held hheld
    exact ⟨hheld', hctx ▸ hm.done_mono hdone⟩
  rcases hm.closed_cases hclosed with hold | rfl
  · obtain ⟨hheld, hdone⟩ := h.closed i hold
    exact hkeep hheld hdone
  · cases hm with
    | closed hstage _ hdone _ => exact hkeep (.inr hstage) hdone

theorem Undisturbed.step (h : s.Undisturbed) (ht : s.Together) (hs : s.Step a t) : t.Undisturbed := by
  obtain ⟨hpanic, hm⟩ := hs
  refine ⟨fun i hi => h.closed_step hm hi, fun hstopped => ?_, fun hsend => ?_⟩
  · cases hm with
    | @subscribed i ctx feed hidle _ _ =>
      change (if s.started = true then s.loop else .top) = .stopped at hstopped
      change s.done (if s.started = true then s.root else ctx) = true ∨ s.closing = true
      cases hstarted : s.started with
      | true =>
        rw [hstarted] at hstopped
        exact h.stopped hstopped
      | false =>
        rw [hstarted] at hstopped
        cases hstopped
    | reads hloop =>
      obtain ⟨bySID, head, loop, heq, hcases⟩ := s.dispatch_eq _
      rw [heq] at hstopped ⊢
      rcases hcases with hsame | ⟨i, hhandling⟩
      · exact h.stopped (hsame.symm.trans hstopped)
      · cases hhandling.symm.trans hstopped
    | canceled => exact (h.stopped hstopped).imp_left done_update
    | shut => exact .inr rfl
    | done _ hdone => exact .inl hdone
    | stops _ hdone => exact hdone
    | givesUp _ hdone => exact .inl hdone
    | unsupported _ _ | duplicate _ _ _ | signaled _ | closed _ _ _ _ | received _ | refreshed | lost
    | sendsOnClosed _ _ | outOfRange _ | wakes _ _ | complete _ _ | lacks _ _ | subscribes _ _ _
    | fails _ _ | leaves _ _ => exact h.stopped hstopped
    | begins _ _ | dialed _ | undialed _ | asks _ | unasked _ _ _ | sends _ _ | handled _ | unread _ _
    | pauses _ _ _ | retries _ => cases hstopped
  · cases hm with
    | @sendsOnClosed i v vs _ hfull =>
      have hclosed : (s.subs i).out.closed = true := by
        by_contra hnot
        obtain ⟨d, hd, -⟩ := Chan.trySend_eq_some (eq_false_of_ne_true hnot)
        cases hfull.symm.trans hd
      obtain ⟨hheld, hdone⟩ := h.closed i hclosed
      exact (ht.ended i hheld).symm.trans hdone
    | reads _ =>
      obtain ⟨bySID, head, loop, heq, -⟩ := s.dispatch_eq _
      rw [heq] at hsend
      cases hpanic.symm.trans hsend
    | outOfRange _ => cases hsend
    | _ => cases hpanic.symm.trans hsend

/-! ## Streams that are asked for -/

/-- What is known of the subscriptions was asked for, a session has its watcher, and no stream is
forgotten while the connection is up. -/
structure Attended (s : MDClient) : Prop where
  known : ∀ sub ∈ s.bySID, sub.2 ∈ s.asked
  future : ∀ n, s.session < n → s.watchers n = .absent
  early : ∀ streams, s.loop = .asking streams → s.watchers s.session = .absent
  watched : s.Up s.session → (∀ streams, s.loop ≠ .asking streams) →
    s.watchers s.session ≠ .absent ∧ s.watchers s.session ≠ .gone
  minded : s.Up s.session → s.broken = false → s.wake = true ∨ ∀ p ∈ s.handlers, s.Minded p

theorem start_attended (chainID : Int) (c : Context) : (start chainID c).Attended :=
  ⟨nofun, fun _ _ => rfl, nofun, nofun, nofun⟩

theorem mem_confirm {r : Int × String} {subs : List SubscribeStatus} {bySID : List (Int × String)}
    (h : r ∈ confirm bySID subs) : r ∈ bySID ∨ ∃ x ∈ subs, x.code = 0 ∧ x.stream = r.2 := by
  induction subs generalizing bySID with
  | nil => exact .inl h
  | cons x subs ih =>
    rcases ih h with hmem | ⟨y, hy, hcode, hstream⟩
    · dsimp only at hmem
      by_cases hcode : x.code = 0
      · rw [if_neg (not_not_intro hcode)] at hmem
        rcases List.mem_cons.mp hmem with rfl | hold
        · exact .inr ⟨x, List.mem_cons_self, hcode, rfl⟩
        · exact .inl (List.mem_filter.mp hold).1
      · rw [if_pos hcode] at hmem
        exact .inl hmem
    · exact .inr ⟨y, List.mem_cons_of_mem _ hy, hcode, hstream⟩

/-- A frame leaves what is known of the subscriptions, unless it is an answer. -/
theorem dispatch_known (h : s.Attended) {f : MDFrame} (hok : s.Independent (.read f)) :
    ∀ sub ∈ (s.dispatch f).bySID, sub.2 ∈ s.asked := by
  have hhand : ∀ head, ({ s with head }.hand f).bySID = s.bySID := by
    intro head
    unfold hand
    split <;> rfl
  cases f with
  | unparseable => exact h.known
  | subscribeResponse subs =>
    intro sub hsub
    rcases mem_confirm hsub with hold | ⟨x, hx, hcode, hstream⟩
    · exact h.known sub hold
    · exact hstream ▸ hok x hx hcode
  | heartbeat sid head =>
    intro sub hsub
    exact h.known sub (hhand head ▸ hsub)
  | candles | book | marketState | other =>
    intro sub hsub
    exact h.known sub (hhand s.head ▸ hsub)

/-- With the connection, its watcher, the signal and the subscriptions as they were, the streams are
as well attended. -/
theorem Attended.same (h : s.Attended) (hbySID : t.bySID = s.bySID) (hasked : t.asked = s.asked)
    (hsession : t.session = s.session) (hwatchers : t.watchers = s.watchers) (hwake : t.wake = s.wake)
    (hhandlers : t.handlers = s.handlers) (hloop : t.loop = s.loop)
    (hstage : ∀ i, (s.subs i).stage = .registered → (t.subs i).stage = .registered)
    (hup : t.done t.root = false → s.done s.root = false) (hbroken : t.broken = false → s.broken = false) :
    t.Attended := by
  have hups : t.Up t.session → s.Up s.session := by
    rintro ⟨-, hconnected, hdone⟩
    exact ⟨rfl, hloop ▸ hconnected, hup hdone⟩
  refine ⟨?_, ?_, ?_, fun hu => ?_, fun hu hb => ?_⟩
  · rw [hbySID, hasked]
    exact h.known
  · rw [hsession, hwatchers]
    exact h.future
  · rw [hloop, hsession, hwatchers]
    exact h.early
  · rw [hloop, hsession, hwatchers]
    exact h.watched (hups hu)
  · rw [hwake, hhandlers]
    refine (h.minded (hups hu) (hbroken hb)).imp_right fun hall p hp => ?_
    have hold := hall p hp
    unfold Minded at hold ⊢
    rw [hasked, hloop, hsession, hwatchers]
    exact hold.imp_right (Or.imp_right (Or.imp_right (Or.imp_right (hstage p.2))))

/-- Outside a session there is nothing to attend to. -/
theorem Attended.unconnected (h : s.Attended) (hconnected : t.loop.connected = false)
    (hbySID : t.bySID = s.bySID) (hasked : t.asked = s.asked) (hsession : t.session = s.session)
    (hwatchers : t.watchers = s.watchers) : t.Attended := by
  have hups : ¬ t.Up t.session := fun hu => by
    cases hconnected.symm.trans hu.2.1
  refine ⟨?_, ?_, fun streams hloop => ?_, fun hu => absurd hu hups, fun hu => absurd hu hups⟩
  · rw [hbySID, hasked]
    exact h.known
  · rw [hsession, hwatchers]
    exact h.future
  · rw [hloop] at hconnected
    cases hconnected

/-- The loop goes on with its connection, past asking. -/
theorem Attended.goesOn (h : s.Attended) (hold : s.loop.connected = true)
    (hpast : ∀ streams, s.loop ≠ .asking streams) (hloop : ∀ streams, t.loop ≠ .asking streams)
    (hknown : ∀ sub ∈ t.bySID, sub.2 ∈ s.asked) (hasked : t.asked = s.asked)
    (hsession : t.session = s.session) (hwatchers : t.watchers = s.watchers) (hwake : t.wake = s.wake)
    (hhandlers : t.handlers = s.handlers) (hstage : ∀ i, (t.subs i).stage = (s.subs i).stage)
    (hup : t.done t.root = s.done s.root) (hbroken : t.broken = s.broken) : t.Attended := by
  have hups : t.Up t.session → s.Up s.session := fun ⟨_, _, hdone⟩ => ⟨rfl, hold, hup ▸ hdone⟩
  refine ⟨?_, ?_, fun streams hasks => absurd hasks (hloop streams), fun hu _ => ?_, fun hu hb => ?_⟩
  · rw [hasked]
    exact hknown
  · rw [hsession, hwatchers]
    exact h.future
  · rw [hsession, hwatchers]
    exact h.watched (hups hu) hpast
  · rw [hwake, hhandlers]
    refine (h.minded (hups hu) (hbroken ▸ hb)).imp_right fun hall p hp => ?_
    unfold Minded
    rw [hasked, hsession, hwatchers, hstage]
    refine (hall p hp).imp_right (Or.imp_left ?_)
    rintro ⟨streams, hasks, -⟩
    exact absurd hasks (hpast streams)

/-- A new connection is about to ask for every registered stream. -/
theorem Attended.dialed (h : s.Attended) : Attended { s.setLoop (.asking (s.handlers.map Prod.fst)) with
    session := s.session + 1, broken := false, bySID := [], asked := [] } := by
  have habsent : s.watchers (s.session + 1) = .absent := h.future _ (Nat.lt_succ_self _)
  refine ⟨nofun, fun n hn => h.future n (Nat.lt_of_succ_lt hn), fun _ _ => habsent,
    fun _ hpast => absurd rfl (hpast _), fun _ _ => .inr fun p hp => ?_⟩
  exact .inr (.inl ⟨_, rfl, List.mem_map_of_mem hp⟩)

/-- The streams of a new connection are asked for, and its watcher starts. -/
theorem Attended.asks {streams : List String} (h : s.Attended) (hloop : s.loop = .asking streams) :
    Attended { (s.setLoop .reading).setWatcher s.session .waiting with asked := s.asked ++ streams } := by
  have habsent := h.early streams hloop
  refine ⟨fun sub hsub => List.mem_append_left _ (h.known sub hsub), fun n hn => ?_, nofun,
    fun _ _ => ?_, fun hu hb => ?_⟩
  · exact (Function.update_of_ne (Nat.ne_of_gt hn) _ _).trans (h.future n hn)
  · change Function.update s.watchers s.session Watcher.waiting s.session ≠ .absent ∧
      Function.update s.watchers s.session Watcher.waiting s.session ≠ .gone
    rw [Function.update_self]
    exact ⟨nofun, nofun⟩
  · have hup : s.Up s.session := ⟨rfl, hloop ▸ rfl, hu.2.2⟩
    refine (h.minded hup hb).imp_right fun hall p hp => ?_
    rcases hall p hp with hasked | ⟨l, hl, hmem⟩ | hwoken | ⟨l, hl, -⟩ | hstage
    · exact .inl (List.mem_append_left _ hasked)
    · obtain rfl := Loop.asking.inj (hloop.symm.trans hl)
      exact .inl (List.mem_append_right _ hmem)
    · cases habsent.symm.trans hwoken
    · cases habsent.symm.trans hl
    · exact .inr (.inr (.inr (.inr hstage)))

/-- A watcher goes on, and what the one of the present session had in mind is still attended to. -/
theorem Attended.watch {w : Watcher} {asked : List String} {wake : Bool} (h : s.Attended)
    (hsome : s.watchers n ≠ .absent) (hstill : w ≠ .absent)
    (hgone : n = s.session → w = .gone → ¬ s.Up s.session)
    (hasked : ∀ stream ∈ s.asked, stream ∈ asked)
    (hminded : s.Up s.session → s.broken = false → wake = true ∨ ∀ p ∈ s.handlers,
      Minded { s.setWatcher n w with asked, wake } p) :
    Attended { s.setWatcher n w with asked, wake } := by
  have hpast : n ≤ s.session := by
    by_contra hlt
    exact hsome (h.future n (Nat.lt_of_not_le hlt))
  refine ⟨fun sub hsub => hasked _ (h.known sub hsub), fun m hm => ?_, fun streams hloop => ?_,
    fun hu hloop => ?_, hminded⟩
  · have hne : m ≠ n := by
      rintro rfl
      exact absurd hpast (Nat.not_le.mpr hm)
    exact (setWatcher_of_ne hne).trans (h.future m hm)
  · have hne : s.session ≠ n := by
      rintro rfl
      exact hsome (h.early streams hloop)
    exact (setWatcher_of_ne hne).trans (h.early streams hloop)
  · change (s.setWatcher n w).watchers s.session ≠ .absent ∧
      (s.setWatcher n w).watchers s.session ≠ .gone
    by_cases hn : s.session = n
    · rw [hn, setWatcher_self]
      exact ⟨hstill, fun hw => hgone hn.symm hw hu⟩
    · rw [setWatcher_of_ne hn]
      exact h.watched hu hloop

/-- What the watcher of another session does takes nothing from the present one. -/
theorem Minded.of_ne {w : Watcher} {wake : Bool} {p : String × Nat} (h : s.Minded p)
    (hn : s.session ≠ n) : Minded { s.setWatcher n w with asked := s.asked, wake } p := by
  unfold Minded at h ⊢
  change p.1 ∈ s.asked ∨ (∃ streams, s.loop = .asking streams ∧ p.1 ∈ streams) ∨
    (s.setWatcher n w).watchers s.session = .woken ∨
    (∃ streams, (s.setWatcher n w).watchers s.session = .asking streams ∧ p.1 ∈ streams) ∨
    (s.subs p.2).stage = .registered
  rw [setWatcher_of_ne hn]
  exact h

/-- A stream is asked for, or the watcher finds that it is missing. -/
theorem Attended.asked_or_missing (h : s.Attended) {p : String × Nat} (hp : p ∈ s.handlers) :
    p.1 ∈ s.asked ∨ p.1 ∈ s.missing := by
  by_cases hknown : s.bySID.any fun sub => sub.2 = p.1
  · obtain ⟨sub, hsub, hstream⟩ := List.any_eq_true.mp hknown
    exact .inl (of_decide_eq_true hstream ▸ h.known sub hsub)
  · refine .inr (List.mem_filter.mpr ⟨List.mem_map_of_mem hp, ?_⟩)
    exact decide_eq_true hknown

theorem Attended.watcher_step (h : s.Attended) (hm : s.Moves (.watch n) t) : t.Attended := by
  have hother : ∀ w, s.session ≠ n → s.Up s.session → s.broken = false →
      s.wake = true ∨ ∀ p ∈ s.handlers,
        Minded { s.setWatcher n w with asked := s.asked, wake := s.wake } p :=
    fun w hn hu hb => (h.minded hu hb).imp_right fun hall p hp => (hall p hp).of_ne hn
  cases hm with
  | complete hwoken hnone =>
    refine h.watch (hwoken ▸ nofun) nofun (fun _ => nofun) (fun _ => id) fun hu hb => ?_
    by_cases hn : s.session = n
    · refine .inr fun p hp => .inl ((h.asked_or_missing hp).resolve_right ?_)
      rw [hnone]
      exact List.not_mem_nil
    · exact hother _ hn hu hb
  | lacks hwoken _ =>
    refine h.watch (hwoken ▸ nofun) nofun (fun _ => nofun) (fun _ => id) fun hu hb => ?_
    by_cases hn : s.session = n
    · refine .inr fun p hp => ?_
      rcases h.asked_or_missing hp with hasked | hmissing
      · exact .inl hasked
      · refine .inr (.inr (.inr (.inl ⟨s.missing, ?_, hmissing⟩)))
        exact hn ▸ setWatcher_self
    · exact hother _ hn hu hb
  | @subscribes _ streams hasking hn _ =>
    refine h.watch (hasking ▸ nofun) nofun (fun _ => nofun)
      (fun _ hmem => List.mem_append_left _ hmem) fun hu hb => ?_
    refine (h.minded hu hb).imp_right fun hall p hp => ?_
    rcases hall p hp with hasked | hloop | hwoken | ⟨l, hl, hmem⟩ | hstage
    · exact .inl (List.mem_append_left _ hasked)
    · exact .inr (.inl hloop)
    · cases hasking.symm.trans (hn ▸ hwoken)
    · obtain rfl := Watcher.asking.inj (hasking.symm.trans (hn ▸ hl))
      exact .inl (List.mem_append_right _ hmem)
    · exact .inr (.inr (.inr (.inr hstage)))
  | fails hasking hdown =>
    refine h.watch (hasking ▸ nofun) nofun (fun _ => nofun) (fun _ => id) fun hu hb => ?_
    by_cases hn : s.session = n
    · rcases hdown with hbroken | hdown
      · cases hb.symm.trans hbroken
      · exact absurd (hn ▸ hu) hdown
    · exact hother _ hn hu hb
  | leaves hwaiting hdown =>
    refine h.watch (hwaiting ▸ nofun) nofun (fun hn _ hu => hdown (hn ▸ hu)) (fun _ => id)
      fun hu hb => ?_
    by_cases hn : s.session = n
    · exact absurd (hn ▸ hu) hdown
    · exact hother _ hn hu hb

/-- A watcher takes the signal. -/
theorem Attended.wakes (h : s.Attended) (hwaiting : s.watchers n = .waiting)
    (hok : s.Independent (.wakes n)) : Attended { s.setWatcher n .woken with wake := false } := by
  refine h.watch (hwaiting ▸ nofun) nofun (fun _ => nofun) (fun _ => id) fun hu _ => .inr fun p hp => ?_
  by_cases hn : s.session = n
  · exact .inr (.inr (.inl (hn ▸ setWatcher_self)))
  · rcases hok with hsame | hdown | hall
    · exact absurd hsame.symm hn
    · cases hdown.symm.trans hu.2.1
    · exact (hall p hp).of_ne hn

/-- A handler is registered, whose call is yet to give the signal. -/
theorem Attended.register {ctx : Nat} {feed : Feed} (h : s.Attended)
    (hidle : (s.subs i).stage = .idle) : (s.register i ctx feed).Attended := by
  cases hstarted : s.started with
  | false =>
    have hloop : (s.register i ctx feed).loop = .top := if_neg (ne_true_of_eq_false hstarted)
    exact h.unconnected (hloop ▸ rfl) rfl rfl rfl rfl
  | true =>
    have hloop : (s.register i ctx feed).loop = s.loop := if_pos hstarted
    have hroot : (s.register i ctx feed).root = s.root := if_pos hstarted
    have hups : (s.register i ctx feed).Up s.session → s.Up s.session := by
      rintro ⟨-, hconnected, hdone⟩
      exact ⟨rfl, hloop ▸ hconnected, hroot ▸ hdone⟩
    have hstage : ((s.register i ctx feed).subs i).stage = .registered :=
      congrArg Subscriber.stage register_self
    refine ⟨h.known, h.future, hloop ▸ h.early, fun hu hpast => h.watched (hups hu) (hloop ▸ hpast),
      fun hu hb => (h.minded (hups hu) hb).imp_right fun hall p hp => ?_⟩
    rcases List.mem_append.mp hp with hold | hnew
    · rcases hall p hold with hasked | ⟨l, hl, hmem⟩ | hwoken | hasking | hregistered
      · exact .inl hasked
      · exact .inr (.inl ⟨l, hloop.trans hl, hmem⟩)
      · exact .inr (.inr (.inl hwoken))
      · exact .inr (.inr (.inr (.inl hasking)))
      · have hne : p.2 ≠ i := by
          intro heq
          rw [heq, hidle] at hregistered
          cases hregistered
        refine .inr (.inr (.inr (.inr ?_)))
        have hsubs : (s.register i ctx feed).subs p.2 = s.subs p.2 := setSub_of_ne hne
        rw [hsubs]
        exact hregistered
    · rw [List.mem_singleton.mp hnew]
      exact .inr (.inr (.inr (.inr hstage)))

theorem setSub_stage {b : Subscriber} (h : (s.subs i).stage = .registered → b.stage = .registered) :
    ∀ j, (s.subs j).stage = .registered → ((s.setSub i b).subs j).stage = .registered := by
  intro j hj
  by_cases hji : j = i
  · subst hji
    rw [setSub_self]
    exact h hj
  · rw [setSub_of_ne hji]
    exact hj

/-- A frame is handed to its handler, or read for what it says. -/
theorem Attended.reads {f : MDFrame} (h : s.Attended) (hloop : s.loop = .reading)
    (hok : s.Independent (.read f)) : (s.dispatch f).Attended := by
  have hknown := dispatch_known h hok
  obtain ⟨bySID, head, loop, heq, hcases⟩ := s.dispatch_eq f
  rw [heq] at hknown ⊢
  refine h.goesOn (hloop ▸ rfl) (hloop ▸ nofun) (fun streams hasks => ?_) hknown rfl rfl rfl rfl rfl
    (fun _ => rfl) rfl rfl
  rcases hcases with hsame | ⟨i, hhandling⟩
  · cases hloop.symm.trans (hsame.symm.trans hasks)
  · cases hhandling.symm.trans hasks

theorem Attended.step (h : s.Attended) (hok : s.Independent a) (hs : s.Step a t) : t.Attended := by
  obtain ⟨-, hm⟩ := hs
  cases hm with
  | subscribed hidle _ _ => exact h.register hidle
  | unsupported hidle _ | duplicate hidle _ _ =>
    refine h.same rfl rfl rfl rfl rfl rfl rfl (setSub_stage fun hregistered => ?_) id id
    cases hidle.symm.trans hregistered
  | signaled _ => exact ⟨h.known, h.future, h.early, h.watched, fun _ _ => .inl rfl⟩
  | closed _ _ _ _ | received _ => exact h.same rfl rfl rfl rfl rfl rfl rfl (setSub_stage id) id id
  | canceled =>
    refine h.same rfl rfl rfl rfl rfl rfl rfl (fun _ => id) (fun hdone => ?_) id
    by_contra hnot
    cases hdone.symm.trans (done_update (eq_true_of_ne_false hnot))
  | refreshed => exact h.same rfl rfl rfl rfl rfl rfl rfl (fun _ => id) id id
  | shut | lost => exact h.same rfl rfl rfl rfl rfl rfl rfl (fun _ => id) id nofun
  | begins _ _ | done _ _ | undialed _ | unasked _ _ _ | unread _ _ | stops _ _ | pauses _ _ _
  | retries _ | givesUp _ _ => exact h.unconnected rfl rfl rfl rfl rfl
  | dialed _ => exact h.dialed
  | asks hloop => exact h.asks hloop
  | reads hloop => exact h.reads hloop hok
  | @sends i v vs out hloop _ =>
    refine h.goesOn (hloop ▸ rfl) (hloop ▸ nofun) nofun h.known rfl rfl rfl rfl rfl (fun j => ?_) rfl rfl
    change ((s.setOut i out).subs j).stage = (s.subs j).stage
    by_cases hji : j = i
    · subst hji
      rw [setOut, setSub_self]
    · rw [setOut, setSub_of_ne hji]
  | sendsOnClosed _ _ | outOfRange _ =>
    exact h.same rfl rfl rfl rfl rfl rfl rfl (fun _ => id) id id
  | handled hloop =>
    exact h.goesOn (hloop ▸ rfl) (hloop ▸ nofun) nofun h.known rfl rfl rfl rfl rfl (fun _ => rfl) rfl rfl
  | wakes hwaiting _ => exact h.wakes hwaiting hok
  | complete hwoken hnone => exact h.watcher_step (.complete hwoken hnone)
  | lacks hwoken hsome => exact h.watcher_step (.lacks hwoken hsome)
  | subscribes hasking hn hconnected => exact h.watcher_step (.subscribes hasking hn hconnected)
  | fails hasking hdown => exact h.watcher_step (.fails hasking hdown)
  | leaves hwaiting hdown => exact h.watcher_step (.leaves hwaiting hdown)

/-- The connection is up and nothing is on the way any more that asks for a stream. -/
def Settled (s : MDClient) : Prop :=
  s.Up s.session ∧ s.broken = false ∧ (∀ streams, s.loop ≠ .asking streams) ∧
    (∀ i, (s.subs i).stage ≠ .registered) ∧ s.watchers s.session ≠ .woken ∧
    (∀ streams, s.watchers s.session ≠ .asking streams) ∧
    (s.wake = true → s.watchers s.session ≠ .waiting)

theorem Attended.asked (h : s.Attended) (hs : s.Settled) {p : String × Nat} (hp : p ∈ s.handlers) :
    p.1 ∈ s.asked := by
  obtain ⟨hup, hbroken, hpast, hunsignaled, hunwoken, hunasking, hwake⟩ := hs
  have hwatched := h.watched hup hpast
  have hwaiting : s.watchers s.session = .waiting := by
    cases hw : s.watchers s.session with
    | absent => exact absurd hw hwatched.1
    | waiting => rfl
    | woken => exact absurd hw hunwoken
    | asking streams => exact absurd hw (hunasking streams)
    | gone => exact absurd hw hwatched.2
  rcases h.minded hup hbroken with hpending | hall
  · exact absurd hwaiting (hwake hpending)
  · rcases hall p hp with hasked | ⟨l, hl, -⟩ | hwoken | ⟨l, hl, -⟩ | hstage
    · exact hasked
    · exact absurd hl (hpast l)
    · exact absurd hwoken hunwoken
    · exact absurd hl (hunasking l)
    · exact absurd hstage (hunsignaled p.2)

theorem mem_handlers (h : s.handlerOf stream = some i) : (stream, i) ∈ s.handlers := by
  obtain ⟨l, l', heq, -⟩ := List.lookup_eq_some_iff.mp h
  rw [heq]
  exact List.mem_append_right _ List.mem_cons_self

/-- A live subscription's frames go to its handler by a loop that goes on, a stream without a live
subscription can be subscribed to, and on a settled connection every live one was asked for. -/
theorem streams_independent {chainID : Int} {c : Context} {as : List MDAction}
    (h : Run Step Independent (start chainID c) as s) :
    (∀ i, s.Live i → s.handlerOf (s.streamOf i) = some i ∧ s.done s.root = false ∧
      (s.loop = .stopped → s.closing = true) ∧ s.panic ≠ some .sendOnClosed) ∧
    (∀ i ctx feed t, s.Step (.subscribe i ctx feed) t → s.Independent (.subscribe i ctx feed) →
      feed.supported = true → (∀ j, s.Live j → s.streamOf j ≠ feed.stream s.chainID) →
      t.Held i ∧ t.handlerOf (feed.stream s.chainID) = some i) ∧
    (s.Settled → ∀ i, s.Live i → s.streamOf i ∈ s.asked) := by
  obtain ⟨ho, ht, hu, ha⟩ : s.Owned ∧ s.Together ∧ s.Undisturbed ∧ s.Attended := by
    refine h.invariant (I := fun s => s.Owned ∧ s.Together ∧ s.Undisturbed ∧ s.Attended)
      ⟨start_owned chainID c, start_together chainID c, start_undisturbed chainID c,
        start_attended chainID c⟩ ?_
    rintro s a t ⟨ho, ht, hu, ha⟩ hok hs
    exact ⟨ho.step hs, ht.step ho hok hs, hu.step ht hs, ha.step hok hs⟩
  refine ⟨fun i hi => ?_, fun i ctx feed t hs hok hserved hfree => ?_, fun hsettled i hi => ?_⟩
  · have hroot : s.done s.root = false := (ht.ended i hi.1).symm.trans hi.2
    refine ⟨ho.handler i hi.1, hroot, fun hstopped => ?_, fun hsend => ?_⟩
    · exact (hu.stopped hstopped).resolve_left (ne_true_of_eq_false hroot)
    · cases hroot.symm.trans (hu.panicked hsend)
  · have hnone : s.handlerOf (feed.stream s.chainID) = none := by
      cases hhandler : s.handlerOf (feed.stream s.chainID) with
      | none => rfl
      | some j =>
        rw [Independent, hhandler] at hok
        exact absurd (ho.owner _ (mem_handlers hhandler)).2 (hfree j hok)
    cases hs.2 with
    | subscribed _ _ _ =>
      refine ⟨.inl (congrArg Subscriber.stage register_self), ?_⟩
      rw [register_handlerOf, hnone, if_pos rfl]
      rfl
    | unsupported _ hunserved => exact absurd hserved hunserved
    | duplicate _ _ hhandler => cases hnone.symm.trans hhandler
  · exact ha.asked hsettled (mem_handlers (ho.handler i hi.1))

/-- The second of two streams under one context is subscribed to when the connection is up. -/
theorem streams_independent_two : ∃ as s, Run Step Independent (start 1 aContext) as s ∧
    s.Settled ∧ s.Live 0 ∧ s.Live 1 ∧ s.handlerOf (s.streamOf 1) = some 1 ∧ s.streamOf 1 ∈ s.asked := by
  have hrun : Run Step Independent (start 1 aContext) _ _ := Run.nil
    |>.snoc (a := .subscribe 0 0 (minutes 1)) (by exact fun _ => nofun) ⟨rfl, .subscribed rfl rfl rfl⟩
    |>.snoc (a := .signal 0) (by trivial) ⟨rfl, .signaled rfl⟩
    |>.snoc (a := .run) (by trivial) ⟨rfl, .begins rfl rfl⟩
    |>.snoc (a := .dial) (by trivial) ⟨rfl, .dialed rfl⟩
    |>.snoc (a := .run) (by trivial) ⟨rfl, .asks rfl⟩
    |>.snoc (a := .read (.subscribeResponse [⟨(minutes 1).stream 1, 6, 0⟩]))
      (by exact fun r hr _ => List.mem_singleton.mp hr ▸ List.mem_singleton.mpr rfl)
      ⟨rfl, .reads rfl⟩
    |>.snoc (a := .subscribe 1 0 (minutes 2)) (by exact fun _ _ => ⟨rfl, rfl⟩)
      ⟨rfl, .subscribed rfl rfl (by decide)⟩
    |>.snoc (a := .signal 1) (by trivial) ⟨rfl, .signaled rfl⟩
    |>.snoc (a := .wakes 1) (by exact .inl rfl) ⟨rfl, .wakes rfl rfl⟩
    |>.snoc (a := .watch 1) (by trivial) ⟨rfl, .lacks rfl (by decide)⟩
    |>.snoc (a := .watch 1) (by trivial) ⟨rfl, .subscribes rfl rfl rfl⟩
  obtain ⟨hlive, -, hasked⟩ := streams_independent hrun
  suffices hsettled : Settled _ from ⟨_, _, hrun, hsettled, ⟨.inr rfl, rfl⟩, ⟨.inr rfl, rfl⟩,
    (hlive 1 ⟨.inr rfl, rfl⟩).1, hasked hsettled 1 ⟨.inr rfl, rfl⟩⟩
  refine ⟨⟨rfl, rfl, rfl⟩, rfl, nofun, fun i => ?_, nofun, nofun, nofun⟩
  match i with
  | 0 => exact nofun
  | 1 => exact nofun
  | i + 2 => exact nofun

/-- When the first market is delisted the loop ends for the second one as well, and the first is
refused when it is listed again. After a reconnect the watcher of the ended session takes the signal
of a new stream, which nobody asks for. -/
theorem streams_dependent :
    (∃ as s, Run Step Always (start 1 aContext) as s ∧ s.done (s.subs 0).ctx = true ∧ s.Live 1 ∧
      s.loop = .stopped ∧ s.closing = false ∧
      s.subs 2 = ⟨.refused, 2, minutes 1, ⟨0, [], false⟩⟩ ∧ s.streamOf 0 = (minutes 1).stream 1) ∧
    ∃ as s, Run Step Always (start 1 aContext) as s ∧ s.Settled ∧ s.Live 1 ∧
      s.streamOf 1 ∉ s.asked := by
  constructor
  · have hrun : Run Step Always (start 1 aContext) _ _ := Run.nil
      |>.snoc (a := .subscribe 0 0 (minutes 1)) trivial ⟨rfl, .subscribed rfl rfl rfl⟩
      |>.snoc (a := .subscribe 1 1 (minutes 2)) trivial ⟨rfl, .subscribed rfl rfl (by decide)⟩
      |>.snoc (a := .run) trivial ⟨rfl, .begins rfl rfl⟩
      |>.snoc (a := .dial) trivial ⟨rfl, .dialed rfl⟩
      |>.snoc (a := .run) trivial ⟨rfl, .asks rfl⟩
      |>.snoc (a := .cancel 0) trivial ⟨rfl, .canceled⟩
      |>.snoc (a := .run) trivial ⟨rfl, .unread rfl (.inr rfl)⟩
      |>.snoc (a := .run) trivial ⟨rfl, .stops rfl (.inl rfl)⟩
      |>.snoc (a := .subscribe 2 2 (minutes 1)) trivial
        ⟨rfl, .duplicate rfl rfl (by exact List.lookup_cons_self)⟩
    exact ⟨_, _, hrun, rfl, ⟨.inl rfl, rfl⟩, rfl, rfl, rfl, rfl⟩
  · have hrun : Run Step Always (start 1 aContext) _ _ := Run.nil
      |>.snoc (a := .subscribe 0 0 (minutes 1)) trivial ⟨rfl, .subscribed rfl rfl rfl⟩
      |>.snoc (a := .signal 0) trivial ⟨rfl, .signaled rfl⟩
      |>.snoc (a := .run) trivial ⟨rfl, .begins rfl rfl⟩
      |>.snoc (a := .dial) trivial ⟨rfl, .dialed rfl⟩
      |>.snoc (a := .run) trivial ⟨rfl, .asks rfl⟩
      |>.snoc (a := .wakes 1) trivial ⟨rfl, .wakes rfl rfl⟩
      |>.snoc (a := .watch 1) trivial ⟨rfl, .lacks rfl (by exact nofun)⟩
      |>.snoc (a := .watch 1) trivial ⟨rfl, .subscribes rfl rfl rfl⟩
      |>.snoc (a := .lose) trivial ⟨rfl, .lost⟩
      |>.snoc (a := .run) trivial ⟨rfl, .unread rfl (.inl rfl)⟩
      |>.snoc (a := .run) trivial ⟨rfl, .pauses rfl rfl rfl⟩
      |>.snoc (a := .run) trivial ⟨rfl, .retries rfl⟩
      |>.snoc (a := .run) trivial ⟨rfl, .begins rfl rfl⟩
      |>.snoc (a := .dial) trivial ⟨rfl, .dialed rfl⟩
      |>.snoc (a := .run) trivial ⟨rfl, .asks rfl⟩
      |>.snoc (a := .subscribe 1 0 (minutes 2)) trivial ⟨rfl, .subscribed rfl rfl (by decide)⟩
      |>.snoc (a := .signal 1) trivial ⟨rfl, .signaled rfl⟩
      |>.snoc (a := .wakes 1) trivial ⟨rfl, .wakes rfl rfl⟩
      |>.snoc (a := .watch 1) trivial ⟨rfl, .lacks rfl (by exact nofun)⟩
      |>.snoc (a := .watch 1) trivial ⟨rfl, .fails rfl (.inr fun hup => by cases hup.1)⟩
    have hasked : (minutes 2).stream 1 ∉ [(minutes 1).stream 1] := by decide
    refine ⟨_, _, hrun, ⟨⟨rfl, rfl, rfl⟩, rfl, nofun, fun i => ?_, nofun, nofun, nofun⟩,
      ⟨.inr rfl, rfl⟩, hasked⟩
    match i with
    | 0 => exact nofun
    | 1 => exact nofun
    | i + 2 => exact nofun

end SuperAgent.Perpl.MDClient
