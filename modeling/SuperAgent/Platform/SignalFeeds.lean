import SuperAgent.Core.Run
import SuperAgent.Platform.MarketSync
import SuperAgent.Platform.Signals

/-!
# The feeds of the allowed markets

The signals are fed for each market of a list, and the list may change: a market
that is gone has its feed stopped, one that is new is given a feed. The list read
at the start is followed by one goroutine, the lists read later by another. Each
looks at one market at a time, and registers its feed some time after it looked.
-/

namespace SuperAgent.Platform

/-- Who has the feeds follow a list: the signals when they start, or the synchroniser. -/
inductive Caller
  | run
  | sync
  deriving DecidableEq

/-- Where the last call of `Ensure` a caller made is. -/
inductive EnsureStage
  | uncalled
  | called (symbols : List String)
  /-- The feeds of other markets are stopped, and these markets are left to look at. -/
  | starting (left : List String)
  /-- The first of them was found without a feed. -/
  | creating (sym : String) (left : List String)
  | returned
  deriving DecidableEq

/-- The markets a call has still to start, where they need it. -/
def EnsureStage.left : EnsureStage → List String
  | .starting left => left
  | .creating sym left => sym :: left
  | _ => []

/-- Whether a call has not yet stopped the feeds of other markets. -/
def EnsureStage.early : EnsureStage → Bool
  | .uncalled => true
  | .called _ => true
  | _ => false

/-- A goroutine that feeds a market's signals. -/
structure SignalFeed where
  symbol : String
  cancelled : Bool
  deriving DecidableEq

/-- The feeds that were ever started, by number, and which of them are registered. -/
structure SignalFeeds where
  markets : MarketSync
  /-- The list the signals start with. -/
  first : List String
  /-- The feed whose signals a reader is given, on every timeframe. -/
  feeds : String → Option ℕ
  /-- The feed that is cancelled when the market is gone. -/
  stop : String → Option ℕ
  started : ℕ → SignalFeed
  count : ℕ
  stage : Caller → EnsureStage
  /-- The call with the newest list of those that have stopped the feeds of other markets. -/
  followed : Option (Caller × List String)

/-- What happens next: the venue's list is read, the signals start, or a call goes on. -/
inductive EnsureAction
  | read (markets : Except VenueError (List String))
  | run
  | ensure (c : Caller)

/-- The markets of a list that feeds are wanted for. -/
def wantedOf (symbols : List String) : List String :=
  ((symbols.map symbolOf).filter (· ≠ "")).dedup

theorem ne_empty_of_wanted {symbols : List String} {sym : String} (h : sym ∈ wantedOf symbols) :
    sym ≠ "" := by
  rw [wantedOf, List.mem_dedup, List.mem_filter] at h
  exact of_decide_eq_true h.2

/-- Signals are made for every market with a name, on every timeframe. -/
theorem newFeedSet_ok {symbol : String} {p : Duration} (hsymbol : symbol ≠ "")
    (hp : p ∈ signalPeriods) : ∃ f, newFeedSet symbol p = .ok f := by
  rw [signalPeriods] at hp
  simp only [List.mem_cons, List.not_mem_nil, or_false] at hp
  unfold newFeedSet Strategy.MACrossConfig.validate Strategy.RSIConfig.validate
    Strategy.DonchianConfig.validate Strategy.ORBConfig.validate
  rcases hp with rfl | rfl | rfl | rfl | rfl
  all_goals
    dsimp only [Strategy.defaultMACross, Strategy.defaultRSI, Strategy.defaultDonchian,
      Strategy.defaultORB]
    rw [if_neg hsymbol, if_neg hsymbol, if_neg hsymbol, if_neg hsymbol]
    exact ⟨_, rfl⟩

namespace SignalFeeds

/-- Before the signals start, with the list the synchroniser has read. -/
def start (wanted symbols : List String) : SignalFeeds where
  markets := ⟨wanted, symbols⟩
  first := symbols
  feeds := fun _ => none
  stop := fun _ => none
  started := fun _ => ⟨"", true⟩
  count := 0
  stage := fun _ => .uncalled
  followed := none

variable (s : SignalFeeds)

/-- A call goes on. -/
def set (c : Caller) (stage : EnsureStage) : SignalFeeds :=
  { s with stage := Function.update s.stage c stage }

/-- The venue's list is read, and a list that has changed is followed. -/
def read (markets : Except VenueError (List String)) : SignalFeeds :=
  match (s.markets.sync markets).2 with
  | none => { s with markets := (s.markets.sync markets).1 }
  | some listed => { s with markets := (s.markets.sync markets).1 }.set .sync (.called listed)

/-- Every registered feed of a market that is not wanted is cancelled, and its signals dropped. A
feed is registered under its own market. -/
def stopOthers (want : List String) : SignalFeeds :=
  { s with
    feeds := fun sym => if sym ∉ want ∧ s.stop sym ≠ none then none else s.feeds sym
    stop := fun sym => if sym ∉ want then none else s.stop sym
    started := fun n =>
      if (s.started n).symbol ∉ want ∧ s.stop (s.started n).symbol = some n then
        { s.started n with cancelled := true }
      else s.started n }

/-- The synchroniser's lists are newer than the one the signals start with. -/
def follow (c : Caller) (want : List String) : SignalFeeds :=
  { s with followed := match c, s.followed with
    | .run, some newer => some newer
    | c, _ => some (c, want) }

/-- A call stops the other markets' feeds, and goes on to the markets of its list in some order. -/
def enter (c : Caller) (want order : List String) : SignalFeeds :=
  ((s.stopOthers want).follow c want).set c (.starting order)

/-- A new feed is registered for a market, whether or not one is there, and started. -/
def register (sym : String) : SignalFeeds :=
  { s with
    feeds := Function.update s.feeds sym (some s.count)
    stop := Function.update s.stop sym (some s.count)
    started := Function.update s.started s.count ⟨sym, false⟩
    count := s.count + 1 }

/-- One section of a call, or a read of the venue's list. -/
inductive Step (s : SignalFeeds) : EnsureAction → SignalFeeds → Prop
  | read {markets : Except VenueError (List String)} :
    s.stage .sync = .uncalled ∨ s.stage .sync = .returned → Step s (.read markets) (s.read markets)
  | run : s.stage .run = .uncalled → Step s .run (s.set .run (.called s.first))
  | stops {c : Caller} {symbols order : List String} : s.stage c = .called symbols →
    order.Perm (wantedOf symbols) → Step s (.ensure c) (s.enter c (wantedOf symbols) order)
  | running {c : Caller} {sym : String} {left : List String} {n : ℕ} :
    s.stage c = .starting (sym :: left) → s.stop sym = some n →
    Step s (.ensure c) (s.set c (.starting left))
  | missing {c : Caller} {sym : String} {left : List String} :
    s.stage c = .starting (sym :: left) → s.stop sym = none →
    Step s (.ensure c) (s.set c (.creating sym left))
  | unmade {c : Caller} {sym err : String} {left : List String} {p : Duration} :
    s.stage c = .creating sym left → p ∈ signalPeriods → newFeedSet sym p = .error err →
    Step s (.ensure c) (s.set c (.starting left))
  | registers {c : Caller} {sym : String} {left : List String} : s.stage c = .creating sym left →
    (∀ p ∈ signalPeriods, ∃ f, newFeedSet sym p = .ok f) →
    Step s (.ensure c) ((s.register sym).set c (.starting left))
  | returns {c : Caller} : s.stage c = .starting [] → Step s (.ensure c) (s.set c .returned)

/-! ## What follows a list -/

/-- The feeds follow a list: each of its markets has one feed that is not cancelled, which feeds the
signals its readers are given, and every other feed is. -/
structure FollowsList (want : List String) : Prop where
  running : ∀ sym, (∃ n, n < s.count ∧ s.started n = ⟨sym, false⟩) ↔ sym ∈ want
  one : ∀ n m, n < s.count → m < s.count → (s.started n).cancelled = false →
    (s.started m).cancelled = false → (s.started n).symbol = (s.started m).symbol → n = m
  given : ∀ sym n, n < s.count → s.started n = ⟨sym, false⟩ → s.feeds sym = some n
  stopped : ∀ n, n < s.count → (s.started n).symbol ∉ want → (s.started n).cancelled

/-- Every call has returned. -/
def Settled : Prop :=
  s.stage .run = .returned ∧ (s.stage .sync = .uncalled ∨ s.stage .sync = .returned)

/-- A call registers no market that has a feed, nor one that is not in the newest list followed; and
the call with the older list stops no feed of the newer one that the newer call goes by. -/
def InOrder : EnsureAction → Prop
  | .ensure c => match s.stage c with
    | .called symbols => c = .run → ∀ want, s.followed = some (.sync, want) →
      ∀ sym ∈ want, s.stop sym ≠ none → sym ∉ wantedOf symbols → sym ∈ (s.stage .sync).left
    | .creating sym _ => s.stop sym = none ∧ ∀ c' want, s.followed = some (c', want) → sym ∈ want
    | _ => True
  | _ => True

/-! ## Calls in order -/

variable {s} {s' : SignalFeeds} {a : EnsureAction} {c d : Caller} {sym : String} {want : List String}
  {n m : ℕ} {stage : EnsureStage} {markets : Except VenueError (List String)}

@[simp] theorem set_self : (s.set c stage).stage c = stage := Function.update_self _ _ _

@[simp] theorem set_of_ne (h : d ≠ c) : (s.set c stage).stage d = s.stage d :=
  Function.update_of_ne h _ _

/-- The feeds that are not cancelled are the registered ones, and readers are given their signals. -/
structure Tracked (s : SignalFeeds) : Prop where
  agree : s.feeds = s.stop
  registered : ∀ sym n, s.stop sym = some n → n < s.count ∧ s.started n = ⟨sym, false⟩
  live : ∀ n, n < s.count → (s.started n).cancelled = false → s.stop (s.started n).symbol = some n

theorem Tracked.set (h : s.Tracked) : (s.set c stage).Tracked := ⟨h.agree, h.registered, h.live⟩

theorem Tracked.follow (h : s.Tracked) : (s.follow c want).Tracked :=
  ⟨h.agree, h.registered, h.live⟩

theorem Tracked.read (h : s.Tracked) : (s.read markets).Tracked := by
  unfold SignalFeeds.read
  split <;> exact ⟨h.agree, h.registered, h.live⟩

theorem Tracked.stopOthers (h : s.Tracked) : (s.stopOthers want).Tracked where
  agree := by
    funext sym
    change (if sym ∉ want ∧ s.stop sym ≠ none then none else s.feeds sym) =
      if sym ∉ want then none else s.stop sym
    rw [h.agree]
    by_cases hsym : sym ∈ want
    · rw [if_neg (fun hnot => hnot.1 hsym), if_neg (not_not_intro hsym)]
    · rw [if_pos hsym]
      split_ifs with hstop
      · rfl
      · exact not_ne_iff.mp fun hne => hstop ⟨hsym, hne⟩
  registered sym n hn := by
    rw [SignalFeeds.stopOthers] at hn ⊢
    dsimp only at hn ⊢
    rw [ite_eq_iff] at hn
    obtain ⟨-, hnone⟩ | ⟨hsym, hstop⟩ := hn
    · cases hnone
    · obtain ⟨hlt, hstarted⟩ := h.registered sym n hstop
      have hwanted : ¬ ((s.started n).symbol ∉ want ∧ s.stop (s.started n).symbol = some n) := by
        rw [hstarted]
        exact fun hnot => hsym hnot.1
      rw [if_neg hwanted]
      exact ⟨hlt, hstarted⟩
  live n hn hlive := by
    rw [SignalFeeds.stopOthers] at hlive ⊢
    dsimp only at hlive ⊢
    by_cases hgone : (s.started n).symbol ∉ want ∧ s.stop (s.started n).symbol = some n
    · rw [if_pos hgone] at hlive
      cases hlive
    · rw [if_neg hgone] at hlive ⊢
      have hstop := h.live n hn hlive
      rw [if_neg fun hnot => hgone ⟨hnot, hstop⟩]
      exact hstop

theorem Tracked.register (h : s.Tracked) (hnone : s.stop sym = none) : (s.register sym).Tracked where
  agree := by
    rw [SignalFeeds.register]
    dsimp only
    rw [h.agree]
  registered sym' n hn := by
    rw [SignalFeeds.register] at hn ⊢
    dsimp only at hn ⊢
    by_cases hsym : sym' = sym
    · subst hsym
      rw [Function.update_self] at hn
      obtain rfl := Option.some.inj hn
      exact ⟨Nat.lt_succ_self _, Function.update_self _ _ _⟩
    · rw [Function.update_of_ne hsym] at hn
      obtain ⟨hlt, hstarted⟩ := h.registered sym' n hn
      rw [Function.update_of_ne hlt.ne]
      exact ⟨hlt.trans (Nat.lt_succ_self _), hstarted⟩
  live n hn hlive := by
    rw [SignalFeeds.register] at hn hlive ⊢
    dsimp only at hn hlive ⊢
    rcases (Nat.lt_succ_iff.mp hn).eq_or_lt with rfl | hlt
    · rw [Function.update_self]
      exact Function.update_self _ _ _
    · rw [Function.update_of_ne hlt.ne] at hlive ⊢
      have hstop := h.live n hlt hlive
      have hne : (s.started n).symbol ≠ sym := by
        intro heq
        rw [heq, hnone] at hstop
        cases hstop
      rw [Function.update_of_ne hne]
      exact hstop

/-- What is registered is in the newest list followed, and what is not the call of that list has
still to start. -/
structure Newest (s : SignalFeeds) : Prop where
  idle : s.followed = none → (∀ sym, s.stop sym = none) ∧ ∀ c, (s.stage c).early
  within : ∀ c want, s.followed = some (c, want) → ∀ sym, s.stop sym ≠ none → sym ∈ want
  covered : ∀ c want, s.followed = some (c, want) →
    ∀ sym ∈ want, s.stop sym ≠ none ∨ sym ∈ (s.stage c).left
  byRun : ∀ want, s.followed = some (.run, want) →
    want = wantedOf s.first ∧ (s.stage .run).early = false ∧ (s.stage .sync).early
  bySync : ∀ want, s.followed = some (.sync, want) → s.stage .sync ≠ .uncalled ∧
    ((s.stage .sync).early = false → want = wantedOf s.markets.allowed)
  lists : (∀ l, s.stage .run = .called l → l = s.first) ∧
    (∀ l, s.stage .sync = .called l → l = s.markets.allowed) ∧
    (s.stage .sync = .uncalled → s.markets.allowed = s.first)
  named : ∀ c, ∀ sym ∈ (s.stage c).left, sym ≠ ""

theorem start_tracked (wanted symbols : List String) : (start wanted symbols).Tracked :=
  ⟨rfl, fun _ _ h => (by cases h), fun _ h => absurd h (Nat.not_lt_zero _)⟩

theorem start_newest (wanted symbols : List String) : (start wanted symbols).Newest where
  idle _ := ⟨fun _ => rfl, fun _ => rfl⟩
  within _ _ h := by cases h
  covered _ _ h := by cases h
  byRun _ h := by cases h
  bySync _ h := by cases h
  lists := ⟨fun _ h => (by cases h), fun _ h => (by cases h), fun _ => rfl⟩
  named _ _ h := absurd h List.not_mem_nil

/-- A call goes by markets that have a feed. -/
theorem Newest.move (h : s.Newest) (hc : (s.stage c).early = false) (hstage : stage.early = false)
    (hsub : ∀ sym ∈ stage.left, sym ∈ (s.stage c).left)
    (hgone : ∀ sym ∈ (s.stage c).left, s.stop sym ≠ none ∨ sym ∈ stage.left) :
    (s.set c stage).Newest := by
  have hearly : ∀ d, ((s.set c stage).stage d).early = (s.stage d).early := by
    intro d
    by_cases hd : d = c
    · subst hd
      rw [set_self, hc, hstage]
    · rw [set_of_ne hd]
  have hcalled : ∀ d l, (s.set c stage).stage d = .called l → s.stage d = .called l := by
    intro d l hl
    by_cases hd : d = c
    · subst hd
      rw [set_self] at hl
      rw [hl] at hstage
      cases hstage
    · rwa [set_of_ne hd] at hl
  have huncalled : ∀ d, (s.set c stage).stage d = .uncalled → s.stage d = .uncalled := by
    intro d hl
    by_cases hd : d = c
    · subst hd
      rw [set_self] at hl
      rw [hl] at hstage
      cases hstage
    · rwa [set_of_ne hd] at hl
  refine ⟨fun hnone => ?_, h.within, fun d want hwant sym hsym => ?_, fun want hwant => ?_,
    fun want hwant => ?_, ?_, fun d sym hsym => ?_⟩
  · obtain ⟨hstop, hall⟩ := h.idle hnone
    exact ⟨hstop, fun d => (hearly d).trans (hall d)⟩
  · rcases h.covered d want hwant sym hsym with hstop | hleft
    · exact .inl hstop
    · by_cases hd : d = c
      · subst hd
        rw [set_self]
        exact hgone sym hleft
      · rw [set_of_ne hd]
        exact .inr hleft
  · rw [hearly, hearly]
    exact h.byRun want hwant
  · rw [hearly]
    exact ⟨fun hun => (h.bySync want hwant).1 (huncalled _ hun), (h.bySync want hwant).2⟩
  · exact ⟨fun l hl => h.lists.1 l (hcalled _ l hl), fun l hl => h.lists.2.1 l (hcalled _ l hl),
      fun hun => h.lists.2.2 (huncalled _ hun)⟩
  · by_cases hd : d = c
    · subst hd
      rw [set_self] at hsym
      exact h.named _ sym (hsub sym hsym)
    · rw [set_of_ne hd] at hsym
      exact h.named d sym hsym

/-- A feed is registered for a market of the newest list followed. -/
theorem Newest.register (h : s.Newest) (hsome : s.followed ≠ none)
    (hin : ∀ c want, s.followed = some (c, want) → sym ∈ want) : (s.register sym).Newest := by
  have hkeeps : ∀ sym', s.stop sym' ≠ none → (s.register sym).stop sym' ≠ none := by
    intro sym' hstop
    rw [SignalFeeds.register]
    dsimp only
    by_cases heq : sym' = sym
    · subst heq
      rw [Function.update_self]
      exact Option.some_ne_none _
    · rwa [Function.update_of_ne heq]
  refine ⟨fun hnone => absurd hnone hsome, fun c want hwant sym' hstop => ?_,
    fun c want hwant sym' hsym => ?_, h.byRun, h.bySync, h.lists, h.named⟩
  · rw [SignalFeeds.register] at hstop
    dsimp only at hstop
    by_cases heq : sym' = sym
    · exact heq ▸ hin c want hwant
    · rw [Function.update_of_ne heq] at hstop
      exact h.within c want hwant sym' hstop
  · exact (h.covered c want hwant sym' hsym).imp_left (hkeeps sym')

theorem stopOthers_stop (hsym : sym ∈ want) : (s.stopOthers want).stop sym = s.stop sym :=
  if_neg (not_not_intro hsym)

theorem of_stopOthers (h : (s.stopOthers want).stop sym ≠ none) : sym ∈ want ∧ s.stop sym ≠ none := by
  by_cases hsym : sym ∈ want
  · rw [stopOthers_stop hsym] at h
    exact ⟨hsym, h⟩
  · exact absurd (if_pos hsym) h

theorem follow_newer {p : Caller × List String} (h : s.followed = some p) :
    (s.follow .run want).followed = some p := by
  unfold follow
  rw [h]

theorem follow_own (h : c = .run → s.followed = none) :
    (s.follow c want).followed = some (c, want) := by
  unfold follow
  cases c with
  | run => rw [h rfl]
  | sync => cases s.followed <;> rfl

/-- The signals' own list is followed once. -/
theorem Newest.unfollowed (h : s.Newest) (hearly : (s.stage .run).early)
    (hnone : ∀ want, s.followed ≠ some (.sync, want)) : s.followed = none := by
  cases hs : s.followed with
  | none => rfl
  | some newest =>
    obtain ⟨c, want⟩ := newest
    cases c with
    | sync => exact absurd hs (hnone want)
    | run =>
      rw [(h.byRun want hs).2.1] at hearly
      cases hearly

/-- A call that stops feeds leaves the lists that were read, and goes on to markets with a name. -/
theorem Newest.entered {symbols order : List String} (h : s.Newest)
    (horder : order.Perm (wantedOf symbols)) :
    ((∀ l, (s.enter c (wantedOf symbols) order).stage .run = .called l → l = s.first) ∧
      (∀ l, (s.enter c (wantedOf symbols) order).stage .sync = .called l → l = s.markets.allowed) ∧
      ((s.enter c (wantedOf symbols) order).stage .sync = .uncalled →
        s.markets.allowed = s.first)) ∧
      ∀ d, ∀ sym ∈ ((s.enter c (wantedOf symbols) order).stage d).left, sym ≠ "" := by
  set t := s.enter c (wantedOf symbols) order with ht
  have hself : t.stage c = .starting order := set_self
  have hother : ∀ d, d ≠ c → t.stage d = s.stage d := fun _ hd => set_of_ne hd
  have hsame : ∀ d, (∀ l, t.stage d = .called l → s.stage d = .called l) ∧
      (t.stage d = .uncalled → s.stage d = .uncalled) := by
    intro d
    by_cases hd : d = c
    · subst hd
      rw [hself]
      exact ⟨fun l hl => (by cases hl), fun hl => (by cases hl)⟩
    · rw [hother d hd]
      exact ⟨fun l hl => hl, fun hl => hl⟩
  refine ⟨⟨fun l hl => h.lists.1 l ((hsame _).1 l hl), fun l hl => h.lists.2.1 l ((hsame _).1 l hl),
    fun hl => h.lists.2.2 ((hsame _).2 hl)⟩, fun d sym hsym => ?_⟩
  by_cases hd : d = c
  · subst hd
    rw [hself] at hsym
    exact ne_empty_of_wanted (horder.mem_iff.mp hsym)
  · rw [hother d hd] at hsym
    exact h.named d sym hsym

/-- The call with the older list stops feeds after the newer one did. -/
theorem Newest.stops_late {symbols order : List String} (h : s.Newest)
    (hwant : s.followed = some (.sync, want)) (horder : order.Perm (wantedOf symbols))
    (hkept : ∀ sym ∈ want, s.stop sym ≠ none → sym ∉ wantedOf symbols →
      sym ∈ (s.stage .sync).left) :
    (s.enter .run (wantedOf symbols) order).Newest := by
  have hfollowed : (s.enter .run (wantedOf symbols) order).followed = some (.sync, want) :=
    follow_newer hwant
  have hsync : (s.enter .run (wantedOf symbols) order).stage .sync = s.stage .sync :=
    set_of_ne (by decide)
  obtain ⟨hlists, hnamed⟩ := h.entered horder
  refine ⟨fun hnone => ?_, fun d want' hd sym hsym => ?_, fun d want' hd sym hsym => ?_,
    fun want' hd => ?_, fun want' hd => ?_, hlists, hnamed⟩
  · cases hfollowed.symm.trans hnone
  · cases hfollowed.symm.trans hd
    exact h.within _ _ hwant sym (of_stopOthers hsym).2
  · cases hfollowed.symm.trans hd
    rw [hsync]
    rcases h.covered _ _ hwant sym hsym with hold | hleft
    · by_cases hin : sym ∈ wantedOf symbols
      · exact .inl fun hnone => hold ((stopOthers_stop hin).symm.trans hnone)
      · exact .inr (hkept sym hsym hold hin)
    · exact .inr hleft
  · cases hfollowed.symm.trans hd
  · cases hfollowed.symm.trans hd
    rw [hsync]
    exact h.bySync want hwant

/-- A call whose list is the newest stops the feeds of the other markets. -/
theorem Newest.stops_first {symbols order : List String} (h : s.Newest)
    (hc : s.stage c = .called symbols) (horder : order.Perm (wantedOf symbols))
    (hnone : c = .run → s.followed = none) :
    (s.enter c (wantedOf symbols) order).Newest := by
  have hfollowed : (s.enter c (wantedOf symbols) order).followed = some (c, wantedOf symbols) :=
    follow_own hnone
  have hself : (s.enter c (wantedOf symbols) order).stage c = .starting order := set_self
  obtain ⟨hlists, hnamed⟩ := h.entered horder
  refine ⟨fun hidle => ?_, fun d want' hd sym hsym => ?_, fun d want' hd sym hsym => ?_,
    fun want' hd => ?_, fun want' hd => ?_, hlists, hnamed⟩
  · cases hfollowed.symm.trans hidle
  · cases hfollowed.symm.trans hd
    exact (of_stopOthers hsym).1
  · cases hfollowed.symm.trans hd
    rw [hself]
    exact .inr (horder.mem_iff.mpr hsym)
  · cases hfollowed.symm.trans hd
    have hsync : (s.enter .run (wantedOf symbols) order).stage .sync = s.stage .sync :=
      set_of_ne (by decide)
    rw [hself, hsync]
    exact ⟨congrArg wantedOf (h.lists.1 symbols hc), rfl, (h.idle (hnone rfl)).2 _⟩
  · cases hfollowed.symm.trans hd
    rw [hself]
    exact ⟨fun hun => (by cases hun), fun _ => congrArg wantedOf (h.lists.2.1 symbols hc)⟩

/-- The synchroniser's last call has returned, or it has made none. -/
theorem Newest.read (h : s.Newest)
    (hsync : s.stage .sync = .uncalled ∨ s.stage .sync = .returned) : (s.read markets).Newest := by
  unfold SignalFeeds.read
  cases htold : (s.markets.sync markets).2 with
  | none =>
    dsimp only
    refine ⟨h.idle, h.within, h.covered, h.byRun, fun want hwant => ?_, ?_, h.named⟩
    · dsimp only
      rw [MarketSync.sync_untold htold]
      exact h.bySync want hwant
    · dsimp only
      rw [MarketSync.sync_untold htold]
      exact h.lists
  | some listed =>
    dsimp only
    have hleft : (s.stage .sync).left = [] := by
      rcases hsync with hun | hreturned
      · rw [hun]
        rfl
      · rw [hreturned]
        rfl
    refine ⟨fun hidle => ?_, h.within, fun d want hd sym hsym => ?_, fun want hd => ?_,
      fun want hd => ?_, ?_, fun d sym hsym => ?_⟩
    · refine ⟨(h.idle hidle).1, fun d => ?_⟩
      by_cases hd : d = .sync
      · subst hd
        rw [set_self]
        rfl
      · rw [set_of_ne hd]
        exact (h.idle hidle).2 d
    · refine (h.covered d want hd sym hsym).imp_right fun hin => ?_
      by_cases hsync : d = .sync
      · rw [hsync, hleft] at hin
        cases hin
      · rwa [set_of_ne hsync]
    · rw [set_self, set_of_ne (by decide)]
      exact ⟨(h.byRun want hd).1, (h.byRun want hd).2.1, rfl⟩
    · rw [set_self]
      exact ⟨fun hun => (by cases hun), fun hearly => (by cases hearly)⟩
    · rw [set_self, set_of_ne (by decide)]
      refine ⟨h.lists.1, fun l hl => ?_, fun hun => (by cases hun)⟩
      cases hl
      exact (MarketSync.sync_told htold).symm
    · by_cases hd : d = .sync
      · subst hd
        rw [set_self] at hsym
        cases hsym
      · rw [set_of_ne hd] at hsym
        exact h.named d sym hsym

/-- The signals start. -/
theorem Newest.run (h : s.Newest) (hrun : s.stage .run = .uncalled) :
    (s.set .run (.called s.first)).Newest := by
  have hself : (s.set .run (.called s.first)).stage .run = .called s.first := set_self
  have hsync : (s.set .run (.called s.first)).stage .sync = s.stage .sync := set_of_ne (by decide)
  have hleft : ∀ d, ((s.set .run (.called s.first)).stage d).left = (s.stage d).left := by
    intro d
    cases d with
    | run =>
      rw [hself, hrun]
      rfl
    | sync => rw [hsync]
  refine ⟨fun hidle => ⟨(h.idle hidle).1, fun d => ?_⟩, h.within, fun d want hd sym hsym => ?_,
    fun want hd => ?_, fun want hd => ?_, ⟨fun l hl => ?_, ?_⟩, fun d sym hsym => ?_⟩
  · cases d with
    | run =>
      rw [hself]
      rfl
    | sync =>
      rw [hsync]
      exact (h.idle hidle).2 .sync
  · rw [hleft]
    exact h.covered d want hd sym hsym
  · have hlate := (h.byRun want hd).2.1
    rw [hrun] at hlate
    cases hlate
  · rw [hsync]
    exact h.bySync want hd
  · rw [hself] at hl
    exact (EnsureStage.called.inj hl).symm
  · rw [hsync]
    exact h.lists.2
  · rw [hleft] at hsym
    exact h.named d sym hsym

theorem Step.tracked (h : s.Step a s') (hs : s.Tracked) (hok : s.InOrder a) : s'.Tracked := by
  cases h with
  | read _ => exact hs.read
  | run _ => exact hs.set
  | stops _ _ => exact hs.stopOthers.follow.set
  | running _ _ => exact hs.set
  | missing _ _ => exact hs.set
  | unmade _ _ _ => exact hs.set
  | registers hc _ =>
    simp only [InOrder, hc] at hok
    exact (hs.register hok.1).set
  | returns _ => exact hs.set

theorem Step.newest (h : s.Step a s') (hs : s.Newest) (hok : s.InOrder a) : s'.Newest := by
  cases h with
  | read hsync => exact hs.read hsync
  | run hrun => exact hs.run hrun
  | @stops c symbols order hc horder =>
    simp only [InOrder, hc] at hok
    by_cases hlate : c = .run ∧ ∃ want, s.followed = some (.sync, want)
    · obtain ⟨rfl, want, hwant⟩ := hlate
      exact hs.stops_late hwant horder (hok rfl want hwant)
    · refine hs.stops_first hc horder ?_
      rintro rfl
      refine hs.unfollowed ?_ fun want hwant => hlate ⟨rfl, want, hwant⟩
      rw [hc]
      rfl
  | @running c sym left n hc hstop =>
    refine hs.move (by rw [hc]; rfl) rfl (fun sym' hsym => ?_) fun sym' hsym => ?_
    · rw [hc]
      exact List.mem_cons_of_mem _ hsym
    · rw [hc] at hsym
      rcases List.mem_cons.mp hsym with rfl | hsym
      · exact .inl (hstop ▸ Option.some_ne_none n)
      · exact .inr hsym
  | @missing c sym left hc hstop =>
    refine hs.move (by rw [hc]; rfl) rfl (fun sym' hsym => ?_) fun sym' hsym => ?_
    · rwa [hc]
    · rw [hc] at hsym
      exact .inr hsym
  | @unmade c sym err left p hc hp herr =>
    have hne : sym ≠ "" := hs.named c sym (by rw [hc]; exact List.mem_cons_self)
    obtain ⟨f, hf⟩ := newFeedSet_ok hne hp
    cases herr.symm.trans hf
  | @registers c sym left hc _ =>
    simp only [InOrder, hc] at hok
    have hlate : s.followed ≠ none := by
      intro hidle
      have hearly := (hs.idle hidle).2 c
      rw [hc] at hearly
      cases hearly
    have hregistered : (s.register sym).Newest := hs.register hlate hok.2
    refine hregistered.move (by rw [SignalFeeds.register, hc]; rfl) rfl (fun sym' hsym => ?_)
      fun sym' hsym => ?_
    · rw [SignalFeeds.register]
      dsimp only
      rw [hc]
      exact List.mem_cons_of_mem _ hsym
    · rw [SignalFeeds.register] at hsym ⊢
      dsimp only at hsym ⊢
      rw [hc] at hsym
      rcases List.mem_cons.mp hsym with rfl | hsym
      · rw [Function.update_self]
        exact .inl (Option.some_ne_none _)
      · exact .inr hsym
  | @returns c hc =>
    refine hs.move (by rw [hc]; rfl) rfl (fun sym' hsym => ?_) fun sym' hsym => ?_
    · cases hsym
    · rw [hc] at hsym
      cases hsym

/-- With every call returned, the newest list followed is the one read last. -/
theorem Newest.settled (h : s.Newest) (hsettled : s.Settled) :
    ∃ c, s.followed = some (c, wantedOf s.markets.allowed) ∧ (s.stage c).left = [] := by
  obtain ⟨hrun, hsync⟩ := hsettled
  have hlate : s.followed ≠ none := by
    intro hidle
    have hearly := (h.idle hidle).2 .run
    rw [hrun] at hearly
    cases hearly
  obtain ⟨⟨c, want⟩, hwant⟩ := Option.ne_none_iff_exists'.mp hlate
  cases c with
  | run =>
    obtain ⟨rfl, -, hearly⟩ := h.byRun want hwant
    have huncalled : s.stage .sync = .uncalled := by
      refine hsync.resolve_right fun hreturned => ?_
      rw [hreturned] at hearly
      cases hearly
    refine ⟨.run, by rw [hwant, h.lists.2.2 huncalled], ?_⟩
    rw [hrun]
    rfl
  | sync =>
    obtain ⟨hcalled, hread⟩ := h.bySync want hwant
    have hreturned := hsync.resolve_left hcalled
    rw [hreturned] at hread
    refine ⟨.sync, by rw [hwant, hread rfl], ?_⟩
    rw [hreturned]
    rfl

/-- When the calls go on in order, the feeds follow the list read last once every call has returned. -/
theorem feeds_follow {wanted symbols : List String} {as : List EnsureAction}
    (h : Run Step InOrder (start wanted symbols) as s) (hsettled : s.Settled) :
    s.FollowsList (wantedOf s.markets.allowed) := by
  obtain ⟨htracked, hnewest⟩ : s.Tracked ∧ s.Newest := by
    exact h.invariant (I := fun t => t.Tracked ∧ t.Newest)
      ⟨start_tracked wanted symbols, start_newest wanted symbols⟩
      fun t a u ht hok hs => ⟨hs.tracked ht.1 hok, hs.newest ht.2 hok⟩
  obtain ⟨c, hfollowed, hleft⟩ := hnewest.settled hsettled
  have hrunning : ∀ sym, (∃ n, n < s.count ∧ s.started n = ⟨sym, false⟩) ↔
      sym ∈ wantedOf s.markets.allowed := by
    intro sym
    constructor
    · rintro ⟨n, hn, hstarted⟩
      have hstop := htracked.live n hn (by rw [hstarted])
      rw [hstarted] at hstop
      exact hnewest.within c _ hfollowed sym (hstop ▸ Option.some_ne_none n)
    · intro hsym
      have hstop := hnewest.covered c _ hfollowed sym hsym
      rw [hleft] at hstop
      obtain ⟨n, hn⟩ := Option.ne_none_iff_exists'.mp (hstop.resolve_right List.not_mem_nil)
      exact ⟨n, htracked.registered sym n hn⟩
  refine ⟨hrunning, fun n m hn hm hlive hlive' hsame => ?_, fun sym n hn hstarted => ?_,
    fun n hn hsym => ?_⟩
  · have hstop := htracked.live n hn hlive
    rw [hsame, htracked.live m hm hlive'] at hstop
    exact (Option.some.inj hstop).symm
  · have hstop := htracked.live n hn (by rw [hstarted])
    rw [hstarted] at hstop
    rw [htracked.agree]
    exact hstop
  · by_contra hlive
    rw [Bool.not_eq_true] at hlive
    have hlives : ∃ m, m < s.count ∧ s.started m = ⟨(s.started n).symbol, false⟩ :=
      ⟨n, hn, by rw [← hlive]⟩
    exact hsym ((hrunning _).mp hlives)

theorem registers_ok (hsym : sym ≠ "") : ∀ p ∈ signalPeriods, ∃ f, newFeedSet sym p = .ok f :=
  fun _ hp => newFeedSet_ok hsym hp

theorem perm_wantedOf {l : List String} (h : wantedOf l = l) : l.Perm (wantedOf l) := by
  rw [h]

/-- The signals start with the one market there is, and nothing changes. -/
theorem feeds_follow_bitcoin : ∃ s as, Run Step InOrder (start [] ["BTC"]) as s ∧ s.count = 1 ∧
    s.FollowsList (wantedOf ["BTC"]) := by
  have hstart : Run Step InOrder (start [] ["BTC"]) [] (start [] ["BTC"]) := .nil
  have hcalled := hstart.snoc (a := EnsureAction.run) trivial (.run rfl)
  have hentered := hcalled.snoc (a := EnsureAction.ensure .run) (fun _ want h => by cases h)
    (.stops rfl (perm_wantedOf (l := ["BTC"]) (by decide)))
  have hfound := hentered.snoc (a := EnsureAction.ensure .run) trivial (.missing rfl rfl)
  have hregistered := hfound.snoc (a := EnsureAction.ensure .run)
    ⟨rfl, fun c want h => by cases h; decide⟩ (.registers rfl (registers_ok (by decide)))
  have hreturned := hregistered.snoc (a := EnsureAction.ensure .run) trivial (.returns rfl)
  exact ⟨_, _, hreturned, rfl, feeds_follow hreturned ⟨rfl, .inl rfl⟩⟩

/-- Two goroutines may follow the lists in the wrong order, which leaves a feed of a market that is
gone; or both may find a market without a feed, which leaves two. -/
theorem feeds_astray :
    (∃ s as, Run Step Always (start [] ["BTC"]) as s ∧ s.Settled ∧ s.markets.allowed = ["ETH"] ∧
      ¬ s.FollowsList (wantedOf s.markets.allowed)) ∧
    ∃ s as, Run Step Always (start [] ["BTC"]) as s ∧ s.Settled ∧
      s.markets.allowed = ["BTC", "ETH"] ∧ ¬ s.FollowsList (wantedOf s.markets.allowed) := by
  have hbtc := perm_wantedOf (l := ["BTC"]) (by decide)
  have heth := perm_wantedOf (l := ["ETH"]) (by decide)
  have hboth := perm_wantedOf (l := ["BTC", "ETH"]) (by decide)
  have hmade : ∀ sym ∈ ["BTC", "ETH"], sym ≠ "" := by decide
  have hstart : Run Step Always (start [] ["BTC"]) [] (start [] ["BTC"]) := .nil
  constructor
  · -- The list read later is followed before the one the signals start with.
    have hread := hstart.snoc trivial (.read (.inl rfl) : Step _ (.read (.ok ["ETH"])) _)
    have hentered := hread.snoc trivial (.stops (c := .sync) rfl heth)
    have hfound := hentered.snoc trivial (.missing (c := .sync) rfl rfl)
    have hregistered := hfound.snoc trivial
      (.registers (c := .sync) rfl (registers_ok (hmade _ (by decide))))
    have hreturned := hregistered.snoc trivial (.returns (c := .sync) rfl)
    have hcalled := hreturned.snoc trivial (.run rfl)
    have hentered' := hcalled.snoc trivial (.stops (c := .run) rfl hbtc)
    have hfound' := hentered'.snoc trivial (.missing (c := .run) rfl rfl)
    have hregistered' := hfound'.snoc trivial
      (.registers (c := .run) rfl (registers_ok (hmade _ (by decide))))
    have hreturned' := hregistered'.snoc trivial (.returns (c := .run) rfl)
    refine ⟨_, _, hreturned', ⟨rfl, .inr rfl⟩, by decide, fun h => ?_⟩
    have hbitcoin : "BTC" ∈ wantedOf ["ETH"] := (h.running "BTC").mp ⟨1, by decide, by rfl⟩
    exact absurd hbitcoin (by decide)
  · -- Both find the market without a feed, and both give it one.
    have hcalled := hstart.snoc trivial (.run rfl)
    have hentered := hcalled.snoc trivial (.stops (c := .run) rfl hbtc)
    have hfound := hentered.snoc trivial (.missing (c := .run) rfl rfl)
    have hread := hfound.snoc trivial (.read (.inl rfl) : Step _ (.read (.ok ["BTC", "ETH"])) _)
    have hentered' := hread.snoc trivial (.stops (c := .sync) rfl hboth)
    have hfound' := hentered'.snoc trivial (.missing (c := .sync) rfl rfl)
    have hregistered' := hfound'.snoc trivial
      (.registers (c := .sync) rfl (registers_ok (hmade _ (by decide))))
    have hregistered := hregistered'.snoc trivial
      (.registers (c := .run) rfl (registers_ok (hmade _ (by decide))))
    have hreturned := hregistered.snoc trivial (.returns (c := .run) rfl)
    have hfound'' := hreturned.snoc trivial (.missing (c := .sync) rfl rfl)
    have hregistered'' := hfound''.snoc trivial
      (.registers (c := .sync) rfl (registers_ok (hmade _ (by decide))))
    have hreturned' := hregistered''.snoc trivial (.returns (c := .sync) rfl)
    refine ⟨_, _, hreturned', ⟨rfl, .inr rfl⟩, by decide, fun h => ?_⟩
    have hone : (0 : ℕ) = 1 := h.one 0 1 (by decide) (by decide) rfl rfl rfl
    cases hone

end SignalFeeds

end SuperAgent.Platform
