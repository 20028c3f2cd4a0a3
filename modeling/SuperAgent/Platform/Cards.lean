import SuperAgent.Core.Clock
import SuperAgent.Core.Run
import SuperAgent.Core.Text

/-!
# Market cards

A market's card is fetched when somebody asks and the last one is too old. The
entry of a market is filled from the store the process before kept, then from
the source; the lock is dropped around both, and whoever comes meanwhile waits
for the refresh under way and decides anew.
-/

namespace SuperAgent.Platform

/-- Where a market's asset lives on-chain. -/
structure TokenRef where
  chain : String
  address : String
  symbol : String

/-- A market's card. -/
structure Card (φ : Type) where
  symbol : String
  chain : String
  tokenAddress : String
  figures : φ
  stale : Bool

/-- The card of a market that has none. -/
def Card.zero {φ : Type} [Inhabited φ] : Card φ := ⟨"", "", "", default, false⟩

/-- What is known of a market. A refresh under way has a channel that is closed when it ends. -/
structure CardEntry (φ ε : Type) where
  card : Card φ
  fetched : Time
  err : Option ε
  inflight : Option ℕ

/-- The markets that have a card, and how long it is fresh. No market is without a name. -/
structure MarketContext where
  tokens : String → Option TokenRef
  ttl : Duration
  named : tokens "" = none

/-- How long a failed refresh with nothing to serve is remembered. -/
def contextRetry : Duration := Duration.minute

/-- What a call asks for, and when it was made. -/
structure Asked where
  symbol : String
  ref : TokenRef
  began : Time

/-- Why a call has no card. -/
inductive CardError (ε : Type)
  | canceled
  | source (e : ε)

/-- Where a call is. -/
inductive CardStage (φ ε : Type)
  | uncalled
  /-- There is no market of that name. -/
  | refused (symbol : String)
  | looking (q : Asked)
  | waiting (q : Asked) (wait : ℕ)
  | restoring (q : Asked)
  | restored (q : Asked) (kept : Option (Card φ × Time))
  | fetching (q : Asked)
  | fetched (q : Asked) (r : Except ε (Card φ)) (ended : Time)
  /-- Its card is kept if it could be, and the entry is still as it was. -/
  | saved (q : Asked) (r : Except ε (Card φ)) (ended : Time)
  | returned (q : Asked) (r : Except (CardError ε) (Card φ))
  /-- Its process ended. -/
  | lost

/-- The market a call refreshes. -/
def CardStage.refreshing {φ ε : Type} : CardStage φ ε → Option String
  | .fetching q => some q.symbol
  | .fetched q _ _ => some q.symbol
  | .saved q _ _ => some q.symbol
  | _ => none

/-- What is left of a call when its process ends. -/
def CardStage.cut {φ ε : Type} : CardStage φ ε → CardStage φ ε
  | .uncalled => .uncalled
  | .refused symbol => .refused symbol
  | .returned q r => .returned q r
  | _ => .lost

/-- A refresh that began, and whether there was no card to serve. -/
structure Attempt where
  symbol : String
  process : ℕ
  began : Time
  bare : Bool

/-- What a fetch ended with. -/
structure Fetch (φ ε : Type) where
  symbol : String
  process : ℕ
  call : ℕ
  result : Except ε (Card φ)
  ended : Time

/-- What has happened, the last first. -/
structure CardLog (φ ε : Type) where
  now : Time
  process : ℕ
  fetches : List (Fetch φ ε)
  attempts : List Attempt

/-- The entries of a process, the rows of the store, and the calls. -/
structure Cards (φ ε : Type) where
  entries : String → Option (CardEntry φ ε)
  kept : String → Option (Card φ × Time)
  chans : ℕ
  closed : ℕ → Bool
  calls : ℕ → CardStage φ ε
  log : CardLog φ ε

/-- What happens next: the clock advances, a call goes on, or the process ends and another begins. -/
inductive CardAction
  | tick (t : Time)
  | call (i : ℕ)
  | restart

/-- The card the source's answer makes. -/
def fetchedCard {φ : Type} (q : Asked) (figures : φ) : Card φ :=
  ⟨q.symbol, q.ref.chain, q.ref.address, figures, false⟩

/-- The card the store kept. One that cannot be read is treated as none. -/
def restore {φ : Type} (row : Option (Card φ × Time)) (readable : Bool) : Option (Card φ × Time) :=
  if readable then row.filter fun k => k.1.symbol ≠ "" else none

namespace CardEntry

variable {φ ε : Type}

/-- An entry whose card is young enough. -/
def Serves (ttl : Duration) (now : Time) (e : CardEntry φ ε) : Prop :=
  e.card.symbol ≠ "" ∧ now.sub e.fetched < ttl

/-- An entry with nothing to serve and an attempt not long ago, which failed. -/
def Refuses (now : Time) (e : CardEntry φ ε) : Prop :=
  e.card.symbol = "" ∧ e.err ≠ none ∧ now.sub e.fetched < contextRetry

/-- The entry of a market before its first refresh. -/
def new [Inhabited φ] (kept : Option (Card φ × Time)) : CardEntry φ ε :=
  match kept with
  | none => ⟨.zero, 0, none, none⟩
  | some (c, fetched) => ⟨c, fetched, none, none⟩

/-- The entry after a refresh: the last good card stays when it failed, and is marked. -/
def land (e : CardEntry φ ε) (r : Except ε (Card φ)) (ended : Time) : CardEntry φ ε :=
  match r with
  | .ok c => ⟨c, ended, none, none⟩
  | .error x =>
    ⟨if e.card.symbol ≠ "" then { e.card with stale := true } else e.card, ended, some x, none⟩

/-- What the call that refreshed returns. -/
def answer (e : CardEntry φ ε) (r : Except ε (Card φ)) (ended : Time) :
    Except (CardError ε) (Card φ) :=
  match r with
  | .ok _ => .ok (e.land r ended).card
  | .error x =>
    if (e.land r ended).card.symbol ≠ "" then .ok (e.land r ended).card else .error (.source x)

end CardEntry

namespace Cards

variable {φ ε : Type} (s : Cards φ ε)

/-- Before the first call of the first process. -/
def start (now : Time) : Cards φ ε :=
  ⟨fun _ => none, fun _ => none, 0, fun _ => false, fun _ => .uncalled, ⟨now, 0, [], []⟩⟩

/-- A call goes on. -/
def set (i : ℕ) (stage : CardStage φ ε) : Cards φ ε :=
  { s with calls := Function.update s.calls i stage }

/-- An entry changes. -/
def enter (symbol : String) (e : CardEntry φ ε) : Cards φ ε :=
  { s with entries := Function.update s.entries symbol (some e) }

/-- A market gets its first entry, unless it has one by now. -/
def place [Inhabited φ] (symbol : String) (kept : Option (Card φ × Time)) : Cards φ ε :=
  match s.entries symbol with
  | none => s.enter symbol (.new kept)
  | some _ => s

/-- A refresh begins. -/
def begin (symbol : String) (e : CardEntry φ ε) : Cards φ ε :=
  { s.enter symbol { e with inflight := some s.chans } with
    chans := s.chans + 1
    log := { s.log with
      attempts := ⟨symbol, s.log.process, s.log.now, e.card.symbol = ""⟩ :: s.log.attempts } }

/-- The source has answered, or has not. -/
def heard (i : ℕ) (symbol : String) (r : Except ε (Card φ)) : Cards φ ε :=
  { s with log := { s.log with
      fetches := ⟨symbol, s.log.process, i, r, s.log.now⟩ :: s.log.fetches } }

/-- The store keeps a card, and the time it was fetched to the microsecond. -/
def save (symbol : String) (c : Card φ) (ended : Time) : Cards φ ε :=
  { s with kept := Function.update s.kept symbol (some (c, ended.micros)) }

/-- A refresh ends, and those who wait for it go on. -/
def finish (symbol : String) (e : CardEntry φ ε) (w : ℕ) (r : Except ε (Card φ)) (ended : Time) :
    Cards φ ε :=
  { s.enter symbol (e.land r ended) with closed := Function.update s.closed w true }

/-- The process ends. The store is what is left of it. -/
def restart : Cards φ ε where
  entries := fun _ => none
  kept := s.kept
  chans := s.chans
  closed := s.closed
  calls := fun i => (s.calls i).cut
  log := { s.log with process := s.log.process + 1 }

end Cards

/-- One turn of a call between two places where the lock is dropped. Without a store nothing is read
and nothing is saved. -/
inductive MarketContext.Step {φ ε : Type} [Inhabited φ] (m : MarketContext) (s : Cards φ ε) :
    CardAction → Cards φ ε → Prop
  | tick {t : Time} : s.log.now ≤ t → m.Step s (.tick t) { s with log := { s.log with now := t } }
  | restart : m.Step s .restart s.restart
  | refused {i : ℕ} {symbol : String} : s.calls i = .uncalled →
    m.tokens (toUpper (trimSpace symbol)) = none → m.Step s (.call i) (s.set i (.refused symbol))
  | called {i : ℕ} {symbol : String} {ref : TokenRef} : s.calls i = .uncalled →
    m.tokens (toUpper (trimSpace symbol)) = some ref →
    m.Step s (.call i) (s.set i (.looking ⟨toUpper (trimSpace symbol), ref, s.log.now⟩))
  | serves {i : ℕ} {q : Asked} {e : CardEntry φ ε} : s.calls i = .looking q →
    s.entries q.symbol = some e → e.inflight = none → e.Serves m.ttl s.log.now →
    m.Step s (.call i) (s.set i (.returned q (.ok e.card)))
  | refuses {i : ℕ} {q : Asked} {e : CardEntry φ ε} {x : ε} : s.calls i = .looking q →
    s.entries q.symbol = some e → e.inflight = none → e.Refuses s.log.now → e.err = some x →
    m.Step s (.call i) (s.set i (.returned q (.error (.source x))))
  | waits {i w : ℕ} {q : Asked} {e : CardEntry φ ε} : s.calls i = .looking q →
    s.entries q.symbol = some e → e.inflight = some w → m.Step s (.call i) (s.set i (.waiting q w))
  | restores {i : ℕ} {q : Asked} : s.calls i = .looking q → s.entries q.symbol = none →
    m.Step s (.call i) (s.set i (.restoring q))
  | begins {i : ℕ} {q : Asked} {e : CardEntry φ ε} : s.calls i = .looking q →
    s.entries q.symbol = some e → e.inflight = none → ¬e.Serves m.ttl s.log.now →
    ¬e.Refuses s.log.now → m.Step s (.call i) ((s.begin q.symbol e).set i (.fetching q))
  | woken {i w : ℕ} {q : Asked} : s.calls i = .waiting q w → s.closed w →
    m.Step s (.call i) (s.set i (.looking q))
  | canceled {i w : ℕ} {q : Asked} : s.calls i = .waiting q w →
    m.Step s (.call i) (s.set i (.returned q (.error .canceled)))
  | restored {i : ℕ} {q : Asked} {readable : Bool} : s.calls i = .restoring q →
    m.Step s (.call i) (s.set i (.restored q (restore (s.kept q.symbol) readable)))
  | places {i : ℕ} {q : Asked} {kept : Option (Card φ × Time)} : s.calls i = .restored q kept →
    m.Step s (.call i) ((s.place q.symbol kept).set i (.looking q))
  | fetches {i : ℕ} {q : Asked} {figures : φ} : s.calls i = .fetching q →
    m.Step s (.call i) ((s.heard i q.symbol (.ok (fetchedCard q figures))).set i
      (.fetched q (.ok (fetchedCard q figures)) s.log.now))
  | fails {i : ℕ} {q : Asked} {x : ε} : s.calls i = .fetching q →
    m.Step s (.call i) ((s.heard i q.symbol (.error x)).set i (.fetched q (.error x) s.log.now))
  | saves {i : ℕ} {q : Asked} {c : Card φ} {ended : Time} : s.calls i = .fetched q (.ok c) ended →
    m.Step s (.call i) ((s.save q.symbol c ended).set i (.saved q (.ok c) ended))
  | unsaved {i : ℕ} {q : Asked} {r : Except ε (Card φ)} {ended : Time} :
    s.calls i = .fetched q r ended → m.Step s (.call i) (s.set i (.saved q r ended))
  | lands {i w : ℕ} {q : Asked} {e : CardEntry φ ε} {r : Except ε (Card φ)} {ended : Time} :
    s.calls i = .saved q r ended → s.entries q.symbol = some e → e.inflight = some w →
    m.Step s (.call i) ((s.finish q.symbol e w r ended).set i (.returned q (e.answer r ended)))

namespace CardLog

variable {φ ε : Type} (l : CardLog φ ε)

/-- The last fetch of a market. -/
def last (symbol : String) : Option (Fetch φ ε) := l.fetches.find? fun f => f.symbol = symbol

def Failed (symbol : String) : Prop := ∃ f x, l.last symbol = some f ∧ f.result = .error x

/-- A card as it was fetched, at that time or a little later. -/
structure Succeeded (symbol : String) (c : Card φ) (fetched : Time) : Prop where
  asked : c.symbol = symbol
  unmarked : c.stale = false
  heard : ∃ f ∈ l.fetches, f.symbol = symbol ∧ f.result = .ok c ∧ fetched ≤ f.ended

/-- Every attempt of this process on a market began by then. -/
def TriedBy (symbol : String) (t : Time) : Prop :=
  ∀ a ∈ l.attempts, a.symbol = symbol → a.process = l.process → a.began ≤ t

/-- No attempt of this process on a market. -/
def Untried (symbol : String) : Prop :=
  ∀ a ∈ l.attempts, a.symbol = symbol → a.process ≠ l.process

/-- What an entry says that no refresh is changing. -/
structure Settled (symbol : String) (e : CardEntry φ ε) : Prop where
  dated : e.card.symbol ≠ "" → e.card.stale = false → l.Succeeded symbol e.card e.fetched
  failed : e.card.stale = true → l.Failed symbol
  tried : l.TriedBy symbol e.fetched
  told : l.Untried symbol ∨ e.card.symbol ≠ "" ∨ e.err ≠ none

/-- What a call asks for is a market. -/
structure Asks (q : Asked) : Prop where
  named : q.symbol ≠ ""
  began : q.began ≤ l.now

/-- A call's fetch is the last of its market. -/
structure Ended (i : ℕ) (q : Asked) (r : Except ε (Card φ)) (ended : Time) : Prop where
  last : l.last q.symbol = some ⟨q.symbol, l.process, i, r, ended⟩
  card : ∀ c, r = .ok c → c.symbol = q.symbol ∧ c.stale = false
  tried : l.TriedBy q.symbol ended

/-- A card a call may return: one of its market, which a call of this process or of an earlier one
fetched less than the TTL before, or the call itself, or which is marked after a failure. -/
structure Served (ttl : Duration) (i : ℕ) (q : Asked) (c : Card φ) : Prop where
  asked : c.symbol = q.symbol
  named : c.symbol ≠ ""
  unmarked : c.stale = false → ∃ f ∈ l.fetches, f.symbol = q.symbol ∧ f.result = .ok c ∧
    f.process ≤ l.process ∧ (f.call = i ∨ q.began - f.ended < ttl.toInt)
  marked : c.stale = true → l.Failed q.symbol

/-- What is known of where a call is. -/
def Fits (i : ℕ) : CardStage φ ε → Prop
  | .looking q => l.Asks q
  | .waiting q _ => l.Asks q
  | .restoring q => l.Asks q
  | .restored q kept => l.Asks q ∧ ∀ c fetched, kept = some (c, fetched) →
      l.Succeeded q.symbol c fetched
  | .fetching q => l.Asks q
  | .fetched q r ended => l.Asks q ∧ l.Ended i q r ended
  | .saved q r ended => l.Asks q ∧ l.Ended i q r ended
  | _ => True

end CardLog

namespace Cards

variable {φ ε : Type}

/-- Who refreshes what, and who waits for it. -/
structure Flights (s : Cards φ ε) : Prop where
  alone : ∀ i j symbol, (s.calls i).refreshing = some symbol →
    (s.calls j).refreshing = some symbol → i = j
  signal : ∀ i symbol, (s.calls i).refreshing = some symbol →
    ∃ e w, s.entries symbol = some e ∧ e.inflight = some w
  flight : ∀ symbol e w, s.entries symbol = some e → e.inflight = some w →
    ∃ i, (s.calls i).refreshing = some symbol
  waits : ∀ i q w, s.calls i = .waiting q w →
    s.closed w ∨ ∃ e, s.entries q.symbol = some e ∧ e.inflight = some w

/-- Nobody tries twice within the retry interval in one process with nothing to serve. -/
def Apart (new old : Attempt) : Prop :=
  new.symbol = old.symbol → new.process = old.process → new.bare →
    contextRetry.toInt ≤ new.began - old.began

/-- What holds in every state. -/
structure Sound (s : Cards φ ε) : Prop where
  flights : s.Flights
  asked : ∀ symbol e, s.entries symbol = some e → e.card.symbol ≠ "" → e.card.symbol = symbol
  settled : ∀ symbol e, s.entries symbol = some e → e.inflight = none → s.log.Settled symbol e
  untried : ∀ symbol, s.entries symbol = none → s.log.Untried symbol
  kept : ∀ symbol c fetched, s.kept symbol = some (c, fetched) → s.log.Succeeded symbol c fetched
  fits : ∀ i, s.log.Fits i (s.calls i)
  past : ∀ a ∈ s.log.attempts, a.began ≤ s.log.now ∧ a.process ≤ s.log.process
  heard : ∀ f ∈ s.log.fetches, f.process ≤ s.log.process
  apart : s.log.attempts.Pairwise Apart

variable {s t : Cards φ ε} {a : CardAction} {i j w : ℕ} {q : Asked} {stage : CardStage φ ε}
  {symbol : String} {e : CardEntry φ ε} {r : Except ε (Card φ)} {ended now : Time}
  {kept : Option (Card φ × Time)}

@[simp] theorem set_self : (s.set i stage).calls i = stage := Function.update_self _ _ _

@[simp] theorem set_of_ne (h : j ≠ i) : (s.set i stage).calls j = s.calls j :=
  Function.update_of_ne h _ _

@[simp] theorem enter_self : (s.enter symbol e).entries symbol = some e := Function.update_self _ _ _

/-! ## Refreshes -/

/-- A call that refreshes what it did, or nothing as before, leaves the refreshes as they are. -/
theorem Flights.set (h : s.Flights) (hr : stage.refreshing = (s.calls i).refreshing)
    (hw : ∀ q w, stage = .waiting q w →
      s.closed w ∨ ∃ e, s.entries q.symbol = some e ∧ e.inflight = some w) :
    (s.set i stage).Flights := by
  have hsame : ∀ j, ((s.set i stage).calls j).refreshing = (s.calls j).refreshing := by
    intro j
    by_cases hji : j = i
    · subst hji
      rw [set_self, hr]
    · rw [set_of_ne hji]
  constructor
  · intro j k symbol hj hk
    rw [hsame] at hj hk
    exact h.alone j k symbol hj hk
  · intro j symbol hj
    rw [hsame] at hj
    exact h.signal j symbol hj
  · intro symbol e w he hflight
    obtain ⟨j, hj⟩ := h.flight symbol e w he hflight
    exact ⟨j, (hsame j).trans hj⟩
  · intro j q w hj
    by_cases hji : j = i
    · subst hji
      rw [set_self] at hj
      exact hw q w hj
    · rw [set_of_ne hji] at hj
      exact h.waits j q w hj

theorem begin_self : (s.begin symbol e).entries symbol = some { e with inflight := some s.chans } :=
  Function.update_self _ _ _

theorem begin_of_ne {other : String} (h : other ≠ symbol) :
    (s.begin symbol e).entries other = s.entries other :=
  Function.update_of_ne h _ _

theorem finish_self (w : ℕ) : (s.finish symbol e w r ended).entries symbol = some (e.land r ended) :=
  Function.update_self _ _ _

theorem finish_of_ne (w : ℕ) {other : String} (h : other ≠ symbol) :
    (s.finish symbol e w r ended).entries other = s.entries other :=
  Function.update_of_ne h _ _

theorem inflight_land : (e.land r ended).inflight = none := by
  cases r <;> rfl

/-- A refresh begins where there is none. -/
theorem Flights.begin (h : s.Flights) (hi : s.calls i = .looking q)
    (he : s.entries q.symbol = some e) (hidle : e.inflight = none) :
    ((s.begin q.symbol e).set i (.fetching q)).Flights := by
  have hnobody : ∀ j, (s.calls j).refreshing ≠ some q.symbol := by
    intro j hj
    obtain ⟨d, w, hd, hw⟩ := h.signal j q.symbol hj
    cases he.symm.trans hd
    cases hidle.symm.trans hw
  have hcases : ∀ j symbol, (((s.begin q.symbol e).set i (.fetching q)).calls j).refreshing =
      some symbol → j = i ∧ symbol = q.symbol ∨ j ≠ i ∧ symbol ≠ q.symbol ∧
        (s.calls j).refreshing = some symbol := by
    intro j symbol hj
    by_cases hji : j = i
    · subst hji
      rw [set_self] at hj
      exact .inl ⟨rfl, (Option.some.inj hj).symm⟩
    · rw [set_of_ne hji] at hj
      refine .inr ⟨hji, ?_, hj⟩
      rintro rfl
      exact hnobody j hj
  constructor
  · intro j k symbol hj hk
    rcases hcases j symbol hj with ⟨rfl, rfl⟩ | ⟨hji, hne, hj⟩
    · rcases hcases k _ hk with ⟨rfl, -⟩ | ⟨-, hne, -⟩
      · rfl
      · exact absurd rfl hne
    · rcases hcases k symbol hk with ⟨rfl, hq⟩ | ⟨-, -, hk⟩
      · exact absurd hq hne
      · exact h.alone j k symbol hj hk
  · intro j symbol hj
    rcases hcases j symbol hj with ⟨rfl, rfl⟩ | ⟨-, hne, hj⟩
    · exact ⟨_, _, begin_self, rfl⟩
    · obtain ⟨d, w, hd, hw⟩ := h.signal j symbol hj
      exact ⟨d, w, (begin_of_ne hne).trans hd, hw⟩
  · intro symbol d w hd hw
    by_cases hsymbol : symbol = q.symbol
    · exact ⟨i, by rw [set_self, hsymbol]; rfl⟩
    · obtain ⟨j, hj⟩ := h.flight symbol d w ((begin_of_ne hsymbol).symm.trans hd) hw
      have hji : j ≠ i := by
        rintro rfl
        rw [hi] at hj
        cases hj
      exact ⟨j, by rw [set_of_ne hji]; exact hj⟩
  · intro j p w hj
    have hji : j ≠ i := by
      rintro rfl
      rw [set_self] at hj
      cases hj
    rw [set_of_ne hji] at hj
    rcases h.waits j p w hj with hclosed | ⟨d, hd, hw⟩
    · exact .inl hclosed
    · have hne : p.symbol ≠ q.symbol := by
        intro heq
        cases he.symm.trans (heq ▸ hd)
        cases hidle.symm.trans hw
      exact .inr ⟨d, (begin_of_ne hne).trans hd, hw⟩

/-- A refresh ends, and its channel is closed. -/
theorem Flights.finish (h : s.Flights) {r' : Except (CardError ε) (Card φ)}
    (hi : s.calls i = .saved q r ended) (he : s.entries q.symbol = some e)
    (hflight : e.inflight = some w) :
    ((s.finish q.symbol e w r ended).set i (.returned q r')).Flights := by
  have hthis : (s.calls i).refreshing = some q.symbol := by
    rw [hi]
    rfl
  have hcases : ∀ j symbol,
      (((s.finish q.symbol e w r ended).set i (.returned q r')).calls j).refreshing = some symbol →
        symbol ≠ q.symbol ∧ (s.calls j).refreshing = some symbol := by
    intro j symbol hj
    have hji : j ≠ i := by
      rintro rfl
      rw [set_self] at hj
      cases hj
    rw [set_of_ne hji] at hj
    refine ⟨?_, hj⟩
    rintro rfl
    exact hji (h.alone j i _ hj hthis)
  constructor
  · intro j k symbol hj hk
    exact h.alone j k symbol (hcases j symbol hj).2 (hcases k symbol hk).2
  · intro j symbol hj
    obtain ⟨hne, hj⟩ := hcases j symbol hj
    obtain ⟨d, v, hd, hv⟩ := h.signal j symbol hj
    exact ⟨d, v, (finish_of_ne w hne).trans hd, hv⟩
  · intro symbol d v hd hv
    by_cases hsymbol : symbol = q.symbol
    · subst hsymbol
      cases (finish_self w).symm.trans hd
      cases inflight_land.symm.trans hv
    · obtain ⟨j, hj⟩ := h.flight symbol d v ((finish_of_ne w hsymbol).symm.trans hd) hv
      have hji : j ≠ i := by
        rintro rfl
        exact hsymbol (Option.some.inj (hj.symm.trans hthis))
      exact ⟨j, by rw [set_of_ne hji]; exact hj⟩
  · intro j p v hj
    have hji : j ≠ i := by
      rintro rfl
      rw [set_self] at hj
      cases hj
    rw [set_of_ne hji] at hj
    change Function.update s.closed w true v = true ∨ _
    by_cases hvw : v = w
    · subst hvw
      exact .inl (Function.update_self _ _ _)
    · rw [Function.update_of_ne hvw]
      rcases h.waits j p v hj with hclosed | ⟨d, hd, hv⟩
      · exact .inl hclosed
      · have hne : p.symbol ≠ q.symbol := by
          intro heq
          cases he.symm.trans (heq ▸ hd)
          exact hvw (Option.some.inj (hv.symm.trans hflight))
        exact .inr ⟨d, (finish_of_ne w hne).trans hd, hv⟩

theorem inflight_new [Inhabited φ] : (CardEntry.new kept : CardEntry φ ε).inflight = none := by
  cases kept <;> rfl

/-- A market has the entry it had, or its first one. -/
theorem place_cases [Inhabited φ] (s : Cards φ ε) (symbol : String)
    (kept : Option (Card φ × Time)) (other : String) :
    (s.place symbol kept).entries other = s.entries other ∨
      other = symbol ∧ s.entries symbol = none ∧
        (s.place symbol kept).entries other = some (.new kept) := by
  unfold place
  split
  · next hnone =>
    by_cases hother : other = symbol
    · subst hother
      exact .inr ⟨rfl, hnone, enter_self⟩
    · exact .inl (Function.update_of_ne hother _ _)
  · exact .inl rfl

theorem place_calls [Inhabited φ] : (s.place symbol kept).calls = s.calls := by
  unfold place
  split <;> rfl

theorem place_closed [Inhabited φ] : (s.place symbol kept).closed = s.closed := by
  unfold place
  split <;> rfl

theorem place_log [Inhabited φ] : (s.place symbol kept).log = s.log := by
  unfold place
  split <;> rfl

theorem place_kept [Inhabited φ] : (s.place symbol kept).kept = s.kept := by
  unfold place
  split <;> rfl

theorem Flights.place [Inhabited φ] (h : s.Flights) (kept : Option (Card φ × Time))
    (symbol : String) : (s.place symbol kept).Flights := by
  have hkeeps : ∀ other d w, s.entries other = some d → d.inflight = some w →
      (s.place symbol kept).entries other = some d := by
    intro other d w hd _
    rcases place_cases s symbol kept other with hsame | ⟨rfl, hnone, -⟩
    · exact hsame.trans hd
    · cases hnone.symm.trans hd
  constructor
  · rw [place_calls]
    exact h.alone
  · intro j other hj
    rw [place_calls] at hj
    obtain ⟨d, w, hd, hw⟩ := h.signal j other hj
    exact ⟨d, w, hkeeps other d w hd hw, hw⟩
  · intro other d w hd hw
    rw [place_calls]
    rcases place_cases s symbol kept other with hsame | ⟨rfl, -, hnew⟩
    · exact h.flight other d w (hsame.symm.trans hd) hw
    · cases hnew.symm.trans hd
      cases inflight_new.symm.trans hw
  · intro j p w hj
    rw [place_calls] at hj
    rw [place_closed]
    rcases h.waits j p w hj with hclosed | ⟨d, hd, hw⟩
    · exact .inl hclosed
    · exact .inr ⟨d, hkeeps p.symbol d w hd hw, hw⟩

end Cards

/-! ## What is known of a market -/

namespace CardLog

variable {φ ε : Type} {l l' : CardLog φ ε} {symbol other : String} {c : Card φ} {t u : Time}
  {e : CardEntry φ ε} {q : Asked} {r : Except ε (Card φ)} {i : ℕ} {stage : CardStage φ ε}

/-- More has happened, and nothing to one market. -/
structure Keeps (l l' : CardLog φ ε) (symbol : String) : Prop where
  process : l'.process = l.process
  last : l'.last symbol = l.last symbol
  attempts : ∀ a ∈ l'.attempts, a.symbol = symbol → a ∈ l.attempts

/-- More has happened. -/
structure Extends (l l' : CardLog φ ε) : Prop where
  now : l.now ≤ l'.now
  fetches : l.fetches ⊆ l'.fetches

theorem Succeeded.mono (h : l.Succeeded symbol c t) (hsub : l.fetches ⊆ l'.fetches) :
    l'.Succeeded symbol c t := by
  obtain ⟨f, hf, hheard⟩ := h.heard
  exact ⟨h.asked, h.unmarked, f, hsub hf, hheard⟩

theorem Succeeded.earlier (h : l.Succeeded symbol c t) (hle : u ≤ t) : l.Succeeded symbol c u := by
  obtain ⟨f, hf, hsymbol, hresult, ht⟩ := h.heard
  exact ⟨h.asked, h.unmarked, f, hf, hsymbol, hresult, hle.trans ht⟩

theorem Failed.keeps (h : l.Failed symbol) (hk : l.Keeps l' symbol) : l'.Failed symbol := by
  obtain ⟨f, x, hlast, hresult⟩ := h
  exact ⟨f, x, hk.last.trans hlast, hresult⟩

theorem TriedBy.keeps (h : l.TriedBy symbol t) (hk : l.Keeps l' symbol) : l'.TriedBy symbol t :=
  fun a ha hsymbol hprocess => h a (hk.attempts a ha hsymbol) hsymbol (hprocess.trans hk.process)

theorem Untried.keeps (h : l.Untried symbol) (hk : l.Keeps l' symbol) : l'.Untried symbol :=
  fun a ha hsymbol hprocess => h a (hk.attempts a ha hsymbol) hsymbol (hprocess.trans hk.process)

theorem Untried.triedBy (h : l.Untried symbol) : l.TriedBy symbol t :=
  fun a ha hsymbol hprocess => absurd hprocess (h a ha hsymbol)

theorem Settled.keeps (h : l.Settled symbol e) (hk : l.Keeps l' symbol)
    (hsub : l.fetches ⊆ l'.fetches) : l'.Settled symbol e where
  dated hcard hunmarked := (h.dated hcard hunmarked).mono hsub
  failed hstale := (h.failed hstale).keeps hk
  tried := h.tried.keeps hk
  told := h.told.imp_left fun hnone => hnone.keeps hk

theorem Ended.keeps (h : l.Ended i q r t) (hk : l.Keeps l' q.symbol) : l'.Ended i q r t where
  last := by rw [hk.last, h.last, hk.process]
  card := h.card
  tried := h.tried.keeps hk

theorem Asks.extends (h : l.Asks q) (hext : l.Extends l') : l'.Asks q :=
  ⟨h.named, h.began.trans hext.now⟩

/-- What is known of a call stays so while nothing happens to the market it refreshes. -/
theorem Fits.extends (h : l.Fits i stage) (hext : l.Extends l')
    (hk : ∀ symbol, stage.refreshing = some symbol → l.Keeps l' symbol) : l'.Fits i stage := by
  cases stage with
  | uncalled => trivial
  | refused _ => trivial
  | looking q => exact Asks.extends h hext
  | waiting q _ => exact Asks.extends h hext
  | restoring q => exact Asks.extends h hext
  | restored q kept => exact ⟨h.1.extends hext, fun c t hc => (h.2 c t hc).mono hext.fetches⟩
  | fetching q => exact Asks.extends h hext
  | fetched q r ended => exact ⟨h.1.extends hext, h.2.keeps (hk _ rfl)⟩
  | saved q r ended => exact ⟨h.1.extends hext, h.2.keeps (hk _ rfl)⟩
  | returned _ _ => trivial
  | lost => trivial

theorem fits_cut : l.Fits i stage.cut := by
  cases stage <;> trivial

/-- A market's first entry says what the store kept. -/
theorem settled_new [Inhabited φ] {kept : Option (Card φ × Time)} (huntried : l.Untried symbol)
    (hkept : ∀ c t, kept = some (c, t) → l.Succeeded symbol c t) :
    l.Settled symbol (.new kept) := by
  cases kept with
  | none =>
    refine ⟨fun hcard => absurd rfl hcard, fun hstale => ?_, huntried.triedBy, .inl huntried⟩
    cases hstale
  | some k =>
    obtain ⟨c, t⟩ := k
    have hsucceeded := hkept c t rfl
    refine ⟨fun _ _ => hsucceeded, fun hstale => ?_, huntried.triedBy, .inl huntried⟩
    cases hsucceeded.unmarked.symm.trans hstale

theorem Ended.succeeded (h : l.Ended i q (.ok c) t) : l.Succeeded q.symbol c t := by
  obtain ⟨hsymbol, hunmarked⟩ := h.card c rfl
  exact ⟨hsymbol, hunmarked, _, List.mem_of_find?_eq_some h.last, rfl, rfl, le_rfl⟩

theorem Ended.failed {x : ε} (h : l.Ended i q (.error x) t) : l.Failed q.symbol :=
  ⟨_, x, h.last, rfl⟩

/-- A refresh leaves the entry as its fetch ended. -/
theorem settled_land (h : l.Ended i q r t) (hnamed : q.symbol ≠ "") : l.Settled q.symbol (e.land r t) := by
  cases r with
  | ok c =>
    have hsucceeded := h.succeeded
    refine ⟨fun _ _ => hsucceeded, fun hstale => ?_, h.tried, ?_⟩
    · cases hsucceeded.unmarked.symm.trans hstale
    · exact .inr (.inl (hsucceeded.asked ▸ hnamed))
  | error x =>
    refine ⟨fun hcard hunmarked => ?_, fun _ => h.failed, h.tried, .inr (.inr (Option.some_ne_none x))⟩
    by_cases hempty : e.card.symbol = ""
    · rw [CardEntry.land, if_neg (not_not.mpr hempty)] at hcard
      exact absurd hempty hcard
    · rw [CardEntry.land, if_pos hempty] at hunmarked
      cases hunmarked

end CardLog

namespace Cards

variable {φ ε : Type} {s t : Cards φ ε} {a : CardAction} {i j w : ℕ} {q : Asked}
  {stage : CardStage φ ε} {symbol : String} {e : CardEntry φ ε} {r : Except ε (Card φ)}
  {ended now : Time} {kept : Option (Card φ × Time)} {c : Card φ}

/-- What is known of every call, but the one that goes on. -/
theorem fits_set {l : CardLog φ ε} (hothers : ∀ j, j ≠ i → l.Fits j (s.calls j))
    (hi : l.Fits i stage) (j : ℕ) : l.Fits j ((s.set i stage).calls j) := by
  by_cases hji : j = i
  · subst hji
    rw [set_self]
    exact hi
  · rw [set_of_ne hji]
    exact hothers j hji

/-- A call goes on and nothing else happens. -/
theorem Sound.set (h : s.Sound) (hflights : (s.set i stage).Flights) (hi : s.log.Fits i stage) :
    (s.set i stage).Sound where
  flights := hflights
  asked := h.asked
  settled := h.settled
  untried := h.untried
  kept := h.kept
  fits := fits_set (fun j _ => h.fits j) hi
  past := h.past
  heard := h.heard
  apart := h.apart

/-- A call that neither refreshes nor waits goes on. -/
theorem Sound.goes (h : s.Sound) (hr : stage.refreshing = none)
    (hi : (s.calls i).refreshing = none) (hw : ∀ q w, stage ≠ .waiting q w)
    (hfits : s.log.Fits i stage) : (s.set i stage).Sound :=
  h.set (h.flights.set (hr.trans hi.symm) fun q w hwait => absurd hwait (hw q w)) hfits

theorem Sound.tick (h : s.Sound) (hle : s.log.now ≤ now) :
    Sound { s with log := { s.log with now } } where
  flights := ⟨h.flights.alone, h.flights.signal, h.flights.flight, h.flights.waits⟩
  asked := h.asked
  settled symbol e he hidle :=
    (h.settled symbol e he hidle).keeps ⟨rfl, rfl, fun _ ha _ => ha⟩ (List.Subset.refl _)
  untried symbol hnone := (h.untried symbol hnone).keeps ⟨rfl, rfl, fun _ ha _ => ha⟩
  kept symbol c t hc := (h.kept symbol c t hc).mono (List.Subset.refl _)
  fits j := (h.fits j).extends ⟨hle, List.Subset.refl _⟩ fun _ _ => ⟨rfl, rfl, fun _ ha _ => ha⟩
  past a ha := ⟨(h.past a ha).1.trans hle, (h.past a ha).2⟩
  heard := h.heard
  apart := h.apart

theorem refreshing_cut (stage : CardStage φ ε) : stage.cut.refreshing = none := by
  cases stage <;> rfl

/-- The process ends: nothing is left to refresh, and nothing has been tried. -/
theorem Sound.restart (h : s.Sound) : s.restart.Sound where
  flights := by
    refine ⟨fun i j symbol hi => ?_, fun i symbol hi => ?_, fun symbol e w he => ?_, fun i q w hi => ?_⟩
    · cases (refreshing_cut (s.calls i)).symm.trans hi
    · cases (refreshing_cut (s.calls i)).symm.trans hi
    · cases he
    · change (s.calls i).cut = .waiting q w at hi
      cases hstage : s.calls i <;> rw [hstage] at hi <;> cases hi
  asked symbol e he := by cases he
  settled symbol e he := by cases he
  untried symbol _ a ha _ := ((h.past a ha).2.trans_lt (Nat.lt_succ_self _)).ne
  kept symbol c t hc := (h.kept symbol c t hc).mono (List.Subset.refl _)
  fits _ := CardLog.fits_cut
  past a ha := ⟨(h.past a ha).1, (h.past a ha).2.trans (Nat.le_succ _)⟩
  heard f hf := (h.heard f hf).trans (Nat.le_succ _)
  apart := h.apart

/-- The source is heard of while the entry has its refresh under way. -/
theorem Sound.hears (h : s.Sound) (hi : s.calls i = .fetching q)
    (hr : ∀ c, r = .ok c → c.symbol = q.symbol ∧ c.stale = false) :
    ((s.heard i q.symbol r).set i (.fetched q r s.log.now)).Sound := by
  have hthis : (s.calls i).refreshing = some q.symbol := by
    rw [hi]
    rfl
  have hkeeps : ∀ symbol, symbol ≠ q.symbol → s.log.Keeps (s.heard i q.symbol r).log symbol := by
    intro symbol hne
    refine ⟨rfl, List.find?_cons_of_neg ?_, fun _ ha _ => ha⟩
    simpa using hne.symm
  have hsub : s.log.fetches ⊆ (s.heard i q.symbol r).log.fetches := List.subset_cons_self _ _
  have hflights : (s.heard i q.symbol r).Flights :=
    ⟨h.flights.alone, h.flights.signal, h.flights.flight, h.flights.waits⟩
  have hasks : s.log.Asks q := by
    have hfits := h.fits i
    rwa [hi] at hfits
  exact {
    flights := hflights.set hthis.symm fun _ _ hwait => by cases hwait
    asked := h.asked
    settled := by
      intro symbol e he hidle
      have hne : symbol ≠ q.symbol := by
        rintro rfl
        obtain ⟨d, w, hd, hw⟩ := h.flights.signal i q.symbol hthis
        cases he.symm.trans hd
        cases hidle.symm.trans hw
      exact (h.settled symbol e he hidle).keeps (hkeeps symbol hne) hsub
    untried := h.untried
    kept := fun symbol c t hc => (h.kept symbol c t hc).mono hsub
    fits := by
      refine fits_set (fun j hji => ?_) ⟨⟨hasks.named, hasks.began⟩, ?_⟩
      · refine (h.fits j).extends ⟨le_rfl, hsub⟩ fun symbol hj => hkeeps symbol ?_
        rintro rfl
        exact hji (h.flights.alone j i _ hj hthis)
      · refine ⟨List.find?_cons_of_pos (by simp), hr, fun a ha _ _ => (h.past a ha).1⟩
    past := h.past
    heard := by
      intro f hf
      rcases List.mem_cons.mp hf with rfl | hf
      · exact le_rfl
      · exact h.heard f hf
    apart := h.apart }

/-- The store keeps what was fetched. -/
theorem Sound.saves (h : s.Sound) (hi : s.calls i = .fetched q (.ok c) ended) :
    ((s.save q.symbol c ended).set i (.saved q (.ok c) ended)).Sound := by
  have hfits := h.fits i
  rw [hi] at hfits
  have hflights : (s.save q.symbol c ended).Flights :=
    ⟨h.flights.alone, h.flights.signal, h.flights.flight, h.flights.waits⟩
  have hthis : (s.calls i).refreshing = some q.symbol := by
    rw [hi]
    rfl
  exact {
    flights := hflights.set hthis.symm fun _ _ hwait => by cases hwait
    asked := h.asked
    settled := h.settled
    untried := h.untried
    kept := by
      intro symbol d t hd
      by_cases hsymbol : symbol = q.symbol
      · subst hsymbol
        cases (Function.update_self q.symbol _ s.kept).symm.trans hd
        exact hfits.2.succeeded.earlier ended.micros_le
      · exact h.kept symbol d t ((Function.update_of_ne hsymbol _ s.kept).symm.trans hd)
    fits := fits_set (fun j _ => h.fits j) hfits
    past := h.past
    heard := h.heard
    apart := h.apart }

/-- A refresh begins where there is none, and not soon after one that left nothing to serve. -/
theorem Sound.begins (h : s.Sound) (hi : s.calls i = .looking q)
    (he : s.entries q.symbol = some e) (hidle : e.inflight = none)
    (hrefuses : ¬e.Refuses s.log.now) :
    ((s.begin q.symbol e).set i (.fetching q)).Sound := by
  have hasks : s.log.Asks q := by
    have hfits := h.fits i
    rwa [hi] at hfits
  have hsettled := h.settled q.symbol e he hidle
  have hkeeps : ∀ symbol, symbol ≠ q.symbol → s.log.Keeps (s.begin q.symbol e).log symbol := by
    intro symbol hne
    refine ⟨rfl, rfl, fun a ha hsymbol => ?_⟩
    rcases List.mem_cons.mp ha with rfl | ha
    · exact absurd hsymbol.symm hne
    · exact ha
  have hsub : s.log.fetches ⊆ (s.begin q.symbol e).log.fetches := List.Subset.refl _
  exact {
    flights := h.flights.begin hi he hidle
    asked := by
      intro symbol d hd hcard
      by_cases hsymbol : symbol = q.symbol
      · subst hsymbol
        cases begin_self.symm.trans hd
        exact h.asked q.symbol e he hcard
      · exact h.asked symbol d ((begin_of_ne hsymbol).symm.trans hd) hcard
    settled := by
      intro symbol d hd hnone
      by_cases hsymbol : symbol = q.symbol
      · subst hsymbol
        cases begin_self.symm.trans hd
        cases hnone
      · exact (h.settled symbol d ((begin_of_ne hsymbol).symm.trans hd) hnone).keeps
          (hkeeps symbol hsymbol) hsub
    untried := by
      intro symbol hnone
      by_cases hsymbol : symbol = q.symbol
      · subst hsymbol
        cases begin_self.symm.trans hnone
      · exact (h.untried symbol ((begin_of_ne hsymbol).symm.trans hnone)).keeps
          (hkeeps symbol hsymbol)
    kept := fun symbol c t hc => (h.kept symbol c t hc).mono hsub
    fits := by
      refine fits_set (fun j hji => ?_) ⟨hasks.named, hasks.began⟩
      refine (h.fits j).extends ⟨le_rfl, hsub⟩ fun symbol hj => hkeeps symbol ?_
      rintro rfl
      obtain ⟨d, w, hd, hw⟩ := h.flights.signal j q.symbol hj
      cases he.symm.trans hd
      cases hidle.symm.trans hw
    past := by
      intro a ha
      rcases List.mem_cons.mp ha with rfl | ha
      · exact ⟨le_rfl, le_rfl⟩
      · exact h.past a ha
    heard := h.heard
    apart := by
      refine List.pairwise_cons.mpr ⟨fun old hold hsymbol hprocess hbare => ?_, h.apart⟩
      have hempty : e.card.symbol = "" := of_decide_eq_true hbare
      have hbegan := hsettled.tried old hold hsymbol.symm hprocess.symm
      rcases hsettled.told with huntried | hcard | herr
      · exact absurd hprocess.symm (huntried old hold hsymbol.symm)
      · exact absurd hempty hcard
      · have hage : contextRetry ≤ s.log.now.sub e.fetched :=
          Int64.not_lt.mp fun hlt => hrefuses ⟨hempty, herr, hlt⟩
        have hsince := Time.le_of_le_sub (by decide) hage
        exact hsince.trans (Int.sub_le_sub_left hbegan _) }

/-- A market's first entry says what the store kept. -/
theorem Sound.places [Inhabited φ] (h : s.Sound) (hi : s.calls i = .restored q kept) :
    ((s.place q.symbol kept).set i (.looking q)).Sound := by
  have hfits := h.fits i
  rw [hi] at hfits
  obtain ⟨hasks, hkept⟩ := hfits
  have hlog : ((s.place q.symbol kept).set i (.looking q)).log = s.log := place_log
  exact {
    flights := by
      refine (h.flights.place kept q.symbol).set ?_ fun _ _ hwait => by cases hwait
      rw [place_calls, hi]
      rfl
    asked := by
      intro symbol e he hcard
      rcases place_cases s q.symbol kept symbol with hsame | ⟨rfl, -, hnew⟩
      · exact h.asked symbol e (hsame.symm.trans he) hcard
      · cases hnew.symm.trans he
        cases kept with
        | none => exact absurd rfl hcard
        | some k => exact (hkept k.1 k.2 rfl).asked
    settled := by
      intro symbol e he hidle
      rw [hlog]
      rcases place_cases s q.symbol kept symbol with hsame | ⟨rfl, hnone, hnew⟩
      · exact h.settled symbol e (hsame.symm.trans he) hidle
      · cases hnew.symm.trans he
        exact CardLog.settled_new (h.untried q.symbol hnone) hkept
    untried := by
      intro symbol hnone
      rw [hlog]
      rcases place_cases s q.symbol kept symbol with hsame | ⟨rfl, -, hnew⟩
      · exact h.untried symbol (hsame.symm.trans hnone)
      · cases hnew.symm.trans hnone
    kept := by
      intro symbol c t hc
      rw [hlog]
      exact h.kept symbol c t ((congrFun place_kept symbol).symm.trans hc)
    fits := by
      rw [hlog]
      refine fits_set (fun j _ => ?_) hasks
      rw [place_calls]
      exact h.fits j
    past := by
      rw [hlog]
      exact h.past
    heard := by
      rw [hlog]
      exact h.heard
    apart := by
      rw [hlog]
      exact h.apart }

/-- A refresh ends, and the entry is what its fetch ended with. -/
theorem Sound.lands (h : s.Sound) {r' : Except (CardError ε) (Card φ)}
    (hi : s.calls i = .saved q r ended) (he : s.entries q.symbol = some e)
    (hflight : e.inflight = some w) :
    ((s.finish q.symbol e w r ended).set i (.returned q r')).Sound := by
  have hfits := h.fits i
  rw [hi] at hfits
  obtain ⟨hasks, hended⟩ := hfits
  exact {
    flights := h.flights.finish hi he hflight
    asked := by
      intro symbol d hd hcard
      by_cases hsymbol : symbol = q.symbol
      · subst hsymbol
        cases (finish_self w).symm.trans hd
        cases r with
        | ok c => exact hended.succeeded.asked
        | error x =>
          by_cases hempty : e.card.symbol = ""
          · rw [CardEntry.land, if_neg (not_not.mpr hempty)] at hcard
            exact absurd hempty hcard
          · rw [CardEntry.land, if_pos hempty]
            exact h.asked q.symbol e he hempty
      · exact h.asked symbol d ((finish_of_ne w hsymbol).symm.trans hd) hcard
    settled := by
      intro symbol d hd hidle
      by_cases hsymbol : symbol = q.symbol
      · subst hsymbol
        cases (finish_self w).symm.trans hd
        exact CardLog.settled_land hended hasks.named
      · exact h.settled symbol d ((finish_of_ne w hsymbol).symm.trans hd) hidle
    untried := by
      intro symbol hnone
      by_cases hsymbol : symbol = q.symbol
      · subst hsymbol
        cases (finish_self w).symm.trans hnone
      · exact h.untried symbol ((finish_of_ne w hsymbol).symm.trans hnone)
    kept := h.kept
    fits := fits_set (fun j _ => h.fits j) trivial
    past := h.past
    heard := h.heard
    apart := h.apart }

/-- What the store kept, if it is read at all. -/
theorem eq_of_restore {row : Option (Card φ × Time)} {readable : Bool} {k : Card φ × Time}
    (h : restore row readable = some k) : row = some k := by
  unfold restore at h
  split at h
  · exact (Option.filter_eq_some_iff.mp h).1
  · cases h

theorem restore_some {k : Card φ × Time} (h : k.1.symbol ≠ "") : restore (some k) true = some k := by
  rw [restore, if_pos rfl, Option.filter_some, if_pos (decide_eq_true h)]

theorem Sound.fits_of (h : s.Sound) (hi : s.calls i = stage) : s.log.Fits i stage :=
  hi ▸ h.fits i

theorem Sound.step [Inhabited φ] {m : MarketContext} (h : s.Sound) (hs : m.Step s a t) :
    t.Sound := by
  cases hs with
  | tick hle => exact h.tick hle
  | restart => exact h.restart
  | refused hi _ => exact h.goes rfl (by rw [hi]; rfl) (fun _ _ hw => by cases hw) trivial
  | @called i symbol ref hi href =>
    refine h.goes rfl (by rw [hi]; rfl) (fun _ _ hw => by cases hw) ⟨fun hnone => ?_, le_rfl⟩
    cases (m.named ▸ hnone ▸ href : none = some ref)
  | serves hi _ _ _ => exact h.goes rfl (by rw [hi]; rfl) (fun _ _ hw => by cases hw) trivial
  | refuses hi _ _ _ _ => exact h.goes rfl (by rw [hi]; rfl) (fun _ _ hw => by cases hw) trivial
  | @waits i w q e hi he hflight =>
    refine h.set (h.flights.set (by rw [hi]; rfl) fun p v hwait => ?_) (h.fits_of hi :)
    cases hwait
    exact .inr ⟨e, he, hflight⟩
  | restores hi _ => exact h.goes rfl (by rw [hi]; rfl) (fun _ _ hw => by cases hw) (h.fits_of hi :)
  | begins hi he hidle _ hrefuses => exact h.begins hi he hidle hrefuses
  | woken hi _ => exact h.goes rfl (by rw [hi]; rfl) (fun _ _ hw => by cases hw) (h.fits_of hi :)
  | canceled hi => exact h.goes rfl (by rw [hi]; rfl) (fun _ _ hw => by cases hw) trivial
  | @restored i q readable hi =>
    refine h.goes rfl (by rw [hi]; rfl) (fun _ _ hw => by cases hw) ⟨(h.fits_of hi :), fun c t hc => ?_⟩
    exact h.kept q.symbol c t (eq_of_restore hc)
  | places hi => exact h.places hi
  | fetches hi =>
    refine h.hears hi fun c hc => ?_
    cases hc
    exact ⟨rfl, rfl⟩
  | fails hi => exact h.hears hi fun c hc => by cases hc
  | saves hi => exact h.saves hi
  | unsaved hi =>
    exact h.set (h.flights.set (by rw [hi]; rfl) fun _ _ hw => by cases hw) (h.fits_of hi :)
  | lands hi he hflight => exact h.lands hi he hflight

theorem sound_start : (start now : Cards φ ε).Sound := by
  refine ⟨⟨?_, ?_, ?_, ?_⟩, ?_, ?_, ?_, ?_, ?_, ?_, ?_, List.Pairwise.nil⟩
  · intro i j symbol hi
    cases hi
  · intro i symbol hi
    cases hi
  · intro symbol e w he
    cases he
  · intro i q w hi
    cases hi
  · intro symbol e he
    cases he
  · intro symbol e he
    cases he
  · intro symbol _ a ha
    cases ha
  · intro symbol c t hc
    cases hc
  · intro i
    trivial
  · intro a ha
    cases ha
  · intro f hf
    cases hf

/-! ## What a call returns -/

theorem eq_of_cut {r : Except (CardError ε) (Card φ)} (h : stage.cut = .returned q r) :
    stage = .returned q r := by
  cases stage with
  | returned _ _ => exact h
  | _ => cases h

theorem returned_of_set {s' : Cards φ ε} (hcalls : s'.calls = s.calls)
    (hnew : (s'.set j stage).calls i ≠ s.calls i)
    (hret : (s'.set j stage).calls i = .returned q (.ok c)) :
    i = j ∧ stage = .returned q (.ok c) := by
  by_cases hij : i = j
  · subst hij
    exact ⟨rfl, set_self.symm.trans hret⟩
  · rw [set_of_ne hij, hcalls] at hnew
    exact absurd rfl hnew

/-- A call returns the card of an entry that serves it, or what its own refresh left. -/
theorem returns_cases [Inhabited φ] {m : MarketContext} (hs : m.Step s a t)
    (hnew : t.calls i ≠ s.calls i) (hret : t.calls i = .returned q (.ok c)) :
    t.log = s.log ∧
      ((∃ e, s.calls i = .looking q ∧ s.entries q.symbol = some e ∧ e.inflight = none ∧
          e.Serves m.ttl s.log.now ∧ e.card = c) ∨
        ∃ e w r ended, s.calls i = .saved q r ended ∧ s.entries q.symbol = some e ∧
          e.inflight = some w ∧ e.answer r ended = .ok c) := by
  cases hs with
  | tick _ => exact absurd rfl hnew
  | restart =>
    change (s.calls i).cut ≠ s.calls i at hnew
    change (s.calls i).cut = .returned q (.ok c) at hret
    rw [eq_of_cut hret] at hnew
    exact absurd rfl hnew
  | refused _ _ => cases (returned_of_set rfl hnew hret).2
  | called _ _ => cases (returned_of_set rfl hnew hret).2
  | @serves k p e hk he hidle hserves =>
    obtain ⟨rfl, hstage⟩ := returned_of_set rfl hnew hret
    cases hstage
    exact ⟨rfl, .inl ⟨e, hk, he, hidle, hserves, rfl⟩⟩
  | refuses _ _ _ _ _ => cases (returned_of_set rfl hnew hret).2
  | waits _ _ _ => cases (returned_of_set rfl hnew hret).2
  | restores _ _ => cases (returned_of_set rfl hnew hret).2
  | begins _ _ _ _ _ => cases (returned_of_set rfl hnew hret).2
  | woken _ _ => cases (returned_of_set rfl hnew hret).2
  | canceled _ => cases (returned_of_set rfl hnew hret).2
  | restored _ => cases (returned_of_set rfl hnew hret).2
  | places _ => cases (returned_of_set place_calls hnew hret).2
  | fetches _ => cases (returned_of_set rfl hnew hret).2
  | fails _ => cases (returned_of_set rfl hnew hret).2
  | saves _ => cases (returned_of_set rfl hnew hret).2
  | unsaved _ => cases (returned_of_set rfl hnew hret).2
  | @lands k w p e r ended hk he hflight =>
    obtain ⟨rfl, hstage⟩ := returned_of_set rfl hnew hret
    injection hstage with hq hr
    subst hq
    exact ⟨rfl, .inr ⟨e, w, r, ended, hk, he, hflight, hr⟩⟩

/-- What a call returns is a card of its market, fetched in time, or marked. -/
theorem Sound.served [Inhabited φ] {m : MarketContext} (h : s.Sound) (hs : m.Step s a t)
    (hnew : t.calls i ≠ s.calls i) (hret : t.calls i = .returned q (.ok c)) :
    t.log.Served m.ttl i q c := by
  obtain ⟨hlog, hcases⟩ := returns_cases hs hnew hret
  rw [hlog]
  rcases hcases with ⟨e, hi, he, hidle, ⟨hcard, hyoung⟩, rfl⟩ | ⟨e, w, r, ended, hi, he, -, hanswer⟩
  · have hsettled := h.settled q.symbol e he hidle
    have hasks : s.log.Asks q := (h.fits_of hi :)
    refine ⟨h.asked q.symbol e he hcard, hcard, fun hunmarked => ?_, hsettled.failed⟩
    obtain ⟨f, hf, hsymbol, hresult, hfetched⟩ := (hsettled.dated hcard hunmarked).heard
    have hage := Time.lt_of_sub_lt hyoung
    have hsince : q.began - f.ended ≤ s.log.now - e.fetched := Int.sub_le_sub hasks.began hfetched
    exact ⟨f, hf, hsymbol, hresult, h.heard f hf, .inr (hsince.trans_lt hage)⟩
  · obtain ⟨hasks, hended⟩ : s.log.Asks q ∧ s.log.Ended i q r ended := (h.fits_of hi :)
    cases r with
    | ok d =>
      obtain rfl : d = c := Except.ok.inj hanswer
      have hsucceeded := hended.succeeded
      have hnamed : d.symbol ≠ "" := hsucceeded.asked ▸ hasks.named
      refine ⟨hsucceeded.asked, hnamed, fun _ => ?_, fun hmarked => ?_⟩
      · exact ⟨_, List.mem_of_find?_eq_some hended.last, rfl, rfl, le_rfl, .inl rfl⟩
      · cases hsucceeded.unmarked.symm.trans hmarked
    | error x =>
      by_cases hempty : e.card.symbol = ""
      · simp only [CardEntry.answer, CardEntry.land, hempty, ne_eq, not_true_eq_false, if_false] at hanswer
        cases hanswer
      · simp only [CardEntry.answer, CardEntry.land, ne_eq, hempty, not_false_eq_true, if_true] at hanswer
        obtain rfl := Except.ok.inj hanswer
        refine ⟨h.asked q.symbol e he hempty, hempty, fun hunmarked => ?_, fun _ => hended.failed⟩
        cases hunmarked

theorem sound_of_run [Inhabited φ] {m : MarketContext} {acts : List CardAction}
    (h : Run m.Step Always (start now : Cards φ ε) acts s) : s.Sound :=
  h.invariant sound_start fun _ _ _ hi _ hs => hi.step hs

end Cards

/-- One refresh of a market at a time; what a call returns is a card of its market that was fetched in
time, or is marked after a failure; a process with nothing to serve tries once in a retry interval; and
a call that waits does so for a refresh under way, or goes on. -/
theorem cards_fetched_once {φ ε : Type} [Inhabited φ] {m : MarketContext} {now : Time}
    {acts : List CardAction} {s : Cards φ ε} (h : Run m.Step Always (Cards.start now) acts s) :
    (∀ i j symbol, (s.calls i).refreshing = some symbol → (s.calls j).refreshing = some symbol →
        i = j) ∧
      (∀ a t i q c, m.Step s a t → t.calls i ≠ s.calls i → t.calls i = .returned q (.ok c) →
        t.log.Served m.ttl i q c) ∧
      s.log.attempts.Pairwise Cards.Apart ∧
      ∀ i q w, s.calls i = .waiting q w →
        (∃ t, m.Step s (.call i) t ∧ t.calls i = .looking q) ∨
          ∃ j e, (s.calls j).refreshing = some q.symbol ∧ s.entries q.symbol = some e ∧
            e.inflight = some w := by
  have hsound := Cards.sound_of_run h
  refine ⟨hsound.flights.alone, fun a t i q c hs hnew hret => hsound.served hs hnew hret,
    hsound.apart, fun i q w hi => ?_⟩
  rcases hsound.flights.waits i q w hi with hclosed | ⟨e, he, hflight⟩
  · exact .inl ⟨_, .woken hi hclosed, Cards.set_self⟩
  · obtain ⟨j, hj⟩ := hsound.flights.flight q.symbol e w he hflight
    exact .inr ⟨j, e, hj, he, hflight⟩

/-! ## Calls with nothing else going on -/

namespace Cards

section Alone

variable {φ ε : Type} {m : MarketContext} {s : Cards φ ε} {i w : ℕ} {symbol : String}
  {ref : TokenRef} {q : Asked} {stage stage' : CardStage φ ε} {e : CardEntry φ ε} {c : Card φ}
  {figures : φ} {x : ε} {r : Except ε (Card φ)} {ended : Time} {kept : Option (Card φ × Time)}

theorem set_set : (s.set i stage).set i stage' = s.set i stage' :=
  congrArg (fun f => ({ s with calls := f } : Cards φ ε)) (Function.update_idem _ _ _)

theorem enter_calls : (s.enter symbol e).calls = s.calls := rfl

theorem begin_calls : (s.begin symbol e).calls = s.calls := rfl

theorem heard_calls : (s.heard i symbol r).calls = s.calls := rfl

theorem save_calls : (s.save symbol c ended).calls = s.calls := rfl

theorem finish_calls : (s.finish symbol e w r ended).calls = s.calls := rfl

/-- A refresh with nothing to serve is known as one. -/
theorem heard_begin_log (s : Cards φ ε) (symbol : String) (r : Except ε (Card φ))
    (hempty : e.card.symbol = "") :
    ((s.begin symbol e).heard i symbol r).log = ⟨s.log.now, s.log.process,
      ⟨symbol, s.log.process, i, r, s.log.now⟩ :: s.log.fetches,
      ⟨symbol, s.log.process, s.log.now, true⟩ :: s.log.attempts⟩ := by
  have hbare : decide (e.card.symbol = "") = true := decide_eq_true hempty
  rw [heard, begin, hbare]

variable [Inhabited φ]

theorem step_restores (hnone : s.entries q.symbol = none) :
    m.Step (s.set i (.looking q)) (.call i) (s.set i (.restoring q)) := by
  have hs : m.Step (s.set i (.looking q)) (.call i) _ := .restores set_self hnone
  rwa [set_set] at hs

theorem step_restored : m.Step (s.set i (.restoring q)) (.call i)
    (s.set i (.restored q (restore (s.kept q.symbol) true))) := by
  have hs : m.Step (s.set i (.restoring q)) (.call i)
      ((s.set i (.restoring q)).set i (.restored q (restore (s.kept q.symbol) true))) :=
    .restored set_self
  rwa [set_set] at hs

theorem step_places (hnone : s.entries q.symbol = none) :
    m.Step (s.set i (.restored q kept)) (.call i)
      ((s.enter q.symbol (.new kept)).set i (.looking q)) := by
  have hs : m.Step (s.set i (.restored q kept)) (.call i) _ := .places set_self
  have hplace : (s.set i (.restored q kept)).place q.symbol kept =
      (s.enter q.symbol (.new kept)).set i (.restored q kept) := by
    have hsame : (s.set i (.restored q kept)).entries q.symbol = none := hnone
    rw [place, hsame]
    rfl
  rwa [hplace, set_set] at hs

theorem step_serves (he : s.entries q.symbol = some e) (hidle : e.inflight = none)
    (hserves : e.Serves m.ttl s.log.now) :
    m.Step (s.set i (.looking q)) (.call i) (s.set i (.returned q (.ok e.card))) := by
  have hs : m.Step (s.set i (.looking q)) (.call i) _ := .serves set_self he hidle hserves
  rwa [set_set] at hs

theorem step_begins (he : s.entries q.symbol = some e) (hidle : e.inflight = none)
    (hserves : ¬e.Serves m.ttl s.log.now) (hrefuses : ¬e.Refuses s.log.now) :
    m.Step (s.set i (.looking q)) (.call i) ((s.begin q.symbol e).set i (.fetching q)) := by
  have hs : m.Step (s.set i (.looking q)) (.call i) _ :=
    .begins set_self he hidle hserves hrefuses
  have hbegin : (s.set i (.looking q)).begin q.symbol e =
      (s.begin q.symbol e).set i (.looking q) := rfl
  rwa [hbegin, set_set] at hs

theorem step_fetches (figures : φ) : m.Step (s.set i (.fetching q)) (.call i)
    ((s.heard i q.symbol (.ok (fetchedCard q figures))).set i
      (.fetched q (.ok (fetchedCard q figures)) s.log.now)) := by
  have hs : m.Step (s.set i (.fetching q)) (.call i)
      (((s.heard i q.symbol (.ok (fetchedCard q figures))).set i (.fetching q)).set i
        (.fetched q (.ok (fetchedCard q figures)) s.log.now)) := .fetches set_self
  rwa [set_set] at hs

theorem step_fails : m.Step (s.set i (.fetching q)) (.call i)
    ((s.heard i q.symbol (.error x)).set i (.fetched q (.error x) s.log.now)) := by
  have hs : m.Step (s.set i (.fetching q)) (.call i)
      (((s.heard i q.symbol (.error x)).set i (.fetching q)).set i
        (.fetched q (.error x) s.log.now)) := .fails set_self
  rwa [set_set] at hs

theorem step_saves : m.Step (s.set i (.fetched q (.ok c) ended)) (.call i)
    ((s.save q.symbol c ended).set i (.saved q (.ok c) ended)) := by
  have hs : m.Step (s.set i (.fetched q (.ok c) ended)) (.call i) _ := .saves set_self
  have hsave : (s.set i (.fetched q (.ok c) ended)).save q.symbol c ended =
      (s.save q.symbol c ended).set i (.fetched q (.ok c) ended) := rfl
  rwa [hsave, set_set] at hs

theorem step_unsaved : m.Step (s.set i (.fetched q r ended)) (.call i)
    (s.set i (.saved q r ended)) := by
  have hs : m.Step (s.set i (.fetched q r ended)) (.call i) _ := .unsaved set_self
  rwa [set_set] at hs

theorem step_lands (he : s.entries q.symbol = some e) (hflight : e.inflight = some w) :
    m.Step (s.set i (.saved q r ended)) (.call i)
      ((s.finish q.symbol e w r ended).set i (.returned q (e.answer r ended))) := by
  have hs : m.Step (s.set i (.saved q r ended)) (.call i) _ := .lands set_self he hflight
  have hfinish : (s.set i (.saved q r ended)).finish q.symbol e w r ended =
      (s.finish q.symbol e w r ended).set i (.saved q r ended) := rfl
  rwa [hfinish, set_set] at hs

/-- A call finds no entry, and makes one of what the store kept. -/
theorem run_opens (hq : q = ⟨toUpper (trimSpace symbol), ref, s.log.now⟩)
    (href : m.tokens q.symbol = some ref) (hi : s.calls i = .uncalled)
    (hnone : s.entries q.symbol = none) :
    Run m.Step Always s [.call i, .call i, .call i, .call i]
      ((s.enter q.symbol (.new (restore (s.kept q.symbol) true))).set i (.looking q)) := by
  have hcalled : m.Step s (.call i) (s.set i (.looking q)) := by
    subst hq
    exact .called hi href
  exact (((Run.nil.snoc trivial hcalled).snoc trivial (step_restores hnone)).snoc trivial
    step_restored).snoc trivial (step_places hnone)

/-- A call refreshes, and its card is kept or the source is down. -/
theorem run_refreshes (he : s.entries q.symbol = some e) (hidle : e.inflight = none)
    (hserves : ¬e.Serves m.ttl s.log.now) (hrefuses : ¬e.Refuses s.log.now) (figures : φ) (x : ε) :
    (∃ acts, Run m.Step Always (s.set i (.looking q)) acts
      ((((s.begin q.symbol e).heard i q.symbol (.error x)).finish q.symbol
        { e with inflight := some s.chans } s.chans (.error x) s.log.now).set i
          (.returned q (CardEntry.answer { e with inflight := some s.chans } (.error x)
            s.log.now)))) ∧
      ∃ acts, Run m.Step Always (s.set i (.looking q)) acts
        (((((s.begin q.symbol e).heard i q.symbol (.ok (fetchedCard q figures))).save q.symbol
          (fetchedCard q figures) s.log.now).finish q.symbol { e with inflight := some s.chans }
            s.chans (.ok (fetchedCard q figures)) s.log.now).set i
              (.returned q (.ok (fetchedCard q figures)))) := by
  have hfetching : Run m.Step Always (s.set i (.looking q)) [.call i]
      ((s.begin q.symbol e).set i (.fetching q)) :=
    Run.nil.snoc trivial (step_begins he hidle hserves hrefuses)
  have hentry : (s.begin q.symbol e).entries q.symbol = some { e with inflight := some s.chans } :=
    begin_self
  constructor
  · have hfetched := hfetching.snoc trivial (step_fails (x := x))
    have hsaved := hfetched.snoc trivial step_unsaved
    exact ⟨_, hsaved.snoc trivial (step_lands hentry rfl)⟩
  · have hfetched := hfetching.snoc trivial (step_fetches figures)
    have hsaved := hfetched.snoc trivial step_saves
    exact ⟨_, hsaved.snoc trivial (step_lands hentry rfl)⟩

/-- A call with nothing kept refreshes, and the source is down. -/
theorem run_fails (hq : q = ⟨toUpper (trimSpace symbol), ref, s.log.now⟩)
    (href : m.tokens q.symbol = some ref) (hi : s.calls i = .uncalled)
    (hnone : s.entries q.symbol = none) (hkept : s.kept q.symbol = none) (x : ε) :
    ∃ acts t, Run m.Step Always s acts t ∧
      t.log = ⟨s.log.now, s.log.process, ⟨q.symbol, s.log.process, i, .error x, s.log.now⟩ ::
        s.log.fetches, ⟨q.symbol, s.log.process, s.log.now, true⟩ :: s.log.attempts⟩ ∧
      t.kept = s.kept ∧ ∀ j, j ≠ i → t.calls j = s.calls j := by
  have hopens := run_opens hq href hi hnone
  rw [hkept] at hopens
  obtain ⟨⟨acts, hrun⟩, -⟩ := run_refreshes (m := m) (i := i) (s := s.enter q.symbol (.new none))
    (e := .new none) enter_self rfl (fun h => h.1 rfl) (fun h => h.2.1 rfl) default x
  have hlog := heard_begin_log (i := i) (e := .new none) (s.enter q.symbol (.new none)) q.symbol
    (.error x) rfl
  refine ⟨_, _, hopens.trans hrun, hlog, rfl, fun j hj => ?_⟩
  rw [set_of_ne hj, finish_calls, heard_calls, begin_calls, enter_calls]

/-- A call with nothing kept refreshes, and its card is kept. -/
theorem run_fetches (hq : q = ⟨toUpper (trimSpace symbol), ref, s.log.now⟩)
    (href : m.tokens q.symbol = some ref) (hi : s.calls i = .uncalled)
    (hnone : s.entries q.symbol = none) (hkept : s.kept q.symbol = none) (figures : φ) (x : ε) :
    ∃ acts t, Run m.Step Always s acts t ∧
      t.calls i = .returned q (.ok (fetchedCard q figures)) ∧
      t.log = ⟨s.log.now, s.log.process,
        ⟨q.symbol, s.log.process, i, .ok (fetchedCard q figures), s.log.now⟩ :: s.log.fetches,
        ⟨q.symbol, s.log.process, s.log.now, true⟩ :: s.log.attempts⟩ ∧
      t.kept q.symbol = some (fetchedCard q figures, s.log.now.micros) ∧
      ∀ j, j ≠ i → t.calls j = s.calls j := by
  have hopens := run_opens hq href hi hnone
  rw [hkept] at hopens
  obtain ⟨-, acts, hrun⟩ := run_refreshes (m := m) (i := i) (s := s.enter q.symbol (.new none))
    (e := .new none) enter_self rfl (fun h => h.1 rfl) (fun h => h.2.1 rfl) figures x
  have hlog := heard_begin_log (i := i) (e := .new none) (s.enter q.symbol (.new none)) q.symbol
    (.ok (fetchedCard q figures)) rfl
  refine ⟨_, _, hopens.trans hrun, set_self, hlog, Function.update_self _ _ _, fun j hj => ?_⟩
  rw [set_of_ne hj, finish_calls, save_calls, heard_calls, begin_calls, enter_calls]

end Alone

end Cards

/-- A card for every name, for a day. -/
def anyMarket : MarketContext where
  tokens symbol := if symbol = "" then none else some ⟨"monad", "0x3b", "MON"⟩
  ttl := Duration.day
  named := rfl

/-- A card that is asked for. -/
def askedAt (now : Time) : Asked := ⟨toUpper (trimSpace "mon"), ⟨"monad", "0x3b", "MON"⟩, now⟩

theorem askedAt_named (now : Time) : (askedAt now).symbol ≠ "" := by
  change toUpper (trimSpace "mon") ≠ ""
  decide +kernel

theorem anyMarket_asked (now : Time) :
    anyMarket.tokens (askedAt now).symbol = some ⟨"monad", "0x3b", "MON"⟩ := by
  change (if (askedAt now).symbol = "" then none else _) = _
  exact if_neg (askedAt_named now)

/-- One call that fetches a card. -/
theorem cards_fetched_once_mon : ∃ acts, ∃ s : Cards Unit Unit,
    Run anyMarket.Step Always (Cards.start 0) acts s ∧ s.log.attempts.length = 1 ∧
      s.log.attempts.Pairwise Cards.Apart := by
  obtain ⟨acts, s, h, -, hlog, -⟩ := Cards.run_fetches (s := (Cards.start 0 : Cards Unit Unit))
    (i := 0) (q := askedAt 0) rfl (anyMarket_asked 0) rfl rfl rfl () ()
  exact ⟨acts, s, h, by rw [hlog]; rfl, (cards_fetched_once h).2.2.1⟩

/-- A process that begins soon after a failure tries again, and a card may have been fetched two
processes ago. -/
theorem restarts_forget :
    (∃ acts, ∃ s : Cards Unit Unit, Run anyMarket.Step Always (Cards.start 0) acts s ∧
        ¬s.log.attempts.Pairwise fun new old => new.symbol = old.symbol → new.bare →
          contextRetry.toInt ≤ new.began - old.began) ∧
      ∃ acts, ∃ s : Cards Unit Unit, Run anyMarket.Step Always (Cards.start 0) acts s ∧
        ∃ a t i q c, anyMarket.Step s a t ∧ t.calls i ≠ s.calls i ∧ t.calls i = .returned q (.ok c) ∧
          c.stale = false ∧ ∀ f ∈ t.log.fetches, f.process + 1 < t.log.process := by
  constructor
  · obtain ⟨acts, s, h, hlog, hkept, hcalls⟩ := Cards.run_fails
      (s := (Cards.start 0 : Cards Unit Unit)) (i := 0) (q := askedAt 0) rfl (anyMarket_asked 0)
      rfl rfl rfl ()
    have hrestarted := h.snoc trivial .restart
    have huncalled : s.restart.calls 1 = .uncalled := by
      change (s.calls 1).cut = .uncalled
      rw [hcalls 1 (by decide)]
      rfl
    have hnow : s.restart.log.now = 0 := congrArg CardLog.now hlog
    have hnothing : s.restart.kept (askedAt 0).symbol = none := congrFun hkept _
    obtain ⟨acts', t, h', hlog', -⟩ := Cards.run_fails (s := s.restart) (i := 1) (q := askedAt 0)
      (by rw [hnow]; rfl) (anyMarket_asked 0) huncalled rfl hnothing ()
    refine ⟨_, t, hrestarted.trans h', ?_⟩
    have hattempts : s.restart.log.attempts = [⟨(askedAt 0).symbol, 0, 0, true⟩] :=
      congrArg CardLog.attempts hlog
    rw [hlog', hattempts, hnow]
    intro hpairwise
    have hlate : contextRetry.toInt ≤ 0 - 0 :=
      (List.pairwise_cons.mp hpairwise).1 _ List.mem_cons_self rfl rfl
    exact absurd hlate (by decide)
  · obtain ⟨acts, s, h, -, hlog, hkept, hcalls⟩ := Cards.run_fetches
      (s := (Cards.start 0 : Cards Unit Unit)) (i := 0) (q := askedAt 0) rfl (anyMarket_asked 0)
      rfl rfl rfl () ()
    have hrestarted := (h.snoc trivial .restart).snoc trivial .restart
    have huncalled : s.restart.restart.calls 1 = .uncalled := by
      change (s.calls 1).cut.cut = .uncalled
      rw [hcalls 1 (by decide)]
      rfl
    have hnow : s.restart.restart.log.now = 0 := congrArg CardLog.now hlog
    have hprocess : s.restart.restart.log.process = 2 := congrArg (fun l => l.process + 2) hlog
    have hfetches : s.restart.restart.log.fetches =
        [⟨(askedAt 0).symbol, 0, 0, .ok (fetchedCard (askedAt 0) ()), 0⟩] :=
      congrArg CardLog.fetches hlog
    have hname := askedAt_named 0
    have hopens := hrestarted.trans (Cards.run_opens (q := askedAt 0) (by rw [hnow]; rfl)
      (anyMarket_asked 0) huncalled rfl)
    have hrestored : restore (s.restart.restart.kept (askedAt 0).symbol) true =
        some (fetchedCard (askedAt 0) (), Time.micros 0) := by
      change restore (s.kept (askedAt 0).symbol) true = _
      rw [hkept]
      exact Cards.restore_some hname
    rw [hrestored] at hopens
    have hyoung : s.restart.restart.log.now.sub (Time.micros 0) < Duration.day := by
      rw [hnow]
      decide
    have hserves := Cards.step_serves (m := anyMarket) (i := 1) (q := askedAt 0)
      (Cards.enter_self (s := s.restart.restart)
      (e := .new (some (fetchedCard (askedAt 0) (), Time.micros 0)))) rfl ⟨hname, hyoung⟩
    refine ⟨_, _, hopens, .call 1, _, 1, askedAt 0, _, hserves, ?_, Cards.set_self, rfl, ?_⟩
    · rw [Cards.set_self, Cards.set_self]
      intro hsame
      cases hsame
    · intro f hf
      change f ∈ s.restart.restart.log.fetches at hf
      change f.process + 1 < s.restart.restart.log.process
      rw [hfetches] at hf
      obtain rfl := List.mem_singleton.mp hf
      rw [hprocess]
      decide

end SuperAgent.Platform
