import SuperAgent.Platform.Weeks

/-!
# The history of the prizes

The weeks gone by are read from the indexer and kept for a minute. A read that
fails serves the last good answer. What is kept does not say how many pools were
asked for, and a first read that fails is kept as well.
-/

namespace SuperAgent.Platform

open Contract (Week)

/-! ## What the indexer has -/

/-- A winner's line. -/
structure IndexedPrize where
  wallet : String
  rank : Int
  amount : String
  pnl : String
  claimed : Bool
  claimedAt : Option String
  claimTx : Option String
  deriving DecidableEq

/-- One week of one strategy. -/
structure IndexedPool where
  id : String
  week : String
  strategy : String
  funded : String
  fundings : Int
  settled : Bool
  settledAt : Option String
  carried : String
  winners : Int
  claimed : String
  prizes : List IndexedPrize
  deriving DecidableEq

/-- The summary across every week. -/
structure PrizeTotals where
  funded : String
  paid : String
  claimed : String
  pools : Int
  settledPools : Int
  deriving DecidableEq

/-- What the indexer has when it answers, the newest pools first. -/
structure Indexed where
  pools : List IndexedPool
  totals : PrizeTotals
  deriving DecidableEq

/-! ## What the lobby reads -/

/-- A pool with the strategy it is of and when its week began. -/
structure HistoryPool extends IndexedPool where
  strategyID : String
  weekStart : Time
  deriving DecidableEq

/-- What the lobby reads. -/
structure PrizeHistory.History where
  pools : List HistoryPool
  totals : PrizeTotals
  /-- The indexer could not be read, and this is the last good answer. -/
  stale : Bool
  updatedAt : Option Time
  deriving DecidableEq

/-- Nothing read yet. -/
def PrizeHistory.History.empty : PrizeHistory.History := ⟨[], ⟨"", "", "", 0, 0⟩, false, none⟩

/-- The last good answer, and when the indexer was last asked. -/
structure PrizeHistory where
  cached : PrizeHistory.History
  fetched : Option Time
  deriving DecidableEq

/-- How long an answer is kept. -/
def historyTTL : Duration := Duration.minute

/-- A week's index from its digits, whatever stands between them. -/
def weekIndex (week : String) : Week :=
  week.toList.foldl (fun w ch => if ch.isDigit then w * 10 + .ofNat 64 (ch.toNat - 48) else w) 0

/-- A pool as the lobby reads it. A key that is no strategy's has no name. -/
def historyPool (strategyByKey : String → String) (pool : IndexedPool) : HistoryPool :=
  { pool with
    strategyID := strategyByKey pool.strategy
    weekStart := weekStart (weekIndex pool.week) }

/-- One call: how many pools it asks for, the clock when it looks at what is kept, when the indexer
has answered and when the answer is stamped, and what the indexer has, if it can be read. -/
structure PrizeHistory.Reading where
  limit : Nat
  now : Time
  answered : Time
  stamped : Time
  indexer : Except String Indexed

namespace PrizeHistory

/-- A new process. -/
def new : PrizeHistory := ⟨.empty, none⟩

/-- Whether the indexer was asked within the time an answer is kept. -/
def fresh (p : PrizeHistory) (now : Time) : Bool :=
  p.fetched.any fun t => now.sub t < historyTTL

/-- What is read of the indexer. -/
def historyOf (strategyByKey : String → String) (r : Reading) (data : Indexed) : History where
  pools := (data.pools.take r.limit).map (historyPool strategyByKey)
  totals := data.totals
  stale := false
  updatedAt := some r.stamped

/-- The last weeks: what is kept while it is fresh, what the indexer has, or the last good answer. -/
def read (strategyByKey : String → String) (p : PrizeHistory) (r : Reading) :
    PrizeHistory × Except String History :=
  if p.fresh r.now then (p, .ok p.cached)
  else match r.indexer with
    | .error e =>
      if p.cached.updatedAt.isNone then ({ p with fetched := some r.answered }, .error e)
      else (⟨{ p.cached with stale := true }, some r.answered⟩, .ok { p.cached with stale := true })
    | .ok data =>
      (⟨historyOf strategyByKey r data, some r.answered⟩, .ok (historyOf strategyByKey r data))

/-! ## Sequences of calls -/

variable (strategyByKey : String → String)

/-- The process after some calls, and those of them that asked the indexer. -/
def after (rs : List Reading) : PrizeHistory × List Reading :=
  rs.foldl (fun s r => ((read strategyByKey s.1 r).1,
    if s.1.fresh r.now then s.2 else s.2 ++ [r])) (new, [])

/-- The last call the indexer answered, and what it had. -/
def lastGood (asked : List Reading) : Option (Reading × Indexed) :=
  (asked.filterMap fun r => r.indexer.toOption.map (r, ·)).getLast?

/-- Whether the last time the indexer was asked it could not be read. -/
def lastFailed (asked : List Reading) : Bool :=
  asked.getLast?.any fun r => r.indexer.toOption.isNone

/-- An answer is what the indexer had when it was last read, cut to what this caller asked for; there
is none before that, and it says so when the indexer could not be read since. -/
structure Honest (asked : List Reading) (limit : Nat) (answer : Except String History) : Prop where
  produced : ∀ h, answer = .ok h → ∃ q data, lastGood asked = some (q, data) ∧
    h.pools = (data.pools.take limit).map (historyPool strategyByKey) ∧ h.totals = data.totals ∧
      h.updatedAt = some q.stamped
  unread : lastGood asked = none → ∃ e, answer = .error e
  stale : ∀ h, answer = .ok h → h.stale = lastFailed asked

/-- The indexer answers this call; or it was read before, and cutting what it had then to what this
caller asks for gives what was kept; or it was not, and is asked again. -/
def served (p : PrizeHistory) (asked : List Reading) (r : Reading) : Bool :=
  (!p.fresh r.now && r.indexer.toOption.isSome) ||
    match lastGood asked with
    | some (q, data) => min r.limit data.pools.length = min q.limit data.pools.length
    | none => !p.fresh r.now

/-! ## What is kept -/

variable {strategyByKey} {p : PrizeHistory} {asked rs : List Reading} {q r : Reading}
  {data : Indexed} {e : String}

theorem lastGood_concat_ok (asked : List Reading) (h : r.indexer = .ok data) :
    lastGood (asked ++ [r]) = some (r, data) := by
  simp [lastGood, List.filterMap_append, h, Except.toOption]

theorem lastGood_concat_error (asked : List Reading) (h : r.indexer = .error e) :
    lastGood (asked ++ [r]) = lastGood asked := by
  simp [lastGood, List.filterMap_append, h, Except.toOption]

theorem lastFailed_concat : lastFailed (asked ++ [r]) = r.indexer.toOption.isNone := by
  rw [lastFailed, List.getLast?_concat, Option.any_some]

/-- What is kept is what the last good call read, and nothing before it. -/
structure Follows (strategyByKey : String → String) (p : PrizeHistory) (asked : List Reading) :
    Prop where
  fetched : p.fetched = asked.getLast?.map Reading.answered
  none : lastGood asked = .none → p.cached = .empty
  some : ∀ q data, lastGood asked = .some (q, data) →
    p.cached = { historyOf strategyByKey q data with stale := lastFailed asked }

theorem Follows.new : Follows strategyByKey PrizeHistory.new [] :=
  ⟨rfl, fun _ => rfl, fun _ _ h => absurd h.symm (Option.some_ne_none _)⟩

/-- A call that asks the indexer keeps what it read. -/
theorem Follows.read (h : Follows strategyByKey p asked) (hfresh : p.fresh r.now = false) :
    Follows strategyByKey (p.read strategyByKey r).1 (asked ++ [r]) := by
  have hold : ¬ p.fresh r.now = true := Bool.not_eq_true _ ▸ hfresh
  rw [PrizeHistory.read, if_neg hold]
  cases hanswer : r.indexer with
  | error e =>
    dsimp only
    constructor
    · rw [List.getLast?_concat]
      split <;> rfl
    · intro hnone
      rw [lastGood_concat_error _ hanswer] at hnone
      rw [h.none hnone]
      rfl
    · intro q data hgood
      rw [lastGood_concat_error _ hanswer] at hgood
      have hcached := h.some q data hgood
      have hseen : ¬ p.cached.updatedAt.isNone := by
        rw [hcached]
        exact Bool.false_ne_true
      rw [if_neg hseen, lastFailed_concat, hanswer, hcached]
      rfl
  | ok data =>
    dsimp only
    constructor
    · rw [List.getLast?_concat]
      rfl
    · intro hnone
      rw [lastGood_concat_ok _ hanswer] at hnone
      cases hnone
    · intro q data' hgood
      rw [lastGood_concat_ok _ hanswer] at hgood
      cases hgood
      rw [lastFailed_concat, hanswer]
      rfl

theorem after_concat (rs : List Reading) (r : Reading) : after strategyByKey (rs ++ [r]) =
    (((after strategyByKey rs).1.read strategyByKey r).1,
      if (after strategyByKey rs).1.fresh r.now then (after strategyByKey rs).2
      else (after strategyByKey rs).2 ++ [r]) := by
  rw [after, List.foldl_concat]
  rfl

/-- After any calls, what is kept is what the last good one read. -/
theorem follows_after (rs : List Reading) :
    Follows strategyByKey (after strategyByKey rs).1 (after strategyByKey rs).2 := by
  induction rs using List.reverseRecOn with
  | nil => exact .new
  | append_singleton rs r ih =>
    rw [after_concat]
    cases hfresh : (after strategyByKey rs).1.fresh r.now with
    | true =>
      have hsame : ((after strategyByKey rs).1.read strategyByKey r).1 =
          (after strategyByKey rs).1 := by
        rw [read, if_pos hfresh]
      rw [hsame, if_pos rfl]
      exact ih
    | false =>
      rw [if_neg Bool.false_ne_true]
      exact ih.read hfresh

/-! ## What is answered -/

/-- What is kept of a good call answers another one when both cut its pools at the same place. -/
theorem honest_kept_iff (strategyByKey : String → String) (limit : Nat)
    (hgood : lastGood asked = some (q, data)) :
    Honest strategyByKey asked limit
      (.ok { historyOf strategyByKey q data with stale := lastFailed asked }) ↔
      min limit data.pools.length = min q.limit data.pools.length := by
  rw [← List.take_eq_take_iff]
  constructor
  · intro h
    obtain ⟨q', data', hgood', hpools, -⟩ := h.produced _ rfl
    cases hgood.symm.trans hgood'
    have hlengths := congrArg List.length hpools
    simp only [historyOf, List.length_map, List.length_take] at hlengths
    exact List.take_eq_take_iff.mpr hlengths.symm
  · intro h
    refine ⟨fun h' hok => ?_, fun hnone => ?_, fun h' hok => ?_⟩
    · cases hok
      exact ⟨q, data, hgood, congrArg _ h.symm, rfl, rfl⟩
    · cases hgood.symm.trans hnone
    · cases hok
      rfl

/-- A call whose answer is read of the indexer. -/
theorem honest_read (h : r.indexer = .ok data) : Honest strategyByKey (asked ++ [r]) r.limit
    (.ok (historyOf strategyByKey r data)) := by
  have hfailed : lastFailed (asked ++ [r]) = false := by
    rw [lastFailed_concat, h]
    rfl
  have hkept := (honest_kept_iff strategyByKey r.limit (lastGood_concat_ok asked h)).mpr rfl
  rwa [hfailed] at hkept

/-- A call that fails invents nothing. -/
theorem honest_error {limit : Nat} :
    Honest strategyByKey asked limit (.error e) where
  produced _ hok := by cases hok
  unread _ := ⟨e, rfl⟩
  stale _ hok := by cases hok

/-- After any calls, whatever they asked for, whenever they were made and whatever the indexer did,
the next one is answered honestly exactly when it is served. -/
theorem history_honest_iff (strategyByKey : String → String) (rs : List Reading) (r : Reading) :
    Honest strategyByKey (after strategyByKey (rs ++ [r])).2 r.limit
        ((after strategyByKey rs).1.read strategyByKey r).2 ↔
      served (after strategyByKey rs).1 (after strategyByKey rs).2 r := by
  have hfollows : Follows strategyByKey (after strategyByKey rs).1 _ := follows_after rs
  rw [after_concat]
  generalize after strategyByKey rs = s at hfollows ⊢
  obtain ⟨p, asked⟩ := s
  dsimp only at hfollows ⊢
  rw [served, read]
  cases hfresh : p.fresh r.now with
  | true =>
    rw [if_pos rfl, if_pos rfl, Bool.not_true, Bool.false_and, Bool.false_or]
    cases hgood : lastGood asked with
    | none =>
      refine iff_of_false (fun h => ?_) Bool.false_ne_true
      obtain ⟨e, he⟩ := h.unread hgood
      cases he
    | some good =>
      obtain ⟨q, data⟩ := good
      rw [hfollows.some q data hgood, honest_kept_iff _ _ hgood]
      exact decide_eq_true_iff.symm
  | false =>
    rw [if_neg Bool.false_ne_true, if_neg Bool.false_ne_true, Bool.not_false, Bool.true_and]
    cases hanswer : r.indexer with
    | ok data => exact iff_of_true (honest_read hanswer) rfl
    | error e =>
      dsimp only
      have hsame := lastGood_concat_error asked hanswer
      cases hgood : lastGood asked with
      | none =>
        rw [hfollows.none hgood]
        exact iff_of_true honest_error rfl
      | some good =>
        obtain ⟨q, data⟩ := good
        have hcached := hfollows.some q data hgood
        have hseen : ¬ p.cached.updatedAt.isNone := by
          rw [hcached]
          exact Bool.false_ne_true
        have hfailed : lastFailed (asked ++ [r]) = true := by
          rw [lastFailed_concat, hanswer]
          rfl
        have hkept := honest_kept_iff strategyByKey r.limit (hsame.trans hgood)
        rw [hfailed] at hkept
        rw [if_neg hseen, hcached]
        refine hkept.trans ?_
        exact decide_eq_true_iff.symm

/-- A pool of a week nobody won. -/
def emptyPool (week : String) : IndexedPool :=
  ⟨week, week, "0x", "0", 0, false, none, "0", 0, "0", []⟩

/-- What the indexer has: two pools. -/
def twoPools : Indexed := ⟨[emptyPool "2", emptyPool "1"], ⟨"0", "0", "0", 2, 0⟩⟩

/-- A call at a time of the clock. -/
def callAt (limit : Nat) (now : Time) (indexer : Except String Indexed) : Reading :=
  ⟨limit, now, now, now, indexer⟩

/-- After a first call that failed, the next one is told that there are no pools; and after a call for
one pool, one for five is told that there is one. -/
theorem history_invented :
    ((after id [callAt 5 1 (.error "down")]).1.read id (callAt 5 2 (.ok twoPools))).2 =
      .ok .empty ∧
    (((after id [callAt 1 1 (.ok twoPools)]).1.read id (callAt 5 2 (.ok twoPools))).2.toOption.map
      fun h => h.pools.length) = some 1 ∧
    ¬ Honest id (after id [callAt 5 1 (.error "down"), callAt 5 2 (.ok twoPools)]).2 5
      ((after id [callAt 5 1 (.error "down")]).1.read id (callAt 5 2 (.ok twoPools))).2 := by
  refine ⟨by rfl, by rfl, fun h => ?_⟩
  obtain ⟨e, he⟩ := h.unread (by rfl)
  cases he

end PrizeHistory

end SuperAgent.Platform
