import SuperAgent.Core.Run
import SuperAgent.Platform.BarBuilder
import SuperAgent.Platform.Signals

/-!
# The feed of a market's signals

Every timeframe is seeded with the venue's history. Then the minutes of a stream
are built into larger bars, by builders that start over with each subscription.
A bar counts as closed by the clock, so what a signal accepts is whole and final
only when the subscription came before the bucket, and a minute that arrives
after the bucket's end is the bucket's last one in its final version.
-/

namespace SuperAgent.Platform

open Strategy (Event Seeding accept accepted)
open Venue (Candle Continues Folds MinuteStream mem_of_mem_versions versions)

/-- A bar as a signal reads it. -/
def priced (b : Candle) : Strategy.Candle := ⟨b.open, b.period, b.o, b.h, b.l, b.c⟩

/-- The history the venue answers a seed with, and how it is sorted by opening time. -/
structure History where
  bars : List Candle
  sorted : List Candle
  perm : sorted.Perm bars
  ascending : sorted.Pairwise fun a b => a.open ≤ b.open

/-- The history as a signal reads it. -/
def History.seeding (h : History) : Seeding where
  bars := h.bars.map priced
  sorted := h.sorted.map priced
  perm := h.perm.map _
  ascending := List.pairwise_map.mpr h.ascending

/-- The timeframes that are built from minutes. -/
def larger : List Duration := signalPeriods.filter (.minute < ·)

/-- The feed of a market. By timeframe: the builders, what the signals were given, and the bars that
these accepted as closed. What was received since the subscription is remembered beside. -/
structure Feed where
  builders : Duration → BarBuilder
  events : Duration → List Event
  bars : Duration → List Candle
  received : List Candle

/-- A bar is accepted when the clock has passed its end, and it opens after those before. -/
def keepBar (now : Time) (bars : List Candle) (b : Candle) : List Candle :=
  if (priced b).Closed now ∧ Strategy.Follows (bars.map priced) (priced b) then bars ++ [b] else bars

/-- What a feed does: read a timeframe's history, subscribe, or take a minute. -/
inductive FeedAction
  | seed (p : Duration) (h : History) (now : Time)
  | subscribe
  | minute (m : Candle) (now : Time)

namespace Feed

/-- Nothing is seeded yet. -/
def start : Feed where
  builders := .new
  events _ := []
  bars _ := []
  received := []

/-- The bars that a minute gives a timeframe. -/
def offers (s : Feed) (m : Candle) (p : Duration) : List Candle :=
  if p = .minute then [m] else ((s.builders p).add m).2

/-- The feed after an action. -/
def next (s : Feed) : FeedAction → Feed
  | .seed p h now => { s with
      events := Function.update s.events p (s.events p ++ [.seed h.seeding now])
      bars := Function.update s.bars p (h.sorted.foldl (keepBar now) []) }
  | .subscribe => { s with builders := .new, received := [] }
  | .minute m now => {
      builders := fun p => ((s.builders p).add m).1
      events := fun p => s.events p ++ (s.offers m p).map fun b => .apply (priced b) now
      bars := fun p => (s.offers m p).foldl (keepBar now) (s.bars p)
      received := s.received ++ [m] }

/-- A minute that the venue can send next on a complete stream: the last one again, or the one after
it once that is final. The first one after a subscription can be any. -/
def Complete (final : Time → Candle) (s : Feed) : FeedAction → Prop
  | .minute m _ =>
    m.period = .minute ∧ m.open % Duration.minute.toInt = 0 ∧
      (0 < m.o ∧ 0 < m.h ∧ 0 < m.l ∧ 0 < m.c) ∧
      ∀ a ∈ s.received.getLast?, Continues a m ∧
        (m.open = a.open ∨ a = final a.open ∧ m.open = a.open.add .minute)
  | _ => True

instance (final : Time → Candle) (s : Feed) : DecidablePred (s.Complete final)
  | .seed .. => isTrue trivial
  | .subscribe => isTrue trivial
  | .minute m _ =>
    have (a : Candle) : Decidable (Continues a m) :=
      decidable_of_iff (a.open ≤ m.open ∧ (m.open = a.open → m.o = a.o ∧ a.h ≤ m.h ∧ m.l ≤ a.l))
        ⟨fun h => ⟨h.1, h.2⟩, fun h => ⟨h.1, h.2⟩⟩
    inferInstanceAs (Decidable (_ ∧ _ ∧ _ ∧ ∀ a ∈ s.received.getLast?, _ ∧ _))

/-- The feed after an action, on a stream that comes to given versions of the minutes. -/
def attempt (final : Time → Candle) (s : Feed) (act : FeedAction) : Option Feed :=
  if s.Complete final act then some (s.next act) else none

/-- A step of the feed. -/
abbrev Step (final : Time → Candle) (s : Feed) (act : FeedAction) (s' : Feed) : Prop :=
  s.attempt final act = some s'

/-- When the minutes of a stream begin, the next one included. -/
def joined (s : Feed) (m : Candle) : Time := (s.received.head?.getD m).open

/-- The clock has passed the end of a bucket whose bar is not accepted yet. -/
def Due (s : Feed) (p : Duration) (now bucket : Time) : Prop :=
  bucket.add p ≤ now ∧ ∀ b ∈ (s.bars p).getLast?, b.open < bucket

end Feed

/-- The opening times of a bucket's minutes. -/
def minutesOf (p : Duration) (bucket : Time) : List Time :=
  (List.range (p.toInt / Duration.minute.toInt).toNat).map fun i : ℕ =>
    bucket + i * Duration.minute.toInt

/-- A bar is the fold of the final versions of all minutes of its bucket. -/
structure WholeBar (final : Time → Candle) (p : Duration) (bar : Candle) : Prop where
  period : bar.period = p
  bucket : bar.open % p.toInt = 0
  folds : Folds ((minutesOf p bar.open).map final) bar

/-- What keeps partial bars and early versions away from the signals. The history has whole bars
where the clock has passed their end. When a bucket is left, or a minute arrives in it, after the
clock has passed its end, the stream began no later than it; and the minute that arrives in it is its
last, in the final version. -/
def Feed.Sound (final : Time → Candle) (s : Feed) : FeedAction → Prop
  | .seed p h now => p ∈ larger → ∀ bar ∈ h.bars, (priced bar).Closed now → WholeBar final p bar
  | .subscribe => True
  | .minute m now => ∀ p ∈ larger,
      (∀ a ∈ s.received.getLast?, bucketOf p a ≠ bucketOf p m → s.Due p now (bucketOf p a) →
        s.joined m ≤ bucketOf p a) ∧
      (s.Due p now (bucketOf p m) → s.joined m ≤ bucketOf p m ∧ m = final m.open ∧
        (bucketOf p m).add p = m.open.add .minute)

/-! ## Buckets on the grid -/

variable {p : Duration} {a m : Candle} {now : Time}

theorem larger_grid (hp : p ∈ larger) :
    0 < p.toInt ∧ p.toInt % Duration.minute.toInt = 0 ∧ p ≠ .minute := by
  have hall : ∀ q ∈ larger, 0 < q.toInt ∧ q.toInt % Duration.minute.toInt = 0 ∧ q ≠ .minute := by
    decide +kernel
  exact hall p hp

/-- A bucket is the point of the grid at or before a minute. -/
theorem bucketOf_grid (hp : 0 < p.toInt) (m : Candle) :
    bucketOf p m % p.toInt = 0 ∧ bucketOf p m ≤ m.open ∧ m.open < bucketOf p m + p.toInt := by
  obtain ⟨hgrid, hle, hlt, -⟩ := floor_grid m.open hp
  exact ⟨hgrid, hle, hlt⟩

theorem bucketOf_eq (hp : 0 < p.toInt) {t : Time} (ht : t % p.toInt = 0) (hle : t ≤ m.open)
    (hlt : m.open < t + p.toInt) : bucketOf p m = t := by
  obtain ⟨hgrid, hbefore, hafter⟩ := bucketOf_grid hp m
  rcases le_total t (bucketOf p m) with h | h
  · exact grid_unique hgrid ht h (hbefore.trans_lt hlt)
  · exact (grid_unique ht hgrid h (hle.trans_lt hafter)).symm

/-- The minute after the last one of a bucket begins the next. -/
theorem next_bucket (hp : p ∈ larger) (ha : a.open % Duration.minute.toInt = 0)
    (hm : m.open = a.open.add .minute) (hne : bucketOf p a ≠ bucketOf p m) :
    m.open = bucketOf p a + p.toInt ∧ bucketOf p m = m.open := by
  obtain ⟨hpos, hminutes, -⟩ := larger_grid hp
  obtain ⟨hgrid, hle, hlt⟩ := bucketOf_grid hpos a
  have hend : bucketOf p a + p.toInt ≤ m.open := by
    by_contra hin
    have hle' : bucketOf p a ≤ m.open := hle.trans (by
      rw [hm, Time.add]
      exact Int.le_add_of_nonneg_right (by decide))
    exact hne (bucketOf_eq hpos hgrid hle' (not_le.mp hin)).symm
  have hstep : m.open < bucketOf p a + p.toInt + Duration.minute.toInt := by
    rw [hm, Time.add]
    exact Int.add_lt_add_right hlt _
  have hmgrid : m.open % Duration.minute.toInt = 0 := by
    rw [hm, Time.add, Int.add_emod_right, ha]
  have hendgrid : (bucketOf p a + p.toInt) % p.toInt = 0 := by rw [Int.add_emod_right, hgrid]
  have hdvd : (bucketOf p a + p.toInt) % Duration.minute.toInt = 0 :=
    Int.emod_eq_zero_of_dvd
      ((Int.dvd_of_emod_eq_zero hminutes).trans (Int.dvd_of_emod_eq_zero hendgrid))
  have heq : m.open = bucketOf p a + p.toInt := grid_unique hmgrid hdvd hend hstep
  refine ⟨heq, bucketOf_eq hpos ?_ le_rfl (Int.lt_add_of_pos_right _ hpos)⟩
  rw [heq]
  exact hendgrid

/-- The minutes received of the last one's bucket are all there are before it, in their final
versions, and itself. -/
def Gathered (final : Time → Candle) (p : Duration) (ms : List Candle) (a : Candle) : Prop :=
  ∃ n : ℕ, a.open = bucketOf p a + n * Duration.minute.toInt ∧
    inBucket p ms (bucketOf p a) =
      ((List.range n).map fun i : ℕ => final (bucketOf p a + i * Duration.minute.toInt)) ++ [a]

variable {final : Time → Candle} {ms : List Candle}

/-- With the last minute of the bucket, these are all its minutes. -/
theorem Gathered.complete (h : Gathered final p ms a) (hfinal : a = final a.open)
    (hend : bucketOf p a + p.toInt = a.open + Duration.minute.toInt) :
    inBucket p ms (bucketOf p a) = (minutesOf p (bucketOf p a)).map final := by
  obtain ⟨n, hopen, hin⟩ := h
  have hcount : p.toInt / Duration.minute.toInt = (n + 1 : ℕ) := by
    have hlength : p.toInt = (n + 1 : ℕ) * Duration.minute.toInt := by
      rw [Nat.cast_succ, Int.add_mul, Int.one_mul]
      refine Int.add_left_cancel (a := bucketOf p a) (hend.trans ?_)
      rw [← Int.add_assoc, ← hopen]
    rw [hlength]
    exact Int.mul_ediv_cancel _ (by decide)
  rw [hin, minutesOf, hcount, Int.toNat_natCast, List.range_succ, List.map_append, List.map_append,
    List.map_map, List.map_singleton, List.map_singleton, ← hopen, ← hfinal]
  rfl

/-! ## What the signals accept -/

variable {bars out : List Candle} {b : Candle}

theorem follows_priced : Strategy.Follows (bars.map priced) (priced b) ↔
    ∀ last ∈ bars.getLast?, last.open < b.open := by
  rw [Strategy.Follows, List.getLast?_map]
  simp [priced]

/-- What a signal accepts does not depend on volumes. -/
theorem foldl_keepBar_priced (now : Time) (out bars : List Candle) :
    (out.foldl (keepBar now) bars).map priced =
      (out.map priced).foldl (Strategy.keep now) (bars.map priced) := by
  induction out generalizing bars with
  | nil => rfl
  | cons b out ih =>
    have hkeep : (keepBar now bars b).map priced =
        Strategy.keep now (bars.map priced) (priced b) := by
      rw [keepBar, Strategy.keep]
      split
      · rw [List.map_append, List.map_singleton]
      · rfl
    rw [List.foldl_cons, ih, hkeep]
    rfl

/-- A bar that is kept from those offered closed by the clock and follows the ones before. -/
theorem mem_foldl_keepBar (h : b ∈ out.foldl (keepBar now) bars) : b ∈ bars ∨
    b ∈ out ∧ (priced b).Closed now ∧ ∀ last ∈ bars.getLast?, last.open < b.open := by
  induction out generalizing bars with
  | nil => exact .inl h
  | cons c out ih =>
    have hkeep : keepBar now bars c = bars ∨ (keepBar now bars c = bars ++ [c] ∧
        (priced c).Closed now ∧ ∀ last ∈ bars.getLast?, last.open < c.open) := by
      rw [keepBar]
      split
      · next hkept => exact .inr ⟨rfl, hkept.1, follows_priced.mp hkept.2⟩
      · exact .inl rfl
    rcases ih h with hin | ⟨hout, hclosed, hfollows⟩
    · rcases hkeep with hsame | ⟨hkept, hclosed, hfollows⟩
      · exact .inl (hsame ▸ hin)
      · rw [hkept] at hin
        rcases List.mem_append.mp hin with hin | hin
        · exact .inl hin
        · rw [List.mem_singleton.mp hin]
          exact .inr ⟨List.mem_cons_self, hclosed, hfollows⟩
    · refine .inr ⟨List.mem_cons_of_mem _ hout, hclosed, fun last hlast => ?_⟩
      rcases hkeep with hsame | ⟨hkept, -, hbefore⟩
      · exact hfollows last (by rwa [hsame])
      · have hlt := hfollows c (by rw [hkept, List.getLast?_concat]; rfl)
        exact (hbefore last hlast).trans hlt

/-- Bars applied one after the other. -/
theorem accepted_applied (events : List Event) (now : Time) (out : List Candle) :
    accepted (events ++ out.map fun b => .apply (priced b) now) =
      (out.map priced).foldl (Strategy.keep now) (accepted events) := by
  rw [accepted, List.foldl_append, List.foldl_map, List.foldl_map]
  rfl

/-! ## One action after the other -/

namespace Feed

variable {s s' : Feed} {act : FeedAction}

/-- What every step keeps: the builders are those of the stream, which is gathered from the bucket
on that it began in time for; the signals accepted the bars. -/
structure Steady (final : Time → Candle) (s : Feed) : Prop where
  builders : ∀ p, s.builders p = (BarBuilder.new p).after s.received
  stream : MinuteStream s.received
  grid : ∀ m ∈ s.received, m.open % Duration.minute.toInt = 0
  gathered : ∀ p ∈ larger, ∀ a ∈ s.received.getLast?, ∀ first ∈ s.received.head?,
    first.open ≤ bucketOf p a → Gathered final p s.received a
  signals : ∀ p, accepted (s.events p) = (s.bars p).map priced

theorem steady_start (final : Time → Candle) : Steady final start where
  builders _ := rfl
  stream := ⟨nofun, List.IsChain.nil⟩
  grid := nofun
  gathered _ _ _ ha := nomatch ha
  signals _ := rfl

/-- A complete stream goes on in order. -/
theorem Steady.stream_next (h : Steady final s) (hm : s.Complete final (.minute m now)) :
    MinuteStream (s.received ++ [m]) where
  priced a ha := by
    rcases List.mem_append.mp ha with ha | ha
    · exact h.stream.priced a ha
    · rw [List.mem_singleton.mp ha]
      exact hm.2.2.1
  continues := by
    refine List.isChain_append.mpr ⟨h.stream.continues, List.isChain_singleton m, ?_⟩
    rintro a ha _ ⟨⟩
    exact (hm.2.2.2 a ha).1

/-- The bucket of the next minute is gathered when the stream began in time for it. -/
theorem Steady.gathered_next (h : Steady final s) (hm : s.Complete final (.minute m now))
    (hp : p ∈ larger) (hjoined : s.joined m ≤ bucketOf p m) :
    Gathered final p (s.received ++ [m]) m := by
  obtain ⟨hpos, -, -⟩ := larger_grid hp
  have hstream := h.stream_next hm
  have hfresh : inBucket p (s.received ++ [m]) (bucketOf p m) = [m] →
      bucketOf p m = m.open → Gathered final p (s.received ++ [m]) m := fun hone hbegins =>
    ⟨0, by simp [hbegins], by simpa using hone⟩
  rcases List.eq_nil_or_concat' s.received with hnil | ⟨ms, a, hms⟩
  · rw [joined, hnil, List.head?_nil, Option.getD_none] at hjoined
    refine hfresh ?_ (le_antisymm (bucketOf_grid hpos m).2.1 hjoined)
    rw [hnil, inBucket, versions]
    simp
  · have hlast : a ∈ s.received.getLast? := by rw [hms, List.getLast?_concat]; rfl
    obtain ⟨hcontinues, hnext⟩ := hm.2.2.2 a hlast
    rw [hms] at hstream
    by_cases heq : bucketOf p a = bucketOf p m
    · obtain ⟨first, hfirst⟩ : ∃ first, s.received.head? = some first :=
        Option.isSome_iff_exists.mp (by rw [hms]; simp)
      have hin : first.open ≤ bucketOf p a := by
        rw [heq]
        rw [joined, hfirst] at hjoined
        exact hjoined
      obtain ⟨n, hopen, hgathered⟩ := h.gathered p hp a hlast first hfirst hin
      obtain ⟨pre, hbefore, hafter⟩ := inBucket_same hstream heq
      rw [hms, heq, hbefore] at hgathered
      rw [heq] at hopen
      rw [hms]
      rcases hnext with hsame | ⟨hfinal, hlater⟩
      · rw [if_pos hsame] at hgathered
        refine ⟨n, hsame.trans hopen, ?_⟩
        rw [hafter, (List.append_inj' hgathered rfl).1]
      · have hne : m.open ≠ a.open := by
          rw [hlater, Time.add]
          have hminute : (0 : ℤ) < Duration.minute.toInt := by decide
          exact (Int.lt_add_of_pos_right _ hminute).ne'
        rw [if_neg hne, List.append_nil] at hgathered
        refine ⟨n + 1, ?_, ?_⟩
        · rw [hlater, Time.add, hopen, Nat.cast_succ, Int.add_mul, Int.one_mul, Int.add_assoc]
        · rw [hafter, hgathered, List.range_succ, List.map_append, List.map_singleton, ← hopen,
            ← hfinal]
    · have hlater : m.open = a.open.add .minute := hnext.elim
        (fun hsame => absurd (by rw [bucketOf, bucketOf, hsame]) heq) And.right
      have ha := h.grid a (by rw [hms]; exact List.mem_append_right _ (List.mem_singleton_self a))
      rw [hms] at hfresh ⊢
      exact hfresh (inBucket_next hpos hstream heq).2 (next_bucket hp ha hlater heq).2

theorem step_iff : Step final s act s' ↔ s.Complete final act ∧ s.next act = s' := by
  rw [Step, attempt, Option.ite_none_right_eq_some, Option.some.injEq]

/-- Every step keeps it. -/
theorem Steady.step (h : Steady final s) (hs : Step final s act s') : Steady final s' := by
  obtain ⟨hlegal, rfl⟩ := step_iff.mp hs
  cases act with
  | seed p hist now =>
    refine ⟨h.builders, h.stream, h.grid, h.gathered, fun q => ?_⟩
    change accepted (Function.update s.events p _ q) = (Function.update s.bars p _ q).map priced
    by_cases hq : q = p
    · subst hq
      rw [Function.update_self, Function.update_self, Strategy.accepted_append,
        foldl_keepBar_priced]
      rfl
    · rw [Function.update_of_ne hq, Function.update_of_ne hq]
      exact h.signals q
  | subscribe =>
    exact ⟨fun _ => rfl, (steady_start final).stream, nofun, fun _ _ _ ha => (nomatch ha),
      h.signals⟩
  | minute m now =>
    refine ⟨fun p => ?_, h.stream_next hlegal, fun a ha => ?_, fun p hp a ha first hfirst hle => ?_,
      fun p => ?_⟩
    · change ((s.builders p).add m).1 = _
      rw [h.builders]
      exact (after_concat _ _ _).symm
    · rcases List.mem_append.mp ha with ha | ha
      · exact h.grid a ha
      · rw [List.mem_singleton.mp ha]
        exact hlegal.2.1
    · have hlast : a = m := by
        have hconcat : (s.received ++ [m]).getLast? = some a := ha
        rw [List.getLast?_concat] at hconcat
        exact (Option.some.inj hconcat).symm
      subst hlast
      have hjoined : s.joined a = first.open := by
        have hhead : (s.received ++ [a]).head? = some first := hfirst
        rw [joined]
        cases hr : s.received with
        | nil =>
          rw [hr] at hhead
          rw [List.head?_nil, Option.getD_none, Option.some.inj hhead]
        | cons b rest =>
          rw [hr] at hhead
          rw [List.head?_cons, Option.getD_some, Option.some.inj hhead]
      exact h.gathered_next hlegal hp (hjoined ▸ hle)
    · change accepted (s.events p ++ _) = ((s.offers m p).foldl (keepBar now) (s.bars p)).map priced
      rw [accepted_applied, foldl_keepBar_priced, h.signals]

/-- A minute leads to whole bars only, when those that are due are whole. -/
theorem Steady.whole_minute (h : Steady final s) (hm : s.Complete final (.minute m now))
    (hsound : s.Sound final (.minute m now)) (hp : p ∈ larger)
    (hwhole : ∀ bar ∈ s.bars p, WholeBar final p bar) :
    ∀ bar ∈ (s.next (.minute m now)).bars p, WholeBar final p bar := by
  intro bar hbar
  rcases mem_foldl_keepBar hbar with hold | ⟨hout, hclosed, hfollows⟩
  · exact hwhole bar hold
  obtain ⟨hpos, -, hne⟩ := larger_grid hp
  have hstream := h.stream_next hm
  obtain ⟨hfolds, hopens⟩ := returned_spec hpos hstream
  have hreturned : s.offers m p = BarBuilder.returned p s.received m := by
    rw [offers, if_neg hne, h.builders]
    rfl
  rw [hreturned] at hout
  obtain ⟨hperiod, hfold⟩ := hfolds bar hout
  have hdue : s.Due p now bar.open := by
    refine ⟨?_, hfollows⟩
    rw [← hperiod]
    exact hclosed
  obtain ⟨hleaves, hforms⟩ := hsound p hp
  have hopen := List.mem_map_of_mem (f := (·.open)) hout
  rw [hopens] at hopen
  rcases List.mem_append.mp hopen with hleft | hforming
  · -- the bucket is left: the minute before was its last one, and final
    rcases List.eq_nil_or_concat' s.received with hnil | ⟨ms, a, hms⟩
    · rw [hnil] at hleft
      cases hleft
    have hlast : a ∈ s.received.getLast? := by rw [hms, List.getLast?_concat]; rfl
    rw [show s.received.getLast? = some a from hlast, Option.elim_some] at hleft
    split at hleft
    · cases hleft
    next heq =>
    rw [List.mem_singleton] at hleft
    have hjoined := hleaves a hlast heq (hleft ▸ hdue)
    obtain ⟨-, hnext⟩ := hm.2.2.2 a hlast
    obtain ⟨hfinal, hlater⟩ := hnext.resolve_left fun hsame =>
      heq (by rw [bucketOf, bucketOf, hsame])
    have hgrid := h.grid a (by rw [hms]; exact List.mem_append_right _ (List.mem_singleton_self a))
    have hend := (next_bucket hp hgrid hlater heq).1
    obtain ⟨first, hfirst⟩ : ∃ first, s.received.head? = some first :=
      Option.isSome_iff_exists.mp (by rw [hms]; simp)
    rw [joined, hfirst] at hjoined
    have hgathered := (h.gathered p hp a hlast first hfirst hjoined).complete hfinal
      (hend.symm.trans hlater)
    rw [hms] at hstream hgathered hfold
    rw [hleft, (inBucket_next hpos hstream heq).1, hgathered, ← hleft] at hfold
    exact ⟨hperiod, hleft ▸ (bucketOf_grid hpos a).1, hfold⟩
  · -- the bucket is forming, but over by the clock: this is its last minute, and final
    rw [List.mem_singleton] at hforming
    obtain ⟨hjoined, hfinal, hend⟩ := hforms (hforming ▸ hdue)
    rw [hforming, (h.gathered_next hm hp hjoined).complete hfinal hend, ← hforming] at hfold
    exact ⟨hperiod, hforming ▸ (bucketOf_grid hpos m).1, hfold⟩

/-- Whole bars stay whole bars over a step that is sound. -/
theorem Steady.whole_step (h : Steady final s) (hs : Step final s act s')
    (hsound : s.Sound final act) (hwhole : ∀ p ∈ larger, ∀ bar ∈ s.bars p, WholeBar final p bar) :
    ∀ p ∈ larger, ∀ bar ∈ s'.bars p, WholeBar final p bar := by
  obtain ⟨hlegal, rfl⟩ := step_iff.mp hs
  cases act with
  | seed q hist now =>
    intro p hp bar hbar
    change bar ∈ Function.update s.bars q _ p at hbar
    by_cases hq : p = q
    · subst hq
      rw [Function.update_self] at hbar
      rcases mem_foldl_keepBar hbar with hnone | ⟨hin, hclosed, -⟩
      · cases hnone
      · exact hsound hp bar (hist.perm.mem_iff.mp hin) hclosed
    · rw [Function.update_of_ne hq] at hbar
      exact hwhole p hp bar hbar
  | subscribe => exact hwhole
  | minute m now => exact fun p hp => h.whole_minute hlegal hsound hp (hwhole p hp)

/-- In a run whose steps are all sound, every larger bar that was accepted as closed is the fold of
the final versions of all minutes of its bucket. What the signals keep is the end of these bars. -/
theorem accepted_bars_whole {acts : List FeedAction}
    (h : Run (Step final) (Sound final) start acts s) : ∀ p ∈ larger,
      (∀ bar ∈ s.bars p, WholeBar final p bar) ∧
      (∀ c : Strategy.DonchianConfig, c.validate = .ok () →
        (c.run (s.events p)).bars = ((s.bars p).map priced).rtake c.history) ∧
      ∀ (c : Strategy.MACrossConfig) (x : Strategy.MACross), c.validate = .ok () →
        c.run (s.events p) = some x → x.bars = ((s.bars p).map priced).rtake c.history := by
  obtain ⟨hsteady, hwhole⟩ := h.invariant
    (I := fun s => Steady final s ∧ ∀ p ∈ larger, ∀ bar ∈ s.bars p, WholeBar final p bar)
    ⟨steady_start final, nofun⟩ fun _ _ _ ⟨hsteady, hwhole⟩ hok hs =>
      ⟨hsteady.step hs, hsteady.whole_step hs hok hwhole⟩
  refine fun p hp => ⟨hwhole p hp, fun c hc => ?_, fun c x hc hx => ?_⟩
  · rw [c.run_bars hc, hsteady.signals]
  · rw [c.run_bars hc hx, hsteady.signals]

/-- A minute with a volume; the one at time zero opens lower. -/
def minuteBar (volume : Fixed.D) (t : Time) : Candle :=
  ⟨t, .minute, if t = 0 then 5 else 10, 12, 4, 11, volume, 1⟩

/-- A minute of the clock. -/
def clock (n : ℤ) : Time := n * 60000000000

/-- The minutes from a number up to another, each arriving half a minute after it opened. -/
def minutes (first last : ℕ) : List FeedAction :=
  (List.range' first (last - first)).map fun n : ℕ =>
    .minute (minuteBar 2 (clock n)) (clock n + 30000000000)

/-- What can be decided of soundness. -/
def SoundMinute (final : Time → Candle) (s : Feed) : FeedAction → Prop
  | .seed .. => False
  | .subscribe => True
  | .minute m now => s.Sound final (.minute m now)

instance (final : Time → Candle) (s : Feed) : DecidablePred (s.SoundMinute final)
  | .seed .. => isFalse id
  | .subscribe => isTrue trivial
  | .minute m now => by
    have (p : Duration) (now bucket : Time) : Decidable (s.Due p now bucket) :=
      inferInstanceAs (Decidable (_ ∧ ∀ b ∈ (s.bars p).getLast?, _))
    exact inferInstanceAs (Decidable (∀ p ∈ larger, _ ∧ _))

set_option maxRecDepth 8000 in
/-- Five minutes from the subscription on make a bar. -/
theorem accepted_bars_whole_five : ∃ s : Feed, (s.bars (5 * .minute)).length = 1 ∧
    ∀ bar ∈ s.bars (5 * .minute), WholeBar (minuteBar 2) (5 * .minute) bar := by
  have hbars : (exec (fun s act => if SoundMinute (minuteBar 2) s act then
      s.attempt (minuteBar 2) act else none) start (.subscribe :: minutes 0 6)).map
        (fun s => (s.bars (5 * .minute)).length) = some 1 := by decide +kernel
  obtain ⟨s, hs, hlength⟩ := Option.map_eq_some_iff.mp hbars
  have hsound : ∀ (t : Feed) act, t.SoundMinute (minuteBar 2) act → t.Sound (minuteBar 2) act := by
    intro t act hok
    cases act with
    | seed => exact absurd hok id
    | subscribe => exact trivial
    | minute m now => exact hok
  have hrun := (Run.of_exec_guarded hs).mono hsound
  exact ⟨s, hlength, (accepted_bars_whole hrun _ (by decide +kernel)).1⟩

/-- Five minutes whose last one arrives in a version before the final one once the five are over. -/
def corrected : List FeedAction :=
  .subscribe :: minutes 0 4 ++ [.minute (minuteBar 1 (clock 4)) (clock 5),
    .minute (minuteBar 2 (clock 4)) (clock 5 + 1000000000)]

set_option maxRecDepth 8000 in
/-- A bar is accepted of five minutes that the stream joined at the last one, and of five before
their last one is final. -/
theorem early_bars_accepted :
    (∃ s, Run (Step (minuteBar 2)) Always start (.subscribe :: minutes 4 6) s ∧
      ∃ bar ∈ s.bars (5 * .minute), ¬ WholeBar (minuteBar 2) (5 * .minute) bar) ∧
    ∃ s, Run (Step (minuteBar 2)) Always start corrected s ∧
      ∃ bar ∈ s.bars (5 * .minute), ¬ WholeBar (minuteBar 2) (5 * .minute) bar := by
  have hjoined : (exec (attempt (minuteBar 2)) start (.subscribe :: minutes 4 6)).map
      (fun s => s.bars (5 * .minute)) = some [⟨0, 5 * .minute, 10, 12, 4, 11, 2, 1⟩] := by decide
  have hcorrected : (exec (attempt (minuteBar 2)) start corrected).map
      (fun s => s.bars (5 * .minute)) = some [⟨0, 5 * .minute, 5, 12, 4, 11, 9, 5⟩] := by decide
  obtain ⟨s, hs, hbars⟩ := Option.map_eq_some_iff.mp hjoined
  obtain ⟨s', hs', hbars'⟩ := Option.map_eq_some_iff.mp hcorrected
  refine ⟨⟨s, Run.of_exec hs fun _ _ _ => trivial, _, hbars ▸ List.mem_singleton_self _, ?_⟩,
    s', Run.of_exec hs' fun _ _ _ => trivial, _, hbars' ▸ List.mem_singleton_self _, ?_⟩
  · exact fun hwhole => absurd hwhole.folds.o (by decide)
  · exact fun hwhole => absurd hwhole.folds.volume (by decide)

end Feed

end SuperAgent.Platform
