import SuperAgent.Strategy.ORB
import SuperAgent.Venue.Minutes

/-!
# Larger bars from minutes

A builder keeps the bar it is forming and the last minute folded into it, whose
share of the sums is taken back when the minute is repeated. A minute of another
bucket returns the bar before it first.
-/

namespace SuperAgent.Platform

open Strategy (truncate)
open Venue (Candle Folds MinuteStream mem_of_mem_versions versions versions_next)

/-- The bar of a larger period that is being built. -/
structure BarBuilder where
  period : Duration
  cur : Option Candle
  lastMinute : Time
  lastO : Candle

namespace BarBuilder

/-- A builder before its first minute. -/
def new (period : Duration) : BarBuilder := ⟨period, none, 0, ⟨0, 0, 0, 0, 0, 0, 0, 0⟩⟩

/-- The forming bar with a minute folded in. -/
def fold (b : BarBuilder) (cur m : Candle) : Candle :=
  -- the same minute again: take back what it added last time
  let cur := if m.open = b.lastMinute then { cur with
      volume := cur.volume - b.lastO.volume
      trades := cur.trades - b.lastO.trades }
    else cur
  { cur with
    h := if cur.h < m.h then m.h else cur.h
    l := if m.l < cur.l ∨ cur.l = 0 then m.l else cur.l
    c := m.c
    volume := cur.volume + m.volume
    trades := cur.trades + m.trades }

/-- The builder and the bars it returns once a minute arrived. -/
def add (b : BarBuilder) (m : Candle) : BarBuilder × List Candle :=
  let bucket := truncate m.open b.period
  let (out, cur) := match b.cur with
    | some c => if c.open = bucket then ([], some c) else ([c], none)
    | none => ([], none)
  let forming := match cur with
    | none => { m with «open» := bucket, period := b.period }
    | some c => b.fold c m
  ({ b with cur := some forming, lastMinute := m.open, lastO := m }, out ++ [forming])

/-- The builder after minutes. -/
def after (b : BarBuilder) (ms : List Candle) : BarBuilder := ms.foldl (fun b m => (b.add m).1) b

/-- What is returned for minutes, one after the other. -/
def stream (b : BarBuilder) : List Candle → List (List Candle)
  | [] => []
  | m :: ms => (b.add m).2 :: (b.add m).1.stream ms

/-- What is returned for a minute that follows others. -/
def returned (period : Duration) (ms : List Candle) (m : Candle) : List Candle :=
  (((new period).after ms).add m).2

/-- The bars that are returned before the last one of their minute. -/
def closed (period : Duration) (ms : List Candle) : List Candle :=
  ((new period).stream ms).flatMap List.dropLast

end BarBuilder

/-- The bucket of a minute. -/
def bucketOf (period : Duration) (m : Candle) : Time := truncate m.open period

/-- The latest versions of a bucket's minutes. -/
def inBucket (period : Duration) (ms : List Candle) (bucket : Time) : List Candle :=
  (versions ms).filter (bucketOf period · = bucket)

/-- What a builder returns for a stream: folds of their buckets' minutes so far; the bar of the
minute's bucket last, before it that of the bucket the stream leaves. The buckets left are those that
a minute of a later one follows, each once and in order. -/
structure Built (period : Duration) (ms : List Candle) : Prop where
  folds : ∀ init m rest, ms = init ++ m :: rest → ∀ bar ∈ BarBuilder.returned period init m,
    bar.period = period ∧ Folds (inBucket period (init ++ [m]) bar.open) bar
  opens : ∀ init m rest, ms = init ++ m :: rest →
    (BarBuilder.returned period init m).map (·.open) =
      (init.getLast?.elim [] fun a => if bucketOf period a = bucketOf period m then []
        else [bucketOf period a]) ++ [bucketOf period m]
  ascending : ((BarBuilder.closed period ms).map (·.open)).Pairwise (· < ·)
  left : ∀ t, t ∈ (BarBuilder.closed period ms).map (·.open) ↔
    (∃ m ∈ ms, bucketOf period m = t) ∧ ∃ m ∈ ms, t < bucketOf period m

/-! ## Buckets -/

variable {p : Duration} {ms : List Candle} {a m : Candle}

/-- Later minutes are in later buckets or in the same. -/
theorem bucketOf_mono (hp : 0 < p.toInt) (h : a.open ≤ m.open) : bucketOf p a ≤ bucketOf p m := by
  have hfloor : ∀ t : Time, truncate t p = p.toInt * (t / p.toInt) := fun t => by
    rw [truncate, Int.emod_def, sub_sub_cancel]
  rw [bucketOf, bucketOf, hfloor, hfloor]
  exact Int.mul_le_mul_of_nonneg_left (Int.ediv_le_ediv hp h) hp.le

/-- The bucket of the last minute goes on with another minute or version. -/
theorem inBucket_same (h : MinuteStream (ms ++ [a] ++ [m])) (heq : bucketOf p a = bucketOf p m) :
    ∃ pre, inBucket p (ms ++ [a]) (bucketOf p m) = pre ++ (if m.open = a.open then [a] else []) ∧
      inBucket p (ms ++ [a] ++ [m]) (bucketOf p m) = pre ++ [m] := by
  obtain ⟨pre, hbefore, hafter⟩ := versions_next h
  refine ⟨pre.filter (bucketOf p · = bucketOf p m), ?_, ?_⟩
  · rw [inBucket, hbefore, List.filter_append]
    split <;> simp [heq]
  · rw [inBucket, hafter, List.filter_append]
    simp

/-- A bucket that is left has the minutes it had, and the next one begins with its first. -/
theorem inBucket_next (hp : 0 < p.toInt) (h : MinuteStream (ms ++ [a] ++ [m]))
    (hne : bucketOf p a ≠ bucketOf p m) :
    inBucket p (ms ++ [a] ++ [m]) (bucketOf p a) = inBucket p (ms ++ [a]) (bucketOf p a) ∧
      inBucket p (ms ++ [a] ++ [m]) (bucketOf p m) = [m] := by
  have hopen : m.open ≠ a.open := fun heq => hne (by rw [bucketOf, bucketOf, heq])
  obtain ⟨pre, hbefore, hafter⟩ := versions_next h
  rw [if_neg hopen, List.append_nil] at hbefore
  have hlt := lt_of_le_of_ne (bucketOf_mono hp h.last.later) hne
  constructor
  · rw [inBucket, hafter, inBucket, hbefore, List.filter_append]
    simp [hne.symm]
  · have hempty : pre.filter (bucketOf p · = bucketOf p m) = [] := by
      rw [List.filter_eq_nil_iff]
      intro b hb
      rw [← hbefore] at hb
      have hle := bucketOf_mono hp (h.init.le_last (mem_of_mem_versions hb))
      rw [decide_eq_true_eq]
      exact (hle.trans_lt hlt).ne
    rw [inBucket, hafter, List.filter_append, hempty]
    simp

/-! ## One minute after the other -/

/-- The builder once minutes arrived: what is forming sums up those of the last one's bucket. -/
structure Building (p : Duration) (ms : List Candle) (last : Candle) (b : BarBuilder) : Prop where
  period : b.period = p
  minute : b.lastMinute = last.open
  version : b.lastO = last
  cur : ∃ bar, b.cur = some bar ∧ bar.open = bucketOf p last ∧ bar.period = p ∧
    Folds (inBucket p (ms ++ [last]) (bucketOf p last)) bar

variable {b : BarBuilder}

/-- The first minute. -/
theorem add_first (p : Duration) (m : Candle) :
    Building p [] m ((BarBuilder.new p).add m).1 ∧
      ∀ bar ∈ ((BarBuilder.new p).add m).2, bar.period = p ∧
        Folds (inBucket p [m] bar.open) bar := by
  have hfold := Folds.single (bucketOf p m) p m
  have hbucket : inBucket p [m] (bucketOf p m) = [m] := by
    rw [inBucket, versions]
    simp
  rw [← hbucket] at hfold
  refine ⟨⟨rfl, rfl, rfl, _, rfl, rfl, rfl, hfold⟩, fun bar hbar => ?_⟩
  obtain rfl := List.mem_singleton.mp hbar
  exact ⟨rfl, hfold⟩

/-- Folding a minute in. -/
theorem Building.fold (hb : Building p ms a b) (h : MinuteStream (ms ++ [a] ++ [m]))
    (heq : bucketOf p a = bucketOf p m) {cur : Candle} (hcur : b.cur = some cur) :
    Folds (inBucket p (ms ++ [a] ++ [m]) (bucketOf p m)) (b.fold cur m) := by
  obtain ⟨bar, hbar, -, -, hfolds⟩ := hb.cur
  obtain rfl := Option.some.inj (hcur.symm.trans hbar)
  obtain ⟨pre, hbefore, hafter⟩ := inBucket_same h heq
  have hpos : 0 < cur.l := hfolds.low_pos fun u hu =>
    (h.init.priced u (mem_of_mem_versions (List.mem_filter.mp hu).1)).2.2.1
  rw [heq, hbefore] at hfolds
  rw [hafter, BarBuilder.fold, hb.minute, hb.version]
  split
  · next hsame =>
    rw [if_pos hsame] at hfolds
    have hnext := hfolds.next (m := m) hpos fun u hu => by
      rw [List.mem_singleton.mp hu]
      exact h.last.widened hsame
    simpa using hnext
  · next hother =>
    rw [if_neg hother] at hfolds
    simpa using hfolds.next (m := m) hpos nofun

/-- The next minute. -/
theorem Building.add (hb : Building p ms a b) (hp : 0 < p.toInt)
    (h : MinuteStream (ms ++ [a] ++ [m])) :
    Building p (ms ++ [a]) m (b.add m).1 ∧
      (∀ bar ∈ (b.add m).2, bar.period = p ∧
        Folds (inBucket p (ms ++ [a] ++ [m]) bar.open) bar) ∧
      (b.add m).2.map (·.open) =
        (if bucketOf p a = bucketOf p m then [] else [bucketOf p a]) ++ [bucketOf p m] := by
  obtain ⟨cur, hcur, hopen, hperiod, hfolds⟩ := hb.cur
  by_cases heq : bucketOf p a = bucketOf p m
  · have hadd : b.add m = ({ b with
        cur := some (b.fold cur m), lastMinute := m.open, lastO := m }, [b.fold cur m]) := by
      rw [BarBuilder.add, hcur, hb.period]
      simp only [hopen, heq]
      simp [bucketOf]
    have hnew := hb.fold h heq hcur
    have hopens : (b.fold cur m).open = bucketOf p m := by
      rw [← heq, ← hopen, BarBuilder.fold]
      split <;> rfl
    have hperiods : (b.fold cur m).period = p := by
      rw [← hperiod, BarBuilder.fold]
      split <;> rfl
    rw [hadd, if_pos heq]
    refine ⟨⟨hb.period, rfl, rfl, _, rfl, hopens, hperiods, hnew⟩, fun bar hbar => ?_, ?_⟩
    · rw [List.mem_singleton.mp hbar, hopens]
      exact ⟨hperiods, hnew⟩
    · rw [List.map_singleton, hopens]
      rfl
  · have hadd : b.add m = ({ b with
        cur := some { m with «open» := bucketOf p m, period := p }, lastMinute := m.open,
        lastO := m }, [cur, { m with «open» := bucketOf p m, period := p }]) := by
      have hne : cur.open ≠ truncate m.open p := by
        rw [hopen]
        exact heq
      rw [BarBuilder.add, hcur, hb.period]
      simp only [if_neg hne]
      rfl
    obtain ⟨hleft, hone⟩ := inBucket_next hp h heq
    have hnew := Folds.single (bucketOf p m) p m
    rw [← hone] at hnew
    rw [hadd, if_neg heq]
    refine ⟨⟨hb.period, rfl, rfl, _, rfl, rfl, rfl, hnew⟩, fun bar hbar => ?_, ?_⟩
    · rcases List.mem_cons.mp hbar with rfl | hbar
      · rw [hopen, hleft]
        exact ⟨hperiod, hfolds⟩
      · obtain rfl := List.mem_singleton.mp hbar
        exact ⟨rfl, hnew⟩
    · rw [List.map_cons, List.map_singleton, hopen]
      rfl

/-! ## Whole streams -/

theorem after_concat (b : BarBuilder) (ms : List Candle) (m : Candle) :
    b.after (ms ++ [m]) = ((b.after ms).add m).1 := by
  rw [BarBuilder.after, List.foldl_append]
  rfl

theorem stream_concat (b : BarBuilder) (ms : List Candle) (m : Candle) :
    b.stream (ms ++ [m]) = b.stream ms ++ [((b.after ms).add m).2] := by
  induction ms generalizing b with
  | nil => rfl
  | cons u ms ih => exact congrArg _ (ih _)

theorem closed_concat (p : Duration) (ms : List Candle) (m : Candle) :
    BarBuilder.closed p (ms ++ [m]) =
      BarBuilder.closed p ms ++ (BarBuilder.returned p ms m).dropLast := by
  rw [BarBuilder.closed, stream_concat, List.flatMap_append, List.flatMap_singleton]
  rfl

/-- What is forming after a stream. -/
theorem building_after (hp : 0 < p.toInt) (h : MinuteStream (ms ++ [a])) :
    Building p ms a ((BarBuilder.new p).after (ms ++ [a])) := by
  induction ms using List.reverseRecOn generalizing a with
  | nil => exact (add_first p a).1
  | append_singleton ms u ih =>
    rw [after_concat]
    exact ((ih h.init).add hp h).1

/-- What is returned for the last minute of a stream. -/
theorem returned_spec (hp : 0 < p.toInt) (h : MinuteStream (ms ++ [m])) :
    (∀ bar ∈ BarBuilder.returned p ms m, bar.period = p ∧
        Folds (inBucket p (ms ++ [m]) bar.open) bar) ∧
      (BarBuilder.returned p ms m).map (·.open) =
        (ms.getLast?.elim [] fun a => if bucketOf p a = bucketOf p m then [] else [bucketOf p a]) ++
          [bucketOf p m] := by
  rcases List.eq_nil_or_concat' ms with rfl | ⟨ms, a, rfl⟩
  · exact ⟨(add_first p m).2, rfl⟩
  · rw [List.getLast?_concat]
    exact ((building_after hp h.init).add hp h).2

/-- The buckets a stream leaves with its last minute. -/
theorem opens_closed_concat (hp : 0 < p.toInt) (h : MinuteStream (ms ++ [m])) :
    (BarBuilder.closed p (ms ++ [m])).map (·.open) = (BarBuilder.closed p ms).map (·.open) ++
      ms.getLast?.elim [] fun a => if bucketOf p a = bucketOf p m then [] else [bucketOf p a] := by
  rw [closed_concat, List.map_append, List.map_dropLast, (returned_spec hp h).2,
    List.dropLast_concat]

/-- A bucket is left once a minute of a later one arrived. -/
theorem mem_closed_iff (hp : 0 < p.toInt) (h : MinuteStream ms) (t : Time) :
    t ∈ (BarBuilder.closed p ms).map (·.open) ↔
      (∃ m ∈ ms, bucketOf p m = t) ∧ ∃ m ∈ ms, t < bucketOf p m := by
  induction ms using List.reverseRecOn with
  | nil => exact iff_of_false nofun fun hmem => nomatch hmem.1
  | append_singleton ms m ih =>
    have hconcat : ∀ q : Candle → Prop, (∃ u ∈ ms ++ [m], q u) ↔ (∃ u ∈ ms, q u) ∨ q m := by
      intro q
      simp [or_and_right, exists_or]
    rw [opens_closed_concat hp h, List.mem_append, ih h.init, hconcat, hconcat]
    have hle : ∀ u ∈ ms, bucketOf p u ≤ bucketOf p m := fun u hu =>
      bucketOf_mono hp (h.le_last (List.mem_append_left _ hu))
    rcases List.eq_nil_or_concat' ms with rfl | ⟨init, a, rfl⟩
    · refine iff_of_false (by simp) ?_
      rintro ⟨hin, hlater⟩
      rcases hin with ⟨u, hu, -⟩ | rfl
      · cases hu
      · exact hlater.elim (fun ⟨u, hu, _⟩ => nomatch hu) (lt_irrefl _)
    · rw [List.getLast?_concat, Option.elim_some]
      have hlast : a ∈ init ++ [a] := List.mem_append_right _ (List.mem_singleton_self a)
      have hbefore : ∀ u ∈ init ++ [a], bucketOf p u ≤ bucketOf p a := fun u hu =>
        bucketOf_mono hp (h.init.le_last hu)
      by_cases heq : bucketOf p a = bucketOf p m
      · rw [if_pos heq]
        constructor
        · rintro (⟨hin, hlater⟩ | hnone)
          · exact ⟨.inl hin, .inl hlater⟩
          · cases hnone
        · rintro ⟨hin, hlater⟩
          refine .inl ⟨hin.elim id fun hm => ⟨a, hlast, heq.trans hm⟩, hlater.elim id fun hm => ?_⟩
          exact ⟨a, hlast, heq ▸ hm⟩
      · rw [if_neg heq, List.mem_singleton]
        have hlt := lt_of_le_of_ne (hle a hlast) heq
        constructor
        · rintro (⟨hin, hlater⟩ | rfl)
          · exact ⟨.inl hin, .inl hlater⟩
          · exact ⟨.inl ⟨a, hlast, rfl⟩, .inr hlt⟩
        · rintro ⟨⟨u, hu, rfl⟩ | rfl, hlater⟩
          · rcases (hbefore u hu).lt_or_eq with hlt | heq
            · exact .inl ⟨⟨u, hu, rfl⟩, a, hlast, hlt⟩
            · exact .inr heq
          · rcases hlater with ⟨u, hu, hlater⟩ | hlater
            · exact absurd hlater (hle u hu).not_gt
            · exact absurd hlater (lt_irrefl _)

/-- Larger bars are the folds of the minutes received, and every bucket that is left is returned once
and in order before the next. -/
theorem bars_built (hp : 0 < p.toInt) (h : MinuteStream ms) : Built p ms where
  folds init m rest heq := (returned_spec hp (h.upTo heq)).1
  opens init m rest heq := (returned_spec hp (h.upTo heq)).2
  ascending := by
    induction ms using List.reverseRecOn with
    | nil => exact List.Pairwise.nil
    | append_singleton ms m ih =>
      rw [opens_closed_concat hp h]
      refine List.pairwise_append.mpr ⟨ih h.init, ?_, fun t ht t' ht' => ?_⟩
      · cases ms.getLast? with
        | none => exact List.Pairwise.nil
        | some a =>
          rw [Option.elim_some]
          split
          · exact List.Pairwise.nil
          · exact List.pairwise_singleton _ _
      · obtain ⟨-, u, hu, hlt⟩ := (mem_closed_iff hp h.init t).mp ht
        rcases List.eq_nil_or_concat' ms with rfl | ⟨init, a, rfl⟩
        · cases hu
        · rw [List.getLast?_concat, Option.elim_some] at ht'
          split at ht'
          · cases ht'
          · rw [List.mem_singleton.mp ht']
            exact hlt.trans_le (bucketOf_mono hp (h.init.le_last hu))
  left := mem_closed_iff hp h

/-- A minute, the same one higher, and one of the next five. -/
def threeBars : List Candle :=
  [⟨0, .minute, 10, 12, 9, 11, 1, 1⟩, ⟨0, .minute, 10, 14, 9, 13, 3, 2⟩,
    ⟨5 * 60000000000, .minute, 12, 12, 8, 12, 1, 1⟩]

/-- The bars built of them. -/
theorem bars_built_five : Built (5 * .minute) threeBars := by
  refine bars_built (by decide) ⟨by decide, ?_⟩
  refine List.isChain_cons_cons.mpr ⟨⟨by decide, fun _ => by decide⟩, ?_⟩
  refine List.isChain_cons_cons.mpr ⟨⟨by decide, fun h => ?_⟩, List.isChain_singleton _⟩
  exact absurd h (by decide)

end SuperAgent.Platform
