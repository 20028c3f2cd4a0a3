import Mathlib.Data.List.Chain
import Mathlib.Order.Bounds.Basic
import SuperAgent.Core.Clock
import SuperAgent.Fixed.Decimal

/-!
# Minute bars and what they sum up to

A stream repeats a minute while it forms. What a longer bar stands for is the
fold of its minutes, each in its latest version.
-/

namespace SuperAgent.Venue

open Fixed (D)

/-- A bar of prices, with the volume and the number of trades. -/
structure Candle where
  «open» : Time
  period : Duration
  o : D
  h : D
  l : D
  c : D
  volume : D
  trades : Int64
  deriving DecidableEq

/-- A bar sums minutes up: first open, highest high, lowest low, last close; volumes and trades are
summed in their words. -/
structure Folds (mins : List Candle) (bar : Candle) : Prop where
  o : mins.head?.map (·.o) = some bar.o
  h : IsGreatest {x | ∃ m ∈ mins, m.h = x} bar.h
  l : IsLeast {x | ∃ m ∈ mins, m.l = x} bar.l
  c : mins.getLast?.map (·.c) = some bar.c
  volume : bar.volume = Int64.ofInt (mins.map (·.volume.toInt)).sum
  trades : bar.trades = Int64.ofInt (mins.map (·.trades.toInt)).sum

/-- The latest versions of the minutes received, in the order these came last. -/
def versions (ms : List Candle) : List Candle :=
  ms.foldl (fun l m => l.filter (·.open ≠ m.open) ++ [m]) []

/-- What a stream goes on with: a later minute, or the last one again, which keeps its open and has
no narrower extremes. -/
structure Continues (a m : Candle) : Prop where
  later : a.open ≤ m.open
  widened : m.open = a.open → m.o = a.o ∧ a.h ≤ m.h ∧ m.l ≤ a.l

/-- A stream of minutes in order, with positive prices. -/
structure MinuteStream (ms : List Candle) : Prop where
  priced : ∀ m ∈ ms, 0 < m.o ∧ 0 < m.h ∧ 0 < m.l ∧ 0 < m.c
  continues : ms.IsChain Continues

/-! ## Folds -/

variable {mins pre : List Candle} {bar a m : Candle}

/-- A single minute is its own fold. -/
theorem Folds.single (t : Time) (p : Duration) (m : Candle) :
    Folds [m] { m with «open» := t, period := p } where
  o := rfl
  h := ⟨⟨m, List.mem_singleton_self m, rfl⟩, by
    rintro x ⟨u, hu, rfl⟩
    rw [List.mem_singleton.mp hu]
    exact Int64.le_refl _⟩
  l := ⟨⟨m, List.mem_singleton_self m, rfl⟩, by
    rintro x ⟨u, hu, rfl⟩
    rw [List.mem_singleton.mp hu]
    exact Int64.le_refl _⟩
  c := rfl
  volume := by simp
  trades := by simp

/-- A fold's lowest low is positive when its minutes' lows are. -/
theorem Folds.low_pos (h : Folds mins bar) (hpos : ∀ m ∈ mins, 0 < m.l) : 0 < bar.l := by
  obtain ⟨m, hm, hl⟩ := h.l.1
  exact hl ▸ hpos m hm

/-- An extreme once the last minutes gave way to one that is at least as extreme. -/
theorem extreme_next {r : D → D → Prop} {f : Candle → D} {rest : List Candle} {b : D}
    {gives : Prop} [Decidable gives] (hrefl : ∀ x, r x x)
    (htrans : ∀ {x y z}, r x y → r y z → r x z) (hanti : ∀ {x y}, r x y → r y x → x = y)
    (h : (∃ u ∈ pre ++ rest, f u = b) ∧ ∀ ⦃x⦄, (∃ u ∈ pre ++ rest, f u = x) → r x b)
    (hrest : ∀ u ∈ rest, r (f u) (f m)) (hgives : gives → r b (f m))
    (hkeeps : ¬ gives → r (f m) b) :
    (∃ u ∈ pre ++ [m], f u = if gives then f m else b) ∧
      ∀ ⦃x⦄, (∃ u ∈ pre ++ [m], f u = x) → r x (if gives then f m else b) := by
  have hlast : m ∈ pre ++ [m] := List.mem_append_right _ (List.mem_singleton_self m)
  split
  · next hnew =>
    refine ⟨⟨m, hlast, rfl⟩, ?_⟩
    rintro x ⟨u, hu, rfl⟩
    rcases List.mem_append.mp hu with hu | hu
    · exact htrans (h.2 ⟨u, List.mem_append_left _ hu, rfl⟩) (hgives hnew)
    · rw [List.mem_singleton.mp hu]
      exact hrefl _
  · next hold =>
    constructor
    · obtain ⟨u, hu, hub⟩ := h.1
      rcases List.mem_append.mp hu with hu | hu
      · exact ⟨u, List.mem_append_left _ hu, hub⟩
      · exact ⟨m, hlast, hanti (hkeeps hold) (hub ▸ hrest u hu)⟩
    · rintro x ⟨u, hu, rfl⟩
      rcases List.mem_append.mp hu with hu | hu
      · exact h.2 ⟨u, List.mem_append_left _ hu, rfl⟩
      · rw [List.mem_singleton.mp hu]
        exact hkeeps hold

/-- A sum once the last summands gave way to one. -/
theorem sum_next {f : Candle → Int64} {rest : List Candle} {v : Int64}
    (h : v = Int64.ofInt ((pre ++ rest).map (f · |>.toInt)).sum) :
    v - Int64.ofInt (rest.map (f · |>.toInt)).sum + f m =
      Int64.ofInt ((pre ++ [m]).map (f · |>.toInt)).sum := by
  rw [h, List.map_append, List.sum_append, List.map_append, List.sum_append, List.map_singleton,
    List.sum_singleton, Int64.ofInt_add, Int64.ofInt_add, Int64.ofInt_toInt, Int64.add_sub_cancel]

/-- A fold goes on with a minute, in the place of the versions of it that came before. -/
theorem Folds.next {rest : List Candle} (h : Folds (pre ++ rest) bar) (hpos : 0 < bar.l)
    (hrest : ∀ a ∈ rest, m.o = a.o ∧ a.h ≤ m.h ∧ m.l ≤ a.l) :
    Folds (pre ++ [m]) { bar with
      h := if bar.h < m.h then m.h else bar.h
      l := if m.l < bar.l ∨ bar.l = 0 then m.l else bar.l
      c := m.c
      volume := bar.volume - Int64.ofInt (rest.map (·.volume.toInt)).sum + m.volume
      trades := bar.trades - Int64.ofInt (rest.map (·.trades.toInt)).sum + m.trades } where
  o := by
    have ho := h.o
    cases pre with
    | nil =>
      cases rest with
      | nil => cases ho
      | cons a rest =>
        rw [← ho, List.nil_append, List.nil_append, List.head?_cons, List.head?_cons,
          Option.map_some, Option.map_some, (hrest a List.mem_cons_self).1]
    | cons b pre => exact ho
  h := extreme_next Int64.le_refl Int64.le_trans Int64.le_antisymm h.h
    (fun a ha => (hrest a ha).2.1) Int64.le_of_lt Int64.not_lt.mp
  l := by
    have hzero : bar.l ≠ 0 := fun hl => by
      rw [hl] at hpos
      exact absurd hpos (by decide)
    simp only [hzero, or_false]
    exact extreme_next (r := fun x y => y ≤ x) Int64.le_refl (fun hxy hyz => Int64.le_trans hyz hxy)
      (fun hxy hyx => Int64.le_antisymm hyx hxy) h.l (fun a ha => (hrest a ha).2.2) Int64.le_of_lt
      Int64.not_lt.mp
  c := by simp
  volume := sum_next h.volume
  trades := sum_next h.trades

/-! ## Versions -/

variable {ms : List Candle}

theorem versions_concat (ms : List Candle) (m : Candle) :
    versions (ms ++ [m]) = (versions ms).filter (·.open ≠ m.open) ++ [m] := by
  rw [versions, List.foldl_append]
  rfl

theorem mem_of_mem_versions (h : a ∈ versions ms) : a ∈ ms := by
  induction ms using List.reverseRecOn with
  | nil => exact h
  | append_singleton ms m ih =>
    rw [versions_concat] at h
    rcases List.mem_append.mp h with h | h
    · exact List.mem_append_left _ (ih (List.mem_filter.mp h).1)
    · exact List.mem_append_right _ h

/-- No minute of a stream opens after its last. -/
theorem MinuteStream.le_last (h : MinuteStream (ms ++ [m])) (ha : a ∈ ms ++ [m]) :
    a.open ≤ m.open := by
  have hsorted : (ms ++ [m]).Pairwise fun a b => a.open ≤ b.open := by
    have : IsTrans Candle fun a b => a.open ≤ b.open := ⟨fun _ _ _ => Int.le_trans⟩
    exact (h.continues.imp fun _ _ h => h.later).pairwise
  rcases List.mem_append.mp ha with ha | ha
  · exact (List.pairwise_append.mp hsorted).2.2 a ha m (List.mem_singleton_self m)
  · rw [List.mem_singleton.mp ha]

/-- A stream without its last minute. -/
theorem MinuteStream.init (h : MinuteStream (ms ++ [m])) : MinuteStream ms where
  priced a ha := h.priced a (List.mem_append_left _ ha)
  continues := h.continues.left_of_append

/-- The beginning of a stream. -/
theorem MinuteStream.upTo {rest : List Candle} (h : MinuteStream ms)
    (heq : ms = pre ++ m :: rest) : MinuteStream (pre ++ [m]) := by
  have hsplit : ms = pre ++ [m] ++ rest := by rw [heq, List.append_assoc, List.singleton_append]
  rw [hsplit] at h
  exact ⟨fun a ha => h.priced a (List.mem_append_left _ ha), h.continues.left_of_append⟩

/-- What comes last goes on from what came before. -/
theorem MinuteStream.last (h : MinuteStream (ms ++ [a] ++ [m])) : Continues a m := by
  rw [List.append_assoc, List.singleton_append] at h
  exact (List.isChain_cons_cons.mp h.continues.right_of_append).1

/-- A minute takes the place of its version before, or comes after all others. -/
theorem versions_next (h : MinuteStream (ms ++ [a] ++ [m])) :
    ∃ pre, versions (ms ++ [a]) = pre ++ (if m.open = a.open then [a] else []) ∧
      versions (ms ++ [a] ++ [m]) = pre ++ [m] := by
  by_cases hsame : m.open = a.open
  · refine ⟨(versions ms).filter (·.open ≠ a.open), ?_, ?_⟩
    · rw [if_pos hsame, versions_concat]
    · rw [versions_concat, versions_concat, hsame, List.filter_append, List.filter_filter]
      simp
  · refine ⟨versions (ms ++ [a]), ?_, ?_⟩
    · rw [if_neg hsame, List.append_nil]
    · rw [versions_concat, List.filter_eq_self.mpr]
      intro b hb
      have hle := h.init.le_last (mem_of_mem_versions hb)
      have hlater := lt_of_le_of_ne h.last.later (Ne.symm hsame)
      exact decide_eq_true (Int.ne_of_lt (Int.lt_of_le_of_lt hle hlater))

end SuperAgent.Venue
