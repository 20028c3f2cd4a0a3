import SuperAgent.Core.Clock
import SuperAgent.Core.Recent
import SuperAgent.Fixed.Decimal
import Mathlib.Order.Defs.LinearOrder

/-!
# The bars a signal reads

A signal is seeded with history and fed live bars. Of either it keeps the closed
bars, each opening after the one kept before; repeated and late bars change
nothing, and the forming bar is kept aside.
-/

namespace SuperAgent.Strategy

open Fixed (D)

/-- A bar as a signal reads it. -/
structure Candle where
  «open» : Time
  period : Duration
  o : D
  h : D
  l : D
  c : D
  deriving DecidableEq

/-- The bar's period has elapsed. -/
def Candle.Closed (b : Candle) (now : Time) : Prop := b.open.add b.period ≤ now

instance (b : Candle) (now : Time) : Decidable (b.Closed now) := inferInstanceAs (Decidable (_ ≤ _))

/-- The bar opens after the last one kept. -/
def Follows (bars : List Candle) (b : Candle) : Prop := ∀ last ∈ bars.getLast?, last.open < b.open

instance (bars : List Candle) (b : Candle) : Decidable (Follows bars b) :=
  inferInstanceAs (Decidable (∀ last ∈ bars.getLast?, _))

/-- The history a seed is given, and how sorting by opening time leaves it: bars that open together
in any order. -/
structure Seeding where
  bars : List Candle
  sorted : List Candle
  perm : sorted.Perm bars
  ascending : sorted.Pairwise fun a b => a.open ≤ b.open

/-- A closed bar is kept where it opens after the ones before. -/
def keep (now : Time) (bars : List Candle) (b : Candle) : List Candle :=
  if b.Closed now ∧ Follows bars b then bars ++ [b] else bars

/-- The closed bars of a seed, without those that open together with one before. -/
def Seeding.closed (s : Seeding) (now : Time) : List Candle := s.sorted.foldl (keep now) []

/-- The last bar of a seed that is still forming. -/
def Seeding.forming (s : Seeding) (now : Time) : Option Candle :=
  s.sorted.foldl (fun f b => if b.Closed now then f else some b) none

/-- The forming bar once a bar arrived: replaced by one, or dropped when one as late closed. -/
def formingAfter (forming : Option Candle) (bars : List Candle) (b : Candle) (now : Time) :
    Option Candle :=
  if ¬ b.Closed now then some b
  else if Follows bars b then forming.filter fun f => b.open < f.open
  else forming

/-- What a signal is given. -/
inductive Event
  | seed (s : Seeding) (now : Time)
  | apply (b : Candle) (now : Time)

/-- The closed bars accepted once an event happened: a seed starts over. -/
def accept (bars : List Candle) : Event → List Candle
  | .seed s now => s.closed now
  | .apply b now => keep now bars b

/-- The closed bars a stream comes to. -/
def accepted (events : List Event) : List Candle := events.foldl accept []

section Accepted

variable {bars : List Candle} {b : Candle} {now : Time} {events : List Event} {e : Event}

theorem accepted_append : accepted (events ++ [e]) = accept (accepted events) e := by
  rw [accepted, List.foldl_append]
  rfl

/-- A bar that opens after the last of an ascending list opens after every one of it. -/
theorem Follows.lt (h : Follows bars b) (hsorted : bars.Pairwise fun a b => a.open < b.open) :
    ∀ a ∈ bars, a.open < b.open := by
  intro a ha
  obtain ⟨init, last, rfl⟩ := (List.eq_nil_or_concat' bars).resolve_left (List.ne_nil_of_mem ha)
  have hlast := h last (by simp)
  rcases List.mem_append.mp ha with hinit | hmem
  · exact lt_trans ((List.pairwise_append.mp hsorted).2.2 a hinit last (by simp)) hlast
  · rwa [List.mem_singleton.mp hmem]

/-- What is kept stays ascending. -/
theorem keep_ascending (h : bars.Pairwise fun a b => a.open < b.open) :
    (keep now bars b).Pairwise fun a b => a.open < b.open := by
  unfold keep
  split
  · next hkept =>
    refine List.pairwise_append.mpr ⟨h, List.pairwise_singleton _ _, fun x hx y hy => ?_⟩
    rw [List.mem_singleton.mp hy]
    exact hkept.2.lt h x hx
  · exact h

theorem foldl_keep_ascending (l : List Candle) (h : bars.Pairwise fun a b => a.open < b.open) :
    (l.foldl (keep now) bars).Pairwise fun a b => a.open < b.open := by
  induction l generalizing bars with
  | nil => exact h
  | cons b l ih => exact ih (keep_ascending h)

/-- The accepted bars are strictly ascending in opening time. -/
theorem accepted_ascending (events : List Event) :
    (accepted events).Pairwise fun a b => a.open < b.open := by
  induction events using List.reverseRecOn with
  | nil => exact List.Pairwise.nil
  | append_singleton events e ih =>
    rw [accepted_append]
    cases e with
    | seed s now => exact foldl_keep_ascending s.sorted List.Pairwise.nil
    | apply b now => exact keep_ascending ih

/-- Whether a bar follows is decided by the end of a history. -/
theorem follows_rtake {n : ℕ} (h : 0 < n) : Follows (bars.rtake n) b ↔ Follows bars b := by
  rw [Follows, Follows, getLast?_rtake h]

/-- The closed bars a signal with a limited history keeps once an event happened. -/
def acceptLast (n : ℕ) (bars : List Candle) : Event → List Candle
  | .seed s now => (s.closed now).rtake n
  | .apply b now => if b.Closed now ∧ Follows bars b then (bars ++ [b]).rtake n else bars

/-- It keeps the last of the bars that are accepted. -/
theorem acceptLast_rtake {n : ℕ} (h : 0 < n) (bars : List Candle) (e : Event) :
    acceptLast n (bars.rtake n) e = (accept bars e).rtake n := by
  cases e with
  | seed s now => rfl
  | apply b now =>
    rw [acceptLast, accept, keep]
    simp only [follows_rtake h]
    split
    · exact rtake_rtake_append h
    · rfl

/-- No more bars are kept than a seed has. -/
theorem length_foldl_keep_le (l : List Candle) :
    (l.foldl (keep now) bars).length ≤ bars.length + l.length := by
  induction l generalizing bars with
  | nil => exact le_rfl
  | cons b l ih =>
    have hkeep : (keep now bars b).length ≤ bars.length + 1 := by
      unfold keep
      split
      · rw [List.length_append, List.length_singleton]
      · omega
    rw [List.foldl_cons, List.length_cons]
    exact ih.trans (by omega)

theorem Seeding.length_closed_le (s : Seeding) (now : Time) :
    (s.closed now).length ≤ s.bars.length := by
  have hle := @length_foldl_keep_le [] now s.sorted
  rwa [List.length_nil, Nat.zero_add, s.perm.length_eq] at hle

end Accepted

end SuperAgent.Strategy
