import Mathlib.Data.List.Sort
import SuperAgent.Platform.Service

/-!
# Keeping up with the venue's markets

The markets the platform allows are those the venue lists, or those of a
configured list that it lists. A list that reads as the one before it tells
nobody anything; one that cannot be read changes nothing.
-/

namespace SuperAgent.Platform

/-- What narrows the venue's list, and the list as it was last read. -/
structure MarketSync where
  /-- Empty means every market. -/
  wanted : List String
  allowed : List String
  deriving DecidableEq

namespace MarketSync

/-- The synchroniser of a configured list; a star stands for every market. -/
def new (wanted : List String) : MarketSync where
  wanted := (wanted.map symbolOf).filter fun w => w ≠ "" ∧ w ≠ "*"
  allowed := []

variable (m : MarketSync)

/-- The markets allowed of those the venue lists. -/
def listed (markets : List String) : List String :=
  ((markets.map toUpper).filter fun sym => m.wanted = [] ∨ sym ∈ m.wanted).insertionSort (· ≤ ·)

/-- Read the venue's markets; a list that has changed is told. -/
def sync (markets : Except VenueError (List String)) : MarketSync × Option (List String) :=
  match markets with
  | .error _ => (m, none)
  | .ok markets =>
    ({ m with allowed := m.listed markets },
      if m.listed markets = m.allowed then none else some (m.listed markets))

variable {m} {markets : Except VenueError (List String)}

/-- What is told is what is allowed from now on. -/
theorem sync_told {l : List String} (h : (m.sync markets).2 = some l) :
    (m.sync markets).1.allowed = l := by
  unfold sync at h ⊢
  split at h
  · cases h
  · rw [Option.ite_none_left_eq_some] at h
    exact Option.some.inj h.2

/-- When nothing is told, nothing else is allowed than before. -/
theorem sync_untold (h : (m.sync markets).2 = none) : (m.sync markets).1.allowed = m.allowed := by
  unfold sync at h ⊢
  split at h
  · rfl
  · rw [ite_eq_left_iff] at h
    by_contra hne
    exact absurd (h hne) (Option.some_ne_none _)

end MarketSync

end SuperAgent.Platform
