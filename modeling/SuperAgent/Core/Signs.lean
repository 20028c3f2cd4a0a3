import Mathlib.Data.List.Chain
import Mathlib.Data.List.Range

/-!
# Changes of sign

A sequence that is sometimes zero changes where it is not zero and not what it
last was. From one change to the next it never takes the same value, however
long it is zero between, as long as what it last was is remembered.
-/

namespace SuperAgent

variable {α : Type*} [Zero α] [DecidableEq α]

/-- The last value that is not zero from one position on and before another, or zero. -/
def lastApart (f : ℕ → α) (lo : ℕ) : ℕ → α
  | 0 => 0
  | n + 1 => if n < lo then 0 else if f n = 0 then lastApart f lo n else f n

/-- The positions after the first, and before another, where a sequence changes. -/
def changes (f : ℕ → α) (lo n : ℕ) : List ℕ :=
  (List.range n).filter fun i => lo < i ∧ f i ≠ 0 ∧ lastApart f lo i ≠ f i

variable {f g : ℕ → α} {lo mid n : ℕ} {v : α}

theorem lastApart_of_le (h : n ≤ lo) : lastApart f lo n = 0 := by
  cases n with
  | zero => rfl
  | succ n => rw [lastApart, if_pos (by omega)]

theorem lastApart_succ (h : lo ≤ n) :
    lastApart f lo (n + 1) = if f n = 0 then lastApart f lo n else f n := by
  rw [lastApart, if_neg (by omega)]

/-- A value that is not zero was taken, with zeros after it. -/
theorem lastApart_eq_iff (hv : v ≠ 0) : lastApart f lo n = v ↔
    ∃ j, lo ≤ j ∧ j < n ∧ f j = v ∧ ∀ k, j < k → k < n → f k = 0 := by
  induction n with
  | zero =>
    refine iff_of_false (fun h => hv h.symm) ?_
    rintro ⟨j, -, hj, -⟩
    exact Nat.not_lt_zero j hj
  | succ n ih =>
    by_cases hlo : n < lo
    · rw [lastApart_of_le (by omega)]
      refine iff_of_false (fun h => hv h.symm) ?_
      rintro ⟨j, hj, hjn, -⟩
      omega
    · rw [lastApart_succ (not_lt.mp hlo)]
      by_cases hn : f n = 0
      · rw [if_pos hn, ih]
        constructor
        · rintro ⟨j, hj, hjn, hfj, hzero⟩
          refine ⟨j, hj, by omega, hfj, fun k hjk hkn => ?_⟩
          rcases Nat.lt_succ_iff_lt_or_eq.mp hkn with hlt | rfl
          · exact hzero k hjk hlt
          · exact hn
        · rintro ⟨j, hj, hjn, hfj, hzero⟩
          have hne : j ≠ n := by
            rintro rfl
            exact hv (hfj.symm.trans hn)
          exact ⟨j, hj, by omega, hfj, fun k hjk hkn => hzero k hjk (by omega)⟩
      · rw [if_neg hn]
        constructor
        · intro h
          exact ⟨n, not_lt.mp hlo, by omega, h, fun k hnk hkn => by omega⟩
        · rintro ⟨j, hj, hjn, hfj, hzero⟩
          have heq : j = n := by
            by_contra hne
            exact hn (hzero n (by omega) (by omega))
          rw [← heq, hfj]

/-- Zero is what is left where every value was zero. -/
theorem lastApart_eq_zero_iff : lastApart f lo n = 0 ↔ ∀ j, lo ≤ j → j < n → f j = 0 := by
  induction n with
  | zero => exact iff_of_true rfl fun j _ hj => absurd hj (Nat.not_lt_zero j)
  | succ n ih =>
    by_cases hlo : n < lo
    · exact iff_of_true (lastApart_of_le (by omega)) fun j hj hjn => by omega
    · rw [lastApart_succ (not_lt.mp hlo)]
      by_cases hn : f n = 0
      · rw [if_pos hn, ih]
        constructor
        · intro h j hj hjn
          rcases Nat.lt_succ_iff_lt_or_eq.mp hjn with hlt | rfl
          · exact h j hj hlt
          · exact hn
        · exact fun h j hj hjn => h j hj (by omega)
      · rw [if_neg hn]
        exact iff_of_false hn fun h => hn (h n (not_lt.mp hlo) (by omega))

/-- Only the values looked at matter. -/
theorem lastApart_congr (h : ∀ j, lo ≤ j → j < n → f j = g j) :
    lastApart f lo n = lastApart g lo n := by
  induction n with
  | zero => rfl
  | succ n ih =>
    by_cases hlo : n < lo
    · rw [lastApart_of_le (by omega), lastApart_of_le (by omega)]
    · rw [lastApart_succ (not_lt.mp hlo), lastApart_succ (not_lt.mp hlo), h n (not_lt.mp hlo)
        (by omega), ih fun j hj hjn => h j hj (by omega)]

/-- Looking back less far finds the same, or nothing. -/
theorem lastApart_of_ne_zero (hmid : lo ≤ mid) (h : lastApart f mid n ≠ 0) :
    lastApart f lo n = lastApart f mid n := by
  obtain ⟨j, hj, hjn, hfj, hzero⟩ := (lastApart_eq_iff h).mp rfl
  exact (lastApart_eq_iff h).mpr ⟨j, hmid.trans hj, hjn, hfj, hzero⟩

/-- Positions counted from a later one on. -/
theorem lastApart_shift (k : ℕ) :
    lastApart (fun i => f (k + i)) lo n = lastApart f (k + lo) (k + n) := by
  induction n with
  | zero => exact (lastApart_of_le (Nat.add_le_add_left (Nat.zero_le lo) k)).symm
  | succ n ih =>
    by_cases hlo : n < lo
    · rw [lastApart_of_le (by omega), lastApart_of_le (by omega)]
    · rw [lastApart_succ (not_lt.mp hlo), ← Nat.add_assoc, lastApart_succ (by omega), ih]

theorem changes_succ : changes f lo (n + 1) = changes f lo n ++
    if lo < n ∧ f n ≠ 0 ∧ lastApart f lo n ≠ f n then [n] else [] := by
  rw [changes, List.range_succ, List.filter_append]
  congr 1
  by_cases h : lo < n ∧ f n ≠ 0 ∧ lastApart f lo n ≠ f n
  · rw [if_pos h, List.filter_cons_of_pos (by simpa using h), List.filter_nil]
  · rw [if_neg h, List.filter_cons_of_neg (by simpa using h), List.filter_nil]

/-- Since the last change the sequence was zero or what it changed to. -/
theorem lastApart_of_getLast? {i : ℕ} (h : (changes f lo n).getLast? = some i) :
    lastApart f lo n = f i := by
  induction n with
  | zero => exact nomatch h
  | succ n ih =>
    rw [changes_succ] at h
    by_cases hchange : lo < n ∧ f n ≠ 0 ∧ lastApart f lo n ≠ f n
    · rw [if_pos hchange, List.getLast?_concat] at h
      rw [← Option.some.inj h, lastApart_succ hchange.1.le, if_neg hchange.2.1]
    · rw [if_neg hchange, List.append_nil] at h
      have hlast := ih h
      have hmem := List.mem_of_getLast? h
      have hlo : lo < n := by
        have hspec := List.mem_filter.mp hmem
        have hin := List.mem_range.mp hspec.1
        have hafter := (of_decide_eq_true hspec.2).1
        omega
      rw [lastApart_succ hlo.le]
      by_cases hn : f n = 0
      · rw [if_pos hn, hlast]
      · rw [if_neg hn, ← hlast]
        by_contra hne
        exact hchange ⟨hlo, hn, fun heq => hne heq.symm⟩

/-- From one change to the next the value is another. -/
theorem changes_alternate : (changes f lo n).IsChain fun i j => f i ≠ f j := by
  induction n with
  | zero => exact .nil
  | succ n ih =>
    rw [changes_succ]
    by_cases hchange : lo < n ∧ f n ≠ 0 ∧ lastApart f lo n ≠ f n
    · rw [if_pos hchange]
      refine ih.append (.singleton n) fun i hi j hj => ?_
      rw [← lastApart_of_getLast? hi, ← Option.some.inj hj]
      exact hchange.2.2
    · rw [if_neg hchange, List.append_nil]
      exact ih

end SuperAgent
