import Mathlib.Data.List.DropRight
import Mathlib.Data.Option.Basic

/-!
# What was last

A bounded history keeps the end of a list as it grows; an observation over the
positions of a list is remembered at the last one where it is there.
-/

namespace SuperAgent

variable {α β : Type*}

/-! ## The end of a list -/

section Recent

variable {n m : ℕ} {xs ys : List α} {x : α}

/-- A history that is not full keeps everything. -/
theorem rtake_of_length_le (h : xs.length ≤ n) : xs.rtake n = xs := by
  rw [List.rtake, Nat.sub_eq_zero_of_le h, List.drop_zero]

theorem length_rtake : (xs.rtake n).length = min n xs.length := by
  rw [List.rtake, List.length_drop]
  omega

/-- A history grows with the list. -/
theorem rtake_rtake_append (h : 0 < n) : (xs.rtake n ++ [x]).rtake n = (xs ++ [x]).rtake n := by
  obtain ⟨k, rfl⟩ := Nat.exists_eq_add_of_lt h
  rw [show 0 + k + 1 = k + 1 by omega, List.rtake_concat_succ, List.rtake_concat_succ]
  congr 1
  rw [List.rtake, List.rtake, List.rtake, List.drop_drop, List.length_drop]
  congr 1
  omega

/-- The end of the list is the end of the history. -/
theorem getLast?_rtake (h : 0 < n) : (xs.rtake n).getLast? = xs.getLast? := by
  rw [List.rtake, List.getLast?_drop]
  by_cases hnil : xs.length = 0
  · rw [List.length_eq_zero_iff.mp hnil]
    rfl
  · rw [if_neg (by omega)]

/-- A shorter history is the end of a longer one. -/
theorem rtake_rtake (h : m ≤ n) : (xs.rtake n).rtake m = xs.rtake m := by
  rw [List.rtake, List.rtake, List.rtake, List.drop_drop, List.length_drop]
  congr 1
  omega

/-- A place in a history is one in the list. -/
theorem getElem?_rtake (i : ℕ) : (xs.rtake n)[i]? = xs[xs.length - n + i]? := by
  rw [List.rtake, List.getElem?_drop]

/-- The end of a history up to a place is the end of the list up to there. -/
theorem rtake_take_rtake {i : ℕ} (hi : i ≤ (xs.rtake n).length) (h : m ≤ i) :
    ((xs.rtake n).take i).rtake m = (xs.take (xs.length - n + i)).rtake m := by
  rw [length_rtake] at hi
  rw [List.rtake, List.rtake, List.rtake, List.take_drop, List.drop_drop, List.length_drop,
    List.length_take]
  congr 1
  omega

end Recent

/-! ## The last time -/

/-- What was observed at the last of the first positions where something was. -/
def latest (f : ℕ → Option β) : ℕ → Option β
  | 0 => none
  | n + 1 => (f n).or (latest f n)

section Latest

variable {f g : ℕ → Option β} {n m : ℕ} {v : β}

/-- What is remembered was observed, and nothing after it. -/
theorem latest_eq_some_iff : latest f n = some v ↔
    ∃ i, i < n ∧ f i = some v ∧ ∀ j, i < j → j < n → f j = none := by
  induction n with
  | zero =>
    refine iff_of_false (fun h => nomatch h) ?_
    rintro ⟨i, hi, -⟩
    exact Nat.not_lt_zero i hi
  | succ n ih =>
    rw [latest]
    cases hn : f n with
    | none =>
      rw [Option.none_or, ih]
      constructor
      · rintro ⟨i, hi, hv, hnone⟩
        refine ⟨i, by omega, hv, fun j hij hj => ?_⟩
        rcases Nat.lt_succ_iff_lt_or_eq.mp hj with hlt | rfl
        · exact hnone j hij hlt
        · exact hn
      · rintro ⟨i, hi, hv, hnone⟩
        have hne : i ≠ n := by
          rintro rfl
          exact nomatch hn.symm.trans hv
        exact ⟨i, by omega, hv, fun j hij hj => hnone j hij (by omega)⟩
    | some w =>
      rw [Option.some_or]
      constructor
      · intro h
        exact ⟨n, by omega, hn.trans h, fun j hij hj => by omega⟩
      · rintro ⟨i, hi, hv, hnone⟩
        have heq : i = n := by
          by_contra hne
          exact nomatch hn.symm.trans (hnone n (by omega) (by omega))
        rw [← hn, ← heq, hv]

/-- Nothing is remembered where nothing was observed. -/
theorem latest_eq_none_iff : latest f n = none ↔ ∀ i, i < n → f i = none := by
  induction n with
  | zero => exact iff_of_true rfl fun i hi => absurd hi (Nat.not_lt_zero i)
  | succ n ih =>
    rw [latest, Option.or_eq_none_iff, ih]
    constructor
    · rintro ⟨hn, hnone⟩ i hi
      rcases Nat.lt_succ_iff_lt_or_eq.mp hi with hlt | rfl
      · exact hnone i hlt
      · exact hn
    · exact fun h => ⟨h n (by omega), fun i hi => h i (by omega)⟩

/-- Only the first positions are looked at. -/
theorem latest_congr (h : ∀ i, i < n → f i = g i) : latest f n = latest g n := by
  induction n with
  | zero => rfl
  | succ n ih => rw [latest, latest, h n (by omega), ih fun i hi => h i (by omega)]

/-- Looking through a stretch of positions in order, remembering what was last, is looking
through all of them where nothing was observed before. -/
theorem foldl_or_range' (hbefore : ∀ i, i < m → f i = none) (k : ℕ) :
    (List.range' m k).foldl (fun last i => (f i).or last) none = latest f (m + k) := by
  induction k with
  | zero =>
    symm
    exact latest_eq_none_iff.mpr hbefore
  | succ k ih =>
    rw [List.range'_1_concat, List.foldl_append, ih]
    rfl

/-- What was last of a stretch of positions, counted from its beginning, is what was last of all
where nothing was observed before. -/
theorem latest_shift (d : ℕ) :
    latest f n = latest (fun i => if i < d then none else f (i - d)) (d + n) := by
  induction n with
  | zero =>
    symm
    exact latest_eq_none_iff.mpr fun i hi => if_pos hi
  | succ n ih =>
    rw [latest, ih, ← Nat.add_assoc, latest, if_neg (by omega), Nat.add_sub_cancel_left]

/-- What an observer of fewer positions saw last, and the other did not see at all. -/
def Spurious (f g : ℕ → Option β) (n : ℕ) (v : β) : Prop :=
  ∃ i < n, g i = some v ∧ f i = none ∧ ∀ j, i < j → j < n → g j = none

/-- What an observer saw last, when the one of fewer positions saw nothing. -/
def Stale (f g : ℕ → Option β) (n : ℕ) (v : β) : Prop :=
  (∀ i < n, g i = none) ∧ ∃ i < n, f i = some v ∧ ∀ j, i < j → j < n → f j = none

/-- Two observers, of which one sees from some position on whatever the other does: what they were
offered last agrees, where earlier offers lapse before later ones, exactly if nothing spurious and
nothing stale is offered still. -/
theorem latest_bind_eq_iff {γ : Type*} {offer : β → Option γ} (hbefore : ∀ i < m, g i = none)
    (hafter : ∀ i, m ≤ i → i < n → ∀ v, f i = some v → g i = some v)
    (hlapse : ∀ i j v w, i < j → j < n → f i = some v → g j = some w → offer v ≠ none →
      offer w ≠ none ∧ offer v ≠ offer w) :
    (latest g n).bind offer = (latest f n).bind offer ↔
      ¬ ∃ v, (Spurious f g n v ∨ Stale f g n v) ∧ offer v ≠ none := by
  cases hg : latest g n with
  | none =>
    have hnone := latest_eq_none_iff.mp hg
    have hspurious : ∀ v, ¬ Spurious f g n v := by
      rintro v ⟨i, hi, hv, -⟩
      exact nomatch hv.symm.trans (hnone i hi)
    rw [Option.bind_none]
    constructor
    · rintro hoffer ⟨v, hv | ⟨-, i, hi, hv, hlater⟩, hlit⟩
      · exact hspurious v hv
      · rw [latest_eq_some_iff.mpr ⟨i, hi, hv, hlater⟩, Option.bind_some] at hoffer
        exact hlit hoffer.symm
    · intro hnot
      cases hf : latest f n with
      | none => rfl
      | some v =>
        obtain ⟨i, hi, hv, hlater⟩ := latest_eq_some_iff.mp hf
        rw [Option.bind_some]
        by_contra hlit
        exact hnot ⟨v, .inr ⟨hnone, i, hi, hv, hlater⟩, Ne.symm hlit⟩
  | some w =>
    obtain ⟨i, hi, hw, hlater⟩ := latest_eq_some_iff.mp hg
    have hmi : m ≤ i := by
      by_contra hlt
      exact nomatch hw.symm.trans (hbefore i (by omega))
    have hfLater : ∀ j, i < j → j < n → f j = none := by
      intro j hij hj
      cases hv : f j with
      | none => rfl
      | some v => exact nomatch (hafter j (by omega) hj v hv).symm.trans (hlater j hij hj)
    have hstale : ∀ v, ¬ Stale f g n v := fun v h => nomatch hw.symm.trans (h.1 i hi)
    rw [Option.bind_some]
    cases hfi : f i with
    | some v =>
      -- both saw it
      obtain rfl := Option.some.inj ((hafter i hmi hi v hfi).symm.trans hw)
      rw [latest_eq_some_iff.mpr ⟨i, hi, hfi, hfLater⟩, Option.bind_some]
      refine iff_of_true rfl ?_
      rintro ⟨u, ⟨j, hj, hu, hfj, hjLater⟩ | hu, -⟩
      · rcases lt_trichotomy i j with hlt | rfl | hlt
        · exact nomatch hu.symm.trans (hlater j hlt hj)
        · exact nomatch hfi.symm.trans hfj
        · exact nomatch hw.symm.trans (hjLater i hlt hi)
      · exact hstale u hu
    | none =>
      have hspurious : ∀ v, Spurious f g n v ↔ v = w := by
        intro v
        constructor
        · rintro ⟨j, hj, hv, -, hjLater⟩
          rcases lt_trichotomy i j with hlt | rfl | hlt
          · exact nomatch hv.symm.trans (hlater j hlt hj)
          · exact Option.some.inj (hv.symm.trans hw)
          · exact nomatch hw.symm.trans (hjLater i hlt hi)
        · rintro rfl
          exact ⟨i, hi, hw, hfi, hlater⟩
      have hearlier : ∀ v, latest f n = some v → offer v ≠ none →
          offer w ≠ none ∧ offer v ≠ offer w := by
        intro v hv
        obtain ⟨j, hj, hfj, -⟩ := latest_eq_some_iff.mp hv
        have hji : j < i := by
          rcases lt_trichotomy i j with hlt | rfl | hlt
          · exact nomatch hfj.symm.trans (hfLater j hlt hj)
          · exact nomatch hfj.symm.trans hfi
          · exact hlt
        exact hlapse j i v w hji hi hfj hw
      constructor
      · rintro hoffer ⟨v, hv | hv, hlit⟩
        · rw [(hspurious v).mp hv] at hlit
          cases hf : latest f n with
          | none => exact hlit (by rw [hoffer, hf, Option.bind_none])
          | some u =>
            rw [hf, Option.bind_some] at hoffer
            exact (hearlier u hf (hoffer ▸ hlit)).2 hoffer.symm
        · exact hstale v hv
      · intro hnot
        have hdark : offer w = none := by
          by_contra hlit
          exact hnot ⟨w, .inl ((hspurious w).mpr rfl), hlit⟩
        rw [hdark]
        cases hf : latest f n with
        | none => rfl
        | some v =>
          rw [Option.bind_some]
          by_contra hlit
          exact (hearlier v hf (Ne.symm hlit)).1 hdark


end Latest

end SuperAgent
