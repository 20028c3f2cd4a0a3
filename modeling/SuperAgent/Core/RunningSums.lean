import Mathlib.Algebra.BigOperators.Group.List.Basic
import Mathlib.Algebra.Order.Group.Defs
import Mathlib.Algebra.Order.Group.Unbundled.Basic
import Mathlib.Data.List.DropRight
import Mathlib.Order.Bounds.Basic

/-!
# Running sums and streaks

Two readings of a list of results that one pass keeps: the deepest fall of the
running sum from a sum before it, and the count of results of one sign at the
end. The fall is the greatest over all pairs of prefixes, the count that of the
longest suffix whose results do not have both signs.
-/

namespace SuperAgent

/-! ## The deepest fall -/

section Course

variable {α : Type*} [AddCommGroup α]

/-- A running sum, the highest it was and its deepest fall from there. -/
structure Course (α : Type*) where
  running : α
  peak : α
  fall : α

/-- The sum of the first results. -/
def sumTo (xs : List α) (k : ℕ) : α := (xs.take k).sum

/-- The sums of all prefixes. -/
def sums (xs : List α) : Set α := {p | ∃ i ≤ xs.length, sumTo xs i = p}

/-- The falls from a prefix's sum to that of the same prefix or a longer one. -/
def falls (xs : List α) : Set α :=
  {d | ∃ i j, i ≤ j ∧ j ≤ xs.length ∧ sumTo xs i - sumTo xs j = d}

variable {xs : List α} {x : α}

theorem sumTo_concat {k : ℕ} (h : k ≤ xs.length) : sumTo (xs ++ [x]) k = sumTo xs k := by
  rw [sumTo, List.take_append_of_le_length h]
  rfl

theorem sumTo_length (xs : List α) : sumTo xs xs.length = xs.sum := by
  rw [sumTo, List.take_length]

/-- The last prefix is the list. -/
theorem mem_sums_concat {p : α} : p ∈ sums (xs ++ [x]) ↔ p ∈ sums xs ∨ p = xs.sum + x := by
  have hall : sumTo (xs ++ [x]) (xs.length + 1) = xs.sum + x := by
    rw [← List.length_singleton (a := x), ← List.length_append, sumTo_length, List.sum_append,
      List.sum_singleton]
  constructor
  · rintro ⟨i, hi, rfl⟩
    rw [List.length_append, List.length_singleton] at hi
    rcases Nat.lt_or_ge xs.length i with hlt | hle
    · obtain rfl : i = xs.length + 1 := by omega
      exact .inr hall
    · exact .inl ⟨i, hle, (sumTo_concat hle).symm⟩
  · rintro (⟨i, hi, rfl⟩ | rfl)
    · exact ⟨i, by rw [List.length_append]; omega, sumTo_concat hi⟩
    · exact ⟨xs.length + 1, by rw [List.length_append, List.length_singleton], hall⟩

/-- The new falls end in the last sum. -/
theorem mem_falls_concat {d : α} : d ∈ falls (xs ++ [x]) ↔
    d ∈ falls xs ∨ ∃ p ∈ sums (xs ++ [x]), p - (xs.sum + x) = d := by
  have hall : sumTo (xs ++ [x]) (xs.length + 1) = xs.sum + x := by
    rw [← List.length_singleton (a := x), ← List.length_append, sumTo_length, List.sum_append,
      List.sum_singleton]
  have hlength : (xs ++ [x]).length = xs.length + 1 := by
    rw [List.length_append, List.length_singleton]
  constructor
  · rintro ⟨i, j, hij, hj, rfl⟩
    rw [hlength] at hj
    rcases Nat.lt_or_ge xs.length j with hlt | hle
    · obtain rfl : j = xs.length + 1 := by omega
      exact .inr ⟨_, ⟨i, hij.trans_eq hlength.symm, rfl⟩, by rw [hall]⟩
    · exact .inl ⟨i, j, hij, hle, by rw [sumTo_concat (hij.trans hle), sumTo_concat hle]⟩
  · rintro (⟨i, j, hij, hj, rfl⟩ | ⟨p, ⟨i, hi, rfl⟩, rfl⟩)
    · exact ⟨i, j, hij, by omega, by rw [sumTo_concat (hij.trans hj), sumTo_concat hj]⟩
    · exact ⟨i, xs.length + 1, hi.trans_eq hlength, hlength.ge, by rw [hall]⟩

variable [LinearOrder α]

/-- The next result. -/
def Course.next (c : Course α) (x : α) : Course α where
  running := c.running + x
  peak := max c.peak (c.running + x)
  fall := max c.fall (max c.peak (c.running + x) - (c.running + x))

/-- The course of a list of results from nothing. -/
def course (xs : List α) : Course α := xs.foldl Course.next ⟨0, 0, 0⟩

theorem course_concat (xs : List α) (x : α) : course (xs ++ [x]) = (course xs).next x :=
  List.foldl_concat _ _ _ _

theorem course_running (xs : List α) : (course xs).running = xs.sum := by
  induction xs using List.reverseRecOn with
  | nil => rfl
  | append_singleton xs x ih => rw [course_concat, Course.next, ih, List.sum_append,
      List.sum_singleton]

/-- The peak is the greatest sum of a prefix. -/
theorem course_peak (xs : List α) : IsGreatest (sums xs) (course xs).peak := by
  induction xs using List.reverseRecOn with
  | nil =>
    refine ⟨⟨0, le_rfl, rfl⟩, ?_⟩
    rintro p ⟨i, hi, rfl⟩
    obtain rfl : i = 0 := Nat.le_zero.mp hi
    exact le_rfl
  | append_singleton xs x ih =>
    rw [course_concat, Course.next, course_running]
    constructor
    · rcases max_choice (course xs).peak (xs.sum + x) with hmax | hmax
      · rw [hmax]
        exact mem_sums_concat.mpr (.inl ih.1)
      · rw [hmax]
        exact mem_sums_concat.mpr (.inr rfl)
    · intro p hp
      rcases mem_sums_concat.mp hp with hp | rfl
      · exact (ih.2 hp).trans (le_max_left _ _)
      · exact le_max_right _ _

variable [IsOrderedAddMonoid α]

/-- The fall that is kept is the deepest of all. -/
theorem course_fall (xs : List α) : IsGreatest (falls xs) (course xs).fall := by
  induction xs using List.reverseRecOn with
  | nil =>
    refine ⟨⟨0, 0, le_rfl, le_rfl, sub_self _⟩, ?_⟩
    rintro d ⟨i, j, hij, hj, rfl⟩
    obtain rfl : j = 0 := Nat.le_zero.mp hj
    obtain rfl : i = 0 := Nat.le_zero.mp hij
    exact (sub_self _).le
  | append_singleton xs x ih =>
    have hpeak := course_peak (xs ++ [x])
    rw [course_concat, Course.next, course_running] at hpeak
    rw [course_concat, Course.next, course_running]
    constructor
    · rcases max_choice (course xs).fall (max (course xs).peak (xs.sum + x) - (xs.sum + x))
        with hmax | hmax
      · rw [hmax]
        exact mem_falls_concat.mpr (.inl ih.1)
      · rw [hmax]
        exact mem_falls_concat.mpr (.inr ⟨_, hpeak.1, rfl⟩)
    · intro d hd
      rcases mem_falls_concat.mp hd with hd | ⟨p, hp, rfl⟩
      · exact (ih.2 hd).trans (le_max_left _ _)
      · exact (sub_le_sub_right (hpeak.2 hp) _).trans (le_max_right _ _)

end Course

/-! ## The streak -/

section Streak

variable {α : Type*} [LinearOrder α] [Zero α]

/-- The next result continues a streak of its sign or starts one; a zero is passed over. -/
def streakNext (k : ℤ) (x : α) : ℤ :=
  if 0 < x then if 0 ≤ k then k + 1 else 1
  else if x < 0 then if k ≤ 0 then k - 1 else -1
  else k

/-- The streak at the end of a list of results. -/
def streak (xs : List α) : ℤ := xs.foldl streakNext 0

/-- The results that are not zero have one sign. -/
def OneSign (xs : List α) : Prop := (∀ x ∈ xs, 0 ≤ x) ∨ ∀ x ∈ xs, x ≤ 0

/-- The number of results that are not zero, negative for negative ones. -/
def signedCount (xs : List α) : ℤ := xs.countP (0 < ·) - xs.countP (· < 0)

/-- The results after the last negative one, and those after the last positive one. -/
def gains (xs : List α) : List α := xs.rtakeWhile (0 ≤ ·)

def losses (xs : List α) : List α := xs.rtakeWhile (· ≤ 0)

variable {xs : List α}

/-- At most one of them has a result that is not zero, and the streak counts these. -/
theorem streak_eq (xs : List α) :
    ((gains xs).countP (0 < ·) = 0 ∨ (losses xs).countP (· < 0) = 0) ∧
      streak xs = (gains xs).countP (0 < ·) - (losses xs).countP (· < 0) := by
  induction xs using List.reverseRecOn with
  | nil => exact ⟨.inl rfl, rfl⟩
  | append_singleton xs x ih =>
    obtain ⟨hone, hstreak⟩ := ih
    have hnext : streak (xs ++ [x]) = streakNext (streak xs) x := List.foldl_concat _ _ _ _
    have hgains : gains (xs ++ [x]) = if 0 ≤ x then gains xs ++ [x] else [] := by
      rw [gains, List.rtakeWhile_concat]
      simp only [decide_eq_true_eq]
      rfl
    have hlosses : losses (xs ++ [x]) = if x ≤ 0 then losses xs ++ [x] else [] := by
      rw [losses, List.rtakeWhile_concat]
      simp only [decide_eq_true_eq]
      rfl
    rw [hnext, hgains, hlosses, hstreak, streakNext]
    rcases lt_trichotomy x 0 with hneg | rfl | hpos
    · rw [if_neg hneg.not_ge, if_pos hneg.le, if_neg hneg.not_gt, if_pos hneg, List.countP_append,
        List.countP_singleton, if_pos (decide_eq_true hneg)]
      refine ⟨.inl rfl, ?_⟩
      rw [List.countP_nil]
      split <;> omega
    · rw [if_pos le_rfl, if_pos le_rfl, if_neg (lt_irrefl _), if_neg (lt_irrefl _),
        List.countP_append, List.countP_append]
      simpa using hone
    · rw [if_pos hpos.le, if_neg hpos.not_ge, if_pos hpos, List.countP_append,
        List.countP_singleton, if_pos (decide_eq_true hpos)]
      refine ⟨.inr rfl, ?_⟩
      rw [List.countP_nil]
      split <;> omega

/-- A suffix of results that all meet a condition is part of the longest. -/
theorem suffix_rtakeWhile {β : Type*} {p : β → Bool} {s l : List β} (hs : s <:+ l)
    (hp : ∀ y ∈ s, p y) : s <:+ l.rtakeWhile p := by
  obtain ⟨t, rfl⟩ := hs
  have hrev : ∀ y ∈ s.reverse, p y := fun y hy => hp y (List.mem_reverse.mp hy)
  rw [List.rtakeWhile, List.reverse_append, List.takeWhile_append_of_pos hrev,
    List.reverse_append, List.reverse_reverse]
  exact List.suffix_append _ _

/-- The streak is the count of results in the longest suffix of one sign. -/
theorem streak_spec (xs : List α) : ∃ s, s <:+ xs ∧ OneSign s ∧
    (∀ s', s' <:+ xs → OneSign s' → s' <:+ s) ∧ streak xs = signedCount s := by
  obtain ⟨-, hstreak⟩ := streak_eq xs
  have hgains : ∀ x ∈ gains xs, 0 ≤ x := fun x hx =>
    of_decide_eq_true (List.mem_rtakeWhile_imp (p := fun x => decide (0 ≤ x)) hx)
  have hlosses : ∀ x ∈ losses xs, x ≤ 0 := fun x hx =>
    of_decide_eq_true (List.mem_rtakeWhile_imp (p := fun x => decide (x ≤ 0)) hx)
  have hnoloss : ∀ l : List α, (∀ x ∈ l, 0 ≤ x) → l.countP (· < 0) = 0 := fun l hl =>
    List.countP_eq_zero.mpr fun x hx => by simpa using hl x hx
  have hnogain : ∀ l : List α, (∀ x ∈ l, x ≤ 0) → l.countP (0 < ·) = 0 := fun l hl =>
    List.countP_eq_zero.mpr fun x hx => by simpa using hl x hx
  have hlongest : ∀ s', s' <:+ xs → OneSign s' → s' <:+ gains xs ∨ s' <:+ losses xs := by
    intro s' hs' hone
    rcases hone with hnonneg | hnonpos
    · exact .inl (suffix_rtakeWhile hs' fun y hy => decide_eq_true (hnonneg y hy))
    · exact .inr (suffix_rtakeWhile hs' fun y hy => decide_eq_true (hnonpos y hy))
  rcases List.suffix_or_suffix_of_suffix (List.rtakeWhile_suffix (0 ≤ ·) xs)
      (List.rtakeWhile_suffix (· ≤ 0) xs) with hle | hle
  · refine ⟨losses xs, List.rtakeWhile_suffix _ _, .inr hlosses, fun s' hs' hone => ?_, ?_⟩
    · exact (hlongest s' hs' hone).elim (fun h => h.trans hle) id
    · rw [hstreak, signedCount, hnogain _ hlosses,
        hnogain (gains xs) fun x hx => hlosses x (hle.mem hx)]
  · refine ⟨gains xs, List.rtakeWhile_suffix _ _, .inl hgains, fun s' hs' hone => ?_, ?_⟩
    · exact (hlongest s' hs' hone).elim id fun h => h.trans hle
    · rw [hstreak, signedCount, hnoloss _ hgains,
        hnoloss (losses xs) fun x hx => hgains x (hle.mem hx)]

end Streak

end SuperAgent
