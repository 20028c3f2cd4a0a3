import Mathlib.Algebra.Order.Round
import Mathlib.Data.Rat.Floor
import Mathlib.Tactic.FieldSimp
import Mathlib.Tactic.Linarith
import Mathlib.Tactic.Positivity
import Mathlib.Tactic.Ring

/-!
# Rounding half away from zero

Numbers of an ordered field rounded to the nearest integer, where a number
halfway between two goes to the one further from zero. Quotients of integers are
rounded from the quotient and the remainder of their magnitudes.
-/

namespace SuperAgent

variable {K : Type*} [Field K] [LinearOrder K] [FloorRing K] {x : K}

/-- The nearest integer, away from zero at halves. -/
def roundAway (x : K) : ℤ := if x < 0 then -⌊-x + 1 / 2⌋ else ⌊x + 1 / 2⌋

theorem roundAway_of_nonneg (h : 0 ≤ x) : roundAway x = ⌊x + 1 / 2⌋ := if_neg h.not_gt

theorem roundAway_of_neg (h : x < 0) : roundAway x = -⌊-x + 1 / 2⌋ := if_pos h

variable [IsStrictOrderedRing K]

/-- Rounding does not depend on the sign. -/
theorem roundAway_neg (x : K) : roundAway (-x) = -roundAway x := by
  rcases lt_trichotomy x 0 with h | rfl | h
  · rw [roundAway_of_neg h, roundAway_of_nonneg (neg_nonneg.mpr h.le), neg_neg]
  · have hhalf : ⌊(0 : K) + 1 / 2⌋ = 0 := by
      rw [Int.floor_eq_zero_iff, Set.mem_Ico, zero_add]
      constructor <;> norm_num
    rw [neg_zero, roundAway_of_nonneg le_rfl, hhalf]
    rfl
  · rw [roundAway_of_nonneg h.le, roundAway_of_neg (neg_neg_of_pos h), neg_neg]

/-- A number is at most one half from its rounding. -/
theorem abs_roundAway_sub_le (x : K) : |(roundAway x : K) - x| ≤ 1 / 2 := by
  have hpos : ∀ y : K, |(⌊y + 1 / 2⌋ : K) - y| ≤ 1 / 2 := by
    intro y
    have hle := Int.floor_le (y + 1 / 2)
    have hlt := Int.lt_floor_add_one (y + 1 / 2)
    rw [abs_le]
    constructor <;> linarith
  by_cases h : x < 0
  · have hneg := hpos (-x)
    rw [roundAway_of_neg h, Int.cast_neg, ← abs_neg]
    rwa [show -(-(⌊-x + 1 / 2⌋ : K) - x) = (⌊-x + 1 / 2⌋ : K) - -x by ring]
  · rw [roundAway_of_nonneg (not_lt.mp h)]
    exact hpos x

/-- An integer is its own rounding. -/
theorem roundAway_intCast (n : ℤ) : roundAway (n : K) = n := by
  have hhalf : ∀ m : ℤ, ⌊(m : K) + 1 / 2⌋ = m := by
    intro m
    rw [Int.floor_eq_iff]
    constructor <;> linarith
  by_cases h : (n : K) < 0
  · rw [roundAway_of_neg h, ← Int.cast_neg, hhalf, neg_neg]
  · rw [roundAway_of_nonneg (not_lt.mp h), hhalf]

/-- Rounding keeps the order. -/
theorem roundAway_mono {x y : K} (h : x ≤ y) : roundAway x ≤ roundAway y := by
  have hpos : ∀ a b : K, a ≤ b → ⌊a + 1 / 2⌋ ≤ ⌊b + 1 / 2⌋ := fun a b hab =>
    Int.floor_mono (add_le_add_left hab _)
  rcases lt_or_ge y 0 with hy | hy
  · rw [roundAway_of_neg hy, roundAway_of_neg (h.trans_lt hy)]
    exact neg_le_neg (hpos _ _ (neg_le_neg h))
  · have hzero : ∀ a : K, 0 ≤ a → 0 ≤ ⌊a + 1 / 2⌋ := fun a ha =>
      Int.floor_nonneg.mpr (by linarith)
    rw [roundAway_of_nonneg hy]
    rcases lt_or_ge x 0 with hx | hx
    · rw [roundAway_of_neg hx]
      exact (neg_nonpos.mpr (hzero _ (neg_nonneg.mpr hx.le))).trans (hzero y hy)
    · rw [roundAway_of_nonneg hx]
      exact hpos x y h

/-- A quotient rounded to the nearest, as integer division computes it. -/
def roundDiv (p q : ℕ) : ℕ := if q ≤ p % q * 2 then p / q + 1 else p / q

/-- The remainder tells which way a quotient is rounded. -/
theorem roundDiv_eq {p q : ℕ} (hq : 0 < q) : roundDiv p q = (2 * p + q) / (2 * q) := by
  have hmod := Nat.mod_lt p hq
  have hsum : 2 * p + q = 2 * q * (p / q) + (2 * (p % q) + q) := by
    calc 2 * p + q = 2 * (q * (p / q) + p % q) + q := by rw [Nat.div_add_mod]
      _ = 2 * q * (p / q) + (2 * (p % q) + q) := by ring
  rw [hsum, Nat.mul_add_div (by omega), roundDiv]
  split
  · have hone : (2 * (p % q) + q) / (2 * q) = 1 := by
      apply Nat.div_eq_of_lt_le <;> omega
    rw [hone]
  · have hzero : (2 * (p % q) + q) / (2 * q) = 0 := Nat.div_eq_of_lt (by omega)
    rw [hzero, Nat.add_zero]

/-- A common factor does not matter. -/
theorem roundDiv_mul_mul_right (p q : ℕ) {k : ℕ} (hk : 0 < k) :
    roundDiv (p * k) (q * k) = roundDiv p q := by
  have hle : q * k ≤ p % q * k * 2 ↔ q ≤ p % q * 2 := by
    rw [Nat.mul_right_comm]
    exact Nat.mul_le_mul_right_iff hk
  rw [roundDiv, roundDiv, Nat.mul_mod_mul_right, Nat.mul_div_mul_right _ _ hk]
  simp only [hle]

/-- An exact quotient is not rounded. -/
theorem roundDiv_mul_left (p : ℕ) {q : ℕ} (hq : 0 < q) : roundDiv (p * q) q = p := by
  rw [roundDiv, Nat.mul_mod_left, if_neg (by omega), Nat.mul_div_cancel p hq]

/-- A quotient is rounded by at most one half. -/
theorem roundDiv_mul_le (p : ℕ) {q : ℕ} (hq : 0 < q) : 2 * (roundDiv p q * q) ≤ 2 * p + q := by
  rw [roundDiv_eq hq]
  calc 2 * ((2 * p + q) / (2 * q) * q) = (2 * p + q) / (2 * q) * (2 * q) := by ring
    _ ≤ 2 * p + q := Nat.div_mul_le_self _ _

/-- Rounding a quotient of naturals. -/
theorem roundAway_natCast_div {p q : ℕ} (hq : 0 < q) :
    roundAway ((p : ℚ) / q) = roundDiv p q := by
  have hq' : (q : ℚ) ≠ 0 := by positivity
  rw [roundAway_of_nonneg (by positivity), roundDiv_eq hq,
    show (p : ℚ) / q + 1 / 2 = ((2 * p + q : ℕ) : ℚ) / ((2 * q : ℕ) : ℚ) by
      push_cast
      field_simp]
  exact Rat.floor_natCast_div_natCast (2 * p + q) (2 * q)

/-- Rounding a quotient of an integer: the truncated quotient is moved away from zero when the
remainder is half the divisor or more. -/
theorem roundAway_intCast_div (p : ℤ) {q : ℕ} (hq : 0 < q) : roundAway ((p : ℚ) / q) =
    if q ≤ (p.tmod q).natAbs * 2 then p.tdiv q + if p < 0 then -1 else 1 else p.tdiv q := by
  have hnat : ∀ n : ℕ, roundAway (((n : ℤ) : ℚ) / q) =
      if q ≤ ((n : ℤ).tmod q).natAbs * 2 then (n : ℤ).tdiv q + 1 else (n : ℤ).tdiv q := by
    intro n
    have hdiv : (n : ℤ).tdiv q = (n / q : ℕ) := rfl
    have hmod : ((n : ℤ).tmod q).natAbs = n % q := rfl
    rw [hdiv, hmod, Int.cast_natCast, roundAway_natCast_div hq, roundDiv]
    split <;> rfl
  rcases lt_or_ge p 0 with hp | hp
  · obtain ⟨n, rfl⟩ : ∃ n : ℕ, p = -n := ⟨p.natAbs, by omega⟩
    rw [Int.cast_neg, neg_div, roundAway_neg, hnat, Int.neg_tmod, Int.natAbs_neg, Int.neg_tdiv,
      if_pos hp]
    split <;> ring
  · obtain ⟨n, rfl⟩ := Int.eq_ofNat_of_zero_le hp
    rw [if_neg (not_lt.mpr hp)]
    exact hnat n

/-! ## Multiples of a step -/

/-- The multiple of greatest magnitude that is not beyond a number, with the number's sign. -/
structure IsTruncated (d t m : ℤ) : Prop where
  dvd : t ∣ m
  sign : 0 ≤ d * m
  le : |m| ≤ |d|
  greatest : ∀ k, t ∣ k → |k| ≤ |d| → |k| ≤ |m|

/-- The multiple nearest to a number, the one further from zero where two are as near. -/
structure IsNearest (d t m : ℤ) : Prop where
  dvd : t ∣ m
  nearest : ∀ k, t ∣ k → k ≠ m → |d - m| < |d - k| ∨ |d - m| = |d - k| ∧ |k| < |m|

theorem IsTruncated.neg {d t m : ℤ} (h : IsTruncated d t m) : IsTruncated (-d) t (-m) where
  dvd := h.dvd.neg_right
  sign := by
    rw [neg_mul_neg]
    exact h.sign
  le := by
    rw [abs_neg, abs_neg]
    exact h.le
  greatest k hk hle := by
    rw [abs_neg] at hle ⊢
    exact h.greatest k hk hle

theorem IsNearest.neg {d t m : ℤ} (h : IsNearest d t m) : IsNearest (-d) t (-m) where
  dvd := h.dvd.neg_right
  nearest k hk hne := by
    have hflip : ∀ x : ℤ, |-d - x| = |d - -x| := fun x => by
      rw [← abs_neg, neg_sub, sub_neg_eq_add, sub_neg_eq_add, add_comm]
    have hother := h.nearest (-k) hk.neg_right (by omega)
    rw [hflip, hflip, neg_neg, abs_neg]
    rwa [abs_neg] at hother

theorem IsNearest.unique {d t m m' : ℤ} (h : IsNearest d t m) (h' : IsNearest d t m') : m = m' := by
  by_contra hne
  have hm := h.nearest m' h'.dvd (Ne.symm hne)
  have hm' := h'.nearest m h.dvd hne
  omega

/-- Division without remainder gives the greatest multiple. -/
theorem isTruncated_natCast (n t : ℕ) : IsTruncated n t (n / t * t : ℕ) where
  dvd := by
    rw [Nat.cast_mul]
    exact dvd_mul_left _ _
  sign := by positivity
  le := by
    rw [Nat.abs_cast, Nat.abs_cast]
    exact_mod_cast Nat.div_mul_le_self n t
  greatest k hk hle := by
    rw [Nat.abs_cast, Int.abs_eq_natAbs, Nat.cast_le] at hle
    rw [Nat.abs_cast, Int.abs_eq_natAbs, Nat.cast_le]
    obtain ⟨j, hj⟩ := Int.natCast_dvd.mp hk
    rw [hj, Nat.mul_comm] at hle ⊢
    rcases Nat.eq_zero_or_pos t with rfl | ht
    · rw [Nat.mul_zero]
      exact Nat.zero_le _
    · exact Nat.mul_le_mul_right t ((Nat.le_div_iff_mul_le ht).mpr hle)

/-- Half the step decides which way to go. -/
theorem isNearest_natCast (n : ℕ) {t : ℕ} (ht : 0 < t) : IsNearest n t (roundDiv n t * t : ℕ) where
  dvd := by
    rw [Nat.cast_mul]
    exact dvd_mul_left _ _
  nearest k hk hne := by
    obtain ⟨j, rfl⟩ := hk
    have hlt := Nat.mod_lt n ht
    have hmod : (n : ℤ) = t * (n / t : ℕ) + (n % t : ℕ) := by
      exact_mod_cast (Nat.div_add_mod n t).symm
    -- how many multiples the other one is from the one below
    obtain ⟨i, rfl⟩ : ∃ i : ℤ, j = (n / t : ℕ) + i := ⟨j - (n / t : ℕ), by omega⟩
    have hbelow : i ≤ -1 → (t : ℤ) * i ≤ -t := fun hi => by nlinarith
    have hzero : i = 0 → (t : ℤ) * i = 0 := fun hi => by rw [hi, mul_zero]
    have hone : i = 1 → (t : ℤ) * i = t := fun hi => by rw [hi, mul_one]
    have habove : 1 ≤ i → (t : ℤ) ≤ t * i := fun hi => by nlinarith
    have hbeyond : 2 ≤ i → 2 * (t : ℤ) ≤ t * i := fun hi => by nlinarith
    have hquot : 0 ≤ (t : ℤ) * (n / t : ℕ) := by positivity
    have hm : ((roundDiv n t * t : ℕ) : ℤ) =
        if t ≤ n % t * 2 then (t : ℤ) * (n / t : ℕ) + t else t * ((n / t : ℕ) : ℤ) := by
      rw [roundDiv]
      split
      · rw [Nat.cast_mul, Nat.cast_add, Nat.cast_one]
        ring
      · rw [Nat.cast_mul, mul_comm]
    rw [hm, mul_add] at hne
    rw [hm, hmod, mul_add]
    simp only [Int.abs_eq_natAbs]
    generalize (t : ℤ) * (n / t : ℕ) = below at *
    generalize (t : ℤ) * i = apart at *
    split at hne <;> rename_i hround
    · rw [if_pos hround]
      omega
    · rw [if_neg hround]
      omega

end SuperAgent
