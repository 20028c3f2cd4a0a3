import SuperAgent.Core.Rounding
import SuperAgent.Fixed.Decimal

/-!
# How exact products and quotients are

A product or quotient is the exact one, rounded half away from zero in its last
place, unless that does not fit. The 64-bit quotient is rounded up before it is
checked, so that one magnitude beyond the largest passes for zero.
-/

namespace SuperAgent.Fixed

/-- The number a decimal stands for. -/
def value (d : D) : ℚ := d.toInt / 10 ^ exp

/-- A number in units of a decimal's last place, rounded half away from zero. -/
def rounded (x : ℚ) : ℤ := roundAway (x * 10 ^ exp)

/-- A result is the rounded number, or missing because that is beyond the largest decimal. -/
def Exact (r : Option D) (x : ℚ) : Prop :=
  match r with
  | some d => d.toInt = rounded x
  | none => (maxInt64 : ℤ) < |rounded x|

/-- The quotient's magnitude rounds up to `2 ^ 64`, which an unsigned word holds as zero. -/
def Wraps (a b c : Int64) : Prop :=
  (2 ^ 65 - 1) * c.toInt.natAbs ≤ 2 * (a.toInt.natAbs * b.toInt.natAbs) ∧
    a.toInt.natAbs * b.toInt.natAbs < 2 ^ 64 * c.toInt.natAbs

instance (a b c : Int64) : Decidable (Wraps a b c) := inferInstanceAs (Decidable (_ ∧ _))

variable {a b c : Int64}

/-- A word from its magnitude. -/
theorem toInt_eq_natAbs (a : Int64) :
    a.toInt = if a < 0 then -(a.toInt.natAbs : ℤ) else a.toInt.natAbs := by
  have hlt : a < 0 ↔ a.toInt < 0 := Int64.lt_iff_toInt_lt
  by_cases h : a < 0
  · rw [if_pos h]
    have := hlt.mp h
    omega
  · rw [if_neg h]
    have := mt hlt.mpr h
    omega

/-- A product that fits is the product of the values. -/
theorem toInt_mul_of_fits (h : Fits (a.toInt * b.toInt)) :
    (a * b).toInt = a.toInt * b.toInt := by
  obtain ⟨hlo, hhi⟩ := h
  rw [Int64.toInt_mul]
  apply Int.bmod_eq_of_le <;> omega

/-- A word that is not negative is the word of its magnitude. -/
theorem eq_ofNat_of_nonneg (h : 0 ≤ a) : ∃ n < 2 ^ 63, a = Int64.ofNat n ∧ a.toInt = n := by
  have hnonneg : 0 ≤ a.toInt := Int64.le_iff_toInt_le.mp h
  have hlt := a.toInt_lt
  obtain ⟨n, hn⟩ := Int.eq_ofNat_of_zero_le hnonneg
  refine ⟨n, by omega, ?_, hn⟩
  rw [← Int64.toInt_inj, hn, Int64.toInt_ofNat_of_lt (by omega)]

/-- The sign of a word that is not negative. -/
theorem not_neg_ofNat {n : ℕ} (hn : n < 2 ^ 63) : ¬ Int64.ofNat n < 0 := by
  rw [Int64.lt_iff_toInt_lt, Int64.toInt_ofNat_of_lt hn]
  exact not_lt.mpr (Int.natCast_nonneg n)

theorem ofNat_pos_iff {n : ℕ} (hn : n < 2 ^ 63) : 0 < Int64.ofNat n ↔ 0 < n := by
  rw [Int64.lt_iff_toInt_lt, Int64.toInt_ofNat_of_lt hn]
  exact Int.natCast_pos

/-- The signed quotient is the quotient of the magnitudes with the sign of the operands. -/
theorem quotient_eq (a b c : Int64) : (a.toInt * b.toInt : ℚ) / c.toInt =
    if ((decide (a < 0)).xor (decide (b < 0))).xor (decide (c < 0)) then
      -(((a.toInt.natAbs * b.toInt.natAbs : ℕ) : ℚ) / (c.toInt.natAbs : ℕ))
    else ((a.toInt.natAbs * b.toInt.natAbs : ℕ) : ℚ) / (c.toInt.natAbs : ℕ) := by
  rw [toInt_eq_natAbs a, toInt_eq_natAbs b, toInt_eq_natAbs c]
  generalize a.toInt.natAbs = m
  generalize b.toInt.natAbs = n
  generalize c.toInt.natAbs = k
  by_cases ha : a < 0 <;> by_cases hb : b < 0 <;> by_cases hc : c < 0 <;>
    simp [ha, hb, hc, neg_div, div_neg]

/-- The rounded quotient's magnitude. -/
def magnitude (a b c : Int64) : ℕ :=
  roundDiv (a.toInt.natAbs * b.toInt.natAbs) c.toInt.natAbs

/-- The magnitude wraps where the quotient is the largest word and is rounded up. -/
theorem wraps_iff {p q : ℕ} (hq : 0 < q) :
    (2 ^ 65 - 1) * q ≤ 2 * p ∧ p < 2 ^ 64 * q ↔ p / q = 2 ^ 64 - 1 ∧ q ≤ p % q * 2 := by
  have hmod := Nat.mod_lt p hq
  have hdiv := Nat.div_add_mod p q
  constructor
  · rintro ⟨hlow, hhigh⟩
    have hlt : p / q < 2 ^ 64 := (Nat.div_lt_iff_lt_mul hq).mpr hhigh
    have heq : p / q = 2 ^ 64 - 1 := by
      by_contra hne
      have hmul := Nat.mul_le_mul_left q (show p / q + 1 ≤ 2 ^ 64 - 1 by omega)
      rw [Nat.mul_add, Nat.mul_one] at hmul
      omega
    rw [heq] at hdiv
    exact ⟨heq, by omega⟩
  · rintro ⟨heq, hround⟩
    rw [heq] at hdiv
    constructor <;> omega

/-- Where the magnitude wraps, the result is zero; elsewhere it is the rounded quotient, if that
fits. -/
theorem mulDiv_eq (hc : c ≠ 0) : mulDiv a b c =
    if Wraps a b c then some 0
    else if maxInt64 < magnitude a b c then none
    else some (if ((decide (a < 0)).xor (decide (b < 0))).xor (decide (c < 0)) then
      -Int64.ofNat (magnitude a b c) else Int64.ofNat (magnitude a b c)) := by
  have hpos : 0 < c.toInt.natAbs := by
    have hne : c.toInt ≠ 0 := fun h => hc (Int64.toInt_inj.mp h)
    omega
  have hwraps : Wraps a b c ↔ _ := wraps_iff hpos
  unfold mulDiv magnitude roundDiv
  rw [if_neg hc]
  dsimp only
  generalize a.toInt.natAbs * b.toInt.natAbs = p at hwraps
  generalize c.toInt.natAbs = q at hpos hwraps
  generalize ((decide (a < 0)).xor (decide (b < 0))).xor (decide (c < 0)) = neg
  by_cases hhi : q ≤ p / 2 ^ 64
  · -- the quotient is beyond 64 bits
    have hle : q * 2 ^ 64 ≤ p := (Nat.le_div_iff_mul_le (by decide)).mp hhi
    have hquot : 2 ^ 64 ≤ p / q := (Nat.le_div_iff_mul_le hpos).mpr (by omega)
    have hnot : ¬ Wraps a b c := fun h => by
      have := (hwraps.mp h).1
      omega
    rw [if_pos hhi, if_neg hnot, if_pos (by unfold maxInt64; split <;> omega)]
  · have hlt : p < 2 ^ 64 * q := by
      by_contra hge
      exact hhi ((Nat.le_div_iff_mul_le (by decide)).mpr (by omega))
    have hquot : p / q < 2 ^ 64 := (Nat.div_lt_iff_lt_mul hpos).mpr hlt
    rw [if_neg hhi]
    by_cases hround : q ≤ p % q * 2
    · rw [if_pos hround, if_pos hround]
      by_cases hmax : p / q = 2 ^ 64 - 1
      · rw [if_pos (hwraps.mpr ⟨hmax, hround⟩), hmax]
        cases neg <;> rfl
      · rw [if_neg fun h => hmax (hwraps.mp h).1, Nat.mod_eq_of_lt (by omega)]
    · rw [if_neg hround, if_neg hround, if_neg fun h => hround (hwraps.mp h).2]

/-- A word other than zero may be divided by. -/
theorem ofNat_ne_zero {n : ℕ} (hn : n < 2 ^ 63) (hpos : 0 < n) : Int64.ofNat n ≠ 0 := by
  intro h
  have hint := congrArg Int64.toInt h
  rw [Int64.toInt_ofNat_of_lt hn] at hint
  exact absurd hint (by change (n : ℤ) ≠ 0; omega)

/-- The quotient of words that are not negative. -/
theorem mulDiv_ofNat {m n k : ℕ} (hm : m < 2 ^ 63) (hn : n < 2 ^ 63) (hk : k < 2 ^ 63)
    (hpos : 0 < k) : mulDiv (Int64.ofNat m) (Int64.ofNat n) (Int64.ofNat k) =
      if (2 ^ 65 - 1) * k ≤ 2 * (m * n) ∧ m * n < 2 ^ 64 * k then some 0
      else if maxInt64 < roundDiv (m * n) k then none
      else some (Int64.ofNat (roundDiv (m * n) k)) := by
  rw [mulDiv_eq (ofNat_ne_zero hk hpos)]
  simp only [Wraps, magnitude, Int64.toInt_ofNat_of_lt hm, Int64.toInt_ofNat_of_lt hn,
    Int64.toInt_ofNat_of_lt hk, Int.natAbs_natCast, not_neg_ofNat hm, not_neg_ofNat hn,
    not_neg_ofNat hk]
  rfl

/-- A quotient below the largest word is not missing. -/
theorem mulDiv_ofNat_of_lt {m n k : ℕ} (hm : m < 2 ^ 63) (hn : n < 2 ^ 63) (hk : k < 2 ^ 63)
    (hpos : 0 < k) (hfits : roundDiv (m * n) k < 2 ^ 63) :
    mulDiv (Int64.ofNat m) (Int64.ofNat n) (Int64.ofNat k) =
      some (Int64.ofNat (roundDiv (m * n) k)) := by
  rw [mulDiv_ofNat hm hn hk hpos, if_neg, if_neg (by unfold maxInt64; omega)]
  rintro ⟨hlow, -⟩
  rw [roundDiv_eq hpos, Nat.div_lt_iff_lt_mul (by omega)] at hfits
  omega

/-- Whole numbers of units are words of their last places. -/
theorem fromInt_ofNat (n : ℕ) : fromInt (Int64.ofNat n) = Int64.ofNat (n * 10 ^ 8) := by
  rw [Int64.ofNat_mul]
  rfl

/-- Dividing by two whole units or more never panics. -/
theorem div_fromInt_isSome (a : D) {n : ℕ} (h2 : 2 ≤ n) (hn : n * 10 ^ 8 < 2 ^ 63) :
    (div a (fromInt (Int64.ofNat n))).isSome := by
  have hunit : (Int64.ofNat (n * 10 ^ 8)).toInt.natAbs = n * 10 ^ 8 := by
    rw [Int64.toInt_ofNat_of_lt hn, Int.natAbs_natCast]
  have hscale : scale.toInt.natAbs = 10 ^ 8 := by decide
  have hle : a.toInt.natAbs ≤ 2 ^ 63 := by
    have hlow := a.le_toInt
    have hhigh := a.toInt_lt
    omega
  have hmag : magnitude a scale (Int64.ofNat (n * 10 ^ 8)) ≤ maxInt64 := by
    rw [magnitude, hscale, hunit, roundDiv_mul_mul_right _ _ (by decide), roundDiv_eq (by omega),
      maxInt64, Nat.le_iff_lt_add_one, Nat.div_lt_iff_lt_mul (by omega)]
    omega
  rw [div, fromInt_ofNat, mulDiv_eq (ofNat_ne_zero hn (by omega)), if_neg (not_lt.mpr hmag)]
  split <;> rfl

/-- The rounding of the signed quotient. -/
theorem roundAway_quotient (hc : c ≠ 0) : roundAway ((a.toInt * b.toInt : ℚ) / c.toInt) =
    if ((decide (a < 0)).xor (decide (b < 0))).xor (decide (c < 0)) then
      -(magnitude a b c : ℤ) else magnitude a b c := by
  have hpos : 0 < c.toInt.natAbs := by
    have hne : c.toInt ≠ 0 := fun h => hc (Int64.toInt_inj.mp h)
    omega
  rw [quotient_eq]
  split
  · rw [roundAway_neg, roundAway_natCast_div hpos]
    rfl
  · rw [roundAway_natCast_div hpos]
    rfl

/-- A quotient that wraps is nowhere near zero. -/
theorem magnitude_of_wraps (hc : c ≠ 0) (h : Wraps a b c) : magnitude a b c = 2 ^ 64 := by
  have hpos : 0 < c.toInt.natAbs := by
    have hne : c.toInt ≠ 0 := fun h => hc (Int64.toInt_inj.mp h)
    omega
  obtain ⟨hmax, hround⟩ := (wraps_iff hpos).mp h
  rw [magnitude, roundDiv, if_pos hround, hmax]
  rfl

/-- The result of a product divided is the rounded quotient or missing because that does not fit,
exactly where the magnitude does not wrap. -/
theorem mulDiv_exact_iff (hc : c ≠ 0) {x : ℚ}
    (hx : x * 10 ^ exp = (a.toInt * b.toInt : ℚ) / c.toInt) :
    Exact (mulDiv a b c) x ↔ ¬ Wraps a b c := by
  have hrounded : rounded x = _ := (congrArg roundAway hx).trans (roundAway_quotient hc)
  have habs : |rounded x| = magnitude a b c := by
    rw [hrounded]
    split <;> simp
  rw [mulDiv_eq hc]
  by_cases hw : Wraps a b c
  · rw [if_pos hw]
    have hmag := magnitude_of_wraps hc hw
    refine ⟨fun h => ?_, fun h => absurd hw h⟩
    have hzero : rounded x = 0 := h.symm
    rw [hzero, hmag] at habs
    exact absurd habs (by decide)
  · rw [if_neg hw]
    refine ⟨fun _ => hw, fun _ => ?_⟩
    by_cases hmax : maxInt64 < magnitude a b c
    · rw [if_pos hmax]
      change (maxInt64 : ℤ) < |rounded x|
      rw [habs]
      exact_mod_cast hmax
    · rw [if_neg hmax]
      change Int64.toInt _ = rounded x
      rw [hrounded]
      have hle : magnitude a b c ≤ 2 ^ 63 - 1 := not_lt.mp hmax
      split
      · exact Int64.toInt_neg_ofNat_of_le (by omega)
      · exact Int64.toInt_ofNat_of_lt (by omega)

theorem scale_eq : (scale.toInt : ℚ) = 10 ^ exp := by
  have hint : scale.toInt = 100000000 := by decide
  rw [hint, exp]
  norm_num

theorem mul_exact_iff (a b : D) : Exact (mul a b) (value a * value b) ↔ ¬ Wraps a b scale := by
  refine mulDiv_exact_iff (by decide) ?_
  rw [scale_eq, value, value]
  field_simp

theorem div_exact_iff (a : D) {c : D} (hc : c ≠ 0) :
    Exact (div a c) (value a / value c) ↔ ¬ Wraps a scale c := by
  have hne : (c.toInt : ℚ) ≠ 0 := by
    rw [Int.cast_ne_zero]
    exact fun h => hc (Int64.toInt_inj.mp h)
  refine mulDiv_exact_iff hc ?_
  rw [scale_eq, value, value]
  field_simp

/-- Products and quotients are the exact ones rounded half away from zero to a decimal's places,
or panic because that is beyond the largest decimal, exactly where the rounded magnitude is not the
first that an unsigned word does not hold. -/
theorem exact_or_panics (a b : D) :
    (Exact (mul a b) (value a * value b) ↔ ¬ Wraps a b scale) ∧
      (b ≠ 0 → (Exact (div a b) (value a / value b) ↔ ¬ Wraps a scale b)) :=
  ⟨mul_exact_iff a b, div_exact_iff a⟩

/-- A third in eight places. -/
theorem exact_third : Exact (div scale (3 * scale)) (value scale / value (3 * scale)) :=
  ((exact_or_panics scale (3 * scale)).2 (by decide)).mpr (by decide)

/-- The product of `2.00000005` and `92233718062.70480651` is zero: its magnitude, in units of the
last place, rounds to `2 ^ 64`. -/
theorem product_wraps : mul 200000005 9223371806270480651 = some 0 ∧
    ¬ Exact (mul 200000005 9223371806270480651)
      (value 200000005 * value 9223371806270480651) := by
  refine ⟨by decide, fun h => ?_⟩
  exact (mul_exact_iff _ _).mp h (by decide)

end SuperAgent.Fixed
