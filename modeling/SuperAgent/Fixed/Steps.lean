import SuperAgent.Fixed.Exact
import SuperAgent.Fixed.Scaled

/-!
# Rounding to a step

Sizes are rounded down to a multiple of a market's step, prices to the nearest
one. Whether half a step is reached is decided on twice the remainder, and the
multiple is a product: both are computed on a word, and both may wrap.
-/

namespace SuperAgent.Fixed

/-- The magnitude rounded down to a multiple of a step, toward zero. -/
def roundDownTo (d step : D) : D :=
  if step ≤ 0 then d else sign d * (abs d / step * step)

/-- The magnitude rounded to the nearest multiple of a step, half away from zero. -/
def roundToNearest (d step : D) : D :=
  if step ≤ 0 then d else
    let q := abs d / step
    let r := abs d % step
    sign d * ((if step ≤ r * 2 then q + 1 else q) * step)

variable {n t : ℕ} {d step : D}

/-! ## Words that are not negative -/

theorem ofNat_div_ofNat (hn : n < 2 ^ 63) (ht : t < 2 ^ 63) :
    Int64.ofNat n / Int64.ofNat t = Int64.ofNat (n / t) := by
  have hle : n / t ≤ n := Nat.div_le_self n t
  have hminus : Int64.ofNat t ≠ -1 := by
    intro h
    have hneg := congrArg Int64.toInt h
    rw [Int64.toInt_ofNat_of_lt ht] at hneg
    have hone : (-1 : Int64).toInt = -1 := rfl
    omega
  rw [← Int64.toInt_inj, Int64.toInt_div_of_ne_right _ _ hminus, Int64.toInt_ofNat_of_lt hn,
    Int64.toInt_ofNat_of_lt ht, Int64.toInt_ofNat_of_lt (by omega)]
  rfl

theorem ofNat_mod_ofNat (hn : n < 2 ^ 63) (ht : t < 2 ^ 63) :
    Int64.ofNat n % Int64.ofNat t = Int64.ofNat (n % t) := by
  have hle : n % t ≤ n := Nat.mod_le n t
  rw [← Int64.toInt_inj, Int64.toInt_mod, Int64.toInt_ofNat_of_lt hn, Int64.toInt_ofNat_of_lt ht,
    Int64.toInt_ofNat_of_lt (by omega)]
  rfl

/-- Rounding down what is not negative is division without remainder. -/
theorem roundDownTo_ofNat (hn : n < 2 ^ 63) (ht : t < 2 ^ 63) (hpos : 0 < t) :
    roundDownTo (Int64.ofNat n) (Int64.ofNat t) = Int64.ofNat (n / t * t) := by
  have hstep : ¬ Int64.ofNat t ≤ 0 := Int64.not_le.mpr ((ofNat_pos_iff ht).mpr hpos)
  rw [roundDownTo, if_neg hstep, abs, sign, if_neg (not_neg_ofNat hn), if_neg (not_neg_ofNat hn),
    Int64.one_mul, ofNat_div_ofNat hn ht, Int64.ofNat_mul]

theorem natAbs_lt (hd : d ≠ Int64.minValue) : d.toInt.natAbs < 2 ^ 63 := by
  have hle := d.le_toInt
  have hlt := d.toInt_lt
  have hne : d.toInt ≠ -2 ^ 63 := fun h => hd (Int64.toInt_inj.mp h)
  omega

/-- The magnitude of a word, the smallest apart, is a word. -/
theorem abs_eq_ofNat (hd : d ≠ Int64.minValue) : abs d = Int64.ofNat d.toInt.natAbs := by
  have hlt := natAbs_lt hd
  have hneg : d < 0 ↔ d.toInt < 0 := Int64.lt_iff_toInt_lt
  rw [← Int64.toInt_inj, Int64.toInt_ofNat_of_lt hlt, abs]
  split
  · next h =>
    have hsmall := hneg.mp h
    rw [Int64.toInt_neg, Int.bmod_eq_of_le] <;> omega
  · next h =>
    have hlarge := mt hneg.mpr h
    omega

/-! ## The multiple and the word -/

/-- A magnitude with the sign of a number. -/
def withSign (d : D) (m : ℕ) : ℤ := if d < 0 then -m else m

theorem sign_mul_ofNat (d : D) (m : ℕ) : sign d * Int64.ofNat m = Int64.ofInt (withSign d m) := by
  unfold sign withSign
  split
  · rw [Int64.ofInt_neg, Int64.ofInt_eq_ofNat, Int64.neg_mul, Int64.one_mul]
  · rw [Int64.ofInt_eq_ofNat, Int64.one_mul]

theorem toInt_eq_withSign (d : D) : d.toInt = withSign d d.toInt.natAbs := toInt_eq_natAbs d

theorem isTruncated_signed (d : D) (n t : ℕ) :
    IsTruncated (withSign d n) t (withSign d (n / t * t)) := by
  unfold withSign
  split
  · exact (isTruncated_natCast n t).neg
  · exact isTruncated_natCast n t

theorem isNearest_signed (d : D) (n : ℕ) (ht : 0 < t) :
    IsNearest (withSign d n) t (withSign d (roundDiv n t * t)) := by
  unfold withSign
  split
  · exact (isNearest_natCast n ht).neg
  · exact isNearest_natCast n ht

theorem fits_withSign {m : ℕ} (hm : m < 2 ^ 63) : Fits (withSign d m) := by
  unfold withSign
  split <;> constructor <;> omega

/-- The multiple a magnitude is rounded to on words: up where twice the remainder reaches the step
and does not wrap. -/
def steppedTo (n t : ℕ) : ℕ :=
  if t ≤ n % t * 2 ∧ n % t * 2 < 2 ^ 63 then (n / t + 1) * t else n / t * t

theorem roundDownTo_eq (hd : d ≠ Int64.minValue) (ht : t < 2 ^ 63) (hpos : 0 < t) :
    roundDownTo d (Int64.ofNat t) = Int64.ofInt (withSign d (d.toInt.natAbs / t * t)) := by
  have hstep : ¬ Int64.ofNat t ≤ 0 := Int64.not_le.mpr ((ofNat_pos_iff ht).mpr hpos)
  rw [roundDownTo, if_neg hstep, abs_eq_ofNat hd, ofNat_div_ofNat (natAbs_lt hd) ht,
    ← Int64.ofNat_mul, sign_mul_ofNat]

theorem roundToNearest_eq (hd : d ≠ Int64.minValue) (ht : t < 2 ^ 63) (hpos : 0 < t) :
    roundToNearest d (Int64.ofNat t) = Int64.ofInt (withSign d (steppedTo d.toInt.natAbs t)) := by
  have hstep : ¬ Int64.ofNat t ≤ 0 := Int64.not_le.mpr ((ofNat_pos_iff ht).mpr hpos)
  have hn := natAbs_lt hd
  have hmod := Nat.mod_lt d.toInt.natAbs hpos
  have htwice : Int64.ofNat t ≤ Int64.ofNat (d.toInt.natAbs % t) * 2 ↔
      t ≤ d.toInt.natAbs % t * 2 ∧ d.toInt.natAbs % t * 2 < 2 ^ 63 := by
    have htwo : (2 : Int64) = Int64.ofNat 2 := rfl
    have hsize : Int64.size = 2 ^ 64 := rfl
    rw [htwo, ← Int64.ofNat_mul, Int64.le_iff_toInt_le, Int64.toInt_ofNat_of_lt ht,
      Int64.toInt_ofNat', hsize, Int.bmod_def]
    split <;> omega
  rw [roundToNearest, if_neg hstep, abs_eq_ofNat hd]
  dsimp only
  rw [ofNat_div_ofNat hn ht, ofNat_mod_ofNat hn ht]
  simp only [htwice]
  unfold steppedTo
  split
  · have hone : (1 : Int64) = Int64.ofNat 1 := rfl
    rw [hone, ← Int64.ofNat_add, ← Int64.ofNat_mul, sign_mul_ofNat]
  · rw [← Int64.ofNat_mul, sign_mul_ofNat]

/-! ## What is promised of both -/

/-- A word holds what is left of a number instead of the number. -/
def Wrapped (x : D) (m : ℤ) : Prop := x.toInt ≠ m ∧ (2 ^ 64 : ℤ) ∣ x.toInt - m

/-- Where a number fits, its word is the number; elsewhere the word holds what is left of it. -/
theorem toInt_ofInt_eq_iff {m : ℤ} : (Int64.ofInt m).toInt = m ↔ Fits m := by
  constructor
  · intro h
    rw [← h]
    exact ⟨Int64.le_toInt _, Int64.toInt_lt _⟩
  · rintro ⟨hlow, hhigh⟩
    exact Int64.toInt_ofInt_of_le hlow hhigh

theorem wrapped_ofInt_iff {m : ℤ} : Wrapped (Int64.ofInt m) m ↔ ¬ Fits m := by
  unfold Wrapped
  rw [Ne, toInt_ofInt_eq_iff]
  refine and_iff_left ?_
  rw [Int64.toInt_ofInt]
  exact Int.dvd_bmod_sub_self

/-- Rounding down gives the greatest multiple not beyond a decimal, rounding to the nearest gives the
nearest one wherever it is a decimal, and neither gives what is left of a number that is none. -/
structure RoundsToSteps (d step : D) : Prop where
  down : IsTruncated d.toInt step.toInt (roundDownTo d step).toInt
  nearest : ∀ m, IsNearest d.toInt step.toInt m → Fits m → (roundToNearest d step).toInt = m
  whole : ∀ m, IsNearest d.toInt step.toInt m → ¬ Wrapped (roundToNearest d step) m

/-- Where half a step is reached, twice the remainder fits a word if the next multiple does, and only
then. -/
def NextFits (d step : D) : Prop :=
  let n := d.toInt.natAbs
  let t := step.toInt.natAbs
  t ≤ n % t * 2 → (n % t * 2 < 2 ^ 63 ↔ Fits (withSign d ((n / t + 1) * t)))

/-- A step up on words is the step up where the doubling that decides it does not wrap, and one that
is not taken is a whole step short. -/
theorem stepped_iff (d : D) {n : ℕ} (hn : n < 2 ^ 63) (ht : t < 2 ^ 63) (hpos : 0 < t)
    (hup : t ≤ n % t * 2) :
    (Fits (withSign d ((n / t + 1) * t)) →
        (Int64.ofInt (withSign d (steppedTo n t))).toInt = withSign d ((n / t + 1) * t)) ∧
      ¬ Wrapped (Int64.ofInt (withSign d (steppedTo n t))) (withSign d ((n / t + 1) * t)) ↔
    (n % t * 2 < 2 ^ 63 ↔ Fits (withSign d ((n / t + 1) * t))) := by
  by_cases hsmall : n % t * 2 < 2 ^ 63
  · have hstepped : steppedTo n t = (n / t + 1) * t := if_pos ⟨hup, hsmall⟩
    rw [hstepped, toInt_ofInt_eq_iff, wrapped_ofInt_iff, not_not]
    exact ⟨fun h => iff_of_true hsmall h.2, fun h => ⟨id, h.mp hsmall⟩⟩
  · -- the doubling wraps, so that the multiple below is given
    have hstepped : steppedTo n t = n / t * t := if_neg fun h => hsmall h.2
    obtain ⟨hlow, hhigh⟩ := fits_withSign (d := d) (lt_of_le_of_lt (Nat.div_mul_le_self n t) hn)
    have hshort : withSign d (n / t * t) - withSign d ((n / t + 1) * t) = t ∨
        withSign d (n / t * t) - withSign d ((n / t + 1) * t) = -t := by
      unfold withSign
      rw [Nat.add_mul, Nat.one_mul, Nat.cast_add]
      split <;> omega
    rw [hstepped]
    unfold Wrapped
    rw [Int64.toInt_ofInt_of_le hlow hhigh]
    constructor
    · rintro ⟨h, -⟩
      refine iff_of_false hsmall fun hfits => ?_
      have hsame := h hfits
      omega
    · intro h
      refine ⟨fun hfits => absurd (h.mpr hfits) hsmall, ?_⟩
      rintro ⟨-, hdvd⟩
      omega

/-- Both round as promised exactly where a step up either fits, with the doubling that decides it, or
is not taken. -/
theorem roundsToSteps_iff (hd : d ≠ Int64.minValue) (hstep : 0 < step) :
    RoundsToSteps d step ↔ NextFits d step := by
  obtain ⟨t, ht, rfl, hint⟩ := eq_ofNat_of_nonneg (Int64.le_of_lt hstep)
  have hpos := (ofNat_pos_iff ht).mp hstep
  have hn := natAbs_lt hd
  have hfits := fits_withSign (d := d) (lt_of_le_of_lt (Nat.div_mul_le_self d.toInt.natAbs t) hn)
  have hdown : IsTruncated d.toInt (Int64.ofNat t).toInt (roundDownTo d (Int64.ofNat t)).toInt := by
    rw [roundDownTo_eq hd ht hpos, toInt_ofInt_eq_iff.mpr hfits, hint]
    have htruncated := isTruncated_signed d d.toInt.natAbs t
    rwa [← toInt_eq_withSign] at htruncated
  have hnearest := isNearest_signed d d.toInt.natAbs hpos
  rw [← toInt_eq_withSign, ← hint] at hnearest
  have hiff : RoundsToSteps d (Int64.ofNat t) ↔
      (Fits (withSign d (roundDiv d.toInt.natAbs t * t)) →
        (roundToNearest d (Int64.ofNat t)).toInt = withSign d (roundDiv d.toInt.natAbs t * t)) ∧
      ¬ Wrapped (roundToNearest d (Int64.ofNat t))
        (withSign d (roundDiv d.toInt.natAbs t * t)) := by
    constructor
    · exact fun h => ⟨h.nearest _ hnearest, h.whole _ hnearest⟩
    · rintro ⟨hexact, hwhole⟩
      refine ⟨hdown, fun m hm => ?_, fun m hm => ?_⟩
      · rwa [hm.unique hnearest]
      · rwa [hm.unique hnearest]
  rw [hiff, roundToNearest_eq hd ht hpos]
  unfold NextFits
  rw [hint, Int.natAbs_natCast]
  by_cases hup : t ≤ d.toInt.natAbs % t * 2
  · have hround : roundDiv d.toInt.natAbs t = d.toInt.natAbs / t + 1 := if_pos hup
    rw [hround, stepped_iff d hn ht hpos hup]
    exact ⟨fun h _ => h, fun h => h hup⟩
  · have hround : roundDiv d.toInt.natAbs t = d.toInt.natAbs / t := if_neg hup
    have hstepped : steppedTo d.toInt.natAbs t = d.toInt.natAbs / t * t := if_neg fun h => hup h.1
    rw [hround, hstepped, toInt_ofInt_eq_iff, wrapped_ofInt_iff]
    exact iff_of_true ⟨fun _ => hfits, not_not_intro hfits⟩ fun h => absurd h hup

/-- Half of a step of one unit, to the nearest and down. -/
theorem roundsToSteps_half : RoundsToSteps (scale / 2) scale ∧
    roundToNearest (scale / 2) scale = scale ∧ roundDownTo (scale / 2) scale = 0 :=
  ⟨(roundsToSteps_iff (by decide) (by decide)).mpr (by unfold NextFits; decide), by decide,
    by decide⟩

/-- The whole number nearest to the largest decimal is none. -/
theorem largest_wraps : roundToNearest Int64.maxValue scale < 0 ∧
    ¬ RoundsToSteps Int64.maxValue scale := by
  have hm : IsNearest Int64.maxValue.toInt scale.toInt 9223372036900000000 :=
    isNearest_natCast 9223372036854775807 (t := 100000000) (by decide)
  exact ⟨by decide, fun h => h.whole _ hm ⟨by decide, by decide⟩⟩

end SuperAgent.Fixed
