import SuperAgent.Fixed.Exact
import SuperAgent.Fixed.Scaled

/-!
# Integers of the wire and back

An integer with a number of decimal places becomes a decimal, and a decimal such
an integer, by multiplying with or dividing by a power of ten. Both ways give the
exact value rounded half away from zero, or an error where that does not fit, so
that what a decimal can carry comes back unchanged.
-/

namespace SuperAgent.Fixed

/-- A result is the exact number rounded half away from zero, or an error because the number is
beyond the largest word. -/
def Rescales (r : Except Error Int64) (x : ℚ) : Prop :=
  match r with
  | .ok w => w.toInt = roundAway x ∧ |x| ≤ maxInt64
  | .error _ => (maxInt64 : ℚ) < |x|

/-- A conversion between words is faithful: it gives the rounded exact number, fails only where
the number of decimal places is none of the powers of ten or the exact number does not fit, and
keeps the order. -/
structure Faithful (convert : Int64 → ℤ → Except Error Int64) (exact : Int64 → ℤ → ℚ) : Prop where
  rounds : ∀ v k w, convert v k = .ok w → w.toInt = roundAway (exact v k)
  fails_iff : ∀ v k, (∃ e, convert v k = .error e) ↔
    k < 0 ∨ pow10s ≤ k ∨ (maxInt64 : ℚ) < |exact v k|
  monotone : ∀ v w k a b, v ≤ w → convert v k = .ok a → convert w k = .ok b → a ≤ b

/-- The integer of the wire in units of a decimal's last place. -/
def exactFrom (v : Int64) (k : ℤ) : ℚ := v.toInt * 10 ^ exp / 10 ^ k.toNat

/-- The decimal in units of the wire. -/
def exactTo (d : D) (k : ℤ) : ℚ := d.toInt * 10 ^ k.toNat / 10 ^ exp

variable {v : Int64} {n : ℕ} {x : ℚ}

/-! ## The two branches -/

/-- A word multiplied, by its magnitude. -/
theorem rescales_multiplied (e : Error) (hx : x = v.toInt * 10 ^ n) :
    Rescales (if maxInt64 < v.toInt.natAbs * 10 ^ n then .error e
      else .ok (if v < 0 then -Int64.ofNat (v.toInt.natAbs * 10 ^ n)
        else Int64.ofNat (v.toInt.natAbs * 10 ^ n))) x := by
  have habs : |x| = ((v.toInt.natAbs * 10 ^ n : ℕ) : ℚ) := by
    rw [hx, abs_mul, abs_of_pos (by positivity : (0 : ℚ) < 10 ^ n), Nat.cast_mul, Nat.cast_pow,
      Nat.cast_natAbs, Int.cast_abs]
    rfl
  have hround : roundAway x = v.toInt * 10 ^ n := by
    have hint : x = ((v.toInt * 10 ^ n : ℤ) : ℚ) := by
      rw [hx]
      push_cast
      rfl
    rw [hint, roundAway_intCast]
  have hmax : maxInt64 = 2 ^ 63 - 1 := rfl
  split
  · next hbig =>
    change (maxInt64 : ℚ) < |x|
    rw [habs]
    exact_mod_cast hbig
  · next hfits =>
    rw [not_lt] at hfits
    refine ⟨?_, ?_⟩
    · have hint := toInt_eq_natAbs v
      rw [hround]
      generalize v.toInt.natAbs = m at hfits hint
      rw [hint]
      split
      · rw [Int64.toInt_neg_ofNat_of_le (by omega), neg_mul, Nat.cast_mul, Nat.cast_pow]
        rfl
      · rw [Int64.toInt_ofNat_of_lt (by omega), Nat.cast_mul, Nat.cast_pow]
        rfl
    · rw [habs]
      exact_mod_cast hfits

/-- A word divided by a power of ten. -/
theorem rescales_divided (hn : 0 < n) (hx : x = v.toInt / 10 ^ n) :
    Rescales (.ok (Int64.ofInt (if (10 : ℤ) ^ n ≤ (v.toInt.tmod (10 ^ n)).natAbs * 2 then
      v.toInt.tdiv (10 ^ n) + if v < 0 then -1 else 1
      else v.toInt.tdiv (10 ^ n)))) x := by
  have hten : 10 ≤ 10 ^ n := Nat.le_self_pow (by omega) 10
  have hlow := v.le_toInt
  have hhigh := v.toInt_lt
  have hneg : v < 0 ↔ v.toInt < 0 := Int64.lt_iff_toInt_lt
  have hpow : ((10 ^ n : ℕ) : ℤ) = 10 ^ n := by push_cast; rfl
  have hquot : (v.toInt.tdiv (10 ^ n)).natAbs ≤ v.toInt.natAbs / 10 := by
    rw [← hpow, Int.natAbs_tdiv, Int.natAbs_natCast]
    exact Nat.div_le_div_left hten (by decide)
  have hround : roundAway x = if (10 : ℤ) ^ n ≤ (v.toInt.tmod (10 ^ n)).natAbs * 2 then
      v.toInt.tdiv (10 ^ n) + if v < 0 then -1 else 1
      else v.toInt.tdiv (10 ^ n) := by
    have hcast : x = (v.toInt : ℚ) / (10 ^ n : ℕ) := by
      rw [hx, Nat.cast_pow]
      rfl
    rw [hcast, roundAway_intCast_div _ (Nat.pow_pos (by decide)), hpow]
    simp only [hneg, ← hpow]
    norm_cast
  refine ⟨?_, ?_⟩
  · have haway : (if v < 0 then (-1 : ℤ) else 1) = -1 ∨ (if v < 0 then (-1 : ℤ) else 1) = 1 := by
      split
      · exact .inl rfl
      · exact .inr rfl
    have hfits : -2 ^ 63 ≤ roundAway x ∧ roundAway x < 2 ^ 63 := by
      rw [hround]
      generalize (if v < 0 then (-1 : ℤ) else 1) = away at haway
      split <;> omega
    rw [← hround, Int64.toInt_ofInt_of_le hfits.1 hfits.2]
  · have hpow : (10 : ℚ) ≤ 10 ^ n := by exact_mod_cast hten
    have habs : |(v.toInt : ℚ)| ≤ 2 ^ 63 := by
      have hle : |v.toInt| ≤ 2 ^ 63 := abs_le.mpr ⟨hlow, hhigh.le⟩
      exact_mod_cast hle
    have hmax : (maxInt64 : ℚ) = 2 ^ 63 - 1 := by
      rw [maxInt64]
      norm_num
    rw [hx, abs_div, abs_of_pos (by positivity : (0 : ℚ) < 10 ^ n), div_le_iff₀ (by positivity),
      hmax]
    linarith

/-! ## Both conversions -/

variable {k : ℤ}

theorem rescales_fromScaled (v : Int64) (hlow : ¬ k < 0) (hhigh : ¬ (pow10s : ℤ) ≤ k) :
    Rescales (fromScaled v k) (exactFrom v k) := by
  obtain ⟨j, rfl⟩ := Int.eq_ofNat_of_zero_le (not_lt.mp hlow)
  rw [fromScaled, if_neg (not_or.mpr ⟨hlow, hhigh⟩), exactFrom]
  dsimp only
  rw [Int.toNat_natCast]
  by_cases hexp : (j : ℤ) ≤ exp
  · rw [if_pos hexp]
    refine rescales_multiplied _ ?_
    have hpow : (10 : ℚ) ^ exp = 10 ^ (exp - j) * 10 ^ j := by
      rw [← pow_add, Nat.sub_add_cancel (by omega)]
    rw [hpow, ← mul_assoc, mul_div_cancel_right₀ _ (by positivity)]
  · rw [if_neg hexp]
    have hpow : (10 : ℚ) ^ j = 10 ^ exp * 10 ^ (j - exp) := by
      rw [← pow_add, Nat.add_sub_cancel' (by omega)]
    refine rescales_divided (by omega) ?_
    rw [hpow, mul_comm (v.toInt : ℚ), mul_div_mul_left _ _ (by positivity)]

theorem rescales_toScaled (d : D) (hlow : ¬ k < 0) (hhigh : ¬ (pow10s : ℤ) ≤ k) :
    Rescales (toScaled d k) (exactTo d k) := by
  obtain ⟨j, rfl⟩ := Int.eq_ofNat_of_zero_le (not_lt.mp hlow)
  rw [toScaled, if_neg (not_or.mpr ⟨hlow, hhigh⟩), exactTo]
  dsimp only
  rw [Int.toNat_natCast]
  by_cases hexp : (exp : ℤ) ≤ j
  · rw [if_pos hexp]
    have hsign : ∀ w : Int64, sign d * w = if d < 0 then -w else w := by
      intro w
      rw [sign]
      split
      · rw [← Int64.neg_eq_neg_one_mul]
      · rw [Int64.one_mul]
    rw [hsign]
    refine rescales_multiplied _ ?_
    have hpow : (10 : ℚ) ^ j = 10 ^ (j - exp) * 10 ^ exp := by
      rw [← pow_add, Nat.sub_add_cancel (by omega)]
    rw [hpow, ← mul_assoc, mul_div_cancel_right₀ _ (by positivity)]
  · rw [if_neg hexp]
    have hsign : (sign d).toInt = if d < 0 then -1 else 1 := by
      rw [sign]
      split <;> rfl
    have hpow : (10 : ℚ) ^ exp = 10 ^ j * 10 ^ (exp - j) := by
      rw [← pow_add, Nat.add_sub_cancel' (by omega)]
    rw [hsign]
    refine rescales_divided (by omega) ?_
    rw [hpow, mul_comm (d.toInt : ℚ), mul_div_mul_left _ _ (by positivity)]

/-- A conversion that refuses the other numbers of places, and gives the rounded exact number for
these, is faithful when the exact number keeps the order. -/
theorem faithful_of_rescales {convert : Int64 → ℤ → Except Error Int64}
    {exact : Int64 → ℤ → ℚ}
    (hrange : ∀ v k, k < 0 ∨ (pow10s : ℤ) ≤ k → ∃ e, convert v k = .error e)
    (hrescales : ∀ v k, ¬ k < 0 → ¬ (pow10s : ℤ) ≤ k → Rescales (convert v k) (exact v k))
    (hmono : ∀ v w k, v ≤ w → exact v k ≤ exact w k) : Faithful convert exact := by
  have hin : ∀ v k w, convert v k = .ok w → Rescales (.ok w) (exact v k) := by
    intro v k w h
    have hplaces : ¬ (k < 0 ∨ (pow10s : ℤ) ≤ k) := by
      intro hout
      obtain ⟨e, he⟩ := hrange v k hout
      rw [h] at he
      cases he
    rw [not_or] at hplaces
    rw [← h]
    exact hrescales v k hplaces.1 hplaces.2
  refine ⟨fun v k w h => (hin v k w h).1, fun v k => ?_, fun v w k a b hle ha hb => ?_⟩
  · by_cases hplaces : k < 0 ∨ (pow10s : ℤ) ≤ k
    · exact iff_of_true (hrange v k hplaces) (or_assoc.mp (.inl hplaces))
    · rw [← or_assoc, or_iff_right hplaces]
      rw [not_or] at hplaces
      have hr := hrescales v k hplaces.1 hplaces.2
      cases hconvert : convert v k with
      | error e =>
        rw [hconvert] at hr
        exact iff_of_true ⟨e, rfl⟩ hr
      | ok w =>
        rw [hconvert] at hr
        exact iff_of_false (fun ⟨_, h⟩ => nomatch h) (not_lt.mpr hr.2)
  · rw [Int64.le_iff_toInt_le, (hin v k a ha).1, (hin w k b hb).1]
    exact roundAway_mono (hmono v w k hle)

/-- An integer of the wire fits a decimal: there is such a number of places, and the exact number is
no larger than the largest word. -/
def Scales (v : Int64) (k : ℤ) : Prop := 0 ≤ k ∧ k < pow10s ∧ |exactFrom v k| ≤ maxInt64

instance (v : Int64) (k : ℤ) : Decidable (Scales v k) := inferInstanceAs (Decidable (_ ∧ _ ∧ _))

/-- The rounded decimal of an integer of the wire that fits. -/
def rescaled (v : Int64) (k : ℤ) : Option D :=
  if Scales v k then some (Int64.ofInt (roundAway (exactFrom v k))) else none

/-- The conversion from the wire gives what fits and nothing else. -/
theorem toOption_fromScaled (v : Int64) (k : ℤ) : (fromScaled v k).toOption = rescaled v k := by
  by_cases hplaces : k < 0 ∨ (pow10s : ℤ) ≤ k
  · have hunfit : ¬ Scales v k := fun ⟨hlow, hhigh, _⟩ => by omega
    rw [fromScaled, if_pos hplaces, rescaled, if_neg hunfit]
    rfl
  · rw [not_or] at hplaces
    have hr := rescales_fromScaled v hplaces.1 hplaces.2
    cases hv : fromScaled v k with
    | error e =>
      rw [hv] at hr
      have hunfit : ¬ Scales v k := fun hfits => absurd hfits.2.2 (not_le.mpr hr)
      rw [rescaled, if_neg hunfit]
      rfl
    | ok w =>
      rw [hv] at hr
      obtain ⟨hround, hfits⟩ := hr
      rw [rescaled, if_pos ⟨not_lt.mp hplaces.1, not_le.mp hplaces.2, hfits⟩, ← hround,
        Int64.ofInt_toInt]
      rfl

/-- The decimal of an integer with no more places than it carries is exact. -/
theorem toInt_of_fromScaled {v : Int64} {d : D} (hexp : k ≤ exp)
    (h : fromScaled v k = .ok d) : 0 ≤ k ∧ exactTo d k = v.toInt ∧ |(v.toInt : ℚ)| ≤ maxInt64 := by
  have hplaces : ¬ (k < 0 ∨ (pow10s : ℤ) ≤ k) := by
    intro hout
    rw [fromScaled, if_pos hout] at h
    cases h
  rw [not_or] at hplaces
  have hr := rescales_fromScaled v hplaces.1 hplaces.2
  rw [h] at hr
  obtain ⟨hround, hfits⟩ := hr
  obtain ⟨j, rfl⟩ := Int.eq_ofNat_of_zero_le (not_lt.mp hplaces.1)
  have hpow : (10 : ℚ) ^ exp = 10 ^ (exp - j) * 10 ^ j := by
    rw [← pow_add, Nat.sub_add_cancel (by omega)]
  have hexact : exactFrom v j = ((v.toInt * 10 ^ (exp - j) : ℤ) : ℚ) := by
    rw [exactFrom, Int.toNat_natCast, hpow, ← mul_assoc, mul_div_cancel_right₀ _ (by positivity)]
    push_cast
    rfl
  rw [hexact, roundAway_intCast] at hround
  refine ⟨Int.natCast_nonneg j, ?_, ?_⟩
  · rw [exactTo, hround, Int.toNat_natCast, hpow]
    push_cast
    rw [mul_assoc, mul_div_cancel_right₀ _ (by positivity)]
  · have hone : (1 : ℚ) ≤ 10 ^ (exp - j) := one_le_pow₀ (by norm_num)
    rw [hexact] at hfits
    push_cast at hfits
    rw [abs_mul, abs_of_pos (by positivity : (0 : ℚ) < 10 ^ (exp - j))] at hfits
    exact (le_mul_of_one_le_right (abs_nonneg _) hone).trans hfits

/-- The conversions are faithful both ways, and an integer with no more places than a decimal
carries comes back from it. -/
theorem scaled_pair : Faithful fromScaled exactFrom ∧ Faithful toScaled exactTo ∧
    ∀ (v : Int64) (k : ℤ) (d : D), k ≤ exp → fromScaled v k = .ok d → toScaled d k = .ok v := by
  have hcast : ∀ v w : Int64, v ≤ w → (v.toInt : ℚ) ≤ w.toInt := fun v w h => by
    exact_mod_cast Int64.le_iff_toInt_le.mp h
  refine ⟨?_, ?_, ?_⟩
  · refine faithful_of_rescales ?_ (fun v k => rescales_fromScaled v) fun v w k hle => ?_
    · intro v k hout
      exact ⟨_, by rw [fromScaled, if_pos hout]⟩
    · rw [exactFrom, exactFrom]
      have := hcast v w hle
      gcongr
  · refine faithful_of_rescales ?_ (fun d k => rescales_toScaled d) fun v w k hle => ?_
    · intro d k hout
      exact ⟨_, by rw [toScaled, if_pos hout]⟩
    · rw [exactTo, exactTo]
      have := hcast v w hle
      gcongr
  · intro v k d hexp h
    obtain ⟨hnonneg, hexact, hfits⟩ := toInt_of_fromScaled hexp h
    have hhigh : ¬ (pow10s : ℤ) ≤ k := by
      have hpow10s : (pow10s : ℤ) = 19 := rfl
      have height : (exp : ℤ) = 8 := rfl
      omega
    have hr := rescales_toScaled d (not_lt.mpr hnonneg) hhigh
    rw [hexact] at hr
    cases hto : toScaled d k with
    | error e =>
      rw [hto] at hr
      exact absurd hfits (not_le.mpr hr)
    | ok w =>
      rw [hto] at hr
      have hround := hr.1
      rw [roundAway_intCast, Int64.toInt_inj] at hround
      rw [hround]

/-- A price with one decimal place comes back. -/
theorem scaled_pair_price : toScaled (784131 * scale / 10) 1 = .ok 784131 :=
  scaled_pair.2.2 784131 1 (784131 * scale / 10) (by decide) (by decide)

end SuperAgent.Fixed
