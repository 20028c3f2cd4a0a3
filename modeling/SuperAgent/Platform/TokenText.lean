import SuperAgent.Fixed.Exact
import SuperAgent.Fixed.Printing
import SuperAgent.Platform.Prize

/-!
# Amounts of the token as text

The chain and the indexer write amounts of the token as whole numbers of its
smallest unit, of which a million make one. They are shown as decimals, which pass
through the fixed point; an amount that does not fit there is shown as it came.
-/

namespace SuperAgent.Platform

open Fixed (D Numeral numeralOf exp maxInt64 parse)

variable {n : ℕ}

/-- Units of the token as a decimal, or as they are when they cannot be read. -/
def tokenDecimal (units : String) : Option String :=
  match parse units with
  | .error _ => some units
  | .ok d => (Fixed.div d (Fixed.fromInt 1000000)).map Fixed.string

/-- Units of the token as a fixed-point amount, of which a word keeps the lower bits. -/
def micros (v : Int) : D := Int64.ofInt (v * (Fixed.scale.toInt / 1000000))

/-- A number of units as a decimal, however many they are. -/
def amountText (n : ℕ) : String := (numeralOf false (100 * n)).text

/-- It is written with nothing that could be left out, and a millionth for every unit. -/
theorem amountText_spec (n : ℕ) : (numeralOf false (100 * n)).Canonical ∧
    (numeralOf false (100 * n)).value = (n : ℚ) / 10 ^ 6 := by
  refine ⟨Fixed.canonical_numeralOf Bool.false_ne_true.elim, ?_⟩
  rw [Fixed.value_numeralOf, Fixed.signed, if_neg Bool.false_ne_true, exp]
  push_cast
  ring

/-! ## Whole numbers as they are written -/

/-- A whole number has no places. -/
theorem frac_whole (n : ℕ) : (numeralOf false (n * 10 ^ exp)).frac = [] :=
  (Fixed.trimZeros_places_eq_nil _).mpr (Nat.mul_mod_left n _)

theorem whole_whole (n : ℕ) : (numeralOf false (n * 10 ^ exp)).whole = Nat.toDigits 10 n := by
  change Nat.toDigits 10 (n * 10 ^ exp / 10 ^ exp) = _
  rw [Nat.mul_div_cancel _ (by decide)]

theorem toString_eq_text (n : ℕ) : toString n = (numeralOf false (n * 10 ^ exp)).text := by
  rw [← String.toList_inj, Numeral.text, String.toList_ofList, if_pos (frac_whole n), frac_whole,
    whole_whole, List.append_nil, List.append_nil]
  exact Nat.toList_repr

/-- A whole number is read when it fits in the fixed point. -/
theorem parse_toString_eq_ok {d : D} : parse (toString n) = .ok d ↔
    n * 10 ^ exp ≤ maxInt64 ∧ d = Int64.ofNat (n * 10 ^ exp) := by
  have htext := toString_eq_text n
  have hdigits : ∀ c ∈ Nat.toDigits 10 n, c.isDigit := fun c hc => Fixed.isDigit_of_mem_toDigits hc
  have hlist : (toString n).toList = Nat.toDigits 10 n := Nat.toList_repr
  have htrim : trimSpace (toString n) = toString n := htext ▸ Numeral.trimSpace_text _
  have hbefore : Fixed.before (Nat.toDigits 10 n) = Nat.toDigits 10 n :=
    List.takeWhile_eq_self_iff.mpr fun c hc => Fixed.ne_point_of_digit (hdigits c hc)
  have hafter : Fixed.after (Nat.toDigits 10 n) = [] := by
    have hdrop : (Nat.toDigits 10 n).dropWhile (fun c => decide (c ≠ '.')) = [] :=
      List.dropWhile_eq_nil_iff.mpr fun c hc => Fixed.ne_point_of_digit (hdigits c hc)
    rw [Fixed.after, hdrop]
    rfl
  have hown := Fixed.not_own_of_digits hdigits
  have hunits : Fixed.units (Nat.toDigits 10 n) [] = n * 10 ^ exp := by
    have hvalue : Nat.ofDigitChars 10 (Nat.toDigits 10 n) 0 = n := Nat.ofDigitChars_ten_toDigits
    rw [Fixed.units, Fixed.splitSign_of_not_own hown, Fixed.digitsValue, hvalue]
    exact (congrArg _ (Nat.zero_mul _)).trans (Nat.add_zero _)
  rw [Fixed.parse_eq_ok, htrim, hlist, Fixed.splitSign_digits hdigits]
  constructor
  · intro h
    have hfits := h.fits
    have hvalue := h.value
    rw [hbefore, hafter, hunits] at hfits hvalue
    exact ⟨hfits, hvalue.trans Int64.ofInt_eq_ofNat⟩
  · rintro ⟨hfits, rfl⟩
    refine ⟨fun h => ?_, ?_, ?_, ?_, ?_, ?_⟩
    · rw [hbefore] at h
      exact Nat.toDigits_ne_nil h.1
    · rw [hbefore]
      exact (Fixed.readable_iff_digits hown).mpr hdigits
    · exact .inl hafter
    · rw [hafter]
      exact Nat.zero_le _
    · rwa [hbefore, hafter, hunits]
    · rw [hbefore, hafter, hunits]
      exact Int64.ofInt_eq_ofNat.symm

/-! ## What is shown -/

/-- So many units fit in the fixed point. -/
theorem fits_iff : n * 10 ^ exp ≤ maxInt64 ↔ n ≤ 92233720368 := by
  rw [exp, maxInt64]
  omega

/-- Units that fit are shown as their decimal. -/
theorem tokenDecimal_of_fits (h : n ≤ 92233720368) :
    tokenDecimal (toString n) = some (amountText n) := by
  have hread : parse (toString n) = .ok (Int64.ofNat (n * 10 ^ exp)) :=
    parse_toString_eq_ok.mpr ⟨fits_iff.mpr h, rfl⟩
  have hwhole : n * 10 ^ exp < 2 ^ 63 := by
    rw [exp]
    omega
  have hexact : roundDiv (n * 10 ^ exp * 10 ^ 8) (1000000 * 10 ^ 8) = 100 * n := by
    have hscaled : n * 10 ^ exp * 10 ^ 8 = 100 * n * (1000000 * 10 ^ 8) := by
      rw [exp]
      ring
    rw [hscaled, roundDiv_mul_left _ (by decide)]
  have hsmall : 100 * n < 2 ^ 63 := by omega
  have hdiv : Fixed.div (Int64.ofNat (n * 10 ^ exp)) (Fixed.fromInt 1000000) =
      some (Int64.ofNat (100 * n)) := by
    have hscale : Fixed.scale = Int64.ofNat (10 ^ 8) := rfl
    have hmillion : Fixed.fromInt 1000000 = Int64.ofNat (1000000 * 10 ^ 8) :=
      Fixed.fromInt_ofNat 1000000
    rw [Fixed.div, hscale, hmillion, Fixed.mulDiv_ofNat_of_lt hwhole (by decide) (by decide)
      (by decide) (hexact ▸ hsmall), hexact]
  have hint : (Int64.ofNat (100 * n)).toInt = (100 * n : ℕ) := Int64.toInt_ofNat_of_lt hsmall
  have hmin : Int64.ofNat (100 * n) ≠ Int64.minValue := by
    intro heq
    have hsign : ((100 * n : ℕ) : ℤ) = -2 ^ 63 := hint.symm.trans (congrArg Int64.toInt heq)
    omega
  rw [tokenDecimal, hread]
  dsimp only
  rw [hdiv, Option.map_some, Fixed.string_eq hmin, hint, decide_eq_false (Fixed.not_neg_ofNat hsmall)]
  rfl

/-- Units that do not fit are shown as they came. -/
theorem tokenDecimal_of_not_fits (h : 92233720368 < n) :
    tokenDecimal (toString n) = some (toString n) := by
  rw [tokenDecimal]
  cases hread : parse (toString n) with
  | error e => rfl
  | ok d =>
    have hfits := fits_iff.mp (parse_toString_eq_ok.mp hread).1
    exact absurd hfits (not_le.mpr h)

/-- Units are not their own decimal, unless there are none. -/
theorem amountText_ne (hpos : 0 < n) : toString n ≠ amountText n := by
  intro heq
  rw [toString_eq_text, amountText] at heq
  have hlists := congrArg String.toList heq
  have hreadings := (Numeral.writtenAs_iff.mp (Numeral.writtenAs_text (numeralOf false (n * 10 ^ exp))))
  have hreadings' := (Numeral.writtenAs_iff.mp (Numeral.writtenAs_text (numeralOf false (100 * n))))
  rw [hlists] at hreadings
  have hwhole := hreadings.2.1.trans hreadings'.2.1.symm
  have hdigits : Nat.toDigits 10 n = Nat.toDigits 10 (100 * n / 10 ^ exp) :=
    (whole_whole n).symm.trans hwhole
  have hvalue := congrArg (Nat.ofDigitChars 10 · 0) hdigits
  simp only [Nat.ofDigitChars_ten_toDigits, exp] at hvalue
  omega

/-- An amount in token units that came from a decimal with six places is that decimal again. -/
theorem micros_collateralMicros {d : D} (hd : (100 : ℤ) ∣ d.toInt) :
    micros (collateralMicros d) = d := by
  have hscale : Fixed.scale.toInt / 1000000 = 100 := by decide
  rw [micros, collateralMicros, hscale, Int.ediv_mul_cancel hd, Int64.ofInt_toInt]

/-- A number of units is shown as its decimal exactly where the fixed point holds it, and a decimal
of six places or less is the same after it was turned into units and back. -/
theorem token_text_iff (n : ℕ) :
    (tokenDecimal (toString n) = some (amountText n) ↔ n ≤ 92233720368) ∧
      ∀ d : D, 0 ≤ d → (100 : ℤ) ∣ d.toInt → micros (collateralMicros d) = d := by
  refine ⟨⟨fun h => ?_, tokenDecimal_of_fits⟩, fun d _ hd => micros_collateralMicros hd⟩
  by_contra hbig
  rw [tokenDecimal_of_not_fits (not_le.mp hbig)] at h
  exact amountText_ne (by omega) (Option.some.inj h)

/-- A million and a half units, and one and a half of what they make up. -/
theorem token_text_half : tokenDecimal (toString 1500000) = some (amountText 1500000) ∧
    micros (collateralMicros 150000000) = 150000000 :=
  ⟨(token_text_iff 1500000).1.mpr (by decide), (token_text_iff 0).2 150000000 (by decide) (by decide)⟩

/-- One unit more than the fixed point holds is shown as a million times what it is. -/
theorem token_text_raw : tokenDecimal "92233720368" = some "92233.720368" ∧
    tokenDecimal "92233720369" = some "92233720369" ∧ amountText 92233720369 = "92233.720369" := by
  decide +kernel

end SuperAgent.Platform
