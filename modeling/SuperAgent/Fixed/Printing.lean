import Mathlib.Data.List.DropRight
import SuperAgent.Fixed.Grammar

/-!
# How decimals are printed

A decimal is printed as its digits without a zero, a point or a sign that says
nothing, and what is printed is read back as it was. Only the smallest word,
which has no magnitude, is printed as no number.
-/

namespace SuperAgent.Fixed

namespace Numeral

/-- Nothing is written that could be left out. -/
structure Canonical (m : Numeral) : Prop where
  whole : m.whole ≠ []
  leading : m.whole.head? = some '0' → m.whole = ['0']
  trailing : m.frac.getLast? ≠ some '0'
  sign : m.neg = true → m.value ≠ 0

/-- The number with no sign or point but the ones it needs. -/
def text (m : Numeral) : String :=
  String.ofList ((if m.neg then ['-'] else []) ++
    (m.whole ++ ((if m.frac = [] then [] else ['.']) ++ m.frac)))

/-- That is one of the ways to write it. -/
theorem writtenAs_text (m : Numeral) : m.WrittenAs m.text.toList := by
  refine ⟨if m.neg then ['-'] else [], ?_, if m.frac = [] then [] else ['.'], ?_, ?_⟩
  · rw [signs]
    split <;> exact List.mem_cons_self
  · rw [points]
    split <;> exact List.mem_cons_self
  · exact String.toList_ofList

/-- It has no white space. -/
theorem trimSpace_text (m : Numeral) : trimSpace m.text = m.text := by
  apply trimSpace_eq_self
  intro c hc
  rw [text, String.toList_ofList] at hc
  simp only [List.mem_append] at hc
  rcases hc with hc | hc | hc | hc
  · split at hc
    · rw [List.mem_singleton.mp hc]
      decide
    · cases hc
  · exact not_space_of_digit (m.digits_whole c hc)
  · split at hc
    · cases hc
    · rw [List.mem_singleton.mp hc]
      decide
  · exact not_space_of_digit (m.digits_frac c hc)

/-- What is written is read back. -/
theorem parse_text {m : Numeral} {d : D} (hvalue : Fixed.value d = m.value)
    (hfits : |m.value| ≤ Fixed.value (Int64.ofNat maxInt64)) : parse m.text = .ok d := by
  refine m.parse_of_written ?_ hfits hvalue
  rw [m.trimSpace_text]
  exact m.writtenAs_text

end Numeral

/-! ## The digits of a decimal -/

/-- Digits without the zeros at their end. -/
def trimZeros (ds : List Char) : List Char := ds.rdropWhile (· = '0')

theorem getLast?_trimZeros (ds : List Char) : (trimZeros ds).getLast? ≠ some '0' := by
  induction ds using List.reverseRecOn with
  | nil => nofun
  | append_singleton ds c ih =>
    rw [trimZeros, List.rdropWhile_concat]
    split
    · exact ih
    · next hc =>
      rw [List.getLast?_concat]
      exact fun h => hc (decide_eq_true (Option.some.inj h))

theorem length_trimZeros_le (ds : List Char) : (trimZeros ds).length ≤ ds.length :=
  (List.rdropWhile_prefix _ _).length_le

theorem digitsValue_concat (ds : List Char) (c : Char) :
    digitsValue (ds ++ [c]) = 10 * digitsValue ds + (c.toNat - '0'.toNat) := by
  rw [digitsValue, Nat.ofDigitChars_append, Nat.ofDigitChars_cons, Nat.ofDigitChars_nil]
  rfl

/-- The zeros at the end count for their places only. -/
theorem digitsValue_trimZeros (ds : List Char) :
    digitsValue ds = digitsValue (trimZeros ds) * 10 ^ (ds.length - (trimZeros ds).length) := by
  induction ds using List.reverseRecOn with
  | nil => rfl
  | append_singleton ds c ih =>
    have hle := length_trimZeros_le ds
    rw [trimZeros, List.rdropWhile_concat]
    split
    · next hc =>
      obtain rfl : c = '0' := of_decide_eq_true hc
      rw [← trimZeros, digitsValue_concat, Nat.sub_self, Nat.add_zero, List.length_append,
        List.length_singleton, Nat.sub_add_comm hle, Nat.pow_succ, ← Nat.mul_assoc, ← ih,
        Nat.mul_comm]
    · rw [Nat.sub_self, Nat.pow_zero, Nat.mul_one]

/-- The first digit of a number is zero only if the number is. -/
theorem leading_toDigits (n : ℕ) (h : (Nat.toDigits 10 n).head? = some '0') :
    Nat.toDigits 10 n = ['0'] := by
  induction n using Nat.strong_induction_on with
  | _ n ih =>
    rw [Nat.toDigits_eq_if (by decide)] at h ⊢
    split
    · next hsmall =>
      rw [if_pos hsmall] at h
      rw [Option.some.inj h]
    · next hbig =>
      rw [if_neg hbig, List.head?_append_of_ne_nil _ Nat.toDigits_ne_nil] at h
      have hzero := ih (n / 10) (by omega) h
      have hvalue : n / 10 = 0 := by
        rw [← Nat.ofDigitChars_ten_toDigits (n := n / 10), hzero]
        rfl
      omega

/-- The places of a decimal without the zeros at their end. -/
theorem trimZeros_places_eq_nil (n : ℕ) : trimZeros (places n) = [] ↔ n % 10 ^ exp = 0 := by
  obtain ⟨-, -, hvalue⟩ := places_spec n
  constructor
  · intro h
    have htrim := digitsValue_trimZeros (places n)
    rw [h, digitsValue, hvalue] at htrim
    rw [htrim]
    exact Nat.zero_mul _
  · intro h
    rw [places, h]
    decide

/-- The digits of a magnitude. -/
def numeralOf (neg : Bool) (n : ℕ) : Numeral where
  neg := neg
  whole := Nat.toDigits 10 (n / 10 ^ exp)
  frac := trimZeros (places n)
  digits := by
    intro c hc
    rcases List.mem_append.mp hc with hc | hc
    · exact isDigit_of_mem_toDigits hc
    · exact (places_spec n).2.1 c ((List.rdropWhile_prefix _ _).mem hc)
  nonempty := fun h => Nat.toDigits_ne_nil (List.append_eq_nil_iff.mp h).1
  short := (length_trimZeros_le _).trans (places_spec n).1.le

/-- They have its value. -/
theorem value_numeralOf (neg : Bool) (n : ℕ) :
    (numeralOf neg n).value = signed neg ((n : ℚ) / 10 ^ exp) := by
  obtain ⟨hlength, -, hvalue⟩ := places_spec n
  have hfrac : digitsValue (trimZeros (places n)) * 10 ^ (exp - (trimZeros (places n)).length) =
      n % 10 ^ exp := by
    rw [← hvalue, ← hlength]
    exact (digitsValue_trimZeros _).symm
  have hwhole : digitsValue (Nat.toDigits 10 (n / 10 ^ exp)) = n / 10 ^ exp :=
    Nat.ofDigitChars_ten_toDigits
  have hunits : units (numeralOf neg n).whole (numeralOf neg n).frac = n := by
    rw [units, splitSign_of_not_own (Numeral.not_own_whole _),
      splitSign_of_not_own (Numeral.not_own_frac _)]
    change digitsValue (Nat.toDigits 10 (n / 10 ^ exp)) * 10 ^ exp +
      digitsValue (trimZeros (places n)) * 10 ^ (exp - (trimZeros (places n)).length) = n
    rw [hfrac, hwhole, Nat.div_add_mod']
  rw [Numeral.value_eq, hunits]
  rfl

/-- They are written without anything that could be left out. -/
theorem canonical_numeralOf {neg : Bool} {n : ℕ} (h : neg = true → n ≠ 0) :
    (numeralOf neg n).Canonical where
  whole := Nat.toDigits_ne_nil
  leading := leading_toDigits _
  trailing := getLast?_trimZeros _
  sign := by
    intro hneg
    have hpos : (n : ℚ) / 10 ^ exp ≠ 0 :=
      div_ne_zero (Nat.cast_ne_zero.mpr (h hneg)) (by positivity)
    rw [value_numeralOf]
    change neg = true at hneg
    rw [hneg]
    exact neg_ne_zero.mpr hpos

/-! ## What is printed -/

variable {d : D}

theorem formatInt_ofNat {n : ℕ} (hn : n < 2 ^ 63) :
    (formatInt (Int64.ofNat n)).toList = Nat.toDigits 10 n := by
  rw [formatInt, Int64.toInt_ofNat_of_lt hn]
  exact Nat.toList_repr

/-- A word is written as its sign and the digits of its magnitude. -/
theorem toList_formatInt (v : Int64) : (formatInt v).toList =
    (if v.toInt < 0 then ['-'] else []) ++ Nat.toDigits 10 v.toInt.natAbs := by
  rw [formatInt]
  cases hv : v.toInt with
  | ofNat n =>
    have hpos : ¬ Int.ofNat n < 0 := Int.not_lt.mpr (Int.natCast_nonneg n)
    rw [if_neg hpos, List.nil_append]
    exact Nat.toList_repr
  | negSucc n =>
    rw [if_pos (Int.negSucc_lt_zero n)]
    change ("-" ++ Nat.repr (n + 1)).toList = _
    rw [String.toList_append, Nat.toList_repr]
    rfl

/-- Digits are no signs. -/
theorem splitSign_digits {ds : List Char} (hd : ∀ c ∈ ds, c.isDigit) :
    splitSign ds = (false, ds) := by
  cases ds with
  | nil => rfl
  | cons c cs =>
    have hdigit : c.isDigit := hd c List.mem_cons_self
    refine splitSign_of_ne cs ?_ ?_ <;> rintro rfl <;> cases hdigit

/-- A word is read back from its digits. -/
theorem parseInt_formatInt (v : Int64) : parseInt (formatInt v) = .ok v := by
  have hlow := v.le_toInt
  have hhigh := v.toInt_lt
  have hdigits : ∀ c ∈ Nat.toDigits 10 v.toInt.natAbs, c.isDigit := fun c hc =>
    Nat.isDigit_of_mem_toDigits (b := 10) (by decide) le_rfl hc
  have hne : Nat.toDigits 10 v.toInt.natAbs ≠ [] := Nat.toDigits_ne_nil
  have hvalue : Nat.ofDigitChars 10 (Nat.toDigits 10 v.toInt.natAbs) 0 = v.toInt.natAbs :=
    Nat.ofDigitChars_toDigits (by decide) (by decide)
  rw [← String.ofList_toList (s := formatInt v), parseInt_eq_ok, toList_formatInt]
  by_cases hneg : v.toInt < 0
  · have hsign : splitSign ((if v.toInt < 0 then ['-'] else []) ++
        Nat.toDigits 10 v.toInt.natAbs) = (true, Nat.toDigits 10 v.toInt.natAbs) := by
      rw [if_pos hneg]
      rfl
    rw [hsign]
    refine ⟨⟨hne, hdigits⟩, by rw [hvalue, Bool.toNat_true]; omega, ?_⟩
    rw [if_pos rfl, hvalue, ← Int64.toInt_inj, Int64.toInt_ofInt_of_le (by omega) (by omega)]
    omega
  · have hsign : splitSign ((if v.toInt < 0 then ['-'] else []) ++
        Nat.toDigits 10 v.toInt.natAbs) = (false, Nat.toDigits 10 v.toInt.natAbs) := by
      rw [if_neg hneg, List.nil_append, splitSign_digits hdigits]
    rw [hsign]
    refine ⟨⟨hne, hdigits⟩, by rw [hvalue, Bool.toNat_false]; omega, ?_⟩
    rw [if_neg Bool.false_ne_true, hvalue, ← Int64.toInt_inj,
      Int64.toInt_ofInt_of_le (by omega) (by omega)]
    omega

/-- The magnitude of a word that has one. -/
theorem magnitude_word (hmin : d ≠ Int64.minValue) : d.toInt.natAbs < 2 ^ 63 ∧
    (if d < 0 then -d else d) = Int64.ofNat d.toInt.natAbs := by
  have hlow := d.le_toInt
  have hhigh := d.toInt_lt
  have hne : d.toInt ≠ -2 ^ 63 := fun h => hmin (Int64.toInt_inj.mp h)
  have hfits : d.toInt.natAbs < 2 ^ 63 := by omega
  refine ⟨hfits, ?_⟩
  have hint := toInt_eq_natAbs d
  split
  · next hneg =>
    rw [if_pos hneg, ← Int64.toInt_neg_ofNat_of_le (by omega), Int64.toInt_inj] at hint
    rw [← Int64.neg_inj, Int64.neg_neg]
    exact hint
  · next hpos =>
    rw [if_neg hpos] at hint
    rw [← Int64.toInt_inj, Int64.toInt_ofNat_of_lt hfits]
    exact hint

/-- A decimal is printed as its sign and its digits. -/
theorem string_eq (hmin : d ≠ Int64.minValue) :
    string d = (numeralOf (decide (d < 0)) d.toInt.natAbs).text := by
  obtain ⟨hfits, hword⟩ := magnitude_word hmin
  have hscale : scale = Int64.ofNat (10 ^ exp) := rfl
  have hsmall : 10 ^ exp < 2 ^ 63 := by decide
  unfold string
  dsimp only
  rw [hword]
  generalize d.toInt.natAbs = n at hfits
  have hwhole : n / 10 ^ exp < 2 ^ 63 := (Nat.div_le_self _ _).trans_lt hfits
  have hfrac : n % 10 ^ exp < 2 ^ 63 := (Nat.mod_le _ _).trans_lt hfits
  have hmod : Int64.ofNat n % Int64.ofNat (10 ^ exp) = Int64.ofNat (n % 10 ^ exp) := by
    rw [← Int64.toInt_inj, Int64.toInt_mod, Int64.toInt_ofNat_of_lt hfits,
      Int64.toInt_ofNat_of_lt hsmall, Int64.toInt_ofNat_of_lt hfrac]
    rfl
  have hzero : Int64.ofNat (n % 10 ^ exp) = 0 ↔ (numeralOf (decide (d < 0)) n).frac = [] := by
    refine Iff.trans ⟨fun h => ?_, fun h => ?_⟩ (trimZeros_places_eq_nil n).symm
    · by_contra hne
      exact ofNat_ne_zero hfrac (Nat.pos_of_ne_zero hne) h
    · rw [h]
      rfl
  have hsign : (if d < 0 then "-" else "").toList =
      if (numeralOf (decide (d < 0)) n).neg then ['-'] else [] := by
    by_cases hneg : d < 0 <;> simp [numeralOf, hneg]
  rw [hscale, ← Int64.ofNat_div hfits hsmall, hmod, ← String.toList_inj, Numeral.text,
    String.toList_ofList, ← hsign]
  by_cases hnil : (numeralOf (decide (d < 0)) n).frac = []
  · rw [if_pos (hzero.mpr hnil), if_pos hnil, hnil, String.toList_append, formatInt_ofNat hwhole,
      List.append_nil, List.append_nil]
    rfl
  · rw [if_neg (mt hzero.mp hnil), if_neg hnil]
    simp only [String.toList_append, String.toList_ofList, formatInt_ofNat hwhole,
      formatInt_ofNat hfrac, List.append_assoc]
    rfl

/-- A decimal is printed as the number it stands for. -/
theorem value_string (d : D) :
    (numeralOf (decide (d < 0)) d.toInt.natAbs).value = value d := by
  have hint := toInt_eq_natAbs d
  rw [value_numeralOf, value]
  generalize d.toInt.natAbs = n at hint
  rw [hint]
  by_cases hneg : d < 0 <;> simp [signed, hneg, neg_div]

/-- A decimal is read back from what is printed. -/
theorem parse_string (hmin : d ≠ Int64.minValue) : parse (string d) = .ok d := by
  have hmax : (Int64.ofNat maxInt64).toInt = (maxInt64 : ℤ) := by decide
  have hle : |d.toInt| ≤ maxInt64 := by
    have hfits := (magnitude_word hmin).1
    rw [Int.abs_eq_natAbs, maxInt64]
    omega
  rw [string_eq hmin]
  refine Numeral.parse_text (value_string d).symm ?_
  rw [value_string, value, value, hmax, abs_div, abs_of_pos (by positivity : (0 : ℚ) < 10 ^ exp),
    div_le_div_iff_of_pos_right (by positivity), ← Int.cast_abs]
  exact_mod_cast hle

/-- The smallest word is printed as no number. -/
theorem parse_string_minValue : (parse (string Int64.minValue)).toOption = none := by decide

/-- What is printed is canonical and read back as it was, and different decimals are printed
differently. -/
theorem printed_is_read : (∀ d : D, d ≠ Int64.minValue →
      parse (string d) = .ok d ∧ ∃ m : Numeral, m.Canonical ∧ string d = m.text) ∧
    ∀ d e : D, string d = string e → d = e := by
  have hcanonical : ∀ d : D, decide (d < 0) = true → d.toInt.natAbs ≠ 0 := by
    intro d hneg hzero
    have hlt := Int64.lt_iff_toInt_lt.mp (of_decide_eq_true hneg)
    rw [Int.natAbs_eq_zero.mp hzero] at hlt
    exact lt_irrefl _ hlt
  have hapart : ∀ d : D, d ≠ Int64.minValue → string d ≠ string Int64.minValue := by
    intro d hmin h
    have hread := parse_string hmin
    rw [h] at hread
    have hnone := parse_string_minValue
    rw [hread] at hnone
    cases hnone
  refine ⟨fun d hmin => ⟨parse_string hmin, _, canonical_numeralOf (hcanonical d),
    string_eq hmin⟩, fun d e h => ?_⟩
  by_cases hd : d = Int64.minValue
  · by_contra hne
    rw [hd] at h hne
    exact hapart e (Ne.symm hne) h.symm
  · have he : e ≠ Int64.minValue := fun he => hapart d hd (he ▸ h)
    have hread := parse_string hd
    rw [h, parse_string he] at hread
    exact (Except.ok.inj hread).symm

/-- A loss of half a unit. -/
theorem printed_is_read_half : parse (string (-(scale / 2))) = .ok (-(scale / 2)) :=
  (printed_is_read.1 _ (by decide)).1

end SuperAgent.Fixed
