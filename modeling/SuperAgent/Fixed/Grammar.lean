import SuperAgent.Fixed.Exact
import SuperAgent.Fixed.Parse

/-!
# Which texts are decimals

A decimal is written as digits with at most one point, after at most one sign.
The reader hands the parts on both sides of the point to the integer parser,
which takes a sign of its own, so that some texts with a second sign are read as
well. Apart from these the reader takes exactly the decimals that fit.
-/

namespace SuperAgent.Fixed

/-- A number in digits: its sign and the digits on both sides of the point. -/
structure Numeral where
  neg : Bool
  whole : List Char
  frac : List Char
  digits : ∀ c ∈ whole ++ frac, c.isDigit
  nonempty : whole ++ frac ≠ []
  short : frac.length ≤ exp

/-- The value of digits. -/
def digitsValue (ds : List Char) : ℕ := Nat.ofDigitChars 10 ds 0

/-- A number as a sign and a magnitude. -/
def signed (neg : Bool) (x : ℚ) : ℚ := if neg then -x else x

/-- The number that is written. -/
def Numeral.value (m : Numeral) : ℚ :=
  signed m.neg (digitsValue m.whole + digitsValue m.frac / 10 ^ m.frac.length)

/-- Only a negative number needs its sign. -/
def Numeral.signs (m : Numeral) : List (List Char) := if m.neg then [['-']] else [[], ['+']]

/-- Only a fraction needs its point. -/
def Numeral.points (m : Numeral) : List (List Char) := if m.frac = [] then [[], ['.']] else [['.']]

/-- The ways to write a number. -/
def Numeral.WrittenAs (m : Numeral) (cs : List Char) : Prop :=
  ∃ sign ∈ m.signs, ∃ point ∈ m.points, cs = sign ++ (m.whole ++ (point ++ m.frac))

/-- A text is read exactly when it writes a number that fits, and as that number. -/
def ReadsNumerals (s : String) : Prop :=
  ∀ d, parse s = .ok d ↔ ∃ m : Numeral, m.WrittenAs (trimSpace s).toList ∧
    |m.value| ≤ value (Int64.ofNat maxInt64) ∧ value d = m.value

/-! ## The parts of a text -/

/-- What is before the point. -/
def before (cs : List Char) : List Char := cs.takeWhile (· ≠ '.')

/-- What is after the point. -/
def after (cs : List Char) : List Char := (cs.dropWhile (· ≠ '.')).drop 1

/-- What the integer parser takes for a number that is not negative, and the empty part. -/
def Readable (part : List Char) : Prop :=
  part = [] ∨ ((splitSign part).2 ≠ [] ∧ ∀ c ∈ (splitSign part).2, c.isDigit) ∧
    ((splitSign part).1 = true → digitsValue (splitSign part).2 = 0)

/-- The two parts in units of the last place. -/
def units (whole frac : List Char) : ℕ :=
  digitsValue (splitSign whole).2 * 10 ^ exp +
    digitsValue (splitSign frac).2 * 10 ^ (exp - frac.length)

/-- A part has a sign of its own. -/
def OwnSign (part : List Char) : Prop := part.head? = some '+' ∨ part.head? = some '-'

instance (part : List Char) : Decidable (OwnSign part) := inferInstanceAs (Decidable (_ ∨ _))

/-- After the sign of the text a part has another, and the integer parser takes both parts. -/
def SignedTwice (s : String) : Prop :=
  let cs := (splitSign (trimSpace s).toList).2
  (OwnSign (before cs) ∨ OwnSign (after cs)) ∧ Readable (before cs) ∧ Readable (after cs) ∧
    (after cs).length ≤ exp ∧ units (before cs) (after cs) ≤ maxInt64

variable {part whole frac cs : List Char} {shown s : String} {d v : D}

theorem digitsValue_lt (ds : List Char) (hd : ∀ c ∈ ds, c.isDigit) :
    digitsValue ds < 10 ^ ds.length := by
  induction ds using List.reverseRecOn with
  | nil => exact Nat.one_pos
  | append_singleton ds c ih =>
    have hrest := ih fun c hc => hd c (List.mem_append_left _ hc)
    have hdigit : c.isDigit := hd c (List.mem_append_right _ List.mem_cons_self)
    have hrange : 48 ≤ c.toNat ∧ c.toNat ≤ 57 := by
      simpa [Char.isDigit, UInt32.le_iff_toNat_le] using hdigit
    have hzero : '0'.toNat = 48 := rfl
    rw [digitsValue, Nat.ofDigitChars_append, Nat.ofDigitChars_cons, Nat.ofDigitChars_nil,
      List.length_append, List.length_singleton, Nat.pow_succ, ← digitsValue]
    omega

/-- A part of digits has no sign of its own. -/
theorem splitSign_of_not_own (h : ¬ OwnSign part) : splitSign part = (false, part) := by
  cases part with
  | nil => rfl
  | cons c cs =>
    refine splitSign_of_ne cs ?_ ?_
    · rintro rfl
      exact h (.inr rfl)
    · rintro rfl
      exact h (.inl rfl)

theorem not_own_of_digits (hd : ∀ c ∈ part, c.isDigit) : ¬ OwnSign part := by
  rintro (h | h)
  · cases hd _ (List.mem_of_mem_head? h)
  · cases hd _ (List.mem_of_mem_head? h)

/-- A part without a sign of its own is read when it is digits. -/
theorem readable_iff_digits (h : ¬ OwnSign part) : Readable part ↔ ∀ c ∈ part, c.isDigit := by
  rw [Readable, splitSign_of_not_own h]
  constructor
  · rintro (rfl | ⟨⟨-, hd⟩, -⟩)
    · nofun
    · exact hd
  · intro hd
    by_cases hnil : part = []
    · exact .inl hnil
    · exact .inr ⟨⟨hnil, hd⟩, nofun⟩

/-- A part with a sign of its own, and the rest of it. -/
theorem exists_of_own (h : OwnSign part) :
    ∃ c ds, part = c :: ds ∧ c.utf8Size = 1 ∧ (splitSign part).2 = ds := by
  rcases h with h | h
  · obtain ⟨ds, rfl⟩ := List.head?_eq_some_iff.mp h
    exact ⟨'+', ds, rfl, by decide, rfl⟩
  · obtain ⟨ds, rfl⟩ := List.head?_eq_some_iff.mp h
    exact ⟨'-', ds, rfl, by decide, rfl⟩

/-- A part that is read has one byte a letter, and not more digits than letters. -/
theorem byteLength_readable (h : Readable part) : byteLength part = part.length := by
  by_cases hown : OwnSign part
  · obtain ⟨c, ds, rfl, hsize, hrest⟩ := exists_of_own hown
    have hd : ∀ c ∈ ds, c.isDigit := by
      rcases h with h | ⟨⟨-, h⟩, -⟩
      · cases h
      · rwa [hrest] at h
    have hbytes := byteLength_digits hd
    rw [byteLength] at hbytes
    rw [byteLength, List.map_cons, List.sum_cons, hsize, hbytes, List.length_cons, Nat.add_comm]
  · exact byteLength_digits ((readable_iff_digits hown).mp h)

theorem length_splitSign_le (part : List Char) : (splitSign part).2.length ≤ part.length := by
  by_cases hown : OwnSign part
  · obtain ⟨c, ds, rfl, -, hrest⟩ := exists_of_own hown
    rw [hrest, List.length_cons]
    omega
  · rw [splitSign_of_not_own hown]

/-! ## What the reader does with them -/

/-- A word that is not negative was read without a minus sign, or is zero. -/
theorem nonneg_signed_iff {neg : Bool} {n : ℕ} (hn : n < 2 ^ 63 + neg.toNat) :
    ¬ Int64.ofInt (if neg then -(n : ℤ) else n) < 0 ↔ neg = true → n = 0 := by
  have hle := Bool.toNat_le neg
  rw [Int64.lt_iff_toInt_lt, Int64.toInt_ofInt_of_le (by split <;> omega)
    (by cases neg <;> simp at hn ⊢ <;> omega)]
  cases neg <;> simp

/-- A part that is not empty is read as a number that is not negative. -/
theorem parseInt_nonneg_iff (hne : part ≠ []) :
    parseInt (String.ofList part) = .ok v ∧ ¬ v < 0 ↔
      Readable part ∧ digitsValue (splitSign part).2 < 2 ^ 63 ∧
        v = Int64.ofNat (digitsValue (splitSign part).2) := by
  rw [parseInt_eq_ok, ← digitsValue, Readable, or_iff_right hne]
  generalize digitsValue (splitSign part).2 = n
  generalize (splitSign part).1 = neg
  constructor
  · rintro ⟨⟨hd, hfits, rfl⟩, hnonneg⟩
    have hzero := (nonneg_signed_iff hfits).mp hnonneg
    cases neg with
    | false => exact ⟨⟨hd, hzero⟩, hfits, Int64.ofInt_eq_ofNat⟩
    | true =>
      obtain rfl : n = 0 := hzero rfl
      exact ⟨⟨hd, hzero⟩, by decide, rfl⟩
  · rintro ⟨⟨hd, hzero⟩, hfits, rfl⟩
    cases neg with
    | false =>
      exact ⟨⟨hd, hfits, Int64.ofInt_eq_ofNat.symm⟩, not_neg_ofNat hfits⟩
    | true =>
      obtain rfl : n = 0 := hzero rfl
      exact ⟨⟨hd, by decide, rfl⟩, by decide⟩

theorem parseWhole_eq_ok : parseWhole shown part = .ok v ↔
    Readable part ∧ digitsValue (splitSign part).2 < 2 ^ 63 ∧
      v = Int64.ofNat (digitsValue (splitSign part).2) := by
  by_cases hnil : part = []
  · subst hnil
    rw [parseWhole, if_pos rfl]
    exact ⟨fun h => ⟨.inl rfl, by decide, (Except.ok.inj h).symm⟩,
      fun h => congrArg Except.ok h.2.2.symm⟩
  · rw [← parseInt_nonneg_iff hnil, parseWhole, if_neg hnil]
    cases parseInt (String.ofList part) with
    | error e => cases e <;> simp
    | ok w =>
      dsimp only
      rw [Except.ok.injEq]
      split
      · next hneg =>
        refine ⟨fun h => (by cases h), fun h => ?_⟩
        obtain ⟨rfl, hnonneg⟩ := h
        exact (hnonneg hneg).elim
      · next hnonneg =>
        rw [Except.ok.injEq]
        exact ⟨fun h => ⟨h, h ▸ hnonneg⟩, And.left⟩

theorem parseFrac_eq_ok (hlength : part.length ≤ exp) : parseFrac shown part = .ok v ↔
    Readable part ∧
      v = Int64.ofNat (digitsValue (splitSign part).2 * 10 ^ (exp - part.length)) := by
  by_cases hnil : part = []
  · subst hnil
    rw [parseFrac, if_pos rfl]
    exact ⟨fun h => ⟨.inl rfl, (Except.ok.inj h).symm⟩, fun h => congrArg Except.ok h.2.symm⟩
  · have hpart : parseFrac shown part = .ok v ↔ ∃ w, (parseInt (String.ofList part) = .ok w ∧
        ¬ w < 0) ∧ w * Int64.ofNat (10 ^ (exp - byteLength part)) = v := by
      rw [parseFrac, if_neg hnil]
      cases parseInt (String.ofList part) with
      | error e => simp
      | ok w =>
        dsimp only
        split
        · next hneg =>
          refine ⟨fun h => (by cases h), ?_⟩
          rintro ⟨_, h, -⟩
          obtain rfl := Except.ok.inj h.1
          exact (h.2 hneg).elim
        · next hnonneg =>
          rw [Except.ok.injEq]
          refine ⟨fun h => ⟨w, ⟨rfl, hnonneg⟩, h⟩, ?_⟩
          rintro ⟨_, h, hv⟩
          obtain rfl := Except.ok.inj h.1
          exact hv
    simp only [hpart, parseInt_nonneg_iff hnil]
    constructor
    · rintro ⟨w, ⟨hread, -, rfl⟩, rfl⟩
      rw [byteLength_readable hread, ← Int64.ofNat_mul]
      exact ⟨hread, rfl⟩
    · rintro ⟨hread, rfl⟩
      have hd : ∀ c ∈ (splitSign part).2, c.isDigit := (hread.resolve_left hnil).1.2
      have hlt := digitsValue_lt _ hd
      have hpow : 10 ^ (splitSign part).2.length ≤ 10 ^ exp :=
        Nat.pow_le_pow_right (by decide) ((length_splitSign_le part).trans hlength)
      have hsmall : 10 ^ exp < 2 ^ 63 := by decide
      refine ⟨_, ⟨hread, by omega, rfl⟩, ?_⟩
      rw [byteLength_readable hread, ← Int64.ofNat_mul]

/-- What is read: both parts, as the integer parser takes them, if together they fit. -/
structure Reads (neg : Bool) (cs : List Char) (d : D) : Prop where
  nonempty : ¬ (before cs = [] ∧ after cs = [])
  whole : Readable (before cs)
  frac : Readable (after cs)
  short : (after cs).length ≤ exp
  fits : units (before cs) (after cs) ≤ maxInt64
  value : d = Int64.ofInt (if neg then -(units (before cs) (after cs) : ℤ)
    else units (before cs) (after cs))

theorem length_le_byteLength (cs : List Char) : cs.length ≤ byteLength cs := by
  induction cs with
  | nil => exact Nat.le_refl _
  | cons c cs ih =>
    have hpos := c.utf8Size_pos
    rw [byteLength] at ih
    rw [byteLength, List.map_cons, List.sum_cons, List.length_cons]
    omega

/-- A word and its negative, from the magnitude. -/
theorem ofInt_signed (neg : Bool) (n : ℕ) :
    (if neg then -Int64.ofNat n else Int64.ofNat n) =
      Int64.ofInt (if neg then -(n : ℤ) else n) := by
  cases neg with
  | false => exact Int64.ofInt_eq_ofNat.symm
  | true => exact (congrArg Neg.neg Int64.ofInt_eq_ofNat.symm).trans (Int64.ofInt_neg n).symm

/-- The places after the point are less than a unit. -/
theorem frac_lt (h : Readable part) (hshort : part.length ≤ exp) :
    digitsValue (splitSign part).2 * 10 ^ (exp - part.length) < 10 ^ exp := by
  have hd : ∀ c ∈ (splitSign part).2, c.isDigit := by
    rcases h with rfl | h
    · nofun
    · exact h.1.2
  have hlt : digitsValue (splitSign part).2 < 10 ^ part.length :=
    (digitsValue_lt _ hd).trans_le (Nat.pow_le_pow_right (by decide) (length_splitSign_le part))
  calc digitsValue (splitSign part).2 * 10 ^ (exp - part.length)
      < 10 ^ part.length * 10 ^ (exp - part.length) :=
        Nat.mul_lt_mul_of_pos_right hlt (Nat.pow_pos (by decide))
    _ = 10 ^ exp := by rw [← Nat.pow_add, Nat.add_sub_of_le hshort]

theorem parse_eq_ok : parse s = .ok d ↔
    Reads (splitSign (trimSpace s).toList).1 (splitSign (trimSpace s).toList).2 d := by
  have hscale : scale.toInt.toNat = 10 ^ exp := by decide
  have hsmall : 10 ^ exp < 2 ^ 63 := by decide
  unfold parse
  dsimp only
  rw [sign_eq_splitSign, hscale]
  by_cases hempty : trimSpace s = ""
  · rw [if_pos hempty, hempty]
    exact ⟨nofun, fun h => (h.nonempty ⟨rfl, rfl⟩).elim⟩
  rw [if_neg hempty]
  generalize splitSign (trimSpace s).toList = sign
  obtain ⟨neg, cs⟩ := sign
  dsimp only
  rw [← before, ← after]
  by_cases hparts : before cs = [] ∧ after cs = []
  · rw [if_pos hparts]
    exact ⟨nofun, fun h => (h.nonempty hparts).elim⟩
  rw [if_neg hparts]
  by_cases hbytes : exp < byteLength (after cs)
  · rw [if_pos hbytes]
    refine ⟨nofun, fun h => ?_⟩
    have hlength := byteLength_readable h.frac
    have hshort := h.short
    omega
  have hshort : (after cs).length ≤ exp := (length_le_byteLength _).trans (not_lt.mp hbytes)
  rw [if_neg hbytes]
  simp only [bind_eq_ok, parseWhole_eq_ok, parseFrac_eq_ok hshort]
  constructor
  · rintro ⟨_, ⟨hwhole, hfits, rfl⟩, _, ⟨hfrac, rfl⟩, h⟩
    have hplaces := frac_lt hfrac hshort
    rw [Int64.toInt_ofNat_of_lt hfits, Int64.toInt_ofNat_of_lt (hplaces.trans hsmall),
      Int.toNat_natCast, Int.toNat_natCast] at h
    split at h
    · cases h
    · next hrange =>
      rw [not_or, not_le, not_lt] at hrange
      obtain ⟨hword, hle⟩ := hrange
      rw [Nat.mod_eq_of_lt hword] at h hle
      have hmax : maxInt64 = 2 ^ 63 - 1 := rfl
      refine ⟨hparts, hwhole, hfrac, hshort, ?_, ?_⟩
      · rw [units]
        omega
      · rw [← ofInt_signed, ← Except.ok.inj h, units, Int64.ofNat_add]
  · rintro ⟨-, hwhole, hfrac, -, hle, rfl⟩
    have hplaces := frac_lt hfrac hshort
    have hmax : maxInt64 = 2 ^ 63 - 1 := rfl
    rw [units] at hle
    have hfits : digitsValue (splitSign (before cs)).2 < 2 ^ 63 := by
      have hone : 1 ≤ 10 ^ exp := Nat.one_le_pow _ _ (by decide)
      have hmul := Nat.le_mul_of_pos_right (digitsValue (splitSign (before cs)).2) hone
      omega
    refine ⟨_, ⟨hwhole, hfits, rfl⟩, _, ⟨hfrac, rfl⟩, ?_⟩
    rw [Int64.toInt_ofNat_of_lt hfits, Int64.toInt_ofNat_of_lt (hplaces.trans hsmall),
      Int.toNat_natCast, Int.toNat_natCast, Nat.mod_eq_of_lt (by omega), if_neg (by omega),
      ← ofInt_signed, units, Int64.ofNat_add]

/-! ## Numbers in digits -/

/-- Where neither part has a sign of its own the parts are the digits of a number. -/
theorem exists_numeral {neg : Bool} (h : Reads neg cs d) (hwhole : ¬ OwnSign (before cs))
    (hfrac : ¬ OwnSign (after cs)) :
    ∃ m : Numeral, m.neg = neg ∧ m.whole = before cs ∧ m.frac = after cs := by
  refine ⟨⟨neg, before cs, after cs, ?_, ?_, h.short⟩, rfl, rfl, rfl⟩
  · intro c hc
    rcases List.mem_append.mp hc with hc | hc
    · exact (readable_iff_digits hwhole).mp h.whole c hc
    · exact (readable_iff_digits hfrac).mp h.frac c hc
  · rw [ne_eq, List.append_eq_nil_iff]
    exact h.nonempty

namespace Numeral

variable {m : Numeral}

theorem digits_whole (m : Numeral) : ∀ c ∈ m.whole, c.isDigit := fun c hc =>
  m.digits c (List.mem_append_left _ hc)

theorem digits_frac (m : Numeral) : ∀ c ∈ m.frac, c.isDigit := fun c hc =>
  m.digits c (List.mem_append_right _ hc)

theorem not_own_whole (m : Numeral) : ¬ OwnSign m.whole := not_own_of_digits m.digits_whole

theorem not_own_frac (m : Numeral) : ¬ OwnSign m.frac := not_own_of_digits m.digits_frac

/-- The point, if it is there, cuts the digits. -/
theorem cut {point : List Char} (hpoint : point ∈ m.points) :
    before (m.whole ++ (point ++ m.frac)) = m.whole ∧
      after (m.whole ++ (point ++ m.frac)) = m.frac := by
  have hdigits : ∀ c ∈ m.whole, decide (c ≠ '.') = true := fun c hc =>
    ne_point_of_digit (m.digits_whole c hc)
  have hcases : point = ['.'] ∨ point = [] ∧ m.frac = [] := by
    rw [points] at hpoint
    split at hpoint
    · next hnil => simpa [hnil, or_comm] using hpoint
    · exact .inl (List.mem_singleton.mp hpoint)
  rw [before, after, List.takeWhile_append_of_pos hdigits, List.dropWhile_append_of_pos hdigits]
  rcases hcases with rfl | ⟨rfl, hnil⟩
  · exact ⟨List.append_nil _, rfl⟩
  · rw [hnil]
    exact ⟨List.append_nil _, rfl⟩

/-- The digits start with no sign. -/
theorem not_own_text {point : List Char} (hpoint : point ∈ m.points) :
    ¬ OwnSign (m.whole ++ (point ++ m.frac)) := by
  have hchars : ∀ c ∈ m.whole ++ (point ++ m.frac), c.isDigit ∨ c = '.' := by
    intro c hc
    simp only [List.mem_append] at hc
    rcases hc with hc | hc | hc
    · exact .inl (m.digits_whole c hc)
    · rw [points] at hpoint
      split at hpoint <;> simp only [List.mem_cons, List.not_mem_nil, or_false] at hpoint
      · rcases hpoint with rfl | rfl
        · cases hc
        · exact .inr (List.mem_singleton.mp hc)
      · subst hpoint
        exact .inr (List.mem_singleton.mp hc)
    · exact .inl (m.digits_frac c hc)
  rintro (h | h) <;> exact absurd (hchars _ (List.mem_of_mem_head? h)) (by decide)

end Numeral

/-- The text is its sign and the rest. -/
theorem exists_sign (cs : List Char) : ∃ sign ∈ if (splitSign cs).1 then [['-']] else [[], ['+']],
    cs = sign ++ (splitSign cs).2 := by
  unfold splitSign
  split
  · next cs => exact ⟨['-'], by simp, rfl⟩
  · next cs => exact ⟨['+'], by simp, rfl⟩
  · exact ⟨[], by simp, rfl⟩

/-- The text is its two parts with the point between them, which may only be missing with the
second part. -/
theorem exists_point (cs : List Char) : ∃ point ∈ if after cs = [] then [[], ['.']] else [['.']],
    cs = before cs ++ (point ++ after cs) := by
  have hsplit := List.takeWhile_append_dropWhile (p := fun c => decide (c ≠ '.')) (l := cs)
  cases hrest : cs.dropWhile (· ≠ '.') with
  | nil =>
    have hafter : after cs = [] := by rw [after, hrest]; rfl
    rw [hrest, List.append_nil] at hsplit
    refine ⟨[], by simp [hafter], ?_⟩
    rw [hafter, before, hsplit]
    exact (List.append_nil cs).symm
  | cons c rest =>
    have hafter : after cs = rest := by rw [after, hrest]; rfl
    have hpoint : c = '.' := by
      have hhead := List.head?_dropWhile_not (fun c => decide (c ≠ '.')) cs
      rw [hrest] at hhead
      simpa using hhead
    subst hpoint
    refine ⟨['.'], by split <;> simp, ?_⟩
    rw [hafter, before, List.singleton_append, ← hrest]
    exact hsplit.symm

/-- A number is written as its sign and its parts. -/
theorem Numeral.writtenAs_iff {m : Numeral} : m.WrittenAs cs ↔ m.neg = (splitSign cs).1 ∧
    m.whole = before (splitSign cs).2 ∧ m.frac = after (splitSign cs).2 := by
  constructor
  · rintro ⟨sign, hsign, point, hpoint, rfl⟩
    have hsplit : splitSign (sign ++ (m.whole ++ (point ++ m.frac))) =
        (m.neg, m.whole ++ (point ++ m.frac)) := by
      have hplain := splitSign_of_not_own (m.not_own_text hpoint)
      rw [signs] at hsign
      cases hneg : m.neg with
      | false =>
        rw [hneg] at hsign
        have hcases : sign = [] ∨ sign = ['+'] := by simpa using hsign
        rcases hcases with rfl | rfl
        · exact hplain
        · rfl
      | true =>
        rw [hneg] at hsign
        obtain rfl : sign = ['-'] := by simpa using hsign
        rfl
    rw [hsplit]
    obtain ⟨hbefore, hafter⟩ := m.cut hpoint
    exact ⟨rfl, hbefore.symm, hafter.symm⟩
  · rintro ⟨hneg, hwhole, hfrac⟩
    obtain ⟨sign, hsign, hcs⟩ := exists_sign cs
    obtain ⟨point, hpoint, hrest⟩ := exists_point (splitSign cs).2
    refine ⟨sign, ?_, point, ?_, ?_⟩
    · rwa [signs, hneg]
    · rwa [points, hfrac]
    · rw [hwhole, hfrac, ← hrest]
      exact hcs

/-! ## Their values -/

/-- The number in units of the last place. -/
theorem Numeral.value_eq (m : Numeral) :
    m.value = signed m.neg ((units m.whole m.frac : ℚ) / 10 ^ exp) := by
  have hpow : (10 : ℚ) ^ exp = 10 ^ (exp - m.frac.length) * 10 ^ m.frac.length := by
    rw [← pow_add, Nat.sub_add_cancel m.short]
  rw [value, units, splitSign_of_not_own m.not_own_whole, splitSign_of_not_own m.not_own_frac]
  push_cast
  rw [add_div, mul_div_cancel_right₀ _ (by positivity), hpow, mul_comm (10 ^ (exp - _)),
    mul_div_mul_right _ _ (by positivity)]

theorem abs_signed (neg : Bool) (x : ℚ) : |signed neg x| = |x| := by
  cases neg with
  | false => rfl
  | true => exact abs_neg x

/-- The number fits when its units do. -/
theorem Numeral.abs_value_le_iff (m : Numeral) :
    |m.value| ≤ Fixed.value (Int64.ofNat maxInt64) ↔ units m.whole m.frac ≤ maxInt64 := by
  have hmax : (Int64.ofNat maxInt64).toInt = (maxInt64 : ℤ) := by decide
  rw [m.value_eq, abs_signed, abs_of_nonneg (by positivity), Fixed.value, hmax,
    div_le_div_iff_of_pos_right (by positivity), Int.cast_natCast]
  exact Nat.cast_le

/-- The word of signed units stands for the signed number. -/
theorem value_eq_iff {neg : Bool} {n : ℕ} (hn : n ≤ maxInt64) :
    value d = signed neg ((n : ℚ) / 10 ^ exp) ↔
      d = Int64.ofInt (if neg then -(n : ℤ) else n) := by
  have hmax : maxInt64 = 2 ^ 63 - 1 := rfl
  have hint : (Int64.ofInt (if neg then -(n : ℤ) else n)).toInt = if neg then -(n : ℤ) else n :=
    Int64.toInt_ofInt_of_le (by split <;> omega) (by split <;> omega)
  have hsigned : signed neg ((n : ℚ) / 10 ^ exp) =
      ((if neg then -(n : ℤ) else n : ℤ) : ℚ) / 10 ^ exp := by
    cases neg <;> simp [signed, neg_div]
  rw [← Int64.toInt_inj, hint, hsigned, value, div_left_inj' (by positivity), Int.cast_inj]

/-- A number that fits is read as its value, however it is written. -/
theorem Numeral.parse_of_written (m : Numeral) (hm : m.WrittenAs (trimSpace s).toList)
    (hfits : |m.value| ≤ Fixed.value (Int64.ofNat maxInt64)) (hvalue : Fixed.value d = m.value) :
    parse s = .ok d := by
  obtain ⟨hneg, hwhole, hfrac⟩ := writtenAs_iff.mp hm
  rw [m.abs_value_le_iff] at hfits
  rw [m.value_eq, value_eq_iff hfits] at hvalue
  rw [parse_eq_ok]
  refine ⟨?_, ?_, ?_, ?_, ?_, ?_⟩
  · rw [← hwhole, ← hfrac, ← List.append_eq_nil_iff]
    exact m.nonempty
  · rw [← hwhole, readable_iff_digits m.not_own_whole]
    exact m.digits_whole
  · rw [← hfrac, readable_iff_digits m.not_own_frac]
    exact m.digits_frac
  · rw [← hfrac]
    exact m.short
  · rw [← hwhole, ← hfrac]
    exact hfits
  · rw [← hneg, ← hwhole, ← hfrac]
    exact hvalue

/-- The reader takes exactly the numbers that fit, and each as its value, unless a part has a sign
of its own and the integer parser takes it. -/
theorem readsNumerals_iff (s : String) : ReadsNumerals s ↔ ¬ SignedTwice s := by
  constructor
  · rintro h ⟨hown, hwhole, hfrac, hshort, hfits⟩
    have hread := (h _).mp (parse_eq_ok.mpr ⟨?_, hwhole, hfrac, hshort, hfits, rfl⟩)
    · obtain ⟨m, hm, -⟩ := hread
      obtain ⟨-, hbefore, hafter⟩ := Numeral.writtenAs_iff.mp hm
      rw [← hbefore, ← hafter] at hown
      exact hown.elim m.not_own_whole m.not_own_frac
    · rintro ⟨hbefore, hafter⟩
      rw [hbefore, hafter] at hown
      exact absurd hown (by decide)
  · intro h d
    constructor
    · intro hd
      have hread := parse_eq_ok.mp hd
      have hown : ¬ (OwnSign _ ∨ OwnSign _) := fun hown =>
        h ⟨hown, hread.whole, hread.frac, hread.short, hread.fits⟩
      rw [not_or] at hown
      obtain ⟨m, hneg, hwhole, hfrac⟩ := exists_numeral hread hown.1 hown.2
      refine ⟨m, Numeral.writtenAs_iff.mpr ⟨hneg, hwhole, hfrac⟩, ?_, ?_⟩
      · rw [m.abs_value_le_iff, hwhole, hfrac]
        exact hread.fits
      · rw [m.value_eq, hneg, hwhole, hfrac, value_eq_iff hread.fits]
        exact hread.value
    · rintro ⟨m, hm, hfits, hvalue⟩
      exact m.parse_of_written hm hfits hvalue

/-- A second sign is read, before the digits and after the point. -/
theorem reads_second_sign : (parse "++5").toOption = some (5 * scale) ∧
    (parse "1.+5").toOption = some (scale + scale / 20) ∧ ¬ ReadsNumerals "++5" := by
  refine ⟨by decide, by decide, fun h => ?_⟩
  have hread : parse "++5" = .ok (5 * scale) := by decide
  obtain ⟨m, hm, -⟩ := (h _).mp hread
  obtain ⟨-, hwhole, -⟩ := Numeral.writtenAs_iff.mp hm
  have hsign : '+' ∈ m.whole := by
    rw [hwhole]
    decide
  cases m.digits_whole _ hsign

end SuperAgent.Fixed
