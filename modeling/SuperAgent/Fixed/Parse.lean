import SuperAgent.Core.Text
import SuperAgent.Core.Checked
import SuperAgent.Fixed.Scaled

/-!
# Decimals as text

How a decimal is read from text, and how the database writes the sum of a column
of decimals: with all eight places. A sum that is too large for a decimal is not
one when it is read back.
-/

namespace SuperAgent.Fixed

/-- The digits before the point. -/
def parseWhole (shown : String) (digits : List Char) : Except Error Int64 :=
  if digits = [] then .ok 0 else
    match parseInt (String.ofList digits) with
    | .error .errRange => .error (.errRange shown)
    | .error .errSyntax => .error (.errSyntax shown)
    | .ok v => if v < 0 then .error (.errSyntax shown) else .ok v

/-- The digits after the point, as units of the last place a decimal carries. -/
def parseFrac (shown : String) (digits : List Char) : Except Error Int64 :=
  if digits = [] then .ok 0 else
    match parseInt (String.ofList digits) with
    | .error _ => .error (.errSyntax shown)
    | .ok v =>
      if v < 0 then .error (.errSyntax shown)
      else .ok (v * Int64.ofNat (10 ^ (exp - byteLength digits)))

/-- Read a decimal. -/
def parse (s : String) : Except Error D :=
  let s := trimSpace s
  if s = "" then .error (.errSyntax "empty string") else
    let (neg, cs) := match s.toList with
      | '-' :: cs => (true, cs)
      | '+' :: cs => (false, cs)
      | cs => (false, cs)
    let shown := (String.ofList cs).quote
    let intPart := cs.takeWhile (· ≠ '.')
    let fracPart := (cs.dropWhile (· ≠ '.')).drop 1
    if intPart = [] ∧ fracPart = [] then .error (.errSyntax shown)
    else if exp < byteLength fracPart then
      .error (.errRange (shown ++ " has more than " ++ toString exp ++ " decimal places"))
    else do
      let whole ← parseWhole shown intPart
      let frac ← parseFrac shown fracPart
      let product := whole.toInt.toNat * scale.toInt.toNat
      if 2 ^ 64 ≤ product ∨ maxInt64 - frac.toInt.toNat < product % 2 ^ 64 then
        .error (.errRange shown)
      else
        let out := Int64.ofNat (product % 2 ^ 64) + frac
        .ok (if neg then -out else out)

/-- The eight places after the point. -/
def places (n : Nat) : List Char :=
  let frac := Nat.toDigits 10 (n % 10 ^ exp)
  List.replicate (exp - frac.length) '0' ++ frac

/-- The digits of a sum, without its sign. -/
def unsigned (n : Nat) : List Char := Nat.toDigits 10 (n / 10 ^ exp) ++ '.' :: places n

/-- A sum of decimals as the database writes it, with all its places. -/
def numericText (n : Int) : String :=
  String.ofList ((if n < 0 then ['-'] else []) ++ unsigned n.natAbs)

example : numericText (-50000000) = "-0.50000000" := by decide
example : (parse " -1.5 ").toOption = some (-150000000) := by decide

/-! ## Reading a sum back -/

theorem places_spec (n : Nat) : (places n).length = exp ∧ (∀ c ∈ places n, c.isDigit) ∧
    Nat.ofDigitChars 10 (places n) 0 = n % 10 ^ exp := by
  have hlength : (Nat.toDigits 10 (n % 10 ^ exp)).length ≤ exp :=
    (Nat.length_toDigits_le_iff (by decide) (by decide)).mpr (Nat.mod_lt _ (by decide))
  refine ⟨?_, ?_, ?_⟩
  · rw [places, List.length_append, List.length_replicate]
    omega
  · intro c hc
    rcases List.mem_append.mp hc with hc | hc
    · rw [(List.mem_replicate.mp hc).2]
      decide
    · exact Nat.isDigit_of_mem_toDigits (by decide) (by decide) hc
  · rw [places, Nat.ofDigitChars_append, Nat.ofDigitChars_replicate_zero, Nat.mul_zero,
      Nat.ofDigitChars_ten_toDigits]

/-- Digits before the point are read as their value, unless it does not fit. -/
theorem parseWhole_toDigits (shown : String) (n : Nat) :
    parseWhole shown (Nat.toDigits 10 n) =
      if n < 2 ^ 63 then .ok (Int64.ofNat n) else .error (.errRange shown) := by
  have hdigits : ∀ c ∈ Nat.toDigits 10 n, c.isDigit := fun c hc =>
    Nat.isDigit_of_mem_toDigits (by decide) (by decide) hc
  rw [parseWhole, if_neg Nat.toDigits_ne_nil, parseInt_digits Nat.toDigits_ne_nil hdigits,
    Nat.ofDigitChars_ten_toDigits]
  by_cases hfits : n < 2 ^ 63
  · rw [if_pos hfits, if_pos hfits]
    have hpos : ¬ Int64.ofNat n < 0 := by
      rw [Int64.lt_iff_toInt_lt, Int64.toInt_ofNat_of_lt hfits]
      exact not_lt.mpr (Int.natCast_nonneg n)
    exact if_neg hpos
  · rw [if_neg hfits, if_neg hfits]

/-- The eight places after the point are read as their value. -/
theorem parseFrac_places (shown : String) (n : Nat) :
    parseFrac shown (places n) = .ok (Int64.ofNat (n % 10 ^ exp)) := by
  obtain ⟨hlength, hdigits, hvalue⟩ := places_spec n
  have hne : places n ≠ [] := fun heq => by
    rw [heq] at hlength
    cases hlength
  have hlt : n % 10 ^ exp < 10 ^ exp := Nat.mod_lt _ (by decide)
  have hsmall : 10 ^ exp < 2 ^ 63 := by decide
  have hfits : n % 10 ^ exp < 2 ^ 63 := hlt.trans hsmall
  have hpos : ¬ Int64.ofNat (n % 10 ^ exp) < 0 := by
    rw [Int64.lt_iff_toInt_lt, Int64.toInt_ofNat_of_lt hfits]
    exact not_lt.mpr (Int.natCast_nonneg _)
  rw [parseFrac, if_neg hne, parseInt_digits hne hdigits, hvalue, if_pos hfits]
  dsimp only
  rw [if_neg hpos, byteLength_digits hdigits, hlength]
  exact congrArg Except.ok (Int64.mul_one _)

theorem isDigit_of_mem_toDigits {n : Nat} {c : Char} (hc : c ∈ Nat.toDigits 10 n) : c.isDigit :=
  Nat.isDigit_of_mem_toDigits (by decide) (by decide) hc

theorem ne_point_of_digit {c : Char} (h : c.isDigit) : decide (c ≠ '.') = true := by
  refine decide_eq_true ?_
  rintro rfl
  cases h

/-- The point cuts a sum into its two parts. -/
theorem unsigned_cut (n : Nat) :
    (unsigned n).takeWhile (· ≠ '.') = Nat.toDigits 10 (n / 10 ^ exp) ∧
      ((unsigned n).dropWhile (· ≠ '.')).drop 1 = places n := by
  have hdigits : ∀ c ∈ Nat.toDigits 10 (n / 10 ^ exp), decide (c ≠ '.') = true :=
    fun c hc => ne_point_of_digit (isDigit_of_mem_toDigits hc)
  constructor
  · rw [unsigned, List.takeWhile_append_of_pos hdigits, List.takeWhile_cons_of_neg (by decide),
      List.append_nil]
  · rw [unsigned, List.dropWhile_append_of_pos hdigits, List.dropWhile_cons_of_neg (by decide)]
    rfl

/-- The reader takes the sign off as the integer parser does. -/
theorem sign_eq_splitSign (cs : List Char) : (match cs with
    | '-' :: cs => (true, cs)
    | '+' :: cs => (false, cs)
    | cs => (false, cs)) = splitSign cs := rfl

/-- A sum starts with a digit, after its sign. -/
theorem signs_unsigned {p : Prop} [Decidable p] (n : Nat) :
    (match (if p then ['-'] else []) ++ unsigned n with
      | '-' :: cs => (true, cs)
      | '+' :: cs => (false, cs)
      | cs => (false, cs)) = (decide p, unsigned n) := by
  by_cases hp : p
  · rw [if_pos hp, decide_eq_true hp]
    rfl
  · obtain ⟨c, cs, hcs⟩ := List.exists_cons_of_ne_nil (Nat.toDigits_ne_nil (n := n / 10 ^ exp)
      (b := 10))
    have hdigit : c.isDigit := isDigit_of_mem_toDigits (hcs ▸ List.mem_cons_self)
    rw [if_neg hp, decide_eq_false hp, unsigned, hcs]
    change (match c :: (cs ++ '.' :: places n) with
      | '-' :: cs => (true, cs)
      | '+' :: cs => (false, cs)
      | cs => (false, cs)) = _
    split
    · next heq =>
      obtain ⟨rfl, -⟩ := List.cons.inj heq
      cases hdigit
    · next heq =>
      obtain ⟨rfl, -⟩ := List.cons.inj heq
      cases hdigit
    · rfl

/-- The database writes no white space. -/
theorem trimSpace_numericText (n : Int) : trimSpace (numericText n) = numericText n := by
  refine trimSpace_eq_self fun c hc => ?_
  rw [numericText, String.toList_ofList, List.mem_append, unsigned, List.mem_append,
    List.mem_cons] at hc
  rcases hc with hc | hc | rfl | hc
  · split at hc
    · rw [List.mem_singleton.mp hc]
      decide
    · cases hc
  · exact not_space_of_digit (isDigit_of_mem_toDigits hc)
  · decide
  · exact not_space_of_digit ((places_spec n.natAbs).2.1 c hc)

/-- The two parts and the sign make up the sum. -/
theorem assembled (n : Int) :
    (if n < 0 then -(Int64.ofNat (n.natAbs / 10 ^ exp * 10 ^ exp) + Int64.ofNat (n.natAbs % 10 ^ exp))
      else Int64.ofNat (n.natAbs / 10 ^ exp * 10 ^ exp) + Int64.ofNat (n.natAbs % 10 ^ exp)) =
      Int64.ofInt n := by
  rw [← Int64.ofNat_add, Nat.div_add_mod', ← Int64.ofInt_eq_ofNat]
  split
  · rw [← Int64.ofInt_neg, Int.ofNat_natAbs_of_nonpos (by omega), Int.neg_neg]
  · rw [Int.natAbs_of_nonneg (by omega)]

/-- A sum is read back as it was exactly when a decimal can hold it; otherwise it is an error. -/
theorem parse_numericText (n : Int) {d : D} :
    parse (numericText n) = .ok d ↔ n.natAbs ≤ maxInt64 ∧ d = Int64.ofInt n := by
  have hne : numericText n ≠ "" := by
    intro h
    have hlist := congrArg String.toList h
    rw [numericText, String.toList_ofList, unsigned] at hlist
    exact absurd hlist (by simp)
  obtain ⟨hint, hfrac⟩ := unsigned_cut n.natAbs
  obtain ⟨hlength, hdigits, -⟩ := places_spec n.natAbs
  have hparts : ¬ (Nat.toDigits 10 (n.natAbs / 10 ^ exp) = [] ∧ places n.natAbs = []) :=
    fun h => Nat.toDigits_ne_nil h.1
  have hbytes : ¬ exp < byteLength (places n.natAbs) := by
    rw [byteLength_digits hdigits, hlength]
    exact Nat.lt_irrefl _
  have hscale : scale.toInt.toNat = 10 ^ exp := by decide
  unfold parse
  rw [trimSpace_numericText, if_neg hne, numericText, String.toList_ofList, signs_unsigned]
  dsimp only
  rw [hint, hfrac, if_neg hparts, if_neg hbytes, parseWhole_toDigits, parseFrac_places, hscale]
  have hsplit := Nat.div_add_mod' n.natAbs (10 ^ exp)
  have hlt : n.natAbs % 10 ^ exp < 10 ^ exp := Nat.mod_lt _ (by decide)
  have hexp : 10 ^ exp = 100000000 := rfl
  have hmax : maxInt64 = 2 ^ 63 - 1 := rfl
  have hassembled := assembled n
  generalize n.natAbs / 10 ^ exp = whole at *
  generalize n.natAbs % 10 ^ exp = frac at *
  rw [hexp] at hsplit hlt
  by_cases hwhole : whole < 2 ^ 63
  · rw [if_pos hwhole]
    simp only [bind_eq_ok, Except.ok.injEq, exists_eq_left']
    rw [Int64.toInt_ofNat_of_lt hwhole, Int64.toInt_ofNat_of_lt (by omega), Int.toNat_natCast,
      Int.toNat_natCast]
    rw [hexp] at hassembled ⊢
    by_cases hfits : n.natAbs ≤ maxInt64
    · rw [if_neg (by omega), Nat.mod_eq_of_lt (by omega)]
      simp only [decide_eq_true_eq, hassembled, Except.ok.injEq]
      exact ⟨fun h => ⟨hfits, h.symm⟩, fun h => h.2.symm⟩
    · rw [if_pos (by omega)]
      exact iff_of_false nofun fun h => hfits h.1
  · rw [if_neg hwhole]
    refine iff_of_false nofun fun h => ?_
    obtain ⟨hfits, -⟩ := h
    omega

end SuperAgent.Fixed
