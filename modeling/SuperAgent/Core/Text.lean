import Mathlib.Algebra.GroupWithZero.Nat

/-!
# Text

The few operations on text the platform keys things by. Letters beyond ASCII
keep their case; no market or account is named with one.
-/

namespace SuperAgent

/-- White space, as Unicode has it. -/
def isSpace (c : Char) : Bool :=
  let n := c.toNat
  (9 ≤ n && n ≤ 13) || n = 0x20 || n = 0x85 || n = 0xA0 || n = 0x1680 ||
    (0x2000 ≤ n && n ≤ 0x200A) || n = 0x2028 || n = 0x2029 || n = 0x202F || n = 0x205F || n = 0x3000

/-- The text without the white space around it. -/
def trimSpace (s : String) : String :=
  String.ofList ((s.toList.dropWhile isSpace).reverse.dropWhile isSpace).reverse

/-- The text in capital letters. -/
def toUpper (s : String) : String := String.ofList (s.toList.map Char.toUpper)

/-- The text in small letters. -/
def toLower (s : String) : String := String.ofList (s.toList.map Char.toLower)

/-- Whether two texts are the same but for the case of their letters. -/
def equalFold (s t : String) : Bool := s.toList.map Char.toLower == t.toList.map Char.toLower

/-- The length in bytes. -/
def byteLength (cs : List Char) : Nat := (cs.map Char.utf8Size).sum

/-- A text around the first of a letter in it. -/
def cut (sep : Char) : List Char → Option (List Char × List Char)
  | [] => none
  | c :: cs => if c = sep then some ([], cs) else (cut sep cs).map fun p => (c :: p.1, p.2)

/-- Why a text is not the integer it should be. -/
inductive NumError
  | errSyntax
  | errRange
  deriving DecidableEq

/-- Digits read from the left as an unsigned 64-bit integer: the first thing wrong is reported. -/
def parseUint (digits : List Char) : Except NumError Nat :=
  if digits = [] then .error .errSyntax
  else digits.foldlM (fun n c =>
    if ¬ c.isDigit then .error .errSyntax
    else if 2 ^ 64 ≤ n * 10 + (c.toNat - 48) then .error .errRange
    else .ok (n * 10 + (c.toNat - 48))) 0

/-- A text read as a signed 64-bit integer in base ten. -/
def parseInt (s : String) : Except NumError Int64 :=
  let (neg, digits) := match s.toList with
    | '+' :: cs => (false, cs)
    | '-' :: cs => (true, cs)
    | cs => (false, cs)
  match parseUint digits with
  | .error e => .error e
  | .ok n =>
    if ¬ neg ∧ 2 ^ 63 ≤ n ∨ neg ∧ 2 ^ 63 < n then .error .errRange
    else .ok (Int64.ofInt (if neg then -n else n))

/-- A letter that is not in the first part cuts there. -/
theorem cut_append {sep : Char} {cs ds : List Char} (h : sep ∉ cs) :
    cut sep (cs ++ sep :: ds) = some (cs, ds) := by
  induction cs with
  | nil => exact if_pos rfl
  | cons c cs ih =>
    rw [List.mem_cons, not_or] at h
    rw [List.cons_append, cut, if_neg fun heq => h.1 heq.symm, ih h.2]
    rfl

/-! ## Digits -/

/-- Text without white space has none around it. -/
theorem trimSpace_eq_self {s : String} (h : ∀ c ∈ s.toList, isSpace c = false) :
    trimSpace s = s := by
  have hkeep : ∀ cs : List Char, (∀ c ∈ cs, isSpace c = false) → cs.dropWhile isSpace = cs := by
    intro cs hcs
    cases cs with
    | nil => rfl
    | cons c cs => simp [hcs c List.mem_cons_self]
  have hback : ∀ c ∈ s.toList.reverse, isSpace c = false := fun c hc => h c (List.mem_reverse.mp hc)
  rw [trimSpace, hkeep _ h, hkeep _ hback, List.reverse_reverse, String.ofList_toList]

theorem not_space_of_digit {c : Char} (h : c.isDigit) : isSpace c = false := by
  have hrange : 48 ≤ c.toNat ∧ c.toNat ≤ 57 := by
    simpa [Char.isDigit, UInt32.le_iff_toNat_le] using h
  simp only [isSpace, Bool.or_eq_false_iff, Bool.and_eq_false_iff, decide_eq_false_iff_not]
  omega

/-- A digit is one byte. -/
theorem byteLength_digits {ds : List Char} (hd : ∀ c ∈ ds, c.isDigit) :
    byteLength ds = ds.length := by
  induction ds with
  | nil => rfl
  | cons c ds ih =>
    have hdigit : c.isDigit := hd c List.mem_cons_self
    have hsize : c.utf8Size = 1 := by
      rw [Char.utf8Size_eq_one_iff]
      simp only [Char.isDigit, Bool.and_eq_true, decide_eq_true_eq, UInt32.le_iff_toNat_le] at *
      exact Nat.le_trans hdigit.2 (by decide)
    have hrest : byteLength ds = ds.length := ih fun c hc => hd c (List.mem_cons_of_mem _ hc)
    rw [byteLength, List.map_cons, List.sum_cons, ← byteLength, hsize, hrest, List.length_cons]
    omega

/-- Reading more digits makes the value no smaller. -/
theorem le_ofDigitChars (ds : List Char) (n : Nat) : n ≤ Nat.ofDigitChars 10 ds n := by
  induction ds generalizing n with
  | nil => exact Nat.le_refl n
  | cons c ds ih =>
    rw [Nat.ofDigitChars_cons]
    have hrest := ih (10 * n + (c.toNat - '0'.toNat))
    omega

/-- Digits are read as the value they write, unless it does not fit. -/
theorem parseUint_digits {ds : List Char} (hne : ds ≠ []) (hd : ∀ c ∈ ds, c.isDigit) :
    parseUint ds = if Nat.ofDigitChars 10 ds 0 < 2 ^ 64 then .ok (Nat.ofDigitChars 10 ds 0)
      else .error .errRange := by
  have hread : ∀ n < 2 ^ 64, ds.foldlM (fun n c =>
      if ¬ c.isDigit then .error .errSyntax
      else if 2 ^ 64 ≤ n * 10 + (c.toNat - 48) then .error .errRange
      else .ok (n * 10 + (c.toNat - 48))) n =
        if Nat.ofDigitChars 10 ds n < 2 ^ 64 then .ok (Nat.ofDigitChars 10 ds n)
        else (.error .errRange : Except NumError Nat) := by
    clear hne
    induction ds with
    | nil =>
      intro n hn
      rw [List.foldlM_nil, Nat.ofDigitChars_nil, if_pos hn]
      rfl
    | cons c ds ih =>
      intro n hn
      have hdigit : c.isDigit := hd c List.mem_cons_self
      have hvalue : 10 * n + (c.toNat - '0'.toNat) = n * 10 + (c.toNat - 48) := by
        rw [Nat.mul_comm]
        rfl
      rw [List.foldlM_cons, Nat.ofDigitChars_cons, hvalue, if_neg (not_not_intro hdigit)]
      by_cases hbig : 2 ^ 64 ≤ n * 10 + (c.toNat - 48)
      · have hgrows := le_ofDigitChars ds (n * 10 + (c.toNat - 48))
        rw [if_pos hbig, if_neg (by omega)]
        rfl
      · rw [if_neg hbig]
        exact ih (fun c hc => hd c (List.mem_cons_of_mem _ hc)) _ (by omega)
  rw [parseUint, if_neg hne]
  exact hread 0 (by omega)

/-- The digits of a number are read as that number, unless it does not fit. -/
theorem parseInt_digits {ds : List Char} (hne : ds ≠ []) (hd : ∀ c ∈ ds, c.isDigit) :
    parseInt (String.ofList ds) = if Nat.ofDigitChars 10 ds 0 < 2 ^ 63 then
      .ok (Int64.ofNat (Nat.ofDigitChars 10 ds 0)) else .error .errRange := by
  obtain ⟨c, cs, rfl⟩ := List.exists_cons_of_ne_nil hne
  have hdigit : c.isDigit := hd c List.mem_cons_self
  have hplus : c ≠ '+' := by
    rintro rfl
    cases hdigit
  have hminus : c ≠ '-' := by
    rintro rfl
    cases hdigit
  have hsigns : (match c :: cs with
      | '+' :: cs => (false, cs)
      | '-' :: cs => (true, cs)
      | cs => (false, cs)) = (false, c :: cs) := by
    split
    · next heq => exact absurd (List.cons.inj heq).1 hplus
    · next heq => exact absurd (List.cons.inj heq).1 hminus
    · rfl
  rw [parseInt, String.toList_ofList, hsigns]
  dsimp only
  rw [parseUint_digits hne hd]
  by_cases hfits : Nat.ofDigitChars 10 (c :: cs) 0 < 2 ^ 63
  · rw [if_pos (by omega), if_pos hfits]
    have hrange : ¬ (¬ false = true ∧ 2 ^ 63 ≤ Nat.ofDigitChars 10 (c :: cs) 0 ∨
        false = true ∧ 2 ^ 63 < Nat.ofDigitChars 10 (c :: cs) 0) := by
      rintro (⟨-, h⟩ | ⟨h, -⟩)
      · omega
      · cases h
    exact if_neg hrange
  · rw [if_neg hfits]
    by_cases hword : Nat.ofDigitChars 10 (c :: cs) 0 < 2 ^ 64
    · rw [if_pos hword]
      exact if_pos (.inl ⟨Bool.false_ne_true, by omega⟩)
    · rw [if_neg hword]

/-- Only digits are read. -/
theorem digits_of_parseUint {ds : List Char} {n : Nat} (h : parseUint ds = .ok n) :
    ds ≠ [] ∧ ∀ c ∈ ds, c.isDigit := by
  have hread : ∀ m, ds.foldlM (fun n c =>
      if ¬ c.isDigit then .error .errSyntax
      else if 2 ^ 64 ≤ n * 10 + (c.toNat - 48) then .error .errRange
      else .ok (n * 10 + (c.toNat - 48))) m = (.ok n : Except NumError Nat) →
        ∀ c ∈ ds, c.isDigit := by
    clear h
    induction ds with
    | nil => exact fun _ _ => nofun
    | cons c ds ih =>
      intro m hm
      rw [List.foldlM_cons] at hm
      by_cases hdigit : c.isDigit
      · rw [if_neg (not_not_intro hdigit)] at hm
        split at hm
        · cases hm
        · exact List.forall_mem_cons.mpr ⟨hdigit, ih _ hm⟩
      · rw [if_pos hdigit] at hm
        cases hm
  rw [parseUint] at h
  split at h
  · cases h
  · next hne => exact ⟨hne, hread 0 h⟩

/-- The sign a text starts with, if it is one, and the rest. -/
def splitSign : List Char → Bool × List Char
  | '-' :: cs => (true, cs)
  | '+' :: cs => (false, cs)
  | cs => (false, cs)

/-- Text that starts with neither sign has none. -/
theorem splitSign_of_ne {c : Char} (cs : List Char) (hminus : c ≠ '-') (hplus : c ≠ '+') :
    splitSign (c :: cs) = (false, c :: cs) := by
  unfold splitSign
  split
  · next heq => exact absurd (List.cons.inj heq).1 hminus
  · next heq => exact absurd (List.cons.inj heq).1 hplus
  · rfl

/-- The digits after the sign are read, and the value must fit. -/
theorem parseInt_eq_ok {cs : List Char} {v : Int64} : parseInt (String.ofList cs) = .ok v ↔
    ((splitSign cs).2 ≠ [] ∧ ∀ c ∈ (splitSign cs).2, c.isDigit) ∧
      Nat.ofDigitChars 10 (splitSign cs).2 0 < 2 ^ 63 + (splitSign cs).1.toNat ∧
      v = Int64.ofInt (if (splitSign cs).1 then -(Nat.ofDigitChars 10 (splitSign cs).2 0 : Int)
        else Nat.ofDigitChars 10 (splitSign cs).2 0) := by
  have hsigns : (match cs with
      | '+' :: cs => (false, cs)
      | '-' :: cs => (true, cs)
      | cs => (false, cs)) = splitSign cs := by
    unfold splitSign
    split
    · rfl
    · rfl
    · next hplus hminus =>
      split
      · next heq => exact (hminus _ rfl).elim
      · next heq => exact (hplus _ rfl).elim
      · rfl
  rw [parseInt, String.toList_ofList, hsigns]
  generalize splitSign cs = sign
  obtain ⟨neg, ds⟩ := sign
  dsimp only
  by_cases hds : ds ≠ [] ∧ ∀ c ∈ ds, c.isDigit
  · rw [parseUint_digits hds.1 hds.2]
    generalize Nat.ofDigitChars 10 ds 0 = n
    have hle := Bool.toNat_le neg
    have hbeyond : (¬ neg = true ∧ 2 ^ 63 ≤ n ∨ neg = true ∧ 2 ^ 63 < n) ↔
        ¬ n < 2 ^ 63 + neg.toNat := by
      cases neg <;> simp <;> omega
    by_cases hfits : n < 2 ^ 63 + neg.toNat
    · rw [if_pos (by omega)]
      dsimp only
      rw [if_neg (fun h => hbeyond.mp h hfits)]
      exact ⟨fun h => ⟨hds, hfits, (Except.ok.inj h).symm⟩, fun h => congrArg Except.ok h.2.2.symm⟩
    · refine iff_of_false (fun h => ?_) (fun h => hfits h.2.1)
      by_cases hword : n < 2 ^ 64
      · rw [if_pos hword] at h
        dsimp only at h
        rw [if_pos (hbeyond.mpr hfits)] at h
        cases h
      · rw [if_neg hword] at h
        cases h
  · refine iff_of_false (fun h => ?_) (fun h => hds h.1)
    split at h
    · cases h
    · next n hn => exact hds (digits_of_parseUint hn)

/-- Digits and a sign end no line. -/
theorem not_newline_of_parseInt {s : String} {v : Int64} (h : parseInt s = .ok v) :
    '\n' ∉ s.toList := by
  rw [← String.ofList_toList (s := s), parseInt_eq_ok] at h
  have hdigits := h.1.2
  intro hin
  have hrest : '\n' ∈ (splitSign s.toList).2 := by
    cases hs : s.toList with
    | nil => rw [hs] at hin; cases hin
    | cons c cs =>
      rw [hs] at hin
      by_cases hminus : c = '-'
      · subst hminus
        simpa [splitSign] using hin
      · by_cases hplus : c = '+'
        · subst hplus
          simpa [splitSign] using hin
        · rw [splitSign_of_ne cs hminus hplus]
          exact hin
  exact absurd (hdigits _ hrest) (by decide)

/-- Lines are read back from the text they are joined to. -/
theorem lines_inj {fs gs : List String} (hf : ∀ f ∈ fs, '\n' ∉ f.toList)
    (hg : ∀ g ∈ gs, '\n' ∉ g.toList) (hfs : fs ≠ []) (hgs : gs ≠ [])
    (h : "\n".intercalate fs = "\n".intercalate gs) : fs = gs := by
  have hline : "\n".toList = ['\n'] := by decide
  have hlists := congrArg String.toList h
  rw [String.toList_intercalate, String.toList_intercalate, hline] at hlists
  have hsplit := congrArg (List.splitOn '\n') hlists
  rw [List.splitOn_intercalate '\n' (by simpa using hf) (by simpa using hfs),
    List.splitOn_intercalate '\n' (by simpa using hg) (by simpa using hgs)] at hsplit
  exact (List.map_inj_right fun _ _ => String.toList_inj.mp).mp hsplit

end SuperAgent
