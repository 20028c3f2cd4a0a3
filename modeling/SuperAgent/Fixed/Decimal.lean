import Mathlib.Data.Int.Order.Basic
import Mathlib.Algebra.Order.Ring.Int

/-!
# Fixed-point decimals

The decimal every price, size and amount is written in: a 64-bit integer scaled
by `10^8`. Sums and differences wrap as the machine's do; products and quotients
round half away from zero and panic, here `none`, when they do not fit.
-/

namespace SuperAgent.Fixed

/-- A fixed-point decimal with `exp` decimal places. -/
abbrev D := Int64

/-- The number of decimal places a decimal carries. -/
def exp : Nat := 8

/-- `10 ^ exp`: one whole unit. -/
def scale : D := 100000000

/-- The decimal of a whole number of units. -/
def fromInt (i : Int64) : D := i * scale

/-- The largest 64-bit integer. -/
def maxInt64 : Nat := 2 ^ 63 - 1

/-- `a * b / c` at 128 bits, rounding half away from zero. Both ways of failing panic in
the source: a quotient beyond 64 bits, and one beyond the signed range. -/
def mulDiv (a b c : Int64) : Option Int64 :=
  if c = 0 then none else
    let neg := ((decide (a < 0)).xor (decide (b < 0))).xor (decide (c < 0))
    let product := a.toInt.natAbs * b.toInt.natAbs
    let uc := c.toInt.natAbs
    if uc ≤ product / 2 ^ 64 then none else
      let rounds := uc ≤ product % uc * 2
      -- the increment is on an unsigned word and wraps there
      let q := if rounds then (product / uc + 1) % 2 ^ 64 else product / uc
      if maxInt64 < q then none
      else some (if neg then -Int64.ofNat q else Int64.ofNat q)

/-- The product of two decimals. -/
def mul (a b : D) : Option D := mulDiv a b scale

/-- The quotient of two decimals; dividing by zero panics. -/
def div (a b : D) : Option D := mulDiv a scale b

/-- A decimal integer. -/
def formatInt (i : Int64) : String := toString i.toInt

/-- The decimal with trailing zeros trimmed. A negative value is negated on the word, so the
smallest one keeps its sign. -/
def string (d : D) : String :=
  let sign := if d < 0 then "-" else ""
  let v := if d < 0 then -d else d
  let whole := v / scale
  let frac := v % scale
  if frac = 0 then sign ++ formatInt whole else
    let digits := (formatInt frac).toList
    let padded := List.replicate (exp - digits.length) '0' ++ digits
    let trimmed := padded.reverse.dropWhile (· = '0') |>.reverse
    sign ++ formatInt whole ++ "." ++ String.ofList trimmed

/-- Whether an integer is one a word can hold. -/
def Fits (x : Int) : Prop := -2 ^ 63 ≤ x ∧ x < 2 ^ 63

instance (x : Int) : Decidable (Fits x) := inferInstanceAs (Decidable (_ ∧ _))

variable {a b : D}

/-- A sum that fits is the sum of the values. -/
theorem toInt_add_of_fits (h : Fits (a.toInt + b.toInt)) :
    (a + b).toInt = a.toInt + b.toInt := by
  obtain ⟨hlo, hhi⟩ := h
  rw [Int64.toInt_add]
  apply Int.bmod_eq_of_le <;> omega

/-- A difference that fits is the difference of the values. -/
theorem toInt_sub_of_fits (h : Fits (a.toInt - b.toInt)) :
    (a - b).toInt = a.toInt - b.toInt := by
  obtain ⟨hlo, hhi⟩ := h
  rw [Int64.toInt_sub]
  apply Int.bmod_eq_of_le <;> omega

example : mul (3 * scale) (scale / 2) = some (3 * scale / 2) := by decide

end SuperAgent.Fixed
