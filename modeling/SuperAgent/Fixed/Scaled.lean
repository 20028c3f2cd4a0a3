import SuperAgent.Fixed.Decimal

/-!
# Venue-scaled integers

Venues report prices, sizes and amounts as integers with a number of decimal
places of their own.
-/

namespace SuperAgent.Fixed

/-- Why a value is not a decimal. -/
inductive Error
  | errSyntax (detail : String)
  | errRange (detail : String)
  deriving DecidableEq

/-- What an error says. -/
def Error.text : Error → String
  | .errSyntax detail => "fixed: invalid decimal syntax: " ++ detail
  | .errRange detail => "fixed: value out of range: " ++ detail

/-- The powers of ten a 64-bit integer can hold: one with no zeros and eighteen more. -/
def pow10s : Nat := 19

/-- The decimal of an integer with a number of decimal places. More places than a decimal
carries are rounded half away from zero. -/
def fromScaled (v : Int64) (decimals : Int) : Except Error D :=
  if decimals < 0 ∨ pow10s ≤ decimals then
    .error (.errRange (toString decimals ++ " decimals"))
  else if decimals ≤ exp then
    let product := v.toInt.natAbs * 10 ^ (exp - decimals.toNat)
    if maxInt64 < product then
      .error (.errRange (formatInt v ++ " scaled by 1e" ++ toString decimals))
    else .ok (if v < 0 then -Int64.ofNat product else Int64.ofNat product)
  else
    let div := 10 ^ (decimals.toNat - exp)
    let q := v.toInt.tdiv div
    let r := v.toInt.tmod div
    let away := if v < 0 then -1 else 1
    .ok (Int64.ofInt (if div ≤ r.natAbs * 2 then q + away else q))

/-- The magnitude; the smallest decimal is its own. -/
def abs (d : D) : D := if d < 0 then -d else d

/-- The sign of a magnitude. -/
def sign (d : D) : D := if d < 0 then -1 else 1

/-- A decimal as an integer with a number of decimal places, rounded half away from zero. -/
def toScaled (d : D) (decimals : Int) : Except Error Int64 :=
  if decimals < 0 ∨ pow10s ≤ decimals then
    .error (.errRange (toString decimals ++ " decimals"))
  else if exp ≤ decimals then
    let product := d.toInt.natAbs * 10 ^ (decimals.toNat - exp)
    if maxInt64 < product then
      .error (.errRange (string d ++ " to 1e" ++ toString decimals))
    else .ok (sign d * Int64.ofNat product)
  else
    let div := 10 ^ (exp - decimals.toNat)
    let q := d.toInt.tdiv div
    let r := d.toInt.tmod div
    .ok (Int64.ofInt (if div ≤ r.natAbs * 2 then q + (sign d).toInt else q))

example : (fromScaled 784131 1).toOption = some (784131 * scale / 10) := by decide

end SuperAgent.Fixed
